import Mathlib.Tactic
import Batchalign.Lib.Runs

/- The slots of the shared GPU workers: `get_or_create_gpu_worker`, `GpuWorkerSlot::worker_or_init`,
   `WorkerPool::shutdown`. A call takes one step at a time, up to an await or through one lock; a step
   that needs a lock is not there while it is held. Slots and workers are numbered as they are made. A
   worker that no slot and no caller keeps is dropped, which kills its process (`reap`). -/
namespace Batchalign.GpuSlots

variable {K : Type}

/-- `SharedGpuWorker` -/
structure Worker where
  /-- `check_available` is `Ok` -/
  accepts : Bool
  /-- its process was killed, or died -/
  stopped : Bool
deriving DecidableEq

inductive Occupancy where
  | empty
  | transitioning
  | worker (w : ℕ)
deriving DecidableEq

/-- Where a call stands: `s` is the slot it cloned, `w` the worker in its hands. -/
inductive Stage where
  /-- `gpu_workers.lock().await` -/
  | entering
  /-- the first look at the slot -/
  | looking (s : ℕ)
  /-- `transition.lock().await` -/
  | queued (s : ℕ)
  /-- the second look, with the transition -/
  | relooking (s : ℕ)
  | replacing (s : ℕ)
  /-- `worker.shutdown(WorkerRetired).await` of the generation before -/
  | retiring (s w : ℕ)
  /-- `init().await` -/
  | initializing (s : ℕ)
  /-- the look at the cancellation -/
  | checking (s w : ℕ)
  /-- `worker.shutdown(PoolShutdown).await` -/
  | ending (s w : ℕ)
  /-- `Ok`, and its caller has the worker; `late`: the cancellation came first, which the check rules out -/
  | returned (w : ℕ) (late : Bool)
  /-- `worker.shutdown(WorkerRetired).await` of a worker that a caller was given -/
  | shutting (w : ℕ)
  | released
  | failed
  | dropped
deriving DecidableEq

structure Call (K : Type) where
  key : K
  stage : Stage

/-- Where the one `shutdown` stands. -/
inductive Shutdown where
  | idle
  /-- the token is cancelled; before the map's lock -/
  | cancelled
  /-- with the map's lock and the slots still to look at -/
  | draining (rest : List ℕ)
  | stopping (w : ℕ) (rest : List ℕ)
  | returned
deriving DecidableEq

/-- The slots, the workers made for them, the calls and the shutdown. -/
structure Pool (K : Type) where
  /-- `gpu_workers` -/
  map : List (K × ℕ)
  made : ℕ
  occupancy : ℕ → Occupancy
  published : ℕ
  /-- each as it is published, until something closes or stops it -/
  workers : ℕ → Worker
  calls : List (Call K)
  shutdown : Shutdown

def Pool.new : Pool K :=
  ⟨[], 0, fun _ => .empty, 0, fun _ => ⟨true, false⟩, [], .idle⟩

/-- One step of a call or of the shutdown, or a new call. -/
inductive Event (K : Type) where
  | calls (key : K)
  /-- a call goes on; `ok` where its initializer decides -/
  | advances (k : ℕ) (ok : Bool)
  /-- a call is dropped at its await -/
  | drops (k : ℕ)
  /-- the caller lets the worker it was given go -/
  | releases (k : ℕ)
  /-- a request of the caller timed out: a task begins to retire its worker -/
  | retires (k : ℕ)
  /-- the caller's worker is refused: its key's slot is taken, and the worker begins to be retired -/
  | refuses (k : ℕ)
  /-- a worker's stream closes -/
  | closes (w : ℕ)
  | dies (w : ℕ)
  /-- `shutdown` goes on; a drain looks at the slot at place `i` of its rest -/
  | shutsDown (i : ℕ)

/-! What a call at a stage has. -/

namespace Stage

def slot? : Stage → Option ℕ
  | .looking s | .queued s | .relooking s | .replacing s | .retiring s _ | .initializing s
  | .checking s _ | .ending s _ => some s
  | _ => none

def locks? : Stage → Option ℕ
  | .relooking s | .replacing s | .retiring s _ | .initializing s => some s
  | _ => none

def worker? : Stage → Option ℕ
  | .retiring _ w | .checking _ w | .ending _ w | .returned w _ | .shutting w => some w
  | _ => none

def running : Stage → Bool
  | .looking _ | .relooking _ | .replacing _ | .checking _ _ => true
  | _ => false

def ended : Stage → Bool
  | .returned _ _ | .released | .failed | .dropped => true
  | _ => false

end Stage

def Shutdown.rest : Shutdown → List ℕ
  | .draining rest | .stopping _ rest => rest
  | _ => []

def Shutdown.worker? : Shutdown → Option ℕ
  | .stopping w _ => some w
  | _ => none

def Shutdown.hasMap : Shutdown → Bool
  | .draining _ | .stopping _ _ => true
  | _ => false

namespace Pool

def slotOf [DecidableEq K] (S : Pool K) (key : K) : Option ℕ :=
  (S.map.find? (fun e => e.1 = key)).map Prod.snd

def isCancelled (S : Pool K) : Bool :=
  S.shutdown ≠ .idle

def locked (S : Pool K) (s : ℕ) : Bool :=
  S.calls.any (fun c => c.stage.locks? = some s)

/-- `GpuWorkerSlot::state`, `Ready` -/
def ready? (S : Pool K) (s : ℕ) : Option ℕ :=
  match S.occupancy s with
  | .worker w => if (S.workers w).accepts then some w else none
  | .empty | .transitioning => none

def keepsSlot (S : Pool K) (s : ℕ) : Bool :=
  S.map.any (fun e => e.2 = s) || s ∈ S.shutdown.rest ||
    S.calls.any (fun c => c.stage.slot? = some s)

def keepsWorker (S : Pool K) (w : ℕ) : Bool :=
  (List.range S.made).any (fun s => S.keepsSlot s && S.occupancy s = .worker w) ||
    S.shutdown.worker? = some w || S.calls.any (fun c => c.stage.worker? = some w)

def reap (S : Pool K) : Pool K :=
  { S with workers := fun w =>
      if w < S.published && !S.keepsWorker w then ⟨false, true⟩ else S.workers w }

/-- The call at place `k` goes on at `stage`. -/
def turn (S : Pool K) (k : ℕ) (c : Call K) (stage : Stage) : Pool K :=
  { S with calls := S.calls.set k { c with stage := stage } }

def occupy (S : Pool K) (s : ℕ) (occupancy : Occupancy) : Pool K :=
  { S with occupancy := Function.update S.occupancy s occupancy }

/-- `begin_shutdown`: the worker accepts no more. -/
def close (S : Pool K) (w : ℕ) : Pool K :=
  { S with workers := Function.update S.workers w { S.workers w with accepts := false } }

/-- `finish_shutdown` -/
def stop (S : Pool K) (w : ℕ) : Pool K :=
  { S with workers := Function.update S.workers w ⟨false, true⟩ }

/-- `SlotTransition::drop` -/
def restore (S : Pool K) (s : ℕ) : Pool K :=
  if S.occupancy s = .transitioning then S.occupy s .empty else S

/-- `SlotTransition::publish` of a new worker -/
def publish (S : Pool K) (s : ℕ) : Pool K :=
  { S.occupy s (.worker S.published) with published := S.published + 1 }

def enter [DecidableEq K] (S : Pool K) (k : ℕ) (c : Call K) : Pool K :=
  match S.slotOf c.key with
  | some s => S.turn k c (.looking s)
  | none =>
      { S.turn k c (.looking S.made) with
        map := (c.key, S.made) :: S.map
        made := S.made + 1
        occupancy := Function.update S.occupancy S.made .empty }

/-- `mem::replace(.., Transitioning)` -/
def replace (S : Pool K) (k : ℕ) (c : Call K) (s : ℕ) : Pool K :=
  match S.occupancy s with
  | .worker w => ((S.occupy s .transitioning).close w).turn k c (.retiring s w)
  | .empty | .transitioning => (S.occupy s .transitioning).turn k c (.initializing s)

def advance [DecidableEq K] (S : Pool K) (k : ℕ) (c : Call K) (ok : Bool) : Option (Pool K) :=
  match c.stage with
  | .entering => if S.shutdown.hasMap then none else some (S.enter k c)
  | .looking s =>
      some (S.turn k c (match S.ready? s with | some w => .checking s w | none => .queued s))
  | .queued s => if S.locked s then none else some (S.turn k c (.relooking s))
  | .relooking s =>
      some (S.turn k c (match S.ready? s with | some w => .checking s w | none => .replacing s))
  | .replacing s => some (S.replace k c s)
  | .retiring s w => some ((S.stop w).turn k c (.initializing s))
  | .initializing s =>
      if ok then
        some ((S.publish s).turn k c (.checking s S.published))
      else
        some ((S.restore s).turn k c .failed)
  | .checking s w =>
      if S.isCancelled then
        some ((S.close w).turn k c (.ending s w))
      else
        some (S.turn k c (.returned w S.isCancelled))
  | .ending _ w => some ((S.stop w).turn k c .failed)
  | .shutting w => some ((S.stop w).turn k c .released)
  | .returned _ _ | .released | .failed | .dropped => none

def drop (S : Pool K) (k : ℕ) (c : Call K) : Option (Pool K) :=
  if c.stage.running || c.stage.ended then
    none
  else
    match c.stage with
    | .retiring s _ | .initializing s => some ((S.restore s).turn k c .dropped)
    | _ => some (S.turn k c .dropped)

/-- `ensure_command_capabilities`, where the worker's report is refused. -/
def refuse [DecidableEq K] (S : Pool K) (k : ℕ) (c : Call K) (w : ℕ) : Pool K :=
  { (S.close w).turn k c (.shutting w) with map := S.map.filter (fun e => e.1 ≠ c.key) }

def shutDown (S : Pool K) (i : ℕ) : Option (Pool K) :=
  match S.shutdown with
  | .idle => some { S with shutdown := .cancelled }
  | .cancelled => some { S with shutdown := .draining (S.map.map Prod.snd), map := [] }
  | .draining [] => some { S with shutdown := .returned }
  | .draining rest =>
      rest[i]?.map (fun s =>
        match S.occupancy s with
        | .worker w => { S.close w with shutdown := .stopping w (rest.eraseIdx i) }
        | .empty | .transitioning => { S with shutdown := .draining (rest.eraseIdx i) })
  | .stopping w rest => some { S.stop w with shutdown := .draining rest }
  | .returned => none

def move [DecidableEq K] (S : Pool K) : Event K → Option (Pool K)
  | .calls key => some { S with calls := S.calls ++ [⟨key, .entering⟩] }
  | .advances k ok => S.calls[k]?.bind (fun c => S.advance k c ok)
  | .drops k => S.calls[k]?.bind (fun c => S.drop k c)
  | .releases k =>
      S.calls[k]?.bind (fun c =>
        match c.stage with
        | .returned _ _ => some (S.turn k c .released)
        | _ => none)
  | .retires k =>
      S.calls[k]?.bind (fun c =>
        match c.stage with
        | .returned w _ =>
            some { S.close w with calls := S.calls ++ [⟨c.key, .shutting w⟩] }
        | _ => none)
  | .refuses k =>
      S.calls[k]?.bind (fun c =>
        match c.stage with
        | .returned w _ => if S.shutdown.hasMap then none else some (S.refuse k c w)
        | _ => none)
  | .closes w => if w < S.published then some (S.close w) else none
  | .dies w => if w < S.published then some (S.stop w) else none
  | .shutsDown i => S.shutDown i

def step [DecidableEq K] (S : Pool K) (e : Event K) : Option (Pool K) :=
  (S.move e).map reap

end Pool

end Batchalign.GpuSlots
