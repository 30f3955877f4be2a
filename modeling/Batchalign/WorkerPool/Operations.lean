import Batchalign.WorkerPool.Pool

/- The operations of a worker pool
   (`worker/pool/{dispatch,lifecycle,checkout,eviction,idle_eviction,discovery,pre_scale}.rs`). An
   operation is at a point of its code, with the accesses of the stretch still to make; what is decided
   outside is an `Outcome`, and a future can be dropped where it awaits. Left open: which group an
   eviction picks, the order of a round of health checks, whether a capability report was admitted, when
   a parked checkout is woken. The sampled retirement of a queued startup is an operation of its own. -/
namespace Batchalign.WorkerPool

variable {K : Type*}

/-- Who called `try_spawn_into_group`. -/
inductive Caller where
  | checkout
  | preScale (target : UInt64)
deriving DecidableEq

/-- `WorkerPool::checkout` and `try_evict_idle_from_other_group` -/
inductive CheckoutPoint (K : Type*) where
  | begins (key : K)
  | looking (key : K) (g : GroupId)
  /-- with a permit of `available` -/
  | popping (key : K) (g : GroupId)
  /-- `try_spawn_into_group` gave `Ok(false)` -/
  | atCapacity (key : K) (g : GroupId)
  | evictionProbe (key : K) (g : GroupId)
  | evicting (key : K) (g victim : GroupId)
  | evictionPop (key : K) (g victim : GroupId)
  /-- parked on `worker_returned` -/
  | awaitingReturn (key : K) (g : GroupId)
  /-- parked on `group.available.acquire()` -/
  | awaitingPermit (key : K) (g : GroupId)
  | poppingAfterPark (key : K) (g : GroupId)
deriving DecidableEq

/-- `try_claim_spawn_slot` and `try_spawn_into_group` -/
inductive SpawnStage where
  | admitting
  /-- with a `SpawnPermitGuard`, before the compare-exchange of `total` -/
  | claiming
  /-- `group.bootstrap.lock().await` -/
  | locking
  /-- `self.worker_config(key)?` -/
  | configuring
  /-- `spawn_worker(..).await`, and `admit_worker_runtime` when it answers -/
  | starting
  /-- `detect_capabilities_from_worker(..).await` -/
  | probing (worker : WorkerPid)
deriving DecidableEq

inductive GuardPoint where
  | checkedOut (g : GroupId) (worker : WorkerPid)
  /-- a `CheckedOutWorker` after `take()` -/
  | taken (g : GroupId)
  | tcpCheckedOut (g : GroupId) (worker : WorkerPid)
deriving DecidableEq

/-- `try_checkout_tcp` -/
inductive TcpPoint (K : Type*) where
  | begins (key : K)
  | looking (g : GroupId)
  | popping (g : GroupId)
deriving DecidableEq

/-- `snapshot_idle_workers_with_rss` and `retire_sampled` -/
inductive RetirePoint where
  | sampling
  | sampled (g : GroupId) (worker : WorkerPid)
  /-- `worker.shutdown_in_place().await` -/
  | leaving (g : GroupId) (worker : WorkerPid)
deriving DecidableEq

/-- `run_health_check` after its pressure eviction -/
inductive RoundPoint (K : Type*) where
  | begins
  | between (rest : List (K × GroupId))
  | checking (key : K) (g : GroupId) (unchecked kept : List WorkerPid) (removed : ℕ)
      (rest : List (K × GroupId))
  | restarting (key : K) (g : GroupId) (count : ℕ) (rest : List (K × GroupId))
  | locking (key : K) (g : GroupId) (count : ℕ) (rest : List (K × GroupId))
  | configuring (key : K) (g : GroupId) (count : ℕ) (rest : List (K × GroupId))
  | starting (key : K) (g : GroupId) (count : ℕ) (rest : List (K × GroupId))
deriving DecidableEq

/-- `pre_scale_key` for a key that is not shared -/
inductive PreScalePoint (K : Type*) where
  | begins (key : K) (target : UInt64)
  | entering (key : K) (target : UInt64)
  | scaling (key : K) (g : GroupId) (target : UInt64)
deriving DecidableEq

/-- `discover_from_registry`, from the answer of one daemon on -/
inductive AdoptPoint (K : Type*) where
  | begins (key : K) (worker : WorkerPid)
  | acquiring (g : GroupId) (worker : WorkerPid)
deriving DecidableEq

inductive Point (K : Type*) where
  | checkout (point : CheckoutPoint K)
  | spawn (key : K) (g : GroupId) (caller : Caller) (stage : SpawnStage)
  | guard (point : GuardPoint)
  | tcp (point : TcpPoint K)
  | retire (point : RetirePoint)
  | round (point : RoundPoint K)
  | preScale (point : PreScalePoint K)
  | adopt (point : AdoptPoint K)
  | done
deriving DecidableEq

structure Operation (K : Type*) where
  todo : List Access
  point : Point K
deriving DecidableEq

inductive Outcome where
  /-- nothing: the code runs on -/
  | runs
  /-- the future is dropped where it awaits -/
  | dropped
  /-- the CPU or the memory gate refuses -/
  | saturated
  /-- the host would not report its memory -/
  | unreadable
  | evict (victim : GroupId)
  | noIdleElsewhere
  | woken
  /-- a worker came up, and a report has been admitted already -/
  | spawned (worker : WorkerPid)
  /-- a worker came up whose capabilities are to be asked for -/
  | toProbe (worker : WorkerPid)
  | spawnFailed
  /-- by `admit_worker_runtime`, or `CapabilityProbeFailure::Refused` -/
  | refused
  /-- `RequestFlight::Idle`, or a TCP exchange that leaves the handle reusable -/
  | reusable
  /-- `RequestFlight::InFlight`, or a TCP exchange after which it is retired -/
  | spoiled
  /-- `CheckedOutWorker::take` -/
  | take
  | sample (g : GroupId) (worker : WorkerPid)
  | healthy
  | dead
  /-- the map's snapshot gives the entry at `n` of those left next -/
  | visits (n : ℕ)
deriving DecidableEq

abbrev Next (K : Type*) := Option (Pool K × Operation K)

/-- The operation goes on at `point` after the accesses `todo`. -/
def Pool.then (pool : Pool K) (todo : List Access) (point : Point K) : Next K :=
  some (pool, ⟨todo, point⟩)

/-! The stretches of code that end an operation's hold on a slot. -/

/-- `AwayFromQueue::retire`, and a dropped `TcpCheckout`: its lease first, then its guard. -/
@[simp] def retireAway (g : GroupId) : List Access := [.totalSub g 1, .refund 1, .dropAway g 1]

/-- `drop` of a `CheckedOutWorker` whose worker is idle -/
@[simp] def returnIdle (g : GroupId) (worker : WorkerPid) : List Access :=
  [.pushIdle g [worker], .addAvailable g 1, .dropAway g 1]

/-- `TcpSlotLease::return_handle`, then the guard -/
@[simp] def returnTcp (g : GroupId) (worker : WorkerPid) : List Access :=
  [.pushTcp g worker, .addTcpAvailable g, .dropAway g 1]

@[simp] def poolSpawned (g : GroupId) (worker : WorkerPid) : List Access :=
  [.pushIdle g [worker], .addAvailable g 1, .unlock g, .dropAway g 1]

/-- The failures of a claimed spawn that give `total` back. -/
@[simp] def releaseSpawn (g : GroupId) : List Access :=
  [.totalSub g 1, .unlock g, .dropAway g 1, .refund 1]

/-- What the guards of a claimed spawn do by themselves when `?` or a drop leaves it. -/
@[simp] def leaveSpawn (g : GroupId) : List Access := [.unlock g, .dropAway g 1, .refund 1]

@[simp] def poolRestarted (g : GroupId) (worker : WorkerPid) : List Access :=
  [.totalAdd g, .pushIdle g [worker], .addAvailable g 1, .unlock g]

/-- The end of one group's health check: the workers kept go back, the others are removed. -/
@[simp] def endCheck (g : GroupId) (kept : List WorkerPid) (removed : ℕ) : List Access :=
  [.pushIdle g kept, .addAvailable g kept.length, .totalSub g removed, .refund removed,
    .dropAway g (kept.length + removed)]

/-! The code at each point. -/

/-- `self.groups.get(key)` -/
def Pool.lookup [DecidableEq K] (pool : Pool K) (key : K) : Option GroupId :=
  (pool.map.find? (fun e => e.1 = key)).map Prod.snd

def Pool.getOrCreateGroup [DecidableEq K] (pool : Pool K) (key : K) : Pool K × GroupId :=
  match pool.lookup key with
  | some g => (pool, g)
  | none =>
      ({ pool with keys := pool.keys ++ [key], map := pool.map ++ [(key, pool.made)] }, pool.made)

/-- A permit of `group.available` is acquired and forgotten. -/
def Pool.takeAvailable (pool : Pool K) (g : GroupId) : Pool K :=
  pool.onGroup g (fun x => { x with available := x.available - 1 })

/-- Where the caller goes on after `Ok(true)`. -/
@[simp] def Caller.spawned (key : K) (g : GroupId) : Caller → Point K
  | .checkout => .checkout (.looking key g)
  | .preScale target => .preScale (.scaling key g target)

/-- Where the caller goes on after `Ok(false)`. -/
@[simp] def Caller.refused (key : K) (g : GroupId) : Caller → Point K
  | .checkout => .checkout (.atCapacity key g)
  | .preScale _ => .done

def CheckoutPoint.step [DecidableEq K] (pool : Pool K) : CheckoutPoint K → Outcome → Next K
  | .begins key, .runs =>
      (pool.getOrCreateGroup key).1.then [] (.checkout (.looking key (pool.getOrCreateGroup key).2))
  | .looking key g, .runs =>
      if 0 < (pool.groups g).available then
        (pool.takeAvailable g).then [] (.checkout (.popping key g))
      else
        pool.then [] (.spawn key g .checkout .admitting)
  | .popping key g, .runs =>
      match (pool.groups g).idle with
      | worker :: idle =>
          (pool.onGroup g (fun x => { x with idle := idle })).then [.leaveQueue g 1]
            (.guard (.checkedOut g worker))
      | [] => pool.then [.addAvailable g 1] (.spawn key g .checkout .admitting)
  | .atCapacity key g, .runs =>
      if (pool.groups g).isEmpty then
        pool.then [] (.checkout (.evictionProbe key g))
      else
        pool.then [] (.checkout (.awaitingPermit key g))
  | .evictionProbe key g, .evict victim =>
      -- The idle counts were read one group at a time, so none holds of this moment.
      if ∃ e ∈ pool.map, e.1 ≠ key ∧ e.2 = victim then
        pool.then [] (.checkout (.evicting key g victim))
      else
        none
  | .evictionProbe key g, .noIdleElsewhere =>
      pool.then [] (.checkout (.awaitingReturn key g))
  | .evicting key g victim, .runs =>
      if 0 < (pool.groups victim).available then
        (pool.takeAvailable victim).then [] (.checkout (.evictionPop key g victim))
      else
        pool.then [] (.checkout (.awaitingReturn key g))
  | .evictionPop key g victim, .runs =>
      match (pool.groups victim).idle with
      | _ :: idle =>
          (pool.onGroup victim (fun x => { x with idle := idle })).then
            [.totalSub victim 1, .refund 1] (.checkout (.looking key g))
      | [] => pool.then [.addAvailable victim 1] (.checkout (.awaitingReturn key g))
  | .awaitingReturn key g, .woken => pool.then [] (.checkout (.looking key g))
  | .awaitingPermit key g, .woken => pool.then [] (.checkout (.looking key g))
  | .awaitingPermit key g, .runs =>
      if 0 < (pool.groups g).available then
        (pool.takeAvailable g).then [] (.checkout (.poppingAfterPark key g))
      else
        none
  | .poppingAfterPark key g, .runs =>
      match (pool.groups g).idle with
      | worker :: idle =>
          (pool.onGroup g (fun x => { x with idle := idle })).then [.leaveQueue g 1]
            (.guard (.checkedOut g worker))
      | [] => pool.then [.addAvailable g 1] (.checkout (.looking key g))
  | _, _ => none

def SpawnStage.step (config : PoolConfig K) (pool : Pool K) (key : K) (g : GroupId)
    (caller : Caller) : SpawnStage → Outcome → Next K
  | .admitting, .unreadable => pool.then [] .done
  | .admitting, .saturated => pool.then [] (caller.refused key g)
  | .admitting, .runs =>
      if 0 < pool.spawnPermits then
        Pool.then { pool with spawnPermits := pool.spawnPermits - 1 } []
          (.spawn key g caller .claiming)
      else
        pool.then [] (caller.refused key g)
  | .claiming, .runs =>
      if config.maxWorkersPerKey key ≤ (pool.groups g).total then
        pool.then [.refund 1] (caller.refused key g)
      else
        (pool.onGroup g (fun x => { x with total := x.total + 1 })).then [.leaveQueue g 1]
          (.spawn key g caller .locking)
  | .locking, .runs =>
      if (pool.groups g).bootstrap then
        none
      else
        (pool.onGroup g (fun x => { x with bootstrap := true })).then []
          (.spawn key g caller .configuring)
  | .configuring, .runs =>
      if config.workerConfig key then
        pool.then [] (.spawn key g caller .starting)
      else
        -- `?` returns; only the guards are left to settle the claim.
        pool.then (leaveSpawn g) .done
  | .starting, .spawned worker => pool.then (poolSpawned g worker) (caller.spawned key g)
  | .starting, .toProbe worker => pool.then [] (.spawn key g caller (.probing worker))
  | .starting, .spawnFailed => pool.then (releaseSpawn g) .done
  | .starting, .refused => pool.then (releaseSpawn g) .done
  | .probing _, .refused => pool.then (releaseSpawn g) .done
  -- Answered and admitted, or `CapabilityProbeFailure::Unanswered`: the worker is pooled.
  | .probing worker, .runs => pool.then (poolSpawned g worker) (caller.spawned key g)
  | _, _ => none

def GuardPoint.step (pool : Pool K) : GuardPoint → Outcome → Next K
  | .checkedOut g worker, .reusable => pool.then (returnIdle g worker) .done
  | .checkedOut g _, .spoiled => pool.then (retireAway g) .done
  | .checkedOut g _, .take => pool.then (retireAway g) (.guard (.taken g))
  | .taken _, .runs => pool.then [] .done
  | .tcpCheckedOut g worker, .reusable => pool.then (returnTcp g worker) .done
  | .tcpCheckedOut g _, .spoiled => pool.then (retireAway g) .done
  | _, _ => none

def TcpPoint.step [DecidableEq K] (pool : Pool K) : TcpPoint K → Outcome → Next K
  | .begins key, .runs =>
      match pool.lookup key with
      | some g => pool.then [] (.tcp (.looking g))
      | none => pool.then [] .done
  | .looking g, .runs =>
      if 0 < (pool.groups g).tcpAvailable then
        (pool.onGroup g (fun x => { x with tcpAvailable := x.tcpAvailable - 1 })).then []
          (.tcp (.popping g))
      else
        pool.then [] .done
  | .popping g, .runs =>
      match (pool.groups g).tcpWorkers with
      | worker :: tcp =>
          (pool.onGroup g (fun x => { x with tcpWorkers := tcp })).then [.leaveQueue g 1]
            (.guard (.tcpCheckedOut g worker))
      | [] => pool.then [.addTcpAvailable g] .done
  | _, _ => none

def RetirePoint.step (pool : Pool K) : RetirePoint → Outcome → Next K
  | .sampling, .sample g worker =>
      if g ∈ pool.listed then
        pool.then [] (.retire (.sampled g worker))
      else
        none
  | .sampled g worker, .runs =>
      if worker ∈ (pool.groups g).idle then
        (pool.onGroup g (fun x => { x with idle := x.idle.erase worker })).then
          [.takeAvailable g, .leaveQueue g 1] (.retire (.leaving g worker))
      else
        pool.then [] .done
  | .leaving g _, .runs => pool.then (retireAway g) .done
  | _, _ => none

def RoundPoint.step (config : PoolConfig K) (pool : Pool K) : RoundPoint K → Outcome → Next K
  | .begins, .runs => pool.then [] (.round (.between pool.map))
  | .between rest, .visits n =>
      match rest[n]? with
      | some (key, g) =>
          (pool.onGroup g (fun x => { x with idle := [] })).then
            [.leaveQueue g (pool.groups g).idle.length]
            (.round (.checking key g (pool.groups g).idle [] 0 (rest.eraseIdx n)))
      | none => none
  | .checking key g (worker :: unchecked) kept removed rest, .healthy =>
      pool.then [] (.round (.checking key g unchecked (kept ++ [worker]) removed rest))
  | .checking key g (_ :: unchecked) kept removed rest, .dead =>
      pool.then [] (.round (.checking key g unchecked kept (removed + 1) rest))
  | .checking key g [] kept removed rest, .runs =>
      pool.then (endCheck g kept removed) (.round (.restarting key g removed rest))
  | .restarting _ _ 0 rest, .runs => pool.then [] (.round (.between rest))
  | .restarting key g (count + 1) rest, .runs =>
      if 0 < pool.spawnPermits then
        Pool.then { pool with spawnPermits := pool.spawnPermits - 1 } []
          (.round (.locking key g count rest))
      else
        pool.then [] (.round (.restarting key g count rest))
  | .locking key g count rest, .runs =>
      if (pool.groups g).bootstrap then
        none
      else
        (pool.onGroup g (fun x => { x with bootstrap := true })).then []
          (.round (.configuring key g count rest))
  | .configuring key g count rest, .runs =>
      if config.workerConfig key then
        pool.then [] (.round (.starting key g count rest))
      else
        pool.then [.unlock g, .refund 1] (.round (.restarting key g count rest))
  | .starting key g count rest, .spawned worker =>
      pool.then (poolRestarted g worker) (.round (.restarting key g count rest))
  | .starting key g count rest, .refused =>
      pool.then [.unlock g, .refund 1] (.round (.restarting key g count rest))
  | .starting key g count rest, .spawnFailed =>
      pool.then [.unlock g, .refund 1] (.round (.restarting key g count rest))
  -- The groups no worker is counted in leave the map.
  | .between [], .runs =>
      Pool.then { pool with map := pool.map.filter (fun e => 0 < (pool.groups e.2).total) } []
        .done
  | _, _ => none

def PreScalePoint.step [DecidableEq K] (config : PoolConfig K) (pool : Pool K) :
    PreScalePoint K → Outcome → Next K
  | .begins key target, .runs =>
      if ((pool.lookup key).any fun g => !(pool.groups g).tcpWorkers.isEmpty) then
        pool.then [] .done
      else
        pool.then [] (.preScale (.entering key (min target (config.maxWorkersPerKey key))))
  | .entering key target, .runs =>
      (pool.getOrCreateGroup key).1.then []
        (.preScale (.scaling key (pool.getOrCreateGroup key).2 target))
  | .scaling key g target, .runs =>
      if target ≤ (pool.groups g).total then
        pool.then [] .done
      else
        pool.then [] (.spawn key g (.preScale target) .admitting)
  | _, _ => none

def AdoptPoint.step [DecidableEq K] (pool : Pool K) : AdoptPoint K → Outcome → Next K
  | .begins key worker, .runs =>
      (pool.getOrCreateGroup key).1.then []
        (.adopt (.acquiring (pool.getOrCreateGroup key).2 worker))
  | .acquiring g worker, .runs =>
      if 0 < pool.spawnPermits then
        Pool.then { pool with spawnPermits := pool.spawnPermits - 1 }
          [.pushTcp g worker, .addTcpAvailable g, .totalAdd g] .done
      else
        pool.then [] .done
  | _, _ => none

/-- The drops of the locals when the future is dropped. A health-check round is not. -/
def Point.dropped : Point K → Option (List Access)
  | .checkout (.looking _ _) => some []
  | .checkout (.awaitingReturn _ _) => some []
  | .checkout (.awaitingPermit _ _) => some []
  -- The semaphore had given its permit to an `Acquire` that was not polled again.
  | .checkout (.poppingAfterPark _ g) => some [.addAvailable g 1]
  | .spawn _ _ _ .admitting => some []
  | .spawn _ g _ .locking => some [.dropAway g 1, .refund 1]
  | .spawn _ g _ .starting => some (leaveSpawn g)
  | .spawn _ g _ (.probing _) => some (leaveSpawn g)
  | .guard (.tcpCheckedOut g _) => some (retireAway g)
  | .retire (.leaving g _) => some [.dropAway g 1]
  | _ => none

def Point.step [DecidableEq K] (config : PoolConfig K) (pool : Pool K) (o : Outcome) : Point K → Next K
  | .checkout point => point.step pool o
  | .spawn key g caller stage => stage.step config pool key g caller o
  | .guard point => point.step pool o
  | .tcp point => point.step pool o
  | .retire point => point.step pool o
  | .round point => point.step config pool o
  | .preScale point => point.step config pool o
  | .adopt point => point.step pool o
  | .done => none

def Operation.next [DecidableEq K] (config : PoolConfig K) (pool : Pool K) (op : Operation K)
    (o : Outcome) : Next K :=
  match op.todo with
  | a :: todo => some (a.exec pool, ⟨todo, op.point⟩)
  | [] =>
      if o = .dropped then
        op.point.dropped.map (fun todo => (pool, ⟨todo, .done⟩))
      else
        op.point.step config pool o

theorem Point.next_cases [DecidableEq K] {config : PoolConfig K} {pool pool' : Pool K} {o : Outcome}
    {point : Point K} {op' : Operation K}
    (h : Operation.next config pool ⟨[], point⟩ o = some (pool', op')) :
    (∃ todo, o = .dropped ∧ point.dropped = some todo ∧ pool' = pool ∧ op' = ⟨todo, .done⟩) ∨
      point.step config pool o = some (pool', op') := by
  simp only [Operation.next] at h
  split at h
  · obtain ⟨todo, htodo, heq⟩ := Option.map_eq_some_iff.mp h
    cases heq
    exact .inl ⟨todo, ‹_›, htodo, rfl, rfl⟩
  · exact .inr h

inductive Request (K : Type*) where
  | checkout (key : K)
  | tcpCheckout (key : K)
  | retireSampled
  | healthCheck
  | preScale (key : K) (target : UInt64)
  | adopt (key : K) (worker : WorkerPid)

def Request.point : Request K → Point K
  | .checkout key => .checkout (.begins key)
  | .tcpCheckout key => .tcp (.begins key)
  | .retireSampled => .retire .sampling
  | .healthCheck => .round .begins
  | .preScale key target => .preScale (.begins key target)
  | .adopt key worker => .adopt (.begins key worker)

/-- An operation begins, or one under way takes its next step. -/
inductive Event (K : Type*) where
  | begins (request : Request K)
  | advances (k : ℕ) (o : Outcome)

abbrev System (K : Type*) := Crew.State (Pool K) (Operation K)

def System.start (config : PoolConfig K) : System K := ⟨Pool.new config, []⟩

def System.step [DecidableEq K] (config : PoolConfig K) (S : System K) : Event K → Option (System K)
  | .begins request => some (Crew.begin S ⟨[], request.point⟩)
  | .advances k o => Crew.advance (Operation.next config) S k o

end Batchalign.WorkerPool
