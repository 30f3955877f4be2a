import Batchalign.HostMemory.Admission
import Batchalign.Lib.Runs

/- Leases and their holders over runs of one machine. Each access to the ledger is one step under the
   file's lock; in between processes start and die and the wall clock moves. Job-execution leases and
   the test lock are meant to last as long as their holder (`Machine.LeasesLast`), but a prune takes
   them once they are half an hour old. -/
namespace HostMemory
open List

def MemoryLeaseKind.lastsWithHolder : MemoryLeaseKind → Bool
  | .jobExecution | .mlTestExclusive => true
  | .workerStartup | .modelLoad | .modelBatch | .modelRequest => false

/-- A request a process can make: the test lock's, or one of `WorkerLeaseRequest`'s. -/
inductive LeaseCall where
  | mlTestLock (label : String)
  | workerStartup (baseline : MemoryMb) (label : String)
  | modelLoad (worker : WorkerPid) (reserved : MemoryMb) (label : String)
  | modelBatch (worker : WorkerPid) (reserved : MemoryMb) (label : String)
  | modelRequest (worker : WorkerPid) (reserved : MemoryMb) (label : String)

def LeaseCall.request : LeaseCall → MemoryLeaseRequest
  | .mlTestLock label => ⟨.mlTestExclusive, 0, label, none⟩
  | .workerStartup baseline label => ⟨.workerStartup, baseline, label, none⟩
  | .modelLoad worker reserved label => ⟨.modelLoad, reserved, label, some worker⟩
  | .modelBatch worker reserved label => ⟨.modelBatch, reserved, label, some worker⟩
  | .modelRequest worker reserved label => ⟨.modelRequest, reserved, label, some worker⟩

/-- A lease a process holds, as it was granted. -/
structure HeldLease where
  id : LeaseId
  kind : MemoryLeaseKind
  owner : WorkerPid
  reservedMb : MemoryMb
  deriving DecidableEq

/-- The machine: its ledger file, clock and processes, and every lease held. -/
structure Machine where
  file : LedgerFile
  now : MachineTime
  alive : WorkerPid → Bool
  held : List HeldLease

/-- The operations of the coordinators and lease holders on the ledger. -/
inductive LedgerOp where
  | acquire (c : HostMemoryCoordinator) (id : LeaseId) (call : LeaseCall)
  | plan (c : HostMemoryCoordinator) (id : LeaseId) (spec : CommandSpec)
      (requestedWorkers : BitVec 64) (label : String)
  | tag (id : LeaseId) (worker : WorkerPid)
  | settle (id : LeaseId) (reserved : MemoryMb)
  | release (id : LeaseId)
  | snapshot (c : HostMemoryCoordinator)

/-- A tick, a process that starts or dies, or an access to the ledger. -/
inductive MachineEvent where
  | clock (now : MachineTime)
  | start (pid : WorkerPid)
  | die (pid : WorkerPid)
  | access (op : LedgerOp) (processes : Option HostUnreadable)
      (memory : Except HostUnreadable SystemMemory)

namespace LedgerOp

def access (host : Host) (file : LedgerFile) : LedgerOp → Option HeldLease × LedgerFile
  | .acquire c id call =>
    ((c.tryAcquireLease host id call.request file).1.toOption.map
        (fun lease => ⟨lease.leaseId, call.request.kind, c.pid, call.request.reservedMb⟩),
      (c.tryAcquireLease host id call.request file).2)
  | .plan c id spec requestedWorkers label =>
    ((c.tryPlanJobExecution host id spec requestedWorkers label file).1.toOption.map
        (fun granted => ⟨granted.lease.leaseId, .jobExecution, c.pid, granted.reservedMb⟩),
      (c.tryPlanJobExecution host id spec requestedWorkers label file).2)
  | .tag id worker => (none, (setWorkerPid host id worker file).2)
  | .settle id reserved => (none, (HostMemory.settle host id reserved file).2)
  | .release id => (none, ((⟨id, false⟩ : HostMemoryLease).releaseInternal host file).2)
  | .snapshot c => (none, (c.snapshot host file).2)

def releases (id : LeaseId) : LedgerOp → Bool
  | .release id' => id' == id
  | _ => false

/-- The callers lease to live processes under new ids; startup leases are tagged, model leases settled;
  holders release. -/
def Enabled (s : Machine) : LedgerOp → Prop
  | .acquire c id _ => s.alive c.pid = true ∧
      id ∉ (MemoryLedger.ofFile s.file).leases.map MemoryLeaseRecord.id ∧
      id ∉ s.held.map HeldLease.id
  | .plan c id _ _ _ => s.alive c.pid = true ∧
      id ∉ (MemoryLedger.ofFile s.file).leases.map MemoryLeaseRecord.id ∧
      id ∉ s.held.map HeldLease.id
  | .tag id _ => ∃ h ∈ s.held, h.id = id ∧ h.kind = .workerStartup
  | .settle id _ => ∀ h ∈ s.held, h.id = id → h.kind = .modelLoad
  | .release id => id ∈ s.held.map HeldLease.id
  | .snapshot c => s.alive c.pid = true

instance (s : Machine) (op : LedgerOp) : Decidable (op.Enabled s) := by
  cases op <;> unfold Enabled <;> infer_instance

end LedgerOp

namespace Machine

def host (s : Machine) (processes : Option HostUnreadable)
    (memory : Except HostUnreadable SystemMemory) : Host where
  processes :=
    match processes with
    | none => .ok s.alive
    | some unreadable => .error unreadable
  memory := memory
  now := s.now

def step (s : Machine) : MachineEvent → Option Machine
  | .clock now => some { s with now := now }
  | .start pid => some { s with alive := fun p => p == pid || s.alive p }
  | .die pid =>
    some { s with
      alive := fun p => p != pid && s.alive p
      held := s.held.filter (fun h => h.owner != pid) }
  | .access op processes memory =>
    if op.Enabled s then
      some { s with
        file := (op.access (s.host processes memory) s.file).2
        held := (op.access (s.host processes memory) s.file).1.toList ++
          s.held.filter (fun h => !op.releases h.id) }
    else none

def empty (now : MachineTime) (alive : WorkerPid → Bool) : Machine := ⟨[], now, alive, []⟩

def ledger (s : Machine) : MemoryLedger := MemoryLedger.ofFile s.file

def Kept (s : Machine) (h : HeldLease) : Prop :=
  ∃ r ∈ s.ledger.leases, r.id = h.id ∧ r.kind = h.kind ∧ r.ownerPid = h.owner ∧
    r.reservedMb = h.reservedMb

structure LeasesLast (s : Machine) : Prop where
  kept : ∀ h ∈ s.held, h.kind.lastsWithHolder = true → s.alive h.owner = true → s.Kept h
  exclusive : ∀ h ∈ s.held, ∀ h' ∈ s.held, h.kind = .mlTestExclusive →
    h'.kind = .mlTestExclusive → s.alive h.owner = true → s.alive h'.owner = true → h = h'
  counted : ∀ o, s.alive o = true →
    ((s.held.filter (fun h => h.kind == .jobExecution && h.owner == o)).map
      (fun h => h.reservedMb.toNat)).sum ≤ asked o .job s.ledger.reservations

/-- A prune at this event finds every lasting lease it does not release younger than the deadline. -/
def YoungWhenPruned (s : Machine) : MachineEvent → Prop
  | .access op none _ =>
    ∀ h ∈ s.held, h.kind.lastsWithHolder = true → op.releases h.id = false →
      ∀ r ∈ s.ledger.leases, r.id = h.id →
        saturatingDurationSince s.now r.createdAt < preSpawnIntentDeadline
  | _ => True

end Machine

theorem afterPrune_whole (host : Host) (file : LedgerFile) : (afterPrune host file).Whole := by
  cases hprune : pruneStaleLeases host (MemoryLedger.ofFile file) with
  | error unreadable =>
    rw [afterPrune_of_error hprune]
    exact whole_ofFile file
  | ok prunedLedger =>
    rw [afterPrune_of_ok hprune]
    exact prune_whole hprune

variable {r : MemoryLeaseRecord} {f : MemoryLeaseRecord → MemoryLeaseRecord} {id : LeaseId}
  {l l' : MemoryLedger} {held : List HeldLease} {g : HeldLease} {op : LedgerOp} {s : Machine}
  {file : LedgerFile}

variable {host : Host}

theorem mem_afterPrune :
    r ∈ (afterPrune host file).leases ↔ r ∈ (MemoryLedger.ofFile file).leases ∧
      ∀ alive, host.processes = .ok alive → r.survives alive host.now = true := by
  unfold afterPrune pruneStaleLeases
  split_ifs with hempty
  · simp [hempty]
  · cases hprocesses : host.processes with
    | error unreadable => simp
    | ok alive =>
      simp only [Except.ok.injEq, forall_eq']
      split_ifs <;> exact mem_filter

theorem updateFirst_map_id (hid : ∀ r, (f r).id = r.id) (leases : List MemoryLeaseRecord) :
    (updateFirst id f leases).map MemoryLeaseRecord.id = leases.map MemoryLeaseRecord.id := by
  induction leases with
  | nil => rfl
  | cons lease rest ih =>
    rw [updateFirst]
    split_ifs
    · rw [map_cons, map_cons, hid]
    · rw [map_cons, map_cons, ih]

variable {leases : List MemoryLeaseRecord}

theorem mem_updateFirst (h : r ∈ updateFirst id f leases) :
    r ∈ leases ∨ ∃ r₀ ∈ leases, r₀.id = id ∧ r = f r₀ := by
  induction leases with
  | nil => cases h
  | cons lease rest ih =>
    rw [updateFirst] at h
    split_ifs at h with hid
    · obtain rfl | hrest := mem_cons.mp h
      · exact .inr ⟨lease, mem_cons_self, hid, rfl⟩
      · exact .inl (mem_cons_of_mem _ hrest)
    · obtain rfl | hrest := mem_cons.mp h
      · exact .inl mem_cons_self
      · obtain hin | ⟨r₀, hr₀, hid₀, hr⟩ := ih hrest
        · exact .inl (mem_cons_of_mem _ hin)
        · exact .inr ⟨r₀, mem_cons_of_mem _ hr₀, hid₀, hr⟩

def HeldLease.RecordedAs (h : HeldLease) (r : MemoryLeaseRecord) : Prop :=
  r.kind = h.kind ∧ r.ownerPid = h.owner ∧ r.reservedMb = h.reservedMb ∧ r.workerPid = none

namespace LedgerOp

def grantee : LedgerOp → Option (LeaseId × WorkerPid)
  | .acquire c id _ => some (id, c.pid)
  | .plan c id _ _ _ => some (id, c.pid)
  | .tag _ _ | .settle _ _ | .release _ | .snapshot _ => none

inductive Leaves : LedgerOp → MemoryLedger → Option HeldLease → MemoryLedger → Prop
  | unchanged (op : LedgerOp) (l : MemoryLedger) : Leaves op l none l
  | granted (op : LedgerOp) (l : MemoryLedger) (h : HeldLease) (r : MemoryLeaseRecord)
      (hnew : op.grantee = some (h.id, h.owner)) (hid : r.id = h.id) (hkind : r.kind = h.kind)
      (hlasting : h.kind.lastsWithHolder = true → h.RecordedAs r)
      (hlock : h.kind = .mlTestExclusive → ∀ r' ∈ l.leases, r'.kind ≠ .mlTestExclusive) :
      Leaves op l (some h) ⟨l.leases ++ [r]⟩
  | tagged (id : LeaseId) (worker : WorkerPid) (l : MemoryLedger) : Leaves (.tag id worker) l none
        ⟨updateFirst id (fun lease => { lease with workerPid := some worker }) l.leases⟩
  | settled (id : LeaseId) (reserved : MemoryMb) (l : MemoryLedger) :
      Leaves (.settle id reserved) l none
        ⟨updateFirst id (fun lease => { lease with reservedMb := reserved }) l.leases⟩
  | dropped (id : LeaseId) (l : MemoryLedger) :
      Leaves (.release id) l none ⟨l.leases.filter (fun lease => lease.id != id)⟩

end LedgerOp

theorem rounded_leases (hl : l.Whole) (h : ∀ r ∈ leases, r ∈ l.leases ∨ r.rounded = r) :
    (⟨leases⟩ : MemoryLedger).rounded = ⟨leases⟩ := by
  apply (whole_iff ⟨leases⟩).mpr
  intro r hr
  obtain hin | hr := h r hr
  · exact (whole_iff l).mp hl r hin
  · exact hr

theorem ofFile_withLockedLedger_reading {α : Type}
    {action : Action α} (hreads : ∀ l, (action l).2 = l) :
    MemoryLedger.ofFile (withLockedLedger host file action).2 = afterPrune host file := by
  cases hresult : (withLockedLedger host file action).1 with
  | error error => exact withLockedLedger_error (fun l _ _ => hreads l) hresult
  | ok value =>
    rw [(withLockedLedger_ok hresult).2, hreads]
    exact afterPrune_whole host file

namespace LedgerOp

theorem leaves_pushed {op : LedgerOp} {α : Type}
    {action : Action α} (hrefuses : action.RefusesUnchanged) {f : α → HeldLease}
    (hpushed : ∀ l value, (action l).1 = .ok value →
      ∃ r, (action l).2 = l.push r ∧ op.grantee = some ((f value).id, (f value).owner) ∧ r.id = (f value).id ∧
        r.kind = (f value).kind ∧ ((f value).kind.lastsWithHolder = true → (f value).RecordedAs r) ∧
        ((f value).kind = .mlTestExclusive → ∀ r' ∈ l.leases, r'.kind ≠ .mlTestExclusive)) :
    op.Leaves (afterPrune host file) ((withLockedLedger host file action).1.toOption.map f)
      (MemoryLedger.ofFile (withLockedLedger host file action).2) := by
  cases hresult : (withLockedLedger host file action).1 with
  | error error =>
    rw [withLockedLedger_error hrefuses hresult]
    exact .unchanged op _
  | ok value =>
    obtain ⟨hvalue, hfile⟩ := withLockedLedger_ok hresult
    obtain ⟨r, hpush, hnew, hid, hkind, hlasting, hlock⟩ := hpushed _ value hvalue
    have hledger : ((afterPrune host file).push r).rounded =
        ⟨(afterPrune host file).leases ++ [r.rounded]⟩ := by
      have hkept := congrArg MemoryLedger.leases (afterPrune_whole host file)
      simpa [MemoryLedger.rounded, MemoryLedger.push] using hkept
    rw [hfile, hpush, hledger]
    exact .granted op _ (f value) r.rounded hnew hid hkind hlasting hlock

theorem leaves_updated {op : LedgerOp} {id : LeaseId}
    {f : MemoryLeaseRecord → MemoryLeaseRecord} (hrounded : ∀ r, (f r).rounded = f r.rounded)
    (hop : ∀ l : MemoryLedger, op.Leaves l none ⟨updateFirst id f l.leases⟩) :
    op.Leaves (afterPrune host file) none (MemoryLedger.ofFile (withLockedLedger host file
      (fun ledger => (.ok (), ⟨updateFirst id f ledger.leases⟩))).2) := by
  have hwhole := afterPrune_whole host file
  cases hresult : (withLockedLedger host file
      (fun ledger => (.ok (), ⟨updateFirst id f ledger.leases⟩))).1 with
  | error error =>
    rw [withLockedLedger_error (fun l e h => by cases h) hresult]
    exact .unchanged op _
  | ok value =>
    rw [(withLockedLedger_ok hresult).2, rounded_leases hwhole]
    · exact hop _
    · intro r hr
      apply (mem_updateFirst hr).imp_right
      intro hupdated
      obtain ⟨r₀, hr₀, _, rfl⟩ := hupdated
      rw [hrounded, (whole_iff _).mp hwhole r₀ hr₀]

theorem leaves_released (host : Host) (file : LedgerFile) (id : LeaseId) :
    (LedgerOp.release id).Leaves (afterPrune host file) none
      (MemoryLedger.ofFile ((⟨id, false⟩ : HostMemoryLease).releaseInternal host file).2) := by
  have hwhole := afterPrune_whole host file
  change Leaves _ _ _ (MemoryLedger.ofFile (withLockedLedger host file (dropLease id)).2)
  cases hresult : (withLockedLedger host file (dropLease id)).1 with
  | error error =>
    rw [withLockedLedger_error (dropLease_refusesUnchanged id) hresult]
    exact .unchanged _ _
  | ok value =>
    rw [(withLockedLedger_ok hresult).2]
    rw [rounded_leases hwhole]
    · exact .dropped id _
    · exact fun r hr => .inl (mem_of_mem_filter hr)

theorem leaves_snapshot (host : Host) (file : LedgerFile) (c : HostMemoryCoordinator) :
    (LedgerOp.snapshot c).Leaves (afterPrune host file) none
      (MemoryLedger.ofFile (c.snapshot host file).2) := by
  unfold HostMemoryCoordinator.snapshot
  rw [ofFile_withLockedLedger_reading]
  · exact .unchanged _ _
  · intro l
    cases host.memory <;> rfl

theorem access_leaves (host : Host) (file : LedgerFile) (op : LedgerOp) :
    op.Leaves (afterPrune host file) (op.access host file).1
      (MemoryLedger.ofFile (op.access host file).2) := by
  cases op with
  | acquire c id call =>
    apply leaves_pushed (c.acquire_refusesUnchanged host id call.request)
    intro l lease hgranted
    obtain ⟨hlease, hpush, hlock, _⟩ := HostMemoryCoordinator.acquire_granted hgranted
    refine ⟨_, hpush, by rw [hlease]; rfl, by rw [hlease]; rfl, rfl, ?_, hlock⟩
    intro hlasts
    refine ⟨rfl, rfl, rfl, ?_⟩
    cases call <;> first | rfl | cases hlasts
  | plan c id spec requested label =>
    apply leaves_pushed (c.planJob_refusesUnchanged host id spec requested label)
    intro l granted hgranted
    obtain ⟨hlease, hpush, _⟩ := HostMemoryCoordinator.planJob_granted hgranted
    refine ⟨_, hpush, by rw [hlease]; rfl, by rw [hlease]; rfl, rfl, ?_, ?_⟩
    · exact fun _ => ⟨rfl, rfl, rfl, rfl⟩
    · intro hkind
      cases hkind
  | tag id worker => exact leaves_updated (fun r => rfl) (.tagged id worker)
  | settle id reserved => exact leaves_updated (fun r => rfl) (.settled id reserved)
  | release id => exact leaves_released host file id
  | snapshot c => exact leaves_snapshot host file c

end LedgerOp

/-- One lease for an id, one test lock, and every held lasting lease as it was granted. -/
structure LedgerSound (l : MemoryLedger) (held : List HeldLease) : Prop where
  idsNodup : (l.leases.map MemoryLeaseRecord.id).Nodup
  oneLock : ∀ r ∈ l.leases, ∀ r' ∈ l.leases, r.kind = .mlTestExclusive →
    r'.kind = .mlTestExclusive → r.id = r'.id
  recorded : ∀ h ∈ held, h.kind.lastsWithHolder = true → ∀ r ∈ l.leases, r.id = h.id →
    h.RecordedAs r

section
variable (h : LedgerSound l held)
include h

theorem LedgerSound.fewer_leases (hsub : l'.leases.Sublist l.leases) : LedgerSound l' held where
  idsNodup := h.idsNodup.sublist (hsub.map _)
  oneLock := fun r hr r' hr' => h.oneLock r (hsub.subset hr) r' (hsub.subset hr')
  recorded := fun g hg hlasts r hr => h.recorded g hg hlasts r (hsub.subset hr)

theorem LedgerSound.fewer_held {held' : List HeldLease} (hsub : held' ⊆ held) : LedgerSound l held' where
  idsNodup := h.idsNodup
  oneLock := h.oneLock
  recorded := fun g hg => h.recorded g (hsub hg)

theorem LedgerSound.updated (hid : ∀ r, (f r).id = r.id) (hkind : ∀ r, (f r).kind = r.kind)
    (hnot : ∀ g ∈ held, g.id = id → g.kind.lastsWithHolder = false) :
    LedgerSound ⟨updateFirst id f l.leases⟩ held := by
  have hfrom (r) (hr : r ∈ updateFirst id f l.leases) :
      ∃ r₀ ∈ l.leases, r₀.id = r.id ∧ r₀.kind = r.kind ∧ (r = r₀ ∨ r.id = id) := by
    obtain hin | ⟨r₀, hr₀, hid₀, rfl⟩ := mem_updateFirst hr
    · exact ⟨r, hin, rfl, rfl, .inl rfl⟩
    · exact ⟨r₀, hr₀, (hid r₀).symm, (hkind r₀).symm, .inr ((hid r₀).trans hid₀)⟩
  refine ⟨?_, ?_, ?_⟩
  · rw [updateFirst_map_id hid]
    exact h.idsNodup
  · intro r hr r' hr' hlock hlock'
    obtain ⟨r₀, hr₀, hid₀, hkind₀, _⟩ := hfrom r hr
    obtain ⟨r₁, hr₁, hid₁, hkind₁, _⟩ := hfrom r' hr'
    rw [← hid₀, ← hid₁]
    exact h.oneLock r₀ hr₀ r₁ hr₁ (hkind₀.trans hlock) (hkind₁.trans hlock')
  · intro g hg hlasts r hr hrid
    obtain ⟨r₀, hr₀, _, _, hsame | hupdated⟩ := hfrom r hr
    · rw [hsame] at hrid ⊢
      exact h.recorded g hg hlasts r₀ hr₀ hrid
    · have hfalse := hnot g hg (hrid.symm.trans hupdated)
      rw [hlasts] at hfalse
      cases hfalse

theorem LedgerSound.granted
    (hledger : g.id ∉ l.leases.map MemoryLeaseRecord.id) (hheld : g.id ∉ held.map HeldLease.id)
    (hid : r.id = g.id) (hkind : r.kind = g.kind)
    (hlasting : g.kind.lastsWithHolder = true → g.RecordedAs r)
    (hlock : g.kind = .mlTestExclusive → ∀ r' ∈ l.leases, r'.kind ≠ .mlTestExclusive) :
    LedgerSound ⟨l.leases ++ [r]⟩ (g :: held) := by
  refine ⟨?_, ?_, ?_⟩
  · rw [map_append, map_singleton, hid]
    apply nodup_append.mpr
    refine ⟨h.idsNodup, nodup_singleton _, ?_⟩
    intro i hi j hj heq
    rw [mem_singleton] at hj
    rw [heq, hj] at hi
    exact hledger hi
  · intro r₁ hr₁ r₂ hr₂ hlock₁ hlock₂
    rw [mem_append, mem_singleton] at hr₁ hr₂
    obtain hr₁ | rfl := hr₁
    · obtain hr₂ | rfl := hr₂
      · exact h.oneLock r₁ hr₁ r₂ hr₂ hlock₁ hlock₂
      · exact absurd hlock₁ (hlock (hkind.symm.trans hlock₂) r₁ hr₁)
    · obtain hr₂ | rfl := hr₂
      · exact absurd hlock₂ (hlock (hkind.symm.trans hlock₁) r₂ hr₂)
      · rfl
  · intro g' hg' hlasts r' hr' hrid
    rw [mem_append, mem_singleton] at hr'
    obtain rfl | hold := mem_cons.mp hg'
    · obtain hr' | rfl := hr'
      · -- the new id was in no lease
        exact absurd (mem_map.mpr ⟨r', hr', hrid⟩) hledger
      · exact hlasting hlasts
    · obtain hr' | rfl := hr'
      · exact h.recorded g' hold hlasts r' hr' hrid
      · -- the new id was nobody's
        exact absurd (mem_map.mpr ⟨g', hold, hrid.symm.trans hid⟩) hheld

end

/-- In every run the ledger is sound, and each lease held has an id of its own and a live holder. -/
structure Machine.Sound (s : Machine) : Prop where
  ledger : LedgerSound s.ledger s.held
  heldNodup : (s.held.map HeldLease.id).Nodup
  heldAlive : ∀ h ∈ s.held, s.alive h.owner = true

theorem afterPrune_sublist (host : Host) (file : LedgerFile) :
    (afterPrune host file).leases.Sublist (MemoryLedger.ofFile file).leases := by
  cases hprune : pruneStaleLeases host (MemoryLedger.ofFile file) with
  | error unreadable =>
    rw [afterPrune_of_error hprune]
  | ok prunedLedger =>
    rw [afterPrune_of_ok hprune]
    exact prune_sublist hprune

theorem LedgerOp.Enabled.fresh (h : op.Enabled s) {pid : WorkerPid} (hnew : op.grantee = some (id, pid)) :
    s.alive pid = true ∧ id ∉ s.ledger.leases.map MemoryLeaseRecord.id ∧
      id ∉ s.held.map HeldLease.id := by
  cases op <;> cases hnew <;> exact h

theorem Machine.Sound.held_unique (hs : s.Sound) {h h' : HeldLease}
    (hh : h ∈ s.held) (hh' : h' ∈ s.held) (hid : h.id = h'.id) : h = h' :=
  inj_on_of_nodup_map hs.heldNodup hh hh' hid

theorem LedgerOp.Leaves.grantee (h : op.Leaves l (some g) l') : op.grantee = some (g.id, g.owner) := by
  generalize hsome : some g = granted at h
  cases h with
  | granted _ _ _ _ hnew =>
    cases hsome
    exact hnew
  | _ => cases hsome

theorem LedgerOp.Leaves.granted_mem (h : op.Leaves l (some g) l') : g.id ∈ l'.leases.map MemoryLeaseRecord.id := by
  generalize hsome : some g = granted at h
  cases h with
  | granted _ _ _ r _ hid =>
    cases hsome
    rw [map_append, map_singleton, hid]
    exact mem_append_right _ (mem_singleton.mpr rfl)
  | _ => cases hsome

theorem LedgerOp.Leaves.sound {granted : Option HeldLease} (h : op.Leaves l granted l') (hs : s.Sound)
    (hl : l.leases.Sublist s.ledger.leases) (hop : op.Enabled s) :
    LedgerSound l' (granted.toList ++ s.held.filter (fun h => !op.releases h.id)) := by
  have hpruned : LedgerSound l (s.held.filter (fun h => !op.releases h.id)) :=
    (hs.ledger.fewer_leases hl).fewer_held filter_sublist.subset
  cases h with
  | unchanged => exact hpruned
  | granted _ _ g r hnew hid hkind hlasting hlock =>
    obtain ⟨_, hledger, hheld⟩ := hop.fresh hnew
    apply hpruned.granted _ _ hid hkind hlasting hlock
    · intro hin
      exact hledger ((hl.map _).subset hin)
    · intro hin
      exact hheld ((filter_sublist.map _).subset hin)
  | tagged id worker =>
    refine hpruned.updated ?_ ?_ ?_
    · exact fun r => rfl
    · exact fun r => rfl
    intro g hg hid
    obtain ⟨g', hg', hid', hkind'⟩ := hop
    rw [hs.held_unique (mem_of_mem_filter hg) hg' (hid.trans hid'.symm), hkind']
    rfl
  | settled id reserved =>
    refine hpruned.updated ?_ ?_ ?_
    · exact fun r => rfl
    · exact fun r => rfl
    intro g hg hid
    rw [hop g (mem_of_mem_filter hg) hid]
    rfl
  | dropped id => exact hpruned.fewer_leases filter_sublist

theorem step_sound {s' : Machine} {e : MachineEvent} (hs : s.Sound)
    (hstep : s.step e = some s') : s'.Sound := by
  cases e with
  | clock now =>
    cases hstep
    exact ⟨hs.ledger, hs.heldNodup, hs.heldAlive⟩
  | start pid =>
    cases hstep
    refine ⟨hs.ledger, hs.heldNodup, ?_⟩
    intro h hh
    simp [hs.heldAlive h hh]
  | die pid =>
    cases hstep
    refine ⟨hs.ledger.fewer_held filter_sublist.subset,
      hs.heldNodup.sublist (filter_sublist.map _), ?_⟩
    intro h hh
    obtain ⟨hin, howner⟩ := mem_filter.mp hh
    simp [hs.heldAlive h hin, howner]
  | access op processes memory =>
    rw [Machine.step] at hstep
    split_ifs at hstep with hop
    cases hstep
    have hleaves := op.access_leaves (s.host processes memory) s.file
    have hsub := afterPrune_sublist (s.host processes memory) s.file
    refine ⟨hleaves.sound hs hsub hop, ?_, ?_⟩
    · have hkept : ((s.held.filter (fun h => !op.releases h.id)).map HeldLease.id).Nodup :=
        hs.heldNodup.sublist (filter_sublist.map _)
      cases hgranted : (op.access (s.host processes memory) s.file).1 with
      | none => simpa only [hgranted, Option.toList_none, nil_append] using hkept
      | some g =>
        rw [hgranted] at hleaves
        obtain ⟨_, _, hheld⟩ := hop.fresh hleaves.grantee
        apply nodup_cons.mpr
        refine ⟨?_, hkept⟩
        intro hin
        exact hheld ((filter_sublist.map _).subset hin)
    · intro h hh
      obtain hnew | hold := mem_append.mp hh
      · rw [Option.mem_toList] at hnew
        rw [hnew] at hleaves
        exact (hop.fresh hleaves.grantee).1
      · exact hs.heldAlive h (mem_of_mem_filter hold)

theorem sound_empty (now : MachineTime) (alive : WorkerPid → Bool) : (Machine.empty now alive).Sound where
  ledger := ⟨nodup_nil, fun _ hr => (not_mem_nil hr).elim, fun _ hh => (not_mem_nil hh).elim⟩
  heldNodup := nodup_nil
  heldAlive := fun _ hh => (not_mem_nil hh).elim

namespace Machine

def KeptAll (s : Machine) : Prop :=
  ∀ h ∈ s.held, h.kind.lastsWithHolder = true → h.id ∈ s.ledger.leases.map MemoryLeaseRecord.id

theorem sum_le_of_ids {held : List HeldLease} (hnodup : (held.map HeldLease.id).Nodup)
    (hin : ∀ h ∈ held, ∃ r ∈ leases, r.id = h.id ∧ r.reservedMb = h.reservedMb) :
    (held.map (fun h => h.reservedMb.toNat)).sum ≤ (leases.map (fun r => r.reservedMb.toNat)).sum := by
  have hpairs : (held.map (fun h => (h.id, h.reservedMb.toNat))).Nodup := by
    apply Nodup.of_map Prod.fst
    rw [map_map]
    exact hnodup
  have hsubset : held.map (fun h => (h.id, h.reservedMb.toNat)) ⊆
      leases.map (fun r => (r.id, r.reservedMb.toNat)) := by
    intro pair hpair
    obtain ⟨h, hh, rfl⟩ := mem_map.mp hpair
    obtain ⟨r, hr, hid, hreserved⟩ := hin h hh
    exact mem_map.mpr ⟨r, hr, by rw [hid, hreserved]⟩
  obtain ⟨mid, hperm, hsub⟩ := subperm_of_subset hpairs hsubset
  calc (held.map (fun h => h.reservedMb.toNat)).sum
      = ((held.map (fun h => (h.id, h.reservedMb.toNat))).map Prod.snd).sum := by
        rw [map_map]
        rfl
    _ = (mid.map Prod.snd).sum := ((hperm.map Prod.snd).sum_eq).symm
    _ ≤ ((leases.map (fun r => (r.id, r.reservedMb.toNat))).map Prod.snd).sum :=
        (hsub.map Prod.snd).sum_le_sum (fun _ _ => Nat.zero_le _)
    _ = (leases.map (fun r => r.reservedMb.toNat)).sum := by
        rw [map_map]
        rfl

theorem Sound.kept_of_mem {s : Machine} (hs : s.Sound) {h : HeldLease} (hh : h ∈ s.held)
    (hlasts : h.kind.lastsWithHolder = true)
    (hin : h.id ∈ s.ledger.leases.map MemoryLeaseRecord.id) : s.Kept h := by
  obtain ⟨r, hr, hid⟩ := mem_map.mp hin
  obtain ⟨hkind, howner, hreserved, _⟩ := hs.ledger.recorded h hh hlasts r hr hid
  exact ⟨r, hr, hid, hkind, howner, hreserved⟩

theorem asked_job_eq (o : WorkerPid) (l : MemoryLedger) : asked o .job l.reservations =
      ((l.leases.filter (fun r => decide (r.ownerPid = o) && r.kind.demandSide == .job)).map
        (fun r => r.reservedMb.toNat)).sum := by
  unfold asked SharedDemand.asked MemoryLedger.reservations
  rw [filter_map, map_map]
  congr 2
  apply filter_congr
  intro r _
  rw [Function.comp_apply, Bool.eq_iff_iff, Bool.and_eq_true, Bool.and_eq_true,
    decide_eq_true_iff, decide_eq_true_iff]
  cases hside : r.kind.demandSide <;>
    simp [Reservation.reading, MemoryLeaseRecord.reservation, hside]

theorem Sound.leasesLast_iff {s : Machine} (hs : s.Sound) : s.LeasesLast ↔ s.KeptAll := by
  constructor
  · intro hlast h hh hlasts
    obtain ⟨r, hr, hid, _⟩ := hlast.kept h hh hlasts (hs.heldAlive h hh)
    exact mem_map.mpr ⟨r, hr, hid⟩
  · intro hkept
    refine ⟨?_, ?_, ?_⟩
    · intro h hh hlasts _
      exact hs.kept_of_mem hh hlasts (hkept h hh hlasts)
    · intro h hh h' hh' hlock hlock' _ _
      have hlasts : h.kind.lastsWithHolder = true := by rw [hlock]; rfl
      have hlasts' : h'.kind.lastsWithHolder = true := by rw [hlock']; rfl
      obtain ⟨r, hr, hid, hkind, _⟩ := hs.kept_of_mem hh hlasts (hkept h hh hlasts)
      obtain ⟨r', hr', hid', hkind', _⟩ := hs.kept_of_mem hh' hlasts' (hkept h' hh' hlasts')
      apply hs.held_unique hh hh'
      calc h.id
          = r.id := hid.symm
        _ = r'.id := hs.ledger.oneLock r hr r' hr' (hkind.trans hlock) (hkind'.trans hlock')
        _ = h'.id := hid'
    · intro o _
      rw [asked_job_eq]
      apply sum_le_of_ids
      · exact hs.heldNodup.sublist (filter_sublist.map _)
      · intro h hh
        obtain ⟨hin, hjob⟩ := mem_filter.mp hh
        rw [Bool.and_eq_true, beq_iff_eq, beq_iff_eq] at hjob
        have hlasts : h.kind.lastsWithHolder = true := by rw [hjob.1]; rfl
        obtain ⟨r, hr, hid, hkind, howner, hreserved⟩ :=
          hs.kept_of_mem hin hlasts (hkept h hin hlasts)
        refine ⟨r, mem_filter.mpr ⟨hr, ?_⟩, hid, hreserved⟩
        rw [hkind, hjob.1, howner, hjob.2]
        simp [MemoryLeaseKind.demandSide]

end Machine

theorem LedgerOp.Leaves.mem_ids {granted : Option HeldLease} (h : op.Leaves l granted l') {i : LeaseId}
    (hreleases : op.releases i = false) (hgrants : ∀ o, op.grantee ≠ some (i, o)) :
    i ∈ l'.leases.map MemoryLeaseRecord.id ↔ i ∈ l.leases.map MemoryLeaseRecord.id := by
  cases h with
  | unchanged => exact Iff.rfl
  | granted _ _ g r hnew hid _ _ _ =>
    rw [map_append, map_singleton, mem_append, mem_singleton, hid]
    constructor
    · intro hi
      apply hi.resolve_right
      intro hig
      apply hgrants g.owner
      rw [hnew, hig]
    · exact Or.inl
  | tagged id worker =>
    rw [updateFirst_map_id]
    exact fun r => rfl
  | settled id reserved =>
    rw [updateFirst_map_id]
    exact fun r => rfl
  | dropped id =>
    have hne : id ≠ i := by
      intro heq
      simp [LedgerOp.releases, heq] at hreleases
    constructor
    · intro hi
      exact (filter_sublist.map _).subset hi
    · intro hi
      obtain ⟨r, hr, rfl⟩ := mem_map.mp hi
      refine mem_map.mpr ⟨r, mem_filter.mpr ⟨hr, ?_⟩, rfl⟩
      exact bne_iff_ne.mpr hne.symm

theorem Machine.Sound.mem_afterPrune_iff (hs : s.Sound) {h : HeldLease}
    (hh : h ∈ s.held) (hlasts : h.kind.lastsWithHolder = true)
    (hin : h.id ∈ s.ledger.leases.map MemoryLeaseRecord.id)
    (processes : Option HostUnreadable) (memory : Except HostUnreadable SystemMemory) :
    h.id ∈ (afterPrune (s.host processes memory) s.file).leases.map MemoryLeaseRecord.id ↔
      (processes = none → ∀ r ∈ s.ledger.leases, r.id = h.id →
        saturatingDurationSince s.now r.createdAt < preSpawnIntentDeadline) := by
  have hsurvives (r) (hr : r ∈ s.ledger.leases) (hid : r.id = h.id) :
      r.survives s.alive s.now = true ↔
        saturatingDurationSince s.now r.createdAt < preSpawnIntentDeadline := by
    obtain ⟨_, howner, _, hworker⟩ := hs.ledger.recorded h hh hlasts r hr hid
    unfold MemoryLeaseRecord.survives
    rw [hworker, howner]
    simp [hs.heldAlive h hh]
  obtain ⟨r, hr, hid⟩ := mem_map.mp hin
  constructor
  · intro hafter hreadable r' hr' hid'
    obtain ⟨r₀, hr₀, hid₀⟩ := mem_map.mp hafter
    obtain ⟨hr₀, hr₀survives⟩ := mem_afterPrune.mp hr₀
    -- the ledger has one lease for the id, and it is the one that survived
    have hsame : r' = r₀ :=
      inj_on_of_nodup_map hs.ledger.idsNodup hr' hr₀ (hid'.trans hid₀.symm)
    rw [← hsurvives r' hr' hid', hsame]
    apply hr₀survives
    rw [hreadable]
    rfl
  · intro hyoung
    refine mem_map.mpr ⟨r, mem_afterPrune.mpr ⟨hr, ?_⟩, hid⟩
    intro alive halive
    cases processes with
    | some unreadable => cases halive
    | none =>
      cases halive
      exact (hsurvives r hr hid).mpr (hyoung rfl r hr hid)

theorem step_keptAll_iff {s' : Machine} {e : MachineEvent} (hs : s.Sound)
    (hkept : s.KeptAll) (hstep : s.step e = some s') : s'.KeptAll ↔ s.YoungWhenPruned e := by
  cases e with
  | clock now =>
    cases hstep
    exact ⟨fun _ => trivial, fun _ => hkept⟩
  | start pid =>
    cases hstep
    exact ⟨fun _ => trivial, fun _ => hkept⟩
  | die pid =>
    cases hstep
    refine ⟨fun _ => trivial, fun _ => ?_⟩
    intro h hh
    exact hkept h (mem_of_mem_filter hh)
  | access op processes memory =>
    rw [Machine.step] at hstep
    split_ifs at hstep with hop
    cases hstep
    have hleaves := op.access_leaves (s.host processes memory) s.file
    -- for a lease that was held and is not released, being in the new ledger is being young
    have hold (h) (hh : h ∈ s.held) (hlasts : h.kind.lastsWithHolder = true)
        (hreleases : op.releases h.id = false) :
        h.id ∈ (MemoryLedger.ofFile (op.access (s.host processes memory) s.file).2).leases.map
            MemoryLeaseRecord.id ↔
          (processes = none → ∀ r ∈ s.ledger.leases, r.id = h.id →
            saturatingDurationSince s.now r.createdAt < preSpawnIntentDeadline) := by
      rw [hleaves.mem_ids hreleases]
      · exact hs.mem_afterPrune_iff hh hlasts (hkept h hh hlasts) processes memory
      · intro o hgrantee
        exact (hop.fresh hgrantee).2.2 (mem_map_of_mem hh)
    constructor
    · intro hkept'
      cases processes with
      | some unreadable => trivial
      | none =>
        intro h hh hlasts hreleases
        refine (hold h hh hlasts hreleases).mp ?_ rfl
        apply hkept' h _ hlasts
        apply mem_append_right
        exact mem_filter.mpr ⟨hh, by simp [hreleases]⟩
    · intro hyoung h hh hlasts
      obtain hnew | hheld := mem_append.mp hh
      · rw [Option.mem_toList] at hnew
        rw [hnew] at hleaves
        exact hleaves.granted_mem
      · obtain ⟨hin, hreleases⟩ := mem_filter.mp hheld
        rw [Bool.not_eq_true'] at hreleases
        apply (hold h hin hlasts hreleases).mpr
        intro hreadable
        rw [hreadable] at hyoung
        exact hyoung h hin hlasts hreleases

/-- From an empty ledger, job-execution leases and the test lock last as their holders do exactly when every
  prune finds the others younger than half an hour. -/
theorem leases_last_iff (now : MachineTime) (alive : WorkerPid → Bool)
    (events : List MachineEvent) :
    Runs.Always Machine.step Machine.LeasesLast (Machine.empty now alive) events ↔
      Runs.Along Machine.step Machine.YoungWhenPruned (Machine.empty now alive) events := by
  apply Runs.always_iff_along_beside (J := Machine.Sound)
  · intro s e s' hs hstep
    exact step_sound hs hstep
  · intro s e s' hs hlast hstep
    calc s'.LeasesLast
        ↔ s'.KeptAll := (step_sound hs hstep).leasesLast_iff
      _ ↔ s.YoungWhenPruned e := step_keptAll_iff hs (hs.leasesLast_iff.mp hlast) hstep
  · exact sound_empty now alive
  · apply (sound_empty now alive).leasesLast_iff.mpr
    intro h hh
    exact (not_mem_nil hh).elim

/-- In every run the ledger agrees with the leases held (`Machine.Sound`). -/
theorem ledger_sound_always (now : MachineTime) (alive : WorkerPid → Bool) (events : List MachineEvent) :
    Runs.Always Machine.step Machine.Sound (Machine.empty now alive) events :=
  Runs.always_of_step (fun _ _ _ hs hstep => step_sound hs hstep) (sound_empty now alive) events

def lockTwice : List MachineEvent :=
  [.access (.acquire ⟨1, 8000, 4⟩ 1 (.mlTestLock "first")) none (.ok ⟨15989, 14000⟩),
    .clock 1800000,
    .access (.acquire ⟨2, 8000, 4⟩ 2 (.mlTestLock "second")) none (.ok ⟨15989, 14000⟩)]

/-- Two live processes hold the machine-wide test lock, and the first one's lease is gone. -/
theorem test_lock_taken_from_live_holder :
    ¬ ∀ (now : MachineTime) (alive : WorkerPid → Bool) (events : List MachineEvent),
      Runs.Always Machine.step Machine.LeasesLast (Machine.empty now alive) events := by
  intro h
  have hlast := h 0 (fun _ => true) lockTwice
  have hend := (((hlast.2 _ rfl).2 _ rfl).2 _ rfl).exclusive
    ⟨1, .mlTestExclusive, 1, 0⟩ (by decide) ⟨2, .mlTestExclusive, 2, 0⟩ (by decide) rfl rfl rfl rfl
  cases hend

end HostMemory
