import Batchalign.HostMemory.Demand

/- The host-memory ledger and its operations (`host_memory.rs`). Every operation opens the file of
   leases under its lock, prunes, acts and writes it back (`withLockedLedger`). The host is the process
   table, the memory figures and the wall clock; the first two may be unreadable. `survives` is the test
   of `prune_stale_leases`, `acquire` and `planJob` are `try_acquire_lease` and `try_plan_job_execution`
   on the pruned ledger. A lease's UUID is a number the caller draws, the file the list of its leases.
   -/
namespace HostMemory

abbrev MachineTime := ℤ

abbrev LeaseId := ℕ

/-- The time from `earlier` to `now` in milliseconds, or zero when `earlier` is later. -/
def saturatingDurationSince (now earlier : MachineTime) : ℕ := (now - earlier).toNat

structure MemoryLeaseRecord where
  id : LeaseId
  kind : MemoryLeaseKind
  ownerPid : WorkerPid
  workerPid : Option WorkerPid
  reservedMb : MemoryMb
  label : String
  createdAt : MachineTime

/-- The file form of one lease: whole seconds, and the startup slot written from the kind. -/
structure MemoryLeaseRecordWire where
  id : LeaseId
  kind : MemoryLeaseKind
  ownerPid : WorkerPid
  workerPid : Option WorkerPid
  reservedMb : MemoryMb
  startupSlot : Bool
  label : String
  createdAtEpochS : ℤ
  deriving DecidableEq

def MemoryLeaseRecordWire.fromWire (wire : MemoryLeaseRecordWire) : MemoryLeaseRecord where
  id := wire.id
  kind := wire.kind
  ownerPid := wire.ownerPid
  workerPid := wire.workerPid
  reservedMb := wire.reservedMb
  label := wire.label
  createdAt := wire.createdAtEpochS * 1000

namespace MemoryLeaseRecord

def toWire (record : MemoryLeaseRecord) : MemoryLeaseRecordWire where
  id := record.id
  kind := record.kind
  ownerPid := record.ownerPid
  workerPid := record.workerPid
  reservedMb := record.reservedMb
  startupSlot := record.kind.holdsStartupSlot
  label := record.label
  createdAtEpochS := record.createdAt.tdiv 1000

def reservation (record : MemoryLeaseRecord) : Reservation where
  owner := record.ownerPid
  kind := record.kind
  reserved := record.reservedMb

def rounded (record : MemoryLeaseRecord) : MemoryLeaseRecord :=
  { record with createdAt := record.createdAt.tdiv 1000 * 1000 }

end MemoryLeaseRecord

/-- The leases of the machine, as the ledger file lists them. -/
structure MemoryLedger where
  leases : List MemoryLeaseRecord := []

abbrev LedgerFile := List MemoryLeaseRecordWire

namespace MemoryLedger

def ofFile (file : LedgerFile) : MemoryLedger := ⟨file.map MemoryLeaseRecordWire.fromWire⟩

def toFile (ledger : MemoryLedger) : LedgerFile := ledger.leases.map MemoryLeaseRecord.toWire

def reservations (ledger : MemoryLedger) : List Reservation :=
  ledger.leases.map MemoryLeaseRecord.reservation

def rounded (ledger : MemoryLedger) : MemoryLedger :=
  ⟨ledger.leases.map MemoryLeaseRecord.rounded⟩

def push (ledger : MemoryLedger) (record : MemoryLeaseRecord) : MemoryLedger :=
  ⟨ledger.leases ++ [record]⟩

end MemoryLedger

structure HostUnreadable where
  message : String
  deriving DecidableEq

structure SystemMemory where
  totalMb : MemoryMb
  availableMb : MemoryMb

structure Host where
  processes : Except HostUnreadable (WorkerPid → Bool)
  memory : Except HostUnreadable SystemMemory
  now : MachineTime

inductive HostMemoryError where
  | unreadable (source : HostUnreadable)
  | capacityRejected (label : String)
      (availableMb pendingReservedMb requestedMb reserveMb totalMb : MemoryMb)
  | mlTestLockBusy (holders : List String)
  | startupSlotsBusy (label : String) (activeSlots maxSlots : ℕ)
  deriving DecidableEq

/-- `PRE_SPAWN_INTENT_DEADLINE`, in milliseconds. -/
def preSpawnIntentDeadline : ℕ := 1800 * 1000

inductive Pruned where
  | nothing
  | some

/-- A lease outlives a prune as long as its worker, or as its owner and no longer than the deadline. -/
def MemoryLeaseRecord.survives (alive : WorkerPid → Bool) (now : MachineTime)
    (lease : MemoryLeaseRecord) : Bool :=
  match lease.workerPid with
  | some worker => alive worker
  | none =>
    alive lease.ownerPid &&
      decide (saturatingDurationSince now lease.createdAt < preSpawnIntentDeadline)

def MemoryLedger.kept (alive : WorkerPid → Bool) (now : MachineTime)
    (ledger : MemoryLedger) : MemoryLedger :=
  ⟨ledger.leases.filter (MemoryLeaseRecord.survives alive now)⟩

def pruneStaleLeases (host : Host) (ledger : MemoryLedger) :
    Except HostUnreadable (Pruned × MemoryLedger) :=
  if ledger.leases = [] then .ok (.nothing, ledger)
  else
    match host.processes with
    | .error unreadable => .error unreadable
    | .ok alive =>
      if (ledger.kept alive host.now).leases.length = ledger.leases.length then
        .ok (.nothing, ledger.kept alive host.now)
      else .ok (.some, ledger.kept alive host.now)

abbrev Action (α : Type) := MemoryLedger → Except HostMemoryError α × MemoryLedger

def writeBack {α : Type} (file : LedgerFile) (pruned : Pruned) :
    Except HostMemoryError α × MemoryLedger → Except HostMemoryError α × LedgerFile
  | (.ok value, ledger) => (.ok value, ledger.toFile)
  | (.error error, ledger) =>
    match pruned with
    | .nothing => (.error error, file)
    | .some => (.error error, ledger.toFile)

def withLockedLedger {α : Type} (host : Host) (file : LedgerFile) (action : Action α) :
    Except HostMemoryError α × LedgerFile :=
  match pruneStaleLeases host (MemoryLedger.ofFile file) with
  | .error unreadable => (.error (.unreadable unreadable), file)
  | .ok (pruned, ledger) => writeBack file pruned (action ledger)

structure HostMemoryLease where
  leaseId : LeaseId
  released : Bool := false
  deriving DecidableEq

structure MemoryLeaseRequest where
  kind : MemoryLeaseKind
  reservedMb : MemoryMb
  label : String
  workerPid : Option WorkerPid

structure HostMemoryCoordinator where
  pid : WorkerPid
  reserveMb : MemoryMb
  maxConcurrentWorkerStartups : ℕ

namespace HostMemoryCoordinator

def projected (c : HostMemoryCoordinator) (request : MemoryLeaseRequest)
    (ledger : MemoryLedger) : List Reservation :=
  ledger.reservations ++ [⟨c.pid, request.kind, request.reservedMb⟩]

def record (c : HostMemoryCoordinator) (host : Host) (id : LeaseId)
    (request : MemoryLeaseRequest) : MemoryLeaseRecord where
  id := id
  kind := request.kind
  ownerPid := c.pid
  workerPid := request.workerPid
  reservedMb := request.reservedMb
  label := request.label
  createdAt := host.now

/-- The action of `try_acquire_lease`. -/
def acquire (c : HostMemoryCoordinator) (host : Host) (id : LeaseId)
    (request : MemoryLeaseRequest) : Action HostMemoryLease := fun ledger =>
  let holders := (ledger.leases.filter (fun lease => lease.kind == .mlTestExclusive)).map
    MemoryLeaseRecord.label
  let activeSlots := (ledger.leases.filter (fun lease => lease.kind.holdsStartupSlot)).length
  if request.kind = .mlTestExclusive ∧ holders ≠ [] then
    (.error (.mlTestLockBusy holders), ledger)
  else if request.kind.holdsStartupSlot = true ∧ c.maxConcurrentWorkerStartups ≤ activeSlots then
    (.error (.startupSlotsBusy request.label activeSlots c.maxConcurrentWorkerStartups), ledger)
  else
    match host.memory with
    | .error unreadable => (.error (.unreadable unreadable), ledger)
    | .ok system =>
      let pendingReservedMb := effectiveReservedMb ledger.reservations
      let projectedReservedMb := effectiveReservedMb (c.projected request ledger)
      -- a request that adds nothing is a sub-allocation of what its owner already holds
      if pendingReservedMb.toNat < projectedReservedMb.toNat ∧
          (Saturating.sub system.availableMb projectedReservedMb).toNat < c.reserveMb.toNat then
        (.error (.capacityRejected request.label system.availableMb pendingReservedMb
          request.reservedMb c.reserveMb system.totalMb), ledger)
      else (.ok ⟨id, false⟩, ledger.push (c.record host id request))

def tryAcquireLease (c : HostMemoryCoordinator) (host : Host) (id : LeaseId)
    (request : MemoryLeaseRequest) (file : LedgerFile) :
    Except HostMemoryError HostMemoryLease × LedgerFile :=
  withLockedLedger host file (c.acquire host id request)

end HostMemoryCoordinator

inductive WorkerProfile where
  | gpu
  | stanza
  | io

structure MemoryTier where
  gpuStartupMb : MemoryMb
  stanzaStartupMb : MemoryMb
  ioStartupMb : MemoryMb

def MemoryTier.fromTotalMb (totalMb : MemoryMb) : MemoryTier :=
  if totalMb.toNat < 24000 then ⟨6000, 3000, 2000⟩
  else if totalMb.toNat < 48000 then ⟨3000, 6000, 3000⟩
  else if totalMb.toNat < 128000 then ⟨16000, 12000, 4000⟩
  else ⟨16000, 12000, 4000⟩

def WorkerProfile.startupReservationMbForTier (tier : MemoryTier) : WorkerProfile → MemoryMb
  | .gpu => tier.gpuStartupMb
  | .stanza => tier.stanzaStartupMb
  | .io => tier.ioStartupMb

/-- The command registry: the workers' profile, and the execution budget, base and loading spike. -/
structure CommandSpec where
  profile : Option WorkerProfile
  executionBudgetMb : MemoryMb

def smallerMb (a b : MemoryMb) : MemoryMb := if a.toNat ≤ b.toNat then a else b

def estimatePerWorkerPeakMbWithProfile (worstCase : MemoryMb) (profile : WorkerProfile)
    (tier : MemoryTier) : MemoryMb :=
  smallerMb worstCase (profile.startupReservationMbForTier tier)

def CommandSpec.perWorkerBudget (spec : CommandSpec) (totalMb : MemoryMb) : MemoryMb :=
  match spec.profile with
  | some profile =>
    estimatePerWorkerPeakMbWithProfile spec.executionBudgetMb profile
      (MemoryTier.fromTotalMb totalMb)
  | none => spec.executionBudgetMb

def reserveHeadroomFractionDenom : MemoryMb := 4

/-- The reserve a job plan keeps free: the configured one, or a quarter of what is
available. -/
def effectiveReserveMb (availableMb reserveMb : MemoryMb) : MemoryMb :=
  smallerMb reserveMb (availableMb / reserveHeadroomFractionDenom)

/-- The largest count up to `workers` whose reservation fits, and the reservation. -/
def planFrom (perWorkerBudgetMb availableMb effectiveReserveMb pendingReservedMb : MemoryMb) :
    ℕ → Option (ℕ × MemoryMb)
  | 0 => none
  | workers + 1 =>
    let requestedMb := Saturating.mul perWorkerBudgetMb (BitVec.ofNat 64 (workers + 1))
    let projectedAvailableMb :=
      Saturating.sub (Saturating.sub availableMb pendingReservedMb) requestedMb
    if effectiveReserveMb.toNat ≤ projectedAvailableMb.toNat then some (workers + 1, requestedMb)
    else planFrom perWorkerBudgetMb availableMb effectiveReserveMb pendingReservedMb workers

def planJobReservation (requestedWorkers : BitVec 64)
    (perWorkerBudgetMb availableMb reserveMb pendingReservedMb : MemoryMb) :
    Option (ℕ × MemoryMb) :=
  planFrom perWorkerBudgetMb availableMb (effectiveReserveMb availableMb reserveMb)
    pendingReservedMb requestedWorkers.toNat

structure JobExecutionPlan where
  grantedWorkers : ℕ
  requestedWorkers : BitVec 64
  lease : HostMemoryLease
  reservedMb : MemoryMb
  deriving DecidableEq

namespace HostMemoryCoordinator

def jobRecord (c : HostMemoryCoordinator) (host : Host) (id : LeaseId) (label : String)
    (reservedMb : MemoryMb) : MemoryLeaseRecord where
  id := id
  kind := .jobExecution
  ownerPid := c.pid
  workerPid := none
  reservedMb := reservedMb
  label := label
  createdAt := host.now

/-- The action of `try_plan_job_execution`. -/
def planJob (c : HostMemoryCoordinator) (host : Host) (id : LeaseId) (spec : CommandSpec)
    (requestedWorkers : BitVec 64) (label : String) : Action JobExecutionPlan := fun ledger =>
  match host.memory with
  | .error unreadable => (.error (.unreadable unreadable), ledger)
  | .ok system =>
    let perWorkerBudget := spec.perWorkerBudget system.totalMb
    let pendingReservedMb := effectiveReservedMb ledger.reservations
    match planJobReservation requestedWorkers perWorkerBudget system.availableMb c.reserveMb
        pendingReservedMb with
    | none =>
      (.error (.capacityRejected label system.availableMb pendingReservedMb
        (Saturating.mul perWorkerBudget requestedWorkers) c.reserveMb system.totalMb), ledger)
    | some (grantedWorkers, reservedMb) =>
      (.ok ⟨grantedWorkers, requestedWorkers, ⟨id, false⟩, reservedMb⟩,
        ledger.push (c.jobRecord host id label reservedMb))

def tryPlanJobExecution (c : HostMemoryCoordinator) (host : Host) (id : LeaseId)
    (spec : CommandSpec) (requestedWorkers : BitVec 64) (label : String) (file : LedgerFile) :
    Except HostMemoryError JobExecutionPlan × LedgerFile :=
  withLockedLedger host file (c.planJob host id spec requestedWorkers label)

end HostMemoryCoordinator

def updateFirst (id : LeaseId) (f : MemoryLeaseRecord → MemoryLeaseRecord) :
    List MemoryLeaseRecord → List MemoryLeaseRecord
  | [] => []
  | lease :: rest => if lease.id = id then f lease :: rest else lease :: updateFirst id f rest

def setWorkerPid (host : Host) (id : LeaseId) (workerPid : WorkerPid) (file : LedgerFile) :
    Except HostMemoryError Unit × LedgerFile :=
  withLockedLedger host file (fun ledger =>
    (.ok (), ⟨updateFirst id (fun lease => { lease with workerPid := some workerPid })
      ledger.leases⟩))

def settle (host : Host) (id : LeaseId) (reserved : MemoryMb) (file : LedgerFile) :
    Except HostMemoryError Unit × LedgerFile :=
  withLockedLedger host file (fun ledger =>
    (.ok (), ⟨updateFirst id (fun lease => { lease with reservedMb := reserved }) ledger.leases⟩))

def dropLease (id : LeaseId) : Action Unit := fun ledger =>
  (.ok (), ⟨ledger.leases.filter (fun lease => lease.id != id)⟩)

def HostMemoryLease.releaseInternal (host : Host) (lease : HostMemoryLease)
    (file : LedgerFile) : HostMemoryLease × LedgerFile :=
  if lease.released = true then (lease, file)
  else ({ lease with released := true }, (withLockedLedger host file (dropLease lease.leaseId)).2)

structure HostMemorySnapshot where
  totalMb : MemoryMb
  availableMb : MemoryMb
  reserveMb : MemoryMb
  activeReservedMb : MemoryMb
  startupLeases : ℕ
  jobExecutionLeases : ℕ
  mlTestLocks : ℕ

def HostMemoryCoordinator.snapshot (c : HostMemoryCoordinator) (host : Host)
    (file : LedgerFile) : Except HostMemoryError HostMemorySnapshot × LedgerFile :=
  withLockedLedger host file (fun ledger =>
    match host.memory with
    | .error unreadable => (.error (.unreadable unreadable), ledger)
    | .ok system =>
      let count (kind : MemoryLeaseKind) :=
        (ledger.leases.filter (fun lease => lease.kind == kind)).length
      (.ok ⟨system.totalMb, system.availableMb, c.reserveMb,
        effectiveReservedMb ledger.reservations, count .workerStartup, count .jobExecution,
        count .mlTestExclusive⟩, ledger))

@[simp]
theorem fromWire_toWire (record : MemoryLeaseRecord) : record.toWire.fromWire = record.rounded :=
  rfl

@[simp]
theorem rounded_fromWire (wire : MemoryLeaseRecordWire) : wire.fromWire.rounded = wire.fromWire := by
  simp [MemoryLeaseRecord.rounded, MemoryLeaseRecordWire.fromWire]

@[simp]
theorem reservation_rounded (record : MemoryLeaseRecord) :
    record.rounded.reservation = record.reservation := rfl

@[simp]
theorem ofFile_toFile (ledger : MemoryLedger) : MemoryLedger.ofFile ledger.toFile = ledger.rounded := by
  simp [MemoryLedger.ofFile, MemoryLedger.toFile, MemoryLedger.rounded]

@[simp]
theorem reservations_rounded (ledger : MemoryLedger) :
    ledger.rounded.reservations = ledger.reservations := by
  simp [MemoryLedger.rounded, MemoryLedger.reservations]

def MemoryLedger.Whole (ledger : MemoryLedger) : Prop := ledger.rounded = ledger

theorem whole_iff (ledger : MemoryLedger) :
    ledger.Whole ↔ ∀ lease ∈ ledger.leases, lease.rounded = lease := by
  obtain ⟨leases⟩ := ledger
  unfold MemoryLedger.Whole MemoryLedger.rounded
  rw [MemoryLedger.mk.injEq]
  constructor
  · intro h lease hlease
    induction leases with
    | nil => cases hlease
    | cons head rest ih =>
      rw [List.map_cons, List.cons.injEq] at h
      obtain rfl | hrest := List.mem_cons.mp hlease
      · exact h.1
      · exact ih h.2 hrest
  · intro h
    exact (List.map_congr_left h).trans (List.map_id _)

theorem whole_ofFile (file : LedgerFile) : (MemoryLedger.ofFile file).Whole := by
  rw [whole_iff]
  intro lease hlease
  obtain ⟨wire, _, rfl⟩ := List.mem_map.mp hlease
  exact rounded_fromWire wire

variable {host : Host} {ledger : MemoryLedger} {pruned : Pruned} {file : LedgerFile}

theorem prune_sublist {ledger' : MemoryLedger} (h : pruneStaleLeases host ledger = .ok (pruned, ledger')) :
    ledger'.leases.Sublist ledger.leases := by
  unfold pruneStaleLeases at h
  split_ifs at h with hempty
  · cases h
    exact List.Sublist.refl _
  · cases hprocesses : host.processes with
    | error unreadable => simp [hprocesses] at h
    | ok alive =>
      simp only [hprocesses] at h
      split_ifs at h <;> cases h <;> exact List.filter_sublist

theorem eq_of_pruned_nothing {ledger' : MemoryLedger}
    (h : pruneStaleLeases host ledger = .ok (.nothing, ledger')) : ledger' = ledger := by
  have hsub := prune_sublist h
  have hlength : ledger'.leases.length = ledger.leases.length := by
    unfold pruneStaleLeases at h
    split_ifs at h with hempty
    · cases h
      rfl
    · cases hprocesses : host.processes with
      | error unreadable => simp [hprocesses] at h
      | ok alive =>
        simp only [hprocesses] at h
        split_ifs at h with hlen <;> cases h
        exact hlen
  have hleases := hsub.eq_of_length hlength
  rw [MemoryLedger.mk.injEq]
  exact hleases

theorem prune_whole (h : pruneStaleLeases host (MemoryLedger.ofFile file) = .ok (pruned, ledger)) :
    ledger.Whole := by
  rw [whole_iff]
  intro lease hlease
  exact (whole_iff _).mp (whole_ofFile file) lease ((prune_sublist h).subset hlease)

def Action.RefusesUnchanged {α : Type} (action : Action α) : Prop :=
  ∀ ledger error, (action ledger).1 = .error error → (action ledger).2 = ledger

variable {α : Type} (action : Action α)

theorem withLockedLedger_unreadable {unreadable : HostUnreadable}
    (h : pruneStaleLeases host (MemoryLedger.ofFile file) = .error unreadable) :
    withLockedLedger host file action = (.error (.unreadable unreadable), file) := by
  rw [withLockedLedger, h]

theorem withLockedLedger_pruned (h : pruneStaleLeases host (MemoryLedger.ofFile file) = .ok (pruned, ledger)) :
    withLockedLedger host file action = writeBack file pruned (action ledger) := by
  rw [withLockedLedger, h]

theorem withLockedLedger_fst
    (h : pruneStaleLeases host (MemoryLedger.ofFile file) = .ok (pruned, ledger)) :
    (withLockedLedger host file action).1 = (action ledger).1 := by
  rw [withLockedLedger_pruned action h]
  obtain ⟨result, ledger'⟩ := action ledger
  cases result <;> cases pruned <;> rfl

theorem ofFile_withLockedLedger {action : Action α} (haction : action.RefusesUnchanged) (h : pruneStaleLeases host (MemoryLedger.ofFile file) = .ok (pruned, ledger)) :
    MemoryLedger.ofFile (withLockedLedger host file action).2 = (action ledger).2.rounded := by
  have hwhole := prune_whole h
  have hrefused := haction ledger
  rw [withLockedLedger_pruned action h]
  generalize action ledger = outcome at hrefused ⊢
  obtain ⟨result, ledger'⟩ := outcome
  cases result with
  | ok value => exact ofFile_toFile ledger'
  | error error =>
    cases pruned with
    | some => exact ofFile_toFile ledger'
    | nothing =>
      -- nothing was pruned, so the file that is not rewritten is the pruned ledger
      calc MemoryLedger.ofFile file
          = ledger := (eq_of_pruned_nothing h).symm
        _ = ledger.rounded := hwhole.symm
        _ = ledger'.rounded := by rw [← hrefused error rfl]

end HostMemory
