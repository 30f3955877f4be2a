import Batchalign.HostMemory.Admission

/- When a wait for host memory stops for good (`host_memory.rs`). A wait ends with the error of an
   attempt whose refusal may not clear (`afterFailedAttempt`). `waitLoop` is `wait_for_lease`,
   `queue_for_lease` and `wait_for_job_execution_plan`. -/
namespace HostMemory

inductive AttemptError where
  | host (error : HostMemoryError)
  | io (path source : String)
  | corruptLedger (path message : String)
  | timedOut (label : String) (waitedS : ℕ) (lastReason : String)
  deriving DecidableEq

def capacityRejectionIsRetryable (totalMb requestedMb reserveMb : MemoryMb) : Bool :=
  decide ((Saturating.add requestedMb reserveMb).toNat ≤ totalMb.toNat)

def retryableError : AttemptError → Bool
  | .host (.capacityRejected _ _ _ requestedMb reserveMb totalMb) =>
    capacityRejectionIsRetryable totalMb requestedMb reserveMb
  | .host (.mlTestLockBusy _) => true
  | .host (.startupSlotsBusy _ _ _) => true
  | .host (.unreadable _) => false
  | .io _ _ => false
  | .corruptLedger _ _ => false
  | .timedOut _ _ _ => false

inductive LeaseWait where
  | bounded (timeoutMs deadlineMs : ℕ)
  | queued

inductive LeaseStep where
  | retry (lastReason : String)
  | stop (error : AttemptError)

/-- `after_failed_attempt`, where `display` writes an error out. -/
def afterFailedAttempt (display : AttemptError → String) (error : AttemptError) (label : String)
    (wait : LeaseWait) (lastReason : String) (nowMs : ℕ) : LeaseStep :=
  if retryableError error = false then .stop error
  else
    match wait with
    | .queued => .retry (display error)
    | .bounded timeoutMs deadlineMs =>
      if timeoutMs = 0 then .stop error
      else if nowMs < deadlineMs then .retry (display error)
      else .stop (.timedOut label (timeoutMs / 1000) lastReason)

/-- A wait over its attempts: granted, ended with an error, or still waiting. -/
def waitLoop {α : Type} (display : AttemptError → String) (label : String) (wait : LeaseWait) :
    String → List (ℕ × Except AttemptError α) → Option (Except AttemptError α)
  | _, [] => none
  | _, (_, .ok value) :: _ => some (.ok value)
  | lastReason, (nowMs, .error error) :: rest =>
    match afterFailedAttempt display error label wait lastReason nowMs with
    | .retry lastReason => waitLoop display label wait lastReason rest
    | .stop error => some (.error error)

section Wait
variable {display : AttemptError → String} {label : String} {wait : LeaseWait}

theorem afterFailedAttempt_final {error : AttemptError} (h : retryableError error = false)
    (lastReason : String) (nowMs : ℕ) :
    afterFailedAttempt display error label wait lastReason nowMs = .stop error := if_pos h

end Wait

inductive Call where
  | lease (request : MemoryLeaseRequest)
  | plan (spec : CommandSpec) (requestedWorkers : BitVec 64) (label : String)

structure Moment where
  host : Host
  file : LedgerFile
  id : LeaseId
  nowMs : ℕ

namespace Call

def attempt (c : HostMemoryCoordinator) (m : Moment) : Call → Except HostMemoryError Unit
  | .lease request => (c.tryAcquireLease m.host m.id request m.file).1.map fun _ => ()
  | .plan spec requestedWorkers label =>
    (c.tryPlanJobExecution m.host m.id spec requestedWorkers label m.file).1.map fun _ => ()

end Call

def Moment.Reads (m : Moment) (totalMb : MemoryMb) : Prop :=
  ∃ availableMb : MemoryMb, m.host.memory = .ok ⟨totalMb, availableMb⟩ ∧
    availableMb.toNat ≤ totalMb.toNat

def HostMemoryError.IsCapacity : HostMemoryError → Prop
  | .capacityRejected _ _ _ _ _ _ => True
  | _ => False

section Calls
variable (c : HostMemoryCoordinator) (call : Call) (totalMb : MemoryMb)

def Grantable : Prop := ∃ m : Moment, m.Reads totalMb ∧ call.attempt c m = .ok ()

def Refused (error : HostMemoryError) : Prop :=
  ∃ m : Moment, m.Reads totalMb ∧ call.attempt c m = .error error

def attempts (moments : List Moment) : List (ℕ × Except AttemptError Unit) :=
  moments.map fun m => (m.nowMs, match call.attempt c m with
    | .ok value => .ok value
    | .error error => .error (.host error))

/-- A refusal is final exactly when the call can never be granted, on any ledger and availability of
that machine. -/
structure RefusalExact (display : AttemptError → String) (error : HostMemoryError) : Prop where
  final : ∀ (wait : LeaseWait) (label lastReason : String) (moments : List Moment),
    (∀ m ∈ moments, m.Reads totalMb) →
    waitLoop display label wait lastReason (attempts c call moments) = some (.error (.host error)) →
    retryableError (.host error) = false → ¬ Grantable c call totalMb
  clears : retryableError (.host error) = true → Grantable c call totalMb

/-- The call fits into the machine beside the whole reserve, as 64-bit words add up. -/
def Fits : Prop :=
  match call with
  | .lease request =>
    min (request.reservedMb.toNat + c.reserveMb.toNat) (2 ^ 64 - 1) ≤ totalMb.toNat
  | .plan spec requestedWorkers _ =>
    min (min ((spec.perWorkerBudget totalMb).toNat * requestedWorkers.toNat) (2 ^ 64 - 1) +
      c.reserveMb.toNat) (2 ^ 64 - 1) ≤ totalMb.toNat

def AsksForSome : Prop :=
  match call with
  | .lease _ => True
  | .plan _ requestedWorkers _ => 1 ≤ requestedWorkers.toNat

end Calls

variable {ledger : MemoryLedger} {request : MemoryLeaseRequest} {requested : BitVec 64}
  {spec : CommandSpec}

section Refusals
variable {c : HostMemoryCoordinator}

variable {error : HostMemoryError} {host : Host}

theorem action_error_of_capacity {α : Type} {file : LedgerFile} {action : Action α}
    (hcapacity : error.IsCapacity) (h : (withLockedLedger host file action).1 = .error error) :
    (action (afterPrune host file)).1 = .error error := by
  cases hprune : pruneStaleLeases host (MemoryLedger.ofFile file) with
  | error unreadable =>
    rw [withLockedLedger_unreadable action hprune] at h
    cases h
    exact hcapacity.elim
  | ok prunedLedger =>
    rw [withLockedLedger_fst action hprune] at h
    rw [afterPrune_of_ok hprune]
    exact h

theorem map_unit_eq_error {α : Type} {x : Except HostMemoryError α} :
    x.map (fun _ => ()) = .error error ↔ x = .error error := by
  cases x with
  | ok value => simp [Except.map]
  | error other => simp [Except.map]

theorem acquire_refused {id : LeaseId} {system : SystemMemory}
    (hmemory : host.memory = .ok system) (hcapacity : error.IsCapacity)
    (h : (c.acquire host id request ledger).1 = .error error) :
    (request.kind.holdsStartupSlot = true → 0 < c.maxConcurrentWorkerStartups) ∧
      ∃ pendingReservedMb, error = .capacityRejected request.label system.availableMb
        pendingReservedMb request.reservedMb c.reserveMb system.totalMb := by
  unfold HostMemoryCoordinator.acquire at h
  simp only at h
  split_ifs at h with hlock hslots
  · cases h
    exact hcapacity.elim
  · cases h
    exact hcapacity.elim
  · rw [hmemory] at h
    simp only at h
    split_ifs at h
    cases h
    refine ⟨?_, _, rfl⟩
    intro hkind
    by_contra hnone
    exact hslots ⟨hkind, by omega⟩

theorem planJob_refused {id : LeaseId} {label : String} {system : SystemMemory}
    (hmemory : host.memory = .ok system)
    (h : (c.planJob host id spec requested label ledger).1 = .error error) :
    ∃ pendingReservedMb, error = .capacityRejected label system.availableMb pendingReservedMb
      (Saturating.mul (spec.perWorkerBudget system.totalMb) requested) c.reserveMb system.totalMb := by
  unfold HostMemoryCoordinator.planJob at h
  rw [hmemory] at h
  simp only at h
  cases hplan : planJobReservation requested (spec.perWorkerBudget system.totalMb)
      system.availableMb c.reserveMb (effectiveReservedMb ledger.reservations) with
  | none =>
    rw [hplan] at h
    cases h
    exact ⟨_, rfl⟩
  | some granted =>
    rw [hplan] at h
    cases h

theorem retryable_iff {label : String} {availableMb pendingMb requestedMb reserveMb totalMb : MemoryMb} :
    retryableError (.host (.capacityRejected label availableMb pendingMb requestedMb reserveMb totalMb)) = true ↔
      min (requestedMb.toNat + reserveMb.toNat) (2 ^ 64 - 1) ≤ totalMb.toNat := by
  rw [retryableError, capacityRejectionIsRetryable, decide_eq_true_iff, Saturating.toNat_add]

theorem retryable_iff_fits {call : Call} {totalMb : MemoryMb} (hrefused : Refused c call totalMb error) (hcapacity : error.IsCapacity) :
    retryableError (.host error) = true ↔ Fits c call totalMb := by
  obtain ⟨m, ⟨availableMb, hmemory, -⟩, hattempt⟩ := hrefused
  cases call with
  | lease request =>
    have herror := action_error_of_capacity hcapacity (map_unit_eq_error.mp hattempt)
    obtain ⟨-, pendingMb, rfl⟩ := acquire_refused hmemory hcapacity herror
    exact retryable_iff
  | plan spec requestedWorkers label =>
    have herror := action_error_of_capacity hcapacity (map_unit_eq_error.mp hattempt)
    obtain ⟨pendingMb, rfl⟩ := planJob_refused hmemory herror
    rw [retryable_iff, Saturating.toNat_mul]
    rfl

end Refusals

def coveringKind (kind : MemoryLeaseKind) : MemoryLeaseKind :=
  match kind.demandSide with
  | .job => .modelLoad
  | .worker => .jobExecution

def coveringLease (c : HostMemoryCoordinator) (request : MemoryLeaseRequest) : MemoryLeaseRecordWire :=
  ⟨0, coveringKind request.kind, c.pid, none, request.reservedMb, false, "", 0⟩

def fullMachine (totalMb : MemoryMb) (file : LedgerFile) : Moment :=
  ⟨⟨.ok fun _ => true, .ok ⟨totalMb, 0⟩, 0⟩, file, 1, 0⟩

theorem fullMachine_reads (totalMb : MemoryMb) (file : LedgerFile) :
    (fullMachine totalMb file).Reads totalMb := ⟨0, rfl, Nat.zero_le _⟩

theorem coveringKind_slot (kind : MemoryLeaseKind) :
    (coveringKind kind).holdsStartupSlot = false ∧ coveringKind kind ≠ .mlTestExclusive := by
  cases kind <;> exact ⟨rfl, by decide⟩

variable {m : Moment} {c : HostMemoryCoordinator} {call : Call} {totalMb : MemoryMb} {label : String}

theorem attempt_lease_ok {lease : HostMemoryLease} {pruned : Pruned}
    (hprune : pruneStaleLeases m.host (MemoryLedger.ofFile m.file) = .ok (pruned, ledger))
    (h : (c.acquire m.host m.id request ledger).1 = .ok lease) :
    (Call.lease request).attempt c m = .ok () := by
  rw [Call.attempt, HostMemoryCoordinator.tryAcquireLease, withLockedLedger_fst _ hprune, h]
  rfl

theorem attempt_plan_ok {plan : JobExecutionPlan} {pruned : Pruned}
    (hprune : pruneStaleLeases m.host (MemoryLedger.ofFile m.file) = .ok (pruned, ledger))
    (h : (c.planJob m.host m.id spec requested label ledger).1 = .ok plan) :
    (Call.plan spec requested label).attempt c m = .ok () := by
  rw [Call.attempt, HostMemoryCoordinator.tryPlanJobExecution, withLockedLedger_fst _ hprune, h]
  rfl

theorem effectiveReservedMb_covered (pid : WorkerPid) (kind : MemoryLeaseKind) (reserved : MemoryMb) :
    effectiveReservedMb [⟨pid, coveringKind kind, reserved⟩, ⟨pid, kind, reserved⟩] =
      effectiveReservedMb [⟨pid, coveringKind kind, reserved⟩] := by
  have hadd : Saturating.add 0#64 reserved = reserved := by
    apply BitVec.eq_of_toNat_eq
    rw [Saturating.toNat_add_of_lt] <;> simp [reserved.isLt]
  cases kind <;>
    simp [effectiveReservedMb, charge, OwnerDemand.add, OwnerDemand.larger, coveringKind,
      MemoryLeaseKind.demandSide, hadd]
  -- the worker side is the larger only where both are zero
  all_goals exact fun hzero => BitVec.eq_of_toNat_eq hzero

theorem lease_grantable (totalMb : MemoryMb)
    (hslots : request.kind.holdsStartupSlot = true → 0 < c.maxConcurrentWorkerStartups) :
    Grantable c (.lease request) totalMb := by
  refine ⟨fullMachine totalMb [coveringLease c request], fullMachine_reads _ _, ?_⟩
  obtain ⟨hslot, hkind⟩ := coveringKind_slot request.kind
  have hadds : ¬ ((effectiveReservedMb (MemoryLedger.ofFile [coveringLease c request]).reservations).toNat <
      (effectiveReservedMb (c.projected request (MemoryLedger.ofFile [coveringLease c request]))).toNat) := by
    have hsame := effectiveReservedMb_covered c.pid request.kind request.reservedMb
    exact Nat.not_lt_of_le (Nat.le_of_eq (congrArg BitVec.toNat hsame))
  have hprune : pruneStaleLeases (fullMachine totalMb [coveringLease c request]).host
      (MemoryLedger.ofFile [coveringLease c request]) =
        .ok (.nothing, MemoryLedger.ofFile [coveringLease c request]) := rfl
  have hgranted : (c.acquire (fullMachine totalMb [coveringLease c request]).host 1 request
      (MemoryLedger.ofFile [coveringLease c request])).1 = .ok ⟨1, false⟩ := by
    unfold HostMemoryCoordinator.acquire
    rw [if_neg, if_neg]
    · simp only [fullMachine]
      rw [if_neg fun hrefused => hadds hrefused.1]
    · rintro ⟨hstartup, hbusy⟩
      have hfree := hslots hstartup
      simp [MemoryLedger.ofFile, coveringLease, MemoryLeaseRecordWire.fromWire, hslot] at hbusy
      omega
    · rintro ⟨-, hheld⟩
      simp [MemoryLedger.ofFile, coveringLease, MemoryLeaseRecordWire.fromWire, hkind] at hheld
  exact attempt_lease_ok hprune hgranted

theorem plan_grantable_iff : Grantable c (.plan spec requested label) totalMb ↔ 1 ≤ requested.toNat := by
  constructor
  · rintro ⟨m, ⟨availableMb, hmemory, -⟩, hattempt⟩
    by_contra hnone
    have hzero : requested.toNat = 0 := by omega
    cases hgranted : (c.tryPlanJobExecution m.host m.id spec requested label m.file).1 with
    | error error =>
      rw [Call.attempt, hgranted] at hattempt
      cases hattempt
    | ok plan =>
      obtain ⟨haction, -⟩ := withLockedLedger_ok hgranted
      obtain ⟨-, -, system, -, hplan⟩ := HostMemoryCoordinator.planJob_granted haction
      rw [planJobReservation, hzero] at hplan
      cases hplan
  · intro hsome
    refine ⟨fullMachine totalMb [], fullMachine_reads _ _, ?_⟩
    obtain ⟨n, hn⟩ : ∃ n, requested.toNat = n + 1 := ⟨requested.toNat - 1, by omega⟩
    have hreserve : (effectiveReserveMb 0 c.reserveMb).toNat = 0 := by
      rw [toNat_effectiveReserveMb]
      simp
    have hplan : planJobReservation requested (spec.perWorkerBudget totalMb) 0 c.reserveMb
        (effectiveReservedMb (MemoryLedger.ofFile []).reservations) =
          some (n + 1, Saturating.mul (spec.perWorkerBudget totalMb) (BitVec.ofNat 64 (n + 1))) := by
      rw [planJobReservation, hn, planFrom]
      exact if_pos (hreserve ▸ Nat.zero_le _)
    have hgranted : (c.planJob (fullMachine totalMb []).host 1 spec requested label
        (MemoryLedger.ofFile [])).1 = .ok ⟨n + 1, requested, ⟨1, false⟩,
          Saturating.mul (spec.perWorkerBudget totalMb) (BitVec.ofNat 64 (n + 1))⟩ := by
      unfold HostMemoryCoordinator.planJob
      simp only [fullMachine, hplan]
    exact attempt_plan_ok rfl hgranted

theorem grantable_iff_asks
    {error : HostMemoryError} (hrefused : Refused c call totalMb error) (hcapacity : error.IsCapacity) :
    Grantable c call totalMb ↔ AsksForSome call := by
  cases call with
  | plan spec requestedWorkers label => exact plan_grantable_iff
  | lease request =>
    obtain ⟨m, ⟨availableMb, hmemory, -⟩, hattempt⟩ := hrefused
    have herror := action_error_of_capacity hcapacity (map_unit_eq_error.mp hattempt)
    obtain ⟨hslots, -⟩ := acquire_refused hmemory hcapacity herror
    exact ⟨fun _ => trivial, fun _ => lease_grantable totalMb hslots⟩

def idleMachine (totalMb : MemoryMb) : Moment := ⟨⟨.ok fun _ => true, .ok ⟨totalMb, totalMb⟩, 0⟩, [], 1, 0⟩

theorem idleMachine_reads (totalMb : MemoryMb) : (idleMachine totalMb).Reads totalMb :=
  ⟨totalMb, rfl, le_refl _⟩

theorem waitLoop_single {error : HostMemoryError}
    (display : AttemptError → String) (hattempt : call.attempt c m = .error error)
    (hfinal : retryableError (.host error) = false) :
    waitLoop display "" .queued "" (attempts c call [m]) = some (.error (.host error)) := by
  simp only [attempts, List.map_cons, List.map_nil, hattempt, waitLoop]
  rw [afterFailedAttempt_final hfinal]

/-- A capacity refusal is final exactly when the call can never be granted, where fitting beside the whole
  reserve is asking for something. -/
theorem refusalExact_iff {c : HostMemoryCoordinator} {call : Call} {totalMb : MemoryMb}
    {error : HostMemoryError} (display : AttemptError → String)
    (hrefused : Refused c call totalMb error) (hcapacity : error.IsCapacity) :
    RefusalExact c call totalMb display error ↔ (Fits c call totalMb ↔ AsksForSome call) := by
  have hretryable := retryable_iff_fits hrefused hcapacity
  have hgrantable := grantable_iff_asks hrefused hcapacity
  constructor
  · intro hexact
    constructor
    · intro hfits
      exact hgrantable.mp (hexact.clears (hretryable.mpr hfits))
    · intro hasks
      by_contra hnofit
      have hfinal : retryableError (.host error) = false :=
        Bool.eq_false_iff.mpr fun hretry => hnofit (hretryable.mp hretry)
      obtain ⟨m, hreads, hattempt⟩ := hrefused
      refine hexact.final .queued "" "" [m] ?_ (waitLoop_single display hattempt hfinal) hfinal
        (hgrantable.mpr hasks)
      intro other hother
      exact List.mem_singleton.mp hother ▸ hreads
  · intro hfits
    constructor
    · intro wait label lastReason moments _ _ hfinal hgrant
      have hretry := hretryable.mpr (hfits.mpr (hgrantable.mp hgrant))
      rw [hfinal] at hretry
      cases hretry
    · intro hretry
      exact hgrantable.mpr (hfits.mp (hretryable.mp hretry))

def sharedLaptop : Moment :=
  ⟨⟨.ok fun _ => true, .ok ⟨16000, 16000⟩, 0⟩, [⟨7, .jobExecution, 2, none, 14000, false, "other", 0⟩], 8, 0⟩

def fourWorkers : Call := .plan ⟨some .stanza, 12000⟩ 4 "job"

def fourWorkersRefusal : HostMemoryError := .capacityRejected "job" 16000 14000 12000 8000 16000

theorem sharedLaptop_refuses : Refused ⟨1, 8000, 2⟩ fourWorkers 16000 fourWorkersRefusal :=
  ⟨sharedLaptop, ⟨16000, rfl, le_refl _⟩, by decide⟩

theorem fourWorkers_refusalExact_iff :
    RefusalExact ⟨1, 8000, 2⟩ fourWorkers 16000 (fun _ => "") fourWorkersRefusal ↔
      (Fits ⟨1, 8000, 2⟩ fourWorkers 16000 ↔ AsksForSome fourWorkers) :=
  refusalExact_iff (fun _ => "") sharedLaptop_refuses trivial

/-- The refusal ends the wait; once the other job is done all four workers are granted. -/
theorem four_workers_refused_for_good : Refused ⟨1, 8000, 2⟩ fourWorkers 16000 fourWorkersRefusal ∧
      fourWorkers.attempt ⟨1, 8000, 2⟩ (idleMachine 16000) = .ok () ∧
        ¬ RefusalExact ⟨1, 8000, 2⟩ fourWorkers 16000 (fun _ => "") fourWorkersRefusal := by
  have hgranted : fourWorkers.attempt ⟨1, 8000, 2⟩ (idleMachine 16000) = .ok () := by decide
  refine ⟨sharedLaptop_refuses, hgranted, ?_⟩
  intro hexact
  have hwait : waitLoop (fun _ => "") "job" (.bounded 60000 60000) ""
      (attempts ⟨1, 8000, 2⟩ fourWorkers [sharedLaptop]) = some (.error (.host fourWorkersRefusal)) := by
    decide
  refine hexact.final _ _ _ [sharedLaptop] ?_ hwait (by decide) ⟨idleMachine 16000, idleMachine_reads _, hgranted⟩
  intro m hm
  rw [List.mem_singleton.mp hm]
  exact ⟨16000, rfl, le_refl _⟩

end HostMemory
