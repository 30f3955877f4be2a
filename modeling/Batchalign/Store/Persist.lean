import Batchalign.Store.StaleRunner

/- Persisted status columns (`store/queries`). A store operation changes the job in the registry, reads
   the columns it now has, and writes them to the row (`db_persist_job_status`): three steps with no
   lock across them. -/

namespace Batchalign.Store

variable {X D : Type}

/-- The staged orchestrator's terminal status, with its error; `now` is read first. -/
def Job.updateJobStatus (job : Job X D) (status : JobStatus) (error : Option String)
    (now : MachineTime) : Job X D × Bool :=
  match job.setStatus status .finalize with
  | (_, false) => (job, false)
  | (job', true) =>
    ({ job' with
      execution := { job'.execution with error := error.or job'.execution.error }
      schedule := { job'.schedule with
        completedAt := if status.isTerminal then some now else job'.schedule.completedAt } },
      true)

inductive StoreOp where
  | cancel (now : MachineTime)
  | markJobRunning
  | requeueJobAfterMemoryGate (retryAt : MachineTime)
  | failJob (error : String) (failedAt : MachineTime)
  | finalizeJob (expectedGeneration : Nat) (finalStatus : JobStatus) (finishedAt : MachineTime)
  | updateJobStatus (status : JobStatus) (error : Option String) (now : MachineTime)
  | restart (policyAccepted : Bool)
  | recordJobWorkerCount (numWorkers : Nat)
  deriving DecidableEq

/-- The registry mutation, and whether the operation persists: some do when they did not act. -/
def StoreOp.mutate : StoreOp → Job X D → Job X D × Bool
  | cancel now, job => ((job.requestCancellation now).1, true)
  | markJobRunning, job => job.markRunning
  | requeueJobAfterMemoryGate retryAt, job => job.requeueAfterMemoryGate retryAt
  | failJob error failedAt, job => job.fail error failedAt
  | finalizeJob g finalStatus finishedAt, job =>
    if job.runtime.runGeneration ≠ g then (job, false)
    else ((job.finalize finalStatus finishedAt).1, true)
  | updateJobStatus status error now, job => job.updateJobStatus status error now
  | restart policyAccepted, job =>
    match job.prepareForRestart policyAccepted with
    | .ok job' => (job', true)
    | .error _ => (job, false)
  | recordJobWorkerCount n, job => (job.recordWorkerCount n, true)

theorem StoreOp.statusColumns_of_not_persists {op : StoreOp} {job : Job X D}
    (h : (op.mutate job).2 = false) : (op.mutate job).1.statusColumns = job.statusColumns := by
  cases op with
  | cancel now => cases h
  | recordJobWorkerCount n => cases h
  | markJobRunning =>
    simp only [mutate, Job.markRunning] at h ⊢
    split at h <;> simp_all
  | requeueJobAfterMemoryGate retryAt =>
    simp only [mutate, Job.requeueAfterMemoryGate] at h ⊢
    split at h <;> simp_all
  | failJob error failedAt =>
    simp only [mutate, Job.fail] at h ⊢
    split at h <;> simp_all
  | finalizeJob g finalStatus finishedAt =>
    simp only [mutate] at h ⊢
    split at h
    · next hg => rw [if_pos hg]
    · cases h
  | updateJobStatus status error now =>
    simp only [mutate, Job.updateJobStatus] at h ⊢
    split at h <;> simp_all
  | restart policyAccepted =>
    simp only [mutate] at h ⊢
    split at h
    · cases h
    · rfl

inductive OpPhase where
  | pending (op : StoreOp)
  | persisting
  | read (columns : JobStatusColumns)
  | finished

structure Shared (X D : Type) where
  job : Job X D
  stored : JobStatusColumns
  ops : List OpPhase

namespace Shared

def initial (job : Job X D) (ops : List StoreOp) : Shared X D :=
  ⟨job, job.statusColumns, ops.map OpPhase.pending⟩

/-- The next step of operation `i`; an operation that has finished stays as it is. -/
def step (s : Shared X D) (i : Nat) : Shared X D :=
  match s.ops[i]? with
  | some (.pending op) =>
    { s with
      job := (op.mutate s.job).1
      ops := s.ops.set i (if (op.mutate s.job).2 then .persisting else .finished) }
  | some .persisting => { s with ops := s.ops.set i (.read s.job.statusColumns) }
  | some (.read columns) => { s with stored := columns, ops := s.ops.set i .finished }
  | some .finished | none => s

def run : Shared X D → List Nat → Shared X D
  | s, [] => s
  | s, i :: schedule => (s.step i).run schedule

def AllFinished (s : Shared X D) : Prop := ∀ p ∈ s.ops, p = .finished

/-- Operation `j` will write the columns the registry now has: still to read, or read. -/
def Carries (s : Shared X D) (j : Nat) : Prop :=
  s.ops[j]? = some .persisting ∨ s.ops[j]? = some (.read s.job.statusColumns)

/-- If the next step writes columns the registry has left, another operation has the present ones. -/
def Covered (s : Shared X D) (i : Nat) : Prop :=
  ∀ columns, s.ops[i]? = some (.read columns) →
    columns = s.job.statusColumns ∨ ∃ j, j ≠ i ∧ s.Carries j

def RunCovered : Shared X D → List Nat → Prop
  | _, [] => True
  | s, i :: schedule => s.Covered i ∧ (s.step i).RunCovered schedule

def Owed (s : Shared X D) : Prop :=
  s.stored = s.job.statusColumns ∨ ∃ j, s.Carries j

variable {i : Nat} {s : Shared X D}

theorem getElem?_set_self {l : List OpPhase} {p q : OpPhase} (h : l[i]? = some p) :
    (l.set i q)[i]? = some q := by
  obtain ⟨hi, _⟩ := List.getElem?_eq_some_iff.mp h
  simp [hi]

theorem Carries.set_of_ne {j : Nat} (h : s.Carries j) (hne : j ≠ i)
    (p : OpPhase) (job : Job X D) (stored : JobStatusColumns)
    (hjob : job.statusColumns = s.job.statusColumns) : Carries ⟨job, stored, s.ops.set i p⟩ j := by
  unfold Carries at h ⊢
  rw [List.getElem?_set_ne (Ne.symm hne), hjob]
  exact h

theorem Owed.step (h : s.Owed) (hcov : s.Covered i) : (s.step i).Owed := by
  unfold Shared.step
  split
  · next op hop =>
    cases hp : (op.mutate s.job).2
    · -- nothing changed and nothing is owed for it
      have hcols := StoreOp.statusColumns_of_not_persists hp
      obtain hstored | ⟨j, hj⟩ := h
      · left
        exact hstored.trans hcols.symm
      · right
        refine ⟨j, hj.set_of_ne ?_ _ _ _ hcols⟩
        intro hji
        subst hji
        simp [Carries, hop] at hj
    · right
      refine ⟨i, Or.inl ?_⟩
      exact getElem?_set_self hop
  · next hop =>
    right
    exact ⟨i, Or.inr (getElem?_set_self hop)⟩
  · next columns hop =>
    obtain hfresh | ⟨j, hne, hj⟩ := hcov columns hop
    · left
      exact hfresh
    · right
      exact ⟨j, hj.set_of_ne hne _ _ _ rfl⟩
  · exact h
  · exact h

theorem Owed.run (h : s.Owed) {schedule : List Nat}
    (hcov : s.RunCovered schedule) : (s.run schedule).Owed := by
  induction schedule generalizing s with
  | nil => exact h
  | cons i schedule ih => exact ih (h.step hcov.1) hcov.2

theorem Owed.stored_eq (h : s.Owed) (hfin : s.AllFinished) : s.stored = s.job.statusColumns := by
  obtain hstored | ⟨j, hj⟩ := h
  · exact hstored
  · -- an operation that has finished carries nothing
    obtain hj | hj := hj
    · cases hfin _ (List.mem_of_getElem? hj)
    · cases hfin _ (List.mem_of_getElem? hj)

/-- Every operation has changed the registry, the row differs, and nobody carries its columns. -/
structure Lost (s : Shared X D) : Prop where
  none_pending : ∀ op, OpPhase.pending op ∉ s.ops
  differs : s.stored ≠ s.job.statusColumns
  none_carries : ∀ j, ¬ s.Carries j

theorem Lost.step (h : s.Lost) (i : Nat) : (s.step i).Lost := by
  unfold Shared.step
  split
  · next op hop => exact absurd (List.mem_of_getElem? hop) (h.none_pending op)
  · next hop => exact absurd (Or.inl hop) (h.none_carries i)
  · next columns hop =>
    have hstale : columns ≠ s.job.statusColumns := by
      intro heq
      rw [heq] at hop
      exact h.none_carries i (Or.inr hop)
    refine ⟨?_, hstale, ?_⟩
    · intro op hop'
      obtain hmem | heq := List.mem_or_eq_of_mem_set hop'
      · exact h.none_pending op hmem
      · cases heq
    · intro j hj
      by_cases hji : j = i
      · subst hji
        simp [Carries, getElem?_set_self hop] at hj
      · apply h.none_carries j
        simpa [Carries, List.getElem?_set_ne (Ne.symm hji)] using hj
  · exact h
  · exact h

theorem Lost.run (h : s.Lost) (schedule : List Nat) : (s.run schedule).Lost := by
  induction schedule generalizing s with
  | nil => exact h
  | cons i schedule ih => exact ih (h.step i)

theorem lost_of_not_covered (hpending : ∀ op, OpPhase.pending op ∉ s.ops) (hcov : ¬ s.Covered i) : (s.step i).Lost := by
  unfold Covered at hcov
  push Not at hcov
  obtain ⟨columns, hop, hstale, hnone⟩ := hcov
  unfold Shared.step
  rw [hop]
  refine ⟨?_, hstale, ?_⟩
  · intro op hop'
    obtain hmem | heq := List.mem_or_eq_of_mem_set hop'
    · exact hpending op hmem
    · cases heq
  · intro j hj
    by_cases hji : j = i
    · subst hji
      simp [Carries, getElem?_set_self hop] at hj
    · apply hnone j hji
      simpa [Carries, List.getElem?_set_ne (Ne.symm hji)] using hj

end Shared

/-- Every interleaving whose steps are all covered leaves the row equal to the registry; an uncovered step,
  after all have changed the registry, leaves it different whatever comes. -/
theorem persisted_columns_agree (job : Job X D) (ops : List StoreOp) :
    (∀ schedule, (Shared.initial job ops).RunCovered schedule →
      ((Shared.initial job ops).run schedule).AllFinished →
      ((Shared.initial job ops).run schedule).stored =
        ((Shared.initial job ops).run schedule).job.statusColumns) ∧
    (∀ (s : Shared X D) (i : Nat) (schedule : List Nat),
      (∀ op, OpPhase.pending op ∉ s.ops) → ¬ s.Covered i →
      ((s.step i).run schedule).stored ≠ ((s.step i).run schedule).job.statusColumns) := by
  constructor
  · intro schedule hcov hfin
    have howed : (Shared.initial job ops).Owed := Or.inl rfl
    exact (howed.run hcov).stored_eq hfin
  · intro s i schedule hpending hcov
    exact ((Shared.lost_of_not_covered hpending hcov).run schedule).differs

/-- A runner's `mark_job_running` to its end, then a cancel to its end. -/
theorem persisted_columns_agree_one_after_another :
    let s := Shared.initial submittedOneFile.job [.markJobRunning, .cancel 10]
    (s.run [0, 0, 0, 1, 1, 1]).stored = (s.run [0, 0, 0, 1, 1, 1]).job.statusColumns := by
  apply (persisted_columns_agree submittedOneFile.job [.markJobRunning, .cancel 10]).1
    [0, 0, 0, 1, 1, 1]
  · refine ⟨?_, ?_, ?_, ?_, ?_, ?_, trivial⟩
    all_goals intro columns h
    all_goals cases h
    all_goals exact Or.inl rfl
  · intro p hp
    have hops : p ∈ [OpPhase.finished, OpPhase.finished] := hp
    simpa using hops

/-- A cancel runs to its end between the runner's read and write: the row says running. -/
theorem cancelled_job_stored_running :
    let s := Shared.initial submittedOneFile.job [.markJobRunning, .cancel 10]
    let final := s.run [0, 0, 1, 1, 1, 0]
    final.AllFinished ∧ final.job.statusColumns.status = .cancelled ∧
      final.stored.status = .running ∧ final.stored ≠ final.job.statusColumns := by
  refine ⟨?_, rfl, rfl, ?_⟩
  · intro p hp
    have hops : p ∈ [OpPhase.finished, OpPhase.finished] := hp
    simpa using hops
  · intro h
    have hs := congrArg JobStatusColumns.status h
    cases hs

end Batchalign.Store
