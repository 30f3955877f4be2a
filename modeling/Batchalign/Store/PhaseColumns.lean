import Batchalign.Store.Crash

/- A file's phase and its columns (`store/mod.rs`). A phase is written to a row as the columns it owns
   and read back from them (`FilePhase::from_row`, here `FilePhaseColumns.phase` and `.report`); a row
   may hold any columns. -/

namespace Batchalign.Store

variable {X D : Type}

namespace FilePhaseColumns

def report (row : FilePhaseColumns X D) : Option String :=
  let dropped := row.notKeptBy row.phase.columns
  if dropped.isEmpty then none
  else some ("the " ++ row.status.label ++ " row held " ++ ", ".intercalate dropped ++ ", which "
    ++ (if dropped.length = 1 then "was" else "were") ++ " not kept")

def Lost {α : Type} (held kept : Option α) : Prop := held ≠ none ∧ kept ≠ held

def Omitted (held kept : FilePhaseColumns X D) : Prop :=
  Lost held.error kept.error ∨ Lost held.errorCategory kept.errorCategory ∨
    Lost held.diagnostics kept.diagnostics ∨ Lost held.exclusions kept.exclusions ∨
    Lost held.startedAt kept.startedAt ∨ Lost held.finishedAt kept.finishedAt ∨
    Lost held.nextEligibleAt kept.nextEligibleAt

def Keeps {α : Type} (held kept : Option α) : Prop := kept = held ∨ kept = none

theorem lost_iff {α : Type} {held kept : Option α} (h : Keeps held kept) :
    Lost held kept ↔ (held.isSome && kept.isNone) = true := by
  obtain rfl | rfl := h
  · cases kept <;> simp [Lost]
  · cases held <;> simp [Lost]

/-- A phase's columns are its row's, each as it was or NULL, and of a failure both or neither. -/
structure KeptIn (held kept : FilePhaseColumns X D) : Prop where
  failure : (kept.error = held.error ∧ kept.errorCategory = held.errorCategory) ∨
    (kept.error = none ∧ kept.errorCategory = none)
  diagnostics : Keeps held.diagnostics kept.diagnostics
  exclusions : Keeps held.exclusions kept.exclusions
  startedAt : Keeps held.startedAt kept.startedAt
  finishedAt : Keeps held.finishedAt kept.finishedAt
  nextEligibleAt : Keeps held.nextEligibleAt kept.nextEligibleAt

theorem notKeptBy_eq_nil_iff (held kept : FilePhaseColumns X D) : held.notKeptBy kept = [] ↔
      (held.startedAt.isSome && kept.startedAt.isNone) = false ∧
      (held.finishedAt.isSome && kept.finishedAt.isNone) = false ∧
      (held.nextEligibleAt.isSome && kept.nextEligibleAt.isNone) = false ∧
      ((held.error.isSome || held.errorCategory.isSome) &&
        !(kept.error.isSome || kept.errorCategory.isSome)) = false ∧
      (held.diagnostics.isSome && kept.diagnostics.isNone) = false ∧
      (held.exclusions.isSome && kept.exclusions.isNone) = false := by
  unfold notKeptBy
  simp

theorem omitted_iff {held kept : FilePhaseColumns X D} (h : KeptIn held kept) :
    held.Omitted kept ↔ held.notKeptBy kept ≠ [] := by
  have hfailure : Lost held.error kept.error ∨ Lost held.errorCategory kept.errorCategory ↔
      ((held.error.isSome || held.errorCategory.isSome) &&
        !(kept.error.isSome || kept.errorCategory.isSome)) = true := by
    obtain ⟨herror, hcategory⟩ | ⟨herror, hcategory⟩ := h.failure
    · -- nothing is lost, and what was held is kept
      rw [herror, hcategory]
      cases held.error <;> cases held.errorCategory <;> simp [Lost]
    · rw [herror, hcategory]
      cases held.error <;> cases held.errorCategory <;> simp [Lost]
  rw [Ne, notKeptBy_eq_nil_iff, Omitted, ← or_assoc, hfailure, lost_iff h.diagnostics,
    lost_iff h.exclusions, lost_iff h.startedAt, lost_iff h.finishedAt,
    lost_iff h.nextEligibleAt]
  simp only [← Bool.not_eq_true]
  tauto

theorem report_isSome_iff (row : FilePhaseColumns X D) :
    row.report.isSome = true ↔ row.notKeptBy row.phase.columns ≠ [] := by
  unfold report
  cases h : row.notKeptBy row.phase.columns <;> simp

end FilePhaseColumns

namespace FilePhase

open FilePhaseColumns

theorem failure_fromColumns (message : Option String) (category : Option FailureCategory) :
    (FileFailure.fromColumns message category).bind FileFailure.message = message ∧
      (FileFailure.fromColumns message category).bind FileFailure.category = category := by
  cases message <;> cases category <;> exact ⟨rfl, rfl⟩

theorem failure_ofFailedRow (message : Option String) (category : Option FailureCategory) :
    (FileFailure.ofFailedRow message category).message = message ∧
      (FileFailure.ofFailedRow message category).category = category := by
  cases message <;> cases category <;> exact ⟨rfl, rfl⟩

theorem keeps_exclusions (exclusions : Option (List X)) : Keeps exclusions
      ((some (exclusions.getD [])).filter (fun exclusions => !exclusions.isEmpty)) := by
  cases exclusions with
  | none => exact .inr rfl
  | some records =>
    cases records with
    | nil => exact .inr rfl
    | cons record records => exact .inl rfl

theorem keptIn_columns (row : FilePhaseColumns X D) : row.KeptIn row.phase.columns := by
  obtain ⟨hmessage, hcategory⟩ := failure_ofFailedRow row.error row.errorCategory
  cases hstatus : row.status with
  | queued =>
    have hphase : row.phase = .queued := by simp [FilePhaseColumns.phase, hstatus]
    rw [hphase]
    exact ⟨.inr ⟨rfl, rfl⟩, .inr rfl, .inr rfl, .inr rfl, .inr rfl, .inr rfl⟩
  | processing =>
    cases hdeadline : row.nextEligibleAt with
    | none =>
      have hphase : row.phase = .processing row.startedAt := by
        simp [FilePhaseColumns.phase, hstatus, hdeadline]
      rw [hphase]
      exact ⟨.inr ⟨rfl, rfl⟩, .inr rfl, .inr rfl, .inl rfl, .inr rfl, .inr rfl⟩
    | some retryAt =>
      have hphase : row.phase = .retryPending row.startedAt row.finishedAt retryAt
          (.ofFailedRow row.error row.errorCategory) := by
        simp [FilePhaseColumns.phase, hstatus, hdeadline]
      rw [hphase]
      exact ⟨.inl ⟨hmessage, hcategory⟩, .inr rfl, .inr rfl, .inl rfl, .inl rfl,
        .inl hdeadline.symm⟩
  | done =>
    have hphase : row.phase = .done row.startedAt row.finishedAt (row.exclusions.getD []) := by
      simp [FilePhaseColumns.phase, hstatus]
    rw [hphase]
    exact ⟨.inr ⟨rfl, rfl⟩, .inr rfl, keeps_exclusions _, .inl rfl, .inl rfl, .inr rfl⟩
  | diagnosed =>
    have hphase : row.phase = .diagnosed row.startedAt row.finishedAt row.diagnostics
        (row.exclusions.getD []) := by
      simp [FilePhaseColumns.phase, hstatus]
    rw [hphase]
    exact ⟨.inr ⟨rfl, rfl⟩, .inl rfl, keeps_exclusions _, .inl rfl, .inl rfl, .inr rfl⟩
  | error =>
    have hphase : row.phase = .error row.startedAt row.finishedAt
        (.ofFailedRow row.error row.errorCategory) := by
      simp [FilePhaseColumns.phase, hstatus]
    rw [hphase]
    exact ⟨.inl ⟨hmessage, hcategory⟩, .inr rfl, .inr rfl, .inl rfl, .inl rfl, .inr rfl⟩
  | interrupted =>
    have hphase : row.phase = .interrupted row.startedAt
        (FileFailure.fromColumns row.error row.errorCategory) := by
      simp [FilePhaseColumns.phase, hstatus]
    rw [hphase]
    exact ⟨.inl (failure_fromColumns _ _), .inr rfl, .inr rfl, .inl rfl, .inr rfl, .inr rfl⟩

def RoundTrips (phase : FilePhase X D) : Prop :=
  phase.columns.phase = phase ∧ phase.columns.report = none

theorem roundTrips_iff (phase : FilePhase X D) : phase.RoundTrips ↔ phase.Storable := by
  constructor
  · intro ⟨hphase, _⟩
    rw [← hphase]
    exact storable_phase _
  · intro h
    refine ⟨phase_columns h, ?_⟩
    unfold FilePhaseColumns.report
    rw [phase_columns h, notKeptBy_self]
    rfl

end FilePhase

inductive PhaseEvent (X D : Type) where
  | operation (op : FileOp X D)
  | requeue
  | fromRow (row : FilePhaseColumns X D)
  | interrupted

namespace FilePhase

def step (phase : FilePhase X D) : PhaseEvent X D → Option (FilePhase X D)
  | .operation op => some (op.newPhase phase)
  | .requeue => some .queued
  | .fromRow row => some row.phase
  | .interrupted => some phase.interruption

def NamesFailure (phase : FilePhase X D) : PhaseEvent X D → Prop
  | .interrupted => ∀ startedAt failedAt retryAt,
      phase ≠ .retryPending startedAt failedAt retryAt .unrecorded
  | _ => True

theorem storable_interruption_iff {phase : FilePhase X D} (h : phase.Storable) :
    phase.interruption.Storable ↔ phase.NamesFailure .interrupted := by
  cases phase with
  | retryPending startedAt failedAt retryAt failure =>
    cases failure with
    | unrecorded => exact ⟨fun hstored => absurd hstored id, fun hnames => hnames _ _ _ rfl⟩
    | _ => exact ⟨fun _ _ _ _ => by simp, fun _ => trivial⟩
  | interrupted startedAt lastFailure => exact ⟨fun _ _ _ _ => by simp, fun _ => h⟩
  | _ => exact ⟨fun _ _ _ _ => by simp, fun _ => trivial⟩

theorem roundTrips_step_iff {phase phase' : FilePhase X D} {event : PhaseEvent X D}
    (h : phase.RoundTrips) (hstep : phase.step event = some phase') :
    phase'.RoundTrips ↔ phase.NamesFailure event := by
  rw [roundTrips_iff] at h ⊢
  cases event with
  | operation op =>
    cases hstep
    exact ⟨fun _ => trivial, fun _ => op.storable_newPhase h⟩
  | requeue =>
    cases hstep
    exact ⟨fun _ => trivial, fun _ => trivial⟩
  | fromRow row =>
    cases hstep
    exact ⟨fun _ => trivial, fun _ => storable_phase row⟩
  | interrupted =>
    cases hstep
    exact storable_interruption_iff h

end FilePhase

/-- From a queued file every phase reached is read back as it was exactly when each interrupted retry
  was of a failure that named something. What any row is read as is reported exactly when a value is
  lost. -/
theorem roundTrips_always_iff : (∀ events : List (PhaseEvent X D),
      Runs.Always FilePhase.step FilePhase.RoundTrips FilePhase.queued events ↔
        Runs.Along FilePhase.step FilePhase.NamesFailure FilePhase.queued events) ∧
    ∀ row : FilePhaseColumns X D, row.phase.RoundTrips ∧
      (row.report.isSome = true ↔ row.Omitted row.phase.columns) := by
  refine ⟨fun events => ?_, fun row => ⟨?_, ?_⟩⟩
  · refine Runs.always_iff_along (fun phase event phase' h hstep => ?_) ?_ events
    · exact FilePhase.roundTrips_step_iff h hstep
    · exact (FilePhase.roundTrips_iff _).mpr trivial
  · exact (FilePhase.roundTrips_iff _).mpr (FilePhase.storable_phase row)
  · rw [FilePhaseColumns.omitted_iff (FilePhase.keptIn_columns row)]
    exact FilePhaseColumns.report_isSome_iff row

def unrecordedRetry : FilePhaseColumns Unit Unit where
  status := .processing
  error := none
  errorCategory := none
  diagnostics := none
  exclusions := none
  startedAt := some 1
  finishedAt := some 2
  nextEligibleAt := some 3

/-- An interrupted retry: its failure is read back as none. -/
theorem interrupted_unrecorded_retry :
    ¬ Runs.Always FilePhase.step FilePhase.RoundTrips FilePhase.queued
      [.fromRow unrecordedRetry, .interrupted] := by
  intro h
  obtain ⟨-, h⟩ := h
  obtain ⟨-, h⟩ := h _ rfl
  have hend := h _ rfl
  rw [Runs.Always, FilePhase.roundTrips_iff] at hend
  exact hend

end Batchalign.Store
