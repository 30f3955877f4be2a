import Batchalign.Store.StaleRunner

/- Startup recovery (`db/recovery.rs`, `store/queries/recovery.rs`, `store/mod.rs`). The server marks
   every queued or running row interrupted, then loads the rows this build wrote (`JobRow.load`): the
   files left to do are queued again, and a job with none left gets its verdict (`Job.conclude`, the
   tail of `run_hosted_job`). What the command's tables say of a stored job is a `StoredCommand`. -/

namespace Batchalign.Store
open List

variable {X D : Type}

def FileFailure.category : FileFailure → Option FailureCategory
  | recorded _ category | categoryOnly category => some category
  | messageOnly _ | unrecorded => none

def FileFailure.ofFailedRow : Option String → Option FailureCategory → FileFailure
  | some message, some category => .recorded message category
  | some message, none => .messageOnly message
  | none, some category => .categoryOnly category
  | none, none => .unrecorded

def FileFailure.fromColumns : Option String → Option FailureCategory → Option FileFailure
  | none, none => none
  | message, category => some (ofFailedRow message category)

@[simp] theorem FileFailure.ofFailedRow_columns (f : FileFailure) :
    ofFailedRow f.message f.category = f := by
  cases f <;> rfl

structure FilePhaseColumns (X D : Type) where
  status : FileStatusKind
  error : Option String
  errorCategory : Option FailureCategory
  diagnostics : Option D
  exclusions : Option (List X)
  startedAt : Option MachineTime
  finishedAt : Option MachineTime
  nextEligibleAt : Option MachineTime

namespace FilePhase

def failure : FilePhase X D → Option FileFailure
  | retryPending _ _ _ failure | error _ _ failure => some failure
  | interrupted _ lastFailure => lastFailure
  | queued | processing _ | done .. | diagnosed .. => none

def diagnostics : FilePhase X D → Option D
  | diagnosed _ _ diagnostics _ => diagnostics
  | _ => none

def exclusions : FilePhase X D → List X
  | done _ _ exclusions | diagnosed _ _ _ exclusions => exclusions
  | _ => []

def interruption : FilePhase X D → FilePhase X D
  | queued => .interrupted none none
  | processing startedAt => .interrupted startedAt none
  | retryPending startedAt _ _ failure => .interrupted startedAt (some failure)
  | unchanged => unchanged

def columns (phase : FilePhase X D) : FilePhaseColumns X D :=
  let noColumns : FilePhaseColumns X D := {
    status := phase.kind
    error := phase.failure.bind FileFailure.message
    errorCategory := phase.failure.bind FileFailure.category
    diagnostics := phase.diagnostics
    exclusions := (some phase.exclusions).filter (fun exclusions => !exclusions.isEmpty)
    startedAt := none
    finishedAt := none
    nextEligibleAt := none }
  match phase with
  | queued => noColumns
  | processing startedAt => { noColumns with startedAt := startedAt }
  -- the failed attempt's end is not a finish time: the deadline beside it says so
  | retryPending startedAt failedAt retryAt _ =>
    { noColumns with
      startedAt := startedAt, finishedAt := failedAt, nextEligibleAt := some retryAt }
  | done startedAt finishedAt _ | diagnosed startedAt finishedAt _ _
  | error startedAt finishedAt _ =>
    { noColumns with startedAt := startedAt, finishedAt := finishedAt }
  | interrupted startedAt _ => { noColumns with startedAt := startedAt }

end FilePhase

namespace FilePhaseColumns

def notKeptBy (held kept : FilePhaseColumns X D) : List String :=
  let keptFailure := kept.error.isSome || kept.errorCategory.isSome
  let heldFailure := held.error.isSome || held.errorCategory.isSome
  [(held.startedAt.isSome && kept.startedAt.isNone, "started_at"),
    (held.finishedAt.isSome && kept.finishedAt.isNone, "finished_at"),
    (held.nextEligibleAt.isSome && kept.nextEligibleAt.isNone, "next_eligible_at"),
    (heldFailure && !keptFailure, "an error"),
    (held.diagnostics.isSome && kept.diagnostics.isNone, "diagnostics"),
    (held.exclusions.isSome && kept.exclusions.isNone, "exclusions")].filterMap
      (fun c => if c.1 then some c.2 else none)

/-- The phase a row describes. A `processing` row with a deadline is a pending retry. -/
def phase (row : FilePhaseColumns X D) : FilePhase X D :=
  match row.status, row.nextEligibleAt with
  | .processing, some retryAt =>
    .retryPending row.startedAt row.finishedAt retryAt
      (FileFailure.ofFailedRow row.error row.errorCategory)
  | .processing, none => .processing row.startedAt
  | .error, _ =>
    .error row.startedAt row.finishedAt (FileFailure.ofFailedRow row.error row.errorCategory)
  | .interrupted, _ =>
    .interrupted row.startedAt (FileFailure.fromColumns row.error row.errorCategory)
  | .done, _ => .done row.startedAt row.finishedAt (row.exclusions.getD [])
  | .diagnosed, _ =>
    .diagnosed row.startedAt row.finishedAt row.diagnostics (row.exclusions.getD [])
  | .queued, _ => .queued

def fromRow (row : FilePhaseColumns X D) : FilePhase X D × List String :=
  (row.phase, row.notKeptBy row.phase.columns)

@[simp] theorem kind_phase (row : FilePhaseColumns X D) : row.phase.kind = row.status := by
  unfold phase
  split <;> simp_all [FilePhase.kind]

end FilePhaseColumns

variable (phase : FilePhase X D)

namespace FilePhase

@[simp] theorem status_columns : phase.columns.status = phase.kind := by
  cases phase <;> rfl

/-- Whether the columns say all of a phase: no interruption after a nameless failure. -/
def Storable : FilePhase X D → Prop
  | interrupted _ (some .unrecorded) => False
  | _ => True

theorem getD_exclusions (exclusions : List X) :
    ((some exclusions).filter (fun exclusions => !exclusions.isEmpty)).getD [] = exclusions := by
  cases exclusions <;> rfl

theorem phase_columns {phase : FilePhase X D} (h : phase.Storable) : phase.columns.phase = phase := by
  cases phase with
  | interrupted startedAt lastFailure =>
    cases lastFailure with
    | none => rfl
    | some failure =>
      cases failure with
      | unrecorded => exact absurd h id
      | _ => rfl
  | retryPending startedAt failedAt retryAt failure =>
    simp [columns, FilePhaseColumns.phase, kind, FilePhase.failure]
  | error startedAt finishedAt failure =>
    simp [columns, FilePhaseColumns.phase, kind, FilePhase.failure]
  | done startedAt finishedAt exclusions =>
    simp only [columns, FilePhaseColumns.phase, kind, FilePhase.exclusions, getD_exclusions]
  | diagnosed startedAt finishedAt diagnostics exclusions =>
    simp only [columns, FilePhaseColumns.phase, kind, FilePhase.exclusions,
      FilePhase.diagnostics, getD_exclusions]
  | queued => rfl
  | processing startedAt => rfl

theorem columns_phase_columns : phase.columns.phase.columns = phase.columns := by
  cases phase with
  | interrupted startedAt lastFailure =>
    cases lastFailure with
    | none => rfl
    | some failure => cases failure <;> rfl
  | _ => exact congrArg columns (phase_columns trivial)

theorem notKeptBy_self (row : FilePhaseColumns X D) : row.notKeptBy row = [] := by
  unfold FilePhaseColumns.notKeptBy
  cases row.startedAt <;> cases row.finishedAt <;> cases row.nextEligibleAt <;>
    cases row.error <;> cases row.errorCategory <;> cases row.diagnostics <;>
    cases row.exclusions <;> rfl

theorem storable_phase (row : FilePhaseColumns X D) : row.phase.Storable := by
  unfold FilePhaseColumns.phase
  split <;> try trivial
  -- only a row with a message or a category is read as a failure
  cases row.error <;> cases row.errorCategory <;> trivial

@[simp] theorem isTerminal_interruption : phase.interruption.kind.isTerminal = phase.kind.isTerminal := by
  cases phase <;> rfl

end FilePhase

structure FileStatusRow (X D : Type) where
  filename : String
  columns : FilePhaseColumns X D

def FileStatusRow.file (row : FileStatusRow X D) : FileStatus X D :=
  ⟨row.filename, row.columns.phase⟩

structure JobRow (X D : Type) where
  submittedAt : MachineTime
  columns : JobStatusColumns
  files : List (FileStatusRow X D)
  nodup : (files.map FileStatusRow.filename).Nodup

structure StoredCommand where
  /-- Whether this build has the command. -/
  known : Bool
  /-- Why the output policy refuses the job's options, if it does. -/
  refusal : Option String
  /-- The primary artifact of an input, if the command plans one for it. -/
  artifact : String → Option (String × ContentType)

def appendRecoveryNote (existing : Option String) (note : String) : Option String :=
  match existing with
  | none => some ("[recovery] " ++ note)
  | some existing =>
    if existing.toList.all Char.isWhitespace then some ("[recovery] " ++ note)
    else some (existing ++ "\n[recovery] " ++ note)

namespace JobRow

def mapColumns (row : JobRow X D) (f : FileStatusRow X D → FilePhaseColumns X D) : JobRow X D :=
  { row with
    files := row.files.map (fun r => { r with columns := f r })
    nodup := by simpa [map_map, Function.comp_def] using row.nodup }

/-- `write_file_phase_on`: one file's row written whole from a phase. -/
def updateFileStatus (row : JobRow X D) (filename : String) (phase : FilePhase X D) : JobRow X D :=
  row.mapColumns (fun r => if r.filename = filename then phase.columns else r.columns)

def recoverInterrupted (row : JobRow X D) (now : MachineTime) : JobRow X D :=
  if row.columns.status.isActive then
    { row.mapColumns (fun r =>
        let phase := r.columns.phase
        if phase.kind.isTerminal || phase.kind == .interrupted then r.columns
        else phase.interruption.columns) with
      columns := row.columns.stopped .interrupted now }
  else row

def fileStatuses (row : JobRow X D) : FileStatuses X D where
  values := row.files.map FileStatusRow.file
  nodup := by simpa [map_map, Function.comp_def, FileStatusRow.file] using row.nodup

/-- A terminal file's result: one that wrote output names its artifact, an error its input. -/
def resultEntry (command : StoredCommand) (file : FileStatus X D) : Option FileResultEntry :=
  (command.artifact file.filename).map (fun artifact =>
    { filename := if file.status.wroteOutput then artifact.1 else file.filename
      contentType := artifact.2
      error := file.phase.failure.bind FileFailure.message })

end JobRow

inductive RecoveryDisposition where
  | requeued
  | failed
  | completed
  deriving DecidableEq

namespace FileStatusKind

def isResumable : FileStatusKind → Bool
  | interrupted | processing | queued => true
  | done | diagnosed | error => false

theorem isResumable_eq (kind : FileStatusKind) : kind.isResumable = !kind.isTerminal := by
  cases kind <;> rfl

end FileStatusKind

def Job.reconcileRecoveredRuntimeState (job : Job X D) : Job X D × RecoveryDisposition :=
  if job.execution.fileStatuses.values.any (fun f => f.status.isResumable) then
    let files := job.execution.fileStatuses.mapValues (fun f =>
      if f.status.isResumable then f.requeue.phase else f.phase)
    ({ job with
      execution := { job.execution with
        status := (job.setStatus .queued .reconcile).1.execution.status
        fileStatuses := files
        error := none }
      schedule := { job.schedule with completedAt := none, nextEligibleAt := none } },
      .requeued)
  else
    let allErrored := job.execution.fileStatuses.values.all (fun f => f.status == .error)
    let reconciled := (job.setStatus (if allErrored then .failed else .completed) .reconcile).1
    let reconciled := if allErrored then reconciled.setFailureReasonFromFiles else reconciled
    ({ reconciled with
      execution := { reconciled.execution with
        completedFiles := (reconciled.execution.fileStatuses.values.length : Nat) }
      schedule := { reconciled.schedule with nextEligibleAt := none } },
      if allErrored then .failed else .completed)

namespace JobRow

def job (row : JobRow X D) (command : StoredCommand) : Job X D where
  execution := {
    status := if command.refusal.isSome then .failed else row.columns.status
    fileStatuses := row.fileStatuses
    results :=
      if command.refusal.isSome then []
      else (row.fileStatuses.values.filter (fun f => f.status.isTerminal)).filterMap
        (resultEntry command)
    error := command.refusal.elim row.columns.error (fun refusal =>
      appendRecoveryNote row.columns.error
        ("Stored command/options are inconsistent: " ++ refusal ++
          ". Original records are unchanged; restart is refused until the mismatch is resolved."))
    completedFiles := row.fileStatuses.countWhere FileStatusKind.isTerminal }
  schedule := {
    completedAt := row.columns.completedAt
    nextEligibleAt := row.columns.nextEligibleAt
    numWorkers := row.columns.numWorkers }
  runtime := { cancelled := false, runnerActive := false, runGeneration := 0 }

/-- Whether a row is loaded: retained, of a known command, an artifact for every terminal file if admitted. -/
def Loadable (row : JobRow X D) (command : StoredCommand) (ttlCutoff : MachineTime) : Prop :=
  ttlCutoff ≤ row.submittedAt ∧ command.known = true ∧
    (command.refusal = none → ∀ f ∈ row.fileStatuses.values, f.status.isTerminal = true →
      command.artifact f.filename ≠ none)

instance (row : JobRow X D) (command : StoredCommand) (ttlCutoff : MachineTime) :
    Decidable (row.Loadable command ttlCutoff) :=
  inferInstanceAs (Decidable (_ ∧ _ ∧ (_ → ∀ f ∈ _, _ → _)))

/-- The row after the load's own writes: repaired file columns, a reconciled status, requeued files. -/
def reconciled (row : JobRow X D) (command : StoredCommand) : Job X D × JobRow X D :=
  let job := row.job command
  let repaired :=
    if command.refusal.isSome then row
    else row.mapColumns (fun r =>
      if r.columns.fromRow.2.isEmpty then r.columns else r.columns.phase.columns)
  if job.execution.status.isRecoverable then
    let recovered := job.reconcileRecoveredRuntimeState
    let requeued := repaired.mapColumns (fun r =>
      if recovered.2 = .requeued ∧ r.columns.phase.kind.isResumable = true then
        FilePhase.queued.columns
      else r.columns)
    (recovered.1, { requeued with columns := recovered.1.statusColumns })
  else (job, repaired)

theorem reconciled_job (row : JobRow X D) (command : StoredCommand) : (row.reconciled command).1 =
      if (row.job command).execution.status.isRecoverable then
        (row.job command).reconcileRecoveredRuntimeState.1 else row.job command := by
  cases hrec : (row.job command).execution.status.isRecoverable <;> simp [reconciled, hrec]

/-- `load_from_db`, for one job: the job in the registry, and its row after the load. -/
def load (row : JobRow X D) (command : StoredCommand) (ttlCutoff : MachineTime) :
    Option (Job X D × JobRow X D) :=
  if row.Loadable command ttlCutoff then some (row.reconciled command) else none

def startup (row : JobRow X D) (command : StoredCommand) (ttlCutoff now : MachineTime) :
    Option (Job X D × JobRow X D) :=
  (row.recoverInterrupted now).load command ttlCutoff

end JobRow

namespace FileStatuses

theorem mapValues_values (m : FileStatuses X D) (f : FileStatus X D → FilePhase X D) :
    (m.mapValues f).values = m.values.map (fun s => { s with phase := f s }) := rfl

theorem unfinished_mapValues {m : FileStatuses X D} {f : FileStatus X D → FilePhase X D}
    (h : ∀ s ∈ m.values, (f s).kind.isTerminal = s.status.isTerminal) :
    ((m.mapValues f).values.filter (fun s => !s.status.isTerminal)).map FileStatus.filename =
      (m.values.filter (fun s => !s.status.isTerminal)).map FileStatus.filename := by
  rw [mapValues_values]
  generalize m.values = files at h ⊢
  induction files with
  | nil => rfl
  | cons s files ih =>
    have hs : (FileStatus.status { s with phase := f s }).isTerminal = s.status.isTerminal :=
      h s mem_cons_self
    have hrest := ih (fun x hx => h x (mem_cons_of_mem s hx))
    simp only [map_cons, filter_cons, hs]
    cases s.status.isTerminal <;> simp [hrest]

end FileStatuses

namespace JobRow

def unfinishedFiles (row : JobRow X D) : List String :=
  (row.files.filter (fun r => !r.columns.status.isTerminal)).map FileStatusRow.filename

theorem unfinishedFiles_mapColumns {row : JobRow X D} {f : FileStatusRow X D → FilePhaseColumns X D}
    (h : ∀ r ∈ row.files, (f r).status.isTerminal = r.columns.status.isTerminal) :
    (row.mapColumns f).unfinishedFiles = row.unfinishedFiles := by
  unfold unfinishedFiles mapColumns
  simp only
  generalize row.files = files at h ⊢
  induction files with
  | nil => rfl
  | cons r files ih =>
    have hr := h r mem_cons_self
    have hrest := ih (fun x hx => h x (mem_cons_of_mem r hx))
    simp only [map_cons, filter_cons, hr]
    cases r.columns.status.isTerminal <;> simp [hrest]

theorem unfinishedFiles_recoverInterrupted (row : JobRow X D) (now : MachineTime) :
    (row.recoverInterrupted now).unfinishedFiles = row.unfinishedFiles := by
  unfold recoverInterrupted
  split
  · apply unfinishedFiles_mapColumns
    intro r _
    simp only [FilePhaseColumns.kind_phase]
    split
    · rfl
    · rw [FilePhase.status_columns, FilePhase.isTerminal_interruption, FilePhaseColumns.kind_phase]
  · rfl

theorem unfinished_fileStatuses (row : JobRow X D) :
    (row.fileStatuses.values.filter (fun f => !f.status.isTerminal)).map FileStatus.filename =
      row.unfinishedFiles := by
  unfold fileStatuses unfinishedFiles
  simp only [filter_map, map_map]
  congr 1
  apply filter_congr
  simp [FileStatusRow.file, FileStatus.status]

end JobRow

theorem Job.unfinishedFiles_reconcile (job : Job X D) :
    job.reconcileRecoveredRuntimeState.1.unfinishedFiles = job.unfinishedFiles := by
  unfold Job.reconcileRecoveredRuntimeState Job.unfinishedFiles
  split
  · apply FileStatuses.unfinished_mapValues
    intro f _
    cases hres : f.status.isResumable
    · rfl
    · have hopen : f.status.isTerminal = false := by
        simpa [FileStatusKind.isResumable_eq] using hres
      simp only [if_true, hopen]
      rfl
  · simp only
    split <;> simp [Job.setStatus_fileStatuses, Job.setFailureReasonFromFiles_fileStatuses]

variable {now : MachineTime} {row : JobRow X D} {job : Job X D} {recovered : Job X D × JobRow X D}

theorem recovered_unfinished {command : StoredCommand}
    {ttlCutoff : MachineTime}
    (h : row.startup command ttlCutoff now = some recovered) :
    recovered.1.unfinishedFiles = row.unfinishedFiles := by
  unfold JobRow.startup JobRow.load at h
  split at h
  · cases h
    have hloaded : ((row.recoverInterrupted now).job command).unfinishedFiles =
        row.unfinishedFiles := by
      calc
        ((row.recoverInterrupted now).job command).unfinishedFiles =
            (row.recoverInterrupted now).unfinishedFiles :=
          (row.recoverInterrupted now).unfinished_fileStatuses
        _ = row.unfinishedFiles := row.unfinishedFiles_recoverInterrupted now
    rw [JobRow.reconciled_job]
    split
    · rw [Job.unfinishedFiles_reconcile, hloaded]
    · exact hloaded
  · cases h

def Job.anyFileFailed (job : Job X D) : Bool :=
  job.execution.fileStatuses.values.any (fun f => f.status == .error)

def Job.RightVerdict (job : Job X D) : Prop :=
  job.execution.status = if job.anyFileFailed then .failed else .completed

/-- The job reached `Completed` or `Failed` and has no file left to do. -/
def Job.Finished (job : Job X D) : Prop :=
  (job.execution.status = .completed ∨ job.execution.status = .failed) ∧ job.unfinishedFiles = []

def Job.forcedFailure (job : Job X D) (cause : UnfinishedFileCause) (filename : String)
    (now : MachineTime) : FileFailureRecord :=
  match cause with
  | .cancelled =>
    ⟨"File stopped after job cancellation before recording a terminal file state",
      .cancelled, now⟩
  | .unexpectedExit =>
    ⟨"File did not reach terminal status (last status: " ++
        (job.fileStatusLabel filename).getD "" ++ ")", .system, now⟩

def Job.forceTerminalFileStates (job : Job X D) (cause : UnfinishedFileCause)
    (now : MachineTime) : Job X D × Nat :=
  (job.unfinishedFiles.foldl
      (fun job filename => (job.markFileError filename (job.forcedFailure cause filename now)).1)
      job,
    match cause with
    | .cancelled => 0
    | .unexpectedExit => job.unfinishedFiles.length)

/-- The tail of a runner's program, from its dispatch to its finalization, alone on the job. -/
def Job.conclude (job : Job X D) (generation : Nat) (now : MachineTime) : Job X D :=
  if job.runtime.runGeneration ≠ generation then job
  else
    let forced := job.forceTerminalFileStates
      (if job.runtime.cancelled then .cancelled else .unexpectedExit) now
    forced.1.finalizeJob generation
      (finalizeStatus forced.1.runtime.cancelled forced.1.anyTerminalFilesFailed forced.2) now

theorem Job.anyFileFailed_iff (job : Job X D) :
    job.anyFileFailed = true ↔ ∃ f ∈ job.execution.fileStatuses.values, f.status = .error := by
  simp [Job.anyFileFailed]

theorem Job.anyTerminalFilesFailed_eq (job : Job X D) :
    job.anyTerminalFilesFailed = job.anyFileFailed := by
  unfold Job.anyTerminalFilesFailed Job.anyFileFailed
  rw [any_filter]
  congr 1
  funext f
  cases f.status <;> rfl

theorem Job.mem_unfinishedFiles {filename : String} : filename ∈ job.unfinishedFiles ↔
      ∃ f ∈ job.execution.fileStatuses.values, f.status.isTerminal = false ∧ f.filename = filename := by
  simp [Job.unfinishedFiles, and_assoc]

theorem Job.markFileError_files (job : Job X D) (filename : String) (failure : FileFailureRecord)
    {f : FileStatus X D} (h : f ∈ (job.markFileError filename failure).1.execution.fileStatuses.values) :
    (f.filename = filename ∧ f.status = .error) ∨
      (f.filename ≠ filename ∧ f ∈ job.execution.fileStatuses.values) := by
  cases hget : job.execution.fileStatuses.get filename with
  | none =>
    simp only [Job.markFileError, hget] at h
    right
    refine ⟨?_, h⟩
    intro hname
    have hsome := (job.execution.fileStatuses.get_eq_some_iff filename f).mpr ⟨h, hname⟩
    rw [hget] at hsome
    cases hsome
  | some g =>
    simp only [Job.markFileError, hget, FileStatuses.setPhase, FileStatuses.mapValues_values,
      mem_map] at h
    obtain ⟨s, hs, rfl⟩ := h
    by_cases hname : s.filename = filename
    · simp [hname, FileStatus.status, FilePhase.kind]
    · right
      simp only [hname, if_false]
      exact ⟨hname, hs⟩

variable (cause : UnfinishedFileCause)

theorem Job.forced_files (now : MachineTime)
    (filenames : List String) (job : Job X D) {f : FileStatus X D}
    (h : f ∈ (filenames.foldl (fun job filename =>
      (job.markFileError filename (job.forcedFailure cause filename now)).1)
        job).execution.fileStatuses.values) : (f.filename ∈ filenames ∧ f.status = .error) ∨
      (f.filename ∉ filenames ∧ f ∈ job.execution.fileStatuses.values) := by
  induction filenames generalizing job with
  | nil =>
    right
    exact ⟨not_mem_nil, h⟩
  | cons filename filenames ih =>
    obtain ⟨hlater, hfailed⟩ | ⟨hlater, hmem⟩ := ih _ h
    · left
      exact ⟨mem_cons_of_mem filename hlater, hfailed⟩
    · obtain ⟨hname, hfailed⟩ | ⟨hname, hmem⟩ := job.markFileError_files filename _ hmem
      · left
        exact ⟨by simp [hname], hfailed⟩
      · right
        exact ⟨by simp [hname, hlater], hmem⟩

theorem Job.forceTerminalFileStates_unfinished (job : Job X D) (cause : UnfinishedFileCause)
    (now : MachineTime) : (job.forceTerminalFileStates cause now).1.unfinishedFiles = [] := by
  rw [eq_nil_iff_forall_not_mem]
  intro filename hleft
  obtain ⟨f, hf, hopen, -⟩ := Job.mem_unfinishedFiles.mp hleft
  obtain ⟨-, hfailed⟩ | ⟨hkept, hmem⟩ := Job.forced_files cause now _ job hf
  · rw [hfailed] at hopen
    cases hopen
  · exact hkept (Job.mem_unfinishedFiles.mpr ⟨f, hmem, hopen, rfl⟩)

theorem Job.forced_filenames (now : MachineTime) (filenames : List String) (job : Job X D) :
    (filenames.foldl (fun job filename =>
      (job.markFileError filename (job.forcedFailure cause filename now)).1)
        job).execution.fileStatuses.values.map FileStatus.filename =
      job.execution.fileStatuses.values.map FileStatus.filename := by
  induction filenames generalizing job with
  | nil => rfl
  | cons filename filenames ih =>
    rw [foldl_cons, ih]
    exact RunnerOp.apply_filenames (.markFileError filename _) job

section
variable (job : Job X D)

theorem Job.anyFileFailed_of_forced (cause : UnfinishedFileCause)
    (now : MachineTime) (h : 0 < (job.forceTerminalFileStates cause now).2) :
    (job.forceTerminalFileStates cause now).1.anyFileFailed = true := by
  have hleft : job.unfinishedFiles ≠ [] := by
    intro hnil
    cases cause <;> simp [Job.forceTerminalFileStates, hnil] at h
  obtain ⟨filename, hfilename⟩ := exists_mem_of_ne_nil _ hleft
  obtain ⟨f, hf, -, hname⟩ := Job.mem_unfinishedFiles.mp hfilename
  have hthere : filename ∈ (job.forceTerminalFileStates cause now).1.execution.fileStatuses.values.map
      FileStatus.filename := by
    unfold Job.forceTerminalFileStates
    simp only [Job.forced_filenames]
    exact mem_map.mpr ⟨f, hf, hname⟩
  obtain ⟨f', hf', hname'⟩ := mem_map.mp hthere
  rw [Job.anyFileFailed_iff]
  refine ⟨f', hf', ?_⟩
  obtain ⟨-, hfailed⟩ | ⟨hkept, -⟩ := Job.forced_files cause now _ job hf'
  · exact hfailed
  · rw [hname'] at hkept
    exact absurd hfilename hkept

theorem Job.setFailureReasonFromFiles_status :
    job.setFailureReasonFromFiles.execution.status = job.execution.status := by
  unfold Job.setFailureReasonFromFiles
  split <;> rfl

theorem Job.finalize_status {finalStatus : JobStatus}
    (completedAt : MachineTime) (hactive : job.execution.status.isActive = true)
    (hterminal : finalStatus.isTerminal = true) :
    (job.finalize finalStatus completedAt).1.execution.status = finalStatus := by
  have haccepted : job.execution.status.canTransitionTo finalStatus .finalize = true := by
    simp [JobStatus.canTransitionTo, hactive, hterminal]
  unfold Job.finalize
  rw [job.setStatus_eq_of_accepted haccepted]
  simp only [Bool.true_and, if_true]
  split <;> simp [Job.setFailureReasonFromFiles_status]

end

theorem finalizeStatus_isTerminal (cancelled anyFailed : Bool) (forcedErrors : Nat) :
    (finalizeStatus cancelled anyFailed forcedErrors).isTerminal = true := by
  unfold finalizeStatus
  split
  · rfl
  · split <;> rfl

theorem Job.forced_frame (now : MachineTime) (filenames : List String) (job : Job X D) :
    (filenames.foldl (fun job filename =>
      (job.markFileError filename (job.forcedFailure cause filename now)).1) job).runtime = job.runtime ∧
    (filenames.foldl (fun job filename =>
      (job.markFileError filename (job.forcedFailure cause filename now)).1)
        job).execution.status = job.execution.status := by
  induction filenames generalizing job with
  | nil => exact ⟨rfl, rfl⟩
  | cons filename filenames ih =>
    have hstep : (job.markFileError filename (job.forcedFailure cause filename now)).1.runtime =
          job.runtime ∧
        (job.markFileError filename
          (job.forcedFailure cause filename now)).1.execution.status = job.execution.status := by
      unfold Job.markFileError
      split <;> exact ⟨rfl, rfl⟩
    obtain ⟨hruntime, hstatus⟩ := ih (job.markFileError filename
      (job.forcedFailure cause filename now)).1
    exact ⟨hruntime.trans hstep.1, hstatus.trans hstep.2⟩

theorem Job.conclude_spec (job : Job X D) (now : MachineTime)
    (hactive : job.execution.status.isActive = true) :
    let concluded := job.conclude job.runtime.runGeneration now
    concluded.unfinishedFiles = [] ∧ (concluded.execution.status =
        if job.runtime.cancelled then .cancelled
        else if concluded.anyFileFailed then .failed else .completed) := by
  intro concluded
  have hconcluded : concluded = job.conclude job.runtime.runGeneration now := rfl
  unfold Job.conclude at hconcluded
  generalize hcause : (if job.runtime.cancelled then UnfinishedFileCause.cancelled
    else .unexpectedExit) = cause at hconcluded
  obtain ⟨hruntime, hstatus⟩ := Job.forced_frame cause now job.unfinishedFiles job
  have hleft := job.forceTerminalFileStates_unfinished cause now
  have hforced := job.anyFileFailed_of_forced cause now
  generalize hf : job.forceTerminalFileStates cause now = forced at hconcluded hleft hforced
  have hruntime' : forced.1.runtime = job.runtime := by
    rw [← hf]
    exact hruntime
  have hstatus' : forced.1.execution.status = job.execution.status := by
    rw [← hf]
    exact hstatus
  simp only [Job.finalizeJob, hruntime', ne_eq, not_true, if_false,
    Job.anyTerminalFilesFailed_eq] at hconcluded
  have hfiles : concluded.execution.fileStatuses = forced.1.execution.fileStatuses := by
    rw [hconcluded, Job.finalize_fileStatuses]
  have hfailed : concluded.anyFileFailed = forced.1.anyFileFailed := by
    unfold Job.anyFileFailed
    rw [hfiles]
  constructor
  · unfold Job.unfinishedFiles at hleft ⊢
    rw [hfiles]
    exact hleft
  · rw [hfailed, hconcluded, Job.finalize_status _ now (by rw [hstatus']; exact hactive)
      (finalizeStatus_isTerminal _ _ _)]
    unfold finalizeStatus
    -- a forced error is among the files, so it adds nothing to the predicate
    have hor : (decide (0 < forced.2) || forced.1.anyFileFailed) = forced.1.anyFileFailed := by
      by_cases hpos : 0 < forced.2
      · simp [hforced hpos]
      · simp [hpos]
    rw [hor]

theorem JobRow.mem_unfinishedFiles {filename : String} : filename ∈ row.unfinishedFiles ↔
      ∃ r ∈ row.files, r.columns.status.isTerminal = false ∧ r.filename = filename := by
  simp [JobRow.unfinishedFiles, and_assoc]

theorem JobRow.terminal_of_finished (h : row.unfinishedFiles = [])
    {r : FileStatusRow X D} (hr : r ∈ row.files) : r.columns.status.isTerminal = true := by
  by_contra hopen
  have hmem : r.filename ∈ row.unfinishedFiles :=
    JobRow.mem_unfinishedFiles.mpr ⟨r, hr, by simpa using hopen, rfl⟩
  rw [h] at hmem
  cases hmem

theorem JobRow.fileStatuses_recoverInterrupted (now : MachineTime) (h : row.unfinishedFiles = []) :
    (row.recoverInterrupted now).fileStatuses = row.fileStatuses := by
  unfold JobRow.recoverInterrupted
  split
  · apply FileStatuses.ext
    simp only [JobRow.fileStatuses, JobRow.mapColumns, map_map]
    apply map_congr_left
    intro r hr
    have hterminal := JobRow.terminal_of_finished h hr
    simp [hterminal]
  · rfl

theorem JobRow.status_recoverInterrupted (now : MachineTime)
    (h : row.columns.status.isActive = true ∨ row.columns.status = .interrupted) :
    (row.recoverInterrupted now).columns.status = .interrupted := by
  unfold JobRow.recoverInterrupted
  split
  · rfl
  · next hactive =>
    obtain h | h := h
    · exact absurd h hactive
    · exact h

theorem Job.reconcile_finished (hrec : job.execution.status.isRecoverable = true)
    (h : job.unfinishedFiles = []) : job.reconcileRecoveredRuntimeState.1.execution.status =
        (if job.execution.fileStatuses.values.all (fun f => f.status == .error) then .failed
          else .completed) ∧
      job.reconcileRecoveredRuntimeState.1.execution.fileStatuses = job.execution.fileStatuses := by
  have hnone : job.execution.fileStatuses.values.any (fun f => f.status.isResumable) = false := by
    rw [any_eq_false]
    intro f hf hres
    have hopen : f.status.isTerminal = false := by
      simpa [FileStatusKind.isResumable_eq] using hres
    have hmem := Job.mem_unfinishedFiles.mpr ⟨f, hf, hopen, rfl⟩
    rw [h] at hmem
    cases hmem
  unfold Job.reconcileRecoveredRuntimeState
  rw [if_neg (by simp [hnone])]
  cases job.execution.fileStatuses.values.all (fun f => f.status == .error)
  · have haccepted : job.execution.status.canTransitionTo .completed .reconcile = true := by
      simp [JobStatus.canTransitionTo, hrec]
    simp [job.setStatus_eq_of_accepted haccepted]
  · have haccepted : job.execution.status.canTransitionTo .failed .reconcile = true := by
      simp [JobStatus.canTransitionTo, hrec]
    simp [job.setStatus_eq_of_accepted haccepted, Job.setFailureReasonFromFiles_status,
      Job.setFailureReasonFromFiles_fileStatuses]

theorem reconciled_verdict {command : StoredCommand}
    {ttlCutoff : MachineTime} (hadmitted : command.refusal = none)
    (hrow : row.columns.status.isActive = true ∨ row.columns.status = .interrupted)
    (hfinished : row.unfinishedFiles = []) (h : row.startup command ttlCutoff now = some recovered) :
    recovered.1.execution.status =
        (if row.fileStatuses.values.all (fun f => f.status == .error) then .failed else .completed) ∧
      recovered.1.execution.fileStatuses = row.fileStatuses := by
  unfold JobRow.startup JobRow.load at h
  split at h
  · cases h
    have hstatus : ((row.recoverInterrupted now).job command).execution.status = .interrupted := by
      simp [JobRow.job, hadmitted, JobRow.status_recoverInterrupted now hrow]
    have hfiles : ((row.recoverInterrupted now).job command).execution.fileStatuses =
        row.fileStatuses := JobRow.fileStatuses_recoverInterrupted now hfinished
    have hleft : ((row.recoverInterrupted now).job command).unfinishedFiles = [] := by
      unfold Job.unfinishedFiles
      rw [hfiles, row.unfinished_fileStatuses, hfinished]
    have hverdict := Job.reconcile_finished (by rw [hstatus]; rfl) hleft
    rw [hfiles] at hverdict
    rw [JobRow.reconciled_job, hstatus]
    exact hverdict
  · cases h

/-- The paths to `Completed` or `Failed` with all files terminal: finalization and startup. -/
def RightOnEveryPath (job : Job X D) (row : JobRow X D) : Prop :=
  (∀ generation now, (job.conclude generation now).Finished →
    (job.conclude generation now).RightVerdict) ∧
  (∀ command ttlCutoff now recovered, command.refusal = none →
    row.startup command ttlCutoff now = some recovered → recovered.1.Finished →
    recovered.1.RightVerdict)

/-- A startup and the finalization agree on the file outcomes that were stored. -/
def SameVerdictAfterStartup (job : Job X D) (row : JobRow X D) : Prop :=
  row.fileStatuses = job.execution.fileStatuses → ∀ generation now command ttlCutoff now' recovered, command.refusal = none →
    (job.conclude generation now).Finished →
    row.startup command ttlCutoff now' = some recovered → recovered.1.Finished →
    recovered.1.execution.status = (job.conclude generation now).execution.status

theorem Job.conclude_right (hactive : job.execution.status.isActive = true)
    {generation : Nat} (h : (job.conclude generation now).Finished) :
    (job.conclude generation now).RightVerdict := by
  by_cases hgeneration : job.runtime.runGeneration = generation
  · rw [← hgeneration] at h ⊢
    obtain ⟨-, hstatus⟩ := job.conclude_spec now hactive
    cases hcancelled : job.runtime.cancelled
    · simpa [hcancelled, Job.RightVerdict] using hstatus
    · obtain ⟨hreached, -⟩ := h
      simp only [hcancelled, if_true] at hstatus
      rw [hstatus] at hreached
      simp at hreached
  · -- a runner of another generation leaves the job as it is, and that is active
    obtain ⟨hreached, -⟩ := h
    simp only [Job.conclude, ne_eq, hgeneration, not_false_eq_true, if_true] at hreached
    obtain hreached | hreached := hreached <;> simp [hreached, JobStatus.isActive] at hactive

theorem Job.conclude_fileStatuses (hleft : job.unfinishedFiles = [])
    (generation : Nat) (now : MachineTime) :
    (job.conclude generation now).execution.fileStatuses = job.execution.fileStatuses := by
  unfold Job.conclude
  split
  · rfl
  · simp only [Job.forceTerminalFileStates, hleft, foldl_nil, Job.finalizeJob]
    split
    · rfl
    · rw [Job.finalize_fileStatuses]

theorem all_error_eq_any_error {files : List (FileStatus X D)} (hfiles : files ≠ [])
    (h : (∀ f ∈ files, f.status = .error) ∨ ∀ f ∈ files, f.status ≠ .error) :
    files.all (fun f => f.status == .error) = files.any (fun f => f.status == .error) := by
  obtain ⟨f, hf⟩ := exists_mem_of_ne_nil files hfiles
  obtain hall | hnone := h
  · have hleft : files.all (fun f => f.status == .error) = true := by
      simpa using hall
    have hright : files.any (fun f => f.status == .error) = true := by
      rw [any_eq_true]
      exact ⟨f, hf, by simpa using hall f hf⟩
    rw [hleft, hright]
  · have hleft : files.all (fun f => f.status == .error) = false := by
      rw [all_eq_false]
      exact ⟨f, hf, by simpa using hnone f hf⟩
    have hright : files.any (fun f => f.status == .error) = false := by
      rw [any_eq_false]
      intro g hg
      simpa using hnone g hg
    rw [hleft, hright]

def permissiveCommand : StoredCommand := ⟨true, none, fun filename => some (filename, .chat)⟩

theorem startup_permissive (row : JobRow X D) (now : MachineTime) :
    ∃ recovered, row.startup permissiveCommand 0 now = some recovered := by
  have hloadable : (row.recoverInterrupted now).Loadable permissiveCommand 0 :=
    ⟨Nat.zero_le _, rfl, fun _ _ _ _ => by simp [permissiveCommand]⟩
  exact ⟨_, if_pos hloadable⟩

theorem JobRow.forall_status (row : JobRow X D) (P : FileStatusKind → Prop) :
    (∀ f ∈ row.fileStatuses.values, P f.status) ↔ ∀ r ∈ row.files, P r.columns.status := by
  simp [JobRow.fileStatuses, FileStatusRow.file, FileStatus.status]

/-- Every path from an active job to `Completed` or `Failed` gives `Failed` when a file failed and
  `Completed` otherwise exactly when the rows hold a file left to do or are not mixed; a startup that
  finds the job's own outcomes then agrees. -/
theorem finished_verdict_iff (job : Job X D) (row : JobRow X D) (hfiles : row.files ≠ [])
    (hactive : job.execution.status.isActive = true)
    (hrow : row.columns.status.isActive = true ∨ row.columns.status = .interrupted) :
    (RightOnEveryPath job row ∧ SameVerdictAfterStartup job row) ↔ (row.unfinishedFiles ≠ [] ∨
        (∀ r ∈ row.files, r.columns.status = .error) ∨ ∀ r ∈ row.files, r.columns.status ≠ .error) := by
  rw [← row.forall_status (· = .error), ← row.forall_status (· ≠ .error)]
  constructor
  · intro ⟨⟨_, hstartup⟩, _⟩
    by_contra hcond
    push Not at hcond
    obtain ⟨hleft, ⟨f, hf, hspared⟩, g, hg, hfailed⟩ := hcond
    -- mixed files, none left to do: a startup completes the job
    obtain ⟨recovered, hrecovered⟩ := startup_permissive row 0
    obtain ⟨hstatus, hfiles'⟩ := reconciled_verdict rfl hrow hleft hrecovered
    have hmixed : row.fileStatuses.values.all (fun f => f.status == .error) = false := by
      rw [all_eq_false]
      exact ⟨f, hf, by simpa using hspared⟩
    rw [hmixed, if_neg Bool.false_ne_true] at hstatus
    have hright := hstartup permissiveCommand 0 0 recovered rfl hrecovered
      ⟨Or.inl hstatus, by rw [recovered_unfinished hrecovered, hleft]⟩
    have hany : recovered.1.anyFileFailed = true := by
      rw [Job.anyFileFailed_iff, hfiles']
      exact ⟨g, hg, hfailed⟩
    simp [Job.RightVerdict, hstatus, hany] at hright
  · intro hcond
    have hsome : row.fileStatuses.values ≠ [] := fun hnone => hfiles (map_eq_nil_iff.mp hnone)
    -- a startup that finishes the job found no file left to do
    have hrecovered : ∀ command ttlCutoff now (recovered : Job X D × JobRow X D),
        command.refusal = none → row.startup command ttlCutoff now = some recovered →
        recovered.1.Finished → row.unfinishedFiles = [] ∧ recovered.1.RightVerdict ∧
          recovered.1.execution.fileStatuses = row.fileStatuses := by
      intro command ttlCutoff now recovered hadmitted h hfinished
      have hleft : row.unfinishedFiles = [] := by
        rw [← recovered_unfinished h]
        exact hfinished.2
      obtain ⟨hstatus, hfiles'⟩ := reconciled_verdict hadmitted hrow hleft h
      refine ⟨hleft, ?_, hfiles'⟩
      rw [Job.RightVerdict, hstatus, Job.anyFileFailed, hfiles',
        all_error_eq_any_error hsome (hcond.resolve_left (not_not_intro hleft))]
    refine ⟨⟨fun generation now => Job.conclude_right hactive, ?_⟩, ?_⟩
    · intro command ttlCutoff now recovered hadmitted h hfinished
      exact (hrecovered command ttlCutoff now recovered hadmitted h hfinished).2.1
    · intro hheld generation now command ttlCutoff now' recovered hadmitted hconcluded h hfinished
      obtain ⟨hleft, hright, hfiles'⟩ :=
        hrecovered command ttlCutoff now' recovered hadmitted h hfinished
      rw [← row.unfinished_fileStatuses, hheld] at hleft
      have hsame : recovered.1.anyFileFailed = (job.conclude generation now).anyFileFailed := by
        unfold Job.anyFileFailed
        rw [Job.conclude_fileStatuses hleft, hfiles', hheld]
      rw [hright, Job.conclude_right hactive hconcluded, hsame]

def ranTwoFiles (a b : FilePhase Unit Unit) : Job Unit Unit where
  execution := {
    status := .running
    fileStatuses := ⟨[⟨"a.cha", a⟩, ⟨"b.cha", b⟩], by simp⟩
    results := []
    error := none
    completedFiles := 2 }
  schedule := ⟨none, none, some 1⟩
  runtime := ⟨false, true, 0⟩

def ranTwoFilesRow (a b : FilePhase Unit Unit) : JobRow Unit Unit where
  submittedAt := 0
  columns := (ranTwoFiles a b).statusColumns
  files := [⟨"a.cha", a.columns⟩, ⟨"b.cha", b.columns⟩]
  nodup := by simp

theorem finished_verdict_iff_both_done :
    RightOnEveryPath (ranTwoFiles (.done (some 1) (some 2) []) (.done (some 1) (some 3) []))
      (ranTwoFilesRow (.done (some 1) (some 2) []) (.done (some 1) (some 3) [])) := by
  have h := (finished_verdict_iff
    (ranTwoFiles (.done (some 1) (some 2) []) (.done (some 1) (some 3) []))
    (ranTwoFilesRow (.done (some 1) (some 2) []) (.done (some 1) (some 3) []))
    (cons_ne_nil _ _) rfl (Or.inl rfl)).mpr
  exact (h (Or.inr (Or.inr (by decide)))).1

/-- One file done and one failed: the run would have failed the job, a startup completes it. -/
theorem mixed_files_completed_at_startup :
    let job := ranTwoFiles (.done (some 1) (some 2) []) (.error (some 1) (some 3)
      (.recorded "worker crashed" .workerCrash))
    let row := ranTwoFilesRow (.done (some 1) (some 2) []) (.error (some 1) (some 3)
      (.recorded "worker crashed" .workerCrash))
    (job.conclude 0 4).execution.status = .failed ∧
      (∃ recovered, row.startup permissiveCommand 0 5 = some recovered ∧ recovered.1.Finished ∧
        recovered.1.execution.status = .completed ∧ recovered.1.anyFileFailed = true) ∧
      ¬ RightOnEveryPath job row := by
  intro job row
  have hrecovered : ∃ recovered, row.startup permissiveCommand 0 5 = some recovered ∧
      recovered.1.Finished ∧ recovered.1.execution.status = .completed ∧
      recovered.1.anyFileFailed = true :=
    ⟨_, rfl, ⟨Or.inl rfl, rfl⟩, rfl, rfl⟩
  refine ⟨rfl, hrecovered, ?_⟩
  intro hright
  obtain ⟨recovered, h, hfinished, hstatus, hfailed⟩ := hrecovered
  have hverdict := hright.2 permissiveCommand 0 5 recovered rfl h hfinished
  simp [Job.RightVerdict, hstatus, hfailed] at hverdict

end Batchalign.Store
