import Batchalign.Lib.Runs
import Batchalign.Store.Persist
import Batchalign.Store.Recovery

/- A crash between operations (`store/queries`) that run one after another: the registry's job, then the
   rows. Every operation that acts on the status writes its columns; every one on a file but
   `clear_file_retry_state` writes the file's row; a restart changes requeued phases in the registry
   only. A crash leaves the rows. -/

namespace Batchalign.Store
open List
open Function (comp_def comp_apply)
open Bool (false_eq_true)

variable {X D : Type} {ttlCutoff now : MachineTime}

/-- The token is cancelled in any status; only a job that could still stop gives up the claim. -/
def Job.interruptForShutdown (job : Job X D) (completedAt : MachineTime) : Job X D × Bool :=
  let job' := { job with runtime := { job.runtime with cancelled := true } }
  match job'.stop .interrupted completedAt with
  | (job'', true) => ({ job'' with runtime := { job''.runtime with runnerActive := false } }, true)
  | (job'', false) => (job'', false)

namespace FileStatuses

def rephase (m : FileStatuses X D) (filename : String) (p : FilePhase X D → FilePhase X D) :
    List (FileStatus X D) :=
  m.values.map (fun f => if f.filename = filename then { f with phase := p f.phase } else f)

theorem rephase_of_absent {m : FileStatuses X D} {filename : String}
    (h : m.get filename = none) (p : FilePhase X D → FilePhase X D) :
    m.rephase filename p = m.values := by
  conv_rhs => rw [← map_id m.values]
  apply map_congr_left
  intro f hf
  have hname : f.filename ≠ filename := by
    intro hname
    have hsome := (m.get_eq_some_iff filename f).mpr ⟨hf, hname⟩
    rw [h] at hsome
    cases hsome
  simp [hname]

theorem setPhase_of_get {m : FileStatuses X D} {filename : String} {g : FileStatus X D}
    (h : m.get filename = some g) (p : FilePhase X D → FilePhase X D) :
    (m.setPhase filename (p g.phase)).values = m.rephase filename p := by
  apply map_congr_left
  intro f hf
  by_cases hname : f.filename = filename
  · have hfg : f = g := by
      have hsome := (m.get_eq_some_iff filename f).mpr ⟨hf, hname⟩
      rw [h] at hsome
      exact (Option.some.inj hsome).symm
    subst hfg
    simp [hname]
  · simp [hname]

end FileStatuses

inductive FileOp (X D : Type) where
  | markFileProcessing (filename : String) (startedAt : MachineTime)
  | markFileDone (filename : String) (finishedAt : MachineTime) (completion : FileCompletion X D)
  | markFileError (filename : String) (failure : FileFailureRecord)
  | startFileAttempt (filename : String) (startedAt : MachineTime)
  | markFileRetryPending (filename : String) (retry : FileRetryRecord)
  | clearFileRetryState (filename : String)

namespace FileOp

def filename : FileOp X D → String
  | markFileProcessing filename _ | markFileDone filename _ _ | markFileError filename _
  | startFileAttempt filename _ | markFileRetryPending filename _ | clearFileRetryState filename =>
    filename

def apply : FileOp X D → Job X D → Job X D
  | markFileProcessing filename startedAt, job => (job.markFileProcessing filename startedAt).1
  | markFileDone filename finishedAt completion, job =>
    (job.markFileDone filename finishedAt completion).1
  | markFileError filename failure, job => (job.markFileError filename failure).1
  | startFileAttempt filename startedAt, job => (job.startFileAttempt filename startedAt).1
  | markFileRetryPending filename retry, job => (job.markFileRetryPending filename retry).1
  | clearFileRetryState filename, job => (job.clearFileRetryState filename).1

def persists : FileOp X D → Bool
  | clearFileRetryState _ => false
  | _ => true

def newPhase : FileOp X D → FilePhase X D → FilePhase X D
  | markFileProcessing _ startedAt, _ | startFileAttempt _ startedAt, _ =>
    .processing (some startedAt)
  | markFileDone _ finishedAt completion, phase =>
    (Job.completionPhase phase.startedAt finishedAt completion).1
  | markFileError _ failure, phase =>
    .error phase.startedAt (some failure.finishedAt) (.recorded failure.message failure.category)
  | markFileRetryPending _ retry, phase =>
    .retryPending phase.startedAt (some retry.finishedAt) retry.retryAt
      (.recorded retry.message retry.category)
  | clearFileRetryState _, .retryPending startedAt .. => .processing startedAt
  | clearFileRetryState _, phase => phase

theorem storable_newPhase (op : FileOp X D) {phase : FilePhase X D} (h : phase.Storable) :
    (op.newPhase phase).Storable := by
  cases op with
  | markFileDone filename finishedAt completion => cases completion <;> trivial
  | clearFileRetryState filename => cases phase <;> trivial
  | _ => trivial

theorem isTerminal_newPhase_of_not_persists {op : FileOp X D} (h : op.persists = false)
    (phase : FilePhase X D) : (op.newPhase phase).kind.isTerminal = phase.kind.isTerminal := by
  cases op with
  | clearFileRetryState filename => cases phase <;> rfl
  | _ => cases h

theorem apply_spec (op : FileOp X D) (job : Job X D) : (op.apply job).statusColumns = job.statusColumns ∧
    (op.apply job).execution.fileStatuses.values =
      job.execution.fileStatuses.rephase op.filename op.newPhase := by
  cases hget : job.execution.fileStatuses.get op.filename with
  | none =>
    rw [FileStatuses.rephase_of_absent hget]
    cases op <;>
      simp only [filename] at hget <;>
      simp [apply, Job.markFileProcessing, Job.markFileDone, Job.markFileError,
        Job.startFileAttempt, Job.markFileRetryPending, Job.clearFileRetryState, hget]
  | some g =>
    cases op with
    | clearFileRetryState filename =>
      simp only [FileOp.filename] at hget ⊢
      cases hphase : g.phase with
      | retryPending startedAt failedAt retryAt failure =>
        refine ⟨by simp [apply, Job.clearFileRetryState, hget, hphase, Job.statusColumns], ?_⟩
        rw [← FileStatuses.setPhase_of_get hget]
        simp [apply, Job.clearFileRetryState, hget, hphase, newPhase]
      | _ =>
        -- nothing is pending, so the job stays as it is
        refine ⟨by simp [apply, Job.clearFileRetryState, hget, hphase], ?_⟩
        rw [← FileStatuses.setPhase_of_get hget]
        simp only [apply, Job.clearFileRetryState, hget, hphase, newPhase]
        rw [← hphase, (FileStatuses.setPhase_eq_self_iff _ _ _).mpr]
        intro f hf
        rw [hget] at hf
        cases hf
        rfl
    | _ =>
      simp only [FileOp.filename] at hget ⊢
      rw [← FileStatuses.setPhase_of_get hget]
      simp [apply, Job.markFileProcessing, Job.markFileDone, Job.markFileError,
        Job.startFileAttempt, Job.markFileRetryPending, hget, newPhase, Job.statusColumns]

end FileOp

/-- One operation of the store on the job, run to its end, or a crash and the startup
after it. -/
inductive ServerOp (X D : Type) where
  | status (op : StoreOp)
  | file (op : FileOp X D)
  | interruptAllForShutdown (now : MachineTime)
  | beginRunner
  | releaseRunnerClaim
  | startup (ttlCutoff now : MachineTime)

/-- A job in the registry, and its row in the database. -/
structure Server (X D : Type) where
  job : Job X D
  row : JobRow X D

namespace Server

def submitted (submittedAt : MachineTime) (filenames : List String) (h : filenames.Nodup) :
    Server X D where
  job := {
    execution := {
      status := .queued
      fileStatuses := ⟨filenames.map (fun filename => ⟨filename, .queued⟩), by
        simpa [map_map, comp_def] using h⟩
      results := []
      error := none
      completedFiles := 0 }
    schedule := ⟨none, none, none⟩
    runtime := ⟨false, false, 0⟩ }
  row := {
    submittedAt := submittedAt
    columns := ⟨.queued, none, none, none, none⟩
    files := filenames.map (fun filename => ⟨filename, FilePhase.queued.columns⟩)
    nodup := by simpa [map_map, comp_def] using h }

/-- `db_update_file`: the row of a file written from the phase the registry now has. -/
def writeFile (s : Server X D) (filename : String) : Server X D :=
  match s.job.execution.fileStatuses.get filename with
  | some f => { s with row := s.row.updateFileStatus filename f.phase }
  | none => s

/-- One operation. A startup that does not load the job, or shows it read-only, ends the run. -/
def step (command : StoredCommand) (s : Server X D) : ServerOp X D → Option (Server X D)
  | .status op =>
    some ⟨(op.mutate s.job).1,
      if (op.mutate s.job).2 then { s.row with columns := (op.mutate s.job).1.statusColumns }
      else s.row⟩
  | .file op =>
    if op.persists then some (writeFile { s with job := op.apply s.job } op.filename)
    else some { s with job := op.apply s.job }
  | .interruptAllForShutdown now => some { s with job := (s.job.interruptForShutdown now).1 }
  | .beginRunner => some { s with job := s.job.beginRunner.1 }
  | .releaseRunnerClaim => some { s with job := s.job.releaseLocalDispatchClaim }
  | .startup ttlCutoff now =>
    if command.refusal.isSome then none
    else (s.row.startup command ttlCutoff now).map (fun recovered => ⟨recovered.1, recovered.2⟩)

structure Stored (s : Server X D) : Prop where
  /-- a shutdown's interruption is the only status that is not written -/
  columns : s.row.columns = s.job.statusColumns ∨
    (s.job.execution.status = .interrupted ∧ s.row.columns.status.isActive = true)
  names : s.row.files.map FileStatusRow.filename =
    s.job.execution.fileStatuses.values.map FileStatus.filename
  written : ∀ r ∈ s.row.files, r.columns.phase.columns = r.columns
  storable : ∀ f ∈ s.job.execution.fileStatuses.values, f.phase.Storable
  recorded : ∀ f ∈ s.job.execution.fileStatuses.values, ∀ r ∈ s.row.files,
    r.filename = f.filename → f.status.isTerminal = true → r.columns.status.isTerminal = true

def Unfinished (s : Server X D) : Prop :=
  s.job.execution.status.isActive = true ∨ s.job.execution.status = .interrupted

instance (s : Server X D) : Decidable s.Unfinished :=
  inferInstanceAs (Decidable (_ ∨ _))

def SparesFailed (s : Server X D) : ServerOp X D → Prop
  | .status (.restart _) => ∀ f ∈ s.job.execution.fileStatuses.values, f.status ≠ .error
  | _ => True

def KeepsPhases (s : Server X D) : ServerOp X D → Prop
  | .status (.restart _) => ∀ f ∈ s.job.execution.fileStatuses.values,
      f.status.wroteOutput = true ∨ f.phase = .queued
  | .file (.clearFileRetryState filename) => ∀ f ∈ s.job.execution.fileStatuses.values,
      f.filename = filename → (FileOp.clearFileRetryState filename).newPhase f.phase = f.phase
  | _ => True

def LeftHeld (s : Server X D) : Prop :=
  ∀ f ∈ s.job.execution.fileStatuses.values, ∀ r ∈ s.row.files,
    r.filename = f.filename → f.status.isTerminal = false → r.columns.status.isTerminal = false

def PhasesHeld (s : Server X D) : Prop :=
  ∀ f ∈ s.job.execution.fileStatuses.values, ∀ r ∈ s.row.files,
    r.filename = f.filename → r.columns = f.phase.columns

/-- Stored as a startup needs: an unfinished job has a file left to do, none stored as terminal; a finished
  job's rows are its phases. -/
def Held (s : Server X D) : Prop :=
  if s.Unfinished then s.job.unfinishedFiles ≠ [] ∧ s.LeftHeld else s.PhasesHeld

def ComesBack (command : StoredCommand) (ttlCutoff now : MachineTime) (s : Server X D) : Prop :=
  ∃ recovered, s.row.startup command ttlCutoff now = some recovered ∧ if s.Unfinished then
      recovered.1.execution.status = .queued ∧
        ∀ filename, filename ∈ recovered.1.unfinishedFiles ↔ filename ∈ s.job.unfinishedFiles
    else
      recovered.1.execution.status = s.job.execution.status ∧
        recovered.1.execution.error = s.job.execution.error ∧
        recovered.1.execution.fileStatuses = s.job.execution.fileStatuses

end Server

theorem Job.finalize_counters (job : Job X D) (finalStatus : JobStatus) (completedAt : MachineTime) :
    (job.finalize finalStatus completedAt).1.execution.results = job.execution.results ∧
    (job.finalize finalStatus completedAt).1.execution.completedFiles =
      (job.finalize finalStatus completedAt).1.execution.fileStatuses.countWhere
        FileStatusKind.isTerminal := by
  have hreason : ∀ j : Job X D,
      j.setFailureReasonFromFiles.execution.results = j.execution.results := by
    intro j
    unfold Job.setFailureReasonFromFiles
    split <;> rfl
  have hset : (job.setStatus finalStatus .finalize).1.execution.results =
      job.execution.results := by
    unfold Job.setStatus
    split <;> rfl
  unfold Job.finalize
  simp only at hset ⊢
  split <;> split <;> simp [hset, hreason]

theorem StoreOp.mutate_counters {op : StoreOp} (hop : ∀ accepted, op ≠ .restart accepted)
    (job : Job X D) : (op.mutate job).1.execution.fileStatuses = job.execution.fileStatuses ∧
    (op.mutate job).1.execution.results = job.execution.results ∧
    ((op.mutate job).1.execution.completedFiles = job.execution.completedFiles ∨
      (op.mutate job).1.execution.completedFiles =
        (op.mutate job).1.execution.fileStatuses.countWhere FileStatusKind.isTerminal) := by
  cases op with
  | restart accepted => exact absurd rfl (hop accepted)
  | cancel now =>
    cases h : job.execution.status.canTransitionTo .cancelled .interrupt <;>
      simp [mutate, Job.requestCancellation, Job.stop, Stop.status, Job.setStatus, h,
        Job.adoptStatusColumns]
  | markJobRunning =>
    cases h : job.execution.status.canTransitionTo .running .dispatch <;>
      simp [mutate, Job.markRunning, Job.setStatus, h]
  | requeueJobAfterMemoryGate retryAt =>
    cases h : job.execution.status.canTransitionTo .queued .memoryRequeue <;>
      simp [mutate, Job.requeueAfterMemoryGate, Job.setStatus, h]
  | failJob error failedAt =>
    cases h : job.execution.status.canTransitionTo .failed .finalize <;>
      simp [mutate, Job.fail, Job.setStatus, h]
  | finalizeJob g finalStatus finishedAt =>
    by_cases hg : job.runtime.runGeneration = g
    · obtain ⟨hresults, hcounted⟩ := job.finalize_counters finalStatus finishedAt
      simp only [mutate, hg, ne_eq, not_true_eq_false, if_false]
      exact ⟨job.finalize_fileStatuses finalStatus finishedAt, hresults, Or.inr hcounted⟩
    · simp [mutate, hg]
  | updateJobStatus status error now =>
    cases h : job.execution.status.canTransitionTo status .finalize <;>
      simp [mutate, Job.updateJobStatus, Job.setStatus, h]
  | recordJobWorkerCount n => simp [mutate, Job.recordWorkerCount]

theorem StoreOp.mutate_files (op : StoreOp) (job : Job X D) :
    (op.mutate job).1.execution.fileStatuses = job.execution.fileStatuses ∨
      ((∃ accepted, op = .restart accepted) ∧
        (op.mutate job).1.execution.fileStatuses = job.execution.fileStatuses.mapValues (fun s =>
          if s.status.wroteOutput then s.phase else s.requeue.phase)) := by
  by_cases hop : ∃ accepted, op = .restart accepted
  · obtain ⟨accepted, rfl⟩ := hop
    simp only [mutate, Job.prepareForRestart]
    split
    · next h =>
      split at h
      · cases h
      · split at h
        · cases h
        · right
          cases h
          exact ⟨⟨accepted, rfl⟩, rfl⟩
    · left
      rfl
  · left
    exact (mutate_counters (fun accepted h => hop ⟨accepted, h⟩) job).1

theorem Job.interruptForShutdown_spec (job : Job X D) (now : MachineTime) :
    (job.interruptForShutdown now).1.execution.fileStatuses = job.execution.fileStatuses ∧
    ((job.execution.status.isActive = true ∧
        (job.interruptForShutdown now).1.execution.status = .interrupted) ∨
      (job.interruptForShutdown now).1.statusColumns = job.statusColumns) := by
  cases hactive : job.execution.status.isActive
  · have hrefused : job.execution.status.canTransitionTo .interrupted .interrupt = false := by
      simp [JobStatus.canTransitionTo, JobStatus.canCancel, hactive]
    simp [Job.interruptForShutdown, Job.stop, Job.setStatus, Stop.status, hrefused,
      Job.statusColumns]
  · have haccepted : job.execution.status.canTransitionTo .interrupted .interrupt = true := by
      simp [JobStatus.canTransitionTo, JobStatus.canCancel, hactive]
    simp [Job.interruptForShutdown, Job.stop, Job.setStatus, Stop.status, haccepted,
      Job.adoptStatusColumns, JobStatusColumns.stopped]

namespace FileStatuses

theorem map_filename_rephase (m : FileStatuses X D) (filename : String)
    (p : FilePhase X D → FilePhase X D) :
    (m.rephase filename p).map FileStatus.filename = m.values.map FileStatus.filename := by
  unfold rephase
  rw [map_map]
  apply map_congr_left
  intro f _
  simp only [comp_apply]
  split <;> rfl

theorem mem_rephase {m : FileStatuses X D} {filename : String}
    {p : FilePhase X D → FilePhase X D} {f : FileStatus X D} (h : f ∈ m.rephase filename p) :
    (f.filename ≠ filename ∧ f ∈ m.values) ∨
      (f.filename = filename ∧ ∃ g ∈ m.values, g.filename = filename ∧ f.phase = p g.phase) := by
  obtain ⟨g, hg, rfl⟩ := mem_map.mp h
  by_cases hname : g.filename = filename
  · right
    rw [if_pos hname]
    exact ⟨hname, g, hg, hname, rfl⟩
  · left
    rw [if_neg hname]
    exact ⟨hname, hg⟩

end FileStatuses

namespace Server

theorem names_writeFile (s : Server X D) (filename : String) :
    (s.writeFile filename).row.files.map FileStatusRow.filename =
      s.row.files.map FileStatusRow.filename := by
  unfold writeFile
  split
  · simp [JobRow.updateFileStatus, JobRow.mapColumns, comp_def]
  · rfl

variable {s : Server X D} {filename : String}

theorem mem_writeFile {r : FileStatusRow X D} (h : r ∈ (s.writeFile filename).row.files) :
    r ∈ s.row.files ∨ ∃ phase : FilePhase X D, r.columns = phase.columns := by
  unfold writeFile at h
  split at h
  · next f _ =>
    obtain ⟨r', hr', rfl⟩ := mem_map.mp h
    by_cases hname : r'.filename = filename
    · right
      exact ⟨f.phase, if_pos hname⟩
    · left
      simp only [hname, if_false]
      exact hr'
  · left
    exact h

theorem writeFile_pair {f : FileStatus X D}
    {r : FileStatusRow X D} (hf : f ∈ s.job.execution.fileStatuses.values)
    (hr : r ∈ (s.writeFile filename).row.files) (hname : r.filename = f.filename) :
    (f.filename ≠ filename ∧ r ∈ s.row.files) ∨ r.columns = f.phase.columns := by
  by_cases hthis : f.filename = filename
  · right
    have hget := (s.job.execution.fileStatuses.get_eq_some_iff filename f).mpr ⟨hf, hthis⟩
    simp only [writeFile, hget] at hr
    obtain ⟨r', _, rfl⟩ := mem_map.mp hr
    exact if_pos (hname.trans hthis)
  · left
    refine ⟨hthis, ?_⟩
    unfold writeFile at hr
    split at hr
    · obtain ⟨r', hr', rfl⟩ := mem_map.mp hr
      rw [← hname] at hthis
      simp only [hthis, if_false]
      exact hr'
    · exact hr

theorem job_writeFile (s : Server X D) (filename : String) : (s.writeFile filename).job = s.job := by
  unfold writeFile
  split <;> rfl

theorem columns_writeFile (s : Server X D) (filename : String) :
    (s.writeFile filename).row.columns = s.row.columns := by
  unfold writeFile
  split <;> rfl

theorem Stored.submitted (submittedAt : MachineTime) (filenames : List String)
    (h : filenames.Nodup) : (Server.submitted (X := X) (D := D) submittedAt filenames h).Stored where
  columns := Or.inl rfl
  names := by simp [Server.submitted, comp_def]
  written := by
    intro r hr
    obtain ⟨filename, _, rfl⟩ := mem_map.mp hr
    rfl
  storable := by
    intro f hf
    obtain ⟨filename, _, rfl⟩ := mem_map.mp hf
    trivial
  recorded := by
    intro f hf r _ _ hterminal
    obtain ⟨filename, _, rfl⟩ := mem_map.mp hf
    cases hterminal

theorem Stored.status (h : s.Stored) (op : StoreOp) : Stored (X := X) (D := D) ⟨(op.mutate s.job).1,
      if (op.mutate s.job).2 then { s.row with columns := (op.mutate s.job).1.statusColumns }
      else s.row⟩ := by
  have hrows : (if (op.mutate s.job).2 then
      { s.row with columns := (op.mutate s.job).1.statusColumns } else s.row).files =
        s.row.files := by
    split <;> rfl
  obtain hfiles | ⟨-, hfiles⟩ := op.mutate_files s.job
  · constructor
    · cases hp : (op.mutate s.job).2
      · -- nothing was written, and nothing that is written changed
        have hcols := StoreOp.statusColumns_of_not_persists hp
        rw [hcols, show (op.mutate s.job).1.execution.status = s.job.execution.status from
          congrArg JobStatusColumns.status hcols]
        exact h.columns
      · exact Or.inl rfl
    · simp only [hrows, hfiles, h.names]
    · simp only [hrows]
      exact h.written
    · simp only [hfiles]
      exact h.storable
    · simp only [hrows, hfiles]
      exact h.recorded
  · constructor
    · cases hp : (op.mutate s.job).2
      · have hcols := StoreOp.statusColumns_of_not_persists hp
        rw [hcols, show (op.mutate s.job).1.execution.status = s.job.execution.status from
          congrArg JobStatusColumns.status hcols]
        exact h.columns
      · exact Or.inl rfl
    · simp [hrows, hfiles, h.names, FileStatuses.mapValues_values, comp_def]
    · simp only [hrows]
      exact h.written
    · simp only [hfiles, FileStatuses.mapValues_values]
      intro f hf
      obtain ⟨g, hg, rfl⟩ := mem_map.mp hf
      split
      · exact h.storable g hg
      · trivial
    · simp only [hrows, hfiles, FileStatuses.mapValues_values]
      intro f hf r hr hname hterminal
      obtain ⟨g, hg, rfl⟩ := mem_map.mp hf
      apply h.recorded g hg r hr hname
      -- only a file that wrote output is still terminal after a restart
      cases hwrote : g.status.wroteOutput
      · simp only [hwrote, false_eq_true, if_false] at hterminal
        cases hterminal
      · simpa only [hwrote, if_true] using hterminal

theorem Stored.file (h : s.Stored) (op : FileOp X D) :
    Stored (if op.persists then writeFile { s with job := op.apply s.job } op.filename
      else { s with job := op.apply s.job }) := by
  obtain ⟨hcols, hfiles⟩ := op.apply_spec s.job
  have hstatus : (op.apply s.job).execution.status = s.job.execution.status :=
    congrArg JobStatusColumns.status hcols
  have hstorable : ∀ f ∈ (op.apply s.job).execution.fileStatuses.values, f.phase.Storable := by
    rw [hfiles]
    intro f hf
    obtain ⟨-, hf⟩ | ⟨-, g, hg, -, hphase⟩ := FileStatuses.mem_rephase hf
    · exact h.storable f hf
    · rw [hphase]
      exact op.storable_newPhase (h.storable g hg)
  cases hp : op.persists
  · constructor
    · simpa [hcols, hstatus] using h.columns
    · simp [hfiles, FileStatuses.map_filename_rephase, h.names]
    · exact h.written
    · exact hstorable
    · simp only [false_eq_true, if_false, hfiles]
      intro f hf r hr hname hterminal
      obtain ⟨-, hf⟩ | ⟨hthis, g, hg, hg', hphase⟩ := FileStatuses.mem_rephase hf
      · exact h.recorded f hf r hr hname hterminal
      · apply h.recorded g hg r hr (hname.trans (hthis.trans hg'.symm))
        rw [FileStatus.status, hphase, FileOp.isTerminal_newPhase_of_not_persists hp] at hterminal
        exact hterminal
  · simp only [if_true]
    constructor
    · rw [columns_writeFile, job_writeFile]
      simpa [hcols, hstatus] using h.columns
    · rw [names_writeFile, job_writeFile]
      simp [hfiles, FileStatuses.map_filename_rephase, h.names]
    · intro r hr
      obtain hr | ⟨phase, hphase⟩ := mem_writeFile hr
      · exact h.written r hr
      · rw [hphase, FilePhase.columns_phase_columns]
    · rw [job_writeFile]
      exact hstorable
    · rw [job_writeFile]
      intro f hf r hr hname hterminal
      obtain ⟨hother, hr⟩ | hwritten := writeFile_pair hf hr hname
      · rw [hfiles] at hf
        obtain ⟨-, hf⟩ | ⟨hthis, -⟩ := FileStatuses.mem_rephase hf
        · exact h.recorded f hf r hr hname hterminal
        · exact absurd hthis hother
      · rw [hwritten, FilePhase.status_columns]
        exact hterminal

theorem Stored.interrupt (h : s.Stored) (now : MachineTime) :
    Stored { s with job := (s.job.interruptForShutdown now).1 } := by
  obtain ⟨hfiles, hstatus⟩ := s.job.interruptForShutdown_spec now
  refine ⟨?_, ?_, h.written, ?_, ?_⟩
  · obtain ⟨hactive, hstopped⟩ | hcols := hstatus
    · -- an active job's row is its own, so it is left active under an interrupted job
      right
      refine ⟨hstopped, ?_⟩
      obtain hrow | ⟨hinterrupted, -⟩ := h.columns
      · rw [hrow]
        exact hactive
      · rw [hinterrupted] at hactive
        cases hactive
    · rw [hcols, show (s.job.interruptForShutdown now).1.execution.status =
        s.job.execution.status from congrArg JobStatusColumns.status hcols]
      exact h.columns
  · simp only [hfiles, h.names]
  · simp only [hfiles]
    exact h.storable
  · simp only [hfiles]
    exact h.recorded

end Server

variable {row : JobRow X D}

theorem JobRow.mapColumns_eq_self {f : FileStatusRow X D → FilePhaseColumns X D}
    (h : ∀ r ∈ row.files, f r = r.columns) : row.mapColumns f = row := by
  have hfiles : row.files.map (fun r => { r with columns := f r }) = row.files := by
    conv_rhs => rw [← map_id row.files]
    apply map_congr_left
    intro r hr
    rw [h r hr]
    rfl
  unfold JobRow.mapColumns
  cases row
  simp only [JobRow.mk.injEq, true_and]
  exact hfiles

theorem Job.reconcile_cases (job : Job X D) :
    (job.reconcileRecoveredRuntimeState.2 = .requeued ∧ job.unfinishedFiles ≠ [] ∧
      job.reconcileRecoveredRuntimeState.1.execution.status =
        (job.setStatus .queued .reconcile).1.execution.status ∧
      job.reconcileRecoveredRuntimeState.1.execution.fileStatuses =
        job.execution.fileStatuses.mapValues (fun f =>
          if f.status.isResumable then f.requeue.phase else f.phase)) ∨
    (job.reconcileRecoveredRuntimeState.2 ≠ .requeued ∧ job.unfinishedFiles = [] ∧
      job.reconcileRecoveredRuntimeState.1.execution.fileStatuses = job.execution.fileStatuses) := by
  cases hany : job.execution.fileStatuses.values.any (fun f => f.status.isResumable)
  · right
    have hleft : job.unfinishedFiles = [] := by
      rw [eq_nil_iff_forall_not_mem]
      intro filename hmem
      obtain ⟨f, hf, hopen, -⟩ := Job.mem_unfinishedFiles.mp hmem
      have hnot := any_eq_false.mp hany f hf
      simp [FileStatusKind.isResumable_eq, hopen] at hnot
    refine ⟨?_, hleft, ?_⟩
    · simp only [Job.reconcileRecoveredRuntimeState, hany, false_eq_true, if_false]
      split <;> simp
    · simp only [Job.reconcileRecoveredRuntimeState, hany, false_eq_true, if_false]
      split <;> simp [Job.setStatus_fileStatuses, Job.setFailureReasonFromFiles_fileStatuses]
  · have hleft : job.unfinishedFiles ≠ [] := by
      obtain ⟨f, hf, hres⟩ := any_eq_true.mp hany
      apply ne_nil_of_mem (a := f.filename)
      refine Job.mem_unfinishedFiles.mpr ⟨f, hf, ?_, rfl⟩
      simpa [FileStatusKind.isResumable_eq] using hres
    simp [Job.reconcileRecoveredRuntimeState, hany, hleft]

def JobRow.Written (row : JobRow X D) : Prop :=
  ∀ r ∈ row.files, r.columns.phase.columns = r.columns

theorem JobRow.Written.recoverInterrupted (h : row.Written)
    (now : MachineTime) : (row.recoverInterrupted now).Written := by
  unfold JobRow.recoverInterrupted
  split
  · intro r hr
    obtain ⟨r', hr', rfl⟩ := mem_map.mp hr
    simp only
    split
    · exact h r' hr'
    · exact FilePhase.columns_phase_columns _
  · exact h

theorem JobRow.Written.reconciled (h : row.Written) {command : StoredCommand}
    (hadmitted : command.refusal = none) : (row.reconciled command).2.fileStatuses =
        (row.reconciled command).1.execution.fileStatuses ∧ (row.reconciled command).2.Written ∧
      (row.reconciled command).2.columns = (row.reconciled command).1.statusColumns := by
  have hrepaired : row.mapColumns (fun r =>
      if r.columns.fromRow.2.isEmpty then r.columns else r.columns.phase.columns) = row := by
    apply JobRow.mapColumns_eq_self
    intro r hr
    split
    · rfl
    · exact h r hr
  cases hrec : (row.job command).execution.status.isRecoverable
  · simp only [JobRow.reconciled, hadmitted, Option.isSome_none, false_eq_true, if_false,
      hrepaired, hrec]
    refine ⟨rfl, h, ?_⟩
    simp [Job.statusColumns, JobRow.job, hadmitted]
  · simp only [JobRow.reconciled, hadmitted, Option.isSome_none, false_eq_true, if_false,
      hrepaired, hrec, if_true, and_true]
    constructor
    · apply FileStatuses.ext
      obtain ⟨hdisposition, -, -, hfiles⟩ | ⟨hdisposition, -, hfiles⟩ :=
        (row.job command).reconcile_cases
      · rw [hfiles, show (row.job command).execution.fileStatuses = row.fileStatuses from rfl]
        simp only [hdisposition, true_and]
        simp only [JobRow.fileStatuses, JobRow.mapColumns, FileStatuses.mapValues_values, map_map]
        apply map_congr_left
        intro r _
        simp only [comp_apply, FileStatusRow.file, FileStatus.status]
        by_cases hres : r.columns.phase.kind.isResumable = true
        · simp only [hres, if_true]
          rfl
        · simp only [hres, false_eq_true, if_false]
      · rw [hfiles, show (row.job command).execution.fileStatuses = row.fileStatuses from rfl]
        simp [JobRow.fileStatuses, JobRow.mapColumns, hdisposition]
    · intro r hr
      obtain ⟨r', hr', rfl⟩ := mem_map.mp hr
      simp only
      split
      · rfl
      · exact h r' hr'

namespace Server

theorem pair_eq {job : Job X D} {row : JobRow X D}
    (h : row.fileStatuses = job.execution.fileStatuses) {f : FileStatus X D}
    {r : FileStatusRow X D} (hf : f ∈ job.execution.fileStatuses.values) (hr : r ∈ row.files)
    (hname : r.filename = f.filename) : f = r.file := by
  have hr' : r.file ∈ job.execution.fileStatuses.values := by
    rw [← h]
    exact mem_map_of_mem hr
  exact inj_on_of_nodup_map job.execution.fileStatuses.nodup hf hr' hname.symm

variable {s s' : Server X D} {command : StoredCommand} {op : ServerOp X D}

theorem PhasesHeld.of_same (h : s.row.fileStatuses = s.job.execution.fileStatuses)
    (hwritten : s.row.Written) : s.PhasesHeld := by
  intro f hf r hr hname
  rw [pair_eq h hf hr hname]
  exact (hwritten r hr).symm

theorem Stored.of_same (h : s.row.fileStatuses = s.job.execution.fileStatuses)
    (hwritten : s.row.Written) (hcolumns : s.row.columns = s.job.statusColumns) : s.Stored where
  columns := Or.inl hcolumns
  names := by
    rw [← h]
    simp [JobRow.fileStatuses, FileStatusRow.file, comp_def]
  written := hwritten
  storable := by
    rw [← h]
    intro f hf
    obtain ⟨r, _, rfl⟩ := mem_map.mp hf
    exact FilePhase.storable_phase r.columns
  recorded := by
    intro f hf r hr hname hterminal
    rw [PhasesHeld.of_same h hwritten f hf r hr hname, FilePhase.status_columns]
    exact hterminal

theorem Stored.startup (h : s.Stored) (hadmitted : command.refusal = none)
    {recovered : Job X D × JobRow X D} (hrec : s.row.startup command ttlCutoff now = some recovered) :
    recovered.2.fileStatuses = recovered.1.execution.fileStatuses ∧ recovered.2.Written ∧
      recovered.2.columns = recovered.1.statusColumns := by
  unfold JobRow.startup JobRow.load at hrec
  split at hrec
  · cases hrec
    exact JobRow.Written.reconciled (JobRow.Written.recoverInterrupted h.written now) hadmitted
  · cases hrec

theorem Stored.step (h : s.Stored) (hstep : s.step command op = some s') : s'.Stored := by
  cases op with
  | status op =>
    cases hstep
    exact h.status op
  | file op =>
    have hfile := h.file op
    simp only [Server.step] at hstep
    cases hp : op.persists <;> simp only [hp, false_eq_true, if_false, if_true] at hstep hfile
    all_goals cases hstep
    all_goals exact hfile
  | interruptAllForShutdown now =>
    cases hstep
    exact h.interrupt now
  | beginRunner =>
    cases hstep
    have hbegin : s.job.beginRunner.1.execution = s.job.execution ∧
        s.job.beginRunner.1.statusColumns = s.job.statusColumns := by
      unfold Job.beginRunner
      split <;> exact ⟨rfl, rfl⟩
    exact ⟨by rw [hbegin.1, hbegin.2]; exact h.columns, by rw [hbegin.1]; exact h.names,
      h.written, by rw [hbegin.1]; exact h.storable, by rw [hbegin.1]; exact h.recorded⟩
  | releaseRunnerClaim =>
    cases hstep
    exact ⟨h.columns, h.names, h.written, h.storable, h.recorded⟩
  | startup ttlCutoff now =>
    simp only [Server.step] at hstep
    cases hrefusal : command.refusal with
    | some refusal => simp [hrefusal] at hstep
    | none =>
      simp only [hrefusal, Option.isSome_none, false_eq_true, if_false,
        Option.map_eq_some_iff] at hstep
      obtain ⟨recovered, hrec, rfl⟩ := hstep
      obtain ⟨hfiles, hwritten, hcolumns⟩ := h.startup hrefusal hrec
      exact Stored.of_same hfiles hwritten hcolumns

theorem step_files (h : s.Stored) (hstep : s.step command op = some s') :
    (s'.job.execution.fileStatuses = s.job.execution.fileStatuses ∧ s'.row.files = s.row.files) ∨
    (∃ accepted, op = .status (.restart accepted) ∧
      s'.job.execution.fileStatuses = s.job.execution.fileStatuses.mapValues (fun f =>
        if f.status.wroteOutput then f.phase else f.requeue.phase) ∧ s'.row.files = s.row.files) ∨
    (∃ fop, op = .file fop ∧ fop.persists = false ∧ s'.job.execution.fileStatuses.values =
        s.job.execution.fileStatuses.rephase fop.filename fop.newPhase ∧ s'.row.files = s.row.files) ∨
    (∃ fop, op = .file fop ∧ s'.job.execution.fileStatuses.values =
        s.job.execution.fileStatuses.rephase fop.filename fop.newPhase ∧
      ∀ f ∈ s'.job.execution.fileStatuses.values, ∀ r ∈ s'.row.files, r.filename = f.filename →
        (f.filename ≠ fop.filename ∧ r ∈ s.row.files) ∨ r.columns = f.phase.columns) ∨ s'.PhasesHeld := by
  cases op with
  | status op =>
    cases hstep
    have hrows : (if (op.mutate s.job).2 then
        { s.row with columns := (op.mutate s.job).1.statusColumns } else s.row).files =
          s.row.files := by
      split <;> rfl
    obtain hfiles | ⟨⟨accepted, hop⟩, hfiles⟩ := op.mutate_files s.job
    · left
      exact ⟨hfiles, hrows⟩
    · right; left
      exact ⟨accepted, by rw [hop], hfiles, hrows⟩
  | file op =>
    obtain ⟨-, hfiles⟩ := op.apply_spec s.job
    simp only [Server.step] at hstep
    cases hp : op.persists <;> simp only [hp, false_eq_true, if_false, if_true] at hstep
    · cases hstep
      right; right; left
      exact ⟨op, rfl, hp, hfiles, rfl⟩
    · cases hstep
      right; right; right; left
      refine ⟨op, rfl, ?_, ?_⟩
      · rw [job_writeFile]
        exact hfiles
      · intro f hf r hr hname
        rw [job_writeFile] at hf
        exact writeFile_pair (s := { s with job := op.apply s.job }) hf hr hname
  | interruptAllForShutdown now =>
    cases hstep
    left
    exact ⟨(s.job.interruptForShutdown_spec now).1, rfl⟩
  | beginRunner =>
    cases hstep
    left
    refine ⟨?_, rfl⟩
    unfold Job.beginRunner
    split <;> rfl
  | releaseRunnerClaim =>
    cases hstep
    left
    exact ⟨rfl, rfl⟩
  | startup ttlCutoff now =>
    simp only [Server.step] at hstep
    cases hrefusal : command.refusal with
    | some refusal => simp [hrefusal] at hstep
    | none =>
      simp only [hrefusal, Option.isSome_none, false_eq_true, if_false,
        Option.map_eq_some_iff] at hstep
      obtain ⟨recovered, hrec, rfl⟩ := hstep
      obtain ⟨hfiles, hwritten, -⟩ := h.startup hrefusal hrec
      right; right; right; right
      exact PhasesHeld.of_same hfiles hwritten

theorem LeftHeld.step (h : s.LeftHeld) (hstored : s.Stored) (hspares : s.SparesFailed op)
    (hstep : s.step command op = some s') : s'.LeftHeld := by
  intro f hf r hr hname hopen
  obtain ⟨hfiles, hrows⟩ | ⟨accepted, hop, hfiles, hrows⟩ | ⟨fop, -, hp, hfiles, hrows⟩ |
    ⟨fop, -, hfiles, hpair⟩ | hheld := step_files hstored hstep
  · rw [hfiles] at hf
    rw [hrows] at hr
    exact h f hf r hr hname hopen
  · subst hop
    rw [hfiles, FileStatuses.mapValues_values] at hf
    rw [hrows] at hr
    obtain ⟨g, hg, rfl⟩ := mem_map.mp hf
    apply h g hg r hr hname
    -- a file queued again did not write output and did not fail, so it was left to do
    have hspared : g.status ≠ .error := hspares g hg
    cases hwrote : g.status.wroteOutput
    · revert hspared hwrote
      cases g.status <;> simp [FileStatusKind.wroteOutput, FileStatusKind.isTerminal]
    · simpa only [hwrote, if_true] using hopen
  · rw [hfiles] at hf
    rw [hrows] at hr
    obtain ⟨-, hf⟩ | ⟨hthis, g, hg, hg', hphase⟩ := FileStatuses.mem_rephase hf
    · exact h f hf r hr hname hopen
    · apply h g hg r hr (hname.trans (hthis.trans hg'.symm))
      rw [FileStatus.status, hphase, FileOp.isTerminal_newPhase_of_not_persists hp] at hopen
      exact hopen
  · obtain ⟨hother, hr⟩ | hwritten := hpair f hf r hr hname
    · rw [hfiles] at hf
      obtain ⟨-, hf⟩ | ⟨hthis, -⟩ := FileStatuses.mem_rephase hf
      · exact h f hf r hr hname hopen
      · exact absurd hthis hother
    · rw [hwritten, FilePhase.status_columns]
      exact hopen
  · rw [hheld f hf r hr hname, FilePhase.status_columns]
    exact hopen

theorem PhasesHeld.step (h : s.PhasesHeld) (hstored : s.Stored) (hkeeps : s.KeepsPhases op)
    (hstep : s.step command op = some s') : s'.PhasesHeld := by
  intro f hf r hr hname
  obtain ⟨hfiles, hrows⟩ | ⟨accepted, hop, hfiles, hrows⟩ | ⟨fop, hop, hp, hfiles, hrows⟩ |
    ⟨fop, -, hfiles, hpair⟩ | hheld := step_files hstored hstep
  · rw [hfiles] at hf
    rw [hrows] at hr
    exact h f hf r hr hname
  · subst hop
    rw [hfiles, FileStatuses.mapValues_values] at hf
    rw [hrows] at hr
    obtain ⟨g, hg, rfl⟩ := mem_map.mp hf
    have hrow := h g hg r hr hname
    rw [hrow]
    obtain hwrote | hqueued := hkeeps g hg
    · simp [hwrote]
    · simp [hqueued, FileStatus.status, FileStatus.requeue]
  · subst hop
    rw [hfiles] at hf
    rw [hrows] at hr
    obtain ⟨-, hf⟩ | ⟨hthis, g, hg, hg', hphase⟩ := FileStatuses.mem_rephase hf
    · exact h f hf r hr hname
    · rw [hphase, h g hg r hr (hname.trans (hthis.trans hg'.symm))]
      cases fop with
      | clearFileRetryState filename => rw [hkeeps g hg hg']
      | _ => cases hp
  · obtain ⟨hother, hr⟩ | hwritten := hpair f hf r hr hname
    · rw [hfiles] at hf
      obtain ⟨-, hf⟩ | ⟨hthis, -⟩ := FileStatuses.mem_rephase hf
      · exact h f hf r hr hname
      · exact absurd hthis hother
    · exact hwritten
  · exact hheld f hf r hr hname

end Server

theorem JobRow.loadable_iff (row : JobRow X D) (command : StoredCommand) (ttlCutoff : MachineTime) :
    row.Loadable command ttlCutoff ↔ ttlCutoff ≤ row.submittedAt ∧ command.known = true ∧
      (command.refusal = none → ∀ p ∈ row.files.map (fun r => (r.filename, r.columns.status.isTerminal)),
          p.2 = true → command.artifact p.1 ≠ none) := by
  simp [JobRow.Loadable, JobRow.fileStatuses, FileStatusRow.file, FileStatus.status]

theorem JobRow.loadable_recoverInterrupted (row : JobRow X D) (command : StoredCommand)
    (ttlCutoff now : MachineTime) :
    (row.recoverInterrupted now).Loadable command ttlCutoff ↔ row.Loadable command ttlCutoff := by
  have hterminal : (row.recoverInterrupted now).files.map
        (fun r => (r.filename, r.columns.status.isTerminal)) =
      row.files.map (fun r => (r.filename, r.columns.status.isTerminal)) := by
    unfold JobRow.recoverInterrupted
    split
    · simp only [JobRow.mapColumns, map_map]
      apply map_congr_left
      intro r _
      simp only [comp_apply]
      split
      · rfl
      · simp
    · rfl
  have hsubmitted : (row.recoverInterrupted now).submittedAt = row.submittedAt := by
    unfold JobRow.recoverInterrupted
    split <;> rfl
  rw [JobRow.loadable_iff, JobRow.loadable_iff, hterminal, hsubmitted]

theorem JobRow.startup_eq (row : JobRow X D) (command : StoredCommand) (ttlCutoff now : MachineTime) :
    row.startup command ttlCutoff now = if row.Loadable command ttlCutoff then
        some ((row.recoverInterrupted now).reconciled command) else none := by
  unfold JobRow.startup JobRow.load
  simp only [row.loadable_recoverInterrupted command ttlCutoff now]

theorem appendRecoveryNote_ne (existing : Option String) (note : String) :
    appendRecoveryNote existing note ≠ existing := by
  cases existing with
  | none => simp [appendRecoveryNote]
  | some existing =>
    unfold appendRecoveryNote
    simp only
    split
    · next hblank =>
      -- a blank text is not the note, which starts with a bracket
      intro heq
      rw [← Option.some.inj heq] at hblank
      simp at hblank
    · intro heq
      have hlength := congrArg String.length (Option.some.inj heq)
      simp only [String.length_append] at hlength
      have hpositive : 0 < "\n[recovery] ".length := by decide
      omega

namespace Server

variable {s : Server X D} {command : StoredCommand}

theorem Stored.unfinished_iff (h : s.Stored) :
    (∀ filename, filename ∈ s.row.unfinishedFiles ↔ filename ∈ s.job.unfinishedFiles) ↔ s.LeftHeld := by
  constructor
  · intro hsame f hf r hr hname hopen
    have hmem := (hsame f.filename).mpr (Job.mem_unfinishedFiles.mpr ⟨f, hf, hopen, rfl⟩)
    obtain ⟨r', hr', hopen', hname'⟩ := JobRow.mem_unfinishedFiles.mp hmem
    have hrr : r = r' :=
      inj_on_of_nodup_map s.row.nodup hr hr' (hname.trans hname'.symm)
    rw [hrr]
    exact hopen'
  · intro hheld filename
    constructor
    · intro hmem
      obtain ⟨r, hr, hopen, rfl⟩ := JobRow.mem_unfinishedFiles.mp hmem
      have hthere : r.filename ∈ s.job.execution.fileStatuses.values.map FileStatus.filename := by
        rw [← h.names]
        exact mem_map_of_mem hr
      obtain ⟨f, hf, hname⟩ := mem_map.mp hthere
      refine Job.mem_unfinishedFiles.mpr ⟨f, hf, ?_, hname⟩
      by_contra hterminal
      have hrow := h.recorded f hf r hr hname.symm (by simpa using hterminal)
      rw [hopen] at hrow
      cases hrow
    · intro hmem
      obtain ⟨f, hf, hopen, rfl⟩ := Job.mem_unfinishedFiles.mp hmem
      have hthere : f.filename ∈ s.row.files.map FileStatusRow.filename := by
        rw [h.names]
        exact mem_map_of_mem hf
      obtain ⟨r, hr, hname⟩ := mem_map.mp hthere
      exact JobRow.mem_unfinishedFiles.mpr ⟨r, hr, hheld f hf r hr hname hopen, hname⟩

theorem files_eq {a b : List (FileStatus X D)}
    (hnames : a.map FileStatus.filename = b.map FileStatus.filename)
    (h : ∀ x ∈ a, ∀ y ∈ b, x.filename = y.filename → x = y) : a = b := by
  induction a generalizing b with
  | nil => exact (map_eq_nil_iff.mp hnames.symm).symm
  | cons x a ih =>
    cases b with
    | nil => cases hnames
    | cons y b =>
      simp only [map_cons, cons.injEq] at hnames
      have hxy := h x mem_cons_self y mem_cons_self hnames.1
      have hrest := ih hnames.2 (fun x' hx' y' hy' =>
        h x' (mem_cons_of_mem x hx') y' (mem_cons_of_mem y hy'))
      rw [hxy, hrest]

section
variable (h : s.Stored)
include h

theorem Stored.phasesHeld_iff : s.row.fileStatuses = s.job.execution.fileStatuses ↔ s.PhasesHeld := by
  constructor
  · intro hsame
    exact PhasesHeld.of_same hsame h.written
  · intro hheld
    apply FileStatuses.ext
    apply files_eq
    · rw [← h.names]
      simp [JobRow.fileStatuses, FileStatusRow.file, comp_def]
    · intro x hx f hf hname
      obtain ⟨r, hr, rfl⟩ := mem_map.mp hx
      have hrow := hheld f hf r hr hname
      have hphase : r.columns.phase = f.phase := by
        rw [hrow, FilePhase.phase_columns (h.storable f hf)]
      cases f
      simp only [FileStatusRow.file, FileStatus.mk.injEq]
      exact ⟨hname, hphase⟩

theorem Stored.row_unfinished (hun : s.Unfinished) :
    s.row.columns.status.isActive = true ∨ s.row.columns.status = .interrupted := by
  obtain hcols | ⟨-, hactive⟩ := h.columns
  · rw [hcols]
    exact hun
  · left
    exact hactive

theorem Stored.not_comesBack_of_refused {refusal : String} (hrefusal : command.refusal = some refusal)
    (ttlCutoff now : MachineTime) : ¬ s.ComesBack command ttlCutoff now := by
  rintro ⟨recovered, hrec, hback⟩
  rw [JobRow.startup_eq] at hrec
  split at hrec
  · have hjob : recovered.1 = (s.row.recoverInterrupted now).job command := by
      rw [← Option.some.inj hrec, JobRow.reconciled_job]
      simp [JobRow.job, hrefusal, JobStatus.isRecoverable]
    by_cases hun : s.Unfinished
    · rw [if_pos hun, hjob] at hback
      simp [JobRow.job, hrefusal] at hback
    · rw [if_neg hun, hjob] at hback
      obtain ⟨-, herror, -⟩ := hback
      simp only [Unfinished, not_or] at hun
      have hcols := h.columns.resolve_right (fun hint => hun.2 hint.1)
      have hrow : s.row.recoverInterrupted now = s.row := by
        unfold JobRow.recoverInterrupted
        rw [if_neg]
        rw [hcols]
        exact hun.1
      rw [hrow] at herror
      simp only [JobRow.job, hrefusal, Option.elim_some] at herror
      rw [show s.job.execution.error = s.row.columns.error from by rw [hcols]; rfl] at herror
      exact appendRecoveryNote_ne _ _ herror
  · cases hrec

theorem Stored.comesBack_unfinished (hadmitted : command.refusal = none)
    (hload : s.row.Loadable command ttlCutoff) (hun : s.Unfinished) :
    s.ComesBack command ttlCutoff now ↔ s.job.unfinishedFiles ≠ [] ∧ s.LeftHeld := by
  have hrec : s.row.startup command ttlCutoff now =
      some ((s.row.recoverInterrupted now).reconciled command) := by
    rw [JobRow.startup_eq, if_pos hload]
  have hleft := recovered_unfinished hrec
  have hstatus : ((s.row.recoverInterrupted now).job command).execution.status = .interrupted := by
    simp [JobRow.job, hadmitted, JobRow.status_recoverInterrupted now (h.row_unfinished hun)]
  have hjob : ((s.row.recoverInterrupted now).reconciled command).1 =
      ((s.row.recoverInterrupted now).job command).reconcileRecoveredRuntimeState.1 := by
    rw [JobRow.reconciled_job, hstatus]
    rfl
  have hback : s.ComesBack command ttlCutoff now ↔
      ((s.row.recoverInterrupted now).reconciled command).1.execution.status = .queued ∧
        ∀ filename, filename ∈ s.row.unfinishedFiles ↔ filename ∈ s.job.unfinishedFiles := by
    simp [ComesBack, hrec, if_pos hun, hleft]
  rw [hback, h.unfinished_iff]
  rw [hjob] at hleft
  rw [Job.unfinishedFiles_reconcile] at hleft
  have hrowleft : s.LeftHeld → (s.row.unfinishedFiles = [] ↔ s.job.unfinishedFiles = []) := by
    intro hheld
    simp only [eq_nil_iff_forall_not_mem, h.unfinished_iff.mpr hheld]
  rw [and_congr_left_iff]
  intro hheld
  rw [hjob, ne_eq, ← hrowleft hheld, ← hleft]
  obtain ⟨-, hsome, hqueued, -⟩ | ⟨-, hnone, -⟩ :=
    ((s.row.recoverInterrupted now).job command).reconcile_cases
  · have haccepted : ((s.row.recoverInterrupted now).job
        command).execution.status.canTransitionTo .queued .reconcile = true := by
      rw [hstatus]
      rfl
    rw [hqueued, Job.setStatus_eq_of_accepted _ haccepted]
    simpa using hsome
  · obtain ⟨hverdict, -⟩ := Job.reconcile_finished (by rw [hstatus]; rfl) hnone
    rw [hverdict, hnone]
    split <;> simp

theorem Stored.comesBack_finished (hadmitted : command.refusal = none)
    (hload : s.row.Loadable command ttlCutoff) (hun : ¬ s.Unfinished) :
    s.ComesBack command ttlCutoff now ↔ s.PhasesHeld := by
  have hun' := hun
  simp only [Unfinished, not_or] at hun'
  have hcols := h.columns.resolve_right (fun hint => hun'.2 hint.1)
  have hrow : s.row.recoverInterrupted now = s.row := by
    unfold JobRow.recoverInterrupted
    rw [if_neg]
    rw [hcols]
    exact hun'.1
  have hrec : s.row.startup command ttlCutoff now = some (s.row.reconciled command) := by
    rw [JobRow.startup_eq, if_pos hload, hrow]
  have hjob : (s.row.reconciled command).1 = s.row.job command := by
    have hnot : s.job.execution.status.isRecoverable = false := by
      revert hun'
      cases s.job.execution.status <;> simp [JobStatus.isActive, JobStatus.isRecoverable]
    rw [JobRow.reconciled_job]
    simp [JobRow.job, hadmitted, hcols, Job.statusColumns, hnot]
  have hstatus : (s.row.job command).execution.status = s.job.execution.status := by
    simp [JobRow.job, hadmitted, hcols, Job.statusColumns]
  have herror : (s.row.job command).execution.error = s.job.execution.error := by
    simp [JobRow.job, hadmitted, hcols, Job.statusColumns]
  rw [← h.phasesHeld_iff]
  simp only [ComesBack, hrec, Option.some.injEq, exists_eq_left', if_neg hun, hjob, hstatus,
    herror, true_and]
  rfl

theorem Stored.comesBack_iff (command : StoredCommand)
    (ttlCutoff now : MachineTime) : s.ComesBack command ttlCutoff now ↔
      command.refusal = none ∧ s.row.Loadable command ttlCutoff ∧ s.Held := by
  cases hrefusal : command.refusal with
  | some refusal =>
    simp only [reduceCtorEq, false_and, iff_false]
    exact h.not_comesBack_of_refused hrefusal ttlCutoff now
  | none =>
    by_cases hload : s.row.Loadable command ttlCutoff
    · unfold Held
      by_cases hun : s.Unfinished
      · simp only [if_pos hun, hload, true_and]
        exact h.comesBack_unfinished hrefusal hload hun
      · simp only [if_neg hun, hload, true_and]
        exact h.comesBack_finished hrefusal hload hun
    · -- a row that is not loaded gives no job
      simp [ComesBack, JobRow.startup_eq, hload]

end

variable {recovered : Job X D × JobRow X D}

/-! ## A second crash -/

theorem startup_loadable (hrec : row.startup command ttlCutoff now = some recovered)
    (hsame : recovered.2.fileStatuses = recovered.1.execution.fileStatuses) :
    recovered.2.Loadable command ttlCutoff := by
  rw [JobRow.startup_eq] at hrec
  split at hrec
  case isFalse => cases hrec
  case isTrue hload =>
    obtain ⟨hretained, hknown, hartifact⟩ := (row.loadable_recoverInterrupted command ttlCutoff now).mpr hload
    generalize row.recoverInterrupted now = row at hrec hretained hartifact
    cases hrec
    refine ⟨?_, hknown, ?_⟩
    · simp only [JobRow.reconciled]
      split <;> split <;> exact hretained
    · intro hadmitted f hf hterminal
      rw [hsame, JobRow.reconciled_job] at hf
      split at hf
      · obtain ⟨-, -, -, hfiles⟩ | ⟨-, -, hfiles⟩ := (row.job command).reconcile_cases
        · rw [hfiles] at hf
          obtain ⟨g, hg, rfl⟩ := mem_map.mp hf
          apply hartifact hadmitted g hg
          -- a file requeued is not terminal
          by_contra hopen
          have hres : g.status.isResumable = true := by simpa [FileStatusKind.isResumable_eq] using hopen
          change (if g.status.isResumable then g.requeue.phase else g.phase).kind.isTerminal = true at hterminal
          rw [if_pos hres] at hterminal
          exact Bool.false_ne_true hterminal
        · rw [hfiles] at hf
          exact hartifact hadmitted f hf hterminal
      · exact hartifact hadmitted f hf hterminal

theorem startup_held (hadmitted : command.refusal = none)
    (hrec : row.startup command ttlCutoff now = some recovered)
    (hphases : PhasesHeld ⟨recovered.1, recovered.2⟩) : Held ⟨recovered.1, recovered.2⟩ := by
  have hleft := recovered_unfinished hrec
  rw [JobRow.startup_eq] at hrec
  split at hrec
  case isFalse => cases hrec
  case isTrue hload =>
    have hjob := (row.recoverInterrupted now).reconciled_job command
    rw [Option.some.inj hrec] at hjob
    unfold Held
    split_ifs with hun
    · refine ⟨?_, ?_⟩
      · intro hnone
        have hactive : (row.recoverInterrupted now).columns.status.isActive = false := by
          unfold JobRow.recoverInterrupted
          split
          · rfl
          · next hactive => simpa using hactive
        split at hjob
        · next hrecoverable =>
          rw [hjob] at hnone hun
          obtain ⟨hverdict, -⟩ := Job.reconcile_finished hrecoverable
            (((row.recoverInterrupted now).job command).unfinishedFiles_reconcile ▸ hnone)
          simp only [Unfinished, hverdict] at hun
          split at hun <;> simp [JobStatus.isActive] at hun
        · next hrecoverable =>
          rw [hjob] at hun
          obtain hun | hun := hun
          · rw [show ((row.recoverInterrupted now).job command).execution.status =
              (row.recoverInterrupted now).columns.status by simp [JobRow.job, hadmitted], hactive] at hun
            cases hun
          · exact hrecoverable (by rw [hun]; rfl)
      · intro f hf r hr hname hopen
        rw [hphases f hf r hr hname, FilePhase.status_columns]
        exact hopen
    · exact hphases

end Server

/-- After every run from a submission and a crash, the startup brings the job back as it was exactly
  when its row is loaded and admitted and its files are held. Restarts that meet no failed file and
  requeue nothing, and retries cleared only when none is pending, keep them held. -/
theorem startup_resumes_iff (command : StoredCommand) (submittedAt : MachineTime)
    (filenames : List String) (hnodup : filenames.Nodup) (ops : List (ServerOp X D))
    (s : Server X D)
    (hrun : Runs.run (Server.step command) (Server.submitted submittedAt filenames hnodup) ops =
      some s) (ttlCutoff now : MachineTime) : (s.ComesBack command ttlCutoff now ↔
      command.refusal = none ∧ s.row.Loadable command ttlCutoff ∧ s.Held) ∧
    (Runs.Along (Server.step command) Server.SparesFailed
        (Server.submitted submittedAt filenames hnodup) ops → s.LeftHeld) ∧
    (Runs.Along (Server.step command) Server.KeepsPhases
        (Server.submitted submittedAt filenames hnodup) ops → s.PhasesHeld) := by
  have hsubmitted := Server.Stored.submitted (X := X) (D := D) submittedAt filenames hnodup
  have hphases : (Server.submitted (X := X) (D := D) submittedAt filenames hnodup).PhasesHeld := by
    intro f hf r hr _
    obtain ⟨_, _, rfl⟩ := mem_map.mp hf
    obtain ⟨_, _, rfl⟩ := mem_map.mp hr
    rfl
  have hleft : (Server.submitted (X := X) (D := D) submittedAt filenames hnodup).LeftHeld := by
    intro f hf r hr hname hopen
    rw [hphases f hf r hr hname, FilePhase.status_columns]
    exact hopen
  have hstored := Runs.run_invariant (fun _ _ _ h hstep => h.step hstep) hsubmitted hrun
  refine ⟨hstored.comesBack_iff command ttlCutoff now, ?_, ?_⟩
  · intro hspares
    have hheld : s.Stored ∧ s.LeftHeld := by
      refine Runs.run_preserves (I := fun s => s.Stored ∧ s.LeftHeld) ?_ ⟨hsubmitted, hleft⟩
        hspares hrun
      intro s op s' ⟨hs, hheld⟩ hp hstep
      exact ⟨hs.step hstep, hheld.step hs hp hstep⟩
    exact hheld.2
  · intro hkeeps
    have hheld : s.Stored ∧ s.PhasesHeld := by
      refine Runs.run_preserves (I := fun s => s.Stored ∧ s.PhasesHeld) ?_
        ⟨hsubmitted, hphases⟩ hkeeps hrun
      intro s op s' ⟨hs, hheld⟩ hp hstep
      exact ⟨hs.step hstep, hheld.step hs hp hstep⟩
    exact hheld.2

def runningOneFile : List (ServerOp Unit Unit) :=
  [.status .markJobRunning, .file (.startFileAttempt "a.cha" 5)]

def restartedAfterFailure : List (ServerOp Unit Unit) :=
  runningOneFile ++ [.file (.markFileError "a.cha" ⟨"worker crashed", .workerCrash, 9⟩),
    .status (.failJob "worker crashed" 10), .status (.restart true)]

theorem startup_resumes_running_file :
    ∃ s, Runs.run (Server.step permissiveCommand) (Server.submitted 0 ["a.cha"] (by simp))
        runningOneFile = some s ∧ s.ComesBack permissiveCommand 0 20 := by
  refine ⟨_, rfl, ?_⟩
  obtain ⟨hiff, hleft, -⟩ := startup_resumes_iff permissiveCommand 0 ["a.cha"] (by simp)
    runningOneFile _ rfl 0 20
  refine hiff.mpr ⟨rfl, by decide, ?_⟩
  refine (if_pos (Or.inl rfl)).mpr ⟨by decide, hleft ?_⟩
  exact fun _ _ => ⟨trivial, fun _ _ => ⟨trivial, trivial⟩⟩

/-- The restarted job is queued; its row still says the file failed. -/
theorem restarted_job_stored_failed :
    ∃ s, Runs.run (Server.step permissiveCommand) (Server.submitted 0 ["a.cha"] (by simp))
        restartedAfterFailure = some s ∧
      s.job.execution.status = .queued ∧ s.job.unfinishedFiles = ["a.cha"] ∧
      (∃ recovered, s.row.startup permissiveCommand 0 20 = some recovered ∧
        recovered.1.execution.status = .failed ∧ recovered.1.unfinishedFiles = []) ∧
      ¬ s.ComesBack permissiveCommand 0 20 := by
  refine ⟨_, rfl, rfl, rfl, ⟨_, rfl, rfl, rfl⟩, ?_⟩
  rintro ⟨recovered, hrec, hback⟩
  cases hrec
  cases ((if_pos (Or.inl rfl)).mp hback).1

/-- Right after a startup, a crash loses nothing, whatever the run before it was. -/
theorem startup_resumes_again (command : StoredCommand) (submittedAt : MachineTime) (filenames : List String)
    (hnodup : filenames.Nodup) (ops : List (ServerOp X D)) (s s' : Server X D)
    (hrun : Runs.run (Server.step command) (Server.submitted submittedAt filenames hnodup) ops = some s)
    {ttlCutoff now : MachineTime} (hstep : s.step command (.startup ttlCutoff now) = some s')
    (now' : MachineTime) : s'.ComesBack command ttlCutoff now' := by
  have hstored := Runs.run_invariant (fun _ _ _ h hstep => h.step hstep)
    (Server.Stored.submitted submittedAt filenames hnodup) hrun
  have hstored' := hstored.step hstep
  simp only [Server.step] at hstep
  split at hstep
  · cases hstep
  · rename_i hnot
    have hadmitted : command.refusal = none := by simpa using hnot
    obtain ⟨recovered, hrec, rfl⟩ := Option.map_eq_some_iff.mp hstep
    obtain ⟨hsame, hwritten, -⟩ := hstored.startup hadmitted hrec
    have hphases := Server.PhasesHeld.of_same (s := ⟨recovered.1, recovered.2⟩) hsame hwritten
    exact (hstored'.comesBack_iff command ttlCutoff now').mpr
      ⟨hadmitted, Server.startup_loadable hrec hsame, Server.startup_held hadmitted hrec hphases⟩

theorem startup_resumes_again_failed :
    ∃ s s', Runs.run (Server.step permissiveCommand) (Server.submitted 0 ["a.cha"] (by simp))
        restartedAfterFailure = some s ∧ s.step permissiveCommand (.startup 0 20) = some s' ∧
      s'.ComesBack permissiveCommand 0 30 := by
  refine ⟨_, _, rfl, rfl, ?_⟩
  exact startup_resumes_again permissiveCommand 0 ["a.cha"] (by simp) restartedAfterFailure _ _ rfl rfl 30

end Batchalign.Store
