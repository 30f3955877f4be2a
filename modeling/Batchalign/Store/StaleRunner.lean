import Batchalign.Store.Job

/- Stale runner (`store/registry.rs`, `runner/execution.rs`). A runner claims a job's run generation and
   issues one operation after another (`RunnerPoint.step`, from `run_hosted_job`); a restart moves the
   job on while it is alive. `sweeping`, `forcing` and `labelled` are `force_terminal_file_states`. The
   early checks of the cancellation token, the memory reservation, the media preflight and the dispatch
   may go either way. -/

namespace Batchalign.Store

variable {X D : Type}

def Job.finalizeJob (job : Job X D) (expectedGeneration : Nat) (finalStatus : JobStatus)
    (completedAt : MachineTime) : Job X D :=
  if job.runtime.runGeneration ≠ expectedGeneration then job
  else (job.finalize finalStatus completedAt).1

/-- The store operations a runner issues. -/
inductive RunnerOp (X D : Type) where
  | requeueAfterMemoryGate (retryAt : MachineTime)
  | failJob (error : String) (completedAt : MachineTime)
  | markJobRunning
  | recordJobWorkerCount (numWorkers : Nat)
  | markFileProcessing (filename : String) (startedAt : MachineTime)
  | markFileDone (filename : String) (finishedAt : MachineTime) (completion : FileCompletion X D)
  | markFileError (filename : String) (failure : FileFailureRecord)
  | startFileAttempt (filename : String) (startedAt : MachineTime)
  | markFileRetryPending (filename : String) (retry : FileRetryRecord)
  | clearFileRetryState (filename : String)
  | finalizeJob (expectedGeneration : Nat) (finalStatus : JobStatus) (completedAt : MachineTime)

namespace RunnerOp

def apply : RunnerOp X D → Job X D → Job X D
  | requeueAfterMemoryGate retryAt, job => (job.requeueAfterMemoryGate retryAt).1
  | failJob error completedAt, job => (job.fail error completedAt).1
  | markJobRunning, job => job.markRunning.1
  | recordJobWorkerCount n, job => job.recordWorkerCount n
  | markFileProcessing filename startedAt, job => (job.markFileProcessing filename startedAt).1
  | markFileDone filename finishedAt completion, job =>
    (job.markFileDone filename finishedAt completion).1
  | markFileError filename failure, job => (job.markFileError filename failure).1
  | startFileAttempt filename startedAt, job => (job.startFileAttempt filename startedAt).1
  | markFileRetryPending filename retry, job => (job.markFileRetryPending filename retry).1
  | clearFileRetryState filename, job => (job.clearFileRetryState filename).1
  | finalizeJob g finalStatus completedAt, job => job.finalizeJob g finalStatus completedAt

/-- What a dispatch may issue: its files' operations, and a failed job. -/
def ofDispatch : RunnerOp X D → Bool
  | failJob .. | markFileProcessing .. | markFileDone .. | markFileError ..
  | startFileAttempt .. | markFileRetryPending .. | clearFileRetryState .. => true
  | _ => false

end RunnerOp

inductive UnfinishedFileCause where
  | cancelled
  | unexpectedExit

def finalizeStatus (cancelled anyFailed : Bool) (forcedErrors : Nat) : JobStatus :=
  if cancelled then .cancelled
  else if 0 < forcedErrors || anyFailed then .failed
  else .completed

def FileStatusKind.label : FileStatusKind → String
  | queued => "queued"
  | processing => "processing"
  | done => "done"
  | diagnosed => "diagnosed"
  | error => "error"
  | interrupted => "interrupted"

def Job.fileStatusLabel (job : Job X D) (filename : String) : Option String :=
  (job.execution.fileStatuses.get filename).map (fun f => f.status.label)

/-- Where a runner is in `run_hosted_job`; `g` is the generation it claimed. -/
inductive RunnerPoint where
  | unclaimed
  | claimed (g : Nat)
  | reserving (g : Nat)
  | reserved (g numWorkers : Nat)
  | markedRunning (g numWorkers : Nat)
  | preflight (g : Nat)
  /-- `record_setup_failure`: the retry state of the file is cleared, then the attempt started -/
  | setupCleared (g : Nat) (filename : String) (failure : FileFailureRecord)
  | setupStarted (g : Nat) (filename : String) (failure : FileFailureRecord)
  | dispatching (g : Nat)
  | dispatched (g : Nat)
  | current (g : Nat)
  | sweeping (g : Nat) (cause : UnfinishedFileCause)
  | forcing (g : Nat) (cause : UnfinishedFileCause) (now : MachineTime) (total : Nat)
      (left : List String)
  | labelled (g : Nat) (now : MachineTime) (total : Nat) (filename label : String)
      (left : List String)
  | swept (g forcedErrors : Nat)
  | finalizing (g : Nat) (finalStatus : JobStatus)
  | finished

def RunnerPoint.generation : RunnerPoint → Option Nat
  | unclaimed | finished => none
  | claimed g | reserving g | reserved g _ | markedRunning g _ | preflight g | setupCleared g ..
  | setupStarted g .. | dispatching g | dispatched g | current g | sweeping g _ | forcing g .. | labelled g .. | swept g _
  | finalizing g _ => some g

/-- What the world answers at a step: a check, a reservation, an operation of the dispatch, the time. -/
inductive Answer (X D : Type) where
  | proceed
  | tokenCancelled
  | granted (numWorkers : Nat)
  | capacityRequeued (retryAt : MachineTime)
  | capacityFailed (message : String) (now : MachineTime)
  | reservationFatal (message : String) (now : MachineTime)
  | mediaFailed (filename : String) (failure : FileFailureRecord)
  | dispatchIssued (op : RunnerOp X D)
  | dispatchError (message : String) (now : MachineTime)
  | time (now : MachineTime)

/-- One step of `run_hosted_job`: where it goes, and the operation it issues, if any. -/
def RunnerPoint.step (job : Job X D) :
    RunnerPoint → Answer X D → Option (RunnerPoint × Option (RunnerOp X D))
  -- the snapshot and the two checks of the token, before and after the job slot
  | claimed g, .proceed => some (reserving g, none)
  | claimed _, .tokenCancelled => some (finished, none)
  | reserving g, .granted n => some (reserved g n, none)
  | reserving _, .capacityRequeued retryAt => some (finished, some (.requeueAfterMemoryGate retryAt))
  | reserving _, .capacityFailed message now => some (finished, some (.failJob message now))
  | reserving _, .reservationFatal message now => some (finished, some (.failJob message now))
  | reserved g n, .proceed => some (markedRunning g n, some .markJobRunning)
  | markedRunning g n, .proceed => some (preflight g, some (.recordJobWorkerCount n))
  | preflight g, .mediaFailed filename failure =>
    some (setupCleared g filename failure, some (.clearFileRetryState filename))
  | setupCleared g filename failure, .proceed =>
    some (setupStarted g filename failure, some (.startFileAttempt filename failure.finishedAt))
  | setupStarted g filename failure, .proceed =>
    some (preflight g, some (.markFileError filename failure))
  | preflight g, .proceed => some (dispatching g, none)
  | dispatching g, .dispatchIssued op =>
    if op.ofDispatch then some (dispatching g, some op) else none
  | dispatching g, .proceed => some (dispatched g, none)
  -- a dispatch error fails the job with no look at the generation
  | dispatching _, .dispatchError message now => some (finished, some (.failJob message now))
  | dispatched g, .proceed =>
    if job.runtime.runGeneration = g then some (current g, none) else some (finished, none)
  | current g, .proceed =>
    some (sweeping g (if job.runtime.cancelled then .cancelled else .unexpectedExit), none)
  | sweeping g cause, .time now =>
    if job.unfinishedFiles.isEmpty then some (swept g 0, none)
    else some (forcing g cause now job.unfinishedFiles.length job.unfinishedFiles, none)
  | forcing g .cancelled now total (filename :: left), .time finishedAt =>
    some (forcing g .cancelled now total left, some (.markFileError filename
      ⟨"File stopped after job cancellation before recording a terminal file state",
        .cancelled, finishedAt⟩))
  | forcing g .unexpectedExit now total (filename :: left), .proceed =>
    some (labelled g now total filename ((job.fileStatusLabel filename).getD "") left, none)
  | labelled g now total filename label left, .proceed =>
    some (forcing g .unexpectedExit now total left, some (.markFileError filename
      ⟨"File did not reach terminal status (last status: " ++ label ++ ")", .system, now⟩))
  | forcing g .cancelled _ _ [], .proceed => some (swept g 0, none)
  | forcing g .unexpectedExit _ total [], .proceed => some (swept g total, none)
  | swept g forcedErrors, .proceed =>
    some (finalizing g
      (finalizeStatus job.runtime.cancelled job.anyTerminalFilesFailed forcedErrors), none)
  | finalizing g finalStatus, .time now => some (finished, some (.finalizeJob g finalStatus now))
  | _, _ => none

inductive OtherOp (X D : Type) where
  | cancel (completedAt : MachineTime)
  | restart (policyAccepted : Bool)
  | beginRunner
  | releaseRunnerClaim
  | runnerOp (op : RunnerOp X D)

def Job.beginRunner (job : Job X D) : Job X D × Option Nat :=
  if job.runtime.runnerActive then (job, none)
  else ({ job with runtime := { job.runtime with runnerActive := true } },
    some job.runtime.runGeneration)

def Job.releaseLocalDispatchClaim (job : Job X D) : Job X D :=
  { job with runtime := { job.runtime with runnerActive := false } }

def OtherOp.apply : OtherOp X D → Job X D → Job X D
  | cancel completedAt, job => (job.requestCancellation completedAt).1
  | restart policyAccepted, job =>
    match job.prepareForRestart policyAccepted with
    | .ok job' => job'
    | .error _ => job
  | beginRunner, job => job.beginRunner.1
  | releaseRunnerClaim, job => job.releaseLocalDispatchClaim
  | runnerOp op, job => op.apply job

/-- A job, and where its runner is. -/
structure System (X D : Type) where
  job : Job X D
  runner : RunnerPoint

inductive Event (X D : Type) where
  | claim
  | runner (answer : Answer X D)
  | other (op : OtherOp X D)

namespace System

/-- The claim, a step, or an operation of somebody else; `none` off the point that takes it. -/
def step (w : System X D) : Event X D → Option (System X D)
  | .claim =>
    match w.runner, w.job.beginRunner with
    | .unclaimed, (job, some g) => some ⟨job, .claimed g⟩
    | .unclaimed, (job, none) => some ⟨job, .unclaimed⟩
    | _, _ => none
  | .runner answer =>
    (w.runner.step w.job answer).map (fun (point, op) =>
      ⟨match op with
        | some op => op.apply w.job
        | none => w.job, point⟩)
  | .other op => some ⟨op.apply w.job, w.runner⟩

def run : System X D → List (Event X D) → Option (System X D)
  | w, [] => some w
  | w, e :: events =>
    match w.step e with
    | some w' => w'.run events
    | none => none

def issued (w : System X D) : Event X D → Option (RunnerOp X D)
  | .runner answer => (w.runner.step w.job answer).bind Prod.snd
  | _ => none

def runnerSteps : System X D → List (Event X D) → List (RunnerOp X D × Job X D)
  | _, [] => []
  | w, e :: events =>
    match w.step e with
    | some w' => ((w.issued e).map (fun op => (op, w.job))).toList ++ w'.runnerSteps events
    | none => []

end System

section Frames

variable (job : Job X D)

theorem Job.setStatus_eq_of_refused {next : JobStatus} {reason : StatusChange}
    (h : job.execution.status.canTransitionTo next reason = false) :
    job.setStatus next reason = (job, false) := by
  simp [Job.setStatus, h]

theorem Job.setStatus_eq_of_accepted {next : JobStatus} {reason : StatusChange}
    (h : job.execution.status.canTransitionTo next reason = true) : job.setStatus next reason =
      ({ job with execution := { job.execution with status := next } }, true) := by
  simp [Job.setStatus, h]

theorem Job.markFileError_execution_eq_iff (filename : String) (failure : FileFailureRecord) :
    (job.markFileError filename failure).1.execution = job.execution ↔
      job.execution.fileStatuses.get filename = none := by
  cases hget : job.execution.fileStatuses.get filename with
  | none => simp [Job.markFileError, hget]
  | some f =>
    simp only [Job.markFileError, hget, reduceCtorEq, iff_false]
    intro h
    have hcount := congrArg JobExecutionState.completedFiles h
    simp only at hcount
    omega

end Frames

variable {g : Nat}

theorem Job.setStatus_runtime (job : Job X D) (next : JobStatus) (reason : StatusChange) :
    (job.setStatus next reason).1.runtime = job.runtime := by
  unfold Job.setStatus
  split <;> rfl

theorem Job.setFailureReasonFromFiles_runtime (job : Job X D) :
    job.setFailureReasonFromFiles.runtime = job.runtime := by
  unfold Job.setFailureReasonFromFiles
  split <;> rfl

theorem Job.finalize_runtime (job : Job X D) (finalStatus : JobStatus) (completedAt : MachineTime) :
    (job.finalize finalStatus completedAt).1.runtime = job.runtime := by
  have hset := job.setStatus_runtime finalStatus .finalize
  unfold Job.finalize
  simp only at hset ⊢
  split <;> split <;> simp [hset, Job.setFailureReasonFromFiles_runtime]

theorem RunnerOp.apply_runtime (op : RunnerOp X D) (job : Job X D) :
    (op.apply job).runtime = job.runtime := by
  cases op with
  | requeueAfterMemoryGate retryAt =>
    have hset := job.setStatus_runtime .queued .memoryRequeue
    simp only [apply, Job.requeueAfterMemoryGate]
    split
    · rfl
    · next h => rw [h] at hset; exact hset
  | failJob error completedAt =>
    have hset := job.setStatus_runtime .failed .finalize
    simp only [apply, Job.fail]
    split
    · rfl
    · next h => rw [h] at hset; exact hset
  | markJobRunning =>
    have hset := job.setStatus_runtime .running .dispatch
    simp only [apply, Job.markRunning]
    split
    · rfl
    · next h => rw [h] at hset; exact hset
  | recordJobWorkerCount n => rfl
  | markFileProcessing filename startedAt =>
    simp only [apply, Job.markFileProcessing]
    split <;> rfl
  | markFileDone filename finishedAt completion =>
    simp only [apply, Job.markFileDone]
    split <;> rfl
  | markFileError filename failure =>
    simp only [apply, Job.markFileError]
    split <;> rfl
  | startFileAttempt filename startedAt =>
    simp only [apply, Job.startFileAttempt, Job.markFileProcessing]
    split <;> rfl
  | markFileRetryPending filename retry =>
    simp only [apply, Job.markFileRetryPending]
    split <;> rfl
  | clearFileRetryState filename =>
    simp only [apply, Job.clearFileRetryState]
    split
    · rfl
    · split <;> rfl
  | finalizeJob expected finalStatus completedAt =>
    simp only [apply, Job.finalizeJob]
    split
    · rfl
    · exact job.finalize_runtime finalStatus completedAt

theorem Job.requestCancellation_runGeneration (job : Job X D) (completedAt : MachineTime) :
    (job.requestCancellation completedAt).1.runtime.runGeneration = job.runtime.runGeneration := by
  have hset := Job.setStatus_runtime
    { job with runtime := { job.runtime with cancelled := true } } .cancelled .interrupt
  simp only [Job.requestCancellation, Job.stop, Stop.status]
  generalize Job.setStatus _ _ _ = outcome at hset ⊢
  obtain ⟨job', applied⟩ := outcome
  cases applied
  · rfl
  · simp only [Job.adoptStatusColumns] at hset ⊢
    rw [hset]

theorem OtherOp.runGeneration_le_apply (op : OtherOp X D) (job : Job X D) :
    job.runtime.runGeneration ≤ (op.apply job).runtime.runGeneration := by
  cases op with
  | cancel completedAt =>
    rw [apply, job.requestCancellation_runGeneration completedAt]
  | restart policyAccepted =>
    simp only [apply, Job.prepareForRestart]
    split
    · next h =>
      split at h
      · cases h
      · split at h
        · cases h
        · cases h
          exact Nat.le_succ _
    · exact le_refl _
  | beginRunner =>
    simp only [apply, Job.beginRunner]
    split <;> exact le_refl _
  | releaseRunnerClaim => exact le_refl _
  | runnerOp op =>
    rw [apply, op.apply_runtime]

variable {job : Job X D}

theorem RunnerPoint.step_generation {point next : RunnerPoint}
    {answer : Answer X D} {op : Option (RunnerOp X D)}
    (hg : point.generation = some g) (hstep : point.step job answer = some (next, op)) :
    next.generation = some g ∨ next = .finished := by
  unfold RunnerPoint.step at hstep
  -- one case for each line of the program; a pair it does not have leaves no step
  split at hstep
  all_goals first
    | (cases hstep; done)
    | simp only [generation, Option.some.injEq] at hg
      subst hg
      first
        | cases hstep
          simp [generation]
        | split at hstep
          all_goals cases hstep
          all_goals simp [generation]

namespace System

/-- The runner is over, or it holds generation `g`, which the job has left. -/
structure Stale (g : Nat) (w : System X D) : Prop where
  holds : w.runner.generation = some g ∨ w.runner = .finished
  passed : g < w.job.runtime.runGeneration

theorem Stale.step {w w' : System X D} (h : w.Stale g) {e : Event X D}
    (hstep : w.step e = some w') : w'.Stale g := by
  cases e with
  | claim =>
    -- the runner has claimed already
    have hne : w.runner ≠ .unclaimed := by
      intro hu
      have hholds := h.holds
      rw [hu] at hholds
      simp [RunnerPoint.generation] at hholds
    simp only [System.step] at hstep
    split at hstep
    · next heq _ => exact absurd heq hne
    · next heq _ => exact absurd heq hne
    · cases hstep
  | other op =>
    cases hstep
    refine ⟨h.holds, ?_⟩
    calc
      g < w.job.runtime.runGeneration := h.passed
      _ ≤ (op.apply w.job).runtime.runGeneration := op.runGeneration_le_apply w.job
  | runner answer =>
    simp only [System.step, Option.map_eq_some_iff] at hstep
    obtain ⟨⟨next, o⟩, hpoint, hw'⟩ := hstep
    subst hw'
    constructor
    · obtain hlive | hdone := h.holds
      · exact RunnerPoint.step_generation hlive hpoint
      · rw [hdone] at hpoint
        cases hpoint
    · cases o with
      | none => exact h.passed
      | some op =>
        simp only [op.apply_runtime]
        exact h.passed

end System

/-! What a restart leaves to the old runner. -/

def Job.filenames (job : Job X D) : List String :=
  job.execution.fileStatuses.values.map FileStatus.filename

theorem FileStatuses.filenames_mapValues (m : FileStatuses X D) (f : FileStatus X D → FilePhase X D) :
    (m.mapValues f).values.map FileStatus.filename = m.values.map FileStatus.filename := by
  simp [mapValues, Function.comp_def]

variable {filename : String}

theorem Job.get_eq_none_iff :
    job.execution.fileStatuses.get filename = none ↔ filename ∉ job.filenames := by
  simp [FileStatuses.get, filenames]

theorem Job.setStatus_fileStatuses (job : Job X D) (next : JobStatus) (reason : StatusChange) :
    (job.setStatus next reason).1.execution.fileStatuses = job.execution.fileStatuses := by
  unfold Job.setStatus
  split <;> rfl

theorem Job.setFailureReasonFromFiles_fileStatuses (job : Job X D) :
    job.setFailureReasonFromFiles.execution.fileStatuses = job.execution.fileStatuses := by
  unfold Job.setFailureReasonFromFiles
  split <;> rfl

theorem Job.finalize_fileStatuses (job : Job X D) (finalStatus : JobStatus) (completedAt : MachineTime) :
    (job.finalize finalStatus completedAt).1.execution.fileStatuses = job.execution.fileStatuses := by
  have hset := job.setStatus_fileStatuses finalStatus .finalize
  unfold Job.finalize
  simp only at hset ⊢
  split <;> split <;> simp [hset, Job.setFailureReasonFromFiles_fileStatuses]

theorem RunnerOp.apply_filenames (op : RunnerOp X D) (job : Job X D) :
    (op.apply job).filenames = job.filenames := by
  have hset := job.setStatus_fileStatuses
  have hphase := fun filename phase => FileStatuses.filenames_mapValues job.execution.fileStatuses
    (fun s => if s.filename = filename then phase else s.phase)
  unfold Job.filenames
  cases op with
  | requeueAfterMemoryGate retryAt =>
    have hset := hset .queued .memoryRequeue
    simp only [apply, Job.requeueAfterMemoryGate]
    split
    · rfl
    · next h =>
      rw [h] at hset
      exact congrArg (fun m => m.values.map FileStatus.filename) hset
  | failJob error completedAt =>
    have hset := hset .failed .finalize
    simp only [apply, Job.fail]
    split
    · rfl
    · next h =>
      rw [h] at hset
      exact congrArg (fun m => m.values.map FileStatus.filename) hset
  | markJobRunning =>
    have hset := hset .running .dispatch
    simp only [apply, Job.markRunning]
    split
    · rfl
    · next h =>
      rw [h] at hset
      exact congrArg (fun m => m.values.map FileStatus.filename) hset
  | recordJobWorkerCount n => rfl
  | markFileProcessing filename startedAt =>
    simp only [apply, Job.markFileProcessing]
    split
    · rfl
    · exact hphase _ _
  | markFileDone filename finishedAt completion =>
    simp only [apply, Job.markFileDone]
    split
    · rfl
    · exact hphase _ _
  | markFileError filename failure =>
    simp only [apply, Job.markFileError]
    split
    · rfl
    · exact hphase _ _
  | startFileAttempt filename startedAt =>
    simp only [apply, Job.startFileAttempt, Job.markFileProcessing]
    split
    · rfl
    · exact hphase _ _
  | markFileRetryPending filename retry =>
    simp only [apply, Job.markFileRetryPending]
    split
    · rfl
    · exact hphase _ _
  | clearFileRetryState filename =>
    simp only [apply, Job.clearFileRetryState]
    split
    · rfl
    · split
      · exact hphase _ _
      · rfl
  | finalizeJob expected finalStatus completedAt =>
    simp only [apply, Job.finalizeJob]
    split
    · rfl
    · rw [job.finalize_fileStatuses]

theorem OtherOp.apply_filenames (op : OtherOp X D) (job : Job X D) :
    (op.apply job).filenames = job.filenames := by
  cases op with
  | cancel completedAt =>
    have hset := Job.setStatus_fileStatuses
      { job with runtime := { job.runtime with cancelled := true } } .cancelled .interrupt
    simp only [apply, Job.requestCancellation, Job.stop, Stop.status, Job.filenames]
    generalize Job.setStatus _ _ _ = outcome at hset ⊢
    obtain ⟨job', applied⟩ := outcome
    cases applied
    · rfl
    · simp only [Job.adoptStatusColumns] at hset ⊢
      rw [hset]
  | restart policyAccepted =>
    simp only [apply, Job.prepareForRestart]
    split
    · next h =>
      split at h
      · cases h
      · split at h
        · cases h
        · cases h
          exact FileStatuses.filenames_mapValues _ _
    · rfl
  | beginRunner =>
    simp only [apply, Job.beginRunner]
    split <;> rfl
  | releaseRunnerClaim => rfl
  | runnerOp op => exact op.apply_filenames job

/-- Where a restart may land: the check of the generation is still to come, or no file of the job is left to
  force and only the finalization is, which the generation bars. -/
def RunnerPoint.Past (job : Job X D) : RunnerPoint → Prop
  | dispatched _ | swept .. | finalizing .. | finished => True
  | forcing _ _ _ _ left => ∀ filename ∈ left, filename ∉ job.filenames
  | labelled _ _ _ filename _ left => ∀ name ∈ filename :: left, name ∉ job.filenames
  | _ => False

theorem RunnerPoint.past_congr {job job' : Job X D} (h : job'.filenames = job.filenames) (point : RunnerPoint) :
    point.Past job' ↔ point.Past job := by
  cases point <;> simp only [Past, h]

theorem RunnerPoint.Past.step {point next : RunnerPoint} {answer : Answer X D}
    {op : Option (RunnerOp X D)} (h : point.Past job)
    (hholds : point.generation = some g ∨ point = .finished) (hpassed : g < job.runtime.runGeneration)
    (hstep : point.step job answer = some (next, op)) :
    next.Past job ∧ ∀ o ∈ op, (o.apply job).execution = job.execution := by
  -- to force a file the job does not have does nothing
  have hforce : ∀ filename failure, filename ∉ job.filenames →
      ∀ o ∈ some (RunnerOp.markFileError (X := X) (D := D) filename failure),
        (o.apply job).execution = job.execution := by
    rintro filename failure hnone o ⟨⟩
    exact (job.markFileError_execution_eq_iff filename failure).mpr (Job.get_eq_none_iff.mpr hnone)
  unfold RunnerPoint.step at hstep
  split at hstep
  all_goals try exact False.elim h
  case h_16 g' =>
    -- the dispatch has returned: the check stops the runner
    obtain rfl : g' = g := by simpa [generation] using hholds
    rw [if_neg (by omega)] at hstep
    cases hstep
    exact ⟨trivial, by simp⟩
  case h_19 filename left finishedAt =>
    cases hstep
    exact ⟨fun name hname => h name (List.mem_cons_of_mem _ hname),
      hforce _ _ (h filename List.mem_cons_self)⟩
  case h_20 => cases hstep; exact ⟨h, by simp⟩
  case h_21 filename label left =>
    cases hstep
    exact ⟨fun name hname => h name (List.mem_cons_of_mem _ hname),
      hforce _ _ (h filename List.mem_cons_self)⟩
  case h_22 => cases hstep; exact ⟨trivial, by simp⟩
  case h_23 => cases hstep; exact ⟨trivial, by simp⟩
  case h_24 => cases hstep; exact ⟨trivial, by simp⟩
  case h_25 g' finalStatus now =>
    cases hstep
    refine ⟨trivial, ?_⟩
    rintro o ⟨⟩
    obtain rfl : g' = g := by simpa [generation] using hholds
    have hstale : job.runtime.runGeneration ≠ g' := by omega
    simp [RunnerOp.apply, Job.finalizeJob, hstale]
  case h_26 => cases hstep

namespace System

/-- Some continuation has the runner change the record. -/
def Corrupts (w : System X D) : Prop :=
  ∃ events, ∃ s ∈ w.runnerSteps events, (s.1.apply s.2).execution ≠ s.2.execution

theorem unchanged_of_past (events : List (Event X D)) {w : System X D} (h : w.Stale g)
    (hpast : w.runner.Past w.job) :
    ∀ s ∈ w.runnerSteps events, (s.1.apply s.2).execution = s.2.execution := by
  induction events generalizing w with
  | nil =>
    intro s hs
    cases hs
  | cons e events ih =>
    intro s hs
    unfold runnerSteps at hs
    split at hs
    swap
    · cases hs
    next w' hstep =>
    have hnext : w'.runner.Past w'.job ∧
        ∀ op ∈ w.issued e, (op.apply w.job).execution = w.job.execution := by
      cases e with
      | claim =>
        have hne : w.runner ≠ .unclaimed := by
          intro hu
          rw [hu] at hpast
          exact hpast
        simp only [System.step] at hstep
        split at hstep
        · next heq _ => exact absurd heq hne
        · next heq _ => exact absurd heq hne
        · cases hstep
      | other op =>
        cases hstep
        exact ⟨(RunnerPoint.past_congr (op.apply_filenames w.job) _).mpr hpast, by simp [issued]⟩
      | runner answer =>
        simp only [System.step, Option.map_eq_some_iff] at hstep
        obtain ⟨⟨next, o⟩, hpoint, rfl⟩ := hstep
        obtain ⟨hpast', hsame⟩ := hpast.step h.holds h.passed hpoint
        refine ⟨?_, by simpa [issued, hpoint] using hsame⟩
        cases o with
        | none => exact hpast'
        | some op => exact (RunnerPoint.past_congr (op.apply_filenames w.job) _).mpr hpast'
    obtain hhere | hlater := List.mem_append.mp hs
    · simp only [Option.mem_toList, Option.map_eq_some_iff] at hhere
      obtain ⟨op, hop, rfl⟩ := hhere
      exact hnext.2 op hop
    · exact ih (h.step hstep) hnext.1 s hlater

theorem Corrupts.of_step {w w' : System X D} (e : Event X D) (hstep : w.step e = some w')
    (h : w'.Corrupts) : w.Corrupts := by
  obtain ⟨events, s, hs, hne⟩ := h
  refine ⟨e :: events, s, ?_, hne⟩
  unfold runnerSteps
  rw [hstep]
  exact List.mem_append_right _ hs

/-- An error recorded of a file the job has. -/
theorem corrupts_of_error {w w' : System X D} {failure : FileFailureRecord} (e : Event X D)
    (hstep : w.step e = some w') (hop : w.issued e = some (.markFileError filename failure))
    (hfile : filename ∈ w.job.filenames) : w.Corrupts := by
  refine ⟨[e], (.markFileError filename failure, w.job), ?_, ?_⟩
  · unfold runnerSteps
    rw [hstep, hop]
    exact List.mem_append_left _ (by simp)
  · intro hsame
    exact Job.get_eq_none_iff.mp ((w.job.markFileError_execution_eq_iff filename failure).mp hsame) hfile

section
variable {job : Job X D} {filename : String} (hfile : filename ∈ job.filenames)
include hfile

theorem corrupts_dispatching : (⟨job, .dispatching g⟩ : System X D).Corrupts :=
  corrupts_of_error (.runner (.dispatchIssued (.markFileError filename ⟨"", .system, 0⟩))) rfl rfl hfile

theorem corrupts_preflight : (⟨job, .preflight g⟩ : System X D).Corrupts :=
  Corrupts.of_step (.runner .proceed) rfl (corrupts_dispatching hfile)

theorem corrupts_setupStarted (name : String) (failure : FileFailureRecord) :
    (⟨job, .setupStarted g name failure⟩ : System X D).Corrupts := by
  apply Corrupts.of_step (.runner .proceed) rfl
  exact corrupts_preflight (show filename ∈ _ by rwa [RunnerOp.apply_filenames])

theorem corrupts_markedRunning (n : Nat) : (⟨job, .markedRunning g n⟩ : System X D).Corrupts :=
  Corrupts.of_step (.runner .proceed) rfl (corrupts_preflight (show filename ∈ (job.recordWorkerCount n).filenames from hfile))

theorem corrupts_reserved (n : Nat) : (⟨job, .reserved g n⟩ : System X D).Corrupts := by
  apply Corrupts.of_step (.runner .proceed) rfl
  exact corrupts_markedRunning (show filename ∈ _ by rwa [RunnerOp.apply_filenames]) n

theorem corrupts_reserving : (⟨job, .reserving g⟩ : System X D).Corrupts :=
  Corrupts.of_step (.runner (.granted 1)) rfl (corrupts_reserved hfile 1)

end

theorem corrupts_forcing {left : List String} (cause : UnfinishedFileCause)
    (now : MachineTime) (total : Nat) (hleft : filename ∈ left) (hfile : filename ∈ job.filenames) :
    (⟨job, .forcing g cause now total left⟩ : System X D).Corrupts := by
  induction left generalizing job with
  | nil => cases hleft
  | cons name left ih =>
    -- the head is forced, and then what is left
    have hnext : ∀ failure, filename ≠ name →
        (⟨RunnerOp.apply (.markFileError name failure) job, .forcing g cause now total left⟩ :
          System X D).Corrupts := by
      intro failure hne
      apply ih (by simpa [hne] using hleft)
      rwa [RunnerOp.apply_filenames]
    by_cases hhead : filename = name
    · subst hhead
      cases cause with
      | cancelled => exact corrupts_of_error (.runner (.time 0)) rfl rfl hfile
      | unexpectedExit =>
        apply Corrupts.of_step (.runner .proceed) rfl
        exact corrupts_of_error (.runner .proceed) rfl rfl hfile
    · cases cause with
      | cancelled => exact Corrupts.of_step (.runner (.time 0)) rfl (hnext _ hhead)
      | unexpectedExit =>
        apply Corrupts.of_step (.runner .proceed) rfl
        exact Corrupts.of_step (.runner .proceed) rfl (hnext _ hhead)

theorem corrupts_sweeping (cause : UnfinishedFileCause)
    (hfile : filename ∈ job.filenames) : (⟨job, .sweeping g cause⟩ : System X D).Corrupts := by
  -- the new runner starts the file first
  apply Corrupts.of_step (.other (.runnerOp (.markFileProcessing filename 0))) rfl
  have hopen : filename ∈ (job.markFileProcessing filename 0).1.unfinishedFiles := by
    obtain ⟨f, hf, rfl⟩ := List.mem_map.mp hfile
    have hget := (job.execution.fileStatuses.get_eq_some_iff f.filename f).mpr ⟨hf, rfl⟩
    simp only [Job.markFileProcessing, hget, Job.unfinishedFiles, FileStatuses.setPhase, FileStatuses.mapValues]
    refine List.mem_map.mpr ⟨{ f with phase := .processing (some 0) }, ?_, rfl⟩
    refine List.mem_filter.mpr ⟨List.mem_map.mpr ⟨f, hf, by simp⟩, rfl⟩
  have hfile' : filename ∈ (job.markFileProcessing filename 0).1.filenames := by
    have hkept := RunnerOp.apply_filenames (.markFileProcessing filename 0) job
    rw [RunnerOp.apply] at hkept
    rwa [hkept]
  have hsome : (job.markFileProcessing filename 0).1.unfinishedFiles.isEmpty = false := by
    simp [List.ne_nil_of_mem hopen]
  refine Corrupts.of_step (.runner (.time 0)) ?_ (corrupts_forcing (g := g) cause 0
    (job.markFileProcessing filename 0).1.unfinishedFiles.length hopen hfile')
  simp [System.step, OtherOp.apply, RunnerOp.apply, RunnerPoint.step, hsome]

theorem corrupts_labelled {filename name label : String} {left : List String} (now : MachineTime)
    (total : Nat) (hleft : filename ∈ name :: left) (hfile : filename ∈ job.filenames) :
    (⟨job, .labelled g now total name label left⟩ : System X D).Corrupts := by
  rcases List.mem_cons.mp hleft with rfl | hleft
  · exact corrupts_of_error (.runner .proceed) rfl rfl hfile
  · apply Corrupts.of_step (.runner .proceed) rfl
    apply corrupts_forcing .unexpectedExit now total hleft
    rwa [RunnerOp.apply_filenames]

end System

def submittedOneFile : System Unit Unit where
  job := {
    execution := {
      status := .queued
      fileStatuses := ⟨[⟨"a.cha", .queued⟩], by simp⟩
      results := []
      error := none
      completedFiles := 0 }
    schedule := ⟨none, none, none⟩
    runtime := ⟨false, false, 0⟩ }
  runner := .unclaimed

def restartedDuringDispatch : List (Event Unit Unit) :=
  [.claim, .runner .proceed, .runner (.granted 1), .runner .proceed, .runner .proceed,
    .runner .proceed, .other (.cancel 10), .other (.restart true)]

end Batchalign.Store
