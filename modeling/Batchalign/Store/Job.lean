import Mathlib.Data.List.Sort
import Mathlib.Data.List.Dedup

/- Job record (`store/job`, `types/status.rs`): the status table, the job's lifecycle and the
   transitions of one file, each a function on the record that also returns whether it acted. The
   exclusion records and the admission diagnostics are the types `X` and `D`. -/

namespace Batchalign.Store
open List

abbrev MachineTime := Nat

inductive JobStatus where
  | queued
  | running
  | completed
  | failed
  | cancelled
  | interrupted
  | writebackFailed
  deriving DecidableEq

inductive StatusChange where
  | dispatch
  | memoryRequeue
  | interrupt
  | finalize
  | restart
  | reconcile
  deriving DecidableEq

namespace JobStatus

def isTerminal : JobStatus → Bool
  | completed | failed | cancelled | interrupted | writebackFailed => true
  | queued | running => false

def isActive : JobStatus → Bool
  | queued | running => true
  | _ => false

def canCancel (s : JobStatus) : Bool := s.isActive

def isRecoverable : JobStatus → Bool
  | running | interrupted => true
  | _ => false

def canRestart : JobStatus → Bool
  | cancelled | failed | writebackFailed => true
  | _ => false

/-- Whether a job may move from `self` to `next` for the given reason. -/
def canTransitionTo (self next : JobStatus) (reason : StatusChange) : Bool :=
  match reason with
  | .dispatch => self == queued && next == running
  | .memoryRequeue => self.isActive && next == queued
  | .interrupt => self.canCancel && (next == cancelled || next == interrupted)
  | .finalize => self.isActive && next.isTerminal
  | .restart => self.canRestart && next == queued
  | .reconcile =>
    self.isRecoverable && (next == queued || next == failed || next == completed)

theorem isTerminal_eq_not_isActive (s : JobStatus) : s.isTerminal = !s.isActive := by
  cases s <;> rfl

theorem not_isActive_of_canRestart {s : JobStatus} (h : s.canRestart = true) : s.isActive = false := by
  cases s <;> first | rfl | cases h

end JobStatus

inductive FileStatusKind where
  | queued
  | processing
  | done
  | diagnosed
  | error
  | interrupted
  deriving DecidableEq

namespace FileStatusKind

def isTerminal : FileStatusKind → Bool
  | done | diagnosed | error => true
  | queued | processing | interrupted => false

def wroteOutput : FileStatusKind → Bool
  | done | diagnosed => true
  | queued | processing | error | interrupted => false

end FileStatusKind

inductive FailureCategory where
  | validation | parseError | inputMissing | evidenceUnavailable | analysisUnavailable
  | workerCrash | workerTimeout | workerProtocol | workerBootstrap | localRuntime
  | providerTransient | providerTerminal | providerQuotaExhausted | providerAccountRefused
  | memoryPressure | cancelled | system | modelAccessDenied | modelOutputInvalid

inductive FileFailure where
  | recorded (message : String) (category : FailureCategory)
  | messageOnly (message : String)
  | categoryOnly (category : FailureCategory)
  | unrecorded

def FileFailure.message : FileFailure → Option String
  | recorded message _ | messageOnly message => some message
  | categoryOnly _ | unrecorded => none

inductive FilePhase (X D : Type) where
  | queued
  | processing (startedAt : Option MachineTime)
  | retryPending (startedAt failedAt : Option MachineTime) (retryAt : MachineTime)
      (failure : FileFailure)
  | done (startedAt finishedAt : Option MachineTime) (exclusions : List X)
  | diagnosed (startedAt finishedAt : Option MachineTime) (diagnostics : Option D)
      (exclusions : List X)
  | error (startedAt finishedAt : Option MachineTime) (failure : FileFailure)
  | interrupted (startedAt : Option MachineTime) (lastFailure : Option FileFailure)

variable {X D : Type}

namespace FilePhase

def kind : FilePhase X D → FileStatusKind
  | queued => .queued
  | processing _ | retryPending .. => .processing
  | done .. => .done
  | diagnosed .. => .diagnosed
  | error .. => .error
  | interrupted .. => .interrupted

def startedAt : FilePhase X D → Option MachineTime
  | queued => none
  | processing s | retryPending s .. | done s .. | diagnosed s .. | error s .. | interrupted s _ =>
    s

end FilePhase

structure FileStatus (X D : Type) where
  filename : String
  phase : FilePhase X D

def FileStatus.status (f : FileStatus X D) : FileStatusKind := f.phase.kind

def FileStatus.requeue (f : FileStatus X D) : FileStatus X D := { f with phase := .queued }

/-- The job's file statuses in the order of the map's iteration: no filename twice. -/
structure FileStatuses (X D : Type) where
  values : List (FileStatus X D)
  nodup : (values.map FileStatus.filename).Nodup

namespace FileStatuses

@[ext] theorem ext {a b : FileStatuses X D} (h : a.values = b.values) : a = b := by
  cases a
  cases b
  simp only [FileStatuses.mk.injEq]
  exact h

def get (m : FileStatuses X D) (filename : String) : Option (FileStatus X D) :=
  m.values.find? (fun f => f.filename == filename)

def mapValues (m : FileStatuses X D) (f : FileStatus X D → FilePhase X D) : FileStatuses X D where
  values := m.values.map (fun s => { s with phase := f s })
  nodup := by simpa [map_map, Function.comp_def] using m.nodup

def setPhase (m : FileStatuses X D) (filename : String) (phase : FilePhase X D) :
    FileStatuses X D :=
  m.mapValues (fun s => if s.filename = filename then phase else s.phase)

def countWhere (m : FileStatuses X D) (p : FileStatusKind → Bool) : Int :=
  (m.values.countP (fun f => p f.status) : Nat)

theorem get_eq_some_iff (m : FileStatuses X D) (filename : String) (f : FileStatus X D) :
    m.get filename = some f ↔ f ∈ m.values ∧ f.filename = filename := by
  constructor
  · intro h
    refine ⟨mem_of_find?_eq_some h, ?_⟩
    have hname := find?_some h
    simpa using hname
  · intro ⟨hmem, hname⟩
    obtain ⟨f', hf'⟩ : ∃ f', m.get filename = some f' := by
      apply Option.isSome_iff_exists.mp
      rw [get, find?_isSome]
      exact ⟨f, hmem, by simpa using hname⟩
    have hmem' : f' ∈ m.values := mem_of_find?_eq_some hf'
    have hname' : f'.filename = filename := by
      have h := find?_some hf'
      simpa using h
    rw [hf', inj_on_of_nodup_map m.nodup hmem' hmem (hname'.trans hname.symm)]

theorem setPhase_eq_self_iff (m : FileStatuses X D) (filename : String) (phase : FilePhase X D) :
    m.setPhase filename phase = m ↔ ∀ f, m.get filename = some f → f.phase = phase := by
  have hmap : m.setPhase filename phase = m ↔ ∀ s ∈ m.values,
      { s with phase := if s.filename = filename then phase else s.phase } = s := by
    rw [FileStatuses.ext_iff]
    conv_lhs => rhs; rw [← map_id m.values]
    exact map_inj_left
  rw [hmap]
  constructor
  · intro h f hf
    obtain ⟨hmem, hname⟩ := (m.get_eq_some_iff filename f).mp hf
    have hfix := h f hmem
    rw [if_pos hname] at hfix
    exact (congrArg FileStatus.phase hfix).symm
  · intro h s hs
    by_cases hname : s.filename = filename
    · rw [if_pos hname, ← h s ((m.get_eq_some_iff filename s).mpr ⟨hs, hname⟩)]
    · rw [if_neg hname]

end FileStatuses

inductive ContentType where
  | chat | csv | text | json | wav | mp3

structure FileResultEntry where
  filename : String
  contentType : ContentType
  error : Option String

structure CompletedFileOutput (X : Type) where
  filename : String
  contentType : ContentType
  exclusions : List X

inductive FileCompletion (X D : Type) where
  | withoutResult
  | clean (result : CompletedFileOutput X)
  | diagnosed (result : CompletedFileOutput X) (diagnostics : D)

structure FileFailureRecord where
  message : String
  category : FailureCategory
  finishedAt : MachineTime

structure FileRetryRecord where
  message : String
  category : FailureCategory
  finishedAt : MachineTime
  retryAt : MachineTime

structure JobExecutionState (X D : Type) where
  status : JobStatus
  fileStatuses : FileStatuses X D
  results : List FileResultEntry
  error : Option String
  completedFiles : Int

structure JobScheduleState where
  completedAt : Option MachineTime
  nextEligibleAt : Option MachineTime
  numWorkers : Option Int

/-- `cancelled` is the state of the job's token: a restart gives a new one, a runner keeps its own. -/
structure JobRuntimeControl where
  cancelled : Bool
  runnerActive : Bool
  runGeneration : Nat

/-- A job as the registry holds it. -/
structure Job (X D : Type) where
  execution : JobExecutionState X D
  schedule : JobScheduleState
  runtime : JobRuntimeControl

structure JobStatusColumns where
  status : JobStatus
  error : Option String
  completedAt : Option MachineTime
  numWorkers : Option Int
  nextEligibleAt : Option MachineTime

inductive Stop where
  | interrupted
  | cancelled

def Stop.status : Stop → JobStatus
  | interrupted => .interrupted
  | cancelled => .cancelled

def JobStatusColumns.stopped (columns : JobStatusColumns) (stop : Stop) (at_ : MachineTime) :
    JobStatusColumns :=
  { columns with status := stop.status, completedAt := some at_, nextEligibleAt := none }

namespace Job

def statusColumns (job : Job X D) : JobStatusColumns where
  status := job.execution.status
  error := job.execution.error
  completedAt := job.schedule.completedAt
  numWorkers := job.schedule.numWorkers
  nextEligibleAt := job.schedule.nextEligibleAt

def adoptStatusColumns (job : Job X D) (image : JobStatusColumns) : Job X D :=
  { job with
    execution := { job.execution with status := image.status, error := image.error }
    schedule := { job.schedule with
      completedAt := image.completedAt
      numWorkers := image.numWorkers
      nextEligibleAt := image.nextEligibleAt } }

def setStatus (job : Job X D) (next : JobStatus) (reason : StatusChange) : Job X D × Bool :=
  if job.execution.status.canTransitionTo next reason then
    ({ job with execution := { job.execution with status := next } }, true)
  else (job, false)

def stop (job : Job X D) (s : Stop) (at_ : MachineTime) : Job X D × Bool :=
  match job.setStatus s.status .interrupt with
  | (_, false) => (job, false)
  | (job', true) => (job'.adoptStatusColumns (job'.statusColumns.stopped s at_), true)

def requestCancellation (job : Job X D) (completedAt : MachineTime) :
    Job X D × Option MachineTime :=
  let job' := { job with runtime := { job.runtime with cancelled := true } }
  match job'.stop .cancelled completedAt with
  | (job'', true) => (job'', some completedAt)
  | (job'', false) => (job'', none)

def requeueAfterMemoryGate (job : Job X D) (retryAt : MachineTime) : Job X D × Bool :=
  match job.setStatus .queued .memoryRequeue with
  | (_, false) => (job, false)
  | (job', true) =>
    ({ job' with schedule := { job'.schedule with
        completedAt := none, nextEligibleAt := some retryAt } }, true)

def markRunning (job : Job X D) : Job X D × Bool :=
  match job.setStatus .running .dispatch with
  | (_, false) => (job, false)
  | (job', true) =>
    ({ job' with schedule := { job'.schedule with nextEligibleAt := none } }, true)

def recordWorkerCount (job : Job X D) (numWorkers : Nat) : Job X D :=
  { job with schedule := { job.schedule with numWorkers := some numWorkers } }

def fail (job : Job X D) (error : String) (completedAt : MachineTime) : Job X D × Bool :=
  match job.setStatus .failed .finalize with
  | (_, false) => (job, false)
  | (job', true) =>
    ({ job' with
      execution := { job'.execution with error := some error }
      schedule := { job'.schedule with completedAt := some completedAt } }, true)

/-- The failed files' messages, under a count when there are several. -/
def aggregateFileFailureReason (job : Job X D) : Option String :=
  let failures := job.execution.fileStatuses.values.filterMap (fun f =>
    match f.phase with
    | .error _ _ failure => some failure
    | _ => none)
  let messages := (failures.filterMap FileFailure.message).dedup.insertionSort (· ≤ ·)
  if failures.length = 0 then none
  else
    let joined := "; ".intercalate messages
    some (if joined.isEmpty then toString failures.length ++ " file(s) failed"
      else if 1 < failures.length then
        toString failures.length ++ " file(s) failed: " ++ joined
      else joined)

def setFailureReasonFromFiles (job : Job X D) : Job X D :=
  match job.execution.error, job.aggregateFileFailureReason with
  | none, some reason =>
    { job with execution := { job.execution with error := some reason } }
  | _, _ => job

def finalize (job : Job X D) (finalStatus : JobStatus) (completedAt : MachineTime) :
    Job X D × Bool :=
  let (job₁, applied) := job.setStatus finalStatus .finalize
  let job₂ := if applied && finalStatus == .failed then job₁.setFailureReasonFromFiles else job₁
  let job₃ :=
    if applied then
      { job₂ with schedule := { job₂.schedule with
          completedAt := some completedAt, nextEligibleAt := none } }
    else job₂
  -- the counters describe the files, so they are set whatever the job's status
  ({ job₃ with execution := { job₃.execution with
      completedFiles := job₃.execution.fileStatuses.countWhere FileStatusKind.isTerminal } },
    applied)

inductive RestartError where
  | outputPolicy
  | jobConflict

/-- Reset the job so unfinished files may run again; `policyAccepted`: by the output policy. The claim flag
  stays, as the earlier runner may be alive. -/
def prepareForRestart (job : Job X D) (policyAccepted : Bool) : Except RestartError (Job X D) :=
  if policyAccepted = false then .error .outputPolicy
  else if job.execution.status.canRestart = false then .error .jobConflict
  else
    let files := job.execution.fileStatuses.mapValues (fun s =>
      if s.status.wroteOutput then s.phase else s.requeue.phase)
    .ok {
      execution := {
        status := (job.setStatus .queued .restart).1.execution.status
        fileStatuses := files
        results := job.execution.results.filter (fun r => r.error.isNone)
        error := none
        completedFiles := files.countWhere FileStatusKind.wroteOutput }
      schedule := { job.schedule with completedAt := none, nextEligibleAt := none }
      runtime := { job.runtime with
        cancelled := false
        runGeneration := job.runtime.runGeneration + 1 } }

def markFileProcessing (job : Job X D) (filename : String) (startedAt : MachineTime) :
    Job X D × Bool :=
  match job.execution.fileStatuses.get filename with
  | none => (job, false)
  | some _ =>
    ({ job with execution := { job.execution with
        fileStatuses :=
          job.execution.fileStatuses.setPhase filename (.processing (some startedAt)) } }, true)

def completionPhase (startedAt : Option MachineTime) (finishedAt : MachineTime) :
    FileCompletion X D → FilePhase X D × Option FileResultEntry
  | .withoutResult => (.done startedAt (some finishedAt) [], none)
  | .clean result =>
    (.done startedAt (some finishedAt) result.exclusions,
      some ⟨result.filename, result.contentType, none⟩)
  | .diagnosed result diagnostics =>
    (.diagnosed startedAt (some finishedAt) (some diagnostics) result.exclusions,
      some ⟨result.filename, result.contentType, none⟩)

def markFileDone (job : Job X D) (filename : String) (finishedAt : MachineTime)
    (completion : FileCompletion X D) : Job X D × Bool :=
  match job.execution.fileStatuses.get filename with
  | none => (job, false)
  | some f =>
    let (phase, result) := completionPhase f.phase.startedAt finishedAt completion
    ({ job with execution := { job.execution with
        fileStatuses := job.execution.fileStatuses.setPhase filename phase
        results := job.execution.results ++ result.toList
        completedFiles := job.execution.completedFiles + 1 } }, true)

def markFileError (job : Job X D) (filename : String) (failure : FileFailureRecord) :
    Job X D × Bool :=
  match job.execution.fileStatuses.get filename with
  | none => (job, false)
  | some f =>
    ({ job with execution := { job.execution with
        fileStatuses := job.execution.fileStatuses.setPhase filename
          (.error f.phase.startedAt (some failure.finishedAt)
            (.recorded failure.message failure.category))
        results := job.execution.results ++ [⟨filename, .chat, some failure.message⟩]
        completedFiles := job.execution.completedFiles + 1 } }, true)

/-- Changes the phase as `markFileProcessing` does; the progress left differs. -/
def startFileAttempt (job : Job X D) (filename : String) (startedAt : MachineTime) :
    Job X D × Bool :=
  job.markFileProcessing filename startedAt

def markFileRetryPending (job : Job X D) (filename : String) (retry : FileRetryRecord) :
    Job X D × Bool :=
  match job.execution.fileStatuses.get filename with
  | none => (job, false)
  | some f =>
    ({ job with execution := { job.execution with
        fileStatuses := job.execution.fileStatuses.setPhase filename
          (.retryPending f.phase.startedAt (some retry.finishedAt) retry.retryAt
            (.recorded retry.message retry.category)) } }, true)

def clearFileRetryState (job : Job X D) (filename : String) : Job X D × Bool :=
  match job.execution.fileStatuses.get filename with
  | none => (job, false)
  | some f =>
    match f.phase with
    | .retryPending startedAt .. =>
      ({ job with execution := { job.execution with
          fileStatuses :=
            job.execution.fileStatuses.setPhase filename (.processing startedAt) } }, true)
    | _ => (job, true)

def unfinishedFiles (job : Job X D) : List String :=
  (job.execution.fileStatuses.values.filter (fun f => !f.status.isTerminal)).map
    FileStatus.filename

def anyTerminalFilesFailed (job : Job X D) : Bool :=
  (job.execution.fileStatuses.values.filter (fun f => f.status.isTerminal)).any
    (fun f => f.status == .error)

end Job

end Batchalign.Store
