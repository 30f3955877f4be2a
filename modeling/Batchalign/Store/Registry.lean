import Batchalign.Store.Crash

/- The job registry (`store/registry.rs`, `store/job/conflict.rs`). A submission is checked, file by
   file, against the active jobs of its submitter; a restart or a startup that makes a job active is
   not. -/

namespace Batchalign.Store
open List

structure Submitter where
  address : String
  name : String

/-- What the registry and the database hold of a job beside its state: `C` is its
command. -/
structure JobSource (C : Type) where
  jobId : String
  command : C
  submitter : Option Submitter
  sourceDir : String
  filenames : List String

structure RegisteredJob (C X D : Type) extends JobSource C where
  job : Job X D

variable {C X D : Type}

/-- The submitter and the path of each file; jobs with no recorded submitter are keyed together. -/
def JobSource.keys (source : JobSource C) : List (Option String × String) :=
  source.filenames.map (fun filename =>
    (source.submitter.map Submitter.address,
      if source.sourceDir.isEmpty then filename else source.sourceDir ++ "/" ++ filename))

def RegisteredJob.isActive (j : RegisteredJob C X D) : Bool := j.job.execution.status.isActive

structure ConflictEntry (C : Type) where
  filename : String
  jobId : String
  command : C
  status : JobStatus

def findConflicts (jobs : List (RegisteredJob C X D)) (incoming : JobSource C) :
    List (ConflictEntry C) :=
  (jobs.filter RegisteredJob.isActive).flatMap (fun active =>
    ((active.filenames.zip active.keys).filter (fun file => incoming.keys.contains file.2)).map
      (fun file => ⟨file.1, active.jobId, active.command, active.job.execution.status⟩))

theorem length_keys (source : JobSource C) : source.keys.length = source.filenames.length := by
  simp [JobSource.keys]

theorem findConflicts_eq_nil_iff (jobs : List (RegisteredJob C X D)) (incoming : JobSource C) :
    findConflicts jobs incoming = [] ↔
      ∀ j ∈ jobs, j.isActive = true → ∀ k ∈ j.keys, k ∉ incoming.keys := by
  simp only [findConflicts, flatMap_eq_nil_iff, mem_filter, map_eq_nil_iff,
    filter_eq_nil_iff, and_imp]
  constructor
  · intro h j hj hactive k hk hin
    obtain ⟨i, hi, rfl⟩ := mem_iff_getElem.mp hk
    have hi' : i < j.filenames.length := by
      rw [← length_keys]
      exact hi
    apply h j hj hactive (j.filenames[i], j.keys[i])
    · rw [mem_iff_getElem]
      exact ⟨i, by simp [hi, hi'], by simp⟩
    · simpa using hin
  · intro h j hj hactive file hfile hin
    exact h j hj hactive file.2 (of_mem_zip hfile).2 (by simpa using hin)

/-- The jobs in memory, by their ids. -/
structure Registry (C X D : Type) where
  jobs : List (RegisteredJob C X D)
  nodup : (jobs.map (fun j => j.jobId)).Nodup

structure StoredJob (C X D : Type) extends JobSource C where
  tables : StoredCommand
  row : JobRow X D

def StoredJob.isActive (s : StoredJob C X D) : Bool := s.row.columns.status.isActive

/-- The stored jobs a server starts from; no two active ones share a file. -/
structure Database (C X D : Type) where
  rows : List (StoredJob C X D)
  nodup : (rows.map (fun r => r.jobId)).Nodup
  exclusive : ∀ a ∈ rows, ∀ b ∈ rows, a.jobId ≠ b.jobId → a.isActive = true →
    b.isActive = true → ∀ k ∈ a.keys, k ∉ b.keys

namespace Registry

def empty : Registry C X D := ⟨[], nodup_nil⟩

def insert (r : Registry C X D) (j : RegisteredJob C X D) : Registry C X D where
  jobs := r.jobs.filter (fun k => k.jobId ≠ j.jobId) ++ [j]
  nodup := by
    rw [map_append, nodup_append]
    refine ⟨(r.nodup.sublist (filter_sublist.map _)), by simp, ?_⟩
    intro a ha b hb hab
    simp only [mem_map, mem_filter, decide_eq_true_eq] at ha
    obtain ⟨k, ⟨-, hne⟩, rfl⟩ := ha
    simp only [map_cons, map_nil, mem_singleton] at hb
    exact hne (hab.trans hb)

def insertChecked (r : Registry C X D) (j : RegisteredJob C X D) :
    Except (List (ConflictEntry C)) (Registry C X D) :=
  if (findConflicts r.jobs j.toJobSource).isEmpty then .ok (r.insert j)
  else .error (findConflicts r.jobs j.toJobSource)

def updateJob (r : Registry C X D) (jobId : String) (f : Job X D → Job X D) : Registry C X D where
  jobs := r.jobs.map (fun j => if j.jobId = jobId then { j with job := f j.job } else j)
  nodup := by
    have hids : (fun j : RegisteredJob C X D => j.jobId) ∘ (fun j =>
        if j.jobId = jobId then { j with job := f j.job } else j) = fun j => j.jobId := by
      funext j
      simp only [Function.comp_apply]
      split <;> rfl
    rw [map_map, hids]
    exact r.nodup

def remove (r : Registry C X D) (jobId : String) : Registry C X D where
  jobs := r.jobs.filter (fun j => j.jobId ≠ jobId)
  nodup := r.nodup.sublist (filter_sublist.map _)

end Registry

namespace StoredJob

def recovered (s : StoredJob C X D) (ttlCutoff now : MachineTime) : Option (RegisteredJob C X D) :=
  (s.row.startup s.tables ttlCutoff now).map (fun r => { s.toJobSource with job := r.1 })

end StoredJob

def Database.startup (db : Database C X D) (ttlCutoff now : MachineTime) : Registry C X D where
  jobs := db.rows.filterMap (fun s => s.recovered ttlCutoff now)
  nodup := by
    apply (List.Nodup.sublist _ db.nodup)
    rw [map_filterMap]
    have hids : ∀ rows : List (StoredJob C X D),
        (rows.filterMap (fun s => (s.recovered ttlCutoff now).map (fun j => j.jobId))).Sublist
          (rows.map (fun r => r.jobId)) := by
      intro rows
      induction rows with
      | nil => exact List.Sublist.refl _
      | cons s rows ih =>
        unfold StoredJob.recovered at ih ⊢
        cases h : s.row.startup s.tables ttlCutoff now with
        | none => simpa [h] using ih.cons s.jobId
        | some r => simpa [h] using ih.cons_cons s.jobId
    exact hids db.rows

/-- The operations on the registry, a shutdown and a startup among them. -/
inductive RegistryOp (C X D : Type) where
  | submit (job : RegisteredJob C X D)
  | cancel (jobId : String) (now : MachineTime)
  | restart (jobId : String) (policyAccepted : Bool)
  | runner (jobId : String) (op : RunnerOp X D)
  | updateJobStatus (jobId : String) (status : JobStatus) (error : Option String)
      (now : MachineTime)
  | beginRunner (jobId : String)
  | releaseRunnerClaim (jobId : String)
  | delete (jobId : String)
  | interruptAllActive (now : MachineTime)
  | startup (database : Database C X D) (ttlCutoff now : MachineTime)

def RegistryOp.onJob : RegistryOp C X D → Option (String × (Job X D → Job X D))
  | cancel jobId now => some (jobId, fun job => (job.requestCancellation now).1)
  | restart jobId policyAccepted => some (jobId, (OtherOp.restart policyAccepted).apply)
  | runner jobId op => some (jobId, op.apply)
  | updateJobStatus jobId status error now =>
    some (jobId, fun job => (job.updateJobStatus status error now).1)
  | beginRunner jobId => some (jobId, fun job => job.beginRunner.1)
  | releaseRunnerClaim jobId => some (jobId, Job.releaseLocalDispatchClaim)
  | submit _ | delete _ | interruptAllActive _ | startup .. => none

namespace Registry

def apply (r : Registry C X D) : RegistryOp C X D → Registry C X D
  | .submit job =>
    match r.insertChecked job with
    | .ok r' => r'
    | .error _ => r
  | .delete jobId => r.remove jobId
  | .interruptAllActive now => {
      jobs := r.jobs.map (fun j => { j with job := (j.job.interruptForShutdown now).1 })
      nodup := by
        rw [map_map]
        exact r.nodup }
  -- a new server: what the old one held is gone
  | .startup database ttlCutoff now => database.startup ttlCutoff now
  | op =>
    match op.onJob with
    | some (jobId, f) => r.updateJob jobId f
    | none => r

def Exclusive (r : Registry C X D) : Prop :=
  ∀ a ∈ r.jobs, ∀ b ∈ r.jobs, a.jobId ≠ b.jobId → a.isActive = true → b.isActive = true →
    ∀ k ∈ a.keys, k ∉ b.keys

end Registry

theorem JobStatus.isActive_of_canTransitionTo {s next : JobStatus} {reason : StatusChange}
    (h : s.canTransitionTo next reason = true) (hnext : next.isActive = true)
    (hrestart : reason ≠ .restart) (hreconcile : reason ≠ .reconcile) : s.isActive = true := by
  cases reason <;> cases s <;> cases next <;> simp_all [canTransitionTo, isActive, isTerminal]

variable {job : Job X D} {now : MachineTime}

theorem Job.isActive_of_setStatus {next : JobStatus} {reason : StatusChange}
    (hrestart : reason ≠ .restart) (hreconcile : reason ≠ .reconcile)
    (h : (job.setStatus next reason).1.execution.status.isActive = true) :
    job.execution.status.isActive = true := by
  cases hallowed : job.execution.status.canTransitionTo next reason
  · rw [job.setStatus_eq_of_refused hallowed] at h
    exact h
  · rw [job.setStatus_eq_of_accepted hallowed] at h
    exact JobStatus.isActive_of_canTransitionTo hallowed h hrestart hreconcile

theorem RunnerOp.status_apply (op : RunnerOp X D) (job : Job X D) :
    (op.apply job).execution.status = job.execution.status ∨
      ∃ next reason, reason ≠ .restart ∧ reason ≠ .reconcile ∧
        (op.apply job).execution.status = (job.setStatus next reason).1.execution.status := by
  cases op with
  | requeueAfterMemoryGate retryAt =>
    right
    refine ⟨.queued, .memoryRequeue, by decide, by decide, ?_⟩
    cases h : job.execution.status.canTransitionTo .queued .memoryRequeue <;>
      simp [apply, Job.requeueAfterMemoryGate, Job.setStatus, h]
  | failJob error completedAt =>
    right
    refine ⟨.failed, .finalize, by decide, by decide, ?_⟩
    cases h : job.execution.status.canTransitionTo .failed .finalize <;>
      simp [apply, Job.fail, Job.setStatus, h]
  | markJobRunning =>
    right
    refine ⟨.running, .dispatch, by decide, by decide, ?_⟩
    cases h : job.execution.status.canTransitionTo .running .dispatch <;>
      simp [apply, Job.markRunning, Job.setStatus, h]
  | recordJobWorkerCount n =>
    left
    rfl
  | finalizeJob g finalStatus completedAt =>
    simp only [apply, Job.finalizeJob]
    split
    · left
      rfl
    · right
      refine ⟨finalStatus, .finalize, by decide, by decide, ?_⟩
      cases h : job.execution.status.canTransitionTo finalStatus .finalize
      · simp [Job.finalize, Job.setStatus, h]
      · simp only [Job.finalize, Job.setStatus, h, if_true, Bool.true_and]
        split <;> simp [Job.setFailureReasonFromFiles_status]
  | markFileProcessing filename startedAt =>
    left
    simp only [apply, Job.markFileProcessing]
    split <;> rfl
  | markFileDone filename finishedAt completion =>
    left
    simp only [apply, Job.markFileDone]
    split <;> rfl
  | markFileError filename failure =>
    left
    simp only [apply, Job.markFileError]
    split <;> rfl
  | startFileAttempt filename startedAt =>
    left
    simp only [apply, Job.startFileAttempt, Job.markFileProcessing]
    split <;> rfl
  | markFileRetryPending filename retry =>
    left
    simp only [apply, Job.markFileRetryPending]
    split <;> rfl
  | clearFileRetryState filename =>
    left
    simp only [apply, Job.clearFileRetryState]
    split
    · rfl
    · split <;> rfl

theorem RunnerOp.isActive_of_apply {op : RunnerOp X D} (h : (op.apply job).execution.status.isActive = true) :
    job.execution.status.isActive = true := by
  obtain hsame | ⟨next, reason, hrestart, hreconcile, hset⟩ := op.status_apply job
  · rwa [hsame] at h
  · rw [hset] at h
    exact Job.isActive_of_setStatus hrestart hreconcile h

theorem Job.isActive_of_requestCancellation (h : (job.requestCancellation now).1.execution.status.isActive = true) :
    job.execution.status.isActive = true := by
  cases hallowed : job.execution.status.canTransitionTo .cancelled .interrupt
  · simpa [Job.requestCancellation, Job.stop, Stop.status, Job.setStatus, hallowed] using h
  · simp [Job.requestCancellation, Job.stop, Stop.status, Job.setStatus, hallowed,
      Job.adoptStatusColumns, JobStatusColumns.stopped, JobStatus.isActive] at h

theorem Job.isActive_of_updateJobStatus {status : JobStatus}
    {error : Option String} (h : (job.updateJobStatus status error now).1.execution.status.isActive = true) :
    job.execution.status.isActive = true := by
  have hset : (job.updateJobStatus status error now).1.execution.status =
      (job.setStatus status .finalize).1.execution.status := by
    cases hallowed : job.execution.status.canTransitionTo status .finalize <;>
      simp [Job.updateJobStatus, Job.setStatus, hallowed]
  rw [hset] at h
  exact Job.isActive_of_setStatus (by decide) (by decide) h

theorem Job.not_isActive_interruptForShutdown (job : Job X D) (now : MachineTime) :
    (job.interruptForShutdown now).1.execution.status.isActive = false := by
  obtain ⟨-, ⟨-, hstopped⟩ | hcols⟩ := job.interruptForShutdown_spec now
  · rw [hstopped]
    rfl
  · cases hactive : job.execution.status.isActive
    · rw [show (job.interruptForShutdown now).1.execution.status = job.execution.status from
        congrArg JobStatusColumns.status hcols]
      exact hactive
    · have haccepted : job.execution.status.canTransitionTo .interrupted .interrupt = true := by
        simp [JobStatus.canTransitionTo, JobStatus.canCancel, hactive]
      simp [Job.interruptForShutdown, Job.stop, Job.setStatus, Stop.status, haccepted,
        Job.adoptStatusColumns, JobStatusColumns.stopped, JobStatus.isActive]

def Job.restarts (job : Job X D) (policyAccepted : Bool) : Bool :=
  policyAccepted && job.execution.status.canRestart

theorem Job.isActive_restart (job : Job X D) (policyAccepted : Bool) :
    (OtherOp.apply (.restart policyAccepted) job).execution.status.isActive =
      (job.restarts policyAccepted || job.execution.status.isActive) := by
  cases policyAccepted
  · simp [OtherOp.apply, Job.prepareForRestart, Job.restarts]
  · cases hcan : job.execution.status.canRestart
    · simp [OtherOp.apply, Job.prepareForRestart, Job.restarts, hcan]
    · have haccepted : job.execution.status.canTransitionTo .queued .restart = true := by
        simp [JobStatus.canTransitionTo, hcan]
      simp [OtherOp.apply, Job.prepareForRestart, Job.restarts, hcan,
        job.setStatus_eq_of_accepted haccepted, JobStatus.isActive]

variable {f : Job X D → Job X D}

theorem RegistryOp.isActive_of_onJob {op : RegistryOp C X D} {jobId : String} (hop : op.onJob = some (jobId, f))
    (hrestart : ∀ policyAccepted, op ≠ .restart jobId policyAccepted) (h : (f job).execution.status.isActive = true) : job.execution.status.isActive = true := by
  cases op with
  | cancel id now =>
    cases hop
    exact Job.isActive_of_requestCancellation h
  | restart id policyAccepted =>
    cases hop
    exact absurd rfl (hrestart policyAccepted)
  | runner id op =>
    cases hop
    exact RunnerOp.isActive_of_apply h
  | updateJobStatus id status error now =>
    cases hop
    exact Job.isActive_of_updateJobStatus h
  | beginRunner id =>
    cases hop
    simp only [Job.beginRunner] at h
    split at h <;> exact h
  | releaseRunnerClaim id =>
    cases hop
    exact h
  | submit job => cases hop
  | delete id => cases hop
  | interruptAllActive now => cases hop
  | startup database ttlCutoff now => cases hop

/-- A stored job a startup makes active: active or interrupted, loaded and admitted, a file left. -/
def StoredJob.Resumes (s : StoredJob C X D) (ttlCutoff : MachineTime) : Prop :=
  s.tables.refusal = none ∧ s.row.Loadable s.tables ttlCutoff ∧
    (s.isActive = true ∨ s.row.columns.status = .interrupted) ∧ s.row.unfinishedFiles ≠ []

namespace Registry

/-- An accepted restart finds no conflict with the active jobs, and a startup brings back none that
conflicts. -/
def Admits (r : Registry C X D) : RegistryOp C X D → Prop
  | .restart jobId policyAccepted => ∀ j ∈ r.jobs, j.jobId = jobId →
      j.job.restarts policyAccepted = true → findConflicts r.jobs j.toJobSource = []
  | .startup database ttlCutoff _ => ∀ a ∈ database.rows, ∀ b ∈ database.rows,
      a.jobId ≠ b.jobId → a.row.columns.status = .interrupted → a.Resumes ttlCutoff →
      b.Resumes ttlCutoff → ∀ k ∈ a.keys, k ∉ b.keys
  | _ => True

variable {r : Registry C X D}

theorem Exclusive.of_shrunk {r' : Registry C X D} (h : r.Exclusive)
    (hshrunk : ∀ a' ∈ r'.jobs, ∃ a ∈ r.jobs, a'.toJobSource = a.toJobSource ∧
      (a'.isActive = true → a.isActive = true)) : r'.Exclusive := by
  intro a' ha' b' hb' hids hactiveA hactiveB k hk
  obtain ⟨a, ha, hsourceA, hkeptA⟩ := hshrunk a' ha'
  obtain ⟨b, hb, hsourceB, hkeptB⟩ := hshrunk b' hb'
  rw [hsourceA] at hids hk
  rw [hsourceB] at hids ⊢
  exact h a ha b hb hids (hkeptA hactiveA) (hkeptB hactiveB) k hk

theorem mem_updateJob {jobId : String} {j' : RegisteredJob C X D} :
    j' ∈ (r.updateJob jobId f).jobs ↔
      ∃ j ∈ r.jobs, (if j.jobId = jobId then { j with job := f j.job } else j) = j' :=
  mem_map

theorem Exclusive.updateJob (h : r.Exclusive) (hf : ∀ job, (f job).execution.status.isActive = true →
      job.execution.status.isActive = true) (jobId : String) : (r.updateJob jobId f).Exclusive := by
  apply h.of_shrunk
  intro j' hj'
  obtain ⟨j, hj, rfl⟩ := mem_updateJob.mp hj'
  refine ⟨j, hj, ?_, ?_⟩
  · split <;> rfl
  · split
    · exact hf j.job
    · exact id

theorem Exclusive.insert (h : r.Exclusive) {j : RegisteredJob C X D}
    (hnone : findConflicts r.jobs j.toJobSource = []) : (r.insert j).Exclusive := by
  rw [findConflicts_eq_nil_iff] at hnone
  intro a ha b hb hids hactiveA hactiveB k hkA hkB
  simp only [Registry.insert, mem_append, mem_filter, mem_singleton] at ha hb
  obtain ⟨ha, -⟩ | rfl := ha
  · obtain ⟨hb, -⟩ | rfl := hb
    · exact h a ha b hb hids hactiveA hactiveB k hkA hkB
    · exact hnone a ha hactiveA k hkA hkB
  · obtain ⟨hb, -⟩ | rfl := hb
    · exact hnone b hb hactiveB k hkB hkA
    · exact hids rfl

theorem Exclusive.restart_iff (h : r.Exclusive) (jobId : String) (policyAccepted : Bool) :
    (r.updateJob jobId (OtherOp.restart policyAccepted).apply).Exclusive ↔
      r.Admits (.restart jobId policyAccepted) := by
  have hactive : ∀ job : Job X D,
      ((OtherOp.restart policyAccepted).apply job).execution.status.isActive =
        (job.restarts policyAccepted || job.execution.status.isActive) :=
    fun job => job.isActive_restart policyAccepted
  constructor
  · intro hafter j hj hid hrestarts
    rw [findConflicts_eq_nil_iff]
    intro b hb hactiveB k hkB hkJ
    by_cases hsame : b.jobId = jobId
    · -- the restarted job itself is not active
      have hbj : b = j := inj_on_of_nodup_map r.nodup hb hj (hsame.trans hid.symm)
      rw [hbj] at hactiveB
      simp only [Job.restarts, Bool.and_eq_true] at hrestarts
      have hstopped := JobStatus.not_isActive_of_canRestart hrestarts.2
      simp [RegisteredJob.isActive, hstopped] at hactiveB
    · refine hafter b (mem_updateJob.mpr ⟨b, hb, if_neg hsame⟩) _
        (mem_updateJob.mpr ⟨j, hj, if_pos hid⟩) ?_ hactiveB ?_ k hkB hkJ
      · simpa [hid] using hsame
      · simp [RegisteredJob.isActive, hactive, hrestarts]
  · intro hadmits a' ha' b' hb' hids hactiveA hactiveB k hkA hkB
    obtain ⟨a, ha, rfl⟩ := mem_updateJob.mp ha'
    obtain ⟨b, hb, rfl⟩ := mem_updateJob.mp hb'
    by_cases hidA : a.jobId = jobId
    · by_cases hidB : b.jobId = jobId
      · rw [if_pos hidA, if_pos hidB] at hids
        exact hids (hidA.trans hidB.symm)
      · rw [if_pos hidA] at hids hactiveA hkA
        rw [if_neg hidB] at hids hactiveB hkB
        simp only [RegisteredJob.isActive, hactive, Bool.or_eq_true] at hactiveA
        obtain hrestarts | hwas := hactiveA
        · have hnone := (findConflicts_eq_nil_iff _ _).mp (hadmits a ha hidA hrestarts)
          exact hnone b hb hactiveB k hkB hkA
        · exact h a ha b hb hids hwas hactiveB k hkA hkB
    · rw [if_neg hidA] at hids hactiveA hkA
      by_cases hidB : b.jobId = jobId
      · rw [if_pos hidB] at hids hactiveB hkB
        simp only [RegisteredJob.isActive, hactive, Bool.or_eq_true] at hactiveB
        obtain hrestarts | hwas := hactiveB
        · have hnone := (findConflicts_eq_nil_iff _ _).mp (hadmits b hb hidB hrestarts)
          exact hnone a ha hactiveA k hkA hkB
        · exact h a ha b hb hids hactiveA hwas k hkA hkB
      · rw [if_neg hidB] at hids hactiveB hkB
        exact h a ha b hb hids hactiveA hactiveB k hkA hkB

end Registry

theorem StoredJob.isActive_recovered {s : StoredJob C X D} {ttlCutoff : MachineTime}
    {j : RegisteredJob C X D} (h : s.recovered ttlCutoff now = some j) :
    j.isActive = true ↔ s.Resumes ttlCutoff := by
  unfold StoredJob.recovered at h
  rw [Option.map_eq_some_iff] at h
  obtain ⟨recovered, hrec, rfl⟩ := h
  have hload : s.row.Loadable s.tables ttlCutoff := by
    rw [JobRow.startup_eq] at hrec
    split at hrec
    · next hload => exact hload
    · cases hrec
  have hleft := recovered_unfinished hrec
  rw [JobRow.startup_eq, if_pos hload] at hrec
  have hjob : recovered.1 = ((s.row.recoverInterrupted now).reconciled s.tables).1 := by
    rw [← Option.some.inj hrec]
  unfold RegisteredJob.isActive StoredJob.Resumes
  simp only [hload, true_and]
  cases hrefusal : s.tables.refusal with
  | some refusal =>
    rw [hjob, JobRow.reconciled_job]
    simp [JobRow.job, hrefusal, JobStatus.isRecoverable, JobStatus.isActive]
  | none =>
    simp only [true_and]
    by_cases hrow : s.isActive = true ∨ s.row.columns.status = .interrupted
    · have hstatus : ((s.row.recoverInterrupted now).job s.tables).execution.status =
          .interrupted := by
        simp [JobRow.job, hrefusal, JobRow.status_recoverInterrupted now hrow]
      have hreconciled : recovered.1 =
          ((s.row.recoverInterrupted now).job s.tables).reconcileRecoveredRuntimeState.1 := by
        rw [hjob, JobRow.reconciled_job, hstatus]
        rfl
      rw [hreconciled, Job.unfinishedFiles_reconcile] at hleft
      rw [hreconciled, ← hleft]
      obtain ⟨-, hsome, hqueued, -⟩ | ⟨-, hnone, -⟩ :=
        ((s.row.recoverInterrupted now).job s.tables).reconcile_cases
      · have haccepted : ((s.row.recoverInterrupted now).job
            s.tables).execution.status.canTransitionTo .queued .reconcile = true := by
          rw [hstatus]
          rfl
        rw [hqueued, Job.setStatus_eq_of_accepted _ haccepted]
        simp [JobStatus.isActive, hsome, hrow]
      · obtain ⟨hverdict, -⟩ := Job.reconcile_finished (by rw [hstatus]; rfl) hnone
        rw [hverdict, hnone]
        split <;> simp [JobStatus.isActive]
    · -- a job that had stopped keeps its status
      simp only [hrow, false_and, iff_false]
      push Not at hrow
      have hinactive : s.row.columns.status.isActive = false := by
        simpa [StoredJob.isActive] using hrow.1
      have hsame : s.row.recoverInterrupted now = s.row := by
        unfold JobRow.recoverInterrupted
        simp [hinactive]
      have hnot : s.row.columns.status.isRecoverable = false := by
        revert hinactive hrow
        cases s.row.columns.status <;> simp [JobStatus.isActive, JobStatus.isRecoverable]
      rw [hjob, hsame, JobRow.reconciled_job]
      simp [JobRow.job, hrefusal, hnot, hinactive]

namespace Registry

theorem startup_exclusive_iff (database : Database C X D) (ttlCutoff now : MachineTime)
    (r : Registry C X D) : (database.startup ttlCutoff now).Exclusive ↔
      r.Admits (.startup database ttlCutoff now) := by
  constructor
  · intro h a ha b hb hids _ hresumesA hresumesB k hk
    -- both rows are loaded, and both jobs are active
    have hloaded : ∀ s : StoredJob C X D, s.Resumes ttlCutoff →
        ∃ j, s.recovered ttlCutoff now = some j ∧ j.toJobSource = s.toJobSource := by
      intro s hs
      unfold StoredJob.recovered
      rw [JobRow.startup_eq, if_pos hs.2.1]
      exact ⟨_, rfl, rfl⟩
    obtain ⟨a', ha', hsourceA⟩ := hloaded a hresumesA
    obtain ⟨b', hb', hsourceB⟩ := hloaded b hresumesB
    rw [← hsourceA] at hids hk
    rw [← hsourceB] at hids ⊢
    exact h a' (mem_filterMap.mpr ⟨a, ha, ha'⟩) b' (mem_filterMap.mpr ⟨b, hb, hb'⟩)
      hids ((StoredJob.isActive_recovered ha').mpr hresumesA)
      ((StoredJob.isActive_recovered hb').mpr hresumesB) k hk
  · intro hadmits a' ha' b' hb' hids hactiveA hactiveB k hkA hkB
    obtain ⟨a, ha, hrecA⟩ := mem_filterMap.mp ha'
    obtain ⟨b, hb, hrecB⟩ := mem_filterMap.mp hb'
    have hresumesA := (StoredJob.isActive_recovered hrecA).mp hactiveA
    have hresumesB := (StoredJob.isActive_recovered hrecB).mp hactiveB
    have hsource : ∀ {s : StoredJob C X D} {j : RegisteredJob C X D},
        s.recovered ttlCutoff now = some j → j.toJobSource = s.toJobSource := by
      intro s j hj
      unfold StoredJob.recovered at hj
      rw [Option.map_eq_some_iff] at hj
      obtain ⟨recovered, -, rfl⟩ := hj
      rfl
    rw [hsource hrecA] at hids hkA
    rw [hsource hrecB] at hids hkB
    obtain hrowA | hrowA := hresumesA.2.2.1
    · obtain hrowB | hrowB := hresumesB.2.2.1
      · exact database.exclusive a ha b hb hids hrowA hrowB k hkA hkB
      · exact hadmits b hb a ha (Ne.symm hids) hrowB hresumesB hresumesA k hkB hkA
    · exact hadmits a ha b hb hids hrowA hresumesA hresumesB k hkA hkB

theorem Exclusive.apply_iff {r : Registry C X D} (h : r.Exclusive) (op : RegistryOp C X D) :
    (r.apply op).Exclusive ↔ r.Admits op := by
  have hupdate : ∀ {jobId : String} {f : Job X D → Job X D},
      op.onJob = some (jobId, f) → (∀ accepted, op ≠ .restart jobId accepted) →
      (r.updateJob jobId f).Exclusive := by
    intro jobId f hop hrestart
    exact h.updateJob (fun job => RegistryOp.isActive_of_onJob hop hrestart) jobId
  cases op with
  | submit job =>
    refine ⟨fun _ => trivial, fun _ => ?_⟩
    cases hconflicts : (findConflicts r.jobs job.toJobSource).isEmpty
    · have hrefused : r.apply (.submit job) = r := by
        simp [Registry.apply, Registry.insertChecked, hconflicts]
      rw [hrefused]
      exact h
    · have hadded : r.apply (.submit job) = r.insert job := by
        simp [Registry.apply, Registry.insertChecked, hconflicts]
      rw [hadded]
      exact h.insert (List.isEmpty_iff.mp hconflicts)
  | restart jobId policyAccepted => exact h.restart_iff jobId policyAccepted
  | delete jobId =>
    refine ⟨fun _ => trivial, fun _ => ?_⟩
    apply h.of_shrunk
    intro j hj
    exact ⟨j, (mem_filter.mp hj).1, rfl, id⟩
  | interruptAllActive now =>
    refine ⟨fun _ => trivial, fun _ => ?_⟩
    apply h.of_shrunk
    intro j' hj'
    obtain ⟨j, hj, rfl⟩ := mem_map.mp hj'
    refine ⟨j, hj, rfl, ?_⟩
    intro hactive
    rw [RegisteredJob.isActive, Job.not_isActive_interruptForShutdown] at hactive
    cases hactive
  | startup database ttlCutoff now => exact startup_exclusive_iff database ttlCutoff now r
  | cancel jobId now =>
    exact ⟨fun _ => trivial, fun _ => hupdate rfl (fun _ => by simp)⟩
  | runner jobId op =>
    exact ⟨fun _ => trivial, fun _ => hupdate rfl (fun _ => by simp)⟩
  | updateJobStatus jobId status error now =>
    exact ⟨fun _ => trivial, fun _ => hupdate rfl (fun _ => by simp)⟩
  | beginRunner jobId =>
    exact ⟨fun _ => trivial, fun _ => hupdate rfl (fun _ => by simp)⟩
  | releaseRunnerClaim jobId =>
    exact ⟨fun _ => trivial, fun _ => hupdate rfl (fun _ => by simp)⟩

def step (r : Registry C X D) (op : RegistryOp C X D) : Option (Registry C X D) :=
  some (r.apply op)

end Registry

/-- From an empty registry, over every sequence of operations: no two active jobs of one submitter have a file
  of one path exactly when every restart and startup is admitted. -/
theorem exclusive_iff_admits (ops : List (RegistryOp C X D)) :
    Runs.Always Registry.step Registry.Exclusive Registry.empty ops ↔
      Runs.Along Registry.step Registry.Admits Registry.empty ops := by
  apply Runs.always_iff_along
  · intro r op r' h hstep
    cases hstep
    exact h.apply_iff op
  · intro a ha
    cases ha

def oneFileSubmission (jobId : String) : RegisteredJob Unit Unit Unit where
  jobId := jobId
  command := ()
  submitter := some ⟨"10.0.0.7", "lab"⟩
  sourceDir := "/corpus"
  filenames := ["a.cha"]
  job := (Server.submitted 0 ["a.cha"] (nodup_singleton _)).job

/-- Submitted, cancelled, submitted again, and the first job restarted: both jobs are queued. -/
theorem restarted_job_conflicts : ¬ Runs.Always Registry.step Registry.Exclusive Registry.empty
      [.submit (oneFileSubmission "first"), .cancel "first" 10,
        .submit (oneFileSubmission "second"), .restart "first" true] := by
  intro h
  obtain ⟨-, h⟩ := h
  obtain ⟨-, h⟩ := h _ rfl
  obtain ⟨-, h⟩ := h _ rfl
  obtain ⟨-, h⟩ := h _ rfl
  exact h _ rfl _ mem_cons_self _ (mem_cons_of_mem _ mem_cons_self) (by decide)
    rfl rfl (some "10.0.0.7", "/corpus/a.cha") (by decide) (by decide)

/-- The row of a job with one file, under a status. -/
def oneFileStored (jobId : String) (status : JobStatus) : StoredJob Unit Unit Unit where
  toJobSource := (oneFileSubmission jobId).toJobSource
  tables := ⟨true, none, fun _ => none⟩
  row := { (Server.submitted 0 ["a.cha"] (nodup_singleton _)).row with columns := ⟨status, none, none, none, none⟩ }

/-- A second job taken in while the first was interrupted. -/
def storedTwice : Database Unit Unit Unit where
  rows := [oneFileStored "first" .interrupted, oneFileStored "second" .queued]
  nodup := by decide
  exclusive := by
    intro a ha b hb hids hactiveA hactiveB
    simp only [mem_cons, not_mem_nil, or_false] at ha hb
    rcases ha with rfl | rfl
    · cases hactiveA
    · rcases hb with rfl | rfl
      · cases hactiveB
      · exact absurd rfl hids

-- a startup brings the interrupted one back, and both are active
example : ¬ (storedTwice.startup 0 10).Exclusive := by
  intro h
  exact h _ mem_cons_self _ (mem_cons_of_mem _ mem_cons_self) (by decide) (by decide) (by decide)
    (some "10.0.0.7", "/corpus/a.cha") (by decide) (by decide)

end Batchalign.Store
