import Batchalign.Store.Crash

/- The runner claim (`store/registry.rs`, `store/job/lease.rs`, `runner/execution.rs`). A runner's task
   polls the job's one flag until it is clear, sets it, runs, and clears it. The flag has no owner:
   `release_local_dispatch_claim` clears it whoever calls, and so does a shutdown's interruption. -/

namespace Batchalign.Store

variable {X D : Type}

/-- Where the task of one runner is in `job_task`. -/
inductive TaskPoint where
  /-- spawned by a memory gate's refusal, asleep until its retry is due -/
  | sleeping (retryAt : MachineTime)
  /-- polling the claim -/
  | waiting
  /-- `Started`, running the job -/
  | running (generation : Nat)
  /-- its run is over and its release is still to come -/
  | ending (generation : Nat)
  | finished
  deriving DecidableEq

def TaskPoint.isLive : TaskPoint → Bool
  | running _ | ending _ => true
  | sleeping _ | waiting | finished => false

/-- A job, and where each task of a runner is. -/
structure ClaimState (X D : Type) where
  job : Job X D
  tasks : List TaskPoint

inductive ClaimEvent (X D : Type) where
  /-- a task spawned for a submitted or recovered job -/
  | dispatch
  /-- a restart, and the task it spawns if it is accepted -/
  | restart (policyAccepted : Bool)
  | cancel (now : MachineTime)
  | interruptForShutdown (now : MachineTime)
  /-- a delayed task's sleep is over -/
  | wake (i : Nat)
  | beginRunner (i : Nat)
  /-- a store operation of a running runner, its memory gate requeue among them -/
  | runnerOp (i : Nat) (op : RunnerOp X D)
  /-- a run the memory gate refused ends: its successor is spawned -/
  | requeued (i : Nat) (retryAt : MachineTime)
  | completed (i : Nat)
  | release (i : Nat)

namespace ClaimState

def step (s : ClaimState X D) : ClaimEvent X D → Option (ClaimState X D)
  | .dispatch => some { s with tasks := s.tasks ++ [.waiting] }
  | .restart policyAccepted =>
    match s.job.prepareForRestart policyAccepted with
    | .ok job => some ⟨job, s.tasks ++ [.waiting]⟩
    | .error _ => some s
  | .cancel now => some { s with job := (s.job.requestCancellation now).1 }
  | .interruptForShutdown now => some { s with job := (s.job.interruptForShutdown now).1 }
  | .wake i =>
    match s.tasks[i]? with
    | some (.sleeping _) => some { s with tasks := s.tasks.set i .waiting }
    | _ => none
  | .beginRunner i =>
    match s.tasks[i]?, s.job.beginRunner with
    | some .waiting, (job, some generation) => some ⟨job, s.tasks.set i (.running generation)⟩
    -- the claim is held: the task sleeps and polls again
    | some .waiting, (_, none) => some s
    | _, _ => none
  | .runnerOp i op =>
    match s.tasks[i]? with
    | some (.running _) => some { s with job := op.apply s.job }
    | _ => none
  | .requeued i retryAt =>
    match s.tasks[i]? with
    | some (.running generation) =>
      some { s with tasks := s.tasks.set i (.ending generation) ++ [.sleeping retryAt] }
    | _ => none
  | .completed i =>
    match s.tasks[i]? with
    | some (.running generation) => some { s with tasks := s.tasks.set i (.ending generation) }
    | _ => none
  | .release i =>
    match s.tasks[i]? with
    | some (.ending _) =>
      some ⟨s.job.releaseLocalDispatchClaim, s.tasks.set i .finished⟩
    | _ => none

def live (s : ClaimState X D) : Nat := s.tasks.countP TaskPoint.isLive

def AtMostOneLive (s : ClaimState X D) : Prop := s.live ≤ 1

def ClearWhenIdle (s : ClaimState X D) : Prop :=
  s.live = 0 → s.job.runtime.runnerActive = false

def StartsAlone (s : ClaimState X D) : ClaimEvent X D → Prop
  | .beginRunner i => s.tasks[i]? = some .waiting → s.job.runtime.runnerActive = false → s.live = 0
  | _ => True

def InterruptsIdle (s : ClaimState X D) : ClaimEvent X D → Prop
  | .interruptForShutdown _ => s.job.execution.status.isActive = true → s.live = 0
  | _ => True

theorem live_set {tasks : List TaskPoint} {i : Nat} {old q : TaskPoint} (h : tasks[i]? = some old) :
    (tasks.set i q).countP TaskPoint.isLive + (if old.isLive then 1 else 0) =
      tasks.countP TaskPoint.isLive + (if q.isLive then 1 else 0) := by
  obtain ⟨hi, hold⟩ := List.getElem?_eq_some_iff.mp h
  have hpos : old.isLive = true → 0 < tasks.countP TaskPoint.isLive := by
    intro hlive
    rw [List.countP_pos_iff]
    exact ⟨old, List.mem_of_getElem? h, hlive⟩
  rw [List.countP_set hi, hold]
  cases hlive : old.isLive
  · simp
  · have hone := hpos hlive
    simp only [if_true]
    omega

variable {s s' : ClaimState X D} {e : ClaimEvent X D}

theorem live_started {i : Nat} (htask : s.tasks[i]? = some .waiting) {generation : Nat} {job : Job X D} :
    live ⟨job, s.tasks.set i (.running generation)⟩ = s.live + 1 := by
  simpa [live, TaskPoint.isLive] using live_set (q := .running generation) htask

theorem step_cases (h : s.step e = some s') :
    (s'.job.runtime.runnerActive = s.job.runtime.runnerActive ∧ s'.live = s.live) ∨
    (∃ i, e = .beginRunner i ∧ s.tasks[i]? = some .waiting ∧
      s.job.runtime.runnerActive = false ∧ s'.job.runtime.runnerActive = true ∧
      s'.live = s.live + 1) ∨ (s'.job.runtime.runnerActive = false ∧ s.live = s'.live + 1) ∨
    (∃ now, e = .interruptForShutdown now ∧ s.job.execution.status.isActive = true ∧
      s'.job.runtime.runnerActive = false ∧ s'.live = s.live) := by
  cases e with
  | dispatch =>
    cases h
    simp [live, TaskPoint.isLive]
  | restart policyAccepted =>
    left
    simp only [step] at h
    split at h
    · next job hjob =>
      cases h
      simp only [Job.prepareForRestart] at hjob
      split at hjob
      · cases hjob
      · split at hjob
        · cases hjob
        · cases hjob
          simp [live, TaskPoint.isLive]
    · cases h
      exact ⟨rfl, rfl⟩
  | cancel now =>
    cases h
    left
    refine ⟨?_, rfl⟩
    cases hallowed : s.job.execution.status.canTransitionTo .cancelled .interrupt <;>
      simp [Job.requestCancellation, Job.stop, Stop.status, Job.setStatus, hallowed,
        Job.adoptStatusColumns]
  | interruptForShutdown now =>
    cases h
    cases hactive : s.job.execution.status.isActive
    · have hrefused : s.job.execution.status.canTransitionTo .interrupted .interrupt = false := by
        simp [JobStatus.canTransitionTo, JobStatus.canCancel, hactive]
      simp [Job.interruptForShutdown, Job.stop, Stop.status, Job.setStatus, hrefused, live]
    · right; right; right
      have haccepted : s.job.execution.status.canTransitionTo .interrupted .interrupt = true := by
        simp [JobStatus.canTransitionTo, JobStatus.canCancel, hactive]
      refine ⟨now, rfl, rfl, ?_, rfl⟩
      simp [Job.interruptForShutdown, Job.stop, Stop.status, Job.setStatus, haccepted]
  | wake i =>
    left
    simp only [step] at h
    split at h
    · next retryAt htask =>
      cases h
      simpa [live, TaskPoint.isLive] using live_set (q := .waiting) htask
    · cases h
  | beginRunner i =>
    simp only [step] at h
    cases htask : s.tasks[i]? with
    | none => simp [htask] at h
    | some task =>
      cases task with
      | waiting =>
        cases hflag : s.job.runtime.runnerActive
        · simp only [htask, Job.beginRunner, hflag, Bool.false_eq_true, if_false] at h
          cases h
          right; left
          exact ⟨i, rfl, htask, rfl, rfl, live_started htask⟩
        · simp only [htask, Job.beginRunner, hflag, if_true] at h
          cases h
          left
          exact ⟨hflag, rfl⟩
      | _ => simp [htask] at h
  | runnerOp i op =>
    left
    simp only [step] at h
    split at h
    · cases h
      exact ⟨congrArg JobRuntimeControl.runnerActive (op.apply_runtime s.job), rfl⟩
    · cases h
  | requeued i retryAt =>
    left
    simp only [step] at h
    split at h
    · next generation htask =>
      cases h
      simpa [live, TaskPoint.isLive] using live_set (q := .ending generation) htask
    · cases h
  | completed i =>
    left
    simp only [step] at h
    split at h
    · next generation htask =>
      cases h
      simpa [live, TaskPoint.isLive] using live_set (q := .ending generation) htask
    · cases h
  | release i =>
    right; right; left
    simp only [step] at h
    split at h
    · next generation htask =>
      cases h
      refine ⟨rfl, ?_⟩
      have hcount := live_set (q := .finished) htask
      exact hcount.symm
    · cases h

def Owned (s : ClaimState X D) : Prop := s.job.runtime.runnerActive = true → 1 ≤ s.live

def Faithful (s : ClaimState X D) : Prop :=
  s.live = if s.job.runtime.runnerActive then 1 else 0

theorem Owned.step (h : s.Owned) (hstep : s.step e = some s') : s'.Owned := by
  intro hflag
  obtain ⟨hsame, hlive⟩ | ⟨i, -, -, -, -, hlive⟩ | ⟨hclear, -⟩ | ⟨now, -, -, hclear, -⟩ :=
    step_cases hstep
  · rw [hlive]
    exact h (hsame ▸ hflag)
  · omega
  · rw [hclear] at hflag
    cases hflag
  · rw [hclear] at hflag
    cases hflag

theorem Owned.clearWhenIdle (h : s.Owned) : s.ClearWhenIdle := by
  intro hidle
  by_contra hflag
  have hlive := h (by simpa using hflag)
  omega

theorem AtMostOneLive.step_iff (h : s.AtMostOneLive)
    (hstep : s.step e = some s') : s'.AtMostOneLive ↔ s.StartsAlone e := by
  constructor
  · intro hone
    cases e with
    | beginRunner i =>
      intro htask hflag
      simp only [step, htask, Job.beginRunner, hflag, Bool.false_eq_true, if_false] at hstep
      cases hstep
      unfold AtMostOneLive at hone
      rw [live_started htask] at hone
      omega
    | _ => trivial
  · intro halone
    unfold AtMostOneLive at h ⊢
    obtain ⟨-, hlive⟩ | ⟨i, he, htask, hclear, -, hlive⟩ | ⟨-, hlive⟩ | ⟨now, -, -, -, hlive⟩ :=
      step_cases hstep
    · rw [hlive]
      exact h
    · subst he
      rw [hlive, halone htask hclear]
    · omega
    · rw [hlive]
      exact h

theorem Faithful.step (h : s.Faithful) (hidle : s.InterruptsIdle e) (hstep : s.step e = some s') : s'.Faithful := by
  unfold Faithful at h ⊢
  obtain ⟨hsame, hlive⟩ | ⟨i, -, -, hclear, hset, hlive⟩ | ⟨hclear, hlive⟩ |
    ⟨now, he, hactive, hclear, hlive⟩ := step_cases hstep
  · rw [hlive, hsame]
    exact h
  · rw [hclear] at h
    rw [hlive, h, hset]
    rfl
  · rw [hclear]
    have hle : s.live ≤ 1 := by
      rw [h]
      split <;> omega
    simp only [Bool.false_eq_true, if_false]
    omega
  · subst he
    rw [hlive, hclear, hidle hactive]
    rfl

def fresh (job : Job X D) : ClaimState X D :=
  ⟨{ job with runtime := { job.runtime with runnerActive := false } }, []⟩

end ClaimState

/-- For every interleaving on one job whose interruptions meet no live runner, at most one runner is live;
  the claim is clear whenever none is; and more exactly, one runner is live at most while every runner
  starts alone. -/
theorem one_live_runner_iff (job : Job X D) (events : List (ClaimEvent X D)) :
    (Runs.Along ClaimState.step ClaimState.InterruptsIdle (ClaimState.fresh job) events →
      Runs.Always ClaimState.step (fun s => s.AtMostOneLive ∧ s.ClearWhenIdle)
        (ClaimState.fresh job) events) ∧
    Runs.Always ClaimState.step ClaimState.ClearWhenIdle (ClaimState.fresh job) events ∧
    (Runs.Always ClaimState.step (fun s => s.AtMostOneLive ∧ s.ClearWhenIdle)
        (ClaimState.fresh job) events ↔
      Runs.Along ClaimState.step ClaimState.StartsAlone (ClaimState.fresh job) events) := by
  have howned : (ClaimState.fresh job).Owned := fun hflag => nomatch hflag
  have hclear : Runs.Always ClaimState.step ClaimState.Owned (ClaimState.fresh job) events :=
    Runs.always_of_step (fun s e s' h hstep => h.step hstep) howned events
  refine ⟨?_, hclear.mono fun s h => h.clearWhenIdle, ?_⟩
  · intro halong
    have hfaithful := Runs.always_of_along (I := ClaimState.Faithful)
      (fun s e s' h hidle hstep => h.step hidle hstep)
      (show (ClaimState.fresh job).Faithful from rfl) halong
    refine hfaithful.mono ?_
    intro s h
    unfold ClaimState.Faithful at h
    constructor
    · unfold ClaimState.AtMostOneLive
      rw [h]
      split <;> omega
    · intro hidle
      rw [hidle] at h
      by_contra hflag
      simp [hflag] at h
  · apply Runs.always_iff_along_beside (J := ClaimState.Owned)
    · intro s e s' howned hstep
      exact howned.step hstep
    · intro s e s' howned ⟨hone, _⟩ hstep
      rw [← hone.step_iff hstep]
      exact and_iff_left (howned.step hstep).clearWhenIdle
    · exact howned
    · exact ⟨Nat.zero_le 1, fun _ => rfl⟩

def claimedJob : Job Unit Unit := (Server.submitted 0 ["a.cha"] (by simp)).job

/-- The first runner runs when the job is restarted; a shutdown clears its claim. -/
theorem two_runners_live_after_shutdown :
    ∃ s, Runs.run ClaimState.step (ClaimState.fresh claimedJob)
        [.dispatch, .beginRunner 0, .runnerOp 0 .markJobRunning, .cancel 10, .restart true,
          .beginRunner 1, .interruptForShutdown 20, .beginRunner 1] = some s ∧
      s.tasks = [.running 0, .running 1] ∧ ¬ s.AtMostOneLive := by
  unfold ClaimState.AtMostOneLive
  decide

end Batchalign.Store
