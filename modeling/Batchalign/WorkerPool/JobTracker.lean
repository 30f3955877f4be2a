import Batchalign.Lib.Crew
import Batchalign.Lib.Runs
import Mathlib.Data.Finset.Insert
import Mathlib.Data.Finset.Filter
import Mathlib.Logic.Function.Basic

/- The workers a job has in flight (`worker/pool/job_tracker.rs`). A dispatch holds a guard for its job
   and worker; a cancel drains the job's entry. The entry is a set, so the first of several guards to go
   takes the worker out for all. `removeIfEmpty` is the second step of `unregister`. -/
namespace Batchalign.JobTracker
open List Function

set_option linter.unusedSectionVars false

variable {J P : Type} [DecidableEq J] [DecidableEq P]

abbrev ByJob (J P : Type) := J → Option (Finset P)

def register (byJob : ByJob J P) (job : J) (pid : P) : ByJob J P :=
  update byJob job (some (insert pid ((byJob job).getD ∅)))

/-- The first step of `unregister`, and whether the second is to come. -/
def unregister (byJob : ByJob J P) (job : J) (pid : P) : ByJob J P × Bool :=
  match byJob job with
  | none => (byJob, false)
  | some pids => (update byJob job (some (pids.erase pid)), decide (pids.erase pid = ∅))

def removeIfEmpty (byJob : ByJob J P) (job : J) : ByJob J P :=
  if byJob job = some ∅ then update byJob job none else byJob

def drain (byJob : ByJob J P) (job : J) : Finset P × ByJob J P :=
  ((byJob job).getD ∅, update byJob job none)

/-- Where a guard is; `drained` is `held` after a drain, which the code does not mark. -/
inductive Stage where
  | held
  | drained
  | removing
  | dropped
  deriving DecidableEq

structure TrackerGuard (J P : Type) where
  jobId : J
  pid : P
  stage : Stage

def TrackerGuard.markDrained (job : J) (g : TrackerGuard J P) : TrackerGuard J P :=
  if g.jobId = job ∧ g.stage = .held then { g with stage := .drained } else g

/-- The guards made so far, and the map from jobs to processes. -/
structure State (J P : Type) where
  byJob : ByJob J P
  guards : List (TrackerGuard J P)

inductive Event (J P : Type) where
  | new (jobId : J) (pid : P)
  | drop (k : ℕ)
  | removeIfEmpty (k : ℕ)
  | drain (job : J)

def step (s : State J P) : Event J P → Option (State J P)
  | .new job pid => some ⟨register s.byJob job pid, ⟨job, pid, .held⟩ :: s.guards⟩
  | .drop k => s.guards[k]?.bind (fun g =>
      if g.stage = .held ∨ g.stage = .drained then
        let (byJob, nowEmpty) := unregister s.byJob g.jobId g.pid
        some ⟨byJob, s.guards.set k { g with stage := if nowEmpty then .removing else .dropped }⟩
      else none)
  | .removeIfEmpty k => s.guards[k]?.bind (fun g =>
      if g.stage = .removing then
        some ⟨removeIfEmpty s.byJob g.jobId, s.guards.set k { g with stage := .dropped }⟩
      else none)
  | .drain job => some ⟨(drain s.byJob job).2, s.guards.map (TrackerGuard.markDrained job)⟩

def start : State J P := ⟨fun _ => none, []⟩

/-- A dispatch of the job holds its guard of the worker, not drained since it was made. -/
def Serving (s : State J P) (job : J) (pid : P) : Prop := ⟨job, pid, .held⟩ ∈ s.guards

/-- A cancel finds every worker serving the job: in the entry, which a drain gives; a job without guards has
  none. -/
structure Finds (s : State J P) : Prop where
  registered : ∀ job pid, Serving s job pid → ∃ pids, s.byJob job = some pids ∧ pid ∈ pids
  drained : ∀ job pid, pid ∈ (drain s.byJob job).1 ↔ Serving s job pid
  cleared : ∀ job, (∀ g ∈ s.guards, g.jobId = job → g.stage = .dropped) → s.byJob job = none

/-- The guard that goes is the last of its job on its worker that no drain has seen. -/
def LastGoes (s : State J P) : Event J P → Prop
  | .drop k => ∀ g ∈ s.guards[k]?, ∀ i ≠ k, s.guards[i]? ≠ some ⟨g.jobId, g.pid, .held⟩
  | _ => True

variable {s s' : State J P} {e : Event J P} {k : ℕ} {byJob : ByJob J P} {job job' : J}
  {pid pid' : P}

theorem mem_registered : pid' ∈ (drain (register byJob job pid) job').1 ↔
    job' = job ∧ pid' = pid ∨ pid' ∈ (drain byJob job').1 := by
  by_cases h : job' = job
  · subst h
    simp [drain, register]
  · simp [drain, register, h]

theorem mem_unregistered : pid' ∈ (drain (unregister byJob job pid).1 job').1 ↔
    pid' ∈ (drain byJob job').1 ∧ ¬ (job' = job ∧ pid' = pid) := by
  unfold unregister
  by_cases h : job' = job
  · subst h
    cases hentry : byJob job' <;> simp [drain, hentry, and_comm]
  · cases hentry : byJob job <;> simp [drain, h]

theorem mem_removed : pid' ∈ (drain (removeIfEmpty byJob job) job').1 ↔ pid' ∈ (drain byJob job').1 := by
  unfold removeIfEmpty
  split
  · next hempty =>
    by_cases h : job' = job
    · subst h
      simp [drain, hempty]
    · simp [drain, h]
  · rfl

theorem mem_drained : pid' ∈ (drain (update byJob job none) job').1 ↔
    job' ≠ job ∧ pid' ∈ (drain byJob job').1 := by
  by_cases h : job' = job
  · subst h
    simp [drain]
  · simp [drain, h]

theorem registered_ne_empty (h : register byJob job pid job' = some ∅) : byJob job' = some ∅ := by
  by_cases hjob : job' = job
  · subst hjob
    simp [register] at h
  · simpa [register, hjob] using h

theorem unregistered_empty (h : (unregister byJob job pid).1 job' = some ∅) :
    job' = job ∧ (unregister byJob job pid).2 = true ∨ job' ≠ job ∧ byJob job' = some ∅ := by
  unfold unregister at h ⊢
  by_cases hjob : job' = job
  · subst hjob
    cases hentry : byJob job' with
    | none => simp [hentry] at h
    | some pids => exact .inl ⟨rfl, by simpa [hentry] using h⟩
  · cases hentry : byJob job with
    | none => exact .inr ⟨hjob, by simpa [hentry] using h⟩
    | some pids => exact .inr ⟨hjob, by simpa [hentry, hjob] using h⟩

theorem drained_empty (h : update byJob job none job' = some ∅) : job' ≠ job ∧ byJob job' = some ∅ := by
  by_cases hjob : job' = job
  · subst hjob
    simp at h
  · exact ⟨hjob, by simpa [hjob] using h⟩

theorem removed_empty (h : removeIfEmpty byJob job job' = some ∅) : job' ≠ job ∧ byJob job' = some ∅ := by
  unfold removeIfEmpty at h
  split at h
  · exact drained_empty h
  · next hnot => exact ⟨fun hj => hnot (hj ▸ h), h⟩

theorem step_cases (h : step s e = some s') : (∃ job pid, e = .new job pid ∧
      s' = ⟨register s.byJob job pid, ⟨job, pid, .held⟩ :: s.guards⟩) ∨
    (∃ k job pid stage, e = .drop k ∧ s.guards[k]? = some ⟨job, pid, stage⟩ ∧
      (stage = .held ∨ stage = .drained) ∧ s' = ⟨(unregister s.byJob job pid).1, s.guards.set k ⟨job, pid,
        if (unregister s.byJob job pid).2 then .removing else .dropped⟩⟩) ∨
    (∃ k job pid, e = .removeIfEmpty k ∧ s.guards[k]? = some ⟨job, pid, .removing⟩ ∧
      s' = ⟨removeIfEmpty s.byJob job, s.guards.set k ⟨job, pid, .dropped⟩⟩) ∨ ∃ job, e = .drain job ∧
      s' = ⟨update s.byJob job none, s.guards.map (TrackerGuard.markDrained job)⟩ := by
  cases e with
  | new job pid =>
    cases h
    exact .inl ⟨job, pid, rfl, rfl⟩
  | drop k =>
    obtain ⟨⟨job, pid, stage⟩, hg, h⟩ := Option.bind_eq_some_iff.mp h
    split at h
    · next hstage =>
      cases h
      exact .inr (.inl ⟨k, job, pid, stage, rfl, hg, hstage, rfl⟩)
    · cases h
  | removeIfEmpty k =>
    obtain ⟨⟨job, pid, stage⟩, hg, h⟩ := Option.bind_eq_some_iff.mp h
    split at h
    · next hstage =>
      cases hstage
      cases h
      exact .inr (.inr (.inl ⟨k, job, pid, rfl, hg, rfl⟩))
    · cases h
  | drain job =>
    cases h
    exact .inr (.inr (.inr ⟨job, rfl, rfl⟩))

theorem mem_set {g f : TrackerGuard J P} (f' : TrackerGuard J P) (hk : s.guards[k]? = some f)
    (hg : g ∈ s.guards) (hne : g ≠ f) : g ∈ s.guards.set k f' :=
  (Crew.mem_set_of_mem f' hk hg).resolve_left hne

theorem mem_markDrained {g : TrackerGuard J P} (hg : g ∈ s.guards)
    (h : g.jobId ≠ job ∨ g.stage ≠ .held) : g ∈ s.guards.map (TrackerGuard.markDrained job) :=
  mem_map.mpr ⟨g, hg, if_neg (not_and_or.mpr h)⟩

theorem serving_set {f : TrackerGuard J P} (hf : f.stage ≠ .held)
    (h : Serving ⟨byJob, s.guards.set k f⟩ job pid) : ∃ i ≠ k, s.guards[i]? = some ⟨job, pid, .held⟩ := by
  obtain ⟨i, hi⟩ := mem_iff_getElem?.mp h
  by_cases hik : i = k
  · subst hik
    rw [getElem?_set_self'] at hi
    cases hget : s.guards[i]? with
    | none => simp [hget] at hi
    | some g =>
      rw [hget] at hi
      cases hi
      exact absurd rfl hf
  · rw [getElem?_set_ne (Ne.symm hik)] at hi
    exact ⟨i, hik, hi⟩

/-- In any order: a worker in an entry is served, and an empty entry is about to go. -/
structure Sound (s : State J P) : Prop where
  served : ∀ job, ∀ pid ∈ (drain s.byJob job).1, Serving s job pid
  removing : ∀ job, s.byJob job = some ∅ → ∃ pid, ⟨job, pid, .removing⟩ ∈ s.guards

theorem Sound.step (h : Sound s) (hstep : step s e = some s') : Sound s' := by
  rcases step_cases hstep with ⟨job, pid, rfl, rfl⟩ | ⟨k, job, pid, stage, rfl, hk, hstage, rfl⟩ |
    ⟨k, job, pid, rfl, hk, rfl⟩ | ⟨job, rfl, rfl⟩
  · constructor
    · intro j p hp
      obtain ⟨rfl, rfl⟩ | hp := mem_registered.mp hp
      · exact mem_cons_self
      · exact mem_cons_of_mem _ (h.served j p hp)
    · intro j hj
      obtain ⟨p, hp⟩ := h.removing j (registered_ne_empty hj)
      exact ⟨p, mem_cons_of_mem _ hp⟩
  · constructor
    · intro j p hp
      obtain ⟨hp, hne⟩ := mem_unregistered.mp hp
      refine mem_set _ hk (h.served j p hp) ?_
      intro heq
      cases heq
      exact hne ⟨rfl, rfl⟩
    · intro j hj
      obtain ⟨rfl, hempty⟩ | ⟨hne, hj⟩ := unregistered_empty hj
      · exact ⟨pid, mem_iff_getElem?.mpr ⟨k, by simp [getElem?_set_self', hk, hempty]⟩⟩
      · obtain ⟨p, hp⟩ := h.removing j hj
        exact ⟨p, mem_set _ hk hp (by simp [hne])⟩
  · constructor
    · exact fun j p hp => mem_set _ hk (h.served j p (mem_removed.mp hp)) (by simp)
    · intro j hj
      obtain ⟨hne, hj⟩ := removed_empty hj
      obtain ⟨p, hp⟩ := h.removing j hj
      exact ⟨p, mem_set _ hk hp (by simp [hne])⟩
  · constructor
    · intro j p hp
      obtain ⟨hne, hp⟩ := mem_drained.mp hp
      exact mem_markDrained (h.served j p hp) (.inl hne)
    · intro j hj
      obtain ⟨p, hp⟩ := h.removing j (drained_empty hj).2
      exact ⟨p, mem_markDrained hp (.inr (by simp))⟩

theorem Sound.start : Sound (start : State J P) := by
  constructor <;> simp [JobTracker.start, drain]

theorem Sound.cleared (h : Sound s) (job : J) (hdropped : ∀ g ∈ s.guards, g.jobId = job → g.stage = .dropped) :
    s.byJob job = none := by
  by_contra hentry
  obtain ⟨pids, hpids⟩ := Option.ne_none_iff_exists'.mp hentry
  obtain rfl | ⟨pid, hpid⟩ := pids.eq_empty_or_nonempty
  · obtain ⟨pid, hmem⟩ := h.removing job hpids
    cases hdropped _ hmem rfl
  · cases hdropped _ (h.served job pid (by simpa [drain, hpids] using hpid)) rfl

theorem Sound.finds_iff (h : Sound s) :
    Finds s ↔ ∀ job pid, Serving s job pid → pid ∈ (drain s.byJob job).1 := by
  constructor
  · exact fun hfinds job pid => (hfinds.drained job pid).mpr
  · intro hreg
    refine ⟨?_, fun job pid => ⟨h.served job pid, hreg job pid⟩, h.cleared⟩
    · intro job pid hserving
      have hmem := hreg job pid hserving
      cases hentry : s.byJob job with
      | none => simp [drain, hentry] at hmem
      | some pids => exact ⟨pids, rfl, by simpa [drain, hentry] using hmem⟩

theorem finds_step_iff (h : Sound s) (hfinds : Finds s) (hstep : step s e = some s') :
    Finds s' ↔ LastGoes s e := by
  rw [(h.step hstep).finds_iff]
  rw [h.finds_iff] at hfinds
  rcases step_cases hstep with ⟨job, pid, rfl, rfl⟩ | ⟨k, job, pid, stage, rfl, hk, hstage, rfl⟩ |
    ⟨k, job, pid, rfl, hk, rfl⟩ | ⟨job, rfl, rfl⟩
  · refine iff_of_true ?_ trivial
    intro j p hserving
    refine mem_registered.mpr ?_
    obtain heq | hold := mem_cons.mp hserving
    · cases heq
      exact .inl ⟨rfl, rfl⟩
    · exact .inr (hfinds j p hold)
  · simp only [LastGoes, hk, Option.mem_some_iff, forall_eq']
    constructor
    · intro hreg i hne hi
      refine (mem_unregistered.mp (hreg job pid ?_)).2 ⟨rfl, rfl⟩
      exact mem_iff_getElem?.mpr ⟨i, by rw [getElem?_set_ne (Ne.symm hne), hi]⟩
    · intro hlast j p hserving
      obtain ⟨i, hne, hi⟩ := serving_set (by split <;> simp) hserving
      refine mem_unregistered.mpr ⟨hfinds j p (mem_of_getElem? hi), ?_⟩
      rintro ⟨rfl, rfl⟩
      exact hlast i hne hi
  · refine iff_of_true ?_ trivial
    intro j p hserving
    obtain ⟨i, -, hi⟩ := serving_set (by simp) hserving
    exact mem_removed.mpr (hfinds j p (mem_of_getElem? hi))
  · refine iff_of_true ?_ trivial
    intro j p hserving
    obtain ⟨g, hg, hmark⟩ := mem_map.mp hserving
    unfold TrackerGuard.markDrained at hmark
    split at hmark
    · simp at hmark
    · next hnot =>
      subst hmark
      exact mem_drained.mpr ⟨fun hj => hnot ⟨hj, rfl⟩, hfinds j p hg⟩

/-- In every run a drain takes only processes that serve the job, and a job without guards has no entry. -/
theorem drains_only_serving (es : List (Event J P)) :
    Runs.Always step (fun s => (∀ job, ∀ pid ∈ (drain s.byJob job).1, Serving s job pid) ∧
      ∀ job, (∀ g ∈ s.guards, g.jobId = job → g.stage = .dropped) → s.byJob job = none) start es :=
  (Runs.always_of_step (fun _ _ _ h hstep => h.step hstep) Sound.start es).mono
    fun _ h => ⟨h.served, h.cleared⟩

/-- A cancel finds every worker serving the job throughout exactly when each guard that went was its job's
  last on its worker. -/
theorem finds_always_iff (es : List (Event J P)) :
    Runs.Always step Finds start es ↔ Runs.Along step LastGoes start es := by
  have hsound : Sound (start : State J P) := by constructor <;> simp [start, drain]
  have hstart : Finds (start : State J P) :=
    hsound.finds_iff.mpr (fun _ _ hserving => by cases hserving)
  exact Runs.always_iff_along_beside (fun _ _ _ h hstep => h.step hstep)
    (fun _ _ _ h hfinds hstep => finds_step_iff h hfinds hstep) hsound hstart es

/-- Two dispatches of a job; the first returns, and a cancel would not find the second's worker. -/
theorem second_dispatch_not_found : ¬ Runs.Always step (Finds (J := String) (P := ℕ)) start
      [.new "job" 7, .new "job" 7, .drop 0] := by
  intro halways
  have hfinds := halways.at_end rfl
  exact absurd ((hfinds.drained "job" 7).mpr (.tail _ (.head _))) (by decide)

end Batchalign.JobTracker
