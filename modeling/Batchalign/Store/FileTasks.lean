import Batchalign.Store.Crash

/- The files of a run (`runner/util/file_status`, `runner/job_scope.rs`). A file's task reports through
   its tracker, each call a sequence of awaited steps. A cancel drops a task between any two of them;
   the runner then records an error for each task that did not return (`join`). -/

namespace Batchalign.Store
open List

variable {X D : Type}

namespace FileOp

def result : FileOp X D → Option FileResultEntry
  | markFileDone _ finishedAt completion => (Job.completionPhase none finishedAt completion).2
  | markFileError filename failure => some ⟨filename, .chat, some failure.message⟩
  | _ => none

def counts : FileOp X D → Bool
  | markFileDone .. | markFileError .. => true
  | _ => false

/-- An operation meets its file in a phase that is not terminal; clearing a retry only a pending one. -/
def MeetsOpen (op : FileOp X D) (job : Job X D) : Prop :=
  op.persists = false ∨
    ∀ f, job.execution.fileStatuses.get op.filename = some f → f.status.isTerminal = false

variable {job : Job X D} {op : FileOp X D}

theorem apply_of_absent (h : job.execution.fileStatuses.get op.filename = none) : op.apply job = job := by
  cases op <;>
    simp only [filename] at h <;>
    simp [apply, Job.markFileProcessing, Job.markFileDone, Job.markFileError,
      Job.startFileAttempt, Job.markFileRetryPending, Job.clearFileRetryState, h]

theorem apply_counters {f : FileStatus X D} (h : job.execution.fileStatuses.get op.filename = some f) :
    (op.apply job).execution.results = job.execution.results ++ op.result.toList ∧
    (op.apply job).execution.completedFiles =
      job.execution.completedFiles + (if op.counts then 1 else 0) := by
  cases op with
  | markFileDone filename finishedAt completion =>
    simp only [FileOp.filename] at h
    cases completion <;> simp [apply, Job.markFileDone, h, result, counts, Job.completionPhase]
  | clearFileRetryState filename =>
    simp only [FileOp.filename] at h
    cases hphase : f.phase <;>
      simp [apply, Job.clearFileRetryState, h, hphase, result, counts]
  | _ =>
    simp only [FileOp.filename] at h
    simp [apply, Job.markFileProcessing, Job.markFileError, Job.startFileAttempt,
      Job.markFileRetryPending, h, result, counts]

theorem isTerminal_newPhase (h : op.persists = true) (phase : FilePhase X D) :
    (op.newPhase phase).kind.isTerminal = op.counts := by
  cases op with
  | markFileDone filename finishedAt completion => cases completion <;> rfl
  | clearFileRetryState filename => cases h
  | _ => rfl

theorem error_of_result {entry : FileResultEntry} (h : op.result = some entry)
    (phase : FilePhase X D) : op.counts = true ∧ op.persists = true ∧
      (entry.error.isSome = true ↔ (op.newPhase phase).kind = .error) := by
  cases op with
  | markFileDone filename finishedAt completion =>
    refine ⟨rfl, rfl, ?_⟩
    cases completion <;> cases h <;>
      simp [newPhase, Job.completionPhase, FilePhase.kind]
  | markFileError filename failure =>
    cases h
    exact ⟨rfl, rfl, by simp [newPhase, FilePhase.kind]⟩
  | _ => cases h

theorem isTerminal_newPhase_of_open (op : FileOp X D) {phase : FilePhase X D}
    (h : phase.kind.isTerminal = false) : (op.newPhase phase).kind.isTerminal = op.counts := by
  cases hpersists : op.persists with
  | true => exact isTerminal_newPhase hpersists phase
  | false =>
    rw [isTerminal_newPhase_of_not_persists hpersists, h]
    cases op <;> first | rfl | cases hpersists

theorem result_of_listed (op : FileOp X D) {phase : FilePhase X D} (h : phase.kind.isTerminal = false)
    (hkind : (op.newPhase phase).kind = .error ∨ (op.newPhase phase).kind = .diagnosed) :
    op.result.isSome = true := by
  have hcounts : op.counts = true := by
    rw [← isTerminal_newPhase_of_open op h]
    obtain hkind | hkind := hkind <;> rw [hkind] <;> rfl
  cases op with
  | markFileDone filename finishedAt completion =>
    cases completion with
    | withoutResult => simp [newPhase, Job.completionPhase, FilePhase.kind] at hkind
    | _ => rfl
  | markFileError filename failure => rfl
  | _ => cases hcounts

theorem apply_of_not_persists (h : op.persists = false) {f : FileStatus X D} (hget : job.execution.fileStatuses.get op.filename = some f)
    (hterminal : f.status.isTerminal = true) : op.apply job = job := by
  cases op with
  | clearFileRetryState filename =>
    simp only [FileOp.filename] at hget
    unfold FileStatus.status at hterminal
    cases hphase : f.phase <;> rw [hphase] at hterminal <;>
      first
      | simp [apply, Job.clearFileRetryState, hget, hphase]; done
      | cases hterminal
  | _ => cases h

end FileOp

namespace FileStatuses

variable {f : FileStatus X D} {filename : String} {m : FileStatuses X D}

theorem countP_rephase (h : m.get filename = some f) (p : FilePhase X D → FilePhase X D)
    (q : FileStatusKind → Bool) :
    (m.rephase filename p).countP (fun g => q g.status) + (if q f.status then 1 else 0) =
      m.values.countP (fun g => q g.status) + (if q (p f.phase).kind then 1 else 0) := by
  obtain ⟨hmem, hname⟩ := (m.get_eq_some_iff filename f).mp h
  have hnodup := m.nodup
  unfold rephase
  generalize m.values = l at hmem hnodup
  induction l with
  | nil => cases hmem
  | cons g l ih =>
    simp only [map_cons, nodup_cons] at hnodup
    simp only [map_cons, countP_cons]
    by_cases hg : g.filename = filename
    · -- the file itself; no later one has its name
      have hfg : f = g := by
        obtain hhead | htail := mem_cons.mp hmem
        · exact hhead
        · exact absurd (mem_map.mpr ⟨f, htail, hname.trans hg.symm⟩) hnodup.1
      have hrest : l.map (fun f => if f.filename = filename then { f with phase := p f.phase }
          else f) = l := by
        conv_rhs => rw [← map_id l]
        apply map_congr_left
        intro x hx
        rw [if_neg]
        · rfl
        · intro hxname
          exact hnodup.1 (mem_map.mpr ⟨x, hx, hxname.trans hg.symm⟩)
      subst hfg
      rw [hrest, if_pos hg]
      exact Nat.add_right_comm _ _ _
    · have hmem' : f ∈ l := by
        obtain hhead | htail := mem_cons.mp hmem
        · exact absurd (hhead ▸ hname) hg
        · exact htail
      have hrest := ih hmem' hnodup.2
      rw [if_neg hg]
      omega

theorem mem_of_rephase (h : f ∈ m.values) (hname : f.filename ≠ filename) (p : FilePhase X D → FilePhase X D) :
    f ∈ m.rephase filename p := by
  refine mem_map.mpr ⟨f, h, ?_⟩
  rw [if_neg hname]

theorem mem_rephase_self (h : m.get filename = some f) (p : FilePhase X D → FilePhase X D) :
    (⟨filename, p f.phase⟩ : FileStatus X D) ∈ m.rephase filename p := by
  obtain ⟨hmem, hname⟩ := (m.get_eq_some_iff filename f).mp h
  refine mem_map.mpr ⟨f, hmem, ?_⟩
  rw [if_pos hname, ← hname]

end FileStatuses

/-- The job beside its run's records: every file's recorded phase, and which file each result is of. -/
structure FileRun (X D : Type) where
  job : Job X D
  finished : List (String × FilePhase X D)
  entries : List (String × FileResultEntry)

namespace FileRun

def apply (s : FileRun X D) (op : FileOp X D) : FileRun X D :=
  match s.job.execution.fileStatuses.get op.filename with
  | none => { s with job := op.apply s.job }
  | some f => {
      job := op.apply s.job
      finished :=
        if op.counts && (op.newPhase f.phase).kind.wroteOutput then
          s.finished ++ [(op.filename, op.newPhase f.phase)]
        else s.finished
      entries := s.entries ++ (op.result.map (fun r => (op.filename, r))).toList }

def store (s : FileRun X D) (op : StoreOp) : FileRun X D :=
  match op with
  | .restart policyAccepted =>
    match s.job.prepareForRestart policyAccepted with
    | .ok job => { s with job := job, entries := s.entries.filter (fun e => e.2.error.isNone) }
    | .error _ => s
  | op => { s with job := (op.mutate s.job).1 }

structure Settled (s : FileRun X D) : Prop where
  /-- a file that became done or diagnosed has that phase still -/
  kept : ∀ p ∈ s.finished, p.2.kind.wroteOutput = true ∧
    (⟨p.1, p.2⟩ : FileStatus X D) ∈ s.job.execution.fileStatuses.values
  /-- the count is the number of files in a terminal phase -/
  counted : s.job.execution.completedFiles =
    s.job.execution.fileStatuses.countWhere FileStatusKind.isTerminal
  /-- the results are the entries recorded, and no file has two -/
  results : s.job.execution.results = s.entries.map Prod.snd
  once : (s.entries.map Prod.fst).Nodup
  /-- an entry is of a terminal file: an error of a failed one, a success of another -/
  owned : ∀ e ∈ s.entries, ∃ f ∈ s.job.execution.fileStatuses.values, f.filename = e.1 ∧
    f.status.isTerminal = true ∧ (e.2.error.isSome = true ↔ f.status = .error)
  /-- a failed or diagnosed file has an entry -/
  listed : ∀ f ∈ s.job.execution.fileStatuses.values, f.status = .error ∨ f.status = .diagnosed →
    f.filename ∈ s.entries.map Prod.fst

variable {op : FileOp X D} {s : FileRun X D} {f : FileStatus X D}

theorem apply_of_absent (h : s.job.execution.fileStatuses.get op.filename = none) : s.apply op = s := by
  unfold apply
  rw [h]
  simp only [FileOp.apply_of_absent h]

theorem apply_of_get (h : s.job.execution.fileStatuses.get op.filename = some f) : s.apply op = {
      job := op.apply s.job
      finished :=
        if op.counts && (op.newPhase f.phase).kind.wroteOutput then
          s.finished ++ [(op.filename, op.newPhase f.phase)]
        else s.finished
      entries := s.entries ++ (op.result.map (fun r => (op.filename, r))).toList } := by
  unfold apply
  rw [h]

theorem countWhere_apply (h : s.job.execution.fileStatuses.get op.filename = some f) :
    (op.apply s.job).execution.fileStatuses.countWhere FileStatusKind.isTerminal +
        (if f.status.isTerminal then 1 else 0) =
      s.job.execution.fileStatuses.countWhere FileStatusKind.isTerminal +
        (if (op.newPhase f.phase).kind.isTerminal then 1 else 0) := by
  have hcount := FileStatuses.countP_rephase h op.newPhase FileStatusKind.isTerminal
  rw [← (op.apply_spec s.job).2] at hcount
  unfold FileStatuses.countWhere
  cases hf : f.status.isTerminal <;>
    cases hp : (op.newPhase f.phase).kind.isTerminal <;>
    simp only [hf, hp, if_true, Bool.false_eq_true, if_false] at hcount ⊢ <;>
    omega

theorem not_counted_of_terminal (hs : s.Settled) (hpersists : op.persists = true)
    (h : s.job.execution.fileStatuses.get op.filename = some f)
    (hterminal : f.status.isTerminal = true) : ¬ (s.apply op).Settled := by
  intro hafter
  have hcounted := hafter.counted
  rw [apply_of_get h] at hcounted
  simp only [(FileOp.apply_counters h).2, hs.counted] at hcounted
  have hcount := countWhere_apply h
  rw [hterminal, FileOp.isTerminal_newPhase hpersists] at hcount
  simp only [if_true] at hcount
  omega

theorem ne_filename_of_terminal {g : FileStatus X D}
    (h : s.job.execution.fileStatuses.get op.filename = some f)
    (hopen : f.status.isTerminal = false) (hg : g ∈ s.job.execution.fileStatuses.values)
    (hterminal : g.status.isTerminal = true) : g.filename ≠ op.filename := by
  intro hname
  have hsome := (s.job.execution.fileStatuses.get_eq_some_iff op.filename g).mpr ⟨hg, hname⟩
  cases h.symm.trans hsome
  rw [hopen] at hterminal
  cases hterminal

theorem Settled.apply (hs : s.Settled) (h : s.job.execution.fileStatuses.get op.filename = some f)
    (hopen : f.status.isTerminal = false) : (s.apply op).Settled := by
  have hfiles := (op.apply_spec s.job).2
  have hself := FileStatuses.mem_rephase_self h op.newPhase
  have hcounts := op.isTerminal_newPhase_of_open hopen
  -- a terminal file stays as it is, under another name
  have hstays : ∀ g ∈ s.job.execution.fileStatuses.values, g.status.isTerminal = true →
      g ∈ s.job.execution.fileStatuses.rephase op.filename op.newPhase := by
    intro g hg hterminal
    exact FileStatuses.mem_of_rephase hg (ne_filename_of_terminal h hopen hg hterminal) _
  have hfresh : op.filename ∉ s.entries.map Prod.fst := by
    intro hmem
    obtain ⟨e, he, hname⟩ := mem_map.mp hmem
    obtain ⟨g, hg, hgname, hterminal, -⟩ := hs.owned e he
    exact ne_filename_of_terminal h hopen hg hterminal (hgname.trans hname)
  rw [apply_of_get h]
  constructor
  · intro p hp
    simp only [hfiles]
    have hold : p ∈ s.finished → p.2.kind.wroteOutput = true ∧ (⟨p.1, p.2⟩ : FileStatus X D) ∈
        s.job.execution.fileStatuses.rephase op.filename op.newPhase := by
      intro hp
      obtain ⟨hwrote, hmem⟩ := hs.kept p hp
      refine ⟨hwrote, hstays _ hmem ?_⟩
      unfold FileStatus.status
      cases hkind : p.2.kind <;> rw [hkind] at hwrote <;> first | rfl | cases hwrote
    split at hp
    · next hwrote =>
      obtain hp | hp := mem_append.mp hp
      · exact hold hp
      · rw [mem_singleton] at hp
        subst hp
        exact ⟨(Bool.and_eq_true_iff.mp hwrote).2, hself⟩
    · exact hold hp
  · simp only [(FileOp.apply_counters h).2, hs.counted]
    have hcount := countWhere_apply h
    rw [hopen, hcounts] at hcount
    simp only [Bool.false_eq_true, if_false] at hcount
    omega
  · simp only [(FileOp.apply_counters h).1, hs.results, map_append]
    cases op.result <;> rfl
  · simp only [map_append]
    cases op.result with
    | none => simpa using hs.once
    | some r =>
      simp only [Option.map_some, Option.toList_some, map_cons, map_nil]
      rw [nodup_append]
      refine ⟨hs.once, nodup_singleton _, ?_⟩
      intro a ha b hb hab
      rw [mem_singleton] at hb
      subst hb hab
      exact hfresh ha
  · intro e he
    simp only [hfiles]
    obtain he | he := mem_append.mp he
    · obtain ⟨g, hg, hname, hterminal, herror⟩ := hs.owned e he
      exact ⟨g, hstays g hg hterminal, hname, hterminal, herror⟩
    · obtain ⟨r, hr, rfl⟩ := Option.map_eq_some_iff.mp (Option.mem_toList.mp he)
      obtain ⟨hcounted, -, herror⟩ := FileOp.error_of_result hr f.phase
      exact ⟨_, hself, rfl, hcounts.trans hcounted, herror⟩
  · intro g hg hkind
    simp only [hfiles] at hg
    simp only [map_append]
    obtain ⟨-, hg⟩ | ⟨hname, g', hg', hname', hphase⟩ := FileStatuses.mem_rephase hg
    · exact mem_append_left _ (hs.listed g hg hkind)
    · have hgf : g' = f := by
        have hsome := (s.job.execution.fileStatuses.get_eq_some_iff op.filename g').mpr
          ⟨hg', hname'⟩
        rw [h, Option.some.injEq] at hsome
        exact hsome.symm
      subst hgf
      unfold FileStatus.status at hkind
      rw [hphase] at hkind
      obtain ⟨r, hr⟩ := Option.isSome_iff_exists.mp (op.result_of_listed hopen hkind)
      simp [hr, hname]

theorem settled_apply_iff (hs : s.Settled) (op : FileOp X D) :
    (s.apply op).Settled ↔ op.MeetsOpen s.job := by
  cases hget : s.job.execution.fileStatuses.get op.filename with
  | none =>
    rw [apply_of_absent hget]
    refine ⟨fun _ => Or.inr ?_, fun _ => hs⟩
    intro f hf
    rw [hget] at hf
    cases hf
  | some f =>
    cases hterminal : f.status.isTerminal with
    | false =>
      refine ⟨fun _ => Or.inr ?_, fun _ => hs.apply hget hterminal⟩
      intro g hg
      rw [hget, Option.some.injEq] at hg
      rw [← hg]
      exact hterminal
    | true =>
      constructor
      · intro hafter
        by_contra hmeets
        simp only [FileOp.MeetsOpen, not_or] at hmeets
        exact not_counted_of_terminal hs (by simpa using hmeets.1) hget hterminal hafter
      · intro hmeets
        obtain hpersists | hopen := hmeets
        · rw [apply_of_get hget, FileOp.apply_of_not_persists hpersists hget hterminal]
          have hquiet : op.counts = false ∧ op.result = none := by
            cases op <;> first | exact ⟨rfl, rfl⟩ | cases hpersists
          simpa [hquiet.1, hquiet.2] using hs
        · rw [hopen f hget] at hterminal
          cases hterminal

theorem Settled.of_job (hs : s.Settled) {job : Job X D}
    (hfiles : job.execution.fileStatuses = s.job.execution.fileStatuses)
    (hresults : job.execution.results = s.job.execution.results)
    (hcounted : job.execution.completedFiles = s.job.execution.completedFiles ∨
      job.execution.completedFiles =
        job.execution.fileStatuses.countWhere FileStatusKind.isTerminal) :
    ({ s with job := job } : FileRun X D).Settled := by
  constructor
  · simpa only [hfiles] using hs.kept
  · obtain hsame | hagain := hcounted
    · simpa only [hfiles, hsame] using hs.counted
    · exact hagain
  · simpa only [hresults] using hs.results
  · exact hs.once
  · simpa only [hfiles] using hs.owned
  · simpa only [hfiles] using hs.listed

end FileRun

namespace FileRun

variable {s : FileRun X D}

theorem Settled.restart (hs : s.Settled) {policyAccepted : Bool}
    {job : Job X D} (h : s.job.prepareForRestart policyAccepted = .ok job) : ({ s with
      job := job, entries := s.entries.filter (fun e => e.2.error.isNone) } : FileRun X D).Settled := by
  unfold Job.prepareForRestart at h
  split at h
  · cases h
  split at h
  · cases h
  cases h
  -- a file that wrote its output keeps its phase, every other is queued
  have hterminal : ∀ f : FileStatus X D,
      (if f.status.wroteOutput = true then f.phase else f.requeue.phase).kind.wroteOutput =
        (if f.status.wroteOutput = true then f.phase else f.requeue.phase).kind.isTerminal := by
    rintro ⟨_, phase⟩
    cases phase <;> rfl
  have hdiagnosed : ∀ f : FileStatus X D,
      (if f.status.wroteOutput = true then f.phase else f.requeue.phase).kind = .error ∨
        (if f.status.wroteOutput = true then f.phase else f.requeue.phase).kind = .diagnosed →
      f.status = .diagnosed := by
    rintro ⟨_, phase⟩ hlisted
    cases phase <;> first | rfl | simp [FileStatus.status, FilePhase.kind, FileStatus.requeue,
      FileStatusKind.wroteOutput] at hlisted
  have hmem : ∀ f ∈ s.job.execution.fileStatuses.values, f.status.wroteOutput = true →
      f ∈ (s.job.execution.fileStatuses.mapValues (fun f =>
        if f.status.wroteOutput then f.phase else f.requeue.phase)).values := by
    intro f hf hfwrote
    refine mem_map.mpr ⟨f, hf, ?_⟩
    simp [hfwrote]
  constructor
  · intro p hp
    obtain ⟨hwrote, hfile⟩ := hs.kept p hp
    exact ⟨hwrote, hmem _ hfile hwrote⟩
  · -- among the files of a restart, the terminal ones are those that wrote their output
    unfold FileStatuses.countWhere
    rw [FileStatuses.mapValues_values]
    simp only [countP_map]
    apply congrArg
    apply countP_congr
    intro f _
    exact Bool.eq_iff_iff.mp (hterminal f)
  · simp only [hs.results, filter_map]
    rfl
  · exact hs.once.sublist (filter_sublist.map Prod.fst)
  · intro e he
    obtain ⟨hentry, hclean⟩ := mem_filter.mp he
    obtain ⟨f, hf, hname, hterminal, herror⟩ := hs.owned e hentry
    have hnone : e.2.error.isSome = false := by simpa using hclean
    rw [hnone] at herror
    have hfwrote : f.status.wroteOutput = true := by
      have hne : f.status ≠ .error := fun heq => Bool.noConfusion (herror.mpr heq)
      revert hne hterminal
      cases f.status <;> simp [FileStatusKind.isTerminal, FileStatusKind.wroteOutput]
    refine ⟨f, hmem f hf hfwrote, hname, hterminal, ?_⟩
    rw [hnone]
    exact herror
  · intro f hf hlisted
    obtain ⟨g, hg, rfl⟩ := mem_map.mp hf
    have hg_diagnosed := hdiagnosed g hlisted
    obtain ⟨e, he, hname⟩ := mem_map.mp (hs.listed g hg (Or.inr hg_diagnosed))
    refine mem_map.mpr ⟨e, mem_filter.mpr ⟨he, ?_⟩, hname⟩
    obtain ⟨g', hg', hname', -, herror⟩ := hs.owned e he
    have hgg : g' = g :=
      inj_on_of_nodup_map s.job.execution.fileStatuses.nodup hg' hg (hname'.trans hname)
    rw [hgg, hg_diagnosed] at herror
    simpa using herror

theorem store_of_not_restart (s : FileRun X D) {op : StoreOp}
    (hop : ∀ accepted, op ≠ .restart accepted) :
    s.store op = { s with job := (op.mutate s.job).1 } := by
  cases op with
  | restart accepted => exact absurd rfl (hop accepted)
  | _ => rfl

theorem Settled.store (hs : s.Settled) (op : StoreOp) : (s.store op).Settled := by
  by_cases hop : ∀ accepted, op ≠ .restart accepted
  · obtain ⟨hfiles, hresults, hcounted⟩ := StoreOp.mutate_counters hop s.job
    rw [store_of_not_restart s hop]
    exact hs.of_job hfiles hresults hcounted
  · push Not at hop
    obtain ⟨accepted, rfl⟩ := hop
    cases h : s.job.prepareForRestart accepted with
    | error _ => simpa only [FileRun.store, h] using hs
    | ok job => simpa only [FileRun.store, h] using hs.restart h

theorem Settled.interrupted (hs : s.Settled) (now : MachineTime) :
    ({ s with job := (s.job.interruptForShutdown now).1 } : FileRun X D).Settled := by
  apply hs.of_job (s.job.interruptForShutdown_spec now).1
  · cases h : s.job.execution.status.canTransitionTo .interrupted .interrupt <;>
      simp [Job.interruptForShutdown, Job.stop, Stop.status, Job.setStatus, h,
        Job.adoptStatusColumns]
  · cases h : s.job.execution.status.canTransitionTo .interrupted .interrupt <;>
      simp [Job.interruptForShutdown, Job.stop, Stop.status, Job.setStatus, h,
        Job.adoptStatusColumns]

end FileRun

inductive TaskStep (X D : Type) where
  /-- the registry's record of a file -/
  | registry (op : FileOp X D)
  /-- the error of a file forced terminal; the label it names is read here, not in an await before -/
  | forceError (cause : UnfinishedFileCause) (filename : String) (now : MachineTime)
  /-- a file's row, an attempt's row, a stage or a counter: no phase, result or count -/
  | awaits

def TaskStep.performs (job : Job X D) : TaskStep X D → Option (FileOp X D)
  | registry op => some op
  | forceError cause filename now =>
    some (.markFileError filename (job.forcedFailure cause filename now))
  | awaits => none

/-! The store's operations on a file, step by step. -/

def markFileProcessingSteps (filename : String) (startedAt : MachineTime) : List (TaskStep X D) :=
  [.registry (.markFileProcessing filename startedAt), .awaits]

def markFileDoneSteps (filename : String) (finishedAt : MachineTime)
    (completion : FileCompletion X D) : List (TaskStep X D) :=
  [.registry (.markFileDone filename finishedAt completion), .awaits]

def markFileErrorSteps (filename : String) (failure : FileFailureRecord) : List (TaskStep X D) :=
  [.registry (.markFileError filename failure), .awaits, .awaits]

def startFileAttemptSteps (filename : String) (startedAt : MachineTime) : List (TaskStep X D) :=
  [.registry (.startFileAttempt filename startedAt), .awaits, .awaits, .awaits]

def markFileRetryPendingSteps (filename : String) (retry : FileRetryRecord) : List (TaskStep X D) :=
  [.registry (.markFileRetryPending filename retry), .awaits, .awaits, .awaits, .awaits]

def clearFileRetryStateSteps (filename : String) : List (TaskStep X D) :=
  [.registry (.clearFileRetryState filename)]

inductive TrackerCall (X D : Type) where
  | beginFirstAttempt (startedAt : MachineTime)
  | recordSetupFailure (error : String) (category : FailureCategory) (refusedAt : MachineTime)
  | restartAttempt (startedAt : MachineTime)
  | retryAfter (retry : FileRetryRecord)
  | fail (error : String) (category : FailureCategory) (finishedAt : MachineTime)
  | complete (completion : FileCompletion X D) (finishedAt : MachineTime)

namespace TrackerCall

def steps (filename : String) : TrackerCall X D → List (TaskStep X D)
  | beginFirstAttempt startedAt =>
    markFileProcessingSteps filename startedAt ++ clearFileRetryStateSteps filename ++
      startFileAttemptSteps filename startedAt ++ [.awaits]
  | recordSetupFailure error category refusedAt =>
    clearFileRetryStateSteps filename ++ startFileAttemptSteps filename refusedAt ++
      markFileErrorSteps filename ⟨error, category, refusedAt⟩
  | restartAttempt startedAt =>
    clearFileRetryStateSteps filename ++ startFileAttemptSteps filename startedAt ++ [.awaits]
  | retryAfter retry => markFileRetryPendingSteps filename retry
  | fail error category finishedAt => markFileErrorSteps filename ⟨error, category, finishedAt⟩
  | complete completion finishedAt => markFileDoneSteps filename finishedAt completion ++ [.awaits]

def records : TrackerCall X D → Bool
  | recordSetupFailure .. | fail .. | complete .. => true
  | beginFirstAttempt .. | restartAttempt .. | retryAfter .. => false

end TrackerCall

inductive TaskExit where
  | terminalStateRecorded
  | stoppedByCancellation
  | panicked (joinError : String)

/-- One file's task: the steps left, and whether a terminal state was recorded; `cancelled` is its run's
  token. -/
structure FileTask (X D : Type) where
  role : String
  filename : String
  runGeneration : Nat
  steps : List (TaskStep X D)
  recorded : Bool
  exit : Option TaskExit

inductive FileTaskExit where
  | cancelled
  | panicked (joinError : String)

def recordAbnormalFileTaskExit (filename role : String) (exit : FileTaskExit)
    (finishedAt : MachineTime) : List (TaskStep X D) :=
  match exit with
  | .cancelled =>
    .awaits :: markFileErrorSteps filename {
      message := role ++ " stopped after job cancellation before recording a terminal file state"
      category := .cancelled
      finishedAt := finishedAt }
  | .panicked joinError =>
    .awaits :: markFileErrorSteps filename {
      message := role ++ " panicked before recording a terminal file state: " ++ joinError
      category := .system
      finishedAt := finishedAt }

def recordFileCancelledBeforeDispatch (filename : String) (finishedAt : MachineTime) :
    List (TaskStep X D) :=
  .awaits :: markFileErrorSteps filename {
    message := "dispatch cancelled before this file\'s task was ever started"
    category := .cancelled
    finishedAt := finishedAt }

/-- The unfinished files are read once; each is then recorded. -/
def forceTerminalFileStates (job : Job X D) (cause : UnfinishedFileCause) (now : MachineTime)
    (times : String → MachineTime) : List (TaskStep X D) :=
  job.unfinishedFiles.flatMap (fun filename =>
    match cause with
    | .cancelled => [.awaits, .forceError cause filename (times filename), .awaits, .awaits]
    | .unexpectedExit => [.awaits, .forceError cause filename now, .awaits, .awaits])

def FileTask.drained (task : FileTask X D) (cancelled : Bool) (exit : TaskExit)
    (finishedAt : MachineTime) : List (TaskStep X D) :=
  match exit with
  | .terminalStateRecorded => []
  | .stoppedByCancellation =>
    recordAbnormalFileTaskExit task.filename task.role .cancelled finishedAt
  | .panicked joinError =>
    recordAbnormalFileTaskExit task.filename task.role
      (if cancelled then .cancelled else .panicked joinError) finishedAt

/-- A run: its records, tasks, the runner's steps, and the generations cancelled. -/
structure Runner (X D : Type) where
  run : FileRun X D
  tasks : List (FileTask X D)
  steps : List (TaskStep X D)
  cancelledRuns : List Nat

/-- A step of a file task, of the runner, or of somebody else. -/
inductive RunnerEvent (X D : Type) where
  /-- a task is spawned for a file -/
  | spawn (role filename : String)
  /-- the task's future makes a call on its tracker -/
  | call (i : Nat) (call : TrackerCall X D)
  /-- the task takes the next step of its call -/
  | step (i : Nat)
  /-- the future returns with the token of a recorded state -/
  | ends (i : Nat)
  /-- the supervisor drops the future, as its token is cancelled -/
  | stop (i : Nat)
  | panic (i : Nat) (joinError : String)
  /-- the runner awaits the task and records what it has to -/
  | join (i : Nat) (finishedAt : MachineTime)
  /-- the runner makes a call on a file's tracker itself -/
  | own (filename : String) (call : TrackerCall X D)
  | cancelBeforeDispatch (filename : String) (finishedAt : MachineTime)
  | forceTerminal (cause : UnfinishedFileCause) (now : MachineTime)
      (times : String → MachineTime)
  /-- the runner takes its next step -/
  | ownStep
  /-- an operation of the store on the job, a restart among them -/
  | store (op : StoreOp)
  | interruptForShutdown (now : MachineTime)

namespace Runner

def perform (s : Runner X D) (step : TaskStep X D) : FileRun X D :=
  match step.performs s.run.job with
  | some op => s.run.apply op
  | none => s.run

def begin (s : Runner X D) (steps : List (TaskStep X D)) : Option (Runner X D) :=
  some { s with steps := s.steps ++ steps }

def cancelToken (s : Runner X D) : List Nat :=
  s.run.job.runtime.runGeneration :: s.cancelledRuns

def step (s : Runner X D) : RunnerEvent X D → Option (Runner X D)
  | .spawn role filename =>
    some { s with tasks := s.tasks ++ [{
      role := role
      filename := filename
      runGeneration := s.run.job.runtime.runGeneration
      steps := []
      recorded := false
      exit := none }] }
  | .call i call =>
    match s.tasks[i]? with
    | some task =>
      if task.exit = none ∧ task.steps.isEmpty then
        some { s with tasks := s.tasks.set i { task with
          steps := call.steps task.filename
          recorded := task.recorded || call.records } }
      else none
    | none => none
  | .step i =>
    match s.tasks[i]? with
    | some task =>
      match task.exit, task.steps with
      | none, step :: steps =>
        some { s with
          run := s.perform step
          tasks := s.tasks.set i { task with steps := steps } }
      | _, _ => none
    | none => none
  | .ends i =>
    match s.tasks[i]? with
    | some task =>
      if task.exit = none ∧ task.steps.isEmpty ∧ task.recorded = true then
        some { s with tasks := s.tasks.set i { task with exit := some .terminalStateRecorded } }
      else none
    | none => none
  | .stop i =>
    match s.tasks[i]? with
    | some task =>
      if task.exit = none ∧ task.runGeneration ∈ s.cancelledRuns then
        some { s with tasks := s.tasks.set i { task with
          steps := [], exit := some .stoppedByCancellation } }
      else none
    | none => none
  | .panic i joinError =>
    match s.tasks[i]? with
    | some task =>
      if task.exit = none then
        some { s with tasks := s.tasks.set i { task with
          steps := [], exit := some (.panicked joinError) } }
      else none
    | none => none
  | .join i finishedAt =>
    match s.tasks[i]? with
    | some task =>
      match task.exit with
      | some exit =>
        some { s with
          tasks := s.tasks.eraseIdx i
          steps := s.steps ++ task.drained (task.runGeneration ∈ s.cancelledRuns) exit finishedAt }
      | none => none
    | none => none
  | .own filename call => s.begin (call.steps filename)
  | .cancelBeforeDispatch filename finishedAt =>
    s.begin (recordFileCancelledBeforeDispatch filename finishedAt)
  | .forceTerminal cause now times =>
    s.begin (forceTerminalFileStates s.run.job cause now times)
  | .ownStep =>
    match s.steps with
    | step :: steps => some { s with run := s.perform step, steps := steps }
    | [] => none
  | .store (.cancel now) =>
    some { s with run := s.run.store (.cancel now), cancelledRuns := s.cancelToken }
  | .store op => some { s with run := s.run.store op }
  | .interruptForShutdown now =>
    some { s with
      run := { s.run with job := (s.run.job.interruptForShutdown now).1 }
      cancelledRuns := s.cancelToken }

def performs (s : Runner X D) : RunnerEvent X D → Option (FileOp X D)
  | .step i => (s.tasks[i]?).bind (fun task => task.steps.head?.bind (TaskStep.performs s.run.job))
  | .ownStep => s.steps.head?.bind (TaskStep.performs s.run.job)
  | _ => none

def MeetsOpen (s : Runner X D) (e : RunnerEvent X D) : Prop :=
  ∀ op, s.performs e = some op → op.MeetsOpen s.run.job

def submitted (filenames : List String) (h : filenames.Nodup) : Runner X D where
  run := {
    job := (Server.submitted 0 filenames h).job
    finished := []
    entries := [] }
  tasks := []
  steps := []
  cancelledRuns := []

theorem run_perform (s : Runner X D) (step : TaskStep X D) :
    (∃ op, step.performs s.run.job = some op ∧ s.perform step = s.run.apply op) ∨
      (step.performs s.run.job = none ∧ s.perform step = s.run) := by
  unfold perform
  cases h : step.performs s.run.job with
  | none => exact Or.inr ⟨rfl, rfl⟩
  | some op => exact Or.inl ⟨op, rfl, rfl⟩

theorem step_run {s s' : Runner X D} {e : RunnerEvent X D} (h : s.step e = some s') :
    (∃ op, s.performs e = some op ∧ s'.run = s.run.apply op) ∨
      (s.performs e = none ∧ (s'.run = s.run ∨ (∃ op, s'.run = s.run.store op) ∨
        ∃ now, s'.run = { s.run with job := (s.run.job.interruptForShutdown now).1 })) := by
  cases e with
  | step i =>
    unfold Runner.step at h
    cases htask : s.tasks[i]? with
    | none => simp [htask] at h
    | some task =>
      cases hexit : task.exit with
      | some exit => simp [htask, hexit] at h
      | none =>
        cases hsteps : task.steps with
        | nil => simp [htask, hexit, hsteps] at h
        | cons step steps =>
          simp only [htask, hexit, hsteps, Option.some.injEq] at h
          subst h
          have hperforms : s.performs (.step i) = step.performs s.run.job := by
            simp [performs, htask, hsteps]
          obtain ⟨op, hop, hrun⟩ | ⟨hnone, hrun⟩ := s.run_perform step
          · exact Or.inl ⟨op, hperforms.trans hop, hrun⟩
          · exact Or.inr ⟨hperforms.trans hnone, Or.inl hrun⟩
  | ownStep =>
    unfold Runner.step at h
    cases hsteps : s.steps with
    | nil => simp [hsteps] at h
    | cons step steps =>
      simp only [hsteps, Option.some.injEq] at h
      subst h
      have hperforms : s.performs .ownStep = step.performs s.run.job := by
        simp [performs, hsteps]
      obtain ⟨op, hop, hrun⟩ | ⟨hnone, hrun⟩ := s.run_perform step
      · exact Or.inl ⟨op, hperforms.trans hop, hrun⟩
      · exact Or.inr ⟨hperforms.trans hnone, Or.inl hrun⟩
  | store op =>
    refine Or.inr ⟨rfl, Or.inr (Or.inl ⟨op, ?_⟩)⟩
    cases op <;>
      · simp only [Runner.step, Option.some.injEq] at h
        rw [← h]
  | interruptForShutdown now =>
    refine Or.inr ⟨rfl, Or.inr (Or.inr ⟨now, ?_⟩)⟩
    simp only [Runner.step, Option.some.injEq] at h
    rw [← h]
  | spawn role filename =>
    simp only [Runner.step, Option.some.injEq] at h
    exact Or.inr ⟨rfl, Or.inl (by rw [← h])⟩
  | own | cancelBeforeDispatch | forceTerminal =>
    simp only [Runner.step, begin, Option.some.injEq] at h
    exact Or.inr ⟨rfl, Or.inl (by rw [← h])⟩
  | _ =>
    -- a task's own state moves, or it is drained: the job is not written
    refine Or.inr ⟨rfl, Or.inl ?_⟩
    simp only [Runner.step] at h
    split at h
    · split at h
      · simp only [Option.some.injEq] at h
        rw [← h]
      · cases h
    · cases h

theorem settled_step_iff {s s' : Runner X D} {e : RunnerEvent X D} (hs : s.run.Settled)
    (h : s.step e = some s') : s'.run.Settled ↔ s.MeetsOpen e := by
  unfold MeetsOpen
  obtain ⟨op, hop, hrun⟩ | ⟨hnone, hrun⟩ := step_run h
  · rw [hrun, FileRun.settled_apply_iff hs op, hop]
    simp
  · rw [hnone]
    refine iff_of_true ?_ (by simp)
    obtain hrun | ⟨op, hrun⟩ | ⟨now, hrun⟩ := hrun
    · rw [hrun]
      exact hs
    · rw [hrun]
      exact hs.store op
    · rw [hrun]
      exact hs.interrupted now

theorem settled_submitted (filenames : List String) (h : filenames.Nodup) :
    (submitted (X := X) (D := D) filenames h).run.Settled := by
  have hqueued : ∀ f ∈ (submitted (X := X) (D := D) filenames
      h).run.job.execution.fileStatuses.values, f.status = .queued := by
    intro f hf
    obtain ⟨_, _, rfl⟩ := mem_map.mp hf
    rfl
  constructor
  · intro p hp
    cases hp
  · unfold FileStatuses.countWhere
    rw [countP_eq_zero.mpr]
    · rfl
    · intro f hf
      rw [hqueued f hf]
      simp [FileStatusKind.isTerminal]
  · rfl
  · exact nodup_nil
  · intro e he
    cases he
  · intro f hf hlisted
    rw [hqueued f hf] at hlisted
    simp at hlisted

end Runner

/-- A submitted job's files are settled, and stay so in every order of events exactly when no event operates
  on a file in a terminal phase. -/
theorem files_settled_iff : (∀ (filenames : List String) (h : filenames.Nodup),
      (Runner.submitted (X := X) (D := D) filenames h).run.Settled) ∧
    ∀ (start : Runner X D) (es : List (RunnerEvent X D)),
      Runs.Always Runner.step (fun s => s.run.Settled) start es ↔
        start.run.Settled ∧ Runs.Along Runner.step Runner.MeetsOpen start es := by
  refine ⟨Runner.settled_submitted, ?_⟩
  intro start es
  have hstep : ∀ (s : Runner X D) (e : RunnerEvent X D) (s' : Runner X D), s.run.Settled →
      s.step e = some s' → (s'.run.Settled ↔ s.MeetsOpen e) :=
    fun _ _ _ hs h => Runner.settled_step_iff hs h
  constructor
  · intro halways
    exact ⟨halways.here, (Runs.always_iff_along hstep halways.here es).mp halways⟩
  · intro ⟨hstart, halong⟩
    exact (Runs.always_iff_along hstep hstart es).mpr halong

/-- A file that fails once is settled throughout. -/
theorem files_settled_iff_one_failure : Runs.Always Runner.step (fun s => s.run.Settled)
      (Runner.submitted (X := Unit) (D := Unit) ["a.cha"] (by simp))
      [.own "a.cha" (.fail "worker crashed" .workerCrash 9), .ownStep] := by
  obtain ⟨hsubmitted, hiff⟩ := files_settled_iff (X := Unit) (D := Unit)
  refine (hiff _ _).mpr ⟨hsubmitted _ _, ?_⟩
  intro s hs
  cases hs
  refine ⟨?_, ?_⟩
  · intro op hop
    cases hop
  intro s' _
  refine ⟨?_, trivial⟩
  intro op hop
  cases hop
  right
  intro f hf
  cases hf
  rfl

/-- The file is done when a cancel drops its task, and the drain records its end. -/
def completedThenCancelled : List (RunnerEvent Unit Unit) :=
  [.store .markJobRunning, .spawn "Transcription" "a.cha", .call 0 (.beginFirstAttempt 5)] ++
    List.replicate 8 (.step 0) ++
    [.call 0 (.complete (.clean ⟨"a.cha", .chat, []⟩) 9), .step 0, .store (.cancel 10), .stop 0,
      .join 0 11, .ownStep, .ownStep]

/-- The file became done and is an error, its count is two, and the results list it twice. -/
theorem done_file_marked_cancelled :
    ∃ s, Runs.run Runner.step (Runner.submitted ["a.cha"] (by simp)) completedThenCancelled =
        some s ∧
      s.run.finished = [("a.cha", .done (some 5) (some 9) [])] ∧
      s.run.job.execution.fileStatuses.values.map FileStatus.status = [.error] ∧
      s.run.job.execution.completedFiles = 2 ∧
      s.run.job.execution.results.map (fun r => (r.filename, r.error.isSome)) =
        [("a.cha", false), ("a.cha", true)] ∧
      ¬ Runs.Always Runner.step (fun s => s.run.Settled)
          (Runner.submitted ["a.cha"] (by simp)) completedThenCancelled := by
  refine ⟨_, rfl, rfl, rfl, rfl, rfl, ?_⟩
  intro halways
  have hsettled := halways.at_end rfl
  have hcounted := hsettled.counted
  cases hcounted

end Batchalign.Store
