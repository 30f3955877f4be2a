import Batchalign.FaTiming.SuppliedRetrySound

/- A retry session run to completion. -/
namespace Batchalign.FaTiming
open Fa List

/-! ## One answer -/

structure Retried (window : RequestWindow) (u u' : Utterance) : Prop where
  other : { u' with content := u.content } = u
  content : u'.content.map (UtteranceContent.mapLeaves Word.untimed) =
    u.content.map (UtteranceContent.mapLeaves Word.untimed)
  words : ∀ (j : ℕ) (w w' : Word), (wordLeaves u.content)[j]? = some w → (wordLeaves u'.content)[j]? = some w' →
    Kept window (wordLeaves u.content) (wordLeaves u'.content) j w w'

def SlotFilled (u u' : Utterance) : Prop :=
  ∃ (j : ℕ) (w w' : Word), (wordLeaves u.content)[j]? = some w ∧ (wordLeaves u'.content)[j]? = some w' ∧
    retainedSpan w = none ∧ (retainedSpan w').isSome

section Answer
variable {D : WorDomain} {debug : WordTiming → String} {u u' : Utterance} {target : MissingUtterance}
  {window : RequestWindow}

theorem Retried.refl (window : RequestWindow) (u : Utterance) : Retried window u u where
  other := rfl
  content := rfl
  words := by
    intro j w w' hw hw'
    exact .inl (Option.some.inj (hw'.symm.trans hw))

theorem not_slotFilled_self (u : Utterance) : ¬ SlotFilled u u := by
  rintro ⟨j, w, w', hw, hw', hmissing, hretained⟩
  rw [← Option.some.inj (hw.symm.trans hw'), hmissing] at hretained
  cases hretained

theorem FillState.untimed_word (s : FillState) (w : Word) : (FillState.word D debug s w).2.untimed = w.untimed := by
  unfold FillState.word
  dsimp only
  split
  · rfl
  · split_ifs
    · split
      · rfl
      · split_ifs <;> rfl
    · rfl

theorem fillSlots_retried (hslots : target.slots = (slotScan D target.source.window (wordLeaves u.content)).slots)
    (timings : List (Option WordTiming)) :
    Retried target.source.window u (fillSlots D debug target timings u).2 ∧
      ((fillSlots D debug target timings u).1.filled ≠ [] ↔ SlotFilled u (fillSlots D debug target timings u).2) := by
  have hwalk := wordLeaves_rewriteContent (FillState.word D debug)
    ⟨target.slots, ⟨timings, 0⟩, 0, target.source.window.startMs, []⟩ u.content
  have hfilling := fillWords_filling debug hslots timings
  rw [← hwalk] at hfilling
  refine ⟨⟨rfl, mapLeaves_rewriteContent _ _ FillState.untimed_word _ _, hfilling.words⟩, ?_⟩
  rw [ne_eq, show (fillSlots D debug target timings u).1.filled = [] ↔ _ from hfilling.filled]
  constructor
  · intro hne
    -- a list that differs at the same length differs somewhere
    obtain ⟨j, hj⟩ := not_forall.mp fun h => hne (ext_getElem? h)
    have hlt : j < (wordLeaves u.content).length := by
      by_contra hge
      apply hj
      rw [getElem?_eq_none (Nat.not_lt.mp hge)]
      exact getElem?_eq_none (hfilling.length.trans_le (Nat.not_lt.mp hge))
    have hold := getElem?_eq_getElem hlt
    have hnew := getElem?_eq_getElem (hfilling.length.symm ▸ hlt)
    refine ⟨j, _, _, hold, hnew, ?_⟩
    rcases hfilling.words j _ _ hold hnew with hsame | ⟨span, hmissing, hword, hplaced⟩
    · exact absurd (by rw [hold, ← hsame, ← hnew]) hj
    · refine ⟨hmissing, ?_⟩
      rw [hword, retainedSpan_write _ hplaced.extent]
      rfl
  · rintro ⟨j, w, w', hw, hw', hmissing, hretained⟩ hsame
    rw [show wordLeaves (fillSlots D debug target timings u).2.content = wordLeaves u.content from hsame, hw] at hw'
    rw [← Option.some.inj hw', hmissing] at hretained
    cases hretained

variable (debug) in
theorem answerUtterance_retried (hslots : target.slots = (slotScan D target.source.window (wordLeaves u.content)).slots)
    (answer : SuppliedRetryAnswer) :
    Retried target.source.window u (answerUtterance D debug target answer u).2.2 ∧
      ((answerUtterance D debug target answer u).1 ≠ [] ↔ SlotFilled u (answerUtterance D debug target answer u).2.2) := by
  have hidle : Retried target.source.window u u ∧ (([] : List String) ≠ [] ↔ SlotFilled u u) :=
    ⟨Retried.refl _ u, iff_of_false (fun h => h rfl) (not_slotFilled_self u)⟩
  cases answer with
  | unresolved reason => exact hidle
  | timings timings source =>
    unfold answerUtterance
    dsimp only
    split_ifs
    · exact fillSlots_retried hslots timings
    · exact hidle

end Answer

/-! ## The session -/

variable {file : ChatFile} {u : Utterance}

theorem line_of_getUtterance {i : ℕ} (h : getUtterance file i = some u) :
    file[i]? = some (.utterance u) := by
  obtain ⟨line, hline, hu⟩ := Option.bind_eq_some_iff.mp h
  cases line with
  | header text => cases hu
  | utterance v =>
    rw [hline, Option.some.inj hu]

theorem getUtterance_of_line {i : ℕ} (h : file[i]? = some (.utterance u)) :
    getUtterance file i = some u := by
  unfold getUtterance
  rw [h]
  rfl

theorem alsoTouched_alsoTouched (plan : WorPlan) (a b : List ℕ) :
    (plan.alsoTouched a).alsoTouched b = plan.alsoTouched (a ++ b) := by
  cases plan with
  | suppressed => rfl
  | pending touched => exact congrArg WorPlan.pending (append_assoc _ _ _)

theorem alsoTouched_nil (plan : WorPlan) : plan.alsoTouched [] = plan := by
  cases plan with
  | suppressed => rfl
  | pending touched => exact congrArg WorPlan.pending (append_nil _)

def TargetOf (D : WorDomain) (file : ChatFile) (target : MissingUtterance) : Prop :=
  ∃ u, getUtterance file target.line = some u ∧ target.slots = (slotScan D target.source.window (wordLeaves u.content)).slots

structure Completed (file file' : ChatFile) (pending : List MissingUtterance) (touched : List ℕ) : Prop where
  others : ∀ i, (∀ target ∈ pending, target.line ≠ i) → file'[i]? = file[i]?
  targets : ∀ target ∈ pending, ∃ u u', getUtterance file target.line = some u ∧
    getUtterance file' target.line = some u' ∧ Retried target.source.window u u'
  touched : ∀ k, k ∈ touched ↔ ∃ target ∈ pending, target.source.index = k ∧ ∃ u u',
    getUtterance file target.line = some u ∧ getUtterance file' target.line = some u' ∧ SlotFilled u u'

section Session
variable {D : WorDomain} {debug : WordTiming → String} {session : SuppliedRetrySession} {target : MissingUtterance}

theorem getElem?_modifyUtterance_ne {i j : ℕ} (f : Utterance → Utterance) (h : i ≠ j) :
    (modifyUtterance file i f)[j]? = file[j]? :=
  getElem?_modify_ne _ _ h

variable (D debug) in
theorem SuppliedRetrySession.complete_spec (hu : getUtterance session.file target.line = some u)
    (answer : SuppliedRetryAnswer) : (session.complete D debug target answer).file =
      modifyUtterance session.file target.line (fun _ => (answerUtterance D debug target answer u).2.2) ∧
    (session.complete D debug target answer).worPlan = session.worPlan.alsoTouched
      (if (answerUtterance D debug target answer u).1 = [] then [] else [target.source.index]) := by
  have hcomplete : session.complete D debug target answer = { session with
      file := modifyUtterance session.file target.line fun _ => (answerUtterance D debug target answer u).2.2
      worPlan := if (answerUtterance D debug target answer u).1.isEmpty then session.worPlan
        else session.worPlan.alsoTouched [target.source.index]
      postprocess := session.postprocess ++ [retryRecord target u (answerUtterance D debug target answer u).1
        (answerUtterance D debug target answer u).2.1] } := by
    unfold SuppliedRetrySession.complete
    rw [hu]
  rw [hcomplete]
  refine ⟨rfl, ?_⟩
  simp only [List.isEmpty_iff]
  split_ifs
  · exact (alsoTouched_nil _).symm
  · rfl

variable (D debug) in
theorem SuppliedRetrySession.run_sound (pending : List MissingUtterance) :
    ∀ (session : SuppliedRetrySession) (answers : List SuppliedRetryAnswer), pending.length ≤ answers.length →
      (pending.Pairwise fun a b => a.line < b.line) → (∀ target ∈ pending, TargetOf D session.file target) →
      ∃ final touched, session.run D debug pending answers = some final ∧
        final.worPlan = session.worPlan.alsoTouched touched ∧ Completed session.file final.file pending touched := by
  induction pending with
  | nil =>
    intro session answers _ _ _
    refine ⟨{ session with pending := [] }, [], rfl, (alsoTouched_nil _).symm, fun _ _ => rfl, ?_, ?_⟩
    · exact fun target h => absurd h not_mem_nil
    · intro k
      apply iff_of_false not_mem_nil
      rintro ⟨target, h, _⟩
      exact absurd h not_mem_nil
  | cons target pending ih =>
    intro session answers hcount hsorted htargets
    cases answers with
    | nil => exact absurd hcount (Nat.not_succ_le_zero _)
    | cons answer answers =>
      obtain ⟨hafter, hrest⟩ := pairwise_cons.mp hsorted
      obtain ⟨u, hu, hslots⟩ := htargets target mem_cons_self
      obtain ⟨hfile, hplan⟩ := session.complete_spec D debug hu answer
      obtain ⟨hretried, hwrote⟩ := answerUtterance_retried debug hslots answer
      have hlater : ∀ later ∈ pending, getUtterance (session.complete D debug target answer).file later.line =
          getUtterance session.file later.line := by
        intro later hlater
        rw [hfile, getUtterance_modifyUtterance_ne (hafter later hlater).ne]
      obtain ⟨final, touched, hrun, hfinal, hdone⟩ := ih (session.complete D debug target answer) answers
        (Nat.le_of_succ_le_succ hcount) hrest (by
          intro later hmem
          obtain ⟨v, hv, hvslots⟩ := htargets later (mem_cons_of_mem _ hmem)
          exact ⟨v, (hlater later hmem).trans hv, hvslots⟩)
      have hown : getUtterance final.file target.line = some (answerUtterance D debug target answer u).2.2 := by
        have hline := hdone.others target.line fun later hmem => (hafter later hmem).ne'
        unfold getUtterance
        rw [hline, ← getUtterance, hfile, getUtterance_modifyUtterance_self, hu]
        rfl
      refine ⟨final, (if (answerUtterance D debug target answer u).1 = [] then [] else [target.source.index]) ++ touched,
        hrun, ?_, ?_, ?_, ?_⟩
      · rw [hfinal, hplan, alsoTouched_alsoTouched]
      · intro i hi
        rw [hdone.others i fun later hmem => hi later (mem_cons_of_mem _ hmem), hfile]
        exact getElem?_modifyUtterance_ne _ (hi target mem_cons_self)
      · intro later hmem
        rcases mem_cons.mp hmem with rfl | hmem
        · exact ⟨u, _, hu, hown, hretried⟩
        · obtain ⟨v, v', hv, hv', hkept⟩ := hdone.targets later hmem
          exact ⟨v, v', (hlater later hmem).symm.trans hv, hv', hkept⟩
      · intro k
        rw [mem_append, hdone.touched]
        constructor
        · rintro (hk | ⟨later, hmem, hindex, v, v', hv, hv', hfilled⟩)
          · split_ifs at hk with hnone
            · cases hk
            · exact ⟨target, mem_cons_self, (mem_singleton.mp hk).symm, u, _, hu, hown, hwrote.mp hnone⟩
          · exact ⟨later, mem_cons_of_mem _ hmem, hindex, v, v', (hlater later hmem).symm.trans hv, hv', hfilled⟩
        · rintro ⟨later, hmem, hindex, v, v', hv, hv', hfilled⟩
          rcases mem_cons.mp hmem with rfl | hmem
          · left
            cases hu.symm.trans hv
            cases hown.symm.trans hv'
            rw [if_neg (hwrote.mpr hfilled)]
            exact mem_singleton.mpr hindex.symm
          · exact .inr ⟨later, hmem, hindex, v, v', (hlater later hmem).trans hv, hv', hfilled⟩

end Session

/-! ## Targets -/

section Targets
variable {D : WorDomain} {sources : List SuppliedRetrySource} {entries : List (ℕ × ℕ × Utterance)}

theorem mem_pendingFrom {target : MissingUtterance}
    (h : target ∈ pendingFrom D sources entries) :
    target.source ∈ sources ∧ ∃ u, (target.line, target.source.index, u) ∈ entries ∧
      target.slots = (slotScan D target.source.window (wordLeaves u.content)).slots := by
  induction entries with
  | nil => cases h
  | cons entry entries ih =>
    obtain ⟨line, index, u⟩ := entry
    rcases mem_append.mp h with h | h
    · cases hfind : sources.reverse.find? fun source => source.index == index with
      | none =>
        rw [hfind] at h
        cases h
      | some source =>
        rw [hfind] at h
        dsimp only at h
        have hindex := find?_some hfind
        rw [beq_iff_eq] at hindex
        split_ifs at h
        · cases h
        · obtain rfl := mem_singleton.mp h
          refine ⟨mem_reverse.mp (mem_of_find?_eq_some hfind), u, ?_, rfl⟩
          rw [← hindex]
          exact mem_cons_self
    · obtain ⟨hsource, v, hv, hslots⟩ := ih h
      exact ⟨hsource, v, mem_cons_of_mem _ hv, hslots⟩

theorem pendingFrom_sorted (h : entries.Pairwise fun a b => a.1 < b.1) :
    (pendingFrom D sources entries).Pairwise fun a b => a.line < b.line := by
  induction entries with
  | nil => exact Pairwise.nil
  | cons entry entries ih =>
    obtain ⟨line, index, u⟩ := entry
    obtain ⟨hafter, hrest⟩ := pairwise_cons.mp h
    have hcons : pendingFrom D sources ((line, index, u) :: entries) =
        pendingFrom D sources [(line, index, u)] ++ pendingFrom D sources entries := by
      simp only [pendingFrom, append_nil]
    rw [hcons]
    apply pairwise_append.mpr
    refine ⟨?_, ih hrest, ?_⟩
    · simp only [pendingFrom, append_nil]
      split
      · exact Pairwise.nil
      · split_ifs
        · exact Pairwise.nil
        · exact pairwise_singleton _ _
    · intro target hmem later hlater
      obtain ⟨_, w, hw, _⟩ := mem_pendingFrom hmem
      cases mem_singleton.mp hw
      obtain ⟨_, v, hv, _⟩ := mem_pendingFrom hlater
      exact hafter _ hv

end Targets

/-! ## Imposed files -/

section Imposed
variable {W : ContentWalker} {D : WorDomain} {given : GivenMainBullets}

theorem imposeFrom_line (lines : ChatFile) : ∀ (l k : ℕ) (imposition : Imposition),
    imposeFrom W given l k lines = .ok imposition → ∀ (i : ℕ) (u : Utterance), getUtterance imposition.file i = some u →
      ∃ slot w, given.slot (k + utteranceOrdinal imposition.file i) = .ok slot ∧ u = (imposeUtterance W slot w).1 := by
  induction lines with
  | nil =>
    intro l k imposition h i u hu
    cases h
    cases hu
  | cons line lines ih =>
    intro l k imposition h i u hu
    cases line with
    | header text =>
      unfold imposeFrom at h
      split at h
      · cases h
      · next later hlater =>
        cases h
        cases i with
        | zero => cases hu
        | succ i => exact ih _ _ later hlater i u hu
    | utterance v =>
      unfold imposeFrom at h
      split at h
      · cases h
      · next slot hslot =>
        split at h
        · cases h
        · next later hlater =>
          cases h
          cases i with
          | zero => exact ⟨slot, v, hslot, (Option.some.inj hu).symm⟩
          | succ i =>
            obtain ⟨slot', w, hslot', hw⟩ := ih _ _ later hlater i u hu
            refine ⟨slot', w, ?_, hw⟩
            rw [ordinal_utterance, ← hslot']
            congr 1
            omega

theorem kept_words_end {kept : KeptBullet} (w : Utterance) :
    ∀ v ∈ wordLeaves (imposeUtterance W (.kept kept) w).1.content, ∀ span, retainedSpan v = some span →
      span.endMs ≤ kept.endMs := by
  intro v hv span hspan
  have hcontent : (imposeUtterance W (.kept kept) w).1.content =
      w.content.map (UtteranceContent.mapLeaves (clampWord kept.span)) := W.rewrites_every_word _ _
  rw [hcontent, wordLeaves_mapLeaves] at hv
  obtain ⟨v₀, _, rfl⟩ := mem_map.mp hv
  obtain ⟨hbullet, _⟩ := retainedSpan_eq_some hspan
  obtain ⟨given, _, hkept⟩ := Option.bind_eq_some_iff.mp hbullet
  exact (ClampBound.kept_inside hkept).2 _ rfl

theorem suppliedRetrySourcesFrom_kept {R : Recording} {source : SuppliedRetrySource} (entries : List (ℕ × ℕ × Utterance)) :
    ∀ (sources : List SuppliedRetrySource), suppliedRetrySourcesFrom W D given R entries = .ok sources → source ∈ sources →
      ∃ kept : KeptBullet, given.slot source.index = .ok (.kept kept) ∧ kept.endMs = source.window.endMs := by
  induction entries with
  | nil =>
    intro sources h hsource
    cases h
    cases hsource
  | cons entry entries ih =>
    intro sources h hsource
    unfold suppliedRetrySourcesFrom at h
    split at h
    · cases h
    · next slot hslot =>
      split at h
      · cases h
      · next later hlater =>
        cases h
        rcases mem_append.mp hsource with hsource | hsource
        · have hmade := Option.mem_toList.mp hsource
          unfold suppliedRetrySource at hmade
          split at hmade
          · next startMs endMs positive =>
            split at hmade
            · cases hmade
            · next window hwindow =>
              dsimp only at hmade
              split_ifs at hmade
              cases hmade
              exact ⟨_, hslot, (FaWindow.within_eq_ok hwindow).2.symm⟩
          · cases hmade
        · exact ih later hlater hsource

end Imposed

/-! ## A whole session -/

/-- Retained words stay, a word that changes was missing and lies between its timed neighbours, and nothing
  but word timings changes. -/
structure RetrySound (window : RequestWindow) (u u' : Utterance) : Prop where
  other : { u' with content := u.content } = u
  content : u'.content.map (UtteranceContent.mapLeaves Word.untimed) =
    u.content.map (UtteranceContent.mapLeaves Word.untimed)
  retained : ∀ (j : ℕ) (w w' : Word), (wordLeaves u.content)[j]? = some w → (wordLeaves u'.content)[j]? = some w' →
    (retainedSpan w).isSome → w' = w
  written : ∀ (j : ℕ) (w w' : Word), (wordLeaves u.content)[j]? = some w → (wordLeaves u'.content)[j]? = some w' →
    w' ≠ w → ∃ span, w' = { w with inlineBullet := some span } ∧ span.startMs < span.endMs ∧
      window.startMs ≤ span.startMs ∧ span.endMs ≤ window.endMs ∧
      (∀ (i : ℕ) (v : Word) (before : TimeSpan), i < j → (wordLeaves u'.content)[i]? = some v →
        retainedSpan v = some before → before.endMs ≤ span.startMs) ∧
      ∀ next, nextRetained (wordLeaves u.content) j = some next → span.endMs ≤ next.startMs

theorem Retried.sound {window : RequestWindow} {u u' : Utterance} (h : Retried window u u')
    (hbounded : ∀ w ∈ wordLeaves u.content, ∀ span, retainedSpan w = some span → span.endMs ≤ window.endMs) :
    RetrySound window u u' where
  other := h.other
  content := h.content
  retained := by
    intro j w w' hw hw' hretained
    rcases h.words j w w' hw hw' with hsame | ⟨span, hmissing, _⟩
    · exact hsame
    · rw [hmissing] at hretained
      cases hretained
  written := by
    intro j w w' hw hw' hne
    rcases h.words j w w' hw hw' with hsame | ⟨span, _, hword, hplaced⟩
    · exact absurd hsame hne
    · refine ⟨span, hword, hplaced.extent, hplaced.start, ?_, hplaced.earlier, ?_⟩
      · have hupper := hplaced.upper
        cases hnext : nextRetained (wordLeaves u.content) j with
        | none =>
          rw [hnext] at hupper
          exact hupper
        | some next =>
          rw [hnext] at hupper
          obtain ⟨v, hv, hspan⟩ := exists_of_findSome?_eq_some hnext
          have hinside := hbounded v (mem_of_mem_drop hv) next hspan
          exact hupper.trans ((retainedSpan_eq_some hspan).2.le.trans hinside)
      · intro next hnext
        have hupper := hplaced.upper
        rw [hnext] at hupper
        exact hupper

/-- A session over a document's kept bullets, on the file they were imposed on. -/
theorem SuppliedRetrySession.toCompletion_sound (W : ContentWalker) (D : WorDomain) (debug : WordTiming → String)
    (authority : MainBulletAuthority) (chat working : ChatFile) (R : Recording) (imposition : Imposition)
    (admitted sources : List SuppliedRetrySource) (worPlan : WorPlan) (postprocess : List ProvenanceRecord)
    (answers : List SuppliedRetryAnswer) (himpose : authority.impose W working = .ok imposition)
    (hadmitted : suppliedRetrySources W D authority chat R = .ok admitted)
    (hsources : ∀ source ∈ sources, source ∈ admitted)
    (hanswers : (SuppliedRetrySession.new D worPlan postprocess imposition.file sources).pending.length ≤ answers.length) :
    ∃ final touched,
      (SuppliedRetrySession.new D worPlan postprocess imposition.file sources).toCompletion D debug answers = some final ∧
      (∀ i, final.file[i]? = imposition.file[i]? ∨ ∃ u u' source, imposition.file[i]? = some (.utterance u) ∧
        final.file[i]? = some (.utterance u') ∧ source ∈ sources ∧ source.index = utteranceOrdinal imposition.file i ∧
        RetrySound source.window u u') ∧ final.worPlan = worPlan.alsoTouched touched ∧
      ∀ k, k ∈ touched ↔ ∃ i u u', utteranceOrdinal imposition.file i = k ∧
        imposition.file[i]? = some (.utterance u) ∧ final.file[i]? = some (.utterance u') ∧ SlotFilled u u' := by
  have hindexed : ∀ target ∈ pendingFrom D sources (utterancesIndexed imposition.file),
      target.source ∈ sources ∧ target.source.index = utteranceOrdinal imposition.file target.line ∧
      TargetOf D imposition.file target := by
    intro target htarget
    obtain ⟨hsource, u, hu, hslots⟩ := mem_pendingFrom htarget
    obtain ⟨j, hj, hline, hordinal⟩ := (mem_utterancesFrom imposition.file 0 0 _ _ _).mp hu
    rw [zero_add] at hj hordinal
    rw [hj]
    exact ⟨hsource, hordinal, u, hj ▸ hline, hslots⟩
  obtain ⟨final, touched, hrun, hplan, hdone⟩ := SuppliedRetrySession.run_sound D debug
    (pendingFrom D sources (utterancesIndexed imposition.file))
    (SuppliedRetrySession.new D worPlan postprocess imposition.file sources) answers hanswers
    (pendingFrom_sorted (utterancesIndexed_sorted _)) (fun target htarget => (hindexed target htarget).2.2)
  refine ⟨final, touched, hrun, ?_, hplan, ?_⟩
  · intro i
    by_cases hown : ∃ target ∈ pendingFrom D sources (utterancesIndexed imposition.file), target.line = i
    · obtain ⟨target, htarget, rfl⟩ := hown
      obtain ⟨hsource, hindex, _⟩ := hindexed target htarget
      obtain ⟨u, u', hu, hu', hretried⟩ := hdone.targets target htarget
      right
      refine ⟨u, u', target.source, line_of_getUtterance hu, line_of_getUtterance hu', hsource, hindex,
        hretried.sound ?_⟩
      -- the window is the kept bullet the line was clamped to
      cases authority with
      | deriveFromWords =>
        cases hadmitted
        exact absurd (hsources _ hsource) not_mem_nil
      | keep given =>
        obtain ⟨kept, hslot, hend⟩ := suppliedRetrySourcesFrom_kept _ _ hadmitted (hsources _ hsource)
        obtain ⟨slot, w, hslot', hw⟩ := imposeFrom_line _ _ _ imposition himpose _ _ hu
        rw [zero_add, ← hindex, hslot] at hslot'
        cases hslot'
        rw [hw, ← hend]
        exact kept_words_end w
    · left
      exact hdone.others i fun target htarget hline => hown ⟨target, htarget, hline⟩
  · intro k
    rw [hdone.touched]
    constructor
    · rintro ⟨target, htarget, hindex, u, u', hu, hu', hfilled⟩
      refine ⟨target.line, u, u', ?_, line_of_getUtterance hu, line_of_getUtterance hu', hfilled⟩
      rw [← (hindexed target htarget).2.1, hindex]
    · rintro ⟨i, u, u', hordinal, hu, hu', hfilled⟩
      by_cases hown : ∃ target ∈ pendingFrom D sources (utterancesIndexed imposition.file), target.line = i
      · obtain ⟨target, htarget, rfl⟩ := hown
        refine ⟨target, htarget, (hindexed target htarget).2.1.trans hordinal, u, u', ?_, ?_, hfilled⟩
        · exact getUtterance_of_line hu
        · exact getUtterance_of_line hu'
      · have hsame := hdone.others i fun target htarget hline => hown ⟨target, htarget, hline⟩
        rw [hu', show (SuppliedRetrySession.new D worPlan postprocess imposition.file sources).file[i]? = _ from hu] at hsame
        cases hsame
        exact absurd hfilled (not_slotFilled_self u)

def untimedWordLine (second : Option TimeSpan) : ChatFile :=
  [.utterance ⟨"CHI", [], some (.parsed ⟨0, 1000⟩),
    [.word ⟨"one", some ⟨100, 300⟩⟩, .word ⟨"two", second⟩, .word ⟨"three", some ⟨600, 900⟩⟩], [], []⟩]

def everyWord : WorDomain := ⟨fun _ => true, fun w => [w.text]⟩

theorem thousand_pos : 0 < 1000 := by decide

def keptThousand : MainBulletAuthority := .keep ⟨[.kept (.extent 0 1000 thousand_pos)], .derive⟩

def thousandSource : SuppliedRetrySource :=
  ⟨0, [⟨0, 0, "one"⟩, ⟨0, 1, "two"⟩, ⟨0, 2, "three"⟩], ⟨0, 1000, thousand_pos⟩⟩

theorem toCompletion_sound_one_slot : ∃ final touched,
    (SuppliedRetrySession.new everyWord (.pending []) [] (untimedWordLine none) [thousandSource]).toCompletion everyWord
      (fun _ => "") [.timings [none, WordTiming.new 350 600 .transcriptBullet .transcriptBullet, none] "aligner"] =
        some final ∧
    final.file = untimedWordLine (some ⟨350, 600⟩) ∧ final.worPlan = .pending touched ∧ 0 ∈ touched := by
  obtain ⟨final, touched, hrun, -, hplan, htouched⟩ := SuppliedRetrySession.toCompletion_sound .unconditional everyWord
    (fun _ => "") keptThousand (untimedWordLine none) (untimedWordLine none) ⟨5000, by decide, by decide⟩
    ⟨untimedWordLine none, [], []⟩ [thousandSource] [thousandSource] (.pending []) []
    [.timings [none, WordTiming.new 350 600 .transcriptBullet .transcriptBullet, none] "aligner"] rfl rfl
    (fun _ h => h) (by decide)
  have hfile : final.file = untimedWordLine (some ⟨350, 600⟩) := by
    rw [← Option.some.inj ((rfl : _ = some _).symm.trans hrun)]
    rfl
  refine ⟨final, touched, hrun, hfile, hplan, (htouched 0).mpr ?_⟩
  rw [hfile]
  exact ⟨0, _, _, rfl, rfl, rfl, 1, _, _, rfl, rfl, rfl, rfl⟩

end Batchalign.FaTiming
