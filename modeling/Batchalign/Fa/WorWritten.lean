import Batchalign.Fa.Finalized

/- What the write of `%wor` does to word timings (`enforce_monotonicity_then_write_wor`). The tier is
   generated from the main tier alone, so the write is faithful exactly to the utterances whose main
   tier has in each slot the timing that their `%wor` has there. -/
namespace Batchalign.Fa
open List
open Option (map_some)

/-! ## The lines that are written -/

variable {u : Utterance}

section Write
variable {W : ContentWalker} {writer : WorWriter}

theorem inspect_isSome_iff {k : ℕ} : (TimedUtterance.inspect W k u).isSome ↔ u.timedSpans ≠ [] := by
  rw [TimedUtterance.inspect, Option.isSome_map, Option.isSome_iff_ne_none, ne_eq, furthestWordTimingEnd_eq_none_iff]

theorem lineOfOrdinal_of_line {file : ChatFile} {i : ℕ} (hu : getUtterance file i = some u) :
    lineOfOrdinal file (utteranceOrdinal file i) = some i := by
  have hmem : (i, utteranceOrdinal file i, u) ∈ utterancesIndexed file := mem_utterancesIndexed.mpr ⟨hu, rfl⟩
  unfold lineOfOrdinal
  cases hfind : (utterancesIndexed file).find? fun x => x.2.1 == utteranceOrdinal file i with
  | none =>
    have hnone := find?_eq_none.mp hfind _ hmem
    exact absurd (beq_self_eq_true _) hnone
  | some x =>
    -- ordinals are strictly increasing, so no other line has this one
    have hsame := find?_some hfind
    rw [beq_iff_eq] at hsame
    have hnodup : ((utterancesIndexed file).map fun x => x.2.1).Nodup :=
      List.Pairwise.imp ne_of_lt (pairwise_map.mpr (utterancesFrom_ordinals_sorted file 0 0).1)
    have heq := inj_on_of_nodup_map hnodup (mem_of_find?_eq_some hfind) hmem hsame
    rw [heq]
    rfl

theorem getUtterance_writeWorAt (file : ChatFile) (k i : ℕ) :
    getUtterance (writeWorAt W writer file k) i = (getUtterance file i).map fun u =>
      if k = utteranceOrdinal file i ∧ u.timedSpans ≠ [] then writer.addWorTier u else u := by
  cases hu : getUtterance file i with
  | none =>
    obtain ⟨g, _, _, hline⟩ := @writeWorAt_line W writer file k i
    rw [hline, hu]
    rfl
  | some u =>
    by_cases hk : k = utteranceOrdinal file i
    · have hline : lineOfOrdinal file k = some i := hk ▸ lineOfOrdinal_of_line hu
      unfold writeWorAt
      rw [hline]
      rw [getUtterance_modifyUtterance_self, hu, map_some, map_some]
      by_cases htimed : u.timedSpans = []
      · rw [if_neg fun h => inspect_isSome_iff.mp h htimed, if_neg fun h => h.2 htimed]
      · rw [if_pos (inspect_isSome_iff.mpr htimed), if_pos ⟨hk, htimed⟩]
    · obtain ⟨g, _, hidle, hline⟩ := @writeWorAt_line W writer file k i
      rw [hline, hu, map_some, map_some, hidle hk, if_neg fun h => hk h.1]

theorem getUtterance_writeWor (plan : WorPlan) (file : ChatFile) (i : ℕ) :
    getUtterance (writeWor W writer plan file) i = (getUtterance file i).map fun u =>
      if utteranceOrdinal file i ∈ plan.candidates ∧ u.timedSpans ≠ [] then writer.addWorTier u else u := by
  have hfold : ∀ (ks : List ℕ) (file : ChatFile), ks.Nodup →
      getUtterance (ks.foldl (writeWorAt W writer) file) i = (getUtterance file i).map fun u =>
        if utteranceOrdinal file i ∈ ks ∧ u.timedSpans ≠ [] then writer.addWorTier u else u := by
    intro ks
    induction ks with
    | nil =>
      intro file _
      show getUtterance file i = _
      cases getUtterance file i with
      | none => rfl
      | some u => rw [map_some, if_neg fun h => not_mem_nil h.1]
    | cons k ks ih =>
      intro file hnodup
      obtain ⟨hk, hks⟩ := nodup_cons.mp hnodup
      rw [foldl_cons, ih _ hks, getUtterance_writeWorAt, ordinal_writeWorAt, Option.map_map]
      congr 1
      funext u
      rw [Function.comp_apply]
      by_cases htimed : u.timedSpans = []
      · have hidle : ¬ (k = utteranceOrdinal file i ∧ u.timedSpans ≠ []) := fun h => h.2 htimed
        rw [if_neg hidle, if_neg fun h => h.2 htimed, if_neg fun h => h.2 htimed]
      by_cases hown : k = utteranceOrdinal file i
      · -- it is written here, and not again
        have hwrites : k = utteranceOrdinal file i ∧ u.timedSpans ≠ [] := ⟨hown, htimed⟩
        rw [if_pos hwrites, if_neg fun h => hk (hown ▸ h.1), if_pos ⟨mem_cons.mpr (.inl hown.symm), htimed⟩]
      · have hidle : ¬ (k = utteranceOrdinal file i ∧ u.timedSpans ≠ []) := fun h => hown h.1
        rw [if_neg hidle]
        by_cases hlater : utteranceOrdinal file i ∈ ks
        · rw [if_pos ⟨hlater, htimed⟩, if_pos ⟨mem_cons_of_mem _ hlater, htimed⟩]
        · rw [if_neg fun h => hlater h.1, if_neg]
          rintro ⟨hmem, _⟩
          rcases mem_cons.mp hmem with hmem | hmem
          · exact hown hmem.symm
          · exact hlater hmem
  cases plan with
  | suppressed => exact hfold [] file nodup_nil
  | pending touched =>
    have hperm := mergeSort_perm touched.dedup fun a b => decide (a ≤ b)
    have hrun := hfold (touched.dedup.mergeSort (· ≤ ·)) file (hperm.nodup_iff.mpr touched.nodup_dedup)
    have hmem : utteranceOrdinal file i ∈ touched.dedup.mergeSort (· ≤ ·) ↔ utteranceOrdinal file i ∈ touched :=
      hperm.mem_iff.trans mem_dedup
    simp only [hmem] at hrun
    exact hrun

end Write

/-! ## The utterances whose words were cut -/

def MonotonicityEffect.cuts : MonotonicityEffect → Option (ℕ × List TrimmedWordTiming × List DroppedWordTiming)
  | .startRegressionRaised entry _ wordsDropped wordsTrimmed => some (entry.utteranceIdx, wordsTrimmed, wordsDropped)
  | .endClampedInterleavedWords edge _ wordsTrimmed wordsDropped =>
    some (edge.utteranceIdx, wordsTrimmed, wordsDropped)
  | .yieldedToKeptBullet _ utteranceIdx _ _ _ _ _ (.startMoved _ _ wordsTrimmed wordsDropped) =>
    some (utteranceIdx, wordsTrimmed, wordsDropped)
  | _ => none

/-- An effect that cut a word of the `k`-th utterance. -/
def MonotonicityEffect.CutWords (effect : MonotonicityEffect) (k : ℕ) : Prop :=
  ∃ trimmed dropped, effect.cuts = some (k, trimmed, dropped) ∧ (trimmed ≠ [] ∨ dropped ≠ [])

/-- Every clamp of interleaved words cut one. The other effects say themselves whether they did. -/
def InterleavedCut (effects : List MonotonicityEffect) : Prop :=
  ∀ edge clampedToMs trimmed dropped, .endClampedInterleavedWords edge clampedToMs trimmed dropped ∈ effects →
    trimmed ≠ [] ∨ dropped ≠ []

variable {effects : List MonotonicityEffect}

theorem InterleavedCut.cutWords (h : InterleavedCut effects)
    {effect : MonotonicityEffect} (he : effect ∈ effects) {k : ℕ} (hk : effect.wordMutatedUtterance = some k) :
    effect.CutWords k := by
  have hlists : ∀ {trimmed : List TrimmedWordTiming} {dropped : List DroppedWordTiming} {j : ℕ},
      (if !trimmed.isEmpty || !dropped.isEmpty then some j else none) = some k →
        j = k ∧ (trimmed ≠ [] ∨ dropped ≠ []) := by
    intro trimmed dropped j hj
    split_ifs at hj with hsome
    refine ⟨Option.some.inj hj, ?_⟩
    rcases Bool.or_eq_true_iff.mp hsome with hsome | hsome
    · left
      rintro rfl
      cases hsome
    · right
      rintro rfl
      cases hsome
  cases effect with
  | endClampedInterleavedWords edge clampedToMs trimmed dropped =>
    exact ⟨trimmed, dropped, by rw [← Option.some.inj hk]; rfl, h edge clampedToMs trimmed dropped he⟩
  | startRegressionRaised entry previous dropped trimmed =>
    obtain ⟨rfl, hcut⟩ := hlists hk
    exact ⟨trimmed, dropped, rfl, hcut⟩
  | yieldedToKeptBullet lineIdx utteranceIdx speaker keptLineIdx keptUtteranceIdx keptSpeaker keptBoundaryMs outcome =>
    cases outcome with
    | startMoved fromMs toMs trimmed dropped =>
      obtain ⟨rfl, hcut⟩ := hlists hk
      exact ⟨trimmed, dropped, rfl, hcut⟩
    | stripped startMs endMs dropped => cases hk
  | startRegressionStripped entry previous dropped => cases hk
  | zeroDurationClampStripped edge startMs nextStartMs dropped => cases hk
  | endClampedCoverageOnly edge clampedToMs => cases hk
  | endClampedBoundaryFromWords edge prevHullEndMs nextHullStartMs => cases hk

theorem InterleavedCut.concat (h : InterleavedCut effects)
    {effect : MonotonicityEffect} (hne : ∀ edge clampedToMs trimmed dropped,
      effect = .endClampedInterleavedWords edge clampedToMs trimmed dropped → trimmed ≠ [] ∨ dropped ≠ []) :
    InterleavedCut (effects ++ [effect]) := by
  intro edge clampedToMs trimmed dropped hmem
  rcases mem_append.mp hmem with hmem | hmem
  · exact h edge clampedToMs trimmed dropped hmem
  · exact hne edge clampedToMs trimmed dropped (mem_singleton.mp hmem).symm

section Clamp
variable {W : ContentWalker}

theorem clampRecords_cut {words : List Word} {boundMs : ℕ} (tier : WordTier) {s : TimeSpan} (hs : s ∈ timings words)
    (hpast : boundMs < s.endMs) :
    (clampRecords ⟨0, some boundMs⟩ tier words).trimmed ≠ [] ∨ (clampRecords ⟨0, some boundMs⟩ tier words).dropped ≠ [] := by
  obtain ⟨w, hw, hbullet⟩ := mem_filterMap.mp hs
  obtain ⟨j, hj⟩ := mem_iff_getElem?.mp hw
  have hzip : (w, j) ∈ words.zipIdx := mk_mem_zipIdx_iff_getElem?.mpr hj
  change w.inlineBullet = some s at hbullet
  have hnot : ClampBound.holds ⟨0, some boundMs⟩ s = false := by
    unfold ClampBound.holds
    simp only [zero_le, decide_true, Bool.true_and, decide_eq_false_iff_not, not_le]
    exact hpast
  by_cases hroom : max s.startMs 0 < min s.endMs boundMs
  · left
    have hcut : ClampBound.cut ⟨0, some boundMs⟩ s = some (.trimmed ⟨max s.startMs 0, min s.endMs boundMs⟩) := by
      unfold ClampBound.cut clampTranscriptWordToBullet
      simp only [hnot, Bool.false_eq_true, if_false, if_pos hroom]
    apply ne_nil_of_mem
    apply mem_filterMap.mpr
    refine ⟨(w, j), hzip, ?_⟩
    simp only [hbullet, hcut]
    rfl
  · right
    have hcut : ClampBound.cut ⟨0, some boundMs⟩ s = some (.droppedPastBound s) := by
      unfold ClampBound.cut clampTranscriptWordToBullet
      simp only [hnot, Bool.false_eq_true, if_false, if_neg hroom]
    apply ne_nil_of_mem
    apply mem_filterMap.mpr
    refine ⟨(w, j), hzip, ?_⟩
    simp only [hbullet, hcut]
    rfl

theorem clampWordsPastBound_cut {boundMs : ℕ} {s : TimeSpan} (hs : s ∈ u.timedSpans)
    (hpast : boundMs < s.endMs) :
    (clampWordsPastBound W u boundMs).2.trimmed ≠ [] ∨ (clampWordsPastBound W u boundMs).2.dropped ≠ [] := by
  rcases mem_append.mp hs with hs | hs
  · rw [← W.visits_every_word] at hs
    rcases clampRecords_cut .mainTier hs hpast with hcut | hcut
    · exact .inl (append_ne_nil_of_left_ne_nil hcut _)
    · exact .inr (append_ne_nil_of_left_ne_nil hcut _)
  · rcases clampRecords_cut .wor hs hpast with hcut | hcut
    · exact .inl (append_ne_nil_of_right_ne_nil _ hcut)
    · exact .inr (append_ne_nil_of_right_ne_nil _ hcut)

theorem classifyEndOverlap_interleaved {prevHullEndMs nextHullStartMs nextSuccessorStartMs : Option ℕ} {nextStartMs : ℕ}
    {next : NextStart} (h : next.admit (classifyEndOverlap prevHullEndMs nextStartMs nextHullStartMs
      nextSuccessorStartMs) = .interleavedWords) :
    ∃ hullEndMs, prevHullEndMs = some hullEndMs ∧ nextStartMs < hullEndMs := by
  cases hhull : prevHullEndMs with
  | none =>
    rw [hhull] at h
    cases next <;> cases h
  | some hullEndMs =>
    by_cases hle : hullEndMs ≤ nextStartMs
    · rw [hhull] at h
      unfold classifyEndOverlap at h
      dsimp only at h
      rw [if_pos hle] at h
      cases next <;> cases h
    · exact ⟨hullEndMs, rfl, Nat.lt_of_not_le hle⟩

theorem resolveRevisablePrev_cut {s : PassState} {facts : OverlapFacts} {next : NextStart} {prev : Utterance}
    (hprev : getUtterance s.file facts.edge.lineIdx = some prev) (h : InterleavedCut s.effects) :
    InterleavedCut (resolveRevisablePrev W s facts next prev).effects := by
  unfold resolveRevisablePrev
  dsimp only
  split_ifs
  · exact h.concat fun _ _ _ _ heq => by cases heq
  · split
    · exact h.concat fun _ _ _ _ heq => by cases heq
    · exact h.concat fun _ _ _ _ heq => by cases heq
    · next hresolution =>
      obtain ⟨hullEndMs, hhull, hpast⟩ := classifyEndOverlap_interleaved hresolution
      rw [hprev] at hhull
      obtain ⟨⟨t, ht, hend⟩, _⟩ := furthestWordTimingEnd_spec hhull
      apply h.concat
      intro edge clampedToMs trimmed dropped heq
      cases heq
      exact clampWordsPastBound_cut (u := prev.setEnd facts.nextStartMs) ht (hend ▸ hpast)

variable {authority : MainBulletAuthority}

theorem resolveListed_cut {s s' : PassState} {x : String × OverlapPairIdentity}
    (hrun : resolveListed W authority s x = .ok s') (h : InterleavedCut s.effects) : InterleavedCut s'.effects := by
  unfold resolveListed resolveEndOverlapPair at hrun
  split at hrun
  · cases hrun
    exact h
  split at hrun
  · cases hrun
    exact h
  split at hrun
  · cases hrun
  split at hrun
  · cases hrun
    exact h
  next hprev =>
  split at hrun
  · cases hrun
    exact h
  split_ifs at hrun
  · cases hrun
    exact h
  split at hrun
  · cases hrun
  split at hrun
  · cases hrun
    exact resolveRevisablePrev_cut hprev h
  · cases hrun
    exact resolveRevisablePrev_cut hprev h
  · cases hrun
    exact h.concat fun _ _ _ _ heq => by cases heq
  · cases hrun
    unfold reportKeptPair
    dsimp only
    split_ifs <;> exact h

theorem startOrderStep_cut {st : StartOrderState} {source : StartOrderSource} {nextKept : Option StartOrderEntry}
    (h : InterleavedCut st.pass.effects) : InterleavedCut (startOrderStep W st source nextKept).pass.effects := by
  unfold startOrderStep
  split
  · unfold keptStartStep
    split <;> exact h
  · split
    · exact h
    · split
      · unfold regressingStep
        dsimp only
        split <;> exact h.concat fun _ _ _ _ heq => by cases heq
      · exact h.concat fun _ _ _ _ heq => by cases heq
      · exact h

theorem sweep_cut {σ ι : Type} (effects : σ → List MonotonicityEffect) {f : σ → ι → Except KeptBulletError σ}
    (hstep : ∀ s x s', f s x = .ok s' → InterleavedCut (effects s) → InterleavedCut (effects s')) :
    ∀ (xs : List ι) (s s' : σ), Sweep.run f s xs = .ok s' → InterleavedCut (effects s) → InterleavedCut (effects s') := by
  intro xs
  induction xs with
  | nil =>
    intro s s' hrun h
    cases hrun
    exact h
  | cons x xs ih =>
    intro s s' hrun h
    obtain ⟨t, hx, hxs⟩ := Sweep.run_cons_eq_ok hrun
    exact ih t s' hxs (hstep s x t hx h)

theorem enforceMonotonicityUnder_cut {policy : EndOverlapPolicy} {file : ChatFile}
    {s : PassState} (hrun : enforceMonotonicityUnder W authority policy file = .ok s) : InterleavedCut s.effects := by
  have hpairs : ∀ (s s' : PassState) (pairs : List (String × OverlapPairIdentity)),
      resolvePairs W authority s pairs = .ok s' → InterleavedCut s.effects → InterleavedCut s'.effects := by
    intro s s' pairs hpairs h
    exact sweep_cut PassState.effects (fun _ _ _ => resolveListed_cut) pairs s s' hpairs h
  unfold enforceMonotonicityUnder at hrun
  split at hrun
  · cases hrun
  next s1 hstart =>
  split at hrun
  · cases hrun
  next s2 hstreams =>
  apply hpairs s2 s _ hrun
  apply hpairs s1 s2 _ hstreams
  unfold enforceStartOrder at hstart
  split at hstart
  · cases hstart
  split at hstart
  · cases hstart
  next st hsweep =>
  cases hstart
  have hnone : InterleavedCut ([] : List MonotonicityEffect) := fun _ _ _ _ h => absurd h not_mem_nil
  apply sweep_cut (fun st : StartOrderState => st.pass.effects) _ _ _ _ hsweep hnone
  intro st x st' hx h
  cases hx
  exact startOrderStep_cut h

end Clamp

/-! ## Timings kept -/

/-- The timing of the word in the `i`-th slot. -/
def timingAt (words : List Word) (i : ℕ) : Option TimeSpan := words[i]?.bind Word.inlineBullet

/-- Every timed word has its timing in the same slot of `words'`. -/
def SameTimed (words words' : List Word) : Prop := ∀ i s, timingAt words i = some s → timingAt words' i = some s

/-- The tier written has a slot for each of these main-tier words, in order, with the word's timing. Of the
words with no slot none is timed. -/
structure WorWriter.Copies (writer : WorWriter) (slots : List UtteranceContent → List Word) : Prop where
  picks : ∀ items, slots items <+ wordLeaves items
  every_timed : ∀ items, timings (slots items) = timings (wordLeaves items)
  copies : ∀ u, (writer.addWorTier u).worWords.map Word.inlineBullet = (slots u.content).map Word.inlineBullet

section Copies
variable {writer : WorWriter} {slots : List UtteranceContent → List Word} (hcopies : writer.Copies slots)
include hcopies

theorem WorWriter.Copies.timingAt_eq (u : Utterance) :
    timingAt (writer.addWorTier u).worWords = timingAt (slots u.content) := by
  funext i
  have hslot := congrArg (fun l => l[i]?.bind id) (hcopies.copies u)
  simp only [getElem?_map, Option.bind_map, Function.id_comp] at hslot
  exact hslot

theorem WorWriter.Copies.timings_eq (u : Utterance) :
    timings (writer.addWorTier u).worWords = timings (wordLeaves u.content) := by
  have hslots := congrArg (List.filterMap id) (hcopies.copies u)
  rw [filterMap_map, filterMap_map] at hslots
  exact Eq.trans hslots (hcopies.every_timed u.content)

end Copies

/-- Without a timing there is none in any slot, and so none that has to be there. -/
theorem SameTimed.timings_eq_nil {words words' : List Word} (h : SameTimed words words')
    (hnone : timings words' = []) : timings words = [] := by
  rw [eq_nil_iff_forall_not_mem]
  intro s hs
  obtain ⟨w, hw, htime⟩ := mem_filterMap.mp hs
  obtain ⟨i, hi⟩ := mem_iff_getElem?.mp hw
  have hat : timingAt words i = some s := by rw [timingAt, hi, Option.bind_some, ← htime]; rfl
  obtain ⟨w', hw', htime'⟩ := Option.bind_eq_some_iff.mp (h i s hat)
  have hmem : s ∈ timings words' := mem_filterMap.mpr ⟨w', mem_of_getElem? hw', htime'⟩
  rw [hnone] at hmem
  exact not_mem_nil hmem

/-- Of an utterance whose `%wor` was changed: every timed word of either tier has its timing in its slot of the
  new one, some word is timed, and there was a reason. -/
structure WorWritten (slots : List UtteranceContent → List Word) (plan : WorPlan) (effects : List MonotonicityEffect)
    (k : ℕ) (u u' : Utterance) : Prop where
  main : SameTimed (slots u.content) u'.worWords
  wor : SameTimed u.worWords u'.worWords
  timed : timings u'.worWords ≠ []
  owed : k ∈ plan.candidates ∨ ∃ effect ∈ effects, effect.CutWords k

def WritesTimed (slots : List UtteranceContent → List Word) (plan : WorPlan) (ordered : FaOrdered) : Prop :=
  ∀ i u u', getUtterance ordered.monotonicity.file i = some u → getUtterance ordered.file i = some u' → u' ≠ u →
    WorWritten slots plan ordered.monotonicity.effects (utteranceOrdinal ordered.monotonicity.file i) u u'

/-- The utterances written: the plan's and those monotonicity cut, where a word is timed. -/
def IsWritten (plan : WorPlan) (s : PassState) (i : ℕ) (u : Utterance) : Prop :=
  getUtterance s.file i = some u ∧ u.timedSpans ≠ [] ∧
    utteranceOrdinal s.file i ∈ (plan.alsoTouched (s.effects.filterMap MonotonicityEffect.wordMutatedUtterance)).candidates

theorem mem_alsoTouched {plan : WorPlan} {extra : List ℕ} {k : ℕ} (h : k ∈ (plan.alsoTouched extra).candidates) :
    k ∈ plan.candidates ∨ k ∈ extra := by
  cases plan with
  | suppressed => exact absurd h not_mem_nil
  | pending touched => exact mem_append.mp h

section Ordered
variable {W : ContentWalker} {writer : WorWriter} {authority : MainBulletAuthority} {policy : EndOverlapPolicy}
  {plan : WorPlan} {postprocess : List DecisionRecord} {file : ChatFile} {ordered : FaOrdered}

theorem enforceThenWrite_written
    (h : enforceMonotonicityThenWriteWor W writer authority policy plan postprocess file = .ok ordered) :
    InterleavedCut ordered.monotonicity.effects ∧
    (∀ i u, IsWritten plan ordered.monotonicity i u → getUtterance ordered.file i = some (writer.addWorTier u)) ∧
    ∀ i u u', getUtterance ordered.monotonicity.file i = some u → getUtterance ordered.file i = some u' →
      ¬ IsWritten plan ordered.monotonicity i u → u' = u := by
  unfold enforceMonotonicityThenWriteWor at h
  split at h
  · cases h
  next s hs =>
  cases h
  refine ⟨enforceMonotonicityUnder_cut hs, ?_, ?_⟩
  · rintro i u ⟨hu, htimed, hcandidate⟩
    rw [getUtterance_writeWor, hu, map_some, if_pos ⟨hcandidate, htimed⟩]
  · intro i u u' hu hu' hidle
    rw [getUtterance_writeWor, hu, map_some, if_neg fun h => hidle ⟨hu, h.2, h.1⟩] at hu'
    exact (Option.some.inj hu').symm

end Ordered

theorem WorWriter.mainWords_copies : WorWriter.mainWords.Copies wordLeaves := by
  refine ⟨fun items => Sublist.refl _, fun items => rfl, ?_⟩
  intro u
  have hwords : (WorWriter.mainWords.addWorTier u).worWords = wordLeaves u.content := by
    show ((Utterance.worTier _).getD []).filterMap WorItem.word? = _
    unfold Utterance.worTier
    rw [show (WorWriter.mainWords.addWorTier u).dependentTiers.findSome? DependentTier.wor? =
      some ((wordLeaves u.content).map WorItem.word) from findSome?_replaceOrAddWor _ _]
    rw [Option.getD_some, filterMap_map]
    exact filterMap_some
  rw [hwords]

/-- Two lines of one speaker; the first's timing is on `%wor` alone or on both, its second word too long. -/
def crossingLines (main : Option TimeSpan) (endMs wordEndMs : ℕ) : ChatFile :=
  [.utterance ⟨"CHI", [], some (.parsed ⟨0, endMs⟩), [.word ⟨"two", main⟩],
      [.wor [.word ⟨"two", some ⟨500, wordEndMs⟩⟩]], []⟩,
    .utterance ⟨"CHI", [], some (.parsed ⟨800, 1200⟩), [.word ⟨"three", some ⟨800, 1200⟩⟩], [], []⟩]

end Batchalign.Fa
