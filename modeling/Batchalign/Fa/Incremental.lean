import Batchalign.DpAlign.AlignOptimal
import Batchalign.Fa.Finalize
import Batchalign.Fa.Refresh

/- Reuse of `%wor` timing from an earlier version of a file (`fa/incremental.rs`,
   `batchalign-transform/src/diff`). Utterances are matched by the words they send to the tagger
   (`diffChat`), receive the earlier `%wor` tier and are refreshed from it. -/
namespace Batchalign.Fa
open DpAlign List

inductive UtteranceDelta where
  | unchanged (beforeIdx afterIdx : ℕ)
  | wordsChanged (beforeIdx afterIdx : ℕ) (timingChanged : Bool)
  | timingOnly (beforeIdx afterIdx : ℕ)
  | speakerChanged (beforeIdx afterIdx : ℕ)
  | inserted (afterIdx : ℕ)
  | deleted (beforeIdx : ℕ)

namespace UtteranceDelta

def beforeIdx : UtteranceDelta → Option ℕ
  | unchanged b _ => some b
  | wordsChanged b _ _ => some b
  | timingOnly b _ => some b
  | speakerChanged b _ => some b
  | inserted _ => none
  | deleted b => some b

def afterIdx : UtteranceDelta → Option ℕ
  | unchanged _ a => some a
  | wordsChanged _ a _ => some a
  | timingOnly _ a => some a
  | speakerChanged _ a => some a
  | inserted a => some a
  | deleted _ => none

def stable? : UtteranceDelta → Option (ℕ × ℕ)
  | unchanged b a => some (b, a)
  | timingOnly b a => some (b, a)
  | speakerChanged b a => some (b, a)
  | _ => none

end UtteranceDelta

def utterancesOf (file : ChatFile) : List Utterance := file.filterMap Line.utterance?

/-- `get_utterance_mut` and a change: the utterance of an ordinal changed in place. -/
def modifyOrdinal (f : Utterance → Utterance) : ℕ → ChatFile → ChatFile
  | _, [] => []
  | k, .header text :: lines => .header text :: modifyOrdinal f k lines
  | 0, .utterance u :: lines => .utterance (f u) :: lines
  | k + 1, .utterance u :: lines => .utterance u :: modifyOrdinal f k lines

/-! ## The diff -/

section Diff
variable (morWords : List UtteranceContent → List String)

def utteranceFingerprint (u : Utterance) : String := " ".intercalate (morWords u.content)

/-- A parsed bullet is compared by its span, another by its text. -/
def timingDiffers (before after : ChatFile) (beforeIdx afterIdx : ℕ) : Bool :=
  ((utterancesOf before)[beforeIdx]?.bind Utterance.bullet) != ((utterancesOf after)[afterIdx]?.bind Utterance.bullet)

def classifySameWords (before after : ChatFile) (beforeIdx afterIdx : ℕ) : UtteranceDelta :=
  let speakerSame := (utterancesOf before)[beforeIdx]?.map Utterance.speaker ==
    (utterancesOf after)[afterIdx]?.map Utterance.speaker
  if speakerSame then
    if timingDiffers before after beforeIdx afterIdx then .timingOnly beforeIdx afterIdx
    else .unchanged beforeIdx afterIdx
  else .speakerChanged beforeIdx afterIdx

/-- The loop of `diff_chat`: an insertion next to a deletion is a substitution. -/
def classifyAlignment (before after : ChatFile) : List AlignResult → List UtteranceDelta
  | [] => []
  | .matched _ a b :: rest => classifySameWords before after b a :: classifyAlignment before after rest
  | .extraPayload _ a :: .extraReference _ b :: rest =>
    .wordsChanged b a (timingDiffers before after b a) :: classifyAlignment before after rest
  | .extraPayload _ a :: rest => .inserted a :: classifyAlignment before after rest
  | .extraReference _ b :: .extraPayload _ a :: rest =>
    .wordsChanged b a (timingDiffers before after b a) :: classifyAlignment before after rest
  | .extraReference _ b :: rest => .deleted b :: classifyAlignment before after rest

/-- The order of the deltas: by the later version, then by the earlier. -/
def UtteranceDelta.before (x y : UtteranceDelta) : Bool :=
  let key := fun i : Option ℕ => i.getD (2 ^ 64 - 1)
  key x.afterIdx < key y.afterIdx ||
    (key x.afterIdx == key y.afterIdx && decide (key x.beforeIdx ≤ key y.beforeIdx))

def diffChat (before after : ChatFile) : List UtteranceDelta :=
  let beforeFps := (utterancesOf before).map (utteranceFingerprint morWords)
  let afterFps := (utterancesOf after).map (utteranceFingerprint morWords)
  (classifyAlignment before after (align afterFps beforeFps .exact)).mergeSort UtteranceDelta.before

end Diff

/-! ## The reuse -/

variable (B : WorBinding)

/-- `copy_dependent_tiers` for `%wor`: each tier of `before` replaces the first of `after`, or is added.
-/
def copyWor (before after : Utterance) : Utterance :=
  { after with
    dependentTiers := (before.dependentTiers.filterMap DependentTier.wor?).foldl
      (fun tiers items => replaceOrAddWor items tiers) after.dependentTiers }

def reuseOne (before : Option Utterance) (after : Utterance) : Utterance × Bool :=
  let copied := match before with
    | some earlier => copyWor earlier after
    | none => after
  match refreshExistingAlignment B copied with
  | some refreshed => (refreshed, true)
  | none => (copied, false)

/-- One turn of the loop of `reuse_stable_wor_timing_from_before`. -/
def reuseStep (before : ChatFile) (state : ChatFile × List ℕ) (delta : UtteranceDelta) : ChatFile × List ℕ :=
  match delta.stable? with
  | none => state
  | some (beforeIdx, afterIdx) =>
    match (utterancesOf state.1)[afterIdx]? with
    | none => state
    | some u =>
      -- an utterance not in the recording takes no timing from anywhere
      match RecordingPresence.of u with
      | .notInRecording _ => state
      | .inRecording =>
        let outcome := reuseOne B (utterancesOf before)[beforeIdx]? u
        (modifyOrdinal (fun _ => outcome.1) afterIdx state.1,
          if outcome.2 then state.2.insert afterIdx else state.2)

/-- The file and the reused ordinals. -/
def reuseStableWorTimingFromBefore (before after : ChatFile) (deltas : List UtteranceDelta) : ChatFile × List ℕ :=
  deltas.foldl (reuseStep B before) (after, [])

/-! ## What the copy changes -/

/-- The tier `copy_dependent_tiers` leaves in place: the last `%wor` tier of an utterance. -/
def Utterance.lastWor (u : Utterance) : Option (List WorItem) := (u.dependentTiers.filterMap DependentTier.wor?).getLast?

theorem replaceOrAddWor_twice (items items' : List WorItem) (tiers : List DependentTier) :
    replaceOrAddWor items (replaceOrAddWor items' tiers) = replaceOrAddWor items tiers := by
  induction tiers with
  | nil => rfl
  | cons tier tiers ih =>
    cases tier with
    | wor old => rfl
    | other label text =>
      show DependentTier.other label text :: replaceOrAddWor items (replaceOrAddWor items' tiers) = _
      rw [ih]
      rfl

theorem replaceOrAddWor_eq_self_iff (items : List WorItem) (tiers : List DependentTier) :
    replaceOrAddWor items tiers = tiers ↔ tiers.findSome? DependentTier.wor? = some items := by
  induction tiers with
  | nil =>
    constructor
    · intro h
      cases h
    · intro h
      cases h
  | cons tier tiers ih =>
    cases tier with
    | wor old =>
      constructor
      · intro h
        cases h
        rfl
      · intro h
        cases h
        rfl
    | other label text =>
      show DependentTier.other label text :: replaceOrAddWor items tiers = .other label text :: tiers ↔
        tiers.findSome? DependentTier.wor? = some items
      rw [← ih]
      constructor
      · intro h
        exact (cons.inj h).2
      · intro h
        rw [h]

theorem foldl_replaceOrAddWor (copied : List (List WorItem)) (tiers : List DependentTier) :
    copied.foldl (fun tiers items => replaceOrAddWor items tiers) tiers = match copied.getLast? with
      | some items => replaceOrAddWor items tiers
      | none => tiers := by
  induction copied using reverseRecOn with
  | nil => rfl
  | append_singleton front items ih =>
    rw [foldl_append, getLast?_concat, ih]
    split
    · exact replaceOrAddWor_twice ..
    · rfl

theorem copyWor_eq_self_iff (before after : Utterance) :
    copyWor before after = after ↔ ∀ items, before.lastWor = some items → after.worTier = some items := by
  have htiers : copyWor before after = after ↔ (before.dependentTiers.filterMap DependentTier.wor?).foldl
      (fun tiers items => replaceOrAddWor items tiers) after.dependentTiers = after.dependentTiers := by
    constructor
    · intro h
      exact congrArg Utterance.dependentTiers h
    · intro h
      unfold copyWor
      rw [h]
  rw [htiers, foldl_replaceOrAddWor]
  unfold Utterance.lastWor Utterance.worTier
  cases (before.dependentTiers.filterMap DependentTier.wor?).getLast? with
  | none =>
    constructor
    · intro _ items h
      cases h
    · intro _
      rfl
  | some items =>
    simp only [Option.some.injEq, forall_eq']
    exact replaceOrAddWor_eq_self_iff items after.dependentTiers

/-! ## One pair at a time -/

theorem utterancesOf_modifyOrdinal (f : Utterance → Utterance) (k : ℕ) (file : ChatFile) :
    utterancesOf (modifyOrdinal f k file) = (utterancesOf file).modify k f := by
  induction file generalizing k with
  | nil => cases k <;> rfl
  | cons line lines ih =>
    cases line with
    | header text => exact ih k
    | utterance u =>
      cases k with
      | zero => rfl
      | succ k =>
        show u :: utterancesOf (modifyOrdinal f k lines) = u :: (utterancesOf lines).modify k f
        rw [ih]

def reuseAt (before : Option Utterance) (after : Utterance) : Utterance × Bool :=
  match RecordingPresence.of after with
  | .notInRecording _ => (after, false)
  | .inRecording => reuseOne B before after

variable {B} {delta : UtteranceDelta} {b i : ℕ} {u : Utterance}

theorem reuseStep_other (before : ChatFile) (state : ChatFile × List ℕ) (h : ∀ b, delta.stable? ≠ some (b, i)) :
    (utterancesOf (reuseStep B before state delta).1)[i]? = (utterancesOf state.1)[i]? ∧
      (i ∈ (reuseStep B before state delta).2 ↔ i ∈ state.2) := by
  unfold reuseStep
  split
  · exact ⟨rfl, Iff.rfl⟩
  next beforeIdx afterIdx hstable =>
  have hne : afterIdx ≠ i := by
    intro heq
    subst heq
    exact h beforeIdx hstable
  split
  · exact ⟨rfl, Iff.rfl⟩
  split
  · exact ⟨rfl, Iff.rfl⟩
  · refine ⟨?_, ?_⟩
    · simp only [utterancesOf_modifyOrdinal]
      exact getElem?_modify_ne _ _ hne
    · simp only
      split
      · rw [mem_insert_iff]
        constructor
        · rintro (heq | hmem)
          · exact absurd heq.symm hne
          · exact hmem
        · exact Or.inr
      · exact Iff.rfl

theorem reuseStep_at (before : ChatFile) {state : ChatFile × List ℕ} (h : delta.stable? = some (b, i)) (hu : (utterancesOf state.1)[i]? = some u) :
    (utterancesOf (reuseStep B before state delta).1)[i]? = some (reuseAt B (utterancesOf before)[b]? u).1 ∧
      (i ∈ (reuseStep B before state delta).2 ↔ i ∈ state.2 ∨ (reuseAt B (utterancesOf before)[b]? u).2 = true) := by
  unfold reuseStep reuseAt
  simp only [h, hu]
  cases RecordingPresence.of u with
  | notInRecording postcode =>
    refine ⟨hu, ?_⟩
    constructor
    · exact Or.inl
    · rintro (hmem | hflag)
      · exact hmem
      · cases hflag
  | inRecording =>
    refine ⟨?_, ?_⟩
    · simp only [utterancesOf_modifyOrdinal]
      rw [getElem?_modify_eq, hu]
      rfl
    · simp only
      split
      · next hflag =>
        rw [mem_insert_iff, hflag]
        constructor
        · intro _
          exact Or.inr rfl
        · intro _
          exact Or.inl rfl
      · next hflag =>
        constructor
        · exact Or.inl
        · rintro (hmem | hflag')
          · exact hmem
          · exact absurd hflag' hflag

/-! ## The run -/

section Run
variable {deltas : List UtteranceDelta} {after : ChatFile}

def Distinct (deltas : List UtteranceDelta) : Prop := (deltas.filterMap UtteranceDelta.afterIdx).Nodup

theorem UtteranceDelta.afterIdx_of_stable (h : delta.stable? = some (b, i)) : delta.afterIdx = some i := by
  cases delta <;> simp only [UtteranceDelta.stable?, Option.some.injEq, Prod.mk.injEq, reduceCtorEq] at h <;>
    simp only [UtteranceDelta.afterIdx, h.2]

theorem Distinct.tail (h : Distinct (delta :: deltas)) : Distinct deltas := by
  unfold Distinct at h
  rw [filterMap_cons] at h
  split at h
  · exact h
  · exact h.of_cons

theorem Distinct.other (h : Distinct (delta :: deltas)) (hstable : delta.stable? = some (b, i)) :
    ∀ other ∈ deltas, ∀ b', other.stable? ≠ some (b', i) := by
  intro other hother b' hb'
  unfold Distinct at h
  rw [filterMap_cons, UtteranceDelta.afterIdx_of_stable hstable] at h
  apply (nodup_cons.mp h).1
  exact mem_filterMap.mpr ⟨other, hother, UtteranceDelta.afterIdx_of_stable hb'⟩

theorem foldl_reuseStep_other (before : ChatFile) (state : ChatFile × List ℕ)
    (h : ∀ delta ∈ deltas, ∀ b, delta.stable? ≠ some (b, i)) :
    (utterancesOf (deltas.foldl (reuseStep B before) state).1)[i]? = (utterancesOf state.1)[i]? ∧
      (i ∈ (deltas.foldl (reuseStep B before) state).2 ↔ i ∈ state.2) := by
  induction deltas generalizing state with
  | nil => exact ⟨rfl, Iff.rfl⟩
  | cons delta deltas ih =>
    have hstep := reuseStep_other (B := B) before state (h delta (mem_cons_self ..))
    have hrest := ih (reuseStep B before state delta)
      (fun other hother => h other (mem_cons_of_mem _ hother))
    exact ⟨hrest.1.trans hstep.1, hrest.2.trans hstep.2⟩

theorem foldl_reuseStep_at (before : ChatFile) (state : ChatFile × List ℕ) (hdistinct : Distinct deltas) (hdelta : delta ∈ deltas)
    (hstable : delta.stable? = some (b, i)) (hu : (utterancesOf state.1)[i]? = some u) :
    (utterancesOf (deltas.foldl (reuseStep B before) state).1)[i]? = some (reuseAt B (utterancesOf before)[b]? u).1 ∧
      (i ∈ (deltas.foldl (reuseStep B before) state).2 ↔
        i ∈ state.2 ∨ (reuseAt B (utterancesOf before)[b]? u).2 = true) := by
  induction deltas generalizing state with
  | nil => cases hdelta
  | cons first rest ih =>
    cases hdelta with
    | head =>
      have hstep := reuseStep_at (B := B) before hstable hu
      have hrest := foldl_reuseStep_other (B := B) before (reuseStep B before state delta)
        (hdistinct.other hstable)
      exact ⟨hrest.1.trans hstep.1, hrest.2.trans hstep.2⟩
    | tail _ hdelta =>
      have hne : ∀ b', first.stable? ≠ some (b', i) := by
        intro b' hb'
        exact hdistinct.other hb' delta hdelta b hstable
      have hstep := reuseStep_other (B := B) before state hne
      have hrest := ih (reuseStep B before state first) hdistinct.tail hdelta (hstep.1.trans hu)
      exact ⟨hrest.1, hrest.2.trans (or_congr_left hstep.2)⟩

end Run

theorem afterIdx_classifySameWords (before after : ChatFile) (b a : ℕ) :
    (classifySameWords before after b a).afterIdx = some a := by
  unfold classifySameWords
  simp only
  split
  · split <;> rfl
  · rfl

theorem afterIdx_classifyAlignment (before after : ChatFile) (out : List AlignResult) :
    (classifyAlignment before after out).filterMap UtteranceDelta.afterIdx =
      out.filterMap AlignResult.payloadIdx? := by
  fun_induction classifyAlignment before after out with
  | case1 => rfl
  | case2 key a b rest ih =>
    rw [filterMap_cons_some (afterIdx_classifySameWords before after b a), ih]
    rfl
  | case3 key a key' b rest ih =>
    show a :: _ = a :: _
    rw [ih]
    rfl
  | case4 key a rest hrest ih =>
    show a :: _ = a :: _
    rw [ih]
  | case5 key b key' a rest ih =>
    show a :: _ = a :: _
    rw [ih]
  | case6 key b rest hrest ih => exact ih

theorem diffChat_distinct (morWords : List UtteranceContent → List String) (before after : ChatFile) :
    Distinct (diffChat morWords before after) := by
  unfold Distinct diffChat
  have hsymmetric : MatchMode.Symmetric .exact := trivial
  have hscript := (align_words_best hsymmetric ((utterancesOf after).map (utteranceFingerprint morWords))
    ((utterancesOf before).map (utteranceFingerprint morWords))).payload_once
  have hperm := (mergeSort_perm (classifyAlignment before after
    (align ((utterancesOf after).map (utteranceFingerprint morWords))
      ((utterancesOf before).map (utteranceFingerprint morWords)) .exact)) UtteranceDelta.before).filterMap
        UtteranceDelta.afterIdx
  rw [hperm.nodup_iff, afterIdx_classifyAlignment, hscript]
  exact nodup_range

/-! ## What reuse keeps -/

theorem length_reuse (before after : ChatFile) (deltas : List UtteranceDelta) :
    (utterancesOf (reuseStableWorTimingFromBefore B before after deltas).1).length = (utterancesOf after).length := by
  have hstep : ∀ (state : ChatFile × List ℕ) (delta : UtteranceDelta),
      (utterancesOf (reuseStep B before state delta).1).length = (utterancesOf state.1).length := by
    intro state delta
    unfold reuseStep
    split
    · rfl
    split
    · rfl
    split
    · rfl
    · simp [utterancesOf_modifyOrdinal]
  have hrun : ∀ (state : ChatFile × List ℕ), (utterancesOf (deltas.foldl (reuseStep B before) state).1).length =
      (utterancesOf state.1).length := by
    induction deltas with
    | nil =>
      intro state
      rfl
    | cons delta deltas ih =>
      intro state
      rw [foldl_cons, ih, hstep]
  exact hrun (after, [])

variable (B) in
/-- A reused utterance sends the words of the earlier one whose `%wor` tier it received; others are left. -/
structure ReuseSound (before after : ChatFile) (deltas : List UtteranceDelta) : Prop where
  same_words : ∀ i ∈ (reuseStableWorTimingFromBefore B before after deltas).2, ∀ b u v,
    (b, i) ∈ deltas.filterMap UtteranceDelta.stable? → (utterancesOf before)[b]? = some u → u.worTier.isSome →
    (utterancesOf (reuseStableWorTimingFromBefore B before after deltas).1)[i]? = some v → faWords B v = faWords B u
  unchanged : ∀ i, i ∉ (reuseStableWorTimingFromBefore B before after deltas).2 →
    (utterancesOf (reuseStableWorTimingFromBefore B before after deltas).1)[i]? = (utterancesOf after)[i]?

variable (B) in
/-- The earlier tiers are of the same words, or change nothing. -/
def OffersFit (before after : ChatFile) (deltas : List UtteranceDelta) : Prop :=
  ∀ b i u v, (b, i) ∈ deltas.filterMap UtteranceDelta.stable? → (utterancesOf before)[b]? = some u →
    (utterancesOf after)[i]? = some v → RecordingPresence.of v = .inRecording →
    if (collectWorBackedTimings B (copyWor u v)).isSome then u.worTier.isSome → faWords B v = faWords B u
    else ∀ items, u.lastWor = some items → v.worTier = some items

variable {before after : ChatFile} {deltas : List UtteranceDelta} {v : Utterance}

theorem reuse_at (before : ChatFile) (hdistinct : Distinct deltas) (hpair : (b, i) ∈ deltas.filterMap UtteranceDelta.stable?)
    (hv : (utterancesOf after)[i]? = some v) :
    (utterancesOf (reuseStableWorTimingFromBefore B before after deltas).1)[i]? =
        some (reuseAt B (utterancesOf before)[b]? v).1 ∧
      (i ∈ (reuseStableWorTimingFromBefore B before after deltas).2 ↔
        (reuseAt B (utterancesOf before)[b]? v).2 = true) := by
  obtain ⟨delta, hdelta, hstable⟩ := mem_filterMap.mp hpair
  have hat := foldl_reuseStep_at (B := B) before (after, []) hdistinct hdelta hstable hv
  refine ⟨hat.1, hat.2.trans ?_⟩
  constructor
  · rintro (hmem | hflag)
    · cases hmem
    · exact hflag
  · exact Or.inr

theorem reuseAt_accepted (hpresence : RecordingPresence.of v = .inRecording)
    (haccepted : (collectWorBackedTimings B (copyWor u v)).isSome) :
    ∃ w, reuseAt B (some u) v = (w, true) ∧ faWords B w = faWords B v := by
  obtain ⟨slots, hslots⟩ := Option.isSome_iff_exists.mp haccepted
  have hrefresh : ∃ w, refreshExistingAlignment B (copyWor u v) = some w := by
    unfold refreshExistingAlignment
    rw [hslots]
    exact ⟨_, rfl⟩
  obtain ⟨w, hw⟩ := hrefresh
  refine ⟨w, ?_, ?_⟩
  · unfold reuseAt reuseOne
    rw [hpresence]
    simp only [hw]
  · calc faWords B w = faWords B (copyWor u v) := faWords_refresh B hw
      _ = faWords B v := rfl

theorem reuseAt_rejected (hpresence : RecordingPresence.of v = .inRecording)
    (hrejected : ¬ (collectWorBackedTimings B (copyWor u v)).isSome) :
    reuseAt B (some u) v = (copyWor u v, false) := by
  have hrefresh : refreshExistingAlignment B (copyWor u v) = none := by
    unfold refreshExistingAlignment
    rw [Option.not_isSome_iff_eq_none.mp hrejected]
    rfl
  unfold reuseAt reuseOne
  rw [hpresence]
  simp only [hrefresh]

theorem ReuseSound.offersFit (hdistinct : Distinct deltas) (h : ReuseSound B before after deltas) :
    OffersFit B before after deltas := by
  intro b i u v hpair hu hv hpresence
  have hat := reuse_at (B := B) before hdistinct hpair hv
  rw [hu] at hat
  split
  · next haccepted =>
    intro hwor
    obtain ⟨w, hw, hwords⟩ := reuseAt_accepted hpresence haccepted
    rw [hw] at hat
    rw [← hwords]
    exact h.same_words i (hat.2.mpr rfl) b u w hpair hu hwor hat.1
  · next hrejected =>
    rw [reuseAt_rejected hpresence hrejected] at hat
    have hsame := h.unchanged i (fun hmem => Bool.false_ne_true (hat.2.mp hmem))
    rw [hat.1, hv] at hsame
    exact (copyWor_eq_self_iff u v).mp (Option.some.inj hsame)

theorem OffersFit.reuseSound (hdistinct : Distinct deltas) (h : OffersFit B before after deltas) :
    ReuseSound B before after deltas := by
  have hlen := length_reuse (B := B) before after deltas
  refine ⟨?_, ?_⟩
  · intro i hi b u w hpair hu hwor hw
    have hbound : i < (utterancesOf after).length := by
      obtain ⟨hlt, -⟩ := List.getElem?_eq_some_iff.mp hw
      omega
    have hv := getElem?_eq_getElem hbound
    have hat := reuse_at (B := B) before hdistinct hpair hv
    rw [hu] at hat
    have hflag := hat.2.mp hi
    cases hpresence : RecordingPresence.of (utterancesOf after)[i] with
    | notInRecording postcode =>
      unfold reuseAt at hflag
      rw [hpresence] at hflag
      cases hflag
    | inRecording =>
      have hfit := h b i u _ hpair hu hv hpresence
      split at hfit
      · next haccepted =>
        obtain ⟨w', hw', hwords⟩ := reuseAt_accepted hpresence haccepted
        rw [hw', hw] at hat
        cases hat.1
        rw [hwords, hfit hwor]
      · next hrejected =>
        rw [reuseAt_rejected hpresence hrejected] at hflag
        cases hflag
  · intro i hi
    by_cases hpair : ∃ b, (b, i) ∈ deltas.filterMap UtteranceDelta.stable?
    · obtain ⟨b, hpair⟩ := hpair
      cases hv : (utterancesOf after)[i]? with
      | none =>
        rw [getElem?_eq_none_iff] at hv ⊢
        omega
      | some v =>
        have hat := reuse_at (B := B) before hdistinct hpair hv
        have hflag := fun htrue => hi (hat.2.mpr htrue)
        rw [hat.1]
        congr 1
        cases hpresence : RecordingPresence.of v with
        | notInRecording postcode =>
          unfold reuseAt
          rw [hpresence]
        | inRecording =>
          cases hu : (utterancesOf before)[b]? with
          | none =>
            rw [hu] at hflag
            unfold reuseAt reuseOne at hflag ⊢
            rw [hpresence] at hflag ⊢
            simp only at hflag ⊢
            split
            · next hrefresh =>
              rw [hrefresh] at hflag
              exact absurd rfl hflag
            · rfl
          | some u =>
            rw [hu] at hflag
            have hfit := h b i u v hpair hu hv hpresence
            split at hfit
            · next haccepted =>
              obtain ⟨w, hw, -⟩ := reuseAt_accepted hpresence haccepted
              rw [hw] at hflag
              exact absurd rfl hflag
            · next hrejected =>
              rw [reuseAt_rejected hpresence hrejected]
              exact (copyWor_eq_self_iff u v).mpr hfit
    · apply (foldl_reuseStep_other (B := B) before (after, []) _).1
      intro delta hdelta b hstable
      exact hpair ⟨b, mem_filterMap.mpr ⟨delta, hdelta, hstable⟩⟩

/-! ## The tiers and the words -/

variable (B) in
def slotTexts (content : List UtteranceContent) : List String :=
  ((wordLeaves content).filter B.domain.countsForTier).map Word.text

def tierTexts (items : List WorItem) : List String := (items.filterMap WorItem.word?).map Word.text

/-- `corroborate_wor_timing`: a tier is used only for the words it displays, and the slots then depend on it alone. -/
structure WorBinding.Corroborates (B : WorBinding) : Prop where
  same : ∀ content items, (B.completeSlots content items).isSome → tierTexts items = slotTexts B content
  settled : ∀ content content' items, slotTexts B content = slotTexts B content' →
    B.completeSlots content items = B.completeSlots content' items

variable (B) in
/-- Complete and plausible timings: some line can be refreshed from the tier. -/
def Reusable (items : List WorItem) : Prop :=
  ∃ u : Utterance, u.worTier = some items ∧ (collectWorBackedTimings B u).isSome

variable (B) in
/-- Each earlier tier is a reusable one of the later line's words, which are the earlier line's too; or the later
  line carries it already, and it is not a reusable tier of words that the earlier line does not have. -/
def TiersFit (before after : ChatFile) (deltas : List UtteranceDelta) : Prop :=
  ∀ b i u v items, (b, i) ∈ deltas.filterMap UtteranceDelta.stable? → (utterancesOf before)[b]? = some u →
    (utterancesOf after)[i]? = some v → RecordingPresence.of v = .inRecording → u.lastWor = some items →
    (Reusable B items ∧ tierTexts items = slotTexts B v.content ∧ faWords B v = faWords B u) ∨
      (v.worTier = some items ∧
        (Reusable B items → tierTexts items = slotTexts B v.content → faWords B v = faWords B u))

theorem collect_isSome_iff (hB : B.Corroborates) {items : List WorItem} (hwor : v.worTier = some items) :
    (collectWorBackedTimings B v).isSome ↔ Reusable B items ∧ tierTexts items = slotTexts B v.content := by
  have hspelled : ∀ w : Utterance, w.worTier = some items → (collectWorBackedTimings B w).isSome →
      tierTexts items = slotTexts B w.content := by
    intro w hw hcollected
    apply hB.same
    unfold collectWorBackedTimings at hcollected
    rw [hw] at hcollected
    simp only [Option.bind_eq_bind, Option.bind_some] at hcollected
    obtain ⟨_, hslots⟩ := Option.isSome_iff_exists.mp hcollected
    obtain ⟨slots, hslots, -⟩ := Option.bind_eq_some_iff.mp hslots
    rw [hslots]
    rfl
  constructor
  · exact fun h => ⟨⟨v, hwor, h⟩, hspelled v hwor h⟩
  · rintro ⟨⟨w, hw, hcollected⟩, htexts⟩
    have hslots := hB.settled w.content v.content items ((hspelled w hw hcollected).symm.trans htexts)
    unfold collectWorBackedTimings at hcollected ⊢
    rw [hw] at hcollected
    rw [hwor]
    simp only [Option.bind_eq_bind, Option.bind_some] at hcollected ⊢
    rwa [← hslots]

theorem replaceOrAddWor_worTier (items : List WorItem) (tiers : List DependentTier) :
    (replaceOrAddWor items tiers).findSome? DependentTier.wor? = some items := by
  induction tiers with
  | nil => rfl
  | cons tier tiers ih =>
    cases tier with
    | wor old => rfl
    | other label text => exact ih

theorem copyWor_worTier (v : Utterance) {items : List WorItem} (h : u.lastWor = some items) :
    (copyWor u v).worTier = some items := by
  unfold Utterance.lastWor at h
  unfold copyWor Utterance.worTier
  rw [foldl_replaceOrAddWor, h]
  exact replaceOrAddWor_worTier items v.dependentTiers

theorem worTier_isSome_iff (u : Utterance) : u.worTier.isSome ↔ ∃ items, u.lastWor = some items := by
  rw [← Option.isSome_iff_exists, Utterance.lastWor, getLast?_isSome, Utterance.worTier, findSome?_isSome_iff]
  rw [ne_eq, filterMap_eq_nil_iff]
  push Not
  exact exists_congr fun tier => and_congr_right fun _ => Option.isSome_iff_ne_none

theorem offersFit_iff (hB : B.Corroborates) : OffersFit B before after deltas ↔ TiersFit B before after deltas := by
  have hpair : ∀ u v items, u.lastWor = some items →
      ((if (collectWorBackedTimings B (copyWor u v)).isSome then u.worTier.isSome → faWords B v = faWords B u
        else ∀ items, u.lastWor = some items → v.worTier = some items) ↔
      (Reusable B items ∧ tierTexts items = slotTexts B v.content ∧ faWords B v = faWords B u) ∨
        (v.worTier = some items ∧
          (Reusable B items → tierTexts items = slotTexts B v.content → faWords B v = faWords B u))) := by
    intro u v items hlast
    have hcollected := collect_isSome_iff hB (copyWor_worTier v hlast)
    change _ ↔ Reusable B items ∧ tierTexts items = slotTexts B v.content at hcollected
    have hwor := (worTier_isSome_iff u).mpr ⟨items, hlast⟩
    simp only [hlast, hwor, Option.some.injEq, forall_eq', true_implies]
    split_ifs with haccepted
    · obtain ⟨hreusable, htexts⟩ := hcollected.mp haccepted
      constructor
      · exact fun hwords => .inl ⟨hreusable, htexts, hwords⟩
      · rintro (⟨-, -, hwords⟩ | ⟨-, hwords⟩)
        · exact hwords
        · exact hwords hreusable htexts
    · constructor
      · exact fun hcarried => .inr ⟨hcarried, fun hreusable htexts => absurd (hcollected.mpr ⟨hreusable, htexts⟩) haccepted⟩
      · rintro (⟨hreusable, htexts, -⟩ | ⟨hcarried, -⟩)
        · exact absurd (hcollected.mpr ⟨hreusable, htexts⟩) haccepted
        · exact hcarried
  constructor
  · intro h b i u v items hstable hu hv hpresence hlast
    exact (hpair u v items hlast).mp (h b i u v hstable hu hv hpresence)
  · intro h b i u v hstable hu hv hpresence
    cases hlast : u.lastWor with
    | some items =>
      rw [← hlast]
      exact (hpair u v items hlast).mpr (h b i u v items hstable hu hv hpresence hlast)
    | none =>
      split_ifs
      · intro hwor
        obtain ⟨items, hitems⟩ := (worTier_isSome_iff u).mp hwor
        cases hlast.symm.trans hitems
      · exact fun items hitems => nomatch hitems

/-- Reuse over the deltas of two versions is sound exactly when the earlier version's tiers fit the lines they
  are offered to. -/
theorem reuse_sound_iff {B : WorBinding} (hB : B.Corroborates) (morWords : List UtteranceContent → List String)
    (before after : ChatFile) : ReuseSound B before after (diffChat morWords before after) ↔
      TiersFit B before after (diffChat morWords before after) := by
  rw [← offersFit_iff hB]
  exact ⟨fun h => h.offersFit (diffChat_distinct morWords before after),
    fun h => h.reuseSound (diffChat_distinct morWords before after)⟩

/-! ## A filler edited between two versions -/

def plainDomain : WorDomain := { countsForTier := fun _ => true, splitCompoundFiller := fun w => [w.text] }

/-- A document model over plain words: every word counts, and `%wor` corresponds by equal texts. -/
def WorBinding.plain : WorBinding where
  domain := plainDomain
  counts_timing_free _ _ := rfl
  parts_timing_free _ _ := rfl
  walkWor := wordLeaves
  isFiller w := w.text == "um" || w.text == "uh"
  completeSlots content items :=
    let words := items.filterMap WorItem.word?
    if words.map Word.text = (wordLeaves content).map Word.text then words.mapM getWordTiming else none
  overProportion maxDurationMs utteranceSpanMs := decide (4 * utteranceSpanMs < 10 * maxDurationMs)
  provisional _ := false

def plainMorWords (content : List UtteranceContent) : List String :=
  ((wordLeaves content).filter fun w => !WorBinding.plain.isFiller w).map Word.text

/-- `*CHI: hello &-<filler> .` with its `%wor` tier. -/
def greeting (filler : String) : Utterance where
  speaker := "CHI"
  linkers := []
  bullet := none
  content := [.word ⟨"hello", none⟩, .word ⟨filler, none⟩]
  dependentTiers := [.wor [.word ⟨"hello", some ⟨100, 500⟩⟩, .word ⟨filler, some ⟨600, 900⟩⟩]]

theorem diffChat_greeting {before after : String} (hbefore : WorBinding.plain.isFiller ⟨before, none⟩ = true)
    (hafter : WorBinding.plain.isFiller ⟨after, none⟩ = true) :
    diffChat plainMorWords [.utterance (greeting before)] [.utterance (greeting after)] = [.unchanged 0 0] := by
  have halign : align ["hello"] ["hello"] .exact = [.matched "hello" 0 0] := by
    unfold align alignGeneric
    unfold hirschberg
    rfl
  have hwords (filler : String) (h : WorBinding.plain.isFiller ⟨filler, none⟩ = true) :
      utteranceFingerprint plainMorWords (greeting filler) = "hello" := by
    show " ".intercalate (map Word.text (filter _ [⟨"hello", none⟩, ⟨filler, none⟩])) = _
    rw [filter_cons_of_pos (by decide), filter_cons_of_neg (by simp [h])]
    rfl
  unfold diffChat
  rw [show utterancesOf [.utterance (greeting before)] = [greeting before] from rfl,
    show utterancesOf [.utterance (greeting after)] = [greeting after] from rfl, map_singleton, map_singleton,
    hwords before hbefore, hwords after hafter]
  dsimp only
  rw [halign]
  have hclassified : classifyAlignment [.utterance (greeting before)] [.utterance (greeting after)]
      [.matched "hello" 0 0] = [.unchanged 0 0] := rfl
  rw [hclassified, mergeSort_singleton]

theorem plain_corroborates : WorBinding.plain.Corroborates := by
  have hslots (content : List UtteranceContent) :
      slotTexts WorBinding.plain content = (wordLeaves content).map Word.text :=
    congrArg (map Word.text) (filter_eq_self.mpr fun _ _ => rfl)
  constructor
  · intro content items h
    by_contra hne
    rw [hslots] at hne
    have hnone : WorBinding.plain.completeSlots content items = none := if_neg hne
    rw [hnone] at h
    cases h
  · intro content content' items h
    rw [hslots, hslots] at h
    unfold WorBinding.plain
    simp only [h]

/-- A line that did not change, and its tier. -/
theorem reuse_sound_iff_unchanged :
    ReuseSound .plain [.utterance (greeting "um")] [.utterance (greeting "um")]
      (diffChat plainMorWords [.utterance (greeting "um")] [.utterance (greeting "um")]) := by
  refine (reuse_sound_iff plain_corroborates plainMorWords _ _).mpr ?_
  rw [diffChat_greeting (by decide) (by decide)]
  intro b i u v items hstable hu hv _ hlast
  obtain ⟨rfl, rfl⟩ := Prod.mk.inj (mem_singleton.mp hstable)
  cases hu
  cases hv
  cases hlast
  exact .inr ⟨rfl, fun _ _ => rfl⟩

/-- The edited filler is not compared, so the line took the other's tier and lost its own. -/
theorem refused_tier_stays :
    ¬ ReuseSound .plain [.utterance (greeting "um")] [.utterance (greeting "uh")]
      (diffChat plainMorWords [.utterance (greeting "um")] [.utterance (greeting "uh")]) := by
  intro h
  have hfit := h.offersFit (diffChat_distinct ..)
  rw [diffChat_greeting (by decide) (by decide)] at hfit
  have hpair := hfit 0 0 (greeting "um") (greeting "uh") (mem_singleton.mpr rfl) rfl rfl rfl
  have hsame := hpair _ rfl
  exact absurd hsame (by decide)

end Batchalign.Fa
