import Mathlib.Data.List.MinMax
import Mathlib.Tactic.Ring
import Batchalign.Fa.Content

/- One utterance as the ordering phases see it (`fa/orchestrate.rs`, `fa/postprocess.rs`): its main
   bullet, its word timings on the main tier and on `%wor`, their hull, the clamps and the strip. The
   phases learn its words through `timedSpans` alone. -/
namespace Batchalign.Fa
open List

inductive BulletState where
  | parsed (bullet : TimeSpan)
  | unparsed (source : String)
  deriving DecidableEq

def BulletState.asParsed : BulletState → Option TimeSpan
  | .parsed bullet => some bullet
  | .unparsed _ => none

/-- An item of a `%wor` tier. -/
inductive WorItem where
  | word (word : Word)
  | separator (text : String)
  deriving DecidableEq

def WorItem.word? : WorItem → Option Word
  | .word w => some w
  | .separator _ => none

def WorItem.mapWord (f : Word → Word) : WorItem → WorItem
  | .word w => .word (f w)
  | .separator text => .separator text

/-- A dependent tier; only `%wor` is looked into. -/
inductive DependentTier where
  | wor (items : List WorItem)
  | other (label text : String)

def DependentTier.wor? : DependentTier → Option (List WorItem)
  | .wor items => some items
  | .other _ _ => none

/-- Main-tier linkers; only the overlap marker `+<` is told apart. -/
inductive LinkerKind where
  | lazyOverlapPrecedes
  | other (label : String)
  deriving DecidableEq

structure Utterance where
  speaker : String
  linkers : List LinkerKind
  bullet : Option BulletState
  content : List UtteranceContent
  dependentTiers : List DependentTier
  /-- The texts of the postcodes that have one. -/
  postcodes : List String := []

def Utterance.parsedBullet (u : Utterance) : Option TimeSpan := u.bullet.bind BulletState.asParsed

/-- The main tier begins with `+<`. -/
def overlapsPreviousUtterance (u : Utterance) : Bool :=
  u.linkers.any fun linker => linker == .lazyOverlapPrecedes

inductive OffRecordPostcode where
  | diary
  deriving DecidableEq

def OffRecordPostcode.ofPostcodeText (text : String) : Option OffRecordPostcode :=
  if text = "diary" then some .diary else none

inductive RecordingPresence where
  | inRecording
  | notInRecording (postcode : OffRecordPostcode)
  deriving DecidableEq

/-- The first postcode that marks it decides. -/
def RecordingPresence.of (u : Utterance) : RecordingPresence :=
  match u.postcodes.findSome? OffRecordPostcode.ofPostcodeText with
  | some postcode => .notInRecording postcode
  | none => .inRecording

/-- The first `%wor` tier. -/
def Utterance.worTier (u : Utterance) : Option (List WorItem) := u.dependentTiers.findSome? DependentTier.wor?

/-- The words of the `%wor` tier. -/
def Utterance.worWords (u : Utterance) : List Word := (u.worTier.getD []).filterMap WorItem.word?

/-- Rewrite the words of the first `%wor` tier in place (`wor_tier_mut`). -/
def mapWorTier (f : Word → Word) : List DependentTier → List DependentTier
  | [] => []
  | .wor items :: tiers => .wor (items.map (WorItem.mapWord f)) :: tiers
  | .other label text :: tiers => .other label text :: mapWorTier f tiers

/-! ## Timings and their hull -/

/-- Every timing the utterance's words carry: main tier, then `%wor`. -/
def Utterance.timedSpans (u : Utterance) : List TimeSpan :=
  timings (wordLeaves u.content) ++ timings u.worWords

section Hull
variable (W : ContentWalker)

def furthestWordTimingEnd (u : Utterance) : Option ℕ :=
  let mainEnd := ((timings (W.walkWords u.content)).map TimeSpan.endMs).max?
  let worEnd := u.worTier.bind fun items =>
    ((timings (items.filterMap WorItem.word?)).map TimeSpan.endMs).max?
  (mainEnd.toList ++ worEnd.toList).max?

def earliestWordTimingStart (u : Utterance) : Option ℕ :=
  let mainStart := ((timings (W.walkWords u.content)).map TimeSpan.startMs).min?
  let worStart := u.worTier.bind fun items =>
    ((timings (items.filterMap WorItem.word?)).map TimeSpan.startMs).min?
  (mainStart.toList ++ worStart.toList).min?

/-- A proof that some word of the utterance is timed. -/
def TimedUtterance.inspect (utteranceIdx : ℕ) (u : Utterance) : Option ℕ :=
  (furthestWordTimingEnd W u).map fun _ => utteranceIdx

end Hull

theorem max?_join (xs ys : List ℕ) : ((xs.max?).toList ++ (ys.max?).toList).max? = (xs ++ ys).max? := by
  cases hx : xs.max? with
  | none =>
    rw [max?_eq_none_iff] at hx
    subst hx
    cases hy : ys.max? <;> simp [hy]
  | some a =>
    cases hy : ys.max? with
    | none =>
      rw [max?_eq_none_iff] at hy
      subst hy
      simp [hx]
    | some b =>
      obtain ⟨ha, hxa⟩ := max?_eq_some_iff.mp hx
      obtain ⟨hb, hyb⟩ := max?_eq_some_iff.mp hy
      symm
      rw [show ((some a).toList ++ (some b).toList).max? = some (max a b) from rfl,
        max?_eq_some_iff]
      constructor
      · rcases le_total a b with hab | hab <;> simp [hab, ha, hb]
      · intro c hc
        rcases mem_append.mp hc with hc | hc
        · exact le_trans (hxa c hc) (le_max_left a b)
        · exact le_trans (hyb c hc) (le_max_right a b)

theorem min?_join (xs ys : List ℕ) : ((xs.min?).toList ++ (ys.min?).toList).min? = (xs ++ ys).min? := by
  cases hx : xs.min? with
  | none =>
    rw [min?_eq_none_iff] at hx
    subst hx
    cases hy : ys.min? <;> simp [hy]
  | some a =>
    cases hy : ys.min? with
    | none =>
      rw [min?_eq_none_iff] at hy
      subst hy
      simp [hx]
    | some b =>
      obtain ⟨ha, hxa⟩ := min?_eq_some_iff.mp hx
      obtain ⟨hb, hyb⟩ := min?_eq_some_iff.mp hy
      symm
      rw [show ((some a).toList ++ (some b).toList).min? = some (min a b) from rfl,
        min?_eq_some_iff]
      constructor
      · rcases le_total a b with hab | hab <;> simp [hab, ha, hb]
      · intro c hc
        rcases mem_append.mp hc with hc | hc
        · exact le_trans (min_le_left a b) (hxa c hc)
        · exact le_trans (min_le_right a b) (hyb c hc)

theorem furthestWordTimingEnd_eq (W : ContentWalker) (u : Utterance) :
    furthestWordTimingEnd W u = (u.timedSpans.map TimeSpan.endMs).max? := by
  rw [Utterance.timedSpans, map_append, ← max?_join, furthestWordTimingEnd, W.visits_every_word]
  cases h : u.worTier <;> simp [Utterance.worWords, h]

theorem earliestWordTimingStart_eq (W : ContentWalker) (u : Utterance) :
    earliestWordTimingStart W u = (u.timedSpans.map TimeSpan.startMs).min? := by
  rw [Utterance.timedSpans, map_append, ← min?_join, earliestWordTimingStart, W.visits_every_word]
  cases h : u.worTier <;> simp [Utterance.worWords, h]

variable {W : ContentWalker} {u : Utterance}

theorem furthestWordTimingEnd_eq_none_iff : furthestWordTimingEnd W u = none ↔ u.timedSpans = [] := by
  rw [furthestWordTimingEnd_eq, max?_eq_none_iff, map_eq_nil_iff]

theorem earliestWordTimingStart_eq_none_iff : earliestWordTimingStart W u = none ↔ u.timedSpans = [] := by
  rw [earliestWordTimingStart_eq, min?_eq_none_iff, map_eq_nil_iff]

theorem furthestWordTimingEnd_spec {e : ℕ} (h : furthestWordTimingEnd W u = some e) :
    (∃ s ∈ u.timedSpans, s.endMs = e) ∧ ∀ s ∈ u.timedSpans, s.endMs ≤ e := by
  rw [furthestWordTimingEnd_eq, max?_eq_some_iff] at h
  obtain ⟨hmem, hle⟩ := h
  refine ⟨by simpa using hmem, ?_⟩
  intro s hs
  exact hle _ (mem_map_of_mem hs)

theorem earliestWordTimingStart_spec {e : ℕ} (h : earliestWordTimingStart W u = some e) :
    (∃ s ∈ u.timedSpans, s.startMs = e) ∧ ∀ s ∈ u.timedSpans, e ≤ s.startMs := by
  rw [earliestWordTimingStart_eq, min?_eq_some_iff] at h
  obtain ⟨hmem, hle⟩ := h
  refine ⟨by simpa using hmem, ?_⟩
  intro s hs
  exact hle _ (mem_map_of_mem hs)

/-! ## Cutting words to a bound -/

inductive WordTier where
  | mainTier
  | wor
  deriving DecidableEq

structure DroppedWordTiming where
  wordIndex : ℕ
  tier : WordTier
  measured : TimeSpan

structure TrimmedWordTiming where
  wordIndex : ℕ
  tier : WordTier
  measured : TimeSpan
  kept : TimeSpan

structure ClampedWordCounts where
  trimmed : List TrimmedWordTiming
  dropped : List DroppedWordTiming

def ClampedWordCounts.default : ClampedWordCounts := ⟨[], []⟩

def ClampedWordCounts.cutMainTier (c : ClampedWordCounts) : Bool :=
  (c.trimmed.any fun t => t.tier == .mainTier) || c.dropped.any fun d => d.tier == .mainTier

inductive WordClampOutcome where
  | trimmed (timing : TimeSpan)
  | droppedPastBound (measured : TimeSpan)

/-- A cut without positive extent drops the word. Origins have no
field in a bullet. -/
def clampTranscriptWordToBullet (span : TimeSpan) (startMs endMs : ℕ) : WordClampOutcome :=
  if startMs < endMs then .trimmed ⟨startMs, endMs⟩ else .droppedPastBound span

/-- A bound on word timings. No end is `u64::MAX`, which no timing passes. -/
structure ClampBound where
  startMs : ℕ
  endMs : Option ℕ

def ClampBound.holds (bound : ClampBound) (span : TimeSpan) : Bool :=
  decide (bound.startMs ≤ span.startMs) &&
    match bound.endMs with
    | none => true
    | some endMs => decide (span.endMs ≤ endMs)

def ClampBound.cut (bound : ClampBound) (span : TimeSpan) : Option WordClampOutcome :=
  if bound.holds span then none
  else
    let endMs := match bound.endMs with
      | none => span.endMs
      | some endMs => min span.endMs endMs
    some (clampTranscriptWordToBullet span (max span.startMs bound.startMs) endMs)

def ClampBound.kept (bound : ClampBound) (span : TimeSpan) : Option TimeSpan :=
  match bound.cut span with
  | none => some span
  | some (.trimmed timing) => some timing
  | some (.droppedPastBound _) => none

/-- `ClampedWordCounts::clamp_word` on the word. -/
def clampWord (bound : ClampBound) (word : Word) : Word :=
  { word with inlineBullet := word.inlineBullet.bind bound.kept }

/-- `ClampedWordCounts::record` over the words of one tier. -/
def clampRecords (bound : ClampBound) (tier : WordTier) (words : List Word) : ClampedWordCounts where
  trimmed := words.zipIdx.filterMap fun (word, wordIndex) =>
    match word.inlineBullet with
    | none => none
    | some measured => match bound.cut measured with
      | some (.trimmed kept) => some ⟨wordIndex, tier, measured, kept⟩
      | _ => none
  dropped := words.zipIdx.filterMap fun (word, wordIndex) =>
    match word.inlineBullet with
    | none => none
    | some measured => match bound.cut measured with
      | some (.droppedPastBound lost) => some ⟨wordIndex, tier, lost⟩
      | _ => none

section Clamps
variable (W : ContentWalker)

def clampWordsWithin (u : Utterance) (bound : ClampBound) : Utterance × ClampedWordCounts :=
  let onMain := clampRecords bound .mainTier (W.walkWords u.content)
  let onWor := clampRecords bound .wor u.worWords
  ({ u with
      content := W.walkWordsMut (clampWord bound) u.content
      dependentTiers := mapWorTier (clampWord bound) u.dependentTiers },
    ⟨onMain.trimmed ++ onWor.trimmed, onMain.dropped ++ onWor.dropped⟩)

def clampWordsPastBound (u : Utterance) (boundMs : ℕ) : Utterance × ClampedWordCounts :=
  clampWordsWithin W u ⟨0, some boundMs⟩

def clampWordsBeforeBound (u : Utterance) (boundMs : ℕ) : Utterance × ClampedWordCounts :=
  clampWordsWithin W u ⟨boundMs, none⟩

/-- Rewrite a bullet through `as_parsed_mut`: one that did not parse stays as it is. -/
def BulletState.mapParsed (f : TimeSpan → TimeSpan) : BulletState → BulletState
  | .parsed bullet => .parsed (f bullet)
  | .unparsed source => .unparsed source

def Utterance.setStart (u : Utterance) (startMs : ℕ) : Utterance :=
  { u with bullet := u.bullet.map (BulletState.mapParsed fun b => { b with startMs := startMs }) }

def Utterance.setEnd (u : Utterance) (endMs : ℕ) : Utterance :=
  { u with bullet := u.bullet.map (BulletState.mapParsed fun b => { b with endMs := endMs }) }

/-- Move the start forward and cut the words to begin there. -/
def raiseBulletStart (u : Utterance) (toMs : ℕ) : Utterance × ClampedWordCounts :=
  clampWordsBeforeBound W (u.setStart toMs) toMs

structure StrippedTiming where
  wordsDropped : List DroppedWordTiming

def droppedTimings (tier : WordTier) (words : List Word) : List DroppedWordTiming :=
  words.zipIdx.filterMap fun (word, wordIndex) =>
    (getWordTiming word).map fun measured => ⟨wordIndex, tier, measured⟩

def stripUtteranceTiming (u : Utterance) : Utterance × StrippedTiming :=
  let wordsDropped := droppedTimings .mainTier (W.walkWords u.content) ++
    droppedTimings .wor u.worWords
  ({ u with
      bullet := none
      content := stripTimingFromContent u.content
      dependentTiers := u.dependentTiers.filter fun tier => tier.wor?.isNone },
    ⟨wordsDropped⟩)

end Clamps

/-! ## What the operations do to a bullet and to the timings -/

theorem worWords_eq (u : Utterance) :
    u.worWords = ((u.dependentTiers.findSome? DependentTier.wor?).getD []).filterMap WorItem.word? :=
  rfl

theorem worWords_mapWorTier (f : Word → Word) (tiers : List DependentTier) :
    (((mapWorTier f tiers).findSome? DependentTier.wor?).getD []).filterMap WorItem.word? =
      (((tiers.findSome? DependentTier.wor?).getD []).filterMap WorItem.word?).map f := by
  induction tiers with
  | nil => rfl
  | cons tier tiers ih =>
    cases tier with
    | other label text => exact ih
    | wor items =>
      simp only [mapWorTier, DependentTier.wor?, findSome?_cons, Option.getD_some,
        filterMap_map, map_filterMap]
      apply filterMap_congr
      intro item _
      cases item <;> rfl

theorem clampWord_inlineBullet (bound : ClampBound) (w : Word) :
    (clampWord bound w).inlineBullet = w.inlineBullet.bind bound.kept := rfl

@[simp] theorem timedSpans_clampWordsWithin (W : ContentWalker) (u : Utterance) (bound : ClampBound) :
    (clampWordsWithin W u bound).1.timedSpans = u.timedSpans.filterMap bound.kept := by
  simp only [Utterance.timedSpans, clampWordsWithin, W.rewrites_every_word, wordLeaves_mapLeaves,
    worWords_eq, worWords_mapWorTier, filterMap_append]
  rw [timings_map _ bound.kept (clampWord_inlineBullet bound),
    timings_map _ bound.kept (clampWord_inlineBullet bound)]

theorem ClampBound.kept_eq_some {bound : ClampBound} {span kept : TimeSpan}
    (h : bound.kept span = some kept) :
    kept = span ∨ (kept.startMs < kept.endMs ∧ kept.startMs = max span.startMs bound.startMs ∧
      kept.endMs ≤ span.endMs ∧ ∀ e, bound.endMs = some e → kept.endMs ≤ e) := by
  simp only [ClampBound.kept, ClampBound.cut] at h
  by_cases hin : bound.holds span = true
  · rw [if_pos hin] at h
    exact .inl (Option.some.inj h).symm
  · right
    cases hend : bound.endMs with
    | none =>
      simp only [hend, clampTranscriptWordToBullet] at h
      split_ifs at h with hlt
      simp at h
      subst h
      exact ⟨hlt, rfl, le_refl _, by simp⟩
    | some e =>
      simp only [hend, clampTranscriptWordToBullet] at h
      split_ifs at h with hlt
      simp at h
      subst h
      refine ⟨hlt, rfl, min_le_left _ _, ?_⟩
      intro e' he'
      rw [Option.some.injEq] at he'
      subst he'
      exact min_le_right _ _

theorem ClampBound.kept_inside {bound : ClampBound} {span kept : TimeSpan}
    (h : bound.kept span = some kept) :
    bound.startMs ≤ kept.startMs ∧ ∀ e, bound.endMs = some e → kept.endMs ≤ e := by
  rcases ClampBound.kept_eq_some h with rfl | ⟨_, hs, _, he⟩
  · by_cases hin : bound.holds kept = true
    · simp only [ClampBound.holds, Bool.and_eq_true, decide_eq_true_eq] at hin
      refine ⟨hin.1, ?_⟩
      intro e hend
      simpa [hend] using hin.2
    · simp only [ClampBound.kept, ClampBound.cut, if_neg hin] at h
      cases hend : bound.endMs <;>
        (simp only [hend, clampTranscriptWordToBullet] at h
         split_ifs at h with hlt
         simp at h
         have h1 := congrArg TimeSpan.startMs h
         have h2 := congrArg TimeSpan.endMs h
         simp at h1 h2)
      · exact ⟨h1, by simp⟩
      · refine ⟨h1, ?_⟩
        intro e' he'
        rw [Option.some.injEq] at he'
        omega
  · exact ⟨by omega, he⟩

section
variable (u : Utterance)

@[simp] theorem parsedBullet_setStart (t : ℕ) :
    (u.setStart t).parsedBullet = u.parsedBullet.map fun b => { b with startMs := t } := by
  unfold Utterance.setStart Utterance.parsedBullet
  cases u.bullet with
  | none => rfl
  | some state => cases state <;> rfl

@[simp] theorem parsedBullet_setEnd (t : ℕ) :
    (u.setEnd t).parsedBullet = u.parsedBullet.map fun b => { b with endMs := t } := by
  unfold Utterance.setEnd Utterance.parsedBullet
  cases u.bullet with
  | none => rfl
  | some state => cases state <;> rfl

@[simp] theorem timedSpans_setStart (t : ℕ) : (u.setStart t).timedSpans = u.timedSpans := rfl

@[simp] theorem timedSpans_setEnd (t : ℕ) : (u.setEnd t).timedSpans = u.timedSpans := rfl

end

theorem worWords_stripUtteranceTiming (W : ContentWalker) (u : Utterance) :
    (stripUtteranceTiming W u).1.worWords = [] := by
  have h : (u.dependentTiers.filter fun tier => tier.wor?.isNone).findSome? DependentTier.wor? =
      none := by
    rw [findSome?_eq_none_iff]
    intro tier htier
    simpa using (mem_filter.mp htier).2
  rw [worWords_eq]
  simp only [stripUtteranceTiming, h]
  rfl

@[simp] theorem timedSpans_stripUtteranceTiming (W : ContentWalker) (u : Utterance) :
    (stripUtteranceTiming W u).1.timedSpans = timings (unreachedWords u.content) := by
  rw [Utterance.timedSpans, worWords_stripUtteranceTiming, timings_nil, append_nil]
  exact timed_stripTimingFromContent u.content

@[simp] theorem bullet_stripUtteranceTiming (W : ContentWalker) (u : Utterance) :
    (stripUtteranceTiming W u).1.bullet = none := rfl

/-! ## The record of a strip -/

def DroppedWordTiming.WasTimed (u : Utterance) (d : DroppedWordTiming) : Prop :=
  let words := match d.tier with
    | .mainTier => wordLeaves u.content
    | .wor => u.worWords
  (words[d.wordIndex]?).bind getWordTiming = some d.measured

theorem mem_droppedTimings (tier : WordTier) (words : List Word) (d : DroppedWordTiming) :
    d ∈ droppedTimings tier words ↔
      d.tier = tier ∧ (words[d.wordIndex]?).bind getWordTiming = some d.measured := by
  simp only [droppedTimings, mem_filterMap, Option.map_eq_some_iff, Prod.exists]
  constructor
  · rintro ⟨w, i, hwi, measured, hm, rfl⟩
    rw [mem_zipIdx_iff_getElem?] at hwi
    exact ⟨rfl, by simp [hwi, hm]⟩
  · rintro ⟨rfl, hd⟩
    obtain ⟨w, hw, hm⟩ := Option.bind_eq_some_iff.mp hd
    exact ⟨w, d.wordIndex, mem_zipIdx_iff_getElem?.mpr hw, d.measured, hm, rfl⟩

theorem droppedTimings_nodup (tier : WordTier) (words : List Word) :
    (droppedTimings tier words).Nodup := by
  have hpair : (droppedTimings tier words).Pairwise fun a b => a.wordIndex < b.wordIndex := by
    rw [droppedTimings, pairwise_filterMap]
    have hidx : words.zipIdx.Pairwise fun a b => a.2 < b.2 := by
      rw [← pairwise_map (f := Prod.snd) (R := (· < ·)), zipIdx_map_snd]
      exact pairwise_lt_range'
    apply hidx.imp
    intro a b hab x hx y hy
    obtain ⟨_, _, rfl⟩ := Option.map_eq_some_iff.mp hx
    obtain ⟨_, _, rfl⟩ := Option.map_eq_some_iff.mp hy
    exact hab
  apply hpair.imp
  rintro a b hab rfl
  exact lt_irrefl _ hab

theorem wordsDropped_exact (W : ContentWalker) (u : Utterance) :
    (stripUtteranceTiming W u).2.wordsDropped.Nodup ∧
      ∀ d, d ∈ (stripUtteranceTiming W u).2.wordsDropped ↔ d.WasTimed u := by
  simp only [stripUtteranceTiming, W.visits_every_word]
  constructor
  · rw [nodup_append]
    refine ⟨droppedTimings_nodup _ _, droppedTimings_nodup _ _, ?_⟩
    rintro d hmain _ hwor rfl
    have h1 := ((mem_droppedTimings ..).mp hmain).1
    have h2 := ((mem_droppedTimings ..).mp hwor).1
    rw [h1] at h2
    exact WordTier.noConfusion h2
  · intro d
    rw [mem_append, mem_droppedTimings, mem_droppedTimings]
    cases htier : d.tier <;> simp [DroppedWordTiming.WasTimed, htier]

/-- A strip promises: no word timed on either tier, no internal bullet, a record of exactly the timed words.
  -/
structure StripComplete (W : ContentWalker) (u : Utterance) : Prop where
  main_untimed : ∀ w ∈ wordLeaves (stripUtteranceTiming W u).1.content, w.inlineBullet = none
  wor_untimed : ∀ w ∈ (stripUtteranceTiming W u).1.worWords, w.inlineBullet = none
  no_internal_bullet : internalBullets (stripUtteranceTiming W u).1.content = []
  recorded_once : (stripUtteranceTiming W u).2.wordsDropped.Nodup
  recorded : ∀ d, d ∈ (stripUtteranceTiming W u).2.wordsDropped ↔ d.WasTimed u
  inspects_none : ∀ idx, TimedUtterance.inspect W idx (stripUtteranceTiming W u).1 = none

theorem timings_eq_nil_iff (words : List Word) :
    timings words = [] ↔ ∀ w ∈ words, w.inlineBullet = none := by
  rw [timings, filterMap_eq_nil_iff]
  rfl

/-- The strip keeps its promise exactly where timed words and internal bullets all lie where it goes. -/
theorem stripUtteranceTiming_complete_iff (W : ContentWalker) (u : Utterance) : StripComplete W u ↔
      (∀ w ∈ unreachedWords u.content, w.inlineBullet = none) ∧
        unreachedInternalBullets u.content = [] := by
  have hmain := timed_stripTimingFromContent u.content
  have hbullets := bullets_stripTimingFromContent u.content
  constructor
  · intro h
    constructor
    · rw [← timings_eq_nil_iff, ← hmain, timings_eq_nil_iff]
      exact h.main_untimed
    · rw [← hbullets]
      exact h.no_internal_bullet
  · rintro ⟨hwords, hnone⟩
    rw [← timings_eq_nil_iff] at hwords
    refine ⟨?_, ?_, ?_, (wordsDropped_exact W u).1, (wordsDropped_exact W u).2, ?_⟩
    · rw [← timings_eq_nil_iff]
      exact hmain.trans hwords
    · rw [worWords_stripUtteranceTiming]
      simp
    · exact hbullets.trans hnone
    · intro idx
      have hspans : (stripUtteranceTiming W u).1.timedSpans = [] := by
        rw [timedSpans_stripUtteranceTiming, hwords]
      rw [TimedUtterance.inspect, furthestWordTimingEnd_eq_none_iff.mpr hspans]
      rfl

def quotedUtterance : Utterance where
  speaker := "CHI"
  linkers := []
  bullet := some (.parsed ⟨100, 200⟩)
  content := [.container .quotation [.word ⟨"hello", some ⟨100, 200⟩⟩]]
  dependentTiers := []

/-- The strip records the quoted word's interval as removed and leaves it in place. -/
theorem quoted_word_survives_strip : ¬ StripComplete .unconditional quotedUtterance := by
  intro h
  have hmain := h.main_untimed ⟨"hello", some ⟨100, 200⟩⟩ (by decide)
  exact absurd hmain (by decide)

end Batchalign.Fa
