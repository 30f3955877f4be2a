import Batchalign.DpAlign.AlignOptimal
import Batchalign.Compare.Engine

/- The scores do not depend on where the main transcript is cut. Documents with the same compared words
   conform to the same tokens, and the renderings differ only in what names utterances
   (`SameRendering`). -/
namespace Batchalign.Compare
open DpAlign List

variable {M T : Type} (C : Chatter M T) (D : WordLists) {ws ws' : List FlattenedWord}

structure ComparedWord where
  text : String
  pos : Option String
  language : WordLanguage
  deriving DecidableEq

def FlattenedWord.compared (w : FlattenedWord) : ComparedWord :=
  ⟨w.word.word.text, w.pos, w.word.language⟩

def comparedWords (file : ChatFile M T) : List ComparedWord :=
  (flattenSide C (ComparedDocument.of C file)).map FlattenedWord.compared

def FlattenedWord.place (w : FlattenedWord) : ℕ × ℕ := (w.word.utterance, w.position)

theorem mem_flattenWords {pos : GoldPos} {utterance position : ℕ} {words : List LanguagedWord}
    {w : FlattenedWord} (h : w ∈ flattenWords C pos utterance position words) :
    w.word ∈ words ∧ position ≤ w.position := by
  induction words generalizing position with
  | nil => simp [flattenWords] at h
  | cons languaged rest ih =>
    simp only [flattenWords] at h
    split at h
    · exact ⟨mem_cons_of_mem _ (ih h).1, (ih h).2⟩
    · rcases mem_cons.mp h with rfl | h
      · exact ⟨mem_cons_self, le_refl _⟩
      · exact ⟨mem_cons_of_mem _ (ih h).1, by have := (ih h).2; omega⟩

theorem flattenWords_nodup (pos : GoldPos) (utterance position : ℕ) (words : List LanguagedWord) :
    ((flattenWords C pos utterance position words).map FlattenedWord.position).Nodup := by
  induction words generalizing position with
  | nil => simp [flattenWords]
  | cons languaged rest ih =>
    simp only [flattenWords]
    split
    · exact ih position
    · simp only [map_cons, nodup_cons, mem_map, not_exists, not_and]
      refine ⟨fun w hw heq => ?_, ih _⟩
      have := (mem_flattenWords C hw).2
      omega

theorem mem_languagedUtterances {file : ChatFile M T} {utt : LanguagedUtterance}
    (h : utt ∈ (ComparedDocument.of C file).utterances) :
    ∀ w ∈ utt.words, w.utterance = utt.utteranceIndex := by
  simp only [ComparedDocument.of, languagedUtterances, mem_mapIdx] at h
  obtain ⟨i, hi, rfl⟩ := h
  simp [languagedUtterance]

theorem utteranceIndex_nodup (file : ChatFile M T) :
    ((ComparedDocument.of C file).utterances.map LanguagedUtterance.utteranceIndex).Nodup := by
  have : (ComparedDocument.of C file).utterances.map LanguagedUtterance.utteranceIndex =
      range file.utterances.length := by
    apply ext_getElem <;> simp [ComparedDocument.of, languagedUtterances, languagedUtterance]
  rw [this]
  exact nodup_range

theorem flattenSide_nodup (file : ChatFile M T) :
    ((flattenSide C (ComparedDocument.of C file)).map FlattenedWord.place).Nodup := by
  have hutterance : ∀ utt ∈ (ComparedDocument.of C file).utterances, ∀ w ∈ flattenWords C
      (ComparedDocument.of C file).pos utt.utteranceIndex 0 utt.words,
      w.word.utterance = utt.utteranceIndex :=
    fun utt hutt w hw => mem_languagedUtterances C hutt _ (mem_flattenWords C hw).1
  have hdistinct := utteranceIndex_nodup C file
  unfold flattenSide
  generalize (ComparedDocument.of C file).utterances = utterances at hutterance hdistinct
  rw [map_flatMap, nodup_flatMap]
  constructor
  · intro utt _
    have hpositions := flattenWords_nodup C (ComparedDocument.of C file).pos utt.utteranceIndex 0
      utt.words
    rw [Nodup, pairwise_map] at hpositions ⊢
    exact hpositions.imp fun hne heq => hne (Prod.ext_iff.mp heq).2
  · rw [Nodup, pairwise_map] at hdistinct
    refine hdistinct.imp_of_mem fun {a b} ha hb hne => ?_
    simp only [Function.onFun, disjoint_left, mem_map, not_exists, not_and]
    rintro _ ⟨w, hw, rfl⟩ v hv heq
    apply hne
    rw [← hutterance a ha w hw, ← hutterance b hb v hv]
    exact (Prod.ext_iff.mp heq).1.symm

def SameWord (ws ws' : List FlattenedWord) (w w' : FlattenedWord) : Prop :=
  ∃ i : ℕ, ws[i]? = some w ∧ ws'[i]? = some w'

theorem SameWord.compared_eq {w w' : FlattenedWord} (h : SameWord ws ws' w w')
    (hws : ws.map FlattenedWord.compared = ws'.map FlattenedWord.compared) :
    w.compared = w'.compared := by
  obtain ⟨i, hi, hi'⟩ := h
  have : (ws.map FlattenedWord.compared)[i]? = (ws'.map FlattenedWord.compared)[i]? := by rw [hws]
  simpa [hi, hi'] using this

theorem index_of_place {ws : List FlattenedWord} (hws : (ws.map FlattenedWord.place).Nodup)
    {i j : ℕ} {w v : FlattenedWord} (hi : ws[i]? = some w) (hj : ws[j]? = some v) :
    w.place = v.place ↔ i = j := by
  constructor
  · intro hplace
    have hlt : i < (ws.map FlattenedWord.place).length := by
      simpa using (List.getElem?_eq_some_iff.mp hi).1
    exact (getElem?_inj hlt hws).mp (by simp [hi, hj, hplace])
  · rintro rfl
    rw [Option.some.inj (hi.symm.trans hj)]

theorem SameWord.place_iff {w w' v v' : FlattenedWord}
    (hws : (ws.map FlattenedWord.place).Nodup) (hws' : (ws'.map FlattenedWord.place).Nodup)
    (h : SameWord ws ws' w w') (hv : SameWord ws ws' v v') : w.place = v.place ↔ w'.place = v'.place := by
  obtain ⟨i, hi, hi'⟩ := h
  obtain ⟨j, hj, hj'⟩ := hv
  rw [index_of_place hws hi hj, index_of_place hws' hi' hj']

variable (normalization : WerNormalization)

theorem conformWords_congr
    (h : ws.map FlattenedWord.compared = ws'.map FlattenedWord.compared) (index : ℕ) :
    conformWords C D normalization index ws = conformWords C D normalization index ws' := by
  induction ws generalizing ws' index with
  | nil => simp_all
  | cons w ws ih =>
    cases ws' with
    | nil => simp at h
    | cons w' ws' =>
      simp only [map_cons, cons.injEq] at h
      have htext : w.word.word.text = w'.word.word.text := congrArg ComparedWord.text h.1
      simp only [conformWords, htext, ih h.2]

theorem conformWords_owner (ws : List FlattenedWord) (index : ℕ) :
    ∀ token ∈ conformWords C D normalization index ws, token.2 < index + ws.length := by
  induction ws generalizing index with
  | nil => simp [conformWords]
  | cons w ws ih =>
    simp only [conformWords, mem_append, mem_map, length_cons]
    rintro _ (⟨text, _, rfl⟩ | h)
    · omega
    · have := ih _ _ h
      omega

structure Recut (side side' : ConformedSide) : Prop where
  tokens : side.tokens = side'.tokens
  wordOfToken : side.wordOfToken = side'.wordOfToken
  compared : side.words.map FlattenedWord.compared = side'.words.map FlattenedWord.compared
  owned : side.wordOfToken.length = side.tokens.length
  owners : ∀ index ∈ side.wordOfToken, index < side.words.length
  distinct : (side.words.map FlattenedWord.place).Nodup
  distinct' : (side'.words.map FlattenedWord.place).Nodup

theorem recut_of {file file' : ChatFile M T} (h : comparedWords C file = comparedWords C file') :
    Recut (ConformedSide.of C D (ComparedDocument.of C file) normalization)
      (ConformedSide.of C D (ComparedDocument.of C file') normalization) where
  tokens := congrArg (List.map Prod.fst) (conformWords_congr C D normalization h 0)
  wordOfToken := congrArg (List.map Prod.snd) (conformWords_congr C D normalization h 0)
  compared := h
  owned := by simp [ConformedSide.of]
  owners := by
    intro index hindex
    obtain ⟨token, htoken, rfl⟩ := mem_map.mp hindex
    have := conformWords_owner C D normalization _ 0 token htoken
    simpa [ConformedSide.of] using this
  distinct := flattenSide_nodup C file
  distinct' := flattenSide_nodup C file'

variable {side side' : ConformedSide}

section Steps
variable (h : Recut side side')
include h

theorem Recut.length_words : side.words.length = side'.words.length := by
  simpa using congrArg List.length h.compared

theorem Recut.sameWord_index {index : ℕ} (hindex : index < side.words.length) :
    SameWord side.words side'.words side.words[index]! side'.words[index]! := by
  have hindex' : index < side'.words.length := h.length_words ▸ hindex
  exact ⟨index, by simp [getElem!_pos, hindex], by simp [getElem!_pos, hindex']⟩

theorem Recut.sameWord {token : ℕ} (htoken : token < side.tokens.length) :
    SameWord side.words side'.words (side.word token) (side'.word token) := by
  unfold ConformedSide.word
  rw [← h.wordOfToken]
  apply h.sameWord_index
  rw [getElem!_pos _ _ (by rw [h.owned]; exact htoken)]
  exact h.owners _ (getElem_mem _)

end Steps

inductive SameStep (ws ws' : List FlattenedWord) : AlignStep → AlignStep → Prop where
  | matched (key : String) {main main' : FlattenedWord} (gold : FlattenedWord)
      (h : SameWord ws ws' main main') :
      SameStep ws ws' (.matched key main gold) (.matched key main' gold)
  | insertion (key : String) {main main' : FlattenedWord} (site : InsertionSite FlattenedWord)
      (h : SameWord ws ws' main main') :
      SameStep ws ws' (.insertion key main site) (.insertion key main' site)
  | deletion (key : String) (gold : FlattenedWord) :
      SameStep ws ws' (.deletion key gold) (.deletion key gold)

theorem align_indices (payload reference : List String) : ∀ x ∈ align payload reference .caseInsensitive,
      (∀ p, x.payloadIdx? = some p → p < payload.length) ∧
      ∀ r, x.referenceIdx? = some r → r < reference.length := by
  have hscript := align_words_best (show MatchMode.caseInsensitive.Symmetric from trivial) payload
    reference
  intro x hx
  constructor
  · intro p hp
    have : p ∈ range payload.length := by
      rw [← hscript.payload_once]
      exact mem_filterMap.mpr ⟨x, hx, hp⟩
    exact mem_range.mp this
  · intro r hr
    have : r ∈ range reference.length := by
      rw [← hscript.reference_once]
      exact mem_filterMap.mpr ⟨x, hx, hr⟩
    exact mem_range.mp this

theorem alignSteps_recut (h : Recut side side') (gold : ConformedSide) {results : List AlignResult}
    (hresults : ∀ x ∈ results, ∀ p, x.payloadIdx? = some p → p < side.tokens.length)
    (consumed : Option ℕ) :
    Forall₂ (SameStep side.words side'.words) (alignSteps side gold consumed results)
      (alignSteps side' gold consumed results) := by
  induction results generalizing consumed with
  | nil => exact .nil
  | cons x results ih =>
    have hhead := hresults x mem_cons_self
    have htail := ih fun y hy => hresults y (mem_cons_of_mem _ hy)
    cases x with
    | matched key p r => exact .cons (.matched key _ (h.sameWord (hhead p rfl))) (htail _)
    | extraPayload key p => exact .cons (.insertion key _ (h.sameWord (hhead p rfl))) (htail _)
    | extraReference key r => exact .cons (.deletion key _) (htail _)

def LanguageScores.withUtterances (u : UtteranceLanguageAgreement) (s : LanguageScores) :
    LanguageScores :=
  { s with utterances := u }

def LanguageTally.withUtterances (u : UtteranceLanguageAgreement) (t : LanguageTally) :
    LanguageTally :=
  { t with scores := t.scores.withUtterances u }

def MetricAccumulator.withUtterances (u : UtteranceLanguageAgreement) (m : MetricAccumulator) :
    MetricAccumulator :=
  { m with languages := m.languages.withUtterances u }

variable (u : UtteranceLanguageAgreement)

theorem closeGap_withUtterances (t : LanguageTally) :
    (t.withUtterances u).closeGap = t.closeGap.withUtterances u := by
  have hcounts (f : LanguageErrorCounts → LanguageErrorCounts) (languages : List LanguageBucket)
      (s : LanguageScores) :
      languages.foldl (fun s language => s.changeCounts language f) (s.withUtterances u) =
        (languages.foldl (fun s language => s.changeCounts language f) s).withUtterances u :=
    foldl_hom (LanguageScores.withUtterances u) fun _ _ => rfl
  have hinsertions (pending : List PendingInsertion) (s : LanguageScores) :
      pending.foldl LanguageScores.chargeInsertion (s.withUtterances u) =
        (pending.foldl LanguageScores.chargeInsertion s).withUtterances u :=
    foldl_hom (LanguageScores.withUtterances u) fun _ p => by cases p <;> rfl
  simp only [LanguageTally.closeGap, LanguageTally.withUtterances, hcounts, hinsertions]

theorem matched_withUtterances (t : LanguageTally) (gold main : WordLanguage) :
    (t.withUtterances u).matched gold main = (t.matched gold main).withUtterances u := by
  simp only [LanguageTally.matched, closeGap_withUtterances]
  rfl

theorem record_withUtterances (m : MetricAccumulator) (word : ScoredWord) :
    (m.withUtterances u).record C word = (m.record C word).withUtterances u := by
  obtain ⟨token, evidence⟩ := word
  cases evidence with
  | matched gold main =>
    simp only [MetricAccumulator.record, MetricAccumulator.withUtterances, matched_withUtterances]
  | insertion attribution => cases attribution <;> rfl
  | deletion gold => rfl

theorem placeUtterance_withUtterances (main : List LanguagedUtterance)
    (placements : List GoldPlacement) (m : MetricAccumulator) (utterance : LanguagedUtterance) :
    (placeUtterance main placements m utterance).withUtterances u = m.withUtterances u := by
  unfold placeUtterance
  split <;> rfl

theorem placeUtterances_withUtterances (main utterances : List LanguagedUtterance)
    (placements : List GoldPlacement) (m : MetricAccumulator) :
    (utterances.foldl (placeUtterance main placements) m).withUtterances u = m.withUtterances u := by
  induction utterances generalizing m with
  | nil => rfl
  | cons utterance utterances ih =>
    rw [foldl_cons, ih, placeUtterance_withUtterances]

def SameMetrics (m m' : MetricAccumulator) : Prop := m.withUtterances {} = m'.withUtterances {}

theorem SameMetrics.record {m m' : MetricAccumulator} (h : SameMetrics m m') (word : ScoredWord) :
    SameMetrics (m.record C word) (m'.record C word) := by
  unfold SameMetrics at h ⊢
  rw [← record_withUtterances, ← record_withUtterances, h]

def SameMatch (ws ws' : List FlattenedWord) (m m' : GoldWordMatch) : Prop :=
  ∃ gold main main', SameWord ws ws' main main' ∧
    m = GoldWordMatch.of gold main ∧ m' = GoldWordMatch.of gold main'

structure SameRendering (ws ws' : List FlattenedWord) (r r' : Rendering) : Prop where
  metrics : SameMetrics r.metrics r'.metrics
  goldView : r.goldView = r'.goldView
  goldWordMatches : List.Forall₂ (SameMatch ws ws') r.goldWordMatches r'.goldWordMatches

theorem GoldWordMatch.of_eq_iff {gold main gold' main' : FlattenedWord} :
    GoldWordMatch.of gold main = GoldWordMatch.of gold' main' ↔
      gold.place = gold'.place ∧ main.place = main'.place := by
  simp [GoldWordMatch.of, FlattenedWord.place, and_assoc]

section Render
variable (hcompared : ws.map FlattenedWord.compared = ws'.map FlattenedWord.compared)
  (hws : (ws.map FlattenedWord.place).Nodup) (hws' : (ws'.map FlattenedWord.place).Nodup)

theorem getLast?_forall₂ {A B : Type} {R : A → B → Prop} {xs : List A} {ys : List B}
    (h : Forall₂ R xs ys) : (xs.getLast? = none ∧ ys.getLast? = none) ∨
      ∃ x y, R x y ∧ xs.getLast? = some x ∧ ys.getLast? = some y := by
  have hreverse : Forall₂ R xs.reverse ys.reverse := rel_reverse h
  rw [getLast?_eq_head?_reverse, getLast?_eq_head?_reverse]
  generalize xs.reverse = xs', ys.reverse = ys' at hreverse
  cases hreverse with
  | nil => exact .inl ⟨rfl, rfl⟩
  | cons hxy _ => exact .inr ⟨_, _, hxy, rfl, rfl⟩

include hws hws' in
theorem recordMatch_same {seen seen' : List GoldWordMatch} {gold main main' : FlattenedWord}
    (hseen : Forall₂ (SameMatch ws ws') seen seen') (h : SameWord ws ws' main main') :
    Forall₂ (SameMatch ws ws') (recordMatch seen (GoldWordMatch.of gold main))
      (recordMatch seen' (GoldWordMatch.of gold main')) := by
  have hlast : seen.getLast? = some (GoldWordMatch.of gold main) ↔
      seen'.getLast? = some (GoldWordMatch.of gold main') := by
    obtain ⟨hnone, hnone'⟩ | ⟨_, _, ⟨last, v, v', hv, rfl, rfl⟩, hlast, hlast'⟩ :=
      getLast?_forall₂ hseen
    · simp [hnone, hnone']
    · rw [hlast, hlast', Option.some.injEq, Option.some.injEq, GoldWordMatch.of_eq_iff,
        GoldWordMatch.of_eq_iff, hv.place_iff hws hws' h]
  unfold recordMatch
  by_cases hrecorded : seen.getLast? = some (GoldWordMatch.of gold main)
  · rw [if_pos hrecorded, if_pos (hlast.mp hrecorded)]
    exact hseen
  · rw [if_neg hrecorded, if_neg (hrecorded ∘ hlast.mpr)]
    exact rel_append hseen (.cons ⟨gold, main, main', h, rfl, rfl⟩ .nil)

include hcompared hws hws' in
theorem renderStep_same (goldPos : GoldPos) {r r' : Rendering} {step step' : AlignStep}
    (hr : SameRendering ws ws' r r') (hstep : SameStep ws ws' step step') :
    SameRendering ws ws' (renderStep C goldPos .everyMainWord r step)
      (renderStep C goldPos .everyMainWord r' step') := by
  cases hstep with
  | matched key gold h =>
    have hsame := h.compared_eq hcompared
    have hpos := congrArg ComparedWord.pos hsame
    have hlanguage := congrArg ComparedWord.language hsame
    simp only [FlattenedWord.compared] at hpos hlanguage
    constructor
    · simp only [renderStep, hpos, hlanguage]
      exact hr.metrics.record C _
    · simp only [renderStep, hpos, hr.goldView, ScoredWord.matched]
    · exact recordMatch_same hws hws' hr.goldWordMatches h
  | insertion key site h =>
    have hpos := congrArg ComparedWord.pos (h.compared_eq hcompared)
    simp only [FlattenedWord.compared] at hpos
    constructor
    · simp only [renderStep, InsertionScope.coverage, hpos]
      exact hr.metrics.record C _
    · simp only [renderStep, InsertionScope.coverage, hpos, hr.goldView]
    · exact hr.goldWordMatches
  | deletion key gold =>
    constructor
    · exact hr.metrics.record C _
    · simp only [renderStep, hr.goldView]
    · exact hr.goldWordMatches

include hcompared hws hws' in
theorem renderSteps_same (goldPos : GoldPos) {r r' : Rendering} {steps steps' : List AlignStep}
    (hr : SameRendering ws ws' r r') (hsteps : Forall₂ (SameStep ws ws') steps steps') :
    SameRendering ws ws' (steps.foldl (renderStep C goldPos .everyMainWord) r)
      (steps'.foldl (renderStep C goldPos .everyMainWord) r') := by
  induction hsteps generalizing r r' with
  | nil => exact hr
  | cons hstep _ ih => exact ih (renderStep_same C hcompared hws hws' goldPos hr hstep)

end Render

theorem renderUnaligned_same (h : Recut side side') {r r' : Rendering}
    (hr : SameRendering side.words side'.words r r') :
    SameRendering side.words side'.words (renderUnaligned C side r) (renderUnaligned C side' r') := by
  unfold renderUnaligned ConformedSide.tokensWithWords
  rw [foldl_map, foldl_map, ← h.tokens, ← h.wordOfToken]
  refine foldl_rel hr fun token htoken r r' hr => ?_
  obtain ⟨key, index⟩ := token
  have hindex := h.sameWord_index (h.owners index (of_mem_zip htoken).2)
  have hpos := congrArg ComparedWord.pos (hindex.compared_eq h.compared)
  simp only [FlattenedWord.compared] at hpos
  refine ⟨?_, hr.goldView, hr.goldWordMatches⟩
  show SameMetrics (r.metrics.record C _) (r'.metrics.record C _)
  rw [hpos]
  exact hr.metrics.record C _

theorem rendering_same (h : Recut side side') (gold : ConformedSide) :
    SameRendering side.words side'.words ((WholeFileAlignment.of side gold .complete).rendering C)
      ((WholeFileAlignment.of side' gold .complete).rendering C) := by
  unfold WholeFileAlignment.of
  by_cases hgold : gold.tokens.isEmpty
  · rw [if_pos hgold, if_pos hgold]
    exact renderUnaligned_same C h ⟨rfl, rfl, .nil⟩
  · rw [if_neg hgold, if_neg hgold, ← h.tokens]
    refine renderSteps_same C h.compared h.distinct h.distinct' _ ?_
      (alignSteps_recut h gold (fun x hx => (align_indices _ _ x hx).1) none)
    refine ⟨?_, rfl, .nil⟩
    -- the utterances were placed by different steps, and that is all
    simp only [SameMetrics, placeUtterances_withUtterances]

/-- The inputs of a comparison but the main view. -/
structure Scores where
  displacementEdits : ℕ
  posCounts : List (String × PosErrorCounts)
  byLanguage : List (LanguageBucket × LanguageErrorCounts)
  unattributedInsertions : ℕ
  words : LanguageConfusion
  switches : SwitchAgreement
  goldUtterances : List UtteranceComparison
  goldWords : List (ℕ × ℕ)

def ComparisonBundle.scores (b : ComparisonBundle) : Scores where
  displacementEdits := b.metrics.displacementEdits
  posCounts := b.metrics.posCounts
  byLanguage := b.metrics.languages.byLanguage
  unattributedInsertions := b.metrics.languages.unattributedInsertions
  words := b.metrics.languages.words
  switches := b.metrics.languages.switches
  goldUtterances := b.goldUtterances
  goldWords := b.goldWordMatches.map fun m => (m.goldUtteranceIndex, m.goldWordPosition)

theorem SameMetrics.finish {m m' : MetricAccumulator} (h : SameMetrics m m') :
    m.finish.displacementEdits = m'.finish.displacementEdits ∧ m.finish.posCounts = m'.finish.posCounts ∧
      m.finish.languages.withUtterances {} = m'.finish.languages.withUtterances {} := by
  have hsame : m.withUtterances {} = m'.withUtterances {} := h
  have hdisplacement : m.displacement = m'.displacement :=
    congrArg (fun a => a.displacement) hsame
  have hclosed : (m.languages.withUtterances {}).closeGap.scores =
      (m'.languages.withUtterances {}).closeGap.scores :=
    congrArg (fun a => a.languages.closeGap.scores) hsame
  rw [closeGap_withUtterances, closeGap_withUtterances] at hclosed
  exact ⟨congrArg DisplacementTally.finish hdisplacement, congrArg (fun a => a.posCounts) hsame,
    hclosed⟩

theorem SameRendering.goldWords {seen seen' : List GoldWordMatch}
    (h : Forall₂ (SameMatch ws ws') seen seen') :
    (seen.map fun m => (m.goldUtteranceIndex, m.goldWordPosition)) =
      seen'.map fun m => (m.goldUtteranceIndex, m.goldWordPosition) := by
  induction h with
  | nil => rfl
  | cons hhead _ ih =>
    obtain ⟨gold, main, main', _, rfl, rfl⟩ := hhead
    rw [map_cons, map_cons, ih]
    rfl

@[simp] theorem WholeFileAlignment.of_gold (main gold : ConformedSide) (coverage : GoldCoverage) :
    (WholeFileAlignment.of main gold coverage).gold = gold := by
  unfold WholeFileAlignment.of
  split <;> rfl

/-- Against a full reference, main documents with the same compared words score alike however cut. -/
theorem compare_recut (main main' gold : ChatFile M T)
    (h : comparedWords C main = comparedWords C main') :
    (compare C D main gold .complete).scores = (compare C D main' gold .complete).scores := by
  let goldSide := ConformedSide.of C D (ComparedDocument.of C gold) (WerNormalization.forDocument gold)
  have hrecut := recut_of C D (WerNormalization.forDocument gold) h
  have hsame := rendering_same C hrecut goldSide
  obtain ⟨hedits, hpos, hlanguages⟩ := hsame.metrics.finish
  have hgoldWords := SameRendering.goldWords hsame.goldWordMatches
  simp only [ComparisonBundle.scores, compare, WholeFileAlignment.render, WholeFileAlignment.of_gold,
    Scores.mk.injEq]
  refine ⟨hedits, hpos, ?_, ?_, ?_, ?_, ?_, hgoldWords⟩
  · exact congrArg (fun s => s.byLanguage) hlanguages
  · exact congrArg (fun s => s.unattributedInsertions) hlanguages
  · exact congrArg (fun s => s.words) hlanguages
  · exact congrArg (fun s => s.switches) hlanguages
  · rw [hsame.goldView]

/-- "you said that ." in one utterance and in two, against "you say that ." -/
theorem compare_recut_two_utterances :
    let whole := plainFile [(["you", "said", "that"], [])]
    let halves := plainFile [(["you", "said"], []), (["that"], [])]
    let gold := plainFile [(["you", "say", "that"], [])]
    comparedWords plainChatter whole = comparedWords plainChatter halves ∧
      (compare plainChatter noWordLists whole gold .complete).scores =
        (compare plainChatter noWordLists halves gold .complete).scores := by
  have hwords : comparedWords plainChatter (plainFile [(["you", "said", "that"], [])]) =
      comparedWords plainChatter (plainFile [(["you", "said"], []), (["that"], [])]) := by
    decide +kernel
  exact ⟨hwords, compare_recut plainChatter noWordLists _ _ _ hwords⟩

end Batchalign.Compare
