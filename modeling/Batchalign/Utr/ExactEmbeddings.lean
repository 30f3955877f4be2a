import Batchalign.Lib.Embedding
import Batchalign.DpAlign.CorrespondenceExact
import Batchalign.Utr.RegionPlan

/- The exact fast path of a monotonic region (`fa/utr.rs`, `fa/utr/search.rs`). Its two passes find the
   earliest and the latest embedding of the payload. Where they agree it admits what a completed
   correspondence admits. -/
namespace Batchalign.Utr
open Fa DpAlign Embedding Chain List

/-! ## The two passes -/

def CompleteEmbedding (words reference : List String) (f : List ℕ) : Prop :=
  IsEmbedding (fun word r => eqIgnoreAsciiCase word r = true) words reference f

def Subsequence (words reference : List String) : Prop :=
  List.SublistForall₂ (fun word r => eqIgnoreAsciiCase word r = true) words reference

theorem greedyForwardFrom_eq (words reference : List String) (k : ℕ) :
    greedyForwardFrom words reference k = greedy eqIgnoreAsciiCase words reference k := by
  induction reference generalizing words k with
  | nil => cases words <;> rfl
  | cons r reference ih =>
    cases words with
    | nil => rfl
    | cons word words =>
      unfold greedyForwardFrom greedy
      rw [ih words (k + 1), ih (word :: words) (k + 1)]

theorem greedyForwardMatchIndices_eq (words reference : List String) :
    greedyForwardMatchIndices words reference = greedy eqIgnoreAsciiCase words reference 0 :=
  greedyForwardFrom_eq words reference 0

theorem greedyReverseMatchIndices_eq (words reference : List String) :
    greedyReverseMatchIndices words reference = greedyReverse eqIgnoreAsciiCase words reference := by
  unfold greedyReverseMatchIndices greedyReverse
  rw [greedyForwardFrom_eq]
  rfl

variable {words reference : List String} {earliest latest f : List ℕ}

theorem passes_extreme (hearliest : greedyForwardMatchIndices words reference = some earliest)
    (hlatest : greedyReverseMatchIndices words reference = some latest) :
    CompleteEmbedding words reference earliest ∧ CompleteEmbedding words reference latest ∧
      ∀ f, CompleteEmbedding words reference f →
        Forall₂ (· ≤ ·) earliest f ∧ Forall₂ (· ≤ ·) f latest := by
  rw [greedyForwardMatchIndices_eq] at hearliest
  rw [greedyReverseMatchIndices_eq] at hlatest
  refine ⟨greedy_isEmbedding hearliest, greedyReverse_isEmbedding hlatest, ?_⟩
  intro f hf
  obtain ⟨a, b, ha, hb, hle, hge⟩ := IsEmbedding.between hf
  obtain rfl : earliest = a := Option.some.inj (hearliest.symm.trans ha)
  obtain rfl : latest = b := Option.some.inj (hlatest.symm.trans hb)
  exact ⟨hle, hge⟩

/-! ## The stream -/

structure UtrLexicalStream.Timed (stream : UtrLexicalStream) : Prop where
  positive : ∀ lexical ∈ stream, lexical.interval.startMs < lexical.interval.endMs
  onsets : stream.Pairwise fun a b => a.interval.startMs ≤ b.interval.startMs
  ends : stream.Pairwise fun a b => a.interval.endMs ≤ b.interval.endMs

theorem onsetOrderedFrom_spec (stream : UtrLexicalStream) : ∀ {previous : Option ℕ},
    onsetOrderedFrom previous stream = true →
      (∀ lexical ∈ stream, lexical.interval.startMs < lexical.interval.endMs ∧
        ∀ start ∈ previous, start ≤ lexical.interval.startMs) ∧
      stream.Pairwise fun a b => a.interval.startMs ≤ b.interval.startMs := by
  induction stream with
  | nil =>
    intro previous _
    exact ⟨fun lexical hl => absurd hl not_mem_nil, .nil⟩
  | cons word stream ih =>
    intro previous h
    unfold onsetOrderedFrom at h
    split_ifs at h with hbad
    obtain ⟨hfrom, hpairwise⟩ := ih h
    rw [Bool.or_eq_true, not_or, decide_eq_true_eq, not_le] at hbad
    have hprevious : ∀ start ∈ previous, start ≤ word.interval.startMs := by
      rintro start rfl
      exact Nat.not_lt.mp fun hlt => hbad.2 (decide_eq_true hlt)
    have hlater : ∀ lexical ∈ stream, word.interval.startMs ≤ lexical.interval.startMs := fun lexical hl =>
      (hfrom lexical hl).2 _ rfl
    refine ⟨?_, pairwise_cons.mpr ⟨hlater, hpairwise⟩⟩
    intro lexical hl
    rcases mem_cons.mp hl with rfl | hl
    · exact ⟨hbad.1, hprevious⟩
    · exact ⟨(hfrom lexical hl).1, fun start hs => (hprevious start hs).trans (hlater lexical hl)⟩

theorem endOrderedFrom_spec (stream : UtrLexicalStream) : ∀ {previous : Option ℕ},
    endOrderedFrom previous stream = true →
      (∀ lexical ∈ stream, ∀ finish ∈ previous, finish ≤ lexical.interval.endMs) ∧
      stream.Pairwise fun a b => a.interval.endMs ≤ b.interval.endMs := by
  induction stream with
  | nil =>
    intro previous _
    exact ⟨fun lexical hl => absurd hl not_mem_nil, .nil⟩
  | cons word stream ih =>
    intro previous h
    unfold endOrderedFrom at h
    split_ifs at h with hbad
    obtain ⟨hfrom, hpairwise⟩ := ih h
    have hprevious : ∀ finish ∈ previous, finish ≤ word.interval.endMs := by
      rintro finish rfl
      exact Nat.not_lt.mp fun hlt => hbad (decide_eq_true hlt)
    have hlater : ∀ lexical ∈ stream, word.interval.endMs ≤ lexical.interval.endMs := fun lexical hl =>
      hfrom lexical hl _ rfl
    refine ⟨?_, pairwise_cons.mpr ⟨hlater, hpairwise⟩⟩
    intro lexical hl finish hf
    rcases mem_cons.mp hl with rfl | hl
    · exact hprevious finish hf
    · exact (hprevious finish hf).trans (hlater lexical hl)

variable {stream : UtrLexicalStream}

theorem UtrLexicalStream.timed (h : stream.ordered = true) : stream.Timed := by
  unfold UtrLexicalStream.ordered at h
  obtain ⟨honset, hend⟩ := Bool.and_eq_true_iff.mp h
  obtain ⟨hfrom, hpairwise⟩ := onsetOrderedFrom_spec stream honset
  exact ⟨fun lexical hl => (hfrom lexical hl).1, hpairwise, (endOrderedFrom_spec stream hend).2⟩

theorem UtrLexicalStream.Timed.between (h : stream.Timed) {i j : ℕ}
    {a b : UtrLexicalWord} (ha : stream[i]? = some a) (hb : stream[j]? = some b) (hij : i ≤ j) :
    a.interval.startMs ≤ b.interval.startMs ∧ a.interval.endMs ≤ b.interval.endMs := by
  rcases hij.eq_or_lt with rfl | hlt
  · cases ha.symm.trans hb
    exact ⟨le_rfl, le_rfl⟩
  · obtain ⟨hi, rfl⟩ := List.getElem?_eq_some_iff.mp ha
    obtain ⟨hj, rfl⟩ := List.getElem?_eq_some_iff.mp hb
    exact ⟨pairwise_iff_getElem.mp h.onsets i j hi hj hlt, pairwise_iff_getElem.mp h.ends i j hi hj hlt⟩

/-! ## The envelopes -/

def FaSearchEnvelope.Contains (envelope : FaSearchEnvelope) (span : TimeSpan) : Prop :=
  match envelope with
  | .candidates _ startMs endMs _ => startMs ≤ span.startMs ∧ span.endMs ≤ endMs
  | .orderCorridor _ floor ceiling =>
    (match floor with
      | .precedingMeasured bound => bound.ms ≤ span.startMs
      | .fileStart | .markedOverlapUnbounded => True) ∧
    (match ceiling with
      | .followingMeasured bound => span.endMs ≤ bound.ms
      | .fileEnd | .followingOverlaps _ => True)

theorem le_of_forall₂ {f g : List ℕ} (h : Forall₂ (· ≤ ·) f g) {i s t : ℕ} (hs : f[i]? = some s)
    (ht : g[i]? = some t) : s ≤ t := by
  obtain ⟨hi, rfl⟩ := List.getElem?_eq_some_iff.mp hs
  obtain ⟨hj, rfl⟩ := List.getElem?_eq_some_iff.mp ht
  exact (forall₂_iff_get.mp h).2 i hi hj

theorem population_bounds {α : Type*} {payload : List α} {keep : α × ℕ → Bool} {x y : α} {first last : ℕ}
    (hfirst : (payload.zipIdx.filter keep).head? = some (x, first))
    (hlast : (payload.zipIdx.filter keep).getLast? = some (y, last)) {w : α} {p : ℕ} (hp : payload[p]? = some w)
    (hkeep : keep (w, p) = true) : first ≤ p ∧ p ≤ last := by
  have hmem : (w, p) ∈ payload.zipIdx.filter keep :=
    mem_filter.mpr ⟨mem_zipIdx_iff_getElem?.mpr hp, hkeep⟩
  have hsorted : (payload.zipIdx.filter keep).Pairwise fun a b => a.2 ≤ b.2 := by
    apply Pairwise.filter
    have hsnd : (payload.zipIdx.map Prod.snd).Pairwise (· ≤ ·) := by
      rw [zipIdx_map_snd]
      exact (pairwise_lt_range' ..).imp le_of_lt
    exact pairwise_map.mp hsnd
  obtain ⟨i, hi⟩ := mem_iff_getElem?.mp hmem
  constructor
  · rw [head?_eq_getElem?] at hfirst
    rcases Nat.eq_zero_or_pos i with rfl | hpos
    · rw [hfirst, Option.some.injEq, Prod.mk.injEq] at hi
      exact hi.2.le
    · obtain ⟨h0, hx⟩ := List.getElem?_eq_some_iff.mp hfirst
      obtain ⟨h1, hw⟩ := List.getElem?_eq_some_iff.mp hi
      have hle := pairwise_iff_getElem.mp hsorted 0 i h0 h1 hpos
      rw [hx, hw] at hle
      exact hle
  · rw [getLast?_eq_getElem?] at hlast
    obtain ⟨h0, hy⟩ := List.getElem?_eq_some_iff.mp hlast
    obtain ⟨h1, hw⟩ := List.getElem?_eq_some_iff.mp hi
    rcases (Nat.le_sub_one_of_lt h1).eq_or_lt with heq | hlt
    · subst heq
      rw [hy, Prod.mk.injEq] at hw
      exact hw.2.ge
    · have hle := pairwise_iff_getElem.mp hsorted i _ h1 h0 hlt
      rw [hy, hw] at hle
      exact hle

variable {complete : CompleteExactEmbeddings} {payload : List UtrPayloadWord}

theorem envelope_contains {utterance : ℕ}
    {info : UtrUtteranceInfo} {envelope : FaSearchEnvelope}
    (h : complete.envelope payload stream utterance info = some envelope) (hincreasing : f.Pairwise (· < ·))
    (hearliest : Forall₂ (· ≤ ·) complete.earliest f) (hlatest : Forall₂ (· ≤ ·) f complete.latest)
    {p r : ℕ} {word : UtrPayloadWord} {lexical : UtrLexicalWord} (hp : payload[p]? = some word)
    (hword : word.address.utteranceIndex = utterance)
    (hr : f[p]? = some r) (hl : stream[r]? = some lexical) : envelope.Contains lexical.interval := by
  unfold CompleteExactEmbeddings.envelope at h
  simp only at h
  split_ifs at h with hrefused
  have hordered : stream.ordered = true := by
    by_contra hno
    exact hrefused (by rw [Bool.eq_false_of_not_eq_true hno]; rfl)
  have htimed := UtrLexicalStream.timed hordered
  obtain ⟨⟨x, first⟩, hfirst, h⟩ := Option.bind_eq_some_iff.mp h
  obtain ⟨⟨y, last⟩, hlast, h⟩ := Option.bind_eq_some_iff.mp h
  obtain ⟨a, ha, h⟩ := Option.bind_eq_some_iff.mp h
  obtain ⟨b, hb, h⟩ := Option.bind_eq_some_iff.mp h
  obtain ⟨span, hspan, rfl⟩ := Option.map_eq_some_iff.mp h
  unfold UtrLexicalStream.intervalOf at hspan
  split_ifs at hspan
  obtain ⟨la, hla, hspan⟩ := Option.bind_eq_some_iff.mp hspan
  obtain ⟨lb, hlb, rfl⟩ := Option.map_eq_some_iff.mp hspan
  obtain ⟨hfirst_le, hle_last⟩ := population_bounds hfirst hlast hp (beq_iff_eq.mpr hword)
  -- the embedding's own positions at the utterance's first and last word
  have hmono : ∀ {i j s t : ℕ}, i ≤ j → f[i]? = some s → f[j]? = some t → s ≤ t := by
    intro i j s t hij hs ht
    rcases hij.eq_or_lt with rfl | hlt
    · exact (Option.some.inj (hs.symm.trans ht)).le
    · obtain ⟨hi, rfl⟩ := List.getElem?_eq_some_iff.mp hs
      obtain ⟨hj, rfl⟩ := List.getElem?_eq_some_iff.mp ht
      exact (pairwise_iff_getElem.mp hincreasing i j hi hj hlt).le
  have hat : ∀ {i s : ℕ} {l : List ℕ}, l.length = f.length → l[i]? = some s → ∃ t, f[i]? = some t := by
    intro i s l hlength hs
    obtain ⟨hi, _⟩ := List.getElem?_eq_some_iff.mp hs
    exact ⟨_, getElem?_eq_getElem (hlength ▸ hi)⟩
  obtain ⟨s, hs⟩ := hat hearliest.length_eq ha
  obtain ⟨t, ht⟩ := hat hlatest.length_eq.symm hb
  have has : a ≤ r := (le_of_forall₂ hearliest ha hs).trans (hmono hfirst_le hs hr)
  have hrb : r ≤ b := (hmono hle_last hr ht).trans (le_of_forall₂ hlatest ht hb)
  exact ⟨(htimed.between hla hl has).1, (htimed.between hl hlb hrb).2⟩

/-! ## The unique embedding -/

theorem matchRel_caseInsensitive (words reference : List String) (p r : ℕ) :
    matchRel .caseInsensitive words reference p r = true ↔
      ∃ word other, words[p]? = some word ∧ reference[r]? = some other ∧ eqIgnoreAsciiCase word other = true := by
  unfold matchRel
  cases words[p]? with
  | none =>
    constructor
    · intro h
      cases h
    · rintro ⟨_, _, hw, _⟩
      cases hw
  | some word =>
    cases reference[r]? with
    | none =>
      constructor
      · intro h
        cases h
      · rintro ⟨_, _, _, ho, _⟩
        cases ho
    | some other =>
      constructor
      · intro h
        exact ⟨word, other, rfl, rfl, h⟩
      · rintro ⟨_, _, hw, ho, h⟩
        cases hw
        cases ho
        exact h

theorem observe_unique {pairs : List (ℕ × ℕ)} (hf : CompleteEmbedding words reference f)
    (hunique : ∀ g, CompleteEmbedding words reference g → g = f)
    (h : CorrespondenceAdmission.observe words reference .caseInsensitive = .complete pairs) :
    pairs = (range words.length).zip f := by
  obtain ⟨hincreasing, hmem⟩ := admitControlled_common h
  apply eq_of_increasing hincreasing (pairwise_before_zip hf.increasing words.length)
  intro q
  calc q ∈ pairs ↔ Common (matchRel .caseInsensitive words reference) words.length reference.length q := hmem q
    _ ↔ q ∈ (range words.length).zip f :=
      Embedding.common_iff (matchRel_caseInsensitive words reference) hf hunique q

theorem zip_eq_filterMap {α β : Type*} (xs : List α) (ys : List β) : xs.zip ys =
    ((range xs.length).zip ys).filterMap fun q => xs[q.1]?.map fun x => (x, q.2) := by
  induction xs generalizing ys with
  | nil => rfl
  | cons x xs ih =>
    cases ys with
    | nil => rw [zip_nil_right, zip_nil_right, filterMap_nil]
    | cons y ys =>
      rw [length_cons, range_succ_eq_map, zip_cons_cons, zip_cons_cons,
        zip_map_left, ih ys, filterMap_cons, filterMap_map]
      rfl

theorem uniqueEmbeddingMatches_eq_commonMatches (similarityMillionths : String → String → ℕ)
    (stream : UtrLexicalStream) (payload : List UtrPayloadWord) (f : List ℕ) :
    uniqueEmbeddingMatches similarityMillionths stream payload f =
      commonMatches similarityMillionths stream ((range payload.length).zip f) payload := by
  unfold uniqueEmbeddingMatches commonMatches
  rw [zip_eq_filterMap payload f, filterMap_filterMap]
  congr 1
  funext q
  rw [Option.bind_map]
  rfl

theorem uniqueEmbedding_eq_some {mode : MatchMode}
    (h : uniqueEmbedding payload stream mode = some complete) :
    mode = .caseInsensitive ∧ complete.earliest = complete.latest ∧
      greedyForwardMatchIndices (payload.map UtrPayloadWord.text) stream.texts = some complete.earliest ∧
      greedyReverseMatchIndices (payload.map UtrPayloadWord.text) stream.texts = some complete.latest := by
  obtain ⟨hobserved, hagree⟩ := Option.filter_eq_some_iff.mp h
  cases mode with
  | exact => cases hobserved
  | fuzzy policy => cases hobserved
  | caseInsensitive =>
    unfold embeddingsOf CompleteExactEmbeddings.observe at hobserved
    split_ifs at hobserved
    obtain ⟨earliest, hearliest, hobserved⟩ := Option.bind_eq_some_iff.mp hobserved
    obtain ⟨latest, hlatest, rfl⟩ := Option.map_eq_some_iff.mp hobserved
    exact ⟨rfl, beq_iff_eq.mp hagree, hearliest, hlatest⟩

/-- The passes succeed on exactly the subsequences; every embedding lies between them, and they agree exactly
  when there is one; then the fast path admits what a completed correspondence does. -/
theorem exactEmbeddings_sound (env : SearchEnv) (payload : List UtrPayloadWord) (stream : UtrLexicalStream) :
    ((greedyForwardMatchIndices (payload.map UtrPayloadWord.text) stream.texts).isSome ↔
      Subsequence (payload.map UtrPayloadWord.text) stream.texts) ∧
    ((greedyReverseMatchIndices (payload.map UtrPayloadWord.text) stream.texts).isSome ↔
      Subsequence (payload.map UtrPayloadWord.text) stream.texts) ∧ (∀ earliest latest,
      greedyForwardMatchIndices (payload.map UtrPayloadWord.text) stream.texts = some earliest →
      greedyReverseMatchIndices (payload.map UtrPayloadWord.text) stream.texts = some latest →
      (CompleteEmbedding (payload.map UtrPayloadWord.text) stream.texts earliest ∧
        CompleteEmbedding (payload.map UtrPayloadWord.text) stream.texts latest ∧
        ∀ f, CompleteEmbedding (payload.map UtrPayloadWord.text) stream.texts f →
          List.Forall₂ (· ≤ ·) earliest f ∧ List.Forall₂ (· ≤ ·) f latest) ∧
      (∀ utterance info envelope,
        CompleteExactEmbeddings.envelope ⟨earliest, latest⟩ payload stream utterance info = some envelope →
        ∀ f, CompleteEmbedding (payload.map UtrPayloadWord.text) stream.texts f →
        ∀ (p r : ℕ) (word : UtrPayloadWord) (lexical : UtrLexicalWord), payload[p]? = some word →
          word.address.utteranceIndex = utterance → f[p]? = some r → stream[r]? = some lexical → envelope.Contains lexical.interval) ∧
      (earliest = latest ↔ ∃! f, CompleteEmbedding (payload.map UtrPayloadWord.text) stream.texts f)) ∧
    ∀ span mode complete, uniqueEmbedding payload stream mode = some complete →
      ∀ admitted, commonProof env span payload stream mode = .complete admitted →
        (uniqueSelection env payload stream complete).admission = .complete admitted := by
  refine ⟨?_, ?_, ?_, ?_⟩
  · rw [greedyForwardMatchIndices_eq]
    exact greedy_isSome_iff
  · rw [greedyReverseMatchIndices_eq]
    exact greedyReverse_isSome_iff
  · intro earliest latest hearliest hlatest
    have hextreme := passes_extreme hearliest hlatest
    refine ⟨hextreme, ?_, ?_⟩
    · intro utterance info envelope henvelope f hf p r word lexical hp hword hr hl
      obtain ⟨hle, hge⟩ := hextreme.2.2 f hf
      exact envelope_contains henvelope hf.increasing hle hge hp hword hr hl
    · rw [greedyForwardMatchIndices_eq] at hearliest
      rw [greedyReverseMatchIndices_eq] at hlatest
      exact earliest_eq_latest_iff hearliest hlatest
  · intro span mode complete hunique admitted hproof
    obtain ⟨rfl, hagree, hearliest, hlatest⟩ := uniqueEmbedding_eq_some hunique
    obtain ⟨hembedding, _, hbetween⟩ := passes_extreme hearliest hlatest
    unfold commonProof at hproof
    split at hproof
    · next pairs hobserved =>
      have hpairs := observe_unique hembedding (fun g hg => by
        obtain ⟨hle, hge⟩ := hbetween g hg
        rw [← hagree] at hge
        exact eq_of_forall₂_le hge hle) hobserved
      rw [← hproof, hpairs, length_map, ← uniqueEmbeddingMatches_eq_commonMatches]
      rfl
    · cases hproof

def abPayload : List UtrPayloadWord := [⟨"a", ⟨0, 0, ⟨0, 0, 1⟩⟩⟩, ⟨"b", ⟨0, 1, ⟨1, 0, 1⟩⟩⟩]

def axbStream : UtrLexicalStream :=
  [⟨"a", "a", ⟨0, 0⟩, ⟨0, 100⟩, 1⟩, ⟨"x", "x", ⟨1, 0⟩, ⟨100, 200⟩, 1⟩, ⟨"b", "b", ⟨2, 0⟩, ⟨200, 300⟩, 1⟩]

def abInfo : UtrUtteranceInfo where
  units := ⟨["a", "b"], [("a", ⟨0, 0, 1⟩), ("b", ⟨1, 0, 1⟩)]⟩
  retainedTiming := none
  hasLazyOverlap := false
  hasCaOverlap := false
  overlapOnsetFraction := none
  speaker := "CHI"
  presence := .inRecording
  bottomIndices := []
  topOnsets := []

/-- The envelope holds both words, and the one embedding is the one correspondence. -/
theorem exactEmbeddings_sound_ab :
    FaSearchEnvelope.Contains (.candidates ["a", "b"] 0 300 .document) ⟨200, 300⟩ ∧
      (∃! f, CompleteEmbedding (abPayload.map UtrPayloadWord.text) axbStream.texts f) ∧
      (uniqueSelection plainSearch abPayload axbStream ⟨[0, 2], [0, 2]⟩).admission =
        commonProof plainSearch ⟨0, 0, .streamEdge, .streamEdge⟩ abPayload axbStream .caseInsensitive := by
  obtain ⟨_, _, hpasses, hadmitted⟩ := exactEmbeddings_sound plainSearch abPayload axbStream
  have hearliest : greedyForwardMatchIndices (abPayload.map UtrPayloadWord.text) axbStream.texts = some [0, 2] := by
    decide +kernel
  have hlatest : greedyReverseMatchIndices (abPayload.map UtrPayloadWord.text) axbStream.texts = some [0, 2] := by
    decide +kernel
  obtain ⟨⟨hembedding, _, _⟩, henvelope, hunique⟩ := hpasses [0, 2] [0, 2] hearliest hlatest
  have hab : CompleteExactEmbeddings.envelope ⟨[0, 2], [0, 2]⟩ abPayload axbStream 0 abInfo =
      some (.candidates ["a", "b"] 0 300 .document) := by
    decide +kernel
  have hcontains := henvelope 0 abInfo _ hab [0, 2] hembedding 1 2 ⟨"b", ⟨0, 1, ⟨1, 0, 1⟩⟩⟩
    ⟨"b", "b", ⟨2, 0⟩, ⟨200, 300⟩, 1⟩ rfl rfl rfl rfl
  have htaken : uniqueEmbedding abPayload axbStream .caseInsensitive = some ⟨[0, 2], [0, 2]⟩ := by
    unfold uniqueEmbedding embeddingsOf CompleteExactEmbeddings.observe
    rw [hearliest, hlatest]
    rfl
  have hobserved : CorrespondenceAdmission.observe (abPayload.map UtrPayloadWord.text) axbStream.texts
      .caseInsensitive = .complete [(0, 0), (1, 2)] := by
    decide +kernel
  have hproof : commonProof plainSearch ⟨0, 0, .streamEdge, .streamEdge⟩ abPayload axbStream .caseInsensitive =
      .complete (commonMatches plainSearch.similarityMillionths axbStream [(0, 0), (1, 2)] abPayload) := by
    unfold commonProof
    rw [hobserved]
  exact ⟨hcontains, hunique.mp rfl, (hadmitted _ .caseInsensitive _ htaken _ hproof).trans hproof.symm⟩

/-! ## A budget the fast path does not have -/

section Repeated
variable {n : ℕ}

def repeatedPayload (n : ℕ) : List UtrPayloadWord := (List.range n).map fun i => ⟨"a", ⟨0, i, ⟨i, 0, 1⟩⟩⟩

def repeatedStream (n : ℕ) : UtrLexicalStream := (List.range n).map fun i => ⟨"a", "a", ⟨i, 0⟩, ⟨i, i + 1⟩, 1⟩

theorem repeatedPayload_texts (n : ℕ) : (repeatedPayload n).map UtrPayloadWord.text = replicate n "a" := by
  unfold repeatedPayload
  rw [map_map, eq_replicate_iff]
  refine ⟨by rw [length_map, length_range], ?_⟩
  intro text htext
  obtain ⟨_, _, rfl⟩ := mem_map.mp htext
  rfl

theorem repeatedStream_texts (n : ℕ) : (repeatedStream n).texts = replicate n "a" := by
  unfold UtrLexicalStream.texts repeatedStream
  rw [map_map, eq_replicate_iff]
  refine ⟨by rw [length_map, length_range], ?_⟩
  intro text htext
  obtain ⟨_, _, rfl⟩ := mem_map.mp htext
  rfl

theorem embedding_replicate_iff {f : List ℕ} :
    CompleteEmbedding (replicate n "a") (replicate n "a") f ↔ f = range n := by
  constructor
  · intro h
    apply eq_range h.increasing
    · intro i hi
      have hlt := h.lt hi
      rwa [length_replicate] at hlt
    · rw [h.length, length_replicate]
  · rintro rfl
    refine ⟨by rw [length_range, length_replicate], pairwise_lt_range, ?_⟩
    intro i word r hword hr
    obtain ⟨hi, hri⟩ := List.getElem?_eq_some_iff.mp hr
    rw [getElem_range] at hri
    subst hri
    exact ⟨word, hword, beq_self_eq_true _⟩

theorem observe_replicate (hn : 0 < n) :
    CompleteExactEmbeddings.observe (replicate n "a") (replicate n "a") = some ⟨range n, range n⟩ := by
  obtain ⟨a, b, ha, hb, _⟩ := IsEmbedding.between (embedding_replicate_iff.mpr (rfl : range n = range n))
  obtain rfl := embedding_replicate_iff.mp (greedy_isEmbedding ha)
  obtain rfl := embedding_replicate_iff.mp (greedyReverse_isEmbedding hb)
  unfold CompleteExactEmbeddings.observe
  rw [if_neg (by rw [replicate_eq_nil_iff]; exact hn.ne'), greedyForwardMatchIndices_eq,
    greedyReverseMatchIndices_eq, ha, hb]
  rfl

theorem mem_uniqueEmbeddingMatches_repeated {i : ℕ} (hi : i < n) :
    (⟨⟨⟨0, i, ⟨i, 0, 1⟩⟩, ⟨i, 0⟩, "a", "a", .exact⟩, 1, ⟨i, i + 1⟩⟩ : AdmittedUtrWordMatch) ∈
      uniqueEmbeddingMatches (fun _ _ => 0) (repeatedStream n) (repeatedPayload n) (range n) := by
  have hrange : (range n)[i]? = some i := getElem?_range hi
  have hword : (repeatedPayload n)[i]? = some ⟨"a", ⟨0, i, ⟨i, 0, 1⟩⟩⟩ := by
    unfold repeatedPayload
    rw [getElem?_map, hrange]
    rfl
  have hlexical : (repeatedStream n)[i]? = some ⟨"a", "a", ⟨i, 0⟩, ⟨i, i + 1⟩, 1⟩ := by
    unfold repeatedStream
    rw [getElem?_map, hrange]
    rfl
  apply mem_filterMap.mpr
  refine ⟨(⟨"a", ⟨0, i, ⟨i, 0, 1⟩⟩⟩, i), mem_of_getElem? (getElem?_zip_eq_some.mpr ⟨hword, hrange⟩), ?_⟩
  show admittedWord (fun _ _ => 0) (repeatedStream n) i ⟨0, i, ⟨i, 0, 1⟩⟩ "a" = _
  unfold admittedWord matchedWord
  rw [hlexical]
  rfl

/-- A word said 140000 times: the fast path admits all, the correspondence is refused its budget. -/
theorem uniqueEmbedding_without_budget :
    uniqueEmbedding (repeatedPayload 140000) (repeatedStream 140000) .caseInsensitive =
        some ⟨List.range 140000, List.range 140000⟩ ∧
      (⟨⟨⟨0, 0, ⟨0, 0, 1⟩⟩, ⟨0, 0⟩, "a", "a", .exact⟩, 1, ⟨0, 1⟩⟩ : AdmittedUtrWordMatch) ∈
        uniqueEmbeddingMatches (fun _ _ => 0) (repeatedStream 140000) (repeatedPayload 140000)
          (List.range 140000) ∧
      CorrespondenceAdmission.observe ((repeatedPayload 140000).map UtrPayloadWord.text)
        (repeatedStream 140000).texts .caseInsensitive = .budgetExhausted ⟨maxEdges⟩ := by
  refine ⟨?_, ?_, ?_⟩
  · unfold uniqueEmbedding embeddingsOf
    rw [repeatedPayload_texts, repeatedStream_texts, observe_replicate (by omega)]
    exact Option.filter_some_pos (beq_self_eq_true _)
  · exact mem_uniqueEmbeddingMatches_repeated (by omega)
  · rw [repeatedPayload_texts, repeatedStream_texts]
    exact observe_replicate_refused (by omega)

end Repeated

end Batchalign.Utr
