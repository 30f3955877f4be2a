import Batchalign.Utr.ExactEmbeddings
import Batchalign.Utr.GlobalPlan

/- The windows of partly proved utterances (`fa/utr/interior.rs`). A bound is the extreme mark on its
   side (`Extreme`). What a longest chain gives a later utterance comes after a proved pair; only a
   retained bullet can cut such a token off. -/
namespace Batchalign.Utr
open Fa DpAlign Chain Polled List

/-! ## The extreme mark -/

section Extreme
variable {le : ℕ → ℕ → Prop} {marks : List ℕ} {bound : Option MeasuredBound} {put : Option MeasuredBound → ℕ → Option MeasuredBound}

structure Extreme (le : ℕ → ℕ → Prop) (marks : List ℕ) (bound : Option MeasuredBound) : Prop where
  attained : ∀ b ∈ bound, b.ms ∈ marks
  extreme : ∀ ms ∈ marks, ∃ b ∈ bound, le ms b.ms

def Keeps (le : ℕ → ℕ → Prop) (put : Option MeasuredBound → ℕ → Option MeasuredBound) : Prop :=
  ∀ bound ms, ∃ next, put bound ms = some next ∧ (next.ms = ms ∨ ∃ b ∈ bound, next.ms = b.ms) ∧ le ms next.ms ∧
    ∀ b ∈ bound, le b.ms next.ms

theorem Extreme.nil : Extreme le [] none := ⟨fun b hb => absurd hb (Option.not_mem_none b), fun _ h => absurd h not_mem_nil⟩

theorem Extreme.of_mem_iff {marks' : List ℕ} (h : Extreme le marks bound) (hiff : ∀ ms, ms ∈ marks ↔ ms ∈ marks') :
    Extreme le marks' bound :=
  ⟨fun b hb => (hiff _).mp (h.attained b hb), fun ms hms => h.extreme ms ((hiff ms).mpr hms)⟩

theorem Extreme.step (hput : Keeps le put) (htrans : ∀ a b c, le a b → le b c → le a c) (h : Extreme le marks bound)
    (ms : ℕ) : Extreme le (marks ++ [ms]) (put bound ms) := by
  obtain ⟨next, hnext, hfrom, hms, hold⟩ := hput bound ms
  rw [hnext]
  constructor
  · intro b hb
    cases hb
    rcases hfrom with heq | ⟨old, hold', heq⟩
    · rw [heq]
      exact mem_append_right _ (mem_singleton.mpr rfl)
    · rw [heq]
      exact mem_append_left _ (h.attained old hold')
  · intro mark hmark
    rcases mem_append.mp hmark with hmark | hmark
    · obtain ⟨old, hold', hle⟩ := h.extreme mark hmark
      exact ⟨next, rfl, htrans _ _ _ hle (hold old hold')⟩
    · rw [mem_singleton.mp hmark]
      exact ⟨next, rfl, hms⟩

theorem Extreme.foldl (hput : Keeps le put) (htrans : ∀ a b c, le a b → le b c → le a c) (more : List ℕ) :
    ∀ {marks : List ℕ} {bound : Option MeasuredBound}, Extreme le marks bound →
      Extreme le (marks ++ more) (more.foldl put bound) := by
  induction more with
  | nil =>
    intro marks bound h
    rw [append_nil]
    exact h
  | cons ms more ih =>
    intro marks bound h
    have hnext := ih (h.step hput htrans ms)
    rw [append_assoc] at hnext
    exact hnext

theorem Keeps.of_choice {mark : ℕ → MeasuredBound} (htotal : ∀ a b, le a b ∨ le b a) (hmark : ∀ ms, (mark ms).ms = ms)
    (hnone : ∀ ms, put none ms = some (mark ms))
    (hsome : ∀ current ms, put (some current) ms = some current ∧ le ms current.ms ∨
      put (some current) ms = some (mark ms) ∧ ¬ le ms current.ms) : Keeps le put := by
  have hrefl : ∀ ms, le ms ms := fun ms => (htotal ms ms).elim id id
  intro bound ms
  cases bound with
  | none =>
    refine ⟨mark ms, hnone ms, .inl (hmark ms), ?_, fun b hb => absurd hb (Option.not_mem_none b)⟩
    rw [hmark]
    exact hrefl ms
  | some current =>
    rcases hsome current ms with ⟨hput, hle⟩ | ⟨hput, hle⟩
    · refine ⟨current, hput, .inr ⟨current, rfl, rfl⟩, hle, ?_⟩
      intro b hb
      cases hb
      exact hrefl _
    · refine ⟨mark ms, hput, .inl (hmark ms), ?_, ?_⟩
      · rw [hmark]
        exact hrefl ms
      · intro b hb
        cases hb
        rw [hmark]
        exact (htotal ms current.ms).resolve_left hle

end Extreme

theorem raiseFloor_keeps (ordinal : ℕ) : Keeps (· ≤ ·) (raiseFloor ordinal) := by
  apply Keeps.of_choice Nat.le_total (fun _ => rfl) (fun _ => rfl)
  intro current ms
  unfold raiseFloor MeasuredBound.later
  dsimp
  split_ifs with hle
  · exact .inl ⟨rfl, hle⟩
  · exact .inr ⟨rfl, hle⟩

theorem lowerCeiling_keeps (ordinal : ℕ) : Keeps (· ≥ ·) (lowerCeiling ordinal) := by
  apply Keeps.of_choice (fun a b => Nat.le_total b a) (fun _ => rfl) (fun _ => rfl)
  intro current ms
  unfold lowerCeiling MeasuredBound.earlier
  dsimp
  split_ifs with hle
  · exact .inl ⟨rfl, hle⟩
  · exact .inr ⟨rfl, hle⟩

/-! ## Floors and ceilings -/

def floorMarks (planned : PlannedUtterance) : List ℕ :=
  ((boundingBullet planned.info).map TimeSpan.endMs).toList ++ planned.evidence.admitted.map fun m => m.timing.startMs

def ceilingMarks (planned : PlannedUtterance) : List ℕ :=
  ((boundingBullet planned.info).map TimeSpan.startMs).toList ++ planned.evidence.admitted.map fun m => m.timing.endMs

theorem interiorFloors_extreme (utterances : List PlannedUtterance) :
    ∀ {k : ℕ} {marks : List ℕ} {floor : Option MeasuredBound}, Extreme (· ≤ ·) marks floor →
      ∀ {i : ℕ} {bound : Option MeasuredBound}, (interiorFloors k floor utterances)[i]? = some bound →
        Extreme (· ≤ ·) (marks ++ (utterances.take i).flatMap floorMarks) bound := by
  induction utterances with
  | nil =>
    intro k marks floor _ i bound hi
    cases hi
  | cons planned rest ih =>
    intro k marks floor h i bound hi
    cases i with
    | zero =>
      cases hi
      rw [take_zero, flatMap_nil, append_nil]
      exact h
    | succ i =>
      have hrest := ih (h.foldl (raiseFloor_keeps k) (fun _ _ _ => le_trans) (floorMarks planned)) hi
      rw [append_assoc] at hrest
      exact hrest

theorem interiorCeilings_extreme (utterances : List PlannedUtterance) : ∀ {k : ℕ},
    Extreme (· ≥ ·) (utterances.flatMap ceilingMarks) (interiorCeilings k utterances).2 ∧
      ∀ {i : ℕ} {bound : Option MeasuredBound}, (interiorCeilings k utterances).1[i]? = some bound →
        Extreme (· ≥ ·) ((utterances.drop (i + 1)).flatMap ceilingMarks) bound := by
  induction utterances with
  | nil =>
    refine ⟨Extreme.nil, ?_⟩
    intro i bound hi
    cases hi
  | cons planned rest ih =>
    intro k
    obtain ⟨hrest, hat⟩ := @ih (k + 1)
    constructor
    · apply (hrest.foldl (lowerCeiling_keeps k) (fun _ _ _ hab hbc => le_trans hbc hab) (ceilingMarks planned)).of_mem_iff
      intro ms
      rw [flatMap_cons, mem_append, mem_append]
      exact or_comm
    · intro i bound hi
      cases i with
      | zero =>
        cases hi
        exact hrest
      | succ i => exact hat hi

section Marks
variable {α β : Type} {f : α → List β} {l : List α} {i : ℕ} {b : β}

theorem mem_flatMap_take : b ∈ (l.take i).flatMap f ↔ ∃ j a, j < i ∧ l[j]? = some a ∧ b ∈ f a := by
  rw [mem_flatMap]
  constructor
  · rintro ⟨a, ha, hb⟩
    obtain ⟨j, hj⟩ := mem_iff_getElem?.mp ha
    rw [getElem?_take] at hj
    split_ifs at hj with hlt
    exact ⟨j, a, hlt, hj, hb⟩
  · rintro ⟨j, a, hlt, hj, hb⟩
    refine ⟨a, mem_of_getElem? (i := j) ?_, hb⟩
    rw [getElem?_take, if_pos hlt, hj]

theorem mem_flatMap_drop : b ∈ (l.drop (i + 1)).flatMap f ↔ ∃ j a, i < j ∧ l[j]? = some a ∧ b ∈ f a := by
  rw [mem_flatMap]
  constructor
  · rintro ⟨a, ha, hb⟩
    obtain ⟨j, hj⟩ := mem_iff_getElem?.mp ha
    rw [getElem?_drop] at hj
    exact ⟨i + 1 + j, a, by omega, hj, hb⟩
  · rintro ⟨j, a, hlt, hj, hb⟩
    refine ⟨a, mem_of_getElem? (i := j - (i + 1)) ?_, hb⟩
    rw [getElem?_drop, show i + 1 + (j - (i + 1)) = j by omega, hj]

end Marks

section Edges
variable {utterances : List PlannedUtterance} {i t : ℕ} {bound : MeasuredBound}

theorem Extreme.edge_iff {le : ℕ → ℕ → Prop} {marks : List ℕ} {edge : TimeSpan → ℕ} {token : AdmittedUtrWordMatch → ℕ}
    {side : ℕ → Prop} (htrans : ∀ a b c, le a b → le b c → le a c) (h : Extreme le marks (some bound))
    (hmarks : ∀ ms, ms ∈ marks ↔ ∃ j planned, side j ∧ utterances[j]? = some planned ∧
      ms ∈ ((boundingBullet planned.info).map edge).toList ++ planned.evidence.admitted.map token)
    (hproved : ∀ j planned, side j → utterances[j]? = some planned →
      ∀ m ∈ planned.evidence.admitted, le (token m) t) :
    le bound.ms t ↔ ∀ j planned, utterances[j]? = some planned →
      ∀ bullet, boundingBullet planned.info = some bullet → side j → le (edge bullet) t := by
  constructor
  · intro hle j planned hj bullet hbullet hside
    have hmark : edge bullet ∈ marks := by
      apply (hmarks _).mpr
      refine ⟨j, planned, hside, hj, ?_⟩
      rw [hbullet]
      exact mem_cons_self
    obtain ⟨b, hb, hms⟩ := h.extreme _ hmark
    cases hb
    exact htrans _ _ _ hms hle
  · intro hbullets
    obtain ⟨j, planned, hside, hj, hmark⟩ := (hmarks _).mp (h.attained bound rfl)
    rcases mem_append.mp hmark with hmark | hmark
    · obtain ⟨bullet, hbullet, heq⟩ := Option.map_eq_some_iff.mp (Option.mem_toList.mp hmark)
      rw [← heq]
      exact hbullets j planned hj bullet hbullet hside
    · obtain ⟨m, hm, heq⟩ := mem_map.mp hmark
      rw [← heq]
      exact hproved j planned hside hj m hm

theorem floor_le_iff (h : Extreme (· ≤ ·) ((utterances.take i).flatMap floorMarks) (some bound))
    (hproved : ∀ j planned, j < i → utterances[j]? = some planned →
      ∀ m ∈ planned.evidence.admitted, m.timing.startMs ≤ t) :
    bound.ms ≤ t ↔ ∀ j planned, utterances[j]? = some planned →
      ∀ bullet, boundingBullet planned.info = some bullet → j < i → bullet.endMs ≤ t :=
  h.edge_iff (fun _ _ _ => le_trans) (fun _ => mem_flatMap_take) hproved

theorem le_ceiling_iff (h : Extreme (· ≥ ·) ((utterances.drop (i + 1)).flatMap ceilingMarks) (some bound))
    (hproved : ∀ j planned, i < j → utterances[j]? = some planned →
      ∀ m ∈ planned.evidence.admitted, t ≤ m.timing.endMs) :
    t ≤ bound.ms ↔ ∀ j planned, utterances[j]? = some planned →
      ∀ bullet, boundingBullet planned.info = some bullet → i < j → t ≤ bullet.startMs :=
  @Extreme.edge_iff _ t bound (· ≥ ·) _ TimeSpan.startMs (fun m => m.timing.endMs) (i < ·)
    (fun _ _ _ hab hbc => le_trans hbc hab) h (fun _ => mem_flatMap_drop) hproved

end Edges

/-! ## The corridor -/

theorem getElem?_boundInteriorOnlySearches {plan : LocalRegionPlan} {stream : UtrLexicalStream}
    (hordered : stream.ordered = true) {i : ℕ} {bounded : PlannedUtterance}
    (h : (boundInteriorOnlySearches plan stream).utterances[i]? = some bounded) :
    ∃ planned floor ceiling, plan.utterances[i]? = some planned ∧
      bounded = { planned with envelope := interiorCorridor planned floor ceiling } ∧
      Extreme (· ≤ ·) ((plan.utterances.take i).flatMap floorMarks) floor ∧
      Extreme (· ≥ ·) ((plan.utterances.drop (i + 1)).flatMap ceilingMarks) ceiling := by
  unfold boundInteriorOnlySearches at h
  rw [if_pos hordered, getElem?_map] at h
  obtain ⟨⟨planned, floor, ceiling⟩, hzip, rfl⟩ := Option.map_eq_some_iff.mp h
  obtain ⟨hplanned, hbounds⟩ := getElem?_zip_eq_some.mp hzip
  obtain ⟨hfloor, hceiling⟩ := getElem?_zip_eq_some.mp hbounds
  refine ⟨planned, floor, ceiling, hplanned, rfl, ?_, (interiorCeilings_extreme plan.utterances).2 hceiling⟩
  have hbefore := interiorFloors_extreme plan.utterances Extreme.nil hfloor
  exact hbefore

variable {planned : PlannedUtterance}

theorem interiorCorridor_eq {floor ceiling : Option MeasuredBound} {words : List String}
    {low : CorridorFloor} {high : CorridorCeiling} (hbefore : ∀ w l c, planned.envelope ≠ some (.orderCorridor w l c))
    (h : interiorCorridor planned floor ceiling = some (.orderCorridor words low high)) :
    ∃ f c, floor = some f ∧ ceiling = some c ∧ low = .precedingMeasured f ∧ high = .followingMeasured c ∧
      (∃ i n inspection own missing, planned.evidence = .interiorOnly i n inspection own missing) ∧
      ∀ m ∈ planned.evidence.admitted, f.ms ≤ m.timing.startMs ∧ m.timing.endMs ≤ c.ms := by
  unfold interiorCorridor at h
  split at h
  · next i n inspection own missing f c hevidence =>
    split_ifs at h with hkept hcut
    · exact absurd h (hbefore _ _ _)
    · exact absurd h (hbefore _ _ _)
    · rw [Option.some.injEq, FaSearchEnvelope.orderCorridor.injEq] at h
      refine ⟨f, c, rfl, rfl, h.2.1.symm, h.2.2.symm, ⟨i, n, inspection, own, missing, hevidence⟩, ?_⟩
      intro m hm
      rw [hevidence] at hm
      have hown : ¬ (decide (m.timing.startMs < f.ms) || decide (c.ms < m.timing.endMs)) = true := fun hbad =>
        hcut (any_eq_true.mpr ⟨m, hm, hbad⟩)
      rw [Bool.or_eq_true, decide_eq_true_eq, decide_eq_true_eq, not_or, not_lt, not_lt] at hown
      exact hown
  · exact absurd h (hbefore _ _ _)

/-! ## Proved tokens -/

theorem payloadOf_ordered (searched : List UtrUtteranceInfo) (participation : GlobalUtrParticipation) :
    (payloadOf searched participation).Pairwise fun a b => a.address.utteranceIndex ≤ b.address.utteranceIndex := by
  have hof : ∀ utterance units, ∀ word ∈ UtrPayloadWord.ofUnits utterance units,
      word.address.utteranceIndex = utterance := by
    intro utterance units word hword
    obtain ⟨_, _, rfl⟩ := mem_map.mp hword
    rfl
  unfold payloadOf
  rw [pairwise_flatMap]
  constructor
  · intro entry _
    apply pairwise_of_forall_mem_list
    intro a ha b hb
    exact ((hof _ _ a ha).trans (hof _ _ b hb).symm).le
  · apply Pairwise.filter
    have hnumbers : (searched.zipIdx.map Prod.snd).Pairwise (· < ·) := by
      rw [zipIdx_map_snd]
      exact pairwise_lt_range' ..
    apply (pairwise_map.mp hnumbers).imp
    intro x y hxy a ha b hb
    rw [hof _ _ a ha, hof _ _ b hb]
    exact hxy.le

theorem mem_commonMatches {similarityMillionths : String → String → ℕ} {stream : UtrLexicalStream}
    {pairs : List (ℕ × ℕ)} {payload : List UtrPayloadWord} {m : AdmittedUtrWordMatch}
    (h : m ∈ commonMatches similarityMillionths stream pairs payload) :
    ∃ q ∈ pairs, ∃ word lexical, payload[q.1]? = some word ∧ stream[q.2]? = some lexical ∧
      m.matched.word = word.address ∧ m.timing = lexical.interval := by
  obtain ⟨q, hq, h⟩ := mem_filterMap.mp h
  obtain ⟨word, hword, h⟩ := Option.bind_eq_some_iff.mp h
  obtain ⟨lexical, hlexical, h⟩ := Option.bind_eq_some_iff.mp h
  obtain ⟨matched, hmatched, rfl⟩ := Option.map_eq_some_iff.mp h
  unfold matchedWord at hmatched
  rw [hlexical] at hmatched
  cases hmatched
  exact ⟨q, hq, word, lexical, hword, hlexical, rfl, rfl⟩

section Region
variable {env : SearchEnv} {stream : UtrLexicalStream} {span : UtrRegionSpan} {searched : List UtrUtteranceInfo}
  {mode : MatchMode} {participation : GlobalUtrParticipation} {contested : List ℕ} {payload : List UtrPayloadWord}

def commonPlan (env : SearchEnv) (payload : List UtrPayloadWord) (stream : UtrLexicalStream) (span : UtrRegionSpan)
    (searched : List UtrUtteranceInfo) (mode : MatchMode) (participation : GlobalUtrParticipation)
    (contested : List ℕ) : LocalRegionPlan :=
  buildAlignmentPlan env.similarityMillionths .globalDp payload stream
    (commonSelection env span payload stream mode) span searched participation contested

theorem getElem?_buildAlignmentPlan {sim : String → String → ℕ} {strategy : UtrAlignmentStrategy}
    {selection : UtrMatchSelection} {i : ℕ}
    (h : (buildAlignmentPlan sim strategy payload stream selection span searched participation
      contested).utterances[i]? = some planned) : ∃ info, searched[i]? = some info ∧ planned.info = info ∧
      planned.envelope = (selection.perUtterance i info).envelope ∧
      ∀ m ∈ planned.evidence.admitted, m ∈ selection.admission.admitted ∧ m.matched.word.utteranceIndex = i := by
  unfold buildAlignmentPlan at h
  rw [getElem?_mapIdx] at h
  obtain ⟨info, hinfo, rfl⟩ := Option.map_eq_some_iff.mp h
  refine ⟨info, hinfo, rfl, rfl, ?_⟩
  intro m hm
  rcases admitted_utteranceEvidence i info (selectedOf sim stream payload selection.selected i)
    (admittedOf contested selection.admission.admitted i) selection.admission.refusal
    (selection.perUtterance i info).endpoints participation with heq | heq
  · rw [heq] at hm
    obtain ⟨hmem, hkept⟩ := mem_filter.mp hm
    exact ⟨hmem, beq_iff_eq.mp (Bool.and_eq_true_iff.mp hkept).2⟩
  · rw [heq] at hm
    cases hm

theorem proved_pair {j : ℕ}
    (h : (commonPlan env payload stream span searched mode participation contested).utterances[j]? = some planned)
    {m : AdmittedUtrWordMatch} (hm : m ∈ planned.evidence.admitted) :
    ∃ (q : ℕ × ℕ) (word : UtrPayloadWord) (lexical : UtrLexicalWord),
      Common (matchRel mode (payload.map UtrPayloadWord.text) stream.texts) (payload.map UtrPayloadWord.text).length
        stream.texts.length q ∧
      payload[q.1]? = some word ∧ word.address.utteranceIndex = j ∧ stream[q.2]? = some lexical ∧
      m.timing = lexical.interval := by
  obtain ⟨_, _, _, _, hadmitted⟩ := getElem?_buildAlignmentPlan h
  obtain ⟨hmem, hindex⟩ := hadmitted m hm
  change m ∈ (commonProof env span payload stream mode).admitted at hmem
  unfold commonProof at hmem
  split at hmem
  · next pairs hobserved =>
    obtain ⟨q, hq, word, lexical, hword, hlexical, haddress, htiming⟩ := mem_commonMatches hmem
    refine ⟨q, word, lexical, ((admitControlled_common hobserved).mem q).mp hq, hword, ?_, hlexical, htiming⟩
    rw [← haddress]
    exact hindex
  · cases hmem

theorem proved_before {chain : List (ℕ × ℕ)}
    (hchain : IsOptimal (matchRel mode (payload.map UtrPayloadWord.text) stream.texts)
      (payload.map UtrPayloadWord.text).length stream.texts.length chain)
    (hpayload : payload.Pairwise fun a b => a.address.utteranceIndex ≤ b.address.utteranceIndex)
    {p q : ℕ × ℕ} (hp : p ∈ chain) (hq : q ∈ chain) {a b : UtrPayloadWord} (ha : payload[p.1]? = some a)
    (hb : payload[q.1]? = some b) (hlt : a.address.utteranceIndex < b.address.utteranceIndex) : p.2 < q.2 := by
  have hfst : p.1 < q.1 := by
    obtain ⟨hi, rfl⟩ := List.getElem?_eq_some_iff.mp ha
    obtain ⟨hj, rfl⟩ := List.getElem?_eq_some_iff.mp hb
    by_contra hle
    rcases (Nat.le_of_not_lt hle).eq_or_lt with heq | hback
    · simp only [heq, lt_irrefl] at hlt
    · exact absurd (pairwise_iff_getElem.mp hpayload q.1 p.1 hj hi hback) (Nat.not_le.mpr hlt)
  exact (hchain.1.before_of_fst hp hq hfst).2

theorem embeddingSelection_not_corridor (complete : Option CompleteExactEmbeddings) (i : ℕ) (info : UtrUtteranceInfo)
    (words : List String) (low : CorridorFloor) (high : CorridorCeiling) :
    (embeddingSelection payload stream complete i info).envelope ≠ some (.orderCorridor words low high) := by
  intro h
  cases complete with
  | none => cases h
  | some complete =>
    change complete.envelope payload stream i info = _ at h
    unfold CompleteExactEmbeddings.envelope at h
    simp only at h
    split_ifs at h
    obtain ⟨_, _, h⟩ := Option.bind_eq_some_iff.mp h
    obtain ⟨_, _, h⟩ := Option.bind_eq_some_iff.mp h
    obtain ⟨_, _, h⟩ := Option.bind_eq_some_iff.mp h
    obtain ⟨_, _, h⟩ := Option.bind_eq_some_iff.mp h
    obtain ⟨_, _, h⟩ := Option.map_eq_some_iff.mp h
    cases h

theorem planUtrAlignment_corridor {i : ℕ} {bounded : PlannedUtterance} {words : List String} {low : CorridorFloor}
    {high : CorridorCeiling}
    (h : (planUtrAlignment env payload stream span searched mode participation contested).value.utterances[i]? =
      some bounded) (hcorridor : bounded.envelope = some (.orderCorridor words low high)) :
    stream.ordered = true ∧ (boundInteriorOnlySearches
      (commonPlan env payload stream span searched mode participation contested) stream).utterances[i]? =
        some bounded := by
  unfold planUtrAlignment at h
  split at h
  · obtain ⟨info, _, _, henvelope, _⟩ := getElem?_buildAlignmentPlan h
    rw [henvelope] at hcorridor
    exact absurd hcorridor (embeddingSelection_not_corridor _ _ _ _ _ _)
  · refine ⟨?_, h⟩
    by_contra hno
    unfold boundInteriorOnlySearches at h
    rw [if_neg hno] at h
    obtain ⟨info, _, _, henvelope, _⟩ := getElem?_buildAlignmentPlan h
    rw [henvelope] at hcorridor
    exact absurd hcorridor (embeddingSelection_not_corridor _ _ _ _ _ _)

theorem bullets_iff {P : ℕ → TimeSpan → Prop} :
    (∀ j planned, (commonPlan env payload stream span searched mode participation contested).utterances[j]? =
        some planned → ∀ bullet, boundingBullet planned.info = some bullet → P j bullet) ↔
      ∀ j info, searched[j]? = some info → ∀ bullet, boundingBullet info = some bullet → P j bullet := by
  constructor
  · intro h j info hinfo bullet hbullet
    have hplanned : ∃ planned, (commonPlan env payload stream span searched mode participation
        contested).utterances[j]? = some planned ∧ planned.info = info := by
      unfold commonPlan buildAlignmentPlan
      simp only [getElem?_mapIdx, hinfo]
      exact ⟨_, rfl, rfl⟩
    obtain ⟨planned, hj, rfl⟩ := hplanned
    exact h j planned hj bullet hbullet
  · intro h j planned hj bullet hbullet
    obtain ⟨info, hinfo, heq, _⟩ := getElem?_buildAlignmentPlan hj
    rw [heq] at hbullet
    exact h j info hinfo bullet hbullet

end Region

/-- A window of a monotonic region has both bounds, is never empty and holds the utterance's proved
  tokens; a bound is past a token exactly when a retained bullet on that side is. -/
theorem interior_window_sound (env : SearchEnv) (stream : UtrLexicalStream) (span : UtrRegionSpan)
    (searched : List UtrUtteranceInfo) (mode : MatchMode) (participation : GlobalUtrParticipation)
    (contested : List ℕ) {i : ℕ} {bounded : PlannedUtterance} {words : List String} {low : CorridorFloor}
    {high : CorridorCeiling}
    (h : (planUtrAlignment env (payloadOf searched participation) stream span searched mode participation
      contested).value.utterances[i]? = some bounded)
    (hcorridor : bounded.envelope = some (.orderCorridor words low high)) :
    ∃ floor ceiling, low = .precedingMeasured floor ∧ high = .followingMeasured ceiling ∧ floor.ms < ceiling.ms ∧
      (∃ n inspection own missing, bounded.evidence = .interiorOnly i n inspection own missing) ∧
      (∀ m ∈ bounded.evidence.admitted, floor.ms ≤ m.timing.startMs ∧ m.timing.endMs ≤ ceiling.ms) ∧
      ∀ chain, IsOptimal (matchRel mode ((payloadOf searched participation).map UtrPayloadWord.text) stream.texts)
          ((payloadOf searched participation).map UtrPayloadWord.text).length stream.texts.length chain →
        ∀ q ∈ chain, ∀ word lexical, (payloadOf searched participation)[q.1]? = some word →
          word.address.utteranceIndex = i → stream[q.2]? = some lexical →
          (floor.ms ≤ lexical.interval.startMs ↔ ∀ j info, searched[j]? = some info →
            ∀ bullet, boundingBullet info = some bullet → j < i → bullet.endMs ≤ lexical.interval.startMs) ∧
          (lexical.interval.endMs ≤ ceiling.ms ↔ ∀ j info, searched[j]? = some info →
            ∀ bullet, boundingBullet info = some bullet → i < j → lexical.interval.endMs ≤ bullet.startMs) := by
  obtain ⟨hordered, h⟩ := planUtrAlignment_corridor h hcorridor
  have htimed := UtrLexicalStream.timed hordered
  obtain ⟨planned, floor, ceiling, hplanned, rfl, hfloor, hceiling⟩ := getElem?_boundInteriorOnlySearches hordered h
  obtain ⟨_, _, _, henvelope, _⟩ := getElem?_buildAlignmentPlan hplanned
  have hbefore : ∀ w l c, planned.envelope ≠ some (.orderCorridor w l c) := by
    intro w l c
    rw [henvelope]
    exact embeddingSelection_not_corridor _ _ _ _ _ _
  obtain ⟨f, c, rfl, rfl, rfl, rfl, ⟨k, n, inspection, own, missing, hevidence⟩, hown⟩ :=
    interiorCorridor_eq hbefore hcorridor
  have hk : k = i := by
    have hindex : planned.evidence.utteranceIndex = i := by
      unfold commonPlan buildAlignmentPlan at hplanned
      rw [getElem?_mapIdx] at hplanned
      obtain ⟨info, _, rfl⟩ := Option.map_eq_some_iff.mp hplanned
      exact utteranceIndex_utteranceEvidence ..
    rw [hevidence] at hindex
    exact hindex
  refine ⟨f, c, rfl, rfl, ?_, ⟨n, inspection, own, missing, hk ▸ hevidence⟩, hown, ?_⟩
  · have hfirst : own.first ∈ planned.evidence.admitted := by
      rw [hevidence]
      exact mem_cons_self
    obtain ⟨_, _, lexical, _, _, _, hlexical, htiming⟩ := proved_pair hplanned hfirst
    have hpositive := htimed.positive lexical (mem_of_getElem? hlexical)
    obtain ⟨hstart, hend⟩ := hown own.first hfirst
    rw [htiming] at hstart hend
    calc f.ms ≤ lexical.interval.startMs := hstart
      _ < lexical.interval.endMs := hpositive
      _ ≤ c.ms := hend
  · intro chain hchain q hq word lexical hword hutterance hlexical
    have hpayload := payloadOf_ordered searched participation
    constructor
    · have hproved : ∀ j other, j < i → (commonPlan env (payloadOf searched participation) stream span searched mode
          participation contested).utterances[j]? = some other →
          ∀ m ∈ other.evidence.admitted, m.timing.startMs ≤ lexical.interval.startMs := by
        intro j other hlt hj m hm
        obtain ⟨p, a, la, hcommon, ha, haj, hla, htiming⟩ := proved_pair hj hm
        have hpq := proved_before hchain hpayload (hcommon chain hchain) hq ha hword (by omega)
        rw [htiming]
        exact (htimed.between hla hlexical hpq.le).1
      exact (floor_le_iff hfloor hproved).trans bullets_iff
    · have hproved : ∀ j other, i < j → (commonPlan env (payloadOf searched participation) stream span searched mode
          participation contested).utterances[j]? = some other →
          ∀ m ∈ other.evidence.admitted, lexical.interval.endMs ≤ m.timing.endMs := by
        intro j other hlt hj m hm
        obtain ⟨p, a, la, hcommon, ha, haj, hla, htiming⟩ := proved_pair hj hm
        have hqp := proved_before hchain hpayload hq (hcommon chain hchain) hword ha (by omega)
        rw [htiming]
        exact (htimed.between hlexical hla hqp.le).2
      exact (le_ceiling_iff hceiling hproved).trans bullets_iff

/-! ## A bullet that cuts -/

def plainInfo (words : List String) (retainedTiming : Option TimeSpan) : UtrUtteranceInfo where
  units := ⟨words, words.zipIdx.map fun (word, i) => (word, ⟨i, 0, 1⟩)⟩
  retainedTiming := retainedTiming
  hasLazyOverlap := false
  hasCaOverlap := false
  overlapOnsetFraction := none
  speaker := "CHI"
  presence := .inRecording
  bottomIndices := []
  topOnsets := []

def cutCensus : List UtrUtteranceInfo :=
  [plainInfo ["a"] (some ⟨0, 100⟩), plainInfo ["b", "c", "d"] none, plainInfo ["e"] (some ⟨300, 400⟩)]

def cutStream : UtrLexicalStream :=
  [⟨"b", "b", ⟨0, 0⟩, ⟨50, 60⟩, 1⟩, ⟨"b", "b", ⟨1, 0⟩, ⟨150, 160⟩, 1⟩, ⟨"c", "c", ⟨2, 0⟩, ⟨200, 210⟩, 1⟩,
   ⟨"d", "d", ⟨3, 0⟩, ⟨250, 260⟩, 1⟩]

def cutSpan : UtrRegionSpan := ⟨0, 2, .anchor 0 0, .anchor 2 300⟩

def cutPlan : LocalRegionPlan :=
  (planUtrAlignment plainSearch (payloadOf cutCensus .allUtterances) cutStream cutSpan cutCensus .caseInsensitive
    .allUtterances []).value

theorem cutPlan_window : (cutPlan.utterances[1]?.bind PlannedUtterance.envelope) =
    some (.orderCorridor ["b", "c", "d"] (.precedingMeasured ⟨100, 0⟩) (.followingMeasured ⟨300, 2⟩)) := by
  decide +kernel

theorem cut_isOptimal {r : ℕ} (hr : r = 0 ∨ r = 1) :
    IsOptimal (matchRel .caseInsensitive ((payloadOf cutCensus .allUtterances).map UtrPayloadWord.text)
      cutStream.texts) 5 4 [(1, r), (2, 2), (3, 3)] := by
  have hmatching : ∀ r < 2, ∀ p ∈ [(1, r), (2, 2), (3, 3)],
      matchRel .caseInsensitive ((payloadOf cutCensus .allUtterances).map UtrPayloadWord.text) cutStream.texts
        p.1 p.2 = true := by
    decide +kernel
  have honly : ∀ p < 5, ∀ r < 4, matchRel .caseInsensitive
      ((payloadOf cutCensus .allUtterances).map UtrPayloadWord.text) cutStream.texts p r = true → p ∈ [1, 2, 3] := by
    decide +kernel
  apply isOptimal_iff.mpr
  refine ⟨⟨?_, hmatching r (by omega), ?_⟩, ?_⟩
  · rcases hr with rfl | rfl
    · simp [Before]
    · simp [Before]
  · intro p hp
    simp only [mem_cons, not_mem_nil, or_false] at hp
    rcases hp with rfl | rfl | rfl <;> omega
  · -- three words are heard at all
    intro d hd
    have hnodup : (d.map Prod.fst).Nodup := pairwise_map.mpr (hd.increasing.imp fun hb => hb.1.ne)
    have hsubset : d.map Prod.fst ⊆ [1, 2, 3] := by
      intro k hk
      obtain ⟨p, hp, rfl⟩ := mem_map.mp hk
      obtain ⟨h1, h2⟩ := hd.inside p hp
      exact honly p.1 h1 p.2 h2 (hd.matching p hp)
    have hle := (subperm_of_subset hnodup hsubset).length_le
    rw [length_map] at hle
    exact hle

/-- A window with a longest chain inside it. -/
theorem interior_window_sound_cut : ∃ floor ceiling : MeasuredBound, floor.ms < ceiling.ms ∧
      (floor.ms ≤ 150 ↔ ∀ j info, cutCensus[j]? = some info →
        ∀ bullet, boundingBullet info = some bullet → j < 1 → bullet.endMs ≤ 150) := by
  obtain ⟨bounded, hbounded, henvelope⟩ := Option.bind_eq_some_iff.mp cutPlan_window
  obtain ⟨floor, ceiling, _, _, hlt, _, _, hchain⟩ := interior_window_sound plainSearch cutStream cutSpan cutCensus
    .caseInsensitive .allUtterances [] hbounded henvelope
  obtain ⟨hfloor, _⟩ := hchain _ (cut_isOptimal (.inr rfl)) (1, 1) mem_cons_self
    ⟨"b", ⟨1, 0, ⟨0, 0, 1⟩⟩⟩ ⟨"b", "b", ⟨1, 0⟩, ⟨150, 160⟩, 1⟩ (by decide +kernel) rfl rfl
  exact ⟨floor, ceiling, hlt, hfloor⟩

/-- The first hearing is the line's on a longest chain, and lies before the line's window. -/
theorem interior_window_cuts : (cutPlan.utterances[1]?.bind PlannedUtterance.envelope) =
        some (.orderCorridor ["b", "c", "d"] (.precedingMeasured ⟨100, 0⟩) (.followingMeasured ⟨300, 2⟩)) ∧
      (IsOptimal (matchRel .caseInsensitive ((payloadOf cutCensus .allUtterances).map UtrPayloadWord.text)
        cutStream.texts) 5 4 [(1, 0), (2, 2), (3, 3)]) ∧
      (payloadOf cutCensus .allUtterances)[1]? = some ⟨"b", ⟨1, 0, ⟨0, 0, 1⟩⟩⟩ ∧
      cutStream[0]? = some ⟨"b", "b", ⟨0, 0⟩, ⟨50, 60⟩, 1⟩ ∧ ¬ FaSearchEnvelope.Contains
        (.orderCorridor ["b", "c", "d"] (.precedingMeasured ⟨100, 0⟩) (.followingMeasured ⟨300, 2⟩)) ⟨50, 60⟩ := by
  refine ⟨cutPlan_window, cut_isOptimal (.inl rfl), by decide +kernel, rfl, ?_⟩
  intro h
  exact absurd h.1 (by decide)

end Batchalign.Utr
