import Batchalign.Fa.Incremental

/- What the deltas between two versions of a file say (`diff/classify.rs`, `diff_chat`). -/
namespace Batchalign.Fa
open DpAlign Chain List

/-- The words of every utterance of a file, as `extract_words` gives them. -/
abbrev Extraction := ChatFile → List (List String)

def Extraction.OnePerUtterance (extractWords : Extraction) : Prop :=
  ∀ file, (extractWords file).length = (utterancesOf file).length

section
variable (extractWords : Extraction)

def fingerprints (file : ChatFile) : List String :=
  (extractWords file).map fun words => " ".intercalate words

/-- The alignment `diff_chat` classifies: the later version is the payload. -/
def fingerprintAlignment (before after : ChatFile) : List AlignResult :=
  align (fingerprints extractWords after) (fingerprints extractWords before) .exact

/-- `diff_chat`. -/
def diffExtracted (before after : ChatFile) : List UtteranceDelta :=
  (classifyAlignment before after (fingerprintAlignment extractWords before after)).mergeSort
    UtteranceDelta.before

def sameFingerprint (before after : ChatFile) : ℕ → ℕ → Bool := fun a b =>
  match (fingerprints extractWords after)[a]?, (fingerprints extractWords before)[b]? with
  | some later, some earlier => later == earlier
  | _, _ => false

end

/-! ## The deltas of an alignment -/

def UtteranceDelta.pair? (delta : UtteranceDelta) : Option (ℕ × ℕ) :=
  match delta.afterIdx, delta.beforeIdx with
  | some a, some b => some (a, b)
  | _, _ => none

theorem beforeIdx_classifySameWords (before after : ChatFile) (b a : ℕ) :
    (classifySameWords before after b a).beforeIdx = some b := by
  unfold classifySameWords
  simp only
  split
  · split <;> rfl
  · rfl

theorem stable?_classifySameWords (before after : ChatFile) (b a : ℕ) :
    (classifySameWords before after b a).stable? = some (b, a) := by
  unfold classifySameWords
  simp only
  split
  · split <;> rfl
  · rfl

theorem beforeIdx_classifyAlignment (before after : ChatFile) (out : List AlignResult) :
    (classifyAlignment before after out).filterMap UtteranceDelta.beforeIdx =
      out.filterMap AlignResult.referenceIdx? := by
  fun_induction classifyAlignment before after out with
  | case1 => rfl
  | case2 key a b rest ih =>
    rw [filterMap_cons_some (beforeIdx_classifySameWords before after b a), ih]
    rfl
  | case3 key a key' b rest ih =>
    show b :: _ = b :: _
    rw [ih]
  | case4 key a rest hrest ih => exact ih
  | case5 key b key' a rest ih =>
    show b :: _ = b :: _
    rw [ih]
    rfl
  | case6 key b rest hrest ih =>
    show b :: _ = b :: _
    rw [ih]

theorem stable?_classifyAlignment (before after : ChatFile) (out : List AlignResult) :
    (classifyAlignment before after out).filterMap UtteranceDelta.stable? =
      (matchedPairs out).map Prod.swap := by
  fun_induction classifyAlignment before after out with
  | case1 => rfl
  | case2 key a b rest ih =>
    rw [filterMap_cons_some (stable?_classifySameWords before after b a), ih]
    rfl
  | case3 key a key' b rest ih => exact ih
  | case4 key a rest hrest ih => exact ih
  | case5 key b key' a rest ih => exact ih
  | case6 key b rest hrest ih => exact ih

def UtteranceDelta.Agree (x y : UtteranceDelta) : Prop :=
  ∀ p q, x.pair? = some p → y.pair? = some q → (p.1 < q.1 ↔ p.2 < q.2)

theorem UtteranceDelta.pair?_eq_some {x : UtteranceDelta} {p : ℕ × ℕ} :
    x.pair? = some p ↔ x.afterIdx = some p.1 ∧ x.beforeIdx = some p.2 := by
  obtain ⟨a, b⟩ := p
  cases x <;> simp [pair?, afterIdx, beforeIdx]

variable {deltas : List UtteranceDelta}

theorem agree_of_increasing
    (hafter : (deltas.filterMap UtteranceDelta.afterIdx).Pairwise (· < ·))
    (hbefore : (deltas.filterMap UtteranceDelta.beforeIdx).Pairwise (· < ·)) :
    ∀ x ∈ deltas, ∀ y ∈ deltas, x ≠ y → x.Agree y := by
  rw [pairwise_filterMap] at hafter hbefore
  have hboth := hafter.and hbefore
  have hagree : deltas.Pairwise fun x y => x.Agree y ∧ y.Agree x := by
    refine hboth.imp ?_
    rintro x y ⟨ha, hb⟩
    have horder : ∀ p q, x.pair? = some p → y.pair? = some q → p.1 < q.1 ∧ p.2 < q.2 := by
      intro p q hp hq
      obtain ⟨hpa, hpb⟩ := UtteranceDelta.pair?_eq_some.mp hp
      obtain ⟨hqa, hqb⟩ := UtteranceDelta.pair?_eq_some.mp hq
      exact ⟨ha _ hpa _ hqa, hb _ hpb _ hqb⟩
    refine ⟨?_, ?_⟩
    · intro p q hp hq
      have := horder p q hp hq
      omega
    · intro q p hq hp
      have := horder p q hp hq
      omega
  have hsymm : Std.Symm fun x y : UtteranceDelta => x.Agree y ∧ y.Agree x := ⟨fun _ _ h => h.symm⟩
  intro x hx y hy hne
  exact (hagree.forall hx hy hne).1

/-! ## The sort -/

theorem UtteranceDelta.before_total (x y : UtteranceDelta) :
    (UtteranceDelta.before x y || UtteranceDelta.before y x) = true := by
  simp only [UtteranceDelta.before, Bool.or_eq_true, Bool.and_eq_true, decide_eq_true_eq,
    beq_iff_eq]
  omega

theorem UtteranceDelta.before_trans (x y z : UtteranceDelta) (hxy : UtteranceDelta.before x y = true)
    (hyz : UtteranceDelta.before y z = true) : UtteranceDelta.before x z = true := by
  simp only [UtteranceDelta.before, Bool.or_eq_true, Bool.and_eq_true, decide_eq_true_eq,
    beq_iff_eq] at *
  omega

theorem afterIdx_sorted {n : ℕ}
    (h : deltas.filterMap UtteranceDelta.afterIdx = range n) :
    (deltas.mergeSort UtteranceDelta.before).filterMap UtteranceDelta.afterIdx = range n := by
  have hperm : ((deltas.mergeSort UtteranceDelta.before).filterMap UtteranceDelta.afterIdx).Perm
      (range n) := by
    rw [← h]
    exact (mergeSort_perm deltas UtteranceDelta.before).filterMap _
  have hsorted : ((deltas.mergeSort UtteranceDelta.before).filterMap
      UtteranceDelta.afterIdx).Pairwise (· ≤ ·) := by
    rw [pairwise_filterMap]
    refine (pairwise_mergeSort UtteranceDelta.before_trans UtteranceDelta.before_total
      deltas).imp ?_
    intro x y hxy a ha b hb
    simp only [UtteranceDelta.before, ha, hb, Option.getD_some, Bool.or_eq_true, Bool.and_eq_true,
      decide_eq_true_eq, beq_iff_eq] at hxy
    omega
  exact hperm.eq_of_pairwise (fun _ _ _ _ hab hba => le_antisymm hab hba) hsorted
    (pairwise_lt_range.imp fun h => le_of_lt h)

/-! ## The diff -/

section
variable (extractWords : Extraction)

structure DiffSound (before after : ChatFile) (deltas : List UtteranceDelta) : Prop where
  /-- Every utterance of the later version once, in order. -/
  after_once : deltas.filterMap UtteranceDelta.afterIdx = List.range (utterancesOf after).length
  /-- Every utterance of the earlier version once. -/
  before_once : (deltas.filterMap UtteranceDelta.beforeIdx).Perm
    (List.range (utterancesOf before).length)
  /-- Without the deletions, the earlier indices are in order too. -/
  before_increasing : ((deltas.filterMap UtteranceDelta.pair?).map Prod.snd).Pairwise (· < ·)
  /-- The deltas of unchanged words pair equal fingerprints. -/
  same_words : ∀ b a, (b, a) ∈ deltas.filterMap UtteranceDelta.stable? →
    sameFingerprint extractWords before after a b = true
  /-- There are as many of them as an order-preserving matching can have. -/
  most : IsGreatest {k | ∃ c, IsChain (sameFingerprint extractWords before after)
      (utterancesOf after).length (utterancesOf before).length c ∧ c.length = k}
    (deltas.filterMap UtteranceDelta.stable?).length

end

variable {extractWords : Extraction}

theorem sameFingerprint_eq (before after : ChatFile) :
    rel (alignableString .exact) (fingerprints extractWords after)
      (fingerprints extractWords before) = sameFingerprint extractWords before after := by
  funext a b
  unfold rel sameFingerprint
  cases (fingerprints extractWords after)[a]? with
  | none => rfl
  | some later =>
    cases (fingerprints extractWords before)[b]? with
    | none => rfl
    | some earlier =>
      exact Bool.beq_comm

theorem length_fingerprints (h : extractWords.OnePerUtterance) (file : ChatFile) :
    (fingerprints extractWords file).length = (utterancesOf file).length := by
  rw [fingerprints, length_map, h]

theorem fingerprintAlignment_best (extractWords : Extraction) (before after : ChatFile) :
    OptimalScript (alignableString .exact) (fingerprints extractWords after)
      (fingerprints extractWords before) (fingerprintAlignment extractWords before after) :=
  have hexact : MatchMode.exact.Symmetric := trivial
  align_words_best hexact _ _

theorem deltas_sound (h : extractWords.OnePerUtterance) (before after : ChatFile) :
    DiffSound extractWords before after (diffExtracted extractWords before after) := by
  have hbest := fingerprintAlignment_best extractWords before after
  have hperm : (diffExtracted extractWords before after).Perm
      (classifyAlignment before after (fingerprintAlignment extractWords before after)) :=
    mergeSort_perm _ _
  have hafter : (classifyAlignment before after
      (fingerprintAlignment extractWords before after)).filterMap UtteranceDelta.afterIdx =
        range (utterancesOf after).length := by
    rw [afterIdx_classifyAlignment, hbest.payload_once, length_fingerprints h]
  have hbefore : (classifyAlignment before after
      (fingerprintAlignment extractWords before after)).filterMap UtteranceDelta.beforeIdx =
        range (utterancesOf before).length := by
    rw [beforeIdx_classifyAlignment, hbest.reference_once, length_fingerprints h]
  have hstable := stable?_classifyAlignment before after
    (fingerprintAlignment extractWords before after)
  have hsortedAfter := afterIdx_sorted hafter
  have hagree := agree_of_increasing (hafter ▸ pairwise_lt_range)
    (hbefore ▸ pairwise_lt_range)
  have hchain := hbest.chain
  have hmost := hbest.most_matches
  rw [sameFingerprint_eq, length_fingerprints h, length_fingerprints h] at hchain hmost
  refine ⟨hsortedAfter, ?_, ?_, ?_, ?_, ?_⟩
  · rw [← hbefore]
    exact hperm.filterMap _
  · rw [pairwise_map, pairwise_filterMap]
    have hincreasing : (diffExtracted extractWords before after).Pairwise fun x y =>
        ∀ a, x.afterIdx = some a → ∀ a', y.afterIdx = some a' → a < a' := by
      rw [← pairwise_filterMap]
      exact hsortedAfter ▸ pairwise_lt_range
    refine hincreasing.imp_of_mem ?_
    intro x y hx hy hlt p hp q hq
    have hpq := hlt _ (UtteranceDelta.pair?_eq_some.mp hp).1 _ (UtteranceDelta.pair?_eq_some.mp hq).1
    have hne : x ≠ y := by
      rintro rfl
      rw [hp, Option.some.injEq] at hq
      rw [hq] at hpq
      exact lt_irrefl _ hpq
    exact (hagree x (hperm.mem_iff.mp hx) y (hperm.mem_iff.mp hy) hne p q hp hq).mp hpq
  · intro b a hmem
    rw [(hperm.filterMap _).mem_iff, hstable] at hmem
    obtain ⟨p, hp, hswap⟩ := mem_map.mp hmem
    have hmatch := hchain.matching p hp
    cases hswap
    exact hmatch
  · refine ⟨_, hchain, ?_⟩
    rw [(hperm.filterMap UtteranceDelta.stable?).length_eq, hstable, length_map]
  · rintro k ⟨c, hc, rfl⟩
    rw [(hperm.filterMap UtteranceDelta.stable?).length_eq, hstable, length_map]
    exact hmost c hc

/-! ## A file against itself -/

variable {out : List AlignResult}

theorem pairs_of_matched (h : scriptCost out = 0) :
    (matchedPairs out).map Prod.fst = out.filterMap AlignResult.payloadIdx? ∧
      (matchedPairs out).map Prod.snd = out.filterMap AlignResult.referenceIdx? ∧
      ∀ before after, classifyAlignment before after out =
        (matchedPairs out).map fun p => classifySameWords before after p.2 p.1 := by
  induction out with
  | nil => exact ⟨rfl, rfl, fun _ _ => rfl⟩
  | cons x out ih =>
    cases x with
    | matched key a b =>
      obtain ⟨h1, h2, h3⟩ := ih (by simpa [scriptCost, AlignResult.cost] using h)
      refine ⟨congrArg (a :: ·) h1, congrArg (b :: ·) h2, ?_⟩
      intro before after
      exact congrArg (classifySameWords before after b a :: ·) (h3 before after)
    | extraPayload key a => simp [scriptCost, AlignResult.cost, COST_GAP] at h
    | extraReference key b => simp [scriptCost, AlignResult.cost, COST_GAP] at h

variable (file : ChatFile)

theorem classifySameWords_self (i : ℕ) : classifySameWords file file i i = .unchanged i i := by
  simp [classifySameWords, timingDiffers]

theorem diagonal_chain :
    IsChain (sameFingerprint extractWords file file) (fingerprints extractWords file).length
      (fingerprints extractWords file).length
      ((range (fingerprints extractWords file).length).map fun i => (i, i)) := by
  refine ⟨?_, ?_, ?_⟩
  · rw [pairwise_map]
    exact pairwise_lt_range.imp fun h => ⟨h, h⟩
  · intro p hp
    obtain ⟨i, hi, rfl⟩ := mem_map.mp hp
    simp [sameFingerprint, getElem?_eq_getElem (mem_range.mp hi)]
  · intro p hp
    obtain ⟨i, hi, rfl⟩ := mem_map.mp hp
    exact ⟨mem_range.mp hi, mem_range.mp hi⟩

theorem diff_self : diffExtracted extractWords file file =
    (range (fingerprints extractWords file).length).map fun i => .unchanged i i := by
  have hbest := fingerprintAlignment_best extractWords file file
  have hmost := hbest.most_matches
  rw [sameFingerprint_eq] at hmost
  have hall := hmost _ (diagonal_chain file)
  have hcount := script_count (fingerprintAlignment extractWords file file)
  rw [hbest.payload_once, hbest.reference_once, length_range] at hcount
  rw [length_map, length_range] at hall
  obtain ⟨hfst, hsnd, hclassified⟩ := pairs_of_matched
    (show scriptCost (fingerprintAlignment extractWords file file) = 0 by omega)
  rw [hbest.payload_once] at hfst
  rw [hbest.reference_once] at hsnd
  have hpairs : matchedPairs (fingerprintAlignment extractWords file file) =
      (range (fingerprints extractWords file).length).map fun i => (i, i) := by
    have hdiagonal : ((range (fingerprints extractWords file).length).map fun i => (i, i)) =
        (range (fingerprints extractWords file).length).zip
          (range (fingerprints extractWords file).length) :=
      zip_of_prod (by simp [Function.comp_def]) (by simp [Function.comp_def])
    rw [hdiagonal]
    exact zip_of_prod hfst hsnd
  have hdeltas : classifyAlignment file file (fingerprintAlignment extractWords file file) =
      (range (fingerprints extractWords file).length).map fun i => .unchanged i i := by
    rw [hclassified, hpairs, map_map]
    exact map_congr_left fun i _ => classifySameWords_self file i
  rw [diffExtracted, hdeltas]
  refine mergeSort_of_pairwise ?_
  rw [pairwise_map]
  refine pairwise_lt_range.imp ?_
  intro i j hij
  simp [UtteranceDelta.before, UtteranceDelta.afterIdx, hij]

/-- The deltas list every utterance of both versions once and in order, and keep as many as any order-
  preserving matching. -/
theorem diff_exact (h : extractWords.OnePerUtterance) :
    (∀ before after, DiffSound extractWords before after (diffExtracted extractWords before after)) ∧
      ∀ file, diffExtracted extractWords file file =
        (List.range (utterancesOf file).length).map fun i => .unchanged i i := by
  refine ⟨deltas_sound h, ?_⟩
  intro file
  rw [diff_self, length_fingerprints h]

theorem diff_exact_main_tier_words :
    (∀ before after, DiffSound (fun file => (utterancesOf file).map fun u => plainMorWords u.content)
      before after (diffExtracted (fun file => (utterancesOf file).map fun u =>
        plainMorWords u.content) before after)) ∧
      ∀ file, diffExtracted (fun file => (utterancesOf file).map fun u => plainMorWords u.content)
        file file = (List.range (utterancesOf file).length).map fun i => .unchanged i i :=
  diff_exact fun _ => length_map _

/-! ## Deltas that affect timing -/

def UtteranceDelta.affectsTiming : UtteranceDelta → Bool
  | wordsChanged _ _ timingChanged => timingChanged
  | timingOnly _ _ => true
  | inserted _ => true
  | deleted _ => true
  | _ => false

def speakerAt (file : ChatFile) (i : ℕ) : Option String := (utterancesOf file)[i]?.map Utterance.speaker

theorem affectsTiming_classifySameWords (before after : ChatFile) (b a : ℕ) :
    (classifySameWords before after b a).affectsTiming = true ↔
      timingDiffers before after b a = true ∧ speakerAt before b = speakerAt after a := by
  unfold classifySameWords speakerAt
  by_cases hspeaker : (utterancesOf before)[b]?.map Utterance.speaker =
      (utterancesOf after)[a]?.map Utterance.speaker
  · cases htiming : timingDiffers before after b a <;>
      simp [hspeaker, UtteranceDelta.affectsTiming]
  · simp [hspeaker, UtteranceDelta.affectsTiming]

theorem pair?_classifySameWords (before after : ChatFile) (b a : ℕ) :
    (classifySameWords before after b a).pair? = some (a, b) := by
  unfold classifySameWords
  simp only
  split
  · split <;> rfl
  · rfl

/-- A payload index and a reference index an alignment leaves unmatched side by side. -/
def SubstitutedAt (out : List AlignResult) (a b : ℕ) : Prop :=
  ∃ front back key key', out = front ++ .extraPayload key a :: .extraReference key' b :: back ∨
    out = front ++ .extraReference key' b :: .extraPayload key a :: back

theorem SubstitutedAt.cons {a b : ℕ} (h : SubstitutedAt out a b)
    (x : AlignResult) : SubstitutedAt (x :: out) a b := by
  obtain ⟨front, back, key, key', hout⟩ := h
  exact ⟨x :: front, back, key, key', hout.imp (congrArg (x :: ·)) (congrArg (x :: ·))⟩

theorem pair_of_mem_classifyAlignment {before after : ChatFile}
    {delta : UtteranceDelta} {a b : ℕ} (h : delta ∈ classifyAlignment before after out)
    (hpair : delta.pair? = some (a, b)) :
    (delta = classifySameWords before after b a ∧ (a, b) ∈ matchedPairs out) ∨
      (delta = .wordsChanged b a (timingDiffers before after b a) ∧ SubstitutedAt out a b) := by
  fun_induction classifyAlignment before after out with
  | case1 => cases h
  | case2 key a' b' rest ih =>
    rcases mem_cons.mp h with rfl | h
    · rw [pair?_classifySameWords] at hpair
      cases hpair
      exact .inl ⟨rfl, mem_cons_self⟩
    · exact (ih h).imp (And.imp_right (mem_cons_of_mem _)) (And.imp_right (·.cons _))
  | case3 key a' key' b' rest ih =>
    rcases mem_cons.mp h with rfl | h
    · cases hpair
      exact .inr ⟨rfl, [], rest, key, key', .inl rfl⟩
    · exact (ih h).imp id (And.imp_right fun hs => (hs.cons _).cons _)
  | case4 key a' rest hrest ih =>
    rcases mem_cons.mp h with rfl | h
    · cases hpair
    · exact (ih h).imp id (And.imp_right (·.cons _))
  | case5 key b' key' a' rest ih =>
    rcases mem_cons.mp h with rfl | h
    · cases hpair
      exact .inr ⟨rfl, [], rest, key', key, .inr rfl⟩
    · exact (ih h).imp id (And.imp_right fun hs => (hs.cons _).cons _)
  | case6 key b' rest hrest ih =>
    rcases mem_cons.mp h with rfl | h
    · cases hpair
    · exact (ih h).imp id (And.imp_right (·.cons _))

theorem rel_substituted {T : Type} {A : Alignable T} {payload reference : List T}
    {a b : ℕ} (h : OptimalScript A payload reference out)
    (hsub : SubstitutedAt out a b) : rel A payload reference a b = false := by
  by_contra hrel
  obtain ⟨front, back, key, key', hout⟩ := hsub
  have hmem : .extraReference key' b ∈ out := by
    rcases hout with rfl | rfl <;> simp
  have hkeyed := h.keyed _ hmem
  have hscript : IsScript A payload reference 0 payload.length 0 reference.length
      (front ++ .matched key' a b :: back) := by
    refine ⟨?_, ?_, ?_⟩
    · rw [Nat.sub_zero, ← range_eq_range', ← h.payload_once]
      rcases hout with rfl | rfl <;> simp [filterMap_cons, AlignResult.payloadIdx?]
    · rw [Nat.sub_zero, ← range_eq_range', ← h.reference_once]
      rcases hout with rfl | rfl <;> simp [filterMap_cons, AlignResult.referenceIdx?]
    · intro x hx
      rcases mem_append.mp hx with hx | hx
      · exact h.keyed x (by rcases hout with rfl | rfl <;> simp [hx])
      · rcases mem_cons.mp hx with rfl | hx
        · exact ⟨by simpa using hrel, hkeyed⟩
        · exact h.keyed x (by rcases hout with rfl | rfl <;> simp [hx])
  have hleast := h.least_cost _ hscript
  rcases hout with rfl | rfl
  · simp [scriptCost, AlignResult.cost, COST_GAP] at hleast
    omega
  · simp [scriptCost, AlignResult.cost, COST_GAP] at hleast
    omega

/-- A delta of different bullets affects timing, unless the words are the same and the speakers differ. -/
theorem affectsTiming_exact {before after : ChatFile} {delta : UtteranceDelta} {a b : ℕ}
    (h : delta ∈ diffExtracted extractWords before after) (hpair : delta.pair? = some (a, b)) :
    (timingDiffers before after b a = true → delta.affectsTiming = true) ↔
      ¬(timingDiffers before after b a = true ∧ speakerAt before b ≠ speakerAt after a ∧
        sameFingerprint extractWords before after a b = true) := by
  have hbest := fingerprintAlignment_best extractWords before after
  rcases pair_of_mem_classifyAlignment (mem_mergeSort.mp h) hpair with
    ⟨rfl, hmatched⟩ | ⟨rfl, hsub⟩
  · have hsame := hbest.chain.matching _ hmatched
    rw [sameFingerprint_eq] at hsame
    rw [affectsTiming_classifySameWords]
    tauto
  · have hdiffer := rel_substituted hbest hsub
    rw [sameFingerprint_eq] at hdiffer
    simp [hdiffer, UtteranceDelta.affectsTiming]

/-- One utterance of the word `hello`. -/
def helloFile (speaker : String) (startMs : ℕ) : ChatFile :=
  [.utterance ⟨speaker, [], some (.parsed ⟨startMs, 500⟩), [.word ⟨"hello", none⟩], [], []⟩]

def mainTierWords : Extraction := fun file => (utterancesOf file).map fun u => plainMorWords u.content

theorem align_one (word : String) : align [word] [word] .exact = [.matched word 0 0] := by
  have hrun : matchingRun (alignableString .exact) [word] [word] = 1 := by
    simp [matchingRun, alignableString, LiteralMatchMode.matchesWords]
  rw [align, alignGeneric, hrun]
  show _ ++ hirschberg _ [] [] _ _ ++ _ = _
  rw [hirschberg]
  rfl

theorem mem_helloDeltas (speaker : String) (startMs : ℕ) :
    classifySameWords (helloFile "CHI" 0) (helloFile speaker startMs) 0 0 ∈
      diffExtracted mainTierWords (helloFile "CHI" 0) (helloFile speaker startMs) := by
  have halign : fingerprintAlignment mainTierWords (helloFile "CHI" 0) (helloFile speaker startMs) =
      [.matched "hello" 0 0] := align_one "hello"
  rw [diffExtracted, halign]
  exact mem_mergeSort.mpr mem_cons_self

theorem affectsTiming_exact_moved :
    (timingDiffers (helloFile "CHI" 0) (helloFile "CHI" 100) 0 0 = true →
        (classifySameWords (helloFile "CHI" 0) (helloFile "CHI" 100) 0 0).affectsTiming = true) ↔
      ¬(timingDiffers (helloFile "CHI" 0) (helloFile "CHI" 100) 0 0 = true ∧
        speakerAt (helloFile "CHI" 0) 0 ≠ speakerAt (helloFile "CHI" 100) 0 ∧
        sameFingerprint mainTierWords (helloFile "CHI" 0) (helloFile "CHI" 100) 0 0 = true) :=
  affectsTiming_exact (mem_helloDeltas "CHI" 100) (pair?_classifySameWords ..)

/-- The speaker and the bullet of one utterance change together. -/
theorem speaker_hides_bullet : ¬∀ (extractWords : Extraction) (before after : ChatFile),
    ∀ delta ∈ diffExtracted extractWords before after, ∀ a b, delta.pair? = some (a, b) →
      timingDiffers before after b a = true → delta.affectsTiming = true := by
  intro h
  have haffects := h _ _ _ _ (mem_helloDeltas "MOT" 100) 0 0 (pair?_classifySameWords ..) rfl
  cases haffects

end Batchalign.Fa
