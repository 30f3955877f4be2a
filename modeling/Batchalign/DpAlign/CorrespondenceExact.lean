import Batchalign.DpAlign.AlignOptimal
import Batchalign.DpAlign.PackedRanks

/- Every completed correspondence is exact. Both listing producers come to one list, row by row the
   matching reference positions of each payload word (`matchEdges`). -/
namespace Batchalign.DpAlign
open Chain List

def matchRow (M : ℕ → ℕ → Bool) (n p : ℕ) : List ℕ := (List.range n).filter fun r => M p r

def matchEdges (M : ℕ → ℕ → Bool) (m n : ℕ) : List Edge :=
  (List.range m).flatMap fun p => (matchRow M n p).map fun r => ⟨p, r⟩

variable {payload reference : List String} {edgeLimit : ℕ} (M : ℕ → ℕ → Bool)

theorem matchEdges_succ (p n : ℕ) :
    matchEdges M (p + 1) n = matchEdges M p n ++ (matchRow M n p).map fun r => ⟨p, r⟩ := by
  rw [matchEdges, range_succ, flatMap_append, flatMap_singleton]
  rfl

theorem matchEdges_lists (m n : ℕ) : Lists M m n (matchEdges M m n) := by
  refine ⟨?_, ?_⟩
  · intro e
    simp only [matchEdges, matchRow, mem_flatMap, mem_range, mem_map, mem_filter]
    refine ⟨?_, ?_⟩
    · intro h
      obtain ⟨p, hp, r, ⟨hr, hM⟩, rfl⟩ := h
      exact ⟨hM, hp, hr⟩
    · intro h
      exact ⟨e.payload, h.2.1, e.reference, ⟨h.2.2, h.1⟩, rfl⟩
  · rw [matchEdges, pairwise_flatMap]
    refine ⟨?_, ?_⟩
    · intro p _
      rw [pairwise_map]
      apply (pairwise_lt_range.filter _).imp
      intro a b hab
      exact .inr ⟨rfl, hab⟩
    · apply pairwise_lt_range.imp
      intro p q hpq a ha b hb
      obtain ⟨_, _, rfl⟩ := mem_map.mp ha
      obtain ⟨_, _, rfl⟩ := mem_map.mp hb
      exact .inl hpq

/-! ## The literal route -/

theorem pushEdges_ok (rest : List Edge) : ∀ {edges result : List Edge},
    pushEdges edgeLimit edges rest = .ok result → result = edges ++ rest := by
  induction rest with
  | nil =>
    intro edges result h
    rw [pushEdges, Except.ok.injEq] at h
    rw [← h, append_nil]
  | cons e rest ih =>
    intro edges result h
    rw [pushEdges] at h
    split_ifs at h
    rw [ih h, append_assoc]
    rfl

theorem literalEdges_eq (payload reference : List String) (mode : LiteralMatchMode) :
    literalEdges (LiteralCandidates.observe payload reference mode) =
      matchEdges (literalRel mode payload reference) payload.length reference.length := by
  rw [literalEdges, matchEdges, flatMap_def, flatMap_def]
  congr 1
  apply map_congr_left
  intro p hp
  rw [observe_references payload reference mode (mem_range.mp hp)]
  rfl

structure ExactCommon (M : ℕ → ℕ → Bool) (m n : ℕ) (pairs : List (ℕ × ℕ)) : Prop where
  increasing : pairs.Pairwise Before
  mem : ∀ q, q ∈ pairs ↔ Common M m n q

theorem certifySparse_exact (m n : ℕ) : ExactCommon M m n (certifySparse n (matchEdges M m n)) :=
  ⟨certifySparse_sorted (matchEdges_lists M m n), mem_certifySparse (matchEdges_lists M m n)⟩

variable {pairs : List (ℕ × ℕ)}

theorem admitSparse_exact {mode : LiteralMatchMode} (h : (match pushEdges edgeLimit []
        (literalEdges (LiteralCandidates.observe payload reference mode)) with
      | .error budget => CorrespondenceAdmission.budgetExhausted budget
      | .ok edges => .complete (certifySparse reference.length edges)) = .complete pairs) :
    ExactCommon (literalRel mode payload reference) payload.length reference.length pairs := by
  split at h
  · simp at h
  · next edges hpush =>
    rw [CorrespondenceAdmission.complete.injEq, pushEdges_ok _ hpush, nil_append,
      literalEdges_eq] at h
    rw [← h]
    exact certifySparse_exact _ _ _

theorem admitLiteral_exact {mode : LiteralMatchMode} (h : admitLiteral payload reference mode edgeLimit = .complete pairs) :
    ExactCommon (literalRel mode payload reference) payload.length reference.length pairs := by
  rw [admitLiteral] at h
  split_ifs at h
  · split at h
    · obtain ⟨hsorted, hmem⟩ := certifyPacked_exact h
      exact ⟨hsorted, hmem⟩
    · exact admitSparse_exact h
  · exact admitSparse_exact h

/-! ## Fuzzy interning -/

theorem intern_spec (words : List String) (original : String) : words <+: (intern words original).2 ∧
      (intern words original).2[(intern words original).1]? = some original := by
  rw [intern]
  cases hidx : words.idxOf? original with
  | none =>
    simp
  | some id =>
    refine ⟨prefix_refl _, ?_⟩
    obtain ⟨hlt, hget, _⟩ := findIdx?_eq_some_iff_getElem.mp hidx
    rw [getElem?_eq_getElem hlt, beq_iff_eq.mp hget]

theorem getElem?_of_prefix {α : Type} {l l' : List α} (h : l <+: l') {i : ℕ} {x : α}
    (hx : l[i]? = some x) : l'[i]? = some x := by
  obtain ⟨t, rfl⟩ := h
  rw [getElem?_append_left (List.getElem?_eq_some_iff.mp hx).1, hx]

theorem internPayload_spec (payload : List String) : ∀ words : List String,
    words <+: (internPayload words payload).2 ∧ (internPayload words payload).1.length = payload.length ∧
      ∀ (p : ℕ) (id : ℕ), (internPayload words payload).1[p]? = some id →
        (internPayload words payload).2[id]? = payload[p]? := by
  induction payload with
  | nil =>
    intro words
    exact ⟨prefix_refl _, rfl, by simp [internPayload]⟩
  | cons original rest ih =>
    intro words
    obtain ⟨hkept, hlen, hids⟩ := ih (intern words original).2
    obtain ⟨hfirst, hget⟩ := intern_spec words original
    rw [internPayload]
    refine ⟨hfirst.trans hkept, by simp [hlen], ?_⟩
    intro p id hid
    cases p with
    | zero =>
      obtain rfl : (intern words original).1 = id := by simpa using hid
      exact getElem?_of_prefix hkept hget
    | succ p => exact hids p id (by simpa using hid)

def Classed (words : List String) (classes : List ReferenceClass) : Prop :=
  ∀ c ∈ classes, words[c.word]? = some c.spelling

theorem internReference_spec (reference : List String) :
    ∀ (words : List String) (classes : List ReferenceClass), Classed words classes →
      words <+: (internReference words classes reference).1 ∧
      Classed (internReference words classes reference).1 (internReference words classes reference).2.1 ∧
      classes.map (·.spelling) <+: (internReference words classes reference).2.1.map (·.spelling) ∧
      (internReference words classes reference).2.2.length = reference.length ∧
      ∀ (r : ℕ) (id : ℕ), (internReference words classes reference).2.2[r]? = some id →
        ((internReference words classes reference).2.1.map (·.spelling))[id]? = reference[r]? := by
  induction reference with
  | nil =>
    intro words classes h
    exact ⟨prefix_refl _, h, prefix_refl _, rfl, by simp [internReference]⟩
  | cons original rest ih =>
    intro words classes h
    rw [internReference]
    cases hidx : classes.findIdx? fun c => c.spelling == original with
    | some id =>
      have hcounted : Classed words (classes.modify id fun c => { c with occurrences := c.occurrences + 1 }) := by
        intro c hc
        obtain ⟨i, hi⟩ := mem_iff_getElem?.mp hc
        rw [getElem?_modify] at hi
        obtain ⟨d, hd, rfl⟩ := Option.map_eq_some_iff.mp hi
        have hdw := h d (mem_of_getElem? hd)
        split_ifs <;> exact hdw
      have hspell : (classes.modify id fun c => { c with occurrences := c.occurrences + 1 }).map (·.spelling) =
          classes.map (·.spelling) := by
        apply ext_getElem?
        intro i
        rw [getElem?_map, getElem?_map, getElem?_modify]
        cases classes[i]? with
        | none => rfl
        | some c =>
          split_ifs <;> rfl
      obtain ⟨hkept, hclassed, hclasses, hlen, hids⟩ := ih words _ hcounted
      rw [hspell] at hclasses
      refine ⟨hkept, hclassed, hclasses, by simp [hlen], ?_⟩
      intro r id' hid
      cases r with
      | zero =>
        obtain rfl : id = id' := by simpa using hid
        obtain ⟨hlt, hget, _⟩ := findIdx?_eq_some_iff_getElem.mp hidx
        apply getElem?_of_prefix hclasses
        rw [getElem?_map, getElem?_eq_getElem hlt, Option.map_some, beq_iff_eq.mp hget]
      | succ r => exact hids r id' (by simpa using hid)
    | none =>
      obtain ⟨hfirst, hget⟩ := intern_spec words original
      have hpushed : Classed (intern words original).2 (classes ++ [⟨original, (intern words original).1, 1⟩]) := by
        intro c hc
        rcases mem_append.mp hc with hc | hc
        · exact getElem?_of_prefix hfirst (h c hc)
        · rw [mem_singleton.mp hc]
          exact hget
      obtain ⟨hkept, hclassed, hclasses, hlen, hids⟩ := ih _ _ hpushed
      rw [map_append] at hclasses
      refine ⟨hfirst.trans hkept, hclassed, (prefix_append _ _).trans hclasses, by simp [hlen], ?_⟩
      intro r id' hid
      cases r with
      | zero =>
        obtain rfl : classes.length = id' := by simpa using hid
        apply getElem?_of_prefix hclasses
        simp
      | succ r => exact hids r id' (by simpa using hid)

/-! ## Fuzzy rows -/

/-- The relation of a mode between payload and reference positions, the payload word first. -/
def matchRel (mode : MatchMode) (payload reference : List String) : ℕ → ℕ → Bool := fun p r =>
  match payload[p]?, reference[r]? with
  | some source, some word => mode.alignable.isMatch source word
  | _, _ => false

section Fuzzy
variable {policy : FuzzyComparison}

theorem prepare_payload {p id : ℕ} (h : (FuzzyCandidates.prepare payload reference).payload[p]? = some id) :
    (FuzzyCandidates.prepare payload reference).words[id]? = payload[p]? := by
  obtain ⟨_, hlen, hids⟩ := internPayload_spec payload []
  obtain ⟨hkept, _⟩ := internReference_spec reference (internPayload [] payload).2 [] (by simp [Classed])
  have hlt : p < payload.length := by
    rw [← hlen]
    exact (List.getElem?_eq_some_iff.mp h).1
  have hword := hids p id h
  rw [getElem?_eq_getElem hlt] at hword ⊢
  exact getElem?_of_prefix hkept hword

theorem prepare_matches {p id r c : ℕ} (hid : (FuzzyCandidates.prepare payload reference).payload[p]? = some id)
    (hc : (FuzzyCandidates.prepare payload reference).referenceOrder[r]? = some c) :
    (((FuzzyCandidates.prepare payload reference).referenceClasses.map fun d =>
      (FuzzyCandidates.prepare payload reference).matchesWords policy id d.word).getD c false) =
      matchRel (.fuzzy policy) payload reference p r := by
  obtain ⟨_, hclassed, _, hlen, hids⟩ :=
    internReference_spec reference (internPayload [] payload).2 [] (by simp [Classed])
  have hlt : r < reference.length := by
    rw [← hlen]
    exact (List.getElem?_eq_some_iff.mp hc).1
  have hspell := hids r c hc
  rw [getElem?_map, getElem?_eq_getElem hlt] at hspell
  obtain ⟨d, hd, hdspell⟩ := Option.map_eq_some_iff.mp hspell
  have hword := hclassed d (mem_of_getElem? hd)
  change (FuzzyCandidates.prepare payload reference).referenceClasses[c]? = some d at hd
  change (FuzzyCandidates.prepare payload reference).words[d.word]? = some d.spelling at hword
  rw [getD_eq_getElem?_getD, getElem?_map, hd, Option.map_some, Option.getD_some,
    FuzzyCandidates.matchesWords, prepare_payload hid, hword, hdspell, matchRel,
    getElem?_eq_getElem hlt]
  cases payload[p]? <;> rfl

theorem observed_row {p id : ℕ} (hid : (FuzzyCandidates.prepare payload reference).payload[p]? = some id) :
    ((FuzzyCandidates.prepare payload reference).referenceOrder.zipIdx.filter fun (c, _) =>
        ((FuzzyCandidates.prepare payload reference).referenceClasses.map fun d =>
          (FuzzyCandidates.prepare payload reference).matchesWords policy id d.word).getD c false).map
      (fun (_, r) => Edge.mk p r) =
    (matchRow (matchRel (.fuzzy policy) payload reference) reference.length p).map fun r => ⟨p, r⟩ := by
  have hlen : (FuzzyCandidates.prepare payload reference).referenceOrder.length = reference.length :=
    (internReference_spec reference (internPayload [] payload).2 [] (by simp [Classed])).2.2.2.1
  have hindex : (FuzzyCandidates.prepare payload reference).referenceOrder.zipIdx.map Prod.snd =
      range reference.length := by
    rw [zipIdx_map_snd, hlen, range_eq_range']
  rw [matchRow, ← hindex, filter_map, map_map]
  congr 1
  apply filter_congr
  intro x hx
  have hget := mk_mem_zipIdx_iff_getElem?.mp hx
  exact prepare_matches hid hget

/-- Before payload word `p`: the earlier words' edges, and retained spans that hold their rows. -/
structure RowsBefore (policy : FuzzyComparison) (payload reference : List String) (p : ℕ)
    (state : FuzzyRows) : Prop where
  edges : state.edges = matchEdges (matchRel (.fuzzy policy) payload reference) p reference.length
  rows : ∀ id start finish, state.rows id = some (start, finish) →
    start ≤ finish ∧ finish ≤ state.edges.length ∧
    ∃ q, (FuzzyCandidates.prepare payload reference).payload[q]? = some id ∧
      ((state.edges.drop start).take (finish - start)).map Edge.reference =
        matchRow (matchRel (.fuzzy policy) payload reference) reference.length q

theorem matchRow_of_id {p q id : ℕ} (hp : (FuzzyCandidates.prepare payload reference).payload[p]? = some id)
    (hq : (FuzzyCandidates.prepare payload reference).payload[q]? = some id) :
    matchRow (matchRel (.fuzzy policy) payload reference) reference.length p =
      matchRow (matchRel (.fuzzy policy) payload reference) reference.length q := by
  have hsame : payload[p]? = payload[q]? := (prepare_payload hp).symm.trans (prepare_payload hq)
  rw [matchRow, matchRow]
  congr 1
  funext r
  rw [matchRel, matchRel, hsame]

theorem span_append {edges more : List Edge} {start finish : ℕ} (hle : start ≤ finish)
    (hlen : finish ≤ edges.length) :
    ((edges ++ more).drop start).take (finish - start) = (edges.drop start).take (finish - start) := by
  rw [drop_append_of_le_length (by omega), take_append_of_le_length (by rw [length_drop]; omega)]

theorem fuzzyRow_before {p id : ℕ} {state state' : FuzzyRows} (h : RowsBefore policy payload reference p state)
    (hid : (FuzzyCandidates.prepare payload reference).payload[p]? = some id)
    (hrow : fuzzyRow policy (FuzzyCandidates.prepare payload reference) edgeLimit p id state = .ok state') :
    RowsBefore policy payload reference (p + 1) state' := by
  -- spans kept from before stay good under any appended row
  have hspans : ∀ more id start finish, state.rows id = some (start, finish) →
      start ≤ finish ∧ finish ≤ (state.edges ++ more).length ∧
      ∃ q, (FuzzyCandidates.prepare payload reference).payload[q]? = some id ∧
        (((state.edges ++ more).drop start).take (finish - start)).map Edge.reference =
          matchRow (matchRel (.fuzzy policy) payload reference) reference.length q := by
    intro more id start finish hspan
    obtain ⟨hle, hlen, q, hq, hmap⟩ := h.rows id start finish hspan
    refine ⟨hle, by rw [length_append]; omega, q, hq, ?_⟩
    rw [span_append hle hlen, hmap]
  rw [fuzzyRow] at hrow
  cases hspan : state.rows id with
  | some span =>
    obtain ⟨start, finish⟩ := span
    rw [hspan] at hrow
    simp only at hrow
    split_ifs at hrow
    rw [Except.ok.injEq] at hrow
    obtain ⟨_, _, q, hq, hmap⟩ := h.rows id start finish hspan
    have hrowp : ((state.edges.drop start).take (finish - start)).map (fun e => Edge.mk p e.reference) =
        (matchRow (matchRel (.fuzzy policy) payload reference) reference.length p).map fun r => ⟨p, r⟩ := by
      rw [matchRow_of_id hid hq, ← hmap, map_map]
      rfl
    rw [← hrow]
    refine ⟨?_, hspans _⟩
    rw [matchEdges_succ, ← h.edges, hrowp]
  | none =>
    rw [hspan] at hrow
    simp only at hrow
    split_ifs at hrow
    rw [Except.ok.injEq, observed_row hid] at hrow
    rw [← hrow]
    refine ⟨by rw [matchEdges_succ, ← h.edges], ?_⟩
    intro id' start finish hspan'
    by_cases hsame : id' = id
    · subst hsame
      simp only [Function.update_self, Option.some.injEq, Prod.mk.injEq] at hspan'
      obtain ⟨rfl, rfl⟩ := hspan'
      refine ⟨by simp, le_refl _, p, hid, ?_⟩
      simp [Function.comp_def]
    · simp only [Function.update_of_ne hsame] at hspan'
      exact hspans _ id' start finish hspan'

theorem fuzzyRows_before (rest : List ℕ) : ∀ {p : ℕ} {state state' : FuzzyRows},
    RowsBefore policy payload reference p state →
    (FuzzyCandidates.prepare payload reference).payload.drop p = rest →
    fuzzyRows policy (FuzzyCandidates.prepare payload reference) edgeLimit p rest state = .ok state' →
    RowsBefore policy payload reference (p + rest.length) state' := by
  induction rest with
  | nil =>
    intro p state state' h _ hrun
    rw [fuzzyRows, Except.ok.injEq] at hrun
    rw [← hrun]
    exact h
  | cons id rest ih =>
    intro p state state' h hdrop hrun
    have hid : (FuzzyCandidates.prepare payload reference).payload[p]? = some id := by
      rw [← head?_drop, hdrop]
      rfl
    rw [fuzzyRows] at hrun
    split at hrun
    · simp at hrun
    · next next hrow =>
      have hnext := ih (fuzzyRow_before h hid hrow) (by rw [← drop_drop, hdrop]; rfl) hrun
      rw [length_cons, show p + (rest.length + 1) = p + 1 + rest.length by omega]
      exact hnext

theorem finish_eq {edges : List Edge}
    (h : (FuzzyCandidates.prepare payload reference).finish policy edgeLimit = .ok edges) :
    edges = matchEdges (matchRel (.fuzzy policy) payload reference) payload.length reference.length := by
  rw [FuzzyCandidates.finish] at h
  split at h
  · simp at h
  · next state hrun =>
    rw [Except.ok.injEq] at h
    have hstart : RowsBefore policy payload reference 0 ⟨[], fun _ => none⟩ := ⟨rfl, by simp⟩
    have hlen : (FuzzyCandidates.prepare payload reference).payload.length = payload.length :=
      (internPayload_spec payload []).2.1
    have hend := (fuzzyRows_before _ hstart drop_zero hrun).edges
    rw [zero_add, hlen] at hend
    rw [← h, hend]

end Fuzzy

theorem admitControlled_common {mode : MatchMode} (h : admitControlled payload reference mode edgeLimit = .complete pairs) :
    ExactCommon (matchRel mode payload reference) payload.length reference.length pairs := by
  cases mode with
  | exact =>
    exact admitLiteral_exact h
  | caseInsensitive =>
    exact admitLiteral_exact h
  | fuzzy policy =>
    rw [admitControlled] at h
    split at h
    · simp at h
    · next edges hfinish =>
      rw [CorrespondenceAdmission.complete.injEq, finish_eq hfinish] at h
      rw [← h]
      exact certifySparse_exact _ _ _

/-- A completed correspondence lists in increasing order exactly the pairs that every longest chain contains,
  by either route. -/
theorem admitControlled_exact {payload reference : List String} {mode : MatchMode} {edgeLimit : ℕ}
    {pairs : List (ℕ × ℕ)} (h : admitControlled payload reference mode edgeLimit = .complete pairs) :
    pairs.Pairwise Before ∧ ∀ q, q ∈ pairs ↔
      ∀ c, IsOptimal (matchRel mode payload reference) payload.length reference.length c → q ∈ c :=
  ⟨(admitControlled_common h).increasing, (admitControlled_common h).mem⟩

/-- Ten repetitions on both sides, 98 edges allowed: the packed route, and only the diagonal is common. -/
theorem admitControlled_exact_packed :
    (admitControlled (List.replicate 10 "a") (List.replicate 10 "a") .exact 98 =
        .complete ((List.range 10).map fun i => (i, i)) ∧
      98 < (LiteralCandidates.observe (List.replicate 10 "a") (List.replicate 10 "a") .exact).rawEdges) ∧
      ∀ c, IsOptimal (matchRel .exact (List.replicate 10 "a") (List.replicate 10 "a")) 10 10 c →
        (3, 3) ∈ c := by
  have hrun : admitControlled (List.replicate 10 "a") (List.replicate 10 "a") .exact 98 =
      .complete ((List.range 10).map fun i => (i, i)) := by decide +kernel
  exact ⟨⟨hrun, by decide +kernel⟩, ((admitControlled_exact hrun).2 (3, 3)).mp (by decide)⟩

/-- The alignment that the edit script comes from matches every pair the search certifies. -/
theorem certified_pairs_aligned {payload reference : List String} {mode : MatchMode} {edgeLimit : ℕ}
    (hmode : mode.Symmetric) (h : admitControlled payload reference mode edgeLimit = .complete pairs) :
    ∀ q ∈ pairs, ∃ key, .matched key q.1 q.2 ∈ align payload reference mode := by
  intro q hq
  have hbest := align_words_best hmode payload reference
  have hrel : rel mode.alignable payload reference = matchRel mode payload reference := by
    funext i j
    unfold rel matchRel
    cases payload[i]? with
    | none => rfl
    | some source => cases reference[j]? with
      | none => rfl
      | some word => exact mode.alignable_symmetric hmode ..
  have hlongest := isOptimal_iff.mpr ⟨hbest.chain, hbest.most_matches⟩
  rw [hrel] at hlongest
  exact mem_matchedPairs.mp (((admitControlled_common h).mem q).mp hq _ hlongest)

theorem certified_pairs_aligned_one : ∃ key, .matched key 1 0 ∈ align ["a", "b"] ["b", "c"] .exact := by
  have hrun : admitControlled ["a", "b"] ["b", "c"] .exact 4 = .complete [(1, 0)] := by decide +kernel
  have hmode : MatchMode.exact.Symmetric := trivial
  exact certified_pairs_aligned hmode hrun (1, 0) (by decide)

/-- The limit, and with it the route, only decides whether a correspondence completes; with the sides
  swapped a symmetric comparison gives the swapped pairs. -/
theorem admitControlled_stable {payload reference : List String} {mode : MatchMode} {edgeLimit : ℕ}
    (h : admitControlled payload reference mode edgeLimit = .complete pairs) :
    (∀ limit again, admitControlled payload reference mode limit = .complete again → again = pairs) ∧
      (mode.Symmetric → ∀ limit swapped, admitControlled reference payload mode limit = .complete swapped →
        swapped = pairs.map Prod.swap) := by
  obtain ⟨hsorted, hmem⟩ := admitControlled_common h
  refine ⟨?_, ?_⟩
  · intro limit again hagain
    obtain ⟨hsorted', hmem'⟩ := admitControlled_common hagain
    exact eq_of_increasing hsorted' hsorted fun q => (hmem' q).trans (hmem q).symm
  · intro hmode limit swapped hswapped
    obtain ⟨hsorted', hmem'⟩ := admitControlled_common hswapped
    have hrel : matchRel mode reference payload = fun i j => matchRel mode payload reference j i := by
      funext i j
      unfold matchRel
      cases reference[i]? with
      | none => cases payload[j]? <;> rfl
      | some word => cases payload[j]? with
        | none => rfl
        | some source => exact mode.alignable_symmetric hmode ..
    rw [hrel] at hmem'
    apply eq_of_increasing hsorted'
    · rw [pairwise_map]
      exact hsorted.imp And.symm
    · intro q
      rw [hmem']
      refine ⟨fun hq => mem_map.mpr ⟨q.swap, (hmem _).mpr hq.swap, q.swap_swap⟩, ?_⟩
      intro hq
      obtain ⟨p, hp, rfl⟩ := mem_map.mp hq
      exact ((hmem p).mp hp).swap

theorem admitControlled_stable_one : ∃ swapped,
    admitControlled ["b", "c"] ["a", "b"] .exact 9 = .complete swapped ∧ swapped = [(1, 0)].map Prod.swap := by
  have hrun : admitControlled ["a", "b"] ["b", "c"] .exact 4 = .complete [(1, 0)] := by decide +kernel
  have hswapped : admitControlled ["b", "c"] ["a", "b"] .exact 9 = .complete [(0, 1)] := by decide +kernel
  exact ⟨_, hswapped, (admitControlled_stable hrun).2 trivial 9 _ hswapped⟩

/-! ## Refusals -/

section Refused
variable {n : ℕ}

theorem pushEdges_error (rest : List Edge) : ∀ {edges : List Edge}, edges.length ≤ edgeLimit →
    edgeLimit < edges.length + rest.length → pushEdges edgeLimit edges rest = .error ⟨edgeLimit⟩ := by
  induction rest with
  | nil =>
    intro edges hle hlt
    rw [length_nil] at hlt
    omega
  | cons e rest ih =>
    intro edges hle hlt
    rw [length_cons] at hlt
    unfold pushEdges
    split_ifs with hfull
    · rfl
    · apply ih
      · rw [length_append, length_singleton]
        omega
      · rw [length_append, length_singleton]
        omega

theorem le_saturatingAdd_right (a : ℕ) {b : ℕ} (hb : b ≤ usizeMax) : b ≤ saturatingAdd a b :=
  le_min (Nat.le_add_left b a) hb

theorem le_saturatingAdd_left {a : ℕ} (b : ℕ) (ha : a ≤ usizeMax) : a ≤ saturatingAdd a b :=
  le_min (Nat.le_add_right a b) ha

theorem admitStorage_eq_none {input : LiteralCandidates}
    (hlong : edgeLimit * edgePayloadWords < input.reference.length * 32)
    (hsmall : edgeLimit * edgePayloadWords < usizeMax) : admitStorage input edgeLimit = none := by
  have hcolumns : edgeLimit * edgePayloadWords < saturatingMul input.reference.length 32 := lt_min hlong hsmall
  have hmul : saturatingMul edgeLimit edgePayloadWords ≤ edgeLimit * edgePayloadWords := min_le_left ..
  have hmax : saturatingMul input.reference.length 32 ≤ usizeMax := min_le_right ..
  apply if_neg
  intro hfits
  have hstored : ∀ rows ranks, saturatingMul input.reference.length 32 ≤
      saturatingAdd (saturatingAdd rows (saturatingMul input.reference.length 32)) ranks :=
    fun rows ranks => (le_saturatingAdd_right rows hmax).trans (le_saturatingAdd_left ranks (min_le_right ..))
  exact absurd ((hstored _ _).trans (hfits.trans hmul)) (Nat.not_le.mpr hcolumns)

theorem length_literalEdges_replicate (n : ℕ) :
    (literalEdges (LiteralCandidates.observe (replicate n "a") (replicate n "a")
      .asciiInsensitive)).length = n * n := by
  rw [literalEdges_eq, length_replicate]
  unfold matchEdges
  have hrow : ∀ p ∈ range n, ((matchRow (literalRel .asciiInsensitive (replicate n "a")
      (replicate n "a")) n p).map fun r => (⟨p, r⟩ : Edge)).length = n := by
    intro p hp
    have hall : matchRow (literalRel .asciiInsensitive (replicate n "a") (replicate n "a")) n p =
        range n := by
      apply filter_eq_self.mpr
      intro r hr
      unfold literalRel
      rw [getElem?_replicate, if_pos (mem_range.mp hp), getElem?_replicate,
        if_pos (mem_range.mp hr)]
      exact beq_self_eq_true _
    rw [length_map, hall, length_range]
  rw [length_flatMap, map_congr_left hrow, map_const', length_range, sum_replicate, smul_eq_mul]

theorem observe_replicate_refused (hn : 131072 < n) :
    CorrespondenceAdmission.observe (replicate n "a") (replicate n "a") .caseInsensitive =
      .budgetExhausted ⟨maxEdges⟩ := by
  have hstorage : admitStorage (LiteralCandidates.observe (replicate n "a") (replicate n "a")
      .asciiInsensitive) maxEdges = none := by
    apply admitStorage_eq_none
    · show maxEdges * edgePayloadWords < (replicate n "a").length * 32
      rw [length_replicate]
      unfold maxEdges edgePayloadWords
      omega
    · unfold maxEdges edgePayloadWords usizeMax
      omega
  have hpush : pushEdges maxEdges [] (literalEdges (LiteralCandidates.observe (replicate n "a")
      (replicate n "a") .asciiInsensitive)) = .error ⟨maxEdges⟩ := by
    apply pushEdges_error _ (Nat.zero_le _)
    rw [length_nil, zero_add, length_literalEdges_replicate]
    calc maxEdges < 131072 * 131072 := by unfold maxEdges; omega
      _ ≤ n * n := Nat.mul_le_mul hn.le hn.le
  show admitLiteral _ _ .asciiInsensitive maxEdges = _
  unfold admitLiteral
  simp [hstorage, hpush]

end Refused

end Batchalign.DpAlign
