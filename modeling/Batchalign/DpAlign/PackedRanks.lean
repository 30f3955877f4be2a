import Batchalign.DpAlign.SparseRanks

/- The packed route is exact (`correspondence/literal.rs`). -/
namespace Batchalign.DpAlign
open Chain List

def literalRel (mode : LiteralMatchMode) (payload reference : List String) : ℕ → ℕ → Bool := fun i j =>
  match payload[i]?, reference[j]? with
  | some p, some r => mode.matchesWords p r
  | _, _ => false

/-! ## Rows -/

def rowAfter (owner : LiteralReference) (words : List String) : List (BitVec 64) :=
  words.foldl owner.extend owner.start

def ReferenceOrder.columns (order : ReferenceOrder) (reference : List String) : List String :=
  match order with
  | .forward => reference
  | .reverse => reference.reverse

section Rows
variable {reference : List String} {mode : LiteralMatchMode} {order : ReferenceOrder}

theorem ReferenceOrder.column_eq (order : ReferenceOrder) (reference : List String) (j : ℕ) :
    order.column reference j = (order.columns reference)[j]? := by
  cases order with
  | forward => rfl
  | reverse =>
    simp only [ReferenceOrder.column, ReferenceOrder.columns]
    split_ifs with hj
    · rw [getElem?_reverse hj]
    · rw [getElem?_eq_none (by rw [length_reverse]; omega)]

theorem ReferenceOrder.length_columns (order : ReferenceOrder) (reference : List String) :
    (order.columns reference).length = reference.length := by
  cases order with
  | forward => rfl
  | reverse => exact length_reverse

theorem literalRel_eq {words columns : List String} {i j : ℕ} {word : String} (hw : words[i]? = some word) :
    literalRel mode words columns i j =
      decide (j < columns.length ∧ (columns[j]?).map (fun r => key r mode) = some (key word mode)) := by
  rw [literalRel, hw]
  cases hr : columns[j]? with
  | none => simp
  | some r =>
    have hlt : j < columns.length := (List.getElem?_eq_some_iff.mp hr).1
    rw [Bool.eq_iff_iff, matchesWords_iff_key]
    simp [hlt, eq_comm]

theorem lcs_literalRel_flat {words columns : List String} {i j : ℕ} (hj : columns.length ≤ j) :
    lcs (literalRel mode words columns) i j = lcs (literalRel mode words columns) i columns.length := by
  apply le_antisymm _ (lcs_mono (le_refl i) hj)
  obtain ⟨c, hc, hlen⟩ := exists_chain (literalRel mode words columns) i j
  rw [← hlen]
  apply chain_le_lcs
  refine ⟨hc.increasing, hc.matching, ?_⟩
  intro p hp
  refine ⟨(hc.inside p hp).1, ?_⟩
  by_contra hge
  have hM := hc.matching p hp
  rw [literalRel, getElem?_eq_none (by omega : columns.length ≤ p.2)] at hM
  cases words[p.1]? <;> simp at hM

@[simp] theorem length_rowAfter (words : List String) :
    (rowAfter (LiteralReference.observe reference mode order) words).length =
      (reference.length + 63) / 64 := by
  have hfold : ∀ (words : List String) (bits : List (BitVec 64)),
      (words.foldl (LiteralReference.observe reference mode order).extend bits).length = bits.length := by
    intro words
    induction words with
    | nil => intro bits; rfl
    | cons w words ih =>
      intro bits
      rw [foldl_cons, ih]
      exact length_extendSparse bits _
  rw [rowAfter, hfold]
  simp [LiteralReference.start, LiteralReference.observe]

theorem rowAfter_concat (owner : LiteralReference) (words : List String) (w : String) :
    rowAfter owner (words ++ [w]) = owner.extend (rowAfter owner words) w := by
  rw [rowAfter, foldl_append]
  rfl

theorem rowAfter_packs (words : List String) : ∀ k ≤ words.length,
    Packs (rowAfter (LiteralReference.observe reference mode order) (words.take k))
      (lcs (literalRel mode words (order.columns reference)) k) := by
  intro k
  induction k with
  | zero =>
    intro _
    exact start_packs _
  | succ k ih =>
    intro hk
    have hw : words[k]? = some words[k] := getElem?_eq_getElem (by omega)
    rw [take_add_one, hw]
    change Packs (rowAfter _ (words.take k ++ [words[k]])) _
    rw [rowAfter_concat]
    apply extend_packs _ (ih (by omega))
    intro j
    rw [literalRel_eq hw, order.length_columns, order.column_eq]

theorem rowAfter_before {words : List String} {k r : ℕ} (hk : k ≤ words.length)
    (hr : r ≤ reference.length) : (prefixes reference.length
      (rowAfter (LiteralReference.observe reference mode order) (words.take k))).before r =
        lcs (literalRel mode words (order.columns reference)) k r := by
  have hlen : reference.length ≤ 64 * ((reference.length + 63) / 64) := by omega
  apply prefixes_before (rowAfter_packs words k hk) (by simp) (by rw [length_rowAfter]; exact hlen) _ hr
  rw [length_rowAfter, lcs_literalRel_flat (by rw [order.length_columns]; exact hlen),
    order.length_columns]

theorem rowAfter_score (words : List String) :
    score (rowAfter (LiteralReference.observe reference mode order) words) =
      lcs (literalRel mode words (order.columns reference)) words.length reference.length := by
  have hlen : reference.length ≤ 64 * ((reference.length + 63) / 64) := by omega
  have h := score_packs (@rowAfter_packs reference mode order words words.length (le_refl _))
  rw [take_length, length_rowAfter, lcs_literalRel_flat (by rw [order.length_columns]; exact hlen),
    order.length_columns] at h
  simpa using h.symm

end Rows

/-! ## Checkpoints -/

section Checkpoints
variable {owner : LiteralReference} {stride : ℕ}

theorem forwardRows_spec (words : List String) : ∀ before : List String,
    forwardRows owner stride before.length (rowAfter owner before) words =
      (rowAfter owner (before ++ words),
        ((range' (before.length + 1) words.length).filter fun k => k % stride = 0).map
          fun k => rowAfter owner ((before ++ words).take k)) := by
  induction words with
  | nil =>
    simp [forwardRows]
  | cons w words ih =>
    intro before
    have hrec := ih (before ++ [w])
    rw [length_append, length_singleton, rowAfter_concat, append_assoc, singleton_append] at hrec
    rw [forwardRows]
    simp only [hrec]
    have htake : (before ++ w :: words).take (before.length + 1) = before ++ [w] := by
      rw [take_append]
      simp
    rw [length_cons, range'_succ, filter_cons]
    split_ifs with h1 h2 h2
    · rw [map_cons, htake, rowAfter_concat]
    · exact absurd (decide_eq_true h1) h2
    · exact absurd (of_decide_eq_true h2) h1
    · rfl

theorem filter_range_stride (m : ℕ) : (range (m + 1)).filter (fun k => k % stride = 0) =
      (range (m / stride + 1)).map fun c => c * stride := by
  induction m with
  | zero =>
    simp [range_succ, Nat.zero_div]
  | succ m ih =>
    rw [range_succ, filter_append, ih, Nat.succ_div]
    by_cases hdvd : stride ∣ m + 1
    · have hmod : (m + 1) % stride = 0 := Nat.mod_eq_zero_of_dvd hdvd
      have hmul : (m / stride + 1) * stride = m + 1 := by
        have hdiv : (m + 1) / stride = m / stride + 1 := by rw [Nat.succ_div, if_pos hdvd]
        rw [← hdiv]
        exact Nat.div_mul_cancel hdvd
      rw [if_pos hdvd, range_succ (n := m / stride + 1), map_append]
      simp [hmod, hmul]
    · have hmod : (m + 1) % stride ≠ 0 := fun h => hdvd (Nat.dvd_of_mod_eq_zero h)
      rw [if_neg hdvd]
      simp [hmod]

theorem checkpoints_get {payload : List String} {c : ℕ} (hc : c ≤ payload.length / stride) :
    (owner.start :: (forwardRows owner stride 0 owner.start payload).2).getD c [] =
      rowAfter owner (payload.take (c * stride)) := by
  have hrows := @forwardRows_spec owner stride payload []
  simp only [length_nil, nil_append, zero_add] at hrows
  have hall : owner.start :: (forwardRows owner stride 0 owner.start payload).2 =
      ((range (payload.length + 1)).filter fun k => k % stride = 0).map
        fun k => rowAfter owner (payload.take k) := by
    rw [range_eq_range', range'_succ, filter_cons, if_pos (by simp), map_cons]
    change _ :: (forwardRows owner stride 0 (rowAfter owner []) payload).2 = _
    rw [hrows]
    rfl
  rw [hall, filter_range_stride, map_map, getD_eq_getElem?_getD, getElem?_map,
    getElem?_range (by omega)]
  rfl

theorem reconstruct_eq (words : List String) : ∀ before : List String,
    reconstruct owner (rowAfter owner before) words = (range words.length).map fun i =>
      prefixes owner.reference.length (rowAfter owner (before ++ words.take i)) := by
  induction words with
  | nil => intro before; rfl
  | cons w words ih =>
    intro before
    rw [reconstruct, ← rowAfter_concat, ih, length_cons, range_succ_eq_map, map_cons, map_map]
    congr 1
    · simp
    · simp

end Checkpoints

/-! ## The walk over the payload -/

def walkEntry (owner : LiteralReference) (payload : List String) (p : ℕ) : ℕ × String × PrefixScores :=
  (p, payload.getD p "", prefixes owner.reference.length (rowAfter owner (payload.take p)))

section Walk
variable {input : LiteralCandidates} {reverse owner : LiteralReference} {edgeLimit optimum stride : ℕ}

theorem observeBlock_append (first second : List (ℕ × String × PrefixScores)) :
    ∀ (backward : List (BitVec 64)) (state : EdgeCount),
      observeBlock input reverse edgeLimit optimum (first ++ second) backward state =
        match observeBlock input reverse edgeLimit optimum first backward state with
        | none => none
        | some (backward', state') =>
          observeBlock input reverse edgeLimit optimum second backward' state' := by
  induction first with
  | nil => intro backward state; rfl
  | cons x first ih =>
    intro backward state
    obtain ⟨p, word, before⟩ := x
    rw [cons_append, observeBlock, observeBlock]
    cases observeReferences edgeLimit optimum input.reference.length before
      (prefixes input.reference.length backward) p (input.references p) state with
    | none => rfl
    | some state' => exact ih _ _

theorem block_eq {start finish : ℕ} (hfinish : finish < input.payload.length) (hstart : start ≤ finish)
    (hcheck : ∃ c, start = c * stride) : (range' start (finish + 1 - start)).zip
      (((input.payload.drop start).take (finish + 1 - start)).zip (reconstruct owner
          ((owner.start :: (forwardRows owner stride 0 owner.start input.payload).2).getD (start / stride) [])
          ((input.payload.drop start).take (finish + 1 - start)))) =
      (range' start (finish + 1 - start)).map (walkEntry owner input.payload) := by
  obtain ⟨c, rfl⟩ := hcheck
  have hpoint : (owner.start :: (forwardRows owner stride 0 owner.start input.payload).2).getD
      (c * stride / stride) [] = rowAfter owner (input.payload.take (c * stride)) := by
    rcases Nat.eq_zero_or_pos stride with rfl | hpos
    · rw [Nat.mul_zero, Nat.div_zero]
      rfl
    · rw [Nat.mul_div_cancel c hpos]
      apply checkpoints_get
      rw [Nat.le_div_iff_mul_le hpos]
      omega
  rw [hpoint, reconstruct_eq]
  apply ext_getElem?
  intro i
  have hwords : ((input.payload.drop (c * stride)).take (finish + 1 - c * stride)).length =
      finish + 1 - c * stride := by
    rw [length_take, length_drop]
    omega
  by_cases hi : i < finish + 1 - c * stride
  · have hget : input.payload[c * stride + i]? = some input.payload[c * stride + i] :=
      getElem?_eq_getElem (by omega)
    have htake : input.payload.take (c * stride) ++
        ((input.payload.drop (c * stride)).take (finish + 1 - c * stride)).take i =
        input.payload.take (c * stride + i) := by
      rw [take_take, min_eq_left (by omega), take_add]
    have hentry : ((range' (c * stride) (finish + 1 - c * stride)).zip
        (((input.payload.drop (c * stride)).take (finish + 1 - c * stride)).zip
          ((range ((input.payload.drop (c * stride)).take (finish + 1 - c * stride)).length).map
            fun i => prefixes owner.reference.length (rowAfter owner (input.payload.take (c * stride) ++
              ((input.payload.drop (c * stride)).take (finish + 1 - c * stride)).take i)))))[i]? =
        some (walkEntry owner input.payload (c * stride + i)) := by
      apply getElem?_zip_eq_some.mpr
      refine ⟨by rw [getElem?_range' (by omega)]; simp [walkEntry], getElem?_zip_eq_some.mpr ⟨?_, ?_⟩⟩
      · rw [getElem?_take_of_lt hi, getElem?_drop, hget]
        simp [walkEntry, hget]
      · rw [getElem?_map, hwords, getElem?_range hi, Option.map_some, htake]
        rfl
    rw [hentry, getElem?_map, getElem?_range' (by omega)]
    simp
  · rw [getElem?_eq_none (by rw [length_zip, length_range']; omega),
      getElem?_eq_none (by rw [length_map, length_range']; omega)]

theorem observeBlocks_eq : ∀ (fuel finish : ℕ) (backward : List (BitVec 64)) (state : EdgeCount),
    finish ≤ fuel → finish ≤ input.payload.length → observeBlocks input reverse edgeLimit optimum owner
        (owner.start :: (forwardRows owner stride 0 owner.start input.payload).2) stride fuel finish
        backward state = (observeBlock input reverse edgeLimit optimum
        ((range finish).reverse.map (walkEntry owner input.payload)) backward state).map Prod.snd := by
  intro fuel
  induction fuel with
  | zero =>
    intro finish backward state hfuel _
    obtain rfl : finish = 0 := by omega
    rfl
  | succ fuel ih =>
    intro finish backward state hfuel hlen
    cases finish with
    | zero => rfl
    | succ finish =>
      have hstart : finish / stride * stride ≤ finish := Nat.div_mul_le_self finish stride
      have hrange : range (finish + 1) = range (finish / stride * stride) ++
          range' (finish / stride * stride) (finish + 1 - finish / stride * stride) := by
        have happend := @range'_append_1 0 (finish / stride * stride)
          (finish + 1 - finish / stride * stride)
        rw [zero_add, Nat.add_sub_cancel' (by omega)] at happend
        rw [range_eq_range', range_eq_range', happend]
      rw [observeBlocks]
      rw [block_eq (by omega) hstart ⟨finish / stride, rfl⟩, hrange, reverse_append,
        map_append, observeBlock_append, ← map_reverse]
      cases observeBlock input reverse edgeLimit optimum
        ((range' (finish / stride * stride) (finish + 1 - finish / stride * stride)).reverse.map
          (walkEntry owner input.payload)) backward state with
      | none => rfl
      | some next => exact ih _ next.1 next.2 (by omega) (by omega)

end Walk

/-! ## Literal postings -/

theorem postingsOf_eq (reference : List String) (mode : LiteralMatchMode) (k : String) : ∀ J ≤ reference.length,
    postingsOf reference mode J k =
      (range J).filter fun j => (reference[j]?).map (fun word => key word mode) = some k := by
  intro J
  induction J with
  | zero => intro _; rfl
  | succ J ih =>
    intro hJ
    have hword : reference[J]? = some reference[J] := getElem?_eq_getElem (by omega)
    rw [postingsOf, hword, range_succ, filter_append, ← ih (by omega)]
    simp only
    by_cases hkey : key reference[J] mode = k
    · subst hkey
      rw [Function.update_self, filter_singleton, hword]
      simp
    · rw [Function.update_of_ne (Ne.symm hkey), filter_singleton, hword]
      simp [hkey]

theorem observe_references (payload reference : List String) (mode : LiteralMatchMode) {p : ℕ}
    (hp : p < payload.length) : (LiteralCandidates.observe payload reference mode).references p =
      (range reference.length).filter fun r => literalRel mode payload reference p r := by
  have hword : payload[p]? = some payload[p] := getElem?_eq_getElem hp
  simp only [LiteralCandidates.references, LiteralCandidates.observe, hword]
  rw [postingsOf_eq reference mode _ _ (le_refl _)]
  apply filter_congr
  intro r hr
  rw [literalRel_eq hword]
  simp [mem_range.mp hr]

/-! ## Observed edges -/

def observeEdge (rank : ℕ × ℕ → ℕ) (pops : List RankPopulation) (e : ℕ × ℕ) : List RankPopulation :=
  pops.modify (rank e) fun pop => pop.observe e.1 e.2

theorem foldl_observeEdge_get (rank : ℕ × ℕ → ℕ) (edges : List (ℕ × ℕ)) (k : ℕ) : ∀ pops : List RankPopulation,
    (edges.foldl (observeEdge rank) pops)[k]? = (pops[k]?).map fun pop =>
      (edges.filter fun e => rank e = k).foldl (fun pop e => pop.observe e.1 e.2) pop := by
  induction edges with
  | nil => simp
  | cons e edges ih =>
    intro pops
    rw [foldl_cons, ih, observeEdge, getElem?_modify, filter_cons]
    by_cases hk : rank e = k
    · cases pops[k]? <;> simp [hk]
    · cases pops[k]? <;> simp [hk]

theorem sole_foldl_observe (edges : List (ℕ × ℕ)) (q : ℕ × ℕ) :
    (edges.foldl (fun pop e => pop.observe e.1 e.2) RankPopulation.empty).sole? = some q ↔ edges = [q] := by
  have hcompeting : ∀ edges : List (ℕ × ℕ),
      edges.foldl (fun pop e => pop.observe e.1 e.2) RankPopulation.competing = .competing := by
    intro edges
    induction edges with
    | nil => rfl
    | cons e edges ih => exact ih
  match edges with
  | [] => simp [RankPopulation.sole?]
  | [e] => simp [RankPopulation.observe, RankPopulation.sole?]
  | e :: d :: edges =>
    change (edges.foldl (fun pop e => pop.observe e.1 e.2) RankPopulation.competing).sole? = some q ↔ _
    rw [hcompeting]
    simp [RankPopulation.sole?]

section Observe
variable {edgeLimit optimum n p : ℕ} {before suffix : PrefixScores} {rank : ℕ × ℕ → ℕ} {on : ℕ × ℕ → Bool}

theorem observeReferences_spec (references : List ℕ)
    (hrank : ∀ r ∈ references, before.before r + 1 = rank (p, r))
    (hon : ∀ r ∈ references, before.before r + 1 + suffix.before (n - r - 1) = optimum ↔ on (p, r) = true) :
    ∀ {state state' : EdgeCount},
      observeReferences edgeLimit optimum n before suffix p references state = some state' →
      state'.populations = ((references.map fun r => (p, r)).filter on).foldl (observeEdge rank)
        state.populations := by
  induction references with
  | nil =>
    intro state state' h
    rw [observeReferences, Option.some.injEq] at h
    rw [h]
    rfl
  | cons r references ih =>
    intro state state' h
    have ih' := @ih (fun r hr => hrank r (mem_cons_of_mem _ hr))
      (fun r hr => hon r (mem_cons_of_mem _ hr))
    have honr := hon r (by simp)
    rw [observeReferences] at h
    split_ifs at h with hopt hfull
    · rw [map_cons, filter_cons_of_pos (honr.mp hopt), foldl_cons, ih' h, observeEdge,
        hrank r (by simp)]
    · rw [map_cons, filter_cons_of_neg (fun h => hopt (honr.mpr h)), ih' h]

end Observe

section Certify
variable {payload reference : List String} {mode : LiteralMatchMode} {edgeLimit stride : ℕ}

def edgeRank (M : ℕ → ℕ → Bool) (e : ℕ × ℕ) : ℕ := lcs M e.1 e.2 + 1

def onOptimal (M : ℕ → ℕ → Bool) (m n : ℕ) (e : ℕ × ℕ) : Bool :=
  decide (lcs M e.1 e.2 + 1 + after M m n e.1 e.2 = lcs M m n)

/-- The edges the walk over the first `k` payload words counts, last word first. -/
def walkEdges (mode : LiteralMatchMode) (payload reference : List String) (k : ℕ) : List (ℕ × ℕ) :=
  (List.range k).reverse.flatMap fun p =>
    ((((List.range reference.length).filter fun r => literalRel mode payload reference p r).map
      fun r => (p, r)).filter
        (onOptimal (literalRel mode payload reference) payload.length reference.length))

theorem after_literalRel {p r : ℕ} (hp : p < payload.length) (hr : r < reference.length) :
    after (literalRel mode payload reference) payload.length reference.length p r =
      lcs (literalRel mode payload.reverse reference.reverse) (payload.length - 1 - p)
        (reference.length - 1 - r) := by
  rw [after_eq_mirror hp hr]
  apply lcs_congr
  intro a ha b hb
  rw [mirror, literalRel, literalRel, getElem?_reverse (by omega), getElem?_reverse (by omega)]

theorem observeBlock_walk : ∀ (k : ℕ), k ≤ payload.length →
    ∀ {backward' : List (BitVec 64)} {state state' : EdgeCount},
      observeBlock (LiteralCandidates.observe payload reference mode)
        (LiteralReference.observe reference mode .reverse) edgeLimit
        (lcs (literalRel mode payload reference) payload.length reference.length)
        ((range k).reverse.map (walkEntry (LiteralReference.observe reference mode .forward) payload))
        (rowAfter (LiteralReference.observe reference mode .reverse) (payload.reverse.take (payload.length - k)))
        state = some (backward', state') → state'.populations = (walkEdges mode payload reference k).foldl
        (observeEdge (edgeRank (literalRel mode payload reference))) state.populations := by
  intro k
  induction k with
  | zero =>
    intro _ backward' state state' h
    rw [range_zero, reverse_nil, map_nil, observeBlock, Option.some.injEq] at h
    rw [← (Prod.mk.inj h).2]
    rfl
  | succ p ih =>
    intro hp backward' state state' h
    have hword : payload[p]? = some payload[p] := getElem?_eq_getElem (by omega)
    rw [range_succ, reverse_append, reverse_singleton, singleton_append, map_cons,
      walkEntry, observeBlock] at h
    -- the row of the suffixes after word `p` becomes the one from word `p` on
    have hextend : (LiteralReference.observe reference mode .reverse).extend
        (rowAfter (LiteralReference.observe reference mode .reverse)
          (payload.reverse.take (payload.length - (p + 1)))) (payload.getD p "") =
        rowAfter (LiteralReference.observe reference mode .reverse)
          (payload.reverse.take (payload.length - p)) := by
      rw [← rowAfter_concat, show payload.length - p = payload.length - (p + 1) + 1 by omega,
        take_add_one, getElem?_reverse (by omega),
        show payload.length - 1 - (payload.length - (p + 1)) = p by omega, hword]
      simp [hword]
    split at h
    · simp at h
    · next next hrefs =>
      rw [hextend] at h
      have hstep := @observeReferences_spec edgeLimit _ reference.length p _ _
        (edgeRank (literalRel mode payload reference))
        (onOptimal (literalRel mode payload reference) payload.length reference.length) _ ?_ ?_ _ _ hrefs
      · rw [ih (by omega) h, hstep, observe_references payload reference mode (by omega), ← foldl_append,
          walkEdges, walkEdges, range_succ, reverse_append, reverse_singleton,
          singleton_append, flatMap_cons]
      · intro r hr
        rw [observe_references payload reference mode (by omega)] at hr
        have hlt := mem_range.mp (mem_filter.mp hr).1
        congr 1
        exact @rowAfter_before reference mode .forward payload p r (by omega) (by omega)
      · intro r hr
        rw [observe_references payload reference mode (by omega)] at hr
        have hlt := mem_range.mp (mem_filter.mp hr).1
        have hbefore := @rowAfter_before reference mode .forward payload p r (by omega) (by omega)
        have hafter := @rowAfter_before reference mode .reverse payload.reverse (payload.length - (p + 1))
          (reference.length - r - 1) (by rw [length_reverse]; omega) (by omega)
        change (prefixes reference.length _).before r + 1 + (prefixes reference.length _).before _ = _ ↔ _
        rw [hbefore, hafter, onOptimal, decide_eq_true_eq, after_literalRel (by omega) hlt,
          show payload.length - (p + 1) = payload.length - 1 - p by omega,
          show reference.length - r - 1 = reference.length - 1 - r by omega]
        rfl

theorem mem_walkEdges {e : ℕ × ℕ} : e ∈ walkEdges mode payload reference payload.length ↔
    OnOptimal (literalRel mode payload reference) payload.length reference.length e := by
  simp only [walkEdges, mem_flatMap, mem_reverse, mem_range, mem_filter, mem_map,
    onOptimal, decide_eq_true_eq]
  refine ⟨?_, ?_⟩
  · intro h
    obtain ⟨p, hp, ⟨r, ⟨hr, hM⟩, rfl⟩, hthrough⟩ := h
    exact ⟨hM, ⟨hp, hr⟩, hthrough⟩
  · intro h
    exact ⟨e.1, h.inside.1, ⟨e.2, ⟨h.inside.2, h.matching⟩, rfl⟩, h.through⟩

theorem walkEdges_nodup (k : ℕ) : (walkEdges mode payload reference k).Nodup := by
  rw [walkEdges, nodup_flatMap]
  refine ⟨?_, ?_⟩
  · intro p _
    apply Nodup.filter
    apply Nodup.map
    · intro a b hab
      exact (Prod.mk.inj hab).2
    · exact nodup_range.filter _
  · rw [pairwise_reverse]
    apply nodup_range.imp
    intro p q hpq e hq hp
    obtain ⟨_, _, rfl⟩ := mem_map.mp (mem_filter.mp hp).1
    obtain ⟨_, _, heq⟩ := mem_map.mp (mem_filter.mp hq).1
    exact hpq (Prod.mk.inj heq).1.symm

theorem sole_population_iff {k : ℕ} {q : ℕ × ℕ} :
    (∃ pop, ((walkEdges mode payload reference payload.length).foldl
        (observeEdge (edgeRank (literalRel mode payload reference))) (replicate
          (lcs (literalRel mode payload reference) payload.length reference.length + 1) .empty))[k]? =
        some pop ∧ pop.sole? = some q) ↔
      Common (literalRel mode payload reference) payload.length reference.length q ∧
        edgeRank (literalRel mode payload reference) q = k := by
  have hmem := @mem_walkEdges payload reference mode
  rw [foldl_observeEdge_get, getElem?_replicate]
  refine ⟨?_, ?_⟩
  · intro h
    obtain ⟨pop, hpop, hsole⟩ := h
    split_ifs at hpop
    · rw [Option.map_some, Option.some.injEq] at hpop
      rw [← hpop, sole_foldl_observe] at hsole
      have hq : q ∈ (walkEdges mode payload reference payload.length).filter
          (fun e => edgeRank (literalRel mode payload reference) e = k) := by
        rw [hsole]
        exact mem_singleton_self q
      obtain ⟨hqmem, hqrank⟩ := mem_filter.mp hq
      have hrank := of_decide_eq_true hqrank
      refine ⟨common_iff.mpr ⟨hmem.mp hqmem, ?_⟩, hrank⟩
      intro d hd hsame
      have hdmem : d ∈ (walkEdges mode payload reference payload.length).filter
          (fun e => edgeRank (literalRel mode payload reference) e = k) := by
        apply mem_filter.mpr
        refine ⟨hmem.mpr hd, ?_⟩
        rw [← hrank, decide_eq_true_eq, edgeRank, edgeRank, hsame]
      rw [hsole] at hdmem
      exact mem_singleton.mp hdmem
    · simp at hpop
  · intro h
    obtain ⟨hcommon, hrank⟩ := h
    obtain ⟨hon, honly⟩ := common_iff.mp hcommon
    have hle : k < lcs (literalRel mode payload reference) payload.length reference.length + 1 := by
      have := hon.through
      rw [edgeRank] at hrank
      omega
    rw [if_pos hle, Option.map_some]
    refine ⟨_, rfl, (sole_foldl_observe _ _).mpr ?_⟩
    have hcount := (countP_eq_one_iff (walkEdges_nodup payload.length) (hmem.mpr hon)
      (p := fun e => decide (edgeRank (literalRel mode payload reference) e = k)) (by simpa using hrank)).mpr
    obtain ⟨x, hx⟩ := length_eq_one_iff.mp ((countP_eq_length_filter ..).symm.trans (hcount (by
      intro y hy hyrank
      apply honly y (hmem.mp hy)
      have hyk := of_decide_eq_true hyrank
      rw [edgeRank] at hyk hrank
      omega)))
    have hq : q ∈ (walkEdges mode payload reference payload.length).filter
        (fun e => edgeRank (literalRel mode payload reference) e = k) :=
      mem_filter.mpr ⟨hmem.mpr hon, decide_eq_true hrank⟩
    rw [hx] at hq ⊢
    rw [mem_singleton.mp hq]

theorem certifyPacked_complete {pairs : List (ℕ × ℕ)}
    (h : certifyPacked (LiteralCandidates.observe payload reference mode) stride edgeLimit = .complete pairs) :
    pairs = ((walkEdges mode payload reference payload.length).foldl
      (observeEdge (edgeRank (literalRel mode payload reference))) (replicate
        (lcs (literalRel mode payload reference) payload.length reference.length + 1)
          .empty)).filterMap RankPopulation.sole? := by
  have hscore : score (forwardRows (LiteralReference.observe reference mode .forward) stride 0
      (LiteralReference.observe reference mode .forward).start payload).1 =
      lcs (literalRel mode payload reference) payload.length reference.length := by
    have hrows := @forwardRows_spec (LiteralReference.observe reference mode .forward) stride payload []
    change score (forwardRows _ stride ([] : List String).length (rowAfter _ []) payload).1 = _
    rw [hrows]
    exact rowAfter_score payload
  -- the blocks are one walk over the payload
  have hblocks := @observeBlocks_eq (LiteralCandidates.observe payload reference mode)
    (LiteralReference.observe reference mode .reverse) (LiteralReference.observe reference mode .forward)
    edgeLimit (lcs (literalRel mode payload reference) payload.length reference.length) stride
    payload.length payload.length (LiteralReference.observe reference mode .reverse).start
    ⟨0, replicate (lcs (literalRel mode payload reference) payload.length reference.length + 1) .empty⟩
    (le_refl _) (le_refl _)
  rw [certifyPacked] at h
  simp only [LiteralCandidates.observe] at h hblocks
  rw [hscore, hblocks] at h
  split at h
  · simp at h
  · next state' hsome =>
    obtain ⟨next, hwalk, rfl⟩ := Option.map_eq_some_iff.mp hsome
    have hpops := @observeBlock_walk payload reference mode edgeLimit payload.length (le_refl _) next.1
      ⟨0, replicate (lcs (literalRel mode payload reference) payload.length reference.length + 1) .empty⟩
      next.2 (by rw [Nat.sub_self]; exact hwalk)
    rw [CorrespondenceAdmission.complete.injEq, hpops] at h
    exact h.symm

theorem certifyPacked_exact {pairs : List (ℕ × ℕ)}
    (h : certifyPacked (LiteralCandidates.observe payload reference mode) stride edgeLimit = .complete pairs) :
    pairs.Pairwise Before ∧ ∀ q, q ∈ pairs ↔
      Common (literalRel mode payload reference) payload.length reference.length q := by
  rw [certifyPacked_complete h]
  refine ⟨?_, ?_⟩
  · rw [pairwise_filterMap, pairwise_iff_getElem]
    intro i j hi hj hij q hq q' hq'
    obtain ⟨hcommon, hrank⟩ := sole_population_iff.mp ⟨_, getElem?_eq_getElem hi, hq⟩
    obtain ⟨hcommon', hrank'⟩ := sole_population_iff.mp ⟨_, getElem?_eq_getElem hj, hq'⟩
    apply hcommon.before hcommon'
    rw [edgeRank] at hrank hrank'
    omega
  · intro q
    rw [mem_filterMap]
    refine ⟨?_, ?_⟩
    · intro hq
      obtain ⟨pop, hpop, hsole⟩ := hq
      obtain ⟨k, hk⟩ := mem_iff_getElem?.mp hpop
      exact (sole_population_iff.mp ⟨pop, hk, hsole⟩).1
    · intro hcommon
      obtain ⟨pop, hpop, hsole⟩ := sole_population_iff.mpr ⟨hcommon, rfl⟩
      exact ⟨pop, mem_of_getElem? hpop, hsole⟩

end Certify

end Batchalign.DpAlign
