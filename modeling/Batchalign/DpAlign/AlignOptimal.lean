import Batchalign.DpAlign.Align

/- Every alignment is a complete edit script of least cost: each part of the output has as many matches
   as the longest chain of its window, and windows side by side add up. The relation need not be
   transitive. -/
namespace Batchalign.DpAlign
open Chain List

def AlignResult.payloadIdx? : AlignResult → Option ℕ
  | .matched _ p _ => some p
  | .extraPayload _ p => some p
  | .extraReference _ _ => none

def AlignResult.referenceIdx? : AlignResult → Option ℕ
  | .matched _ _ r => some r
  | .extraPayload _ _ => none
  | .extraReference _ r => some r

def AlignResult.pair? : AlignResult → Option (ℕ × ℕ)
  | .matched _ p r => some (p, r)
  | _ => none

def AlignResult.cost : AlignResult → ℕ
  | .matched _ _ _ => 0
  | _ => COST_GAP

def matchedPairs (out : List AlignResult) : List (ℕ × ℕ) := out.filterMap AlignResult.pair?

variable {out : List AlignResult}

theorem mem_matchedPairs {q : ℕ × ℕ} :
    q ∈ matchedPairs out ↔ ∃ key, .matched key q.1 q.2 ∈ out := by
  unfold matchedPairs
  rw [mem_filterMap]
  constructor
  · rintro ⟨x, hx, hpair⟩
    cases x with
    | matched key p r =>
      cases hpair
      exact ⟨key, hx⟩
    | extraPayload key p => cases hpair
    | extraReference key r => cases hpair
  · rintro ⟨key, hx⟩
    exact ⟨_, hx, rfl⟩

def scriptCost (out : List AlignResult) : ℕ := (out.map AlignResult.cost).sum

section Scripts
variable {T : Type}

def rel (A : Alignable T) (payload reference : List T) : ℕ → ℕ → Bool := fun i j =>
  match payload[i]?, reference[j]? with
  | some p, some r => A.isMatch r p
  | _, _ => false

/-- An item joins a matching pair under the reference's key, or leaves a position unmatched. -/
def AlignResult.Keyed (A : Alignable T) (payload reference : List T) : AlignResult → Prop
  | .matched key p r => rel A payload reference p r = true ∧ (reference[r]?).map A.toKey = some key
  | .extraPayload key p => (payload[p]?).map A.toKey = some key
  | .extraReference key r => (reference[r]?).map A.toKey = some key

/-- `out` is a script of the windows `[p0, p1)` and `[r0, r1)`: every index once and in order. -/
structure IsScript (A : Alignable T) (payload reference : List T) (p0 p1 r0 r1 : ℕ)
    (out : List AlignResult) : Prop where
  payload_once : out.filterMap AlignResult.payloadIdx? = List.range' p0 (p1 - p0)
  reference_once : out.filterMap AlignResult.referenceIdx? = List.range' r0 (r1 - r0)
  keyed : ∀ x ∈ out, x.Keyed A payload reference

variable {A : Alignable T} {payload reference : List T} {p0 p1 p2 r0 r1 r2 : ℕ}
  {out out' : List AlignResult}

@[simp] theorem matchedPairs_append (out out' : List AlignResult) :
    matchedPairs (out ++ out') = matchedPairs out ++ matchedPairs out' := by
  simp [matchedPairs]

theorem IsScript.nil : IsScript A payload reference p0 p0 r0 r0 [] := by
  refine ⟨?_, ?_, ?_⟩ <;> simp

theorem IsScript.append (h : IsScript A payload reference p0 p1 r0 r1 out)
    (h' : IsScript A payload reference p1 p2 r1 r2 out') (hp : p0 ≤ p1) (hp' : p1 ≤ p2)
    (hr : r0 ≤ r1) (hr' : r1 ≤ r2) : IsScript A payload reference p0 p2 r0 r2 (out ++ out') := by
  refine ⟨?_, ?_, ?_⟩
  · rw [filterMap_append, h.payload_once, h'.payload_once,
      show p2 - p0 = (p1 - p0) + (p2 - p1) by omega, ← range'_append_1,
      show p0 + (p1 - p0) = p1 by omega]
  · rw [filterMap_append, h.reference_once, h'.reference_once,
      show r2 - r0 = (r1 - r0) + (r2 - r1) by omega, ← range'_append_1,
      show r0 + (r1 - r0) = r1 by omega]
  · intro x hx
    rcases mem_append.mp hx with hx | hx
    · exact h.keyed x hx
    · exact h'.keyed x hx

theorem script_count (out : List AlignResult) : scriptCost out + 2 * (matchedPairs out).length =
      (out.filterMap AlignResult.payloadIdx?).length +
        (out.filterMap AlignResult.referenceIdx?).length := by
  induction out with
  | nil => simp [scriptCost, matchedPairs]
  | cons x out ih =>
    cases x <;>
      simp [scriptCost, matchedPairs, AlignResult.cost, AlignResult.pair?, COST_GAP,
        filterMap_cons, AlignResult.payloadIdx?, AlignResult.referenceIdx?] at ih ⊢ <;> omega

theorem IsScript.cost_add (h : IsScript A payload reference p0 p1 r0 r1 out) :
    scriptCost out + 2 * (matchedPairs out).length = (p1 - p0) + (r1 - r0) := by
  rw [script_count, h.payload_once, h.reference_once, length_range', length_range']

theorem IsScript.isChain (h : IsScript A payload reference 0 p1 0 r1 out) :
    IsChain (rel A payload reference) p1 r1 (matchedPairs out) := by
  have hp : (out.filterMap AlignResult.payloadIdx?).Pairwise (· < ·) := by
    rw [h.payload_once]; exact pairwise_lt_range'
  have hr : (out.filterMap AlignResult.referenceIdx?).Pairwise (· < ·) := by
    rw [h.reference_once]; exact pairwise_lt_range'
  rw [pairwise_filterMap] at hp hr
  have hmem : ∀ q ∈ matchedPairs out, ∃ key, .matched key q.1 q.2 ∈ out := by
    intro q hq
    obtain ⟨x, hx, hpair⟩ := mem_filterMap.mp hq
    cases x <;> simp [AlignResult.pair?] at hpair
    subst hpair
    exact ⟨_, hx⟩
  refine ⟨?_, ?_, ?_⟩
  · rw [matchedPairs, pairwise_filterMap]
    refine (hp.and hr).imp ?_
    intro x y hxy q hq q' hq'
    cases x <;> cases y <;> simp [AlignResult.pair?] at hq hq'
    subst hq hq'
    exact ⟨hxy.1 _ rfl _ rfl, hxy.2 _ rfl _ rfl⟩
  · intro q hq
    obtain ⟨key, hx⟩ := hmem q hq
    exact (h.keyed _ hx).1
  · intro q hq
    obtain ⟨key, hx⟩ := hmem q hq
    have h1 : q.1 ∈ out.filterMap AlignResult.payloadIdx? := mem_filterMap.mpr ⟨_, hx, rfl⟩
    have h2 : q.2 ∈ out.filterMap AlignResult.referenceIdx? := mem_filterMap.mpr ⟨_, hx, rfl⟩
    rw [h.payload_once, mem_range'_1] at h1
    rw [h.reference_once, mem_range'_1] at h2
    omega

end Scripts

variable {key : String}

section Rows
variable {T : Type} {A : Alignable T} {payload reference : List T}

/-! ## Cost rows -/

variable {i j p : ℕ} {r : T} {M : ℕ → ℕ → Bool}

theorem rel_eq {p : T} (hp : payload[i]? = some p) (hr : reference[j]? = some r) :
    rel A payload reference i j = A.isMatch r p := by
  simp [rel, hp, hr]

theorem rowCostsCells_eq (A : Alignable T) (M : ℕ → ℕ → Bool) (j : ℕ) (r : T) :
    ∀ (pay : List T) (k : ℕ), (∀ i p, pay[i]? = some p → M (k + i) j = A.isMatch r p) →
    rowCostsCells A r pay (editCost M k j)
      ((range' (k + 1) pay.length).map fun i => editCost M i j) (editCost M k (j + 1)) =
      (range' (k + 1) pay.length).map fun i => editCost M i (j + 1) := by
  intro pay
  induction pay with
  | nil => simp [rowCostsCells]
  | cons p pay ih =>
    intro k hM
    have h0 : M k j = A.isMatch r p := hM 0 p (by simp)
    have hrest : ∀ i q, pay[i]? = some q → M (k + 1 + i) j = A.isMatch r q := by
      intro i q hq
      have := hM (i + 1) q (by simpa using hq)
      rwa [show k + (i + 1) = k + 1 + i by omega] at this
    have hcost : min (min (editCost M k j + if A.isMatch r p then 0 else COST_SUB)
        (editCost M (k + 1) j + COST_GAP)) (editCost M k (j + 1) + COST_GAP) =
        editCost M (k + 1) (j + 1) := by
      rw [editCost_succ, h0]
      simp [COST_SUB, COST_GAP]
    rw [length_cons, range'_succ, map_cons, map_cons, rowCostsCells]
    simp only [hcost]
    rw [ih (k + 1) hrest]

/-- The row of costs against the first `j` reference items. -/
def costRow (M : ℕ → ℕ → Bool) (m j : ℕ) : List ℕ := (List.range (m + 1)).map fun i => editCost M i j

theorem costRow_cons (M : ℕ → ℕ → Bool) (m j : ℕ) :
    costRow M m j = j :: (range' 1 m).map fun i => editCost M i j := by
  rw [costRow, range_eq_range', range'_succ, map_cons, editCost_zero_left]

theorem rowCostsStep_costRow (hM : ∀ i p, payload[i]? = some p → M i j = A.isMatch r p) :
    rowCostsStep A payload (costRow M payload.length j) r = costRow M payload.length (j + 1) := by
  rw [costRow_cons, costRow_cons, rowCostsStep]
  have h := rowCostsCells_eq A M j r payload 0 (by simpa using hM)
  simp only [zero_add, editCost_zero_left] at h
  simp only [COST_GAP, h]

theorem rowCosts_foldl (payload reference : List T) :
    ∀ j, (∀ t r, reference[t]? = some r → ∀ i p, payload[i]? = some p → M i (j + t) = A.isMatch r p) →
    reference.foldl (rowCostsStep A payload) (costRow M payload.length j) =
      costRow M payload.length (j + reference.length) := by
  induction reference with
  | nil => simp
  | cons r reference ih =>
    intro j hM
    have h0 : ∀ i p, payload[i]? = some p → M i j = A.isMatch r p := hM 0 r (by simp)
    rw [foldl_cons, rowCostsStep_costRow h0, ih (j + 1)]
    · rw [length_cons, show j + 1 + reference.length = j + (reference.length + 1) by omega]
    · intro t q hq i p hp
      have := hM (t + 1) q (by simpa using hq) i p hp
      rwa [show j + (t + 1) = j + 1 + t by omega] at this

theorem rowCosts_eq (A : Alignable T) (reference payload : List T) : rowCosts A reference payload =
      costRow (rel A payload reference) payload.length reference.length := by
  have h := rowCosts_foldl (A := A) (M := rel A payload reference) payload reference 0
    (fun t r hr i p hp => by rw [zero_add]; exact rel_eq hp hr)
  rw [zero_add] at h
  rw [← h, rowCosts, costRow]
  simp

theorem costRow_getElem? {m k : ℕ} (hk : k ≤ m) : (costRow M m j)[k]? = some (editCost M k j) := by
  rw [costRow, getElem?_map, getElem?_range (by omega), Option.map_some]

theorem rel_reverse (hi : i < payload.length) (hj : j < reference.length) :
    rel A payload.reverse reference.reverse i j =
      mirror (rel A payload reference) payload.length reference.length i j := by
  simp only [rel, mirror]
  rw [getElem?_reverse hi, getElem?_reverse hj]

/-! ## The split row -/

theorem split_foldl (cost : ℕ → ℕ) (n : ℕ) :
    ∃ best, (range (n + 1)).foldl (fun (acc : Option ℕ × ℕ) k =>
        match acc.1 with
        | none => (some (cost k), k)
        | some b => if cost k < b then (some (cost k), k) else acc) (none, 0) =
      (some (cost best), best) ∧ best ≤ n ∧ ∀ k ≤ n, cost best ≤ cost k := by
  induction n with
  | zero => exact ⟨0, by simp, le_refl _, by simp⟩
  | succ n ih =>
    obtain ⟨best, hfold, hle, hmin⟩ := ih
    rw [range_succ, foldl_append, hfold]
    simp only [foldl_cons, foldl_nil]
    by_cases h : cost (n + 1) < cost best
    · refine ⟨n + 1, by rw [if_pos h], le_refl _, ?_⟩
      intro k hk
      rcases Nat.le_succ_iff.mp hk with hk | rfl
      · have := hmin k hk; omega
      · exact le_refl _
    · refine ⟨best, by rw [if_neg h], by omega, ?_⟩
      intro k hk
      rcases Nat.le_succ_iff.mp hk with hk | rfl
      · exact hmin k hk
      · exact Nat.le_of_not_lt h

theorem bestSplit_spec (scoreLeft scoreRight : List ℕ) (n : ℕ) :
    bestSplit scoreLeft scoreRight n ≤ n ∧ ∀ k ≤ n,
      (scoreLeft[bestSplit scoreLeft scoreRight n]?).getD 0 +
        (scoreRight[n - bestSplit scoreLeft scoreRight n]?).getD 0 ≤
      (scoreLeft[k]?).getD 0 + (scoreRight[n - k]?).getD 0 := by
  obtain ⟨best, hfold, hle, hmin⟩ :=
    split_foldl (fun k => (scoreLeft[k]?).getD 0 + (scoreRight[n - k]?).getD 0) n
  have hbest : bestSplit scoreLeft scoreRight n = best := by
    exact congrArg Prod.snd hfold
  rw [hbest]
  exact ⟨hle, hmin⟩

theorem rel_take_take {a b : ℕ} (hi : i < a) (hj : j < b) :
    rel A (payload.take a) (reference.take b) i j = rel A payload reference i j := by
  simp [rel, hi, hj]

theorem rel_drop_drop (A : Alignable T) (payload reference : List T) (a b : ℕ) :
    rel A (payload.drop a) (reference.drop b) = shift (rel A payload reference) a b := by
  funext i j
  simp [rel, shift, getElem?_drop]

theorem split_lcs (A : Alignable T) (payload reference : List T) {mid : ℕ}
    (hmid : mid ≤ reference.length) :
    let k := bestSplit (rowCosts A (reference.take mid) payload)
      (rowCostsRev A (reference.drop mid) payload) payload.length
    k ≤ payload.length ∧ lcs (rel A (payload.take k) (reference.take mid)) k mid +
        lcs (rel A (payload.drop k) (reference.drop mid)) (payload.length - k)
          (reference.length - mid) =
      lcs (rel A payload reference) payload.length reference.length := by
  intro k
  set m := payload.length with hm
  set n := reference.length with hn
  set M := rel A payload reference with hMdef
  -- the forward row counts chains of the left part
  have hleft : ∀ i ≤ m, ((rowCosts A (reference.take mid) payload)[i]?).getD 0 +
      2 * lcs M i mid = i + mid := by
    intro i hi
    rw [rowCosts_eq, costRow_getElem? hi, Option.getD_some, length_take, ← hn,
      Nat.min_eq_left hmid, ← editCost_add_lcs (rel A payload (reference.take mid)) i mid]
    congr 2
    apply lcs_congr
    intro i' hi' j hj
    have h : rel A (payload.take m) (reference.take mid) i' j = rel A payload reference i' j :=
      rel_take_take (by omega) hj
    rw [hm, take_length] at h
    rw [h]
  -- the reversed row counts chains of the right part
  have hright : ∀ i ≤ m, ((rowCostsRev A (reference.drop mid) payload)[m - i]?).getD 0 +
      2 * lcs (shift M i mid) (m - i) (n - mid) = (m - i) + (n - mid) := by
    intro i hi
    rw [rowCostsRev, rowCosts_eq, length_reverse, length_reverse, ← hm,
      costRow_getElem? (show m - i ≤ m by omega), Option.getD_some, length_drop, ← hn,
      ← editCost_add_lcs (rel A payload.reverse (reference.drop mid).reverse) (m - i) (n - mid)]
    congr 2
    rw [← lcs_mirror (shift M i mid)]
    apply lcs_congr
    intro i' hi' j hj
    rw [rel_reverse (by omega) (by rw [length_drop]; omega), length_drop]
    simp only [mirror, shift, rel, getElem?_drop, hMdef, ← hm, ← hn]
    rw [show m - 1 - i' = i + (m - i - 1 - i') by omega]
  obtain ⟨hk, hmin⟩ := bestSplit_spec (rowCosts A (reference.take mid) payload)
    (rowCostsRev A (reference.drop mid) payload) m
  refine ⟨hk, ?_⟩
  change k ≤ m at hk
  have hL : lcs (rel A (payload.take k) (reference.take mid)) k mid = lcs M k mid :=
    lcs_congr fun i hi j hj => rel_take_take hi hj
  rw [hL, rel_drop_drop]
  change lcs M k mid + lcs (shift M k mid) (m - k) (n - mid) = lcs M m n
  obtain ⟨c, hc, hsplit⟩ := lcs_le_split M m n hmid
  have h1 := hmin c hc
  have h2 := hleft c hc
  have h3 := hright c hc
  have h4 := hleft k hk
  have h5 := hright k hk
  have h6 := lcs_add_le M k mid (m - k) (n - mid)
  rw [show k + (m - k) = m by omega, show mid + (n - mid) = n by omega] at h6
  change ((rowCosts A (reference.take mid) payload)[k]?).getD 0 +
    ((rowCostsRev A (reference.drop mid) payload)[m - k]?).getD 0 ≤ _ at h1
  omega

/-! ## The full table -/

/-- The cell the table holds at row `i` (reference) and column `j` (payload). -/
def cellAt (M : ℕ → ℕ → Bool) : ℕ → ℕ → Cell
  | 0, 0 => ⟨0, .start, 0, 0⟩
  | 0, j + 1 => ⟨(j + 1) * COST_GAP, .extraPayload, 0, j⟩
  | i + 1, 0 => ⟨(i + 1) * COST_GAP, .extraReference, i, 0⟩
  | i + 1, j + 1 =>
    chooseCell (M j i) (i + 1) (j + 1) (editCost M j i) (editCost M (j + 1) i) (editCost M j (i + 1))

theorem chooseCell_cost (b : Bool) (i j diag up left : ℕ) : (chooseCell b i j diag up left).cost =
      min (min (diag + if b then 0 else COST_SUB) (up + COST_GAP)) (left + COST_GAP) := by
  unfold chooseCell
  cases b <;> simp only [Bool.false_eq_true, if_false, if_true] <;> split_ifs <;> dsimp only <;> omega

theorem cellAt_cost (M : ℕ → ℕ → Bool) (i j : ℕ) : (cellAt M i j).cost = editCost M j i := by
  cases i with
  | zero => cases j <;> simp [cellAt, COST_GAP]
  | succ i =>
    cases j with
    | zero => simp [cellAt, COST_GAP]
    | succ j =>
      rw [cellAt, chooseCell_cost, editCost_succ]
      simp [COST_SUB, COST_GAP]

theorem tableCells_eq (A : Alignable T) (M : ℕ → ℕ → Bool) (i : ℕ) (r : T) :
    ∀ (pay : List T) (k : ℕ), (∀ t p, pay[t]? = some p → M (k + t) i = A.isMatch r p) →
    tableCells A r (i + 1) (k + 1) pay (cellAt M i k)
      ((range' (k + 1) pay.length).map fun j => cellAt M i j) (cellAt M (i + 1) k) =
      (range' (k + 1) pay.length).map fun j => cellAt M (i + 1) j := by
  intro pay
  induction pay with
  | nil => simp [tableCells]
  | cons p pay ih =>
    intro k hM
    have h0 : M k i = A.isMatch r p := hM 0 p (by simp)
    have hrest : ∀ t q, pay[t]? = some q → M (k + 1 + t) i = A.isMatch r q := by
      intro t q hq
      have := hM (t + 1) q (by simpa using hq)
      rwa [show k + (t + 1) = k + 1 + t by omega] at this
    have hcell : chooseCell (A.isMatch r p) (i + 1) (k + 1) (cellAt M i k).cost
        (cellAt M i (k + 1)).cost (cellAt M (i + 1) k).cost = cellAt M (i + 1) (k + 1) := by
      rw [cellAt_cost, cellAt_cost, cellAt_cost, ← h0, cellAt]
    rw [length_cons, range'_succ, map_cons, map_cons, tableCells]
    simp only [hcell]
    rw [ih (k + 1) hrest]

/-- Row `i` of the table. -/
def cellRow (M : ℕ → ℕ → Bool) (cols i : ℕ) : List Cell :=
  (List.range (cols + 1)).map fun j => cellAt M i j

theorem cellRow_cons (M : ℕ → ℕ → Bool) (cols i : ℕ) :
    cellRow M cols i = cellAt M i 0 :: (range' 1 cols).map fun j => cellAt M i j := by
  rw [cellRow, range_eq_range', range'_succ, map_cons]

theorem firstRow_eq (M : ℕ → ℕ → Bool) (cols : ℕ) : firstRow (cols + 1) = cellRow M cols 0 := by
  apply map_congr_left
  intro j _
  cases j <;> simp [cellAt]

theorem tableRow_eq (hM : ∀ t p, payload[t]? = some p → M t i = A.isMatch r p) :
    tableRow A payload (i + 1) r (cellRow M payload.length i) = cellRow M payload.length (i + 1) := by
  rw [cellRow_cons, cellRow_cons, tableRow]
  have h := tableCells_eq A M i r payload 0 (by simpa using hM)
  have hhead : (⟨(i + 1) * COST_GAP, .extraReference, i + 1 - 1, 0⟩ : Cell) = cellAt M (i + 1) 0 := by
    simp [cellAt]
  simp only [hhead, h]

theorem tableRows_getElem?
    (reference : List T) : ∀ i, (∀ t r, reference[t]? = some r → ∀ k p, payload[k]? = some p →
      M k (i + t) = A.isMatch r p) →
    ∀ t ≤ reference.length, (tableRows A payload i (cellRow M payload.length i) reference)[t]? =
      some (cellRow M payload.length (i + t)) := by
  induction reference with
  | nil =>
    intro i _ t ht
    have : t = 0 := by simpa using ht
    subst this
    simp [tableRows]
  | cons r reference ih =>
    intro i hM t ht
    have h0 : ∀ k p, payload[k]? = some p → M k i = A.isMatch r p := hM 0 r (by simp)
    rw [tableRows, tableRow_eq h0]
    cases t with
    | zero => simp
    | succ t =>
      rw [getElem?_cons_succ, ih (i + 1) ?_ t (by simpa using ht),
        show i + 1 + t = i + (t + 1) by omega]
      intro t' q hq k p hp
      have := hM (t' + 1) q (by simpa using hq) k p hp
      rwa [show i + (t' + 1) = i + 1 + t' by omega] at this

theorem table_cell (A : Alignable T) (payload reference : List T) (hi : i ≤ reference.length) (hj : j ≤ payload.length) :
    ((tableRows A payload 0 (firstRow (payload.length + 1)) reference)[i]?).bind (·[j]?) =
      some (cellAt (rel A payload reference) i j) := by
  rw [firstRow_eq (rel A payload reference), tableRows_getElem? reference 0 ?_ i hi, Option.bind_some,
    zero_add, cellRow, getElem?_map, getElem?_range (by omega), Option.map_some]
  intro t r hr k p hp
  rw [zero_add]
  exact rel_eq hp hr

theorem cellAt_cases (M : ℕ → ℕ → Bool) (i j : ℕ) (h : 0 < i ∨ 0 < j) :
    (∃ i' j', i = i' + 1 ∧ j = j' + 1 ∧ (cellAt M i j).action = .matched ∧
      (cellAt M i j).pi = i' ∧ (cellAt M i j).pj = j' ∧ M j' i' = true ∧ lcs M j i = lcs M j' i' + 1) ∨
    (∃ i' j', i = i' + 1 ∧ j = j' + 1 ∧ (cellAt M i j).action = .substitution ∧
      (cellAt M i j).pi = i' ∧ (cellAt M i j).pj = j' ∧ lcs M j i = lcs M j' i') ∨
    (∃ i', i = i' + 1 ∧ (cellAt M i j).action = .extraReference ∧
      (cellAt M i j).pi = i' ∧ (cellAt M i j).pj = j ∧ lcs M j i = lcs M j i') ∨
    (∃ j', j = j' + 1 ∧ (cellAt M i j).action = .extraPayload ∧
      (cellAt M i j).pi = i ∧ (cellAt M i j).pj = j' ∧ lcs M j i = lcs M j' i) := by
  cases i with
  | zero =>
    cases j with
    | zero => omega
    | succ j => exact .inr (.inr (.inr ⟨j, rfl, by simp [cellAt]⟩))
  | succ i =>
    cases j with
    | zero => exact .inr (.inr (.inl ⟨i, rfl, by simp [cellAt]⟩))
    | succ j =>
      have h0 := editCost_add_lcs M j i
      have h1 := editCost_add_lcs M (j + 1) i
      have h2 := editCost_add_lcs M j (i + 1)
      have h3 := editCost_add_lcs M (j + 1) (i + 1)
      have hcost := editCost_succ M j i
      rw [cellAt, chooseCell]
      simp only [COST_SUB, COST_GAP]
      cases hM : M j i with
      | true =>
        have hdiag := lcs_succ_of_match hM
        simp only [if_true]
        rw [if_pos (by omega)]
        exact .inl ⟨i, j, rfl, rfl, rfl, rfl, rfl, hM, by omega⟩
      | false =>
        simp only [hM, Bool.false_eq_true, if_false] at hcost
        simp only [Bool.false_eq_true, if_false]
        split
        · exact .inr (.inl ⟨i, j, rfl, rfl, rfl, rfl, rfl, by omega⟩)
        · split
          · exact .inr (.inr (.inl ⟨i, rfl, rfl, rfl, rfl, by omega⟩))
          · exact .inr (.inr (.inr ⟨j, rfl, rfl, rfl, rfl, by omega⟩))

/-! ## Scripts of one window -/

/-- `part` is found in `whole` from `offset` on. -/
def IsWindow (whole part : List T) (offset : ℕ) : Prop :=
  ∀ i x, part[i]? = some x → whole[offset + i]? = some x

variable {P R : List T} {po ro : ℕ}

theorem IsWindow.take {part : List T} (h : IsWindow P part po) (k : ℕ) : IsWindow P (part.take k) po := by
  intro i x hx
  rw [getElem?_take] at hx
  split at hx
  · exact h i x hx
  · cases hx

theorem IsWindow.drop {part : List T} (h : IsWindow P part po) (k : ℕ) :
    IsWindow P (part.drop k) (po + k) := by
  intro i x hx
  rw [getElem?_drop] at hx
  rw [add_assoc]
  exact h _ x hx

theorem IsScript.matched_one {r : ℕ} (h : AlignResult.Keyed A P R (.matched key p r)) :
    IsScript A P R p (p + 1) r (r + 1) [.matched key p r] := by
  refine ⟨?_, ?_, ?_⟩
  · simp [AlignResult.payloadIdx?]
  · simp [AlignResult.referenceIdx?]
  · simpa using h

theorem IsScript.extraPayload_one {r : ℕ} (h : AlignResult.Keyed A P R (.extraPayload key p)) :
    IsScript A P R p (p + 1) r r [.extraPayload key p] := by
  refine ⟨?_, ?_, ?_⟩
  · simp [AlignResult.payloadIdx?]
  · simp [AlignResult.referenceIdx?]
  · simpa using h

theorem IsScript.extraReference_one {r : ℕ} (h : AlignResult.Keyed A P R (.extraReference key r)) :
    IsScript A P R p p r (r + 1) [.extraReference key r] := by
  refine ⟨?_, ?_, ?_⟩
  · simp [AlignResult.payloadIdx?]
  · simp [AlignResult.referenceIdx?]
  · simpa using h

theorem keyed_matched (hP : IsWindow P payload po) (hR : IsWindow R reference ro) (hi : i < reference.length) (hj : j < payload.length) (hM : rel A payload reference j i = true) :
    AlignResult.Keyed A P R (.matched (((reference[i]?).map A.toKey).getD "") (po + j) (ro + i)) := by
  have hp := hP j _ (getElem?_eq_getElem hj)
  have hr := hR i _ (getElem?_eq_getElem hi)
  rw [rel_eq (getElem?_eq_getElem hj) (getElem?_eq_getElem hi)] at hM
  exact ⟨by rw [rel_eq hp hr, hM], by simp [hr, getElem?_eq_getElem hi]⟩

theorem keyed_extraPayload (hP : IsWindow P payload po) (hj : j < payload.length) :
    AlignResult.Keyed A P R (.extraPayload (((payload[j]?).map A.toKey).getD "") (po + j)) := by
  have hp := hP j _ (getElem?_eq_getElem hj)
  simp [AlignResult.Keyed, hp, getElem?_eq_getElem hj]

theorem keyed_extraReference (hR : IsWindow R reference ro) (hi : i < reference.length) :
    AlignResult.Keyed A P R (.extraReference (((reference[i]?).map A.toKey).getD "") (ro + i)) := by
  have hr := hR i _ (getElem?_eq_getElem hi)
  simp [AlignResult.Keyed, hr, getElem?_eq_getElem hi]

theorem traceback_spec (hP : IsWindow P payload po) (hR : IsWindow R reference ro) :
    ∀ fuel i j output, i + j ≤ fuel → i ≤ reference.length → j ≤ payload.length →
    ∃ pre, traceback A payload reference po ro
        (tableRows A payload 0 (firstRow (payload.length + 1)) reference) fuel i j output =
        pre ++ output ∧ IsScript A P R po (po + j) ro (ro + i) pre ∧
      (matchedPairs pre).length = lcs (rel A payload reference) j i := by
  intro fuel
  induction fuel with
  | zero =>
    intro i j output hfuel _ _
    have hi : i = 0 := by omega
    have hj : j = 0 := by omega
    subst hi hj
    exact ⟨[], by simp [traceback], IsScript.nil, by simp [matchedPairs]⟩
  | succ fuel ih =>
    intro i j output hfuel hi hj
    rw [traceback]
    by_cases hpos : 0 < i ∨ 0 < j
    · rw [if_pos hpos, table_cell A payload reference hi hj]
      rcases cellAt_cases (rel A payload reference) i j hpos with
        ⟨i', j', rfl, rfl, hact, hpi, hpj, hM, hlcs⟩ | ⟨i', j', rfl, rfl, hact, hpi, hpj, hlcs⟩ |
        ⟨i', rfl, hact, hpi, hpj, hlcs⟩ | ⟨j', rfl, hact, hpi, hpj, hlcs⟩
      · simp only [hact, hpi, hpj]
        obtain ⟨pre, heq, hscript, hcount⟩ := ih i' j'
          (.matched (((reference[i']?).map A.toKey).getD "") (po + j') (ro + i') :: output)
          (by omega) (by omega) (by omega)
        have hone := IsScript.matched_one (keyed_matched hP hR (by omega) (by omega) hM)
        refine ⟨pre ++ [.matched (((reference[i']?).map A.toKey).getD "") (po + j') (ro + i')],
          by rw [heq, append_assoc]; rfl,
          hscript.append hone (by omega) (by omega) (by omega) (by omega), ?_⟩
        rw [matchedPairs_append, length_append, hcount, hlcs]
        rfl
      · simp only [hact, hpi, hpj]
        obtain ⟨pre, heq, hscript, hcount⟩ := ih i' j'
          (.extraReference (((reference[i']?).map A.toKey).getD "") (ro + i') ::
            .extraPayload (((payload[j']?).map A.toKey).getD "") (po + j') :: output)
          (by omega) (by omega) (by omega)
        have hone := IsScript.extraReference_one (A := A) (P := P) (p := po + j')
          (keyed_extraReference hR (i := i') (by omega))
        have htwo := IsScript.extraPayload_one (A := A) (R := R) (r := ro + i' + 1)
          (keyed_extraPayload hP (j := j') (by omega))
        have hboth := hone.append htwo (by omega) (by omega) (by omega) (by omega)
        refine ⟨pre ++ _, by rw [heq, append_assoc]; rfl,
          hscript.append hboth (by omega) (by omega) (by omega) (by omega), ?_⟩
        rw [matchedPairs_append, length_append, hcount, hlcs]
        rfl
      · simp only [hact, hpi, hpj]
        obtain ⟨pre, heq, hscript, hcount⟩ := ih i' j
          (.extraReference (((reference[i']?).map A.toKey).getD "") (ro + i') :: output)
          (by omega) (by omega) (by omega)
        have hone := IsScript.extraReference_one (A := A) (P := P) (p := po + j)
          (keyed_extraReference hR (i := i') (by omega))
        refine ⟨pre ++ _, by rw [heq, append_assoc]; rfl,
          hscript.append hone (by omega) (by omega) (by omega) (by omega), ?_⟩
        rw [matchedPairs_append, length_append, hcount, hlcs]
        rfl
      · simp only [hact, hpi, hpj]
        obtain ⟨pre, heq, hscript, hcount⟩ := ih i j'
          (.extraPayload (((payload[j']?).map A.toKey).getD "") (po + j') :: output)
          (by omega) (by omega) (by omega)
        have hone := IsScript.extraPayload_one (A := A) (R := R) (r := ro + i)
          (keyed_extraPayload hP (j := j') (by omega))
        refine ⟨pre ++ _, by rw [heq, append_assoc]; rfl,
          hscript.append hone (by omega) (by omega) (by omega) (by omega), ?_⟩
        rw [matchedPairs_append, length_append, hcount, hlcs]
        rfl
    · have hi : i = 0 := by omega
      have hj : j = 0 := by omega
      subst hi hj
      exact ⟨[], rfl, IsScript.nil, by simp [matchedPairs]⟩

/-- `out` is a script of the two windows with as many matches as their longest chain. -/
structure IsBest (A : Alignable T) (P R payload reference : List T) (po ro : ℕ)
    (out : List AlignResult) : Prop where
  script : IsScript A P R po (po + payload.length) ro (ro + reference.length) out
  count : (matchedPairs out).length = lcs (rel A payload reference) payload.length reference.length

theorem alignSmall_best (hP : IsWindow P payload po) (hR : IsWindow R reference ro) :
    IsBest A P R payload reference po ro (alignSmall A payload reference po ro) := by
  obtain ⟨pre, heq, hscript, hcount⟩ := traceback_spec (A := A) hP hR
    (reference.length + 1 + (payload.length + 1)) reference.length payload.length []
    (by omega) (le_refl _) (le_refl _)
  rw [append_nil] at heq
  rw [alignSmall]
  simp only [Nat.add_sub_cancel, heq]
  exact ⟨hscript, hcount⟩

theorem extraPayloads_script (hP : IsWindow P payload po) : IsScript A P R po (po + payload.length) ro ro
      (payload.mapIdx fun i k => .extraPayload (A.toKey k) (po + i)) := by
  induction payload using reverseRecOn with
  | nil => simpa using IsScript.nil
  | append_singleton payload k ih =>
    have hk := hP payload.length k (by simp)
    have hinit : IsWindow P payload po := fun i x hx =>
      hP i x (by rw [getElem?_append_left (List.getElem?_eq_some_iff.mp hx).1]; exact hx)
    have hone : AlignResult.Keyed A P R (.extraPayload (A.toKey k) (po + payload.length)) := by
      simp [AlignResult.Keyed, hk]
    have h := (ih hinit).append (IsScript.extraPayload_one hone) (by omega) (by omega) (le_refl _) (le_refl _)
    simpa [mapIdx_append, add_assoc] using h

theorem extraReferences_script (hR : IsWindow R reference ro) :
    IsScript A P R po po ro (ro + reference.length)
      (reference.mapIdx fun i k => .extraReference (A.toKey k) (ro + i)) := by
  induction reference using reverseRecOn with
  | nil => simpa using IsScript.nil
  | append_singleton reference k ih =>
    have hk := hR reference.length k (by simp)
    have hinit : IsWindow R reference ro := fun i x hx =>
      hR i x (by rw [getElem?_append_left (List.getElem?_eq_some_iff.mp hx).1]; exact hx)
    have hone : AlignResult.Keyed A P R (.extraReference (A.toKey k) (ro + reference.length)) := by
      simp [AlignResult.Keyed, hk]
    have h := (ih hinit).append (IsScript.extraReference_one hone) (le_refl _) (le_refl _) (by omega) (by omega)
    simpa [mapIdx_append, add_assoc] using h

theorem extras_pairs (payload reference : List T) (f g : ℕ → T → String) (po ro : ℕ) :
    matchedPairs (payload.mapIdx fun i k => .extraPayload (f i k) (po + i)) = [] ∧
    matchedPairs (reference.mapIdx fun i k => .extraReference (g i k) (ro + i)) = [] := by
  constructor <;>
  · rw [matchedPairs, filterMap_eq_nil_iff]
    intro x hx
    obtain ⟨i, hi, rfl⟩ := mem_mapIdx.mp hx
    rfl

theorem IsBest.append_split {mid : ℕ} (hmid : mid ≤ reference.length) {out out' : List AlignResult} :
    let k := bestSplit (rowCosts A (reference.take mid) payload)
      (rowCostsRev A (reference.drop mid) payload) payload.length
    IsBest A P R (payload.take k) (reference.take mid) po ro out →
    IsBest A P R (payload.drop k) (reference.drop mid) (po + k) (ro + mid) out' →
    IsBest A P R payload reference po ro (out ++ out') := by
  intro k h h'
  obtain ⟨hk, hlcs⟩ := split_lcs A payload reference hmid
  change k ≤ payload.length at hk
  have hs := h.script
  have hs' := h'.script
  simp only [length_take, length_drop, Nat.min_eq_left hk, Nat.min_eq_left hmid] at hs hs'
  rw [show po + k + (payload.length - k) = po + payload.length by omega,
    show ro + mid + (reference.length - mid) = ro + reference.length by omega] at hs'
  refine ⟨hs.append hs' (by omega) (by omega) (by omega) (by omega), ?_⟩
  rw [matchedPairs_append, length_append, h.count, h'.count, ← hlcs]
  simp only [length_take, length_drop, Nat.min_eq_left hk, Nat.min_eq_left hmid]
  rfl

theorem hirschberg_best (A : Alignable T) (payload reference : List T) (po ro : ℕ)
    (hP : IsWindow P payload po) (hR : IsWindow R reference ro) :
    IsBest A P R payload reference po ro (hirschberg A payload reference po ro) := by
  induction payload, reference, po, ro using hirschberg.induct (A := A) with
  | case1 payload reference po ro hempty =>
    rw [hirschberg, if_pos hempty]
    rw [List.isEmpty_iff] at hempty
    subst hempty
    refine ⟨extraPayloads_script hP, ?_⟩
    rw [(extras_pairs payload [] (fun _ => A.toKey) (fun _ => A.toKey) po 0).1]
    simp
  | case2 payload reference po ro hempty hpay =>
    rw [hirschberg, if_neg hempty, if_pos hpay]
    rw [List.isEmpty_iff] at hpay
    subst hpay
    refine ⟨extraReferences_script hR, ?_⟩
    rw [(extras_pairs [] reference (fun _ => A.toKey) (fun _ => A.toKey) 0 ro).2]
    simp
  | case3 payload reference po ro hempty hpay hsmall =>
    rw [hirschberg, if_neg hempty, if_neg hpay, dif_pos hsmall]
    exact alignSmall_best hP hR
  | case4 payload reference po ro hempty hpay hlarge mid scoreLeft scoreRight split ihl ihr =>
    rw [hirschberg, if_neg hempty, if_neg hpay, dif_neg hlarge]
    exact IsBest.append_split (show mid ≤ reference.length by omega)
      (ihl (hP.take split) (hR.take mid)) (ihr (hP.drop split) (hR.drop mid))

/-! ## Stripping the matching ends -/

theorem matchingRun_spec (A : Alignable T) (xs ys : List T) :
    matchingRun A xs ys ≤ xs.length ∧ matchingRun A xs ys ≤ ys.length ∧
      ∀ i < matchingRun A xs ys, ∃ x y, xs[i]? = some x ∧ ys[i]? = some y ∧ A.isMatch x y = true := by
  induction xs generalizing ys with
  | nil => simp [matchingRun]
  | cons x xs ih =>
    cases ys with
    | nil => simp [matchingRun]
    | cons y ys =>
      obtain ⟨h1, h2, h3⟩ := ih ys
      unfold matchingRun at h1 h2 h3 ⊢
      by_cases hxy : A.isMatch x y = true
      · simp only [zip_cons_cons, takeWhile_cons, hxy, if_true, length_cons]
        refine ⟨by omega, by omega, ?_⟩
        intro i hi
        cases i with
        | zero => exact ⟨x, y, rfl, rfl, hxy⟩
        | succ i => exact h3 i (by omega)
      · simp [hxy]

theorem matched_run_script (po : ℕ) {refs : List T} (hR : IsWindow R refs ro)
    (hM : ∀ i < refs.length, rel A P R (po + i) (ro + i) = true) :
    IsScript A P R po (po + refs.length) ro (ro + refs.length)
      (refs.mapIdx fun i r => .matched (A.toKey r) (po + i) (ro + i)) ∧
    (matchedPairs (refs.mapIdx fun i r => .matched (A.toKey r) (po + i) (ro + i))).length =
      refs.length := by
  induction refs using reverseRecOn with
  | nil => exact ⟨by simpa using IsScript.nil, by simp [matchedPairs]⟩
  | append_singleton refs r ih =>
    have hr := hR refs.length r (by simp)
    have hinit : IsWindow R refs ro := fun i x hx =>
      hR i x (by rw [getElem?_append_left (List.getElem?_eq_some_iff.mp hx).1]; exact hx)
    obtain ⟨hs, hc⟩ := ih hinit (fun i hi => hM i (by simp; omega))
    have hone : AlignResult.Keyed A P R (.matched (A.toKey r) (po + refs.length) (ro + refs.length)) :=
      ⟨hM refs.length (by simp), by simp [hr]⟩
    have h := hs.append (IsScript.matched_one hone) (by omega) (by omega) (by omega) (by omega)
    constructor
    · simpa [mapIdx_append, add_assoc] using h
    · rw [mapIdx_append, matchedPairs_append, length_append, hc]
      simp [matchedPairs, AlignResult.pair?]

theorem lcs_strip_front (M : ℕ → ℕ → Bool) (k m n : ℕ) (hM : ∀ i < k, M i i = true) :
    lcs M (k + m) (k + n) = k + lcs (shift M k k) m n := by
  induction k generalizing M with
  | zero =>
    have hshift : shift M 0 0 = M := by
      funext i j
      simp [shift]
    rw [hshift, zero_add, zero_add, zero_add]
  | succ k ih =>
    have h0 := lcs_of_match_zero (hM 0 (by omega)) (k + m) (k + n)
    have h1 := ih (shift M 1 1) (fun i hi => by
      simpa [shift, add_comm] using hM (i + 1) (by omega))
    rw [show k + 1 + m = k + m + 1 by omega, show k + 1 + n = k + n + 1 by omega, h0, h1]
    have : shift (shift M 1 1) k k = shift M (k + 1) (k + 1) := by
      funext i j
      simp only [shift]
      rw [show 1 + (k + i) = k + 1 + i by omega, show 1 + (k + j) = k + 1 + j by omega]
    rw [this]
    omega

theorem lcs_strip_back (M : ℕ → ℕ → Bool) (m n k : ℕ) (hM : ∀ i < k, M (m + i) (n + i) = true) :
    lcs M (m + k) (n + k) = lcs M m n + k := by
  induction k with
  | zero => simp
  | succ k ih =>
    have h := lcs_succ_of_match (hM k (by omega))
    rw [ih (fun i hi => hM i (by omega))] at h
    omega

theorem alignGeneric_best (hA : A.Symmetric) (payload reference : List T) :
    IsBest A payload reference payload reference 0 0 (alignGeneric A payload reference) := by
  unfold alignGeneric
  extract_lets k s head midPay midRef middle payStart refStart tail
  obtain ⟨hkp, hkr, hpre⟩ := matchingRun_spec A payload reference
  obtain ⟨hsp, hsr, hsuf⟩ :=
    matchingRun_spec A (payload.drop k).reverse (reference.drop k).reverse
  change k ≤ reference.length at hkr
  simp only [length_reverse, length_drop] at hsp hsr
  set M := rel A payload reference
  have hfront : ∀ i < k, M i i = true := by
    intro i hi
    obtain ⟨x, y, hx, hy, hm⟩ := hpre i hi
    exact (rel_eq hx hy).trans ((hA y x).trans hm)
  have hback : ∀ i < s, M (payStart + i) (refStart + i) = true := by
    intro i hi
    obtain ⟨x, y, hx, hy, hm⟩ := hsuf (s - 1 - i) (by omega)
    rw [getElem?_reverse (by rw [length_drop]; omega), getElem?_drop,
      length_drop] at hx hy
    rw [show k + (payload.length - k - 1 - (s - 1 - i)) = payStart + i by omega] at hx
    rw [show k + (reference.length - k - 1 - (s - 1 - i)) = refStart + i by omega] at hy
    exact (rel_eq hx hy).trans ((hA y x).trans hm)
  have hwhole : ∀ l : List T, IsWindow l l 0 := fun l i x hx => by rwa [zero_add]
  have hhead := matched_run_script (A := A) (P := payload) 0
    ((hwhole reference).take k) (fun i hi => by
      simpa using hfront i (by rw [length_take] at hi; omega))
  have hdrop : IsWindow reference (reference.drop refStart) refStart := by
    simpa using (hwhole reference).drop refStart
  have htail := matched_run_script (A := A) (P := payload) payStart hdrop (fun i hi => hback i (by
      rw [length_drop] at hi; omega))
  have hmid := hirschberg_best (P := payload) (R := reference) A midPay midRef k k
    (by simpa using ((hwhole payload).take (payload.length - s)).drop k)
    (by simpa using ((hwhole reference).take (reference.length - s)).drop k)
  simp only [zero_add, length_take, Nat.min_eq_left hkr] at hhead
  rw [length_drop, show reference.length - refStart = s by omega,
    show payStart + s = payload.length by omega,
    show refStart + s = reference.length by omega] at htail
  have hlenP : midPay.length = payStart - k := by
    simp only [midPay, length_drop, length_take]; omega
  have hlenR : midRef.length = refStart - k := by
    simp only [midRef, length_drop, length_take]; omega
  have hmids := hmid.script
  rw [hlenP, hlenR, show k + (payStart - k) = payStart by omega,
    show k + (refStart - k) = refStart by omega] at hmids
  refine ⟨?_, ?_⟩
  · rw [zero_add, zero_add]
    exact (hhead.1.append hmids (by omega) (by omega) (by omega) (by omega)).append htail.1
      (by omega) (by omega) (by omega) (by omega)
  · rw [matchedPairs_append, matchedPairs_append, length_append, length_append]
    rw [hhead.2, htail.2, hmid.count, hlenP, hlenR]
    have hinner : lcs (rel A midPay midRef) (payStart - k) (refStart - k) =
        lcs (shift M k k) (payStart - k) (refStart - k) := by
      rw [rel_drop_drop]
      apply lcs_congr
      intro i hi j hj
      exact rel_take_take (by omega) (by omega)
    have h1 := lcs_strip_front M k (payStart - k) (refStart - k) hfront
    have h2 := lcs_strip_back M payStart refStart s hback
    rw [show k + (payStart - k) = payStart by omega,
      show k + (refStart - k) = refStart by omega] at h1
    rw [show payStart + s = payload.length by omega,
      show refStart + s = reference.length by omega] at h2
    change _ = lcs M payload.length reference.length
    omega

end Rows

/-! ## Complete optimal scripts -/

/-- A complete optimal edit script: every index once and in order, matches under the reference's key, as many
  as any increasing matching has, so of least cost. -/
structure OptimalScript {T : Type} (A : Alignable T) (payload reference : List T)
    (out : List AlignResult) : Prop where
  payload_once : out.filterMap AlignResult.payloadIdx? = List.range payload.length
  reference_once : out.filterMap AlignResult.referenceIdx? = List.range reference.length
  keyed : ∀ x ∈ out, x.Keyed A payload reference
  chain : IsChain (rel A payload reference) payload.length reference.length (matchedPairs out)
  most_matches : ∀ c, IsChain (rel A payload reference) payload.length reference.length c →
    c.length ≤ (matchedPairs out).length
  cost_eq : scriptCost out = editCost (rel A payload reference) payload.length reference.length
  least_cost : ∀ out', IsScript A payload reference 0 payload.length 0 reference.length out' →
    scriptCost out ≤ scriptCost out'

theorem IsBest.optimalScript {T : Type} {A : Alignable T} {payload reference : List T}
    (h : IsBest A payload reference payload reference 0 0 out) :
    OptimalScript A payload reference out := by
  have hs := h.script
  rw [zero_add, zero_add] at hs
  have hcost := hs.cost_add
  have hlcs := editCost_add_lcs (rel A payload reference) payload.length reference.length
  have hcount := h.count
  refine ⟨?_, ?_, hs.keyed, hs.isChain, ?_, by omega, ?_⟩
  · rw [hs.payload_once, range_eq_range', Nat.sub_zero]
  · rw [hs.reference_once, range_eq_range', Nat.sub_zero]
  · intro c hc
    rw [hcount]
    exact chain_le_lcs hc
  · intro out' h'
    have hcost' := h'.cost_add
    have hle := chain_le_lcs h'.isChain
    omega

def Alignable.comap {S T : Type} (A : Alignable T) (f : S → T) : Alignable S where
  isMatch a b := A.isMatch (f a) (f b)
  toKey a := A.toKey (f a)

variable {S T : Type}

theorem rel_comap (A : Alignable T) (f : S → T) (payload reference : List S) :
    rel A (payload.map f) (reference.map f) = rel (A.comap f) payload reference := by
  funext i j
  simp only [rel, getElem?_map]
  cases payload[i]? <;> cases reference[j]? <;> rfl

theorem keyed_comap (A : Alignable T) (f : S → T) (payload reference : List S)
    (x : AlignResult) :
    x.Keyed A (payload.map f) (reference.map f) ↔ x.Keyed (A.comap f) payload reference := by
  cases x <;>
    simp only [AlignResult.Keyed, rel_comap, getElem?_map, Option.map_map] <;> rfl

theorem IsScript.comap_iff (A : Alignable T) (f : S → T) (payload reference : List S)
    (p0 p1 r0 r1 : ℕ) (out : List AlignResult) :
    IsScript A (payload.map f) (reference.map f) p0 p1 r0 r1 out ↔
      IsScript (A.comap f) payload reference p0 p1 r0 r1 out := by
  constructor <;> intro h
  · exact ⟨h.payload_once, h.reference_once, fun x hx => (keyed_comap ..).mp (h.keyed x hx)⟩
  · exact ⟨h.payload_once, h.reference_once, fun x hx => (keyed_comap ..).mpr (h.keyed x hx)⟩

theorem OptimalScript.comap {A : Alignable T} {f : S → T} {payload reference : List S}
    (h : OptimalScript A (payload.map f) (reference.map f) out) :
    OptimalScript (A.comap f) payload reference out := by
  obtain ⟨hp, hr, hkey, hchain, hmost, hcost, hleast⟩ := h
  rw [length_map] at hp hr
  rw [rel_comap, length_map, length_map] at hchain hmost hcost
  rw [length_map, length_map] at hleast
  exact ⟨hp, hr, fun x hx => (keyed_comap ..).mp (hkey x hx), hchain, hmost, hcost,
    fun out' h' => hleast out' ((IsScript.comap_iff ..).mpr h')⟩

def MatchMode.alignable : MatchMode → Alignable String
  | .exact => alignableString .exact
  | .caseInsensitive => alignableString .asciiInsensitive
  | .fuzzy policy => (alignableFuzzy policy).comap policy.prepare

theorem MatchMode.alignable_symmetric {mode : MatchMode} (h : mode.Symmetric) : mode.alignable.Symmetric := by
  cases mode with
  | exact => exact alignableString_symmetric .exact
  | caseInsensitive => exact alignableString_symmetric .asciiInsensitive
  | fuzzy policy => exact fun a b => alignableFuzzy_symmetric h (policy.prepare a) (policy.prepare b)

def MatchMode.charMode : MatchMode → LiteralMatchMode
  | .exact => .exact
  | .caseInsensitive | .fuzzy _ => .asciiInsensitive

theorem align_words_best {mode : MatchMode} (h : mode.Symmetric) (payload reference : List String) :
    OptimalScript mode.alignable payload reference (align payload reference mode) := by
  cases mode with
  | exact => exact (alignGeneric_best (alignableString_symmetric .exact) ..).optimalScript
  | caseInsensitive =>
    exact (alignGeneric_best (alignableString_symmetric .asciiInsensitive) ..).optimalScript
  | fuzzy policy =>
    exact (alignGeneric_best (alignableFuzzy_symmetric h) ..).optimalScript.comap

theorem align_chars_best (mode : MatchMode) (payload reference : List Char) :
    OptimalScript (alignableChar mode.charMode) payload reference
      (alignChars payload reference mode) := by
  cases mode <;> exact (alignGeneric_best (alignableChar_symmetric _) ..).optimalScript

/-- Under any symmetric comparison every entry point returns a complete optimal edit script. -/
theorem align_complete_optimal :
    (∀ (T : Type) (A : Alignable T), A.Symmetric → ∀ payload reference : List T,
      OptimalScript A payload reference (alignGeneric A payload reference)) ∧
    (∀ mode : MatchMode, mode.Symmetric → ∀ payload reference : List String,
      OptimalScript mode.alignable payload reference (align payload reference mode)) ∧
    (∀ (mode : MatchMode) (payload reference : List Char),
      OptimalScript (alignableChar mode.charMode) payload reference
        (alignChars payload reference mode)) := by
  refine ⟨?_, ?_, align_chars_best⟩
  · intro T A hA payload reference
    exact (alignGeneric_best hA payload reference).optimalScript
  · intro mode hmode payload reference
    exact align_words_best hmode payload reference

/-- At a policy that holds words with the same first character similar. -/
theorem align_complete_optimal_fuzzy :
    let policy : FuzzyComparison := ⟨id, fun a b => a.front == b.front⟩
    (MatchMode.fuzzy policy).Symmetric ∧
      OptimalScript (MatchMode.fuzzy policy).alignable ["ab", "c"] ["c", "ax"]
        (align ["ab", "c"] ["c", "ax"] (.fuzzy policy)) := by
  intro policy
  have hsym : (MatchMode.fuzzy policy).Symmetric := by
    intro a b
    exact Bool.beq_comm
  exact ⟨hsym, align_complete_optimal.2.1 _ hsym _ _⟩

end Batchalign.DpAlign
