import Mathlib.Tactic

/- Binary indexed trees for prefix maxima. Cell `k` covers the positions `q` with `clearLowest k < q ≤
   k`. The ranges a query visits partition the positions up to `k`; the cells an update visits are those
   that cover `q` (`covers_iff`). -/
namespace Fenwick
open List
open Function (update_self update_of_ne)

def clearLowest (k : ℕ) : ℕ := k &&& (k - 1)

def isolateLowestOne (k : ℕ) : ℕ := k - clearLowest k

def nextCell (k : ℕ) : ℕ := k + isolateLowestOne k

theorem clearLowest_odd (a : ℕ) : clearLowest (2 * a + 1) = 2 * a := by
  apply Nat.eq_of_testBit_eq
  intro i
  cases i with
  | zero => simp [clearLowest]
  | succ i =>
    rw [clearLowest, Nat.testBit_and, Nat.testBit_succ, Nat.testBit_succ, Nat.testBit_succ,
      show (2 * a + 1) / 2 = a by omega, show (2 * a + 1 - 1) / 2 = a by omega,
      show 2 * a / 2 = a by omega, Bool.and_self]

theorem clearLowest_even {a : ℕ} (h : 0 < a) : clearLowest (2 * a) = 2 * clearLowest a := by
  apply Nat.eq_of_testBit_eq
  intro i
  cases i with
  | zero => simp [clearLowest]
  | succ i =>
    rw [clearLowest, clearLowest, Nat.testBit_and, Nat.testBit_succ, Nat.testBit_succ, Nat.testBit_succ,
      show (2 * a - 1) / 2 = a - 1 by omega, show 2 * a / 2 = a by omega,
      show 2 * (a &&& (a - 1)) / 2 = a &&& (a - 1) by omega, Nat.testBit_and]

theorem clearLowest_lt {k : ℕ} (h : 0 < k) : clearLowest k < k := by
  have hle : clearLowest k ≤ k - 1 := Nat.and_le_right
  omega

theorem nextCell_odd (a : ℕ) : nextCell (2 * a + 1) = 2 * (a + 1) := by
  rw [nextCell, isolateLowestOne, clearLowest_odd]
  omega

theorem nextCell_even {a : ℕ} (h : 0 < a) : nextCell (2 * a) = 2 * nextCell a := by
  rw [nextCell, nextCell, isolateLowestOne, isolateLowestOne, clearLowest_even h]
  omega

theorem lt_nextCell {k : ℕ} (h : 0 < k) : k < nextCell k := by
  have hlt := clearLowest_lt h
  rw [nextCell, isolateLowestOne]
  omega

theorem covers_iff {q k : ℕ} (hq : 0 < q) (hqk : q ≤ k) :
    clearLowest k < q ↔ k = q ∨ (nextCell q ≤ k ∧ clearLowest k < nextCell q) := by
  induction k using Nat.strong_induction_on generalizing q with
  | _ k ih =>
    -- by the parities of the two numbers
    obtain ⟨a, rfl | rfl⟩ := Nat.even_or_odd' q
    · obtain ⟨b, rfl | rfl⟩ := Nat.even_or_odd' k
      · have ha : 0 < a := by omega
        have hb : 0 < b := by omega
        have hrec := ih b (by omega) ha (by omega)
        rw [clearLowest_even hb, nextCell_even ha]
        omega
      · have ha : 0 < a := by omega
        rw [clearLowest_odd, nextCell_even ha]
        omega
    · obtain ⟨b, rfl | rfl⟩ := Nat.even_or_odd' k
      · have hb : 0 < b := by omega
        rw [clearLowest_even hb, nextCell_odd]
        omega
      · rw [clearLowest_odd, nextCell_odd]
        omega

/-! ## The tree -/

def queryFrom (tree : List ℕ) : ℕ → ℕ → ℕ → ℕ
  | 0, _, maximum => maximum
  | fuel + 1, position, maximum =>
    if 0 < position then
      queryFrom tree fuel (clearLowest position) (max maximum (tree.getD position 0))
    else maximum

/-- The maximum over the positions below `position`, counted from zero. -/
def query (tree : List ℕ) (position : ℕ) : ℕ := queryFrom tree position position 0

def updateFrom (rank : ℕ) : ℕ → List ℕ → ℕ → List ℕ
  | 0, tree, _ => tree
  | fuel + 1, tree, position =>
    if position < tree.length then
      updateFrom rank fuel (tree.set position (max (tree.getD position 0) rank)) (nextCell position)
    else tree

def update (tree : List ℕ) (position rank : ℕ) : List ℕ :=
  updateFrom rank tree.length tree (position + 1)

@[simp] theorem length_updateFrom (rank fuel : ℕ) (tree : List ℕ) (position : ℕ) :
    (updateFrom rank fuel tree position).length = tree.length := by
  induction fuel generalizing tree position with
  | zero => rfl
  | succ fuel ih =>
    rw [updateFrom]
    split_ifs
    · rw [ih, length_set]
    · rfl

@[simp] theorem length_update (tree : List ℕ) (position rank : ℕ) :
    (update tree position rank).length = tree.length :=
  length_updateFrom rank tree.length tree (position + 1)

variable {tree : List ℕ}

theorem getD_updateFrom {rank fuel : ℕ} {position k : ℕ} (hpos : 0 < position)
    (hfuel : tree.length ≤ position + fuel) (hk : k < tree.length) :
    (updateFrom rank fuel tree position).getD k 0 =
      if position ≤ k ∧ clearLowest k < position then max (tree.getD k 0) rank else tree.getD k 0 := by
  induction fuel generalizing tree position with
  | zero =>
    rw [updateFrom, if_neg (by omega)]
  | succ fuel ih =>
    have hnext := lt_nextCell hpos
    rw [updateFrom]
    by_cases hlt : position < tree.length
    · rw [if_pos hlt, ih (by omega) (by rw [length_set]; omega) (by rw [length_set]; exact hk)]
      by_cases hkp : k = position
      · subst hkp
        rw [if_neg (by omega), if_pos ⟨le_refl k, clearLowest_lt hpos⟩,
          getD_eq_getElem?_getD, getElem?_set_self hk, Option.getD_some]
      · have hsame : (tree.set position (max (tree.getD position 0) rank)).getD k 0 = tree.getD k 0 := by
          rw [getD_eq_getElem?_getD, getElem?_set_ne (Ne.symm hkp), ← getD_eq_getElem?_getD]
        rw [hsame]
        by_cases hle : position ≤ k
        · have hcov := covers_iff hpos hle
          by_cases hc : clearLowest k < position
          · rw [if_pos ((hcov.mp hc).resolve_left hkp), if_pos ⟨hle, hc⟩]
          · rw [if_neg (fun h => hc (hcov.mpr (.inr h))), if_neg (fun h => hc h.2)]
        · rw [if_neg (by omega), if_neg (fun h => hle h.1)]
    · rw [if_neg hlt, if_neg (by omega)]

/-- The tree holds the recorded ranks: a cell is the maximum of `value` over what it covers. -/
structure Holds (tree : List ℕ) (value : ℕ → ℕ) : Prop where
  upper : ∀ k < tree.length, ∀ q, clearLowest k ≤ q → q < k → value q ≤ tree.getD k 0
  attained : ∀ k < tree.length, 0 < tree.getD k 0 →
    ∃ q, clearLowest k ≤ q ∧ q < k ∧ value q = tree.getD k 0

theorem holds_replicate (n : ℕ) : Holds (replicate n 0) (fun _ => 0) := by
  refine ⟨by simp, ?_⟩
  intro k _ hpos
  simp [getD_eq_getElem?_getD, getElem?_replicate] at hpos
  split_ifs at hpos <;> simp at hpos

variable {value : ℕ → ℕ}

/-- Recording a rank at a position. -/
theorem Holds.update (h : Holds tree value) (position rank : ℕ) : Holds (update tree position rank)
      (Function.update value position (max (value position) rank)) := by
  have hget : ∀ k < tree.length, (Fenwick.update tree position rank).getD k 0 =
      if position + 1 ≤ k ∧ clearLowest k < position + 1 then max (tree.getD k 0) rank
      else tree.getD k 0 := by
    intro k hk
    exact getD_updateFrom (by omega) (by omega) hk
  refine ⟨?_, ?_⟩
  · intro k hk q hq hqk
    rw [length_update] at hk
    rw [hget k hk]
    have hup := h.upper k hk q hq hqk
    by_cases hqp : q = position
    · subst hqp
      rw [update_self, if_pos (by omega)]
      omega
    · rw [update_of_ne hqp]
      split_ifs <;> omega
  · intro k hk hpos
    rw [length_update] at hk
    rw [hget k hk] at hpos ⊢
    by_cases hcov : position + 1 ≤ k ∧ clearLowest k < position + 1
    · rw [if_pos hcov] at hpos ⊢
      by_cases hle : tree.getD k 0 ≤ rank
      · refine ⟨position, by omega, by omega, ?_⟩
        have := h.upper k hk position (by omega) (by omega)
        rw [update_self]
        omega
      · obtain ⟨q, hq1, hq2, hq3⟩ := h.attained k hk (by omega)
        refine ⟨q, hq1, hq2, ?_⟩
        by_cases hqp : q = position
        · subst hqp
          rw [update_self]
          omega
        · rw [update_of_ne hqp]
          omega
    · rw [if_neg hcov] at hpos ⊢
      obtain ⟨q, hq1, hq2, hq3⟩ := h.attained k hk hpos
      refine ⟨q, hq1, hq2, ?_⟩
      rw [update_of_ne (by omega)]
      exact hq3

theorem queryFrom_spec (h : Holds tree value) {fuel position maximum : ℕ}
    (hfuel : position ≤ fuel) (hpos : position < tree.length) :
    maximum ≤ queryFrom tree fuel position maximum ∧
    (∀ q < position, value q ≤ queryFrom tree fuel position maximum) ∧
    (queryFrom tree fuel position maximum = maximum ∨
      ∃ q < position, value q = queryFrom tree fuel position maximum) := by
  induction fuel generalizing position maximum with
  | zero =>
    exact ⟨le_refl _, by omega, .inl rfl⟩
  | succ fuel ih =>
    rw [queryFrom]
    by_cases hzero : 0 < position
    · have hlt := clearLowest_lt hzero
      rw [if_pos hzero]
      obtain ⟨h1, h2, h3⟩ := @ih (clearLowest position) (max maximum (tree.getD position 0))
        (by omega) (by omega)
      refine ⟨by omega, ?_, ?_⟩
      · intro q hq
        by_cases hcov : clearLowest position ≤ q
        · have := h.upper position hpos q hcov hq
          omega
        · exact h2 q (by omega)
      · rcases h3 with h3 | ⟨q, hq, hval⟩
        · by_cases hle : tree.getD position 0 ≤ maximum
          · omega
          · right
            obtain ⟨q, hq1, hq2, hq3⟩ := h.attained position hpos (by omega)
            exact ⟨q, hq2, by omega⟩
        · exact .inr ⟨q, by omega, hval⟩
    · rw [if_neg hzero]
      exact ⟨le_refl _, by omega, .inl rfl⟩

theorem query_spec (h : Holds tree value) {position : ℕ} (hpos : position < tree.length) :
    (∀ q < position, value q ≤ query tree position) ∧
    (query tree position = 0 ∨ ∃ q < position, value q = query tree position) := by
  obtain ⟨_, h2, h3⟩ := @queryFrom_spec tree value h position position 0 (le_refl position) hpos
  exact ⟨h2, h3⟩

end Fenwick
