import Batchalign.Lib.Chain

/- Concatenations of segments, and chains between two of them. `offset xs i` is where segment `i`
   begins. Where a chain meets two blocks together or not at all (`Isolates`), a longest one covers
   equal blocks whole (`covers_of_longest`). -/
namespace Segments
open Chain List

variable {α : Type}

/-- Where segment `i` begins. -/
def offset (xs : List (List α)) (i : ℕ) : ℕ := (xs.take i).flatten.length

/-- The segment of each position, counted from `k`. -/
def slotsFrom : ℕ → List (List α) → List ℕ
  | _, [] => []
  | k, x :: xs => List.replicate x.length k ++ slotsFrom (k + 1) xs

variable {xs : List (List α)} {i j p : ℕ}

@[simp] theorem offset_zero (xs : List (List α)) : offset xs 0 = 0 := rfl

theorem offset_cons_succ (x : List α) (xs : List (List α)) (i : ℕ) :
    offset (x :: xs) (i + 1) = x.length + offset xs i := by
  unfold offset
  rw [take_succ_cons, flatten_cons, length_append]

theorem offset_mono (xs : List (List α)) (h : i ≤ j) : offset xs i ≤ offset xs j := by
  induction xs generalizing i j with
  | nil =>
    unfold offset
    rw [take_nil, take_nil]
  | cons x xs ih =>
    cases i with
    | zero => exact Nat.zero_le _
    | succ i =>
      cases j with
      | zero => omega
      | succ j =>
        rw [offset_cons_succ, offset_cons_succ]
        have hrest := ih (Nat.le_of_succ_le_succ h)
        omega

theorem offset_length (xs : List (List α)) : offset xs xs.length = xs.flatten.length := by
  unfold offset
  rw [take_length]

theorem offset_succ {x : List α} (h : xs[i]? = some x) : offset xs (i + 1) = offset xs i + x.length := by
  unfold offset
  rw [take_add_one, h, Option.toList_some, flatten_append, length_append, flatten_singleton]

theorem drop_take_flatten (xs : List (List α)) (h : i ≤ j) :
    (xs.flatten.drop (offset xs i)).take (offset xs j - offset xs i) = ((xs.drop i).take (j - i)).flatten := by
  have hcut : xs.flatten = (xs.take i).flatten ++ ((xs.drop i).take (j - i)).flatten ++ (xs.drop j).flatten := by
    rw [← flatten_append, ← flatten_append]
    congr 1
    have hdrop : xs.drop j = (xs.drop i).drop (j - i) := by
      rw [drop_drop]
      congr 1
      omega
    rw [hdrop, append_assoc, take_append_drop, take_append_drop]
  have hlen : offset xs j = offset xs i + ((xs.drop i).take (j - i)).flatten.length := by
    have htake : xs.take j = xs.take i ++ (xs.drop i).take (j - i) := by
      rw [← take_add]
      congr 1
      omega
    unfold offset
    rw [htake, flatten_append, length_append]
  rw [hlen, Nat.add_sub_cancel_left, hcut, append_assoc]
  unfold offset
  rw [drop_left, take_left]

theorem le_of_slotsFrom {k v : ℕ} (h : (slotsFrom k xs)[p]? = some v) : k ≤ v := by
  induction xs generalizing k p with
  | nil => cases h
  | cons x xs ih =>
    unfold slotsFrom at h
    have hmem := mem_of_getElem? h
    rw [mem_append] at hmem
    obtain hmem | hmem := hmem
    · exact Nat.le_of_eq (eq_of_mem_replicate hmem).symm
    · obtain ⟨q, hq⟩ := mem_iff_getElem?.mp hmem
      exact Nat.le_of_succ_le (ih hq)

/-- Which segment a position lies in. -/
theorem slotsFrom_getElem? (k : ℕ) (xs : List (List α)) (p i : ℕ) :
    (slotsFrom k xs)[p]? = some (k + i) ↔ i < xs.length ∧ offset xs i ≤ p ∧ p < offset xs (i + 1) := by
  induction xs generalizing k p i with
  | nil =>
    constructor
    · intro h
      cases h
    · rintro ⟨h, -⟩
      cases h
  | cons x xs ih =>
    unfold slotsFrom
    by_cases hp : p < x.length
    · rw [getElem?_append_left (by rwa [length_replicate]), getElem?_replicate_of_lt hp]
      cases i with
      | zero =>
        rw [offset_cons_succ]
        simp only [offset_zero, add_zero, length_cons, true_iff]
        omega
      | succ i =>
        rw [offset_cons_succ, offset_cons_succ]
        simp only [Option.some.injEq, length_cons]
        omega
    · rw [getElem?_append_right (by rw [length_replicate]; omega), length_replicate]
      cases i with
      | zero =>
        simp only [offset_cons_succ, offset_zero]
        constructor
        · intro h
          -- the segments after this one are numbered from `k + 1`
          have hle := le_of_slotsFrom h
          omega
        · omega
      | succ i =>
        have hnext := ih (k + 1) (p - x.length) i
        rw [show k + (i + 1) = k + 1 + i from by omega, hnext, offset_cons_succ, offset_cons_succ, length_cons]
        omega

theorem slot_exists (hp : p < xs.flatten.length) : ∃ i, i < xs.length ∧ offset xs i ≤ p ∧ p < offset xs (i + 1) := by
  induction xs generalizing p with
  | nil => cases hp
  | cons x xs ih =>
    by_cases hx : p < x.length
    · refine ⟨0, Nat.succ_pos _, Nat.zero_le _, ?_⟩
      rw [offset_cons_succ]
      omega
    · rw [flatten_cons, length_append] at hp
      obtain ⟨i, hi, hlow, hhigh⟩ := ih (p := p - x.length) (by omega)
      refine ⟨i + 1, Nat.succ_lt_succ hi, ?_, ?_⟩
      · rw [offset_cons_succ]
        omega
      · rw [offset_cons_succ]
        omega

/-! ## Blocks -/

variable {M : ℕ → ℕ → Bool} {m n : ℕ} {c : List (ℕ × ℕ)} {q q' : ℕ × ℕ}

theorem lt_iff_of_chain (h : IsChain M m n c) (hq : q ∈ c) (hq' : q' ∈ c) : q.1 < q'.1 ↔ q.2 < q'.2 := by
  obtain ⟨i, hi, rfl⟩ := mem_iff_getElem.mp hq
  obtain ⟨j, hj, rfl⟩ := mem_iff_getElem.mp hq'
  have hinc := pairwise_iff_getElem.mp h.increasing
  obtain hlt | heq | hgt := lt_trichotomy i j
  · have hbefore := hinc i j hi hj hlt
    exact ⟨fun _ => hbefore.2, fun _ => hbefore.1⟩
  · subst heq
    exact ⟨fun h => absurd h (lt_irrefl _), fun h => absurd h (lt_irrefl _)⟩
  · have hbefore := hinc j i hj hi hgt
    exact ⟨fun h => absurd h (Nat.not_lt_of_gt hbefore.1), fun h => absurd h (Nat.not_lt_of_gt hbefore.2)⟩

theorem eq_of_chain_fst (h : IsChain M m n c) (hq : q ∈ c) (hq' : q' ∈ c) (heq : q.1 = q'.1) : q = q' := by
  have hlt := lt_iff_of_chain h hq hq'
  have hgt := lt_iff_of_chain h hq' hq
  apply Prod.ext heq
  omega

/-- Each pair of `c` is before both blocks, inside both or after both. -/
def Isolates (c : List (ℕ × ℕ)) (a a' b b' : ℕ) : Prop :=
  ∀ q ∈ c, (q.1 < a ∧ q.2 < b) ∨ ((a ≤ q.1 ∧ q.1 < a') ∧ b ≤ q.2 ∧ q.2 < b') ∨ (a' ≤ q.1 ∧ b' ≤ q.2)

/-- The pairs of `c` inside the first block. -/
def inside (c : List (ℕ × ℕ)) (a a' : ℕ) : List (ℕ × ℕ) := c.filter fun q => a ≤ q.1 ∧ q.1 < a'

variable {a b k : ℕ}

theorem length_blocks (c : List (ℕ × ℕ)) {a' : ℕ} (h : a ≤ a') : (c.filter fun q => q.1 < a).length +
    (inside c a a').length + (c.filter fun q => a' ≤ q.1).length = c.length := by
  unfold inside
  induction c with
  | nil => rfl
  | cons q c ih =>
    simp only [filter_cons, decide_eq_true_eq, length_cons]
    split <;> split <;> split <;> (try simp only [length_cons]) <;> omega

def diagonalPairs (a b k : ℕ) : List (ℕ × ℕ) := (List.range k).map fun t => (a + t, b + t)

theorem isChain_replace (h : IsChain M m n c) (hiso : Isolates c a (a + k) b (b + k)) (hm : a + k ≤ m)
    (hn : b + k ≤ n) (hdiag : ∀ t < k, M (a + t) (b + t) = true) :
    IsChain M m n ((c.filter fun q => q.1 < a) ++ diagonalPairs a b k ++ c.filter fun q => a + k ≤ q.1) := by
  have hbefore : ∀ q ∈ c.filter fun q => decide (q.1 < a), q ∈ c ∧ q.1 < a ∧ q.2 < b := by
    intro q hq
    rw [mem_filter, decide_eq_true_eq] at hq
    obtain hcase | hcase | hcase := hiso q hq.1
    · exact ⟨hq.1, hcase⟩
    · omega
    · omega
  have hafter : ∀ q ∈ c.filter fun q => decide (a + k ≤ q.1), q ∈ c ∧ a + k ≤ q.1 ∧ b + k ≤ q.2 := by
    intro q hq
    rw [mem_filter, decide_eq_true_eq] at hq
    obtain hcase | hcase | hcase := hiso q hq.1
    · omega
    · omega
    · exact ⟨hq.1, hcase⟩
  have hblock : ∀ q ∈ diagonalPairs a b k, ∃ t < k, q = (a + t, b + t) := by
    intro q hq
    obtain ⟨t, ht, rfl⟩ := mem_map.mp hq
    exact ⟨t, mem_range.mp ht, rfl⟩
  have hcase : ∀ q ∈ (c.filter fun q => decide (q.1 < a)) ++ diagonalPairs a b k ++
      c.filter fun q => decide (a + k ≤ q.1), q ∈ c ∨ ∃ t < k, q = (a + t, b + t) := by
    intro q hq
    rw [mem_append, mem_append] at hq
    obtain (hq | hq) | hq := hq
    · exact Or.inl (hbefore q hq).1
    · exact Or.inr (hblock q hq)
    · exact Or.inl (hafter q hq).1
  refine ⟨?_, ?_, ?_⟩
  · rw [pairwise_append, pairwise_append]
    refine ⟨⟨h.increasing.filter _, ?_, ?_⟩, h.increasing.filter _, ?_⟩
    · unfold diagonalPairs
      rw [pairwise_map]
      exact pairwise_lt_range.imp fun {t t'} hlt => ⟨by simp only; omega, by simp only; omega⟩
    · intro q hq q' hq'
      have hlow := hbefore q hq
      obtain ⟨t, ht, rfl⟩ := hblock q' hq'
      exact ⟨by simp only; omega, by simp only; omega⟩
    · intro q hq q' hq'
      have hhigh := hafter q' hq'
      rw [mem_append] at hq
      obtain hq | hq := hq
      · have hlow := hbefore q hq
        exact ⟨by omega, by omega⟩
      · obtain ⟨t, ht, rfl⟩ := hblock q hq
        exact ⟨by simp only; omega, by simp only; omega⟩
  · intro q hq
    obtain hq | ⟨t, ht, rfl⟩ := hcase q hq
    · exact h.matching q hq
    · exact hdiag t ht
  · intro q hq
    obtain hq | ⟨t, ht, rfl⟩ := hcase q hq
    · exact h.inside q hq
    · exact ⟨by simp only; omega, by simp only; omega⟩

theorem covers_of_nodup {l : List ℕ} (hnodup : l.Nodup) (hin : ∀ x ∈ l, a ≤ x ∧ x < a + k) (hlen : k ≤ l.length)
    {x : ℕ} (hx : a ≤ x) (hx' : x < a + k) : x ∈ l := by
  by_contra hnot
  have hsub : x :: l ⊆ range' a k := by
    intro y hy
    rw [mem_range'_1]
    cases hy with
    | head => exact ⟨hx, hx'⟩
    | tail _ hy => exact hin y hy
  have hcount := (subperm_of_subset (nodup_cons.mpr ⟨hnot, hnodup⟩) hsub).length_le
  rw [length_cons, length_range'] at hcount
  omega

section
variable (h : IsChain M m n c)
include h

theorem covers_left (hlen : k ≤ (inside c a (a + k)).length) {p : ℕ} (hp : a ≤ p)
    (hp' : p < a + k) : ∃ q ∈ c, q.1 = p := by
  have hnodup : ((inside c a (a + k)).map Prod.fst).Nodup := by
    unfold Nodup
    rw [pairwise_map]
    exact (h.increasing.filter _).imp fun {q q'} hlt => Nat.ne_of_lt hlt.1
  have hmem : p ∈ (inside c a (a + k)).map Prod.fst := by
    apply covers_of_nodup hnodup _ (by rwa [length_map]) hp hp'
    intro x hx
    obtain ⟨q, hq, rfl⟩ := mem_map.mp hx
    exact of_decide_eq_true (mem_filter.mp hq).2
  obtain ⟨q, hq, hqp⟩ := mem_map.mp hmem
  exact ⟨q, (mem_filter.mp hq).1, hqp⟩

theorem covers_right (hiso : Isolates c a (a + k) b (b + k))
    (hlen : k ≤ (inside c a (a + k)).length) {r : ℕ} (hr : b ≤ r) (hr' : r < b + k) : ∃ q ∈ c, q.2 = r := by
  have hnodup : ((inside c a (a + k)).map Prod.snd).Nodup := by
    unfold Nodup
    rw [pairwise_map]
    exact (h.increasing.filter _).imp fun {q q'} hlt => Nat.ne_of_lt hlt.2
  have hmem : r ∈ (inside c a (a + k)).map Prod.snd := by
    apply covers_of_nodup hnodup _ (by rwa [length_map]) hr hr'
    intro x hx
    obtain ⟨q, hq, rfl⟩ := mem_map.mp hx
    obtain ⟨hqc, hqin⟩ := mem_filter.mp hq
    have hblock := of_decide_eq_true hqin
    obtain hcase | hcase | hcase := hiso q hqc
    · omega
    · exact hcase.2
    · omega
  obtain ⟨q, hq, hqr⟩ := mem_map.mp hmem
  exact ⟨q, (mem_filter.mp hq).1, hqr⟩

theorem length_inside_of_longest (hlongest : ∀ d, IsChain M m n d → d.length ≤ c.length)
    (hiso : Isolates c a (a + k) b (b + k)) (hm : a + k ≤ m) (hn : b + k ≤ n)
    (hdiag : ∀ t < k, M (a + t) (b + t) = true) : k ≤ (inside c a (a + k)).length := by
  have hle := hlongest _ (isChain_replace h hiso hm hn hdiag)
  have hcount := length_blocks c (Nat.le_add_right a k)
  rw [length_append, length_append, diagonalPairs, length_map, length_range] at hle
  omega

theorem diagonal {b' : ℕ} (hleft : ∀ p, a ≤ p → p < a + k → ∃ r, (p, r) ∈ c ∧ b ≤ r ∧ r < b')
    (hright : ∀ r, b ≤ r → r < b' → ∃ p, (p, r) ∈ c ∧ a ≤ p ∧ p < a + k) : ∀ t < k, (a + t, b + t) ∈ c := by
  intro t
  induction t using Nat.strong_induction_on with
  | _ t ih =>
    intro ht
    obtain ⟨r, hr, hlow, hhigh⟩ := hleft (a + t) (by omega) (by omega)
    -- the partner of `a + t` is past the diagonal so far
    have hge : b + t ≤ r := by
      by_contra hlt
      push Not at hlt
      have hprev := ih (r - b) (by omega) (by omega)
      rw [show b + (r - b) = r from by omega] at hprev
      have hsame := lt_iff_of_chain h hprev hr
      simp only at hsame
      omega
    -- and what stands on the diagonal has a partner that is not after it
    obtain ⟨p, hp, hplow, hphigh⟩ := hright (b + t) (by omega) (by omega)
    have horder := lt_iff_of_chain h hr hp
    have hback := lt_iff_of_chain h hp hr
    simp only at horder hback
    by_cases heq : p = a + t
    · rw [heq] at hp
      exact hp
    · have hbefore : p < a + t := by omega
      have hprev := ih (p - a) (by omega) (by omega)
      rw [show a + (p - a) = p from by omega] at hprev
      have hsame := eq_of_chain_fst h hprev hp rfl
      rw [Prod.mk.injEq] at hsame
      omega

end

end Segments
