import Mathlib.Algebra.BigOperators.Intervals
import Mathlib.Algebra.Order.BigOperators.Ring.Finset
import Mathlib.Algebra.Order.Field.Basic
import Mathlib.Data.List.GetD
import Mathlib.Tactic.Linarith

/- Isotonic fits: the list that never decreases closest to a given one in the sum of squares. `IsFit n x
   f` certifies it: no partial sum of `f` is above that of `x`, and the two are equal at the end and
   wherever `f` ascends. -/
namespace Isotonic

open Finset
open List (getD_eq_getElem)

variable {K : Type*} [Field K] [LinearOrder K] [IsStrictOrderedRing K]

/-- `f` never decreases up to `n`; its partial sums stay at or below those of `x`, equal at the end and
  ascents. -/
structure IsFit (n : ℕ) (x f : ℕ → K) : Prop where
  mono : ∀ i, i + 1 < n → f i ≤ f (i + 1)
  below : ∀ k ≤ n, ∑ i ∈ range k, f i ≤ ∑ i ∈ range k, x i
  tight : ∀ i, i + 1 < n → f i < f (i + 1) → ∑ j ∈ range (i + 1), f j = ∑ j ∈ range (i + 1), x j
  total : ∑ i ∈ range n, f i = ∑ i ∈ range n, x i

omit [Field K] [IsStrictOrderedRing K] in
theorem le_of_steps {n : ℕ} {f : ℕ → K} (hmono : ∀ i, i + 1 < n → f i ≤ f (i + 1)) {i j : ℕ}
    (hij : i ≤ j) (hj : j < n) : f i ≤ f j := by
  induction j, hij using Nat.le_induction with
  | base => exact le_rfl
  | succ j _ ih => exact (ih (by omega)).trans (hmono j hj)

namespace IsFit

variable {n : ℕ} {x f : ℕ → K}

theorem slack_nonneg (h : IsFit n x f) {k : ℕ} (hk : k ≤ n) : 0 ≤ ∑ i ∈ range k, (x i - f i) := by
  rw [sum_sub_distrib, sub_nonneg]
  exact h.below k hk

variable {y : ℕ → K} {i : ℕ}

theorem sum_mul_le (h : IsFit n x f) (hy : ∀ i, i + 1 < n → y i ≤ y (i + 1)) {m : ℕ} (hm : m < n) :
    ∑ i ∈ range (m + 1), (x i - f i) * y i ≤ (∑ i ∈ range (m + 1), (x i - f i)) * y m := by
  induction m with
  | zero => simp
  | succ m ih =>
    have hslack := h.slack_nonneg (k := m + 1) (by omega)
    calc ∑ i ∈ range (m + 1 + 1), (x i - f i) * y i
        = ∑ i ∈ range (m + 1), (x i - f i) * y i + (x (m + 1) - f (m + 1)) * y (m + 1) :=
          sum_range_succ _ _
      _ ≤ (∑ i ∈ range (m + 1), (x i - f i)) * y m + (x (m + 1) - f (m + 1)) * y (m + 1) := by
          gcongr
          exact ih (by omega)
      _ ≤ (∑ i ∈ range (m + 1), (x i - f i)) * y (m + 1) + (x (m + 1) - f (m + 1)) * y (m + 1) := by
          gcongr
          exact hy m hm
      _ = (∑ i ∈ range (m + 1 + 1), (x i - f i)) * y (m + 1) := by
          rw [sum_range_succ _ (m + 1), add_mul]

omit [IsStrictOrderedRing K] in
theorem sum_mul_eq (h : IsFit n x f) {m : ℕ} (hm : m < n) :
    ∑ i ∈ range (m + 1), (x i - f i) * f i = (∑ i ∈ range (m + 1), (x i - f i)) * f m := by
  induction m with
  | zero => simp
  | succ m ih =>
    have hstep : (∑ i ∈ range (m + 1), (x i - f i)) * f m =
        (∑ i ∈ range (m + 1), (x i - f i)) * f (m + 1) := by
      obtain heq | hlt := (h.mono m hm).eq_or_lt
      · rw [heq]
      · have hzero : ∑ i ∈ range (m + 1), (x i - f i) = 0 := by
          rw [sum_sub_distrib, h.tight m hm hlt, sub_self]
        rw [hzero, zero_mul, zero_mul]
    rw [sum_range_succ, ih (by omega), hstep, sum_range_succ _ (m + 1), add_mul]

theorem sum_mul_sub_nonneg (h : IsFit n x f) (hy : ∀ i, i + 1 < n → y i ≤ y (i + 1)) :
    0 ≤ ∑ i ∈ range n, (x i - f i) * (f i - y i) := by
  cases n with
  | zero => simp
  | succ m =>
    have hzero : ∑ i ∈ range (m + 1), (x i - f i) = 0 := by
      rw [sum_sub_distrib, h.total, sub_self]
    have hf := h.sum_mul_eq (Nat.lt_succ_self m)
    have hle := h.sum_mul_le hy (Nat.lt_succ_self m)
    rw [hzero, zero_mul] at hf hle
    calc (0 : K) ≤ ∑ i ∈ range (m + 1), (x i - f i) * f i -
          ∑ i ∈ range (m + 1), (x i - f i) * y i := by linarith only [hf, hle]
      _ = ∑ i ∈ range (m + 1), (x i - f i) * (f i - y i) := by
          rw [← sum_sub_distrib]
          exact sum_congr rfl (fun i _ => (mul_sub _ _ _).symm)

theorem sum_sq_add_le (h : IsFit n x f) (hy : ∀ i, i + 1 < n → y i ≤ y (i + 1)) :
    ∑ i ∈ range n, (x i - f i) ^ 2 + ∑ i ∈ range n, (f i - y i) ^ 2 ≤ ∑ i ∈ range n, (x i - y i) ^ 2 := by
  have hexpand : ∑ i ∈ range n, (x i - y i) ^ 2 = ∑ i ∈ range n, (x i - f i) ^ 2 +
      2 * ∑ i ∈ range n, (x i - f i) * (f i - y i) + ∑ i ∈ range n, (f i - y i) ^ 2 := by
    rw [mul_sum, ← sum_add_distrib, ← sum_add_distrib]
    exact sum_congr rfl (fun i _ => by ring)
  have hresidual := h.sum_mul_sub_nonneg hy
  linarith only [hexpand, hresidual]

theorem eq_of_sum_sq_le (h : IsFit n x f) (hy : ∀ i, i + 1 < n → y i ≤ y (i + 1))
    (hle : ∑ i ∈ range n, (x i - y i) ^ 2 ≤ ∑ i ∈ range n, (x i - f i) ^ 2) (hi : i < n) : y i = f i := by
  have hadd := h.sum_sq_add_le hy
  have hnonneg : ∀ j ∈ range n, 0 ≤ (f j - y j) ^ 2 := fun j _ => sq_nonneg _
  have hzero : ∑ j ∈ range n, (f j - y j) ^ 2 = 0 :=
    le_antisymm (by linarith only [hadd, hle]) (sum_nonneg hnonneg)
  have hterm := (sum_eq_zero_iff_of_nonneg hnonneg).mp hzero i (mem_range.mpr hi)
  exact (sub_eq_zero.mp ((pow_eq_zero_iff two_ne_zero).mp hterm)).symm

omit [IsStrictOrderedRing K] in
theorem self (hx : ∀ i, i + 1 < n → x i ≤ x (i + 1)) : IsFit n x x :=
  ⟨hx, fun _ _ => le_rfl, fun _ _ _ => rfl, rfl⟩

omit [IsStrictOrderedRing K] in
theorem exists_tight_before (h : IsFit n x f) (hi : i < n) :
    ∃ a ≤ i, ∑ j ∈ range a, f j = ∑ j ∈ range a, x j ∧ ∀ t, a ≤ t → t < n → f i ≤ f t := by
  induction i with
  | zero => exact ⟨0, le_rfl, by simp, fun t _ ht => le_of_steps h.mono (Nat.zero_le t) ht⟩
  | succ i ih =>
    obtain heq | hlt := (h.mono i hi).eq_or_lt
    · obtain ⟨a, hai, hsum, hle⟩ := ih (by omega)
      exact ⟨a, by omega, hsum, heq ▸ hle⟩
    · exact ⟨i + 1, le_rfl, h.tight i hi hlt, fun t hit ht => le_of_steps h.mono hit ht⟩

omit [IsStrictOrderedRing K] in
theorem exists_tight_after (h : IsFit n x f) (hi : i < n) :
    ∃ b, i ≤ b ∧ b < n ∧ ∑ j ∈ range (b + 1), f j = ∑ j ∈ range (b + 1), x j ∧ ∀ t ≤ b, f t ≤ f i := by
  obtain ⟨d, hd⟩ : ∃ d, i + d + 1 = n := ⟨n - i - 1, by omega⟩
  induction d generalizing i with
  | zero =>
    refine ⟨i, le_rfl, hi, ?_, fun t ht => le_of_steps h.mono ht hi⟩
    rw [show i + 1 = n by omega]
    exact h.total
  | succ d ih =>
    obtain heq | hlt := (h.mono i (by omega)).eq_or_lt
    · obtain ⟨b, hib, hb, hsum, hle⟩ := ih (i := i + 1) (by omega) (by omega)
      exact ⟨b, by omega, hb, hsum, fun t ht => (hle t ht).trans heq.ge⟩
    · exact ⟨i, le_rfl, hi, h.tight i (by omega) hlt, fun t ht => le_of_steps h.mono ht hi⟩

theorem exists_le_sum (h : IsFit n x f) (hi : i < n) :
    ∃ a ≤ i, ∀ k, i ≤ k → k < n → f i * ((k + 1 - a : ℕ) : K) ≤ ∑ j ∈ Ico a (k + 1), x j := by
  obtain ⟨a, hai, hsum, hle⟩ := h.exists_tight_before hi
  refine ⟨a, hai, fun k hik hk => ?_⟩
  calc f i * ((k + 1 - a : ℕ) : K) = ∑ _j ∈ Ico a (k + 1), f i := by
        rw [sum_const, Nat.card_Ico, nsmul_eq_mul, mul_comm]
    _ ≤ ∑ j ∈ Ico a (k + 1), f j := by
        apply sum_le_sum
        intro t ht
        rw [mem_Ico] at ht
        exact hle t ht.1 (by omega)
    _ = ∑ j ∈ range (k + 1), f j - ∑ j ∈ range a, f j := sum_Ico_eq_sub _ (by omega)
    _ ≤ ∑ j ∈ range (k + 1), x j - ∑ j ∈ range a, x j := by
        rw [hsum]
        exact sub_le_sub_right (h.below (k + 1) hk) _
    _ = ∑ j ∈ Ico a (k + 1), x j := (sum_Ico_eq_sub _ (by omega)).symm

theorem exists_sum_le (h : IsFit n x f) (hi : i < n) : ∃ b, i ≤ b ∧ b < n ∧
      ∀ j ≤ i, ∑ t ∈ Ico j (b + 1), x t ≤ f i * ((b + 1 - j : ℕ) : K) := by
  obtain ⟨b, hib, hb, hsum, hle⟩ := h.exists_tight_after hi
  refine ⟨b, hib, hb, fun j hj => ?_⟩
  calc ∑ t ∈ Ico j (b + 1), x t = ∑ t ∈ range (b + 1), x t - ∑ t ∈ range j, x t :=
        sum_Ico_eq_sub _ (by omega)
    _ ≤ ∑ t ∈ range (b + 1), f t - ∑ t ∈ range j, f t := by
        rw [hsum]
        exact sub_le_sub_left (h.below j (by omega)) _
    _ = ∑ t ∈ Ico j (b + 1), f t := (sum_Ico_eq_sub _ (by omega)).symm
    _ ≤ ∑ _t ∈ Ico j (b + 1), f i := by
        apply sum_le_sum
        intro t ht
        rw [mem_Ico] at ht
        exact hle t (by omega)
    _ = f i * ((b + 1 - j : ℕ) : K) := by
        rw [sum_const, Nat.card_Ico, nsmul_eq_mul, mul_comm]

/-- A fit does not fall where the values do not. -/
theorem le (h : IsFit n x f) (h' : IsFit n y g) (hxy : ∀ t < n, x t ≤ y t) (hi : i < n) : f i ≤ g i := by
  obtain ⟨a, hai, hbelow⟩ := h.exists_le_sum hi
  obtain ⟨b, hib, hb, habove⟩ := h'.exists_sum_le hi
  have hpos : (0 : K) < ((b + 1 - a : ℕ) : K) := Nat.cast_pos.mpr (by omega)
  refine le_of_mul_le_mul_right ?_ hpos
  calc f i * ((b + 1 - a : ℕ) : K) ≤ ∑ t ∈ Ico a (b + 1), x t := hbelow b hib hb
    _ ≤ ∑ t ∈ Ico a (b + 1), y t := by
        apply sum_le_sum
        intro t ht
        rw [mem_Ico] at ht
        exact hxy t (by omega)
    _ ≤ g i * ((b + 1 - a : ℕ) : K) := habove a hai

end IsFit

def mean (xs : List K) : K := xs.sum / xs.length

def sqDist (xs ys : List K) : K := (List.zipWith (fun x y => (x - y) ^ 2) xs ys).sum

/-- The greatest, over the stretches that begin by a place, of the least mean of those that reach it. -/
def maxMinFit (xs : List K) : List K :=
  List.ofFn (fun i : Fin xs.length => (Iic i).sup' nonempty_Iic (fun j =>
    (Ici i).inf' nonempty_Ici (fun k => mean ((xs.take (k + 1)).drop j))))

/-- `fs` is a fit of `xs`, place by place. -/
def Fit (xs fs : List K) : Prop :=
  fs.length = xs.length ∧ IsFit xs.length (fun i => xs.getD i 0) (fun i => fs.getD i 0)

omit [LinearOrder K] [IsStrictOrderedRing K] in
theorem sum_range_getD (xs : List K) (k : ℕ) : ∑ i ∈ range k, xs.getD i 0 = (xs.take k).sum := by
  induction k with
  | zero => simp
  | succ k ih =>
    rw [sum_range_succ, ih]
    by_cases hk : k < xs.length
    · rw [List.take_add_one, List.sum_append, getD_eq_getElem _ _ hk,
        List.getElem?_eq_getElem hk]
      simp
    · rw [List.getD_eq_default _ _ (by omega), List.take_of_length_le (by omega),
        List.take_of_length_le (by omega), add_zero]

omit [LinearOrder K] [IsStrictOrderedRing K] in
theorem sum_Ico_getD (xs : List K) {a k : ℕ} (hak : a ≤ k) :
    ∑ i ∈ Ico a k, xs.getD i 0 = ((xs.take k).drop a).sum := by
  have hsplit := congrArg List.sum (List.take_append_drop a (xs.take k))
  rw [List.sum_append, List.take_take, min_eq_left hak] at hsplit
  rw [sum_Ico_eq_sub _ hak, sum_range_getD, sum_range_getD, ← hsplit, add_sub_cancel_left]

omit [LinearOrder K] [IsStrictOrderedRing K] in
theorem sqDist_eq {xs ys : List K} (h : ys.length = xs.length) :
    sqDist xs ys = ∑ i ∈ range xs.length, (xs.getD i 0 - ys.getD i 0) ^ 2 := by
  induction xs generalizing ys with
  | nil => simp [sqDist]
  | cons x xs ih =>
    cases ys with
    | nil => simp at h
    | cons y ys =>
      have hlen : ys.length = xs.length := by simpa using h
      rw [List.length_cons, sum_range_succ']
      simp only [List.getD_cons_succ, List.getD_cons_zero]
      rw [← ih hlen, add_comm]
      rfl

omit [Field K] [IsStrictOrderedRing K] in
theorem steps_of_pairwise {d : K} {xs : List K} (h : xs.Pairwise (· ≤ ·)) (i : ℕ)
    (hi : i + 1 < xs.length) : xs.getD i d ≤ xs.getD (i + 1) d := by
  rw [getD_eq_getElem _ _ hi, getD_eq_getElem _ _ (by omega)]
  exact List.pairwise_iff_getElem.mp h i (i + 1) (by omega) hi (by omega)

omit [Field K] [IsStrictOrderedRing K] in
theorem pairwise_of_steps {d : K} {xs : List K}
    (h : ∀ i, i + 1 < xs.length → xs.getD i d ≤ xs.getD (i + 1) d) : xs.Pairwise (· ≤ ·) := by
  rw [List.pairwise_iff_getElem]
  intro i j hi hj hij
  have hle := le_of_steps h hij.le hj
  rwa [getD_eq_getElem _ _ hi, getD_eq_getElem _ _ hj] at hle

def FrontHeavy (xs : List K) : Prop := ∀ k ≤ xs.length, (k : K) * mean xs ≤ (xs.take k).sum

theorem length_mul_mean (xs : List K) : (xs.length : K) * mean xs = xs.sum := by
  cases xs with
  | nil => simp
  | cons x xs => exact mul_div_cancel₀ _ (Nat.cast_ne_zero.mpr (Nat.succ_ne_zero _))

omit [IsStrictOrderedRing K] in
theorem FrontHeavy.singleton (x : K) : FrontHeavy [x] := by
  intro k hk
  obtain rfl | rfl : k = 0 ∨ k = 1 := by
    rw [List.length_singleton] at hk
    omega
  · simp
  · simp [mean]

theorem FrontHeavy.append {xs ys : List K} (hx : FrontHeavy xs) (hy : FrontHeavy ys)
    (hne : ys ≠ []) (hle : mean ys ≤ mean xs) : FrontHeavy (xs ++ ys) := by
  intro k hk
  have hsum : (xs.length + ys.length : K) * mean (xs ++ ys) =
      xs.length * mean xs + ys.length * mean ys := by
    rw [length_mul_mean xs, length_mul_mean ys, ← List.sum_append, ← length_mul_mean,
      List.length_append, Nat.cast_add]
  have hx0 : (0 : K) ≤ xs.length := Nat.cast_nonneg _
  have hy0 : (0 : K) < ys.length := Nat.cast_pos.mpr (List.length_pos_of_ne_nil hne)
  -- the mean of both lies between the two
  have hupper : mean (xs ++ ys) ≤ mean xs := by
    have hmul := mul_le_mul_of_nonneg_left hle hy0.le
    by_contra hlt
    have hmul' := mul_lt_mul_of_pos_left (not_le.mp hlt) (add_pos_of_nonneg_of_pos hx0 hy0)
    linarith only [hsum, hmul, hmul']
  have hlower : mean ys ≤ mean (xs ++ ys) := by
    have hmul := mul_le_mul_of_nonneg_left hle hx0
    by_contra hlt
    have hmul' := mul_lt_mul_of_pos_left (not_le.mp hlt) (add_pos_of_nonneg_of_pos hx0 hy0)
    linarith only [hsum, hmul, hmul']
  rw [List.take_append, List.sum_append]
  by_cases hkx : k ≤ xs.length
  · rw [Nat.sub_eq_zero_of_le hkx, List.take_zero, List.sum_nil, add_zero]
    exact (mul_le_mul_of_nonneg_left hupper (Nat.cast_nonneg k)).trans (hx k hkx)
  · rw [List.take_of_length_le (by omega), ← length_mul_mean xs]
    rw [List.length_append] at hk
    have hrest := hy (k - xs.length) (by omega)
    rw [Nat.cast_sub (by omega)] at hrest
    have hleft : (0 : K) ≤ xs.length + ys.length - k := by
      rw [sub_nonneg]
      exact_mod_cast hk
    have hmul := mul_le_mul_of_nonneg_left hlower hleft
    linarith only [hsum, hrest, hmul]

namespace Fit

variable {xs fs ys gs : List K}

omit [IsStrictOrderedRing K] in
theorem pairwise (h : Fit xs fs) : fs.Pairwise (· ≤ ·) := by
  apply pairwise_of_steps (d := 0)
  intro i hi
  exact h.2.mono i (h.1 ▸ hi)

omit [IsStrictOrderedRing K] in
theorem refl (h : xs.Pairwise (· ≤ ·)) : Fit xs xs :=
  ⟨rfl, IsFit.self (steps_of_pairwise h)⟩

theorem sqDist_add_le (h : Fit xs fs) (hlen : ys.length = xs.length)
    (hys : ys.Pairwise (· ≤ ·)) : sqDist xs fs + sqDist fs ys ≤ sqDist xs ys := by
  rw [sqDist_eq h.1, sqDist_eq (hlen.trans h.1.symm), sqDist_eq hlen, h.1]
  exact h.2.sum_sq_add_le (fun i hi => steps_of_pairwise hys i (hlen.symm ▸ hi))

theorem eq_of_sqDist_le (h : Fit xs fs) (hlen : ys.length = xs.length)
    (hys : ys.Pairwise (· ≤ ·)) (hle : sqDist xs ys ≤ sqDist xs fs) : ys = fs := by
  rw [sqDist_eq h.1, sqDist_eq hlen] at hle
  apply List.ext_getElem (hlen.trans h.1.symm)
  intro i hi hi'
  have heq := h.2.eq_of_sum_sq_le (fun i hi => steps_of_pairwise hys i (hlen.symm ▸ hi)) hle
    (hlen ▸ hi)
  rwa [getD_eq_getElem _ _ hi, getD_eq_getElem _ _ hi'] at heq

theorem unique (h : Fit xs fs) (h' : Fit xs gs) : gs = fs := by
  apply h.eq_of_sqDist_le h'.1 h'.pairwise
  have hadd := h'.sqDist_add_le h.1 h.pairwise
  have hnonneg : 0 ≤ sqDist gs fs := by
    rw [sqDist_eq (h.1.trans h'.1.symm)]
    exact sum_nonneg (fun _ _ => sq_nonneg _)
  linarith only [hadd, hnonneg]

theorem eq_self_iff (h : Fit xs fs) : fs = xs ↔ xs.Pairwise (· ≤ ·) := by
  constructor
  · rintro rfl
    exact h.pairwise
  · intro hxs
    exact (refl hxs).unique h

theorem le_mean_iff {a k : ℕ} (ha : a < k) (hk : k ≤ xs.length) (v : K) :
    v ≤ mean ((xs.take k).drop a) ↔ v * ((k - a : ℕ) : K) ≤ ∑ i ∈ Ico a k, xs.getD i 0 := by
  have hlen : ((xs.take k).drop a).length = k - a := by
    rw [List.length_drop, List.length_take, min_eq_left hk]
  have hpos : (0 : K) < ((k - a : ℕ) : K) := Nat.cast_pos.mpr (by omega)
  rw [mean, hlen, le_div_iff₀ hpos, sum_Ico_getD _ ha.le]

theorem mean_le_iff {a k : ℕ} (ha : a < k) (hk : k ≤ xs.length) (v : K) :
    mean ((xs.take k).drop a) ≤ v ↔ ∑ i ∈ Ico a k, xs.getD i 0 ≤ v * ((k - a : ℕ) : K) := by
  have hlen : ((xs.take k).drop a).length = k - a := by
    rw [List.length_drop, List.length_take, min_eq_left hk]
  have hpos : (0 : K) < ((k - a : ℕ) : K) := Nat.cast_pos.mpr (by omega)
  rw [mean, hlen, div_le_iff₀ hpos, sum_Ico_getD _ ha.le]

theorem eq_maxMinFit (h : Fit xs fs) : fs = maxMinFit xs := by
  apply List.ext_getElem
  · rw [maxMinFit, List.length_ofFn, h.1]
  · intro i hi hi'
    have hn : i < xs.length := h.1 ▸ hi
    simp only [maxMinFit, List.getElem_ofFn]
    apply le_antisymm
    · obtain ⟨a, hai, hle⟩ := h.2.exists_le_sum hn
      apply le_sup'_of_le (b := ⟨a, by omega⟩) _ (mem_Iic.mpr hai)
      apply le_inf'
      intro k hk
      have hik : i ≤ k := Fin.le_def.mp (mem_Ici.mp hk)
      have hak : a < (k : ℕ) + 1 := by omega
      rw [← getD_eq_getElem _ 0 hi]
      exact (le_mean_iff hak k.isLt _).mpr (hle k hik k.isLt)
    · obtain ⟨b, hib, hb, hle⟩ := h.2.exists_sum_le hn
      apply sup'_le
      intro j hj
      have hji : j ≤ i := Fin.le_def.mp (mem_Iic.mp hj)
      apply inf'_le_of_le (b := ⟨b, hb⟩) _ (mem_Ici.mpr hib)
      have hjb : (j : ℕ) < b + 1 := by omega
      rw [← getD_eq_getElem _ 0 hi]
      exact (mean_le_iff hjb hb _).mpr (hle j hji)

theorem forall₂_le (h : Fit xs fs) (h' : Fit ys gs) (hle : List.Forall₂ (· ≤ ·) xs ys) :
    List.Forall₂ (· ≤ ·) fs gs := by
  obtain ⟨hlen, hle⟩ := List.forall₂_iff_get.mp hle
  refine List.forall₂_iff_get.mpr ⟨by rw [h.1, h'.1, hlen], fun i hi hi' => ?_⟩
  have hfit := h.2.le (hlen ▸ h'.2) (i := i) ?_ (h.1 ▸ hi)
  · rwa [getD_eq_getElem _ _ hi, getD_eq_getElem _ _ hi'] at hfit
  · intro t ht
    rw [getD_eq_getElem _ _ ht, getD_eq_getElem _ _ (hlen ▸ ht)]
    exact hle t ht (hlen ▸ ht)

theorem forall_le {lo : K} (h : Fit xs fs) (hxs : ∀ x ∈ xs, lo ≤ x) : ∀ f ∈ fs, lo ≤ f := by
  intro f hf
  obtain ⟨i, hi, rfl⟩ := List.mem_iff_getElem.mp hf
  rw [← getD_eq_getElem _ 0 hi]
  apply (IsFit.self (x := fun _ => lo) fun _ _ => le_rfl).le h.2 _ (h.1 ▸ hi)
  intro t ht
  rw [getD_eq_getElem _ _ ht]
  exact hxs _ (List.getElem_mem ht)

theorem forall_ge {hi : K} (h : Fit xs fs) (hxs : ∀ x ∈ xs, x ≤ hi) : ∀ f ∈ fs, f ≤ hi := by
  intro f hf
  obtain ⟨i, hin, rfl⟩ := List.mem_iff_getElem.mp hf
  rw [← getD_eq_getElem _ 0 hin]
  apply h.2.le (IsFit.self (x := fun _ => hi) fun _ _ => le_rfl) _ (h.1 ▸ hin)
  intro t ht
  rw [getD_eq_getElem _ _ ht]
  exact hxs _ (List.getElem_mem ht)

omit [IsStrictOrderedRing K] in
theorem take_sum_le (h : Fit xs fs) (k : ℕ) : (fs.take k).sum ≤ (xs.take k).sum := by
  by_cases hk : k ≤ xs.length
  · have hbelow := h.2.below k hk
    rwa [sum_range_getD, sum_range_getD] at hbelow
  · have htotal := h.2.total
    rw [sum_range_getD, sum_range_getD, ← h.1, List.take_length, h.1, List.take_length]
      at htotal
    rw [List.take_of_length_le (by rw [h.1]; omega), List.take_of_length_le (by omega), htotal]

omit [IsStrictOrderedRing K] in
theorem sum_eq (h : Fit xs fs) : fs.sum = xs.sum := by
  have htotal := h.2.total
  rwa [sum_range_getD, sum_range_getD, ← h.1, List.take_length, h.1, List.take_length]
    at htotal

omit [IsStrictOrderedRing K] in
theorem nil : Fit ([] : List K) [] :=
  ⟨rfl, IsFit.self (fun i hi => absurd hi (by simp))⟩

theorem append (hx : Fit xs fs) (hy : Fit ys gs) (hle : ∀ f ∈ fs, ∀ g ∈ gs, f ≤ g) :
    Fit (xs ++ ys) (fs ++ gs) := by
  have htake : ∀ (us vs : List K) (k : ℕ),
      ((us ++ vs).take k).sum = (us.take k).sum + (vs.take (k - us.length)).sum := by
    intro us vs k
    rw [List.take_append, List.sum_append]
  refine ⟨by rw [List.length_append, List.length_append, hx.1, hy.1], ?_, ?_, ?_, ?_⟩
  · intro i hi
    apply steps_of_pairwise (List.pairwise_append.mpr ⟨hx.pairwise, hy.pairwise, hle⟩)
    rwa [List.length_append, hx.1, hy.1, ← List.length_append]
  · intro k _
    rw [sum_range_getD, sum_range_getD, htake, htake, hx.1]
    exact add_le_add (hx.take_sum_le k) (hy.take_sum_le _)
  · intro i hi hlt
    rw [List.length_append] at hi
    rw [sum_range_getD, sum_range_getD, htake, htake, hx.1]
    by_cases hbefore : i + 1 < xs.length
    · -- an ascent of the first fit
      rw [List.getD_append _ _ _ _ (by rw [hx.1]; omega),
        List.getD_append _ _ _ _ (by rw [hx.1]; omega)] at hlt
      have htight := hx.2.tight i hbefore hlt
      rw [sum_range_getD, sum_range_getD] at htight
      rw [htight, show i + 1 - xs.length = 0 by omega, List.take_zero, List.take_zero]
    · have hfs : (fs.take (i + 1)).sum = (xs.take (i + 1)).sum := by
        rw [List.take_of_length_le (by rw [hx.1]; omega), List.take_of_length_le (by omega),
          hx.sum_eq]
      congr 1
      obtain heq | hafter : i + 1 = xs.length ∨ xs.length ≤ i := by omega
      · rw [heq, Nat.sub_self, List.take_zero, List.take_zero]
      · -- an ascent of the second
        rw [List.getD_append_right _ _ _ _ (by rw [hx.1]; omega),
          List.getD_append_right _ _ _ _ (by rw [hx.1]; omega), hx.1,
          show i + 1 - xs.length = (i - xs.length) + 1 by omega] at hlt
        have htight := hy.2.tight (i - xs.length) (by omega) hlt
        rw [sum_range_getD, sum_range_getD] at htight
        rwa [show i + 1 - xs.length = (i - xs.length) + 1 by omega]
  · rw [sum_range_getD, sum_range_getD, List.take_length, List.length_append, ← hx.1, ← hy.1,
      ← List.length_append, List.take_length, List.sum_append, List.sum_append, hx.sum_eq,
      hy.sum_eq]

theorem block (hne : xs ≠ []) (hfront : FrontHeavy xs) : Fit xs (List.replicate xs.length (mean xs)) := by
  have hpos : (xs.length : K) ≠ 0 :=
    Nat.cast_ne_zero.mpr (List.length_pos_of_ne_nil hne).ne'
  have htake : ∀ k ≤ xs.length,
      ∑ i ∈ range k, (List.replicate xs.length (mean xs)).getD i 0 = (k : K) * mean xs := by
    intro k hk
    rw [sum_range_getD, List.take_replicate, min_eq_left hk, List.sum_replicate, nsmul_eq_mul]
  refine ⟨List.length_replicate, ?_, ?_, ?_, ?_⟩
  · intro i hi
    rw [List.getD_replicate _ hi, List.getD_replicate _ (by omega)]
  · intro k hk
    rw [htake k hk, sum_range_getD]
    exact hfront k hk
  · intro i hi hlt
    rw [List.getD_replicate _ hi, List.getD_replicate _ (by omega)] at hlt
    exact absurd hlt (lt_irrefl _)
  · rw [htake _ le_rfl, sum_range_getD, List.take_length, mean, mul_div_cancel₀ _ hpos]

end Fit

end Isotonic
