import Mathlib.Data.List.Basic

/- Lists whose elements carry consecutive numbers. `Numbered idx f l`: they are numbered from `f` on by
   `idx`; `slice l f a b` is the stretch from `a` to before `b`. Operations by number are then
   operations on positions. -/
namespace Numbering
open List

variable {α : Type} {idx : α → ℕ} {f : ℕ} {l : List α}

def Numbered (idx : α → ℕ) (f : ℕ) (l : List α) : Prop :=
  ∀ i (h : i < l.length), idx l[i] = f + i

/-- The elements numbered from `a` up to `b`, of a list numbered from `f`. -/
def slice (l : List α) (f a b : ℕ) : List α := (l.drop (a - f)).take (b - a)

theorem slice_self : slice l f f (f + l.length) = l := by
  unfold slice
  rw [Nat.sub_self, drop_zero, Nat.add_sub_cancel_left, take_length]

variable {a b d : ℕ}

theorem length_slice (hfa : f ≤ a) (hb : b ≤ f + l.length) : (slice l f a b).length = b - a := by
  unfold slice
  rw [length_take, length_drop]
  omega

theorem slice_append (hfa : f ≤ a) (hab : a ≤ b) (hbd : b ≤ d) :
    slice l f a b ++ slice l f b d = slice l f a d := by
  have hlen : d - a = (b - a) + (d - b) := by omega
  have hdrop : b - f = (a - f) + (b - a) := by omega
  unfold slice
  rw [hlen, take_add, hdrop, drop_drop]

theorem take_slice (hd : d ≤ b) : (slice l f a b).take (d - a) = slice l f a d := by
  unfold slice
  rw [take_take, Nat.min_eq_left (by omega)]

theorem drop_slice (hfa : f ≤ a) (had : a ≤ d) : (slice l f a b).drop (d - a) = slice l f d b := by
  have hpos : a - f + (d - a) = d - f := by omega
  have hlen : b - a - (d - a) = b - d := by omega
  unfold slice
  rw [drop_take, drop_drop, hpos, hlen]

section
variable (h : Numbered idx f l)
include h

theorem Numbered.of_slice (hfa : f ≤ a) : Numbered idx a (slice l f a b) := by
  intro i hi
  have hi' : i < b - a ∧ a - f + i < l.length := by
    unfold slice at hi
    rw [length_take, length_drop] at hi
    omega
  have hnum := h (a - f + i) hi'.2
  simp only [slice, getElem_take, getElem_drop]
  omega

theorem Numbered.idx_of_mem {x : α} (hx : x ∈ l) : f ≤ idx x ∧ idx x < f + l.length := by
  obtain ⟨i, hi, hget⟩ := mem_iff_getElem.mp hx
  have hnum := h i hi
  rw [hget] at hnum
  omega

theorem Numbered.idx_of_mem_slice (hfa : f ≤ a) (hb : b ≤ f + l.length) {x : α}
    (hx : x ∈ slice l f a b) : a ≤ idx x ∧ idx x < b := by
  have hmem := (h.of_slice (b := b) hfa).idx_of_mem hx
  rw [length_slice hfa hb] at hmem
  omega

theorem Numbered.filter_eq_slice (hfa : f ≤ a) (hab : a ≤ b)
    (hb : b ≤ f + l.length) {p : α → Bool} (hp : ∀ x, p x = true ↔ a ≤ idx x ∧ idx x < b) :
    l.filter p = slice l f a b := by
  have hcut : l = slice l f f a ++ slice l f a b ++ slice l f b (f + l.length) := by
    rw [slice_append (Nat.le_refl f) hfa hab, slice_append (Nat.le_refl f) (by omega) hb, slice_self]
  have hbefore : (slice l f f a).filter p = [] := by
    rw [filter_eq_nil_iff]
    intro x hx hpx
    have hlow := h.idx_of_mem_slice (Nat.le_refl f) (by omega) hx
    have hin := (hp x).mp hpx
    omega
  have hinside : (slice l f a b).filter p = slice l f a b := by
    rw [filter_eq_self]
    intro x hx
    exact (hp x).mpr (h.idx_of_mem_slice hfa hb hx)
  have hafter : (slice l f b (f + l.length)).filter p = [] := by
    rw [filter_eq_nil_iff]
    intro x hx hpx
    have hhigh := h.idx_of_mem_slice (by omega) (Nat.le_refl _) hx
    have hin := (hp x).mp hpx
    omega
  calc l.filter p
      = (slice l f f a ++ slice l f a b ++ slice l f b (f + l.length)).filter p := by
        rw [← hcut]
    _ = slice l f a b := by
        rw [filter_append, filter_append, hbefore, hinside, hafter, nil_append, append_nil]

theorem Numbered.findIdx?_eq {x : ℕ} (hf : f ≤ x) (hx : x < f + l.length) :
    l.findIdx? (fun w => idx w == x) = some (x - f) := by
  rw [findIdx?_eq_some_iff_getElem]
  have hpos : x - f < l.length := by omega
  refine ⟨hpos, ?_, ?_⟩
  · have hnum := h (x - f) hpos
    simp only [beq_iff_eq]
    omega
  · intro j hj
    have hnum := h j (by omega)
    simp only [beq_iff_eq]
    omega

theorem Numbered.findIdx?_lt {x : ℕ} (hf : f ≤ x) (hx : x < f + l.length) :
    (l.findIdx? fun w => decide (x < idx w)).getD l.length = x + 1 - f := by
  have hbelow : ∀ j (hj : j < l.length), j < x + 1 - f → ¬ x < idx l[j] := by
    intro j hj hlt
    have hnum := h j hj
    omega
  by_cases hend : x + 1 - f < l.length
  · have hfound : l.findIdx? (fun w => decide (x < idx w)) = some (x + 1 - f) := by
      rw [findIdx?_eq_some_iff_getElem]
      refine ⟨hend, ?_, ?_⟩
      · have hnum := h (x + 1 - f) hend
        simp only [decide_eq_true_eq]
        omega
      · intro j hj
        simp only [decide_eq_true_eq]
        exact hbelow j (by omega) hj
    rw [hfound, Option.getD_some]
  · have hnone : l.findIdx? (fun w => decide (x < idx w)) = none := by
      rw [findIdx?_eq_none_iff]
      intro w hw
      have hmem := h.idx_of_mem hw
      simp only [decide_eq_false_iff_not]
      omega
    rw [hnone, Option.getD_none]
    omega

end

end Numbering
