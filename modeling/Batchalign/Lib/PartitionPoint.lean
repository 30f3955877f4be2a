import Mathlib.Data.List.Basic
import Mathlib.Data.List.TakeWhile

/- Partition points: how many elements of a list come before the first that fails a test. On a
   list whose tests never turn from failing to passing they are the ones that pass. -/
namespace PartitionPoint

theorem le_takeWhile_iff {α : Type*} (p : α → Bool) (l : List α) {i : ℕ} :
    i ≤ (l.takeWhile p).length ↔ ∀ k < i, ∃ x, l[k]? = some x ∧ p x := by
  induction l generalizing i with
  | nil =>
    cases i with
    | zero => simp
    | succ i =>
      apply iff_of_false (Nat.not_succ_le_zero i)
      intro h
      obtain ⟨x, hx, _⟩ := h 0 (Nat.succ_pos i)
      cases hx
  | cons x l ih =>
    cases i with
    | zero => simp
    | succ i =>
      rw [List.takeWhile_cons]
      cases hx : p x with
      | false =>
        refine iff_of_false (by simp) fun hall => ?_
        obtain ⟨y, hy, hp⟩ := hall 0 (Nat.succ_pos i)
        obtain rfl : x = y := by simpa using hy
        rw [hx] at hp
        cases hp
      | true =>
        rw [if_pos rfl, List.length_cons, Nat.succ_le_succ_iff, ih]
        constructor
        · intro hall k hk
          cases k with
          | zero => exact ⟨x, rfl, hx⟩
          | succ k => exact hall k (Nat.lt_of_succ_lt_succ hk)
        · exact fun hall k hk => hall (k + 1) (Nat.succ_lt_succ hk)

theorem lt_takeWhile_iff {α : Type*} {p : α → Bool} {l : List α}
    (hsorted : l.Pairwise fun a b => p b = true → p a = true) {i : ℕ} :
    i < (l.takeWhile p).length ↔ ∃ a, l[i]? = some a ∧ p a = true := by
  rw [← Nat.succ_le_iff, le_takeWhile_iff]
  constructor
  · exact fun hall => hall i (Nat.lt_succ_self i)
  · rintro ⟨a, ha, hp⟩ j hj
    obtain ⟨hlt, rfl⟩ := List.getElem?_eq_some_iff.mp ha
    have hjlt : j < l.length := lt_of_le_of_lt (Nat.le_of_lt_succ hj) hlt
    refine ⟨l[j], List.getElem?_eq_getElem hjlt, ?_⟩
    rcases Nat.lt_succ_iff_lt_or_eq.mp hj with hji | rfl
    · exact List.pairwise_iff_getElem.mp hsorted j i hjlt hlt hji hp
    · exact hp

end PartitionPoint
