import Mathlib.Data.List.Basic

/- Shuffles of two lists: both in their order, one between the elements of the other. -/
namespace Shuffle

variable {α : Type*} {a b c : List α} {x : α}

/-- `c` is a shuffle of `a` and `b`. -/
inductive IsShuffle : List α → List α → List α → Prop
  | nil : IsShuffle [] [] []
  | left {x : α} {a b c : List α} : IsShuffle a b c → IsShuffle (x :: a) b (x :: c)
  | right {x : α} {a b c : List α} : IsShuffle a b c → IsShuffle a (x :: b) (x :: c)

namespace IsShuffle

theorem alone (a : List α) : IsShuffle a [] a := by
  induction a with
  | nil => exact .nil
  | cons x a ih => exact .left ih

theorem eq_of_alone (h : IsShuffle a [] c) : c = a := by
  generalize hb : ([] : List α) = b at h
  induction h with
  | nil => rfl
  | left _ ih => rw [ih hb]
  | right => cases hb

/-- A shuffle has the elements of both lists. -/
theorem perm (h : IsShuffle a b c) : c.Perm (a ++ b) := by
  induction h with
  | nil => exact .refl _
  | left _ ih => exact ih.cons _
  | right _ ih => exact (ih.cons _).trans List.perm_middle.symm

theorem alone_right (b : List α) : IsShuffle [] b b := by
  induction b with
  | nil => exact .nil
  | cons x b ih => exact .right ih

section
variable (h : IsShuffle a b c)
include h

theorem append {a' b' c' : List α} (h' : IsShuffle a' b' c') :
    IsShuffle (a ++ a') (b ++ b') (c ++ c') := by
  induction h with
  | nil => exact h'
  | left _ ih => exact .left ih
  | right _ ih => exact .right ih

theorem sublist_left : a.Sublist c := by
  induction h with
  | nil => exact .refl _
  | left _ ih => exact ih.cons_cons _
  | right _ ih => exact ih.cons _

theorem sublist_right : b.Sublist c := by
  induction h with
  | nil => exact .refl _
  | left _ ih => exact ih.cons _
  | right _ ih => exact ih.cons_cons _

theorem length_eq : c.length = a.length + b.length := by
  rw [h.perm.length_eq, List.length_append]

end

theorem merge (le : α → α → Bool) (a b : List α) : IsShuffle a b (a.merge b le) := by
  induction a generalizing b with
  | nil =>
    rw [List.nil_merge]
    exact alone_right b
  | cons x a iha =>
    induction b with
    | nil =>
      rw [List.merge_right]
      exact alone (x :: a)
    | cons y b ihb =>
      rw [List.cons_merge_cons]
      split
      · exact .left (iha (y :: b))
      · exact .right ihb

end IsShuffle

end Shuffle
