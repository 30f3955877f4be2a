import Mathlib.Data.BitVec
import Mathlib.Tactic

/- Saturating sum, difference and product of machine words, and the sum of a list, which wraps, read
   back as numbers (`toNat_add`, `toNat_sub`, `toNat_mul`, `toNat_sum`). -/
namespace Saturating

variable {w : ℕ}

def add (a b : BitVec w) : BitVec w :=
  if a.toNat + b.toNat < 2 ^ w then a + b else BitVec.allOnes w

def sub (a b : BitVec w) : BitVec w :=
  if b.toNat ≤ a.toNat then a - b else 0#w

def mul (a b : BitVec w) : BitVec w :=
  if a.toNat * b.toNat < 2 ^ w then a * b else BitVec.allOnes w

theorem toNat_add (a b : BitVec w) : (add a b).toNat = min (a.toNat + b.toNat) (2 ^ w - 1) := by
  unfold add
  split
  · rename_i hfits
    rw [BitVec.toNat_add, Nat.mod_eq_of_lt hfits]
    omega
  · rw [BitVec.toNat_allOnes]
    omega

theorem toNat_add_of_lt {a b : BitVec w} (h : a.toNat + b.toNat < 2 ^ w) :
    (add a b).toNat = a.toNat + b.toNat := by
  rw [toNat_add]
  omega

@[simp]
theorem toNat_sub (a b : BitVec w) : (sub a b).toNat = a.toNat - b.toNat := by
  unfold sub
  split
  · rename_i hle
    exact BitVec.toNat_sub_of_le hle
  · simp only [BitVec.toNat_ofNat, Nat.zero_mod]
    omega

theorem toNat_mul (a b : BitVec w) : (mul a b).toNat = min (a.toNat * b.toNat) (2 ^ w - 1) := by
  unfold mul
  split
  · rename_i hfits
    rw [BitVec.toNat_mul, Nat.mod_eq_of_lt hfits]
    omega
  · rw [BitVec.toNat_allOnes]
    omega

theorem toNat_mul_of_lt {a b c : BitVec w} (h : (mul a b).toNat < c.toNat) :
    (mul a b).toNat = a.toNat * b.toNat := by
  rw [toNat_mul] at h ⊢
  omega

theorem toNat_sum (l : List (BitVec w)) : l.sum.toNat = (l.map BitVec.toNat).sum % 2 ^ w := by
  induction l with
  | nil => simp
  | cons a l ih =>
    calc (a :: l).sum.toNat
        = (a.toNat + l.sum.toNat) % 2 ^ w := by rw [List.sum_cons, BitVec.toNat_add]
      _ = (a.toNat + (l.map BitVec.toNat).sum) % 2 ^ w := by rw [ih, Nat.add_mod_mod]
      _ = ((a :: l).map BitVec.toNat).sum % 2 ^ w := by rw [List.map_cons, List.sum_cons]

end Saturating
