import Mathlib.Tactic

/- Machine words read bit by bit. `borrowAt i` is the borrow into bit `i` of `x - s - b`: it obeys the
   full subtractor (`borrowAt_succ`), gives the difference (`getLsbD_sub_sub`), and past the last bit is
   what two comparisons compute (`borrowAt_width`). -/
namespace PackedWord

variable {w : ℕ}

def bit (w : ℕ) (b : Bool) : BitVec w := (BitVec.ofBool b).setWidth w

/-- The borrow into bit `i` of `x - s - b`. -/
def borrowAt (x s : BitVec w) (b : Bool) (i : ℕ) : Bool := !BitVec.carry i x (~~~s) (!b)

@[simp] theorem borrowAt_zero (x s : BitVec w) (b : Bool) : borrowAt x s b 0 = b := by
  simp [borrowAt]

variable {i k : ℕ}

theorem borrowAt_succ (x s : BitVec w) (b : Bool) (hi : i < w) : borrowAt x s b (i + 1) =
      if x.getLsbD i then s.getLsbD i && borrowAt x s b i else s.getLsbD i || borrowAt x s b i := by
  simp only [borrowAt, BitVec.carry_succ, BitVec.getLsbD_not, hi, decide_true, Bool.true_and]
  cases x.getLsbD i <;> cases s.getLsbD i <;> cases BitVec.carry i x (~~~s) (!b) <;> rfl

theorem bit_false (w : ℕ) : bit w false = 0#w := by
  simp [bit]

theorem bit_true (w : ℕ) : bit w true = 1#w := by
  apply BitVec.eq_of_toNat_eq
  simp [bit]

theorem sub_sub_bit (x s : BitVec w) (b : Bool) : x - s - bit w b = x + ~~~s + bit w (!b) := by
  rw [BitVec.sub_eq_add_neg x s, BitVec.neg_eq_not_add]
  cases b with
  | false => rw [Bool.not_false, bit_false, bit_true, BitVec.sub_zero, BitVec.add_assoc]
  | true =>
    rw [Bool.not_true, bit_false, bit_true, BitVec.add_zero, ← BitVec.add_assoc, BitVec.add_sub_cancel]

theorem getLsbD_sub_sub (x s : BitVec w) (b : Bool) (hi : i < w) :
    (x - s - bit w b).getLsbD i = (x.getLsbD i ^^ (s.getLsbD i ^^ borrowAt x s b i)) := by
  rw [sub_sub_bit, bit, BitVec.getLsbD_add_add_bool hi, borrowAt, BitVec.getLsbD_not]
  simp only [hi, decide_true, Bool.true_and]
  cases x.getLsbD i <;> cases s.getLsbD i <;> cases BitVec.carry i x (~~~s) (!b) <;> rfl

theorem borrowAt_width (x s : BitVec w) (b : Bool) (hw : 0 < w) :
    borrowAt x s b w = (x.ult s || (x - s).ult (bit w b)) := by
  have hone : (1 : ℕ) < 2 ^ w := Nat.one_lt_two_pow (by omega)
  have hbit : (bit w b).toNat = b.toNat := by
    cases b with
    | false => simp [bit_false]
    | true => simp [bit_true, Nat.mod_eq_of_lt hone]
  rw [borrowAt, BitVec.carry_width, BitVec.toNat_not, BitVec.ult, BitVec.ult, hbit]
  by_cases hlt : x.toNat < s.toNat
  · cases b <;> simp [hlt] <;> omega
  · have hsub : (x - s).toNat = x.toNat - s.toNat := by
      rw [BitVec.toNat_sub]
      rw [show 2 ^ w - s.toNat + x.toNat = x.toNat - s.toNat + 2 ^ w by omega, Nat.add_mod_right,
        Nat.mod_eq_of_lt (by omega)]
    rw [hsub, decide_eq_false hlt, Bool.false_or, ← decide_not]
    apply decide_eq_decide.mpr
    cases b
    all_goals simp
    all_goals omega

/-! ## Counting set bits -/

/-- How many of the lowest `k` bits are set. -/
def onesBelow (x : BitVec w) : ℕ → ℕ
  | 0 => 0
  | k + 1 => onesBelow x k + (x.getLsbD k).toNat

def countOnes (x : BitVec w) : ℕ := onesBelow x w

theorem onesBelow_congr {x y : BitVec w} (h : ∀ i < k, x.getLsbD i = y.getLsbD i) :
    onesBelow x k = onesBelow y k := by
  induction k with
  | zero => rfl
  | succ k ih =>
    rw [onesBelow, onesBelow, ih (fun i hi => h i (by omega)), h k (by omega)]

theorem onesBelow_of_zero {x : BitVec w} {n : ℕ} (hkn : k ≤ n)
    (h : ∀ i, k ≤ i → x.getLsbD i = false) : onesBelow x n = onesBelow x k := by
  induction n with
  | zero =>
    obtain rfl : k = 0 := by omega
    rfl
  | succ n ih =>
    rcases Nat.lt_or_eq_of_le hkn with hlt | rfl
    · rw [onesBelow, h n (by omega), ih (by omega)]
      rfl
    · rfl

theorem getLsbD_lowMask (hk : k < w) (hi : i < w) : ((1#w <<< k) - 1#w).getLsbD i = decide (i < k) := by
  have hlt : 2 ^ k < 2 ^ w := Nat.pow_lt_pow_right (by omega) hk
  have hone : 1 < 2 ^ w := Nat.one_lt_two_pow (by omega)
  have hshift : (1#w <<< k).toNat = 2 ^ k := by
    rw [BitVec.toNat_shiftLeft, BitVec.toNat_ofNat, Nat.mod_eq_of_lt hone, Nat.one_shiftLeft,
      Nat.mod_eq_of_lt hlt]
  have hpos : 1 ≤ 2 ^ k := Nat.one_le_two_pow
  have hmask : ((1#w <<< k) - 1#w).toNat = 2 ^ k - 1 := by
    rw [BitVec.toNat_sub, hshift, BitVec.toNat_ofNat, Nat.mod_eq_of_lt hone,
      show 2 ^ w - 1 + 2 ^ k = 2 ^ k - 1 + 2 ^ w by omega, Nat.add_mod_right,
      Nat.mod_eq_of_lt (by omega)]
  rw [BitVec.getLsbD, hmask, Nat.testBit_two_pow_sub_one]

theorem countOnes_and_lowMask (x : BitVec w) (hk : k < w) :
    countOnes (x &&& ((1#w <<< k) - 1#w)) = onesBelow x k := by
  rw [countOnes, onesBelow_of_zero (le_of_lt hk)]
  · apply onesBelow_congr
    intro i hi
    rw [BitVec.getLsbD_and, getLsbD_lowMask hk (by omega), decide_eq_true hi, Bool.and_true]
  · intro i hi
    by_cases hiw : i < w
    · rw [BitVec.getLsbD_and, getLsbD_lowMask hk hiw, decide_eq_false (by omega), Bool.and_false]
    · exact BitVec.getLsbD_of_ge _ _ (by omega)

end PackedWord
