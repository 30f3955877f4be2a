import Batchalign.DpAlign.PackedLiteral

/- Packed vectors of a declared length (`dp_align/zero_padded.rs`). Every bit outside of the vector is
   zero; the sums of its bits are the score function it stands for. -/
namespace Batchalign.DpAlign
open PackedWord List

/-- The cumulative sum of the bits before `k`. -/
def scoreAt (bit : ℕ → Bool) : ℕ → ℕ
  | 0 => 0
  | k + 1 => scoreAt bit k + (bit k).toNat

structure PackedBits where
  words : List (BitVec 64)
  length : ℕ
  count : words.length = (length + 63) / 64
  clear : ∀ j, length ≤ j → rowBit words j = false

def PackedBits.bit (bits : PackedBits) (j : ℕ) : Bool := rowBit bits.words j

def clearPastLength (words : List (BitVec 64)) (length : ℕ) : List (BitVec 64) :=
  if length % 64 = 0 then words
  else words.modify (words.length - 1) fun last => last &&& ((1#64 <<< (length % 64)) - 1#64)

inductive WindowStart where
  | atBit (offset : ℕ)
  | before (offset : ℕ)

/-- Word `block` of the window: the vector shifted right by the offset, or left. -/
def windowWord (words : List (BitVec 64)) (start : WindowStart) (block : ℕ) : BitVec 64 :=
  let stored := fun position => words.getD position 0
  match start with
  | .atBit offset =>
    let position := offset / 64 + block
    let shift := offset % 64
    if shift = 0 then stored position
    else (stored position >>> shift) ||| (stored (position + 1) <<< (64 - shift))
  | .before offset =>
    if block < offset / 64 then 0
    else
      let position := block - offset / 64
      let shift := offset % 64
      let low := stored position <<< shift
      if shift = 0 ∨ position = 0 then low else low ||| (stored (position - 1) >>> (64 - shift))

variable {words : List (BitVec 64)} {length offset block i j : ℕ}

theorem rowBit_modify {n : ℕ} (change : BitVec 64 → BitVec 64) (hn : n < words.length) :
    rowBit (words.modify n change) j =
      if j / 64 = n then (change (words.getD n 0)).getLsbD (j % 64) else rowBit words j := by
  simp only [rowBit, getD_eq_getElem?_getD, getElem?_modify]
  split_ifs with hother hsame hsame
  · rw [hsame, getElem?_eq_getElem hn]
    rfl
  · exact absurd hother.symm hsame
  · exact absurd hsame.symm hother
  · cases words[j / 64]? <;> rfl

theorem rowBit_of_le (h : words.length ≤ j / 64) : rowBit words j = false := by
  rw [rowBit, getD_eq_getElem?_getD, getElem?_eq_none h]
  exact BitVec.getLsbD_zero

theorem rowBit_clearPastLength (hcount : words.length = (length + 63) / 64) (j : ℕ) :
    rowBit (clearPastLength words length) j = (decide (j < length) && rowBit words j) := by
  have hpast : length ≤ j → j / 64 = length / 64 ∧ length % 64 ≤ j % 64 ∨ words.length ≤ j / 64 := by
    omega
  rw [clearPastLength]
  split_ifs with hwhole
  · by_cases hj : j < length
    · rw [decide_eq_true hj, Bool.true_and]
    · rw [rowBit_of_le (by omega), Bool.and_false]
  · rw [rowBit_modify _ (by omega), show words.length - 1 = length / 64 by omega]
    split_ifs with hlast
    · rw [BitVec.getLsbD_and, getLsbD_lowMask (by omega) (by omega), ← hlast, Bool.and_comm]
      exact congrArg (· && _) (decide_eq_decide.mpr (by omega))
    · by_cases hj : j < length
      · rw [decide_eq_true hj, Bool.true_and]
      · rw [rowBit_of_le (by omega), Bool.and_false]

/-- The vector of the given words, the bits past its length cleared. -/
def PackedBits.ofWords (words : List (BitVec 64)) (length : ℕ)
    (hcount : words.length = (length + 63) / 64) : PackedBits where
  words := clearPastLength words length
  length := length
  count := by
    rw [← hcount, clearPastLength]
    split_ifs <;> simp
  clear := by
    intro j hj
    rw [rowBit_clearPastLength hcount, decide_eq_false (by omega), Bool.false_and]

theorem getLsbD_funnel {low high : BitVec 64} {shift : ℕ} (hpos : 0 < shift) (hshift : shift < 64)
    (hi : i < 64) : ((low >>> shift) ||| (high <<< (64 - shift))).getLsbD i =
      if shift + i < 64 then low.getLsbD (shift + i) else high.getLsbD (shift + i - 64) := by
  rw [BitVec.getLsbD_or, BitVec.getLsbD_ushiftRight, BitVec.getLsbD_shiftLeft]
  split_ifs with hlt
  · rw [decide_eq_true (show i < 64 - shift by omega)]
    simp
  · rw [BitVec.getLsbD_of_ge low _ (by omega), decide_eq_true hi, decide_eq_false (by omega),
      show i - (64 - shift) = shift + i - 64 by omega]
    simp

theorem windowWord_atBit (hi : i < 64) :
    (windowWord words (.atBit offset) block).getLsbD i = rowBit words (offset + (64 * block + i)) := by
  simp only [windowWord, rowBit]
  split_ifs with hshift
  · rw [show (offset + (64 * block + i)) / 64 = offset / 64 + block by omega,
      show (offset + (64 * block + i)) % 64 = i by omega]
  · rw [getLsbD_funnel (by omega) (by omega) hi]
    split_ifs with hlt
    · rw [show (offset + (64 * block + i)) / 64 = offset / 64 + block by omega,
        show (offset + (64 * block + i)) % 64 = offset % 64 + i by omega]
    · rw [show (offset + (64 * block + i)) / 64 = offset / 64 + block + 1 by omega,
        show (offset + (64 * block + i)) % 64 = offset % 64 + i - 64 by omega]

theorem windowWord_before (hi : i < 64) : (windowWord words (.before offset) block).getLsbD i =
      (decide (offset ≤ 64 * block + i) && rowBit words (64 * block + i - offset)) := by
  simp only [windowWord, rowBit]
  split_ifs with hbefore hlow
  · rw [decide_eq_false (by omega)]
    simp
  · rw [BitVec.getLsbD_shiftLeft, decide_eq_true hi, Bool.true_and]
    by_cases hle : offset ≤ 64 * block + i
    · rw [decide_eq_true hle, decide_eq_false (by omega),
        show (64 * block + i - offset) / 64 = block - offset / 64 by omega,
        show (64 * block + i - offset) % 64 = i - offset % 64 by omega, Bool.not_false]
    · rw [decide_eq_false hle, decide_eq_true (by omega), Bool.not_true, Bool.false_and, Bool.false_and]
  · obtain ⟨position, hposition⟩ : ∃ position, block - offset / 64 = position + 1 :=
      ⟨block - offset / 64 - 1, by omega⟩
    have hfunnel := @getLsbD_funnel i (words.getD position 0) (words.getD (position + 1) 0)
      (64 - offset % 64) (by omega) (by omega) hi
    rw [show 64 - (64 - offset % 64) = offset % 64 by omega, BitVec.or_comm] at hfunnel
    rw [hposition, Nat.add_sub_cancel, hfunnel, decide_eq_true (by omega), Bool.true_and]
    split_ifs with hlt
    · rw [show (64 * block + i - offset) / 64 = position by omega,
        show (64 * block + i - offset) % 64 = 64 - offset % 64 + i by omega]
    · rw [show (64 * block + i - offset) / 64 = position + 1 by omega,
        show (64 * block + i - offset) % 64 = 64 - offset % 64 + i - 64 by omega]

end Batchalign.DpAlign
