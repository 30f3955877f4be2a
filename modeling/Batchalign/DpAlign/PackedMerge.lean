import Batchalign.Lib.Lanes
import Batchalign.DpAlign.ZeroPadded

/- The maximum of two packed score functions (`packed_literal/arithmetic.rs`). Eight scores are compared
   at once, a byte lane each, biased by 16. The running difference is a whole number: the length of a
   vector cannot leave `i64`. -/
namespace Batchalign.DpAlign
open PackedWord List

/-- How many of the lowest bits of a byte are set, a lane for each position. -/
def ranks (bits : BitVec 8) : BitVec 64 :=
  ((List.range 8).foldl (fun (rank, table) byte =>
    let rank := rank + ((bits >>> byte) &&& 1).setWidth 64
    (rank, table ||| rank <<< (8 * byte))) ((0, 0) : BitVec 64 × BitVec 64)).2

section Increments
variable (ab bb : BitVec 8) (difference : ℤ)

def biasedLeft : BitVec 64 := ranks ab + ones * BitVec.ofInt 64 (16 + difference)

def biasedRight : BitVec 64 := ranks bb + ones * 16

/-- `mask`: the lanes in which the left score is not below the right one. -/
def leftLanes : BitVec 64 :=
  let choose := ((biasedLeft ab difference ||| high) - biasedRight bb) &&& high
  (choose >>> 7) * 255

def laneScores : BitVec 64 :=
  (biasedLeft ab difference &&& leftLanes ab bb difference) |||
    (biasedRight bb &&& ~~~(leftLanes ab bb difference))

def previousScores : BitVec 64 :=
  (laneScores ab bb difference <<< 8) ||| BitVec.ofInt 64 (16 + max difference 0)

/-- The increments of the maximum over the positions of a byte. -/
def increments : BitVec 64 :=
  if 8 ≤ difference then ab.setWidth 64
  else if difference ≤ -8 then bb.setWidth 64
  else ((laneScores ab bb difference - previousScores ab bb difference) * pack) >>> 56

end Increments

/-- `(x >> (8 * byte)) & 255`. -/
def byteOf (x : BitVec 64) (byte : ℕ) : BitVec 8 := x.extractLsb' (8 * byte) 8

def maximumByte (a b : BitVec 64) (state : BitVec 64 × ℤ) (byte : ℕ) : BitVec 64 × ℤ :=
  let ab := byteOf a byte
  let bb := byteOf b byte
  (state.1 ||| increments ab bb state.2 <<< (8 * byte), state.2 + (countOnes ab - countOnes bb))

/-- The word, and the difference after it. -/
def maximumWord (a b : BitVec 64) (difference : ℤ) : BitVec 64 × ℤ :=
  (List.range 8).foldl (maximumByte a b) (0, difference)

/-- The words from `block` on. -/
def mergeFrom (a b : ℕ → BitVec 64) (difference : ℤ) (block : ℕ) : ℕ → List (BitVec 64)
  | 0 => []
  | n + 1 =>
    let maximum := maximumWord (a block) (b block) difference
    maximum.1 :: mergeFrom a b maximum.2 (block + 1) n

theorem length_mergeFrom (a b : ℕ → BitVec 64) (n : ℕ) : ∀ (difference : ℤ) (block : ℕ),
    (mergeFrom a b difference block n).length = n := by
  induction n with
  | zero => intros; rfl
  | succ n ih =>
    intro difference block
    rw [mergeFrom, length_cons, ih]

def mergeShifted (left : PackedBits) (leftOffset : ℕ) (right : PackedBits) (rightOffset length : ℕ) :
    PackedBits :=
  .ofWords (mergeFrom (windowWord left.words (.before leftOffset))
    (windowWord right.words (.before rightOffset)) 0 0 ((length + 63) / 64)) length (length_mergeFrom ..)

/-! ## A byte -/

theorem ranks_eq (bits : BitVec 8) : ranks bits = word fun i => onesBelow bits (i + 1) := by
  revert bits
  decide +kernel

variable {ab bb : BitVec 8} {difference : ℤ} {i : ℕ}

theorem onesBelow_le {w : ℕ} (x : BitVec w) (k : ℕ) : onesBelow x k ≤ k := by
  induction k with
  | zero => exact le_refl 0
  | succ k ih =>
    have := Bool.toNat_le (x.getLsbD k)
    rw [onesBelow]
    omega

/-- The lanes at every step, while none carries or borrows: `c` is the bias of the left scores. -/
structure Lanewise (ab bb : BitVec 8) (difference : ℤ) (c : ℕ) : Prop where
  bias : (c : ℤ) = 16 + difference
  left : biasedLeft ab difference = word fun i => onesBelow ab (i + 1) + c
  right : biasedRight bb = word fun i => onesBelow bb (i + 1) + 16
  below : ∀ k ≤ 8, onesBelow ab k + c < 32 ∧ onesBelow bb k + 16 < 32
  compared : (biasedLeft ab difference ||| high) - biasedRight bb =
    word fun i => onesBelow ab (i + 1) + c + 128 - (onesBelow bb (i + 1) + 16)
  scores : laneScores ab bb difference =
    word fun i => max (onesBelow ab (i + 1) + c) (onesBelow bb (i + 1) + 16)
  stepped : laneScores ab bb difference - previousScores ab bb difference =
    word fun i => max (onesBelow ab (i + 1) + c) (onesBelow bb (i + 1) + 16) -
      max (onesBelow ab i + c) (onesBelow bb i + 16)

theorem lane_or_high : ∀ s < 32, ∀ j < 8, (s + 128).testBit j = (s.testBit j || high.getLsbD j) := by
  decide

theorem lane_compare : ∀ s < 32, ∀ t < 32, (s + 128 - t).testBit 7 = decide (t ≤ s) := by
  decide +kernel

theorem high_lane : ∀ i < 8, ∀ j < 8, high.getLsbD (8 * i + j) = high.getLsbD j := by
  decide

theorem lanewise (h : -8 < difference) (h' : difference < 8) : ∃ c, Lanewise ab bb difference c := by
  obtain ⟨c, hc⟩ : ∃ c : ℕ, (c : ℤ) = 16 + difference := ⟨(16 + difference).toNat, by omega⟩
  have hbelow : ∀ k ≤ 8, onesBelow ab k + c < 32 ∧ onesBelow bb k + 16 < 32 := by
    intro k hk
    have := onesBelow_le ab k
    have := onesBelow_le bb k
    omega
  have ha : ∀ i < 8, onesBelow ab (i + 1) + c < 256 := fun i hi => by have := hbelow (i + 1) hi; omega
  have hb : ∀ i < 8, onesBelow bb (i + 1) + 16 < 256 := fun i hi => by have := hbelow (i + 1) hi; omega
  have hleft : biasedLeft ab difference = word fun i => onesBelow ab (i + 1) + c := by
    rw [biasedLeft, ← hc, BitVec.ofInt_natCast, ones_mul, ranks_eq, word_add]
  have hright : biasedRight bb = word fun i => onesBelow bb (i + 1) + 16 := by
    rw [biasedRight, ranks_eq]
    exact (congrArg _ (ones_mul 16)).trans (word_add _ _)
  have hcompared : (biasedLeft ab difference ||| high) - biasedRight bb =
      word fun i => onesBelow ab (i + 1) + c + 128 - (onesBelow bb (i + 1) + 16) := by
    have hor : biasedLeft ab difference ||| high = word fun i => onesBelow ab (i + 1) + c + 128 := by
      refine eq_word (fun i hi => by have := hbelow (i + 1) hi; omega) ?_
      intro i hi j hj
      rw [BitVec.getLsbD_or, hleft, getLsbD_word ha hi hj,
        lane_or_high _ (hbelow (i + 1) hi).1 j hj, high_lane i hi j hj]
    rw [hor, hright, word_sub fun i hi => by have := hbelow (i + 1) hi; omega]
  have hmask : leftLanes ab bb difference =
      word fun i => (decide (onesBelow bb (i + 1) + 16 ≤ onesBelow ab (i + 1) + c)).toNat * 255 := by
    rw [leftLanes]
    refine (congrArg (· * _) (highBits fun i hi => ?_)).trans (word_mul _ 255)
    rw [hcompared, getLsbD_word (fun i hi => by have := hbelow (i + 1) hi; omega) hi (by omega),
      lane_compare _ (hbelow (i + 1) hi).1 _ (hbelow (i + 1) hi).2]
  have hscores : laneScores ab bb difference =
      word fun i => max (onesBelow ab (i + 1) + c) (onesBelow bb (i + 1) + 16) := by
    refine eq_word (fun i hi => by have := hbelow (i + 1) hi; omega) ?_
    intro i hi j hj
    have hall : ∀ j < 8, (255 : ℕ).testBit j = true := by decide
    have hm : ∀ i < 8, (decide (onesBelow bb (i + 1) + 16 ≤ onesBelow ab (i + 1) + c)).toNat * 255 < 256 := by
      intro i _
      have := Bool.toNat_le (decide (onesBelow bb (i + 1) + 16 ≤ onesBelow ab (i + 1) + c))
      omega
    rw [laneScores, hmask, hleft, hright, BitVec.getLsbD_or, BitVec.getLsbD_and, BitVec.getLsbD_and,
      BitVec.getLsbD_not, getLsbD_word ha hi hj, getLsbD_word hb hi hj, getLsbD_word hm hi hj,
      decide_eq_true (show 8 * i + j < 64 by omega)]
    by_cases hle : onesBelow bb (i + 1) + 16 ≤ onesBelow ab (i + 1) + c
    · rw [decide_eq_true hle, max_eq_left hle]
      simp [hall j hj]
    · rw [decide_eq_false hle, max_eq_right (by omega)]
      simp
  refine ⟨c, hc, hleft, hright, hbelow, hcompared, hscores, ?_⟩
  have hprevious : previousScores ab bb difference =
      word fun i => max (onesBelow ab i + c) (onesBelow bb i + 16) := by
    obtain ⟨d, hd⟩ : ∃ d : ℕ, (d : ℤ) = 16 + max difference 0 := ⟨(16 + max difference 0).toNat, by omega⟩
    refine eq_word (fun i hi => by have := hbelow i (by omega); omega) ?_
    intro i hi j hj
    rw [previousScores, hscores, ← hd, BitVec.ofInt_natCast, BitVec.getLsbD_or, BitVec.getLsbD_shiftLeft,
      BitVec.getLsbD_ofNat, decide_eq_true (show 8 * i + j < 64 by omega)]
    cases i with
    | zero =>
      rw [show max (onesBelow ab 0 + c) (onesBelow bb 0 + 16) = d by simp only [onesBelow]; omega]
      simp [hj]
    | succ i =>
      rw [decide_eq_false (by omega), show 8 * (i + 1) + j - 8 = 8 * i + j by omega,
        getLsbD_word (fun i hi => by have := hbelow (i + 1) hi; omega) (by omega) hj,
        Nat.testBit_lt_two_pow (x := d) (i := 8 * (i + 1) + j) (lt_of_lt_of_le (show d < 2 ^ 8 by omega)
          (Nat.pow_le_pow_right (by omega) (by omega)))]
      simp
  rw [hscores, hprevious, word_sub]
  intro i hi
  rw [onesBelow, onesBelow]
  omega

/-- Scores that grow by the bits of a word. -/
def Grows {w : ℕ} (x : BitVec w) (f : ℕ → ℕ) : Prop := ∀ i < w, f (i + 1) = f i + (x.getLsbD i).toNat

variable {f g : ℕ → ℕ} {a b : BitVec 64}

theorem Grows.eq_add {w : ℕ} {x : BitVec w} (h : Grows x f) {k : ℕ} (hk : k ≤ w) :
    f k = f 0 + onesBelow x k := by
  induction k with
  | zero => rfl
  | succ k ih =>
    rw [h k hk, ih (by omega), onesBelow]
    omega

theorem Grows.byteOf (h : Grows a f) {m : ℕ} (hm : m < 8) :
    Grows (byteOf a m) fun i => f (8 * m + i) := by
  intro i hi
  have := h (8 * m + i) (by omega)
  rw [DpAlign.byteOf, BitVec.getLsbD_extractLsb', decide_eq_true hi, Bool.true_and]
  exact this

theorem increments_row (hf : Grows ab f) (hg : Grows bb g) (hd : difference = (f 0 : ℤ) - g 0) :
    (∀ i < 8, max (f (i + 1)) (g (i + 1)) =
      max (f i) (g i) + ((increments ab bb difference).getLsbD i).toNat) ∧
    ∀ i, 8 ≤ i → (increments ab bb difference).getLsbD i = false := by
  have hbyte : ∀ (x : BitVec 8) i, 8 ≤ i → (x.setWidth 64).getLsbD i = false := by
    intro x i hi
    rw [BitVec.getLsbD_setWidth, BitVec.getLsbD_of_ge x i hi, Bool.and_false]
  have hleft : ∀ k ≤ 8, f k = f 0 + onesBelow ab k := fun k hk => hf.eq_add hk
  have hright : ∀ k ≤ 8, g k = g 0 + onesBelow bb k := fun k hk => hg.eq_add hk
  have ha := onesBelow_le ab
  have hb := onesBelow_le bb
  rw [increments]
  split_ifs with hahead hbehind
  · refine ⟨?_, hbyte ab⟩
    intro i hi
    rw [BitVec.getLsbD_setWidth, decide_eq_true (by omega), Bool.true_and, max_eq_left, max_eq_left]
    · exact hf i hi
    · rw [hleft i (by omega), hright i (by omega)]
      have := hb i
      omega
    · rw [hleft (i + 1) hi, hright (i + 1) hi]
      have := hb (i + 1)
      omega
  · refine ⟨?_, hbyte bb⟩
    intro i hi
    rw [BitVec.getLsbD_setWidth, decide_eq_true (by omega), Bool.true_and, max_eq_right, max_eq_right]
    · exact hg i hi
    · rw [hleft i (by omega), hright i (by omega)]
      have := ha i
      omega
    · rw [hleft (i + 1) hi, hright (i + 1) hi]
      have := ha (i + 1)
      omega
  · obtain ⟨c, hlanes⟩ := @lanewise ab bb difference (by omega) (by omega)
    have hc := hlanes.bias
    have hstep : ∀ i < 8, max (onesBelow ab (i + 1) + c) (onesBelow bb (i + 1) + 16) -
        max (onesBelow ab i + c) (onesBelow bb i + 16) =
          (decide (max (f i) (g i) < max (f (i + 1)) (g (i + 1)))).toNat := by
      intro i hi
      have hfi := hf i hi
      have hgi := hg i hi
      rw [hfi, hgi, onesBelow, onesBelow, hleft i (by omega), hright i (by omega)]
      have := Bool.toNat_le (ab.getLsbD i)
      have := Bool.toNat_le (bb.getLsbD i)
      by_cases hlt : max (f 0 + onesBelow ab i) (g 0 + onesBelow bb i) <
          max (f 0 + onesBelow ab i + (ab.getLsbD i).toNat) (g 0 + onesBelow bb i + (bb.getLsbD i).toNat)
      · rw [decide_eq_true hlt, Bool.toNat_true]
        omega
      · rw [decide_eq_false hlt, Bool.toNat_false]
        omega
    rw [hlanes.stepped, word_congr hstep]
    refine ⟨?_, fun i hi => by rw [gather, decide_eq_false (by omega), Bool.false_and]⟩
    intro i hi
    rw [gather, decide_eq_true hi, Bool.true_and, hf i hi, hg i hi]
    have := Bool.toNat_le (ab.getLsbD i)
    have := Bool.toNat_le (bb.getLsbD i)
    by_cases hlt : max (f i) (g i) < max (f i + (ab.getLsbD i).toNat) (g i + (bb.getLsbD i).toNat)
    · rw [decide_eq_true hlt, Bool.toNat_true]
      omega
    · rw [decide_eq_false hlt, Bool.toNat_false]
      omega

/-! ## A vector -/

theorem maximumWord_row (hf : Grows a f) (hg : Grows b g) (hd : difference = (f 0 : ℤ) - g 0) :
    Grows (maximumWord a b difference).1 (fun i => max (f i) (g i)) ∧
      (maximumWord a b difference).2 = (f 64 : ℤ) - g 64 := by
  have hinv : ∀ m ≤ 8, (∀ i < 8 * m, max (f (i + 1)) (g (i + 1)) = max (f i) (g i) +
        (((range m).foldl (maximumByte a b) (0, difference)).1.getLsbD i).toNat) ∧
      (∀ i, 8 * m ≤ i → ((range m).foldl (maximumByte a b) (0, difference)).1.getLsbD i = false) ∧
      ((range m).foldl (maximumByte a b) (0, difference)).2 = (f (8 * m) : ℤ) - g (8 * m) := by
    intro m
    induction m with
    | zero => exact fun _ => ⟨by omega, fun i _ => BitVec.getLsbD_zero, hd⟩
    | succ m ih =>
      intro hm
      obtain ⟨hrow, hclear, hdiff⟩ := ih (by omega)
      have hleft := hf.byteOf (show m < 8 by omega)
      have hright := hg.byteOf (show m < 8 by omega)
      rw [range_succ, foldl_append, foldl_cons, foldl_nil, maximumByte]
      generalize (range m).foldl (maximumByte a b) (0, difference) = s at *
      obtain ⟨hbyte, hpast⟩ := increments_row hleft hright hdiff
      refine ⟨?_, ?_, ?_⟩
      · intro i hi
        rw [BitVec.getLsbD_or, BitVec.getLsbD_shiftLeft, decide_eq_true (show i < 64 by omega)]
        by_cases hlt : i < 8 * m
        · rw [decide_eq_true hlt, hrow i hlt]
          simp
        · obtain ⟨j, rfl⟩ : ∃ j, i = 8 * m + j := ⟨i - 8 * m, by omega⟩
          rw [hclear _ (by omega), decide_eq_false hlt, Nat.add_sub_cancel_left, add_assoc,
            hbyte j (by omega)]
          simp
      · intro i hi
        rw [BitVec.getLsbD_or, hclear i (by omega), BitVec.getLsbD_shiftLeft, hpast _ (by omega),
          Bool.and_false, Bool.false_or]
      · have hfm : f (8 * m + 8) = _ := hleft.eq_add (le_refl 8)
        have hgm : g (8 * m + 8) = _ := hright.eq_add (le_refl 8)
        rw [hdiff, mul_add, mul_one, hfm, hgm, countOnes, countOnes, add_zero]
        push_cast
        ring
  obtain ⟨hrow, -, hdiff⟩ := hinv 8 (le_refl 8)
  exact ⟨hrow, hdiff⟩

theorem mergeFrom_row {a b : ℕ → BitVec 64} (hf : ∀ block, Grows (a block) fun i => f (64 * block + i))
    (hg : ∀ block, Grows (b block) fun i => g (64 * block + i)) (n : ℕ) :
    ∀ (block : ℕ) (difference : ℤ), difference = (f (64 * block) : ℤ) - g (64 * block) →
      ∀ j < 64 * n, max (f (64 * block + j + 1)) (g (64 * block + j + 1)) =
        max (f (64 * block + j)) (g (64 * block + j)) + (rowBit (mergeFrom a b difference block n) j).toNat := by
  induction n with
  | zero =>
    intro block difference _ j hj
    omega
  | succ n ih =>
    intro block difference hd j hj
    obtain ⟨hword, hnext⟩ := maximumWord_row (hf block) (hg block) hd
    rw [mergeFrom]
    by_cases hlt : j < 64
    · rw [rowBit_head _ _ hlt]
      exact hword j hlt
    · obtain ⟨i, rfl⟩ : ∃ i, j = i + 64 := ⟨j - 64, by omega⟩
      rw [rowBit_cons, show 64 * block + (i + 64) = 64 * (block + 1) + i by omega]
      exact ih (block + 1) _ hnext i (by omega)

theorem windowWord_grows (bits : PackedBits) (offset block : ℕ) :
    Grows (windowWord bits.words (.before offset) block)
      fun i => scoreAt bits.bit (64 * block + i - offset) := by
  intro i hi
  rw [windowWord_before hi]
  by_cases hle : offset ≤ 64 * block + i
  · change scoreAt bits.bit (64 * block + (i + 1) - offset) = _
    rw [decide_eq_true hle, Bool.true_and, show 64 * block + (i + 1) - offset = 64 * block + i - offset + 1 by omega]
    rfl
  · change scoreAt bits.bit (64 * block + (i + 1) - offset) = _
    rw [decide_eq_false hle, Bool.false_and, show 64 * block + (i + 1) - offset = 64 * block + i - offset by omega]
    rfl

/-- The merged vector has the larger score everywhere and nothing past its length; no lane carries or borrows.
  -/
theorem mergeShifted_maximum (left right : PackedBits) (leftOffset rightOffset length : ℕ) :
    (∀ k ≤ length, scoreAt (mergeShifted left leftOffset right rightOffset length).bit k =
      max (scoreAt left.bit (k - leftOffset)) (scoreAt right.bit (k - rightOffset))) ∧
    (mergeShifted left leftOffset right rightOffset length).length = length ∧
    (∀ j, length ≤ j → (mergeShifted left leftOffset right rightOffset length).bit j = false) ∧
    ∀ (ab bb : BitVec 8) (difference : ℤ), -8 < difference → difference < 8 →
      ∃ c, Lanewise ab bb difference c := by
  refine ⟨?_, rfl, (mergeShifted left leftOffset right rightOffset length).clear, fun _ _ _ => lanewise⟩
  have hrow := mergeFrom_row (f := fun k => scoreAt left.bit (k - leftOffset))
    (g := fun k => scoreAt right.bit (k - rightOffset)) (windowWord_grows left leftOffset)
    (windowWord_grows right rightOffset) ((length + 63) / 64) 0 0 (by simp [scoreAt])
  intro k hk
  induction k with
  | zero => simp [scoreAt]
  | succ k ih =>
    have hnext := hrow k (by omega)
    rw [mul_zero, zero_add] at hnext
    rw [scoreAt, ih (by omega), hnext, PackedBits.bit, mergeShifted, PackedBits.ofWords,
      rowBit_clearPastLength (length_mergeFrom ..), decide_eq_true (by omega), Bool.true_and]

end Batchalign.DpAlign
