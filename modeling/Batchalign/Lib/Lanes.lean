import Batchalign.Lib.PackedWord

/- Words of eight byte lanes `f 0 … f 7` (`word`). Sums, multiples and differences act on the lanes as
   long as those of the result are bytes; a bitwise operation is read lane by lane (`eq_word`). `gather`
   brings one bit of each lane into the lowest byte. -/
namespace PackedWord

variable {f g : ℕ → ℕ} {n k : ℕ}

def lanes : ℕ → (ℕ → ℕ) → ℕ
  | 0, _ => 0
  | n + 1, f => 2 ^ (8 * n) * f n + lanes n f

def word (f : ℕ → ℕ) : BitVec 64 := BitVec.ofNat 64 (lanes 8 f)

def ones : BitVec 64 := 0x0101010101010101#64
def high : BitVec 64 := 0x8080808080808080#64
def low : BitVec 64 := 0x7f7f7f7f7f7f7f7f#64
def pack : BitVec 64 := 0x0102040810204080#64

theorem lanes_congr (h : ∀ i < n, f i = g i) : lanes n f = lanes n g := by
  induction n with
  | zero => rfl
  | succ n ih => rw [lanes, lanes, h n (by omega), ih fun i hi => h i (by omega)]

theorem lanes_add (n : ℕ) (f g : ℕ → ℕ) : lanes n (fun i => f i + g i) = lanes n f + lanes n g := by
  induction n with
  | zero => rfl
  | succ n ih =>
    rw [lanes, lanes, lanes, ih, mul_add]
    omega

theorem lanes_mul (n c : ℕ) (f : ℕ → ℕ) : lanes n (fun i => f i * c) = lanes n f * c := by
  induction n with
  | zero => rw [lanes, lanes, zero_mul]
  | succ n ih => rw [lanes, lanes, ih, add_mul, mul_assoc]

theorem lanes_lt (h : ∀ i < n, f i < 256) : lanes n f < 2 ^ (8 * n) := by
  induction n with
  | zero => exact Nat.one_pos
  | succ n ih =>
    have hlast : 2 ^ (8 * n) * f n ≤ 2 ^ (8 * n) * 255 := Nat.mul_le_mul_left _ (Nat.le_of_lt_succ (h n (by omega)))
    have hrest := ih fun i hi => h i (by omega)
    rw [lanes, mul_add, mul_one, pow_add]
    omega

theorem testBit_lanes (h : ∀ i < n, f i < 256) (hk : k < 8 * n) :
    (lanes n f).testBit k = (f (k / 8)).testBit (k % 8) := by
  induction n with
  | zero => omega
  | succ n ih =>
    have hrest : ∀ i < n, f i < 256 := fun i hi => h i (by omega)
    rw [lanes, Nat.testBit_two_pow_mul_add _ (lanes_lt hrest)]
    split_ifs with hlt
    · exact ih hrest hlt
    · rw [show k / 8 = n by omega, show k % 8 = k - 8 * n by omega]

theorem word_congr (h : ∀ i < 8, f i = g i) : word f = word g := by
  rw [word, word, lanes_congr h]

theorem getLsbD_word (h : ∀ i < 8, f i < 256) {i j : ℕ} (hi : i < 8) (hj : j < 8) :
    (word f).getLsbD (8 * i + j) = (f i).testBit j := by
  rw [word, BitVec.getLsbD_ofNat, decide_eq_true (by omega), Bool.true_and, testBit_lanes h (by omega),
    show (8 * i + j) / 8 = i by omega, show (8 * i + j) % 8 = j by omega]

/-- A word is read lane by lane. -/
theorem eq_word {x : BitVec 64} (h : ∀ i < 8, f i < 256)
    (hx : ∀ i < 8, ∀ j < 8, x.getLsbD (8 * i + j) = (f i).testBit j) : x = word f := by
  apply BitVec.eq_of_getLsbD_eq
  intro k hk
  have hlane := hx (k / 8) (by omega) (k % 8) (by omega)
  rw [← getLsbD_word h (by omega) (by omega), show 8 * (k / 8) + k % 8 = k by omega] at hlane
  exact hlane

theorem word_add (f g : ℕ → ℕ) : word f + word g = word fun i => f i + g i := by
  rw [word, word, word, lanes_add, BitVec.ofNat_add]

theorem word_mul (f : ℕ → ℕ) (c : ℕ) : word f * BitVec.ofNat 64 c = word fun i => f i * c := by
  rw [word, word, lanes_mul, BitVec.ofNat_mul]

theorem word_sub (h : ∀ i < 8, g i ≤ f i) : word f - word g = word fun i => f i - g i := by
  have hsum : word (fun i => f i - g i) + word g = word f := by
    rw [word_add]
    exact word_congr fun i hi => Nat.sub_add_cancel (h i hi)
  rw [← hsum, BitVec.add_sub_cancel]

theorem ones_eq : ones = word fun _ => 1 := by decide +kernel

theorem ones_mul (c : ℕ) : ones * BitVec.ofNat 64 c = word fun _ => c := by
  rw [ones_eq, word_mul]
  exact word_congr fun i _ => one_mul c

/-- The top bit of every lane, brought down to its lowest bit. -/
theorem highBits {x : BitVec 64} {p : ℕ → Bool} (h : ∀ i < 8, x.getLsbD (8 * i + 7) = p i) :
    (x &&& high) >>> 7 = word fun i => (p i).toNat := by
  have hhigh : ∀ k < 64, high.getLsbD k = decide (k % 8 = 7) := by decide
  refine eq_word (fun i _ => lt_of_le_of_lt (Bool.toNat_le _) (by omega)) ?_
  intro i hi j hj
  rw [BitVec.getLsbD_ushiftRight, BitVec.getLsbD_and]
  cases j with
  | zero =>
    rw [show 7 + (8 * i + 0) = 8 * i + 7 by omega, h i hi, hhigh _ (by omega)]
    cases p i <;> simp
  | succ j =>
    have hclear : high.getLsbD (7 + (8 * i + (j + 1))) = false := by
      by_cases hlt : 7 + (8 * i + (j + 1)) < 64
      · rw [hhigh _ hlt, decide_eq_false (by omega)]
      · exact BitVec.getLsbD_of_ge _ _ (by omega)
    rw [hclear, Bool.and_false]
    cases p i <;> simp [Nat.testBit_succ]

/-- One bit of each lane, gathered in the lowest byte. -/
theorem gather (p : ℕ → Bool) {i : ℕ} :
    ((word (fun i => (p i).toNat) * pack) >>> 56).getLsbD i = (decide (i < 8) && p i) := by
  by_cases hi : i < 8
  · have hall : ∀ a b c d e f g h : Bool, ∀ i < 8,
        ((word (fun i => ([a, b, c, d, e, f, g, h].getD i false).toNat) * pack) >>> 56).getLsbD i =
          [a, b, c, d, e, f, g, h].getD i false := by decide +kernel
    have hlist : ∀ i < 8, [p 0, p 1, p 2, p 3, p 4, p 5, p 6, p 7].getD i false = p i := by
      intro i hi
      interval_cases i <;> rfl
    have hgathered := hall (p 0) (p 1) (p 2) (p 3) (p 4) (p 5) (p 6) (p 7) i hi
    rw [hlist i hi, word_congr fun i hi => congrArg Bool.toNat (hlist i hi)] at hgathered
    rw [hgathered, decide_eq_true hi, Bool.true_and]
  · rw [decide_eq_false hi, Bool.false_and, BitVec.getLsbD_ushiftRight]
    exact BitVec.getLsbD_of_ge _ _ (by omega)

end PackedWord
