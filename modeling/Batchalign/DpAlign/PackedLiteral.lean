import Batchalign.Lib.PackedWord
import Batchalign.Lib.Chain
import Batchalign.DpAlign.Comparison

/- The packed row kernel (`dp_align/packed_literal.rs`, `packed_literal/arithmetic.rs`).

   Interruption by the caller's work control returns no row and is left out. -/
namespace Batchalign.DpAlign
open PackedWord List

/-- One word of the next row, with the carry and the borrow into the next word. -/
def step (old matched carry : BitVec 64) (borrow : Bool) : BitVec 64 × BitVec 64 × Bool :=
  let x := old ||| matched
  let shifted := (old <<< 1) ||| carry
  let difference := x - shifted
  let first := x.ult shifted
  let second := difference.ult (bit 64 borrow)
  (x &&& ~~~(difference - bit 64 borrow), old >>> 63, first || second)

/-- The mask of a block at the cursor, the list of postings not read yet. -/
def takePosting (block : ℕ) (postings : List (ℕ × BitVec 64)) : BitVec 64 × List (ℕ × BitVec 64) :=
  match postings with
  | (position, mask) :: rest => if position = block then (mask, rest) else (0, postings)
  | [] => (0, [])

/-- The loop of `extend_sparse` from a given word on. -/
def extendSparseFrom (block : ℕ) (carry : BitVec 64) (borrow : Bool) :
    List (BitVec 64) → List (ℕ × BitVec 64) → List (BitVec 64)
  | [], _ => []
  | state :: bits, postings =>
    let read := takePosting block postings
    let next := step state read.1 carry borrow
    next.1 :: extendSparseFrom (block + 1) next.2.1 next.2.2 bits read.2

def extendSparse (bits : List (BitVec 64)) (postings : List (ℕ × BitVec 64)) : List (BitVec 64) :=
  extendSparseFrom 0 1 false bits postings

/-- Bit `j` of a packed row. -/
def rowBit (bits : List (BitVec 64)) (j : ℕ) : Bool := (bits.getD (j / 64) 0).getLsbD (j % 64)

/-! ## The bit recurrence -/

theorem step_bits (old matched : BitVec 64) (c b : Bool) : ∃ borrow : ℕ → Bool, borrow 0 = b ∧
      (∀ i < 64, borrow (i + 1) = if old.getLsbD i || matched.getLsbD i then
          (if i = 0 then c else old.getLsbD (i - 1)) && borrow i
        else (if i = 0 then c else old.getLsbD (i - 1)) || borrow i) ∧
      (∀ i < 64, (step old matched (bit 64 c) b).1.getLsbD i = ((old.getLsbD i || matched.getLsbD i) &&
          ((if i = 0 then c else old.getLsbD (i - 1)) ^^ borrow i))) ∧
      (step old matched (bit 64 c) b).2.1 = bit 64 (old.getLsbD 63) ∧
      (step old matched (bit 64 c) b).2.2 = borrow 64 := by
  have hshift : ∀ i < 64, ((old <<< 1) ||| bit 64 c).getLsbD i =
      if i = 0 then c else old.getLsbD (i - 1) := by
    intro i hi
    cases i with
    | zero => cases c <;> simp [bit]
    | succ i =>
      have hc : (bit 64 c).getLsbD (i + 1) = false := by
        cases c <;> simp [bit]
      rw [BitVec.getLsbD_or, BitVec.getLsbD_shiftLeft, hc]
      simp [hi]
  refine ⟨borrowAt (old ||| matched) ((old <<< 1) ||| bit 64 c) b, borrowAt_zero _ _ _, ?_, ?_, ?_, ?_⟩
  · intro i hi
    rw [borrowAt_succ _ _ _ hi, hshift i hi, BitVec.getLsbD_or]
  · intro i hi
    rw [step, BitVec.getLsbD_and, BitVec.getLsbD_not, getLsbD_sub_sub _ _ _ hi, hshift i hi,
      BitVec.getLsbD_or]
    generalize borrowAt (old ||| matched) ((old <<< 1) ||| bit 64 c) b i = e
    simp only [hi, decide_true, Bool.true_and]
    cases old.getLsbD i <;> cases matched.getLsbD i <;> cases e <;> simp
  · apply BitVec.eq_of_getLsbD_eq
    intro i hi
    rw [step, BitVec.getLsbD_ushiftRight]
    cases i with
    | zero => cases old.getLsbD 63 <;> simp [bit]
    | succ i =>
      rw [BitVec.getLsbD_of_ge _ _ (by omega)]
      cases old.getLsbD 63 <;> simp [bit]
  · exact (borrowAt_width _ _ b (by omega)).symm

/-- Scores that grow by at most one a column, and those of the next row under a mask of matches. -/
structure NextRow (f g : ℕ → ℕ) (m : ℕ → Bool) : Prop where
  start : g 0 = f 0
  next : ∀ j, g (j + 1) = max (max (f (j + 1)) (g j)) (f j + (m j).toNat)

/-- Carry and borrow differ while the new row has gained nothing, then both are clear. -/
def BorrowAt (f g : ℕ → ℕ) (j : ℕ) (carry borrow : Bool) : Prop :=
  (g j = f j ∧ (carry ^^ borrow) = true) ∨ (g j = f j + 1 ∧ carry = false ∧ borrow = false)

variable {bits : List (BitVec 64)} {f g : ℕ → ℕ} {m : ℕ → Bool} {k : ℕ} {postings : List (ℕ × BitVec 64)}

theorem BorrowAt.next {j : ℕ} {c b v : Bool}
    (h : BorrowAt f g j c b) (hrow : NextRow f g m) (hv : f (j + 1) = f j + v.toNat) :
    g (j + 1) = g j + ((v || m j) && (c ^^ b)).toNat ∧
      BorrowAt f g (j + 1) v (if v || m j then c && b else c || b) := by
  have hnext := hrow.next j
  rcases h with ⟨hg, hcb⟩ | ⟨hg, rfl, rfl⟩
  · rw [hcb, Bool.and_true, BorrowAt]
    cases v <;> cases hm : m j <;> simp only [hm, Bool.toNat_true, Bool.toNat_false] at hv hnext
    all_goals cases c <;> cases b <;> simp at hcb
    all_goals simp
    all_goals omega
  · rw [BorrowAt]
    cases v <;> cases hm : m j <;> simp only [hm, Bool.toNat_true, Bool.toNat_false] at hv hnext
    all_goals simp
    all_goals omega

theorem step_row {J : ℕ} {old matched : BitVec 64} {c b : Bool}
    (hrow : NextRow f g m) (hf : ∀ i < 64, f (J + i + 1) = f (J + i) + (old.getLsbD i).toNat)
    (hm : ∀ i < 64, matched.getLsbD i = m (J + i)) (h : BorrowAt f g J c b) :
    (∀ i < 64, g (J + i + 1) = g (J + i) + ((step old matched (bit 64 c) b).1.getLsbD i).toNat) ∧
    ∃ c', (step old matched (bit 64 c) b).2.1 = bit 64 c' ∧
      BorrowAt f g (J + 64) c' (step old matched (bit 64 c) b).2.2 := by
  obtain ⟨borrow, hzero, hsucc, hout, hcarry, hborrow⟩ := step_bits old matched c b
  -- the state before each column of the word
  have hinv : ∀ i ≤ 64, BorrowAt f g (J + i) (if i = 0 then c else old.getLsbD (i - 1)) (borrow i) := by
    intro i
    induction i with
    | zero =>
      intro _
      rw [if_pos rfl, hzero]
      exact h
    | succ i ih =>
      intro hi
      have hcol := ((ih (by omega)).next hrow (hf i (by omega))).2
      rw [hsucc i (by omega), hm i (by omega)]
      exact hcol
  refine ⟨?_, old.getLsbD 63, hcarry, ?_⟩
  · intro i hi
    rw [hout i hi, hm i hi]
    exact ((hinv i (by omega)).next hrow (hf i hi)).1
  · rw [hborrow]
    exact hinv 64 (le_refl _)

/-! ## Rows -/

def maskAt (postings : List (ℕ × BitVec 64)) (block : ℕ) : BitVec 64 := (postings.lookup block).getD 0

structure PostingsFrom (block : ℕ) (postings : List (ℕ × BitVec 64)) : Prop where
  sorted : postings.Pairwise fun a b => a.1 < b.1
  from_block : ∀ p ∈ postings, block ≤ p.1

theorem lookup_eq_none_of_lt (h : ∀ p ∈ postings, k < p.1) : postings.lookup k = none := by
  rw [lookup_eq_none_iff]
  intro p hp
  have := h p hp
  simp only [bne_iff_ne, ne_eq]
  omega

theorem rowBit_cons (w : BitVec 64) (bits : List (BitVec 64)) (j : ℕ) :
    rowBit (w :: bits) (j + 64) = rowBit bits j := by
  rw [rowBit, rowBit, show (j + 64) / 64 = j / 64 + 1 by omega, show (j + 64) % 64 = j % 64 by omega]
  rfl

theorem rowBit_head (w : BitVec 64) (bits : List (BitVec 64)) {i : ℕ} (hi : i < 64) :
    rowBit (w :: bits) i = w.getLsbD i := by
  rw [rowBit, show i / 64 = 0 by omega, show i % 64 = i by omega]
  rfl

theorem takePosting_spec {block : ℕ} (h : PostingsFrom block postings) :
    (takePosting block postings).1 = maskAt postings block ∧
      PostingsFrom (block + 1) (takePosting block postings).2 ∧
      ∀ k, block + 1 ≤ k → maskAt (takePosting block postings).2 k = maskAt postings k := by
  cases postings with
  | nil => exact ⟨rfl, ⟨by simp [takePosting], by simp [takePosting]⟩, fun _ _ => rfl⟩
  | cons posting postings =>
    obtain ⟨position, mask⟩ := posting
    obtain ⟨hhead, htail⟩ := pairwise_cons.mp h.sorted
    by_cases hpos : position = block
    · subst hpos
      rw [takePosting, if_pos rfl]
      refine ⟨by simp [maskAt], ⟨htail, fun p hp => hhead p hp⟩, ?_⟩
      intro k hk
      have hne : (k == position) = false := by
        simp only [beq_eq_false_iff_ne, ne_eq]
        omega
      simp [maskAt, lookup_cons, hne]
    · have hle := h.from_block (position, mask) (by simp)
      have hlt : ∀ p ∈ (position, mask) :: postings, block < p.1 := by
        intro p hp
        rcases mem_cons.mp hp with rfl | hp
        · omega
        · have := hhead p hp
          omega
      rw [takePosting, if_neg hpos]
      refine ⟨?_, ⟨h.sorted, hlt⟩, fun _ _ => rfl⟩
      rw [maskAt, lookup_eq_none_of_lt hlt]
      rfl

theorem extendSparseFrom_row (hrow : NextRow f g m) : ∀ {block : ℕ} {postings : List (ℕ × BitVec 64)} {c b : Bool},
      PostingsFrom block postings →
      (∀ k, block ≤ k → ∀ i < 64, (maskAt postings k).getLsbD i = m (64 * k + i)) →
      (∀ j < 64 * bits.length, f (64 * block + j + 1) = f (64 * block + j) + (rowBit bits j).toNat) →
      BorrowAt f g (64 * block) c b →
      ∀ j < 64 * bits.length, g (64 * block + j + 1) = g (64 * block + j) +
        (rowBit (extendSparseFrom block (bit 64 c) b bits postings) j).toNat := by
  induction bits with
  | nil =>
    intro block postings c b _ _ _ _ j hj
    simp at hj
  | cons state bits ih =>
    intro block postings c b hpost hmask hf hinv
    obtain ⟨hmaskEq, hrest, hlater⟩ := takePosting_spec hpost
    have hword : ∀ i < 64, f (64 * block + i + 1) = f (64 * block + i) + (state.getLsbD i).toNat := by
      intro i hi
      rw [hf i (by rw [length_cons]; omega), rowBit_head state bits hi]
    have hm : ∀ i < 64, (takePosting block postings).1.getLsbD i = m (64 * block + i) := by
      intro i hi
      rw [hmaskEq]
      exact hmask block (le_refl _) i hi
    obtain ⟨hout, c', hcarry, hnext⟩ := step_row hrow hword hm hinv
    rw [extendSparseFrom]
    simp only [hcarry]
    intro j hj
    by_cases hlt : j < 64
    · rw [rowBit_head _ _ hlt]
      exact hout j hlt
    · obtain ⟨i, rfl⟩ : ∃ i, j = i + 64 := ⟨j - 64, by omega⟩
      rw [rowBit_cons, show 64 * block + (i + 64) = 64 * (block + 1) + i by omega]
      apply ih hrest _ _ _ i (by rw [length_cons] at hj; omega)
      · intro k hk
        rw [hlater k hk]
        exact hmask k (by omega)
      · intro i hi
        have := hf (i + 64) (by rw [length_cons]; omega)
        rw [rowBit_cons, show 64 * block + (i + 64) = 64 * (block + 1) + i by omega] at this
        exact this
      · exact hnext

def Packs (bits : List (BitVec 64)) (f : ℕ → ℕ) : Prop :=
  ∀ j < 64 * bits.length, f (j + 1) = f j + (rowBit bits j).toNat

@[simp] theorem length_extendSparseFrom (bits : List (BitVec 64)) :
    ∀ (block : ℕ) (carry : BitVec 64) (borrow : Bool) (postings : List (ℕ × BitVec 64)),
      (extendSparseFrom block carry borrow bits postings).length = bits.length := by
  induction bits with
  | nil => intros; rfl
  | cons state bits ih =>
    intro block carry borrow postings
    rw [extendSparseFrom, length_cons, length_cons, ih]

@[simp] theorem length_extendSparse (bits : List (BitVec 64)) (postings : List (ℕ × BitVec 64)) :
    (extendSparse bits postings).length = bits.length :=
  length_extendSparseFrom bits 0 1 false postings

theorem extendSparse_packs (hrow : NextRow f g m) (hpost : PostingsFrom 0 postings)
    (hmask : ∀ k, ∀ i < 64, (maskAt postings k).getLsbD i = m (64 * k + i)) (hf : Packs bits f) :
    Packs (extendSparse bits postings) g := by
  intro j hj
  rw [length_extendSparse] at hj
  have h := extendSparseFrom_row (c := true) (b := false) hrow hpost (fun k _ => hmask k)
    (by rw [Nat.mul_zero]; simpa only [zero_add] using fun j hj => hf j hj)
    (.inl ⟨hrow.start, rfl⟩) j hj
  rw [bit_true, Nat.mul_zero, zero_add] at h
  exact h

/-! ## Prefix scores -/

/-- A block of `PrefixScores`: the score before the word, and the word. -/
structure PrefixBlock where
  before : ℕ
  bits : BitVec 64

structure PrefixScores where
  blocks : List PrefixBlock
  length : ℕ
  total : ℕ

/-- The loop of `prefixes`: each word with the score before it. -/
def prefixBlocks (before : ℕ) : List (BitVec 64) → List PrefixBlock
  | [] => []
  | bits :: rest => ⟨before, bits⟩ :: prefixBlocks (before + countOnes bits) rest

def score (bits : List (BitVec 64)) : ℕ := (bits.map countOnes).sum

/-- `PackedRow::prefixes`, for a reference of the given length. -/
def prefixes (length : ℕ) (bits : List (BitVec 64)) : PrefixScores :=
  ⟨prefixBlocks 0 bits, length, score bits⟩

def PrefixScores.before (s : PrefixScores) (position : ℕ) : ℕ :=
  if position = s.length then s.total
  else match s.blocks[position / 64]? with
    | none => 0
    | some block => block.before + countOnes (block.bits &&& ((1#64 <<< (position % 64)) - 1#64))

theorem score_append (bits bits' : List (BitVec 64)) : score (bits ++ bits') = score bits + score bits' := by
  simp [score]

theorem onesBelow_packs (h : Packs bits f) {w : BitVec 64} (hk : bits[k]? = some w) {i : ℕ} (hi : i ≤ 64) :
    f (64 * k + i) = f (64 * k) + onesBelow w i := by
  obtain ⟨hlt, hget⟩ := List.getElem?_eq_some_iff.mp hk
  induction i with
  | zero => rfl
  | succ i ih =>
    have hbit : rowBit bits (64 * k + i) = w.getLsbD i := by
      rw [rowBit, show (64 * k + i) / 64 = k by omega, show (64 * k + i) % 64 = i by omega,
        getD_eq_getElem?_getD, hk]
      rfl
    rw [← add_assoc, h (64 * k + i) (by omega), hbit, ih (by omega), onesBelow]
    omega

theorem prefixBlocks_spec (h : Packs bits f) : ∀ k ≤ bits.length, f (64 * k) = f 0 + score (bits.take k) ∧
      ∀ w, bits[k]? = some w → ∀ before, (prefixBlocks before bits)[k]? =
        some ⟨before + score (bits.take k), w⟩ := by
  have hget : ∀ (bits : List (BitVec 64)) (k before : ℕ) (w : BitVec 64), bits[k]? = some w →
      (prefixBlocks before bits)[k]? = some ⟨before + score (bits.take k), w⟩ := by
    intro bits
    induction bits with
    | nil => simp
    | cons v bits ih =>
      intro k before w hw
      cases k with
      | zero =>
        obtain rfl : v = w := by simpa using hw
        rfl
      | succ k =>
        rw [prefixBlocks, getElem?_cons_succ, ih k _ w hw]
        simp [score, add_assoc]
  intro k
  induction k with
  | zero =>
    intro _
    refine ⟨by simp [score], ?_⟩
    intro w hw before
    exact hget bits 0 before w hw
  | succ k ih =>
    intro hk
    refine ⟨?_, fun w hw before => hget bits (k + 1) before w hw⟩
    have hlt : k < bits.length := by omega
    have hw : bits[k]? = some bits[k] := getElem?_eq_getElem hlt
    have hones := onesBelow_packs h hw (le_refl 64)
    have hsingle : score (some bits[k]).toList = onesBelow bits[k] 64 := by
      simp [score, countOnes]
    rw [show 64 * (k + 1) = 64 * k + 64 by omega, hones, (ih (by omega)).1, take_add_one, hw,
      score_append, hsingle, add_assoc]

theorem score_packs (h : Packs bits f) : f (64 * bits.length) = f 0 + score bits := by
  have := (prefixBlocks_spec h bits.length (le_refl _)).1
  rwa [take_length] at this

theorem prefixes_before {length : ℕ} (h : Packs bits f)
    (hzero : f 0 = 0) (hlen : length ≤ 64 * bits.length) (hflat : f (64 * bits.length) = f length)
    {position : ℕ} (hpos : position ≤ length) : (prefixes length bits).before position = f position := by
  by_cases heq : position = length
  · rw [PrefixScores.before, prefixes, if_pos heq, heq, ← hflat, score_packs h, hzero, zero_add]
  · have hlt : position / 64 < bits.length := by omega
    have hw : bits[position / 64]? = some bits[position / 64] := getElem?_eq_getElem hlt
    obtain ⟨hf, hblock⟩ := prefixBlocks_spec h (position / 64) (by omega)
    have hones := onesBelow_packs h hw (show position % 64 ≤ 64 by omega)
    rw [PrefixScores.before, prefixes, if_neg heq]
    simp only [hblock _ hw 0, zero_add]
    rw [countOnes_and_lowMask _ (by omega)]
    rw [hf, hzero, zero_add, show 64 * (position / 64) + position % 64 = position by omega] at hones
    exact hones.symm

/-! ## Postings -/

inductive ReferenceOrder where
  | forward
  | reverse

def ReferenceOrder.column (order : ReferenceOrder) (reference : List String) (j : ℕ) : Option String :=
  match order with
  | .forward => reference[j]?
  | .reverse => if j < reference.length then reference[reference.length - 1 - j]? else none

def addPosting (postings : List (ℕ × BitVec 64)) (j : ℕ) : List (ℕ × BitVec 64) :=
  let block := j / 64
  let bit := 1#64 <<< (j % 64)
  match postings.getLast? with
  | some (last, bits) =>
    if last = block then postings.dropLast ++ [(last, bits ||| bit)] else postings ++ [(block, bit)]
  | none => postings ++ [(block, bit)]

/-- The masks by key; a key without postings has none. -/
structure LiteralReference where
  reference : List String
  mode : LiteralMatchMode
  masks : String → List (ℕ × BitVec 64)

def masksOf (reference : List String) (mode : LiteralMatchMode) (order : ReferenceOrder) :
    ℕ → String → List (ℕ × BitVec 64)
  | 0 => fun _ => []
  | j + 1 => match order.column reference j with
    | none => masksOf reference mode order j
    | some word => Function.update (masksOf reference mode order j) (key word mode)
        (addPosting (masksOf reference mode order j (key word mode)) j)

def LiteralReference.observe (reference : List String) (mode : LiteralMatchMode) (order : ReferenceOrder) :
    LiteralReference := ⟨reference, mode, masksOf reference mode order reference.length⟩

def LiteralReference.start (owner : LiteralReference) : List (BitVec 64) :=
  List.replicate ((owner.reference.length + 63) / 64) 0

def LiteralReference.extend (owner : LiteralReference) (bits : List (BitVec 64)) (word : String) :
    List (BitVec 64) := extendSparse bits (owner.masks (key word owner.mode))

theorem getLsbD_oneBit {i : ℕ} (hi : i < 64) : (1#64 <<< k).getLsbD i = decide (i = k) := by
  rw [BitVec.getLsbD_shiftLeft, BitVec.getLsbD_one]
  rw [Bool.eq_iff_iff]
  simp only [hi, decide_true, Bool.true_and, Bool.and_eq_true, Bool.not_eq_true', decide_eq_false_iff_not,
    decide_eq_true_eq]
  omega

variable {front : List (ℕ × BitVec 64)}

theorem lookup_of_lt {last : ℕ} (hlt : ∀ p ∈ front, p.1 < last) :
    front.lookup last = none := by
  rw [lookup_eq_none_iff]
  intro p hp
  have := hlt p hp
  simp only [bne_iff_ne, ne_eq]
  omega

theorem postings_concat {last : ℕ} (bits : BitVec 64)
    (hsorted : front.Pairwise fun a b => a.1 < b.1) (hlt : ∀ p ∈ front, p.1 < last) :
    ((front ++ [(last, bits)]).Pairwise fun a b => a.1 < b.1) ∧ (∀ p ∈ front ++ [(last, bits)], p.1 ≤ last) ∧
      ∀ k, maskAt (front ++ [(last, bits)]) k = if k = last then bits else maskAt front k := by
  refine ⟨?_, ?_, ?_⟩
  · rw [pairwise_append]
    refine ⟨hsorted, by simp, ?_⟩
    intro a ha b hb
    rw [mem_singleton.mp hb]
    exact hlt a ha
  · intro p hp
    rcases mem_append.mp hp with hp | hp
    · exact le_of_lt (hlt p hp)
    · rw [mem_singleton.mp hp]
  · intro k
    rw [maskAt, lookup_append]
    split_ifs with hk
    · rw [hk, lookup_of_lt hlt]
      simp
    · have hne : (k == last) = false := by simpa using hk
      simp [maskAt, lookup_cons, hne]

theorem addPosting_spec {j : ℕ}
    (hsorted : postings.Pairwise fun a b => a.1 < b.1) (hle : ∀ p ∈ postings, p.1 ≤ j / 64) :
    ((addPosting postings j).Pairwise fun a b => a.1 < b.1) ∧
      (∀ p ∈ addPosting postings j, p.1 ≤ j / 64) ∧ ∀ k, maskAt (addPosting postings j) k =
        if k = j / 64 then maskAt postings k ||| 1#64 <<< (j % 64) else maskAt postings k := by
  -- the block of `j` comes last, after the others
  obtain ⟨front, heq, hf, hlt, hsame⟩ : ∃ front : List (ℕ × BitVec 64),
      addPosting postings j = front ++ [(j / 64, maskAt postings (j / 64) ||| 1#64 <<< (j % 64))] ∧
      (front.Pairwise fun a b => a.1 < b.1) ∧ (∀ p ∈ front, p.1 < j / 64) ∧
      ∀ k ≠ j / 64, maskAt postings k = maskAt front k := by
    rcases eq_nil_or_concat postings with rfl | ⟨front, ⟨last, bits⟩, rfl⟩
    · exact ⟨[], by simp [addPosting, maskAt], by simp, by simp, fun _ _ => rfl⟩
    · rw [concat_eq_append] at hsorted hle ⊢
      obtain ⟨hf, _, hlast⟩ := pairwise_append.mp hsorted
      obtain ⟨_, hmost, hmask⟩ := postings_concat bits hf fun p hp => hlast p hp _ (mem_singleton_self _)
      rw [addPosting, getLast?_concat]
      dsimp only
      split_ifs with heq
      · subst heq
        refine ⟨front, ?_, hf, fun p hp => hlast p hp _ (mem_singleton_self _), ?_⟩
        · rw [dropLast_concat, hmask, if_pos rfl]
        · intro k hk
          rw [hmask, if_neg hk]
      · have hlt : ∀ p ∈ front ++ [(last, bits)], p.1 < j / 64 := by
          intro p hp
          have hj : last ≤ j / 64 := hle (last, bits) (by simp)
          have := hmost p hp
          omega
        exact ⟨_, by simp [maskAt, lookup_of_lt hlt], hsorted, hlt, fun _ _ => rfl⟩
  rw [heq]
  obtain ⟨hs, hmost, hmask⟩ := postings_concat (maskAt postings (j / 64) ||| 1#64 <<< (j % 64)) hf hlt
  refine ⟨hs, hmost, fun k => ?_⟩
  rw [hmask]
  split_ifs with hk
  · rw [hk]
  · exact (hsame k hk).symm

theorem masksOf_spec (reference : List String) (mode : LiteralMatchMode) (order : ReferenceOrder)
    (k : String) : ∀ J, ((masksOf reference mode order J k).Pairwise fun a b => a.1 < b.1) ∧
      (∀ p ∈ masksOf reference mode order J k, 64 * p.1 < J) ∧
      ∀ b, ∀ i < 64, (maskAt (masksOf reference mode order J k) b).getLsbD i = decide (64 * b + i < J ∧
          (order.column reference (64 * b + i)).map (fun word => key word mode) = some k) := by
  intro J
  induction J with
  | zero => exact ⟨by simp [masksOf], by simp [masksOf], by simp [masksOf, maskAt]⟩
  | succ J ih =>
    obtain ⟨hsorted, hlt, hbits⟩ := ih
    have hsame : (order.column reference J).map (fun word => key word mode) ≠ some k →
        ((masksOf reference mode order J k).Pairwise fun a b => a.1 < b.1) ∧
        (∀ p ∈ masksOf reference mode order J k, 64 * p.1 < J + 1) ∧
        ∀ b, ∀ i < 64, (maskAt (masksOf reference mode order J k) b).getLsbD i =
          decide (64 * b + i < J + 1 ∧
            (order.column reference (64 * b + i)).map (fun word => key word mode) = some k) := by
      intro hother
      refine ⟨hsorted, fun p hp => by have := hlt p hp; omega, ?_⟩
      intro b i hi
      rw [hbits b i hi]
      apply decide_eq_decide.mpr
      by_cases heq : 64 * b + i = J
      · rw [heq]
        exact ⟨fun h => absurd h.1 (by omega), fun h => absurd h.2 hother⟩
      · exact ⟨fun h => ⟨by omega, h.2⟩, fun h => ⟨by omega, h.2⟩⟩
    rw [masksOf]
    cases hcol : order.column reference J with
    | none => exact hsame (by simp [hcol])
    | some word =>
      by_cases hkey : key word mode = k
      · subst hkey
        simp only [Function.update_self]
        obtain ⟨hs, hl, hm⟩ := @addPosting_spec _ J hsorted
          (fun p hp => by have := hlt p hp; omega)
        refine ⟨hs, fun p hp => by have := hl p hp; omega, ?_⟩
        intro b i hi
        rw [hm b]
        by_cases hb : b = J / 64
        · rw [if_pos hb, BitVec.getLsbD_or, hbits b i hi, getLsbD_oneBit hi]
          by_cases heq : i = J % 64
          · have hJ : 64 * b + i = J := by omega
            rw [hJ, hcol]
            simp [heq]
          · rw [decide_eq_false heq, Bool.or_false]
            apply decide_eq_decide.mpr
            exact ⟨fun h => ⟨by omega, h.2⟩, fun h => ⟨by omega, h.2⟩⟩
        · rw [if_neg hb, hbits b i hi]
          apply decide_eq_decide.mpr
          exact ⟨fun h => ⟨by omega, h.2⟩, fun h => ⟨by omega, h.2⟩⟩
      · simp only [Function.update_of_ne (Ne.symm hkey)]
        exact hsame (by simp [hcol, hkey])

/-! ## Rows of the chain table -/

section Rows
variable {reference : List String} {mode : LiteralMatchMode} {order : ReferenceOrder}
  {M : ℕ → ℕ → Bool} {i : ℕ} {word : String}

theorem start_packs (M : ℕ → ℕ → Bool) :
    Packs (LiteralReference.observe reference mode order).start (Chain.lcs M 0) := by
  intro j _
  have hbit : rowBit (LiteralReference.observe reference mode order).start j = false := by
    rw [rowBit, LiteralReference.start, getD_eq_getElem?_getD, getElem?_replicate]
    split_ifs <;> simp
  rw [hbit, Chain.lcs_zero_left, Chain.lcs_zero_left]
  rfl

theorem extend_packs (hM : ∀ j, M i j = decide (j < reference.length ∧
      (order.column reference j).map (fun r => key r mode) = some (key word mode)))
    (h : Packs bits (Chain.lcs M i)) :
    Packs ((LiteralReference.observe reference mode order).extend bits word) (Chain.lcs M (i + 1)) := by
  obtain ⟨hsorted, _, hbits⟩ := masksOf_spec reference mode order (key word mode) reference.length
  have hrow : NextRow (Chain.lcs M i) (Chain.lcs M (i + 1)) (M i) := by
    refine ⟨by simp, ?_⟩
    intro j
    rw [Chain.lcs_succ]
    cases M i j <;> simp
  apply extendSparse_packs hrow ⟨hsorted, fun _ _ => Nat.zero_le _⟩ _ h
  intro k i' hi'
  rw [hM]
  exact hbits k i' hi'

end Rows

end Batchalign.DpAlign
