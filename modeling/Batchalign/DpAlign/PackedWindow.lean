import Batchalign.DpAlign.PackedRanks
import Batchalign.DpAlign.ZeroPadded

/- Rows over a window of the reference (`extend_window_sparse`). Each posting is shifted to the blocks
   of the window, and the recurrence of a whole row (`step_row`) runs on what the window keeps. -/
namespace Batchalign.DpAlign
open PackedWord List Chain

/-- The words from `block` on. `low` is the mask read for the block before. -/
def extendWindowFrom (first span block : ℕ) (low carry : BitVec 64) (borrow : Bool) :
    List (BitVec 64) → List (ℕ × BitVec 64) → List (BitVec 64)
  | [], _ => []
  | state :: bits, postings =>
    let shift := first % 64
    let read := takePosting (first / 64 + block + 1) postings
    let mask := if shift = 0 then low else (low >>> shift) ||| (read.1 <<< (64 - shift))
    let mask := if span < (block + 1) * 64 then mask &&& ((1#64 <<< (span % 64)) - 1#64) else mask
    let next := step state mask carry borrow
    next.1 :: extendWindowFrom first span (block + 1) read.1 next.2.1 next.2.2 bits read.2

def extendWindowSparse (bits : List (BitVec 64)) (postings : List (ℕ × BitVec 64)) (first span : ℕ) :
    List (BitVec 64) :=
  let read := takePosting (first / 64) (postings.dropWhile fun posting => posting.1 < first / 64)
  extendWindowFrom first span 0 read.1 1 false bits read.2

def LiteralReference.advanceWindow (owner : LiteralReference) (bits : List (BitVec 64)) (word : String)
    (first span : ℕ) : List (BitVec 64) :=
  extendWindowSparse bits (owner.masks (key word owner.mode)) first span

/-- The row after `f` under a mask of matching columns. -/
def nextRow (f : ℕ → ℕ) (m : ℕ → Bool) : ℕ → ℕ
  | 0 => f 0
  | j + 1 => max (max (f (j + 1)) (nextRow f m j)) (f j + (m j).toNat)

variable {f g : ℕ → ℕ} {m M : ℕ → Bool} {postings : List (ℕ × BitVec 64)} {first span : ℕ}

theorem length_extendWindowFrom (bits : List (BitVec 64)) : ∀ (block : ℕ) (low carry : BitVec 64)
    (borrow : Bool) (postings : List (ℕ × BitVec 64)),
      (extendWindowFrom first span block low carry borrow bits postings).length = bits.length := by
  induction bits with
  | nil => intros; rfl
  | cons state bits ih =>
    intro block low carry borrow postings
    rw [extendWindowFrom, length_cons, length_cons, ih]

theorem postingsFrom_dropWhile {n : ℕ} (h : postings.Pairwise fun a b => a.1 < b.1) :
    PostingsFrom n (postings.dropWhile fun posting => posting.1 < n) ∧
      ∀ k, n ≤ k → maskAt (postings.dropWhile fun posting => posting.1 < n) k = maskAt postings k := by
  induction postings with
  | nil => exact ⟨⟨h, by simp⟩, fun _ _ => rfl⟩
  | cons posting postings ih =>
    obtain ⟨hhead, htail⟩ := pairwise_cons.mp h
    rw [dropWhile_cons]
    split_ifs with hlt
    · obtain ⟨hfrom, hmask⟩ := ih htail
      refine ⟨hfrom, ?_⟩
      intro k hk
      have hne : (k == posting.1) = false := by
        simp only [decide_eq_true_eq] at hlt
        simp only [beq_eq_false_iff_ne, ne_eq]
        omega
      rw [hmask k hk, maskAt, maskAt, lookup_cons, hne]
    · simp only [decide_eq_true_eq, not_lt] at hlt
      refine ⟨⟨h, ?_⟩, fun _ _ => rfl⟩
      intro p hp
      rcases mem_cons.mp hp with rfl | hp
      · exact hlt
      · exact le_trans hlt (le_of_lt (hhead p hp))

/-- `low` and the postings left hold the mask of the reference from `block` of the window on. -/
structure WindowMask (M : ℕ → Bool) (first block : ℕ) (low : BitVec 64)
    (postings : List (ℕ × BitVec 64)) : Prop where
  here : ∀ i < 64, low.getLsbD i = M (64 * (first / 64 + block) + i)
  from_next : PostingsFrom (first / 64 + block + 1) postings
  later : ∀ k, first / 64 + block + 1 ≤ k → ∀ i < 64, (maskAt postings k).getLsbD i = M (64 * k + i)

theorem WindowMask.take {block : ℕ} {low : BitVec 64} (h : WindowMask M first block low postings) :
    WindowMask M first (block + 1) (takePosting (first / 64 + block + 1) postings).1
      (takePosting (first / 64 + block + 1) postings).2 := by
  obtain ⟨hmask, hrest, hlater⟩ := takePosting_spec h.from_next
  refine ⟨?_, hrest, ?_⟩
  · intro i hi
    rw [hmask]
    exact h.later _ (le_refl _) i hi
  · intro k hk i hi
    rw [hlater k hk]
    exact h.later k (by omega) i hi

theorem WindowMask.shifted {block i : ℕ} {low : BitVec 64} (h : WindowMask M first block low postings)
    (hi : i < 64) : (if first % 64 = 0 then low else (low >>> (first % 64)) |||
        ((takePosting (first / 64 + block + 1) postings).1 <<< (64 - first % 64))).getLsbD i =
      M (first + (64 * block + i)) := by
  have hnext := h.take.here
  split_ifs with hshift
  · rw [h.here i hi]
    congr 1
    omega
  · rw [getLsbD_funnel (by omega) (by omega) hi]
    split_ifs with hlt
    · rw [h.here _ hlt]
      congr 1
      omega
    · rw [hnext _ (by omega)]
      congr 1
      omega

theorem extendWindowFrom_row (hrow : NextRow f g fun j => decide (j < span) && M (first + j))
    {bits : List (BitVec 64)} : ∀ {block : ℕ} {low : BitVec 64} {postings : List (ℕ × BitVec 64)} {c b : Bool},
      WindowMask M first block low postings → block + bits.length = (span + 63) / 64 →
      (∀ j < 64 * bits.length, f (64 * block + j + 1) = f (64 * block + j) + (rowBit bits j).toNat) →
      BorrowAt f g (64 * block) c b →
      ∀ j < 64 * bits.length, g (64 * block + j + 1) = g (64 * block + j) +
        (rowBit (extendWindowFrom first span block low (bit 64 c) b bits postings) j).toNat := by
  induction bits with
  | nil =>
    intro block low postings c b _ _ _ _ j hj
    simp at hj
  | cons state bits ih =>
    intro block low postings c b hmask hcount hf hinv
    rw [length_cons] at hcount
    have hword : ∀ i < 64, f (64 * block + i + 1) = f (64 * block + i) + (state.getLsbD i).toNat := by
      intro i hi
      rw [hf i (by rw [length_cons]; omega), rowBit_head state bits hi]
    rw [extendWindowFrom]
    generalize hmatched : (if span < (block + 1) * 64 then _ else _ : BitVec 64) = matched
    have hm : ∀ i < 64, matched.getLsbD i =
        (decide (64 * block + i < span) && M (first + (64 * block + i))) := by
      intro i hi
      rw [← hmatched]
      by_cases hlast : span < (block + 1) * 64
      · rw [if_pos hlast, BitVec.getLsbD_and, getLsbD_lowMask (by omega) hi, hmask.shifted hi, Bool.and_comm]
        exact congrArg (· && _) (decide_eq_decide.mpr (by omega))
      · rw [if_neg hlast, hmask.shifted hi, decide_eq_true (by omega), Bool.true_and]
    obtain ⟨hout, c', hcarry, hnext⟩ := step_row hrow hword hm hinv
    rw [hcarry]
    intro j hj
    by_cases hlt : j < 64
    · rw [rowBit_head _ _ hlt]
      exact hout j hlt
    · obtain ⟨i, rfl⟩ : ∃ i, j = i + 64 := ⟨j - 64, by omega⟩
      rw [rowBit_cons, show 64 * block + (i + 64) = 64 * (block + 1) + i by omega]
      apply ih hmask.take (by omega) _ hnext i (by rw [length_cons] at hj; omega)
      intro i hi
      have := hf (i + 64) (by rw [length_cons]; omega)
      rw [rowBit_cons, show 64 * block + (i + 64) = 64 * (block + 1) + i by omega] at this
      exact this

theorem NextRow.le (h : NextRow f g m) (j : ℕ) : f j ≤ g j := by
  cases j with
  | zero => exact le_of_eq h.start.symm
  | succ j =>
    rw [h.next]
    exact le_trans (le_max_left _ _) (le_max_left _ _)

theorem NextRow.add_origin (h : NextRow f g m) (origin : ℕ) :
    NextRow (fun k => origin + f k) (fun k => origin + g k) m := by
  refine ⟨congrArg (origin + ·) h.start, ?_⟩
  intro j
  have := h.next j
  omega

theorem extendWindowSparse_row (bits : PackedBits) (hsorted : postings.Pairwise fun a b => a.1 < b.1)
    (hM : ∀ k, ∀ i < 64, (maskAt postings k).getLsbD i = M (64 * k + i)) (first : ℕ) :
    NextRow (scoreAt bits.bit) (scoreAt (rowBit (extendWindowSparse bits.words postings first bits.length)))
      (fun j => decide (j < bits.length) && M (first + j)) ∧
    ∀ j, bits.length ≤ j → rowBit (extendWindowSparse bits.words postings first bits.length) j = false := by
  obtain ⟨hfrom, hdrop⟩ := postingsFrom_dropWhile (n := first / 64) hsorted
  obtain ⟨hlow, hrest, hlater⟩ := takePosting_spec hfrom
  have hmask : WindowMask M first 0 (takePosting (first / 64) (postings.dropWhile fun posting => posting.1 < first / 64)).1
      (takePosting (first / 64) (postings.dropWhile fun posting => posting.1 < first / 64)).2 := by
    refine ⟨?_, hrest, ?_⟩
    · intro i hi
      rw [hlow, hdrop _ (le_refl _)]
      exact hM _ i hi
    · intro k hk i hi
      rw [hlater k hk, hdrop k (by omega)]
      exact hM k i hi
  generalize hm : (fun j => decide (j < bits.length) && M (first + j)) = m
  have hnext : NextRow (scoreAt bits.bit) (nextRow (scoreAt bits.bit) m) m := ⟨rfl, fun _ => rfl⟩
  have hrow : ∀ j < 64 * bits.words.length, nextRow (scoreAt bits.bit) m (j + 1) =
      nextRow (scoreAt bits.bit) m j +
        (rowBit (extendWindowSparse bits.words postings first bits.length) j).toNat := by
    intro j hj
    have hword := extendWindowFrom_row (f := scoreAt bits.bit) (g := nextRow (scoreAt bits.bit) m)
      (by rw [hm]; exact hnext) hmask (by rw [zero_add]; exact bits.count)
      (fun j _ => by rw [mul_zero, zero_add]; rfl) (.inl ⟨rfl, rfl⟩ : BorrowAt _ _ (64 * 0) true false) j hj
    rw [mul_zero, zero_add, bit_true] at hword
    exact hword
  -- past the window neither row grows
  have hpast : ∀ j, bits.length ≤ j → nextRow (scoreAt bits.bit) m (j + 1) = nextRow (scoreAt bits.bit) m j := by
    intro j hj
    have hout : m j = false := by simp [← hm, Nat.not_lt.mpr hj]
    have hflat : scoreAt bits.bit (j + 1) = scoreAt bits.bit j := by
      rw [scoreAt, PackedBits.bit, bits.clear j hj]
      rfl
    rw [nextRow, hflat, hout, max_eq_right (hnext.le j), Bool.toNat_false, add_zero, max_eq_left (hnext.le j)]
  have hclear : ∀ j, bits.length ≤ j →
      rowBit (extendWindowSparse bits.words postings first bits.length) j = false := by
    intro j hj
    by_cases hlt : j < 64 * bits.words.length
    · have hstep := hrow j hlt
      rw [hpast j hj] at hstep
      exact Bool.toNat_eq_zero.mp (by omega)
    · exact rowBit_of_le (by rw [extendWindowSparse, length_extendWindowFrom]; omega)
  have hscore : scoreAt (rowBit (extendWindowSparse bits.words postings first bits.length)) =
      nextRow (scoreAt bits.bit) m := by
    have hcount := bits.count
    funext k
    induction k with
    | zero => rfl
    | succ k ih =>
      by_cases hk : k < bits.length
      · rw [scoreAt, ih, hrow k (by omega)]
      · rw [scoreAt, ih, hclear k (by omega), hpast k (by omega)]
        rfl
  rw [hscore]
  exact ⟨hnext, hclear⟩

/-- The scores of a row are those of the longest common subsequences with the prefixes of the reference; a
  step over any window is the row recurrence and sets nothing past it. -/
theorem packedRows_exact (reference : List String) (mode : LiteralMatchMode) (order : ReferenceOrder) :
    (∀ words : List String, ∀ k ≤ reference.length,
      IsGreatest {n | ∃ c, IsChain (literalRel mode words (order.columns reference)) words.length k c ∧ c.length = n}
        ((prefixes reference.length
          (rowAfter (LiteralReference.observe reference mode order) words)).before k)) ∧
    ∀ (word : String) (bits : PackedBits) (first origin : ℕ),
      NextRow (fun k => origin + scoreAt bits.bit k)
        (fun k => origin + scoreAt (rowBit ((LiteralReference.observe reference mode order).advanceWindow
          bits.words word first bits.length)) k)
        (fun j => decide (j < bits.length) && literalRel mode [word] (order.columns reference) 0 (first + j)) ∧
      ∀ j, bits.length ≤ j → rowBit ((LiteralReference.observe reference mode order).advanceWindow
        bits.words word first bits.length) j = false := by
  refine ⟨?_, ?_⟩
  · intro words k hk
    have hbefore := @rowAfter_before reference mode order words words.length k (le_refl _) hk
    rw [take_length] at hbefore
    rw [hbefore]
    refine ⟨exists_chain _ _ _, ?_⟩
    rintro n ⟨c, hc, rfl⟩
    exact chain_le_lcs hc
  · intro word bits first origin
    obtain ⟨hsorted, -, hbits⟩ := masksOf_spec reference mode order (key word mode) reference.length
    have hM : ∀ k, ∀ i < 64,
        (maskAt ((LiteralReference.observe reference mode order).masks (key word mode)) k).getLsbD i =
          literalRel mode [word] (order.columns reference) 0 (64 * k + i) := by
      intro k i hi
      rw [literalRel_eq (show [word][0]? = some word from rfl), order.length_columns, ← order.column_eq]
      exact hbits k i hi
    obtain ⟨hrow, hclear⟩ := extendWindowSparse_row bits hsorted hM first
    exact ⟨hrow.add_origin origin, hclear⟩

end Batchalign.DpAlign
