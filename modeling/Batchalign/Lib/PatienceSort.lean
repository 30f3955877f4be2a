import Mathlib.Tactic
import Batchalign.Lib.PartitionPoint

/- Patience sorting with the chains it finds. -/
namespace PatienceSort
open List

variable {α β : Type*} [LinearOrder β] {key : α → β}

structure Chain (key : α → β) (xs c : List α) : Prop where
  sublist : c.Sublist xs
  sorted : c.Pairwise fun a b => key a ≤ key b

structure Longest (key : α → β) (xs c : List α) : Prop extends Chain key xs c where
  most : ∀ s, Chain key xs s → s.length ≤ c.length

def endsBy (key : α → β) (x : α) (c : List α) : Bool := c.getLast?.all fun a => decide (key a ≤ key x)

structure Piles (key : α → β) (xs : List α) (piles : List (List α)) : Prop where
  chain : ∀ k c, piles[k]? = some c → Chain key xs c ∧ c.length = k + 1
  least : ∀ s a, Chain key xs s → s.getLast? = some a →
    ∃ c b, piles[s.length - 1]? = some c ∧ c.getLast? = some b ∧ key b ≤ key a

def pileFor (key : α → β) (piles : List (List α)) (x : α) : ℕ := (piles.takeWhile (endsBy key x)).length

def before (key : α → β) (piles : List (List α)) (x : α) : List α :=
  if pileFor key piles x = 0 then [] else (piles[pileFor key piles x - 1]?).getD []

def place (key : α → β) (piles : List (List α)) (x : α) : List (List α) :=
  piles.take (pileFor key piles x) ++ (before key piles x ++ [x]) :: piles.drop (pileFor key piles x + 1)

variable {xs : List α} {piles : List (List α)} {x : α}

variable {c : List α} {a : α} {k : ℕ}

theorem Chain.concat (h : Chain key xs c) (hlast : ∀ a, c.getLast? = some a → key a ≤ key x) :
    Chain key (xs ++ [x]) (c ++ [x]) := by
  refine ⟨h.sublist.append (Sublist.refl _), ?_⟩
  apply pairwise_append.mpr
  refine ⟨h.sorted, pairwise_singleton _ _, ?_⟩
  intro a ha b hb
  rw [mem_singleton.mp hb]
  -- the last element of the chain is not below any other
  rcases eq_nil_or_concat c with rfl | ⟨front, last, rfl⟩
  · cases ha
  · rw [concat_eq_append] at ha h hlast
    have hend := hlast last getLast?_concat
    rcases mem_append.mp ha with ha | ha
    · exact ((pairwise_append.mp h.sorted).2.2 a ha last (mem_singleton_self _)).trans hend
    · rwa [mem_singleton.mp ha]

theorem Chain.cases_concat (h : Chain key (xs ++ [x]) c) :
    Chain key xs c ∨ ∃ s, c = s ++ [x] ∧ Chain key xs s ∧ ∀ a, s.getLast? = some a → key a ≤ key x := by
  obtain ⟨s, t, rfl, hs, ht⟩ := sublist_append_iff.mp h.sublist
  have hsorted := pairwise_append.mp h.sorted
  rcases sublist_singleton.mp ht with rfl | rfl
  · left
    rw [append_nil] at h ⊢
    exact ⟨hs, h.sorted⟩
  · refine .inr ⟨s, rfl, ⟨hs, hsorted.1⟩, ?_⟩
    intro a ha
    exact hsorted.2.2 a (mem_of_getLast? ha) x (mem_singleton_self x)

theorem Piles.nil : Piles key ([] : List α) [] := by
  refine ⟨fun k c h => by simp at h, ?_⟩
  intro s a hs ha
  rw [sublist_nil.mp hs.sublist] at ha
  cases ha

theorem Chain.take (h : Chain key xs c) (k : ℕ) : Chain key xs (c.take k) :=
  ⟨(take_sublist k c).trans h.sublist, h.sorted.sublist (take_sublist k c)⟩

theorem Chain.le_getLast (h : Chain key xs c) {b : α} (ha : a ∈ c) (hb : c.getLast? = some b) :
    key a ≤ key b := by
  rcases eq_nil_or_concat c with rfl | ⟨front, last, rfl⟩
  · cases ha
  · rw [concat_eq_append] at ha h hb
    rw [getLast?_concat] at hb
    obtain rfl := Option.some.inj hb
    rcases mem_append.mp ha with ha | ha
    · exact (pairwise_append.mp h.sorted).2.2 a ha last (mem_singleton_self _)
    · rw [mem_singleton.mp ha]

theorem Piles.ends_le (h : Piles key xs piles) {j : ℕ} {d : List α} (hjk : j ≤ k)
    (hj : piles[j]? = some c) (hk : piles[k]? = some d) (ha : d.getLast? = some a) :
    ∃ b, c.getLast? = some b ∧ key b ≤ key a := by
  obtain ⟨hd, hlen⟩ := h.chain k d hk
  have hcut : (d.take (j + 1)).length = j + 1 := by
    rw [length_take]
    omega
  obtain ⟨m, hm⟩ : ∃ m, (d.take (j + 1)).getLast? = some m := by
    apply Option.isSome_iff_exists.mp
    rw [Option.isSome_iff_ne_none, Ne, getLast?_eq_none_iff]
    intro hnil
    rw [hnil] at hcut
    cases hcut
  obtain ⟨c', b, hc', hb, hle⟩ := h.least _ m (hd.take (j + 1)) hm
  rw [hcut, Nat.add_sub_cancel, hj] at hc'
  cases hc'
  apply Exists.intro b
  refine ⟨hb, hle.trans ?_⟩
  exact hd.le_getLast (mem_of_mem_take (mem_of_getLast? hm)) ha

theorem Piles.exists_end (h : Piles key xs piles) (hk : piles[k]? = some c) :
    ∃ a, c.getLast? = some a := by
  have hlen := (h.chain k c hk).2
  apply Option.isSome_iff_exists.mp
  rw [Option.isSome_iff_ne_none, Ne, getLast?_eq_none_iff]
  intro hnil
  rw [hnil] at hlen
  cases hlen

theorem endsBy_of_end (ha : c.getLast? = some a) : endsBy key x c = true ↔ key a ≤ key x := by
  unfold endsBy
  rw [ha, Option.all_some, decide_eq_true_iff]

theorem Piles.endsBy_iff (h : Piles key xs piles) (hk : piles[k]? = some c)
    (ha : c.getLast? = some a) : key a ≤ key x ↔ k < pileFor key piles x := by
  have hsorted : piles.Pairwise fun c d => endsBy key x d = true → endsBy key x c = true := by
    apply pairwise_iff_getElem.mpr
    intro i j hi hj hij hends
    obtain ⟨b, hb⟩ := h.exists_end (getElem?_eq_getElem hj)
    obtain ⟨b', hb', hle⟩ := h.ends_le hij.le (getElem?_eq_getElem hi) (getElem?_eq_getElem hj) hb
    exact (endsBy_of_end hb').mpr (hle.trans ((endsBy_of_end hb).mp hends))
  unfold pileFor
  rw [PartitionPoint.lt_takeWhile_iff hsorted, hk, ← endsBy_of_end (x := x) ha]
  refine ⟨fun hends => ⟨c, rfl, hends⟩, ?_⟩
  rintro ⟨c', hc', hends⟩
  rwa [Option.some.inj hc']

theorem pileFor_le (key : α → β) (piles : List (List α)) (x : α) : pileFor key piles x ≤ piles.length :=
  (takeWhile_sublist _).length_le

theorem Piles.before (h : Piles key xs piles) (x : α) :
    Chain key (xs ++ [x]) (before key piles x ++ [x]) ∧ (before key piles x).length = pileFor key piles x := by
  have hle := pileFor_le key piles x
  unfold PatienceSort.before
  cases hpos : pileFor key piles x with
  | zero =>
    refine ⟨Chain.concat ⟨nil_sublist xs, Pairwise.nil⟩ ?_, rfl⟩
    intro a ha
    cases ha
  | succ k =>
    rw [hpos] at hle
    have hk := getElem?_eq_getElem (l := piles) (i := k) hle
    rw [if_neg (Nat.succ_ne_zero k), Nat.add_sub_cancel, hk, Option.getD_some]
    obtain ⟨hchain, hlen⟩ := h.chain k _ hk
    refine ⟨hchain.concat ?_, hlen⟩
    intro a ha
    apply (h.endsBy_iff hk ha).mpr
    rw [hpos]
    exact Nat.lt_succ_self k

theorem getElem?_place (key : α → β) (piles : List (List α)) (x : α) (k : ℕ) : (place key piles x)[k]? =
      if k = pileFor key piles x then some (before key piles x ++ [x]) else piles[k]? := by
  have hle := pileFor_le key piles x
  have hfront : (piles.take (pileFor key piles x)).length = pileFor key piles x := by
    rw [length_take, Nat.min_eq_left hle]
  unfold place
  rcases lt_trichotomy k (pileFor key piles x) with hlt | rfl | hgt
  · rw [if_neg hlt.ne, getElem?_append_left (by omega), getElem?_take_of_lt hlt]
  · rw [if_pos rfl, getElem?_append_right (by omega), hfront, Nat.sub_self, getElem?_cons_zero]
  · rw [if_neg hgt.ne', getElem?_append_right (by omega), hfront]
    obtain ⟨m, rfl⟩ := Nat.exists_eq_add_of_lt hgt
    rw [show pileFor key piles x + m + 1 - pileFor key piles x = m + 1 by omega, getElem?_cons_succ,
      getElem?_drop, add_right_comm]

theorem Piles.place (h : Piles key xs piles) (x : α) : Piles key (xs ++ [x]) (PatienceSort.place key piles x) := by
  obtain ⟨hnew, hlen⟩ := h.before x
  refine ⟨?_, ?_⟩
  · intro k c hc
    rw [getElem?_place] at hc
    split_ifs at hc with hk
    · cases hc
      rw [length_append, hlen, hk]
      exact ⟨hnew, rfl⟩
    · obtain ⟨hchain, hclen⟩ := h.chain k c hc
      exact ⟨⟨hchain.sublist.trans (sublist_append_left xs [x]), hchain.sorted⟩, hclen⟩
  · intro s a hs ha
    rw [getElem?_place]
    rcases hs.cases_concat with hold | ⟨t, rfl, ht, hend⟩
    · -- an old chain: its pile ends by it, or the new element lies on that pile and is lower
      obtain ⟨c, b, hc, hb, hba⟩ := h.least s a hold ha
      split_ifs with hk
      · refine ⟨_, x, rfl, getLast?_concat, ?_⟩
        have hnot := mt (h.endsBy_iff hc hb (x := x)).mp (by omega)
        exact (le_of_not_ge hnot).trans hba
      · exact ⟨c, b, hc, hb, hba⟩
    · rw [getLast?_concat] at ha
      cases ha
      rw [length_append, length_singleton, Nat.add_sub_cancel]
      -- a chain the new element ends is no longer than the one it is put behind, or an old
      -- pile of that length ends by its key
      have hcount : t.length ≤ pileFor key piles x := by
        rcases eq_nil_or_concat t with rfl | ⟨front, last, rfl⟩
        · exact Nat.zero_le _
        · rw [concat_eq_append] at ht hend ⊢
          obtain ⟨c, b, hc, hb, hba⟩ := h.least _ last ht getLast?_concat
          have hin := (h.endsBy_iff hc hb (x := x)).mp (hba.trans (hend last getLast?_concat))
          omega
      split_ifs with hk
      · exact ⟨_, x, rfl, getLast?_concat, le_rfl⟩
      · have hlt : t.length < pileFor key piles x := by omega
        have hpile := getElem?_eq_getElem (hlt.trans_le (pileFor_le key piles x))
        obtain ⟨b, hb⟩ := h.exists_end hpile
        exact ⟨_, b, hpile, hb, (h.endsBy_iff hpile hb).mpr hlt⟩

theorem Piles.foldl (h : Piles key xs piles) (ys : List α) :
    Piles key (xs ++ ys) (ys.foldl (PatienceSort.place key) piles) := by
  induction ys generalizing xs piles with
  | nil => rwa [append_nil]
  | cons y ys ih =>
    rw [foldl_cons, append_cons]
    exact ih (h.place y)

def lastChain (piles : List (List α)) : List α := piles.getLast?.getD []

/-- The last pile holds a longest chain. -/
theorem Piles.longest (h : Piles key xs piles) : Longest key xs (lastChain piles) := by
  unfold lastChain
  have hcount : ∀ s, Chain key xs s → s.length ≤ piles.length := by
    intro s hs
    rcases eq_nil_or_concat s with rfl | ⟨front, last, rfl⟩
    · exact Nat.zero_le _
    · rw [concat_eq_append] at hs ⊢
      obtain ⟨c, _, hc, _⟩ := h.least _ last hs getLast?_concat
      have := (List.getElem?_eq_some_iff.mp hc).1
      omega
  rcases eq_nil_or_concat piles with rfl | ⟨front, last, rfl⟩
  · exact ⟨⟨nil_sublist xs, Pairwise.nil⟩, hcount⟩
  · rw [concat_eq_append] at h hcount ⊢
    rw [getLast?_concat, Option.getD_some]
    obtain ⟨hchain, hlen⟩ := h.chain front.length last (by simp)
    refine ⟨hchain, ?_⟩
    intro s hs
    have := hcount s hs
    rw [length_append, length_singleton] at this
    rwa [hlen]

end PatienceSort
