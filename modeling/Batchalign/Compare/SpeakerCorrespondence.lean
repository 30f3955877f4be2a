import Batchalign.Lib.Pairing
import Mathlib.Data.List.Lattice
import Mathlib.Data.Multiset.UnionInter

/- Which speaker of one run is which of the other (`compare/cross_run.rs`): the one-to-one map that
   alone has the most words in common. `SpeakerMap.new` is `SpeakerMap::try_from_assignments`. A
   `BTreeMap` of words is the list of its entries, one of assignments the set of its own. -/
namespace Batchalign.Compare
open List

/-- `counts` is the list of the right words not yet taken, beside the total. -/
def multisetOverlap (toLowercase : String → String) (left right : List String) : ℕ :=
  (left.foldl (fun s token =>
    if toLowercase token ∈ s.1 then (s.1.erase (toLowercase token), s.2 + 1) else s)
      (right.map toLowercase, 0)).2

/-- The words of each speaker. -/
structure SpeakerWords where
  entries : List (String × List String)
  nodup : (entries.map Prod.fst).Nodup

namespace SpeakerWords

def names (side : SpeakerWords) : List String := side.entries.map Prod.fst

def get (side : SpeakerWords) (name : String) : List String :=
  (side.entries.lookup name).getD []

/-- The speakers that have a name. -/
def named (side : SpeakerWords) : Finset String := side.names.toFinset.filter (fun n => n ≠ "")

end SpeakerWords

@[ext]
structure SpeakerMap where
  assignments : Finset (String × String)
  nonempty : assignments ≠ ∅
  leftNamed : ∀ x ∈ assignments, x.1 ≠ ""
  rightNamed : ∀ x ∈ assignments, x.2 ≠ ""
  injective : ∀ x ∈ assignments, ∀ y ∈ assignments, x.2 = y.2 → x = y

instance : DecidableEq SpeakerMap := fun a b =>
  decidable_of_iff (a.assignments = b.assignments) SpeakerMap.ext_iff.symm

def SpeakerMap.new (assignments : Finset (String × String)) : Option SpeakerMap :=
  if h : assignments ≠ ∅ ∧ (∀ x ∈ assignments, x.1 ≠ "") ∧ (∀ x ∈ assignments, x.2 ≠ "") ∧
      ∀ x ∈ assignments, ∀ y ∈ assignments, x.2 = y.2 → x = y then
    some ⟨assignments, h.1, h.2.1, h.2.2.1, h.2.2.2⟩
  else none

@[ext]
structure SpeakerMapCandidate where
  map : SpeakerMap
  overlap : ℕ
  deriving DecidableEq

inductive SpeakerCorrespondence where
  | established (map : SpeakerMap)
  | ambiguous (candidates : Finset SpeakerMapCandidate)
  | unavailable
  deriving DecidableEq

/-- The candidates from a left speaker on. -/
def enumerate (left right : List String) (overlap : String → String → ℕ) :
    List String → Finset String → Finset (String × String) → ℕ → List SpeakerMapCandidate
  | [], _, assignments, score =>
    (SpeakerMap.new assignments).toList.map (fun map => ⟨map, score⟩)
  | l :: rest, used, assignments, score =>
    right.flatMap (fun r =>
      if r ∈ used then []
      else enumerate left right overlap rest (insert r used) (insert (l, r) assignments)
        (score + overlap l r)) ++
    if left.length > right.length ∨ right = [] then
      enumerate left right overlap rest used assignments score
    else []

variable (toLowercase : String → String)

def candidates (left right : SpeakerWords) : List SpeakerMapCandidate :=
  enumerate left.names right.names
    (fun l r => multisetOverlap toLowercase (left.get l) (right.get r)) left.names ∅ ∅ 0

/-- The correspondence the candidates found settle. -/
def settle (found : List SpeakerMapCandidate) : SpeakerCorrespondence :=
  match (found.map SpeakerMapCandidate.overlap).max? with
  | none => .unavailable
  | some 0 => .unavailable
  | some best =>
    match (found.filter (fun c => c.overlap = best)).dedup with
    | [candidate] => .established candidate.map
    | several => .ambiguous several.toFinset

def establishSpeakerCorrespondence (left right : SpeakerWords) : SpeakerCorrespondence :=
  if left.entries.isEmpty || right.entries.isEmpty then .unavailable
  else settle (candidates toLowercase left right)

variable {toLowercase}

theorem foldl_overlap (left counts : List String) (total : ℕ) : (left.foldl (fun s token =>
      if toLowercase token ∈ s.1 then (s.1.erase (toLowercase token), s.2 + 1) else s)
        (counts, total)).2 = total + ((left.map toLowercase).bagInter counts).length := by
  induction left generalizing counts total with
  | nil => simp
  | cons token left ih =>
    rw [foldl_cons, map_cons]
    by_cases hmem : toLowercase token ∈ counts
    · rw [if_pos hmem, ih, cons_bagInter_of_mem _ hmem, length_cons, add_assoc, add_comm 1]
    · rw [if_neg hmem, ih, cons_bagInter_of_not_mem _ hmem]

theorem multisetOverlap_eq (left right : List String) : multisetOverlap toLowercase left right =
    ((left.map toLowercase).bagInter (right.map toLowercase)).length := by
  rw [multisetOverlap, foldl_overlap, zero_add]

theorem multisetOverlap_comm (left right : List String) :
    multisetOverlap toLowercase left right = multisetOverlap toLowercase right left := by
  rw [multisetOverlap_eq, multisetOverlap_eq, ← Multiset.coe_card, ← Multiset.coe_card,
    ← Multiset.coe_inter, ← Multiset.coe_inter, Multiset.inter_comm]

theorem multisetOverlap_pos_iff {left right : List String} : 0 < multisetOverlap toLowercase left right ↔
      ∃ u ∈ left, ∃ v ∈ right, toLowercase u = toLowercase v := by
  rw [multisetOverlap_eq, length_pos_iff_exists_mem]
  simp only [mem_bagInter, mem_map]
  constructor
  · rintro ⟨_, ⟨u, hu, rfl⟩, v, hv, heq⟩
    exact ⟨u, hu, v, hv, heq.symm⟩
  · rintro ⟨u, hu, v, hv, heq⟩
    exact ⟨_, ⟨u, hu, rfl⟩, v, hv, heq.symm⟩

theorem SpeakerMap.new_eq_some_iff {assignments : Finset (String × String)} {map : SpeakerMap} :
    SpeakerMap.new assignments = some map ↔ map.assignments = assignments := by
  unfold SpeakerMap.new
  constructor
  · intro h
    split at h
    · cases h
      rfl
    · cases h
  · rintro rfl
    rw [dif_pos ⟨map.nonempty, map.leftNamed, map.rightNamed, map.injective⟩]

open Pairing in
theorem mem_enumerate {left right rest : List String} {overlap : String → String → ℕ}
    (hrest : rest.Nodup) (used : Finset String) (assignments : Finset (String × String))
    (score : ℕ) (c : SpeakerMapCandidate) : c ∈ enumerate left right overlap rest used assignments score ↔
      ∃ m, Pairing rest.toFinset (right.toFinset \ used) m ∧
        (¬ (left.length > right.length ∨ right = []) → m.card = rest.length) ∧
        c.map.assignments = assignments ∪ m ∧ c.overlap = score + weight overlap m := by
  induction rest generalizing used assignments score with
  | nil =>
    rw [enumerate, mem_map]
    constructor
    · rintro ⟨map, hmap, rfl⟩
      rw [Option.mem_toList, SpeakerMap.new_eq_some_iff] at hmap
      exact ⟨∅, by constructor <;> simp, by simp, by simp [hmap], by simp [weight]⟩
    · rintro ⟨m, hm, -, hmap, hoverlap⟩
      obtain rfl : m = ∅ := Finset.eq_empty_of_forall_notMem (fun x hx => by simpa using hm.left x hx)
      refine ⟨c.map, ?_, by simp [weight] at hoverlap; rw [← hoverlap]⟩
      rw [Option.mem_toList, SpeakerMap.new_eq_some_iff, hmap, Finset.union_empty]
  | cons l rest ih =>
    obtain ⟨hl, hrest⟩ := nodup_cons.mp hrest
    have hl' : l ∉ rest.toFinset := by rwa [mem_toFinset]
    have hfresh : ∀ {B m} (r : String), Pairing rest.toFinset B m → (l, r) ∉ m :=
      fun r hm hmem => hl' (hm.left _ hmem)
    rw [enumerate, mem_append, mem_flatMap]
    constructor
    · rintro (⟨r, hr, hc⟩ | hc)
      · split at hc
        · cases hc
        · next hused =>
          obtain ⟨m, hm, hcard, hmap, hoverlap⟩ := (ih hrest _ _ _).mp hc
          rw [Finset.sdiff_insert] at hm
          refine ⟨insert (l, r) m, ?_, ?_, ?_, ?_⟩
          · rw [toFinset_cons, insert_left_iff hl']
            exact .inr ⟨r, by simp [hr, hused], m, hm, rfl⟩
          · intro hnot
            rw [Finset.card_insert_of_notMem (hfresh r hm), hcard hnot, length_cons]
          · rw [hmap, Finset.insert_union, Finset.union_insert]
          · rw [hoverlap, weight, weight, Finset.sum_insert (hfresh r hm), add_assoc]
      · split at hc
        · next hlarger =>
          obtain ⟨m, hm, -, hmap, hoverlap⟩ := (ih hrest _ _ _).mp hc
          refine ⟨m, ?_, fun hnot => absurd hlarger hnot, hmap, hoverlap⟩
          rw [toFinset_cons, insert_left_iff hl']
          exact .inl hm
        · cases hc
    · rintro ⟨m, hm, hcard, hmap, hoverlap⟩
      rw [toFinset_cons, insert_left_iff hl'] at hm
      obtain hm | ⟨r, hr, m, hm, rfl⟩ := hm
      · right
        have hlarger : left.length > right.length ∨ right = [] := by
          by_contra hnot
          have hle := hm.card_le_left.trans (toFinset_card_le rest)
          rw [hcard hnot, length_cons] at hle
          omega
        rw [if_pos hlarger, ih hrest]
        exact ⟨m, hm, fun hnot => absurd hlarger hnot, hmap, hoverlap⟩
      · left
        rw [Finset.mem_sdiff, mem_toFinset] at hr
        refine ⟨r, hr.1, ?_⟩
        rw [if_neg hr.2, ih hrest, Finset.sdiff_insert]
        refine ⟨m, hm, ?_, ?_, ?_⟩
        · intro hnot
          have hsucc := hcard hnot
          rw [Finset.card_insert_of_notMem (hfresh r hm), length_cons] at hsucc
          omega
        · rw [hmap, Finset.insert_union, Finset.union_insert]
        · rw [hoverlap, weight, weight, Finset.sum_insert (hfresh r hm), add_assoc]

section Found
open Pairing

variable {left right : SpeakerWords} {m : Finset (String × String)}

/-- The overlap of two speakers. -/
def pairOverlap (toLowercase : String → String) (left right : SpeakerWords) (l r : String) : ℕ :=
  multisetOverlap toLowercase (left.get l) (right.get r)

/-- The maps searched: one to one between named speakers, total unless the left side is larger. -/
def ConsideredMap (left right : SpeakerWords) (m : Finset (String × String)) : Prop :=
  Pairing left.named right.named m ∧
    (left.names.length ≤ right.names.length → m.card = left.names.length)

theorem mem_named {side : SpeakerWords} {name : String} :
    name ∈ side.named ↔ name ∈ side.names ∧ name ≠ "" := by
  rw [SpeakerWords.named, Finset.mem_filter, mem_toFinset]

theorem mem_candidates (c : SpeakerMapCandidate) : c ∈ candidates toLowercase left right ↔
    ConsideredMap left right c.map.assignments ∧
      c.overlap = weight (pairOverlap toLowercase left right) c.map.assignments := by
  have hnames : left.names.Nodup := left.nodup
  rw [candidates, mem_enumerate hnames, Finset.sdiff_empty]
  constructor
  · rintro ⟨m, hm, hcard, hmap, hoverlap⟩
    rw [Finset.empty_union] at hmap
    rw [zero_add] at hoverlap
    subst hmap
    refine ⟨⟨⟨?_, ?_, hm.injLeft, hm.injRight⟩, ?_⟩, hoverlap⟩
    · exact fun x hx => mem_named.mpr ⟨mem_toFinset.mp (hm.left x hx), c.map.leftNamed x hx⟩
    · exact fun x hx => mem_named.mpr ⟨mem_toFinset.mp (hm.right x hx), c.map.rightNamed x hx⟩
    · intro hle
      refine hcard ?_
      rintro (hlt | hnil)
      · omega
      · obtain ⟨x, hx⟩ := Finset.nonempty_iff_ne_empty.mpr c.map.nonempty
        simpa [hnil] using hm.right x hx
  · rintro ⟨⟨hm, hcard⟩, hoverlap⟩
    refine ⟨c.map.assignments, ⟨?_, ?_, hm.injLeft, hm.injRight⟩, ?_, by simp, ?_⟩
    · exact fun x hx => mem_toFinset.mpr (mem_named.mp (hm.left x hx)).1
    · exact fun x hx => mem_toFinset.mpr (mem_named.mp (hm.right x hx)).1
    · exact fun hnot => hcard (by omega)
    · rw [hoverlap, zero_add]
      rfl

def ConsideredMap.toMap (hm : ConsideredMap left right m) (hne : m ≠ ∅) : SpeakerMap :=
  ⟨m, hne, fun x hx => (mem_named.mp (hm.1.left x hx)).2,
    fun x hx => (mem_named.mp (hm.1.right x hx)).2, hm.1.injRight⟩

theorem exists_candidate (hm : ConsideredMap left right m) (hne : m ≠ ∅) :
    ∃ c ∈ candidates toLowercase left right, c.map.assignments = m :=
  ⟨⟨hm.toMap hne, weight (pairOverlap toLowercase left right) m⟩,
    (mem_candidates _).mpr ⟨hm, rfl⟩, rfl⟩

variable {found : List SpeakerMapCandidate} {map : SpeakerMap}

theorem settle_cases (found : List SpeakerMapCandidate) :
    settle found = .unavailable ∧ (∀ c ∈ found, c.overlap = 0) ∨
    ∃ best, 0 < best ∧ (∃ c ∈ found, c.overlap = best) ∧ (∀ c ∈ found, c.overlap ≤ best) ∧
      settle found = match (found.filter (fun c => c.overlap = best)).dedup with
        | [candidate] => .established candidate.map
        | several => .ambiguous several.toFinset := by
  unfold settle
  cases hmax : (found.map SpeakerMapCandidate.overlap).max? with
  | none => exact .inl ⟨rfl, by simp [map_eq_nil_iff.mp (max?_eq_none_iff.mp hmax)]⟩
  | some best =>
    obtain ⟨hmem, hle⟩ := max?_eq_some_iff.mp hmax
    rw [forall_mem_map] at hle
    cases best with
    | zero => exact .inl ⟨rfl, fun c hc => Nat.le_zero.mp (hle c hc)⟩
    | succ n => exact .inr ⟨n + 1, n.succ_pos, mem_map.mp hmem, hle, rfl⟩

theorem settle_eq_established : settle found = .established map ↔
    ∃ c ∈ found, c.map = map ∧ 0 < c.overlap ∧ ∀ c' ∈ found, c' ≠ c → c'.overlap < c.overlap := by
  obtain ⟨heq, hzero⟩ | ⟨best, hpos, ⟨c, hc, hbest⟩, hle, heq⟩ := settle_cases found
  · rw [heq]
    refine iff_of_false (by simp) ?_
    rintro ⟨c, hc, -, hpos, -⟩
    exact hpos.ne' (hzero c hc)
  · rw [heq]
    have hmem : ∀ c', c' ∈ (found.filter (fun c => c.overlap = best)).dedup ↔
        c' ∈ found ∧ c'.overlap = best := by simp
    constructor
    · intro h
      split at h
      · next only hone =>
        rw [SpeakerCorrespondence.established.injEq] at h
        simp only [hone, mem_singleton] at hmem
        obtain ⟨honly, hoverlap⟩ := (hmem only).mp rfl
        refine ⟨only, honly, h, by omega, ?_⟩
        intro c' hc' hne
        have hless := hle c' hc'
        have hnot : c'.overlap ≠ best := fun heq => hne ((hmem c').mpr ⟨hc', heq⟩)
        omega
      · cases h
    · rintro ⟨only, honly, hmap, -, hless⟩
      have hbest' : only.overlap = best := by
        by_contra hnot
        have hlt := hless c hc (fun heq => hnot (heq ▸ hbest))
        have := hle only honly
        omega
      have hone : (found.filter (fun c => c.overlap = best)).dedup = [only] := by
        refine perm_singleton.mp (perm_of_nodup_nodup_toFinset_eq (nodup_dedup _) (by simp) ?_)
        ext c'
        rw [mem_toFinset, hmem, toFinset_cons, toFinset_nil, insert_empty_eq, Finset.mem_singleton]
        constructor
        · rintro ⟨hc', heq⟩
          by_contra hne
          have := hless c' hc' hne
          omega
        · rintro rfl
          exact ⟨honly, hbest'⟩
      rw [hone, ← hmap]

theorem settle_eq_unavailable : settle found = .unavailable ↔ ∀ c ∈ found, c.overlap = 0 := by
  obtain ⟨heq, hzero⟩ | ⟨best, hpos, ⟨c, hc, hbest⟩, -, heq⟩ := settle_cases found
  · exact iff_of_true heq hzero
  · refine iff_of_false ?_ (fun hzero => by have := hzero c hc; omega)
    rw [heq]
    split <;> simp

theorem establish_eq (left right : SpeakerWords) : establishSpeakerCorrespondence toLowercase
    left right = settle (candidates toLowercase left right) := by
  unfold establishSpeakerCorrespondence
  split
  · next hempty =>
    refine (settle_eq_unavailable.mpr ?_).symm
    intro c hc
    obtain ⟨x, hx⟩ := Finset.nonempty_iff_ne_empty.mpr c.map.nonempty
    obtain ⟨⟨hm, -⟩, -⟩ := (mem_candidates c).mp hc
    rw [Bool.or_eq_true, List.isEmpty_iff, List.isEmpty_iff] at hempty
    obtain hnil | hnil := hempty
    · simpa [SpeakerWords.names, hnil] using (mem_named.mp (hm.left x hx)).1
    · simpa [SpeakerWords.names, hnil] using (mem_named.mp (hm.right x hx)).1
  · rfl

theorem establish_eq_established :
    establishSpeakerCorrespondence toLowercase left right = .established map ↔
      0 < weight (pairOverlap toLowercase left right) map.assignments ∧
        UniqueBest (ConsideredMap left right) (pairOverlap toLowercase left right) map.assignments := by
  rw [establish_eq, settle_eq_established]
  constructor
  · rintro ⟨c, hc, rfl, hpos, hless⟩
    obtain ⟨hconsidered, hoverlap⟩ := (mem_candidates c).mp hc
    rw [hoverlap] at hpos hless
    refine ⟨hpos, hconsidered, ?_⟩
    intro m' hm' hne
    by_cases hempty : m' = ∅
    · simpa [hempty, weight] using hpos
    · obtain ⟨c', hc', rfl⟩ := exists_candidate hm' hempty
      rw [← ((mem_candidates c').mp hc').2]
      exact hless c' hc' (fun heq => hne (heq ▸ rfl))
  · rintro ⟨hpos, hconsidered, hless⟩
    refine ⟨⟨map, weight (pairOverlap toLowercase left right) map.assignments⟩,
      (mem_candidates _).mpr ⟨hconsidered, rfl⟩, rfl, hpos, ?_⟩
    intro c' hc' hne
    obtain ⟨hc', hoverlap⟩ := (mem_candidates c').mp hc'
    rw [hoverlap]
    refine hless _ hc' (fun heq => hne ?_)
    exact SpeakerMapCandidate.ext (SpeakerMap.ext heq) (by rw [hoverlap, heq])

variable {w : String → String → ℕ}

theorem pos_of_weight_pos (h : 0 < weight w m) : ∃ x ∈ m, 0 < w x.1 x.2 := by
  by_contra hnone
  push Not at hnone
  have hzero : weight w m = 0 := Finset.sum_eq_zero (fun x hx => Nat.le_zero.mp (hnone x hx))
  omega

theorem ne_empty_of_weight_pos (h : 0 < weight w m) : m ≠ ∅ := by
  rintro rfl
  simp [weight] at h

/-- A map of every left speaker to named right ones. -/
def CompleteMap (left right : SpeakerWords) (m : Finset (String × String)) : Prop :=
  Pairing left.named right.named m ∧ m.card = left.names.length

/-- As many right names as left speakers, and a complete map beats every other. -/
def Forced (toLowercase : String → String) (left right : SpeakerWords) : Prop :=
  left.names.length = right.named.card ∧ ∃ m, CompleteMap left right m ∧
    0 < weight (pairOverlap toLowercase left right) m ∧
    (∃ x ∈ m, pairOverlap toLowercase left right x.1 x.2 = 0) ∧
    ∀ m', CompleteMap left right m' → m' ≠ m → weight (pairOverlap toLowercase left right) m' <
        weight (pairOverlap toLowercase left right) m

theorem named_card_le (side : SpeakerWords) : side.named.card ≤ side.names.length :=
  (Finset.card_filter_le _ _).trans (toFinset_card_le _)

/-- Established pairs have evidence exactly when no complete map forces one without. -/
theorem evidence_iff :
    (∀ map, establishSpeakerCorrespondence toLowercase left right = .established map →
      ∀ x ∈ map.assignments, 0 < pairOverlap toLowercase left right x.1 x.2) ↔
      ¬ Forced toLowercase left right := by
  constructor
  · rintro hevidence ⟨hcard, m, hm, hpos, ⟨x, hx, hzero⟩, hless⟩
    have hle : left.names.length ≤ right.names.length := hcard ▸ named_card_le right
    have hconsidered : ConsideredMap left right m := ⟨hm.1, fun _ => hm.2⟩
    have hestablished : establishSpeakerCorrespondence toLowercase left right =
        .established (hconsidered.toMap (ne_empty_of_weight_pos hpos)) :=
      establish_eq_established.mpr
        ⟨hpos, hconsidered, fun m' hm' => hless m' ⟨hm'.1, hm'.2 hle⟩⟩
    have := hevidence _ hestablished x hx
    omega
  · intro hforced map hestablished
    obtain ⟨hpos, hbest⟩ := establish_eq_established.mp hestablished
    obtain ⟨⟨hm, hfull⟩, hless⟩ := hbest
    by_cases hle : left.names.length ≤ right.names.length
    · have hcard := hfull hle
      have hcomplete : UniqueBest (CompleteMap left right)
          (pairOverlap toLowercase left right) map.assignments :=
        ⟨⟨hm, hcard⟩, fun m' hm' => hless m' ⟨hm'.1, fun _ => hm'.2⟩⟩
      have hroom := hm.swap.card_le_left
      rw [card_swap, hcard] at hroom
      by_cases hsame : left.names.length = right.named.card
      · intro x hx
        by_contra hzero
        exact hforced ⟨hsame, _, hcomplete.1, hpos, ⟨x, hx, Nat.eq_zero_of_not_pos hzero⟩,
          hcomplete.2⟩
      · exact hcomplete.positive_of_room (lt_of_le_of_ne hroom hsame)
    · exact UniqueBest.positive_of_partial
        ⟨hm, fun m' hm' => hless m' ⟨hm', fun h => absurd h hle⟩⟩

/-- Two speakers, one of whom says `x`. -/
def twoSpeakers (word : String) : SpeakerWords where
  entries := [("CHI", ["x"]), ("MOT", [word])]
  nodup := by simp

/-- The speakers who say `x` are one, and the two left over share no word. -/
theorem left_over_pair_established :
    ∃ map, establishSpeakerCorrespondence id (twoSpeakers "y") (twoSpeakers "z") =
      .established map ∧ ("MOT", "MOT") ∈ map.assignments ∧
      pairOverlap id (twoSpeakers "y") (twoSpeakers "z") "MOT" "MOT" = 0 := by
  refine ⟨⟨{("MOT", "MOT"), ("CHI", "CHI")}, by decide, by decide, by decide, by decide⟩,
    ?_, by decide, by decide⟩
  decide +kernel

/-- Some left word is a right word, case aside. -/
def SharesWord (toLowercase : String → String) (left right : SpeakerWords) : Prop :=
  ∃ l ∈ left.names, ∃ r ∈ right.names, ∃ u ∈ left.get l, ∃ v ∈ right.get r,
    toLowercase u = toLowercase v

def AllNamed (side : SpeakerWords) : Prop := ∀ name ∈ side.names, name ≠ ""

/-- The same status, and inverse maps. -/
def Mirrored : SpeakerCorrespondence → SpeakerCorrespondence → Prop
  | .established map, .established map' => map'.assignments = map.assignments.image Prod.swap
  | .ambiguous _, .ambiguous _ => True
  | .unavailable, .unavailable => True
  | _, _ => False

theorem pairOverlap_comm : pairOverlap toLowercase right left =
    fun r l => pairOverlap toLowercase left right l r := by
  funext r l
  exact multisetOverlap_comm _ _

theorem SharesWord.symm (h : SharesWord toLowercase left right) : SharesWord toLowercase right left := by
  obtain ⟨l, hl, r, hr, u, hu, v, hv, heq⟩ := h
  exact ⟨r, hr, l, hl, v, hv, u, hu, heq.symm⟩

theorem AllNamed.card (h : AllNamed left) : left.named.card = left.names.length := by
  have hnames : left.names.Nodup := left.nodup
  rw [SpeakerWords.named, Finset.filter_true_of_mem, toFinset_card_of_nodup hnames]
  exact fun name hname => h name (mem_toFinset.mp hname)

theorem considered_iff (hleft : AllNamed left) (hright : AllNamed right) :
    ConsideredMap left right = Considered left.named right.named := by
  funext m
  rw [ConsideredMap, Considered, hleft.card, hright.card]

theorem SharesWord.exists_considered (hleft : AllNamed left) (hright : AllNamed right)
    (h : SharesWord toLowercase left right) : ∃ m, ConsideredMap left right m ∧
      0 < weight (pairOverlap toLowercase left right) m := by
  obtain ⟨l, hl, r, hr, hwords⟩ := h
  have hpair : Pairing left.named right.named {(l, r)} := by
    constructor <;> simp [mem_named, hl, hr, hleft l hl, hright r hr]
  obtain ⟨m, hsub, hm⟩ := hpair.exists_considered
  refine ⟨m, considered_iff hleft hright ▸ hm, ?_⟩
  refine lt_of_lt_of_le ?_ (weight_mono hsub)
  rw [weight, Finset.sum_singleton]
  exact multisetOverlap_pos_iff.mpr hwords

theorem sharesWord_of_weight_pos (hm : ConsideredMap left right m)
    (h : 0 < weight (pairOverlap toLowercase left right) m) : SharesWord toLowercase left right := by
  obtain ⟨x, hx, hpos⟩ := pos_of_weight_pos h
  exact ⟨x.1, (mem_named.mp (hm.1.left x hx)).1, x.2, (mem_named.mp (hm.1.right x hx)).1,
    multisetOverlap_pos_iff.mp hpos⟩

theorem establish_eq_unavailable (hleft : AllNamed left) (hright : AllNamed right) :
    establishSpeakerCorrespondence toLowercase left right = .unavailable ↔
      ¬ SharesWord toLowercase left right := by
  rw [establish_eq, settle_eq_unavailable]
  constructor
  · intro hzero hshares
    obtain ⟨m, hm, hpos⟩ := hshares.exists_considered hleft hright
    obtain ⟨c, hc, rfl⟩ : ∃ c ∈ candidates toLowercase left right, c.map.assignments = m :=
      exists_candidate hm (ne_empty_of_weight_pos hpos)
    rw [← ((mem_candidates c).mp hc).2, hzero c hc] at hpos
    cases hpos
  · intro hshares c hc
    obtain ⟨hconsidered, hoverlap⟩ := (mem_candidates c).mp hc
    by_contra hne
    exact hshares (sharesWord_of_weight_pos hconsidered (by omega))

theorem established_swap (hleft : AllNamed left) (hright : AllNamed right)
    (h : establishSpeakerCorrespondence toLowercase left right = .established map) :
    ∃ map', establishSpeakerCorrespondence toLowercase right left = .established map' ∧
      map'.assignments = map.assignments.image Prod.swap := by
  obtain ⟨hpos, hbest⟩ := establish_eq_established.mp h
  rw [considered_iff hleft hright] at hbest
  have hbest' := hbest.swap
  rw [← considered_iff hright hleft, ← pairOverlap_comm] at hbest'
  rw [← weight_swap, ← pairOverlap_comm] at hpos
  exact ⟨hbest'.1.toMap (ne_empty_of_weight_pos hpos),
    establish_eq_established.mpr ⟨hpos, hbest'⟩, rfl⟩

/-- No correspondence without a shared word; else the one map of the greatest overlap is established, and from
  the sides swapped its inverse. -/
theorem establish_spec (hleft : AllNamed left) (hright : AllNamed right) :
    (establishSpeakerCorrespondence toLowercase left right = .unavailable ↔
      left.names = [] ∨ right.names = [] ∨ ¬ SharesWord toLowercase left right) ∧
    (∀ map, establishSpeakerCorrespondence toLowercase left right = .established map ↔
      SharesWord toLowercase left right ∧ UniqueBest (ConsideredMap left right)
        (pairOverlap toLowercase left right) map.assignments) ∧
    Mirrored (establishSpeakerCorrespondence toLowercase left right)
      (establishSpeakerCorrespondence toLowercase right left) := by
  have hempty : left.names = [] ∨ right.names = [] → ¬ SharesWord toLowercase left right := by
    rintro (hnil | hnil) ⟨l, hl, r, hr, -⟩ <;> simp [hnil] at hl hr
  refine ⟨?_, ?_, ?_⟩
  · rw [establish_eq_unavailable hleft hright, ← or_assoc]
    exact ⟨.inr, fun h => h.elim hempty id⟩
  · intro map
    rw [establish_eq_established]
    refine and_congr_left ?_
    intro hbest
    constructor
    · exact sharesWord_of_weight_pos hbest.1
    · intro hshares
      obtain ⟨m, hm, hpos⟩ := hshares.exists_considered hleft hright
      by_cases heq : m = map.assignments
      · exact heq ▸ hpos
      · exact lt_trans hpos (hbest.2 m hm heq)
  · cases hstatus : establishSpeakerCorrespondence toLowercase left right with
    | established map =>
      obtain ⟨map', hmap', hinverse⟩ := established_swap hleft hright hstatus
      rw [hmap']
      exact hinverse
    | unavailable =>
      rw [establish_eq_unavailable hleft hright] at hstatus
      rw [(establish_eq_unavailable hright hleft).mpr (fun h => hstatus h.symm)]
      trivial
    | ambiguous candidates =>
      cases hother : establishSpeakerCorrespondence toLowercase right left with
      | established map =>
        obtain ⟨map', hmap', -⟩ := established_swap hright hleft hother
        rw [hstatus] at hmap'
        cases hmap'
      | unavailable =>
        rw [establish_eq_unavailable hright hleft] at hother
        rw [(establish_eq_unavailable hleft hright).mpr (fun h => hother h.symm)] at hstatus
        cases hstatus
      | ambiguous candidates' => trivial

/-- The speakers are matched by name, the pair that shares a word deciding. -/
theorem two_speakers_spec :
    (establishSpeakerCorrespondence id (twoSpeakers "y") (twoSpeakers "z") ≠ .unavailable) ∧
    (∃ map, establishSpeakerCorrespondence id (twoSpeakers "y") (twoSpeakers "z") = .established map ∧
      UniqueBest (ConsideredMap (twoSpeakers "y") (twoSpeakers "z"))
        (pairOverlap id (twoSpeakers "y") (twoSpeakers "z")) map.assignments) ∧
    Mirrored (establishSpeakerCorrespondence id (twoSpeakers "y") (twoSpeakers "z"))
      (establishSpeakerCorrespondence id (twoSpeakers "z") (twoSpeakers "y")) := by
  have hnamed : ∀ word, AllNamed (twoSpeakers word) := by
    intro word name hname
    simp only [SpeakerWords.names, twoSpeakers, map_cons, map_nil, mem_cons, not_mem_nil,
      or_false] at hname
    obtain rfl | rfl := hname <;> decide
  obtain ⟨hunavailable, hestablished, hmirrored⟩ := @establish_spec id _ _ (hnamed "y") (hnamed "z")
  refine ⟨fun h => ?_, ⟨_, rfl, ((hestablished _).mp rfl).2⟩, hmirrored⟩
  obtain hnil | hnil | hapart := hunavailable.mp h
  · exact absurd hnil (by decide)
  · exact absurd hnil (by decide)
  · exact hapart ((hestablished _).mp rfl).1

def oneSpeaker (word : String) : SpeakerWords where
  entries := [("CHI", [word])]
  nodup := by simp

/-- The one map there is has the greatest overlap, which is none. -/
theorem only_map_unavailable : UniqueBest (ConsideredMap (oneSpeaker "x") (oneSpeaker "y"))
      (pairOverlap id (oneSpeaker "x") (oneSpeaker "y")) {("CHI", "CHI")} ∧
    establishSpeakerCorrespondence id (oneSpeaker "x") (oneSpeaker "y") = .unavailable := by
  refine ⟨⟨⟨by constructor <;> decide, fun _ => rfl⟩, ?_⟩, rfl⟩
  intro m hm hne
  have hsub : m ⊆ {("CHI", "CHI")} := by
    intro x hx
    have hl := hm.1.left x hx
    have hr := hm.1.right x hx
    rw [mem_named] at hl hr
    simp [SpeakerWords.names, oneSpeaker] at hl hr
    simp [Prod.ext_iff, hl, hr]
  refine absurd (Finset.eq_of_subset_of_card_le hsub ?_) hne
  rw [Finset.card_singleton, hm.2 le_rfl]
  rfl

end Found

end Batchalign.Compare
