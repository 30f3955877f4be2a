import Batchalign.Lib.WordRuns
import Batchalign.Interleaving.Turns

/- Bag bounds on literal matches (`episodes/band/capacity.rs`). Before a reference cut no more words can
   be matched than the bags of source and reference share (`assigned_le_bag`), which one pass in each
   direction counts (`capacityRun_spec`). -/
namespace Batchalign.Interleaving
open Batchalign.DpAlign WordRuns List

/-- The feasible score a search starts from (`CanonicalWitness`). -/
structure CanonicalWitness where
  relation : Relation
  score : ℕ
  work : ℕ

abbrev Counts := String → Option (ℕ × ℕ)

structure ReferenceCapacity where
  source : List String
  prefixes : List ℕ
  suffixes : List ℕ
  work : ℕ
  feasible : ℕ

def countWord (counts : Counts) (k : String) : Counts :=
  Function.update counts k (some (match counts k with
    | some (available, seen) => (available + 1, seen)
    | none => (1, 0)))

/-- One pass over reference words: the matched count after each, and the counts after all. -/
def capacityRun (mode : LiteralMatchMode) : Counts → ℕ → List String → List ℕ × Counts
  | counts, _, [] => ([], counts)
  | counts, matched, word :: words =>
    let k := key word mode
    let matched' := match counts k with
      | some (available, seen) => matched + if seen < available then 1 else 0
      | none => matched
    let counts' := match counts k with
      | some (available, seen) => Function.update counts k (some (available, seen + 1))
      | none => counts
    let rest := capacityRun mode counts' matched' words
    (matched' :: rest.1, rest.2)

/-- `*seen = 0` on every value. -/
def resetSeen (counts : Counts) : Counts := fun k => (counts k).map fun p => (p.1, 0)

def ReferenceCapacity.observe (witness : CanonicalWitness) : Option ReferenceCapacity :=
  match witness.relation with
  | .fuzzy _ _ _ => none
  | .literal source reference mode =>
    let cells := saturatingMul (saturatingAdd reference.length 1) 2
    let temporary := saturatingAdd (saturatingMul source.length 32) cells
    let work := saturatingAdd (saturatingMul (saturatingAdd source.length reference.length) 6) 2
    if scoreCells < temporary ∨ workCells < saturatingAdd work witness.work then none
    else
      let counts := (source.map fun word => key word mode).foldl countWord fun _ => none
      let forward := capacityRun mode counts 0 reference
      let backward := capacityRun mode (resetSeen forward.2) 0 reference.reverse
      some ⟨source, 0 :: forward.1, backward.1.reverse ++ [0], work, witness.score⟩

/-- `depths`. -/
def depthBounds (m before after feasible : ℕ) : ℕ × ℕ :=
  (feasible - after, min m (m - feasible + before))

def ReferenceCapacity.depths (capacity : ReferenceCapacity) (k : ℕ) : ℕ × ℕ :=
  depthBounds capacity.source.length (capacity.prefixes.getD k 0) (capacity.suffixes.getD k 0)
    capacity.feasible

/-! ## The counts are bags -/

def Bags (counts : Counts) (source seen : Multiset String) : Prop :=
  ∀ k, counts k = if source.count k = 0 then none else some (source.count k, seen.count k)

variable {counts : Counts} {S R : Multiset String} {mode : LiteralMatchMode}

theorem Bags.countWord (h : Bags counts S 0) (k : String) : Bags (countWord counts k) (k ::ₘ S) 0 := by
  intro x
  rw [Interleaving.countWord]
  by_cases hx : x = k
  · subst hx
    have hpos : Multiset.count x (x ::ₘ S) ≠ 0 := by
      rw [Multiset.count_cons_self]
      exact Nat.succ_ne_zero _
    rw [Function.update_self, h x, if_neg hpos, Multiset.count_cons_self]
    by_cases hzero : S.count x = 0
    · simp [hzero]
    · simp [hzero]
  · rw [Function.update_of_ne hx, h x, Multiset.count_cons_of_ne hx]

theorem bags_of_source (keys : List String) : ∀ {counts : Counts} {S : Multiset String}, Bags counts S 0 →
      Bags (keys.foldl countWord counts) (S + (keys : Multiset String)) 0 := by
  induction keys with
  | nil =>
    intro counts S h
    simpa using h
  | cons k keys ih =>
    intro counts S h
    have hnext := ih (h.countWord k)
    rwa [← Multiset.cons_coe, Multiset.add_cons, ← Multiset.cons_add]

theorem Bags.reset (h : Bags counts S R) : Bags (resetSeen counts) S 0 := by
  intro k
  rw [resetSeen, h k]
  split_ifs <;> simp

theorem card_inter_cons (S R : Multiset String) (k : String) :
    (S ∩ (k ::ₘ R)).card = (S ∩ R).card + if R.count k < S.count k then 1 else 0 := by
  by_cases hlt : R.count k < S.count k
  · have hadd : S ∩ (k ::ₘ R) = k ::ₘ (S ∩ R) := by
      ext x
      by_cases hx : x = k
      · subst hx
        rw [Multiset.count_inter, Multiset.count_cons_self, Multiset.count_cons_self,
          Multiset.count_inter]
        omega
      · rw [Multiset.count_inter, Multiset.count_cons_of_ne hx, Multiset.count_cons_of_ne hx,
          Multiset.count_inter]
    rw [hadd, if_pos hlt, Multiset.card_cons]
  · have hsame : S ∩ (k ::ₘ R) = S ∩ R := by
      ext x
      by_cases hx : x = k
      · subst hx
        rw [Multiset.count_inter, Multiset.count_cons_self, Multiset.count_inter]
        omega
      · rw [Multiset.count_inter, Multiset.count_cons_of_ne hx, Multiset.count_inter]
    rw [hsame, if_neg hlt, add_zero]

def bagOf (mode : LiteralMatchMode) (words : List String) : Multiset String :=
  ((words.map fun word => key word mode : List String) : Multiset String)

theorem bagOf_cons (word : String) (words : List String) :
    bagOf mode (word :: words) = key word mode ::ₘ bagOf mode words := by
  rw [bagOf, map_cons, ← Multiset.cons_coe]
  rfl

theorem bagOf_reverse (words : List String) : bagOf mode words.reverse = bagOf mode words := by
  rw [bagOf, bagOf, map_reverse, Multiset.coe_reverse]

section
variable (mode : LiteralMatchMode)

theorem capacityRun_spec (words : List String) :
    ∀ {counts : Counts} {R : Multiset String}, Bags counts S R →
      (∀ i < words.length, (capacityRun mode counts (S ∩ R).card words).1.getD i 0 =
        (S ∩ (R + bagOf mode (words.take (i + 1)))).card) ∧
      (capacityRun mode counts (S ∩ R).card words).1.length = words.length ∧
      ∃ R', Bags (capacityRun mode counts (S ∩ R).card words).2 S R' := by
  induction words with
  | nil =>
    intro counts R h
    exact ⟨fun i hi => absurd hi (Nat.not_lt_zero i), rfl, R, h⟩
  | cons word words ih =>
    intro counts R h
    have hmatched : (match counts (key word mode) with
        | some (available, seen) => (S ∩ R).card + if seen < available then 1 else 0
        | none => (S ∩ R).card) = (S ∩ (key word mode ::ₘ R)).card := by
      rw [h (key word mode), card_inter_cons]
      by_cases hzero : S.count (key word mode) = 0
      · simp [hzero]
      · simp only [if_neg hzero]
    have hcounts : Bags (match counts (key word mode) with
        | some (available, seen) =>
          Function.update counts (key word mode) (some (available, seen + 1))
        | none => counts) S (key word mode ::ₘ R) := by
      intro x
      rw [h (key word mode)]
      by_cases hzero : S.count (key word mode) = 0
      · -- a key without source words is not in the map, and stays out
        simp only [if_pos hzero]
        rw [h x]
        by_cases hx : x = key word mode
        · rw [hx, if_pos hzero, if_pos hzero]
        · rw [Multiset.count_cons_of_ne hx]
      · simp only [if_neg hzero]
        by_cases hx : x = key word mode
        · rw [hx, Function.update_self, Multiset.count_cons_self, if_neg hzero]
        · rw [Function.update_of_ne hx, h x, Multiset.count_cons_of_ne hx]
    obtain ⟨hget, hlen, hlast⟩ := ih hcounts
    rw [capacityRun]
    simp only [hmatched]
    refine ⟨?_, by rw [length_cons, hlen, length_cons], hlast⟩
    intro i hi
    cases i with
    | zero =>
      rw [getD_cons_zero, take_succ_cons, take_zero, bagOf_cons, Multiset.add_cons]
      have hnil : R + bagOf mode [] = R := Multiset.add_zero R
      rw [hnil]
    | succ i =>
      rw [getD_cons_succ, hget i (by simpa using hi), take_succ_cons, bagOf_cons,
        Multiset.add_cons, Multiset.cons_add]

/-! ## The bound -/

theorem bagOf_eq_map (words : List String) : bagOf mode words = (Multiset.range words.length).map
      fun i => ((words[i]?).map fun word => key word mode).getD "" := by
  rw [Multiset.range, Multiset.map_coe, bagOf]
  congr 1
  apply ext_getElem
  · simp
  · intro i h1 h2
    have hi : i < words.length := by simpa using h1
    simp [getElem?_eq_getElem hi]

theorem map_le_bagOf (words : List String) {l : List ℕ} (hnodup : l.Nodup)
    (hin : ∀ i ∈ l, i < words.length) :
    ((l.map fun i => ((words[i]?).map fun word => key word mode).getD "" : List String) :
      Multiset String) ≤ bagOf mode words := by
  rw [bagOf_eq_map, ← Multiset.map_coe]
  apply Multiset.map_le_map
  apply (Multiset.le_iff_subset (Multiset.coe_nodup.mpr hnodup)).mpr
  intro i hi
  exact Multiset.mem_range.mpr (hin i hi)

end

theorem assigned_le_bag {source reference : List String} {k j : ℕ} {σ : List ℕ}
    {a : List (ℕ × ℕ)} (h : Assigned (Relation.literal source reference mode).matchesAt k j σ a)
    (hσ : σ.Nodup) (hj : j ≤ reference.length) :
    a.length ≤ (bagOf mode source ∩ bagOf mode ((reference.take j).drop k)).card := by
  -- a matched pair has one key, read from either side
  have hkeys : ∀ p ∈ a, ∃ x, source[p.1]? = some x ∧ ∃ y, reference[p.2]? = some y ∧
      key x mode = key y mode := by
    intro p hp
    have hM := h.matching p hp
    rw [Relation.matchesAt] at hM
    split at hM
    · next x y hx hy => exact ⟨x, hx, y, hy, (matchesWords_iff_key mode x y).mp hM⟩
    · cases hM
  have hwords : (a.map Prod.fst).Nodup := h.order.nodup hσ
  have hfirst : ((a.map fun p => ((source[p.1]?).map fun word => key word mode).getD "" :
      List String) : Multiset String) ≤ bagOf mode source := by
    have hle := map_le_bagOf mode source hwords (by
      intro i hi
      obtain ⟨p, hp, rfl⟩ := mem_map.mp hi
      obtain ⟨x, hx, _⟩ := hkeys p hp
      exact (List.getElem?_eq_some_iff.mp hx).1)
    rwa [map_map] at hle
  have hpositions : (a.map fun p => p.2 - k).Nodup := by
    rw [Nodup, pairwise_map]
    refine h.increasing.imp_of_mem ?_
    intro p q hp hq hlt
    have := h.inside p hp
    omega
  have hsecond : ((a.map fun p => ((((reference.take j).drop k)[p.2 - k]?).map
      fun word => key word mode).getD "" : List String) : Multiset String) ≤
        bagOf mode ((reference.take j).drop k) := by
    have hle := map_le_bagOf mode ((reference.take j).drop k) hpositions (by
      intro i hi
      obtain ⟨p, hp, rfl⟩ := mem_map.mp hi
      have := h.inside p hp
      rw [length_drop, length_take]
      omega)
    rwa [map_map] at hle
  have hsame : (a.map fun p => ((source[p.1]?).map fun word => key word mode).getD "") =
      a.map fun p => ((((reference.take j).drop k)[p.2 - k]?).map
        fun word => key word mode).getD "" := by
    apply map_congr_left
    intro p hp
    obtain ⟨x, hx, y, hy, hxy⟩ := hkeys p hp
    have hinside := h.inside p hp
    rw [getElem?_drop, show k + (p.2 - k) = p.2 by omega,
      getElem?_take_of_lt hinside.2, hx, hy]
    exact hxy
  rw [← hsame] at hsecond
  have hcard := Multiset.card_le_card (Multiset.le_inter hfirst hsecond)
  rwa [Multiset.coe_card, length_map] at hcard

/-! ## The bounds of an observed capacity -/

structure ReferenceCapacity.Bounds (capacity : ReferenceCapacity) (relation : Relation)
    (feasible : ℕ) : Prop where
  source : capacity.source.length = relation.sourceLen
  feasible : capacity.feasible = feasible
  before : ∀ k ≤ relation.referenceLen, ∀ σ a, Assigned relation.matchesAt 0 k σ a → σ.Nodup →
    a.length ≤ capacity.prefixes.getD k 0
  after : ∀ k ≤ relation.referenceLen, ∀ σ a,
    Assigned relation.matchesAt k relation.referenceLen σ a → σ.Nodup →
      a.length ≤ capacity.suffixes.getD k 0

theorem ReferenceCapacity.observe_bounds {witness : CanonicalWitness} {capacity : ReferenceCapacity}
    (h : ReferenceCapacity.observe witness = some capacity) :
    capacity.Bounds witness.relation witness.score := by
  obtain ⟨relation, score, work⟩ := witness
  rw [ReferenceCapacity.observe] at h
  simp only at h
  cases relation with
  | fuzzy _ _ _ => cases h
  | literal source reference mode =>
    simp only at h
    split_ifs at h
    obtain rfl := (Option.some.inj h).symm
    have hstart : Bags (fun _ => none) 0 0 := fun k => by simp
    have hcounts := bags_of_source (source.map fun word => key word mode) hstart
    rw [Multiset.zero_add] at hcounts
    change Bags _ (bagOf mode source) 0 at hcounts
    obtain ⟨hbefore, hlen, R, hseen⟩ := capacityRun_spec mode reference hcounts
    obtain ⟨hafter, hlen', _⟩ := capacityRun_spec mode reference.reverse hseen.reset
    have hzero : (bagOf mode source ∩ (0 : Multiset String)).card = 0 := by simp
    rw [hzero] at hbefore hlen hafter hlen'
    simp only [Multiset.zero_add] at hbefore hafter
    rw [length_reverse] at hafter hlen'
    refine ⟨rfl, rfl, ?_, ?_⟩
    · intro k hk σ a ha hσ
      have hbound := assigned_le_bag ha hσ hk
      rw [drop_zero] at hbound
      cases k with
      | zero => simpa [bagOf] using hbound
      | succ k =>
        rw [getD_cons_succ, hbefore k hk]
        exact hbound
    · intro k hk σ a ha hσ
      have hbound := assigned_le_bag ha hσ (le_refl _)
      rw [show Relation.referenceLen (.literal source reference mode) = reference.length from rfl]
        at hk hbound
      rw [take_length] at hbound
      have hreverse : ∀ i, i < reference.length →
          (capacityRun mode (resetSeen (capacityRun mode ((source.map fun word => key word mode).foldl
            countWord fun _ => none) 0 reference).2) 0 reference.reverse).1.reverse.getD i 0 =
          (bagOf mode source ∩ bagOf mode (reference.drop i)).card := by
        intro i hi
        rw [getD_eq_getElem?_getD, getElem?_reverse (by rw [hlen']; exact hi), hlen',
          ← getD_eq_getElem?_getD, hafter _ (by omega)]
        rw [show reference.length - 1 - i + 1 = reference.length - i by omega,
          take_reverse, bagOf_reverse, show reference.length - (reference.length - i) = i by omega]
      rcases lt_or_ge k reference.length with hlt | hge
      · rw [getD_eq_getElem?_getD, getElem?_append_left (by rw [length_reverse, hlen']; exact hlt),
          ← getD_eq_getElem?_getD, hreverse k hlt]
        exact hbound
      · obtain rfl : k = reference.length := by omega
        rw [drop_length] at hbound
        have hnone : a.length = 0 := by simpa [bagOf] using hbound
        omega

end Batchalign.Interleaving
