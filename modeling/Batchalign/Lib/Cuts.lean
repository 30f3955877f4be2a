import Batchalign.Lib.Segments

/- Where consecutive groups end: `Ends` says at which positions, `EndsBig` which of them end a group of
   at least a given size. That size can be read off the ends before (`endsBig_iff`), and the number of a
   position's group goes up where one ends (`slots_step`). -/
namespace Cuts
open Segments List

variable {α : Type} {groups : List (List α)} {group : List α} {i k p : ℕ}

def Ends (groups : List (List α)) (i : ℕ) : Prop :=
  ∃ p, p < groups.length ∧ offset groups (p + 1) = i

/-- A group of at least `k` ends at this position. -/
def EndsBig (k : ℕ) (groups : List (List α)) (i : ℕ) : Prop :=
  ∃ p group, groups[p]? = some group ∧ k ≤ group.length ∧ offset groups (p + 1) = i

theorem not_ends_nil : ¬ Ends ([] : List (List α)) i := by
  rintro ⟨p, hp, _⟩
  simp at hp

theorem not_endsBig_nil : ¬ EndsBig k ([] : List (List α)) i := by
  rintro ⟨p, group, hp, _⟩
  simp at hp

theorem EndsBig.ends (h : EndsBig k groups i) : Ends groups i := by
  obtain ⟨p, group, hp, _, hi⟩ := h
  exact ⟨p, (List.getElem?_eq_some_iff.mp hp).1, hi⟩

theorem Ends.le (h : Ends groups i) : i ≤ groups.flatten.length := by
  obtain ⟨p, hp, hi⟩ := h
  rw [← hi, ← offset_length]
  exact offset_mono groups (by omega)

theorem ends_length (h : groups ≠ []) : Ends groups groups.flatten.length := by
  have hpos := length_pos_of_ne_nil h
  refine ⟨groups.length - 1, by omega, ?_⟩
  rw [Nat.sub_add_cancel hpos, offset_length]

theorem offset_concat (hp : p ≤ groups.length) : offset (groups ++ [group]) p = offset groups p := by
  rw [offset, take_append_of_le_length hp, offset]

theorem offset_concat_length :
    offset (groups ++ [group]) (groups.length + 1) = groups.flatten.length + group.length := by
  rw [offset, take_of_length_le (by simp), flatten_append, length_append,
    flatten_singleton]

theorem ends_concat : Ends (groups ++ [group]) i ↔
    Ends groups i ∨ i = groups.flatten.length + group.length := by
  constructor
  · rintro ⟨p, hp, hi⟩
    rw [length_append, length_singleton] at hp
    by_cases hlast : p = groups.length
    · rw [hlast, offset_concat_length] at hi
      exact Or.inr hi.symm
    · rw [offset_concat (by omega)] at hi
      exact Or.inl ⟨p, by omega, hi⟩
  · rintro (⟨p, hp, hi⟩ | hi)
    · refine ⟨p, by rw [length_append]; omega, ?_⟩
      rw [offset_concat (by omega), hi]
    · refine ⟨groups.length, by simp, ?_⟩
      rw [offset_concat_length, hi]

theorem endsBig_concat : EndsBig k (groups ++ [group]) i ↔
    EndsBig k groups i ∨ (k ≤ group.length ∧ i = groups.flatten.length + group.length) := by
  constructor
  · rintro ⟨p, big, hp, hbig, hi⟩
    by_cases hlast : p < groups.length
    · rw [getElem?_append_left hlast] at hp
      rw [offset_concat (by omega)] at hi
      exact Or.inl ⟨p, big, hp, hbig, hi⟩
    · have hlt := (List.getElem?_eq_some_iff.mp hp).1
      rw [length_append, length_singleton] at hlt
      have heq : p = groups.length := by omega
      rw [heq, getElem?_concat_length, Option.some.injEq] at hp
      rw [heq, offset_concat_length] at hi
      rw [← hp] at hbig
      exact Or.inr ⟨hbig, hi.symm⟩
  · rintro (⟨p, big, hp, hbig, hi⟩ | ⟨hbig, hi⟩)
    · have hlt := (List.getElem?_eq_some_iff.mp hp).1
      refine ⟨p, big, by rw [getElem?_append_left hlt, hp], hbig, ?_⟩
      rw [offset_concat (by omega), hi]
    · refine ⟨groups.length, group, by simp, hbig, ?_⟩
      rw [offset_concat_length, hi]

theorem endsBig_iff (hall : ∀ group ∈ groups, group ≠ []) :
    EndsBig k groups i ↔ Ends groups i ∧ k ≤ i ∧ ∀ j, i < j + k → j < i → ¬ Ends groups j := by
  constructor
  · intro h
    refine ⟨h.ends, ?_⟩
    obtain ⟨p, group, hp, hbig, hi⟩ := h
    rw [offset_succ hp] at hi
    refine ⟨by omega, ?_⟩
    rintro j hnear hlt ⟨q, _, hj⟩
    -- an end before this group's own is no later than where the group begins
    have hqp : q + 1 ≤ p := by
      by_contra hle
      have hmono : offset groups (p + 1) ≤ offset groups (q + 1) := offset_mono groups (by omega)
      rw [offset_succ hp] at hmono
      omega
    have hbegin := offset_mono groups hqp
    omega
  · rintro ⟨⟨p, hp, hi⟩, hk, hnone⟩
    have hget : groups[p]? = some groups[p] := getElem?_eq_getElem hp
    have hlen := length_pos_of_ne_nil (hall groups[p] (getElem_mem hp))
    refine ⟨p, groups[p], hget, ?_, hi⟩
    rw [offset_succ hget] at hi
    by_contra hsmall
    cases p with
    | zero =>
      rw [offset_zero] at hi
      omega
    | succ q => exact hnone (offset groups (q + 1)) (by omega) (by omega) ⟨q, by omega, rfl⟩

theorem slots_step (hall : ∀ group ∈ groups, group ≠ []) {a b : ℕ}
    (ha : (slotsFrom k groups)[i]? = some a) (hb : (slotsFrom k groups)[i + 1]? = some b) :
    (b = a ∧ ¬ Ends groups (i + 1)) ∨ (b = a + 1 ∧ Ends groups (i + 1)) := by
  obtain ⟨p, rfl⟩ := Nat.exists_eq_add_of_le (le_of_slotsFrom ha)
  obtain ⟨q, rfl⟩ := Nat.exists_eq_add_of_le (le_of_slotsFrom hb)
  obtain ⟨hp, hplow, hphigh⟩ := (slotsFrom_getElem? k groups i p).mp ha
  obtain ⟨hq, hqlow, hqhigh⟩ := (slotsFrom_getElem? k groups (i + 1) q).mp hb
  have hpq : p ≤ q := by
    by_contra hlt
    have hmono : offset groups (q + 1) ≤ offset groups p := offset_mono groups (by omega)
    omega
  by_cases hsame : q = p
  · left
    rw [hsame] at hqhigh
    refine ⟨by rw [hsame], ?_⟩
    rintro ⟨r, _, hr⟩
    by_cases hrp : r < p
    · have hmono : offset groups (r + 1) ≤ offset groups p := offset_mono groups hrp
      omega
    · have hmono : offset groups (p + 1) ≤ offset groups (r + 1) := offset_mono groups (by omega)
      omega
  · right
    have hmono : offset groups (p + 1) ≤ offset groups q := offset_mono groups (by omega)
    have hnext : q = p + 1 := by
      by_contra hne
      -- the group after this one would be empty
      have hget : groups[p + 1]? = some groups[p + 1] := getElem?_eq_getElem (by omega)
      have hlen := length_pos_of_ne_nil (hall groups[p + 1] (getElem_mem (by omega)))
      have hskip : offset groups (p + 1 + 1) ≤ offset groups q := offset_mono groups (by omega)
      rw [offset_succ hget] at hskip
      omega
    exact ⟨by omega, p, hp, by omega⟩

theorem length_slotsFrom (k : ℕ) (groups : List (List α)) :
    (slotsFrom k groups).length = groups.flatten.length := by
  induction groups generalizing k with
  | nil => rfl
  | cons group groups ih => simp [slotsFrom, ih]

theorem slotsFrom_zero (hall : ∀ group ∈ groups, group ≠ []) (h : groups ≠ []) :
    (slotsFrom k groups)[0]? = some k := by
  obtain ⟨first, later, rfl⟩ := exists_cons_of_ne_nil h
  have hlen := length_pos_of_ne_nil (hall first mem_cons_self)
  rw [slotsFrom, getElem?_append_left (by simpa using hlen), getElem?_replicate_of_lt hlen]

theorem slotsFrom_singleton (k : ℕ) (group : List α) :
    slotsFrom k [group] = replicate group.length k := by
  simp [slotsFrom]

theorem le_count_slotsFrom {m a : ℕ} (hall : ∀ group ∈ groups, m ≤ group.length)
    (ha : a ∈ slotsFrom k groups) : m ≤ (slotsFrom k groups).count a := by
  induction groups generalizing k with
  | nil => simp [slotsFrom] at ha
  | cons first groups ih =>
    rw [slotsFrom, count_append]
    rw [slotsFrom, mem_append] at ha
    rcases ha with ha | ha
    · rw [eq_of_mem_replicate ha, count_replicate_self]
      have hfirst := hall first mem_cons_self
      omega
    · have hlater := ih (fun group hg => hall group (mem_cons_of_mem first hg)) ha
      omega

end Cuts
