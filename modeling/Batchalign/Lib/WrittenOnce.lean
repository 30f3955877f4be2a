import Mathlib.Data.List.Perm.Subperm
import Mathlib.Data.List.Sort

/- Lists written one after another under increasing keys: one with a new element is written whole, the
   others are left out (`written`). Where every list is all new or all old (`Fresh`) every element is
   written once; otherwise the count is off (`fresh_of_length`). -/
namespace WrittenOnce
open List

variable {κ α : Type*} {seen seen' : List α} {ls : List (κ × List α)} {l : List α} {x : α}

def Fresh : List α → List (κ × List α) → Prop
  | _, [] => True
  | seen, p :: ls => ((∀ x ∈ p.2, x ∈ seen) ∨ ∀ x ∈ p.2, x ∉ seen) ∧ Fresh (p.2 ++ seen) ls

def Before [LT κ] (ls : List (κ × List α)) (key : κ) (x : α) : Prop :=
  ∃ q ∈ ls, q.1 < key ∧ x ∈ q.2

theorem fresh_iff [LinearOrder κ] (hkeys : ls.Pairwise fun p q => p.1 < q.1) :
    Fresh seen ls ↔ ∀ p ∈ ls, (∀ x ∈ p.2, x ∈ seen ∨ Before ls p.1 x) ∨
      ∀ x ∈ p.2, ¬ (x ∈ seen ∨ Before ls p.1 x) := by
  induction ls generalizing seen with
  | nil => simp [Fresh]
  | cons p ls ih =>
    obtain ⟨hfirst, hlater⟩ := pairwise_cons.mp hkeys
    have hself : ∀ x, (x ∈ seen ∨ Before (p :: ls) p.1 x) ↔ x ∈ seen := by
      intro x
      refine or_iff_left ?_
      rintro ⟨q, hq, hlt, -⟩
      rcases mem_cons.mp hq with rfl | hq
      · exact lt_irrefl _ hlt
      · exact lt_asymm hlt (hfirst q hq)
    have hothers : ∀ q ∈ ls, ∀ x, (x ∈ seen ∨ Before (p :: ls) q.1 x) ↔
        (x ∈ p.2 ++ seen ∨ Before ls q.1 x) := by
      intro q hq x
      have hbefore : Before (p :: ls) q.1 x ↔ x ∈ p.2 ∨ Before ls q.1 x := by
        simp [Before, hfirst q hq]
      rw [hbefore, mem_append, or_comm (a := x ∈ p.2) (b := x ∈ seen), or_assoc]
    rw [Fresh, ih hlater, forall_mem_cons]
    simp only [hself]
    refine and_congr_right fun _ => forall₂_congr fun q hq => ?_
    simp only [hothers q hq]

section Writing
variable [LinearOrder α]

/-- What is written, `seen` before it, each element under the key of the list that wrote it. -/
def written : List α → List (κ × List α) → List (κ × α)
  | _, [] => []
  | seen, p :: ls =>
    (if ∀ x ∈ p.2, x ∈ seen then [] else p.2.map fun x => (p.1, x)) ++ written (p.2 ++ seen) ls

theorem written_congr (h : ∀ x, x ∈ seen ↔ x ∈ seen') (ls : List (κ × List α)) :
    written seen ls = written seen' ls := by
  induction ls generalizing seen seen' with
  | nil => rfl
  | cons p ls ih =>
    have hlater : written (p.2 ++ seen) ls = written (p.2 ++ seen') ls := by
      refine ih fun x => ?_
      rw [mem_append, mem_append, h]
    simp only [written, h, hlater]

theorem written_append {ls' : List (κ × List α)} (h : ∀ x, x ∈ seen' ↔ (∃ p ∈ ls, x ∈ p.2) ∨ x ∈ seen) :
    written seen (ls ++ ls') = written seen ls ++ written seen' ls' := by
  induction ls generalizing seen with
  | nil => exact written_congr (fun x => by simp [h]) ls'
  | cons p ls ih =>
    have hlater : ∀ x, x ∈ seen' ↔ (∃ q ∈ ls, x ∈ q.2) ∨ x ∈ p.2 ++ seen := by
      intro x
      rw [h, exists_mem_cons_iff, mem_append, or_assoc, or_left_comm]
    rw [cons_append, written, written, ih hlater, append_assoc]

theorem mem_of_written {p : κ × α} (h : p ∈ written seen ls) : ∃ q ∈ ls, q.1 = p.1 ∧ p.2 ∈ q.2 := by
  induction ls generalizing seen with
  | nil => cases h
  | cons q ls ih =>
    rcases mem_append.mp h with h | h
    · split_ifs at h
      · cases h
      · obtain ⟨x, hx, rfl⟩ := mem_map.mp h
        exact ⟨q, mem_cons_self, rfl, hx⟩
    · obtain ⟨q', hq', hkey, hmem⟩ := ih h
      exact ⟨q', mem_cons_of_mem _ hq', hkey, hmem⟩

theorem written_covers {q : κ × List α} (hq : q ∈ ls) (hx : x ∈ q.2) (hnew : x ∉ seen) :
    x ∈ (written seen ls).map Prod.snd := by
  induction ls generalizing seen with
  | nil => cases hq
  | cons p ls ih =>
    rw [written, map_append, mem_append]
    by_cases hp : x ∈ p.2
    · refine .inl ?_
      rw [if_neg fun hall => hnew (hall x hp)]
      exact mem_map.mpr ⟨(p.1, x), mem_map.mpr ⟨x, hp, rfl⟩, rfl⟩
    · refine .inr (ih ?_ ?_)
      · rcases mem_cons.mp hq with rfl | hq
        · exact absurd hx hp
        · exact hq
      · rw [mem_append]
        exact fun h => h.elim hp hnew

theorem written_sorted (h : Fresh seen ls) (hlists : ∀ p ∈ ls, p.2.Pairwise (· < ·))
    (hordered : ls.Pairwise fun p q => ∀ x ∈ p.2, ∀ y ∈ q.2, x ≤ y) :
    ((written seen ls).map Prod.snd).Pairwise (· < ·) ∧
      ∀ x ∈ (written seen ls).map Prod.snd, x ∉ seen := by
  induction ls generalizing seen with
  | nil => exact ⟨.nil, fun x hx => by cases hx⟩
  | cons p ls ih =>
    obtain ⟨hfirst, hlater⟩ := h
    obtain ⟨hle, hordered⟩ := pairwise_cons.mp hordered
    obtain ⟨hsorted, hnew⟩ := ih hlater (fun q hq => hlists q (mem_cons_of_mem _ hq)) hordered
    have hrest : ∀ x ∈ (written (p.2 ++ seen) ls).map Prod.snd, x ∉ p.2 ∧ x ∉ seen := by
      intro x hx
      have := hnew x hx
      rw [mem_append] at this
      exact ⟨fun hp => this (.inl hp), fun hs => this (.inr hs)⟩
    have hnow : (p.2.map fun x => (p.1, x)).map Prod.snd = p.2 := by
      rw [map_map]
      exact map_id p.2
    rw [written, map_append]
    split_ifs with hall
    · exact ⟨hsorted, fun x hx => (hrest x hx).2⟩
    · have hfresh : ∀ x ∈ p.2, x ∉ seen := hfirst.resolve_left hall
      rw [hnow]
      refine ⟨pairwise_append.mpr ⟨hlists p mem_cons_self, hsorted, ?_⟩, ?_⟩
      · intro x hx y hy
        obtain ⟨q', hq', rfl⟩ := mem_map.mp hy
        obtain ⟨q, hq, -, hmem⟩ := mem_of_written hq'
        refine lt_of_le_of_ne (hle q hq x hx q'.2 hmem) ?_
        rintro rfl
        exact (hrest _ hy).1 hx
      · intro x hx
        rcases mem_append.mp hx with hx | hx
        · exact hfresh x hx
        · exact (hrest x hx).2

theorem fresh_of_nodup (h : ((written seen ls).map Prod.snd).Nodup)
    (hnew : ∀ x ∈ (written seen ls).map Prod.snd, x ∉ seen) : Fresh seen ls := by
  induction ls generalizing seen with
  | nil => trivial
  | cons p ls ih =>
    rw [written, map_append] at h hnew
    obtain ⟨-, hlater, hapart⟩ := nodup_append.mp h
    by_cases hall : ∀ x ∈ p.2, x ∈ seen
    · refine ⟨.inl hall, ih hlater ?_⟩
      intro x hx hmem
      refine hnew x (mem_append_right _ hx) ?_
      exact (mem_append.mp hmem).elim (hall x) id
    · have hnow : ∀ x ∈ p.2, x ∈ (if ∀ x ∈ p.2, x ∈ seen then []
          else p.2.map fun x => (p.1, x)).map Prod.snd := by
        intro x hx
        rw [if_neg hall]
        exact mem_map.mpr ⟨(p.1, x), mem_map.mpr ⟨x, hx, rfl⟩, rfl⟩
      refine ⟨.inr fun x hx => hnew x (mem_append_left _ (hnow x hx)), ih hlater ?_⟩
      intro x hx hmem
      rcases mem_append.mp hmem with hmem | hmem
      · exact hapart x (hnow x hmem) x hx rfl
      · exact hnew x (mem_append_right _ hx) hmem

structure Elements (ls : List (κ × List α)) (l : List α) : Prop where
  sorted : l.Pairwise (· < ·)
  mem : ∀ x, x ∈ l ↔ ∃ q ∈ ls, x ∈ q.2

theorem Elements.subset (h : Elements ls l) : l ⊆ (written [] ls).map Prod.snd := by
  intro x hx
  obtain ⟨q, hq, hmem⟩ := (h.mem x).mp hx
  exact written_covers hq hmem not_mem_nil

theorem written_eq_of_fresh (h : Elements ls l) (hfresh : Fresh [] ls)
    (hlists : ∀ p ∈ ls, p.2.Pairwise (· < ·))
    (hordered : ls.Pairwise fun p q => ∀ x ∈ p.2, ∀ y ∈ q.2, x ≤ y) :
    (written [] ls).map Prod.snd = l := by
  have hsorted := (written_sorted hfresh hlists hordered).1
  refine Perm.eq_of_pairwise (fun a b _ _ hab hba => absurd hab (lt_asymm hba)) hsorted
    h.sorted ?_
  refine (perm_ext_iff_of_nodup (hsorted.imp ne_of_lt) (h.sorted.imp ne_of_lt)).mpr ?_
  intro x
  constructor
  · intro hx
    obtain ⟨p, hp, rfl⟩ := mem_map.mp hx
    obtain ⟨q, hq, -, hmem⟩ := mem_of_written hp
    exact (h.mem _).mpr ⟨q, hq, hmem⟩
  · exact fun hx => h.subset hx

theorem fresh_of_length (h : Elements ls l) (hlen : (written [] ls).length = l.length) : Fresh [] ls := by
  have hnodup : l.Nodup := h.sorted.imp ne_of_lt
  have hperm : l.Perm ((written [] ls).map Prod.snd) :=
    (subperm_of_subset hnodup h.subset).perm_of_length_le (by rw [length_map, hlen])
  exact fresh_of_nodup (hperm.nodup hnodup) fun x _ => not_mem_nil

theorem exists_owner [Inhabited κ] {w : List (κ × α)} (h : (w.map Prod.snd).Nodup) :
    ∃ owner : α → κ, ∀ p ∈ w, owner p.2 = p.1 := by
  classical
  refine ⟨fun x => if h : ∃ p ∈ w, p.2 = x then h.choose.1 else default, ?_⟩
  intro p hp
  have hex : ∃ q ∈ w, q.2 = p.2 := ⟨p, hp, rfl⟩
  have hsame : hex.choose = p :=
    inj_on_of_nodup_map h hex.choose_spec.1 hp hex.choose_spec.2
  simp only [dif_pos hex, hsame]

end Writing

end WrittenOnce
