import Mathlib.Order.MinMax
import Mathlib.Data.List.Pairwise

/- Coalescing intervals given in the order of their starts. What comes out is apart, covers every
   upright interval, and holds an inverted one exactly when one was exposed (`Coalesced.exposed_iff`).
   -/
namespace Coalesce
open List

variable {τ : Type*} [LinearOrder τ]

def absorb : List (τ × τ) → τ × τ → List (τ × τ)
  | [], x => [x]
  | last :: earlier, x => if x.1 ≤ last.2 then (last.1, max last.2 x.2) :: earlier else x :: last :: earlier

def coalesce (xs : List (τ × τ)) : List (τ × τ) := (xs.foldl absorb []).reverse

def Exposed (xs : List (τ × τ)) : Prop :=
  ∃ front x back, xs = front ++ x :: back ∧ x.2 < x.1 ∧ ∀ v ∈ front, v.2 < x.1

structure Coalesced (xs groups : List (τ × τ)) : Prop where
  apart : groups.Pairwise fun newer older => older.2 < newer.1
  start : ∀ g ∈ groups, ∃ x ∈ xs, x.1 = g.1
  stop : ∀ g ∈ groups, ∃ x ∈ xs, x.2 = g.2
  covered : ∀ x ∈ xs, ∃ g ∈ groups, x.1 ≤ x.2 → g.1 ≤ x.1 ∧ x.2 ≤ g.2
  -- no end lies beyond the newest interval, but behind its start
  reach : ∀ last ∈ groups.head?, ∀ x ∈ xs, x.2 ≤ last.2 ∨ x.2 < last.1
  exposed_iff : (∃ g ∈ groups, g.2 < g.1) ↔ Exposed xs

variable {xs groups : List (τ × τ)} {x : τ × τ}

theorem exposed_concat : Exposed (xs ++ [x]) ↔ Exposed xs ∨ (x.2 < x.1 ∧ ∀ v ∈ xs, v.2 < x.1) := by
  refine ⟨?_, ?_⟩
  · rintro ⟨front, y, back, heq, hinv, hfront⟩
    rcases eq_nil_or_concat back with rfl | ⟨back, z, rfl⟩
    · obtain ⟨rfl, hy⟩ := append_inj' heq rfl
      obtain ⟨rfl, _⟩ := cons.inj hy
      exact .inr ⟨hinv, hfront⟩
    · rw [concat_eq_append, ← cons_append, ← append_assoc] at heq
      obtain ⟨rfl, _⟩ := append_inj' heq rfl
      exact .inl ⟨front, y, back, rfl, hinv, hfront⟩
  · rintro (⟨front, y, back, rfl, hinv, hfront⟩ | ⟨hinv, hall⟩)
    · exact ⟨front, y, back ++ [x], by rw [append_assoc, cons_append], hinv, hfront⟩
    · exact ⟨xs, x, [], rfl, hinv, hall⟩

theorem Coalesced.nil : Coalesced ([] : List (τ × τ)) [] := by
  refine ⟨Pairwise.nil, ?_, ?_, ?_, ?_, ?_⟩
  · intro g hg
    cases hg
  · intro g hg
    cases hg
  · intro x hx
    cases hx
  · intro last hlast
    cases hlast
  · refine iff_of_false ?_ ?_
    · rintro ⟨g, hg, _⟩
      cases hg
    · rintro ⟨front, y, back, heq, _⟩
      exact absurd heq.symm (by simp)

/-- A later interval: it is taken in where some end reaches its start. -/
theorem Coalesced.absorb (h : Coalesced xs groups) (hsorted : ∀ v ∈ xs, v.1 ≤ x.1) :
    Coalesced (xs ++ [x]) (Coalesce.absorb groups x) := by
  have hold : ∀ {p : τ × τ → Prop} , (∃ v ∈ xs, p v) → ∃ v ∈ xs ++ [x], p v := by
    rintro p ⟨v, hv, hp⟩
    exact ⟨v, mem_append_left _ hv, hp⟩
  have hnew : x ∈ xs ++ [x] := mem_append_right _ (mem_singleton_self x)
  cases groups with
  | nil =>
    -- nothing came before: every interval is covered, so there was none
    have hxs : xs = [] := by
      apply eq_nil_iff_forall_not_mem.mpr
      intro v hv
      obtain ⟨g, hg, _⟩ := h.covered v hv
      cases hg
    subst hxs
    rw [nil_append]
    refine ⟨pairwise_singleton _ _, ?_, ?_, ?_, ?_, ?_⟩
    · exact fun g hg => ⟨x, mem_singleton_self x, by rw [mem_singleton.mp hg]⟩
    · exact fun g hg => ⟨x, mem_singleton_self x, by rw [mem_singleton.mp hg]⟩
    · intro v hv
      rw [mem_singleton.mp hv]
      exact ⟨x, mem_singleton_self x, fun _ => ⟨le_rfl, le_rfl⟩⟩
    · intro last hlast v hv
      cases hlast
      rw [mem_singleton.mp hv]
      exact .inl le_rfl
    · rw [← nil_append [x], exposed_concat]
      refine ⟨?_, ?_⟩
      · rintro ⟨g, hg, hinv⟩
        rw [mem_singleton.mp hg] at hinv
        exact .inr ⟨hinv, fun v hv => absurd hv not_mem_nil⟩
      · rintro (⟨front, y, back, heq, _⟩ | ⟨hinv, _⟩)
        · exact absurd heq.symm (by simp)
        · exact ⟨x, mem_singleton_self x, hinv⟩
  | cons last earlier =>
    obtain ⟨hlast, hearlier⟩ := pairwise_cons.mp h.apart
    have hle : last.1 ≤ x.1 := by
      obtain ⟨v, hv, hstart⟩ := h.start last mem_cons_self
      rw [← hstart]
      exact hsorted v hv
    -- some end reaches the new start exactly when the newest interval does
    have hreach : (∃ v ∈ xs, x.1 ≤ v.2) ↔ x.1 ≤ last.2 := by
      refine ⟨?_, ?_⟩
      · rintro ⟨v, hv, hxv⟩
        rcases h.reach last rfl v hv with hin | hbehind
        · exact hxv.trans hin
        · exact absurd (hxv.trans_lt (hbehind.trans_le hle)) (lt_irrefl _)
      · intro hxl
        obtain ⟨v, hv, hstop⟩ := h.stop last mem_cons_self
        exact ⟨v, hv, hstop ▸ hxl⟩
    rw [Coalesce.absorb]
    split_ifs with htaken
    · refine ⟨pairwise_cons.mpr ⟨hlast, hearlier⟩, ?_, ?_, ?_, ?_, ?_⟩
      · intro g hg
        rcases mem_cons.mp hg with rfl | hg
        · exact hold (h.start last mem_cons_self)
        · exact hold (h.start g (mem_cons_of_mem _ hg))
      · intro g hg
        rcases mem_cons.mp hg with rfl | hg
        · rcases max_choice last.2 x.2 with hmax | hmax
          · exact hold (by rw [hmax]; exact h.stop last mem_cons_self)
          · exact ⟨x, hnew, hmax.symm⟩
        · exact hold (h.stop g (mem_cons_of_mem _ hg))
      · intro v hv
        rcases mem_append.mp hv with hv | hv
        · obtain ⟨g, hg, hcov⟩ := h.covered v hv
          rcases mem_cons.mp hg with rfl | hg
          · exact ⟨_, mem_cons_self, fun hup => ⟨(hcov hup).1, (hcov hup).2.trans (le_max_left _ _)⟩⟩
          · exact ⟨g, mem_cons_of_mem _ hg, hcov⟩
        · rw [mem_singleton.mp hv]
          exact ⟨_, mem_cons_self, fun _ => ⟨hle, le_max_right _ _⟩⟩
      · intro g hg v hv
        cases hg
        rcases mem_append.mp hv with hv | hv
        · exact (h.reach last rfl v hv).imp_left fun hin => hin.trans (le_max_left _ _)
        · rw [mem_singleton.mp hv]
          exact .inl (le_max_right _ _)
      · -- the interval it is taken into was upright, and stays so
        have hup : last.1 ≤ last.2 := hle.trans htaken
        have hnot : ¬ (x.2 < x.1 ∧ ∀ v ∈ xs, v.2 < x.1) := by
          rintro ⟨_, hall⟩
          obtain ⟨v, hv, hxv⟩ := hreach.mpr htaken
          exact absurd (hall v hv) (not_lt.mpr hxv)
        rw [exposed_concat, or_iff_left hnot, ← h.exposed_iff]
        refine ⟨?_, ?_⟩
        · rintro ⟨g, hg, hinv⟩
          rcases mem_cons.mp hg with rfl | hg
          · exact absurd hinv (not_lt.mpr (hup.trans (le_max_left _ _)))
          · exact ⟨g, mem_cons_of_mem _ hg, hinv⟩
        · rintro ⟨g, hg, hinv⟩
          rcases mem_cons.mp hg with rfl | hg
          · exact absurd hinv (not_lt.mpr hup)
          · exact ⟨g, mem_cons_of_mem _ hg, hinv⟩
    · have hbelow : ∀ v ∈ xs, v.2 < x.1 := by
        intro v hv
        by_contra hreached
        exact htaken (hreach.mp ⟨v, hv, not_lt.mp hreached⟩)
      have hlt : last.2 < x.1 := not_le.mp htaken
      refine ⟨pairwise_cons.mpr ⟨?_, h.apart⟩, ?_, ?_, ?_, ?_, ?_⟩
      · intro g hg
        rcases mem_cons.mp hg with rfl | hg
        · exact hlt
        · exact (hlast g hg).trans_le hle
      · intro g hg
        rcases mem_cons.mp hg with rfl | hg
        · exact ⟨g, hnew, rfl⟩
        · exact hold (h.start g hg)
      · intro g hg
        rcases mem_cons.mp hg with rfl | hg
        · exact ⟨g, hnew, rfl⟩
        · exact hold (h.stop g hg)
      · intro v hv
        rcases mem_append.mp hv with hv | hv
        · obtain ⟨g, hg, hcov⟩ := h.covered v hv
          exact ⟨g, mem_cons_of_mem _ hg, hcov⟩
        · rw [mem_singleton.mp hv]
          exact ⟨x, mem_cons_self, fun _ => ⟨le_rfl, le_rfl⟩⟩
      · intro g hg v hv
        cases hg
        rcases mem_append.mp hv with hv | hv
        · exact .inr (hbelow v hv)
        · rw [mem_singleton.mp hv]
          exact .inl le_rfl
      · rw [exposed_concat, ← h.exposed_iff]
        refine ⟨?_, ?_⟩
        · rintro ⟨g, hg, hinv⟩
          rcases mem_cons.mp hg with rfl | hg
          · exact .inr ⟨hinv, hbelow⟩
          · exact .inl ⟨g, hg, hinv⟩
        · rintro (⟨g, hg, hinv⟩ | ⟨hinv, _⟩)
          · exact ⟨g, mem_cons_of_mem _ hg, hinv⟩
          · exact ⟨x, mem_cons_self, hinv⟩

theorem Coalesced.foldl (h : Coalesced xs groups) (ys : List (τ × τ))
    (hsorted : (xs ++ ys).Pairwise fun a b => a.1 ≤ b.1) :
    Coalesced (xs ++ ys) (ys.foldl Coalesce.absorb groups) := by
  induction ys generalizing xs groups with
  | nil => rwa [append_nil]
  | cons y ys ih =>
    rw [foldl_cons, append_cons]
    rw [append_cons] at hsorted
    have hy := (pairwise_append.mp (pairwise_append.mp hsorted).1).2.2
    exact ih (h.absorb fun v hv => hy v hv y (mem_singleton_self y)) hsorted

theorem coalesced (hsorted : xs.Pairwise fun a b => a.1 ≤ b.1) : Coalesced xs (coalesce xs).reverse := by
  unfold coalesce
  rw [reverse_reverse]
  exact Coalesced.nil.foldl xs (by rwa [nil_append])

end Coalesce
