import Mathlib.Tactic

/- Greatest gains along the paths of a graph. `Greatest s t n`: the most any path from `s` to `t` gains
   is `n`, the invariant of a table filled from either end (`Greatest.of_last`, `greatest_reverse`). Two
   such tables say which steps some best path takes (`Greatest.takes_iff`). -/
namespace BestPath
open List

variable {S A : Type*}

structure Web (S A : Type*) where
  Step : S → A → S → Prop
  gain : A → ℕ

variable {seen : S → A → Prop}

namespace Web

variable {W : Web S A} {s t u : S} {a : A} {l l' : List A} {n k : ℕ}

def Path (W : Web S A) : S → List A → S → Prop
  | s, [], t => s = t
  | s, a :: l, t => ∃ u, W.Step s a u ∧ W.Path u l t

def total (W : Web S A) (l : List A) : ℕ := (l.map W.gain).sum

/-- The most a path from `s` to `t` gains. -/
def Greatest (W : Web S A) (s t : S) (n : ℕ) : Prop :=
  (∃ l, W.Path s l t ∧ W.total l = n) ∧ ∀ l, W.Path s l t → W.total l ≤ n

@[simp] theorem path_nil : W.Path s [] t ↔ s = t := Iff.rfl

@[simp] theorem path_cons : W.Path s (a :: l) t ↔ ∃ u, W.Step s a u ∧ W.Path u l t := Iff.rfl

@[simp] theorem total_nil : W.total [] = 0 := rfl

@[simp] theorem total_cons : W.total (a :: l) = W.gain a + W.total l := by
  simp [total]

@[simp] theorem total_append : W.total (l ++ l') = W.total l + W.total l' := by
  simp [total]

theorem path_append : W.Path s (l ++ l') t ↔ ∃ u, W.Path s l u ∧ W.Path u l' t := by
  induction l generalizing s with
  | nil => simp
  | cons a l ih =>
    simp only [cons_append, path_cons, ih]
    constructor
    · rintro ⟨v, hstep, u, hl, hl'⟩
      exact ⟨u, ⟨v, hstep, hl⟩, hl'⟩
    · rintro ⟨u, ⟨v, hstep, hl⟩, hl'⟩
      exact ⟨v, hstep, u, hl, hl'⟩

theorem path_concat : W.Path s (l ++ [a]) t ↔ ∃ u, W.Path s l u ∧ W.Step u a t := by
  simp [path_append]

theorem Greatest.unique (hn : W.Greatest s t n) (hk : W.Greatest s t k) : n = k := by
  obtain ⟨⟨l, hl, rfl⟩, hmost⟩ := hn
  obtain ⟨⟨d, hd, rfl⟩, hmost'⟩ := hk
  exact le_antisymm (hmost' l hl) (hmost d hd)

theorem Greatest.le (h : W.Greatest s t n) (hl : W.Path s l t) : W.total l ≤ n := h.2 l hl

theorem Greatest.of_last (hmost : ∀ p a, W.Step p a t → ∃ k, W.Greatest s p k ∧ k + W.gain a ≤ n)
    (hreach : (s = t ∧ n = 0) ∨ ∃ p a k, W.Step p a t ∧ W.Greatest s p k ∧ k + W.gain a = n) :
    W.Greatest s t n := by
  constructor
  · rcases hreach with ⟨hst, hn⟩ | ⟨p, a, k, hstep, ⟨⟨l, hl, hlk⟩, -⟩, hk⟩
    · exact ⟨[], hst, hn.symm⟩
    · refine ⟨l ++ [a], path_concat.mpr ⟨p, hl, hstep⟩, ?_⟩
      rw [total_append, total_cons, total_nil]
      omega
  · intro l hl
    rcases eq_nil_or_concat l with rfl | ⟨d, a, rfl⟩
    · exact Nat.zero_le n
    · rw [concat_eq_append] at hl ⊢
      obtain ⟨p, hd, hstep⟩ := path_concat.mp hl
      obtain ⟨k, hk, hle⟩ := hmost p a hstep
      have := hk.le hd
      rw [total_append, total_cons, total_nil]
      omega

theorem Greatest.takes_iff {start finish : S} {opt : ℕ} (hopt : W.Greatest start finish opt)
    (hn : W.Greatest start s n) (hk : W.Greatest t finish k) (hstep : W.Step s a t) :
    n + W.gain a + k = opt ↔
      ∃ l d, W.Path start l s ∧ W.Path t d finish ∧ W.total (l ++ a :: d) = opt := by
  constructor
  · intro heq
    obtain ⟨l, hl, hln⟩ := hn.1
    obtain ⟨d, hd, hdk⟩ := hk.1
    refine ⟨l, d, hl, hd, ?_⟩
    rw [total_append, total_cons]
    omega
  · rintro ⟨l, d, hl, hd, htotal⟩
    rw [total_append, total_cons] at htotal
    have h1 := hn.le hl
    have h2 := hk.le hd
    -- the best halves joined are a path too
    obtain ⟨l', hl', hln⟩ := hn.1
    obtain ⟨d', hd', hdk⟩ := hk.1
    have hjoined : W.Path start (l' ++ a :: d') finish :=
      path_append.mpr ⟨s, hl', path_cons.mpr ⟨t, hstep, hd'⟩⟩
    have h3 := hopt.le hjoined
    rw [total_append, total_cons] at h3
    omega

theorem Greatest.first_step (h : W.Greatest s t n) (hne : s ≠ t) :
    ∃ a u k, W.Step s a u ∧ W.Greatest u t k ∧ W.gain a + k = n := by
  obtain ⟨⟨l, hl, hln⟩, hmost⟩ := h
  cases l with
  | nil => exact absurd hl hne
  | cons a d =>
    obtain ⟨u, hstep, hd⟩ := hl
    refine ⟨a, u, W.total d, hstep, ⟨⟨d, hd, rfl⟩, ?_⟩, by rwa [total_cons] at hln⟩
    intro d' hd'
    have := hmost (a :: d') ⟨u, hstep, hd'⟩
    rw [total_cons] at this hln
    omega

/-! ## Reading a graph backwards -/

def reverse (W : Web S A) : Web S A := ⟨fun s a t => W.Step t a s, W.gain⟩

@[simp] theorem total_reverse : W.reverse.total l.reverse = W.total l := by
  simp [total, reverse]

theorem path_reverse : W.reverse.Path t l.reverse s ↔ W.Path s l t := by
  induction l generalizing s with
  | nil => exact eq_comm
  | cons a l ih =>
    rw [reverse_cons, path_concat, path_cons]
    exact exists_congr fun u => by rw [ih, and_comm]; rfl

theorem greatest_reverse : W.reverse.Greatest t s n ↔ W.Greatest s t n := by
  constructor
  · rintro ⟨⟨l, hl, hln⟩, hmost⟩
    rw [← reverse_reverse l] at hl hln
    refine ⟨⟨l.reverse, path_reverse.mp hl, by rwa [total_reverse] at hln⟩, ?_⟩
    intro d hd
    have := hmost d.reverse (path_reverse.mpr hd)
    rwa [total_reverse] at this
  · rintro ⟨⟨l, hl, hln⟩, hmost⟩
    refine ⟨⟨l.reverse, path_reverse.mpr hl, by rwa [total_reverse]⟩, ?_⟩
    intro d hd
    rw [← reverse_reverse d] at hd
    have := hmost d.reverse (path_reverse.mp hd)
    rw [← total_reverse, reverse_reverse] at this
    exact this

/-! ## A running best -/

structure BestInto (W : Web S A) (s t : S) (seen : S → A → Prop) (n : ℕ) : Prop where
  most : ∀ p a, W.Step p a t → seen p a → ∃ k, W.Greatest s p k ∧ k + W.gain a ≤ n
  reached : n = 0 ∨ ∃ p a k, W.Step p a t ∧ W.Greatest s p k ∧ k + W.gain a = n

theorem BestInto.none : W.BestInto s t (fun _ _ => False) 0 :=
  ⟨fun _ _ _ h => h.elim, Or.inl rfl⟩

section
variable (h : W.BestInto s t seen n)
include h

theorem BestInto.max {p : S} (hstep : W.Step p a t) (hk : W.Greatest s p k) :
    W.BestInto s t (fun q b => seen q b ∨ (q = p ∧ b = a)) (Max.max n (k + W.gain a)) := by
  constructor
  · intro q b hq hseen
    rcases hseen with hseen | ⟨rfl, rfl⟩
    · obtain ⟨k', hk', hle⟩ := h.most q b hq hseen
      exact ⟨k', hk', le_trans hle (le_max_left _ _)⟩
    · exact ⟨k, hk, le_max_right _ _⟩
  · rcases le_total n (k + W.gain a) with hle | hle
    · right
      exact ⟨p, a, k, hstep, hk, (max_eq_right hle).symm⟩
    · rw [max_eq_left hle]
      exact h.reached

theorem BestInto.skip {p : S}
    (hstep : ¬ W.Step p a t) : W.BestInto s t (fun q b => seen q b ∨ (q = p ∧ b = a)) n := by
  refine ⟨?_, h.reached⟩
  intro q b hq hseen
  rcases hseen with hseen | ⟨rfl, rfl⟩
  · exact h.most q b hq hseen
  · exact absurd hq hstep

theorem BestInto.greatest (hall : ∀ p a, W.Step p a t → seen p a) (hsome : s = t ∨ ∃ p a, W.Step p a t) :
    W.Greatest s t n := by
  refine Greatest.of_last (fun p a hstep => h.most p a hstep (hall p a hstep)) ?_
  rcases h.reached with rfl | hreached
  · rcases hsome with hst | ⟨p, a, hstep⟩
    · exact Or.inl ⟨hst, rfl⟩
    · obtain ⟨k, hk, hle⟩ := h.most p a hstep (hall p a hstep)
      exact Or.inr ⟨p, a, k, hstep, hk, by omega⟩
  · exact Or.inr hreached

end

end Web

end BestPath
