import Mathlib.Logic.Basic

/- Sweeps: a fallible step applied to each element of a list, one after another. -/
namespace Sweep

variable {σ ι ε : Type}

def run (f : σ → ι → Except ε σ) : σ → List ι → Except ε σ
  | s, [] => .ok s
  | s, x :: xs => match f s x with
    | .error e => .error e
    | .ok s' => run f s' xs

/-- Every step of the run meets `C` on the state before it. -/
def Along (f : σ → ι → Except ε σ) (C : σ → ι → Prop) : σ → List ι → Prop
  | _, [] => True
  | s, x :: xs => C s x ∧ ∀ s', f s x = .ok s' → Along f C s' xs

variable {f : σ → ι → Except ε σ} {I : σ → List ι → Prop} {C : σ → ι → Prop} {G : σ → Prop}

variable {s s' : σ} {xs : List ι}

theorem run_cons_ok {x : ι} (h : f s x = .ok s') : run f s (x :: xs) = run f s' xs := by
  rw [run, h]

/-- The first step of a run that succeeded, and the rest of it. -/
theorem run_cons_eq_ok {x : ι} (h : run f s (x :: xs) = .ok s') :
    ∃ t, f s x = .ok t ∧ run f t xs = .ok s' := by
  cases hx : f s x with
  | error e => simp [run, hx] at h
  | ok t =>
    rw [run_cons_ok hx] at h
    exact ⟨t, rfl, h⟩

theorem run_append_eq_ok {ys : List ι} (h : run f s (xs ++ ys) = .ok s') :
    ∃ t, run f s xs = .ok t ∧ run f t ys = .ok s' := by
  induction xs generalizing s with
  | nil => exact ⟨s, rfl, h⟩
  | cons x xs ih =>
    obtain ⟨u, hu, hrest⟩ := run_cons_eq_ok h
    obtain ⟨t, ht, hys⟩ := ih hrest
    exact ⟨t, (run_cons_ok hu).trans ht, hys⟩

/-- A run keeps an invariant every step keeps, and does not fail. -/
theorem sweep_invariant (hstep : ∀ s x xs, I s (x :: xs) → ∃ s', f s x = .ok s' ∧ I s' xs) :
    ∀ (xs : List ι) (s : σ), I s xs → ∃ s', run f s xs = .ok s' ∧ I s' [] := by
  intro xs
  induction xs with
  | nil =>
    intro s hI
    exact ⟨s, rfl, hI⟩
  | cons x xs ih =>
    intro s hI
    obtain ⟨t, ht, hI'⟩ := hstep s x xs hI
    rw [run_cons_ok ht]
    exact ih t hI'

theorem along_of_invariant (hC : ∀ s x xs, I s (x :: xs) → C s x)
    (hstep : ∀ s x xs s', I s (x :: xs) → f s x = .ok s' → I s' xs) :
    ∀ (xs : List ι) (s : σ), I s xs → Along f C s xs := by
  intro xs
  induction xs with
  | nil => intro s _; trivial
  | cons x xs ih =>
    intro s hI
    exact ⟨hC s x xs hI, fun s' hs => ih s' (hstep s x xs s' hI hs)⟩

theorem along_true (xs : List ι) (s : σ) : Along f (fun _ _ => True) s xs :=
  along_of_invariant (I := fun _ _ => True) (fun _ _ _ _ => trivial) (fun _ _ _ _ _ _ => trivial) xs s
    trivial

/-- A run whose steps all meet the condition keeps the invariant. -/
theorem run_along (hstep : ∀ s x xs s', I s (x :: xs) → C s x → f s x = .ok s' → I s' xs) :
    ∀ {xs : List ι} {s s' : σ}, run f s xs = .ok s' → I s xs → Along f C s xs → I s' [] := by
  intro xs
  induction xs with
  | nil =>
    intro s s' hrun hI _
    obtain rfl : s = s' := Except.ok.inj hrun
    exact hI
  | cons x xs ih =>
    intro s s' hrun hI hC
    obtain ⟨t, ht, hrun⟩ := run_cons_eq_ok hrun
    exact ih hrun (hstep s x xs t hI hC.1 ht) (hC.2 t ht)

/-- When each step keeps the property exactly if it meets the condition, so does the run. -/
theorem run_iff (hstep : ∀ s x xs s', I s (x :: xs) → f s x = .ok s' → I s' xs ∧ (G s' ↔ G s ∧ C s x)) :
    ∀ {xs : List ι} {s s' : σ}, run f s xs = .ok s' → I s xs → (G s' ↔ G s ∧ Along f C s xs) := by
  intro xs
  induction xs with
  | nil =>
    intro s s' hrun _
    obtain rfl : s = s' := Except.ok.inj hrun
    simp [Along]
  | cons x xs ih =>
    intro s s' hrun hI
    obtain ⟨t, ht, hrun⟩ := run_cons_eq_ok hrun
    obtain ⟨hI', hG⟩ := hstep s x xs t hI ht
    have halong : Along f C s (x :: xs) ↔ C s x ∧ Along f C t xs := by
      simp [Along, ht]
    rw [ih hrun hI', hG, halong, and_assoc]

end Sweep
