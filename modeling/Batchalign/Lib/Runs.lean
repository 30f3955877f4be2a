import Mathlib.Order.Basic

/-
  Runs of a system of steps

  A system is what one event makes of a state: `step s e` is the state after `e`, or
  `none` where `e` cannot happen. A run is a list of events, each taken from the state the
  ones before it left.
-/
namespace Runs

variable {σ ε : Type*}

def run (step : σ → ε → Option σ) : σ → List ε → Option σ
  | s, [] => some s
  | s, e :: es => (step s e).bind (fun s' => run step s' es)

/-- Every event that happens meets `p` with the state it happens in. -/
def Along (step : σ → ε → Option σ) (p : σ → ε → Prop) : σ → List ε → Prop
  | _, [] => True
  | s, e :: es => ∀ s', step s e = some s' → p s e ∧ Along step p s' es

/-- Every state reached, the first included, meets `I`. -/
def Always (step : σ → ε → Option σ) (I : σ → Prop) : σ → List ε → Prop
  | s, [] => I s
  | s, e :: es => I s ∧ ∀ s', step s e = some s' → Always step I s' es

variable {step : σ → ε → Option σ} {I : σ → Prop} {p : σ → ε → Prop}

variable {e : ε} {es : List ε} {s t : σ}

theorem along_cons_of_none (h : step s e = none) : Along step p s (e :: es) := by
  intro s' hs'
  rw [h] at hs'
  cases hs'

theorem along_cons_of_some {s' : σ} (h : step s e = some s') :
    (p s e ∧ Along step p s' es) ↔ Along step p s (e :: es) := by
  constructor
  · intro halong s'' hs''
    rw [h] at hs''
    cases hs''
    exact halong
  · exact fun halong => halong s' h

/-- A run can be checked where each event can. -/
instance Along.decide [∀ s e, Decidable (p s e)] :
    (s : σ) → (es : List ε) → Decidable (Along step p s es)
  | _, [] => .isTrue trivial
  | s, e :: es =>
      match h : step s e with
      | none => .isTrue (along_cons_of_none h)
      | some s' =>
          have := Along.decide s' es
          decidable_of_iff (p s e ∧ Along step p s' es) (along_cons_of_some h)

theorem Always.here (h : Always step I s es) : I s := by
  cases es with
  | nil => exact h
  | cons e es => exact h.1

theorem run_cons (h : run step s (e :: es) = some t) :
    ∃ s', step s e = some s' ∧ run step s' es = some t := by
  simpa [run, Option.bind_eq_some_iff] using h

theorem run_preserves
    (hstep : ∀ s e s', I s → p s e → step s e = some s' → I s') (hs : I s) (halong : Along step p s es) (hrun : run step s es = some t) : I t := by
  induction es generalizing s with
  | nil =>
    cases hrun
    exact hs
  | cons e es ih =>
    obtain ⟨s', hs', hrest⟩ := run_cons hrun
    obtain ⟨hp, hlater⟩ := halong s' hs'
    exact ih (hstep s e s' hs hp hs') hlater hrest

/-- What every step keeps holds at the end of every run. -/
theorem run_invariant (hstep : ∀ s e s', I s → step s e = some s' → I s') (hs : I s) (hrun : run step s es = some t) : I t := by
  induction es generalizing s with
  | nil =>
    cases hrun
    exact hs
  | cons e es ih =>
    obtain ⟨s', hs', hrest⟩ := run_cons hrun
    exact ih (hstep s e s' hs hs') hrest

theorem Always.mono {I' : σ → Prop} (himp : ∀ s, I s → I' s) (h : Always step I s es) : Always step I' s es := by
  induction es generalizing s with
  | nil => exact himp s h
  | cons e es ih => exact ⟨himp s h.1, fun s' hs' => ih (h.2 s' hs')⟩

theorem Always.at_end (h : Always step I s es) (hrun : run step s es = some t) : I t := by
  induction es generalizing s with
  | nil =>
    cases hrun
    exact h
  | cons e es ih =>
    obtain ⟨s', hs', hrest⟩ := run_cons hrun
    exact ih (h.2 s' hs') hrest

/-- What every step keeps under a condition holds throughout a run that meets it. -/
theorem always_of_along (hstep : ∀ s e s', I s → p s e → step s e = some s' → I s') (hs : I s) (halong : Along step p s es) : Always step I s es := by
  induction es generalizing s with
  | nil => exact hs
  | cons e es ih =>
    refine ⟨hs, ?_⟩
    intro s' hs'
    obtain ⟨hp, hlater⟩ := halong s' hs'
    exact ih (hstep s e s' hs hp hs') hlater

theorem always_of_step (hstep : ∀ s e s', I s → step s e = some s' → I s') (hs : I s)
    (es : List ε) : Always step I s es := by
  induction es generalizing s with
  | nil => exact hs
  | cons e es ih => exact ⟨hs, fun s' hs' => ih (hstep s e s' hs hs')⟩

/-- Where, beside a fact `J`, a step keeps the invariant exactly under a condition, it holds throughout a run
  exactly when every event met that. -/
theorem always_iff_along_beside {J : σ → Prop} (hkept : ∀ s e s', J s → step s e = some s' → J s')
    (hstep : ∀ s e s', J s → I s → step s e = some s' → (I s' ↔ p s e)) (hJ : J s)
    (hs : I s) (es : List ε) : Always step I s es ↔ Along step p s es := by
  induction es generalizing s with
  | nil => exact ⟨fun _ => trivial, fun _ => hs⟩
  | cons e es ih =>
    constructor
    · intro ⟨_, hlater⟩ s' hs'
      have hI := (hlater s' hs').here
      exact ⟨(hstep s e s' hJ hs hs').mp hI, (ih (hkept s e s' hJ hs') hI).mp (hlater s' hs')⟩
    · intro halong
      refine ⟨hs, ?_⟩
      intro s' hs'
      obtain ⟨hp, hlater⟩ := halong s' hs'
      exact (ih (hkept s e s' hJ hs') ((hstep s e s' hJ hs hs').mpr hp)).mpr hlater

/-- Where a step keeps the invariant exactly under a condition, it holds throughout a run exactly when
every event met that. -/
theorem always_iff_along (hstep : ∀ s e s', I s → step s e = some s' → (I s' ↔ p s e)) (hs : I s)
    (es : List ε) : Always step I s es ↔ Along step p s es :=
  always_iff_along_beside (J := fun _ => True) (fun _ _ _ _ _ => trivial)
    (fun s e s' _ => hstep s e s') trivial hs es

theorem run_fixed_iff {α : Type*} [PartialOrder α] (m : σ → α)
    (hmono : ∀ s e s', step s e = some s' → m s ≤ m s')
    (hfixed : ∀ s e s', step s e = some s' → (m s' = m s ↔ p s e)) (hrun : run step s es = some t) : m t = m s ↔ Along step p s es := by
  induction es generalizing s with
  | nil =>
    cases hrun
    exact ⟨fun _ => trivial, fun _ => rfl⟩
  | cons e es ih =>
    obtain ⟨s', hs', hrest⟩ := run_cons hrun
    have hle : m s ≤ m s' := hmono s e s' hs'
    have hlater : m s' ≤ m t :=
      run_invariant (I := fun x => m s' ≤ m x) (fun x e x' hx h => hx.trans (hmono x e x' h))
        le_rfl hrest
    constructor
    · intro heq s'' hs''
      rw [hs'] at hs''
      cases hs''
      have hsame : m s' = m s := le_antisymm (hlater.trans heq.le) hle
      exact ⟨(hfixed s e s' hs').mp hsame, (ih hrest).mp (heq.trans hsame.symm)⟩
    · intro halong
      obtain ⟨hp, hrest'⟩ := halong s' hs'
      calc m t = m s' := (ih hrest).mpr hrest'
        _ = m s := (hfixed s e s' hs').mpr hp

end Runs
