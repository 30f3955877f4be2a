import Mathlib.Algebra.Order.BigOperators.Group.List
import Mathlib.Algebra.Order.Group.Nat
import Mathlib.Algebra.BigOperators.Group.Finset.Basic

/- Tasks over one shared memory. One step is one access of one task: `next s f o` is the memory and the
   task after it, where `o` is decided outside. -/
namespace Crew

structure State (σ φ : Type*) where
  shared : σ
  tasks : List φ

variable {σ φ ο M : Type*}

/-- The task at place `k` makes its next access. -/
def advance (next : σ → φ → ο → Option (σ × φ)) (S : State σ φ) (k : ℕ) (o : ο) :
    Option (State σ φ) :=
  S.tasks[k]?.bind (fun f =>
    (next S.shared f o).map (fun r => ⟨r.1, S.tasks.set k r.2⟩))

def begin (S : State σ φ) (f : φ) : State σ φ :=
  { S with tasks := f :: S.tasks }

variable {k : ℕ} {tasks : List φ}

theorem advance_eq_some {next : σ → φ → ο → Option (σ × φ)} {S S' : State σ φ} {o : ο}
    (h : advance next S k o = some S') :
    ∃ f s' f', S.tasks[k]? = some f ∧ next S.shared f o = some (s', f') ∧
      S' = ⟨s', S.tasks.set k f'⟩ := by
  unfold advance at h
  rw [Option.bind_eq_some_iff] at h
  obtain ⟨f, hf, hmap⟩ := h
  rw [Option.map_eq_some_iff] at hmap
  obtain ⟨⟨s', f'⟩, hnext, hS'⟩ := hmap
  exact ⟨f, s', f', hf, hnext, hS'.symm⟩

/-- What holds of every task still does after one is replaced by a task it holds of. -/
theorem forall_set {p : φ → Prop} {f' : φ} (htasks : ∀ f ∈ tasks, p f)
    (hf' : p f') : ∀ f ∈ tasks.set k f', p f := by
  intro f hf
  rcases List.mem_or_eq_of_mem_set hf with hold | rfl
  · exact htasks f hold
  · exact hf'

/-- A task is replaced or stays. -/
theorem mem_set_of_mem {f g : φ} (f' : φ) (hk : tasks[k]? = some f)
    (hg : g ∈ tasks) : g = f ∨ g ∈ tasks.set k f' := by
  obtain ⟨j, hj⟩ := List.mem_iff_getElem?.mp hg
  by_cases hjk : j = k
  · subst hjk
    rw [hk] at hj
    cases hj
    exact .inl rfl
  · right
    rw [List.mem_iff_getElem?]
    exact ⟨j, by rw [List.getElem?_set_ne (Ne.symm hjk), hj]⟩

/-- What the tasks come to together, each with its share `m`. -/
def tally [AddMonoid M] (m : φ → M) (tasks : List φ) : M := (tasks.map m).sum

@[simp] theorem tally_nil [AddMonoid M] (m : φ → M) : tally m [] = 0 := rfl

@[simp] theorem tally_cons [AddMonoid M] (m : φ → M) (f : φ) (tasks : List φ) :
    tally m (f :: tasks) = m f + tally m tasks := by
  simp [tally]

/-- When a task is replaced, the tally changes by the difference of the two shares. -/
theorem tally_set [AddCommMonoid M] (m : φ → M) {f : φ} (f' : φ)
    (h : tasks[k]? = some f) : tally m (tasks.set k f') + m f = tally m tasks + m f' := by
  induction tasks generalizing k with
  | nil => simp at h
  | cons g tasks ih =>
    cases k with
    | zero =>
      have hgf : g = f := by simpa using h
      subst hgf
      rw [List.set_cons_zero, tally_cons, tally_cons]
      rw [add_comm (m f'), add_comm (m g), add_assoc, add_assoc, add_comm (m f')]
    | succ k =>
      have hk : tasks[k]? = some f := by simpa using h
      calc tally m ((g :: tasks).set (k + 1) f') + m f
          = m g + (tally m (tasks.set k f') + m f) := by
            rw [List.set_cons_succ, tally_cons, add_assoc]
        _ = m g + (tally m tasks + m f') := by rw [ih hk]
        _ = tally m (g :: tasks) + m f' := by rw [tally_cons, add_assoc]

theorem tally_congr [AddMonoid M] {m m' : φ → M} (h : ∀ f ∈ tasks, m f = m' f) : tally m tasks = tally m' tasks :=
  congrArg List.sum (List.map_congr_left h)

theorem tally_le_tally {m m' : φ → ℕ} (h : ∀ f ∈ tasks, m f ≤ m' f) : tally m tasks ≤ tally m' tasks := by
  induction tasks with
  | nil => exact le_rfl
  | cons f tasks ih =>
    have hhead : m f ≤ m' f := h f (by simp)
    have htail := ih (fun g hg => h g (by simp [hg]))
    exact Nat.add_le_add hhead htail

theorem tally_eq_zero {m : φ → ℕ} (h : ∀ f ∈ tasks, m f = 0) : tally m tasks = 0 := by
  have hle : tally m tasks ≤ tally (fun _ => 0) tasks :=
    tally_le_tally (fun f hf => (h f hf).le)
  have hzero : tally (fun _ : φ => 0) tasks = 0 := by simp [tally]
  omega

theorem tally_sum (m : ℕ → φ → ℕ) (n : ℕ) (tasks : List φ) :
    tally (fun f => ∑ i ∈ Finset.range n, m i f) tasks = ∑ i ∈ Finset.range n, tally (m i) tasks := by
  induction tasks with
  | nil => simp
  | cons f tasks ih => simp only [tally_cons, ih, Finset.sum_add_distrib]

end Crew
