import Mathlib.Data.List.Basic

/- Computations that ask a control between their steps. -/
namespace Polled

variable {α β ε : Type}

structure Work (α : Type) where
  polls : ℕ
  value : α

abbrev Control (ε : Type) := ℕ → Option ε

namespace Work

def done (a : α) : Work α := ⟨0, a⟩

def bind (x : Work α) (f : α → Work β) : Work β := ⟨x.polls + (f x.value).polls, (f x.value).value⟩

instance : Monad Work where
  pure := done
  bind := bind

instance : LawfulMonad Work := LawfulMonad.mk' Work
  (fun x => by
    obtain ⟨n, a⟩ := x
    exact congrArg (Work.mk · a) (Nat.add_zero n))
  (fun a f => congrArg (Work.mk · (f a).value) (Nat.zero_add _))
  (fun x f g => congrArg (Work.mk · _) (Nat.add_assoc ..))

def asks (n : ℕ) : Work Unit := ⟨n, ()⟩

def check : Work Unit := asks 1

@[simp] theorem value_pure (a : α) : (pure a : Work α).value = a := rfl

@[simp] theorem value_bind (x : Work α) (f : α → Work β) : (x >>= f).value = (f x.value).value := rfl

@[simp] theorem value_map (f : α → β) (x : Work α) : (f <$> x).value = f x.value := rfl

/-- A loop over a list comes to the values of its rounds. -/
@[simp] theorem value_mapM (f : α → Work β) (xs : List α) :
    (xs.mapM f).value = xs.map fun x => (f x).value := by
  rw [← List.mapM'_eq_mapM]
  induction xs with
  | nil => rfl
  | cons x xs ih =>
    rw [List.mapM'_cons, value_bind, value_bind, value_pure, ih, List.map_cons]

end Work

variable {σ : Type}

/-- A computation over a caller's state, with the state at each question. -/
structure Session (σ α : Type) where
  asked : σ → List σ
  left : σ → σ
  value : σ → α

namespace Session

def bind (x : Session σ α) (f : α → Session σ β) : Session σ β where
  asked s := x.asked s ++ (f (x.value s)).asked (x.left s)
  left s := (f (x.value s)).left (x.left s)
  value s := (f (x.value s)).value (x.left s)

instance : Monad (Session σ) where
  pure a := ⟨fun _ => [], id, fun _ => a⟩
  bind := bind

def get : Session σ σ := ⟨fun _ => [], id, id⟩

def set (s : σ) : Session σ Unit := ⟨fun _ => [], fun _ => s, fun _ => ()⟩

def lift (x : Work α) : Session σ α := ⟨List.replicate x.polls, id, fun _ => x.value⟩

section Rules
variable (x : Session σ α) (f : α → Session σ β) (s : σ)

@[simp] theorem asked_bind : (x >>= f).asked s = x.asked s ++ (f (x.value s)).asked (x.left s) := rfl

@[simp] theorem left_bind : (x >>= f).left s = (f (x.value s)).left (x.left s) := rfl

@[simp] theorem value_bind : (x >>= f).value s = (f (x.value s)).value (x.left s) := rfl

@[simp] theorem asked_get : (get : Session σ σ).asked s = [] := rfl

@[simp] theorem left_get : (get : Session σ σ).left s = s := rfl

@[simp] theorem value_get : (get : Session σ σ).value s = s := rfl

variable (w : Work α)

@[simp] theorem asked_lift : (lift w : Session σ α).asked s = List.replicate w.polls s := rfl

@[simp] theorem left_lift : (lift w : Session σ α).left s = s := rfl

@[simp] theorem value_lift : (lift w : Session σ α).value s = w.value := rfl

end Rules

def stop (control : Control ε) (states : List σ) : Option (σ × ε) :=
  states.zipIdx.findSome? fun (s, k) => (control k).map fun e => (s, e)

def under (control : Control ε) (x : Session σ α) (s : σ) : σ × Except ε α :=
  match stop control (x.asked s) with
  | some (t, e) => (t, .error e)
  | none => (x.left s, .ok (x.value s))

variable {control : Control ε}

theorem mem_of_stop {states : List σ} {t : σ} {e : ε} (h : stop control states = some (t, e)) :
    t ∈ states := by
  obtain ⟨⟨s, k⟩, hmem, hs⟩ := List.exists_of_findSome?_eq_some h
  obtain ⟨_, _, heq⟩ := Option.map_eq_some_iff.mp hs
  obtain ⟨rfl, _⟩ := Prod.mk.inj heq
  exact List.fst_mem_of_mem_zipIdx hmem

theorem under_stopped {x : Session σ α} {s : σ} {e : ε} (hquiet : ∀ t ∈ x.asked s, t = s)
    (h : (x.under control s).2 = .error e) : (x.under control s).1 = s := by
  unfold under at h ⊢
  cases hstop : stop control (x.asked s) with
  | none =>
    rw [hstop] at h
    simp at h
  | some stopped =>
    obtain ⟨t, e'⟩ := stopped
    exact hquiet t (mem_of_stop hstop)

theorem under_ok {x : Session σ α} {s : σ} {a : α} (h : (x.under control s).2 = .ok a) :
    (x.under control s).1 = x.left s ∧ a = x.value s := by
  unfold under at h ⊢
  cases hstop : stop control (x.asked s) with
  | none =>
    rw [hstop] at h
    exact ⟨rfl, (Except.ok.inj h).symm⟩
  | some stopped =>
    rw [hstop] at h
    simp at h

end Session

end Polled
