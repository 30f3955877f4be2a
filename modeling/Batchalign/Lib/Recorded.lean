import Mathlib.Data.List.Basic

/- Fallible computations over a state with a record that only grows. `Yields t m r Q`: from any state
   `m` fails only with an error `t` tolerates, and when it returns the record has been added to and `Q`
   holds. The rules compose along a program (`Yields.bind`). -/
namespace Recorded

variable {S L ε α β : Type}

structure State (S L : Type) where
  state : S
  record : List L

abbrev Session (S L ε α : Type) := StateT (State S L) (Except ε) α

/-- Every run from the record `r` yields `Q`, or fails with a tolerated error. -/
def Yields (tolerated : ε → Prop) (m : Session S L ε α) (r : List L) (Q : α → List L → Prop) : Prop :=
  ∀ s, match m.run ⟨s, r⟩ with
    | .ok (a, st) => r <+: st.record ∧ Q a st.record
    | .error e => tolerated e

variable {t : ε → Prop} {r : List L}

namespace Yields

theorem pure {a : α} {Q : α → List L → Prop} (h : Q a r) :
    Yields t (Pure.pure a : Session S L ε α) r Q := by
  intro s
  exact ⟨List.prefix_refl r, h⟩

theorem bind {m : Session S L ε α} {f : α → Session S L ε β} {Q : α → List L → Prop} {T : β → List L → Prop}
    (hm : Yields t m r Q) (hf : ∀ a r', r <+: r' → Q a r' → Yields t (f a) r' T) : Yields t (m >>= f) r T := by
  intro s
  have hs := hm s
  rw [StateT.run_bind]
  cases hrun : m.run ⟨s, r⟩ with
  | error e =>
    rw [hrun] at hs
    exact hs
  | ok out =>
    obtain ⟨a, st⟩ := out
    rw [hrun] at hs
    obtain ⟨hgrown, hq⟩ := hs
    have hnext := hf a st.record hgrown hq st.state
    show match (f a).run st with
      | .ok (a, st) => r <+: st.record ∧ T a st.record
      | .error e => t e
    cases hrun' : (f a).run st with
    | error e =>
      rw [show (⟨st.state, st.record⟩ : State S L) = st from rfl, hrun'] at hnext
      exact hnext
    | ok out' =>
      rw [show (⟨st.state, st.record⟩ : State S L) = st from rfl, hrun'] at hnext
      exact ⟨hgrown.trans hnext.1, hnext.2⟩

end Yields

end Recorded
