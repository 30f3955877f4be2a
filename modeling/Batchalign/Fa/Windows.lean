import Mathlib.Tactic
import Batchalign.Fa.Content

/- A recording, the windows cut from it and the words sent with them (`fa/coordinates.rs`,
   `fa/extraction.rs`). A window is a positive stretch of its recording: both facts are fields.
   Milliseconds are `u64`. -/
namespace Batchalign.Fa

def saturatingAdd (a b : ℕ) : ℕ := min (a + b) (2 ^ 64 - 1)

theorem saturatingAdd_le (a b : ℕ) : saturatingAdd a b ≤ a + b := min_le_left _ _

theorem le_saturatingAdd {a b c : ℕ} (hsum : c ≤ a + b) (hfits : c < 2 ^ 64) : c ≤ saturatingAdd a b := by
  unfold saturatingAdd
  omega

/-- The recording under alignment: its length is a positive `u64`. -/
structure Recording where
  duration : ℕ
  positive : 0 < duration
  fits : duration < 2 ^ 64

inductive WindowFault where
  | inverted (startMs endMs : ℕ)
  | empty (atMs : ℕ)
  | pastRecording (endMs exceedsBy : ℕ)

structure FaWindow (R : Recording) where
  startMs : ℕ
  endMs : ℕ
  positive : startMs < endMs
  inside : endMs ≤ R.duration

namespace FaWindow

variable {R : Recording}

@[ext] theorem ext {a b : FaWindow R} (hs : a.startMs = b.startMs) (he : a.endMs = b.endMs) : a = b := by
  cases a
  cases b
  simp only [FaWindow.mk.injEq]
  exact ⟨hs, he⟩

def within (R : Recording) (startMs endMs : ℕ) : Except WindowFault (FaWindow R) :=
  if hlt : startMs < endMs then
    if hin : endMs ≤ R.duration then .ok ⟨startMs, endMs, hlt, hin⟩
    else .error (.pastRecording endMs (endMs - R.duration))
  else if startMs = endMs then .error (.empty startMs)
  else .error (.inverted startMs endMs)

def len (w : FaWindow R) : ℕ := w.endMs - w.startMs

def extendBy (w : FaWindow R) (extension : ℕ) : FaWindow R where
  startMs := w.startMs
  endMs := min (saturatingAdd w.endMs extension) R.duration
  positive := by
    have hend : w.endMs ≤ saturatingAdd w.endMs extension :=
      le_saturatingAdd (Nat.le_add_right _ _) (lt_of_le_of_lt w.inside R.fits)
    have hpos := w.positive
    have hin := w.inside
    omega
  inside := min_le_right _ _

def splitAt (w : FaWindow R) (atMs : ℕ) : Option (FaWindow R × FaWindow R) :=
  if h : w.startMs < atMs ∧ atMs < w.endMs then
    some (⟨w.startMs, atMs, h.1, le_trans (le_of_lt h.2) w.inside⟩, ⟨atMs, w.endMs, h.2, w.inside⟩)
  else none

theorem within_eq_ok {startMs endMs : ℕ} {w : FaWindow R} (h : within R startMs endMs = .ok w) :
    w.startMs = startMs ∧ w.endMs = endMs := by
  unfold within at h
  split at h
  · split at h
    · cases h
      exact ⟨rfl, rfl⟩
    · cases h
  · split at h <;> cases h

theorem endMs_extendBy {w : FaWindow R} {extension : ℕ} (h : w.endMs + extension ≤ R.duration) :
    (w.extendBy extension).endMs = w.endMs + extension := by
  have hfits := R.fits
  have hge : w.endMs + extension ≤ saturatingAdd w.endMs extension := le_saturatingAdd (le_refl _) (by omega)
  have hle := saturatingAdd_le w.endMs extension
  show min (saturatingAdd w.endMs extension) R.duration = w.endMs + extension
  omega

end FaWindow

structure FaWord where
  utteranceIndex : ℕ
  utteranceWordIndex : ℕ
  text : String

/-- The crate's word decisions under the `Wor` domain, and the parts of a compound filler. -/
structure WorDomain where
  countsForTier : Word → Bool
  splitCompoundFiller : Word → List String

/-- The texts of the alignable words, in the walk's order. -/
def collectFaWords (W : ContentWalker) (V : WorDomain) (content : List UtteranceContent) : List String :=
  ((W.walkWords content).filter V.countsForTier).flatMap V.splitCompoundFiller

end Batchalign.Fa
