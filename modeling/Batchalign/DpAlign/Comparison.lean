import Mathlib.Data.List.Basic

/- What the aligner compares. `Alignable` is a match test and the key an item is reported under. The
   fuzzy policy carries the similarity test of the `strsim` crate and Unicode lowercasing as functions. -/
namespace Batchalign.DpAlign

structure Alignable (T : Type) where
  isMatch : T → T → Bool
  toKey : T → String

def Alignable.Symmetric {T : Type} (A : Alignable T) : Prop :=
  ∀ a b, A.isMatch a b = A.isMatch b a

inductive LiteralMatchMode where
  | exact
  | asciiInsensitive

/-- Only A-Z are folded. -/
def toAsciiLowercase (word : String) : String := word.map Char.toLower

def eqIgnoreAsciiCase (a b : String) : Bool := toAsciiLowercase a == toAsciiLowercase b

def key (word : String) : LiteralMatchMode → String
  | .exact => word
  | .asciiInsensitive => toAsciiLowercase word

def LiteralMatchMode.matchesWords (mode : LiteralMatchMode) (source reference : String) : Bool :=
  match mode with
  | .exact => source == reference
  | .asciiInsensitive => eqIgnoreAsciiCase source reference

variable (mode : LiteralMatchMode)

theorem matchesWords_iff_key (a b : String) : mode.matchesWords a b = true ↔ key a mode = key b mode := by
  cases mode <;> simp [LiteralMatchMode.matchesWords, key, eqIgnoreAsciiCase]

theorem matchesWords_comm (a b : String) : mode.matchesWords a b = mode.matchesWords b a := by
  rw [Bool.eq_iff_iff, matchesWords_iff_key, matchesWords_iff_key]
  exact eq_comm

structure FuzzyComparison where
  toLowercase : String → String
  similar : String → String → Bool

structure PreparedFuzzyWord where
  original : String
  lowercase : String

def FuzzyComparison.prepare (policy : FuzzyComparison) (original : String) : PreparedFuzzyWord :=
  ⟨original, policy.toLowercase original⟩

inductive MatchMode where
  | exact
  | caseInsensitive
  | fuzzy (policy : FuzzyComparison)

/-- `Alignable for String`. -/
def alignableString (mode : LiteralMatchMode) : Alignable String where
  isMatch a b := mode.matchesWords a b
  toKey a := a

/-- `Alignable for char`. -/
def alignableChar (mode : LiteralMatchMode) : Alignable Char where
  isMatch a b := match mode with
    | .exact => a == b
    | .asciiInsensitive => a.toLower == b.toLower
  toKey a := a.toString

/-- `Alignable for PreparedFuzzyWord`: the ASCII fast path, then the similarity test. -/
def alignableFuzzy (policy : FuzzyComparison) : Alignable PreparedFuzzyWord where
  isMatch a b := eqIgnoreAsciiCase a.original b.original || policy.similar a.lowercase b.lowercase
  toKey a := a.original

def MatchMode.Symmetric : MatchMode → Prop
  | .exact | .caseInsensitive => True
  | .fuzzy policy => ∀ a b, policy.similar a b = policy.similar b a

theorem alignableString_symmetric : (alignableString mode).Symmetric :=
  fun a b => matchesWords_comm mode a b

theorem alignableChar_symmetric : (alignableChar mode).Symmetric := by
  intro a b
  cases mode <;> simp only [alignableChar, Bool.beq_comm]

theorem alignableFuzzy_symmetric {policy : FuzzyComparison}
    (h : ∀ a b, policy.similar a b = policy.similar b a) : (alignableFuzzy policy).Symmetric := by
  intro a b
  simp only [alignableFuzzy, eqIgnoreAsciiCase]
  rw [h, Bool.beq_comm]

end Batchalign.DpAlign
