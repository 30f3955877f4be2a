import Mathlib.Data.List.TakeWhile
import Batchalign.Lib.Segments

/- The words of an utterance and the tokens of a model (`retokenize.rs`). Both are laid out over the
   normalized text, and a word owns the tokens its stretch meets (`buildWordTokenMapping`), if the texts
   agree and no unit is empty. -/
namespace Batchalign.Retokenize
open Segments List

inductive GoverningMarkKind where
  | own
  | other
  deriving DecidableEq

structure ExtractedWord where
  text : List Char
  formType : Option (List Char)
  languageKind : GoverningMarkKind

structure Stretch where
  start : ℕ
  stop : ℕ

abbrev WordTokenMapping := List (List ℕ)

def WordTokenMapping.tokensForWord (m : WordTokenMapping) (word : ℕ) : List ℕ := (m[word]?).getD []

def WordTokenMapping.getNonempty (m : WordTokenMapping) (word : ℕ) : Option (List ℕ) :=
  (m[word]?).filter fun tokens => !tokens.isEmpty

def normalizeAlignmentUnit (toLowercase : Char → List Char) (text : List Char) : List Char :=
  text.flatMap toLowercase

/-- The stretches of consecutive units, the first from `cursor`. -/
def stretchesFrom : ℕ → List (List Char) → List Stretch
  | _, [] => []
  | cursor, unit :: units =>
    ⟨cursor, cursor + unit.length⟩ :: stretchesFrom (cursor + unit.length) units

def ownedTokens (word : Stretch) (remaining : List (Stretch × ℕ)) : List ℕ :=
  ((remaining.takeWhile fun t => t.1.start < word.stop).filter
    fun t => word.start < t.1.stop).map Prod.snd

def ownEach : List (Stretch × ℕ) → List Stretch → Option (List (List ℕ))
  | _, [] => some []
  | tokens, word :: words =>
    let remaining := tokens.dropWhile fun t => t.1.stop ≤ word.start
    let owned := ownedTokens word remaining
    if owned.isEmpty then none
    else (ownEach remaining words).map (owned :: ·)

section Join
variable (toLowercase : Char → List Char)

def wordUnits (words : List ExtractedWord) : List (List Char) :=
  words.map fun word => normalizeAlignmentUnit toLowercase word.text

def tokenUnits (tokens : List (List Char)) : List (List Char) :=
  tokens.map (normalizeAlignmentUnit toLowercase)

def spanJoin (words : List ExtractedWord) (tokens : List (List Char)) : Option (List (List ℕ)) :=
  if (wordUnits toLowercase words).any List.isEmpty then none
  else if (tokenUnits toLowercase tokens).any List.isEmpty then none
  else if (wordUnits toLowercase words).flatten ≠ (tokenUnits toLowercase tokens).flatten then none
  else ownEach (stretchesFrom 0 (tokenUnits toLowercase tokens)).zipIdx
    (stretchesFrom 0 (wordUnits toLowercase words))

/-- `None` is `TextDiverged`. -/
def buildWordTokenMapping (words : List ExtractedWord) (tokens : List (List Char)) :
    Option WordTokenMapping := spanJoin toLowercase words tokens

end Join

/-! ## What a mapping says -/

variable {toLowercase : Char → List Char} {words : List ExtractedWord} {tokens : List (List Char)}
  {units ws ts : List (List Char)} {m : WordTokenMapping} {i j t u : ℕ}

/-- Each word of `ws` owns tokens of `ts` that meet it, in order. -/
structure Joins (ws ts : List (List Char)) (m : WordTokenMapping) : Prop where
  length : m.length = ws.length
  nonempty : ∀ (i : ℕ) (l : List ℕ), m[i]? = some l → l ≠ []
  increasing : ∀ (i : ℕ) (l : List ℕ), m[i]? = some l → l.Pairwise (· < ·)
  meets : ∀ (i : ℕ) (l : List ℕ), m[i]? = some l → ∀ t ∈ l, t < ts.length ∧
    offset ts t < offset ws (i + 1) ∧ offset ws i < offset ts (t + 1)

theorem lt_of_mem_tokensForWord (ht : t ∈ m.tokensForWord i) : i < m.length := by
  rw [WordTokenMapping.tokensForWord] at ht
  by_contra hlt
  rw [getElem?_eq_none (by omega)] at ht
  cases ht

theorem length_stretchesFrom (cursor : ℕ) (units : List (List Char)) :
    (stretchesFrom cursor units).length = units.length := by
  induction units generalizing cursor with
  | nil => rfl
  | cons unit units ih => simp [stretchesFrom, ih]

theorem stretchesFrom_getElem? {cursor : ℕ} {s : Stretch}
    (h : (stretchesFrom cursor units)[i]? = some s) :
    s = ⟨cursor + offset units i, cursor + offset units (i + 1)⟩ := by
  induction units generalizing cursor i with
  | nil => cases h
  | cons unit units ih =>
    cases i with
    | zero =>
      have hs : s = ⟨cursor, cursor + unit.length⟩ := by simpa [stretchesFrom] using h.symm
      rw [hs, offset_cons_succ, offset_zero, offset_zero, add_zero, add_zero]
    | succ i =>
      rw [ih h, offset_cons_succ, offset_cons_succ]
      simp only [add_assoc]

theorem ownEach_spec {remaining : List (Stretch × ℕ)} {stretches : List Stretch}
    (h : ownEach remaining stretches = some m) :
    m.length = stretches.length ∧ ∀ (i : ℕ) (l : List ℕ) (word : Stretch),
      m[i]? = some l → stretches[i]? = some word → l ≠ [] ∧ l.Sublist (remaining.map Prod.snd) ∧
        ∀ t ∈ l, ∃ s, (s, t) ∈ remaining ∧ s.start < word.stop ∧ word.start < s.stop := by
  induction stretches generalizing remaining m with
  | nil =>
    cases h
    exact ⟨rfl, fun i l word hl => by cases hl⟩
  | cons first stretches ih =>
    rw [ownEach] at h
    split_ifs at h with hempty
    obtain ⟨m', hm', rfl⟩ := Option.map_eq_some_iff.mp h
    obtain ⟨hlen, hrest⟩ := ih hm'
    have hpassed : (remaining.dropWhile fun t => t.1.stop ≤ first.start).Sublist remaining :=
      dropWhile_sublist _
    refine ⟨by rw [length_cons, length_cons, hlen], ?_⟩
    intro i l word hl hword
    cases i with
    | zero =>
      obtain rfl : _ = l := by simpa using hl
      obtain rfl : first = word := by simpa using hword
      refine ⟨by simpa using hempty, ?_, ?_⟩
      · exact ((filter_sublist.trans (takeWhile_sublist _)).trans hpassed).map _
      · intro t ht
        obtain ⟨⟨s, t⟩, hmem, rfl⟩ := mem_map.mp ht
        obtain ⟨htake, hafter⟩ := mem_filter.mp hmem
        have hbefore := mem_takeWhile_imp htake
        exact ⟨s, hpassed.subset ((takeWhile_sublist _).subset htake),
          of_decide_eq_true hbefore, of_decide_eq_true hafter⟩
    | succ i =>
      obtain ⟨hne, hsub, hmeets⟩ := hrest i l word (by simpa using hl) (by simpa using hword)
      refine ⟨hne, hsub.trans (hpassed.map _), ?_⟩
      intro t ht
      obtain ⟨s, hs, hst⟩ := hmeets t ht
      exact ⟨s, hpassed.subset hs, hst⟩

theorem buildWordTokenMapping_joins (h : buildWordTokenMapping toLowercase words tokens = some m) :
    Joins (wordUnits toLowercase words) (tokenUnits toLowercase tokens) m := by
  rw [buildWordTokenMapping, spanJoin] at h
  split_ifs at h
  obtain ⟨hlen, hall⟩ := ownEach_spec h
  rw [length_stretchesFrom] at hlen
  have hword : ∀ (i : ℕ) (l : List ℕ), m[i]? = some l →
      ∃ word, (stretchesFrom 0 (wordUnits toLowercase words))[i]? = some word := by
    intro i l hl
    have hi := (List.getElem?_eq_some_iff.mp hl).1
    rw [hlen, ← length_stretchesFrom 0] at hi
    exact ⟨_, getElem?_eq_getElem hi⟩
  refine ⟨hlen, ?_, ?_, ?_⟩
  · intro i l hl
    obtain ⟨word, hw⟩ := hword i l hl
    exact (hall i l word hl hw).1
  · intro i l hl
    obtain ⟨word, hw⟩ := hword i l hl
    refine Pairwise.sublist (hall i l word hl hw).2.1 ?_
    rw [zipIdx_map_snd]
    exact pairwise_lt_range'
  · intro i l hl t ht
    obtain ⟨word, hw⟩ := hword i l hl
    obtain ⟨s, hs, hstart, hstop⟩ := (hall i l word hl hw).2.2 t ht
    have hat : (stretchesFrom 0 (tokenUnits toLowercase tokens))[t]? = some s :=
      mem_zipIdx_iff_getElem?.mp hs
    have hbound := (List.getElem?_eq_some_iff.mp hat).1
    rw [length_stretchesFrom] at hbound
    rw [stretchesFrom_getElem? hat, stretchesFrom_getElem? hw] at hstart hstop
    simp only [zero_add] at hstart hstop
    exact ⟨hbound, hstart, hstop⟩

namespace Joins

section
variable (h : Joins ws ts m)
include h

theorem mem_bounds (ht : t ∈ m.tokensForWord i) :
    t < ts.length ∧ offset ts t < offset ws (i + 1) ∧ offset ws i < offset ts (t + 1) := by
  rw [WordTokenMapping.tokensForWord] at ht
  cases hl : m[i]? with
  | none =>
    rw [hl] at ht
    cases ht
  | some l =>
    rw [hl] at ht
    exact h.meets i l hl t ht

theorem sorted (i : ℕ) : (m.tokensForWord i).Pairwise (· < ·) := by
  rw [WordTokenMapping.tokensForWord]
  cases hl : m[i]? with
  | none => exact .nil
  | some l => exact h.increasing i l hl

theorem tokensForWord_ne_nil (hi : i < ws.length) : m.tokensForWord i ≠ [] := by
  rw [← h.length] at hi
  rw [WordTokenMapping.tokensForWord, getElem?_eq_getElem hi]
  exact h.nonempty i _ (getElem?_eq_getElem hi)

theorem le (hij : i < j) (ht : t ∈ m.tokensForWord i) (hu : u ∈ m.tokensForWord j) : t ≤ u := by
  by_contra hlt
  have hlast := (h.mem_bounds ht).2.1
  have hfirst := (h.mem_bounds hu).2.2
  have hwords := offset_mono ws (show i + 1 ≤ j from hij)
  have htokens := offset_mono ts (show u + 1 ≤ t by omega)
  omega

theorem not_across {n q : ℕ} (hcut : offset ws n = offset ts q) (hi : i < n)
    (hj : n ≤ j) (ht : t ∈ m.tokensForWord i) : t ∉ m.tokensForWord j := by
  intro hother
  have hbefore := (h.mem_bounds ht).2.1
  have hafter := (h.mem_bounds hother).2.2
  have hwi := offset_mono ws (show i + 1 ≤ n from hi)
  have hwj := offset_mono ws hj
  -- the token begins before the cut and ends after it
  rcases lt_or_ge t q with hlt | hge
  · have := offset_mono ts (show t + 1 ≤ q from hlt)
    omega
  · have := offset_mono ts hge
    omega

end

end Joins

end Batchalign.Retokenize
