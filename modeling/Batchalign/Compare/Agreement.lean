import Batchalign.Compare.SpeakerCorrespondence
import Batchalign.DpAlign.AlignOptimal

/- The agreement of two runs (`compare/cross_run.rs`, `agreement_metrics`). The ordered numerator counts
   what an alignment up to ASCII case leaves unmatched, the other what the runs do not share up to
   Unicode case. -/
namespace Batchalign.Compare
open List DpAlign Chain

/-- The Unicode tables of `str::to_lowercase`; both cases of an ASCII letter have the same properties. -/
structure CaseTables where
  lower : Char → List Char
  cased : Char → Bool
  caseIgnorable : Char → Bool
  lower_ascii : ∀ c : Char, lower c.toLower = lower c
  cased_ascii : ∀ c : Char, cased c.toLower = cased c
  caseIgnorable_ascii : ∀ c : Char, caseIgnorable c.toLower = caseIgnorable c

namespace CaseTables
variable (U : CaseTables)

def caseIgnorableThenCased (chars : List Char) : Bool :=
  (chars.dropWhile U.caseIgnorable).head?.any U.cased

/-- `str::to_lowercase`, the characters passed over reversed in `before`. -/
def lowercaseFrom : List Char → List Char → List Char
  | _, [] => []
  | before, c :: rest =>
    (if c = 'Σ' then
      [if U.caseIgnorableThenCased before && !U.caseIgnorableThenCased rest then 'ς' else 'σ']
    else U.lower c) ++ lowercaseFrom (c :: before) rest

def toLowercase (word : String) : String := .ofList (U.lowercaseFrom [] word.toList)

end CaseTables

theorem toNat_toLower (c : Char) :
    c.toLower.toNat = if 65 ≤ c.toNat ∧ c.toNat ≤ 90 then c.toNat + 32 else c.toNat := by
  have hval : (c.val ≥ 'A'.val ∧ c.val ≤ 'Z'.val) ↔ 65 ≤ c.toNat ∧ c.toNat ≤ 90 := by
    simp [UInt32.le_iff_toNat_le]
  unfold Char.toLower
  split_ifs with hupper hnat hnat
  · change (c.val + 32).toNat = c.toNat + 32
    rw [UInt32.toNat_add, Nat.mod_eq_of_lt]
    · rfl
    · change c.toNat + 32 < 2 ^ 32
      omega
  · exact absurd (hval.mp hupper) hnat
  · exact absurd (hval.mpr hnat) hupper
  · rfl

theorem toLower_toLower (c : Char) : c.toLower.toLower = c.toLower := by
  apply Char.toNat_inj.mp
  rw [toNat_toLower c.toLower, if_neg]
  rw [toNat_toLower]
  split_ifs <;> omega

/-- The tables on the ASCII characters, of which apostrophe, full stop, colon, circumflex and grave are
  case-ignorable. -/
def CaseTables.ascii : CaseTables where
  lower c := [c.toLower]
  cased c := decide (97 ≤ c.toLower.toNat ∧ c.toLower.toNat ≤ 122)
  caseIgnorable c := [39, 46, 58, 94, 96].contains c.toLower.toNat
  lower_ascii c := by rw [toLower_toLower]
  cased_ascii c := by rw [toLower_toLower]
  caseIgnorable_ascii c := by rw [toLower_toLower]

@[ext]
structure AlignmentTally where
  matched : ℕ
  insertions : ℕ
  deletions : ℕ

def AlignmentTally.add (tally : AlignmentTally) : AlignResult → AlignmentTally
  | .matched .. => { tally with matched := tally.matched + 1 }
  | .extraPayload .. => { tally with insertions := tally.insertions + 1 }
  | .extraReference .. => { tally with deletions := tally.deletions + 1 }

structure SideCounts where
  left : ℕ
  right : ℕ

structure AgreementMetrics where
  cwerNumerator : ℕ
  words : SideCounts
  tally : AlignmentTally
  excludedTokens : SideCounts

def AgreementMetrics.werNumerator (m : AgreementMetrics) : ℕ := m.tally.insertions + m.tally.deletions

def agreementMetrics (U : CaseTables) (left right : List String)
    (excludedLeftTokens excludedRightTokens : ℕ) : AgreementMetrics :=
  let overlap := multisetOverlap U.toLowercase left right
  { cwerNumerator := (left.length - overlap) + (right.length - overlap)
    words := ⟨left.length, right.length⟩
    tally := (align left right .caseInsensitive).foldl AlignmentTally.add ⟨0, 0, 0⟩
    excludedTokens := ⟨excludedLeftTokens, excludedRightTokens⟩ }

namespace CaseTables
variable {U : CaseTables}

theorem toLower_eq_sigma {c : Char} : c.toLower = 'Σ' ↔ c = 'Σ' := by
  have hsigma : 'Σ'.toNat = 931 := rfl
  rw [← Char.toNat_inj, ← Char.toNat_inj, toNat_toLower, hsigma]
  split_ifs with hupper <;> omega

theorem caseIgnorableThenCased_congr {xs ys : List Char} (h : xs.map Char.toLower = ys.map Char.toLower) :
    U.caseIgnorableThenCased xs = U.caseIgnorableThenCased ys := by
  induction xs generalizing ys with
  | nil => rw [map_eq_nil_iff.mp h.symm]
  | cons x xs ih =>
    obtain ⟨y, ys, rfl, hxy, hrest⟩ := map_eq_cons_iff.mp h.symm
    have hskip : U.caseIgnorable y = U.caseIgnorable x := by
      rw [← U.caseIgnorable_ascii, hxy, U.caseIgnorable_ascii]
    have hcased : U.cased y = U.cased x := by
      rw [← U.cased_ascii, hxy, U.cased_ascii]
    have hlater := ih hrest.symm
    unfold caseIgnorableThenCased at hlater ⊢
    rw [dropWhile_cons, dropWhile_cons, hskip]
    split
    · exact hlater
    · simp [hcased]

theorem lowercaseFrom_congr {before before' xs ys : List Char}
    (hbefore : before.map Char.toLower = before'.map Char.toLower)
    (h : xs.map Char.toLower = ys.map Char.toLower) :
    U.lowercaseFrom before xs = U.lowercaseFrom before' ys := by
  induction xs generalizing before before' ys with
  | nil => rw [map_eq_nil_iff.mp h.symm]; rfl
  | cons x xs ih =>
    obtain ⟨y, ys, rfl, hxy, hrest⟩ := map_eq_cons_iff.mp h.symm
    have hsigma : y = 'Σ' ↔ x = 'Σ' := by
      rw [← toLower_eq_sigma, hxy, toLower_eq_sigma]
    have hlower : U.lower y = U.lower x := by
      rw [← U.lower_ascii, hxy, U.lower_ascii]
    have hlater : U.lowercaseFrom (x :: before) xs = U.lowercaseFrom (y :: before') ys :=
      ih (by rw [map_cons, map_cons, hxy, hbefore]) hrest.symm
    simp only [lowercaseFrom, hsigma, hlower, hlater, caseIgnorableThenCased_congr hbefore,
      caseIgnorableThenCased_congr hrest]

theorem toLowercase_eq {a b : String} (h : eqIgnoreAsciiCase a b = true) :
    U.toLowercase a = U.toLowercase b := by
  have hchars : a.toList.map Char.toLower = b.toList.map Char.toLower := by
    simpa [eqIgnoreAsciiCase, toAsciiLowercase, ← String.toList_inj] using h
  rw [toLowercase, toLowercase, lowercaseFrom_congr rfl hchars]

end CaseTables

theorem tally_foldl (out : List AlignResult) (tally : AlignmentTally) :
    (out.foldl AlignmentTally.add tally).matched = tally.matched + (matchedPairs out).length ∧
      (out.foldl AlignmentTally.add tally).matched + (out.foldl AlignmentTally.add tally).insertions =
        tally.matched + tally.insertions + (out.filterMap AlignResult.payloadIdx?).length ∧
      (out.foldl AlignmentTally.add tally).matched + (out.foldl AlignmentTally.add tally).deletions =
        tally.matched + tally.deletions + (out.filterMap AlignResult.referenceIdx?).length := by
  induction out generalizing tally with
  | nil => exact ⟨rfl, rfl, rfl⟩
  | cons x out ih =>
    obtain ⟨h1, h2, h3⟩ := ih (tally.add x)
    cases x <;>
      simp [AlignmentTally.add, matchedPairs, filterMap_cons, AlignResult.pair?,
        AlignResult.payloadIdx?, AlignResult.referenceIdx?] at h1 h2 h3 ⊢ <;> omega

theorem sublist_pairs (out : List AlignResult) :
    ((matchedPairs out).map Prod.fst).Sublist (out.filterMap AlignResult.payloadIdx?) ∧
      ((matchedPairs out).map Prod.snd).Sublist (out.filterMap AlignResult.referenceIdx?) := by
  induction out with
  | nil => exact ⟨.slnil, .slnil⟩
  | cons x out ih =>
    cases x with
    | matched key a b => exact ⟨ih.1.cons_cons a, ih.2.cons_cons b⟩
    | extraPayload key a => exact ⟨ih.1.cons a, ih.2⟩
    | extraReference key b => exact ⟨ih.1, ih.2.cons b⟩

theorem sublist_words {ks : List ℕ} {words : List String} (h : ks.Sublist (range words.length)) :
    (ks.map fun k => (words[k]?).getD "").Sublist words := by
  have hall : (range words.length).map (fun k => (words[k]?).getD "") = words := by
    refine ext_getElem (by simp) ?_
    intro k hk hk'
    simp [hk']
  simpa only [hall] using h.map fun k => (words[k]?).getD ""

variable {U : CaseTables} {left right : List String}

theorem overlap_eq_card (left right : List String) : multisetOverlap U.toLowercase left right =
    ((left.map U.toLowercase : Multiset String) ∩ (right.map U.toLowercase : Multiset String)).card := by
  rw [Multiset.coe_inter, Multiset.coe_card, multisetOverlap_eq]

theorem overlap_le_left (left right : List String) :
    multisetOverlap U.toLowercase left right ≤ left.length := by
  rw [overlap_eq_card]
  simpa using Multiset.card_le_card (Multiset.inter_le_left (s := (left.map U.toLowercase : Multiset String))
    (t := (right.map U.toLowercase : Multiset String)))

theorem matched_le_overlap (hbest : OptimalScript (alignableString .asciiInsensitive) left right out) :
    (matchedPairs out).length ≤ multisetOverlap U.toLowercase left right := by
  have hsame : ((matchedPairs out).map fun p => U.toLowercase ((left[p.1]?).getD "")) =
      (matchedPairs out).map fun p => U.toLowercase ((right[p.2]?).getD "") := by
    refine map_congr_left ?_
    intro p hp
    have hmatch := hbest.chain.matching p hp
    have hinside := hbest.chain.inside p hp
    rw [rel_eq (getElem?_eq_getElem hinside.1) (getElem?_eq_getElem hinside.2)] at hmatch
    rw [getElem?_eq_getElem hinside.1, getElem?_eq_getElem hinside.2]
    exact (CaseTables.toLowercase_eq hmatch).symm
  obtain ⟨hleft, hright⟩ := sublist_pairs out
  rw [hbest.payload_once] at hleft
  rw [hbest.reference_once] at hright
  have hleft' := (sublist_words hleft).map U.toLowercase
  have hright' := (sublist_words hright).map U.toLowercase
  simp only [map_map, Function.comp_def] at hleft' hright'
  rw [← hsame] at hright'
  have hcommon := Multiset.card_le_card (Multiset.le_inter (Multiset.coe_le.mpr hleft'.subperm)
    (Multiset.coe_le.mpr hright'.subperm))
  rwa [← overlap_eq_card, Multiset.coe_card, length_map] at hcommon

theorem matched_swap {out out' : List AlignResult}
    (h : OptimalScript (alignableString .asciiInsensitive) left right out)
    (h' : OptimalScript (alignableString .asciiInsensitive) right left out') :
    (matchedPairs out).length ≤ (matchedPairs out').length := by
  have hchain : IsChain (rel (alignableString .asciiInsensitive) right left) right.length left.length
      ((matchedPairs out).map Prod.swap) := by
    refine ⟨?_, ?_, ?_⟩
    · rw [pairwise_map]
      exact h.chain.increasing.imp fun hpq => ⟨hpq.2, hpq.1⟩
    · intro p hp
      obtain ⟨q, hq, rfl⟩ := mem_map.mp hp
      have hmatch := h.chain.matching q hq
      have hinside := h.chain.inside q hq
      have hfst := getElem?_eq_getElem hinside.1
      have hsnd := getElem?_eq_getElem hinside.2
      rw [rel_eq hfst hsnd] at hmatch
      exact (rel_eq hsnd hfst).trans (alignableString_symmetric .asciiInsensitive _ _ ▸ hmatch)
    · intro p hp
      obtain ⟨q, hq, rfl⟩ := mem_map.mp hp
      exact (h.chain.inside q hq).symm
  have hmost := h'.most_matches _ hchain
  rwa [length_map] at hmost

theorem overlap_eq_sum (left right : List String) : multisetOverlap U.toLowercase left right =
    ∑ w ∈ (left.map U.toLowercase).toFinset,
      min ((left.map U.toLowercase).count w) ((right.map U.toLowercase).count w) := by
  rw [overlap_eq_card, ← Multiset.sum_count_eq_card fun w hw =>
    mem_toFinset.mpr (Multiset.mem_coe.mp (Multiset.mem_inter.mp hw).1)]
  refine Finset.sum_congr rfl ?_
  intro w _
  rw [Multiset.count_inter, Multiset.coe_count, Multiset.coe_count]

/-- The counts of an alignment and of its swap. -/
structure Consistent (U : CaseTables) (left right : List String) (m swapped : AgreementMetrics) :
    Prop where
  left_counted : m.tally.matched + m.tally.insertions = left.length
  right_counted : m.tally.matched + m.tally.deletions = right.length
  overlap_eq : multisetOverlap U.toLowercase left right = ∑ w ∈ (left.map U.toLowercase).toFinset,
      min ((left.map U.toLowercase).count w) ((right.map U.toLowercase).count w)
  overlap_comm : multisetOverlap U.toLowercase left right = multisetOverlap U.toLowercase right left
  /-- Neither subtraction of the order-insensitive numerator goes below zero. -/
  overlap_le : multisetOverlap U.toLowercase left right ≤ left.length ∧
    multisetOverlap U.toLowercase left right ≤ right.length
  cwer_le_wer : m.cwerNumerator ≤ m.werNumerator
  swapped_tally : swapped.tally = ⟨m.tally.matched, m.tally.deletions, m.tally.insertions⟩
  swapped_wer : swapped.werNumerator = m.werNumerator
  swapped_cwer : swapped.cwerNumerator = m.cwerNumerator

/-- Every word is matched or counted once; the common words are the multiset intersection after case folding,
  never fewer than the matched ones; swapping the runs swaps insertions and deletions. -/
theorem agreement_consistent (U : CaseTables) (left right : List String) (exLeft exRight : ℕ) :
    Consistent U left right (agreementMetrics U left right exLeft exRight)
      (agreementMetrics U right left exRight exLeft) := by
  have hmode : MatchMode.caseInsensitive.Symmetric := trivial
  have hbest := align_words_best hmode left right
  have hbest' := align_words_best hmode right left
  obtain ⟨hm, hi, hd⟩ := tally_foldl (align left right .caseInsensitive) ⟨0, 0, 0⟩
  obtain ⟨hm', hi', hd'⟩ := tally_foldl (align right left .caseInsensitive) ⟨0, 0, 0⟩
  simp only [hbest.payload_once, hbest.reference_once, length_range, Nat.zero_add] at hm hi hd
  simp only [hbest'.payload_once, hbest'.reference_once, length_range, Nat.zero_add] at hm' hi' hd'
  have hle := matched_le_overlap (U := U) hbest
  have hswap := matched_swap hbest hbest'
  have hswap' := matched_swap hbest' hbest
  have hcomm := @multisetOverlap_comm U.toLowercase left right
  have hleft := overlap_le_left (U := U) left right
  have hright := overlap_le_left (U := U) right left
  refine ⟨hi, hd, overlap_eq_sum left right, hcomm, ⟨hleft, hcomm ▸ hright⟩, ?_, ?_, ?_, ?_⟩
  · simp only [agreementMetrics, AgreementMetrics.werNumerator]
    omega
  · simp only [agreementMetrics]
    ext <;> simp only <;> omega
  · simp only [agreementMetrics, AgreementMetrics.werNumerator]
    omega
  · simp only [agreementMetrics]
    omega

-- the runs share both words, but not their order
example : (agreementMetrics .ascii ["the", "Dog"] ["dog", "the"] 0 0).cwerNumerator = 0 ∧
    (agreementMetrics .ascii ["the", "Dog"] ["dog", "the"] 0 0).werNumerator = 2 := by
  decide +kernel

end Batchalign.Compare
