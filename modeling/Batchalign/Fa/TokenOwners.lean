import Batchalign.Fa.TokenMap

/- Which labels of the residue a word owns, read off the matched pairs of characters: owners go forward
   with the labels (`owner_mono`), and the claims of two words cannot meet (`claim_lt_claim`). -/
namespace Batchalign.Fa
open DpAlign Segments Chain List

theorem eq_of_filterMap_nodup {α β : Type} {f : α → Option β} {l : List α} (h : (l.filterMap f).Nodup) {x y : α}
    {b : β} (hx : x ∈ l) (hy : y ∈ l) (hfx : f x = some b) (hfy : f y = some b) : x = y := by
  induction l with
  | nil => cases hx
  | cons z l ih =>
    rw [filterMap_cons] at h
    -- `b` cannot come from the head and from the tail
    have hhead : f z = some b → ∀ w ∈ l, f w ≠ some b := by
      intro hz w hw hfw
      rw [hz] at h
      exact (nodup_cons.mp h).1 (mem_filterMap.mpr ⟨w, hw, hfw⟩)
    have htail : (l.filterMap f).Nodup := by
      split at h
      · exact h
      · exact h.of_cons
    cases hx with
    | head =>
      cases hy with
      | head => rfl
      | tail _ hy => exact absurd hfy (hhead hfx y hy)
    | tail _ hx =>
      cases hy with
      | head => exact absurd hfx (hhead hfy x hx)
      | tail _ hy => exact ih htail hx hy

section Pairs
variable (ws ls : List (List Char))

def residuePairs : List (ℕ × ℕ) := matchedPairs (residueAlignment ws ls)

theorem residue_optimal : OptimalScript (alignableChar .exact) ws.flatten ls.flatten (residueAlignment ws ls) :=
  align_chars_best .exact ws.flatten ls.flatten

theorem residue_chain : IsChain (rel (alignableChar .exact) ws.flatten ls.flatten) ws.flatten.length
    ls.flatten.length (residuePairs ws ls) := (residue_optimal ws ls).chain

end Pairs

variable {ws ls : List (List Char)} {p r w w' l l' : ℕ}

theorem mem_residuePairs : (p, r) ∈ residuePairs ws ls ↔ ∃ key, .matched key p r ∈ residueAlignment ws ls :=
  mem_matchedPairs

theorem wordOfChar_eq (hw : w < ws.length) (hlow : offset ws w ≤ p) (hhigh : p < offset ws (w + 1)) :
    wordOfChar ws p = w := by
  have hslot := (slotsFrom_getElem? 0 ws p w).mpr ⟨hw, hlow, hhigh⟩
  unfold wordOfChar
  rw [hslot, Option.getD_some, zero_add]

theorem wordOfChar_spec (hp : p < ws.flatten.length) :
    wordOfChar ws p < ws.length ∧ offset ws (wordOfChar ws p) ≤ p ∧ p < offset ws (wordOfChar ws p + 1) := by
  obtain ⟨i, hi, hlow, hhigh⟩ := slot_exists hp
  rw [wordOfChar_eq hi hlow hhigh]
  exact ⟨hi, hlow, hhigh⟩

theorem wordOfChar_mono (ws : List (List Char)) (hp : p ≤ r) (hr : r < ws.flatten.length) : wordOfChar ws p ≤ wordOfChar ws r := by
  have hlow : wordOfChar ws p < ws.length ∧ offset ws (wordOfChar ws p) ≤ p ∧ p < offset ws (wordOfChar ws p + 1) :=
    wordOfChar_spec (by omega)
  have hhigh := wordOfChar_spec hr
  by_contra hlt
  push Not at hlt
  have hmono : offset ws (wordOfChar ws r + 1) ≤ offset ws (wordOfChar ws p) := offset_mono ws hlt
  omega

theorem labelOfChar_eq_wordOfChar (ls : List (List Char)) : labelOfChar ls = wordOfChar ls := rfl

theorem pair_inside {q : ℕ × ℕ} (hq : q ∈ residuePairs ws ls) :
    q.1 < ws.flatten.length ∧ q.2 < ls.flatten.length := (residue_chain ws ls).inside q hq

theorem fst_lt_of_label_lt {q q' : ℕ × ℕ} (hq : q ∈ residuePairs ws ls) (hq' : q' ∈ residuePairs ws ls)
    (h : labelOfChar ls q.2 < labelOfChar ls q'.2) : q.1 < q'.1 := by
  rw [lt_iff_of_chain (residue_chain ws ls) hq hq']
  by_contra hle
  push Not at hle
  have hmono := wordOfChar_mono ls hle (pair_inside hq).2
  rw [labelOfChar_eq_wordOfChar] at h
  omega

theorem shared_pos_iff : 0 < shared ws ls w l ↔
    ∃ q ∈ residuePairs ws ls, wordOfChar ws q.1 = w ∧ labelOfChar ls q.2 = l := by
  unfold shared
  rw [countP_pos_iff]
  constructor
  · rintro ⟨x, hx, hcount⟩
    cases x with
    | matched key p r =>
      simp only [Bool.and_eq_true, beq_iff_eq] at hcount
      exact ⟨(p, r), mem_residuePairs.mpr ⟨key, hx⟩, hcount⟩
    | extraPayload key p => cases hcount
    | extraReference key r => cases hcount
  · rintro ⟨⟨p, r⟩, hq, hword, hlabel⟩
    obtain ⟨key, hx⟩ := mem_residuePairs.mp hq
    refine ⟨_, hx, ?_⟩
    simp only [Bool.and_eq_true, beq_iff_eq]
    exact ⟨hword, hlabel⟩

theorem countP_extra_eq_zero_iff {xs : List (List Char)} {idx : AlignResult → Option ℕ} {extra : AlignResult → Bool}
    {s : ℕ} (honce : (residueAlignment ws ls).filterMap idx = range xs.flatten.length)
    (hextra : ∀ x, extra x = true ↔ x.pair? = none ∧ ∃ p, idx x = some p ∧ wordOfChar xs p = s) (hs : s < xs.length) :
    (residueAlignment ws ls).countP extra = 0 ↔ ∀ p, offset xs s ≤ p → p < offset xs (s + 1) →
      ∃ x ∈ residueAlignment ws ls, x.pair? ≠ none ∧ idx x = some p := by
  have hnodup : ((residueAlignment ws ls).filterMap idx).Nodup := by
    rw [honce]
    exact nodup_range
  rw [countP_eq_zero]
  constructor
  · intro h p hlow hhigh
    have hmono := offset_mono xs (show s + 1 ≤ xs.length from hs)
    rw [offset_length] at hmono
    have hmem : p ∈ (residueAlignment ws ls).filterMap idx := by
      rw [honce, mem_range]
      omega
    obtain ⟨x, hx, hidx⟩ := mem_filterMap.mp hmem
    refine ⟨x, hx, fun hnone => ?_, hidx⟩
    exact h x hx ((hextra x).mpr ⟨hnone, p, hidx, wordOfChar_eq hs hlow hhigh⟩)
  · intro h x hx hcount
    obtain ⟨hnone, p, hidx, hword⟩ := (hextra x).mp hcount
    have hp : p < xs.flatten.length := by
      rw [← mem_range, ← honce]
      exact mem_filterMap.mpr ⟨x, hx, hidx⟩
    have hspec := wordOfChar_spec hp
    rw [hword] at hspec
    obtain ⟨y, hy, hpair, hidy⟩ := h p hspec.2.1 hspec.2.2
    cases eq_of_filterMap_nodup hnodup hx hy hidx hidy
    exact hpair hnone

theorem unmatchedWordChars_eq_zero_iff (hw : w < ws.length) : unmatchedWordChars ws ls w = 0 ↔
    ∀ p, offset ws w ≤ p → p < offset ws (w + 1) → ∃ r, (p, r) ∈ residuePairs ws ls := by
  refine (countP_extra_eq_zero_iff (residue_optimal ws ls).payload_once ?_ hw).trans ?_
  · intro x
    cases x <;> simp [AlignResult.pair?, AlignResult.payloadIdx?]
  · refine forall₃_congr fun p _ _ => ⟨?_, ?_⟩
    · rintro ⟨x, hx, hpair, hidx⟩
      cases x with
      | matched key p r =>
        cases hidx
        exact ⟨r, mem_residuePairs.mpr ⟨key, hx⟩⟩
      | extraPayload key p => exact absurd rfl hpair
      | extraReference key r => exact absurd rfl hpair
    · rintro ⟨r, hr⟩
      obtain ⟨key, hx⟩ := mem_residuePairs.mp hr
      exact ⟨_, hx, Option.some_ne_none _, rfl⟩

theorem unmatchedLabelChars_eq_zero_iff (hl : l < ls.length) : unmatchedLabelChars ws ls l = 0 ↔
    ∀ r, offset ls l ≤ r → r < offset ls (l + 1) → ∃ p, (p, r) ∈ residuePairs ws ls := by
  refine (countP_extra_eq_zero_iff (residue_optimal ws ls).reference_once ?_ hl).trans ?_
  · intro x
    cases x <;> simp [AlignResult.pair?, AlignResult.referenceIdx?, labelOfChar_eq_wordOfChar]
  · refine forall₃_congr fun r _ _ => ⟨?_, ?_⟩
    · rintro ⟨x, hx, hpair, hidx⟩
      cases x with
      | matched key p r =>
        cases hidx
        exact ⟨p, mem_residuePairs.mpr ⟨key, hx⟩⟩
      | extraPayload key p => exact absurd rfl hpair
      | extraReference key r => exact absurd rfl hpair
    · rintro ⟨p, hp⟩
      obtain ⟨key, hx⟩ := mem_residuePairs.mp hp
      exact ⟨_, hx, Option.some_ne_none _, rfl⟩

/-! ## Owners -/

theorem foldl_betterOwner (words : List ℕ) (best : Option (ℕ × ℕ)) :
    (words.foldl (betterOwner ws ls l) best = none → best = none ∧ ∀ w ∈ words, shared ws ls w l = 0) ∧
      ∀ w n, words.foldl (betterOwner ws ls l) best = some (w, n) →
        best = some (w, n) ∨ (w ∈ words ∧ 0 < shared ws ls w l) := by
  induction words generalizing best with
  | nil =>
    refine ⟨?_, ?_⟩
    · intro h
      refine ⟨h, ?_⟩
      intro w hw
      cases hw
    · intro w n h
      exact Or.inl h
  | cons word words ih =>
    obtain ⟨hnone, hsome⟩ := ih (betterOwner ws ls l best word)
    rw [foldl_cons]
    refine ⟨?_, ?_⟩
    · intro h
      obtain ⟨hbest, hrest⟩ := hnone h
      unfold betterOwner at hbest
      simp only at hbest
      split at hbest
      · next hzero =>
        refine ⟨hbest, ?_⟩
        intro w hw
        cases hw with
        | head => exact hzero
        | tail _ hw => exact hrest w hw
      · split at hbest
        · cases hbest
        · split at hbest <;> cases hbest
    · intro w n h
      obtain hbest | ⟨hw, hpos⟩ := hsome w n h
      · unfold betterOwner at hbest
        simp only at hbest
        split at hbest
        · exact Or.inl hbest
        · next hpos =>
          have hhere : 0 < shared ws ls word l := Nat.pos_of_ne_zero hpos
          split at hbest
          · cases hbest
            exact Or.inr ⟨mem_cons_self .., hhere⟩
          · split at hbest
            · cases hbest
              exact Or.inr ⟨mem_cons_self .., hhere⟩
            · exact Or.inl hbest
      · exact Or.inr ⟨mem_cons_of_mem _ hw, hpos⟩

theorem owner_shares (h : owner ws ls l = some w) :
    w < ws.length ∧ ∃ q ∈ residuePairs ws ls, wordOfChar ws q.1 = w ∧ labelOfChar ls q.2 = l := by
  obtain ⟨⟨word, n⟩, hfold, rfl⟩ := Option.map_eq_some_iff.mp h
  obtain hbest | ⟨hword, hpos⟩ := (foldl_betterOwner (range ws.length) none).2 word n hfold
  · cases hbest
  · exact ⟨mem_range.mp hword, shared_pos_iff.mp hpos⟩

theorem owner_isSome {q : ℕ × ℕ} (hq : q ∈ residuePairs ws ls) : ∃ w, owner ws ls (labelOfChar ls q.2) = some w := by
  cases hown : owner ws ls (labelOfChar ls q.2) with
  | some w => exact ⟨w, rfl⟩
  | none =>
    unfold owner at hown
    rw [Option.map_eq_none_iff] at hown
    have hzero := ((foldl_betterOwner (range ws.length) none).1 hown).2 (wordOfChar ws q.1)
      (mem_range.mpr (wordOfChar_spec (pair_inside hq).1).1)
    have hpos := shared_pos_iff.mpr ⟨q, hq, rfl, rfl⟩
    omega

theorem owner_mono (h : owner ws ls l = some w) (h' : owner ws ls l' = some w') (hlt : l < l') : w ≤ w' := by
  obtain ⟨-, q, hq, rfl, rfl⟩ := owner_shares h
  obtain ⟨-, q', hq', rfl, rfl⟩ := owner_shares h'
  exact wordOfChar_mono ws (le_of_lt (fst_lt_of_label_lt hq hq' hlt)) (pair_inside hq').1

theorem ownersAreMonotoneFrom_of_pairwise (words : List ℕ) (hwords : words.Pairwise (· ≤ ·)) (previous : Option ℕ)
    (hprevious : ∀ n, previous = some n → ∀ w ∈ words, n ≤ w) : ownersAreMonotoneFrom previous words = true := by
  induction words generalizing previous with
  | nil => cases previous <;> rfl
  | cons word words ih =>
    have hrest := ih hwords.of_cons (some word) (by
      intro n hn w hw
      cases hn
      exact (pairwise_cons.mp hwords).1 w hw)
    cases previous with
    | none => exact hrest
    | some n =>
      have hle := hprevious n rfl word (mem_cons_self ..)
      unfold ownersAreMonotoneFrom
      rw [if_neg (by omega)]
      exact hrest

theorem owners_monotone (ws ls : List (List Char)) :
    ownersAreMonotone ((range ls.length).map (owner ws ls)) = true := by
  apply ownersAreMonotoneFrom_of_pairwise
  · rw [filterMap_map, pairwise_filterMap]
    exact pairwise_lt_range.imp fun {l l'} hlt w hw w' hw' => owner_mono hw hw' hlt
  · intro n hn
    cases hn

/-! ## Claims -/

theorem mem_ownedLabels : l ∈ ownedLabels ws ls w ↔ l < ls.length ∧ owner ws ls l = some w := by
  unfold ownedLabels
  rw [mem_filter, mem_range, beq_iff_eq]

theorem claim_spec {first last : ℕ} (h : claim ws ls w = some (first, last)) :
    (first ∈ ownedLabels ws ls w ∧ last ∈ ownedLabels ws ls w) ∧
      ∀ l ∈ ownedLabels ws ls w, first ≤ l ∧ l ≤ last := by
  have hsorted : (ownedLabels ws ls w).Pairwise (· < ·) := pairwise_lt_range.filter _
  unfold claim at h
  split at h
  · next first' last' hfirst hlast =>
    cases h
    refine ⟨⟨mem_of_head? hfirst, mem_of_getLast? hlast⟩, ?_⟩
    intro l hl
    refine ⟨?_, ?_⟩
    · obtain ⟨rest, hrest⟩ := head?_eq_some_iff.mp hfirst
      rw [hrest] at hl hsorted
      cases hl with
      | head => exact le_refl _
      | tail _ hl => exact le_of_lt ((pairwise_cons.mp hsorted).1 l hl)
    · obtain ⟨front, hfront⟩ := getLast?_eq_some_iff.mp hlast
      rw [hfront] at hl hsorted
      rw [mem_append, mem_singleton] at hl
      obtain hl | rfl := hl
      · exact le_of_lt ((pairwise_append.mp hsorted).2.2 l hl last (mem_singleton.mpr rfl))
      · exact le_refl _
  · cases h

theorem claim_eq_none_iff : claim ws ls w = none ↔ ∀ l < ls.length, owner ws ls l ≠ some w := by
  have hempty : ownedLabels ws ls w = [] ↔ ∀ l < ls.length, owner ws ls l ≠ some w := by
    rw [eq_nil_iff_forall_not_mem]
    constructor
    · intro h l hl howner
      exact h l (mem_ownedLabels.mpr ⟨hl, howner⟩)
    · intro h l hl
      obtain ⟨hlt, howner⟩ := mem_ownedLabels.mp hl
      exact h l hlt howner
  rw [← hempty]
  unfold claim
  cases hlist : ownedLabels ws ls w with
  | nil => simp
  | cons l rest =>
    rw [head?_cons, getLast?_cons]
    simp

theorem claim_lt_claim {first last first' last' : ℕ} (h : claim ws ls w = some (first, last))
    (h' : claim ws ls w' = some (first', last')) (hlt : w < w') : last < first' := by
  obtain ⟨⟨-, hlast⟩, -⟩ := claim_spec h
  obtain ⟨⟨hfirst, -⟩, -⟩ := claim_spec h'
  have howner := (mem_ownedLabels.mp hlast).2
  have howner' := (mem_ownedLabels.mp hfirst).2
  by_contra hle
  push Not at hle
  obtain heq | hgt := eq_or_lt_of_le hle
  · rw [heq, howner] at howner'
    cases howner'
    exact lt_irrefl _ hlt
  · have hmono := owner_mono howner' howner hgt
    omega

end Batchalign.Fa
