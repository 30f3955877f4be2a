import Batchalign.Fa.TokenOwners

/- What the attribution of labels gives. The runs of different words are disjoint and in order
   (`residue_runs_ordered`). The count of edits is exact where no label is shared and no unmatched one
   stands inside a run (`exact_iff_spelled`). -/
namespace Batchalign.Fa
open DpAlign Segments Chain List
open Option (map_eq_some_iff)

variable {ws ls : List (List Char)} {w w' : ℕ} {hasPrefix : Bool} {placed placed' : Attribution}

/-! ## Runs -/

theorem residueAttribution_cases (h : residueAttribution ws ls hasPrefix w = some placed) :
    (∃ first last, claim ws ls w = some (first, last) ∧ placed.run = ⟨first, last⟩ ∧
      placed.edits = ⟨unmatchedWordChars ws ls w, ((ownedLabels ws ls w).map (unmatchedLabelChars ws ls)).sum⟩) ∨
    (claim ws ls w = none ∧ ∃ left right last, leftBracket ws ls hasPrefix w = some left ∧
      claim ws ls (w + 1) = some (right, last) ∧ left < right ∧ placed.run = ⟨left, right - 1⟩ ∧
      placed.edits.transcriptOnly = unmatchedWordChars ws ls w) := by
  unfold residueAttribution at h
  split at h
  · next first last hclaim =>
    obtain ⟨run, hrun, rfl⟩ := Option.map_eq_some_iff.mp h
    unfold LabelRun.through at hrun
    split at hrun
    · cases hrun
      exact Or.inl ⟨first, last, hclaim, rfl, rfl⟩
    · cases hrun
  · next hclaim =>
    obtain ⟨run, hrun, rfl⟩ := Option.map_eq_some_iff.mp h
    unfold bracketed at hrun
    split at hrun
    · next left right last hleft hright =>
      split at hrun
      · next hlt =>
        unfold LabelRun.through at hrun
        split at hrun
        · cases hrun
          exact Or.inr ⟨hclaim, left, right, last, hleft, hright, hlt, rfl, rfl⟩
        · cases hrun
      · cases hrun
    · cases hrun

theorem residue_run_inside (h : residueAttribution ws ls hasPrefix w = some placed) :
    placed.run.first ≤ placed.run.last ∧ placed.run.last < ls.length := by
  obtain ⟨first, last, hclaim, hrun, -⟩ | ⟨-, left, right, last, -, hright, hlt, hrun, -⟩ :=
    residueAttribution_cases h
  · obtain ⟨⟨hfirst, hlast⟩, hbetween⟩ := claim_spec hclaim
    rw [hrun]
    exact ⟨(hbetween first hfirst).2, (mem_ownedLabels.mp hlast).1⟩
  · obtain ⟨⟨hfirst, -⟩, -⟩ := claim_spec hright
    have hbound := (mem_ownedLabels.mp hfirst).1
    rw [hrun]
    exact ⟨by simp only; omega, by simp only; omega⟩

variable {first last : ℕ}

theorem claim_ordered (h : claim ws ls w = some (first, last)) : first ≤ last :=
  ((claim_spec h).2 first (claim_spec h).1.1).2

theorem claim_lt_run (h : claim ws ls w = some (first, last))
    (h' : residueAttribution ws ls hasPrefix w' = some placed') (hlt : w < w') : last < placed'.run.first := by
  obtain ⟨first', last', hclaim', hrun', -⟩ | ⟨-, left, right, rlast, hleft, -, -, hrun', -⟩ :=
    residueAttribution_cases h'
  · rw [hrun']
    exact claim_lt_claim h hclaim' hlt
  · rw [hrun']
    unfold leftBracket at hleft
    rw [if_neg (by omega)] at hleft
    obtain ⟨⟨pfirst, plast⟩, hprevious, rfl⟩ := Option.map_eq_some_iff.mp hleft
    show last < plast + 1
    obtain heq | hbefore := Nat.eq_or_lt_of_le (show w ≤ w' - 1 by omega)
    · rw [heq, hprevious] at h
      cases h
      exact Nat.lt_succ_self _
    · have hlast := claim_lt_claim h hprevious hbefore
      have hprev := claim_ordered hprevious
      omega

theorem residue_runs_ordered (h : residueAttribution ws ls hasPrefix w = some placed)
    (h' : residueAttribution ws ls hasPrefix w' = some placed') (hlt : w < w') :
    placed.run.last < placed'.run.first := by
  obtain ⟨first, last, hclaim, hrun, -⟩ | ⟨-, left, right, rlast, -, hright, hgap, hrun, -⟩ :=
    residueAttribution_cases h
  · rw [hrun]
    exact claim_lt_run hclaim h' hlt
  · -- a bracketed word ends before the claim after it
    rw [hrun]
    show right - 1 < placed'.run.first
    obtain heq | hafter := Nat.eq_or_lt_of_le (show w + 1 ≤ w' from hlt)
    · subst heq
      obtain ⟨first', last', hclaim', hrun', -⟩ | ⟨hnone, -⟩ := residueAttribution_cases h'
      · rw [hright] at hclaim'
        cases hclaim'
        rw [hrun']
        show right - 1 < right
        omega
      · rw [hright] at hnone
        cases hnone
    · have hlast := claim_lt_run hright h' hafter
      have hordered := claim_ordered hright
      omega

/-! ## Spelling -/

theorem stretch_eq_iff {xs ys : List Char} {a b k : ℕ} (hx : a + k ≤ xs.length) (hy : b + k ≤ ys.length) :
    (xs.drop a).take k = (ys.drop b).take k ↔ ∀ t < k, rel (alignableChar .exact) xs ys (a + t) (b + t) = true := by
  have hrel : ∀ t < k, (rel (alignableChar .exact) xs ys (a + t) (b + t) = true ↔ xs[a + t]? = ys[b + t]?) := by
    intro t ht
    have hxt := getElem?_eq_getElem (show a + t < xs.length by omega)
    have hyt := getElem?_eq_getElem (show b + t < ys.length by omega)
    rw [rel_eq hxt hyt, hxt, hyt, Option.some.injEq]
    show (ys[b + t] == xs[a + t]) = true ↔ _
    rw [beq_iff_eq]
    exact eq_comm
  constructor
  · intro h t ht
    rw [hrel t ht]
    have hget := congrArg (fun l => l[t]?) h
    simp only [getElem?_take_of_lt ht, getElem?_drop] at hget
    exact hget
  · intro h
    apply ext_getElem?
    intro t
    by_cases ht : t < k
    · rw [getElem?_take_of_lt ht, getElem?_take_of_lt ht, getElem?_drop, getElem?_drop]
      exact (hrel t ht).mp (h t ht)
    · rw [getElem?_take_eq_none (by omega), getElem?_take_eq_none (by omega)]

def runText (ls : List (List Char)) (run : LabelRun) : List Char :=
  ((ls.drop run.first).take (run.last + 1 - run.first)).flatten

theorem word_eq_stretch {word : List Char} (h : ws[w]? = some word) :
    (ws.flatten.drop (offset ws w)).take word.length = word := by
  have hlen : offset ws (w + 1) - offset ws w = word.length := by
    rw [offset_succ h]
    omega
  have hstretch := drop_take_flatten ws (show w ≤ w + 1 from Nat.le_succ w)
  rw [hlen] at hstretch
  rw [hstretch, Nat.add_sub_cancel_left, take_one, head?_drop, h, Option.toList_some, flatten_singleton]

theorem runText_eq_stretch (ls : List (List Char)) {run : LabelRun} (h : run.first ≤ run.last) : runText ls run =
    (ls.flatten.drop (offset ls run.first)).take (offset ls (run.last + 1) - offset ls run.first) := by
  unfold runText
  rw [drop_take_flatten ls (show run.first ≤ run.last + 1 by omega)]

/-! ## Labels of one word -/

section Condition
variable (ws ls)

def Unstraddled : Prop :=
  ∀ q ∈ residuePairs ws ls, ∀ q' ∈ residuePairs ws ls, labelOfChar ls q.2 = labelOfChar ls q'.2 →
    wordOfChar ws q.1 = wordOfChar ws q'.1

def Unbroken : Prop :=
  ∀ q ∈ residuePairs ws ls, ∀ q' ∈ residuePairs ws ls, wordOfChar ws q.1 = wordOfChar ws q'.1 →
    ∀ l, labelOfChar ls q.2 < l → l < labelOfChar ls q'.2 → ∃ q'' ∈ residuePairs ws ls, labelOfChar ls q''.2 = l

end Condition

variable {q : ℕ × ℕ}

theorem Unstraddled.owner (h : Unstraddled ws ls) (hq : q ∈ residuePairs ws ls) :
    owner ws ls (labelOfChar ls q.2) = some (wordOfChar ws q.1) := by
  obtain ⟨w, hw⟩ := owner_isSome hq
  obtain ⟨-, q', hq', rfl, hlabel⟩ := owner_shares hw
  rw [hw, h q hq q' hq' hlabel.symm]

section
variable (hq : q ∈ residuePairs ws ls)
include hq

theorem labelOfChar_spec : labelOfChar ls q.2 < ls.length ∧
    offset ls (labelOfChar ls q.2) ≤ q.2 ∧ q.2 < offset ls (labelOfChar ls q.2 + 1) :=
  wordOfChar_spec (pair_inside hq).2

theorem label_cases (run : LabelRun) : (q.2 < offset ls run.first ↔ labelOfChar ls q.2 < run.first) ∧
      (offset ls (run.last + 1) ≤ q.2 ↔ run.last < labelOfChar ls q.2) := by
  obtain ⟨-, hlow, hhigh⟩ := labelOfChar_spec hq
  refine ⟨?_, ?_⟩
  · constructor
    · intro h
      by_contra hge
      push Not at hge
      have hmono := offset_mono ls hge
      omega
    · intro h
      have hmono : offset ls (labelOfChar ls q.2 + 1) ≤ offset ls run.first := offset_mono ls h
      omega
  · constructor
    · intro h
      by_contra hle
      push Not at hle
      have hmono : offset ls (labelOfChar ls q.2 + 1) ≤ offset ls (run.last + 1) :=
        offset_mono ls (Nat.succ_le_succ hle)
      omega
    · intro h
      have hmono : offset ls (run.last + 1) ≤ offset ls (labelOfChar ls q.2) := offset_mono ls h
      omega

theorem word_cases (w : ℕ) :
    (q.1 < offset ws w ↔ wordOfChar ws q.1 < w) ∧ (offset ws (w + 1) ≤ q.1 ↔ w < wordOfChar ws q.1) := by
  obtain ⟨-, hlow, hhigh⟩ := wordOfChar_spec (pair_inside hq).1
  refine ⟨?_, ?_⟩
  · constructor
    · intro h
      by_contra hge
      push Not at hge
      have hmono := offset_mono ws hge
      omega
    · intro h
      have hmono : offset ws (wordOfChar ws q.1 + 1) ≤ offset ws w := offset_mono ws h
      omega
  · constructor
    · intro h
      by_contra hle
      push Not at hle
      have hmono : offset ws (wordOfChar ws q.1 + 1) ≤ offset ws (w + 1) := offset_mono ws (Nat.succ_le_succ hle)
      omega
    · intro h
      have hmono : offset ws (w + 1) ≤ offset ws (wordOfChar ws q.1) := offset_mono ws h
      omega

end

theorem isolates_of_labels (run : LabelRun)
    (h : ∀ q ∈ residuePairs ws ls, (wordOfChar ws q.1 < w ∧ labelOfChar ls q.2 < run.first) ∨
      (wordOfChar ws q.1 = w ∧ run.first ≤ labelOfChar ls q.2 ∧ labelOfChar ls q.2 ≤ run.last) ∨
      (w < wordOfChar ws q.1 ∧ run.last < labelOfChar ls q.2)) :
    Isolates (residuePairs ws ls) (offset ws w) (offset ws (w + 1)) (offset ls run.first)
      (offset ls (run.last + 1)) := by
  intro q hq
  have hword := word_cases hq w
  have hlabel := label_cases hq run
  obtain hcase | hcase | hcase := h q hq
  · exact Or.inl ⟨hword.1.mpr hcase.1, hlabel.1.mpr hcase.2⟩
  · refine Or.inr (Or.inl ⟨⟨?_, ?_⟩, ?_, ?_⟩)
    · by_contra hlt
      omega
    · by_contra hge
      omega
    · by_contra hlt
      omega
    · by_contra hge
      omega
  · exact Or.inr (Or.inr ⟨hword.2.mpr hcase.1, hlabel.2.mpr hcase.2⟩)

theorem isolates_claim (h : Unstraddled ws ls) (hclaim : claim ws ls w = some (first, last)) :
    Isolates (residuePairs ws ls) (offset ws w) (offset ws (w + 1)) (offset ls first) (offset ls (last + 1)) := by
  obtain ⟨⟨hfirst, hlast⟩, hbetween⟩ := claim_spec hclaim
  have hownFirst := (mem_ownedLabels.mp hfirst).2
  have hownLast := (mem_ownedLabels.mp hlast).2
  apply isolates_of_labels ⟨first, last⟩
  intro q hq
  have howner := h.owner hq
  obtain hlt | heq | hgt := lt_trichotomy (wordOfChar ws q.1) w
  · refine Or.inl ⟨hlt, ?_⟩
    -- an owned label at or after the first would be owned by `w` or later
    by_contra hge
    push Not at hge
    obtain hsame | hafter := Nat.eq_or_lt_of_le hge
    · rw [← hsame, hownFirst] at howner
      cases howner
      exact lt_irrefl _ hlt
    · have hmono := owner_mono hownFirst howner hafter
      omega
  · refine Or.inr (Or.inl ⟨heq, ?_⟩)
    rw [heq] at howner
    exact hbetween _ (mem_ownedLabels.mpr ⟨(labelOfChar_spec hq).1, howner⟩)
  · refine Or.inr (Or.inr ⟨hgt, ?_⟩)
    by_contra hle
    push Not at hle
    obtain hsame | hbefore := Nat.eq_or_lt_of_le hle
    · rw [hsame, hownLast] at howner
      cases howner
      exact lt_irrefl _ hgt
    · have hmono := owner_mono howner hownLast hbefore
      omega

theorem Unstraddled.unclaimed (h : Unstraddled ws ls) (hclaim : claim ws ls w = none) (hq : q ∈ residuePairs ws ls) :
    wordOfChar ws q.1 ≠ w := by
  intro heq
  have howner := h.owner hq
  rw [heq] at howner
  exact claim_eq_none_iff.mp hclaim _ (labelOfChar_spec hq).1 howner

theorem isolates_bracket (h : Unstraddled ws ls) (hclaim : claim ws ls w = none) {left right : ℕ}
    (hleft : leftBracket ws ls hasPrefix w = some left) (hright : claim ws ls (w + 1) = some (right, last))
    (hgap : left < right) :
    Isolates (residuePairs ws ls) (offset ws w) (offset ws (w + 1)) (offset ls left) (offset ls (right - 1 + 1)) := by
  obtain ⟨⟨hfirst, -⟩, hbetween⟩ := claim_spec hright
  have hownRight := (mem_ownedLabels.mp hfirst).2
  apply isolates_of_labels ⟨left, right - 1⟩
  intro q hq
  have howner := h.owner hq
  have hbound := (labelOfChar_spec hq).1
  obtain hlt | heq | hgt := lt_trichotomy (wordOfChar ws q.1) w
  · refine Or.inl ⟨hlt, ?_⟩
    unfold leftBracket at hleft
    rw [if_neg (by omega)] at hleft
    obtain ⟨⟨pfirst, plast⟩, hprevious, rfl⟩ := Option.map_eq_some_iff.mp hleft
    obtain ⟨⟨-, hplast⟩, hpbetween⟩ := claim_spec hprevious
    -- past the claim before, a label's owner is at least the word before
    by_contra hge
    simp only [not_lt] at hge
    have hmono := owner_mono (mem_ownedLabels.mp hplast).2 howner hge
    have hsame : wordOfChar ws q.1 = w - 1 := by omega
    rw [hsame] at howner
    have hle := (hpbetween _ (mem_ownedLabels.mpr ⟨hbound, howner⟩)).2
    omega
  · exact absurd heq (h.unclaimed hclaim hq)
  · refine Or.inr (Or.inr ⟨hgt, ?_⟩)
    by_contra hle
    simp only [not_lt] at hle
    have hmono := owner_mono howner hownRight (by omega)
    have hsame : wordOfChar ws q.1 = w + 1 := by omega
    rw [hsame] at howner
    have hge := (hbetween _ (mem_ownedLabels.mpr ⟨hbound, howner⟩)).1
    omega

/-! ## When the count is right -/

variable {word : List Char}

theorem length_inside_of_spelled (run : LabelRun) (hword : ws[w]? = some word) (hrun : run.first ≤ run.last)
    (hlast : run.last < ls.length) (hiso : Isolates (residuePairs ws ls) (offset ws w) (offset ws (w + 1))
      (offset ls run.first) (offset ls (run.last + 1))) (hspelled : runText ls run = word) :
    offset ls (run.last + 1) = offset ls run.first + word.length ∧
      word.length ≤ (inside (residuePairs ws ls) (offset ws w) (offset ws w + word.length)).length := by
  obtain ⟨hw, -⟩ := List.getElem?_eq_some_iff.mp hword
  have hstretch := runText_eq_stretch ls hrun
  have hmono : offset ls run.first ≤ offset ls (run.last + 1) := offset_mono ls (by omega)
  have hbound : offset ls (run.last + 1) ≤ ls.flatten.length := by
    rw [← offset_length]
    exact offset_mono ls hlast
  have hwbound : offset ws w + word.length ≤ ws.flatten.length := by
    rw [← offset_succ hword, ← offset_length]
    exact offset_mono ws hw
  have hlen : offset ls (run.last + 1) - offset ls run.first = word.length := by
    have hcount := congrArg List.length hstretch
    rw [hspelled, length_take, length_drop] at hcount
    omega
  have hend : offset ls (run.last + 1) = offset ls run.first + word.length := by omega
  refine ⟨hend, ?_⟩
  rw [offset_succ hword, hend] at hiso
  apply length_inside_of_longest (residue_chain ws ls) (residue_optimal ws ls).most_matches hiso hwbound (by omega)
  rw [hspelled, hlen] at hstretch
  rw [← stretch_eq_iff hwbound (by omega), word_eq_stretch hword]
  exact hstretch

theorem claim_exact_iff (hshared : Unstraddled ws ls) (hbroken : Unbroken ws ls) (hclaim : claim ws ls w = some (first, last)) (hword : ws[w]? = some word) :
    (unmatchedWordChars ws ls w = 0 ∧ ((ownedLabels ws ls w).map (unmatchedLabelChars ws ls)).sum = 0) ↔
      runText ls ⟨first, last⟩ = word := by
  obtain ⟨hw, -⟩ := List.getElem?_eq_some_iff.mp hword
  obtain ⟨⟨hfirst, hlast⟩, hbetween⟩ := claim_spec hclaim
  have hordered := claim_ordered hclaim
  have hbound := (mem_ownedLabels.mp hlast).1
  have hiso := isolates_claim hshared hclaim
  have hchain := residue_chain ws ls
  have hsucc := offset_succ hword
  have hsum : ((ownedLabels ws ls w).map (unmatchedLabelChars ws ls)).sum = 0 ↔
      ∀ l ∈ ownedLabels ws ls w, unmatchedLabelChars ws ls l = 0 := by
    rw [sum_eq_zero_iff]
    simp
  rw [hsum, unmatchedWordChars_eq_zero_iff hw]
  constructor
  · rintro ⟨hchars, hlabels⟩
    -- every label of the run is owned by the word
    have howned : ∀ l, first ≤ l → l ≤ last → l ∈ ownedLabels ws ls w := by
      intro l hlow hhigh
      have hownFirst := (mem_ownedLabels.mp hfirst).2
      have hownLast := (mem_ownedLabels.mp hlast).2
      obtain rfl | hlow := Nat.eq_or_lt_of_le hlow
      · exact hfirst
      obtain rfl | hhigh := Nat.eq_or_lt_of_le hhigh
      · exact hlast
      obtain ⟨-, q, hq, hqw, hql⟩ := owner_shares hownFirst
      obtain ⟨-, q', hq', hqw', hql'⟩ := owner_shares hownLast
      obtain ⟨q'', hq'', hlabel⟩ := hbroken q hq q' hq' (hqw.trans hqw'.symm) l (by omega) (by omega)
      have howner := hshared.owner hq''
      rw [hlabel] at howner
      have hge := owner_mono hownFirst howner hlow
      have hle := owner_mono howner hownLast hhigh
      rw [le_antisymm hle hge] at howner
      exact mem_ownedLabels.mpr ⟨by omega, howner⟩
    have hleft : ∀ p, offset ws w ≤ p → p < offset ws w + word.length → ∃ r, (p, r) ∈ residuePairs ws ls ∧
        offset ls first ≤ r ∧ r < offset ls (last + 1) := by
      intro p hlow hhigh
      obtain ⟨r, hr⟩ := hchars p hlow (by omega)
      obtain hcase | hcase | hcase := hiso (p, r) hr
      · simp only at hcase
        omega
      · exact ⟨r, hr, hcase.2⟩
      · simp only at hcase
        omega
    have hright : ∀ r, offset ls first ≤ r → r < offset ls (last + 1) → ∃ p, (p, r) ∈ residuePairs ws ls ∧
        offset ws w ≤ p ∧ p < offset ws w + word.length := by
      intro r hlow hhigh
      have hr : r < ls.flatten.length := by
        have hmono : offset ls (last + 1) ≤ offset ls ls.length := offset_mono ls hbound
        rw [offset_length] at hmono
        omega
      obtain ⟨hl, hllow, hlhigh⟩ := wordOfChar_spec hr
      have hge : first ≤ wordOfChar ls r := by
        by_contra hlt
        push Not at hlt
        have hmono : offset ls (wordOfChar ls r + 1) ≤ offset ls first := offset_mono ls hlt
        omega
      have hle : wordOfChar ls r ≤ last := by
        by_contra hgt
        push Not at hgt
        have hmono : offset ls (last + 1) ≤ offset ls (wordOfChar ls r) := offset_mono ls hgt
        omega
      have hzero := hlabels _ (howned _ hge hle)
      obtain ⟨p, hp⟩ := (unmatchedLabelChars_eq_zero_iff hl).mp hzero r hllow hlhigh
      obtain hcase | hcase | hcase := hiso (p, r) hp
      · simp only at hcase
        omega
      · exact ⟨p, hp, hcase.1.1, by simp only at hcase; omega⟩
      · simp only at hcase
        omega
    have hdiag := diagonal hchain hleft hright
    have hmono : offset ls first ≤ offset ls (last + 1) := offset_mono ls (by omega)
    -- the blocks have one length
    have hlen : offset ls (last + 1) - offset ls first = word.length := by
      by_contra hne
      obtain hlt | hgt := Nat.lt_or_gt_of_ne hne
      · have hpair := hdiag (offset ls (last + 1) - offset ls first) hlt
        obtain hcase | hcase | hcase := hiso _ hpair
        · simp only at hcase
          omega
        · simp only at hcase
          omega
        · simp only at hcase
          omega
      · obtain ⟨p, hp, hlow, hhigh⟩ := hright (offset ls first + word.length) (by omega) (by omega)
        have hpair := hdiag (p - offset ws w) (by omega)
        rw [show offset ws w + (p - offset ws w) = p from by omega] at hpair
        have hsame := eq_of_chain_fst hchain hpair hp rfl
        rw [Prod.mk.injEq] at hsame
        omega
    have hwbound : offset ws w + word.length ≤ ws.flatten.length := by
      rw [← hsucc, ← offset_length]
      exact offset_mono ws hw
    have hlbound : offset ls (last + 1) ≤ ls.flatten.length := by
      rw [← offset_length]
      exact offset_mono ls hbound
    calc runText ls ⟨first, last⟩
        = (ls.flatten.drop (offset ls first)).take word.length := by
          rw [runText_eq_stretch ls hordered, hlen]
      _ = (ws.flatten.drop (offset ws w)).take word.length := by
          symm
          rw [stretch_eq_iff hwbound (by omega)]
          intro t ht
          exact hchain.matching _ (hdiag t ht)
      _ = word := word_eq_stretch hword
  · intro hspelled
    obtain ⟨hend, hinside⟩ := length_inside_of_spelled ⟨first, last⟩ hword hordered hbound hiso hspelled
    simp only at hend
    rw [hsucc, hend] at hiso
    refine ⟨?_, ?_⟩
    · intro p hlow hhigh
      obtain ⟨⟨p', r⟩, hq, rfl⟩ := covers_left hchain hinside hlow (by omega)
      exact ⟨r, hq⟩
    · intro l hl
      have hrange := hbetween l hl
      rw [unmatchedLabelChars_eq_zero_iff (mem_ownedLabels.mp hl).1]
      intro r hlow hhigh
      have hmono : offset ls first ≤ offset ls l := offset_mono ls hrange.1
      have hmono' : offset ls (l + 1) ≤ offset ls (last + 1) := offset_mono ls (Nat.succ_le_succ hrange.2)
      obtain ⟨⟨p, r'⟩, hq, rfl⟩ := covers_right hchain hiso hinside (show offset ls first ≤ r by omega) (by omega)
      exact ⟨p, hq⟩

theorem bracket_not_exact (hshared : Unstraddled ws ls) (hclaim : claim ws ls w = none) {left right : ℕ}
    (hleft : leftBracket ws ls hasPrefix w = some left) (hright : claim ws ls (w + 1) = some (right, last))
    (hgap : left < right) (hword : ws[w]? = some word) (hne : word ≠ []) :
    unmatchedWordChars ws ls w ≠ 0 ∧ runText ls ⟨left, right - 1⟩ ≠ word := by
  obtain ⟨hw, -⟩ := List.getElem?_eq_some_iff.mp hword
  have hpos : 0 < word.length := length_pos_iff.mpr hne
  have hsucc := offset_succ hword
  refine ⟨?_, ?_⟩
  · intro hzero
    obtain ⟨r, hr⟩ := (unmatchedWordChars_eq_zero_iff hw).mp hzero (offset ws w) (le_refl _) (by omega)
    exact hshared.unclaimed hclaim hr (wordOfChar_eq hw (le_refl _) (by simp only; omega))
  · intro hspelled
    obtain ⟨⟨hfirst, -⟩, -⟩ := claim_spec hright
    have hbound := (mem_ownedLabels.mp hfirst).1
    have hiso := isolates_bracket hshared hclaim hleft hright hgap
    have hinside := (length_inside_of_spelled ⟨left, right - 1⟩ hword (by simp only; omega)
      (by simp only; omega) hiso hspelled).2
    obtain ⟨q, hq⟩ := exists_mem_of_length_pos (lt_of_lt_of_le hpos hinside)
    obtain ⟨hqc, hqin⟩ := mem_filter.mp hq
    have hblock := of_decide_eq_true hqin
    exact hshared.unclaimed hclaim hqc (wordOfChar_eq hw hblock.1 (by omega))

theorem exact_iff_spelled (hshared : Unstraddled ws ls) (hbroken : Unbroken ws ls) (hword : ws[w]? = some word)
    (hne : word ≠ []) (h : residueAttribution ws ls hasPrefix w = some placed) :
    placed.edits.isExact = true ↔ runText ls placed.run = word := by
  unfold CharEdits.isExact
  rw [Bool.and_eq_true, beq_iff_eq, beq_iff_eq]
  obtain ⟨first, last, hclaim, hrun, hedits⟩ | ⟨hclaim, left, right, last, hleft, hright, hgap, hrun, hedits⟩ :=
    residueAttribution_cases h
  · rw [hrun, hedits]
    exact claim_exact_iff hshared hbroken hclaim hword
  · obtain ⟨hchars, htext⟩ := bracket_not_exact hshared hclaim hleft hright hgap hword hne
    rw [hrun, hedits]
    exact ⟨fun h => absurd h.1 hchars, fun h => absurd h htext⟩

/-! ## The stitch -/

theorem spell_spec {rest : List Char} {labels : List (List Char)} {used : ℕ} (h : spell rest labels = some used) :
    0 < used ∧ used ≤ labels.length ∧ (labels.take used).flatten = rest := by
  induction labels generalizing rest used with
  | nil => cases h
  | cons label labels ih =>
    unfold spell at h
    split at h
    · next hstart =>
      obtain ⟨tail, rfl⟩ := hstart
      rw [drop_left] at h
      split at h
      · next hempty =>
        cases h
        have htail : tail = [] := List.isEmpty_iff.mp hempty
        subst htail
        refine ⟨Nat.one_pos, Nat.succ_le_succ (Nat.zero_le _), ?_⟩
        rw [take_succ_cons, take_zero, flatten_cons, flatten_nil]
      · obtain ⟨used', hused, rfl⟩ := Option.map_eq_some_iff.mp h
        obtain ⟨-, hlen, htext⟩ := ih hused
        refine ⟨Nat.succ_pos _, Nat.succ_le_succ hlen, ?_⟩
        rw [take_succ_cons, flatten_cons, htext]
    · cases h

/-- The stitched runs spell their words, one after another, up to the first unused label. -/
structure Stitched (labels : List (List Char)) (next : ℕ) (words : List (List Char)) (runs : List LabelRun)
    (stop : ℕ) : Prop where
  forward : next ≤ stop
  count : runs.length ≤ words.length
  inside : ∀ run ∈ runs, next ≤ run.first ∧ run.first ≤ run.last ∧ run.last < stop
  bounded : runs ≠ [] → stop ≤ labels.length
  spelled : ∀ (i : ℕ) (run : LabelRun), runs[i]? = some run → words[i]? = some (runText labels run)
  ordered : runs.Pairwise fun run run' => run.last < run'.first

theorem stitchInOrder_stitched (labels : List (List Char)) (next : ℕ) (words : List (List Char)) :
    Stitched labels next words (stitchInOrder labels next words).1 (stitchInOrder labels next words).2 := by
  induction words generalizing next with
  | nil =>
    refine ⟨le_refl _, le_refl _, ?_, ?_, ?_, List.Pairwise.nil⟩
    · intro run hrun
      cases hrun
    · intro hne
      exact absurd rfl hne
    · intro i run hrun
      cases hrun
  | cons word words ih =>
    unfold stitchInOrder
    cases hspell : spell word (labels.drop next) with
    | none =>
      refine ⟨le_refl _, Nat.zero_le _, ?_, ?_, ?_, List.Pairwise.nil⟩
      · intro run hrun
        cases hrun
      · intro hne
        exact absurd rfl hne
      · intro i run hrun
        cases hrun
    | some used =>
      obtain ⟨hpos, hlen, htext⟩ := spell_spec hspell
      have hrest := ih (next + used)
      have hforward := hrest.forward
      rw [length_drop] at hlen
      refine ⟨by simp only; omega, Nat.succ_le_succ hrest.count, ?_, ?_, ?_, ?_⟩
      · intro run hrun
        cases hrun with
        | head => exact ⟨le_refl _, by simp only; omega, by simp only; omega⟩
        | tail _ hrun =>
          have hin := hrest.inside run hrun
          exact ⟨by omega, hin.2⟩
      · intro _
        by_cases hempty : (stitchInOrder labels (next + used) words).1 = []
        · -- the next word is not spelled, so the stitch stops here
          have hstop : (stitchInOrder labels (next + used) words).2 = next + used := by
            cases words with
            | nil => rfl
            | cons word' words' =>
              unfold stitchInOrder at hempty ⊢
              split
              · rfl
              · next used' hused =>
                rw [hused] at hempty
                cases hempty
          simp only [hstop]
          omega
        · exact hrest.bounded hempty
      · intro i run hrun
        cases i with
        | zero =>
          cases hrun
          rw [getElem?_cons_zero, ← htext]
          unfold runText
          simp only
          congr 4
          omega
        | succ i => exact hrest.spelled i run hrun
      · rw [pairwise_cons]
        refine ⟨?_, hrest.ordered⟩
        intro run hrun
        have hin := hrest.inside run hrun
        simp only
        omega

/-! ## Attributions -/

section Attributions
variable (words : List (List Char)) (labels : List Label)

def residueWords : List (List Char) := words.drop (stitchInOrder (labels.map Label.norm) 0 words).1.length

def residueLabels : List (List Char) := (labels.map Label.norm).drop (stitchInOrder (labels.map Label.norm) 0 words).2

theorem attributions_length : (attributions words labels).1.length = words.length ∧
    (attributions words labels).2 ≠ .nonMonotoneAttribution := by
  have hcount := (stitchInOrder_stitched (labels.map Label.norm) 0 words).count
  unfold attributions
  simp only
  split
  · refine ⟨?_, by simp⟩
    rw [length_append, length_map, length_map, length_drop]
    omega
  · split
    · next residue hresidue =>
      have hlen : residue.length = (words.drop (stitchInOrder (labels.map Label.norm) 0 words).1.length).length := by
        unfold remapResidue at hresidue
        split at hresidue
        · cases hresidue
          rw [length_map]
        · split at hresidue
          · cases hresidue
          · split at hresidue
            · cases hresidue
            · cases hresidue
              rw [length_map, length_range]
      refine ⟨?_, by simp⟩
      rw [length_append, length_map, length_map, hlen, length_drop]
      omega
    · next refusal hrefusal =>
      refine ⟨?_, ?_⟩
      · rw [length_append, length_map, length_map, length_drop]
        omega
      · unfold remapResidue at hrefusal
        rw [owners_monotone] at hrefusal
        split at hrefusal
        · cases hrefusal
        · split at hrefusal
          · cases hrefusal
            simp
          · cases hrefusal

theorem attributions_cases {i : ℕ} {given : Attribution} (h : (attributions words labels).1[i]? = some (some given)) :
    ((stitchInOrder (labels.map Label.norm) 0 words).1[i]? = some given.run ∧ given.edits = CharEdits.zero) ∨
    ∃ k placed, i = (stitchInOrder (labels.map Label.norm) 0 words).1.length + k ∧
      residueAttribution (residueWords words labels) (residueLabels words labels)
        (0 < (stitchInOrder (labels.map Label.norm) 0 words).1.length) k = some placed ∧
      given = placed.shift (stitchInOrder (labels.map Label.norm) 0 words).2 := by
  -- before the residue the answer is the stitch's in every branch
  have hsplit : ∀ rest : List (Option Attribution),
      ((stitchInOrder (labels.map Label.norm) 0 words).1.map (fun run => some ⟨run, CharEdits.zero⟩) ++ rest)[i]? =
        some (some given) →
      ((stitchInOrder (labels.map Label.norm) 0 words).1[i]? = some given.run ∧ given.edits = CharEdits.zero) ∨
      ∃ k, i = (stitchInOrder (labels.map Label.norm) 0 words).1.length + k ∧ rest[k]? = some (some given) := by
    intro rest hget
    rw [getElem?_append, length_map] at hget
    split at hget
    · rw [getElem?_map, map_eq_some_iff] at hget
      obtain ⟨run, hrun, hgiven⟩ := hget
      cases hgiven
      exact Or.inl ⟨hrun, rfl⟩
    · exact Or.inr ⟨_, by omega, hget⟩
  have hnone : ∀ (k : ℕ) (l : List (List Char)), (l.map fun _ => (none : Option Attribution))[k]? ≠ some (some given) := by
    intro k l hget
    rw [getElem?_map, map_eq_some_iff] at hget
    obtain ⟨-, -, hgiven⟩ := hget
    cases hgiven
  unfold attributions at h
  simp only at h
  split at h
  · obtain hstitch | ⟨k, -, hget⟩ := hsplit _ h
    · exact Or.inl hstitch
    · exact absurd hget (hnone k _)
  · split at h
    · next residue hresidue =>
      obtain hstitch | ⟨k, hk, hget⟩ := hsplit _ h
      · exact Or.inl hstitch
      · rw [getElem?_map, map_eq_some_iff] at hget
        obtain ⟨place, hplace, hshift⟩ := hget
        obtain ⟨placed, rfl, rfl⟩ := Option.map_eq_some_iff.mp hshift
        refine Or.inr ⟨k, placed, hk, ?_, rfl⟩
        unfold remapResidue at hresidue
        split at hresidue
        · cases hresidue
          rw [getElem?_map, map_eq_some_iff] at hplace
          obtain ⟨-, -, hplaced⟩ := hplace
          cases hplaced
        · split at hresidue
          · cases hresidue
          · split at hresidue
            · cases hresidue
            · cases hresidue
              rw [getElem?_map, map_eq_some_iff] at hplace
              obtain ⟨k', hk', hplaced⟩ := hplace
              obtain ⟨hlt, heq⟩ := List.getElem?_eq_some_iff.mp hk'
              rw [getElem_range] at heq
              rw [heq]
              exact hplaced
    · obtain hstitch | ⟨k, -, hget⟩ := hsplit _ h
      · exact Or.inl hstitch
      · exact absurd hget (hnone k _)

variable {words labels} {i j : ℕ} {given given' : Attribution}

theorem attributed_run_inside (h : (attributions words labels).1[i]? = some (some given)) :
    given.run.first ≤ given.run.last ∧ given.run.last < labels.length := by
  have hstitched := stitchInOrder_stitched (labels.map Label.norm) 0 words
  obtain ⟨hrun, -⟩ | ⟨k, placed, -, hplaced, rfl⟩ := attributions_cases words labels h
  · have hmem := mem_of_getElem? hrun
    obtain ⟨-, hordered, hlast⟩ := hstitched.inside _ hmem
    have hstop := hstitched.bounded (ne_nil_of_mem hmem)
    rw [length_map] at hstop
    exact ⟨hordered, by omega⟩
  · obtain ⟨hordered, hlast⟩ := residue_run_inside hplaced
    unfold residueLabels at hlast
    rw [length_drop, length_map] at hlast
    unfold Attribution.shift
    exact ⟨by simp only; omega, by simp only; omega⟩

theorem attributed_runs_ordered (h : (attributions words labels).1[i]? = some (some given))
    (h' : (attributions words labels).1[j]? = some (some given')) (hlt : i < j) :
    given.run.last < given'.run.first := by
  have hstitched := stitchInOrder_stitched (labels.map Label.norm) 0 words
  obtain ⟨hrun, -⟩ | ⟨k, placed, rfl, hplaced, rfl⟩ := attributions_cases words labels h
  · obtain ⟨hrun', -⟩ | ⟨k', placed', -, -, rfl⟩ := attributions_cases words labels h'
    · obtain ⟨hi, hgiven⟩ := List.getElem?_eq_some_iff.mp hrun
      obtain ⟨hj, hgiven'⟩ := List.getElem?_eq_some_iff.mp hrun'
      rw [← hgiven, ← hgiven']
      exact pairwise_iff_getElem.mp hstitched.ordered i j hi hj hlt
    · -- the residue's labels start where the stitch stopped
      have hlast := (hstitched.inside _ (mem_of_getElem? hrun)).2.2
      unfold Attribution.shift
      simp only
      omega
  · obtain ⟨hrun', -⟩ | ⟨k', placed', rfl, hplaced', rfl⟩ := attributions_cases words labels h'
    · obtain ⟨hj, -⟩ := List.getElem?_eq_some_iff.mp hrun'
      omega
    · have hordered := residue_runs_ordered hplaced hplaced' (by omega)
      unfold Attribution.shift
      simp only
      omega

theorem runText_shift (labels : List (List Char)) (run : LabelRun) (k : ℕ) :
    runText labels ⟨run.first + k, run.last + k⟩ = runText (labels.drop k) run := by
  unfold runText
  rw [drop_drop, add_comm k run.first, show run.last + k + 1 - (run.first + k) = run.last + 1 - run.first by omega]

theorem attributed_exact_iff (hshared : Unstraddled (residueWords words labels) (residueLabels words labels))
    (hbroken : Unbroken (residueWords words labels) (residueLabels words labels))
    (hnonempty : ∀ word ∈ words, word ≠ []) {word : List Char} (hword : words[i]? = some word)
    (h : (attributions words labels).1[i]? = some (some given)) :
    given.edits.isExact = true ↔ runText (labels.map Label.norm) given.run = word := by
  obtain ⟨hrun, hedits⟩ | ⟨k, placed, rfl, hplaced, rfl⟩ := attributions_cases words labels h
  · have hspelled := (stitchInOrder_stitched (labels.map Label.norm) 0 words).spelled i _ hrun
    rw [hword, Option.some.injEq] at hspelled
    rw [hedits, hspelled]
    exact ⟨fun _ => rfl, fun _ => rfl⟩
  · have hresidue : (residueWords words labels)[k]? = some word := by
      unfold residueWords
      rw [getElem?_drop]
      exact hword
    have hexact := exact_iff_spelled hshared hbroken hresidue (hnonempty word (mem_of_getElem? hword)) hplaced
    unfold Attribution.shift
    simp only
    rw [runText_shift]
    exact hexact

end Attributions

/-! ## Outcomes -/

section Outcomes
variable (U : UnicodeTables) {R : Recording} (original : List FaWord) (tokens : List FaRawToken) (window : FaWindow R)

def groupWords : List (List Char) :=
  match wordTrack U original with
  | .ok words => words
  | .error _ => []

def groupAttributions : List (Option Attribution) :=
  (attributions (groupWords U original) (labelTrack U tokens window)).1

def Origin.isAttributed : Origin → Bool
  | .attributedByCharAlignment _ _ => true
  | _ => false

structure LabelMappingSound : Prop where
  one_each : (mapLabelsToWords U original tokens window).length = original.length
  monotone : .untimed .nonMonotoneAttribution ∉ mapLabelsToWords U original tokens window
  timed : ∀ (i : ℕ) (timing : WordTiming) (edits : CharEdits),
    (mapLabelsToWords U original tokens window)[i]? = some (.timed timing edits) →
      ∃ run, (groupAttributions U original tokens window)[i]? = some (some ⟨run, edits⟩) ∧
        run.first ≤ run.last ∧ run.last < (labelTrack U tokens window).length ∧
        (labelTrack U tokens window)[run.first]?.map Label.onset = some timing.startMs ∧
        (edits = CharEdits.zero ↔ timing.startOrigin.isAttributed = false) ∧
        (edits = CharEdits.zero ↔ timing.endOrigin.isAttributed = false)
  ordered : ∀ (i j : ℕ) (given given' : Attribution), i < j →
    (groupAttributions U original tokens window)[i]? = some (some given) →
    (groupAttributions U original tokens window)[j]? = some (some given') → given.run.last < given'.run.first

def ExactWhenSpelled : Prop :=
  ∀ (i : ℕ) (timing : WordTiming) (edits : CharEdits) (run : LabelRun) (word : FaWord),
    (mapLabelsToWords U original tokens window)[i]? = some (.timed timing edits) →
    (groupAttributions U original tokens window)[i]? = some (some ⟨run, edits⟩) → original[i]? = some word →
    (edits = CharEdits.zero ↔
      runText ((labelTrack U tokens window).map Label.norm) run = normalizeFaAlignmentUnit U word.text.toList)

/-- No label has matched characters of two words, and none without any is inside a word. -/
structure Untangled : Prop where
  shared : Unstraddled (residueWords (groupWords U original) (labelTrack U tokens window))
    (residueLabels (groupWords U original) (labelTrack U tokens window))
  broken : Unbroken (residueWords (groupWords U original) (labelTrack U tokens window))
    (residueLabels (groupWords U original) (labelTrack U tokens window))

variable {U original tokens window}

theorem wordTrack_spec {words : List (List Char)} (h : wordTrack U original = .ok words) :
    words = original.map (fun word => normalizeFaAlignmentUnit U word.text.toList) ∧ ∀ word ∈ words, word ≠ [] := by
  induction original generalizing words with
  | nil =>
    cases h
    refine ⟨rfl, ?_⟩
    intro word hword
    cases hword
  | cons first rest ih =>
    unfold wordTrack at h
    simp only at h
    split at h
    · cases h
    · next hcontent =>
      split at h
      · next norms hnorms =>
        cases h
        obtain ⟨hmap, hne⟩ := ih hnorms
        refine ⟨by rw [map_cons, hmap], ?_⟩
        intro word hword
        cases hword with
        | head =>
          intro hempty
          exact hcontent (List.isEmpty_iff.mpr hempty)
        | tail _ hword => exact hne word hword
      · cases h

theorem wordTrack_error {reason : UntimedReason} (h : wordTrack U original = .error reason) :
    reason = .noLexicalContent := by
  induction original with
  | nil => cases h
  | cons first rest ih =>
    unfold wordTrack at h
    simp only at h
    split at h
    · cases h
      rfl
    · split at h
      · cases h
      · next reason' hreason =>
        cases h
        exact ih hreason

theorem CharEdits.isExact_iff {edits : CharEdits} : edits.isExact = true ↔ edits = CharEdits.zero := by
  unfold CharEdits.isExact CharEdits.zero
  rw [Bool.and_eq_true, beq_iff_eq, beq_iff_eq, CharEdits.mk.injEq]

theorem attributed_isAttributed (edits : CharEdits) {origin : Origin} (h : origin.isAttributed = false) :
    edits = CharEdits.zero ↔ (attributed edits origin).isAttributed = false := by
  rw [← CharEdits.isExact_iff]
  unfold attributed
  split
  · next hexact => exact ⟨fun _ => h, fun _ => hexact⟩
  · next hinexact => exact ⟨fun hexact => absurd hexact hinexact, fun hplain => by cases hplain⟩

theorem spanBetween_ok {startMs endMs : ℕ} {startOrigin endOrigin : Origin} {span : WordTiming}
    (h : spanBetween startMs endMs startOrigin endOrigin = .ok span) :
    span.startMs = startMs ∧ span.startOrigin = startOrigin ∧ span.endOrigin = endOrigin := by
  unfold spanBetween at h
  split at h
  · cases h
    exact ⟨rfl, rfl, rfl⟩
  · split at h <;> cases h

variable {labels : List Label}

theorem spanFor_ok {run : LabelRun} {span : WordTiming} (h : spanFor labels window run = .ok span) :
    span.startMs = (labels[run.first]?.map Label.onset).getD 0 ∧ span.startOrigin.isAttributed = false ∧
      span.endOrigin.isAttributed = false := by
  unfold spanFor at h
  simp only at h
  split at h
  · obtain ⟨hstart, hstartOrigin, hendOrigin⟩ := spanBetween_ok h
    rw [hstartOrigin, hendOrigin]
    exact ⟨hstart, rfl, rfl⟩
  · split at h
    · obtain ⟨hstart, hstartOrigin, hendOrigin⟩ := spanBetween_ok h
      rw [hstartOrigin, hendOrigin]
      exact ⟨hstart, rfl, rfl⟩
    · obtain ⟨hstart, hstartOrigin, hendOrigin⟩ := spanBetween_ok h
      rw [hstartOrigin, hendOrigin]
      exact ⟨hstart, rfl, rfl⟩

theorem lowerToOutcome_timed {unplaced : UntimedReason} {place : Option Attribution}
    {timing : WordTiming} {edits : CharEdits} (h : lowerToOutcome labels window unplaced place = .timed timing edits) :
    ∃ run, place = some ⟨run, edits⟩ ∧ timing.startMs = (labels[run.first]?.map Label.onset).getD 0 ∧
      (edits = CharEdits.zero ↔ timing.startOrigin.isAttributed = false) ∧
      (edits = CharEdits.zero ↔ timing.endOrigin.isAttributed = false) := by
  cases place with
  | none => cases h
  | some given =>
    unfold lowerToOutcome at h
    simp only at h
    split at h
    · cases h
    · next span hspan =>
      obtain ⟨hstart, hstartOrigin, hendOrigin⟩ := spanFor_ok hspan
      split at h
      · cases h
        exact ⟨given.run, rfl, hstart, attributed_isAttributed _ hstartOrigin, attributed_isAttributed _ hendOrigin⟩
      · cases h

theorem lowerToOutcome_untimed {unplaced : UntimedReason} {place : Option Attribution}
    (hunplaced : unplaced ≠ .nonMonotoneAttribution) :
    lowerToOutcome labels window unplaced place ≠ .untimed .nonMonotoneAttribution := by
  intro h
  cases place with
  | none =>
    cases h
    exact hunplaced rfl
  | some given =>
    unfold lowerToOutcome at h
    simp only at h
    split at h
    · cases h
    · split at h <;> cases h

theorem mapLabelsToWords_cases (U : UnicodeTables) (original : List FaWord) (tokens : List FaRawToken)
    (window : FaWindow R) : (∃ reason, reason ≠ .nonMonotoneAttribution ∧
      mapLabelsToWords U original tokens window = original.map fun _ => .untimed reason) ∨
    ∃ words unplaced, wordTrack U original = .ok words ∧ unplaced ≠ .nonMonotoneAttribution ∧
      mapLabelsToWords U original tokens window =
        (groupAttributions U original tokens window).map (lowerToOutcome (labelTrack U tokens window) window unplaced) := by
  unfold mapLabelsToWords groupAttributions groupWords
  cases hwords : wordTrack U original with
  | error reason =>
    have hreason := wordTrack_error hwords
    refine Or.inl ⟨reason, ?_, rfl⟩
    rw [hreason]
    simp
  | ok words =>
    simp only
    split
    · exact Or.inl ⟨.noUsableLabels, by simp only [ne_eq, reduceCtorEq, not_false_eq_true], rfl⟩
    · exact Or.inr ⟨words, _, rfl, (attributions_length words (labelTrack U tokens window)).2, rfl⟩

end Outcomes

/-! ## A label that overshoots its word -/

def asciiTables : UnicodeTables where
  toLowercase c := [c.toLower]
  nfc := id
  isAlphanumeric := Char.isAlphanum
  isWhitespace := Char.isWhitespace

/-- The words `ab` and `cd` of one utterance. -/
def abCd : List FaWord := [⟨0, 0, "ab"⟩, ⟨0, 1, "cd"⟩]

/-- The labels `abc` and `d`. -/
def abcD : List FaRawToken := [⟨['a', 'b', 'c'], 0⟩, ⟨['d'], 300⟩]

def oneSecond : FaWindow ⟨1000, by decide, by decide⟩ := ⟨0, 1000, by decide, by decide⟩

/-- The labels `a`, `bx` and `cd`. -/
def abxCd : List FaRawToken := [⟨['a'], 0⟩, ⟨['b', 'x'], 100⟩, ⟨['c', 'd'], 300⟩]

theorem residuePairs_abxCd : residuePairs [['a', 'b'], ['c', 'd']] [['a'], ['b', 'x'], ['c', 'd']] =
    [(0, 0), (1, 1), (2, 3), (3, 4)] := by
  have halign : residueAlignment [['a', 'b'], ['c', 'd']] [['a'], ['b', 'x'], ['c', 'd']] =
      [.matched "a" 0 0, .matched "b" 1 1, .extraReference "x" 2, .matched "c" 2 3, .matched "d" 3 4] := by
    show alignGeneric (alignableChar .exact) ['a', 'b', 'c', 'd'] ['a', 'b', 'x', 'c', 'd'] = _
    unfold alignGeneric
    unfold hirschberg
    rfl
  rw [residuePairs, halign]
  rfl

theorem residueAlignment_abCd : residueAlignment [['a', 'b'], ['c', 'd']] [['a', 'b', 'c'], ['d']] =
    [.matched "a" 0 0, .matched "b" 1 1, .matched "c" 2 2, .matched "d" 3 3] := by
  show alignGeneric (alignableChar .exact) ['a', 'b', 'c', 'd'] ['a', 'b', 'c', 'd'] = _
  unfold alignGeneric
  unfold hirschberg
  rfl

theorem groupAttributions_abCd : groupAttributions asciiTables abCd abcD oneSecond =
    [some ⟨⟨0, 0⟩, CharEdits.zero⟩, some ⟨⟨1, 1⟩, CharEdits.zero⟩] := by
  have hremap : remapResidue [['a', 'b'], ['c', 'd']] [['a', 'b', 'c'], ['d']] false =
      .ok [some ⟨⟨0, 0⟩, CharEdits.zero⟩, some ⟨⟨1, 1⟩, CharEdits.zero⟩] := by
    unfold remapResidue
    rw [owners_monotone]
    unfold residueAttribution bracketed leftBracket claim ownedLabels owner betterOwner shared unmatchedWordChars
      unmatchedLabelChars
    simp only [residueAlignment_abCd]
    rfl
  have hlabels : labelTrack asciiTables abcD oneSecond = [⟨['a', 'b', 'c'], 0⟩, ⟨['d'], 300⟩] := by decide
  have hwords : groupWords asciiTables abCd = [['a', 'b'], ['c', 'd']] := by decide
  unfold groupAttributions
  rw [hlabels, hwords]
  unfold attributions
  simp only [map_cons, map_nil,
    show stitchInOrder [['a', 'b', 'c'], ['d']] 0 [['a', 'b'], ['c', 'd']] = ([], 0) from by decide, length_nil,
    drop_zero, lt_irrefl, decide_false, hremap]
  rfl

end Batchalign.Fa
