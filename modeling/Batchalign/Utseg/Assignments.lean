import Batchalign.Lib.Cuts
import Batchalign.Utseg.Constituency

/- From constituency trees to the group of every word (`utseg_compute.rs`). A set of words is the list
   of its members; `none` is the panic of an index out of bounds. -/
namespace Batchalign.Utseg
open Segments Cuts List

section Model

inductive ConstituencyParseError where
  | noTrees
  | unreadable (tree : ℕ) (fault : Fault)

/-- The trees from position `tree` on; the first that does not read is the error. -/
def readFrom : ℕ → List (List Char) → Except ConstituencyParseError (List Tree)
  | _, [] => .ok []
  | tree, text :: texts =>
    match parseBracketNotation text with
    | .error fault => .error (.unreadable tree fault)
    | .ok parsed =>
      match readFrom (tree + 1) texts with
      | .error error => .error error
      | .ok trees => .ok (parsed :: trees)

def read (texts : List (List Char)) : Except ConstituencyParseError (List Tree) :=
  if texts.isEmpty then .error .noTrees else readFrom 0 texts

def phraseRanges (trees : List Tree) : List (List ℕ) :=
  trees.flatMap fun tree => parseTreeIndices tree 0

def phraseOrder (trees : List Tree) (numWords : ℕ) : List (List ℕ) :=
  ((phraseRanges trees).insertionSort fun a b => a.length ≤ b.length).reverse ++
    [List.range numWords]

def newWords (uniqueRanges : List (List ℕ)) (rng : List ℕ) : List ℕ :=
  uniqueRanges.foldl (fun rngSet existing => rngSet.filter fun word => !existing.contains word)
    rng.dedup

def addPhrase (uniqueRanges : List (List ℕ)) (rng : List ℕ) : List (List ℕ) :=
  let rngSet := newWords uniqueRanges rng
  if !rngSet.isEmpty && !uniqueRanges.any (fun existing => rngSet.all existing.contains) then
    uniqueRanges ++ [rngSet.insertionSort (· ≤ ·)]
  else uniqueRanges

def uniqueRanges (trees : List Tree) (numWords : ℕ) : List (List ℕ) :=
  ((phraseOrder trees numWords).foldl addPhrase []).reverse.filter fun phrase => 1 < phrase.length

/-- `xs[i] = x`. -/
def setAt {α : Type} (xs : List α) (i : ℕ) (x : α) : Option (List α) :=
  if i < xs.length then some (xs.set i x) else none

def assignWord (numWords phraseId : ℕ) (wordToPhrase : List (Option ℕ)) (idx : ℕ) :
    Option (List (Option ℕ)) :=
  if idx < numWords then setAt wordToPhrase idx (some phraseId) else some wordToPhrase

def assignPhrase (numWords : ℕ) (wordToPhrase : List (Option ℕ)) (phrase : List ℕ × ℕ) :
    Option (List (Option ℕ)) :=
  phrase.1.foldlM (assignWord numWords phrase.2) wordToPhrase

def findPhrase (wordToPhrase : List (Option ℕ)) : List ℕ → Option (Option ℕ)
  | [] => some none
  | j :: js =>
    match wordToPhrase[j]? with
    | none => none
    | some (some phraseId) => some (some phraseId)
    | some none => findPhrase wordToPhrase js

def fillWord (numWords : ℕ) (wordToPhrase : List (Option ℕ)) (i : ℕ) : Option (List (Option ℕ)) :=
  match wordToPhrase[i]? with
  | none => none
  | some (some _) => some wordToPhrase
  | some none =>
    match findPhrase wordToPhrase (List.range' (i + 1) (numWords - (i + 1))) with
    | none => none
    | some (some phraseId) => setAt wordToPhrase i (some phraseId)
    | some none =>
      match findPhrase wordToPhrase (List.range i).reverse with
      | none => none
      | some (some phraseId) => setAt wordToPhrase i (some phraseId)
      | some none => some wordToPhrase

def wordPhrases (phrases : List (List ℕ)) (numWords : ℕ) : Option (List (Option ℕ)) :=
  (phrases.zipIdx.foldlM (assignPhrase numWords) (List.replicate numWords none)).bind
    fun assigned => (List.range numWords).foldlM (fillWord numWords) assigned

structure Grouping where
  groups : List (List ℕ)
  currentGroup : List ℕ

def groupWord (wordToPhrase : List (Option ℕ)) (g : Grouping) (i : ℕ) : Option Grouping :=
  match wordToPhrase[i]?, wordToPhrase[i - 1]? with
  | some here, some before =>
    if here = before then some { g with currentGroup := g.currentGroup ++ [i] }
    else some { groups := g.groups ++ [g.currentGroup], currentGroup := [i] }
  | _, _ => none

def groupWords (wordToPhrase : List (Option ℕ)) (numWords : ℕ) : Option (List (List ℕ)) :=
  ((List.range' 1 (numWords - 1)).foldlM (groupWord wordToPhrase) ⟨[], [0]⟩).map
    fun g => g.groups ++ [g.currentGroup]

structure Merging where
  merged : List (List ℕ)
  pending : List ℕ

def mergeGroup (m : Merging) (grp : List ℕ) : Merging :=
  if grp.length < 3 then { m with pending := m.pending ++ grp }
  else { merged := m.merged ++ [m.pending ++ grp], pending := [] }

def closeMerging (m : Merging) : List (List ℕ) :=
  if m.pending.isEmpty then m.merged
  else
    match m.merged.getLast? with
    | some last => m.merged.dropLast ++ [last ++ m.pending]
    | none => m.merged ++ [m.pending]

def mergeGroups (groups : List (List ℕ)) : List (List ℕ) :=
  closeMerging (groups.foldl mergeGroup ⟨[], []⟩)

def assignGroup (assignments : List ℕ) (group : List ℕ × ℕ) : Option (List ℕ) :=
  group.1.foldlM (fun assignments idx => setAt assignments idx group.2) assignments

def buildAssignments (merged : List (List ℕ)) (numWords : ℕ) : Option (List ℕ) :=
  merged.zipIdx.foldlM assignGroup (List.replicate numWords 0)

def assignmentsOf (wordToPhrase : List (Option ℕ)) (numWords : ℕ) : Option (List ℕ) :=
  if wordToPhrase.any Option.isNone then some (List.replicate numWords 0)
  else
    (groupWords wordToPhrase numWords).bind fun groups =>
      let merged := mergeGroups groups
      if merged.isEmpty then some (List.replicate numWords 0) else buildAssignments merged numWords

def computeAssignments (trees : List Tree) (numWords : ℕ) : Option (List ℕ) :=
  if numWords ≤ 1 then some (List.replicate numWords 0)
  else
    let phrases := uniqueRanges trees numWords
    if phrases.isEmpty then some (List.replicate numWords 0)
    else (wordPhrases phrases numWords).bind fun wordToPhrase => assignmentsOf wordToPhrase numWords

end Model

section Folds
variable {σ β : Type}

theorem exists_foldlM {P : σ → Prop} {f : σ → β → Option σ} {xs : List β}
    (hstep : ∀ s, P s → ∀ x ∈ xs, ∃ s', f s x = some s' ∧ P s') {s : σ} (hs : P s) :
    ∃ s', xs.foldlM f s = some s' ∧ P s' := by
  induction xs generalizing s with
  | nil => exact ⟨s, rfl, hs⟩
  | cons x xs ih =>
    obtain ⟨t, ht, hP⟩ := hstep s hs x mem_cons_self
    obtain ⟨s', hs', hP'⟩ := ih (fun s hs y hy => hstep s hs y (mem_cons_of_mem x hy)) hP
    refine ⟨s', ?_, hP'⟩
    rw [foldlM_cons, ht]
    exact hs'

theorem setAt_of_lt {xs : List β} {i : ℕ} {x : β} (h : i < xs.length) :
    setAt xs i x = some (xs.set i x) := if_pos h

end Folds

section Phrases
variable {n : ℕ} {labels : List (Option ℕ)}

section
variable (hlabels : labels.length = n)
include hlabels

theorem exists_setAt {i : ℕ} (hi : i < n) (x : Option ℕ) :
    ∃ labels', setAt labels i x = some labels' ∧ labels'.length = n :=
  ⟨labels.set i x, setAt_of_lt (by omega), by rw [length_set, hlabels]⟩

theorem exists_assignPhrase (phrase : List ℕ × ℕ) :
    ∃ labels', assignPhrase n labels phrase = some labels' ∧ labels'.length = n := by
  refine exists_foldlM ?_ hlabels
  intro labels hlabels idx _
  unfold assignWord
  split
  · rename_i hidx
    exact exists_setAt hlabels hidx _
  · exact ⟨labels, rfl, hlabels⟩

theorem exists_findPhrase {js : List ℕ} (hjs : ∀ j ∈ js, j < n) :
    ∃ found, findPhrase labels js = some found := by
  induction js with
  | nil => exact ⟨none, rfl⟩
  | cons j js ih =>
    have hj : j < labels.length := hlabels ▸ hjs j mem_cons_self
    rw [findPhrase, getElem?_eq_getElem hj]
    cases labels[j] with
    | none => exact ih (fun j' hj' => hjs j' (mem_cons_of_mem j hj'))
    | some phraseId => exact ⟨_, rfl⟩

theorem exists_fillWord {i : ℕ} (hi : i < n) :
    ∃ labels', fillWord n labels i = some labels' ∧ labels'.length = n := by
  have hget : i < labels.length := by omega
  have hlater : ∀ j ∈ range' (i + 1) (n - (i + 1)), j < n := by
    intro j hj
    rw [mem_range'_1] at hj
    omega
  have hearlier : ∀ j ∈ (range i).reverse, j < n := by
    intro j hj
    rw [mem_reverse, mem_range] at hj
    omega
  obtain ⟨after, hafter⟩ := exists_findPhrase hlabels hlater
  obtain ⟨before, hbefore⟩ := exists_findPhrase hlabels hearlier
  rw [fillWord, getElem?_eq_getElem hget, hafter, hbefore]
  cases labels[i] with
  | some phraseId => exact ⟨labels, rfl, hlabels⟩
  | none =>
    cases after with
    | some phraseId => exact exists_setAt hlabels hi _
    | none =>
      cases before with
      | some phraseId => exact exists_setAt hlabels hi _
      | none => exact ⟨labels, rfl, hlabels⟩

end

theorem exists_wordPhrases (phrases : List (List ℕ)) (n : ℕ) :
    ∃ labels, wordPhrases phrases n = some labels ∧ labels.length = n := by
  have hnone : (replicate n (none : Option ℕ)).length = n := length_replicate
  have hassign : ∀ labels : List (Option ℕ), labels.length = n → ∀ phrase ∈ phrases.zipIdx,
      ∃ labels', assignPhrase n labels phrase = some labels' ∧ labels'.length = n :=
    fun labels hlabels phrase _ => exists_assignPhrase hlabels phrase
  have hfill : ∀ labels : List (Option ℕ), labels.length = n → ∀ i ∈ range n,
      ∃ labels', fillWord n labels i = some labels' ∧ labels'.length = n :=
    fun labels hlabels i hi => exists_fillWord hlabels (mem_range.mp hi)
  obtain ⟨assigned, hassigned, hlength⟩ := exists_foldlM hassign hnone
  obtain ⟨labels, hlabels, hlength'⟩ := exists_foldlM hfill hlength
  refine ⟨labels, ?_, hlength'⟩
  rw [wordPhrases, hassigned]
  exact hlabels

end Phrases

section Runs
variable {labels : List (Option ℕ)} {n i m : ℕ}

/-- The words up to `m` are grouped, a group ending wherever the phrase changes. -/
structure Grouped (labels : List (Option ℕ)) (m : ℕ) (g : Grouping) : Prop where
  flatten : g.groups.flatten ++ g.currentGroup = List.range (m + 1)
  nonempty : ∀ group ∈ g.groups, group ≠ []
  current : g.currentGroup ≠ []
  ends : ∀ j, Ends g.groups j ↔ 0 < j ∧ j ≤ m ∧ labels[j]? ≠ labels[j - 1]?

theorem Grouped.first (labels : List (Option ℕ)) : Grouped labels 0 ⟨[], [0]⟩ := by
  refine ⟨rfl, by simp, by simp, ?_⟩
  intro j
  constructor
  · intro h
    exact absurd h not_ends_nil
  · omega

theorem Grouped.groupWord {g : Grouping} (h : Grouped labels m g) (hm : m + 1 < labels.length) :
    ∃ g', groupWord labels g (m + 1) = some g' ∧ Grouped labels (m + 1) g' := by
  have hhere : labels[m + 1]? = some labels[m + 1] := getElem?_eq_getElem hm
  have hbefore : labels[m]? = some labels[m] := getElem?_eq_getElem (by omega)
  have hlength : g.groups.flatten.length + g.currentGroup.length = m + 1 := by
    rw [← length_append, h.flatten, length_range]
  have hrange : range (m + 1 + 1) = range (m + 1) ++ [m + 1] := range_succ
  have hsplit : ∀ j, j ≤ m + 1 ↔ j ≤ m ∨ j = m + 1 := by omega
  unfold Utseg.groupWord
  rw [hhere, Nat.add_sub_cancel, hbefore]
  by_cases hsame : labels[m + 1] = labels[m]
  · simp only [hsame, if_true]
    refine ⟨_, rfl, ?_, h.nonempty, by simp, ?_⟩
    · rw [← append_assoc, h.flatten, hrange]
    · intro j
      rw [h.ends, hsplit]
      constructor
      · rintro ⟨hpos, hle, hne⟩
        exact ⟨hpos, Or.inl hle, hne⟩
      · rintro ⟨hpos, hle | heq, hne⟩
        · exact ⟨hpos, hle, hne⟩
        · rw [heq, Nat.add_sub_cancel, hhere, hbefore, hsame] at hne
          exact absurd rfl hne
  · simp only [hsame, if_false]
    refine ⟨_, rfl, ?_, ?_, by simp, ?_⟩
    · rw [flatten_append, flatten_singleton, h.flatten, hrange]
    · intro group hgroup
      rcases mem_append.mp hgroup with hgroup | hgroup
      · exact h.nonempty group hgroup
      · rw [mem_singleton.mp hgroup]
        exact h.current
    · intro j
      rw [ends_concat, h.ends, hlength, hsplit]
      constructor
      · rintro (⟨hpos, hle, hne⟩ | heq)
        · exact ⟨hpos, Or.inl hle, hne⟩
        · refine ⟨by omega, Or.inr heq, ?_⟩
          rw [heq, Nat.add_sub_cancel, hhere, hbefore, Ne, Option.some.injEq]
          exact hsame
      · rintro ⟨hpos, hle | heq, hne⟩
        · exact Or.inl ⟨hpos, hle, hne⟩
        · exact Or.inr heq

structure RunsOf (labels : List (Option ℕ)) (n : ℕ) (groups : List (List ℕ)) : Prop where
  flatten : groups.flatten = List.range n
  nonempty : ∀ group ∈ groups, group ≠ []
  ends : ∀ j, Ends groups j ↔ j = n ∨ (0 < j ∧ j < n ∧ labels[j]? ≠ labels[j - 1]?)

theorem exists_groupWords (hlabels : labels.length = n) (hn : 0 < n) :
    ∃ groups, groupWords labels n = some groups ∧ RunsOf labels n groups := by
  have hrun : ∀ m, m + 1 ≤ n →
      ∃ g, (range' 1 m).foldlM (groupWord labels) ⟨[], [0]⟩ = some g ∧ Grouped labels m g := by
    intro m
    induction m with
    | zero => exact fun _ => ⟨_, rfl, .first labels⟩
    | succ m ih =>
      intro hm
      obtain ⟨g, hg, hgrouped⟩ := ih (by omega)
      obtain ⟨g', hg', hgrouped'⟩ := hgrouped.groupWord (by omega)
      refine ⟨g', ?_, hgrouped'⟩
      rw [range'_1_concat, foldlM_append, hg, add_comm 1 m]
      simpa using hg'
  obtain ⟨g, hg, hgrouped⟩ := hrun (n - 1) (by omega)
  have hflatten := hgrouped.flatten
  rw [Nat.sub_add_cancel hn] at hflatten
  have hlength : g.groups.flatten.length + g.currentGroup.length = n := by
    rw [← length_append, hflatten, length_range]
  refine ⟨g.groups ++ [g.currentGroup], by rw [groupWords, hg]; rfl, ?_, ?_, ?_⟩
  · rw [flatten_append, flatten_singleton, hflatten]
  · intro group hgroup
    rcases mem_append.mp hgroup with hgroup | hgroup
    · exact hgrouped.nonempty group hgroup
    · rw [mem_singleton.mp hgroup]
      exact hgrouped.current
  · intro j
    rw [ends_concat, hgrouped.ends, hlength]
    constructor
    · rintro (⟨hpos, hle, hne⟩ | heq)
      · exact Or.inr ⟨hpos, by omega, hne⟩
      · exact Or.inl heq
    · rintro (heq | ⟨hpos, hlt, hne⟩)
      · exact Or.inr heq
      · exact Or.inl ⟨hpos, by omega, hne⟩

end Runs

section Merges
variable {seen groups merged : List (List ℕ)} {n i : ℕ}

structure Merged (seen : List (List ℕ)) (m : Merging) : Prop where
  flatten : m.merged.flatten ++ m.pending = seen.flatten
  big : ∀ group ∈ m.merged, 3 ≤ group.length
  ends : ∀ i, Ends m.merged i ↔ EndsBig 3 seen i

theorem Merged.nil : Merged [] ⟨[], []⟩ := by
  refine ⟨rfl, by simp, ?_⟩
  intro i
  constructor
  · intro h
    exact absurd h not_ends_nil
  · intro h
    exact absurd h not_endsBig_nil

theorem Merged.mergeGroup {m : Merging} (h : Merged seen m) (grp : List ℕ) :
    Merged (seen ++ [grp]) (mergeGroup m grp) := by
  have hflatten : (seen ++ [grp]).flatten = m.merged.flatten ++ (m.pending ++ grp) := by
    rw [flatten_append, flatten_singleton, ← h.flatten, append_assoc]
  unfold Utseg.mergeGroup
  split
  · refine ⟨hflatten.symm, h.big, ?_⟩
    intro i
    rw [endsBig_concat, h.ends]
    constructor
    · exact Or.inl
    · rintro (hi | ⟨hbig, _⟩)
      · exact hi
      · omega
  · refine ⟨?_, ?_, ?_⟩
    · rw [append_nil, flatten_append, flatten_singleton, hflatten]
    · intro group hgroup
      rcases mem_append.mp hgroup with hgroup | hgroup
      · exact h.big group hgroup
      · rw [mem_singleton.mp hgroup, length_append]
        omega
    · intro i
      have hlength : m.merged.flatten.length + (m.pending ++ grp).length =
          seen.flatten.length + grp.length := by
        rw [← h.flatten, length_append, length_append]
        omega
      rw [ends_concat, endsBig_concat, h.ends, hlength]
      constructor
      · rintro (hi | hi)
        · exact Or.inl hi
        · exact Or.inr ⟨by omega, hi⟩
      · rintro (hi | ⟨_, hi⟩)
        · exact Or.inl hi
        · exact Or.inr hi

theorem merged_foldl (groups : List (List ℕ)) : Merged groups (groups.foldl mergeGroup ⟨[], []⟩) := by
  induction groups using reverseRecOn with
  | nil => exact .nil
  | append_singleton groups grp ih =>
    rw [foldl_append]
    exact ih.mergeGroup grp

/-- One group, or groups of three words at least; a group ends where a big one does. -/
structure MergedInto (groups merged : List (List ℕ)) : Prop where
  flatten : merged.flatten = groups.flatten
  big : (∃ group, merged = [group]) ∨ ∀ group ∈ merged, 3 ≤ group.length
  nonempty : ∀ group ∈ merged, group ≠ []
  ends : ∀ i, i < groups.flatten.length →
    (Ends merged i ↔ EndsBig 3 groups i ∧ ∃ j, i < j ∧ EndsBig 3 groups j)

theorem nonempty_of_big (h : ∀ group ∈ merged, 3 ≤ group.length) : ∀ group ∈ merged, group ≠ [] := by
  intro group hgroup
  have hbig := h group hgroup
  exact ne_nil_of_length_pos (by omega)

theorem Merged.closeMerging {m : Merging} (h : Merged groups m) : MergedInto groups (closeMerging m) := by
  unfold Utseg.closeMerging
  by_cases hpending : m.pending = []
  · have hflatten := h.flatten
    rw [hpending, append_nil] at hflatten
    rw [if_pos (by simpa using hpending)]
    refine ⟨hflatten, Or.inr h.big, nonempty_of_big h.big, ?_⟩
    intro i hi
    rw [h.ends]
    constructor
    · intro hends
      -- the last group is big, so another big one ends where the words do
      have hsome : m.merged ≠ [] := by
        intro hnil
        rw [hnil] at hflatten
        simp [← hflatten] at hi
      have hlast := ends_length hsome
      rw [hflatten, h.ends] at hlast
      exact ⟨hends, _, hi, hlast⟩
    · exact And.left
  · rw [if_neg (by simpa using hpending)]
    rcases eq_nil_or_concat m.merged with hnil | ⟨before, last, hmerged⟩
    · have hflatten := h.flatten
      rw [hnil, flatten_nil, nil_append] at hflatten
      simp only [hnil, getLast?_nil, nil_append]
      refine ⟨by simpa using hflatten, Or.inl ⟨_, rfl⟩, by simpa using hpending, ?_⟩
      intro i hi
      constructor
      · intro hends
        rw [← nil_append [m.pending], ends_concat] at hends
        rcases hends with hends | hends
        · exact absurd hends not_ends_nil
        · rw [flatten_nil, length_nil, hflatten] at hends
          omega
      · rintro ⟨hends, _⟩
        rw [← h.ends, hnil] at hends
        exact absurd hends not_ends_nil
    · rw [concat_eq_append] at hmerged
      have hflatten := h.flatten
      rw [hmerged, flatten_append, flatten_singleton, append_assoc] at hflatten
      have hlength : before.flatten.length + (last ++ m.pending).length = groups.flatten.length := by
        rw [← hflatten]
        exact length_append.symm
      have hlast : 3 ≤ last.length := h.big last (by simp [hmerged])
      have hbefore : ∀ group ∈ before, 3 ≤ group.length := fun group hgroup =>
        h.big group (by simp [hmerged, hgroup])
      have hends := h.ends
      simp only [hmerged, ends_concat] at hends
      simp only [hmerged, getLast?_append, getLast?_singleton, Option.some_or, dropLast_concat]
      have hbig : ∀ group ∈ before ++ [last ++ m.pending], 3 ≤ group.length := by
        intro group hgroup
        rcases mem_append.mp hgroup with hgroup | hgroup
        · exact hbefore group hgroup
        · rw [mem_singleton.mp hgroup, length_append]
          omega
      refine ⟨?_, Or.inr hbig, nonempty_of_big hbig, ?_⟩
      · rw [flatten_append, flatten_singleton, hflatten]
      · intro i hi
        rw [ends_concat, hlength]
        constructor
        · rintro (hin | heq)
          · have hle := hin.le
            exact ⟨(hends i).mp (Or.inl hin), _, by omega, (hends _).mp (Or.inr rfl)⟩
          · omega
        · rintro ⟨hbigEnd, j, hlt, hlater⟩
          left
          rcases (hends i).mpr hbigEnd with hin | heq
          · exact hin
          · rcases (hends j).mpr hlater with hin' | heq'
            · have hle := hin'.le
              omega
            · omega

theorem mergedInto_mergeGroups (groups : List (List ℕ)) : MergedInto groups (mergeGroups groups) :=
  (merged_foldl groups).closeMerging

end Merges

section Building
variable {n k : ℕ}

theorem foldlM_setAt_range' (front rest : List ℕ) {m : ℕ} (hm : m ≤ rest.length) :
    (range' front.length m).foldlM (fun assignments idx => setAt assignments idx k)
      (front ++ rest) = some (front ++ replicate m k ++ rest.drop m) := by
  induction m with
  | zero => simp
  | succ m ih =>
    have hdrop : rest.drop m = rest[m] :: rest.drop (m + 1) := drop_eq_getElem_cons hm
    have hlength : (front ++ replicate m k).length = front.length + m := by simp
    have hlt : front.length + m < (front ++ replicate m k ++ rest.drop m).length := by
      rw [length_append, hlength, length_drop]
      omega
    rw [range'_1_concat, foldlM_append, ih (by omega)]
    simp only [Option.bind_eq_bind, Option.bind_some, foldlM_cons, foldlM_nil, setAt_of_lt hlt]
    rw [hdrop, set_append_right _ _ (by omega), hlength, Nat.sub_self, set_cons_zero,
      replicate_succ']
    simp

theorem foldlM_assignGroup {groups : List (List ℕ)} {front rest : List ℕ}
    (hflatten : groups.flatten = range' front.length groups.flatten.length)
    (hrest : rest.length = groups.flatten.length) :
    (groups.zipIdx k).foldlM assignGroup (front ++ rest) = some (front ++ slotsFrom k groups) := by
  induction groups generalizing k front rest with
  | nil =>
    have hnil : rest = [] := eq_nil_of_length_eq_zero hrest
    simp [hnil, slotsFrom]
  | cons group groups ih =>
    rw [flatten_cons, length_append] at hflatten hrest
    rw [← range'_append_1] at hflatten
    obtain ⟨hgroup, hlater⟩ := append_inj hflatten (by simp)
    have hfirst : assignGroup (front ++ rest) (group, k) =
        some (front ++ replicate group.length k ++ rest.drop group.length) := by
      rw [assignGroup]
      rw [hgroup, foldlM_setAt_range' front rest (by rw [hrest]; simp)]
      simp
    have hfront : (front ++ replicate group.length k).length = front.length + group.length := by
      simp
    have hnext := @ih (k + 1) (front ++ replicate group.length k) (rest.drop group.length)
      (by rw [hfront]; exact hlater) (by rw [length_drop]; omega)
    rw [zipIdx_cons, foldlM_cons, hfirst]
    simp only [Option.bind_eq_bind, Option.bind_some]
    rw [hnext, slotsFrom, append_assoc]

theorem buildAssignments_eq {merged : List (List ℕ)} (h : merged.flatten = range n) :
    buildAssignments merged n = some (slotsFrom 0 merged) := by
  have hlength : merged.flatten.length = n := by rw [h, length_range]
  have hflatten : merged.flatten = range' ([] : List ℕ).length merged.flatten.length := by
    rw [hlength, h, length_nil, range_eq_range']
  have hrest : (replicate n 0).length = merged.flatten.length := by
    rw [length_replicate, hlength]
  exact foldlM_assignGroup hflatten hrest

end Building

section Assigned
variable {labels : List (Option ℕ)} {n i : ℕ} {out : List ℕ}

def ThreeAlike (labels : List (Option ℕ)) (i : ℕ) : Prop :=
  labels[i]? = labels[i + 1]? ∧ labels[i + 1]? = labels[i + 2]?

/-- A group ends before word `i`: the phrase changes between three words of one and three of one. -/
def EndsGroup (labels : List (Option ℕ)) (n i : ℕ) : Prop :=
  3 ≤ i ∧ i < n ∧ labels[i]? ≠ labels[i - 1]? ∧ ThreeAlike labels (i - 3) ∧
    ∃ j, i ≤ j ∧ j + 2 < n ∧ ThreeAlike labels j

variable {groups : List (List ℕ)}

section
variable (h : RunsOf labels n groups)
include h

theorem RunsOf.endsBig_iff {j : ℕ} :
    EndsBig 3 groups j ↔ 3 ≤ j ∧ Ends groups j ∧ ¬ Ends groups (j - 1) ∧ ¬ Ends groups (j - 2) := by
  rw [Cuts.endsBig_iff h.nonempty]
  constructor
  · rintro ⟨hends, hj, hnone⟩
    exact ⟨hj, hends, hnone (j - 1) (by omega) (by omega), hnone (j - 2) (by omega) (by omega)⟩
  · rintro ⟨hj, hends, hone, htwo⟩
    refine ⟨hends, hj, ?_⟩
    intro i hnear hlt
    have hcases : i = j - 1 ∨ i = j - 2 := by omega
    rcases hcases with heq | heq
    · rwa [heq]
    · rwa [heq]

theorem RunsOf.not_ends_iff (hi : 0 < i)
    (hin : i < n) : ¬ Ends groups i ↔ labels[i]? = labels[i - 1]? := by
  rw [h.ends]
  constructor
  · intro hno
    by_contra hne
    exact hno (Or.inr ⟨hi, hin, hne⟩)
  · rintro heq (hlast | ⟨_, _, hne⟩)
    · omega
    · exact hne heq

theorem RunsOf.threeAlike_iff {j : ℕ} (hj : 3 ≤ j) (hjn : j ≤ n) :
    ThreeAlike labels (j - 3) ↔ ¬ Ends groups (j - 1) ∧ ¬ Ends groups (j - 2) := by
  have h1 : j - 3 + 1 = j - 2 := by omega
  have h2 : j - 3 + 2 = j - 1 := by omega
  have h3 : j - 2 - 1 = j - 3 := by omega
  have h4 : j - 1 - 1 = j - 2 := by omega
  rw [h.not_ends_iff (by omega) (by omega), h.not_ends_iff (by omega) (by omega), h3, h4,
    ThreeAlike, h1, h2]
  constructor
  · rintro ⟨hmiddle, hlast⟩
    exact ⟨hlast.symm, hmiddle.symm⟩
  · rintro ⟨hlast, hmiddle⟩
    exact ⟨hmiddle.symm, hlast.symm⟩

theorem RunsOf.exists_endsBig_iff (hends : Ends groups i) :
    (∃ j, i < j ∧ EndsBig 3 groups j) ↔ ∃ j, i ≤ j ∧ j + 2 < n ∧ ThreeAlike labels j := by
  constructor
  · rintro ⟨j, hlt, hbig⟩
    obtain ⟨hj, hendsj, hone, htwo⟩ := h.endsBig_iff.mp hbig
    have hjn : j ≤ n := by
      have hle := hendsj.le
      rwa [h.flatten, length_range] at hle
    have hne1 : i ≠ j - 1 := fun heq => hone (heq ▸ hends)
    have hne2 : i ≠ j - 2 := fun heq => htwo (heq ▸ hends)
    exact ⟨j - 3, by omega, by omega, (h.threeAlike_iff hj hjn).mpr ⟨hone, htwo⟩⟩
  · rintro ⟨j, hle, hjn, halike⟩
    -- the group that holds these three words ends at the next end
    have hsome : ∃ e, j + 3 ≤ e ∧ Ends groups e := ⟨n, by omega, (h.ends n).mpr (Or.inl rfl)⟩
    classical
    obtain ⟨hlow, hfirst⟩ := Nat.find_spec hsome
    have hmin : ∀ e, j + 3 ≤ e → e < Nat.find hsome → ¬ Ends groups e :=
      fun e hge hlt he => Nat.find_min hsome hlt ⟨hge, he⟩
    have hmiddle : ¬ Ends groups (j + 1) :=
      (h.not_ends_iff (by omega) (by omega)).mpr halike.1.symm
    have hlast : ¬ Ends groups (j + 2) :=
      (h.not_ends_iff (by omega) (by omega)).mpr halike.2.symm
    have hinside : ∀ e, j < e → e < Nat.find hsome → ¬ Ends groups e := by
      intro e hlow hlt
      have hcases : e = j + 1 ∨ e = j + 2 ∨ j + 3 ≤ e := by omega
      rcases hcases with heq | heq | hge
      · rwa [heq]
      · rwa [heq]
      · exact hmin e hge hlt
    refine ⟨Nat.find hsome, by omega, h.endsBig_iff.mpr ⟨by omega, hfirst, ?_, ?_⟩⟩
    · exact hinside _ (by omega) (by omega)
    · exact hinside _ (by omega) (by omega)

theorem RunsOf.endsGroup_iff (hi : 0 < i) (hin : i < n) :
    (EndsBig 3 groups i ∧ ∃ j, i < j ∧ EndsBig 3 groups j) ↔ EndsGroup labels n i := by
  have hends : Ends groups i ↔ labels[i]? ≠ labels[i - 1]? := by
    rw [Ne, ← h.not_ends_iff hi hin, not_not]
  have hbig : EndsBig 3 groups i ↔
      3 ≤ i ∧ labels[i]? ≠ labels[i - 1]? ∧ ThreeAlike labels (i - 3) := by
    rw [h.endsBig_iff, hends]
    constructor
    · rintro ⟨hge, hne, hinside⟩
      exact ⟨hge, hne, (h.threeAlike_iff hge (by omega)).mpr hinside⟩
    · rintro ⟨hge, hne, halike⟩
      exact ⟨hge, hne, (h.threeAlike_iff hge (by omega)).mp halike⟩
  constructor
  · rintro ⟨hbigEnd, hlater⟩
    obtain ⟨hge, hne, halike⟩ := hbig.mp hbigEnd
    exact ⟨hge, hin, hne, halike, (h.exists_endsBig_iff hbigEnd.ends).mp hlater⟩
  · rintro ⟨hge, _, hne, halike, hlater⟩
    have hbigEnd := hbig.mpr ⟨hge, hne, halike⟩
    exact ⟨hbigEnd, (h.exists_endsBig_iff hbigEnd.ends).mpr hlater⟩

end

/-- Numbers of groups that are runs, from 0 up; the only one, or of three words at least. -/
structure GroupIds (n : ℕ) (cuts : ℕ → Prop) (out : List ℕ) : Prop where
  length : out.length = n
  first : 0 < n → out[0]? = some 0
  step : ∀ i a b, out[i]? = some a → out[i + 1]? = some b →
    (b = a ∧ ¬ cuts (i + 1)) ∨ (b = a + 1 ∧ cuts (i + 1))
  size : (∀ a ∈ out, a = 0) ∨ ∀ a ∈ out, 3 ≤ out.count a

theorem groupIds_replicate {cuts : ℕ → Prop} (hnone : ∀ i, i < n → ¬ cuts i) :
    GroupIds n cuts (replicate n 0) := by
  refine ⟨length_replicate, fun hn => getElem?_replicate_of_lt hn, ?_, ?_⟩
  · intro i a b ha hb
    obtain ⟨hi, hzero⟩ := List.getElem?_eq_some_iff.mp ha
    obtain ⟨hi', hzero'⟩ := List.getElem?_eq_some_iff.mp hb
    rw [getElem_replicate] at hzero hzero'
    rw [length_replicate] at hi'
    exact Or.inl ⟨hzero'.symm.trans hzero, hnone _ hi'⟩
  · exact Or.inl fun a ha => eq_of_mem_replicate ha

theorem groupIds_assignmentsOf (hlabels : labels.length = n) (hn : 0 < n) :
    ∃ out, assignmentsOf labels n = some out ∧
      GroupIds n (fun i => labels.any Option.isNone = false ∧ EndsGroup labels n i) out := by
  unfold assignmentsOf
  split
  · rename_i hnone
    exact ⟨_, rfl, groupIds_replicate (fun i _ h => by simp [h.1] at hnone)⟩
  · rename_i hsome
    have hphrased : labels.any Option.isNone = false := by rwa [Bool.not_eq_true] at hsome
    obtain ⟨groups, hgroups, hruns⟩ := exists_groupWords hlabels hn
    obtain ⟨hflatten, hbig, hnonempty, hends⟩ := mergedInto_mergeGroups groups
    rw [hruns.flatten] at hflatten
    rw [hruns.flatten, length_range] at hends
    have hmerged : mergeGroups groups ≠ [] := by
      intro hnil
      have hlength := congrArg List.length hflatten
      rw [hnil, length_range, flatten_nil, length_nil] at hlength
      omega
    rw [hgroups]
    refine ⟨slotsFrom 0 (mergeGroups groups), ?_, ?_, ?_, ?_, ?_⟩
    · simp only [Option.bind_some]
      rw [if_neg (by simpa using hmerged), buildAssignments_eq hflatten]
    · rw [length_slotsFrom, hflatten, length_range]
    · exact fun _ => slotsFrom_zero hnonempty hmerged
    · intro i a b ha hb
      have hin : i + 1 < n := by
        have hlt := (List.getElem?_eq_some_iff.mp hb).1
        rwa [length_slotsFrom, hflatten, length_range] at hlt
      have hcut : Ends (mergeGroups groups) (i + 1) ↔
          labels.any Option.isNone = false ∧ EndsGroup labels n (i + 1) := by
        rw [hends (i + 1) hin, hruns.endsGroup_iff (Nat.succ_pos i) hin]
        exact (and_iff_right hphrased).symm
      rw [← hcut]
      exact slots_step hnonempty ha hb
    · rcases hbig with ⟨group, hone⟩ | hbig
      · left
        rw [hone, slotsFrom_singleton]
        exact fun a ha => eq_of_mem_replicate ha
      · exact Or.inr fun a ha => le_count_slotsFrom hbig ha

/-- For any trees and words: one group a word, numbered from 0 without gaps, and one group or groups of at
  least three words. -/
theorem computeAssignments_spec (trees : List Tree) (numWords : ℕ) :
    ∃ out, computeAssignments trees numWords = some out ∧ out.length = numWords ∧
      (0 < numWords → out[0]? = some 0) ∧
      (∀ i a b, out[i]? = some a → out[i + 1]? = some b → b = a ∨ b = a + 1) ∧
      ((∀ a ∈ out, a = 0) ∨ ∀ a ∈ out, 3 ≤ out.count a) := by
  have hids : ∃ out cuts, computeAssignments trees numWords = some out ∧
      GroupIds numWords cuts out := by
    have hone : GroupIds numWords (fun _ => False) (List.replicate numWords 0) :=
      groupIds_replicate (fun _ _ h => h)
    unfold computeAssignments
    split
    · exact ⟨_, _, rfl, hone⟩
    · simp only
      split
      · exact ⟨_, _, rfl, hone⟩
      · obtain ⟨labels, hlabels, hlength⟩ :=
          exists_wordPhrases (uniqueRanges trees numWords) numWords
        obtain ⟨out, hout, hids⟩ := groupIds_assignmentsOf hlength (by omega)
        refine ⟨out, _, ?_, hids⟩
        rw [hlabels]
        exact hout
  obtain ⟨out, cuts, hout, hids⟩ := hids
  refine ⟨out, hout, hids.length, hids.first, ?_, hids.size⟩
  intro i a b ha hb
  rcases hids.step i a b ha hb with ⟨heq, _⟩ | ⟨heq, _⟩
  · exact Or.inl heq
  · exact Or.inr heq

end Assigned

end Batchalign.Utseg
