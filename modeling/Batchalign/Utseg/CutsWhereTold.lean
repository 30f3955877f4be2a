import Batchalign.Utseg.Assignments

/- Where the assignments cut, and where the trees say that they may: around an S child of a coordination
   (`Coordinated`). The words of a tree are those after the trees before it; `computeAssignments`
   numbers every tree from word 0. -/
namespace Batchalign.Utseg
open Segments Cuts List

section Told

/-- A phrase between words: an S child under a node with a CC or CONJ child, numbered from `first`. -/
inductive Coordinated : Tree → ℕ → ℕ → ℕ → Prop
  | child {label : List Char} {before after : List Tree} {child : Tree}
      {leafText : Option (List Char)} {first : ℕ} :
      hasCoordination (before ++ child :: after) = true → child.label = "S".toList →
        child.isLeaf = false →
        Coordinated (.node label (before ++ child :: after) leafText) first
          (first + leafCounts before) (first + leafCounts before + leafCount child)
  | inside {label : List Char} {before after : List Tree} {child : Tree}
      {leafText : Option (List Char)} {first start stop : ℕ} :
      Coordinated child (first + leafCounts before) start stop →
        Coordinated (.node label (before ++ child :: after) leafText) first start stop

def EdgeOf (tree : Tree) (first i : ℕ) : Prop :=
  ∃ start stop, Coordinated tree first start stop ∧ start < stop ∧ (i = start ∨ i = stop)

def Told (trees : List Tree) (i : ℕ) : Prop :=
  ∃ before tree after, trees = before ++ tree :: after ∧ EdgeOf tree (leafCounts before) i

def ToldFromZero (trees : List Tree) (i : ℕ) : Prop := ∃ tree ∈ trees, EdgeOf tree 0 i

def CutsWhereTold (trees : List Tree) (numWords : ℕ) : Prop :=
  ∃ out, computeAssignments trees numWords = some out ∧
    ∀ i, 0 < i → i < numWords → out[i]? ≠ out[i - 1]? → Told trees i

end Told

section Phrase

def together (order : List (List ℕ)) (w v : ℕ) : Bool :=
  match order.find? fun rng => rng.contains w || rng.contains v with
  | some rng => rng.contains w && rng.contains v
  | none => false

def accompanied (order : List (List ℕ)) (numWords w : ℕ) : Bool :=
  (List.range numWords).any fun v => v != w && together order w v

/-- Whose phrase a word takes: its own, or else the next's or the previous's that is together with another. -/
def voice (order : List (List ℕ)) (numWords w : ℕ) : Option ℕ :=
  ((List.range' w (numWords - w)).find? (accompanied order numWords)).or
    ((List.range w).reverse.find? (accompanied order numWords))

def samePhrase (order : List (List ℕ)) (numWords w v : ℕ) : Bool :=
  match voice order numWords w, voice order numWords v with
  | some a, some b => together order a b
  | _, _ => false

def threeTogether (order : List (List ℕ)) (numWords w : ℕ) : Bool :=
  samePhrase order numWords w (w + 1) && samePhrase order numWords (w + 1) (w + 2)

/-- The phrase changes before word `i`, after three words of one, and three of one follow. -/
def Separated (trees : List Tree) (numWords i : ℕ) : Prop :=
  3 ≤ i ∧ i < numWords ∧ samePhrase (phraseOrder trees numWords) numWords i (i - 1) = false ∧
    threeTogether (phraseOrder trees numWords) numWords (i - 3) = true ∧
    ∃ j, i ≤ j ∧ j + 2 < numWords ∧ threeTogether (phraseOrder trees numWords) numWords j = true

end Phrase

section Indices
variable {tree : Tree} {trees children : List Tree} {first i : ℕ} {r : List ℕ}

theorem leafCounts_append (before after : List Tree) :
    leafCounts (before ++ after) = leafCounts before + leafCounts after := by
  induction before with
  | nil => simp [leafCounts]
  | cons child before ih =>
    rw [cons_append, leafCounts, leafCounts, ih]
    omega

theorem leafCounts_split (before after : List Tree) (child : Tree) :
    leafCounts (before ++ child :: after) = leafCounts before + leafCount child + leafCounts after := by
  rw [leafCounts_append, leafCounts]
  omega

theorem exists_split_cons {α : Type} {x : α} {xs : List α} {P : List α → α → Prop} :
    (∃ before y after, x :: xs = before ++ y :: after ∧ P before y) ↔
      P [] x ∨ ∃ before y after, xs = before ++ y :: after ∧ P (x :: before) y := by
  constructor
  · rintro ⟨before, y, after, heq, h⟩
    cases before with
    | nil =>
      rw [nil_append, cons.injEq] at heq
      rw [heq.1]
      exact Or.inl h
    | cons z before =>
      rw [cons_append, cons.injEq] at heq
      rw [← heq.1] at h
      exact Or.inr ⟨before, y, after, heq.2, h⟩
  · rintro (h | ⟨before, y, after, heq, h⟩)
    · exact ⟨[], x, xs, rfl, h⟩
    · exact ⟨x :: before, y, after, by rw [heq, cons_append], h⟩

def childRanges (coordinated : Bool) (child : Tree) (first : ℕ) : List (List ℕ) :=
  if child.isLeaf then []
  else (if coordinated && child.label == "S".toList then [List.range' first (leafCount child)] else []) ++
    parseTreeIndices child first

theorem childIndices_cons (coordinated : Bool) (child : Tree) (children : List Tree) (first : ℕ) :
    childIndices coordinated (child :: children) first = childRanges coordinated child first ++
        childIndices coordinated children (first + leafCount child) := by
  rw [childIndices, childRanges]
  split
  · rename_i hleaf
    rw [leafCount_of_isLeaf hleaf, nil_append]
  · rfl

theorem mem_childRanges {coordinated : Bool} {child : Tree} :
    r ∈ childRanges coordinated child first ↔ child.isLeaf = false ∧
      ((coordinated = true ∧ child.label = "S".toList ∧ r = range' first (leafCount child)) ∨
        r ∈ parseTreeIndices child first) := by
  unfold childRanges
  cases child.isLeaf with
  | true => simp
  | false =>
    by_cases hphrase : coordinated = true ∧ child.label = "S".toList
    · simp [hphrase.1, hphrase.2]
    · have hno : (coordinated && child.label == "S".toList) = false := by
        simpa using hphrase
      simp only [hno]
      simp only [← and_assoc, hphrase]
      simp

theorem mem_childIndices {coordinated : Bool} : r ∈ childIndices coordinated children first ↔
      ∃ before child after, children = before ++ child :: after ∧
        r ∈ childRanges coordinated child (first + leafCounts before) := by
  induction children generalizing first with
  | nil => simp [childIndices]
  | cons head children ih =>
    rw [childIndices_cons, mem_append, ih, exists_split_cons]
    simp only [leafCounts, add_zero, add_assoc]

variable {leafText : Option (List Char)}

theorem parseTreeIndices_node {label : List Char}
    (h : children ≠ []) : parseTreeIndices (.node label children leafText) first =
      childIndices (hasCoordination children) children first := by
  have hno : (children.isEmpty && leafText.isSome) = false := by simp [h]
  rw [parseTreeIndices, hno]
  rfl

theorem parseTreeIndices_no_children {label : List Char} :
    parseTreeIndices (.node label [] leafText) first = [] := by
  rw [parseTreeIndices]
  split
  · rfl
  · rw [childIndices]

theorem coordinated_of_mem (tree : Tree) {first : ℕ} (hr : r ∈ parseTreeIndices tree first) :
    ∃ start stop, Coordinated tree first start stop ∧ r = range' start (stop - start) := by
  match tree with
  | .node label [] leafText =>
    rw [parseTreeIndices_no_children] at hr
    cases hr
  | .node label (head :: later) leafText =>
    rw [parseTreeIndices_node (cons_ne_nil head later), mem_childIndices] at hr
    obtain ⟨before, child, after, hsplit, hchild⟩ := hr
    rw [hsplit] at hchild ⊢
    obtain ⟨hgroup, ⟨hcoord, hlabel, hrange⟩ | hdeeper⟩ := mem_childRanges.mp hchild
    · refine ⟨_, _, .child hcoord hlabel hgroup, ?_⟩
      rw [hrange, Nat.add_sub_cancel_left]
    · have hmem : child ∈ head :: later := by rw [hsplit]; simp
      obtain ⟨start, stop, hinside, hrange⟩ := coordinated_of_mem child hdeeper
      exact ⟨start, stop, .inside hinside, hrange⟩
termination_by sizeOf tree
decreasing_by
  have hlt := sizeOf_lt_of_mem hmem
  simp only [Tree.node.sizeOf_spec]
  omega

theorem Coordinated.mem {start stop : ℕ} (h : Coordinated tree first start stop) :
    range' start (stop - start) ∈ parseTreeIndices tree first := by
  induction h with
  | @child label before after child leafText first hcoord hlabel hgroup =>
    rw [parseTreeIndices_node (by simp), mem_childIndices, Nat.add_sub_cancel_left]
    exact ⟨before, child, after, rfl, mem_childRanges.mpr ⟨hgroup, Or.inl ⟨hcoord, hlabel, rfl⟩⟩⟩
  | @inside label before after child leafText first start stop hinside ih =>
    have hgroup : child.isLeaf = false := by
      cases hinside with
      | child _ _ _ => simp [Tree.isLeaf, Tree.children]
      | inside _ => simp [Tree.isLeaf, Tree.children]
    rw [parseTreeIndices_node (by simp), mem_childIndices]
    exact ⟨before, child, after, rfl, mem_childRanges.mpr ⟨hgroup, Or.inr ih⟩⟩

theorem Coordinated.bounds {start stop : ℕ} (h : Coordinated tree first start stop) :
    first ≤ start ∧ start ≤ stop ∧ stop ≤ first + leafCount tree := by
  have hnode : ∀ (label : List Char) (before after : List Tree) (child : Tree)
      (leafText : Option (List Char)), leafCount (.node label (before ++ child :: after) leafText) =
        leafCounts before + leafCount child + leafCounts after := by
    intro label before after child leafText
    rw [leafCount_of_not_isLeaf (by simp [Tree.isLeaf, Tree.children]), Tree.children,
      leafCounts_split]
  induction h with
  | child _ _ _ =>
    rw [hnode]
    omega
  | inside _ ih =>
    rw [hnode]
    omega

def hasEdge (ranges : List (List ℕ)) (i : ℕ) : Bool :=
  ranges.any fun rng => !rng.isEmpty && (i == rng.headD 0 || i == rng.headD 0 + rng.length)

theorem hasEdge_append (ranges ranges' : List (List ℕ)) :
    hasEdge (ranges ++ ranges') i = (hasEdge ranges i || hasEdge ranges' i) :=
  any_append

theorem edgeOf_iff : EdgeOf tree first i ↔ hasEdge (parseTreeIndices tree first) i = true := by
  have hedge : ∀ start stop, start < stop → ((!(range' start (stop - start)).isEmpty &&
        (i == (range' start (stop - start)).headD 0 ||
          i == (range' start (stop - start)).headD 0 + (range' start (stop - start)).length))
        = true ↔ i = start ∨ i = stop) := by
    intro start stop hlt
    obtain ⟨len, hlen⟩ : ∃ len, stop - start = len + 1 := ⟨stop - start - 1, by omega⟩
    have hstop : stop = start + (len + 1) := by omega
    rw [hlen, hstop, range'_succ]
    simp
  unfold hasEdge
  rw [any_eq_true]
  constructor
  · rintro ⟨start, stop, hcoord, hlt, hi⟩
    exact ⟨_, hcoord.mem, (hedge start stop hlt).mpr hi⟩
  · rintro ⟨rng, hrng, hi⟩
    obtain ⟨start, stop, hcoord, hrange⟩ := coordinated_of_mem tree hrng
    have hlt : start < stop := by
      by_contra hle
      have hzero : stop - start = 0 := by omega
      rw [hrange, hzero] at hi
      simp at hi
    rw [hrange] at hi
    exact ⟨start, stop, hcoord, hlt, (hedge start stop hlt).mp hi⟩

/-- The ranges of every tree, its words numbered after the leaves of the trees before it. -/
def numberedRanges : ℕ → List Tree → List (List ℕ)
  | _, [] => []
  | first, tree :: trees => parseTreeIndices tree first ++ numberedRanges (first + leafCount tree) trees

theorem hasEdge_numberedRanges : hasEdge (numberedRanges first trees) i = true ↔
    ∃ before tree after, trees = before ++ tree :: after ∧ EdgeOf tree (first + leafCounts before) i := by
  induction trees generalizing first with
  | nil => simp [numberedRanges, hasEdge]
  | cons tree trees ih =>
    rw [numberedRanges, hasEdge_append, Bool.or_eq_true, ih, exists_split_cons, ← edgeOf_iff]
    simp only [leafCounts, add_zero, add_assoc]

theorem told_iff : Told trees i ↔ hasEdge (numberedRanges 0 trees) i = true := by
  rw [hasEdge_numberedRanges]
  simp only [Told, zero_add]

end Indices

section Order
variable {trees : List Tree} {rng : List ℕ} {w : ℕ}

theorem mem_phraseOrder {n : ℕ} :
    rng ∈ phraseOrder trees n ↔ rng ∈ phraseRanges trees ∨ rng = range n := by
  rw [phraseOrder, mem_append, mem_reverse, mem_insertionSort, mem_singleton]

theorem lt_of_mem_phraseOrder (h : rng ∈ phraseOrder trees (leafCounts trees)) (hw : w ∈ rng) :
    w < leafCounts trees := by
  rcases mem_phraseOrder.mp h with h | h
  · obtain ⟨tree, htree, hrng⟩ := mem_flatMap.mp h
    obtain ⟨start, stop, hcoord, hrange⟩ := coordinated_of_mem tree hrng
    obtain ⟨_, _, hstop⟩ := hcoord.bounds
    obtain ⟨before, after, hsplit⟩ := append_of_mem htree
    rw [hrange, mem_range'_1] at hw
    rw [hsplit, leafCounts_split]
    omega
  · rw [h, mem_range] at hw
    exact hw

end Order

section Together
variable {seen unique : List (List ℕ)} {rng : List ℕ} {w v : ℕ}

theorem together_concat : together (seen ++ [rng]) w v = true ↔
    together seen w v = true ∨ ((∀ r ∈ seen, w ∉ r ∧ v ∉ r) ∧ w ∈ rng ∧ v ∈ rng) := by
  unfold together
  rw [find?_append]
  cases hfind : seen.find? fun r => r.contains w || r.contains v with
  | some r =>
    have hr : r ∈ seen := mem_of_find?_eq_some hfind
    have hholds := find?_some hfind
    simp only [Bool.or_eq_true, contains_iff_mem] at hholds
    have hno : ¬ ∀ r ∈ seen, w ∉ r ∧ v ∉ r := by
      intro hnone
      rcases hholds with hw | hv
      · exact (hnone r hr).1 hw
      · exact (hnone r hr).2 hv
    simp [hno]
  | none =>
    have hnone : ∀ r ∈ seen, w ∉ r ∧ v ∉ r := by simpa using hfind
    by_cases hw : w ∈ rng
    · by_cases hv : v ∈ rng
      · simpa [hw, hv] using hnone
      · simp [hw, hv]
    · by_cases hv : v ∈ rng
      · simp [hw, hv]
      · simp [hw, hv]

theorem together_comm (order : List (List ℕ)) (w v : ℕ) : together order w v = together order v w := by
  unfold together
  have hpred : (fun r : List ℕ => r.contains w || r.contains v) = fun r => r.contains v || r.contains w := by
    funext r
    exact Bool.or_comm _ _
  rw [hpred]
  cases order.find? fun r => r.contains v || r.contains w with
  | none => rfl
  | some r => exact Bool.and_comm _ _

/-- The phrases of the ranges seen cover the same words, none twice, and hold them together. -/
structure PhrasesOf (seen unique : List (List ℕ)) : Prop where
  covered : ∀ w, (∃ u ∈ unique, w ∈ u) ↔ ∃ r ∈ seen, w ∈ r
  disjoint : unique.Pairwise List.Disjoint
  nodup : ∀ u ∈ unique, u.Nodup
  together : ∀ w v, (∃ u ∈ unique, w ∈ u ∧ v ∈ u) ↔ together seen w v = true

theorem mem_newWords : w ∈ newWords unique rng ↔ w ∈ rng ∧ ∀ u ∈ unique, w ∉ u := by
  unfold newWords
  have hfold : ∀ start : List ℕ,
      w ∈ unique.foldl (fun rngSet existing => rngSet.filter fun word => !existing.contains word) start ↔
        w ∈ start ∧ ∀ u ∈ unique, w ∉ u := by
    induction unique with
    | nil => simp
    | cons u unique ih =>
      intro start
      rw [foldl_cons, ih, mem_filter]
      simp [and_assoc]
  rw [hfold, mem_dedup]

theorem nodup_newWords (unique : List (List ℕ)) (rng : List ℕ) : (newWords unique rng).Nodup := by
  have hfold : ∀ start : List ℕ, start.Nodup →
      (unique.foldl (fun rngSet existing => rngSet.filter fun word => !existing.contains word)
        start).Nodup := by
    induction unique with
    | nil => exact fun _ h => h
    | cons u unique ih => exact fun start h => ih _ (h.filter _)
  exact hfold _ (nodup_dedup rng)

theorem addPhrase_eq (unique : List (List ℕ)) (rng : List ℕ) : addPhrase unique rng =
      if newWords unique rng = [] then unique
      else unique ++ [(newWords unique rng).insertionSort (· ≤ ·)] := by
  unfold addPhrase
  cases hnew : newWords unique rng with
  | nil => simp
  | cons w later =>
    rw [if_neg (cons_ne_nil w later)]
    have hno : unique.any (fun existing => (w :: later).all existing.contains) = false := by
      rw [any_eq_false]
      intro u hu hall
      rw [all_eq_true] at hall
      have hin := hall w mem_cons_self
      rw [contains_iff_mem] at hin
      have hw : w ∈ newWords unique rng := by simp [hnew]
      exact (mem_newWords.mp hw).2 u hu hin
    simp only [hno, isEmpty_cons, Bool.not_false, Bool.and_true, if_true]

theorem PhrasesOf.nil : PhrasesOf [] [] := by
  refine ⟨by simp, .nil, by simp, ?_⟩
  simp [Utseg.together]

theorem PhrasesOf.addPhrase (h : PhrasesOf seen unique) (rng : List ℕ) :
    PhrasesOf (seen ++ [rng]) (addPhrase unique rng) := by
  have hfresh : ∀ w, (∀ u ∈ unique, w ∉ u) ↔ ∀ r ∈ seen, w ∉ r := by
    intro w
    have hcovered := not_congr (h.covered w)
    simpa using hcovered
  have hadded : ∀ P : List ℕ → Prop, ¬ P [] → ((∃ u ∈ Utseg.addPhrase unique rng, P u) ↔
        (∃ u ∈ unique, P u) ∨ P ((newWords unique rng).insertionSort (· ≤ ·))) := by
    intro P hnil
    rw [addPhrase_eq]
    split
    · rename_i hnone
      rw [hnone, insertionSort_nil]
      exact (or_iff_left hnil).symm
    · simp [or_and_right, exists_or]
  have hmem : ∀ w, w ∈ (newWords unique rng).insertionSort (· ≤ ·) ↔
      w ∈ rng ∧ ∀ r ∈ seen, w ∉ r := by
    intro w
    rw [mem_insertionSort, mem_newWords, hfresh]
  refine ⟨?_, ?_, ?_, ?_⟩
  · intro w
    rw [hadded (w ∈ ·) (by simp), h.covered, hmem]
    simp only [mem_append, mem_singleton, or_and_right, exists_or, exists_eq_left]
    constructor
    · rintro (hold | ⟨hnew, _⟩)
      · exact Or.inl hold
      · exact Or.inr hnew
    · rintro (hold | hnew)
      · exact Or.inl hold
      · by_cases hold : ∃ r ∈ seen, w ∈ r
        · exact Or.inl hold
        · exact Or.inr ⟨hnew, fun r hr hwr => hold ⟨r, hr, hwr⟩⟩
  · rw [addPhrase_eq]
    split
    · exact h.disjoint
    · rw [pairwise_append]
      refine ⟨h.disjoint, pairwise_singleton _ _, ?_⟩
      intro u hu u' hu' w hwu hwu'
      rw [mem_singleton.mp hu', mem_insertionSort, mem_newWords] at hwu'
      exact hwu'.2 u hu hwu
  · intro u hu
    rw [addPhrase_eq] at hu
    split at hu
    · exact h.nodup u hu
    · rcases mem_append.mp hu with hu | hu
      · exact h.nodup u hu
      · rw [mem_singleton.mp hu, (perm_insertionSort _ _).nodup_iff]
        exact nodup_newWords unique rng
  · intro w v
    rw [hadded (fun u => w ∈ u ∧ v ∈ u) (by simp), h.together, together_concat, hmem, hmem]
    constructor
    · rintro (hold | ⟨⟨hw, hfw⟩, hv, hfv⟩)
      · exact Or.inl hold
      · exact Or.inr ⟨fun r hr => ⟨hfw r hr, hfv r hr⟩, hw, hv⟩
    · rintro (hold | ⟨hnone, hw, hv⟩)
      · exact Or.inl hold
      · exact Or.inr ⟨⟨hw, fun r hr => (hnone r hr).1⟩, hv, fun r hr => (hnone r hr).2⟩

theorem phrasesOf_foldl (order : List (List ℕ)) : PhrasesOf order (order.foldl addPhrase []) := by
  induction order using reverseRecOn with
  | nil => exact .nil
  | append_singleton order rng ih =>
    rw [foldl_append]
    exact ih.addPhrase rng

end Together

section Labels
variable {labels assigned : List (Option ℕ)} {n i m k w : ℕ} {phrases : List (List ℕ)}

theorem getElem?_setAt {α : Type} {xs ys : List α} {x : α} (h : setAt xs i x = some ys) (w : ℕ) :
    ys[w]? = if w = i then some x else xs[w]? := by
  unfold setAt at h
  split at h
  · rename_i hlt
    cases h
    by_cases heq : w = i
    · simp [heq, hlt]
    · simp [heq, Ne.symm heq]
  · cases h

theorem assignPhrase_spec (hlabels : labels.length = n) (phrase : List ℕ × ℕ) :
    ∃ labels', assignPhrase n labels phrase = some labels' ∧ labels'.length = n ∧
      ∀ w, w < n → labels'[w]? = if w ∈ phrase.1 then some (some phrase.2) else labels[w]? := by
  obtain ⟨phrase, phraseId⟩ := phrase
  unfold assignPhrase
  induction phrase generalizing labels with
  | nil => exact ⟨labels, rfl, hlabels, by simp⟩
  | cons idx phrase ih =>
    have hfirst : ∃ next, assignWord n phraseId labels idx = some next ∧ next.length = n ∧
        ∀ w, w < n → next[w]? = if w = idx then some (some phraseId) else labels[w]? := by
      unfold assignWord
      split
      · rename_i hidx
        obtain ⟨next, hnext, hlength⟩ := exists_setAt hlabels hidx (some phraseId)
        exact ⟨next, hnext, hlength, fun w _ => getElem?_setAt hnext w⟩
      · refine ⟨labels, rfl, hlabels, ?_⟩
        intro w hw
        rw [if_neg (by omega)]
    obtain ⟨next, hnext, hlength, hvalue⟩ := hfirst
    obtain ⟨labels', hlabels', hlength', hvalue'⟩ := ih hlength
    refine ⟨labels', ?_, hlength', ?_⟩
    · rw [foldlM_cons, hnext]
      exact hlabels'
    · intro w hw
      rw [hvalue' w hw, hvalue w hw]
      by_cases hin : w ∈ phrase
      · simp [hin]
      · simp [hin]

theorem assignPhrases_spec (hlabels : labels.length = n) (hdisjoint : phrases.Pairwise List.Disjoint) :
    ∃ labels', (phrases.zipIdx k).foldlM (assignPhrase n) labels = some labels' ∧ labels'.length = n ∧
      (∀ w, w < n → (∀ u ∈ phrases, w ∉ u) → labels'[w]? = labels[w]?) ∧
      ∀ w, w < n → ∀ j u, phrases[j]? = some u → w ∈ u → labels'[w]? = some (some (k + j)) := by
  induction phrases generalizing labels k with
  | nil => exact ⟨labels, rfl, hlabels, by simp, by simp⟩
  | cons phrase phrases ih =>
    rw [pairwise_cons] at hdisjoint
    obtain ⟨next, hnext, hlength, hvalue⟩ := assignPhrase_spec hlabels (phrase, k)
    obtain ⟨labels', hlabels', hlength', hnone, hsome⟩ := @ih next (k + 1) hlength hdisjoint.2
    refine ⟨labels', ?_, hlength', ?_, ?_⟩
    · rw [zipIdx_cons, foldlM_cons, hnext]
      exact hlabels'
    · intro w hw hno
      rw [hnone w hw (fun u hu => hno u (mem_cons_of_mem phrase hu)), hvalue w hw,
        if_neg (hno phrase mem_cons_self)]
    · intro w hw j u hu hwu
      cases j with
      | zero =>
        have heq : phrase = u := by simpa using hu
        -- no later phrase holds the word, so this label stays
        have hno : ∀ u' ∈ phrases, w ∉ u' := fun u' hu' hwu' =>
          hdisjoint.1 u' hu' (heq ▸ hwu) hwu'
        rw [hnone w hw hno, hvalue w hw, if_pos (heq ▸ hwu), add_zero]
      | succ j =>
        rw [hsome w hw j u hu hwu, add_assoc, add_comm 1 j]

def phraseAt (labels : List (Option ℕ)) (w : ℕ) : Option ℕ := (labels[w]?).join

def filledPhrase (labels : List (Option ℕ)) (n w : ℕ) : Option ℕ :=
  ((List.range' w (n - w)).findSome? (phraseAt labels)).or
    ((List.range w).reverse.findSome? (phraseAt labels))

theorem findPhrase_eq {js : List ℕ} {phrase : ℕ → Option ℕ} (hjs : ∀ j ∈ js, j < labels.length)
    (hphrase : ∀ j ∈ js, phraseAt labels j = phrase j) :
    findPhrase labels js = some (js.findSome? phrase) := by
  induction js with
  | nil => rfl
  | cons j js ih =>
    have hj : j < labels.length := hjs j mem_cons_self
    have hget : labels[j]? = some labels[j] := getElem?_eq_getElem hj
    have hlater := ih (fun j' hj' => hjs j' (mem_cons_of_mem j hj'))
      (fun j' hj' => hphrase j' (mem_cons_of_mem j hj'))
    rw [findPhrase, findSome?_cons, ← hphrase j mem_cons_self, phraseAt, hget]
    cases labels[j] with
    | none => exact hlater
    | some phraseId => rfl

theorem range'_from (hm : m < n) : range' m (n - m) = m :: range' (m + 1) (n - (m + 1)) := by
  have hlen : n - m = n - (m + 1) + 1 := by omega
  rw [hlen, range'_succ]

theorem findSome?_filledPhrase (hm : m ≤ n)
    (hnone : (range' m (n - m)).findSome? (phraseAt labels) = none) :
    (range m).reverse.findSome? (filledPhrase labels n) =
      (range m).reverse.findSome? (phraseAt labels) := by
  cases m with
  | zero => rfl
  | succ m =>
    have hrev : (range (m + 1)).reverse = m :: (range m).reverse := by
      rw [range_succ, reverse_append, reverse_singleton, singleton_append]
    have hlast : filledPhrase labels n m = (range (m + 1)).reverse.findSome? (phraseAt labels) := by
      rw [filledPhrase, range'_from hm, hrev, findSome?_cons, findSome?_cons, hnone]
      cases phraseAt labels m <;> rfl
    cases hfound : (range (m + 1)).reverse.findSome? (phraseAt labels) with
    | some phraseId => rw [hrev, findSome?_cons, hlast, hfound]
    | none =>
      rw [findSome?_eq_none_iff] at hfound hnone ⊢
      have hall : ∀ j, j < n → phraseAt labels j = none := by
        intro j hj
        by_cases hjm : j < m + 1
        · exact hfound j (by simpa using hjm)
        · exact hnone j (by rw [mem_range'_1]; omega)
      intro j hj
      have hjm : j < m + 1 := by simpa using hj
      rw [filledPhrase, Option.or_eq_none_iff, findSome?_eq_none_iff, findSome?_eq_none_iff]
      constructor
      · intro j' hj'
        rw [mem_range'_1] at hj'
        exact hall j' (by omega)
      · intro j' hj'
        rw [mem_reverse, mem_range] at hj'
        exact hall j' (by omega)

/-- The words before `m` are filled, the others as they were. -/
structure FilledUpTo (assigned : List (Option ℕ)) (n m : ℕ) (labels : List (Option ℕ)) : Prop where
  length : labels.length = n
  rest : ∀ w, m ≤ w → phraseAt labels w = phraseAt assigned w
  done : ∀ w, w < m → phraseAt labels w = filledPhrase assigned n w

theorem phraseAt_setAt {labels' : List (Option ℕ)} {phraseId : ℕ}
    (h : setAt labels i (some phraseId) = some labels') (w : ℕ) :
    phraseAt labels' w = if w = i then some phraseId else phraseAt labels w := by
  rw [phraseAt, getElem?_setAt h]
  split
  · rfl
  · rfl

section
variable (h : FilledUpTo assigned n m labels)
include h

theorem FilledUpTo.set (hm : m < n) {phraseId : ℕ} (hphrase : filledPhrase assigned n m = some phraseId) :
    ∃ labels', setAt labels m (some phraseId) = some labels' ∧ FilledUpTo assigned n (m + 1) labels' := by
  obtain ⟨labels', hset, hlength⟩ := exists_setAt h.length hm (some phraseId)
  refine ⟨labels', hset, hlength, ?_, ?_⟩
  · intro w hw
    rw [phraseAt_setAt hset, if_neg (by omega), h.rest w (by omega)]
  · intro w hw
    rw [phraseAt_setAt hset]
    split
    · rename_i heq
      rw [heq, hphrase]
    · exact h.done w (by omega)

theorem FilledUpTo.keep (hphrase : filledPhrase assigned n m = phraseAt assigned m) :
    FilledUpTo assigned n (m + 1) labels := by
  refine ⟨h.length, fun w hw => h.rest w (by omega), ?_⟩
  intro w hw
  by_cases heq : w = m
  · rw [heq, hphrase, h.rest m (le_refl m)]
  · exact h.done w (by omega)

theorem FilledUpTo.fillWord (hm : m < n) :
    ∃ labels', fillWord n labels m = some labels' ∧ FilledUpTo assigned n (m + 1) labels' := by
  have hlt : m < labels.length := by rw [h.length]; exact hm
  have hget : labels[m]? = some labels[m] := getElem?_eq_getElem hlt
  have hown : phraseAt assigned m = labels[m] := by
    rw [← h.rest m (le_refl m), phraseAt, hget]
    rfl
  have hafter : findPhrase labels (range' (m + 1) (n - (m + 1))) =
      some ((range' (m + 1) (n - (m + 1))).findSome? (phraseAt assigned)) := by
    refine findPhrase_eq ?_ ?_
    · intro j hj
      rw [mem_range'_1] at hj
      rw [h.length]
      omega
    · intro j hj
      rw [mem_range'_1] at hj
      exact h.rest j (by omega)
  have hbefore : findPhrase labels (range m).reverse =
      some ((range m).reverse.findSome? (filledPhrase assigned n)) := by
    refine findPhrase_eq ?_ ?_
    · intro j hj
      rw [mem_reverse, mem_range] at hj
      omega
    · intro j hj
      rw [mem_reverse, mem_range] at hj
      exact h.done j hj
  have hfilled : filledPhrase assigned n m = ((phraseAt assigned m).or
        ((range' (m + 1) (n - (m + 1))).findSome? (phraseAt assigned))).or
        ((range m).reverse.findSome? (phraseAt assigned)) := by
    rw [filledPhrase, range'_from hm, findSome?_cons]
    cases phraseAt assigned m <;> rfl
  rw [Utseg.fillWord, hget, hafter, hbefore]
  cases hlabel : labels[m] with
  | some phraseId =>
    rw [hlabel] at hown
    rw [hown] at hfilled
    exact ⟨labels, rfl, h.keep (hfilled.trans hown.symm)⟩
  | none =>
    rw [hlabel] at hown
    rw [hown, Option.none_or] at hfilled
    cases hnext : (range' (m + 1) (n - (m + 1))).findSome? (phraseAt assigned) with
    | some phraseId =>
      rw [hnext] at hfilled
      exact h.set hm hfilled
    | none =>
      have hnone : (range' m (n - m)).findSome? (phraseAt assigned) = none := by
        rw [range'_from hm, findSome?_cons, hown, hnext]
      rw [hnext, Option.none_or, ← findSome?_filledPhrase (by omega) hnone] at hfilled
      cases hprevious : (range m).reverse.findSome? (filledPhrase assigned n) with
      | some phraseId =>
        rw [hprevious] at hfilled
        exact h.set hm hfilled
      | none =>
        rw [hprevious] at hfilled
        exact ⟨labels, rfl, h.keep (hfilled.trans hown.symm)⟩

end

theorem exists_filled (hassigned : assigned.length = n) :
    ∃ labels, (range n).foldlM (fillWord n) assigned = some labels ∧
      labels.length = n ∧ ∀ w, w < n → phraseAt labels w = filledPhrase assigned n w := by
  have hrun : ∀ m, m ≤ n → ∃ labels, (range m).foldlM (fillWord n) assigned = some labels ∧
      FilledUpTo assigned n m labels := by
    intro m
    induction m with
    | zero => exact fun _ => ⟨assigned, rfl, hassigned, fun _ _ => rfl, fun _ hw => absurd hw (Nat.not_lt_zero _)⟩
    | succ m ih =>
      intro hm
      obtain ⟨labels, hlabels, hfilled⟩ := ih (by omega)
      obtain ⟨labels', hlabels', hfilled'⟩ := hfilled.fillWord (by omega)
      refine ⟨labels', ?_, hfilled'⟩
      rw [range_succ, foldlM_append, hlabels]
      simpa using hlabels'
  obtain ⟨labels, hlabels, hfilled⟩ := hrun n (le_refl n)
  exact ⟨labels, hlabels, hfilled.length, fun w hw => hfilled.done w hw⟩

end Labels

section Voices
variable {trees : List Tree} {assigned labels : List (Option ℕ)} {i w v a : ℕ}

structure SaysTogether (order : List (List ℕ)) (n : ℕ) (assigned : List (Option ℕ)) : Prop where
  length : assigned.length = n
  some_iff : ∀ w, w < n → (phraseAt assigned w).isSome = accompanied order n w
  same_iff : ∀ w v, w < n → v < n → accompanied order n w = true → accompanied order n v = true →
    (phraseAt assigned w = phraseAt assigned v ↔ together order w v = true)

theorem accompanied_iff {order : List (List ℕ)} {n : ℕ} :
    accompanied order n w = true ↔ ∃ v, v < n ∧ v ≠ w ∧ together order w v = true := by
  simp [accompanied]

theorem exists_ne_of_mem {u : List ℕ} (hnodup : u.Nodup) (hlength : 1 < u.length) (w : ℕ) :
    ∃ v ∈ u, v ≠ w := by
  by_contra hall
  push Not at hall
  have hrep : u = replicate u.length w := eq_replicate_of_mem hall
  rw [hrep, nodup_replicate] at hnodup
  omega

theorem one_lt_length {u : List ℕ} (hw : w ∈ u) (hv : v ∈ u) (hne : v ≠ w) : 1 < u.length := by
  by_contra hle
  have hshort : u.length ≤ 1 := by omega
  match u, hw, hv, hshort with
  | [x], hw, hv, _ =>
    rw [mem_singleton] at hw hv
    exact hne (hv.trans hw.symm)

theorem accompanied_iff_mem {n : ℕ} (hn : n = leafCounts trees) (hw : w < n) :
    accompanied (phraseOrder trees n) n w = true ↔ ∃ u ∈ uniqueRanges trees n, w ∈ u := by
  subst hn
  have hphrases := phrasesOf_foldl (phraseOrder trees (leafCounts trees))
  rw [accompanied_iff]
  simp only [uniqueRanges, mem_filter, mem_reverse, decide_eq_true_eq]
  constructor
  · rintro ⟨v, _, hne, htogether⟩
    obtain ⟨u, hu, hwu, hvu⟩ := (hphrases.together w v).mpr htogether
    exact ⟨u, ⟨hu, one_lt_length hwu hvu hne⟩, hwu⟩
  · rintro ⟨u, ⟨hu, hlength⟩, hwu⟩
    obtain ⟨v, hvu, hne⟩ := exists_ne_of_mem (hphrases.nodup u hu) hlength w
    obtain ⟨rng, hrng, hv⟩ := (hphrases.covered v).mp ⟨u, hu, hvu⟩
    exact ⟨v, lt_of_mem_phraseOrder hrng hv, hne, (hphrases.together w v).mp ⟨u, hu, hwu, hvu⟩⟩

theorem disjoint_uniqueRanges (trees : List Tree) (n : ℕ) :
    (uniqueRanges trees n).Pairwise List.Disjoint := by
  have hphrases := phrasesOf_foldl (phraseOrder trees n)
  refine Pairwise.filter _ ?_
  rw [pairwise_reverse]
  exact hphrases.disjoint.imp fun h => h.symm

theorem exists_assigned (trees : List Tree) {n : ℕ} (hn : n = leafCounts trees) :
    ∃ assigned, (uniqueRanges trees n).zipIdx.foldlM (assignPhrase n)
        (replicate n none) = some assigned ∧ SaysTogether (phraseOrder trees n) n assigned := by
  have hphrases := phrasesOf_foldl (phraseOrder trees n)
  obtain ⟨assigned, hassigned, hlength, hnone, hsome⟩ :=
    @assignPhrases_spec (replicate n none) n 0 (uniqueRanges trees n) length_replicate
      (disjoint_uniqueRanges trees n)
  have hphrase : ∀ w, w < n → ∀ j u, (uniqueRanges trees n)[j]? = some u → w ∈ u →
      phraseAt assigned w = some j := by
    intro w hw j u hu hwu
    rw [phraseAt, hsome w hw j u hu hwu, zero_add]
    rfl
  refine ⟨assigned, hassigned, hlength, ?_, ?_⟩
  · intro w hw
    rw [Bool.eq_iff_iff, accompanied_iff_mem hn hw]
    constructor
    · intro hlabel
      by_contra hno
      push Not at hno
      rw [phraseAt, hnone w hw hno, getElem?_replicate_of_lt hw] at hlabel
      simp at hlabel
    · rintro ⟨u, hu, hwu⟩
      obtain ⟨j, hj⟩ := mem_iff_getElem?.mp hu
      rw [hphrase w hw j u hj hwu]
      rfl
  · intro w v hw hv hwacc hvacc
    obtain ⟨u, hu, hwu⟩ := (accompanied_iff_mem hn hw).mp hwacc
    obtain ⟨u', hu', hvu'⟩ := (accompanied_iff_mem hn hv).mp hvacc
    obtain ⟨j, hj⟩ := mem_iff_getElem?.mp hu
    obtain ⟨j', hj'⟩ := mem_iff_getElem?.mp hu'
    rw [hphrase w hw j u hj hwu, hphrase v hv j' u' hj' hvu']
    constructor
    · intro heq
      cases heq
      rw [hj] at hj'
      cases hj'
      have hunique : u ∈ (phraseOrder trees n).foldl addPhrase [] := by
        have hfiltered := (mem_filter.mp hu).1
        rwa [mem_reverse] at hfiltered
      exact (hphrases.together w v).mp ⟨u, hunique, hwu, hvu'⟩
    · intro htogether
      rw [← hphrase w hw j u hj hwu, ← hphrase v hv j' u' hj' hvu']
      by_cases hne : v = w
      · rw [hne]
      · obtain ⟨both, hboth, hwb, hvb⟩ := (hphrases.together w v).mpr htogether
        have hkept : both ∈ uniqueRanges trees n :=
          mem_filter.mpr ⟨mem_reverse.mpr hboth, by simpa using one_lt_length hwb hvb hne⟩
        obtain ⟨l, hl⟩ := mem_iff_getElem?.mp hkept
        rw [hphrase w hw l both hl hwb, hphrase v hv l both hl hvb]

theorem findSome?_eq_bind {f : ℕ → Option ℕ} {p : ℕ → Bool} {ws : List ℕ}
    (h : ∀ w ∈ ws, (f w).isSome = p w) : ws.findSome? f = (ws.find? p).bind f := by
  induction ws with
  | nil => rfl
  | cons w ws ih =>
    have hlater := ih (fun w' hw' => h w' (mem_cons_of_mem w hw'))
    have hfirst := h w mem_cons_self
    rw [findSome?_cons, find?_cons]
    cases hf : f w with
    | none =>
      rw [hf] at hfirst
      rw [← hfirst]
      exact hlater
    | some phraseId =>
      rw [hf] at hfirst
      rw [← hfirst]
      exact hf.symm

variable {order : List (List ℕ)} {n : ℕ}

theorem SaysTogether.filledPhrase_eq (h : SaysTogether order n assigned) (hw : w < n) :
    filledPhrase assigned n w = (voice order n w).bind (phraseAt assigned) := by
  have hafter : ∀ v ∈ range' w (n - w), (phraseAt assigned v).isSome = accompanied order n v := by
    intro v hv
    rw [mem_range'_1] at hv
    exact h.some_iff v (by omega)
  have hbefore : ∀ v ∈ (range w).reverse, (phraseAt assigned v).isSome = accompanied order n v := by
    intro v hv
    rw [mem_reverse, mem_range] at hv
    exact h.some_iff v (by omega)
  rw [filledPhrase, voice, findSome?_eq_bind hafter, findSome?_eq_bind hbefore]
  cases hfind : (range' w (n - w)).find? (accompanied order n) with
  | none => rfl
  | some v =>
    have hv := hafter v (mem_of_find?_eq_some hfind)
    rw [find?_some hfind, Option.isSome_iff_exists] at hv
    obtain ⟨phraseId, hphrase⟩ := hv
    simp [hphrase]

theorem voice_spec (hw : w < n) (h : voice order n w = some a) :
    a < n ∧ accompanied order n a = true := by
  rw [voice, Option.or_eq_some_iff] at h
  rcases h with h | ⟨_, h⟩
  · have hmem := mem_of_find?_eq_some h
    rw [mem_range'_1] at hmem
    exact ⟨by omega, find?_some h⟩
  · have hmem := mem_of_find?_eq_some h
    rw [mem_reverse, mem_range] at hmem
    exact ⟨by omega, find?_some h⟩

theorem exists_voice (ha : a < n) (hacc : accompanied order n a = true) (w : ℕ) :
    ∃ b, voice order n w = some b := by
  rw [← Option.isSome_iff_exists, voice, Option.isSome_or, Bool.or_eq_true, find?_isSome,
    find?_isSome]
  by_cases hle : w ≤ a
  · exact Or.inl ⟨a, by rw [mem_range'_1]; omega, hacc⟩
  · exact Or.inr ⟨a, by simp; omega, hacc⟩

theorem voice_self (hw : w < n) (hacc : accompanied order n w = true) : voice order n w = some w := by
  rw [voice, range'_from hw, find?_cons_of_pos hacc]
  rfl

end Voices

section Cuts
variable {trees : List Tree} {assigned labels : List (Option ℕ)} {order : List (List ℕ)}
  {n i w v a : ℕ}

theorem SaysTogether.same_label_iff (h : SaysTogether order n assigned) (hlabels : labels.length = n)
    (hfilled : ∀ w, w < n → phraseAt labels w = filledPhrase assigned n w) (ha : a < n)
    (hacc : accompanied order n a = true) (hw : w < n) (hv : v < n) :
    labels[w]? = labels[v]? ↔ samePhrase order n w v = true := by
  obtain ⟨b, hb⟩ := exists_voice ha hacc w
  obtain ⟨c, hc⟩ := exists_voice ha hacc v
  obtain ⟨hbn, hbacc⟩ := voice_spec hw hb
  obtain ⟨hcn, hcacc⟩ := voice_spec hv hc
  have hgetw : labels[w]? = some (phraseAt labels w) := by
    have hlt : w < labels.length := by omega
    rw [phraseAt, getElem?_eq_getElem hlt]
    rfl
  have hgetv : labels[v]? = some (phraseAt labels v) := by
    have hlt : v < labels.length := by omega
    rw [phraseAt, getElem?_eq_getElem hlt]
    rfl
  rw [hgetw, hgetv, hfilled w hw, hfilled v hv, h.filledPhrase_eq hw, h.filledPhrase_eq hv,
    samePhrase, hb, hc, Option.some.injEq]
  exact h.same_iff b c hbn hcn hbacc hcacc

theorem exists_accompanied (hw : w < n) (h : threeTogether order n w = true) :
    ∃ a, a < n ∧ accompanied order n a = true := by
  rw [threeTogether, Bool.and_eq_true, samePhrase] at h
  cases hvoice : voice order n w with
  | none =>
    rw [hvoice] at h
    simp at h
  | some a => exact ⟨a, voice_spec hw hvoice⟩

theorem SaysTogether.threeAlike_iff (h : SaysTogether order n assigned) (hlabels : labels.length = n)
    (hfilled : ∀ w, w < n → phraseAt labels w = filledPhrase assigned n w) (ha : a < n)
    (hacc : accompanied order n a = true) (hw : w + 2 < n) :
    ThreeAlike labels w ↔ threeTogether order n w = true := by
  have hsame : ∀ {u v}, u < n → v < n → (labels[u]? = labels[v]? ↔ samePhrase order n u v = true) :=
    fun hu hv => h.same_label_iff hlabels hfilled ha hacc hu hv
  rw [threeTogether, Bool.and_eq_true, ThreeAlike, hsame (by omega) (by omega),
    hsame (by omega) (by omega)]

theorem SaysTogether.endsGroup_iff (h : SaysTogether (phraseOrder trees n) n assigned)
    (hlabels : labels.length = n) (hfilled : ∀ w, w < n → phraseAt labels w = filledPhrase assigned n w) :
    (labels.any Option.isNone = false ∧ EndsGroup labels n i) ↔ Separated trees n i := by
  -- both sides speak of words with a phrase, so some word is together with another
  have hiff : ∀ {a}, a < n → accompanied (phraseOrder trees n) n a = true →
      (EndsGroup labels n i ↔ Separated trees n i) := by
    intro a ha hacc
    have hsame : ∀ {u v}, u < n → v < n →
        (labels[u]? = labels[v]? ↔ samePhrase (phraseOrder trees n) n u v = true) :=
      fun hu hv => h.same_label_iff hlabels hfilled ha hacc hu hv
    have hthree : ∀ {u}, u + 2 < n →
        (ThreeAlike labels u ↔ threeTogether (phraseOrder trees n) n u = true) :=
      fun hu => h.threeAlike_iff hlabels hfilled ha hacc hu
    constructor
    · rintro ⟨hge, hlt, hne, halike, j, hle, hj, hlater⟩
      refine ⟨hge, hlt, ?_, (hthree (by omega)).mp halike, j, hle, hj, (hthree hj).mp hlater⟩
      rwa [Ne, hsame hlt (by omega), Bool.not_eq_true] at hne
    · rintro ⟨hge, hlt, hne, halike, j, hle, hj, hlater⟩
      refine ⟨hge, hlt, ?_, (hthree (by omega)).mpr halike, j, hle, hj, (hthree hj).mpr hlater⟩
      rwa [Ne, hsame hlt (by omega), Bool.not_eq_true]
  constructor
  · rintro ⟨hsome, hends⟩
    have hi : i < n := hends.2.1
    have hget : i < labels.length := by omega
    rw [any_eq_false] at hsome
    have hlabel := hsome labels[i] (getElem_mem hget)
    have hphrase : phraseAt labels i = labels[i] := by
      rw [phraseAt, getElem?_eq_getElem hget]
      rfl
    rw [← hphrase, hfilled i hi, h.filledPhrase_eq hi] at hlabel
    cases hvoice : voice (phraseOrder trees n) n i with
    | none =>
      rw [hvoice] at hlabel
      simp at hlabel
    | some a =>
      obtain ⟨ha, hacc⟩ := voice_spec hi hvoice
      exact (hiff ha hacc).mp hends
  · intro hsep
    obtain ⟨a, ha, hacc⟩ := exists_accompanied (by have := hsep.2.1; omega) hsep.2.2.2.1
    refine ⟨?_, (hiff ha hacc).mpr hsep⟩
    rw [any_eq_false]
    intro label hlabel
    obtain ⟨w, hw⟩ := mem_iff_getElem?.mp hlabel
    have hwn : w < n := by
      have hlt := (List.getElem?_eq_some_iff.mp hw).1
      omega
    obtain ⟨b, hb⟩ := exists_voice ha hacc w
    obtain ⟨hbn, hbacc⟩ := voice_spec hwn hb
    have hphrase : phraseAt labels w = label := by
      rw [phraseAt, hw]
      rfl
    rw [← hphrase, hfilled w hwn, h.filledPhrase_eq hwn, hb, Option.bind_some,
      Option.isNone_iff_eq_none]
    have hsome := h.some_iff b hbn
    rw [hbacc, Option.isSome_iff_ne_none] at hsome
    exact hsome

theorem GroupIds.congr {cuts cuts' : ℕ → Prop} {out : List ℕ} (h : GroupIds n cuts out)
    (hiff : ∀ i, i < n → (cuts i ↔ cuts' i)) : GroupIds n cuts' out := by
  refine ⟨h.length, h.first, ?_, h.size⟩
  intro i a b ha hb
  have hi : i + 1 < n := by
    have hlt := (List.getElem?_eq_some_iff.mp hb).1
    rwa [h.length] at hlt
  rw [← hiff (i + 1) hi]
  exact h.step i a b ha hb

theorem groupIds_computeAssignments (trees : List Tree) :
    ∃ out, computeAssignments trees (leafCounts trees) = some out ∧
      GroupIds (leafCounts trees) (Separated trees (leafCounts trees)) out := by
  unfold computeAssignments
  split
  · refine ⟨_, rfl, groupIds_replicate ?_⟩
    intro i hi hsep
    have hge := hsep.1
    omega
  · simp only
    split
    · rename_i hempty
      refine ⟨_, rfl, groupIds_replicate ?_⟩
      intro i hi hsep
      obtain ⟨a, ha, hacc⟩ := exists_accompanied (by omega) hsep.2.2.2.1
      obtain ⟨u, hu, _⟩ := (accompanied_iff_mem rfl ha).mp hacc
      rw [List.isEmpty_iff] at hempty
      rw [hempty] at hu
      cases hu
    · obtain ⟨assigned, hassigned, hsays⟩ := exists_assigned trees rfl
      obtain ⟨labels, hlabels, hlength, hfilled⟩ := exists_filled hsays.length
      have hphrases : wordPhrases (uniqueRanges trees (leafCounts trees)) (leafCounts trees) =
          some labels := by
        rw [wordPhrases, hassigned]
        exact hlabels
      obtain ⟨out, hout, hids⟩ := groupIds_assignmentsOf hlength (by omega)
      refine ⟨out, ?_, hids.congr fun i _ => hsays.endsGroup_iff hlength hfilled⟩
      rw [hphrases]
      exact hout

theorem Separated.toldFromZero (h : Separated trees n i) : ToldFromZero trees i := by
  obtain ⟨hge, hlt, hne, _⟩ := h
  have hapart : together (phraseOrder trees n) i (i - 1) = false := by
    by_contra hyes
    rw [Bool.not_eq_false] at hyes
    have hback : together (phraseOrder trees n) (i - 1) i = true := by rwa [together_comm]
    have hi : accompanied (phraseOrder trees n) n i = true :=
      accompanied_iff.mpr ⟨i - 1, by omega, by omega, hyes⟩
    have hi' : accompanied (phraseOrder trees n) n (i - 1) = true :=
      accompanied_iff.mpr ⟨i, hlt, by omega, hback⟩
    rw [samePhrase, voice_self hlt hi, voice_self (by omega) hi'] at hne
    simp only [hyes] at hne
    cases hne
  unfold together at hapart
  have hfull : ∃ rng, (phraseOrder trees n).find? (fun rng => rng.contains i || rng.contains (i - 1)) =
      some rng := by
    rw [← Option.isSome_iff_exists, find?_isSome]
    exact ⟨range n, mem_phraseOrder.mpr (Or.inr rfl), by simp [hlt]⟩
  obtain ⟨rng, hrng⟩ := hfull
  have hone := find?_some hrng
  rw [hrng] at hapart
  simp only [Bool.or_eq_true, contains_iff_mem] at hone
  rw [← Bool.not_eq_true, Bool.and_eq_true, contains_iff_mem, contains_iff_mem] at hapart
  rcases mem_phraseOrder.mp (mem_of_find?_eq_some hrng) with hrange | hrange
  · obtain ⟨tree, htree, hin⟩ := mem_flatMap.mp hrange
    obtain ⟨start, stop, hcoord, heq⟩ := coordinated_of_mem tree hin
    rw [heq, mem_range'_1, mem_range'_1] at hone hapart
    exact ⟨tree, htree, start, stop, hcoord, by omega, by omega⟩
  · rw [hrange, mem_range, mem_range] at hapart
    omega

/-- The assignments cut only where a tree says exactly when every edge the numbering from 0 makes a cut is one
  in the words' own. -/
theorem cutsWhereTold_iff (trees : List Tree) : CutsWhereTold trees (leafCounts trees) ↔
      ∀ i, ToldFromZero trees i → Separated trees (leafCounts trees) i → Told trees i := by
  obtain ⟨out, hout, hids⟩ := groupIds_computeAssignments trees
  have hcut : ∀ i, 0 < i → i < leafCounts trees →
      (out[i]? ≠ out[i - 1]? ↔ Separated trees (leafCounts trees) i) := by
    intro i hi hlt
    obtain ⟨j, rfl⟩ : ∃ j, i = j + 1 := ⟨i - 1, by omega⟩
    have hlen := hids.length
    have ha : out[j]? = some out[j] := getElem?_eq_getElem (by omega)
    have hb : out[j + 1]? = some out[j + 1] := getElem?_eq_getElem (by omega)
    rw [Nat.add_sub_cancel, ha, hb, Ne, Option.some.injEq]
    rcases hids.step j _ _ ha hb with ⟨heq, hno⟩ | ⟨heq, hyes⟩
    · simp [heq, hno]
    · simp [heq, hyes]
  constructor
  · rintro ⟨out', hout', htold⟩ i _ hsep
    rw [hout] at hout'
    cases hout'
    have hge := hsep.1
    have hlt := hsep.2.1
    exact htold i (by omega) hlt ((hcut i (by omega) hlt).mpr hsep)
  · intro hagree
    refine ⟨out, hout, ?_⟩
    intro i hi hlt hne
    have hsep := (hcut i hi hlt).mp hne
    exact hagree i hsep.toldFromZero hsep

def twoSentences : List Tree :=
  let clause (x y z : Char) : Tree := .node ['S'] [.leaf [x], .leaf [y], .leaf [z]] none
  [.node ['X'] [.leaf ['a']] none,
    .node ['S'] [clause 'b' 'c' 'd', .node ['C', 'C'] [.leaf ['e']] none, clause 'f' 'g' 'h'] none]

/-- The second sentence's words are numbered one too early. -/
theorem second_sentence_cut_early :
    read ["(X a)".toList, "(S (S b c d) (CC e) (S f g h))".toList] = .ok twoSentences ∧
      computeAssignments twoSentences (leafCounts twoSentences) = some [0, 0, 0, 1, 1, 1, 1, 1] ∧
      ¬ Told twoSentences 3 ∧ ¬ CutsWhereTold twoSentences (leafCounts twoSentences) := by
  have hout : computeAssignments twoSentences (leafCounts twoSentences) =
      some [0, 0, 0, 1, 1, 1, 1, 1] := by decide
  have hno : ¬ Told twoSentences 3 := by
    rw [told_iff]
    decide
  refine ⟨by rfl, hout, hno, ?_⟩
  rintro ⟨out, hout', htold⟩
  cases hout'
  exact hno (htold 3 (by decide) (by decide) (by decide))

end Cuts

end Batchalign.Utseg
