import Mathlib.Data.List.Perm.Lattice
import Batchalign.Morphosyntax.SentenceMapping

/- The tree of a mapped sentence (`build_gra_and_validate`). The chunks of a list of words give one
   relation each, numbered by place; what the validator accepts, with the terminator's relation, are the
   trees. -/

namespace Batchalign.Morphosyntax
open List
open Function (comp_def)

open DependencyTree

variable {A M R E : Type}

def wordNode (w : UdWord A) : Node UdId (UdWord A) where
  id := w.id
  head := w.head.word?.map (fun head => .single head.get)
  label := w

def nodesOf (words : List (UdWord A)) : List (Node UdId (UdWord A)) := words.map wordNode

structure WalkedWords (words : List (UdWord A)) : Prop where
  id : ∀ w ∈ words, ∃ i : UdWordId, w.id = .single i.get
  nodup : (words.map UdWord.id).Nodup
  closed : ∀ w ∈ words, ∀ h, w.head = .word h → ∃ u ∈ words, u.id = .single h.get

variable {words : List (UdWord A)}

theorem UdTokens.Walked.walkedWords {tokens : UdTokens A} (h : tokens.Walked) :
    WalkedWords tokens.words := ⟨h.id, h.nodup, h.closed⟩

theorem WalkedWords.perm (h : WalkedWords words) {words' : List (UdWord A)}
    (hperm : words.Perm words') : WalkedWords words' where
  id := by
    intro w hw
    exact h.id w (hperm.mem_iff.mpr hw)
  nodup := (hperm.map UdWord.id).nodup_iff.mp h.nodup
  closed := by
    intro w hw head hhead
    obtain ⟨u, hu, hid⟩ := h.closed w (hperm.mem_iff.mpr hw) head hhead
    exact ⟨u, hperm.mem_iff.mp hu, hid⟩

variable {w : UdWord A}

theorem WalkedWords.eq_of_id (h : WalkedWords words) {u : UdWord A} (hu : u ∈ words)
    (hw : w ∈ words) (hid : u.id = w.id) : u = w :=
  inj_on_of_nodup_map h.nodup hu hw hid

theorem mem_nodesOf {v : Node UdId (UdWord A)} :
    v ∈ nodesOf words ↔ ∃ w ∈ words, wordNode w = v := mem_map

theorem wordNode_mem (hw : w ∈ words) : wordNode w ∈ nodesOf words :=
  mem_map_of_mem hw

@[simp] theorem wordNode_id (w : UdWord A) : (wordNode w).id = w.id := rfl

@[simp] theorem length_nodesOf (words : List (UdWord A)) :
    (nodesOf words).length = words.length := length_map _

theorem wordNode_head_eq_none : (wordNode w).head = none ↔ w.head = .root := by
  cases h : w.head <;> simp [wordNode, h, UdHead.word?]

theorem WalkedWords.wellHeaded (h : WalkedWords words) : WellHeaded (nodesOf words) where
  nodup := by
    have hids : (nodesOf words).map Node.id = words.map UdWord.id := by
      simp [nodesOf, comp_def]
    rw [hids]
    exact h.nodup
  closed := by
    intro v hv i hi
    obtain ⟨w, hw, rfl⟩ := mem_nodesOf.mp hv
    cases hhead : w.head with
    | root => simp [wordNode, hhead, UdHead.word?] at hi
    | word head =>
      obtain ⟨u, hu, hid⟩ := h.closed w hw head hhead
      refine ⟨wordNode u, wordNode_mem hu, ?_⟩
      simp only [wordNode, hhead, UdHead.word?, Option.map_some, Option.some.injEq] at hi
      rw [wordNode_id, hid, hi]

theorem WalkedWords.zipIdx_eq (h : WalkedWords words) :
    words.zipIdx 1 = words.map (fun w => (w, position (nodesOf words) w.id)) := by
  have hnodes := congrArg (List.map (Prod.map Node.label (fun k : Nat => k)))
    (zipIdx_eq_map_position h.wellHeaded)
  simpa [nodesOf, zipIdx_map, comp_def, Prod.map, wordNode] using hnodes

variable (P : WordMapping A M R E)

def deprelLabel (w : UdWord A) : R :=
  match normalizeDeprel P w.deprel ("word " ++ P.debugText w.text) with
  | .ok label => label
  | .error _ => P.relations.root

def wordChunk (w : UdWord A) : ChunkProvenance R := .ofWord w (deprelLabel P w)

def relationLabel (w : UdWord A) : R :=
  match w.head with
  | .root => P.relations.root
  | .word _ => deprelLabel P w

def wordRelation (words : List (UdWord A)) (w : UdWord A) : GrammaticalRelation R where
  index := position (nodesOf words) w.id
  head := headNumber (nodesOf words) (wordNode w)
  relation := relationLabel P w

variable {P} {provenance : List (List (ChunkProvenance R))}

theorem ofRow_eq_some_iff (h : WalkedWords words) (hw : w ∈ words)
    (i : UdWordId) : UdWordId.ofRow w = some i ↔ w.id = .single i.get := by
  obtain ⟨n, hn⟩ := h.id w hw
  obtain ⟨n, hpos⟩ := n
  obtain ⟨i, hi⟩ := i
  simp [UdWordId.ofRow, hn, hpos]

theorem chunkOf_eq (h : WalkedWords words) (hprov : provenance.flatten = words.map (wordChunk P))
    {u : UdWord A} (hu : u ∈ words) {i : UdWordId} (hid : u.id = .single i.get) :
    chunkOf provenance i = some (position (nodesOf words) u.id) := by
  have hentries : ∀ e, e ∈ (provenance.flatten.zipIdx 1).flatMap
      (fun e => e.1.sourceUdIds.map (fun id => (id, e.2))) ↔
      ∃ w ∈ words, w.id = .single e.1.get ∧ e.2 = position (nodesOf words) w.id := by
    intro e
    rw [hprov, zipIdx_map, h.zipIdx_eq]
    simp only [map_map, mem_flatMap, mem_map, Function.comp_apply, Prod.map,
      wordChunk, ChunkProvenance.ofWord, id_eq]
    constructor
    · rintro ⟨x, ⟨w, hw, hx⟩, k, hk, he⟩
      subst hx he
      exact ⟨w, hw, (ofRow_eq_some_iff h hw _).mp (Option.mem_toList.mp hk), rfl⟩
    · rintro ⟨w, hw, hwid, hplace⟩
      refine ⟨_, ⟨w, hw, rfl⟩, e.1, Option.mem_toList.mpr ((ofRow_eq_some_iff h hw _).mpr hwid), ?_⟩
      rw [← hplace]
  unfold chunkOf
  generalize (provenance.flatten.zipIdx 1).flatMap
    (fun e => e.1.sourceUdIds.map (fun id => (id, e.2))) = entries at hentries
  obtain ⟨e, he⟩ : ∃ e, entries.reverse.find? (fun e => e.1 == i) = some e := by
    apply Option.isSome_iff_exists.mp
    rw [find?_isSome]
    refine ⟨(i, position (nodesOf words) u.id), ?_, by simp⟩
    rw [mem_reverse, hentries]
    exact ⟨u, hu, hid, rfl⟩
  have hfirst := find?_some he
  rw [beq_iff_eq] at hfirst
  obtain ⟨w, hw, hwid, hplace⟩ :=
    (hentries e).mp (mem_reverse.mp (mem_of_find?_eq_some he))
  have hwu : w = u := h.eq_of_id hw hu (by rw [hwid, hfirst, hid])
  rw [he, Option.map_some, hplace, hwu]

theorem chunkRelation_eq (h : WalkedWords words)
    (hprov : provenance.flatten = words.map (wordChunk P)) (hw : w ∈ words) (mainChunk k : Nat) :
    chunkRelation P provenance mainChunk (wordChunk P w, k) =
      .ok ⟨k, headNumber (nodesOf words) (wordNode w), relationLabel P w⟩ := by
  cases hhead : w.head with
  | root =>
    simp [chunkRelation, wordChunk, ChunkProvenance.ofWord, ChunkHead.ofWord, hhead,
      relationLabel, headNumber, wordNode, UdHead.word?]
  | word head =>
    obtain ⟨u, hu, hid⟩ := h.closed w hw head hhead
    have hplace := chunkOf_eq h hprov hu hid
    simp [chunkRelation, wordChunk, ChunkProvenance.ofWord, ChunkHead.ofWord, hhead, hplace,
      relationLabel, headNumber, wordNode, UdHead.word?, hid]

theorem mapM_eq_ok {α β ε : Type} {f : α → Except ε β} {g : α → β} {l : List α}
    (h : ∀ x ∈ l, f x = .ok (g x)) : l.mapM f = .ok (l.map g) := by
  induction l with
  | nil => rfl
  | cons x l ih =>
    rw [mapM_cons, h x mem_cons_self, ih (fun y hy => h y (mem_cons_of_mem x hy))]
    rfl

theorem relationsFrom_eq_zipIdx (h : WalkedWords words)
    (hprov : provenance.flatten = words.map (wordChunk P))
    (rest : List (List (ChunkProvenance R))) (k : Nat) (ws : List (UdWord A))
    (hrest : rest.flatten = ws.map (wordChunk P)) (hws : ∀ w ∈ ws, w ∈ words) :
    relationsFrom P provenance k rest = .ok ((ws.zipIdx k).map (fun e =>
        ⟨e.2, headNumber (nodesOf words) (wordNode e.1), relationLabel P e.1⟩)) := by
  induction rest generalizing k ws with
  | nil =>
    rw [flatten_nil, eq_comm, map_eq_nil_iff] at hrest
    subst hrest
    rfl
  | cons chunks rest ih =>
    rw [flatten_cons, eq_comm, map_eq_append_iff] at hrest
    obtain ⟨ws₁, ws₂, rfl, rfl, hrest⟩ := hrest
    have hown : ((ws₁.map (wordChunk P)).zipIdx k).mapM (chunkRelation P provenance k) =
        .ok ((ws₁.zipIdx k).map (fun e =>
          ⟨e.2, headNumber (nodesOf words) (wordNode e.1), relationLabel P e.1⟩)) := by
      rw [zipIdx_map, mapM_map]
      apply mapM_eq_ok
      intro e he
      have hmem : e.1 ∈ ws₁ := (mem_zipIdx he).2.2 ▸ getElem_mem _
      exact chunkRelation_eq h hprov (hws e.1 (mem_append_left _ hmem)) k e.2
    have hlater := ih (k + ws₁.length) ws₂ hrest.symm
      (fun w hw => hws w (mem_append_right _ hw))
    rw [relationsFrom, hown]
    simp only [length_map, hlater, zipIdx_append, map_append]
    rfl

theorem relationsFrom_eq (h : WalkedWords words) (hprov : provenance.flatten = words.map (wordChunk P)) :
    relationsFrom P provenance 1 provenance = .ok (words.map (wordRelation P words)) := by
  rw [relationsFrom_eq_zipIdx h hprov provenance 1 words hprov (fun _ hw => hw), h.zipIdx_eq]
  simp [wordRelation, comp_def]

theorem rootChunk_eq (h : WalkedWords words) (hprov : provenance.flatten = words.map (wordChunk P)) :
    rootChunk provenance = (words.filter (fun w => w.head == .root)).getLast?.map
        (fun w => position (nodesOf words) w.id) := by
  have hroot : ∀ w : UdWord A, ((wordChunk P w).head == .root) = (w.head == .root) := by
    intro w
    cases hhead : w.head <;> simp [wordChunk, ChunkProvenance.ofWord, ChunkHead.ofWord, hhead]
  unfold rootChunk
  rw [hprov, zipIdx_map, h.zipIdx_eq, map_map, filter_map, getLast?_map, Option.map_map]
  simp only [comp_def, Prod.map, hroot, id_eq]

def graOf (P : WordMapping A M R E) (words : List (UdWord A)) (root : UdWord A) (label : R) :
    List (GrammaticalRelation R) :=
  words.map (wordRelation P words) ++ [⟨words.length + 1, position (nodesOf words) root.id, label⟩]

variable {root : UdWord A} {label : R}

theorem length_graOf : (graOf P words root label).length = words.length + 1 := by
  simp [graOf]

theorem wordRelation_index_le (hw : w ∈ words) : (wordRelation P words w).index ≤ words.length := by
  have hle := position_le (wordNode_mem hw)
  rw [length_nodesOf] at hle
  exact hle

theorem wordRelation_head_eq_zero (w : UdWord A) :
    (wordRelation P words w).head = 0 ↔ w.head = .root := by
  simp only [wordRelation, headNumber]
  cases hhead : w.head with
  | root => simp [wordNode, hhead, UdHead.word?]
  | word head => simp [wordNode, hhead, UdHead.word?, position]

theorem wordRelation_head (h : WalkedWords words) (hw : w ∈ words)
    (hne : w.head ≠ .root) : ∃ u ∈ words, (wordNode w).head = some u.id ∧
      (wordRelation P words w).head = position (nodesOf words) u.id := by
  cases hhead : w.head with
  | root => exact absurd hhead hne
  | word head =>
    obtain ⟨u, hu, hid⟩ := h.closed w hw head hhead
    refine ⟨u, hu, ?_, ?_⟩
    · simp [wordNode, hhead, UdHead.word?, hid]
    · simp [wordRelation, headNumber, wordNode, hhead, UdHead.word?, hid]

theorem find_wordRelation (h : WalkedWords words) (hw : w ∈ words) : (graOf P words root label).find?
      (fun rel => rel.index == position (nodesOf words) w.id) = some (wordRelation P words w) := by
  have hfind : words.find? (fun u => position (nodesOf words) u.id ==
      position (nodesOf words) w.id) = some w := by
    obtain ⟨u, hu⟩ : ∃ u, words.find? (fun u => position (nodesOf words) u.id ==
        position (nodesOf words) w.id) = some u := by
      apply Option.isSome_iff_exists.mp
      rw [find?_isSome]
      exact ⟨w, hw, by simp⟩
    have hsame := find?_some hu
    rw [beq_iff_eq] at hsame
    have hnode := position_inj h.wellHeaded (wordNode_mem (mem_of_find?_eq_some hu))
      (wordNode_mem hw) hsame
    rw [hu, h.eq_of_id (mem_of_find?_eq_some hu) hw (congrArg Node.id hnode)]
  unfold graOf
  rw [find?_append, find?_map]
  simp only [comp_def, wordRelation, hfind, Option.map_some, Option.some_or]

theorem find_terminator : (graOf P words root label).find? (fun rel => rel.index == words.length + 1) =
      some ⟨words.length + 1, position (nodesOf words) root.id, label⟩ := by
  have hnone : (words.map (wordRelation P words)).find?
      (fun rel => rel.index == words.length + 1) = none := by
    rw [find?_eq_none]
    intro rel hrel hindex
    obtain ⟨w, hw, rfl⟩ := mem_map.mp hrel
    have hle := wordRelation_index_le (P := P) hw
    rw [beq_iff_eq] at hindex
    omega
  unfold graOf
  rw [find?_append, hnone]
  simp

theorem headTable_word (h : WalkedWords words) (hw : w ∈ words) :
    (headTable P.relations (graOf P words root label)).next (position (nodesOf words) w.id) =
      if isRoot P.relations (wordRelation P words w) then none
      else some (wordRelation P words w).head := by
  simp only [headTable, find_wordRelation h hw]

theorem isRoot_terminator (hroot : root ∈ words) : isRoot P.relations
      ⟨words.length + 1, position (nodesOf words) root.id, label⟩ = false := by
  have hpos : 0 < position (nodesOf words) root.id := position_pos _
  have hle := position_le (wordNode_mem hroot)
  rw [length_nodesOf, wordNode_id] at hle
  simp only [isRoot, isSelfLoopAValidRoot, Bool.or_eq_false_iff, Bool.and_eq_false_iff,
    beq_eq_false_iff_ne]
  exact ⟨by omega, Or.inl (by omega)⟩

theorem headTable_terminator (hroot : root ∈ words) :
    (headTable P.relations (graOf P words root label)).next (words.length + 1) =
      some (position (nodesOf words) root.id) := by
  simp [headTable, find_terminator, isRoot_terminator hroot]

theorem nonTerminatorRoots_eq (hroot : root ∈ words) :
    nonTerminatorRoots P.relations (graOf P words root label) =
      (words.filter (fun w => isRoot P.relations (wordRelation P words w))).map
        (fun w => position (nodesOf words) w.id) := by
  have hkeep : ∀ k ∈ (words.filter (fun w => isRoot P.relations (wordRelation P words w))).map
      (fun w => position (nodesOf words) w.id),
      (k != (graOf P words root label).length) = true := by
    intro k hk
    obtain ⟨w, hw, rfl⟩ := mem_map.mp hk
    have hle := wordRelation_index_le (P := P) (mem_of_mem_filter hw)
    simp only [wordRelation] at hle
    rw [length_graOf, bne_iff_ne]
    omega
  have hterminator : isRoot P.relations
      ⟨words.length + 1, position (nodesOf words) root.id, label⟩ = false :=
    isRoot_terminator hroot
  have hroots : ((graOf P words root label).filter (isRoot P.relations)).map
      GrammaticalRelation.index =
      (words.filter (fun w => isRoot P.relations (wordRelation P words w))).map
        (fun w => position (nodesOf words) w.id) := by
    unfold graOf
    rw [filter_append, filter_map, filter_singleton, hterminator]
    simp [comp_def, wordRelation]
  unfold nonTerminatorRoots
  rw [hroots]
  exact filter_eq_self.mpr hkeep

theorem isRoot_of_root (hhead : w.head = .root) : isRoot P.relations (wordRelation P words w) = true := by
  unfold isRoot
  rw [Bool.or_eq_true, beq_iff_eq]
  exact Or.inl ((wordRelation_head_eq_zero w).mpr hhead)

theorem isRoot_iff_of_tree (h : WalkedWords words) (htree : IsTree (nodesOf words))
    (hw : w ∈ words) : isRoot P.relations (wordRelation P words w) = true ↔ w.head = .root := by
  refine ⟨?_, isRoot_of_root⟩
  intro hisRoot
  by_contra hne
  obtain ⟨u, hu, hhead, hplace⟩ := wordRelation_head (P := P) h hw hne
  simp only [isRoot, isSelfLoopAValidRoot, Bool.or_eq_true, beq_iff_eq, Bool.and_eq_true]
    at hisRoot
  obtain hzero | ⟨hself, -⟩ := hisRoot
  · exact hne ((wordRelation_head_eq_zero w).mp hzero)
  · -- a word that is its own head
    rw [hplace] at hself
    have hnode := position_inj h.wellHeaded (wordNode_mem hu) (wordNode_mem hw) hself
    apply htree.head_ne_self h.wellHeaded (wordNode_mem hw)
    rw [hhead]
    exact congrArg some (congrArg Node.id hnode)

theorem ends_words (h : WalkedWords words)
    (honly : ∀ w ∈ words, isRoot P.relations (wordRelation P words w) = true → w.head = .root)
    {k : Nat} (hends : Heads.Ends (headTable P.relations (graOf P words root label)).next k) :
    ∀ w ∈ words, position (nodesOf words) w.id = k → Heads.Ends (headOf (nodesOf words)) w.id := by
  induction hends with
  | here hnone =>
    intro w hw hk
    rw [← hk, headTable_word h hw] at hnone
    split at hnone
    · next hisRoot =>
      apply Heads.Ends.here
      rw [← wordNode_id, h.wellHeaded.headOf (wordNode_mem hw)]
      exact wordNode_head_eq_none.mpr (honly w hw hisRoot)
    · cases hnone
  | step hsome _ ih =>
    intro w hw hk
    rw [← hk, headTable_word h hw] at hsome
    split at hsome
    · cases hsome
    · next hisRoot =>
      have hne : w.head ≠ .root := fun hhead => hisRoot (isRoot_of_root hhead)
      obtain ⟨u, hu, hhead, hplace⟩ := wordRelation_head (P := P) h hw hne
      rw [Option.some.injEq, hplace] at hsome
      refine .step ?_ (ih u hu hsome)
      rw [← wordNode_id, h.wellHeaded.headOf (wordNode_mem hw), hhead]

theorem ends_numbers (h : WalkedWords words) {i : UdId}
    (hends : Heads.Ends (headOf (nodesOf words)) i) : ∀ w ∈ words, w.id = i →
      Heads.Ends (headTable P.relations (graOf P words root label)).next
        (position (nodesOf words) w.id) := by
  induction hends with
  | here hnone =>
    intro w hw hid
    rw [← hid, ← wordNode_id, h.wellHeaded.headOf (wordNode_mem hw), wordNode_head_eq_none] at hnone
    apply Heads.Ends.here
    rw [headTable_word h hw, if_pos (isRoot_of_root hnone)]
  | step hsome _ ih =>
    intro w hw hid
    by_cases hisRoot : isRoot P.relations (wordRelation P words w) = true
    · apply Heads.Ends.here
      rw [headTable_word h hw, if_pos hisRoot]
    · have hne : w.head ≠ .root := fun hhead => hisRoot (isRoot_of_root hhead)
      obtain ⟨u, hu, hhead, hplace⟩ := wordRelation_head (P := P) h hw hne
      rw [← hid, ← wordNode_id, h.wellHeaded.headOf (wordNode_mem hw), hhead,
        Option.some.injEq] at hsome
      refine .step ?_ (ih u hu hsome)
      rw [headTable_word h hw, if_neg hisRoot, hplace]

theorem validateGeneratedGra_iff {L : RelationTypes R} {gras : List (GrammaticalRelation R)}
    (hne : gras ≠ []) : validateGeneratedGra (E := E) L gras = .ok () ↔
      (∃ k, nonTerminatorRoots L gras = [k]) ∧
      (∀ rel ∈ gras, Heads.Ends (headTable L gras).next rel.index) ∧
      ∀ rel ∈ gras, rel.head ≤ gras.length := by
  have hempty : gras.isEmpty = false := by simpa using hne
  have hcycle : hasAnyCycleGenerated L gras = none ↔
      ∀ rel ∈ gras, Heads.Ends (headTable L gras).next rel.index := by
    rw [hasAnyCycleGenerated, Heads.Table.firstCycle_eq_none_iff _ (by simp)]
    exact forall_mem_map
  have hheads : gras.find? (fun rel => rel.head != 0 && decide (gras.length < rel.head)) =
      none ↔ ∀ rel ∈ gras, rel.head ≤ gras.length := by
    simp only [find?_eq_none, Bool.and_eq_true, bne_iff_ne, decide_eq_true_eq, not_and, not_lt]
    constructor
    · intro hle rel hrel
      by_cases hzero : rel.head = 0
      · omega
      · exact hle rel hrel hzero
    · intro hle rel hrel _
      exact hle rel hrel
  rw [← hcycle, ← hheads]
  unfold validateGeneratedGra
  rw [hempty]
  cases hroots : nonTerminatorRoots L gras with
  | nil => simp
  | cons k rest =>
    cases rest with
    | nil =>
      cases hasAnyCycleGenerated L gras with
      | some word => simp
      | none =>
        cases gras.find? (fun rel => rel.head != 0 && decide (gras.length < rel.head)) with
        | some rel => simp
        | none => simp
    | cons k' rest => simp

theorem validate_iff (h : WalkedWords words) (hroot : root ∈ words) (hhead : root.head = .root) :
    validateGeneratedGra (E := E) P.relations (graOf P words root label) = .ok () ↔
      IsTree (nodesOf words) := by
  have hne : graOf P words root label ≠ [] := by
    simp [graOf]
  have hnodup : words.Nodup := .of_map _ h.nodup
  rw [validateGeneratedGra_iff hne, nonTerminatorRoots_eq hroot]
  constructor
  · rintro ⟨⟨k, hk⟩, hends, -⟩
    -- the root is the one counted
    have honly : ∀ w ∈ words, isRoot P.relations (wordRelation P words w) = true → w = root := by
      intro w hw hisRoot
      have hmem : ∀ u ∈ words, isRoot P.relations (wordRelation P words u) = true →
          position (nodesOf words) u.id = k := by
        intro u hu hu'
        have hcounted : u ∈ words.filter
            (fun w => isRoot P.relations (wordRelation P words w)) :=
          mem_filter.mpr ⟨hu, hu'⟩
        have hplace := mem_map_of_mem (f := fun w => position (nodesOf words) w.id) hcounted
        rw [hk] at hplace
        exact mem_singleton.mp hplace
      have hsame := (hmem w hw hisRoot).trans (hmem root hroot (isRoot_of_root hhead)).symm
      have hnode := position_inj h.wellHeaded (wordNode_mem hw) (wordNode_mem hroot) hsame
      exact h.eq_of_id hw hroot (congrArg Node.id hnode)
    refine isTree_of_ends h.wellHeaded (wordNode_mem hroot) (wordNode_head_eq_none.mpr hhead) ?_ ?_
    · intro v hv hnone
      obtain ⟨w, hw, rfl⟩ := mem_nodesOf.mp hv
      rw [honly w hw (isRoot_of_root (wordNode_head_eq_none.mp hnone))]
    · intro v hv
      obtain ⟨w, hw, rfl⟩ := mem_nodesOf.mp hv
      have hrel : wordRelation P words w ∈ graOf P words root label :=
        mem_append_left _ (mem_map_of_mem hw)
      refine ends_words h ?_ (hends _ hrel) w hw rfl
      intro u hu hu'
      rw [honly u hu hu']
      exact hhead
  · intro htree
    obtain ⟨rootNode, hrootNode, hnone, honly, hleads⟩ := htree
    have hone : ∀ w ∈ words, w.head = .root → w = root := by
      intro w hw hw'
      have hw_root := honly _ (wordNode_mem hw) (wordNode_head_eq_none.mpr hw')
      have hroot_root := honly _ (wordNode_mem hroot) (wordNode_head_eq_none.mpr hhead)
      exact h.eq_of_id hw hroot (congrArg Node.id (hw_root.trans hroot_root.symm))
    have htree : IsTree (nodesOf words) := ⟨_, hrootNode, hnone, honly, hleads⟩
    have hends : ∀ w ∈ words, Heads.Ends
        (headTable P.relations (graOf P words root label)).next
        (position (nodesOf words) w.id) := by
      intro w hw
      refine ends_numbers h ?_ w hw rfl
      refine .of_leads (hleads _ (wordNode_mem hw)) (.here ?_)
      rw [h.wellHeaded.headOf hrootNode, hnone]
    refine ⟨⟨position (nodesOf words) root.id, ?_⟩, ?_, ?_⟩
    · have hfilter : words.filter (fun w => isRoot P.relations (wordRelation P words w)) =
          [root] := by
        have hmem : ∀ w, w ∈ words.filter
            (fun w => isRoot P.relations (wordRelation P words w)) ↔ w ∈ [root] := by
          intro w
          rw [mem_filter, mem_singleton]
          constructor
          · rintro ⟨hw, hisRoot⟩
            exact hone w hw ((isRoot_iff_of_tree h htree hw).mp hisRoot)
          · intro hw
            rw [hw]
            exact ⟨hroot, isRoot_of_root hhead⟩
        exact perm_singleton.mp
          ((perm_ext_iff_of_nodup (hnodup.filter _) (nodup_singleton _)).mpr hmem)
      rw [hfilter]
      rfl
    · intro rel hrel
      obtain hrel | hrel := mem_append.mp hrel
      · obtain ⟨w, hw, rfl⟩ := mem_map.mp hrel
        exact hends w hw
      · rw [mem_singleton] at hrel
        subst hrel
        exact .step (headTable_terminator hroot) (hends root hroot)
    · intro rel hrel
      rw [length_graOf]
      obtain hrel | hrel := mem_append.mp hrel
      · obtain ⟨w, hw, rfl⟩ := mem_map.mp hrel
        by_cases hw' : w.head = .root
        · rw [(wordRelation_head_eq_zero w).mpr hw']
          omega
        · obtain ⟨u, hu, -, hplace⟩ := wordRelation_head (P := P) h hw hw'
          have hle := position_le (wordNode_mem hu)
          rw [length_nodesOf, wordNode_id] at hle
          omega
      · rw [mem_singleton] at hrel
        subst hrel
        have hle := position_le (wordNode_mem hroot)
        rw [length_nodesOf, wordNode_id] at hle
        exact Nat.le_succ_of_le hle

theorem normalizeDeprel_punct (P : WordMapping A M R E) (context : String) :
    ∃ label, normalizeDeprel P "PUNCT" context = .ok label ∧ P.relations.asStr label = "PUNCT" := by
  obtain ⟨label, hlabel⟩ := P.relations.new_punct
  refine ⟨label, ?_, P.relations.asStr_new hlabel⟩
  have hplain : "PUNCT".toList.any (fun c => c.isLower || c == ':') = false := by decide
  simp only [normalizeDeprel, hplain, Bool.false_eq_true, if_false, hlabel]

def IsTerminatorLabel (P : WordMapping A M R E) (label : R) : Prop :=
  normalizeDeprel P "PUNCT" "mapped sentence terminator" = .ok label

theorem IsTerminatorLabel.asStr {label : R} (h : IsTerminatorLabel P label) :
    P.relations.asStr label = "PUNCT" := by
  obtain ⟨label', hlabel', hpunct⟩ := normalizeDeprel_punct P "mapped sentence terminator"
  rw [h, Except.ok.injEq] at hlabel'
  rw [hlabel']
  exact hpunct

theorem withTerminator_eq {gras : List (GrammaticalRelation R)} {place : Nat} {label : R}
    (hlabel : IsTerminatorLabel P label) :
    withTerminator P provenance gras place = (validateGeneratedGra P.relations
        (gras ++ [⟨provenance.flatten.length + 1, place, label⟩])).map
        (fun _ => gras ++ [⟨provenance.flatten.length + 1, place, label⟩]) := by
  unfold withTerminator
  rw [hlabel]
  change (validateGeneratedGra (E := E) P.relations
    (gras ++ [⟨provenance.flatten.length + 1, place, label⟩]) >>= fun _ =>
      pure (gras ++ [⟨provenance.flatten.length + 1, place, label⟩])) = _
  cases validateGeneratedGra (E := E) P.relations
    (gras ++ [⟨provenance.flatten.length + 1, place, label⟩]) <;> rfl

theorem validate_terminator_alone (L : RelationTypes R) (label : R) :
    validateGeneratedGra (E := E) L [⟨1, 0, label⟩] =
      .error (.invalidRoot ("no ROOT relation. GRA: " ++ L.debug [⟨1, 0, label⟩])) := by
  rfl

theorem build_spec (h : WalkedWords words) (hprov : provenance.flatten = words.map (wordChunk P)) :
    (IsTree (nodesOf words) ∧ ∃ root ∈ words, root.head = .root ∧ ∃ label, IsTerminatorLabel P label ∧
        buildGraAndValidate P provenance = .ok (graOf P words root label)) ∨
    (¬ IsTree (nodesOf words) ∧ ∃ e, buildGraAndValidate P provenance = .error e) := by
  obtain ⟨label, hlabel, -⟩ := normalizeDeprel_punct P "mapped sentence terminator"
  have htotal : provenance.flatten.length = words.length := by
    rw [hprov, length_map]
  unfold buildGraAndValidate
  rw [relationsFrom_eq h hprov, rootChunk_eq h hprov]
  cases hlast : (words.filter (fun w => w.head == .root)).getLast? with
  | some root =>
    have hmem := mem_filter.mp (mem_of_getLast? hlast)
    have hroot := hmem.1
    have hhead : root.head = .root := by simpa using hmem.2
    simp only [Option.map_some]
    rw [withTerminator_eq hlabel, htotal]
    have hiff : validateGeneratedGra (E := E) P.relations (graOf P words root label) = .ok () ↔
        IsTree (nodesOf words) := validate_iff h hroot hhead
    unfold graOf at hiff
    by_cases htree : IsTree (nodesOf words)
    · left
      rw [hiff.mpr htree]
      exact ⟨htree, root, hroot, hhead, label, hlabel, rfl⟩
    · right
      refine ⟨htree, ?_⟩
      cases hvalid : validateGeneratedGra (E := E) P.relations (words.map (wordRelation P words) ++
          [⟨words.length + 1, position (nodesOf words) root.id, label⟩]) with
      | ok _ => exact absurd (hiff.mp hvalid) htree
      | error e => exact ⟨e, rfl⟩
  | none =>
    have hrootless : ∀ w ∈ words, w.head ≠ .root := by
      intro w hw hhead
      rw [getLast?_eq_none_iff, filter_eq_nil_iff] at hlast
      exact hlast w hw (by simpa using hhead)
    right
    refine ⟨?_, ?_⟩
    · rintro ⟨root, hroot, hnone, _⟩
      obtain ⟨w, hw, rfl⟩ := mem_nodesOf.mp hroot
      exact hrootless w hw (wordNode_head_eq_none.mp hnone)
    · cases words with
      | nil =>
        simp only [map_nil, Option.map_none]
        rw [withTerminator_eq hlabel, htotal]
        exact ⟨_, congrArg _ (validate_terminator_alone P.relations label)⟩
      | cons w words => exact ⟨_, rfl⟩

end Batchalign.Morphosyntax
