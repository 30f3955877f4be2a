import Mathlib.Algebra.GroupWithZero.Nat
import Batchalign.Morphosyntax.GraTree

/- The dependency tree preserved (`map_tokens`). In both layouts the chunks are the walked words, each
   written once, so the relations are the words' tree under two numberings. -/

namespace Batchalign.Morphosyntax
open List

open DependencyTree

variable {A M R E : Type} (P : WordMapping A M R E) (lang : String)

def writtenToken (layout : ItemLayout) (token : WalkedToken A) : List (UdWord A) :=
  match layout with
  | .perToken => mainFirst lang token.ud.words
  | .perWord => token.ud.words

def writtenWords (layout : ItemLayout) (tokens : UdTokens A) : List (UdWord A) :=
  tokens.tokens.flatMap (writtenToken lang layout)

/-- The words of each item of a token, as they are written. -/
def itemWords (layout : ItemLayout) (token : WalkedToken A) : List (List (UdWord A)) :=
  match layout with
  | .perToken => [mainFirst lang token.ud.words]
  | .perWord => token.ud.words.map fun w => [w]

def itemCount (layout : ItemLayout) (token : WalkedToken A) : Nat :=
  match layout with
  | .perToken => 1
  | .perWord => token.ud.words.length

def Mor.chunks (mor : Mor M) : List M := mor.main :: mor.postClitics

def WordsMap (tokens : UdTokens A) : Prop := ∀ w ∈ tokens.words, ∃ item, mapUdWordItem P lang w = .ok item

/-- No word that a token writes as a clitic is a tag marker. -/
def NoTagClitics (tokens : UdTokens A) : Prop :=
  ∀ token ∈ tokens.tokens, ∀ w ∈ (mainFirst lang token.ud.words).tail, classify w = none

structure Written (layout : ItemLayout) (tokens : UdTokens A) (m : MappedTokens M R) : Prop where
  /-- the relations are numbered in order, one for each word and the terminator's -/
  numbered : m.gras.map GrammaticalRelation.index = List.range' 1 (tokens.words.length + 1)
  /-- a word's relation names the number of its UD head -/
  words : m.gras.take tokens.words.length =
    (writtenWords lang layout tokens).map (wordRelation P (writtenWords lang layout tokens))
  /-- the head is 0 exactly for the root, whose label says so -/
  root : ∀ w ∈ tokens.words,
    ((wordRelation P (writtenWords lang layout tokens) w).head = 0 ↔ w.head = .root) ∧
    (w.head = .root → P.relations.asStr (relationLabel P w) = "ROOT")
  /-- the last relation is the terminator's, on the root -/
  last : ∃ label, P.relations.asStr label = "PUNCT" ∧
    m.gras.getLast? = some ⟨tokens.words.length + 1,
      ((tokens.words.find? (fun w => w.head == .root)).elim 0
        (fun root => position (nodesOf (writtenWords lang layout tokens)) root.id)), label⟩
  /-- an item's chunks are the words it is written of, the main word first -/
  chunks : Forall₂ (Forall₂ fun w chunk => wordMor P lang w = .ok chunk)
    (tokens.tokens.flatMap (itemWords lang layout)) (m.mors.map Mor.chunks)
  /-- the items of the tokens -/
  items : m.mors.length = (tokens.tokens.map (itemCount layout)).sum ∧
    m.ranges.map (fun range => range.2 - range.1) = tokens.tokens.map (itemCount layout)

def GrammaticalRelation.renumber (f : Nat → Nat) (rel : GrammaticalRelation R) :
    GrammaticalRelation R := { rel with index := f rel.index, head := f rel.head }

structure PreservesTree (tokens : UdTokens A) : Prop where
  accepts : ∀ layout, (∃ m, mapTokens P lang layout tokens = .ok m) ↔
    IsTree (nodesOf tokens.words) ∨ tokens.words = []
  written : ∀ layout m, mapTokens P lang layout tokens = .ok m → Written P lang layout tokens m
  layouts : ∀ t w, mapTokens P lang .perToken tokens = .ok t →
    mapTokens P lang .perWord tokens = .ok w →
    (w.gras.map (GrammaticalRelation.renumber
      (DependencyTree.renumber (nodesOf (writtenWords lang .perWord tokens))
        (nodesOf (writtenWords lang .perToken tokens))))).Perm t.gras

variable {P lang}

variable {components : List (UdWord A)} {root : UdWord A}

theorem mainIndex_lt (lang : String) (h : components ≠ []) :
    mainIndex lang components < components.length := by
  unfold mainIndex
  cases hfind : components.findIdx? (fun component => !isClitic lang component.text) with
  | none => simpa using length_pos_of_ne_nil h
  | some k =>
    obtain ⟨hk, -⟩ := findIdx?_eq_some_iff_getElem.mp hfind
    exact hk

theorem mainFirst_perm (lang : String) (h : components ≠ []) :
    (mainFirst lang components).Perm components := by
  unfold mainFirst
  rw [getElem?_eq_getElem (mainIndex_lt lang h)]
  exact getElem_cons_eraseIdx_perm (mainIndex_lt lang h)

theorem mainFirst_singleton (w : UdWord A) : mainFirst lang [w] = [w] := by
  have hplace : mainIndex lang [w] = 0 := by
    have hlt := mainIndex_lt lang (cons_ne_nil w [])
    simpa using hlt
  simp [mainFirst, hplace]

variable {token : WalkedToken A} {layout : ItemLayout}

theorem writtenToken_perm
    (h : token.ud.words ≠ []) : (writtenToken lang layout token).Perm token.ud.words := by
  cases layout with
  | perToken => exact mainFirst_perm lang h
  | perWord => exact .refl _

theorem writtenWords_perm (lang : String) {tokens : UdTokens A} (h : tokens.Walked) (layout : ItemLayout) :
    (writtenWords lang layout tokens).Perm tokens.words := by
  apply Perm.flatMap_left
  intro token htoken
  exact writtenToken_perm (h.words_ne_nil token htoken)

variable (P lang) in
/-- The item written of these words. -/
structure ItemOf (ws : List (UdWord A)) (item : MappedItem M R) : Prop where
  provenance : item.provenance = ws.map (wordChunk P)
  chunks : Forall₂ (fun w chunk => wordMor P lang w = .ok chunk) ws item.mor.chunks

variable {item : MappedItem M R} {ws : List (UdWord A)} {w : UdWord A}

theorem mapUdWordItem_of (h : mapUdWordItem P lang w = .ok item) : ItemOf P lang [w] item := by
  unfold mapUdWordItem at h
  cases hmor : wordMor P lang w with
  | error e =>
    rw [hmor] at h
    cases h
  | ok mor =>
    rw [hmor] at h
    unfold provenanceForUdWord at h
    cases hlabel : normalizeDeprel P w.deprel ("word " ++ P.debugText w.text) with
    | error e =>
      rw [hlabel] at h
      cases h
    | ok label =>
      rw [hlabel] at h
      cases h
      refine ⟨?_, .cons hmor .nil⟩
      simp [MappedItem.word, wordChunk, deprelLabel, hlabel]

theorem addPostClitic_ok (hitem : ∃ item, mapUdWordItem P lang w = .ok item)
    (hlexical : classify w = none) (hof : ItemOf P lang ws item) :
    ∃ item', addPostClitic P lang item w = .ok item' ∧ ItemOf P lang (ws ++ [w]) item' := by
  obtain ⟨own, hown⟩ := hitem
  have hword : wordMor P lang w = (P.mapUdMorWord lang w).mapError .word := by
    rw [wordMor, hlexical]
  unfold mapUdWordItem at hown
  rw [hword] at hown
  unfold addPostClitic
  rw [hlexical]
  cases hmor : P.mapUdMorWord lang w with
  | error e =>
    rw [hmor] at hown
    cases hown
  | ok mor =>
    rw [hmor] at hown hword
    unfold provenanceForUdWord at hown ⊢
    cases hlabel : normalizeDeprel P w.deprel ("word " ++ P.debugText w.text) with
    | error e =>
      rw [hlabel] at hown
      cases hown
    | ok label =>
      refine ⟨_, rfl, ?_, ?_⟩
      · simp [MappedItem.withPostClitic, wordChunk, deprelLabel, hlabel, hof.provenance]
      · exact rel_append hof.chunks (.cons hword .nil)

theorem foldlM_addPostClitic {others : List (UdWord A)}
    (hitem : ∀ w ∈ others, ∃ item, mapUdWordItem P lang w = .ok item)
    (hlexical : ∀ w ∈ others, classify w = none) (hof : ItemOf P lang ws item) :
    ∃ item', others.foldlM (addPostClitic P lang) item = .ok item' ∧ ItemOf P lang (ws ++ others) item' := by
  induction others generalizing item ws with
  | nil => exact ⟨item, rfl, by simpa using hof⟩
  | cons w others ih =>
    obtain ⟨next, hnext, hnextOf⟩ := addPostClitic_ok (hitem w mem_cons_self) (hlexical w mem_cons_self) hof
    obtain ⟨last, hlast, hlastOf⟩ := ih (fun u hu => hitem u (mem_cons_of_mem w hu))
      (fun u hu => hlexical u (mem_cons_of_mem w hu)) hnextOf
    refine ⟨last, ?_, by simpa using hlastOf⟩
    rw [foldlM_cons, hnext]
    exact hlast

theorem assembleMors_ok (hne : components ≠ [])
    (hitem : ∀ w ∈ components, ∃ item, mapUdWordItem P lang w = .ok item)
    (hlexical : ∀ w ∈ (mainFirst lang components).tail, classify w = none) :
    ∃ item, assembleMors P lang components = .ok item ∧ ItemOf P lang (mainFirst lang components) item := by
  have hperm := mainFirst_perm lang hne
  unfold assembleMors
  cases hmain : mainFirst lang components with
  | nil =>
    rw [hmain, nil_perm] at hperm
    exact absurd hperm hne
  | cons main others =>
    rw [hmain] at hperm hlexical
    have hmap : ∀ w ∈ main :: others, ∃ item, mapUdWordItem P lang w = .ok item :=
      fun w hw => hitem w (hperm.mem_iff.mp hw)
    obtain ⟨own, hown⟩ := hmap main mem_cons_self
    obtain ⟨item, hitem', hof⟩ := foldlM_addPostClitic
      (fun w hw => hmap w (mem_cons_of_mem main hw)) hlexical (mapUdWordItem_of hown)
    refine ⟨item, ?_, hof⟩
    simp only [hown]
    exact hitem'

theorem mapM_mapUdWordItem (hitem : ∀ w ∈ ws, ∃ item, mapUdWordItem P lang w = .ok item) :
    ∃ items, ws.mapM (mapUdWordItem P lang) = .ok items ∧ Forall₂ (ItemOf P lang) (ws.map fun w => [w]) items := by
  induction ws with
  | nil => exact ⟨[], rfl, .nil⟩
  | cons w ws ih =>
    obtain ⟨item, hw⟩ := hitem w mem_cons_self
    obtain ⟨items, hws, hof⟩ := ih (fun u hu => hitem u (mem_cons_of_mem w hu))
    refine ⟨item :: items, ?_, .cons (mapUdWordItem_of hw) hof⟩
    rw [mapM_cons, hw, hws]
    rfl

theorem tokenItems_ok (hlang : lang2 lang ≠ "it") (layout : ItemLayout)
    (hne : token.ud.words ≠ []) (hitem : ∀ w ∈ token.ud.words, ∃ item, mapUdWordItem P lang w = .ok item)
    (hlexical : layout = .perToken → ∀ w ∈ (mainFirst lang token.ud.words).tail, classify w = none) :
    ∃ items, tokenItems P lang layout token = .ok items ∧ Forall₂ (ItemOf P lang) (itemWords lang layout token) items := by
  cases layout with
  | perWord =>
    obtain ⟨items, hitems, hof⟩ := mapM_mapUdWordItem hitem
    exact ⟨items, by simpa [tokenItems] using hitems, hof⟩
  | perToken =>
    replace hlexical := hlexical rfl
    unfold itemWords
    cases hud : token.ud with
    | word w =>
      rw [hud] at hitem
      obtain ⟨item, hw⟩ := hitem w (by simp [AlignedUd.words])
      refine ⟨[item], ?_, .cons ?_ .nil⟩
      · simp only [tokenItems, hud, if_neg hlang, hw]
        rfl
      · rw [AlignedUd.words, mainFirst_singleton]
        exact mapUdWordItem_of hw
    | mwt range components =>
      rw [hud] at hitem hlexical hne
      obtain ⟨item, hcomponents, hof⟩ := assembleMors_ok hne hitem hlexical
      refine ⟨[item], ?_, .cons hof .nil⟩
      simp only [AlignedUd.words] at hcomponents
      simp only [tokenItems, hud, if_neg hlang, hcomponents]
      rfl

theorem length_itemWords (layout : ItemLayout) (token : WalkedToken A) :
    (itemWords lang layout token).length = itemCount layout token := by
  cases layout with
  | perToken => rfl
  | perWord => exact length_map _

variable {tokens : List (WalkedToken A)}

theorem collectItems_spec (hlang : lang2 lang ≠ "it") (layout : ItemLayout)
    (hne : ∀ token ∈ tokens, token.ud.words ≠ [])
    (hitem : ∀ token ∈ tokens, ∀ w ∈ token.ud.words, ∃ item, mapUdWordItem P lang w = .ok item)
    (hlexical : layout = .perToken → ∀ token ∈ tokens, ∀ w ∈ (mainFirst lang token.ud.words).tail, classify w = none)
    (before : List (MappedItem M R)) :
    ∃ items ranges, collectItems P lang layout tokens before = .ok (before ++ items, ranges) ∧
      ranges.map (fun range => range.2 - range.1) = tokens.map (itemCount layout) ∧
      Forall₂ (ItemOf P lang) (tokens.flatMap (itemWords lang layout)) items := by
  induction tokens generalizing before with
  | nil => exact ⟨[], [], by simp [collectItems], rfl, .nil⟩
  | cons token tokens ih =>
    obtain ⟨own, hown, hof⟩ := tokenItems_ok hlang layout (hne token mem_cons_self) (hitem token mem_cons_self)
      (fun hlayout => hlexical hlayout token mem_cons_self)
    obtain ⟨rest, ranges, hrest, hranges, hlater⟩ := ih
      (fun t ht => hne t (mem_cons_of_mem token ht))
      (fun t ht => hitem t (mem_cons_of_mem token ht))
      (fun hlayout t ht => hlexical hlayout t (mem_cons_of_mem token ht)) (before ++ own)
    refine ⟨own ++ rest, (before.length, before.length + own.length) :: ranges, ?_, ?_, rel_append hof hlater⟩
    · simp only [collectItems, hown]
      change ((collectItems P lang layout tokens (before ++ own)) >>= fun r =>
        pure (r.1, (before.length, before.length + own.length) :: r.2)) = _
      rw [hrest, append_assoc]
      rfl
    · simp [← hof.length_eq, length_itemWords, hranges]

variable {items : List (MappedItem M R)}

theorem provenance_of {wss : List (List (UdWord A))} (h : Forall₂ (ItemOf P lang) wss items) :
    (items.map MappedItem.provenance).flatten = wss.flatten.map (wordChunk P) := by
  induction h with
  | nil => rfl
  | cons hhead htail ih => simp [hhead.provenance, ih]

theorem flatten_itemWords (layout : ItemLayout) (tokens : List (WalkedToken A)) :
    (tokens.flatMap (itemWords lang layout)).flatten = tokens.flatMap (writtenToken lang layout) := by
  induction tokens with
  | nil => rfl
  | cons token tokens ih =>
    rw [flatMap_cons, flatten_append, ih, flatMap_cons]
    cases layout with
    | perToken => simp [itemWords, writtenToken]
    | perWord =>
      congr 1
      show (token.ud.words.map fun w => [w]).flatten = token.ud.words
      rw [← flatMap_def]
      exact flatMap_singleton' _

/-! A marker among the clitics ends the mapping by token. -/

theorem bind_eq_ok {α β ε : Type} {x : Except ε α} {f : α → Except ε β} {b : β} (h : (x >>= f) = .ok b) :
    ∃ a, x = .ok a ∧ f a = .ok b := by
  cases x with
  | error e => cases h
  | ok a => exact ⟨a, rfl, h⟩

theorem foldlM_lexical {others : List (UdWord A)} {item' : MappedItem M R}
    (h : others.foldlM (addPostClitic P lang) item = .ok item') : ∀ w ∈ others, classify w = none := by
  induction others generalizing item with
  | nil => exact fun w hw => nomatch hw
  | cons w others ih =>
    rw [foldlM_cons] at h
    obtain ⟨next, hnext, hrest⟩ := bind_eq_ok h
    refine forall_mem_cons.mpr ⟨?_, ih hrest⟩
    unfold addPostClitic at hnext
    split at hnext
    · cases hnext
    · next hlexical => exact hlexical

theorem tokenItems_lexical (hlang : lang2 lang ≠ "it")
    (h : tokenItems P lang .perToken token = .ok items) : ∀ w ∈ (mainFirst lang token.ud.words).tail, classify w = none := by
  cases hud : token.ud with
  | word w =>
    rw [AlignedUd.words, mainFirst_singleton]
    exact fun w hw => absurd hw not_mem_nil
  | mwt range components =>
    simp only [tokenItems, hud, if_neg hlang] at h
    obtain ⟨item, hitem, -⟩ := bind_eq_ok (x := assembleMors P lang components) h
    rw [AlignedUd.words]
    unfold assembleMors at hitem
    cases hmain : mainFirst lang components with
    | nil => exact fun w hw => absurd hw not_mem_nil
    | cons main others =>
      rw [hmain] at hitem
      obtain ⟨own, -, hothers⟩ := bind_eq_ok hitem
      exact foldlM_lexical hothers

theorem collectItems_lexical (hlang : lang2 lang ≠ "it") {before : List (MappedItem M R)}
    {collected : List (MappedItem M R) × List (Nat × Nat)} (h : collectItems P lang .perToken tokens before = .ok collected) :
    ∀ token ∈ tokens, ∀ w ∈ (mainFirst lang token.ud.words).tail, classify w = none := by
  induction tokens generalizing before collected with
  | nil => exact fun token htoken => absurd htoken not_mem_nil
  | cons token tokens ih =>
    obtain ⟨own, hown, hrest⟩ := bind_eq_ok h
    obtain ⟨rest, hrest, -⟩ := bind_eq_ok hrest
    exact forall_mem_cons.mpr ⟨tokenItems_lexical hlang hown, ih hrest⟩

theorem noTagClitics_of_ok (hlang : lang2 lang ≠ "it") {tokens : UdTokens A} {m : MappedTokens M R}
    (h : mapTokens P lang .perToken tokens = .ok m) : NoTagClitics lang tokens := by
  obtain ⟨collected, hcollected, -⟩ := bind_eq_ok h
  exact collectItems_lexical hlang hcollected

variable {tokens : UdTokens A}

theorem mapTokens_spec (hwalked : tokens.Walked) (hlang : lang2 lang ≠ "it")
    (hmap : WordsMap P lang tokens) (hclitics : layout = .perToken → NoTagClitics lang tokens) :
    (IsTree (nodesOf tokens.words) ∧ ∃ m, mapTokens P lang layout tokens = .ok m ∧
      Forall₂ (Forall₂ fun w chunk => wordMor P lang w = .ok chunk)
        (tokens.tokens.flatMap (itemWords lang layout)) (m.mors.map Mor.chunks) ∧
      m.ranges.map (fun range => range.2 - range.1) = tokens.tokens.map (itemCount layout) ∧
      ∃ root ∈ tokens.words, root.head = .root ∧ ∃ label, IsTerminatorLabel P label ∧
        m.gras = graOf P (writtenWords lang layout tokens) root label) ∨
    (¬ IsTree (nodesOf tokens.words) ∧ ∃ e, mapTokens P lang layout tokens = .error e) := by
  have hmem : ∀ token ∈ tokens.tokens, ∀ w ∈ token.ud.words, w ∈ tokens.words :=
    fun token htoken w hw => mem_flatMap.mpr ⟨token, htoken, hw⟩
  obtain ⟨items, ranges, hitems, hranges, hof⟩ := collectItems_spec hlang layout
    hwalked.words_ne_nil (fun token htoken w hw => hmap w (hmem token htoken w hw)) hclitics []
  have hprov := provenance_of hof
  rw [flatten_itemWords] at hprov
  have hperm := writtenWords_perm lang hwalked layout
  have hwritten := hwalked.walkedWords.perm hperm.symm
  have hsame : IsTree (nodesOf tokens.words) ↔ IsTree (nodesOf (writtenWords lang layout tokens)) :=
    isTree_perm hwalked.walkedWords.wellHeaded (hperm.symm.map wordNode)
  have hbuild := build_spec (P := P) hwritten hprov
  have heq : mapTokens P lang layout tokens =
      (buildGraAndValidate P (items.map MappedItem.provenance)).map
        (fun gras => ⟨items.map MappedItem.mor, gras, layout, ranges⟩) := by
    unfold mapTokens
    rw [hitems]
    change (buildGraAndValidate P (items.map MappedItem.provenance) >>= fun gras =>
      pure (⟨items.map MappedItem.mor, gras, layout, ranges⟩ : MappedTokens M R)) = _
    cases buildGraAndValidate P (items.map MappedItem.provenance) <;> rfl
  rw [heq, hsame]
  obtain ⟨htree, root, hroot, hhead, label, hpunct, hgras⟩ | ⟨htree, e, herror⟩ := hbuild
  · left
    rw [hgras]
    refine ⟨htree, _, rfl, ?_, hranges, root, hperm.mem_iff.mp hroot, hhead, label, hpunct, rfl⟩
    simp only [map_map, forall₂_map_right_iff]
    exact hof.imp fun _ _ h => h.chunks
  · right
    rw [herror]
    exact ⟨htree, e, rfl⟩

theorem graOf_index {words : List (UdWord A)} (h : WalkedWords words) (root : UdWord A)
    (label : R) : (graOf P words root label).map GrammaticalRelation.index =
      range' 1 (words.length + 1) := by
  have hplaces : words.map (fun w => position (nodesOf words) w.id) =
      range' 1 words.length := by
    have hcount := congrArg (List.map Prod.snd) h.zipIdx_eq
    simpa [map_map, Function.comp_def] using hcount.symm
  simp only [graOf, map_append, map_map, Function.comp_def, wordRelation, hplaces,
    map_cons, map_nil]
  rw [range'_concat]
  simp [Nat.add_comm]

theorem find_root (hwalked : tokens.Walked) (htree : IsTree (nodesOf tokens.words))
    (hroot : root ∈ tokens.words) (hhead : root.head = .root) :
    tokens.words.find? (fun w => w.head == .root) = some root := by
  obtain ⟨v, hv, -, honly, -⟩ := htree
  have hone : ∀ w ∈ tokens.words, w.head = .root → w = root := by
    intro w hw hw'
    have hw_root := honly _ (wordNode_mem hw) (wordNode_head_eq_none.mpr hw')
    have hroot_root := honly _ (wordNode_mem hroot) (wordNode_head_eq_none.mpr hhead)
    exact hwalked.walkedWords.eq_of_id hw hroot
      (congrArg Node.id (hw_root.trans hroot_root.symm))
  obtain ⟨w, hw⟩ : ∃ w, tokens.words.find? (fun w => w.head == .root) = some w := by
    apply Option.isSome_iff_exists.mp
    rw [find?_isSome]
    exact ⟨root, hroot, by simpa using hhead⟩
  have hfound := find?_some hw
  rw [hw, hone w (mem_of_find?_eq_some hw) (by simpa using hfound)]

theorem written_of_graOf (hwalked : tokens.Walked) (htree : IsTree (nodesOf tokens.words))
    {m : MappedTokens M R} {label : R}
    (hroot : root ∈ tokens.words) (hhead : root.head = .root) (hlabel : IsTerminatorLabel P label)
    (hchunks : Forall₂ (Forall₂ fun w chunk => wordMor P lang w = .ok chunk)
      (tokens.tokens.flatMap (itemWords lang layout)) (m.mors.map Mor.chunks))
    (hranges : m.ranges.map (fun range => range.2 - range.1) = tokens.tokens.map (itemCount layout))
    (hgras : m.gras = graOf P (writtenWords lang layout tokens) root label) :
    Written P lang layout tokens m := by
  have hperm := writtenWords_perm lang hwalked layout
  have hwords := hwalked.walkedWords.perm hperm.symm
  constructor
  · rw [hgras, graOf_index hwords, hperm.length_eq]
  · rw [hgras, graOf, ← hperm.length_eq]
    exact take_left' (length_map _)
  · intro w _
    refine ⟨wordRelation_head_eq_zero w, ?_⟩
    intro hw
    rw [relationLabel, hw]
    exact P.relations.asStr_root
  · refine ⟨label, hlabel.asStr, ?_⟩
    rw [hgras, graOf, getLast?_concat, find_root hwalked htree hroot hhead, hperm.length_eq]
    rfl
  · exact hchunks
  · refine ⟨?_, hranges⟩
    have hlength := hchunks.length_eq
    rw [length_map, length_flatMap] at hlength
    rw [← hlength]
    simp only [length_itemWords]

theorem graOf_renumber {words words' : List (UdWord A)} (h : WalkedWords words)
    (hperm : words.Perm words') (hroot : root ∈ words) (label : R) :
    ((graOf P words root label).map (GrammaticalRelation.renumber
      (DependencyTree.renumber (nodesOf words) (nodesOf words')))).Perm (graOf P words' root label) := by
  have hword : ∀ w ∈ words, GrammaticalRelation.renumber
      (DependencyTree.renumber (nodesOf words) (nodesOf words')) (wordRelation P words w) =
      wordRelation P words' w := by
    intro w hw
    simp only [GrammaticalRelation.renumber, wordRelation,
      renumber_headNumber h.wellHeaded (wordNode_mem hw)]
    rw [← wordNode_id w, renumber_position h.wellHeaded (wordNode_mem hw)]
  have hterminator : DependencyTree.renumber (nodesOf words) (nodesOf words')
      (words.length + 1) = words'.length + 1 := by
    rw [renumber_of_length_lt (by simp), hperm.length_eq]
  unfold graOf
  rw [map_append, map_map]
  apply Perm.append
  · have hwords : words.map (GrammaticalRelation.renumber
        (DependencyTree.renumber (nodesOf words) (nodesOf words')) ∘ wordRelation P words) =
        words.map (wordRelation P words') := map_congr_left hword
    rw [hwords]
    exact hperm.map _
  · simp only [map_cons, map_nil, GrammaticalRelation.renumber, hterminator]
    rw [← wordNode_id root, renumber_position h.wellHeaded (wordNode_mem hroot)]

theorem root_unique (hwalked : tokens.Walked) (htree : IsTree (nodesOf tokens.words))
    {root' : UdWord A} (hroot : root ∈ tokens.words) (hhead : root.head = .root)
    (hroot' : root' ∈ tokens.words) (hhead' : root'.head = .root) : root = root' := by
  have hfirst := find_root hwalked htree hroot hhead
  rw [find_root hwalked htree hroot' hhead', Option.some.injEq] at hfirst
  exact hfirst.symm

/-- For a walked sentence, not Italian, whose words all map, the mapping preserves the tree exactly when a
  word is walked and, where the words are a tree, no clitic is a tag marker. -/
theorem map_tokens_tree_iff (P : WordMapping A M R E) (lang : String) (hlang : lang2 lang ≠ "it")
    (sentence : List (UdWord A)) (tokens : UdTokens A)
    (hwalk : UdTokens.walk P.text sentence = .ok tokens) (hmap : WordsMap P lang tokens) :
    PreservesTree P lang tokens ↔
      tokens.words ≠ [] ∧ (IsTree (nodesOf tokens.words) → NoTagClitics lang tokens) := by
  have hwalked := walk_spec hwalk
  constructor
  · intro hpreserves
    constructor
    · intro hnil
      obtain ⟨m, hm⟩ := (hpreserves.accepts .perWord).mpr (Or.inr hnil)
      have hallowed : ItemLayout.perWord = .perToken → NoTagClitics lang tokens := fun h => nomatch h
      obtain ⟨htree, -⟩ | ⟨-, e, herror⟩ := mapTokens_spec hwalked hlang hmap hallowed
      · obtain ⟨root, hroot, -⟩ := htree
        rw [hnil] at hroot
        cases hroot
      · rw [herror] at hm
        cases hm
    · intro htree
      obtain ⟨m, hm⟩ := (hpreserves.accepts .perToken).mpr (Or.inl htree)
      exact noTagClitics_of_ok hlang hm
  · rintro ⟨hne, hclitics⟩
    -- without a tree both layouts refuse, a marker among the clitics or not
    have hspec (layout : ItemLayout) : (IsTree (nodesOf tokens.words) ∧ (layout = .perToken → NoTagClitics lang tokens)) ∨
        (¬ IsTree (nodesOf tokens.words) ∧ ∀ m, mapTokens P lang layout tokens ≠ .ok m) := by
      by_cases htree : IsTree (nodesOf tokens.words)
      · exact .inl ⟨htree, fun _ => hclitics htree⟩
      · refine .inr ⟨htree, fun m hm => ?_⟩
        have hallowed : layout = .perToken → NoTagClitics lang tokens := by
          rintro rfl
          exact noTagClitics_of_ok hlang hm
        obtain ⟨hsome, -⟩ | ⟨-, e, herror⟩ := mapTokens_spec hwalked hlang hmap hallowed
        · exact htree hsome
        · cases hm.symm.trans herror
    have hok {layout : ItemLayout} {m : MappedTokens M R} (hm : mapTokens P lang layout tokens = .ok m) :
        IsTree (nodesOf tokens.words) ∧ Written P lang layout tokens m ∧ ∃ root ∈ tokens.words, root.head = .root ∧
          ∃ label, IsTerminatorLabel P label ∧ m.gras = graOf P (writtenWords lang layout tokens) root label := by
      obtain ⟨htree, hallowed⟩ | ⟨-, hrefused⟩ := hspec layout
      · obtain ⟨-, m', hm', hchunks, hranges, root, hroot, hhead, label, hlabel, hgras⟩ | ⟨hnot, -⟩ :=
          mapTokens_spec hwalked hlang hmap hallowed
        · cases hm.symm.trans hm'
          exact ⟨htree, written_of_graOf hwalked htree hroot hhead hlabel hchunks hranges hgras, root, hroot, hhead,
            label, hlabel, hgras⟩
        · exact absurd htree hnot
      · exact absurd hm (hrefused m)
    constructor
    · intro layout
      constructor
      · rintro ⟨m, hm⟩
        exact .inl (hok hm).1
      · intro htree
        obtain ⟨htree, hallowed⟩ | ⟨hnot, -⟩ := hspec layout
        · obtain ⟨-, m, hm, -⟩ | ⟨hnot, -⟩ := mapTokens_spec hwalked hlang hmap hallowed
          · exact ⟨m, hm⟩
          · exact absurd htree hnot
        · exact absurd (htree.resolve_right hne) hnot
    · intro layout m hm
      exact (hok hm).2.1
    · intro t w ht hw
      obtain ⟨htree, -, root, hroot, hhead, label, hlabel, hgras⟩ := hok ht
      obtain ⟨-, -, root', hroot', hhead', label', hlabel', hgras'⟩ := hok hw
      unfold IsTerminatorLabel at hlabel hlabel'
      rw [hlabel, Except.ok.injEq] at hlabel'
      rw [root_unique hwalked htree hroot' hhead' hroot hhead, ← hlabel'] at hgras'
      rw [hgras, hgras']
      have hperm := writtenWords_perm lang hwalked .perWord
      have hperm' := writtenWords_perm lang hwalked .perToken
      exact graOf_renumber (hwalked.walkedWords.perm hperm.symm) (hperm.trans hperm'.symm)
        (hperm.mem_iff.mpr hroot) label

def plainMapping : WordMapping Unit String String String where
  text := {
    isChatTerminator := fun text => text == "." || text == "?" || text == "!"
    trim := fun text => text
    toUppercase := fun text => text.map Char.toUpper }
  debugText := fun text => text
  relations := {
    new := .ok
    asStr := fun label => label
    root := "ROOT"
    debug := fun _ => ""
    asStr_new := by
      intro text label h
      cases h
      rfl
    asStr_root := rfl
    new_punct := ⟨_, rfl⟩ }
  morWord := fun category stem => category ++ "|" ++ stem
  mapUdMorWord := fun _ w =>
    if w.lemma_.isEmpty then .error "empty stem" else .ok ("verb|" ++ w.lemma_)
  italianSingleOverride := fun _ => .ok none
  italianRangeOverride := fun _ => .ok none

def fullStop (id head : Nat) : UdWord Unit where
  id := .single id
  text := "."
  lemma_ := "."
  upos := .value .punct
  head := if h : 0 < head then .word ⟨head, h⟩ else .root
  deprel := "punct"
  analysis := ()

def wake : UdWord Unit where
  id := .single 1
  text := "wake"
  lemma_ := "wake"
  upos := .value .verb
  head := .root
  deprel := "root"
  analysis := ()

theorem map_tokens_tree_iff_wake :
    ∃ tokens, UdTokens.walk plainMapping.text [wake, fullStop 2 1] = .ok tokens ∧
      PreservesTree plainMapping "eng" tokens := by
  have hwalk : UdTokens.walk plainMapping.text [wake, fullStop 2 1] =
      .ok ⟨[⟨.word wake, wake, ⟨1, by decide⟩, .root, none⟩], [(⟨1, by decide⟩, 0, wake)]⟩ := by
    simp [UdTokens.walk, walkRows, wake, fullStop, isTerminatorPunct, plainMapping, record,
      UdWordId.ofRow, WordTable.get, WordTable.insert, headOutside, UnresolvedToken.resolve]
  refine ⟨_, hwalk, ?_⟩
  refine (map_tokens_tree_iff plainMapping "eng" (by decide) _ _ hwalk ?_).mpr
    ⟨by simp [UdTokens.words, AlignedUd.words], fun _ => ?_⟩
  · intro w hw
    simp only [UdTokens.words, flatMap_cons, AlignedUd.words, flatMap_nil,
      append_nil, mem_singleton] at hw
    subst hw
    exact ⟨_, rfl⟩
  · intro token htoken w hw
    simp only [mem_singleton] at htoken
    subst htoken
    rw [AlignedUd.words, mainFirst_singleton] at hw
    cases hw

/-- A sentence of a full stop alone walks to no token, and the mapping refuses it. -/
theorem empty_sentence_refused : UdTokens.walk plainMapping.text [fullStop 1 0] = .ok ⟨[], []⟩ ∧
      mapTokens plainMapping "eng" .perToken ⟨[], []⟩ =
        .error (.invalidRoot "no ROOT relation. GRA: ") ∧
      ¬ PreservesTree plainMapping "eng" ⟨[], []⟩ := by
  have hwalk : UdTokens.walk plainMapping.text [fullStop 1 0] = .ok ⟨[], []⟩ := by
    simp [UdTokens.walk, walkRows, fullStop, isTerminatorPunct, plainMapping, headOutside]
    rfl
  have hrefused : mapTokens plainMapping "eng" .perToken ⟨[], []⟩ =
      .error (.invalidRoot "no ROOT relation. GRA: ") := by
    rfl
  refine ⟨hwalk, hrefused, ?_⟩
  intro hpreserves
  obtain ⟨m, hm⟩ := (hpreserves.accepts .perToken).mpr (Or.inr rfl)
  cases hm

end Batchalign.Morphosyntax
