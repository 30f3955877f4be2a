import Mathlib.Data.List.Sort

/- The walk of a UD sentence (`morphosyntax/alignment.rs`, `UdTokens::walk`): rows become top-level
   tokens and a table of the words by id, kept in order; a sentence whose ids or heads later lookups
   could not rely on is refused. `A` is what the other columns say of a word. -/

namespace Batchalign.Morphosyntax
open List

inductive UniversalPos where
  | adj | adp | adv | aux | cconj | det | pron | noun | propn | num | part | verb | sconj
  | punct | sym | intj | x

inductive UdPunctable where
  | value (pos : UniversalPos)
  | punct (raw : String)

inductive UdId where
  | single (id : Nat)
  | range (start stop : Nat)
  | decimal
  deriving DecidableEq

structure UdWordId where
  get : Nat
  pos : 0 < get
  deriving DecidableEq

inductive UdHead where
  | root
  | word (id : UdWordId)
  deriving DecidableEq

def UdHead.word? : UdHead → Option UdWordId
  | root => none
  | word id => some id

structure UdWord (A : Type) where
  id : UdId
  text : String
  lemma_ : String
  upos : UdPunctable
  head : UdHead
  deprel : String
  analysis : A

variable {A : Type}

def UdWordId.ofRow (word : UdWord A) : Option UdWordId :=
  match word.id with
  | .single id | .range id _ => if h : 0 < id then some ⟨id, h⟩ else none
  | .decimal => none

structure TextTables where
  isChatTerminator : String → Bool
  trim : String → String
  toUppercase : String → String

def isTerminatorPunct (T : TextTables) (ud : UdWord A) : Bool :=
  match ud.id with
  | .single _ =>
    match ud.upos with
    | .value .punct | .punct _ =>
      T.isChatTerminator (T.trim ud.lemma_) || T.isChatTerminator (T.trim ud.text)
    | _ => false
  | _ => false

inductive AlignedUd (A : Type) where
  | word (word : UdWord A)
  | mwt (range : UdWord A) (components : List (UdWord A))

def AlignedUd.words : AlignedUd A → List (UdWord A)
  | word w => [w]
  | mwt _ components => components

inductive TokenHead where
  | root
  | token (token : Nat)

structure UnresolvedToken (A : Type) where
  ud : AlignedUd A
  representative : UdWord A
  representativeId : UdWordId

structure WalkedToken (A : Type) where
  ud : AlignedUd A
  representative : UdWord A
  representativeId : UdWordId
  head : TokenHead
  headWord : Option (UdWord A)

inductive UdSentenceError where
  | malformedMwt (start stop : Nat)
  | zeroId
  | duplicateId (id : UdWordId)
  | headOutsideSentence (word head : UdWordId)
  | mwtWithoutExternalHead (start stop : Nat)

abbrev WordTable (A : Type) := List (UdWordId × Nat × UdWord A)

namespace WordTable

def get (byId : WordTable A) (id : UdWordId) : Option (Nat × UdWord A) :=
  (byId.find? (fun e => e.1 == id)).map Prod.snd

def insert (byId : WordTable A) (id : UdWordId) (token : Nat) (word : UdWord A) : WordTable A :=
  byId.orderedInsert (fun a b => a.1.get ≤ b.1.get) (id, token, word)

end WordTable

def record (byId : WordTable A) (word : UdWord A) (token : Nat) :
    Except UdSentenceError (UdWordId × WordTable A) :=
  match UdWordId.ofRow word with
  | none => .error .zeroId
  | some id =>
    if (byId.get id).isSome then .error (.duplicateId id)
    else .ok (id, byId.insert id token word)

/-- A range row's components: ids in order, each recorded, and the first that attaches outside. -/
def walkComponents (start stop token : Nat) :
    Nat → List (UdWord A) → Option (UdWord A × UdWordId) → WordTable A →
      Except UdSentenceError (Option (UdWord A × UdWordId) × WordTable A)
  | _, [], representative, byId => .ok (representative, byId)
  | expected, component :: rest, representative, byId =>
    if component.id ≠ .single expected then .error (.malformedMwt start stop)
    else
      match record byId component token with
      | .error e => .error e
      | .ok (id, byId) =>
        let attachesInside :=
          component.head.word?.any (fun head => start ≤ head.get && head.get ≤ stop)
        walkComponents start stop token (expected + 1) rest
          (if representative.isNone && !attachesInside then some (component, id)
            else representative)
          byId

def walkRows (T : TextTables) (rows : List (UdWord A)) (walked : List (UnresolvedToken A))
    (byId : WordTable A) : Except UdSentenceError (List (UnresolvedToken A) × WordTable A) :=
  match rows with
  | [] => .ok (walked, byId)
  | row :: rest =>
    match row.id with
    | .decimal => walkRows T rest walked byId
    | .single _ =>
      if isTerminatorPunct T row then walkRows T rest walked byId
      else
        match record byId row walked.length with
        | .error e => .error e
        | .ok (id, byId) => walkRows T rest (walked ++ [⟨.word row, row, id⟩]) byId
    | .range start stop =>
      if stop < start then .error (.malformedMwt start stop)
      else if rest.length < stop - start + 1 then .error (.malformedMwt start stop)
      else
        match walkComponents start stop walked.length start (rest.take (stop - start + 1)) none
          byId with
        | .error e => .error e
        | .ok (none, _) => .error (.mwtWithoutExternalHead start stop)
        | .ok (some (representative, id), byId) =>
          walkRows T (rest.drop (stop - start + 1))
            (walked ++ [⟨.mwt row (rest.take (stop - start + 1)), representative, id⟩]) byId
termination_by rows.length
decreasing_by all_goals simp only [length_cons, length_drop]; omega

structure UdTokens (A : Type) where
  tokens : List (WalkedToken A)
  byId : WordTable A

/-- The first word, in the order of the ids, whose head is no word of the walk. -/
def headOutside (byId : WordTable A) : Option UdSentenceError :=
  byId.findSome? (fun e =>
    match e.2.2.head with
    | .root => none
    | .word head =>
      if (byId.get head).isSome then none else some (.headOutsideSentence e.1 head))

def UnresolvedToken.resolve (byId : WordTable A) (token : UnresolvedToken A) :
    Except UdSentenceError (WalkedToken A) :=
  match token.representative.head with
  | .root => .ok ⟨token.ud, token.representative, token.representativeId, .root, none⟩
  | .word head =>
    match byId.get head with
    | none => .error (.headOutsideSentence token.representativeId head)
    | some (place, word) =>
      .ok ⟨token.ud, token.representative, token.representativeId, .token place, some word⟩

namespace UdTokens

def walk (T : TextTables) (sentence : List (UdWord A)) : Except UdSentenceError (UdTokens A) :=
  match walkRows T sentence [] [] with
  | .error e => .error e
  | .ok (walked, byId) =>
    match headOutside byId with
    | some e => .error e
    | none =>
      match walked.mapM (UnresolvedToken.resolve byId) with
      | .error e => .error e
      | .ok tokens => .ok ⟨tokens, byId⟩

def words (tokens : UdTokens A) : List (UdWord A) :=
  tokens.tokens.flatMap (fun token => token.ud.words)

/-- The token of an id and the word's place in it. -/
def locate (tokens : UdTokens A) (id : UdWordId) : Option (Nat × Nat) :=
  match tokens.byId.get id with
  | none => none
  | some (place, _) =>
    match tokens.tokens[place]? with
    | none => none
    | some token =>
      (token.ud.words.findIdx? (fun word => word.id == .single id.get)).map (fun k => (place, k))

def dependents (tokens : UdTokens A) (token : WalkedToken A) : List (UdWord A) :=
  (tokens.byId.map (fun e => e.2.2)).filter (fun word => word.head == .word token.representativeId)

structure Walked (tokens : UdTokens A) : Prop where
  id : ∀ w ∈ tokens.words, ∃ i : UdWordId, w.id = .single i.get
  nodup : (tokens.words.map UdWord.id).Nodup
  closed : ∀ w ∈ tokens.words, ∀ h, w.head = .word h → ∃ u ∈ tokens.words, u.id = .single h.get
  words_ne_nil : ∀ token ∈ tokens.tokens, token.ud.words ≠ []

end UdTokens

/-- The rows of a sentence and its top-level tokens. -/
inductive Rows (T : TextTables) : List (UdWord A) → List (AlignedUd A) → Prop where
  | nil : Rows T [] []
  | decimal {row : UdWord A} {rest : List (UdWord A)} {uds : List (AlignedUd A)}
      (hid : row.id = .decimal) (h : Rows T rest uds) : Rows T (row :: rest) uds
  | terminator {row : UdWord A} {rest : List (UdWord A)} {uds : List (AlignedUd A)} {n : Nat}
      (hid : row.id = .single n) (hterminator : isTerminatorPunct T row = true)
      (h : Rows T rest uds) : Rows T (row :: rest) uds
  | word {row : UdWord A} {rest : List (UdWord A)} {uds : List (AlignedUd A)} {n : Nat}
      (hid : row.id = .single n) (hterminator : isTerminatorPunct T row = false)
      (h : Rows T rest uds) : Rows T (row :: rest) (.word row :: uds)
  | mwt {row : UdWord A} {components rest : List (UdWord A)} {uds : List (AlignedUd A)}
      {start stop : Nat} (hid : row.id = .range start stop) (hle : start ≤ stop)
      (hids : components.map UdWord.id = (range' start (stop - start + 1)).map UdId.single)
      (h : Rows T rest uds) : Rows T (row :: (components ++ rest)) (.mwt row components :: uds)

/-- The component's head is outside of the range. -/
def Outside (start stop : Nat) (component : UdWord A) : Prop :=
  component.head.word?.any (fun head => start ≤ head.get && head.get ≤ stop) = false

/-- What the lookups rely on, of the words of the tokens. -/
structure Lookups (uds : List (AlignedUd A)) : Prop where
  pos : ∀ w ∈ uds.flatMap AlignedUd.words, w.id ≠ .single 0
  nodup : ((uds.flatMap AlignedUd.words).map UdWord.id).Nodup
  closed : ∀ w ∈ uds.flatMap AlignedUd.words, ∀ h, w.head = .word h →
    ∃ u ∈ uds.flatMap AlignedUd.words, u.id = .single h.get
  external : ∀ range components start stop, .mwt range components ∈ uds →
    range.id = .range start stop → ∃ c ∈ components, Outside start stop c

/-- The words with their tokens, the first of them token `n`. -/
def placedFrom (n : Nat) (uds : List (AlignedUd A)) : List (Nat × UdWord A) :=
  (uds.zipIdx n).flatMap (fun u => u.1.words.map (fun w => (u.2, w)))

@[simp] theorem placedFrom_cons (n : Nat) (ud : AlignedUd A) (uds : List (AlignedUd A)) :
    placedFrom n (ud :: uds) = ud.words.map (fun w => (n, w)) ++ placedFrom (n + 1) uds := by
  simp [placedFrom, zipIdx_cons]

theorem placedFrom_snoc (n : Nat) (uds : List (AlignedUd A)) (ud : AlignedUd A) :
    placedFrom n (uds ++ [ud]) = placedFrom n uds ++ ud.words.map (fun w => (n + uds.length, w)) := by
  simp [placedFrom, zipIdx_append]

theorem placedFrom_words (n : Nat) (uds : List (AlignedUd A)) :
    (placedFrom n uds).map Prod.snd = uds.flatMap AlignedUd.words := by
  induction uds generalizing n with
  | nil => rfl
  | cons ud uds ih => simp [ih, Function.comp_def]

variable {uds : List (AlignedUd A)}

theorem mem_placedFrom {t : Nat} {w : UdWord A} :
    (t, w) ∈ placedFrom 0 uds ↔ ∃ ud, uds[t]? = some ud ∧ w ∈ ud.words := by
  simp only [placedFrom, mem_flatMap, mem_map, Prod.mk.injEq]
  constructor
  · rintro ⟨u, hu, w', hw, rfl, rfl⟩
    exact ⟨u.1, mem_zipIdx_iff_getElem?.mp hu, hw⟩
  · rintro ⟨ud, hud, hw⟩
    exact ⟨(ud, t), mem_zipIdx_iff_getElem?.mpr hud, w, hw, rfl, rfl⟩

/-- The table has each placed word once, under its id. -/
structure Indexed (placed : List (Nat × UdWord A)) (byId : WordTable A) : Prop where
  perm : (byId.map Prod.snd).Perm placed
  ids : ∀ e ∈ byId, e.2.2.id = .single e.1.get
  nodup : (byId.map Prod.fst).Nodup

namespace Indexed

variable {placed : List (Nat × UdWord A)} {byId : WordTable A}

theorem nil : Indexed ([] : List (Nat × UdWord A)) [] where
  perm := Perm.refl _
  ids := by simp
  nodup := nodup_nil

section
variable (h : Indexed placed byId)
include h

theorem entry {t : Nat} {w : UdWord A} (hw : (t, w) ∈ placed) :
    ∃ id : UdWordId, (id, t, w) ∈ byId ∧ w.id = .single id.get := by
  obtain ⟨⟨id, u⟩, he, hu⟩ := mem_map.mp (h.perm.mem_iff.mpr hw)
  cases hu
  exact ⟨id, he, h.ids _ he⟩

theorem nodup_ids : (placed.map (fun x => x.2.id)).Nodup := by
  rw [← (h.perm.map (fun x => x.2.id)).nodup_iff, map_map]
  have hids : byId.map ((fun x : Nat × UdWord A => x.2.id) ∘ Prod.snd) =
      (byId.map Prod.fst).map (fun id => UdId.single id.get) := by
    rw [map_map]
    exact map_congr_left h.ids
  rw [hids]
  refine h.nodup.map ?_
  rintro ⟨m, _⟩ ⟨n, _⟩ heq
  cases heq
  rfl

theorem get_eq_some_iff {id : UdWordId} {t : Nat} {w : UdWord A} :
    byId.get id = some (t, w) ↔ (t, w) ∈ placed ∧ w.id = .single id.get := by
  constructor
  · intro hget
    obtain ⟨e, hfind, heq⟩ := Option.map_eq_some_iff.mp hget
    have hmem := mem_of_find?_eq_some hfind
    have hid : e.1 = id := by simpa using find?_some hfind
    refine ⟨h.perm.mem_iff.mp (mem_map.mpr ⟨e, hmem, heq⟩), ?_⟩
    rw [← hid, ← h.ids e hmem, heq]
  · rintro ⟨hmem, hid⟩
    obtain ⟨id', he, hid'⟩ := h.entry hmem
    have hsame : id' = id := by
      rw [hid, UdId.single.injEq] at hid'
      cases id
      cases id'
      simpa using hid'.symm
    subst hsame
    cases hget : byId.get id' with
    | none =>
      have hfind := Option.map_eq_none_iff.mp hget
      exact absurd (find?_eq_none.mp hfind _ he) (by simp)
    | some x =>
      obtain ⟨e, hfind, rfl⟩ := Option.map_eq_some_iff.mp hget
      have hkey : e.1 = id' := by simpa using find?_some hfind
      have heq := inj_on_of_nodup_map h.nodup (mem_of_find?_eq_some hfind) he hkey
      rw [heq]

theorem get_isSome_iff (id : UdWordId) :
    (byId.get id).isSome = true ↔ ∃ x ∈ placed, x.2.id = .single id.get := by
  rw [Option.isSome_iff_exists]
  exact ⟨fun ⟨x, hx⟩ => ⟨x, h.get_eq_some_iff.mp hx⟩, fun ⟨x, hx⟩ => ⟨x, h.get_eq_some_iff.mpr hx⟩⟩

theorem record {word : UdWord A} {n token : Nat} {id : UdWordId}
    {byId' : WordTable A} (hid : word.id = .single n)
    (hrecord : Morphosyntax.record byId word token = .ok (id, byId')) :
    word.id = .single id.get ∧ Indexed (placed ++ [(token, word)]) byId' := by
  unfold Morphosyntax.record UdWordId.ofRow at hrecord
  rw [hid] at hrecord
  by_cases hpos : 0 < n
  · simp only [hpos, dite_true] at hrecord
    split at hrecord
    · cases hrecord
    · next hnew =>
      cases hrecord
      rw [h.get_isSome_iff] at hnew
      refine ⟨hid, ?_, ?_, ?_⟩
      · refine ((perm_orderedInsert _ _ _).map _).trans ?_
        rw [map_cons]
        exact (h.perm.cons _).trans (perm_append_singleton _ _).symm
      · intro e he
        obtain rfl | he := (mem_orderedInsert _).mp he
        · exact hid
        · exact h.ids e he
      · rw [WordTable.insert, ((perm_orderedInsert _ _ _).map Prod.fst).nodup_iff, map_cons,
          nodup_cons]
        refine ⟨?_, h.nodup⟩
        intro hmem
        obtain ⟨e, he, hkey⟩ := mem_map.mp hmem
        refine hnew ⟨e.2, h.perm.mem_iff.mp (mem_map_of_mem he), ?_⟩
        rw [h.ids e he, hkey]
  · simp [hpos] at hrecord

theorem record_ok {word : UdWord A} {n : Nat} (token : Nat)
    (hid : word.id = .single n) (hpos : word.id ≠ .single 0)
    (hnew : word.id ∉ placed.map (fun x => x.2.id)) :
    ∃ id byId', Morphosyntax.record byId word token = .ok (id, byId') := by
  have hn : 0 < n := by
    refine Nat.pos_of_ne_zero ?_
    rintro rfl
    exact hpos hid
  have hnone : ¬ (byId.get ⟨n, hn⟩).isSome := by
    rw [h.get_isSome_iff]
    rintro ⟨x, hx, heq⟩
    exact hnew (mem_map.mpr ⟨x, hx, heq.trans hid.symm⟩)
  refine ⟨⟨n, hn⟩, byId.insert ⟨n, hn⟩ token word, ?_⟩
  simp [ Morphosyntax.record, UdWordId.ofRow, hid, hn, hnone]

end

end Indexed

section Components

variable {placed : List (Nat × UdWord A)} {byId byId' : WordTable A}
  {start stop token expected : Nat} {components : List (UdWord A)}
  {representative representative' : Option (UdWord A × UdWordId)}

theorem walkComponents_ok (h : Indexed placed byId)
    (hwalk : walkComponents start stop token expected components representative byId =
      .ok (representative', byId')) :
    components.map UdWord.id = (range' expected components.length).map UdId.single ∧
    Indexed (placed ++ components.map (fun w => (token, w))) byId' ∧
    (∀ x ∈ representative', x ∈ representative ∨
      x.1 ∈ components ∧ x.1.id = .single x.2.get ∧ Outside start stop x.1) ∧
    (representative' = none → representative = none ∧ ∀ c ∈ components, ¬ Outside start stop c) := by
  induction components generalizing placed byId expected representative with
  | nil =>
    cases hwalk
    exact ⟨rfl, by simpa using h, fun x hx => .inl hx, fun hnone => ⟨hnone, by simp⟩⟩
  | cons component rest ih =>
    unfold walkComponents at hwalk
    split at hwalk
    · cases hwalk
    · next hid =>
      rw [not_not] at hid
      split at hwalk
      · cases hwalk
      · next id byId₁ hrecord =>
        obtain ⟨hword, hindexed⟩ := h.record hid hrecord
        obtain ⟨hids, hall, hsome, hnone⟩ := ih hindexed hwalk
        refine ⟨by simp [hid, hids, range'_succ], by simpa using hall, ?_, ?_⟩
        · intro x hx
          obtain hx | ⟨hmem, hx⟩ := hsome x hx
          · split at hx
            · next hfirst =>
              simp only [Bool.and_eq_true, Bool.not_eq_true'] at hfirst
              cases hx
              exact .inr ⟨mem_cons_self, hword, hfirst.2⟩
            · exact .inl hx
          · exact .inr ⟨mem_cons_of_mem _ hmem, hx⟩
        · intro heq
          obtain ⟨hfirst, hrest⟩ := hnone heq
          split at hfirst
          · cases hfirst
          · next hinside =>
            subst hfirst
            refine ⟨rfl, forall_mem_cons.mpr ⟨?_, hrest⟩⟩
            intro houtside
            exact hinside (by simpa [Outside] using houtside)

theorem exists_walkComponents (h : Indexed placed byId)
    (hids : components.map UdWord.id = (range' expected components.length).map UdId.single)
    (hpos : ∀ c ∈ components, c.id ≠ .single 0)
    (hnodup : (placed.map (fun x => x.2.id) ++ components.map UdWord.id).Nodup) :
    ∃ representative' byId', walkComponents start stop token expected components representative
      byId = .ok (representative', byId') := by
  induction components generalizing placed byId expected representative with
  | nil => exact ⟨_, _, rfl⟩
  | cons component rest ih =>
    rw [length_cons, range'_succ, map_cons, map_cons, cons.injEq] at hids
    rw [map_cons, ← concat_append, concat_eq_append] at hnodup
    have hnew : component.id ∉ placed.map (fun x => x.2.id) := by
      intro hmem
      exact disjoint_of_nodup_append (Nodup.of_append_left hnodup) hmem mem_cons_self
    obtain ⟨id, byId₁, hrecord⟩ := h.record_ok token hids.1 (hpos _ mem_cons_self) hnew
    have hindexed := (h.record hids.1 hrecord).2
    rw [walkComponents, if_neg (not_not.mpr hids.1), hrecord]
    exact ih hindexed hids.2 (fun c hc => hpos c (mem_cons_of_mem _ hc)) (by simpa using hnodup)

end Components

/-- The representative is a word of the token, one whose head is outside of a range. -/
structure UnresolvedToken.Speaks (token : UnresolvedToken A) : Prop where
  mem : token.representative ∈ token.ud.words
  id : token.representative.id = .single token.representativeId.get
  outside : ∀ range components, token.ud = .mwt range components →
    ∃ start stop, range.id = .range start stop ∧ Outside start stop token.representative ∧
      ∀ c ∈ components, ∀ k, c.id = .single k → start ≤ k ∧ k ≤ stop

section Walk

variable {T : TextTables} {rows : List (UdWord A)} {walked walked' : List (UnresolvedToken A)}
  {byId byId' : WordTable A}

theorem walkRows_ok (h : Indexed (placedFrom 0 (walked.map UnresolvedToken.ud)) byId)
    (hwalk : walkRows T rows walked byId = .ok (walked', byId')) :
    ∃ more, walked' = walked ++ more ∧ Rows T rows (more.map UnresolvedToken.ud) ∧
      Indexed (placedFrom 0 (walked'.map UnresolvedToken.ud)) byId' ∧ ∀ token ∈ more, token.Speaks := by
  induction rows, walked, byId using walkRows.induct T with
  | case1 walked byId =>
    rw [walkRows] at hwalk
    cases hwalk
    exact ⟨[], by simp, .nil, h, by simp⟩
  | case2 walked byId row rest hid ih =>
    rw [walkRows] at hwalk
    simp only [hid] at hwalk
    obtain ⟨more, heq, hrows, hrest⟩ := ih h hwalk
    exact ⟨more, heq, .decimal hid hrows, hrest⟩
  | case3 walked byId row rest n hid hterminator ih =>
    rw [walkRows] at hwalk
    simp only [hid, hterminator, if_true] at hwalk
    obtain ⟨more, heq, hrows, hrest⟩ := ih h hwalk
    exact ⟨more, heq, .terminator hid hterminator hrows, hrest⟩
  | case5 walked byId row rest n hid hterminator id byId₁ hrecord ih =>
    rw [walkRows] at hwalk
    simp only [hid, hterminator, hrecord] at hwalk
    obtain ⟨hword, hindexed⟩ := h.record hid hrecord
    obtain ⟨more, rfl, hrows, hall, hspeaks⟩ :=
      ih (by simpa [placedFrom_snoc, AlignedUd.words] using hindexed) hwalk
    refine ⟨⟨.word row, row, id⟩ :: more, by simp, ?_, hall, forall_mem_cons.mpr ⟨?_, hspeaks⟩⟩
    · exact .word hid (by simpa using hterminator) hrows
    · exact ⟨mem_singleton_self row, hword, by simp⟩
  -- Every other round fails.
  | case4 | case6 | case7 =>
    rw [walkRows] at hwalk
    simp_all
  | case8 | case9 =>
    rw [walkRows] at hwalk
    simp_all only [not_lt, if_neg]
    cases hwalk
  | case10 walked byId row rest start stop hid hle hlen representative id byId₁ hcomponents ih =>
    rw [walkRows] at hwalk
    simp only [hid, hle, hlen, hcomponents, if_false] at hwalk
    obtain ⟨hids, hindexed, hsome, -⟩ := walkComponents_ok h hcomponents
    obtain ⟨more, rfl, hrows, hall, hspeaks⟩ :=
      ih (by simpa [placedFrom_snoc, AlignedUd.words] using hindexed) hwalk
    have hcount : (rest.take (stop - start + 1)).length = stop - start + 1 := by
      rw [length_take]
      omega
    rw [hcount] at hids
    refine ⟨⟨.mwt row (rest.take (stop - start + 1)), representative, id⟩ :: more, by simp, ?_,
      hall, forall_mem_cons.mpr ⟨?_, hspeaks⟩⟩
    · have hmwt := Rows.mwt hid (Nat.le_of_not_lt hle) hids hrows
      rwa [take_append_drop] at hmwt
    · obtain hno | ⟨hmem, hword, houtside⟩ := hsome _ rfl
      · cases hno
      · refine ⟨hmem, hword, ?_⟩
        rintro _ _ ⟨⟩
        refine ⟨start, stop, hid, houtside, ?_⟩
        intro c hc k hk
        have hmem := mem_map_of_mem (f := UdWord.id) hc
        rw [hids, hk] at hmem
        simp only [mem_map, mem_range'_1, UdId.single.injEq, exists_eq_right] at hmem
        omega

theorem Lookups.fresh {before after : List (AlignedUd A)} {ud : AlignedUd A}
    (h : Lookups (before ++ ud :: after)) : (∀ w ∈ ud.words, w.id ≠ .single 0) ∧
      ((placedFrom 0 before).map (fun x => x.2.id) ++ ud.words.map UdWord.id).Nodup := by
  refine ⟨fun w hw => h.pos w (by simp [hw]), ?_⟩
  have hnodup := h.nodup
  rw [flatMap_append, flatMap_cons, map_append, map_append, ← append_assoc,
    ← placedFrom_words 0 before, map_map] at hnodup
  exact Nodup.of_append_left hnodup

theorem exists_walkRows (hrows : Rows T rows uds)
    (h : Indexed (placedFrom 0 (walked.map UnresolvedToken.ud)) byId)
    (hlookups : Lookups (walked.map UnresolvedToken.ud ++ uds)) :
    ∃ walked' byId', walkRows T rows walked byId = .ok (walked', byId') ∧
      walked'.map UnresolvedToken.ud = walked.map UnresolvedToken.ud ++ uds := by
  induction hrows generalizing walked byId with
  | nil =>
    rw [walkRows]
    exact ⟨_, _, rfl, (append_nil _).symm⟩
  | decimal hid hrest ih =>
    rw [walkRows]
    simp only [hid]
    exact ih h hlookups
  | terminator hid hterminator hrest ih =>
    rw [walkRows]
    simp only [hid, hterminator, if_true]
    exact ih h hlookups
  | @word row rest uds n hid hterminator hrest ih =>
    obtain ⟨hpos, hnodup⟩ := hlookups.fresh
    have hnew : row.id ∉ _ := fun hmem =>
      disjoint_of_nodup_append hnodup hmem (by simp [AlignedUd.words])
    obtain ⟨id, byId₁, hrecord⟩ :=
      h.record_ok walked.length hid (hpos row (by simp [AlignedUd.words])) hnew
    rw [walkRows]
    simp only [hid, hterminator, hrecord, Bool.false_eq_true, if_false]
    obtain ⟨walked', byId', hwalk, huds⟩ : ∃ walked' byId',
        walkRows T rest (walked ++ [⟨.word row, row, id⟩]) byId₁ = .ok (walked', byId') ∧ _ :=
      ih (by simpa [placedFrom_snoc, AlignedUd.words] using (h.record hid hrecord).2)
        (by simpa using hlookups)
    exact ⟨walked', byId', hwalk, by simpa using huds⟩
  | @mwt row components rest uds start stop hid hle hids hrest ih =>
    obtain ⟨hpos, hnodup⟩ := hlookups.fresh
    have hcount : components.length = stop - start + 1 := by
      simpa using congrArg List.length hids
    obtain ⟨representative, byId₁, hwalk⟩ : ∃ representative byId₁,
        walkComponents start stop walked.length start components none byId =
          .ok (representative, byId₁) :=
      exists_walkComponents h (hcount ▸ hids) hpos hnodup
    obtain ⟨-, hindexed, -, hnone⟩ := walkComponents_ok h hwalk
    have htake : (components ++ rest).take (stop - start + 1) = components := by
      rw [← hcount, take_left]
    have hdrop : (components ++ rest).drop (stop - start + 1) = rest := by
      rw [← hcount, drop_left]
    rw [walkRows]
    simp only [hid, Nat.not_lt.mpr hle, if_false, length_append, hcount, htake, hdrop,
      show ¬ stop - start + 1 + rest.length < stop - start + 1 by omega]
    rw [hwalk]
    cases representative with
    | none =>
      obtain ⟨c, hc, houtside⟩ := hlookups.external row components start stop (by simp) hid
      exact absurd houtside ((hnone rfl).2 c hc)
    | some x =>
      obtain ⟨walked', byId', hrest, huds⟩ : ∃ walked' byId',
          walkRows T rest (walked ++ [⟨.mwt row components, x.1, x.2⟩]) byId₁ =
            .ok (walked', byId') ∧ _ :=
        ih (by simpa [placedFrom_snoc, AlignedUd.words] using hindexed) (by simpa using hlookups)
      exact ⟨walked', byId', hrest, by simpa using huds⟩

end Walk

theorem mapM_eq_ok_iff {α β ε : Type} {f : α → Except ε β} {xs : List α} {ys : List β} :
    xs.mapM f = .ok ys ↔ Forall₂ (fun x y => f x = .ok y) xs ys := by
  induction xs generalizing ys with
  | nil => cases ys <;> simp [pure, Except.pure]
  | cons x xs ih =>
    rw [mapM_cons]
    cases hx : f x with
    | error e => simp [bind, Except.bind, forall₂_cons_left_iff, hx]
    | ok y =>
      cases hxs : xs.mapM f with
      | error e =>
        have hnone : ∀ ys, ¬ Forall₂ (fun x y => f x = .ok y) xs ys := by
          intro ys hys
          rw [← ih, hxs] at hys
          cases hys
        simp [bind, Except.bind, forall₂_cons_left_iff, hnone]
      | ok rest =>
        have hrest : ∀ ys, Forall₂ (fun x y => f x = .ok y) xs ys ↔ rest = ys := by
          intro ys
          rw [← ih, hxs, Except.ok.injEq]
        simp [bind, Except.bind, pure, Except.pure, forall₂_cons_left_iff, hrest, hx, eq_comm]

theorem exists_mapM {α β ε : Type} {f : α → Except ε β} {xs : List α}
    (h : ∀ x ∈ xs, ∃ y, f x = .ok y) : ∃ ys, xs.mapM f = .ok ys := by
  induction xs with
  | nil => exact ⟨[], rfl⟩
  | cons x xs ih =>
    obtain ⟨y, hy⟩ := h x mem_cons_self
    obtain ⟨ys, hys⟩ := ih (fun x' hx' => h x' (mem_cons_of_mem _ hx'))
    exact ⟨y :: ys, mapM_eq_ok_iff.mpr (.cons hy (mapM_eq_ok_iff.mp hys))⟩

theorem headOutside_eq_none {byId : WordTable A} (h : Indexed (placedFrom 0 uds) byId) :
    headOutside byId = none ↔ ∀ w ∈ uds.flatMap AlignedUd.words, ∀ head, w.head = .word head →
      ∃ u ∈ uds.flatMap AlignedUd.words, u.id = .single head.get := by
  have hfound : ∀ head : UdWordId, (byId.get head).isSome = true ↔
      ∃ u ∈ uds.flatMap AlignedUd.words, u.id = .single head.get := by
    intro head
    rw [h.get_isSome_iff, ← placedFrom_words 0 uds]
    exact ⟨fun ⟨x, hx, hid⟩ => ⟨x.2, mem_map_of_mem hx, hid⟩, by
      rintro ⟨_, hu, hid⟩
      obtain ⟨x, hx, rfl⟩ := mem_map.mp hu
      exact ⟨x, hx, hid⟩⟩
  have hwords : ∀ w, w ∈ uds.flatMap AlignedUd.words ↔ ∃ e ∈ byId, e.2.2 = w := by
    intro w
    rw [← placedFrom_words 0 uds, ← (h.perm.map Prod.snd).mem_iff]
    simp
  rw [headOutside, findSome?_eq_none_iff]
  constructor
  · intro hall w hw head hhead
    obtain ⟨e, he, rfl⟩ := (hwords w).mp hw
    by_contra hnone
    have hnow := hall e he
    rw [← hfound] at hnone
    simp [hhead, hnone] at hnow
  · intro hall e he
    cases hhead : e.2.2.head with
    | root => rfl
    | word head => exact if_pos ((hfound head).mpr (hall _ ((hwords _).mpr ⟨e, he, rfl⟩) head hhead))

/-- What a walked token says of the head of its representative. -/
structure WalkedToken.Heads (uds : List (AlignedUd A)) (t : Nat) (token : WalkedToken A) : Prop where
  mem : token.representative ∈ token.ud.words
  id : token.representative.id = .single token.representativeId.get
  root : token.representative.head = .root → token.head = .root ∧ token.headWord = none
  word : ∀ head, token.representative.head = .word head →
    ∃ place word ud, token.head = .token place ∧ token.headWord = some word ∧
      uds[place]? = some ud ∧ word ∈ ud.words ∧ word.id = .single head.get ∧
      ∀ range components, token.ud = .mwt range components → place ≠ t

theorem UnresolvedToken.resolve_ok {byId : WordTable A} {t : Nat}
    {token : UnresolvedToken A} {walked : WalkedToken A} (h : Indexed (placedFrom 0 uds) byId)
    (hud : uds[t]? = some token.ud) (hspeaks : token.Speaks)
    (hresolve : token.resolve byId = .ok walked) : walked.ud = token.ud ∧ walked.Heads uds t := by
  unfold resolve at hresolve
  split at hresolve
  · next hroot =>
    cases hresolve
    exact ⟨rfl, hspeaks.mem, hspeaks.id, fun _ => ⟨rfl, rfl⟩, fun head hhead => by simp_all⟩
  · next head hhead =>
    split at hresolve
    · cases hresolve
    · next place word hget =>
      cases hresolve
      obtain ⟨hplaced, hid⟩ := h.get_eq_some_iff.mp hget
      obtain ⟨ud, hplace, hmem⟩ := mem_placedFrom.mp hplaced
      refine ⟨rfl, hspeaks.mem, hspeaks.id, fun hroot => by simp_all, ?_⟩
      intro head' hhead'
      cases hhead.symm.trans hhead'
      refine ⟨place, word, ud, rfl, rfl, hplace, hmem, hid, ?_⟩
      rintro range components hmwt rfl
      obtain ⟨start, stop, -, houtside, hinside⟩ := hspeaks.outside range components hmwt
      cases hud.symm.trans hplace
      rw [show token.ud = _ from hmwt] at hmem
      have hbounds := hinside word hmem head.get hid
      simp only [Outside, hhead, UdHead.word?, Option.any_some, Bool.and_eq_false_iff,
        decide_eq_false_iff_not] at houtside
      omega

def UdId.isSingle : UdId → Bool
  | .single _ => true
  | _ => false

/-- How the lookups of an accepted sentence resolve. -/
structure UdTokens.Resolved (T : TextTables) (sentence : List (UdWord A))
    (tokens : UdTokens A) : Prop where
  rows : Rows T sentence (tokens.tokens.map WalkedToken.ud)
  kept : tokens.words.filter (fun w => !isTerminatorPunct T w) =
    sentence.filter (fun row => row.id.isSingle && !isTerminatorPunct T row)
  standAlone : ∀ token ∈ tokens.tokens, ∀ w, token.ud = .word w → isTerminatorPunct T w = false
  nodup : (tokens.words.map UdWord.id).Nodup
  locate : ∀ id t k, tokens.locate id = some (t, k) ↔
    ∃ token w, tokens.tokens[t]? = some token ∧ token.ud.words[k]? = some w ∧ w.id = .single id.get
  heads : ∀ t token, tokens.tokens[t]? = some token →
    WalkedToken.Heads (tokens.tokens.map WalkedToken.ud) t token
  dependents : (tokens.tokens.flatMap tokens.dependents).Perm
    (tokens.words.filter (fun w => tokens.tokens.any (fun token =>
      w.head == .word token.representativeId)))

theorem Rows.kept {T : TextTables} {sentence : List (UdWord A)} (h : Rows T sentence uds) :
    (uds.flatMap AlignedUd.words).filter (fun w => !isTerminatorPunct T w) =
      sentence.filter (fun row => row.id.isSingle && !isTerminatorPunct T row) := by
  induction h with
  | nil => rfl
  | decimal hid h ih => simp [ih, hid, UdId.isSingle]
  | terminator hid hterminator h ih => simp [ih, hterminator]
  | word hid hterminator h ih => simp [ih, hid, hterminator, UdId.isSingle, AlignedUd.words]
  | @mwt row components rest uds start stop hid hle hids h ih =>
    have hsingle : ∀ c ∈ components, c.id.isSingle = true := by
      intro c hc
      have hmem := mem_map_of_mem (f := UdWord.id) hc
      rw [hids] at hmem
      obtain ⟨k, -, heq⟩ := mem_map.mp hmem
      rw [← heq]
      rfl
    rw [flatMap_cons, filter_append, ih, filter_cons_of_neg (by simp [hid, UdId.isSingle]),
      filter_append]
    congr 1
    exact filter_congr (fun c hc => by simp [hsingle c hc])

theorem Rows.standAlone {T : TextTables} {sentence : List (UdWord A)}
    (h : Rows T sentence uds) {w : UdWord A} (hw : .word w ∈ uds) : isTerminatorPunct T w = false := by
  induction h with
  | nil => cases hw
  | decimal hid h ih | terminator hid hterminator h ih => exact ih hw
  | word hid hterminator h ih =>
    obtain hw | hw := mem_cons.mp hw
    · cases hw
      exact hterminator
    · exact ih hw
  | mwt hid hle hids h ih => exact ih (by simpa using hw)

theorem dependents_perm {ids : List UdWordId} (hnodup : ids.Nodup) (words : List (UdWord A)) :
    (ids.flatMap (fun id => words.filter (fun w => w.head == .word id))).Perm
      (words.filter (fun w => ids.any (fun id => w.head == .word id))) := by
  induction ids with
  | nil => simp
  | cons id ids ih =>
    obtain ⟨hnew, hnodup⟩ := nodup_cons.mp hnodup
    rw [flatMap_cons]
    refine ((ih hnodup).append_left _).trans ?_
    refine Perm.trans ?_ (filter_append_perm (fun w => w.head == .word id) _)
    rw [filter_filter, filter_filter]
    refine Perm.of_eq (congrArg₂ _ (filter_congr (fun w _ => ?_)) (filter_congr (fun w _ => ?_)))
    · cases hhead : w.head == .word id <;> simp [hhead]
    · cases hhead : w.head == .word id with
      | false => simp [hhead]
      | true =>
        rw [beq_iff_eq] at hhead
        have hother : ∀ x ∈ ids, id ≠ x := fun x hx heq => hnew (heq ▸ hx)
        simpa [hhead] using hother

section Accepted

variable {T : TextTables} {sentence : List (UdWord A)} {tokens : UdTokens A}

theorem UdTokens.words_eq (tokens : UdTokens A) :
    tokens.words = (tokens.tokens.map WalkedToken.ud).flatMap AlignedUd.words := by
  simp [UdTokens.words, flatMap_map]

theorem indexed_start :
    Indexed (placedFrom 0 (([] : List (UnresolvedToken A)).map UnresolvedToken.ud)) [] :=
  Indexed.nil

theorem walk_cases (h : UdTokens.walk T sentence = .ok tokens) :
    Rows T sentence (tokens.tokens.map WalkedToken.ud) ∧
    Indexed (placedFrom 0 (tokens.tokens.map WalkedToken.ud)) tokens.byId ∧
    Lookups (tokens.tokens.map WalkedToken.ud) ∧ ∀ t token, tokens.tokens[t]? = some token →
      WalkedToken.Heads (tokens.tokens.map WalkedToken.ud) t token := by
  unfold UdTokens.walk at h
  split at h
  · cases h
  · next walked byId hrows =>
    split at h
    · cases h
    · next hheads =>
      split at h
      · cases h
      · next resolved hresolve =>
        cases h
        obtain ⟨more, heq, hrows, hindexed, hspeaks⟩ := walkRows_ok indexed_start hrows
        rw [nil_append] at heq
        subst heq
        obtain ⟨hlen, hget⟩ := forall₂_iff_get.mp (mapM_eq_ok_iff.mp hresolve)
        have htoken : ∀ t (ht : t < resolved.length) (ht' : t < walked.length),
            resolved[t].ud = walked[t].ud ∧
              WalkedToken.Heads (walked.map UnresolvedToken.ud) t resolved[t] := by
          intro t ht ht'
          exact UnresolvedToken.resolve_ok hindexed (by simp [ht'])
            (hspeaks _ (getElem_mem ht')) (hget t ht' ht)
        have huds : resolved.map WalkedToken.ud = walked.map UnresolvedToken.ud := by
          refine ext_getElem (by simp [hlen]) (fun t ht ht' => ?_)
          simpa using (htoken t (by simpa using ht) (by simpa using ht')).1
        rw [huds]
        refine ⟨hrows, hindexed, ⟨?_, ?_, (headOutside_eq_none hindexed).mp hheads, ?_⟩, ?_⟩
        · intro w hw hzero
          rw [← placedFrom_words 0] at hw
          obtain ⟨x, hx, rfl⟩ := mem_map.mp hw
          obtain ⟨id, -, hid⟩ := hindexed.entry hx
          rw [hid, UdId.single.injEq] at hzero
          exact absurd hzero id.pos.ne'
        · rw [← placedFrom_words 0, map_map]
          exact hindexed.nodup_ids
        · intro range components start stop hmem hid
          obtain ⟨token, htoken, hud⟩ := mem_map.mp hmem
          obtain ⟨start', stop', hid', houtside, -⟩ :=
            (hspeaks token htoken).outside range components hud
          cases hid.symm.trans hid'
          have hrepresentative := (hspeaks token htoken).mem
          rw [hud] at hrepresentative
          exact ⟨token.representative, hrepresentative, houtside⟩
        · intro t token ht
          obtain ⟨hlt, rfl⟩ := List.getElem?_eq_some_iff.mp ht
          exact (htoken t hlt (hlen ▸ hlt)).2

theorem walk_spec (h : UdTokens.walk T sentence = .ok tokens) : tokens.Walked := by
  obtain ⟨-, hindexed, hlookups, hheads⟩ := walk_cases h
  refine ⟨?_, ?_, ?_, ?_⟩
  · intro w hw
    rw [tokens.words_eq, ← placedFrom_words 0] at hw
    obtain ⟨x, hx, rfl⟩ := mem_map.mp hw
    obtain ⟨id, -, hid⟩ := hindexed.entry hx
    exact ⟨id, hid⟩
  · rw [tokens.words_eq]
    exact hlookups.nodup
  · rw [tokens.words_eq]
    exact hlookups.closed
  · intro token htoken
    obtain ⟨t, ht⟩ := mem_iff_getElem?.mp htoken
    exact ne_nil_of_mem (hheads t token ht).mem

theorem exists_walk (hrows : Rows T sentence uds)
    (hlookups : Lookups uds) : ∃ tokens, UdTokens.walk T sentence = .ok tokens := by
  obtain ⟨walked, byId, hwalk, huds⟩ := exists_walkRows hrows indexed_start hlookups
  obtain ⟨more, heq, -, hindexed, hspeaks⟩ := walkRows_ok indexed_start hwalk
  rw [nil_append] at heq
  subst heq
  rw [map_nil, nil_append] at huds
  rw [huds] at hindexed
  have hresolve : ∀ token ∈ walked, ∃ resolved, token.resolve byId = .ok resolved := by
    intro token htoken
    unfold UnresolvedToken.resolve
    cases hhead : token.representative.head with
    | root => exact ⟨_, rfl⟩
    | word head =>
      have hmem : token.representative ∈ uds.flatMap AlignedUd.words :=
        mem_flatMap.mpr ⟨token.ud, huds ▸ mem_map_of_mem htoken, (hspeaks token htoken).mem⟩
      obtain ⟨u, hu, hid⟩ := hlookups.closed _ hmem head hhead
      rw [← placedFrom_words 0] at hu
      obtain ⟨x, hx, rfl⟩ := mem_map.mp hu
      simp only [hindexed.get_eq_some_iff.mpr ⟨hx, hid⟩]
      exact ⟨_, rfl⟩
  obtain ⟨resolved, hresolved⟩ := exists_mapM hresolve
  refine ⟨⟨resolved, byId⟩, ?_⟩
  rw [UdTokens.walk, hwalk]
  simp only [(headOutside_eq_none hindexed).mpr hlookups.closed, hresolved]

theorem locate_eq_some_iff (h : Indexed (placedFrom 0 (tokens.tokens.map WalkedToken.ud)) tokens.byId)
    (hlookups : Lookups (tokens.tokens.map WalkedToken.ud)) {id : UdWordId} {t k : Nat} :
    tokens.locate id = some (t, k) ↔ ∃ token w, tokens.tokens[t]? = some token ∧
      token.ud.words[k]? = some w ∧ w.id = .single id.get := by
  have hplaced : ∀ {t token w}, tokens.tokens[t]? = some token → w ∈ token.ud.words →
      (t, w) ∈ placedFrom 0 (tokens.tokens.map WalkedToken.ud) :=
    fun ht hw => mem_placedFrom.mpr ⟨_, by rw [getElem?_map, ht]; rfl, hw⟩
  constructor
  · intro hlocate
    unfold UdTokens.locate at hlocate
    split at hlocate
    · cases hlocate
    · split at hlocate
      · cases hlocate
      · next token htoken =>
        obtain ⟨k', hfind, heq⟩ := Option.map_eq_some_iff.mp hlocate
        cases heq
        obtain ⟨hlt, hid, -⟩ := findIdx?_eq_some_iff_getElem.mp hfind
        exact ⟨token, _, htoken, getElem?_eq_getElem hlt, by simpa using hid⟩
  · rintro ⟨token, w, ht, hk, hid⟩
    have hget := h.get_eq_some_iff.mpr ⟨hplaced ht (mem_of_getElem? hk), hid⟩
    have hnodup : (token.ud.words.map UdWord.id).Nodup := by
      have hall := hlookups.nodup
      rw [map_flatMap, nodup_flatMap] at hall
      exact hall.1 _ (mem_map_of_mem (mem_of_getElem? ht))
    obtain ⟨hlt, rfl⟩ := List.getElem?_eq_some_iff.mp hk
    have hfind : token.ud.words.findIdx? (fun word => word.id == .single id.get) = some k := by
      refine findIdx?_eq_some_iff_getElem.mpr ⟨hlt, by simpa using hid, fun j hj hsame => ?_⟩
      rw [beq_iff_eq] at hsame
      exact pairwise_iff_getElem.mp hnodup j k (by simpa using hj.trans hlt) (by simpa using hlt) hj
        (by simp [hsame, hid])
    simp [UdTokens.locate, hget, ht, hfind]

theorem walk_resolved (h : UdTokens.walk T sentence = .ok tokens) : tokens.Resolved T sentence := by
  obtain ⟨hrows, hindexed, hlookups, hheads⟩ := walk_cases h
  have hids : (tokens.tokens.map WalkedToken.representativeId).Nodup := by
    refine nodup_iff_getElem?_ne_getElem?.mpr (fun t t' hlt hlen heq => ?_)
    rw [length_map] at hlen
    rw [getElem?_map, getElem?_map, getElem?_eq_getElem hlen,
      getElem?_eq_getElem (hlt.trans hlen), Option.map_some, Option.map_some,
      Option.some.injEq] at heq
    have hfound : ∀ t (ht : t < tokens.tokens.length), tokens.byId.get
        tokens.tokens[t].representativeId = some (t, tokens.tokens[t].representative) := by
      intro t ht
      obtain ⟨hmem, hid, -, -⟩ := hheads t _ (getElem?_eq_getElem ht)
      exact hindexed.get_eq_some_iff.mpr
        ⟨mem_placedFrom.mpr ⟨tokens.tokens[t].ud, by simp [ht], hmem⟩, hid⟩
    have hsame := hfound t (hlt.trans hlen)
    rw [heq, hfound t' hlen, Option.some.injEq, Prod.mk.injEq] at hsame
    exact hlt.ne' hsame.1
  refine ⟨hrows, ?_, ?_, ?_, fun _ _ _ => locate_eq_some_iff hindexed hlookups, hheads, ?_⟩
  · rw [tokens.words_eq]
    exact hrows.kept
  · intro token htoken w hw
    exact hrows.standAlone (hw ▸ mem_map_of_mem htoken)
  · rw [tokens.words_eq]
    exact hlookups.nodup
  · have hperm := dependents_perm hids (tokens.byId.map (fun e => e.2.2))
    rw [flatMap_map] at hperm
    refine hperm.trans ?_
    have hwords : (tokens.byId.map (fun e => e.2.2)).Perm tokens.words := by
      have hall := hindexed.perm.map Prod.snd
      rwa [map_map, placedFrom_words, ← tokens.words_eq] at hall
    simpa [Function.comp_def] using hwords.filter _

/-- The sentences a walk accepts, and how its lookups resolve. -/
theorem walk_exact (T : TextTables) (sentence : List (UdWord A)) :
    ((∃ tokens, UdTokens.walk T sentence = .ok tokens) ↔ ∃ uds, Rows T sentence uds ∧ Lookups uds) ∧
    ∀ tokens, UdTokens.walk T sentence = .ok tokens → tokens.Resolved T sentence := by
  refine ⟨⟨?_, ?_⟩, fun tokens h => walk_resolved h⟩
  · rintro ⟨tokens, h⟩
    obtain ⟨hrows, -, hlookups, -⟩ := walk_cases h
    exact ⟨_, hrows, hlookups⟩
  · rintro ⟨uds, hrows, hlookups⟩
    exact exists_walk hrows hlookups

end Accepted

def goStop : List (UdWord Unit) :=
  [⟨.range 1 2, "go.", "", .value .x, .root, "", ()⟩,
    ⟨.single 1, "go", "go", .value .verb, .root, "root", ()⟩,
    ⟨.single 2, ".", ".", .value .punct, .word ⟨1, by decide⟩, "punct", ()⟩]

/-- A full stop that is the second component of a range belongs to its token. -/
theorem terminator_component_walked :
    (UdTokens.walk ⟨fun text => text == ".", id, id⟩ goStop).toOption.map (fun tokens =>
      tokens.words.map (isTerminatorPunct ⟨fun text => text == ".", id, id⟩)) =
        some [false, true] := by
  simp [UdTokens.walk, goStop, walkRows, walkComponents, record, UdWordId.ofRow, WordTable.get,
    WordTable.insert, headOutside, UdHead.word?, UnresolvedToken.resolve, pure, Except.pure, bind,
    Except.bind, Except.toOption, UdTokens.words, AlignedUd.words, isTerminatorPunct]

end Batchalign.Morphosyntax
