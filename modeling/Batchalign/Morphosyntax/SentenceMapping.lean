import Batchalign.Lib.DependencyTree
import Batchalign.Morphosyntax.UdTokens

/- A walked sentence mapped (`morphosyntax/sentence_mapping.rs`, `gra_validate.rs`). Tokens become
   `%mor` items whose chunks carry where they came from; each chunk gives a `%gra` relation, the
   terminator's last, and a validator has the final word. The CHAT model's relation labels are
   `RelationTypes`, its words the type `M`; the writing of one word and the two Italian reconcilers are
   `WordMapping`. -/

namespace Batchalign.Morphosyntax

structure GrammaticalRelation (R : Type) where
  index : Nat
  head : Nat
  relation : R
  deriving DecidableEq

structure RelationTypes (R : Type) where
  new : String → Except String R
  asStr : R → String
  root : R
  debug : List (GrammaticalRelation R) → String
  asStr_new : ∀ {text : String} {label : R}, new text = .ok label → asStr label = text
  asStr_root : asStr root = "ROOT"
  new_punct : ∃ label, new "PUNCT" = .ok label

structure Mor (M : Type) where
  main : M
  postClitics : List M

inductive ChunkHead where
  | root
  | fromUd (head : UdWordId)
  | owningMorMain
  deriving DecidableEq

structure ChunkProvenance (R : Type) where
  sourceUdIds : List UdWordId
  head : ChunkHead
  deprel : R

structure MappedItem (M R : Type) where
  mor : Mor M
  provenance : List (ChunkProvenance R)
  chunks : provenance.length = mor.postClitics.length + 1

variable {A M R E : Type}

namespace MappedItem

def word (word : M) (chunk : ChunkProvenance R) : MappedItem M R where
  mor := ⟨word, []⟩
  provenance := [chunk]
  chunks := rfl

def withPostClitic (item : MappedItem M R) (clitic : M) (chunk : ChunkProvenance R) :
    MappedItem M R where
  mor := { item.mor with postClitics := item.mor.postClitics ++ [clitic] }
  provenance := item.provenance ++ [chunk]
  chunks := by simp [item.chunks]

end MappedItem

def ChunkHead.ofWord (word : UdWord A) : ChunkHead :=
  match word.head with
  | .root => .root
  | .word head => .fromUd head

def ChunkProvenance.ofWord (word : UdWord A) (deprel : R) : ChunkProvenance R where
  sourceUdIds := (UdWordId.ofRow word).toList
  head := ChunkHead.ofWord word
  deprel := deprel

inductive TagMarker where
  | vocative
  | tag

namespace TagMarker

def chatText : TagMarker → String
  | vocative => "‡"
  | tag => "„"

def ofText (text : String) : Option TagMarker :=
  if text = "‡" then some vocative else if text = "„" then some tag else none

end TagMarker

/-- What a token is to the `%mor` writer: a marker, or a word. -/
def classify (ud : UdWord A) : Option TagMarker := TagMarker.ofText ud.text

inductive MappingError (E : Type) where
  /-- a feature that is not a flat one, or an empty stem -/
  | word (error : E)
  | circularDependency (details : String)
  | invalidHeadReference (details : String)
  | invalidRoot (details : String)
  | invalidDeprel (details : String)
  | sentence (error : UdSentenceError)
  | emptyRangeComponents
  | tagMarkerAsClitic (marker : TagMarker)

def lang2 (code : String) : String :=
  match code with
  | "eng" => "en"
  | "fra" | "fre" => "fr"
  | "jpn" => "ja"
  | "deu" | "ger" => "de"
  | "ita" => "it"
  | "spa" => "es"
  | "por" => "pt"
  | "zho" | "cmn" | "chi" => "zh"
  | "heb" => "he"
  | "ara" => "ar"
  | "nld" | "dut" => "nl"
  | "cat" => "ca"
  | s => s

structure WordMapping (A M R E : Type) where
  text : TextTables
  debugText : String → String
  relations : RelationTypes R
  /-- a word of a category and a stem -/
  morWord : String → String → M
  /-- `map_ud_mor_word`, in a language -/
  mapUdMorWord : String → UdWord A → Except E M
  italianSingleOverride : UdWord A → Except (MappingError E) (Option (MappedItem M R))
  italianRangeOverride : WalkedToken A → Except (MappingError E) (Option (MappedItem M R))

variable (P : WordMapping A M R E) (lang : String)

def TagMarker.mor (marker : TagMarker) : M :=
  P.morWord (if lang2 lang = "ja" then "cm" else "punct") marker.chatText

def isClitic (text : String) : Bool :=
  match lang2 lang with
  | "en" => text == "n't" || text == "'s" || text == "'ve" || text == "'ll"
  | "fr" => text.toList.getLast? == some '\'' || text == "-ce" || text == "-être" || text == "-là"
  | "it" => text.toList.getLast? == some '\''
  | _ => false

/-- A UD relation as a CHAT label: upper case, with `-` for `:`. -/
def normalizeDeprel (raw context : String) : Except (MappingError E) R :=
  let needsTransform := raw.toList.any (fun c => c.isLower || c == ':')
  let relation :=
    if needsTransform then
      String.ofList ((P.text.toUppercase raw).toList.map (fun c => if c = ':' then '-' else c))
    else raw
  match P.relations.new relation with
  | .ok label => .ok label
  | .error error =>
    .error (.invalidDeprel (context ++ ": deprel " ++ P.debugText raw ++ " transforms to " ++
      P.debugText relation ++ ": " ++ error))

def provenanceForUdWord (ud : UdWord A) : Except (MappingError E) (ChunkProvenance R) :=
  (normalizeDeprel P ud.deprel ("word " ++ P.debugText ud.text)).map (ChunkProvenance.ofWord ud)

/-- The `%mor` word of a token: a marker's, or the generic path's. -/
def wordMor (ud : UdWord A) : Except (MappingError E) M :=
  match classify ud with
  | some marker => .ok (marker.mor P lang)
  | none => (P.mapUdMorWord lang ud).mapError .word

def mapUdWordItem (ud : UdWord A) : Except (MappingError E) (MappedItem M R) := do
  let mor ← wordMor P lang ud
  let chunk ← provenanceForUdWord P ud
  return .word mor chunk

def addPostClitic (item : MappedItem M R) (component : UdWord A) :
    Except (MappingError E) (MappedItem M R) :=
  match classify component with
  | some marker => .error (.tagMarkerAsClitic marker)
  | none => do
    let mor ← (P.mapUdMorWord lang component).mapError .word
    let chunk ← provenanceForUdWord P component
    return item.withPostClitic mor chunk

/-- The place of a token's main word: the first that is not a clitic, or the first of all. -/
def mainIndex (components : List (UdWord A)) : Nat :=
  (components.findIdx? (fun component => !isClitic lang component.text)).getD 0

def mainFirst (components : List (UdWord A)) : List (UdWord A) :=
  (components[mainIndex lang components]?).toList ++ components.eraseIdx (mainIndex lang components)

def assembleMors (components : List (UdWord A)) : Except (MappingError E) (MappedItem M R) :=
  match mainFirst lang components with
  | [] => .error .emptyRangeComponents
  | main :: others => do
    let item ← mapUdWordItem P lang main
    others.foldlM (addPostClitic P lang) item

inductive ItemLayout where
  | perToken
  | perWord

def tokenItems (layout : ItemLayout) (token : WalkedToken A) :
    Except (MappingError E) (List (MappedItem M R)) :=
  match layout, token.ud with
  | .perToken, .word word => do
    let override ← if lang2 lang = "it" then P.italianSingleOverride word else pure none
    match override with
    | some item => return [item]
    | none => return [← mapUdWordItem P lang word]
  | .perToken, .mwt _ components => do
    let override ← if lang2 lang = "it" then P.italianRangeOverride token else pure none
    match override with
    | some item => return [item]
    | none => return [← assembleMors P lang components]
  | .perWord, ud => ud.words.mapM (mapUdWordItem P lang)

def collectItems (layout : ItemLayout) : List (WalkedToken A) → List (MappedItem M R) →
      Except (MappingError E) (List (MappedItem M R) × List (Nat × Nat))
  | [], items => .ok (items, [])
  | token :: rest, items => do
    let own ← tokenItems P lang layout token
    let (all, ranges) ← collectItems layout rest (items ++ own)
    return (all, (items.length, items.length + own.length) :: ranges)

/-- The chunk a UD word was written in; a later chunk of the same id replaces an earlier. -/
def chunkOf (provenance : List (List (ChunkProvenance R))) (id : UdWordId) : Option Nat :=
  (((provenance.flatten.zipIdx 1).flatMap (fun e => e.1.sourceUdIds.map (fun id => (id, e.2)))
    ).reverse.find? (fun e => e.1 == id)).map Prod.snd

variable (provenance : List (List (ChunkProvenance R)))

def chunkRelation (mainChunk : Nat) (chunk : ChunkProvenance R × Nat) :
    Except (MappingError E) (GrammaticalRelation R) :=
  match chunk.1.head with
  | .root => .ok ⟨chunk.2, 0, P.relations.root⟩
  | .fromUd head =>
    match chunkOf provenance head with
    | some place => .ok ⟨chunk.2, place, chunk.1.deprel⟩
    | none =>
      .error (.invalidHeadReference ("chunk " ++ toString chunk.2 ++ " (deprel=" ++
        P.relations.asStr chunk.1.deprel ++ ") has UD head " ++ toString head.get ++
        " not mapped to any chunk"))
  | .owningMorMain => .ok ⟨chunk.2, mainChunk, chunk.1.deprel⟩

/-- The relations of the items from one on, whose main chunk is numbered `mainChunk`. -/
def relationsFrom (mainChunk : Nat) :
    List (List (ChunkProvenance R)) → Except (MappingError E) (List (GrammaticalRelation R))
  | [] => .ok []
  | chunks :: rest => do
    let own ← (chunks.zipIdx mainChunk).mapM (chunkRelation P provenance mainChunk)
    let later ← relationsFrom (mainChunk + chunks.length) rest
    return own ++ later

def rootChunk : Option Nat :=
  ((provenance.flatten.zipIdx 1).filter (fun e => e.1.head == .root)).getLast?.map Prod.snd

variable {P}

def isSelfLoopAValidRoot (L : RelationTypes R) (rel : GrammaticalRelation R) : Bool :=
  rel.head == rel.index &&
    (L.asStr rel.relation).toList.map Char.toLower == "ROOT".toList.map Char.toLower

def isRoot (L : RelationTypes R) (rel : GrammaticalRelation R) : Bool :=
  rel.head == 0 || isSelfLoopAValidRoot L rel

def headTable (L : RelationTypes R) (gras : List (GrammaticalRelation R)) : Heads.Table Nat where
  nodes := gras.map GrammaticalRelation.index
  next k :=
    match gras.find? (fun rel => rel.index == k) with
    | some rel => if isRoot L rel then none else some rel.head
    | none => none
  listed := by
    intro k j h
    split at h
    · next rel hfind =>
      have hindex := List.find?_some hfind
      rw [beq_iff_eq] at hindex
      exact List.mem_map.mpr ⟨rel, List.mem_of_find?_eq_some hfind, hindex⟩
    · cases h

def hasAnyCycleGenerated (L : RelationTypes R) (gras : List (GrammaticalRelation R)) : Option Nat :=
  (headTable L gras).firstCycle [] (gras.map GrammaticalRelation.index)

def nonTerminatorRoots (L : RelationTypes R) (gras : List (GrammaticalRelation R)) : List Nat :=
  ((gras.filter (isRoot L)).map GrammaticalRelation.index).filter (fun k => k != gras.length)

def validateGeneratedGra (L : RelationTypes R) (gras : List (GrammaticalRelation R)) :
    Except (MappingError E) Unit :=
  if gras.isEmpty then .ok ()
  else
    match nonTerminatorRoots L gras with
    | [] => .error (.invalidRoot ("no ROOT relation. GRA: " ++ L.debug gras))
    | [_] =>
      match hasAnyCycleGenerated L gras with
      | some word =>
        .error (.circularDependency ("involving word " ++ toString word ++ ". GRA: " ++
          L.debug gras))
      | none =>
        match gras.find? (fun rel => rel.head != 0 && decide (gras.length < rel.head)) with
        | some rel =>
          .error (.invalidHeadReference ("word " ++ toString rel.index ++
            " points to non-existent word " ++ toString rel.head ++ ". GRA: " ++ L.debug gras))
        | none => .ok ()
    | roots =>
      .error (.invalidRoot ("multiple ROOT relations: " ++ toString roots ++ ". GRA: " ++
        L.debug gras))

variable (P)

def withTerminator (gras : List (GrammaticalRelation R)) (root : Nat) :
    Except (MappingError E) (List (GrammaticalRelation R)) := do
  let label ← normalizeDeprel P "PUNCT" "mapped sentence terminator"
  let all := gras ++ [⟨provenance.flatten.length + 1, root, label⟩]
  validateGeneratedGra P.relations all
  return all

def buildGraAndValidate : Except (MappingError E) (List (GrammaticalRelation R)) :=
  match relationsFrom P provenance 1 provenance with
  | .error e => .error e
  | .ok gras =>
    match rootChunk provenance, gras with
    | some root, _ => withTerminator P provenance gras root
    -- an empty sentence has no chunk to root
    | none, [] => withTerminator P provenance gras 0
    | none, _ :: _ =>
      .error (.invalidRoot ("no chunk with ChunkHead::Root in provenance " ++
        "(Stanza returned no root). GRA so far: " ++ P.relations.debug gras))

structure MappedTokens (M R : Type) where
  mors : List (Mor M)
  gras : List (GrammaticalRelation R)
  layout : ItemLayout
  ranges : List (Nat × Nat)

def mapTokens (layout : ItemLayout) (tokens : UdTokens A) :
    Except (MappingError E) (MappedTokens M R) := do
  let (items, ranges) ← collectItems P lang layout tokens.tokens []
  let gras ← buildGraAndValidate P (items.map MappedItem.provenance)
  return ⟨items.map MappedItem.mor, gras, layout, ranges⟩

end Batchalign.Morphosyntax
