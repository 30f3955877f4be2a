import Batchalign.Lib.Recorded
import Batchalign.Fa.Grouping

/- Partition of a request against the resources it meets (`fa/resource_partition.rs`,
   `fa/resource_partition/context.rs`). A probe, any state machine, answers a request with a prepared
   artifact or a limit. A limited request is cut at recovered anchors; the context passes move cuts back
   or borrow context, and the last piece may take silence after it. -/
namespace Batchalign.Fa
open Recorded List

variable (R : Recording) {S P E : Type}

structure NonEmptyWords where
  words : List FaWord
  nonempty : words ≠ []

namespace NonEmptyWords

def firstWord (w : NonEmptyWords) : ℕ := (w.words.head w.nonempty).utteranceWordIndex

def lastWord (w : NonEmptyWords) : ℕ := (w.words.getLast w.nonempty).utteranceWordIndex

def fromVec (words : List FaWord) : Option NonEmptyWords :=
  if h : words ≠ [] then some ⟨words, h⟩ else none

/-- Split after `word`, unless a side would be empty. -/
def splitAfter (w : NonEmptyWords) (word : ℕ) : Option (NonEmptyWords × NonEmptyWords) :=
  let cut := (w.words.findIdx? fun candidate => word < candidate.utteranceWordIndex).getD w.words.length
  match fromVec (w.words.take cut), fromVec (w.words.drop cut) with
  | some head, some tail => some (head, tail)
  | _, _ => none

end NonEmptyWords

structure ResourceRequest where
  utterance : ℕ
  words : NonEmptyWords
  window : FaWindow R

structure SourceCut where
  word : ℕ
  atMs : ℕ

variable {R}

namespace ResourceRequest

/-- Words and audio selected together; `none` is `InvalidResourceCut`. -/
def selection (request : ResourceRequest R) (first last startMs endMs : ℕ) : Option (ResourceRequest R) :=
  if first < request.words.firstWord ∨ last > request.words.lastWord ∨ first > last ∨
      startMs < request.window.startMs ∨ endMs > request.window.endMs then none
  else
    match FaWindow.within R startMs endMs with
    | .error _ => none
    | .ok window =>
      match NonEmptyWords.fromVec (request.words.words.filter fun word =>
          first ≤ word.utteranceWordIndex ∧ word.utteranceWordIndex ≤ last) with
      | none => none
      | some words => some ⟨request.utterance, words, window⟩

def split (request : ResourceRequest R) (cut : SourceCut) : Option (ResourceRequest R × ResourceRequest R) :=
  match request.window.splitAt cut.atMs, request.words.splitAfter cut.word with
  | some (beforeWindow, afterWindow), some (beforeWords, afterWords) =>
    some (⟨request.utterance, beforeWords, beforeWindow⟩, ⟨request.utterance, afterWords, afterWindow⟩)
  | _, _ => none

end ResourceRequest

section Pieces
variable (R)

/-- A piece: the words and window shown to the model, and the words and audio it owns. -/
structure AnchoredPiece where
  words : NonEmptyWords
  ownedStart : ℕ
  ownedStop : ℕ
  ownershipWindow : FaWindow R
  window : FaWindow R

structure ResourceContext where
  request : ResourceRequest R
  ownedStart : ℕ
  ownedStop : ℕ
  ownershipWindow : FaWindow R

end Pieces

namespace AnchoredPiece

def new (words : NonEmptyWords) (window : FaWindow R) : AnchoredPiece R :=
  ⟨words, 0, words.words.length, window, window⟩

def fromResourceContext (context : ResourceContext R) : AnchoredPiece R :=
  ⟨context.request.words, context.ownedStart, context.ownedStop, context.ownershipWindow,
    context.request.window⟩

def ownedWords (piece : AnchoredPiece R) : List FaWord :=
  (piece.words.words.drop piece.ownedStart).take (piece.ownedStop - piece.ownedStart)

def firstWord (piece : AnchoredPiece R) : ℕ := piece.words.firstWord + piece.ownedStart

def lastWord (piece : AnchoredPiece R) : ℕ := piece.words.firstWord + piece.ownedStop - 1

/-- Both windows lengthened into half of the silence before `following`. -/
def trailingProposal (piece : AnchoredPiece R) (following : ℕ) : Option (AnchoredPiece R) :=
  let extension := min ((following - piece.window.endMs) / 2) trailingGapExtensionMs
  if extension = 0 then none
  else some { piece with
    window := piece.window.extendBy extension
    ownershipWindow := piece.ownershipWindow.extendBy extension }

end AnchoredPiece

def ResourceContext.admitOwned (request : ResourceRequest R) (first last : ℕ) (ownershipWindow : FaWindow R) :
    Option (ResourceContext R) :=
  if request.window.startMs > ownershipWindow.startMs ∨ request.window.endMs < ownershipWindow.endMs then none
  else
    match request.words.words.findIdx? (fun word => word.utteranceWordIndex == first),
        request.words.words.findIdx? (fun word => word.utteranceWordIndex == last) with
    | some start, some stop => if start > stop then none else some ⟨request, start, stop + 1, ownershipWindow⟩
    | _, _ => none

/-! ## The probe -/

inductive FaPreparationRefusal where
  | modelConstraint
  | insufficientInput
  | projectionUnavailable
  deriving DecidableEq

inductive FaResourceConstraint where
  | emptyDecodedAudio
  | model (cause : FaPreparationRefusal)
  | hostMemory
  deriving DecidableEq

inductive ResourceProbeOutcome (P : Type) where
  | prepared (artifact : P)
  | limited (constraint : FaResourceConstraint)

/-- A probe with state `S`, artifacts `P` and errors `E`. -/
structure ResourceProbe (R : Recording) (S P E : Type) where
  prepare : S → List FaWord → FaWindow R → Except E (ResourceProbeOutcome P) × S

structure Exchange (R : Recording) (P : Type) where
  words : List FaWord
  window : FaWindow R
  prepared : P

/-- `outOfRounds` is not of the source: it marks a loop that has used its rounds, which none does. -/
inductive ResourcePlanError (E : Type) where
  | probe (error : E)
  | invalidCut
  | outOfRounds

abbrev Plan (R : Recording) (S P E α : Type) := Session S (Exchange R P) (ResourcePlanError E) α

def askProbe (probe : ResourceProbe R S P E) (words : List FaWord) (window : FaWindow R) :
    Plan R S P E (ResourceProbeOutcome P) := fun st =>
  match probe.prepare st.state words window with
  | (.error e, _) => .error (.probe e)
  | (.ok (.prepared artifact), s) =>
    .ok (.prepared artifact, ⟨s, st.record ++ [⟨words, window, artifact⟩]⟩)
  | (.ok (.limited constraint), s) => .ok (.limited constraint, ⟨s, st.record⟩)

/-- `map_err(InvalidCut)?`. -/
def orInvalidCut {α : Type} : Option α → Plan R S P E α
  | some a => pure a
  | none => fun _ => .error .invalidCut

structure PreparedPiece (R : Recording) (P : Type) where
  source : AnchoredPiece R
  prepared : P

structure LimitedRequest (R : Recording) where
  request : ResourceRequest R
  constraint : FaResourceConstraint

inductive Admission (R : Recording) (P : Type) where
  | prepared (piece : PreparedPiece R P)
  | limited (limited : LimitedRequest R)

inductive PreparedResourcePart (R : Recording) (P : Type) where
  | request (piece : PreparedPiece R P)
  | unavailable (limited : LimitedRequest R)

def ResourceRequest.prepare (probe : ResourceProbe R S P E) (request : ResourceRequest R) :
    Plan R S P E (Admission R P) := do
  match ← askProbe probe request.words.words request.window with
  | .prepared artifact => pure (.prepared ⟨.new request.words request.window, artifact⟩)
  | .limited constraint => pure (.limited ⟨request, constraint⟩)

def ResourceContext.prepare (probe : ResourceProbe R S P E) (context : ResourceContext R) :
    Plan R S P E (Option (PreparedPiece R P)) := do
  match ← askProbe probe context.request.words.words context.request.window with
  | .prepared artifact => pure (some ⟨.fromResourceContext context, artifact⟩)
  | .limited _ => pure none

/-! ## Cuts -/

structure WordAnchor where
  word : ℕ
  startMs : ℕ
  endMs : ℕ

structure UtteranceAnchors where
  anchors : List WordAnchor
  alignableWords : ℕ
  words_increase : anchors.Pairwise fun a b => a.word < b.word
  ends_ordered : anchors.Pairwise fun a b => a.endMs ≤ b.endMs

def WordAnchor.Before (a b : WordAnchor) : Prop := a.word < b.word ∧ a.endMs ≤ b.startMs

instance : DecidableRel WordAnchor.Before := fun _ _ => inferInstanceAs (Decidable (_ ∧ _))

section
variable {anchors : List WordAnchor} (h : anchors.IsChain WordAnchor.Before)
include h

theorem words_increase_of_chain : anchors.Pairwise fun a b => a.word < b.word := by
  have hword : (anchors.map WordAnchor.word).IsChain (· < ·) := by
    rw [isChain_map]
    exact h.imp fun _ _ h => h.1
  exact pairwise_map.mp (isChain_iff_pairwise.mp hword)

theorem ends_ordered_of_chain (hspan : ∀ a ∈ anchors, a.startMs ≤ a.endMs) :
    anchors.Pairwise fun a b => a.endMs ≤ b.endMs := by
  have hends : (anchors.map WordAnchor.endMs).IsChain (· ≤ ·) := by
    rw [isChain_map]
    induction h with
    | nil => exact .nil
    | singleton a => exact .singleton a
    | cons_cons hab _ ih =>
      exact .cons_cons (hab.2.trans (hspan _ (by simp))) (ih fun c hc => hspan c (mem_cons_of_mem _ hc))
  exact pairwise_map.mp (isChain_iff_pairwise.mp hends)

end

/-- `UtteranceAnchors::admit`; a refusal is `none`. -/
def UtteranceAnchors.admit (alignableWords : ℕ) (anchors : List WordAnchor) : Option UtteranceAnchors :=
  if h : (∀ a ∈ anchors, a.startMs ≤ a.endMs ∧ a.word < alignableWords) ∧
      anchors.IsChain WordAnchor.Before then
    some ⟨anchors, alignableWords, words_increase_of_chain h.2,
      ends_ordered_of_chain h.2 fun a ha => (h.1 a ha).1⟩
  else none

inductive AnchorLookup where
  | notRecovered
  | noReliableMatch
  | refused
  | anchored (anchors : UtteranceAnchors)

def pushCut (cuts : List SourceCut) (cut : SourceCut) : List SourceCut :=
  match cuts.getLast? with
  | some previous => if previous.atMs = cut.atMs then cuts.dropLast ++ [cut] else cuts ++ [cut]
  | none => cuts ++ [cut]

/-- `SourceCuts::from_source`. -/
def sourceCuts (request : ResourceRequest R) : AnchorLookup → List SourceCut
  | .anchored anchors =>
    if anchors.alignableWords ≠ request.words.words.length then []
    else
      (anchors.anchors.filter fun anchor =>
        !(request.words.lastWord ≤ anchor.word || anchor.endMs ≤ request.window.startMs ||
          request.window.endMs ≤ anchor.endMs)).foldl (fun cuts anchor => pushCut cuts ⟨anchor.word, anchor.endMs⟩) []
  | _ => []

def cutsInside (cuts : List SourceCut) (request : ResourceRequest R) : List SourceCut :=
  cuts.filter fun cut => request.words.firstWord ≤ cut.word ∧ cut.word < request.words.lastWord ∧
    request.window.startMs < cut.atMs ∧ cut.atMs < request.window.endMs

/-! ## The partition -/

structure Step (R : Recording) (P : Type) where
  part : PreparedResourcePart R P
  remaining : Option (ResourceRequest R)

/-- The prefixes at the remaining cuts, longest first, each shown to the probe. -/
def probePrefixes (probe : ResourceProbe R S P E) (request : ResourceRequest R) :
    List SourceCut → LimitedRequest R → ResourceRequest R → Plan R S P E (Step R P)
  | [], refused, after => pure ⟨.unavailable refused, some after⟩
  | cut :: cuts, _, _ => do
    let (head, remainder) ← orInvalidCut (request.split cut)
    match ← head.prepare probe with
    | .prepared piece => pure ⟨.request piece, some remainder⟩
    | .limited limited => probePrefixes probe request cuts limited remainder

def step (probe : ResourceProbe R S P E) (cuts : List SourceCut) (request : ResourceRequest R) :
    Plan R S P E (Step R P) := do
  match ← request.prepare probe with
  | .prepared piece => pure ⟨.request piece, none⟩
  | .limited limited =>
    match limited.constraint with
    -- smaller requests would not help these
    | .emptyDecodedAudio | .model .insufficientInput | .model .projectionUnavailable =>
      pure ⟨.unavailable limited, none⟩
    | .model .modelConstraint | .hostMemory =>
      match (cutsInside cuts limited.request).reverse with
      | [] => pure ⟨.unavailable limited, none⟩
      | last :: before => do
        let (head, after) ← orInvalidCut (limited.request.split last)
        match ← head.prepare probe with
        | .prepared piece => pure ⟨.request piece, some after⟩
        | .limited refused => probePrefixes probe limited.request before refused after

/-- The loop of `plan_core`: a part for each round until nothing remains. -/
def planRounds (probe : ResourceProbe R S P E) (cuts : List SourceCut) :
    ℕ → ResourceRequest R → Plan R S P E (List (PreparedResourcePart R P))
  | 0, _ => fun _ => .error .outOfRounds
  | rounds + 1, request => do
    let next ← step probe cuts request
    match next.remaining with
    | none => pure [next.part]
    | some more => do
      let rest ← planRounds probe cuts rounds more
      pure (next.part :: rest)

/-! ## Context -/

structure Edge where
  word : ℕ
  atMs : ℕ
  deriving DecidableEq

structure Ownership (R : Recording) where
  first : ℕ
  last : ℕ
  window : FaWindow R

def Ownership.ofPiece (piece : AnchoredPiece R) : Ownership R :=
  ⟨piece.firstWord, piece.lastWord, piece.ownershipWindow⟩

def Ownership.ofUnavailable (limited : LimitedRequest R) : Ownership R :=
  ⟨limited.request.words.firstWord, limited.request.words.lastWord, limited.request.window⟩

def PreparedResourcePart.ownership : PreparedResourcePart R P → Ownership R
  | .request piece => .ofPiece piece.source
  | .unavailable limited => .ofUnavailable limited

/-- Where `before`'s last word may go to `after`: an anchor of it that ends with `before`. -/
def tailRecovery (before : LimitedRequest R) (after : AnchoredPiece R) (original : ResourceRequest R)
    (anchors : UtteranceAnchors) : Option (Option (ResourceRequest R × ResourceRequest R)) :=
  if before.request.window.endMs ≠ after.ownershipWindow.startMs ∨
      before.request.words.lastWord + 1 ≠ after.firstWord then some none
  else
    match before.request.words.words.reverse[1]? with
    | none => some none
    | some previous =>
      match anchors.anchors.find? (fun anchor => anchor.word == before.request.words.lastWord &&
          anchor.endMs == before.request.window.endMs && decide (anchor.startMs < anchor.endMs) &&
          decide (before.request.window.startMs < anchor.startMs)) with
      | none => some none
      | some anchor =>
        match original.selection before.request.words.firstWord previous.utteranceWordIndex
            before.request.window.startMs anchor.startMs,
          original.selection before.request.words.lastWord after.lastWord anchor.startMs
            after.ownershipWindow.endMs with
        | some head, some joined => some (some (head, joined))
        | _, _ => none

/-- The joined tail is tried first, and without it nothing moves. -/
def recover (probe : ResourceProbe R S P E) (original : ResourceRequest R) (anchors : UtteranceAnchors)
    (before : LimitedRequest R) (after : PreparedPiece R P) :
    Plan R S P E (PreparedResourcePart R P × PreparedPiece R P) := do
  match ← orInvalidCut (tailRecovery before after.source original anchors) with
  | none => pure (.unavailable before, after)
  | some (head, joined) =>
    match ← joined.prepare probe with
    | .limited _ => pure (.unavailable before, after)
    | .prepared joined =>
      match ← head.prepare probe with
      | .prepared head => pure (.request head, joined)
      | .limited limited => pure (.unavailable limited, joined)

/-- The first loop of `context::prepare`: each prepared part with the part before it. -/
def recoverTails (probe : ResourceProbe R S P E) (original : ResourceRequest R) (anchors : UtteranceAnchors) :
    PreparedResourcePart R P → List (PreparedResourcePart R P) → Plan R S P E (List (PreparedResourcePart R P))
  | previous, [] => pure [previous]
  | .unavailable before, .request after :: rest => do
    let (head, joined) ← recover probe original anchors before after
    let later ← recoverTails probe original anchors (.request joined) rest
    pure (head :: later)
  | previous, next :: rest => do
    let later ← recoverTails probe original anchors next rest
    pure (previous :: later)

/-- `dedup_by_key` over the whole edge. -/
def dedupEdges : List Edge → List Edge
  | a :: b :: rest => if a = b then dedupEdges (b :: rest) else a :: dedupEdges (b :: rest)
  | edges => edges

def sortEdges (edges : List Edge) : List Edge :=
  dedupEdges (edges.insertionSort fun a b => a.atMs < b.atMs ∨ (a.atMs = b.atMs ∧ a.word ≤ b.word))

structure HeapEntry where
  length : ℕ
  start : ℕ
  stop : ℕ
  deriving DecidableEq

def HeapEntry.before (a b : HeapEntry) : Bool :=
  b.length < a.length || (b.length == a.length && (a.start < b.start || (a.start == b.start && b.stop < a.stop)))

def heapTop : List HeapEntry → Option HeapEntry
  | [] => none
  | entry :: rest =>
    match heapTop rest with
    | none => some entry
    | some top => if top.before entry then some top else some entry

theorem heapTop_mem {heap : List HeapEntry} {top : HeapEntry} (h : heapTop heap = some top) : top ∈ heap := by
  induction heap generalizing top with
  | nil => cases h
  | cons entry rest ih =>
    unfold heapTop at h
    split at h
    · cases h
      exact List.mem_cons_self ..
    · next found hfound =>
      split at h
      · cases h
        exact List.mem_cons_of_mem _ (ih hfound)
      · cases h
        exact List.mem_cons_self ..

def heapSize (heap : List HeapEntry) : ℕ := (heap.map fun entry => entry.stop + 1).sum

theorem heapSize_erase {heap : List HeapEntry} {top : HeapEntry} (h : top ∈ heap) :
    heapSize (heap.erase top) + (top.stop + 1) = heapSize heap := by
  rw [add_comm]
  exact List.sum_map_erase (fun entry : HeapEntry => entry.stop + 1) h

/-- `ContextProposals::next`, run to its end: an entry puts back the next shorter proposal. -/
def drainProposals (starts ends : List Edge) (heap : List HeapEntry) : List (Edge × Edge) :=
  match h : heapTop heap with
  | none => []
  | some top =>
    let rest := heap.erase top
    let later :=
      if top.stop = 0 then drainProposals starts ends rest
      else drainProposals starts ends (⟨(ends[top.stop - 1]?.map Edge.atMs).getD 0 -
        (starts[top.start]?.map Edge.atMs).getD 0, top.start, top.stop - 1⟩ :: rest)
    match starts[top.start]?, ends[top.stop]? with
    | some start, some stop => (start, stop) :: later
    | _, _ => later
termination_by heapSize heap
decreasing_by
  · have herase := heapSize_erase (heapTop_mem h)
    omega
  · have herase := heapSize_erase (heapTop_mem h)
    simp only [heapSize, List.map_cons, List.sum_cons] at *
    omega

def contextStarts (first last : Edge) (owned : Ownership R) (anchors : UtteranceAnchors) : List Edge :=
  sortEdges ([first, ⟨owned.first, owned.window.startMs⟩] ++ anchors.anchors.filterMap fun anchor =>
    if anchor.word < first.word ∨ anchor.word > last.word ∨ anchor.startMs ≥ anchor.endMs ∨
        anchor.startMs < first.atMs ∨ anchor.endMs > last.atMs then none
    else if anchor.word ≤ owned.first ∧ anchor.startMs ≤ owned.window.startMs then
      some ⟨anchor.word, anchor.startMs⟩
    else none)

def contextEnds (first last : Edge) (owned : Ownership R) (anchors : UtteranceAnchors) : List Edge :=
  sortEdges ([last, ⟨owned.last, owned.window.endMs⟩] ++ anchors.anchors.filterMap fun anchor =>
    if anchor.word < first.word ∨ anchor.word > last.word ∨ anchor.startMs ≥ anchor.endMs ∨
        anchor.startMs < first.atMs ∨ anchor.endMs > last.atMs then none
    else if anchor.word ≥ owned.last ∧ anchor.endMs ≥ owned.window.endMs then some ⟨anchor.word, anchor.endMs⟩
    else none)

/-- Largest geometric proposals first, one heap entry for each start. -/
def contextProposals (first last : Edge) (owned : Ownership R) (anchors : UtteranceAnchors) :
    List (Edge × Edge) :=
  let starts := contextStarts first last owned anchors
  let ends := contextEnds first last owned anchors
  let finalEnd := ends.length - 1
  drainProposals starts ends (starts.mapIdx fun index start =>
    ⟨(ends[finalEnd]?.map Edge.atMs).getD 0 - start.atMs, index, finalEnd⟩)

def tryProposals (probe : ResourceProbe R S P E) (original : ResourceRequest R) (owned : Ownership R) :
    List (Edge × Edge) → Plan R S P E (Option (PreparedPiece R P))
  | [] => pure none
  | (start, stop) :: rest => do
    let candidate ← orInvalidCut (original.selection start.word stop.word start.atMs stop.atMs)
    let context ← orInvalidCut (ResourceContext.admitOwned candidate owned.first owned.last owned.window)
    match ← context.prepare probe with
    | some piece => pure (some piece)
    | none => tryProposals probe original owned rest

def contextFor (probe : ResourceProbe R S P E) (original : ResourceRequest R) (anchors : UtteranceAnchors)
    (owned : Ownership R) (first last : Edge) : Plan R S P E (Option (PreparedPiece R P)) :=
  tryProposals probe original owned (contextProposals first last owned anchors)

def Ownership.startEdge (owned : Ownership R) : Edge := ⟨owned.first, owned.window.startMs⟩

def Ownership.endEdge (owned : Ownership R) : Edge := ⟨owned.last, owned.window.endMs⟩

def runStart (edge : Edge) : List (PreparedResourcePart R P) → Edge
  | .request piece :: rest => runStart (Ownership.ofPiece piece.source).startEdge rest
  | _ => edge

def runEnd (edge : Edge) : List (PreparedResourcePart R P) → Edge
  | .request piece :: rest => runEnd (Ownership.ofPiece piece.source).endEdge rest
  | _ => edge

/-- Each part below the minimum, with what stands before it, nearest first, and
after. -/
def recoverMinimums (probe : ResourceProbe R S P E) (original : ResourceRequest R) (anchors : UtteranceAnchors) :
    List (PreparedResourcePart R P) → List (PreparedResourcePart R P) →
      Plan R S P E (List (PreparedResourcePart R P))
  | before, [] => pure before.reverse
  | before, .unavailable limited :: after =>
    if limited.constraint = .model .insufficientInput then do
      let owned := Ownership.ofUnavailable limited
      match ← contextFor probe original anchors owned (runStart owned.startEdge before)
          (runEnd owned.endEdge after) with
      | some piece => recoverMinimums probe original anchors (.request piece :: before) after
      | none => recoverMinimums probe original anchors (.unavailable limited :: before) after
    else recoverMinimums probe original anchors (.unavailable limited :: before) after
  | before, .request piece :: after => recoverMinimums probe original anchors (.request piece :: before) after

inductive ContextSegment (R : Recording) (P : Type) where
  | supported (first : PreparedPiece R P) (rest : List (PreparedPiece R P))
  | unavailable (limited : LimitedRequest R)

def contextSegments : List (PreparedResourcePart R P) → List (ContextSegment R P)
  | [] => []
  | .unavailable limited :: parts => .unavailable limited :: contextSegments parts
  | .request piece :: parts =>
    match contextSegments parts with
    | .supported first rest :: segments => .supported piece (first :: rest) :: segments
    | segments => .supported piece [] :: segments

def expandPieces (probe : ResourceProbe R S P E) (original : ResourceRequest R) (anchors : UtteranceAnchors)
    (first last : Edge) : List (PreparedPiece R P) → Plan R S P E (List (PreparedResourcePart R P))
  | [] => pure []
  | piece :: rest => do
    let context ← contextFor probe original anchors (.ofPiece piece.source) first last
    let later ← expandPieces probe original anchors first last rest
    pure (.request (context.getD piece) :: later)

/-- A piece on its own is left as it is. -/
def expandRun (probe : ResourceProbe R S P E) (original : ResourceRequest R) (anchors : UtteranceAnchors)
    (first : PreparedPiece R P) (rest : List (PreparedPiece R P)) :
    Plan R S P E (List (PreparedResourcePart R P)) :=
  match rest.getLast? with
  | none => pure [.request first]
  | some last =>
    expandPieces probe original anchors (Ownership.ofPiece first.source).startEdge
      (Ownership.ofPiece last.source).endEdge (first :: rest)

def expandSegments (probe : ResourceProbe R S P E) (original : ResourceRequest R) (anchors : UtteranceAnchors) :
    List (ContextSegment R P) → Plan R S P E (List (PreparedResourcePart R P))
  | [] => pure []
  | .unavailable limited :: segments => do
    let later ← expandSegments probe original anchors segments
    pure (.unavailable limited :: later)
  | .supported first rest :: segments => do
    let run ← expandRun probe original anchors first rest
    let later ← expandSegments probe original anchors segments
    pure (run ++ later)

/-- `context::prepare`, from the parts of the partition to the parts with context. -/
def prepareContext (probe : ResourceProbe R S P E) (original : ResourceRequest R) (anchors : UtteranceAnchors) :
    List (PreparedResourcePart R P) → Plan R S P E (List (PreparedResourcePart R P))
  | [] => orInvalidCut none
  | first :: rest => do
    let supported ← recoverTails probe original anchors first rest
    let supported ← recoverMinimums probe original anchors [] supported
    let expanded ← expandSegments probe original anchors (contextSegments supported)
    if expanded.isEmpty then orInvalidCut none else pure expanded

def planCore (probe : ResourceProbe R S P E) (request : ResourceRequest R) (lookup : AnchorLookup) :
    Plan R S P E (List (PreparedResourcePart R P)) := do
  let parts ← planRounds probe (sourceCuts request lookup) request.words.words.length request
  match lookup with
  | .anchored anchors =>
    if anchors.alignableWords = request.words.words.length then prepareContext probe request anchors parts
    else pure parts
  | _ => pure parts

/-- `plan_before`: the last request may take silence before `following`, when the probe prepares that.
-/
def planBefore (probe : ResourceProbe R S P E) (request : ResourceRequest R) (lookup : AnchorLookup)
    (following : ℕ) : Plan R S P E (List (PreparedResourcePart R P)) := do
  let parts ← planCore probe request lookup
  match parts.getLast? with
  | some (.request last) =>
    match last.source.trailingProposal following with
    | none => pure parts
    | some proposal =>
      match ← askProbe probe proposal.words.words proposal.window with
      | .prepared artifact => pure (parts.dropLast ++ [.request ⟨proposal, artifact⟩])
      | .limited _ => pure parts
  | _ => pure parts

end Batchalign.Fa
