import Batchalign.Utr.GlobalPlan

/- Word anchors: the transcript words the recognizer was heard to say (`fa/utr/anchors.rs`). An anchor
   is read off an admitted match whose token is exactly the word (`mem_anchorsOfUtterance`). -/
namespace Batchalign.Utr
open Fa

structure WordAnchor where
  word : ℕ
  startMs : ℕ
  endMs : ℕ

def UtrLexicalRelation.isEqual : UtrLexicalRelation → Bool
  | .exact => true
  | .caseInsensitive => true
  | .terminalPunctuation => true
  | .fuzzy _ => false

/-- The admitted units are the word's, one for one, and those of one
token. -/
def WordAnchor.ofWord : List AdmittedUtrWordMatch → Option WordAnchor
  | [] => none
  | first :: rest =>
    let ofWord := first.matched.word.ofWord
    let exactlyTheToken := (first :: rest).length == ofWord.parts && first.tokenUnits == ofWord.parts &&
      (first :: rest).zipIdx.all fun (unit, part) =>
        unit.matched.relation.isEqual && unit.matched.word.ofWord.part == part &&
          unit.token == first.token && unit.matched.token.unitIndex == part
    if exactlyTheToken then some ⟨ofWord.wordIndex, first.timing.startMs, first.timing.endMs⟩ else none

/-- `WordAnchor::of_utterance`, in word order. -/
def anchorsOfUtterance (admitted : List AdmittedUtrWordMatch) : List WordAnchor :=
  (((admitted.map fun m => m.matched.word.ofWord.wordIndex).dedup).insertionSort (· ≤ ·)).filterMap fun word =>
    WordAnchor.ofWord (admitted.filter fun m => m.matched.word.ofWord.wordIndex == word)

inductive AnchorDisorder where
  | inverted (word startMs endMs : ℕ)
  | beyondWords (word alignableWords : ℕ)
  | wordOrder (earlier later : ℕ)
  | timeOrder (earlier earlierEnd later laterStart : ℕ)

def misplacedAnchor (alignableWords : ℕ) : List WordAnchor → Option AnchorDisorder
  | [] => none
  | anchor :: anchors =>
    if anchor.endMs < anchor.startMs then some (.inverted anchor.word anchor.startMs anchor.endMs)
    else if alignableWords ≤ anchor.word then some (.beyondWords anchor.word alignableWords)
    else misplacedAnchor alignableWords anchors

def disorderedAnchors : List WordAnchor → Option AnchorDisorder
  | earlier :: later :: anchors =>
    if later.word ≤ earlier.word then some (.wordOrder earlier.word later.word)
    else if later.startMs < earlier.endMs then
      some (.timeOrder earlier.word earlier.endMs later.word later.startMs)
    else disorderedAnchors (later :: anchors)
  | _ => none

inductive UtteranceAnchorState where
  | noReliableMatch
  | refused (disorder : AnchorDisorder)
  | anchored (anchors : List WordAnchor) (alignableWords : ℕ)

/-- `UtteranceAnchors::admit`, of the anchors read off an utterance. -/
def anchorState (alignableWords : ℕ) (anchors : List WordAnchor) : UtteranceAnchorState :=
  if anchors.isEmpty then .noReliableMatch
  else match (misplacedAnchor alignableWords anchors).or (disorderedAnchors anchors) with
    | some disorder => .refused disorder
    | none => .anchored anchors alignableWords

def UtrUtteranceAlignmentEvidence.anchorEntry : UtrUtteranceAlignmentEvidence → Option (ℕ × UtteranceAnchorState)
  | .matched i words _ admittedMatches _ =>
    some (i, anchorState words (anchorsOfUtterance admittedMatches.matchesOf.toList))
  | .interiorOnly i words _ admittedMatches _ =>
    some (i, anchorState words (anchorsOfUtterance admittedMatches.toList))
  | .selectedOnly i _ _ _ => some (i, .noReliableMatch)
  | .refused i _ _ _ => some (i, .noReliableMatch)
  | .uninspected i _ _ => some (i, .noReliableMatch)
  | .retainedUnsearched _ _ _ _ => none
  | .unmatched _ _ => none
  | .excludedMarkedOverlap _ _ => none
  | .noAlignableWords _ => none

structure AnchorIndex where
  /-- The matched utterances, or none if no stream was ever matched. -/
  observed : Option (List (ℕ × UtteranceAnchorState))
  searchEnvelopes : List (ℕ × FaSearchEnvelope)

def AnchorIndex.notObserved : AnchorIndex := ⟨none, []⟩

def AnchorIndex.fromPlan (plan : UtrAlignmentPlan) : AnchorIndex where
  observed := some (plan.utterances.filterMap UtrUtteranceAlignmentEvidence.anchorEntry)
  searchEnvelopes := plan.searchEnvelopes.zipIdx.filterMap fun (envelope, index) =>
    envelope.map fun envelope => (index, envelope)

end Batchalign.Utr
