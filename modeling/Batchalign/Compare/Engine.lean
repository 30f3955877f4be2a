import Batchalign.DpAlign.Align
import Batchalign.Compare.Metrics

/- One comparison (`compare/engine.rs`): the steps of one alignment make the metrics, the views and the
   word matches. An index that would panic reads a default (`[i]!`), which `align_indices` excludes. -/
namespace Batchalign.Compare
open DpAlign

/-- `Partial` is `partialGold`. -/
inductive GoldCoverage where
  | complete
  | partialGold

inductive WordPlacement where
  | here
  | after
  deriving DecidableEq

inductive Slot where
  | beforeFirst
  | word (position : ℕ) (placement : WordPlacement)
  | terminator

def Slot.le : Slot → Slot → Bool
  | .beforeFirst, _ | _, .terminator => true
  | .word p a, .word q b => p < q || (p == q && (a == .here || b == .after))
  | .word .., .beforeFirst | .terminator, .beforeFirst | .terminator, .word .. => false

abbrev PositionedView := List (List (Slot × CompareToken))

def PositionedView.push (view : PositionedView) (utterance : ℕ) (shown : Slot × CompareToken) :
    PositionedView :=
  view.modify utterance (· ++ [shown])

inductive AlignStep where
  | matched (key : String) (main gold : FlattenedWord)
  | insertion (key : String) (main : FlattenedWord) (site : InsertionSite FlattenedWord)
  | deletion (key : String) (gold : FlattenedWord)

/-- Where an insertion sits when `consumed` is the last gold token seen. -/
def insertionSite (gold : ConformedSide) : Option ℕ → InsertionSite FlattenedWord
  | none => .beforeGold (gold.word 0)
  | some previous =>
    if previous + 1 < gold.tokens.length then
      .betweenGoldWords (gold.word previous) (gold.word (previous + 1))
    else .afterGold (gold.word previous)

def alignSteps (main gold : ConformedSide) : Option ℕ → List AlignResult → List AlignStep
  | _, [] => []
  | _, .matched key payloadIdx referenceIdx :: results =>
    .matched key (main.word payloadIdx) (gold.word referenceIdx) ::
      alignSteps main gold (some referenceIdx) results
  | _, .extraReference key referenceIdx :: results =>
    .deletion key (gold.word referenceIdx) :: alignSteps main gold (some referenceIdx) results
  | consumed, .extraPayload key payloadIdx :: results =>
    .insertion key (main.word payloadIdx) (insertionSite gold consumed) ::
      alignSteps main gold consumed results

structure Run where
  main : ℕ
  matched : ℕ

structure MajorityRun where
  best : Run
  current : Run

def MajorityRun.starting (main : ℕ) : MajorityRun := ⟨⟨main, 1⟩, ⟨main, 1⟩⟩

def MajorityRun.with (run : MajorityRun) (main : ℕ) : MajorityRun :=
  let current := if run.current.main = main then ⟨main, run.current.matched + 1⟩ else ⟨main, 1⟩
  let best := if current.matched > run.best.matched then current else run.best
  ⟨best, current⟩

inductive GoldPlacement where
  | nothingToPlace
  | unplaced
  | placed (run : MajorityRun)
  deriving Inhabited

def GoldPlacement.deleted : GoldPlacement → GoldPlacement
  | .nothingToPlace | .unplaced => .unplaced
  | .placed run => .placed run

def GoldPlacement.matched (placement : GoldPlacement) (main : ℕ) : GoldPlacement :=
  match placement with
  | .nothingToPlace | .unplaced => .placed (MajorityRun.starting main)
  | .placed run => .placed (run.with main)

def placeStep (placements : List GoldPlacement) : AlignStep → List GoldPlacement
  | .matched _ main gold => placements.modify gold.word.utterance (·.matched main.word.utterance)
  | .deletion _ gold => placements.modify gold.word.utterance GoldPlacement.deleted
  | .insertion .. => placements

inductive MainUtteranceEvidence where
  | unmatched
  | matched
  deriving Inhabited

def evidenceStep (evidence : List MainUtteranceEvidence) : AlignStep → List MainUtteranceEvidence
  | .matched _ main _ => evidence.set main.word.utterance .matched
  | .insertion .. | .deletion .. => evidence

inductive InsertionScope where
  | everyMainWord
  | matchedMainUtterances (evidence : List MainUtteranceEvidence)

inductive WordCoverage where
  | scored
  | outsideGold

def InsertionScope.coverage (scope : InsertionScope) (word : FlattenedWord) : WordCoverage :=
  match scope with
  | .everyMainWord => .scored
  | .matchedMainUtterances evidence => match evidence[word.word.utterance]! with
    | .matched => .scored
    | .unmatched => .outsideGold

inductive Alignment where
  | noGoldWords
  | aligned (steps : List AlignStep) (placements : List GoldPlacement) (scope : InsertionScope)

structure WholeFileAlignment where
  main : ConformedSide
  gold : ConformedSide
  coverage : GoldCoverage
  alignment : Alignment

def WholeFileAlignment.of (main gold : ConformedSide) (coverage : GoldCoverage) :
    WholeFileAlignment :=
  if gold.tokens.isEmpty then ⟨main, gold, coverage, .noGoldWords⟩
  else
    let steps := alignSteps main gold none (align main.tokens gold.tokens .caseInsensitive)
    let placements := steps.foldl placeStep (gold.document.utterances.map fun _ => .nothingToPlace)
    let scope := match coverage with
      | .complete => .everyMainWord
      | .partialGold => .matchedMainUtterances
        (steps.foldl evidenceStep (main.document.utterances.map fun _ => .unmatched))
    ⟨main, gold, coverage, .aligned steps placements scope⟩

inductive MainAnchor where
  | nothingShown (waiting : List CompareToken)
  | after (word : FlattenedWord)

def MainAnchor.show (anchor : MainAnchor) (word : FlattenedWord) (token : CompareToken)
    (view : PositionedView) : MainAnchor × PositionedView :=
  let shown := view.push word.word.utterance (.word word.position .here, token)
  match anchor with
  | .nothingShown waiting => (.after word,
      waiting.foldl (fun view token => view.push word.word.utterance (.beforeFirst, token)) shown)
  | .after _ => (.after word, shown)

def MainAnchor.deletion (anchor : MainAnchor) (token : CompareToken) (view : PositionedView) :
    MainAnchor × PositionedView :=
  match anchor with
  | .nothingShown waiting => (.nothingShown (waiting ++ [token]), view)
  | .after word => (.after word, view.push word.word.utterance (.word word.position .after, token))

def goldViewSlot (site : InsertionSite FlattenedWord) : ℕ × Slot :=
  match site with
  | .beforeGold next => (next.word.utterance, .beforeFirst)
  | .afterGold previous => (previous.word.utterance, .word previous.position .after)
  | .betweenGoldWords previous _ => match site.utterances (·.word.utterance) with
    | .within utterance => (utterance, .word previous.position .after)
    | .across _ after => (after, .beforeFirst)

structure GoldWordMatch where
  goldUtteranceIndex : ℕ
  goldWordPosition : ℕ
  mainUtteranceIndex : ℕ
  mainWordPosition : ℕ
  deriving DecidableEq

structure UtteranceComparison where
  utteranceIndex : ℕ
  speaker : String
  tokens : List CompareToken

structure ComparisonBundle where
  mainUtterances : List UtteranceComparison
  goldUtterances : List UtteranceComparison
  goldWordMatches : List GoldWordMatch
  metrics : CompareMetrics

def buildUtteranceComparisons (utterances : List LanguagedUtterance) (view : PositionedView) :
    List UtteranceComparison :=
  utterances.map fun utterance =>
    { utteranceIndex := utterance.utteranceIndex
      speaker := utterance.speaker
      tokens := view[utterance.utteranceIndex]!.map (·.2) }

def sortView (view : PositionedView) : PositionedView :=
  view.map fun tokens => tokens.insertionSort fun a b => a.1.le b.1

/-- What `render` has made of the steps so far. -/
structure Rendering where
  metrics : MetricAccumulator
  mainView : PositionedView
  goldView : PositionedView
  goldWordMatches : List GoldWordMatch
  anchor : MainAnchor

def GoldWordMatch.of (gold main : FlattenedWord) : GoldWordMatch :=
  ⟨gold.word.utterance, gold.position, main.word.utterance, main.position⟩

def recordMatch (seen : List GoldWordMatch) (structural : GoldWordMatch) : List GoldWordMatch :=
  if seen.getLast? = some structural then seen else seen ++ [structural]

section Render
variable {M T : Type} (C : Chatter M T)

def renderStep (goldPos : GoldPos) (scope : InsertionScope) (r : Rendering) : AlignStep → Rendering
  | .matched key main gold =>
    let word := ScoredWord.matched key (goldPos.posForMatch gold.pos main.pos) gold.word
      main.word.language
    let (anchor, mainView) := r.anchor.show main word.token r.mainView
    { metrics := r.metrics.record C word
      mainView
      goldView := r.goldView.push gold.word.utterance (.word gold.position .here, word.token)
      goldWordMatches := recordMatch r.goldWordMatches (GoldWordMatch.of gold main)
      anchor }
  | .insertion key main site => match scope.coverage main with
    | .outsideGold => r
    | .scored =>
      let word := ScoredWord.inserted key main.pos (.inGold (site.map (·.word)))
      let (utterance, slot) := goldViewSlot site
      let (anchor, mainView) := r.anchor.show main word.token r.mainView
      { r with
        metrics := r.metrics.record C word
        mainView
        goldView := r.goldView.push utterance (slot, word.token)
        anchor }
  | .deletion key gold =>
    let word := ScoredWord.deleted key gold.pos gold.word
    let (anchor, mainView) := r.anchor.deletion word.token r.mainView
    { r with
      metrics := r.metrics.record C word
      mainView
      goldView := r.goldView.push gold.word.utterance (.word gold.position .here, word.token)
      anchor }

def placeUtterance (main : List LanguagedUtterance) (placements : List GoldPlacement)
    (m : MetricAccumulator) (utterance : LanguagedUtterance) : MetricAccumulator :=
  match placements[utterance.utteranceIndex]! with
  | .nothingToPlace => m
  | .placed run => m.placedUtterance utterance.language main[run.best.main]!.language
  | .unplaced => m.unplacedUtterance utterance.language

def renderUnaligned (main : ConformedSide) (r : Rendering) : Rendering :=
  main.tokensWithWords.foldl (fun r (key, word) =>
    let scored := ScoredWord.inserted key word.pos .noGoldWords
    { r with
      metrics := r.metrics.record C scored
      mainView := r.mainView.push word.word.utterance (.word word.position .here, scored.token) }) r

def pushTerminators (gold : ComparedDocument) (view : PositionedView) : PositionedView :=
  (gold.utterances.zip gold.terminators).foldl (fun view (utterance, terminator) =>
    match terminator with
    | some terminator =>
      view.push utterance.utteranceIndex (.terminator, ⟨terminator, some "PUNCT", .matched⟩)
    | none => view) view

def WholeFileAlignment.rendering (w : WholeFileAlignment) : Rendering :=
  let start : Rendering := ⟨{}, w.main.document.utterances.map fun _ => [],
    w.gold.document.utterances.map fun _ => [], [], .nothingShown []⟩
  match w.alignment with
  | .noGoldWords => match w.coverage with
    | .partialGold => start
    | .complete => renderUnaligned C w.main start
  | .aligned steps placements scope =>
    let placed := w.gold.document.utterances.foldl
      (placeUtterance w.main.document.utterances placements) start.metrics
    steps.foldl (renderStep C w.gold.document.pos scope) { start with metrics := placed }

def WholeFileAlignment.render (w : WholeFileAlignment) : ComparisonBundle :=
  let r := w.rendering C
  { mainUtterances := buildUtteranceComparisons w.main.document.utterances (sortView r.mainView)
    goldUtterances := buildUtteranceComparisons w.gold.document.utterances
      (sortView (pushTerminators w.gold.document r.goldView))
    goldWordMatches := r.goldWordMatches
    metrics := r.metrics.finish }

def compare (D : WordLists) (mainFile goldFile : ChatFile M T) (goldCoverage : GoldCoverage) :
    ComparisonBundle :=
  let normalization := WerNormalization.forDocument goldFile
  let main := ConformedSide.of C D (ComparedDocument.of C mainFile) normalization
  let gold := ConformedSide.of C D (ComparedDocument.of C goldFile) normalization
  (WholeFileAlignment.of main gold goldCoverage).render C

end Render

end Batchalign.Compare
