import Batchalign.FaTiming.Injection

/- From the timings set on an utterance to the ones it keeps (`fa/postprocess.rs`): onset-only ends are
   healed, gaps closed, collapsed words borrow from a neighbour, words are bounded to a retained bullet,
   and last cut to their request window. Provisional hints and fillers are the document model's
   (`WorBinding`). -/
namespace Batchalign.FaTiming
open Fa

def maxHealedInternalGapMs : ℕ := 1000
def minHealableWordDurationMs : ℕ := 40
def maxHealedWordProportionNumerator : ℕ := 2
def maxHealedWordProportionDenominator : ℕ := 5
def minHealedFinalWordDurationMs : ℕ := 100
def maxHealedFinalWordOverrunMs : ℕ := 500
def lastWordFallbackMs : ℕ := 500

inductive WordGapHealing where
  | preserve
  | heal
  deriving DecidableEq

inductive FaTimingResolution where
  | wordIntervals
  | tokenOnsets
  deriving DecidableEq

structure WordEndPolicy where
  gapHealing : WordGapHealing
  resolution : FaTimingResolution

def WordEndPolicy.heals (policy : WordEndPolicy) : Bool := policy.gapHealing == .heal

def WordEndPolicy.endsAreDerived (policy : WordEndPolicy) : Bool := policy.resolution == .tokenOnsets

inductive ExistingWorBoundaryPolicy where
  | preserve
  | rebuildFromEvidence
  deriving DecidableEq

structure DroppedWordTimings where
  clampedToUtteranceBoundary : ℕ
  withoutExtent : ℕ

def DroppedWordTimings.default : DroppedWordTimings := ⟨0, 0⟩

def DroppedWordTimings.total (dropped : DroppedWordTimings) : ℕ :=
  dropped.clampedToUtteranceBoundary + dropped.withoutExtent

structure PostprocessOutcome where
  dropped : DroppedWordTimings
  provenance : ProvenanceTally

/-! ## Timings under construction -/

structure PendingTiming where
  span : TimeSpan
  requestWindow : Option RequestWindow
  modelScore : Option ModelAlignmentScore
  startOrigin : Origin
  endOrigin : Origin

structure MovedBoundary where
  was : Origin
  original : ℕ
  now : ℕ

def MovedBoundary.distance (moved : MovedBoundary) : ℕ :=
  if moved.now ≤ moved.original then moved.original - moved.now else moved.now - moved.original

structure DegenerateWordTiming where
  startMs : ℕ
  endMs : ℕ

namespace PendingTiming

def fromAligned (timing : WordTiming) : PendingTiming :=
  ⟨timing.bullet, timing.requestWindow, timing.modelScore, timing.startOrigin, timing.endOrigin⟩

def durationMs (p : PendingTiming) : ℕ := p.span.endMs - p.span.startMs

def remeasured (p : PendingTiming) (span : TimeSpan) (why : MovedBoundary → Origin) : PendingTiming where
  span := span
  requestWindow := p.requestWindow
  modelScore := p.modelScore
  startOrigin := if span.startMs = p.span.startMs then p.startOrigin
    else why ⟨p.startOrigin, p.span.startMs, span.startMs⟩
  endOrigin := if span.endMs = p.span.endMs then p.endOrigin else why ⟨p.endOrigin, p.span.endMs, span.endMs⟩

def withEnd (p : PendingTiming) (endMs : ℕ) (origin : Origin) : PendingTiming :=
  { p with span := ⟨p.span.startMs, endMs⟩, endOrigin := origin }

def cutToBullet (moved : MovedBoundary) : Origin :=
  .clampedTo .utteranceBullet moved.was moved.original moved.distance

def clampedToBullet (p : PendingTiming) (startMs endMs : ℕ) : Option PendingTiming :=
  if startMs < endMs then some (p.remeasured ⟨startMs, endMs⟩ cutToBullet) else none

def contained (p : PendingTiming) : PendingTiming :=
  match p.requestWindow with
  | none => p
  | some window =>
    { p with
      span := ⟨max p.span.startMs window.startMs, min p.span.endMs window.endMs⟩
      startOrigin := if p.span.startMs < window.startMs then
          .clampedTo .requestStart p.startOrigin p.span.startMs (window.startMs - p.span.startMs)
        else p.startOrigin
      endOrigin := if window.endMs < p.span.endMs then
          .clampedTo .requestEnd p.endOrigin p.span.endMs (p.span.endMs - window.endMs)
        else p.endOrigin }

def settle (p : PendingTiming) : Except DegenerateWordTiming WordTiming :=
  let p := p.contained
  if h : p.span.startMs < p.span.endMs then
    .ok ⟨p.span.startMs, p.span.endMs, p.requestWindow, p.modelScore, p.startOrigin, p.endOrigin, h⟩
  else .error ⟨p.span.startMs, p.span.endMs⟩

end PendingTiming

structure WordSlot where
  timing : Option PendingTiming
  isFiller : Bool
  isCompoundFiller : Bool

def anyTimed (slots : List WordSlot) : Bool := slots.any fun slot => slot.timing.isSome

/-! ## Healing -/

def extendDerivedEnd (boundary : TimeSpan) (p : PendingTiming) : PendingTiming :=
  if p.span.startMs < boundary.endMs ∧ p.span.endMs < boundary.endMs then
    p.withEnd boundary.endMs (.inheritedFromNeighbour boundary.endMs)
  else p

def extendLast (boundary : TimeSpan) : List WordSlot → List WordSlot
  | [] => []
  | slot :: slots =>
    if anyTimed slots then slot :: extendLast boundary slots
    else { slot with timing := slot.timing.map (extendDerivedEnd boundary) } :: slots

/-- A `u64` product that saturates. -/
def saturatingMul (a b : ℕ) : ℕ := min (a * b) (2 ^ 64 - 1)

def bridgedDurationStaysWithinProportionCap (utteranceSpanMs : Option ℕ) (bridgedDurationMs : ℕ) : Bool :=
  match utteranceSpanMs with
  | none => false
  | some spanMs => decide (saturatingMul bridgedDurationMs maxHealedWordProportionDenominator ≤
      saturatingMul spanMs maxHealedWordProportionNumerator)

structure NextWord where
  startMs : ℕ
  isFiller : Bool

def shouldFillGap (utteranceSpanMs : Option ℕ) (span : TimeSpan) (isFiller : Bool) (next : NextWord) : Bool :=
  let gapMs := next.startMs - span.endMs
  let bridgedDuration := next.startMs - span.startMs
  let withinCap := bridgedDurationStaysWithinProportionCap utteranceSpanMs bridgedDuration
  let lexicalToFillerBridgeIsPlausible := if next.isFiller && !isFiller then
      decide (span.endMs - span.startMs < minHealableWordDurationMs) && withinCap
    else true
  let fillerBridgeIsPlausible := if isFiller then withinCap else true
  if next.isFiller then lexicalToFillerBridgeIsPlausible && fillerBridgeIsPlausible
  else decide (gapMs ≤ maxHealedInternalGapMs) && fillerBridgeIsPlausible

/-- The end of a word without extent before another: assumed, and capped by the next onset. -/
def fallbackEnd (p : PendingTiming) (nextStartMs : ℕ) : PendingTiming :=
  let assumed := p.span.startMs + lastWordFallbackMs
  let cappedEnd := min assumed nextStartMs
  let invented := Origin.fallbackDuration lastWordFallbackMs
  p.withEnd cappedEnd (if cappedEnd < assumed then .clampedTo .nextOnset invented assumed (assumed - cappedEnd)
    else invented)

def healWord (utteranceSpanMs : Option ℕ) (slot : WordSlot) (p : PendingTiming) (next : NextWord) : PendingTiming :=
  if shouldFillGap utteranceSpanMs p.span slot.isFiller next && !slot.isCompoundFiller then
    if p.span.startMs < next.startMs then p.withEnd next.startMs .derivedFromNextOnset else p
  else if p.span.startMs = p.span.endMs then fallbackEnd p next.startMs
  else p

def healBackward (utteranceSpanMs : Option ℕ) : List WordSlot → List WordSlot × Option NextWord
  | [] => ([], none)
  | slot :: slots =>
    let healed := healBackward utteranceSpanMs slots
    match slot.timing with
    | none => (slot :: healed.1, healed.2)
    | some p =>
      let kept := match healed.2 with
        | none => p
        | some next => healWord utteranceSpanMs slot p next
      ({ slot with timing := some kept } :: healed.1, some ⟨p.span.startMs, slot.isFiller⟩)

/-! ## Rebalancing -/

def rebalancedWithNeighbour (moved : MovedBoundary) : Origin := .rebalancedWithNeighbour moved.was moved.original

def moveBoundary (a b : WordSlot) (p q : PendingTiming) (boundaryMs : ℕ) : WordSlot × WordSlot :=
  ({ a with timing := some (p.remeasured ⟨p.span.startMs, boundaryMs⟩ rebalancedWithNeighbour) },
    { b with timing := some (q.remeasured ⟨boundaryMs, q.span.endMs⟩ rebalancedWithNeighbour) })

def rebalanceFollowing (current next : WordSlot) : WordSlot × WordSlot :=
  match current.timing, next.timing with
  | some p, some q =>
    if current.isFiller then (current, next)
    else if minHealableWordDurationMs ≤ p.durationMs then (current, next)
    else if p.span.endMs ≠ q.span.startMs then (current, next)
    else if q.durationMs < minHealableWordDurationMs - p.durationMs + minHealableWordDurationMs then (current, next)
    else moveBoundary current next p q (q.span.startMs + (minHealableWordDurationMs - p.durationMs))
  | _, _ => (current, next)

def rebalancePreceding (previous current : WordSlot) : WordSlot × WordSlot :=
  match previous.timing, current.timing with
  | some p, some q =>
    if current.isFiller then (previous, current)
    else if minHealableWordDurationMs ≤ q.durationMs then (previous, current)
    else if p.span.endMs ≠ q.span.startMs then (previous, current)
    else if p.durationMs < minHealableWordDurationMs - q.durationMs + minHealableWordDurationMs then (previous, current)
    else moveBoundary previous current p q (q.span.startMs - (minHealableWordDurationMs - q.durationMs))
  | _, _ => (previous, current)

/-- A pass from the left; each word meets its neighbour as the pass left it. -/
def sweepPairsFrom (step : WordSlot → WordSlot → WordSlot × WordSlot) : WordSlot → List WordSlot → List WordSlot
  | a, [] => [a]
  | a, b :: slots => (step a b).1 :: sweepPairsFrom step (step a b).2 slots

def sweepPairs (step : WordSlot → WordSlot → WordSlot × WordSlot) : List WordSlot → List WordSlot
  | [] => []
  | a :: slots => sweepPairsFrom step a slots

def rebalanceNearZeroLexicalWordsFromFollowingSpans : List WordSlot → List WordSlot := sweepPairs rebalanceFollowing

def rebalanceNearZeroLexicalWordsFromPrecedingSpans : List WordSlot → List WordSlot := sweepPairs rebalancePreceding

/-! ## The utterance bullet -/

def clampToBoundary (boundary : TimeSpan) (isLast : Bool) (p : PendingTiming) : Option PendingTiming :=
  let clampedStart := max p.span.startMs boundary.startMs
  let clampedEnd := min p.span.endMs boundary.endMs
  let healsOverrun := isLast && decide (clampedEnd < p.span.endMs) &&
    decide (clampedEnd - clampedStart < minHealedFinalWordDurationMs) &&
    decide (p.span.endMs - boundary.endMs ≤ maxHealedFinalWordOverrunMs)
  p.clampedToBullet clampedStart (if healsOverrun then p.span.endMs else clampedEnd)

def clampSlots (boundary : TimeSpan) : List WordSlot → List WordSlot × ℕ
  | [] => ([], 0)
  | slot :: slots =>
    let clamped := clampSlots boundary slots
    match slot.timing with
    | none => (slot :: clamped.1, clamped.2)
    | some p => match clampToBoundary boundary (!anyTimed slots) p with
      | some kept => ({ slot with timing := some kept } :: clamped.1, clamped.2)
      | none => ({ slot with timing := none } :: clamped.1, clamped.2 + 1)

/-! ## The utterance -/

section Utterance
variable (B : WorBinding)

/-- `TranscriptBoundary::observe` on the main bullet: a hint is no boundary. -/
def transcriptBoundary (u : Utterance) : Option TimeSpan := if B.provisional u then none else u.parsedBullet

def utteranceSpanMs (u : Utterance) (timings : List (Option WordTiming)) : Option ℕ :=
  match u.parsedBullet with
  | some bullet => some (bullet.endMs - bullet.startMs)
  | none => do
    let first ← timings.findSome? fun timing => timing.map WordTiming.startMs
    let last ← timings.reverse.findSome? fun timing => timing.map WordTiming.endMs
    some (last - first)

def wordSlots (u : Utterance) (injected : List (Option WordTiming)) : List WordSlot :=
  (injected.zip (wordLeaves u.content)).map fun (timing, word) =>
    ⟨timing.map PendingTiming.fromAligned, B.isFiller word, decide (1 < (B.domain.splitCompoundFiller word).length)⟩

def closeGaps (policy : WordEndPolicy) (boundary : Option TimeSpan) (spanMs : Option ℕ) (slots : List WordSlot) :
    List WordSlot :=
  let extended := if policy.endsAreDerived then match boundary with
      | some boundary => extendLast boundary slots
      | none => slots
    else slots
  (healBackward spanMs extended).1

/-- The passes under `policy.heals()`. -/
def healSlots (policy : WordEndPolicy) (boundary : Option TimeSpan) (spanMs : Option ℕ) (slots : List WordSlot) :
    List WordSlot :=
  rebalanceNearZeroLexicalWordsFromPrecedingSpans
    (rebalanceNearZeroLexicalWordsFromFollowingSpans (closeGaps policy boundary spanMs slots))

def boundSlots (u : Utterance) (existingWorBoundaries : ExistingWorBoundaryPolicy) (slots : List WordSlot) :
    List WordSlot × ℕ :=
  match transcriptBoundary B u with
  | none => (slots, 0)
  | some boundary =>
    if u.worTier.isSome ∧ existingWorBoundaries = .preserve then clampSlots boundary slots else (slots, 0)

def settledTimings (u : Utterance) (policy : WordEndPolicy) (existingWorBoundaries : ExistingWorBoundaryPolicy)
    (injected : List (Option WordTiming)) : List (Option WordTiming) × DroppedWordTimings :=
  let slots := wordSlots B u injected
  let healed := if policy.heals then healSlots policy (transcriptBoundary B u) (utteranceSpanMs u injected) slots
    else slots
  let bounded := boundSlots B u existingWorBoundaries healed
  (bounded.1.map fun slot => slot.timing.bind fun p => p.settle.toOption,
    ⟨bounded.2, bounded.1.countP fun slot => slot.timing.any fun p => p.settle.toOption.isNone⟩)

/-- `set_word_timing`, on the timings still to write. -/
def setWordTiming (timings : List (Option WordTiming)) (w : Word) : List (Option WordTiming) × Word :=
  match timings with
  | [] => ([], w)
  | timing :: timings => (timings, { w with inlineBullet := timing.map WordTiming.bullet })

/-- `postprocess_utterance_timings_with_boundary_policy`, one timing for each word. -/
def postprocessUtteranceTimingsWithBoundaryPolicy (u : Utterance) (policy : WordEndPolicy)
    (existingWorBoundaries : ExistingWorBoundaryPolicy) (injected : List (Option WordTiming)) :
    Utterance × PostprocessOutcome :=
  if injected.isEmpty then (u, ⟨.default, .default⟩)
  else
    let (validated, dropped) := settledTimings B u policy existingWorBoundaries injected
    ({ u with content := (rewriteContent setWordTiming validated u.content).2 },
      ⟨dropped, (validated.filterMap id).foldl
        (fun tally timing => (tally.record timing.startOrigin).record timing.endOrigin) .default⟩)

end Utterance

end Batchalign.FaTiming
