import Batchalign.Fa.Content
import Batchalign.Interleaving.Turns

/- Evidence of utterance timing recovery (`fa/utr/evidence.rs`, `search.rs`, and the proof types of
   `lexical.rs` and `regions.rs`). A hint is a `PositiveUtrInterval`. A region numbers its utterances
   from zero, and `placedAfter` carries its addresses into the file. -/
namespace Batchalign.Utr
open Fa (TimeSpan)

/-! ## Intervals and proposals -/

structure PositiveUtrInterval where
  startMs : ℕ
  endMs : ℕ
  positive : startMs < endMs

namespace PositiveUtrInterval

/-- `PositiveUtrInterval::admit`. -/
def ofBounds (startMs endMs : ℕ) : Option PositiveUtrInterval :=
  if h : startMs < endMs then some ⟨startMs, endMs, h⟩ else none

def after (interval : PositiveUtrInterval) (floorEndMs : ℕ) : Option PositiveUtrInterval :=
  ofBounds (max interval.startMs floorEndMs) interval.endMs

def covering (a b : PositiveUtrInterval) : PositiveUtrInterval where
  startMs := min a.startMs b.startMs
  endMs := max a.endMs b.endMs
  positive := lt_of_le_of_lt (min_le_left ..) (lt_of_lt_of_le a.positive (le_max_left ..))

/-- The bullet a hint is written as. -/
def intoHint (interval : PositiveUtrInterval) : TimeSpan := ⟨interval.startMs, interval.endMs⟩

theorem ofBounds_eq_some {s e : ℕ} {interval : PositiveUtrInterval} (h : ofBounds s e = some interval) :
    interval.startMs = s ∧ interval.endMs = e := by
  unfold ofBounds at h
  by_cases hlt : s < e
  · rw [dif_pos hlt] at h
    exact (Option.some.inj h) ▸ ⟨rfl, rfl⟩
  · rw [dif_neg hlt] at h
    simp at h

end PositiveUtrInterval

inductive UtrTimingProposal where
  | positive (interval : PositiveUtrInterval)
  | nonPositive (startMs endMs : ℕ)

def UtrTimingProposal.widen : PositiveUtrInterval → List TimeSpan → UtrTimingProposal
  | interval, [] => .positive interval
  | interval, token :: rest =>
    match PositiveUtrInterval.ofBounds token.startMs token.endMs with
    | none => .nonPositive token.startMs token.endMs
    | some next => widen (interval.covering next) rest

def UtrTimingProposal.fromObservations (first : TimeSpan) (rest : List TimeSpan) : UtrTimingProposal :=
  match PositiveUtrInterval.ofBounds first.startMs first.endMs with
  | none => .nonPositive first.startMs first.endMs
  | some interval => widen interval rest

/-! ## Addresses -/

structure UtrUnitOfWord where
  wordIndex : ℕ
  part : ℕ
  parts : ℕ
  deriving DecidableEq

structure UtrWordAddress where
  utteranceIndex : ℕ
  unitIndex : ℕ
  ofWord : UtrUnitOfWord
  deriving DecidableEq

structure UtrAsrTokenAddress where
  tokenIndex : ℕ
  unitIndex : ℕ

def UtrWordAddress.placedAfter (regionStart : ℕ) (address : UtrWordAddress) : UtrWordAddress :=
  { address with utteranceIndex := regionStart + address.utteranceIndex }

inductive UtrLexicalRelation where
  | terminalPunctuation
  | exact
  | caseInsensitive
  | fuzzy (similarityMillionths : ℕ)

structure UtrWordMatch where
  word : UtrWordAddress
  token : UtrAsrTokenAddress
  chatText : String
  asrText : String
  relation : UtrLexicalRelation

def UtrWordMatch.placedAfter (regionStart : ℕ) (m : UtrWordMatch) : UtrWordMatch :=
  { m with word := m.word.placedAfter regionStart }

structure AdmittedUtrWordMatch where
  matched : UtrWordMatch
  tokenUnits : ℕ
  timing : TimeSpan

def AdmittedUtrWordMatch.placedAfter (regionStart : ℕ) (m : AdmittedUtrWordMatch) : AdmittedUtrWordMatch :=
  { m with matched := m.matched.placedAfter regionStart }

def AdmittedUtrWordMatch.token (m : AdmittedUtrWordMatch) : ℕ := m.matched.token.tokenIndex

structure NonEmptyMatches (α : Type) where
  first : α
  rest : List α

namespace NonEmptyMatches
variable {α β : Type}

def fromVec : List α → Option (NonEmptyMatches α)
  | [] => none
  | first :: rest => some ⟨first, rest⟩

def toList (m : NonEmptyMatches α) : List α := m.first :: m.rest

def map (f : α → β) (m : NonEmptyMatches α) : NonEmptyMatches β := ⟨f m.first, m.rest.map f⟩

theorem fromVec_eq_some {xs : List α} {m : NonEmptyMatches α} (h : fromVec xs = some m) : m.toList = xs := by
  cases xs with
  | nil => exact absurd h (by simp [fromVec])
  | cons x xs =>
    cases h
    rfl

end NonEmptyMatches

/-! ## Endpoints -/

structure EndpointExtents where
  first : Option TimeSpan
  last : Option TimeSpan

def EndpointExtents.unobserved : EndpointExtents := ⟨none, none⟩

def EndpointExtents.observations (extents : EndpointExtents) : List TimeSpan :=
  extents.first.toList ++ extents.last.toList

structure EndpointBoundUtrWordMatches where
  matchesOf : NonEmptyMatches AdmittedUtrWordMatch
  extents : EndpointExtents

/-- The hull of the admitted tokens and of the
extents. -/
def EndpointBoundUtrWordMatches.proposal (m : EndpointBoundUtrWordMatches) : UtrTimingProposal :=
  .fromObservations m.matchesOf.first.timing
    (m.matchesOf.rest.map AdmittedUtrWordMatch.timing ++ m.extents.observations)

inductive MissingUtrEndpoints where
  | first
  | last
  | both

inductive BoundaryAdmission where
  | bound (m : EndpointBoundUtrWordMatches)
  | interior (m : NonEmptyMatches AdmittedUtrWordMatch) (missing : MissingUtrEndpoints)

/-- `admit_endpoints`, for an utterance of `units` lexical units. -/
def admitEndpoints (m : NonEmptyMatches AdmittedUtrWordMatch) (units : ℕ) (extents : EndpointExtents) :
    BoundaryAdmission :=
  let proved (index : ℕ) := m.toList.any fun unit => unit.matched.word.unitIndex == index
  let first := proved 0 || extents.first.isSome
  let last := !(units == 0) && (proved (units - 1) || extents.last.isSome)
  match first, last with
  | true, true => .bound ⟨m, extents⟩
  | false, true => .interior m .first
  | true, false => .interior m .last
  | false, false => .interior m .both

/-! ## Regions -/

inductive UtrRegionEdge where
  | streamEdge
  | anchor (utteranceIndex ms : ℕ)

structure UtrRegionSpan where
  firstUtterance : ℕ
  lastUtterance : ℕ
  onsetFloor : UtrRegionEdge
  onsetCeiling : UtrRegionEdge

def UtrRegionSpan.owned (span : UtrRegionSpan) : ℕ := span.lastUtterance + 1 - span.firstUtterance

def UtrRegionSpan.admitsOnset (span : UtrRegionSpan) (onsetMs : ℕ) : Bool :=
  (match span.onsetFloor with
    | .streamEdge => true
    | .anchor _ ms => decide (ms ≤ onsetMs)) &&
  (match span.onsetCeiling with
    | .streamEdge => true
    | .anchor _ ms => decide (onsetMs < ms))

/-! ## Refusals -/

inductive InspectionLimit where
  | work
  | scoreStorage

structure InspectionBudget where
  kind : InspectionLimit
  limit : ℕ
  used : ℕ
  requiredAtLeast : ℕ

inductive UtrSearchBudget where
  | candidateEdges (limit : ℕ)
  | interleaving (budget : Interleaving.Budget)

structure UtrBudgetRefusal where
  region : UtrRegionSpan
  budget : UtrSearchBudget

structure UtrSearchInconsistency where
  region : UtrRegionSpan
  inconsistency : Interleaving.Inconsistency

inductive UtrCorrespondenceRefusal where
  | ambiguous
  | budgetExhausted (refusal : UtrBudgetRefusal)
  | inconsistent (inconsistency : UtrSearchInconsistency)

inductive UtrUnsearchedRegion where
  | budgetExhausted (refusal : UtrBudgetRefusal)
  | inconsistent (inconsistency : UtrSearchInconsistency)

/-! ## Evidence of one utterance -/

inductive UtrInspectionMatches where
  | selected (m : NonEmptyMatches UtrWordMatch)
  | budgetExhausted (refusal : InspectionBudget)

def UtrInspectionMatches.placedAfter (regionStart : ℕ) : UtrInspectionMatches → UtrInspectionMatches
  | .selected m => .selected (m.map (UtrWordMatch.placedAfter regionStart))
  | .budgetExhausted refusal => .budgetExhausted refusal

inductive UtrUtteranceAlignmentEvidence where
  | matched (utteranceIndex alignableWords : ℕ) (inspection : UtrInspectionMatches)
      (admittedMatches : EndpointBoundUtrWordMatches) (proposal : UtrTimingProposal)
  | interiorOnly (utteranceIndex alignableWords : ℕ) (inspection : UtrInspectionMatches)
      (admittedMatches : NonEmptyMatches AdmittedUtrWordMatch) (missingEndpoints : MissingUtrEndpoints)
  | selectedOnly (utteranceIndex alignableWords : ℕ) (matchesOf : NonEmptyMatches UtrWordMatch)
      (reason : UtrCorrespondenceRefusal)
  | refused (utteranceIndex alignableWords : ℕ) (reason : UtrCorrespondenceRefusal)
      (inspectionRefusal : Option InspectionBudget)
  | retainedUnsearched (utteranceIndex alignableWords : ℕ) (unsearched : UtrUnsearchedRegion)
      (inspectionRefusal : Option InspectionBudget)
  | uninspected (utteranceIndex alignableWords : ℕ) (inspectionRefusal : InspectionBudget)
  | unmatched (utteranceIndex alignableWords : ℕ)
  | excludedMarkedOverlap (utteranceIndex alignableWords : ℕ)
  | noAlignableWords (utteranceIndex : ℕ)

namespace UtrUtteranceAlignmentEvidence

def utteranceIndex : UtrUtteranceAlignmentEvidence → ℕ
  | matched i .. => i
  | interiorOnly i .. => i
  | selectedOnly i .. => i
  | refused i .. => i
  | retainedUnsearched i .. => i
  | uninspected i .. => i
  | unmatched i _ => i
  | excludedMarkedOverlap i _ => i
  | noAlignableWords i => i

def placedAfter (regionStart : ℕ) : UtrUtteranceAlignmentEvidence → UtrUtteranceAlignmentEvidence
  | matched i words inspection admittedMatches proposal =>
    matched (regionStart + i) words (inspection.placedAfter regionStart)
      { admittedMatches with
        matchesOf := admittedMatches.matchesOf.map (AdmittedUtrWordMatch.placedAfter regionStart) } proposal
  | interiorOnly i words inspection admittedMatches missing =>
    interiorOnly (regionStart + i) words (inspection.placedAfter regionStart)
      (admittedMatches.map (AdmittedUtrWordMatch.placedAfter regionStart)) missing
  | selectedOnly i words m reason =>
    selectedOnly (regionStart + i) words (m.map (UtrWordMatch.placedAfter regionStart)) reason
  | refused i words reason inspectionRefusal => refused (regionStart + i) words reason inspectionRefusal
  | retainedUnsearched i words unsearched inspectionRefusal =>
    retainedUnsearched (regionStart + i) words unsearched inspectionRefusal
  | uninspected i words inspectionRefusal => uninspected (regionStart + i) words inspectionRefusal
  | unmatched i words => unmatched (regionStart + i) words
  | excludedMarkedOverlap i words => excludedMarkedOverlap (regionStart + i) words
  | noAlignableWords i => noAlignableWords (regionStart + i)

/-- The admitted matches, in either admitting state (`proved_matches`). -/
def admitted : UtrUtteranceAlignmentEvidence → List AdmittedUtrWordMatch
  | matched _ _ _ admittedMatches _ => admittedMatches.matchesOf.toList
  | interiorOnly _ _ _ admittedMatches _ => admittedMatches.toList
  | selectedOnly .. => []
  | refused .. => []
  | retainedUnsearched .. => []
  | uninspected .. => []
  | unmatched .. => []
  | excludedMarkedOverlap .. => []
  | noAlignableWords _ => []

@[simp] theorem utteranceIndex_placedAfter (k : ℕ) (e : UtrUtteranceAlignmentEvidence) :
    (e.placedAfter k).utteranceIndex = k + e.utteranceIndex := by
  cases e <;> rfl

end UtrUtteranceAlignmentEvidence

/-! ## Search envelopes -/

structure MeasuredBound where
  ms : ℕ
  utterance : ℕ
  deriving DecidableEq

namespace MeasuredBound

def later (a b : MeasuredBound) : MeasuredBound := if b.ms ≤ a.ms then a else b

def earlier (a b : MeasuredBound) : MeasuredBound := if a.ms ≤ b.ms then a else b

def placedAfter (regionStart : ℕ) (b : MeasuredBound) : MeasuredBound :=
  { b with utterance := regionStart + b.utterance }

end MeasuredBound

inductive CorridorFloor where
  | fileStart
  | markedOverlapUnbounded
  | precedingMeasured (bound : MeasuredBound)
  deriving DecidableEq

def CorridorFloor.raisedTo (bound : MeasuredBound) : CorridorFloor → CorridorFloor
  | .precedingMeasured current => .precedingMeasured (current.later bound)
  | .fileStart => .precedingMeasured bound
  | .markedOverlapUnbounded => .precedingMeasured bound

def CorridorFloor.placedAfter (regionStart : ℕ) : CorridorFloor → CorridorFloor
  | .precedingMeasured bound => .precedingMeasured (bound.placedAfter regionStart)
  | .fileStart => .fileStart
  | .markedOverlapUnbounded => .markedOverlapUnbounded

inductive CorridorCeiling where
  | fileEnd
  | followingOverlaps (utterance : ℕ)
  | followingMeasured (bound : MeasuredBound)
  deriving DecidableEq

def CorridorCeiling.loweredTo (bound : MeasuredBound) : CorridorCeiling → CorridorCeiling
  | .followingMeasured current => .followingMeasured (current.earlier bound)
  | .fileEnd => .followingMeasured bound
  | .followingOverlaps _ => .followingMeasured bound

def CorridorCeiling.placedAfter (regionStart : ℕ) : CorridorCeiling → CorridorCeiling
  | .followingMeasured bound => .followingMeasured (bound.placedAfter regionStart)
  | .fileEnd => .fileEnd
  | .followingOverlaps utterance => .followingOverlaps (regionStart + utterance)

inductive SearchScope where
  | document
  | interleaved (floorMs : ℕ) (ceilingMs : Option ℕ)
  deriving DecidableEq

inductive FaSearchEnvelope where
  | candidates (words : List String) (startMs endMs : ℕ) (scope : SearchScope)
  | orderCorridor (words : List String) (floor : CorridorFloor) (ceiling : CorridorCeiling)
  deriving DecidableEq

def FaSearchEnvelope.interleaved (words : List String) (startMs endMs floorMs : ℕ) (ceilingMs : Option ℕ) :
    Option FaSearchEnvelope :=
  if startMs < endMs ∧ floorMs ≤ startMs ∧ (∀ ceiling ∈ ceilingMs, endMs ≤ ceiling) then
    some (.candidates words startMs endMs (.interleaved floorMs ceilingMs))
  else none

def FaSearchEnvelope.placedAfter (regionStart : ℕ) : FaSearchEnvelope → FaSearchEnvelope
  | .candidates words startMs endMs scope => .candidates words startMs endMs scope
  | .orderCorridor words floor ceiling =>
    .orderCorridor words (floor.placedAfter regionStart) (ceiling.placedAfter regionStart)

end Batchalign.Utr
