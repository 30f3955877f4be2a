import Batchalign.DpAlign.Align
import Batchalign.Utr.Census

/- The recognizer's stream as lexical units, and the plan of one region (`fa/utr/lexical.rs`,
   `fa/utr.rs`, `fa/utr/evidence.rs`). `buildAlignmentPlan` files the admitted matches by utterance,
   without contested tokens, and `utteranceEvidence` judges each. -/
namespace Batchalign.Utr
open Fa DpAlign

/-! ## The stream -/

structure UtrLexicalWord where
  text : String
  surface : String
  address : UtrAsrTokenAddress
  interval : TimeSpan
  /-- How many units its token holds. -/
  units : ℕ

abbrev UtrLexicalStream := List UtrLexicalWord

/-- `trim_end_matches` with the sentence punctuation. -/
def trimTerminal (surface : String) : String :=
  String.ofList (surface.toList.reverse.dropWhile fun c => ".,!?;:".toList.contains c).reverse

def tokenWords (C : CharClasses) (units : UtrLexicalUnits) (token : AsrTimingToken) (tokenIndex : ℕ) :
    List UtrLexicalWord :=
  (units.split C token.text).zipIdx.map fun (surface, unitIndex) =>
    { text := trimTerminal surface
      surface := surface
      address := ⟨tokenIndex, unitIndex⟩
      interval := token.interval
      units := (units.split C token.text).length }

/-- `UtrLexicalStream::project`. -/
def projectStream (C : CharClasses) (prepared : PreparedUtrTokens) (includes : AsrTimingToken → Bool) :
    UtrLexicalStream :=
  (prepared.tokens.zipIdx.filter fun (token, _) => includes token).flatMap fun (token, tokenIndex) =>
    tokenWords C prepared.units token tokenIndex

/-- The tokens whose onset the region admits. -/
def withinRegion (C : CharClasses) (prepared : PreparedUtrTokens) (region : UtrRegion) : UtrLexicalStream :=
  projectStream C prepared fun token => region.span.admitsOnset token.startMs

/-- The tokens that overlap a window. -/
def withinWindow (C : CharClasses) (prepared : PreparedUtrTokens) (startMs endMs : ℕ) : UtrLexicalStream :=
  projectStream C prepared fun token => decide (token.startMs < endMs) && decide (startMs < token.endMs)

def UtrLexicalStream.texts (stream : UtrLexicalStream) : List String := stream.map UtrLexicalWord.text

/-- The loop of `onset_ordered_search`: positive intervals, in the order of their onsets. -/
def onsetOrderedFrom : Option ℕ → UtrLexicalStream → Bool
  | _, [] => true
  | previous, word :: words =>
    if word.interval.endMs ≤ word.interval.startMs || previous.any fun start => decide (word.interval.startMs < start)
    then false else onsetOrderedFrom (some word.interval.startMs) words

/-- The loop of `ordered_search` over the ends. -/
def endOrderedFrom : Option ℕ → UtrLexicalStream → Bool
  | _, [] => true
  | previous, word :: words =>
    if previous.any fun e => decide (word.interval.endMs < e) then false
    else endOrderedFrom (some word.interval.endMs) words

/-- Whether `onset_ordered_search` grants a search. -/
def UtrLexicalStream.onsetOrdered (stream : UtrLexicalStream) : Bool := onsetOrderedFrom none stream

/-- Whether `ordered_search` grants a search. -/
def UtrLexicalStream.ordered (stream : UtrLexicalStream) : Bool := stream.onsetOrdered && endOrderedFrom none stream

/-- `OrderedLexicalSearch::interval`. -/
def UtrLexicalStream.intervalOf (stream : UtrLexicalStream) (first last : ℕ) : Option TimeSpan :=
  if last < first then none
  else stream[first]?.bind fun a => stream[last]?.map fun b => ⟨a.interval.startMs, b.interval.endMs⟩

section Matches
variable (similarityMillionths : String → String → ℕ)

def lexicalRelation (chatText asrText : String) : UtrLexicalRelation :=
  if chatText = asrText then .exact
  else if eqIgnoreAsciiCase chatText asrText then .caseInsensitive
  else .fuzzy (similarityMillionths chatText asrText)

def UtrLexicalWord.relation (word : UtrLexicalWord) (chatText : String) : UtrLexicalRelation :=
  if word.text ≠ word.surface ∧ eqIgnoreAsciiCase chatText word.text then .terminalPunctuation
  else lexicalRelation similarityMillionths chatText word.surface

structure UtrPayloadWord where
  text : String
  address : UtrWordAddress
  deriving DecidableEq

def UtrPayloadWord.ofUnits (utteranceIndex : ℕ) (units : UtrChatUnits) : List UtrPayloadWord :=
  units.units.zipIdx.map fun ((text, ofWord), unitIndex) => ⟨text, ⟨utteranceIndex, unitIndex, ofWord⟩⟩

/-- `matched_word`; a position past the stream, which no producer returns, has none. -/
def matchedWord (stream : UtrLexicalStream) (lexicalIndex : ℕ) (word : UtrWordAddress) (chatText : String) :
    Option UtrWordMatch :=
  stream[lexicalIndex]?.map fun lexical =>
    { word := word
      token := lexical.address
      chatText := chatText
      asrText := lexical.surface
      relation := lexical.relation similarityMillionths chatText }

def admittedWord (stream : UtrLexicalStream) (index : ℕ) (word : UtrWordAddress) (text : String) :
    Option AdmittedUtrWordMatch :=
  stream[index]?.bind fun lexical =>
    (matchedWord similarityMillionths stream index word text).map fun m => ⟨m, lexical.units, lexical.interval⟩

def commonMatches (stream : UtrLexicalStream) (pairs : List (ℕ × ℕ)) (payload : List UtrPayloadWord) :
    List AdmittedUtrWordMatch :=
  pairs.filterMap fun (p, r) =>
    payload[p]?.bind fun word => admittedWord similarityMillionths stream r word.address word.text

def uniqueEmbeddingMatches (stream : UtrLexicalStream) (payload : List UtrPayloadWord) (indices : List ℕ) :
    List AdmittedUtrWordMatch :=
  (payload.zip indices).filterMap fun (word, r) =>
    admittedWord similarityMillionths stream r word.address word.text

end Matches

/-! ## Exact embeddings -/

/-- `greedy_forward_match_indices`, from a position of the reference on. -/
def greedyForwardFrom : List String → List String → ℕ → Option (List ℕ)
  | [], _, _ => some []
  | _ :: _, [], _ => none
  | word :: words, r :: reference, k =>
    if eqIgnoreAsciiCase word r then (greedyForwardFrom words reference (k + 1)).map (k :: ·)
    else greedyForwardFrom (word :: words) reference (k + 1)
termination_by structural _ reference _ => reference

def greedyForwardMatchIndices (payload reference : List String) : Option (List ℕ) :=
  greedyForwardFrom payload reference 0

/-- The same loop from the other end. -/
def greedyReverseMatchIndices (payload reference : List String) : Option (List ℕ) :=
  (greedyForwardFrom payload.reverse reference.reverse 0).map fun indices =>
    (indices.map fun k => reference.length - 1 - k).reverse

structure CompleteExactEmbeddings where
  earliest : List ℕ
  latest : List ℕ

def CompleteExactEmbeddings.observe (words reference : List String) : Option CompleteExactEmbeddings :=
  if words = [] then none
  else (greedyForwardMatchIndices words reference).bind fun earliest =>
    (greedyReverseMatchIndices words reference).map fun latest => ⟨earliest, latest⟩

/-- `CompleteExactEmbeddings::envelopes` of one utterance: its own units, from earliest to latest embedding.
  -/
def CompleteExactEmbeddings.envelope (complete : CompleteExactEmbeddings) (payload : List UtrPayloadWord)
    (stream : UtrLexicalStream) (utterance : ℕ) (info : UtrUtteranceInfo) : Option FaSearchEnvelope :=
  let population := payload.zipIdx.filter fun (word, _) => word.address.utteranceIndex == utterance
  let sameSource := population.zipIdx.all fun ((word, _), count) =>
    info.units.texts[count]? == some word.text && word.address.unitIndex == count
  if !stream.ordered || info.retainedTiming.isSome || info.units.units.isEmpty ||
      population.length != info.units.units.length || !sameSource then none
  else
    population.head?.bind fun (_, first) => population.getLast?.bind fun (_, last) =>
      complete.earliest[first]?.bind fun a => complete.latest[last]?.bind fun b =>
        (stream.intervalOf a b).map fun span => .candidates info.units.words span.startMs span.endMs .document

/-! ## The plan of one region -/

inductive UtrAlignmentStrategy where
  | uniqueExactSubsequence
  | globalDp
  | localInterleaving

inductive CorrespondenceProof where
  | complete (admitted : List AdmittedUtrWordMatch)
  | budgetExhausted (refusal : UtrBudgetRefusal)
  | inconsistent (inconsistency : UtrSearchInconsistency)

def CorrespondenceProof.admitted : CorrespondenceProof → List AdmittedUtrWordMatch
  | .complete admitted => admitted
  | .budgetExhausted _ => []
  | .inconsistent _ => []

def CorrespondenceProof.refusal : CorrespondenceProof → UtrCorrespondenceRefusal
  | .complete _ => .ambiguous
  | .budgetExhausted refusal => .budgetExhausted refusal
  | .inconsistent inconsistency => .inconsistent inconsistency

structure UtteranceSelection where
  envelope : Option FaSearchEnvelope
  endpoints : EndpointExtents

def UtteranceSelection.unsearched : UtteranceSelection := ⟨none, .unobserved⟩

/-- What a producer hands to the plan; `perUtterance` has a value for each searched
utterance. -/
structure UtrMatchSelection where
  selected : Except InspectionBudget (List (ℕ × ℕ))
  admission : CorrespondenceProof
  perUtterance : ℕ → UtrUtteranceInfo → UtteranceSelection

structure PlannedUtterance where
  info : UtrUtteranceInfo
  evidence : UtrUtteranceAlignmentEvidence
  envelope : Option FaSearchEnvelope

structure LocalRegionPlan where
  strategy : UtrAlignmentStrategy
  span : UtrRegionSpan
  utterances : List PlannedUtterance
  withdrawnClaims : List ℕ

def UtrCorrespondenceRefusal.unsearched : UtrCorrespondenceRefusal → Option UtrUnsearchedRegion
  | .ambiguous => none
  | .budgetExhausted refusal => some (.budgetExhausted refusal)
  | .inconsistent inconsistency => some (.inconsistent inconsistency)

/-- The end of `utterance_evidence`, for an utterance inspected or out of budget. -/
def evidenceOf (utteranceIndex alignableWords units : ℕ) (inspection : UtrInspectionMatches)
    (admitted : List AdmittedUtrWordMatch) (refusal : UtrCorrespondenceRefusal) (endpoints : EndpointExtents) :
    UtrUtteranceAlignmentEvidence :=
  match NonEmptyMatches.fromVec admitted with
  | none =>
    match inspection, refusal with
    | .selected m, _ => .selectedOnly utteranceIndex alignableWords m refusal
    | .budgetExhausted inspectionRefusal, .ambiguous =>
      .uninspected utteranceIndex alignableWords inspectionRefusal
    | .budgetExhausted inspectionRefusal, _ =>
      .refused utteranceIndex alignableWords refusal (some inspectionRefusal)
  | some admittedMatches =>
    match admitEndpoints admittedMatches units endpoints with
    | .bound bound => .matched utteranceIndex alignableWords inspection bound bound.proposal
    | .interior interior missing => .interiorOnly utteranceIndex alignableWords inspection interior missing

def utteranceEvidence (utteranceIndex : ℕ) (info : UtrUtteranceInfo)
    (selected : Except InspectionBudget (List UtrWordMatch)) (admitted : List AdmittedUtrWordMatch)
    (refusal : UtrCorrespondenceRefusal) (endpoints : EndpointExtents) (participation : GlobalUtrParticipation) :
    UtrUtteranceAlignmentEvidence :=
  let alignableWords := info.units.words.length
  if info.excludedFrom participation && (selected.toOption.all fun m => m.isEmpty) then
    .excludedMarkedOverlap utteranceIndex alignableWords
  else if info.units.words.isEmpty then .noAlignableWords utteranceIndex
  else
    match refusal.unsearched, info.retainedTiming, selected with
    | some unsearched, some _, .ok _ => .retainedUnsearched utteranceIndex alignableWords unsearched none
    | some unsearched, some _, .error stop => .retainedUnsearched utteranceIndex alignableWords unsearched (some stop)
    | _, _, .error stop =>
      evidenceOf utteranceIndex alignableWords info.units.units.length (.budgetExhausted stop) admitted refusal endpoints
    | unsearched, _, .ok found =>
      match NonEmptyMatches.fromVec found with
      | some m =>
        evidenceOf utteranceIndex alignableWords info.units.units.length (.selected m) admitted refusal endpoints
      | none =>
        match unsearched with
        | some _ => .refused utteranceIndex alignableWords refusal none
        | none => .unmatched utteranceIndex alignableWords

section Build
variable (similarityMillionths : String → String → ℕ)

def selectedOf (stream : UtrLexicalStream) (payload : List UtrPayloadWord)
    (selected : Except InspectionBudget (List (ℕ × ℕ))) (utterance : ℕ) :
    Except InspectionBudget (List UtrWordMatch) :=
  selected.map fun pairs => pairs.filterMap fun (p, r) =>
    payload[p]?.bind fun word =>
      if word.address.utteranceIndex = utterance then
        matchedWord similarityMillionths stream r word.address word.text
      else none

def admittedOf (contested : List ℕ) (admitted : List AdmittedUtrWordMatch) (utterance : ℕ) :
    List AdmittedUtrWordMatch :=
  admitted.filter fun m => !contested.contains m.token && m.matched.word.utteranceIndex == utterance

def buildAlignmentPlan (strategy : UtrAlignmentStrategy) (payload : List UtrPayloadWord) (stream : UtrLexicalStream)
    (selection : UtrMatchSelection) (span : UtrRegionSpan) (searched : List UtrUtteranceInfo)
    (participation : GlobalUtrParticipation) (contested : List ℕ) : LocalRegionPlan where
  strategy := strategy
  span := span
  utterances := searched.mapIdx fun utterance info =>
    { info := info
      evidence := utteranceEvidence utterance info
        (selectedOf similarityMillionths stream payload selection.selected utterance)
        (admittedOf contested selection.admission.admitted utterance) selection.admission.refusal
        (selection.perUtterance utterance info).endpoints participation
      envelope := (selection.perUtterance utterance info).envelope }
  withdrawnClaims :=
    (selection.admission.admitted.map AdmittedUtrWordMatch.token).filter contested.contains

end Build

/-! ## What an utterance is left with -/

theorem utteranceIndex_evidenceOf (i words units : ℕ) (inspection : UtrInspectionMatches)
    (admitted : List AdmittedUtrWordMatch) (refusal : UtrCorrespondenceRefusal) (endpoints : EndpointExtents) :
    (evidenceOf i words units inspection admitted refusal endpoints).utteranceIndex = i := by
  unfold evidenceOf
  cases NonEmptyMatches.fromVec admitted with
  | none => cases inspection <;> cases refusal <;> rfl
  | some m =>
    cases hends : admitEndpoints m units endpoints <;> simp only [hends] <;> rfl

@[simp] theorem utteranceIndex_utteranceEvidence (i : ℕ) (info : UtrUtteranceInfo)
    (selected : Except InspectionBudget (List UtrWordMatch)) (admitted : List AdmittedUtrWordMatch)
    (refusal : UtrCorrespondenceRefusal) (endpoints : EndpointExtents) (participation : GlobalUtrParticipation) :
    (utteranceEvidence i info selected admitted refusal endpoints participation).utteranceIndex = i := by
  unfold utteranceEvidence
  split
  · rfl
  split
  · rfl
  split
  · rfl
  · rfl
  · exact utteranceIndex_evidenceOf ..
  · split
    · exact utteranceIndex_evidenceOf ..
    · split <;> rfl

theorem admitted_evidenceOf (i words units : ℕ) (inspection : UtrInspectionMatches)
    (admitted : List AdmittedUtrWordMatch) (refusal : UtrCorrespondenceRefusal) (endpoints : EndpointExtents) :
    (evidenceOf i words units inspection admitted refusal endpoints).admitted = admitted := by
  unfold evidenceOf
  cases hadmitted : NonEmptyMatches.fromVec admitted with
  | none =>
    have hnone : admitted = [] := by
      cases admitted with
      | nil => rfl
      | cons m rest => cases hadmitted
    rw [hnone]
    cases inspection <;> cases refusal <;> rfl
  | some m =>
    have hlist := NonEmptyMatches.fromVec_eq_some hadmitted
    cases hends : admitEndpoints m units endpoints with
    | bound bound =>
      have hbound : bound.matchesOf = m := by
        unfold admitEndpoints at hends
        simp only at hends
        split at hends
        · rw [BoundaryAdmission.bound.injEq] at hends
          rw [← hends]
        all_goals cases hends
      simp only [hends]
      show bound.matchesOf.toList = admitted
      rw [hbound, hlist]
    | interior interior missing =>
      have hinterior : interior = m := by
        unfold admitEndpoints at hends
        simp only at hends
        split at hends
        · cases hends
        all_goals
          rw [BoundaryAdmission.interior.injEq] at hends
          exact hends.1.symm
      simp only [hends]
      show interior.toList = admitted
      rw [hinterior, hlist]

theorem admitted_utteranceEvidence (i : ℕ) (info : UtrUtteranceInfo)
    (selected : Except InspectionBudget (List UtrWordMatch)) (admitted : List AdmittedUtrWordMatch)
    (refusal : UtrCorrespondenceRefusal) (endpoints : EndpointExtents) (participation : GlobalUtrParticipation) :
    (utteranceEvidence i info selected admitted refusal endpoints participation).admitted = admitted ∨
      (utteranceEvidence i info selected admitted refusal endpoints participation).admitted = [] := by
  unfold utteranceEvidence
  split
  · exact .inr rfl
  split
  · exact .inr rfl
  split
  · exact .inr rfl
  · exact .inr rfl
  · exact .inl (admitted_evidenceOf ..)
  · split
    · exact .inl (admitted_evidenceOf ..)
    · split
      · exact .inr rfl
      · exact .inr rfl

end Batchalign.Utr
