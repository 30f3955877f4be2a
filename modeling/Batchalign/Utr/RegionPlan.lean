import Batchalign.Lib.Polled
import Batchalign.Interleaving.Graph
import Batchalign.Utr.Lexical

/- The planners of one region (`fa/utr.rs`, `fa/utr/interior.rs`, `fa/utr/lexical.rs`). A monotonic
   region takes its unique exact embedding or the common correspondences, a region of an interleaved
   file the joint observation of its turns (`SearchEnv`). A planner may be stopped between its steps
   (`Work`). -/
namespace Batchalign.Utr
open Fa DpAlign Polled

/-! ## The joint observation -/

structure SearchFrontier where
  before : ℕ
  after : ℕ

/-- What the joint search of the turns established. -/
structure LocalInterleaving where
  turns : List Interleaving.SpeakerTurn
  addresses : List Interleaving.Address
  words : List Interleaving.WordEvidence
  selected : List Interleaving.Selected
  searchFrontiers : List SearchFrontier
  required : List ℕ

namespace LocalInterleaving

def sourceText (analysis : LocalInterleaving) (source : ℕ) : Option String :=
  analysis.addresses[source]?.bind fun address =>
    analysis.turns[address.utterance]?.bind fun turn => turn.words[address.word]?

def utteranceOf (analysis : LocalInterleaving) (source : ℕ) : ℕ :=
  (analysis.addresses[source]?.map Interleaving.Address.utterance).getD 0

def sameSpeaker (analysis : LocalInterleaving) (source utterance : ℕ) : Bool :=
  (analysis.turns[analysis.utteranceOf source]?.map Interleaving.SpeakerTurn.speaker) ==
    (analysis.turns[utterance]?.map Interleaving.SpeakerTurn.speaker)

/-- `preceding_required`, nearest first. -/
def precedingRequired (analysis : LocalInterleaving) (frontier : SearchFrontier) (utterance : ℕ) : List ℕ :=
  ((analysis.required.filter fun source => decide (analysis.utteranceOf source < utterance)).reverse).filter
    fun source => decide (source < frontier.before) || analysis.sameSpeaker source utterance

/-- `following_required`, nearest first. -/
def followingRequired (analysis : LocalInterleaving) (frontier : SearchFrontier) (utterance : ℕ) : List ℕ :=
  (analysis.required.filter fun source => decide (utterance < analysis.utteranceOf source)).filter
    fun source => decide (frontier.after ≤ source) || analysis.sameSpeaker source utterance

end LocalInterleaving

/-- Beside census and tokens: the similarity of fuzzy matches, the meter, the joint engine, and how often each
  search asks its control. -/
structure SearchEnv extends CensusEnv where
  similarityMillionths : String → String → ℕ
  inspectionRefusal : List String → List String → MatchMode → Option InspectionBudget
  interleave : List Interleaving.SpeakerTurn → List String → MatchMode →
    Except Interleaving.Refusal LocalInterleaving
  correspondencePolls : List String → List String → MatchMode → ℕ
  interleavePolls : List Interleaving.SpeakerTurn → List String → MatchMode → ℕ

def plainSearch : SearchEnv where
  walker := .unconditional
  domain := ⟨fun _ => true, fun w => [w.text]⟩
  chars := ⟨Char.isAlphanum, Char.isWhitespace, fun _ => false, fun _ => false⟩
  extractOverlapInfo _ := ⟨[], 0, false, none⟩
  similarityMillionths _ _ := 0
  inspectionRefusal _ _ _ := none
  interleave _ _ _ := .error (.budget .memoryBudgetExceeded)
  correspondencePolls _ _ _ := 0
  interleavePolls _ _ _ := 0

variable (env : SearchEnv)

def payloadOf (searched : List UtrUtteranceInfo) (participation : GlobalUtrParticipation) : List UtrPayloadWord :=
  (searched.zipIdx.filter fun (info, _) => !info.excludedFrom participation).flatMap fun (info, utterance) =>
    UtrPayloadWord.ofUnits utterance info.units

/-! ## Monotonic regions -/

/-- The selected path of `CorrespondenceAnalysis`, unless its meter refuses. -/
def inspectedPairs (payload reference : List String) (mode : MatchMode) : Except InspectionBudget (List (ℕ × ℕ)) :=
  match env.inspectionRefusal payload reference mode with
  | some refusal => .error refusal
  | none => .ok ((align payload reference mode).filterMap fun item => match item with
    | .matched _ payloadIdx referenceIdx => some (payloadIdx, referenceIdx)
    | .extraPayload _ _ => none
    | .extraReference _ _ => none)

/-- The proof of `CorrespondenceAnalysis`, as the region records it. -/
def commonProof (span : UtrRegionSpan) (payload : List UtrPayloadWord) (stream : UtrLexicalStream) (mode : MatchMode) :
    CorrespondenceProof :=
  match CorrespondenceAdmission.observe (payload.map UtrPayloadWord.text) stream.texts mode with
  | .complete pairs => .complete (commonMatches env.similarityMillionths stream pairs payload)
  | .budgetExhausted budget => .budgetExhausted ⟨span, .candidateEdges budget.edgeLimit⟩

def embeddingsOf (payload : List UtrPayloadWord) (stream : UtrLexicalStream) : MatchMode → Option CompleteExactEmbeddings
  | .caseInsensitive => CompleteExactEmbeddings.observe (payload.map UtrPayloadWord.text) stream.texts
  | .exact => none
  | .fuzzy _ => none

def embeddingSelection (payload : List UtrPayloadWord) (stream : UtrLexicalStream) :
    Option CompleteExactEmbeddings → ℕ → UtrUtteranceInfo → UtteranceSelection
  | some complete, utterance, info => ⟨complete.envelope payload stream utterance info, .unobserved⟩
  | none, _, _ => .unsearched

def raiseFloor (ordinal : ℕ) (floor : Option MeasuredBound) (ms : ℕ) : Option MeasuredBound :=
  some (floor.elim ⟨ms, ordinal⟩ fun current => current.later ⟨ms, ordinal⟩)

def lowerCeiling (ordinal : ℕ) (ceiling : Option MeasuredBound) (ms : ℕ) : Option MeasuredBound :=
  some (ceiling.elim ⟨ms, ordinal⟩ fun current => current.earlier ⟨ms, ordinal⟩)

def boundingBullet (info : UtrUtteranceInfo) : Option TimeSpan := anchorTiming info

def interiorFloors : ℕ → Option MeasuredBound → List PlannedUtterance → List (Option MeasuredBound)
  | _, _, [] => []
  | ordinal, floor, planned :: rest =>
    let retained := ((boundingBullet planned.info).map TimeSpan.endMs).toList
    let proved := planned.evidence.admitted.map fun m => m.timing.startMs
    floor :: interiorFloors (ordinal + 1) ((retained ++ proved).foldl (raiseFloor ordinal) floor) rest

def interiorCeilings : ℕ → List PlannedUtterance → List (Option MeasuredBound) × Option MeasuredBound
  | _, [] => ([], none)
  | ordinal, planned :: rest =>
    let following := interiorCeilings (ordinal + 1) rest
    let retained := ((boundingBullet planned.info).map TimeSpan.startMs).toList
    let proved := planned.evidence.admitted.map fun m => m.timing.endMs
    (following.2 :: following.1, (retained ++ proved).foldl (lowerCeiling ordinal) following.2)

def interiorCorridor (planned : PlannedUtterance) (floor ceiling : Option MeasuredBound) : Option FaSearchEnvelope :=
  match planned.evidence, floor, ceiling with
  | .interiorOnly _ _ _ admittedMatches _, some floor, some ceiling =>
    if planned.info.retainedTiming.isSome || planned.info.overlaps || planned.envelope.isSome then planned.envelope
    else if admittedMatches.toList.any fun m =>
        decide (m.timing.startMs < floor.ms) || decide (ceiling.ms < m.timing.endMs) then planned.envelope
    else some (.orderCorridor planned.info.units.words (.precedingMeasured floor) (.followingMeasured ceiling))
  | _, _, _ => planned.envelope

def boundInteriorOnlySearches (plan : LocalRegionPlan) (stream : UtrLexicalStream) : LocalRegionPlan :=
  if stream.ordered then
    { plan with
      utterances :=
        (plan.utterances.zip ((interiorFloors 0 none plan.utterances).zip (interiorCeilings 0 plan.utterances).1)).map
          fun (planned, floor, ceiling) => { planned with envelope := interiorCorridor planned floor ceiling } }
  else plan

def uniqueEmbedding (payload : List UtrPayloadWord) (stream : UtrLexicalStream) (mode : MatchMode) :
    Option CompleteExactEmbeddings :=
  (embeddingsOf payload stream mode).filter fun complete => complete.earliest == complete.latest

def uniqueSelection (payload : List UtrPayloadWord) (stream : UtrLexicalStream) (complete : CompleteExactEmbeddings) :
    UtrMatchSelection where
  selected := .ok (complete.earliest.zipIdx.map fun (r, p) => (p, r))
  admission := .complete (uniqueEmbeddingMatches env.similarityMillionths stream payload complete.earliest)
  perUtterance := embeddingSelection payload stream (some complete)

def commonSelection (span : UtrRegionSpan) (payload : List UtrPayloadWord) (stream : UtrLexicalStream)
    (mode : MatchMode) : UtrMatchSelection where
  selected := inspectedPairs env (payload.map UtrPayloadWord.text) stream.texts mode
  admission := commonProof env span payload stream mode
  perUtterance := embeddingSelection payload stream (embeddingsOf payload stream mode)

/-- `plan_utr_alignment_controlled`. -/
def planUtrAlignment (payload : List UtrPayloadWord) (stream : UtrLexicalStream) (span : UtrRegionSpan)
    (searched : List UtrUtteranceInfo) (mode : MatchMode) (participation : GlobalUtrParticipation)
    (contested : List ℕ) : Work LocalRegionPlan := do
  Work.check
  match uniqueEmbedding payload stream mode with
  | some complete =>
    pure (buildAlignmentPlan env.similarityMillionths .uniqueExactSubsequence payload stream
      (uniqueSelection env payload stream complete) span searched participation contested)
  | none =>
    Work.asks (env.correspondencePolls (payload.map UtrPayloadWord.text) stream.texts mode)
    Work.check
    pure (boundInteriorOnlySearches
      (buildAlignmentPlan env.similarityMillionths .globalDp payload stream
        (commonSelection env span payload stream mode) span searched participation contested) stream)

/-! ## Interleaved regions -/

inductive MeasuredEdges where
  | bullet (timing : TimeSpan)
  | tokenHull (latestStartMs earliestEndMs : ℕ)

namespace MeasuredEdges

def withToken (timing : TimeSpan) : Option MeasuredEdges → MeasuredEdges
  | none => tokenHull timing.startMs timing.endMs
  | some (bullet b) => bullet b
  | some (tokenHull latestStartMs earliestEndMs) =>
    tokenHull (max latestStartMs timing.startMs) (min earliestEndMs timing.endMs)

def afterEndMs : MeasuredEdges → ℕ
  | bullet b => b.endMs
  | tokenHull latestStartMs _ => latestStartMs

def atStartMs : MeasuredEdges → Option ℕ
  | bullet b => some b.startMs
  | tokenHull _ _ => none

def beforeStartMs : MeasuredEdges → ℕ
  | bullet b => b.startMs
  | tokenHull _ earliestEndMs => earliestEndMs

end MeasuredEdges

def turnsOf (searched : List UtrUtteranceInfo) (participation : GlobalUtrParticipation) :
    List Interleaving.SpeakerTurn :=
  searched.map fun info =>
    { speaker := info.speaker
      words := if info.excludedFrom participation then [] else info.units.texts
      continuation := if info.overlaps then .overlappingSpeakerRun else .separate }

def hull (a b : TimeSpan) : TimeSpan := ⟨min a.startMs b.startMs, max a.endMs b.endMs⟩

/-- The interval that may bound an endpoint: an uncontested positive observation of its word. -/
def endpointCandidate (stream : UtrLexicalStream) (contested : List ℕ) (sourceText text : String) (reference : ℕ) :
    Option TimeSpan :=
  stream[reference]?.bind fun lexical =>
    if lexical.units = 1 ∧ lexical.interval.startMs < lexical.interval.endMs ∧ sourceText = text ∧
        ¬ contested.contains lexical.address.tokenIndex then some lexical.interval
    else none

def extentOf (candidate : ℕ → Option TimeSpan) : List ℕ → Option TimeSpan → Option TimeSpan
  | [], extent => extent
  | r :: candidates, extent =>
    (candidate r).bind fun span => extentOf candidate candidates (some (extent.elim span fun old => hull old span))

/-- The hull of the candidates of a word that can be used whole, and whether all could be. -/
def candidateRange (stream : UtrLexicalStream) (sourceText text : String) :
    List ℕ → Option TimeSpan × Bool → Option TimeSpan × Bool
  | [], acc => acc
  | r :: candidates, (range, complete) =>
    match stream[r]? with
    | none => candidateRange stream sourceText text candidates (range, false)
    | some lexical =>
      if lexical.interval.endMs ≤ lexical.interval.startMs ∨ sourceText ≠ text then
        candidateRange stream sourceText text candidates (range, false)
      else
        candidateRange stream sourceText text candidates
          (some (range.elim lexical.interval fun old => hull old lexical.interval), complete)

structure JointFacts where
  range : Option TimeSpan
  complete : Bool
  seen : ℕ
  extents : EndpointExtents

def JointFacts.initial : JointFacts := ⟨none, true, 0, .unobserved⟩

section Joint
variable (stream : UtrLexicalStream) (contested : List ℕ) (analysis : LocalInterleaving)

def commonReference (evidence : Interleaving.WordEvidence) : Option ℕ :=
  match evidence.canBeMissing, evidence.candidates with
  | false, [reference] => some reference
  | _, _ => none

def JointFacts.observe (units : ℕ) (word : UtrPayloadWord) (source : ℕ) (evidence : Interleaving.WordEvidence)
    (facts : JointFacts) : JointFacts :=
  let index := word.address.unitIndex
  let text := (analysis.sourceText source).getD ""
  let extent :=
    if (index = 0 ∨ index = units - 1) ∧ evidence.canBeMissing = false then
      extentOf (endpointCandidate stream contested text word.text) evidence.candidates none
    else none
  let extents : EndpointExtents :=
    { first := if index = 0 then extent.or facts.extents.first else facts.extents.first
      last := if index = units - 1 then extent.or facts.extents.last else facts.extents.last }
  if evidence.canBeMissing || evidence.candidates.isEmpty then
    { facts with complete := false, seen := facts.seen + 1, extents := extents }
  else
    let ranged := candidateRange stream text word.text evidence.candidates (facts.range, facts.complete)
    { range := ranged.1, complete := ranged.2, seen := facts.seen + 1, extents := extents }

def observedWords (payload : List UtrPayloadWord) : List (Interleaving.WordEvidence × UtrPayloadWord × ℕ) :=
  (analysis.words.zip payload).zipIdx.map fun ((evidence, word), source) => (evidence, word, source)

def jointFacts (payload : List UtrPayloadWord) (utterance units : ℕ) : JointFacts :=
  ((observedWords analysis payload).filter fun (_, word, _) => word.address.utteranceIndex == utterance).foldl
    (fun facts (evidence, word, source) =>
      JointFacts.observe stream contested analysis units word source evidence facts) .initial

def jointAdmitted (payload : List UtrPayloadWord) : List AdmittedUtrWordMatch :=
  (observedWords analysis payload).filterMap fun (evidence, word, source) =>
    (commonReference evidence).bind fun reference =>
      admittedWord env.similarityMillionths stream reference word.address ((analysis.sourceText source).getD "")

def jointSelected (payload : List UtrPayloadWord) : List (ℕ × ℕ) :=
  analysis.selected.filterMap fun selected =>
    analysis.addresses[selected.source]?.bind fun address =>
      (payload.findIdx? fun word =>
        word.address.utteranceIndex == address.utterance && word.address.unitIndex == address.word).map
        fun index => (index, selected.reference)

/-- The extreme observations of an obligatory word, with its utterance. -/
def requiredBounds (source : ℕ) : Option (TimeSpan × ℕ) :=
  analysis.words[source]?.bind fun evidence =>
    (extentOf (fun reference => stream[reference]?.bind fun lexical =>
      if lexical.units = 1 then some lexical.interval else none) evidence.candidates none).map fun span =>
        (span, analysis.utteranceOf source)

end Joint

def speakerFloors : ℕ → (String → Option MeasuredBound) → List UtrUtteranceInfo → List (Option MeasuredBound)
  | _, _, [] => []
  | ordinal, previous, info :: rest =>
    previous info.speaker :: speakerFloors (ordinal + 1)
      ((boundingBullet info).elim previous fun timing =>
        Function.update previous info.speaker (raiseFloor ordinal (previous info.speaker) timing.endMs)) rest

def speakerCeilings : ℕ → List UtrUtteranceInfo → List (Option MeasuredBound) × (String → Option MeasuredBound)
  | _, [] => ([], fun _ => none)
  | ordinal, info :: rest =>
    let following := speakerCeilings (ordinal + 1) rest
    (following.2 info.speaker :: following.1, (boundingBullet info).elim following.2 fun timing =>
        Function.update following.2 info.speaker (lowerCeiling ordinal (following.2 info.speaker) timing.startMs))

/-- What an utterance offers its neighbours: its bullet, or the hull of its words' tokens. -/
def edgesOf (admitted : List AdmittedUtrWordMatch) (ordinal : ℕ) (info : UtrUtteranceInfo) : Option MeasuredEdges :=
  (admitted.filter fun m => m.matched.word.utteranceIndex == ordinal).foldl
    (fun edges m => some (MeasuredEdges.withToken m.timing edges)) (info.retainedTiming.map MeasuredEdges.bullet)

def documentFloors : ℕ → CorridorFloor → CorridorFloor → List (UtrUtteranceInfo × Option MeasuredEdges) →
    List CorridorFloor
  | _, _, _, [] => []
  | ordinal, forUnmarked, forMarked, (info, edges) :: rest =>
    let ownStart := if info.overlaps then forMarked else forUnmarked
    (if info.overlaps then .markedOverlapUnbounded else forUnmarked) ::
      match edges with
      | some measured =>
        documentFloors (ordinal + 1) (.precedingMeasured ⟨measured.afterEndMs, ordinal⟩)
          (measured.atStartMs.elim ownStart fun ms => .precedingMeasured ⟨ms, ordinal⟩) rest
      | none => documentFloors (ordinal + 1) ownStart ownStart rest

def documentCeilings : ℕ → List (UtrUtteranceInfo × Option MeasuredEdges) → List CorridorCeiling × CorridorCeiling
  | _, [] => ([], .fileEnd)
  | ordinal, (info, edges) :: rest =>
    let following := documentCeilings (ordinal + 1) rest
    (following.2 :: following.1, if info.overlaps then .followingOverlaps ordinal
      else edges.elim following.2 fun measured => .followingMeasured ⟨measured.beforeStartMs, ordinal⟩)

structure JointCorridors where
  speakerFloor : ℕ → Option MeasuredBound
  speakerCeiling : ℕ → Option MeasuredBound
  documentFloor : ℕ → CorridorFloor
  documentCeiling : ℕ → CorridorCeiling

def jointCorridors (searched : List UtrUtteranceInfo) (admitted : List AdmittedUtrWordMatch) : JointCorridors :=
  let measured := searched.mapIdx fun ordinal info => (info, edgesOf admitted ordinal info)
  { speakerFloor := fun i => ((speakerFloors 0 (fun _ => none) searched)[i]?).join
    speakerCeiling := fun i => ((speakerCeilings 0 searched).1[i]?).join
    documentFloor := fun i => ((documentFloors 0 .fileStart .fileStart measured)[i]?).getD .fileStart
    documentCeiling := fun i => ((documentCeilings 0 measured).1[i]?).getD .fileEnd }

def jointEnvelope (stream : UtrLexicalStream) (analysis : LocalInterleaving) (corridors : JointCorridors)
    (facts : JointFacts) (participation : GlobalUtrParticipation) (ordinal : ℕ) (info : UtrUtteranceInfo) :
    Option FaSearchEnvelope :=
  if facts.seen ≠ info.units.units.length ∨ info.units.units.isEmpty ∨ info.retainedTiming.isSome ∨
      info.excludedFrom participation then none
  else
    let speakerFloor := if info.overlaps then none else corridors.speakerFloor ordinal
    let speakerCeiling := if info.overlaps then none else corridors.speakerCeiling ordinal
    if facts.complete then
      facts.range.bind fun range =>
        FaSearchEnvelope.interleaved info.units.words range.startMs range.endMs
          ((speakerFloor.map MeasuredBound.ms).getD 0) (speakerCeiling.map MeasuredBound.ms)
    else if stream.onsetOrdered then
      analysis.searchFrontiers[ordinal]?.map fun frontier =>
        let floors := (analysis.precedingRequired frontier ordinal).filterMap fun source =>
          (requiredBounds stream analysis source).map fun (span, utterance) => (⟨span.startMs, utterance⟩ : MeasuredBound)
        let ceilings := (analysis.followingRequired frontier ordinal).filterMap fun source =>
          (requiredBounds stream analysis source).map fun (span, utterance) => (⟨span.endMs, utterance⟩ : MeasuredBound)
        .orderCorridor info.units.words
          ((speakerFloor.toList ++ floors).foldl (fun floor bound => floor.raisedTo bound) (corridors.documentFloor ordinal))
          ((speakerCeiling.toList ++ ceilings).foldl (fun ceiling bound => ceiling.loweredTo bound)
            (corridors.documentCeiling ordinal))
    else none

def jointRefusal (span : UtrRegionSpan) : Interleaving.Refusal → CorrespondenceProof
  | .budget budget => .budgetExhausted ⟨span, .interleaving budget⟩
  | .inconsistent inconsistency => .inconsistent ⟨span, inconsistency⟩

def jointSelection (stream : UtrLexicalStream) (payload : List UtrPayloadWord) (searched : List UtrUtteranceInfo)
    (participation : GlobalUtrParticipation) (contested : List ℕ) (analysis : LocalInterleaving) : UtrMatchSelection where
  selected := .ok (jointSelected analysis payload)
  admission := .complete (jointAdmitted env stream analysis payload)
  perUtterance := fun ordinal info =>
    let facts := jointFacts stream contested analysis payload ordinal info.units.units.length
    { envelope := jointEnvelope stream analysis
        (jointCorridors searched (jointAdmitted env stream analysis payload)) facts participation ordinal info
      endpoints := facts.extents }

def planInterleaving (stream : UtrLexicalStream) (span : UtrRegionSpan) (searched : List UtrUtteranceInfo)
    (mode : MatchMode) (participation : GlobalUtrParticipation) (contested : List ℕ) : Work LocalRegionPlan := do
  Work.check
  let payload := payloadOf searched participation
  let turns := turnsOf searched participation
  Work.asks (env.interleavePolls turns stream.texts mode)
  match env.interleave turns stream.texts mode with
  | .error refusal =>
    pure (buildAlignmentPlan env.similarityMillionths .localInterleaving payload stream
      { selected := .ok []
        admission := jointRefusal span refusal
        perUtterance := fun _ _ => .unsearched } span searched participation contested)
  | .ok analysis =>
    Work.asks (analysis.words.zip payload).length
    pure (buildAlignmentPlan env.similarityMillionths .localInterleaving payload stream
      (jointSelection env stream payload searched participation contested analysis) span searched participation contested)

/-! ## One region -/

/-- An interleaved file's regions are searched jointly, unless the region has
no tokens. -/
def planRegion (order : UtrOrderModel) (stream : UtrLexicalStream) (span : UtrRegionSpan)
    (searched : List UtrUtteranceInfo) (mode : MatchMode) (participation : GlobalUtrParticipation)
    (contested : List ℕ) : Work LocalRegionPlan := do
  Work.check
  if order = .interleaved ∧ stream ≠ [] then
    planInterleaving env stream span searched mode participation contested
  else
    planUtrAlignment env (payloadOf searched participation) stream span searched mode participation contested

end Batchalign.Utr
