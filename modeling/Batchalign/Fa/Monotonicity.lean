import Mathlib.Tactic
import Batchalign.Fa.MainBullets
import Batchalign.Lib.Sweep

/- Monotonicity enforcement (`fa/orchestrate.rs`, `fa/orchestrate/start_order.rs`). Pass 1 raises or
   strips a revisable bullet where its start regresses. Pass 2a resolves end overlaps along each
   speaker's stream, Pass 2b along file-adjacent pairs, each against the live file. -/
namespace Batchalign.Fa

inductive MonotonicityStrategy where
  | endClampedCoverageOnly
  | endClampedBoundaryFromWords
  | endClampedInterleavedWords
  | timingStripped
  | startRaisedToPrecedingStart
  | keptBulletLeftUnresolved
  | yieldedToKeptBullet

inductive FaStrategy where
  | gapFilled
  | boundaryAveraged
  | lisRemoval
  | wordsClampedToKeptBullet
  | wordsUntimedForKeptAbsence

inductive DecisionStrategy where
  | monotonicity (strategy : MonotonicityStrategy)
  | fa (strategy : FaStrategy)

structure DecisionRecord where
  lineIdx : ℕ
  speaker : String
  strategy : DecisionStrategy
  reason : String
  needsReview : Bool

structure OverlapEdge where
  lineIdx : ℕ
  utteranceIdx : ℕ
  speaker : String
  originalEndMs : ℕ
  nextLineIdx : ℕ
  nextUtteranceIdx : ℕ
  nextSpeaker : String

inductive KeptBulletYield where
  | startMoved (fromMs toMs : ℕ) (wordsTrimmed : List TrimmedWordTiming)
      (wordsDropped : List DroppedWordTiming)
  | stripped (startMs endMs : ℕ) (wordsDropped : List DroppedWordTiming)

/-- One bulleted utterance as Pass 1 sees it; the marker is whether it begins with `+<`. -/
structure StartOrderEntry where
  lineIdx : ℕ
  utteranceIdx : ℕ
  speaker : String
  startMs : ℕ
  endMs : ℕ
  precedesMarked : Bool

inductive MonotonicityEffect where
  | startRegressionStripped (entry previous : StartOrderEntry) (wordsDropped : List DroppedWordTiming)
  | startRegressionRaised (entry previous : StartOrderEntry) (wordsDropped : List DroppedWordTiming)
      (wordsTrimmed : List TrimmedWordTiming)
  | zeroDurationClampStripped (edge : OverlapEdge) (startMs nextStartMs : ℕ)
      (wordsDropped : List DroppedWordTiming)
  | endClampedCoverageOnly (edge : OverlapEdge) (clampedToMs : ℕ)
  | endClampedBoundaryFromWords (edge : OverlapEdge) (prevHullEndMs nextHullStartMs : ℕ)
  | endClampedInterleavedWords (edge : OverlapEdge) (clampedToMs : ℕ)
      (wordsTrimmed : List TrimmedWordTiming) (wordsDropped : List DroppedWordTiming)
  | yieldedToKeptBullet (lineIdx utteranceIdx : ℕ) (speaker : String)
      (keptLineIdx keptUtteranceIdx : ℕ) (keptSpeaker : String) (keptBoundaryMs : ℕ)
      (outcome : KeptBulletYield)

/-- The file under enforcement, the records, and the kept pairs reported as unresolved. -/
structure PassState where
  file : ChatFile
  decisions : List DecisionRecord
  effects : List MonotonicityEffect
  reported : List (ℕ × ℕ)

/-! ## Pass 1: start order -/

inductive StartOrderSource where
  | kept (facts : StartOrderEntry)
  | revisable (facts : StartOrderEntry)

def StartOrderSource.facts : StartOrderSource → StartOrderEntry
  | .kept facts => facts
  | .revisable facts => facts

def StartOrderSource.kept? : StartOrderSource → Option StartOrderEntry
  | .kept facts => some facts
  | .revisable _ => none

def startOrderEntry (lineIdx utteranceIdx : ℕ) (u : Utterance) (bullet : TimeSpan) : StartOrderEntry :=
  ⟨lineIdx, utteranceIdx, u.speaker, bullet.startMs, bullet.endMs, overlapsPreviousUtterance u⟩

def startOrderSource (lineIdx utteranceIdx : ℕ) (u : Utterance) (bullet : TimeSpan)
    (mutability : BulletMutability) : StartOrderSource :=
  match mutability with
  | .readOnly _ => .kept (startOrderEntry lineIdx utteranceIdx u bullet)
  | .revisable => .revisable (startOrderEntry lineIdx utteranceIdx u bullet)

def collectSources (authority : MainBulletAuthority) (entries : List (ℕ × ℕ × Utterance)) :
    Except KeptBulletError (List StartOrderSource) :=
  collectBulleted authority startOrderSource entries

inductive StripCause where
  | noOverlapMarker
  | nothingAfterPrecedingStart

def StripCause.asStr : StripCause → String
  | .noOverlapMarker => "no_overlap_marker"
  | .nothingAfterPrecedingStart => "nothing_after_preceding_start"

inductive StartOrderPosition where
  | accepted
  | regressing (previous : StartOrderEntry)
  | yielding (kept : StartOrderEntry)

def StartOrderEntry.classify (facts : StartOrderEntry) (previous nextKept : Option StartOrderEntry) :
    StartOrderPosition :=
  match previous.filter fun previous => facts.startMs < previous.startMs with
  | some previous => .regressing previous
  | none => match nextKept.filter fun kept => kept.startMs < facts.startMs with
    | some kept => .yielding kept
    | none => .accepted

inductive StartRegressionResolution where
  | stripped (timing : StrippedTiming) (cause : StripCause)
  | raisedToPrecedingStart (wordsDropped : List DroppedWordTiming)
      (wordsTrimmed : List TrimmedWordTiming)

section Passes
variable (W : ContentWalker)

/-- `StartRegression::resolve` on the utterance. -/
def resolveStartRegression (facts previous : StartOrderEntry) (u : Utterance) :
    Utterance × StartRegressionResolution :=
  let newStart := previous.startMs
  if facts.precedesMarked then
    let timedExtentSurvives := match furthestWordTimingEnd W u with
      | none => true
      | some furthestEnd => decide (newStart < furthestEnd)
    if facts.endMs ≤ newStart ∨ timedExtentSurvives = false then
      let stripped := stripUtteranceTiming W u
      (stripped.1, .stripped stripped.2 .nothingAfterPrecedingStart)
    else
      let raised := raiseBulletStart W u newStart
      (raised.1, .raisedToPrecedingStart raised.2.dropped raised.2.trimmed)
  else
    let stripped := stripUtteranceTiming W u
    (stripped.1, .stripped stripped.2 .noOverlapMarker)

/-- Every start-order decision needs review. -/
def startOrderRecord (entry : StartOrderEntry) (strategy : MonotonicityStrategy) (reason : String) :
    DecisionRecord :=
  ⟨entry.lineIdx, entry.speaker, .monotonicity strategy, reason, true⟩

/-- What Pass 1 knows after the entries it has passed. -/
structure StartOrderState where
  pass : PassState
  lastAccepted : Option StartOrderEntry
  lastKept : Option StartOrderEntry

def startConflict (entry previous : StartOrderEntry) : String :=
  "non_monotonic start_ms=" ++ toString entry.startMs ++ " previous_start_ms=" ++
    toString previous.startMs ++ " previous_line_idx=" ++ toString previous.lineIdx ++
    " previous_speaker=" ++ previous.speaker

/-- A kept start becomes the accepted one, unless it regresses, which is recorded. -/
def keptStartStep (st : StartOrderState) (entry : StartOrderEntry) : StartOrderState :=
  match st.lastKept.filter fun previous => entry.startMs < previous.startMs with
  | some previous =>
    { st with pass := { st.pass with
        decisions := st.pass.decisions ++ [startOrderRecord entry .keptBulletLeftUnresolved
          ("non_monotonic kept_main_bullet start_ms=" ++ toString entry.startMs ++
            " previous_start_ms=" ++ toString previous.startMs ++ " previous_line_idx=" ++
            toString previous.lineIdx ++ " previous_speaker=" ++ previous.speaker)] } }
  | none => { st with lastKept := some entry, lastAccepted := some entry }

def regressingStep (st : StartOrderState) (entry previous : StartOrderEntry) (u : Utterance) :
    StartOrderState :=
  let (resolved, resolution) := resolveStartRegression W entry previous u
  let file := modifyUtterance st.pass.file entry.lineIdx fun _ => resolved
  match resolution with
  | .stripped timing cause =>
    { st with pass := { st.pass with
        file := file
        decisions := st.pass.decisions ++ [startOrderRecord entry .timingStripped
          (startConflict entry previous ++ " cause=" ++ cause.asStr)]
        effects := st.pass.effects ++ [.startRegressionStripped entry previous timing.wordsDropped] } }
  | .raisedToPrecedingStart wordsDropped wordsTrimmed =>
    { st with pass := { st.pass with
        file := file
        decisions := st.pass.decisions ++ [startOrderRecord entry .startRaisedToPrecedingStart
          (startConflict entry previous ++ " overlap_marker=+< words_dropped=" ++
            toString wordsDropped.length ++ " words_trimmed=" ++ toString wordsTrimmed.length)]
        effects := st.pass.effects ++
          [.startRegressionRaised entry previous wordsDropped wordsTrimmed] } }

def yieldingStep (st : StartOrderState) (entry kept : StartOrderEntry) (u : Utterance) :
    StartOrderState :=
  let stripped := stripUtteranceTiming W u
  { st with pass := { st.pass with
      file := modifyUtterance st.pass.file entry.lineIdx fun _ => stripped.1
      decisions := st.pass.decisions ++ [startOrderRecord entry .timingStripped
        ("yielded_to_kept_start start_ms=" ++ toString entry.startMs ++ " kept_start_ms=" ++
          toString kept.startMs ++ " kept_line_idx=" ++ toString kept.lineIdx ++
          " kept_speaker=" ++ kept.speaker)]
      effects := st.pass.effects ++ [.yieldedToKeptBullet entry.lineIdx entry.utteranceIdx
        entry.speaker kept.lineIdx kept.utteranceIdx kept.speaker kept.startMs
        (.stripped entry.startMs entry.endMs stripped.2.wordsDropped)] } }

def startOrderStep (st : StartOrderState) (source : StartOrderSource)
    (nextKept : Option StartOrderEntry) : StartOrderState :=
  match source with
  | .kept entry => keptStartStep st entry
  | .revisable entry =>
    match getUtterance st.pass.file entry.lineIdx with
    | none => st
    | some u => match entry.classify st.lastAccepted nextKept with
      | .regressing previous => regressingStep W st entry previous u
      | .yielding kept => yieldingStep W st entry kept u
      | .accepted => { st with lastAccepted := some entry }

def withNextKept : List StartOrderSource → List (StartOrderSource × Option StartOrderEntry)
  | [] => []
  | source :: rest => (source, rest.findSome? StartOrderSource.kept?) :: withNextKept rest

/-- One turn of the loop of `enforce_start_order`: it never fails. -/
def startOrderAt (st : StartOrderState) (x : StartOrderSource × Option StartOrderEntry) :
    Except KeptBulletError StartOrderState := .ok (startOrderStep W st x.1 x.2)

def startOrderSweep (st : StartOrderState) (sources : List StartOrderSource) :
    Except KeptBulletError StartOrderState := Sweep.run (startOrderAt W) st (withNextKept sources)

def enforceStartOrder (authority : MainBulletAuthority) (s : PassState) :
    Except KeptBulletError PassState :=
  match collectSources authority (utterancesIndexed s.file) with
  | .error e => .error e
  | .ok sources => match startOrderSweep W ⟨s, none, none⟩ sources with
    | .error e => .error e
    | .ok st => .ok st.pass

/-! ## Pass 2: end overlaps -/

inductive EndOverlapResolution where
  | coverageOnly (hullEndMs : Option ℕ)
  | boundaryFromWords (prevHullEndMs nextHullStartMs : ℕ)
  | interleavedWords
  deriving DecidableEq

def classifyEndOverlap (prevHullEndMs : Option ℕ) (nextStartMs : ℕ) (nextHullStartMs : Option ℕ)
    (nextSuccessorStartMs : Option ℕ) : EndOverlapResolution :=
  match prevHullEndMs with
  | none => .coverageOnly none
  | some hullEndMs =>
    if hullEndMs ≤ nextStartMs then .coverageOnly (some hullEndMs)
    else match nextHullStartMs with
      | none => .interleavedWords
      | some nextHullStartMs =>
        if hullEndMs ≤ nextHullStartMs ∧ (match nextSuccessorStartMs with
            | some successorStartMs => decide (nextHullStartMs < successorStartMs)
            | none => true) = true then
          .boundaryFromWords hullEndMs nextHullStartMs
        else .interleavedWords

def EndOverlapResolution.keepingNextStart : EndOverlapResolution → EndOverlapResolution
  | .coverageOnly hullEndMs => .coverageOnly hullEndMs
  | .interleavedWords => .interleavedWords
  | .boundaryFromWords _ _ => .interleavedWords

def EndOverlapResolution.needsReview : EndOverlapResolution → Bool
  | .interleavedWords => true
  | _ => false

def EndOverlapResolution.strategy : EndOverlapResolution → MonotonicityStrategy
  | .coverageOnly _ => .endClampedCoverageOnly
  | .boundaryFromWords _ _ => .endClampedBoundaryFromWords
  | .interleavedWords => .endClampedInterleavedWords

def EndOverlapResolution.reason (resolution : EndOverlapResolution) (overlapMs clampedToMs : ℕ)
    (wordsClamped : ClampedWordCounts) : String :=
  match resolution with
  | .coverageOnly hullEndMs =>
    "end_truncated_by=" ++ toString overlapMs ++ "ms clamped_to=" ++
      toString (hullEndMs.getD clampedToMs) ++
      "                      cuts_word_timing=false resolution=coverage_only" ++
      "                      cause=adjacent_utterance_overlap"
  | .boundaryFromWords prevHullEndMs nextHullStartMs =>
    "end_truncated_by=" ++ toString overlapMs ++ "ms clamped_to=" ++ toString prevHullEndMs ++
      "                  cuts_word_timing=false resolution=boundary_from_words" ++
      "                  next_hull_start=" ++ toString nextHullStartMs ++ " cause=adjacent_utterance_overlap"
  | .interleavedWords =>
    "end_truncated_by=" ++ toString overlapMs ++ "ms clamped_to=" ++ toString clampedToMs ++
      "                  cuts_word_timing=true resolution=interleaved_words" ++
      "                  words_trimmed=" ++ toString wordsClamped.trimmed.length ++ " words_dropped=" ++
      toString wordsClamped.dropped.length ++ " cause=adjacent_utterance_overlap"

/-- The live start of the next bulleted utterance. -/
def fileOrderSuccessorStartMs (file : ChatFile) (afterLineIdx : ℕ) : Option ℕ :=
  (file.drop (afterLineIdx + 1)).findSome? fun line =>
    (line.utterance?.bind Utterance.parsedBullet).map TimeSpan.startMs

structure OverlapPairIdentity where
  prevLineIdx : ℕ
  prevUtteranceIdx : ℕ
  nextLineIdx : ℕ
  nextUtteranceIdx : ℕ

structure OverlapFacts where
  edge : OverlapEdge
  prevStartMs : ℕ
  nextStartMs : ℕ

def overlapFacts (pair : OverlapPairIdentity) (prev : Utterance) (prevBullet nextBullet : TimeSpan)
    (nextSpeaker : String) : OverlapFacts where
  edge := ⟨pair.prevLineIdx, pair.prevUtteranceIdx, prev.speaker, prevBullet.endMs,
    pair.nextLineIdx, pair.nextUtteranceIdx, nextSpeaker⟩
  prevStartMs := prevBullet.startMs
  nextStartMs := nextBullet.startMs

def OverlapFacts.overlapMs (facts : OverlapFacts) : ℕ := facts.edge.originalEndMs - facts.nextStartMs

inductive NextStart where
  | movable
  | kept

def NextStart.admit : NextStart → EndOverlapResolution → EndOverlapResolution
  | .movable, classified => classified
  | .kept, classified => classified.keepingNextStart

/-- The resolution of a pair whose previous bullet is revisable and starts before the next. -/
def revisableResolution (file : ChatFile) (facts : OverlapFacts) (next : NextStart) :
    EndOverlapResolution :=
  next.admit (classifyEndOverlap
    ((getUtterance file facts.edge.lineIdx).bind (furthestWordTimingEnd W)) facts.nextStartMs
    ((getUtterance file facts.edge.nextLineIdx).bind (earliestWordTimingStart W))
    (fileOrderSuccessorStartMs file facts.edge.nextLineIdx))

def stripPrev (s : PassState) (facts : OverlapFacts) (next : NextStart) (prev : Utterance) : PassState :=
  let edge := facts.edge
  let stripped := stripUtteranceTiming W prev
  let cause := match next with
    | .movable => "utr_identical_start_times"
    | .kept => "yielded_to_kept_start"
  { s with
    file := modifyUtterance s.file edge.lineIdx fun _ => stripped.1
    decisions := s.decisions ++ [⟨edge.lineIdx, edge.speaker, .monotonicity .timingStripped,
      "zero_duration_clamp original_end=" ++ toString edge.originalEndMs ++ " next_start=" ++
        toString facts.nextStartMs ++ " start_ms=" ++ toString facts.prevStartMs ++ " cause=" ++
        cause, true⟩]
    effects := s.effects ++
      [.zeroDurationClampStripped edge facts.prevStartMs facts.nextStartMs stripped.2.wordsDropped] }

def overlapRecord (facts : OverlapFacts) (resolution : EndOverlapResolution)
    (wordsClamped : ClampedWordCounts) : DecisionRecord :=
  ⟨facts.edge.lineIdx, facts.edge.speaker, .monotonicity resolution.strategy,
    resolution.reason facts.overlapMs facts.nextStartMs wordsClamped, resolution.needsReview⟩

/-- The previous side is cut or stripped; a movable next start may move to its
word hull. -/
def resolveRevisablePrev (s : PassState) (facts : OverlapFacts) (next : NextStart)
    (prev : Utterance) : PassState :=
  let edge := facts.edge
  if facts.nextStartMs ≤ facts.prevStartMs then stripPrev W s facts next prev
  else
    let resolution := revisableResolution W s.file facts next
    match resolution with
    | .coverageOnly hullEndMs =>
      let clampedToMs := hullEndMs.getD facts.nextStartMs
      { s with
        file := modifyUtterance s.file edge.lineIdx fun u => u.setEnd clampedToMs
        decisions := s.decisions ++ [overlapRecord facts resolution .default]
        effects := s.effects ++ [.endClampedCoverageOnly edge clampedToMs] }
    | .boundaryFromWords prevHullEndMs nextHullStartMs =>
      { s with
        file := modifyUtterance (modifyUtterance s.file edge.lineIdx fun u => u.setEnd prevHullEndMs)
          edge.nextLineIdx fun u => u.setStart nextHullStartMs
        decisions := s.decisions ++ [overlapRecord facts resolution .default]
        effects := s.effects ++ [.endClampedBoundaryFromWords edge prevHullEndMs nextHullStartMs] }
    | .interleavedWords =>
      let clamped := clampWordsPastBound W (prev.setEnd facts.nextStartMs) facts.nextStartMs
      { s with
        file := modifyUtterance s.file edge.lineIdx fun _ => clamped.1
        decisions := s.decisions ++ [overlapRecord facts resolution clamped.2]
        effects := s.effects ++ [.endClampedInterleavedWords edge facts.nextStartMs
          clamped.2.trimmed clamped.2.dropped] }

inductive KeptEndYield where
  | startToKeptEnd
  | leadingWordsClamped
  | strip
  deriving DecidableEq

def KeptEndYield.keepingPrevEnd (keptEndMs nextEndMs : ℕ) (nextHullStartMs nextSuccessorStartMs : Option ℕ) :
    KeptEndYield :=
  let passesSuccessor := match nextSuccessorStartMs with
    | some successorStartMs => decide (successorStartMs < keptEndMs)
    | none => false
  if keptEndMs < nextEndMs ∧ passesSuccessor = false then
    match nextHullStartMs with
    | some hullStartMs => if hullStartMs < keptEndMs then .leadingWordsClamped else .startToKeptEnd
    | none => .startToKeptEnd
  else .strip

/-- Only the next utterance changes. -/
def yieldNextToKeptEnd (s : PassState) (facts : OverlapFacts) (keptPrev : KeptBullet)
    (next : Utterance) (nextBullet : TimeSpan) : PassState :=
  let edge := facts.edge
  let keptEnd := keptPrev.endMs
  let yielded := KeptEndYield.keepingPrevEnd keptEnd nextBullet.endMs (earliestWordTimingStart W next)
    (fileOrderSuccessorStartMs s.file edge.nextLineIdx)
  let (changed, strategy, outcome, needsReview, cause) :=
    match yielded with
    | .strip =>
      let stripped := stripUtteranceTiming W next
      (stripped.1, MonotonicityStrategy.timingStripped,
        KeptBulletYield.stripped facts.nextStartMs nextBullet.endMs stripped.2.wordsDropped, true,
        "no_room_after_kept_end")
    | .startToKeptEnd | .leadingWordsClamped =>
      let raised := raiseBulletStart W next keptEnd
      (raised.1, MonotonicityStrategy.yieldedToKeptBullet,
        KeptBulletYield.startMoved facts.nextStartMs keptEnd raised.2.trimmed raised.2.dropped,
        !raised.2.trimmed.isEmpty || !raised.2.dropped.isEmpty, "start_moved_to_kept_end")
  { s with
    file := modifyUtterance s.file edge.nextLineIdx fun _ => changed
    decisions := s.decisions ++ [⟨edge.nextLineIdx, edge.nextSpeaker, .monotonicity strategy,
      "yielded_to_kept_end start_ms=" ++ toString facts.nextStartMs ++ " end_ms=" ++
        toString nextBullet.endMs ++ " kept_end=" ++ toString keptEnd ++ " kept_line_idx=" ++
        toString edge.lineIdx ++ " kept_speaker=" ++ edge.speaker ++ " cause=" ++ cause,
      needsReview⟩]
    effects := s.effects ++ [.yieldedToKeptBullet edge.nextLineIdx edge.nextUtteranceIdx
      edge.nextSpeaker edge.lineIdx edge.utteranceIdx edge.speaker keptEnd outcome] }

def reportKeptPair (s : PassState) (facts : OverlapFacts) : PassState :=
  let edge := facts.edge
  if (edge.utteranceIdx, edge.nextUtteranceIdx) ∈ s.reported then s
  else
    { s with
      reported := (edge.utteranceIdx, edge.nextUtteranceIdx) :: s.reported
      decisions := s.decisions ++ [⟨edge.lineIdx, edge.speaker,
        .monotonicity .keptBulletLeftUnresolved,
        "end_overlap kept_main_bullet start_ms=" ++ toString facts.prevStartMs ++
          " original_end=" ++ toString edge.originalEndMs ++ " next_start=" ++
          toString facts.nextStartMs ++ " overlap=" ++ toString facts.overlapMs ++
          "ms next_line_idx=" ++ toString edge.nextLineIdx ++ " next_speaker=" ++
          edge.nextSpeaker ++ " cause=adjacent_kept_bullets_overlap",
        edge.speaker == edge.nextSpeaker⟩] }

/-- One pair against the live file. -/
def resolveEndOverlapPair (authority : MainBulletAuthority) (nextSpeaker : String) (s : PassState)
    (pair : OverlapPairIdentity) : Except KeptBulletError PassState :=
  match getUtterance s.file pair.nextLineIdx with
  | none => .ok s
  | some next =>
  match next.parsedBullet with
  | none => .ok s
  | some nextBullet =>
  match authority.mutability pair.nextUtteranceIdx nextBullet with
  | .error e => .error e
  | .ok nextMutability =>
  match getUtterance s.file pair.prevLineIdx with
  | none => .ok s
  | some prev =>
  match prev.parsedBullet with
  | none => .ok s
  | some prevBullet =>
  if prevBullet.endMs ≤ nextBullet.startMs then .ok s
  else
  match authority.mutability pair.prevUtteranceIdx prevBullet with
  | .error e => .error e
  | .ok prevMutability =>
    let facts := overlapFacts pair prev prevBullet nextBullet nextSpeaker
    match prevMutability, nextMutability with
    | .revisable, .revisable => .ok (resolveRevisablePrev W s facts .movable prev)
    | .revisable, .readOnly _ => .ok (resolveRevisablePrev W s facts .kept prev)
    | .readOnly keptPrev, .revisable => .ok (yieldNextToKeptEnd W s facts keptPrev next nextBullet)
    | .readOnly _, .readOnly _ => .ok (reportKeptPair s facts)

def resolveListed (authority : MainBulletAuthority) (s : PassState)
    (x : String × OverlapPairIdentity) : Except KeptBulletError PassState :=
  resolveEndOverlapPair W authority x.1 s x.2

def resolvePairs (authority : MainBulletAuthority) :
    PassState → List (String × OverlapPairIdentity) → Except KeptBulletError PassState :=
  Sweep.run (resolveListed W authority)

/-- A bulleted utterance as a sweep lists it, whether or not its bullet parsed. -/
structure TimedLine where
  lineIdx : ℕ
  utteranceIdx : ℕ
  speaker : String
  deriving DecidableEq

def timedLines (file : ChatFile) : List TimedLine :=
  (utterancesIndexed file).filterMap fun (lineIdx, utteranceIdx, u) =>
    if u.bullet.isSome then some ⟨lineIdx, utteranceIdx, u.speaker⟩ else none

def TimedLine.pairWith (prev next : TimedLine) : String × OverlapPairIdentity :=
  (next.speaker, ⟨prev.lineIdx, prev.utteranceIdx, next.lineIdx, next.utteranceIdx⟩)

def windows {α : Type} : List α → List (α × α)
  | prev :: next :: rest => (prev, next) :: windows (next :: rest)
  | _ => []

def speakerOrder (speakers : List String) : List String :=
  speakers.foldl (fun seen speaker => if speaker ∈ seen then seen else seen ++ [speaker]) []

def streamPairs (lines : List TimedLine) : List (String × OverlapPairIdentity) :=
  (speakerOrder (lines.map TimedLine.speaker)).flatMap fun speaker =>
    (windows (lines.filter fun line => line.speaker == speaker)).map fun (prev, next) =>
      prev.pairWith next

/-- `resolve_same_speaker_stream_overlaps` (Pass 2a). -/
def resolveSameSpeakerStreamOverlaps (authority : MainBulletAuthority) (s : PassState) :
    Except KeptBulletError PassState :=
  resolvePairs W authority s (streamPairs (timedLines s.file))

inductive EndOverlapPolicy where
  | clampAllAdjacent
  | preserveCrossSpeaker
  deriving DecidableEq

def EndOverlapPolicy.shouldClamp (policy : EndOverlapPolicy) (earlierSpeaker nextSpeaker : String) :
    Bool :=
  match policy with
  | .clampAllAdjacent => true
  | .preserveCrossSpeaker => earlierSpeaker == nextSpeaker

def adjacentPairs (policy : EndOverlapPolicy) (lines : List TimedLine) :
    List (String × OverlapPairIdentity) :=
  ((windows lines).filter fun (prev, next) => policy.shouldClamp prev.speaker next.speaker).map
    fun (prev, next) => prev.pairWith next

def resolveAdjacentOverlaps (authority : MainBulletAuthority) (policy : EndOverlapPolicy)
    (s : PassState) : Except KeptBulletError PassState :=
  resolvePairs W authority s (adjacentPairs policy (timedLines s.file))

def enforceMonotonicityUnder (authority : MainBulletAuthority) (policy : EndOverlapPolicy)
    (file : ChatFile) : Except KeptBulletError PassState :=
  match enforceStartOrder W authority ⟨file, [], [], []⟩ with
  | .error e => .error e
  | .ok s1 =>
    match resolveSameSpeakerStreamOverlaps W authority s1 with
    | .error e => .error e
    | .ok s2 => resolveAdjacentOverlaps W authority policy s2

end Passes

end Batchalign.Fa
