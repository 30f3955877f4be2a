import Batchalign.Fa.Grouping
import Batchalign.Utr.Projection

/- The two-pass strategy (`fa/utr/two_pass.rs`). The global pass, usually without the marked overlaps;
   then each of those from the window of the bullet before it. Counts are taken again from a census. The
   caller's file becomes one of two copies. -/
namespace Batchalign.Utr
open Fa DpAlign Polled

/-! ## Configuration -/

inductive CaMarkerPolicy where
  | enabled
  | disabled

def CaMarkerPolicy.isEnabled : CaMarkerPolicy → Bool
  | .enabled => true
  | .disabled => false

inductive UtrMatchMode where
  | exact
  | fuzzy (policy : FuzzyComparison)

def UtrMatchMode.toDpMatchMode : UtrMatchMode → MatchMode
  | .exact => .caseInsensitive
  | .fuzzy policy => .fuzzy policy

structure UtrOverlapDensityThreshold where
  allows : ℕ → ℕ → Bool

structure TwoPassConfig where
  caMarkers : CaMarkerPolicy
  maxExclusionDensity : UtrOverlapDensityThreshold
  tightBufferMs : ℕ
  matchMode : UtrMatchMode

structure GroupingContext where
  recording : Recording
  aggregationTarget : ℕ

structure TwoPassOverlapUtr where
  groupingContext : Option GroupingContext
  config : TwoPassConfig

/-- Beside the first pass: the scaled onset in a predecessor, and how often a search asks its control. -/
structure TwoPassEnv extends SearchEnv where
  onsetOffset : OnsetFraction → ℕ → ℕ
  admissionPolls : List String → List String → MatchMode → ℕ

def wrapped (n : ℕ) : ℕ := n % 2 ^ 64

variable (env : TwoPassEnv)

/-! ## One overlap -/

def isRecoverableOverlap (config : TwoPassConfig) (info : UtrUtteranceInfo) : Bool :=
  match info.presence with
  | .notInRecording _ => false
  | .inRecording => info.hasLazyOverlap || (config.caMarkers.isEnabled && info.hasCaOverlap)

def findPredecessorBullet (i : ℕ) (bullets : List (Option TimeSpan)) : Option TimeSpan :=
  (bullets.take i).reverse.findSome? id

/-- The first loop of `find_predecessor_onset_fraction`: another speaker's top region, no further back than a
  bullet. -/
def pairedOnset (current : UtrUtteranceInfo) : List UtrUtteranceInfo → Option OnsetFraction
  | [] => none
  | previous :: earlier =>
    if previous.speaker = current.speaker then pairedOnset current earlier
    else
      match previous.topOnsets.find? fun (index, _) =>
          current.bottomIndices.isEmpty || current.bottomIndices.contains index with
      | some (_, fraction) => some fraction
      | none => if previous.retainedTiming.isSome then none else pairedOnset current earlier

def anyOnset : List UtrUtteranceInfo → Option OnsetFraction
  | [] => none
  | previous :: earlier =>
    match previous.overlapOnsetFraction with
    | some fraction => some fraction
    | none => if previous.retainedTiming.isSome then none else anyOnset earlier

def findPredecessorOnsetFraction (i : ℕ) (current : UtrUtteranceInfo) (infos : List UtrUtteranceInfo) :
    Option OnsetFraction :=
  (pairedOnset current (infos.take i).reverse).or
    (if current.bottomIndices.isEmpty then anyOnset (infos.take i).reverse else none)

def windowedInterval (words : UtrChatUnits) (windowed : UtrLexicalStream) (mode : MatchMode) :
    Option PositiveUtrInterval :=
  match CorrespondenceAdmission.observe words.texts windowed.texts mode with
  | .budgetExhausted _ => none
  | .complete common =>
    match NonEmptyMatches.fromVec
        (commonMatches env.similarityMillionths windowed common (UtrPayloadWord.ofUnits 0 words)) with
    | none => none
    | some found =>
      match admitEndpoints found words.units.length .unobserved with
      | .interior _ _ => none
      | .bound bound =>
        match bound.proposal with
        | .positive interval => some interval
        | .nonPositive _ _ => none

/-- `recover_overlap_timing_controlled`. -/
def recoverOverlapTiming (words : UtrChatUnits) (tokens : PreparedUtrTokens) (windowStartMs windowEndMs : ℕ)
    (mode : MatchMode) : Work (Option PositiveUtrInterval) := do
  Work.check
  let windowed := withinWindow env.chars tokens windowStartMs windowEndMs
  if windowed = [] then pure none
  else
    Work.asks (env.admissionPolls words.texts windowed.texts mode)
    pure (windowedInterval env words windowed mode)

def recoverWithin (words : UtrChatUnits) (tokens : PreparedUtrTokens) (anchorStart predEnd : ℕ) (mode : MatchMode) :
    List ℕ → Work (Option PositiveUtrInterval)
  | [] => pure none
  | bufferMs :: buffers => do
    match ← recoverOverlapTiming env words tokens (anchorStart - bufferMs) (wrapped (predEnd + bufferMs)) mode with
    | some interval => pure (some interval)
    | none => recoverWithin words tokens anchorStart predEnd mode buffers

/-- `recover_with_adaptive_window_controlled`. -/
def recoverWithAdaptiveWindow (words : UtrChatUnits) (tokens : PreparedUtrTokens) (i : ℕ)
    (bullets : List (Option TimeSpan)) (onset : Option OnsetFraction) (config : TwoPassConfig) :
    Work (Option PositiveUtrInterval) := do
  Work.check
  match findPredecessorBullet i bullets with
  | none => pure none
  | some predecessor =>
    let duration := predecessor.endMs - predecessor.startMs
    let anchorStart := onset.elim predecessor.startMs fun fraction =>
      wrapped (predecessor.startMs + env.onsetOffset fraction duration)
    recoverWithin env words tokens anchorStart predecessor.endMs config.matchMode.toDpMatchMode
      [config.tightBufferMs, max duration 2000, max (wrapped (duration * 2)) 5000]

def recoverOverlap (tokens : PreparedUtrTokens) (config : TwoPassConfig) (infos : List UtrUtteranceInfo)
    (bullets : List (Option TimeSpan)) (entry : UtrUtteranceInfo × ℕ) : Work (Option PositiveUtrInterval) := do
  Work.check
  if !isRecoverableOverlap config entry.1 || entry.1.retainedTiming.isSome || entry.1.units.units.isEmpty then pure none
  else
    recoverWithAdaptiveWindow env entry.1.units tokens entry.2 bullets
      (if config.caMarkers.isEnabled then findPredecessorOnsetFraction entry.2 entry.1 infos else none) config

/-! ## The census of bullets -/

inductive UtrSlot where
  | timed
  | untimed
  | notInRecording
  deriving DecidableEq

/-- One entry of `UtrBulletPopulation::from_infos`. -/
def UtrUtteranceInfo.slot (info : UtrUtteranceInfo) : UtrSlot :=
  match info.presence, info.retainedTiming with
  | .notInRecording _, _ => .notInRecording
  | .inRecording, some _ => .timed
  | .inRecording, none => .untimed

/-- `UtrBulletsAfter::from_chat`: whether each utterance has a bullet. -/
def bulletsAfter (file : ChatFile) : List Bool := (utterancesOf file).map fun u => u.bullet.isSome

inductive UtrPopulationChanged where
  | count (before after : ℕ)
  | offRecordTimed (utterance : ℕ)

structure UtrFinalCounts where
  skipped : ℕ
  injected : ℕ
  unmatched : ℕ

/-- The loop of `transition_to`. -/
def countSlots : ℕ → UtrFinalCounts → List (UtrSlot × Bool) → Except UtrPopulationChanged UtrFinalCounts
  | _, counts, [] => .ok counts
  | i, counts, (.notInRecording, false) :: rest => countSlots (i + 1) counts rest
  | i, _, (.notInRecording, true) :: _ => .error (.offRecordTimed i)
  | i, counts, (.timed, _) :: rest => countSlots (i + 1) { counts with skipped := counts.skipped + 1 } rest
  | i, counts, (.untimed, true) :: rest => countSlots (i + 1) { counts with injected := counts.injected + 1 } rest
  | i, counts, (.untimed, false) :: rest => countSlots (i + 1) { counts with unmatched := counts.unmatched + 1 } rest

def transitionTo (before : List UtrSlot) (after : List Bool) : Except UtrPopulationChanged UtrFinalCounts :=
  if before.length ≠ after.length then .error (.count before.length after.length)
  else countSlots 0 ⟨0, 0, 0⟩ (before.zip after)

/-! ## The pass -/

def UtrAlignmentEvidence.withOverlapRecoveries (recoveries : List (ℕ × ℕ × ℕ)) :
    UtrAlignmentEvidence → UtrAlignmentEvidence
  | .global plan => .twoPass plan recoveries
  | .notRunNoUntimed => .notRunNoUntimed
  | .twoPass firstPass earlier => .twoPass firstPass earlier

def overlapRecoveries (recovered : List (Option PositiveUtrInterval)) : List (ℕ × ℕ × ℕ) :=
  recovered.zipIdx.filterMap fun (interval, i) => interval.map fun interval => (i, interval.startMs, interval.endMs)

def recoveredLines (file : ChatFile) (recovered : List (Option PositiveUtrInterval)) : List ℕ :=
  ((utterancesIndexed file).zip recovered).filterMap fun ((lineIdx, _, _), interval) => interval.map fun _ => lineIdx

def skipInPass1 (config : TwoPassConfig) (infos : List UtrUtteranceInfo) : Bool :=
  infos.isEmpty || config.maxExclusionDensity.allows (infos.countP (isRecoverableOverlap config)) infos.length

def firstPass (file : ChatFile) (tokens : PreparedUtrTokens) (config : TwoPassConfig) : Work (ChatFile × UtrResult) :=
  runGlobalUtrControlled env.toSearchEnv file tokens
    (if skipInPass1 config (collectUtrUtteranceInfo env.toCensusEnv tokens.units file) then .excludeMarkedOverlap
      else .allUtterances) config.matchMode.toDpMatchMode

def secondPass (file : ChatFile) (tokens : PreparedUtrTokens) (config : TwoPassConfig) :
    Work (List (Option PositiveUtrInterval)) :=
  (collectUtrUtteranceInfo env.toCensusEnv tokens.units file).zipIdx.mapM
    (recoverOverlap env tokens config (collectUtrUtteranceInfo env.toCensusEnv tokens.units file)
      ((utterancesOf file).map Utterance.parsedBullet))

def UtrResult.recount (result : UtrResult) (file : ChatFile) (recovered : List (Option PositiveUtrInterval))
    (counts : UtrFinalCounts) : UtrResult :=
  { result with
    skipped := counts.skipped
    injected := counts.injected
    unmatched := counts.unmatched
    decisions := result.decisions.filter fun record => !(recoveredLines file recovered).contains record.lineIdx
    alignment := result.alignment.withOverlapRecoveries (overlapRecoveries recovered) }

/-- The file it leaves, and the result or what changed the
population. -/
def runTwoPassInner (file : ChatFile) (tokens : PreparedUtrTokens) (config : TwoPassConfig) :
    Work (ChatFile × Except UtrPopulationChanged UtrResult) := do
  Work.check
  let first ← firstPass env file tokens config
  if tokens.tokens = [] then
    pure (first.1, .ok { first.2 with alignment := first.2.alignment.withOverlapRecoveries [] })
  else
    let recovered ← secondPass env first.1 tokens config
    pure (applyHints first.1 recovered,
      (transitionTo ((collectUtrUtteranceInfo env.toCensusEnv tokens.units file).map UtrUtteranceInfo.slot)
        (bulletsAfter (applyHints first.1 recovered))).map (first.2.recount first.1 recovered))

/-! ## The strategy -/

def countTimedUtterances (file : ChatFile) : ℕ := (utterancesOf file).countP fun u => u.bullet.isSome

def groupCount (context : GroupingContext) (file : ChatFile) : ℕ :=
  ((groupWithPolicy ⟨env.walker, env.domain, fun _ _ => none⟩ context.recording context.aggregationTarget file).map
    fun grouping => grouping.groups.length).getD 0

def prefersTwoPass (context : Option GroupingContext) (twoPassFile globalFile : ChatFile) : Bool :=
  match context with
  | some context =>
    if groupCount env context twoPassFile ≠ groupCount env context globalFile then
      decide (groupCount env context globalFile ≤ groupCount env context twoPassFile)
    else decide (countTimedUtterances globalFile ≤ countTimedUtterances twoPassFile)
  | none => decide (countTimedUtterances globalFile ≤ countTimedUtterances twoPassFile)

/-- Passes run on copies, and the file becomes one of them. -/
def TwoPassOverlapUtr.injectWithControl (strategy : TwoPassOverlapUtr) (tokens : PreparedUtrTokens) :
    Session ChatFile UtrResult := do
  Session.lift Work.check
  let file ← Session.get
  let twoPass ← Session.lift (runTwoPassInner env file tokens strategy.config)
  Session.lift Work.check
  let global ← Session.lift
    (runGlobalUtrControlled env.toSearchEnv file tokens .allUtterances strategy.config.matchMode.toDpMatchMode)
  match twoPass.2 with
  | .error _ => do
    Session.set global.1
    pure global.2
  | .ok result => do
    Session.lift Work.check
    if prefersTwoPass env strategy.groupingContext twoPass.1 global.1 then do
      Session.set twoPass.1
      pure result
    else do
      Session.set global.1
      pure global.2

/-- The file and the result when nothing stops it. -/
def TwoPassOverlapUtr.inject (strategy : TwoPassOverlapUtr) (file : ChatFile) (tokens : PreparedUtrTokens) :
    ChatFile × UtrResult :=
  ((strategy.injectWithControl env tokens).left file, (strategy.injectWithControl env tokens).value file)

end Batchalign.Utr
