import Batchalign.Utr.Anchors

/- Projection of a plan onto a file, and the global pass (`fa/utr.rs`). -/
namespace Batchalign.Utr
open Fa DpAlign Polled

/-! ## Corridors -/

structure FollowingStarts where
  document : Option ℕ
  sameSpeaker : Option ℕ

def FollowingStarts.under (following : FollowingStarts) : UtrOrderModel → Option ℕ
  | .interleaved => following.sameSpeaker
  | .monotonic => following.document

inductive UtrTimingCorridor where
  | opened (floorEndMs : ℕ)
  | bounded (interval : PositiveUtrInterval)
  | exhausted

namespace UtrTimingCorridor

/-- `UtrTimingCorridor::admit`. -/
def between (floorEndMs : ℕ) : Option ℕ → UtrTimingCorridor
  | none => opened floorEndMs
  | some ceiling => (PositiveUtrInterval.ofBounds floorEndMs ceiling).elim exhausted bounded

def intersect (proposal : PositiveUtrInterval) : UtrTimingCorridor → Option PositiveUtrInterval
  | opened floorEndMs => proposal.after floorEndMs
  | bounded corridor =>
    PositiveUtrInterval.ofBounds (max proposal.startMs corridor.startMs) (min proposal.endMs corridor.endMs)
  | exhausted => none

theorem intersect_between {floor : ℕ} {ceiling : Option ℕ} {proposal hint : PositiveUtrInterval}
    (h : (between floor ceiling).intersect proposal = some hint) :
    floor ≤ hint.startMs ∧ ∀ c ∈ ceiling, hint.endMs ≤ c := by
  cases ceiling with
  | none =>
    obtain ⟨hstart, _⟩ := PositiveUtrInterval.ofBounds_eq_some h
    exact ⟨hstart ▸ le_max_right .., fun c hc => absurd hc (by simp)⟩
  | some c =>
    rw [between] at h
    cases hbounds : PositiveUtrInterval.ofBounds floor c with
    | none =>
      rw [hbounds] at h
      exact absurd h (by simp [intersect])
    | some corridor =>
      rw [hbounds] at h
      obtain ⟨hlow, hhigh⟩ := PositiveUtrInterval.ofBounds_eq_some hbounds
      obtain ⟨hstart, hend⟩ := PositiveUtrInterval.ofBounds_eq_some h
      refine ⟨?_, fun c' hc' => ?_⟩
      · calc floor = corridor.startMs := hlow.symm
          _ ≤ hint.startMs := hstart ▸ le_max_right ..
      · cases hc'
        calc hint.endMs ≤ corridor.endMs := hend ▸ min_le_right ..
          _ = c := hhigh

end UtrTimingCorridor

def bulletBeside (u : Utterance) (info : UtrUtteranceInfo) : Option TimeSpan :=
  if info.overlaps then none else u.parsedBullet

/-- The state of the backward sweep of `plan_controlled`. -/
structure Following where
  starts : List FollowingStarts
  ceiling : Option ℕ
  speakerCeilings : String → Option ℕ

def lowered (ceiling : Option ℕ) (startMs : ℕ) : Option ℕ :=
  some (ceiling.elim startMs fun previous => min previous startMs)

def followingStarts : List (Utterance × UtrUtteranceInfo) → Following
  | [] => ⟨[], none, fun _ => none⟩
  | (u, info) :: rest =>
    let following := followingStarts rest
    { starts := ⟨following.ceiling, following.speakerCeilings info.speaker⟩ :: following.starts
      ceiling := (bulletBeside u info).elim following.ceiling fun bullet => lowered following.ceiling bullet.startMs
      speakerCeilings := (bulletBeside u info).elim following.speakerCeilings fun bullet =>
        Function.update following.speakerCeilings info.speaker
          (lowered (following.speakerCeilings info.speaker) bullet.startMs) }

structure UtrFloors where
  document : ℕ
  speakers : String → ℕ

namespace UtrFloors

def start : UtrFloors := ⟨0, fun _ => 0⟩

def under (floors : UtrFloors) (speaker : String) : UtrOrderModel → ℕ
  | .interleaved => floors.speakers speaker
  | .monotonic => floors.document

def raise (floors : UtrFloors) (info : UtrUtteranceInfo) (endMs : ℕ) : UtrFloors :=
  if info.overlaps then floors
  else ⟨max floors.document endMs,
    Function.update floors.speakers info.speaker (max (floors.speakers info.speaker) endMs)⟩

end UtrFloors

def Ordered (order : UtrOrderModel) (speaker speaker' : String) : Prop :=
  order = .monotonic ∨ speaker = speaker'

/-! ## Decisions -/

inductive UtrDecision where
  | projectionExhausted (words minAsr maxAsr startMs endMs floorEndMs : ℕ) (ceilingStartMs : Option ℕ)
  | zeroDurationSkipped (words minAsr maxAsr startMs endMs : ℕ)
  | incompleteBoundary (words : ℕ) (missingEndpoints : MissingUtrEndpoints) (bounded : Bool)
  | ambiguousCorrespondence (words : ℕ)
  | correspondenceBudgetExhausted (words : ℕ) (refusal : UtrBudgetRefusal)
  | correspondenceSearchInconsistent (words : ℕ) (inconsistency : UtrSearchInconsistency)
  | inspectionBudgetExhausted (words : ℕ) (refusal : InspectionBudget)
  | unmatched (words : ℕ)

structure UtrDecisionRecord where
  lineIdx : ℕ
  speaker : String
  decision : UtrDecision
  needsReview : Bool

/-- The lowest and the highest admitted token. -/
def tokenExtent (m : NonEmptyMatches AdmittedUtrWordMatch) : ℕ × ℕ :=
  m.rest.foldl (fun extent matched => (min extent.1 matched.token, max extent.2 matched.token))
    (m.first.token, m.first.token)

def UtrCorrespondenceRefusal.decision (words : ℕ) : UtrCorrespondenceRefusal → UtrDecision
  | .ambiguous => .ambiguousCorrespondence words
  | .budgetExhausted refusal => .correspondenceBudgetExhausted words refusal
  | .inconsistent inconsistency => .correspondenceSearchInconsistent words inconsistency

/-- The decision without a usable proposal; `bounded`: the utterance has a search window. -/
def UtrUtteranceAlignmentEvidence.decision (bounded : Bool) : UtrUtteranceAlignmentEvidence → Option (UtrDecision × Bool)
  | .matched _ words _ m (.nonPositive startMs endMs) =>
    some (.zeroDurationSkipped words (tokenExtent m.matchesOf).1 (tokenExtent m.matchesOf).2 startMs endMs, false)
  | .matched _ _ _ _ (.positive _) => none
  | .interiorOnly _ words _ _ missing => some (.incompleteBoundary words missing bounded, true)
  | .selectedOnly _ words _ reason => some (reason.decision words, true)
  | .refused _ words reason _ => some (reason.decision words, true)
  | .retainedUnsearched _ _ _ _ => none
  | .uninspected _ words refusal => some (.inspectionBudgetExhausted words refusal, true)
  | .unmatched _ words => some (.unmatched words, true)
  | .excludedMarkedOverlap _ words => some (.unmatched words, true)
  | .noAlignableWords _ => some (.unmatched 0, true)

/-! ## The loop -/

structure ProjectEntry where
  lineIdx : ℕ
  utterance : Utterance
  info : UtrUtteranceInfo
  following : FollowingStarts

/-- The state of the projection between two utterances. -/
structure ProjectState where
  floors : UtrFloors
  skipped : ℕ
  unmatched : ℕ
  decisions : List UtrDecisionRecord

def ProjectState.start : ProjectState := ⟨.start, 0, 0, []⟩

def ProjectState.refuse (st : ProjectState) (entry : ProjectEntry) (decision : Option (UtrDecision × Bool)) :
    ProjectState :=
  { st with
    unmatched := st.unmatched + 1
    decisions := st.decisions ++ decision.toList.map fun (decision, needsReview) =>
      ⟨entry.lineIdx, entry.utterance.speaker, decision, needsReview⟩ }

def projected (order : UtrOrderModel) (entry : ProjectEntry) (floors : UtrFloors) (interval : PositiveUtrInterval) :
    Option PositiveUtrInterval :=
  if entry.info.overlaps then some interval
  else (UtrTimingCorridor.between (floors.under entry.info.speaker order) (entry.following.under order)).intersect interval

/-- One round of `project`. -/
def projectStep (order : UtrOrderModel) (entry : ProjectEntry) (evidence : UtrUtteranceAlignmentEvidence)
    (bounded : Bool) (st : ProjectState) : Option PositiveUtrInterval × ProjectState :=
  match entry.info.presence with
  | .notInRecording _ => (none, st)
  | .inRecording =>
    if entry.info.retainedTiming.isSome then
      (none, { st with
        skipped := st.skipped + 1
        floors := entry.utterance.parsedBullet.elim st.floors fun bullet => st.floors.raise entry.info bullet.endMs })
    else
      match evidence with
      | .matched _ words _ m (.positive interval) =>
        match projected order entry st.floors interval with
        | some hint => (some hint, { st with floors := st.floors.raise entry.info hint.endMs })
        | none =>
          (none, st.refuse entry (some
            (.projectionExhausted words (tokenExtent m.matchesOf).1 (tokenExtent m.matchesOf).2 interval.startMs
              interval.endMs (st.floors.under entry.info.speaker order) (entry.following.under order), true)))
      | other => (none, st.refuse entry (other.decision bounded))

/-- The loop over the utterances and their evidence; one without evidence takes no hint. -/
def projectFrom (order : UtrOrderModel) :
    List ProjectEntry → List (UtrUtteranceAlignmentEvidence × Bool) → ProjectState →
      List (Option PositiveUtrInterval) × ProjectState
  | [], _, st => ([], st)
  | entries, [], st => (entries.map fun _ => none, st)
  | entry :: entries, (evidence, bounded) :: rest, st =>
    let step := projectStep order entry evidence bounded st
    let following := projectFrom order entries rest step.2
    (step.1 :: following.1, following.2)

/-! ## Writing hints -/

def hinted (u : Utterance) (hint : Option PositiveUtrInterval) : Utterance :=
  hint.elim u fun interval => { u with bullet := some (.parsed interval.intoHint) }

def applyHints : ChatFile → List (Option PositiveUtrInterval) → ChatFile
  | [], _ => []
  | .header text :: lines, hints => .header text :: applyHints lines hints
  | .utterance u :: lines, [] => .utterance u :: applyHints lines []
  | .utterance u :: lines, hint :: hints => .utterance (hinted u hint) :: applyHints lines hints

/-! ## The pass -/

inductive UtrAlignmentEvidence where
  | notRunNoUntimed
  | global (plan : UtrAlignmentPlan)
  | twoPass (firstPass : UtrAlignmentPlan) (overlapRecoveries : List (ℕ × ℕ × ℕ))

structure UtrResult where
  injected : ℕ
  skipped : ℕ
  unmatched : ℕ
  alignment : UtrAlignmentEvidence
  decisions : List UtrDecisionRecord
  anchors : AnchorIndex

section Pass
variable (env : SearchEnv)

def entriesOf (units : UtrLexicalUnits) (file : ChatFile) : List ProjectEntry :=
  ((utterancesIndexed file).zip
    (followingStarts ((utterancesOf file).map fun u => (u, utteranceInfo env.toCensusEnv units u))).starts).map
    fun ((lineIdx, _, u), following) => ⟨lineIdx, u, utteranceInfo env.toCensusEnv units u, following⟩

def evidenceEntries (plan : UtrAlignmentPlan) : List (UtrUtteranceAlignmentEvidence × Bool) :=
  plan.utterances.zipIdx.map fun (evidence, i) => (evidence, (plan.searchEnvelopes[i]?.join).isSome)

def project (units : UtrLexicalUnits) (file : ChatFile) (plan : UtrAlignmentPlan) : ChatFile × UtrResult :=
  let run := projectFrom plan.strategy (entriesOf env units file) (evidenceEntries plan) .start
  (applyHints file run.1,
    { injected := run.1.countP Option.isSome
      skipped := run.2.skipped
      unmatched := run.2.unmatched
      alignment := .global plan
      decisions := run.2.decisions
      anchors := .fromPlan plan })

/-- The plan recorded when there are no tokens: nothing is selected and nothing admitted. -/
def emptyPlan (census : List UtrUtteranceInfo) (tokens : PreparedUtrTokens) (participation : GlobalUtrParticipation) :
    UtrAlignmentPlan :=
  .assemble (UtrOrderModel.of census participation) ((partition census).map fun region =>
    buildAlignmentPlan env.similarityMillionths .globalDp [] (projectStream env.chars tokens fun _ => true)
      ⟨.ok [], .complete [], fun _ _ => .unsearched⟩ region.span (region.searched census) participation [])

def emptyResult (census : List UtrUtteranceInfo) (tokens : PreparedUtrTokens) (participation : GlobalUtrParticipation) :
    UtrResult :=
  let skipped := census.countP fun info => info.retainedTiming.isSome
  { injected := 0
    skipped := skipped
    unmatched := census.length - skipped
    alignment := .global (emptyPlan env census tokens participation)
    decisions := []
    anchors := .notObserved }

/-- The file and the result. -/
def runGlobalUtrControlled (file : ChatFile) (tokens : PreparedUtrTokens) (participation : GlobalUtrParticipation)
    (mode : MatchMode) : Work (ChatFile × UtrResult) := do
  Work.check
  if tokens.tokens = [] then
    pure (file, emptyResult env (collectUtrUtteranceInfo env.toCensusEnv tokens.units file) tokens participation)
  else
    let plan ← planGlobalUtrAlignmentFor env (collectUtrUtteranceInfo env.toCensusEnv tokens.units file) tokens mode
      participation
    Work.check
    pure (project env tokens.units file plan)

/-- The pass that nothing interrupts. -/
def runGlobalUtr (file : ChatFile) (tokens : PreparedUtrTokens) (participation : GlobalUtrParticipation)
    (mode : MatchMode) : ChatFile × UtrResult := (runGlobalUtrControlled env file tokens participation mode).value

theorem runGlobalUtr_eq (file : ChatFile) (tokens : PreparedUtrTokens) (participation : GlobalUtrParticipation)
    (mode : MatchMode) : runGlobalUtr env file tokens participation mode = if tokens.tokens = [] then
        (file, emptyResult env (collectUtrUtteranceInfo env.toCensusEnv tokens.units file) tokens participation)
      else project env tokens.units file (planGlobalUtrAlignmentFor env
        (collectUtrUtteranceInfo env.toCensusEnv tokens.units file) tokens mode participation).value := by
  unfold runGlobalUtr runGlobalUtrControlled
  split
  · rfl
  · rfl

end Pass

/-! ## One round -/

theorem projectStep_cases (order : UtrOrderModel) (entry : ProjectEntry) (evidence : UtrUtteranceAlignmentEvidence)
    (bounded : Bool) (st : ProjectState) {hint : Option PositiveUtrInterval} {st' : ProjectState}
    (h : projectStep order entry evidence bounded st = (hint, st')) :
    (entry.info.presence ≠ .inRecording ∧ hint = none ∧ st' = st) ∨
    (entry.info.presence = .inRecording ∧ entry.info.retainedTiming.isSome ∧ hint = none ∧
      st'.skipped = st.skipped + 1 ∧ st'.unmatched = st.unmatched ∧
      st'.floors = entry.utterance.parsedBullet.elim st.floors fun bullet => st.floors.raise entry.info bullet.endMs) ∨
    (entry.info.presence = .inRecording ∧ entry.info.retainedTiming = none ∧ hint = none ∧
      st'.skipped = st.skipped ∧ st'.unmatched = st.unmatched + 1 ∧ st'.floors = st.floors) ∨
    (entry.info.presence = .inRecording ∧ entry.info.retainedTiming = none ∧
      ∃ interval given, hint = some given ∧ projected order entry st.floors interval = some given ∧
        st'.skipped = st.skipped ∧ st'.unmatched = st.unmatched ∧ st'.floors = st.floors.raise entry.info given.endMs) := by
  unfold projectStep at h
  cases hpresence : entry.info.presence with
  | notInRecording postcode =>
    rw [hpresence] at h
    cases h
    exact .inl ⟨by simp, rfl, rfl⟩
  | inRecording =>
    rw [hpresence] at h
    simp only at h
    by_cases hretained : entry.info.retainedTiming.isSome
    · rw [if_pos hretained] at h
      cases h
      exact .inr (.inl ⟨rfl, hretained, rfl, rfl, rfl, rfl⟩)
    · rw [if_neg hretained] at h
      have hnone : entry.info.retainedTiming = none := Option.not_isSome_iff_eq_none.mp hretained
      have hrefused : ∀ decision, (none, st.refuse entry decision) = (hint, st') → hint = none ∧
          st'.skipped = st.skipped ∧ st'.unmatched = st.unmatched + 1 ∧ st'.floors = st.floors := by
        intro decision heq
        cases heq
        exact ⟨rfl, rfl, rfl, rfl⟩
      split at h
      · next words inspection m interval =>
        cases hprojected : projected order entry st.floors interval with
        | some given =>
          rw [hprojected] at h
          cases h
          exact .inr (.inr (.inr ⟨rfl, hnone, interval, given, rfl, hprojected, rfl, rfl, rfl⟩))
        | none =>
          rw [hprojected] at h
          exact .inr (.inr (.inl ⟨rfl, hnone, hrefused _ h⟩))
      · exact .inr (.inr (.inl ⟨rfl, hnone, hrefused _ h⟩))

end Batchalign.Utr
