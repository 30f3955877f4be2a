import Batchalign.Fa.Repair

/- Finalization of an aligned file (`FaImposed::then_finalize`): repair, monotonicity, `%wor`, and last
   the bullets of utterances not in the recording. `WorWriter` states what the phases rely on of the
   document model. -/
namespace Batchalign.Fa

/-- `add_wor_tier`: it writes the `%wor` tier alone, and times its words as the main tier
does. -/
structure WorWriter where
  addWorTier : Utterance → Utterance
  keeps_main : ∀ u, (addWorTier u).content = u.content ∧ (addWorTier u).bullet = u.bullet ∧
    (addWorTier u).speaker = u.speaker ∧ (addWorTier u).linkers = u.linkers
  from_main : ∀ u, ∀ s ∈ timings (addWorTier u).worWords, s ∈ timings (wordLeaves u.content)

/-- Replace the first `%wor` tier, or add one at the end. -/
def replaceOrAddWor (items : List WorItem) : List DependentTier → List DependentTier
  | [] => [.wor items]
  | .wor _ :: tiers => .wor items :: tiers
  | .other label text :: tiers => .other label text :: replaceOrAddWor items tiers

theorem findSome?_replaceOrAddWor (items : List WorItem) (tiers : List DependentTier) :
    (replaceOrAddWor items tiers).findSome? DependentTier.wor? = some items := by
  induction tiers with
  | nil => rfl
  | cons tier tiers ih =>
    cases tier with
    | wor items' => rfl
    | other label text => exact ih

def WorWriter.mainWords : WorWriter where
  addWorTier u := { u with
    dependentTiers := replaceOrAddWor ((wordLeaves u.content).map WorItem.word) u.dependentTiers }
  keeps_main _ := ⟨rfl, rfl, rfl, rfl⟩
  from_main u s hs := by
    simp only [Utterance.worWords, Utterance.worTier, findSome?_replaceOrAddWor, Option.getD_some,
      List.filterMap_map] at hs
    simpa [Function.comp_def, WorItem.word?] using hs

/-- Whether and where `%wor` is written, by utterance ordinal. -/
inductive WorPlan where
  | suppressed
  | pending (touched : List ℕ)

def WorPlan.alsoTouched (plan : WorPlan) (extra : List ℕ) : WorPlan :=
  match plan with
  | .suppressed => .suppressed
  | .pending touched => .pending (touched ++ extra)

def MonotonicityEffect.wordMutatedUtterance : MonotonicityEffect → Option ℕ
  | .endClampedInterleavedWords edge _ _ _ => some edge.utteranceIdx
  | .yieldedToKeptBullet _ utteranceIdx _ _ _ _ _ (.startMoved _ _ wordsTrimmed wordsDropped) =>
    if !wordsTrimmed.isEmpty || !wordsDropped.isEmpty then some utteranceIdx else none
  | .startRegressionRaised entry _ wordsDropped wordsTrimmed =>
    if !wordsTrimmed.isEmpty || !wordsDropped.isEmpty then some entry.utteranceIdx else none
  | .yieldedToKeptBullet _ _ _ _ _ _ _ (.stripped _ _ _) => none
  | .startRegressionStripped _ _ _ => none
  | .zeroDurationClampStripped _ _ _ _ => none
  | .endClampedCoverageOnly _ _ => none
  | .endClampedBoundaryFromWords _ _ _ => none

/-- The line of an utterance, by its ordinal (`get_utterance_mut`). -/
def lineOfOrdinal (file : ChatFile) (utteranceIdx : ℕ) : Option ℕ :=
  ((utterancesIndexed file).find? fun x => x.2.1 == utteranceIdx).map Prod.fst

section Phases
variable (W : ContentWalker) (writer : WorWriter) (order : HashOrder)

/-- Write `%wor` on one utterance that still has a timed word. -/
def writeWorAt (file : ChatFile) (utteranceIdx : ℕ) : ChatFile :=
  match lineOfOrdinal file utteranceIdx with
  | none => file
  | some lineIdx => modifyUtterance file lineIdx fun u =>
    if (TimedUtterance.inspect W utteranceIdx u).isSome then writer.addWorTier u else u

def writeWor (plan : WorPlan) (file : ChatFile) : ChatFile :=
  match plan with
  | .suppressed => file
  | .pending touched => (touched.dedup.mergeSort (· ≤ ·)).foldl (writeWorAt W writer) file

/-- The file and records once monotonicity has run and `%wor` is written. -/
structure FaOrdered where
  file : ChatFile
  postprocess : List DecisionRecord
  monotonicity : PassState

def enforceMonotonicityThenWriteWor (authority : MainBulletAuthority) (policy : EndOverlapPolicy)
    (plan : WorPlan) (postprocess : List DecisionRecord) (file : ChatFile) :
    Except KeptBulletError FaOrdered :=
  match enforceMonotonicityUnder W authority policy file with
  | .error e => .error e
  | .ok s =>
    let plan := plan.alsoTouched (s.effects.filterMap MonotonicityEffect.wordMutatedUtterance)
    .ok ⟨writeWor W writer plan s.file, postprocess, s⟩

def liveBullet (utteranceIdx : ℕ) (state : Option BulletState) : Except KeptBulletError (Option TimeSpan) :=
  match state with
  | none => .ok none
  | some (.parsed bullet) => .ok (some bullet)
  | some (.unparsed source) => .error (.unparsedWorking utteranceIdx source)

def restoreUtterance (slot : GivenSlot) (u : Utterance) : Utterance :=
  match slot with
  | .offRecord (some kept) => { u with bullet := some (.parsed kept.toBullet) }
  | _ => u

/-- The walk of `restore_off_record` from a given utterance count. -/
def restoreFrom (given : GivenMainBullets) : ℕ → ChatFile → Except KeptBulletError ChatFile
  | _, [] => .ok []
  | k, .header text :: lines => match restoreFrom given k lines with
    | .error e => .error e
    | .ok lines' => .ok (.header text :: lines')
  | k, .utterance u :: lines => match liveBullet k u.bullet with
    | .error e => .error e
    | .ok _ => match given.slot k with
      | .error e => .error e
      | .ok slot => match restoreFrom given (k + 1) lines with
        | .error e => .error e
        | .ok lines' => .ok (.utterance (restoreUtterance slot u) :: lines')

def restoreOffRecord (authority : MainBulletAuthority) (file : ChatFile) :
    Except KeptBulletError ChatFile :=
  match authority with
  | .deriveFromWords => .ok file
  | .keep given => restoreFrom given 0 file

inductive KeptBulletsHeld where
  | noneKept
  | allHeld (kept keptAbsent : ℕ)

def heldAt (utteranceIdx : ℕ) (slot : GivenSlot) (live : Option TimeSpan) :
    Except KeptBulletError (ℕ × ℕ) :=
  match slot with
  | .unbulleted => .ok (0, 0)
  | .keptAbsent => match live with
    | none => .ok (0, 1)
    | some bullet => .error (.gainedBullet utteranceIdx bullet.startMs bullet.endMs)
  | .kept kept =>
    if kept.isLive live then .ok (1, 0) else .error (.ofDrifted utteranceIdx kept live)
  | .offRecord none => match live with
    | none => .ok (0, 0)
    | some bullet => .error (.offRecordBullet utteranceIdx bullet.startMs bullet.endMs)
  | .offRecord (some kept) =>
    if kept.isLive live then .ok (1, 0) else .error (.ofDrifted utteranceIdx kept live)

/-- The walk of `verify_held`, with the counts so far. -/
def verifyFrom (given : GivenMainBullets) (working kept keptAbsent : ℕ) :
    List (ℕ × ℕ × Utterance) → Except KeptBulletError KeptBulletsHeld
  | [] =>
    if working = given.byUtterance.length then .ok (.allHeld kept keptAbsent)
    else .error (.utteranceMissing given.byUtterance.length working)
  | (_, utteranceIdx, u) :: rest => match liveBullet utteranceIdx u.bullet with
    | .error e => .error e
    | .ok live => match given.slot utteranceIdx with
      | .error e => .error e
      | .ok slot => match heldAt utteranceIdx slot live with
        | .error e => .error e
        | .ok (k, a) => verifyFrom given (working + 1) (kept + k) (keptAbsent + a) rest

def verifyHeld (authority : MainBulletAuthority) (file : ChatFile) :
    Except KeptBulletError KeptBulletsHeld :=
  match authority with
  | .deriveFromWords => .ok .noneKept
  | .keep given => verifyFrom given 0 0 0 (utterancesIndexed file)

def restoreAndVerify (authority : MainBulletAuthority) (file : ChatFile) :
    Except KeptBulletError (ChatFile × KeptBulletsHeld) :=
  match restoreOffRecord authority file with
  | .error e => .error e
  | .ok file' => match verifyHeld authority file' with
    | .error e => .error e
    | .ok held => .ok (file', held)

structure FaFinalized where
  file : ChatFile
  ordered : FaOrdered
  repair : List DecisionRecord
  repairStats : RepairStats
  keptBullets : KeptBulletsHeld

/-- The phases that order and cut: repair, monotonicity and the write of `%wor`. -/
def orderedPhases (authority : MainBulletAuthority) (policy : EndOverlapPolicy) (plan : WorPlan)
    (postprocess : List DecisionRecord) (repairPolicy : BulletRepairPolicy) (file : ChatFile) :
    Except KeptBulletError (FaOrdered × RepairResult) :=
  match repairPolicy with
  | .disabled =>
    match enforceMonotonicityThenWriteWor W writer authority policy plan postprocess file with
    | .error e => .error e
    | .ok ordered => .ok (ordered, ⟨.default, []⟩)
  | .enabled => match repairBulletsUnder W order authority policy file with
    | .error e => .error e
    | .ok (repaired, result) =>
      match enforceMonotonicityThenWriteWor W writer authority policy plan postprocess repaired with
      | .error e => .error e
      | .ok ordered => .ok (ordered, result)

def thenFinalize (authority : MainBulletAuthority) (policy : EndOverlapPolicy) (plan : WorPlan)
    (postprocess : List DecisionRecord) (repairPolicy : BulletRepairPolicy) (file : ChatFile) :
    Except KeptBulletError FaFinalized :=
  match orderedPhases W writer order authority policy plan postprocess repairPolicy file with
  | .error e => .error e
  | .ok (ordered, result) => match restoreAndVerify authority ordered.file with
    | .error e => .error e
    | .ok (file', held) =>
      .ok ⟨file', ordered, result.decisions.map RepairDecision.record, result.stats, held⟩

end Phases

end Batchalign.Fa
