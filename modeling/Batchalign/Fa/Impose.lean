import Batchalign.Fa.Finalize

/- The main bullets an input gave, bound at the parse and put back before any phase that orders
   (`fa/main_bullets.rs`). Under `keep` an utterance without a bullet may derive one; under `exact` it
   stays without and its words lose their timings. -/
namespace Batchalign.Fa

inductive MainBulletPolicy where
  | deriveFromWords
  | keepGiven
  | keepExact
  deriving DecidableEq

inductive GivenMainBullet where
  | extent (startMs endMs : ℕ) (positive : startMs < endMs)
  | empty (atMs : ℕ)
  | backward (startMs endMs : ℕ)

def GivenMainBullet.classify (bullet : TimeSpan) : GivenMainBullet :=
  if h : bullet.startMs < bullet.endMs then .extent bullet.startMs bullet.endMs h
  else if bullet.startMs = bullet.endMs then .empty bullet.startMs
  else .backward bullet.startMs bullet.endMs

inductive GivenBulletError where
  | backward (utteranceOrdinal lineIdx startMs endMs : ℕ)
  | unparsed (utteranceOrdinal lineIdx : ℕ) (sourceText : String)

def keptOf (lineIdx utteranceIdx : ℕ) (u : Utterance) : Except GivenBulletError (Option KeptBullet) :=
  match u.bullet with
  | some (.unparsed source) => .error (.unparsed utteranceIdx lineIdx source)
  | none => .ok none
  | some (.parsed bullet) => match GivenMainBullet.classify bullet with
    | .extent startMs endMs positive => .ok (some (.extent startMs endMs positive))
    | .empty atMs => .ok (some (.empty atMs))
    | .backward startMs endMs => .error (.backward utteranceIdx lineIdx startMs endMs)

def givenOf (u : Utterance) (kept : Option KeptBullet) : Given :=
  match RecordingPresence.of u, kept with
  | .notInRecording _, kept => .offRecord kept
  | .inRecording, none => .unbulleted
  | .inRecording, some kept => .kept kept

def bindFrom : List (ℕ × ℕ × Utterance) → Except GivenBulletError (List Given)
  | [] => .ok []
  | (lineIdx, utteranceIdx, u) :: rest => match keptOf lineIdx utteranceIdx u with
    | .error e => .error e
    | .ok kept => match bindFrom rest with
      | .error e => .error e
      | .ok givens => .ok (givenOf u kept :: givens)

def MainBulletAuthority.bind (policy : MainBulletPolicy) (input : ChatFile) :
    Except GivenBulletError MainBulletAuthority :=
  match policy with
  | .deriveFromWords => .ok .deriveFromWords
  | .keepGiven => match bindFrom (utterancesIndexed input) with
    | .error e => .error e
    | .ok byUtterance => .ok (.keep ⟨byUtterance, .derive⟩)
  | .keepExact => match bindFrom (utterancesIndexed input) with
    | .error e => .error e
    | .ok byUtterance => .ok (.keep ⟨byUtterance, .keep⟩)

/-! ## Reasons -/

def WordTier.asStr : WordTier → String
  | .mainTier => "main"
  | .wor => "wor"

/-- Where each word had been before its timing was removed. -/
def writeDropped (clamped : ClampedWordCounts) : String :=
  "dropped=[" ++ String.intercalate "," (clamped.dropped.map fun dropped =>
    dropped.tier.asStr ++ ":" ++ toString dropped.wordIndex ++ ":" ++
      toString dropped.measured.startMs ++ "_" ++ toString dropped.measured.endMs) ++ "]"

/-- Nothing to say of a bullet with extent whose words already fitted. -/
def impositionReason (kept : KeptBullet) (clamped : ClampedWordCounts) : Option (String × Bool) :=
  let tail := " words_trimmed=" ++ toString clamped.trimmed.length ++ " words_dropped=" ++
    toString clamped.dropped.length ++ " " ++ writeDropped clamped ++ " cause=word_outside_kept_bullet"
  match kept with
  | .extent startMs endMs _ =>
    if clamped.trimmed.isEmpty ∧ clamped.dropped.isEmpty then none
    else some ("kept_main_bullet=" ++ toString startMs ++ "_" ++ toString endMs ++ tail,
      !clamped.dropped.isEmpty)
  | .empty atMs =>
    some ("kept_empty_main_bullet=" ++ toString atMs ++ "_" ++ toString atMs ++ tail, true)

def absenceReason (untimed : ClampedWordCounts) : Option String :=
  if untimed.dropped.isEmpty then none
  else some ("kept_absent_main_bullet words_untimed=" ++ toString untimed.dropped.length ++ " " ++
    writeDropped untimed ++ " cause=utterance_given_no_bullet")

/-! ## Imposition -/

section Impose
variable (W : ContentWalker)

def KeptBullet.span (kept : KeptBullet) : ClampBound := ⟨kept.startMs, some kept.endMs⟩

def imposeUtterance (slot : GivenSlot) (u : Utterance) : Utterance × ClampedWordCounts :=
  match slot with
  | .unbulleted => (u, .default)
  | .offRecord _ => (u, .default)
  | .keptAbsent => clampWordsWithin W { u with bullet := none } ⟨0, some 0⟩
  | .kept kept => clampWordsWithin W { u with bullet := some (.parsed kept.toBullet) } kept.span

def imposeRecord (lineIdx : ℕ) (slot : GivenSlot) (u : Utterance) (clamped : ClampedWordCounts) :
    Option DecisionRecord :=
  match slot with
  | .unbulleted => none
  | .offRecord _ => none
  | .keptAbsent => (absenceReason clamped).map fun reason =>
      ⟨lineIdx, u.speaker, .fa .wordsUntimedForKeptAbsence, reason, false⟩
  | .kept kept => (impositionReason kept clamped).map fun (reason, needsReview) =>
      ⟨lineIdx, u.speaker, .fa .wordsClampedToKeptBullet, reason, needsReview⟩

structure Imposition where
  file : ChatFile
  cuts : List ℕ
  records : List DecisionRecord

/-- The walk of `impose` from a given line and utterance count. -/
def imposeFrom (given : GivenMainBullets) : ℕ → ℕ → ChatFile → Except KeptBulletError Imposition
  | _, _, [] => .ok ⟨[], [], []⟩
  | lineIdx, k, .header text :: lines => match imposeFrom given (lineIdx + 1) k lines with
    | .error e => .error e
    | .ok later => .ok { later with file := .header text :: later.file }
  | lineIdx, k, .utterance u :: lines => match given.slot k with
    | .error e => .error e
    | .ok slot => match imposeFrom given (lineIdx + 1) (k + 1) lines with
      | .error e => .error e
      | .ok later =>
        let imposed := imposeUtterance W slot u
        .ok ⟨.utterance imposed.1 :: later.file,
          (if imposed.2.cutMainTier then [k] else []) ++ later.cuts,
          (imposeRecord lineIdx slot u imposed.2).toList ++ later.records⟩

def MainBulletAuthority.impose (authority : MainBulletAuthority) (file : ChatFile) :
    Except KeptBulletError Imposition :=
  match authority with
  | .deriveFromWords => .ok ⟨file, [], []⟩
  | .keep given => imposeFrom W given 0 0 file

variable (writer : WorWriter) (order : HashOrder)

/-- `FaApplied::then_impose` followed by `FaImposed::then_finalize`. -/
def imposeThenFinalize (authority : MainBulletAuthority) (policy : EndOverlapPolicy) (plan : WorPlan)
    (postprocess : List DecisionRecord) (repairPolicy : BulletRepairPolicy) (file : ChatFile) :
    Except KeptBulletError FaFinalized :=
  match authority.impose W file with
  | .error e => .error e
  | .ok imposition =>
    thenFinalize W writer order authority policy (plan.alsoTouched imposition.cuts)
      (postprocess ++ imposition.records) repairPolicy imposition.file

end Impose

end Batchalign.Fa
