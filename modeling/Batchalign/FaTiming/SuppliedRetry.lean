import Batchalign.Fa.Impose
import Batchalign.FaTiming.Injection

/- One terminal retry over the supplied window of each kept bullet (`fa/supplied_retry.rs`,
   `fa/main_bullets.rs`). A session remembers the words without a positive timing and where each may be
   placed; answers come in file order. The debug text of a timing is the parameter `debug`. -/
namespace Batchalign.FaTiming
open Fa

structure SuppliedRetrySource where
  index : ℕ
  words : List FaWord
  window : RequestWindow

inductive SuppliedRetryAnswer where
  | timings (timings : List (Option WordTiming)) (source : String)
  | unresolved (reason : String)

structure MissingSlot where
  ordinal : ℕ
  lowerMs : ℕ
  upperMs : ℕ

structure MissingUtterance where
  line : ℕ
  source : SuppliedRetrySource
  slots : List MissingSlot

/-- A record under `FaStrategy::TimingProvenance`. -/
structure ProvenanceRecord where
  lineIdx : ℕ
  speaker : String
  reason : String
  needsReview : Bool

structure SuppliedRetrySession where
  file : ChatFile
  worPlan : WorPlan
  postprocess : List ProvenanceRecord
  pending : List MissingUtterance

section Sources
variable (W : ContentWalker) (D : WorDomain)

/-- An utterance's source: a kept bullet that is a window of the recording, and a word to ask for. -/
def suppliedRetrySource (R : Recording) (slot : GivenSlot) (index : ℕ) (u : Utterance) : Option SuppliedRetrySource :=
  match slot with
  | .kept (.extent startMs endMs _) => match FaWindow.within R startMs endMs with
    | .error _ => none
    | .ok window =>
      let words := (collectFaWords W D u.content).zipIdx.map fun (text, word) => ⟨index, word, text⟩
      if words.isEmpty then none else some ⟨index, words, ⟨window.startMs, window.endMs, window.positive⟩⟩
  | _ => none

/-- The walk of `supplied_retry_sources`. -/
def suppliedRetrySourcesFrom (given : GivenMainBullets) (R : Recording) :
    List (ℕ × ℕ × Utterance) → Except KeptBulletError (List SuppliedRetrySource)
  | [] => .ok []
  | (_, index, u) :: rest => match given.slot index with
    | .error e => .error e
    | .ok slot => match suppliedRetrySourcesFrom given R rest with
      | .error e => .error e
      | .ok sources => .ok ((suppliedRetrySource W D R slot index u).toList ++ sources)

def suppliedRetrySources (authority : MainBulletAuthority) (chat : ChatFile) (R : Recording) :
    Except KeptBulletError (List SuppliedRetrySource) :=
  match authority with
  | .deriveFromWords => .ok []
  | .keep given => suppliedRetrySourcesFrom W D given R (utterancesIndexed chat)

end Sources

/-! ## Slots -/

section Session
variable (D : WorDomain)

def retainedSpan (w : Word) : Option TimeSpan := (getWordTiming w).filter fun span => decide (span.startMs < span.endMs)

/-- The first walk: no retained word stands after the slots from `openStart` on. -/
structure SlotScan where
  slots : List MissingSlot
  precedingEnd : ℕ
  ordinal : ℕ
  openStart : ℕ

def SlotScan.word (windowEnd : ℕ) (s : SlotScan) (w : Word) : SlotScan :=
  match retainedSpan w with
  | some span =>
    { slots := s.slots.take s.openStart ++
        (s.slots.drop s.openStart).map fun slot => { slot with upperMs := span.startMs }
      precedingEnd := max s.precedingEnd span.endMs
      ordinal := s.ordinal + 1
      openStart := s.slots.length }
  | none =>
    { s with
      slots := if D.countsForTier w then s.slots ++ [⟨s.ordinal, s.precedingEnd, windowEnd⟩] else s.slots
      ordinal := s.ordinal + 1 }

def slotScan (window : RequestWindow) (ws : List Word) : SlotScan :=
  ws.foldl (SlotScan.word D window.endMs) ⟨[], window.startMs, 0, 0⟩

/-- The utterances with a source and a word to place; of two sources of one index the later counts. -/
def pendingFrom (sources : List SuppliedRetrySource) : List (ℕ × ℕ × Utterance) → List MissingUtterance
  | [] => []
  | (line, index, u) :: rest =>
    (match sources.reverse.find? fun source => source.index == index with
      | none => []
      | some source =>
        let slots := (slotScan D source.window (wordLeaves u.content)).slots
        if slots.isEmpty then [] else [⟨line, source, slots⟩]) ++ pendingFrom sources rest

def SuppliedRetrySession.new (worPlan : WorPlan) (postprocess : List ProvenanceRecord) (chat : ChatFile)
    (sources : List SuppliedRetrySource) : SuppliedRetrySession :=
  ⟨chat, worPlan, postprocess, pendingFrom D sources (utterancesIndexed chat)⟩

/-! ## Answers -/

variable (debug : WordTiming → String)

structure FillState where
  slots : List MissingSlot
  cursor : TimingCursor
  ordinal : ℕ
  lastFilledEnd : ℕ
  filled : List String

/-- One word of the second walk. Its slot is used up whether or not its candidate fits. -/
def FillState.word (s : FillState) (w : Word) : FillState × Word :=
  let projected := projectTimingForWord D w s.cursor
  let next := { s with cursor := projected.2, ordinal := s.ordinal + 1 }
  match s.slots with
  | [] => (next, w)
  | slot :: slots =>
    if slot.ordinal = s.ordinal then
      match projected.1 with
      | none => ({ next with slots := slots }, w)
      | some timing =>
        if max slot.lowerMs s.lastFilledEnd ≤ timing.startMs ∧ timing.endMs ≤ slot.upperMs then
          ({ next with
              slots := slots
              lastFilledEnd := timing.endMs
              filled := s.filled ++ ["word " ++ toString s.ordinal ++ ": " ++ debug timing] },
            { w with inlineBullet := some timing.bullet })
        else ({ next with slots := slots }, w)
    else (next, w)

def fillSlots (target : MissingUtterance) (timings : List (Option WordTiming)) (u : Utterance) : FillState × Utterance :=
  let walked := rewriteContent (FillState.word D debug)
    ⟨target.slots, ⟨timings, 0⟩, 0, target.source.window.startMs, []⟩ u.content
  (walked.1, { u with content := walked.2 })

/-- What an answer does: the texts of the filled words, what is said of it, and the utterance. -/
def answerUtterance (target : MissingUtterance) (answer : SuppliedRetryAnswer) (u : Utterance) :
    List String × String × Utterance :=
  match answer with
  | .unresolved reason => ([], reason, u)
  | .timings timings source =>
    if timings.length = target.source.words.length then
      ((fillSlots D debug target timings u).1.filled, source, (fillSlots D debug target timings u).2)
    else ([], "refused mismatched reply population", u)

def retryRecord (target : MissingUtterance) (u : Utterance) (filled : List String) (detail : String) :
    ProvenanceRecord where
  lineIdx := target.line
  speaker := u.speaker
  reason := "terminal supplied-window retry u" ++ toString target.source.index ++ " " ++
    toString target.source.window.startMs ++ ".." ++ toString target.source.window.endMs ++ "ms: filled " ++
    toString filled.length ++ "/" ++ toString target.slots.length ++ " missing AST slots; " ++ detail ++ "; " ++
    String.intercalate "; " filled
  needsReview := decide (filled.length ≠ target.slots.length)

/-- `AwaitingSuppliedRetry::complete`, on the utterance taken from the session. -/
def SuppliedRetrySession.complete (session : SuppliedRetrySession) (target : MissingUtterance)
    (answer : SuppliedRetryAnswer) : SuppliedRetrySession :=
  match getUtterance session.file target.line with
  | none => session
  | some u =>
    let (filled, detail, u') := answerUtterance D debug target answer u
    { session with
      file := modifyUtterance session.file target.line fun _ => u'
      worPlan := if filled.isEmpty then session.worPlan else session.worPlan.alsoTouched [target.source.index]
      postprocess := session.postprocess ++ [retryRecord target u filled detail] }

def SuppliedRetrySession.run (session : SuppliedRetrySession) : List MissingUtterance → List SuppliedRetryAnswer →
    Option SuppliedRetrySession
  | [], _ => some { session with pending := [] }
  | _ :: _, [] => none
  | target :: pending, answer :: answers =>
    SuppliedRetrySession.run (session.complete D debug target answer) pending answers

def SuppliedRetrySession.toCompletion (session : SuppliedRetrySession) (answers : List SuppliedRetryAnswer) :
    Option SuppliedRetrySession :=
  session.run D debug session.pending answers

end Session

end Batchalign.FaTiming
