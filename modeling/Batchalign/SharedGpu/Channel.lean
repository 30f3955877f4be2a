import Batchalign.Lib.Runs
import Batchalign.SharedGpu.Routes

/- The sequential ops of a shared GPU worker: `SharedGpuChannel::{capabilities,ensure_task}` over the
   control slot. A caller takes one step at a time, up to an await or through one lock; it may be
   dropped or time out wherever it awaits. A request is named by the order the ops were armed in. The
   worker answers a written request at most once: with a reply, with one that does not decode, or with
   an `op=error` line, tagged or not. `O` is what engine overrides are. -/
namespace Batchalign.SharedGpu

variable {P T O : Type}

/-- `TaskLoad`, by the fields that tell two loads apart -/
structure TaskLoad (T O : Type) where
  task : T
  overrides : O
deriving DecidableEq

/-- `WorkerRequest`, of the two ops that take the control gate -/
inductive ControlRequest (T O : Type) where
  | capabilities
  | ensureTask (load : TaskLoad T O)
deriving DecidableEq

def ControlRequest.op : ControlRequest T O → ControlOp T
  | .capabilities => .capabilities
  | .ensureTask load => .ensureTask load.task

/-- Where a caller stands; `n` is its request. -/
inductive CallStage where
  /-- the first look at the recorded loads -/
  | looking
  /-- `control_gate.lock().await` -/
  | gate
  /-- the second look, with the gate -/
  | relooking
  /-- `preparation.admission.admit(..).await` -/
  | admitting
  | arming
  /-- `writer.lock().await` and `write_all(..).await` -/
  | writing (n : ℕ)
  /-- `flush().await` -/
  | flushing (n : ℕ)
  /-- for the answer -/
  | waiting (n : ℕ)
  /-- `admitted.confirm().await` -/
  | confirming (n : ℕ)
  | recording (n : ℕ)
  | returned
  | failed
  /-- dropped, or out of time -/
  | stopped

structure Caller (T O : Type) where
  request : ControlRequest T O
  stage : CallStage

structure Issued (T O : Type) where
  id : ℕ
  request : ControlRequest T O
  written : Bool
  /-- whether the worker answered it with its op's reply, once it has answered -/
  answered : Option Bool

/-- An answer to request `taker` from the answer to `origin` (or to none). -/
structure Delivery where
  taker : ℕ
  origin : Option ℕ
  replied : Bool

structure Channel (T O : Type) where
  control : ControlState T
  gateTaken : Bool
  /-- `TaskLoads`: the loads a `Loaded` was recorded for -/
  loads : List (TaskLoad T O)
  callers : List (Caller T O)
  nextControlId : ℕ
  issued : List (Issued T O)
  delivered : List Delivery

def Channel.open : Channel T O := ⟨.idle, false, [], [], 0, [], []⟩

inductive AnswerForm (P : Type) where
  | reply (payload : P)
  | undecodable (error : String)
  /-- an `op=error` line with the request's id -/
  | tagged (failure : ReplyFailure)
  /-- an `op=error` line without an id -/
  | untagged (failure : ReplyFailure)

def AnswerForm.replies : AnswerForm P → Bool
  | .reply _ => true
  | _ => false

def ControlRequest.reply (payload : P) : ControlRequest T O → ControlReply P T
  | .capabilities => .capabilities payload
  | .ensureTask load => .ensureTask load.task payload

/-- What the reader does at the slot with the line of an answer to `issued`. -/
def AnswerForm.deliver [DecidableEq T] (form : AnswerForm P) (issued : Issued T O)
    (control : ControlState T) : Option (ControlState T × List (Ticket × Reply P T)) :=
  match form with
  | .reply payload => control.deliver (.reply (issued.request.reply payload))
  | .undecodable error =>
      control.deliver (.undecodable issued.request.op.name
        ("failed to decode " ++ issued.request.op.name.wireName ++ " response: " ++ error))
  | .tagged failure => control.deliverTaggedFailure (controlId issued.id) failure
  | .untagged failure => control.deliver (.unowned failure)

def Reply.isOk : Reply P T → Bool
  | .executed _ _ | .capabilities _ | .ensureTask _ _ | .acknowledged => true
  | .dispatchError _ | .failed _ => false

inductive ChannelEvent (P T O : Type) where
  | calls (request : ControlRequest T O)
  /-- a caller goes on; `others` control ids went to other channels since -/
  | advances (k : ℕ) (ok : Bool) (others : ℕ)
  /-- a caller is dropped or runs out of its time -/
  | stops (k : ℕ)
  | answers (n : ℕ) (form : AnswerForm P)
  /-- a line that answers no request: `health`, malformed progress, an op the protocol does not name -/
  | strays (failure : ReplyFailure)
  | closes (reason : StreamClosed)

def CallStage.hasGate : CallStage → Bool
  | .looking | .gate | .returned | .failed | .stopped => false
  | _ => true

def CallStage.awaits : CallStage → Bool
  | .arming | .returned | .failed | .stopped => false
  | _ => true

/-- Whether a caller at this stage holds the receiver of request `n`. -/
def CallStage.listensTo (n : ℕ) : CallStage → Bool
  | .writing m | .flushing m | .waiting m => m = n
  | _ => false

namespace Channel

/-- The caller at place `k` goes on at `stage`; past its last stage it has no gate. -/
def moves (S : Channel T O) (k : ℕ) (caller : Caller T O) (stage : CallStage) : Channel T O :=
  { S with
    callers := S.callers.set k { caller with stage := stage }
    gateTaken := if caller.stage.hasGate && !stage.hasGate then false else S.gateTaken }

/-- Whether a caller holds the receiver of request `n`. -/
def listens (S : Channel T O) (n : ℕ) : Bool :=
  S.callers.any (fun caller => caller.stage.listensTo n)

def delivers (S : Channel T O) (origin : Option ℕ)
    (routed : Option (ControlState T × List (Ticket × Reply P T))) : Channel T O :=
  match routed with
  | some (control, sends) =>
      { S with
        control := control
        delivered := S.delivered ++
          (sends.filter (fun e => S.listens e.1)).map (fun e => ⟨e.1, origin, e.2.isOk⟩) }
  | none => S

/-- What the caller of request `n` was answered, if it was. -/
def answerTo (S : Channel T O) (n : ℕ) : Option Bool :=
  (S.delivered.find? (fun d => d.taker = n)).map Delivery.replied

def advance [DecidableEq T] [DecidableEq O] (S : Channel T O) (k : ℕ) (caller : Caller T O)
    (ok : Bool) (others : ℕ) : Option (Channel T O) :=
  match caller.stage, caller.request with
  | .looking, .ensureTask load =>
      some (S.moves k caller (if load ∈ S.loads then .returned else .gate))
  | .gate, request =>
      if S.gateTaken then
        none
      else
        some { S.moves k caller (if request = .capabilities then .arming else .relooking) with
          gateTaken := true }
  | .relooking, .ensureTask load =>
      some (S.moves k caller (if load ∈ S.loads then .returned else .admitting))
  | .admitting, _ => some (S.moves k caller (if ok then .arming else .failed))
  | .arming, request =>
      let id := S.nextControlId + others
      match S.control.arm ⟨controlId id, request.op, S.issued.length⟩ with
      | .ok control =>
          some { S.moves k caller (.writing S.issued.length) with
            control := control
            nextControlId := id + 1
            issued := S.issued ++ [⟨id, request, false, none⟩] }
      | .error _ => some { S.moves k caller .failed with nextControlId := id + 1 }
  | .writing n, _ =>
      if ok then
        some { S.moves k caller (.flushing n) with
          issued := S.issued.modify n (fun x => { x with written := true }) }
      else
        some (S.moves k caller .failed)
  | .flushing n, _ => some (S.moves k caller (if ok then .waiting n else .failed))
  | .waiting n, request =>
      match S.answerTo n with
      | some true =>
          some (S.moves k caller (if request = .capabilities then .returned else .confirming n))
      | some false => some (S.moves k caller .failed)
      | none => none
  | .confirming n, _ => some (S.moves k caller (.recording n))
  | .recording _, .ensureTask load =>
      some { S.moves k caller .returned with loads := load :: S.loads }
  | _, _ => none

def step [DecidableEq T] [DecidableEq O] (S : Channel T O) :
    ChannelEvent P T O → Option (Channel T O)
  | .calls request =>
      some { S with callers := S.callers ++
        [⟨request, if request = .capabilities then .gate else .looking⟩] }
  | .advances k ok others => S.callers[k]?.bind (fun caller => S.advance k caller ok others)
  | .stops k =>
      S.callers[k]?.bind (fun caller =>
        if caller.stage.awaits then some (S.moves k caller .stopped) else none)
  | .answers n form =>
      S.issued[n]?.bind (fun x =>
        if x.written = true ∧ x.answered = none then
          some { S.delivers (some n) (form.deliver x S.control) with
            issued := S.issued.modify n (fun x => { x with answered := some form.replies }) }
        else
          none)
  | .strays failure => some (S.delivers (P := P) none (S.control.deliver (.unowned failure)))
  | .closes reason => some (S.delivers (P := P) none (some (S.control.close reason)))

end Channel

end Batchalign.SharedGpu
