import Mathlib.Tactic

/- Where the replies of a shared GPU worker go (`shared_gpu/{routes,reader}.rs`): to the dispatches that
   wait by request id or the op that waits in its slot, by `Line.route`. Each function is one hold of
   its lock; a waiter is the ticket of its channel, and sends are given back beside the new state. `P`
   is what a reply carries beside what the routes read, `T` the worker's tasks. -/
namespace Batchalign.SharedGpu

inductive Retirement where
  | poolShutdown
  | workerRetired

inductive StreamClosed where
  | eof
  | readFailed (error : String)
  | noise (lastLine : String)
  | readerStopped
  | stopped (why : Retirement)

inductive WorkerErrorKind where
  | runtime
  | bootstrap
  | download
  | outOfMemory
  | accessDenied
  | invalidRequest

/-- An `op=error` line that decodes. -/
structure ReportedFailure where
  message : String
  kind : WorkerErrorKind

/-- What of `WorkerError` a waiter can be answered with. -/
inductive WorkerError where
  | processExited (stderr : String)
  | outputNoise (lastLine : String)
  | protocol (detail : String)
  | poolShuttingDown
  | workerRetired
  | workerResponse (message : String)
  | bootstrap (message : String)
  | modelDownload (message : String)
  | deviceOutOfMemory (message : String)
  | modelAccessDenied (message : String)
  | requestRefused (message : String)

def Retirement.toWorkerError : Retirement → WorkerError
  | .poolShutdown => .poolShuttingDown
  | .workerRetired => .workerRetired

def StreamClosed.toWorkerError : StreamClosed → WorkerError
  | .eof => .processExited "GPU worker closed its output stream (EOF)"
  | .readFailed error => .processExited ("reading GPU worker output failed: " ++ error)
  | .readerStopped => .processExited "GPU worker response reader stopped"
  | .noise lastLine => .outputNoise lastLine
  | .stopped why => why.toWorkerError

def ReportedFailure.intoWorkerError (failure : ReportedFailure) : WorkerError :=
  match failure.kind with
  | .runtime => .workerResponse failure.message
  | .bootstrap => .bootstrap failure.message
  | .download => .modelDownload failure.message
  | .outOfMemory => .deviceOutOfMemory failure.message
  | .accessDenied => .modelAccessDenied failure.message
  | .invalidRequest => .requestRefused failure.message

inductive ReplyFailure where
  | reported (failure : ReportedFailure)
  | refused (detail : String)
  | streamClosed (reason : StreamClosed)

/-- `ReplyFailure::into_worker_error`, with the dispatch's reading of a reported failure -/
def ReplyFailure.intoWorkerError : ReplyFailure → WorkerError
  | .reported failure => failure.intoWorkerError
  | .refused detail => .protocol detail
  | .streamClosed reason => reason.toWorkerError

/-- A `oneshot` channel, by the order they were made in. -/
abbrev Ticket := ℕ

/-- A `DispatchReply` (the first two), or a `ControlAnswer` of one of the three ops. -/
inductive Reply (P T : Type) where
  | executed (requestId : String) (payload : P)
  | dispatchError (error : WorkerError)
  | capabilities (payload : P)
  | ensureTask (task : T) (payload : P)
  | acknowledged
  | failed (failure : ReplyFailure)

/-- The id that `ControlRequestId::next` mints of its counter. -/
def controlId (n : ℕ) : String := "control-" ++ toString n

theorem controlId_inj {m n : ℕ} (h : controlId m = controlId n) : m = n := by
  have hrepr : toString m = toString n := by
    have hlist := congrArg String.toList h
    simp only [controlId, String.toList_append] at hlist
    exact String.toList_injective (List.append_cancel_left hlist)
  have hdigits : Nat.toDigits 10 m = Nat.toDigits 10 n := by
    have hlist := congrArg String.toList hrepr
    simpa [Nat.repr] using hlist
  rw [← Nat.ofDigitChars_toDigits (n := m) (by decide : 1 < 10) (by decide),
    ← Nat.ofDigitChars_toDigits (n := n) (by decide : 1 < 10) (by decide), hdigits]

/-! `PendingDispatches` -/

/-- Who waits for a dispatch, or why nobody may. -/
inductive PendingState where
  | open (waiting : List (String × Ticket))
  | closed (reason : StreamClosed)

namespace PendingState

def register (pending : PendingState) (requestId : String) (ticket : Ticket) :
    Except WorkerError PendingState :=
  match pending with
  | .closed reason => .error reason.toWorkerError
  | .open waiting =>
      if waiting.any (fun e => e.1 = requestId) then
        .error (.protocol
          ("request id " ++ requestId ++ " is already waiting for a GPU worker reply"))
      else
        .ok (.open ((requestId, ticket) :: waiting))

def withdraw (pending : PendingState) (requestId : String) : PendingState :=
  match pending with
  | .open waiting => .open (waiting.filter (fun e => e.1 ≠ requestId))
  | .closed reason => .closed reason

def waiter? (pending : PendingState) (requestId : String) : Option Ticket :=
  match pending with
  | .open waiting => (waiting.find? (fun e => e.1 = requestId)).map Prod.snd
  | .closed _ => none

def waiting : PendingState → List (String × Ticket)
  | .open waiting => waiting
  | .closed _ => []

/-- `PendingDispatches::answer`; none where nobody waits for the id -/
def answer (pending : PendingState) (requestId : String) : Option (PendingState × Ticket) :=
  (pending.waiter? requestId).map (fun ticket => (pending.withdraw requestId, ticket))

/-- The new state, the dispatches answered, and whether this call closed the
map. -/
def close (pending : PendingState) (reason : StreamClosed) : PendingState × List Ticket × Bool :=
  match pending with
  | .open waiting => (.closed reason, waiting.map Prod.snd, true)
  | .closed previous => (.closed previous, [], false)

end PendingState

/-! `ControlSlot` -/

inductive ControlOpName where
  | capabilities
  | ensureTask
deriving DecidableEq

def ControlOpName.wireName : ControlOpName → String
  | .capabilities => "capabilities"
  | .ensureTask => "ensure_task"

inductive ControlReply (P T : Type) where
  | capabilities (payload : P)
  | ensureTask (task : T) (payload : P)
  | shutdown

inductive ControlLine (P T : Type) where
  | reply (reply : ControlReply P T)
  | undecodable (op : ControlOpName) (detail : String)
  | unowned (failure : ReplyFailure)

inductive ControlOp (T : Type) where
  | capabilities
  | ensureTask (task : T)
deriving DecidableEq

structure ControlWaiter (T : Type) where
  requestId : String
  op : ControlOp T
  ticket : Ticket

/-- `ControlWaiter::op` -/
def ControlOp.name {T : Type} : ControlOp T → ControlOpName
  | .capabilities => .capabilities
  | .ensureTask _ => .ensureTask

inductive ControlState (T : Type) where
  | idle
  | waiting (waiter : ControlWaiter T)
  | shuttingDown (ack : Ticket) (why : Retirement)
  | closed (reason : StreamClosed)

variable {P T : Type}

/-- What the waiter is answered with, if the line answers it. -/
def ControlWaiter.offer [DecidableEq T] (waiter : ControlWaiter T) (line : ControlLine P T) :
    Option (Reply P T) :=
  match waiter.op, line with
  | .capabilities, .reply (.capabilities payload) => some (.capabilities payload)
  | .ensureTask task, .reply (.ensureTask named payload) =>
      if named = task then some (.ensureTask named payload) else none
  | op, .undecodable named detail =>
      if named = op.name then some (.failed (.refused detail)) else none
  | _, .unowned failure => some (.failed failure)
  | _, .reply _ => none

namespace ControlState

def arm (control : ControlState T) (waiter : ControlWaiter T) :
    Except WorkerError (ControlState T) :=
  match control with
  | .idle | .waiting _ => .ok (.waiting waiter)
  | .shuttingDown _ why => .error why.toWorkerError
  | .closed reason => .error reason.toWorkerError

/-- `ControlSlot::begin_shutdown`; none where shutdown already began or the stream closed -/
def beginShutdown (control : ControlState T) (why : Retirement) (ack : Ticket) :
    Option (ControlState T × List (Ticket × Reply P T)) :=
  match control with
  | .idle => some (.shuttingDown ack why, [])
  | .waiting superseded =>
      some (.shuttingDown ack why, [(superseded.ticket, .failed (.streamClosed (.stopped why)))])
  | .shuttingDown _ _ | .closed _ => none

/-- `ControlSlot::deliver`; none where the line is handed back -/
def deliver [DecidableEq T] (control : ControlState T) (line : ControlLine P T) :
    Option (ControlState T × List (Ticket × Reply P T)) :=
  match control with
  | .waiting waiter => (waiter.offer line).map (fun reply => (.idle, [(waiter.ticket, reply)]))
  | .shuttingDown ack why =>
      match line with
      | .reply .shutdown => some (.closed (.stopped why), [(ack, .acknowledged)])
      | .unowned failure => some (.closed (.stopped why), [(ack, .failed failure)])
      | .reply (.capabilities _) | .reply (.ensureTask _ _) | .undecodable _ _ => none
  | .idle | .closed _ => none

/-- `ControlSlot::deliver_tagged_failure`; none where the failure is handed back -/
def deliverTaggedFailure (control : ControlState T) (requestId : String)
    (failure : ReplyFailure) : Option (ControlState T × List (Ticket × Reply P T)) :=
  match control with
  | .waiting waiter =>
      if waiter.requestId = requestId then
        some (.idle, [(waiter.ticket, .failed failure)])
      else
        none
  | .idle | .shuttingDown _ _ | .closed _ => none

def close (control : ControlState T) (reason : StreamClosed) :
    ControlState T × List (Ticket × Reply P T) :=
  match control with
  | .waiting waiter => (.closed reason, [(waiter.ticket, .failed (.streamClosed reason))])
  | .shuttingDown ack _ => (.closed reason, [(ack, .failed (.streamClosed reason))])
  | .idle => (.closed reason, [])
  | .closed previous => (.closed previous, [])

end ControlState

/-! `route_line` -/

/-- A line that is a JSON object; `requestId` is read at the reader's pointer. -/
inductive Line (P T : Type) where
  | executeV2 (requestId : String) (payload : P)
  | executeV2Refused (responseRequestId : Option String) (error : String)
  | error (requestId : Option String) (decoded : Except String ReportedFailure)
  | loadProgress
  | requestProgress
  /-- a `progress_v2` line that decodes as another response, by its `Debug` text -/
  | otherProgress (response : String)
  | progressRefused (error : String)
  | health
  | capabilities (decoded : Except String P)
  | ensureTask (decoded : Except String (T × P))
  | shutdown
  /-- an op the protocol does not name, by its `Debug` text -/
  | unknown (op : String) (requestId responseRequestId : Option String)

inductive Routing (P T : Type) where
  /-- `pending.answer` with the response -/
  | answer (requestId : String) (payload : P)
  | failDispatch (requestId : String) (failure : ReplyFailure)
  | failOwner (requestId : String) (failure : ReplyFailure)
  | offerControl (line : ControlLine P T)
  /-- the line is logged, or goes to a load's progress channel -/
  | nothing

def decodeControl {R : Type} (op : ControlOpName) (reply : R → ControlReply P T) :
    Except String R → ControlLine P T
  | .ok response => .reply (reply response)
  | .error error =>
      .undecodable op ("failed to decode " ++ op.wireName ++ " response: " ++ error)

def failNamed (owner : Option String) (failure : ReplyFailure) : Routing P T :=
  match owner with
  | some requestId => .failOwner requestId failure
  | none => .offerControl (.unowned failure)

def Line.route : Line P T → Routing P T
  | .executeV2 requestId payload => .answer requestId payload
  | .executeV2Refused owner detail =>
      match owner with
      | some requestId =>
          .failDispatch requestId (.refused ("failed to decode execute_v2 response: " ++ detail))
      | none => .nothing
  | .error requestId decoded =>
      failNamed requestId (match decoded with
        | .ok reported => .reported reported
        | .error detail => .refused ("failed to decode error response: " ++ detail))
  | .loadProgress => .nothing
  | .requestProgress => .nothing
  | .otherProgress response =>
      .offerControl (.unowned (.refused
        ("a progress_v2 line decoded as another response: " ++ response)))
  | .progressRefused detail =>
      .offerControl (.unowned (.refused ("failed to decode progress_v2 line: " ++ detail)))
  | .health =>
      .offerControl (.unowned (.refused "health reply, but no shared GPU op asks for health"))
  | .capabilities decoded => .offerControl (decodeControl .capabilities .capabilities decoded)
  | .ensureTask decoded =>
      .offerControl (decodeControl .ensureTask (fun r => .ensureTask r.1 r.2) decoded)
  | .shutdown => .offerControl (.reply .shutdown)
  | .unknown op requestId responseRequestId =>
      failNamed (requestId.orElse (fun _ => responseRequestId))
        (.refused ("GPU worker sent an op this protocol does not name: " ++ op))

def Line.names? : Line P T → Option String
  | .executeV2 requestId _ => some requestId
  | .executeV2Refused requestId _ | .error requestId _ => requestId
  | .unknown _ requestId responseRequestId => requestId.orElse (fun _ => responseRequestId)
  | _ => none

def Routing.dispatch? : Routing P T → Option String
  | .answer requestId _ | .failDispatch requestId _ | .failOwner requestId _ => some requestId
  | .offerControl _ | .nothing => none

theorem Line.dispatch_route (line : Line P T) : line.route.dispatch? = line.names? := by
  cases line with
  | executeV2Refused owner error => cases owner <;> simp [route, names?, Routing.dispatch?]
  | error owner decoded => cases owner <;> simp [route, names?, Routing.dispatch?, failNamed]
  | unknown op owner owner' =>
    cases owner <;> cases owner' <;> simp [route, names?, Routing.dispatch?, failNamed]
  | _ => simp [route, names?, Routing.dispatch?]

end Batchalign.SharedGpu
