import Batchalign.Lib.Runs
import Batchalign.SharedGpu.Routes

/- The stream of a shared GPU worker and its waiters (`shared_gpu/{reader,channel}.rs`). One event is
   one hold of a lock: a caller registers, withdraws or arms, the reader routes a line, and any number
   of closers and shutdowns do one end and then the other. Every channel is made for one waiter (`made`,
   by ticket), and `sent` has what was sent on it and why. -/
namespace Batchalign.SharedGpu

/-- What a `oneshot` channel was made for. -/
inductive Waiter where
  | dispatch (requestId : String)
  | control
  | ack

inductive Cause (P T : Type) where
  | line (line : Line P T)
  | closed (reason : StreamClosed)

structure Answer (P T : Type) where
  reply : Reply P T
  cause : Cause P T

/-- The reader task: between lines, inside `fail_owner`, or ended. -/
inductive Reader (P T : Type) where
  | reading
  | handing (line : Line P T) (requestId : String) (failure : ReplyFailure)
  | ended

/-- `Routes::close`, `SharedGpuChannel::close` or its drop, by what comes next. -/
inductive Closer where
  | pendingNext (reason : StreamClosed)
  | controlNext (reason : StreamClosed)
  | returned

/-- `SharedGpuChannel::begin_shutdown`, by what comes next. -/
inductive Stopper where
  | pendingNext (why : Retirement)
  | controlNext (why : Retirement)
  | writing (ack : Ticket)
  | returned (ack : Option Ticket)

/-- Both ends of one stream, with every waiter made and answer sent. -/
structure Stream (P T : Type) where
  pending : PendingState
  control : ControlState T
  reader : Reader P T
  closers : List Closer
  stoppers : List Stopper
  /-- `ControlRequestId::next`'s counter -/
  nextControlId : ℕ
  made : List Waiter
  sent : Ticket → List (Answer P T)
  /-- the tickets of dispatches withdrawn and of ops replaced in the slot -/
  gone : List Ticket
  /-- the ops armed -/
  ops : List (ControlWaiter T)

variable {P T : Type}

def Stream.open : Stream P T :=
  ⟨.open [], .idle, .reading, [], [], 0, [], fun _ => [], [], []⟩

/-- The calls on a stream, its lines, and the locked sections of its closers. -/
inductive Event (P T : Type) where
  | register (requestId : String)
  | withdraw (requestId : String)
  /-- `others` control ids were taken by other channels since -/
  | arm (op : ControlOp T) (others : ℕ)
  | line (line : Line P T)
  | handsOn
  | readerEnds (reason : StreamClosed)
  | closes (why : Retirement)
  | stops (why : Retirement)
  | closerAdvances (k : ℕ)
  | stopperAdvances (k : ℕ) (written : Bool)

def ControlState.waiter? : ControlState T → Option Ticket
  | .waiting waiter => some waiter.ticket
  | _ => none

def ControlState.ack? : ControlState T → Option Ticket
  | .shuttingDown ack _ => some ack
  | _ => none

namespace Stream

def sends (S : Stream P T) (sends : List (Ticket × Reply P T)) (cause : Cause P T) :
    Ticket → List (Answer P T) :=
  fun t => S.sent t ++ (sends.filter (fun e => e.1 = t)).map (fun e => ⟨e.2, cause⟩)

/-- `pending.answer` with the reply, by the reader -/
def answerDispatch (S : Stream P T) (requestId : String) (reply : Reply P T) (line : Line P T) :
    Stream P T :=
  match S.pending.answer requestId with
  | some (pending, ticket) =>
      { S with pending := pending, sent := S.sends [(ticket, reply)] (.line line) }
  | none => S

def routeLine [DecidableEq T] (S : Stream P T) (line : Line P T) : Stream P T :=
  match line.route with
  | .answer requestId payload => S.answerDispatch requestId (.executed requestId payload) line
  | .failDispatch requestId failure =>
      S.answerDispatch requestId (.dispatchError failure.intoWorkerError) line
  | .failOwner requestId failure =>
      match S.control.deliverTaggedFailure requestId failure with
      | some (control, sends) =>
          { S with control := control, sent := S.sends sends (.line line) }
      | none => { S with reader := .handing line requestId failure }
  | .offerControl offered =>
      match S.control.deliver offered with
      | some (control, sends) =>
          { S with control := control, sent := S.sends sends (.line line) }
      | none => S
  | .nothing => S

/-- `pending.close(reason)` -/
def closePending (S : Stream P T) (reason : StreamClosed) : Stream P T :=
  { S with
    pending := (S.pending.close reason).1
    sent := S.sends ((S.pending.close reason).2.1.map
      (fun t => (t, .dispatchError reason.toWorkerError))) (.closed reason) }

/-- `control.close(reason)` -/
def closeControl (S : Stream P T) (reason : StreamClosed) : Stream P T :=
  { S with
    control := (S.control.close (P := P) reason).1
    sent := S.sends (S.control.close reason).2 (.closed reason) }

def closerStep (S : Stream P T) (k : ℕ) : Closer → Option (Stream P T)
  | .pendingNext reason =>
      some { S.closePending reason with closers := S.closers.set k (.controlNext reason) }
  | .controlNext reason =>
      some { S.closeControl reason with closers := S.closers.set k .returned }
  | .returned => none

def stopperStep (S : Stream P T) (k : ℕ) (written : Bool) : Stopper → Option (Stream P T)
  | .pendingNext why =>
      some { S.closePending (.stopped why) with
        stoppers := S.stoppers.set k
          (if (S.pending.close (.stopped why)).2.2 then .controlNext why else .returned none) }
  | .controlNext why =>
      match S.control.beginShutdown why S.made.length with
      | some (control, sends) =>
          some { S with
            control := control
            made := S.made ++ [.ack]
            sent := S.sends sends (.closed (.stopped why))
            stoppers := S.stoppers.set k (.writing S.made.length) }
      | none => some { S with stoppers := S.stoppers.set k (.returned none) }
  | .writing ack =>
      some { S with
        stoppers := S.stoppers.set k (.returned (if written then some ack else none)) }
  | .returned _ => none

/-- `PendingDispatches::register`, of a dispatch not yet written -/
def register (S : Stream P T) (requestId : String) : Stream P T :=
  match S.pending.register requestId S.made.length with
  | .ok pending => { S with pending := pending, made := S.made ++ [.dispatch requestId] }
  | .error _ => S

/-- `ControlSlot::arm_capabilities` and `arm_ensure_task` -/
def arm (S : Stream P T) (op : ControlOp T) (others : ℕ) : Stream P T :=
  let id := S.nextControlId + others
  match S.control.arm ⟨controlId id, op, S.made.length⟩ with
  | .ok control =>
      { S with
        control := control
        nextControlId := id + 1
        made := S.made ++ [.control]
        gone := S.control.waiter?.toList ++ S.gone
        ops := ⟨controlId id, op, S.made.length⟩ :: S.ops }
  | .error _ => { S with nextControlId := id + 1 }

def step [DecidableEq T] (S : Stream P T) : Event P T → Option (Stream P T)
  | .register requestId => some (S.register requestId)
  | .withdraw requestId =>
      some { S with
        pending := S.pending.withdraw requestId
        gone := (S.pending.waiter? requestId).toList ++ S.gone }
  | .arm op others => some (S.arm op others)
  | .line line =>
      match S.reader with
      | .reading => some (S.routeLine line)
      | _ => none
  | .handsOn =>
      match S.reader with
      | .handing line requestId failure =>
          some { S.answerDispatch requestId (.dispatchError failure.intoWorkerError) line with
            reader := .reading }
      | _ => none
  | .readerEnds reason =>
      match S.reader with
      | .reading => some { S with reader := .ended, closers := S.closers ++ [.pendingNext reason] }
      | _ => none
  | .closes why => some { S with closers := S.closers ++ [.pendingNext (.stopped why)] }
  | .stops why => some { S with stoppers := S.stoppers ++ [.pendingNext why] }
  | .closerAdvances k => S.closers[k]?.bind (S.closerStep k)
  | .stopperAdvances k written => S.stoppers[k]?.bind (S.stopperStep k written)

end Stream

end Batchalign.SharedGpu
