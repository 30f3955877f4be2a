import Batchalign.Lib.Crew
import Batchalign.SharedGpu.Channel

/- What a recorded load was answered by. The slot takes an answer by its op and task, so the answer to
   an op that stopped waiting goes to the next that asked for the same (`fits`), and a load is recorded
   for the overrides of the second op. -/
namespace Batchalign.SharedGpu
open List

variable {P T O : Type} {note : Issued T O → Issued T O}

/-- Every recorded load was answered by the worker, and no waiter got the answer to another request. -/
structure Honest (S : Channel T O) : Prop where
  answered : ∀ load ∈ S.loads, ∃ x ∈ S.issued, x.request = .ensureTask load ∧ x.answered = some true
  own : ∀ d ∈ S.delivered, ∀ o ∈ d.origin, o = d.taker

/-- Whether an op takes an answer of this form, by what it asked for. -/
def AnswerForm.fits [DecidableEq T] (form : AnswerForm P) (asked : ControlRequest T O)
    (op : ControlOp T) : Bool :=
  match form with
  | .reply _ => asked.op = op
  | .undecodable _ => asked.op.name = op.name
  | .tagged _ => false
  | .untagged _ => true

def ChannelEvent.keepsApart [DecidableEq T] (S : Channel T O) : ChannelEvent P T O → Bool
  | .answers n form =>
      match S.control, S.issued[n]? with
      | .waiting w, some x => w.ticket = n || !(S.listens w.ticket && form.fits x.request w.op)
      | _, _ => true
  | _ => true

def CallStage.request? : CallStage → Option ℕ
  | .writing n | .flushing n | .waiting n | .confirming n | .recording n => some n
  | _ => none

def CallStage.answered? : CallStage → Option ℕ
  | .confirming n | .recording n => some n
  | _ => none

def Channel.requests (S : Channel T O) : List (ℕ × ControlRequest T O) :=
  S.issued.map (fun x => (x.id, x.request))

structure Traced (S : Channel T O) : Prop where
  running : ∀ ack why, S.control ≠ .shuttingDown ack why
  waiter : ∀ w, S.control = .waiting w → ∃ r, S.requests[w.ticket]? = some r ∧
    w.requestId = controlId r.1
  idsBelow : ∀ r ∈ S.requests, r.1 < S.nextControlId
  idsDistinct : (S.requests.map Prod.fst).Nodup
  callers : ∀ c ∈ S.callers, ∀ n ∈ c.stage.request?, ∃ r, S.requests[n]? = some r ∧ r.2 = c.request
  confirmed : ∀ c ∈ S.callers, ∀ n ∈ c.stage.answered?, ∃ d ∈ S.delivered,
    d.taker = n ∧ d.replied = true
  replies : ∀ d ∈ S.delivered, d.replied = true → ∃ o ∈ d.origin, ∃ x, S.issued[o]? = some x ∧
    x.answered = some true

/-! The requests. -/

theorem map_modify_requests (issued : List (Issued T O)) (n : ℕ)
    (hnote : ∀ x, ((note x).id, (note x).request) = (x.id, x.request)) :
    (issued.modify n note).map (fun x => (x.id, x.request)) =
      issued.map (fun x => (x.id, x.request)) := by
  apply ext_getElem?
  intro j
  by_cases hj : n = j <;>
    cases hx : issued[j]? <;>
    simp_all [getElem?_map]

variable {n : ℕ} {S S' : Channel T O} {control : ControlState T}

theorem getElem?_modify_answered {issued : List (Issued T O)} {o : ℕ}
    (hnote : ∀ x, issued[n]? = some x → x.answered = some true → (note x).answered = some true)
    (h : ∃ x, issued[o]? = some x ∧ x.answered = some true) :
    ∃ x, (issued.modify n note)[o]? = some x ∧ x.answered = some true := by
  obtain ⟨x, hx, hanswered⟩ := h
  by_cases ho : n = o
  · subst ho
    exact ⟨note x, by simp [hx], hnote x hx hanswered⟩
  · exact ⟨x, by simp [ho, hx], hanswered⟩

/-! What one step of a caller does. -/

inductive Advanced (S : Channel T O) (k : ℕ) (c : Caller T O) : Channel T O → Prop
  | moves (stage : CallStage) (gate : Bool)
      (hrequest : ∀ n ∈ stage.request?, n ∈ c.stage.request?)
      (hanswered : ∀ n ∈ stage.answered?, n ∈ c.stage.answered? ∨ S.answerTo n = some true) :
      Advanced S k c { S.moves k c stage with gateTaken := gate }
  | arms (id : ℕ) (w : ControlWaiter T) (hid : S.nextControlId ≤ id)
      (hw : w.requestId = controlId id ∧ w.ticket = S.issued.length) :
      Advanced S k c { S.moves k c (.writing S.issued.length) with
        control := .waiting w
        nextControlId := id + 1
        issued := S.issued ++ [⟨id, c.request, false, none⟩] }
  | refused (id : ℕ) (hid : S.nextControlId ≤ id) :
      Advanced S k c { S.moves k c .failed with nextControlId := id + 1 }
  | writes (n : ℕ) (hstage : c.stage = .writing n) : Advanced S k c { S.moves k c (.flushing n) with
        issued := S.issued.modify n (fun x => { x with written := true }) }
  | records (n : ℕ) (load : TaskLoad T O) (hstage : c.stage = .recording n)
      (hrequest : c.request = .ensureTask load) :
      Advanced S k c { S.moves k c .returned with loads := load :: S.loads }

variable {c : Caller T O} {stage : CallStage}

theorem Advanced.idles {k : ℕ}
    (hrequest : stage.request? = none) (hanswered : stage.answered? = none) :
    Advanced S k c (S.moves k c stage) :=
  .moves stage _ (by simp [hrequest]) (by simp [hanswered])

variable {w : ControlWaiter T}

theorem ControlState.arm_eq_ok {control' : ControlState T}
    (h : control.arm w = .ok control') : control' = .waiting w := by
  cases control <;> cases h <;> rfl

theorem Channel.advance_cases [DecidableEq T] [DecidableEq O] {k : ℕ}
    {ok : Bool} {others : ℕ} (h : S.advance k c ok others = some S') :
    Advanced S k c S' := by
  obtain ⟨request, stage⟩ := c
  cases stage with
  | looking =>
    cases request <;> cases h
    split <;> exact .idles rfl rfl
  | gate =>
    simp only [advance] at h
    split at h
    · cases h
    · cases h
      split <;> exact .moves _ _ (by simp [CallStage.request?]) (by simp [CallStage.answered?])
  | relooking =>
    cases request <;> cases h
    split <;> exact .idles rfl rfl
  | admitting =>
    cases h
    split <;> exact .idles rfl rfl
  | arming =>
    simp only [advance] at h
    split at h
    · rename_i control harm
      cases h
      obtain rfl := ControlState.arm_eq_ok harm
      exact .arms _ _ (Nat.le_add_right _ _) ⟨rfl, rfl⟩
    · cases h
      exact .refused _ (Nat.le_add_right _ _)
  | writing n =>
    simp only [advance] at h
    split at h <;> cases h
    · exact .writes n rfl
    · exact .idles rfl rfl
  | flushing n =>
    cases h
    split
    · exact .moves _ _ (by simp [CallStage.request?]) (by simp [CallStage.answered?])
    · exact .idles rfl rfl
  | waiting n =>
    simp only [advance] at h
    split at h
    · rename_i hanswer
      cases h
      split
      · exact .idles rfl rfl
      · exact .moves _ _ (by simp [CallStage.request?])
          (by simpa [CallStage.answered?] using hanswer)
    · cases h
      exact .idles rfl rfl
    · cases h
  | confirming n =>
    cases h
    exact .moves _ _ (by simp [CallStage.request?]) (by simp [CallStage.answered?])
  | recording n =>
    cases request with
    | capabilities => cases h
    | ensureTask load =>
      cases h
      exact .records n load rfl rfl
  | _ => cases h

theorem Channel.answerTo_eq_some (h : S.answerTo n = some true) :
    ∃ d ∈ S.delivered, d.taker = n ∧ d.replied = true := by
  obtain ⟨d, hfind, hreplied⟩ := Option.map_eq_some_iff.mp h
  exact ⟨d, mem_of_find?_eq_some hfind, by simpa using find?_some hfind, hreplied⟩

namespace Traced

variable {S : Channel T O} {c : Caller T O} {k : ℕ}

section
variable (h : Traced S)
include h

theorem moves (hc : c ∈ S.callers)
    (hrequest : ∀ n ∈ stage.request?, n ∈ c.stage.request?)
    (hanswered : ∀ n ∈ stage.answered?, n ∈ c.stage.answered? ∨ S.answerTo n = some true) :
    Traced (S.moves k c stage) where
  running := h.running
  waiter := h.waiter
  idsBelow := h.idsBelow
  idsDistinct := h.idsDistinct
  callers := Crew.forall_set h.callers (fun n hn => h.callers c hc n (hrequest n hn))
  confirmed := by
    apply Crew.forall_set h.confirmed
    intro n hn
    rcases hanswered n hn with hold | hnew
    · exact h.confirmed c hc n hold
    · exact S.answerTo_eq_some hnew
  replies := h.replies

theorem idles (hc : c ∈ S.callers)
    (hrequest : stage.request? = none) (hanswered : stage.answered? = none) :
    Traced (S.moves k c stage) :=
  h.moves hc (by simp [hrequest]) (by simp [hanswered])

theorem arms {id : ℕ} (hid : S.nextControlId ≤ id)
    (hw : w.requestId = controlId id ∧ w.ticket = S.issued.length) :
    Traced { S.moves k c (.writing S.issued.length) with
      control := .waiting w
      nextControlId := id + 1
      issued := S.issued ++ [⟨id, c.request, false, none⟩] } := by
  have hlength : S.requests.length = S.issued.length := by simp [Channel.requests]
  have hnew : (S.requests ++ [(id, c.request)])[S.issued.length]? = some (id, c.request) := by
    rw [← hlength, getElem?_concat_length]
  have hold : ∀ {n : ℕ} {r : ℕ × ControlRequest T O}, S.requests[n]? = some r →
      (S.requests ++ [(id, c.request)])[n]? = some r := by
    intro n r hr
    rw [getElem?_append_left (List.getElem?_eq_some_iff.mp hr).1, hr]
  have hrequests : (S.issued ++ [(⟨id, c.request, false, none⟩ : Issued T O)]).map
      (fun x => (x.id, x.request)) = S.requests ++ [(id, c.request)] := by
    simp [Channel.requests]
  constructor
  case running => simp
  case waiter =>
    rintro _ ⟨⟩
    refine ⟨(id, c.request), ?_, hw.1⟩
    rw [Channel.requests, hrequests, hw.2, hnew]
  case idsBelow =>
    rw [Channel.requests, hrequests]
    intro r hr
    rcases mem_append.mp hr with hr | hr
    · have := h.idsBelow r hr
      simp only
      omega
    · simp_all
  case idsDistinct =>
    rw [Channel.requests, hrequests, map_append, nodup_append]
    refine ⟨h.idsDistinct, by simp, ?_⟩
    intro a ha b hb
    obtain ⟨r, hr, rfl⟩ := mem_map.mp ha
    have := h.idsBelow r hr
    simp only [map_cons, map_nil, mem_singleton] at hb
    omega
  case callers =>
    rw [Channel.requests, hrequests]
    apply Crew.forall_set
    · intro caller hcaller n hn
      obtain ⟨r, hr, hsame⟩ := h.callers caller hcaller n hn
      exact ⟨r, hold hr, hsame⟩
    · intro n hn
      obtain rfl : S.issued.length = n := by simpa [CallStage.request?] using hn
      exact ⟨_, hnew, rfl⟩
  case confirmed => exact Crew.forall_set h.confirmed (by simp [CallStage.answered?])
  case replies =>
    intro d hd hreplied
    obtain ⟨o, ho, x, hx, hanswered⟩ := h.replies d hd hreplied
    exact ⟨o, ho, x, by rw [getElem?_append_left (List.getElem?_eq_some_iff.mp hx).1, hx],
      hanswered⟩

theorem notes {n : ℕ}
    (hnote : ∀ x, ((note x).id, (note x).request) = (x.id, x.request))
    (hanswered : ∀ x, S.issued[n]? = some x → x.answered = some true →
      (note x).answered = some true) : Traced { S with issued := S.issued.modify n note } := by
  have hrequests := map_modify_requests S.issued n hnote
  constructor
  case running => exact h.running
  case waiter =>
    rw [Channel.requests, hrequests]
    exact h.waiter
  case idsBelow =>
    rw [Channel.requests, hrequests]
    exact h.idsBelow
  case idsDistinct =>
    rw [Channel.requests, hrequests]
    exact h.idsDistinct
  case callers =>
    rw [Channel.requests, hrequests]
    exact h.callers
  case confirmed => exact h.confirmed
  case replies =>
    intro d hd hreplied
    obtain ⟨o, ho, hx⟩ := h.replies d hd hreplied
    exact ⟨o, ho, getElem?_modify_answered hanswered hx⟩

theorem sends {control : ControlState T}
    {more : List Delivery} (hrunning : ∀ ack why, control ≠ .shuttingDown ack why)
    (hwaiter : ∀ w, control = .waiting w → S.control = .waiting w)
    (hreplies : ∀ d ∈ more, d.replied = true → ∃ o ∈ d.origin, ∃ x, S.issued[o]? = some x ∧
      x.answered = some true) :
    Traced { S with control := control, delivered := S.delivered ++ more } where
  running := hrunning
  waiter := fun w hw => h.waiter w (hwaiter w hw)
  idsBelow := h.idsBelow
  idsDistinct := h.idsDistinct
  callers := h.callers
  confirmed := by
    intro c hc n hn
    obtain ⟨d, hd, hto⟩ := h.confirmed c hc n hn
    exact ⟨d, mem_append_left _ hd, hto⟩
  replies := by
    intro d hd
    rcases mem_append.mp hd with hold | hnew
    · exact h.replies d hold
    · exact hreplies d hnew

theorem advanced {S' : Channel T O} (hc : c ∈ S.callers) (hstep : Advanced S k c S') : Traced S' := by
  cases hstep with
  | moves stage gate hrequest hanswered =>
    have hmoved : Traced (S.moves k c stage) := h.moves hc hrequest hanswered
    exact ⟨hmoved.1, hmoved.2, hmoved.3, hmoved.4, hmoved.5, hmoved.6, hmoved.7⟩
  | arms id w hid hw => exact h.arms hid hw
  | refused id hid =>
    have hmoved : Traced (S.moves k c .failed) := h.idles hc rfl rfl
    refine ⟨hmoved.1, hmoved.2, ?_, hmoved.4, hmoved.5, hmoved.6, hmoved.7⟩
    intro r hr
    have := h.idsBelow r hr
    simp only
    omega
  | writes n hstage =>
    have hmoved : Traced (S.moves k c (.flushing n)) :=
      h.moves hc (by simp [CallStage.request?, hstage]) (by simp [CallStage.answered?])
    exact hmoved.notes (fun _ => rfl) (fun _ _ => id)
  | records n load hstage hrequest =>
    have hmoved : Traced (S.moves k c .returned) := h.idles hc rfl rfl
    exact ⟨hmoved.1, hmoved.2, hmoved.3, hmoved.4, hmoved.5, hmoved.6, hmoved.7⟩

end

end Traced

/-! What the slot does with an answer. -/

theorem AnswerForm.deliver_waiting [DecidableEq T] (form : AnswerForm P) (x : Issued T O)
    (w : ControlWaiter T) :
    (∃ reply : Reply P T, form.deliver x (.waiting w) = some (.idle, [(w.ticket, reply)]) ∧
      reply.isOk = form.replies ∧ (form.fits x.request w.op = true ∨ w.requestId = controlId x.id)) ∨
    (form.deliver x (.waiting w) = none ∧ form.fits x.request w.op = false) := by
  obtain ⟨requestId, op, ticket⟩ := w
  cases form with
  | reply payload =>
    cases hx : x.request <;> cases op <;>
      simp only [deliver, fits, ControlState.deliver, ControlWaiter.offer, ControlRequest.reply,
        ControlRequest.op, hx]
    case ensureTask.ensureTask load task =>
      by_cases htask : load.task = task <;> simp [htask, Reply.isOk, replies]
    all_goals simp [Reply.isOk, replies]
  | undecodable error =>
    cases hx : x.request <;> cases op <;>
      simp [deliver, fits, ControlState.deliver, ControlWaiter.offer, ControlRequest.op,
        ControlOp.name, hx, Reply.isOk, replies]
  | tagged failure =>
    by_cases hid : requestId = controlId x.id <;>
      simp [deliver, fits, ControlState.deliverTaggedFailure, hid, Reply.isOk, replies]
  | untagged failure =>
    cases op <;>
      simp [deliver, fits, ControlState.deliver, ControlWaiter.offer, Reply.isOk, replies]

theorem AnswerForm.deliver_of_none [DecidableEq T] (form : AnswerForm P) (x : Issued T O)
    (hwaiting : ∀ w, control ≠ .waiting w)
    (hrunning : ∀ ack why, control ≠ .shuttingDown ack why) : form.deliver x control = none := by
  cases control with
  | waiting w => exact absurd rfl (hwaiting w)
  | shuttingDown ack why => exact absurd rfl (hrunning ack why)
  | _ => cases form <;> rfl

namespace Channel

theorem sends_failed [DecidableEq T] {S : Channel T O}
    (hrunning : ∀ ack why, S.control ≠ .shuttingDown ack why) {failure : ReplyFailure}
    {control : ControlState T} {sends : List (Ticket × Reply P T)}
    (h : S.control.deliver (.unowned failure) = some (control, sends)) :
    control = .idle ∧ ∀ e ∈ sends, e.2.isOk = false := by
  cases hcontrol : S.control with
  | waiting w =>
    obtain ⟨requestId, op, ticket⟩ := w
    rw [hcontrol] at h
    cases op <;>
      simp [ControlState.deliver, ControlWaiter.offer] at h <;>
      obtain ⟨rfl, rfl⟩ := h <;>
      simp [Reply.isOk]
  | shuttingDown ack why => exact absurd hcontrol (hrunning ack why)
  | _ => simp [hcontrol, ControlState.deliver] at h

theorem sends_closed {control control' : ControlState T} {reason : StreamClosed}
    {sends : List (Ticket × Reply P T)} (h : control.close reason = (control', sends))
    (hrunning : ∀ ack why, control ≠ .shuttingDown ack why) :
    (∃ previous, control' = .closed previous) ∧ ∀ e ∈ sends, e.2.isOk = false := by
  cases control <;> cases h <;> simp [Reply.isOk]

end Channel

theorem Traced.fails (h : Traced S) {sends : List (Ticket × Reply P T)} (hrunning : ∀ ack why, control ≠ .shuttingDown ack why)
    (hwaiter : ∀ w, control ≠ .waiting w) (hsends : ∀ e ∈ sends, e.2.isOk = false) :
    Traced (S.delivers none (some (control, sends))) := by
  apply h.sends hrunning (fun w hw => absurd hw (hwaiter w))
  intro d hd hreplied
  obtain ⟨e, he, rfl⟩ := mem_map.mp hd
  simp [hsends e (mem_filter.mp he).1] at hreplied

theorem Traced.step [DecidableEq T] [DecidableEq O] (h : Traced S)
    {e : ChannelEvent P T O} (hstep : S.step e = some S') : Traced S' := by
  cases e with
  | calls request =>
    cases hstep
    have hfirst : ∀ stage : CallStage, stage = .gate ∨ stage = .looking →
        stage.request? = none ∧ stage.answered? = none := by
      rintro _ (rfl | rfl) <;> exact ⟨rfl, rfl⟩
    obtain ⟨hrequest, hanswered⟩ := hfirst (if request = .capabilities then .gate else .looking)
      (by split <;> simp)
    refine ⟨h.1, h.2, h.3, h.4, ?_, ?_, h.7⟩
    · intro c hc
      rcases mem_append.mp hc with hold | hnew
      · exact h.callers c hold
      · obtain rfl := mem_singleton.mp hnew
        simp [hrequest]
    · intro c hc
      rcases mem_append.mp hc with hold | hnew
      · exact h.confirmed c hold
      · obtain rfl := mem_singleton.mp hnew
        simp [hanswered]
  | advances k ok others =>
    obtain ⟨c, hc, hadvance⟩ := Option.bind_eq_some_iff.mp hstep
    exact h.advanced (mem_of_getElem? hc) (Channel.advance_cases hadvance)
  | stops k =>
    obtain ⟨c, hc, hstop⟩ := Option.bind_eq_some_iff.mp hstep
    split at hstop <;> cases hstop
    exact h.idles (mem_of_getElem? hc) rfl rfl
  | answers n form =>
    obtain ⟨x, hx, hanswer⟩ := Option.bind_eq_some_iff.mp hstep
    split at hanswer
    swap
    · cases hanswer
    cases hanswer
    -- the answer is noted first: what is delivered goes back to it
    have hnoted : Traced { S with issued := S.issued.modify n fun x =>
        { x with answered := some form.replies } } :=
      h.notes (fun _ => rfl) (by simp_all)
    by_cases hwaiting : ∃ w, S.control = .waiting w
    · obtain ⟨w, hw⟩ := hwaiting
      rw [hw]
      rcases form.deliver_waiting x w with ⟨reply, hdeliver, hok, -⟩ | ⟨hdeliver, -⟩
      · rw [hdeliver]
        refine hnoted.sends (by simp [Channel.delivers]) (by simp [Channel.delivers]) ?_
        intro d hd hreplied
        obtain ⟨e, he, rfl⟩ := mem_map.mp hd
        obtain rfl := mem_singleton.mp (mem_filter.mp he).1
        refine ⟨n, rfl, { x with answered := some form.replies }, by simp [hx], ?_⟩
        simpa [← hok] using hreplied
      · rw [hdeliver]
        exact hnoted
    · rw [form.deliver_of_none x (by simpa using hwaiting) h.running]
      exact hnoted
  | strays failure =>
    cases hstep
    cases hdeliver : S.control.deliver (P := P) (.unowned failure) with
    | none => exact h
    | some routed =>
      obtain ⟨control, sends⟩ := routed
      obtain ⟨rfl, hfailed⟩ := Channel.sends_failed h.running hdeliver
      exact h.fails (by simp) (by simp) hfailed
  | closes reason =>
    cases hstep
    rcases hclose : S.control.close (P := P) reason with ⟨control, sends⟩
    obtain ⟨⟨previous, rfl⟩, hfailed⟩ := Channel.sends_closed hclose h.running
    exact h.fails (by simp) (by simp) hfailed

namespace Honest

variable {S : Channel T O}

section
variable (h : Honest S)
include h

theorem notes {n : ℕ}
    (hnote : ∀ x, (note x).request = x.request)
    (hanswered : ∀ x, S.issued[n]? = some x → x.answered = some true →
      (note x).answered = some true) : Honest { S with issued := S.issued.modify n note } := by
  refine ⟨?_, h.own⟩
  intro load hload
  obtain ⟨x, hx, hrequest, hx'⟩ := h.answered load hload
  obtain ⟨o, ho⟩ := mem_iff_getElem?.mp hx
  by_cases hon : n = o
  · subst hon
    refine ⟨note x, mem_iff_getElem?.mpr ⟨n, by simp [ho]⟩, ?_, hanswered x ho hx'⟩
    rw [hnote, hrequest]
  · exact ⟨x, mem_iff_getElem?.mpr ⟨o, by simp [hon, ho]⟩, hrequest, hx'⟩

theorem own_request (htraced : Traced S)
    (hc : c ∈ S.callers) {n : ℕ} (hrequest : n ∈ c.stage.request?) (hanswered : n ∈ c.stage.answered?) :
    ∃ x ∈ S.issued, x.request = c.request ∧ x.answered = some true := by
  obtain ⟨d, hd, rfl, hreplied⟩ := htraced.confirmed c hc n hanswered
  obtain ⟨o, ho, x, hx, hx'⟩ := htraced.replies d hd hreplied
  obtain rfl := h.own d hd o ho
  obtain ⟨r, hr, hsame⟩ := htraced.callers c hc d.taker hrequest
  have hxr : (x.id, x.request) = r := by simpa [Channel.requests, hx] using hr
  refine ⟨x, mem_of_getElem? hx, ?_, hx'⟩
  rw [← hsame, ← hxr]

theorem advanced {S' : Channel T O} (htraced : Traced S) {k : ℕ}
    (hc : c ∈ S.callers) (hstep : Advanced S k c S') : Honest S' := by
  cases hstep with
  | moves stage gate hrequest hanswered => exact ⟨h.1, h.2⟩
  | arms id w hid hw =>
    refine ⟨?_, h.own⟩
    intro load hload
    obtain ⟨x, hx, hanswered⟩ := h.answered load hload
    exact ⟨x, mem_append_left _ hx, hanswered⟩
  | refused id hid => exact ⟨h.1, h.2⟩
  | writes n hstage =>
    have hmoved : Honest (S.moves k c (.flushing n)) := ⟨h.1, h.2⟩
    exact hmoved.notes (fun _ => rfl) (fun _ _ => id)
  | records n load hstage hrequest =>
    refine ⟨?_, h.own⟩
    intro load' hload'
    rcases mem_cons.mp hload' with rfl | hold
    · rw [← hrequest]
      exact h.own_request htraced hc (n := n) (by simp [CallStage.request?, hstage])
        (by simp [CallStage.answered?, hstage])
    · exact h.answered load' hold

theorem fails (control : ControlState T)
    (sends : List (Ticket × Reply P T)) : Honest (S.delivers none (some (control, sends))) := by
  refine ⟨h.answered, ?_⟩
  intro d hd
  rcases mem_append.mp hd with hold | hnew
  · exact h.own d hold
  · obtain ⟨e, -, rfl⟩ := mem_map.mp hnew
    simp

theorem delivers_iff (control : ControlState T) (n : ℕ) (e : Ticket × Reply P T) :
    Honest (S.delivers (some n) (some (control, [e]))) ↔ (S.listens e.1 = true → e.1 = n) := by
  constructor
  · intro hafter hlistens
    refine (hafter.own ⟨e.1, some n, e.2.isOk⟩ ?_ n rfl).symm
    simp [Channel.delivers, hlistens]
  · intro hown
    refine ⟨h.answered, ?_⟩
    intro d hd
    rcases mem_append.mp hd with hold | hnew
    · exact h.own d hold
    · obtain ⟨e', he', rfl⟩ := mem_map.mp hnew
      obtain ⟨hmem, hlistens⟩ := mem_filter.mp he'
      obtain rfl := mem_singleton.mp hmem
      simpa using (hown hlistens).symm

end

end Honest

theorem Traced.ticket_eq (h : Traced S) {x : Issued T O} (hw : S.control = .waiting w) (hx : S.issued[n]? = some x)
    (hid : w.requestId = controlId x.id) : w.ticket = n := by
  obtain ⟨r, hr, hrid⟩ := h.waiter w hw
  have hsame : x.id = r.1 := controlId_inj (hid.symm.trans hrid)
  have hfirst : (S.requests.map Prod.fst)[w.ticket]? = some x.id := by simp [hr, hsame]
  have hsecond : (S.requests.map Prod.fst)[n]? = some x.id := by simp [Channel.requests, hx]
  exact (getElem?_inj (List.getElem?_eq_some_iff.mp hfirst).1 h.idsDistinct).mp
    (hfirst.trans hsecond.symm)

theorem honest_step_iff [DecidableEq T] [DecidableEq O] (htraced : Traced S) (h : Honest S) {e : ChannelEvent P T O} (hstep : S.step e = some S') :
    Honest S' ↔ e.keepsApart S = true := by
  cases e with
  | calls request =>
    cases hstep
    exact iff_of_true ⟨h.1, h.2⟩ rfl
  | advances k ok others =>
    obtain ⟨c, hc, hadvance⟩ := Option.bind_eq_some_iff.mp hstep
    exact iff_of_true
      (h.advanced htraced (mem_of_getElem? hc) (Channel.advance_cases hadvance)) rfl
  | stops k =>
    obtain ⟨c, hc, hstop⟩ := Option.bind_eq_some_iff.mp hstep
    split at hstop <;> cases hstop
    exact iff_of_true ⟨h.1, h.2⟩ rfl
  | answers n form =>
    obtain ⟨x, hx, hanswer⟩ := Option.bind_eq_some_iff.mp hstep
    split at hanswer
    swap
    · cases hanswer
    cases hanswer
    have hnoted : Honest { S with issued := S.issued.modify n fun x =>
        { x with answered := some form.replies } } :=
      h.notes (fun _ => rfl) (by simp_all)
    by_cases hwaiting : ∃ w, S.control = .waiting w
    · obtain ⟨w, hw⟩ := hwaiting
      rw [hw]
      rcases form.deliver_waiting x w with ⟨reply, hdeliver, -, htaken⟩ | ⟨hdeliver, hunfit⟩
      · rw [hdeliver]
        refine (hnoted.delivers_iff .idle n (w.ticket, reply)).trans ?_
        rcases htaken with hfits | hid
        · simp [ChannelEvent.keepsApart, hw, hx, hfits, Channel.listens, imp_iff_or_not]
        · simp [ChannelEvent.keepsApart, hw, hx, htraced.ticket_eq hw hx hid]
      · rw [hdeliver]
        exact iff_of_true hnoted (by simp [ChannelEvent.keepsApart, hw, hx, hunfit])
    · rw [form.deliver_of_none x (by simpa using hwaiting) htraced.running]
      refine iff_of_true hnoted ?_
      cases hcontrol : S.control <;> simp_all [ChannelEvent.keepsApart]
  | strays failure =>
    cases hstep
    refine iff_of_true ?_ rfl
    cases S.control.deliver (P := P) (.unowned failure) with
    | none => exact h
    | some routed => exact h.fails routed.1 routed.2
  | closes reason =>
    cases hstep
    exact iff_of_true (h.fails _ _) rfl

theorem Traced.open : Traced (Channel.open : Channel T O) := by
  constructor <;> simp [Channel.open, Channel.requests]

/-- Every recorded load was answered, and every answer went to its own op, throughout a run exactly when
no request was answered while another op waited that the answer fits. -/
theorem loads_answered_always_iff [DecidableEq T] [DecidableEq O]
    (events : List (ChannelEvent P T O)) :
    Runs.Always Channel.step Honest Channel.open events ↔
      Runs.Along Channel.step (fun S e => e.keepsApart S = true) Channel.open events :=
  Runs.always_iff_along_beside (J := Traced) (fun _ _ _ h hstep => h.step hstep)
    (fun _ _ _ htraced h hstep => honest_step_iff htraced h hstep) Traced.open
    ⟨by simp [Channel.open], by simp [Channel.open]⟩ events

def asks (k : ℕ) (load : TaskLoad T O) : List (ChannelEvent P T O) :=
  .calls (.ensureTask load) :: List.replicate 7 (.advances k true 0)

/-- The first load times out, and the answer to it is recorded for the second. -/
theorem load_recorded_from_other_reply : ∃ S : Channel Unit Bool,
      Runs.run (Channel.step (P := Unit)) Channel.open
        [asks 0 ⟨(), false⟩, [.stops 0], asks 1 ⟨(), true⟩, [.answers 0 (.reply ())],
          List.replicate 3 (.advances 1 true 0)].flatten = some S ∧
      S.loads = [⟨(), true⟩] ∧
      (∀ x ∈ S.issued, x.request = .ensureTask ⟨(), true⟩ → x.answered = none) ∧
      ¬Honest S := by
  refine ⟨_, rfl, rfl, by decide, ?_⟩
  intro h
  exact absurd (h.answered ⟨(), true⟩ (by decide)) (by decide)

end Batchalign.SharedGpu
