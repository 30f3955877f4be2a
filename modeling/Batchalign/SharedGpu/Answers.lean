import Batchalign.Lib.Crew
import Batchalign.SharedGpu.Stream

/- Every waiter is answered once, with what the line or the close reason that answers it says. A channel
   is made for a dispatch or for the op in the control slot, and each end has an invariant of its own
   (`Dispatches`, `Slot`) that the functions of the other leave alone (`frame`). -/
namespace Batchalign.SharedGpu
open List
open Option (mem_toList or_eq_some_iff)

variable {P T : Type} {S S' : Stream P T}

structure Dispatches (pending : PendingState) (made : List Waiter)
    (sent : Ticket → List (Answer P T)) (gone : List Ticket) : Prop where
  registered : ∀ e ∈ pending.waiting, made[e.2]? = some (.dispatch e.1)
  distinct : (pending.waiting.map Prod.fst).Nodup
  unanswered : ∀ e ∈ pending.waiting, sent e.2 = []
  settled : ∀ t requestId, made[t]? = some (.dispatch requestId) →
    (requestId, t) ∉ pending.waiting → t ∉ gone → ∃ a, sent t = [a]

/-- Each op waits, is gone, or was answered once; each shutdown awaits or had its acknowledgement. -/
structure Slot (control : ControlState T) (made : List Waiter)
    (sent : Ticket → List (Answer P T)) (gone : List Ticket) : Prop where
  waiter : ∀ t ∈ control.waiter?, made[t]? = some .control ∧ sent t = []
  ack : ∀ t ∈ control.ack?, made[t]? = some .ack ∧ sent t = []
  settled : ∀ t, made[t]? = some .control → control.waiter? ≠ some t → t ∉ gone → ∃ a, sent t = [a]
  acked : ∀ t, made[t]? = some .ack → control.ack? ≠ some t → ∃ a, sent t = [a]

/-! What is sent. -/

variable {sends : List (Ticket × Reply P T)} {control' : ControlState T} {k : ℕ}
  {stopper : Stopper} {event : Event P T} {t : Ticket}

theorem Stream.sends_of_ne (S : Stream P T) (cause : Cause P T) (h : ∀ e ∈ sends, e.1 ≠ t) :
    S.sends sends cause t = S.sent t := by
  have hnone : sends.filter (fun e => e.1 = t) = [] := by
    rw [filter_eq_nil_iff]
    intro e he
    simpa using h e he
  simp [Stream.sends, hnone]

theorem Stream.sends_of_mem (S : Stream P T) (cause : Cause P T) (hdistinct : (sends.map Prod.fst).Nodup) {e : Ticket × Reply P T}
    (he : e ∈ sends) (hsent : S.sent e.1 = []) : S.sends sends cause e.1 = [⟨e.2, cause⟩] := by
  have hone : sends.filter (fun e' => e'.1 = e.1) = [e] := by
    induction sends with
    | nil => cases he
    | cons e' sends ih =>
      obtain ⟨hnot, htail⟩ := nodup_cons.mp hdistinct
      rcases mem_cons.mp he with rfl | hmem
      · have hnone : sends.filter (fun e' => e'.1 = e.1) = [] := by
          rw [filter_eq_nil_iff]
          intro e' he'
          have hne : e'.1 ≠ e.1 := fun h => hnot (h ▸ mem_map_of_mem he')
          simpa using hne
        simp [hnone]
      · have hne : e'.1 ≠ e.1 := fun h => hnot (h ▸ mem_map_of_mem hmem)
        simp [hne, ih htail hmem]
  simp [Stream.sends, hone, hsent]

theorem made_append {made : List Waiter} {waiter w : Waiter} :
    (made ++ [waiter])[t]? = some w ↔ made[t]? = some w ∨ (t = made.length ∧ waiter = w) := by
  rcases lt_trichotomy t made.length with hlt | rfl | hgt
  · rw [getElem?_append_left hlt]
    simp [hlt.ne]
  · simp
  · have hmade : made[t]? = none := getElem?_eq_none hgt.le
    have happend : (made ++ [waiter])[t]? = none := getElem?_eq_none (by simp; omega)
    simp [hmade, happend, hgt.ne']

variable {line : Line P T}

namespace Dispatches

variable {pending : PendingState} {made : List Waiter} {sent : Ticket → List (Answer P T)}
  {gone : List Ticket}

theorem frame (h : Dispatches pending made sent gone) {made' : List Waiter}
    {sent' : Ticket → List (Answer P T)} {gone' : List Ticket}
    (hmade : ∀ (t : Ticket) (requestId : String),
      made'[t]? = some (.dispatch requestId) ↔ made[t]? = some (.dispatch requestId))
    (hsent : ∀ t requestId, made[t]? = some (.dispatch requestId) → sent' t = sent t)
    (hgone : gone ⊆ gone') : Dispatches pending made' sent' gone' := by
  refine ⟨?_, h.distinct, ?_, ?_⟩
  · exact fun e he => (hmade _ _).mpr (h.registered e he)
  · intro e he
    rw [hsent _ _ (h.registered e he)]
    exact h.unanswered e he
  · intro t requestId hdispatch hwaits hnot
    rw [hmade] at hdispatch
    rw [hsent _ _ hdispatch]
    exact h.settled t requestId hdispatch hwaits (fun hmem => hnot (hgone hmem))

variable {requestId : String}

theorem register (h : Dispatches pending made sent gone) (hfresh : sent made.length = [])
    {pending' : PendingState} (hregister : pending.register requestId made.length = .ok pending') :
    Dispatches pending' (made ++ [.dispatch requestId]) sent gone := by
  unfold PendingState.register at hregister
  split at hregister
  · cases hregister
  next waiting =>
    split at hregister <;> cases hregister
    next hnew =>
      have hfreshId : requestId ∉ waiting.map Prod.fst := by simpa using hnew
      refine ⟨?_, nodup_cons.mpr ⟨hfreshId, h.distinct⟩, ?_, ?_⟩
      · intro e he
        rw [made_append]
        rcases mem_cons.mp he with rfl | he
        · exact .inr ⟨rfl, rfl⟩
        · exact .inl (h.registered e he)
      · intro e he
        rcases mem_cons.mp he with rfl | he
        · exact hfresh
        · exact h.unanswered e he
      · intro t requestId' hdispatch hwaits hnot
        rcases made_append.mp hdispatch with hold | ⟨rfl, hsame⟩
        · exact h.settled t requestId' hold (fun hmem => hwaits (mem_cons_of_mem _ hmem)) hnot
        · cases hsame
          exact absurd mem_cons_self hwaits

theorem mem_withdraw {pending : PendingState} {e : String × Ticket} :
    e ∈ (pending.withdraw requestId).waiting ↔ e ∈ pending.waiting ∧ e.1 ≠ requestId := by
  cases pending with
  | «open» waiting => simp [PendingState.withdraw, PendingState.waiting]
  | closed reason => simp [PendingState.withdraw, PendingState.waiting]

theorem waiter_eq_some (h : Dispatches pending made sent gone) : pending.waiter? requestId = some t ↔ (requestId, t) ∈ pending.waiting := by
  cases pending with
  | closed reason => simp [PendingState.waiter?, PendingState.waiting]
  | «open» waiting =>
    have hdistinct := h.distinct
    simp only [PendingState.waiter?, PendingState.waiting] at hdistinct ⊢
    constructor
    · intro hfind
      obtain ⟨e, he, rfl⟩ := Option.map_eq_some_iff.mp hfind
      have hid : e.1 = requestId := by simpa using find?_some he
      rw [← hid]
      exact mem_of_find?_eq_some he
    · intro hmem
      rcases hfind : waiting.find? (fun e => e.1 = requestId) with _ | e
      · rw [find?_eq_none] at hfind
        exact absurd (by simp) (hfind _ hmem)
      · have hid : e.1 = requestId := by simpa using find?_some hfind
        have hsame := inj_on_of_nodup_map hdistinct (mem_of_find?_eq_some hfind) hmem hid
        rw [hfind, hsame]
        rfl

theorem withdraw (h : Dispatches pending made sent gone) (requestId : String) :
    Dispatches (pending.withdraw requestId) made sent ((pending.waiter? requestId).toList ++ gone) := by
  have hsub : ∀ e ∈ (pending.withdraw requestId).waiting, e ∈ pending.waiting :=
    fun e he => (mem_withdraw.mp he).1
  refine ⟨fun e he => h.registered e (hsub e he), ?_, fun e he => h.unanswered e (hsub e he), ?_⟩
  · cases pending with
    | «open» waiting => exact h.distinct.sublist (filter_sublist.map _)
    | closed reason => exact nodup_nil
  · intro t requestId' hdispatch hwaits hnot
    have hwaits' : (requestId', t) ∉ pending.waiting := by
      intro hmem
      by_cases hid : requestId' = requestId
      · subst hid
        exact hnot (by simp [h.waiter_eq_some.mpr hmem])
      · exact hwaits (mem_withdraw.mpr ⟨hmem, hid⟩)
    exact h.settled t requestId' hdispatch hwaits' (fun hmem => hnot (mem_append_right _ hmem))

theorem answer {pending' : PendingState} {reply : Reply P T} (h : Dispatches S.pending made S.sent gone)
    (hanswer : S.pending.answer requestId = some (pending', t)) : Dispatches pending' made (S.sends [(t, reply)] (.line line)) gone := by
  obtain ⟨t', hwaiter, heq⟩ := Option.map_eq_some_iff.mp hanswer
  cases heq
  have hmem := h.waiter_eq_some.mp hwaiter
  have hwithdrawn := h.withdraw requestId
  have hkeep : ∀ e ∈ (S.pending.withdraw requestId).waiting,
      S.sends [(t, reply)] (.line line) e.2 = S.sent e.2 := by
    intro e he
    apply S.sends_of_ne
    intro e' he' hsame
    obtain ⟨hwaits, hne⟩ := mem_withdraw.mp he
    have htag := h.registered e hwaits
    rw [← hsame, mem_singleton.mp he', h.registered _ hmem] at htag
    cases htag
    exact hne rfl
  refine ⟨hwithdrawn.registered, hwithdrawn.distinct, ?_, ?_⟩
  · intro e he
    rw [hkeep e he]
    exact hwithdrawn.unanswered e he
  · intro t' requestId' hdispatch hwaits hnot
    by_cases ht : t' = t
    · subst ht
      have hsame : requestId' = requestId := by
        have htag := h.registered _ hmem
        rw [hdispatch] at htag
        cases htag
        rfl
      subst hsame
      exact ⟨_, S.sends_of_mem (.line line) (e := (t', reply)) (by simp) (by simp)
        (h.unanswered _ hmem)⟩
    · rw [S.sends_of_ne (.line line) (by simpa using fun h => ht h.symm)]
      exact hwithdrawn.settled t' requestId' hdispatch hwaits
        (by simpa [hwaiter, ht] using hnot)

theorem close (h : Dispatches S.pending made S.sent gone) (reason : StreamClosed) :
    Dispatches (S.closePending reason).pending made (S.closePending reason).sent gone := by
  rcases S with ⟨pending, control, reader, closers, stoppers, next, made', sent, gone', ops⟩
  cases pending with
  | closed previous =>
    refine h.frame (fun _ _ => Iff.rfl) ?_ (List.Subset.refl _)
    intro t _ _
    exact Stream.sends_of_ne _ _ (by simp [PendingState.close])
  | «open» waiting =>
    have hdistinct : (waiting.map Prod.snd).Nodup := by
      refine List.Nodup.map_on ?_ (List.Nodup.of_map _ h.distinct)
      intro e he e' he' hsame
      have htag := h.registered e he
      rw [hsame, h.registered e' he'] at htag
      cases e
      cases htag
      cases hsame
      rfl
    refine ⟨by simp [Stream.closePending, PendingState.close, PendingState.waiting],
      by simp [Stream.closePending, PendingState.close, PendingState.waiting],
      by simp [Stream.closePending, PendingState.close, PendingState.waiting], ?_⟩
    intro t requestId hdispatch _ hnot
    by_cases hmem : (requestId, t) ∈ waiting
    · refine ⟨_, Stream.sends_of_mem _ (.closed reason)
        (e := (t, .dispatchError reason.toWorkerError)) ?_ ?_ (h.unanswered _ hmem)⟩
      · simpa [PendingState.close, Function.comp_def] using hdistinct
      · simpa [PendingState.close] using ⟨requestId, hmem⟩
    · obtain ⟨a, ha⟩ := h.settled t requestId hdispatch hmem hnot
      refine ⟨a, ?_⟩
      rw [← ha]
      apply Stream.sends_of_ne
      intro e he hsame
      obtain ⟨requestId', t', he', rfl⟩ : ∃ requestId' t', (requestId', t') ∈ waiting ∧
          (t', .dispatchError reason.toWorkerError) = e := by
        simpa [PendingState.close] using he
      have htag := h.registered _ he'
      cases hsame
      rw [hdispatch] at htag
      cases htag
      exact hmem he'

end Dispatches

namespace Slot

variable {control : ControlState T} {made : List Waiter} {sent : Ticket → List (Answer P T)}
  {gone : List Ticket}

theorem frame (h : Slot control made sent gone) {made' : List Waiter}
    {sent' : Ticket → List (Answer P T)} {gone' : List Ticket}
    (hmade : ∀ t : Ticket, (made'[t]? = some .control ↔ made[t]? = some .control) ∧
      (made'[t]? = some .ack ↔ made[t]? = some .ack))
    (hsent : ∀ t : Ticket, made[t]? = some .control ∨ made[t]? = some .ack → sent' t = sent t)
    (hgone : gone ⊆ gone') : Slot control made' sent' gone' := by
  refine ⟨?_, ?_, ?_, ?_⟩
  · intro t ht
    obtain ⟨htag, hnone⟩ := h.waiter t ht
    exact ⟨(hmade t).1.mpr htag, by rw [hsent t (.inl htag), hnone]⟩
  · intro t ht
    obtain ⟨htag, hnone⟩ := h.ack t ht
    exact ⟨(hmade t).2.mpr htag, by rw [hsent t (.inr htag), hnone]⟩
  · intro t htag hwaits hnot
    rw [(hmade t).1] at htag
    rw [hsent t (.inl htag)]
    exact h.settled t htag hwaits (fun hmem => hnot (hgone hmem))
  · intro t htag hwaits
    rw [(hmade t).2] at htag
    rw [hsent t (.inr htag)]
    exact h.acked t htag hwaits

variable {control' : ControlState T}

theorem resolve (h : Slot S.control made S.sent gone) (cause : Cause P T)
    (hsends : sends.map Prod.fst = (S.control.waiter?.or S.control.ack?).toList)
    (hwaiter : control'.waiter? = none) (hack : control'.ack? = none) :
    Slot control' made (S.sends sends cause) gone := by
  have hanswered : ∀ t, S.control.waiter?.or S.control.ack? = some t → S.sent t = [] →
      ∃ a, S.sends sends cause t = [a] := by
    intro t ht hnone
    have hmap : sends.map Prod.fst = [t] := by simpa [ht] using hsends
    obtain ⟨e, rfl, rfl⟩ := map_eq_singleton_iff.mp hmap
    exact ⟨_, S.sends_of_mem cause (by simp) (by simp) hnone⟩
  have hkept : ∀ t, S.control.waiter? ≠ some t → S.control.ack? ≠ some t →
      S.sends sends cause t = S.sent t := by
    intro t hw ha
    apply S.sends_of_ne
    intro e he hsame
    have hmem : e.1 ∈ (S.control.waiter?.or S.control.ack?).toList := by
      rw [← hsends]
      exact mem_map_of_mem he
    rw [hsame, mem_toList, or_eq_some_iff] at hmem
    rcases hmem with hmem | ⟨_, hmem⟩
    · exact hw hmem
    · exact ha hmem
  refine ⟨by simp [hwaiter], by simp [hack], ?_, ?_⟩
  · intro t htag _ hnot
    by_cases hw : S.control.waiter? = some t
    · exact hanswered t (by simp [hw]) (h.waiter t hw).2
    · have ha : S.control.ack? ≠ some t := by
        intro ha
        have htag' := (h.ack t ha).1
        rw [htag] at htag'
        cases htag'
      rw [hkept t hw ha]
      exact h.settled t htag hw hnot
  · intro t htag _
    have hw : S.control.waiter? ≠ some t := by
      intro hw
      have htag' := (h.waiter t hw).1
      rw [htag] at htag'
      cases htag'
    by_cases ha : S.control.ack? = some t
    · have hnone : S.control.waiter? = none := by
        rcases hcontrol : S.control with _ | _ | _ | _ <;>
          simp_all [ControlState.waiter?, ControlState.ack?]
      exact hanswered t (by simp [hnone, ha]) (h.ack t ha).2
    · rw [hkept t hw ha]
      exact h.acked t htag ha

theorem arm (h : Slot control made sent gone) (hfresh : sent made.length = [])
    {requestId : String} {op : ControlOp T} (harm : control.arm ⟨requestId, op, made.length⟩ = .ok control') :
    Slot control' (made ++ [.control]) sent (control.waiter?.toList ++ gone) := by
  have hnoack : control.ack? = none ∧ control' = .waiting ⟨requestId, op, made.length⟩ := by
    cases control <;> cases harm <;> exact ⟨rfl, rfl⟩
  obtain ⟨hack, rfl⟩ := hnoack
  refine ⟨?_, ?_, ?_, ?_⟩
  · intro t ht
    cases ht
    exact ⟨made_append.mpr (.inr ⟨rfl, rfl⟩), hfresh⟩
  · intro t ht
    cases ht
  · intro t htag hwaits hnot
    rcases made_append.mp htag with htag | ⟨rfl, _⟩
    · have hw : control.waiter? ≠ some t := by
        intro hw
        exact hnot (by simp [hw])
      exact h.settled t htag hw (fun hmem => hnot (mem_append_right _ hmem))
    · exact absurd rfl hwaits
  · intro t htag _
    rcases made_append.mp htag with htag | ⟨_, hsame⟩
    · exact h.acked t htag (by simp [hack])
    · cases hsame

theorem beginShutdown (h : Slot S.control S.made S.sent S.gone)
    (hfresh : S.sent S.made.length = []) {why : Retirement} (cause : Cause P T)
    (hbegin : S.control.beginShutdown why S.made.length = some (control', sends)) :
    Slot control' (S.made ++ [.ack]) (S.sends sends cause) S.gone := by
  have hshape : S.control.ack? = none ∧ control' = .shuttingDown S.made.length why ∧
      sends.map Prod.fst = S.control.waiter?.toList := by
    unfold ControlState.beginShutdown at hbegin
    split at hbegin <;> cases hbegin
    next hcontrol => simp [hcontrol, ControlState.ack?, ControlState.waiter?]
    next hcontrol => simp [hcontrol, ControlState.ack?, ControlState.waiter?]
  obtain ⟨hack, rfl, hsends⟩ := hshape
  have hresolved : Slot (.idle : ControlState T) S.made (S.sends sends cause) S.gone :=
    h.resolve cause (by simpa [hack] using hsends) rfl rfl
  have hnew : S.sends sends cause S.made.length = [] := by
    rw [S.sends_of_ne cause, hfresh]
    intro e he hsame
    have hmem : e.1 ∈ S.control.waiter?.toList := by
      rw [← hsends]
      exact mem_map_of_mem he
    rw [hsame, mem_toList] at hmem
    have htag := (h.waiter _ hmem).1
    simp at htag
  refine ⟨?_, ?_, ?_, ?_⟩
  · intro t ht
    cases ht
  · intro t ht
    cases ht
    exact ⟨made_append.mpr (.inr ⟨rfl, rfl⟩), hnew⟩
  · intro t htag _ hnot
    rcases made_append.mp htag with htag | ⟨_, hsame⟩
    · exact hresolved.settled t htag (by simp [ControlState.waiter?]) hnot
    · cases hsame
  · intro t htag hwaits
    rcases made_append.mp htag with htag | ⟨rfl, _⟩
    · exact hresolved.acked t htag (by simp [ControlState.ack?])
    · exact absurd rfl hwaits

end Slot

variable {control : ControlState T}

theorem ControlState.deliver_sends [DecidableEq T]
    {line : ControlLine P T} (h : control.deliver line = some (control', sends)) :
    sends.map Prod.fst = (control.waiter?.or control.ack?).toList ∧
      control'.waiter? = none ∧ control'.ack? = none := by
  unfold deliver at h
  split at h
  next waiter =>
    obtain ⟨reply, _, heq⟩ := Option.map_eq_some_iff.mp h
    cases heq
    simp [waiter?, ack?]
  next ack why => split at h <;> cases h <;> simp [waiter?, ack?]
  all_goals cases h

theorem ControlState.deliverTaggedFailure_sends
    {requestId : String} {failure : ReplyFailure} (h : control.deliverTaggedFailure requestId failure = some (control', sends)) :
    sends.map Prod.fst = (control.waiter?.or control.ack?).toList ∧
      control'.waiter? = none ∧ control'.ack? = none := by
  unfold deliverTaggedFailure at h
  split at h
  next waiter => split at h <;> cases h; simp [waiter?, ack?]
  all_goals cases h

theorem ControlState.close_sends (control : ControlState T) (reason : StreamClosed) :
    ((control.close (P := P) reason).2.map Prod.fst = (control.waiter?.or control.ack?).toList) ∧
      (control.close (P := P) reason).1.waiter? = none ∧
      (control.close (P := P) reason).1.ack? = none := by
  cases control <;> simp [close, waiter?, ack?]

/-! What stays as it was, once an end has closed or a shutdown has begun. -/

def PendingState.Refuses (pending : PendingState) : Prop := ∃ reason, pending = .closed reason

def ControlState.Refuses : ControlState T → Prop
  | .shuttingDown _ _ | .closed _ => True
  | .idle | .waiting _ => False

/-- The first close reason of each end stands; no channel is made for an end that refuses. -/
structure Stands (S S' : Stream P T) : Prop where
  pending : ∀ reason, S.pending = .closed reason → S'.pending = .closed reason
  control : ∀ reason, S.control = .closed reason → S'.control = .closed reason
  refuses : S.control.Refuses → S'.control.Refuses
  made : S.made <+: S'.made
  registered : S.pending.Refuses → ∀ (t : Ticket) (requestId : String),
    S'.made[t]? = some (.dispatch requestId) → S.made[t]? = some (.dispatch requestId)
  armed : S.control.Refuses → ∀ t : Ticket, S'.made[t]? = some .control → S.made[t]? = some .control

namespace Stands

variable {S'' : Stream P T}

theorem refl (S : Stream P T) : Stands S S :=
  ⟨fun _ => id, fun _ => id, id, prefix_rfl, fun _ _ _ => id, fun _ _ => id⟩

theorem trans (h : Stands S S') (h' : Stands S' S'') : Stands S S'' := by
  refine ⟨fun r hr => h'.pending r (h.pending r hr), fun r hr => h'.control r (h.control r hr),
    fun hr => h'.refuses (h.refuses hr), h.made.trans h'.made, ?_, ?_⟩
  · rintro ⟨reason, hr⟩ t requestId ht
    exact h.registered ⟨reason, hr⟩ t requestId
      (h'.registered ⟨reason, h.pending reason hr⟩ t requestId ht)
  · exact fun hr t ht => h.armed hr t (h'.armed (h.refuses hr) t ht)

theorem ofMade (hmade : S'.made = S.made)
    (hpending : ∀ reason, S.pending = .closed reason → S'.pending = .closed reason)
    (hcontrol : ∀ reason, S.control = .closed reason → S'.control = .closed reason)
    (hrefuses : S.control.Refuses → S'.control.Refuses) : Stands S S' :=
  ⟨hpending, hcontrol, hrefuses, by rw [hmade], by simp [hmade], by simp [hmade]⟩

end Stands

theorem Stream.answerDispatch_stands (S : Stream P T) (requestId : String) (reply : Reply P T)
    (line : Line P T) : Stands S (S.answerDispatch requestId reply line) := by
  unfold Stream.answerDispatch
  split
  next pending' ticket hanswer =>
    refine .ofMade rfl ?_ (fun _ => id) id
    intro reason hreason
    simp [PendingState.answer, hreason, PendingState.waiter?] at hanswer
  · exact .refl S

theorem Stream.closePending_stands (S : Stream P T) (reason : StreamClosed) :
    Stands S (S.closePending reason) := by
  refine .ofMade rfl ?_ (fun _ => id) id
  intro previous hprevious
  simp [Stream.closePending, hprevious, PendingState.close]

theorem Stream.closeControl_stands (S : Stream P T) (reason : StreamClosed) :
    Stands S (S.closeControl reason) := by
  refine .ofMade rfl (fun _ => id) ?_ ?_
  · intro previous hprevious
    simp [Stream.closeControl, hprevious, ControlState.close]
  · rcases hcontrol : S.control with _ | _ | _ | _ <;>
      simp_all [Stream.closeControl, ControlState.close, ControlState.Refuses]

theorem ControlState.deliver_refuses [DecidableEq T]
    {line : ControlLine P T} (h : control.deliver line = some (control', sends)) (hrefuses : control.Refuses) :
    control'.Refuses ∧ ∀ reason, control ≠ .closed reason := by
  unfold deliver at h
  split at h
  case h_1 => cases hrefuses
  case h_2 => split at h <;> cases h <;> simp [Refuses]
  all_goals cases h

theorem Stream.routeLine_stands [DecidableEq T] (S : Stream P T) (line : Line P T) :
    Stands S (S.routeLine line) := by
  unfold Stream.routeLine
  split
  next requestId payload _ => exact S.answerDispatch_stands _ _ _
  next requestId failure _ => exact S.answerDispatch_stands _ _ _
  next requestId failure _ =>
    split
    next control' sends htagged =>
      -- Only an op that waits takes a tagged failure, so the slot did not refuse.
      refine .ofMade rfl (fun _ => id) ?_ ?_
      · intro reason hreason
        simp [hreason, ControlState.deliverTaggedFailure] at htagged
      · rcases hcontrol : S.control with _ | _ | _ | _ <;>
          simp_all [ControlState.deliverTaggedFailure, ControlState.Refuses]
    · exact .ofMade rfl (fun _ => id) (fun _ => id) id
  next offered _ =>
    split
    next control' sends hdeliver =>
      refine .ofMade rfl (fun _ => id) ?_ ?_
      · intro reason hreason
        rw [hreason] at hdeliver
        cases hdeliver
      · exact fun hrefuses => (ControlState.deliver_refuses hdeliver hrefuses).1
    · exact .refl S
  · exact .refl S

theorem Stands.ofSlot {w : Waiter} (hopen : ¬S.control.Refuses)
    (hpending : S'.pending = S.pending) (hmade : S'.made = S.made ++ [w]) (hw : ∀ requestId, w ≠ .dispatch requestId) :
    Stands S S' := by
  refine ⟨fun reason => hpending.trans, ?_, fun hr => absurd hr hopen, ⟨_, hmade.symm⟩, ?_,
    fun hr => absurd hr hopen⟩
  · intro reason hreason
    exact absurd (by simp [hreason, ControlState.Refuses]) hopen
  · intro _ t requestId ht
    rw [hmade] at ht
    rcases made_append.mp ht with ht | ⟨_, hsame⟩
    · exact ht
    · exact absurd hsame (hw requestId)

theorem Stream.stopperStep_stands {written : Bool} (h : S.stopperStep k written stopper = some S') : Stands S S' := by
  cases stopper with
  | pendingNext why =>
    cases h
    have hclose := S.closePending_stands (.stopped why)
    exact .ofMade rfl hclose.pending hclose.control hclose.refuses
  | controlNext why =>
    unfold stopperStep at h
    simp only at h
    split at h <;> cases h
    next control' sends hbegin =>
      have hopen : ¬S.control.Refuses := by
        rcases hcontrol : S.control with _ | _ | _ | _ <;>
          simp_all [ControlState.beginShutdown, ControlState.Refuses]
      exact .ofSlot hopen rfl rfl fun _ => Waiter.noConfusion
    · exact .ofMade rfl (fun _ => id) (fun _ => id) id
  | writing ack =>
    cases h
    exact .ofMade rfl (fun _ => id) (fun _ => id) id
  | returned ack => cases h

theorem Stream.register_stands (S : Stream P T) (requestId : String) :
    Stands S (S.register requestId) := by
  unfold Stream.register
  split
  next pending' hregister =>
    have hopen : ∀ reason, S.pending ≠ .closed reason := by
      intro reason hreason
      rw [hreason] at hregister
      cases hregister
    refine ⟨fun r hr => absurd hr (hopen r), fun _ => id, id, prefix_append _ _, ?_, ?_⟩
    · rintro ⟨reason, hreason⟩
      exact absurd hreason (hopen reason)
    · intro _ t ht
      rcases made_append.mp ht with ht | ⟨_, hsame⟩
      · exact ht
      · cases hsame
  · exact .refl S

theorem Stream.arm_stands (S : Stream P T) (op : ControlOp T) (others : ℕ) :
    Stands S (S.arm op others) := by
  unfold Stream.arm
  simp only
  split
  next control' harm =>
    have hopen : ¬S.control.Refuses := by
      rcases hcontrol : S.control with _ | _ | _ | _ <;>
        simp_all [ControlState.arm, ControlState.Refuses]
    exact .ofSlot hopen rfl rfl fun _ => Waiter.noConfusion
  · exact .ofMade rfl (fun _ => id) (fun _ => id) id

theorem Stream.step_stands [DecidableEq T] (h : S.step event = some S') : Stands S S' := by
  cases event with
  | register requestId =>
    cases h
    exact S.register_stands requestId
  | withdraw requestId =>
    cases h
    refine .ofMade rfl ?_ (fun _ => id) id
    intro reason hreason
    simp [hreason, PendingState.withdraw]
  | arm op others =>
    cases h
    exact S.arm_stands op others
  | line line =>
    simp only [step] at h
    split at h <;> cases h
    exact S.routeLine_stands line
  | handsOn =>
    simp only [step] at h
    split at h <;> cases h
    next line requestId failure _ =>
      have hanswer := S.answerDispatch_stands requestId (.dispatchError failure.intoWorkerError) line
      exact ⟨hanswer.pending, hanswer.control, hanswer.refuses, hanswer.made, hanswer.registered,
        hanswer.armed⟩
  | readerEnds reason =>
    simp only [step] at h
    split at h <;> cases h
    exact .ofMade rfl (fun _ => id) (fun _ => id) id
  | closes why | stops why =>
    cases h
    exact .ofMade rfl (fun _ => id) (fun _ => id) id
  | closerAdvances k =>
    obtain ⟨closer, _, hstep⟩ := Option.bind_eq_some_iff.mp h
    cases closer with
    | pendingNext reason =>
      cases hstep
      have hclose := S.closePending_stands reason
      exact .ofMade rfl hclose.pending hclose.control hclose.refuses
    | controlNext reason =>
      cases hstep
      have hclose := S.closeControl_stands reason
      exact .ofMade rfl hclose.pending hclose.control hclose.refuses
    | returned => cases hstep
  | stopperAdvances k written =>
    obtain ⟨stopper, _, hstep⟩ := Option.bind_eq_some_iff.mp h
    exact stopperStep_stands hstep

theorem Stream.run_stands [DecidableEq T] {events : List (Event P T)}
    (h : Runs.run Stream.step S events = some S') : Stands S S' :=
  Runs.run_invariant (I := fun S'' => Stands S S'')
    (fun _ _ _ hstands hstep => hstands.trans (Stream.step_stands hstep)) (.refl S) h

/-! The invariant of the whole stream. -/

def Closer.Holds (S : Stream P T) : Closer → Prop
  | .pendingNext _ => True
  | .controlNext _ => S.pending.Refuses
  | .returned => S.pending.Refuses ∧ ∃ reason, S.control = .closed reason

def Stopper.Holds (S : Stream P T) : Stopper → Prop
  | .pendingNext _ | .returned none => True
  | .controlNext _ => S.pending.Refuses
  | .writing ack | .returned (some ack) =>
      S.made[ack]? = some .ack ∧ S.pending.Refuses ∧ S.control.Refuses

structure Tracked (S : Stream P T) : Prop where
  dispatches : Dispatches S.pending S.made S.sent S.gone
  slot : Slot S.control S.made S.sent S.gone
  fresh : ∀ t, S.made.length ≤ t → S.sent t = []
  handing : ∀ line requestId failure, S.reader = .handing line requestId failure →
    line.route = .failOwner requestId failure
  closing : ∀ closer ∈ S.closers, closer.Holds S
  stopping : ∀ stopper ∈ S.stoppers, stopper.Holds S

theorem Stands.refuses_pending (h : Stands S S') (hrefuses : S.pending.Refuses) : S'.pending.Refuses := by
  obtain ⟨reason, hreason⟩ := hrefuses
  exact ⟨reason, h.pending reason hreason⟩

theorem Closer.Holds.mono (hstands : Stands S S') {closer : Closer}
    (h : closer.Holds S) : closer.Holds S' := by
  cases closer with
  | pendingNext reason => trivial
  | controlNext reason => exact hstands.refuses_pending h
  | returned =>
    obtain ⟨hpending, reason, hreason⟩ := h
    exact ⟨hstands.refuses_pending hpending, reason, hstands.control reason hreason⟩

theorem Stopper.Holds.mono (hstands : Stands S S') (h : stopper.Holds S) : stopper.Holds S' := by
  have hack : ∀ ack : Ticket, S.made[ack]? = some .ack ∧ S.pending.Refuses ∧ S.control.Refuses →
      S'.made[ack]? = some .ack ∧ S'.pending.Refuses ∧ S'.control.Refuses := by
    rintro ack ⟨htag, hpending, hcontrol⟩
    obtain ⟨more, hmore⟩ := hstands.made
    refine ⟨?_, hstands.refuses_pending hpending, hstands.refuses hcontrol⟩
    rw [← hmore, getElem?_append_left (List.getElem?_eq_some_iff.mp htag).1, htag]
  cases stopper with
  | pendingNext why => trivial
  | controlNext why => exact hstands.refuses_pending h
  | writing ack => exact hack ack h
  | returned ack =>
    cases ack with
    | none => trivial
    | some ack => exact hack ack h

section Sends
variable (h : Tracked S)
include h

theorem Tracked.ofDispatchSends (sends : List (Ticket × Reply P T)) (cause : Cause P T)
    (hsends : ∀ e ∈ sends, ∃ requestId, S.made[e.1]? = some (.dispatch requestId)) :
    Slot S.control S.made (S.sends sends cause) S.gone ∧
      ∀ t, S.made.length ≤ t → S.sends sends cause t = [] := by
  have hkept : ∀ t, (∀ requestId, S.made[t]? ≠ some (.dispatch requestId)) →
      S.sends sends cause t = S.sent t := by
    intro t ht
    apply S.sends_of_ne cause
    rintro e he rfl
    obtain ⟨requestId, htag⟩ := hsends e he
    exact ht requestId htag
  constructor
  · refine h.slot.frame (fun t => ⟨Iff.rfl, Iff.rfl⟩) ?_ (List.Subset.refl _)
    rintro t (ht | ht) <;> exact hkept t (by simp [ht])
  · intro t ht
    rw [hkept t (by simp [getElem?_eq_none ht]), h.fresh t ht]

theorem Tracked.ofSlotSends (cause : Cause P T)
    (hsends : sends.map Prod.fst = (S.control.waiter?.or S.control.ack?).toList) :
    Dispatches S.pending S.made (S.sends sends cause) S.gone ∧
      ∀ t, S.made.length ≤ t → S.sends sends cause t = [] := by
  have hmade : ∀ e ∈ sends, S.made[e.1]? = some .control ∨ S.made[e.1]? = some .ack := by
    intro e he
    have hmem : e.1 ∈ (S.control.waiter?.or S.control.ack?).toList := by
      rw [← hsends]
      exact mem_map_of_mem he
    rw [mem_toList, or_eq_some_iff] at hmem
    rcases hmem with hmem | ⟨_, hmem⟩
    · exact .inl (h.slot.waiter _ hmem).1
    · exact .inr (h.slot.ack _ hmem).1
  have hkept : ∀ t, S.made[t]? ≠ some .control → S.made[t]? ≠ some .ack →
      S.sends sends cause t = S.sent t := by
    intro t hcontrol hack
    apply S.sends_of_ne cause
    rintro e he rfl
    exact (hmade e he).elim hcontrol hack
  constructor
  · refine h.dispatches.frame (fun _ _ => Iff.rfl) ?_ (List.Subset.refl _)
    intro t requestId ht
    exact hkept t (by simp [ht]) (by simp [ht])
  · intro t ht
    have hnone := getElem?_eq_none ht
    rw [hkept t (by simp [hnone]) (by simp [hnone]), h.fresh t ht]

theorem Tracked.answerDispatch (requestId : String) (reply : Reply P T) (line : Line P T) :
    Tracked (S.answerDispatch requestId reply line) := by
  have hstands := S.answerDispatch_stands requestId reply line
  unfold Stream.answerDispatch at hstands ⊢
  split at hstands
  next pending' t hanswer =>
    have htag : S.made[t]? = some (.dispatch requestId) := by
      obtain ⟨t', hwaiter, heq⟩ := Option.map_eq_some_iff.mp hanswer
      cases heq
      exact h.dispatches.registered _ (h.dispatches.waiter_eq_some.mp hwaiter)
    obtain ⟨hslot, hfresh⟩ := h.ofDispatchSends [(t, reply)] (.line line)
      (by simpa using ⟨requestId, htag⟩)
    exact ⟨h.dispatches.answer hanswer, hslot, hfresh, h.handing,
      fun c hc => (h.closing c hc).mono hstands, fun c hc => (h.stopping c hc).mono hstands⟩
  · exact h

theorem Tracked.resolve {control' : ControlState T}
    (cause : Cause P T)
    (hsends : sends.map Prod.fst = (S.control.waiter?.or S.control.ack?).toList ∧
      control'.waiter? = none ∧ control'.ack? = none)
    (hstands : Stands S { S with control := control', sent := S.sends sends cause }) :
    Tracked { S with control := control', sent := S.sends sends cause } := by
  obtain ⟨hdispatches, hfresh⟩ := h.ofSlotSends cause hsends.1
  exact ⟨hdispatches, h.slot.resolve cause hsends.1 hsends.2.1 hsends.2.2, hfresh, h.handing,
    fun c hc => (h.closing c hc).mono hstands, fun c hc => (h.stopping c hc).mono hstands⟩

theorem Tracked.routeLine [DecidableEq T] (line : Line P T) : Tracked (S.routeLine line) := by
  have hstands := S.routeLine_stands line
  unfold Stream.routeLine at hstands ⊢
  split
  next requestId payload hroute => exact h.answerDispatch _ _ line
  next requestId failure hroute => exact h.answerDispatch _ _ line
  next requestId failure hroute =>
    rw [hroute] at hstands
    simp only at hstands
    split
    next control' sends htagged =>
      rw [htagged] at hstands
      exact h.resolve _ (ControlState.deliverTaggedFailure_sends htagged) hstands
    next htagged =>
      refine ⟨h.dispatches, h.slot, h.fresh, ?_, h.closing, h.stopping⟩
      intro line' requestId' failure' hreader
      cases hreader
      exact hroute
  next offered hroute =>
    rw [hroute] at hstands
    simp only at hstands
    split
    next control' sends hdeliver =>
      rw [hdeliver] at hstands
      exact h.resolve _ (ControlState.deliver_sends hdeliver) hstands
    · exact h
  · exact h

theorem Tracked.closePending (reason : StreamClosed) : Tracked (S.closePending reason) := by
  have hstands := S.closePending_stands reason
  obtain ⟨hslot, hfresh⟩ := h.ofDispatchSends ((S.pending.close reason).2.1.map
    (fun t => (t, .dispatchError reason.toWorkerError))) (.closed reason) (by
      intro e he
      obtain ⟨t, ht, rfl⟩ := mem_map.mp he
      cases hpending : S.pending with
      | closed previous => simp [hpending, PendingState.close] at ht
      | «open» waiting =>
        obtain ⟨requestId, hmem⟩ : ∃ requestId, (requestId, t) ∈ waiting := by
          simpa [hpending, PendingState.close] using ht
        exact ⟨requestId, h.dispatches.registered _ (by rw [hpending]; exact hmem)⟩)
  exact ⟨h.dispatches.close reason, hslot, hfresh, h.handing,
    fun c hc => (h.closing c hc).mono hstands, fun c hc => (h.stopping c hc).mono hstands⟩

theorem Tracked.closeControl (reason : StreamClosed) : Tracked (S.closeControl reason) :=
  h.resolve _ (S.control.close_sends reason) (S.closeControl_stands reason)

theorem Tracked.fresh_append (waiter : Waiter) :
    ∀ t, (S.made ++ [waiter]).length ≤ t → S.sent t = [] := by
  intro t ht
  apply h.fresh t
  rw [length_append] at ht
  exact Nat.le_of_succ_le ht

theorem Tracked.register (requestId : String) : Tracked (S.register requestId) := by
  have hstands := S.register_stands requestId
  unfold Stream.register at hstands ⊢
  split at hstands
  next pending' hregister =>
    refine ⟨h.dispatches.register (h.fresh _ le_rfl) hregister, ?_, h.fresh_append _, h.handing,
      fun c hc => (h.closing c hc).mono hstands, fun c hc => (h.stopping c hc).mono hstands⟩
    refine h.slot.frame ?_ (fun _ _ => rfl) (List.Subset.refl _)
    simp [made_append]
  · exact h

theorem Tracked.arm (op : ControlOp T) (others : ℕ) : Tracked (S.arm op others) := by
  have hstands := S.arm_stands op others
  unfold Stream.arm at hstands ⊢
  simp only at hstands ⊢
  split at hstands
  next control' harm =>
    refine ⟨?_, h.slot.arm (h.fresh _ le_rfl) harm, h.fresh_append _, h.handing,
      fun c hc => (h.closing c hc).mono hstands, fun c hc => (h.stopping c hc).mono hstands⟩
    refine h.dispatches.frame ?_ (fun _ _ _ => rfl) (subset_append_right _ _)
    simp [made_append]
  · exact ⟨h.dispatches, h.slot, h.fresh, h.handing, h.closing, h.stopping⟩

end Sends

theorem Tracked.open : Tracked (Stream.open : Stream P T) := by
  refine ⟨⟨?_, nodup_nil, ?_, ?_⟩, ⟨?_, ?_, ?_, ?_⟩, fun _ _ => rfl, ?_, ?_, ?_⟩ <;>
    simp [Stream.open, PendingState.waiting, ControlState.waiter?, ControlState.ack?]

theorem Tracked.setClosers (h : Tracked S) {closers : List Closer}
    (hclosing : ∀ closer ∈ closers, closer.Holds S) : Tracked { S with closers := closers } :=
  ⟨h.dispatches, h.slot, h.fresh, h.handing, hclosing, h.stopping⟩

theorem Tracked.setStoppers (h : Tracked S) {stoppers : List Stopper}
    (hstopping : ∀ stopper ∈ stoppers, stopper.Holds S) : Tracked { S with stoppers := stoppers } :=
  ⟨h.dispatches, h.slot, h.fresh, h.handing, h.closing, hstopping⟩

theorem PendingState.close_refuses (pending : PendingState) (reason : StreamClosed) :
    PendingState.Refuses (pending.close reason).1 := by
  cases pending with
  | «open» waiting => exact ⟨reason, rfl⟩
  | closed previous => exact ⟨previous, rfl⟩

theorem ControlState.close_closed (control : ControlState T) (reason : StreamClosed) :
    ∃ first, (control.close (P := P) reason).1 = .closed first := by
  cases control <;> exact ⟨_, rfl⟩

theorem Tracked.closerStep (h : Tracked S) {closer : Closer}
    (hk : S.closers[k]? = some closer) (hstep : S.closerStep k closer = some S') : Tracked S' := by
  cases closer with
  | pendingNext reason =>
    cases hstep
    have hclosed := h.closePending reason
    exact hclosed.setClosers (Crew.forall_set hclosed.closing (S.pending.close_refuses reason))
  | controlNext reason =>
    cases hstep
    have hpending : S.pending.Refuses := h.closing _ (mem_of_getElem? hk)
    have hclosed := h.closeControl reason
    exact hclosed.setClosers
      (Crew.forall_set hclosed.closing ⟨hpending, S.control.close_closed reason⟩)
  | returned => cases hstep

theorem Tracked.stopperStep (h : Tracked S) {written : Bool} (hk : S.stoppers[k]? = some stopper)
    (hstep : S.stopperStep k written stopper = some S') : Tracked S' := by
  have hheld : stopper.Holds S := h.stopping _ (mem_of_getElem? hk)
  have hstands := Stream.stopperStep_stands hstep
  cases stopper with
  | pendingNext why =>
    cases hstep
    have hclosed := h.closePending (.stopped why)
    refine hclosed.setStoppers (Crew.forall_set hclosed.stopping ?_)
    split
    · exact S.pending.close_refuses (.stopped why)
    · trivial
  | controlNext why =>
    have hpending : S.pending.Refuses := hheld
    unfold Stream.stopperStep at hstep
    simp only at hstep
    split at hstep <;> cases hstep
    next control' sends hbegin =>
      have hsends : sends.map Prod.fst = (S.control.waiter?.or S.control.ack?).toList ∧
          control'.Refuses := by
        unfold ControlState.beginShutdown at hbegin
        split at hbegin <;> cases hbegin
        next hcontrol => simp [hcontrol, ControlState.waiter?, ControlState.ack?, ControlState.Refuses]
        next hcontrol => simp [hcontrol, ControlState.waiter?, ControlState.ack?, ControlState.Refuses]
      obtain ⟨hdispatches, hsent⟩ := h.ofSlotSends (.closed (.stopped why)) hsends.1
      refine ⟨?_, h.slot.beginShutdown (h.fresh _ le_rfl) _ hbegin, ?_, h.handing,
        fun c hc => (h.closing c hc).mono hstands, ?_⟩
      · refine hdispatches.frame ?_ (fun _ _ _ => rfl) (List.Subset.refl _)
        simp [made_append]
      · intro t ht
        apply hsent t
        rw [length_append] at ht
        exact Nat.le_of_succ_le ht
      · refine Crew.forall_set (fun c hc => (h.stopping c hc).mono hstands) ?_
        exact ⟨made_append.mpr (.inr ⟨rfl, rfl⟩), hpending, hsends.2⟩
    · exact h.setStoppers (Crew.forall_set h.stopping trivial)
  | writing ack =>
    cases hstep
    refine h.setStoppers (Crew.forall_set h.stopping ?_)
    cases written with
    | true => exact hheld
    | false => trivial
  | returned ack => cases hstep

theorem Tracked.step [DecidableEq T] (h : Tracked S) (hstep : S.step event = some S') : Tracked S' := by
  cases event with
  | register requestId =>
    cases hstep
    exact h.register requestId
  | withdraw requestId =>
    have hstands := Stream.step_stands hstep
    cases hstep
    refine ⟨h.dispatches.withdraw requestId, ?_, h.fresh, h.handing,
      fun c hc => (h.closing c hc).mono hstands, fun c hc => (h.stopping c hc).mono hstands⟩
    exact h.slot.frame (fun _ => ⟨Iff.rfl, Iff.rfl⟩) (fun _ _ => rfl) (subset_append_right _ _)
  | arm op others =>
    cases hstep
    exact h.arm op others
  | line line =>
    simp only [Stream.step] at hstep
    split at hstep <;> cases hstep
    exact h.routeLine line
  | handsOn =>
    simp only [Stream.step] at hstep
    split at hstep <;> cases hstep
    next line requestId failure _ =>
      have hanswered := h.answerDispatch requestId (.dispatchError failure.intoWorkerError) line
      exact ⟨hanswered.dispatches, hanswered.slot, hanswered.fresh, by simp, hanswered.closing,
        hanswered.stopping⟩
  | readerEnds reason =>
    simp only [Stream.step] at hstep
    split at hstep <;> cases hstep
    refine ⟨h.dispatches, h.slot, h.fresh, by simp, ?_, h.stopping⟩
    exact forall_mem_append.mpr ⟨h.closing, by simp [Closer.Holds]⟩
  | closes why =>
    cases hstep
    exact h.setClosers (forall_mem_append.mpr ⟨h.closing, by simp [Closer.Holds]⟩)
  | stops why =>
    cases hstep
    exact h.setStoppers (forall_mem_append.mpr ⟨h.stopping, by simp [Stopper.Holds]⟩)
  | closerAdvances k =>
    obtain ⟨closer, hk, hcloser⟩ := Option.bind_eq_some_iff.mp hstep
    exact h.closerStep hk hcloser
  | stopperAdvances k written =>
    obtain ⟨stopper, hk, hstopper⟩ := Option.bind_eq_some_iff.mp hstep
    exact h.stopperStep hk hstopper

/-! What is said to the waiters. -/

/-- What a line says to the dispatch it names. -/
def Routing.dispatchReply? : Routing P T → Option (Reply P T)
  | .answer requestId payload => some (.executed requestId payload)
  | .failDispatch _ failure | .failOwner _ failure => some (.dispatchError failure.intoWorkerError)
  | .offerControl _ | .nothing => none

/-- What a line says to the op that waits in the slot. -/
def Routing.opReply? [DecidableEq T] (routing : Routing P T) (waiter : ControlWaiter T) :
    Option (Reply P T) :=
  match routing with
  | .offerControl line => waiter.offer line
  | .failOwner requestId failure =>
      if waiter.requestId = requestId then some (.failed failure) else none
  | _ => none

/-- What a line says to the shutdown that awaits its acknowledgement. -/
def Routing.ackReply? : Routing P T → Option (Reply P T)
  | .offerControl (.reply .shutdown) => some .acknowledged
  | .offerControl (.unowned failure) => some (.failed failure)
  | _ => none

/-- The answer is what its cause says to the waiter: a line that names the dispatch, answers the op or
acknowledges, or the reason the end was closed for. -/
def Waiter.Told [DecidableEq T] (S : Stream P T) (t : Ticket) (a : Answer P T) : Waiter → Prop
  | .dispatch requestId =>
      match a.cause with
      | .line l => l.names? = some requestId ∧ l.route.dispatchReply? = some a.reply
      | .closed reason => S.pending = .closed reason ∧ a.reply = .dispatchError reason.toWorkerError
  | .control =>
      match a.cause with
      | .line l => ∃ waiter ∈ S.ops, waiter.ticket = t ∧ l.route.opReply? waiter = some a.reply
      | .closed reason => a.reply = .failed (.streamClosed reason) ∧
          (S.control = .closed reason ∨ (∃ why, reason = .stopped why) ∧ S.control.Refuses)
  | .ack =>
      match a.cause with
      | .line l => l.route.ackReply? = some a.reply
      | .closed reason => a.reply = .failed (.streamClosed reason) ∧ S.control = .closed reason

structure Told [DecidableEq T] (S : Stream P T) : Prop where
  told : ∀ t, ∀ a ∈ S.sent t, ∃ waiter, S.made[t]? = some waiter ∧ waiter.Told S t a
  armed : ∀ waiter, S.control = .waiting waiter → waiter ∈ S.ops

section Told
variable [DecidableEq T]

theorem Waiter.Told.mono (hstands : Stands S S') (hops : S.ops ⊆ S'.ops) {a : Answer P T} {waiter : Waiter}
    (htold : waiter.Told S t a) : waiter.Told S' t a := by
  obtain ⟨reply, cause⟩ := a
  cases waiter <;> cases cause
  · exact htold
  · exact htold.imp_left (hstands.pending _)
  · obtain ⟨waiter, hmem, hticket, hreply⟩ := htold
    exact ⟨waiter, hops hmem, hticket, hreply⟩
  · exact htold.imp_right (Or.imp (hstands.control _) (And.imp_right hstands.refuses))
  · exact htold
  · exact htold.imp_right (hstands.control _)

variable (h : Told S)
include h

/-- The answers stay what they were, and each one sent is what its cause says. -/
theorem Told.extend {cause : Cause P T} (hstands : Stands S S') (hops : S.ops ⊆ S'.ops)
    (hsent : S'.sent = S.sends sends cause)
    (hnew : ∀ e ∈ sends, ∃ waiter, S'.made[e.1]? = some waiter ∧ waiter.Told S' e.1 ⟨e.2, cause⟩)
    (harmed : ∀ waiter, S'.control = .waiting waiter → waiter ∈ S'.ops) : Told S' := by
  refine ⟨?_, harmed⟩
  intro t a ha
  rw [hsent] at ha
  rcases mem_append.mp ha with hold | hsend
  · obtain ⟨waiter, hmade, htold⟩ := h.told t a hold
    obtain ⟨more, hmore⟩ := hstands.made
    refine ⟨waiter, ?_, htold.mono hstands hops⟩
    rw [← hmore, getElem?_append_left (List.getElem?_eq_some_iff.mp hmade).1, hmade]
  · obtain ⟨e, he, rfl⟩ := mem_map.mp hsend
    obtain ⟨hmem, hticket⟩ := mem_filter.mp he
    obtain rfl : e.1 = t := of_decide_eq_true hticket
    exact hnew e hmem

/-- One answer is sent. -/
theorem Told.extendOne {cause : Cause P T} {t : Ticket} {reply : Reply P T} {waiter : Waiter}
    (hstands : Stands S S') (hops : S.ops ⊆ S'.ops) (hsent : S'.sent = S.sends [(t, reply)] cause)
    (hmade : S'.made[t]? = some waiter) (htold : waiter.Told S' t ⟨reply, cause⟩)
    (harmed : ∀ waiter, S'.control = .waiting waiter → waiter ∈ S'.ops) : Told S' := by
  refine h.extend hstands hops hsent ?_ harmed
  intro e he
  obtain rfl := mem_singleton.mp he
  exact ⟨waiter, hmade, htold⟩

theorem Told.same (hstands : Stands S S') (hops : S.ops ⊆ S'.ops) (hsent : S'.sent = S.sent)
    (harmed : ∀ waiter, S'.control = .waiting waiter → waiter ∈ S'.ops) : Told S' := by
  refine h.extend hstands hops (?_ : _ = S.sends [] (.closed .eof)) (by simp) harmed
  rw [hsent]
  funext t
  simp [Stream.sends]

/-- Nothing is sent by what does not touch the answers, the slot and the ops. -/
theorem Told.setClosers {closers : List Closer} {stoppers : List Stopper} :
    Told { S with closers := closers, stoppers := stoppers } :=
  h.same (.ofMade rfl (fun _ => id) (fun _ => id) id) (List.Subset.refl _) rfl h.armed

variable (htracked : Tracked S)
include htracked

theorem Told.answerDispatch {requestId : String} {reply : Reply P T} (hnames : line.names? = some requestId)
    (hreply : line.route.dispatchReply? = some reply) : Told (S.answerDispatch requestId reply line) := by
  have hstands := S.answerDispatch_stands requestId reply line
  unfold Stream.answerDispatch at hstands ⊢
  split at hstands
  next pending' t hanswer =>
    obtain ⟨t', hwaiter, heq⟩ := Option.map_eq_some_iff.mp hanswer
    cases heq
    exact h.extendOne hstands (List.Subset.refl _) rfl
      (htracked.dispatches.registered _ (htracked.dispatches.waiter_eq_some.mp hwaiter)) ⟨hnames, hreply⟩ h.armed
  · exact h

theorem Told.routeLine (line : Line P T) : Told (S.routeLine line) := by
  have hstands := S.routeLine_stands line
  have hnames := line.dispatch_route
  unfold Stream.routeLine at hstands ⊢
  split
  next requestId payload hroute =>
    rw [hroute] at hnames
    exact h.answerDispatch htracked hnames.symm (by rw [hroute]; rfl)
  next requestId failure hroute =>
    rw [hroute] at hnames
    exact h.answerDispatch htracked hnames.symm (by rw [hroute]; rfl)
  next requestId failure hroute =>
    rw [hroute] at hstands
    simp only at hstands
    split
    next control' sends htagged =>
      rw [htagged] at hstands
      unfold ControlState.deliverTaggedFailure at htagged
      split at htagged
      next waiter hcontrol =>
        split at htagged <;> cases htagged
        next hid =>
          refine h.extendOne hstands (List.Subset.refl _) rfl
            (htracked.slot.waiter waiter.ticket (by rw [hcontrol]; rfl)).1
            ⟨waiter, h.armed waiter hcontrol, rfl, ?_⟩ (by simp)
          rw [hroute]
          exact if_pos hid
      all_goals cases htagged
    · exact h.same (.ofMade rfl (fun _ => id) (fun _ => id) id) (List.Subset.refl _) rfl h.armed
  next offered hroute =>
    rw [hroute] at hstands
    simp only at hstands
    split
    next control' sends hdeliver =>
      rw [hdeliver] at hstands
      unfold ControlState.deliver at hdeliver
      split at hdeliver
      next waiter hcontrol =>
        obtain ⟨reply, hoffer, heq⟩ := Option.map_eq_some_iff.mp hdeliver
        cases heq
        refine h.extendOne hstands (List.Subset.refl _) rfl
          (htracked.slot.waiter waiter.ticket (by rw [hcontrol]; rfl)).1
          ⟨waiter, h.armed waiter hcontrol, rfl, ?_⟩ (by simp)
        rw [hroute]
        exact hoffer
      next ack why hcontrol =>
        have hack := (htracked.slot.ack ack (by rw [hcontrol]; rfl)).1
        split at hdeliver <;> cases hdeliver
        all_goals
          refine h.extendOne hstands (List.Subset.refl _) rfl hack ?_ (by simp)
          show line.route.ackReply? = _
          rw [hroute]
          rfl
      all_goals cases hdeliver
    · exact h
  · exact h

theorem Told.closePending (reason : StreamClosed) : Told (S.closePending reason) := by
  refine h.extend (S.closePending_stands reason) (List.Subset.refl _) rfl ?_ h.armed
  intro e he
  obtain ⟨t, ht, rfl⟩ := mem_map.mp he
  cases hpending : S.pending with
  | closed previous => simp [hpending, PendingState.close] at ht
  | «open» waiting =>
    obtain ⟨requestId, hmem⟩ : ∃ requestId, (requestId, t) ∈ waiting := by
      simpa [hpending, PendingState.close] using ht
    refine ⟨.dispatch requestId, htracked.dispatches.registered (requestId, t) (by rwa [hpending]), ?_, rfl⟩
    simp [Stream.closePending, hpending, PendingState.close]

theorem Told.closeControl (reason : StreamClosed) : Told (S.closeControl reason) := by
  refine h.extend (S.closeControl_stands reason) (List.Subset.refl _) rfl ?_ ?_
  · intro e he
    cases hcontrol : S.control with
    | idle => simp [hcontrol, ControlState.close] at he
    | closed previous => simp [hcontrol, ControlState.close] at he
    | waiting waiter =>
      obtain rfl : e = (waiter.ticket, .failed (.streamClosed reason)) := by
        simpa [hcontrol, ControlState.close] using he
      refine ⟨.control, (htracked.slot.waiter waiter.ticket (by rw [hcontrol]; rfl)).1, rfl, .inl ?_⟩
      simp [Stream.closeControl, hcontrol, ControlState.close]
    | shuttingDown ack why =>
      obtain rfl : e = (ack, .failed (.streamClosed reason)) := by
        simpa [hcontrol, ControlState.close] using he
      refine ⟨.ack, (htracked.slot.ack ack (by rw [hcontrol]; rfl)).1, rfl, ?_⟩
      simp [Stream.closeControl, hcontrol, ControlState.close]
  · intro waiter hwaiting
    obtain ⟨first, hfirst⟩ := S.control.close_closed (P := P) reason
    rw [Stream.closeControl, hfirst] at hwaiting
    cases hwaiting

theorem Told.step (hstep : S.step event = some S') : Told S' := by
  have hstands := Stream.step_stands hstep
  cases event with
  | register requestId =>
    cases hstep
    unfold Stream.register at hstands ⊢
    split at hstands
    · exact h.same hstands (List.Subset.refl _) rfl h.armed
    · exact h
  | withdraw requestId =>
    cases hstep
    exact h.same hstands (List.Subset.refl _) rfl h.armed
  | arm op others =>
    cases hstep
    unfold Stream.arm at hstands ⊢
    simp only at hstands ⊢
    split at hstands
    next control' harm =>
      refine h.same hstands (subset_cons_self _ _) rfl ?_
      intro waiter hwaiting
      have hshape : control' = .waiting ⟨controlId (S.nextControlId + others), op, S.made.length⟩ := by
        cases hcontrol : S.control <;> rw [hcontrol] at harm <;> cases harm <;> rfl
      cases hshape.symm.trans hwaiting
      exact mem_cons_self
    · exact h.same hstands (List.Subset.refl _) rfl h.armed
  | line line =>
    simp only [Stream.step] at hstep
    split at hstep <;> cases hstep
    exact h.routeLine htracked line
  | handsOn =>
    simp only [Stream.step] at hstep
    split at hstep <;> cases hstep
    next line requestId failure hreader =>
      have hroute := htracked.handing line requestId failure hreader
      have hnames := line.dispatch_route
      rw [hroute] at hnames
      have hanswered := h.answerDispatch htracked hnames.symm (by rw [hroute]; rfl)
      exact hanswered.same (.ofMade rfl (fun _ => id) (fun _ => id) id) (List.Subset.refl _) rfl hanswered.armed
  | readerEnds reason =>
    simp only [Stream.step] at hstep
    split at hstep <;> cases hstep
    exact h.same hstands (List.Subset.refl _) rfl h.armed
  | closes why | stops why =>
    cases hstep
    exact h.same hstands (List.Subset.refl _) rfl h.armed
  | closerAdvances k =>
    obtain ⟨closer, _, hcloser⟩ := Option.bind_eq_some_iff.mp hstep
    cases closer with
    | pendingNext reason =>
      cases hcloser
      exact (h.closePending htracked reason).setClosers
    | controlNext reason =>
      cases hcloser
      exact (h.closeControl htracked reason).setClosers
    | returned => cases hcloser
  | stopperAdvances k written =>
    obtain ⟨stopper, _, hstopper⟩ := Option.bind_eq_some_iff.mp hstep
    cases stopper with
    | pendingNext why =>
      cases hstopper
      exact (h.closePending htracked (.stopped why)).setClosers
    | controlNext why =>
      unfold Stream.stopperStep at hstopper
      simp only at hstopper
      split at hstopper <;> cases hstopper
      next control' sends hbegin =>
        unfold ControlState.beginShutdown at hbegin
        split at hbegin <;> cases hbegin
        next hcontrol =>
          exact h.extend hstands (List.Subset.refl _) (rfl : _ = S.sends [] _) (by simp) (by simp)
        next waiter hcontrol =>
          have hmade := (htracked.slot.waiter waiter.ticket (by rw [hcontrol]; rfl)).1
          exact h.extendOne hstands (List.Subset.refl _) rfl (made_append.mpr (.inl hmade))
            ⟨rfl, .inr ⟨⟨why, rfl⟩, trivial⟩⟩ (by simp)
      · exact h.setClosers
    | writing ack =>
      cases hstopper
      exact h.setClosers
    | returned ack => cases hstopper

end Told

/-! What the waiters see. -/

section Served
variable [DecidableEq T]

/-- The answers of every waiter; `gone`: its dispatch was withdrawn or its op replaced. -/
structure Served (S : Stream P T) : Prop where
  dispatch : ∀ (t : Ticket) (requestId : String), S.made[t]? = some (.dispatch requestId) →
    t ∉ S.gone → ((requestId, t) ∈ S.pending.waiting ∧ S.sent t = []) ∨
      ∃ a, S.sent t = [a] ∧ (Waiter.dispatch requestId).Told S t a
  /-- Once the dispatches are closed each has had its one answer. -/
  dispatchClosed : S.pending.Refuses → ∀ (t : Ticket) (requestId : String),
    S.made[t]? = some (.dispatch requestId) → t ∉ S.gone →
      ∃ a, S.sent t = [a] ∧ (Waiter.dispatch requestId).Told S t a
  op : ∀ t : Ticket, S.made[t]? = some .control → t ∉ S.gone →
    (S.control.waiter? = some t ∧ S.sent t = []) ∨ ∃ a, S.sent t = [a] ∧ Waiter.control.Told S t a
  /-- Once the slot refuses ops each has had its one answer. -/
  opClosed : S.control.Refuses → ∀ t : Ticket, S.made[t]? = some .control → t ∉ S.gone →
    ∃ a, S.sent t = [a] ∧ Waiter.control.Told S t a
  /-- A shutdown that returned `Some` awaits its outcome or has had one. -/
  ack : ∀ t, .returned (some t) ∈ S.stoppers →
    (S.control.ack? = some t ∧ S.sent t = []) ∨ ∃ a, S.sent t = [a] ∧ Waiter.ack.Told S t a
  ackClosed : (∃ reason, S.control = .closed reason) → ∀ t, .returned (some t) ∈ S.stoppers →
    ∃ a, S.sent t = [a] ∧ Waiter.ack.Told S t a
  /-- Closed routes have both ends closed; a shutdown that returned `Some` closed the dispatches and the slot.
    -/
  closed : .returned ∈ S.closers → S.pending.Refuses ∧ ∃ reason, S.control = .closed reason
  begun : ∀ t, .returned (some t) ∈ S.stoppers → S.pending.Refuses ∧ S.control.Refuses

def Event.line? (S : Stream P T) : Event P T → Option (Line P T)
  | .line l => some l
  | .handsOn =>
      match S.reader with
      | .handing l _ _ => some l
      | _ => none
  | _ => none

def LeavesOthers (line : Line P T) (S S' : Stream P T) : Prop :=
  ∀ (t : Ticket) (requestId : String), S.made[t]? = some (.dispatch requestId) →
    line.names? ≠ some requestId →
    ((requestId, t) ∈ S'.pending.waiting ↔ (requestId, t) ∈ S.pending.waiting) ∧
      S'.sent t = S.sent t

/-- Who waits for what the line says is told it. A failure is first offered to the op of its id, and is in the
reader's hand where that declines. -/
structure Reaches (line : Line P T) (S S' : Stream P T) : Prop where
  dispatch : ∀ t requestId, (requestId, t) ∈ S.pending.waiting → line.names? = some requestId →
    (∃ reply, line.route.dispatchReply? = some reply ∧ S'.sent t = [⟨reply, .line line⟩]) ∨
      S.reader = .reading ∧ ((∃ failure, S'.reader = .handing line requestId failure) ∨
        ∃ waiter, S.control = .waiting waiter ∧ waiter.requestId = requestId)
  op : S.reader = .reading → ∀ waiter reply, S.control = .waiting waiter →
    line.route.opReply? waiter = some reply → S'.sent waiter.ticket = [⟨reply, .line line⟩]
  ack : S.reader = .reading → ∀ ack why reply, S.control = .shuttingDown ack why →
    line.route.ackReply? = some reply → S'.sent ack = [⟨reply, .line line⟩]

theorem Told.answer (htold : Told S) {waiter : Waiter} (hmade : S.made[t]? = some waiter)
    (hsent : ∃ a, S.sent t = [a]) : ∃ a, S.sent t = [a] ∧ waiter.Told S t a := by
  obtain ⟨a, ha⟩ := hsent
  obtain ⟨waiter', hmade', h⟩ := htold.told t a (by rw [ha]; exact mem_singleton_self a)
  obtain rfl : waiter' = waiter := Option.some.inj (hmade'.symm.trans hmade)
  exact ⟨a, ha, h⟩

theorem Tracked.served (h : Tracked S) (htold : Told S) : Served S := by
  have hdispatch : ∀ (t : Ticket) (requestId : String),
      S.made[t]? = some (.dispatch requestId) → t ∉ S.gone →
        ((requestId, t) ∈ S.pending.waiting ∧ S.sent t = []) ∨
          ∃ a, S.sent t = [a] ∧ (Waiter.dispatch requestId).Told S t a := by
    intro t requestId htag hnot
    by_cases hmem : (requestId, t) ∈ S.pending.waiting
    · exact .inl ⟨hmem, h.dispatches.unanswered _ hmem⟩
    · exact .inr (htold.answer htag (h.dispatches.settled t requestId htag hmem hnot))
  have hop : ∀ t : Ticket, S.made[t]? = some .control → t ∉ S.gone →
      (S.control.waiter? = some t ∧ S.sent t = []) ∨
        ∃ a, S.sent t = [a] ∧ Waiter.control.Told S t a := by
    intro t htag hnot
    by_cases hwaits : S.control.waiter? = some t
    · exact .inl ⟨hwaits, (h.slot.waiter t hwaits).2⟩
    · exact .inr (htold.answer htag (h.slot.settled t htag hwaits hnot))
  have hack : ∀ t, .returned (some t) ∈ S.stoppers →
      (S.control.ack? = some t ∧ S.sent t = []) ∨ ∃ a, S.sent t = [a] ∧ Waiter.ack.Told S t a := by
    intro t ht
    have htag : S.made[t]? = some .ack := (h.stopping _ ht).1
    by_cases hwaits : S.control.ack? = some t
    · exact .inl ⟨hwaits, (h.slot.ack t hwaits).2⟩
    · exact .inr (htold.answer htag (h.slot.acked t htag hwaits))
  refine ⟨hdispatch, ?_, hop, ?_, hack, ?_, fun hc => h.closing _ hc,
    fun t ht => (h.stopping _ ht).2⟩
  · rintro ⟨reason, hreason⟩ t requestId htag hnot
    refine (hdispatch t requestId htag hnot).resolve_left ?_
    simp [hreason, PendingState.waiting]
  · rcases hcontrol : S.control with _ | _ | _ | _ <;>
      simp_all [ControlState.Refuses, ControlState.waiter?]
  · rintro ⟨reason, hreason⟩ t ht
    refine (hack t ht).resolve_left ?_
    simp [hreason, ControlState.ack?]

omit [DecidableEq T] in
theorem Tracked.answerDispatch_leaves (h : Tracked S) {requestId : String}
    (reply : Reply P T) (hnames : line.names? = some requestId) :
    LeavesOthers line S (S.answerDispatch requestId reply line) := by
  intro t requestId' htag hother
  have hne : requestId' ≠ requestId := by
    rintro rfl
    exact hother hnames
  unfold Stream.answerDispatch
  split
  next pending' t' hanswer =>
    obtain ⟨t'', hwaiter, heq⟩ := Option.map_eq_some_iff.mp hanswer
    cases heq
    refine ⟨by simp [Dispatches.mem_withdraw, hne], ?_⟩
    apply S.sends_of_ne
    simp only [mem_singleton, forall_eq]
    rintro rfl
    have htag' := h.dispatches.registered _ (h.dispatches.waiter_eq_some.mp hwaiter)
    rw [htag] at htag'
    cases htag'
    exact hne rfl
  · exact ⟨Iff.rfl, rfl⟩

theorem Tracked.routeLine_leaves (h : Tracked S)
    (line : Line P T) : LeavesOthers line S (S.routeLine line) := by
  have hnames : ∀ requestId, line.route.dispatch? = some requestId →
      line.names? = some requestId := fun _ hdispatch => line.dispatch_route ▸ hdispatch
  have hslot : ∀ (control' : ControlState T) (sends : List (Ticket × Reply P T)),
      sends.map Prod.fst = (S.control.waiter?.or S.control.ack?).toList →
      LeavesOthers line S { S with control := control', sent := S.sends sends (.line line) } := by
    intro control' sends hsends t requestId htag _
    refine ⟨Iff.rfl, ?_⟩
    apply S.sends_of_ne
    rintro e he rfl
    have hmem : e.1 ∈ (S.control.waiter?.or S.control.ack?).toList := by
      rw [← hsends]
      exact mem_map_of_mem he
    rw [mem_toList, or_eq_some_iff] at hmem
    have htag' : S.made[e.1]? = some .control ∨ S.made[e.1]? = some .ack := by
      rcases hmem with hmem | ⟨_, hmem⟩
      · exact .inl (h.slot.waiter _ hmem).1
      · exact .inr (h.slot.ack _ hmem).1
    simp [htag] at htag'
  unfold Stream.routeLine
  split
  next requestId payload hroute =>
    exact h.answerDispatch_leaves _ (hnames requestId (by rw [hroute]; rfl))
  next requestId failure hroute =>
    exact h.answerDispatch_leaves _ (hnames requestId (by rw [hroute]; rfl))
  next requestId failure hroute =>
    split
    next control' sends htagged =>
      exact hslot control' sends (ControlState.deliverTaggedFailure_sends htagged).1
    · exact fun t requestId _ _ => ⟨Iff.rfl, rfl⟩
  next offered hroute =>
    split
    next control' sends hdeliver =>
      exact hslot control' sends (ControlState.deliver_sends hdeliver).1
    · exact fun t requestId _ _ => ⟨Iff.rfl, rfl⟩
  · exact fun t requestId _ _ => ⟨Iff.rfl, rfl⟩

theorem Tracked.step_leaves (h : Tracked S) (hline : event.line? S = some line)
    (hstep : S.step event = some S') : LeavesOthers line S S' := by
  cases event with
  | line line' =>
    cases hline
    simp only [Stream.step] at hstep
    split at hstep <;> cases hstep
    exact h.routeLine_leaves line
  | handsOn =>
    simp only [Event.line?] at hline
    split at hline <;> cases hline
    next requestId failure hreader =>
      simp only [Stream.step, hreader] at hstep
      cases hstep
      have hroute := h.handing line requestId failure hreader
      exact h.answerDispatch_leaves (.dispatchError failure.intoWorkerError)
        (by rw [← line.dispatch_route, hroute]; rfl)
  | _ => cases hline

omit [DecidableEq T] in
theorem Tracked.answerDispatch_reaches (h : Tracked S) {requestId : String} (reply : Reply P T)
    (line : Line P T) (hmem : (requestId, t) ∈ S.pending.waiting) :
    (S.answerDispatch requestId reply line).sent t = [⟨reply, .line line⟩] := by
  have hanswer : S.pending.answer requestId = some (S.pending.withdraw requestId, t) := by
    rw [PendingState.answer, h.dispatches.waiter_eq_some.mpr hmem]
    rfl
  simp only [Stream.answerDispatch, hanswer]
  exact S.sends_of_mem (.line line) (e := (t, reply)) (by simp) (by simp) (h.dispatches.unanswered _ hmem)

theorem Tracked.routeLine_reaches (h : Tracked S) (line : Line P T) (hreader : S.reader = .reading) :
    Reaches line S (S.routeLine line) := by
  have hslot : ∀ t reply, S.sent t = [] →
      S.sends [(t, reply)] (.line line) t = [⟨reply, .line line⟩] := by
    intro t reply hnone
    exact S.sends_of_mem (.line line) (e := (t, reply)) (by simp) (by simp) hnone
  refine ⟨?_, ?_, ?_⟩
  · intro t requestId hmem hnames
    rw [← line.dispatch_route] at hnames
    unfold Stream.routeLine
    split
    next requestId' payload hroute =>
      rw [hroute] at hnames ⊢
      cases hnames
      exact .inl ⟨_, rfl, h.answerDispatch_reaches _ line hmem⟩
    next requestId' failure hroute =>
      rw [hroute] at hnames ⊢
      cases hnames
      exact .inl ⟨_, rfl, h.answerDispatch_reaches _ line hmem⟩
    next requestId' failure hroute =>
      rw [hroute] at hnames
      cases hnames
      refine .inr ⟨hreader, ?_⟩
      split
      next htagged =>
        unfold ControlState.deliverTaggedFailure at htagged
        split at htagged
        next waiter hcontrol =>
          split at htagged
          next hid => exact .inr ⟨waiter, hcontrol, hid⟩
          · cases htagged
        all_goals cases htagged
      · exact .inl ⟨failure, rfl⟩
    next hroute => rw [hroute] at hnames; cases hnames
    next hroute => rw [hroute] at hnames; cases hnames
  · intro _ waiter reply hcontrol hreply
    have hnone := (h.slot.waiter waiter.ticket (by rw [hcontrol]; rfl)).2
    unfold Stream.routeLine
    split
    next hroute => rw [hroute] at hreply; cases hreply
    next hroute => rw [hroute] at hreply; cases hreply
    next requestId failure hroute =>
      rw [hroute] at hreply
      simp only [Routing.opReply?] at hreply
      split at hreply <;> cases hreply
      next hid =>
        simp only [hcontrol, ControlState.deliverTaggedFailure, hid, if_true]
        exact hslot _ _ hnone
    next offered hroute =>
      rw [hroute] at hreply
      have hoffer : waiter.offer offered = some reply := hreply
      simp only [hcontrol, ControlState.deliver, hoffer, Option.map_some]
      exact hslot _ _ hnone
    next hroute => rw [hroute] at hreply; cases hreply
  · intro _ ack why reply hcontrol hreply
    have hnone := (h.slot.ack ack (by rw [hcontrol]; rfl)).2
    unfold Stream.routeLine
    split
    next hroute => rw [hroute] at hreply; cases hreply
    next hroute => rw [hroute] at hreply; cases hreply
    next hroute => rw [hroute] at hreply; cases hreply
    next offered hroute =>
      rw [hroute] at hreply
      unfold Routing.ackReply? at hreply
      split at hreply <;> cases hreply
      next heq => cases heq; simp only [hcontrol, ControlState.deliver]; exact hslot _ _ hnone
      next heq => cases heq; simp only [hcontrol, ControlState.deliver]; exact hslot _ _ hnone
    next hroute => rw [hroute] at hreply; cases hreply

theorem Tracked.step_reaches (h : Tracked S) (hline : event.line? S = some line)
    (hstep : S.step event = some S') : Reaches line S S' := by
  cases event with
  | line line' =>
    cases hline
    simp only [Stream.step] at hstep
    split at hstep <;> cases hstep
    next hreader => exact h.routeLine_reaches line hreader
  | handsOn =>
    simp only [Event.line?] at hline
    split at hline <;> cases hline
    next requestId failure hreader =>
      simp only [Stream.step, hreader] at hstep
      cases hstep
      have hroute := h.handing line requestId failure hreader
      refine ⟨?_, fun hreading => ?_, fun hreading => ?_⟩
      · intro t requestId' hmem hnames
        rw [← line.dispatch_route, hroute] at hnames
        cases hnames
        exact .inl ⟨_, by rw [hroute]; rfl, h.answerDispatch_reaches _ line hmem⟩
      all_goals
        rw [hreader] at hreading
        cases hreading
  | _ => cases hline

/-- In every order of events each waiter that is not gone waits or was answered once, with what a line that
  names it or the first close reason says; a closed end stays so and takes no waiter; a line reaches who waits
  for it and leaves every dispatch it does not name. -/
theorem waiters_answered_once (events : List (Event P T)) :
    Runs.Always Stream.step (fun S => Served S ∧
      (∀ later S', Runs.run Stream.step S later = some S' → Stands S S') ∧
      ∀ event line S', event.line? S = some line → S.step event = some S' →
        Reaches line S S' ∧ LeavesOthers line S S') (Stream.open : Stream P T) events := by
  have hkept : Runs.Always Stream.step (fun S => Tracked S ∧ Told S) (Stream.open : Stream P T) events :=
    Runs.always_of_step (fun S event S' hS hstep => ⟨hS.1.step hstep, hS.2.step hS.1 hstep⟩)
      ⟨Tracked.open, by simp [Stream.open], by simp [Stream.open]⟩ events
  apply hkept.mono
  intro S hS
  exact ⟨hS.1.served hS.2, fun later S' hrun => Stream.run_stands hrun,
    fun event line S' hline hstep => ⟨hS.1.step_reaches hline hstep, hS.1.step_leaves hline hstep⟩⟩

end Served

end Batchalign.SharedGpu
