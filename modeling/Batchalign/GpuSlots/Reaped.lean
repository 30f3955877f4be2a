import Batchalign.GpuSlots.Exclusion

/- No worker after shutdown. A worker that was given is one the drain will come to or somebody is
   shutting down (`Pool.Found`), and one that nobody keeps is dropped. A shutdown that is itself dropped
   breaks this. -/
namespace Batchalign.GpuSlots
open List
open Function (update_of_ne)

variable {K : Type}

def Stage.given? (cancelled : Bool) : Stage → Option ℕ
  | .returned w _ => some w
  | .checking _ w => if cancelled then none else some w
  | _ => none

def Stage.retires? : Stage → Option ℕ
  | .retiring _ w | .shutting w => some w
  | _ => none

def Stage.checks? : Stage → Option ℕ
  | .checking _ w | .ending _ w => some w
  | _ => none

namespace Pool

def tracked (S : Pool K) : List ℕ :=
  match S.shutdown with
  | .idle | .cancelled => S.map.map Prod.snd
  | .draining _ | .stopping _ _ | .returned => S.shutdown.rest

def isGiven (S : Pool K) (w : ℕ) : Bool :=
  S.calls.any (fun c => c.stage.given? S.isCancelled = some w)

def runsOnly (S : Pool K) (w s : ℕ) : Bool :=
  match S.occupancy s with
  | .worker w' => w' = w || (S.workers w').stopped
  | .empty | .transitioning => true

def Found (S : Pool K) (w : ℕ) : Prop :=
  (S.workers w).stopped = true ∨ (∃ s ∈ S.tracked, S.occupancy s = .worker w) ∨
    S.shutdown.worker? = some w ∨ ∃ c ∈ S.calls, w ∈ c.stage.retires?

end Pool

/-- A refused report takes no slot with another running worker or a call that may initialize, and no shutdown
  of a running worker is dropped while a caller or, once the pool is shut down, the map has it. -/
def Event.givesUpNone [DecidableEq K] (S : Pool K) : Event K → Bool
  | .drops k =>
      match S.calls[k]? with
      | some ⟨_, .retiring _ w⟩ | some ⟨_, .shutting w⟩ =>
          (S.workers w).stopped || !S.isGiven w
      | some ⟨_, .ending _ w⟩ =>
          (S.workers w).stopped || S.shutdown ≠ .returned ||
            S.map.all (fun e => S.occupancy e.2 ≠ .worker w)
      | _ => true
  | .refuses k =>
      match S.calls[k]? with
      | some ⟨key, .returned w _⟩ =>
          S.shutdown = .returned || S.map.all (fun e => e.1 ≠ key ||
            (S.runsOnly w e.2 && S.calls.all (fun c => c.stage.opens? ≠ some e.2)))
      | _ => true
  | _ => true

/-- Every worker a caller was given is found, and every worker the map has after the drain. -/
structure Reached (S : Pool K) : Prop where
  locked : S.shutdown.hasMap = true → S.map = []
  mapped : S.shutdown = .idle → ∀ c ∈ S.calls, ∀ s ∈ c.stage.opens?, (c.key, s) ∈ S.map
  given : ∀ c ∈ S.calls, ∀ w ∈ c.stage.given? S.isCancelled, S.Found w
  late : S.shutdown = .returned → ∀ e ∈ S.map, ∀ w, S.occupancy e.2 = .worker w →
    (S.workers w).stopped = true ∨ ∃ c ∈ S.calls, w ∈ c.stage.checks?
  onTime : ∀ c ∈ S.calls, ∀ w, c.stage ≠ .returned w true

theorem Pool.stopped_close (S : Pool K) (w : ℕ) {w' : ℕ} (h : (S.workers w').stopped = true) :
    ((S.close w).workers w').stopped = true := by
  by_cases hsame : w' = w <;> simp_all [close, Function.update]

theorem Pool.stopped_stop (S : Pool K) (w : ℕ) {w' : ℕ} (h : (S.workers w').stopped = true) :
    ((S.stop w).workers w').stopped = true := by
  by_cases hsame : w' = w <;> simp [stop, Function.update, hsame, h]

@[simp] theorem Pool.stop_stopped (S : Pool K) (w : ℕ) : ((S.stop w).workers w).stopped = true := by
  simp [stop]

variable {e : Event K}

namespace Reached

variable {S S' : Pool K} {c : Call K} {k s w : ℕ}

theorem turn (h : Reached S) (hk : S.calls[k]? = some c)
    (stage : Stage) (hcalls : S'.calls = S.calls.set k { c with stage := stage })
    (hshutdown : S'.shutdown = S.shutdown) (hmap : S'.map = S.map)
    (hopens : ∀ s ∈ stage.opens?, s ∈ c.stage.opens? ∨ (c.key, s) ∈ S.map)
    (hstopped : ∀ w, (S.workers w).stopped = true → (S'.workers w).stopped = true)
    (hoccupancy : ∀ s w, S.occupancy s = .worker w →
      S'.occupancy s = .worker w ∨ w ∈ stage.retires?)
    (hretires : ∀ w ∈ c.stage.retires?, w ∈ stage.retires? ∨ (S'.workers w).stopped = true ∨
      S.isGiven w = false)
    (hgiven : ∀ w ∈ stage.given? S.isCancelled, S'.Found w ∨ (S.Found w ∧ c.stage.retires? = none))
    (hnew : ∀ s w, S'.occupancy s = .worker w → S.occupancy s = .worker w ∨ w ∈ stage.checks?)
    (hchecks : ∀ w ∈ c.stage.checks?, w ∈ stage.checks? ∨ (S'.workers w).stopped = true ∨
      (S.shutdown = .returned → ∀ e ∈ S.map, S.occupancy e.2 ≠ .worker w))
    (honTime : ∀ w, stage ≠ .returned w true) : Reached S' := by
  have hc := mem_of_getElem? hk
  have hset : { c with stage := stage } ∈ S'.calls := by
    rw [hcalls]
    exact mem_set (List.getElem?_eq_some_iff.mp hk).1 _
  -- the other calls stay
  have hother : ∀ c' ∈ S.calls, c' = c ∨ c' ∈ S'.calls := by
    intro c' hc'
    rw [hcalls]
    exact Crew.mem_set_of_mem _ hk hc'
  have hcancelled : S'.isCancelled = S.isCancelled := by simp [Pool.isCancelled, hshutdown]
  have htracked : S'.tracked = S.tracked := by simp [Pool.tracked, hshutdown, hmap]
  have hfound : ∀ w, S.Found w → S.isGiven w = true ∨ c.stage.retires? = none → S'.Found w := by
    intro w hw hneeded
    rcases hw with hstop | ⟨s, hs, hsw⟩ | hstopping | ⟨c', hc', hretire⟩
    · exact .inl (hstopped w hstop)
    · rcases hoccupancy s w hsw with hstill | hretire
      · exact .inr (.inl ⟨s, htracked ▸ hs, hstill⟩)
      · exact .inr (.inr (.inr ⟨_, hset, hretire⟩))
    · exact .inr (.inr (.inl (by rw [hshutdown, hstopping])))
    · rcases hother c' hc' with rfl | hmem
      · rcases hretires w hretire with hstill | hstop | hnone
        · exact .inr (.inr (.inr ⟨_, hset, hstill⟩))
        · exact .inl hstop
        · simp_all
      · exact .inr (.inr (.inr ⟨c', hmem, hretire⟩))
  constructor
  case locked => rw [hshutdown, hmap]; exact h.locked
  case mapped =>
    rw [hshutdown, hmap, hcalls]
    intro hidle
    apply Crew.forall_set (h.mapped hidle)
    intro s hs
    rcases hopens s hs with hbefore | hnow
    · exact h.mapped hidle c hc s hbefore
    · exact hnow
  case given =>
    rw [hcalls, hcancelled]
    apply Crew.forall_set
    · intro c' hc' w hw
      refine hfound w (h.given c' hc' w hw) (.inl (any_eq_true.mpr ⟨c', hc', ?_⟩))
      simpa using hw
    · intro w hw
      rcases hgiven w hw with hnow | ⟨hbefore, hnone⟩
      · exact hnow
      · exact hfound w hbefore (.inr hnone)
  case late =>
    rw [hshutdown, hmap]
    intro hreturned e he w hw
    rcases hnew e.2 w hw with hold | hcheck
    · rcases h.late hreturned e he w hold with hstop | ⟨c', hc', hcheck⟩
      · exact .inl (hstopped w hstop)
      · rcases hother c' hc' with rfl | hmem
        · rcases hchecks w hcheck with hstill | hstop | hnone
          · exact .inr ⟨_, hset, hstill⟩
          · exact .inl hstop
          · exact absurd hold (hnone hreturned e he)
        · exact .inr ⟨c', hmem, hcheck⟩
    · exact .inr ⟨_, hset, hcheck⟩
  case onTime =>
    rw [hcalls]
    exact Crew.forall_set h.onTime honTime

theorem turns (h : Reached S) (hk : S.calls[k]? = some c)
    (stage : Stage) (hcalls : S'.calls = S.calls.set k { c with stage := stage })
    (hshutdown : S'.shutdown = S.shutdown) (hmap : S'.map = S.map)
    (hoccupancy : S'.occupancy = S.occupancy)
    (hopens : ∀ s ∈ stage.opens?, s ∈ c.stage.opens? ∨ (c.key, s) ∈ S.map)
    (hstopped : ∀ w, (S.workers w).stopped = true → (S'.workers w).stopped = true)
    (hretires : ∀ w ∈ c.stage.retires?, w ∈ stage.retires? ∨ (S'.workers w).stopped = true ∨
      S.isGiven w = false)
    (hgiven : ∀ w ∈ stage.given? S.isCancelled, S.Found w ∧ c.stage.retires? = none)
    (hchecks : ∀ w ∈ c.stage.checks?, w ∈ stage.checks? ∨ (S'.workers w).stopped = true ∨
      (S.shutdown = .returned → ∀ e ∈ S.map, S.occupancy e.2 ≠ .worker w))
    (honTime : ∀ w, stage ≠ .returned w true) : Reached S' :=
  h.turn hk stage hcalls hshutdown hmap hopens hstopped
    (fun s w hw => .inl (by rw [hoccupancy, hw])) hretires (fun w hw => .inr (hgiven w hw))
    (fun s w hw => .inl (by rw [← hoccupancy, hw])) hchecks honTime

theorem goes (h : Reached S) (hk : S.calls[k]? = some c)
    (stage : Stage) (hcalls : S'.calls = S.calls.set k { c with stage := stage })
    (hshutdown : S'.shutdown = S.shutdown) (hmap : S'.map = S.map)
    (hoccupancy : S'.occupancy = S.occupancy) (hworkers : S'.workers = S.workers)
    (hopens : ∀ s ∈ stage.opens?, s ∈ c.stage.opens? ∨ (c.key, s) ∈ S.map)
    (hretires : c.stage.retires? = none)
    (hchecks : c.stage.checks? = none) (hgiven : stage.given? S.isCancelled = none)
    (honTime : ∀ w, stage ≠ .returned w true) : Reached S' :=
  h.turns hk stage hcalls hshutdown hmap hoccupancy hopens (by simp [hworkers])
    (by simp [hretires]) (by simp [hgiven]) (by simp [hchecks]) honTime

theorem found (h : Reached S) (hc : c ∈ S.calls) (hs : s ∈ c.stage.opens?) (hw : S.occupancy s = .worker w) (hidle : S.shutdown = .idle) :
    S.Found w := by
  refine .inr (.inl ⟨s, ?_, hw⟩)
  simp only [Pool.tracked, hidle]
  exact mem_map.mpr ⟨_, h.mapped hidle c hc s hs, rfl⟩

theorem ready (h : S.ready? s = some w) : S.occupancy s = .worker w := by
  unfold Pool.ready? at h
  split at h
  · split at h <;> cases h
    assumption
  · cases h
  · cases h

section
variable (h : Reached S)
include h

theorem looks (hk : S.calls[k]? = some c)
    (hs : s ∈ c.stage.opens?) (hretires : c.stage.retires? = none)
    (hchecks : c.stage.checks? = none) {stage : Stage} (hopens : stage.opens? = some s)
    (hgiven : stage.given? S.isCancelled = none) (honTime : ∀ w, stage ≠ .returned w true) :
    Reached (S.turn k c (match S.ready? s with | some w => .checking s w | none => stage)) := by
  have hc := mem_of_getElem? hk
  split
  · rename_i w hw
    refine h.turns hk (.checking s w) rfl rfl rfl rfl (by simp [Stage.opens?]) (fun _ => id)
      (by simp [hretires]) ?_ (by simp [hchecks]) (by simp)
    intro w' hw'
    have hidle : S.shutdown = .idle := by
      by_contra hcancelled
      simp [Stage.given?, Pool.isCancelled, hcancelled] at hw'
    obtain rfl : w = w' := by simpa [Stage.given?, Pool.isCancelled, hidle] using hw'
    exact ⟨h.found hc hs (ready hw) hidle, hretires⟩
  · have hsame : ∀ s' ∈ stage.opens?, s' ∈ c.stage.opens? ∨ (c.key, s') ∈ S.map := by
      intro s' hs'
      rw [hopens] at hs'
      cases hs'
      exact .inl hs
    exact h.goes hk stage rfl rfl rfl rfl rfl hsame hretires hchecks hgiven honTime

theorem replaces (hk : S.calls[k]? = some c)
    (hc : c.stage = .replacing s) : Reached (S.replace k c s) := by
  have hother : ∀ s' w, Function.update S.occupancy s .transitioning s' = .worker w →
      S.occupancy s' = .worker w := by
    intro s' w hw
    by_cases hs' : s' = s
    · simp [hs'] at hw
    · simpa [update_of_ne hs'] using hw
  cases hw : S.occupancy s with
  | worker w =>
    simp only [Pool.replace, hw]
    refine h.turn hk (.retiring s w) rfl rfl rfl (by simp [Stage.opens?, hc])
      (fun w' => Pool.stopped_close (S.occupy s .transitioning) w) ?_ (by simp [Stage.retires?, hc]) (by simp [Stage.given?])
      (fun s' w' hw' => .inl (hother s' w' hw'))
      (by simp [Stage.checks?, hc]) (by simp)
    intro s' w' hw'
    by_cases hs' : s' = s
    · subst hs'
      rw [hw] at hw'
      cases hw'
      exact .inr rfl
    · left
      simpa [Pool.turn, Pool.close, Pool.occupy, update_of_ne hs'] using hw'
  | _ =>
    simp only [Pool.replace, hw]
    refine h.turn hk (.initializing s) rfl rfl rfl (by simp [Stage.opens?, hc]) (fun _ => id) ?_
      (by simp [Stage.retires?, hc]) (by simp [Stage.given?])
      (fun s' w' hw' => .inl (hother s' w' hw'))
      (by simp [Stage.checks?, hc]) (by simp)
    intro s' w' hw'
    have hs' : s' ≠ s := by
      rintro rfl
      simp_all
    exact .inl (by simpa [Pool.turn, Pool.occupy, update_of_ne hs'] using hw')

theorem publishes (hlocks : Locks S) (hk : S.calls[k]? = some c) (hc : c.stage = .initializing s) :
    Reached ((S.publish s).turn k c (.checking s S.published)) := by
  have hmem := mem_of_getElem? hk
  have htransition : S.occupancy s = .transitioning :=
    (hlocks.transition s).mpr ⟨c, hmem, by simp [hc, Stage.transits?]⟩
  refine h.turn hk (.checking s S.published) rfl rfl rfl (by simp [Stage.opens?]) (fun _ => id) ?_
    (by simp [Stage.retires?, hc]) ?_ ?_ (by simp [Stage.checks?, hc]) (by simp)
  · intro s' w hw
    have hs' : s' ≠ s := by
      rintro rfl
      simp_all
    exact .inl (by simpa [Pool.turn, Pool.publish, Pool.occupy, update_of_ne hs'] using hw)
  · intro w hw
    have hidle : S.shutdown = .idle := by
      by_contra hcancelled
      simp [Stage.given?, Pool.isCancelled, hcancelled] at hw
    obtain rfl : S.published = w := by simpa [Stage.given?, Pool.isCancelled, hidle] using hw
    refine .inl (.inr (.inl ⟨s, ?_, by simp [Pool.turn, Pool.publish, Pool.occupy]⟩))
    have := h.mapped hidle c hmem s (by simp [hc, Stage.opens?])
    simp only [Pool.tracked, Pool.turn, Pool.publish, Pool.occupy, hidle]
    exact mem_map.mpr ⟨_, this, rfl⟩
  · intro s' w hw
    by_cases hs' : s' = s
    · subst hs'
      right
      simpa [Pool.turn, Pool.publish, Pool.occupy, Stage.checks?] using hw
    · left
      simpa [Pool.turn, Pool.publish, Pool.occupy, update_of_ne hs'] using hw

theorem restores (hk : S.calls[k]? = some c)
    {stage : Stage} (hopens : stage.opens? = none) (hchecks : c.stage.checks? = none)
    (hretires : ∀ w ∈ c.stage.retires?, (S.workers w).stopped = true ∨ S.isGiven w = false)
    (hgiven : stage.given? S.isCancelled = none) (honTime : ∀ w, stage ≠ .returned w true) :
    Reached ((S.restore s).turn k c stage) := by
  obtain ⟨hcalls, -, hmap, hworkers, hshutdown, -⟩ := S.restore_rest s
  have hsame : ∀ s' w, (S.restore s).occupancy s' = .worker w ↔ S.occupancy s' = .worker w := by
    intro s' w
    rw [S.restore_occupancy]
    split
    · rename_i hs'
      simp [hs'.1, hs'.2]
    · rfl
  refine h.turn hk stage (by simp [Pool.turn, hcalls]) hshutdown hmap (by simp [hopens]) ?_
    (fun s' w hw => .inl ((hsame s' w).mpr hw)) ?_ (by simp [hgiven])
    (fun s' w hw => .inl ((hsame s' w).mp hw)) (by simp [hchecks]) honTime
  · simp [Pool.turn, hworkers]
  · intro w hw
    right
    simpa [Pool.turn, hworkers] using hretires w hw

theorem makes (hlocks : Locks S) (key : K) (hmap : S.shutdown.hasMap = false) : Reached { S with
      map := (key, S.made) :: S.map
      made := S.made + 1
      occupancy := Function.update S.occupancy S.made .empty } := by
  -- the slots that are looked for were there before
  have htracked : ∀ s ∈ S.tracked, s ≠ S.made ∧
      s ∈ ({ S with map := (key, S.made) :: S.map } : Pool K).tracked := by
    intro s hs
    cases hshutdown : S.shutdown with
    | idle | cancelled =>
      simp only [Pool.tracked, hshutdown] at hs ⊢
      obtain ⟨e, he, rfl⟩ := mem_map.mp hs
      exact ⟨(hlocks.mapped e he).ne, mem_map_of_mem (mem_cons_of_mem _ he)⟩
    | returned => simp [Pool.tracked, hshutdown, Shutdown.rest] at hs
    | _ => simp [hshutdown, Shutdown.hasMap] at hmap
  constructor
  case locked => simp [hmap]
  case mapped => exact fun hidle c hc s hs => mem_cons_of_mem _ (h.mapped hidle c hc s hs)
  case given =>
    intro c hc w hw
    rcases h.given c hc w hw with hstop | ⟨s, hs, hsw⟩ | hlater
    · exact .inl hstop
    · obtain ⟨hne, hmem⟩ := htracked s hs
      exact .inr (.inl ⟨s, hmem, by simpa [update_of_ne hne] using hsw⟩)
    · exact .inr (.inr hlater)
  case late =>
    intro hreturned e he w hw
    rcases mem_cons.mp he with rfl | hold
    · simp at hw
    · have hne : e.2 ≠ S.made := (hlocks.mapped e hold).ne
      exact h.late hreturned e hold w (by simpa [update_of_ne hne] using hw)
  case onTime => exact h.onTime

theorem enters [DecidableEq K] (hlocks : Locks S) (hk : S.calls[k]? = some c) (hc : c.stage = .entering)
    (hmap : S.shutdown.hasMap = false) : Reached (S.enter k c) := by
  unfold Pool.enter
  split
  · rename_i s hs
    refine h.goes hk (.looking s) rfl rfl rfl rfl rfl ?_ (by simp [Stage.retires?, hc])
      (by simp [Stage.checks?, hc]) (by simp [Stage.given?]) (by simp)
    intro s' hs'
    obtain rfl : s = s' := by simpa [Stage.opens?] using hs'
    exact .inr (S.mem_of_slotOf hs)
  · exact (h.makes hlocks c.key hmap).goes hk (.looking S.made) rfl rfl rfl rfl rfl
      (by simp [Stage.opens?]) (by simp [Stage.retires?, hc]) (by simp [Stage.checks?, hc])
      (by simp [Stage.given?]) (by simp)

theorem advances [DecidableEq K] (hlocks : Locks S) {ok : Bool} (hk : S.calls[k]? = some c)
    (hstep : S.advance k c ok = some S') : Reached S' := by
  have hmem := mem_of_getElem? hk
  unfold Pool.advance at hstep
  split at hstep
  case h_1 hc =>
    split at hstep <;> cases hstep
    rename_i hmap
    exact h.enters hlocks hk hc (by simpa using hmap)
  case h_2 s hc =>
    cases hstep
    exact h.looks hk (by simp [Stage.opens?, hc]) (by simp [Stage.retires?, hc])
      (by simp [Stage.checks?, hc]) rfl rfl (by simp)
  case h_3 s hc =>
    split at hstep <;> cases hstep
    exact h.goes hk (.relooking s) rfl rfl rfl rfl rfl (by simp [Stage.opens?, hc])
      (by simp [Stage.retires?, hc]) (by simp [Stage.checks?, hc]) rfl (by simp)
  case h_4 s hc =>
    cases hstep
    exact h.looks hk (by simp [Stage.opens?, hc]) (by simp [Stage.retires?, hc])
      (by simp [Stage.checks?, hc]) rfl rfl (by simp)
  case h_5 s hc =>
    cases hstep
    exact h.replaces hk hc
  case h_6 s w hc =>
    cases hstep
    exact h.turns hk (.initializing s) rfl rfl rfl rfl (by simp [Stage.opens?, hc]) (fun _ => S.stopped_stop w)
      (by simpa [Stage.retires?, hc] using .inl (S.stop_stopped w)) (by simp [Stage.given?])
      (by simp [Stage.checks?, hc]) (by simp)
  case h_7 s hc =>
    split at hstep <;> cases hstep
    · exact h.publishes hlocks hk hc
    · exact h.restores hk rfl (by simp [Stage.checks?, hc]) (by simp [Stage.retires?, hc]) rfl
        (by simp)
  case h_8 s w hc =>
    split at hstep <;> cases hstep
    · exact h.turns hk (.ending s w) rfl rfl rfl rfl (by simp [Stage.opens?]) (fun _ => S.stopped_close w)
        (by simp [Stage.retires?, hc]) (by simp [Stage.given?]) (by simp [Stage.checks?, hc])
        (by simp)
    · rename_i hcancelled
      have hidle : S.shutdown = .idle := by simpa [Pool.isCancelled] using hcancelled
      refine h.turns hk (.returned w _) rfl rfl rfl rfl (by simp [Stage.opens?]) (fun _ => id)
        (by simp [Stage.retires?, hc]) ?_ ?_ (by simpa using hcancelled)
      · intro w' hw'
        have hgiven : w' ∈ c.stage.given? S.isCancelled := by
          simpa [Stage.given?, hc, hcancelled] using hw'
        exact ⟨h.given c hmem w' hgiven, by simp [Stage.retires?, hc]⟩
      · intro w' _
        exact .inr (.inr (by simp [hidle]))
  case h_9 s w hc =>
    cases hstep
    exact h.turns hk .failed rfl rfl rfl rfl (by simp [Stage.opens?]) (fun _ => S.stopped_stop w)
      (by simp [Stage.retires?, hc]) (by simp [Stage.given?])
      (by simpa [Stage.checks?, hc] using .inl (S.stop_stopped w)) (by simp)
  case h_10 w hc =>
    cases hstep
    exact h.turns hk .released rfl rfl rfl rfl (by simp [Stage.opens?]) (fun _ => S.stopped_stop w)
      (by simpa [Stage.retires?, hc] using .inl (S.stop_stopped w)) (by simp [Stage.given?])
      (by simp [Stage.checks?, hc]) (by simp)
  all_goals cases hstep

theorem drops [DecidableEq K] (hk : S.calls[k]? = some c) (hkeeps : (Event.drops k).givesUpNone S = true)
    (hstep : S.drop k c = some S') : Reached S' := by
  obtain ⟨key, stage⟩ := c
  unfold Pool.drop at hstep
  split at hstep
  · cases hstep
  rename_i hawaits
  cases stage with
  | retiring s w =>
    cases hstep
    refine h.restores hk rfl rfl ?_ rfl (by simp)
    simpa [Event.givesUpNone, hk, Stage.retires?] using hkeeps
  | initializing s =>
    cases hstep
    exact h.restores hk rfl rfl (by simp [Stage.retires?]) rfl (by simp)
  | ending s w =>
    cases hstep
    refine h.turns hk .dropped rfl rfl rfl rfl (by simp [Stage.opens?]) (fun _ => id)
      (by simp [Stage.retires?]) (by simp [Stage.given?]) ?_ (by simp)
    intro w' hw'
    obtain rfl : w = w' := by simpa [Stage.checks?] using hw'
    simp only [Event.givesUpNone, hk, Bool.or_eq_true, decide_eq_true_eq] at hkeeps
    rcases hkeeps with (hstop | hbefore) | hapart
    · exact .inr (.inl hstop)
    · exact .inr (.inr (fun hreturned => absurd hreturned hbefore))
    · exact .inr (.inr (fun _ => by simpa using hapart))
  | shutting w =>
    cases hstep
    refine h.turns hk .dropped rfl rfl rfl rfl (by simp [Stage.opens?]) (fun _ => id) ?_
      (by simp [Stage.given?]) (by simp [Stage.checks?]) (by simp)
    intro w' hw'
    obtain rfl : w = w' := by simpa [Stage.retires?] using hw'
    exact .inr (by simpa [Event.givesUpNone, hk, Pool.turn] using hkeeps)
  | _ =>
    first
    | (simp [Stage.running, Stage.ended] at hawaits; done)
    | cases hstep
      exact h.goes hk .dropped rfl rfl rfl rfl rfl (by simp [Stage.opens?]) rfl rfl rfl (by simp)

theorem refuses [DecidableEq K] {late : Bool} (hk : S.calls[k]? = some c) (hc : c.stage = .returned w late)
    (hmap : S.shutdown.hasMap = false) (hkeeps : (Event.refuses k).givesUpNone S = true) :
    Reached (S.refuse k c w) := by
  have htaken : S.shutdown ≠ .returned → ∀ e ∈ S.map, e.1 = c.key →
      (∀ w', S.occupancy e.2 = .worker w' → w' = w ∨ (S.workers w').stopped = true) ∧
        ∀ c' ∈ S.calls, e.2 ∉ c'.stage.opens? := by
    obtain ⟨key, stage⟩ := c
    subst hc
    intro hbefore e he hkey
    simp only [Event.givesUpNone, hk, hbefore, decide_false, Bool.false_or, all_eq_true,
      Bool.or_eq_true, Bool.and_eq_true, decide_eq_true_eq] at hkeeps
    obtain ⟨hruns, hopens⟩ := (hkeeps e he).resolve_left (not_not.mpr hkey)
    refine ⟨?_, hopens⟩
    intro w' hw'
    simpa [Pool.runsOnly, hw'] using hruns
  have hturned : Reached ((S.close w).turn k c (.shutting w)) :=
    h.turns hk (.shutting w) rfl rfl rfl rfl (by simp [Stage.opens?])
      (fun _ => S.stopped_close w) (by simp [Stage.retires?, hc]) (by simp [Stage.given?])
      (by simp [Stage.checks?, hc]) (by simp)
  constructor
  case locked => simp [Pool.refuse, Pool.turn, Pool.close, hmap]
  case mapped =>
    intro hidle c' hc' s hs
    refine mem_filter.mpr ⟨hturned.mapped hidle c' hc' s hs, ?_⟩
    simp only [ne_eq, decide_eq_true_eq]
    intro hkey
    rcases mem_or_eq_of_mem_set hc' with hold | rfl
    · have hbefore : S.shutdown ≠ .returned := by
        intro hreturned
        simp [Pool.refuse, Pool.turn, Pool.close, hreturned] at hidle
      exact (htaken hbefore _ (hturned.mapped hidle c' hc' s hs) hkey).2 c' hold hs
    · simp [Stage.opens?] at hs
  case given =>
    intro c' hc' w' hw'
    rcases hturned.given c' hc' w' hw' with hstop | ⟨s, hs, hsw⟩ | hlater
    · exact .inl hstop
    · cases hshutdown : S.shutdown with
      | idle | cancelled =>
        have hbefore : S.shutdown ≠ .returned := by simp [hshutdown]
        simp only [Pool.tracked, Pool.turn, Pool.close, hshutdown] at hs
        obtain ⟨e, he, rfl⟩ := mem_map.mp hs
        by_cases hkey : e.1 = c.key
        · rcases (htaken hbefore e he hkey).1 w' hsw with rfl | hstop
          · refine .inr (.inr (.inr ⟨{ c with stage := .shutting w' }, ?_, rfl⟩))
            exact mem_set (List.getElem?_eq_some_iff.mp hk).1 _
          · exact .inl (S.stopped_close w hstop)
        · refine .inr (.inl ⟨e.2, ?_, hsw⟩)
          simp only [Pool.tracked, Pool.refuse, Pool.turn, Pool.close, hshutdown]
          exact mem_map_of_mem (mem_filter.mpr ⟨he, by simpa using hkey⟩)
      | returned => simp [Pool.tracked, Pool.turn, Pool.close, hshutdown, Shutdown.rest] at hs
      | _ => simp [hshutdown, Shutdown.hasMap] at hmap
    · exact .inr (.inr hlater)
  case late => exact fun hreturned e he => hturned.late hreturned e (mem_of_mem_filter he)
  case onTime => exact hturned.onTime

theorem stays (hcalls : S'.calls = S.calls) (hshutdown : S'.shutdown = S.shutdown) (hmap : S'.map = S.map)
    (hoccupancy : S'.occupancy = S.occupancy)
    (hstopped : ∀ w, (S.workers w).stopped = true → (S'.workers w).stopped = true) : Reached S' where
  locked := by rw [hshutdown, hmap]; exact h.locked
  mapped := by rw [hshutdown, hcalls, hmap]; exact h.mapped
  given := by
    have htracked : S'.tracked = S.tracked := by simp [Pool.tracked, hshutdown, hmap]
    have hcancelled : S'.isCancelled = S.isCancelled := by simp [Pool.isCancelled, hshutdown]
    rw [hcalls, hcancelled]
    intro c hc w hw
    unfold Pool.Found
    rw [htracked, hoccupancy, hshutdown, hcalls]
    exact (h.given c hc w hw).imp_left (hstopped w)
  late := by
    rw [hshutdown, hmap, hoccupancy, hcalls]
    exact fun hreturned e he w hw => (h.late hreturned e he w hw).imp_left (hstopped w)
  onTime := by rw [hcalls]; exact h.onTime

theorem begins (c : Call K) (hopens : c.stage.opens? = none)
    (hgiven : c.stage.given? S.isCancelled = none) (honTime : ∀ w, c.stage ≠ .returned w true) :
    Reached { S with calls := S.calls ++ [c] } := by
  have hall : ∀ p : Call K → Prop, (∀ c' ∈ S.calls, p c') → p c → ∀ c' ∈ S.calls ++ [c], p c' := by
    intro p hold hnew c' hc'
    rcases mem_append.mp hc' with hmem | hmem
    · exact hold c' hmem
    · exact mem_singleton.mp hmem ▸ hnew
  constructor
  case locked => exact h.locked
  case mapped => exact fun hidle => hall _ (h.mapped hidle) (by simp [hopens])
  case given =>
    refine hall _ ?_ (by simp [Pool.isCancelled] at hgiven ⊢; simp [hgiven])
    intro c' hc' w hw
    rcases h.given c' hc' w hw with hstop | htracked | hstopping | ⟨c'', hc'', hretire⟩
    · exact .inl hstop
    · exact .inr (.inl htracked)
    · exact .inr (.inr (.inl hstopping))
    · exact .inr (.inr (.inr ⟨c'', mem_append_left _ hc'', hretire⟩))
  case late =>
    intro hreturned e he w hw
    rcases h.late hreturned e he w hw with hstop | ⟨c', hc', hcheck⟩
    · exact .inl hstop
    · exact .inr ⟨c', mem_append_left _ hc', hcheck⟩
  case onTime => exact hall _ h.onTime honTime

theorem follows (hcalls : S'.calls = S.calls) (hoccupancy : S'.occupancy = S.occupancy)
    (hstopped : ∀ w, (S.workers w).stopped = true → (S'.workers w).stopped = true)
    (hcancelled : S'.shutdown ≠ .idle) (htracked : ∀ s ∈ S.tracked, ∀ w, S.occupancy s = .worker w →
      s ∈ S'.tracked ∨ S'.shutdown.worker? = some w)
    (hstopping : ∀ w, S.shutdown.worker? = some w → (S'.workers w).stopped = true)
    (hmap : S'.shutdown ≠ .cancelled → S'.map = []) : Reached S' where
  locked := by
    intro hhas
    apply hmap
    rintro hshutdown
    simp [hshutdown, Shutdown.hasMap] at hhas
  mapped := fun hidle => absurd hidle hcancelled
  given := by
    rw [hcalls]
    intro c hc w hw
    have hbefore : w ∈ c.stage.given? S.isCancelled := by
      have hnow : S'.isCancelled = true := by simpa [Pool.isCancelled] using hcancelled
      cases hstage : c.stage <;> simp_all [Stage.given?]
    rcases h.given c hc w hbefore with hstop | ⟨s, hs, hsw⟩ | hat | ⟨c', hc', hretire⟩
    · exact .inl (hstopped w hstop)
    · rcases htracked s hs w hsw with hstill | hat
      · exact .inr (.inl ⟨s, hstill, by rw [hoccupancy, hsw]⟩)
      · exact .inr (.inr (.inl hat))
    · exact .inl (hstopping w hat)
    · exact .inr (.inr (.inr ⟨c', by rw [hcalls]; exact hc', hretire⟩))
  late := by
    intro hreturned
    rw [hmap (by simp [hreturned])]
    simp
  onTime := by rw [hcalls]; exact h.onTime

theorem shutsDown {i : ℕ} (hstep : S.shutDown i = some S') : Reached S' := by
  unfold Pool.shutDown at hstep
  split at hstep
  case h_1 hshutdown | h_2 hshutdown =>
    cases hstep
    refine h.follows rfl rfl (fun _ => id) (by simp) ?_ (by simp [hshutdown, Shutdown.worker?])
      (by simp)
    intro s hs w _
    simp only [Pool.tracked, hshutdown] at hs
    exact .inl hs
  case h_3 hshutdown =>
    cases hstep
    exact h.follows rfl rfl (fun _ => id) (by simp)
      (by simp [Pool.tracked, hshutdown, Shutdown.rest])
      (by simp [hshutdown, Shutdown.worker?])
      (fun _ => h.locked (by simp [hshutdown, Shutdown.hasMap]))
  case h_4 rest hrest hshutdown =>
    have hmap : S.map = [] := h.locked (by simp [hshutdown, Shutdown.hasMap])
    obtain ⟨s, hs, hS'⟩ := Option.map_eq_some_iff.mp hstep
    -- the others of the rest stay in it
    have hothers : ∀ s' ∈ rest, s' = s ∨ s' ∈ rest.eraseIdx i := by
      intro s' hs'
      obtain ⟨j, hj⟩ := mem_iff_getElem?.mp hs'
      by_cases hji : j = i
      · subst hji
        rw [hs] at hj
        cases hj
        exact .inl rfl
      · exact .inr (mem_eraseIdx_iff_getElem?.mpr ⟨j, hji, hj⟩)
    split at hS'
    · rename_i w hw
      subst hS'
      refine h.follows rfl rfl (fun _ => S.stopped_close w) (by simp) ?_
        (by simp [hshutdown, Shutdown.worker?]) (fun _ => hmap)
      intro s' hs' w' hw'
      simp only [Pool.tracked, hshutdown, Shutdown.rest] at hs'
      rcases hothers s' hs' with rfl | hstill
      · rw [hw] at hw'
        cases hw'
        exact .inr rfl
      · exact .inl hstill
    all_goals
      subst hS'
      refine h.follows rfl rfl (fun _ => id) (by simp) ?_ (by simp [hshutdown, Shutdown.worker?])
        (fun _ => hmap)
      intro s' hs' w' hw'
      simp only [Pool.tracked, hshutdown, Shutdown.rest] at hs'
      rcases hothers s' hs' with rfl | hstill
      · simp_all
      · exact .inl hstill
  case h_5 w rest hshutdown =>
    cases hstep
    refine h.follows rfl rfl (fun _ => S.stopped_stop w) (by simp) ?_ ?_
      (fun _ => h.locked (by simp [hshutdown, Shutdown.hasMap]))
    · intro s hs w' _
      simp only [Pool.tracked, hshutdown, Shutdown.rest] at hs
      exact .inl hs
    · intro w' hw'
      simp only [hshutdown, Shutdown.worker?, Option.some.injEq] at hw'
      rw [hw']
      exact S.stop_stopped w'
  case h_6 => cases hstep

theorem move [DecidableEq K] (hlocks : Locks S)
    (hkeeps : e.givesUpNone S = true) (hstep : S.move e = some S') : Reached S' := by
  cases e with
  | calls key =>
    cases hstep
    exact h.begins _ rfl rfl (by simp)
  | advances k ok =>
    obtain ⟨c, hk, hadvance⟩ := Option.bind_eq_some_iff.mp hstep
    exact h.advances hlocks hk hadvance
  | drops k =>
    obtain ⟨c, hk, hdrop⟩ := Option.bind_eq_some_iff.mp hstep
    exact h.drops hk hkeeps hdrop
  | releases k =>
    obtain ⟨c, hk, hrelease⟩ := Option.bind_eq_some_iff.mp hstep
    split at hrelease <;> cases hrelease
    rename_i w late hc
    exact h.goes hk .released rfl rfl rfl rfl rfl (by simp [Stage.opens?])
      (by simp [Stage.retires?, hc]) (by simp [Stage.checks?, hc]) rfl (by simp)
  | retires k =>
    obtain ⟨c, hk, hretire⟩ := Option.bind_eq_some_iff.mp hstep
    split at hretire <;> cases hretire
    rename_i w late hc
    have hclosed : Reached (S.close w) := h.stays rfl rfl rfl rfl (fun _ => S.stopped_close w)
    exact hclosed.begins _ rfl rfl (by simp)
  | refuses k =>
    obtain ⟨c, hk, hrefuse⟩ := Option.bind_eq_some_iff.mp hstep
    split at hrefuse
    · split at hrefuse <;> cases hrefuse
      rename_i w late hc hmap
      exact h.refuses hk hc (by simpa using hmap) hkeeps
    · cases hrefuse
  | closes w =>
    simp only [Pool.move] at hstep
    split at hstep <;> cases hstep
    exact h.stays rfl rfl rfl rfl (fun _ => S.stopped_close w)
  | dies w =>
    simp only [Pool.move] at hstep
    split at hstep <;> cases hstep
    exact h.stays rfl rfl rfl rfl (fun _ => S.stopped_stop w)
  | shutsDown i => exact h.shutsDown hstep

theorem step [DecidableEq K] (hlocks : Locks S)
    (hkeeps : e.givesUpNone S = true) (hstep : S.step e = some S') : Reached S' := by
  obtain ⟨M, hM, rfl⟩ := Pool.step_eq_some hstep
  refine (h.move hlocks hkeeps hM).stays rfl rfl rfl rfl ?_
  intro w hw
  simp only [Pool.reap]
  split
  · rfl
  · exact hw

end

theorem new : Reached (Pool.new : Pool K) := by
  constructor <;> simp [Pool.new]

end Reached

def Pool.Swept (S : Pool K) : Prop :=
  ∀ w < S.published, (S.workers w).stopped = true ∨ S.keepsWorker w = true

theorem Pool.swept_step [DecidableEq K] {S S' : Pool K} (hstep : S.step e = some S') : S'.Swept := by
  obtain ⟨M, -, rfl⟩ := Pool.step_eq_some hstep
  intro w hw
  by_cases hkept : M.keepsWorker w = true
  · exact .inr hkept
  · have hlt : w < M.published := hw
    simp [Pool.reap, hlt, hkept]

/-- Once the shutdown returned and the calls ended, every published worker was stopped, and none was returned
  after the cancellation. -/
def Pool.Reaped (S : Pool K) : Prop :=
  S.shutdown = .returned → (∀ c ∈ S.calls, c.stage.ended = true) →
    (∀ w < S.published, (S.workers w).stopped = true) ∧
      ∀ c ∈ S.calls, ∀ w, c.stage ≠ .returned w true

theorem Reached.reaped {S : Pool K} (h : Reached S) (hswept : S.Swept) : S.Reaped := by
  intro hreturned hended
  refine ⟨?_, h.onTime⟩
  intro w hw
  rcases hswept w hw with hstop | hkept
  · exact hstop
  have hslots : ∀ c ∈ S.calls, c.stage.slot? = none ∧ c.stage.checks? = none ∧
      c.stage.retires? = none := by
    intro c hc
    have := hended c hc
    cases hstage : c.stage <;> simp_all [Stage.ended, Stage.slot?, Stage.checks?, Stage.retires?]
  simp only [Pool.keepsWorker, Bool.or_eq_true, any_eq_true, Bool.and_eq_true,
    decide_eq_true_eq] at hkept
  rcases hkept with (⟨s, -, hslot, hsw⟩ | hstopping) | ⟨c, hc, hcw⟩
  · -- the map keeps it
    simp only [Pool.keepsSlot, hreturned, Shutdown.rest, Bool.or_eq_true, any_eq_true,
      decide_eq_true_eq, not_mem_nil, or_false] at hslot
    rcases hslot with ⟨e, he, rfl⟩ | ⟨c, hc, hcs⟩
    · rcases h.late hreturned e he w hsw with hstop | ⟨c, hc, hcheck⟩
      · exact hstop
      · simp [(hslots c hc).2.1] at hcheck
    · simp [(hslots c hc).1] at hcs
  · simp [hreturned, Shutdown.worker?] at hstopping
  · -- a caller has it
    have hgiven : w ∈ c.stage.given? S.isCancelled := by
      have := hended c hc
      cases hstage : c.stage <;> simp_all [Stage.ended, Stage.worker?, Stage.given?]
    rcases h.given c hc w hgiven with hstop | ⟨s, hs, -⟩ | hstopping | ⟨c', hc', hretire⟩
    · exact hstop
    · simp [Pool.tracked, hreturned, Shutdown.rest] at hs
    · simp [hreturned, Shutdown.worker?] at hstopping
    · simp [(hslots c' hc').2.2] at hretire

def Pool.Empties (S S' : Pool K) : Prop :=
  ∀ (k s : ℕ) (c c' : Call K), S.calls[k]? = some c → s ∈ c.stage.transits? →
    S'.calls[k]? = some c' → c'.stage = .failed ∨ c'.stage = .dropped → S'.occupancy s = .empty

structure Pool.Orderly (S : Pool K) : Prop where
  initializesOnce : S.InitializesOnce
  replacesClosed : S.ReplacesClosed
  retryable : S.Retryable
  reaped : S.Reaped

/-- In a run without second initializers, in which nobody gives up a worker somebody was to come to,
  there is one worker a key, a failed transition empties its slot, and no worker outlives shutdown. -/
theorem orderly_always [DecidableEq K] (events : List (Event K))
    (halong : Runs.Along Pool.step
      (fun S e => (e.opensOne S && e.givesUpNone S) = true) Pool.new events) :
    Runs.Always Pool.step (fun S : Pool K => S.Orderly ∧
      ∀ e S', S.step e = some S' → S.Empties S') Pool.new events := by
  have hkept : Runs.Always Pool.step
      (fun S : Pool K => Locks S ∧ Apart S ∧ Reached S ∧ S.Swept) Pool.new events := by
    refine Runs.always_of_along ?_
      ⟨Locks.new, Apart.new, Reached.new, by simp [Pool.Swept, Pool.new]⟩ halong
    rintro S e S' ⟨hlocks, happart, hreached, _⟩ hkeeps hstep
    obtain ⟨hopens, hgives⟩ := Bool.and_eq_true_iff.mp hkeeps
    exact ⟨hlocks.step hstep, happart.step hopens hstep, hreached.step hlocks hgives hstep,
      Pool.swept_step hstep⟩
  apply hkept.mono
  rintro S ⟨hlocks, happart, hreached, hswept⟩
  refine ⟨⟨initializesOnce hlocks happart, hlocks.replacesClosed, hlocks.retryable,
    hreached.reaped hswept⟩, ?_⟩
  intro e S' hstep k s c c' hk hs hk' hleft
  exact hlocks.empties hstep hk hs hk' hleft

def toInitializer (k : ℕ) (key : K) : List (Event K) :=
  .calls key :: List.replicate 5 (.advances k true)

def drains (slots : ℕ) : List (Event K) :=
  List.replicate (slots + 3) (.shutsDown 0)

/-- One initializer fails and one is dropped; a third call publishes a worker, a fourth is given it, and the
  shutdown stops it. -/
def failedDroppedAndUsed : List (Event Unit) :=
  [toInitializer 0 (), [.advances 0 false], toInitializer 1 (), [.drops 1], toInitializer 2 (),
    List.replicate 2 (.advances 2 true), [.calls ()], List.replicate 3 (.advances 3 true),
    List.replicate 5 (.shutsDown 0)].flatten

theorem orderly_always_used_and_shut_down : (Runs.run Pool.step Pool.new failedDroppedAndUsed).isSome = true ∧
    Runs.Always Pool.step (fun S : Pool Unit => S.Orderly ∧ ∀ e S', S.step e = some S' → S.Empties S') Pool.new
      failedDroppedAndUsed :=
  ⟨rfl, orderly_always _ (by decide +kernel)⟩

/-- A call initializes in a slot drained meanwhile; or one that enters after the drain is dropped while it
  shuts its worker down. -/
theorem second_initializer_and_worker_left : (∃ S : Pool Unit, Runs.run Pool.step Pool.new
        [toInitializer 0 (), drains 1, toInitializer 1 ()].flatten = some S ∧ ¬S.InitializesOnce) ∧
    ∃ S : Pool Unit, Runs.run Pool.step Pool.new
        [drains 0, toInitializer 0 (), List.replicate 2 (.advances 0 true), [.drops 0]].flatten =
          some S ∧ ¬S.Reaped := by
  refine ⟨⟨_, rfl, ?_⟩, ⟨_, rfl, ?_⟩⟩
  · intro h
    exact absurd (h 0 1 _ _ 0 1 rfl rfl rfl rfl rfl) (by decide)
  · intro h
    have hstopped := (h rfl (by decide)).1 0 (by decide)
    exact absurd hstopped (by decide)

end Batchalign.GpuSlots
