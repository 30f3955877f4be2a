import Batchalign.Lib.Crew
import Batchalign.GpuSlots.Pool

/- One initializer. A slot is `Transitioning` exactly while one call retires or initializes there
   (`Locks`). For one key that gives one initializer as long as the calls share a slot (`Apart`); a
   drain or a refused report can take it from the map under them. -/
namespace Batchalign.GpuSlots
open List
open Option (bind_eq_some_iff)

variable {K : Type}

def Stage.opens? : Stage → Option ℕ
  | .looking s | .queued s | .relooking s | .replacing s | .retiring s _ | .initializing s =>
      some s
  | _ => none

def Stage.transits? : Stage → Option ℕ
  | .retiring s _ | .initializing s => some s
  | _ => none

variable {k s : ℕ} {S S' : Pool K} {e : Event K} {c : Call K}

theorem Stage.locks_of_transits {stage : Stage} (h : s ∈ stage.transits?) : s ∈ stage.locks? := by
  cases stage <;> simp_all [transits?, locks?]

/-- A call that makes a slot for its key finds no call that may still initialize another. -/
def Event.opensOne [DecidableEq K] (S : Pool K) : Event K → Bool
  | .advances k _ =>
      match S.calls[k]? with
      | some ⟨key, .entering⟩ =>
          (S.slotOf key).isSome || S.calls.all (fun c => c.stage.opens? = none || c.key ≠ key)
      | _ => true
  | _ => true

structure Locks (S : Pool K) : Prop where
  slots : ∀ c ∈ S.calls, ∀ s ∈ c.stage.slot?, s < S.made
  mapped : ∀ e ∈ S.map, e.2 < S.made
  one : ∀ (j k : ℕ) (c c' : Call K) (s : ℕ), S.calls[j]? = some c → S.calls[k]? = some c' →
    s ∈ c.stage.locks? → s ∈ c'.stage.locks? → j = k
  transition : ∀ s, S.occupancy s = .transitioning ↔ ∃ c ∈ S.calls, s ∈ c.stage.transits?

structure Apart (S : Pool K) : Prop where
  distinct : (S.map.map Prod.fst).Nodup
  one : ∀ c ∈ S.calls, ∀ c' ∈ S.calls, c.key = c'.key →
    ∀ s ∈ c.stage.opens?, ∀ s' ∈ c'.stage.opens?, s = s'
  mapped : ∀ c ∈ S.calls, ∀ s ∈ c.stage.opens?, ∀ e ∈ S.map, e.1 = c.key → e.2 = s

/-! The map. -/

theorem Pool.mem_of_slotOf [DecidableEq K] {key : K} (h : S.slotOf key = some s) : (key, s) ∈ S.map := by
  obtain ⟨e, he, rfl⟩ := Option.map_eq_some_iff.mp h
  have hkey : e.1 = key := by simpa using find?_some he
  subst hkey
  exact mem_of_find?_eq_some he

theorem Pool.ne_of_slotOf_none [DecidableEq K] {key : K}
    (h : S.slotOf key = none) : ∀ e ∈ S.map, e.1 ≠ key := by
  intro e he
  have hnone := find?_eq_none.mp (Option.map_eq_none_iff.mp h) e he
  simpa using hnone

theorem Pool.restore_occupancy (S : Pool K) (s s' : ℕ) : (S.restore s).occupancy s' =
      if s' = s ∧ S.occupancy s = .transitioning then .empty else S.occupancy s' := by
  unfold Pool.restore Pool.occupy
  by_cases hs : S.occupancy s = .transitioning <;> by_cases hs' : s' = s <;>
    simp [hs, hs', Function.update]

theorem Pool.restore_rest (S : Pool K) (s : ℕ) :
    (S.restore s).calls = S.calls ∧ (S.restore s).made = S.made ∧ (S.restore s).map = S.map ∧
      (S.restore s).workers = S.workers ∧ (S.restore s).shutdown = S.shutdown ∧
      (S.restore s).published = S.published := by
  unfold Pool.restore
  split <;> simp [Pool.occupy]

theorem Pool.step_eq_some [DecidableEq K] (h : S.step e = some S') : ∃ M, S.move e = some M ∧ S' = M.reap := by
  obtain ⟨M, hM, hS'⟩ := Option.map_eq_some_iff.mp h
  exact ⟨M, hM, hS'.symm⟩

/-! What a call has when it goes on. -/

theorem getElem?_set_cases {calls : List (Call K)} {j : ℕ} {c' : Call K}
    (h : (calls.set k c)[j]? = some c') : (j = k ∧ c' = c) ∨ (j ≠ k ∧ calls[j]? = some c') := by
  by_cases hj : k = j
  · subst hj
    rw [getElem?_set_self'] at h
    cases hk : calls[k]? <;> simp_all
  · rw [getElem?_set_ne hj] at h
    exact .inr ⟨Ne.symm hj, h⟩

namespace Locks

variable {S S' : Pool K} {c : Call K} {k s : ℕ}

section
variable (h : Locks S)
include h

section
variable (hk : S.calls[k]? = some c)
include hk

theorem turn
    (stage : Stage) (hcalls : S'.calls = S.calls.set k { c with stage := stage })
    (hmade : S'.made = S.made) (hmap : ∀ e ∈ S'.map, e ∈ S.map)
    (hslot : ∀ s ∈ stage.slot?, s ∈ c.stage.slot? ∨ s < S.made)
    (hlock : ∀ s ∈ stage.locks?, s ∈ c.stage.locks? ∨ S.locked s = false)
    (htransition : ∀ s, S'.occupancy s = .transitioning ↔
      s ∈ stage.transits? ∨ (S.occupancy s = .transitioning ∧ s ∉ c.stage.transits?)) :
    Locks S' where
  slots := by
    rw [hcalls, hmade]
    apply Crew.forall_set h.slots
    intro s hs
    rcases hslot s hs with hold | hnew
    · exact h.slots c (mem_of_getElem? hk) s hold
    · exact hnew
  mapped := by
    rw [hmade]
    exact fun e he => h.mapped e (hmap e he)
  one := by
    rw [hcalls]
    -- whoever else has the transition the call takes is the call itself
    have hother : ∀ (j : ℕ) (c' : Call K) (s : ℕ), S.calls[j]? = some c' → s ∈ stage.locks? →
        s ∈ c'.stage.locks? → j = k := by
      intro j c' s hj hs hs'
      rcases hlock s hs with hheld | hfree
      · exact h.one j k c' c s hj hk hs' hheld
      · have := any_eq_false.mp hfree c' (mem_of_getElem? hj)
        simp_all
    intro i j ci cj s hi hj hsi hsj
    rcases getElem?_set_cases hi with ⟨rfl, rfl⟩ | ⟨-, hi'⟩ <;>
      rcases getElem?_set_cases hj with ⟨rfl, rfl⟩ | ⟨-, hj'⟩
    · rfl
    · exact (hother j cj s hj' hsi hsj).symm
    · exact hother i ci s hi' hsj hsi
    · exact h.one i j ci cj s hi' hj' hsi hsj
  transition := by
    intro s
    rw [htransition, hcalls]
    constructor
    · rintro (hnew | ⟨hold, hleft⟩)
      · refine ⟨{ c with stage := stage }, ?_, hnew⟩
        exact mem_set (List.getElem?_eq_some_iff.mp hk).1 _
      · obtain ⟨c', hc', hs⟩ := (h.transition s).mp hold
        rcases Crew.mem_set_of_mem { c with stage := stage } hk hc' with rfl | hmem
        · exact absurd hs hleft
        · exact ⟨c', hmem, hs⟩
    · rintro ⟨c', hc', hs⟩
      obtain ⟨j, hj⟩ := mem_iff_getElem?.mp hc'
      rcases getElem?_set_cases hj with ⟨rfl, rfl⟩ | ⟨hjk, hj⟩
      · exact .inl hs
      · right
        refine ⟨(h.transition s).mpr ⟨c', mem_of_getElem? hj, hs⟩, fun hc => hjk ?_⟩
        exact h.one j k c' c s hj hk (Stage.locks_of_transits hs) (Stage.locks_of_transits hc)

theorem turns
    (stage : Stage) (hcalls : S'.calls = S.calls.set k { c with stage := stage })
    (hmade : S'.made = S.made) (hmap : ∀ e ∈ S'.map, e ∈ S.map)
    (hoccupancy : S'.occupancy = S.occupancy)
    (hslot : ∀ s ∈ stage.slot?, s ∈ c.stage.slot? ∨ s < S.made)
    (hlock : ∀ s ∈ stage.locks?, s ∈ c.stage.locks? ∨ S.locked s = false)
    (htransits : stage.transits? = c.stage.transits?) : Locks S' := by
  apply h.turn hk stage hcalls hmade hmap hslot hlock
  intro s
  rw [hoccupancy, htransits]
  constructor
  · intro hs
    by_cases hc : s ∈ c.stage.transits?
    · exact .inl hc
    · exact .inr ⟨hs, hc⟩
  · rintro (hc | ⟨hs, -⟩)
    · exact (h.transition s).mpr ⟨c, mem_of_getElem? hk, hc⟩
    · exact hs

theorem restores (hs : c.stage.transits? = some s) {stage : Stage} (hslot : stage.slot? = none)
    (hlock : stage.locks? = none) (htransits : stage.transits? = none) :
    Locks ((S.restore s).turn k c stage) := by
  obtain ⟨hcalls, hmade, hmap, -⟩ := S.restore_rest s
  have htransition : S.occupancy s = .transitioning :=
    (h.transition s).mpr ⟨c, mem_of_getElem? hk, hs⟩
  refine h.turn hk stage (by simp [Pool.turn, hcalls]) hmade (by simp [Pool.turn, hmap])
    (by simp [hslot]) (by simp [hlock]) ?_
  intro s'
  by_cases hs' : s' = s
  · subst hs'
    simp [Pool.turn, S.restore_occupancy, htransition, htransits, hs]
  · have : s ≠ s' := Ne.symm hs'
    simp [Pool.turn, S.restore_occupancy, hs', htransits, hs, this]

theorem makes (hc : c.stage.transits? = none)
    (hcalls : S'.calls = S.calls.set k { c with stage := .looking S.made })
    (hmade : S'.made = S.made + 1) (hmap : S'.map = (c.key, S.made) :: S.map)
    (hoccupancy : S'.occupancy = Function.update S.occupancy S.made .empty) : Locks S' where
  slots := by
    rw [hcalls, hmade]
    apply Crew.forall_set
    · exact fun c' hc' s hs => Nat.lt_succ_of_lt (h.slots c' hc' s hs)
    · simp [Stage.slot?]
  mapped := by
    rw [hmade, hmap]
    intro e he
    rcases mem_cons.mp he with rfl | hold
    · exact Nat.lt_succ_self _
    · exact Nat.lt_succ_of_lt (h.mapped e hold)
  one := by
    rw [hcalls]
    intro i j ci cj s hi hj hsi hsj
    rcases getElem?_set_cases hi with ⟨rfl, rfl⟩ | ⟨-, hi'⟩
    · simp [Stage.locks?] at hsi
    · rcases getElem?_set_cases hj with ⟨rfl, rfl⟩ | ⟨-, hj'⟩
      · simp [Stage.locks?] at hsj
      · exact h.one i j ci cj s hi' hj' hsi hsj
  transition := by
    have hslot : ∀ c' ∈ S.calls, S.made ∉ c'.stage.transits? := by
      intro c' hc' hs
      have hslot : S.made ∈ c'.stage.slot? := by
        cases hstage : c'.stage <;> simp_all [Stage.transits?, Stage.slot?]
      exact absurd (h.slots c' hc' _ hslot) (lt_irrefl _)
    intro s
    rw [hoccupancy, hcalls]
    have hold : (∃ c' ∈ S.calls.set k { c with stage := .looking S.made }, s ∈ c'.stage.transits?) ↔
        ∃ c' ∈ S.calls, s ∈ c'.stage.transits? := by
      constructor
      · rintro ⟨c', hc', hs⟩
        rcases mem_or_eq_of_mem_set hc' with hmem | rfl
        · exact ⟨c', hmem, hs⟩
        · simp [Stage.transits?] at hs
      · rintro ⟨c', hc', hs⟩
        rcases Crew.mem_set_of_mem { c with stage := .looking S.made } hk hc' with rfl | hmem
        · simp [hc] at hs
        · exact ⟨c', hmem, hs⟩
    rw [hold, ← h.transition s]
    by_cases hs : s = S.made
    · subst hs
      simp only [Function.update_self, reduceCtorEq, false_iff]
      rw [h.transition]
      rintro ⟨c', hc', hs⟩
      exact hslot c' hc' hs
    · simp [Function.update_of_ne hs]

theorem replaces (hc : c.stage = .replacing s) : Locks (S.replace k c s) := by
  -- nobody else is in transition there, so only this slot is shown in one
  have hshown : ∀ (stage : Stage), stage.transits? = some s → ∀ s',
      Function.update S.occupancy s .transitioning s' = .transitioning ↔
        s' ∈ stage.transits? ∨ (S.occupancy s' = .transitioning ∧ s' ∉ c.stage.transits?) := by
    intro stage hstage s'
    by_cases hs' : s' = s
    · simp [hs', hstage]
    · have : s ≠ s' := Ne.symm hs'
      have hnone : c.stage.transits? = none := by simp [hc, Stage.transits?]
      simp [Function.update_of_ne hs', hstage, this, hnone]
  cases hw : S.occupancy s with
  | worker w =>
    simp only [Pool.replace, hw]
    exact h.turn hk (.retiring s w) rfl rfl (fun _ => id) (by simp [Stage.slot?, hc])
      (by simp [Stage.locks?, hc]) (hshown _ rfl)
  | _ =>
    simp only [Pool.replace, hw]
    exact h.turn hk (.initializing s) rfl rfl (fun _ => id) (by simp [Stage.slot?, hc])
      (by simp [Stage.locks?, hc]) (hshown _ rfl)

theorem publishes (hc : c.stage = .initializing s) :
    Locks ((S.publish s).turn k c (.checking s S.published)) := by
  refine h.turn hk (.checking s S.published) rfl rfl (fun _ => id) (by simp [Stage.slot?, hc])
    (by simp [Stage.locks?]) ?_
  intro s'
  by_cases hs' : s' = s
  · subst hs'
    simp [Pool.turn, Pool.publish, Pool.occupy, Stage.transits?, hc]
  · have : s ≠ s' := Ne.symm hs'
    simp [Pool.turn, Pool.publish, Pool.occupy, Function.update_of_ne hs', Stage.transits?, hc,
      this]

theorem enters [DecidableEq K] (hc : c.stage = .entering) : Locks (S.enter k c) := by
  unfold Pool.enter
  split
  · rename_i s hs
    have hmade : s < S.made := h.mapped _ (S.mem_of_slotOf hs)
    exact h.turns hk (.looking s) rfl rfl (fun _ => id) rfl (by simp [Stage.slot?, hmade])
      (by simp [Stage.locks?]) (by simp [Stage.transits?, hc])
  · exact h.makes hk (by simp [hc, Stage.transits?]) rfl rfl rfl rfl

theorem advances [DecidableEq K] {ok : Bool} (hstep : S.advance k c ok = some S') : Locks S' := by
  unfold Pool.advance at hstep
  split at hstep
  case h_1 hc =>
    split at hstep <;> cases hstep
    exact h.enters hk hc
  case h_2 s hc =>
    cases hstep
    split <;>
      exact h.turns hk _ rfl rfl (fun _ => id) rfl (by simp [Stage.slot?, hc])
        (by simp [Stage.locks?]) (by simp [Stage.transits?, hc])
  case h_3 s hc =>
    split at hstep <;> cases hstep
    rename_i hfree
    exact h.turns hk _ rfl rfl (fun _ => id) rfl (by simp [Stage.slot?, hc])
      (by simp [Stage.locks?, hfree]) (by simp [Stage.transits?, hc])
  case h_4 s hc =>
    cases hstep
    split <;>
      exact h.turns hk _ rfl rfl (fun _ => id) rfl (by simp [Stage.slot?, hc])
        (by simp [Stage.locks?, hc]) (by simp [Stage.transits?, hc])
  case h_5 s hc =>
    cases hstep
    exact h.replaces hk hc
  case h_6 s w hc =>
    cases hstep
    exact h.turns hk (.initializing s) rfl rfl (fun _ => id) rfl (by simp [Stage.slot?, hc])
      (by simp [Stage.locks?, hc]) (by simp [Stage.transits?, hc])
  case h_7 s hc =>
    split at hstep <;> cases hstep
    · exact h.publishes hk hc
    · exact h.restores hk (by rw [hc]; rfl) rfl rfl rfl
  case h_8 s w hc =>
    split at hstep <;> cases hstep
    · exact h.turns hk (.ending s w) rfl rfl (fun _ => id) rfl (by simp [Stage.slot?, hc])
        (by simp [Stage.locks?]) (by simp [Stage.transits?, hc])
    · exact h.turns hk (.returned w _) rfl rfl (fun _ => id) rfl (by simp [Stage.slot?])
        (by simp [Stage.locks?]) (by simp [Stage.transits?, hc])
  case h_9 s w hc =>
    cases hstep
    exact h.turns hk .failed rfl rfl (fun _ => id) rfl (by simp [Stage.slot?])
      (by simp [Stage.locks?]) (by simp [Stage.transits?, hc])
  case h_10 w hc =>
    cases hstep
    exact h.turns hk .released rfl rfl (fun _ => id) rfl (by simp [Stage.slot?])
      (by simp [Stage.locks?]) (by simp [Stage.transits?, hc])
  all_goals cases hstep

end

theorem begins (hc : c.stage.slot? = none)
    (hlocks : c.stage.locks? = none) (htransits : c.stage.transits? = none)
    (hcalls : S'.calls = S.calls ++ [c]) (hmade : S'.made = S.made) (hmap : S'.map = S.map)
    (hoccupancy : S'.occupancy = S.occupancy) : Locks S' where
  slots := by
    rw [hcalls, hmade]
    intro c' hc'
    rcases mem_append.mp hc' with hold | hnew
    · exact h.slots c' hold
    · obtain rfl := mem_singleton.mp hnew
      simp [hc]
  mapped := by
    rw [hmade, hmap]
    exact h.mapped
  one := by
    -- the call that begins has no transition, so both calls are old
    have hold : ∀ (j : ℕ) (c' : Call K) (s : ℕ), S'.calls[j]? = some c' → s ∈ c'.stage.locks? →
        S.calls[j]? = some c' := by
      intro j c' s hj hs
      rw [hcalls] at hj
      by_cases hlt : j < S.calls.length
      · rwa [getElem?_append_left hlt] at hj
      · rw [getElem?_append_right (not_lt.mp hlt), getElem?_singleton] at hj
        split at hj <;> cases hj
        simp [hlocks] at hs
    intro i j ci cj s hi hj hsi hsj
    exact h.one i j ci cj s (hold i ci s hi hsi) (hold j cj s hj hsj) hsi hsj
  transition := by
    intro s
    rw [hoccupancy, hcalls, h.transition]
    simp [or_and_right, exists_or, htransits]

theorem stays (hcalls : S'.calls = S.calls) (hmade : S'.made = S.made) (hmap : ∀ e ∈ S'.map, e ∈ S.map)
    (hoccupancy : S'.occupancy = S.occupancy) : Locks S' where
  slots := by rw [hcalls, hmade]; exact h.slots
  mapped := by rw [hmade]; exact fun e he => h.mapped e (hmap e he)
  one := by rw [hcalls]; exact h.one
  transition := by rw [hoccupancy, hcalls]; exact h.transition

theorem drops (hk : S.calls[k]? = some c) (hstep : S.drop k c = some S') : Locks S' := by
  unfold Pool.drop at hstep
  split at hstep
  · cases hstep
  · cases hstage : c.stage with
    | retiring s w =>
      simp only [hstage] at hstep
      cases hstep
      exact h.restores hk (by rw [hstage]; rfl) rfl rfl rfl
    | initializing s =>
      simp only [hstage] at hstep
      cases hstep
      exact h.restores hk (by rw [hstage]; rfl) rfl rfl rfl
    | _ =>
      simp only [hstage] at hstep
      cases hstep
      exact h.turns hk .dropped rfl rfl (fun _ => id) rfl (by simp [Stage.slot?])
        (by simp [Stage.locks?]) (by simp [Stage.transits?, hstage])

theorem shutsDown {i : ℕ} (hstep : S.shutDown i = some S') : Locks S' := by
  unfold Pool.shutDown at hstep
  split at hstep
  case h_4 rest hrest hshutdown =>
    obtain ⟨s, -, hS'⟩ := Option.map_eq_some_iff.mp hstep
    split at hS' <;> subst hS' <;> exact h.stays rfl rfl (fun _ => id) rfl
  case h_2 => cases hstep; exact h.stays rfl rfl (by simp) rfl
  all_goals cases hstep <;> exact h.stays rfl rfl (fun _ => id) rfl

theorem move [DecidableEq K] {e : Event K} (hstep : S.move e = some S') : Locks S' := by
  cases e with
  | calls key =>
    cases hstep
    exact h.begins rfl rfl rfl rfl rfl rfl rfl
  | advances k ok =>
    obtain ⟨c, hk, hadvance⟩ := bind_eq_some_iff.mp hstep
    exact h.advances hk hadvance
  | drops k =>
    obtain ⟨c, hk, hdrop⟩ := bind_eq_some_iff.mp hstep
    exact h.drops hk hdrop
  | releases k =>
    obtain ⟨c, hk, hrelease⟩ := bind_eq_some_iff.mp hstep
    split at hrelease <;> cases hrelease
    rename_i w late hc
    exact h.turns hk .released rfl rfl (fun _ => id) rfl (by simp [Stage.slot?])
      (by simp [Stage.locks?]) (by simp [Stage.transits?, hc])
  | retires k =>
    obtain ⟨c, hk, hretire⟩ := bind_eq_some_iff.mp hstep
    split at hretire <;> cases hretire
    exact h.begins rfl rfl rfl rfl rfl rfl rfl
  | refuses k =>
    obtain ⟨c, hk, hrefuse⟩ := bind_eq_some_iff.mp hstep
    split at hrefuse
    · split at hrefuse <;> cases hrefuse
      rename_i w late hc hfree
      exact h.turns hk (.shutting w) rfl rfl (fun _ he => mem_of_mem_filter he) rfl
        (by simp [Stage.slot?]) (by simp [Stage.locks?]) (by simp [Stage.transits?, hc])
    · cases hrefuse
  | closes w =>
    simp only [Pool.move] at hstep
    split at hstep <;> cases hstep
    exact h.stays rfl rfl (fun _ => id) rfl
  | dies w =>
    simp only [Pool.move] at hstep
    split at hstep <;> cases hstep
    exact h.stays rfl rfl (fun _ => id) rfl
  | shutsDown i => exact h.shutsDown hstep

theorem step [DecidableEq K] {e : Event K} (hstep : S.step e = some S') : Locks S' := by
  obtain ⟨M, hM, rfl⟩ := Pool.step_eq_some hstep
  exact (h.move hM).stays rfl rfl (fun _ => id) rfl

end

theorem new : Locks (Pool.new : Pool K) := by
  constructor <;> simp [Pool.new]

end Locks

namespace Apart

variable {S S' : Pool K} {c : Call K} {k : ℕ}

section
variable (h : Apart S)
include h

theorem turn (hk : S.calls[k]? = some c)
    (stage : Stage) (hcalls : S'.calls = S.calls.set k { c with stage := stage })
    (hmap : S'.map.Sublist S.map) (hopens : ∀ s ∈ stage.opens?, s ∈ c.stage.opens?) :
    Apart S' := by
  have hc := mem_of_getElem? hk
  -- whoever may initialize now might before
  have hold : ∀ c' ∈ S'.calls, ∀ s ∈ c'.stage.opens?,
      ∃ c'' ∈ S.calls, c''.key = c'.key ∧ s ∈ c''.stage.opens? := by
    rw [hcalls]
    exact Crew.forall_set (fun c' hc' s hs => ⟨c', hc', rfl, hs⟩)
      (fun s hs => ⟨c, hc, rfl, hopens s hs⟩)
  constructor
  case distinct => exact h.distinct.sublist (hmap.map _)
  case one =>
    intro c₁ hc₁ c₂ hc₂ hkey s hs s' hs'
    obtain ⟨c₁', hc₁', hkey₁, hs⟩ := hold c₁ hc₁ s hs
    obtain ⟨c₂', hc₂', hkey₂, hs'⟩ := hold c₂ hc₂ s' hs'
    exact h.one c₁' hc₁' c₂' hc₂' (by rw [hkey₁, hkey₂, hkey]) s hs s' hs'
  case mapped =>
    intro c₁ hc₁ s hs e he hkey
    obtain ⟨c₁', hc₁', hkey₁, hs⟩ := hold c₁ hc₁ s hs
    exact h.mapped c₁' hc₁' s hs e (hmap.subset he) (by rw [hkey₁, hkey])

theorem begins (hc : c.stage.opens? = none)
    (hcalls : S'.calls = S.calls ++ [c]) (hmap : S'.map = S.map) : Apart S' := by
  have hold : ∀ c' ∈ S'.calls, ∀ s ∈ c'.stage.opens?, c' ∈ S.calls := by
    rw [hcalls]
    intro c' hc' s hs
    rcases mem_append.mp hc' with hold | hnew
    · exact hold
    · obtain rfl := mem_singleton.mp hnew
      simp [hc] at hs
  constructor
  case distinct => rw [hmap]; exact h.distinct
  case one =>
    intro c₁ hc₁ c₂ hc₂ hkey s hs s' hs'
    exact h.one c₁ (hold c₁ hc₁ s hs) c₂ (hold c₂ hc₂ s' hs') hkey s hs s' hs'
  case mapped =>
    rw [hmap]
    exact fun c₁ hc₁ s hs => h.mapped c₁ (hold c₁ hc₁ s hs) s hs

theorem stays (hcalls : S'.calls = S.calls) (hmap : S'.map.Sublist S.map) : Apart S' where
  distinct := h.distinct.sublist (hmap.map _)
  one := by rw [hcalls]; exact h.one
  mapped := by
    rw [hcalls]
    exact fun c hc s hs e he => h.mapped c hc s hs e (hmap.subset he)

theorem enters [DecidableEq K] (hk : S.calls[k]? = some c) (hc : c.stage = .entering)
    (hopens : (Event.advances k true).opensOne S = true) : Apart (S.enter k c) := by
  unfold Pool.enter
  split
  · rename_i s hs
    have hmem := S.mem_of_slotOf hs
    -- those that may initialize for the key have the map's slot
    have hsame : ∀ c' ∈ S.calls, c.key = c'.key → ∀ s' ∈ c'.stage.opens?, s = s' :=
      fun c' hc' hkey s' hs' => h.mapped c' hc' s' hs' _ hmem hkey
    constructor
    case distinct => exact h.distinct
    case one =>
      intro c₁ hc₁ c₂ hc₂ hkey s₁ hs₁ s₂ hs₂
      rcases mem_or_eq_of_mem_set hc₁ with hc₁ | rfl <;>
        rcases mem_or_eq_of_mem_set hc₂ with hc₂ | rfl
      · exact h.one c₁ hc₁ c₂ hc₂ hkey s₁ hs₁ s₂ hs₂
      · obtain rfl : s = s₂ := by simpa [Stage.opens?] using hs₂
        exact (hsame c₁ hc₁ hkey.symm s₁ hs₁).symm
      · obtain rfl : s = s₁ := by simpa [Stage.opens?] using hs₁
        exact hsame c₂ hc₂ hkey s₂ hs₂
      · simp_all
    case mapped =>
      apply Crew.forall_set h.mapped
      intro s' hs' e he hkey
      obtain rfl : s = s' := by simpa [Stage.opens?] using hs'
      have := inj_on_of_nodup_map h.distinct he hmem hkey
      rw [this]
  · rename_i hs
    have hnone := S.ne_of_slotOf_none hs
    have hopens' : ∀ c' ∈ S.calls, c'.key = c.key → c'.stage.opens? = none := by
      obtain ⟨key, stage⟩ := c
      subst hc
      simp only [Event.opensOne, hk, hs, Option.isSome_none, Bool.false_or, all_eq_true,
        Bool.or_eq_true, decide_eq_true_eq] at hopens
      intro c' hc' hkey
      exact (hopens c' hc').resolve_right (not_not.mpr hkey)
    have hnew : ∀ c' ∈ S.calls, c'.key = c.key → ∀ s ∈ c'.stage.opens?, False := by
      intro c' hc' hkey s hs
      simp [hopens' c' hc' hkey] at hs
    constructor
    case distinct =>
      simp only [map_cons, nodup_cons]
      refine ⟨?_, h.distinct⟩
      intro hmem
      obtain ⟨e, he, hkey⟩ := mem_map.mp hmem
      exact hnone e he hkey
    case one =>
      intro c₁ hc₁ c₂ hc₂ hkey s₁ hs₁ s₂ hs₂
      rcases mem_or_eq_of_mem_set hc₁ with hc₁ | rfl <;>
        rcases mem_or_eq_of_mem_set hc₂ with hc₂ | rfl
      · exact h.one c₁ hc₁ c₂ hc₂ hkey s₁ hs₁ s₂ hs₂
      · exact (hnew c₁ hc₁ hkey s₁ hs₁).elim
      · exact (hnew c₂ hc₂ hkey.symm s₂ hs₂).elim
      · simp_all
    case mapped =>
      apply Crew.forall_set
      · intro c' hc' s hs e he hkey
        rcases mem_cons.mp he with rfl | hold
        · exact (hnew c' hc' hkey.symm s hs).elim
        · exact h.mapped c' hc' s hs e hold hkey
      · intro s hs e he hkey
        rcases mem_cons.mp he with rfl | hold
        · simpa [Stage.opens?] using hs
        · exact absurd hkey (hnone e hold)

theorem advances [DecidableEq K] {ok : Bool}
    (hk : S.calls[k]? = some c) (hopens : (Event.advances k ok).opensOne S = true)
    (hstep : S.advance k c ok = some S') : Apart S' := by
  unfold Pool.advance at hstep
  split at hstep
  case h_1 hc =>
    split at hstep <;> cases hstep
    exact h.enters hk hc hopens
  case h_2 s hc =>
    cases hstep
    split <;> exact h.turn hk _ rfl (Sublist.refl _) (by simp [Stage.opens?, hc])
  case h_3 s hc =>
    split at hstep <;> cases hstep
    exact h.turn hk _ rfl (Sublist.refl _) (by simp [Stage.opens?, hc])
  case h_4 s hc =>
    cases hstep
    split <;> exact h.turn hk _ rfl (Sublist.refl _) (by simp [Stage.opens?, hc])
  case h_5 s hc =>
    cases hstep
    unfold Pool.replace
    split <;> exact h.turn hk _ rfl (Sublist.refl _) (by simp [Stage.opens?, hc])
  case h_6 s w hc =>
    cases hstep
    exact h.turn hk (.initializing s) rfl (Sublist.refl _) (by simp [Stage.opens?, hc])
  case h_7 s hc =>
    obtain ⟨hcalls, -, hmap, -⟩ := S.restore_rest s
    split at hstep <;> cases hstep
    · exact h.turn hk (.checking s _) rfl (Sublist.refl _) (by simp [Stage.opens?])
    · exact h.turn hk .failed (by simp [Pool.turn, hcalls]) (by simp [Pool.turn, hmap])
        (by simp [Stage.opens?])
  case h_8 s w hc =>
    split at hstep <;> cases hstep
    · exact h.turn hk (.ending s w) rfl (Sublist.refl _) (by simp [Stage.opens?])
    · exact h.turn hk (.returned w _) rfl (Sublist.refl _) (by simp [Stage.opens?])
  case h_9 s w hc =>
    cases hstep
    exact h.turn hk .failed rfl (Sublist.refl _) (by simp [Stage.opens?])
  case h_10 w hc =>
    cases hstep
    exact h.turn hk .released rfl (Sublist.refl _) (by simp [Stage.opens?])
  all_goals cases hstep

theorem drops (hk : S.calls[k]? = some c) (hstep : S.drop k c = some S') : Apart S' := by
  unfold Pool.drop at hstep
  split at hstep
  · cases hstep
  · cases hstage : c.stage with
    | retiring s _ | initializing s =>
      simp only [hstage] at hstep
      cases hstep
      obtain ⟨hcalls, -, hmap, -⟩ := S.restore_rest s
      exact h.turn hk .dropped (by simp [Pool.turn, hcalls]) (by simp [Pool.turn, hmap])
        (by simp [Stage.opens?])
    | _ =>
      simp only [hstage] at hstep
      cases hstep
      exact h.turn hk .dropped rfl (Sublist.refl _) (by simp [Stage.opens?])

theorem shutsDown {i : ℕ} (hstep : S.shutDown i = some S') : Apart S' := by
  unfold Pool.shutDown at hstep
  split at hstep
  case h_4 rest hrest hshutdown =>
    obtain ⟨s, -, hS'⟩ := Option.map_eq_some_iff.mp hstep
    split at hS' <;> subst hS' <;> exact h.stays rfl (Sublist.refl _)
  case h_2 => cases hstep; exact h.stays rfl (nil_sublist _)
  all_goals cases hstep <;> exact h.stays rfl (Sublist.refl _)

theorem move [DecidableEq K] {e : Event K}
    (hopens : e.opensOne S = true) (hstep : S.move e = some S') : Apart S' := by
  cases e with
  | calls key =>
    cases hstep
    exact h.begins rfl rfl rfl
  | advances k ok =>
    obtain ⟨c, hk, hadvance⟩ := bind_eq_some_iff.mp hstep
    exact h.advances hk hopens hadvance
  | drops k =>
    obtain ⟨c, hk, hdrop⟩ := bind_eq_some_iff.mp hstep
    exact h.drops hk hdrop
  | releases k =>
    obtain ⟨c, hk, hrelease⟩ := bind_eq_some_iff.mp hstep
    split at hrelease <;> cases hrelease
    exact h.turn hk .released rfl (Sublist.refl _) (by simp [Stage.opens?])
  | retires k =>
    obtain ⟨c, hk, hretire⟩ := bind_eq_some_iff.mp hstep
    split at hretire <;> cases hretire
    exact h.begins rfl rfl rfl
  | refuses k =>
    obtain ⟨c, hk, hrefuse⟩ := bind_eq_some_iff.mp hstep
    split at hrefuse
    · split at hrefuse <;> cases hrefuse
      rename_i w late hc hfree
      exact h.turn hk (.shutting w) rfl filter_sublist (by simp [Stage.opens?])
    · cases hrefuse
  | closes w =>
    simp only [Pool.move] at hstep
    split at hstep <;> cases hstep
    exact h.stays rfl (Sublist.refl _)
  | dies w =>
    simp only [Pool.move] at hstep
    split at hstep <;> cases hstep
    exact h.stays rfl (Sublist.refl _)
  | shutsDown i => exact h.shutsDown hstep

theorem step [DecidableEq K] {e : Event K}
    (hopens : e.opensOne S = true) (hstep : S.step e = some S') : Apart S' := by
  obtain ⟨M, hM, rfl⟩ := Pool.step_eq_some hstep
  exact (h.move hopens hM).stays rfl (Sublist.refl _)

end

theorem new : Apart (Pool.new : Pool K) := by
  constructor <;> simp [Pool.new]

end Apart

/-! What the two give. -/

def Pool.InitializesOnce (S : Pool K) : Prop :=
  ∀ (j k : ℕ) (c c' : Call K) (s s' : ℕ), S.calls[j]? = some c → S.calls[k]? = some c' →
    c.stage = .initializing s → c'.stage = .initializing s' → c.key = c'.key → j = k

def Pool.ReplacesClosed (S : Pool K) : Prop :=
  ∀ c ∈ S.calls, ∀ s w, c.stage = .initializing s → S.occupancy s = .worker w →
    (S.workers w).accepts = false

/-- A slot is `Transitioning` only while a call is in transition there. -/
def Pool.Retryable (S : Pool K) : Prop :=
  ∀ s, S.occupancy s = .transitioning → ∃ c ∈ S.calls, s ∈ c.stage.transits?

theorem initializesOnce (hlocks : Locks S) (happart : Apart S) : S.InitializesOnce := by
  intro j k c c' s s' hj hk hs hs' hkey
  have hsame : s = s' :=
    happart.one c (mem_of_getElem? hj) c' (mem_of_getElem? hk) hkey s
      (by simp [hs, Stage.opens?]) s' (by simp [hs', Stage.opens?])
  subst hsame
  exact hlocks.one j k c c' s hj hk (by simp [hs, Stage.locks?]) (by simp [hs', Stage.locks?])

theorem Locks.replacesClosed (h : Locks S) : S.ReplacesClosed := by
  intro c hc s w hs hw
  have htransition := (h.transition s).mpr ⟨c, hc, by simp [hs, Stage.transits?]⟩
  rw [hw] at htransition
  cases htransition

theorem Locks.retryable (h : Locks S) : S.Retryable :=
  fun s hs => (h.transition s).mp hs

def Event.call? : Event K → Option ℕ
  | .advances k _ | .drops k | .releases k | .refuses k => some k
  | _ => none

theorem Pool.advance_calls [DecidableEq K] {ok : Bool} (h : S.advance k c ok = some S') :
    ∃ stage, S'.calls = S.calls.set k { c with stage := stage } := by
  unfold Pool.advance at h
  split at h
  case h_1 =>
    split at h <;> cases h
    unfold Pool.enter
    split <;> exact ⟨_, rfl⟩
  case h_3 => split at h <;> cases h; exact ⟨_, rfl⟩
  case h_5 =>
    cases h
    unfold Pool.replace
    split <;> exact ⟨_, rfl⟩
  case h_7 s hc =>
    split at h <;> cases h
    · exact ⟨_, rfl⟩
    · exact ⟨_, by rw [Pool.turn, (S.restore_rest s).1]⟩
  case h_8 => split at h <;> cases h <;> exact ⟨_, rfl⟩
  all_goals cases h <;> exact ⟨_, rfl⟩

theorem Pool.move_calls_of_ne [DecidableEq K] (hstep : S.move e = some S') (hk : S.calls[k]? = some c) (he : e.call? ≠ some k) :
    S'.calls[k]? = some c := by
  have hset : ∀ (j : ℕ) (c' : Call K), j ≠ k → (S.calls.set j c')[k]? = some c := by
    intro j c' hj
    rw [getElem?_set_ne hj, hk]
  have hmore : ∀ c', (S.calls ++ [c'])[k]? = some c := by
    intro c'
    rw [getElem?_append_left (List.getElem?_eq_some_iff.mp hk).1, hk]
  cases e with
  | calls key =>
    cases hstep
    exact hmore _
  | advances j ok =>
    obtain ⟨cj, -, hadvance⟩ := bind_eq_some_iff.mp hstep
    obtain ⟨stage, hcalls⟩ := Pool.advance_calls hadvance
    rw [hcalls]
    exact hset j _ (by simpa [Event.call?] using he)
  | drops j =>
    obtain ⟨cj, -, hdrop⟩ := bind_eq_some_iff.mp hstep
    have hj : j ≠ k := by simpa [Event.call?] using he
    unfold Pool.drop at hdrop
    split at hdrop
    · cases hdrop
    · split at hdrop <;> cases hdrop <;>
        simpa [Pool.turn, (S.restore_rest _).1] using hset j _ hj
  | releases j =>
    obtain ⟨cj, -, hrelease⟩ := bind_eq_some_iff.mp hstep
    split at hrelease <;> cases hrelease
    exact hset j _ (by simpa [Event.call?] using he)
  | retires j =>
    obtain ⟨cj, -, hretire⟩ := bind_eq_some_iff.mp hstep
    split at hretire <;> cases hretire
    exact hmore _
  | refuses j =>
    obtain ⟨cj, -, hrefuse⟩ := bind_eq_some_iff.mp hstep
    split at hrefuse
    · split at hrefuse <;> cases hrefuse
      exact hset j _ (by simpa [Event.call?] using he)
    · cases hrefuse
  | closes w | dies w =>
    simp only [Pool.move] at hstep
    split at hstep <;> cases hstep
    exact hk
  | shutsDown i =>
    simp only [Pool.move, Pool.shutDown] at hstep
    split at hstep
    case h_4 rest hrest hshutdown =>
      obtain ⟨s, -, hS'⟩ := Option.map_eq_some_iff.mp hstep
      split at hS' <;> subst hS' <;> exact hk
    all_goals cases hstep <;> exact hk

theorem Locks.empties [DecidableEq K] (h : Locks S) (hstep : S.step e = some S') {c' : Call K} (hk : S.calls[k]? = some c)
    (hs : s ∈ c.stage.transits?) (hk' : S'.calls[k]? = some c')
    (hleft : c'.stage = .failed ∨ c'.stage = .dropped) : S'.occupancy s = .empty := by
  obtain ⟨M, hM, rfl⟩ := Pool.step_eq_some hstep
  replace hk' : M.calls[k]? = some c' := hk'
  have htransition : S.occupancy s = .transitioning :=
    (h.transition s).mpr ⟨c, mem_of_getElem? hk, hs⟩
  have hempty : (S.restore s).occupancy s = .empty := by
    simp [S.restore_occupancy, htransition]
  have hturned : ∀ (T : Pool K) (stage : Stage), T.calls = S.calls.set k { c with stage := stage } →
      T.calls[k]? = some c' → c'.stage = stage := by
    intro T stage hcalls hT
    rw [hcalls, getElem?_set_self (List.getElem?_eq_some_iff.mp hk).1] at hT
    cases hT
    rfl
  by_cases he : e.call? = some k
  swap
  · have := Pool.move_calls_of_ne hM hk he
    rw [this] at hk'
    cases hk'
    rcases hleft with hleft | hleft <;> simp [hleft, Stage.transits?] at hs
  cases e with
  | advances j ok =>
    obtain rfl : j = k := by simpa [Event.call?] using he
    simp only [Pool.move, hk, Option.bind_some] at hM
    unfold Pool.advance at hM
    split at hM <;> rename_i hc <;> simp [hc, Stage.transits?] at hs
    · cases hM
      have := hturned _ _ rfl hk'
      simp [this] at hleft
    · subst hs
      split at hM <;> cases hM
      · have := hturned _ _ rfl hk'
        simp [this] at hleft
      · exact hempty
  | drops j =>
    obtain rfl : j = k := by simpa [Event.call?] using he
    simp only [Pool.move, hk, Option.bind_some] at hM
    unfold Pool.drop at hM
    split at hM
    · cases hM
    · split at hM <;> rename_i hc
      · cases hM
        simp [hc, Stage.transits?] at hs
        exact hs ▸ hempty
      · cases hM
        simp [hc, Stage.transits?] at hs
        exact hs ▸ hempty
      · cases hstage : c.stage <;> simp_all [Stage.transits?]
  | releases j =>
    obtain rfl : j = k := by simpa [Event.call?] using he
    simp only [Pool.move, hk, Option.bind_some] at hM
    split at hM <;> cases hM
    rename_i hc
    simp [hc, Stage.transits?] at hs
  | refuses j =>
    obtain rfl : j = k := by simpa [Event.call?] using he
    simp only [Pool.move, hk, Option.bind_some] at hM
    split at hM
    · rename_i hc
      simp [hc, Stage.transits?] at hs
    · cases hM
  | _ => simp [Event.call?] at he

end Batchalign.GpuSlots
