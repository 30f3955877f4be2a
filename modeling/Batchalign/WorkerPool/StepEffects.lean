import Batchalign.WorkerPool.Effects

/- The effect of every step is that of `Accounts`, except for a spawn that leaves its claim behind and a
   sampled retirement dropped before its worker is retired (`keepsSlot`). -/
namespace Batchalign.WorkerPool

variable {K : Type*}

def Point.abandons : Point K → Bool
  | .spawn _ _ _ .locking | .spawn _ _ _ .starting | .spawn _ _ _ (.probing _) => true
  | .retire (.leaving _ _) => true
  | _ => false

def Point.configured (config : PoolConfig K) : Point K → Bool
  | .spawn key _ _ .configuring => config.workerConfig key
  | _ => true

/-- The step neither refuses a claimed spawn nor drops an operation with a slot to settle. -/
def Operation.keepsSlot (config : PoolConfig K) (op : Operation K) (o : Outcome) : Bool :=
  match op.todo with
  | _ :: _ => true
  | [] => op.point.configured config && !(o == .dropped && op.point.abandons)

theorem WorkerGroup.queued_pop_idle {x : WorkerGroup} {worker : WorkerPid} {idle : List WorkerPid}
    (h : x.idle = worker :: idle) : WorkerGroup.queued { x with idle := idle } + 1 = x.queued := by
  simp only [WorkerGroup.queued, h, List.length_cons]
  omega

theorem WorkerGroup.queued_pop_tcp {x : WorkerGroup} {worker : WorkerPid} {tcp : List WorkerPid}
    (h : x.tcpWorkers = worker :: tcp) :
    WorkerGroup.queued { x with tcpWorkers := tcp } + 1 = x.queued := by
  simp only [WorkerGroup.queued, h, List.length_cons]
  omega

variable {o : Outcome} {op' : Operation K} {pool pool' : Pool K} {config : PoolConfig K}

theorem GuardPoint.step_effect {point : GuardPoint} (h : point.step pool o = some (pool', op')) :
    Effect pool pool' ⟨[], .guard point⟩ op' := by
  unfold GuardPoint.step at h
  split at h <;> cases h
  case h_1 | h_4 | h_5 => exact .ofNothing (by simp) (by simp) (.of_forall (by simp))
  case h_2 | h_3 | h_6 => exact .ofNothing (by simp) (by simp) (Operation.covered_retireAway _ _)

theorem CheckoutPoint.step_effect [DecidableEq K] {point : CheckoutPoint K}
    (hwell : pool.WellFormed) (hknown : Operation.Known pool ⟨[], .checkout point⟩)
    (h : point.step pool o = some (pool', op')) : Effect pool pool' ⟨[], .checkout point⟩ op' := by
  unfold CheckoutPoint.step at h
  split at h
  case h_1 key => cases h; exact .ofGetOrCreate hwell key (by simp) (by simp)
  case h_2 | h_7 =>
    split at h <;> cases h
    · exact .ofGroup 0 0 hknown (by simp) rfl (by simp) (by simp) (by simp) (.of_forall (by simp))
    · exact .ofNothing (by simp) (by simp) (.of_forall (by simp))
  case h_3 | h_12 =>
    split at h <;> cases h
    next worker idle hidle =>
      have hqueued := WorkerGroup.queued_pop_idle hidle
      exact .ofGroup 1 0 hknown (by simp) hqueued (by simp) (by simp) (by simp)
        (.of_forall (by simp))
    · exact .ofNothing (by simp) (by simp) (.of_forall (by simp))
  case h_8 key g victim =>
    split at h <;> cases h
    next worker idle hidle =>
      have hqueued := WorkerGroup.queued_pop_idle hidle
      exact .ofGroup 1 0 hknown (by simp) hqueued (by simp) (by simp) (by simp)
        (Operation.covered_evicted _ _)
    · exact .ofNothing (by simp) (by simp) (.of_forall (by simp))
  case h_11 =>
    split at h <;> cases h
    exact .ofGroup 0 0 hknown (by simp) rfl (by simp) (by simp) (by simp) (.of_forall (by simp))
  case h_4 | h_5 =>
    split at h <;> cases h
    all_goals exact .ofNothing (by simp) (by simp) (.of_forall (by simp))
  case h_6 | h_9 | h_10 => cases h; exact .ofNothing (by simp) (by simp) (.of_forall (by simp))
  case h_13 => cases h

theorem SpawnStage.step_effect {key : K}
    {g : GroupId} {caller : Caller} {stage : SpawnStage} (hknown : Operation.Known pool ⟨[], .spawn key g caller stage⟩)
    (hconfig : (Point.spawn key g caller stage).configured config = true)
    (h : stage.step config pool key g caller o = some (pool', op')) :
    Effect pool pool' ⟨[], .spawn key g caller stage⟩ op' := by
  unfold SpawnStage.step at h
  split at h
  case h_3 =>
    split at h <;> cases h
    next hpermits =>
      refine .ofPermits _ ?_ (by simp) (.of_forall (by simp))
      simp
      omega
    · cases caller <;> exact .ofNothing (by simp) (by simp) (.of_forall (by simp))
  case h_4 =>
    split at h <;> cases h
    · cases caller <;> exact .ofNothing (by simp) (by simp) (.of_forall (by simp))
    · exact .ofGroup 0 1 hknown (by simp) rfl (by simp) (by simp) (by simp) (.of_forall (by simp))
  case h_5 =>
    split at h <;> cases h
    exact .ofGroup 0 0 hknown (by simp) rfl (by simp) (by simp) (by simp) (.of_forall (by simp))
  case h_6 =>
    split at h <;> cases h
    · exact .ofNothing (by simp) (by simp) (.of_forall (by simp))
    next hrefused => exact absurd hconfig hrefused
  case h_2 | h_7 | h_12 =>
    cases h
    cases caller <;> exact .ofNothing (by simp) (by simp) (.of_forall (by simp))
  case h_1 | h_8 => cases h; exact .ofNothing (by simp) (by simp) (.of_forall (by simp))
  case h_9 | h_10 | h_11 =>
    cases h
    exact .ofNothing (by simp) (by simp) (Operation.covered_releaseSpawn _ _)
  case h_13 => cases h

theorem TcpPoint.step_effect [DecidableEq K] {point : TcpPoint K}
    (hknown : Operation.Known pool ⟨[], .tcp point⟩)
    (h : point.step pool o = some (pool', op')) : Effect pool pool' ⟨[], .tcp point⟩ op' := by
  unfold TcpPoint.step at h
  split at h
  case h_1 => split at h <;> cases h <;> exact .ofNothing (by simp) (by simp) (.of_forall (by simp))
  case h_2 =>
    split at h <;> cases h
    · exact .ofGroup 0 0 hknown (by simp) rfl (by simp) (by simp) (by simp) (.of_forall (by simp))
    · exact .ofNothing (by simp) (by simp) (.of_forall (by simp))
  case h_3 =>
    split at h <;> cases h
    next worker tcp htcp =>
      have hqueued := WorkerGroup.queued_pop_tcp htcp
      exact .ofGroup 1 0 hknown (by simp) hqueued (by simp) (by simp) (by simp)
        (.of_forall (by simp))
    · exact .ofNothing (by simp) (by simp) (.of_forall (by simp))
  case h_4 => cases h

theorem RetirePoint.step_effect {point : RetirePoint} (hknown : Operation.Known pool ⟨[], .retire point⟩)
    (h : point.step pool o = some (pool', op')) : Effect pool pool' ⟨[], .retire point⟩ op' := by
  unfold RetirePoint.step at h
  split at h
  case h_1 => split at h <;> cases h; exact .ofNothing (by simp) (by simp) (.of_forall (by simp))
  case h_2 g worker =>
    split at h <;> cases h
    next hidle =>
      have hlength := List.length_erase_of_mem hidle
      have hpos := List.length_pos_of_mem hidle
      have hqueued : WorkerGroup.queued
          { pool.groups g with idle := (pool.groups g).idle.erase worker } + 1
            = (pool.groups g).queued := by
        simp only [WorkerGroup.queued]
        omega
      exact .ofGroup 1 0 hknown (by simp) hqueued (by simp) (by simp) (by simp)
        (.of_forall (by simp))
    · exact .ofNothing (by simp) (by simp) (.of_forall (by simp))
  case h_3 => cases h; exact .ofNothing (by simp) (by simp) (Operation.covered_retireAway _ _)
  case h_4 => cases h

theorem RoundPoint.step_effect {point : RoundPoint K} (hknown : Operation.Known pool ⟨[], .round point⟩)
    (h : point.step config pool o = some (pool', op')) : Effect pool pool' ⟨[], .round point⟩ op' := by
  unfold RoundPoint.step at h
  split at h
  case h_2 rest n =>
    split at h <;> cases h
    next key g hget =>
      have hmem : (key, g) ∈ rest := List.mem_of_getElem? hget
      exact .ofGroup (pool.groups g).idle.length 0 hknown (by simpa using ⟨key, hmem⟩)
        (by simp [WorkerGroup.queued, add_comm]) (by simp) (by simp) (by simp)
        (.of_forall (by simp))
  -- A worker that is checked is kept or removed, and in hand as before.
  case h_3 | h_4 =>
    cases h
    exact .ofNothing (by simp; omega) (by simp; grind) (.of_forall (by simp))
  case h_5 =>
    cases h
    exact .ofNothing (by simp) (by simp; grind) (Operation.covered_endCheck _ _ _ _)
  case h_7 =>
    split at h <;> cases h
    next hpermits =>
      refine .ofPermits _ ?_ (by simp) (.of_forall (by simp))
      simp
      omega
    · exact .ofNothing (by simp) (by simp) (.of_forall (by simp))
  case h_8 =>
    split at h <;> cases h
    exact .ofGroup 0 0 hknown (by simp) rfl (by simp) (by simp) (by simp) (.of_forall (by simp))
  case h_9 => split at h <;> cases h <;> exact .ofNothing (by simp) (by simp) (.of_forall (by simp))
  case h_13 => cases h; exact ⟨fun _ => rfl, rfl, trivial⟩
  case h_14 => cases h
  all_goals cases h; exact .ofNothing (by simp) (by simp) (.of_forall (by simp))

theorem PreScalePoint.step_effect [DecidableEq K] {point : PreScalePoint K} (hwell : pool.WellFormed)
    (h : point.step config pool o = some (pool', op')) : Effect pool pool' ⟨[], .preScale point⟩ op' := by
  unfold PreScalePoint.step at h
  split at h
  case h_1 | h_3 =>
    split at h <;> cases h
    all_goals exact .ofNothing (by simp) (by simp) (.of_forall (by simp))
  case h_2 key target => cases h; exact .ofGetOrCreate hwell key (by simp) (by simp)
  case h_4 => cases h

theorem AdoptPoint.step_effect [DecidableEq K] {point : AdoptPoint K} (hwell : pool.WellFormed)
    (h : point.step pool o = some (pool', op')) : Effect pool pool' ⟨[], .adopt point⟩ op' := by
  unfold AdoptPoint.step at h
  split at h
  case h_1 key worker => cases h; exact .ofGetOrCreate hwell key (by simp) (by simp)
  case h_2 g worker =>
    split at h <;> cases h
    next hpermits =>
      refine .ofPermits _ ?_ (by simp) (.of_forall (by simp))
      simp
      omega
    · exact .ofNothing (by simp) (by simp) (.of_forall (by simp))
  case h_3 => cases h

theorem Point.dropped_effect {point : Point K} {todo : List Access}
    (habandons : point.abandons = false) (h : point.dropped = some todo) :
    Effect pool pool ⟨[], point⟩ ⟨todo, .done⟩ := by
  unfold Point.dropped at h
  split at h
  case h_6 | h_7 | h_8 | h_10 => cases habandons
  case h_9 => cases h; exact .ofNothing (by simp) (by simp) (Operation.covered_retireAway _ _)
  case h_11 => cases h
  all_goals cases h; exact .ofNothing (by simp) (by simp) (.of_forall (by simp))

theorem Operation.next_effect [DecidableEq K] {op : Operation K} (hwell : pool.WellFormed) (hknown : op.Known pool)
    (hcovered : op.Covered) (hkeeps : op.keepsSlot config o = true)
    (h : op.next config pool o = some (pool', op')) : Effect pool pool' op op' := by
  obtain ⟨todo, point⟩ := op
  cases todo with
  | cons a todo =>
    cases h
    exact a.exec_effect hknown hcovered
  | nil =>
    obtain ⟨hconfig, habandons⟩ : point.configured config = true ∧
        (o = .dropped → point.abandons = false) := by
      simpa [keepsSlot, ← imp_iff_not_or] using hkeeps
    rcases point.next_cases h with ⟨todo, hdropped, htodo, rfl, rfl⟩ | h
    · exact point.dropped_effect (habandons hdropped) htodo
    · cases point with
      | checkout point => exact point.step_effect hwell hknown h
      | spawn key g caller stage => exact stage.step_effect hknown hconfig h
      | guard point => exact point.step_effect h
      | tcp point => exact point.step_effect hknown h
      | retire point => exact point.step_effect hknown h
      | round point => exact point.step_effect hknown h
      | preScale point => exact point.step_effect hwell h
      | adopt point => exact point.step_effect hwell h
      | done => cases h

end Batchalign.WorkerPool
