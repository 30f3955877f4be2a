import Batchalign.Lib.Runs
import Batchalign.WorkerPool.Registry

/- Workers and the map of groups. A round of health checks drops groups whose total is zero from the
   map; an operation may have such a group in hand, and a worker it then queues is out of reach.
   `staysMapped` excludes these steps. -/
namespace Batchalign.WorkerPool

variable {K : Type*}

def WorkerGroup.Bare (group : WorkerGroup) : Prop :=
  group.total = 0 ∧ group.idle = [] ∧ group.tcpWorkers = []

instance (group : WorkerGroup) : Decidable group.Bare :=
  inferInstanceAs (Decidable (_ ∧ _ ∧ _))

def NoneStranded [DecidableEq K] (S : System K) : Prop :=
  ∀ g, ¬(S.shared.groups g).Bare →
    ∃ key, S.shared.keys[g]? = some key ∧ S.shared.lookup key = some g

def Access.fills? : Access → Option GroupId
  | totalAdd g | pushIdle g (_ :: _) | pushTcp g _ => some g
  | totalSub g n => if UInt64.ofNat n = 0 then none else some g
  | _ => none

/-- Only a group of the map is counted or gets a worker, and one dropped from the map has none. -/
def Operation.staysMapped (config : PoolConfig K) (pool : Pool K) (op : Operation K)
    (o : Outcome) : Bool :=
  match op.todo, op.point, o with
  | a :: _, _, _ => a.fills?.all (fun g => g ∈ pool.listed)
  | [], .spawn key g _ .claiming, .runs =>
      config.maxWorkersPerKey key ≤ (pool.groups g).total || g ∈ pool.listed
  | [], .round (.between []), .runs =>
      pool.map.all (fun e => 0 < (pool.groups e.2).total || (pool.groups e.2).Bare)
  | _, _, _ => true

def staysMapped (config : PoolConfig K) (S : System K) : Event K → Bool
  | .begins _ => true
  | .advances k o => S.tasks[k]?.all (fun op => op.staysMapped config S.shared o)

def Pool.Reached (pool : Pool K) : Prop := ∀ g, g ∉ pool.listed → (pool.groups g).Bare

theorem noneStranded_iff [DecidableEq K] {S : System K} (h : Sound S) :
    NoneStranded S ↔ S.shared.Reached := by
  constructor
  · intro hmapped g hg
    by_contra hbare
    obtain ⟨key, _, hlookup⟩ := hmapped g hbare
    exact hg (Pool.lookup_mem hlookup)
  · intro hreached g hbare
    have hg : g ∈ S.shared.listed := by
      by_contra hg
      exact hbare (hreached g hg)
    obtain ⟨e, he, rfl⟩ := List.mem_map.mp hg
    exact ⟨e.1, h.wellFormed.keyed e he, h.wellFormed.lookup_of_mem he⟩

/-! What one step does to the groups out of the map. -/

namespace Pool.Reached

variable {pool pool' : Pool K}

section
variable (h : pool.Reached)
include h

theorem keeps (hmap : pool'.map = pool.map)
    (hbare : ∀ g, (pool.groups g).Bare → (pool'.groups g).Bare) : pool'.Reached := by
  intro g hg
  apply hbare g
  apply h g
  simpa only [Pool.listed, hmap] using hg

theorem permits (n : ℕ) : Pool.Reached { pool with spawnPermits := n } :=
  h.keeps rfl (fun _ => id)

variable {change : WorkerGroup → WorkerGroup}

theorem onGroup (g : GroupId)
    (hbare : (pool.groups g).Bare → (change (pool.groups g)).Bare) : (pool.onGroup g change).Reached := by
  refine h.keeps (Pool.onGroup_map pool g change) ?_
  intro i hi
  rw [Pool.onGroup_groups]
  split
  next hig =>
    subst hig
    exact hbare hi
  · exact hi

theorem getOrCreateGroup [DecidableEq K] (key : K) : (pool.getOrCreateGroup key).1.Reached := by
  intro g hg
  rw [Pool.getOrCreateGroup_groups]
  apply h g
  intro hmem
  obtain ⟨e, he, rfl⟩ := List.mem_map.mp hmem
  exact hg (List.mem_map.mpr ⟨e, (pool.getOrCreateGroup_map key).subset he, rfl⟩)

theorem onGroup_iff {g : GroupId}
    (hfills : (pool.groups g).Bare → ¬(change (pool.groups g)).Bare) :
    (pool.onGroup g change).Reached ↔ g ∈ pool.listed := by
  constructor
  · intro hreached
    by_contra hg
    have hbare := hreached g hg
    rw [Pool.onGroup_groups, if_pos rfl] at hbare
    exact hfills (h g hg) hbare
  · intro hg i hi
    have hne : i ≠ g := by
      rintro rfl
      exact hi hg
    rw [Pool.onGroup_groups, if_neg hne]
    exact h i hi

theorem exec_iff (a : Access) : (a.exec pool).Reached ↔ ∀ g ∈ a.fills?, g ∈ pool.listed := by
  cases a with
  | totalAdd g =>
    have hfills : (pool.groups g).Bare → ¬WorkerGroup.Bare
        { pool.groups g with total := (pool.groups g).total + 1 } := by
      rintro ⟨htotal, _, _⟩ ⟨hzero, _⟩
      simp [htotal] at hzero
    simpa [Access.exec, Access.fills?] using h.onGroup_iff hfills
  | totalSub g n =>
    by_cases hn : UInt64.ofNat n = 0
    · have hreached : (Access.exec pool (.totalSub g n)).Reached :=
        h.onGroup g (by simp [WorkerGroup.Bare, hn])
      simpa [Access.exec, Access.fills?, hn] using hreached
    · have hfills : (pool.groups g).Bare → ¬WorkerGroup.Bare
          { pool.groups g with total := (pool.groups g).total - UInt64.ofNat n } := by
        rintro ⟨htotal, _, _⟩ ⟨hzero, _⟩
        grind
      simpa [Access.exec, Access.fills?, hn] using h.onGroup_iff hfills
  | pushIdle g workers =>
    cases workers with
    | nil =>
      have hreached : (Access.exec pool (.pushIdle g [])).Reached :=
        h.onGroup g (by simp [WorkerGroup.Bare])
      simpa [Access.exec, Access.fills?] using hreached
    | cons worker workers =>
      have hfills : (pool.groups g).Bare → ¬WorkerGroup.Bare
          { pool.groups g with idle := (pool.groups g).idle ++ worker :: workers } := by
        simp [WorkerGroup.Bare]
      simpa [Access.exec, Access.fills?] using h.onGroup_iff hfills
  | pushTcp g worker =>
    have hfills : (pool.groups g).Bare → ¬WorkerGroup.Bare
        { pool.groups g with tcpWorkers := (pool.groups g).tcpWorkers ++ [worker] } := by
      simp [WorkerGroup.Bare]
    simpa [Access.exec, Access.fills?] using h.onGroup_iff hfills
  | refund n =>
    have hreached : (Access.exec pool (.refund n)).Reached := h.permits _
    simpa [Access.fills?] using hreached
  | _ => simpa [Access.exec, Access.fills?] using h.onGroup _ id

theorem retain_iff :
    Pool.Reached { pool with map := pool.map.filter (fun e => 0 < (pool.groups e.2).total) } ↔
      ∀ e ∈ pool.map, 0 < (pool.groups e.2).total ∨ (pool.groups e.2).Bare := by
  constructor
  · intro hreached e he
    by_cases htotal : 0 < (pool.groups e.2).total
    · exact .inl htotal
    right
    apply hreached e.2
    intro hmem
    obtain ⟨e', he', hsame⟩ := List.mem_map.mp hmem
    obtain ⟨_, hkept⟩ := List.mem_filter.mp he'
    rw [hsame] at hkept
    exact htotal (by simpa using hkept)
  · intro hbare g hg
    by_cases hlisted : g ∈ pool.listed
    · obtain ⟨e, he, rfl⟩ := List.mem_map.mp hlisted
      refine (hbare e he).resolve_left ?_
      intro htotal
      exact hg (List.mem_map_of_mem (List.mem_filter.mpr ⟨he, by simpa using htotal⟩))
    · exact h g hlisted

end

end Pool.Reached

section Points
variable {config : PoolConfig K} {pool pool' : Pool K} {o : Outcome} {op' : Operation K}

section
variable (hreached : pool.Reached)
include hreached

theorem CheckoutPoint.step_reached [DecidableEq K] {point : CheckoutPoint K} (h : point.step pool o = some (pool', op')) : pool'.Reached := by
  unfold CheckoutPoint.step at h
  split at h
  case h_1 key => cases h; exact hreached.getOrCreateGroup key
  case h_3 | h_8 | h_12 =>
    split at h <;> cases h
    next hidle => exact hreached.onGroup _ (by simp [WorkerGroup.Bare, hidle])
    · exact hreached
  case h_2 | h_7 | h_11 =>
    split at h <;> cases h <;> first | exact hreached | exact hreached.onGroup _ id
  case h_4 | h_5 => split at h <;> cases h <;> exact hreached
  case h_13 => cases h
  all_goals cases h; exact hreached

theorem SpawnStage.step_reached {key : K} {g : GroupId} {caller : Caller} {stage : SpawnStage} (h : stage.step config pool key g caller o = some (pool', op')) :
    pool'.Reached ↔ Operation.staysMapped config pool ⟨[], .spawn key g caller stage⟩ o = true := by
  unfold SpawnStage.step at h
  split at h
  case h_4 =>
    split at h <;> cases h
    next hcap => simp [Operation.staysMapped, hcap, hreached]
    next hcap =>
      have hfills : (pool.groups g).Bare → ¬WorkerGroup.Bare
          { pool.groups g with total := (pool.groups g).total + 1 } := by
        rintro ⟨htotal, _, _⟩ ⟨hzero, _⟩
        simp [htotal] at hzero
      simpa [Operation.staysMapped, hcap] using hreached.onGroup_iff hfills
  case h_3 =>
    split at h <;> cases h
    · simpa [Operation.staysMapped] using hreached.permits _
    · simpa [Operation.staysMapped] using hreached
  case h_5 =>
    split at h <;> cases h
    simpa [Operation.staysMapped] using hreached.onGroup g id
  case h_6 => split at h <;> cases h <;> simpa [Operation.staysMapped] using hreached
  case h_13 => cases h
  all_goals cases h; simpa [Operation.staysMapped] using hreached

theorem GuardPoint.step_reached {point : GuardPoint}
    (h : point.step pool o = some (pool', op')) : pool'.Reached := by
  unfold GuardPoint.step at h
  split at h <;> cases h <;> exact hreached

theorem TcpPoint.step_reached [DecidableEq K] {point : TcpPoint K}
    (h : point.step pool o = some (pool', op')) : pool'.Reached := by
  unfold TcpPoint.step at h
  split at h
  case h_1 => split at h <;> cases h <;> exact hreached
  case h_2 => split at h <;> cases h <;> first | exact hreached | exact hreached.onGroup _ id
  case h_3 =>
    split at h <;> cases h
    next htcp => exact hreached.onGroup _ (by simp [WorkerGroup.Bare, htcp])
    · exact hreached
  case h_4 => cases h

theorem RetirePoint.step_reached {point : RetirePoint}
    (h : point.step pool o = some (pool', op')) : pool'.Reached := by
  unfold RetirePoint.step at h
  split at h
  case h_1 => split at h <;> cases h; exact hreached
  case h_2 =>
    split at h <;> cases h
    · refine hreached.onGroup _ ?_
      rintro ⟨htotal, hidle, htcp⟩
      exact ⟨htotal, by simp [hidle], htcp⟩
    · exact hreached
  case h_3 => cases h; exact hreached
  case h_4 => cases h

theorem RoundPoint.step_reached {point : RoundPoint K}
    (h : point.step config pool o = some (pool', op')) :
    pool'.Reached ↔ Operation.staysMapped config pool ⟨[], .round point⟩ o = true := by
  unfold RoundPoint.step at h
  split at h
  case h_2 rest n =>
    split at h <;> cases h
    next key g hget =>
      have hdrained : (pool.onGroup g (fun x => { x with idle := [] })).Reached := by
        refine hreached.onGroup g ?_
        rintro ⟨htotal, _, htcp⟩
        exact ⟨htotal, rfl, htcp⟩
      simpa [Operation.staysMapped] using hdrained
  case h_7 =>
    split at h <;> cases h
    · simpa [Operation.staysMapped] using hreached.permits _
    · simpa [Operation.staysMapped] using hreached
  case h_8 =>
    split at h <;> cases h
    simpa [Operation.staysMapped] using hreached.onGroup _ id
  case h_9 => split at h <;> cases h <;> simpa [Operation.staysMapped] using hreached
  case h_13 =>
    cases h
    rw [hreached.retain_iff]
    simp [Operation.staysMapped]
  case h_14 => cases h
  all_goals cases h; simpa [Operation.staysMapped] using hreached

theorem PreScalePoint.step_reached [DecidableEq K] {point : PreScalePoint K} (h : point.step config pool o = some (pool', op')) :
    pool'.Reached := by
  unfold PreScalePoint.step at h
  split at h
  case h_1 | h_3 => split at h <;> cases h <;> exact hreached
  case h_2 key target => cases h; exact hreached.getOrCreateGroup key
  case h_4 => cases h

theorem AdoptPoint.step_reached [DecidableEq K] {point : AdoptPoint K}
    (h : point.step pool o = some (pool', op')) : pool'.Reached := by
  unfold AdoptPoint.step at h
  split at h
  case h_1 key worker => cases h; exact hreached.getOrCreateGroup key
  case h_2 => split at h <;> cases h <;> exact hreached
  case h_3 => cases h

theorem Operation.next_reached_iff [DecidableEq K] {op : Operation K} (h : op.next config pool o = some (pool', op')) :
    pool'.Reached ↔ op.staysMapped config pool o = true := by
  obtain ⟨todo, point⟩ := op
  cases todo with
  | cons a todo =>
    cases h
    simp [staysMapped, hreached.exec_iff a, Option.all_eq_true]
  | nil =>
    rcases point.next_cases h with ⟨todo, rfl, htodo, rfl, rfl⟩ | h
    · simpa [staysMapped] using hreached
    · cases point with
      | checkout point => simpa [staysMapped] using point.step_reached hreached h
      | spawn key g caller stage => exact stage.step_reached hreached h
      | guard point => simpa [staysMapped] using point.step_reached hreached h
      | tcp point => simpa [staysMapped] using point.step_reached hreached h
      | retire point => simpa [staysMapped] using point.step_reached hreached h
      | round point => exact point.step_reached hreached h
      | preScale point => simpa [staysMapped] using point.step_reached hreached h
      | adopt point => simpa [staysMapped] using point.step_reached hreached h
      | done => cases h

end

end Points

/-- Each worker stays in the group the map has for its key exactly when none was counted or queued in a
  group out of the map, no total changed there, and no group with a worker was dropped. -/
theorem noneStranded_always_iff [DecidableEq K] (config : PoolConfig K)
    (events : List (Event K)) :
    Runs.Always (System.step config) NoneStranded (System.start config) events ↔
      Runs.Along (System.step config) (fun S event => staysMapped config S event = true)
        (System.start config) events := by
  refine Runs.always_iff_along_beside (J := Sound) (fun S event S' hS hstep => hS.step hstep) ?_
    (Sound.start config) ?_ events
  · intro S event S' hS hnone hstep
    rw [noneStranded_iff (hS.step hstep)]
    rw [noneStranded_iff hS] at hnone
    cases event with
    | begins request =>
      cases hstep
      exact ⟨fun _ => rfl, fun _ => hnone⟩
    | advances k o =>
      obtain ⟨op, pool', op', hk, hnext, rfl⟩ := Crew.advance_eq_some hstep
      simpa [staysMapped, hk] using Operation.next_reached_iff hnone hnext
  · rw [noneStranded_iff (Sound.start config)]
    exact fun g _ => ⟨rfl, rfl, rfl⟩

def pairOfWorkers : PoolConfig Unit := ⟨2, two_le_maxPermits, fun _ => 2, fun _ => true⟩

/-- A round of health checks drops the empty group a caller has looked up; the caller starts a worker there,
  and the next makes another group. -/
def claimsAfterSweep : List (Event Unit) :=
  [[.begins (.checkout ()), .advances 0 .runs, .advances 0 .runs, .begins .healthCheck,
    .advances 0 .runs, .advances 0 (.visits 0)], List.replicate 9 (.advances 0 .runs),
    List.replicate 5 (.advances 1 .runs), [.advances 1 (.spawned 7)],
    List.replicate 7 (.advances 1 .runs), [.advances 1 .reusable],
    List.replicate 3 (.advances 1 .runs),
    [.begins (.checkout ()), .advances 0 .runs]].flatten

/-- The worker is idle in a group the map does not have. -/
theorem worker_stranded_by_sweep :
    ∃ S, Runs.run (System.step pairOfWorkers) (System.start pairOfWorkers) claimsAfterSweep
        = some S ∧ (S.shared.groups 0).idle = [7] ∧ S.shared.map = [((), 1)] ∧ ¬NoneStranded S := by
  refine ⟨_, rfl, rfl, rfl, ?_⟩
  intro hnone
  obtain ⟨key, _, hlookup⟩ := hnone 0 (by decide)
  cases key
  exact absurd hlookup (by decide)

end Batchalign.WorkerPool
