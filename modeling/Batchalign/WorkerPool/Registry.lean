import Batchalign.Lib.Runs
import Batchalign.WorkerPool.Operations

/- Keys and their groups. A group is made for one key, and the map never has it under another. An
   operation that has both got them from one lookup. -/
namespace Batchalign.WorkerPool
open List

variable {K : Type*}

namespace Point

@[simp] def entries : Point K → List (K × GroupId)
  | .checkout (.looking key g) | .checkout (.popping key g) | .checkout (.atCapacity key g)
  | .checkout (.evictionProbe key g) | .checkout (.evicting key g _)
  | .checkout (.evictionPop key g _) | .checkout (.awaitingReturn key g)
  | .checkout (.awaitingPermit key g) | .checkout (.poppingAfterPark key g) => [(key, g)]
  | .spawn key g _ _ => [(key, g)]
  | .round (.between rest) => rest
  | .round (.checking key g _ _ _ rest) | .round (.restarting key g _ rest)
  | .round (.locking key g _ rest) | .round (.configuring key g _ rest)
  | .round (.starting key g _ rest) => (key, g) :: rest
  | .preScale (.scaling key g _) => [(key, g)]
  | _ => []

@[simp] def strays : Point K → List GroupId
  | .checkout (.evicting _ _ victim) | .checkout (.evictionPop _ _ victim) => [victim]
  | .guard (.checkedOut g _) | .guard (.taken g) | .guard (.tcpCheckedOut g _) => [g]
  | .tcp (.looking g) | .tcp (.popping g) => [g]
  | .retire (.sampled g _) | .retire (.leaving g _) => [g]
  | .adopt (.acquiring g _) => [g]
  | _ => []

@[simp] def groups (point : Point K) : List GroupId :=
  point.entries.map Prod.snd ++ point.strays

end Point

@[simp] def Operation.groups (op : Operation K) : List GroupId :=
  op.todo.filterMap Access.group? ++ op.point.groups

/-- The map gives a group under its own key, each once; a group not made yet is new. -/
structure Pool.WellFormed (pool : Pool K) : Prop where
  keyed : ∀ e ∈ pool.map, pool.keys[e.2]? = some e.1
  keysDistinct : (pool.map.map Prod.fst).Nodup
  distinct : pool.listed.Nodup
  fresh : ∀ i, pool.made ≤ i → pool.groups i = .new

structure Operation.Known (pool : Pool K) (op : Operation K) : Prop where
  made : ∀ g ∈ op.groups, g < pool.made
  keyed : ∀ e ∈ op.point.entries, pool.keys[e.2]? = some e.1

structure Registered (pool pool' : Pool K) (op' : Operation K) : Prop where
  wellFormed : pool'.WellFormed
  keys : pool.keys <+: pool'.keys
  known : op'.Known pool'

variable {pool : Pool K}

theorem Pool.WellFormed.mapped (h : pool.WellFormed) : ∀ g ∈ pool.listed, g < pool.made := by
  intro g hg
  obtain ⟨e, he, rfl⟩ := mem_map.mp hg
  exact (List.getElem?_eq_some_iff.mp (h.keyed e he)).1

theorem Operation.Known.mono {pool pool' : Pool K} {op : Operation K} (h : op.Known pool)
    (hkeys : pool.keys <+: pool'.keys) : op.Known pool' := by
  obtain ⟨more, hmore⟩ := hkeys
  refine ⟨?_, ?_⟩
  · intro g hg
    have hle : pool.made ≤ pool'.made := by
      rw [Pool.made, Pool.made, ← hmore, length_append]
      exact Nat.le_add_right _ _
    exact (h.made g hg).trans_le hle
  · intro e he
    have hkey := h.keyed e he
    have hlt := (List.getElem?_eq_some_iff.mp hkey).1
    rw [← hmore, getElem?_append_left hlt, hkey]

structure Pool.Keeps (pool pool' : Pool K) : Prop where
  keys : pool'.keys = pool.keys
  map : pool'.map = pool.map
  fresh : ∀ i, pool.made ≤ i → pool'.groups i = pool.groups i

theorem Pool.Keeps.refl (pool : Pool K) : pool.Keeps pool := ⟨rfl, rfl, fun _ _ => rfl⟩

theorem Pool.Keeps.permits (pool : Pool K) (n : ℕ) :
    pool.Keeps { pool with spawnPermits := n } := ⟨rfl, rfl, fun _ _ => rfl⟩

variable {g : GroupId} {key : K}

theorem Pool.Keeps.onGroup (hg : g < pool.made)
    (change : WorkerGroup → WorkerGroup) : pool.Keeps (pool.onGroup g change) := by
  refine ⟨rfl, rfl, ?_⟩
  intro i hi
  have hne : i ≠ g := by
    rintro rfl
    exact absurd hg (Nat.not_lt.mpr hi)
  rw [Pool.onGroup_groups, if_neg hne]

theorem Pool.Keeps.exec {a : Access} (hg : ∀ g, a.group? = some g → g < pool.made) :
    pool.Keeps (a.exec pool) := by
  refine ⟨a.exec_keys pool, a.exec_map pool, ?_⟩
  intro i hi
  apply a.exec_groups_of_ne pool
  intro hgroup
  exact absurd (hg i hgroup) (Nat.not_lt.mpr hi)

theorem Pool.WellFormed.keeps {pool pool' : Pool K} (h : pool.WellFormed)
    (hkeeps : pool.Keeps pool') : pool'.WellFormed := by
  refine ⟨?_, ?_, ?_, ?_⟩
  · rw [hkeeps.keys, hkeeps.map]
    exact h.keyed
  · rw [hkeeps.map]
    exact h.keysDistinct
  · simpa only [Pool.listed, hkeeps.map] using h.distinct
  · intro i hi
    simp only [Pool.made, hkeeps.keys] at hi
    rw [hkeeps.fresh i hi, h.fresh i hi]

namespace Registered

variable {pool pool' : Pool K} {point : Point K} {op' : Operation K}

section
variable (hwell : pool.WellFormed)
include hwell

section
variable (hknown : Operation.Known pool ⟨[], point⟩)
include hknown

theorem ofKeeps
    (hkeeps : pool.Keeps pool') (hgroups : ∀ g ∈ op'.groups, g ∈ point.groups ∨ g ∈ pool.listed)
    (hentries : ∀ e ∈ op'.point.entries, e ∈ point.entries ∨ e ∈ pool.map ) :
    Registered pool pool' op' := by
  refine ⟨hwell.keeps hkeeps, by rw [hkeeps.keys], ⟨?_, ?_⟩⟩
  · intro g hg
    simp only [Pool.made, hkeeps.keys]
    exact (hgroups g hg).elim (hknown.made g) (hwell.mapped g)
  · intro e he
    rw [hkeeps.keys]
    exact (hentries e he).elim (hknown.keyed e) (hwell.keyed e)

theorem ofNothing (hgroups : ∀ g ∈ op'.groups, g ∈ point.groups ∨ g ∈ pool.listed)
    (hentries : ∀ e ∈ op'.point.entries, e ∈ point.entries ∨ e ∈ pool.map ) : Registered pool pool op' :=
  ofKeeps hwell hknown (.refl pool) hgroups hentries

theorem ofGroup {g : GroupId} {change : WorkerGroup → WorkerGroup} (hg : g ∈ point.groups)
    (hgroups : ∀ g ∈ op'.groups, g ∈ point.groups ∨ g ∈ pool.listed)
    (hentries : ∀ e ∈ op'.point.entries, e ∈ point.entries ∨ e ∈ pool.map ) :
    Registered pool (pool.onGroup g change) op' :=
  ofKeeps hwell hknown (.onGroup (hknown.made g hg) change) hgroups hentries

end

theorem ofAccess {a : Access} {todo : List Access} (hknown : Operation.Known pool ⟨a :: todo, point⟩) :
    Registered pool (a.exec pool) ⟨todo, point⟩ := by
  have hgroup : ∀ g, a.group? = some g → g < pool.made := by
    intro g hg
    exact hknown.made g
      (mem_append_left _ (mem_filterMap.mpr ⟨a, mem_cons_self, hg⟩))
  have hkeeps := Pool.Keeps.exec hgroup
  refine ⟨hwell.keeps hkeeps, by rw [hkeeps.keys], ⟨?_, ?_⟩⟩
  · intro g hg
    simp only [Pool.made, hkeeps.keys]
    apply hknown.made g
    rcases mem_append.mp hg with hg | hg
    · obtain ⟨b, hb, hbg⟩ := mem_filterMap.mp hg
      exact mem_append_left _ (mem_filterMap.mpr ⟨b, mem_cons_of_mem a hb, hbg⟩)
    · exact mem_append_right _ hg
  · intro e he
    rw [hkeeps.keys]
    exact hknown.keyed e he

end

end Registered

theorem Pool.lookup_eq_some [DecidableEq K] (h : pool.lookup key = some g) : (key, g) ∈ pool.map := by
  unfold Pool.lookup at h
  rw [Option.map_eq_some_iff] at h
  obtain ⟨⟨key', g'⟩, he, rfl⟩ := h
  have hkey : key' = key := by simpa using find?_some he
  subst hkey
  exact mem_of_find?_eq_some he

theorem Pool.lookup_eq_none [DecidableEq K] (h : pool.lookup key = none) : key ∉ pool.map.map Prod.fst := by
  unfold Pool.lookup at h
  rw [Option.map_eq_none_iff, find?_eq_none] at h
  intro hmem
  obtain ⟨e, he, hkey⟩ := mem_map.mp hmem
  exact h e he (by simpa using hkey)

theorem Pool.lookup_mem [DecidableEq K] (h : pool.lookup key = some g) : g ∈ pool.listed :=
  mem_map.mpr ⟨_, Pool.lookup_eq_some h, rfl⟩

theorem Pool.WellFormed.lookup_of_mem [DecidableEq K] (h : pool.WellFormed)
    {e : K × GroupId} (he : e ∈ pool.map) : pool.lookup e.1 = some e.2 := by
  rcases hlookup : pool.lookup e.1 with _ | g
  · exact absurd (mem_map_of_mem he) (Pool.lookup_eq_none hlookup)
  · have hinj := inj_on_of_nodup_map h.keysDistinct (Pool.lookup_eq_some hlookup) he rfl
    rw [← hinj]

theorem Pool.WellFormed.getOrCreateGroup [DecidableEq K] (h : pool.WellFormed)
    (key : K) : (pool.getOrCreateGroup key).1.WellFormed := by
  unfold Pool.getOrCreateGroup
  split
  · exact h
  next hlookup =>
    have hnew := Pool.lookup_eq_none hlookup
    have hnot : pool.made ∉ pool.listed := fun hmem => absurd (h.mapped _ hmem) (lt_irrefl _)
    refine ⟨?_, ?_, ?_, ?_⟩
    · intro e he
      rcases mem_append.mp he with he | he
      · have hkey := h.keyed e he
        rw [getElem?_append_left (List.getElem?_eq_some_iff.mp hkey).1, hkey]
      · rw [mem_singleton.mp he]
        exact getElem?_concat_length
    · rw [map_append]
      exact Nodup.append h.keysDistinct (nodup_singleton _) (by simpa using hnew)
    · have hdistinct := h.distinct
      simp only [Pool.listed, map_append, map_cons, map_nil] at hnot hdistinct ⊢
      exact Nodup.append hdistinct (nodup_singleton _) (by simpa using hnot)
    · intro i hi
      apply h.fresh i
      simp only [Pool.made, length_append, length_singleton] at hi ⊢
      exact Nat.le_of_succ_le hi

theorem Pool.getOrCreateGroup_keys [DecidableEq K] (pool : Pool K) (key : K) :
    pool.keys <+: (pool.getOrCreateGroup key).1.keys := by
  unfold Pool.getOrCreateGroup
  split <;> simp

theorem Pool.getOrCreateGroup_map [DecidableEq K] (pool : Pool K) (key : K) :
    pool.map <+: (pool.getOrCreateGroup key).1.map := by
  unfold Pool.getOrCreateGroup
  split <;> simp

theorem Pool.getOrCreateGroup_groups [DecidableEq K] (pool : Pool K) (key : K) :
    (pool.getOrCreateGroup key).1.groups = pool.groups := by
  unfold Pool.getOrCreateGroup
  split <;> rfl

theorem Pool.WellFormed.getOrCreateGroup_sum [DecidableEq K] (h : pool.WellFormed)
    (key : K) (share : WorkerGroup → ℕ) (hnew : share .new = 0) :
    (pool.getOrCreateGroup key).1.sum share = pool.sum share ∧
      (pool.getOrCreateGroup key).1.spawnPermits = pool.spawnPermits := by
  unfold Pool.getOrCreateGroup
  split
  · exact ⟨rfl, rfl⟩
  · refine ⟨?_, rfl⟩
    simp only [Pool.sum, Pool.made, length_append, length_singleton,
      Finset.sum_range_succ, h.fresh pool.made le_rfl, hnew, add_zero]

theorem Pool.getOrCreateGroup_mem [DecidableEq K] (pool : Pool K) (key : K) :
    (key, (pool.getOrCreateGroup key).2) ∈ (pool.getOrCreateGroup key).1.map := by
  unfold Pool.getOrCreateGroup
  split
  next g hlookup => exact Pool.lookup_eq_some hlookup
  · simp

theorem Registered.ofGetOrCreate [DecidableEq K] (hwell : pool.WellFormed)
    (key : K) {point' : Point K} (hgroups : point'.groups = [(pool.getOrCreateGroup key).2])
    (hentries : ∀ e ∈ point'.entries, e = (key, (pool.getOrCreateGroup key).2)) :
    Registered pool (pool.getOrCreateGroup key).1 ⟨[], point'⟩ := by
  have hmem := pool.getOrCreateGroup_mem key
  have hwell' := hwell.getOrCreateGroup key
  refine ⟨hwell', pool.getOrCreateGroup_keys key, ⟨?_, ?_⟩⟩
  · intro g hg
    have hg' : g ∈ point'.groups := hg
    rw [hgroups, mem_singleton] at hg'
    subst hg'
    exact hwell'.mapped _ (mem_map.mpr ⟨_, hmem, rfl⟩)
  · intro e he
    rw [hentries e he]
    exact hwell'.keyed _ hmem

theorem Registered.ofRetain (hwell : pool.WellFormed) :
    Registered pool { pool with map := pool.map.filter (fun e => 0 < (pool.groups e.2).total) }
      ⟨[], .done⟩ := by
  have hsublist := filter_sublist
    (p := fun e : K × GroupId => decide (0 < (pool.groups e.2).total)) (l := pool.map)
  refine ⟨⟨?_, ?_, ?_, hwell.fresh⟩, prefix_rfl, ⟨?_, ?_⟩⟩
  · exact fun e he => hwell.keyed e (hsublist.subset he)
  · exact hwell.keysDistinct.sublist (hsublist.map Prod.fst)
  · exact hwell.distinct.sublist (hsublist.map Prod.snd)
  · simp
  · simp

section Steps
variable {config : PoolConfig K} {pool pool' : Pool K} {o : Outcome}
  {op' : Operation K}

section
variable (hwell : pool.WellFormed)
include hwell

theorem CheckoutPoint.step_registered [DecidableEq K] {point : CheckoutPoint K} (hknown : Operation.Known pool ⟨[], .checkout point⟩)
    (h : point.step pool o = some (pool', op')) : Registered pool pool' op' := by
  unfold CheckoutPoint.step at h
  split at h
  case h_1 key =>
    cases h
    exact .ofGetOrCreate hwell key (by simp) (by simp)
  case h_5 key g victim =>
    split at h <;> cases h
    next hlisted =>
      obtain ⟨e, he, _, hvictim⟩ := hlisted
      have hmem : victim ∈ pool.listed := mem_map.mpr ⟨e, he, hvictim⟩
      exact .ofNothing hwell hknown (by simp [hmem]) (by simp)
  case h_6 | h_9 | h_10 => cases h; exact .ofNothing hwell hknown (by simp) (by simp)
  case h_13 => cases h
  all_goals
    split at h <;> cases h
    all_goals first
      | exact .ofNothing hwell hknown (by simp) (by simp)
      | exact .ofGroup hwell hknown (by simp) (by simp) (by simp)

theorem SpawnStage.step_registered {key : K} {g : GroupId} {caller : Caller} {stage : SpawnStage} (hknown : Operation.Known pool ⟨[], .spawn key g caller stage⟩)
    (h : stage.step config pool key g caller o = some (pool', op')) : Registered pool pool' op' := by
  unfold SpawnStage.step at h
  split at h
  case h_3 =>
    split at h <;> cases h
    · exact .ofKeeps hwell hknown (.permits pool _) (by simp) (by simp)
    · cases caller <;> exact .ofNothing hwell hknown (by simp) (by simp)
  case h_4 =>
    split at h <;> cases h
    · cases caller <;> exact .ofNothing hwell hknown (by simp) (by simp)
    · exact .ofGroup hwell hknown (by simp) (by simp) (by simp)
  case h_5 => split at h <;> cases h; exact .ofGroup hwell hknown (by simp) (by simp) (by simp)
  case h_6 => split at h <;> cases h <;> exact .ofNothing hwell hknown (by simp) (by simp)
  case h_13 => cases h
  all_goals cases h; cases caller <;> exact .ofNothing hwell hknown (by simp) (by simp)

theorem GuardPoint.step_registered {point : GuardPoint} (hknown : Operation.Known pool ⟨[], .guard point⟩)
    (h : point.step pool o = some (pool', op')) : Registered pool pool' op' := by
  unfold GuardPoint.step at h
  split at h <;> cases h
  all_goals exact .ofNothing hwell hknown (by simp [eq_comm]) (by simp)

theorem TcpPoint.step_registered [DecidableEq K] {point : TcpPoint K}
    (hknown : Operation.Known pool ⟨[], .tcp point⟩)
    (h : point.step pool o = some (pool', op')) : Registered pool pool' op' := by
  unfold TcpPoint.step at h
  split at h
  case h_1 key =>
    split at h <;> cases h
    next g hlookup =>
      have hmem : g ∈ pool.listed := Pool.lookup_mem hlookup
      exact .ofNothing hwell hknown (by simp [hmem]) (by simp)
    · exact .ofNothing hwell hknown (by simp) (by simp)
  case h_4 => cases h
  all_goals
    split at h <;> cases h
    · exact .ofGroup hwell hknown (by simp) (by simp) (by simp)
    · exact .ofNothing hwell hknown (by simp) (by simp)

theorem RetirePoint.step_registered {point : RetirePoint}
    (hknown : Operation.Known pool ⟨[], .retire point⟩)
    (h : point.step pool o = some (pool', op')) : Registered pool pool' op' := by
  unfold RetirePoint.step at h
  split at h
  case h_1 =>
    split at h <;> cases h
    next hlisted => exact .ofNothing hwell hknown (by simp [hlisted]) (by simp)
  case h_2 =>
    split at h <;> cases h
    · exact .ofGroup hwell hknown (by simp) (by simp) (by simp)
    · exact .ofNothing hwell hknown (by simp) (by simp)
  case h_3 => cases h; exact .ofNothing hwell hknown (by simp) (by simp)
  case h_4 => cases h

theorem RoundPoint.step_registered {point : RoundPoint K}
    (hknown : Operation.Known pool ⟨[], .round point⟩)
    (h : point.step config pool o = some (pool', op')) : Registered pool pool' op' := by
  unfold RoundPoint.step at h
  split at h
  case h_1 =>
    cases h
    have hsnapshot : ∀ e ∈ pool.map, e.2 ∈ pool.listed := fun e he => mem_map_of_mem he
    exact .ofNothing hwell hknown (by simp; grind) (by simp)
  case h_2 rest n =>
    split at h <;> cases h
    next key g hget =>
      have hmem : (key, g) ∈ rest := mem_of_getElem? hget
      have herase : ∀ e ∈ rest.eraseIdx n, e ∈ rest := fun e he => mem_of_mem_eraseIdx he
      exact .ofGroup hwell hknown (by simpa using ⟨key, hmem⟩) (by simp; grind) (by simp; grind)
  case h_7 =>
    split at h <;> cases h
    · exact .ofKeeps hwell hknown (.permits pool _) (by simp; grind) (by simp; grind)
    · exact .ofNothing hwell hknown (by simp; grind) (by simp; grind)
  case h_8 =>
    split at h <;> cases h
    exact .ofGroup hwell hknown (by simp) (by simp; grind) (by simp; grind)
  case h_9 =>
    split at h <;> cases h
    all_goals exact .ofNothing hwell hknown (by simp; grind) (by simp; grind)
  case h_13 => cases h; exact .ofRetain hwell
  case h_14 => cases h
  all_goals cases h; exact .ofNothing hwell hknown (by simp; grind) (by simp; grind)

theorem PreScalePoint.step_registered [DecidableEq K] {point : PreScalePoint K} (hknown : Operation.Known pool ⟨[], .preScale point⟩)
    (h : point.step config pool o = some (pool', op')) : Registered pool pool' op' := by
  unfold PreScalePoint.step at h
  split at h
  case h_1 => split at h <;> cases h <;> exact .ofNothing hwell hknown (by simp) (by simp)
  case h_2 key target => cases h; exact .ofGetOrCreate hwell key (by simp) (by simp)
  case h_3 => split at h <;> cases h <;> exact .ofNothing hwell hknown (by simp) (by simp)
  case h_4 => cases h

theorem AdoptPoint.step_registered [DecidableEq K] {point : AdoptPoint K}
    (hknown : Operation.Known pool ⟨[], .adopt point⟩)
    (h : point.step pool o = some (pool', op')) : Registered pool pool' op' := by
  unfold AdoptPoint.step at h
  split at h
  case h_1 key worker => cases h; exact .ofGetOrCreate hwell key (by simp) (by simp)
  case h_2 =>
    split at h <;> cases h
    · exact .ofKeeps hwell hknown (.permits pool _) (by simp) (by simp)
    · exact .ofNothing hwell hknown (by simp) (by simp)
  case h_3 => cases h

theorem Point.dropped_registered {point : Point K} {todo : List Access} (hknown : Operation.Known pool ⟨[], point⟩)
    (h : point.dropped = some todo) : Registered pool pool ⟨todo, .done⟩ := by
  unfold Point.dropped at h
  split at h <;> cases h <;> exact .ofNothing hwell hknown (by simp) (by simp)

theorem Operation.next_registered [DecidableEq K] {op : Operation K}
    (hknown : op.Known pool) (h : op.next config pool o = some (pool', op')) :
    Registered pool pool' op' := by
  obtain ⟨todo, point⟩ := op
  cases todo with
  | cons a todo =>
    cases h
    exact .ofAccess hwell hknown
  | nil =>
    rcases point.next_cases h with ⟨todo, -, htodo, rfl, rfl⟩ | h
    · exact point.dropped_registered hwell hknown htodo
    · cases point with
      | checkout point => exact point.step_registered hwell hknown h
      | spawn key g caller stage => exact stage.step_registered hwell hknown h
      | guard point => exact point.step_registered hwell hknown h
      | tcp point => exact point.step_registered hwell hknown h
      | retire point => exact point.step_registered hwell hknown h
      | round point => exact point.step_registered hwell hknown h
      | preScale point => exact point.step_registered hwell hknown h
      | adopt point => exact point.step_registered hwell hknown h
      | done => cases h

end

end Steps

structure Sound (S : System K) : Prop where
  wellFormed : S.shared.WellFormed
  known : ∀ op ∈ S.tasks, op.Known S.shared

theorem Sound.start (config : PoolConfig K) : Sound (System.start config) := by
  refine ⟨⟨?_, nodup_nil, nodup_nil, fun _ _ => rfl⟩, ?_⟩
  · simp [System.start, Pool.new]
  · simp [System.start]

theorem Request.known (request : Request K) (pool : Pool K) :
    Operation.Known pool ⟨[], request.point⟩ := by
  cases request <;> exact ⟨by simp [Request.point], by simp [Request.point]⟩

theorem Sound.begins {S : System K} (h : Sound S) (request : Request K) :
    Sound (Crew.begin S ⟨[], request.point⟩) :=
  ⟨h.wellFormed, forall_mem_cons.mpr ⟨request.known _, h.known⟩⟩

theorem Sound.step [DecidableEq K] {config : PoolConfig K} {S S' : System K} {event : Event K}
    (h : Sound S) (hstep : System.step config S event = some S') : Sound S' := by
  cases event with
  | begins request =>
    cases hstep
    exact h.begins request
  | advances k o =>
    obtain ⟨op, pool', op', hk, hnext, rfl⟩ := Crew.advance_eq_some hstep
    have hop : op ∈ S.tasks := mem_of_getElem? hk
    have hregistered := Operation.next_registered h.wellFormed (h.known op hop) hnext
    refine ⟨hregistered.wellFormed, Crew.forall_set ?_ hregistered.known⟩
    exact fun op₀ hop₀ => (h.known op₀ hop₀).mono hregistered.keys

/-- In every run of the pool the groups and their keys are in step (`Pool.WellFormed`). -/
theorem groups_keyed_always [DecidableEq K] (config : PoolConfig K) (events : List (Event K)) :
    Runs.Always (System.step config) (fun S => S.shared.WellFormed) (System.start config) events :=
  (Runs.always_of_step (fun _ _ _ h hstep => h.step hstep) (Sound.start config) events).mono
    fun _ h => h.wellFormed

end Batchalign.WorkerPool
