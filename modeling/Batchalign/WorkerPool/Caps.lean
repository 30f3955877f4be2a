import Batchalign.Lib.Runs
import Batchalign.WorkerPool.StepEffects

/- The caps on workers. A permit no total counts yet is `plus`, a worker still to take off a total
   `minus`; with these the totals and the permits come to `max_total_workers`. `keepsCaps` excludes the
   steps that do not look at the cap: restarts, discovered daemons, a claim given up. -/
namespace Batchalign.WorkerPool

variable {K : Type*}

@[simp] def Access.plus : Access → ℕ
  | refund n => n
  | totalAdd _ => 1
  | _ => 0

@[simp] def Access.minus : Access → ℕ
  | totalSub _ n => n
  | _ => 0

@[simp] def Point.plus : Point K → ℕ
  | .spawn _ _ _ .claiming => 1
  | .round (.locking _ _ _ _) | .round (.configuring _ _ _ _) | .round (.starting _ _ _ _) => 1
  | _ => 0

def Point.abandonsClaim : Point K → Bool
  | .spawn _ _ _ .locking | .spawn _ _ _ .starting | .spawn _ _ _ (.probing _) => true
  | _ => false

namespace Operation

@[simp] def plus (op : Operation K) : ℕ := Crew.tally Access.plus op.todo + op.point.plus

@[simp] def minus (op : Operation K) : ℕ := Crew.tally Access.minus op.todo

/-- The accesses give back at least as many permits as they take workers off totals. -/
@[simp] def backed : List Access → Prop
  | [] => True
  | a :: todo =>
      Crew.tally Access.minus (a :: todo) ≤ Crew.tally Access.plus (a :: todo) ∧ backed todo

theorem minus_le_plus {op : Operation K} (h : backed op.todo) : op.minus ≤ op.plus := by
  obtain ⟨todo, point⟩ := op
  cases todo with
  | nil => simp
  | cons a todo => exact h.1.trans (Nat.le_add_right _ _)

/-- A worker is added below its key's cap, no more are taken off a total than it counts, and no claimed slot
  is given up. -/
def keepsCaps (config : PoolConfig K) (pool : Pool K) (op : Operation K) (o : Outcome) : Bool :=
  match op.todo with
  | .totalAdd g :: _ =>
      pool.keys[g]?.all (fun key => (pool.groups g).total < config.maxWorkersPerKey key)
  | .totalSub g n :: _ => n ≤ (pool.groups g).total.toNat
  | _ :: _ => true
  | [] => op.point.configured config && !(o == .dropped && op.point.abandonsClaim)

end Operation

def Pool.counted (pool : Pool K) : ℕ := pool.sum (fun x => x.total.toNat)

variable {g : GroupId} {total : UInt64}

theorem Pool.counted_onGroup (pool : Pool K) (hg : g < pool.made) (change : WorkerGroup → WorkerGroup) :
    (pool.onGroup g change).counted + (pool.groups g).total.toNat
      = pool.counted + (change (pool.groups g)).total.toNat :=
  pool.sum_onGroup hg _ change

def Pool.WithinCaps (config : PoolConfig K) (pool : Pool K) : Prop :=
  ∀ g key, pool.keys[g]? = some key → (pool.groups g).total ≤ config.maxWorkersPerKey key

variable {config : PoolConfig K} {change : WorkerGroup → WorkerGroup}

theorem Pool.WithinCaps.onGroup {pool : Pool K}
    (h : pool.WithinCaps config)
    (hg : ∀ key, pool.keys[g]? = some key →
      (change (pool.groups g)).total ≤ config.maxWorkersPerKey key) :
    (pool.onGroup g change).WithinCaps config := by
  intro i key hkey
  rw [Pool.onGroup_groups]
  split
  next hi =>
    subst hi
    exact hg key hkey
  · exact h i key hkey

theorem toNat_succ_of_lt {cap : UInt64} (h : total < cap) : (total + 1).toNat = total.toNat + 1 := by
  have hbound := cap.toNat_lt
  rw [UInt64.lt_iff_toNat_lt] at h
  have hlt : total.toNat + 1 < 2 ^ 64 := by omega
  simpa [UInt64.toNat_add] using hlt

theorem succ_le_of_lt {cap : UInt64} (h : total < cap) : total + 1 ≤ cap := by
  rw [UInt64.le_iff_toNat_le, toNat_succ_of_lt h]
  exact UInt64.lt_iff_toNat_lt.mp h

theorem toNat_sub_ofNat {n : ℕ} (h : n ≤ total.toNat) :
    (total - UInt64.ofNat n).toNat = total.toNat - n := by
  have hbound := total.toNat_lt
  have hn : (UInt64.ofNat n).toNat = n := UInt64.toNat_ofNat_of_lt' (by simp [UInt64.size]; omega)
  rw [UInt64.toNat_sub_of_le _ _ (by rw [UInt64.le_iff_toNat_le, hn]; exact h), hn]

variable {a : Access}

theorem Access.exec_total (pool : Pool K) (hgroup : a.group? = some g)
    (hplus : a.plus = 0) (hminus : a.minus = 0) : ∃ change, a.exec pool = pool.onGroup g change ∧
      (change (pool.groups g)).total = (pool.groups g).total := by
  cases a <;> cases hgroup <;> simp only [Access.exec] <;> refine ⟨_, rfl, ?_⟩ <;> simp_all

structure Capped (config : PoolConfig K) (pool pool' : Pool K) (op op' : Operation K) : Prop where
  caps : pool.WithinCaps config → pool'.WithinCaps config
  sum : pool'.counted + pool'.spawnPermits + op'.plus + op.minus
    = pool.counted + pool.spawnPermits + op.plus + op'.minus
  backed : Operation.backed op'.todo

variable {todo : List Access}

namespace Capped

variable {config : PoolConfig K} {pool : Pool K} {point : Point K} {op' : Operation K}

theorem ofPermits (n : ℕ) (hsum : op'.plus + n = point.plus + pool.spawnPermits + op'.minus)
    (hbacked : Operation.backed op'.todo) :
    Capped config pool { pool with spawnPermits := n } ⟨[], point⟩ op' := by
  refine ⟨id, ?_, hbacked⟩
  have hcounted : Pool.counted { pool with spawnPermits := n } = pool.counted := rfl
  simp only [hcounted, Operation.plus, Operation.minus, Crew.tally_nil] at hsum ⊢
  omega

theorem ofNothing (hsum : op'.plus = point.plus + op'.minus) (hbacked : Operation.backed op'.todo) :
    Capped config pool pool ⟨[], point⟩ op' :=
  ofPermits pool.spawnPermits (by omega) hbacked

variable {g : GroupId}

theorem ofGroup (hknown : Operation.Known pool ⟨[], point⟩) (hg : g ∈ point.groups)
    (htotal : (change (pool.groups g)).total = (pool.groups g).total)
    (hsum : op'.plus = point.plus + op'.minus) (hbacked : Operation.backed op'.todo) :
    Capped config pool (pool.onGroup g change) ⟨[], point⟩ op' := by
  refine ⟨?_, ?_, hbacked⟩
  · intro hcaps
    apply hcaps.onGroup
    rw [htotal]
    exact hcaps g
  · have hcounted := pool.counted_onGroup (hknown.made g hg) change
    rw [htotal] at hcounted
    simp only [Pool.onGroup_spawnPermits, Operation.plus, Operation.minus, Crew.tally_nil]
      at hsum ⊢
    omega

theorem ofClaim {key : K} {caller : Caller}
    (hknown : Operation.Known pool ⟨[], .spawn key g caller .claiming⟩)
    (hcap : ¬config.maxWorkersPerKey key ≤ (pool.groups g).total) :
    Capped config pool (pool.onGroup g (fun x => { x with total := x.total + 1 }))
      ⟨[], .spawn key g caller .claiming⟩
      ⟨[.leaveQueue g 1], .spawn key g caller .locking⟩ := by
  have hkey : pool.keys[g]? = some key := hknown.keyed (key, g) (by simp)
  have hlt : (pool.groups g).total < config.maxWorkersPerKey key := UInt64.not_le.mp hcap
  refine ⟨?_, ?_, by simp⟩
  · intro hcaps
    apply hcaps.onGroup
    intro key' hkey'
    have heq : key' = key := Option.some.inj (hkey'.symm.trans hkey)
    rw [heq]
    exact succ_le_of_lt hlt
  · have hcounted := pool.counted_onGroup (hknown.made g (by simp))
      (fun x => { x with total := x.total + 1 })
    rw [toNat_succ_of_lt hlt] at hcounted
    simp only [Pool.onGroup_spawnPermits, Operation.plus, Operation.minus, Crew.tally_nil,
      Crew.tally_cons, Access.plus, Access.minus, Point.plus]
    omega

theorem ofGetOrCreate [DecidableEq K] (hwell : pool.WellFormed) (key : K) {point' : Point K}
    (hplus : point'.plus = point.plus) :
    Capped config pool (pool.getOrCreateGroup key).1 ⟨[], point⟩ ⟨[], point'⟩ := by
  refine ⟨?_, ?_, trivial⟩
  · intro hcaps i key' hkey'
    rw [Pool.getOrCreateGroup_groups]
    by_cases hi : i < pool.made
    · obtain ⟨more, hmore⟩ := pool.getOrCreateGroup_keys key
      rw [← hmore, List.getElem?_append_left hi] at hkey'
      exact hcaps i key' hkey'
    · rw [hwell.fresh i (Nat.le_of_not_lt hi)]
      exact UInt64.zero_le
  · obtain ⟨hsum, hspawn⟩ := hwell.getOrCreateGroup_sum key (fun x => x.total.toNat) rfl
    simp only [Pool.counted, hsum, hspawn, Operation.plus, Operation.minus, Crew.tally_nil, hplus]

theorem ofOther (hgroup : a.group? = some g)
    (hg : g < pool.made) (hplus : a.plus = 0) (hminus : a.minus = 0)
    (hbacked : Operation.backed (a :: todo)) :
    Capped config pool (a.exec pool) ⟨a :: todo, point⟩ ⟨todo, point⟩ := by
  obtain ⟨change, hchange, htotal⟩ := a.exec_total pool hgroup hplus hminus
  refine ⟨?_, ?_, hbacked.2⟩
  · intro hcaps
    rw [hchange]
    apply hcaps.onGroup
    rw [htotal]
    exact hcaps g
  · have hcounted := pool.counted_onGroup hg change
    rw [htotal] at hcounted
    simp only [hchange, Pool.onGroup_spawnPermits, Operation.plus, Operation.minus,
      Crew.tally_cons, hplus, hminus]
    omega

theorem ofAccess {o : Outcome}
    (hknown : Operation.Known pool ⟨a :: todo, point⟩) (hbacked : Operation.backed (a :: todo))
    (hkeeps : Operation.keepsCaps config pool ⟨a :: todo, point⟩ o = true) :
    Capped config pool (a.exec pool) ⟨a :: todo, point⟩ ⟨todo, point⟩ := by
  have hmade : ∀ g, a.group? = some g → g < pool.made := by
    intro g hg
    exact hknown.made g
      (List.mem_append_left _ (List.mem_filterMap.mpr ⟨a, List.mem_cons_self, hg⟩))
  -- Only the accesses to a total and to the spawn permits count here.
  cases a with
  | totalAdd g =>
    obtain ⟨key, hkey⟩ : ∃ key, pool.keys[g]? = some key :=
      ⟨_, List.getElem?_eq_getElem (hmade g rfl)⟩
    have hlt : (pool.groups g).total < config.maxWorkersPerKey key := by
      simpa [Operation.keepsCaps, hkey] using hkeeps
    refine ⟨?_, ?_, hbacked.2⟩
    · intro hcaps
      apply hcaps.onGroup
      intro key' hkey'
      have heq : key' = key := Option.some.inj (hkey'.symm.trans hkey)
      rw [heq]
      exact succ_le_of_lt hlt
    · have hcounted := pool.counted_onGroup (hmade g rfl)
        (fun x => { x with total := x.total + 1 })
      rw [toNat_succ_of_lt hlt] at hcounted
      simp only [Access.exec, Pool.onGroup_spawnPermits, Operation.plus, Operation.minus,
        Crew.tally_cons, Access.plus, Access.minus]
      omega
  | totalSub g n =>
    have hn : n ≤ (pool.groups g).total.toNat := by simpa [Operation.keepsCaps] using hkeeps
    have hsub := toNat_sub_ofNat hn
    refine ⟨?_, ?_, hbacked.2⟩
    · intro hcaps
      apply hcaps.onGroup
      intro key hkey
      have hle := UInt64.le_iff_toNat_le.mp (hcaps g key hkey)
      rw [UInt64.le_iff_toNat_le, hsub]
      omega
    · have hcounted := pool.counted_onGroup (hmade g rfl)
        (fun x => { x with total := x.total - UInt64.ofNat n })
      rw [hsub] at hcounted
      simp only [Access.exec, Pool.onGroup_spawnPermits, Operation.plus, Operation.minus,
        Crew.tally_cons, Access.plus, Access.minus]
      omega
  | refund n =>
    refine ⟨id, ?_, hbacked.2⟩
    have hcounted : (Access.exec pool (.refund n)).counted = pool.counted := rfl
    have hpermits : (Access.exec pool (.refund n)).spawnPermits = pool.spawnPermits + n := rfl
    simp only [hcounted, hpermits, Operation.plus, Operation.minus, Crew.tally_cons,
      Access.plus, Access.minus]
    omega
  | _ => exact ofOther rfl (hmade _ rfl) rfl rfl hbacked

end Capped

section Points
variable {config : PoolConfig K} {pool pool' : Pool K} {o : Outcome} {op' : Operation K}

theorem CheckoutPoint.step_capped [DecidableEq K] {point : CheckoutPoint K}
    (hwell : pool.WellFormed) (hknown : Operation.Known pool ⟨[], .checkout point⟩)
    (h : point.step pool o = some (pool', op')) : Capped config pool pool' ⟨[], .checkout point⟩ op' := by
  unfold CheckoutPoint.step at h
  split at h
  case h_1 key => cases h; exact .ofGetOrCreate hwell key (by simp)
  case h_6 | h_9 | h_10 => cases h; exact .ofNothing (by simp) (by simp)
  case h_13 => cases h
  all_goals
    split at h <;> cases h
    all_goals first
      | exact .ofNothing (by simp) (by simp)
      | exact .ofGroup hknown (by simp) rfl (by simp) (by simp)

theorem SpawnStage.step_capped {key : K} {g : GroupId} {caller : Caller} {stage : SpawnStage}
    (hknown : Operation.Known pool ⟨[], .spawn key g caller stage⟩)
    (hconfig : (Point.spawn key g caller stage).configured config = true)
    (h : stage.step config pool key g caller o = some (pool', op')) :
    Capped config pool pool' ⟨[], .spawn key g caller stage⟩ op' := by
  unfold SpawnStage.step at h
  split at h
  case h_3 =>
    split at h <;> cases h
    next hpermits =>
      refine .ofPermits _ ?_ (by simp)
      simp
      omega
    · cases caller <;> exact .ofNothing (by simp) (by simp)
  case h_4 =>
    split at h <;> cases h
    · cases caller <;> exact .ofNothing (by simp) (by simp)
    next hcap => exact .ofClaim hknown hcap
  case h_5 => split at h <;> cases h; exact .ofGroup hknown (by simp) rfl (by simp) (by simp)
  case h_6 =>
    split at h <;> cases h
    · exact .ofNothing (by simp) (by simp)
    next hrefused => exact absurd hconfig hrefused
  case h_13 => cases h
  all_goals cases h; cases caller <;> exact .ofNothing (by simp) (by simp)

theorem GuardPoint.step_capped {point : GuardPoint} (h : point.step pool o = some (pool', op')) :
    Capped config pool pool' ⟨[], .guard point⟩ op' := by
  unfold GuardPoint.step at h
  split at h <;> cases h <;> exact .ofNothing (by simp) (by simp)

theorem TcpPoint.step_capped [DecidableEq K] {point : TcpPoint K}
    (hknown : Operation.Known pool ⟨[], .tcp point⟩) (h : point.step pool o = some (pool', op')) :
    Capped config pool pool' ⟨[], .tcp point⟩ op' := by
  unfold TcpPoint.step at h
  split at h
  case h_4 => cases h
  case h_1 => split at h <;> cases h <;> exact .ofNothing (by simp) (by simp)
  case h_2 | h_3 =>
    split at h <;> cases h
    · exact .ofGroup hknown (by simp) rfl (by simp) (by simp)
    · exact .ofNothing (by simp) (by simp)

theorem RetirePoint.step_capped {point : RetirePoint} (hknown : Operation.Known pool ⟨[], .retire point⟩)
    (h : point.step pool o = some (pool', op')) : Capped config pool pool' ⟨[], .retire point⟩ op' := by
  unfold RetirePoint.step at h
  split at h
  case h_1 => split at h <;> cases h; exact .ofNothing (by simp) (by simp)
  case h_2 =>
    split at h <;> cases h
    · exact .ofGroup hknown (by simp) rfl (by simp) (by simp)
    · exact .ofNothing (by simp) (by simp)
  case h_3 => cases h; exact .ofNothing (by simp) (by simp)
  case h_4 => cases h

theorem RoundPoint.step_capped {point : RoundPoint K} (hknown : Operation.Known pool ⟨[], .round point⟩)
    (h : point.step config pool o = some (pool', op')) :
    Capped config pool pool' ⟨[], .round point⟩ op' := by
  unfold RoundPoint.step at h
  split at h
  case h_2 rest n =>
    split at h <;> cases h
    next key g hget =>
      have hmem : (key, g) ∈ rest := List.mem_of_getElem? hget
      exact .ofGroup hknown (by simpa using ⟨key, hmem⟩) rfl (by simp) (by simp)
  case h_7 =>
    split at h <;> cases h
    next hpermits =>
      refine .ofPermits _ ?_ (by simp)
      simp
      omega
    · exact .ofNothing (by simp) (by simp)
  case h_8 => split at h <;> cases h; exact .ofGroup hknown (by simp) rfl (by simp) (by simp)
  case h_9 => split at h <;> cases h <;> exact .ofNothing (by simp) (by simp)
  case h_13 => cases h; exact ⟨id, rfl, trivial⟩
  case h_14 => cases h
  all_goals cases h; exact .ofNothing (by simp) (by simp)

theorem PreScalePoint.step_capped [DecidableEq K] {point : PreScalePoint K}
    (hwell : pool.WellFormed) (h : point.step config pool o = some (pool', op')) :
    Capped config pool pool' ⟨[], .preScale point⟩ op' := by
  unfold PreScalePoint.step at h
  split at h
  case h_1 | h_3 => split at h <;> cases h <;> exact .ofNothing (by simp) (by simp)
  case h_2 key target => cases h; exact .ofGetOrCreate hwell key (by simp)
  case h_4 => cases h

theorem AdoptPoint.step_capped [DecidableEq K] {point : AdoptPoint K} (hwell : pool.WellFormed)
    (h : point.step pool o = some (pool', op')) : Capped config pool pool' ⟨[], .adopt point⟩ op' := by
  unfold AdoptPoint.step at h
  split at h
  case h_1 key worker => cases h; exact .ofGetOrCreate hwell key (by simp)
  case h_2 =>
    split at h <;> cases h
    next hpermits =>
      refine .ofPermits _ ?_ (by simp)
      simp
      omega
    · exact .ofNothing (by simp) (by simp)
  case h_3 => cases h

theorem Point.dropped_capped {point : Point K}
    (habandons : point.abandonsClaim = false) (h : point.dropped = some todo) :
    Capped config pool pool ⟨[], point⟩ ⟨todo, .done⟩ := by
  unfold Point.dropped at h
  split at h
  case h_6 | h_7 | h_8 => cases habandons
  case h_11 => cases h
  all_goals cases h; exact .ofNothing (by simp) (by simp)

theorem Operation.next_capped [DecidableEq K] {op : Operation K} (hwell : pool.WellFormed)
    (hknown : op.Known pool) (hbacked : backed op.todo) (hkeeps : op.keepsCaps config pool o = true)
    (h : op.next config pool o = some (pool', op')) : Capped config pool pool' op op' := by
  obtain ⟨todo, point⟩ := op
  cases todo with
  | cons a todo =>
    cases h
    exact .ofAccess hknown hbacked hkeeps
  | nil =>
    obtain ⟨hconfig, habandons⟩ : point.configured config = true ∧
        (o = .dropped → point.abandonsClaim = false) := by
      simpa [keepsCaps, ← imp_iff_not_or] using hkeeps
    rcases point.next_cases h with ⟨todo, hdropped, htodo, rfl, rfl⟩ | h
    · exact point.dropped_capped (habandons hdropped) htodo
    · cases point with
      | checkout point => exact point.step_capped hwell hknown h
      | spawn key g caller stage => exact stage.step_capped hknown hconfig h
      | guard point => exact point.step_capped h
      | tcp point => exact point.step_capped hknown h
      | retire point => exact point.step_capped hknown h
      | round point => exact point.step_capped hknown h
      | preScale point => exact point.step_capped hwell h
      | adopt point => exact point.step_capped hwell h
      | done => cases h

end Points

/-! Whole runs. -/

def CapsHold (config : PoolConfig K) (S : System K) : Prop :=
  S.shared.WithinCaps config ∧ S.shared.counted ≤ config.maxTotalWorkers

def keepsCaps (config : PoolConfig K) (S : System K) : Event K → Bool
  | .begins _ => true
  | .advances k o => S.tasks[k]?.all (fun op => op.keepsCaps config S.shared o)

structure Capacity (config : PoolConfig K) (S : System K) : Prop extends Sound S where
  caps : S.shared.WithinCaps config
  sum : S.shared.counted + S.shared.spawnPermits + Crew.tally Operation.plus S.tasks
    = config.maxTotalWorkers + Crew.tally Operation.minus S.tasks
  backed : ∀ op ∈ S.tasks, Operation.backed op.todo

theorem Capacity.capsHold {S : System K} (h : Capacity config S) :
    CapsHold config S := by
  have hminus : Crew.tally Operation.minus S.tasks ≤ Crew.tally Operation.plus S.tasks :=
    Crew.tally_le_tally (fun op hop => Operation.minus_le_plus (h.backed op hop))
  have hsum := h.sum
  exact ⟨h.caps, by omega⟩

theorem Capacity.start (config : PoolConfig K) : Capacity config (System.start config) := by
  refine ⟨Sound.start config, ?_, ?_, ?_⟩
  · intro g key hkey
    cases hkey
  · simp [System.start, Pool.new, Pool.counted, Pool.sum]
  · intro op hop
    cases hop

theorem Capacity.step [DecidableEq K] {S S' : System K} {event : Event K}
    (h : Capacity config S) (hkeeps : keepsCaps config S event = true)
    (hstep : System.step config S event = some S') : Capacity config S' := by
  have hsound := h.toSound.step hstep
  cases event with
  | begins request =>
    cases hstep
    have hplus : Operation.plus ⟨[], request.point⟩ = 0 := by cases request <;> rfl
    have hminus : Operation.minus ⟨[], request.point⟩ = 0 := rfl
    refine ⟨hsound, h.caps, ?_, List.forall_mem_cons.mpr ⟨trivial, h.backed⟩⟩
    simpa only [Crew.begin, Crew.tally_cons, hplus, hminus, zero_add] using h.sum
  | advances k o =>
    obtain ⟨op, pool', op', hk, hnext, rfl⟩ := Crew.advance_eq_some hstep
    have hop : op ∈ S.tasks := List.mem_of_getElem? hk
    have hcapped := Operation.next_capped h.wellFormed (h.known op hop) (h.backed op hop)
      (by simpa [keepsCaps, hk] using hkeeps) hnext
    refine ⟨hsound, hcapped.caps h.caps, ?_, Crew.forall_set h.backed hcapped.backed⟩
    have hplus := Crew.tally_set Operation.plus op' hk
    have hminus := Crew.tally_set Operation.minus op' hk
    have hsum := hcapped.sum
    have hbefore := h.sum
    simp only
    omega

/-- In every run of such steps both caps hold at every moment. -/
theorem caps_hold_always [DecidableEq K] (config : PoolConfig K) (events : List (Event K))
    (hkeeps : Runs.Along (System.step config) (fun S event => keepsCaps config S event = true)
      (System.start config) events) :
    Runs.Always (System.step config) (CapsHold config) (System.start config) events := by
  have hcapacity : Runs.Always (System.step config) (Capacity config) (System.start config)
      events :=
    Runs.always_of_along (fun s event s' hs hk hstep => hs.step hk hstep)
      (Capacity.start config) hkeeps
  exact hcapacity.mono (fun s hs => hs.capsHold)

def oneForEach : PoolConfig Unit := ⟨2, two_le_maxPermits, fun _ => 1, fun _ => true⟩

/-- The operation at place `k` runs on, `n` times. -/
def advancesOn (k n : ℕ) : List (Event Unit) := List.replicate n (.advances k .runs)

def usedOnce : List (Event Unit) :=
  [[.begins (.checkout ())], advancesOn 0 7, [.advances 0 (.spawned 7)], advancesOn 0 7,
    [.advances 0 .reusable], advancesOn 0 3].flatten

def twoForEach : PoolConfig Unit := { oneForEach with maxWorkersPerKey := fun _ => 2 }

/-- A round of health checks finds the worker dead and starts another, and a daemon's worker is taken in. -/
def restartedAndFound : List (Event Unit) :=
  [usedOnce, [.begins .healthCheck, .advances 0 .runs, .advances 0 (.visits 0), .advances 0 .runs,
    .advances 0 .dead], advancesOn 0 9, [.advances 0 (.spawned 8)], advancesOn 0 6,
    [.begins (.adopt () 9)], advancesOn 0 5].flatten

theorem caps_hold_always_restarted_and_found :
    Runs.Always (System.step twoForEach) (CapsHold twoForEach) (System.start twoForEach) restartedAndFound ∧
      ∃ S, Runs.run (System.step twoForEach) (System.start twoForEach) restartedAndFound = some S ∧
        (S.shared.groups 0).total = 2 :=
  ⟨caps_hold_always twoForEach restartedAndFound (by decide +kernel), _, rfl, rfl⟩

/-- Between a round of health checks' start of a worker and its count, a caller has one started as well. -/
def restartedTwice : List (Event Unit) :=
  [usedOnce, [.begins .healthCheck, .advances 0 .runs, .advances 0 (.visits 0), .advances 0 .runs,
    .advances 0 .dead], advancesOn 0 9, [.begins (.checkout ())], advancesOn 0 7,
    [.advances 1 (.spawned 8), .advances 1 .runs]].flatten

/-- The key's group then counts two workers. -/
theorem restart_passes_cap :
    ∃ S, Runs.run (System.step oneForEach) (System.start oneForEach) restartedTwice = some S ∧
      ¬CapsHold oneForEach S := by
  refine ⟨_, rfl, ?_⟩
  intro hcaps
  exact absurd (hcaps.1 0 () rfl) (by decide)

end Batchalign.WorkerPool
