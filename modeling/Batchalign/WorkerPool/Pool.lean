import Mathlib.Tactic
import Batchalign.Lib.Crew

/- What the operations of a worker pool share (`worker/pool/mod.rs`): the groups of workers, the map
   that holds them, and the semaphore of the workers the pool may still start. Groups are named by the
   order they were made in. Each atomic instruction or call under a lock is one `Access`. -/
namespace Batchalign.WorkerPool

variable {K : Type*}

/-- The order in which an `Arc<WorkerGroup>` was made. -/
abbrev GroupId := ℕ

abbrev WorkerPid := ℕ

/-- `tokio::sync::Semaphore::MAX_PERMITS`, on a 64-bit host. -/
def maxPermits : ℕ := 2 ^ 61 - 1

theorem two_le_maxPermits : 2 ≤ maxPermits := by decide

/-- What of `PoolConfig` decides about slots; `workerConfig`: the keys with a configuration. -/
structure PoolConfig (K : Type*) where
  maxTotalWorkers : ℕ
  /-- `Semaphore::new` accepts no more permits. -/
  accepted : maxTotalWorkers ≤ maxPermits
  maxWorkersPerKey : K → UInt64
  workerConfig : K → Bool

/-- The workers of one key, its counters and its locks. -/
structure WorkerGroup where
  idle : List WorkerPid
  available : ℕ
  tcpWorkers : List WorkerPid
  tcpAvailable : ℕ
  total : UInt64
  away : UInt64
  bootstrap : Bool

def WorkerGroup.new : WorkerGroup :=
  ⟨[], 0, [], 0, 0, 0, false⟩

def WorkerGroup.queued (group : WorkerGroup) : ℕ :=
  group.idle.length + group.tcpWorkers.length

def WorkerGroup.isEmpty (group : WorkerGroup) : Bool := group.total == 0

/-- `keys`: the key of each group, in order; `groups` gives a new group for one not made yet. -/
structure Pool (K : Type*) where
  groups : GroupId → WorkerGroup
  keys : List K
  map : List (K × GroupId)
  spawnPermits : ℕ

abbrev Pool.made (pool : Pool K) : ℕ := pool.keys.length

def Pool.new (config : PoolConfig K) : Pool K :=
  ⟨fun _ => .new, [], [], config.maxTotalWorkers⟩

def Pool.listed (pool : Pool K) : List GroupId := pool.map.map Prod.snd

def Pool.onGroup (pool : Pool K) (g : GroupId) (change : WorkerGroup → WorkerGroup) : Pool K :=
  { pool with groups := Function.update pool.groups g (change (pool.groups g)) }

def Pool.sum (pool : Pool K) (share : WorkerGroup → ℕ) : ℕ :=
  ∑ i ∈ Finset.range pool.made, share (pool.groups i)

def Pool.queued (pool : Pool K) : ℕ := pool.sum WorkerGroup.queued

inductive Access where
  /-- `AwayFromQueue::new(group, n)` -/
  | leaveQueue (g : GroupId) (n : ℕ)
  /-- `drop(AwayFromQueue)` of a guard for `n` -/
  | dropAway (g : GroupId) (n : ℕ)
  /-- `group.total.fetch_add(1)` -/
  | totalAdd (g : GroupId)
  /-- `group.total.fetch_sub(n)` -/
  | totalSub (g : GroupId) (n : ℕ)
  /-- `spawn_permits.add_permits(n)`, also by the drop of a `SpawnPermitGuard` -/
  | refund (n : ℕ)
  /-- `group.idle.push_back` of each worker, under one hold of the lock -/
  | pushIdle (g : GroupId) (workers : List WorkerPid)
  /-- `group.tcp_workers.push_back` -/
  | pushTcp (g : GroupId) (worker : WorkerPid)
  /-- `group.available.add_permits(n)` -/
  | addAvailable (g : GroupId) (n : ℕ)
  /-- `group.available.try_acquire()`, forgotten when it was given, passed over when not -/
  | takeAvailable (g : GroupId)
  /-- `group.tcp_available.add_permits(1)` -/
  | addTcpAvailable (g : GroupId)
  /-- `drop` of the guard of `group.bootstrap` -/
  | unlock (g : GroupId)
deriving DecidableEq

namespace Access

def exec (pool : Pool K) : Access → Pool K
  | leaveQueue g n => pool.onGroup g (fun x => { x with away := x.away + UInt64.ofNat n })
  | dropAway g n => pool.onGroup g (fun x => { x with away := x.away - UInt64.ofNat n })
  | totalAdd g => pool.onGroup g (fun x => { x with total := x.total + 1 })
  | totalSub g n => pool.onGroup g (fun x => { x with total := x.total - UInt64.ofNat n })
  | refund n => { pool with spawnPermits := pool.spawnPermits + n }
  | pushIdle g workers => pool.onGroup g (fun x => { x with idle := x.idle ++ workers })
  | pushTcp g worker => pool.onGroup g (fun x => { x with tcpWorkers := x.tcpWorkers ++ [worker] })
  | addAvailable g n => pool.onGroup g (fun x => { x with available := x.available + n })
  | takeAvailable g => pool.onGroup g (fun x => { x with available := x.available - 1 })
  | addTcpAvailable g =>
      pool.onGroup g (fun x => { x with tcpAvailable := x.tcpAvailable + 1 })
  | unlock g => pool.onGroup g (fun x => { x with bootstrap := false })

@[simp] def group? : Access → Option GroupId
  | leaveQueue g _ | dropAway g _ | totalAdd g | totalSub g _ | pushIdle g _ | pushTcp g _
  | addAvailable g _ | takeAvailable g | addTcpAvailable g | unlock g => some g
  | refund _ => none

end Access

/-! What an access leaves of the pool. -/

variable (pool : Pool K) (g : GroupId)

@[simp] theorem Pool.onGroup_groups (i : GroupId) (change : WorkerGroup → WorkerGroup) :
    (pool.onGroup g change).groups i = if i = g then change (pool.groups g) else pool.groups i := by
  simp [Pool.onGroup, Function.update_apply]

variable (change : WorkerGroup → WorkerGroup)

@[simp] theorem Pool.onGroup_keys : (pool.onGroup g change).keys = pool.keys := rfl

@[simp] theorem Pool.onGroup_map : (pool.onGroup g change).map = pool.map := rfl

@[simp] theorem Pool.onGroup_spawnPermits :
    (pool.onGroup g change).spawnPermits = pool.spawnPermits := rfl

theorem Pool.sum_onGroup {g : GroupId} (hg : g < pool.made)
    (share : WorkerGroup → ℕ) (change : WorkerGroup → WorkerGroup) :
    (pool.onGroup g change).sum share + share (pool.groups g)
      = pool.sum share + share (change (pool.groups g)) := by
  have hmem : g ∈ Finset.range pool.made := Finset.mem_range.mpr hg
  have hrest : ∑ i ∈ (Finset.range pool.made).erase g, share ((pool.onGroup g change).groups i)
      = ∑ i ∈ (Finset.range pool.made).erase g, share (pool.groups i) := by
    apply Finset.sum_congr rfl
    intro i hi
    rw [Pool.onGroup_groups, if_neg (Finset.ne_of_mem_erase hi)]
  have hnew := Finset.add_sum_erase (Finset.range pool.made)
    (fun i => share ((pool.onGroup g change).groups i)) hmem
  have hold := Finset.add_sum_erase (Finset.range pool.made)
    (fun i => share (pool.groups i)) hmem
  simp only [Pool.onGroup_groups, if_true] at hnew hrest
  simp only [Pool.sum, Pool.made, Pool.onGroup_keys, Pool.onGroup_groups] at hnew hold hrest ⊢
  omega

theorem Pool.queued_onGroup {g : GroupId} (hg : g < pool.made)
    (change : WorkerGroup → WorkerGroup) : (pool.onGroup g change).queued + (pool.groups g).queued
      = pool.queued + (change (pool.groups g)).queued :=
  pool.sum_onGroup hg WorkerGroup.queued change

theorem Access.exec_keys (a : Access) : (a.exec pool).keys = pool.keys := by
  cases a <;> rfl

theorem Access.exec_map (a : Access) : (a.exec pool).map = pool.map := by
  cases a <;> rfl

theorem Access.exec_groups_of_ne {a : Access} {i : GroupId}
    (h : a.group? ≠ some i) : (a.exec pool).groups i = pool.groups i := by
  cases a <;> simp_all [Access.exec, Access.group?, eq_comm]

end Batchalign.WorkerPool
