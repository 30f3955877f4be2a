import Batchalign.WorkerPool.Registry

/- What an operation owes: workers counted by a group's `total` and held by no queue (`owed`), additions
   to `total` still to make (`due`), and permits out of the semaphore with no queued worker (`slots`).
   `Effect` is one step with these counted in. -/
namespace Batchalign.WorkerPool

variable {K : Type*}

namespace Access

/-- The workers of group `i` that the access puts in a queue or takes off `total`. -/
@[simp] def owed (i : GroupId) : Access → ℕ
  | pushIdle g workers => if i = g then workers.length else 0
  | pushTcp g _ => if i = g then 1 else 0
  | totalSub g n => if i = g then n else 0
  | _ => 0

/-- What the access adds to the total of group `i`. -/
@[simp] def due (i : GroupId) : Access → ℕ
  | totalAdd g => if i = g then 1 else 0
  | _ => 0

@[simp] def slots : Access → ℕ
  | pushIdle _ workers => workers.length
  | pushTcp _ _ => 1
  | refund n => n
  | _ => 0

end Access

/-- Whether a spawn at this stage is counted in `total`. -/
@[simp] def SpawnStage.claimed : SpawnStage → ℕ
  | .admitting | .claiming => 0
  | .locking | .configuring | .starting | .probing _ => 1

@[simp] def SpawnStage.permits : SpawnStage → ℕ
  | .admitting => 0
  | .claiming | .locking | .configuring | .starting | .probing _ => 1

namespace Point

/-- The workers of group `i` in hand at this point. -/
@[simp] def inHand (i : GroupId) : Point K → ℕ
  | .guard (.checkedOut g _) => if i = g then 1 else 0
  | .guard (.tcpCheckedOut g _) => if i = g then 1 else 0
  | .retire (.leaving g _) => if i = g then 1 else 0
  | .round (.checking _ g unchecked kept removed _) =>
      if i = g then unchecked.length + kept.length + removed else 0
  | _ => 0

/-- The workers of group `i` in hand or claimed at this point. -/
@[simp] def owed (i : GroupId) : Point K → ℕ
  | .spawn _ g _ stage => if i = g then stage.claimed else 0
  | point => point.inHand i

@[simp] def slots : Point K → ℕ
  | .spawn _ _ _ stage => stage.permits
  | .guard (.checkedOut _ _) | .guard (.tcpCheckedOut _ _) | .retire (.leaving _ _) => 1
  | .round (.checking _ _ unchecked kept removed _) => unchecked.length + kept.length + removed
  | .round (.locking _ _ _ _) | .round (.configuring _ _ _ _) | .round (.starting _ _ _ _) => 1
  | _ => 0

theorem owed_le_slots (i : GroupId) (point : Point K) : point.owed i ≤ point.slots := by
  rcases point with _ | ⟨key, g, caller, stage⟩ | point | _ | point | point | _ | _ | _
  case spawn =>
    cases stage <;> simp [owed, slots, SpawnStage.claimed, SpawnStage.permits] <;> split <;> simp
  case guard => cases point <;> simp [owed, inHand, slots] <;> split <;> simp
  case retire => cases point <;> simp [owed, inHand, slots]; split <;> simp
  case round => cases point <;> simp [owed, inHand, slots]; split <;> simp
  all_goals exact Nat.zero_le _

end Point

variable (point : Point K) (g : GroupId) {a : Access}

namespace Operation

@[simp] def owed (i : GroupId) (op : Operation K) : ℕ :=
  Crew.tally (Access.owed i) op.todo + op.point.owed i

@[simp] def due (i : GroupId) (op : Operation K) : ℕ :=
  Crew.tally (Access.due i) op.todo

@[simp] def slots (op : Operation K) : ℕ :=
  Crew.tally Access.slots op.todo + op.point.slots

def covered (point : Point K) : List Access → Prop
  | [] => True
  | a :: todo =>
      (∀ i, owed i ⟨a :: todo, point⟩ ≤ slots ⟨a :: todo, point⟩) ∧ covered point todo

def Covered (op : Operation K) : Prop := covered op.point op.todo

theorem Covered.owed_le {op : Operation K} (h : op.Covered) (i : GroupId) : op.owed i ≤ op.slots := by
  obtain ⟨todo, point⟩ := op
  cases todo with
  | nil => simpa only [owed, slots, Crew.tally_nil, zero_add] using point.owed_le_slots i
  | cons a todo => exact h.1 i

theorem covered_cons {point : Point K} {todo : List Access}
    (ha : ∀ i, a.owed i ≤ a.slots) (h : covered point todo) : covered point (a :: todo) := by
  refine ⟨?_, h⟩
  intro i
  have hcovered : Covered (⟨todo, point⟩ : Operation K) := h
  have hrest := hcovered.owed_le i
  simp only [owed, slots, Crew.tally_cons] at hrest ⊢
  have hhead := ha i
  omega

theorem covered_totalSub {point : Point K} {g : GroupId} {n : ℕ} {todo : List Access}
    (hn : n ≤ Crew.tally Access.slots todo) (hzero : ∀ i, Crew.tally (Access.owed i) todo = 0)
    (h : covered point todo) : covered point (.totalSub g n :: todo) := by
  refine ⟨?_, h⟩
  intro i
  have hpoint := point.owed_le_slots i
  simp only [owed, slots, Crew.tally_cons, hzero, Access.owed, Access.slots]
  split <;> omega

theorem covered_evicted : covered point [.totalSub g 1, .refund 1] :=
  covered_totalSub (by simp) (by simp) (covered_cons (by simp) trivial)

theorem covered_retireAway : covered point (retireAway g) :=
  covered_totalSub (by simp) (by simp)
    (covered_cons (by simp) (covered_cons (by simp) trivial))

theorem covered_releaseSpawn : covered point (releaseSpawn g) :=
  covered_totalSub (by simp) (by simp)
    (covered_cons (by simp) (covered_cons (by simp) (covered_cons (by simp) trivial)))

theorem covered_endCheck (kept : List WorkerPid) (removed : ℕ) :
    covered point (endCheck g kept removed) := by
  refine covered_cons ?_ (covered_cons (by simp) (covered_totalSub (by simp) (by simp)
    (covered_cons (by simp) (covered_cons (by simp) trivial))))
  intro i
  simp only [Access.owed, Access.slots]
  split <;> simp

theorem Covered.of_forall {op : Operation K} (h : ∀ a ∈ op.todo, ∀ g n, a ≠ .totalSub g n) :
    op.Covered := by
  obtain ⟨todo, point⟩ := op
  induction todo with
  | nil => trivial
  | cons a todo ih =>
    refine covered_cons ?_ (ih (fun b hb => h b (by simp [hb])))
    intro i
    cases a with
    | totalSub g n => exact absurd rfl (h _ (by simp) g n)
    | pushIdle g workers =>
      simp only [Access.owed, Access.slots]
      split <;> simp
    | pushTcp g worker =>
      simp only [Access.owed, Access.slots]
      split <;> simp
    | _ => exact Nat.zero_le _

end Operation

structure Effect (pool pool' : Pool K) (op op' : Operation K) : Prop where
  counted : ∀ i, (pool'.groups i).total + UInt64.ofNat (op'.due i)
      + UInt64.ofNat ((pool.groups i).queued + op.owed i)
    = (pool.groups i).total + UInt64.ofNat (op.due i)
      + UInt64.ofNat ((pool'.groups i).queued + op'.owed i)
  permits : pool'.queued + op'.slots + pool'.spawnPermits
    = pool.queued + op.slots + pool.spawnPermits
  covered : op'.Covered

theorem Access.exec_group (pool : Pool K) {g : GroupId} (h : a.group? = some g) :
    ∃ change, a.exec pool = pool.onGroup g change ∧
      (change (pool.groups g)).queued = (pool.groups g).queued + a.slots := by
  cases a <;> cases h <;> simp only [Access.exec] <;> refine ⟨_, rfl, ?_⟩ <;>
    simp only [WorkerGroup.queued, Access.slots, List.length_append, List.length_singleton] <;>
    omega

theorem Access.exec_counted (pool : Pool K) (a : Access) (i : GroupId) (owed due : ℕ) :
    ((a.exec pool).groups i).total + UInt64.ofNat due
        + UInt64.ofNat ((pool.groups i).queued + (a.owed i + owed))
      = (pool.groups i).total + UInt64.ofNat (a.due i + due)
        + UInt64.ofNat (((a.exec pool).groups i).queued + owed) := by
  cases a <;> simp only [Access.exec, Access.owed, Access.due, Pool.onGroup_groups]
  all_goals try split
  all_goals simp [WorkerGroup.queued]
  all_goals grind

theorem Access.exec_permits {pool : Pool K} (hg : ∀ g, a.group? = some g → g < pool.made) :
    (a.exec pool).queued + (a.exec pool).spawnPermits = pool.queued + a.slots + pool.spawnPermits := by
  rcases hgroup : a.group? with _ | g
  · cases a <;> cases hgroup
    exact (add_assoc _ _ _).symm.trans (add_right_comm _ _ _)
  · obtain ⟨change, hexec, hqueued⟩ := a.exec_group pool hgroup
    have hsum := pool.queued_onGroup (hg g hgroup) change
    rw [hexec, Pool.onGroup_spawnPermits]
    omega

end Batchalign.WorkerPool
