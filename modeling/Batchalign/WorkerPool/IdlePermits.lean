import Batchalign.Lib.Runs
import Batchalign.WorkerPool.Registry

/- One permit for each idle worker. `checkout` takes a permit and then a worker, and whoever queues a
   worker adds a permit; on the way an operation has one of the pair (`credit`, `debit`). Health checks
   and sampled retirements leave permits without workers. -/
namespace Batchalign.WorkerPool

variable {K : Type*}

/-- The permits of group `i` that the access gives. -/
@[simp] def Access.credit (i : GroupId) : Access → ℕ
  | addAvailable g n => if i = g then n else 0
  | _ => 0

/-- The workers the access queues in group `i`, or the permits of its it takes. -/
@[simp] def Access.debit (i : GroupId) : Access → ℕ
  | pushIdle g workers => if i = g then workers.length else 0
  | takeAvailable g => if i = g then 1 else 0
  | _ => 0

/-- A permit of group `i` was taken here for a worker that is still in the queue. -/
@[simp] def Point.credit (i : GroupId) : Point K → ℕ
  | .checkout (.popping _ g) | .checkout (.poppingAfterPark _ g) => if i = g then 1 else 0
  | .checkout (.evictionPop _ _ victim) => if i = victim then 1 else 0
  | _ => 0

namespace Operation

@[simp] def credit (i : GroupId) (op : Operation K) : ℕ :=
  Crew.tally (Access.credit i) op.todo + op.point.credit i

@[simp] def debit (i : GroupId) (op : Operation K) : ℕ :=
  Crew.tally (Access.debit i) op.todo

/-- The permits of group `i` that the step leaves without a worker. -/
def lost (pool : Pool K) (op : Operation K) (o : Outcome) (i : GroupId) : ℕ :=
  match op.todo, op.point, o with
  | .takeAvailable g :: _, _, _ => if i = g ∧ (pool.groups g).available = 0 then 1 else 0
  | [], .round (.between rest), .visits n =>
      match rest[n]? with
      | some (_, g) => if i = g then (pool.groups g).idle.length else 0
      | none => 0
  | _, _, _ => 0

/-- The step takes no worker off the idle queue without its permit. -/
def keepsPermit (pool : Pool K) (op : Operation K) (o : Outcome) : Bool :=
  match op.todo, op.point, o with
  | .takeAvailable g :: _, _, _ => 0 < (pool.groups g).available
  | [], .round (.between rest), .visits n => rest[n]?.all (fun e => (pool.groups e.2).idle.isEmpty)
  | _, _, _ => true

theorem keepsPermit_iff (pool : Pool K) (op : Operation K) (o : Outcome) :
    op.keepsPermit pool o = true ↔ ∀ i, op.lost pool o i = 0 := by
  unfold keepsPermit lost
  split
  · simp [Nat.pos_iff_ne_zero]
  · split <;> simp_all
  · simp

end Operation

/-- How the permits and idle workers of each group change in a step, with the operation's own. -/
def Balanced (pool pool' : Pool K) (op op' : Operation K) (lost : GroupId → ℕ) : Prop :=
  ∀ i, (pool'.groups i).available + op'.credit i + ((pool.groups i).idle.length + op.debit i)
    = (pool.groups i).available + op.credit i + ((pool'.groups i).idle.length + op'.debit i)
      + lost i

theorem Access.exec_balanced (pool : Pool K) (a : Access) (todo : List Access) (point : Point K)
    (o : Outcome) : Balanced pool (a.exec pool) ⟨a :: todo, point⟩ ⟨todo, point⟩
      (Operation.lost pool ⟨a :: todo, point⟩ o) := by
  intro i
  cases a <;> simp [Access.exec, Operation.lost] <;> grind

section Points
variable {pool pool' : Pool K} {o : Outcome} {op' : Operation K}

theorem CheckoutPoint.step_balanced [DecidableEq K] {point : CheckoutPoint K}
    (h : point.step pool o = some (pool', op')) :
    Balanced pool pool' ⟨[], .checkout point⟩ op' (fun _ => 0) := by
  intro i
  unfold CheckoutPoint.step at h
  split at h
  case h_1 key =>
    cases h
    unfold Pool.getOrCreateGroup
    split <;> simp
  case h_13 => cases h
  case h_6 | h_9 | h_10 => cases h; simp
  all_goals split at h <;> cases h <;> simp [Pool.takeAvailable] <;> grind

variable {config : PoolConfig K}

theorem SpawnStage.step_balanced {key : K} {g : GroupId} {caller : Caller} {stage : SpawnStage}
    (h : stage.step config pool key g caller o = some (pool', op')) :
    Balanced pool pool' ⟨[], .spawn key g caller stage⟩ op' (fun _ => 0) := by
  intro i
  unfold SpawnStage.step at h
  split at h
  case h_3 | h_4 | h_5 | h_6 => split at h <;> cases h <;> cases caller <;> simp <;> grind
  case h_13 => cases h
  all_goals cases h; cases caller <;> simp <;> grind

theorem GuardPoint.step_balanced {point : GuardPoint} (h : point.step pool o = some (pool', op')) :
    Balanced pool pool' ⟨[], .guard point⟩ op' (fun _ => 0) := by
  intro i
  unfold GuardPoint.step at h
  split at h <;> cases h
  case h_1 =>
    simp
    grind
  all_goals simp

theorem TcpPoint.step_balanced [DecidableEq K] {point : TcpPoint K}
    (h : point.step pool o = some (pool', op')) :
    Balanced pool pool' ⟨[], .tcp point⟩ op' (fun _ => 0) := by
  intro i
  unfold TcpPoint.step at h
  split at h
  case h_4 => cases h
  all_goals split at h <;> cases h <;> simp <;> grind

theorem RetirePoint.step_balanced {point : RetirePoint} (h : point.step pool o = some (pool', op')) :
    Balanced pool pool' ⟨[], .retire point⟩ op' (fun _ => 0) := by
  intro i
  unfold RetirePoint.step at h
  split at h
  case h_1 => split at h <;> cases h; simp
  case h_2 g worker =>
    split at h <;> cases h
    next hidle =>
      -- The worker has left the queue; its permit is still to be taken.
      simp
      grind
    · simp
  case h_3 => cases h; simp
  case h_4 => cases h

theorem RoundPoint.step_balanced {point : RoundPoint K}
    (h : point.step config pool o = some (pool', op')) :
    Balanced pool pool' ⟨[], .round point⟩ op' (Operation.lost pool ⟨[], .round point⟩ o) := by
  intro i
  unfold RoundPoint.step at h
  split at h
  case h_2 rest n =>
    split at h <;> cases h
    next key g hget =>
      simp [Operation.lost, hget]
      grind
  case h_7 | h_8 | h_9 => split at h <;> cases h <;> simp [Operation.lost] <;> grind
  case h_14 => cases h
  all_goals cases h; simp [Operation.lost] <;> grind

theorem PreScalePoint.step_balanced [DecidableEq K] {point : PreScalePoint K} (h : point.step config pool o = some (pool', op')) :
    Balanced pool pool' ⟨[], .preScale point⟩ op' (fun _ => 0) := by
  intro i
  unfold PreScalePoint.step at h
  split at h
  case h_1 | h_3 => split at h <;> cases h <;> simp
  case h_2 key target =>
    cases h
    simp [Pool.getOrCreateGroup_groups]
  case h_4 => cases h

theorem AdoptPoint.step_balanced [DecidableEq K] {point : AdoptPoint K}
    (h : point.step pool o = some (pool', op')) :
    Balanced pool pool' ⟨[], .adopt point⟩ op' (fun _ => 0) := by
  intro i
  unfold AdoptPoint.step at h
  split at h
  case h_1 key worker =>
    cases h
    simp [Pool.getOrCreateGroup_groups]
  case h_2 => split at h <;> cases h <;> simp
  case h_3 => cases h

theorem Point.dropped_balanced {point : Point K} {todo : List Access} (h : point.dropped = some todo) :
    Balanced pool pool ⟨[], point⟩ ⟨todo, .done⟩ (fun _ => 0) := by
  intro i
  unfold Point.dropped at h
  split at h <;> cases h <;> simp

theorem Operation.next_balanced [DecidableEq K] {op : Operation K}
    (h : op.next config pool o = some (pool', op')) : Balanced pool pool' op op' (op.lost pool o) := by
  obtain ⟨todo, point⟩ := op
  cases todo with
  | cons a todo =>
    cases h
    exact a.exec_balanced pool todo point o
  | nil =>
    rcases point.next_cases h with ⟨todo, hdropped, htodo, rfl, rfl⟩ | h
    · have hlost : Operation.lost pool' ⟨[], point⟩ o = fun _ => 0 := by
        unfold Operation.lost
        split <;> simp_all
      rw [hlost]
      exact point.dropped_balanced htodo
    · cases point with
      | checkout point => exact point.step_balanced h
      | spawn key g caller stage => exact stage.step_balanced h
      | guard point => exact point.step_balanced h
      | tcp point => exact point.step_balanced h
      | retire point => exact point.step_balanced h
      | round point => exact point.step_balanced h
      | preScale point => exact point.step_balanced h
      | adopt point => exact point.step_balanced h
      | done => cases h

end Points

/-! Whole runs. -/

/-- By how many the permits of group `i` exceed its idle workers, with the operations' own. -/
def excess (S : System K) (i : GroupId) : ℤ :=
  ((S.shared.groups i).available + Crew.tally (Operation.credit i) S.tasks : ℕ)
    - ((S.shared.groups i).idle.length + Crew.tally (Operation.debit i) S.tasks : ℕ)

/-- What the event loses of group `i`. -/
def System.lost (S : System K) (i : GroupId) : Event K → ℕ
  | .begins _ => 0
  | .advances k o => (S.tasks[k]?.map (fun op => op.lost S.shared o i)).getD 0

def keepsPermits (S : System K) : Event K → Bool
  | .begins _ => true
  | .advances k o => S.tasks[k]?.all (fun op => op.keepsPermit S.shared o)

theorem keepsPermits_iff (S : System K) (event : Event K) :
    keepsPermits S event = true ↔ ∀ i, S.lost i event = 0 := by
  cases event with
  | begins request => simp [keepsPermits, System.lost]
  | advances k o =>
    rcases hk : S.tasks[k]? with _ | op
    · simp [keepsPermits, System.lost, hk]
    · simp [keepsPermits, System.lost, hk, op.keepsPermit_iff]

variable {S : System K}

theorem excess_step [DecidableEq K] {config : PoolConfig K} {S' : System K} {event : Event K}
    (hstep : System.step config S event = some S') (i : GroupId) :
    excess S' i = excess S i + S.lost i event := by
  cases event with
  | begins request =>
    cases hstep
    have hcredit : Operation.credit i ⟨[], request.point⟩ = 0 := by cases request <;> rfl
    have hdebit : Operation.debit i ⟨[], request.point⟩ = 0 := rfl
    simp only [excess, System.lost, Crew.begin, Crew.tally_cons, hcredit, hdebit]
    omega
  | advances k o =>
    obtain ⟨op, pool', op', hk, hnext, rfl⟩ := Crew.advance_eq_some hstep
    have hbalanced := Operation.next_balanced hnext i
    have hcredit := Crew.tally_set (Operation.credit i) op' hk
    have hdebit := Crew.tally_set (Operation.debit i) op' hk
    simp only [excess, System.lost, hk, Option.map_some, Option.getD_some]
    omega

/-- No operation has a permit to use or give back, or a worker or permit to hand over. -/
def Settled (S : System K) : Prop :=
  ∀ op ∈ S.tasks, op.todo = [] ∧ ∀ i, op.point.credit i = 0

theorem settled_of_done (h : ∀ op ∈ S.tasks, op = ⟨[], .done⟩) : Settled S := by
  intro op hop
  rw [h op hop]
  exact ⟨rfl, fun _ => rfl⟩

theorem excess_of_settled (h : Settled S) (i : GroupId) :
    excess S i = (S.shared.groups i).available - (S.shared.groups i).idle.length := by
  have hcredit : Crew.tally (Operation.credit i) S.tasks = 0 := by
    apply Crew.tally_eq_zero
    intro op hop
    rw [Operation.credit, (h op hop).1, (h op hop).2 i, Crew.tally_nil]
  have hdebit : Crew.tally (Operation.debit i) S.tasks = 0 := by
    apply Crew.tally_eq_zero
    intro op hop
    simp [(h op hop).1]
  simp [excess, hcredit, hdebit]

/-- Once no operation has a permit or a worker on its way, each group has a permit for every idle worker, and
  no others exactly when no worker left an idle queue without its own. -/
theorem available_eq_idle_iff [DecidableEq K] (config : PoolConfig K) {S : System K}
    {events : List (Event K)}
    (hrun : Runs.run (System.step config) (System.start config) events = some S)
    (hsettled : Settled S) :
    (∀ i, (S.shared.groups i).idle.length ≤ (S.shared.groups i).available) ∧
      ((∀ i, (S.shared.groups i).available = (S.shared.groups i).idle.length) ↔
        Runs.Along (System.step config) (fun S event => keepsPermits S event = true)
          (System.start config) events) := by
  have hstart : excess (System.start config) = 0 := by
    rfl
  have hmono : ∀ (s : System K) e s', System.step config s e = some s' → excess s ≤ excess s' := by
    intro s e s' hstep i
    rw [excess_step hstep i]
    exact le_add_of_nonneg_right (Int.natCast_nonneg _)
  have hfixed : ∀ (s : System K) e s', System.step config s e = some s' →
      (excess s' = excess s ↔ keepsPermits s e = true) := by
    intro s e s' hstep
    rw [keepsPermits_iff, funext_iff]
    apply forall_congr'
    intro i
    rw [excess_step hstep i]
    omega
  constructor
  · intro i
    have hle : (0 : GroupId → ℤ) ≤ excess S := by
      exact Runs.run_invariant (I := fun s => excess (System.start config) ≤ excess s)
        (fun s e s' hs hstep => hs.trans (hmono s e s' hstep)) le_rfl hrun
    have hi := hle i
    rw [excess_of_settled hsettled] at hi
    simp only [Pi.zero_apply] at hi
    omega
  · rw [← Runs.run_fixed_iff excess hmono hfixed hrun, hstart, funext_iff]
    apply forall_congr'
    intro i
    rw [excess_of_settled hsettled, Pi.zero_apply]
    omega

def twoWorkers : PoolConfig Unit := ⟨2, by decide, fun _ => 2, fun _ => true⟩

/-- The operation that began last runs on, `n` times. -/
def runsOn (n : ℕ) : List (Event Unit) := List.replicate n (.advances 0 .runs)

def usedAndReturned : List (Event Unit) :=
  [[.begins (.checkout ())], runsOn 7, [.advances 0 (.spawned 7)], runsOn 7,
    [.advances 0 .reusable], runsOn 3].flatten

theorem available_eq_idle_iff_used_and_returned :
    ∃ S, Runs.run (System.step twoWorkers) (System.start twoWorkers) usedAndReturned = some S ∧
      ∀ i, (S.shared.groups i).available = (S.shared.groups i).idle.length := by
  refine ⟨_, rfl, ?_⟩
  have hrun : Runs.run (System.step twoWorkers) (System.start twoWorkers) usedAndReturned = some _ :=
    rfl
  exact (available_eq_idle_iff twoWorkers hrun (settled_of_done (by decide))).2.mpr
    (by decide +kernel)

def usedThenChecked : List (Event Unit) :=
  [usedAndReturned, [.begins .healthCheck], runsOn 1, [.advances 0 (.visits 0)], runsOn 1,
    [.advances 0 .healthy], runsOn 8].flatten

/-- No operation is left, one worker is idle, and there are two permits for it. -/
theorem checked_worker_has_two_permits :
    ∃ S, Runs.run (System.step twoWorkers) (System.start twoWorkers) usedThenChecked = some S ∧
      (∀ op ∈ S.tasks, op = ⟨[], .done⟩) ∧
      (S.shared.groups 0).idle = [7] ∧ (S.shared.groups 0).available = 2 := by
  decide

end Batchalign.WorkerPool
