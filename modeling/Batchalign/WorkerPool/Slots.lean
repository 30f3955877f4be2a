import Batchalign.WorkerPool.Caps

/- Worker slots are conserved: each total is what the queues hold and the operations owe, up to the
   additions still due, and every permit is in the semaphore, with a queued worker or with an operation.
   Totals wrap; permits never exceed `maxPermits`. -/
namespace Batchalign.WorkerPool

variable {K : Type*}

structure Ledger (config : PoolConfig K) (S : System K) : Prop extends Sound S where
  covered : ∀ op ∈ S.tasks, op.Covered
  counted : ∀ i, (S.shared.groups i).total + UInt64.ofNat (Crew.tally (Operation.due i) S.tasks)
    = UInt64.ofNat ((S.shared.groups i).queued + Crew.tally (Operation.owed i) S.tasks)
  permits : S.shared.queued + Crew.tally Operation.slots S.tasks + S.shared.spawnPermits
    = config.maxTotalWorkers

theorem toNat_of_eq_ofNat {word : UInt64} {n : ℕ} (h : word = UInt64.ofNat n)
    (hn : n ≤ maxPermits) : word.toNat = n := by
  have hsize : n < UInt64.size := by
    have hmax : maxPermits < UInt64.size := by decide
    omega
  rw [h, UInt64.toNat_ofNat_of_lt' hsize]

theorem Pool.queued_le {pool : Pool K} (h : pool.WellFormed) (i : GroupId) :
    (pool.groups i).queued ≤ pool.queued := by
  by_cases hi : i < pool.made
  · exact Finset.single_le_sum (f := fun i => (pool.groups i).queued)
      (fun _ _ => Nat.zero_le _) (Finset.mem_range.mpr hi)
  · rw [h.fresh i (Nat.le_of_not_lt hi)]
    exact Nat.zero_le _

def keepsSlots (config : PoolConfig K) (S : System K) : Event K → Bool
  | .begins _ => true
  | .advances k o => S.tasks[k]?.all (fun op => op.keepsSlot config o)

namespace Ledger

variable {config : PoolConfig K} {S : System K}

theorem owed_le (h : Ledger config S) (i : GroupId) :
    (S.shared.groups i).queued + Crew.tally (Operation.owed i) S.tasks ≤ maxPermits := by
  have hqueued := S.shared.queued_le h.wellFormed i
  have howed : Crew.tally (Operation.owed i) S.tasks ≤ Crew.tally Operation.slots S.tasks :=
    Crew.tally_le_tally (fun op hop => (h.covered op hop).owed_le i)
  have hpermits := h.permits
  have haccepted := config.accepted
  omega

theorem start (config : PoolConfig K) : Ledger config (System.start config) := by
  refine ⟨Sound.start config, ?_, fun _ => rfl, ?_⟩
  · intro op hop
    cases hop
  · simp [System.start, Pool.new, Pool.queued, Pool.sum]

theorem begins (h : Ledger config S) (request : Request K) :
    Ledger config (Crew.begin S ⟨[], request.point⟩) := by
  have howed : ∀ i, Operation.owed i ⟨[], request.point⟩ = 0 := by
    cases request <;> exact fun _ => rfl
  have hslots : Operation.slots ⟨[], request.point⟩ = 0 := by cases request <;> rfl
  refine ⟨h.toSound.begins request, List.forall_mem_cons.mpr ⟨trivial, h.covered⟩, ?_, ?_⟩
  · intro i
    have hdue : Operation.due i ⟨[], request.point⟩ = 0 := rfl
    simpa only [Crew.begin, Crew.tally_cons, howed, hdue, zero_add] using h.counted i
  · simpa only [Crew.begin, Crew.tally_cons, hslots, zero_add] using h.permits

theorem advance (h : Ledger config S) {pool' : Pool K} {op op' : Operation K} {k : ℕ}
    (heffect : Effect S.shared pool' op op')
    (hsound : Sound (⟨pool', S.tasks.set k op'⟩ : System K)) (hk : S.tasks[k]? = some op) :
    Ledger config ⟨pool', S.tasks.set k op'⟩ := by
  refine ⟨hsound, Crew.forall_set h.covered heffect.covered, ?_, ?_⟩
  · intro i
    have hdue := congrArg UInt64.ofNat (Crew.tally_set (Operation.due i) op' hk)
    have howed := congrArg UInt64.ofNat (Crew.tally_set (Operation.owed i) op' hk)
    have hcounted := h.counted i
    have hstep := heffect.counted i
    simp only [UInt64.ofNat_add] at hdue howed hcounted hstep ⊢
    grind
  · have hslots := Crew.tally_set Operation.slots op' hk
    have hpermits := h.permits
    have hstep := heffect.permits
    simp only
    omega

theorem step [DecidableEq K] {S' : System K} {event : Event K} (h : Ledger config S)
    (hkeeps : keepsSlots config S event = true) (hstep : System.step config S event = some S') :
    Ledger config S' := by
  cases event with
  | begins request =>
    cases hstep
    exact h.begins request
  | advances k o =>
    have hsound := h.toSound.step hstep
    obtain ⟨op, pool', op', hk, hnext, rfl⟩ := Crew.advance_eq_some hstep
    have hop : op ∈ S.tasks := List.mem_of_getElem? hk
    have heffect := Operation.next_effect h.wellFormed (h.known op hop) (h.covered op hop)
      (by simpa [keepsSlots, hk] using hkeeps) hnext
    exact h.advance heffect hsound hk

end Ledger

/-! What the ledger says when no operation is under way. -/

def Point.atRest : Point K → Bool
  | .guard _ | .done => true
  | _ => false

def Quiet (S : System K) : Prop := ∀ op ∈ S.tasks, op.todo = [] ∧ op.point.atRest = true

/-- A live guard at this point holds a worker of group `g`. -/
def Point.holds (g : GroupId) : Point K → Bool
  | .guard (.checkedOut g' _) | .guard (.tcpCheckedOut g' _) => g = g'
  | _ => false

/-- The workers of group `g` that live guards hold. -/
def heldBy (g : GroupId) (tasks : List (Operation K)) : ℕ :=
  tasks.countP (fun op => op.point.holds g)

/-- Each group counts its queued and held workers; these and the permits are all the slots. -/
structure Conserved (config : PoolConfig K) (S : System K) : Prop where
  groups : ∀ g, (S.shared.groups g).total.toNat
    = (S.shared.groups g).idle.length + (S.shared.groups g).tcpWorkers.length + heldBy g S.tasks
  pool : S.shared.sum (fun x => x.total.toNat) + S.shared.spawnPermits = config.maxTotalWorkers

theorem Operation.owed_of_atRest {op : Operation K} (htodo : op.todo = [])
    (hrest : op.point.atRest = true) (i : GroupId) : op.owed i = if op.point.holds i then 1 else 0 := by
  obtain ⟨todo, point⟩ := op
  subst htodo
  cases point with
  | guard point => cases point <;> simp [Point.holds]
  | done => rfl
  | _ => cases hrest

theorem Operation.slots_of_atRest {pool : Pool K} {op : Operation K} (hknown : op.Known pool)
    (htodo : op.todo = []) (hrest : op.point.atRest = true) :
    op.slots = ∑ i ∈ Finset.range pool.made, op.owed i := by
  obtain ⟨todo, point⟩ := op
  subst htodo
  cases point with
  | guard point =>
    cases point with
    | taken g => simp
    | checkedOut g worker | tcpCheckedOut g worker =>
      have hg : g < pool.made := hknown.made g (by simp)
      simp [hg]
  | done => simp
  | _ => cases hrest

theorem tally_owed_of_quiet {tasks : List (Operation K)}
    (hquiet : ∀ op ∈ tasks, op.todo = [] ∧ op.point.atRest = true) (i : GroupId) :
    Crew.tally (Operation.owed i) tasks = heldBy i tasks := by
  induction tasks with
  | nil => rfl
  | cons op tasks ih =>
    obtain ⟨htodo, hrest⟩ := hquiet op (by simp)
    have htail := ih (fun op' hop' => hquiet op' (by simp [hop']))
    rw [Crew.tally_cons, htail, Operation.owed_of_atRest htodo hrest]
    simp only [heldBy, List.countP_cons]
    exact add_comm _ _

namespace Ledger

variable {config : PoolConfig K} {S : System K}

theorem total_of_quiet (h : Ledger config S) (hquiet : Quiet S) (g : GroupId) :
    (S.shared.groups g).total.toNat = (S.shared.groups g).queued + heldBy g S.tasks := by
  have hdue : Crew.tally (Operation.due g) S.tasks = 0 := by
    apply Crew.tally_eq_zero
    intro op hop
    rw [Operation.due, (hquiet op hop).1, Crew.tally_nil]
  have hcounted := h.counted g
  rw [hdue] at hcounted
  have hword : (S.shared.groups g).total = UInt64.ofNat
      ((S.shared.groups g).queued + Crew.tally (Operation.owed g) S.tasks) := by
    rw [← hcounted]
    simp
  rw [toNat_of_eq_ofNat hword (h.owed_le g), tally_owed_of_quiet hquiet]

theorem conserved (h : Ledger config S) (hquiet : Quiet S) : Conserved config S := by
  refine ⟨fun g => h.total_of_quiet hquiet g, ?_⟩
  have hslots : Crew.tally Operation.slots S.tasks
      = ∑ i ∈ Finset.range S.shared.made, heldBy i S.tasks := by
    calc Crew.tally Operation.slots S.tasks
        = Crew.tally (fun op => ∑ i ∈ Finset.range S.shared.made, op.owed i) S.tasks := by
          apply Crew.tally_congr
          intro op hop
          exact Operation.slots_of_atRest (h.known op hop) (hquiet op hop).1 (hquiet op hop).2
      _ = ∑ i ∈ Finset.range S.shared.made, Crew.tally (Operation.owed i) S.tasks :=
          Crew.tally_sum Operation.owed _ _
      _ = ∑ i ∈ Finset.range S.shared.made, heldBy i S.tasks :=
          Finset.sum_congr rfl (fun i _ => tally_owed_of_quiet hquiet i)
  have htotals : S.shared.sum (fun x => x.total.toNat)
      = S.shared.queued + Crew.tally Operation.slots S.tasks := by
    rw [hslots]
    simp only [Pool.sum, Pool.queued, h.total_of_quiet hquiet, Finset.sum_add_distrib]
  rw [htotals]
  exact h.permits

end Ledger

/-! Whole runs. -/

/-- In every run in which no counted worker is given up the slots are conserved when no operation is in
  progress. -/
theorem slots_conserved [DecidableEq K] (config : PoolConfig K) (events : List (Event K))
    (hkeeps : Runs.Along (System.step config) (fun S event => keepsSlots config S event = true)
      (System.start config) events) :
    Runs.Always (System.step config) (fun S => Quiet S → Conserved config S)
      (System.start config) events := by
  have hledger : Runs.Always (System.step config) (Ledger config) (System.start config) events :=
    Runs.always_of_along (fun s event s' hs hk hstep => hs.step hk hstep)
      (Ledger.start config) hkeeps
  exact hledger.mono (fun s hs hquiet => hs.conserved hquiet)

theorem slots_conserved_used_once :
    Runs.Always (System.step oneForEach) (fun S => Quiet S → Conserved oneForEach S)
      (System.start oneForEach) usedOnce :=
  slots_conserved oneForEach usedOnce (by decide +kernel)

def droppedWhileStarting : List (Event Unit) :=
  [[.begins (.checkout ())], advancesOn 0 7, [.advances 0 .dropped], advancesOn 0 3].flatten

/-- No operation is left and there is no worker, and the key's total is at its cap. -/
theorem dropped_spawn_stays_counted :
    ∃ S, Runs.run (System.step oneForEach) (System.start oneForEach) droppedWhileStarting = some S ∧
      Quiet S ∧ ¬Conserved oneForEach S := by
  refine ⟨_, rfl, ?_, ?_⟩
  · unfold Quiet
    decide
  · intro hconserved
    exact absurd (hconserved.groups 0) (by decide)

end Batchalign.WorkerPool
