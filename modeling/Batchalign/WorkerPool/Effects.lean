import Batchalign.WorkerPool.Accounts

/- The shapes of a step. An access settles what it was owed (`Access.exec_effect`). At a point an
   operation touches nothing or the spawn permits (`ofPermits`), changes one group (`ofGroup`), or looks
   one up and may make it (`ofGetOrCreate`). -/
namespace Batchalign.WorkerPool

variable {K : Type*}

variable {point : Point K} {pool : Pool K} {op' : Operation K}

theorem Access.exec_effect {a : Access} {todo : List Access} (hknown : Operation.Known pool ⟨a :: todo, point⟩)
    (hcovered : Operation.Covered ⟨a :: todo, point⟩) :
    Effect pool (a.exec pool) ⟨a :: todo, point⟩ ⟨todo, point⟩ := by
  have hgroup : ∀ g, a.group? = some g → g < pool.made := by
    intro g hg
    exact hknown.made g
      (List.mem_append_left _ (List.mem_filterMap.mpr ⟨a, List.mem_cons_self, hg⟩))
  refine ⟨?_, ?_, hcovered.2⟩
  · intro i
    have h := a.exec_counted pool i (Crew.tally (Access.owed i) todo + point.owed i)
      (Crew.tally (Access.due i) todo)
    simpa only [Operation.owed, Operation.due, Crew.tally_cons, add_assoc] using h
  · have h := a.exec_permits hgroup
    simp only [Operation.slots, Crew.tally_cons]
    omega

theorem Effect.ofPermits (n : ℕ) (hslots : op'.slots + n = point.slots + pool.spawnPermits)
    (howed : ∀ i, op'.owed i = point.owed i + op'.due i) (hcovered : op'.Covered) :
    Effect pool { pool with spawnPermits := n } ⟨[], point⟩ op' := by
  refine ⟨?_, ?_, hcovered⟩
  · intro i
    rw [howed]
    simp only [Operation.owed, Operation.due, Crew.tally_nil, zero_add, UInt64.ofNat_add]
    grind
  · have hqueued : Pool.queued { pool with spawnPermits := n } = pool.queued := rfl
    simp only [hqueued, Operation.slots, Crew.tally_nil] at hslots ⊢
    omega

theorem Effect.ofNothing (hslots : op'.slots = point.slots) (howed : ∀ i, op'.owed i = point.owed i + op'.due i)
    (hcovered : op'.Covered) : Effect pool pool ⟨[], point⟩ op' :=
  .ofPermits pool.spawnPermits (by rw [hslots]) howed hcovered

theorem Effect.ofGroup {g : GroupId} {change : WorkerGroup → WorkerGroup} (taken claimed : ℕ)
    (hknown : Operation.Known pool ⟨[], point⟩) (hg : g ∈ point.groups)
    (hqueued : (change (pool.groups g)).queued + taken = (pool.groups g).queued)
    (htotal : (change (pool.groups g)).total = (pool.groups g).total + UInt64.ofNat claimed)
    (hslots : op'.slots = point.slots + taken)
    (howed : ∀ i, op'.owed i = point.owed i + (if i = g then taken + claimed else 0) + op'.due i)
    (hcovered : op'.Covered) : Effect pool (pool.onGroup g change) ⟨[], point⟩ op' := by
  have hg : g < pool.made := hknown.made g hg
  refine ⟨?_, ?_, hcovered⟩
  · intro i
    rw [Pool.onGroup_groups, howed]
    by_cases hi : i = g
    · subst hi
      simp only [if_true, htotal, ← hqueued, Operation.owed, Operation.due, Crew.tally_nil,
        UInt64.ofNat_add]
      grind
    · simp only [hi, if_false, Operation.owed, Operation.due, Crew.tally_nil, UInt64.ofNat_add]
      grind
  · have hsum := pool.queued_onGroup hg change
    simp only [Pool.onGroup_spawnPermits, Operation.slots, Crew.tally_nil] at hslots ⊢
    omega

theorem Effect.ofGetOrCreate [DecidableEq K] (hwell : pool.WellFormed) (key : K) {point' : Point K}
    (hslots : point'.slots = point.slots) (howed : ∀ i, point'.owed i = point.owed i) :
    Effect pool (pool.getOrCreateGroup key).1 ⟨[], point⟩ ⟨[], point'⟩ := by
  have hgroups := pool.getOrCreateGroup_groups key
  obtain ⟨hsum, hspawn⟩ := hwell.getOrCreateGroup_sum key WorkerGroup.queued rfl
  refine ⟨?_, ?_, trivial⟩
  · intro i
    rw [hgroups]
    simp only [Operation.owed, Operation.due, Crew.tally_nil, howed]
  · simp only [Pool.queued, hsum, hspawn, Operation.slots, hslots]

end Batchalign.WorkerPool
