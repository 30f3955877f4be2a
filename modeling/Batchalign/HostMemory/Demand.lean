import Batchalign.Lib.Saturating
import Batchalign.Lib.SharedDemand

/- What the leases of a host-memory ledger reserve (`host_memory.rs`). Each counts on the job or the
   worker side of its owner process, and an owner's demand is the larger side. The map `by_owner` is a
   list with one entry for each owner, in the order first seen (`charge`). -/
namespace HostMemory
open List

abbrev MemoryMb := BitVec 64

abbrev WorkerPid := ℕ

inductive MemoryLeaseKind where
  | workerStartup
  | jobExecution
  | mlTestExclusive
  | modelLoad
  | modelBatch
  | modelRequest
  deriving DecidableEq

inductive DemandSide where
  | job
  | worker
  deriving DecidableEq

namespace MemoryLeaseKind

def holdsStartupSlot : MemoryLeaseKind → Bool
  | .workerStartup => true
  | .jobExecution | .mlTestExclusive | .modelLoad | .modelBatch | .modelRequest => false

def demandSide : MemoryLeaseKind → DemandSide
  | .jobExecution | .mlTestExclusive => .job
  | .workerStartup | .modelLoad | .modelBatch | .modelRequest => .worker

end MemoryLeaseKind

structure Reservation where
  owner : WorkerPid
  kind : MemoryLeaseKind
  reserved : MemoryMb

structure OwnerDemand where
  job : MemoryMb := 0
  worker : MemoryMb := 0

namespace OwnerDemand

def add (d : OwnerDemand) (r : Reservation) : OwnerDemand :=
  match r.kind.demandSide with
  | .job => { d with job := Saturating.add d.job r.reserved }
  | .worker => { d with worker := Saturating.add d.worker r.reserved }

def larger (d : OwnerDemand) : MemoryMb :=
  if d.job.toNat ≤ d.worker.toNat then d.worker else d.job

end OwnerDemand

def charge : List (WorkerPid × OwnerDemand) → Reservation → List (WorkerPid × OwnerDemand)
  | [], r => [(r.owner, OwnerDemand.add {} r)]
  | (o, d) :: rest, r =>
    if o = r.owner then (o, d.add r) :: rest else (o, d) :: charge rest r

def effectiveReservedMb (rs : List Reservation) : MemoryMb :=
  ((rs.foldl charge []).map (fun entry => entry.2.larger)).sum

def Reservation.reading : SharedDemand.Reading Reservation WorkerPid where
  owner := Reservation.owner
  side := fun r => r.kind.demandSide == .job
  amount := fun r => r.reserved.toNat

def demand (rs : List Reservation) : ℕ := SharedDemand.demand Reservation.reading rs

def asked (o : WorkerPid) (s : DemandSide) (rs : List Reservation) : ℕ :=
  SharedDemand.asked Reservation.reading o (s == .job) rs

def SumsFit (rs : List Reservation) : Prop := (rs.map (fun r => r.reserved.toNat)).sum < 2 ^ 64

instance (rs : List Reservation) : Decidable (SumsFit rs) :=
  inferInstanceAs (Decidable (_ < _))

variable {rs : List Reservation} {d : OwnerDemand} {r : Reservation}
  {byOwner : List (WorkerPid × OwnerDemand)}

theorem SumsFit.demand_lt (h : SumsFit rs) : demand rs < 2 ^ 64 :=
  lt_of_le_of_lt (SharedDemand.demand_le_sum _ rs) h

theorem toNat_larger (d : OwnerDemand) : d.larger.toNat = max d.job.toNat d.worker.toNat := by
  unfold OwnerDemand.larger
  split <;> omega

def Holds (o : WorkerPid) (d : OwnerDemand) (rs : List Reservation) : Prop :=
  d.job.toNat = asked o .job rs ∧ d.worker.toNat = asked o .worker rs

structure Charged (byOwner : List (WorkerPid × OwnerDemand)) (rs : List Reservation) : Prop where
  nodup : (byOwner.map Prod.fst).Nodup
  owners : ∀ o, o ∈ byOwner.map Prod.fst ↔ o ∈ rs.map Reservation.owner
  holds : ∀ entry ∈ byOwner, Holds entry.1 entry.2 rs

theorem asked_append_singleton (o : WorkerPid) (s : DemandSide) (rs : List Reservation)
    (r : Reservation) : asked o s (rs ++ [r]) =
      asked o s rs + (if r.owner = o ∧ r.kind.demandSide = s then r.reserved.toNat else 0) := by
  have hside : ((r.kind.demandSide == .job) = (s == .job)) = (r.kind.demandSide = s) := by
    cases r.kind.demandSide <;> cases s <;> simp
  unfold asked
  rw [SharedDemand.asked_append, SharedDemand.asked_cons, SharedDemand.asked_nil, add_zero]
  simp only [Reservation.reading, hside]

theorem Holds.append_other {o : WorkerPid} (h : Holds o d rs) (hne : r.owner ≠ o) : Holds o d (rs ++ [r]) := by
  have hnot (s : DemandSide) : ¬ (r.owner = o ∧ r.kind.demandSide = s) := fun hr => hne hr.1
  constructor
  · rw [asked_append_singleton, if_neg (hnot _), add_zero]
    exact h.1
  · rw [asked_append_singleton, if_neg (hnot _), add_zero]
    exact h.2

theorem Holds.add (h : Holds r.owner d rs) (hfits : demand (rs ++ [r]) < 2 ^ 64) :
    Holds r.owner (d.add r) (rs ++ [r]) := by
  have hside := SharedDemand.asked_le_demand Reservation.reading r.owner
    (r.kind.demandSide == .job) (rs ++ [r])
  change asked r.owner r.kind.demandSide (rs ++ [r]) ≤ demand (rs ++ [r]) at hside
  rw [asked_append_singleton, if_pos ⟨rfl, rfl⟩] at hside
  obtain ⟨hjob, hworker⟩ := h
  unfold OwnerDemand.add
  split
  · rename_i hkind
    rw [hkind, ← hjob] at hside
    constructor
    · rw [asked_append_singleton, if_pos ⟨rfl, hkind⟩, ← hjob]
      exact Saturating.toNat_add_of_lt (by omega)
    · rw [asked_append_singleton, if_neg (by simp [hkind]), add_zero]
      exact hworker
  · rename_i hkind
    rw [hkind, ← hworker] at hside
    constructor
    · rw [asked_append_singleton, if_neg (by simp [hkind]), add_zero]
      exact hjob
    · rw [asked_append_singleton, if_pos ⟨rfl, hkind⟩, ← hworker]
      exact Saturating.toNat_add_of_lt (by omega)

theorem charge_of_notMem (h : r.owner ∉ byOwner.map Prod.fst) :
    charge byOwner r = byOwner ++ [(r.owner, OwnerDemand.add {} r)] := by
  induction byOwner with
  | nil => rfl
  | cons head rest ih =>
    rw [map_cons, mem_cons, not_or] at h
    rw [charge, if_neg (fun ho => h.1 ho.symm), ih h.2, cons_append]

theorem charge_of_mem (hnodup : (byOwner.map Prod.fst).Nodup) (h : r.owner ∈ byOwner.map Prod.fst) :
    charge byOwner r = byOwner.map (fun e => if e.1 = r.owner then (e.1, e.2.add r) else e) := by
  induction byOwner with
  | nil => cases h
  | cons head rest ih =>
    obtain ⟨o, d⟩ := head
    rw [map_cons, nodup_cons] at hnodup
    rw [charge, map_cons]
    by_cases ho : o = r.owner
    · -- the entry is this one, and no later entry is this owner's
      rw [if_pos ho, if_pos ho]
      have hrest : rest.map (fun e => if e.1 = r.owner then (e.1, e.2.add r) else e) =
          rest.map id := by
        apply map_congr_left
        intro e he
        have hne : e.1 ≠ r.owner := by
          intro hr
          apply hnodup.1
          rw [ho, ← hr]
          exact mem_map.mpr ⟨e, he, rfl⟩
        rw [if_neg hne, id]
      rw [hrest, map_id]
    · have hrest : r.owner ∈ rest.map Prod.fst :=
        (mem_cons.mp h).resolve_left (fun hr => ho hr.symm)
      rw [if_neg ho, if_neg ho, ih hnodup.2 hrest]

theorem Charged.charge (h : Charged byOwner rs) (hfits : demand (rs ++ [r]) < 2 ^ 64) :
    Charged (charge byOwner r) (rs ++ [r]) := by
  by_cases hmem : r.owner ∈ byOwner.map Prod.fst
  · rw [charge_of_mem h.nodup hmem]
    have hkeys : (byOwner.map
        (fun e => if e.1 = r.owner then (e.1, e.2.add r) else e)).map Prod.fst =
        byOwner.map Prod.fst := by
      rw [map_map]
      apply map_congr_left
      intro e _
      simp only [Function.comp]
      split <;> rfl
    refine ⟨hkeys ▸ h.nodup, ?_, ?_⟩
    · intro o
      rw [hkeys, h.owners, map_append, mem_append, map_singleton, mem_singleton]
      constructor
      · exact Or.inl
      · intro ho
        obtain ho | rfl := ho
        · exact ho
        · exact (h.owners _).mp hmem
    · intro e he
      obtain ⟨e₀, he₀, rfl⟩ := mem_map.mp he
      by_cases ho : e₀.1 = r.owner
      · rw [if_pos ho]
        have hheld := h.holds e₀ he₀
        rw [ho] at hheld ⊢
        exact hheld.add hfits
      · rw [if_neg ho]
        exact (h.holds e₀ he₀).append_other (fun hr => ho hr.symm)
  · rw [charge_of_notMem hmem]
    have hnone : r.owner ∉ rs.map Reservation.owner := fun hr => hmem ((h.owners _).mpr hr)
    refine ⟨?_, ?_, ?_⟩
    · rw [map_append, map_singleton, nodup_append]
      refine ⟨h.nodup, nodup_singleton _, ?_⟩
      intro o ho o' ho' heq
      rw [mem_singleton] at ho'
      have howner : o = r.owner := heq.trans ho'
      rw [howner] at ho
      exact hmem ho
    · intro o
      rw [map_append, map_append, mem_append, mem_append, h.owners]
      rfl
    · intro e he
      rw [mem_append, mem_singleton] at he
      obtain he | rfl := he
      · apply (h.holds e he).append_other
        intro ho
        apply hmem
        rw [ho]
        exact mem_map.mpr ⟨e, he, rfl⟩
      · -- an owner with no reservation before starts at nothing on both sides
        have hempty : Holds r.owner {} rs := by
          have hzero (s : DemandSide) : asked r.owner s rs = 0 :=
            SharedDemand.asked_eq_zero _ hnone _
          exact ⟨(hzero _).symm, (hzero _).symm⟩
        exact hempty.add hfits

theorem demand_append_singleton (rs : List Reservation) (r : Reservation) :
    demand (rs ++ [r]) = demand (r :: rs) :=
  SharedDemand.demand_perm _ (perm_append_singleton r rs)

theorem charged_foldl (hfits : demand rs < 2 ^ 64) : Charged (rs.foldl HostMemory.charge []) rs := by
  induction rs using reverseRecOn with
  | nil => exact ⟨nodup_nil, fun o => Iff.rfl, fun e he => by cases he⟩
  | append_singleton rs r ih =>
    have hbefore : demand rs < 2 ^ 64 := by
      have hle := SharedDemand.le_demand_cons Reservation.reading r rs
      rw [demand_append_singleton] at hfits
      exact lt_of_le_of_lt hle hfits
    rw [foldl_append]
    exact (ih hbefore).charge hfits

theorem Holds.toNat_larger {o : WorkerPid} (h : Holds o d rs) : d.larger.toNat = SharedDemand.owned Reservation.reading o rs := by
  rw [HostMemory.toNat_larger, h.1, h.2]
  rfl

theorem toNat_effectiveReservedMb (hfits : demand rs < 2 ^ 64) :
    (effectiveReservedMb rs).toNat = demand rs := by
  have hmap := charged_foldl hfits
  have howners : ((rs.foldl HostMemory.charge []).map Prod.fst).toFinset =
      (rs.map Reservation.owner).toFinset := by
    ext o
    rw [mem_toFinset, mem_toFinset]
    exact hmap.owners o
  have hsum : (((rs.foldl HostMemory.charge []).map (fun entry => entry.2.larger)).map
      BitVec.toNat).sum = demand rs := by
    calc (((rs.foldl HostMemory.charge []).map (fun entry => entry.2.larger)).map BitVec.toNat).sum
        = (((rs.foldl HostMemory.charge []).map Prod.fst).map
            (fun o => SharedDemand.owned Reservation.reading o rs)).sum := by
          rw [map_map, map_map]
          congr 1
          apply map_congr_left
          intro e he
          exact (hmap.holds e he).toNat_larger
      _ = demand rs := by
          rw [← sum_toFinset _ hmap.nodup, howners]
          rfl
  rw [effectiveReservedMb, Saturating.toNat_sum, hsum]
  exact Nat.mod_eq_of_lt hfits

end HostMemory
