import Batchalign.HostMemory.Ledger

/- Admission to the host-memory ledger never over-commits: what the pruned ledger would then reserve,
   and the reserve beside it, is within the available memory, or the request adds nothing to its owner.
   A job plan takes as many workers as fit. -/
namespace HostMemory
open List

variable {rs : List Reservation} {file : LedgerFile} {host : Host}

theorem effectiveReservedMb_perm {ss : List Reservation} (hfits : SumsFit rs)
    (h : rs.Perm ss) : effectiveReservedMb rs = effectiveReservedMb ss := by
  have hdemand : demand rs = demand ss := SharedDemand.demand_perm _ h
  apply BitVec.eq_of_toNat_eq
  rw [toNat_effectiveReservedMb hfits.demand_lt,
    toNat_effectiveReservedMb (hdemand ▸ hfits.demand_lt), hdemand]

variable {r : Reservation}

theorem SumsFit.of_cons (h : SumsFit (r :: rs)) : SumsFit rs := by
  unfold SumsFit at h ⊢
  rw [map_cons, sum_cons] at h
  omega

theorem effectiveReservedMb_cons (hfits : SumsFit (r :: rs)) :
    (effectiveReservedMb rs).toNat ≤ (effectiveReservedMb (r :: rs)).toNat ∧
      (effectiveReservedMb (r :: rs)).toNat ≤ (effectiveReservedMb rs).toNat + r.reserved.toNat := by
  rw [toNat_effectiveReservedMb hfits.demand_lt, toNat_effectiveReservedMb hfits.of_cons.demand_lt]
  exact ⟨SharedDemand.le_demand_cons _ r rs, SharedDemand.demand_cons_le _ r rs⟩

/-- The ledger an access acts on: the pruned one, or the file's own if processes could not be read. -/
def afterPrune (host : Host) (file : LedgerFile) : MemoryLedger :=
  match pruneStaleLeases host (MemoryLedger.ofFile file) with
  | .ok (_, ledger) => ledger
  | .error _ => MemoryLedger.ofFile file

variable {ledger : MemoryLedger}

theorem afterPrune_of_ok {pruned : Pruned}
    (h : pruneStaleLeases host (MemoryLedger.ofFile file) = .ok (pruned, ledger)) :
    afterPrune host file = ledger := by
  rw [afterPrune, h]

theorem afterPrune_of_error {unreadable : HostUnreadable}
    (h : pruneStaleLeases host (MemoryLedger.ofFile file) = .error unreadable) :
    afterPrune host file = MemoryLedger.ofFile file := by
  rw [afterPrune, h]

theorem withLockedLedger_ok {α : Type} {action : Action α}
    {value : α} (h : (withLockedLedger host file action).1 = .ok value) :
    (action (afterPrune host file)).1 = .ok value ∧
      MemoryLedger.ofFile (withLockedLedger host file action).2 =
        (action (afterPrune host file)).2.rounded := by
  cases hprune : pruneStaleLeases host (MemoryLedger.ofFile file) with
  | error unreadable =>
    rw [withLockedLedger_unreadable action hprune] at h
    cases h
  | ok prunedLedger =>
    obtain ⟨pruned, ledger⟩ := prunedLedger
    have hvalue := withLockedLedger_fst action hprune
    rw [h] at hvalue
    rw [afterPrune_of_ok hprune, withLockedLedger_pruned action hprune]
    generalize action ledger = outcome at hvalue ⊢
    obtain ⟨result, ledger'⟩ := outcome
    cases hvalue
    exact ⟨rfl, ofFile_toFile ledger'⟩

theorem withLockedLedger_error {α : Type} {action : Action α} (haction : action.RefusesUnchanged) {error : HostMemoryError}
    (h : (withLockedLedger host file action).1 = .error error) :
    MemoryLedger.ofFile (withLockedLedger host file action).2 = afterPrune host file := by
  cases hprune : pruneStaleLeases host (MemoryLedger.ofFile file) with
  | error unreadable =>
    rw [withLockedLedger_unreadable action hprune, afterPrune_of_error hprune]
  | ok prunedLedger =>
    obtain ⟨pruned, ledger⟩ := prunedLedger
    have herror := withLockedLedger_fst action hprune
    rw [h] at herror
    rw [afterPrune_of_ok hprune, ofFile_withLockedLedger haction hprune,
      haction ledger error herror.symm]
    exact prune_whole hprune

variable (c : HostMemoryCoordinator) {lease : HostMemoryLease} {id : LeaseId}

namespace HostMemoryCoordinator

theorem acquire_refusesUnchanged (host : Host) (id : LeaseId)
    (request : MemoryLeaseRequest) : (c.acquire host id request).RefusesUnchanged := by
  intro ledger error h
  unfold acquire at h ⊢
  simp only at h ⊢
  split_ifs at h ⊢
  · rfl
  · rfl
  · cases hmemory : host.memory with
    | error unreadable => rfl
    | ok system =>
      simp only [hmemory] at h ⊢
      split_ifs at h ⊢
      rfl

variable {request : MemoryLeaseRequest}

theorem acquire_granted {c : HostMemoryCoordinator}
    (h : (c.acquire host id request ledger).1 = .ok lease) : lease = ⟨id, false⟩ ∧
      (c.acquire host id request ledger).2 = ledger.push (c.record host id request) ∧
      (request.kind = .mlTestExclusive → ∀ r ∈ ledger.leases, r.kind ≠ .mlTestExclusive) ∧
      ∃ system, host.memory = .ok system ∧ ((effectiveReservedMb ledger.reservations).toNat <
            (effectiveReservedMb (c.projected request ledger)).toNat →
          c.reserveMb.toNat ≤ (Saturating.sub system.availableMb
            (effectiveReservedMb (c.projected request ledger))).toNat) := by
  unfold acquire at h ⊢
  simp only at h ⊢
  split_ifs at h ⊢ with hlock hslots
  cases hmemory : host.memory with
  | error unreadable => simp [hmemory] at h
  | ok system =>
    simp only [hmemory] at h ⊢
    split_ifs at h ⊢ with hrefused
    cases h
    refine ⟨rfl, rfl, ?_, system, rfl, ?_⟩
    · intro hkind r hr hexclusive
      apply hlock
      refine ⟨hkind, ?_⟩
      apply ne_nil_of_mem (a := r.label)
      apply mem_map_of_mem
      exact mem_filter.mpr ⟨hr, beq_iff_eq.mpr hexclusive⟩
    · intro hadds
      by_contra hshort
      exact hrefused ⟨hadds, Nat.lt_of_not_le hshort⟩

theorem reservations_push (host : Host) (id : LeaseId)
    (request : MemoryLeaseRequest) (ledger : MemoryLedger) :
    (ledger.push (c.record host id request)).reservations = c.projected request ledger := by
  simp [MemoryLedger.push, MemoryLedger.reservations, projected, record,
    MemoryLeaseRecord.reservation]

/-- A reservation that leaves the figure fits beside what its owner's side asks for. -/
theorem held_of_unchanged (hfits : SumsFit (r :: rs))
    (h : effectiveReservedMb (r :: rs) = effectiveReservedMb rs) :
    asked r.owner r.kind.demandSide rs + r.reserved.toNat ≤ max (asked r.owner .job rs) (asked r.owner .worker rs) := by
  have hsame := congrArg BitVec.toNat h
  rw [toNat_effectiveReservedMb hfits.demand_lt, toNat_effectiveReservedMb hfits.of_cons.demand_lt] at hsame
  have howner := SharedDemand.demand_cons Reservation.reading r rs
  have hasked := asked_append_singleton r.owner r.kind.demandSide rs r
  rw [if_pos ⟨rfl, rfl⟩] at hasked
  have hmost (s : DemandSide) : asked r.owner s (rs ++ [r]) ≤ SharedDemand.owned Reservation.reading r.owner (r :: rs) := by
    unfold asked
    rw [SharedDemand.asked_perm _ (perm_append_singleton r rs)]
    cases s
    · exact le_max_left _ _
    · exact le_max_right _ _
  have hown := hmost r.kind.demandSide
  change demand _ + SharedDemand.owned _ r.owner rs = demand _ + SharedDemand.owned _ r.owner (r :: rs) at howner
  change _ ≤ SharedDemand.owned Reservation.reading r.owner rs
  omega

theorem acquire_within_reserve {c : HostMemoryCoordinator}
    {file : LedgerFile}
    {system : SystemMemory} (hmemory : host.memory = .ok system) (hreserve : 1 ≤ c.reserveMb.toNat)
    (hfits : SumsFit (c.projected request (afterPrune host file)))
    (h : (c.tryAcquireLease host id request file).1 = .ok lease) : lease = ⟨id, false⟩ ∧
      MemoryLedger.ofFile (c.tryAcquireLease host id request file).2 =
        ((afterPrune host file).push (c.record host id request)).rounded ∧
      (effectiveReservedMb (MemoryLedger.ofFile (c.tryAcquireLease host id request file).2).reservations
          = effectiveReservedMb (afterPrune host file).reservations ∧
        asked c.pid request.kind.demandSide (afterPrune host file).reservations + request.reservedMb.toNat ≤
          max (asked c.pid .job (afterPrune host file).reservations)
            (asked c.pid .worker (afterPrune host file).reservations) ∨
        (effectiveReservedMb
          (MemoryLedger.ofFile (c.tryAcquireLease host id request file).2).reservations).toNat +
          c.reserveMb.toNat ≤ system.availableMb.toNat) := by
  obtain ⟨hgranted, hfile⟩ := withLockedLedger_ok h
  obtain ⟨hlease, hpush, _, system', hmemory', hroom⟩ := acquire_granted hgranted
  have hsystem : system' = system := by
    rw [hmemory] at hmemory'
    cases hmemory'
    rfl
  have hafter : (MemoryLedger.ofFile (c.tryAcquireLease host id request file).2).reservations =
      c.projected request (afterPrune host file) := by
    rw [tryAcquireLease, hfile, reservations_rounded, hpush, reservations_push]
  refine ⟨hlease, hfile.trans (congrArg MemoryLedger.rounded hpush), ?_⟩
  rw [hafter]
  rw [hsystem, Saturating.toNat_sub] at hroom
  -- the projected list is the ledger's with one more reservation
  have hperm : (c.projected request (afterPrune host file)).Perm
      (⟨c.pid, request.kind, request.reservedMb⟩ :: (afterPrune host file).reservations) :=
    perm_append_singleton _ _
  have hcons : SumsFit (⟨c.pid, request.kind, request.reservedMb⟩ ::
      (afterPrune host file).reservations) := by
    have hsum := (hperm.map (fun r => r.reserved.toNat)).sum_eq
    unfold SumsFit at hfits ⊢
    omega
  have hgrows := (effectiveReservedMb_cons hcons).1
  rw [← effectiveReservedMb_perm hfits hperm] at hgrows
  by_cases hadds : (effectiveReservedMb (afterPrune host file).reservations).toNat <
      (effectiveReservedMb (c.projected request (afterPrune host file))).toNat
  · omega
  · have hsame : effectiveReservedMb (c.projected request (afterPrune host file)) =
        effectiveReservedMb (afterPrune host file).reservations := by
      apply BitVec.eq_of_toNat_eq
      omega
    exact .inl ⟨hsame, held_of_unchanged hcons ((effectiveReservedMb_perm hfits hperm).symm.trans hsame)⟩

end HostMemoryCoordinator

theorem toNat_smallerMb (a b : MemoryMb) : (smallerMb a b).toNat = min a.toNat b.toNat := by
  unfold smallerMb
  split <;> omega

theorem toNat_effectiveReserveMb (availableMb reserveMb : MemoryMb) :
    (effectiveReserveMb availableMb reserveMb).toNat = min reserveMb.toNat (availableMb.toNat / 4) := by
  rw [effectiveReserveMb, toNat_smallerMb, BitVec.toNat_udiv]
  rfl

theorem planFrom_eq_some {budget available reserve pending : MemoryMb} {n workers : ℕ}
    {reserved : MemoryMb} (h : planFrom budget available reserve pending n = some (workers, reserved)) :
    1 ≤ workers ∧ workers ≤ n ∧ reserved = Saturating.mul budget (BitVec.ofNat 64 workers) ∧
      reserve.toNat ≤ (Saturating.sub (Saturating.sub available pending) reserved).toNat ∧
      ∀ v, workers < v → v ≤ n → (Saturating.sub (Saturating.sub available pending)
          (Saturating.mul budget (BitVec.ofNat 64 v))).toNat < reserve.toNat := by
  induction n with
  | zero => simp [planFrom] at h
  | succ n ih =>
    rw [planFrom] at h
    split_ifs at h with hroom
    · cases h
      refine ⟨by omega, le_refl _, rfl, hroom, ?_⟩
      omega
    · obtain ⟨hone, hle, hreserved, hfits, hlargest⟩ := ih h
      refine ⟨hone, by omega, hreserved, hfits, ?_⟩
      intro v hv hvn
      by_cases hvlast : v = n + 1
      · rw [hvlast]
        exact Nat.lt_of_not_le hroom
      · exact hlargest v hv (by omega)

variable {requested : BitVec 64}

theorem planJobReservation_eq_some {budget available reserve pending reserved : MemoryMb} {workers : ℕ}
    (havailable : 4 ≤ available.toNat) (hreserve : 1 ≤ reserve.toNat)
    (h : planJobReservation requested budget available reserve pending = some (workers, reserved)) :
    1 ≤ workers ∧ workers ≤ requested.toNat ∧ reserved.toNat = workers * budget.toNat ∧
      pending.toNat + reserved.toNat + min reserve.toNat (available.toNat / 4) ≤ available.toNat ∧
      ∀ v, v ≤ requested.toNat →
        pending.toNat + v * budget.toNat + min reserve.toNat (available.toNat / 4) ≤
          available.toNat → v ≤ workers := by
  obtain ⟨hone, hle, hreserved, hroom, hlargest⟩ := planFrom_eq_some h
  have hcast (v : ℕ) (hv : v ≤ requested.toNat) : (BitVec.ofNat 64 v).toNat = v := by
    exact Nat.mod_eq_of_lt (lt_of_le_of_lt hv requested.isLt)
  rw [toNat_effectiveReserveMb, Saturating.toNat_sub, Saturating.toNat_sub] at hroom
  have hexact : reserved.toNat = workers * budget.toNat := by
    have hbelow : (Saturating.mul budget (BitVec.ofNat 64 workers)).toNat < available.toNat := by
      rw [← hreserved]
      omega
    rw [hreserved, Saturating.toNat_mul_of_lt hbelow, hcast workers hle, mul_comm]
  refine ⟨hone, hle, hexact, by omega, ?_⟩
  intro v hv hfits
  by_contra hmore
  have hshort := hlargest v (by omega) hv
  rw [toNat_effectiveReserveMb, Saturating.toNat_sub, Saturating.toNat_sub,
    Saturating.toNat_mul, hcast v hv, mul_comm] at hshort
  omega

namespace HostMemoryCoordinator

theorem planJob_refusesUnchanged (host : Host) (id : LeaseId)
    (spec : CommandSpec) (requested : BitVec 64) (label : String) :
    (c.planJob host id spec requested label).RefusesUnchanged := by
  intro ledger error h
  unfold planJob at h ⊢
  cases hmemory : host.memory with
  | error unreadable => rfl
  | ok system =>
    simp only [hmemory] at h ⊢
    cases hplan : planJobReservation requested (spec.perWorkerBudget system.totalMb)
        system.availableMb c.reserveMb (effectiveReservedMb ledger.reservations) with
    | none => rfl
    | some granted => simp [hplan] at h

theorem planJob_granted {c : HostMemoryCoordinator}
    {spec : CommandSpec} {label : String} {plan : JobExecutionPlan}
    (h : (c.planJob host id spec requested label ledger).1 = .ok plan) : plan.lease = ⟨id, false⟩ ∧
      (c.planJob host id spec requested label ledger).2 =
        ledger.push (c.jobRecord host id label plan.reservedMb) ∧ ∃ system, host.memory = .ok system ∧
        planJobReservation requested (spec.perWorkerBudget system.totalMb) system.availableMb
          c.reserveMb (effectiveReservedMb ledger.reservations) =
            some (plan.grantedWorkers, plan.reservedMb) := by
  unfold planJob at h ⊢
  cases hmemory : host.memory with
  | error unreadable => simp [hmemory] at h
  | ok system =>
    simp only [hmemory] at h ⊢
    cases hplan : planJobReservation requested (spec.perWorkerBudget system.totalMb)
        system.availableMb c.reserveMb (effectiveReservedMb ledger.reservations) with
    | none => simp [hplan] at h
    | some granted =>
      simp only [hplan] at h ⊢
      cases h
      exact ⟨rfl, rfl, system, rfl, hplan⟩

theorem reservations_push_job (host : Host) (id : LeaseId)
    (label : String) (reserved : MemoryMb) (ledger : MemoryLedger) :
    (ledger.push (c.jobRecord host id label reserved)).reservations =
      ledger.reservations ++ [⟨c.pid, .jobExecution, reserved⟩] := by
  simp [MemoryLedger.push, MemoryLedger.reservations, jobRecord, MemoryLeaseRecord.reservation]

theorem plan_within_reserve {c : HostMemoryCoordinator}
    {spec : CommandSpec} {label : String} {file : LedgerFile}
    {plan : JobExecutionPlan} {system : SystemMemory} (hmemory : host.memory = .ok system)
    (havailable : 4 ≤ system.availableMb.toNat) (hreserve : 1 ≤ c.reserveMb.toNat)
    (hfits : SumsFit (afterPrune host file).reservations)
    (h : (c.tryPlanJobExecution host id spec requested label file).1 = .ok plan) : plan.lease = ⟨id, false⟩ ∧
      MemoryLedger.ofFile (c.tryPlanJobExecution host id spec requested label file).2 =
        ((afterPrune host file).push (c.jobRecord host id label plan.reservedMb)).rounded ∧
    (1 ≤ plan.grantedWorkers ∧ plan.grantedWorkers ≤ requested.toNat) ∧ plan.reservedMb.toNat =
        plan.grantedWorkers * (spec.perWorkerBudget system.totalMb).toNat ∧
      (effectiveReservedMb (MemoryLedger.ofFile
          (c.tryPlanJobExecution host id spec requested label file).2).reservations).toNat +
        min c.reserveMb.toNat (system.availableMb.toNat / 4) ≤ system.availableMb.toNat ∧
      (∀ v, v ≤ requested.toNat → (effectiveReservedMb (afterPrune host file).reservations).toNat +
            v * (spec.perWorkerBudget system.totalMb).toNat +
          min c.reserveMb.toNat (system.availableMb.toNat / 4) ≤ system.availableMb.toNat →
        v ≤ plan.grantedWorkers) := by
  obtain ⟨hgranted, hfile⟩ := withLockedLedger_ok h
  obtain ⟨hlease, hpush, system', hmemory', hplan⟩ := planJob_granted hgranted
  have hsystem : system' = system := by
    rw [hmemory] at hmemory'
    cases hmemory'
    rfl
  rw [hsystem] at hplan
  obtain ⟨hone, hle, hreserved, hroom, hlargest⟩ :=
    planJobReservation_eq_some havailable hreserve hplan
  refine ⟨hlease, hfile.trans (congrArg MemoryLedger.rounded hpush), ⟨hone, hle⟩, hreserved, ?_, hlargest⟩
  have hafter : (MemoryLedger.ofFile
      (c.tryPlanJobExecution host id spec requested label file).2).reservations =
      (afterPrune host file).reservations ++ [⟨c.pid, .jobExecution, plan.reservedMb⟩] := by
    rw [tryPlanJobExecution, hfile, reservations_rounded, hpush, reservations_push_job]
  -- the new lease adds at most its own amount, which is what the plan made room for
  have hpending := toNat_effectiveReservedMb hfits.demand_lt
  have hgrows := SharedDemand.demand_cons_le Reservation.reading
    ⟨c.pid, .jobExecution, plan.reservedMb⟩ (afterPrune host file).reservations
  change demand (_ :: _) ≤ demand _ + plan.reservedMb.toNat at hgrows
  rw [← demand_append_singleton, ← hafter] at hgrows
  rw [toNat_effectiveReservedMb (by omega)]
  omega

end HostMemoryCoordinator

theorem dropLease_refusesUnchanged (id : LeaseId) : (dropLease id).RefusesUnchanged := by
  intro ledger error h
  cases h

theorem filter_id_eq_eraseP {leases : List MemoryLeaseRecord} (id : LeaseId)
    (hnodup : (leases.map MemoryLeaseRecord.id).Nodup) :
    leases.filter (fun lease => lease.id != id) = leases.eraseP (fun lease => lease.id == id) := by
  induction leases with
  | nil => rfl
  | cons lease rest ih =>
    rw [map_cons, nodup_cons] at hnodup
    by_cases hid : lease.id = id
    · have hkeep : rest.filter (fun lease => lease.id != id) = rest := by
        rw [filter_eq_self]
        intro other hother
        rw [bne_iff_ne]
        intro hother'
        apply hnodup.1
        rw [hid, ← hother']
        exact mem_map_of_mem hother
      simp [hid, hkeep]
    · simp [hid, ih hnodup.2]

theorem release_leases {pruned : Pruned} (hheld : lease.released = false)
    (h : pruneStaleLeases host (MemoryLedger.ofFile file) = .ok (pruned, ledger)) :
    (MemoryLedger.ofFile (lease.releaseInternal host file).2).leases =
      ledger.leases.filter (fun other => other.id != lease.leaseId) := by
  have hopen : ¬ lease.released = true := by simp [hheld]
  have hwhole := (whole_iff ledger).mp (prune_whole h)
  rw [HostMemoryLease.releaseInternal, if_neg hopen,
    ofFile_withLockedLedger (dropLease_refusesUnchanged _) h]
  calc ((dropLease lease.leaseId ledger).2.rounded).leases
      = (ledger.leases.filter (fun other => other.id != lease.leaseId)).map
          MemoryLeaseRecord.rounded := rfl
    _ = ledger.leases.filter (fun other => other.id != lease.leaseId) := by
        apply (map_congr_left _).trans (map_id _)
        intro other hother
        exact hwhole other (mem_of_mem_filter hother)

/-- Admission never over-commits, on every ledger whose sums fit in 64 bits: a grant is recorded, and fits
  in what its owner holds or leaves the reserve free; a plan takes as many workers as fit; a refusal
  changes nothing and a release removes its own. -/
theorem admission_never_overcommits (c : HostMemoryCoordinator) (host : Host)
    (file : LedgerFile) :
    (∀ rs ss : List Reservation, SumsFit rs → rs.Perm ss →
      effectiveReservedMb rs = effectiveReservedMb ss) ∧
    (∀ (r : Reservation) (rs : List Reservation), SumsFit (r :: rs) →
      (effectiveReservedMb rs).toNat ≤ (effectiveReservedMb (r :: rs)).toNat ∧
        (effectiveReservedMb (r :: rs)).toNat ≤ (effectiveReservedMb rs).toNat + r.reserved.toNat) ∧
    (∀ system, host.memory = .ok system → 4 ≤ system.availableMb.toNat → 1 ≤ c.reserveMb.toNat →
      (∀ id request lease, SumsFit (c.projected request (afterPrune host file)) →
        (c.tryAcquireLease host id request file).1 = .ok lease → lease = ⟨id, false⟩ ∧
        MemoryLedger.ofFile (c.tryAcquireLease host id request file).2 =
          ((afterPrune host file).push (c.record host id request)).rounded ∧
        (effectiveReservedMb
              (MemoryLedger.ofFile (c.tryAcquireLease host id request file).2).reservations
            = effectiveReservedMb (afterPrune host file).reservations ∧
          asked c.pid request.kind.demandSide (afterPrune host file).reservations + request.reservedMb.toNat ≤
            max (asked c.pid .job (afterPrune host file).reservations)
              (asked c.pid .worker (afterPrune host file).reservations) ∨
          (effectiveReservedMb
              (MemoryLedger.ofFile (c.tryAcquireLease host id request file).2).reservations).toNat +
            c.reserveMb.toNat ≤ system.availableMb.toNat)) ∧
      (∀ id spec requested label plan, SumsFit (afterPrune host file).reservations →
        (c.tryPlanJobExecution host id spec requested label file).1 = .ok plan → plan.lease = ⟨id, false⟩ ∧
        MemoryLedger.ofFile (c.tryPlanJobExecution host id spec requested label file).2 =
          ((afterPrune host file).push (c.jobRecord host id label plan.reservedMb)).rounded ∧
        (1 ≤ plan.grantedWorkers ∧ plan.grantedWorkers ≤ requested.toNat) ∧
        plan.reservedMb.toNat = plan.grantedWorkers * (spec.perWorkerBudget system.totalMb).toNat ∧
        (effectiveReservedMb (MemoryLedger.ofFile
            (c.tryPlanJobExecution host id spec requested label file).2).reservations).toNat +
          min c.reserveMb.toNat (system.availableMb.toNat / 4) ≤ system.availableMb.toNat ∧
        (∀ v, v ≤ requested.toNat →
          (effectiveReservedMb (afterPrune host file).reservations).toNat +
              v * (spec.perWorkerBudget system.totalMb).toNat +
            min c.reserveMb.toNat (system.availableMb.toNat / 4) ≤ system.availableMb.toNat →
          v ≤ plan.grantedWorkers))) ∧
    (∀ id request error, (c.tryAcquireLease host id request file).1 = .error error →
      MemoryLedger.ofFile (c.tryAcquireLease host id request file).2 = afterPrune host file) ∧
    (∀ id spec requested label error,
      (c.tryPlanJobExecution host id spec requested label file).1 = .error error →
      MemoryLedger.ofFile (c.tryPlanJobExecution host id spec requested label file).2 =
        afterPrune host file) ∧
    (∀ lease : HostMemoryLease, lease.released = false → ∀ pruned ledger,
      pruneStaleLeases host (MemoryLedger.ofFile file) = .ok (pruned, ledger) →
      (MemoryLedger.ofFile (lease.releaseInternal host file).2).leases =
          ledger.leases.filter (fun other => other.id != lease.leaseId) ∧
        ((ledger.leases.map MemoryLeaseRecord.id).Nodup →
          (MemoryLedger.ofFile (lease.releaseInternal host file).2).leases =
            ledger.leases.eraseP (fun other => other.id == lease.leaseId))) := by
  refine ⟨fun rs ss => effectiveReservedMb_perm, fun r rs => effectiveReservedMb_cons,
    ?_, ?_, ?_, ?_⟩
  · intro system hmemory havailable hreserve
    constructor
    · intro id request lease hfits hgranted
      exact c.acquire_within_reserve hmemory hreserve hfits hgranted
    · intro id spec requested label plan hfits hgranted
      exact c.plan_within_reserve hmemory havailable hreserve hfits hgranted
  · intro id request error hrefused
    exact withLockedLedger_error (c.acquire_refusesUnchanged host id request) hrefused
  · intro id spec requested label error hrefused
    exact withLockedLedger_error (c.planJob_refusesUnchanged host id spec requested label)
      hrefused
  · intro lease hheld pruned ledger hprune
    have hleases := release_leases hheld hprune
    refine ⟨hleases, ?_⟩
    intro hnodup
    rw [hleases, filter_id_eq_eraseP _ hnodup]

def laptop : Host where
  processes := .ok (fun _ => true)
  memory := .ok ⟨15989, 14000⟩
  now := 0

def laptopCoordinator : HostMemoryCoordinator := ⟨1, 8000, 4⟩

/-- On the laptop's empty ledger 6000 MB leave exactly the reserve, and a plan of four workers at 3000 MB gets
  three. -/
theorem admission_never_overcommits_laptop :
    MemoryLedger.ofFile (laptopCoordinator.tryAcquireLease laptop 1 ⟨.workerStartup, 6000, "boundary", none⟩ []).2 =
      ((afterPrune laptop []).push (laptopCoordinator.record laptop 1 ⟨.workerStartup, 6000, "boundary", none⟩)).rounded ∧
    (effectiveReservedMb (MemoryLedger.ofFile (laptopCoordinator.tryPlanJobExecution laptop 2
      ⟨some .stanza, 18000⟩ 4 "job" []).2).reservations).toNat + min 8000 (14000 / 4) ≤ 14000 := by
  have h := (admission_never_overcommits laptopCoordinator laptop []).2.2.1 ⟨15989, 14000⟩ rfl
    (by decide) (by decide)
  refine ⟨(h.1 1 ⟨.workerStartup, 6000, "boundary", none⟩ ⟨1, false⟩ (by decide) (by decide)).2.1, ?_⟩
  exact (h.2 2 ⟨some .stanza, 18000⟩ 4 "job" ⟨3, 4, ⟨2, false⟩, 9000⟩ (by decide)
    (by decide)).2.2.2.2.1

end HostMemory
