import Mathlib.Tactic

/- Demand shared by the two sides of each owner. What one side asks for covers what the other does, so
   an owner's demand is the larger side (`owned`), and that of a list of claims the sum over its owners
   (`demand`). -/
namespace SharedDemand
open List

structure Reading (ρ ω : Type*) where
  owner : ρ → ω
  side : ρ → Bool
  amount : ρ → ℕ

variable {ρ ω : Type*} [DecidableEq ω] (rd : Reading ρ ω)

def asked (o : ω) (b : Bool) (rs : List ρ) : ℕ :=
  ((rs.filter (fun r => decide (rd.owner r = o) && rd.side r == b)).map rd.amount).sum

def owned (o : ω) (rs : List ρ) : ℕ :=
  max (asked rd o true rs) (asked rd o false rs)

def demand (rs : List ρ) : ℕ :=
  ∑ o ∈ (rs.map rd.owner).toFinset, owned rd o rs

variable (o : ω) (b : Bool)

@[simp]
theorem asked_nil : asked rd o b [] = 0 := rfl

variable (r : ρ)

theorem asked_cons (rs : List ρ) : asked rd o b (r :: rs) =
      (if rd.owner r = o ∧ rd.side r = b then rd.amount r else 0) + asked rd o b rs := by
  by_cases h : rd.owner r = o ∧ rd.side r = b
  · simp [asked, h.1, h.2]
  · have hkeep : (decide (rd.owner r = o) && rd.side r == b) = false := by
      rw [Bool.eq_false_iff]
      intro hb
      rw [Bool.and_eq_true, decide_eq_true_eq, beq_iff_eq] at hb
      exact h hb
    simp [asked, hkeep, h]

theorem asked_append (rs ss : List ρ) : asked rd o b (rs ++ ss) = asked rd o b rs + asked rd o b ss := by
  simp [asked, filter_append]

variable {rs : List ρ}

theorem asked_perm {ss : List ρ} (h : rs.Perm ss) (o : ω) (b : Bool) :
    asked rd o b rs = asked rd o b ss :=
  ((h.filter _).map _).sum_eq

theorem asked_eq_zero {o : ω} (h : o ∉ rs.map rd.owner) (b : Bool) : asked rd o b rs = 0 := by
  induction rs with
  | nil => rfl
  | cons r rs ih =>
    rw [map_cons, mem_cons, not_or] at h
    have hne : ¬ (rd.owner r = o ∧ rd.side r = b) := fun hr => h.1 hr.1.symm
    rw [asked_cons, if_neg hne, ih h.2]

theorem owned_eq_zero {o : ω} (h : o ∉ rs.map rd.owner) : owned rd o rs = 0 := by
  rw [owned, asked_eq_zero rd h, asked_eq_zero rd h, max_self]

theorem demand_eq_sum {s : Finset ω} (h : (rs.map rd.owner).toFinset ⊆ s) :
    demand rd rs = ∑ o ∈ s, owned rd o rs := by
  apply Finset.sum_subset h
  intro o _ ho
  exact owned_eq_zero rd (fun hmem => ho (mem_toFinset.mpr hmem))

theorem demand_perm {ss : List ρ} (h : rs.Perm ss) : demand rd rs = demand rd ss := by
  have howners : (rs.map rd.owner).toFinset = (ss.map rd.owner).toFinset :=
    toFinset_eq_of_perm _ _ (h.map _)
  unfold demand
  rw [howners]
  apply Finset.sum_congr rfl
  intro o _
  rw [owned, owned, asked_perm rd h, asked_perm rd h]

section
variable (rs : List ρ)

theorem owned_cons_le :
    owned rd o (r :: rs) ≤ owned rd o rs + (if o = rd.owner r then rd.amount r else 0) := by
  by_cases ho : o = rd.owner r
  · rw [if_pos ho, owned, owned, asked_cons, asked_cons]
    split_ifs <;> omega
  · have hne (b : Bool) : ¬ (rd.owner r = o ∧ rd.side r = b) := fun hr => ho hr.1.symm
    rw [if_neg ho, owned, owned, asked_cons, asked_cons, if_neg (hne true), if_neg (hne false)]
    omega

theorem owned_le_owned_cons : owned rd o rs ≤ owned rd o (r :: rs) := by
  rw [owned, owned, asked_cons, asked_cons]
  omega

theorem subset_owners_cons : (rs.map rd.owner).toFinset ⊆ ((r :: rs).map rd.owner).toFinset := by
  intro o ho
  rw [mem_toFinset] at ho ⊢
  exact mem_cons_of_mem _ ho

/-- One more claim lowers nothing. -/
theorem le_demand_cons : demand rd rs ≤ demand rd (r :: rs) := by
  rw [demand_eq_sum rd (subset_owners_cons rd r rs), demand]
  exact Finset.sum_le_sum (fun o _ => owned_le_owned_cons rd o r rs)

/-- A claim moves only its own owner's share. -/
theorem demand_cons : demand rd (r :: rs) + owned rd (rd.owner r) rs =
    demand rd rs + owned rd (rd.owner r) (r :: rs) := by
  have howner : rd.owner r ∈ ((r :: rs).map rd.owner).toFinset := by simp
  rw [demand_eq_sum rd (subset_owners_cons rd r rs), demand, ← Finset.add_sum_erase _ _ howner,
    ← Finset.add_sum_erase _ (fun o => owned rd o rs) howner]
  have hothers : ∑ o ∈ ((r :: rs).map rd.owner).toFinset.erase (rd.owner r), owned rd o (r :: rs) =
      ∑ o ∈ ((r :: rs).map rd.owner).toFinset.erase (rd.owner r), owned rd o rs := by
    apply Finset.sum_congr rfl
    intro o ho
    have hle := owned_cons_le rd o r rs
    rw [if_neg (Finset.ne_of_mem_erase ho), add_zero] at hle
    exact le_antisymm hle (owned_le_owned_cons rd o r rs)
  omega

theorem demand_cons_le : demand rd (r :: rs) ≤ demand rd rs + rd.amount r := by
  have howner : rd.owner r ∈ ((r :: rs).map rd.owner).toFinset := by simp
  calc demand rd (r :: rs)
      ≤ ∑ o ∈ ((r :: rs).map rd.owner).toFinset,
          (owned rd o rs + (if o = rd.owner r then rd.amount r else 0)) :=
        Finset.sum_le_sum (fun o _ => owned_cons_le rd o r rs)
    _ = demand rd rs + rd.amount r := by
        rw [Finset.sum_add_distrib, Finset.sum_ite_eq' _ _, if_pos howner,
          ← demand_eq_sum rd (subset_owners_cons rd r rs)]

theorem asked_le_demand : asked rd o b rs ≤ demand rd rs := by
  by_cases ho : o ∈ rs.map rd.owner
  · calc asked rd o b rs
        ≤ owned rd o rs := by cases b <;> simp [owned]
      _ ≤ demand rd rs :=
          Finset.single_le_sum (f := fun o => owned rd o rs) (fun _ _ => Nat.zero_le _)
            (mem_toFinset.mpr ho)
  · rw [asked_eq_zero rd ho]
    exact Nat.zero_le _

theorem demand_le_sum : demand rd rs ≤ (rs.map rd.amount).sum := by
  induction rs with
  | nil => exact le_refl _
  | cons r rs ih =>
    rw [map_cons, sum_cons]
    have hr := demand_cons_le rd r rs
    omega

end

end SharedDemand
