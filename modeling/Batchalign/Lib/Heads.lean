import Mathlib.Logic.Relation
import Mathlib.Data.List.Nodup

/-
  Following heads

  A table names at most one head for each node: `next i` is the head of `i`, or `none`
  where `i` has none. From a node the heads either end or come back to a node they passed.
-/
namespace Heads

variable {ι : Type*}

/-- From `i` the heads end. -/
inductive Ends (next : ι → Option ι) : ι → Prop where
  | here {i : ι} (h : next i = none) : Ends next i
  | step {i j : ι} (h : next i = some j) (hj : Ends next j) : Ends next i

/-- `j` is `i` or is met on the way from it. -/
def Leads (next : ι → Option ι) : ι → ι → Prop :=
  Relation.ReflTransGen (fun a b => next a = some b)

/-- `j` is met after at least one step from `i`. -/
def LeadsOn (next : ι → Option ι) : ι → ι → Prop :=
  Relation.TransGen (fun a b => next a = some b)

variable {next : ι → Option ι}

variable {i j : ι}

theorem Ends.of_step (hi : Ends next i) (h : next i = some j) : Ends next j := by
  cases hi with
  | here hnone =>
    rw [h] at hnone
    cases hnone
  | step hsome hj =>
    rw [h, Option.some.injEq] at hsome
    rw [hsome]
    exact hj

theorem Ends.of_leadsOn (h : LeadsOn next i j) (hj : Ends next j) : Ends next i := by
  induction h using Relation.TransGen.head_induction_on with
  | single h => exact .step h hj
  | head h _ ih => exact .step h ih

theorem Ends.of_leads (h : Leads next i j) (hj : Ends next j) : Ends next i := by
  induction h using Relation.ReflTransGen.head_induction_on with
  | refl => exact hj
  | head h _ ih => exact .step h ih

theorem Ends.not_leadsOn_self (h : Ends next i) : ¬ LeadsOn next i i := by
  induction h with
  | here hnone =>
    intro hcycle
    obtain ⟨j, hj, -⟩ := Relation.TransGen.head'_iff.mp hcycle
    rw [hnone] at hj
    cases hj
  | step hstep hend ih =>
    intro hcycle
    obtain ⟨j, hj, hback⟩ := Relation.TransGen.head'_iff.mp hcycle
    cases hstep.symm.trans hj
    exact ih (Relation.TransGen.tail' hback hstep)

theorem LeadsOn.cons {path : List ι} (hpath : ∀ k ∈ path, LeadsOn next k i)
    (h : next i = some j) : ∀ k ∈ i :: path, LeadsOn next k j := by
  intro k hk
  obtain rfl | hk := List.mem_cons.mp hk
  · exact .single h
  · exact .tail (hpath k hk) h

structure Table (ι : Type*) where
  nodes : List ι
  next : ι → Option ι
  listed : ∀ i j, next i = some j → i ∈ nodes

namespace Table

variable [DecidableEq ι]

/-- The heads followed from `i`: the nodes known to end, or the first node met twice. -/
def follow (t : Table ι) (safe path : List ι) (i : ι) : Except ι (List ι) :=
  if i ∈ safe then .ok (path ++ safe)
  else if i ∈ path then .error i
  else
    match t.next i with
    | none => .ok (i :: path ++ safe)
    | some j =>
      -- a node outside the list has no head, so the way is bounded by the list
      if i ∈ t.nodes then follow t safe (i :: path) j else .ok (i :: path ++ safe)
termination_by (t.nodes.filter (fun k => k ∉ path)).length
decreasing_by
  have hpath : i ∉ path := by assumption
  have hnode : i ∈ t.nodes := by assumption
  have hsub : (t.nodes.filter (fun k => decide (k ∉ i :: path))).Sublist
      (t.nodes.filter (fun k => decide (k ∉ path))) := by
    apply List.monotone_filter_right
    intro k hk
    simp only [List.mem_cons, not_or, decide_eq_true_eq] at hk ⊢
    exact hk.2
  refine Nat.lt_of_le_of_ne hsub.length_le ?_
  intro hlen
  have hmem : i ∈ t.nodes.filter (fun k => decide (k ∉ i :: path)) := by
    rw [hsub.eq_of_length hlen]
    exact List.mem_filter.mpr ⟨hnode, by simpa using hpath⟩
  simp at hmem

def firstCycle (t : Table ι) (safe : List ι) : List ι → Option ι
  | [] => none
  | i :: rest =>
    if i ∈ safe then firstCycle t safe rest
    else
      match t.follow safe [] i with
      | .error k => some k
      | .ok safe => firstCycle t safe rest

variable (t : Table ι)

variable {i : ι} {path safe : List ι}

theorem follow_some {j : ι} (hsafe : i ∉ safe) (hpath : i ∉ path)
    (h : t.next i = some j) : t.follow safe path i = t.follow safe (i :: path) j := by
  rw [follow, if_neg hsafe, if_neg hpath, h]
  simp [t.listed i j h]

theorem follow_ok {safe' : List ι}
    (h : t.follow safe path i = .ok safe') (hsafe : ∀ k ∈ safe, Ends t.next k)
    (hpath : ∀ k ∈ path, LeadsOn t.next k i) : Ends t.next i ∧ ∀ k ∈ safe', Ends t.next k := by
  induction path, i using follow.induct t safe with
  | case1 path i hi =>
    rw [follow, if_pos hi] at h
    cases h
    refine ⟨hsafe i hi, ?_⟩
    intro k hk
    obtain hk | hk := List.mem_append.mp hk
    · exact .of_leadsOn (hpath k hk) (hsafe i hi)
    · exact hsafe k hk
  | case2 path i hi hcycle =>
    rw [follow, if_neg hi, if_pos hcycle] at h
    cases h
  | case3 path i hi hpath' hnone =>
    rw [follow, if_neg hi, if_neg hpath', hnone] at h
    cases h
    refine ⟨.here hnone, ?_⟩
    intro k hk
    obtain hk | hk := List.mem_append.mp hk
    · obtain rfl | hk := List.mem_cons.mp hk
      · exact .here hnone
      · exact .of_leadsOn (hpath k hk) (.here hnone)
    · exact hsafe k hk
  | case4 path i hi hpath' j hj hnode ih =>
    rw [t.follow_some hi hpath' hj] at h
    obtain ⟨hend, hall⟩ := ih h (LeadsOn.cons hpath hj)
    exact ⟨.step hj hend, hall⟩
  | case5 path i hi hpath' j hj hnode => exact absurd (t.listed i j hj) hnode

theorem follow_error {k : ι} (h : t.follow safe path i = .error k)
    (hpath : ∀ k ∈ path, LeadsOn t.next k i) : ¬ Ends t.next i := by
  induction path, i using follow.induct t safe with
  | case1 path i hi =>
    rw [follow, if_pos hi] at h
    cases h
  | case2 path i hi hcycle =>
    intro hend
    exact hend.not_leadsOn_self (hpath i hcycle)
  | case3 path i hi hpath' hnone =>
    rw [follow, if_neg hi, if_neg hpath', hnone] at h
    cases h
  | case4 path i hi hpath' j hj hnode ih =>
    rw [t.follow_some hi hpath' hj] at h
    intro hend
    exact ih h (LeadsOn.cons hpath hj) (hend.of_step hj)
  | case5 path i hi hpath' j hj hnode => exact absurd (t.listed i j hj) hnode

theorem firstCycle_eq_none_iff (hsafe : ∀ k ∈ safe, Ends t.next k)
    (starts : List ι) : t.firstCycle safe starts = none ↔ ∀ i ∈ starts, Ends t.next i := by
  induction starts generalizing safe with
  | nil => simp [firstCycle]
  | cons i starts ih =>
    rw [List.forall_mem_cons, firstCycle]
    by_cases hi : i ∈ safe
    · rw [if_pos hi, ih hsafe]
      exact (and_iff_right (hsafe i hi)).symm
    · rw [if_neg hi]
      cases hfollow : t.follow safe [] i with
      | error k =>
        have hcycle := t.follow_error hfollow (by simp)
        simp [hcycle]
      | ok safe' =>
        obtain ⟨hend, hall⟩ := t.follow_ok hfollow hsafe (by simp)
        rw [ih hall]
        exact (and_iff_right hend).symm

end Table

end Heads
