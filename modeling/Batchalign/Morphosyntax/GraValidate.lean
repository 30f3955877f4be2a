import Batchalign.Morphosyntax.TreePreserved

/-
  What the validator accepts — `morphosyntax/gra_validate.rs`

  Correspondence (Rust ↔ Lean): `validateFromScratch` is `validate_generated_gra` with
  each chain walked without `safe`; it is not in the source.
-/
namespace Heads.Table
open List

variable {ι : Type*} [DecidableEq ι] (t : Table ι) {safe path : List ι}

/-- The node met twice on the way from `i`, nothing known beforehand. -/
def cycleFrom (i : ι) : Option ι :=
  match t.follow [] [] i with
  | .error k => some k
  | .ok _ => none

theorem cycleFrom_of_ends {i : ι} (h : Ends t.next i) : t.cycleFrom i = none := by
  unfold cycleFrom
  cases hfollow : t.follow [] [] i with
  | ok safe' => rfl
  | error k => exact absurd h (t.follow_error hfollow (by simp))

theorem follow_from_scratch {i : ι} (hsafe : ∀ k ∈ safe, Ends t.next k)
    (h : ¬ Ends t.next i) : t.follow safe path i = t.follow [] path i := by
  induction path, i using follow.induct t safe with
  | case1 path i hi => exact absurd (hsafe i hi) h
  | case2 path i hi hcycle =>
    rw [follow, if_neg hi, if_pos hcycle, follow, if_neg not_mem_nil, if_pos hcycle]
  | case3 path i hi hpath hnone => exact absurd (.here hnone) h
  | case4 path i hi hpath j hj hnode ih =>
    rw [t.follow_some hi hpath hj, t.follow_some not_mem_nil hpath hj]
    exact ih (fun hend => h (.step hj hend))
  | case5 path i hi hpath j hj hnode => exact absurd (t.listed i j hj) hnode

theorem firstCycle_from_scratch (hsafe : ∀ k ∈ safe, Ends t.next k) (starts : List ι) :
    t.firstCycle safe starts = starts.findSome? t.cycleFrom := by
  induction starts generalizing safe with
  | nil => rfl
  | cons i starts ih =>
    rw [firstCycle, findSome?_cons]
    by_cases hi : i ∈ safe
    · rw [if_pos hi, ih hsafe, t.cycleFrom_of_ends (hsafe i hi)]
    · rw [if_neg hi]
      cases hfollow : t.follow safe [] i with
      | ok safe' =>
        obtain ⟨hend, hall⟩ := t.follow_ok hfollow hsafe (by simp)
        rw [t.cycleFrom_of_ends hend]
        exact ih hall
      | error k =>
        have hcycle := t.follow_error hfollow (by simp)
        rw [t.follow_from_scratch hsafe hcycle] at hfollow
        simp [cycleFrom, hfollow]

end Heads.Table

namespace Batchalign.Morphosyntax
open List

variable {R E : Type} {L : RelationTypes R} {gras : List (GrammaticalRelation R)}

def validateFromScratch (L : RelationTypes R) (gras : List (GrammaticalRelation R)) :
    Except (MappingError E) Unit :=
  if gras.isEmpty then .ok ()
  else
    match nonTerminatorRoots L gras with
    | [] => .error (.invalidRoot ("no ROOT relation. GRA: " ++ L.debug gras))
    | [_] =>
      match (gras.map GrammaticalRelation.index).findSome? (headTable L gras).cycleFrom with
      | some word =>
        .error (.circularDependency ("involving word " ++ toString word ++ ". GRA: " ++
          L.debug gras))
      | none =>
        match gras.find? (fun rel => rel.head != 0 && decide (gras.length < rel.head)) with
        | some rel =>
          .error (.invalidHeadReference ("word " ++ toString rel.index ++
            " points to non-existent word " ++ toString rel.head ++ ". GRA: " ++ L.debug gras))
        | none => .ok ()
    | roots =>
      .error (.invalidRoot ("multiple ROOT relations: " ++ toString roots ++ ". GRA: " ++
        L.debug gras))

/-- From a relation the heads end at a root, without coming back to a number seen. -/
inductive ReachesRoot (L : RelationTypes R) (gras : List (GrammaticalRelation R)) :
    List ℕ → GrammaticalRelation R → Prop where
  | root {seen : List ℕ} {rel : GrammaticalRelation R} (h : isRoot L rel) :
      ReachesRoot L gras seen rel
  | head {seen : List ℕ} {rel parent : GrammaticalRelation R} (hroot : ¬ isRoot L rel)
      (hparent : parent ∈ gras) (hindex : parent.index = rel.head)
      (hnew : parent.index ∉ rel.index :: seen)
      (h : ReachesRoot L gras (rel.index :: seen) parent) : ReachesRoot L gras seen rel

/-- The relations are numbered in order from 1. -/
def Numbered (gras : List (GrammaticalRelation R)) : Prop :=
  gras.map GrammaticalRelation.index = range' 1 gras.length

variable {rel : GrammaticalRelation R}

theorem Numbered.headTable_next (h : Numbered gras) (hrel : rel ∈ gras) :
    (headTable L gras).next rel.index = if isRoot L rel then none else some rel.head := by
  have hnodup : (gras.map GrammaticalRelation.index).Nodup := by
    rw [h]
    exact nodup_range'
  have hfind : gras.find? (fun r => r.index == rel.index) = some rel := by
    cases hsome : gras.find? (fun r => r.index == rel.index) with
    | none => simpa using find?_eq_none.mp hsome rel hrel
    | some r =>
      have hindex := find?_some hsome
      rw [beq_iff_eq] at hindex
      rw [inj_on_of_nodup_map hnodup (mem_of_find?_eq_some hsome) hrel hindex]
  simp only [headTable, hfind]

theorem Numbered.exists_of_le (h : Numbered gras) {k : ℕ} (hpos : k ≠ 0)
    (hle : k ≤ gras.length) : ∃ rel ∈ gras, rel.index = k := by
  have hmem : k ∈ gras.map GrammaticalRelation.index := by
    rw [h, mem_range'_1]
    omega
  exact mem_map.mp hmem

theorem ReachesRoot.ends (hnum : Numbered gras) {seen : List ℕ}
    (h : ReachesRoot L gras seen rel) (hrel : rel ∈ gras) :
    Heads.Ends (headTable L gras).next rel.index := by
  induction h with
  | root hroot => exact .here (by rw [hnum.headTable_next hrel, if_pos hroot])
  | head hroot hparent hindex _ _ ih =>
    refine .step ?_ (ih hparent)
    rw [hnum.headTable_next hrel, if_neg hroot, hindex]

theorem reachesRoot_of_ends (hnum : Numbered gras) (hheads : ∀ rel ∈ gras, rel.head ≤ gras.length) {k : ℕ}
    (h : Heads.Ends (headTable L gras).next k) (seen : List ℕ)
    (hseen : ∀ j ∈ seen, Heads.LeadsOn (headTable L gras).next j k) (hrel : rel ∈ gras) (hk : rel.index = k) :
    ReachesRoot L gras seen rel := by
  induction h generalizing seen rel with
  | @here k hnone =>
    rw [← hk, hnum.headTable_next hrel] at hnone
    by_cases hroot : isRoot L rel
    · exact .root hroot
    · simp [hroot] at hnone
  | @step k j hstep hend ih =>
    subst hk
    have hnext := hstep
    rw [hnum.headTable_next hrel] at hnext
    by_cases hroot : isRoot L rel
    · exact .root hroot
    · rw [if_neg hroot, Option.some.injEq] at hnext
      have hzero : rel.head ≠ 0 := fun hzero => hroot (by simp [isRoot, hzero])
      obtain ⟨parent, hparent, hindex⟩ := hnum.exists_of_le hzero (hheads rel hrel)
      have hseen' := Heads.LeadsOn.cons hseen hstep
      have hj : parent.index = j := hindex.trans hnext
      refine .head hroot hparent hindex ?_ (ih _ hseen' hparent hj)
      intro hmem
      rw [hj] at hmem
      exact hend.not_leadsOn_self (hseen' j hmem)

theorem Numbered.length_nonTerminatorRoots (h : Numbered gras) :
    (nonTerminatorRoots L gras).length = gras.dropLast.countP (isRoot L) := by
  obtain rfl | ⟨init, last, rfl⟩ := gras.eq_nil_or_concat'
  · rfl
  have hlen : (init ++ [last]).length = init.length + 1 := by simp
  rw [Numbered, hlen, range'_concat, map_append] at h
  obtain ⟨hinit, hlast⟩ := append_inj' h rfl
  simp only [map_cons, map_nil, cons.injEq, and_true] at hlast
  have hne : ∀ rel ∈ init, (rel.index != (init ++ [last]).length) = true := by
    intro rel hrel
    have hmem := mem_map_of_mem (f := GrammaticalRelation.index) hrel
    rw [hinit, mem_range'_1] at hmem
    rw [hlen, bne_iff_ne]
    omega
  have hkept : ((init.filter (isRoot L)).map GrammaticalRelation.index).filter
      (fun k => k != (init ++ [last]).length) =
        (init.filter (isRoot L)).map GrammaticalRelation.index := by
    rw [filter_eq_self]
    intro k hk
    obtain ⟨rel, hrel, rfl⟩ := mem_map.mp hk
    exact hne rel (mem_filter.mp hrel).1
  have hend : (([last].filter (isRoot L)).map GrammaticalRelation.index).filter
      (fun k => k != (init ++ [last]).length) = [] := by
    cases hroot : isRoot L last with
    | true => simp [hroot, hlast, hlen, Nat.add_comm]
    | false => simp [hroot]
  rw [nonTerminatorRoots, filter_append, map_append, filter_append, hkept, hend, append_nil,
    length_map, dropLast_concat, countP_eq_length_filter]

/-- The validator accepts exactly the trees, as with every chain walked from scratch. -/
theorem validateGeneratedGra_tree_iff (hnum : Numbered gras) :
    (validateGeneratedGra (E := E) L gras = .ok () ↔
      gras = [] ∨ (∀ rel ∈ gras, rel.head ≤ gras.length) ∧
        gras.dropLast.countP (isRoot L) = 1 ∧ ∀ rel ∈ gras, ReachesRoot L gras [] rel) ∧
    validateGeneratedGra (E := E) L gras = validateFromScratch L gras := by
  constructor
  · by_cases hne : gras = []
    · simp [hne, validateGeneratedGra]
    rw [validateGeneratedGra_iff hne, or_iff_right hne, ← hnum.length_nonTerminatorRoots,
      ← length_eq_one_iff]
    constructor
    · rintro ⟨hone, hends, hheads⟩
      exact ⟨hheads, hone, fun rel hrel =>
        reachesRoot_of_ends hnum hheads (hends rel hrel) [] (by simp) hrel rfl⟩
    · rintro ⟨hheads, hone, hreach⟩
      exact ⟨hone, fun rel hrel => (hreach rel hrel).ends hnum hrel, hheads⟩
  · have hcycle : hasAnyCycleGenerated L gras =
        (gras.map GrammaticalRelation.index).findSome? (headTable L gras).cycleFrom :=
      Heads.Table.firstCycle_from_scratch _ (by simp) _
    unfold validateGeneratedGra validateFromScratch
    exact hcycle ▸ rfl

def underItsRoot : List (GrammaticalRelation String) :=
  [⟨1, 2, "DET"⟩, ⟨2, 0, "ROOT"⟩, ⟨3, 2, "PUNCT"⟩]

theorem under_its_root_tree_iff :
    validateGeneratedGra (E := String) plainMapping.relations underItsRoot = .ok () := by
  have hnum : Numbered underItsRoot := rfl
  refine (validateGeneratedGra_tree_iff hnum).1.mpr (.inr ⟨by decide, by decide, ?_⟩)
  have hroot : ∀ seen, ReachesRoot plainMapping.relations underItsRoot seen ⟨2, 0, "ROOT"⟩ :=
    fun _ => .root (by decide)
  intro rel hrel
  simp only [underItsRoot, mem_cons, not_mem_nil, or_false] at hrel
  obtain rfl | rfl | rfl := hrel
  · exact .head (by decide) (by simp [underItsRoot]) rfl (by simp) (hroot _)
  · exact hroot _
  · exact .head (by decide) (by simp [underItsRoot]) rfl (by simp) (hroot _)

end Batchalign.Morphosyntax
