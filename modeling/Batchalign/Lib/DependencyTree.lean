import Mathlib.Data.List.Perm.Basic
import Batchalign.Lib.Heads

/- Dependency trees. A structure is a list of labelled nodes under distinct identities, each with a head
   among the others or none; it is a tree when it has one root and every node leads to it. Nodes are
   numbered by place, and `renumber` goes between two numberings. -/
namespace DependencyTree
open List

variable {ι ρ : Type*}

structure Node (ι ρ : Type*) where
  id : ι
  head : Option ι
  label : ρ

structure WellHeaded (nodes : List (Node ι ρ)) : Prop where
  nodup : (nodes.map Node.id).Nodup
  closed : ∀ v ∈ nodes, ∀ h, v.head = some h → ∃ u ∈ nodes, u.id = h

variable {nodes nodes' : List (Node ι ρ)}

variable {v : Node ι ρ}

theorem WellHeaded.eq_of_id (h : WellHeaded nodes) {u : Node ι ρ} (hu : u ∈ nodes)
    (hv : v ∈ nodes) (hid : u.id = v.id) : u = v :=
  inj_on_of_nodup_map h.nodup hu hv hid

theorem WellHeaded.perm (h : WellHeaded nodes) (hperm : nodes.Perm nodes') : WellHeaded nodes' where
  nodup := (hperm.map Node.id).nodup_iff.mp h.nodup
  closed := by
    intro v hv i hi
    obtain ⟨u, hu, hid⟩ := h.closed v (hperm.mem_iff.mpr hv) i hi
    exact ⟨u, hperm.mem_iff.mp hu, hid⟩

variable [DecidableEq ι]

def headOf (nodes : List (Node ι ρ)) (i : ι) : Option ι :=
  (nodes.find? (fun v => decide (v.id = i))).bind Node.head

def IsTree (nodes : List (Node ι ρ)) : Prop :=
  ∃ root ∈ nodes, root.head = none ∧ (∀ v ∈ nodes, v.head = none → v = root) ∧
    ∀ v ∈ nodes, Heads.Leads (headOf nodes) v.id root.id

def position (nodes : List (Node ι ρ)) (i : ι) : Nat :=
  nodes.findIdx (fun v => decide (v.id = i)) + 1

def headNumber (nodes : List (Node ι ρ)) (v : Node ι ρ) : Nat :=
  v.head.elim 0 (position nodes)

def renumber (nodes nodes' : List (Node ι ρ)) (k : Nat) : Nat :=
  if k = 0 then 0 else (nodes[k - 1]?).elim k (fun v => position nodes' v.id)

theorem WellHeaded.find (h : WellHeaded nodes) (hv : v ∈ nodes) :
    nodes.find? (fun u => decide (u.id = v.id)) = some v := by
  obtain ⟨u, hu⟩ : ∃ u, nodes.find? (fun u => decide (u.id = v.id)) = some u := by
    apply Option.isSome_iff_exists.mp
    rw [find?_isSome]
    exact ⟨v, hv, by simp⟩
  have hid := find?_some hu
  rw [hu, h.eq_of_id (mem_of_find?_eq_some hu) hv (by simpa using hid)]

@[simp] theorem WellHeaded.headOf (h : WellHeaded nodes) (hv : v ∈ nodes) :
    headOf nodes v.id = v.head := by
  simp [DependencyTree.headOf, h.find hv]

theorem position_pos (i : ι) : 0 < position nodes i := Nat.succ_pos _

theorem position_le (hv : v ∈ nodes) : position nodes v.id ≤ nodes.length := by
  unfold position
  have hlt : nodes.findIdx (fun u => decide (u.id = v.id)) < nodes.length :=
    findIdx_lt_length_of_exists ⟨v, hv, by simp⟩
  omega

section
variable (h : WellHeaded nodes)
include h

theorem getElem?_position (hv : v ∈ nodes) : nodes[position nodes v.id - 1]? = some v := by
  unfold position
  rw [Nat.add_sub_cancel]
  have hlt : nodes.findIdx (fun u => decide (u.id = v.id)) < nodes.length :=
    findIdx_lt_length_of_exists ⟨v, hv, by simp⟩
  have hid := findIdx_getElem (p := fun u : Node ι ρ => decide (u.id = v.id)) (w := hlt)
  rw [getElem?_eq_getElem hlt]
  congr 1
  exact h.eq_of_id (getElem_mem hlt) hv (by simpa using hid)

theorem position_inj {u : Node ι ρ} (hu : u ∈ nodes) (hv : v ∈ nodes)
    (hposition : position nodes u.id = position nodes v.id) : u = v := by
  have hget := getElem?_position h hu
  rw [hposition, getElem?_position h hv, Option.some.injEq] at hget
  exact hget.symm

theorem position_getElem {k : Nat} (hk : k < nodes.length) : position nodes nodes[k].id = k + 1 := by
  have hget := getElem?_position h (getElem_mem hk)
  have hle := position_le (getElem_mem hk)
  have hpos : 0 < position nodes nodes[k].id := position_pos _
  have hlt : position nodes nodes[k].id - 1 < nodes.length := by omega
  rw [getElem?_eq_getElem hlt, Option.some.injEq] at hget
  have hnodup : nodes.Nodup := .of_map _ h.nodup
  have hplace := hnodup.getElem_inj_iff.mp hget
  omega

theorem zipIdx_eq_map_position : nodes.zipIdx 1 = nodes.map (fun v => (v, position nodes v.id)) := by
  apply ext_getElem
  · simp
  · intro k hk hk'
    simp only [length_map] at hk'
    simp only [getElem_zipIdx, getElem_map, position_getElem h hk']
    rw [Nat.add_comm]

theorem renumber_position (hv : v ∈ nodes) :
    renumber nodes nodes' (position nodes v.id) = position nodes' v.id := by
  unfold renumber
  rw [if_neg (Nat.ne_of_gt (position_pos v.id)), getElem?_position h hv]
  rfl

end

theorem renumber_of_length_lt {k : Nat} (hk : nodes.length < k) : renumber nodes nodes' k = k := by
  unfold renumber
  rw [if_neg (by omega), getElem?_eq_none (by omega)]
  rfl

section
variable (h : WellHeaded nodes)
include h

theorem renumber_headNumber (hv : v ∈ nodes) :
    renumber nodes nodes' (headNumber nodes v) = headNumber nodes' v := by
  unfold headNumber
  cases hhead : v.head with
  | none => rfl
  | some i =>
    obtain ⟨u, hu, rfl⟩ := h.closed v hv i hhead
    exact renumber_position h hu

theorem headOf_perm (hperm : nodes.Perm nodes') : headOf nodes = headOf nodes' := by
  funext i
  by_cases hi : ∃ v ∈ nodes, v.id = i
  · obtain ⟨v, hv, rfl⟩ := hi
    rw [h.headOf hv, (h.perm hperm).headOf (hperm.mem_iff.mp hv)]
  · have hnone : ∀ l : List (Node ι ρ), (∀ v, v ∈ l ↔ v ∈ nodes) →
        l.find? (fun v => decide (v.id = i)) = none := by
      intro l hl
      rw [find?_eq_none]
      intro v hv hid
      exact hi ⟨v, (hl v).mp hv, by simpa using hid⟩
    simp [headOf, hnone nodes (fun v => Iff.rfl), hnone nodes' (fun v => hperm.mem_iff.symm)]

theorem isTree_perm (hperm : nodes.Perm nodes') : IsTree nodes ↔ IsTree nodes' := by
  unfold IsTree
  rw [headOf_perm h hperm]
  simp only [hperm.mem_iff]

theorem IsTree.head_ne_self (htree : IsTree nodes) (hv : v ∈ nodes) : v.head ≠ some v.id := by
  obtain ⟨root, hroot, hnone, -, hleads⟩ := htree
  intro hself
  have hend : Heads.Ends (headOf nodes) v.id :=
    .of_leads (hleads v hv) (.here ((h.headOf hroot).trans hnone))
  exact hend.not_leadsOn_self (.single ((h.headOf hv).trans hself))

theorem isTree_of_ends {root : Node ι ρ} (hroot : root ∈ nodes)
    (hnone : root.head = none) (honly : ∀ v ∈ nodes, v.head = none → v = root)
    (hends : ∀ v ∈ nodes, Heads.Ends (headOf nodes) v.id) : IsTree nodes := by
  refine ⟨root, hroot, hnone, honly, ?_⟩
  have hleads : ∀ i, Heads.Ends (headOf nodes) i → ∀ v ∈ nodes, v.id = i →
      Heads.Leads (headOf nodes) v.id root.id := by
    intro i hi
    induction hi with
    | here hend =>
      intro v hv hid
      rw [← hid, h.headOf hv] at hend
      rw [honly v hv hend]
      exact .refl
    | step hstep _ ih =>
      intro v hv hid
      rw [← hid] at hstep
      obtain ⟨u, hu, rfl⟩ := h.closed v hv _ ((h.headOf hv).symm.trans hstep)
      exact .head hstep (ih u hu rfl)
  intro v hv
  exact hleads v.id (hends v hv) v hv rfl

end

end DependencyTree
