import Batchalign.Interleaving.LegalOrders

/- What the searches need of the source graph. -/
namespace Batchalign.Interleaving
open WordRuns List

/-- A graph laid out for a search over `words` source words. -/
structure Graph.Laid (graph : Graph) (words : ℕ) : Prop where
  perm : graph.order.Perm (List.range graph.nodes)
  sorted : graph.order.Pairwise fun a b => graph.depth a ≤ graph.depth b
  slot : ∀ v < graph.nodes, graph.order[graph.rank v]? = some v
  inside : ∀ u w v, graph.Connects u w v → u < graph.nodes ∧ v < graph.nodes
  grows : ∀ u w v, graph.Connects u w v → graph.rank u < graph.rank v
  counted : ∀ u w v, graph.Connects u w v → graph.depth v = graph.depth u + w.toList.length
  incoming : ∀ v e, e ∈ graph.incoming v ↔ graph.Connects e.target e.word v
  start : 0 < graph.nodes ∧ graph.depth 0 = 0
  finish : graph.finish < graph.nodes ∧ graph.depth graph.finish = words
  reached : ∀ v < graph.nodes, ∃ σ, Path graph.Connects 0 σ v
  reaching : ∀ v < graph.nodes, ∃ σ, Path graph.Connects v σ graph.finish
  once : ∀ σ, Path graph.Connects 0 σ graph.finish → σ.Perm (List.range words)

/-! ## Slots -/

theorem ranks_foldl {l : List (ℕ × ℕ)} {v i : ℕ} (hmem : (v, i) ∈ l)
    (hnodup : (l.map Prod.fst).Nodup) (rank : ℕ → ℕ) :
    l.foldl (fun rank p => Function.update rank p.1 p.2) rank v = i := by
  induction l generalizing rank with
  | nil => cases hmem
  | cons p l ih =>
    obtain ⟨hp, hnodup⟩ := nodup_cons.mp hnodup
    rcases mem_cons.mp hmem with rfl | hmem
    · -- the node does not stand again behind its slot
      have hkeep : ∀ (l : List (ℕ × ℕ)) (rank : ℕ → ℕ), v ∉ l.map Prod.fst →
          l.foldl (fun rank p => Function.update rank p.1 p.2) rank v = rank v := by
        intro l
        induction l with
        | nil => exact fun _ _ => rfl
        | cons q l ih' =>
          intro rank hnot
          obtain ⟨hne, hnot⟩ := ne_and_not_mem_of_not_mem_cons hnot
          rw [foldl_cons, ih' _ hnot, Function.update_of_ne hne]
      rw [foldl_cons, hkeep l _ hp, Function.update_self]
    · exact ih hmem hnodup _

theorem ranks_of_getElem {order : List ℕ} (hnodup : order.Nodup) {i v : ℕ} (h : order[i]? = some v) :
    ranks order v = i := by
  apply ranks_foldl
  · exact mem_zipIdx_iff_getElem?.mpr h
  · rwa [zipIdx_map_fst]

variable {turns : List SpeakerTurn} {prepared : PreparedGraph} {graph : Graph} {words : ℕ}
  {u v i : ℕ} {σ τ : List ℕ} {w : Option ℕ}

namespace Graph.Laid

section
variable (h : graph.Laid words)
include h

theorem length_order : graph.order.length = graph.nodes := by
  rw [h.perm.length_eq, length_range]

theorem nodup : graph.order.Nodup :=
  h.perm.nodup_iff.mpr nodup_range

theorem mem_order : v ∈ graph.order ↔ v < graph.nodes := by
  rw [h.perm.mem_iff, mem_range]

theorem rank_lt (hv : v < graph.nodes) : graph.rank v < graph.nodes := by
  have hslot := h.slot v hv
  rw [← h.length_order]
  exact (List.getElem?_eq_some_iff.mp hslot).1

theorem rank_order (hi : i < graph.nodes) :
    graph.rank (graph.order.getD i 0) = i ∧ graph.order.getD i 0 < graph.nodes := by
  have hin : i < graph.order.length := by rwa [h.length_order]
  rw [getD_eq_getElem?_getD, getElem?_eq_getElem hin, Option.getD_some]
  have hnode : graph.order[i] < graph.nodes := h.mem_order.mp (getElem_mem hin)
  have hslot := h.slot _ hnode
  obtain ⟨hlt, heq⟩ := List.getElem?_eq_some_iff.mp hslot
  exact ⟨(Nodup.getElem_inj_iff h.nodup).mp heq, hnode⟩

theorem order_rank (hv : v < graph.nodes) : graph.order.getD (graph.rank v) 0 = v := by
  rw [getD_eq_getElem?_getD, h.slot v hv]
  rfl

/-! ## Paths -/

theorem path_inside (hpath : Path graph.Connects u σ v) (hu : u < graph.nodes) : v < graph.nodes := by
  cases hpath with
  | here => exact hu
  | step _ he => exact (h.inside _ _ _ he).2

theorem path_depth (hpath : Path graph.Connects u σ v) : graph.depth v = graph.depth u + σ.length := by
  induction hpath with
  | here => rfl
  | step _ he ih => rw [h.counted _ _ _ he, ih, length_append, add_assoc]

theorem depth_le (hv : v < graph.nodes) : graph.depth v ≤ words := by
  obtain ⟨σ, hσ⟩ := h.reaching v hv
  have := h.path_depth hσ
  rw [h.finish.2] at this
  omega

theorem path_words (hpath : Path graph.Connects 0 σ graph.finish) {word : ℕ}
    (hword : word < words) : σ.Nodup ∧ word ∈ σ := by
  have hperm := h.once σ hpath
  exact ⟨hperm.nodup_iff.mpr nodup_range, hperm.mem_iff.mpr (mem_range.mpr hword)⟩

theorem path_nodup (hpath : Path graph.Connects u σ v) (hu : u < graph.nodes) :
    σ.Nodup ∧ ∀ word ∈ σ, word < words := by
  obtain ⟨ρ, hρ⟩ := h.reached u hu
  obtain ⟨τ, hτ⟩ := h.reaching v (h.path_inside hpath hu)
  have hperm := h.once _ ((hρ.trans hpath).trans hτ)
  have hnodup := hperm.nodup_iff.mpr nodup_range
  refine ⟨((nodup_append.mp (nodup_append.mp hnodup).1).2).1, ?_⟩
  intro word hword
  apply mem_range.mp
  apply hperm.subset
  simp [hword]

end

end Graph.Laid

/-! ## Admitted turns -/

theorem laid_of_admitted (h : admitGraph turns = .ok prepared) :
    (materialize prepared).Laid (offsetAt turns turns.length) := by
  have hE : ∀ u w v, (materialize prepared).Connects u w v ↔
      ∃ p ∈ bases turns, p.2.Step p.1 u w v := fun u w v => mem_edges_iff h
  have hA := buildEdges_acyclic h
  obtain ⟨horder, hdepth, hsorted⟩ := materialize_order prepared hA
  have hspells := SpellsLegalOrders.of_admitted h
  have hfinish : (materialize prepared).finish = turns.length := by
    rw [← (admitGraph_ok h).1]
    rfl
  have hnodes : (materialize prepared).nodes =
      turns.length + 1 + ((blocks turns).map Block.inner).sum := nodes_eq h
  have hnodup := horder.nodup
  have hinside : ∀ u w v, (materialize prepared).Connects u w v →
      u < (materialize prepared).nodes ∧ v < (materialize prepared).nodes :=
    fun u w v he => hA.inside u _ he
  have hslot : ∀ v < (materialize prepared).nodes,
      (materialize prepared).order[(materialize prepared).rank v]? = some v := by
    intro v hv
    obtain ⟨i, hi⟩ := mem_iff_getElem?.mp (horder.mem_iff.mpr hv)
    have hrank : (materialize prepared).rank v = i := ranks_of_getElem hnodup hi
    rw [hrank, hi]
  have hgrows : ∀ u w v, (materialize prepared).Connects u w v →
      (materialize prepared).rank u < (materialize prepared).rank v := by
    intro u w v he
    obtain ⟨hu, hv⟩ := hinside u w v he
    have hbefore := horder.before _ v (hslot v hv) u hu _ he rfl
    obtain ⟨i, hi, hat⟩ := mem_take_iff_getElem.mp hbefore
    have hrank : (materialize prepared).rank u = i :=
      ranks_of_getElem hnodup (List.getElem?_eq_some_iff.mpr ⟨by omega, hat⟩)
    omega
  have hcounted : ∀ u w v, (materialize prepared).Connects u w v →
      (materialize prepared).depth v = (materialize prepared).depth u + w.toList.length := by
    intro u w v he
    obtain ⟨hu, hv⟩ := hinside u w v he
    rw [hdepth u hu, hdepth v hv, hA.counted u _ he]
    cases w <;> rfl
  refine ⟨horder.perm, hsorted, hslot, hinside, hgrows, hcounted, ?_, ⟨hA.pos, ?_⟩, ⟨?_, ?_⟩, ?_, ?_,
    hspells.once⟩
  · intro v e
    refine Iff.trans mem_incomingOf ?_
    exact ⟨fun he => he.2, fun he => ⟨(hinside _ _ _ he).1, he⟩⟩
  · rw [hdepth 0 hA.pos, hA.start]
  · rw [hfinish, hnodes]
    omega
  · rw [hfinish, hdepth _ (by omega), wordsBefore_boundary (le_refl _)]
  · -- from the first node, along the slots
    intro v hv
    induction hr : (materialize prepared).rank v using Nat.strong_induction_on generalizing v with
    | _ r ih =>
      by_cases hzero : v = 0
      · subst hzero
        exact ⟨[], .here⟩
      · obtain ⟨p, hp, u, w, hstep⟩ := exists_step (by rwa [← hnodes]) hzero
        have he := (hE u w v).mpr ⟨p, hp, hstep⟩
        obtain ⟨σ, hσ⟩ := ih _ (by rw [← hr]; exact hgrows u w v he) u (hinside u w v he).1 rfl
        exact ⟨_, .step hσ he⟩
  · -- to the last node, back along the slots
    intro v hv
    induction hr : (materialize prepared).nodes - (materialize prepared).rank v
      using Nat.strong_induction_on generalizing v with
    | _ r ih =>
      by_cases hlast : v = turns.length
      · rw [hfinish, hlast]
        exact ⟨[], .here⟩
      · obtain ⟨p, hp, w, x, hstep⟩ := exists_exit (by rwa [← hnodes]) hlast
        have he := (hE v w x).mpr ⟨p, hp, hstep⟩
        have hx := (hinside v w x he).2
        have hlt := hgrows v w x he
        have hxlt : (materialize prepared).rank x < (materialize prepared).nodes := by
          rw [← length_range (n := (materialize prepared).nodes), ← horder.perm.length_eq]
          exact (List.getElem?_eq_some_iff.mp (hslot x hx)).1
        obtain ⟨σ, hσ⟩ := ih _ (by omega) x hx rfl
        exact ⟨_, hσ.cons he⟩

end Batchalign.Interleaving
