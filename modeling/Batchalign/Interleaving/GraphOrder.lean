import Batchalign.Interleaving.Graph

/- The order of the nodes is topological, whatever the edges, if they are acyclic (`Acyclic`). Kahn's
   loop reaches every node after its predecessors, and a stable sort by depth keeps the order
   topological. -/
namespace Batchalign.Interleaving
open List
open Function (update_self update_of_ne)

/-- Edges between `nodes` nodes that grow in height and respect the words before each node. -/
structure Acyclic (nodes : ℕ) (edges : ℕ → List Edge) (height words : ℕ → ℕ) : Prop where
  pos : 0 < nodes
  inside : ∀ u, ∀ e ∈ edges u, u < nodes ∧ e.target < nodes
  grows : ∀ u, ∀ e ∈ edges u, height u < height e.target
  counted : ∀ u, ∀ e ∈ edges u, words e.target = words u + if e.word.isSome then 1 else 0
  start : words 0 = 0
  entered : ∀ v < nodes, v ≠ 0 → ∃ u, ∃ e ∈ edges u, e.target = v
  root : ∀ u, ∀ e ∈ edges u, e.target ≠ 0

/-! ## Kahn's loop -/

def countTo (edges : List Edge) (v : ℕ) : ℕ := edges.countP fun e => e.target = v

def waiting (nodes : ℕ) (edges : ℕ → List Edge) (done : List ℕ) (v : ℕ) : ℕ :=
  ∑ u ∈ Finset.range nodes \ done.toFinset, countTo (edges u) v

section Kahn
variable {nodes : ℕ} {edges : ℕ → List Edge} {height words : ℕ → ℕ}

theorem countTo_cons (e : Edge) (es : List Edge) (v : ℕ) :
    countTo (e :: es) v = countTo es v + if e.target = v then 1 else 0 := by
  rw [countTo, countP_cons, countTo]
  simp

theorem waiting_nil (v : ℕ) : waiting nodes edges [] v = ∑ u ∈ Finset.range nodes, countTo (edges u) v := by
  simp [waiting]

variable {i u v : ℕ} {degree depth : ℕ → ℕ} {order : List ℕ}

theorem waiting_concat {done : List ℕ} (hu : u < nodes) (hnew : u ∉ done) (v : ℕ) :
    waiting nodes edges done v = waiting nodes edges (done ++ [u]) v + countTo (edges u) v := by
  have hset : Finset.range nodes \ done.toFinset =
      insert u (Finset.range nodes \ (done ++ [u]).toFinset) := by
    ext x
    by_cases hx : x = u
    · subst hx
      simp [hu, hnew]
    · simp [hx]
  rw [waiting, hset, Finset.sum_insert (by simp), add_comm]
  rfl

theorem waiting_eq_zero_iff {done : List ℕ} : waiting nodes edges done v = 0 ↔
    ∀ u < nodes, u ∉ done → ∀ e ∈ edges u, e.target ≠ v := by
  rw [waiting, Finset.sum_eq_zero_iff]
  apply forall_congr'
  intro u
  rw [countTo, countP_eq_zero]
  simp

theorem releaseEdges_spec (rest : ℕ → ℕ) (es : List Edge) :
    ∀ {degree : ℕ → ℕ} {order : List ℕ}, (∀ v, degree v = rest v + countTo es v) →
      (∀ v < nodes, v ∈ order ↔ degree v = 0) → order.Nodup → (∀ v ∈ order, v < nodes) →
      (∀ e ∈ es, e.target < nodes) → ∃ added, (releaseEdges degree order es).2 = order ++ added ∧
        (∀ v, (releaseEdges degree order es).1 v = rest v) ∧
        (∀ v < nodes, v ∈ order ++ added ↔ rest v = 0) ∧ (order ++ added).Nodup ∧
        ∀ v ∈ order ++ added, v < nodes := by
  induction es with
  | nil =>
    intro degree order hdegree hmem hnodup hlt _
    have hrest : ∀ v, degree v = rest v := by
      intro v
      rw [hdegree v]
      rfl
    refine ⟨[], by simp [releaseEdges], hrest, ?_, by simpa using hnodup, by simpa using hlt⟩
    intro v hv
    rw [append_nil, hmem v hv, hrest v]
  | cons e es ih =>
    intro degree order hdegree hmem hnodup hlt hes
    have htarget := hes e (by simp)
    have hdegree' : ∀ v, Function.update degree e.target (degree e.target - 1) v = rest v + countTo es v := by
      intro v
      by_cases hv : v = e.target
      · subst hv
        rw [update_self, hdegree, countTo_cons, if_pos rfl, ← add_assoc, Nat.add_sub_cancel]
      · rw [update_of_ne hv, hdegree, countTo_cons, if_neg (Ne.symm hv)]
        omega
    -- the target still had this edge, so it was not in the order
    have hfresh : e.target ∉ order := by
      rw [hmem _ htarget, hdegree, countTo_cons, if_pos rfl]
      omega
    have hsame : ∀ v, v ≠ e.target →
        Function.update degree e.target (degree e.target - 1) v = degree v :=
      fun v hv => update_of_ne hv _ _
    rw [releaseEdges]
    by_cases hzero : Function.update degree e.target (degree e.target - 1) e.target = 0
    · rw [if_pos hzero]
      have hmemNext : ∀ v < nodes, v ∈ order ++ [e.target] ↔
          Function.update degree e.target (degree e.target - 1) v = 0 := by
        intro v hv
        rw [mem_append, mem_singleton]
        by_cases hve : v = e.target
        · subst hve
          exact ⟨fun _ => hzero, fun _ => .inr rfl⟩
        · rw [hsame v hve, ← hmem v hv]
          exact ⟨fun h => h.resolve_right hve, .inl⟩
      have hnodupNext : (order ++ [e.target]).Nodup := by
        rw [nodup_append]
        refine ⟨hnodup, by simp, ?_⟩
        intro a ha b hb hab
        rw [mem_singleton.mp hb] at hab
        rw [hab] at ha
        exact hfresh ha
      have hltNext : ∀ v ∈ order ++ [e.target], v < nodes := by
        intro v hv
        rcases mem_append.mp hv with hv | hv
        · exact hlt v hv
        · rw [mem_singleton.mp hv]
          exact htarget
      obtain ⟨added, horder, hrest, hmem', hnodup', hlt'⟩ :=
        ih hdegree' hmemNext hnodupNext hltNext (fun d hd => hes d (mem_cons_of_mem _ hd))
      rw [append_assoc] at horder hnodup' hlt'
      refine ⟨[e.target] ++ added, horder, hrest, ?_, hnodup', hlt'⟩
      intro v hv
      rw [← append_assoc]
      exact hmem' v hv
    · rw [if_neg hzero]
      apply ih hdegree' _ hnodup hlt (fun d hd => hes d (mem_cons_of_mem _ hd))
      intro v hv
      by_cases hve : v = e.target
      · subst hve
        exact ⟨fun h => absurd h hfresh, fun h => absurd h hzero⟩
      · rw [hsame v hve]
        exact hmem v hv

/-- The state of the loop: `cursor` nodes are done. -/
structure Releasing (nodes : ℕ) (edges : ℕ → List Edge) (cursor : ℕ) (degree : ℕ → ℕ) (order : List ℕ) :
    Prop where
  nodup : order.Nodup
  inside : ∀ v ∈ order, v < nodes
  cursor_le : cursor ≤ order.length
  waits : ∀ v, degree v = waiting nodes edges (order.take cursor) v
  mem : ∀ v < nodes, v ∈ order ↔ degree v = 0
  before : ∀ i v, order[i]? = some v → ∀ u < nodes, ∀ e ∈ edges u, e.target = v → u ∈ order.take i

theorem Releasing.length_le {cursor : ℕ} (h : Releasing nodes edges cursor degree order) : order.length ≤ nodes := by
  have hsub : order.toFinset ⊆ Finset.range nodes := by
    intro v hv
    exact Finset.mem_range.mpr (h.inside v (mem_toFinset.mp hv))
  have := Finset.card_le_card hsub
  rwa [toFinset_card_of_nodup h.nodup, Finset.card_range] at this

theorem take_append_prefix {added : List ℕ} (h : u ∈ order.take i) : u ∈ (order ++ added).take i := by
  rw [take_append]
  exact mem_append_left _ h

theorem Releasing.step (hA : Acyclic nodes edges height words) {cursor : ℕ} {node : ℕ} (h : Releasing nodes edges cursor degree order)
    (hnode : order[cursor]? = some node) :
    Releasing nodes edges (cursor + 1) (releaseEdges degree order (edges node)).1
      (releaseEdges degree order (edges node)).2 := by
  obtain ⟨hlt, hget⟩ := List.getElem?_eq_some_iff.mp hnode
  have htake : order.take (cursor + 1) = order.take cursor ++ [node] := by
    rw [take_add_one, hnode]
    rfl
  have hnew : node ∉ order.take cursor := by
    have hsplit := h.nodup.sublist (take_sublist (cursor + 1) order)
    rw [htake, nodup_append] at hsplit
    intro hmem
    exact hsplit.2.2 node hmem node (by simp) rfl
  have hnodeLt : node < nodes := h.inside node (mem_of_getElem? hnode)
  have hdegree : ∀ v, degree v = waiting nodes edges (order.take (cursor + 1)) v + countTo (edges node) v := by
    intro v
    rw [h.waits v, waiting_concat hnodeLt hnew, htake]
  obtain ⟨added, horder, hrest, hmem, hnodup, hinside⟩ := releaseEdges_spec
    (waiting nodes edges (order.take (cursor + 1))) (edges node) hdegree h.mem h.nodup h.inside
    (fun e he => (hA.inside node e he).2)
  have htake' : (order ++ added).take (cursor + 1) = order.take (cursor + 1) := by
    rw [take_append_of_le_length (by omega)]
  rw [horder]
  refine ⟨hnodup, hinside, by rw [length_append]; omega, ?_, ?_, ?_⟩
  · intro v
    rw [hrest v, htake']
  · intro v hv
    rw [hmem v hv, hrest v]
  · intro i v hv u hu e he hev
    by_cases hi : i < order.length
    · rw [getElem?_append_left hi] at hv
      exact take_append_prefix (h.before i v hv u hu e he hev)
    · -- a new node: nothing waits for it any more
      have hvmem : v ∈ order ++ added := mem_of_getElem? hv
      have hzero := (hmem v (hinside v hvmem)).mp hvmem
      have hdone : u ∈ order.take (cursor + 1) := by
        by_contra hnot
        exact waiting_eq_zero_iff.mp hzero u hu hnot e he hev
      apply take_append_prefix
      exact (take_sublist_take_left (by omega : cursor + 1 ≤ i)).subset hdone

theorem kahn_releasing (hA : Acyclic nodes edges height words) : ∀ (fuel cursor : ℕ) (degree : ℕ → ℕ)
    (order : List ℕ), cursor + fuel = nodes → Releasing nodes edges cursor degree order →
    ∃ degree' , Releasing nodes edges (kahn edges fuel cursor degree order).length degree'
      (kahn edges fuel cursor degree order) := by
  intro fuel
  induction fuel with
  | zero =>
    intro cursor degree order hfuel h
    have hlen : cursor = order.length := by
      have := h.length_le
      have := h.cursor_le
      omega
    subst hlen
    exact ⟨degree, h⟩
  | succ fuel ih =>
    intro cursor degree order hfuel h
    rw [kahn]
    cases hnode : order[cursor]? with
    | none =>
      have hlen : cursor = order.length := by
        have := getElem?_eq_none_iff.mp hnode
        have := h.cursor_le
        omega
      subst hlen
      exact ⟨degree, h⟩
    | some node => exact ih (cursor + 1) _ _ (by omega) (h.step hA hnode)

structure Topological (nodes : ℕ) (edges : ℕ → List Edge) (order : List ℕ) : Prop where
  perm : order.Perm (List.range nodes)
  before : ∀ i v, order[i]? = some v → ∀ u < nodes, ∀ e ∈ edges u, e.target = v → u ∈ order.take i

def incomingOf (nodes : ℕ) (edges : ℕ → List Edge) (v : ℕ) : List Edge :=
  (List.range nodes).flatMap fun u =>
    (edges u).filterMap fun e => if e.target = v then some ⟨u, e.word⟩ else none

theorem mem_incomingOf {e : Edge} : e ∈ incomingOf nodes edges v ↔
    e.target < nodes ∧ ⟨v, e.word⟩ ∈ edges e.target := by
  simp only [incomingOf, mem_flatMap, mem_range, mem_filterMap]
  refine ⟨?_, ?_⟩
  · intro h
    obtain ⟨u, hu, d, hd, heq⟩ := h
    split_ifs at heq with htarget
    cases heq
    subst htarget
    exact ⟨hu, hd⟩
  · intro h
    exact ⟨e.target, h.1, ⟨v, e.word⟩, h.2, by simp⟩

theorem length_incomingOf (v : ℕ) : (incomingOf nodes edges v).length = waiting nodes edges [] v := by
  have hone : ∀ (es : List Edge) (u : ℕ), (es.filterMap fun e =>
      if e.target = v then some (Edge.mk u e.word) else none).length = countTo es v := by
    intro es u
    induction es with
    | nil => rfl
    | cons e es ih =>
      rw [countTo_cons, filterMap_cons]
      by_cases h : e.target = v
      · simp [h, ih]
      · simp [h, ih]
  rw [waiting_nil, incomingOf, length_flatMap]
  induction nodes with
  | zero => rfl
  | succ nodes ih =>
    rw [range_succ, map_append, sum_append, ih, Finset.sum_range_succ, map_singleton,
      sum_singleton, hone]

section
variable (hA : Acyclic nodes edges height words)
include hA

theorem releasing_start : Releasing nodes edges 0 (fun v => (incomingOf nodes edges v).length) [0] := by
  refine ⟨nodup_singleton 0, ?_, Nat.zero_le _, ?_, ?_, ?_⟩
  · intro v hv
    rw [mem_singleton.mp hv]
    exact hA.pos
  · exact fun v => length_incomingOf v
  · intro v hv
    rw [mem_singleton, length_incomingOf, waiting_eq_zero_iff]
    constructor
    · rintro rfl u _ _ e he
      exact hA.root u e he
    · intro hnone
      by_contra hne
      obtain ⟨u, e, he, htarget⟩ := hA.entered v hv hne
      exact hnone u (hA.inside u e he).1 not_mem_nil e he htarget
  · intro i v hv u _ e he htarget
    obtain rfl : v = 0 := mem_singleton.mp (mem_of_getElem? hv)
    exact absurd htarget (hA.root u e he)

theorem Releasing.complete (h : Releasing nodes edges order.length degree order) :
    ∀ v < nodes, v ∈ order := by
  intro v
  induction hheight : height v using Nat.strong_induction_on generalizing v with
  | _ n ih =>
    intro hv
    rw [h.mem v hv, h.waits, take_length, waiting_eq_zero_iff]
    intro u hu hnot e he htarget
    have hlt := hA.grows u e he
    rw [htarget, hheight] at hlt
    exact hnot (ih (height u) hlt u rfl hu)

theorem kahn_topological : Topological nodes edges
      (kahn edges nodes 0 (fun v => (incomingOf nodes edges v).length) [0]) := by
  obtain ⟨degree, h⟩ := kahn_releasing hA nodes 0 _ [0] (zero_add _) (releasing_start hA)
  refine ⟨?_, h.before⟩
  refine (perm_ext_iff_of_nodup h.nodup nodup_range).mpr ?_
  intro v
  rw [mem_range]
  exact ⟨h.inside v, h.complete hA v⟩

end

/-! ## Depths -/

theorem Topological.nodup (h : Topological nodes edges order) : order.Nodup :=
  h.perm.nodup_iff.mpr nodup_range

theorem Topological.mem_iff (h : Topological nodes edges order) : v ∈ order ↔ v < nodes := by
  rw [h.perm.mem_iff, mem_range]

theorem depths_of_node (hA : Acyclic nodes edges height words) {node : ℕ} (es : List Edge)
    (hes : ∀ e ∈ es, e ∈ edges node) (hnode : depth node = words node) (v : ℕ) : es.foldl (fun depth e =>
        Function.update depth e.target (depth node + if e.word.isSome then 1 else 0)) depth v =
      if ∃ e ∈ es, e.target = v then words v else depth v := by
  induction es generalizing depth with
  | nil => simp
  | cons e es ih =>
    have he := hes e mem_cons_self
    have hne : node ≠ e.target := by
      intro heq
      have := hA.grows node e he
      rw [← heq] at this
      exact lt_irrefl _ this
    have hvalue : depth node + (if e.word.isSome then 1 else 0) = words e.target := by
      rw [hnode, hA.counted node e he]
    rw [foldl_cons, hvalue, ih (fun d hd => hes d (mem_cons_of_mem _ hd))
      (by rw [update_of_ne hne, hnode])]
    by_cases hlater : ∃ d ∈ es, d.target = v
    · have hsome : ∃ d ∈ e :: es, d.target = v := by
        obtain ⟨d, hd, htarget⟩ := hlater
        exact ⟨d, mem_cons_of_mem _ hd, htarget⟩
      rw [if_pos hlater, if_pos hsome]
    · rw [if_neg hlater]
      by_cases hv : e.target = v
      · rw [if_pos ⟨e, mem_cons_self, hv⟩, ← hv, update_self]
      · have hnone : ¬ ∃ d ∈ e :: es, d.target = v := by
          rintro ⟨d, hd, htarget⟩
          rcases mem_cons.mp hd with rfl | hd
          · exact hv htarget
          · exact hlater ⟨d, hd, htarget⟩
        rw [if_neg hnone, update_of_ne (Ne.symm hv)]

def DepthsAfter (edges : ℕ → List Edge) (words : ℕ → ℕ) (done : List ℕ) (depth : ℕ → ℕ) : Prop :=
  ∀ v, depth v = if ∃ u ∈ done, ∃ e ∈ edges u, e.target = v then words v else 0

theorem depths_from (hA : Acyclic nodes edges height words) {rest : List ℕ}
    (hT : Topological nodes edges order) (done : List ℕ) (hsplit : order = done ++ rest) (h : DepthsAfter edges words done depth) :
    DepthsAfter edges words order (rest.foldl (fun depth node => (edges node).foldl (fun depth e =>
      Function.update depth e.target (depth node + if e.word.isSome then 1 else 0)) depth) depth) := by
  induction rest generalizing done depth with
  | nil =>
    rw [hsplit, append_nil]
    exact h
  | cons node rest ih =>
    have hat : order[done.length]? = some node := by
      rw [hsplit, getElem?_append_right (le_refl _), Nat.sub_self, getElem?_cons_zero]
    have hdone : order.take done.length = done := by rw [hsplit, take_left]
    -- the node's own depth is set, by a node before it
    have hnode : depth node = words node := by
      rw [h]
      by_cases hzero : node = 0
      · rw [if_neg, hzero, hA.start]
        rintro ⟨u, -, e, he, htarget⟩
        exact hA.root u e he (htarget.trans hzero)
      · have hlt := hT.mem_iff.mp (mem_of_getElem? hat)
        obtain ⟨u, e, he, htarget⟩ := hA.entered node hlt hzero
        have hbefore := hT.before _ node hat u (hA.inside u e he).1 e he htarget
        rw [hdone] at hbefore
        rw [if_pos ⟨u, hbefore, e, he, htarget⟩]
    rw [foldl_cons]
    refine ih (done ++ [node]) (by rw [hsplit, append_assoc, singleton_append]) ?_
    intro v
    rw [depths_of_node hA (edges node) (fun e he => he) hnode, h v]
    have hsome : (∃ u ∈ done ++ [node], ∃ e ∈ edges u, e.target = v) ↔
        (∃ e ∈ edges node, e.target = v) ∨ ∃ u ∈ done, ∃ e ∈ edges u, e.target = v := by
      simp only [mem_append, mem_singleton, or_and_right, exists_or, exists_eq_left]
      exact or_comm
    by_cases hnow : ∃ e ∈ edges node, e.target = v
    · rw [if_pos hnow, if_pos (hsome.mpr (.inl hnow))]
    · rw [if_neg hnow]
      by_cases hbefore : ∃ u ∈ done, ∃ e ∈ edges u, e.target = v
      · rw [if_pos hbefore, if_pos (hsome.mpr (.inr hbefore))]
      · rw [if_neg hbefore, if_neg fun h => (hsome.mp h).elim hnow hbefore]

theorem depths_eq (hA : Acyclic nodes edges height words) (hT : Topological nodes edges order) (hv : v < nodes) :
    depths edges order v = words v := by
  have hall : DepthsAfter edges words order (depths edges order) := by
    refine depths_from hA hT [] rfl ?_
    intro v
    simp
  rw [hall]
  by_cases hzero : v = 0
  · rw [hzero, hA.start, ite_self]
  · obtain ⟨u, e, he, htarget⟩ := hA.entered v hv hzero
    rw [if_pos ⟨u, hT.mem_iff.mpr (hA.inside u e he).1, e, he, htarget⟩]

/-! ## The stable sort -/

theorem mem_take_of_pair {l : List ℕ} (h : [u, v].Sublist l) (hnodup : l.Nodup)
    (hv : l[i]? = some v) : u ∈ l.take i := by
  induction l generalizing i with
  | nil => cases h
  | cons x l ih =>
    obtain ⟨hx, hnodup⟩ := nodup_cons.mp hnodup
    cases i with
    | zero =>
      -- the second of the pair would stand again behind the head
      obtain rfl : x = v := by simpa using hv
      cases h with
      | cons _ h => exact absurd (h.subset (by simp)) hx
      | cons_cons _ h => exact absurd (h.subset (by simp)) hx
    | succ i =>
      cases h with
      | cons _ h => exact mem_cons_of_mem _ (ih h hnodup hv)
      | cons_cons _ h => exact mem_cons_self

theorem pair_of_mem_take {l : List ℕ} (hu : u ∈ l.take i) (hv : l[i]? = some v) : [u, v].Sublist l := by
  have hdrop : v ∈ l.drop i := by
    rw [drop_eq_getElem?_toList_append, hv]
    exact mem_append_left _ (mem_singleton_self v)
  have hpair := (singleton_sublist.mpr hu).append (singleton_sublist.mpr hdrop)
  rwa [take_append_drop] at hpair

theorem Topological.sortedByDepth (hA : Acyclic nodes edges height words) (hT : Topological nodes edges order) (hdepth : ∀ v < nodes, depth v = words v) :
    Topological nodes edges (order.insertionSort fun a b => depth a ≤ depth b) := by
  refine ⟨(perm_insertionSort _ order).trans hT.perm, ?_⟩
  intro i v hv u hu e he htarget
  have hvlt : v < nodes := hT.mem_iff.mp ((mem_insertionSort _).mp (mem_of_getElem? hv))
  obtain ⟨k, hk⟩ := mem_iff_getElem?.mp (hT.mem_iff.mpr hvlt)
  have hpair := pair_of_mem_take (hT.before k v hk u hu e he htarget) hk
  have hle : depth u ≤ depth v := by
    rw [hdepth u hu, hdepth v hvlt, ← htarget, hA.counted u e he]
    exact Nat.le_add_right _ _
  refine mem_take_of_pair (pair_sublist_insertionSort hle hpair) ?_ hv
  exact (perm_insertionSort _ order).nodup_iff.mpr hT.nodup

theorem materialize_order (prepared : PreparedGraph)
    (hA : Acyclic (buildEdges prepared).nodes (buildEdges prepared).edges height words) :
    Topological (materialize prepared).nodes (materialize prepared).edges (materialize prepared).order ∧
      (∀ v < (materialize prepared).nodes, (materialize prepared).depth v = words v) ∧
      (materialize prepared).order.Pairwise fun a b =>
        (materialize prepared).depth a ≤ (materialize prepared).depth b := by
  have hT := kahn_topological hA
  have hdepth : ∀ v < (buildEdges prepared).nodes, (materialize prepared).depth v = words v :=
    fun v hv => depths_eq hA hT hv
  exact ⟨hT.sortedByDepth hA hdepth, hdepth, pairwise_insertionSort _ _⟩

end Kahn

end Batchalign.Interleaving
