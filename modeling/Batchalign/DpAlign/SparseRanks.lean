import Mathlib.Data.List.TakeWhile
import Batchalign.Lib.CommonChain
import Batchalign.DpAlign.Correspondence

/- The sparse route is exact (`correspondence/sparse.rs`). -/
namespace Batchalign.DpAlign
open Chain List

/-- The edges list a relation inside `m × n`, each pair once and in order. -/
structure Lists (M : ℕ → ℕ → Bool) (m n : ℕ) (edges : List Edge) : Prop where
  mem : ∀ e, e ∈ edges ↔ M e.payload e.reference = true ∧ e.payload < m ∧ e.reference < n
  sorted : edges.Pairwise fun a b =>
    a.payload < b.payload ∨ (a.payload = b.payload ∧ a.reference < b.reference)

/-! ## The ranking loop -/

/-- Edges as a ranking pass reads them: `row` and `position` place them in a relation. -/
structure InRows (N : ℕ → ℕ → Bool) (m n : ℕ) (row position : Edge → ℕ) (edges : List Edge) : Prop where
  sorted : edges.Pairwise fun a b => row a ≤ row b
  same_row : ∀ a ∈ edges, ∀ b ∈ edges, a.payload = b.payload ↔ row a = row b
  listed : ∀ i j, N i j = true → i < m → j < n → ∃ e ∈ edges, row e = i ∧ position e = j
  matching : ∀ e ∈ edges, N (row e) (position e) = true
  inside : ∀ e ∈ edges, row e < m ∧ position e < n

structure Ranked (N : ℕ → ℕ → Bool) (n : ℕ) (row position : Edge → ℕ) (recorded : List Edge)
    (ranks : List ℕ) (value : ℕ → ℕ) : Prop where
  length : ranks.length = n + 1
  holds : Fenwick.Holds ranks value
  below : ∀ e ∈ recorded, lcs N (row e) (position e) + 1 ≤ value (position e)
  attained : ∀ q, 0 < value q → ∃ e ∈ recorded, position e = q ∧
    value q = lcs N (row e) (position e) + 1

section Loop
variable {N : ℕ → ℕ → Bool} {m n : ℕ} {row position : Edge → ℕ} {edges recorded : List Edge}
  {ranks : List ℕ} {value : ℕ → ℕ}

theorem ranked_new (N : ℕ → ℕ → Bool) (n : ℕ) (row position : Edge → ℕ) :
    Ranked N n row position [] (PrefixMaximum.new n) (fun _ => 0) := by
  refine ⟨by simp [PrefixMaximum.new], Fenwick.holds_replicate (n + 1), by simp, ?_⟩
  omega

theorem Ranked.record (h : Ranked N n row position recorded ranks value) (e : Edge) :
    ∃ value', Ranked N n row position (recorded ++ [e])
      (PrefixMaximum.record ranks (position e) (lcs N (row e) (position e) + 1)) value' := by
  refine ⟨_, ?_, h.holds.update (position e) (lcs N (row e) (position e) + 1), ?_, ?_⟩
  · rw [PrefixMaximum.record, Fenwick.length_update, h.length]
  · intro d hd
    by_cases heq : position d = position e
    · rw [heq, Function.update_self]
      rcases mem_append.mp hd with hd | hd
      · have := h.below d hd
        rw [heq] at this
        omega
      · rw [mem_singleton.mp hd]
        omega
    · rw [Function.update_of_ne heq]
      rcases mem_append.mp hd with hd | hd
      · exact h.below d hd
      · rw [mem_singleton.mp hd] at heq
        exact absurd rfl heq
  · intro q hq
    by_cases heq : q = position e
    · subst heq
      rw [Function.update_self] at hq ⊢
      by_cases hle : value (position e) ≤ lcs N (row e) (position e) + 1
      · exact ⟨e, by simp, rfl, by omega⟩
      · obtain ⟨d, hd, hpos, hval⟩ := h.attained (position e) (by omega)
        exact ⟨d, mem_append_left _ hd, hpos, by omega⟩
    · rw [Function.update_of_ne heq] at hq ⊢
      obtain ⟨d, hd, hpos, hval⟩ := h.attained q hq
      exact ⟨d, mem_append_left _ hd, hpos, hval⟩

theorem Ranked.record_row (es : List Edge) : ∀ {recorded : List Edge} {ranks : List ℕ} {value : ℕ → ℕ},
      Ranked N n row position recorded ranks value → ∃ value', Ranked N n row position (recorded ++ es)
        ((es.zip (es.map fun e => lcs N (row e) (position e) + 1)).foldl
          (fun ranks (e, rank) => PrefixMaximum.record ranks (position e) rank) ranks) value' := by
  induction es with
  | nil =>
    intro recorded ranks value h
    exact ⟨value, by simpa using h⟩
  | cons e es ih =>
    intro recorded ranks value h
    obtain ⟨value', h'⟩ := h.record e
    obtain ⟨value'', h''⟩ := ih h'
    refine ⟨value'', ?_⟩
    rw [append_cons]
    exact h''

theorem Ranked.before_eq (h : Ranked N n row position recorded ranks value)
    (hrows : InRows N m n row position edges) {i j : ℕ} (hi : i ≤ m) (hj : j ≤ n)
    (hrec : ∀ e, e ∈ recorded ↔ e ∈ edges ∧ row e < i) : PrefixMaximum.before ranks j = lcs N i j := by
  have hlen := h.length
  obtain ⟨hupper, hattained⟩ := Fenwick.query_spec h.holds (show j < ranks.length by omega)
  apply le_antisymm
  · rcases hattained with hzero | ⟨q, hq, hval⟩
    · rw [PrefixMaximum.before, hzero]
      exact Nat.zero_le _
    · rcases Nat.eq_zero_or_pos (value q) with hz | hpos
      · rw [PrefixMaximum.before, ← hval, hz]
        exact Nat.zero_le _
      · obtain ⟨e, he, hpe, hve⟩ := h.attained q hpos
        obtain ⟨hmem, hlt⟩ := (hrec e).mp he
        rw [PrefixMaximum.before, ← hval, hve]
        exact @lcs_rank_le N i j (row e, position e) (hrows.matching e hmem) hlt (by omega)
  · rcases Nat.eq_zero_or_pos (lcs N i j) with hz | hpos
    · omega
    · obtain ⟨p, hp1, hp2, hN, hrank⟩ := lcs_attained hpos
      obtain ⟨e, he, hre, hpe⟩ := hrows.listed p.1 p.2 hN (by omega) (by omega)
      have hbelow := h.below e ((hrec e).mpr ⟨he, by omega⟩)
      rw [hre, hpe] at hbelow
      calc lcs N i j = lcs N p.1 p.2 + 1 := hrank.symm
        _ ≤ value p.2 := hbelow
        _ ≤ PrefixMaximum.before ranks j := hupper p.2 hp2

theorem rankRows_from (hrows : InRows N m n row position edges) :
    ∀ (fuel : ℕ) (before rest : List Edge) (ranks : List ℕ) (value : ℕ → ℕ), edges = before ++ rest →
      rest.length ≤ fuel → (∀ a ∈ before, ∀ b ∈ rest, row a < row b) →
      Ranked N n row position before ranks value →
      (rankRows position fuel ranks rest).1 = rest.map (fun e => lcs N (row e) (position e) + 1) ∧
      ∃ value', Ranked N n row position edges (rankRows position fuel ranks rest).2 value' := by
  intro fuel
  induction fuel with
  | zero =>
    intro before rest ranks value hsplit hfuel _ h
    obtain rfl : rest = [] := length_eq_zero_iff.mp (by omega)
    rw [append_nil] at hsplit
    subst hsplit
    exact ⟨rfl, value, h⟩
  | succ fuel ih =>
    intro before rest ranks value hsplit hfuel hbefore h
    cases rest with
    | nil =>
      rw [append_nil] at hsplit
      subst hsplit
      exact ⟨rfl, value, h⟩
    | cons e rest =>
      rw [rankRows]
      have hmem : ∀ x ∈ e :: rest, x ∈ edges := by
        intro x hx
        rw [hsplit]
        exact mem_append_right _ hx
      have hsorted : (e :: rest).Pairwise fun a b => row a ≤ row b := by
        have := hrows.sorted
        rw [hsplit] at this
        exact (pairwise_append.mp this).2.1
      have hhead : ∀ x ∈ e :: rest, row e ≤ row x := by
        intro x hx
        rcases mem_cons.mp hx with rfl | hx
        · exact le_refl _
        · exact (pairwise_cons.mp hsorted).1 x hx
      have hjoin := takeWhile_append_dropWhile (p := fun x : Edge => x.payload == e.payload) (l := e :: rest)
      have hrow : ∀ x ∈ (e :: rest).takeWhile (fun x => x.payload == e.payload), row x = row e := by
        intro x hx
        have hpay := mem_takeWhile_imp hx
        have hxm := hmem x ((takeWhile_sublist _).subset hx)
        exact (hrows.same_row x hxm e (hmem e (by simp))).mp (beq_iff_eq.mp hpay)
      -- the first edge past the row has another payload, and rows only grow
      have hpast : ∀ x ∈ (e :: rest).dropWhile (fun x => x.payload == e.payload), row e < row x := by
        intro x hx
        cases hdrop : (e :: rest).dropWhile (fun x => x.payload == e.payload) with
        | nil => rw [hdrop] at hx; simp at hx
        | cons y ys =>
          have hy : y ∈ e :: rest := (dropWhile_sublist _).subset (by rw [hdrop]; simp)
          have hyne : y.payload ≠ e.payload := by
            have := head_dropWhile_not (fun x : Edge => x.payload == e.payload)
              (show (e :: rest).dropWhile (fun x => x.payload == e.payload) ≠ [] by rw [hdrop]; simp)
            simp only [hdrop, head_cons] at this
            simpa using this
          have hye : row e ≠ row y := by
            intro heq
            exact hyne ((hrows.same_row y (hmem y hy) e (hmem e (by simp))).mpr heq.symm)
          have hlt : row e < row y := lt_of_le_of_ne (hhead y hy) hye
          rw [hdrop] at hx
          rcases mem_cons.mp hx with rfl | hx
          · exact hlt
          · have hsub : (y :: ys).Pairwise fun a b => row a ≤ row b := by
              rw [← hdrop]
              exact hsorted.sublist (dropWhile_sublist _)
            exact lt_of_lt_of_le hlt ((pairwise_cons.mp hsub).1 x hx)
      have hbeforeRow : ∀ x, x ∈ before ↔ x ∈ edges ∧ row x < row e := by
        intro x
        refine ⟨?_, ?_⟩
        · intro hx
          exact ⟨by rw [hsplit]; exact mem_append_left _ hx, hbefore x hx e (by simp)⟩
        · intro hx
          obtain ⟨hx, hlt⟩ := hx
          rw [hsplit] at hx
          rcases mem_append.mp hx with hx | hx
          · exact hx
          · have := hhead x hx
            omega
      have hi := hrows.inside e (hmem e (by simp))
      have hranks : ((e :: rest).takeWhile fun x => x.payload == e.payload).map
          (fun x => PrefixMaximum.before ranks (position x) + 1) =
          ((e :: rest).takeWhile fun x => x.payload == e.payload).map
            (fun x => lcs N (row x) (position x) + 1) := by
        apply map_congr_left
        intro x hx
        have hxm := hrows.inside x (hmem x ((takeWhile_sublist _).subset hx))
        rw [h.before_eq hrows (le_of_lt hi.1) (le_of_lt hxm.2) hbeforeRow, hrow x hx]
      simp only [hranks]
      obtain ⟨value', h'⟩ := h.record_row ((e :: rest).takeWhile fun x => x.payload == e.payload)
      have hlen : ((e :: rest).dropWhile fun x => x.payload == e.payload).length ≤ fuel := by
        rw [dropWhile_cons, if_pos (beq_self_eq_true _)]
        have := (dropWhile_sublist (fun x : Edge => x.payload == e.payload) (l := rest)).length_le
        rw [length_cons] at hfuel
        omega
      obtain ⟨hmore, hfinal⟩ := ih (before ++ (e :: rest).takeWhile fun x => x.payload == e.payload)
        ((e :: rest).dropWhile fun x => x.payload == e.payload) _ value'
        (by rw [append_assoc, hjoin]; exact hsplit) hlen (by
          intro a ha b hb
          have hb' := hpast b hb
          rcases mem_append.mp ha with ha | ha
          · exact hbefore a ha b ((dropWhile_sublist _).subset hb)
          · rw [hrow a ha]
            exact hb') h'
      refine ⟨?_, hfinal⟩
      rw [hmore, ← map_append, hjoin]

theorem rankRows_spec (hrows : InRows N m n row position edges) :
    (rankRows position edges.length (PrefixMaximum.new n) edges).1 =
        edges.map (fun e => lcs N (row e) (position e) + 1) ∧
      PrefixMaximum.before (rankRows position edges.length (PrefixMaximum.new n) edges).2 n = lcs N m n := by
  obtain ⟨hranks, value, h⟩ := rankRows_from hrows edges.length [] edges (PrefixMaximum.new n)
    (fun _ => 0) rfl (le_refl _) (by simp) (ranked_new N n row position)
  refine ⟨hranks, h.before_eq hrows (le_refl m) (le_refl n) ?_⟩
  intro e
  exact ⟨fun he => ⟨he, (hrows.inside e he).1⟩, fun he => he.1⟩

end Loop

/-! ## Both passes -/

section Passes
variable {M : ℕ → ℕ → Bool} {m n : ℕ} {edges : List Edge}

section
variable (h : Lists M m n edges)
include h

theorem Lists.inRows_forward : InRows M m n Edge.payload Edge.reference edges := by
  refine ⟨?_, fun _ _ _ _ => Iff.rfl, ?_, ?_, ?_⟩
  · apply h.sorted.imp
    omega
  · intro i j hM hi hj
    exact ⟨⟨i, j⟩, (h.mem ⟨i, j⟩).mpr ⟨hM, hi, hj⟩, rfl, rfl⟩
  · intro e he
    exact ((h.mem e).mp he).1
  · intro e he
    exact ((h.mem e).mp he).2

theorem Lists.inRows_backward :
    InRows (mirror M m n) m n (fun e => m - 1 - e.payload) (fun e => n - 1 - e.reference)
      edges.reverse := by
  have hin : ∀ e ∈ edges.reverse, M e.payload e.reference = true ∧ e.payload < m ∧ e.reference < n :=
    fun e he => (h.mem e).mp (mem_reverse.mp he)
  refine ⟨?_, ?_, ?_, ?_, ?_⟩
  · rw [pairwise_reverse]
    apply h.sorted.imp
    omega
  · intro a ha b hb
    have h1 := hin a ha
    have h2 := hin b hb
    omega
  · intro i j hM hi hj
    refine ⟨⟨m - 1 - i, n - 1 - j⟩, mem_reverse.mpr ((h.mem _).mpr ⟨hM, ?_, ?_⟩), ?_, ?_⟩
    all_goals simp only
    all_goals omega
  · intro e he
    obtain ⟨hM, h1, h2⟩ := hin e he
    simp only [mirror]
    rw [show m - 1 - (m - 1 - e.payload) = e.payload by omega,
      show n - 1 - (n - 1 - e.reference) = e.reference by omega]
    exact hM
  · intro e he
    obtain ⟨_, h1, h2⟩ := hin e he
    omega

theorem rankForward_eq :
    rankForward n edges = (edges.map (fun e => lcs M e.payload e.reference + 1), lcs M m n) := by
  obtain ⟨hranks, hopt⟩ := rankRows_spec h.inRows_forward
  rw [rankForward, hranks, hopt]

theorem rankBackward_eq :
    (rankBackward n edges).reverse = edges.map (fun e => after M m n e.payload e.reference + 1) := by
  have hranks := (rankRows_spec h.inRows_backward).1
  rw [length_reverse] at hranks
  rw [rankBackward, hranks, ← map_reverse, reverse_reverse]
  apply map_congr_left
  intro e he
  obtain ⟨_, h1, h2⟩ := (h.mem e).mp he
  rw [after_eq_mirror h1 h2]

end

theorem zip_ranks (es : List Edge) (f g : Edge → ℕ) : (es.zip ((es.map f).zip (es.map g))).map
    (fun (edge, forward, backward) => (⟨edge, forward, backward⟩ : RankedEdge)) =
    es.map fun e => ⟨e, f e, g e⟩ := by
  induction es with
  | nil => rfl
  | cons e es ih => simpa using ih

theorem rankedEdges_eq (h : Lists M m n edges) : rankedEdges n edges = edges.map fun e =>
    ⟨e, lcs M e.payload e.reference + 1, after M m n e.payload e.reference + 1⟩ := by
  rw [rankedEdges, rankForward_eq h, rankBackward_eq h]
  exact zip_ranks edges _ _

end Passes

/-! ## Ranks with one edge -/

theorem iterate_observe (c : ℕ) : Multiplicity.observe^[c] .empty = .unique ↔ c = 1 := by
  match c with
  | 0 => simp
  | 1 => simp [Multiplicity.observe]
  | c + 2 =>
    have hcomp : ∀ k, Multiplicity.observe^[k] .competing = .competing := by
      intro k
      induction k with
      | zero => rfl
      | succ k ih => exact ih
    simp [Multiplicity.observe, hcomp]

theorem populations_get (optimum : ℕ) (edges : List RankedEdge) (k : ℕ) :
    (populations optimum edges)[k]? = if k < optimum then
      some (Multiplicity.observe^[edges.countP fun e => e.optimal optimum && e.forward - 1 == k] .empty)
    else none := by
  have hfold : ∀ (edges : List RankedEdge) (pops : List Multiplicity), (edges.foldl (fun pops e =>
        if e.optimal optimum then pops.modify (e.forward - 1) Multiplicity.observe else pops) pops)[k]? =
      (pops[k]?).map
        (Multiplicity.observe^[edges.countP fun e => e.optimal optimum && e.forward - 1 == k]) := by
    intro edges
    induction edges with
    | nil => simp
    | cons e edges ih =>
      intro pops
      rw [foldl_cons, ih, countP_cons]
      cases hopt : e.optimal optimum with
      | false => simp
      | true =>
        by_cases hk : e.forward - 1 = k
        · subst hk
          cases hpop : pops[e.forward - 1]? <;>
            simp [hpop]
        · have hbeq : (e.forward - 1 == k) = false := by simpa using hk
          simp [hk, hbeq]
  rw [populations, hfold, getElem?_replicate]
  split_ifs <;> rfl

theorem countP_eq_one_iff {α : Type} {l : List α} {p : α → Bool} {x : α} (hnodup : l.Nodup)
    (hx : x ∈ l) (hpx : p x = true) : l.countP p = 1 ↔ ∀ y ∈ l, p y = true → y = x := by
  have hmem : x ∈ l.filter p := mem_filter.mpr ⟨hx, hpx⟩
  rw [countP_eq_length_filter]
  refine ⟨?_, ?_⟩
  · intro hone y hy hpy
    obtain ⟨z, hz⟩ := length_eq_one_iff.mp hone
    have hy' : y ∈ l.filter p := mem_filter.mpr ⟨hy, hpy⟩
    rw [hz, mem_singleton] at hmem hy'
    rw [hy', hmem]
  · intro hall
    have hnd : (l.filter p).Nodup := hnodup.filter p
    cases hf : l.filter p with
    | nil =>
      rw [hf] at hmem
      simp at hmem
    | cons a as =>
      cases as with
      | nil => rfl
      | cons b bs =>
        rw [hf] at hnd
        have ha := mem_filter.mp (show a ∈ l.filter p by rw [hf]; simp)
        have hb := mem_filter.mp (show b ∈ l.filter p by rw [hf]; simp)
        have hab : a = b := (hall a ha.1 ha.2).trans (hall b hb.1 hb.2).symm
        rw [hab] at hnd
        simp at hnd

section Certify
variable {M : ℕ → ℕ → Bool} {m n : ℕ} {edges : List Edge}

section
variable (h : Lists M m n edges)
include h

theorem Lists.onOptimal_iff {e : Edge} (he : e ∈ edges) : RankedEdge.optimal (lcs M m n)
        ⟨e, lcs M e.payload e.reference + 1, after M m n e.payload e.reference + 1⟩ = true ↔
      OnOptimal M m n (e.payload, e.reference) := by
  obtain ⟨hM, hin⟩ := (h.mem e).mp he
  rw [RankedEdge.optimal, beq_iff_eq]
  refine ⟨fun hsum => ⟨hM, hin, by simp only at hsum ⊢; omega⟩, fun hon => ?_⟩
  have := hon.through
  simp only at this ⊢
  omega

theorem Lists.nodup : edges.Nodup := by
  apply h.sorted.imp
  intro a b hab heq
  subst heq
  omega

theorem mem_certifySparse (p : ℕ × ℕ) : p ∈ certifySparse n edges ↔ Common M m n p := by
  by_cases hempty : edges.isEmpty = true
  · rw [certifySparse, if_pos hempty]
    refine ⟨fun hp => absurd hp (by simp), fun hcommon => ?_⟩
    obtain ⟨hM, hin, _⟩ := (common_iff.mp hcommon).1
    have hmem := (h.mem ⟨p.1, p.2⟩).mpr ⟨hM, hin⟩
    rw [List.isEmpty_iff.mp hempty] at hmem
    simp at hmem
  · rw [certifySparse, if_neg hempty, rankForward_eq h, rankedEdges_eq h]
    have hnodup : (edges.map fun e => (⟨e, lcs M e.payload e.reference + 1,
        after M m n e.payload e.reference + 1⟩ : RankedEdge)).Nodup := by
      apply h.nodup.map
      intro a b hab
      exact (RankedEdge.mk.inj hab).1
    -- an optimal edge is alone at its rank exactly if its population is one
    have hkeep : ∀ e ∈ edges, OnOptimal M m n (e.payload, e.reference) →
        ((populations (lcs M m n) (edges.map fun e => ⟨e, lcs M e.payload e.reference + 1,
          after M m n e.payload e.reference + 1⟩))[lcs M e.payload e.reference]? = some .unique ↔
        ∀ q, OnOptimal M m n q → lcs M q.1 q.2 = lcs M e.payload e.reference →
          q = (e.payload, e.reference)) := by
      intro e he hon
      have hlt : lcs M e.payload e.reference < lcs M m n := by
        have := hon.through
        simp only at this
        omega
      rw [populations_get, if_pos hlt, Option.some.injEq, iterate_observe,
        countP_eq_one_iff hnodup (mem_map_of_mem he) (by
          rw [(h.onOptimal_iff he).mpr hon]
          simp)]
      refine ⟨?_, ?_⟩
      · intro hall q hq hrank
        have hqmem : (⟨q.1, q.2⟩ : Edge) ∈ edges := (h.mem _).mpr ⟨hq.matching, hq.inside⟩
        have heq := hall _ (mem_map_of_mem hqmem) (by
          rw [(h.onOptimal_iff hqmem).mpr hq]
          simpa using hrank)
        have hedge := (RankedEdge.mk.inj heq).1
        rw [← hedge]
      · intro hall y hy hpy
        obtain ⟨d, hd, rfl⟩ := mem_map.mp hy
        rw [Bool.and_eq_true] at hpy
        have hdon := (h.onOptimal_iff hd).mp hpy.1
        have heq := hall (d.payload, d.reference) hdon (by simpa using hpy.2)
        obtain ⟨h1, h2⟩ := Prod.mk.inj heq
        have : d = e := by
          cases d
          simp only at h1 h2
          rw [h1, h2]
        rw [this]
    simp only [mem_map, mem_filter, Bool.and_eq_true, decide_eq_true_eq]
    refine ⟨?_, ?_⟩
    · intro hp
      obtain ⟨x, ⟨⟨e, he, rfl⟩, hopt, hpop⟩, rfl⟩ := hp
      have hon := (h.onOptimal_iff he).mp hopt
      rw [common_iff]
      exact ⟨hon, (hkeep e he hon).mp (by simpa using hpop)⟩
    · intro hcommon
      obtain ⟨hon, hall⟩ := common_iff.mp hcommon
      have he : (⟨p.1, p.2⟩ : Edge) ∈ edges := (h.mem _).mpr ⟨hon.matching, hon.inside⟩
      refine ⟨_, ⟨⟨⟨p.1, p.2⟩, he, rfl⟩, (h.onOptimal_iff he).mpr hon, ?_⟩, rfl⟩
      simpa using (hkeep _ he hon).mpr hall

theorem certifySparse_sorted : (certifySparse n edges).Pairwise Before := by
  have hcommon := fun p => (mem_certifySparse h p).mp
  have hsub : (certifySparse n edges).Sublist (edges.map fun e => (e.payload, e.reference)) := by
    rw [certifySparse]
    split_ifs
    · simp
    · rw [rankedEdges_eq h]
      have hmap : edges.map (fun e => (e.payload, e.reference)) = (edges.map fun e =>
          (⟨e, lcs M e.payload e.reference + 1, after M m n e.payload e.reference + 1⟩ : RankedEdge)).map
            fun e => (e.edge.payload, e.edge.reference) := by
        rw [map_map]
        rfl
      rw [hmap]
      exact filter_sublist.map _
  have hlex : (certifySparse n edges).Pairwise fun p q => p.1 < q.1 ∨ (p.1 = q.1 ∧ p.2 < q.2) := by
    apply Pairwise.sublist hsub
    rw [pairwise_map]
    exact h.sorted
  apply hlex.imp_of_mem
  intro p q hp hq hpq
  rcases hpq with hlt | ⟨heq, hlt⟩
  · exact (hcommon p hp).before_of_fst (hcommon q hq) hlt
  · rw [(hcommon p hp).eq_of_fst (hcommon q hq) heq] at hlt
    omega

end

end Certify

end Batchalign.DpAlign
