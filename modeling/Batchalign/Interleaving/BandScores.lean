import Batchalign.Interleaving.Band

/- The rows of the scalar search are scores. No run of at least the feasible score leaves the depths a
   cut allows (`kept_of_runs`), so the rows solve the recurrence of the runs from either end
   (`forward_scores`, `backward_suffixes`). -/
namespace Batchalign.Interleaving
open Batchalign.DpAlign WordRuns List

/-! ## The slots of a row -/

theorem lt_partitionPoint_iff {α : Type} {p : α → Bool} {l : List α}
    (hsorted : l.Pairwise fun a b => p b = true → p a = true) {i : ℕ} :
    i < partitionPoint p l ↔ ∃ a, l[i]? = some a ∧ p a = true := by
  exact PartitionPoint.lt_takeWhile_iff hsorted

namespace Band
variable {band : Band} {words : ℕ} {k v : ℕ}

def Keeps (band : Band) (v k : ℕ) : Prop :=
  v < band.graph.nodes ∧ (band.depthsAt k).1 ≤ band.graph.depth v ∧
    band.graph.depth v ≤ (band.depthsAt k).2

theorem row_has (k : ℕ) (fill : Score) (slot : ℕ) : (band.row k fill).Has slot ↔
    (band.slots k).1 ≤ slot ∧ slot < (band.slots k).2 := by
  show (band.slots k).1 ≤ slot ∧ slot < (band.slots k).1 + (replicate _ fill).length ↔ _
  rw [length_replicate]
  omega

theorem row_get_of_has {fill : Score} {slot : ℕ} (h : (band.row k fill).Has slot) :
    (band.row k fill).get slot = fill := by
  rw [row_has] at h
  show (if slot < (band.slots k).1 then none
    else ((replicate ((band.slots k).2 - (band.slots k).1) fill)[slot - (band.slots k).1]?).join) = fill
  rw [if_neg (by omega), getElem?_replicate, if_pos (by omega)]
  rfl

theorem has_row_iff (G : band.graph.Laid words) (k : ℕ) (fill : Score) (hv : v < band.graph.nodes) :
    (band.row k fill).Has (band.graph.rank v) ↔ band.Keeps v k := by
  have hslot := G.slot v hv
  have hlow : band.graph.order.Pairwise fun a b =>
      decide (band.graph.depth b < (band.depthsAt k).1) = true →
        decide (band.graph.depth a < (band.depthsAt k).1) = true := by
    refine G.sorted.imp ?_
    intro a b hab hb
    exact decide_eq_true (lt_of_le_of_lt hab (of_decide_eq_true hb))
  have hhigh : band.graph.order.Pairwise fun a b =>
      decide (band.graph.depth b ≤ (band.depthsAt k).2) = true →
        decide (band.graph.depth a ≤ (band.depthsAt k).2) = true := by
    refine G.sorted.imp ?_
    intro a b hab hb
    exact decide_eq_true (hab.trans (of_decide_eq_true hb))
  rw [row_has, slots, Keeps, ← not_lt, lt_partitionPoint_iff hlow, lt_partitionPoint_iff hhigh,
    hslot]
  simp only [Option.some.injEq, exists_eq_left', decide_eq_true_eq]
  omega

theorem slot_lt_of_has (G : band.graph.Laid words) {fill : Score} {slot : ℕ}
    (h : (band.row k fill).Has slot) : slot < band.graph.nodes := by
  rw [row_has] at h
  have hle : (band.slots k).2 ≤ band.graph.order.length := by
    exact (takeWhile_sublist _).length_le
  rw [G.length_order] at hle
  omega

/-! ## No good run leaves the band -/

structure Admits (band : Band) (words : ℕ) : Prop where
  sourceLen : band.sourceLen = words
  referenceLen : band.referenceLen = band.relation.referenceLen
  capacity : ∀ capacity, band.capacity = some capacity →
    capacity.source.length = words ∧ capacity.Bounds band.relation band.feasible

theorem kept_of_runs (G : band.graph.Laid words) (hadmits : band.Admits words) {σ τ : List ℕ}
    {a c : List (ℕ × ℕ)} (ha : Run band.graph.Connects band.relation.matchesAt 0 0 v k σ a)
    (hc : Run band.graph.Connects band.relation.matchesAt v k band.graph.finish band.referenceLen τ c)
    (hle : band.feasible ≤ a.length + c.length) : band.Keeps v k := by
  have hv := G.path_inside ha.path G.start.1
  have hk := hc.le
  -- the words on both sides, and the references on both sides
  have hbefore := G.path_depth ha.path
  have hafter := G.path_depth hc.path
  rw [G.finish.2] at hafter
  have haWords := ha.length_le_words
  have hcWords := hc.length_le_words
  have haReferences := ha.length_add_le
  have hcReferences := hc.length_add_le
  refine ⟨hv, ?_⟩
  rw [depthsAt]
  cases hcapacity : band.capacity with
  | none =>
    simp only
    rw [hadmits.sourceLen]
    omega
  | some capacity =>
    obtain ⟨hsource, hbounds⟩ := hadmits.capacity capacity hcapacity
    have hprefix := hbounds.before k (by rw [← hadmits.referenceLen]; exact hk) σ a ha.assigned
      (G.path_nodup ha.path G.start.1).1
    have hassigned := hc.assigned
    rw [hadmits.referenceLen] at hassigned
    have hsuffix := hbounds.after k (by rw [← hadmits.referenceLen]; exact hk) τ c hassigned
      (G.path_nodup hc.path hv).1
    simp only [ReferenceCapacity.depths, depthBounds]
    rw [hbounds.feasible, hsource]
    omega

/-! ## The recurrence -/

def scoresOf (band : Band) (rows : ℕ → Row) (v k : ℕ) : Score :=
  if v < band.graph.nodes then (rows (min k band.referenceLen)).get (band.graph.rank v) else none

theorem recurrence_of_fill (G : band.graph.Laid words) (E : ℕ → Option ℕ → ℕ → Prop)
    (M : ℕ → ℕ → Bool) (start : ℕ) (adjacent : ℕ → List Edge) (rows : ℕ → Row) (cut index : ℕ → ℕ)
    (before : ℕ → ℕ → Prop) (slotsOf : Row → List ℕ) (hE : ∀ v e, e ∈ adjacent v ↔ E e.target e.word v)
    (hinside : ∀ u w v, E u w v → u < band.graph.nodes ∧ v < band.graph.nodes)
    (hbefore : ∀ u w v, E u w v → band.graph.rank u ≠ band.graph.rank v ∧
      ¬ before (band.graph.rank v) (band.graph.rank u)) (hirrefl : ∀ slot, ¬ before slot slot)
    (hslots : ∀ row : Row, (slotsOf row).Pairwise before ∧ ∀ slot, slot ∈ slotsOf row ↔ row.Has slot)
    (hM : ∀ w k, k < band.referenceLen → M w k = band.relation.matchesAt w (index k))
    (hreached : ∀ v < band.graph.nodes, ∃ σ, Path E start σ v)
    (hfirst : rows 0 = band.row (cut 0) (some 0)) (hrows : ∀ k < band.referenceLen, rows (k + 1) =
      band.fill adjacent (rows k) (index k) (band.row (cut (k + 1)) none)
        (slotsOf (band.row (cut (k + 1)) none))) :
    Recurrence E M start band.referenceLen (fun v k => band.Keeps v (cut k)) (band.scoresOf rows) := by
  -- the cells of a row
  have hcell : ∀ k < band.referenceLen, ∀ v < band.graph.nodes, band.Keeps v (cut (k + 1)) →
      (rows (k + 1)).get (band.graph.rank v) =
        ((adjacent v).flatMap (band.offers (rows k) (index k) (rows (k + 1)).get)).foldl max
          ((rows k).get (band.graph.rank v)) := by
    intro k hk v hv hkept
    have hhas := (has_row_iff G (cut (k + 1)) none hv).mpr hkept
    obtain ⟨hsorted, hmem⟩ := hslots (band.row (cut (k + 1)) none)
    have hadjacent : ∀ slot ∈ slotsOf (band.row (cut (k + 1)) none),
        ∀ e ∈ adjacent (band.graph.order.getD slot 0),
          band.graph.rank e.target ≠ slot ∧ ¬ before slot (band.graph.rank e.target) := by
      intro slot hslot e he
      have hlt := slot_lt_of_has G ((hmem slot).mp hslot)
      have := hbefore _ _ _ ((hE _ e).mp he)
      rwa [(G.rank_order hlt).1] at this
    obtain ⟨hget, -, -⟩ := fill_get band adjacent (rows k) (index k) hsorted (fun slot _ => hirrefl slot) hmem hadjacent
    have hnone : (band.row (cut (k + 1)) none).get (band.graph.rank v) = none := row_get_of_has hhas
    have hvalue := hget _ hhas
    rw [← hrows k hk, G.order_rank hv, hnone, Option.max_none_left] at hvalue
    exact hvalue
  have hkept : ∀ k < band.referenceLen, ∀ v < band.graph.nodes, ∀ t,
      (rows (k + 1)).get (band.graph.rank v) = some t → band.Keeps v (cut (k + 1)) := by
    intro k hk v hv t ht
    have hhas := Row.has_of_get ht
    obtain ⟨hsorted, hmem⟩ := hslots (band.row (cut (k + 1)) none)
    obtain ⟨-, hfirst', hlen⟩ := fill_get band adjacent (rows k) (index k) hsorted (fun slot _ => hirrefl slot) hmem (by
        intro slot hslot e he
        have hlt := slot_lt_of_has G ((hmem slot).mp hslot)
        have := hbefore _ _ _ ((hE _ e).mp he)
        rwa [(G.rank_order hlt).1] at this)
    rw [hrows k hk, Row.Has, hfirst', hlen] at hhas
    exact (has_row_iff G (cut (k + 1)) none hv).mp hhas
  -- a score one of the edges or the row beside offers is in the row
  have hoffered : ∀ k < band.referenceLen, ∀ v, band.Keeps v (cut (k + 1)) → ∀ t,
      ((rows k).get (band.graph.rank v) = some t ∨
        some t ∈ (adjacent v).flatMap (band.offers (rows k) (index k) (rows (k + 1)).get)) →
      ∃ t', band.scoresOf rows v (k + 1) = some t' ∧ t ≤ t' := by
    intro k hk v hkeeps t ht
    obtain ⟨t', ht', hle⟩ := le_foldl_max ht
    refine ⟨t', ?_, hle⟩
    rw [scoresOf, if_pos hkeeps.1, Nat.min_eq_left hk, hcell k hk v hkeeps.1 hkeeps, ht']
  have hscore : ∀ k < band.referenceLen, ∀ v t, band.scoresOf rows v k = some t →
      v < band.graph.nodes ∧ (rows k).get (band.graph.rank v) = some t := by
    intro k hk v t ht
    rw [scoresOf, Nat.min_eq_left hk.le] at ht
    split_ifs at ht with hv
    exact ⟨hv, ht⟩
  refine ⟨?_, ?_, ?_, ?_, ?_, ?_⟩
  · intro v t ht
    rw [scoresOf, Nat.zero_min, hfirst] at ht
    split_ifs at ht with hv
    rw [row_get_of_has (Row.has_of_get ht)] at ht
    exact ⟨(Option.some.inj ht).symm, hreached v hv⟩
  · intro v hkeeps
    have hhas := (has_row_iff G (cut 0) (some 0) hkeeps.1).mpr hkeeps
    rw [scoresOf, if_pos hkeeps.1, Nat.zero_min, hfirst, row_get_of_has hhas]
  · intro v k t ht
    by_cases hk : k < band.referenceLen
    · have hv : v < band.graph.nodes := by
        by_contra hnot
        rw [scoresOf, if_neg hnot] at ht
        cases ht
      rw [scoresOf, if_pos hv, Nat.min_eq_left hk] at ht
      have hvalue := hcell k hk v hv (hkept k hk v hv t ht)
      rw [ht] at hvalue
      rcases foldl_max_eq_some hvalue.symm with hkeep | hmem
      · left
        rw [scoresOf, if_pos hv, Nat.min_eq_left hk.le, hkeep]
      · obtain ⟨e, he, hoffer⟩ := mem_flatMap.mp hmem
        have hedge := (hE v e).mp he
        have hu := (hinside _ _ _ hedge).1
        right
        rcases mem_cons.mp hoffer with hpass | htake
        · left
          refine ⟨e.target, e.word, hedge, ?_⟩
          rw [scoresOf, if_pos hu, Nat.min_eq_left hk, hpass]
        · right
          rw [mem_singleton] at htake
          split_ifs at htake with htakes
          rw [takes, Option.any_eq_true] at htakes
          obtain ⟨w, hw, hmatch⟩ := htakes
          obtain ⟨t', ht', heq⟩ := Option.map_eq_some_iff.mp htake.symm
          refine ⟨e.target, w, t', by rw [← hw]; exact hedge, by rw [hM w k hk, hmatch], ?_, heq.symm⟩
          rw [scoresOf, if_pos hu, Nat.min_eq_left hk.le, ht']
    · left
      rw [scoresOf, Nat.min_eq_right (by omega)] at ht ⊢
      exact ht
  · intro v k t hk hkeeps ht
    exact hoffered k hk v hkeeps t (.inl (hscore k hk v t ht).2)
  · intro u w v k t hk hkeeps he ht
    refine hoffered k hk v hkeeps t (.inr (mem_flatMap.mpr ⟨⟨u, w⟩, (hE v _).mpr he, ?_⟩))
    rw [scoresOf, if_pos (hinside _ _ _ he).1, Nat.min_eq_left hk] at ht
    exact mem_cons.mpr (.inl ht.symm)
  · intro u w v k t hk hkeeps he hmatch ht
    refine hoffered k hk v hkeeps (t + 1)
      (.inr (mem_flatMap.mpr ⟨⟨u, some w⟩, (hE v _).mpr he, ?_⟩))
    have htakes : band.takes (index k) ⟨u, some w⟩ = true := by
      rw [takes, Option.any_some, ← hM w k hk, hmatch]
    simp only [offers, htakes, if_true, (hscore k hk u t ht).2]
    exact mem_cons_of_mem _ mem_cons_self

/-! ## The rows of a search -/

def forwardRow (band : Band) : ℕ → Row
  | 0 => band.initial
  | k + 1 => band.forward (band.forwardRow k) k

def backwardRow (band : Band) : ℕ → Row
  | 0 => band.terminal
  | d + 1 => band.backward (band.backwardRow d) (band.referenceLen - 1 - d)

def forwardScore (band : Band) : ℕ → ℕ → Score := band.scoresOf band.forwardRow

def backwardScore (band : Band) (v k : ℕ) : Score :=
  if k ≤ band.referenceLen then band.scoresOf band.backwardRow v (band.referenceLen - k) else none

variable (G : band.graph.Laid words) (hadmits : band.Admits words)
include G hadmits

theorem forward_scores : Scores band.graph.Connects band.relation.matchesAt 0 band.graph.finish
    band.referenceLen band.feasible band.forwardScore := by
  have hrec := recurrence_of_fill G band.graph.Connects band.relation.matchesAt 0
    band.graph.incoming band.forwardRow (fun k => k) (fun k => k) (· < ·) Row.slots G.incoming G.inside
    (fun u w v he => ⟨(G.grows u w v he).ne, Nat.not_lt.mpr (G.grows u w v he).le⟩)
    (fun slot => lt_irrefl slot)
    (fun row => ⟨pairwise_lt_range', fun _ => Row.mem_slots⟩)
    (fun _ _ _ => rfl) G.reached rfl (fun _ _ => rfl)
  apply hrec.scores band.graph.rank G.grows
  intro v k σ a τ c ha hc hle
  exact kept_of_runs G hadmits ha hc hle

theorem backward_suffixes : Suffixes band.graph.Connects band.relation.matchesAt 0 band.graph.finish
    band.referenceLen band.feasible band.backwardScore := by
  have hreached : ∀ {u σ v}, Path band.graph.Connects u σ v →
      ∃ τ, Path (flip band.graph.Connects) v τ u := by
    intro u σ v hpath
    induction hpath with
    | here => exact ⟨[], .here⟩
    | @step x y σ w _ he ih =>
      obtain ⟨τ, hτ⟩ := ih
      exact ⟨_, hτ.cons (show flip band.graph.Connects y w x from he)⟩
  have hrec := recurrence_of_fill G (flip band.graph.Connects)
    (mirror band.relation.matchesAt band.referenceLen) band.graph.finish band.graph.edges
    band.backwardRow (fun k => band.referenceLen - k) (fun k => band.referenceLen - 1 - k) (· > ·)
    (fun row => row.slots.reverse)
    (fun _ _ => Iff.rfl)
    (fun u w v he => (G.inside v w u he).symm)
    (fun u w v he => ⟨(G.grows v w u he).ne', Nat.not_lt.mpr (G.grows v w u he).le⟩)
    (fun slot => lt_irrefl slot)
    (fun row => ⟨pairwise_reverse.mpr pairwise_lt_range', fun _ => mem_reverse.trans Row.mem_slots⟩)
    (fun _ _ _ => rfl)
    (fun v hv => by
      obtain ⟨σ, hσ⟩ := G.reaching v hv
      exact hreached hσ)
    rfl
    (fun k hk => by
      have hcut : band.referenceLen - 1 - k = band.referenceLen - (k + 1) := by omega
      show band.backward (band.backwardRow k) _ = _
      rw [backward, hcut])
  have hscores : Scores (flip band.graph.Connects)
      (mirror band.relation.matchesAt band.referenceLen) band.graph.finish 0 band.referenceLen
      band.feasible (band.scoresOf band.backwardRow) := hrec.scores
    (fun v => band.graph.nodes - band.graph.rank v)
    (fun u w v he => by
      have hlt := G.grows v w u he
      have := G.rank_lt (G.inside v w u he).2
      omega)
    (by
      intro v k σ a τ c ha hc hle
      have hk := hc.le
      -- the run read in the graph's own direction
      obtain ⟨a', ha', hlen⟩ := ha.unmirror hk
      obtain ⟨c', hc', hlen'⟩ := hc.unmirror (le_refl _)
      rw [Nat.sub_self] at hc'
      rw [Nat.sub_zero] at ha'
      exact kept_of_runs G hadmits hc' ha' (by omega))
  apply Suffixes.of_mirror
  · intro v k t ht
    rw [backwardScore] at ht
    split_ifs at ht with hk
    exact hk
  · convert hscores using 3 with v k
    rw [backwardScore, if_pos (Nat.sub_le _ _), scoresOf, scoresOf, Nat.min_eq_left (Nat.sub_le _ _),
      Nat.sub_sub_eq_min, Nat.min_comm]

end Band

end Batchalign.Interleaving
