import Mathlib.Data.List.GetD
import Batchalign.Lib.PatienceSort
import Batchalign.Fa.Neighbours
import Batchalign.Fa.Repair

/- What selective timing removal leaves (`find_lis_removals`). -/
namespace Batchalign.Fa
open List
open PatienceSort (Chain Longest Piles place pileFor before endsBy lastChain)

/-! ## The search -/

section Predecessors
variable {prev : List (Option ℕ)}

def PointsBack (prev : List (Option ℕ)) : Prop := ∀ j q, prev.getD j none = some q → q < j

theorem getLast?_predecessors (fuel idx : ℕ) : (predecessors prev fuel idx).getLast? = some idx := by
  cases fuel with
  | zero => rfl
  | succ fuel =>
    rw [predecessors]
    cases prev.getD idx none with
    | none => rfl
    | some p => exact getLast?_concat

theorem predecessors_fuel (h : PointsBack prev) : ∀ (fuel fuel' idx : ℕ), idx ≤ fuel → idx ≤ fuel' →
    predecessors prev fuel idx = predecessors prev fuel' idx := by
  -- at index 0 there is no pointer to follow, so no fuel is needed
  have hzero : ∀ fuel, predecessors prev fuel 0 = [0] := by
    intro fuel
    cases fuel with
    | zero => rfl
    | succ fuel =>
      rw [predecessors]
      cases hp : prev.getD 0 none with
      | none => rfl
      | some p => exact absurd (h 0 p hp) (Nat.not_lt_zero p)
  intro fuel
  induction fuel with
  | zero =>
    intro fuel' idx hidx _
    rw [Nat.le_zero.mp hidx, hzero, hzero]
  | succ fuel ih =>
    intro fuel' idx hidx hidx'
    cases fuel' with
    | zero => rw [Nat.le_zero.mp hidx', hzero, hzero]
    | succ fuel' =>
      rw [predecessors, predecessors]
      cases hp : prev.getD idx none with
      | none => rfl
      | some p =>
        have := h idx p hp
        show predecessors prev fuel p ++ [idx] = predecessors prev fuel' p ++ [idx]
        rw [ih fuel' p (by omega) (by omega)]

theorem predecessors_append (h : PointsBack prev) (more : List (Option ℕ)) : ∀ fuel idx, idx < prev.length →
    predecessors (prev ++ more) fuel idx = predecessors prev fuel idx := by
  intro fuel
  induction fuel with
  | zero => exact fun _ _ => rfl
  | succ fuel ih =>
    intro idx hidx
    rw [predecessors, predecessors, getD_append _ _ _ _ hidx]
    cases hp : prev.getD idx none with
    | none => rfl
    | some p =>
      show predecessors (prev ++ more) fuel p ++ [idx] = predecessors prev fuel p ++ [idx]
      rw [ih p ((h idx p hp).trans hidx)]

end Predecessors

section Search
variable {values : List ℕ} {seen : ℕ} {p : Patience}

/-- The search after the first `seen` indices: the chains its tails spell are the piles. -/
structure Searched (values : List ℕ) (seen : ℕ) (p : Patience) : Prop where
  count : p.prev.length = seen
  inside : ∀ t ∈ p.tails, t < seen
  back : PointsBack p.prev
  piles : Piles (fun i => values.getD i 0) (List.range seen) (p.tails.map (predecessors p.prev values.length))

theorem pileOf_eq (values tails : List ℕ) (prev : List (Option ℕ)) (fuel i : ℕ) :
    pileOf values tails (values.getD i 0) =
      pileFor (fun i => values.getD i 0) (tails.map (predecessors prev fuel)) i := by
  unfold pileOf pileFor
  rw [takeWhile_map, length_map]
  congr 2
  funext t
  show _ = endsBy (fun i => values.getD i 0) i (predecessors prev fuel t)
  rw [endsBy, getLast?_predecessors]
  rfl

theorem patienceStep_searched (h : Searched values seen p) (hin : seen < values.length) :
    Searched values (seen + 1) (patienceStep values p seen) := by
  have hpos := pileOf_eq values p.tails p.prev values.length seen
  have hle : pileOf values p.tails (values.getD seen 0) ≤ p.tails.length := (takeWhile_sublist _).length_le
  -- overwriting a pile or adding one is one operation on lists
  have htails : (patienceStep values p seen).tails = p.tails.take (pileOf values p.tails (values.getD seen 0)) ++
      seen :: p.tails.drop (pileOf values p.tails (values.getD seen 0) + 1) := by
    show (if _ then p.tails ++ [seen] else p.tails.set _ seen) = _
    split_ifs with hend
    · rw [hend, take_length, drop_of_length_le (Nat.le_succ _)]
    · rw [set_eq_take_append_cons_drop, if_pos (lt_of_le_of_ne hle hend)]
  obtain ⟨pointer, hprev, hpointer⟩ : ∃ pointer, (patienceStep values p seen).prev = p.prev ++ [pointer] ∧
      pointer = if 0 < pileOf values p.tails (values.getD seen 0)
        then p.tails[pileOf values p.tails (values.getD seen 0) - 1]? else none := by
    refine ⟨_, ?_, rfl⟩
    show p.prev ++ [if 0 < pileOf values p.tails (values.getD seen 0)
      then (patienceStep values p seen).tails[pileOf values p.tails (values.getD seen 0) - 1]? else none] = _
    by_cases hfirst : 0 < pileOf values p.tails (values.getD seen 0)
    · rw [if_pos hfirst, if_pos hfirst, htails, getElem?_append_left (by rw [length_take]; omega),
        getElem?_take_of_lt (by omega)]
    · rw [if_neg hfirst, if_neg hfirst]
  generalize pileOf values p.tails (values.getD seen 0) = pos at *
  have hpointed : ∀ q, pointer = some q → q < seen := by
    intro q hq
    rw [hpointer] at hq
    split_ifs at hq
    exact h.inside q (mem_of_getElem? hq)
  have hback : PointsBack (p.prev ++ [pointer]) := by
    intro j q hq
    rcases lt_trichotomy j p.prev.length with hlt | rfl | hgt
    · rw [getD_append _ _ _ _ hlt] at hq
      exact h.back j q hq
    · rw [getD_append_right _ _ _ _ le_rfl, Nat.sub_self] at hq
      rw [h.count]
      exact hpointed q hq
    · rw [getD_eq_default _ _ (by rw [length_append, length_singleton]; omega)] at hq
      cases hq
  refine ⟨?_, ?_, ?_, ?_⟩
  · rw [hprev, length_append, length_singleton, h.count]
  · intro t ht
    rw [htails] at ht
    rcases mem_append.mp ht with ht | ht
    · exact (h.inside t (mem_of_mem_take ht)).trans (Nat.lt_succ_self seen)
    · rcases mem_cons.mp ht with rfl | ht
      · exact Nat.lt_succ_self t
      · exact (h.inside t (mem_of_mem_drop ht)).trans (Nat.lt_succ_self seen)
  · rw [hprev]
    exact hback
  · -- the chains of the old tails stand, and the new one is put behind the pile before
    have hold : ∀ tails : List ℕ, (∀ t ∈ tails, t < seen) →
        tails.map (predecessors (p.prev ++ [pointer]) values.length) =
          tails.map (predecessors p.prev values.length) := by
      intro tails htails
      apply map_congr_left
      intro t ht
      apply predecessors_append h.back
      rw [h.count]
      exact htails t ht
    have hnew : predecessors (p.prev ++ [pointer]) values.length seen =
        before (fun i => values.getD i 0) (p.tails.map (predecessors p.prev values.length)) seen ++ [seen] := by
      obtain ⟨fuel, hfuel⟩ : ∃ fuel, values.length = fuel + 1 := ⟨values.length - 1, by omega⟩
      have hget : (p.prev ++ [pointer]).getD seen none = pointer := by
        rw [getD_append_right _ _ _ _ h.count.le, h.count, Nat.sub_self]
        rfl
      unfold before
      rw [← hpos, getElem?_map]
      conv_lhs => rw [hfuel, predecessors, hget]
      by_cases hfirst : 0 < pos
      · obtain ⟨t, ht⟩ : ∃ t, p.tails[pos - 1]? = some t := ⟨_, getElem?_eq_getElem (by omega)⟩
        have htin := h.inside t (mem_of_getElem? ht)
        rw [if_pos hfirst, ht] at hpointer
        subst hpointer
        rw [if_neg hfirst.ne', ht]
        show predecessors (p.prev ++ [some t]) fuel t ++ [seen] = predecessors p.prev values.length t ++ [seen]
        rw [predecessors_append h.back _ _ _ (h.count.symm ▸ htin),
          predecessors_fuel h.back fuel values.length t (by omega) (by omega)]
      · rw [if_neg hfirst] at hpointer
        subst hpointer
        rw [if_pos (Nat.eq_zero_of_not_pos hfirst)]
        rfl
    have hplace := h.piles.place seen
    rw [← range_succ] at hplace
    rw [hprev, htails, map_append, map_cons, hnew,
      hold _ fun t ht => h.inside t (mem_of_mem_take ht),
      hold _ fun t ht => h.inside t (mem_of_mem_drop ht), map_take, map_drop, hpos]
    exact hplace

theorem foldl_searched (values : List ℕ) : ∀ seen ≤ values.length,
    Searched values seen ((range seen).foldl (patienceStep values) ⟨[], []⟩) := by
  intro seen
  induction seen with
  | zero =>
    refine fun _ => ⟨rfl, fun t ht => ?_, fun j q hq => ?_, Piles.nil⟩
    · cases ht
    · cases hq
  | succ seen ih =>
    intro hseen
    rw [range_succ, foldl_append]
    exact patienceStep_searched (ih (Nat.le_of_succ_le hseen)) hseen

theorem longestIncreasingSubsequence_longest (values : List ℕ) :
    Longest (fun i => values.getD i 0) (range values.length) (longestIncreasingSubsequence values) := by
  have hsearched := foldl_searched values values.length le_rfl
  have hlast : longestIncreasingSubsequence values =
      lastChain ((((range values.length).foldl (patienceStep values) ⟨[], []⟩).tails).map
        (predecessors ((range values.length).foldl (patienceStep values) ⟨[], []⟩).prev values.length)) := by
    unfold longestIncreasingSubsequence lastChain
    rw [getLast?_map]
    dsimp only
    cases ((range values.length).foldl (patienceStep values) ⟨[], []⟩).tails.getLast? <;> rfl
  rw [hlast]
  exact hsearched.piles.longest

end Search

/-! ## One segment -/

theorem filter_mem_of_sublist {α : Type} [DecidableEq α] {l c : List α} (hl : l.Nodup) (h : c.Sublist l) :
    l.filter (fun i => decide (i ∈ c)) = c := by
  have hkeep : c.filter (fun i => decide (i ∈ c)) = c := filter_eq_self.mpr fun i hi => decide_eq_true hi
  have hsub : c.Sublist (l.filter fun i => decide (i ∈ c)) := by
    have := h.filter fun i => decide (i ∈ c)
    rwa [hkeep] at this
  apply (hsub.eq_of_length_le ?_).symm
  apply ((hl.filter _).subperm ?_).length_le
  intro i hi
  exact of_decide_eq_true (mem_filter.mp hi).2

/-- What stays of a segment, for the removals of `remove_outside_lis`. -/
structure SegmentKept (segment : List BulletEntry) (lower upper : Option ℕ) (removals : List ℕ)
    (kept : List BulletEntry) : Prop where
  sublist : kept.Sublist segment
  within : ∀ e ∈ kept, withinAnchors lower upper e.startMs = true
  sorted : kept.Pairwise fun a b => a.startMs ≤ b.startMs
  split : (kept.map BulletEntry.lineIdx ++ removals).Perm (segment.map BulletEntry.lineIdx)
  most : ∀ other : List BulletEntry, other.Sublist segment → (∀ e ∈ other, withinAnchors lower upper e.startMs = true) →
    (other.Pairwise fun a b => a.startMs ≤ b.startMs) → other.length ≤ kept.length

theorem onLis_longest (inside : List BulletEntry) :
    let lis := longestIncreasingSubsequence (inside.map BulletEntry.startMs)
    let kept := (inside.zipIdx.filter fun (_, pos) => decide (pos ∈ lis)).map Prod.fst
    kept.Sublist inside ∧ (kept.Pairwise fun a b => a.startMs ≤ b.startMs) ∧
      ∀ other : List BulletEntry, other.Sublist inside → (other.Pairwise fun a b => a.startMs ≤ b.startMs) →
        other.length ≤ kept.length := by
  intro lis kept
  have hlongest := longestIncreasingSubsequence_longest (inside.map BulletEntry.startMs)
  rw [length_map] at hlongest
  have hrange : inside.zipIdx.map Prod.snd = range inside.length := by
    rw [zipIdx_map_snd, range_eq_range']
  have hkey : ∀ x ∈ inside.zipIdx, x.1.startMs = (inside.map BulletEntry.startMs).getD x.2 0 := by
    intro x hx
    obtain ⟨hlt, he⟩ := mem_zipIdx' hx
    rw [getD_eq_getElem _ _ (by rwa [length_map]), getElem_map, he]
  have hpositions : (inside.zipIdx.filter fun x => decide (x.2 ∈ lis)).map Prod.snd = lis := by
    rw [show (fun x : BulletEntry × ℕ => decide (x.2 ∈ lis)) = (fun i => decide (i ∈ lis)) ∘ Prod.snd from rfl,
      ← filter_map, hrange]
    exact filter_mem_of_sublist nodup_range hlongest.sublist
  refine ⟨?_, ?_, ?_⟩
  · have := (filter_sublist (p := fun x : BulletEntry × ℕ => decide (x.2 ∈ lis)) (l := inside.zipIdx)).map Prod.fst
    rwa [zipIdx_map_fst] at this
  · have hsorted := hlongest.sorted
    rw [show longestIncreasingSubsequence _ = lis from rfl, ← hpositions, pairwise_map] at hsorted
    apply pairwise_map.mpr
    apply hsorted.imp_of_mem
    intro x y hx hy hle
    rwa [hkey x (mem_filter.mp hx).1, hkey y (mem_filter.mp hy).1]
  · intro other hother hsorted
    rw [← zipIdx_map_fst 0 inside] at hother
    obtain ⟨pairs, hpairs, rfl⟩ := sublist_map_iff.mp hother
    have hmost := hlongest.most (pairs.map Prod.snd) ⟨hrange ▸ hpairs.map Prod.snd, ?_⟩
    · have hcount : kept.length = lis.length :=
        (length_map _).trans ((length_map _).symm.trans (congrArg List.length hpositions))
      rw [hcount, length_map]
      rwa [length_map] at hmost
    · rw [pairwise_map] at hsorted ⊢
      apply hsorted.imp_of_mem
      intro x y hx hy hle
      rwa [← hkey x (hpairs.subset hx), ← hkey y (hpairs.subset hy)]

theorem removeOutsideLis_kept (segment : List BulletEntry) (lower upper : Option ℕ) :
    ∃ kept, SegmentKept segment lower upper (removeOutsideLis segment lower upper) kept := by
  have hinside : ∀ other : List BulletEntry, other.Sublist segment →
      (∀ e ∈ other, withinAnchors lower upper e.startMs = true) →
        other.Sublist (segment.filter fun e => withinAnchors lower upper e.startMs) := by
    intro other hother hwithin
    have := hother.filter fun e => withinAnchors lower upper e.startMs
    rwa [filter_eq_self.mpr hwithin] at this
  have hperm := filter_append_perm (fun e : BulletEntry => withinAnchors lower upper e.startMs) segment
  unfold removeOutsideLis
  dsimp only
  generalize hin : segment.filter (fun e => withinAnchors lower upper e.startMs) = inside at hinside hperm ⊢
  have hsub : inside.Sublist segment := hin ▸ filter_sublist
  have hwithin : ∀ e ∈ inside, withinAnchors lower upper e.startMs = true := by
    intro e he
    rw [← hin] at he
    exact (mem_filter.mp he).2
  split_ifs with hfew
  · -- one entry is a chain by itself
    refine ⟨inside, hsub, hwithin, ?_, ?_, fun other hother hw _ => (hinside other hother hw).length_le⟩
    · rcases inside with _ | ⟨e, _ | _⟩
      · exact Pairwise.nil
      · exact pairwise_singleton _ _
      · rw [length_cons, length_cons] at hfew
        omega
    · rw [append_nil, ← map_append]
      exact hperm.map _
  · obtain ⟨hkept, hsorted, hmost⟩ := onLis_longest inside
    refine ⟨_, hkept.trans hsub, fun e he => hwithin e (hkept.subset he), hsorted, ?_,
      fun other hother hw hs => hmost other (hinside other hother hw) hs⟩
    have hsplit := filter_append_perm (fun x : BulletEntry × ℕ =>
      decide (x.2 ∈ longestIncreasingSubsequence (inside.map BulletEntry.startMs))) inside.zipIdx
    have hlines := (hsplit.map fun x => x.1.lineIdx).trans (Perm.of_eq (by
      rw [show (fun x : BulletEntry × ℕ => x.1.lineIdx) = BulletEntry.lineIdx ∘ Prod.fst from rfl, ← map_map,
        zipIdx_map_fst]))
    rw [map_append] at hlines
    have hall := hperm.map BulletEntry.lineIdx
    rw [map_append] at hall
    apply Perm.trans ?_ hall
    rw [map_map]
    -- the outside lines stand before the stripped ones
    refine (Perm.append_left _ perm_append_comm).trans ?_
    rw [← append_assoc]
    exact hlines.append_right _

/-! ## One speaker -/

def BulletEntry.Revisable (e : BulletEntry) : Prop := e.mutability = .revisable

instance : DecidablePred BulletEntry.Revisable := fun e => decEq e.mutability .revisable

def InStartOrder (a b : BulletEntry) : Prop := a.Revisable ∨ b.Revisable → a.startMs ≤ b.startMs

theorem isChain_revisable_iff (upper : Option BulletEntry) (c : List BulletEntry) : ∀ {p : BulletEntry},
    p.Revisable → (∀ e ∈ c, e.Revisable) → ((p :: (c ++ upper.toList)).IsChain InStartOrder ↔
      ((p :: c).Pairwise fun a b => a.startMs ≤ b.startMs) ∧ ∀ e ∈ p :: c, ∀ u ∈ upper, e.startMs ≤ u.startMs) := by
  induction c with
  | nil =>
    intro p hp _
    cases upper with
    | none => simp
    | some u =>
      simp [InStartOrder, hp]
  | cons x c ih =>
    intro p hp hc
    have hx := hc x mem_cons_self
    rw [cons_append, isChain_cons_cons, ih hx fun e he => hc e (mem_cons_of_mem x he)]
    refine ⟨?_, ?_⟩
    · rintro ⟨hpx, hsorted, hupper⟩
      have hle := hpx (.inl hp)
      refine ⟨pairwise_cons.mpr ⟨?_, hsorted⟩, ?_⟩
      · intro e he
        rcases mem_cons.mp he with rfl | he
        · exact hle
        · exact hle.trans ((pairwise_cons.mp hsorted).1 e he)
      · intro e he u hu
        rcases mem_cons.mp he with rfl | he
        · exact hle.trans (hupper x mem_cons_self u hu)
        · exact hupper e he u hu
    · rintro ⟨hsorted, hupper⟩
      obtain ⟨hfirst, hsorted⟩ := pairwise_cons.mp hsorted
      exact ⟨fun _ => hfirst x mem_cons_self, hsorted, fun e he => hupper e (mem_cons_of_mem p he)⟩

theorem withinAnchors_iff (lower upper : Option BulletEntry) (startMs : ℕ) :
    withinAnchors (lower.map BulletEntry.startMs) (upper.map BulletEntry.startMs) startMs = true ↔
      (∀ l ∈ lower, l.startMs ≤ startMs) ∧ ∀ u ∈ upper, startMs ≤ u.startMs := by
  unfold withinAnchors
  cases lower <;> cases upper <;> simp

theorem isChain_segment_iff (lower upper : Option BulletEntry) (hlower : ∀ l ∈ lower, ¬ l.Revisable)
    (hupper : ∀ u ∈ upper, ¬ u.Revisable) {c : List BulletEntry} (hc : ∀ e ∈ c, e.Revisable) :
    (lower.toList ++ (c ++ upper.toList)).IsChain InStartOrder ↔
      (c.Pairwise fun a b => a.startMs ≤ b.startMs) ∧ ∀ e ∈ c,
        withinAnchors (lower.map BulletEntry.startMs) (upper.map BulletEntry.startMs) e.startMs = true := by
  cases c with
  | nil =>
    -- two anchors without an entry between them may stand as they do
    refine iff_of_true ?_ ⟨Pairwise.nil, fun e he => absurd he not_mem_nil⟩
    cases lower with
    | none => cases upper <;> simp
    | some l =>
      cases upper with
      | none => simp
      | some u =>
        show [l, u].IsChain InStartOrder
        rw [isChain_cons_cons]
        exact ⟨fun h => absurd h (not_or.mpr ⟨hlower l rfl, hupper u rfl⟩), isChain_singleton _⟩
  | cons x c =>
    have hx := hc x mem_cons_self
    have hrest := isChain_revisable_iff upper c hx fun e he => hc e (mem_cons_of_mem x he)
    cases lower with
    | none =>
      show (x :: (c ++ upper.toList)).IsChain InStartOrder ↔ _
      rw [hrest]
      apply and_congr_right
      intro _
      apply forall₂_congr
      intro e _
      rw [show Option.map BulletEntry.startMs none = (none : Option BulletEntry).map BulletEntry.startMs from rfl,
        withinAnchors_iff]
      exact ⟨fun h => ⟨fun l hl => absurd hl (Option.not_mem_none l), h⟩, fun h => h.2⟩
    | some l =>
      show (l :: x :: (c ++ upper.toList)).IsChain InStartOrder ↔ _
      rw [isChain_cons_cons, hrest]
      refine ⟨?_, ?_⟩
      · rintro ⟨hlx, hsorted, hup⟩
        refine ⟨hsorted, fun e he => (withinAnchors_iff (some l) upper e.startMs).mpr ⟨?_, hup e he⟩⟩
        intro l' hl'
        cases hl'
        have hle := hlx (.inr hx)
        rcases mem_cons.mp he with rfl | he
        · exact hle
        · exact hle.trans ((pairwise_cons.mp hsorted).1 e he)
      · rintro ⟨hsorted, hwithin⟩
        have hall := fun e he => (withinAnchors_iff (some l) upper e.startMs).mp (hwithin e he)
        exact ⟨fun _ => (hall x mem_cons_self).1 l rfl, hsorted, fun e he => (hall e he).2⟩

structure SpeakerKept (lower : Option BulletEntry) (line : List BulletEntry) (removals : List ℕ)
    (kept : List BulletEntry) : Prop where
  sublist : kept.Sublist line
  anchors : (kept.filter fun e => !decide e.Revisable) = line.filter fun e => !decide e.Revisable
  ordered : (lower.toList ++ kept).IsChain InStartOrder
  split : (kept.map BulletEntry.lineIdx ++ removals).Perm (line.map BulletEntry.lineIdx)
  most : ∀ other : List BulletEntry, other.Sublist line →
    (other.filter fun e => !decide e.Revisable) = (line.filter fun e => !decide e.Revisable) →
    (lower.toList ++ other).IsChain InStartOrder → other.length ≤ kept.length

theorem filter_anchors_nil {c : List BulletEntry} (hc : ∀ e ∈ c, e.Revisable) :
    (c.filter fun e => !decide e.Revisable) = [] := by
  apply filter_eq_nil_iff.mpr
  intro e he
  rw [decide_eq_true (hc e he)]
  exact Bool.false_ne_true

theorem speakerRemovals_kept (rest : List BulletEntry) : ∀ (lower : Option BulletEntry) (segment : List BulletEntry),
    (∀ l ∈ lower, ¬ l.Revisable) → (∀ e ∈ segment, e.Revisable) →
      ∃ kept, SpeakerKept lower (segment ++ rest) (speakerRemovals (lower.map BulletEntry.startMs) segment rest) kept := by
  induction rest with
  | nil =>
    intro lower segment hlower hsegment
    obtain ⟨kept, hkept⟩ := removeOutsideLis_kept segment (lower.map BulletEntry.startMs) none
    have hchain := fun {c : List BulletEntry} (hc : ∀ e ∈ c, e.Revisable) =>
      isChain_segment_iff lower none hlower (fun u hu => absurd hu (Option.not_mem_none u)) hc
    simp only [Option.toList_none, append_nil] at hchain
    rw [append_nil]
    have hrev : ∀ e ∈ kept, e.Revisable := fun e he => hsegment e (hkept.sublist.subset he)
    refine ⟨kept, hkept.sublist, ?_, (hchain hrev).mpr ⟨hkept.sorted, hkept.within⟩, hkept.split, ?_⟩
    · rw [filter_anchors_nil hrev, filter_anchors_nil hsegment]
    · intro other hother _ hordered
      obtain ⟨hsorted, hwithin⟩ := (hchain fun e he => hsegment e (hother.subset he)).mp hordered
      exact hkept.most other hother hwithin hsorted
  | cons entry rest ih =>
    intro lower segment hlower hsegment
    rw [speakerRemovals]
    cases hentry : entry.mutability with
    | revisable =>
      obtain ⟨kept, hkept⟩ := ih lower (segment ++ [entry]) hlower (by
        intro e he
        rcases mem_append.mp he with he | he
        · exact hsegment e he
        · rw [mem_singleton.mp he]
          exact hentry)
      rw [append_assoc] at hkept
      exact ⟨kept, hkept⟩
    | readOnly bullet =>
      have hanchor : ¬ entry.Revisable := by
        unfold BulletEntry.Revisable
        rw [hentry]
        exact fun h => nomatch h
      have hentries : ∀ u ∈ some entry, ¬ u.Revisable := by
        intro u hu
        rwa [← Option.some.inj hu]
      obtain ⟨front, hfront⟩ := removeOutsideLis_kept segment (lower.map BulletEntry.startMs) (some entry.startMs)
      obtain ⟨back, hback⟩ := ih (some entry) [] hentries fun e he => absurd he not_mem_nil
      have hchain := fun {c : List BulletEntry} (hc : ∀ e ∈ c, e.Revisable) =>
        isChain_segment_iff lower (some entry) hlower hentries hc
      -- the anchor splits what stays into its segment and the rest behind it
      have hsplit : ∀ c d : List BulletEntry, (lower.toList ++ (c ++ entry :: d)).IsChain InStartOrder ↔
          (lower.toList ++ (c ++ [entry])).IsChain InStartOrder ∧ (entry :: d).IsChain InStartOrder := by
        intro c d
        rw [← append_assoc, ← append_assoc, isChain_split]
      have hanchors : ∀ c d : List BulletEntry, (∀ e ∈ c, e.Revisable) →
          ((c ++ entry :: d).filter fun e => !decide e.Revisable) =
            entry :: d.filter fun e => !decide e.Revisable := by
        intro c d hc
        rw [filter_append, filter_anchors_nil hc, nil_append, filter_cons_of_pos]
        rw [decide_eq_false hanchor]
        rfl
      have hrev : ∀ e ∈ front, e.Revisable := fun e he => hsegment e (hfront.sublist.subset he)
      refine ⟨front ++ entry :: back, hfront.sublist.append (hback.sublist.cons_cons entry), ?_, ?_, ?_, ?_⟩
      · have := hback.anchors
        rw [nil_append] at this
        rw [hanchors _ _ hrev, hanchors _ _ hsegment, this]
      · exact (hsplit front back).mpr ⟨(hchain hrev).mpr ⟨hfront.sorted, hfront.within⟩, hback.ordered⟩
      · have hrest := hback.split
        rw [map_append, map_append, map_cons, map_cons, append_assoc, cons_append]
        -- the lines of the segment come first, then the anchor, then those behind it
        refine (Perm.append_left _ ((perm_append_comm_assoc _ _ _).cons _)).trans ?_
        refine (Perm.append_left _ perm_middle.symm).trans ?_
        rw [← append_assoc]
        exact (hfront.split.append_right _).trans (Perm.append_left _ (hrest.cons _))
      · intro other hother hsame hordered
        rw [hanchors _ _ hsegment] at hsame
        obtain ⟨c, d, rfl, hc, hd⟩ := sublist_append_iff.mp hother
        have hcrev : ∀ e ∈ c, e.Revisable := fun e he => hsegment e (hc.subset he)
        rcases sublist_cons_iff.mp hd with hd | ⟨d', rfl, hd'⟩
        · -- without the anchor there is one anchor too few
          rw [filter_append, filter_anchors_nil hcrev, nil_append] at hsame
          have hle := (hd.filter fun e => !decide e.Revisable).length_le
          rw [hsame, length_cons] at hle
          omega
        · rw [hanchors _ _ hcrev, cons.injEq] at hsame
          obtain ⟨hfirst, hsecond⟩ := (hsplit c d').mp hordered
          obtain ⟨hsorted, hwithin⟩ := (hchain hcrev).mp hfirst
          have h1 := hfront.most c hc hwithin hsorted
          have h2 := hback.most d' hd' (by exact hsame.2) hsecond
          simp only [length_append, length_cons]
          omega

/-! ## The whole list -/

/-- With some lines removed a speaker's entries start in order: nothing kept lies between the two, and
one is revisable. -/
def SettledBy (removed : List ℕ) (line : List BulletEntry) : Prop :=
  ∀ (front : List BulletEntry) (a : BulletEntry) (mid : List BulletEntry) (b : BulletEntry) (back : List BulletEntry),
    line = front ++ a :: (mid ++ b :: back) → (∀ c ∈ mid, c.Revisable) → a.lineIdx ∉ removed → b.lineIdx ∉ removed →
      InStartOrder a b

def remaining (removed : List ℕ) (line : List BulletEntry) : List BulletEntry :=
  line.filter fun e => decide (e.lineIdx ∉ removed)

theorem InStartOrder.through (c : List BulletEntry) : ∀ {a b : BulletEntry},
    (a :: (c ++ [b])).IsChain InStartOrder → (∀ e ∈ c, e.Revisable) → InStartOrder a b := by
  induction c with
  | nil =>
    intro a b h _
    exact (isChain_cons_cons.mp h).1
  | cons x c ih =>
    intro a b h hc _
    rw [cons_append, isChain_cons_cons] at h
    have hx := hc x mem_cons_self
    exact (h.1 (.inr hx)).trans (ih h.2 (fun e he => hc e (mem_cons_of_mem x he)) (.inl hx))

theorem settledBy_iff {removed : List ℕ} {line : List BulletEntry}
    (hkept : ∀ e ∈ line, e.lineIdx ∈ removed → e.Revisable) :
    SettledBy removed line ↔ (remaining removed line).IsChain InStartOrder := by
  unfold remaining
  refine ⟨?_, ?_⟩
  · intro h
    apply isChain_iff_forall_rel_of_append_cons_cons.mpr
    intro a b l₁ l₂ hfilter
    obtain ⟨front, rest, rfl, _, hrest⟩ := filter_eq_append_iff.mp hfilter
    obtain ⟨skipped, rest, rfl, _, ha, hrest⟩ := filter_eq_cons_iff.mp hrest
    obtain ⟨mid, back, rfl, hmid, hb, _⟩ := filter_eq_cons_iff.mp hrest
    -- what lies between the two was removed
    refine h (front ++ skipped) a mid b back (append_assoc ..).symm ?_ (of_decide_eq_true ha) (of_decide_eq_true hb)
    intro c hc
    have hremoved : c.lineIdx ∈ removed := by
      have := hmid c hc
      rwa [decide_eq_true_iff, not_not] at this
    apply hkept c ?_ hremoved
    simp [hc]
  · rintro h front a mid b back rfl hmid ha hb
    rw [filter_append, filter_cons_of_pos (by exact decide_eq_true ha), filter_append,
      filter_cons_of_pos (by exact decide_eq_true hb)] at h
    have hbetween := (isChain_split.mp h).2
    rw [isChain_cons_split] at hbetween
    exact InStartOrder.through _ hbetween.1 fun e he => hmid e (mem_filter.mp he).1

def lineOf (entries : List BulletEntry) (speaker : String) : List BulletEntry :=
  entries.filter fun e => e.speaker == speaker

theorem flatMap_lineOf_perm (entries : List BulletEntry) : ∀ {speakers : List String}, speakers.Nodup →
    (speakers.flatMap (lineOf entries)).Perm (entries.filter fun e => decide (e.speaker ∈ speakers)) := by
  intro speakers
  induction speakers with
  | nil =>
    intro _
    rw [flatMap_nil, filter_eq_nil_iff.mpr (by simp)]
  | cons s speakers ih =>
    intro hnodup
    obtain ⟨hs, hnodup⟩ := nodup_cons.mp hnodup
    have hsplit := filter_append_perm (fun e : BulletEntry => e.speaker == s)
      (entries.filter fun e => decide (e.speaker ∈ s :: speakers))
    rw [filter_filter, filter_filter] at hsplit
    refine Perm.trans ((Perm.append_left _ (ih hnodup)).trans (Perm.of_eq ?_)) hsplit
    congr 1
    · apply filter_congr
      intro e _
      by_cases he : e.speaker = s <;> simp [he]
    · apply filter_congr
      intro e _
      by_cases he : e.speaker = s
      · simp [he, hs]
      · simp [he]

section Removals
variable {order : HashOrder} {entries : List BulletEntry} {speaker : String}

def removalsOf (entries : List BulletEntry) (speaker : String) : List ℕ :=
  speakerRemovals none [] (lineOf entries speaker)

theorem removalsOf_kept (entries : List BulletEntry) (speaker : String) :
    ∃ kept, SpeakerKept none (lineOf entries speaker) (removalsOf entries speaker) kept :=
  speakerRemovals_kept (lineOf entries speaker) none [] (fun l hl => absurd hl (Option.not_mem_none l))
    fun _ he => absurd he not_mem_nil

theorem findLisRemovals_eq (order : HashOrder) (entries : List BulletEntry) : findLisRemovals order entries =
    (order.values (speakerOrder (entries.map BulletEntry.speaker))).flatMap (removalsOf entries) := rfl

variable {e : BulletEntry}

theorem mem_speakers (he : e ∈ entries) :
    e.speaker ∈ order.values (speakerOrder (entries.map BulletEntry.speaker)) :=
  (order.perm _).mem_iff.mpr (mem_speakerOrder (mem_map_of_mem he))

theorem lines_perm (order : HashOrder) (entries : List BulletEntry) :
    ((order.values (speakerOrder (entries.map BulletEntry.speaker))).flatMap (lineOf entries)).Perm entries := by
  have hnodup := (order.perm _).nodup_iff.mpr (speakerOrder_nodup (entries.map BulletEntry.speaker))
  have hperm := flatMap_lineOf_perm entries hnodup
  rwa [filter_eq_self.mpr fun e he => decide_eq_true (mem_speakers he)] at hperm

theorem mem_lineOf_of_removal {lineIdx : ℕ} (h : lineIdx ∈ removalsOf entries speaker) :
    ∃ e ∈ lineOf entries speaker, e.lineIdx = lineIdx := by
  obtain ⟨kept, hkept⟩ := removalsOf_kept entries speaker
  exact mem_map.mp (hkept.split.subset (mem_append_right _ h))

section
variable (hlines : (entries.map BulletEntry.lineIdx).Nodup)
include hlines

theorem inj_of_nodup {a b : BulletEntry} (ha : a ∈ entries)
    (hb : b ∈ entries) (hline : a.lineIdx = b.lineIdx) : a = b :=
  inj_on_of_nodup_map hlines ha hb hline

theorem mem_findLisRemovals_iff (he : e ∈ lineOf entries speaker) :
    e.lineIdx ∈ findLisRemovals order entries ↔ e.lineIdx ∈ removalsOf entries speaker := by
  obtain ⟨hein, hspeaker⟩ := mem_filter.mp he
  have hspeaker : e.speaker = speaker := beq_iff_eq.mp hspeaker
  rw [findLisRemovals_eq, mem_flatMap]
  refine ⟨?_, fun h => ⟨speaker, hspeaker ▸ mem_speakers hein, h⟩⟩
  rintro ⟨other, _, hremoval⟩
  obtain ⟨e', he', hline⟩ := mem_lineOf_of_removal hremoval
  obtain ⟨hein', hspeaker'⟩ := mem_filter.mp he'
  obtain rfl := inj_of_nodup hlines hein' hein hline
  rwa [← hspeaker, beq_iff_eq.mp hspeaker']

theorem lineOf_nodup (speaker : String) : ((lineOf entries speaker).map BulletEntry.lineIdx).Nodup :=
  hlines.sublist (filter_sublist.map _)

theorem remaining_eq_kept {kept : List BulletEntry}
    (h : SpeakerKept none (lineOf entries speaker) (removalsOf entries speaker) kept) :
    remaining (findLisRemovals order entries) (lineOf entries speaker) = kept := by
  have hnodup := lineOf_nodup hlines speaker
  have hdisjoint := (nodup_append.mp (h.split.nodup_iff.mpr hnodup)).2.2
  have hfilter : remaining (findLisRemovals order entries) (lineOf entries speaker) =
      (lineOf entries speaker).filter fun e => decide (e ∈ kept) := by
    apply filter_congr
    intro e he
    apply decide_eq_decide.mpr
    rw [mem_findLisRemovals_iff hlines he]
    refine ⟨?_, fun hin hremoved => hdisjoint _ (mem_map_of_mem hin) _ hremoved rfl⟩
    intro hnot
    have hsplit := h.split.symm.subset (mem_map_of_mem he)
    rcases mem_append.mp hsplit with hin | hin
    · obtain ⟨e', he', hline⟩ := mem_map.mp hin
      have hsame := inj_on_of_nodup_map hnodup (h.sublist.subset he') he hline
      rwa [← hsame]
    · exact absurd hin hnot
  rw [hfilter]
  exact filter_mem_of_sublist (Nodup.of_map _ hnodup) h.sublist

end

theorem SpeakerKept.revisable {lower : Option BulletEntry} {line kept : List BulletEntry} {removals : List ℕ}
    (h : SpeakerKept lower line removals kept) (hlines : (line.map BulletEntry.lineIdx).Nodup) (he : e ∈ line) (hremoved : e.lineIdx ∈ removals) : e.Revisable := by
  by_contra hanchor
  have hin : e ∈ kept.filter fun e => !decide e.Revisable := by
    rw [h.anchors]
    exact mem_filter.mpr ⟨he, by rw [decide_eq_false hanchor]; rfl⟩
  have hdisjoint := (nodup_append.mp (h.split.nodup_iff.mpr hlines)).2.2
  exact hdisjoint _ (mem_map_of_mem (mem_filter.mp hin).1) _ hremoved rfl

theorem findLisRemovals_revisable (hlines : (entries.map BulletEntry.lineIdx).Nodup) (he : e ∈ entries) (hremoved : e.lineIdx ∈ findLisRemovals order entries) : e.Revisable := by
  have hline : e ∈ lineOf entries e.speaker := mem_filter.mpr ⟨he, beq_self_eq_true _⟩
  obtain ⟨kept, hkept⟩ := removalsOf_kept entries e.speaker
  exact hkept.revisable (lineOf_nodup hlines _) hline ((mem_findLisRemovals_iff hlines hline).mp hremoved)

theorem findLisRemovals_nodup (order : HashOrder) (hlines : (entries.map BulletEntry.lineIdx).Nodup) :
    (findLisRemovals order entries).Nodup ∧
      ∀ lineIdx ∈ findLisRemovals order entries, ∃ e ∈ entries, e.lineIdx = lineIdx := by
  refine ⟨nodup_flatMap.mpr ⟨?_, ?_⟩, ?_⟩
  · intro s _
    obtain ⟨kept, hkept⟩ := removalsOf_kept entries s
    exact (nodup_append.mp (hkept.split.nodup_iff.mpr (lineOf_nodup hlines s))).2.1
  · have hspeakers := (order.perm _).nodup_iff.mpr (speakerOrder_nodup (entries.map BulletEntry.speaker))
    apply hspeakers.imp
    intro s t hne lineIdx hs ht
    obtain ⟨e, he, hline⟩ := mem_lineOf_of_removal hs
    obtain ⟨e', he', hline'⟩ := mem_lineOf_of_removal ht
    obtain ⟨hein, hspeaker⟩ := mem_filter.mp he
    obtain ⟨hein', hspeaker'⟩ := mem_filter.mp he'
    obtain rfl := inj_of_nodup hlines hein hein' (hline.trans hline'.symm)
    exact hne ((beq_iff_eq.mp hspeaker).symm.trans (beq_iff_eq.mp hspeaker'))
  · intro lineIdx h
    obtain ⟨s, _, hs⟩ := mem_flatMap.mp h
    obtain ⟨e, he, hline⟩ := mem_lineOf_of_removal hs
    exact ⟨e, (mem_filter.mp he).1, hline⟩

theorem findLisRemovals_settled (hlines : (entries.map BulletEntry.lineIdx).Nodup) (speaker : String) :
    SettledBy (findLisRemovals order entries) (lineOf entries speaker) := by
  obtain ⟨kept, hkept⟩ := removalsOf_kept entries speaker
  rw [settledBy_iff, remaining_eq_kept hlines hkept]
  · exact hkept.ordered
  · intro e he hremoved
    exact findLisRemovals_revisable hlines (mem_filter.mp he).1 hremoved

theorem removalsOf_least {other : List ℕ} (hrevisable : ∀ e ∈ entries, e.lineIdx ∈ other → e.Revisable)
    (hsettled : SettledBy other (lineOf entries speaker)) : (removalsOf entries speaker).length ≤
      ((lineOf entries speaker).filter fun e => decide (e.lineIdx ∈ other)).length := by
  obtain ⟨kept, hkept⟩ := removalsOf_kept entries speaker
  have hline : ∀ e ∈ lineOf entries speaker, e.lineIdx ∈ other → e.Revisable :=
    fun e he => hrevisable e (mem_filter.mp he).1
  have hanchors : ((remaining other (lineOf entries speaker)).filter fun e => !decide e.Revisable) =
      (lineOf entries speaker).filter fun e => !decide e.Revisable := by
    unfold remaining
    rw [filter_filter]
    apply filter_congr
    intro e he
    by_cases hrev : e.Revisable
    · rw [decide_eq_true hrev]
      rfl
    · rw [decide_eq_false hrev, decide_eq_true (mt (hline e he) hrev)]
      rfl
  have hmost := hkept.most _ filter_sublist hanchors ((settledBy_iff hline).mp hsettled)
  have hlength := hkept.split.length_eq
  rw [length_append, length_map, length_map] at hlength
  have hboth := (filter_append_perm (fun e : BulletEntry => decide (e.lineIdx ∉ other))
    (lineOf entries speaker)).length_eq
  have hin : (fun e : BulletEntry => !decide (e.lineIdx ∉ other)) = fun e => decide (e.lineIdx ∈ other) := by
    funext e
    by_cases h : e.lineIdx ∈ other <;> simp [h]
  rw [length_append, hin] at hboth
  omega

theorem findLisRemovals_least {other : List ℕ} (hrevisable : ∀ e ∈ entries, e.lineIdx ∈ other → e.Revisable)
    (hsettled : ∀ speaker, SettledBy other (lineOf entries speaker)) :
    (findLisRemovals order entries).length ≤ (entries.filter fun e => decide (e.lineIdx ∈ other)).length := by
  have hcount := ((lines_perm order entries).filter fun e => decide (e.lineIdx ∈ other)).length_eq
  rw [← hcount, findLisRemovals_eq, filter_flatMap, length_flatMap, length_flatMap]
  apply sum_le_sum
  intro speaker _
  exact removalsOf_least hrevisable (hsettled speaker)

end Removals

theorem range_sublist_iff {n : ℕ} {c : List ℕ} :
    c.Sublist (range n) ↔ c.Pairwise (· < ·) ∧ ∀ i ∈ c, i < n := by
  refine ⟨fun h => ⟨pairwise_lt_range.sublist h, fun i hi => mem_range.mp (h.subset hi)⟩, ?_⟩
  rintro ⟨hsorted, hin⟩
  have hc : (range n).filter (fun i => decide (i ∈ c)) = c := by
    apply Pairwise.eq_of_mem_iff (pairwise_lt_range.filter _) hsorted
    intro i
    rw [mem_filter, decide_eq_true_iff, mem_range]
    exact ⟨fun h => h.2, fun h => ⟨hin i h, h⟩⟩
  rw [← hc]
  exact filter_sublist

/-- Selective removal settles every speaker, spares kept entries and strips no more lines than it must. -/
theorem findLisRemovals_exact (order : HashOrder) (entries : List BulletEntry)
    (hlines : (entries.map BulletEntry.lineIdx).Nodup) :
    (∀ speaker, SettledBy (findLisRemovals order entries) (lineOf entries speaker)) ∧
      (∀ e ∈ entries, e.lineIdx ∈ findLisRemovals order entries → e.Revisable) ∧
      (findLisRemovals order entries).Nodup ∧
      (∀ lineIdx ∈ findLisRemovals order entries, ∃ e ∈ entries, e.lineIdx = lineIdx) ∧
      (∀ other : List ℕ, (∀ e ∈ entries, e.lineIdx ∈ other → e.Revisable) →
        (∀ speaker, SettledBy other (lineOf entries speaker)) →
        (findLisRemovals order entries).length ≤ (entries.filter fun e => decide (e.lineIdx ∈ other)).length) ∧
      ∀ values : List ℕ, (longestIncreasingSubsequence values).Pairwise (· < ·) ∧
        (∀ i ∈ longestIncreasingSubsequence values, i < values.length) ∧
        ((longestIncreasingSubsequence values).Pairwise fun i j => values.getD i 0 ≤ values.getD j 0) ∧
        ∀ other : List ℕ, other.Pairwise (· < ·) → (∀ i ∈ other, i < values.length) →
          (other.Pairwise fun i j => values.getD i 0 ≤ values.getD j 0) →
          other.length ≤ (longestIncreasingSubsequence values).length := by
  obtain ⟨hnodup, hnamed⟩ := findLisRemovals_nodup order hlines
  refine ⟨findLisRemovals_settled hlines, fun e he h => findLisRemovals_revisable hlines he h, hnodup, hnamed, ?_, ?_⟩
  · intro other hrevisable hsettled
    exact findLisRemovals_least hrevisable hsettled
  · intro values
    have hlongest := longestIncreasingSubsequence_longest values
    obtain ⟨hsorted, hin⟩ := range_sublist_iff.mp hlongest.sublist
    refine ⟨hsorted, hin, hlongest.sorted, ?_⟩
    intro other hother hbound hvalues
    exact hlongest.most other ⟨range_sublist_iff.mpr ⟨hother, hbound⟩, hvalues⟩

/-- The hash order only permutes the removals, and a second search removes nothing. -/
theorem findLisRemovals_again (first second : HashOrder) (entries : List BulletEntry)
    (hlines : (entries.map BulletEntry.lineIdx).Nodup) :
    (findLisRemovals first entries).Perm (findLisRemovals second entries) ∧
      findLisRemovals second (remaining (findLisRemovals first entries) entries) = [] := by
  refine ⟨((first.perm _).trans (second.perm _).symm).flatMap_right _, ?_⟩
  have hnone : ∀ speaker, SettledBy [] (lineOf (remaining (findLisRemovals first entries) entries) speaker) := by
    intro speaker
    have hsettled : SettledBy (findLisRemovals first entries) (lineOf entries speaker) :=
      findLisRemovals_settled hlines speaker
    rw [settledBy_iff] at hsettled
    have hline : remaining [] (lineOf (remaining (findLisRemovals first entries) entries) speaker) =
        remaining (findLisRemovals first entries) (lineOf entries speaker) := by
      simp only [remaining, lineOf, filter_filter]
      apply filter_congr
      intro e _
      simp [Bool.and_comm]
    rw [settledBy_iff (by simp), hline]
    · exact hsettled
    · intro e he hremoved
      exact findLisRemovals_revisable hlines (mem_filter.mp he).1 hremoved
  have hleast : (findLisRemovals second (remaining (findLisRemovals first entries) entries)).length ≤
      ((remaining (findLisRemovals first entries) entries).filter fun e => decide (e.lineIdx ∈ ([] : List ℕ))).length :=
    findLisRemovals_least (by simp) hnone
  simpa using hleast

/-- Two speakers, one entry out of order: its line is removed, and no removal does with less. -/
def twoStreams : List BulletEntry :=
  [⟨0, "CHI", 0, 10, .revisable⟩, ⟨1, "MOT", 5, 9, .revisable⟩, ⟨2, "CHI", 40, 50, .revisable⟩,
    ⟨3, "CHI", 20, 30, .revisable⟩, ⟨4, "CHI", 25, 35, .revisable⟩]

theorem findLisRemovals_exact_two_streams :
    findLisRemovals ⟨id, fun _ => List.Perm.refl _⟩ twoStreams = [2] ∧
      SettledBy (findLisRemovals ⟨id, fun _ => List.Perm.refl _⟩ twoStreams) (lineOf twoStreams "CHI") :=
  ⟨by decide, (findLisRemovals_exact ⟨id, fun _ => List.Perm.refl _⟩ twoStreams (by decide)).1 "CHI"⟩

theorem findLisRemovals_again_two_streams :
    let order : HashOrder := ⟨id, fun _ => Perm.refl _⟩
    findLisRemovals order (remaining (findLisRemovals order twoStreams) twoStreams) = [] :=
  (findLisRemovals_again _ _ twoStreams (by decide)).2

end Batchalign.Fa
