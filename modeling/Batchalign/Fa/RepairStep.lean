import Batchalign.Fa.Repair
import Batchalign.Fa.Enforcement

/- What the strategies of repair keep. Gap fills widen and removals take away, so words stay inside
   their bullets; an averaged pair keeps them when its step fits (`AverageFits`), which the step does
   not check. -/
namespace Batchalign.Fa
open List

/-! ## Entries -/

def EntryAt (authority : MainBulletAuthority) (ord : ℕ → ℕ) (file : ChatFile) (e : BulletEntry) : Prop :=
  ∃ u b, getUtterance file e.lineIdx = some u ∧ u.parsedBullet = some b ∧
    e = bulletEntry e.lineIdx (ord e.lineIdx) u b (authority.standing (ord e.lineIdx))

structure Collected (authority : MainBulletAuthority) (ord : ℕ → ℕ) (file : ChatFile)
    (entries : List BulletEntry) : Prop where
  eq : collectBulletEntries authority file = .ok entries
  live : ∀ e ∈ entries, EntryAt authority ord file e
  sorted : entries.Pairwise fun a b => a.lineIdx < b.lineIdx
  covered : ∀ i b, bulletAt file i = some b → ∃ e ∈ entries, e.lineIdx = i

section Entries
variable {authority : MainBulletAuthority} {ord : ℕ → ℕ} {file : ChatFile} {entries : List BulletEntry}

theorem collected_exists (h : Accepted authority ord file) :
    ∃ entries, Collected authority ord file entries := by
  have hattr : ∀ i k u b, (i, k, u) ∈ utterancesIndexed file → u.parsedBullet = some b →
      authority.mutability k b = .ok (authority.standing k) := by
    intro i k u b hmem hb
    obtain ⟨hu, hk⟩ := mem_utterancesIndexed.mp hmem
    rw [hk, h.ordinals]
    exact h.attributed i b (by rw [bulletAt_eq hu, hb])
  refine ⟨_, collectBulleted_ok hattr, ?_, ?_, ?_⟩
  · intro e he
    obtain ⟨⟨i, k, u⟩, hmem, he⟩ := mem_filterMap.mp he
    obtain ⟨b, hb, rfl⟩ := Option.map_eq_some_iff.mp he
    obtain ⟨hu, hk⟩ := mem_utterancesIndexed.mp hmem
    refine ⟨u, b, hu, hb, ?_⟩
    change bulletEntry i k u b _ = bulletEntry i (ord i) u b (authority.standing (ord i))
    rw [hk, h.ordinals]
  · rw [pairwise_filterMap]
    apply (utterancesIndexed_sorted file).imp
    intro x y hxy e he e' he'
    obtain ⟨b, _, rfl⟩ := Option.map_eq_some_iff.mp he
    obtain ⟨c, _, rfl⟩ := Option.map_eq_some_iff.mp he'
    exact hxy
  · intro i b hb
    obtain ⟨u, hu, hb⟩ := bulletAt_eq_some hb
    have hmem := mem_utterancesIndexed.mpr ⟨hu, rfl⟩
    refine ⟨bulletEntry i (utteranceOrdinal file i) u b (authority.standing (utteranceOrdinal file i)),
      mem_filterMap.mpr ⟨_, hmem, ?_⟩, rfl⟩
    simp [hb]

variable {e : BulletEntry}

section
variable (h : EntryAt authority ord file e)
include h

theorem EntryAt.bullet : bulletAt file e.lineIdx = some ⟨e.startMs, e.endMs⟩ := by
  obtain ⟨u, b, hu, hb, he⟩ := h
  rw [bulletAt_eq hu, hb, he]
  rfl

theorem EntryAt.mutability : e.mutability = authority.standing (ord e.lineIdx) := by
  obtain ⟨u, b, _, _, he⟩ := h
  conv_lhs => rw [he]
  rfl

theorem EntryAt.speaker : ∃ u, getUtterance file e.lineIdx = some u ∧ e.speaker = u.speaker ∧
      u.parsedBullet = some ⟨e.startMs, e.endMs⟩ := by
  have hbul := h.bullet
  obtain ⟨u, b, hu, hb, he⟩ := h
  refine ⟨u, hu, by rw [he]; rfl, ?_⟩
  rw [bulletAt_eq hu] at hbul
  exact hbul

end

end Entries

/-! ## Averaging -/

structure AveragePairOk (authority : MainBulletAuthority) (ord : ℕ → ℕ)
    (pair : BulletEntry × BulletEntry) : Prop where
  before : pair.1.lineIdx < pair.2.lineIdx
  earlier : pair.1.mutability = authority.standing (ord pair.1.lineIdx)
  later : pair.2.mutability = authority.standing (ord pair.2.lineIdx)

structure SmallOverlap (authority : MainBulletAuthority) (ord : ℕ → ℕ) (file : ChatFile)
    (pair : BulletEntry × BulletEntry) (eu lu : Utterance) (eb lb : TimeSpan) : Prop where
  earlier : getUtterance file pair.1.lineIdx = some eu
  earlier_bullet : eu.parsedBullet = some eb
  earlier_revisable : authority.keptBullet (ord pair.1.lineIdx) = none
  later : getUtterance file pair.2.lineIdx = some lu
  later_bullet : lu.parsedBullet = some lb
  later_revisable : authority.keptBullet (ord pair.2.lineIdx) = none
  overlap : lb.startMs < eb.endMs

section Average
variable {W : ContentWalker} {authority : MainBulletAuthority} {ord : ℕ → ℕ} {file : ChatFile}
  {s s' : RepairState} {pair : BulletEntry × BulletEntry} {eu lu : Utterance} {eb lb : TimeSpan}

theorem averageResolution_some (hp : AveragePairOk authority ord pair) {r : EndOverlapResolution}
    (h : averageResolution W file pair.1 pair.2 = some (r, eu, lu, eb, lb)) :
    SmallOverlap authority ord file pair eu lu eb lb ∧
      r = classifyEndOverlap (furthestWordTimingEnd W eu) lb.startMs (earliestWordTimingStart W lu)
        (fileOrderSuccessorStartMs file pair.2.lineIdx) := by
  unfold averageResolution at h
  cases hm1 : pair.1.mutability with
  | readOnly kept => simp [hm1] at h
  | revisable =>
  cases hm2 : pair.2.mutability with
  | readOnly kept => simp [hm1, hm2] at h
  | revisable =>
  cases hu1 : getUtterance file pair.1.lineIdx with
  | none => simp [hm1, hm2, hu1] at h
  | some u1 =>
  cases hu2 : getUtterance file pair.2.lineIdx with
  | none => simp [hm1, hm2, hu1, hu2] at h
  | some u2 =>
  cases hb1 : u1.parsedBullet with
  | none => simp [hm1, hm2, hu1, hu2, hb1] at h
  | some b1 =>
  cases hb2 : u2.parsedBullet with
  | none => simp [hm1, hm2, hu1, hu2, hb1, hb2] at h
  | some b2 =>
    simp only [hm1, hm2, hu1, hu2, hb1, hb2] at h
    split_ifs at h with hover hbig
    simp only [Option.some.injEq, Prod.mk.injEq] at h
    obtain ⟨hr, rfl, rfl, rfl, rfl⟩ := h
    have hk1 := MainBulletAuthority.standing_revisable (hp.earlier.symm.trans hm1)
    have hk2 := MainBulletAuthority.standing_revisable (hp.later.symm.trans hm2)
    exact ⟨⟨hu1, hb1, hk1, hu2, hb2, hk2, by omega⟩, hr.symm⟩

inductive AverageStep (W : ContentWalker) (authority : MainBulletAuthority) (ord : ℕ → ℕ)
    (s : RepairState) (pair : BulletEntry × BulletEntry) (s' : RepairState) : Prop where
  /-- The pair is left alone. -/
  | idle (hnone : averageResolution W s.file pair.1 pair.2 = none) (hstate : s' = s)
  /-- The earlier line is clamped, bullet and words, to the later start. -/
  | interleaved (eu lu : Utterance) (eb lb : TimeSpan)
      (hres : averageResolution W s.file pair.1 pair.2 = some (.interleavedWords, eu, lu, eb, lb))
      (h : SmallOverlap authority ord s.file pair eu lu eb lb)
      (hfile : s'.file = modifyUtterance s.file pair.1.lineIdx fun _ =>
        (clampWordsPastBound W (eu.setEnd lb.startMs) lb.startMs).1)
  /-- The earlier end and the later start move. -/
  | moved (r : EndOverlapResolution) (eu lu : Utterance) (eb lb : TimeSpan) (e t : ℕ)
      (hres : averageResolution W s.file pair.1 pair.2 = some (r, eu, lu, eb, lb))
      (h : SmallOverlap authority ord s.file pair eu lu eb lb)
      (hedges : averagedEdges r lb.startMs (eb.endMs - lb.startMs) = (e, t))
      (hhull : r = .coverageOnly none ∧ furthestWordTimingEnd W eu = none ∨
        furthestWordTimingEnd W eu = some e ∧ (r = .coverageOnly (some e) ∨
            r = .boundaryFromWords e t ∧ lb.startMs < e ∧ earliestWordTimingStart W lu = some t))
      (hfile : s'.file = modifyUtterance (modifyUtterance s.file pair.1.lineIdx fun _ => eu.setEnd e)
        pair.2.lineIdx fun _ => lu.setStart t)

theorem averageStep_spec (hp : AveragePairOk authority ord pair) :
    AverageStep W authority ord s pair (resolveBoundaryAveragePair W s pair.1 pair.2) := by
  unfold resolveBoundaryAveragePair
  cases hres : averageResolution W s.file pair.1 pair.2 with
  | none => exact .idle hres rfl
  | some x =>
    obtain ⟨r, eu, lu, eb, lb⟩ := x
    obtain ⟨h, hr⟩ := averageResolution_some hp hres
    have hne := hp.before.ne
    have hmove : ∀ e t, modifyUtterance (modifyUtterance s.file pair.1.lineIdx fun u => u.setEnd e)
        pair.2.lineIdx (fun u => u.setStart t) =
        modifyUtterance (modifyUtterance s.file pair.1.lineIdx fun _ => eu.setEnd e)
          pair.2.lineIdx fun _ => lu.setStart t := by
      intro e t
      rw [modifyUtterance_const h.earlier]
      exact modifyUtterance_const (by rw [getUtterance_modifyUtterance_ne hne]; exact h.later)
    rcases classifyEndOverlap_spec (furthestWordTimingEnd W eu) lb.startMs
      (earliestWordTimingStart W lu) (fileOrderSuccessorStartMs s.file pair.2.lineIdx) with
      ⟨hull, hcls, hhull⟩ | ⟨e, t, hcls, hend, hover, hnh, het, _⟩ | hcls
    · rw [hcls] at hr
      subst hr
      rcases hhull with ⟨rfl, hnone⟩ | ⟨e, rfl, hsome, _⟩
      · exact .moved _ eu lu eb lb _ _ hres h rfl (.inl ⟨rfl, hnone⟩) (hmove _ _)
      · exact .moved _ eu lu eb lb _ _ hres h rfl (.inr ⟨hsome, .inl rfl⟩) (hmove _ _)
    · rw [hcls] at hr
      subst hr
      exact .moved _ eu lu eb lb e t hres h rfl (.inr ⟨hend, .inr ⟨rfl, hover, hnh⟩⟩) (hmove _ _)
    · rw [hcls] at hr
      subst hr
      exact .interleaved eu lu eb lb hres h rfl

section
variable (hstep : AverageStep W authority ord s pair s')
include hstep

theorem AverageStep.accepted
    (hp : AveragePairOk authority ord pair) (hs : Accepted authority ord s.file) :
    Accepted authority ord s'.file := by
  have hne := hp.before.ne
  cases hstep with
  | idle _ hstate =>
    rw [hstate]
    exact hs
  | interleaved eu lu eb lb _ h hfile =>
    rw [hfile]
    exact hs.edit h.earlier h.earlier_bullet h.earlier_revisable
  | moved r eu lu eb lb e t _ h _ _ hfile =>
    rw [hfile]
    have hcut := hs.edit (w := eu.setEnd e) h.earlier h.earlier_bullet h.earlier_revisable
    exact hcut.edit (by rw [getUtterance_modifyUtterance_ne hne]; exact h.later) h.later_bullet
      h.later_revisable

theorem AverageStep.kept_unchanged {i : ℕ}
    (hi : authority.keptBullet (ord i) ≠ none) : getUtterance s'.file i = getUtterance s.file i := by
  have hne : ∀ j, authority.keptBullet (ord j) = none → j ≠ i := by
    intro j hj hji
    subst hji
    exact hi hj
  cases hstep with
  | idle _ hstate => rw [hstate]
  | interleaved eu lu eb lb _ h hfile =>
    rw [hfile, getUtterance_modifyUtterance_ne (hne _ h.earlier_revisable)]
  | moved r eu lu eb lb e t _ h _ _ hfile =>
    rw [hfile, getUtterance_modifyUtterance_ne (hne _ h.later_revisable),
      getUtterance_modifyUtterance_ne (hne _ h.earlier_revisable)]

theorem AverageStep.housed (hp : AveragePairOk authority ord pair) : Housed s'.file ↔ Housed s.file := by
  have hne := hp.before.ne
  cases hstep with
  | idle _ hstate => rw [hstate]
  | interleaved eu lu eb lb _ h hfile =>
    rw [hfile]
    exact housed_modify_bulleted h.earlier (by rw [h.earlier_bullet]; simp)
      (by rw [parsedBullet_clampWordsPastBound, h.earlier_bullet]; simp)
  | moved r eu lu eb lb e t _ h _ _ hfile =>
    rw [hfile, housed_modify_bulleted (by rw [getUtterance_modifyUtterance_ne hne]; exact h.later)
      (by rw [h.later_bullet]; simp) (by simp [h.later_bullet])]
    exact housed_modify_bulleted h.earlier (by rw [h.earlier_bullet]; simp) (by simp [h.earlier_bullet])

end

/-- The step leaves room: a clamp cuts an earlier start, a midpoint lies inside the earlier line and before
  the later line's end and words. -/
def AverageFits (W : ContentWalker) (s : RepairState) (pair : BulletEntry × BulletEntry) : Prop :=
  ∀ r eu lu eb lb, averageResolution W s.file pair.1 pair.2 = some (r, eu, lu, eb, lb) →
    (r = .interleavedWords → eb.startMs < lb.startMs) ∧
    (r = .coverageOnly none → eb.startMs < lb.startMs + (eb.endMs - lb.startMs) / 2 ∧
      lb.startMs + (eb.endMs - lb.startMs) / 2 < lb.endMs ∧
      ∀ t, earliestWordTimingStart W lu = some t → lb.startMs + (eb.endMs - lb.startMs) / 2 ≤ t)

theorem Contained.setStart {i t : ℕ} {u : Utterance} {b : TimeSpan} (h : Contained authority ord file)
    (hu : getUtterance file i = some u) (hb : u.parsedBullet = some b) (hext : t < b.endMs)
    (hwords : ∀ s ∈ u.timedSpans, t ≤ s.startMs) :
    Contained authority ord (modifyUtterance file i fun _ => u.setStart t) := by
  refine h.rebullet hu (a := ⟨t, b.endMs⟩) (by rw [parsedBullet_setStart, hb]; rfl) hext ?_
  intro s hs
  obtain ⟨_, h2, h3⟩ := h.words _ _ _ hu hb s hs
  exact ⟨hwords s hs, h2, h3⟩

theorem AverageStep.contained (hstep : AverageStep W authority ord s pair s')
    (hp : AveragePairOk authority ord pair) (hs : Contained authority ord s.file)
    (hfits : AverageFits W s pair) : Contained authority ord s'.file := by
  have hne := hp.before.ne
  cases hstep with
  | idle _ hstate =>
    rw [hstate]
    exact hs
  | interleaved eu lu eb lb hres h hfile =>
    rw [hfile]
    have hlt := (hfits _ _ _ _ _ hres).1 rfl
    have hwords := hs.words _ _ _ h.earlier h.earlier_bullet
    exact hs.rebullet h.earlier (by rw [parsedBullet_clampWordsPastBound, h.earlier_bullet]; rfl) hlt
      (words_clampWordsPastBound hwords)
  | moved r eu lu eb lb e t hres h hedges hhull hfile =>
    rw [hfile]
    have hlater : getUtterance (modifyUtterance s.file pair.1.lineIdx fun _ => eu.setEnd e)
        pair.2.lineIdx = some lu := by
      rw [getUtterance_modifyUtterance_ne hne]
      exact h.later
    have hwl := hs.words _ _ _ h.later h.later_bullet
    have hextl := hs.extent pair.2.lineIdx lb (by rw [bulletAt_eq h.later, h.later_bullet])
      h.later_revisable
    rcases hhull with ⟨hr, hnone⟩ | ⟨hsome, hr⟩
    · -- no measured word on the earlier line: both edges go to the midpoint
      obtain ⟨h1, h2, h3⟩ := (hfits _ _ _ _ _ hres).2 hr
      rw [hr] at hedges
      cases hedges
      have hcut : Contained authority ord (modifyUtterance s.file pair.1.lineIdx fun _ =>
          eu.setEnd (lb.startMs + (eb.endMs - lb.startMs) / 2)) := by
        refine hs.rebullet h.earlier (a := ⟨eb.startMs, lb.startMs + (eb.endMs - lb.startMs) / 2⟩)
          (by rw [parsedBullet_setEnd, h.earlier_bullet]; rfl) h1 ?_
        intro s0 hs0
        rw [timedSpans_setEnd, furthestWordTimingEnd_eq_none_iff.mp hnone] at hs0
        simp at hs0
      apply hcut.setStart hlater h.later_bullet h2
      intro s0 hs0
      cases hfirst : earliestWordTimingStart W lu with
      | none =>
        rw [earliestWordTimingStart_eq_none_iff.mp hfirst] at hs0
        simp at hs0
      | some t =>
        exact le_trans (h3 t hfirst) ((earliestWordTimingStart_spec hfirst).2 s0 hs0)
    · have hcut := hs.cutToHull (W := W) h.earlier h.earlier_bullet hsome
      rcases hr with hr | ⟨hr, hover, hfirst⟩
      · rw [hr] at hedges
        obtain ⟨_, rfl⟩ := Prod.mk.inj hedges
        apply hcut.setStart hlater h.later_bullet hextl
        intro s0 hs0
        exact (hwl s0 hs0).start_le
      · obtain ⟨⟨s1, hs1, hs1t⟩, hmin⟩ := earliestWordTimingStart_spec hfirst
        apply hcut.setStart hlater h.later_bullet _ hmin
        obtain ⟨_, h2, h3⟩ := hwl s1 hs1
        omega

variable {pairs : List (BulletEntry × BulletEntry)}

theorem averages_accepted
    (hs : Accepted authority ord s.file) (hp : ∀ x ∈ pairs, AveragePairOk authority ord x) :
    ∃ s', Sweep.run (averageAt W) s pairs = .ok s' ∧ Accepted authority ord s'.file ∧
      ∀ i, authority.keptBullet (ord i) ≠ none → getUtterance s'.file i = getUtterance s.file i := by
  have hsweep := Sweep.sweep_invariant (f := averageAt W)
    (I := fun t xs => (Accepted authority ord t.file ∧ ∀ i, authority.keptBullet (ord i) ≠ none →
      getUtterance t.file i = getUtterance s.file i) ∧ ∀ x ∈ xs, AveragePairOk authority ord x) (by
      intro t x xs hI
      obtain ⟨⟨ht, hkept⟩, hpairs⟩ := hI
      have hpx := hpairs x (by simp)
      have hstep := averageStep_spec (W := W) (s := t) hpx
      refine ⟨_, rfl, ⟨hstep.accepted hpx ht, ?_⟩, fun y hy => hpairs y (mem_cons_of_mem x hy)⟩
      intro i hi
      rw [hstep.kept_unchanged hi]
      exact hkept i hi)
  obtain ⟨s', hrun, hinv⟩ := hsweep pairs s ⟨⟨hs, fun _ _ => rfl⟩, hp⟩
  exact ⟨s', hrun, hinv.1⟩

theorem averages_contained
    (hs : Contained authority ord s.file) (hh : Housed s.file)
    (hp : ∀ x ∈ pairs, AveragePairOk authority ord x) (hrun : Sweep.run (averageAt W) s pairs = .ok s')
    (hfits : Sweep.Along (averageAt W) (AverageFits W) s pairs) :
    Contained authority ord s'.file ∧ Housed s'.file := by
  have hend := Sweep.run_along (I := fun t xs => (Contained authority ord t.file ∧ Housed t.file) ∧
    ∀ x ∈ xs, AveragePairOk authority ord x) (by
      intro t x xs t' hI hfit hok
      obtain ⟨⟨ht, hht⟩, hpairs⟩ := hI
      have hpx := hpairs x (by simp)
      have hstep := averageStep_spec (W := W) (s := t) hpx
      cases hok
      exact ⟨⟨hstep.contained hpx ht hfit, (hstep.housed hpx).mpr hht⟩,
        fun y hy => hpairs y (mem_cons_of_mem x hy)⟩)
    hrun ⟨⟨hs, hh⟩, hp⟩ hfits
  exact hend.1

end Average

section Windows
variable {authority : MainBulletAuthority} {ord : ℕ → ℕ} {file : ChatFile} {entries : List BulletEntry}

section
variable (h : Collected authority ord file entries)
include h

theorem windows_ok {lines : List BulletEntry}
    (hsub : lines.Sublist entries) : ∀ x ∈ windows lines, AveragePairOk authority ord x := by
  intro x hx
  obtain ⟨a, b⟩ := x
  obtain ⟨ha, hb⟩ := mem_windows hx
  exact ⟨windows_pairwise (h.sorted.sublist hsub) hx, (h.live a (hsub.subset ha)).mutability,
    (h.live b (hsub.subset hb)).mutability⟩

theorem streamWindows_ok : ∀ x ∈ streamWindows entries, AveragePairOk authority ord x := by
  intro x hx
  obtain ⟨speaker, _, hx⟩ := mem_flatMap.mp hx
  exact windows_ok h filter_sublist x hx

theorem adjacentWindows_ok (policy : EndOverlapPolicy) :
    ∀ x ∈ adjacentWindows policy entries, AveragePairOk authority ord x := by
  intro x hx
  exact windows_ok h (Sublist.refl _) x (mem_filter.mp hx).1

end

end Windows

/-! ## Gap fills -/

section Gaps
variable {authority : MainBulletAuthority} {ord : ℕ → ℕ} {file : ChatFile} {entries : List BulletEntry}

variable {lastEnd : String → Option ℕ}

theorem gapFill_some {e : BulletEntry} {fill : ℕ × ℕ}
    (h : gapFill lastEnd e = some fill) :
    e.lineIdx = fill.1 ∧ e.mutability = .revisable ∧ lastEnd e.speaker = some fill.2 ∧
      fill.2 < e.startMs := by
  unfold gapFill at h
  cases hm : e.mutability with
  | readOnly kept => simp [hm] at h
  | revisable =>
    cases hl : lastEnd e.speaker with
    | none => simp [hm, hl] at h
    | some prevEnd =>
      simp only [hm, hl] at h
      split_ifs at h with hgap
      cases h
      exact ⟨rfl, rfl, rfl, hgap.1⟩

theorem gapFillsFrom_keys (lastEnd : String → Option ℕ) (entries : List BulletEntry) :
    ((gapFillsFrom lastEnd entries).map Prod.fst).Sublist (entries.map BulletEntry.lineIdx) := by
  induction entries generalizing lastEnd with
  | nil => simp [gapFillsFrom]
  | cons e rest ih =>
    have hrest := ih (Function.update lastEnd e.speaker (some e.endMs))
    rw [gapFillsFrom, map_append, map_cons]
    cases hfill : gapFill lastEnd e with
    | none =>
      exact hrest.cons _
    | some fill =>
      rw [Option.toList_some, map_singleton, ← (gapFill_some hfill).1]
      exact hrest.cons_cons _

theorem mem_gapFillsFrom {entries : List BulletEntry} {fill : ℕ × ℕ}
    (h : fill ∈ gapFillsFrom lastEnd entries) :
    ∃ e ∈ entries, e.lineIdx = fill.1 ∧ e.mutability = .revisable ∧ fill.2 < e.startMs := by
  induction entries generalizing lastEnd with
  | nil => simp [gapFillsFrom] at h
  | cons e rest ih =>
    rcases mem_append.mp h with h | h
    · obtain ⟨hline, hrev, _, hlt⟩ := gapFill_some (Option.mem_toList.mp h)
      exact ⟨e, by simp, hline, hrev, hlt⟩
    · obtain ⟨e', he', hrest⟩ := ih h
      exact ⟨e', mem_cons_of_mem e he', hrest⟩

theorem getUtterance_applyGapFills (file : ChatFile) (fills : List (ℕ × ℕ))
    (hnodup : (fills.map Prod.fst).Nodup) (i : ℕ) :
    getUtterance (applyGapFills file fills) i = match fills.lookup i with
      | some t => (getUtterance file i).map fun u => u.setStart t
      | none => getUtterance file i := by
  induction fills generalizing file with
  | nil => rfl
  | cons fill rest ih =>
    obtain ⟨l, t⟩ := fill
    obtain ⟨hl, hnodup⟩ := nodup_cons.mp hnodup
    have hrest := ih (modifyUtterance file l fun u => u.setStart t) hnodup
    change getUtterance (applyGapFills (modifyUtterance file l fun u => u.setStart t) rest) i = _
    rw [hrest, lookup_cons]
    by_cases hil : i = l
    · subst hil
      have hnone : rest.lookup i = none := by
        rw [lookup_eq_none_iff]
        intro p hp
        simp only [bne_iff_ne, ne_eq]
        intro heq
        exact hl (mem_map.mpr ⟨p, hp, heq.symm⟩)
      rw [hnone]
      simp
    · have hbeq : (i == l) = false := by simpa using hil
      rw [hbeq]
      simp only [getUtterance_modifyUtterance_ne (Ne.symm hil)]

section
variable (h : Collected authority ord file entries)
include h

theorem findGapFills_lookup {i t : ℕ} (ht : (findGapFills entries).lookup i = some t) :
    ∃ e ∈ entries, e.lineIdx = i ∧ authority.keptBullet (ord i) = none ∧ t < e.startMs := by
  have hmem : (i, t) ∈ findGapFills entries := by
    obtain ⟨l₁, l₂, heq, _⟩ := lookup_eq_some_iff.mp ht
    rw [heq]
    simp
  obtain ⟨e, he, hei, hrev, hlt⟩ := mem_gapFillsFrom hmem
  refine ⟨e, he, hei, ?_, hlt⟩
  have hm := (h.live e he).mutability
  rw [hei, hrev] at hm
  exact MainBulletAuthority.standing_revisable hm.symm

theorem findGapFills_nodup : ((findGapFills entries).map Prod.fst).Nodup := by
  have hsorted : (entries.map BulletEntry.lineIdx).Pairwise (· < ·) := pairwise_map.mpr h.sorted
  exact (hsorted.sublist (gapFillsFrom_keys _ _)).imp (fun hlt => ne_of_lt hlt)

theorem gapFilled_line (i : ℕ) :
    getUtterance (applyGapFills file (findGapFills entries)) i = getUtterance file i ∨
    ∃ u b t, getUtterance file i = some u ∧ u.parsedBullet = some b ∧
      authority.keptBullet (ord i) = none ∧ t < b.startMs ∧ (findGapFills entries).lookup i = some t ∧
      getUtterance (applyGapFills file (findGapFills entries)) i = some (u.setStart t) := by
  rw [getUtterance_applyGapFills file _ (findGapFills_nodup h)]
  cases hl : (findGapFills entries).lookup i with
  | none => exact .inl rfl
  | some t =>
    obtain ⟨e, he, hei, hk, hlt⟩ := findGapFills_lookup h hl
    obtain ⟨u, hu, _, hb⟩ := (h.live e he).speaker
    rw [hei] at hu
    right
    exact ⟨u, ⟨e.startMs, e.endMs⟩, t, hu, hb, hk, hlt, rfl, by rw [hu]; rfl⟩

theorem gapFilled_accepted (hs : Accepted authority ord file) :
    Accepted authority ord (applyGapFills file (findGapFills entries)) := by
  refine ⟨?_, ?_⟩
  · intro i
    have hord : ∀ (fills : List (ℕ × ℕ)) (f : ChatFile),
        utteranceOrdinal (applyGapFills f fills) i = utteranceOrdinal f i := by
      intro fills
      induction fills with
      | nil => intro f; rfl
      | cons fill rest ih =>
        intro f
        change utteranceOrdinal (applyGapFills (modifyUtterance f fill.1 _) rest) i = _
        rw [ih, ordinal_modifyUtterance]
    rw [hord, hs.ordinals]
  · intro i b hb
    rcases gapFilled_line h i with hsame | ⟨u, b0, t, hu, hb0, hk, _, _, _⟩
    · rw [bulletAt, hsame] at hb
      exact hs.attributed i b hb
    · exact (mutability_ok (hs.attributed i b0 (by rw [bulletAt_eq hu, hb0]))).2.2 hk b

theorem gapFilled_contained (hs : Contained authority ord file) :
    Contained authority ord (applyGapFills file (findGapFills entries)) := by
  refine ⟨?_, ?_⟩
  · intro i b hb hk
    rcases gapFilled_line h i with hsame | ⟨u, b0, t, hu, hb0, _, hlt, _, hnew⟩
    · rw [bulletAt, hsame] at hb
      exact hs.extent i b hb hk
    · rw [bulletAt_eq hnew, parsedBullet_setStart, hb0] at hb
      cases hb
      have := hs.extent i b0 (by rw [bulletAt_eq hu, hb0]) hk
      exact lt_trans hlt this
  · intro i v b hv hb s hsp
    rcases gapFilled_line h i with hsame | ⟨u, b0, t, hu, hb0, _, hlt, _, hnew⟩
    · rw [hsame] at hv
      exact hs.words i v b hv hb s hsp
    · cases hnew.symm.trans hv
      rw [parsedBullet_setStart, hb0] at hb
      cases hb
      obtain ⟨h1, h2, h3⟩ := hs.words i u b0 hu hb0 s hsp
      exact ⟨le_trans (le_of_lt hlt) h1, h2, h3⟩

theorem gapFilled_housed (hs : Housed file) : Housed (applyGapFills file (findGapFills entries)) := by
  intro i v hv hnone
  rcases gapFilled_line h i with hsame | ⟨u, b0, t, hu, hb0, _, _, _, hnew⟩
  · rw [hsame] at hv
    exact hs i v hv hnone
  · cases hnew.symm.trans hv
    rw [parsedBullet_setStart, hb0] at hnone
    simp at hnone

theorem gapFilled_kept {i : ℕ} (hi : authority.keptBullet (ord i) ≠ none) :
    getUtterance (applyGapFills file (findGapFills entries)) i = getUtterance file i := by
  rcases gapFilled_line h i with hsame | ⟨_, _, _, _, _, hk, _⟩
  · exact hsame
  · exact absurd hk hi

end

end Gaps

/-! ## Removals -/

variable {l : ℕ}

theorem mem_removeOutsideLis {segment : List BulletEntry} {lower upper : Option ℕ} (h : l ∈ removeOutsideLis segment lower upper) : ∃ e ∈ segment, e.lineIdx = l := by
  unfold removeOutsideLis at h
  rcases mem_append.mp h with h | h
  · obtain ⟨e, he, hel⟩ := mem_map.mp h
    exact ⟨e, (mem_filter.mp he).1, hel⟩
  · split_ifs at h
    · simp at h
    · obtain ⟨⟨e, pos⟩, he, hel⟩ := mem_map.mp h
      have he := fst_mem_of_mem_zipIdx (mem_filter.mp he).1
      exact ⟨e, (mem_filter.mp he).1, hel⟩

theorem mem_speakerRemovals {lower : Option ℕ} {segment rest : List BulletEntry} (hseg : ∀ e ∈ segment, e.mutability = .revisable)
    (h : l ∈ speakerRemovals lower segment rest) :
    ∃ e ∈ segment ++ rest, e.lineIdx = l ∧ e.mutability = .revisable := by
  induction rest generalizing lower segment with
  | nil =>
    obtain ⟨e, he, hel⟩ := mem_removeOutsideLis h
    exact ⟨e, by simpa using he, hel, hseg e he⟩
  | cons entry rest ih =>
    rw [speakerRemovals] at h
    cases hm : entry.mutability with
    | revisable =>
      rw [hm] at h
      have hseg' : ∀ e ∈ segment ++ [entry], e.mutability = .revisable := by
        intro e he
        rcases mem_append.mp he with he | he
        · exact hseg e he
        · rw [mem_singleton.mp he]
          exact hm
      obtain ⟨e, he, hrest⟩ := ih hseg' h
      exact ⟨e, by simpa using he, hrest⟩
    | readOnly kept =>
      rw [hm] at h
      rcases mem_append.mp h with h | h
      · obtain ⟨e, he, hel⟩ := mem_removeOutsideLis h
        exact ⟨e, mem_append_left _ he, hel, hseg e he⟩
      · obtain ⟨e, he, hrest⟩ := ih (by simp) h
        exact ⟨e, mem_append_right _ (mem_cons_of_mem entry he), hrest⟩

theorem mem_findLisRemovals {order : HashOrder} {entries : List BulletEntry} (h : l ∈ findLisRemovals order entries) :
    ∃ e ∈ entries, e.lineIdx = l ∧ e.mutability = .revisable := by
  obtain ⟨speaker, _, h⟩ := mem_flatMap.mp h
  obtain ⟨e, he, hel, hrev⟩ := mem_speakerRemovals (by simp) h
  exact ⟨e, (mem_filter.mp he).1, hel, hrev⟩

section Removals
variable {W : ContentWalker} {authority : MainBulletAuthority} {ord : ℕ → ℕ} {file : ChatFile}

def RemovalsReach (file : ChatFile) (removals : List ℕ) : Prop :=
  ∀ l ∈ removals, ∀ u, getUtterance file l = some u →
    ∀ w ∈ unreachedWords u.content, w.inlineBullet = none

variable {l : ℕ}

theorem strip_line_accepted (hs : Accepted authority ord file) :
    Accepted authority ord (modifyUtterance file l fun u => (stripUtteranceTiming W u).1) := by
  refine ⟨fun i => by rw [ordinal_modifyUtterance, hs.ordinals], ?_⟩
  intro i b hb
  by_cases hil : l = i
  · subst hil
    rw [bulletAt, getUtterance_modifyUtterance_self] at hb
    cases hu : getUtterance file l with
    | none => simp [hu] at hb
    | some u => simp [hu, stripUtteranceTiming, Utterance.parsedBullet] at hb
  · rw [bulletAt_modify_ne hil] at hb
    exact hs.attributed i b hb

theorem strip_line_contained (hs : Contained authority ord file) :
    Contained authority ord (modifyUtterance file l fun u => (stripUtteranceTiming W u).1) := by
  cases hu : getUtterance file l with
  | some u =>
    rw [modifyUtterance_const hu]
    exact hs.strip hu rfl
  | none =>
    have hsame : ∀ i, getUtterance (modifyUtterance file l fun u => (stripUtteranceTiming W u).1) i =
        getUtterance file i := by
      intro i
      rw [getUtterance_modifyUtterance]
      split_ifs with hli
      · subst hli
        rw [hu]
        rfl
      · rfl
    refine ⟨?_, ?_⟩
    · intro i b hb
      rw [bulletAt, hsame] at hb
      exact hs.extent i b hb
    · intro i u b hu'
      rw [hsame] at hu'
      exact hs.words i u b hu'

theorem strip_line_housed (hs : Housed file)
    (hreach : ∀ u, getUtterance file l = some u → ∀ w ∈ unreachedWords u.content, w.inlineBullet = none) :
    Housed (modifyUtterance file l fun u => (stripUtteranceTiming W u).1) := by
  intro i v hv hnone
  by_cases hil : l = i
  · subst hil
    rw [getUtterance_modifyUtterance_self] at hv
    obtain ⟨u, hu, rfl⟩ := Option.map_eq_some_iff.mp hv
    rw [timedSpans_stripUtteranceTiming, timings_eq_nil_iff]
    exact hreach u hu
  · rw [getUtterance_modifyUtterance_ne hil] at hv
    exact hs i v hv hnone

theorem RemovalsReach.step {rest : List ℕ} (h : RemovalsReach file (l :: rest)) :
    RemovalsReach (modifyUtterance file l fun u => (stripUtteranceTiming W u).1) rest := by
  intro l' hl' v hv w hw
  by_cases hll : l = l'
  · subst hll
    rw [getUtterance_modifyUtterance_self] at hv
    obtain ⟨u, hu, rfl⟩ := Option.map_eq_some_iff.mp hv
    have hnone : timings (wordLeaves (stripTimingFromContent u.content)) = [] := by
      rw [timed_stripTimingFromContent, timings_eq_nil_iff]
      exact h l (by simp) u hu
    exact (timings_eq_nil_iff _).mp hnone w (unreachedWords_subset hw)
  · rw [getUtterance_modifyUtterance_ne hll] at hv
    exact h l' (mem_cons_of_mem l hl') v hv w hw

theorem removals_accepted (removals : List ℕ) (hs : Accepted authority ord file) :
    Accepted authority ord (applyRemovals W file removals) := by
  induction removals generalizing file with
  | nil => exact hs
  | cons l rest ih => exact ih (strip_line_accepted hs)

theorem removals_contained (removals : List ℕ) (hs : Contained authority ord file) :
    Contained authority ord (applyRemovals W file removals) := by
  induction removals generalizing file with
  | nil => exact hs
  | cons l rest ih => exact ih (strip_line_contained hs)

theorem removals_housed {removals : List ℕ} (hs : Housed file) (hreach : RemovalsReach file removals) :
    Housed (applyRemovals W file removals) := by
  induction removals generalizing file with
  | nil => exact hs
  | cons l rest ih => exact ih (strip_line_housed hs (hreach l (by simp))) hreach.step

theorem removals_other {removals : List ℕ} {i : ℕ} (hi : i ∉ removals) :
    getUtterance (applyRemovals W file removals) i = getUtterance file i := by
  induction removals generalizing file with
  | nil => rfl
  | cons l rest ih =>
    rw [mem_cons, not_or] at hi
    change getUtterance (applyRemovals W (modifyUtterance file l _) rest) i = _
    rw [ih hi.2, getUtterance_modifyUtterance_ne (Ne.symm hi.1)]

end Removals

/-! ## The whole repair -/

/-- The states after the gap fills, after both averages, and after the removals. -/
structure RepairRun (W : ContentWalker) (order : HashOrder) (authority : MainBulletAuthority)
    (policy : EndOverlapPolicy) (file : ChatFile) (entries entries1 entries2 entries3 : List BulletEntry)
    (s1 s2 : RepairState) : Prop where
  given : Collected authority (utteranceOrdinal file) file entries
  filled : Collected authority (utteranceOrdinal file)
    (applyGapFills file (findGapFills entries)) entries1
  streams : Sweep.run (averageAt W) ⟨applyGapFills file (findGapFills entries), [], 0⟩
    (streamWindows entries1) = .ok s1
  collected2 : Collected authority (utteranceOrdinal file) s1.file entries2
  adjacent : Sweep.run (averageAt W) s1 (adjacentWindows policy entries2) = .ok s2
  collected3 : Collected authority (utteranceOrdinal file) s2.file entries3
  accepted2 : Accepted authority (utteranceOrdinal file) s2.file
  kept : ∀ i, authority.keptBullet (utteranceOrdinal file i) ≠ none →
    getUtterance s2.file i = getUtterance file i

section Whole
variable {W : ContentWalker} {order : HashOrder} {authority : MainBulletAuthority}
  {policy : EndOverlapPolicy} {file : ChatFile} {entries entries1 entries2 entries3 : List BulletEntry}
  {s1 s2 : RepairState}

theorem repairRun_exists (hattr : Attributed authority file) : ∃ entries entries1 entries2 entries3 s1 s2,
      RepairRun W order authority policy file entries entries1 entries2 entries3 s1 s2 := by
  have hacc := accepted_of_attributed hattr
  obtain ⟨entries, hc⟩ := collected_exists hacc
  have hacc1 := gapFilled_accepted hc hacc
  obtain ⟨entries1, hc1⟩ := collected_exists hacc1
  obtain ⟨s1, hs1, haccs1, hkept1⟩ := averages_accepted (W := W)
    (s := ⟨applyGapFills file (findGapFills entries), [], 0⟩) hacc1 (streamWindows_ok hc1)
  obtain ⟨entries2, hc2⟩ := collected_exists haccs1
  obtain ⟨s2, hs2, haccs2, hkept2⟩ := averages_accepted (W := W) haccs1 (adjacentWindows_ok hc2 policy)
  obtain ⟨entries3, hc3⟩ := collected_exists haccs2
  refine ⟨entries, entries1, entries2, entries3, s1, s2, hc, hc1, hs1, hc2, hs2, hc3, haccs2, ?_⟩
  intro i hi
  rw [hkept2 i hi, hkept1 i hi]
  exact gapFilled_kept hc hi

theorem RepairRun.run_eq
    (h : RepairRun W order authority policy file entries entries1 entries2 entries3 s1 s2) :
    ∃ result, repairBulletsUnder W order authority policy file =
      .ok (applyRemovals W s2.file (findLisRemovals order entries3), result) := by
  unfold repairBulletsUnder
  simp only [h.given.eq]
  by_cases hempty : entries.isEmpty = true
  · -- no bullet at all: every later phase has nothing to do either
    have hnil : entries = [] := List.isEmpty_iff.mp hempty
    have hnone : ∀ i, bulletAt file i = none := by
      intro i
      cases hb : bulletAt file i with
      | none => rfl
      | some b =>
        obtain ⟨e, he, _⟩ := h.given.covered i b hb
        rw [hnil] at he
        simp at he
    have hempty' : ∀ (f : ChatFile) (es : List BulletEntry),
        Collected authority (utteranceOrdinal file) f es → f = file → es = [] := by
      intro f es hes hf
      rw [eq_nil_iff_forall_not_mem]
      intro e he
      have := (hes.live e he).bullet
      rw [hf, hnone] at this
      simp at this
    subst hnil
    have h1 := hempty' _ _ h.filled rfl
    have hrun1 := h.streams
    subst h1
    cases hrun1
    have h2 := hempty' _ _ h.collected2 rfl
    have hrun2 := h.adjacent
    subst h2
    cases hrun2
    have h3 := hempty' _ _ h.collected3 rfl
    subst h3
    refine ⟨⟨.default, []⟩, ?_⟩
    have hno : findLisRemovals order [] = [] := by
      have hkeys : order.values [] = [] := Perm.eq_nil (order.perm [])
      change (order.values []).flatMap _ = []
      rw [hkeys]
      rfl
    rw [hno]
    rfl
  · rw [if_neg hempty]
    simp only [resolveBoundaryAverages, resolveBoundaryAveragesSameSpeakerStream, h.filled.eq,
      h.streams, h.collected2.eq, h.adjacent, h.collected3.eq]
    exact ⟨_, rfl⟩

/-- Every average fits and every removal reaches, each read from the state before the step. -/
structure RepairFits (W : ContentWalker) (order : HashOrder) (authority : MainBulletAuthority)
    (policy : EndOverlapPolicy) (file : ChatFile) : Prop where
  streams : ∀ entries entries1, collectBulletEntries authority file = .ok entries →
    collectBulletEntries authority (applyGapFills file (findGapFills entries)) = .ok entries1 →
    Sweep.Along (averageAt W) (AverageFits W) ⟨applyGapFills file (findGapFills entries), [], 0⟩
      (streamWindows entries1)
  adjacent : ∀ entries s1 entries2, collectBulletEntries authority file = .ok entries →
    resolveBoundaryAveragesSameSpeakerStream W authority
      ⟨applyGapFills file (findGapFills entries), [], 0⟩ = .ok s1 →
    collectBulletEntries authority s1.file = .ok entries2 →
    Sweep.Along (averageAt W) (AverageFits W) s1 (adjacentWindows policy entries2)
  removals : ∀ entries s2 entries3, collectBulletEntries authority file = .ok entries →
    resolveBoundaryAverages W authority policy
      ⟨applyGapFills file (findGapFills entries), [], 0⟩ = .ok s2 →
    collectBulletEntries authority s2.file = .ok entries3 →
    RemovalsReach s2.file (findLisRemovals order entries3)

theorem RepairRun.contained
    (h : RepairRun W order authority policy file entries entries1 entries2 entries3 s1 s2)
    (hc : Contained authority (utteranceOrdinal file) file) (hh : Housed file)
    (hfits : RepairFits W order authority policy file) : Contained authority (utteranceOrdinal file)
        (applyRemovals W s2.file (findLisRemovals order entries3)) ∧
      Housed (applyRemovals W s2.file (findLisRemovals order entries3)) := by
  have hstream : resolveBoundaryAveragesSameSpeakerStream W authority
      ⟨applyGapFills file (findGapFills entries), [], 0⟩ = .ok s1 := by
    simp only [resolveBoundaryAveragesSameSpeakerStream, h.filled.eq, h.streams]
  have haverage : resolveBoundaryAverages W authority policy
      ⟨applyGapFills file (findGapFills entries), [], 0⟩ = .ok s2 := by
    simp only [resolveBoundaryAverages, hstream, h.collected2.eq, h.adjacent]
  obtain ⟨hc1, hh1⟩ := averages_contained (W := W)
    (s := ⟨applyGapFills file (findGapFills entries), [], 0⟩) (gapFilled_contained h.given hc)
    (gapFilled_housed h.given hh) (streamWindows_ok h.filled) h.streams
    (hfits.streams entries entries1 h.given.eq h.filled.eq)
  obtain ⟨hc2, hh2⟩ := averages_contained (W := W) hc1 hh1 (adjacentWindows_ok h.collected2 policy)
    h.adjacent (hfits.adjacent entries s1 entries2 h.given.eq hstream h.collected2.eq)
  exact ⟨removals_contained _ hc2, removals_housed hh2
    (hfits.removals entries s2 entries3 h.given.eq haverage h.collected3.eq)⟩

theorem RepairRun.accepted
    (h : RepairRun W order authority policy file entries entries1 entries2 entries3 s1 s2) :
    Accepted authority (utteranceOrdinal file)
      (applyRemovals W s2.file (findLisRemovals order entries3)) :=
  removals_accepted _ h.accepted2

end Whole

end Batchalign.Fa
