import Batchalign.Fa.Finalized

/- Lines that no phase of finalization has a reason to touch. A line without a parsed bullet comes out
   as it went in, up to `%wor`; with the kept lines that is all an authority needs to find its bullets. -/
namespace Batchalign.Fa

def Utterance.Unparsed (u : Utterance) : Prop := ∃ source, u.bullet = some (.unparsed source)

/-- A phase leaves an utterance without a parsed bullet alone, and none with an unparsed one. -/
structure Spared (u u' : Utterance) : Prop where
  unbulleted : u.parsedBullet = none → u' = u
  parsed : u'.Unparsed → u.Unparsed

theorem Spared.refl (u : Utterance) : Spared u u := ⟨fun _ => rfl, id⟩

theorem Spared.trans {u v w : Utterance} (h : Spared u v) (h' : Spared v w) : Spared u w := by
  refine ⟨?_, fun hw => h.parsed (h'.parsed hw)⟩
  intro hnone
  have hv := h.unbulleted hnone
  subst hv
  exact h'.unbulleted hnone

def SparedFile (file file' : ChatFile) : Prop :=
  ∀ i u, getUtterance file i = some u → ∃ u', getUtterance file' i = some u' ∧ Spared u u'

theorem SparedFile.refl (file : ChatFile) : SparedFile file file :=
  fun _ u hu => ⟨u, hu, Spared.refl u⟩

theorem SparedFile.trans {file file' file'' : ChatFile} (h : SparedFile file file')
    (h' : SparedFile file' file'') : SparedFile file file'' := by
  intro i u hu
  obtain ⟨u', hu', hs⟩ := h i u hu
  obtain ⟨u'', hu'', hs'⟩ := h' i u' hu'
  exact ⟨u'', hu'', hs.trans hs'⟩

theorem not_unparsed_of_parsed {u : Utterance} {b : TimeSpan} (h : u.parsedBullet = some b) : ¬ u.Unparsed := by
  rintro ⟨source, hsource⟩
  rw [Utterance.parsedBullet, hsource] at h
  cases h

theorem SparedFile.edit {file : ChatFile} {i : ℕ} {u w : Utterance} {b : TimeSpan}
    (hu : getUtterance file i = some u) (hb : u.parsedBullet = some b) (hw : ¬ w.Unparsed) :
    SparedFile file (modifyUtterance file i fun _ => w) := by
  intro j v hv
  by_cases hij : i = j
  · subst hij
    cases hu.symm.trans hv
    refine ⟨w, by rw [getUtterance_modifyUtterance_self, hu, Option.map_some], ?_, ?_⟩
    · intro hnone
      rw [hb] at hnone
      cases hnone
    · intro hunparsed
      exact absurd hunparsed hw
  · exact ⟨v, by rw [getUtterance_modifyUtterance_ne hij]; exact hv, Spared.refl v⟩

section Edits
variable {W : ContentWalker} {u : Utterance} {b : TimeSpan}

theorem not_unparsed_setStart (h : u.parsedBullet = some b) (t : ℕ) : ¬ (u.setStart t).Unparsed := by
  apply not_unparsed_of_parsed (b := { b with startMs := t })
  rw [parsedBullet_setStart, h, Option.map_some]

theorem not_unparsed_setEnd (h : u.parsedBullet = some b) (t : ℕ) : ¬ (u.setEnd t).Unparsed := by
  apply not_unparsed_of_parsed (b := { b with endMs := t })
  rw [parsedBullet_setEnd, h, Option.map_some]

theorem not_unparsed_clampWordsPastBound (h : ¬ u.Unparsed) (t : ℕ) : ¬ (clampWordsPastBound W u t).1.Unparsed := h

theorem not_unparsed_raiseBulletStart (h : u.parsedBullet = some b) (t : ℕ) :
    ¬ (raiseBulletStart W u t).1.Unparsed := not_unparsed_setStart h t

theorem not_unparsed_strip (W : ContentWalker) (u : Utterance) : ¬ (stripUtteranceTiming W u).1.Unparsed := by
  rintro ⟨source, hsource⟩
  cases hsource

end Edits

/-! ## Steps -/

section Monotonicity
variable {W : ContentWalker} {authority : MainBulletAuthority} {ord : ℕ → ℕ} {U : ℕ → Prop} {s s' : PassState}
  {pair : OverlapPairIdentity}

theorem PairStep.spared (hstep : PairStep W authority ord s pair s') (hp : PairOk ord pair) :
    SparedFile s.file s'.file := by
  have hne : pair.prevLineIdx ≠ pair.nextLineIdx := by
    have hbefore := hp.before
    omega
  cases hstep with
  | idle hfile _ _ _ =>
    rw [hfile]
    exact SparedFile.refl _
  | stripPrev p n pb nb h hk _ _ hfile =>
    rw [hfile]
    exact SparedFile.edit h.prev h.prev_bullet (not_unparsed_strip W p)
  | coverage p n pb nb e h hk _ _ _ hfile =>
    rw [hfile]
    exact SparedFile.edit h.prev h.prev_bullet (not_unparsed_setEnd h.prev_bullet e)
  | boundary p n pb nb e t h hk hkn _ _ _ _ _ _ _ hfile =>
    rw [hfile]
    apply (SparedFile.edit h.prev h.prev_bullet (not_unparsed_setEnd h.prev_bullet e)).trans
    exact SparedFile.edit (by rw [getUtterance_modifyUtterance_ne hne]; exact h.next) h.next_bullet
      (not_unparsed_setStart h.next_bullet t)
  | interleaved p n pb nb h hk _ _ hfile =>
    rw [hfile]
    exact SparedFile.edit h.prev h.prev_bullet
      (not_unparsed_clampWordsPastBound (not_unparsed_setEnd h.prev_bullet nb.startMs) nb.startMs)
  | raiseNext p n pb nb h _ hkn _ _ _ hfile =>
    rw [hfile]
    exact SparedFile.edit h.next h.next_bullet (not_unparsed_raiseBulletStart h.next_bullet pb.endMs)
  | stripNext p n pb nb h _ hkn _ hfile =>
    rw [hfile]
    exact SparedFile.edit h.next h.next_bullet (not_unparsed_strip W n)

theorem resolvePairs_spared {pairs : List (String × OverlapPairIdentity)} (hs : InOrder authority ord U s.file)
    (hp : ∀ x ∈ pairs, PairOk ord x.2) (hrun : resolvePairs W authority s pairs = .ok s') :
    SparedFile s.file s'.file := by
  apply resolvePairs_along (C := fun _ _ => True) (J := fun t _ => SparedFile s.file t.file) hs hp hrun
    (SparedFile.refl _)
  · exact Sweep.along_true pairs s
  · intro t x xs t' _ hpx hspared _ hpair
    exact hspared.trans (hpair.spared hpx)

variable {file : ChatFile} {st st' : StartOrderState}

theorem StartOrderInv.step_spared {x : StartOrderSource} {rest : List StartOrderSource}
    (h : StartOrderInv authority ord file st (x :: rest))
    (hstep : StartStep W st x (rest.findSome? StartOrderSource.kept?) st') :
    SparedFile st.pass.file st'.pass.file := by
  cases hstep with
  | leftUnresolved _ _ _ _ _ _ hfile _ _ _ _ =>
    rw [hfile]
    exact SparedFile.refl _
  | keptAccepted _ _ _ _ hpass _ _ =>
    rw [hpass]
    exact SparedFile.refl _
  | accepted _ _ _ _ _ hpass _ _ =>
    rw [hpass]
    exact SparedFile.refl _
  | raised e a u hsource hu _ _ _ _ hfile _ _ _ =>
    subst hsource
    obtain ⟨v, b, hv, hb, -⟩ := h.head
    cases hu.symm.trans hv
    rw [hfile]
    exact SparedFile.edit hu hb (not_unparsed_raiseBulletStart hb a.startMs)
  | stripped e u hsource hu _ _ hfile _ _ _ =>
    subst hsource
    obtain ⟨v, b, hv, hb, -⟩ := h.head
    cases hu.symm.trans hv
    rw [hfile]
    exact SparedFile.edit hu hb (not_unparsed_strip W u)

variable {sources : List StartOrderSource}

theorem startOrderSweep_spared
    (h : StartOrderInv authority ord file st sources) (hrun : startOrderSweep W st sources = .ok st') :
    SparedFile st.pass.file st'.pass.file := by
  apply startOrderSweep_along (C := fun _ _ => True)
    (J := fun t _ => SparedFile st.pass.file t.pass.file) h hrun (SparedFile.refl _)
  · exact Sweep.along_true _ _
  · intro t x rest t' hI hspared _ hstep
    exact hspared.trans (hI.step_spared hstep)

theorem EnforcementRun.spared {policy : EndOverlapPolicy} {s2 : PassState}
    (h : EnforcementRun W authority policy file sources st s2 s') : SparedFile file s'.file := by
  have h1 : SparedFile file st.pass.file := startOrderSweep_spared h.entry h.start_order
  have h2 : SparedFile st.pass.file s2.file := resolvePairs_spared h.ordered1 h.pairs2_ok h.streams
  have h3 : SparedFile s2.file s'.file := resolvePairs_spared h.ordered2 h.pairs'_ok h.adjacent
  exact (h1.trans h2).trans h3

end Monotonicity

/-! ## Repair -/

section Repair
variable {W : ContentWalker} {authority : MainBulletAuthority} {ord : ℕ → ℕ} {file : ChatFile}

theorem gapFilled_spared {entries : List BulletEntry} (h : Collected authority ord file entries) :
    SparedFile file (applyGapFills file (findGapFills entries)) := by
  intro i u hu
  obtain hsame | ⟨v, b, t, hv, hb, -, -, -, hnew⟩ := gapFilled_line h i
  · exact ⟨u, by rw [hsame]; exact hu, Spared.refl u⟩
  · cases hu.symm.trans hv
    refine ⟨u.setStart t, hnew, ?_, ?_⟩
    · intro hnone
      rw [hb] at hnone
      cases hnone
    · intro hunparsed
      exact absurd hunparsed (not_unparsed_setStart hb t)

theorem AverageStep.spared {s s' : RepairState} {pair : BulletEntry × BulletEntry}
    (hstep : AverageStep W authority ord s pair s') (hp : AveragePairOk authority ord pair) :
    SparedFile s.file s'.file := by
  have hne : pair.1.lineIdx ≠ pair.2.lineIdx := by
    have hbefore := hp.before
    omega
  cases hstep with
  | idle _ hstate =>
    rw [hstate]
    exact SparedFile.refl _
  | interleaved eu lu eb lb _ h hfile =>
    rw [hfile]
    exact SparedFile.edit h.earlier h.earlier_bullet
      (not_unparsed_clampWordsPastBound (not_unparsed_setEnd h.earlier_bullet lb.startMs) lb.startMs)
  | moved r eu lu eb lb e t _ h _ _ hfile =>
    rw [hfile]
    apply (SparedFile.edit h.earlier h.earlier_bullet (not_unparsed_setEnd h.earlier_bullet e)).trans
    exact SparedFile.edit (by rw [getUtterance_modifyUtterance_ne hne]; exact h.later) h.later_bullet
      (not_unparsed_setStart h.later_bullet t)

theorem averages_spared {s s' : RepairState} {pairs : List (BulletEntry × BulletEntry)}
    (hp : ∀ x ∈ pairs, AveragePairOk authority ord x) (hrun : Sweep.run (averageAt W) s pairs = .ok s') :
    SparedFile s.file s'.file := by
  have hend := Sweep.run_along (C := fun _ _ => True)
    (I := fun t xs => SparedFile s.file t.file ∧ ∀ x ∈ xs, AveragePairOk authority ord x) (by
      intro t x xs t' hI _ hok
      obtain ⟨hspared, hpairs⟩ := hI
      have hpx := hpairs x (List.mem_cons_self ..)
      have hstep := averageStep_spec (W := W) (s := t) hpx
      cases hok
      exact ⟨hspared.trans (hstep.spared hpx), fun y hy => hpairs y (List.mem_cons_of_mem x hy)⟩)
    hrun ⟨SparedFile.refl _, hp⟩ (Sweep.along_true pairs s)
  exact hend.1

theorem removals_spared {removals : List ℕ} (h : ∀ l ∈ removals, (bulletAt file l).isSome) :
    SparedFile file (applyRemovals W file removals) := by
  intro i u hu
  by_cases hi : i ∈ removals
  · obtain ⟨b, hb⟩ := Option.isSome_iff_exists.mp (h i hi)
    rw [bulletAt_eq hu] at hb
    -- a stripped line stays one that parses, however often it is stripped
    have hstrips : ∀ (rs : List ℕ) (f : ChatFile) (v : Utterance), getUtterance f i = some v → ¬ v.Unparsed →
        ∃ v', getUtterance (applyRemovals W f rs) i = some v' ∧ ¬ v'.Unparsed := by
      intro rs
      induction rs with
      | nil =>
        intro f v hv hparsed
        exact ⟨v, hv, hparsed⟩
      | cons l rest ih =>
        intro f v hv hparsed
        by_cases hl : l = i
        · subst hl
          exact ih _ _ (by rw [getUtterance_modifyUtterance_self, hv, Option.map_some]) (not_unparsed_strip W v)
        · exact ih _ v (by rw [getUtterance_modifyUtterance_ne hl]; exact hv) hparsed
    obtain ⟨u', hu', hparsed⟩ := hstrips removals file u hu (not_unparsed_of_parsed hb)
    refine ⟨u', hu', ?_, ?_⟩
    · intro hnone
      rw [hb] at hnone
      cases hnone
    · intro hunparsed
      exact absurd hunparsed hparsed
  · exact ⟨u, by rw [removals_other hi]; exact hu, Spared.refl u⟩

variable {order : HashOrder} {policy : EndOverlapPolicy} {entries entries1 entries2 entries3 : List BulletEntry}
  {s1 s2 : RepairState}

theorem RepairRun.spared (h : RepairRun W order authority policy file entries entries1 entries2 entries3 s1 s2) :
    SparedFile file (applyRemovals W s2.file (findLisRemovals order entries3)) ∧
      ∀ i, authority.keptBullet (utteranceOrdinal file i) ≠ none →
        getUtterance (applyRemovals W s2.file (findLisRemovals order entries3)) i = getUtterance file i := by
  have hlive : ∀ l ∈ findLisRemovals order entries3, ∃ e, EntryAt authority (utteranceOrdinal file) s2.file e ∧
      e.lineIdx = l ∧ e.mutability = .revisable := by
    intro l hl
    obtain ⟨e, he, hel, hrevisable⟩ := mem_findLisRemovals hl
    exact ⟨e, h.collected3.live e he, hel, hrevisable⟩
  refine ⟨?_, ?_⟩
  · have h1 := gapFilled_spared h.given
    have h2 := averages_spared (streamWindows_ok h.filled) h.streams
    have h3 := averages_spared (adjacentWindows_ok h.collected2 policy) h.adjacent
    apply ((h1.trans h2).trans h3).trans
    apply removals_spared
    intro l hl
    obtain ⟨e, he, rfl, -⟩ := hlive l hl
    rw [he.bullet]
    rfl
  · intro i hi
    rw [removals_other, h.kept i hi]
    intro hmem
    obtain ⟨e, he, rfl, hrevisable⟩ := hlive i hmem
    have hstanding := he.mutability
    rw [hrevisable] at hstanding
    exact hi (MainBulletAuthority.standing_revisable hstanding.symm)

end Repair

end Batchalign.Fa
