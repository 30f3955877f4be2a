import Batchalign.Fa.Imposed
import Batchalign.FaTiming.SuppliedRetry

/- What a retry session may write. Each missing word gets the instants its retained neighbours leave it
   (`slotScan_scanned`), and what the second walk writes starts no earlier than what it wrote before
   (`fillWords_filling`). -/
namespace Batchalign.FaTiming
open Fa List

/-! ## The first walk -/

def nextRetained (ws : List Word) (j : ℕ) : Option TimeSpan := (ws.drop (j + 1)).findSome? retainedSpan

variable {span : TimeSpan}

theorem retainedSpan_eq_some {w : Word} (h : retainedSpan w = some span) :
    w.inlineBullet = some span ∧ span.startMs < span.endMs := by
  obtain ⟨hbullet, hpos⟩ := Option.filter_eq_some_iff.mp h
  exact ⟨hbullet, of_decide_eq_true hpos⟩

structure SlotOf (window : RequestWindow) (ws : List Word) (slot : MissingSlot) : Prop where
  missing : ∃ w, ws[slot.ordinal]? = some w ∧ retainedSpan w = none
  start : window.startMs ≤ slot.lowerMs
  lower : ∀ j w span, j < slot.ordinal → ws[j]? = some w → retainedSpan w = some span → span.endMs ≤ slot.lowerMs
  upper : slot.upperMs = ((nextRetained ws slot.ordinal).map TimeSpan.startMs).getD window.endMs

structure Scanned (window : RequestWindow) (ws : List Word) (s : SlotScan) : Prop where
  ordinal : s.ordinal = ws.length
  base : window.startMs ≤ s.precedingEnd
  preceding : ∀ w ∈ ws, ∀ span, retainedSpan w = some span → span.endMs ≤ s.precedingEnd
  ascending : s.slots.Pairwise fun a b => a.ordinal < b.ordinal
  slots : ∀ slot ∈ s.slots, SlotOf window ws slot
  -- the open slots are those without a retained word after them
  opened : s.openStart ≤ s.slots.length
  closed : ∀ slot ∈ s.slots.take s.openStart, (nextRetained ws slot.ordinal).isSome
  pending : ∀ slot ∈ s.slots.drop s.openStart, nextRetained ws slot.ordinal = none

section Scan
variable {D : WorDomain} {window : RequestWindow} {ws : List Word} {s : SlotScan} {w : Word} {slot : MissingSlot}

theorem SlotOf.lt (h : SlotOf window ws slot) : slot.ordinal < ws.length := by
  obtain ⟨w, hw, _⟩ := h.missing
  exact (List.getElem?_eq_some_iff.mp hw).1

theorem nextRetained_concat (w : Word) {j : ℕ} (hj : j < ws.length) :
    nextRetained (ws ++ [w]) j = (nextRetained ws j).or (retainedSpan w) := by
  unfold nextRetained
  rw [drop_append_of_le_length hj, findSome?_append]
  rw [findSome?_cons, findSome?_nil]
  cases retainedSpan w <;> rfl

theorem SlotOf.concat (h : SlotOf window ws slot) {upperMs : ℕ}
    (hupper : upperMs = ((nextRetained (ws ++ [w]) slot.ordinal).map TimeSpan.startMs).getD window.endMs) :
    SlotOf window (ws ++ [w]) { slot with upperMs := upperMs } where
  missing := by
    obtain ⟨v, hv, hmissing⟩ := h.missing
    exact ⟨v, by rw [getElem?_append_left h.lt]; exact hv, hmissing⟩
  start := h.start
  lower := by
    intro j v span hj hv hspan
    rw [getElem?_append_left (lt_trans hj h.lt)] at hv
    exact h.lower j v span hj hv hspan
  upper := hupper

theorem Scanned.word (h : Scanned window ws s) (w : Word) :
    Scanned window (ws ++ [w]) (SlotScan.word D window.endMs s w) := by
  unfold SlotScan.word
  cases hw : retainedSpan w with
  | some span =>
    -- a retained word closes the open slots
    have htake : (s.slots.take s.openStart).length = s.openStart := by
      rw [length_take, Nat.min_eq_left h.opened]
    have hmem : ∀ slot ∈ s.slots, slot.ordinal < ws.length := fun slot hslot => (h.slots slot hslot).lt
    have hclosed : ∀ slot ∈ s.slots.take s.openStart ++
        (s.slots.drop s.openStart).map (fun slot => { slot with upperMs := span.startMs }),
        SlotOf window (ws ++ [w]) slot ∧ (nextRetained (ws ++ [w]) slot.ordinal).isSome := by
      intro slot hslot
      rcases mem_append.mp hslot with hslot | hslot
      · have hin := mem_of_mem_take hslot
        have hnext := h.closed slot hslot
        have hsame : nextRetained (ws ++ [w]) slot.ordinal = nextRetained ws slot.ordinal := by
          rw [nextRetained_concat w (hmem slot hin)]
          exact Option.or_of_isSome hnext
        refine ⟨(h.slots slot hin).concat ?_, by rw [hsame]; exact hnext⟩
        rw [hsame]
        exact (h.slots slot hin).upper
      · obtain ⟨old, hold, rfl⟩ := mem_map.mp hslot
        have hin := mem_of_mem_drop hold
        have hnext : nextRetained (ws ++ [w]) old.ordinal = some span := by
          rw [nextRetained_concat w (hmem old hin), h.pending old hold, Option.none_or, hw]
        refine ⟨(h.slots old hin).concat (by rw [hnext]; rfl), ?_⟩
        show (nextRetained (ws ++ [w]) old.ordinal).isSome
        rw [hnext]
        rfl
    refine ⟨?_, h.base.trans (le_max_left _ _), ?_, ?_, fun slot hslot => (hclosed slot hslot).1, ?_, ?_, ?_⟩
    · rw [length_append, length_singleton, ← h.ordinal]
    · intro v hv span' hspan'
      rcases mem_append.mp hv with hv | hv
      · exact (h.preceding v hv span' hspan').trans (le_max_left _ _)
      · rw [mem_singleton.mp hv, hw] at hspan'
        rw [← Option.some.inj hspan']
        exact le_max_right _ _
    · have hordinals := pairwise_map.mpr h.ascending
      apply pairwise_map.mp
      rw [map_append, map_map, show (MissingSlot.ordinal ∘ fun slot : MissingSlot =>
        { slot with upperMs := span.startMs }) = MissingSlot.ordinal from rfl, ← map_append,
        take_append_drop]
      exact hordinals
    · show s.slots.length ≤ _
      have hopened := h.opened
      rw [length_append, length_map, htake, length_drop]
      omega
    · intro slot hslot
      exact (hclosed slot (mem_of_mem_take hslot)).2
    · intro slot hslot
      have hnil : (s.slots.take s.openStart ++
          (s.slots.drop s.openStart).map fun slot : MissingSlot => { slot with upperMs := span.startMs }).drop
            s.slots.length = [] := by
        have hopened := h.opened
        apply drop_of_length_le
        rw [length_append, length_map, htake, length_drop]
        omega
      rw [hnil] at hslot
      cases hslot
  | none =>
    have hsame : ∀ slot ∈ s.slots, nextRetained (ws ++ [w]) slot.ordinal = nextRetained ws slot.ordinal := by
      intro slot hslot
      rw [nextRetained_concat w (h.slots slot hslot).lt, hw, Option.or_none]
    have hold : ∀ slot ∈ s.slots, SlotOf window (ws ++ [w]) slot := by
      intro slot hslot
      apply (h.slots slot hslot).concat
      rw [hsame slot hslot]
      exact (h.slots slot hslot).upper
    have hpreceding : ∀ v ∈ ws ++ [w], ∀ span, retainedSpan v = some span → span.endMs ≤ s.precedingEnd := by
      intro v hv span hspan
      rcases mem_append.mp hv with hv | hv
      · exact h.preceding v hv span hspan
      · rw [mem_singleton.mp hv, hw] at hspan
        cases hspan
    have hnone : nextRetained (ws ++ [w]) ws.length = none := by
      unfold nextRetained
      rw [drop_of_length_le (by rw [length_append, length_singleton])]
      rfl
    have hnew : SlotOf window (ws ++ [w]) ⟨s.ordinal, s.precedingEnd, window.endMs⟩ := by
      refine ⟨⟨w, ?_, hw⟩, h.base, ?_, ?_⟩
      · show (ws ++ [w])[s.ordinal]? = some w
        rw [h.ordinal]
        exact getElem?_concat_length
      · intro j v span hj hv hspan
        have hj : j < ws.length := h.ordinal ▸ hj
        rw [getElem?_append_left hj] at hv
        exact h.preceding v (mem_of_getElem? hv) span hspan
      · show window.endMs = ((nextRetained (ws ++ [w]) s.ordinal).map TimeSpan.startMs).getD window.endMs
        rw [h.ordinal, hnone]
        rfl
    dsimp only
    split_ifs with hcounts
    · refine ⟨?_, h.base, hpreceding, ?_, ?_, ?_, ?_, ?_⟩
      · rw [length_append, length_singleton, ← h.ordinal]
      · apply pairwise_append.mpr
        refine ⟨h.ascending, pairwise_singleton _ _, ?_⟩
        intro slot hslot slot' hslot'
        rw [mem_singleton.mp hslot']
        show slot.ordinal < s.ordinal
        rw [h.ordinal]
        exact (h.slots slot hslot).lt
      · intro slot hslot
        rcases mem_append.mp hslot with hslot | hslot
        · exact hold slot hslot
        · rw [mem_singleton.mp hslot]
          exact hnew
      · rw [length_append]
        exact h.opened.trans (Nat.le_add_right _ _)
      · intro slot hslot
        rw [take_append_of_le_length h.opened] at hslot
        rw [hsame slot (mem_of_mem_take hslot)]
        exact h.closed slot hslot
      · intro slot hslot
        rw [drop_append_of_le_length h.opened] at hslot
        rcases mem_append.mp hslot with hslot | hslot
        · rw [hsame slot (mem_of_mem_drop hslot)]
          exact h.pending slot hslot
        · rw [mem_singleton.mp hslot]
          show nextRetained (ws ++ [w]) s.ordinal = none
          rw [h.ordinal]
          exact hnone
    · refine ⟨?_, h.base, hpreceding, h.ascending, hold, h.opened, ?_, ?_⟩
      · rw [length_append, length_singleton, ← h.ordinal]
      · intro slot hslot
        rw [hsame slot (mem_of_mem_take hslot)]
        exact h.closed slot hslot
      · intro slot hslot
        rw [hsame slot (mem_of_mem_drop hslot)]
        exact h.pending slot hslot

theorem slotScan_scanned (D : WorDomain) (window : RequestWindow) (ws : List Word) :
    Scanned window ws (slotScan D window ws) := by
  have hrun : ∀ (more done : List Word) (s : SlotScan), Scanned window done s →
      Scanned window (done ++ more) (more.foldl (SlotScan.word D window.endMs) s) := by
    intro more
    induction more with
    | nil =>
      intro done s h
      rwa [append_nil]
    | cons w more ih =>
      intro done s h
      rw [foldl_cons, append_cons]
      exact ih _ _ (h.word w)
  have hstart : Scanned window [] ⟨[], window.startMs, 0, 0⟩ := by
    refine ⟨rfl, le_rfl, ?_, Pairwise.nil, ?_, le_rfl, ?_, ?_⟩ <;>
      exact fun _ h => absurd h not_mem_nil
  exact hrun ws [] _ hstart

end Scan

/-! ## The second walk -/

def Upcoming (ordinal : ℕ) (slots : List MissingSlot) : Prop :=
  (slots.Pairwise fun a b => a.ordinal < b.ordinal) ∧ ∀ slot ∈ slots, ordinal ≤ slot.ordinal

/-- What may be written at the `j`-th word, among the words of a rewritten tier. -/
structure Placed (window : RequestWindow) (ws ws' : List Word) (j : ℕ) (span : TimeSpan) : Prop where
  extent : span.startMs < span.endMs
  start : window.startMs ≤ span.startMs
  earlier : ∀ (i : ℕ) (v : Word) (before : TimeSpan), i < j → ws'[i]? = some v → retainedSpan v = some before → before.endMs ≤ span.startMs
  upper : span.endMs ≤ ((nextRetained ws j).map TimeSpan.startMs).getD window.endMs

def Kept (window : RequestWindow) (ws ws' : List Word) (j : ℕ) (w w' : Word) : Prop :=
  w' = w ∨ ∃ span, retainedSpan w = none ∧ w' = { w with inlineBullet := some span } ∧ Placed window ws ws' j span

section Fill
variable {D : WorDomain} {debug : WordTiming → String} {window : RequestWindow} {ws done done' : List Word}
  {s : FillState} {w : Word} {target : MissingUtterance}

theorem Upcoming.next {ordinal : ℕ} {slot : MissingSlot} {slots : List MissingSlot} (h : Upcoming ordinal (slot :: slots)) :
    Upcoming (ordinal + 1) slots := by
  obtain ⟨hasc, hge⟩ := h
  obtain ⟨hhead, htail⟩ := pairwise_cons.mp hasc
  refine ⟨htail, ?_⟩
  intro later hlater
  have hfirst := hge slot mem_cons_self
  have hlt := hhead later hlater
  omega

theorem Upcoming.skip {ordinal : ℕ} {slots : List MissingSlot} (h : Upcoming ordinal slots)
    (hne : ∀ slot ∈ slots.head?, slot.ordinal ≠ ordinal) : Upcoming (ordinal + 1) slots := by
  cases slots with
  | nil => exact ⟨Pairwise.nil, fun _ h => absurd h not_mem_nil⟩
  | cons slot slots =>
    have hfirst := h.2 slot mem_cons_self
    have hlt := hne slot rfl
    refine ⟨h.1, ?_⟩
    intro later hlater
    rcases mem_cons.mp hlater with rfl | hlater
    · omega
    · exact h.next.2 later hlater

variable (D debug) in
theorem FillState.word_cases (hslots : Upcoming s.ordinal s.slots) (w : Word) :
    let next := FillState.word D debug s w
    next.1.ordinal = s.ordinal + 1 ∧ Upcoming next.1.ordinal next.1.slots ∧ (∀ slot ∈ next.1.slots, slot ∈ s.slots) ∧
      ((next.2 = w ∧ next.1.lastFilledEnd = s.lastFilledEnd ∧ next.1.filled = s.filled) ∨
        ∃ slot ∈ s.slots, ∃ timing : WordTiming, slot.ordinal = s.ordinal ∧
          max slot.lowerMs s.lastFilledEnd ≤ timing.startMs ∧ timing.endMs ≤ slot.upperMs ∧
          next.2 = { w with inlineBullet := some timing.bullet } ∧ next.1.lastFilledEnd = timing.endMs ∧
          next.1.filled ≠ []) := by
  intro next
  cases hlist : s.slots with
  | nil =>
    have hnext : next = ({ s with cursor := (projectTimingForWord D w s.cursor).2, ordinal := s.ordinal + 1 }, w) := by
      show FillState.word D debug s w = _
      unfold FillState.word
      rw [hlist]
    rw [hnext]
    refine ⟨rfl, hslots.skip ?_, fun slot h => hlist ▸ h, .inl ⟨rfl, rfl, rfl⟩⟩
    rw [hlist]
    exact fun slot h => absurd h (by simp)
  | cons slot slots =>
    rw [hlist] at hslots
    by_cases hmine : slot.ordinal = s.ordinal
    · have hused : ∀ later ∈ slots, later ∈ slot :: slots := fun later h => mem_cons_of_mem _ h
      cases hprojected : (projectTimingForWord D w s.cursor).1 with
      | none =>
        have hnext : next = ({ s with
            cursor := (projectTimingForWord D w s.cursor).2, ordinal := s.ordinal + 1, slots := slots }, w) := by
          show FillState.word D debug s w = _
          unfold FillState.word
          simp only [hlist, if_pos hmine, hprojected]
        rw [hnext]
        exact ⟨rfl, hslots.next, hused, .inl ⟨rfl, rfl, rfl⟩⟩
      | some timing =>
        by_cases hfits : max slot.lowerMs s.lastFilledEnd ≤ timing.startMs ∧ timing.endMs ≤ slot.upperMs
        · have hnext : next = ({ s with
              cursor := (projectTimingForWord D w s.cursor).2
              ordinal := s.ordinal + 1
              slots := slots
              lastFilledEnd := timing.endMs
              filled := s.filled ++ ["word " ++ toString s.ordinal ++ ": " ++ debug timing] },
              { w with inlineBullet := some timing.bullet }) := by
            show FillState.word D debug s w = _
            unfold FillState.word
            simp only [hlist, if_pos hmine, hprojected, if_pos hfits]
          rw [hnext]
          refine ⟨rfl, hslots.next, hused, .inr ⟨slot, mem_cons_self, timing, hmine, hfits.1, hfits.2, rfl, rfl, ?_⟩⟩
          exact append_ne_nil_of_right_ne_nil _ (cons_ne_nil _ _)
        · have hnext : next = ({ s with
              cursor := (projectTimingForWord D w s.cursor).2, ordinal := s.ordinal + 1, slots := slots }, w) := by
            show FillState.word D debug s w = _
            unfold FillState.word
            simp only [hlist, if_pos hmine, hprojected, if_neg hfits]
          rw [hnext]
          exact ⟨rfl, hslots.next, hused, .inl ⟨rfl, rfl, rfl⟩⟩
    · have hnext : next = ({ s with cursor := (projectTimingForWord D w s.cursor).2, ordinal := s.ordinal + 1 }, w) := by
        show FillState.word D debug s w = _
        unfold FillState.word
        simp only [hlist, if_neg hmine]
      rw [hnext]
      refine ⟨rfl, ?_, fun later h => hlist ▸ h, .inl ⟨rfl, rfl, rfl⟩⟩
      show Upcoming (s.ordinal + 1) s.slots
      rw [hlist]
      apply hslots.skip
      intro first hfirst
      rw [← Option.some.inj hfirst]
      exact hmine

/-- The second walk after the words `done`, which became `done'`. -/
structure Filling (window : RequestWindow) (ws done done' : List Word) (s : FillState) : Prop where
  ordinal : s.ordinal = done.length
  length : done'.length = done.length
  upcoming : Upcoming s.ordinal s.slots
  slots : ∀ slot ∈ s.slots, SlotOf window ws slot
  base : window.startMs ≤ s.lastFilledEnd
  words : ∀ (j : ℕ) (w w' : Word), done[j]? = some w → done'[j]? = some w' → Kept window ws done' j w w'
  written : ∀ (j : ℕ) (w w' : Word) (span : TimeSpan), done[j]? = some w → done'[j]? = some w' → w' ≠ w → retainedSpan w' = some span →
    span.endMs ≤ s.lastFilledEnd
  filled : s.filled = [] ↔ done' = done

theorem Placed.append {j : ℕ} (h : Placed window ws done' j span) (hj : j < done'.length) (more : List Word) :
    Placed window ws (done' ++ more) j span where
  extent := h.extent
  start := h.start
  upper := h.upper
  earlier := by
    intro i v before hi hv hbefore
    rw [getElem?_append_left (lt_trans hi hj)] at hv
    exact h.earlier i v before hi hv hbefore

theorem Kept.append {j : ℕ} {w' : Word} (h : Kept window ws done' j w w') (hj : j < done'.length) (more : List Word) :
    Kept window ws (done' ++ more) j w w' := by
  rcases h with hsame | ⟨span, hmissing, hw', hplaced⟩
  · exact .inl hsame
  · exact .inr ⟨span, hmissing, hw', hplaced.append hj more⟩

theorem retainedSpan_write (w : Word) (h : span.startMs < span.endMs) :
    retainedSpan { w with inlineBullet := some span } = some span :=
  Option.filter_eq_some_iff.mpr ⟨rfl, decide_eq_true h⟩

theorem getElem?_concat_cases {j : ℕ} {w w' v v' : Word} (hlen : done'.length = done.length)
    (hv : (done ++ [w])[j]? = some v) (hv' : (done' ++ [w'])[j]? = some v') :
    (j < done'.length ∧ done[j]? = some v ∧ done'[j]? = some v') ∨ (j = done.length ∧ v = w ∧ v' = w') := by
  have hj := (List.getElem?_eq_some_iff.mp hv).1
  rw [length_append, length_singleton] at hj
  by_cases hlast : j = done.length
  · right
    refine ⟨hlast, ?_, ?_⟩
    · rw [hlast, getElem?_concat_length] at hv
      exact (Option.some.inj hv).symm
    · rw [hlast, ← hlen, getElem?_concat_length] at hv'
      exact (Option.some.inj hv').symm
  · left
    have hlt : j < done.length := by omega
    rw [getElem?_append_left hlt] at hv
    rw [getElem?_append_left (hlen ▸ hlt)] at hv'
    exact ⟨hlen ▸ hlt, hv, hv'⟩

variable (D debug) in
theorem Filling.word (h : Filling window ws done done' s) (hw : ws[done.length]? = some w) (hbefore : done <+: ws) :
    Filling window ws (done ++ [w]) (done' ++ [(FillState.word D debug s w).2]) (FillState.word D debug s w).1 := by
  obtain ⟨hordinal, hupcoming, hsub, hcases⟩ := FillState.word_cases D debug h.upcoming w
  generalize FillState.word D debug s w = next at hordinal hupcoming hsub hcases ⊢
  have hold : ∀ j v v', j < done'.length → done[j]? = some v → done'[j]? = some v' →
      Kept window ws (done' ++ [next.2]) j v v' := fun j v v' hj hv hv' => (h.words j v v' hv hv').append hj _
  have hlengths : (done' ++ [next.2]).length = (done ++ [w]).length := by
    rw [length_append, length_append, h.length]
    rfl
  have hordinal' : next.1.ordinal = (done ++ [w]).length := by
    rw [hordinal, h.ordinal, length_append, length_singleton]
  rcases hcases with ⟨hsame, hlast, hfilled⟩ | ⟨slot, hslot, timing, hmine, hlower, hupper, hnew, hlast, hfilled⟩
  · refine ⟨hordinal', hlengths, hupcoming, fun slot hslot => h.slots slot (hsub slot hslot), ?_, ?_, ?_, ?_⟩
    · rw [hlast]
      exact h.base
    · intro j v v' hv hv'
      rcases getElem?_concat_cases h.length hv hv' with ⟨hj, hv, hv'⟩ | ⟨_, rfl, rfl⟩
      · exact hold j v v' hj hv hv'
      · exact .inl hsame
    · intro j v v' span hv hv' hne hspan
      rw [hlast]
      rcases getElem?_concat_cases h.length hv hv' with ⟨_, hv, hv'⟩ | ⟨_, rfl, rfl⟩
      · exact h.written j v v' span hv hv' hne hspan
      · exact absurd hsame hne
    · rw [hfilled, h.filled, hsame]
      exact (append_left_inj [w]).symm
  · have hspan : retainedSpan { w with inlineBullet := some timing.bullet } = some timing.bullet :=
      retainedSpan_write w (show timing.bullet.startMs < timing.bullet.endMs from timing.extent)
    have hown := h.slots slot hslot
    have hat : slot.ordinal = done.length := hmine.trans h.ordinal
    obtain ⟨hslotLower, hfilledLower⟩ := max_le_iff.mp hlower
    have hmissing : retainedSpan w = none := by
      obtain ⟨v, hv, hmissing⟩ := hown.missing
      rw [hat, hw] at hv
      exact Option.some.inj hv ▸ hmissing
    have hne : next.2 ≠ w := by
      intro hsame
      rw [← hsame, hnew, hspan] at hmissing
      cases hmissing
    have hplaced : Placed window ws (done' ++ [next.2]) done.length timing.bullet := by
      refine ⟨timing.extent, hown.start.trans hslotLower, ?_, ?_⟩
      · intro i v before hi hv hearlier
        have hi' : i < done'.length := h.length ▸ hi
        rw [getElem?_append_left hi'] at hv
        have hthere := getElem?_eq_getElem hi
        -- what stands before was retained, and bounds the slot, or was written by this walk
        by_cases hunchanged : v = done[i]
        · have hretained : ws[i]? = some v := by
            rw [hunchanged, ← hthere]
            obtain ⟨more, rfl⟩ := hbefore
            exact getElem?_append_left hi
          exact (hown.lower i v before (hat ▸ hi) hretained hearlier).trans hslotLower
        · exact (h.written i _ v before hthere hv hunchanged hearlier).trans hfilledLower
      · rw [← hat, ← hown.upper]
        exact hupper
    refine ⟨hordinal', hlengths, hupcoming, fun slot hslot => h.slots slot (hsub slot hslot), ?_, ?_, ?_, ?_⟩
    · rw [hlast]
      exact h.base.trans (hfilledLower.trans timing.extent.le)
    · intro j v v' hv hv'
      rcases getElem?_concat_cases h.length hv hv' with ⟨hj, hv, hv'⟩ | ⟨rfl, rfl, rfl⟩
      · exact hold j v v' hj hv hv'
      · exact .inr ⟨timing.bullet, hmissing, hnew, hplaced⟩
    · intro j v v' span hv hv' hchanged hwritten
      rw [hlast]
      rcases getElem?_concat_cases h.length hv hv' with ⟨_, hv, hv'⟩ | ⟨_, rfl, rfl⟩
      · exact (h.written j v v' span hv hv' hchanged hwritten).trans (hfilledLower.trans timing.extent.le)
      · rw [hnew] at hwritten
        rw [← Option.some.inj (hspan.symm.trans hwritten)]
        exact le_rfl
    · apply iff_of_false hfilled
      intro hall
      have hlasts := congrArg List.getLast? hall
      rw [getLast?_concat, getLast?_concat] at hlasts
      exact hne (Option.some.inj hlasts)

theorem fillWords_filling (debug : WordTiming → String) (hslots : target.slots = (slotScan D target.source.window ws).slots)
    (timings : List (Option WordTiming)) :
    let walked := rewriteWords (FillState.word D debug) ⟨target.slots, ⟨timings, 0⟩, 0, target.source.window.startMs, []⟩ ws
    Filling target.source.window ws ws walked.2 walked.1 := by
  have hrun : ∀ (more done done' : List Word) (s : FillState), done ++ more = ws →
      Filling target.source.window ws done done' s →
      Filling target.source.window ws (done ++ more) (done' ++ (rewriteWords (FillState.word D debug) s more).2)
        (rewriteWords (FillState.word D debug) s more).1 := by
    intro more
    induction more with
    | nil =>
      intro done done' s _ h
      rw [append_nil]
      show Filling _ ws done (done' ++ []) s
      rwa [append_nil]
    | cons w more ih =>
      intro done done' s hall h
      have hw : ws[done.length]? = some w := by
        rw [← hall, getElem?_append_right le_rfl, Nat.sub_self]
        rfl
      have hnext := h.word D debug hw ⟨w :: more, hall⟩
      rw [append_cons]
      show Filling _ ws _ (done' ++ ((FillState.word D debug s w).2 ::
        (rewriteWords (FillState.word D debug) (FillState.word D debug s w).1 more).2)) _
      rw [append_cons done']
      exact ih _ _ _ ((append_cons done w more).symm.trans hall) hnext
  have hscanned := slotScan_scanned D target.source.window ws
  apply hrun ws [] [] _ rfl
  refine ⟨rfl, rfl, ⟨?_, fun _ _ => Nat.zero_le _⟩, ?_, le_rfl, ?_, ?_, iff_of_true rfl rfl⟩
  · rw [hslots]
    exact hscanned.ascending
  · intro slot hslot
    exact hscanned.slots slot (hslots ▸ hslot)
  · intro j w w' hw
    cases hw
  · intro j w w' span hw
    cases hw

end Fill

end Batchalign.FaTiming
