import Mathlib.Data.List.GetD
import Mathlib.Data.List.TakeWhile
import Batchalign.Fa.Finalized
import Batchalign.Fa.Settled

/- Files that are already in order. On a tidy file every phase after the gap fills is idle. The fills
   look at the speaker's own previous end alone, while the order of starts is over all speakers
   (`filledBehindFile`). -/
namespace Batchalign.Fa
open List

structure Tidy (policy : EndOverlapPolicy) (file : ChatFile) : Prop where
  extent : ∀ i b, bulletAt file i = some b → b.startMs < b.endMs
  ordered : ∀ i j b c, i < j → bulletAt file i = some b → bulletAt file j = some c →
    b.startMs ≤ c.startMs
  apart : ∀ i j u v b c, i < j → getUtterance file i = some u → getUtterance file j = some v →
    u.parsedBullet = some b → v.parsedBullet = some c →
    policy.shouldClamp u.speaker v.speaker = true → b.endMs ≤ c.startMs

theorem shouldClamp_self (policy : EndOverlapPolicy) (speaker : String) :
    policy.shouldClamp speaker speaker = true := by
  cases policy with
  | clampAllAdjacent => rfl
  | preserveCrossSpeaker => exact beq_self_eq_true speaker

/-! ## The longest increasing run of starts in order -/

theorem patience_sorted {values : List ℕ} (h : values.Pairwise (· ≤ ·)) :
    ∀ n, n ≤ values.length → (range n).foldl (patienceStep values) ⟨[], []⟩ =
      ⟨range n, (range n).map fun k => if 0 < k then some (k - 1) else none⟩ := by
  intro n
  induction n with
  | zero =>
    intro _
    rfl
  | succ n ih =>
    intro hn
    have hall : ∀ t ∈ range n, decide (values.getD t 0 ≤ values.getD n 0) = true := by
      intro t ht
      have htn : t < n := mem_range.mp ht
      rw [decide_eq_true_iff, getD_eq_getElem _ _ (by omega), getD_eq_getElem _ _ (by omega)]
      exact pairwise_iff_getElem.mp h t n (by omega) (by omega) htn
    have hpile : pileOf values (range n) (values.getD n 0) = n := by
      rw [pileOf, takeWhile_eq_self_iff.mpr hall, length_range]
    rw [range_succ, foldl_append, ih (by omega), foldl_cons, foldl_nil, patienceStep]
    simp only [hpile, length_range, if_true, map_append, map_singleton]
    by_cases hpos : 0 < n
    · rw [if_pos hpos, if_pos hpos, getElem?_append_left (by simp; omega),
        getElem?_range (by omega)]
    · rw [if_neg hpos, if_neg hpos]

theorem predecessors_sorted {n : ℕ} : ∀ fuel idx, idx < n → idx ≤ fuel →
      predecessors ((range n).map fun k => if 0 < k then some (k - 1) else none) fuel idx =
        range (idx + 1) := by
  intro fuel
  induction fuel with
  | zero =>
    intro idx hn hf
    obtain rfl : idx = 0 := by omega
    rfl
  | succ fuel ih =>
    intro idx hn hf
    have hget : ((range n).map fun k => if 0 < k then some (k - 1) else none).getD idx none =
        if 0 < idx then some (idx - 1) else none := by
      rw [getD_eq_getElem _ _ (by simpa using hn)]
      simp
    rw [predecessors, hget]
    by_cases hpos : 0 < idx
    · rw [if_pos hpos]
      simp only
      rw [ih (idx - 1) (by omega) (by omega), Nat.sub_add_cancel hpos, ← range_succ]
    · obtain rfl : idx = 0 := by omega
      rfl

theorem longestIncreasingSubsequence_sorted {values : List ℕ} (h : values.Pairwise (· ≤ ·)) :
    longestIncreasingSubsequence values = range values.length := by
  rw [longestIncreasingSubsequence, patience_sorted h values.length (le_refl _)]
  cases hn : values.length with
  | zero => rfl
  | succ n =>
    simp only [getLast?_range, if_neg (Nat.succ_ne_zero n)]
    exact predecessors_sorted (n + 1) n (by omega) (by omega)

theorem removeOutsideLis_sorted {segment : List BulletEntry} {lower upper : Option ℕ}
    (hsorted : (segment.map BulletEntry.startMs).Pairwise (· ≤ ·))
    (hlower : ∀ l, lower = some l → ∀ e ∈ segment, l ≤ e.startMs)
    (hupper : ∀ l, upper = some l → ∀ e ∈ segment, e.startMs ≤ l) :
    removeOutsideLis segment lower upper = [] := by
  have hin : ∀ e ∈ segment, withinAnchors lower upper e.startMs = true := by
    intro e he
    rw [withinAnchors, Bool.and_eq_true]
    refine ⟨?_, ?_⟩
    · cases lower with
      | none => rfl
      | some l => exact decide_eq_true (hlower l rfl e he)
    · cases upper with
      | none => rfl
      | some l => exact decide_eq_true (hupper l rfl e he)
  have hinside : segment.filter (fun entry => withinAnchors lower upper entry.startMs) = segment :=
    filter_eq_self.mpr hin
  have houtside : segment.filter (fun entry => !withinAnchors lower upper entry.startMs) = [] := by
    rw [filter_eq_nil_iff]
    intro e he
    simp [hin e he]
  simp only [removeOutsideLis, hinside, houtside, map_nil, nil_append]
  split_ifs with hlen
  · rfl
  · rw [longestIncreasingSubsequence_sorted hsorted, map_eq_nil_iff, filter_eq_nil_iff]
    intro x hx
    have hpos := snd_lt_of_mem_zipIdx hx
    simpa using hpos

theorem speakerRemovals_sorted {rest : List BulletEntry} :
    ∀ {lower : Option ℕ} {segment : List BulletEntry},
      ((segment ++ rest).map BulletEntry.startMs).Pairwise (· ≤ ·) →
      (∀ l, lower = some l → ∀ e ∈ segment ++ rest, l ≤ e.startMs) →
      speakerRemovals lower segment rest = [] := by
  induction rest with
  | nil =>
    intro lower segment hsorted hlower
    rw [append_nil] at hsorted hlower
    exact removeOutsideLis_sorted hsorted hlower (by simp)
  | cons entry rest ih =>
    intro lower segment hsorted hlower
    rw [speakerRemovals]
    cases hm : entry.mutability with
    | revisable =>
      apply ih
      · simpa using hsorted
      · simpa using hlower
    | readOnly kept =>
      -- a kept line closes the segment and is the lower anchor of the next one
      rw [map_append, map_cons, pairwise_append, pairwise_cons] at hsorted
      obtain ⟨hseg, ⟨hentry, hrest⟩, hcross⟩ := hsorted
      have hfirst : removeOutsideLis segment lower (some entry.startMs) = [] := by
        apply removeOutsideLis_sorted hseg
        · intro l hl e he
          exact hlower l hl e (mem_append_left _ he)
        · intro l hl e he
          obtain rfl := Option.some.inj hl
          exact hcross _ (mem_map_of_mem he) _ (by simp)
      have hnext : speakerRemovals (some entry.startMs) [] rest = [] := by
        apply ih
        · simpa using hrest
        · intro l hl e he
          obtain rfl := Option.some.inj hl
          exact hentry _ (mem_map_of_mem (by simpa using he))
      simp [hfirst, hnext]

section Entries
variable {authority : MainBulletAuthority} {ord : ℕ → ℕ} {policy : EndOverlapPolicy} {file : ChatFile}
  {entries : List BulletEntry}

theorem Collected.starts_sorted (h : Collected authority ord file entries) (ht : Tidy policy file) :
    (entries.map BulletEntry.startMs).Pairwise (· ≤ ·) := by
  rw [pairwise_map]
  apply h.sorted.imp_of_mem
  intro a b ha hb hlt
  exact ht.ordered a.lineIdx b.lineIdx _ _ hlt (h.live a ha).bullet (h.live b hb).bullet

theorem findLisRemovals_tidy (order : HashOrder) (h : Collected authority ord file entries)
    (ht : Tidy policy file) : findLisRemovals order entries = [] := by
  rw [findLisRemovals, flatMap_eq_nil_iff]
  intro speaker _
  apply speakerRemovals_sorted
  · exact (h.starts_sorted ht).sublist (filter_sublist.map BulletEntry.startMs)
  · simp

variable {W : ContentWalker}

theorem averageResolution_tidy (ht : Tidy policy file) {a b : BulletEntry}
    (ha : EntryAt authority ord file a) (hb : EntryAt authority ord file b) (hlt : a.lineIdx < b.lineIdx)
    (hclamp : policy.shouldClamp a.speaker b.speaker = true) : averageResolution W file a b = none := by
  obtain ⟨u, hu, hau, hub⟩ := ha.speaker
  obtain ⟨v, hv, hbv, hvb⟩ := hb.speaker
  rw [hau, hbv] at hclamp
  have hapart := ht.apart _ _ _ _ _ _ hlt hu hv hub hvb hclamp
  unfold averageResolution
  cases a.mutability with
  | readOnly kept => rfl
  | revisable =>
  cases b.mutability with
  | readOnly kept => rfl
  | revisable =>
    simp only [hu, hv, hub, hvb]
    rw [if_pos hapart]

theorem averages_idle {s : RepairState} {pairs : List (BulletEntry × BulletEntry)}
    (h : ∀ x ∈ pairs, averageResolution W s.file x.1 x.2 = none) :
    Sweep.run (averageAt W) s pairs = .ok s := by
  induction pairs with
  | nil => rfl
  | cons x pairs ih =>
    have hx : averageAt W s x = .ok s := by
      simp only [averageAt, resolveBoundaryAveragePair, h x (by simp)]
    rw [Sweep.run_cons_ok hx]
    exact ih (fun y hy => h y (mem_cons_of_mem x hy))

theorem windows_mem {α : Type} {r : α → α → Prop} {l : List α} (hl : l.Pairwise r) :
    ∀ x ∈ windows l, x.1 ∈ l ∧ x.2 ∈ l ∧ r x.1 x.2 := by
  induction l with
  | nil => simp [windows]
  | cons a l ih =>
    cases l with
    | nil => simp [windows]
    | cons b l =>
      intro x hx
      obtain ⟨ha, hrest⟩ := pairwise_cons.mp hl
      rcases mem_cons.mp hx with rfl | hx
      · exact ⟨by simp, by simp, ha b (by simp)⟩
      · obtain ⟨h1, h2, h3⟩ := ih hrest x hx
        exact ⟨mem_cons_of_mem a h1, mem_cons_of_mem a h2, h3⟩

theorem streamWindows_idle (h : Collected authority ord file entries) (ht : Tidy policy file) :
    ∀ x ∈ streamWindows entries, averageResolution W file x.1 x.2 = none := by
  intro x hx
  obtain ⟨speaker, _, hx⟩ := mem_flatMap.mp hx
  obtain ⟨h1, h2, hlt⟩ := windows_mem (h.sorted.sublist filter_sublist) x hx
  obtain ⟨h1, hs1⟩ := mem_filter.mp h1
  obtain ⟨h2, hs2⟩ := mem_filter.mp h2
  apply averageResolution_tidy ht (h.live _ h1) (h.live _ h2) hlt
  rw [beq_iff_eq.mp hs1, beq_iff_eq.mp hs2]
  exact shouldClamp_self policy speaker

theorem adjacentWindows_idle (h : Collected authority ord file entries) (ht : Tidy policy file) :
    ∀ x ∈ adjacentWindows policy entries, averageResolution W file x.1 x.2 = none := by
  intro x hx
  obtain ⟨hx, hclamp⟩ := mem_filter.mp hx
  obtain ⟨h1, h2, hlt⟩ := windows_mem h.sorted x hx
  exact averageResolution_tidy ht (h.live _ h1) (h.live _ h2) hlt hclamp

end Entries

/-! ## The gap fills -/

theorem gapFillsFrom_after {rest : List BulletEntry} :
    ∀ {before : List BulletEntry} {lastEnd : String → Option ℕ},
      (before ++ rest).Pairwise (fun a b => a.lineIdx < b.lineIdx ∧
        (a.speaker = b.speaker → a.endMs ≤ b.startMs)) → (∀ e ∈ rest, e.startMs < e.endMs) →
      (∀ d ∈ before, ∃ t, lastEnd d.speaker = some t ∧ d.endMs ≤ t) →
      ∀ fill ∈ gapFillsFrom lastEnd rest, ∃ e ∈ rest, e.lineIdx = fill.1 ∧
        ∀ d ∈ before ++ rest, d.lineIdx < fill.1 → d.speaker = e.speaker → d.endMs ≤ fill.2 := by
  induction rest with
  | nil =>
    intro before lastEnd _ _ _ fill hfill
    exact absurd hfill (by simp [gapFillsFrom])
  | cons e rest ih =>
    intro before lastEnd hsorted hextent hlast fill hfill
    obtain ⟨_, hrest, hcross⟩ := pairwise_append.mp hsorted
    obtain ⟨hhead, _⟩ := pairwise_cons.mp hrest
    rcases mem_append.mp hfill with hfill | hfill
    · obtain ⟨hline, _, hend, _⟩ := gapFill_some (Option.mem_toList.mp hfill)
      refine ⟨e, by simp, hline, ?_⟩
      intro d hd hlt hspeaker
      rcases mem_append.mp hd with hd | hd
      · obtain ⟨t, ht, hle⟩ := hlast d hd
        rw [hspeaker, hend, Option.some.injEq] at ht
        omega
      · rcases mem_cons.mp hd with rfl | hd
        · omega
        · have := (hhead d hd).1
          omega
    · -- the entry just passed is now where its speaker last ended
      have hassoc : before ++ e :: rest = (before ++ [e]) ++ rest := by simp
      rw [hassoc] at hsorted
      obtain ⟨e', he', hline, hafter⟩ := ih hsorted (fun x hx => hextent x (mem_cons_of_mem e hx))
        (by
          intro d hd
          by_cases hspeaker : d.speaker = e.speaker
          · refine ⟨e.endMs, by rw [hspeaker, Function.update_self], ?_⟩
            rcases mem_append.mp hd with hd | hd
            · have hle := (hcross d hd e (by simp)).2 hspeaker
              have hlt := hextent e (by simp)
              omega
            · rw [mem_singleton.mp hd]
          · rw [Function.update_of_ne hspeaker]
            rcases mem_append.mp hd with hd | hd
            · exact hlast d hd
            · rw [mem_singleton.mp hd] at hspeaker
              exact absurd rfl hspeaker) fill hfill
      rw [hassoc]
      exact ⟨e', mem_cons_of_mem e he', hline, hafter⟩

/-- No fill moves a start before a line above, nor, where all adjacent lines are clamped, before its end. -/
def FillsInOrder (authority : MainBulletAuthority) (policy : EndOverlapPolicy) (file : ChatFile) : Prop :=
  ∀ entries, collectBulletEntries authority file = .ok entries → ∀ fill ∈ findGapFills entries,
    ∀ i b, i < fill.1 → bulletAt file i = some b →
      b.startMs ≤ fill.2 ∧ (policy = .clampAllAdjacent → b.endMs ≤ fill.2)

section Filled
variable {authority : MainBulletAuthority} {ord : ℕ → ℕ} {policy : EndOverlapPolicy} {file : ChatFile}
  {entries : List BulletEntry}

theorem gapFilled_bullet (h : Collected authority ord file entries) {i : ℕ} {u' : Utterance}
    {b' : TimeSpan} (hu' : getUtterance (applyGapFills file (findGapFills entries)) i = some u')
    (hb' : u'.parsedBullet = some b') :
    ∃ u b, getUtterance file i = some u ∧ u.parsedBullet = some b ∧ u'.speaker = u.speaker ∧
      b'.endMs = b.endMs ∧ b'.startMs ≤ b.startMs ∧
      (b'.startMs = b.startMs ∨ (i, b'.startMs) ∈ findGapFills entries) := by
  rcases gapFilled_line h i with hsame | ⟨u, b, t, hu, hb, _, hlt, hlookup, hnew⟩
  · rw [hsame] at hu'
    exact ⟨u', b', hu', hb', rfl, rfl, le_refl _, .inl rfl⟩
  · rw [hnew, Option.some.injEq] at hu'
    subst hu'
    rw [parsedBullet_setStart, hb] at hb'
    cases hb'
    obtain ⟨l₁, l₂, heq, _⟩ := lookup_eq_some_iff.mp hlookup
    exact ⟨u, b, hu, hb, rfl, rfl, le_of_lt hlt, .inr (by rw [heq]; simp)⟩

theorem findGapFills_after (h : Collected authority ord file entries) (ht : Tidy policy file)
    {i j t : ℕ} {u v : Utterance} {b : TimeSpan} (hfill : (j, t) ∈ findGapFills entries) (hij : i < j)
    (hu : getUtterance file i = some u) (hb : u.parsedBullet = some b)
    (hv : getUtterance file j = some v) (hspeaker : u.speaker = v.speaker) : b.endMs ≤ t := by
  have hsorted : (([] : List BulletEntry) ++ entries).Pairwise (fun a b => a.lineIdx < b.lineIdx ∧
      (a.speaker = b.speaker → a.endMs ≤ b.startMs)) := by
    apply h.sorted.imp_of_mem
    intro a c ha hc hlt
    refine ⟨hlt, ?_⟩
    intro hsame
    obtain ⟨ua, hua, hau, hba⟩ := (h.live a ha).speaker
    obtain ⟨uc, huc, hcu, hbc⟩ := (h.live c hc).speaker
    refine ht.apart _ _ _ _ _ _ hlt hua huc hba hbc ?_
    rw [← hau, ← hcu, hsame]
    exact shouldClamp_self policy _
  have hextent : ∀ e ∈ entries, e.startMs < e.endMs :=
    fun e he => ht.extent _ _ (h.live e he).bullet
  obtain ⟨e, he, hline, hafter⟩ := gapFillsFrom_after hsorted hextent (by simp) (j, t) hfill
  obtain ⟨d, hd, rfl⟩ := h.covered i b (by rw [bulletAt_eq hu, hb])
  obtain ⟨ud, hud, hds, hbd⟩ := (h.live d hd).speaker
  obtain ⟨ue, hue, hes, _⟩ := (h.live e he).speaker
  rw [hline, hv, Option.some.injEq] at hue
  rw [hu, Option.some.injEq] at hud
  subst hue hud
  rw [hb, Option.some.injEq] at hbd
  rw [hbd]
  exact hafter d hd hij (by rw [hds, hes, hspeaker])

theorem gapFilled_tidy (h : Collected authority ord file entries) (ht : Tidy policy file)
    (hfills : FillsInOrder authority policy file) :
    Tidy policy (applyGapFills file (findGapFills entries)) := by
  have hbefore : ∀ i b', bulletAt (applyGapFills file (findGapFills entries)) i = some b' →
      ∃ b, bulletAt file i = some b ∧ b'.endMs = b.endMs ∧ b'.startMs ≤ b.startMs ∧
        (b'.startMs = b.startMs ∨ (i, b'.startMs) ∈ findGapFills entries) := by
    intro i b' hb'
    obtain ⟨u', hu', hb'⟩ := bulletAt_eq_some hb'
    obtain ⟨u, b, hu, hb, _, hrest⟩ := gapFilled_bullet h hu' hb'
    exact ⟨b, by rw [bulletAt_eq hu, hb], hrest⟩
  refine ⟨?_, ?_, ?_⟩
  · intro i b' hb'
    obtain ⟨b, hb, hend, hstart, _⟩ := hbefore i b' hb'
    have := ht.extent i b hb
    omega
  · intro i j b' c' hij hb' hc'
    obtain ⟨b, hb, _, hstart, _⟩ := hbefore i b' hb'
    obtain ⟨c, hc, _, _, hsame | hfill⟩ := hbefore j c' hc'
    · have := ht.ordered i j b c hij hb hc
      omega
    · have := (hfills entries h.eq _ hfill i b hij hb).1
      omega
  · intro i j u' v' b' c' hij hu' hv' hb' hc' hclamp
    obtain ⟨u, b, hu, hb, hus, hend, _, _⟩ := gapFilled_bullet h hu' hb'
    obtain ⟨v, c, hv, hc, hvs, _, _, hsame | hfill⟩ := gapFilled_bullet h hv' hc'
    · rw [hus, hvs] at hclamp
      have := ht.apart i j u v b c hij hu hv hb hc hclamp
      omega
    · rw [hend]
      cases policy with
      | clampAllAdjacent =>
        exact (hfills entries h.eq _ hfill i b hij (by rw [bulletAt_eq hu, hb])).2 rfl
      | preserveCrossSpeaker =>
        refine findGapFills_after h ht hfill hij hu hb hv ?_
        rw [← hus, ← hvs]
        exact beq_iff_eq.mp hclamp

end Filled

/-! ## The phases on a tidy file -/

section Phases
variable {W : ContentWalker} {order : HashOrder} {authority : MainBulletAuthority}
  {policy : EndOverlapPolicy} {file : ChatFile}

theorem repairBulletsUnder_tidy (hattr : Attributed authority file) (ht : Tidy policy file)
    (hfills : FillsInOrder authority policy file) :
    ∃ entries result, Collected authority (utteranceOrdinal file) file entries ∧
      repairBulletsUnder W order authority policy file =
        .ok (applyGapFills file (findGapFills entries), result) := by
  obtain ⟨entries, entries1, entries2, entries3, s1, s2, h⟩ :=
    @repairRun_exists W order authority policy file hattr
  obtain ⟨result, hrepair⟩ := h.run_eq
  have htidy := gapFilled_tidy h.given ht hfills
  have hs1 : s1 = ⟨applyGapFills file (findGapFills entries), [], 0⟩ := by
    have hidle := averages_idle (s := ⟨applyGapFills file (findGapFills entries), [], 0⟩)
      (streamWindows_idle (W := W) h.filled htidy)
    exact Except.ok.inj (h.streams.symm.trans hidle)
  subst hs1
  have hs2 := Except.ok.inj (h.adjacent.symm.trans (averages_idle (adjacentWindows_idle h.collected2 htidy)))
  subst hs2
  refine ⟨entries, result, h.given, ?_⟩
  rw [hrepair, findLisRemovals_tidy order h.collected3 htidy]
  rfl

theorem enforceMonotonicityUnder_tidy (hattr : Attributed authority file) (ht : Tidy policy file) :
    ∃ s, enforceMonotonicityUnder W authority policy file = .ok s ∧ s.file = file ∧ s.effects = [] := by
  have hord : InOrder authority (utteranceOrdinal file) (fun _ => False) file := by
    refine ⟨accepted_of_attributed hattr, ?_, fun _ hU => hU.elim⟩
    intro i j b c hij _ _ hb hc
    exact ht.ordered i j b c hij hb hc
  have hset : Settled authority (utteranceOrdinal file) file := by
    intro i k b c _ hb hk
    exact ht.ordered i k b c hk.after hb hk.bullet
  have hclear : ∀ i j u v, i < j → getUtterance file i = some u → getUtterance file j = some v →
      policy.shouldClamp u.speaker v.speaker = true →
      Clear authority (utteranceOrdinal file) file i j := by
    intro i j u v hij hu hv hclamp b c hb hc hover
    rw [bulletAt_eq hu] at hb
    rw [bulletAt_eq hv] at hc
    have := ht.apart i j u v b c hij hu hv hb hc hclamp
    omega
  apply enforceMonotonicityUnder_of_clear hord hset
  · intro i j u v hn
    refine hclear i j u v hn.before hn.first hn.second ?_
    rw [show u.speaker = v.speaker from hn.covered]
    exact shouldClamp_self policy _
  · intro i j u v hn
    refine hclear i j u v hn.before hn.first hn.second ?_
    cases policy with
    | clampAllAdjacent => rfl
    | preserveCrossSpeaker => exact beq_iff_eq.mpr hn.covered

end Phases

/-- Finalization keeps the words and the bullet's end of a line; `%wor` is rewritten as planned. -/
structure TimingKept (planned : Prop) (u u' : Utterance) : Prop where
  content : u'.content = u.content
  bullet : ∀ b, u.parsedBullet = some b →
    ∃ b', u'.parsedBullet = some b' ∧ b'.endMs = b.endMs ∧ b'.startMs ≤ b.startMs
  wor : ¬ planned → u'.dependentTiers = u.dependentTiers

def AllTimingKept (plan : WorPlan) (file file' : ChatFile) : Prop :=
  ∀ i u, getUtterance file i = some u → ∃ u', getUtterance file' i = some u' ∧
    TimingKept (utteranceOrdinal file i ∈ plan.candidates) u u'

section Kept
variable {W : ContentWalker} {writer : WorWriter} {authority : MainBulletAuthority} {plan : WorPlan}
  {file file' : ChatFile}

theorem gapFilled_timing {entries : List BulletEntry}
    (h : Collected authority (utteranceOrdinal file) file entries) (plan : WorPlan) :
    AllTimingKept plan file (applyGapFills file (findGapFills entries)) := by
  intro i u hu
  rcases gapFilled_line h i with hsame | ⟨v, b, t, hv, hb, _, hlt, _, hnew⟩
  · exact ⟨u, by rw [hsame, hu], rfl, fun b hb => ⟨b, hb, rfl, le_refl _⟩, fun _ => rfl⟩
  · rw [hu, Option.some.injEq] at hv
    subst hv
    refine ⟨u.setStart t, hnew, rfl, ?_, fun _ => rfl⟩
    intro c hc
    rw [hb, Option.some.injEq] at hc
    subst hc
    exact ⟨⟨t, b.endMs⟩, by rw [parsedBullet_setStart, hb]; rfl, rfl, le_of_lt hlt⟩

theorem AllTimingKept.write (h : AllTimingKept plan file file')
    (hord : ∀ i, utteranceOrdinal file' i = utteranceOrdinal file i) :
    AllTimingKept plan file (writeWor W writer plan file') := by
  intro i u hu
  obtain ⟨v, hv, hkept⟩ := h i u hu
  obtain ⟨⟨g, hg, hsame, hline⟩, _⟩ := @writeWor_line W writer plan file' i
  refine ⟨g v, by rw [hline, hv]; rfl, (hg v).content.trans hkept.content, ?_, ?_⟩
  · intro b hb
    rw [Utterance.parsedBullet, (hg v).bullet]
    exact hkept.bullet b hb
  · intro hplan
    rw [hsame (by rw [hord]; exact hplan)]
    exact hkept.wor hplan

theorem AllTimingKept.restore {file'' : ChatFile} (h : AllTimingKept plan file file')
    (hacc : Accepted authority (utteranceOrdinal file') file')
    (hrestore : restoreOffRecord authority file' = .ok file'') : AllTimingKept plan file file'' := by
  intro i u hu
  obtain ⟨v, hv, hkept⟩ := h i u hu
  obtain ⟨_, hsame | ⟨w, kept, hw, hslot, hnew⟩⟩ := restoreOffRecord_line hrestore i
  · exact ⟨v, by rw [hsame, hv], hkept⟩
  · rw [hv, Option.some.injEq] at hw
    subst hw
    refine ⟨_, hnew, hkept.content, ?_, hkept.wor⟩
    intro b hb
    obtain ⟨b', hb', _⟩ := hkept.bullet b hb
    exact absurd (hacc.attributed i b' (by rw [bulletAt_eq hv, hb'])) (no_bullet_off_record hslot)

end Kept

/-- On a tidy file whose gap fills stay in order, finalization refuses a bullet the authority does not accept,
  and else loses no bullet and no timing. -/
theorem thenFinalize_keeps_timing (W : ContentWalker) (writer : WorWriter) (order : HashOrder)
    (authority : MainBulletAuthority) (policy : EndOverlapPolicy) (plan : WorPlan)
    (postprocess : List DecisionRecord) (file : ChatFile) (htidy : Tidy policy file)
    (hfills : FillsInOrder authority policy file) : (¬ Attributed authority file ∧ ∃ e,
      thenFinalize W writer order authority policy plan postprocess .enabled file = .error e) ∨
    (Attributed authority file ∧ ∃ ordered result,
      orderedPhases W writer order authority policy plan postprocess .enabled file =
        .ok (ordered, result) ∧ AllTimingKept plan file ordered.file ∧
      ∀ finalized, thenFinalize W writer order authority policy plan postprocess .enabled file =
        .ok finalized → AllTimingKept plan file finalized.file) := by
  by_cases hattr : Attributed authority file
  · right
    refine ⟨hattr, ?_⟩
    obtain ⟨entries, result, hc, hrepair⟩ :=
      @repairBulletsUnder_tidy W order authority policy file hattr htidy hfills
    have hacc := gapFilled_accepted hc (accepted_of_attributed hattr)
    obtain ⟨s, hrun, hfile, heffects⟩ := @enforceMonotonicityUnder_tidy W authority policy _
      hacc.attributedFile (gapFilled_tidy hc htidy hfills)
    -- no effect, so the plan is as it came in
    have hplan : plan.alsoTouched (s.effects.filterMap MonotonicityEffect.wordMutatedUtterance) =
        plan := by
      rw [heffects]
      cases plan with
      | suppressed => rfl
      | pending touched => exact congrArg WorPlan.pending (append_nil touched)
    have hordered : orderedPhases W writer order authority policy plan postprocess .enabled file =
        .ok (⟨writeWor W writer plan (applyGapFills file (findGapFills entries)), postprocess, s⟩,
          result) := by
      simp only [orderedPhases, hrepair, enforceMonotonicityThenWriteWor, hrun, hplan, hfile]
    have hkept : AllTimingKept plan file
        (writeWor W writer plan (applyGapFills file (findGapFills entries))) :=
      (gapFilled_timing hc plan).write hacc.ordinals
    refine ⟨_, _, hordered, hkept, ?_⟩
    intro finalized hfin
    exact hkept.restore (accepted_of_attributed (writeWor_accepted hacc).attributedFile)
      (thenFinalize_restored hordered hfin)
  · exact .inl ⟨hattr, thenFinalize_error hattr⟩

/-- The second line of `MOT` is filled back past the start of `CHI`'s line. -/
def filledInOrderFile : ChatFile :=
  [.utterance ⟨"MOT", [], some (.parsed ⟨0, 100⟩), [], [], []⟩,
   .utterance ⟨"CHI", [], some (.parsed ⟨80, 180⟩), [], [], []⟩,
   .utterance ⟨"MOT", [], some (.parsed ⟨150, 250⟩), [.word ⟨"there", some ⟨150, 250⟩⟩], [], []⟩]

theorem filledInOrderFile_tidy : Tidy .preserveCrossSpeaker filledInOrderFile := by
  refine ⟨?_, ?_, ?_⟩
  · intro i b hb
    match i, hb with
    | 0, hb => cases hb; decide
    | 1, hb => cases hb; decide
    | 2, hb => cases hb; decide
  · intro i j b c hij hb hc
    match i, hb, j, hc with
    | 0, hb, 1, hc => cases hb; cases hc; decide
    | 0, hb, 2, hc => cases hb; cases hc; decide
    | 1, hb, 2, hc => cases hb; cases hc; decide
    | i + 1, _, 0, _ => omega
    | i + 1, _, 1, _ => omega
    | i + 2, _, 2, _ => omega
  · intro i j u v b c hij hu hv hb hc hclamp
    match i, hu, j, hv with
    | 0, hu, 1, hv =>
      cases hu
      cases hv
      cases hclamp
    | 0, hu, 2, hv => cases hu; cases hv; cases hb; cases hc; decide
    | 1, hu, 2, hv =>
      cases hu
      cases hv
      cases hclamp
    | i + 1, _, 0, _ => omega
    | i + 1, _, 1, _ => omega
    | i + 2, _, 2, _ => omega

theorem thenFinalize_keeps_timing_filled : ∃ ordered result,
      orderedPhases .unconditional .mainWords .insertion .deriveFromWords .preserveCrossSpeaker
        .suppressed [] .enabled filledInOrderFile = .ok (ordered, result) ∧
      AllTimingKept .suppressed filledInOrderFile ordered.file ∧
      ∀ finalized, thenFinalize .unconditional .mainWords .insertion .deriveFromWords
        .preserveCrossSpeaker .suppressed [] .enabled filledInOrderFile = .ok finalized →
        AllTimingKept .suppressed filledInOrderFile finalized.file := by
  have hinst := thenFinalize_keeps_timing .unconditional .mainWords .insertion .deriveFromWords
    .preserveCrossSpeaker .suppressed [] filledInOrderFile filledInOrderFile_tidy (by
      intro entries hentries fill hfill i b hi hb
      cases hentries
      obtain rfl : fill = (2, 100) := mem_singleton.mp hfill
      match i, hb with
      | 0, hb => cases hb; decide
      | 1, hb => cases hb; decide)
  rcases hinst with ⟨hno, _⟩ | ⟨_, hrun⟩
  · exact absurd (attributed_deriveFromWords filledInOrderFile) hno
  · exact hrun

def crossOverlapFile : ChatFile :=
  [.utterance ⟨"MOT", [], some (.parsed ⟨0, 100⟩), [.word ⟨"there", some ⟨60, 100⟩⟩], [], []⟩,
   .utterance ⟨"CHI", [], some (.parsed ⟨50, 150⟩), [], [], []⟩]

/-- Where all adjacent lines are clamped, the word loses its timing. -/
theorem cross_overlap_word_dropped : Tidy .preserveCrossSpeaker crossOverlapFile ∧
    (∀ i u b, getUtterance crossOverlapFile i = some u → u.parsedBullet = some b →
      ∀ s ∈ u.timedSpans, s.Within b) ∧
    ∃ finalized, thenFinalize .unconditional .mainWords .insertion .deriveFromWords
        .clampAllAdjacent .suppressed [] .enabled crossOverlapFile = .ok finalized ∧
      (∃ u, getUtterance finalized.file 0 = some u ∧ u.timedSpans = []) ∧
      ¬ AllTimingKept .suppressed crossOverlapFile finalized.file := by
  refine ⟨⟨?_, ?_, ?_⟩, ?_, _, rfl, ⟨_, rfl, rfl⟩, ?_⟩
  · intro i b hb
    match i, hb with
    | 0, hb => cases hb; decide
    | 1, hb => cases hb; decide
  · intro i j b c hij hb hc
    match i, hb, j, hc with
    | 0, hb, 1, hc => cases hb; cases hc; decide
    | i + 1, _, 0, _ => omega
    | i + 1, _, 1, _ => omega
  · intro i j u v b c hij hu hv _ _ hclamp
    match i, hu, j, hv with
    | 0, hu, 1, hv =>
      cases hu
      cases hv
      exact absurd hclamp (by decide)
    | i + 1, _, 0, _ => omega
    | i + 1, _, 1, _ => omega
  · intro i u b hu hb s hs
    match i, hu with
    | 0, hu =>
      cases hu
      obtain rfl : ⟨0, 100⟩ = b := Option.some.inj hb
      obtain rfl : s = ⟨60, 100⟩ := mem_singleton.mp hs
      exact ⟨by decide, by decide, by decide⟩
    | 1, hu => cases hu; cases hs
  · intro h
    obtain ⟨u', hu', hkept⟩ := h 0 _ rfl
    cases hu'
    cases hkept.content

/-- The second line of `MOT` is filled back to before the line of `CHI` starts. -/
def filledBehindFile : ChatFile :=
  [.utterance ⟨"MOT", [], some (.parsed ⟨0, 100⟩), [], [], []⟩,
   .utterance ⟨"CHI", [], some (.parsed ⟨500, 900⟩), [], [], []⟩,
   .utterance ⟨"MOT", [], some (.parsed ⟨600, 800⟩), [], [], []⟩]

-- out of order after the fill, the line loses its bullet to Pass 1
example : ((thenFinalize .unconditional .mainWords .insertion .deriveFromWords .preserveCrossSpeaker
    .suppressed [] .enabled filledBehindFile).toOption.map fun f => bulletAt f.file 2) = some none := rfl

end Batchalign.Fa
