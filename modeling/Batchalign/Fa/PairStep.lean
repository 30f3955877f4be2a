import Batchalign.Fa.Invariants

/- Everything the resolution of one pair can do (`resolve_end_overlap_pair`). -/
namespace Batchalign.Fa
open List

/-! ## Words after a cut -/

variable {b : TimeSpan} {t : ℕ} {u : Utterance} {file : ChatFile} {W : ContentWalker}
  {authority : MainBulletAuthority} {ord : ℕ → ℕ}

theorem kept_past_within {s s' : TimeSpan} (h : s.Within b)
    (hk : (⟨0, some t⟩ : ClampBound).kept s = some s') : s'.Within ⟨b.startMs, t⟩ := by
  obtain ⟨hstart, hpos, hend⟩ := h
  have hin := (ClampBound.kept_inside hk).2 t rfl
  rcases ClampBound.kept_eq_some hk with heq | ⟨hlt, hs, _, _⟩
  · subst heq
    exact ⟨hstart, hpos, hin⟩
  · refine ⟨?_, hlt, hin⟩
    change b.startMs ≤ s'.startMs
    omega

theorem kept_before_within {s s' : TimeSpan} (h : s.Within b)
    (hk : (⟨t, none⟩ : ClampBound).kept s = some s') : s'.Within ⟨t, b.endMs⟩ := by
  obtain ⟨hstart, hpos, hend⟩ := h
  have hin := (ClampBound.kept_inside hk).1
  rcases ClampBound.kept_eq_some hk with heq | ⟨hlt, _, he, _⟩
  · subst heq
    exact ⟨hin, hpos, hend⟩
  · exact ⟨hin, hlt, le_trans he hend⟩

theorem words_clampWordsPastBound (h : ∀ s ∈ u.timedSpans, s.Within b) :
    ∀ s ∈ (clampWordsPastBound W u t).1.timedSpans, s.Within ⟨b.startMs, t⟩ := by
  intro s hs
  rw [clampWordsPastBound, timedSpans_clampWordsWithin] at hs
  obtain ⟨s0, hs0, hk⟩ := mem_filterMap.mp hs
  exact kept_past_within (h s0 hs0) hk

theorem words_raiseBulletStart (h : ∀ s ∈ u.timedSpans, s.Within b) :
    ∀ s ∈ (raiseBulletStart W u t).1.timedSpans, s.Within ⟨t, b.endMs⟩ := by
  intro s hs
  rw [raiseBulletStart, clampWordsBeforeBound, timedSpans_clampWordsWithin,
    timedSpans_setStart] at hs
  obtain ⟨s0, hs0, hk⟩ := mem_filterMap.mp hs
  exact kept_before_within (h s0 hs0) hk

theorem parsedBullet_raiseBulletStart (W : ContentWalker) (u : Utterance) (t : ℕ) :
    (raiseBulletStart W u t).1.parsedBullet = u.parsedBullet.map fun b => { b with startMs := t } :=
  parsedBullet_setStart u t

theorem parsedBullet_clampWordsPastBound (W : ContentWalker) (u : Utterance) (e t : ℕ) :
    (clampWordsPastBound W (u.setEnd e) t).1.parsedBullet =
      u.parsedBullet.map fun b => { b with endMs := e } :=
  parsedBullet_setEnd u e

theorem Contained.cutToHull {i e : ℕ} (h : Contained authority ord file)
    (hu : getUtterance file i = some u) (hb : u.parsedBullet = some b)
    (hend : furthestWordTimingEnd W u = some e) :
    Contained authority ord (modifyUtterance file i fun _ => u.setEnd e) := by
  have hwords := h.words _ _ _ hu hb
  obtain ⟨⟨s1, hs1, hs1e⟩, hmax⟩ := furthestWordTimingEnd_spec hend
  refine h.rebullet hu (a := ⟨b.startMs, e⟩) (by rw [parsedBullet_setEnd, hb]; rfl) ?_ ?_
  · obtain ⟨h1, h2, _⟩ := hwords s1 hs1
    change b.startMs < e
    omega
  · intro s0 hs0
    obtain ⟨h1, h2, _⟩ := hwords s0 hs0
    exact ⟨h1, h2, hmax s0 hs0⟩

/-! ## The step -/

structure PairOk (ord : ℕ → ℕ) (pair : OverlapPairIdentity) : Prop where
  before : pair.prevLineIdx < pair.nextLineIdx
  prev_ordinal : pair.prevUtteranceIdx = ord pair.prevLineIdx
  next_ordinal : pair.nextUtteranceIdx = ord pair.nextLineIdx

structure LiveOverlap (file : ChatFile) (pair : OverlapPairIdentity) (p n : Utterance)
    (pb nb : TimeSpan) : Prop where
  prev : getUtterance file pair.prevLineIdx = some p
  prev_bullet : p.parsedBullet = some pb
  next : getUtterance file pair.nextLineIdx = some n
  next_bullet : n.parsedBullet = some nb
  overlap : nb.startMs < pb.endMs

def strippedLine (W : ContentWalker) (authority : MainBulletAuthority) (s : PassState)
    (pair : OverlapPairIdentity) : Option ℕ :=
  match getUtterance s.file pair.nextLineIdx with
  | none => none
  | some next =>
  match next.parsedBullet, bulletAt s.file pair.prevLineIdx with
  | some nextBullet, some prevBullet =>
    if prevBullet.endMs ≤ nextBullet.startMs then none
    else match authority.standing pair.prevUtteranceIdx, authority.standing pair.nextUtteranceIdx with
      | .revisable, _ =>
        if nextBullet.startMs ≤ prevBullet.startMs then some pair.prevLineIdx else none
      | .readOnly kept, .revisable =>
        if KeptEndYield.keepingPrevEnd kept.endMs nextBullet.endMs (earliestWordTimingStart W next)
          (fileOrderSuccessorStartMs s.file pair.nextLineIdx) = .strip then some pair.nextLineIdx
        else none
      | .readOnly _, .readOnly _ => none
  | _, _ => none

section Step
variable (W : ContentWalker) (authority : MainBulletAuthority) (ord : ℕ → ℕ)

/-- What one pair of Pass 2 can do to the file. -/
inductive PairStep (s : PassState) (pair : OverlapPairIdentity) (s' : PassState) : Prop where
  /-- No overlap with a side that may change. -/
  | idle (hfile : s'.file = s.file) (heff : s'.effects = s.effects)
      (hnone : strippedLine W authority s pair = none)
      (hkept : ∀ pb nb, bulletAt s.file pair.prevLineIdx = some pb →
        bulletAt s.file pair.nextLineIdx = some nb → nb.startMs < pb.endMs →
        authority.keptBullet (ord pair.prevLineIdx) ≠ none ∧
          authority.keptBullet (ord pair.nextLineIdx) ≠ none)
  /-- The earlier side cannot end before the later one starts. -/
  | stripPrev (p n : Utterance) (pb nb : TimeSpan) (h : LiveOverlap s.file pair p n pb nb)
      (hk : authority.keptBullet (ord pair.prevLineIdx) = none)
      (hstart : nb.startMs ≤ pb.startMs)
      (hline : strippedLine W authority s pair = some pair.prevLineIdx)
      (hfile : s'.file = modifyUtterance s.file pair.prevLineIdx fun _ => (stripUtteranceTiming W p).1)
  /-- Only coverage overshot: the earlier end moves to its hull, or to the later start. -/
  | coverage (p n : Utterance) (pb nb : TimeSpan) (e : ℕ) (h : LiveOverlap s.file pair p n pb nb)
      (hk : authority.keptBullet (ord pair.prevLineIdx) = none)
      (hstart : pb.startMs < nb.startMs)
      (hnone : strippedLine W authority s pair = none)
      (hhull : furthestWordTimingEnd W p = none ∧ e = nb.startMs ∨
        furthestWordTimingEnd W p = some e ∧ e ≤ nb.startMs)
      (hfile : s'.file = modifyUtterance s.file pair.prevLineIdx fun _ => p.setEnd e)
  /-- Both sides take their hull edges. -/
  | boundary (p n : Utterance) (pb nb : TimeSpan) (e t : ℕ) (h : LiveOverlap s.file pair p n pb nb)
      (hk : authority.keptBullet (ord pair.prevLineIdx) = none)
      (hkn : authority.keptBullet (ord pair.nextLineIdx) = none)
      (hstart : pb.startMs < nb.startMs)
      (hnone : strippedLine W authority s pair = none)
      (hend : furthestWordTimingEnd W p = some e) (hover : nb.startMs < e)
      (hnext : earliestWordTimingStart W n = some t) (het : e ≤ t)
      (hguard : ∀ c, fileOrderSuccessorStartMs s.file pair.nextLineIdx = some c → t < c)
      (hfile : s'.file = modifyUtterance
        (modifyUtterance s.file pair.prevLineIdx fun _ => p.setEnd e) pair.nextLineIdx
        fun _ => n.setStart t)
  /-- The words conflict: the earlier side is clamped, bullet and words, to the later start. -/
  | interleaved (p n : Utterance) (pb nb : TimeSpan) (h : LiveOverlap s.file pair p n pb nb)
      (hk : authority.keptBullet (ord pair.prevLineIdx) = none)
      (hstart : pb.startMs < nb.startMs)
      (hnone : strippedLine W authority s pair = none)
      (hfile : s'.file = modifyUtterance s.file pair.prevLineIdx fun _ =>
        (clampWordsPastBound W (p.setEnd nb.startMs) nb.startMs).1)
  /-- The later side's start moves to the kept end. -/
  | raiseNext (p n : Utterance) (pb nb : TimeSpan) (h : LiveOverlap s.file pair p n pb nb)
      (hk : authority.keptBullet (ord pair.prevLineIdx) ≠ none)
      (hkn : authority.keptBullet (ord pair.nextLineIdx) = none)
      (hnone : strippedLine W authority s pair = none)
      (hroom : pb.endMs < nb.endMs)
      (hguard : ∀ c, fileOrderSuccessorStartMs s.file pair.nextLineIdx = some c → pb.endMs ≤ c)
      (hfile : s'.file = modifyUtterance s.file pair.nextLineIdx fun _ =>
        (raiseBulletStart W n pb.endMs).1)
  /-- The later side has no room after the kept end. -/
  | stripNext (p n : Utterance) (pb nb : TimeSpan) (h : LiveOverlap s.file pair p n pb nb)
      (hk : authority.keptBullet (ord pair.prevLineIdx) ≠ none)
      (hkn : authority.keptBullet (ord pair.nextLineIdx) = none)
      (hline : strippedLine W authority s pair = some pair.nextLineIdx)
      (hfile : s'.file = modifyUtterance s.file pair.nextLineIdx fun _ => (stripUtteranceTiming W n).1)

end Step

theorem modifyUtterance_const {i : ℕ} {f : Utterance → Utterance} (h : getUtterance file i = some u) :
    modifyUtterance file i f = modifyUtterance file i fun _ => f u := by
  obtain ⟨line, hline, hu⟩ := Option.bind_eq_some_iff.mp h
  apply ext_getElem?
  intro j
  rw [modifyUtterance, modifyUtterance, getElem?_modify, getElem?_modify]
  by_cases hij : i = j
  · subst hij
    cases line with
    | header text => simp [Line.utterance?] at hu
    | utterance v =>
      obtain rfl : v = u := Option.some.inj hu
      simp [hline, Line.mapUtterance]
  · simp [hij]

theorem classifyEndOverlap_spec (hull : Option ℕ) (nextStart : ℕ) (nextHull successor : Option ℕ) :
    (∃ h, classifyEndOverlap hull nextStart nextHull successor = .coverageOnly h ∧
      (h = none ∧ hull = none ∨ ∃ e, h = some e ∧ hull = some e ∧ e ≤ nextStart)) ∨
    (∃ e t, classifyEndOverlap hull nextStart nextHull successor = .boundaryFromWords e t ∧
      hull = some e ∧ nextStart < e ∧ nextHull = some t ∧ e ≤ t ∧ ∀ c, successor = some c → t < c) ∨
    classifyEndOverlap hull nextStart nextHull successor = .interleavedWords := by
  cases hull with
  | none => exact .inl ⟨none, rfl, .inl ⟨rfl, rfl⟩⟩
  | some e =>
    by_cases hle : e ≤ nextStart
    · exact .inl ⟨some e, by simp [classifyEndOverlap, hle], .inr ⟨e, rfl, rfl, hle⟩⟩
    · right
      cases nextHull with
      | none =>
        simp [classifyEndOverlap, hle]
      | some t =>
        by_cases hok : e ≤ t ∧ ∀ c, successor = some c → t < c
        · left
          refine ⟨e, t, ?_, rfl, by omega, rfl, hok.1, hok.2⟩
          cases successor with
          | none => simp [classifyEndOverlap, hle, hok.1]
          | some c => simp [classifyEndOverlap, hle, hok.1, hok.2 c rfl]
        · cases successor with
          | none =>
            have hgt : ¬ e ≤ t := by
              intro het
              exact hok ⟨het, by simp⟩
            simp [classifyEndOverlap, hle, hgt]
          | some c =>
            have hnot : ¬ (e ≤ t ∧ t < c) := by
              rintro ⟨het, htc⟩
              exact hok ⟨het, fun c' hc' => by cases hc'; exact htc⟩
            simp [classifyEndOverlap, hle, hnot]

theorem keepingPrevEnd_ne_strip {keptEnd nextEnd : ℕ} {hull successor : Option ℕ}
    (h : KeptEndYield.keepingPrevEnd keptEnd nextEnd hull successor ≠ .strip) :
    keptEnd < nextEnd ∧ ∀ c, successor = some c → keptEnd ≤ c := by
  have hroom : keptEnd < nextEnd := by
    by_contra hle
    exact h (if_neg fun hok => hle hok.1)
  refine ⟨hroom, ?_⟩
  intro c hc
  subst hc
  by_contra hlt
  exact h (if_neg fun hok => by simp at hok; omega)

theorem reportKeptPair_spec (s : PassState) (facts : OverlapFacts) :
    (reportKeptPair s facts).file = s.file ∧ (reportKeptPair s facts).effects = s.effects ∧
      s.decisions <+: (reportKeptPair s facts).decisions := by
  by_cases hrep : (facts.edge.utteranceIdx, facts.edge.nextUtteranceIdx) ∈ s.reported
  · simp [reportKeptPair, hrep]
  · simp [reportKeptPair, hrep]

section Spec
variable {W : ContentWalker} {authority : MainBulletAuthority} {ord : ℕ → ℕ} {U : ℕ → Prop}
  {s : PassState} {pair : OverlapPairIdentity} {p n : Utterance} {pb nb : TimeSpan}

theorem strippedLine_eq (h : LiveOverlap s.file pair p n pb nb) : strippedLine W authority s pair =
      match authority.standing pair.prevUtteranceIdx, authority.standing pair.nextUtteranceIdx with
      | .revisable, _ => if nb.startMs ≤ pb.startMs then some pair.prevLineIdx else none
      | .readOnly kept, .revisable =>
        if KeptEndYield.keepingPrevEnd kept.endMs nb.endMs (earliestWordTimingStart W n)
          (fileOrderSuccessorStartMs s.file pair.nextLineIdx) = .strip then some pair.nextLineIdx
        else none
      | .readOnly _, .readOnly _ => none := by
  have hover := h.overlap
  have hnot : ¬ pb.endMs ≤ nb.startMs := by omega
  have hprev : bulletAt s.file pair.prevLineIdx = some pb := by rw [bulletAt_eq h.prev, h.prev_bullet]
  simp only [strippedLine, h.next, h.next_bullet, hprev, if_neg hnot]

theorem strippedLine_eq_none (h : ∀ pb nb, bulletAt s.file pair.prevLineIdx = some pb →
    bulletAt s.file pair.nextLineIdx = some nb → pb.endMs ≤ nb.startMs) :
    strippedLine W authority s pair = none := by
  unfold strippedLine
  cases hn : getUtterance s.file pair.nextLineIdx with
  | none => rfl
  | some n =>
    cases hnb : n.parsedBullet with
    | none => simp only [hnb]
    | some nb =>
      cases hpb : bulletAt s.file pair.prevLineIdx with
      | none => simp only [hnb]
      | some pb =>
        have hle := h pb nb hpb (by rw [bulletAt_eq hn, hnb])
        simp [hnb, hle]

theorem resolveRevisablePrev_step (hp : PairOk ord pair)
    (h : LiveOverlap s.file pair p n pb nb) {speaker : String} {next : NextStart}
    (hk : authority.keptBullet (ord pair.prevLineIdx) = none)
    (hnext : next = .movable → authority.keptBullet (ord pair.nextLineIdx) = none) :
    PairStep W authority ord s pair
      (resolveRevisablePrev W s (overlapFacts pair p pb nb speaker) next p) := by
  have hstand : authority.standing pair.prevUtteranceIdx = .revisable := by
    rw [MainBulletAuthority.standing, hp.prev_ordinal, hk]
  have hline : strippedLine W authority s pair = _ := strippedLine_eq h
  simp only [hstand] at hline
  have hrev : revisableResolution W s.file (overlapFacts pair p pb nb speaker) next =
      next.admit (classifyEndOverlap (furthestWordTimingEnd W p) nb.startMs
        (earliestWordTimingStart W n) (fileOrderSuccessorStartMs s.file pair.nextLineIdx)) := by
    simp [revisableResolution, overlapFacts, h.prev, h.next]
  unfold resolveRevisablePrev
  by_cases hstart : nb.startMs ≤ pb.startMs
  · rw [if_pos hstart] at hline
    rw [if_pos (show (overlapFacts pair p pb nb speaker).nextStartMs ≤
      (overlapFacts pair p pb nb speaker).prevStartMs from hstart)]
    exact .stripPrev p n pb nb h hk hstart hline rfl
  · rw [if_neg hstart] at hline
    rw [if_neg (show ¬ (overlapFacts pair p pb nb speaker).nextStartMs ≤
      (overlapFacts pair p pb nb speaker).prevStartMs from hstart)]
    have hlt : pb.startMs < nb.startMs := by omega
    rcases classifyEndOverlap_spec (furthestWordTimingEnd W p) nb.startMs
      (earliestWordTimingStart W n) (fileOrderSuccessorStartMs s.file pair.nextLineIdx) with
      ⟨hull, hcls, hhull⟩ | ⟨e, t, hcls, hend, hover, hnh, het, hguard⟩ | hcls
    · rw [hcls] at hrev
      have hres : revisableResolution W s.file (overlapFacts pair p pb nb speaker) next =
          .coverageOnly hull := by
        cases next <;> exact hrev
      simp only [hres]
      refine .coverage p n pb nb (hull.getD nb.startMs) h hk hlt hline ?_ (modifyUtterance_const h.prev)
      rcases hhull with ⟨h1, h2⟩ | ⟨e, h1, h2, h3⟩
      · exact .inl ⟨h2, by rw [h1]; rfl⟩
      · exact .inr ⟨by rw [h1]; exact h2, by rw [h1]; exact h3⟩
    · rw [hcls] at hrev
      cases next with
      | movable =>
        simp only [hrev, NextStart.admit]
        refine .boundary p n pb nb e t h hk (hnext rfl) hlt hline hend hover hnh het hguard ?_
        have hne := hp.before.ne
        change modifyUtterance (modifyUtterance s.file pair.prevLineIdx fun u => u.setEnd e)
          pair.nextLineIdx (fun u => u.setStart t) = _
        rw [modifyUtterance_const h.prev]
        exact modifyUtterance_const (by rw [getUtterance_modifyUtterance_ne hne]; exact h.next)
      | kept =>
        simp only [hrev, NextStart.admit, EndOverlapResolution.keepingNextStart]
        exact .interleaved p n pb nb h hk hlt hline rfl
    · rw [hcls] at hrev
      have hres : revisableResolution W s.file (overlapFacts pair p pb nb speaker) next =
          .interleavedWords := by
        cases next <;> exact hrev
      simp only [hres]
      exact .interleaved p n pb nb h hk hlt hline rfl

theorem yieldNextToKeptEnd_step (hs : Accepted authority ord s.file) (hp : PairOk ord pair)
    (h : LiveOverlap s.file pair p n pb nb) {speaker : String} {kept : KeptBullet}
    (hk : authority.keptBullet (ord pair.prevLineIdx) = some kept)
    (hkn : authority.keptBullet (ord pair.nextLineIdx) = none) : PairStep W authority ord s pair
      (yieldNextToKeptEnd W s (overlapFacts pair p pb nb speaker) kept n nb) := by
  have hpb : bulletAt s.file pair.prevLineIdx = some pb := by rw [bulletAt_eq h.prev, h.prev_bullet]
  have hend : kept.endMs = pb.endMs := by
    rw [hs.kept_live hpb hk]
    rfl
  have hk' : authority.keptBullet (ord pair.prevLineIdx) ≠ none := by
    rw [hk]
    simp
  have hstand : authority.standing pair.prevUtteranceIdx = .readOnly kept := by
    rw [MainBulletAuthority.standing, hp.prev_ordinal, hk]
  have hstandn : authority.standing pair.nextUtteranceIdx = .revisable := by
    rw [MainBulletAuthority.standing, hp.next_ordinal, hkn]
  have hline : strippedLine W authority s pair = _ := strippedLine_eq h
  simp only [hstand, hstandn] at hline
  unfold yieldNextToKeptEnd
  cases hy : KeptEndYield.keepingPrevEnd kept.endMs nb.endMs (earliestWordTimingStart W n)
      (fileOrderSuccessorStartMs s.file pair.nextLineIdx) with
  | strip =>
    rw [if_pos hy] at hline
    change KeptEndYield.keepingPrevEnd kept.endMs nb.endMs (earliestWordTimingStart W n)
      (fileOrderSuccessorStartMs s.file (overlapFacts pair p pb nb speaker).edge.nextLineIdx) = _ at hy
    simp only [hy]
    exact .stripNext p n pb nb h hk' hkn hline rfl
  | _ =>
    have hne : KeptEndYield.keepingPrevEnd kept.endMs nb.endMs (earliestWordTimingStart W n)
        (fileOrderSuccessorStartMs s.file pair.nextLineIdx) ≠ .strip := by
      rw [hy]
      simp
    obtain ⟨hroom, hguard⟩ := keepingPrevEnd_ne_strip hne
    rw [if_neg hne] at hline
    rw [hend] at hroom hguard
    have hy' := hy
    change KeptEndYield.keepingPrevEnd kept.endMs nb.endMs (earliestWordTimingStart W n)
      (fileOrderSuccessorStartMs s.file (overlapFacts pair p pb nb speaker).edge.nextLineIdx) = _ at hy'
    simp only [hy']
    exact .raiseNext p n pb nb h hk' hkn hline hroom hguard (by rw [← hend]; rfl)

theorem pairStep_spec (hs : Accepted authority ord s.file) (hp : PairOk ord pair) (speaker : String) :
    ∃ s', resolveEndOverlapPair W authority speaker s pair = .ok s' ∧
      s.decisions <+: s'.decisions ∧ PairStep W authority ord s pair s' := by
  have hidle : (∀ pb nb, bulletAt s.file pair.prevLineIdx = some pb →
      bulletAt s.file pair.nextLineIdx = some nb → pb.endMs ≤ nb.startMs) →
      PairStep W authority ord s pair s := by
    intro hno
    refine .idle rfl rfl (strippedLine_eq_none hno) ?_
    intro pb nb hpb hnb hlt
    have := hno pb nb hpb hnb
    omega
  have hgrow : ∀ (s' : PassState) (r : DecisionRecord), s'.decisions = s.decisions ++ [r] →
      s.decisions <+: s'.decisions := fun s' r hr => ⟨[r], hr.symm⟩
  unfold resolveEndOverlapPair
  cases hn : getUtterance s.file pair.nextLineIdx with
  | none =>
    refine ⟨s, rfl, prefix_refl _, hidle ?_⟩
    intro pb nb _ hnb
    simp [bulletAt, hn] at hnb
  | some n =>
  cases hnb : n.parsedBullet with
  | none =>
    refine ⟨s, by simp only [hnb], prefix_refl _, hidle ?_⟩
    intro pb nb _ hnb'
    rw [bulletAt_eq hn, hnb] at hnb'
    simp at hnb'
  | some nb =>
  have hnbAt : bulletAt s.file pair.nextLineIdx = some nb := by rw [bulletAt_eq hn, hnb]
  have hmutn := hs.attributed _ _ hnbAt
  rw [← hp.next_ordinal] at hmutn
  simp only [hnb, hmutn]
  cases hpr : getUtterance s.file pair.prevLineIdx with
  | none =>
    refine ⟨s, rfl, prefix_refl _, hidle ?_⟩
    intro pb nb hpb _
    simp [bulletAt, hpr] at hpb
  | some p =>
  cases hpb : p.parsedBullet with
  | none =>
    refine ⟨s, by simp only [hpb], prefix_refl _, hidle ?_⟩
    intro pb nb hpb' _
    rw [bulletAt_eq hpr, hpb] at hpb'
    simp at hpb'
  | some pb =>
  have hpbAt : bulletAt s.file pair.prevLineIdx = some pb := by rw [bulletAt_eq hpr, hpb]
  have hmutp := hs.attributed _ _ hpbAt
  rw [← hp.prev_ordinal] at hmutp
  simp only [hpb, hmutp]
  by_cases hover : pb.endMs ≤ nb.startMs
  · rw [if_pos hover]
    refine ⟨s, rfl, prefix_refl _, hidle ?_⟩
    intro pb' nb' hpb' hnb'
    rw [hpbAt, Option.some.injEq] at hpb'
    rw [hnbAt, Option.some.injEq] at hnb'
    subst hpb' hnb'
    exact hover
  · rw [if_neg hover]
    have h : LiveOverlap s.file pair p n pb nb := ⟨hpr, hpb, hn, hnb, by omega⟩
    cases hsp : authority.standing pair.prevUtteranceIdx with
    | revisable =>
      have hk := MainBulletAuthority.standing_revisable hsp
      rw [hp.prev_ordinal] at hk
      have hrec : ∀ facts next, ∃ r, (resolveRevisablePrev W s facts next p).decisions =
          s.decisions ++ [r] := by
        intro facts next
        unfold resolveRevisablePrev
        split_ifs
        · exact ⟨_, rfl⟩
        · cases revisableResolution W s.file facts next <;> exact ⟨_, rfl⟩
      cases hsn : authority.standing pair.nextUtteranceIdx with
      | revisable =>
        have hkn := MainBulletAuthority.standing_revisable hsn
        rw [hp.next_ordinal] at hkn
        obtain ⟨r, hr⟩ := hrec _ _
        exact ⟨_, rfl, hgrow _ r hr, resolveRevisablePrev_step hp h hk (fun _ => hkn)⟩
      | readOnly kept =>
        obtain ⟨r, hr⟩ := hrec _ _
        exact ⟨_, rfl, hgrow _ r hr, resolveRevisablePrev_step hp h hk (by simp)⟩
    | readOnly kept =>
      have hk := MainBulletAuthority.standing_readOnly hsp
      rw [hp.prev_ordinal] at hk
      cases hsn : authority.standing pair.nextUtteranceIdx with
      | revisable =>
        have hkn := MainBulletAuthority.standing_revisable hsn
        rw [hp.next_ordinal] at hkn
        exact ⟨_, rfl, hgrow _ _ rfl, yieldNextToKeptEnd_step hs hp h hk hkn⟩
      | readOnly kept' =>
        have hkn := MainBulletAuthority.standing_readOnly hsn
        rw [hp.next_ordinal] at hkn
        have hline : strippedLine W authority s pair = _ := strippedLine_eq h
        simp only [hsp, hsn] at hline
        obtain ⟨hfile, heff, hdec⟩ := reportKeptPair_spec s (overlapFacts pair p pb nb speaker)
        refine ⟨_, rfl, hdec, .idle hfile heff hline ?_⟩
        rw [hk, hkn]
        simp

variable {s' : PassState}

section
variable (hstep : PairStep W authority ord s pair s')
include hstep

theorem PairStep.inOrder
    (hs : InOrder authority ord U s.file) (hp : PairOk ord pair) : InOrder authority ord U s'.file := by
  have hne := hp.before.ne
  cases hstep with
  | idle hfile _ _ _ =>
    rw [hfile]
    exact hs
  | stripPrev p n pb nb h hk _ _ hfile =>
    rw [hfile]
    exact hs.strip h.prev h.prev_bullet hk rfl
  | coverage p n pb nb e h hk hstart _ hhull hfile =>
    rw [hfile]
    exact hs.cutEnd h.prev h.prev_bullet hk (by rw [parsedBullet_setEnd, h.prev_bullet]; rfl)
  | boundary p n pb nb e t h hk hkn hstart _ hend hover hnext het hguard hfile =>
    rw [hfile]
    have hcut : InOrder authority ord U (modifyUtterance s.file pair.prevLineIdx fun _ => p.setEnd e) :=
      hs.cutEnd h.prev h.prev_bullet hk (by rw [parsedBullet_setEnd, h.prev_bullet]; rfl)
    have hforward : nb.startMs < t := by omega
    refine hcut.moveStart (by rw [getUtterance_modifyUtterance_ne hne]; exact h.next) h.next_bullet
      hkn (by rw [parsedBullet_setStart, h.next_bullet]; rfl) (le_of_lt hforward) ?_
    -- the guard reads the file before the earlier end moved; later lines are the same
    intro j d hj hUj hd
    rw [bulletAt_modify_ne (by have := hp.before; omega)] at hd
    exact hs.move_before_later (by rw [bulletAt_eq h.next, h.next_bullet]) hkn hforward
      (fun c hc => le_of_lt (hguard c hc)) j d hj hUj hd
  | interleaved p n pb nb h hk hstart _ hfile =>
    rw [hfile]
    exact hs.cutEnd h.prev h.prev_bullet hk
      (by rw [parsedBullet_clampWordsPastBound, h.prev_bullet]; rfl)
  | raiseNext p n pb nb h hk hkn _ hroom hguard hfile =>
    rw [hfile]
    have hnb : bulletAt s.file pair.nextLineIdx = some nb := by
      rw [bulletAt_eq h.next, h.next_bullet]
    exact hs.moveStart h.next h.next_bullet hkn
      (by rw [parsedBullet_raiseBulletStart, h.next_bullet]; rfl) (le_of_lt h.overlap)
      (hs.move_before_later hnb hkn h.overlap hguard)
  | stripNext p n pb nb h _ hkn _ hfile =>
    rw [hfile]
    exact hs.strip h.next h.next_bullet hkn rfl

theorem PairStep.contained
    (hs : Contained authority ord s.file) (hp : PairOk ord pair) : Contained authority ord s'.file := by
  have hne := hp.before.ne
  cases hstep with
  | idle hfile _ _ _ =>
    rw [hfile]
    exact hs
  | stripPrev p n pb nb h hk _ _ hfile =>
    rw [hfile]
    exact hs.strip h.prev rfl
  | coverage p n pb nb e h hk hstart _ hhull hfile =>
    rw [hfile]
    have hb' : (p.setEnd e).parsedBullet = some ⟨pb.startMs, e⟩ := by
      rw [parsedBullet_setEnd, h.prev_bullet]
      rfl
    rcases hhull with ⟨hnone, he⟩ | ⟨hsome, _⟩
    · refine hs.rebullet h.prev hb' (by subst he; exact hstart) ?_
      intro s0 hs0
      rw [timedSpans_setEnd, furthestWordTimingEnd_eq_none_iff.mp hnone] at hs0
      simp at hs0
    · exact hs.cutToHull h.prev h.prev_bullet hsome
  | boundary p n pb nb e t h hk hkn hstart _ hend hover hnext het hguard hfile =>
    rw [hfile]
    have hcut := hs.cutToHull (W := W) h.prev h.prev_bullet hend
    have hwn := hs.words _ _ _ h.next h.next_bullet
    obtain ⟨⟨s2, hs2, hs2t⟩, hmin⟩ := earliestWordTimingStart_spec hnext
    have hb' : (n.setStart t).parsedBullet = some ⟨t, nb.endMs⟩ := by
      rw [parsedBullet_setStart, h.next_bullet]
      rfl
    refine hcut.rebullet (by rw [getUtterance_modifyUtterance_ne hne]; exact h.next) hb' ?_ ?_
    · obtain ⟨_, h2, h3⟩ := hwn s2 hs2
      change t < nb.endMs
      omega
    · intro s0 hs0
      obtain ⟨_, h2, h3⟩ := hwn s0 hs0
      exact ⟨hmin s0 hs0, h2, h3⟩
  | interleaved p n pb nb h hk hstart _ hfile =>
    rw [hfile]
    have hwords := hs.words _ _ _ h.prev h.prev_bullet
    exact hs.rebullet h.prev (by rw [parsedBullet_clampWordsPastBound, h.prev_bullet]; rfl) hstart
      (words_clampWordsPastBound hwords)
  | raiseNext p n pb nb h hk hkn _ hroom hguard hfile =>
    rw [hfile]
    have hwords := hs.words _ _ _ h.next h.next_bullet
    exact hs.rebullet h.next (by rw [parsedBullet_raiseBulletStart, h.next_bullet]; rfl) hroom
      (words_raiseBulletStart hwords)
  | stripNext p n pb nb h _ hkn _ hfile =>
    rw [hfile]
    exact hs.strip h.next rfl

theorem PairStep.kept_unchanged {i : ℕ}
    (hi : authority.keptBullet (ord i) ≠ none) : getUtterance s'.file i = getUtterance s.file i := by
  have hne : ∀ j, authority.keptBullet (ord j) = none → j ≠ i := by
    intro j hj hji
    subst hji
    exact hi hj
  cases hstep with
  | idle hfile _ _ _ => rw [hfile]
  | stripPrev p n pb nb h hk _ _ hfile => rw [hfile, getUtterance_modifyUtterance_ne (hne _ hk)]
  | coverage p n pb nb e h hk _ _ _ hfile => rw [hfile, getUtterance_modifyUtterance_ne (hne _ hk)]
  | boundary p n pb nb e t h hk hkn _ _ _ _ _ _ _ hfile =>
    rw [hfile, getUtterance_modifyUtterance_ne (hne _ hkn), getUtterance_modifyUtterance_ne (hne _ hk)]
  | interleaved p n pb nb h hk _ _ hfile => rw [hfile, getUtterance_modifyUtterance_ne (hne _ hk)]
  | raiseNext p n pb nb h _ hkn _ _ _ hfile => rw [hfile, getUtterance_modifyUtterance_ne (hne _ hkn)]
  | stripNext p n pb nb h _ hkn _ hfile => rw [hfile, getUtterance_modifyUtterance_ne (hne _ hkn)]

end

def StripReaches (W : ContentWalker) (authority : MainBulletAuthority) (s : PassState)
    (pair : OverlapPairIdentity) : Prop :=
  ∀ i u, strippedLine W authority s pair = some i → getUtterance s.file i = some u →
    ∀ w ∈ unreachedWords u.content, w.inlineBullet = none

theorem stripReaches_of_none (h : strippedLine W authority s pair = none) :
    StripReaches W authority s pair := by
  intro i u hi
  rw [h] at hi
  simp at hi

theorem stripReaches_iff {i : ℕ} {u : Utterance} (h : strippedLine W authority s pair = some i)
    (hu : getUtterance s.file i = some u) :
    StripReaches W authority s pair ↔ ∀ w ∈ unreachedWords u.content, w.inlineBullet = none := by
  refine ⟨fun hr => hr i u h hu, ?_⟩
  intro hw j v hj hv
  cases h.symm.trans hj
  cases hu.symm.trans hv
  exact hw

theorem PairStep.housed_iff (hstep : PairStep W authority ord s pair s') (hp : PairOk ord pair) :
    Housed s'.file ↔ Housed s.file ∧ StripReaches W authority s pair := by
  have hne := hp.before.ne
  have hkeep : strippedLine W authority s pair = none → (Housed s'.file ↔ Housed s.file) →
      (Housed s'.file ↔ Housed s.file ∧ StripReaches W authority s pair) := by
    intro hnone hiff
    rw [hiff]
    exact ⟨fun h => ⟨h, stripReaches_of_none hnone⟩, fun h => h.1⟩
  have hbul : ∀ {u : Utterance} {b : TimeSpan}, u.parsedBullet = some b → u.parsedBullet ≠ none := by
    intro u b hb
    rw [hb]
    simp
  cases hstep with
  | idle hfile _ hnone _ =>
    apply hkeep hnone
    rw [hfile]
  | stripPrev p n pb nb h _ _ hline hfile =>
    rw [hfile, stripReaches_iff hline h.prev]
    exact housed_strip W h.prev (hbul h.prev_bullet)
  | coverage p n pb nb e h _ _ hnone _ hfile =>
    apply hkeep hnone
    rw [hfile]
    exact housed_modify_bulleted h.prev (hbul h.prev_bullet) (by simp [h.prev_bullet])
  | boundary p n pb nb e t h _ _ _ hnone _ _ _ _ _ hfile =>
    apply hkeep hnone
    rw [hfile, housed_modify_bulleted (by rw [getUtterance_modifyUtterance_ne hne]; exact h.next)
      (hbul h.next_bullet) (by simp [h.next_bullet])]
    exact housed_modify_bulleted h.prev (hbul h.prev_bullet) (by simp [h.prev_bullet])
  | interleaved p n pb nb h _ _ hnone hfile =>
    apply hkeep hnone
    rw [hfile]
    exact housed_modify_bulleted h.prev (hbul h.prev_bullet)
      (by rw [parsedBullet_clampWordsPastBound, h.prev_bullet]; simp)
  | raiseNext p n pb nb h _ _ hnone _ _ hfile =>
    apply hkeep hnone
    rw [hfile]
    exact housed_modify_bulleted h.next (hbul h.next_bullet)
      (by rw [parsedBullet_raiseBulletStart, h.next_bullet]; simp)
  | stripNext p n pb nb h _ _ hline hfile =>
    rw [hfile, stripReaches_iff hline h.next]
    exact housed_strip W h.next (hbul h.next_bullet)

end Spec

/-! ## The pairs the sweeps form -/

theorem mem_windows {α : Type} {lines : List α} {a b : α} (h : (a, b) ∈ windows lines) :
    a ∈ lines ∧ b ∈ lines := by
  induction lines with
  | nil => simp [windows] at h
  | cons x lines ih =>
    cases lines with
    | nil => simp [windows] at h
    | cons y lines =>
      simp only [windows, mem_cons, Prod.mk.injEq] at h
      rcases h with ⟨h1, h2⟩ | h
      · subst h1 h2
        simp
      · obtain ⟨ha, hb⟩ := ih h
        exact ⟨mem_cons_of_mem x ha, mem_cons_of_mem x hb⟩

theorem windows_pairwise {α : Type} {R : α → α → Prop} {lines : List α}
    (h : lines.Pairwise R) {a b : α} (hab : (a, b) ∈ windows lines) : R a b := by
  induction lines with
  | nil => simp [windows] at hab
  | cons x lines ih =>
    cases lines with
    | nil => simp [windows] at hab
    | cons y lines =>
      simp only [windows, mem_cons, Prod.mk.injEq] at hab
      rcases hab with ⟨h1, h2⟩ | hab
      · subst h1 h2
        exact (pairwise_cons.mp h).1 _ (by simp)
      · exact ih (pairwise_cons.mp h).2 hab

theorem mem_timedLines {line : TimedLine} :
    line ∈ timedLines file ↔ ∃ u, getUtterance file line.lineIdx = some u ∧ u.bullet.isSome ∧
      line.speaker = u.speaker ∧ line.utteranceIdx = utteranceOrdinal file line.lineIdx := by
  simp only [timedLines, mem_filterMap, Prod.exists]
  refine ⟨?_, ?_⟩
  · intro h
    obtain ⟨i, k, u, hmem, hline⟩ := h
    obtain ⟨hu, hk⟩ := mem_utterancesIndexed.mp hmem
    split_ifs at hline with hb
    cases hline
    exact ⟨u, hu, hb, rfl, hk⟩
  · intro h
    obtain ⟨u, hu, hb, hsp, hord⟩ := h
    refine ⟨line.lineIdx, line.utteranceIdx, u, mem_utterancesIndexed.mpr ⟨hu, hord⟩, ?_⟩
    rw [if_pos hb, ← hsp]

theorem timedLines_sorted (file : ChatFile) :
    (timedLines file).Pairwise fun a b => a.lineIdx < b.lineIdx := by
  rw [timedLines, pairwise_filterMap]
  apply (utterancesIndexed_sorted file).imp
  intro a b hab x hx y hy
  simp only at hx hy
  split_ifs at hx hy
  cases hx
  cases hy
  exact hab

theorem pairWith_ok (hord : ∀ i, utteranceOrdinal file i = ord i)
    {lines : List TimedLine} (hsub : lines.Sublist (timedLines file)) {a b : TimedLine}
    (hab : (a, b) ∈ windows lines) : PairOk ord (a.pairWith b).2 := by
  have hlt := windows_pairwise ((timedLines_sorted file).sublist hsub) hab
  obtain ⟨ha, hb⟩ := mem_windows hab
  obtain ⟨_, _, _, _, hoa⟩ := mem_timedLines.mp (hsub.subset ha)
  obtain ⟨_, _, _, _, hob⟩ := mem_timedLines.mp (hsub.subset hb)
  exact ⟨hlt, by rw [← hord]; exact hoa, by rw [← hord]; exact hob⟩

theorem streamPairs_ok (hord : ∀ i, utteranceOrdinal file i = ord i) :
    ∀ x ∈ streamPairs (timedLines file), PairOk ord x.2 := by
  intro x hx
  obtain ⟨speaker, _, hx⟩ := mem_flatMap.mp hx
  obtain ⟨⟨a, b⟩, hab, rfl⟩ := mem_map.mp hx
  exact pairWith_ok hord filter_sublist hab

theorem adjacentPairs_ok (policy : EndOverlapPolicy) (hord : ∀ i, utteranceOrdinal file i = ord i) :
    ∀ x ∈ adjacentPairs policy (timedLines file), PairOk ord x.2 := by
  intro x hx
  obtain ⟨⟨a, b⟩, hab, rfl⟩ := mem_map.mp hx
  exact pairWith_ok hord (Sublist.refl _) (mem_filter.mp hab).1

section Pairs
variable {W : ContentWalker} {authority : MainBulletAuthority} {ord : ℕ → ℕ} {U : ℕ → Prop}
  {s s' : PassState} {pairs : List (String × OverlapPairIdentity)}

section
variable (hs : InOrder authority ord U s.file)
include hs

theorem resolvePairs_inOrder (hp : ∀ x ∈ pairs, PairOk ord x.2) :
    ∃ s', resolvePairs W authority s pairs = .ok s' ∧ InOrder authority ord U s'.file ∧
      (∀ i, authority.keptBullet (ord i) ≠ none → getUtterance s'.file i = getUtterance s.file i) ∧
      s.decisions <+: s'.decisions := by
  have hsweep := Sweep.sweep_invariant (f := resolveListed W authority)
    (I := fun t xs => (InOrder authority ord U t.file ∧
      (∀ i, authority.keptBullet (ord i) ≠ none → getUtterance t.file i = getUtterance s.file i) ∧
      s.decisions <+: t.decisions) ∧ ∀ x ∈ xs, PairOk ord x.2) (by
      intro t x xs hInv
      obtain ⟨⟨ht, hkept, hdec⟩, hpairs⟩ := hInv
      have hpx := hpairs x (by simp)
      obtain ⟨t', hok, hgrow, hstep⟩ := pairStep_spec (W := W) ht.toAccepted hpx x.1
      refine ⟨t', hok, ⟨hstep.inOrder ht hpx, ?_, hdec.trans hgrow⟩, ?_⟩
      · intro i hi
        rw [hstep.kept_unchanged hi]
        exact hkept i hi
      · intro y hy
        exact hpairs y (mem_cons_of_mem x hy))
  obtain ⟨s', hrun, hinv⟩ := hsweep pairs s ⟨⟨hs, fun _ _ => rfl, prefix_refl _⟩, hp⟩
  exact ⟨s', hrun, hinv.1⟩

theorem resolvePairs_along {C : PassState → String × OverlapPairIdentity → Prop}
    {J : PassState → List (String × OverlapPairIdentity) → Prop} (hp : ∀ x ∈ pairs, PairOk ord x.2)
    (hrun : resolvePairs W authority s pairs = .ok s') (hJ : J s pairs)
    (hC : Sweep.Along (resolveListed W authority) C s pairs)
    (hstep : ∀ t x xs t', InOrder authority ord U t.file → PairOk ord x.2 → J t (x :: xs) → C t x →
      PairStep W authority ord t x.2 t' → J t' xs) : J s' [] := by
  have hend := Sweep.run_along
    (I := fun t xs => InOrder authority ord U t.file ∧ (∀ x ∈ xs, PairOk ord x.2) ∧ J t xs) (by
      intro t x xs t' hInv hCx hok
      obtain ⟨ht, hpairs, hJt⟩ := hInv
      have hpx := hpairs x (by simp)
      obtain ⟨t'', hok', _, hpair⟩ := pairStep_spec (W := W) ht.toAccepted hpx x.1
      obtain rfl : t'' = t' := Except.ok.inj (hok'.symm.trans hok)
      exact ⟨hpair.inOrder ht hpx, fun y hy => hpairs y (mem_cons_of_mem x hy),
        hstep t x xs t'' ht hpx hJt hCx hpair⟩) hrun ⟨hs, hp, hJ⟩ hC
  exact hend.2.2

theorem resolvePairs_contained (hc : Contained authority ord s.file) (hp : ∀ x ∈ pairs, PairOk ord x.2)
    (hrun : resolvePairs W authority s pairs = .ok s') : Contained authority ord s'.file := by
  apply resolvePairs_along (C := fun _ _ => True) (J := fun t _ => Contained authority ord t.file)
    hs hp hrun hc
  · exact Sweep.along_true pairs s
  · intro t x xs t' _ hpx hct _ hpair
    exact hpair.contained hct hpx

theorem resolvePairs_housed (hp : ∀ x ∈ pairs, PairOk ord x.2)
    (hrun : resolvePairs W authority s pairs = .ok s') :
    Housed s'.file ↔ Housed s.file ∧ Sweep.Along (resolveListed W authority)
      (fun s x => StripReaches W authority s x.2) s pairs := by
  apply Sweep.run_iff (I := fun t xs => InOrder authority ord U t.file ∧ ∀ x ∈ xs, PairOk ord x.2)
    (G := fun t => Housed t.file) _ hrun ⟨hs, hp⟩
  intro t x xs t' hInv hok
  obtain ⟨ht, hpairs⟩ := hInv
  have hpx := hpairs x (by simp)
  obtain ⟨t'', hok', _, hpair⟩ := pairStep_spec (W := W) ht.toAccepted hpx x.1
  obtain rfl : t'' = t' := Except.ok.inj (hok'.symm.trans hok)
  exact ⟨⟨hpair.inOrder ht hpx, fun y hy => hpairs y (mem_cons_of_mem x hy)⟩, hpair.housed_iff hpx⟩

end

end Pairs

end Batchalign.Fa
