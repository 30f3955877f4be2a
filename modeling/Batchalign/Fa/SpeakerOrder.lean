import Batchalign.Fa.Neighbours

/- The same-speaker sweep under any order of the speakers
   (`resolve_same_speaker_stream_overlaps`). -/
namespace Batchalign.Fa

/-! ## The sweep in a given order -/

def streamPairsIn (order : List String) (lines : List TimedLine) :
    List (String × OverlapPairIdentity) :=
  order.flatMap fun speaker =>
    (windows (lines.filter fun line => line.speaker == speaker)).map fun (prev, next) =>
      prev.pairWith next

def speakersOf (file : ChatFile) : List String :=
  speakerOrder ((timedLines file).map TimedLine.speaker)

section
variable (W : ContentWalker) (authority : MainBulletAuthority)

def resolveStreamsIn (order : List String) (s : PassState) : Except KeptBulletError PassState :=
  resolvePairs W authority s (streamPairsIn order (timedLines s.file))

def OrderIndependent (s : PassState) : Prop :=
  ∀ order order' : List String, order.Perm (speakersOf s.file) → order'.Perm (speakersOf s.file) →
    ∀ t t', resolveStreamsIn W authority order s = .ok t →
      resolveStreamsIn W authority order' s = .ok t' → t.file = t'.file

/-! ## The outcome of a pair -/

def cutPrev (next : NextStart) (successor : Option ℕ) (p n : Utterance) (pb nb : TimeSpan) :
    Utterance × Utterance :=
  if nb.startMs ≤ pb.startMs then ((stripUtteranceTiming W p).1, n)
  else match next.admit (classifyEndOverlap (furthestWordTimingEnd W p) nb.startMs
      (earliestWordTimingStart W n) successor) with
    | .coverageOnly hullEndMs => (p.setEnd (hullEndMs.getD nb.startMs), n)
    | .boundaryFromWords prevHullEndMs nextHullStartMs =>
      (p.setEnd prevHullEndMs, n.setStart nextHullStartMs)
    | .interleavedWords => ((clampWordsPastBound W (p.setEnd nb.startMs) nb.startMs).1, n)

def yieldNext (successor : Option ℕ) (kept : KeptBullet) (n : Utterance) (nb : TimeSpan) :
    Utterance :=
  match KeptEndYield.keepingPrevEnd kept.endMs nb.endMs (earliestWordTimingStart W n) successor with
  | .strip => (stripUtteranceTiming W n).1
  | _ => (raiseBulletStart W n kept.endMs).1

def pairOutcome (pair : OverlapPairIdentity) (successor : Option ℕ) (p n : Utterance) :
    Utterance × Utterance :=
  match p.parsedBullet, n.parsedBullet with
  | some pb, some nb =>
    if pb.endMs ≤ nb.startMs then (p, n)
    else match authority.standing pair.prevUtteranceIdx, authority.standing pair.nextUtteranceIdx with
      | .revisable, .revisable => cutPrev W .movable successor p n pb nb
      | .revisable, .readOnly _ => cutPrev W .kept successor p n pb nb
      | .readOnly kept, .revisable => (p, yieldNext W successor kept n nb)
      | .readOnly _, .readOnly _ => (p, n)
  | _, _ => (p, n)

end

def writePair (file : ChatFile) (pair : OverlapPairIdentity) (outcome : Utterance × Utterance) :
    ChatFile :=
  modifyUtterance (modifyUtterance file pair.prevLineIdx fun _ => outcome.1) pair.nextLineIdx
    fun _ => outcome.2

section Write
variable {file : ChatFile} {i : ℕ} {u : Utterance} {pair : OverlapPairIdentity} {p n : Utterance}

theorem modifyUtterance_self (h : getUtterance file i = some u) :
    (modifyUtterance file i fun _ => u) = file := by
  obtain ⟨line, hline, hu⟩ := Option.bind_eq_some_iff.mp h
  apply List.ext_getElem?
  intro j
  rw [modifyUtterance, List.getElem?_modify]
  by_cases hij : i = j
  · subst hij
    cases line with
    | header text => simp [Line.utterance?] at hu
    | utterance v =>
      obtain rfl : v = u := Option.some.inj hu
      simp [hline, Line.mapUtterance]
  · simp [hij]

theorem writePair_prev (hne : pair.prevLineIdx ≠ pair.nextLineIdx)
    (hn : getUtterance file pair.nextLineIdx = some n) (w : Utterance) :
    writePair file pair (w, n) = modifyUtterance file pair.prevLineIdx fun _ => w :=
  modifyUtterance_self (by rw [getUtterance_modifyUtterance_ne hne]; exact hn)

theorem writePair_next (hp : getUtterance file pair.prevLineIdx = some p) (w : Utterance) :
    writePair file pair (p, w) = modifyUtterance file pair.nextLineIdx fun _ => w := by
  rw [writePair, modifyUtterance_self hp]

theorem writePair_same (hp : getUtterance file pair.prevLineIdx = some p)
    (hn : getUtterance file pair.nextLineIdx = some n) : writePair file pair (p, n) = file := by
  rw [writePair_next hp, modifyUtterance_self hn]

end Write

section Outcome
variable {W : ContentWalker} {authority : MainBulletAuthority} {ord : ℕ → ℕ}
  {s : PassState} {pair : OverlapPairIdentity} {p n : Utterance} {pb nb : TimeSpan}

theorem resolveRevisablePrev_outcome (hne : pair.prevLineIdx ≠ pair.nextLineIdx)
    (hp : getUtterance s.file pair.prevLineIdx = some p)
    (hn : getUtterance s.file pair.nextLineIdx = some n) (speaker : String) (next : NextStart) :
    (resolveRevisablePrev W s (overlapFacts pair p pb nb speaker) next p).file =
      writePair s.file pair (cutPrev W next (fileOrderSuccessorStartMs s.file pair.nextLineIdx)
        p n pb nb) := by
  have hrev : revisableResolution W s.file (overlapFacts pair p pb nb speaker) next =
      next.admit (classifyEndOverlap (furthestWordTimingEnd W p) nb.startMs
        (earliestWordTimingStart W n) (fileOrderSuccessorStartMs s.file pair.nextLineIdx)) := by
    simp [revisableResolution, overlapFacts, hp, hn]
  unfold resolveRevisablePrev cutPrev
  by_cases hstart : nb.startMs ≤ pb.startMs
  · rw [if_pos hstart, if_pos (show (overlapFacts pair p pb nb speaker).nextStartMs ≤
      (overlapFacts pair p pb nb speaker).prevStartMs from hstart), writePair_prev hne hn]
    rfl
  · rw [if_neg hstart, if_neg (show ¬ (overlapFacts pair p pb nb speaker).nextStartMs ≤
      (overlapFacts pair p pb nb speaker).prevStartMs from hstart), ← hrev]
    cases hres : revisableResolution W s.file (overlapFacts pair p pb nb speaker) next with
    | coverageOnly hullEndMs =>
      rw [writePair_prev hne hn]
      exact modifyUtterance_const hp
    | boundaryFromWords prevHullEndMs nextHullStartMs =>
      change modifyUtterance (modifyUtterance s.file pair.prevLineIdx fun u => u.setEnd prevHullEndMs)
        pair.nextLineIdx (fun u => u.setStart nextHullStartMs) = _
      rw [modifyUtterance_const hp]
      exact modifyUtterance_const (by rw [getUtterance_modifyUtterance_ne hne]; exact hn)
    | interleavedWords =>
      rw [writePair_prev hne hn]
      rfl

theorem yieldNextToKeptEnd_outcome (hp : getUtterance s.file pair.prevLineIdx = some p)
    (speaker : String) (kept : KeptBullet) :
    (yieldNextToKeptEnd W s (overlapFacts pair p pb nb speaker) kept n nb).file =
      writePair s.file pair (p, yieldNext W (fileOrderSuccessorStartMs s.file pair.nextLineIdx)
        kept n nb) := by
  rw [writePair_next hp]
  unfold yieldNextToKeptEnd yieldNext
  cases hy : KeptEndYield.keepingPrevEnd kept.endMs nb.endMs (earliestWordTimingStart W n)
      (fileOrderSuccessorStartMs s.file pair.nextLineIdx) with
  | _ =>
    change KeptEndYield.keepingPrevEnd kept.endMs nb.endMs (earliestWordTimingStart W n)
      (fileOrderSuccessorStartMs s.file (overlapFacts pair p pb nb speaker).edge.nextLineIdx) = _ at hy
    simp only [hy]
    rfl

theorem resolveListed_outcome (hs : Accepted authority ord s.file) (hpair : PairOk ord pair)
    (hp : getUtterance s.file pair.prevLineIdx = some p)
    (hn : getUtterance s.file pair.nextLineIdx = some n) (speaker : String) :
    ∃ s', resolveListed W authority s (speaker, pair) = .ok s' ∧
      s'.file = writePair s.file pair (pairOutcome W authority pair
        (fileOrderSuccessorStartMs s.file pair.nextLineIdx) p n) := by
  have hne := hpair.before.ne
  simp only [resolveListed, resolveEndOverlapPair, hn]
  cases hnb : n.parsedBullet with
  | none =>
    refine ⟨s, rfl, ?_⟩
    have hout : ∀ successor, pairOutcome W authority pair successor p n = (p, n) := by
      intro successor
      rw [pairOutcome, hnb]
      cases p.parsedBullet <;> rfl
    rw [hout, writePair_same hp hn]
  | some nb =>
  have hmutn := hs.attributed _ _ (show bulletAt s.file pair.nextLineIdx = some nb by
    rw [bulletAt_eq hn, hnb])
  rw [← hpair.next_ordinal] at hmutn
  simp only [hmutn, hp]
  cases hpb : p.parsedBullet with
  | none =>
    refine ⟨s, rfl, ?_⟩
    rw [pairOutcome, hpb, writePair_same hp hn]
  | some pb =>
  have hmutp := hs.attributed _ _ (show bulletAt s.file pair.prevLineIdx = some pb by
    rw [bulletAt_eq hp, hpb])
  rw [← hpair.prev_ordinal] at hmutp
  simp only [hmutp, pairOutcome, hpb, hnb]
  by_cases hover : pb.endMs ≤ nb.startMs
  · rw [if_pos hover, if_pos hover]
    exact ⟨s, rfl, (writePair_same hp hn).symm⟩
  · rw [if_neg hover, if_neg hover]
    cases authority.standing pair.prevUtteranceIdx with
    | revisable =>
      cases authority.standing pair.nextUtteranceIdx with
      | revisable => exact ⟨_, rfl, resolveRevisablePrev_outcome hne hp hn speaker .movable⟩
      | readOnly kept => exact ⟨_, rfl, resolveRevisablePrev_outcome hne hp hn speaker .kept⟩
    | readOnly kept =>
      cases authority.standing pair.nextUtteranceIdx with
      | revisable => exact ⟨_, rfl, yieldNextToKeptEnd_outcome hp speaker kept⟩
      | readOnly kept' =>
        refine ⟨_, rfl, ?_⟩
        rw [(reportKeptPair_spec s _).1, writePair_same hp hn]

end Outcome

/-! ## What the successor decides -/

section Guard
variable (W : ContentWalker) (authority : MainBulletAuthority)

/-- The least successor start that lets the later start of an overlapping pair move. -/
def leastSuccessor (pair : OverlapPairIdentity) (p n : Utterance) (pb nb : TimeSpan) : Option ℕ :=
  match authority.standing pair.prevUtteranceIdx, authority.standing pair.nextUtteranceIdx with
  | .revisable, .revisable =>
    match furthestWordTimingEnd W p, earliestWordTimingStart W n with
    | some hullEndMs, some nextHullStartMs =>
      if pb.startMs < nb.startMs ∧ nb.startMs < hullEndMs ∧ hullEndMs ≤ nextHullStartMs then
        some (nextHullStartMs + 1)
      else none
    | _, _ => none
  -- a kept end may coincide with the successor's start
  | .readOnly kept, .revisable => if kept.endMs < nb.endMs then some kept.endMs else none
  | _, .readOnly _ => none

def Admits (least : ℕ) (successor : Option ℕ) : Prop := ∀ c, successor = some c → least ≤ c

instance (least : ℕ) (successor : Option ℕ) : Decidable (Admits least successor) :=
  decidable_of_iff (successor.all fun c => least ≤ c) (by
    cases successor with
    | none => simp [Admits]
    | some c => simp [Admits])

end Guard

section GuardLemmas
variable {W : ContentWalker} {authority : MainBulletAuthority} {pair : OverlapPairIdentity}
  {p n : Utterance} {pb nb : TimeSpan} {a b : Option ℕ} {least : ℕ}

theorem classifyEndOverlap_disjoint {hullEndMs nextStartMs nextHullStartMs : ℕ}
    (hlt : nextStartMs < hullEndMs) (hle : hullEndMs ≤ nextHullStartMs) (successor : Option ℕ) :
    classifyEndOverlap (some hullEndMs) nextStartMs (some nextHullStartMs) successor =
      if Admits (nextHullStartMs + 1) successor then .boundaryFromWords hullEndMs nextHullStartMs
      else .interleavedWords := by
  have hnot : ¬ hullEndMs ≤ nextStartMs := by omega
  cases successor with
  | none => simp [classifyEndOverlap, hnot, hle, Admits]
  | some c => simp [classifyEndOverlap, hnot, hle, Admits]

theorem classifyEndOverlap_congr {hull nextHull : Option ℕ} {nextStartMs : ℕ}
    (h : ∀ e t, hull = some e → nextHull = some t → nextStartMs < e → e ≤ t →
      (Admits (t + 1) a ↔ Admits (t + 1) b)) : classifyEndOverlap hull nextStartMs nextHull a =
      classifyEndOverlap hull nextStartMs nextHull b := by
  cases hull with
  | none => rfl
  | some e =>
    by_cases hle : e ≤ nextStartMs
    · simp [classifyEndOverlap, hle]
    · cases nextHull with
      | none => simp [classifyEndOverlap, hle]
      | some t =>
        by_cases het : e ≤ t
        · have hiff := h e t rfl rfl (by omega) het
          rw [classifyEndOverlap_disjoint (by omega) het, classifyEndOverlap_disjoint (by omega) het]
          simp only [hiff]
        · simp [classifyEndOverlap, hle, het]

theorem keepingPrevEnd_room {keptEndMs nextEndMs : ℕ} (hull : Option ℕ) {successor : Option ℕ}
    (hlt : keptEndMs < nextEndMs) (hadm : Admits keptEndMs successor) :
    KeptEndYield.keepingPrevEnd keptEndMs nextEndMs hull successor ≠ .strip := by
  have hif : KeptEndYield.keepingPrevEnd keptEndMs nextEndMs hull successor =
      KeptEndYield.keepingPrevEnd keptEndMs nextEndMs hull none := by
    cases successor with
    | none => rfl
    | some c => simp [KeptEndYield.keepingPrevEnd, Nat.not_lt.mpr (hadm c rfl)]
  rw [hif]
  cases hull with
  | none => simp [KeptEndYield.keepingPrevEnd, hlt]
  | some t =>
    simp only [KeptEndYield.keepingPrevEnd, hlt, true_and, if_true]
    split_ifs <;> simp

theorem keepingPrevEnd_eq_strip_iff {keptEndMs nextEndMs : ℕ} {hull successor : Option ℕ} :
    KeptEndYield.keepingPrevEnd keptEndMs nextEndMs hull successor = .strip ↔
      ¬ (keptEndMs < nextEndMs ∧ Admits keptEndMs successor) := by
  constructor
  · intro hstrip hroom
    exact keepingPrevEnd_room hull hroom.1 hroom.2 hstrip
  · intro hroom
    by_contra hne
    exact hroom (keepingPrevEnd_ne_strip hne)

theorem yieldNext_eq (kept : KeptBullet) (successor : Option ℕ) : yieldNext W successor kept n nb =
      if kept.endMs < nb.endMs ∧ Admits kept.endMs successor then (raiseBulletStart W n kept.endMs).1
      else (stripUtteranceTiming W n).1 := by
  unfold yieldNext
  by_cases hroom : kept.endMs < nb.endMs ∧ Admits kept.endMs successor
  · rw [if_pos hroom]
    have hne : KeptEndYield.keepingPrevEnd kept.endMs nb.endMs (earliestWordTimingStart W n)
        successor ≠ .strip := fun hs => keepingPrevEnd_eq_strip_iff.mp hs hroom
    split
    · next hs => exact absurd hs hne
    · rfl
  · rw [if_neg hroom, keepingPrevEnd_eq_strip_iff.mpr hroom]

theorem pairOutcome_congr (hp : p.parsedBullet = some pb) (hn : n.parsedBullet = some nb)
    (h : ∀ least, leastSuccessor W authority pair p n pb nb = some least →
      (Admits least a ↔ Admits least b)) :
    pairOutcome W authority pair a p n = pairOutcome W authority pair b p n := by
  unfold leastSuccessor at h
  simp only [pairOutcome, hp, hn]
  by_cases hover : pb.endMs ≤ nb.startMs
  · rw [if_pos hover, if_pos hover]
  · rw [if_neg hover, if_neg hover]
    cases hsp : authority.standing pair.prevUtteranceIdx with
    | revisable =>
      cases hsn : authority.standing pair.nextUtteranceIdx with
      | revisable =>
        simp only [hsp, hsn] at h ⊢
        unfold cutPrev
        by_cases hstart : nb.startMs ≤ pb.startMs
        · rw [if_pos hstart, if_pos hstart]
        · congr 2
          apply classifyEndOverlap_congr
          intro e t he ht hlt hle
          apply h
          simp only [he, ht]
          rw [if_pos ⟨by omega, hlt, hle⟩]
      | readOnly kept =>
        -- a kept next bullet never moves
        simp only
        unfold cutPrev
        by_cases hstart : nb.startMs ≤ pb.startMs
        · rw [if_pos hstart, if_pos hstart]
        · have hsame : ∀ hull nextHull, NextStart.kept.admit (classifyEndOverlap hull nb.startMs
              nextHull a) = NextStart.kept.admit (classifyEndOverlap hull nb.startMs nextHull b) := by
            intro hull nextHull
            cases hull with
            | none => rfl
            | some e =>
              by_cases hle : e ≤ nb.startMs
              · simp [classifyEndOverlap, hle]
              · cases nextHull with
                | none => simp [classifyEndOverlap, hle]
                | some t =>
                  simp only [classifyEndOverlap, hle, if_false, NextStart.admit]
                  split_ifs <;> rfl
          rw [hsame]
    | readOnly kept =>
      cases hsn : authority.standing pair.nextUtteranceIdx with
      | revisable =>
        simp only [hsp, hsn] at h ⊢
        rw [yieldNext_eq, yieldNext_eq]
        by_cases hroom : kept.endMs < nb.endMs
        · have hiff := h kept.endMs (if_pos hroom)
          simp only [hiff]
        · simp [hroom]
      | readOnly kept' => rfl

theorem pairOutcome_differ (hp : p.parsedBullet = some pb) (hn : n.parsedBullet = some nb)
    (hover : nb.startMs < pb.endMs) (hleast : leastSuccessor W authority pair p n pb nb = some least)
    (ha : Admits least a) (hb : ¬ Admits least b) :
    (pairOutcome W authority pair a p n).1 ≠ (pairOutcome W authority pair b p n).1 ∨
      ∃ kept, authority.standing pair.prevUtteranceIdx = .readOnly kept ∧
        authority.standing pair.nextUtteranceIdx = .revisable ∧ kept.endMs < nb.endMs ∧
        pairOutcome W authority pair a p n = (p, (raiseBulletStart W n kept.endMs).1) ∧
        pairOutcome W authority pair b p n = (p, (stripUtteranceTiming W n).1) := by
  unfold leastSuccessor at hleast
  have hnot : ¬ pb.endMs ≤ nb.startMs := by omega
  simp only [pairOutcome, hp, hn]
  rw [if_neg hnot, if_neg hnot]
  cases hsp : authority.standing pair.prevUtteranceIdx with
  | revisable =>
    cases hsn : authority.standing pair.nextUtteranceIdx with
    | readOnly kept => simp [hsp, hsn] at hleast
    | revisable =>
      left
      simp only [hsp, hsn] at hleast ⊢
      cases he : furthestWordTimingEnd W p with
      | none => simp [he] at hleast
      | some e =>
      cases ht : earliestWordTimingStart W n with
      | none => simp [he, ht] at hleast
      | some t =>
      simp only [he, ht] at hleast
      obtain ⟨⟨hstart, hlt, hle⟩, hleast⟩ := Option.ite_none_right_eq_some.mp hleast
      obtain rfl : t + 1 = least := Option.some.inj hleast
      unfold cutPrev
      rw [if_neg (by omega), if_neg (by omega), he, ht, classifyEndOverlap_disjoint hlt hle,
        classifyEndOverlap_disjoint hlt hle, if_pos ha, if_neg hb]
      -- the bullets end at the hull and at the later start
      intro heq
      have hbullet := congrArg Utterance.parsedBullet heq
      simp only [ NextStart.admit] at hbullet
      rw [parsedBullet_setEnd, parsedBullet_clampWordsPastBound, hp] at hbullet
      simp only [Option.map_some, Option.some.injEq, TimeSpan.mk.injEq, true_and] at hbullet
      omega
  | readOnly kept =>
    cases hsn : authority.standing pair.nextUtteranceIdx with
    | readOnly kept' => simp [hsp, hsn] at hleast
    | revisable =>
      right
      simp only [hsp, hsn] at hleast
      obtain ⟨hroom, hleast⟩ := Option.ite_none_right_eq_some.mp hleast
      obtain rfl : kept.endMs = least := Option.some.inj hleast
      refine ⟨kept, rfl, rfl, hroom, ?_, ?_⟩
      · simp only
        rw [yieldNext_eq, if_pos ⟨hroom, ha⟩]
      · simp only
        rw [yieldNext_eq, if_neg fun h => hb h.2]

theorem pairOutcome_fixed (successor : Option ℕ) : ((pairOutcome W authority pair successor p n).1 = p ∨
      authority.standing pair.prevUtteranceIdx = .revisable) ∧
    ((pairOutcome W authority pair successor p n).2 = n ∨
      authority.standing pair.nextUtteranceIdx = .revisable) := by
  unfold pairOutcome
  cases p.parsedBullet with
  | none => exact ⟨.inl rfl, .inl rfl⟩
  | some pb =>
  cases n.parsedBullet with
  | none => exact ⟨.inl rfl, .inl rfl⟩
  | some nb =>
  simp only
  by_cases hover : pb.endMs ≤ nb.startMs
  · rw [if_pos hover]
    exact ⟨.inl rfl, .inl rfl⟩
  · rw [if_neg hover]
    cases authority.standing pair.prevUtteranceIdx with
    | revisable =>
      cases authority.standing pair.nextUtteranceIdx with
      | revisable => exact ⟨.inr rfl, .inr rfl⟩
      | readOnly kept =>
        refine ⟨.inr rfl, .inl ?_⟩
        simp only [cutPrev]
        split_ifs
        · rfl
        · cases classifyEndOverlap (furthestWordTimingEnd W p) nb.startMs
            (earliestWordTimingStart W n) successor <;> rfl
    | readOnly kept =>
      cases authority.standing pair.nextUtteranceIdx with
      | revisable => exact ⟨.inl rfl, .inr rfl⟩
      | readOnly kept' => exact ⟨.inl rfl, .inl rfl⟩

theorem pairOutcome_unbulleted (h : p.parsedBullet = none ∨ n.parsedBullet = none)
    (successor : Option ℕ) : pairOutcome W authority pair successor p n = (p, n) := by
  unfold pairOutcome
  rcases h with h | h
  · rw [h]
  · rw [h]
    cases p.parsedBullet <;> rfl

end GuardLemmas

end Batchalign.Fa
