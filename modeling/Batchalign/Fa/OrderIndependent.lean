import Batchalign.Fa.Enforcement
import Batchalign.Fa.SpeakerOrder

/- When the sweep may visit the speakers in any order. Every run is compared, on a speaker's lines, with
   the run of that speaker's pairs alone. They agree as long as each guard sees a successor start on the
   same side of its bound, and only then. -/
namespace Batchalign.Fa
open List

/-! ## The pairs of an order -/

structure Apart (x y : String × OverlapPairIdentity) : Prop where
  prev_prev : x.2.prevLineIdx ≠ y.2.prevLineIdx
  next_next : x.2.nextLineIdx ≠ y.2.nextLineIdx
  prev_next : x.2.prevLineIdx ≠ y.2.nextLineIdx
  ordered : x.1 = y.1 → x.2.nextLineIdx ≤ y.2.prevLineIdx

structure Listed (given : ChatFile) (x : String × OverlapPairIdentity) : Prop where
  ok : PairOk (utteranceOrdinal given) x.2
  prev : ∃ u, getUtterance given x.2.prevLineIdx = some u ∧ u.speaker = x.1
  next : ∃ u, getUtterance given x.2.nextLineIdx = some u ∧ u.speaker = x.1

def streamOf (lines : List TimedLine) (speaker : String) : List (String × OverlapPairIdentity) :=
  (windows (lines.filter fun line => line.speaker == speaker)).map fun (prev, next) =>
    prev.pairWith next

section Orders
variable {given : ChatFile} {order : List String} {speaker : String}

theorem streamPairsIn_eq (order : List String) (lines : List TimedLine) :
    streamPairsIn order lines = order.flatMap (streamOf lines) := rfl

theorem windows_apart {lines : List TimedLine}
    (hsorted : lines.Pairwise fun a b => a.lineIdx < b.lineIdx) :
    (windows lines).Pairwise fun p q => p.2.lineIdx ≤ q.1.lineIdx := by
  induction lines with
  | nil => simp [windows]
  | cons x lines ih =>
    obtain ⟨_, hsorted⟩ := pairwise_cons.mp hsorted
    cases lines with
    | nil => simp [windows]
    | cons y lines =>
      refine pairwise_cons.mpr ⟨?_, ih hsorted⟩
      intro q hq
      obtain ⟨a, b⟩ := q
      rcases mem_cons.mp (mem_windows hq).1 with hay | ha
      · rw [hay]
      · exact le_of_lt ((pairwise_cons.mp hsorted).1 a ha)

theorem streamOf_listed {x : String × OverlapPairIdentity}
    (hx : x ∈ streamOf (timedLines given) speaker) : Listed given x ∧ x.1 = speaker := by
  obtain ⟨⟨a, b⟩, hab, rfl⟩ := mem_map.mp hx
  obtain ⟨ha, hb⟩ := mem_windows hab
  obtain ⟨ha, has⟩ := mem_filter.mp ha
  obtain ⟨hb, hbs⟩ := mem_filter.mp hb
  obtain ⟨u, hu, _, hus, _⟩ := mem_timedLines.mp ha
  obtain ⟨v, hv, _, hvs, _⟩ := mem_timedLines.mp hb
  have hsame : b.speaker = speaker := beq_iff_eq.mp hbs
  refine ⟨⟨pairWith_ok (fun _ => rfl) filter_sublist hab, ⟨u, hu, ?_⟩, ⟨v, hv, hvs.symm⟩⟩, hsame⟩
  rw [← hus, beq_iff_eq.mp has]
  exact hsame.symm

theorem streamPairsIn_listed : ∀ x ∈ streamPairsIn order (timedLines given), Listed given x := by
  intro x hx
  obtain ⟨speaker, _, hx⟩ := mem_flatMap.mp hx
  exact (streamOf_listed hx).1

theorem Listed.disjoint {x y : String × OverlapPairIdentity} (hx : Listed given x)
    (hy : Listed given y) (hne : x.1 ≠ y.1) : Apart x y := by
  obtain ⟨_, ⟨p, hp, hps⟩, ⟨n, hn, hns⟩⟩ := hx
  obtain ⟨_, ⟨q, hq, hqs⟩, ⟨m, hm, hms⟩⟩ := hy
  refine ⟨?_, ?_, ?_, fun heq => absurd heq hne⟩
  · intro heq
    rw [heq, hq, Option.some.injEq] at hp
    exact hne (by rw [← hps, ← hp, hqs])
  · intro heq
    rw [heq, hm, Option.some.injEq] at hn
    exact hne (by rw [← hns, ← hn, hms])
  · intro heq
    rw [heq, hm, Option.some.injEq] at hp
    exact hne (by rw [← hps, ← hp, hms])

theorem streamPairsIn_apart (hnodup : order.Nodup) :
    (streamPairsIn order (timedLines given)).Pairwise Apart := by
  rw [streamPairsIn_eq, pairwise_flatMap]
  refine ⟨?_, ?_⟩
  · intro speaker _
    have hsorted := (timedLines_sorted given).sublist
      (filter_sublist (p := fun line => line.speaker == speaker))
    rw [streamOf, pairwise_map]
    refine (windows_apart hsorted).imp_of_mem ?_
    intro p q hp hq hle
    have hp' := windows_pairwise hsorted hp
    have hq' := windows_pairwise hsorted hq
    refine ⟨?_, ?_, ?_, fun _ => hle⟩
    · change p.1.lineIdx ≠ q.1.lineIdx
      omega
    · change p.2.lineIdx ≠ q.2.lineIdx
      omega
    · change p.1.lineIdx ≠ q.2.lineIdx
      omega
  · refine hnodup.imp ?_
    intro s t hst x hx y hy
    obtain ⟨hlx, hx⟩ := streamOf_listed hx
    obtain ⟨hly, hy⟩ := streamOf_listed hy
    exact hlx.disjoint hly (by rw [hx, hy]; exact hst)

theorem filter_streamPairsIn (hnodup : order.Nodup) (hmem : speaker ∈ order) :
    (streamPairsIn order (timedLines given)).filter (fun x => x.1 == speaker) =
      streamOf (timedLines given) speaker := by
  rw [streamPairsIn_eq, filter_flatMap]
  have hstream : ∀ s, (streamOf (timedLines given) s).filter (fun x => x.1 == speaker) =
      if s = speaker then streamOf (timedLines given) s else [] := by
    intro s
    by_cases hs : s = speaker
    · rw [if_pos hs]
      refine filter_eq_self.mpr ?_
      intro x hx
      rw [(streamOf_listed hx).2, hs]
      exact beq_self_eq_true speaker
    · rw [if_neg hs]
      refine filter_eq_nil_iff.mpr ?_
      intro x hx
      rw [(streamOf_listed hx).2]
      simpa using hs
  simp only [hstream]
  induction order with
  | nil => simp at hmem
  | cons s order ih =>
    obtain ⟨hs, hnodup⟩ := nodup_cons.mp hnodup
    rw [flatMap_cons]
    by_cases heq : s = speaker
    · have hrest : order.flatMap (fun s => if s = speaker then streamOf (timedLines given) s else []) =
          [] := by
        refine flatMap_eq_nil_iff.mpr ?_
        intro t ht
        exact if_neg (by rintro rfl; exact hs (heq ▸ ht))
      rw [if_pos heq, hrest, append_nil, heq]
    · rw [if_neg heq, nil_append]
      exact ih hnodup ((mem_cons.mp hmem).resolve_left (Ne.symm heq))

end Orders

/-! ## One run -/

/-- The file has the lines of the given one: headers as they stand, utterances rewritten. -/
def Rewritten (given file : ChatFile) : Prop :=
  ∀ i, (getUtterance given i = none → file[i]? = given[i]?) ∧
    ((getUtterance given i).isSome → (getUtterance file i).isSome)

/-- A run in progress over pairs of the given file, with `rem` still to come. -/
structure Underway (authority : MainBulletAuthority) (given : ChatFile) (t : PassState)
    (rem : List (String × OverlapPairIdentity)) : Prop where
  accepted : Accepted authority (utteranceOrdinal given) t.file
  rewritten : Rewritten given t.file
  listed : ∀ y ∈ rem, Listed given y
  apart : rem.Pairwise Apart
  /-- the later line of a pair to come is as it was given -/
  fresh : ∀ y ∈ rem, getUtterance t.file y.2.nextLineIdx = getUtterance given y.2.nextLineIdx

variable {k : ℕ}

section Files
variable {given file : ChatFile} {i : ℕ}

theorem getUtterance_writePair (file : ChatFile) (pair : OverlapPairIdentity)
    (hne : pair.prevLineIdx ≠ pair.nextLineIdx) (outcome : Utterance × Utterance) (k : ℕ) :
    getUtterance (writePair file pair outcome) k =
      if k = pair.prevLineIdx then (getUtterance file k).map fun _ => outcome.1
      else if k = pair.nextLineIdx then (getUtterance file k).map fun _ => outcome.2
      else getUtterance file k := by
  rw [writePair, getUtterance_modifyUtterance, getUtterance_modifyUtterance]
  by_cases hp : k = pair.prevLineIdx
  · subst hp
    rw [if_neg (Ne.symm hne), if_pos rfl, if_pos rfl]
  · rw [if_neg (Ne.symm hp), if_neg hp]
    simp only [eq_comm]

theorem getElem?_modifyUtterance_header {file : ChatFile} {i : ℕ} {f : Utterance → Utterance}
    (h : getUtterance file k = none) : (modifyUtterance file i f)[k]? = file[k]? := by
  rw [modifyUtterance, getElem?_modify]
  by_cases hik : i = k
  · subst hik
    cases hline : file[i]? with
    | none => simp
    | some line =>
      cases line with
      | header text => simp [Line.mapUtterance]
      | utterance u => simp [getUtterance, hline, Line.utterance?] at h
  · simp [hik]

theorem Rewritten.refl (given : ChatFile) : Rewritten given given :=
  fun _ => ⟨fun _ => rfl, id⟩

theorem Rewritten.none (h : Rewritten given file) (hi : getUtterance given i = none) :
    getUtterance file i = none := by
  rw [getUtterance, (h i).1 hi]
  exact hi

theorem Rewritten.writePair (h : Rewritten given file) (pair : OverlapPairIdentity)
    (hne : pair.prevLineIdx ≠ pair.nextLineIdx) (outcome : Utterance × Utterance) :
    Rewritten given (writePair file pair outcome) := by
  intro i
  refine ⟨?_, ?_⟩
  · intro hi
    have hfile := h.none hi
    rw [Batchalign.Fa.writePair, getElem?_modifyUtterance_header,
      getElem?_modifyUtterance_header hfile, (h i).1 hi]
    rw [getUtterance_modifyUtterance, hfile]
    simp
  · intro hi
    rw [getUtterance_writePair _ _ hne]
    split_ifs <;> simp [(h i).2 hi]

theorem Rewritten.file_eq {file' : ChatFile} (h : Rewritten given file) (h' : Rewritten given file')
    (heq : ∀ i u, getUtterance given i = some u → getUtterance file i = getUtterance file' i) :
    file = file' := by
  apply ext_getElem?
  intro i
  cases hi : getUtterance given i with
  | none => rw [(h i).1 hi, (h' i).1 hi]
  | some u =>
    have hline : ∀ g : ChatFile, (getUtterance g i).isSome →
        g[i]? = (getUtterance g i).map Line.utterance := by
      intro g hg
      obtain ⟨v, hv⟩ := Option.isSome_iff_exists.mp hg
      obtain ⟨line, hl, hlv⟩ := Option.bind_eq_some_iff.mp hv
      cases line with
      | header text => simp [Line.utterance?] at hlv
      | utterance w =>
        obtain rfl : w = v := Option.some.inj hlv
        rw [hl, hv]
        rfl
    rw [hline file ((h i).2 (by simp [hi])), hline file' ((h' i).2 (by simp [hi])), heq i u hi]

theorem fileOrderSuccessorStartMs_congr {file' : ChatFile}
    (h : ∀ k, i < k → getUtterance file k = getUtterance file' k) :
    fileOrderSuccessorStartMs file i = fileOrderSuccessorStartMs file' i := by
  have hbullet : ∀ k, i < k → bulletAt file k = bulletAt file' k := by
    intro k hk
    rw [bulletAt, bulletAt, h k hk]
  cases hf : fileOrderSuccessorStartMs file i with
  | none =>
    cases hg : fileOrderSuccessorStartMs file' i with
    | none => rfl
    | some t =>
      obtain ⟨q, d, hiq, hq, _, _⟩ := fileOrderSuccessorStartMs_some hg
      rw [← hbullet q hiq, fileOrderSuccessorStartMs_none hf q hiq] at hq
      simp at hq
  | some t =>
    obtain ⟨q, d, hiq, hq, rfl, hmin⟩ := fileOrderSuccessorStartMs_some hf
    cases hg : fileOrderSuccessorStartMs file' i with
    | none =>
      rw [hbullet q hiq, fileOrderSuccessorStartMs_none hg q hiq] at hq
      simp at hq
    | some t' =>
      obtain ⟨q', d', hiq', hq', rfl, hmin'⟩ := fileOrderSuccessorStartMs_some hg
      rcases lt_trichotomy q q' with hlt | heq | hgt
      · rw [hbullet q hiq, hmin' q hiq hlt] at hq
        simp at hq
      · subst heq
        rw [hbullet q hiq, hq', Option.some.injEq] at hq
        rw [hq]
      · rw [← hbullet q' hiq', hmin q' hiq' hgt] at hq'
        simp at hq'

end Files

variable {pair : OverlapPairIdentity}

section Step
variable {W : ContentWalker} {authority : MainBulletAuthority} {given : ChatFile}
  {t t' : PassState} {x y : String × OverlapPairIdentity} {rem : List (String × OverlapPairIdentity)}

structure Stepped (W : ContentWalker) (authority : MainBulletAuthority) (given : ChatFile)
    (t : PassState) (x : String × OverlapPairIdentity) (t' : PassState) (p n : Utterance) : Prop where
  prev : getUtterance t.file x.2.prevLineIdx = some p
  next : getUtterance t.file x.2.nextLineIdx = some n
  next_given : getUtterance given x.2.nextLineIdx = some n
  prev_after : getUtterance t'.file x.2.prevLineIdx = some (pairOutcome W authority x.2
    (fileOrderSuccessorStartMs t.file x.2.nextLineIdx) p n).1
  next_after : getUtterance t'.file x.2.nextLineIdx = some (pairOutcome W authority x.2
    (fileOrderSuccessorStartMs t.file x.2.nextLineIdx) p n).2
  elsewhere : ∀ k, k ≠ x.2.prevLineIdx → k ≠ x.2.nextLineIdx →
    getUtterance t'.file k = getUtterance t.file k

theorem Accepted.writePair {ord : ℕ → ℕ} {file : ChatFile}
    {p n : Utterance} (h : Accepted authority ord file) (hpair : PairOk ord pair)
    (hp : getUtterance file pair.prevLineIdx = some p)
    (hn : getUtterance file pair.nextLineIdx = some n) (successor : Option ℕ) :
    Accepted authority ord (writePair file pair (pairOutcome W authority pair successor p n)) := by
  have hne : pair.prevLineIdx ≠ pair.nextLineIdx := ne_of_lt hpair.before
  cases hpb : p.parsedBullet with
  | none => rw [pairOutcome_unbulleted (.inl hpb), writePair_same hp hn]; exact h
  | some pb =>
  cases hnb : n.parsedBullet with
  | none => rw [pairOutcome_unbulleted (.inr hnb), writePair_same hp hn]; exact h
  | some nb =>
  obtain ⟨hprev, hnext⟩ := @pairOutcome_fixed W authority pair p n successor
  generalize pairOutcome W authority pair successor p n = out at hprev hnext
  obtain ⟨w, v⟩ := out
  have hfirst : Accepted authority ord (modifyUtterance file pair.prevLineIdx fun _ => w) := by
    rcases hprev with hsame | hrev
    · rw [show w = p from hsame, modifyUtterance_self hp]
      exact h
    · refine h.edit hp hpb ?_
      rw [← hpair.prev_ordinal]
      exact MainBulletAuthority.standing_revisable hrev
  have hn' : getUtterance (modifyUtterance file pair.prevLineIdx fun _ => w) pair.nextLineIdx =
      some n := by
    rw [getUtterance_modifyUtterance_ne hne]
    exact hn
  rcases hnext with hsame | hrev
  · rw [show v = n from hsame, Batchalign.Fa.writePair, modifyUtterance_self hn']
    exact hfirst
  · refine hfirst.edit hn' hnb ?_
    rw [← hpair.next_ordinal]
    exact MainBulletAuthority.standing_revisable hrev

theorem Underway.step (h : Underway authority given t (x :: rem)) :
    ∃ t' p n, resolveListed W authority t x = .ok t' ∧ Stepped W authority given t x t' p n ∧
      Underway authority given t' rem := by
  have hx := h.listed x mem_cons_self
  have hne : x.2.prevLineIdx ≠ x.2.nextLineIdx := ne_of_lt hx.ok.before
  obtain ⟨u, hu, _⟩ := hx.prev
  obtain ⟨n, hn, _⟩ := hx.next
  obtain ⟨p, hp⟩ := Option.isSome_iff_exists.mp ((h.rewritten x.2.prevLineIdx).2 (by simp [hu]))
  have hnt : getUtterance t.file x.2.nextLineIdx = some n := by
    rw [h.fresh x mem_cons_self]
    exact hn
  obtain ⟨t', hok, hfile⟩ := resolveListed_outcome (W := W) h.accepted hx.ok hp hnt x.1
  have hlines := getUtterance_writePair t.file x.2 hne (pairOutcome W authority x.2
    (fileOrderSuccessorStartMs t.file x.2.nextLineIdx) p n)
  rw [← hfile] at hlines
  have helse : ∀ k, k ≠ x.2.prevLineIdx → k ≠ x.2.nextLineIdx →
      getUtterance t'.file k = getUtterance t.file k := by
    intro k hkp hkn
    rw [hlines, if_neg hkp, if_neg hkn]
  obtain ⟨hapart, hrest⟩ := pairwise_cons.mp h.apart
  refine ⟨t', p, n, hok, ⟨hp, hnt, hn, ?_, ?_, helse⟩, ?_, ?_, ?_, hrest, ?_⟩
  · rw [hlines, if_pos rfl, hp]
    rfl
  · rw [hlines, if_neg (Ne.symm hne), if_pos rfl, hnt]
    rfl
  · rw [hfile]
    exact h.accepted.writePair hx.ok hp hnt _
  · rw [hfile]
    exact h.rewritten.writePair x.2 hne _
  · intro y hy
    exact h.listed y (mem_cons_of_mem x hy)
  · intro y hy
    have hxy := hapart y hy
    rw [helse _ (Ne.symm hxy.prev_next) (Ne.symm hxy.next_next)]
    exact h.fresh y (mem_cons_of_mem x hy)

section
variable (h : Underway authority given t rem)
include h

theorem Underway.completes :
    ∃ t', resolvePairs W authority t rem = .ok t' ∧ Underway authority given t' [] := by
  apply Sweep.sweep_invariant (I := Underway authority given) _ rem t h
  intro t x rem h
  obtain ⟨t', _, _, hok, _, h'⟩ := h.step (W := W)
  exact ⟨t', hok, h'⟩

theorem Underway.line_kept (hk : ∀ y ∈ rem, k ≠ y.2.prevLineIdx ∧ k ≠ y.2.nextLineIdx)
    (hrun : resolvePairs W authority t rem = .ok t') :
    getUtterance t'.file k = getUtterance t.file k := by
  induction rem generalizing t with
  | nil => rw [Except.ok.inj hrun]
  | cons x rem ih =>
    obtain ⟨t1, p, n, hok, hstep, h1⟩ := h.step (W := W)
    have hrun1 : resolvePairs W authority t1 rem = .ok t' := by
      rw [← hrun]
      exact (Sweep.run_cons_ok hok).symm
    rw [ih h1 (fun y hy => hk y (mem_cons_of_mem x hy)) hrun1]
    exact hstep.elsewhere k (hk x mem_cons_self).1 (hk x mem_cons_self).2

theorem Underway.line_prev {u : Utterance} (hy : y ∈ rem)
    (hu : getUtterance t.file y.2.prevLineIdx = some u)
    (hk : ∀ z ∈ rem, y.2.prevLineIdx ≠ z.2.nextLineIdx) (hrun : resolvePairs W authority t rem = .ok t') :
    ∃ successor m, getUtterance given y.2.nextLineIdx = some m ∧ getUtterance t'.file y.2.prevLineIdx =
        some (pairOutcome W authority y.2 successor u m).1 := by
  induction rem generalizing t with
  | nil => simp at hy
  | cons x rem ih =>
    obtain ⟨t1, p, n, hok, hstep, h1⟩ := h.step (W := W)
    have hrun1 : resolvePairs W authority t1 rem = .ok t' := by
      rw [← hrun]
      exact (Sweep.run_cons_ok hok).symm
    have hrest : ∀ z ∈ rem, y.2.prevLineIdx ≠ z.2.nextLineIdx :=
      fun z hz => hk z (mem_cons_of_mem x hz)
    obtain ⟨hapart, _⟩ := pairwise_cons.mp h.apart
    rcases mem_cons.mp hy with heq | hy
    · subst heq
      have hfinal := h1.line_kept (W := W) (k := y.2.prevLineIdx)
        (fun z hz => ⟨(hapart z hz).prev_prev, hrest z hz⟩) hrun1
      obtain rfl : p = u := Option.some.inj (hstep.prev.symm.trans hu)
      exact ⟨_, n, hstep.next_given, hfinal.trans hstep.prev_after⟩
    · refine ih h1 hy ?_ hrest hrun1
      rw [hstep.elsewhere _ (Ne.symm (hapart y hy).prev_prev) (hk x mem_cons_self)]
      exact hu

end

end Step

/-! ## The guard -/

section Guard
variable (W : ContentWalker) (authority : MainBulletAuthority) (given : ChatFile)

/-- Whether the pair strips or raises the later utterance, the pair after this one strips it. -/
structure Absorbed (x : String × OverlapPairIdentity) (n : Utterance) (keptEndMs : ℕ) : Prop where
  follower : ∃ y ∈ streamPairs (timedLines given), y.2.prevLineIdx = x.2.nextLineIdx ∧
    ∃ m mb, getUtterance given y.2.nextLineIdx = some m ∧ m.parsedBullet = some mb ∧
      mb.startMs ≤ keptEndMs
  same : (stripUtteranceTiming W (raiseBulletStart W n keptEndMs).1).1 = (stripUtteranceTiming W n).1

/-- The successor's start, live and in the given file, is on one side of what a pair asks. -/
def GuardAlike (t : PassState) (x : String × OverlapPairIdentity) : Prop :=
  ∀ p n pb nb, LiveOverlap t.file x.2 p n pb nb →
    ∀ least, leastSuccessor W authority x.2 p n pb nb = some least →
      (Admits least (fileOrderSuccessorStartMs t.file x.2.nextLineIdx) ↔
        Admits least (fileOrderSuccessorStartMs given x.2.nextLineIdx)) ∨
      ∃ kept, authority.standing x.2.prevUtteranceIdx = .readOnly kept ∧
        Absorbed W given x n kept.endMs

/-- A line without a bullet next to one the bullet `mb` of the follower is about to strip. -/
structure Dropped (mb : TimeSpan) (z w : Utterance) : Prop where
  unbulleted : z.parsedBullet = none
  bulleted : ∃ wb, w.parsedBullet = some wb ∧ mb.startMs ≤ wb.startMs ∧ mb.startMs < wb.endMs
  same : (stripUtteranceTiming W w).1 = z

/-- Two versions of a line that the pair `y` makes one. -/
def Lagging (y : String × OverlapPairIdentity) (u v : Utterance) : Prop :=
  authority.standing y.2.prevUtteranceIdx = .revisable ∧
    ∃ m mb, getUtterance given y.2.nextLineIdx = some m ∧ m.parsedBullet = some mb ∧
      (Dropped W mb u v ∨ Dropped W mb v u)

end Guard

section Outcomes
variable {W : ContentWalker} {authority : MainBulletAuthority} {given : ChatFile} {t : PassState}
  {x : String × OverlapPairIdentity} {p n m z w u v : Utterance} {mb : TimeSpan}

theorem parsedBullet_stripUtteranceTiming (W : ContentWalker) (u : Utterance) :
    (stripUtteranceTiming W u).1.parsedBullet = none := by
  rfl

theorem pairOutcome_apart {pb nb : TimeSpan}
    (hp : p.parsedBullet = some pb) (hn : n.parsedBullet = some nb) (hle : pb.endMs ≤ nb.startMs)
    (successor : Option ℕ) : pairOutcome W authority pair successor p n = (p, n) := by
  simp only [pairOutcome, hp, hn]
  exact if_pos hle

theorem Dropped.settle (h : Dropped W mb z w)
    (hm : m.parsedBullet = some mb) (hrev : authority.standing pair.prevUtteranceIdx = .revisable)
    (successor : Option ℕ) : pairOutcome W authority pair successor w m = (z, m) := by
  obtain ⟨wb, hwb, hstart, hend⟩ := h.bulleted
  simp only [pairOutcome, hwb, hm, hrev]
  rw [if_neg (by omega)]
  cases authority.standing pair.nextUtteranceIdx with
  | revisable =>
    simp only [cutPrev]
    rw [if_pos hstart, h.same]
  | readOnly kept =>
    simp only [cutPrev]
    rw [if_pos hstart, h.same]

theorem Lagging.settle (h : Lagging W authority given x u v)
    (hm : getUtterance given x.2.nextLineIdx = some m) (a b : Option ℕ) :
    pairOutcome W authority x.2 a u m = pairOutcome W authority x.2 b v m := by
  obtain ⟨hrev, m', mb, hm', hmb, hdrop⟩ := h
  obtain rfl : m' = m := Option.some.inj (hm'.symm.trans hm)
  rcases hdrop with hdrop | hdrop
  · rw [hdrop.settle hmb hrev, pairOutcome_unbulleted (.inl hdrop.unbulleted)]
  · rw [hdrop.settle hmb hrev, pairOutcome_unbulleted (.inl hdrop.unbulleted)]

theorem GuardAlike.outcome (hg : GuardAlike W authority given t x)
    (hp : getUtterance t.file x.2.prevLineIdx = some p)
    (hn : getUtterance t.file x.2.nextLineIdx = some n) :
    pairOutcome W authority x.2 (fileOrderSuccessorStartMs t.file x.2.nextLineIdx) p n =
        pairOutcome W authority x.2 (fileOrderSuccessorStartMs given x.2.nextLineIdx) p n ∨
      ∃ (kept : KeptBullet) (nb : TimeSpan), n.parsedBullet = some nb ∧ kept.endMs < nb.endMs ∧
        authority.standing x.2.nextUtteranceIdx = .revisable ∧ Absorbed W given x n kept.endMs ∧
        ∃ c d, pairOutcome W authority x.2 (fileOrderSuccessorStartMs t.file x.2.nextLineIdx) p n =
            (p, c) ∧
          pairOutcome W authority x.2 (fileOrderSuccessorStartMs given x.2.nextLineIdx) p n = (p, d) ∧
          (c = (raiseBulletStart W n kept.endMs).1 ∧ d = (stripUtteranceTiming W n).1 ∨
            c = (stripUtteranceTiming W n).1 ∧ d = (raiseBulletStart W n kept.endMs).1) := by
  generalize ha : fileOrderSuccessorStartMs t.file x.2.nextLineIdx = a
  generalize hb : fileOrderSuccessorStartMs given x.2.nextLineIdx = b
  cases hpb : p.parsedBullet with
  | none =>
    left
    rw [pairOutcome_unbulleted (.inl hpb), pairOutcome_unbulleted (.inl hpb)]
  | some pb =>
  cases hnb : n.parsedBullet with
  | none =>
    left
    rw [pairOutcome_unbulleted (.inr hnb), pairOutcome_unbulleted (.inr hnb)]
  | some nb =>
  by_cases hover : pb.endMs ≤ nb.startMs
  · left
    rw [pairOutcome_apart hpb hnb hover, pairOutcome_apart hpb hnb hover]
  · by_cases hsame : ∀ least, leastSuccessor W authority x.2 p n pb nb = some least →
        (Admits least a ↔ Admits least b)
    · left
      exact pairOutcome_congr hpb hnb hsame
    · right
      push Not at hsame
      obtain ⟨least, hleast, hdiff⟩ := hsame
      rcases hg p n pb nb ⟨hp, hpb, hn, hnb, by omega⟩ least hleast with hiff | ⟨kept, hkept, habs⟩
      · rw [ha, hb] at hiff
        exact absurd hiff (by tauto)
      · -- next to a kept line only the later utterance changes
        have hprev : ∀ successor, (pairOutcome W authority x.2 successor p n).1 = p := by
          intro successor
          rcases (pairOutcome_fixed (W := W) successor).1 with h | h
          · exact h
          · rw [hkept] at h
            simp at h
        refine ⟨kept, nb, rfl, ?_⟩
        rcases hdiff with ⟨hadm, hnot⟩ | ⟨hnot, hadm⟩
        · rcases pairOutcome_differ hpb hnb (by omega) hleast hadm hnot with h | h
          · exact absurd ((hprev a).trans (hprev b).symm) h
          · obtain ⟨kept', hkept', hrev, hroom, houtA, houtB⟩ := h
            obtain rfl : kept' = kept := by
              rw [hkept] at hkept'
              exact (BulletMutability.readOnly.inj hkept').symm
            exact ⟨hroom, hrev, habs, _, _, houtA, houtB, .inl ⟨rfl, rfl⟩⟩
        · rcases pairOutcome_differ hpb hnb (by omega) hleast hadm hnot with h | h
          · exact absurd ((hprev b).trans (hprev a).symm) h
          · obtain ⟨kept', hkept', hrev, hroom, houtB, houtA⟩ := h
            obtain rfl : kept' = kept := by
              rw [hkept] at hkept'
              exact (BulletMutability.readOnly.inj hkept').symm
            exact ⟨hroom, hrev, habs, _, _, houtA, houtB, .inr ⟨rfl, rfl⟩⟩

theorem Absorbed.dropped {keptEndMs : ℕ} {nb : TimeSpan} (habs : Absorbed W given x n keptEndMs)
    (hnb : n.parsedBullet = some nb) (hroom : keptEndMs < nb.endMs) :
    ∃ y ∈ streamPairs (timedLines given), y.2.prevLineIdx = x.2.nextLineIdx ∧
      ∃ m mb, getUtterance given y.2.nextLineIdx = some m ∧ m.parsedBullet = some mb ∧
        Dropped W mb (stripUtteranceTiming W n).1 (raiseBulletStart W n keptEndMs).1 := by
  obtain ⟨y, hy, hyx, m, mb, hm, hmb, hle⟩ := habs.follower
  refine ⟨y, hy, hyx, m, mb, hm, hmb, parsedBullet_stripUtteranceTiming W n, ?_, habs.same⟩
  refine ⟨⟨keptEndMs, nb.endMs⟩, by rw [parsedBullet_raiseBulletStart, hnb]; rfl, hle, ?_⟩
  change mb.startMs < nb.endMs
  omega

end Outcomes

/-! ## Against the reference run -/

/-- On the speaker's lines the run `t` over all pairs keeps up with `r` over the speaker's own. -/
structure Tracks (W : ContentWalker) (authority : MainBulletAuthority) (given : ChatFile)
    (speaker : String) (t r : PassState) (rem : List (String × OverlapPairIdentity)) : Prop where
  live : Underway authority given t rem
  reference : Underway authority given r (rem.filter fun y => y.1 == speaker)
  ahead : ∀ y ∈ rem, y.1 = speaker → ∀ k, y.2.prevLineIdx < k →
    getUtterance r.file k = getUtterance given k
  agree : ∀ k u, getUtterance given k = some u → u.speaker = speaker →
    getUtterance t.file k = getUtterance r.file k ∨ ∃ y ∈ rem, y.1 = speaker ∧ y.2.prevLineIdx = k ∧
        ∃ a b, getUtterance t.file k = some a ∧ getUtterance r.file k = some b ∧
          Lagging W authority given y a b
  /-- the pair after a pair to come is still to come -/
  followed : ∀ x ∈ rem, ∀ y ∈ streamPairs (timedLines given), y.2.prevLineIdx = x.2.nextLineIdx →
    y ∈ rem

section Tracking
variable {W : ContentWalker} {authority : MainBulletAuthority} {given : ChatFile} {speaker : String}
  {t t' r r' : PassState} {x : String × OverlapPairIdentity}
  {rem : List (String × OverlapPairIdentity)}

section
variable (h : Tracks W authority given speaker t r (x :: rem))
include h

theorem Tracks.followed_tail :
    ∀ z ∈ rem, ∀ y ∈ streamPairs (timedLines given), y.2.prevLineIdx = z.2.nextLineIdx → y ∈ rem := by
  intro z hz y hy hyz
  rcases mem_cons.mp (h.followed z (mem_cons_of_mem x hz) y hy hyz) with heq | hy
  · subst heq
    exact absurd hyz ((pairwise_cons.mp h.live.apart).1 z hz).prev_next
  · exact hy

theorem Tracks.other (hne : x.1 ≠ speaker)
    (hok : resolveListed W authority t x = .ok t') : Tracks W authority given speaker t' r rem := by
  obtain ⟨t1, p, n, hok1, hstep, hlive⟩ := h.live.step (W := W)
  obtain rfl : t1 = t' := Except.ok.inj (hok1.symm.trans hok)
  have hdrop : (x :: rem).filter (fun y => y.1 == speaker) = rem.filter fun y => y.1 == speaker :=
    filter_cons_of_neg (by simpa using hne)
  have hx := h.live.listed x mem_cons_self
  refine ⟨hlive, hdrop ▸ h.reference, fun y hy => h.ahead y (mem_cons_of_mem x hy), ?_,
    h.followed_tail⟩
  intro k u hu hspk
  have hkp : k ≠ x.2.prevLineIdx := by
    rintro rfl
    obtain ⟨v, hv, hvs⟩ := hx.prev
    rw [hu, Option.some.injEq] at hv
    exact hne (by rw [← hvs, ← hv, hspk])
  have hkn : k ≠ x.2.nextLineIdx := by
    rintro rfl
    obtain ⟨v, hv, hvs⟩ := hx.next
    rw [hu, Option.some.injEq] at hv
    exact hne (by rw [← hvs, ← hv, hspk])
  rw [hstep.elsewhere k hkp hkn]
  rcases h.agree k u hu hspk with heq | ⟨y, hy, hys, hyk, hlag⟩
  · exact .inl heq
  · rcases mem_cons.mp hy with rfl | hy
    · exact absurd hys hne
    · exact .inr ⟨y, hy, hys, hyk, hlag⟩

theorem Tracks.reference_step (hx : x.1 = speaker) :
    ∃ r' q n, resolveListed W authority r x = .ok r' ∧ Stepped W authority given r x r' q n ∧
      Underway authority given r' (rem.filter fun y => y.1 == speaker) ∧
      fileOrderSuccessorStartMs r.file x.2.nextLineIdx =
        fileOrderSuccessorStartMs given x.2.nextLineIdx := by
  have hkeep : (x :: rem).filter (fun y => y.1 == speaker) =
      x :: rem.filter fun y => y.1 == speaker :=
    filter_cons_of_pos (by simpa using hx)
  have href := h.reference
  rw [hkeep] at href
  obtain ⟨r', q, n, hok, hstep, hr'⟩ := href.step (W := W)
  refine ⟨r', q, n, hok, hstep, hr', fileOrderSuccessorStartMs_congr ?_⟩
  intro k hk
  have hbefore := (h.live.listed x mem_cons_self).ok.before
  exact h.ahead x mem_cons_self hx k (by omega)

theorem Tracks.prev_cases (hx : x.1 = speaker)
    {p q : Utterance} (hp : getUtterance t.file x.2.prevLineIdx = some p)
    (hq : getUtterance r.file x.2.prevLineIdx = some q) : p = q ∨ Lagging W authority given x p q := by
  obtain ⟨u, hu, hus⟩ := (h.live.listed x mem_cons_self).prev
  rcases h.agree _ u hu (hus.trans hx) with heq | ⟨y, hy, _, hyk, a, b, ha, hb, hlag⟩
  · rw [hp, hq, Option.some.injEq] at heq
    exact .inl heq
  · have hyx : y = x := by
      rcases mem_cons.mp hy with heq | hy
      · exact heq
      · exact absurd hyk.symm ((pairwise_cons.mp h.live.apart).1 y hy).prev_prev
    subst hyx
    obtain rfl : a = p := Option.some.inj (ha.symm.trans hp)
    obtain rfl : b = q := Option.some.inj (hb.symm.trans hq)
    exact .inr hlag

theorem Tracks.own (hx : x.1 = speaker)
    (hg : GuardAlike W authority given t x) (hok : resolveListed W authority t x = .ok t') :
    ∃ r', resolveListed W authority r x = .ok r' ∧ Tracks W authority given speaker t' r' rem := by
  obtain ⟨t1, p, n, hok1, hstep, hlive⟩ := h.live.step (W := W)
  obtain rfl : t1 = t' := Except.ok.inj (hok1.symm.trans hok)
  obtain ⟨r', q, n', hokr, hstepr, href, hsucc⟩ := h.reference_step (W := W) hx
  obtain rfl : n = n' := Option.some.inj (hstep.next_given.symm.trans hstepr.next_given)
  obtain ⟨hapart, _⟩ := pairwise_cons.mp h.live.apart
  have hlisted := h.live.listed x mem_cons_self
  refine ⟨r', hokr, hlive, href, ?_, ?_, h.followed_tail⟩
  · intro y hy hys k hk
    have hle := (hapart y hy).ordered (hx.trans hys.symm)
    have hbefore := hlisted.ok.before
    rw [hstepr.elsewhere k (by omega) (by omega)]
    exact h.ahead y (mem_cons_of_mem x hy) hys k hk
  · have hprev := hstepr.prev_after
    have hnext := hstepr.next_after
    rw [hsucc] at hprev hnext
    intro k u hu hspk
    by_cases hkp : k = x.2.prevLineIdx
    · -- the earlier line is settled on both sides
      subst hkp
      left
      rw [hstep.prev_after, hprev]
      rcases h.prev_cases hx hstep.prev hstepr.prev with heq | hlag
      · subst heq
        rcases hg.outcome hstep.prev hstep.next with heq | ⟨kept, nb, _, _, _, _, c, d, hc, hd, _⟩
        · rw [heq]
        · rw [hc, hd]
      · rw [hlag.settle hstep.next_given _ (fileOrderSuccessorStartMs given x.2.nextLineIdx)]
    · by_cases hkn : k = x.2.nextLineIdx
      · subst hkn
        rw [hstep.next_after, hnext]
        rcases h.prev_cases hx hstep.prev hstepr.prev with heq | hlag
        · subst heq
          rcases hg.outcome hstep.prev hstep.next with heq |
            ⟨kept, nb, hnb, hroom, hrev, habs, c, d, hc, hd, hcd⟩
          · exact .inl (by rw [heq])
          · right
            obtain ⟨y, hy, hyx, m, mb, hm, hmb, hdrop⟩ := habs.dropped hnb hroom
            have hmem := (mem_cons.mp (h.followed x mem_cons_self y hy hyx)).resolve_left (by
              rintro rfl
              exact hkp hyx.symm)
            have hyl := h.live.listed y (mem_cons_of_mem x hmem)
            have hys : y.1 = speaker := by
              obtain ⟨v, hv, hvs⟩ := hyl.prev
              rw [hyx, hu, Option.some.injEq] at hv
              rw [← hvs, ← hv, hspk]
            have hstand : authority.standing y.2.prevUtteranceIdx = .revisable := by
              rw [hyl.ok.prev_ordinal, hyx, ← hlisted.ok.next_ordinal]
              exact hrev
            refine ⟨y, hmem, hys, hyx, c, d, by rw [hc], by rw [hd], hstand, m, mb, hm, hmb, ?_⟩
            rcases hcd with ⟨rfl, rfl⟩ | ⟨rfl, rfl⟩
            · exact .inr hdrop
            · exact .inl hdrop
        · left
          rw [hlag.settle hstep.next_given _ (fileOrderSuccessorStartMs given x.2.nextLineIdx)]
      · rw [hstep.elsewhere k hkp hkn, hstepr.elsewhere k hkp hkn]
        rcases h.agree k u hu hspk with heq | ⟨y, hy, hys, hyk, hlag⟩
        · exact .inl heq
        · rcases mem_cons.mp hy with rfl | hy
          · exact absurd hyk.symm hkp
          · exact .inr ⟨y, hy, hys, hyk, hlag⟩

end

theorem Tracks.ends (h : Tracks W authority given speaker t r rem)
    (hg : Sweep.Along (resolveListed W authority) (GuardAlike W authority given) t rem)
    (hrun : resolvePairs W authority t rem = .ok t')
    (href : resolvePairs W authority r (rem.filter fun y => y.1 == speaker) = .ok r') {u : Utterance} (hu : getUtterance given k = some u) (hspk : u.speaker = speaker) :
    getUtterance t'.file k = getUtterance r'.file k := by
  induction rem generalizing t r with
  | nil =>
    obtain rfl : t = t' := Except.ok.inj hrun
    obtain rfl : r = r' := Except.ok.inj href
    rcases h.agree k u hu hspk with heq | ⟨y, hy, _⟩
    · exact heq
    · simp at hy
  | cons x rem ih =>
    obtain ⟨t1, hok, hrun⟩ := Sweep.run_cons_eq_ok hrun
    by_cases hx : x.1 = speaker
    · obtain ⟨r1, hokr, h1⟩ := h.own hx hg.1 hok
      rw [filter_cons_of_pos (by simpa using hx)] at href
      obtain ⟨r2, hokr2, href⟩ := Sweep.run_cons_eq_ok href
      obtain rfl : r1 = r2 := Except.ok.inj (hokr.symm.trans hokr2)
      exact ih h1 (hg.2 t1 hok) hrun href
    · rw [filter_cons_of_neg (by simpa using hx)] at href
      exact ih (h.other hx hok) (hg.2 t1 hok) hrun href

end Tracking

/-! ## The first guard that decides otherwise -/

section Converse
variable {W : ContentWalker} {authority : MainBulletAuthority} {given : ChatFile} {speaker : String}
  {t t' r r' : PassState} {x : String × OverlapPairIdentity}
  {rem rem' : List (String × OverlapPairIdentity)} {p n m u w : Utterance} {pb nb wb : TimeSpan}
  {least : ℕ}

theorem leastSuccessor_revisable (h : leastSuccessor W authority pair p n pb nb = some least)
    (hrev : authority.standing pair.prevUtteranceIdx = .revisable) : pb.startMs < nb.startMs := by
  unfold leastSuccessor at h
  rw [hrev] at h
  cases hsn : authority.standing pair.nextUtteranceIdx with
  | readOnly kept => simp [hsn] at h
  | revisable =>
    simp only [hsn] at h
    cases he : furthestWordTimingEnd W p with
    | none => simp [he] at h
    | some e =>
    cases ht : earliestWordTimingStart W n with
    | none => simp [he, ht] at h
    | some hull =>
      simp only [he, ht] at h
      exact (Option.ite_none_right_eq_some.mp h).1.1

theorem pairOutcome_drops {successor : Option ℕ} (hw : w.parsedBullet = some wb)
    (h : (pairOutcome W authority pair successor w m).1.parsedBullet = none) :
    ∃ mb, m.parsedBullet = some mb ∧ mb.startMs ≤ wb.startMs ∧
      (pairOutcome W authority pair successor w m).1 = (stripUtteranceTiming W w).1 := by
  cases hm : m.parsedBullet with
  | none =>
    rw [pairOutcome_unbulleted (.inr hm), hw] at h
    simp at h
  | some mb =>
  refine ⟨mb, rfl, ?_⟩
  by_cases hover : wb.endMs ≤ mb.startMs
  · rw [pairOutcome_apart hw hm hover, hw] at h
    simp at h
  · have hcut : ∀ next, (cutPrev W next successor w m wb mb).1.parsedBullet = none →
        mb.startMs ≤ wb.startMs ∧
          (cutPrev W next successor w m wb mb).1 = (stripUtteranceTiming W w).1 := by
      intro next hnone
      unfold cutPrev at hnone ⊢
      by_cases hstart : mb.startMs ≤ wb.startMs
      · rw [if_pos hstart]
        exact ⟨hstart, rfl⟩
      · -- every other branch keeps a bullet, with a new end
        rw [if_neg hstart] at hnone
        revert hnone
        cases next.admit (classifyEndOverlap (furthestWordTimingEnd W w) mb.startMs
            (earliestWordTimingStart W m) successor) with
        | coverageOnly hullEndMs => simp [parsedBullet_setEnd, hw]
        | boundaryFromWords prevHullEndMs nextHullStartMs => simp [parsedBullet_setEnd, hw]
        | interleavedWords => simp [parsedBullet_clampWordsPastBound, hw]
    simp only [pairOutcome, hw, hm] at h ⊢
    rw [if_neg hover] at h ⊢
    cases hsp : authority.standing pair.prevUtteranceIdx with
    | revisable =>
      cases hsn : authority.standing pair.nextUtteranceIdx with
      | revisable =>
        simp only [hsp, hsn] at h
        exact hcut .movable h
      | readOnly kept =>
        simp only [hsp, hsn] at h
        exact hcut .kept h
    | readOnly kept =>
      cases hsn : authority.standing pair.nextUtteranceIdx with
      | revisable =>
        simp only [hsp, hsn, hw] at h
        simp at h
      | readOnly kept' =>
        simp only [hsp, hsn, hw] at h
        simp at h

theorem Underway.line_unbulleted (h : Underway authority given t rem)
    (hu : getUtterance t.file k = some u) (hb : u.parsedBullet = none)
    (hk : ∀ y ∈ rem, k ≠ y.2.nextLineIdx) (hrun : resolvePairs W authority t rem = .ok t') :
    getUtterance t'.file k = some u := by
  by_cases hy : ∃ y ∈ rem, k = y.2.prevLineIdx
  · obtain ⟨y, hy, rfl⟩ := hy
    obtain ⟨successor, m, _, hfinal⟩ := h.line_prev hy hu hk hrun
    rw [hfinal, pairOutcome_unbulleted (.inl hb)]
  · push Not at hy
    rw [h.line_kept (fun y hmem => ⟨hy y hmem, hk y hmem⟩) hrun]
    exact hu

theorem absorbed_of_ends {keptEndMs : ℕ} (hxk : x.2.nextLineIdx = k)
    (hstripped : Underway authority given t rem) (hraised : Underway authority given r rem')
    (hmem : ∀ y ∈ rem', y ∈ streamPairs (timedLines given))
    (hk : ∀ y ∈ rem, k ≠ y.2.nextLineIdx) (hk' : ∀ y ∈ rem', k ≠ y.2.nextLineIdx)
    (hnb : n.parsedBullet = some nb) (ht : getUtterance t.file k = some (stripUtteranceTiming W n).1)
    (hr : getUtterance r.file k = some (raiseBulletStart W n keptEndMs).1)
    (hrun : resolvePairs W authority t rem = .ok t') (hrun' : resolvePairs W authority r rem' = .ok r')
    (hend : getUtterance t'.file k = getUtterance r'.file k) : Absorbed W given x n keptEndMs := by
  have hw : (raiseBulletStart W n keptEndMs).1.parsedBullet = some ⟨keptEndMs, nb.endMs⟩ := by
    rw [parsedBullet_raiseBulletStart, hnb]
    rfl
  have hfinal := hstripped.line_unbulleted ht (parsedBullet_stripUtteranceTiming W n) hk hrun
  rw [hend] at hfinal
  by_cases hy : ∃ y ∈ rem', k = y.2.prevLineIdx
  · obtain ⟨y, hy, rfl⟩ := hy
    obtain ⟨successor, m, hm, hafter⟩ := hraised.line_prev hy hr hk' hrun'
    have hout := Option.some.inj (hafter.symm.trans hfinal)
    obtain ⟨mb, hmb, hle, hstrip⟩ := pairOutcome_drops hw (by
      rw [hout]
      exact parsedBullet_stripUtteranceTiming W n)
    exact ⟨⟨y, hmem y hy, hxk.symm, m, mb, hm, hmb, hle⟩, hstrip.symm.trans hout⟩
  · push Not at hy
    rw [hraised.line_kept (fun y hmem => ⟨hy y hmem, hk' y hmem⟩) hrun', hr] at hfinal
    have hbullet := congrArg Utterance.parsedBullet (Option.some.inj hfinal)
    rw [hw, parsedBullet_stripUtteranceTiming] at hbullet
    simp at hbullet

theorem Tracks.alike (h : Tracks W authority given speaker t r (x :: rem)) (hx : x.1 = speaker)
    (hmem : ∀ y ∈ x :: rem, y ∈ streamPairs (timedLines given))
    (hrun : resolvePairs W authority t (x :: rem) = .ok t')
    (href : resolvePairs W authority r ((x :: rem).filter fun y => y.1 == speaker) = .ok r')
    (hends : ∀ k u, getUtterance given k = some u → u.speaker = speaker →
      getUtterance t'.file k = getUtterance r'.file k) : GuardAlike W authority given t x := by
  intro p n pb nb hover least hleast
  by_contra hnot
  push Not at hnot
  obtain ⟨hdiff, hnone⟩ := hnot
  obtain ⟨t1, p', n', hok, hstep, hlive⟩ := h.live.step (W := W)
  obtain rfl : p' = p := Option.some.inj (hstep.prev.symm.trans hover.prev)
  obtain rfl : n' = n := Option.some.inj (hstep.next.symm.trans hover.next)
  obtain ⟨r1, q, n'', hokr, hstepr, hrefl, hsucc⟩ := h.reference_step (W := W) hx
  obtain rfl : n' = n'' := Option.some.inj (hstep.next_given.symm.trans hstepr.next_given)
  -- the earlier line cannot be lagging: it has a bullet, and one that starts before the later one
  have hpq : p' = q := by
    rcases h.prev_cases hx hstep.prev hstepr.prev with heq | hlag
    · exact heq
    · obtain ⟨hrev, m, mb, hm, hmb, hdrop⟩ := hlag
      obtain rfl : m = n' := Option.some.inj (hm.symm.trans hstep.next_given)
      obtain rfl : mb = nb := Option.some.inj (hmb.symm.trans hover.next_bullet)
      rcases hdrop with hdrop | hdrop
      · exact absurd hdrop.unbulleted (by simp [hover.prev_bullet])
      · obtain ⟨wb, hwb, hle, _⟩ := hdrop.bulleted
        obtain rfl : wb = pb := Option.some.inj (hwb.symm.trans hover.prev_bullet)
        have := leastSuccessor_revisable hleast hrev
        omega
  subst hpq
  have hrun1 : resolvePairs W authority t1 rem = .ok t' := by
    rw [← hrun]
    exact (Sweep.run_cons_ok hok).symm
  have href1 : resolvePairs W authority r1 (rem.filter fun y => y.1 == speaker) = .ok r' := by
    rw [← href, filter_cons_of_pos (by simpa using hx)]
    exact (Sweep.run_cons_ok hokr).symm
  obtain ⟨hapart, _⟩ := pairwise_cons.mp h.live.apart
  have hlisted := h.live.listed x mem_cons_self
  have hfilter : ∀ {C : String × OverlapPairIdentity → Prop}, (∀ y ∈ rem, C y) →
      ∀ y ∈ rem.filter (fun y => y.1 == speaker), C y :=
    fun hC y hy => hC y (mem_filter.mp hy).1
  have hprevKept : ∀ y ∈ rem, x.2.prevLineIdx ≠ y.2.prevLineIdx ∧ x.2.prevLineIdx ≠ y.2.nextLineIdx :=
    fun y hy => ⟨(hapart y hy).prev_prev, (hapart y hy).prev_next⟩
  have hnextKept : ∀ y ∈ rem, x.2.nextLineIdx ≠ y.2.nextLineIdx := fun y hy => (hapart y hy).next_next
  have hmemRem : ∀ y ∈ rem, y ∈ streamPairs (timedLines given) :=
    fun y hy => hmem y (mem_cons_of_mem x hy)
  have hprevAfter := hstepr.prev_after
  have hnextAfter := hstepr.next_after
  rw [hsucc] at hprevAfter hnextAfter
  -- the earlier line is final on both sides
  have hprevSame : (pairOutcome W authority x.2 (fileOrderSuccessorStartMs t.file x.2.nextLineIdx)
        p' n').1 =
      (pairOutcome W authority x.2 (fileOrderSuccessorStartMs given x.2.nextLineIdx) p' n').1 := by
    obtain ⟨u, hu, hus⟩ := hlisted.prev
    have hend := hends _ u hu (hus.trans hx)
    rw [hlive.line_kept hprevKept hrun1, hrefl.line_kept (hfilter hprevKept) href1,
      hstep.prev_after, hprevAfter] at hend
    exact Option.some.inj hend
  obtain ⟨v, hv, hvs⟩ := hlisted.next
  have hendNext := hends _ v hv (hvs.trans hx)
  rcases hdiff with ⟨hadm, hno⟩ | ⟨hno, hadm⟩
  · rcases pairOutcome_differ hover.prev_bullet hover.next_bullet hover.overlap hleast hadm hno with
      hne | ⟨kept, hkept, _, _, houtT, houtR⟩
    · exact hne hprevSame
    · refine hnone kept hkept (absorbed_of_ends rfl hrefl hlive hmemRem (hfilter hnextKept) hnextKept
        hover.next_bullet ?_ ?_ href1 hrun1 hendNext.symm)
      · rw [hnextAfter, houtR]
      · rw [hstep.next_after, houtT]
  · rcases pairOutcome_differ hover.prev_bullet hover.next_bullet hover.overlap hleast hadm hno with
      hne | ⟨kept, hkept, _, _, houtR, houtT⟩
    · exact hne hprevSame.symm
    · refine hnone kept hkept (absorbed_of_ends rfl hlive hrefl (hfilter hmemRem) hnextKept
        (hfilter hnextKept) hover.next_bullet ?_ ?_ hrun1 href1 hendNext)
      · rw [hstep.next_after, houtT]
      · rw [hnextAfter, houtR]

end Converse

/-! ## Every order of the speakers -/

section Independence
variable {W : ContentWalker} {authority : MainBulletAuthority} {s t t' : PassState}
  {order : List String} {speaker : String} {rem : List (String × OverlapPairIdentity)}
  {given : ChatFile}

theorem Underway.filter (h : Underway authority given t rem)
    (keep : String × OverlapPairIdentity → Bool) : Underway authority given t (rem.filter keep) :=
  ⟨h.accepted, h.rewritten, fun y hy => h.listed y (mem_filter.mp hy).1,
    h.apart.sublist filter_sublist, fun y hy => h.fresh y (mem_filter.mp hy).1⟩

theorem mem_streamPairsIn_of_perm (horder : order.Perm (speakersOf s.file))
    (y : String × OverlapPairIdentity) :
    y ∈ streamPairsIn order (timedLines s.file) ↔ y ∈ streamPairs (timedLines s.file) :=
  (horder.flatMap_right _).mem_iff

theorem nodup_of_perm (horder : order.Perm (speakersOf s.file)) : order.Nodup :=
  horder.nodup_iff.mpr (speakerOrder_nodup _)

theorem underway_start (hattr : Attributed authority s.file) (horder : order.Perm (speakersOf s.file)) :
    Underway authority s.file s (streamPairsIn order (timedLines s.file)) :=
  ⟨accepted_of_attributed hattr, .refl s.file, streamPairsIn_listed,
    streamPairsIn_apart (nodup_of_perm horder), fun _ _ => rfl⟩

theorem tracks_start (hattr : Attributed authority s.file)
    (horder : order.Perm (speakersOf s.file)) (speaker : String) :
    Tracks W authority s.file speaker s s (streamPairsIn order (timedLines s.file)) := by
  have hstart := underway_start hattr horder
  exact ⟨hstart, hstart.filter _, fun _ _ _ _ _ => rfl, fun _ _ _ _ => .inl rfl,
    fun _ _ y hy _ => (mem_streamPairsIn_of_perm horder y).mpr hy⟩

theorem Underway.append {xs ys : List (String × OverlapPairIdentity)}
    (h : Underway authority given s (xs ++ ys)) (hrun : resolvePairs W authority s xs = .ok t) :
    Underway authority given t ys := by
  induction xs generalizing s with
  | nil =>
    obtain rfl : s = t := Except.ok.inj hrun
    exact h
  | cons x xs ih =>
    obtain ⟨s1, _, _, hok, _, h1⟩ := h.step (W := W)
    obtain ⟨s2, hok2, hrest⟩ := Sweep.run_cons_eq_ok hrun
    obtain rfl : s1 = s2 := Except.ok.inj (hok.symm.trans hok2)
    exact ih h1 hrest

variable {u : Utterance}

theorem first_speaker_ends (hattr : Attributed authority s.file) {rest : List String}
    (horder : (speaker :: rest).Perm (speakersOf s.file)) {r : PassState}
    (hrun : resolveStreamsIn W authority (speaker :: rest) s = .ok t)
    (href : resolvePairs W authority s (streamOf (timedLines s.file) speaker) = .ok r) (hu : getUtterance s.file k = some u) (hspk : u.speaker = speaker) :
    getUtterance t.file k = getUtterance r.file k := by
  have hstart := underway_start hattr horder
  obtain ⟨r', href', hrest⟩ := Sweep.run_append_eq_ok hrun
  obtain rfl : r' = r := Except.ok.inj (href'.symm.trans href)
  refine (hstart.append href').line_kept ?_ hrest
  -- the other speakers' pairs name none of this speaker's lines
  intro y hy
  obtain ⟨other, hother, hy⟩ := mem_flatMap.mp hy
  obtain ⟨hlisted, hys⟩ := streamOf_listed hy
  have hne : other ≠ speaker := by
    rintro rfl
    exact (nodup_cons.mp (nodup_of_perm horder)).1 hother
  refine ⟨?_, ?_⟩
  · rintro rfl
    obtain ⟨v, hv, hvs⟩ := hlisted.prev
    rw [hu, Option.some.injEq] at hv
    exact hne (by rw [← hys, ← hvs, ← hv, hspk])
  · rintro rfl
    obtain ⟨v, hv, hvs⟩ := hlisted.next
    rw [hu, Option.some.injEq] at hv
    exact hne (by rw [← hys, ← hvs, ← hv, hspk])

theorem reference_of_along (hattr : Attributed authority s.file)
    (horder : order.Perm (speakersOf s.file)) (hspeaker : speaker ∈ speakersOf s.file)
    (halong : Sweep.Along (resolveListed W authority) (GuardAlike W authority s.file) s
      (streamPairsIn order (timedLines s.file)))
    (hrun : resolveStreamsIn W authority order s = .ok t) {r : PassState}
    (href : resolvePairs W authority s (streamOf (timedLines s.file) speaker) = .ok r) (hu : getUtterance s.file k = some u) (hspk : u.speaker = speaker) :
    getUtterance t.file k = getUtterance r.file k := by
  refine (tracks_start hattr horder speaker).ends halong hrun ?_ hu hspk
  rw [filter_streamPairsIn (nodup_of_perm horder) (horder.mem_iff.mpr hspeaker)]
  exact href

theorem reference_exists (W : ContentWalker) (hattr : Attributed authority s.file)
    (hspeaker : speaker ∈ speakersOf s.file) :
    ∃ r, resolvePairs W authority s (streamOf (timedLines s.file) speaker) = .ok r := by
  have hstart := (underway_start hattr (Perm.refl (speakersOf s.file))).filter
    fun y => y.1 == speaker
  rw [filter_streamPairsIn (nodup_of_perm (Perm.refl _)) hspeaker] at hstart
  obtain ⟨r, href, _⟩ := hstart.completes (W := W)
  exact ⟨r, href⟩

theorem line_of_unlisted (hattr : Attributed authority s.file)
    (horder : order.Perm (speakersOf s.file)) (hrun : resolveStreamsIn W authority order s = .ok t)
    (hu : getUtterance s.file k = some u) (hspk : u.speaker ∉ speakersOf s.file) :
    getUtterance t.file k = getUtterance s.file k := by
  refine (underway_start hattr horder).line_kept ?_ hrun
  intro y hy
  obtain ⟨speaker, hspeaker, hy⟩ := mem_flatMap.mp hy
  obtain ⟨hlisted, hys⟩ := streamOf_listed hy
  have hmem : y.1 ∈ speakersOf s.file := by
    rw [hys]
    exact horder.mem_iff.mp hspeaker
  refine ⟨?_, ?_⟩
  · rintro rfl
    obtain ⟨v, hv, hvs⟩ := hlisted.prev
    rw [hu, Option.some.injEq] at hv
    exact hspk (by rw [hv, hvs]; exact hmem)
  · rintro rfl
    obtain ⟨v, hv, hvs⟩ := hlisted.next
    rw [hu, Option.some.injEq] at hv
    exact hspk (by rw [hv, hvs]; exact hmem)

theorem along_of_ends {speakers : List String} (hspk : ∀ y ∈ rem, y.1 ∈ speakers)
    (hmem : ∀ y ∈ rem, y ∈ streamPairs (timedLines given))
    (hrun : resolvePairs W authority t rem = .ok t')
    (hends : ∀ speaker ∈ speakers, ∃ r r', Tracks W authority given speaker t r rem ∧
      resolvePairs W authority r (rem.filter fun y => y.1 == speaker) = .ok r' ∧
      ∀ k u, getUtterance given k = some u → u.speaker = speaker →
        getUtterance t'.file k = getUtterance r'.file k) :
    Sweep.Along (resolveListed W authority) (GuardAlike W authority given) t rem := by
  induction rem generalizing t with
  | nil => trivial
  | cons x rem ih =>
    have halike : GuardAlike W authority given t x := by
      obtain ⟨r, r', htracks, href, hlines⟩ := hends x.1 (hspk x mem_cons_self)
      exact htracks.alike rfl hmem hrun href hlines
    refine ⟨halike, ?_⟩
    intro t1 hok
    refine ih (fun y hy => hspk y (mem_cons_of_mem x hy))
      (fun y hy => hmem y (mem_cons_of_mem x hy)) ((Sweep.run_cons_ok hok).symm.trans hrun) ?_
    intro speaker hspeaker
    obtain ⟨r, r', htracks, href, hlines⟩ := hends speaker hspeaker
    by_cases hx : x.1 = speaker
    · obtain ⟨r1, hokr, h1⟩ := htracks.own hx halike hok
      rw [filter_cons_of_pos (by simpa using hx)] at href
      exact ⟨r1, r', h1, (Sweep.run_cons_ok hokr).symm.trans href, hlines⟩
    · rw [filter_cons_of_neg (by simpa using hx)] at href
      exact ⟨r, r', htracks.other hx hok, href, hlines⟩

/-- The sweep leaves the same file under every order exactly if each guard sees a successor start on the
  same side of its bound as in the given file, or strips a line its follower strips anyway. -/
theorem speaker_order_exact (W : ContentWalker) (authority : MainBulletAuthority) (s : PassState)
    (hattr : Attributed authority s.file) :
    OrderIndependent W authority s ↔ ∀ order : List String, order.Perm (speakersOf s.file) →
      Sweep.Along (resolveListed W authority) (GuardAlike W authority s.file) s
        (streamPairsIn order (timedLines s.file)) := by
  constructor
  · intro hind order horder
    obtain ⟨t, hrun, _⟩ := (underway_start hattr horder).completes (W := W)
    have hspk : ∀ y ∈ streamPairsIn order (timedLines s.file), y.1 ∈ speakersOf s.file := by
      intro y hy
      obtain ⟨speaker, hspeaker, hy⟩ := mem_flatMap.mp hy
      rw [(streamOf_listed hy).2]
      exact horder.mem_iff.mp hspeaker
    refine along_of_ends hspk ?_ hrun ?_
    · exact fun y hy => (mem_streamPairsIn_of_perm horder y).mp hy
    · intro speaker hspeaker
      obtain ⟨r, href⟩ := reference_exists W hattr hspeaker
      refine ⟨s, r, tracks_start hattr horder speaker, ?_, ?_⟩
      · rw [filter_streamPairsIn (nodup_of_perm horder) (horder.mem_iff.mpr hspeaker)]
        exact href
      · intro k u hu hspk
        -- the run that visits the speaker first leaves the same file
        have hfirst := perm_cons_erase hspeaker
        obtain ⟨t0, hrun0, _⟩ := (underway_start hattr hfirst.symm).completes (W := W)
        rw [hind order _ horder hfirst.symm t t0 hrun hrun0]
        exact first_speaker_ends hattr hfirst.symm hrun0 href hu hspk
  · intro halong order order' horder horder' t t' hrun hrun'
    obtain ⟨t1, hok1, hend⟩ := (underway_start hattr horder).completes (W := W)
    obtain rfl : t1 = t := Except.ok.inj (hok1.symm.trans hrun)
    obtain ⟨t2, hok2, hend'⟩ := (underway_start hattr horder').completes (W := W)
    obtain rfl : t2 = t' := Except.ok.inj (hok2.symm.trans hrun')
    refine hend.rewritten.file_eq hend'.rewritten ?_
    intro k u hu
    by_cases hspeaker : u.speaker ∈ speakersOf s.file
    · obtain ⟨r, href⟩ := reference_exists W hattr hspeaker
      rw [reference_of_along hattr horder hspeaker (halong order horder) hrun href hu rfl,
        reference_of_along hattr horder' hspeaker (halong order' horder') hrun' href hu rfl]
    · rw [line_of_unlisted hattr horder hrun hu hspeaker,
        line_of_unlisted hattr horder' hrun' hu hspeaker]

/-- Two interleaved speakers; each second line starts, by its bullet, before its words do. -/
def interleavedSpeakersFile : ChatFile :=
  [.utterance ⟨"CHI", [], some (.parsed ⟨0, 500⟩), [.word ⟨"one", some ⟨0, 300⟩⟩], [], []⟩,
   .utterance ⟨"MOT", [], some (.parsed ⟨50, 600⟩), [.word ⟨"two", some ⟨50, 400⟩⟩], [], []⟩,
   .utterance ⟨"CHI", [], some (.parsed ⟨100, 900⟩), [.word ⟨"three", some ⟨350, 800⟩⟩], [], []⟩,
   .utterance ⟨"MOT", [], some (.parsed ⟨200, 1000⟩), [.word ⟨"four", some ⟨450, 900⟩⟩], [], []⟩]

theorem speaker_order_exact_interleaved :
    OrderIndependent .unconditional .deriveFromWords ⟨interleavedSpeakersFile, [], [], []⟩ ↔
      ∀ order : List String, order.Perm (speakersOf interleavedSpeakersFile) →
        Sweep.Along (resolveListed .unconditional .deriveFromWords)
          (GuardAlike .unconditional .deriveFromWords interleavedSpeakersFile)
          ⟨interleavedSpeakersFile, [], [], []⟩
          (streamPairsIn order (timedLines interleavedSpeakersFile)) :=
  speaker_order_exact .unconditional .deriveFromWords ⟨interleavedSpeakersFile, [], [], []⟩
    (attributed_deriveFromWords interleavedSpeakersFile)

/-- The second speaker first: the start that stops the first's later line moves, and the first line ends at
  300. -/
theorem speaker_order_matters : speakersOf interleavedSpeakersFile = ["CHI", "MOT"] ∧
    (∃ s1, enforceStartOrder .unconditional .deriveFromWords ⟨interleavedSpeakersFile, [], [], []⟩ =
      .ok s1 ∧ s1.file = interleavedSpeakersFile) ∧
    (∃ t t', resolveStreamsIn .unconditional .deriveFromWords ["CHI", "MOT"]
        ⟨interleavedSpeakersFile, [], [], []⟩ = .ok t ∧
      resolveStreamsIn .unconditional .deriveFromWords ["MOT", "CHI"]
        ⟨interleavedSpeakersFile, [], [], []⟩ = .ok t' ∧
      bulletAt t.file 0 = some ⟨0, 100⟩ ∧ bulletAt t'.file 0 = some ⟨0, 300⟩) ∧
    ¬ OrderIndependent .unconditional .deriveFromWords ⟨interleavedSpeakersFile, [], [], []⟩ := by
  have hspeakers : speakersOf interleavedSpeakersFile = ["CHI", "MOT"] := by decide
  refine ⟨hspeakers, ⟨_, rfl, rfl⟩, ⟨_, _, rfl, rfl, rfl, rfl⟩, ?_⟩
  intro hind
  have heq := hind ["CHI", "MOT"] ["MOT", "CHI"] (by rw [hspeakers]) (by
    exact List.Perm.swap _ _ _) _ _ rfl rfl
  have hbullet := congrArg (fun file => bulletAt file 0) heq
  exact absurd hbullet (by decide)

end Independence

end Batchalign.Fa
