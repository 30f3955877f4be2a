import Batchalign.Fa.StartOrder

/- What a whole run of enforcement leaves (`enforce_monotonicity_under`): Pass 1 makes the file sound
   and Pass 2 keeps it so, unless a strip does not reach a timed word of its line. -/
namespace Batchalign.Fa

def Attributed (authority : MainBulletAuthority) (file : ChatFile) : Prop :=
  ∀ i b, bulletAt file i = some b → ∃ m, authority.mutability (utteranceOrdinal file i) b = .ok m

structure Enforced (authority : MainBulletAuthority) (file : ChatFile)
    (startRecords : List DecisionRecord) (s' : PassState) : Prop where
  kept_as_given : ∀ i kept, authority.keptBullet (utteranceOrdinal file i) = some kept →
    bulletAt s'.file i = bulletAt file i ∧ ∀ b, bulletAt s'.file i = some b → b = kept.toBullet
  extent : ∀ i b, bulletAt s'.file i = some b →
    authority.keptBullet (utteranceOrdinal file i) = none → b.startMs < b.endMs
  words : ∀ i u, getUtterance s'.file i = some u → ∀ s ∈ u.timedSpans,
    ∃ b, u.parsedBullet = some b ∧ s.Within b
  ordered : ∀ i j b c, i < j → ¬ Recorded startRecords i → ¬ Recorded startRecords j →
    bulletAt s'.file i = some b → bulletAt s'.file j = some c → b.startMs ≤ c.startMs
  only_kept_recorded : ∀ i, Recorded startRecords i →
    authority.keptBullet (utteranceOrdinal file i) ≠ none
  recorded : startRecords <+: s'.decisions

/-- Every strip of the run reaches the timed words of its line. -/
structure StripsReach (W : ContentWalker) (authority : MainBulletAuthority)
    (policy : EndOverlapPolicy) (file : ChatFile) : Prop where
  start_order : ∀ sources, collectSources authority (utterancesIndexed file) = .ok sources →
    Sweep.Along (startOrderAt W) (StartStripReaches W) ⟨⟨file, [], [], []⟩, none, none⟩
      (withNextKept sources)
  streams : ∀ s, enforceStartOrder W authority ⟨file, [], [], []⟩ = .ok s →
    Sweep.Along (resolveListed W authority) (fun s x => StripReaches W authority s x.2) s
      (streamPairs (timedLines s.file))
  adjacent : ∀ s s', enforceStartOrder W authority ⟨file, [], [], []⟩ = .ok s →
    resolveSameSpeakerStreamOverlaps W authority s = .ok s' →
    Sweep.Along (resolveListed W authority) (fun s x => StripReaches W authority s x.2) s'
      (adjacentPairs policy (timedLines s'.file))

section Run
variable {W : ContentWalker} {authority : MainBulletAuthority} {policy : EndOverlapPolicy}
  {file : ChatFile}

theorem enforceMonotonicityUnder_error (h : ¬ Attributed authority file) :
    ∃ e, enforceMonotonicityUnder W authority policy file = .error e := by
  unfold Attributed at h
  push Not at h
  obtain ⟨i, b, hb, hbad⟩ := h
  obtain ⟨u, hu, hb⟩ := bulletAt_eq_some hb
  obtain ⟨e, he⟩ := @collectBulleted_error _ _ startOrderSource _ _ _ _ _
    (mem_utterancesIndexed.mpr ⟨hu, rfl⟩) hb hbad
  exact ⟨e, by simp only [enforceMonotonicityUnder, enforceStartOrder, collectSources, he]⟩

theorem accepted_of_attributed (hattr : Attributed authority file) :
    Accepted authority (utteranceOrdinal file) file := by
  refine ⟨fun _ => rfl, ?_⟩
  intro i b hb
  obtain ⟨m, hm⟩ := hattr i b hb
  rw [hm, (mutability_ok hm).1]

/-- The states after Pass 1, after Pass 2a and at the end. -/
structure EnforcementRun (W : ContentWalker) (authority : MainBulletAuthority)
    (policy : EndOverlapPolicy) (file : ChatFile) (sources : List StartOrderSource)
    (st : StartOrderState) (s2 s' : PassState) : Prop where
  collected : collectSources authority (utterancesIndexed file) = .ok sources
  entry : StartOrderInv authority (utteranceOrdinal file) file ⟨⟨file, [], [], []⟩, none, none⟩ sources
  start_order : startOrderSweep W ⟨⟨file, [], [], []⟩, none, none⟩ sources = .ok st
  streams : resolvePairs W authority st.pass (streamPairs (timedLines st.pass.file)) = .ok s2
  adjacent : resolvePairs W authority s2 (adjacentPairs policy (timedLines s2.file)) = .ok s'
  ordered1 : InOrder authority (utteranceOrdinal file) (Recorded st.pass.decisions) st.pass.file
  ordered2 : InOrder authority (utteranceOrdinal file) (Recorded st.pass.decisions) s2.file
  ordered' : InOrder authority (utteranceOrdinal file) (Recorded st.pass.decisions) s'.file
  kept : ∀ i, authority.keptBullet (utteranceOrdinal file i) ≠ none →
    getUtterance s'.file i = getUtterance file i
  recorded : st.pass.decisions <+: s'.decisions

theorem enforcementRun_exists (hattr : Attributed authority file) :
    ∃ sources st s2 s', EnforcementRun W authority policy file sources st s2 s' := by
  obtain ⟨sources, hsources, hinv⟩ := collectSources_inv (s := ⟨file, [], [], []⟩)
    (accepted_of_attributed hattr) rfl
  obtain ⟨st, hrun, hend⟩ := startOrderSweep_inv (W := W) hinv
  have h1 := hend.inOrder
  obtain ⟨s2, hs2, h2, hkept2, hdec2⟩ :=
    resolvePairs_inOrder (W := W) h1 (streamPairs_ok h1.ordinals)
  obtain ⟨s', hs', h', hkept', hdec'⟩ :=
    resolvePairs_inOrder (W := W) h2 (adjacentPairs_ok policy h2.ordinals)
  refine ⟨sources, st, s2, s', hsources, hinv, hrun, hs2, hs', h1, h2, h', ?_, hdec2.trans hdec'⟩
  intro i hi
  rw [hkept' i hi, hkept2 i hi]
  exact hend.kept_unchanged i hi

namespace EnforcementRun
variable {sources : List StartOrderSource} {st : StartOrderState} {s2 s' : PassState}

section
variable (h : EnforcementRun W authority policy file sources st s2 s')
include h

theorem start_order_eq : enforceStartOrder W authority ⟨file, [], [], []⟩ = .ok st.pass :=
  enforceStartOrder_eq h.collected h.start_order

theorem run_eq : enforceMonotonicityUnder W authority policy file = .ok s' := by
  simp only [enforceMonotonicityUnder, h.start_order_eq, resolveSameSpeakerStreamOverlaps, h.streams]
  exact h.adjacent

theorem pairs2_ok : ∀ x ∈ streamPairs (timedLines st.pass.file), PairOk (utteranceOrdinal file) x.2 :=
  streamPairs_ok h.ordered1.ordinals

theorem pairs'_ok : ∀ x ∈ adjacentPairs policy (timedLines s2.file), PairOk (utteranceOrdinal file) x.2 :=
  adjacentPairs_ok policy h.ordered2.ordinals

theorem contained (hc : Contained authority (utteranceOrdinal file) file) :
    Contained authority (utteranceOrdinal file) s'.file := by
  have h1 : Contained authority (utteranceOrdinal file) st.pass.file :=
    startOrderSweep_contained h.entry hc h.start_order
  have h2 : Contained authority (utteranceOrdinal file) s2.file :=
    resolvePairs_contained h.ordered1 h1 h.pairs2_ok h.streams
  exact resolvePairs_contained h.ordered2 h2 h.pairs'_ok h.adjacent

theorem housed_iff : Housed s'.file ↔ Housed file ∧ StripsReach W authority policy file := by
  rw [resolvePairs_housed h.ordered2 h.pairs'_ok h.adjacent,
    resolvePairs_housed h.ordered1 h.pairs2_ok h.streams,
    startOrderSweep_housed h.entry h.start_order]
  refine ⟨?_, ?_⟩
  · intro hall
    obtain ⟨⟨⟨hfile, halong1⟩, halong2⟩, halong3⟩ := hall
    refine ⟨hfile, ?_, ?_, ?_⟩
    · intro sources' hsources'
      obtain rfl : sources = sources' := Except.ok.inj (h.collected.symm.trans hsources')
      exact halong1
    · intro s hs
      obtain rfl : st.pass = s := Except.ok.inj (h.start_order_eq.symm.trans hs)
      exact halong2
    · intro s t hs ht
      obtain rfl : st.pass = s := Except.ok.inj (h.start_order_eq.symm.trans hs)
      obtain rfl : s2 = t := Except.ok.inj (h.streams.symm.trans ht)
      exact halong3
  · intro hall
    obtain ⟨hfile, hreach⟩ := hall
    exact ⟨⟨⟨hfile, hreach.start_order sources h.collected⟩,
      hreach.streams st.pass h.start_order_eq⟩,
      hreach.adjacent st.pass s2 h.start_order_eq h.streams⟩

theorem enforced_iff_housed (hc : Contained authority (utteranceOrdinal file) file) :
    Enforced authority file st.pass.decisions s' ↔ Housed s'.file := by
  have hs := h.ordered'
  have hc' := h.contained hc
  refine ⟨?_, ?_⟩
  · intro hen i u hu hnone
    rw [List.eq_nil_iff_forall_not_mem]
    intro s hsp
    obtain ⟨b, hb, _⟩ := hen.words i u hu s hsp
    rw [hnone] at hb
    simp at hb
  · intro hh
    refine ⟨?_, hc'.extent, ?_, hs.ordered, fun i hi => (hs.unresolved i hi).1, h.recorded⟩
    · intro i kept hk
      refine ⟨by rw [bulletAt, bulletAt, h.kept i (by rw [hk]; simp)], ?_⟩
      intro b hb
      exact hs.toAccepted.kept_live hb hk
    · intro i u hu s hsp
      cases hb : u.parsedBullet with
      | none =>
        rw [hh i u hu hb] at hsp
        simp at hsp
      | some b => exact ⟨b, rfl, hc'.words i u b hu hb s hsp⟩

end

end EnforcementRun

end Run

/-- On a file whose bullets have extent and contain their words, enforcement fails only on a bullet the
  authority refuses, and else keeps its promise exactly if no timed word stood without a bullet and every
  strip reaches. -/
theorem enforceMonotonicityUnder_enforced_iff (W : ContentWalker) (authority : MainBulletAuthority)
    (policy : EndOverlapPolicy) (file : ChatFile) (hextent : ∀ i b, bulletAt file i = some b →
      authority.keptBullet (utteranceOrdinal file i) = none → b.startMs < b.endMs)
    (hwords : ∀ i u b, getUtterance file i = some u → u.parsedBullet = some b →
      ∀ s ∈ u.timedSpans, s.Within b) :
    (¬ Attributed authority file ∧ ∃ e, enforceMonotonicityUnder W authority policy file = .error e) ∨
    (Attributed authority file ∧ ∃ s1 s', enforceStartOrder W authority ⟨file, [], [], []⟩ = .ok s1 ∧
      enforceMonotonicityUnder W authority policy file = .ok s' ∧
      (Enforced authority file s1.decisions s' ↔
        Housed file ∧ StripsReach W authority policy file)) := by
  by_cases hattr : Attributed authority file
  · right
    obtain ⟨sources, st, s2, s', h⟩ := @enforcementRun_exists W authority policy file hattr
    refine ⟨hattr, st.pass, s', h.start_order_eq, h.run_eq, ?_⟩
    rw [h.enforced_iff_housed ⟨hextent, hwords⟩, h.housed_iff]
  · exact .inl ⟨hattr, enforceMonotonicityUnder_error hattr⟩

/-- Two lines timed on both tiers, the second marked `+<` and starting before the first. -/
def markedOverlapFile : ChatFile :=
  [.utterance ⟨"MOT", [], some (.parsed ⟨300, 400⟩), [.word ⟨"one", some ⟨300, 380⟩⟩],
      [.wor [.word ⟨"one", some ⟨300, 380⟩⟩]], []⟩,
   .utterance ⟨"CHI", [.lazyOverlapPrecedes], some (.parsed ⟨100, 350⟩), [.word ⟨"two", some ⟨100, 320⟩⟩],
      [.wor [.word ⟨"two", some ⟨120, 350⟩⟩]], []⟩]

theorem attributed_deriveFromWords (file : ChatFile) : Attributed .deriveFromWords file := by
  intro i b _
  exact ⟨.revisable, rfl⟩

theorem enforceMonotonicityUnder_enforced_marked :
    ∃ s1 s', enforceStartOrder .unconditional .deriveFromWords ⟨markedOverlapFile, [], [], []⟩ = .ok s1 ∧
      enforceMonotonicityUnder .unconditional .deriveFromWords .preserveCrossSpeaker
        markedOverlapFile = .ok s' ∧
      (Enforced .deriveFromWords markedOverlapFile s1.decisions s' ↔ Housed markedOverlapFile ∧
        StripsReach .unconditional .deriveFromWords .preserveCrossSpeaker markedOverlapFile) := by
  have hinst := enforceMonotonicityUnder_enforced_iff .unconditional .deriveFromWords
    .preserveCrossSpeaker markedOverlapFile (by
      intro i b hb _
      match i, hb with
      | 0, hb => cases hb; decide
      | 1, hb => cases hb; decide) (by
      intro i u b hu hb
      match i, hu with
      | 0, hu => cases hu; cases hb; decide
      | 1, hu => cases hu; cases hb; decide)
  rcases hinst with ⟨hno, _⟩ | ⟨_, hrun⟩
  · exact absurd (attributed_deriveFromWords markedOverlapFile) hno
  · exact hrun

def regressedQuotationFile : ChatFile :=
  [.utterance ⟨"MOT", [], some (.parsed ⟨300, 400⟩), [], [], []⟩, .utterance quotedUtterance]

/-- Pass 1 strips the second line and leaves its quoted word timed, on a line without a
bullet. -/
theorem regressed_quotation_not_enforced :
    (∀ i b, bulletAt regressedQuotationFile i = some b → b.startMs < b.endMs) ∧
    (∀ i u b, getUtterance regressedQuotationFile i = some u → u.parsedBullet = some b →
      ∀ s ∈ u.timedSpans, s.Within b) ∧
    ∃ s1 s', enforceStartOrder .unconditional .deriveFromWords ⟨regressedQuotationFile, [], [], []⟩ = .ok s1 ∧
      enforceMonotonicityUnder .unconditional .deriveFromWords .preserveCrossSpeaker
        regressedQuotationFile = .ok s' ∧
      ¬ Enforced .deriveFromWords regressedQuotationFile s1.decisions s' := by
  refine ⟨?_, ?_, _, _, rfl, rfl, ?_⟩
  · intro i b hb
    match i, hb with
    | 0, hb => cases hb; decide
    | 1, hb => cases hb; decide
  · intro i u b hu hb s hs
    match i, hu with
    | 0, hu => cases hu; cases hs
    | 1, hu =>
      cases hu
      obtain rfl : ⟨100, 200⟩ = b := Option.some.inj hb
      obtain rfl : s = ⟨100, 200⟩ := List.mem_singleton.mp hs
      exact ⟨by decide, by decide, by decide⟩
  · intro h
    obtain ⟨b, hb, _⟩ := h.words 1 _ rfl ⟨100, 200⟩ (List.mem_singleton.mpr rfl)
    cases hb

end Batchalign.Fa
