import Batchalign.Fa.Finalize
import Batchalign.Fa.RepairStep

/- What finalization leaves behind. A file whose bullets are sound after monotonicity is sound at the
   end, and enforcement gets what it needs when every averaged pair fits; in `invertedAverageFile` one
   does not. -/
namespace Batchalign.Fa
open List

/-- The bullet returned as given: a kept one, or one not in the recording. -/
def MainBulletAuthority.givenBullet (authority : MainBulletAuthority) (utteranceIdx : ℕ) :
    Option KeptBullet :=
  match authority.slot utteranceIdx with
  | .ok (some (.kept kept)) => some kept
  | .ok (some (.offRecord kept)) => kept
  | _ => none

/-- Bullets that were not given have extent, and every timed word lies inside its line's
bullet. -/
structure BulletsSound (authority : MainBulletAuthority) (file : ChatFile) : Prop where
  extent : ∀ i b, bulletAt file i = some b →
    authority.givenBullet (utteranceOrdinal file i) = none → b.startMs < b.endMs
  words : ∀ i u, getUtterance file i = some u → ∀ s ∈ u.timedSpans,
    ∃ b, u.parsedBullet = some b ∧ s.Within b

/-! ## The write of `%wor` -/

/-- The main tier is as before, and `%wor` times nothing new. -/
structure MainKept (u u' : Utterance) : Prop where
  content : u'.content = u.content
  bullet : u'.bullet = u.bullet
  speaker : u'.speaker = u.speaker
  timed : ∀ s ∈ u'.timedSpans, s ∈ u.timedSpans

theorem MainKept.refl (u : Utterance) : MainKept u u := ⟨rfl, rfl, rfl, fun _ hs => hs⟩

theorem MainKept.trans {u v w : Utterance} (h : MainKept u v) (h' : MainKept v w) : MainKept u w :=
  ⟨h'.content.trans h.content, h'.bullet.trans h.bullet, h'.speaker.trans h.speaker,
    fun s hs => h.timed s (h'.timed s hs)⟩

theorem WorWriter.mainKept (writer : WorWriter) (u : Utterance) : MainKept u (writer.addWorTier u) := by
  obtain ⟨hcontent, hbullet, hspeaker, _⟩ := writer.keeps_main u
  refine ⟨hcontent, hbullet, hspeaker, ?_⟩
  intro s hs
  rcases mem_append.mp hs with hs | hs
  · rw [hcontent] at hs
    exact mem_append_left _ hs
  · exact mem_append_left _ (writer.from_main u s hs)

section Write
variable {W : ContentWalker} {writer : WorWriter}

theorem lineOfOrdinal_some {file : ChatFile} {k i : ℕ} (h : lineOfOrdinal file k = some i) :
    utteranceOrdinal file i = k := by
  obtain ⟨x, hx, rfl⟩ := Option.map_eq_some_iff.mp h
  have hmem := mem_of_find?_eq_some hx
  have hk := find?_some hx
  obtain ⟨_, hord⟩ := mem_utterancesIndexed.mp hmem
  rw [← hord]
  exact of_decide_eq_true hk

theorem writeWorAt_line (file : ChatFile) (k i : ℕ) :
    ∃ g, (∀ u, MainKept u (g u)) ∧ (k ≠ utteranceOrdinal file i → ∀ u, g u = u) ∧
      getUtterance (writeWorAt W writer file k) i = (getUtterance file i).map g := by
  have hidle : ∃ g : Utterance → Utterance, (∀ u, MainKept u (g u)) ∧
      (k ≠ utteranceOrdinal file i → ∀ u, g u = u) ∧
      getUtterance file i = (getUtterance file i).map g :=
    ⟨id, MainKept.refl, fun _ _ => rfl, by rw [Option.map_id]; rfl⟩
  unfold writeWorAt
  cases hline : lineOfOrdinal file k with
  | none => exact hidle
  | some l =>
    by_cases hli : l = i
    · subst hli
      refine ⟨_, ?_, ?_, getUtterance_modifyUtterance_self file l _⟩
      · intro u
        split_ifs
        · exact writer.mainKept u
        · exact MainKept.refl u
      · intro hne
        exact absurd (lineOfOrdinal_some hline).symm hne
    · rw [getUtterance_modifyUtterance_ne hli]
      exact hidle

@[simp] theorem ordinal_writeWorAt (file : ChatFile) (k i : ℕ) :
    utteranceOrdinal (writeWorAt W writer file k) i = utteranceOrdinal file i := by
  unfold writeWorAt
  cases lineOfOrdinal file k with
  | none => rfl
  | some l => exact ordinal_modifyUtterance file l i _

/-- The utterances a plan writes `%wor` on, when they are timed. -/
def WorPlan.candidates : WorPlan → List ℕ
  | .suppressed => []
  | .pending touched => touched

theorem writeWor_line (plan : WorPlan) (file : ChatFile) (i : ℕ) : (∃ g, (∀ u, MainKept u (g u)) ∧
      (utteranceOrdinal file i ∉ plan.candidates → ∀ u, g u = u) ∧
      getUtterance (writeWor W writer plan file) i = (getUtterance file i).map g) ∧
    utteranceOrdinal (writeWor W writer plan file) i = utteranceOrdinal file i := by
  have hfold : ∀ (ks : List ℕ) (file : ChatFile),
      (∃ g, (∀ u, MainKept u (g u)) ∧ (utteranceOrdinal file i ∉ ks → ∀ u, g u = u) ∧
        getUtterance (ks.foldl (writeWorAt W writer) file) i = (getUtterance file i).map g) ∧
      utteranceOrdinal (ks.foldl (writeWorAt W writer) file) i = utteranceOrdinal file i := by
    intro ks
    induction ks with
    | nil =>
      intro file
      exact ⟨⟨id, MainKept.refl, fun _ _ => rfl, by rw [Option.map_id]; rfl⟩, rfl⟩
    | cons k ks ih =>
      intro file
      obtain ⟨⟨g, hg, hsame, hline⟩, hord⟩ := ih (writeWorAt W writer file k)
      obtain ⟨g', hg', hsame', hline'⟩ := @writeWorAt_line W writer file k i
      rw [ordinal_writeWorAt] at hsame hord
      refine ⟨⟨g ∘ g', ?_, ?_, ?_⟩, hord⟩
      · intro u
        exact (hg' u).trans (hg (g' u))
      · intro hnot u
        rw [mem_cons, not_or] at hnot
        change g (g' u) = u
        rw [hsame' (Ne.symm hnot.1), hsame hnot.2]
      · rw [foldl_cons, hline, hline', Option.map_map]
  cases plan with
  | suppressed => exact hfold [] file
  | pending touched =>
    obtain ⟨⟨g, hg, hsame, hline⟩, hord⟩ := hfold (touched.dedup.mergeSort (· ≤ ·)) file
    refine ⟨⟨g, hg, ?_, hline⟩, hord⟩
    intro hnot
    apply hsame
    rw [mem_mergeSort, mem_dedup]
    exact hnot

end Write

/-! ## The restore -/

theorem ordinal_utterance (u : Utterance) (lines : ChatFile) (i : ℕ) :
    utteranceOrdinal (.utterance u :: lines) (i + 1) = utteranceOrdinal lines i + 1 := rfl

theorem restoreFrom_line {given : GivenMainBullets} :
    ∀ (lines lines' : ChatFile) (k i : ℕ), restoreFrom given k lines = .ok lines' →
      (getUtterance lines i = none → getUtterance lines' i = none) ∧
      (∀ u, getUtterance lines i = some u → ∃ slot, given.slot (k + utteranceOrdinal lines i) = .ok slot ∧
        getUtterance lines' i = some (restoreUtterance slot u)) ∧
      utteranceOrdinal lines' i = utteranceOrdinal lines i := by
  intro lines
  induction lines with
  | nil =>
    intro lines' k i h
    cases h
    exact ⟨id, fun u hu => absurd hu (by simp [getUtterance]), rfl⟩
  | cons line lines ih =>
    intro lines' k i h
    cases line with
    | header text =>
      rw [restoreFrom] at h
      cases hrest : restoreFrom given k lines with
      | error e => simp [hrest] at h
      | ok rest =>
        simp only [hrest, Except.ok.injEq] at h
        subst h
        cases i with
        | zero => exact ⟨fun _ => rfl, fun u hu => absurd hu (by simp [getUtterance, Line.utterance?]), rfl⟩
        | succ i => exact ih rest k i hrest
    | utterance u =>
      rw [restoreFrom] at h
      cases hlive : liveBullet k u.bullet with
      | error e => simp [hlive] at h
      | ok live =>
      cases hslot : given.slot k with
      | error e => simp [hlive, hslot] at h
      | ok slot =>
      cases hrest : restoreFrom given (k + 1) lines with
      | error e => simp [hlive, hslot, hrest] at h
      | ok rest =>
        simp only [hlive, hslot, hrest, Except.ok.injEq] at h
        subst h
        cases i with
        | zero =>
          refine ⟨fun hnone => absurd hnone (by simp [getUtterance, Line.utterance?]), ?_, rfl⟩
          intro v hv
          obtain rfl : u = v := Option.some.inj hv
          exact ⟨slot, hslot, rfl⟩
        | succ i =>
          obtain ⟨hnone, hline, hord⟩ := ih rest (k + 1) i hrest
          rw [ordinal_utterance, ordinal_utterance, hord,
            show k + (utteranceOrdinal lines i + 1) = k + 1 + utteranceOrdinal lines i by omega]
          exact ⟨hnone, hline, rfl⟩

theorem restoreUtterance_other {slot : GivenSlot} {u : Utterance}
    (h : ∀ kept, slot ≠ .offRecord (some kept)) : restoreUtterance slot u = u := by
  rcases slot with _ | _ | _ | (_ | kept)
  all_goals first | rfl | exact absurd rfl (h kept)

theorem restoreOffRecord_line {authority : MainBulletAuthority} {file file' : ChatFile}
    (h : restoreOffRecord authority file = .ok file') (i : ℕ) :
    utteranceOrdinal file' i = utteranceOrdinal file i ∧
    (getUtterance file' i = getUtterance file i ∨ ∃ u kept, getUtterance file i = some u ∧
      authority.slot (utteranceOrdinal file i) = .ok (some (.offRecord (some kept))) ∧
      getUtterance file' i = some { u with bullet := some (.parsed kept.toBullet) }) := by
  cases authority with
  | deriveFromWords =>
    obtain rfl : file = file' := Except.ok.inj h
    exact ⟨rfl, .inl rfl⟩
  | keep given =>
    obtain ⟨hnone, hline, hord⟩ := restoreFrom_line file file' 0 i h
    refine ⟨hord, ?_⟩
    cases hu : getUtterance file i with
    | none => exact .inl (hnone hu)
    | some u =>
      obtain ⟨slot, hslot, hnew⟩ := hline u hu
      rw [zero_add] at hslot
      rw [hnew]
      by_cases hoff : ∃ kept, slot = .offRecord (some kept)
      · obtain ⟨kept, rfl⟩ := hoff
        exact .inr ⟨u, kept, rfl, by simp only [MainBulletAuthority.slot, hslot], rfl⟩
      · exact .inl (by rw [restoreUtterance_other (by simpa using hoff)])

section Restore
variable {authority : MainBulletAuthority} {file file' : ChatFile}

theorem keptBullet_none_of_givenBullet {k : ℕ} (h : authority.givenBullet k = none) :
    authority.keptBullet k = none := by
  unfold MainBulletAuthority.givenBullet at h
  unfold MainBulletAuthority.keptBullet
  split <;> simp_all

theorem no_bullet_off_record {k : ℕ} {b : TimeSpan} {m : BulletMutability} {kept : Option KeptBullet}
    (h : authority.slot k = .ok (some (.offRecord kept))) : authority.mutability k b ≠ .ok m := by
  simp [MainBulletAuthority.mutability, h]

theorem BulletsSound.restore (hacc : Accepted authority (utteranceOrdinal file) file)
    (hs : BulletsSound authority file) (h : restoreOffRecord authority file = .ok file') :
    BulletsSound authority file' := by
  refine ⟨?_, ?_⟩
  · intro i b hb hgiven
    obtain ⟨hord, hsame | ⟨u, kept, _, hslot, _⟩⟩ := restoreOffRecord_line h i
    · rw [hord] at hgiven
      exact hs.extent i b (by rw [bulletAt, ← hsame]; exact hb) hgiven
    · rw [hord] at hgiven
      simp [MainBulletAuthority.givenBullet, hslot] at hgiven
  · intro i u' hu' s hsp
    obtain ⟨_, hsame | ⟨u, kept, hu, hslot, hnew⟩⟩ := restoreOffRecord_line h i
    · exact hs.words i u' (by rw [← hsame]; exact hu') s hsp
    · cases hnew.symm.trans hu'
      -- a bullet here would not have passed the check, so the line has no timed word
      obtain ⟨b, hb, _⟩ := hs.words i u hu s hsp
      exact absurd (hacc.attributed i b (by rw [bulletAt_eq hu, hb])) (no_bullet_off_record hslot)

end Restore

/-! ## The phases in order -/

section Phases
variable {W : ContentWalker} {writer : WorWriter} {order : HashOrder} {authority : MainBulletAuthority}
  {policy : EndOverlapPolicy} {plan : WorPlan} {postprocess : List DecisionRecord} {file : ChatFile}

theorem Accepted.attributedFile {ord : ℕ → ℕ} (h : Accepted authority ord file) :
    Attributed authority file := by
  intro i b hb
  refine ⟨authority.standing (utteranceOrdinal file i), ?_⟩
  rw [h.ordinals]
  exact h.attributed i b hb

theorem writeWor_before {i : ℕ} {u' : Utterance}
    (h : getUtterance (writeWor W writer plan file) i = some u') :
    ∃ u, getUtterance file i = some u ∧ MainKept u u' := by
  obtain ⟨⟨g, hg, _, hwrite⟩, _⟩ := @writeWor_line W writer plan file i
  rw [hwrite] at h
  obtain ⟨u, hu, rfl⟩ := Option.map_eq_some_iff.mp h
  exact ⟨u, hu, hg u⟩

theorem writeWor_bullet {i : ℕ} {b : TimeSpan}
    (h : bulletAt (writeWor W writer plan file) i = some b) : bulletAt file i = some b := by
  obtain ⟨u', hu', hb⟩ := bulletAt_eq_some h
  obtain ⟨u, hu, hkept⟩ := writeWor_before hu'
  rw [bulletAt_eq hu, Utterance.parsedBullet, ← hkept.bullet]
  exact hb

theorem writeWor_accepted {ord : ℕ → ℕ} (hacc : Accepted authority ord file) :
    Accepted authority ord (writeWor W writer plan file) := by
  refine ⟨?_, ?_⟩
  · intro i
    rw [(@writeWor_line W writer plan file i).2, hacc.ordinals]
  · intro i b hb
    exact hacc.attributed i b (writeWor_bullet hb)

theorem writeWor_sound (hs : BulletsSound authority file) :
    BulletsSound authority (writeWor W writer plan file) := by
  refine ⟨?_, ?_⟩
  · intro i b hb hgiven
    rw [(@writeWor_line W writer plan file i).2] at hgiven
    exact hs.extent i b (writeWor_bullet hb) hgiven
  · intro i u' hu' s hsp
    obtain ⟨u, hu, hkept⟩ := writeWor_before hu'
    obtain ⟨b, hb, hin⟩ := hs.words i u hu s (hkept.timed s hsp)
    exact ⟨b, by rw [Utterance.parsedBullet, hkept.bullet]; exact hb, hin⟩

theorem enforceThenWrite_sound (hattr : Attributed authority file)
    (hc : Contained authority (utteranceOrdinal file) file) (hh : Housed file)
    (hreach : StripsReach W authority policy file) :
    ∃ ordered, enforceMonotonicityThenWriteWor W writer authority policy plan postprocess file =
        .ok ordered ∧ Accepted authority (utteranceOrdinal ordered.file) ordered.file ∧
      BulletsSound authority ordered.file := by
  obtain ⟨sources, st, s2, s', h⟩ := @enforcementRun_exists W authority policy file hattr
  have hen := (h.enforced_iff_housed hc).mpr (h.housed_iff.mpr ⟨hh, hreach⟩)
  have hs : BulletsSound authority s'.file := by
    refine ⟨?_, hen.words⟩
    intro i b hb hgiven
    rw [h.ordered'.ordinals] at hgiven
    exact hen.extent i b hb (keptBullet_none_of_givenBullet hgiven)
  refine ⟨_, by simp only [enforceMonotonicityThenWriteWor, h.run_eq]; rfl, ?_, writeWor_sound hs⟩
  exact accepted_of_attributed (writeWor_accepted h.ordered'.toAccepted).attributedFile

theorem thenFinalize_error (h : ¬ Attributed authority file) :
    ∃ e, thenFinalize W writer order authority policy plan postprocess .enabled file = .error e := by
  unfold Attributed at h
  push Not at h
  obtain ⟨i, b, hb, hbad⟩ := h
  obtain ⟨u, hu, hb⟩ := bulletAt_eq_some hb
  obtain ⟨e, he⟩ := @collectBulleted_error _ _ bulletEntry _ _ _ _ _
    (mem_utterancesIndexed.mpr ⟨hu, rfl⟩) hb hbad
  exact ⟨e, by simp only [thenFinalize, orderedPhases, repairBulletsUnder, collectBulletEntries, he]⟩

theorem thenFinalize_restored {repairPolicy : BulletRepairPolicy} {ordered : FaOrdered}
    {result : RepairResult} {finalized : FaFinalized}
    (hphases : orderedPhases W writer order authority policy plan postprocess repairPolicy file =
      .ok (ordered, result))
    (h : thenFinalize W writer order authority policy plan postprocess repairPolicy file =
      .ok finalized) : restoreOffRecord authority ordered.file = .ok finalized.file := by
  simp only [thenFinalize, hphases, restoreAndVerify] at h
  cases hrestore : restoreOffRecord authority ordered.file with
  | error e => simp [hrestore] at h
  | ok file' =>
  cases hverify : verifyHeld authority file' with
  | error e => simp [hrestore, hverify] at h
  | ok held =>
    simp only [hrestore, hverify, Except.ok.injEq] at h
    rw [← h]

end Phases

/-- Finalization with repair on such a file. A bullet the authority does not accept is refused. Otherwise, if
  every averaged pair fits and every strip reaches, the bullets are sound from the last phase that moves one
  on. -/
theorem thenFinalize_bullets_sound (W : ContentWalker) (writer : WorWriter) (order : HashOrder)
    (authority : MainBulletAuthority) (policy : EndOverlapPolicy) (plan : WorPlan)
    (postprocess : List DecisionRecord) (file : ChatFile)
    (hextent : ∀ i b, bulletAt file i = some b →
      authority.keptBullet (utteranceOrdinal file i) = none → b.startMs < b.endMs)
    (hwords : ∀ i u b, getUtterance file i = some u → u.parsedBullet = some b →
      ∀ s ∈ u.timedSpans, s.Within b) (hhoused : Housed file)
    (hfits : RepairFits W order authority policy file)
    (hreach : ∀ repaired result, repairBulletsUnder W order authority policy file =
      .ok (repaired, result) → StripsReach W authority policy repaired) :
    (¬ Attributed authority file ∧ ∃ e,
      thenFinalize W writer order authority policy plan postprocess .enabled file = .error e) ∨
    (Attributed authority file ∧ ∃ ordered result,
      orderedPhases W writer order authority policy plan postprocess .enabled file =
        .ok (ordered, result) ∧ BulletsSound authority ordered.file ∧
      ∀ finalized, thenFinalize W writer order authority policy plan postprocess .enabled file =
        .ok finalized → BulletsSound authority finalized.file) := by
  by_cases hattr : Attributed authority file
  · right
    refine ⟨hattr, ?_⟩
    obtain ⟨entries, entries1, entries2, entries3, s1, s2, h⟩ :=
      @repairRun_exists W order authority policy file hattr
    obtain ⟨result, hrepair⟩ := h.run_eq
    obtain ⟨hc, hh⟩ := h.contained ⟨hextent, hwords⟩ hhoused hfits
    have hacc := h.accepted
    have hord : utteranceOrdinal (applyRemovals W s2.file (findLisRemovals order entries3)) =
        utteranceOrdinal file := funext hacc.ordinals
    rw [← hord] at hc
    obtain ⟨ordered, hordered, hacc', hsound⟩ := @enforceThenWrite_sound W writer authority policy
      plan postprocess _ hacc.attributedFile hc hh (hreach _ _ hrepair)
    have hphases : orderedPhases W writer order authority policy plan postprocess .enabled file =
        .ok (ordered, result) := by
      simp only [orderedPhases, hrepair, hordered]
    refine ⟨ordered, result, hphases, hsound, ?_⟩
    intro finalized hfin
    exact hsound.restore hacc' (thenFinalize_restored hphases hfin)
  · exact .inl ⟨hattr, thenFinalize_error hattr⟩

def HashOrder.insertion : HashOrder := ⟨id, fun keys => List.Perm.refl keys⟩

/-- Two overlapping lines of one speaker without words. The midpoint of the overlap lies
inside both. -/
def averagedFile : ChatFile :=
  [.utterance ⟨"CHI", [], some (.parsed ⟨0, 100⟩), [], [], []⟩,
   .utterance ⟨"CHI", [], some (.parsed ⟨50, 150⟩), [], [], []⟩]

theorem averagedFile_repairFits :
    RepairFits .unconditional .insertion .deriveFromWords .preserveCrossSpeaker averagedFile := by
  refine ⟨?_, ?_, ?_⟩
  · intro entries entries1 h h1
    cases h
    cases h1
    refine ⟨?_, fun _ _ => trivial⟩
    intro r eu lu eb lb hres
    cases hres
    refine ⟨fun hr => absurd hr (by decide), fun _ => ⟨by decide, by decide, ?_⟩⟩
    intro t ht
    cases ht
  · intro entries s1 entries2 h h1 h2
    cases h
    cases h1
    cases h2
    refine ⟨?_, fun _ _ => trivial⟩
    intro r eu lu eb lb hres
    cases hres
  · intro entries s2 entries3 h h1 h2 l hl
    cases h
    cases h1
    cases h2
    cases hl

theorem thenFinalize_bullets_sound_averaged : ∃ ordered result,
      orderedPhases .unconditional .mainWords .insertion .deriveFromWords .preserveCrossSpeaker
        .suppressed [] .enabled averagedFile = .ok (ordered, result) ∧
      BulletsSound .deriveFromWords ordered.file ∧
      ∀ finalized, thenFinalize .unconditional .mainWords .insertion .deriveFromWords
        .preserveCrossSpeaker .suppressed [] .enabled averagedFile = .ok finalized →
        BulletsSound .deriveFromWords finalized.file := by
  have hinst := thenFinalize_bullets_sound .unconditional .mainWords .insertion .deriveFromWords
    .preserveCrossSpeaker .suppressed [] averagedFile (by
      intro i b hb _
      match i, hb with
      | 0, hb => cases hb; decide
      | 1, hb => cases hb; decide) (by
      intro i u b hu _ s hs
      match i, hu with
      | 0, hu => cases hu; cases hs
      | 1, hu => cases hu; cases hs) (by
      intro i u hu hnone
      match i, hu with
      | 0, hu => cases hu; rfl
      | 1, hu => cases hu; rfl) averagedFile_repairFits (by
      intro repaired result hrepair
      cases hrepair
      -- the run leaves no timed word, so each of its strips reached
      obtain ⟨sources, st, s2, s', h⟩ := @enforcementRun_exists .unconditional .deriveFromWords
        .preserveCrossSpeaker _ (attributed_deriveFromWords _)
      refine (h.housed_iff.mp ?_).2
      cases h.run_eq
      intro i u hu hnone
      match i, hu with
      | 0, hu => cases hu; rfl
      | 1, hu => cases hu; rfl)
  rcases hinst with ⟨hno, _⟩ | ⟨_, hrun⟩
  · exact absurd (attributed_deriveFromWords averagedFile) hno
  · exact hrun

def invertedAverageFile : ChatFile :=
  [.utterance ⟨"CHI", [], some (.parsed ⟨0, 100⟩), [], [], []⟩,
   .utterance ⟨"CHI", [], some (.parsed ⟨50, 60⟩), [], [], []⟩]

/-- The average moves the second start past its end, and no later phase looks at it. -/
theorem inverted_average_remains :
    (∀ i b, bulletAt invertedAverageFile i = some b → b.startMs < b.endMs) ∧
    (∀ i u, getUtterance invertedAverageFile i = some u → u.timedSpans = []) ∧
    ∃ finalized, thenFinalize .unconditional .mainWords .insertion .deriveFromWords
        .preserveCrossSpeaker .suppressed [] .enabled invertedAverageFile = .ok finalized ∧
      bulletAt finalized.file 1 = some ⟨75, 60⟩ ∧ ¬ BulletsSound .deriveFromWords finalized.file := by
  refine ⟨?_, ?_, _, rfl, rfl, ?_⟩
  · intro i b hb
    match i, hb with
    | 0, hb => cases hb; decide
    | 1, hb => cases hb; decide
  · intro i u hu
    match i, hu with
    | 0, hu => cases hu; rfl
    | 1, hu => cases hu; rfl
  · intro h
    exact absurd (h.extent 1 ⟨75, 60⟩ rfl rfl) (by decide)

end Batchalign.Fa
