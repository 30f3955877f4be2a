import Batchalign.Fa.Impose
import Batchalign.Fa.Spared

/- What an input's main bullets come to when they are kept: `then_impose` followed by `then_finalize`.
   The restore finds every live bullet where the input had it. Whether the words obey depends on the
   clamp, which keeps a timing that runs backward across its bound, or one that ends at 0 under the
   empty bound. -/
namespace Batchalign.Fa
open List

/-! ## Utterances by ordinal -/

/-- The `k`-th utterance of a file. -/
def nthUtterance (file : ChatFile) (k : ℕ) : Option Utterance := (file.filterMap Line.utterance?)[k]?

variable {k : ℕ} {u : Utterance}

theorem nthUtterance_of_line {file : ChatFile} {i : ℕ} (h : getUtterance file i = some u) :
    nthUtterance file (utteranceOrdinal file i) = some u := by
  induction file generalizing i with
  | nil => cases h
  | cons line lines ih =>
    cases line with
    | header text =>
      cases i with
      | zero => cases h
      | succ i => exact ih h
    | utterance v =>
      cases i with
      | zero =>
        obtain rfl : v = u := Option.some.inj h
        rfl
      | succ i => exact ih h

theorem line_of_nthUtterance {file : ChatFile} (h : nthUtterance file k = some u) :
    ∃ i, getUtterance file i = some u ∧ utteranceOrdinal file i = k := by
  induction file generalizing k with
  | nil => cases h
  | cons line lines ih =>
    cases line with
    | header text =>
      obtain ⟨i, hi, hk⟩ := ih h
      exact ⟨i + 1, hi, hk⟩
    | utterance v =>
      cases k with
      | zero =>
        obtain rfl : v = u := Option.some.inj h
        exact ⟨0, rfl, rfl⟩
      | succ k =>
        obtain ⟨i, hi, hk⟩ := ih h
        exact ⟨i + 1, hi, by rw [ordinal_utterance, hk]⟩

theorem utterancesFrom_utterances (lines : ChatFile) (l o : ℕ) :
    (utterancesFrom l o lines).map (fun x => x.2.2) = lines.filterMap Line.utterance? := by
  induction lines generalizing l o with
  | nil => rfl
  | cons line lines ih =>
    cases line with
    | header text => exact ih (l + 1) o
    | utterance u => exact congrArg (List.cons u) (ih (l + 1) (o + 1))

theorem utterancesIndexed_length (file : ChatFile) :
    (utterancesIndexed file).length = (file.filterMap Line.utterance?).length := by
  rw [← utterancesFrom_utterances file 0 0, length_map]
  rfl

theorem utterances_length_of_ordinals {file file' : ChatFile}
    (h : ∀ i, utteranceOrdinal file' i = utteranceOrdinal file i) :
    (file'.filterMap Line.utterance?).length = (file.filterMap Line.utterance?).length := by
  have hall := h (file.length + file'.length)
  unfold utteranceOrdinal at hall
  rw [take_of_length_le (by omega), take_of_length_le (by omega)] at hall
  exact hall

theorem getUtterance_isSome_iff (file : ChatFile) (i : ℕ) :
    (getUtterance file i).isSome ↔ utteranceOrdinal file (i + 1) = utteranceOrdinal file i + 1 := by
  induction file generalizing i with
  | nil =>
    constructor
    · intro h
      cases h
    · intro h
      cases i <;> cases h
  | cons line lines ih =>
    cases line with
    | header text =>
      cases i with
      | zero =>
        constructor
        · intro h
          cases h
        · intro h
          cases h
      | succ i => exact ih i
    | utterance u =>
      cases i with
      | zero => exact ⟨fun _ => rfl, fun _ => rfl⟩
      | succ i =>
        rw [ordinal_utterance, ordinal_utterance, Nat.add_right_cancel_iff]
        exact ih i

theorem line_of_ordinals {file file' : ChatFile} (h : ∀ i, utteranceOrdinal file' i = utteranceOrdinal file i) {i : ℕ}
    {u' : Utterance} (hu' : getUtterance file' i = some u') : ∃ u, getUtterance file i = some u := by
  have hsome := (getUtterance_isSome_iff file' i).mp (by rw [hu']; rfl)
  rw [h, h] at hsome
  exact Option.isSome_iff_exists.mp ((getUtterance_isSome_iff file i).mpr hsome)

/-! ## The binding -/

theorem bindFrom_spec {entries : List (ℕ × ℕ × Utterance)} {givens : List Given} (h : bindFrom entries = .ok givens) :
    givens.length = entries.length ∧ ∀ (k : ℕ) (x : ℕ × ℕ × Utterance), entries[k]? = some x →
      ∃ kept, keptOf x.1 x.2.1 x.2.2 = .ok kept ∧ givens[k]? = some (givenOf x.2.2 kept) := by
  induction entries generalizing givens with
  | nil =>
    cases h
    refine ⟨rfl, ?_⟩
    intro k x hx
    cases hx
  | cons entry entries ih =>
    unfold bindFrom at h
    split at h
    · cases h
    · next kept hkept =>
      split at h
      · cases h
      · next rest hrest =>
        cases h
        obtain ⟨hlen, hget⟩ := ih hrest
        refine ⟨congrArg Nat.succ hlen, ?_⟩
        intro k x hx
        cases k with
        | zero =>
          cases hx
          exact ⟨kept, hkept, rfl⟩
        | succ k => exact hget k x hx

theorem keptOf_spec {lineIdx utteranceIdx : ℕ} {kept : Option KeptBullet}
    (h : keptOf lineIdx utteranceIdx u = .ok kept) :
    (kept = none ∧ u.bullet = none) ∨ ∃ k, kept = some k ∧ u.bullet = some (.parsed k.toBullet) := by
  unfold keptOf at h
  split at h
  · cases h
  · next hbullet =>
    cases h
    exact Or.inl ⟨rfl, hbullet⟩
  · next bullet hbullet =>
    right
    rw [hbullet]
    unfold GivenMainBullet.classify at h
    split_ifs at h with hlt heq
    · cases h
      exact ⟨_, rfl, rfl⟩
    · cases h
      refine ⟨_, rfl, ?_⟩
      unfold KeptBullet.toBullet KeptBullet.startMs KeptBullet.endMs
      obtain ⟨startMs, endMs⟩ := bullet
      simp only at heq
      rw [heq]

structure Bound (policy : MainBulletPolicy) (input : ChatFile) (given : GivenMainBullets) : Prop where
  count : given.byUtterance.length = (input.filterMap Line.utterance?).length
  absence : given.absence = .keep ↔ policy = .keepExact
  slot : ∀ k v, nthUtterance input k = some v → ∃ kept : Option KeptBullet,
    v.bullet = kept.map (fun kept => BulletState.parsed kept.toBullet) ∧
    given.byUtterance[k]? = some (givenOf v kept)

theorem bound_of_bind {policy : MainBulletPolicy} {input : ChatFile} {authority : MainBulletAuthority}
    (hpolicy : policy ≠ .deriveFromWords) (h : MainBulletAuthority.bind policy input = .ok authority) :
    ∃ given, authority = .keep given ∧ Bound policy input given := by
  have hspec : ∀ givens absence, bindFrom (utterancesIndexed input) = .ok givens →
      (absence = AbsencePolicy.keep ↔ policy = .keepExact) → Bound policy input ⟨givens, absence⟩ := by
    intro givens absence hbind habsence
    obtain ⟨hlen, hget⟩ := bindFrom_spec hbind
    refine ⟨by rw [hlen, utterancesIndexed_length], habsence, ?_⟩
    intro k v hv
    unfold nthUtterance at hv
    rw [← utterancesFrom_utterances input 0 0, getElem?_map, Option.map_eq_some_iff] at hv
    obtain ⟨x, hx, rfl⟩ := hv
    obtain ⟨kept, hkept, hgiven⟩ := hget k x hx
    refine ⟨kept, ?_, hgiven⟩
    obtain ⟨rfl, hbullet⟩ | ⟨kept', rfl, hbullet⟩ := keptOf_spec hkept
    · rw [hbullet]
      rfl
    · rw [hbullet]
      rfl
  unfold MainBulletAuthority.bind at h
  cases policy with
  | deriveFromWords => exact absurd rfl hpolicy
  | keepGiven =>
    simp only at h
    split at h
    · cases h
    · next givens hgivens =>
      cases h
      exact ⟨_, rfl, hspec givens .derive hgivens (by simp only [reduceCtorEq])⟩
  | keepExact =>
    simp only at h
    split at h
    · cases h
    · next givens hgivens =>
      cases h
      exact ⟨_, rfl, hspec givens .keep hgivens (by simp only)⟩

theorem Bound.slot_cases {policy : MainBulletPolicy} {input : ChatFile} {given : GivenMainBullets}
    (h : Bound policy input given) {v : Utterance} (hv : nthUtterance input k = some v) :
    (∃ kept : Option KeptBullet, RecordingPresence.of v ≠ .inRecording ∧ given.slot k = .ok (.offRecord kept) ∧
      v.bullet = kept.map fun kept => BulletState.parsed kept.toBullet) ∨
    (RecordingPresence.of v = .inRecording ∧ v.bullet = none ∧
      (policy = .keepExact ∧ given.slot k = .ok .keptAbsent ∨ policy ≠ .keepExact ∧ given.slot k = .ok .unbulleted)) ∨
    ∃ kept : KeptBullet, RecordingPresence.of v = .inRecording ∧ given.slot k = .ok (.kept kept) ∧
      v.bullet = some (.parsed kept.toBullet) := by
  obtain ⟨kept, hbullet, hgiven⟩ := h.slot k v hv
  unfold givenOf at hgiven
  cases hpresence : RecordingPresence.of v with
  | notInRecording postcode =>
    rw [hpresence] at hgiven
    refine Or.inl ⟨kept, by simp only [ne_eq, reduceCtorEq, not_false_eq_true], ?_, hbullet⟩
    unfold GivenMainBullets.slot
    simp only [hgiven]
  | inRecording =>
    rw [hpresence] at hgiven
    cases kept with
    | none =>
      refine Or.inr (Or.inl ⟨rfl, hbullet, ?_⟩)
      unfold GivenMainBullets.slot
      simp only [hgiven]
      cases habsence : given.absence with
      | keep => exact Or.inl ⟨h.absence.mp habsence, rfl⟩
      | derive =>
        refine Or.inr ⟨?_, rfl⟩
        intro hexact
        rw [h.absence.mpr hexact] at habsence
        cases habsence
    | some kept =>
      refine Or.inr (Or.inr ⟨kept, rfl, ?_, hbullet⟩)
      unfold GivenMainBullets.slot
      simp only [hgiven]

/-! ## The imposed file -/

section Impose
variable {W : ContentWalker} {given : GivenMainBullets}

/-- What imposing leaves at each line of a walk that began with `k` utterances before it. -/
structure ImposedLines (W : ContentWalker) (given : GivenMainBullets) (k : ℕ) (lines imposed : ChatFile) :
    Prop where
  ordinals : ∀ i, utteranceOrdinal imposed i = utteranceOrdinal lines i
  none : ∀ i, getUtterance lines i = none → getUtterance imposed i = none
  line : ∀ i u, getUtterance lines i = some u → ∃ slot, given.slot (k + utteranceOrdinal lines i) = .ok slot ∧
    getUtterance imposed i = some (imposeUtterance W slot u).1

theorem authoritySlot_of_slot {slot : GivenSlot} (h : given.slot k = .ok slot) :
    MainBulletAuthority.slot (.keep given) k = .ok (some slot) := by
  unfold MainBulletAuthority.slot
  simp only [h]

theorem slot_exists_of_lt (hk : k < given.byUtterance.length) : ∃ slot, given.slot k = .ok slot := by
  unfold GivenMainBullets.slot
  rw [getElem?_eq_getElem hk]
  cases given.byUtterance[k] with
  | kept kept => exact ⟨_, rfl⟩
  | offRecord kept => exact ⟨_, rfl⟩
  | unbulleted => cases given.absence <;> exact ⟨_, rfl⟩

theorem imposeFrom_lines (lines : ChatFile) (l k : ℕ)
    (hcount : k + (lines.filterMap Line.utterance?).length ≤ given.byUtterance.length) :
    ∃ imposition, imposeFrom W given l k lines = .ok imposition ∧ ImposedLines W given k lines imposition.file := by
  induction lines generalizing l k with
  | nil =>
    refine ⟨⟨[], [], []⟩, rfl, fun _ => rfl, fun _ _ => rfl, ?_⟩
    intro i u hu
    cases hu
  | cons line lines ih =>
    cases line with
    | header text =>
      obtain ⟨later, hlater, hlines⟩ := ih (l + 1) k hcount
      refine ⟨{ later with file := .header text :: later.file }, by simp only [imposeFrom, hlater], ?_, ?_, ?_⟩
      · intro i
        cases i with
        | zero => rfl
        | succ i => exact hlines.ordinals i
      · intro i hnone
        cases i with
        | zero => rfl
        | succ i => exact hlines.none i hnone
      · intro i u hu
        cases i with
        | zero => cases hu
        | succ i => exact hlines.line i u hu
    | utterance u =>
      change k + ((lines.filterMap Line.utterance?).length + 1) ≤ _ at hcount
      obtain ⟨later, hlater, hlines⟩ := ih (l + 1) (k + 1) (by omega)
      obtain ⟨slot, hslot⟩ := slot_exists_of_lt (show k < given.byUtterance.length by omega)
      refine ⟨⟨.utterance (imposeUtterance W slot u).1 :: later.file, _, _⟩,
        by simp only [imposeFrom, hslot, hlater]; rfl, ?_, ?_, ?_⟩
      · intro i
        cases i with
        | zero => rfl
        | succ i => exact congrArg Nat.succ (hlines.ordinals i)
      · intro i hnone
        cases i with
        | zero => cases hnone
        | succ i => exact hlines.none i hnone
      · intro i v hv
        cases i with
        | zero =>
          obtain rfl : u = v := Option.some.inj hv
          exact ⟨slot, hslot, rfl⟩
        | succ i =>
          obtain ⟨slot', hslot', hnew⟩ := hlines.line i v hv
          refine ⟨slot', ?_, hnew⟩
          rw [ordinal_utterance, ← hslot']
          congr 1
          omega

theorem imposed_attributed {file imposed : ChatFile} (hlines : ImposedLines W given 0 file imposed)
    (hoff : ∀ i u kept, getUtterance file i = some u →
      given.slot (utteranceOrdinal file i) = .ok (.offRecord kept) → u.bullet = none) :
    Attributed (.keep given) imposed := by
  intro i b hb
  obtain ⟨u, hu, hbu⟩ := bulletAt_eq_some hb
  cases hw : getUtterance file i with
  | none =>
    rw [hlines.none i hw] at hu
    cases hu
  | some w =>
  obtain ⟨slot, hslot, hnew⟩ := hlines.line i w hw
  rw [zero_add] at hslot
  cases hnew.symm.trans hu
  unfold MainBulletAuthority.mutability
  rw [hlines.ordinals, authoritySlot_of_slot hslot]
  cases slot with
  | unbulleted => exact ⟨_, rfl⟩
  | keptAbsent => cases hbu
  | offRecord kept =>
    have hnone : w.bullet = none := hoff i w kept hw hslot
    unfold imposeUtterance at hbu
    rw [Utterance.parsedBullet, hnone] at hbu
    cases hbu
  | kept kept =>
    cases hbu
    simp only
    rw [if_pos (KeptBullet.isLive_iff.mpr rfl)]
    exact ⟨_, rfl⟩

end Impose

/-! ## The phases -/

structure PhasesLine (authority : MainBulletAuthority) (plan : WorPlan) (k : ℕ) (u u' : Utterance) : Prop where
  parsed : u'.Unparsed → u.Unparsed
  main : authority.keptBullet k ≠ none ∨ u.parsedBullet = none → MainKept u u'
  same : plan = .suppressed → authority.keptBullet k ≠ none ∨ u.parsedBullet = none → u' = u

section Phases
variable {W : ContentWalker} {writer : WorWriter} {order : HashOrder} {authority : MainBulletAuthority}
  {policy : EndOverlapPolicy} {plan : WorPlan} {postprocess : List DecisionRecord} {file : ChatFile}

theorem MainKept.parsed {u u' : Utterance} (h : MainKept u u') (hunparsed : u'.Unparsed) : u.Unparsed := by
  obtain ⟨source, hsource⟩ := hunparsed
  exact ⟨source, by rw [← h.bullet]; exact hsource⟩

theorem enforceThenWrite_lines (hattr : Attributed authority file) : ∃ ordered,
    enforceMonotonicityThenWriteWor W writer authority policy plan postprocess file = .ok ordered ∧
    ∀ i, utteranceOrdinal ordered.file i = utteranceOrdinal file i ∧
      ∀ u, getUtterance file i = some u → ∃ u', getUtterance ordered.file i = some u' ∧
        PhasesLine authority plan (utteranceOrdinal file i) u u' := by
  obtain ⟨sources, st, s2, s', h⟩ := @enforcementRun_exists W authority policy file hattr
  refine ⟨_, by simp only [enforceMonotonicityThenWriteWor, h.run_eq]; rfl, ?_⟩
  intro i
  obtain ⟨⟨g, hg, hidle, hwrite⟩, hord⟩ := @writeWor_line W writer
    (plan.alsoTouched (s'.effects.filterMap MonotonicityEffect.wordMutatedUtterance)) s'.file i
  refine ⟨by rw [hord, h.ordered'.ordinals], ?_⟩
  intro u hu
  obtain ⟨u', hu', hspared⟩ := h.spared i u hu
  have hsame : authority.keptBullet (utteranceOrdinal file i) ≠ none ∨ u.parsedBullet = none → u' = u := by
    rintro (hkept | hnone)
    · have hget := h.kept i hkept
      rw [hu', hu] at hget
      exact Option.some.inj hget
    · exact hspared.unbulleted hnone
  refine ⟨g u', by rw [hwrite, hu', Option.map_some], ?_, ?_, ?_⟩
  · intro hunparsed
    exact hspared.parsed ((hg u').parsed hunparsed)
  · intro hcase
    rw [hsame hcase]
    exact hg u
  · rintro rfl hcase
    have hnone : utteranceOrdinal s'.file i ∉
        (WorPlan.alsoTouched .suppressed (s'.effects.filterMap MonotonicityEffect.wordMutatedUtterance)).candidates := by
      intro hmem
      cases hmem
    rw [hidle hnone, hsame hcase]

theorem orderedPhases_lines (repairPolicy : BulletRepairPolicy) (hattr : Attributed authority file) :
    ∃ ordered result, orderedPhases W writer order authority policy plan postprocess repairPolicy file =
        .ok (ordered, result) ∧ ∀ i, utteranceOrdinal ordered.file i = utteranceOrdinal file i ∧
        ∀ u, getUtterance file i = some u → ∃ u', getUtterance ordered.file i = some u' ∧
          PhasesLine authority plan (utteranceOrdinal file i) u u' := by
  cases repairPolicy with
  | disabled =>
    obtain ⟨ordered, hordered, hlines⟩ := @enforceThenWrite_lines W writer authority policy plan postprocess file hattr
    exact ⟨ordered, ⟨.default, []⟩, by simp only [orderedPhases, hordered], hlines⟩
  | enabled =>
    obtain ⟨entries, entries1, entries2, entries3, s1, s2, h⟩ := @repairRun_exists W order authority policy file hattr
    obtain ⟨result, hrepair⟩ := h.run_eq
    obtain ⟨hspared, hkept⟩ := h.spared
    obtain ⟨ordered, hordered, hlines⟩ := @enforceThenWrite_lines W writer authority policy plan postprocess _
      h.accepted.attributedFile
    refine ⟨ordered, result, by simp only [orderedPhases, hrepair, hordered], ?_⟩
    intro i
    obtain ⟨hord, hget⟩ := hlines i
    rw [h.accepted.ordinals] at hord hget
    refine ⟨hord, ?_⟩
    intro u hu
    obtain ⟨v, hv, hsparedLine⟩ := hspared i u hu
    obtain ⟨u', hu', hphases⟩ := hget v hv
    have hsame : authority.keptBullet (utteranceOrdinal file i) ≠ none ∨ u.parsedBullet = none → v = u := by
      rintro (hcase | hnone)
      · have hline := hkept i hcase
        rw [hv, hu] at hline
        exact Option.some.inj hline
      · exact hsparedLine.unbulleted hnone
    refine ⟨u', hu', fun hunparsed => hsparedLine.parsed (hphases.parsed hunparsed), ?_, ?_⟩
    · intro hcase
      have hvu := hsame hcase
      subst hvu
      exact hphases.main hcase
    · intro hplan hcase
      have hvu := hsame hcase
      subst hvu
      exact hphases.same hplan hcase

end Phases

/-! ## The restore and the last check -/

section Verify
variable {given : GivenMainBullets}

theorem liveBullet_ok (h : ¬ u.Unparsed) : liveBullet k u.bullet = .ok u.parsedBullet := by
  unfold liveBullet Utterance.parsedBullet
  cases hbullet : u.bullet with
  | none => rfl
  | some state =>
    cases state with
    | parsed bullet => rfl
    | unparsed source => exact absurd ⟨source, hbullet⟩ h

theorem restoreFrom_ok (lines : ChatFile) (k : ℕ)
    (hcount : k + (lines.filterMap Line.utterance?).length ≤ given.byUtterance.length)
    (h : ∀ i u, getUtterance lines i = some u → ¬ u.Unparsed) : ∃ lines', restoreFrom given k lines = .ok lines' := by
  induction lines generalizing k with
  | nil => exact ⟨[], rfl⟩
  | cons line lines ih =>
    cases line with
    | header text =>
      obtain ⟨lines', hlines'⟩ := ih k hcount fun i u hu => h (i + 1) u hu
      exact ⟨_, by simp only [restoreFrom, hlines']; rfl⟩
    | utterance u =>
      change k + ((lines.filterMap Line.utterance?).length + 1) ≤ _ at hcount
      obtain ⟨lines', hlines'⟩ := ih (k + 1) (by omega) fun i u hu => h (i + 1) u hu
      obtain ⟨slot, hslot⟩ := slot_exists_of_lt (show k < given.byUtterance.length by omega)
      exact ⟨_, by simp only [restoreFrom, liveBullet_ok (h 0 u rfl), hslot, hlines']; rfl⟩

theorem restoreFrom_parsed {lines lines' : ChatFile} (h : restoreFrom given k lines = .ok lines') {i : ℕ}
    (hu : getUtterance lines i = some u) : ¬ u.Unparsed := by
  rintro ⟨source, hsource⟩
  induction lines generalizing lines' k i with
  | nil => cases hu
  | cons line lines ih =>
    cases line with
    | header text =>
      unfold restoreFrom at h
      split at h
      · cases h
      · next rest hrest =>
        cases i with
        | zero => cases hu
        | succ i => exact ih hrest hu
    | utterance v =>
      unfold restoreFrom at h
      split at h
      · cases h
      · next live hlive =>
        split at h
        · cases h
        · split at h
          · cases h
          · next rest hrest =>
            cases i with
            | zero =>
              obtain rfl : v = u := Option.some.inj hu
              rw [hsource] at hlive
              cases hlive
            | succ i => exact ih hrest hu

theorem verifyFrom_ok (entries : List (ℕ × ℕ × Utterance)) (working kept keptAbsent : ℕ)
    (hcount : working + entries.length = given.byUtterance.length)
    (h : ∀ x ∈ entries, ¬ x.2.2.Unparsed ∧ ∃ slot counts, given.slot x.2.1 = .ok slot ∧
      heldAt x.2.1 slot x.2.2.parsedBullet = .ok counts) :
    ∃ held, verifyFrom given working kept keptAbsent entries = .ok held := by
  induction entries generalizing working kept keptAbsent with
  | nil =>
    rw [length_nil, add_zero] at hcount
    unfold verifyFrom
    rw [if_pos hcount]
    exact ⟨_, rfl⟩
  | cons entry entries ih =>
    obtain ⟨hparsed, slot, ⟨k, a⟩, hslot, hheld⟩ := h _ (mem_cons_self ..)
    rw [length_cons] at hcount
    obtain ⟨held, hrest⟩ := ih (working + 1) (kept + k) (keptAbsent + a) (by omega)
      fun x hx => h x (mem_cons_of_mem _ hx)
    refine ⟨held, ?_⟩
    unfold verifyFrom
    simp only [liveBullet_ok hparsed, hslot, hheld]
    exact hrest

end Verify

/-! ## Lines at the end -/

section Lines
variable {W : ContentWalker} {given : GivenMainBullets} {plan : WorPlan} {w u : Utterance}

variable {kept : KeptBullet}

theorem kept_line (hslot : given.slot k = .ok (.kept kept))
    (h : PhasesLine (.keep given) plan k (imposeUtterance W (.kept kept) w).1 u) :
    u.bullet = some (.parsed kept.toBullet) ∧
      (∀ s ∈ u.timedSpans, ∃ t ∈ w.timedSpans, kept.span.kept t = some s) ∧
      (plan = .suppressed → ∀ t ∈ w.timedSpans, ∀ s, kept.span.kept t = some s → s ∈ u.timedSpans) := by
  have hkept : MainBulletAuthority.keptBullet (.keep given) k ≠ none := by
    unfold MainBulletAuthority.keptBullet
    rw [authoritySlot_of_slot hslot]
    simp
  have hmain := h.main (Or.inl hkept)
  have hspans : (imposeUtterance W (.kept kept) w).1.timedSpans = w.timedSpans.filterMap kept.span.kept := by
    unfold imposeUtterance
    rw [timedSpans_clampWordsWithin]
    rfl
  refine ⟨hmain.bullet, ?_, ?_⟩
  · intro s hs
    have hbefore := hmain.timed s hs
    rw [hspans] at hbefore
    exact mem_filterMap.mp hbefore
  · intro hplan t ht s hs
    rw [h.same hplan (Or.inl hkept), hspans]
    exact mem_filterMap.mpr ⟨t, ht, hs⟩

theorem unbulleted_line (slot : GivenSlot) (hnone : (imposeUtterance W slot w).1.bullet = none)
    (h : PhasesLine (.keep given) plan k (imposeUtterance W slot w).1 u) :
    u.bullet = none ∧ (∀ s ∈ u.timedSpans, s ∈ (imposeUtterance W slot w).1.timedSpans) ∧
      (plan = .suppressed → u = (imposeUtterance W slot w).1) := by
  have hparsed : (imposeUtterance W slot w).1.parsedBullet = none := by
    rw [Utterance.parsedBullet, hnone, Option.bind_none]
  have hmain := h.main (Or.inr hparsed)
  exact ⟨by rw [hmain.bullet]; exact hnone, hmain.timed, fun hplan => h.same hplan (Or.inr hparsed)⟩

theorem timedSpans_keptAbsent (W : ContentWalker) (w : Utterance) :
    (imposeUtterance W .keptAbsent w).1.timedSpans = w.timedSpans.filterMap (ClampBound.kept ⟨0, some 0⟩) := by
  unfold imposeUtterance
  rw [timedSpans_clampWordsWithin]
  rfl

theorem kept_emptyBound (t s : TimeSpan) :
    ClampBound.kept ⟨0, some 0⟩ t = some s ↔ s = t ∧ t.endMs = 0 := by
  unfold ClampBound.kept ClampBound.cut ClampBound.holds clampTranscriptWordToBullet
  by_cases hend : t.endMs = 0
  · simp only [zero_le, decide_true, hend, le_refl, Bool.and_self, if_true, Option.some.injEq, and_true]
    exact eq_comm
  · have hnot : ¬ t.endMs ≤ 0 := by omega
    simp [hnot, hend]

def TimeSpan.LiesIn (s b : TimeSpan) : Prop :=
  (b.startMs ≤ s.startMs ∧ s.startMs ≤ b.endMs) ∧ b.startMs ≤ s.endMs ∧ s.endMs ≤ b.endMs

theorem kept_span_liesIn {t s : TimeSpan} (h : kept.span.kept t = some s)
    (hback : kept.startMs ≤ t.startMs → t.endMs ≤ kept.endMs → t.startMs ≤ kept.endMs ∧ kept.startMs ≤ t.endMs) :
    s.LiesIn kept.toBullet := by
  obtain ⟨hstart, hend⟩ := ClampBound.kept_inside h
  have hend := hend kept.endMs rfl
  change kept.startMs ≤ s.startMs at hstart
  obtain rfl | ⟨hlt, -, -, -⟩ := ClampBound.kept_eq_some h
  · obtain ⟨hlow, hhigh⟩ := hback hstart hend
    exact ⟨⟨hstart, hlow⟩, hhigh, hend⟩
  · refine ⟨⟨hstart, ?_⟩, ?_, hend⟩
    · change s.startMs ≤ kept.endMs
      omega
    · change kept.startMs ≤ s.endMs
      omega

theorem kept_span_of_holds {t : TimeSpan} (hstart : kept.startMs ≤ t.startMs)
    (hend : t.endMs ≤ kept.endMs) : kept.span.kept t = some t := by
  unfold ClampBound.kept ClampBound.cut ClampBound.holds KeptBullet.span
  simp [hstart, hend]

end Lines

/-! ## The whole run -/

section Run
variable {W : ContentWalker} {writer : WorWriter} {order : HashOrder} {given : GivenMainBullets}
  {policy : EndOverlapPolicy} {plan : WorPlan} {postprocess : List DecisionRecord}
  {repairPolicy : BulletRepairPolicy} {working : ChatFile}

theorem imposeThenFinalize_ordered
    (hcount : (working.filterMap Line.utterance?).length = given.byUtterance.length)
    (hoff : ∀ k u kept, nthUtterance working k = some u → given.slot k = .ok (.offRecord kept) → u.bullet = none) :
    ∃ ordered : FaOrdered, (∀ i, utteranceOrdinal ordered.file i = utteranceOrdinal working i) ∧
      (∀ i w, getUtterance working i = some w → ∃ slot u, given.slot (utteranceOrdinal working i) = .ok slot ∧
        getUtterance ordered.file i = some u ∧
        PhasesLine (.keep given) plan (utteranceOrdinal working i) (imposeUtterance W slot w).1 u) ∧
      (∀ e, restoreAndVerify (.keep given) ordered.file = .error e →
        imposeThenFinalize W writer order (.keep given) policy plan postprocess repairPolicy working = .error e) ∧
      ∀ file' held, restoreAndVerify (.keep given) ordered.file = .ok (file', held) → ∃ finalized,
        imposeThenFinalize W writer order (.keep given) policy plan postprocess repairPolicy working = .ok finalized ∧
        finalized.file = file' := by
  obtain ⟨imposition, himpose, hlines⟩ := @imposeFrom_lines W given working 0 0 (by omega)
  have hattr := imposed_attributed hlines fun i u kept hu hslot => hoff _ u kept (nthUtterance_of_line hu) hslot
  obtain ⟨ordered, result, hphases, hordered⟩ := @orderedPhases_lines W writer order (.keep given) policy
    (plan.alsoTouched imposition.cuts) (postprocess ++ imposition.records) imposition.file repairPolicy hattr
  refine ⟨ordered, ?_, ?_, ?_, ?_⟩
  · intro i
    rw [(hordered i).1, hlines.ordinals]
  · intro i w hw
    obtain ⟨slot, hslot, himposed⟩ := hlines.line i w hw
    rw [zero_add] at hslot
    obtain ⟨u, hu, hline⟩ := (hordered i).2 _ himposed
    rw [hlines.ordinals] at hline
    refine ⟨slot, u, hslot, hu, hline.parsed, hline.main, ?_⟩
    intro hplan
    apply hline.same
    rw [hplan]
    rfl
  · intro e he
    simp only [imposeThenFinalize, MainBulletAuthority.impose, himpose, thenFinalize, hphases, he]
  · intro file' held hheld
    refine ⟨⟨file', ordered, result.decisions.map RepairDecision.record, result.stats, held⟩, ?_, rfl⟩
    simp only [imposeThenFinalize, MainBulletAuthority.impose, himpose, thenFinalize, hphases, hheld]

end Run

structure KeptAsGiven (policy : MainBulletPolicy) (input final : ChatFile) : Prop where
  given : ∀ k v b, nthUtterance input k = some v → v.parsedBullet = some b →
    ∃ u, nthUtterance final k = some u ∧ u.bullet = some (.parsed b)
  absent : policy = .keepExact → ∀ k v, nthUtterance input k = some v → v.bullet = none →
    ∃ u, nthUtterance final k = some u ∧ u.bullet = none ∧ u.timedSpans = []
  words : ∀ k v b, nthUtterance input k = some v → RecordingPresence.of v = .inRecording →
    v.parsedBullet = some b → ∃ u, nthUtterance final k = some u ∧ ∀ s ∈ u.timedSpans, s.LiesIn b

/-- The timings imposing leaves out of place. An unparsed bullet that may be derived is refused at the end. -/
structure WorkingFits (policy : MainBulletPolicy) (input working : ChatFile) : Prop where
  parsed : policy ≠ .keepExact → ∀ k v w, nthUtterance input k = some v → nthUtterance working k = some w →
    RecordingPresence.of v = .inRecording → v.bullet = none → ¬ w.Unparsed
  absent : policy = .keepExact → ∀ k v w, nthUtterance input k = some v → nthUtterance working k = some w →
    RecordingPresence.of v = .inRecording → v.bullet = none → ∀ s ∈ w.timedSpans, s.endMs ≠ 0
  off_record : policy = .keepExact → ∀ k v w, nthUtterance input k = some v → nthUtterance working k = some w →
    RecordingPresence.of v ≠ .inRecording → v.bullet = none → w.timedSpans = []
  forward : ∀ k v w b, nthUtterance input k = some v → nthUtterance working k = some w →
    RecordingPresence.of v = .inRecording → v.parsedBullet = some b → ∀ s ∈ w.timedSpans,
      b.startMs ≤ s.startMs → s.endMs ≤ b.endMs → s.startMs ≤ b.endMs ∧ b.startMs ≤ s.endMs

section Iff
variable {W : ContentWalker} {policy : MainBulletPolicy} {input working : ChatFile} {given : GivenMainBullets}
  {plan : WorPlan} {ordered : FaOrdered}

def OrderedFrom (W : ContentWalker) (given : GivenMainBullets) (plan : WorPlan) (working : ChatFile)
    (ordered : FaOrdered) : Prop :=
  ∀ i w, getUtterance working i = some w → ∃ slot u, given.slot (utteranceOrdinal working i) = .ok slot ∧
    getUtterance ordered.file i = some u ∧
    PhasesLine (.keep given) plan (utteranceOrdinal working i) (imposeUtterance W slot w).1 u

theorem nthUtterance_same_count {w : Utterance}
    (hcount : (working.filterMap Line.utterance?).length = (input.filterMap Line.utterance?).length)
    (hw : nthUtterance working k = some w) : ∃ v, nthUtterance input k = some v := by
  obtain ⟨hk, -⟩ := List.getElem?_eq_some_iff.mp hw
  exact ⟨_, getElem?_eq_getElem (show k < (input.filterMap Line.utterance?).length by omega)⟩

theorem offRecord_line {kept : Option KeptBullet} {w u : Utterance} (hnone : w.bullet = none)
    (h : PhasesLine (.keep given) plan k (imposeUtterance W (.offRecord kept) w).1 u) :
    u.bullet = none ∧ (∀ s ∈ u.timedSpans, s ∈ w.timedSpans) ∧ (plan = .suppressed → u = w) :=
  unbulleted_line (.offRecord kept) hnone h

theorem restoreAndVerify_ok (hbound : Bound policy input given)
    (hcount : (working.filterMap Line.utterance?).length = (input.filterMap Line.utterance?).length)
    (hoff : ∀ k u kept, nthUtterance working k = some u → given.slot k = .ok (.offRecord kept) → u.bullet = none)
    (hparsed : ∀ k w, nthUtterance working k = some w → given.slot k = .ok .unbulleted → ¬ w.Unparsed)
    (hords : ∀ i, utteranceOrdinal ordered.file i = utteranceOrdinal working i)
    (hlines : OrderedFrom W given plan working ordered) :
    ∃ file' held, restoreAndVerify (.keep given) ordered.file = .ok (file', held) := by
  have htotal : (ordered.file.filterMap Line.utterance?).length = given.byUtterance.length := by
    rw [utterances_length_of_ordinals hords, hcount, hbound.count]
  -- every line, with what the authority says of it
  have hall : ∀ i u, getUtterance ordered.file i = some u → ¬ u.Unparsed ∧ ∃ slot counts,
      given.slot (utteranceOrdinal ordered.file i) = .ok slot ∧ ¬ (restoreUtterance slot u).Unparsed ∧
      heldAt (utteranceOrdinal ordered.file i) slot (restoreUtterance slot u).parsedBullet = .ok counts := by
    intro i u hu
    obtain ⟨w, hw⟩ := line_of_ordinals hords hu
    obtain ⟨slot, u', hslot, hu', hline⟩ := hlines i w hw
    cases hu.symm.trans hu'
    rw [hords i]
    have hbare : u.bullet = none → ¬ u.Unparsed := by
      rintro hnone ⟨source, hsource⟩
      rw [hnone] at hsource
      cases hsource
    cases slot with
    | unbulleted =>
      have hw' : ¬ w.Unparsed := hparsed _ w (nthUtterance_of_line hw) hslot
      have hu' : ¬ u.Unparsed := fun h => hw' (hline.parsed h)
      exact ⟨hu', _, (0, 0), hslot, hu', rfl⟩
    | keptAbsent =>
      have hnone := (unbulleted_line .keptAbsent rfl hline).1
      refine ⟨hbare hnone, _, (0, 1), hslot, hbare hnone, ?_⟩
      unfold restoreUtterance
      rw [Utterance.parsedBullet, hnone]
      rfl
    | kept kept =>
      have hbullet := (kept_line hslot hline).1
      have hparsed' : u.parsedBullet = some kept.toBullet := by
        rw [Utterance.parsedBullet, hbullet]
        rfl
      refine ⟨not_unparsed_of_parsed hparsed', _, (1, 0), hslot, not_unparsed_of_parsed hparsed', ?_⟩
      unfold restoreUtterance heldAt
      simp only
      rw [if_pos (KeptBullet.isLive_iff.mpr hparsed')]
    | offRecord kept =>
      have hnone := (offRecord_line (hoff _ w kept (nthUtterance_of_line hw) hslot) hline).1
      cases kept with
      | none =>
        refine ⟨hbare hnone, _, (0, 0), hslot, hbare hnone, ?_⟩
        unfold restoreUtterance
        rw [Utterance.parsedBullet, hnone]
        rfl
      | some kept =>
        refine ⟨hbare hnone, _, (1, 0), hslot, not_unparsed_of_parsed (b := kept.toBullet) rfl, ?_⟩
        change (if kept.isLive (some kept.toBullet) then _ else _) = _
        rw [if_pos (KeptBullet.isLive_iff.mpr rfl)]
  obtain ⟨file', hrestore⟩ : ∃ file', restoreFrom given 0 ordered.file = .ok file' :=
    restoreFrom_ok ordered.file 0 (by omega) fun i u hu => (hall i u hu).1
  have hfinal : ∀ i, utteranceOrdinal file' i = utteranceOrdinal ordered.file i :=
    fun i => (restoreFrom_line ordered.file file' 0 i hrestore).2.2
  obtain ⟨held, hheld⟩ : ∃ held, verifyFrom given 0 0 0 (utterancesIndexed file') = .ok held :=
    verifyFrom_ok (utterancesIndexed file') 0 0 0 (by rw [utterancesIndexed_length, utterances_length_of_ordinals hfinal]; omega) (by
      rintro ⟨i, k, u'⟩ hmem
      obtain ⟨hu', hk⟩ := mem_utterancesIndexed.mp hmem
      obtain ⟨u, hu⟩ := line_of_ordinals hfinal hu'
      obtain ⟨slot, hslot, hnew⟩ := (restoreFrom_line ordered.file file' 0 i hrestore).2.1 u hu
      rw [zero_add] at hslot
      rw [hu', Option.some.injEq] at hnew
      obtain ⟨-, slot', counts, hslot', hparsed', hheld⟩ := hall i u hu
      rw [hslot, Except.ok.injEq] at hslot'
      subst hslot' hnew hk
      rw [hfinal]
      exact ⟨hparsed', slot, counts, hslot, hheld⟩)
  refine ⟨file', held, ?_⟩
  simp only [restoreAndVerify, restoreOffRecord, hrestore, verifyHeld, hheld]

variable {file' : ChatFile} {held : KeptBulletsHeld}

theorem finished_line {w : Utterance}
    (hords : ∀ i, utteranceOrdinal ordered.file i = utteranceOrdinal working i)
    (hlines : OrderedFrom W given plan working ordered)
    (h : restoreAndVerify (.keep given) ordered.file = .ok (file', held)) (hw : nthUtterance working k = some w) :
    ∃ slot u, given.slot k = .ok slot ∧ PhasesLine (.keep given) plan k (imposeUtterance W slot w).1 u ∧ ¬ u.Unparsed ∧
      nthUtterance file' k = some (restoreUtterance slot u) := by
  obtain ⟨i, hi, rfl⟩ := line_of_nthUtterance hw
  obtain ⟨slot, u, hslot, hu, hline⟩ := hlines i w hi
  unfold restoreAndVerify restoreOffRecord at h
  split at h
  · cases h
  · next file'' hrestore =>
    split at h
    · cases h
    · cases h
      obtain ⟨-, hget, hord⟩ := restoreFrom_line ordered.file file' 0 i hrestore
      obtain ⟨slot', hslot', hnew⟩ := hget u hu
      rw [zero_add, hords, hslot, Except.ok.injEq] at hslot'
      subst hslot'
      refine ⟨slot, u, hslot, hline, restoreFrom_parsed hrestore hu, ?_⟩
      rw [← hords, ← hord]
      exact nthUtterance_of_line hnew

theorem keptAsGiven_of_fits (hbound : Bound policy input given)
    (hcount : (working.filterMap Line.utterance?).length = (input.filterMap Line.utterance?).length)
    (hoff : ∀ k u kept, nthUtterance working k = some u → given.slot k = .ok (.offRecord kept) → u.bullet = none)
    (hfits : WorkingFits policy input working)
    (hords : ∀ i, utteranceOrdinal ordered.file i = utteranceOrdinal working i)
    (hlines : OrderedFrom W given plan working ordered)
    (h : restoreAndVerify (.keep given) ordered.file = .ok (file', held)) : KeptAsGiven policy input file' := by
  have hworking : ∀ k v, nthUtterance input k = some v → ∃ w, nthUtterance working k = some w :=
    fun k v hv => nthUtterance_same_count hcount.symm hv
  refine ⟨?_, ?_, ?_⟩
  · intro k v b hv hb
    obtain ⟨w, hw⟩ := hworking k v hv
    obtain ⟨slot, u, hslot, hline, -, hfinal⟩ := finished_line hords hlines h hw
    refine ⟨_, hfinal, ?_⟩
    obtain ⟨kept, -, hslot', hbullet⟩ | ⟨-, hnone, -⟩ | ⟨kept, -, hslot', hbullet⟩ := hbound.slot_cases hv
    · cases hslot.symm.trans hslot'
      rw [Utterance.parsedBullet, hbullet] at hb
      cases kept with
      | none => cases hb
      | some kept =>
        cases hb
        rfl
    · rw [Utterance.parsedBullet, hnone] at hb
      cases hb
    · cases hslot.symm.trans hslot'
      rw [Utterance.parsedBullet, hbullet] at hb
      cases hb
      exact (kept_line hslot hline).1
  · intro hexact k v hv hbullet
    obtain ⟨w, hw⟩ := hworking k v hv
    obtain ⟨slot, u, hslot, hline, -, hfinal⟩ := finished_line hords hlines h hw
    refine ⟨_, hfinal, ?_⟩
    obtain ⟨kept, hpresence, hslot', hgiven⟩ | ⟨hpresence, -, ⟨-, hslot'⟩ | ⟨hne, -⟩⟩ | ⟨kept, -, -, hgiven⟩ :=
      hbound.slot_cases hv
    · cases hslot.symm.trans hslot'
      obtain ⟨hnone, hspans, -⟩ := offRecord_line (hoff k w kept hw hslot) hline
      cases kept with
      | some kept =>
        rw [hbullet] at hgiven
        cases hgiven
      | none =>
        refine ⟨hnone, ?_⟩
        rw [eq_nil_iff_forall_not_mem]
        intro s hs
        have hempty := hfits.off_record hexact k v w hv hw hpresence hbullet
        have hmem := hspans s hs
        rw [hempty] at hmem
        cases hmem
    · cases hslot.symm.trans hslot'
      obtain ⟨hnone, hspans, -⟩ := unbulleted_line .keptAbsent rfl hline
      refine ⟨hnone, ?_⟩
      rw [eq_nil_iff_forall_not_mem]
      intro s hs
      have hmem := hspans s hs
      rw [timedSpans_keptAbsent] at hmem
      obtain ⟨t, ht, hkept⟩ := mem_filterMap.mp hmem
      exact hfits.absent hexact k v w hv hw hpresence hbullet t ht ((kept_emptyBound t s).mp hkept).2
    · exact absurd hexact hne
    · rw [hbullet] at hgiven
      cases hgiven
  · intro k v b hv hpresence hb
    obtain ⟨w, hw⟩ := hworking k v hv
    obtain ⟨slot, u, hslot, hline, -, hfinal⟩ := finished_line hords hlines h hw
    refine ⟨_, hfinal, ?_⟩
    obtain ⟨kept, hother, -⟩ | ⟨-, hnone, -⟩ | ⟨kept, -, hslot', hbullet⟩ := hbound.slot_cases hv
    · exact absurd hpresence hother
    · rw [Utterance.parsedBullet, hnone] at hb
      cases hb
    · cases hslot.symm.trans hslot'
      have hkept : b = kept.toBullet := by
        rw [Utterance.parsedBullet, hbullet] at hb
        exact (Option.some.inj hb).symm
      subst hkept
      intro s hs
      obtain ⟨t, ht, hclamp⟩ := (kept_line hslot hline).2.1 s hs
      exact kept_span_liesIn hclamp (hfits.forward k v w _ hv hw hpresence hb t ht)

theorem fits_of_keptAsGiven (hbound : Bound policy input given)
    (hoff : ∀ k u kept, nthUtterance working k = some u → given.slot k = .ok (.offRecord kept) → u.bullet = none)
    (hords : ∀ i, utteranceOrdinal ordered.file i = utteranceOrdinal working i)
    (hlines : OrderedFrom W given .suppressed working ordered)
    (h : restoreAndVerify (.keep given) ordered.file = .ok (file', held)) (hkept : KeptAsGiven policy input file') :
    WorkingFits policy input working := by
  refine ⟨?_, ?_, ?_, ?_⟩
  · intro hpolicy k v w hv hw hpresence hbullet hunparsed
    obtain ⟨slot, u, hslot, hline, hparsed, -⟩ := finished_line hords hlines h hw
    obtain ⟨kept, hother, -⟩ | ⟨-, -, ⟨hexact, -⟩ | ⟨-, hslot'⟩⟩ | ⟨kept, -, -, hgiven⟩ := hbound.slot_cases hv
    · exact hother hpresence
    · exact hpolicy hexact
    · cases hslot.symm.trans hslot'
      have hnone : w.parsedBullet = none := by
        cases hb : w.parsedBullet with
        | none => rfl
        | some b => exact absurd hunparsed (not_unparsed_of_parsed hb)
      have hsame : u = w := hline.same rfl (Or.inr hnone)
      subst hsame
      exact hparsed hunparsed
    · rw [hbullet] at hgiven
      cases hgiven
  · intro hexact k v w hv hw hpresence hbullet s hs hend
    obtain ⟨slot, u, hslot, hline, -, hfinal⟩ := finished_line hords hlines h hw
    obtain ⟨kept, hother, -⟩ | ⟨-, -, ⟨-, hslot'⟩ | ⟨hne, -⟩⟩ | ⟨kept, -, -, hgiven⟩ := hbound.slot_cases hv
    · exact hother hpresence
    · cases hslot.symm.trans hslot'
      have hsame := (unbulleted_line .keptAbsent rfl hline).2.2 rfl
      obtain ⟨u', hu', -, hempty⟩ := hkept.absent hexact k v hv hbullet
      rw [hfinal, Option.some.injEq] at hu'
      change u = u' at hu'
      have hmem : s ∈ u.timedSpans := by
        rw [hsame, timedSpans_keptAbsent]
        exact mem_filterMap.mpr ⟨s, hs, (kept_emptyBound s s).mpr ⟨rfl, hend⟩⟩
      rw [hu', hempty] at hmem
      cases hmem
    · exact hne hexact
    · rw [hbullet] at hgiven
      cases hgiven
  · intro hexact k v w hv hw hpresence hbullet
    obtain ⟨slot, u, hslot, hline, -, hfinal⟩ := finished_line hords hlines h hw
    obtain ⟨kept, -, hslot', hgiven⟩ | ⟨hin, -⟩ | ⟨kept, hin, -⟩ := hbound.slot_cases hv
    · cases hslot.symm.trans hslot'
      have hsame := (offRecord_line (hoff k w kept hw hslot) hline).2.2 rfl
      obtain ⟨u', hu', -, hempty⟩ := hkept.absent hexact k v hv hbullet
      cases kept with
      | some kept =>
        rw [hbullet] at hgiven
        cases hgiven
      | none =>
        rw [hfinal, Option.some.injEq] at hu'
        change u = u' at hu'
        rw [← hsame, hu']
        exact hempty
    · exact absurd hin hpresence
    · exact absurd hin hpresence
  · intro k v w b hv hw hpresence hb s hs hstart hend
    obtain ⟨slot, u, hslot, hline, -, hfinal⟩ := finished_line hords hlines h hw
    obtain ⟨kept, hother, -⟩ | ⟨-, hnone, -⟩ | ⟨kept, -, hslot', hbullet⟩ := hbound.slot_cases hv
    · exact absurd hpresence hother
    · rw [Utterance.parsedBullet, hnone] at hb
      cases hb
    · cases hslot.symm.trans hslot'
      obtain ⟨u', hu', hinside⟩ := hkept.words k v b hv hpresence hb
      rw [hfinal, Option.some.injEq] at hu'
      change u = u' at hu'
      have hkeptBullet : b = kept.toBullet := by
        rw [Utterance.parsedBullet, hbullet] at hb
        exact (Option.some.inj hb).symm
      subst hkeptBullet
      have hmem := (kept_line hslot hline).2.2 rfl s hs s (kept_span_of_holds hstart hend)
      rw [hu'] at hmem
      obtain ⟨⟨-, hlow⟩, hhigh, -⟩ := hinside s hmem
      exact ⟨hlow, hhigh⟩

end Iff

/-- With main bullets kept, finalization succeeds and leaves the bullets, absences and words of kept lines as
  promised, under every policy and plan, exactly if the working file fits. -/
theorem keptBullets_sound_iff (W : ContentWalker) (writer : WorWriter) (order : HashOrder)
    (mainPolicy : MainBulletPolicy) (input working : ChatFile) (authority : MainBulletAuthority)
    (hpolicy : mainPolicy ≠ .deriveFromWords) (hbind : MainBulletAuthority.bind mainPolicy input = .ok authority)
    (hcount : (working.filterMap Line.utterance?).length = (input.filterMap Line.utterance?).length)
    (hoff : ∀ k v w, nthUtterance input k = some v → RecordingPresence.of v ≠ .inRecording →
      nthUtterance working k = some w → w.bullet = none) :
    (∀ (policy : EndOverlapPolicy) (plan : WorPlan) (postprocess : List DecisionRecord)
      (repairPolicy : BulletRepairPolicy), ∃ finalized,
        imposeThenFinalize W writer order authority policy plan postprocess repairPolicy working = .ok finalized ∧
        KeptAsGiven mainPolicy input finalized.file) ↔ WorkingFits mainPolicy input working := by
  obtain ⟨given, rfl, hbound⟩ := bound_of_bind hpolicy hbind
  have hoff' : ∀ k u kept, nthUtterance working k = some u → given.slot k = .ok (.offRecord kept) →
      u.bullet = none := by
    intro k u kept hu hslot
    obtain ⟨v, hv⟩ := nthUtterance_same_count hcount hu
    obtain ⟨-, hpresence, -⟩ | ⟨-, -, ⟨-, hother⟩ | ⟨-, hother⟩⟩ | ⟨kept', -, hother, -⟩ := hbound.slot_cases hv
    · exact hoff k v u hv hpresence hu
    · rw [hslot] at hother
      cases hother
    · rw [hslot] at hother
      cases hother
    · rw [hslot] at hother
      cases hother
  have hcount' : (working.filterMap Line.utterance?).length = given.byUtterance.length := by
    rw [hcount, hbound.count]
  constructor
  · intro h
    obtain ⟨ordered, hords, hlines, herror, hok⟩ := @imposeThenFinalize_ordered W writer order given
      .preserveCrossSpeaker .suppressed [] .disabled working hcount' hoff'
    obtain ⟨finalized, hfinalized, hkept⟩ := h .preserveCrossSpeaker .suppressed [] .disabled
    cases hlast : restoreAndVerify (.keep given) ordered.file with
    | error e =>
      rw [herror e hlast] at hfinalized
      cases hfinalized
    | ok done =>
      obtain ⟨file', held⟩ := done
      obtain ⟨finalized', hfinalized', hfile⟩ := hok file' held hlast
      cases hfinalized.symm.trans hfinalized'
      rw [hfile] at hkept
      exact fits_of_keptAsGiven hbound hoff' hords hlines hlast hkept
  · intro hfits policy plan postprocess repairPolicy
    obtain ⟨ordered, hords, hlines, -, hok⟩ := @imposeThenFinalize_ordered W writer order given
      policy plan postprocess repairPolicy working hcount' hoff'
    obtain ⟨file', held, hlast⟩ := restoreAndVerify_ok hbound hcount hoff' (by
      intro k w hw hslot
      obtain ⟨v, hv⟩ := nthUtterance_same_count hcount hw
      obtain ⟨kept, -, hother, -⟩ | ⟨hpresence, hbullet, ⟨-, hother⟩ | ⟨hne, -⟩⟩ | ⟨kept, -, hother, -⟩ :=
        hbound.slot_cases hv
      · rw [hslot] at hother
        cases hother
      · rw [hslot] at hother
        cases hother
      · exact hfits.parsed hne k v w hv hw hpresence hbullet
      · rw [hslot] at hother
        cases hother) hords hlines
    obtain ⟨finalized, hfinalized, hfile⟩ := hok file' held hlast
    refine ⟨finalized, hfinalized, ?_⟩
    rw [hfile]
    exact keptAsGiven_of_fits hbound hcount hoff' hfits hords hlines hlast

/-- One utterance without a bullet; its word is timed `0_0`. -/
def zeroTimedFile : ChatFile :=
  [.utterance ⟨"CHI", [], none, [.word ⟨"hello", some ⟨0, 0⟩⟩], [], []⟩]

/-- Under `exact` the word keeps its timing: the empty bound takes it as inside. -/
theorem zero_timed_word_stays :
    MainBulletAuthority.bind .keepExact zeroTimedFile = .ok (.keep ⟨[.unbulleted], .keep⟩) ∧
    ¬ ∀ (policy : EndOverlapPolicy) (plan : WorPlan) (postprocess : List DecisionRecord)
      (repairPolicy : BulletRepairPolicy), ∃ finalized,
        imposeThenFinalize .unconditional .mainWords .insertion (.keep ⟨[.unbulleted], .keep⟩) policy plan postprocess
          repairPolicy zeroTimedFile = .ok finalized ∧
        KeptAsGiven .keepExact zeroTimedFile finalized.file := by
  refine ⟨rfl, ?_⟩
  intro h
  obtain ⟨finalized, hfinalized, hkept⟩ := h .preserveCrossSpeaker .suppressed [] .disabled
  cases hfinalized
  obtain ⟨u, hu, -, hempty⟩ := hkept.absent rfl 0 _ rfl rfl
  cases hu
  cases hempty

def keptLineFile : ChatFile :=
  [.utterance ⟨"CHI", [], some (.parsed ⟨100, 500⟩), [.word ⟨"hello", some ⟨50, 300⟩⟩], [], []⟩]

theorem keptBullets_sound_line : WorkingFits .keepGiven keptLineFile keptLineFile ∧
    ∀ (policy : EndOverlapPolicy) (plan : WorPlan) (postprocess : List DecisionRecord)
      (repairPolicy : BulletRepairPolicy), ∃ finalized,
        imposeThenFinalize .unconditional .mainWords .insertion
          (.keep ⟨[.kept (.extent 100 500 (by decide))], .derive⟩) policy plan postprocess repairPolicy keptLineFile =
            .ok finalized ∧ KeptAsGiven .keepGiven keptLineFile finalized.file := by
  have hone : ∀ k v, nthUtterance keptLineFile k = some v → k = 0 := by
    intro k v hv
    cases k with
    | zero => rfl
    | succ k => cases hv
  have hfits : WorkingFits .keepGiven keptLineFile keptLineFile := by
    refine ⟨?_, ?_, ?_, ?_⟩
    · intro _ k v w hv hw _ hbullet
      obtain rfl := hone k v hv
      cases hv
      cases hbullet
    · intro hexact
      cases hexact
    · intro hexact
      cases hexact
    · intro k v w b hv hw _ hb s hs hstart hend
      obtain rfl := hone k v hv
      cases hv
      cases hw
      cases hb
      obtain rfl : s = ⟨50, 300⟩ := mem_singleton.mp hs
      exact absurd hstart (by decide)
  refine ⟨hfits, ?_⟩
  apply (keptBullets_sound_iff .unconditional .mainWords .insertion .keepGiven keptLineFile keptLineFile _
    (by decide) rfl rfl ?_).mpr hfits
  intro k v w hv hpresence hw
  obtain rfl := hone k v hv
  cases hv
  exact absurd rfl hpresence

end Batchalign.Fa
