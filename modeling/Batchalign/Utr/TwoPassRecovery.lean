import Batchalign.Utr.GlobalRecovery
import Batchalign.Utr.TwoPass

/- What the two-pass strategy leaves of a file. Either pass only writes bullets on speech without a
   parsed one (`Written`). The census counts an unparsed bullet as one written, and the bullet of an
   utterance outside the recording as a change of the population. -/
namespace Batchalign.Utr
open Fa DpAlign Polled List
open Function (comp_apply)

/-! ## What recovery may write -/

/-- Recovery leaves an utterance, or writes a bullet on speech that has none that parsed. -/
inductive Written (u : Utterance) : Utterance → Prop
  | kept : Written u u
  | wrote (bullet : TimeSpan) (hin : RecordingPresence.of u = .inRecording) (huntimed : u.parsedBullet = none) :
    Written u { u with bullet := some (.parsed bullet) }

structure WrittenFile (file file' : ChatFile) : Prop where
  lines : file' = setUtterances file (utterancesOf file')
  utterances : List.Forall₂ Written (utterancesOf file) (utterancesOf file')

variable {u u' : Utterance} {file file' : ChatFile}

theorem Written.eq_of_off_record (h : Written u u') (hout : RecordingPresence.of u ≠ .inRecording) :
    u' = u := by
  cases h with
  | kept => rfl
  | wrote bullet hin _ => exact absurd hin hout

theorem Written.eq_of_parsed (h : Written u u') (hparsed : u.parsedBullet ≠ none) : u' = u := by
  cases h with
  | kept => rfl
  | wrote bullet _ huntimed => exact absurd huntimed hparsed

theorem Written.trans {v w : Utterance} (h : Written u v) (h' : Written v w) : Written u w := by
  cases h with
  | kept => exact h'
  | wrote bullet hin huntimed =>
    cases h' with
    | kept => exact .wrote bullet hin huntimed
    -- The first pass wrote a bullet, which the second keeps.
    | wrote bullet' _ huntimed' => exact absurd huntimed' (by simp [Utterance.parsedBullet, BulletState.asParsed])

theorem forall₂_written_trans {us vs : List Utterance} (h : Forall₂ Written us vs) :
    ∀ {ws : List Utterance}, Forall₂ Written vs ws → Forall₂ Written us ws := by
  induction h with
  | nil => exact id
  | cons hu _ ih =>
    intro ws hws
    cases hws with
    | cons hw hrest => exact .cons (hu.trans hw) (ih hrest)

theorem setUtterances_setUtterances (file : ChatFile) :
    ∀ {us vs : List Utterance}, us.length = (utterancesOf file).length → vs.length = (utterancesOf file).length →
      setUtterances (setUtterances file us) vs = setUtterances file vs := by
  induction file with
  | nil => intro us vs _ _; rfl
  | cons line lines ih =>
    intro us vs hus hvs
    cases line with
    | header text =>
      rw [setUtterances, setUtterances, setUtterances, ih hus hvs]
    | utterance u =>
      obtain ⟨u', us, rfl⟩ := exists_cons_of_length_eq_add_one hus
      obtain ⟨v, vs, rfl⟩ := exists_cons_of_length_eq_add_one hvs
      rw [setUtterances, setUtterances, setUtterances, ih (Nat.succ.inj hus) (Nat.succ.inj hvs)]

theorem WrittenFile.length_eq (h : WrittenFile file file') :
    (utterancesOf file').length = (utterancesOf file).length := h.utterances.length_eq.symm

theorem WrittenFile.trans {file file' file'' : ChatFile} (h : WrittenFile file file') (h' : WrittenFile file' file'') :
    WrittenFile file file'' where
  lines := by
    have hlen := h'.length_eq.trans h.length_eq
    calc file'' = setUtterances file' (utterancesOf file'') := h'.lines
      _ = setUtterances (setUtterances file (utterancesOf file')) (utterancesOf file'') := by rw [← h.lines]
      _ = setUtterances file (utterancesOf file'') := setUtterances_setUtterances file h.length_eq hlen
  utterances := forall₂_written_trans h.utterances h'.utterances

variable {hints : List (Option PositiveUtrInterval)}

theorem writtenFile_applyHints
    (hlen : hints.length = (utterancesOf file).length)
    (hfree : ∀ u interval, (u, some interval) ∈ (utterancesOf file).zip hints →
      RecordingPresence.of u = .inRecording ∧ u.parsedBullet = none) :
    WrittenFile file (applyHints file hints) where
  lines := applyHints_eq file hints
  utterances := by
    rw [utterancesOf_applyHints file hlen, forall₂_iff_get]
    refine ⟨by rw [length_zipWith, hlen, Nat.min_self], fun i hi hi' => ?_⟩
    rw [get_eq_getElem, get_eq_getElem, getElem_zipWith]
    have hmem : ((utterancesOf file)[i], hints[i]) ∈ (utterancesOf file).zip hints :=
      mem_of_getElem? (i := i)
        (getElem?_zip_eq_some.mpr ⟨getElem?_eq_getElem hi, getElem?_eq_getElem (hlen ▸ hi)⟩)
    cases hval : hints[i] with
    | none => exact .kept
    | some interval =>
      obtain ⟨hin, huntimed⟩ := hfree _ interval (hval ▸ hmem)
      exact .wrote interval.intoHint hin huntimed

theorem Hinted.writtenFile {env : CensusEnv} {order : UtrOrderModel}
    (h : Hinted env order file file') : WrittenFile file file' where
  lines := h.lines
  utterances := by
    rw [forall₂_iff_get]
    refine ⟨h.length_eq.symm, fun i hi hi' => ?_⟩
    rw [get_eq_getElem, get_eq_getElem]
    have hbecame : Became file file' i (utterancesOf file)[i] (utterancesOf file')[i] :=
      ⟨getElem?_eq_getElem hi, getElem?_eq_getElem hi'⟩
    by_cases hsame : (utterancesOf file')[i] = (utterancesOf file)[i]
    · rw [hsame]
      exact .kept
    · obtain ⟨hint, heq, _⟩ := h.written i _ _ hbecame hsame
      rw [heq]
      refine .wrote hint ?_ ?_
      · by_contra hout
        exact hsame (h.off_record_kept i _ _ hbecame hout)
      · by_contra hparsed
        exact hsame (h.parsed_kept i _ _ hbecame hparsed)

/-! ## The census -/

theorem countSlots_ok (pairs : List (UtrSlot × Bool)) :
    ∀ {i : ℕ} {counts : UtrFinalCounts}, (UtrSlot.notInRecording, true) ∉ pairs →
      countSlots i counts pairs = .ok ⟨counts.skipped + pairs.countP (fun p => p.1 == .timed),
          counts.injected + pairs.countP (fun p => p == (.untimed, true)),
          counts.unmatched + pairs.countP (fun p => p == (.untimed, false))⟩ := by
  induction pairs with
  | nil => intro i counts _; rfl
  | cons p pairs ih =>
    intro i counts hnone
    obtain ⟨hp, hrest⟩ := not_or.mp (fun h => hnone (mem_cons.mpr h))
    obtain ⟨slot, after⟩ := p
    cases slot with
    | notInRecording =>
      cases after with
      | true => exact absurd rfl hp
      | false =>
        rw [countSlots, ih hrest]
        simp
    | timed =>
      rw [countSlots, ih hrest]
      simp [add_assoc, add_comm 1]
    | untimed =>
      cases after with
      | true =>
        rw [countSlots, ih hrest]
        simp [add_assoc, add_comm 1]
      | false =>
        rw [countSlots, ih hrest]
        simp [add_assoc, add_comm 1]

theorem countSlots_error (pairs : List (UtrSlot × Bool)) :
    ∀ {i : ℕ} {counts : UtrFinalCounts}, (UtrSlot.notInRecording, true) ∈ pairs →
      ∃ k, countSlots i counts pairs = .error (.offRecordTimed k) := by
  induction pairs with
  | nil => intro i counts h; exact absurd h (not_mem_nil)
  | cons p pairs ih =>
    intro i counts h
    obtain ⟨slot, after⟩ := p
    obtain heq | hrest := mem_cons.mp h
    · cases heq
      exact ⟨i, rfl⟩
    · cases slot with
      | notInRecording =>
        cases after with
        | true => exact ⟨i, rfl⟩
        | false => exact ih hrest
      | timed => exact ih hrest
      | untimed =>
        cases after with
        | true => exact ih hrest
        | false => exact ih hrest

theorem slot_of_inRecording {info : UtrUtteranceInfo} (h : info.presence = .inRecording) :
    info.slot = if info.retainedTiming.isSome then .timed else .untimed := by
  unfold UtrUtteranceInfo.slot
  rw [h]
  cases info.retainedTiming with
  | none => rfl
  | some timing => rfl

theorem slot_of_notInRecording {info : UtrUtteranceInfo} (h : info.presence ≠ .inRecording) :
    info.slot = .notInRecording := by
  unfold UtrUtteranceInfo.slot
  cases hpresence : info.presence with
  | inRecording => exact absurd hpresence h
  | notInRecording postcode => rfl

def wrote (file file' : ChatFile) : ℕ :=
  ((utterancesOf file).zip (utterancesOf file')).countP fun (u, u') =>
    RecordingPresence.of u == .inRecording && u.bullet != u'.bullet

def held (file : ChatFile) : ℕ :=
  (utterancesOf file).countP fun u => RecordingPresence.of u == .inRecording && u.parsedBullet.isSome

def strayBullet (u : Utterance) : Bool :=
  RecordingPresence.of u == .inRecording && u.bullet.isSome && u.parsedBullet.isNone

theorem strayBullet_iff (u : Utterance) :
    strayBullet u = true ↔ RecordingPresence.of u = .inRecording ∧ u.Unparsed := by
  unfold strayBullet Utterance.Unparsed Utterance.parsedBullet
  cases u.bullet with
  | none => simp
  | some state => cases state <;> simp [BulletState.asParsed]

section Census
variable (env : CensusEnv) (units : UtrLexicalUnits)

def slotPair (p : Utterance × Utterance) : UtrSlot × Bool := ((utteranceInfo env units p.1).slot, p.2.bullet.isSome)

theorem slotPair_written {u u' : Utterance} (h : Written u u') :
    ((slotPair env units (u, u')).1 == .timed) =
        (RecordingPresence.of u == .inRecording && u.parsedBullet.isSome) ∧
      (slotPair env units (u, u') == (.untimed, true)) =
        ((RecordingPresence.of u == .inRecording && u.bullet != u'.bullet) || strayBullet u') ∧
      ((RecordingPresence.of u == .inRecording && u.bullet != u'.bullet) && strayBullet u') = false ∧
      ((slotPair env units (u, u')).1 != .notInRecording) = (RecordingPresence.of u == .inRecording) := by
  by_cases hin : RecordingPresence.of u = .inRecording
  · have hslot : (utteranceInfo env units u).slot = if u.parsedBullet.isSome then .timed else .untimed := by
      rw [slot_of_inRecording hin]
      show (if (retainedTiming u).isSome then _ else _) = _
      rw [retainedTiming_of_inRecording hin]
    unfold slotPair
    rw [hslot, hin]
    cases h with
    | kept =>
      unfold strayBullet
      rw [hin]
      cases hparsed : u.parsedBullet with
      | some bullet => simp
      | none => cases u.bullet <;> simp
    | wrote bullet _ huntimed =>
      have hnew : (u.bullet != some (.parsed bullet)) = true := bne_iff_ne.mpr fun hsome =>
        absurd huntimed (by simp [Utterance.parsedBullet, hsome, BulletState.asParsed])
      have hstray : strayBullet { u with bullet := some (.parsed bullet) } = false := by
        simp [strayBullet, Utterance.parsedBullet, BulletState.asParsed]
      simp [huntimed, hnew, hstray]
  · cases h with
    | wrote bullet hin' _ => exact absurd hin' hin
    | kept =>
      have hout : (RecordingPresence.of u == .inRecording) = false := beq_false_of_ne hin
      have hslot : (utteranceInfo env units u).slot = .notInRecording := slot_of_notInRecording hin
      simp [slotPair, strayBullet, hslot, hout]

theorem countP_or_of_disjoint {α : Type} {p q r : α → Bool} (xs : List α)
    (h : ∀ x ∈ xs, r x = (p x || q x) ∧ (p x && q x) = false) : xs.countP r = xs.countP p + xs.countP q := by
  induction xs with
  | nil => rfl
  | cons x xs ih =>
    obtain ⟨hr, hpq⟩ := h x (mem_cons_self ..)
    rw [countP_cons, countP_cons, countP_cons, ih fun y hy => h y (mem_cons_of_mem _ hy), hr]
    cases hp : p x with
    | false => simp [add_assoc]
    | true =>
      rw [hp, Bool.true_and] at hpq
      simp [hpq, add_right_comm]

variable {env units}

theorem zip_slots :
    ((collectUtrUtteranceInfo env units file).map UtrUtteranceInfo.slot).zip (bulletsAfter file') =
      ((utterancesOf file).zip (utterancesOf file')).map (slotPair env units) := by
  unfold collectUtrUtteranceInfo bulletsAfter
  rw [map_map, zip_map]
  rfl

section
variable (h : WrittenFile file file')
include h

theorem WrittenFile.mem_zip {u u' : Utterance}
    (hp : (u, u') ∈ (utterancesOf file).zip (utterancesOf file')) : Written u u' :=
  (forall₂_iff_zip.mp h.utterances).2 hp

theorem WrittenFile.map_fst :
    ((utterancesOf file).zip (utterancesOf file')).map Prod.fst = utterancesOf file :=
  map_fst_zip h.length_eq.ge

theorem WrittenFile.map_snd :
    ((utterancesOf file).zip (utterancesOf file')).map Prod.snd = utterancesOf file' :=
  map_snd_zip h.length_eq.le

theorem WrittenFile.countP_timed :
    (((utterancesOf file).zip (utterancesOf file')).map (slotPair env units)).countP (fun p => p.1 == .timed) =
      held file := by
  calc _ = ((utterancesOf file).zip (utterancesOf file')).countP
        ((fun u => RecordingPresence.of u == .inRecording && u.parsedBullet.isSome) ∘ Prod.fst) := by
        rw [countP_map]
        refine countP_congr fun p hp => ?_
        rw [comp_apply, comp_apply, (slotPair_written env units (h.mem_zip hp)).1]
    _ = held file := by rw [← countP_map, h.map_fst, held]

theorem WrittenFile.countP_injected :
    (((utterancesOf file).zip (utterancesOf file')).map (slotPair env units)).countP (fun p => p == (.untimed, true)) =
      wrote file file' + (utterancesOf file').countP strayBullet := by
  calc _ = wrote file file' + ((utterancesOf file).zip (utterancesOf file')).countP (strayBullet ∘ Prod.snd) := by
        rw [countP_map]
        exact countP_or_of_disjoint _ fun p hp =>
          ⟨(slotPair_written env units (h.mem_zip hp)).2.1, (slotPair_written env units (h.mem_zip hp)).2.2.1⟩
    _ = wrote file file' + (utterancesOf file').countP strayBullet := by rw [← countP_map, h.map_snd]

end

theorem countP_spoken (pairs : List (UtrSlot × Bool)) :
    pairs.countP (fun p => p == (.untimed, true)) + pairs.countP (fun p => p.1 == .timed) +
      pairs.countP (fun p => p == (.untimed, false)) = pairs.countP fun p => p.1 != .notInRecording := by
  have huntimed : pairs.countP (fun p => p.1 == .untimed) =
      pairs.countP (fun p => p == (.untimed, true)) + pairs.countP fun p => p == (.untimed, false) :=
    countP_or_of_disjoint pairs fun p _ => by
      obtain ⟨slot, after⟩ := p
      cases slot <;> cases after <;> decide
  have hspoken : pairs.countP (fun p => p.1 != .notInRecording) =
      pairs.countP (fun p => p.1 == .untimed) + pairs.countP fun p => p.1 == .timed :=
    countP_or_of_disjoint pairs fun p _ => by
      obtain ⟨slot, after⟩ := p
      cases slot <;> cases after <;> decide
  omega

section
variable (h : WrittenFile file file')
include h

theorem WrittenFile.countP_recorded :
    (((utterancesOf file).zip (utterancesOf file')).map (slotPair env units)).countP
      (fun p => p.1 != .notInRecording) = recorded file := by
  calc _ = ((utterancesOf file).zip (utterancesOf file')).countP
        ((fun u => RecordingPresence.of u == .inRecording) ∘ Prod.fst) := by
        rw [countP_map]
        refine countP_congr fun p hp => ?_
        rw [comp_apply, comp_apply, (slotPair_written env units (h.mem_zip hp)).2.2.2]
    _ = recorded file := by rw [← countP_map, h.map_fst, recorded]

theorem WrittenFile.offRecord_mem :
    (UtrSlot.notInRecording, true) ∈ ((utterancesOf file).zip (utterancesOf file')).map (slotPair env units) ↔
      ∃ u ∈ utterancesOf file, RecordingPresence.of u ≠ .inRecording ∧ u.bullet ≠ none := by
  constructor
  · intro hmem
    obtain ⟨⟨u, u'⟩, hp, heq⟩ := mem_map.mp hmem
    obtain ⟨hslot, hbullet⟩ := Prod.mk.inj heq
    have hout : RecordingPresence.of u ≠ .inRecording := by
      intro hin
      rw [slot_of_inRecording (show (utteranceInfo env units u).presence = _ from hin)] at hslot
      split at hslot
      · simp at hslot
      · simp at hslot
    refine ⟨u, (of_mem_zip hp).1, hout, ?_⟩
    rw [← (h.mem_zip hp).eq_of_off_record hout]
    exact Option.isSome_iff_ne_none.mp hbullet
  · intro ⟨u, hu, hout, hbullet⟩
    rw [← h.map_fst] at hu
    obtain ⟨⟨v, v'⟩, hp, rfl⟩ := mem_map.mp hu
    refine mem_map.mpr ⟨(v, v'), hp, ?_⟩
    refine Prod.ext (slot_of_notInRecording hout) ?_
    rw [(h.mem_zip hp).eq_of_off_record hout]
    exact Option.isSome_iff_ne_none.mpr hbullet

theorem WrittenFile.transitionTo_eq :
    transitionTo ((collectUtrUtteranceInfo env units file).map UtrUtteranceInfo.slot) (bulletsAfter file') =
      countSlots 0 ⟨0, 0, 0⟩ (((utterancesOf file).zip (utterancesOf file')).map (slotPair env units)) := by
  have hlen : ((collectUtrUtteranceInfo env units file).map UtrUtteranceInfo.slot).length =
      (bulletsAfter file').length := by
    rw [length_map, collectUtrUtteranceInfo, length_map, bulletsAfter, length_map, h.length_eq]
  unfold transitionTo
  rw [if_neg (not_not.mpr hlen), zip_slots]

end

variable (env units) in
theorem WrittenFile.transitionTo_ok (h : WrittenFile file file')
    (hout : ∀ u ∈ utterancesOf file, RecordingPresence.of u ≠ .inRecording → u.bullet = none) :
    ∃ counts, transitionTo ((collectUtrUtteranceInfo env units file).map UtrUtteranceInfo.slot) (bulletsAfter file') =
        .ok counts ∧
      counts.skipped = held file ∧ counts.injected = wrote file file' + (utterancesOf file').countP strayBullet ∧
      counts.injected + counts.skipped + counts.unmatched = recorded file := by
  have hnone : (UtrSlot.notInRecording, true) ∉ ((utterancesOf file).zip (utterancesOf file')).map (slotPair env units) := by
    rw [h.offRecord_mem]
    rintro ⟨u, hu, houtside, hbullet⟩
    exact hbullet (hout u hu houtside)
  rw [h.transitionTo_eq, countSlots_ok _ hnone]
  refine ⟨_, rfl, ?_, ?_, ?_⟩
  · show 0 + _ = held file
    rw [zero_add, h.countP_timed]
  · show 0 + _ = _
    rw [zero_add, h.countP_injected]
  · show 0 + _ + (0 + _) + (0 + _) = recorded file
    rw [zero_add, zero_add, zero_add, countP_spoken, h.countP_recorded]

variable (env units) in
theorem WrittenFile.transitionTo_error (h : WrittenFile file file')
    (hout : ∃ u ∈ utterancesOf file, RecordingPresence.of u ≠ .inRecording ∧ u.bullet ≠ none) :
    ∃ k, transitionTo ((collectUtrUtteranceInfo env units file).map UtrUtteranceInfo.slot) (bulletsAfter file') =
      .error (.offRecordTimed k) := by
  rw [h.transitionTo_eq]
  exact countSlots_error _ (h.offRecord_mem.mpr hout)

end Census

/-! ## What a result says of a file -/

/-- A pass keeps parsed bullets and whatever is not in the recording, and its result describes it. -/
structure Described (file file' : ChatFile) (result : UtrResult) : Prop where
  /-- Only utterances change. -/
  lines : file' = setUtterances file (utterancesOf file')
  length_eq : (utterancesOf file').length = (utterancesOf file).length
  parsed_kept : ∀ i u u', Became file file' i u u' → u.parsedBullet ≠ none → u' = u
  off_record_kept : ∀ i u u', Became file file' i u u' → RecordingPresence.of u ≠ .inRecording → u' = u
  injected : result.injected = wrote file file'
  skipped : result.skipped = held file
  counted : result.injected + result.skipped + result.unmatched = recorded file

theorem WrittenFile.became (h : WrittenFile file file') {i : ℕ} (hbecame : Became file file' i u u') : Written u u' := by
  refine h.mem_zip (mem_of_getElem? (i := i) ?_)
  rw [getElem?_zip_eq_some]
  exact hbecame

theorem WrittenFile.described_iff (h : WrittenFile file file') (result : UtrResult) :
    Described file file' result ↔ result.injected = wrote file file' ∧ result.skipped = held file ∧
        result.injected + result.skipped + result.unmatched = recorded file :=
  ⟨fun hd => ⟨hd.injected, hd.skipped, hd.counted⟩, fun ⟨hinjected, hskipped, hcounted⟩ =>
    { lines := h.lines
      length_eq := h.length_eq
      parsed_kept := fun _ _ _ hbecame => (h.became hbecame).eq_of_parsed
      off_record_kept := fun _ _ _ hbecame => (h.became hbecame).eq_of_off_record
      injected := hinjected
      skipped := hskipped
      counted := hcounted }⟩

/-! ## The global pass -/

theorem zip_hinted (us : List Utterance) : ∀ hints : List (Option PositiveUtrInterval),
      us.zip (List.zipWith hinted us hints) = (us.zip hints).map fun p => (p.1, hinted p.1 p.2) := by
  induction us with
  | nil => intro hints; rfl
  | cons u us ih =>
    intro hints
    cases hints with
    | nil => rfl
    | cons hint hints => rw [zipWith_cons_cons, zip_cons_cons, zip_cons_cons, map_cons, ih]

theorem wrote_applyHints
    (hlen : hints.length = (utterancesOf file).length)
    (hfree : ∀ u interval, (u, some interval) ∈ (utterancesOf file).zip hints →
      RecordingPresence.of u = .inRecording ∧ u.parsedBullet = none) :
    wrote file (applyHints file hints) = hints.countP Option.isSome := by
  unfold wrote
  rw [utterancesOf_applyHints file hlen, zip_hinted, countP_map]
  calc _ = ((utterancesOf file).zip hints).countP (Option.isSome ∘ Prod.snd) := by
        refine countP_congr fun p hp => ?_
        obtain ⟨u, hint⟩ := p
        cases hint with
        | none => simp [hinted]
        | some interval =>
          obtain ⟨hin, huntimed⟩ := hfree u interval hp
          have hnew : u.bullet ≠ some (.parsed interval.intoHint) := fun hsome =>
            absurd huntimed (by simp [Utterance.parsedBullet, hsome, BulletState.asParsed])
          simp [hinted, hin, hnew]
    _ = hints.countP Option.isSome := by rw [← countP_map, map_snd_zip hlen.le]

theorem projectFrom_skipped {order : UtrOrderModel} (entries : List ProjectEntry) :
    ∀ {evidence : List (UtrUtteranceAlignmentEvidence × Bool)} (st : ProjectState), evidence.length = entries.length →
      (projectFrom order entries evidence st).2.skipped =
        st.skipped + entries.countP fun entry => entry.inRecording && entry.info.retainedTiming.isSome := by
  induction entries with
  | nil => simp [projectFrom]
  | cons entry entries ih =>
    intro evidence st hlen
    cases evidence with
    | nil => simp at hlen
    | cons x rest =>
      have hrest := ih (projectStep order entry x.1 x.2 st).2 (Nat.succ.inj hlen)
      rw [projectFrom_cons, countP_cons]
      obtain ⟨given, st', hstep⟩ : ∃ given st', projectStep order entry x.1 x.2 st = (given, st') := ⟨_, _, rfl⟩
      rw [hstep] at hrest ⊢
      obtain ⟨hout, _, rfl⟩ | ⟨hin, hretained, _, hskipped, _⟩ | ⟨_, hnone, _, hskipped, _⟩ |
          ⟨_, hnone, _, _, _, _, hskipped, _⟩ :=
        projectStep_cases order entry x.1 x.2 st hstep
      · rw [hrest, if_neg (by simp [ProjectEntry.inRecording, hout]), add_zero]
      · rw [hrest, hskipped, if_pos (by simp [ProjectEntry.inRecording, hin, hretained])]
        omega
      · rw [hrest, hskipped, if_neg (by simp [hnone]), add_zero]
      · rw [hrest, hskipped, if_neg (by simp [hnone]), add_zero]

section Global
variable {env : SearchEnv} {file : ChatFile} {tokens : PreparedUtrTokens} {participation : GlobalUtrParticipation}
  {mode : MatchMode}

theorem hintsOf_free {units : UtrLexicalUnits} {plan : UtrAlignmentPlan} {u : Utterance} {interval : PositiveUtrInterval}
    (h : (u, some interval) ∈ (utterancesOf file).zip (hintsOf env units file plan)) :
    RecordingPresence.of u = .inRecording ∧ u.parsedBullet = none := by
  obtain ⟨i, hi⟩ := getElem?_of_mem h
  obtain ⟨hu, hhint⟩ := getElem?_zip_eq_some.mp hi
  obtain ⟨entry, hentry⟩ : ∃ entry, (entriesOf env units file)[i]? = some entry := by
    refine ⟨_, getElem?_eq_getElem ?_⟩
    rw [length_entriesOf]
    exact (List.getElem?_eq_some_iff.mp hu).1
  obtain ⟨hin, huntimed, _⟩ := projectFrom_hint _ hentry hhint
  cases (getElem?_entriesOf hentry).1.symm.trans hu
  have hfaithful := entriesOf_faithful (mem_of_getElem? hentry)
  have hpresence : RecordingPresence.of entry.utterance = .inRecording := hfaithful.presence ▸ hin
  rw [hfaithful.retained, retainedTiming_of_inRecording hpresence] at huntimed
  exact ⟨hpresence, huntimed⟩

theorem isSome_retainedTiming (u : Utterance) :
    (retainedTiming u).isSome = (RecordingPresence.of u == .inRecording && u.parsedBullet.isSome) := by
  by_cases hin : RecordingPresence.of u = .inRecording
  · rw [retainedTiming_of_inRecording hin, hin]
    rfl
  · unfold retainedTiming
    cases hpresence : RecordingPresence.of u with
    | inRecording => exact absurd hpresence hin
    | notInRecording postcode => rfl

variable (env file tokens participation mode) in
theorem runGlobalUtr_injected : (runGlobalUtr env file tokens participation mode).2.injected =
      wrote file (runGlobalUtr env file tokens participation mode).1 := by
  rw [runGlobalUtr_eq]
  by_cases hempty : tokens.tokens = []
  · rw [if_pos hempty]
    show 0 = wrote file file
    refine (countP_eq_zero.mpr fun p hp => ?_).symm
    obtain ⟨u, u'⟩ := p
    obtain ⟨i, hi⟩ := getElem?_of_mem hp
    obtain ⟨hu, hu'⟩ := getElem?_zip_eq_some.mp hi
    obtain rfl : u = u' := Option.some.inj (hu.symm.trans hu')
    simp
  · rw [if_neg hempty]
    exact (wrote_applyHints length_hintsOf fun _ _ => hintsOf_free).symm

variable (env file tokens participation mode) in
theorem runGlobalUtr_skipped : (runGlobalUtr env file tokens participation mode).2.skipped = held file := by
  have hretained : (fun u => (retainedTiming u).isSome) =
      fun u => RecordingPresence.of u == .inRecording && u.parsedBullet.isSome := funext isSome_retainedTiming
  rw [runGlobalUtr_eq]
  by_cases hempty : tokens.tokens = []
  · rw [if_pos hempty]
    show (collectUtrUtteranceInfo env.toCensusEnv tokens.units file).countP _ = _
    unfold collectUtrUtteranceInfo held
    rw [countP_map, ← hretained]
    rfl
  · rw [if_neg hempty]
    calc _ = 0 + (entriesOf env tokens.units file).countP fun entry =>
          entry.inRecording && entry.info.retainedTiming.isSome :=
          projectFrom_skipped (entriesOf env tokens.units file) .start (length_evidenceEntries (length_planGlobal ..))
      _ = held file := by
          rw [zero_add, held, ← map_utterance_entriesOf env tokens.units, countP_map]
          refine countP_congr fun entry hentry => ?_
          obtain ⟨hpresence, hretained⟩ := entriesOf_faithful hentry
          rw [ProjectEntry.inRecording, hpresence, hretained, isSome_retainedTiming]
          simp

variable (env file tokens participation mode) in
theorem runGlobalUtr_writtenFile : WrittenFile file (runGlobalUtr env file tokens participation mode).1 :=
  runGlobalUtr_hinted.writtenFile

variable (env file tokens participation mode) in
theorem runGlobalUtr_described_iff : Described file (runGlobalUtr env file tokens participation mode).1
        (runGlobalUtr env file tokens participation mode).2 ↔
      tokens.tokens ≠ [] ∨ ∀ u ∈ utterancesOf file, RecordingPresence.of u = .inRecording := by
  rw [(runGlobalUtr_writtenFile ..).described_iff, ← @runGlobalUtr_counts env]
  exact ⟨fun h => h.2.2, fun h => ⟨runGlobalUtr_injected .., runGlobalUtr_skipped .., h⟩⟩

end Global

/-! ## The two passes -/

theorem countP_strayBullet (file : ChatFile) : (utterancesOf file).countP strayBullet = 0 ↔ AllParsed file := by
  rw [countP_eq_zero]
  refine forall₂_congr fun u _ => ?_
  rw [strayBullet_iff, not_and]

theorem WrittenFile.allParsed (h : WrittenFile file file') (hparsed : AllParsed file) :
    AllParsed file' := by
  intro u' hu' hin' hstray
  rw [← h.map_snd] at hu'
  obtain ⟨⟨u, v⟩, hp, rfl⟩ := mem_map.mp hu'
  have hwritten : Written u v := h.mem_zip hp
  cases hwritten with
  | kept => exact hparsed u (of_mem_zip hp).1 hin' hstray
  | wrote bullet _ _ =>
    obtain ⟨source, hsource⟩ := hstray
    simp at hsource

section TwoPass
variable {env : TwoPassEnv} {file : ChatFile} {tokens : PreparedUtrTokens} {config : TwoPassConfig}

theorem recoverOverlap_eq_some {infos : List UtrUtteranceInfo} {bullets : List (Option TimeSpan)}
    {entry : UtrUtteranceInfo × ℕ} {interval : PositiveUtrInterval}
    (h : (recoverOverlap env tokens config infos bullets entry).value = some interval) :
    entry.1.presence = .inRecording ∧ entry.1.retainedTiming = none := by
  unfold recoverOverlap at h
  split at h
  · simp at h
  · next hskip =>
    simp only [Bool.or_eq_true, not_or, Bool.not_eq_true', Bool.not_eq_false] at hskip
    obtain ⟨⟨hrecoverable, hretained⟩, _⟩ := hskip
    refine ⟨?_, by simpa using hretained⟩
    unfold isRecoverableOverlap at hrecoverable
    cases hpresence : entry.1.presence with
    | inRecording => rfl
    | notInRecording postcode =>
      rw [hpresence] at hrecoverable
      simp at hrecoverable

variable (env file tokens config) in
theorem value_secondPass : (secondPass env file tokens config).value =
      (collectUtrUtteranceInfo env.toCensusEnv tokens.units file).zipIdx.map fun entry =>
        (recoverOverlap env tokens config (collectUtrUtteranceInfo env.toCensusEnv tokens.units file)
          ((utterancesOf file).map Utterance.parsedBullet) entry).value := Work.value_mapM _ _

variable (env file tokens config) in
theorem length_secondPass : (secondPass env file tokens config).value.length = (utterancesOf file).length := by
  rw [value_secondPass, length_map, length_zipIdx, collectUtrUtteranceInfo, length_map]

variable (env file tokens config) in
theorem secondPass_writtenFile :
    WrittenFile file (applyHints file (secondPass env file tokens config).value) := by
  refine writtenFile_applyHints (length_secondPass ..) fun u interval hmem => ?_
  obtain ⟨i, hi⟩ := getElem?_of_mem hmem
  obtain ⟨hu, hrecovered⟩ := getElem?_zip_eq_some.mp hi
  rw [value_secondPass, getElem?_map, Option.map_eq_some_iff] at hrecovered
  obtain ⟨⟨info, k⟩, hentry, hvalue⟩ := hrecovered
  obtain ⟨hin, hretained⟩ := recoverOverlap_eq_some hvalue
  have hinfo : info = utteranceInfo env.toCensusEnv tokens.units u := by
    rw [getElem?_zipIdx, Option.map_eq_some_iff] at hentry
    obtain ⟨info', hinfo', heq⟩ := hentry
    obtain ⟨rfl, _⟩ := Prod.mk.inj heq
    rw [collectUtrUtteranceInfo, getElem?_map, hu] at hinfo'
    exact (Option.some.inj hinfo').symm
  subst hinfo
  exact ⟨hin, (retainedTiming_of_inRecording hin).symm.trans hretained⟩

variable (env file tokens config) in
def twoPassFile : ChatFile := (runTwoPassInner env file tokens config).value.1

variable (env file tokens config) in
theorem value_firstPass :
    (firstPass env file tokens config).value = runGlobalUtr env.toSearchEnv file tokens
      (if skipInPass1 config (collectUtrUtteranceInfo env.toCensusEnv tokens.units file) then .excludeMarkedOverlap
        else .allUtterances) config.matchMode.toDpMatchMode := rfl

theorem runTwoPassInner_of_nil (hempty : tokens.tokens = []) :
    (runTwoPassInner env file tokens config).value = ((firstPass env file tokens config).value.1,
        .ok { (firstPass env file tokens config).value.2 with
          alignment := (firstPass env file tokens config).value.2.alignment.withOverlapRecoveries [] }) := by
  unfold runTwoPassInner
  rw [Work.value_bind, Work.value_bind, if_pos hempty, Work.value_pure]

theorem runTwoPassInner_of_tokens (htokens : tokens.tokens ≠ []) :
    (runTwoPassInner env file tokens config).value =
      (applyHints (firstPass env file tokens config).value.1
          (secondPass env (firstPass env file tokens config).value.1 tokens config).value,
        (transitionTo ((collectUtrUtteranceInfo env.toCensusEnv tokens.units file).map UtrUtteranceInfo.slot)
          (bulletsAfter (applyHints (firstPass env file tokens config).value.1
            (secondPass env (firstPass env file tokens config).value.1 tokens config).value))).map
          ((firstPass env file tokens config).value.2.recount (firstPass env file tokens config).value.1
            (secondPass env (firstPass env file tokens config).value.1 tokens config).value)) := by
  unfold runTwoPassInner
  rw [Work.value_bind, Work.value_bind, if_neg htokens, Work.value_bind, Work.value_pure]

variable (env file tokens config) in
theorem twoPassFile_writtenFile : WrittenFile file (twoPassFile env file tokens config) := by
  have hfirst : WrittenFile file (firstPass env file tokens config).value.1 := by
    rw [value_firstPass]
    exact runGlobalUtr_writtenFile ..
  unfold twoPassFile
  by_cases hempty : tokens.tokens = []
  · rw [runTwoPassInner_of_nil hempty]
    exact hfirst
  · rw [runTwoPassInner_of_tokens hempty]
    exact hfirst.trans (secondPass_writtenFile ..)

theorem runTwoPassInner_ok (htokens : tokens.tokens ≠ [])
    (hout : ∀ u ∈ utterancesOf file, RecordingPresence.of u ≠ .inRecording → u.bullet = none) :
    ∃ result, (runTwoPassInner env file tokens config).value.2 = .ok result ∧
      (Described file (twoPassFile env file tokens config) result ↔
        AllParsed (twoPassFile env file tokens config)) := by
  have hwritten := twoPassFile_writtenFile env file tokens config
  obtain ⟨counts, hcounts, hskipped, hinjected, htotal⟩ :=
    hwritten.transitionTo_ok env.toCensusEnv tokens.units hout
  have hfile : twoPassFile env file tokens config = applyHints (firstPass env file tokens config).value.1
      (secondPass env (firstPass env file tokens config).value.1 tokens config).value := by
    rw [twoPassFile, runTwoPassInner_of_tokens htokens]
  rw [runTwoPassInner_of_tokens htokens, ← hfile, hcounts]
  refine ⟨_, rfl, ?_⟩
  rw [hwritten.described_iff, ← countP_strayBullet]
  show counts.injected = _ ∧ counts.skipped = _ ∧ counts.injected + counts.skipped + counts.unmatched = _ ↔ _
  constructor
  · omega
  · intro h
    exact ⟨by omega, hskipped, htotal⟩

theorem runTwoPassInner_error (htokens : tokens.tokens ≠ [])
    (hout : ∃ u ∈ utterancesOf file, RecordingPresence.of u ≠ .inRecording ∧ u.bullet ≠ none) :
    ∃ k, (runTwoPassInner env file tokens config).value.2 = .error (.offRecordTimed k) := by
  obtain ⟨k, hk⟩ := (twoPassFile_writtenFile env file tokens config).transitionTo_error env.toCensusEnv
    tokens.units hout
  rw [twoPassFile, runTwoPassInner_of_tokens htokens] at hk
  rw [runTwoPassInner_of_tokens htokens, hk]
  exact ⟨k, rfl⟩

/-! ## The strategy -/

section Strategy
variable {strategy : TwoPassOverlapUtr}

variable (env strategy file tokens) in
def globalOutcome : ChatFile × UtrResult :=
  runGlobalUtr env.toSearchEnv file tokens .allUtterances strategy.config.matchMode.toDpMatchMode

variable (env strategy file tokens) in
def takesTwoPass : Bool :=
  prefersTwoPass env strategy.groupingContext (twoPassFile env file tokens strategy.config)
    (globalOutcome env file tokens strategy).1

theorem inject_of_ok {result : UtrResult} (h : (runTwoPassInner env file tokens strategy.config).value.2 = .ok result) :
    strategy.inject env file tokens =
      if takesTwoPass env file tokens strategy then (twoPassFile env file tokens strategy.config, result)
      else globalOutcome env file tokens strategy := by
  unfold TwoPassOverlapUtr.inject TwoPassOverlapUtr.injectWithControl
  simp only [Session.left_bind, Session.value_bind, Session.value_lift, Session.left_lift, Session.value_get,
    Session.left_get, h]
  change (Session.left (if takesTwoPass env file tokens strategy then _ else _) file,
    Session.value (if takesTwoPass env file tokens strategy then _ else _) file) = _
  cases takesTwoPass env file tokens strategy with
  | true => rfl
  | false => rfl

variable (env strategy file tokens) in
theorem asked_injectWithControl : ∀ t ∈ (strategy.injectWithControl env tokens).asked file, t = file := by
  intro t ht
  unfold TwoPassOverlapUtr.injectWithControl at ht
  simp only [Session.asked_bind, Session.value_lift, Session.left_lift, Session.value_get, Session.left_get,
    Session.asked_lift, Session.asked_get, nil_append, mem_append] at ht
  obtain ht | ht | ht | ht | ht := ht
  · exact eq_of_mem_replicate ht
  · exact eq_of_mem_replicate ht
  · exact eq_of_mem_replicate ht
  · exact eq_of_mem_replicate ht
  · -- What follows asks once more, before it writes.
    cases hresult : (runTwoPassInner env file tokens strategy.config).value.2 with
    | error change =>
      rw [hresult] at ht
      exact absurd ht (not_mem_nil)
    | ok result =>
      rw [hresult] at ht
      simp only [Session.asked_bind, Session.left_lift, Session.asked_lift, mem_append] at ht
      obtain ht | ht := ht
      · exact eq_of_mem_replicate ht
      · change t ∈ (Session.asked (if takesTwoPass env file tokens strategy then _ else _) file) at ht
        cases htakes : takesTwoPass env file tokens strategy with
        | true =>
          rw [htakes] at ht
          exact absurd ht (not_mem_nil)
        | false =>
          rw [htakes] at ht
          exact absurd ht (not_mem_nil)

variable (env strategy file tokens) in
/-- The strategy keeps its word: the result describes the file, the population stays, a stopped call leaves
  the file. -/
structure Injects : Prop where
  described : Described file (strategy.inject env file tokens).1 (strategy.inject env file tokens).2
  population : ∀ change, (runTwoPassInner env file tokens strategy.config).value.2 ≠ .error change
  stopped : ∀ (ε : Type) (control : Control ε) (stop : ε),
    ((strategy.injectWithControl env tokens).under control file).2 = .error stop →
      ((strategy.injectWithControl env tokens).under control file).1 = file
  finished : ∀ (ε : Type) (control : Control ε) (result : UtrResult),
    ((strategy.injectWithControl env tokens).under control file).2 = .ok result →
      (((strategy.injectWithControl env tokens).under control file).1, result) = strategy.inject env file tokens

theorem injects_iff : Injects env file tokens strategy ↔
      Described file (strategy.inject env file tokens).1 (strategy.inject env file tokens).2 ∧
        ∀ change, (runTwoPassInner env file tokens strategy.config).value.2 ≠ .error change := by
  refine ⟨fun h => ⟨h.described, h.population⟩, fun ⟨hdescribed, hpopulation⟩ => ⟨hdescribed, hpopulation, ?_, ?_⟩⟩
  · intro ε control stop h
    exact Session.under_stopped (asked_injectWithControl env file tokens strategy) h
  · intro ε control result h
    obtain ⟨hleft, rfl⟩ := Session.under_ok h
    exact Prod.ext hleft rfl

theorem injects_of_nil (hempty : tokens.tokens = []) :
    Injects env file tokens strategy ↔ ∀ u ∈ utterancesOf file, RecordingPresence.of u = .inRecording := by
  have hrun := @runTwoPassInner_of_nil env file tokens strategy.config hempty
  have hok := congrArg Prod.snd hrun
  have hfile : twoPassFile env file tokens strategy.config = (firstPass env file tokens strategy.config).value.1 :=
    congrArg Prod.fst hrun
  have hpopulation : ∀ change, (runTwoPassInner env file tokens strategy.config).value.2 ≠ .error change := by
    intro change h
    exact absurd (hok.symm.trans h) (by simp)
  have hglobal : ∀ participation, Described file
      (runGlobalUtr env.toSearchEnv file tokens participation strategy.config.matchMode.toDpMatchMode).1
      (runGlobalUtr env.toSearchEnv file tokens participation strategy.config.matchMode.toDpMatchMode).2 ↔
      ∀ u ∈ utterancesOf file, RecordingPresence.of u = .inRecording := by
    intro participation
    rw [runGlobalUtr_described_iff]
    exact ⟨fun h => h.resolve_left (absurd hempty), .inr⟩
  rw [injects_iff, and_iff_left hpopulation, inject_of_ok hok]
  split
  · -- The counts are the first pass's.
    rw [(twoPassFile_writtenFile ..).described_iff, hfile, value_firstPass, ← hglobal,
      (runGlobalUtr_writtenFile ..).described_iff]
  · exact hglobal _

theorem injects_of_tokens (htokens : tokens.tokens ≠ []) : Injects env file tokens strategy ↔
      (∀ u ∈ utterancesOf file, RecordingPresence.of u ≠ .inRecording → u.bullet = none) ∧
        (takesTwoPass env file tokens strategy → AllParsed (twoPassFile env file tokens strategy.config)) := by
  rw [injects_iff]
  by_cases hout : ∀ u ∈ utterancesOf file, RecordingPresence.of u ≠ .inRecording → u.bullet = none
  · obtain ⟨result, hok, hdescribed⟩ := @runTwoPassInner_ok env file tokens strategy.config htokens hout
    have hpopulation : ∀ change, (runTwoPassInner env file tokens strategy.config).value.2 ≠ .error change := by
      intro change h
      exact absurd (hok.symm.trans h) (by simp)
    rw [and_iff_left hpopulation, and_iff_right hout, inject_of_ok hok]
    cases takesTwoPass env file tokens strategy with
    | true =>
      rw [if_pos rfl, hdescribed]
      exact ⟨fun h _ => h, fun h => h rfl⟩
    | false =>
      exact iff_of_true ((runGlobalUtr_described_iff ..).mpr (.inl htokens)) (fun h => absurd h Bool.false_ne_true)
  · refine iff_of_false (fun h => ?_) (fun h => hout h.1)
    push Not at hout
    obtain ⟨k, hk⟩ := @runTwoPassInner_error env file tokens strategy.config htokens hout
    exact h.2 _ hk

end Strategy

end TwoPass

/-- The strategy keeps its word exactly when, without tokens, the whole file is in the recording or, with
  tokens, nothing outside it has a bullet and a two-pass file taken has no stray bullet. -/
theorem inject_describes_iff (env : TwoPassEnv) (strategy : TwoPassOverlapUtr) (file : ChatFile)
    (tokens : PreparedUtrTokens) :
    (Injects env file tokens strategy ↔
      if tokens.tokens = [] then ∀ u ∈ utterancesOf file, RecordingPresence.of u = .inRecording
      else (∀ u ∈ utterancesOf file, RecordingPresence.of u ≠ .inRecording → u.bullet = none) ∧
        (takesTwoPass env file tokens strategy → AllParsed (twoPassFile env file tokens strategy.config))) ∧
    (AllParsed file → (Injects env file tokens strategy ↔
        if tokens.tokens = [] then ∀ u ∈ utterancesOf file, RecordingPresence.of u = .inRecording
        else ∀ u ∈ utterancesOf file, RecordingPresence.of u ≠ .inRecording → u.bullet = none)) := by
  by_cases hempty : tokens.tokens = []
  · rw [if_pos hempty, if_pos hempty]
    exact ⟨injects_of_nil hempty, fun _ => injects_of_nil hempty⟩
  · rw [if_neg hempty, if_neg hempty, injects_of_tokens hempty]
    refine ⟨Iff.rfl, fun hparsed => and_iff_left fun _ => ?_⟩
    exact (twoPassFile_writtenFile env file tokens strategy.config).allParsed hparsed

/-! ## A bullet outside the recording -/

def plainTwoPass : TwoPassEnv where
  toSearchEnv := plainSearch
  onsetOffset _ _ := 0
  admissionPolls _ _ _ := 0

/-- Exact matching with every overlap left out of the first pass, and no groups to compare. -/
def plainStrategy : TwoPassOverlapUtr where
  groupingContext := none
  config := ⟨.enabled, ⟨fun _ _ => true⟩, 500, .exact⟩

def helloToken : PreparedUtrTokens := ⟨[⟨"hello", 100, 400⟩], .spaceDelimitedWords⟩

def timedNoteFile : ChatFile :=
  [.utterance ⟨"CHI", [], none, [.word ⟨"hello", none⟩], [], []⟩,
   .utterance ⟨"CHI", [], some (.parsed ⟨500, 900⟩), [.word ⟨"aside", none⟩], [], ["diary"]⟩]

/-- The note's own bullet, which nothing has touched, is reported as a changed
population. -/
theorem timed_note_changes_population :
    (∃ k, (runTwoPassInner plainTwoPass timedNoteFile helloToken plainStrategy.config).value.2 =
      .error (.offRecordTimed k)) ∧ ¬ Injects plainTwoPass timedNoteFile helloToken plainStrategy := by
  have hraised : ∃ k, (runTwoPassInner plainTwoPass timedNoteFile helloToken plainStrategy.config).value.2 =
      .error (.offRecordTimed k) :=
    runTwoPassInner_error (by decide) ⟨_, mem_cons_of_mem _ (mem_cons_self ..), by decide, by decide⟩
  refine ⟨hraised, fun h => ?_⟩
  obtain ⟨k, hk⟩ := hraised
  exact h.population _ hk

theorem spoken_line_injects :
    AllParsed (timedNoteFile.take 1) ∧ Injects plainTwoPass (timedNoteFile.take 1) helloToken plainStrategy := by
  have hparsed : AllParsed (timedNoteFile.take 1) := by
    intro u hu _ hunparsed
    obtain rfl := mem_singleton.mp hu
    obtain ⟨source, hsource⟩ := hunparsed
    exact absurd hsource (by simp)
  refine ⟨hparsed, ((inject_describes_iff plainTwoPass plainStrategy _ helloToken).2 hparsed).mpr ?_⟩
  intro u hu hout
  obtain rfl := mem_singleton.mp hu
  rfl

end Batchalign.Utr
