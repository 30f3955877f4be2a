import Batchalign.Fa.Spared
import Batchalign.Utr.Projection

/- What the global pass leaves of a file: every parsed bullet and every utterance not in the recording,
   positive bullets, hints in order (`project_recovered`). The counts add up to the utterances of the
   recording unless the token list is empty. -/
namespace Batchalign.Utr
open Fa DpAlign Polled List
open Function (update_self update_of_ne)

/-! ## Writing hints -/

def setUtterances : ChatFile → List Utterance → ChatFile
  | [], _ => []
  | .header text :: lines, us => .header text :: setUtterances lines us
  | .utterance u :: lines, [] => .utterance u :: setUtterances lines []
  | .utterance _ :: lines, u :: us => .utterance u :: setUtterances lines us

theorem utterancesOf_header (text : String) (lines : ChatFile) :
    utterancesOf (.header text :: lines) = utterancesOf lines := rfl

theorem utterancesOf_utterance (u : Utterance) (lines : ChatFile) :
    utterancesOf (.utterance u :: lines) = u :: utterancesOf lines := rfl

section
variable (file : ChatFile)

theorem setUtterances_self : setUtterances file (utterancesOf file) = file := by
  induction file with
  | nil => rfl
  | cons line lines ih =>
    cases line with
    | header text => rw [utterancesOf_header, setUtterances, ih]
    | utterance u => rw [utterancesOf_utterance, setUtterances, ih]

theorem utterancesOf_applyHints :
    ∀ {hints : List (Option PositiveUtrInterval)}, hints.length = (utterancesOf file).length →
      utterancesOf (applyHints file hints) = List.zipWith hinted (utterancesOf file) hints := by
  induction file with
  | nil => intro hints _; rfl
  | cons line lines ih =>
    intro hints hlen
    cases line with
    | header text => exact ih hlen
    | utterance u =>
      cases hints with
      | nil => exact absurd hlen (by simp [utterancesOf_utterance])
      | cons hint hints =>
        refine congrArg _ (ih ?_)
        exact Nat.succ.inj hlen

theorem applyHints_eq : ∀ hints : List (Option PositiveUtrInterval),
      applyHints file hints = setUtterances file (utterancesOf (applyHints file hints)) := by
  induction file with
  | nil => intro hints; rfl
  | cons line lines ih =>
    intro hints
    cases line with
    | header text =>
      rw [applyHints, utterancesOf_header, setUtterances, ← ih hints]
    | utterance u =>
      cases hints with
      | nil => rw [applyHints, utterancesOf_utterance, setUtterances, ← ih []]
      | cons hint hints => rw [applyHints, utterancesOf_utterance, setUtterances, ← ih hints]

/-! ## The entries of a projection -/

theorem map_utterancesFrom :
    ∀ l o : ℕ, (utterancesFrom l o file).map (fun x => x.2.2) = utterancesOf file := by
  induction file with
  | nil => intro l o; rfl
  | cons line lines ih =>
    intro l o
    cases line with
    | header text => rw [utterancesFrom, utterancesOf_header, ih]
    | utterance u => rw [utterancesFrom, map_cons, utterancesOf_utterance, ih]

end

theorem length_followingStarts (entries : List (Utterance × UtrUtteranceInfo)) :
    (followingStarts entries).starts.length = entries.length := by
  induction entries with
  | nil => rfl
  | cons entry entries ih =>
    rw [followingStarts, length_cons, length_cons, ih]

variable {entry : ProjectEntry}

section Entries
variable {env : SearchEnv} {units : UtrLexicalUnits} {file : ChatFile}

theorem length_entriesOf : (entriesOf env units file).length = (utterancesOf file).length := by
  have hindexed := congrArg List.length (map_utterancesFrom file 0 0)
  rw [length_map] at hindexed
  unfold entriesOf utterancesIndexed
  rw [length_map, length_zip, length_followingStarts, length_map, hindexed, Nat.min_self]

theorem getElem?_entriesOf {i : ℕ} (h : (entriesOf env units file)[i]? = some entry) :
    (utterancesOf file)[i]? = some entry.utterance ∧
      entry.info = utteranceInfo env.toCensusEnv units entry.utterance ∧
      (followingStarts ((utterancesOf file).map fun u => (u, utteranceInfo env.toCensusEnv units u))).starts[i]? =
        some entry.following := by
  unfold entriesOf at h
  rw [getElem?_map, Option.map_eq_some_iff] at h
  obtain ⟨⟨⟨lineIdx, ordinal, u⟩, following⟩, hzip, rfl⟩ := h
  obtain ⟨hindexed, hfollowing⟩ := getElem?_zip_eq_some.mp hzip
  refine ⟨?_, rfl, hfollowing⟩
  rw [← map_utterancesFrom file 0 0, getElem?_map]
  exact congrArg (Option.map fun x => x.2.2) hindexed

end Entries

/-! ## Ceilings -/

theorem lowered_le_start (ceiling : Option ℕ) (s : ℕ) : ∃ c, lowered ceiling s = some c ∧ c ≤ s := by
  cases ceiling with
  | none => exact ⟨s, rfl, le_rfl⟩
  | some c => exact ⟨min c s, rfl, min_le_right ..⟩

theorem lowered_le_ceiling {ceiling : Option ℕ} {c bound : ℕ} (s : ℕ) (h : ceiling = some c) (hc : c ≤ bound) :
    ∃ c', lowered ceiling s = some c' ∧ c' ≤ bound :=
  ⟨min c s, by rw [h]; rfl, (min_le_left ..).trans hc⟩

def Following.under (following : Following) (speaker : String) : UtrOrderModel → Option ℕ
  | .interleaved => following.speakerCeilings speaker
  | .monotonic => following.ceiling

variable {speaker : String} {u : Utterance} {order : UtrOrderModel} {evidence : UtrUtteranceAlignmentEvidence}
  {bounded : Bool} {st : ProjectState}

theorem under_followingStarts_cons {info : UtrUtteranceInfo}
    {rest : List (Utterance × UtrUtteranceInfo)} :
    (∀ bullet, bulletBeside u info = some bullet → Ordered order speaker info.speaker →
      ∃ c, (followingStarts ((u, info) :: rest)).under speaker order = some c ∧ c ≤ bullet.startMs) ∧
    (∀ c bound, (followingStarts rest).under speaker order = some c → c ≤ bound →
      ∃ c', (followingStarts ((u, info) :: rest)).under speaker order = some c' ∧ c' ≤ bound) := by
  cases hbullet : bulletBeside u info with
  | none =>
    refine ⟨fun bullet h => absurd h (by simp), fun c bound hc hle => ⟨c, ?_, hle⟩⟩
    cases order <;> simpa only [Following.under, followingStarts, hbullet, Option.elim_none] using hc
  | some b =>
    cases order with
    | monotonic =>
      simp only [Following.under, followingStarts, hbullet, Option.elim_some]
      refine ⟨fun bullet h _ => ?_, fun c bound hc hle => lowered_le_ceiling _ hc hle⟩
      cases h
      exact lowered_le_start ..
    | interleaved =>
      simp only [Following.under, followingStarts, hbullet, Option.elim_some]
      refine ⟨fun bullet h hordered => ?_, fun c bound hc hle => ?_⟩
      · cases h
        obtain hmono | rfl := hordered
        · simp at hmono
        · rw [update_self]
          exact lowered_le_start ..
      · by_cases hspeaker : speaker = info.speaker
        · subst hspeaker
          rw [update_self]
          exact lowered_le_ceiling _ hc hle
        · rw [update_of_ne hspeaker]
          exact ⟨c, hc, hle⟩

theorem under_followingStarts (entries : List (Utterance × UtrUtteranceInfo)) :
    ∀ {j : ℕ} {u : Utterance} {info : UtrUtteranceInfo} {bullet : TimeSpan}, entries[j]? = some (u, info) →
      bulletBeside u info = some bullet → Ordered order speaker info.speaker →
      ∃ c, (followingStarts entries).under speaker order = some c ∧ c ≤ bullet.startMs := by
  induction entries with
  | nil => intro j u info bullet h; simp at h
  | cons entry entries ih =>
    intro j u info bullet h hbullet hordered
    cases j with
    | zero =>
      cases Option.some.inj h
      exact under_followingStarts_cons.1 bullet hbullet hordered
    | succ j =>
      obtain ⟨c, hc, hle⟩ := ih h hbullet hordered
      exact under_followingStarts_cons.2 c _ hc hle

theorem followingStarts_ceiling (order : UtrOrderModel) (entries : List (Utterance × UtrUtteranceInfo)) :
    ∀ {i j : ℕ} {following : FollowingStarts} {u v : Utterance} {infoU infoV : UtrUtteranceInfo} {bullet : TimeSpan},
      i < j → (followingStarts entries).starts[i]? = some following → entries[i]? = some (u, infoU) →
      entries[j]? = some (v, infoV) → bulletBeside v infoV = some bullet → Ordered order infoU.speaker infoV.speaker →
      ∃ c, following.under order = some c ∧ c ≤ bullet.startMs := by
  induction entries with
  | nil => intro i j following u v infoU infoV bullet _ h; exact absurd h (by simp [followingStarts])
  | cons entry entries ih =>
    intro i j following u v infoU infoV bullet hij hstarts hu hv hbullet hordered
    cases j with
    | zero => exact absurd hij (Nat.not_lt_zero _)
    | succ j =>
      cases i with
      | zero =>
        cases hstarts
        cases Option.some.inj hu
        obtain ⟨c, hc, hle⟩ := under_followingStarts entries hv hbullet hordered
        refine ⟨c, ?_, hle⟩
        cases order <;> exact hc
      | succ i => exact ih (Nat.lt_of_succ_lt_succ hij) hstarts hu hv hbullet hordered

/-! ## Floors -/

theorem UtrFloors.under_raise (floors : UtrFloors) (info : UtrUtteranceInfo) (endMs : ℕ) (speaker : String)
    (order : UtrOrderModel) : floors.under speaker order ≤ (floors.raise info endMs).under speaker order := by
  unfold raise
  split
  · exact le_rfl
  · cases order with
    | monotonic => exact le_max_left ..
    | interleaved =>
      show floors.speakers speaker ≤ Function.update floors.speakers info.speaker _ speaker
      by_cases hspeaker : speaker = info.speaker
      · subst hspeaker
        rw [update_self]
        exact le_max_left ..
      · rw [update_of_ne hspeaker]

theorem UtrFloors.raise_bounds {floors : UtrFloors} {info : UtrUtteranceInfo} {endMs : ℕ} (hoverlaps : info.overlaps = false) (hordered : Ordered order info.speaker speaker) :
    endMs ≤ (floors.raise info endMs).under speaker order := by
  unfold raise
  rw [hoverlaps, if_neg Bool.false_ne_true]
  cases order with
  | monotonic => exact le_max_right ..
  | interleaved =>
    obtain hmono | rfl := hordered
    · simp at hmono
    · show endMs ≤ Function.update floors.speakers info.speaker _ info.speaker
      rw [update_self]
      exact le_max_right ..

theorem under_projectStep (speaker : String) :
    st.floors.under speaker order ≤ (projectStep order entry evidence bounded st).2.floors.under speaker order := by
  obtain ⟨hint, st', hstep⟩ : ∃ hint st', projectStep order entry evidence bounded st = (hint, st') := ⟨_, _, rfl⟩
  rw [hstep]
  obtain ⟨_, _, hst⟩ | ⟨_, _, _, _, _, hfloors⟩ | ⟨_, _, _, _, _, hfloors⟩ | ⟨_, _, _, given, _, _, _, _, hfloors⟩ :=
    projectStep_cases order entry evidence bounded st hstep
  · rw [hst]
  · rw [hfloors]
    cases entry.utterance.parsedBullet with
    | none => exact le_rfl
    | some bullet => exact UtrFloors.under_raise ..
  · rw [hfloors]
  · rw [hfloors]
    exact UtrFloors.under_raise ..

structure ProjectEntry.Faithful (entry : ProjectEntry) : Prop where
  presence : entry.info.presence = RecordingPresence.of entry.utterance
  retained : entry.info.retainedTiming = retainedTiming entry.utterance

theorem retainedTiming_of_inRecording (h : RecordingPresence.of u = .inRecording) :
    retainedTiming u = u.parsedBullet := by
  unfold retainedTiming
  rw [h]

theorem projectStep_bullet {bullet : TimeSpan} (hfaithful : entry.Faithful)
    (hpresence : entry.info.presence = .inRecording) (hoverlaps : entry.info.overlaps = false)
    (hordered : Ordered order entry.info.speaker speaker)
    (hbullet : (hinted entry.utterance (projectStep order entry evidence bounded st).1).parsedBullet = some bullet) :
    bullet.endMs ≤ (projectStep order entry evidence bounded st).2.floors.under speaker order := by
  obtain ⟨hint, st', hstep⟩ : ∃ hint st', projectStep order entry evidence bounded st = (hint, st') := ⟨_, _, rfl⟩
  rw [hstep] at hbullet ⊢
  obtain ⟨hout, _, _⟩ | ⟨_, _, hhint, _, _, hfloors⟩ | ⟨_, hnone, hhint, _, _, _⟩ |
      ⟨_, _, _, given, hhint, _, _, _, hfloors⟩ :=
    projectStep_cases order entry evidence bounded st hstep
  · exact absurd hpresence hout
  · rw [hhint] at hbullet
    rw [hfloors, show entry.utterance.parsedBullet = some bullet from hbullet]
    exact UtrFloors.raise_bounds hoverlaps hordered
  · -- Untimed before and refused: it ends without a parsed bullet.
    rw [hhint] at hbullet
    rw [hfaithful.retained, retainedTiming_of_inRecording (hfaithful.presence ▸ hpresence)] at hnone
    exact absurd (hnone.symm.trans hbullet) (by simp)
  · rw [hhint] at hbullet
    cases hbullet
    rw [hfloors]
    exact UtrFloors.raise_bounds hoverlaps hordered

theorem projectStep_hint {hint : PositiveUtrInterval}
    (h : (projectStep order entry evidence bounded st).1 = some hint) : entry.info.presence = .inRecording ∧
      entry.info.retainedTiming = none ∧ ∃ interval, projected order entry st.floors interval = some hint := by
  obtain ⟨given, st', hstep⟩ : ∃ given st', projectStep order entry evidence bounded st = (given, st') := ⟨_, _, rfl⟩
  rw [hstep] at h
  obtain ⟨_, rfl, _⟩ | ⟨_, _, rfl, _⟩ | ⟨_, _, rfl, _⟩ | ⟨hin, huntimed, interval, _, rfl, hproj, _⟩ :=
    projectStep_cases order entry evidence bounded st hstep
  · cases h
  · cases h
  · cases h
  · cases h
    exact ⟨hin, huntimed, interval, hproj⟩

/-! ## The run -/

variable (entries : List ProjectEntry)

section Run

theorem projectFrom_cons (entry : ProjectEntry) (entries : List ProjectEntry)
    (x : UtrUtteranceAlignmentEvidence × Bool) (rest : List (UtrUtteranceAlignmentEvidence × Bool)) (st : ProjectState) :
    projectFrom order (entry :: entries) (x :: rest) st = ((projectStep order entry x.1 x.2 st).1 ::
          (projectFrom order entries rest (projectStep order entry x.1 x.2 st).2).1,
        (projectFrom order entries rest (projectStep order entry x.1 x.2 st).2).2) := rfl

theorem projectFrom_nil (st : ProjectState) :
    projectFrom order entries [] st = (entries.map fun _ => none, st) := by
  cases entries <;> rfl

theorem length_projectFrom :
    ∀ (evidence : List (UtrUtteranceAlignmentEvidence × Bool)) (st : ProjectState),
      (projectFrom order entries evidence st).1.length = entries.length := by
  induction entries with
  | nil => intro evidence st; rfl
  | cons entry entries ih =>
    intro evidence st
    cases evidence with
    | nil => rw [projectFrom_nil, length_map]
    | cons x rest => rw [projectFrom_cons, length_cons, length_cons, ih]

theorem projectFrom_hint :
    ∀ {evidence : List (UtrUtteranceAlignmentEvidence × Bool)} {st : ProjectState} {i : ℕ} {entry : ProjectEntry}
      {hint : PositiveUtrInterval}, entries[i]? = some entry →
      (projectFrom order entries evidence st).1[i]? = some (some hint) →
      entry.info.presence = .inRecording ∧ entry.info.retainedTiming = none ∧
        ∃ floors interval, projected order entry floors interval = some hint := by
  induction entries with
  | nil => intro evidence st i entry hint h; simp at h
  | cons entry₀ entries ih =>
    intro evidence st i entry hint h hhint
    cases evidence with
    | nil =>
      rw [projectFrom_nil, getElem?_map, h] at hhint
      simp at hhint
    | cons x rest =>
      cases i with
      | succ i => exact ih h hhint
      | zero =>
        cases h
        obtain ⟨hin, huntimed, interval, hproj⟩ := projectStep_hint (Option.some.inj hhint)
        exact ⟨hin, huntimed, st.floors, interval, hproj⟩

def ProjectEntry.inRecording (entry : ProjectEntry) : Bool := entry.info.presence == .inRecording

theorem projectFrom_counts :
    ∀ {evidence : List (UtrUtteranceAlignmentEvidence × Bool)} (st : ProjectState), evidence.length = entries.length →
      (projectFrom order entries evidence st).1.countP Option.isSome +
          (projectFrom order entries evidence st).2.skipped + (projectFrom order entries evidence st).2.unmatched =
        st.skipped + st.unmatched + entries.countP ProjectEntry.inRecording := by
  induction entries with
  | nil => simp [projectFrom]
  | cons entry entries ih =>
    intro evidence st hlen
    cases evidence with
    | nil => simp at hlen
    | cons x rest =>
      have hrest := ih (projectStep order entry x.1 x.2 st).2 (Nat.succ.inj hlen)
      rw [projectFrom_cons, countP_cons, countP_cons]
      obtain ⟨given, st', hstep⟩ : ∃ given st', projectStep order entry x.1 x.2 st = (given, st') := ⟨_, _, rfl⟩
      rw [hstep] at hrest ⊢
      simp only at hrest ⊢
      obtain ⟨hout, rfl, rfl⟩ | ⟨hin, _, rfl, hskipped, hunmatched, _⟩ | ⟨hin, _, rfl, hskipped, hunmatched, _⟩ |
          ⟨hin, _, _, hint, rfl, _, hskipped, hunmatched, _⟩ :=
        projectStep_cases order entry x.1 x.2 st hstep
      · rw [if_neg (by simp), if_neg (by simpa [ProjectEntry.inRecording] using hout)]
        omega
      · rw [if_neg (by simp), if_pos (by simpa [ProjectEntry.inRecording] using hin)]
        omega
      · rw [if_neg (by simp), if_pos (by simpa [ProjectEntry.inRecording] using hin)]
        omega
      · rw [if_pos (show (some hint).isSome = true from rfl), if_pos (by simpa [ProjectEntry.inRecording] using hin)]
        omega

theorem floor_le_projected {floors : UtrFloors} {interval hint : PositiveUtrInterval}
    (hoverlaps : entry.info.overlaps = false) (h : projected order entry floors interval = some hint) :
    floors.under entry.info.speaker order ≤ hint.startMs ∧ ∀ c ∈ entry.following.under order, hint.endMs ≤ c := by
  unfold projected at h
  rw [hoverlaps, if_neg Bool.false_ne_true] at h
  exact UtrTimingCorridor.intersect_between h

theorem projectFrom_floors :
    ∀ {evidence : List (UtrUtteranceAlignmentEvidence × Bool)} {st : ProjectState} {j : ℕ} {entry : ProjectEntry}
      {hint : PositiveUtrInterval}, (∀ e ∈ entries, e.Faithful) → entries[j]? = some entry →
      (projectFrom order entries evidence st).1[j]? = some (some hint) → entry.info.overlaps = false →
      st.floors.under entry.info.speaker order ≤ hint.startMs ∧
        ∀ i earlier given bullet, i < j → entries[i]? = some earlier →
          (projectFrom order entries evidence st).1[i]? = some given → earlier.info.presence = .inRecording →
          earlier.info.overlaps = false → Ordered order earlier.info.speaker entry.info.speaker →
          (hinted earlier.utterance given).parsedBullet = some bullet → bullet.endMs ≤ hint.startMs := by
  induction entries with
  | nil => intro evidence st j entry hint _ h; simp at h
  | cons entry₀ entries ih =>
    intro evidence st j entry hint hfaithful h hhint hoverlaps
    cases evidence with
    | nil =>
      rw [projectFrom_nil, getElem?_map, h] at hhint
      simp at hhint
    | cons x rest =>
      cases j with
      | zero =>
        cases h
        obtain ⟨_, _, interval, hproj⟩ := projectStep_hint (Option.some.inj hhint)
        exact ⟨(floor_le_projected hoverlaps hproj).1, fun i _ _ _ hi => absurd hi (Nat.not_lt_zero _)⟩
      | succ j =>
        obtain ⟨hfloor, hearlier⟩ := ih (fun e he => hfaithful e (mem_cons_of_mem _ he)) h hhint hoverlaps
        refine ⟨(under_projectStep _).trans hfloor, ?_⟩
        intro i earlier given bullet hi he hgiven hpresence hearlierOverlaps hordered hbullet
        cases i with
        | zero =>
          cases he
          cases hgiven
          exact (projectStep_bullet (hfaithful _ (mem_cons_self ..)) hpresence hearlierOverlaps hordered
            hbullet).trans hfloor
        | succ i =>
          exact hearlier i earlier given bullet (Nat.lt_of_succ_lt_succ hi) he hgiven hpresence hearlierOverlaps
            hordered hbullet

end Run

/-! ## What the pass leaves -/

def marked (env : CensusEnv) (u : Utterance) : Bool :=
  overlapsPreviousUtterance u || (env.extractOverlapInfo u.content).hasBottomOverlap

/-- Utterance `i` before and after a pass. -/
def Became (file file' : ChatFile) (i : ℕ) (u u' : Utterance) : Prop :=
  (utterancesOf file)[i]? = some u ∧ (utterancesOf file')[i]? = some u'

def recorded (file : ChatFile) : ℕ := (utterancesOf file).countP fun u => RecordingPresence.of u == .inRecording

structure Hinted (env : CensusEnv) (order : UtrOrderModel) (file file' : ChatFile) : Prop where
  /-- Only utterances change. -/
  lines : file' = setUtterances file (utterancesOf file')
  length_eq : (utterancesOf file').length = (utterancesOf file).length
  parsed_kept : ∀ i u u', Became file file' i u u' → u.parsedBullet ≠ none → u' = u
  off_record_kept : ∀ i u u', Became file file' i u u' → RecordingPresence.of u ≠ .inRecording → u' = u
  /-- What it writes is a positive bullet and nothing else. -/
  written : ∀ i u u', Became file file' i u u' → u' ≠ u →
    ∃ hint : TimeSpan, u' = { u with bullet := some (.parsed hint) } ∧ hint.startMs < hint.endMs
  floors : ∀ i j u u' v v' bullet hint, i < j → Became file file' i u u' → Became file file' j v v' →
    v' ≠ v → marked env v = false → RecordingPresence.of u = .inRecording → marked env u = false →
    Ordered order u.speaker v.speaker → u'.parsedBullet = some bullet → v'.parsedBullet = some hint →
    bullet.endMs ≤ hint.startMs
  ceilings : ∀ i j u u' v v' bullet hint, i < j → Became file file' i u u' → Became file file' j v v' →
    u' ≠ u → marked env u = false → marked env v = false → Ordered order u.speaker v.speaker →
    v.parsedBullet = some bullet → u'.parsedBullet = some hint → hint.endMs ≤ bullet.startMs

theorem hinted_ne {hint : Option PositiveUtrInterval} (h : hinted u hint ≠ u) :
    ∃ interval, hint = some interval := by
  cases hint with
  | none => exact absurd rfl h
  | some interval => exact ⟨interval, rfl⟩

section Project
variable {env : SearchEnv} {units : UtrLexicalUnits} {file : ChatFile} {plan : UtrAlignmentPlan}

def hintsOf (env : SearchEnv) (units : UtrLexicalUnits) (file : ChatFile) (plan : UtrAlignmentPlan) :
    List (Option PositiveUtrInterval) :=
  (projectFrom plan.strategy (entriesOf env units file) (evidenceEntries plan) .start).1

theorem length_hintsOf : (hintsOf env units file plan).length = (utterancesOf file).length := by
  unfold hintsOf
  rw [length_projectFrom, length_entriesOf]

theorem became_project {i : ℕ} {u u' : Utterance} (h : Became file (project env units file plan).1 i u u') :
    ∃ entry hint, (entriesOf env units file)[i]? = some entry ∧ entry.utterance = u ∧
      (hintsOf env units file plan)[i]? = some hint ∧ u' = hinted u hint := by
  obtain ⟨hu, hu'⟩ := h
  have hlen : (hintsOf env units file plan).length = (utterancesOf file).length := length_hintsOf
  have hentries : (entriesOf env units file).length = (utterancesOf file).length := length_entriesOf
  have hi : i < (utterancesOf file).length := (List.getElem?_eq_some_iff.mp hu).1
  obtain ⟨entry, hentry⟩ : ∃ entry, (entriesOf env units file)[i]? = some entry :=
    ⟨_, getElem?_eq_getElem (hentries ▸ hi)⟩
  obtain ⟨hint, hhint⟩ : ∃ hint, (hintsOf env units file plan)[i]? = some hint :=
    ⟨_, getElem?_eq_getElem (hlen ▸ hi)⟩
  have hutterance : entry.utterance = u :=
    Option.some.inj ((getElem?_entriesOf hentry).1.symm.trans hu)
  refine ⟨entry, hint, hentry, hutterance, hhint, ?_⟩
  have hafter : utterancesOf (project env units file plan).1 =
      List.zipWith hinted (utterancesOf file) (hintsOf env units file plan) := utterancesOf_applyHints file hlen
  rw [hafter, getElem?_zipWith_eq_some] at hu'
  obtain ⟨v, hint', hv, hhint', hu'⟩ := hu'
  cases hu.symm.trans hv
  cases hhint.symm.trans hhint'
  exact hu'.symm

theorem entriesOf_faithful (h : entry ∈ entriesOf env units file) : entry.Faithful := by
  obtain ⟨i, hi⟩ := getElem?_of_mem h
  obtain ⟨_, hinfo, _⟩ := getElem?_entriesOf hi
  exact ⟨by rw [hinfo]; rfl, by rw [hinfo]; rfl⟩

theorem entry_facts {i : ℕ} (h : (entriesOf env units file)[i]? = some entry) :
    entry.info.presence = RecordingPresence.of entry.utterance ∧
      entry.info.overlaps = marked env.toCensusEnv entry.utterance ∧ entry.info.speaker = entry.utterance.speaker := by
  obtain ⟨_, hinfo, _⟩ := getElem?_entriesOf h
  rw [hinfo]
  exact ⟨rfl, rfl, rfl⟩

variable (env units file plan) in
theorem project_hinted : Hinted env.toCensusEnv plan.strategy file (project env units file plan).1 where
  lines := applyHints_eq file _
  length_eq := by
    show (utterancesOf (applyHints file (hintsOf env units file plan))).length = _
    rw [utterancesOf_applyHints file length_hintsOf, length_zipWith, length_hintsOf, Nat.min_self]
  parsed_kept := by
    intro i u u' h hparsed
    obtain ⟨entry, hint, hentry, rfl, hhint, rfl⟩ := became_project h
    cases hint with
    | none => rfl
    | some interval =>
      obtain ⟨hin, huntimed, _⟩ := projectFrom_hint _ hentry hhint
      have hfaithful := entriesOf_faithful (mem_of_getElem? hentry)
      rw [hfaithful.retained, retainedTiming_of_inRecording (hfaithful.presence ▸ hin)] at huntimed
      exact absurd huntimed hparsed
  off_record_kept := by
    intro i u u' h hout
    obtain ⟨entry, hint, hentry, rfl, hhint, rfl⟩ := became_project h
    cases hint with
    | none => rfl
    | some interval =>
      obtain ⟨hin, _⟩ := projectFrom_hint _ hentry hhint
      exact absurd ((entry_facts hentry).1.symm.trans hin) hout
  written := by
    intro i u u' h hne
    obtain ⟨entry, hint, hentry, rfl, hhint, rfl⟩ := became_project h
    obtain ⟨interval, rfl⟩ := hinted_ne hne
    exact ⟨interval.intoHint, rfl, interval.positive⟩
  floors := by
    intro i j u u' v v' bullet hint hij hu hv hwritten hmarkedV hin hmarkedU hordered hbullet hhint
    obtain ⟨entryU, hintU, hentryU, rfl, hhintU, rfl⟩ := became_project hu
    obtain ⟨entryV, hintV, hentryV, rfl, hhintV, rfl⟩ := became_project hv
    obtain ⟨interval, rfl⟩ := hinted_ne hwritten
    cases hhint
    obtain ⟨hpresence, hoverlapsU, hspeakerU⟩ := entry_facts hentryU
    obtain ⟨_, hoverlapsV, hspeakerV⟩ := entry_facts hentryV
    exact (projectFrom_floors _ (fun e he => entriesOf_faithful he) hentryV hhintV (hoverlapsV.trans hmarkedV)).2 i
      entryU hintU bullet hij hentryU hhintU (hpresence.trans hin) (hoverlapsU.trans hmarkedU)
      (by rw [hspeakerU, hspeakerV]; exact hordered) hbullet
  ceilings := by
    intro i j u u' v v' bullet hint hij hu hv hwritten hmarkedU hmarkedV hordered hbullet hhint
    obtain ⟨entryU, hintU, hentryU, rfl, hhintU, rfl⟩ := became_project hu
    obtain ⟨entryV, hintV, hentryV, rfl, hhintV, rfl⟩ := became_project hv
    obtain ⟨interval, rfl⟩ := hinted_ne hwritten
    cases hhint
    obtain ⟨hlineU, hinfoU, hfollowing⟩ := getElem?_entriesOf hentryU
    obtain ⟨hlineV, hinfoV, _⟩ := getElem?_entriesOf hentryV
    obtain ⟨_, hoverlapsU, hspeakerU⟩ := entry_facts hentryU
    obtain ⟨_, hoverlapsV, hspeakerV⟩ := entry_facts hentryV
    obtain ⟨_, _, floors, proposal, hproj⟩ := projectFrom_hint _ hentryU hhintU
    have hbeside : bulletBeside entryV.utterance entryV.info = some bullet := by
      unfold bulletBeside
      rw [hoverlapsV, hmarkedV, if_neg Bool.false_ne_true]
      exact hbullet
    obtain ⟨c, hc, hle⟩ := followingStarts_ceiling plan.strategy _ hij hfollowing
      (by rw [getElem?_map, hlineU, Option.map_some, ← hinfoU])
      (by rw [getElem?_map, hlineV, Option.map_some, ← hinfoV]) hbeside
      (by rw [hspeakerU, hspeakerV]; exact hordered)
    calc interval.endMs ≤ c := (floor_le_projected (hoverlapsU.trans hmarkedU) hproj).2 c hc
      _ ≤ bullet.startMs := hle

end Project

/-! ## The counts -/

/-- A pass over a file, counted: every utterance of the recording is injected, skipped or unmatched. -/
structure GloballyRecovered (env : CensusEnv) (order : UtrOrderModel) (file file' : ChatFile) (result : UtrResult) :
    Prop extends Hinted env order file file' where
  counted : result.injected + result.skipped + result.unmatched = recorded file

def PresentKept (file file' : ChatFile) : Prop :=
  ∀ i u u', Became file file' i u u' → u.bullet ≠ none → u' = u

theorem Hinted.refl (env : CensusEnv) (order : UtrOrderModel) (file : ChatFile) : Hinted env order file file := by
  have hsame : ∀ i u u', Became file file i u u' → u' = u := fun i u u' h => Option.some.inj (h.2.symm.trans h.1)
  exact
    { lines := (setUtterances_self file).symm
      length_eq := rfl
      parsed_kept := fun i u u' h _ => hsame i u u' h
      off_record_kept := fun i u u' h _ => hsame i u u' h
      written := fun i u u' h hne => absurd (hsame i u u' h) hne
      floors := fun i j u u' v v' _ _ _ _ hv hne => absurd (hsame j v v' hv) hne
      ceilings := fun i j u u' v v' _ _ _ hu _ hne => absurd (hsame i u u' hu) hne }

theorem recorded_eq_iff (file : ChatFile) :
    recorded file = (utterancesOf file).length ↔ ∀ u ∈ utterancesOf file, RecordingPresence.of u = .inRecording := by
  unfold recorded
  rw [countP_eq_length]
  exact forall₂_congr fun u _ => by rw [beq_iff_eq]

section Counts
variable {env : SearchEnv} {file : ChatFile} {tokens : PreparedUtrTokens} {participation : GlobalUtrParticipation}
  {mode : MatchMode}

theorem emptyResult_counts (census : List UtrUtteranceInfo) :
    (emptyResult env census tokens participation).injected + (emptyResult env census tokens participation).skipped +
      (emptyResult env census tokens participation).unmatched = census.length := by
  have hle : (census.countP fun info => info.retainedTiming.isSome) ≤ census.length := countP_le_length
  show 0 + (census.countP fun info => info.retainedTiming.isSome) +
    (census.length - census.countP fun info => info.retainedTiming.isSome) = census.length
  omega

variable (env) in
theorem map_utterance_entriesOf (units : UtrLexicalUnits) :
    (entriesOf env units file).map ProjectEntry.utterance = utterancesOf file := by
  refine ext_getElem? fun i => ?_
  rw [getElem?_map]
  cases hentry : (entriesOf env units file)[i]? with
  | some entry => exact (getElem?_entriesOf hentry).1.symm
  | none =>
    rw [getElem?_eq_none_iff, length_entriesOf] at hentry
    exact (getElem?_eq_none_iff.mpr hentry).symm

theorem countP_entriesOf (units : UtrLexicalUnits) :
    (entriesOf env units file).countP ProjectEntry.inRecording = recorded file := by
  unfold recorded
  rw [← map_utterance_entriesOf env units, countP_map]
  refine countP_congr fun entry hentry => ?_
  unfold ProjectEntry.inRecording
  rw [(entriesOf_faithful hentry).presence]
  rfl

theorem length_evidenceEntries {units : UtrLexicalUnits} {plan : UtrAlignmentPlan}
    (hplan : plan.utterances.length = (utterancesOf file).length) :
    (evidenceEntries plan).length = (entriesOf env units file).length := by
  unfold evidenceEntries
  rw [length_map, length_zipIdx, length_entriesOf, hplan]

theorem project_counts {units : UtrLexicalUnits} {plan : UtrAlignmentPlan}
    (hplan : plan.utterances.length = (utterancesOf file).length) :
    (project env units file plan).2.injected + (project env units file plan).2.skipped +
      (project env units file plan).2.unmatched = recorded file := by
  calc (project env units file plan).2.injected + (project env units file plan).2.skipped +
        (project env units file plan).2.unmatched
      = 0 + 0 + (entriesOf env units file).countP ProjectEntry.inRecording :=
        projectFrom_counts (entriesOf env units file) .start (length_evidenceEntries hplan)
    _ = recorded file := by rw [countP_entriesOf, add_zero, zero_add]

def orderOf (env : CensusEnv) (file : ChatFile) (tokens : PreparedUtrTokens) (participation : GlobalUtrParticipation) :
    UtrOrderModel := UtrOrderModel.of (collectUtrUtteranceInfo env tokens.units file) participation

theorem runGlobalUtr_hinted : Hinted env.toCensusEnv (orderOf env.toCensusEnv file tokens participation) file
    (runGlobalUtr env file tokens participation mode).1 := by
  rw [runGlobalUtr_eq]
  by_cases hempty : tokens.tokens = []
  · rw [if_pos hempty]
    exact Hinted.refl ..
  · rw [if_neg hempty, value_planGlobalUtrAlignmentFor]
    exact project_hinted env tokens.units file (UtrAlignmentPlan.assemble _ _)

variable (env file tokens participation mode) in
theorem length_planGlobal :
    (planGlobalUtrAlignmentFor env (collectUtrUtteranceInfo env.toCensusEnv tokens.units file) tokens mode
      participation).value.utterances.length = (utterancesOf file).length := by
  have hnumbered := congrArg List.length (planGlobal_numbered env
    (collectUtrUtteranceInfo env.toCensusEnv tokens.units file) tokens mode participation)
  rw [length_map, length_range] at hnumbered
  rw [hnumbered, collectUtrUtteranceInfo, length_map]

theorem runGlobalUtr_counts : (runGlobalUtr env file tokens participation mode).2.injected +
        (runGlobalUtr env file tokens participation mode).2.skipped +
        (runGlobalUtr env file tokens participation mode).2.unmatched = recorded file ↔
      tokens.tokens ≠ [] ∨ ∀ u ∈ utterancesOf file, RecordingPresence.of u = .inRecording := by
  rw [runGlobalUtr_eq]
  by_cases hempty : tokens.tokens = []
  · rw [if_pos hempty, emptyResult_counts, collectUtrUtteranceInfo, length_map, eq_comm, recorded_eq_iff]
    exact ⟨.inr, fun h => h.resolve_left (absurd hempty)⟩
  · rw [if_neg hempty]
    exact iff_of_true (project_counts (length_planGlobal ..)) (.inl hempty)

def AllParsed (file : ChatFile) : Prop :=
  ∀ u ∈ utterancesOf file, RecordingPresence.of u = .inRecording → ¬ u.Unparsed

theorem Hinted.presentKept {file' : ChatFile} (h : Hinted env.toCensusEnv order file file')
    (hparsed : AllParsed file) : PresentKept file file' := by
  intro i u u' hbecame hpresent
  by_cases hin : RecordingPresence.of u = .inRecording
  · refine h.parsed_kept i u u' hbecame fun hnone => ?_
    cases hbullet : u.bullet with
    | none => exact hpresent hbullet
    | some state =>
      cases state with
      | parsed bullet => exact absurd hnone (by simp [Utterance.parsedBullet, hbullet, BulletState.asParsed])
      | unparsed source => exact hparsed u (mem_of_getElem? hbecame.1) hin ⟨source, hbullet⟩
  · exact h.off_record_kept i u u' hbecame hin

end Counts

/-- The pass recovers a file exactly when there are tokens or the whole file is in the recording, where no
  bullet failed to parse. -/
theorem runGlobalUtr_recovers_iff (env : SearchEnv) (file : ChatFile) (tokens : PreparedUtrTokens)
    (participation : GlobalUtrParticipation) (mode : MatchMode) :
    (GloballyRecovered env.toCensusEnv (orderOf env.toCensusEnv file tokens participation) file
        (runGlobalUtr env file tokens participation mode).1 (runGlobalUtr env file tokens participation mode).2 ↔
      tokens.tokens ≠ [] ∨ ∀ u ∈ utterancesOf file, RecordingPresence.of u = .inRecording) ∧
    (AllParsed file →
      ((GloballyRecovered env.toCensusEnv (orderOf env.toCensusEnv file tokens participation) file
          (runGlobalUtr env file tokens participation mode).1 (runGlobalUtr env file tokens participation mode).2 ∧
          PresentKept file (runGlobalUtr env file tokens participation mode).1) ↔
        tokens.tokens ≠ [] ∨ ∀ u ∈ utterancesOf file, RecordingPresence.of u = .inRecording)) := by
  have hiff : GloballyRecovered env.toCensusEnv (orderOf env.toCensusEnv file tokens participation) file
      (runGlobalUtr env file tokens participation mode).1 (runGlobalUtr env file tokens participation mode).2 ↔
      tokens.tokens ≠ [] ∨ ∀ u ∈ utterancesOf file, RecordingPresence.of u = .inRecording :=
    ⟨fun h => runGlobalUtr_counts.mp h.counted, fun h => ⟨runGlobalUtr_hinted, runGlobalUtr_counts.mpr h⟩⟩
  refine ⟨hiff, fun hparsed => ?_⟩
  rw [hiff, and_iff_left (runGlobalUtr_hinted.presentKept hparsed)]

/-! ## An utterance outside the recording -/

def notedFile : ChatFile :=
  [.utterance ⟨"CHI", [], none, [.word ⟨"hi", none⟩], [], []⟩,
   .utterance ⟨"CHI", [], none, [.word ⟨"aside", none⟩], [], ["diary"]⟩]

def noTokens : PreparedUtrTokens := ⟨[], .spaceDelimitedWords⟩

def hiTokens : PreparedUtrTokens := ⟨[⟨"hi", 100, 200⟩], .spaceDelimitedWords⟩

/-- Without tokens the note is counted as an unmatched utterance of the recording. -/
theorem diary_note_counted :
    (runGlobalUtr plainSearch notedFile noTokens .allUtterances .caseInsensitive).2.unmatched = 2 ∧
      recorded notedFile = 1 ∧
      ¬ GloballyRecovered plainSearch.toCensusEnv (orderOf plainSearch.toCensusEnv notedFile noTokens .allUtterances)
        notedFile (runGlobalUtr plainSearch notedFile noTokens .allUtterances .caseInsensitive).1
        (runGlobalUtr plainSearch notedFile noTokens .allUtterances .caseInsensitive).2 := by
  refine ⟨by decide, by decide, fun h => ?_⟩
  have hcounted := h.counted
  exact absurd hcounted (by decide)

/-- With a token the spoken line is hinted, and the note is left out of the counts. -/
theorem spoken_line_recovers : AllParsed notedFile ∧
      bulletAt (runGlobalUtr plainSearch notedFile hiTokens .allUtterances .caseInsensitive).1 0 = some ⟨100, 200⟩ ∧
      GloballyRecovered plainSearch.toCensusEnv (orderOf plainSearch.toCensusEnv notedFile hiTokens .allUtterances)
        notedFile (runGlobalUtr plainSearch notedFile hiTokens .allUtterances .caseInsensitive).1
        (runGlobalUtr plainSearch notedFile hiTokens .allUtterances .caseInsensitive).2 ∧
      PresentKept notedFile (runGlobalUtr plainSearch notedFile hiTokens .allUtterances .caseInsensitive).1 := by
  have hparsed : AllParsed notedFile := by
    intro u hu _ hunparsed
    obtain ⟨source, hsource⟩ := hunparsed
    rcases mem_cons.mp hu with rfl | hu
    · exact absurd hsource (by simp)
    · obtain rfl := mem_singleton.mp hu
      exact absurd hsource (by simp)
  refine ⟨hparsed, by decide +kernel, ?_⟩
  exact ((runGlobalUtr_recovers_iff plainSearch _ hiTokens .allUtterances .caseInsensitive).2 hparsed).mpr
    (.inl (by decide))

end Batchalign.Utr
