import Batchalign.Fa.Invariants

/- Widening of bullets too narrow for their words (`rescue_narrow_bullets.rs`,
   `speech_rate.rs`).

   Rates are binary64 numbers, rounded as the source rounds them; times are far below 2^64.
   Which words count is the document model's. -/
namespace Batchalign.Fa
open List

section Binary64

structure F64 where
  num : ℕ
  den : ℕ

/-- The number nearest to a fraction, with 53 bits and ties to even. -/
def F64.round (num den : ℕ) : F64 :=
  if num = 0 then ⟨0, 1⟩
  else
    let scale := 53 + den.log2
    let scaled := num * 2 ^ scale
    let unit := den * 2 ^ num.log2
    let coarse := if 2 ^ 53 ≤ scaled / unit then 2 else 1
    let quotient := scaled / (unit * coarse)
    let rest := scaled % (unit * coarse)
    let mantissa :=
      if unit * coarse < 2 * rest ∨ (unit * coarse = 2 * rest ∧ quotient % 2 = 1)
      then quotient + 1 else quotient
    let top := mantissa * coarse * 2 ^ num.log2
    -- in lowest terms
    ⟨top / top.gcd (2 ^ scale), 2 ^ scale / top.gcd (2 ^ scale)⟩

def F64.ofNat (n : ℕ) : F64 := F64.round n 1

def F64.div (a b : F64) : F64 := F64.round (a.num * b.den) (a.den * b.num)

def F64.lt (a b : F64) : Bool := decide (a.num * b.den < b.num * a.den)

end Binary64

section Rate

def humanCeilingWps : F64 := F64.ofNat 15

inductive SpeechRate where
  | plausibleRate (rate : F64)
  | impossible (rate : F64) (words span : ℕ)
  | noAudio (words : ℕ)
  | noWords

def SpeechRate.of (words span : ℕ) : SpeechRate :=
  if words = 0 then .noWords
  else if span = 0 then .noAudio words
  else
    let rate := (F64.ofNat words).div ((F64.ofNat span).div (F64.ofNat 1000))
    if humanCeilingWps.lt rate then .impossible rate words span else .plausibleRate rate

end Rate

section Rescue

def tightBulletThresholdMsPerWord : F64 := F64.ofNat 250
def tightBulletTargetMsPerWord : ℕ := 350
def safetyBufferMs : ℕ := 200

inductive RescueTrigger where
  | catastrophic
  | tight
  deriving DecidableEq

def RescueTrigger.asDecisionTag : RescueTrigger → String
  | .catastrophic => "catastrophic_density"
  | .tight => "tight_per_word_budget"

def classifyBullet (wordCount startMs endMs : ℕ) : Option RescueTrigger :=
  let durationMs := endMs - startMs
  match SpeechRate.of wordCount durationMs with
  | .noWords => none
  | .impossible _ _ _ => some .catastrophic
  | .noAudio _ => some .catastrophic
  | .plausibleRate _ =>
    if ((F64.ofNat durationMs).div (F64.ofNat wordCount)).lt tightBulletThresholdMsPerWord
    then some .tight else none

/-- Fifteen words a second both times; 1.4 seconds are rounded, and the rate exceeds them. -/
example : classifyBullet 3 0 200 = some .tight ∧ classifyBullet 21 0 1400 = some .catastrophic := by
  decide

def rescuedEndMs (trigger : RescueTrigger) (startMs endMs wordCount nextStartMs : ℕ) : Option ℕ :=
  if nextStartMs ≤ endMs + safetyBufferMs then none
  else
    let upperBound := nextStartMs - safetyBufferMs
    let proposedEnd := match trigger with
      | .catastrophic => upperBound
      | .tight => min (max (startMs + wordCount * tightBulletTargetMsPerWord) endMs) upperBound
    if endMs < proposedEnd then some proposedEnd else none

inductive GivenMutability where
  | revisable
  | readOnly
  deriving DecidableEq

def MainBulletAuthority.givenMutability (authority : MainBulletAuthority) (utteranceIdx : ℕ) :
    Except KeptBulletError GivenMutability :=
  match authority.slot utteranceIdx with
  | .error e => .error e
  | .ok none => .ok .revisable
  | .ok (some .unbulleted) => .ok .revisable
  | .ok (some (.kept _)) => .ok .readOnly
  | .ok (some .keptAbsent) => .ok .readOnly
  | .ok (some (.offRecord _)) => .ok .readOnly

structure RescueObservation where
  lineIdx : ℕ
  bulletStartMs : ℕ
  bulletEndMs : ℕ
  wordCount : ℕ
  nextStartMs : Option ℕ
  mutability : GivenMutability
  deriving DecidableEq

inductive RescueStrategy where
  | narrowBulletRescued
  | keptBulletWindowWidened

structure RescueDecision where
  lineIdx : ℕ
  speaker : String
  strategy : RescueStrategy
  reason : String
  needsReview : Bool

variable (W : ContentWalker) (countsForWor : Word → Bool)

def countAlignableMainWords (u : Utterance) : ℕ := ((W.walkWords u.content).filter countsForWor).length

def observe (authority : MainBulletAuthority) :
    List (ℕ × ℕ × Utterance) → Except KeptBulletError (List RescueObservation)
  | [] => .ok []
  | (lineIdx, utteranceIdx, u) :: rest =>
    match u.parsedBullet with
    | none => observe authority rest
    | some bullet =>
      let wordCount := countAlignableMainWords W countsForWor u
      if wordCount = 0 then observe authority rest
      else
        match authority.givenMutability utteranceIdx with
        | .error e => .error e
        | .ok mutability =>
          match observe authority rest with
          | .error e => .error e
          | .ok observations =>
            .ok (⟨lineIdx, bullet.startMs, bullet.endMs, wordCount, none, mutability⟩ :: observations)

def fillNextStarts : List RescueObservation → List RescueObservation
  | [] => []
  | [last] => [last]
  | obs :: next :: rest =>
    { obs with nextStartMs := some next.bulletStartMs } :: fillNextStarts (next :: rest)

def collectRescueCandidates (authority : MainBulletAuthority) (file : ChatFile) :
    Except KeptBulletError (List RescueObservation) :=
  match observe W countsForWor authority (utterancesIndexed file) with
  | .error e => .error e
  | .ok observations => .ok (fillNextStarts observations)

def RescueObservation.rescue (obs : RescueObservation) : Option (RescueTrigger × ℕ × ℕ) :=
  match classifyBullet obs.wordCount obs.bulletStartMs obs.bulletEndMs with
  | none => none
  | some trigger =>
    match obs.nextStartMs with
    | none => none
    | some nextStart =>
      match rescuedEndMs trigger obs.bulletStartMs obs.bulletEndMs obs.wordCount nextStart with
      | none => none
      | some newEnd => some (trigger, nextStart, newEnd)

def rescueReason (obs : RescueObservation) (trigger : RescueTrigger)
    (originalEnd nextStart newEnd : ℕ) : String :=
  "word_count=" ++ toString obs.wordCount ++ " original_end=" ++ toString originalEnd ++
    " expanded_end=" ++ toString newEnd ++ " next_start=" ++ toString nextStart ++
    " trigger=" ++ trigger.asDecisionTag ++ " cause=transcribe_bullet_too_narrow_for_word_count" ++
    (match obs.mutability with
      | .revisable => ""
      | .readOnly => " scope=grouping_only")

def RescueObservation.strategy (obs : RescueObservation) : RescueStrategy :=
  match obs.mutability with
  | .revisable => .narrowBulletRescued
  | .readOnly => .keptBulletWindowWidened

def rescueOne (state : ChatFile × List RescueDecision) (obs : RescueObservation) :
    ChatFile × List RescueDecision :=
  match obs.rescue with
  | none => state
  | some (trigger, nextStart, newEnd) =>
    match getUtterance state.1 obs.lineIdx with
    | none => state
    | some u =>
      match u.parsedBullet with
      | none => state
      | some bullet =>
        (modifyUtterance state.1 obs.lineIdx fun u => u.setEnd newEnd,
          state.2 ++ [⟨obs.lineIdx, u.speaker, obs.strategy,
            rescueReason obs trigger bullet.endMs nextStart newEnd, false⟩])

def rescueNarrowBullets (authority : MainBulletAuthority) (file : ChatFile) :
    Except KeptBulletError (ChatFile × List RescueDecision) :=
  match collectRescueCandidates W countsForWor authority file with
  | .error e => .error e
  | .ok observations => .ok (observations.foldl rescueOne (file, []))

end Rescue

/-! ## What stays apart -/

structure StaysApart (before after : ChatFile) : Prop where
  grows : ∀ i b, bulletAt before i = some b →
    ∃ b', bulletAt after i = some b' ∧ b'.startMs ≤ b.startMs ∧ b.endMs ≤ b'.endMs
  apart : ∀ i j b c b' c', bulletAt before i = some b → bulletAt before j = some c →
    bulletAt after i = some b' → bulletAt after j = some c' →
    b.endMs ≤ c.startMs → b'.endMs ≤ c'.startMs

theorem StaysApart.widened_end {before after : ChatFile} (h : StaysApart before after) {i j : ℕ}
    {b c b' : TimeSpan} (hb : bulletAt before i = some b) (hc : bulletAt before j = some c)
    (hb' : bulletAt after i = some b') (hle : b.endMs ≤ c.startMs) : b'.endMs ≤ c.startMs := by
  obtain ⟨c', hc', hstart, _⟩ := h.grows j c hc
  exact le_trans (h.apart i j b c b' c' hb hc hb' hc' hle) hstart

section Clear
variable (W : ContentWalker) (countsForWor : Word → Bool)

def wordedBullet (u : Utterance) : Option (TimeSpan × ℕ) :=
  u.parsedBullet.bind fun bullet =>
    if countAlignableMainWords W countsForWor u = 0 then none
    else some (bullet, countAlignableMainWords W countsForWor u)

def wordedBullets (file : ChatFile) : List (TimeSpan × ℕ) :=
  (utterancesIndexed file).filterMap fun entry => wordedBullet W countsForWor entry.2.2

def rescueLimit (trigger : RescueTrigger) (startMs wordCount nextStartMs : ℕ) : ℕ :=
  match trigger with
  | .catastrophic => nextStartMs - safetyBufferMs
  | .tight => min (startMs + wordCount * tightBulletTargetMsPerWord) (nextStartMs - safetyBufferMs)

def RescueClear (file : ChatFile) : Prop :=
  ∀ before bullet wordCount next after trigger,
    wordedBullets W countsForWor file = before ++ (bullet, wordCount) :: next :: after →
    classifyBullet wordCount bullet.startMs bullet.endMs = some trigger →
    bullet.endMs + safetyBufferMs < next.1.startMs →
    ∀ j c, bulletAt file j = some c → bullet.endMs ≤ c.startMs →
      rescueLimit trigger bullet.startMs wordCount next.1.startMs ≤ c.startMs

end Clear

section Observed
variable {W : ContentWalker} {countsForWor : Word → Bool} {authority : MainBulletAuthority}
  {file : ChatFile} {observations : List RescueObservation} {obs : RescueObservation}

def RescueObservation.worded (obs : RescueObservation) : TimeSpan × ℕ :=
  (⟨obs.bulletStartMs, obs.bulletEndMs⟩, obs.wordCount)

structure Observed (W : ContentWalker) (countsForWor : Word → Bool)
    (entries : List (ℕ × ℕ × Utterance)) (observations : List RescueObservation) : Prop where
  worded : observations.map RescueObservation.worded =
    entries.filterMap fun entry => wordedBullet W countsForWor entry.2.2
  lines : (observations.map RescueObservation.lineIdx).Sublist (entries.map Prod.fst)
  bullets : ∀ obs ∈ observations, ∃ k u, (obs.lineIdx, k, u) ∈ entries ∧
    u.parsedBullet = some ⟨obs.bulletStartMs, obs.bulletEndMs⟩
  last : ∀ obs ∈ observations, obs.nextStartMs = none

theorem observed_of_observe {entries : List (ℕ × ℕ × Utterance)}
    (h : observe W countsForWor authority entries = .ok observations) :
    Observed W countsForWor entries observations := by
  induction entries generalizing observations with
  | nil =>
    cases h
    exact ⟨rfl, by simp, by simp, by simp⟩
  | cons entry entries ih =>
    obtain ⟨lineIdx, k, u⟩ := entry
    have hskip : ∀ {later}, Observed W countsForWor entries later →
        wordedBullet W countsForWor u = none →
        Observed W countsForWor ((lineIdx, k, u) :: entries) later := by
      intro later hlater hnone
      refine ⟨?_, ?_, ?_, hlater.last⟩
      · rw [filterMap_cons, hnone]
        exact hlater.worded
      · exact hlater.lines.trans (sublist_cons_self _ _)
      · intro obs hobs
        obtain ⟨k', u', hmem, hb⟩ := hlater.bullets obs hobs
        exact ⟨k', u', mem_cons_of_mem _ hmem, hb⟩
    rw [observe] at h
    cases hb : u.parsedBullet with
    | none =>
      rw [hb] at h
      exact hskip (ih h) (by rw [wordedBullet, hb]; rfl)
    | some bullet =>
      rw [hb] at h
      simp only at h
      split at h
      · rename_i hzero
        exact hskip (ih h) (by rw [wordedBullet, hb, Option.bind_some, if_pos hzero])
      · rename_i hwords
        split at h
        · cases h
        · split at h
          · cases h
          · rename_i later hlater
            cases h
            have hobserved := ih hlater
            refine ⟨?_, ?_, ?_, ?_⟩
            · have hworded : wordedBullet W countsForWor u =
                  some (bullet, countAlignableMainWords W countsForWor u) := by
                rw [wordedBullet, hb, Option.bind_some, if_neg hwords]
              rw [filterMap_cons, hworded, map_cons, hobserved.worded]
              rfl
            · exact hobserved.lines.cons_cons lineIdx
            · intro obs hobs
              rcases mem_cons.mp hobs with heq | hobs
              · rw [heq]
                exact ⟨k, u, mem_cons_self, hb⟩
              · obtain ⟨k', u', hmem, hb'⟩ := hobserved.bullets obs hobs
                exact ⟨k', u', mem_cons_of_mem _ hmem, hb'⟩
            · intro obs hobs
              rcases mem_cons.mp hobs with heq | hobs
              · rw [heq]
              · exact hobserved.last obs hobs

theorem mem_fillNextStarts : obs ∈ fillNextStarts observations ↔
    (∃ before first next after, observations = before ++ first :: next :: after ∧
      obs = { first with nextStartMs := some next.bulletStartMs }) ∨
    ∃ before, observations = before ++ [obs] := by
  induction observations with
  | nil => simp [fillNextStarts]
  | cons head later ih =>
    cases later with
    | nil =>
      rw [fillNextStarts, mem_singleton]
      constructor
      · intro heq
        exact Or.inr ⟨[], by rw [heq]; rfl⟩
      · rintro (⟨before, first, next, after, heq, _⟩ | ⟨before, heq⟩)
        · have hlength := congrArg List.length heq
          simp only [length_append, length_cons, length_nil] at hlength
          omega
        · cases before with
          | nil => simpa using heq.symm
          | cons b before =>
            have hlength := congrArg List.length heq
            simp at hlength
    | cons second later =>
      rw [fillNextStarts, mem_cons, ih]
      constructor
      · rintro (heq | ⟨before, first, next, after, hsplit, heq⟩ | ⟨before, hsplit⟩)
        · exact Or.inl ⟨[], head, second, later, rfl, heq⟩
        · exact Or.inl ⟨head :: before, first, next, after, by rw [hsplit, cons_append], heq⟩
        · exact Or.inr ⟨head :: before, by rw [hsplit, cons_append]⟩
      · rintro (⟨before, first, next, after, hsplit, heq⟩ | ⟨before, hsplit⟩)
        · cases before with
          | nil =>
            obtain ⟨rfl, rfl, rfl⟩ := hsplit
            exact Or.inl heq
          | cons b before =>
            rw [cons_append, cons.injEq] at hsplit
            exact Or.inr (Or.inl ⟨before, first, next, after, hsplit.2, heq⟩)
        · cases before with
          | nil => simp at hsplit
          | cons b before =>
            rw [cons_append, cons.injEq] at hsplit
            exact Or.inr (Or.inr ⟨before, hsplit.2⟩)

theorem fillNextStarts_lines (observations : List RescueObservation) :
    (fillNextStarts observations).map RescueObservation.lineIdx =
      observations.map RescueObservation.lineIdx := by
  induction observations with
  | nil => rfl
  | cons head later ih =>
    cases later with
    | nil => rfl
    | cons second later =>
      rw [fillNextStarts, map_cons, ih]
      rfl

end Observed

section Rescued
variable {state : ChatFile × List RescueDecision} {obs : RescueObservation}
  {observations : List RescueObservation} {i : ℕ}

variable {e n : ℕ} {trigger : RescueTrigger}

theorem rescuedEndMs_eq_some {startMs endMs wordCount nextStartMs : ℕ} :
    rescuedEndMs trigger startMs endMs wordCount nextStartMs = some e ↔
      endMs + safetyBufferMs < nextStartMs ∧ endMs < rescueLimit trigger startMs wordCount nextStartMs ∧
        e = rescueLimit trigger startMs wordCount nextStartMs := by
  have hroom : ∀ {n : ℕ}, endMs + safetyBufferMs < n → endMs < n - safetyBufferMs := by
    omega
  unfold rescuedEndMs
  split
  · constructor
    · intro h
      cases h
    · omega
  · have hfar : endMs + safetyBufferMs < nextStartMs := by omega
    have hbeyond := hroom hfar
    cases trigger with
    | catastrophic =>
      simp only [rescueLimit, hbeyond, if_true, Option.some.injEq, true_and, hfar]
      exact eq_comm
    | tight =>
      simp only [rescueLimit]
      split
      · rename_i hwider
        have hbudget : endMs < startMs + wordCount * tightBulletTargetMsPerWord := by
          by_contra hle
          rw [max_eq_right (by omega), lt_min_iff] at hwider
          exact absurd hwider.1 (lt_irrefl _)
        rw [max_eq_left hbudget.le, Option.some.injEq]
        constructor
        · intro he
          exact ⟨hfar, lt_min hbudget hbeyond, he.symm⟩
        · rintro ⟨_, _, he⟩
          exact he.symm
      · rename_i hno
        constructor
        · intro h
          cases h
        · rintro ⟨_, hlimit, _⟩
          rw [lt_min_iff] at hlimit
          exact absurd (lt_min (lt_max_of_lt_left hlimit.1) hlimit.2) hno

theorem rescue_eq_some : obs.rescue = some (trigger, n, e) ↔
      classifyBullet obs.wordCount obs.bulletStartMs obs.bulletEndMs = some trigger ∧
        obs.nextStartMs = some n ∧
        rescuedEndMs trigger obs.bulletStartMs obs.bulletEndMs obs.wordCount n = some e := by
  unfold RescueObservation.rescue
  constructor
  · intro h
    split at h
    · cases h
    · rename_i hclass
      split at h
      · cases h
      · rename_i hnext
        split at h
        · cases h
        · rename_i hend
          cases h
          exact ⟨hclass, hnext, hend⟩
  · rintro ⟨hclass, hnext, hend⟩
    simp [hclass, hnext, hend]

theorem rescueOne_none (h : obs.rescue = none) : rescueOne state obs = state := by
  rw [rescueOne, h]

theorem rescueOne_other (h : obs.lineIdx ≠ i) : bulletAt (rescueOne state obs).1 i = bulletAt state.1 i := by
  unfold rescueOne
  split
  · rfl
  · split
    · rfl
    · split
      · rfl
      · exact bulletAt_modify_ne h

theorem rescueOne_self {b : TimeSpan}
    (hrescue : obs.rescue = some (trigger, n, e)) (hb : bulletAt state.1 obs.lineIdx = some b) :
    bulletAt (rescueOne state obs).1 obs.lineIdx = some { b with endMs := e } := by
  obtain ⟨u, hu, hbullet⟩ := bulletAt_eq_some hb
  rw [rescueOne, hrescue]
  simp only [hu, hbullet]
  rw [bulletAt_modify_self hu, parsedBullet_setEnd, hbullet]
  rfl

theorem bulletAt_foldl_none (h : ∀ obs ∈ observations, obs.lineIdx = i → obs.rescue = none) :
    bulletAt (observations.foldl rescueOne state).1 i = bulletAt state.1 i := by
  induction observations generalizing state with
  | nil => rfl
  | cons head later ih =>
    rw [foldl_cons, ih (fun obs hobs => h obs (mem_cons_of_mem head hobs))]
    by_cases hline : head.lineIdx = i
    · rw [rescueOne_none (h head mem_cons_self hline)]
    · exact rescueOne_other hline

theorem bulletAt_foldl_some (hlines : (observations.map RescueObservation.lineIdx).Nodup)
    (hobs : obs ∈ observations) {b : TimeSpan}
    (hrescue : obs.rescue = some (trigger, n, e)) (hb : bulletAt state.1 obs.lineIdx = some b) :
    bulletAt (observations.foldl rescueOne state).1 obs.lineIdx = some { b with endMs := e } := by
  induction observations generalizing state with
  | nil => cases hobs
  | cons head later ih =>
    rw [map_cons, nodup_cons] at hlines
    rw [foldl_cons]
    rcases mem_cons.mp hobs with heq | hlater
    · subst heq
      -- no later observation is of this line
      rw [bulletAt_foldl_none fun o ho hline =>
        absurd (mem_map.mpr ⟨o, ho, hline⟩) hlines.1]
      exact rescueOne_self hrescue hb
    · refine ih hlines.2 hlater ?_
      have hne : head.lineIdx ≠ obs.lineIdx := fun heq =>
        hlines.1 (mem_map.mpr ⟨obs, hlater, heq.symm⟩)
      rw [rescueOne_other hne, hb]

end Rescued

section Result
variable {W : ContentWalker} {countsForWor : Word → Bool} {authority : MainBulletAuthority}
  {file file' : ChatFile} {decisions : List RescueDecision}

theorem Observed.neighbours {observations : List RescueObservation}
    (h : Observed W countsForWor (utterancesIndexed file) observations) {bullet : TimeSpan}
    {wordCount nextStart : ℕ} : (∃ before next after, wordedBullets W countsForWor file =
        before ++ (bullet, wordCount) :: next :: after ∧ next.1.startMs = nextStart) ↔
      ∃ before first next after, observations = before ++ first :: next :: after ∧
        first.worded = (bullet, wordCount) ∧ next.bulletStartMs = nextStart := by
  rw [wordedBullets, ← h.worded]
  constructor
  · rintro ⟨before, next, after, hsplit, hnext⟩
    obtain ⟨front, back, hobs, hfront, hback⟩ := map_eq_append_iff.mp hsplit
    obtain ⟨first, back', hback', hfirst, hrest⟩ := map_eq_cons_iff.mp hback
    obtain ⟨second, back'', hback'', hsecond, _⟩ := map_eq_cons_iff.mp hrest
    refine ⟨front, first, second, back'', by rw [hobs, hback', hback''], hfirst, ?_⟩
    rw [← hnext, ← hsecond]
    rfl
  · rintro ⟨before, first, next, after, hsplit, hfirst, hnext⟩
    refine ⟨before.map RescueObservation.worded, next.worded, after.map RescueObservation.worded, ?_, ?_⟩
    · rw [hsplit, map_append, map_cons, map_cons, hfirst]
    · rw [← hnext]
      rfl

theorem rescue_line (h : rescueNarrowBullets W countsForWor authority file = .ok (file', decisions)) :
    (∀ i b, bulletAt file i = some b → bulletAt file' i = some b ∨
      ∃ before wordCount next after trigger, wordedBullets W countsForWor file =
          before ++ (b, wordCount) :: next :: after ∧
        classifyBullet wordCount b.startMs b.endMs = some trigger ∧
        b.endMs + safetyBufferMs < next.1.startMs ∧
        b.endMs < rescueLimit trigger b.startMs wordCount next.1.startMs ∧ bulletAt file' i =
          some { b with endMs := rescueLimit trigger b.startMs wordCount next.1.startMs }) ∧
    ∀ before b wordCount next after trigger, wordedBullets W countsForWor file =
        before ++ (b, wordCount) :: next :: after →
      classifyBullet wordCount b.startMs b.endMs = some trigger →
      b.endMs + safetyBufferMs < next.1.startMs →
      b.endMs < rescueLimit trigger b.startMs wordCount next.1.startMs →
      ∃ i, bulletAt file i = some b ∧ bulletAt file' i =
        some { b with endMs := rescueLimit trigger b.startMs wordCount next.1.startMs } := by
  unfold rescueNarrowBullets collectRescueCandidates at h
  split at h
  · cases h
  · rename_i candidates hcandidates
    split at hcandidates
    · cases hcandidates
    · rename_i observations hobserve
      cases hcandidates
      have hfile : file' = ((fillNextStarts observations).foldl rescueOne (file, [])).1 :=
        (congrArg Prod.fst (Except.ok.inj h)).symm
      rw [hfile]
      have hobserved := observed_of_observe hobserve
      have hdistinct : ((fillNextStarts observations).map RescueObservation.lineIdx).Nodup := by
        rw [fillNextStarts_lines]
        refine hobserved.lines.nodup ?_
        exact (pairwise_map.mpr ((utterancesIndexed_sorted file).imp ne_of_lt))
      have hbullet : ∀ obs ∈ observations,
          bulletAt file obs.lineIdx = some ⟨obs.bulletStartMs, obs.bulletEndMs⟩ := by
        intro obs hobs
        obtain ⟨k, u, hmem, hb⟩ := hobserved.bullets obs hobs
        rw [bulletAt_eq (mem_utterancesIndexed.mp hmem).1, hb]
      constructor
      · intro i b hb
        by_cases hnone : ∀ obs ∈ fillNextStarts observations, obs.lineIdx = i → obs.rescue = none
        · left
          rw [bulletAt_foldl_none hnone, hb]
        · right
          push Not at hnone
          obtain ⟨obs, hmem, rfl, hsome⟩ := hnone
          obtain ⟨⟨trigger, n, e⟩, hrescue⟩ := Option.ne_none_iff_exists'.mp hsome
          obtain ⟨hclass, hnext, hend⟩ := rescue_eq_some.mp hrescue
          obtain ⟨hroom, hwider, he⟩ := rescuedEndMs_eq_some.mp hend
          rcases mem_fillNextStarts.mp hmem with ⟨before, first, next, after, hsplit, hobs⟩ |
            ⟨before, hsplit⟩
          · have hfirst := hbullet first (by rw [hsplit]; simp)
            rw [hobs] at hb
            rw [hfirst, Option.some.injEq] at hb
            have hn : next.bulletStartMs = n := by
              rw [hobs] at hnext
              exact Option.some.inj hnext
            obtain ⟨front, second, back, hworded, hstart⟩ := hobserved.neighbours.mpr
              ⟨before, first, next, after, hsplit, by rw [RescueObservation.worded, hb], hn⟩
            have hlive : bulletAt (file, ([] : List RescueDecision)).1 obs.lineIdx =
                some ⟨first.bulletStartMs, first.bulletEndMs⟩ := by
              rw [hobs]
              exact hfirst
            have hafter := bulletAt_foldl_some hdistinct hmem hrescue hlive
            subst hb
            rw [hobs] at hclass hroom hwider he
            refine ⟨front, first.wordCount, second, back, trigger, hworded, hclass, ?_, ?_, ?_⟩
            · rw [hstart]
              exact hroom
            · rw [hstart]
              exact hwider
            · rw [hafter, he, hstart]
          · have hlast := hobserved.last obs (by rw [hsplit]; simp)
            rw [hlast] at hnext
            cases hnext
      · intro before b wordCount next after trigger hworded hclass hroom hwider
        obtain ⟨front, first, second, back, hsplit, hfirst, hstart⟩ :=
          hobserved.neighbours.mp ⟨before, next, after, hworded, rfl⟩
        have hmem : { first with nextStartMs := some second.bulletStartMs } ∈
            fillNextStarts observations :=
          mem_fillNextStarts.mpr (Or.inl ⟨front, first, second, back, hsplit, rfl⟩)
        have hb := hbullet first (by rw [hsplit]; simp)
        obtain ⟨rfl, rfl⟩ := hfirst
        rw [hstart] at hmem
        have hrescue : ({ first with nextStartMs := some next.1.startMs } : RescueObservation).rescue =
            some (trigger, next.1.startMs,
              rescueLimit trigger first.bulletStartMs first.wordCount next.1.startMs) :=
          rescue_eq_some.mpr ⟨hclass, rfl, rescuedEndMs_eq_some.mpr ⟨hroom, hwider, rfl⟩⟩
        exact ⟨first.lineIdx, hb, bulletAt_foldl_some hdistinct hmem hrescue hb⟩

theorem rescue_staysApart_iff
    (h : rescueNarrowBullets W countsForWor authority file = .ok (file', decisions)) :
    StaysApart file file' ↔ RescueClear W countsForWor file := by
  obtain ⟨hline, hwidened⟩ := rescue_line h
  have hstart : ∀ i b, bulletAt file i = some b →
      ∃ b', bulletAt file' i = some b' ∧ b'.startMs = b.startMs ∧ b.endMs ≤ b'.endMs := by
    intro i b hb
    rcases hline i b hb with hsame | ⟨_, _, _, _, _, _, _, _, hlimit, hnew⟩
    · exact ⟨b, hsame, rfl, le_refl _⟩
    · exact ⟨_, hnew, rfl, hlimit.le⟩
  constructor
  · intro hapart before b wordCount next after trigger hworded hclass hroom j c hc hle
    by_contra hlt
    obtain ⟨i, hb, hb'⟩ := hwidened before b wordCount next after trigger hworded hclass hroom (by omega)
    have hreach := hapart.widened_end hb hc hb' hle
    exact hlt hreach
  · intro hclear
    refine ⟨?_, ?_⟩
    · intro i b hb
      obtain ⟨b', hb', heq, hle⟩ := hstart i b hb
      exact ⟨b', hb', heq.le, hle⟩
    · intro i j b c b' c' hb hc hb' hc' hle
      obtain ⟨c'', hc'', hceq, _⟩ := hstart j c hc
      rw [hc'] at hc''
      cases hc''
      rw [hceq]
      rcases hline i b hb with hsame | ⟨before, wordCount, next, after, trigger, hworded, hclass, hroom, _, hnew⟩
      · rw [hb'] at hsame
        cases hsame
        exact hle
      · rw [hb'] at hnew
        cases hnew
        exact hclear before b wordCount next after trigger hworded hclass hroom j c hc hle

end Result

end Batchalign.Fa
