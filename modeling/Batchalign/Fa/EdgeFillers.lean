import Batchalign.Fa.NarrowBullets

/- Widening of bullets for the fillers at their edges (`expand_for_fillers.rs`). A filler takes half of
   the gap to the neighbouring utterance, at most 1.5 seconds; bullets that face each other without
   being neighbours add their parts (`FillersClear`). -/
namespace Batchalign.Fa

section Pass

def maxFillerExpansionMs : ℕ := 1500

/-- What one edge word is (`Edge` in the source). -/
inductive FillerEdge where
  | filler
  | ordinary

inductive EdgeFillers where
  | noAlignableWords
  | edges (leading trailing : FillerEdge)

structure UtteranceFillerSummary where
  bullet : Option TimeSpan
  edges : EdgeFillers

def fillerExpansion (gap : ℕ) : ℕ := min (gap / 2) maxFillerExpansionMs

variable (walkWor : List UtteranceContent → List Word) (isFiller : Word → Bool)

def edgeOf (word : Word) : FillerEdge := if isFiller word then .filler else .ordinary

def detectEdgeFillers (content : List UtteranceContent) : EdgeFillers :=
  match (walkWor content).head?, (walkWor content).getLast? with
  | some first, some last => .edges (edgeOf isFiller first) (edgeOf isFiller last)
  | _, _ => .noAlignableWords

def fillerSummary (u : Utterance) : UtteranceFillerSummary :=
  ⟨u.parsedBullet, detectEdgeFillers walkWor isFiller u.content⟩

def utteranceData (file : ChatFile) : List UtteranceFillerSummary :=
  (file.filterMap Line.utterance?).map (fillerSummary walkWor isFiller)

/-- The end of the utterance before; the first one's gap runs back to the start of the file. -/
def previousEnd (data : List UtteranceFillerSummary) : ℕ → Option ℕ
  | 0 => some 0
  | k + 1 => (data[k]?).bind fun previous => previous.bullet.map TimeSpan.endMs

def nextStart (data : List UtteranceFillerSummary) (k : ℕ) : Option ℕ :=
  (data[k + 1]?).bind fun next => next.bullet.map TimeSpan.startMs

def expandedStart (data : List UtteranceFillerSummary) (k : ℕ) (leading : FillerEdge) (startMs : ℕ) : ℕ :=
  match leading with
  | .ordinary => startMs
  | .filler =>
    match previousEnd data k with
    | some prevEnd => if prevEnd < startMs then startMs - fillerExpansion (startMs - prevEnd) else startMs
    | none => startMs

def expandedEnd (data : List UtteranceFillerSummary) (k : ℕ) (trailing : FillerEdge) (endMs : ℕ) : ℕ :=
  match trailing with
  | .ordinary => endMs
  | .filler =>
    match nextStart data k with
    | some next => if endMs < next then endMs + fillerExpansion (next - endMs) else endMs
    | none => endMs

/-- The `k`-th utterance widened; the data has an entry for each (`utteranceData_at`). -/
def expandUtterance (data : List UtteranceFillerSummary) (k : ℕ) (u : Utterance) : Utterance :=
  match u.parsedBullet with
  | none => u
  | some bullet =>
    match data[k]? with
    | some ⟨_, .edges leading trailing⟩ =>
      (u.setStart (expandedStart data k leading bullet.startMs)).setEnd
        (expandedEnd data k trailing bullet.endMs)
    | some ⟨_, .noAlignableWords⟩ => u
    | none => u

def expandFrom (data : List UtteranceFillerSummary) : ℕ → ChatFile → ChatFile
  | _, [] => []
  | k, .header text :: lines => .header text :: expandFrom data k lines
  | k, .utterance u :: lines => .utterance (expandUtterance data k u) :: expandFrom data (k + 1) lines

def expandBulletsForEdgeFillers (file : ChatFile) : ChatFile :=
  expandFrom (utteranceData walkWor isFiller file) 0 file

end Pass

section Clear
variable (walkWor : List UtteranceContent → List Word) (isFiller : Word → Bool)

def takenBefore (data : List UtteranceFillerSummary) (k : ℕ) : ℕ :=
  match data[k]?, previousEnd data k with
  | some ⟨some bullet, .edges .filler _⟩, some prevEnd => fillerExpansion (bullet.startMs - prevEnd)
  | _, _ => 0

def takenAfter (data : List UtteranceFillerSummary) (k : ℕ) : ℕ :=
  match data[k]?, nextStart data k with
  | some ⟨some bullet, .edges _ .filler⟩, some next => fillerExpansion (next - bullet.endMs)
  | _, _ => 0

/-- Bullets that are no neighbours leave room for what both take on the facing sides. -/
def FillersClear (file : ChatFile) : Prop :=
  ∀ i j b c, bulletAt file i = some b → bulletAt file j = some c → b.endMs ≤ c.startMs →
    utteranceOrdinal file j ≠ utteranceOrdinal file i + 1 →
    takenAfter (utteranceData walkWor isFiller file) (utteranceOrdinal file i) +
      takenBefore (utteranceData walkWor isFiller file) (utteranceOrdinal file j) ≤
        c.startMs - b.endMs

end Clear

section Lines
variable {walkWor : List UtteranceContent → List Word} {isFiller : Word → Bool}
  {data : List UtteranceFillerSummary} {file : ChatFile} {u : Utterance} {i k : ℕ}

theorem fillerExpansion_le_half (gap : ℕ) : fillerExpansion gap ≤ gap / 2 := min_le_left _ _

theorem utteranceData_at (h : getUtterance file i = some u) :
    (utteranceData walkWor isFiller file)[utteranceOrdinal file i]? = some (fillerSummary walkWor isFiller u) := by
  have hat : (file.filterMap Line.utterance?)[utteranceOrdinal file i]? = some u := by
    induction file generalizing i with
    | nil => cases h
    | cons line lines ih =>
      cases i with
      | zero =>
        cases line with
        | header text => cases h
        | utterance v =>
          cases h
          rfl
      | succ i =>
        cases line with
        | header text => exact ih h
        | utterance v => exact ih h
  rw [utteranceData, List.getElem?_map, hat]
  rfl

theorem getUtterance_expandFrom (data : List UtteranceFillerSummary) (file : ChatFile) (k i : ℕ) :
    getUtterance (expandFrom data k file) i =
      (getUtterance file i).map (expandUtterance data (k + utteranceOrdinal file i)) := by
  induction file generalizing k i with
  | nil => rfl
  | cons line lines ih =>
    cases line with
    | header text =>
      cases i with
      | zero => rfl
      | succ i => exact ih k i
    | utterance v =>
      cases i with
      | zero => rfl
      | succ i =>
        have hord : utteranceOrdinal (.utterance v :: lines) (i + 1) = utteranceOrdinal lines i + 1 := by
          simp [utteranceOrdinal, Line.utterance?]
        rw [hord, add_comm (utteranceOrdinal lines i), ← add_assoc]
        exact ih (k + 1) i

variable {b : TimeSpan} {edges : EdgeFillers}

theorem parsedBullet_expandUtterance (hdata : data[k]? = some (fillerSummary walkWor isFiller u))
    (hb : u.parsedBullet = some b) : (expandUtterance data k u).parsedBullet =
      some ⟨b.startMs - takenBefore data k, b.endMs + takenAfter data k⟩ := by
  unfold expandUtterance takenBefore takenAfter
  rw [fillerSummary, hb] at hdata
  rw [hb, hdata]
  cases detectEdgeFillers walkWor isFiller u.content with
  | noAlignableWords => simpa using hb
  | edges leading trailing =>
    have hstart : expandedStart data k leading b.startMs = b.startMs -
        (match some (UtteranceFillerSummary.mk (some b) (.edges leading trailing)), previousEnd data k with
          | some ⟨some bullet, .edges .filler _⟩, some prevEnd => fillerExpansion (bullet.startMs - prevEnd)
          | _, _ => 0) := by
      cases leading with
      | ordinary => simp [expandedStart]
      | filler =>
        cases hprev : previousEnd data k with
        | none => simp [expandedStart, hprev]
        | some prevEnd =>
          simp only [expandedStart, hprev]
          split
          · rfl
          · have hzero : b.startMs - prevEnd = 0 := by omega
            simp [hzero, fillerExpansion]
    have hend : expandedEnd data k trailing b.endMs = b.endMs +
        (match some (UtteranceFillerSummary.mk (some b) (.edges leading trailing)), nextStart data k with
          | some ⟨some bullet, .edges _ .filler⟩, some next => fillerExpansion (next - bullet.endMs)
          | _, _ => 0) := by
      cases trailing with
      | ordinary => simp [expandedEnd]
      | filler =>
        cases hnext : nextStart data k with
        | none => simp [expandedEnd, hnext]
        | some next =>
          simp only [expandedEnd, hnext]
          split
          · rfl
          · have hzero : next - b.endMs = 0 := by omega
            simp [hzero, fillerExpansion]
    rw [parsedBullet_setEnd, parsedBullet_setStart, hb, hstart, hend]
    rfl

theorem bulletAt_expand (hb : bulletAt file i = some b) :
    bulletAt (expandBulletsForEdgeFillers walkWor isFiller file) i =
      some ⟨b.startMs - takenBefore (utteranceData walkWor isFiller file) (utteranceOrdinal file i),
        b.endMs + takenAfter (utteranceData walkWor isFiller file) (utteranceOrdinal file i)⟩ := by
  obtain ⟨u, hu, hbullet⟩ := bulletAt_eq_some hb
  have hline : getUtterance (expandBulletsForEdgeFillers walkWor isFiller file) i =
      some (expandUtterance (utteranceData walkWor isFiller file) (utteranceOrdinal file i) u) := by
    rw [expandBulletsForEdgeFillers, getUtterance_expandFrom, hu, zero_add]
    rfl
  rw [bulletAt_eq hline, parsedBullet_expandUtterance (utteranceData_at hu) hbullet]

section
variable (hk : data[k]? = some ⟨some b, edges⟩)
include hk

theorem takenAfter_le {next : ℕ}
    (hnext : nextStart data k = some next) : takenAfter data k ≤ (next - b.endMs) / 2 := by
  unfold takenAfter
  rw [hk, hnext]
  split
  · rename_i heq hsome
    cases heq
    cases hsome
    exact fillerExpansion_le_half _
  · exact Nat.zero_le _

theorem takenBefore_le {prevEnd : ℕ} (hprev : previousEnd data k = some prevEnd) :
    takenBefore data k ≤ (b.startMs - prevEnd) / 2 := by
  unfold takenBefore
  rw [hk, hprev]
  split
  · rename_i heq hsome
    cases heq
    cases hsome
    exact fillerExpansion_le_half _
  · exact Nat.zero_le _

theorem takenBefore_le_start : takenBefore data k ≤ b.startMs := by
  cases hprev : previousEnd data k with
  | none =>
    have hzero : takenBefore data k = 0 := by
      unfold takenBefore
      rw [hk, hprev]
      split
      · rename_i hsome
        cases hsome
      · rfl
    omega
  | some prevEnd =>
    have hle := takenBefore_le hk hprev
    omega

theorem taken_neighbours {c : TimeSpan} {edges' : EdgeFillers} (hnext : data[k + 1]? = some ⟨some c, edges'⟩) :
    takenAfter data k + takenBefore data (k + 1) ≤ c.startMs - b.endMs := by
  have hn : nextStart data k = some c.startMs := by
    rw [nextStart, hnext]
    rfl
  have hp : previousEnd data (k + 1) = some b.endMs := by
    rw [previousEnd, hk]
    rfl
  have hafter := takenAfter_le hk hn
  have hbefore := takenBefore_le hnext hp
  omega

end

theorem utteranceData_bullet (hb : bulletAt file i = some b) :
    ∃ edges, (utteranceData walkWor isFiller file)[utteranceOrdinal file i]? = some ⟨some b, edges⟩ := by
  obtain ⟨u, hu, hbullet⟩ := bulletAt_eq_some hb
  rw [utteranceData_at hu, fillerSummary, hbullet]
  exact ⟨_, rfl⟩

theorem fillers_staysApart_iff : StaysApart file (expandBulletsForEdgeFillers walkWor isFiller file) ↔
      FillersClear walkWor isFiller file := by
  constructor
  · intro hapart i j b c hb hc hle _
    have hfit := hapart.apart i j b c _ _ hb hc (bulletAt_expand hb) (bulletAt_expand hc) hle
    simp only at hfit
    obtain ⟨edges, hdata⟩ := @utteranceData_bullet walkWor isFiller file j c hc
    have hstart := takenBefore_le_start hdata
    omega
  · intro hclear
    refine ⟨?_, ?_⟩
    · intro i b hb
      exact ⟨_, bulletAt_expand hb, Nat.sub_le _ _, Nat.le_add_right _ _⟩
    · intro i j b c b' c' hb hc hb' hc' hle
      rw [bulletAt_expand hb] at hb'
      rw [bulletAt_expand hc] at hc'
      cases hb'
      cases hc'
      simp only
      by_cases hnext : utteranceOrdinal file j = utteranceOrdinal file i + 1
      · obtain ⟨edges, hdata⟩ := @utteranceData_bullet walkWor isFiller file i b hb
        obtain ⟨edges', hdata'⟩ := @utteranceData_bullet walkWor isFiller file j c hc
        rw [hnext] at hdata' ⊢
        have hshare := taken_neighbours hdata hdata'
        omega
      · have hroom := hclear i j b c hb hc hle hnext
        omega

end Lines

section Widened
variable (W : ContentWalker) (countsForWor : Word → Bool) (walkWor : List UtteranceContent → List Word)
  (isFiller : Word → Bool) (authority : MainBulletAuthority)

/-- Bullets stay apart exactly when none starts where one too narrow is widened, and those that are no
  neighbours leave room for the facing fillers. -/
theorem staysApart_iff (file : ChatFile) :
    (∀ file' decisions, rescueNarrowBullets W countsForWor authority file = .ok (file', decisions) →
      (StaysApart file file' ↔ RescueClear W countsForWor file)) ∧
    (StaysApart file (expandBulletsForEdgeFillers walkWor isFiller file) ↔
      FillersClear walkWor isFiller file) :=
  ⟨fun _ _ h => rescue_staysApart_iff h, fillers_staysApart_iff⟩

def spoken (speaker : String) (words : List String) (startMs endMs : ℕ) : Utterance where
  speaker := speaker
  linkers := []
  bullet := some (.parsed ⟨startMs, endMs⟩)
  content := words.map fun text => .word ⟨text, none⟩
  dependentTiers := []

def wordlessBetween : ChatFile :=
  [.utterance (spoken "CHI" (List.replicate 10 "no") 0 100), .utterance (spoken "MOT" [] 200 300),
    .utterance (spoken "CHI" ["yes"] 5000 6000)]

/-- A filler at the end, the next line two seconds on, and a later line that starts between. -/
def laterBetween : ChatFile :=
  [.utterance (spoken "CHI" ["well", "um"] 0 100), .utterance (spoken "CHI" ["yes"] 2000 3000),
    .utterance (spoken "MOT" ["mhm"] 500 600)]

/-- The rescue runs over the line without words, the filler over the mother's. -/
theorem widened_over_later_start :
    (∃ file' decisions, rescueNarrowBullets .unconditional (fun _ => true) .deriveFromWords
        wordlessBetween = .ok (file', decisions) ∧ bulletAt file' 0 = some ⟨0, 4800⟩ ∧
        bulletAt file' 1 = some ⟨200, 300⟩ ∧ ¬ StaysApart wordlessBetween file') ∧
    bulletAt (expandBulletsForEdgeFillers wordLeaves (fun w => w.text == "um") laterBetween) 0 =
      some ⟨0, 1050⟩ ∧
    ¬ StaysApart laterBetween
      (expandBulletsForEdgeFillers wordLeaves (fun w => w.text == "um") laterBetween) := by
  have hfiller : bulletAt (expandBulletsForEdgeFillers wordLeaves (fun w => w.text == "um")
      laterBetween) 0 = some ⟨0, 1050⟩ := by decide
  refine ⟨⟨_, _, rfl, by decide, by decide, ?_⟩, hfiller, ?_⟩
  · intro h
    have hend := h.apart 0 1 ⟨0, 100⟩ ⟨200, 300⟩ ⟨0, 4800⟩ ⟨200, 300⟩ (by decide) (by decide)
      (by decide) (by decide) (by decide)
    exact absurd hend (by decide)
  · intro h
    have hend := h.apart 0 2 ⟨0, 100⟩ ⟨500, 600⟩ ⟨0, 1050⟩ ⟨500, 600⟩ (by decide) (by decide)
      hfiller (by decide) (by decide)
    exact absurd hend (by decide)

end Widened

end Batchalign.Fa
