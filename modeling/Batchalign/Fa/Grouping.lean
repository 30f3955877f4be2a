import Batchalign.Fa.Windows
import Batchalign.Fa.MainBullets

/- Grouping of utterances into requests (`fa/grouping.rs`, `fa/grouping/population.rs`),
   under an aggregation target. -/
namespace Batchalign.Fa
open List

def maxGroupLabelBytes : ℕ := 448

def trailingGapExtensionMs : ℕ := 1500

inductive SearchProvenance where
  | candidates
  | orderCorridor (floor ceiling : String)

inductive Localization where
  | suppliedBullet
  | searched (provenance : SearchProvenance)

/-- Beside the file: the `Wor` domain, and the anchor index, which may answer with a search window. -/
structure GroupingEnv where
  walker : ContentWalker
  domain : WorDomain
  searchWindow : ℕ → List FaWord → Option (TimeSpan × SearchProvenance)

inductive RefusedWindow where
  | empty (atMs : ℕ)
  | inverted (startMs endMs : ℕ)
  | pastRecording (startMs endMs exceedsByMs : ℕ)

/-- Only a window past the recording needs its start told. -/
def faultRefusal (fault : WindowFault) (windowStart : ℕ) : RefusedWindow :=
  match fault with
  | .empty atMs => .empty atMs
  | .inverted startMs endMs => .inverted startMs endMs
  | .pastRecording endMs exceedsBy => .pastRecording windowStart endMs exceedsBy

inductive GroupingStrategy where
  | localizationUnavailable
  | searchCorridor (startMs endMs : ℕ) (floor ceiling : String)
  | windowRefused (refused : RefusedWindow)

/-- A decision record: what was decided of a line, and whether a reviewer should look. -/
structure GroupingDecision where
  lineIdx : ℕ
  speaker : String
  strategy : GroupingStrategy
  needsReview : Bool

section Model
variable (R : Recording)

structure SourceSlice where
  utterance : ℕ
  words : List FaWord
  window : FaWindow R

structure GroupWindow where
  window : FaWindow R
  endLimit : ℕ

/-- Utterances being joined; the population's words are those of its sources, one after another. -/
structure PendingGroup where
  window : GroupWindow R
  sources : List (SourceSlice R)
  labelBytes : ℕ

structure FaGroup where
  window : FaWindow R
  sources : List (SourceSlice R)

structure Grouping where
  groups : List (FaGroup R)
  decisions : List GroupingDecision

end Model

variable {R : Recording}

def FaGroup.words (g : FaGroup R) : List FaWord := g.sources.flatMap SourceSlice.words

def FaGroup.utteranceIndices (g : FaGroup R) : List ℕ := g.sources.map SourceSlice.utterance

/-- `LabelBytes::total`. -/
def labelBytesTotal (words : List FaWord) : ℕ := (words.map fun w => w.text.utf8ByteSize).sum

/-! ## One utterance -/

def faWordsOf (env : GroupingEnv) (utteranceIdx : ℕ) (u : Utterance) : List FaWord :=
  (collectFaWords env.walker env.domain u.content).mapIdx fun wordIdx text =>
    ⟨utteranceIdx, wordIdx, text⟩

/-- `LocalizedUtterance::from_source`: the supplied bullet, or what the anchors found. -/
def localizedFromSource (env : GroupingEnv) (utteranceIdx : ℕ) (u : Utterance) (words : List FaWord) :
    Option (TimeSpan × Localization) :=
  match u.parsedBullet with
  | some bullet => some (bullet, .suppliedBullet)
  | none => (env.searchWindow utteranceIdx words).map fun (span, provenance) => (span, .searched provenance)

def asksForTiming (env : GroupingEnv) (utteranceIdx : ℕ) (u : Utterance) : Bool :=
  RecordingPresence.of u == .inRecording && !(faWordsOf env utteranceIdx u).isEmpty

inductive Turn (R : Recording) where
  | skipped
  | unlocalized
  | outsideRecording (span : TimeSpan) (fault : WindowFault)
  | unmerged (source : SourceSlice R)
  | mergeable (next : PendingGroup R)

/-- A window over the target is kept whole, without neighbour or padding. -/
def GroupWindow.forMerge (R : Recording) (target : ℕ) (utteranceIdx : ℕ) (words : List FaWord)
    (span : TimeSpan) : Turn R :=
  match FaWindow.within R span.startMs span.endMs with
  | .error fault => .outsideRecording span fault
  | .ok window =>
    let source : SourceSlice R := ⟨utteranceIdx, words, window⟩
    if window.endMs - window.startMs > target then .unmerged source
    else .mergeable
      { window := ⟨window, min (saturatingAdd span.startMs target) R.duration⟩
        sources := [source]
        labelBytes := labelBytesTotal words }

def turn (env : GroupingEnv) (R : Recording) (target utteranceIdx : ℕ) (u : Utterance) : Turn R :=
  if asksForTiming env utteranceIdx u then
    match localizedFromSource env utteranceIdx u (faWordsOf env utteranceIdx u) with
    | none => .unlocalized
    | some (span, _) => GroupWindow.forMerge R target utteranceIdx (faWordsOf env utteranceIdx u) span
  else .skipped

/-- The decisions of one utterance: its corridor, then why it makes no request. -/
def turnDecisions (env : GroupingEnv) (R : Recording) (target lineIdx utteranceIdx : ℕ) (u : Utterance) :
    List GroupingDecision :=
  if asksForTiming env utteranceIdx u then
    match localizedFromSource env utteranceIdx u (faWordsOf env utteranceIdx u) with
    | none => [⟨lineIdx, u.speaker, .localizationUnavailable, true⟩]
    | some (span, localization) =>
      (match localization with
        | .searched (.orderCorridor floor ceiling) =>
          [⟨lineIdx, u.speaker, .searchCorridor span.startMs span.endMs floor ceiling, false⟩]
        | _ => []) ++
      (match GroupWindow.forMerge R target utteranceIdx (faWordsOf env utteranceIdx u) span with
        | .outsideRecording _ fault =>
          [⟨lineIdx, u.speaker, .windowRefused (faultRefusal fault span.startMs), true⟩]
        | _ => [])
  else []

/-! ## The pending group -/

namespace PendingGroup

/-- Join the next utterance, unless it starts before the group, ends past its limit or is too many bytes. -/
def append (p next : PendingGroup R) : Option (PendingGroup R) :=
  if next.window.window.startMs < p.window.window.startMs ∨
      next.window.window.endMs > p.window.endLimit ∨
      saturatingAdd p.labelBytes next.labelBytes > maxGroupLabelBytes then none
  else some
    { window := ⟨p.window.window.extendBy (next.window.window.endMs - p.window.window.endMs), p.window.endLimit⟩
      sources := p.sources ++ next.sources
      labelBytes := saturatingAdd p.labelBytes next.labelBytes }

/-- `extend_into_trailing_gap` and the closed group; `none` is the subtraction
underflowing. -/
def finish (p : PendingGroup R) (nextStart : ℕ) : Option (FaGroup R) :=
  if p.window.endLimit < p.window.window.endMs then none
  else
    let gap := nextStart - p.window.window.endMs
    let extension := min (min (gap / 2) trailingGapExtensionMs) (p.window.endLimit - p.window.window.endMs)
    some ⟨p.window.window.extendBy extension, p.sources⟩

end PendingGroup

/-- One round: the group it closes and the start it is padded towards, a group of one utterance, the pending
  group. -/
structure Advance (R : Recording) where
  closed : Option (PendingGroup R × ℕ)
  alone : Option (SourceSlice R)
  pending : Option (PendingGroup R)

def advance (pending : Option (PendingGroup R)) : Turn R → Advance R
  | .skipped => ⟨none, none, pending⟩
  -- supported neighbours are not merged across an unsupported turn
  | .unlocalized => ⟨pending.map (·, R.duration), none, none⟩
  | .outsideRecording span _ => ⟨pending.map (·, span.startMs), none, none⟩
  | .unmerged source => ⟨pending.map (·, source.window.startMs), some source, none⟩
  | .mergeable next =>
    match pending with
    | none => ⟨none, none, some next⟩
    | some previous =>
      match previous.append next with
      | some joined => ⟨none, none, some joined⟩
      | none => ⟨some (previous, next.window.window.startMs), none, some next⟩

def closeGroup : Option (PendingGroup R × ℕ) → Option (List (FaGroup R))
  | none => some []
  | some (p, nextStart) => (p.finish nextStart).map ([·])

def SourceSlice.group (s : SourceSlice R) : FaGroup R := ⟨s.window, [s]⟩

/-- The loop of `group_with_policy` from a pending group on. -/
def groupFrom (env : GroupingEnv) (target : ℕ) :
    Option (PendingGroup R) → List (ℕ × ℕ × Utterance) → Option (Grouping R)
  | pending, [] => (closeGroup (pending.map (·, R.duration))).map fun groups => ⟨groups, []⟩
  | pending, (lineIdx, utteranceIdx, u) :: rest =>
    let round := advance pending (turn env R target utteranceIdx u)
    match closeGroup round.closed, groupFrom env target round.pending rest with
    | some closed, some later =>
      some ⟨closed ++ round.alone.toList.map SourceSlice.group ++ later.groups,
        turnDecisions env R target lineIdx utteranceIdx u ++ later.decisions⟩
    | _, _ => none

/-- `group_with_policy` under an aggregation target. -/
def groupWithPolicy (env : GroupingEnv) (R : Recording) (target : ℕ) (file : ChatFile) :
    Option (Grouping R) :=
  groupFrom env target none (utterancesIndexed file)

/-! ## What a pending and a closed group keep -/

/-- The pending group: its window is the hull of its utterances', inside its limit, the target and the
  recording; its label bytes are counted, and capped from two utterances on. -/
structure PendingGroup.Sound (target : ℕ) (p : PendingGroup R) : Prop where
  starts : ∀ s ∈ p.sources, p.window.window.startMs ≤ s.window.startMs
  ends : ∀ s ∈ p.sources, s.window.endMs ≤ p.window.window.endMs
  attained : ∃ s ∈ p.sources, s.window.endMs = p.window.window.endMs
  within_limit : p.window.window.endMs ≤ p.window.endLimit
  limit_target : p.window.endLimit ≤ p.window.window.startMs + target
  limit_recording : p.window.endLimit ≤ R.duration
  counted : p.labelBytes = labelBytesTotal (p.sources.flatMap SourceSlice.words)
  capped : 2 ≤ p.sources.length → p.labelBytes ≤ maxGroupLabelBytes

/-- A closed group contains its utterances' windows; one of two or more keeps target and label-byte cap. -/
structure FaGroup.Sound (target : ℕ) (g : FaGroup R) : Prop where
  nonempty : g.sources ≠ []
  contains : ∀ s ∈ g.sources, g.window.startMs ≤ s.window.startMs ∧ s.window.endMs ≤ g.window.endMs
  bounded : 2 ≤ g.sources.length →
    g.window.len ≤ target ∧ labelBytesTotal g.words ≤ maxGroupLabelBytes

def FaGroup.unpaddedEnd (g : FaGroup R) : ℕ := ((g.sources.map fun s => s.window.endMs).max?).getD 0

theorem labelBytesTotal_append (a b : List FaWord) :
    labelBytesTotal (a ++ b) = labelBytesTotal a + labelBytesTotal b := by
  simp [labelBytesTotal]

variable {next p : PendingGroup R}

theorem PendingGroup.Sound.of_forMerge {target utteranceIdx : ℕ} {words : List FaWord} {span : TimeSpan}
    (h : GroupWindow.forMerge R target utteranceIdx words span = .mergeable next) :
    next.Sound target ∧ ∃ window, next.sources = [⟨utteranceIdx, words, window⟩] ∧
      window.startMs = span.startMs ∧ next.window.window = window := by
  unfold GroupWindow.forMerge at h
  split at h
  · cases h
  · next window hw =>
    obtain ⟨hstart, hend⟩ := FaWindow.within_eq_ok hw
    split at h
    · cases h
    · next hlen =>
      cases h
      have hin := window.inside
      have hfits := R.fits
      have hlimit : window.endMs ≤ saturatingAdd span.startMs target := le_saturatingAdd (by omega) (by omega)
      have hsat := saturatingAdd_le span.startMs target
      refine ⟨?_, window, rfl, hstart, rfl⟩
      constructor
      · intro s hs
        cases mem_singleton.mp hs
        exact le_refl _
      · intro s hs
        cases mem_singleton.mp hs
        exact le_refl _
      · exact ⟨_, mem_singleton.mpr rfl, rfl⟩
      · show window.endMs ≤ min (saturatingAdd span.startMs target) R.duration
        omega
      · show min (saturatingAdd span.startMs target) R.duration ≤ window.startMs + target
        omega
      · exact min_le_right _ _
      · simp
      · intro htwo
        simp at htwo

variable {target : ℕ}

theorem PendingGroup.Sound.append {joined : PendingGroup R} (hp : p.Sound target)
    (hn : next.Sound target) (h : p.append next = some joined) :
    joined.Sound target ∧ joined.sources = p.sources ++ next.sources := by
  unfold PendingGroup.append at h
  split at h
  · cases h
  · next hguard =>
    cases h
    simp only [not_or, not_lt, gt_iff_lt] at hguard
    obtain ⟨hstart, hend, hbytes⟩ := hguard
    have hlim := hp.within_limit
    have hrec := hp.limit_recording
    -- the joined end is the later of the two ends, and it fits the recording
    have hext : (p.window.window.extendBy (next.window.window.endMs - p.window.window.endMs)).endMs =
        max p.window.window.endMs next.window.window.endMs := by
      rw [FaWindow.endMs_extendBy (by omega)]
      omega
    have hsum : saturatingAdd p.labelBytes next.labelBytes = p.labelBytes + next.labelBytes := by
      unfold saturatingAdd maxGroupLabelBytes at *
      omega
    refine ⟨?_, rfl⟩
    constructor
    · intro s hs
      obtain hs | hs := mem_append.mp hs
      · exact hp.starts s hs
      · exact le_trans hstart (hn.starts s hs)
    · intro s hs
      rw [hext]
      obtain hs | hs := mem_append.mp hs
      · exact le_trans (hp.ends s hs) (le_max_left _ _)
      · exact le_trans (hn.ends s hs) (le_max_right _ _)
    · obtain ⟨a, ha, hae⟩ := hp.attained
      obtain ⟨b, hb, hbe⟩ := hn.attained
      by_cases hle : p.window.window.endMs ≤ next.window.window.endMs
      · refine ⟨b, mem_append_right _ hb, ?_⟩
        rw [hext, hbe]
        omega
      · refine ⟨a, mem_append_left _ ha, ?_⟩
        rw [hext, hae]
        omega
    · show FaWindow.endMs _ ≤ p.window.endLimit
      rw [hext]
      omega
    · exact hp.limit_target
    · exact hrec
    · rw [flatMap_append, labelBytesTotal_append, ← hp.counted, ← hn.counted]
      exact hsum
    · intro _
      exact hbytes

theorem PendingGroup.Sound.finish (hp : p.Sound target) (nextStart : ℕ) :
    ∃ g, p.finish nextStart = some g ∧ g.sources = p.sources ∧
      g.window.startMs = p.window.window.startMs ∧ g.window.endMs = p.window.window.endMs +
        min (min ((nextStart - p.window.window.endMs) / 2) trailingGapExtensionMs)
          (p.window.endLimit - p.window.window.endMs) := by
  have hlim := hp.within_limit
  have hrec := hp.limit_recording
  unfold PendingGroup.finish
  rw [if_neg (by omega)]
  refine ⟨_, rfl, rfl, rfl, ?_⟩
  rw [FaWindow.endMs_extendBy (by omega)]

theorem FaGroup.unpaddedEnd_eq {g : FaGroup R} {e : ℕ} (hle : ∀ s ∈ g.sources, s.window.endMs ≤ e)
    (hatt : ∃ s ∈ g.sources, s.window.endMs = e) : g.unpaddedEnd = e := by
  have hmax : (g.sources.map fun s => s.window.endMs).max? = some e := by
    apply max?_eq_some_iff.mpr
    constructor
    · obtain ⟨s, hs, he⟩ := hatt
      exact mem_map.mpr ⟨s, hs, he⟩
    · intro b hb
      obtain ⟨s, hs, rfl⟩ := mem_map.mp hb
      exact hle s hs
  rw [unpaddedEnd, hmax, Option.getD_some]

theorem PendingGroup.Sound.closed (hp : p.Sound target) {nextStart : ℕ}
    {g : FaGroup R} (h : p.finish nextStart = some g) :
    g.Sound target ∧ g.sources = p.sources ∧ g.unpaddedEnd = p.window.window.endMs ∧
      g.window.endMs = p.window.window.endMs +
        min (min ((nextStart - p.window.window.endMs) / 2) trailingGapExtensionMs)
          (p.window.endLimit - p.window.window.endMs) := by
  obtain ⟨g', hg', hsources, hstart, hend⟩ := hp.finish nextStart
  obtain rfl : g' = g := Option.some.inj (hg'.symm.trans h)
  have hlim := hp.within_limit
  refine ⟨⟨?_, ?_, ?_⟩, hsources, ?_, hend⟩
  · obtain ⟨s, hs, _⟩ := hp.attained
    rw [hsources]
    exact ne_nil_of_mem hs
  · intro s hs
    rw [hsources] at hs
    refine ⟨?_, ?_⟩
    · rw [hstart]
      exact hp.starts s hs
    · have hse := hp.ends s hs
      omega
  · intro htwo
    rw [hsources] at htwo
    have htarget := hp.limit_target
    refine ⟨?_, ?_⟩
    · unfold FaWindow.len
      omega
    · rw [FaGroup.words, hsources, ← hp.counted]
      exact hp.capped htwo
  · apply FaGroup.unpaddedEnd_eq
    · rw [hsources]
      exact hp.ends
    · rw [hsources]
      exact hp.attained

theorem SourceSlice.group_sound (target : ℕ) (s : SourceSlice R) :
    s.group.Sound target ∧ s.group.unpaddedEnd = s.group.window.endMs := by
  refine ⟨⟨?_, ?_, ?_⟩, ?_⟩
  · simp [SourceSlice.group]
  · intro s' hs'
    cases mem_singleton.mp hs'
    exact ⟨le_refl _, le_refl _⟩
  · intro htwo
    simp [SourceSlice.group] at htwo
  · apply FaGroup.unpaddedEnd_eq
    · intro s' hs'
      cases mem_singleton.mp hs'
      exact le_refl _
    · exact ⟨s, mem_singleton.mpr rfl, rfl⟩

/-! ## One round -/

def Turn.sources : Turn R → List (SourceSlice R)
  | .unmerged source => [source]
  | .mergeable next => next.sources
  | _ => []

def pendingSources (pending : Option (PendingGroup R)) : List (SourceSlice R) :=
  pending.toList.flatMap PendingGroup.sources

def Turn.Sound (target : ℕ) : Turn R → Prop
  | .mergeable next => next.Sound target
  | _ => True

theorem advance_joined {previous joined : PendingGroup R} (h : previous.append next = some joined) :
    advance (some previous) (.mergeable next) = ⟨none, none, some joined⟩ := by
  simp [advance, h]

theorem advance_refused {previous : PendingGroup R} (h : previous.append next = none) :
    advance (some previous) (.mergeable next) =
      ⟨some (previous, next.window.window.startMs), none, some next⟩ := by
  simp [advance, h]

theorem advance_spec {pending : Option (PendingGroup R)} {τ : Turn R}
    (hp : ∀ p ∈ pending, p.Sound target) (hτ : τ.Sound target) :
    (∀ c ∈ (advance pending τ).closed, c.1 ∈ pending) ∧
    (∀ p ∈ (advance pending τ).pending, p.Sound target) ∧ pendingSources pending ++ τ.sources =
      (advance pending τ).closed.toList.flatMap (fun c => c.1.sources) ++
        (advance pending τ).alone.toList ++ pendingSources (advance pending τ).pending := by
  cases τ with
  | skipped => exact ⟨by simp [advance], hp, by simp [advance, Turn.sources]⟩
  | unlocalized => cases pending <;> simp [advance, pendingSources, Turn.sources]
  | outsideRecording span fault => cases pending <;> simp [advance, pendingSources, Turn.sources]
  | unmerged source => cases pending <;> simp [advance, pendingSources, Turn.sources]
  | mergeable next =>
    cases pending with
    | none =>
      refine ⟨by simp [advance], ?_, by simp [advance, pendingSources, Turn.sources]⟩
      intro p hmem
      cases Option.mem_some_iff.mp hmem
      exact hτ
    | some previous =>
      cases happ : previous.append next with
      | none =>
        rw [advance_refused happ]
        refine ⟨by simp, ?_, by simp [pendingSources, Turn.sources]⟩
        intro p hmem
        cases Option.mem_some_iff.mp hmem
        exact hτ
      | some joined =>
        obtain ⟨hjoined, hsources⟩ := (hp previous rfl).append hτ happ
        rw [advance_joined happ]
        refine ⟨by simp, ?_, by simp [pendingSources, Turn.sources, hsources]⟩
        intro p hmem
        cases Option.mem_some_iff.mp hmem
        exact hjoined

section Loop
variable (env : GroupingEnv) (target : ℕ)

/-- The source an utterance contributes: localized speech of the recording with a word to align. -/
def admittedSource (R : Recording) (utteranceIdx : ℕ) (u : Utterance) : Option (SourceSlice R) :=
  if asksForTiming env utteranceIdx u then
    match localizedFromSource env utteranceIdx u (faWordsOf env utteranceIdx u) with
    | none => none
    | some (span, _) =>
      match FaWindow.within R span.startMs span.endMs with
      | .ok window => some ⟨utteranceIdx, faWordsOf env utteranceIdx u, window⟩
      | .error _ => none
  else none

def localizedStart (utteranceIdx : ℕ) (u : Utterance) : Option ℕ :=
  if asksForTiming env utteranceIdx u then
    (localizedFromSource env utteranceIdx u (faWordsOf env utteranceIdx u)).map fun (span, _) => span.startMs
  else none

def localizedStarts (entries : List (ℕ × ℕ × Utterance)) : List (ℕ × ℕ) :=
  entries.filterMap fun (_, utteranceIdx, u) =>
    (localizedStart env utteranceIdx u).map fun startMs => (utteranceIdx, startMs)

theorem turn_spec (utteranceIdx : ℕ) (u : Utterance) : (turn env R target utteranceIdx u).Sound target ∧
      (turn env R target utteranceIdx u).sources = (admittedSource env R utteranceIdx u).toList := by
  unfold turn admittedSource
  split_ifs with hasks
  · cases hloc : localizedFromSource env utteranceIdx u (faWordsOf env utteranceIdx u) with
    | none => exact ⟨trivial, rfl⟩
    | some found =>
      obtain ⟨span, localization⟩ := found
      simp only
      cases hturn : GroupWindow.forMerge R target utteranceIdx (faWordsOf env utteranceIdx u) span with
      | mergeable next =>
        obtain ⟨hsound, window, hsources, hstart, hwindow⟩ := PendingGroup.Sound.of_forMerge hturn
        refine ⟨hsound, ?_⟩
        unfold GroupWindow.forMerge at hturn
        split at hturn
        · cases hturn
        · next w hw =>
          split at hturn
          · cases hturn
          · cases hturn
            simp [hw, Turn.sources]
      | _ =>
        refine ⟨trivial, ?_⟩
        unfold GroupWindow.forMerge at hturn
        split at hturn
        · cases hturn
          all_goals simp [*, Turn.sources]
        · next w hw =>
          split at hturn
          all_goals cases hturn
          all_goals simp [hw, Turn.sources]
  · exact ⟨trivial, rfl⟩

/-! ## The loop -/

variable {k : ℕ} {pending : Option (PendingGroup R)} {u : Utterance}
  {entries : List (ℕ × ℕ × Utterance)}

theorem groupFrom_cons {lineIdx : ℕ} {rest : List (ℕ × ℕ × Utterance)} {closed : List (FaGroup R)} {later : Grouping R}
    (hclosed : closeGroup (advance pending (turn env R target k u)).closed = some closed)
    (hlater : groupFrom env target (advance pending (turn env R target k u)).pending rest = some later) :
    groupFrom env target pending ((lineIdx, k, u) :: rest) =
      some ⟨closed ++ (advance pending (turn env R target k u)).alone.toList.map SourceSlice.group ++
          later.groups, turnDecisions env R target lineIdx k u ++ later.decisions⟩ := by
  simp only [groupFrom, hclosed, hlater]

variable {closed : Option (PendingGroup R × ℕ)}

theorem closeGroup_sound (h : ∀ c ∈ closed, c.1.Sound target) :
    ∃ groups, closeGroup closed = some groups ∧
      groups.flatMap FaGroup.sources = closed.toList.flatMap (fun c => c.1.sources) ∧
      ∀ g ∈ groups, g.Sound target := by
  cases closed with
  | none => exact ⟨[], rfl, rfl, by simp⟩
  | some c =>
    obtain ⟨p, nextStart⟩ := c
    obtain ⟨g, hg, hsources, _⟩ := (h (p, nextStart) rfl).finish nextStart
    refine ⟨[g], by simp [closeGroup, hg], by simp [hsources], ?_⟩
    intro g' hg'
    cases mem_singleton.mp hg'
    exact ((h (p, nextStart) rfl).closed hg).1

theorem groupFrom_sound (entries : List (ℕ × ℕ × Utterance)) (pending : Option (PendingGroup R))
    (hp : ∀ p ∈ pending, p.Sound target) :
    ∃ out, groupFrom env target pending entries = some out ∧ out.groups.flatMap FaGroup.sources =
        pendingSources pending ++ entries.filterMap (fun entry => admittedSource env R entry.2.1 entry.2.2) ∧
      ∀ g ∈ out.groups, g.Sound target := by
  induction entries generalizing pending with
  | nil =>
    have hall : ∀ c ∈ pending.map (·, R.duration), c.1.Sound target := by
      intro c hc
      obtain ⟨p, hmem, rfl⟩ := Option.mem_map.mp hc
      exact hp p hmem
    obtain ⟨groups, hgroups, hsources, hsound⟩ := closeGroup_sound target hall
    refine ⟨⟨groups, []⟩, by simp [groupFrom, hgroups], ?_, hsound⟩
    rw [hsources]
    cases pending <;> simp [pendingSources]
  | cons entry rest ih =>
    obtain ⟨lineIdx, k, u⟩ := entry
    obtain ⟨hτ, hτsources⟩ := turn_spec (R := R) env target k u
    obtain ⟨hmem, hpending, hpassed⟩ := advance_spec hp hτ
    obtain ⟨closed, hclosed, hclosedSources, hclosedSound⟩ :=
      closeGroup_sound target (fun c hc => hp c.1 (hmem c hc))
    obtain ⟨later, hlater, hlaterSources, hlaterSound⟩ := ih _ hpending
    refine ⟨_, groupFrom_cons env target hclosed hlater, ?_, ?_⟩
    · have hadmitted : ((lineIdx, k, u) :: rest).filterMap
            (fun entry => admittedSource env R entry.2.1 entry.2.2) =
          (turn env R target k u).sources ++
            rest.filterMap (fun entry => admittedSource env R entry.2.1 entry.2.2) := by
        rw [hτsources]
        cases hadm : admittedSource env R k u <;> simp [hadm]
      rw [hadmitted, ← append_assoc, hpassed]
      have halone : ((advance pending (turn env R target k u)).alone.toList.map SourceSlice.group).flatMap
            FaGroup.sources = (advance pending (turn env R target k u)).alone.toList := by
        cases (advance pending (turn env R target k u)).alone <;> simp [SourceSlice.group]
      simp [hclosedSources, halone, hlaterSources]
    · intro g hg
      obtain hg | hg := mem_append.mp hg
      · obtain hg | hg := mem_append.mp hg
        · exact hclosedSound g hg
        · obtain ⟨s, _, rfl⟩ := mem_map.mp hg
          exact (s.group_sound target).1
      · exact hlaterSound g hg

/-! ## The padding -/

/-- No group reaches past a later localized utterance that begins at or after its unpadded end. -/
def PaddingClear (groups : List (FaGroup R)) (localized : List (ℕ × ℕ)) : Prop :=
  ∀ g ∈ groups, ∀ l ∈ localized, (∀ i ∈ g.utteranceIndices, i < l.1) →
    g.unpaddedEnd ≤ l.2 → g.window.endMs ≤ l.2

/-- A later utterance begins no nearer the group's end than half the gap, the padding cap, or the room to the
  limit. -/
def PendingGroup.LeavesRoom (p : PendingGroup R) (nextStart : ℕ) (later : List (ℕ × ℕ)) : Prop :=
  ∀ l ∈ later, p.window.window.endMs ≤ l.2 →
    (nextStart - p.window.window.endMs) / 2 ≤ l.2 - p.window.window.endMs ∨
    trailingGapExtensionMs ≤ l.2 - p.window.window.endMs ∨
    p.window.endLimit - p.window.window.endMs ≤ l.2 - p.window.window.endMs

def ClosingsLeaveRoom : Option (PendingGroup R) → List (ℕ × ℕ × Utterance) → Prop
  | _, [] => True
  | pending, (lineIdx, k, u) :: rest =>
    (∀ c ∈ (advance pending (turn env R target k u)).closed,
      c.1.LeavesRoom c.2 (localizedStarts env ((lineIdx, k, u) :: rest))) ∧
    ClosingsLeaveRoom (advance pending (turn env R target k u)).pending rest

theorem paddingClear_append (a b : List (FaGroup R)) (localized : List (ℕ × ℕ)) :
    PaddingClear (a ++ b) localized ↔ PaddingClear a localized ∧ PaddingClear b localized := by
  unfold PaddingClear
  simp only [mem_append, or_imp, forall_and]

theorem paddingClear_alone (alone : List (SourceSlice R)) (localized : List (ℕ × ℕ)) :
    PaddingClear (alone.map SourceSlice.group) localized := by
  intro g hg l _ _ hend
  obtain ⟨s, _, rfl⟩ := mem_map.mp hg
  exact hend

theorem paddingClear_closed_iff {groups : List (FaGroup R)}
    {localized : List (ℕ × ℕ)} (h : ∀ c ∈ closed, c.1.Sound target)
    (hgroups : closeGroup closed = some groups)
    (hlater : ∀ c ∈ closed, ∀ s ∈ c.1.sources, ∀ l ∈ localized, s.utterance < l.1) :
    PaddingClear groups localized ↔ ∀ c ∈ closed, c.1.LeavesRoom c.2 localized := by
  cases closed with
  | none =>
    cases hgroups
    simp [PaddingClear]
  | some c =>
    obtain ⟨p, nextStart⟩ := c
    have hsound : p.Sound target := h (p, nextStart) rfl
    obtain ⟨g, hg, _⟩ := hsound.finish nextStart
    obtain ⟨_, hsources, hunpadded, hend⟩ := hsound.closed hg
    simp only [closeGroup, hg, Option.map_some, Option.some.injEq] at hgroups
    subst hgroups
    have hbefore : ∀ l ∈ localized, ∀ i ∈ g.utteranceIndices, i < l.1 := by
      intro l hl i hi
      obtain ⟨s, hs, rfl⟩ := mem_map.mp hi
      rw [hsources] at hs
      exact hlater (p, nextStart) rfl s hs l hl
    constructor
    · intro hclear c hc l hl hle
      cases Option.mem_some_iff.mp hc
      have hreach := hclear g (mem_singleton.mpr rfl) l hl (hbefore l hl) (by rw [hunpadded]; exact hle)
      dsimp only at hle ⊢
      omega
    · intro hroom g' hg' l hl _ hle
      cases mem_singleton.mp hg'
      rw [hunpadded] at hle
      have hleft := hroom (p, nextStart) rfl l hl hle
      simp only at hleft
      omega

theorem advance_pending {τ : Turn R} (hp : ∀ p ∈ pending, p.Sound target)
    (hτ : τ.Sound target) {p' : PendingGroup R} (hp' : p' ∈ (advance pending τ).pending) :
    (τ = .skipped ∧ p' ∈ pending) ∨ ∃ s ∈ τ.sources, s ∈ p'.sources := by
  cases τ with
  | skipped => exact Or.inl ⟨rfl, hp'⟩
  | unlocalized => cases hp'
  | outsideRecording span fault => cases hp'
  | unmerged source => cases hp'
  | mergeable next =>
    right
    obtain ⟨s, hs, _⟩ := PendingGroup.Sound.attained hτ
    refine ⟨s, hs, ?_⟩
    cases pending with
    | none =>
      cases Option.mem_some_iff.mp hp'
      exact hs
    | some previous =>
      cases happ : previous.append next with
      | none =>
        rw [advance_refused happ] at hp'
        cases Option.mem_some_iff.mp hp'
        exact hs
      | some joined =>
        rw [advance_joined happ] at hp'
        cases Option.mem_some_iff.mp hp'
        rw [((hp previous rfl).append hτ happ).2]
        exact mem_append_right _ hs

theorem utterance_of_mem_turn {s : SourceSlice R}
    (hs : s ∈ (turn env R target k u).sources) : s.utterance = k := by
  rw [(turn_spec env target k u).2, Option.mem_toList] at hs
  unfold admittedSource at hs
  split_ifs at hs
  split at hs
  · cases hs
  · split at hs
    · cases hs
      rfl
    · cases hs

theorem turn_ne_skipped {startMs : ℕ} (h : localizedStart env k u = some startMs) :
    turn env R target k u ≠ .skipped := by
  unfold localizedStart at h
  split_ifs at h with hasks
  obtain ⟨⟨span, localization⟩, hloc, _⟩ := Option.map_eq_some_iff.mp h
  unfold turn
  rw [if_pos hasks, hloc]
  simp only [GroupWindow.forMerge]
  split
  · simp
  · split <;> simp

theorem groupFrom_reaches {out : Grouping R} (hp : ∀ p ∈ pending, p.Sound target) (lo : ℕ) (hlo : ∀ e ∈ entries, lo ≤ e.2.1)
    (hout : groupFrom env target pending entries = some out) :
    ∀ g ∈ out.groups, (∃ p ∈ pending, ∀ s ∈ p.sources, s ∈ g.sources) ∨
      ∃ i ∈ g.utteranceIndices, lo ≤ i := by
  induction entries generalizing pending out with
  | nil =>
    intro g hg
    cases pending with
    | none =>
      cases hout
      cases hg
    | some p =>
      obtain ⟨g', hg', hsources, _⟩ := (hp p rfl).finish R.duration
      simp only [groupFrom, closeGroup, Option.map_some, hg', Option.some.injEq] at hout
      subst hout
      cases mem_singleton.mp hg
      left
      refine ⟨p, rfl, ?_⟩
      intro s hs
      rw [hsources]
      exact hs
  | cons entry rest ih =>
    obtain ⟨lineIdx, k, u⟩ := entry
    obtain ⟨hτ, _⟩ := turn_spec (R := R) env target k u
    obtain ⟨hmem, hpending, hpassed⟩ := advance_spec hp hτ
    obtain ⟨closed, hclosed, _⟩ := closeGroup_sound target (fun c hc => hp c.1 (hmem c hc))
    obtain ⟨later, hlater, _⟩ := groupFrom_sound env target rest _ hpending
    rw [groupFrom_cons env target hclosed hlater] at hout
    cases hout
    have hk : lo ≤ k := hlo (lineIdx, k, u) (by simp)
    intro g hg
    obtain hg | hg := mem_append.mp hg
    · obtain hg | hg := mem_append.mp hg
      · -- the group closed here is the one that was pending
        left
        cases hc : (advance pending (turn env R target k u)).closed with
        | none =>
          rw [hc] at hclosed
          cases hclosed
          cases hg
        | some c =>
          obtain ⟨p, nextStart⟩ := c
          have hpm : p ∈ pending := hmem (p, nextStart) hc
          obtain ⟨g', hg', hsources, _⟩ := (hp p hpm).finish nextStart
          rw [hc] at hclosed
          simp only [closeGroup, hg', Option.map_some, Option.some.injEq] at hclosed
          subst hclosed
          cases mem_singleton.mp hg
          refine ⟨p, hpm, ?_⟩
          intro s hs
          rw [hsources]
          exact hs
      · right
        obtain ⟨s, hs, rfl⟩ := mem_map.mp hg
        have hsource : s ∈ (turn env R target k u).sources := by
          cases hturn : turn env R target k u with
          | unmerged source =>
            rw [hturn] at hs
            exact hs
          | mergeable next =>
            -- a mergeable utterance leaves nobody alone
            rw [hturn] at hs
            cases pending with
            | none => cases hs
            | some previous =>
              cases happ : previous.append next with
              | none =>
                rw [advance_refused happ] at hs
                cases hs
              | some joined =>
                rw [advance_joined happ] at hs
                cases hs
          | _ =>
            rw [hturn] at hs
            cases hs
        refine ⟨s.utterance, by simp [SourceSlice.group, FaGroup.utteranceIndices], ?_⟩
        rw [utterance_of_mem_turn env target hsource]
        exact hk
    · obtain ⟨p', hp', hall⟩ | hright := ih hpending (fun e he => hlo e (by simp [he])) hlater g hg
      · obtain ⟨_, hsame⟩ | ⟨s, hs, hsp⟩ := advance_pending target hp hτ hp'
        · exact Or.inl ⟨p', hsame, hall⟩
        · right
          refine ⟨s.utterance, mem_map_of_mem (hall s hsp), ?_⟩
          rw [utterance_of_mem_turn env target hs]
          exact hk
      · exact Or.inr hright

theorem localizedStarts_cons (lineIdx k : ℕ) (u : Utterance) (rest : List (ℕ × ℕ × Utterance)) :
    localizedStarts env ((lineIdx, k, u) :: rest) =
      ((localizedStart env k u).map fun startMs => (k, startMs)).toList ++ localizedStarts env rest := by
  unfold localizedStarts
  cases h : localizedStart env k u <;> simp [h]

theorem mem_localizedStarts {l : ℕ × ℕ}
    (h : l ∈ localizedStarts env entries) : ∃ e ∈ entries, e.2.1 = l.1 := by
  obtain ⟨⟨lineIdx, k, u⟩, he, hl⟩ := mem_filterMap.mp h
  obtain ⟨startMs, _, rfl⟩ := Option.map_eq_some_iff.mp hl
  exact ⟨_, he, rfl⟩

theorem padding_clear_iff {out : Grouping R} (hp : ∀ p ∈ pending, p.Sound target)
    (hsorted : entries.Pairwise fun a b => a.2.1 < b.2.1)
    (hbefore : ∀ s ∈ pendingSources pending, ∀ e ∈ entries, s.utterance < e.2.1)
    (hout : groupFrom env target pending entries = some out) :
    PaddingClear out.groups (localizedStarts env entries) ↔
      ClosingsLeaveRoom env target pending entries := by
  induction entries generalizing pending out with
  | nil => simp [PaddingClear, ClosingsLeaveRoom, localizedStarts]
  | cons entry rest ih =>
    obtain ⟨lineIdx, k, u⟩ := entry
    obtain ⟨hτ, _⟩ := turn_spec (R := R) env target k u
    obtain ⟨hmem, hpending, hpassed⟩ := advance_spec hp hτ
    obtain ⟨closed, hclosed, _⟩ := closeGroup_sound target (fun c hc => hp c.1 (hmem c hc))
    obtain ⟨later, hlater, _⟩ := groupFrom_sound env target rest _ hpending
    rw [groupFrom_cons env target hclosed hlater] at hout
    cases hout
    obtain ⟨hhead, htail⟩ := pairwise_cons.mp hsorted
    -- what is pending after this round is all earlier than the rest
    have hbefore' : ∀ s ∈ pendingSources (advance pending (turn env R target k u)).pending, ∀ e ∈ rest,
        s.utterance < e.2.1 := by
      intro s hs e he
      have hmem' : s ∈ pendingSources pending ++ (turn env R target k u).sources := by
        rw [hpassed]
        exact mem_append_right _ hs
      obtain hs | hs := mem_append.mp hmem'
      · exact hbefore s hs e (by simp [he])
      · rw [utterance_of_mem_turn env target hs]
        exact hhead e he
    have hclosedIff : PaddingClear closed (localizedStarts env ((lineIdx, k, u) :: rest)) ↔
        ∀ c ∈ (advance pending (turn env R target k u)).closed,
          c.1.LeavesRoom c.2 (localizedStarts env ((lineIdx, k, u) :: rest)) := by
      apply paddingClear_closed_iff target (fun c hc => hp c.1 (hmem c hc)) hclosed
      intro c hc s hs l hl
      obtain ⟨e, he, hel⟩ := mem_localizedStarts env hl
      rw [← hel]
      apply hbefore s _ e he
      exact mem_flatMap.mpr ⟨c.1, Option.mem_toList.mpr (hmem c hc), hs⟩
    -- no later group is before the utterance just read
    have hlaterIff : PaddingClear later.groups (localizedStarts env ((lineIdx, k, u) :: rest)) ↔
        PaddingClear later.groups (localizedStarts env rest) := by
      rw [localizedStarts_cons]
      constructor
      · intro h g hg l hl
        exact h g hg l (mem_append_right _ hl)
      · intro h g hg l hl hlt
        obtain hl | hl := mem_append.mp hl
        · exfalso
          obtain ⟨startMs, hloc, rfl⟩ := Option.map_eq_some_iff.mp (Option.mem_toList.mp hl)
          have hreach := groupFrom_reaches env target hpending (k + 1) (fun e he => hhead e he) hlater g hg
          obtain ⟨p', hp', hall⟩ | ⟨i, hi, hki⟩ := hreach
          · obtain ⟨hskip, _⟩ | ⟨s, hs, hsp⟩ := advance_pending target hp hτ hp'
            · exact turn_ne_skipped env target hloc hskip
            · have hlt' := hlt s.utterance (mem_map_of_mem (hall s hsp))
              rw [utterance_of_mem_turn env target hs] at hlt'
              exact lt_irrefl k hlt'
          · have hlt' := hlt i hi
            omega
        · exact h g hg l hl hlt
    rw [paddingClear_append, paddingClear_append, hclosedIff, hlaterIff, ih hpending htail hbefore' hlater]
    simp [paddingClear_alone, ClosingsLeaveRoom]

/-- The groups hold the words of the admitted utterances in file order, each once; windows lie inside the
  recording and contain their utterances'; a group of two or more stays within target and cap. -/
structure Grouped (R : Recording) (file : ChatFile) (groups : List (FaGroup R)) : Prop where
  words : groups.flatMap FaGroup.words =
    ((utterancesIndexed file).filterMap fun e => admittedSource env R e.2.1 e.2.2).flatMap SourceSlice.words
  utterances : groups.flatMap FaGroup.utteranceIndices =
    ((utterancesIndexed file).filterMap fun e => admittedSource env R e.2.1 e.2.2).map SourceSlice.utterance
  once : (groups.flatMap FaGroup.utteranceIndices).Nodup
  inside : ∀ g ∈ groups, g.window.endMs ≤ R.duration
  contains : ∀ g ∈ groups, ∀ s ∈ g.sources,
    g.window.startMs ≤ s.window.startMs ∧ s.window.endMs ≤ g.window.endMs
  bounded : ∀ g ∈ groups, 2 ≤ g.sources.length →
    g.window.len ≤ target ∧ labelBytesTotal g.words ≤ maxGroupLabelBytes

theorem admitted_utterances_nodup (R : Recording) (file : ChatFile) :
    (((utterancesIndexed file).filterMap fun e => admittedSource env R e.2.1 e.2.2).map
      SourceSlice.utterance).Nodup := by
  have hutterance : ∀ (k : ℕ) (u : Utterance) (s : SourceSlice R),
      admittedSource env R k u = some s → s.utterance = k := by
    intro k u s hs
    apply utterance_of_mem_turn env 0 (u := u)
    rw [(turn_spec env 0 k u).2, hs]
    exact mem_singleton.mpr rfl
  apply Pairwise.imp ne_of_lt
  apply pairwise_map.mpr
  apply (utterancesFrom_ordinals_sorted file 0 0).1.filterMap
  intro a b hab s hs s' hs'
  rw [hutterance _ _ s hs, hutterance _ _ s' hs']
  exact hab

end Loop

/-- `group_with_policy` returns such groups; the padding keeps clear of every later localized utterance
  exactly when every closing leaves room. -/
theorem groupWithPolicy_padding_clear_iff (env : GroupingEnv) (R : Recording) (target : ℕ) (file : ChatFile) :
    ∃ out, groupWithPolicy env R target file = some out ∧ Grouped env target R file out.groups ∧
      (PaddingClear out.groups (localizedStarts env (utterancesIndexed file)) ↔
        ClosingsLeaveRoom (R := R) env target none (utterancesIndexed file)) := by
  obtain ⟨out, hout, hsources, hsound⟩ :=
    groupFrom_sound (R := R) env target (utterancesIndexed file) none (by simp)
  have hutterances : out.groups.flatMap FaGroup.utteranceIndices =
      ((utterancesIndexed file).filterMap fun e => admittedSource env R e.2.1 e.2.2).map
        SourceSlice.utterance := by
    rw [show out.groups.flatMap FaGroup.utteranceIndices =
      (out.groups.flatMap FaGroup.sources).map SourceSlice.utterance by
        rw [map_flatMap]; rfl, hsources]
    rfl
  refine ⟨out, hout, ⟨?_, hutterances, ?_, ?_, ?_, ?_⟩, ?_⟩
  · rw [show out.groups.flatMap FaGroup.words =
      (out.groups.flatMap FaGroup.sources).flatMap SourceSlice.words by
        rw [flatMap_assoc]; rfl, hsources]
    rfl
  · rw [hutterances]
    exact admitted_utterances_nodup env R file
  · intro g _
    exact g.window.inside
  · intro g hg
    exact (hsound g hg).contains
  · intro g hg
    exact (hsound g hg).bounded
  · exact padding_clear_iff env target (by simp) (utterancesFrom_ordinals_sorted file 0 0).1
      (by simp [pendingSources]) hout

def unlocatedBetweenFile : ChatFile :=
  [.utterance ⟨"CHI", [], some (.parsed ⟨0, 1000⟩), [.word ⟨"one", none⟩], [], []⟩,
   .utterance ⟨"MOT", [], none, [.word ⟨"two", none⟩], [], []⟩,
   .utterance ⟨"CHI", [], some (.parsed ⟨1100, 2000⟩), [.word ⟨"three", none⟩], [], []⟩]

def noAnchors : GroupingEnv where
  walker := .unconditional
  domain := ⟨fun _ => true, fun w => [w.text]⟩
  searchWindow _ _ := none

def hundredSeconds : Recording := ⟨100000, by decide, by decide⟩

/-- The untimed utterance closes the first group at the recording's end; its padding covers the third's start.
  -/
theorem padding_covers_later_utterance :
    ∃ out, groupWithPolicy noAnchors hundredSeconds 15000 unlocatedBetweenFile = some out ∧
      ¬ PaddingClear out.groups (localizedStarts noAnchors (utterancesIndexed unlocatedBetweenFile)) := by
  refine ⟨_, rfl, ?_⟩
  intro h
  have hreach := h _ (mem_cons_self ..) (2, 1100) (by decide) (by decide) (by decide)
  revert hreach
  decide


end Batchalign.Fa
