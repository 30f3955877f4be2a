import Batchalign.Compare.Conform

/- The scores of a comparison (`compare/{metrics,language,model}.rs`), counted by part of speech and by
   language. A `BTreeMap` is the list of its entries in the order of their first use. The rates are left
   out. -/
namespace Batchalign.Compare
open DpAlign

/-- `entry(key).or_default()`, changed by `f`. -/
def changeEntry {K V : Type} [DecidableEq K] [Inhabited V] (key : K) (f : V → V) :
    List (K × V) → List (K × V)
  | [] => [(key, f default)]
  | (k, v) :: rest => if k = key then (k, f v) :: rest else (k, v) :: changeEntry key f rest

inductive CompareStatus where
  | matched
  | extraMain
  | extraGold
  deriving DecidableEq

structure CompareToken where
  text : String
  pos : Option String
  status : CompareStatus

inductive InsertionSite (W : Type) where
  | beforeGold (next : W)
  | betweenGoldWords (previous next : W)
  | afterGold (previous : W)

inductive SiteUtterances where
  | within (utterance : ℕ)
  | across (before after : ℕ)

def InsertionSite.owner {W : Type} : InsertionSite W → W
  | .beforeGold next | .betweenGoldWords _ next => next
  | .afterGold previous => previous

def InsertionSite.map {V W : Type} (view : W → V) : InsertionSite W → InsertionSite V
  | .beforeGold next => .beforeGold (view next)
  | .betweenGoldWords previous next => .betweenGoldWords (view previous) (view next)
  | .afterGold previous => .afterGold (view previous)

/-- `InsertionSite::utterances`, where `goldUtterance` is the utterance of a gold word. -/
def InsertionSite.utterances {W : Type} (goldUtterance : W → ℕ) : InsertionSite W → SiteUtterances
  | .beforeGold next => .within (goldUtterance next)
  | .afterGold previous => .within (goldUtterance previous)
  | .betweenGoldWords previous next =>
    let before := goldUtterance previous
    let after := goldUtterance next
    if before = after then .within before else .across before after

inductive InsertionAttribution where
  | inGold (site : InsertionSite LanguagedWord)
  | noGoldWords

inductive WordEvidence where
  | matched (gold : LanguagedWord) (main : WordLanguage)
  | insertion (attribution : InsertionAttribution)
  | deletion (gold : LanguagedWord)

structure ScoredWord where
  token : CompareToken
  evidence : WordEvidence

def ScoredWord.matched (text : String) (pos : Option String) (gold : LanguagedWord)
    (main : WordLanguage) : ScoredWord :=
  ⟨⟨text, pos, .matched⟩, .matched gold main⟩

def ScoredWord.inserted (text : String) (pos : Option String) (attribution : InsertionAttribution) :
    ScoredWord :=
  ⟨⟨text, pos, .extraMain⟩, .insertion attribution⟩

def ScoredWord.deleted (text : String) (pos : Option String) (gold : LanguagedWord) : ScoredWord :=
  ⟨⟨text, pos, .extraGold⟩, .deletion gold⟩

structure LanguageErrorCounts where
  matched : ℕ := 0
  substitutions : ℕ := 0
  deletions : ℕ := 0
  insertions : ℕ := 0
  deriving Inhabited

structure LanguagePair where
  gold : LanguageBucket
  main : LanguageBucket
  deriving DecidableEq

abbrev LanguageConfusion := List (LanguagePair × ℕ)

def LanguageConfusion.record (counts : LanguageConfusion) (gold main : LanguageBucket) :
    LanguageConfusion :=
  changeEntry ⟨gold, main⟩ (· + 1) counts

structure UtteranceLanguageAgreement where
  placed : LanguageConfusion := []
  unplaced : List (LanguageBucket × ℕ) := []

structure SwitchAgreement where
  bothSwitched : ℕ := 0
  goldOnly : ℕ := 0
  mainOnly : ℕ := 0
  neither : ℕ := 0

def SwitchAgreement.record (s : SwitchAgreement) (gold main : WordLanguage) : SwitchAgreement :=
  match gold.role, main.role with
  | .switched, .switched => { s with bothSwitched := s.bothSwitched + 1 }
  | .switched, .utteranceLanguage => { s with goldOnly := s.goldOnly + 1 }
  | .utteranceLanguage, .switched => { s with mainOnly := s.mainOnly + 1 }
  | .utteranceLanguage, .utteranceLanguage => { s with neither := s.neither + 1 }

structure LanguageScores where
  byLanguage : List (LanguageBucket × LanguageErrorCounts) := []
  unattributedInsertions : ℕ := 0
  utterances : UtteranceLanguageAgreement := {}
  words : LanguageConfusion := []
  switches : SwitchAgreement := {}

inductive PendingInsertion where
  | attributed (language : LanguageBucket)
  | unattributed

structure OpenGap where
  deletions : List LanguageBucket := []
  insertions : List PendingInsertion := []

structure LanguageTally where
  scores : LanguageScores := {}
  gap : OpenGap := {}

def LanguageScores.changeCounts (s : LanguageScores) (language : LanguageBucket)
    (f : LanguageErrorCounts → LanguageErrorCounts) : LanguageScores :=
  { s with byLanguage := changeEntry language f s.byLanguage }

def LanguageScores.chargeInsertion (s : LanguageScores) : PendingInsertion → LanguageScores
  | .attributed language => s.changeCounts language fun c => { c with insertions := c.insertions + 1 }
  | .unattributed => { s with unattributedInsertions := s.unattributedInsertions + 1 }

/-- The gap's deletions and insertions pair in order; the rest of either stay what they are. -/
def LanguageTally.closeGap (t : LanguageTally) : LanguageTally :=
  let paired := min t.gap.deletions.length t.gap.insertions.length
  let substituted := (t.gap.deletions.take paired).foldl (fun s language =>
    s.changeCounts language fun c => { c with substitutions := c.substitutions + 1 }) t.scores
  let deleted := (t.gap.deletions.drop paired).foldl (fun s language =>
    s.changeCounts language fun c => { c with deletions := c.deletions + 1 }) substituted
  ⟨(t.gap.insertions.drop paired).foldl LanguageScores.chargeInsertion deleted, {}⟩

def LanguageTally.matched (t : LanguageTally) (gold main : WordLanguage) : LanguageTally :=
  let closed := t.closeGap
  let counted := closed.scores.changeCounts gold.language fun c => { c with matched := c.matched + 1 }
  { closed with scores := { counted with
      words := counted.words.record gold.language main.language
      switches := counted.switches.record gold main } }

def LanguageTally.deleted (t : LanguageTally) (gold : WordLanguage) : LanguageTally :=
  { t with gap := { t.gap with deletions := t.gap.deletions ++ [gold.language] } }

def LanguageTally.inserted (t : LanguageTally) (attribution : InsertionAttribution) : LanguageTally :=
  let pending := match attribution with
    | .inGold site => PendingInsertion.attributed site.owner.language.language
    | .noGoldWords => .unattributed
  { t with gap := { t.gap with insertions := t.gap.insertions ++ [pending] } }

def LanguageTally.placedUtterance (t : LanguageTally) (gold main : LanguageBucket) : LanguageTally :=
  { t with scores := { t.scores with utterances := { t.scores.utterances with
      placed := t.scores.utterances.placed.record gold main } } }

def LanguageTally.unplacedUtterance (t : LanguageTally) (gold : LanguageBucket) : LanguageTally :=
  { t with scores := { t.scores with utterances := { t.scores.utterances with
      unplaced := changeEntry gold (· + 1) t.scores.utterances.unplaced } } }

def LanguageTally.finish (t : LanguageTally) : LanguageScores := t.closeGap.scores

structure OpenUtterance where
  utterance : ℕ
  missing : List String
  extra : List String
  boundary : List (ℕ × String)

structure DisplacementTally where
  edits : ℕ := 0
  current : Option OpenUtterance := none

def swapRemove (position : ℕ) (words : List String) : List String :=
  match words.getLast? with
  | some last => (words.set position last).dropLast
  | none => []

/-- What is left of the missing words, where one of them is `word`. -/
def takePartner (missing : List String) (word : String) : Option (List String) :=
  (missing.findIdx? fun gold => eqIgnoreAsciiCase gold word).map fun position =>
    swapRemove position missing

def settleExtra : List String → List String → ℕ → List String × ℕ
  | [], missing, edits => (missing, edits)
  | word :: extra, missing, edits =>
    match takePartner missing word with
    | some left => settleExtra extra left edits
    | none => settleExtra extra missing (edits + 1)

def settleBoundary : List (ℕ × String) → List String → List (ℕ × String) × List String
  | [], missing => ([], missing)
  | (target, word) :: boundary, missing =>
    match takePartner missing word with
    | some left => settleBoundary boundary left
    | none =>
      let (carried, left) := settleBoundary boundary missing
      ((target, word) :: carried, left)

def DisplacementTally.settle (edits : ℕ) (utt : OpenUtterance) : ℕ × List (ℕ × String) :=
  let (missing, edits) := settleExtra utt.extra utt.missing edits
  let (carried, missing) := settleBoundary utt.boundary missing
  (edits + missing.length, carried)

/-- The open utterance is settled when the alignment comes to another one. -/
def DisplacementTally.enter (t : DisplacementTally) (utterance : ℕ) : ℕ × OpenUtterance :=
  let start (edits : ℕ) (carried : List (ℕ × String)) : ℕ × OpenUtterance :=
    (edits + (carried.filter fun c => c.1 ≠ utterance).length,
      ⟨utterance, [], (carried.filter fun c => c.1 = utterance).map (·.2), []⟩)
  match t.current with
  | some utt =>
    if utt.utterance = utterance then (t.edits, utt)
    else
      let (edits, carried) := DisplacementTally.settle t.edits utt
      start edits carried
  | none => start t.edits []

def DisplacementTally.matched (t : DisplacementTally) (utterance : ℕ) : DisplacementTally :=
  let (edits, utt) := t.enter utterance
  ⟨edits, some utt⟩

def DisplacementTally.missing (t : DisplacementTally) (utterance : ℕ) (word : String) :
    DisplacementTally :=
  let (edits, utt) := t.enter utterance
  ⟨edits, some { utt with missing := utt.missing ++ [word] }⟩

def DisplacementTally.extra (t : DisplacementTally) (site : SiteUtterances) (word : String) :
    DisplacementTally :=
  match site with
  | .within utterance =>
    let (edits, utt) := t.enter utterance
    ⟨edits, some { utt with extra := utt.extra ++ [word] }⟩
  | .across before after =>
    let (edits, utt) := t.enter before
    ⟨edits, some { utt with boundary := utt.boundary ++ [(after, word)] }⟩

def DisplacementTally.extraWithoutGold (t : DisplacementTally) : DisplacementTally :=
  { t with edits := t.edits + 1 }

def DisplacementTally.finish (t : DisplacementTally) : ℕ :=
  match t.current with
  | some utt =>
    let (edits, carried) := DisplacementTally.settle t.edits utt
    edits + carried.length
  | none => t.edits

structure PosErrorCounts where
  matched : ℕ := 0
  insertions : ℕ := 0
  deletions : ℕ := 0
  deriving Inhabited

structure MetricAccumulator where
  displacement : DisplacementTally := {}
  posCounts : List (String × PosErrorCounts) := []
  languages : LanguageTally := {}

structure CompareMetrics where
  displacementEdits : ℕ
  posCounts : List (String × PosErrorCounts)
  languages : LanguageScores

section Record
variable {M T : Type} (C : Chatter M T)

def metricPosLabel (pos : Option String) : String := C.toUppercase (pos.getD "?")

def PosErrorCounts.count (status : CompareStatus) (c : PosErrorCounts) : PosErrorCounts :=
  match status with
  | .matched => { c with matched := c.matched + 1 }
  | .extraMain => { c with insertions := c.insertions + 1 }
  | .extraGold => { c with deletions := c.deletions + 1 }

def MetricAccumulator.record (m : MetricAccumulator) (word : ScoredWord) : MetricAccumulator :=
  let counted := match word.evidence with
    | .matched gold main =>
      { m with
        displacement := m.displacement.matched gold.utterance
        languages := m.languages.matched gold.language main }
    | .insertion (.inGold site) =>
      { m with
        displacement := m.displacement.extra (site.utterances LanguagedWord.utterance)
          word.token.text
        languages := m.languages.inserted (.inGold site) }
    | .insertion .noGoldWords =>
      { m with
        displacement := m.displacement.extraWithoutGold
        languages := m.languages.inserted .noGoldWords }
    | .deletion gold =>
      { m with
        displacement := m.displacement.missing gold.utterance word.token.text
        languages := m.languages.deleted gold.language }
  let label := metricPosLabel C word.token.pos
  { counted with
    posCounts := changeEntry label (PosErrorCounts.count word.token.status) counted.posCounts }

end Record

def MetricAccumulator.placedUtterance (m : MetricAccumulator) (gold main : LanguageBucket) :
    MetricAccumulator :=
  { m with languages := m.languages.placedUtterance gold main }

def MetricAccumulator.unplacedUtterance (m : MetricAccumulator) (gold : LanguageBucket) :
    MetricAccumulator :=
  { m with languages := m.languages.unplacedUtterance gold }

def MetricAccumulator.finish (m : MetricAccumulator) : CompareMetrics :=
  ⟨m.displacement.finish, m.posCounts, m.languages.finish⟩

end Batchalign.Compare
