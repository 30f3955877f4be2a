import Batchalign.Compare.Engine

/- Main morphology projected onto the gold (`compare/materialize.rs`, `diff/preserve.rs`). A gold
   utterance takes the tiers of the one main utterance that matches it, or a `%mor` tier of the matched
   items. -/
namespace Batchalign.Compare
open Morphosyntax

variable {M T : Type} (C : Chatter M T)

inductive TierKind where
  | mor
  | gra
  | wor

def tierMatches (tier : DependentTier M T) (kinds : List TierKind) : Bool :=
  kinds.any fun kind => match kind, tier with
    | .mor, .mor _ | .gra, .gra _ | .wor, .wor _ => true
    | _, _ => false

def ChatFile.changeTiers (file : ChatFile M T) (utterance : ℕ)
    (f : List (DependentTier M T) → List (DependentTier M T)) : ChatFile M T :=
  { file with utterances := file.utterances.modify utterance fun utt =>
      { utt with dependentTiers := f utt.dependentTiers } }

def copyDependentTiers (before : ChatFile M T) (beforeIdx : ℕ) (after : ChatFile M T)
    (afterIdx : ℕ) (kinds : List TierKind) : ChatFile M T :=
  let tiersToCopy := match before.utterances[beforeIdx]? with
    | some utt => utt.dependentTiers.filter (tierMatches · kinds)
    | none => []
  after.changeTiers afterIdx fun tiers => tiersToCopy.foldl C.replaceOrAddTier tiers

/-- `extract::extract_words` in the `%mor` domain -/
def extractWords (file : ChatFile M T) : List (List ExtractedWord) :=
  file.utterances.map fun utt => collectUtteranceContent utt.words

def comparedWordCounts (utts : List (List ExtractedWord)) : List ℕ :=
  utts.map fun words => (words.filter fun word => !isPunctOrFiller C word.text).length

def alignableWordCounts (utts : List (List ExtractedWord)) : List ℕ := utts.map List.length

def Utterance.morItems (utt : Utterance M T) : List (Mor M) :=
  match utt.morTier with
  | some mor => mor.items
  | none => []

def collectMorItems (file : ChatFile M T) : List (List (Mor M)) :=
  file.utterances.map Utterance.morItems

def ComparisonBundle.matchesOf (bundle : ComparisonBundle) (gold : ℕ) : List GoldWordMatch :=
  bundle.goldWordMatches.filter fun item => item.goldUtteranceIndex = gold

def GoldWordMatch.mainPair (item : GoldWordMatch) : ℕ × ℕ :=
  (item.mainUtteranceIndex, item.mainWordPosition)

def exactProjectionSource (bundle : ComparisonBundle) (gold : ℕ)
    (mainCompared goldCompared mainAlignable goldAlignable : List ℕ) : Option ℕ := do
  let goldWordCount ← goldCompared[gold]?
  guard (goldWordCount ≠ 0)
  let matched := bundle.matchesOf gold
  guard (matched.length = goldWordCount)
  guard ((matched.map (·.goldWordPosition)).dedup.length = goldWordCount)
  guard ((matched.map GoldWordMatch.mainPair).dedup.length = goldWordCount)
  let mainUtterances := (matched.map (·.mainUtteranceIndex)).dedup
  guard (mainUtterances.length = 1)
  let main ← mainUtterances.head?
  guard (mainCompared[main]? = some goldWordCount)
  guard (mainAlignable[main]? = goldAlignable[gold]?)
  let goldTokens ← bundle.goldUtterances[gold]?
  guard (goldTokens.tokens.all fun token => token.status = .matched)
  return main

/-- One match puts the item at the main word's compared position in the gold word's place. -/
def projectItem (mainMorItems : List (List (Mor M))) (projected : List (Option (Mor M)))
    (item : GoldWordMatch) : Option (List (Option (Mor M))) := do
  let items ← mainMorItems[item.mainUtteranceIndex]?
  let mor ← items[item.mainWordPosition]?
  guard (item.goldWordPosition < projected.length)
  return projected.set item.goldWordPosition (some mor)

def ownItems (goldItems : Option (List (Mor M))) (goldWordCount : ℕ) : List (Option (Mor M)) :=
  match goldItems.filter (·.length = goldWordCount) with
  | some items => items.map some
  | none => List.replicate goldWordCount none

theorem length_ownItems (goldItems : Option (List (Mor M))) (n : ℕ) :
    (ownItems goldItems n).length = n := by
  unfold ownItems
  cases h : goldItems.filter (·.length = n) with
  | none => simp
  | some items =>
    simp only [Option.filter_eq_some_iff, decide_eq_true_eq] at h
    simpa using h.2

def buildProjectedMorTier (bundle : ComparisonBundle) (gold goldWordCount : ℕ)
    (mainMorItems goldMorItems : List (List (Mor M))) (goldTerminators : List (Option String)) :
    Option (MorTier M T) := do
  guard (goldWordCount ≠ 0)
  let matched := bundle.matchesOf gold
  guard (matched ≠ [])
  guard ((matched.map (·.goldWordPosition)).dedup.length = goldWordCount)
  guard ((matched.map GoldWordMatch.mainPair).dedup.length = matched.length)
  let filled ← matched.foldlM (projectItem mainMorItems) (ownItems goldMorItems[gold]? goldWordCount)
  let items ← filled.mapM id
  let rawTerminator ← goldTerminators[gold]?.join
  let terminator ← C.tryFromChatStr (C.trim rawTerminator)
  return ⟨items, terminator⟩

def exactSource (main gold : ChatFile M T) (bundle : ComparisonBundle) (g : ℕ) : Option ℕ :=
  exactProjectionSource bundle g (comparedWordCounts C (extractWords main))
    (comparedWordCounts C (extractWords gold)) (alignableWordCounts (extractWords main))
    (alignableWordCounts (extractWords gold))

def projectedMor (main gold : ChatFile M T) (bundle : ComparisonBundle) (g : ℕ) :
    Option (MorTier M T) :=
  buildProjectedMorTier C bundle g (comparedWordCounts C (extractWords gold))[g]!
    (collectMorItems main) (collectMorItems gold) (collectUtteranceTerminators C gold)

def projectUtterance (main gold : ChatFile M T) (bundle : ComparisonBundle)
    (projected : ChatFile M T) (g : ℕ) : ChatFile M T :=
  match exactSource C main gold bundle g with
  | some m => copyDependentTiers C main m projected g [.mor, .gra, .wor]
  | none => match projectedMor C main gold bundle g with
    | some mor => projected.changeTiers g fun tiers => C.replaceOrAddTier tiers (.mor mor)
    | none => projected

def projectGoldStructurally (main gold : ChatFile M T) (bundle : ComparisonBundle) : ChatFile M T :=
  (List.range (extractWords gold).length).foldl (projectUtterance C main gold bundle) gold

end Batchalign.Compare
