import Batchalign.Fa.MainBullets
import Batchalign.Fa.Windows
import Batchalign.Utr.Evidence

/- The census of one recovery pass and its regions (`fa/utr.rs`, `fa/utr/token_text.rs`,
   `fa/utr/regions.rs`). -/
namespace Batchalign.Utr
open Fa List

/-! ## Lexical units -/

structure CharClasses where
  isAlphanumeric : Char → Bool
  isWhitespace : Char → Bool
  isCjkPunctuation : Char → Bool
  isCjkIdeograph : Char → Bool

inductive UtrLexicalUnits where
  | spaceDelimitedWords
  | hanCharacters

section Units
variable (C : CharClasses)

/-- `is_lexical`, of a run of characters. -/
def isLexical (unit : List Char) : Bool := unit.any C.isAlphanumeric

/-- The lexical runs between the characters that end one; one of `single` is a unit by itself. -/
def unitsFrom (ends single : Char → Bool) : List Char → List Char → List String
  | run, [] => if isLexical C run then [String.ofList run] else []
  | run, ch :: text =>
    if ends ch then
      (if isLexical C run then [String.ofList run] else []) ++
        ((if single ch then [ch.toString] else []) ++ unitsFrom ends single [] text)
    else unitsFrom ends single (run ++ [ch]) text

def hanCharacterUnits (text : String) : List String :=
  unitsFrom C (fun ch => C.isWhitespace ch || C.isCjkPunctuation ch || C.isCjkIdeograph ch)
    C.isCjkIdeograph [] text.toList

def UtrLexicalUnits.split (text : String) : UtrLexicalUnits → List String
  | .spaceDelimitedWords => unitsFrom C C.isWhitespace (fun _ => false) [] text.toList
  | .hanCharacters => hanCharacterUnits C text

def UtrLexicalUnits.partsOf (word : String) : UtrLexicalUnits → List String
  | .spaceDelimitedWords => [word]
  | .hanCharacters => hanCharacterUnits C word

structure UtrChatUnits where
  words : List String
  units : List (String × UtrUnitOfWord)

def UtrLexicalUnits.projectWords (units : UtrLexicalUnits) (words : List String) : UtrChatUnits where
  words := words
  units := words.zipIdx.flatMap fun (word, wordIndex) =>
    (units.partsOf C word).zipIdx.map fun (text, part) => (text, ⟨wordIndex, part, (units.partsOf C word).length⟩)

def UtrChatUnits.texts (units : UtrChatUnits) : List String := units.units.map Prod.fst

end Units

structure AsrTimingToken where
  text : String
  startMs : ℕ
  endMs : ℕ

def AsrTimingToken.interval (token : AsrTimingToken) : TimeSpan := ⟨token.startMs, token.endMs⟩

structure PreparedUtrTokens where
  tokens : List AsrTimingToken
  units : UtrLexicalUnits

/-! ## The census -/

inductive OverlapRegionKind where
  | top
  | bottom
  deriving DecidableEq

structure OverlapRegion where
  kind : OverlapRegionKind
  hasBegin : Bool
  index : Option ℕ
  beginAtWord : Option ℕ

structure OnsetFraction where
  wordPos : ℕ
  totalWords : ℕ

/-- What `extract_overlap_info` of the `talkbank-model` crate reports. -/
structure OverlapInfo where
  regions : List OverlapRegion
  totalWords : ℕ
  hasBottomOverlap : Bool
  topOnsetFraction : Option OnsetFraction

structure CensusEnv where
  walker : ContentWalker
  domain : WorDomain
  chars : CharClasses
  extractOverlapInfo : List UtteranceContent → OverlapInfo

inductive GlobalUtrParticipation where
  | allUtterances
  | excludeMarkedOverlap
  deriving DecidableEq

structure UtrUtteranceInfo where
  units : UtrChatUnits
  retainedTiming : Option TimeSpan
  hasLazyOverlap : Bool
  hasCaOverlap : Bool
  overlapOnsetFraction : Option OnsetFraction
  speaker : String
  presence : RecordingPresence
  bottomIndices : List (Option ℕ)
  topOnsets : List (Option ℕ × OnsetFraction)

namespace UtrUtteranceInfo

def overlaps (info : UtrUtteranceInfo) : Bool := info.hasLazyOverlap || info.hasCaOverlap

/-- Speech so marked. -/
def isMarkedOverlap (info : UtrUtteranceInfo) : Bool :=
  match info.presence with
  | .notInRecording _ => false
  | .inRecording => info.overlaps

def excludedFrom (info : UtrUtteranceInfo) (participation : GlobalUtrParticipation) : Bool :=
  participation == .excludeMarkedOverlap && info.isMarkedOverlap

end UtrUtteranceInfo

def utterancesOf (file : ChatFile) : List Utterance := file.filterMap Line.utterance?

section Census
variable (env : CensusEnv) (units : UtrLexicalUnits)

def censusWords (u : Utterance) : List String :=
  match RecordingPresence.of u with
  | .notInRecording _ => []
  | .inRecording => collectFaWords env.walker env.domain u.content

def retainedTiming (u : Utterance) : Option TimeSpan :=
  match RecordingPresence.of u with
  | .notInRecording _ => none
  | .inRecording => u.parsedBullet

/-- One round of `collect_utr_utterance_info`. -/
def utteranceInfo (u : Utterance) : UtrUtteranceInfo where
  units := units.projectWords env.chars (censusWords env u)
  retainedTiming := retainedTiming u
  hasLazyOverlap := overlapsPreviousUtterance u
  hasCaOverlap := (env.extractOverlapInfo u.content).hasBottomOverlap
  overlapOnsetFraction := (env.extractOverlapInfo u.content).topOnsetFraction
  speaker := u.speaker
  presence := RecordingPresence.of u
  bottomIndices :=
    ((env.extractOverlapInfo u.content).regions.filter fun r => r.kind == .bottom && r.hasBegin).map OverlapRegion.index
  topOnsets :=
    ((env.extractOverlapInfo u.content).regions.filter fun r => r.kind == .top && r.hasBegin).filterMap fun r =>
      r.beginAtWord.bind fun wordPos =>
        if (env.extractOverlapInfo u.content).totalWords = 0 then none
        else some (r.index, ⟨wordPos, (env.extractOverlapInfo u.content).totalWords⟩)

def collectUtrUtteranceInfo (file : ChatFile) : List UtrUtteranceInfo :=
  (utterancesOf file).map (utteranceInfo env units)

end Census

inductive UtrOrderModel where
  | monotonic
  | interleaved
  deriving DecidableEq

/-- Interleaved when two adjacent participating turns belong to
different speakers. -/
def UtrOrderModel.of (census : List UtrUtteranceInfo) (participation : GlobalUtrParticipation) : UtrOrderModel :=
  if (census.zip census.tail).any fun (a, b) =>
      a.speaker != b.speaker && !a.excludedFrom participation && !b.excludedFrom participation
  then .interleaved else .monotonic

/-! ## Anchors -/

structure Anchor where
  index : ℕ
  timing : TimeSpan

def anchorTiming (info : UtrUtteranceInfo) : Option TimeSpan :=
  if info.overlaps then none else info.retainedTiming

def anchorCandidates (census : List UtrUtteranceInfo) : List Anchor :=
  census.zipIdx.filterMap fun (info, index) => (anchorTiming info).map fun timing => ⟨index, timing⟩

/-- One round of `anchor_chain`; a tail is kept with its chain, last anchor first. -/
def patienceStep (tails : List (List Anchor)) (candidate : Anchor) : List (List Anchor) :=
  let length := (tails.takeWhile fun chain =>
    chain.head?.all fun tail => decide (tail.timing.startMs ≤ candidate.timing.startMs)).length
  let chain := candidate :: (if length = 0 then [] else (tails[length - 1]?).getD [])
  tails.take length ++ chain :: tails.drop (length + 1)

/-- A longest chain of anchors whose starts never decrease. -/
def anchorChain (census : List UtrUtteranceInfo) : List Anchor :=
  (((anchorCandidates census).foldl patienceStep []).getLast?.getD []).reverse

/-! ## Regions -/

structure UtrRegion where
  span : UtrRegionSpan
  searchedEnd : ℕ

/-- The loop of `partition` over the anchors that follow the first utterance. -/
def regionsFrom (census : ℕ) : ℕ → UtrRegionEdge → Option ℕ → List Anchor → List UtrRegion
  | first, onsetFloor, _, [] => [⟨⟨first, census - 1, onsetFloor, .streamEdge⟩, census⟩]
  | first, onsetFloor, leadingEnd, anchor :: anchors =>
    -- The window closes neither before the trailing anchor's start nor before the leading
    -- anchor's end.
    ⟨⟨first, anchor.index - 1, onsetFloor,
        .anchor anchor.index (max (max anchor.timing.endMs anchor.timing.startMs) (leadingEnd.getD 0))⟩,
      anchor.index + 1⟩ ::
    regionsFrom census anchor.index (.anchor anchor.index anchor.timing.startMs) (some anchor.timing.endMs) anchors

def partition (census : List UtrUtteranceInfo) : List UtrRegion :=
  if census = [] then []
  else
    regionsFrom census.length 0 .streamEdge
      (((anchorChain census).head?.filter fun anchor => anchor.index == 0).map fun anchor => anchor.timing.endMs)
      ((anchorChain census).filter fun anchor => decide (0 < anchor.index))

/-- The owned utterances, then the trailing anchor. -/
def UtrRegion.searched (region : UtrRegion) (census : List UtrUtteranceInfo) : List UtrUtteranceInfo :=
  (census.drop region.span.firstUtterance).take (region.searchedEnd - region.span.firstUtterance)

/-! ## The owned stretches tile the census -/

/-- The owned stretches follow one another up to `census`, none empty, each inside its search. -/
def Tiles (census : ℕ) : ℕ → List UtrRegion → Prop
  | start, [] => start = census
  | start, region :: regions =>
    region.span.firstUtterance = start ∧ start ≤ region.span.lastUtterance ∧
      region.span.lastUtterance + 1 ≤ region.searchedEnd ∧ region.searchedEnd ≤ census ∧
      Tiles census (region.span.lastUtterance + 1) regions

theorem regionsFrom_tiles {census : ℕ} (anchors : List Anchor) :
    ∀ {first : ℕ} {onsetFloor : UtrRegionEdge} {leadingEnd : Option ℕ}, first < census →
      (anchors.map Anchor.index).Pairwise (· < ·) → (∀ a ∈ anchors, first < a.index ∧ a.index < census) →
      Tiles census first (regionsFrom census first onsetFloor leadingEnd anchors) := by
  induction anchors with
  | nil =>
    intro first onsetFloor leadingEnd hfirst _ _
    refine ⟨rfl, Nat.le_sub_one_of_lt hfirst, ?_, le_rfl, ?_⟩
    · show census - 1 + 1 ≤ census
      omega
    · show census - 1 + 1 = census
      omega
  | cons a anchors ih =>
    intro first onsetFloor leadingEnd hfirst hsorted hin
    obtain ⟨hlow, hhigh⟩ := hin a (mem_cons_self ..)
    rw [map_cons, pairwise_cons] at hsorted
    have hnext : a.index - 1 + 1 = a.index := by omega
    refine ⟨rfl, ?_, ?_, hhigh, ?_⟩
    · show first ≤ a.index - 1
      omega
    · show a.index - 1 + 1 ≤ a.index + 1
      omega
    · rw [show a.index - 1 + 1 = a.index from hnext]
      refine ih hhigh hsorted.2 fun b hb => ⟨?_, (hin b (mem_cons_of_mem _ hb)).2⟩
      exact hsorted.1 b.index (mem_map_of_mem hb)

theorem mem_anchorCandidates {census : List UtrUtteranceInfo} {a : Anchor} (h : a ∈ anchorCandidates census) :
    a.index < census.length := by
  obtain ⟨⟨info, index⟩, hmem, ha⟩ := mem_filterMap.mp h
  obtain ⟨timing, _, rfl⟩ := Option.map_eq_some_iff.mp ha
  exact (mem_zipIdx' hmem).1

variable (census : List UtrUtteranceInfo)

theorem anchorCandidates_sorted : (anchorCandidates census).Pairwise fun a b => a.index < b.index := by
  have hzip : census.zipIdx.Pairwise fun x y => x.2 < y.2 := by
    rw [← pairwise_map (f := Prod.snd) (R := (· < ·)), zipIdx_map_snd]
    exact pairwise_lt_range'
  refine Pairwise.filterMap _ ?_ hzip
  intro x y hxy a ha b hb
  obtain ⟨timing, _, rfl⟩ := Option.map_eq_some_iff.mp ha
  obtain ⟨timing', _, rfl⟩ := Option.map_eq_some_iff.mp hb
  exact hxy

/-- The chains of the patience sorting: drawn from the candidates seen, last anchor
first. -/
def Chained (bound : ℕ) (tails : List (List Anchor)) : Prop :=
  ∀ chain ∈ tails, (chain.Pairwise fun a b => b.index < a.index) ∧ ∀ a ∈ chain, a.index < bound

theorem patienceStep_chained {bound : ℕ} {tails : List (List Anchor)} {a : Anchor} (h : Chained a.index tails)
    (ha : a.index < bound) : Chained bound (patienceStep tails a) := by
  have hold : ∀ chain ∈ tails, (chain.Pairwise fun a b => b.index < a.index) ∧ ∀ b ∈ chain, b.index < bound :=
    fun chain hchain => ⟨(h chain hchain).1, fun b hb => ((h chain hchain).2 b hb).trans ha⟩
  intro chain hchain
  obtain hchain | hchain := mem_append.mp hchain
  · exact hold chain (mem_of_mem_take hchain)
  obtain hnew | hchain := mem_cons.mp hchain
  · -- The chain it extends is one of the tails, or none.
    have hprevious : ∀ (k : ℕ) (c : List Anchor), c = (if k = 0 then [] else (tails[k - 1]?).getD []) →
        (c.Pairwise fun a b => b.index < a.index) ∧ ∀ b ∈ c, b.index < a.index := by
      intro k c hc
      by_cases hk : k = 0
      · rw [if_pos hk] at hc
        exact hc ▸ ⟨Pairwise.nil, fun b hb => absurd hb (not_mem_nil)⟩
      · rw [if_neg hk] at hc
        cases htail : tails[k - 1]? with
        | none =>
          rw [htail, Option.getD_none] at hc
          exact hc ▸ ⟨Pairwise.nil, fun b hb => absurd hb (not_mem_nil)⟩
        | some tail =>
          rw [htail, Option.getD_some] at hc
          exact hc ▸ h tail (mem_of_getElem? htail)
    obtain ⟨hsorted, hbelow⟩ := hprevious _ _ rfl
    subst hnew
    refine ⟨pairwise_cons.mpr ⟨hbelow, hsorted⟩, fun b hb => ?_⟩
    obtain rfl | hb := mem_cons.mp hb
    · exact ha
    · exact (hbelow b hb).trans ha
  · exact hold chain (mem_of_mem_drop hchain)

theorem foldl_chained {bound : ℕ} (candidates : List Anchor) :
    ∀ {tails : List (List Anchor)} {seen : ℕ}, Chained seen tails →
      (candidates.Pairwise fun a b => a.index < b.index) → (∀ a ∈ candidates, seen ≤ a.index ∧ a.index < bound) →
      seen ≤ bound → Chained bound (candidates.foldl patienceStep tails) := by
  induction candidates with
  | nil =>
    intro tails seen h _ _ hseen chain hchain
    exact ⟨(h chain hchain).1, fun a ha => ((h chain hchain).2 a ha).trans_le hseen⟩
  | cons a candidates ih =>
    intro tails seen h hsorted hin _
    obtain ⟨hlow, hhigh⟩ := hin a (mem_cons_self ..)
    rw [pairwise_cons] at hsorted
    have hseen : Chained a.index tails := fun chain hchain =>
      ⟨(h chain hchain).1, fun b hb => ((h chain hchain).2 b hb).trans_le hlow⟩
    exact ih (patienceStep_chained hseen (Nat.lt_succ_self _)) hsorted.2
      (fun b hb => ⟨hsorted.1 b hb, (hin b (mem_cons_of_mem _ hb)).2⟩) hhigh

theorem anchorChain_sorted :
    ((anchorChain census).map Anchor.index).Pairwise (· < ·) ∧ ∀ a ∈ anchorChain census, a.index < census.length := by
  have hrun : Chained census.length ((anchorCandidates census).foldl patienceStep []) :=
    foldl_chained (anchorCandidates census) (fun chain hchain => absurd hchain (not_mem_nil))
      (anchorCandidates_sorted census) (fun a ha => ⟨Nat.zero_le _, mem_anchorCandidates ha⟩) (Nat.zero_le _)
  unfold anchorChain
  cases hlast : ((anchorCandidates census).foldl patienceStep []).getLast? with
  | none => exact ⟨Pairwise.nil, fun a ha => absurd ha (not_mem_nil)⟩
  | some chain =>
    obtain ⟨hsorted, hbound⟩ := hrun chain (mem_of_getLast? hlast)
    rw [Option.getD_some, map_reverse, pairwise_reverse, pairwise_map]
    exact ⟨hsorted, fun a ha => hbound a (mem_reverse.mp ha)⟩

theorem partition_tiles : Tiles census.length 0 (partition census) := by
  unfold partition
  by_cases hnil : census = []
  · rw [if_pos hnil, hnil]
    rfl
  · rw [if_neg hnil]
    obtain ⟨hsorted, hbound⟩ := anchorChain_sorted census
    refine regionsFrom_tiles _ (length_pos_iff.mpr hnil) ?_ ?_
    · rw [pairwise_map] at hsorted ⊢
      exact hsorted.filter _
    · intro a ha
      obtain ⟨ha, hpos⟩ := mem_filter.mp ha
      exact ⟨of_decide_eq_true hpos, hbound a ha⟩

end Batchalign.Utr
