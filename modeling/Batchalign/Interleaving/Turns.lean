import Batchalign.DpAlign.Correspondence

/- Speaker turns, episodes and the relation of an interleaving search
   (`dp_align/interleaving/episodes.rs`). An episode is one turn and a run of another speaker after it;
   each prefix of the run is an episode of its own. -/
namespace Batchalign.Interleaving
open Batchalign.DpAlign

def workCells : ℕ := 64000000

def scoreCells : ℕ := 2097152

def checkedAdd (a b : ℕ) : Option ℕ := if a + b ≤ usizeMax then some (a + b) else none

def checkedMul (a b : ℕ) : Option ℕ := if a * b ≤ usizeMax then some (a * b) else none

inductive Continuation where
  | separate
  | overlappingSpeakerRun
  deriving DecidableEq

structure SpeakerTurn where
  speaker : String
  words : List String
  continuation : Continuation

/-! ## Refusals -/

inductive WorkPhase where
  | graphShape
  | feasibleWitness
  | bandedSearch
  | packedSearch

/-- `LocalInterleavingBudget`. -/
inductive Budget where
  | workBudgetExceeded (phase : WorkPhase) (requiredAtLeast : ℕ)
  | memoryBudgetExceeded
  | candidateBudgetExceeded

/-- `LocalInterleavingInconsistency`. -/
inductive Inconsistency where
  | noCompleteComposition
  | optimumBelowFeasible (optimum feasible : ℕ)
  | reconstructionMismatch (selected optimum : ℕ)
  | tracebackStalled (reference : ℕ)
  | profileBaseSkipped (base required : ℕ)
  | profileBasesDiffer (left right : ℕ)
  | edgeCutGap (earlier first : ℕ)
  | profileScoreOutsideDomain (reference : ℕ)

/-- `LocalInterleavingRefusal`. -/
inductive Refusal where
  | budget (cause : Budget)
  | inconsistent (cause : Inconsistency)

/-! ## Evidence -/

structure Address where
  utterance : ℕ
  word : ℕ

structure Selected where
  source : ℕ
  reference : ℕ

structure WordEvidence where
  candidates : List ℕ
  canBeMissing : Bool

/-! ## Episodes -/

structure Episode where
  first : ℕ
  followingEnd : ℕ

def continuing (speaker : String) (turns : List SpeakerTurn) : ℕ :=
  (turns.takeWhile fun turn =>
    turn.speaker == speaker && turn.continuation == .overlappingSpeakerRun).length

def episodesFrom (turns : List SpeakerTurn) (first : ℕ) : List Episode :=
  match turns.drop first with
  | turn :: next :: rest =>
    if turn.speaker ≠ next.speaker then
      (List.range (continuing next.speaker rest + 1)).map fun i => ⟨first, first + 2 + i⟩
    else []
  | _ => []

def episodes (turns : List SpeakerTurn) : List Episode :=
  (List.range (turns.length - 1)).flatMap (episodesFrom turns)

/-! ## The relation -/

/-- The words on both sides, prepared for their mode. -/
inductive Relation where
  | literal (source reference : List String) (mode : LiteralMatchMode)
  | fuzzy (source reference : List PreparedFuzzyWord) (policy : FuzzyComparison)

def Relation.new (source reference : List String) : MatchMode → Relation
  | .exact => .literal source reference .exact
  | .caseInsensitive => .literal source reference .asciiInsensitive
  | .fuzzy policy => .fuzzy (source.map policy.prepare) (reference.map policy.prepare) policy

/-- `Relation::matches`; positions outside the words match nothing. -/
def Relation.matchesAt (relation : Relation) (word k : ℕ) : Bool :=
  match relation with
  | .literal source reference mode =>
    match source[word]?, reference[k]? with
    | some a, some b => mode.matchesWords a b
    | _, _ => false
  | .fuzzy source reference policy =>
    match source[word]?, reference[k]? with
    | some a, some b => (alignableFuzzy policy).isMatch a b
    | _, _ => false

def Relation.sourceLen : Relation → ℕ
  | .literal source _ _ => source.length
  | .fuzzy source _ _ => source.length

def Relation.referenceLen : Relation → ℕ
  | .literal _ reference _ => reference.length
  | .fuzzy _ reference _ => reference.length

end Batchalign.Interleaving
