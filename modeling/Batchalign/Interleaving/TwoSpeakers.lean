import Batchalign.Interleaving.Turns
import Batchalign.Lib.JointChains
import Batchalign.Lib.Tabulate

/- Two independently ordered speakers against one reference (`TwoSpeakerAlignment::with_budget`). The
   score tables are flat lists addressed by `AdmittedShape.cellAt`; a read outside them is `none`. The
   traceback runs on a number of steps. -/
namespace Batchalign.Interleaving
open Batchalign.DpAlign

inductive SpeakerChain where
  | first
  | second
  deriving DecidableEq

instance : Fintype SpeakerChain := ⟨{.first, .second}, by intro chain; cases chain <;> decide⟩

structure PerChain (α : Type) where
  first : α
  second : α

def PerChain.get {α : Type} (values : PerChain α) : SpeakerChain → α
  | .first => values.first
  | .second => values.second

def PerChain.set {α : Type} (values : PerChain α) (value : α) : SpeakerChain → PerChain α
  | .first => { values with first := value }
  | .second => { values with second := value }

def PerChain.map {α β : Type} (values : PerChain α) (f : α → β) : PerChain β :=
  ⟨f values.first, f values.second⟩

inductive InterleavingRefusal where
  | cellBudgetExceeded

abbrev MatchAddress := JointChains.Match SpeakerChain

structure TwoSpeakerAlignment where
  sources : PerChain (List String)
  reference : List String
  optimum : ℕ
  selected : List MatchAddress
  words : PerChain (List WordEvidence)

def WordEvidence.common (evidence : WordEvidence) : Option ℕ :=
  if evidence.canBeMissing || evidence.candidates.length != 1 then none
  else evidence.candidates[0]?

/-! ## Shape and relation -/

structure AdmittedShape where
  second : ℕ
  reference : ℕ
  cells : ℕ

def AdmittedShape.new (first second reference budget : ℕ) : Option AdmittedShape := do
  let second ← checkedAdd second 1
  let reference ← checkedAdd reference 1
  let cells ← checkedMul (← checkedMul (← checkedAdd first 1) second) reference
  if cells ≤ budget then some ⟨second, reference, cells⟩ else none

/-- `AdmittedShape::at`. -/
def AdmittedShape.cellAt (shape : AdmittedShape) (first second reference : ℕ) : ℕ :=
  (first * shape.second + second) * shape.reference + reference

structure MatchRelation where
  referenceLen : ℕ
  rows : PerChain (List Bool)

def MatchRelation.new (sources : PerChain (List String)) (reference : List String) :
    MatchMode → MatchRelation
  | .exact => ⟨reference.length, sources.map fun source =>
      source.flatMap fun word => reference.map fun other => word == other⟩
  | .caseInsensitive => ⟨reference.length, sources.map fun source =>
      source.flatMap fun word => reference.map fun other => eqIgnoreAsciiCase word other⟩
  | .fuzzy policy =>
      let prepared := reference.map policy.prepare
      ⟨reference.length, sources.map fun source =>
        source.flatMap fun word => prepared.map fun other =>
          (alignableFuzzy policy).isMatch (policy.prepare word) other⟩

/-- `MatchRelation::matches`. -/
def MatchRelation.matchesAt (relation : MatchRelation) (chain : SpeakerChain)
    (word reference : ℕ) : Option Bool :=
  (relation.rows.get chain)[word * relation.referenceLen + reference]?

/-- `a && b`, where `b` is only evaluated if `a` holds. -/
def andThen (a : Bool) (b : Option Bool) : Option Bool := if a then b else some false

/-! ## Score tables -/

structure Cell where
  i : ℕ
  j : ℕ
  k : ℕ
  deriving DecidableEq

def cellsOf (m n p : ℕ) : List Cell :=
  (List.range (m + 1)).flatMap fun i =>
    (List.range (n + 1)).flatMap fun j => (List.range (p + 1)).map fun k => ⟨i, j, k⟩

/-- `score.max(entry + gain)` under a condition. -/
def maxIf (condition : Option Bool) (entry : Option ℕ) (gain score : ℕ) : Option ℕ := do
  if ← condition then
    let other ← entry
    some (max score (other + gain))
  else some score

section
variable (shape : AdmittedShape) (relation : MatchRelation)

def forwardCell (forward : List ℕ) (c : Cell) : Option ℕ := do
  let read (i j k : ℕ) := forward[shape.cellAt i j k]?
  let score ← maxIf (some (0 < c.i)) (read (c.i - 1) c.j c.k) 0 0
  let score ← maxIf (some (0 < c.j)) (read c.i (c.j - 1) c.k) 0 score
  let score ← maxIf (some (0 < c.k)) (read c.i c.j (c.k - 1)) 0 score
  let score ← maxIf
    (andThen (0 < c.k) (andThen (0 < c.i) (relation.matchesAt .first (c.i - 1) (c.k - 1))))
    (read (c.i - 1) c.j (c.k - 1)) 1 score
  maxIf
    (andThen (0 < c.k) (andThen (0 < c.j) (relation.matchesAt .second (c.j - 1) (c.k - 1))))
    (read c.i (c.j - 1) (c.k - 1)) 1 score

def backwardCell (m n p : ℕ) (backward : List ℕ) (c : Cell) : Option ℕ := do
  let read (i j k : ℕ) := backward[shape.cellAt i j k]?
  let score ← maxIf (some (c.i < m)) (read (c.i + 1) c.j c.k) 0 0
  let score ← maxIf (some (c.j < n)) (read c.i (c.j + 1) c.k) 0 score
  let score ← maxIf (some (c.k < p)) (read c.i c.j (c.k + 1)) 0 score
  let score ← maxIf (andThen (c.k < p) (andThen (c.i < m) (relation.matchesAt .first c.i c.k)))
    (read (c.i + 1) c.j (c.k + 1)) 1 score
  maxIf (andThen (c.k < p) (andThen (c.j < n) (relation.matchesAt .second c.j c.k)))
    (read c.i (c.j + 1) (c.k + 1)) 1 score

def forwardTable (m n p : ℕ) : Option (List ℕ) :=
  Tabulate.fill (fun c : Cell => shape.cellAt c.i c.j c.k) (forwardCell shape relation)
    (List.replicate shape.cells 0) (cellsOf m n p)

def backwardTable (m n p : ℕ) : Option (List ℕ) :=
  Tabulate.fill (fun c : Cell => shape.cellAt c.i c.j c.k) (backwardCell shape relation m n p)
    (List.replicate shape.cells 0) (cellsOf m n p).reverse

/-! ## Evidence and traceback -/

/-- What one cell says of the next word of one chain; `toI` and `toJ` are the cell after it. -/
def observeWord (p : ℕ) (backward : List ℕ) (optimum best : ℕ) (c : Cell)
    (words : PerChain (List WordEvidence)) (chain : SpeakerChain) (word toI toJ : ℕ) :
    Option (PerChain (List WordEvidence)) := do
  if word = (words.get chain).length then
    some words
  else
    let evidence ← (words.get chain)[word]?
    let skipped ← backward[shape.cellAt toI toJ c.k]?
    let evidence := if best + skipped = optimum then
      { evidence with canBeMissing := true } else evidence
    let isMatch ← andThen (c.k < p) (relation.matchesAt chain word c.k)
    let matched ← andThen isMatch
      (backward[shape.cellAt toI toJ (c.k + 1)]?.map fun rest => best + 1 + rest == optimum)
    let evidence := if matched then
      { evidence with candidates := evidence.candidates ++ [c.k] } else evidence
    some (words.set ((words.get chain).set word evidence) chain)

def observeCell (p : ℕ) (forward backward : List ℕ) (optimum : ℕ)
    (words : PerChain (List WordEvidence)) (c : Cell) :
    Option (PerChain (List WordEvidence)) := do
  let best ← forward[shape.cellAt c.i c.j c.k]?
  let words ← observeWord shape relation p backward optimum best c words .first c.i (c.i + 1) c.j
  observeWord shape relation p backward optimum best c words .second c.j c.i (c.j + 1)

/-- `sort_unstable` and `dedup` of the candidates. -/
def sortCandidates (evidence : WordEvidence) : WordEvidence :=
  { evidence with
    candidates := (evidence.candidates.mergeSort (· ≤ ·)).destutter (· ≠ ·) }

def traceback (m n p : ℕ) (backward : List ℕ) :
    ℕ → Cell → List MatchAddress → Option (List MatchAddress)
  | 0, c, selected => if c.i < m ∨ c.j < n ∨ c.k < p then none else some selected
  | steps + 1, c, selected =>
    let read (i j k : ℕ) := backward[shape.cellAt i j k]?
    if c.i < m ∨ c.j < n ∨ c.k < p then do
      let score ← read c.i c.j c.k
      let takesFirst ← andThen (c.i < m && c.k < p) (relation.matchesAt .first c.i c.k)
      if ← andThen takesFirst ((read (c.i + 1) c.j (c.k + 1)).map (1 + · == score)) then
        traceback m n p backward steps ⟨c.i + 1, c.j, c.k + 1⟩ (selected ++ [⟨.first, c.i, c.k⟩])
      else do
        let takesSecond ← andThen (c.j < n && c.k < p) (relation.matchesAt .second c.j c.k)
        if ← andThen takesSecond ((read c.i (c.j + 1) (c.k + 1)).map (1 + · == score)) then
          traceback m n p backward steps ⟨c.i, c.j + 1, c.k + 1⟩
            (selected ++ [⟨.second, c.j, c.k⟩])
        else if ← andThen (c.k < p) ((read c.i c.j (c.k + 1)).map (· == score)) then
          traceback m n p backward steps ⟨c.i, c.j, c.k + 1⟩ selected
        else if ← andThen (c.i < m) ((read (c.i + 1) c.j c.k).map (· == score)) then
          traceback m n p backward steps ⟨c.i + 1, c.j, c.k⟩ selected
        else
          traceback m n p backward steps ⟨c.i, c.j + 1, c.k⟩ selected
    else some selected

end

def withBudget (first second reference : List String) (mode : MatchMode) (budget steps : ℕ) :
    Option (Except InterleavingRefusal TwoSpeakerAlignment) :=
  let (m, n, p) := (first.length, second.length, reference.length)
  match AdmittedShape.new m n p budget with
  | none => some (.error .cellBudgetExceeded)
  | some shape => do
    let relation := MatchRelation.new ⟨first, second⟩ reference mode
    let forward ← forwardTable shape relation m n p
    let backward ← backwardTable shape relation m n p
    let optimum ← backward[0]?
    let words : PerChain (List WordEvidence) :=
      ⟨List.replicate m ⟨[], false⟩, List.replicate n ⟨[], false⟩⟩
    let words ← (cellsOf m n p).foldlM (observeCell shape relation p forward backward optimum) words
    let words := words.map (·.map sortCandidates)
    let selected ← traceback shape relation m n p backward steps ⟨0, 0, 0⟩ []
    some (.ok ⟨⟨first, second⟩, reference, optimum, selected, words⟩)

end Batchalign.Interleaving
