import Batchalign.Lib.Chain
import Batchalign.DpAlign.Comparison

/- The divide-and-conquer aligner (`dp_align/mod.rs`). `alignGeneric` strips the matching ends and
   `hirschberg` splits the rest until the full table (`alignSmall`) is small enough. The entry points
   below run under `Uninterrupted`, whose checks cannot fail. -/
namespace Batchalign.DpAlign

def COST_SUB : ℕ := 2
def COST_GAP : ℕ := 1
def SMALL_CUTOFF : ℕ := 2048

inductive AlignResult where
  | matched (key : String) (payloadIdx referenceIdx : ℕ)
  | extraPayload (key : String) (payloadIdx : ℕ)
  | extraReference (key : String) (referenceIdx : ℕ)

inductive Action where
  | start
  | matched
  | substitution
  | extraPayload
  | extraReference

/-- One cell of the full table: cost, action and predecessor `(row, column)`. -/
structure Cell where
  cost : ℕ
  action : Action
  pi : ℕ
  pj : ℕ

section Generic
variable {T : Type}

/-- The rest of a row of `row_costs`: `diag` and `ups` are the previous row from here on. -/
def rowCostsCells (A : Alignable T) (refItem : T) : List T → ℕ → List ℕ → ℕ → List ℕ
  | pay :: payload, diag, up :: ups, left =>
    let subCost := diag + if A.isMatch refItem pay then 0 else COST_SUB
    let delCost := up + COST_GAP
    let insCost := left + COST_GAP
    let cost := min (min subCost delCost) insCost
    cost :: rowCostsCells A refItem payload up ups cost
  | _, _, _, _ => []

/-- One row of `row_costs` from the previous one. -/
def rowCostsStep (A : Alignable T) (payload : List T) (prev : List ℕ) (refItem : T) : List ℕ :=
  match prev with
  | [] => []
  | diag :: ups => (diag + COST_GAP) :: rowCostsCells A refItem payload diag ups (diag + COST_GAP)

/-- The last row of the cost matrix of `reference` against `payload`. -/
def rowCosts (A : Alignable T) (reference payload : List T) : List ℕ :=
  reference.foldl (rowCostsStep A payload) (List.range (payload.length + 1))

/-- `row_costs` on both sequences reversed. -/
def rowCostsRev (A : Alignable T) (reference payload : List T) : List ℕ :=
  rowCosts A reference.reverse payload.reverse

/-- The cell computed from its three neighbours at row `i`, column `j` (both at least 1). -/
def chooseCell (isMatch : Bool) (i j diag up left : ℕ) : Cell :=
  let subCost := diag + if isMatch then 0 else COST_SUB
  let delCost := up + COST_GAP
  let insCost := left + COST_GAP
  if subCost ≤ delCost ∧ subCost ≤ insCost then
    ⟨subCost, if isMatch then .matched else .substitution, i - 1, j - 1⟩
  else if delCost ≤ subCost ∧ delCost ≤ insCost then
    ⟨delCost, .extraReference, i - 1, j⟩
  else
    ⟨insCost, .extraPayload, i, j - 1⟩

/-- The rest of row `i` of the full table from column `j` on. -/
def tableCells (A : Alignable T) (refItem : T) (i : ℕ) : ℕ → List T → Cell → List Cell → Cell → List Cell
  | j, pay :: payload, diag, up :: ups, left =>
    let cell := chooseCell (A.isMatch refItem pay) i j diag.cost up.cost left.cost
    cell :: tableCells A refItem i (j + 1) payload up ups cell
  | _, _, _, _, _ => []

/-- Row `i` of the full table from row `i - 1`. -/
def tableRow (A : Alignable T) (payload : List T) (i : ℕ) (refItem : T) (prev : List Cell) : List Cell :=
  match prev with
  | [] => []
  | diag :: ups =>
    let head : Cell := ⟨i * COST_GAP, .extraReference, i - 1, 0⟩
    head :: tableCells A refItem i 1 payload diag ups head

def firstRow (cols : ℕ) : List Cell :=
  (List.range cols).map fun j =>
    if j = 0 then ⟨0, .start, 0, 0⟩ else ⟨j * COST_GAP, .extraPayload, 0, j - 1⟩

/-- Rows `i, i + 1, ..` of the full table, the first of them given. -/
def tableRows (A : Alignable T) (payload : List T) : ℕ → List Cell → List T → List (List Cell)
  | _, row, [] => [row]
  | i, row, refItem :: reference =>
    row :: tableRows A payload (i + 1) (tableRow A payload (i + 1) refItem row) reference

/-- The traceback loop, with its output as it is reversed at the end. Every step leaves `(i, j)` for an
  earlier cell. -/
def traceback (A : Alignable T) (payload reference : List T) (payOffset refOffset : ℕ)
    (dp : List (List Cell)) : ℕ → ℕ → ℕ → List AlignResult → List AlignResult
  | 0, _, _, output => output
  | fuel + 1, i, j, output =>
    if 0 < i ∨ 0 < j then
      match (dp[i]?).bind (·[j]?) with
      | none => output
      | some ⟨_, action, pi, pj⟩ =>
        let payItem := (payload[pj]?).map A.toKey |>.getD ""
        let refItem := (reference[pi]?).map A.toKey |>.getD ""
        let go := traceback A payload reference payOffset refOffset dp fuel pi pj
        match action with
        | .matched => go (.matched refItem (payOffset + pj) (refOffset + pi) :: output)
        | .substitution =>
          go (.extraReference refItem (refOffset + pi) ::
            .extraPayload payItem (payOffset + pj) :: output)
        | .extraPayload => go (.extraPayload payItem (payOffset + pj) :: output)
        | .extraReference => go (.extraReference refItem (refOffset + pi) :: output)
        | .start => output
    else output

def alignSmall (A : Alignable T) (payload reference : List T) (payOffset refOffset : ℕ) :
    List AlignResult :=
  let rows := reference.length + 1
  let cols := payload.length + 1
  let dp := tableRows A payload 0 (firstRow cols) reference
  traceback A payload reference payOffset refOffset dp (rows + cols) (rows - 1) (cols - 1) []

/-- The split loop: the first payload cut of least total cost. -/
def bestSplit (scoreLeft scoreRight : List ℕ) (payLen : ℕ) : ℕ :=
  ((List.range (payLen + 1)).foldl (fun (acc : Option ℕ × ℕ) k =>
    let cost := (scoreLeft[k]?).getD 0 + (scoreRight[payLen - k]?).getD 0
    match acc.1 with
    | none => (some cost, k)
    | some best => if cost < best then (some cost, k) else acc) (none, 0)).2

def hirschberg (A : Alignable T) (payload reference : List T) (payOffset refOffset : ℕ) :
    List AlignResult :=
  if reference.isEmpty then
    payload.mapIdx fun i k => .extraPayload (A.toKey k) (payOffset + i)
  else if payload.isEmpty then
    reference.mapIdx fun i k => .extraReference (A.toKey k) (refOffset + i)
  else if _h : reference.length ≤ 1 ∨ payload.length ≤ 1 ∨
      reference.length * payload.length ≤ SMALL_CUTOFF then
    alignSmall A payload reference payOffset refOffset
  else
    let mid := reference.length / 2
    let scoreLeft := rowCosts A (reference.take mid) payload
    let scoreRight := rowCostsRev A (reference.drop mid) payload
    let split := bestSplit scoreLeft scoreRight payload.length
    hirschberg A (payload.take split) (reference.take mid) payOffset refOffset ++
      hirschberg A (payload.drop split) (reference.drop mid) (payOffset + split) (refOffset + mid)
termination_by reference.length
decreasing_by
  all_goals simp only [List.length_take, List.length_drop]; omega

def matchingRun (A : Alignable T) (payload reference : List T) : ℕ :=
  ((payload.zip reference).takeWhile fun pr => A.isMatch pr.1 pr.2).length

def alignGeneric (A : Alignable T) (payload reference : List T) : List AlignResult :=
  let prefixLen := matchingRun A payload reference
  let suffixLen := matchingRun A (payload.drop prefixLen).reverse (reference.drop prefixLen).reverse
  let head := (reference.take prefixLen).mapIdx fun i r => .matched (A.toKey r) i i
  let midPay := (payload.take (payload.length - suffixLen)).drop prefixLen
  let midRef := (reference.take (reference.length - suffixLen)).drop prefixLen
  let middle := hirschberg A midPay midRef prefixLen prefixLen
  let paySuffixStart := payload.length - suffixLen
  let refSuffixStart := reference.length - suffixLen
  let tail := (reference.drop refSuffixStart).mapIdx fun i r =>
    .matched (A.toKey r) (paySuffixStart + i) (refSuffixStart + i)
  head ++ middle ++ tail

end Generic

def align (payload reference : List String) : MatchMode → List AlignResult
  | .exact => alignGeneric (alignableString .exact) payload reference
  | .caseInsensitive => alignGeneric (alignableString .asciiInsensitive) payload reference
  | .fuzzy policy =>
    alignGeneric (alignableFuzzy policy) (payload.map policy.prepare) (reference.map policy.prepare)

/-- Align two character sequences; fuzzy matching of single characters is ASCII-insensitive. -/
def alignChars (payload reference : List Char) : MatchMode → List AlignResult
  | .exact => alignGeneric (alignableChar .exact) payload reference
  | .caseInsensitive | .fuzzy _ => alignGeneric (alignableChar .asciiInsensitive) payload reference

end Batchalign.DpAlign
