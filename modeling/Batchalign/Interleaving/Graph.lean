import Batchalign.Interleaving.Turns

/- The source graph of an interleaving search (`episodes/graph.rs`). Node `u` is the boundary before
   turn `u`. A turn is a chain of word edges, an episode a grid with the turn and the following run as
   axes. Nodes are ordered by Kahn's algorithm, and stably by the number of words before them. -/
namespace Batchalign.Interleaving
open Batchalign.DpAlign

/-! ## Admission -/

inductive PreparedEpisode where
  | empty (span : Episode)
  | grid (span : Episode) (left right cells : ℕ)

structure PreparedGraph where
  turns : List SpeakerTurn
  nodes : ℕ
  offsets : List ℕ
  episodes : List PreparedEpisode

def offsetAt (turns : List SpeakerTurn) (u : ℕ) : ℕ := ((turns.take u).map fun t => t.words.length).sum

def shapeOverflow : Refusal := .budget (.workBudgetExceeded .graphShape usizeMax)

def memoryRefusal : Refusal := .budget .memoryBudgetExceeded

def countChains (words nodes : ℕ) : List SpeakerTurn → Except Refusal (ℕ × List ℕ)
  | [] => .ok (nodes, [])
  | turn :: turns =>
    match checkedAdd words turn.words.length with
    | none => .error shapeOverflow
    | some words' =>
      match checkedAdd nodes (turn.words.length - 1) with
      | none => .error shapeOverflow
      | some nodes' =>
        match countChains words' nodes' turns with
        | .error refusal => .error refusal
        | .ok (total, offsets) => .ok (total, words' :: offsets)

def countGrids (turns : List SpeakerTurn) (offsets : List ℕ) (nodes : ℕ) :
    List Episode → Except Refusal (ℕ × List PreparedEpisode)
  | [] => .ok (nodes, [])
  | span :: spans =>
    let left := (turns[span.first]?).elim 0 fun t => t.words.length
    let right := offsets.getD span.followingEnd 0 - offsets.getD (span.first + 1) 0
    if left = 0 ∧ right = 0 then
      match countGrids turns offsets nodes spans with
      | .error refusal => .error refusal
      | .ok (total, prepared) => .ok (total, .empty span :: prepared)
    else
      match (checkedAdd left 1).bind fun a => (checkedAdd right 1).bind fun b => checkedMul a b with
      | none => .error shapeOverflow
      | some cells =>
        match checkedAdd nodes (cells - 2) with
        | none => .error shapeOverflow
        | some nodes' =>
          if scoreCells / 6 < nodes' then .error memoryRefusal
          else match countGrids turns offsets nodes' spans with
            | .error refusal => .error refusal
            | .ok (total, prepared) => .ok (total, .grid span left right cells :: prepared)

/-- `PreparedGraph::admit`. -/
def admitGraph (turns : List SpeakerTurn) : Except Refusal PreparedGraph :=
  match checkedAdd turns.length 1 with
  | none => .error shapeOverflow
  | some nodes =>
    if scoreCells / 6 < nodes then .error memoryRefusal
    else match countChains 0 nodes turns with
      | .error refusal => .error refusal
      | .ok (nodes', offsets) =>
        if scoreCells / 6 < nodes' then .error memoryRefusal
        else match countGrids turns (0 :: offsets) nodes' (episodes turns) with
          | .error refusal => .error refusal
          | .ok (total, prepared) => .ok ⟨turns, total, 0 :: offsets, prepared⟩

/-! ## Edges -/

structure Edge where
  target : ℕ
  word : Option ℕ
  deriving DecidableEq

structure Building where
  nodes : ℕ
  pushed : List (ℕ × Edge)

/-- Node `i` of a chain between two boundaries: inner nodes are new, in order. -/
def chainNode (nodes utterance len i : ℕ) : ℕ :=
  if i = 0 then utterance else if i = len then utterance + 1 else nodes + (i - 1)

def chainOf (offset utterance len : ℕ) (building : Building) : Building :=
  if len = 0 then
    ⟨building.nodes, building.pushed ++ [(utterance, ⟨utterance + 1, none⟩)]⟩
  else
    ⟨building.nodes + (len - 1), building.pushed ++ (List.range len).map fun i =>
      (chainNode building.nodes utterance len i,
        ⟨chainNode building.nodes utterance len (i + 1), some (offset + i)⟩)⟩

/-- The first loop of `materialize`. -/
def chains (offsets : List ℕ) : ℕ → List SpeakerTurn → Building → Building
  | _, [], building => building
  | u, turn :: turns, building =>
    chains offsets (u + 1) turns (chainOf (offsets.getD u 0) u turn.words.length building)

/-- Node `(i, j)` of a grid: inner nodes are new, row by row. -/
def gridNode (nodes utterance followingEnd a b i j : ℕ) : ℕ :=
  if i = 0 ∧ j = 0 then utterance else if i = a ∧ j = b then followingEnd
  else nodes + (i * (b + 1) + j - 1)

/-- The edges pushed on node `(i, j)` of a grid. -/
def gridEdges (node : ℕ → ℕ → ℕ) (firstStart secondStart a b i j : ℕ) : List (ℕ × Edge) :=
  (if i < a then [(node i j, ⟨node (i + 1) j, some (firstStart + i)⟩)] else []) ++
  (if j < b then [(node i j, ⟨node i (j + 1), some (secondStart + j)⟩)] else [])

def gridOf (offsets : List ℕ) (building : Building) : PreparedEpisode → Building
  | .empty span => ⟨building.nodes, building.pushed ++ [(span.first, ⟨span.followingEnd, none⟩)]⟩
  | .grid span a b cells =>
    let node := gridNode building.nodes span.first span.followingEnd a b
    ⟨building.nodes + (cells - 2), building.pushed ++ (List.range (a + 1)).flatMap fun i =>
      (List.range (b + 1)).flatMap fun j =>
        gridEdges node (offsets.getD span.first 0) (offsets.getD (span.first + 1) 0) a b i j⟩

def buildEdges (prepared : PreparedGraph) : Building :=
  prepared.episodes.foldl (gridOf prepared.offsets)
    (chains prepared.offsets 0 prepared.turns ⟨prepared.turns.length + 1, []⟩)

def Building.edges (building : Building) (node : ℕ) : List Edge :=
  building.pushed.filterMap fun p => if p.1 = node then some p.2 else none

def Building.incoming (building : Building) (node : ℕ) : List Edge :=
  (List.range building.nodes).flatMap fun source =>
    (building.edges source).filterMap fun e => if e.target = node then some ⟨source, e.word⟩ else none

/-! ## Order -/

def releaseEdges (degree : ℕ → ℕ) (order : List ℕ) : List Edge → (ℕ → ℕ) × List ℕ
  | [] => (degree, order)
  | e :: edges =>
    let degree' := Function.update degree e.target (degree e.target - 1)
    releaseEdges degree' (if degree' e.target = 0 then order ++ [e.target] else order) edges

def kahn (edges : ℕ → List Edge) : ℕ → ℕ → (ℕ → ℕ) → List ℕ → List ℕ
  | 0, _, _, order => order
  | fuel + 1, cursor, degree, order =>
    match order[cursor]? with
    | none => order
    | some node =>
      let released := releaseEdges degree order (edges node)
      kahn edges fuel (cursor + 1) released.1 released.2

def depths (edges : ℕ → List Edge) (order : List ℕ) : ℕ → ℕ :=
  order.foldl (fun depth node => (edges node).foldl (fun depth e =>
    Function.update depth e.target (depth node + if e.word.isSome then 1 else 0)) depth) fun _ => 0

def ranks (order : List ℕ) : ℕ → ℕ :=
  order.zipIdx.foldl (fun rank (node, slot) => Function.update rank node slot) fun _ => 0

structure Graph where
  nodes : ℕ
  edges : ℕ → List Edge
  incoming : ℕ → List Edge
  order : List ℕ
  rank : ℕ → ℕ
  depth : ℕ → ℕ
  finish : ℕ

/-- The graph. -/
def materialize (prepared : PreparedGraph) : Graph :=
  let building := buildEdges prepared
  let edges := building.edges
  let incoming := building.incoming
  let degree := fun node => (incoming node).length
  let released := kahn edges building.nodes 0 degree [0]
  let depth := depths edges released
  let order := released.insertionSort fun a b => depth a ≤ depth b
  ⟨building.nodes, edges, incoming, order, ranks order, depth, prepared.turns.length⟩

end Batchalign.Interleaving
