import Batchalign.Lib.Fenwick
import Batchalign.DpAlign.PackedLiteral

/- Common correspondences (`dp_align/correspondence.rs`): the pairs every optimal alignment matches.
   Literal postings, fuzzy rows, or packed rows when the literal edges exceed the limit, list candidate
   edges; all keep the edges that stand alone at their rank. -/
namespace Batchalign.DpAlign

structure Edge where
  payload : ℕ
  reference : ℕ
  deriving DecidableEq

structure CorrespondenceBudget where
  edgeLimit : ℕ
  deriving DecidableEq

inductive CorrespondenceAdmission where
  | complete (pairs : List (ℕ × ℕ))
  | budgetExhausted (budget : CorrespondenceBudget)
  deriving DecidableEq

/-! ## The sparse route -/

def PrefixMaximum.new (length : ℕ) : List ℕ := List.replicate (length + 1) 0

def PrefixMaximum.before (ranks : List ℕ) (position : ℕ) : ℕ := Fenwick.query ranks position

def PrefixMaximum.record (ranks : List ℕ) (position rank : ℕ) : List ℕ :=
  Fenwick.update ranks position rank

/-- The ranking loop: all ranks of a row are read before any is recorded. -/
def rankRows (position : Edge → ℕ) : ℕ → List ℕ → List Edge → List ℕ × List ℕ
  | fuel + 1, ranks, edge :: edges =>
    let row := (edge :: edges).takeWhile fun e => e.payload == edge.payload
    let rest := (edge :: edges).dropWhile fun e => e.payload == edge.payload
    let rowRanks := row.map fun e => PrefixMaximum.before ranks (position e) + 1
    let recorded := (row.zip rowRanks).foldl
      (fun ranks (e, rank) => PrefixMaximum.record ranks (position e) rank) ranks
    let more := rankRows position fuel recorded rest
    (rowRanks ++ more.1, more.2)
  | _, ranks, _ => ([], ranks)

/-- The ranks and the optimum. -/
def rankForward (length : ℕ) (edges : List Edge) : List ℕ × ℕ :=
  let ranked := rankRows Edge.reference edges.length (PrefixMaximum.new length) edges
  (ranked.1, PrefixMaximum.before ranked.2 length)

/-- The ranks, in reverse edge order as computed. -/
def rankBackward (length : ℕ) (edges : List Edge) : List ℕ :=
  (rankRows (fun e => length - 1 - e.reference) edges.length (PrefixMaximum.new length)
    edges.reverse).1

inductive Multiplicity where
  | empty
  | unique
  | competing
  deriving DecidableEq

def Multiplicity.observe : Multiplicity → Multiplicity
  | .empty => .unique
  | .unique => .competing
  | .competing => .competing

structure RankedEdge where
  edge : Edge
  forward : ℕ
  backward : ℕ

def rankedEdges (length : ℕ) (edges : List Edge) : List RankedEdge :=
  (edges.zip ((rankForward length edges).1.zip (rankBackward length edges).reverse)).map
    fun (edge, forward, backward) => ⟨edge, forward, backward⟩

def RankedEdge.optimal (optimum : ℕ) (e : RankedEdge) : Bool := e.forward + e.backward - 1 == optimum

def populations (optimum : ℕ) (edges : List RankedEdge) : List Multiplicity :=
  edges.foldl (fun pops e =>
    if e.optimal optimum then pops.modify (e.forward - 1) Multiplicity.observe else pops)
    (List.replicate optimum .empty)

/-- `Candidates::certify`: the optimal edges that stand alone at their rank. -/
def certifySparse (length : ℕ) (edges : List Edge) : List (ℕ × ℕ) :=
  if edges.isEmpty then []
  else
    let optimum := (rankForward length edges).2
    let ranked := rankedEdges length edges
    let pops := populations optimum ranked
    (ranked.filter fun e => e.optimal optimum && decide (pops[e.forward - 1]? = some .unique)).map
      fun e => (e.edge.payload, e.edge.reference)

/-! ## Literal candidates -/

def postingsOf (reference : List String) (mode : LiteralMatchMode) : ℕ → String → List ℕ
  | 0 => fun _ => []
  | j + 1 => match reference[j]? with
    | none => postingsOf reference mode j
    | some word => Function.update (postingsOf reference mode j) (key word mode)
        (postingsOf reference mode j (key word mode) ++ [j])

/-- `usize::MAX` on a 64-bit target. -/
def usizeMax : ℕ := 2 ^ 64 - 1

def saturatingAdd (a b : ℕ) : ℕ := min (a + b) usizeMax

def saturatingMul (a b : ℕ) : ℕ := min (a * b) usizeMax

def divCeil (a b : ℕ) : ℕ := (a + b - 1) / b

structure LiteralCandidates where
  payload : List String
  reference : List String
  mode : LiteralMatchMode
  postings : String → List ℕ
  rawEdges : ℕ

def LiteralCandidates.observe (payload reference : List String) (mode : LiteralMatchMode) :
    LiteralCandidates :=
  let postings := postingsOf reference mode reference.length
  ⟨payload, reference, mode, postings,
    payload.foldl (fun edges word => saturatingAdd edges (postings (key word mode)).length) 0⟩

/-- `LiteralCandidates::references`; a payload index outside the payload has none. -/
def LiteralCandidates.references (input : LiteralCandidates) (payload : ℕ) : List ℕ :=
  match input.payload[payload]? with
  | none => []
  | some word => input.postings (key word input.mode)

/-! ## The packed route -/

def strideFrom (m : ℕ) : ℕ → ℕ → ℕ
  | 0, stride => stride
  | fuel + 1, stride => if stride < divCeil m stride then strideFrom m fuel (stride + 1) else stride

/-- The words of the packed buffers, on a 64-bit target. -/
def bitWords : ℕ := 1

def prefixBlockWords : ℕ := 2

def rankPopulationWords : ℕ := 3

def edgePayloadWords : ℕ := 4

/-- `StorageAdmittedLiteralProof::admit`: the stride, if the rows fit the allowance. -/
def admitStorage (input : LiteralCandidates) (edgeLimit : ℕ) : Option ℕ :=
  let m := input.payload.length
  let n := input.reference.length
  let blocks := divCeil n 64
  let stride := strideFrom m m 1
  let rows := saturatingAdd (saturatingMul (saturatingAdd (m / stride + 1) 4) bitWords)
    (saturatingMul (stride + 1) prefixBlockWords)
  let rankWords := rankPopulationWords + 2
  let storage := saturatingAdd (saturatingAdd (saturatingMul blocks rows) (saturatingMul n 32))
    (saturatingMul (saturatingAdd m 1) rankWords)
  if storage ≤ saturatingMul edgeLimit edgePayloadWords then some stride else none

inductive RankPopulation where
  | empty
  | unique (payload reference : ℕ)
  | competing

def RankPopulation.observe (population : RankPopulation) (payload reference : ℕ) : RankPopulation :=
  match population with
  | .empty => .unique payload reference
  | .unique _ _ => .competing
  | .competing => .competing

def RankPopulation.sole? : RankPopulation → Option (ℕ × ℕ)
  | .unique payload reference => some (payload, reference)
  | _ => none

/-- The forward pass from a payload index on, with the rows kept every `stride` words. -/
def forwardRows (owner : LiteralReference) (stride : ℕ) :
    ℕ → List (BitVec 64) → List String → List (BitVec 64) × List (List (BitVec 64))
  | _, row, [] => (row, [])
  | p, row, word :: words =>
    let extended := owner.extend row word
    let rest := forwardRows owner stride (p + 1) extended words
    (rest.1, if (p + 1) % stride = 0 then extended :: rest.2 else rest.2)

def reconstruct (owner : LiteralReference) : List (BitVec 64) → List String → List PrefixScores
  | _, [] => []
  | row, word :: words =>
    prefixes owner.reference.length row :: reconstruct owner (owner.extend row word) words

structure EdgeCount where
  optimalEdges : ℕ
  populations : List RankPopulation

/-- The edges of one payload word; `none` when the allowance is spent. -/
def observeReferences (edgeLimit optimum length : ℕ) (before suffix : PrefixScores) (p : ℕ) :
    List ℕ → EdgeCount → Option EdgeCount
  | [], state => some state
  | r :: references, state =>
    let rank := before.before r + 1
    if rank + suffix.before (length - r - 1) = optimum then
      if state.optimalEdges = edgeLimit then none
      else observeReferences edgeLimit optimum length before suffix p references
        ⟨state.optimalEdges + 1, state.populations.modify rank fun pop => pop.observe p r⟩
    else observeReferences edgeLimit optimum length before suffix p references state

section Packed
variable (input : LiteralCandidates) (reverse : LiteralReference) (edgeLimit optimum : ℕ)

def observeBlock : List (ℕ × String × PrefixScores) → List (BitVec 64) → EdgeCount →
    Option (List (BitVec 64) × EdgeCount)
  | [], backward, state => some (backward, state)
  | (p, word, before) :: block, backward, state =>
    match observeReferences edgeLimit optimum input.reference.length before
      (prefixes input.reference.length backward) p (input.references p) state with
    | none => none
    | some state' => observeBlock block (reverse.extend backward word) state'

def observeBlocks (forward : LiteralReference) (checkpoints : List (List (BitVec 64))) (stride : ℕ) :
    ℕ → ℕ → List (BitVec 64) → EdgeCount → Option EdgeCount
  | fuel + 1, finish + 1, backward, state =>
    let start := finish / stride * stride
    let words := (input.payload.drop start).take (finish + 1 - start)
    let scores := reconstruct forward (checkpoints.getD (start / stride) []) words
    let block := (List.range' start (finish + 1 - start)).zip (words.zip scores)
    match observeBlock input reverse edgeLimit optimum block.reverse backward state with
    | none => none
    | some (backward', state') => observeBlocks forward checkpoints stride fuel start backward' state'
  | _, _, _, state => some state

end Packed

/-- `StorageAdmittedLiteralProof::certify`. -/
def certifyPacked (input : LiteralCandidates) (stride edgeLimit : ℕ) : CorrespondenceAdmission :=
  let forward := LiteralReference.observe input.reference input.mode .forward
  let reverse := LiteralReference.observe input.reference input.mode .reverse
  let rows := forwardRows forward stride 0 forward.start input.payload
  let optimum := score rows.1
  let start : EdgeCount := ⟨0, List.replicate (optimum + 1) .empty⟩
  match observeBlocks input reverse edgeLimit optimum forward (forward.start :: rows.2) stride
    input.payload.length input.payload.length reverse.start start with
  | none => .budgetExhausted ⟨edgeLimit⟩
  | some state => .complete (state.populations.filterMap RankPopulation.sole?)

/-! ## Fuzzy candidates -/

/-- The id of a spelling, its first occurrence, and the spellings so far. -/
def intern (words : List String) (original : String) : ℕ × List String :=
  match words.idxOf? original with
  | some id => (id, words)
  | none => (words.length, words ++ [original])

structure ReferenceClass where
  spelling : String
  word : ℕ
  occurrences : ℕ

structure FuzzyCandidates where
  words : List String
  payload : List ℕ
  referenceClasses : List ReferenceClass
  referenceOrder : List ℕ

def internPayload (words : List String) : List String → List ℕ × List String
  | [] => ([], words)
  | original :: rest =>
    let interned := intern words original
    let more := internPayload interned.2 rest
    (interned.1 :: more.1, more.2)

def internReference (words : List String) (classes : List ReferenceClass) :
    List String → List String × List ReferenceClass × List ℕ
  | [] => (words, classes, [])
  | original :: rest =>
    match classes.findIdx? fun c => c.spelling == original with
    | some id =>
      let more := internReference words
        (classes.modify id fun c => { c with occurrences := c.occurrences + 1 }) rest
      (more.1, more.2.1, id :: more.2.2)
    | none =>
      let interned := intern words original
      let more := internReference interned.2 (classes ++ [⟨original, interned.1, 1⟩]) rest
      (more.1, more.2.1, classes.length :: more.2.2)

def FuzzyCandidates.prepare (payload reference : List String) : FuzzyCandidates :=
  let source := internPayload [] payload
  let classed := internReference source.2 [] reference
  ⟨classed.1, source.1, classed.2.1, classed.2.2⟩

structure FuzzyRows where
  edges : List Edge
  rows : ℕ → Option (ℕ × ℕ)

section Fuzzy
variable (policy : FuzzyComparison) (input : FuzzyCandidates)

def FuzzyCandidates.matchesWords (word other : ℕ) : Bool :=
  match input.words[word]?, input.words[other]? with
  | some a, some b => (alignableFuzzy policy).isMatch (policy.prepare a) (policy.prepare b)
  | _, _ => false

/-- One payload word: its row, retained or observed, is admitted whole and appended. -/
def fuzzyRow (edgeLimit : ℕ) (payload word : ℕ) (state : FuzzyRows) :
    Except CorrespondenceBudget FuzzyRows :=
  match state.rows word with
  | some (start, finish) =>
    if edgeLimit - state.edges.length < finish - start then .error ⟨edgeLimit⟩
    else .ok ⟨state.edges ++ ((state.edges.drop start).take (finish - start)).map
      fun e => ⟨payload, e.reference⟩, state.rows⟩
  | none =>
    let relation := input.referenceClasses.map fun c => input.matchesWords policy word c.word
    let count := ((input.referenceClasses.zip relation).map
      fun (c, matching) => if matching then c.occurrences else 0).sum
    if edgeLimit - state.edges.length < count then .error ⟨edgeLimit⟩
    else
      let row := (input.referenceOrder.zipIdx.filter fun (c, _) => relation.getD c false).map
        fun (_, reference) => Edge.mk payload reference
      let edges := state.edges ++ row
      .ok ⟨edges, Function.update state.rows word (some (state.edges.length, edges.length))⟩

/-- The loop of `FuzzyCandidates::finish`. -/
def fuzzyRows (edgeLimit : ℕ) : ℕ → List ℕ → FuzzyRows → Except CorrespondenceBudget FuzzyRows
  | _, [], state => .ok state
  | payload, word :: rest, state =>
    match fuzzyRow policy input edgeLimit payload word state with
    | .error budget => .error budget
    | .ok state' => fuzzyRows edgeLimit (payload + 1) rest state'

def FuzzyCandidates.finish (edgeLimit : ℕ) : Except CorrespondenceBudget (List Edge) :=
  match fuzzyRows policy input edgeLimit 0 input.payload ⟨[], fun _ => none⟩ with
  | .error budget => .error budget
  | .ok state => .ok state.edges

end Fuzzy

/-! ## Admission -/

def pushEdges (edgeLimit : ℕ) : List Edge → List Edge → Except CorrespondenceBudget (List Edge)
  | edges, [] => .ok edges
  | edges, edge :: rest =>
    if edges.length = edgeLimit then .error ⟨edgeLimit⟩ else pushEdges edgeLimit (edges ++ [edge]) rest

def literalEdges (input : LiteralCandidates) : List Edge :=
  (List.range input.payload.length).flatMap fun p => (input.references p).map fun r => ⟨p, r⟩

/-- The literal part of `candidate_edges`, ranked. -/
def admitLiteral (payload reference : List String) (mode : LiteralMatchMode) (edgeLimit : ℕ) :
    CorrespondenceAdmission :=
  let input := LiteralCandidates.observe payload reference mode
  let sparse := match pushEdges edgeLimit [] (literalEdges input) with
    | .error budget => CorrespondenceAdmission.budgetExhausted budget
    | .ok edges => .complete (certifySparse reference.length edges)
  if edgeLimit < input.rawEdges then
    match admitStorage input edgeLimit with
    | some stride => certifyPacked input stride edgeLimit
    | none => sparse
  else sparse

/-- `admit_controlled`, uninterrupted. -/
def admitControlled (payload reference : List String) (mode : MatchMode) (edgeLimit : ℕ) : CorrespondenceAdmission :=
  match mode with
  | .exact => admitLiteral payload reference .exact edgeLimit
  | .caseInsensitive => admitLiteral payload reference .asciiInsensitive edgeLimit
  | .fuzzy policy =>
    match (FuzzyCandidates.prepare payload reference).finish policy edgeLimit with
    | .error budget => .budgetExhausted budget
    | .ok edges => .complete (certifySparse reference.length edges)

def maxEdges : ℕ := 1048576

def CorrespondenceAdmission.observe (payload reference : List String) (mode : MatchMode) :
    CorrespondenceAdmission := admitControlled payload reference mode maxEdges

end Batchalign.DpAlign
