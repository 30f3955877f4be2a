import Batchalign.Lib.Tabulate
import Batchalign.Interleaving.Capacity
import Batchalign.Interleaving.SearchGraph

/- The scalar search of the source graph, row by row of the reference
   (`episodes/band.rs`). -/
namespace Batchalign.Interleaving
open Batchalign.DpAlign WordRuns List

/-- `None` is unreachable. The source stores the score plus one in a nonzero word. -/
abbrev Score := Option ℕ

def increment (score : Score) : Score := score.map (· + 1)

def combined (a b : Score) (matched : ℕ) : Score := a.bind fun a => b.map fun b => a + b + matched

/-- The scores of a range of slots. -/
structure Row where
  first : ℕ
  scores : List Score

namespace Row

def get (row : Row) (slot : ℕ) : Score :=
  if slot < row.first then none else (row.scores[slot - row.first]?).join

def slots (row : Row) : List ℕ := List.range' row.first row.scores.length

def improve (row : Row) (slot : ℕ) (score : Score) : Row :=
  { row with scores := row.scores.modify (slot - row.first) fun cell => max cell score }

end Row

/-- `slice::partition_point`, on a slice whose values are in order. -/
def partitionPoint {α : Type} (p : α → Bool) (l : List α) : ℕ := (l.takeWhile p).length

structure Band where
  graph : Graph
  relation : Relation
  sourceLen : ℕ
  referenceLen : ℕ
  feasible : ℕ
  block : ℕ
  scoringCells : ℕ
  capacity : Option ReferenceCapacity

namespace Band

def depthsAt (band : Band) (k : ℕ) : ℕ × ℕ :=
  match band.capacity with
  | some capacity => capacity.depths k
  | none => (k - (band.referenceLen - band.feasible),
      min band.sourceLen (k + (band.sourceLen - band.feasible)))

/-- The first slot, and the one after the last. -/
def slots (band : Band) (k : ℕ) : ℕ × ℕ :=
  (partitionPoint (fun node => decide (band.graph.depth node < (band.depthsAt k).1)) band.graph.order,
    partitionPoint (fun node => decide (band.graph.depth node ≤ (band.depthsAt k).2)) band.graph.order)

def row (band : Band) (k : ℕ) (fill : Score) : Row :=
  ⟨(band.slots k).1, List.replicate ((band.slots k).2 - (band.slots k).1) fill⟩

def initial (band : Band) : Row := band.row 0 (some 0)

def terminal (band : Band) : Row := band.row band.referenceLen (some 0)

def takes (band : Band) (k : ℕ) (e : Edge) : Bool :=
  e.word.any fun word => band.relation.matchesAt word k

/-- What an edge can add to a slot: its other end's score, or one more in the row beside. -/
def improveAlong (band : Band) (beside : Row) (k slot : ℕ) (row : Row) (e : Edge) : Row :=
  let other := band.graph.rank e.target
  let row := row.improve slot (row.get other)
  if band.takes k e then row.improve slot (increment (beside.get other)) else row

def fillSlot (band : Band) (adjacent : ℕ → List Edge) (beside : Row) (k : ℕ) (row : Row) (slot : ℕ) : Row :=
  (adjacent (band.graph.order.getD slot 0)).foldl (band.improveAlong beside k slot)
    (row.improve slot (beside.get slot))

/-- The loop of `forward` and `backward` over the slots of a row. -/
def fill (band : Band) (adjacent : ℕ → List Edge) (beside : Row) (k : ℕ) (row : Row)
    (slots : List ℕ) : Row := slots.foldl (band.fillSlot adjacent beside k) row

def forward (band : Band) (previous : Row) (k : ℕ) : Row :=
  let row := band.row (k + 1) none
  band.fill band.graph.incoming previous k row row.slots

def backward (band : Band) (next : Row) (k : ℕ) : Row :=
  let row := band.row k none
  band.fill band.graph.edges next k row row.slots.reverse

def reaches (score optimum : Score) : Bool := score.isSome && score == optimum

/-- One edge of `observe_edges`, with the forward score at its start. -/
def observeEdge (band : Band) (backward : Row) (next : Option (Row × ℕ)) (optimum : Score)
    (state : List WordEvidence × ℕ) (p : ℕ × Edge) : List WordEvidence × ℕ :=
  match p.2.word with
  | none => state
  | some word =>
    let other := band.graph.rank p.2.target
    let words :=
      if reaches (combined (some p.1) (backward.get other) 0) optimum then
        state.1.modify word fun evidence => { evidence with canBeMissing := true }
      else state.1
    match next with
    | none => (words, state.2)
    | some (next, k) =>
      if band.relation.matchesAt word k && reaches (combined (some p.1) (next.get other) 1) optimum &&
          decide ((words[word]?).bind (fun evidence => evidence.candidates.getLast?) ≠ some k) then
        (words.modify word fun evidence =>
          { evidence with candidates := evidence.candidates ++ [k] }, state.2 + 1)
      else (words, state.2)

def openEdges (band : Band) (forward : Row) : List (ℕ × Edge) :=
  forward.slots.flatMap fun slot => match forward.get slot with
    | none => []
    | some score => (band.graph.edges (band.graph.order.getD slot 0)).map fun e => (score, e)

/-- The evidence, and the number of candidates added. -/
def observeEdges (band : Band) (forward backward : Row) (next : Option (Row × ℕ)) (optimum : Score)
    (words : List WordEvidence) : List WordEvidence × ℕ :=
  (band.openEdges forward).foldl (band.observeEdge backward next optimum) (words, 0)

end Band

/-! ## Rows -/

variable {t : ℕ}

namespace Row
variable {row : Row} {slot slot' : ℕ} {score : Score}

def Has (row : Row) (slot : ℕ) : Prop := row.first ≤ slot ∧ slot < row.first + row.scores.length

theorem mem_slots : slot ∈ row.slots ↔ row.Has slot := by
  rw [slots, mem_range'_1, Has]

theorem get_of_not_has (h : ¬ row.Has slot) : row.get slot = none := by
  rw [get]
  split_ifs with hlow
  · rfl
  · rw [getElem?_eq_none (by rw [Has] at h; omega)]
    rfl

theorem has_of_get (h : row.get slot = some t) : row.Has slot := by
  by_contra hnot
  rw [get_of_not_has hnot] at h
  cases h

@[simp] theorem improve_first : (row.improve slot score).first = row.first := rfl

@[simp] theorem improve_length : (row.improve slot score).scores.length = row.scores.length :=
  length_modify _ _ _

theorem improve_has : (row.improve slot score).Has slot' ↔ row.Has slot' := by
  rw [Has, Has, improve_first, improve_length]

theorem improve_get_self (h : row.Has slot) :
    (row.improve slot score).get slot = max (row.get slot) score := by
  obtain ⟨hlow, hhigh⟩ := h
  have hcell : slot - row.first < row.scores.length := by omega
  rw [get, get, if_neg (by rw [improve_first]; omega), if_neg (by omega)]
  simp only [improve, getElem?_modify_eq, getElem?_eq_getElem hcell]
  rfl

theorem improve_get_ne (hne : slot' ≠ slot) (h : row.Has slot) :
    (row.improve slot score).get slot' = row.get slot' := by
  rw [get, get, improve_first]
  split_ifs with hlow
  · rfl
  · have hcells : slot - row.first ≠ slot' - row.first := by
      rw [Has] at h
      omega
    rw [improve, getElem?_modify_ne _ _ hcells]

end Row

/-! ## The best of some scores -/

theorem max_eq_some {a b : Score} (h : max a b = some t) : a = some t ∨ b = some t := by
  cases a with
  | none => exact .inr (by rwa [Option.max_none_left] at h)
  | some x =>
    cases b with
    | none => exact .inl (by rwa [Option.max_none_right] at h)
    | some y =>
      have hmax : max x y = t := Option.some.inj h
      rcases le_total x y with hxy | hxy
      · exact .inr (by rw [← hmax, max_eq_right hxy])
      · exact .inl (by rw [← hmax, max_eq_left hxy])

theorem le_max_some {a b : Score} (h : a = some t ∨ b = some t) : ∃ t', max a b = some t' ∧ t ≤ t' := by
  cases a with
  | none =>
    rcases h with h | h
    · cases h
    · exact ⟨t, by rw [Option.max_none_left, h], le_refl t⟩
  | some x =>
    cases b with
    | none =>
      rcases h with h | h
      · exact ⟨t, by rw [Option.max_none_right, h], le_refl t⟩
      · cases h
    | some y =>
      refine ⟨max x y, rfl, ?_⟩
      rcases h with h | h
      · rw [← Option.some.inj h]
        exact le_max_left x y
      · rw [← Option.some.inj h]
        exact le_max_right x y

theorem foldl_max_eq_some {l : List Score} {s : Score} (h : l.foldl max s = some t) :
    s = some t ∨ some t ∈ l := by
  induction l generalizing s with
  | nil => exact .inl h
  | cons a l ih =>
    rcases ih h with hmax | hmem
    · rcases max_eq_some hmax with hs | ha
      · exact .inl hs
      · exact .inr (mem_cons.mpr (.inl ha.symm))
    · exact .inr (mem_cons_of_mem _ hmem)

theorem le_foldl_max {l : List Score} {s : Score} (h : s = some t ∨ some t ∈ l) :
    ∃ t', l.foldl max s = some t' ∧ t ≤ t' := by
  induction l generalizing s t with
  | nil =>
    rcases h with h | h
    · exact ⟨t, h, le_refl t⟩
    · cases h
  | cons a l ih =>
    rcases h with h | h
    · obtain ⟨x, hx, hle⟩ := le_max_some (b := a) (.inl h)
      obtain ⟨t', ht', hle'⟩ := ih (.inl hx)
      exact ⟨t', ht', hle.trans hle'⟩
    · rcases mem_cons.mp h with h | h
      · obtain ⟨x, hx, hle⟩ := le_max_some (a := s) (.inr h.symm)
        obtain ⟨t', ht', hle'⟩ := ih (.inl hx)
        exact ⟨t', ht', hle.trans hle'⟩
      · exact ih (.inr h)

/-! ## Filled rows -/

namespace Band
variable {band : Band} {adjacent : ℕ → List Edge} {beside row : Row} {k slot : ℕ}

def offers (band : Band) (beside : Row) (k : ℕ) (scores : ℕ → Score) (e : Edge) : List Score :=
  let other := band.graph.rank e.target
  [scores other, if band.takes k e then increment (beside.get other) else none]

def bestAt (band : Band) (adjacent : ℕ → List Edge) (beside : Row) (k : ℕ) (scores : ℕ → Score)
    (slot : ℕ) : Score :=
  ((adjacent (band.graph.order.getD slot 0)).flatMap (band.offers beside k scores)).foldl max
    (max (scores slot) (beside.get slot))

theorem improveAlong_first (e : Edge) : (band.improveAlong beside k slot row e).first = row.first := by
  rw [improveAlong]
  split_ifs <;> rfl

theorem improveAlong_length (e : Edge) :
    (band.improveAlong beside k slot row e).scores.length = row.scores.length := by
  rw [improveAlong]
  split_ifs <;> simp

theorem improveAlong_has (e : Edge) {slot' : ℕ} :
    (band.improveAlong beside k slot row e).Has slot' ↔ row.Has slot' := by
  rw [Row.Has, Row.Has, improveAlong_first, improveAlong_length]

theorem improveAlong_get_self (h : row.Has slot) (e : Edge) :
    (band.improveAlong beside k slot row e).get slot =
      (band.offers beside k row.get e).foldl max (row.get slot) := by
  have hafter : (row.improve slot (row.get (band.graph.rank e.target))).Has slot :=
    Row.improve_has.mpr h
  rw [improveAlong, offers]
  split_ifs
  · rw [Row.improve_get_self hafter, Row.improve_get_self h]
    rfl
  · rw [Row.improve_get_self h]
    simp

theorem improveAlong_get_ne (h : row.Has slot) (e : Edge) {slot' : ℕ} (hne : slot' ≠ slot) :
    (band.improveAlong beside k slot row e).get slot' = row.get slot' := by
  have hafter : (row.improve slot (row.get (band.graph.rank e.target))).Has slot :=
    Row.improve_has.mpr h
  rw [improveAlong]
  split_ifs
  · rw [Row.improve_get_ne hne hafter, Row.improve_get_ne hne h]
  · rw [Row.improve_get_ne hne h]

theorem foldl_improveAlong (band : Band) (beside : Row) (k : ℕ) (edges : List Edge) : ∀ {row : Row}, row.Has slot →
    (∀ e ∈ edges, band.graph.rank e.target ≠ slot) →
    (edges.foldl (band.improveAlong beside k slot) row).first = row.first ∧
    (edges.foldl (band.improveAlong beside k slot) row).scores.length = row.scores.length ∧
    (edges.foldl (band.improveAlong beside k slot) row).get slot =
      (edges.flatMap (band.offers beside k row.get)).foldl max (row.get slot) ∧
    ∀ slot' ≠ slot, (edges.foldl (band.improveAlong beside k slot) row).get slot' = row.get slot' := by
  induction edges with
  | nil => exact fun _ _ => ⟨rfl, rfl, rfl, fun _ _ => rfl⟩
  | cons e edges ih =>
    intro row h hne
    have hhas : (band.improveAlong beside k slot row e).Has slot := (improveAlong_has e).mpr h
    obtain ⟨hfirst, hlen, hself, hother⟩ := ih hhas fun d hd => hne d (mem_cons_of_mem _ hd)
    -- the other ends of the remaining edges are other slots, so they offer what they did
    have hoffers : edges.flatMap (band.offers beside k (band.improveAlong beside k slot row e).get) =
        edges.flatMap (band.offers beside k row.get) := by
      apply flatMap_congr
      intro d hd
      simp only [offers]
      rw [improveAlong_get_ne h e (hne d (mem_cons_of_mem _ hd))]
    refine ⟨hfirst.trans (improveAlong_first e), hlen.trans (improveAlong_length e), ?_, ?_⟩
    · rw [foldl_cons, hself, hoffers, flatMap_cons, foldl_append, improveAlong_get_self h e]
    · intro slot' hslot'
      rw [foldl_cons, hother slot' hslot', improveAlong_get_ne h e hslot']

theorem fill_get (band : Band) (adjacent : ℕ → List Edge) (beside : Row) (k : ℕ) {slots : List ℕ}
    {before : ℕ → ℕ → Prop} (hsorted : slots.Pairwise before)
    (hirrefl : ∀ slot ∈ slots, ¬ before slot slot) (hslots : ∀ slot, slot ∈ slots ↔ row.Has slot)
    (hadjacent : ∀ slot ∈ slots, ∀ e ∈ adjacent (band.graph.order.getD slot 0),
      band.graph.rank e.target ≠ slot ∧ ¬ before slot (band.graph.rank e.target)) :
    (∀ slot, row.Has slot → (band.fill adjacent beside k row slots).get slot =
      ((adjacent (band.graph.order.getD slot 0)).flatMap
        (band.offers beside k (band.fill adjacent beside k row slots).get)).foldl max
          (max (row.get slot) (beside.get slot))) ∧
    (band.fill adjacent beside k row slots).first = row.first ∧
      (band.fill adjacent beside k row slots).scores.length = row.scores.length := by
  have hfill : ∀ t : Row, ∀ slot ∈ slots, t.first = row.first ∧ t.scores.length = row.scores.length →
      t.Has slot := by
    intro t slot hslot ht
    obtain ⟨hlow, hhigh⟩ := (hslots slot).mp hslot
    rw [Row.Has, ht.1, ht.2]
    exact ⟨hlow, hhigh⟩
  have htouches : Tabulate.Touches
      (fun t : Row => t.first = row.first ∧ t.scores.length = row.scores.length) Row.get
      (band.fillSlot adjacent beside k) (band.bestAt adjacent beside k) slots := by
    refine ⟨?_, ?_, ?_⟩
    · intro t slot hslot ht
      have hhas : (t.improve slot (beside.get slot)).Has slot :=
        Row.improve_has.mpr (hfill t slot hslot ht)
      obtain ⟨hfirst, hlen, -, -⟩ := foldl_improveAlong band beside k _ hhas
        fun e he => (hadjacent slot hslot e he).1
      exact ⟨hfirst.trans ht.1, (hlen.trans Row.improve_length).trans ht.2⟩
    · intro t slot hslot ht
      have hhas := hfill t slot hslot ht
      have hhas' : (t.improve slot (beside.get slot)).Has slot := Row.improve_has.mpr hhas
      obtain ⟨-, -, hself, -⟩ := foldl_improveAlong band beside k _ hhas'
        fun e he => (hadjacent slot hslot e he).1
      have hoffers : (adjacent (band.graph.order.getD slot 0)).flatMap
          (band.offers beside k (t.improve slot (beside.get slot)).get) =
            (adjacent (band.graph.order.getD slot 0)).flatMap (band.offers beside k t.get) := by
        apply flatMap_congr
        intro e he
        simp only [offers]
        rw [Row.improve_get_ne (hadjacent slot hslot e he).1 hhas]
      rw [fillSlot, hself, hoffers, Row.improve_get_self hhas]
      rfl
    · intro t slot hslot slot' hne ht
      have hhas := hfill t slot hslot ht
      have hhas' : (t.improve slot (beside.get slot)).Has slot := Row.improve_has.mpr hhas
      obtain ⟨-, -, -, hother⟩ := foldl_improveAlong band beside k _ hhas'
        fun e he => (hadjacent slot hslot e he).1
      rw [fillSlot, hother slot' hne, Row.improve_get_ne hne hhas]
  refine ⟨?_, htouches.foldl_keep ⟨rfl, rfl⟩⟩
  intro slot hhas
  have hslot := (hslots slot).mpr hhas
  have hown := htouches.foldl_own (t := row) ⟨rfl, rfl⟩ hsorted hirrefl
    (fun slot other => ∃ e ∈ adjacent (band.graph.order.getD slot 0), other = band.graph.rank e.target)
    (by
      intro g g' slot _ hself hreads
      rw [bestAt, bestAt, hself]
      congr 1
      apply flatMap_congr
      intro e he
      simp only [offers]
      rw [hreads _ ⟨e, he, rfl⟩])
    (by
      rintro slot hslot _ ⟨e, he, rfl⟩
      exact hadjacent slot hslot e he)
    hslot (g := Function.update (band.fill adjacent beside k row slots).get slot (row.get slot))
    (Function.update_self ..) (fun d hd => Function.update_of_ne hd _ _)
  rw [fill, hown, bestAt, Function.update_self]
  congr 1
  apply flatMap_congr
  intro e he
  simp only [offers]
  rw [Function.update_of_ne (hadjacent slot hslot e he).1]
  rfl

end Band

end Batchalign.Interleaving
