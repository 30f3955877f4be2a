import Mathlib.Data.List.Destutter
import Batchalign.Interleaving.TwoSpeakers

/- The two-speaker evidence is exact over all maximum joint assignments. -/
namespace Batchalign.Interleaving
open Batchalign.DpAlign JointChains BestPath List
open Bool (and_eq_true)
open Option (bind_eq_bind bind_some)

/-! ## Cells and positions -/

def Cell.position (c : Cell) : Position SpeakerChain :=
  ⟨fun | .first => c.i | .second => c.j, c.k⟩

variable {c d : Cell} {m n p : ℕ}

@[simp] theorem Cell.position_first : c.position.word .first = c.i := rfl

@[simp] theorem Cell.position_second : c.position.word .second = c.j := rfl

@[simp] theorem Cell.position_reference : c.position.reference = c.k := rfl

theorem Cell.position_inj : c.position = d.position ↔ c = d := by
  constructor
  · intro h
    have h1 := congrArg (fun s => s.word .first) h
    have h2 := congrArg (fun s => s.word .second) h
    have h3 := congrArg Position.reference h
    obtain ⟨i, j, k⟩ := c
    simp only [position_first, position_second, position_reference] at h1 h2 h3
    rw [h1, h2, h3]
  · rintro rfl
    rfl

theorem exists_cell (s : Position SpeakerChain) : ∃ c : Cell, c.position = s := by
  refine ⟨⟨s.word .first, s.word .second, s.reference⟩, ?_⟩
  obtain ⟨word, reference⟩ := s
  simp only [Cell.position, Position.mk.injEq, and_true]
  funext chain
  cases chain <;> rfl

def Cell.advance (c : Cell) : SpeakerChain → Cell
  | .first => ⟨c.i + 1, c.j, c.k⟩
  | .second => ⟨c.i, c.j + 1, c.k⟩

def Cell.next (c : Cell) : Cell := ⟨c.i, c.j, c.k + 1⟩

theorem Cell.position_advance (chain : SpeakerChain) :
    (c.advance chain).position = c.position.advance chain := by
  simp only [Position.advance, Cell.position, Position.mk.injEq]
  refine ⟨?_, by cases chain <;> rfl⟩
  funext other
  cases chain <;> cases other <;> rfl

theorem Cell.position_next : c.next.position = c.position.next := rfl

theorem mem_cellsOf : c ∈ cellsOf m n p ↔ c.i ≤ m ∧ c.j ≤ n ∧ c.k ≤ p := by
  simp only [cellsOf, mem_flatMap, mem_range, mem_map]
  constructor
  · rintro ⟨i, hi, j, hj, k, hk, rfl⟩
    simp only
    omega
  · rintro ⟨hi, hj, hk⟩
    exact ⟨c.i, by omega, c.j, by omega, c.k, by omega, rfl⟩

/-! ## Addresses -/

variable {k : ℕ} {move : Move SpeakerChain} {table : List ℕ} {chain : SpeakerChain}
  {e : WordEvidence}

theorem row_lt {a b w k' : ℕ} (hab : a < b) (hk : k < w) : a * w + k < b * w + k' := by
  have h : (a + 1) * w ≤ b * w := Nat.mul_le_mul_right w hab
  rw [Nat.add_mul, Nat.one_mul] at h
  omega

structure Prepared (shape : AdmittedShape) (relation : MatchRelation)
    (P : Problem SpeakerChain) : Prop where
  second : shape.second = P.length .second + 1
  reference : shape.reference = P.references + 1
  cells : shape.cells = (P.length .first + 1) * (P.length .second + 1) * (P.references + 1)
  matchesAt : ∀ chain word k, word < P.length chain → k < P.references →
    relation.matchesAt chain word k = some (P.isMatch chain word k)

def cellsIn (P : Problem SpeakerChain) : List Cell :=
  cellsOf (P.length .first) (P.length .second) P.references

variable {shape : AdmittedShape} {relation : MatchRelation} {P : Problem SpeakerChain}

theorem mem_cellsIn : c ∈ cellsIn P ↔ Inside P c.position := by
  simp only [cellsIn, mem_cellsOf, Inside, Cell.position_reference]
  constructor
  · rintro ⟨hi, hj, hk⟩
    refine ⟨?_, hk⟩
    intro chain
    cases chain
    · exact hi
    · exact hj
  · rintro ⟨hword, hk⟩
    exact ⟨hword .first, hword .second, hk⟩

def AdmittedShape.address (shape : AdmittedShape) (c : Cell) : ℕ := shape.cellAt c.i c.j c.k

theorem address_origin : shape.address ⟨0, 0, 0⟩ = 0 := by
  simp [AdmittedShape.address, AdmittedShape.cellAt]

namespace Prepared

section
variable (h : Prepared shape relation P)
include h

theorem address_lt (hc : c ∈ cellsIn P) : shape.address c < (replicate shape.cells 0).length := by
  obtain ⟨hi, hj, hk⟩ := mem_cellsOf.mp hc
  rw [length_replicate, h.cells, AdmittedShape.address, AdmittedShape.cellAt, h.second, h.reference]
  have hrow : c.i * (P.length .second + 1) + c.j < (P.length .first + 1) * (P.length .second + 1) + 0 :=
    row_lt (by omega) (by omega)
  have hcell : (c.i * (P.length .second + 1) + c.j) * (P.references + 1) + c.k <
      ((P.length .first + 1) * (P.length .second + 1) + 0) * (P.references + 1) + 0 :=
    row_lt hrow (by omega)
  simpa using hcell

theorem sorted : (cellsIn P).Pairwise fun c d => shape.address c < shape.address d := by
  simp only [cellsIn, cellsOf, AdmittedShape.address, AdmittedShape.cellAt, h.second, h.reference]
  refine pairwise_flatMap.mpr ⟨?_, ?_⟩
  · intro i hi
    refine pairwise_flatMap.mpr ⟨?_, ?_⟩
    · intro j hj
      refine pairwise_map.mpr (pairwise_lt_range.imp ?_)
      intro k k' hk
      simp only
      omega
    · refine pairwise_lt_range.imp_of_mem ?_
      intro j j' hj hj' hlt c hc d hd
      obtain ⟨k, hk, rfl⟩ := mem_map.mp hc
      obtain ⟨k', hk', rfl⟩ := mem_map.mp hd
      exact row_lt (by simpa using hlt) (mem_range.mp hk)
  · refine pairwise_lt_range.imp_of_mem ?_
    intro i i' hi hi' hlt c hc d hd
    obtain ⟨j, hj, hc⟩ := mem_flatMap.mp hc
    obtain ⟨j', hj', hd⟩ := mem_flatMap.mp hd
    obtain ⟨k, hk, rfl⟩ := mem_map.mp hc
    obtain ⟨k', hk', rfl⟩ := mem_map.mp hd
    exact row_lt (row_lt hlt (mem_range.mp hj)) (mem_range.mp hk)

theorem address_advance_lt (chain : SpeakerChain)
    (hc : (c.advance chain) ∈ cellsIn P) : shape.address c < shape.address (c.advance chain) := by
  obtain ⟨hi, hj, hk⟩ := mem_cellsOf.mp hc
  simp only [AdmittedShape.address, AdmittedShape.cellAt, h.second, h.reference]
  cases chain with
  | first =>
    simp only [Cell.advance] at hi hj hk ⊢
    exact row_lt (row_lt (by omega) (by omega)) (by omega)
  | second =>
    simp only [Cell.advance] at hi hj hk ⊢
    exact row_lt (by omega) (by omega)

end

theorem address_next_lt : shape.address c < shape.address c.next := by
  simp only [AdmittedShape.address, AdmittedShape.cellAt, Cell.next]
  omega

end Prepared

/-! ## The steps between cells -/

def Cell.back (c : Cell) : SpeakerChain → Cell
  | .first => ⟨c.i - 1, c.j, c.k⟩
  | .second => ⟨c.i, c.j - 1, c.k⟩

def Cell.prior (c : Cell) : Cell := ⟨c.i, c.j, c.k - 1⟩

theorem step_into_skipWord (chain : SpeakerChain) (hc : c ∈ cellsIn P) :
    Step P (c.back chain).position (.skipWord chain (c.position.word chain - 1)) c.position ↔
      0 < c.position.word chain := by
  obtain ⟨hi, hj, -⟩ := mem_cellsOf.mp hc
  rw [step_skipWord, ← Cell.position_advance, Cell.position_inj]
  obtain ⟨i, j, k⟩ := c
  cases chain
  · simp only [Cell.back, Cell.advance, Cell.position_first, Cell.mk.injEq, true_and, and_true] at hi ⊢
    omega
  · simp only [Cell.back, Cell.advance, Cell.position_second, Cell.mk.injEq, true_and,
      and_true] at hj ⊢
    omega

theorem step_into_skipReference (hc : c ∈ cellsIn P) :
    Step P c.prior.position .skipReference c.position ↔ 0 < c.k := by
  obtain ⟨-, -, hk⟩ := mem_cellsOf.mp hc
  rw [step_skipReference, ← Cell.position_next, Cell.position_inj]
  obtain ⟨i, j, k⟩ := c
  simp only [Cell.prior, Cell.next, Cell.position_reference, Cell.mk.injEq, true_and] at hk ⊢
  omega

theorem step_into_take (chain : SpeakerChain) (hc : c ∈ cellsIn P) : Step P (c.back chain).prior.position
        (.take ⟨chain, c.position.word chain - 1, c.k - 1⟩) c.position ↔
      0 < c.k ∧ 0 < c.position.word chain ∧
        P.isMatch chain (c.position.word chain - 1) (c.k - 1) = true := by
  obtain ⟨hi, hj, hk⟩ := mem_cellsOf.mp hc
  rw [step_take, ← Cell.position_advance, ← Cell.position_next, Cell.position_inj]
  obtain ⟨i, j, k⟩ := c
  cases chain
  · simp only [Cell.back, Cell.prior, Cell.advance, Cell.next, Cell.position_first,
      Cell.position_reference, Cell.mk.injEq, true_and] at hi hk ⊢
    constructor
    · intro h
      exact ⟨by omega, by omega, h.2.2.1⟩
    · rintro ⟨hk', hi', hmatch⟩
      exact ⟨by omega, by omega, hmatch, by omega, by omega⟩
  · simp only [Cell.back, Cell.prior, Cell.advance, Cell.next, Cell.position_second,
      Cell.position_reference, Cell.mk.injEq, true_and] at hj hk ⊢
    constructor
    · intro h
      exact ⟨by omega, by omega, h.2.2.1⟩
    · rintro ⟨hk', hj', hmatch⟩
      exact ⟨by omega, by omega, hmatch, by omega, by omega⟩

theorem step_into_cases {s : Position SpeakerChain} (hstep : Step P s move c.position) :
    (∃ chain, s = (c.back chain).position ∧ move = .skipWord chain (c.position.word chain - 1)) ∨
      (s = c.prior.position ∧ move = .skipReference) ∨ ∃ chain, s = (c.back chain).prior.position ∧
        move = .take ⟨chain, c.position.word chain - 1, c.k - 1⟩ := by
  obtain ⟨d, rfl⟩ := exists_cell s
  cases move with
  | skipWord chain w =>
    obtain ⟨rfl, -, hto⟩ := step_skipWord.mp hstep
    rw [← Cell.position_advance, Cell.position_inj] at hto
    subst hto
    left
    refine ⟨chain, ?_⟩
    cases chain <;> exact ⟨rfl, rfl⟩
  | skipReference =>
    obtain ⟨-, hto⟩ := step_skipReference.mp hstep
    rw [← Cell.position_next, Cell.position_inj] at hto
    subst hto
    exact Or.inr (Or.inl ⟨rfl, rfl⟩)
  | take pair =>
    obtain ⟨chain, w, r⟩ := pair
    obtain ⟨⟨rfl, rfl⟩, -, -, -, hto⟩ := step_take.mp hstep
    rw [← Cell.position_advance, ← Cell.position_next, Cell.position_inj] at hto
    subst hto
    right; right
    refine ⟨chain, ?_⟩
    cases chain <;> exact ⟨rfl, rfl⟩

theorem position_origin : (⟨0, 0, 0⟩ : Cell).position = start := by
  simp only [Cell.position, start, Position.mk.injEq, and_true]
  funext chain
  cases chain <;> rfl

theorem start_or_step_into (hc : c ∈ cellsIn P) :
    start = c.position ∨ ∃ s move, Step P s move c.position := by
  by_cases hi : 0 < c.position.word .first
  · exact Or.inr ⟨_, _, (step_into_skipWord .first hc).mpr hi⟩
  by_cases hj : 0 < c.position.word .second
  · exact Or.inr ⟨_, _, (step_into_skipWord .second hc).mpr hj⟩
  by_cases hk : 0 < c.k
  · exact Or.inr ⟨_, _, (step_into_skipReference hc).mpr hk⟩
  rw [← position_origin, Cell.position_inj]
  obtain ⟨i, j, k⟩ := c
  simp only [Cell.position_first, Cell.position_second, Cell.mk.injEq] at hi hj hk ⊢
  omega

theorem step_skipWord_iff (chain : SpeakerChain) :
    Step P c.position (.skipWord chain (c.position.word chain)) (c.advance chain).position ↔
      c.position.word chain < P.length chain := by
  rw [step_skipWord, Cell.position_advance]
  simp

theorem step_skipReference_iff :
    Step P c.position .skipReference c.next.position ↔ c.k < P.references := by
  rw [step_skipReference, Cell.position_next]
  simp

theorem step_take_iff (chain : SpeakerChain) :
    Step P c.position (.take ⟨chain, c.position.word chain, c.k⟩) (c.advance chain).next.position ↔
      c.k < P.references ∧ c.position.word chain < P.length chain ∧
        P.isMatch chain (c.position.word chain) c.k = true := by
  rw [step_take, Cell.position_next, Cell.position_advance]
  tauto

theorem step_from_cases {s : Position SpeakerChain} (hstep : Step P c.position move s) :
    (∃ chain, s = (c.advance chain).position ∧ move = .skipWord chain (c.position.word chain)) ∨
      (s = c.next.position ∧ move = .skipReference) ∨ ∃ chain, s = (c.advance chain).next.position ∧
        move = .take ⟨chain, c.position.word chain, c.k⟩ := by
  cases hstep with
  | skipWord chain hw => exact Or.inl ⟨chain, (Cell.position_advance chain).symm, rfl⟩
  | skipReference hr => exact Or.inr (Or.inl ⟨rfl, rfl⟩)
  | take chain hw hr hmatch =>
    refine Or.inr (Or.inr ⟨chain, ?_, rfl⟩)
    rw [Cell.position_next, Cell.position_advance]

theorem Prepared.step_address (h : Prepared shape relation P) (hstep : Step P c.position move d.position) (hd : d ∈ cellsIn P) :
    c ∈ cellsIn P ∧ shape.address c < shape.address d := by
  rcases step_from_cases hstep with ⟨chain, hto, -⟩ | ⟨hto, -⟩ | ⟨chain, hto, -⟩
  · rw [Cell.position_inj] at hto
    subst hto
    refine ⟨?_, h.address_advance_lt chain hd⟩
    rw [mem_cellsIn] at hd ⊢
    obtain ⟨hword, href⟩ := hd
    refine ⟨fun other => le_trans ?_ (hword other), ?_⟩
    · rw [Cell.position_advance]
      exact Position.word_le_advance _ _ _
    · rwa [Cell.position_advance, Position.advance_reference] at href
  · rw [Cell.position_inj] at hto
    subst hto
    refine ⟨?_, Prepared.address_next_lt⟩
    obtain ⟨hi, hj, hk⟩ := mem_cellsOf.mp hd
    exact mem_cellsOf.mpr ⟨hi, hj, by simp only [Cell.next] at hk; omega⟩
  · rw [Cell.position_inj] at hto
    subst hto
    have hadvance : c.advance chain ∈ cellsIn P := by
      obtain ⟨hi, hj, hk⟩ := mem_cellsOf.mp hd
      exact mem_cellsOf.mpr ⟨hi, hj, by simp only [Cell.next] at hk; omega⟩
    refine ⟨?_, lt_trans (h.address_advance_lt chain hadvance) Prepared.address_next_lt⟩
    rw [mem_cellsIn] at hadvance ⊢
    obtain ⟨hword, href⟩ := hadvance
    refine ⟨fun other => le_trans ?_ (hword other), ?_⟩
    · rw [Cell.position_advance]
      exact Position.word_le_advance _ _ _
    · rwa [Cell.position_advance, Position.advance_reference] at href

/-! ## The score tables hold greatest gains -/

theorem andThen_eq {a : Bool} {b : Option Bool} {v : Bool} (h : a = true → b = some v) :
    andThen a b = some (a && v) := by
  cases a with
  | false => rfl
  | true => simp [andThen, h rfl]

theorem both_iff {a b : Prop} [Decidable a] [Decidable b] {v : Bool} :
    (decide a && (decide b && v)) = true ↔ a ∧ b ∧ v = true := by
  simp

theorem maxIf_best {S A : Type} {W : Web S A} {s t q : S} {a : A} {seen : S → A → Prop} {best : ℕ}
    (h : W.BestInto s t seen best) {condition : Option Bool} {entry : Option ℕ} (b : Bool)
    (hcond : condition = some b) (hb : b = true ↔ W.Step q a t)
    (hentry : W.Step q a t → ∃ k, entry = some k ∧ W.Greatest s q k) :
    ∃ v, maxIf condition entry (W.gain a) best = some v ∧
      W.BestInto s t (fun q' a' => seen q' a' ∨ (q' = q ∧ a' = a)) v := by
  subst hcond
  cases b with
  | false =>
    refine ⟨best, rfl, h.skip ?_⟩
    rw [← hb]
    exact Bool.false_ne_true
  | true =>
    have hstep := hb.mp rfl
    obtain ⟨k, hk, hgreatest⟩ := hentry hstep
    refine ⟨max best (k + W.gain a), ?_, h.max hstep hgreatest⟩
    simp [maxIf, hk]

abbrev ForwardEntry (P : Problem SpeakerChain) (shape : AdmittedShape) (table : List ℕ)
    (c : Cell) : Prop :=
  Tabulate.Entry shape.address
    (fun c best => (readings P).Greatest start c.position best) table c

abbrev BackwardEntry (P : Problem SpeakerChain) (shape : AdmittedShape) (table : List ℕ)
    (c : Cell) : Prop :=
  Tabulate.Entry shape.address
    (fun c best => (readings P).Greatest c.position (finish P) best) table c

theorem forwardCell_greatest (h : Prepared shape relation P) (hc : c ∈ cellsIn P)
    (hbefore : ∀ d ∈ cellsIn P, shape.address d < shape.address c → ForwardEntry P shape table d) :
    ∃ best, forwardCell shape relation table c = some best ∧
      (readings P).Greatest start c.position best := by
  have hread : ∀ (d : Cell) (move : Move SpeakerChain), (readings P).Step d.position move c.position →
      ∃ k, table[shape.address d]? = some k ∧ (readings P).Greatest start d.position k := by
    intro d move hstep
    obtain ⟨hd, hlt⟩ := h.step_address hstep hc
    exact hbefore d hd hlt
  obtain ⟨hi, hj, hk⟩ := mem_cellsOf.mp hc
  have hmatch : ∀ chain, c.position.word chain ≤ P.length chain →
      andThen (0 < c.k) (andThen (0 < c.position.word chain)
        (relation.matchesAt chain (c.position.word chain - 1) (c.k - 1))) =
      some (decide (0 < c.k) && (decide (0 < c.position.word chain) &&
        P.isMatch chain (c.position.word chain - 1) (c.k - 1))) := by
    intro chain hle
    refine andThen_eq fun hk' => andThen_eq fun hw => ?_
    rw [decide_eq_true_eq] at hk' hw
    exact h.matchesAt chain _ _ (by omega) (by omega)
  obtain ⟨v1, hv1, h1⟩ := maxIf_best Web.BestInto.none _ rfl
    (decide_eq_true_iff.trans (step_into_skipWord .first hc).symm) (hread (c.back .first) _)
  obtain ⟨v2, hv2, h2⟩ := maxIf_best h1 _ rfl
    (decide_eq_true_iff.trans (step_into_skipWord .second hc).symm) (hread (c.back .second) _)
  obtain ⟨v3, hv3, h3⟩ := maxIf_best h2 _ rfl
    (decide_eq_true_iff.trans (step_into_skipReference hc).symm) (hread c.prior _)
  obtain ⟨v4, hv4, h4⟩ := maxIf_best h3 _ (hmatch .first hi)
    (both_iff.trans (step_into_take .first hc).symm) (hread (c.back .first).prior _)
  obtain ⟨v5, hv5, h5⟩ := maxIf_best h4 _ (hmatch .second hj)
    (both_iff.trans (step_into_take .second hc).symm) (hread (c.back .second).prior _)
  refine ⟨v5, ?_, h5.greatest ?_ (start_or_step_into hc)⟩
  · exact Option.bind_eq_some_iff.mpr ⟨v1, hv1, Option.bind_eq_some_iff.mpr ⟨v2, hv2,
      Option.bind_eq_some_iff.mpr ⟨v3, hv3, Option.bind_eq_some_iff.mpr ⟨v4, hv4, hv5⟩⟩⟩⟩
  · intro q a hstep
    rcases step_into_cases hstep with ⟨chain, rfl, rfl⟩ | ⟨rfl, rfl⟩ | ⟨chain, rfl, rfl⟩
    · cases chain <;> simp
    · simp
    · cases chain <;> simp

abbrev Cell.Open (P : Problem SpeakerChain) (c : Cell) : Prop :=
  c.i < P.length .first ∨ c.j < P.length .second ∨ c.k < P.references

theorem left_position : left P c.position =
    (P.length .first - c.i) + (P.length .second - c.j) + (P.references - c.k) := rfl

theorem eq_finish_of_not_open (hc : c ∈ cellsIn P) (h : ¬ c.Open P) : c.position = finish P := by
  refine eq_finish_of_left (mem_cellsIn.mp hc) ?_
  rw [left_position]
  omega

theorem not_open_of_eq_finish (h : c.position = finish P) : ¬ c.Open P := by
  have h1 : c.i = P.length .first := congrArg (fun s => s.word .first) h
  have h2 : c.j = P.length .second := congrArg (fun s => s.word .second) h
  have h3 : c.k = P.references := congrArg Position.reference h
  omega

theorem finish_or_step_from (hc : c ∈ cellsIn P) :
    finish P = c.position ∨ ∃ s move, Step P c.position move s := by
  by_cases hopen : c.Open P
  · right
    rcases hopen with hi | hj | hk
    · exact ⟨_, _, (step_skipWord_iff .first).mpr hi⟩
    · exact ⟨_, _, (step_skipWord_iff .second).mpr hj⟩
    · exact ⟨_, _, step_skipReference_iff.mpr hk⟩
  · exact Or.inl (eq_finish_of_not_open hc hopen).symm

section
variable (h : Prepared shape relation P)
include h

theorem backwardCell_greatest (hc : c ∈ cellsIn P)
    (hbefore : ∀ d ∈ cellsIn P, shape.address c < shape.address d → BackwardEntry P shape table d) :
    ∃ best, backwardCell shape relation (P.length .first) (P.length .second) P.references table c =
        some best ∧ (readings P).Greatest c.position (finish P) best := by
  have hread : ∀ (d : Cell) (move : Move SpeakerChain),
      (readings P).reverse.Step d.position move c.position →
      ∃ k, table[shape.address d]? = some k ∧
        (readings P).reverse.Greatest (finish P) d.position k := by
    intro d move hstep
    have hd := mem_cellsIn.mpr (Step.inside hstep (mem_cellsIn.mp hc))
    obtain ⟨k, hk, hgreatest⟩ := hbefore d hd (h.step_address hstep hd).2
    exact ⟨k, hk, Web.greatest_reverse.mpr hgreatest⟩
  have hmatch : ∀ chain, andThen (c.k < P.references)
        (andThen (c.position.word chain < P.length chain)
          (relation.matchesAt chain (c.position.word chain) c.k)) =
      some (decide (c.k < P.references) && (decide (c.position.word chain < P.length chain) &&
        P.isMatch chain (c.position.word chain) c.k)) := by
    intro chain
    refine andThen_eq fun hk' => andThen_eq fun hw => ?_
    rw [decide_eq_true_eq] at hk' hw
    exact h.matchesAt chain _ _ hw hk'
  obtain ⟨v1, hv1, h1⟩ := maxIf_best (W := (readings P).reverse) Web.BestInto.none _ rfl
    (decide_eq_true_iff.trans (step_skipWord_iff .first).symm) (hread (c.advance .first) _)
  obtain ⟨v2, hv2, h2⟩ := maxIf_best h1 _ rfl
    (decide_eq_true_iff.trans (step_skipWord_iff .second).symm) (hread (c.advance .second) _)
  obtain ⟨v3, hv3, h3⟩ := maxIf_best h2 _ rfl
    (decide_eq_true_iff.trans step_skipReference_iff.symm) (hread c.next _)
  obtain ⟨v4, hv4, h4⟩ := maxIf_best h3 _ (hmatch .first)
    (both_iff.trans (step_take_iff .first).symm) (hread (c.advance .first).next _)
  obtain ⟨v5, hv5, h5⟩ := maxIf_best h4 _ (hmatch .second)
    (both_iff.trans (step_take_iff .second).symm) (hread (c.advance .second).next _)
  refine ⟨v5, ?_, Web.greatest_reverse.mp (h5.greatest ?_ (finish_or_step_from hc))⟩
  · exact Option.bind_eq_some_iff.mpr ⟨v1, hv1, Option.bind_eq_some_iff.mpr ⟨v2, hv2,
      Option.bind_eq_some_iff.mpr ⟨v3, hv3, Option.bind_eq_some_iff.mpr ⟨v4, hv4, hv5⟩⟩⟩⟩
  · intro q a hstep
    rcases step_from_cases hstep with ⟨chain, rfl, rfl⟩ | ⟨rfl, rfl⟩ | ⟨chain, rfl, rfl⟩
    · cases chain <;> simp
    · simp
    · cases chain <;> simp

theorem forwardTable_spec :
    ∃ forward, forwardTable shape relation (P.length .first) (P.length .second) P.references =
        some forward ∧ ∀ c ∈ cellsIn P, ForwardEntry P shape forward c := by
  obtain ⟨forward, hfill, -, hall⟩ := Tabulate.fill_spec shape.address
    (forwardCell shape relation)
    (P := fun c best => (readings P).Greatest start c.position best)
    (fun c hc => h.address_lt hc) h.sorted (fun _ _ hlt => lt_asymm hlt)
    (fun _ _ hlt => ne_of_lt hlt)
    (fun table c hc _ hbefore => forwardCell_greatest h hc hbefore)
  exact ⟨forward, hfill, hall⟩

theorem backwardTable_spec :
    ∃ backward, backwardTable shape relation (P.length .first) (P.length .second) P.references =
        some backward ∧ ∀ c ∈ cellsIn P, BackwardEntry P shape backward c := by
  obtain ⟨backward, hfill, -, hall⟩ := Tabulate.fill_spec shape.address
    (backwardCell shape relation (P.length .first) (P.length .second) P.references)
    (P := fun c best => (readings P).Greatest c.position (finish P) best)
    (fun c hc => h.address_lt (mem_reverse.mp hc)) (pairwise_reverse.mpr h.sorted)
    (fun _ _ hlt => lt_asymm hlt) (fun _ _ hlt => ne_of_gt hlt)
    (fun table c hc _ hbefore => backwardCell_greatest h (mem_reverse.mp hc)
      fun d hd hlt => hbefore d (mem_reverse.mpr hd) hlt)
  exact ⟨backward, hfill, fun c hc => hall c (mem_reverse.mpr hc)⟩

end

/-! ## The evidence loop -/

/-- The tables hold the greatest gains `F` from the start and `B` to the finish. -/
structure Scored (P : Problem SpeakerChain) (shape : AdmittedShape) (forward backward : List ℕ)
    (F B : Position SpeakerChain → ℕ) : Prop where
  forward : ∀ c ∈ cellsIn P, forward[shape.address c]? = some (F c.position)
  backward : ∀ c ∈ cellsIn P, backward[shape.address c]? = some (B c.position)
  fromStart : ∀ s, Inside P s → (readings P).Greatest start s (F s)
  toFinish : ∀ s, Inside P s → (readings P).Greatest s (finish P) (B s)

theorem exists_values {Q : Position SpeakerChain → ℕ → Prop} (h : ∀ c ∈ cellsIn P, Tabulate.Entry shape.address (fun c best => Q c.position best) table c) :
    ∃ F : Position SpeakerChain → ℕ, (∀ c ∈ cellsIn P, table[shape.address c]? = some (F c.position)) ∧
      ∀ s, Inside P s → Q s (F s) := by
  have hvalue : ∀ s, ∃ v, ∀ c : Cell, c.position = s → c ∈ cellsIn P →
      table[shape.address c]? = some v ∧ Q s v := by
    intro s
    obtain ⟨c, rfl⟩ := exists_cell s
    by_cases hc : c ∈ cellsIn P
    · obtain ⟨v, hv, hQ⟩ := h c hc
      refine ⟨v, ?_⟩
      intro d hd _
      rw [Cell.position_inj] at hd
      subst hd
      exact ⟨hv, hQ⟩
    · refine ⟨0, ?_⟩
      intro d hd hmem
      rw [Cell.position_inj] at hd
      subst hd
      exact absurd hmem hc
  choose F hF using hvalue
  refine ⟨F, fun c hc => (hF _ c rfl hc).1, ?_⟩
  intro s hs
  obtain ⟨c, rfl⟩ := exists_cell s
  exact (hF _ c rfl (mem_cellsIn.mpr hs)).2

section
variable (P : Problem SpeakerChain) (F B : Position SpeakerChain → ℕ)

def Skips (c : Cell) (chain : SpeakerChain) : Prop :=
  F c.position + B (c.position.advance chain) = B start

def Takes (c : Cell) (chain : SpeakerChain) : Prop :=
  c.k < P.references ∧ P.isMatch chain (c.position.word chain) c.k = true ∧
    F c.position + 1 + B (c.position.advance chain).next = B start

structure Observed (seen : List (Cell × SpeakerChain)) (words : PerChain (List WordEvidence)) :
    Prop where
  length : ∀ chain, (words.get chain).length = P.length chain
  missing : ∀ chain w e, (words.get chain)[w]? = some e → (e.canBeMissing = true ↔
    ∃ x ∈ seen, x.2 = chain ∧ x.1.position.word chain = w ∧ Skips F B x.1 chain)
  candidates : ∀ chain w e, (words.get chain)[w]? = some e → ∀ r, (r ∈ e.candidates ↔
    ∃ x ∈ seen, x.2 = chain ∧ x.1.position.word chain = w ∧ x.1.k = r ∧ Takes P F B x.1 chain)

end

variable {F B : Position SpeakerChain → ℕ} {forward backward : List ℕ}
  {words : PerChain (List WordEvidence)} {seen : List (Cell × SpeakerChain)}

@[simp] theorem PerChain.get_set_self {α : Type} (values : PerChain α) (value : α)
    (chain : SpeakerChain) : (values.set value chain).get chain = value := by
  cases chain <;> rfl

theorem PerChain.get_set_of_ne {α : Type} (values : PerChain α) (value : α)
    {other : SpeakerChain} (h : other ≠ chain) :
    (values.set value chain).get other = values.get other := by
  cases chain <;> cases other <;> first | rfl | exact absurd rfl h

theorem PerChain.get_map {α β : Type} (values : PerChain α) (f : α → β) (chain : SpeakerChain) :
    (values.map f).get chain = f (values.get chain) := by
  cases chain <;> rfl

theorem PerChain.getElem?_map {α β : Type} {values : PerChain (List α)} {f : α → β}
    {i : ℕ} {b : β} (h : ((values.map (·.map f)).get chain)[i]? = some b) :
    ∃ a, (values.get chain)[i]? = some a ∧ f a = b := by
  rw [PerChain.get_map, List.getElem?_map, Option.map_eq_some_iff] at h
  exact h

theorem Cell.advance_k (chain : SpeakerChain) : (c.advance chain).k = c.k := by
  cases chain <;> rfl

namespace Scored

variable {chain : SpeakerChain}

theorem advance_mem (_ : Scored P shape forward backward F B) (hc : c ∈ cellsIn P)
    (hlt : c.position.word chain < P.length chain) : c.advance chain ∈ cellsIn P := by
  rw [mem_cellsIn, Cell.position_advance]
  exact inside_advance (mem_cellsIn.mp hc) hlt

theorem read_advance (hs : Scored P shape forward backward F B) (hc : c.advance chain ∈ cellsIn P) :
    backward[shape.cellAt (c.advance chain).i (c.advance chain).j c.k]? =
      some (B (c.position.advance chain)) := by
  have := hs.backward _ hc
  rwa [AdmittedShape.address, Cell.advance_k, Cell.position_advance] at this

theorem next_mem (hc : c ∈ cellsIn P) (hk : c.k < P.references) : c.next ∈ cellsIn P := by
  obtain ⟨hi, hj, -⟩ := mem_cellsOf.mp hc
  exact mem_cellsOf.mpr ⟨hi, hj, hk⟩

theorem read_advance_next (hs : Scored P shape forward backward F B) (hc : c.advance chain ∈ cellsIn P) (hk : c.k < P.references) :
    backward[shape.cellAt (c.advance chain).i (c.advance chain).j (c.k + 1)]? =
      some (B (c.position.advance chain).next) := by
  have := hs.backward _ (next_mem hc (by rwa [Cell.advance_k]))
  rw [Cell.position_next, Cell.position_advance] at this
  rw [← this, AdmittedShape.address, Cell.next, Cell.advance_k]

end Scored

theorem observeWord_eq (h : Prepared shape relation P) (hs : Scored P shape forward backward F B)
    (hc : c ∈ cellsIn P) (hlen : (words.get chain).length = P.length chain)
    (he : (words.get chain)[c.position.word chain]? = some e) :
    ∃ e', observeWord shape relation P.references backward (B start) (F c.position) c words chain
          (c.position.word chain) (c.advance chain).i (c.advance chain).j =
        some (words.set ((words.get chain).set (c.position.word chain) e') chain) ∧
      (e'.canBeMissing = true ↔ e.canBeMissing = true ∨ Skips F B c chain) ∧
      ∀ r, r ∈ e'.candidates ↔ r ∈ e.candidates ∨ (c.k = r ∧ Takes P F B c chain) := by
  have hlt : c.position.word chain < P.length chain := by
    rw [← hlen]
    exact (List.getElem?_eq_some_iff.mp he).1
  have hskipped := hs.read_advance (hs.advance_mem hc hlt)
  have hmatch : andThen (c.k < P.references)
        (relation.matchesAt chain (c.position.word chain) c.k) =
      some (decide (c.k < P.references) && P.isMatch chain (c.position.word chain) c.k) := by
    refine andThen_eq fun hk => ?_
    rw [decide_eq_true_eq] at hk
    exact h.matchesAt chain _ _ hlt hk
  have hmatched : andThen
        (decide (c.k < P.references) && P.isMatch chain (c.position.word chain) c.k)
        (backward[shape.cellAt (c.advance chain).i (c.advance chain).j (c.k + 1)]?.map
          fun rest => F c.position + 1 + rest == B start) =
      some ((decide (c.k < P.references) && P.isMatch chain (c.position.word chain) c.k) &&
        (F c.position + 1 + B (c.position.advance chain).next == B start)) := by
    refine andThen_eq fun hk => ?_
    rw [and_eq_true, decide_eq_true_eq] at hk
    rw [hs.read_advance_next (hs.advance_mem hc hlt) hk.1]
    rfl
  refine ⟨⟨if (decide (c.k < P.references) && P.isMatch chain (c.position.word chain) c.k) &&
      (F c.position + 1 + B (c.position.advance chain).next == B start)
      then e.candidates ++ [c.k] else e.candidates,
    if F c.position + B (c.position.advance chain) = B start then true else e.canBeMissing⟩,
    ?_, ?_, ?_⟩
  · have hne : c.position.word chain ≠ (words.get chain).length := by omega
    simp only [observeWord, if_neg hne, he, hskipped, hmatch, hmatched, bind_eq_bind, bind_some]
    split_ifs <;> rfl
  · simp only [Skips]
    split_ifs with hskip <;> simp [hskip]
  · intro r
    simp only [Takes]
    split_ifs with htake
    · simp only [and_eq_true, decide_eq_true_eq, beq_iff_eq] at htake
      simp only [mem_append, mem_singleton, htake, and_self, and_true, eq_comm]
    · simp only [and_eq_true, decide_eq_true_eq, beq_iff_eq, and_assoc] at htake
      simp [htake]

theorem Observed.word (h : Prepared shape relation P) (hs : Scored P shape forward backward F B)
    (hO : Observed P F B seen words) (hc : c ∈ cellsIn P) (chain : SpeakerChain) :
    ∃ words', observeWord shape relation P.references backward (B start) (F c.position) c words chain
          (c.position.word chain) (c.advance chain).i (c.advance chain).j = some words' ∧
      Observed P F B (seen ++ [(c, chain)]) words' := by
  by_cases hend : c.position.word chain = (words.get chain).length
  · -- the chain is at its end: nothing is recorded, and no word is meant
    refine ⟨words, by rw [observeWord, if_pos hend], hO.length, ?_, ?_⟩
    · intro other w e he
      have hlt := (List.getElem?_eq_some_iff.mp he).1
      rw [hO.missing other w e he]
      simp only [mem_append, mem_singleton, or_and_right, exists_or, exists_eq_left]
      refine (or_iff_left ?_).symm
      rintro ⟨rfl, hw, -⟩
      omega
    · intro other w e he r
      have hlt := (List.getElem?_eq_some_iff.mp he).1
      rw [hO.candidates other w e he]
      simp only [mem_append, mem_singleton, or_and_right, exists_or, exists_eq_left]
      refine (or_iff_left ?_).symm
      rintro ⟨rfl, hw, -⟩
      omega
  · have hlt : c.position.word chain < (words.get chain).length := by
      have := (mem_cellsIn.mp hc).1 chain
      rw [hO.length chain] at hend ⊢
      omega
    have he := getElem?_eq_getElem hlt
    obtain ⟨e', hrun, hmissing, hcandidates⟩ := observeWord_eq h hs hc (hO.length chain) he
    refine ⟨_, hrun, ?_, ?_, ?_⟩
    · intro other
      by_cases hother : other = chain
      · subst hother
        rw [PerChain.get_set_self, length_set, hO.length]
      · rw [PerChain.get_set_of_ne _ _ hother, hO.length]
    · intro other w e hget
      simp only [mem_append, mem_singleton, or_and_right, exists_or, exists_eq_left]
      by_cases hother : other = chain
      · subst hother
        rw [PerChain.get_set_self] at hget
        by_cases hw : c.position.word other = w
        · subst hw
          rw [getElem?_set_self hlt, Option.some.injEq] at hget
          subst hget
          simp [hmissing, hO.missing other _ _ he]
        · rw [getElem?_set_ne hw] at hget
          simp [hO.missing other w e hget, hw]
      · rw [PerChain.get_set_of_ne _ _ hother] at hget
        simp [hO.missing other w e hget, Ne.symm hother]
    · intro other w e hget r
      simp only [mem_append, mem_singleton, or_and_right, exists_or, exists_eq_left]
      by_cases hother : other = chain
      · subst hother
        rw [PerChain.get_set_self] at hget
        by_cases hw : c.position.word other = w
        · subst hw
          rw [getElem?_set_self hlt, Option.some.injEq] at hget
          subst hget
          simp [hcandidates, hO.candidates other _ _ he]
        · rw [getElem?_set_ne hw] at hget
          simp [hO.candidates other w e hget, hw]
      · rw [PerChain.get_set_of_ne _ _ hother] at hget
        simp [hO.candidates other w e hget, Ne.symm hother]

def wordsOfCells (cells : List Cell) : List (Cell × SpeakerChain) :=
  cells.flatMap fun c => [(c, .first), (c, .second)]

theorem Observed.run (h : Prepared shape relation P) (hs : Scored P shape forward backward F B)
    {cells : List Cell} (hcells : ∀ c ∈ cells, c ∈ cellsIn P) (hO : Observed P F B seen words) :
    ∃ words', cells.foldlM (observeCell shape relation P.references forward backward (B start))
        words = some words' ∧ Observed P F B (seen ++ wordsOfCells cells) words' := by
  induction cells generalizing seen words with
  | nil => exact ⟨words, rfl, by simpa [wordsOfCells] using hO⟩
  | cons c cells ih =>
    have hc := hcells c (by simp)
    obtain ⟨words1, hrun1, hO1⟩ := hO.word h hs hc .first
    obtain ⟨words2, hrun2, hO2⟩ := hO1.word h hs hc .second
    obtain ⟨words', hrun, hO'⟩ := ih (fun d hd => hcells d (by simp [hd])) hO2
    have hcell : observeCell shape relation P.references forward backward (B start) words c =
        some words2 := by
      have hbest : forward[shape.cellAt c.i c.j c.k]? = some (F c.position) := hs.forward c hc
      exact Option.bind_eq_some_iff.mpr ⟨_, hbest,
        Option.bind_eq_some_iff.mpr ⟨words1, hrun1, hrun2⟩⟩
    refine ⟨words', ?_, by simpa [wordsOfCells] using hO'⟩
    rw [foldlM_cons, hcell]
    exact hrun

theorem exists_wordsOfCells {Q : Cell → Prop} {cells : List Cell} :
    (∃ x ∈ wordsOfCells cells, x.2 = chain ∧ Q x.1) ↔ ∃ c ∈ cells, Q c := by
  simp only [wordsOfCells, mem_flatMap, mem_cons, not_mem_nil, or_false]
  constructor
  · rintro ⟨x, ⟨c, hc, rfl | rfl⟩, -, hQ⟩
    · exact ⟨c, hc, hQ⟩
    · exact ⟨c, hc, hQ⟩
  · rintro ⟨c, hc, hQ⟩
    refine ⟨(c, chain), ⟨c, hc, ?_⟩, rfl, hQ⟩
    cases chain <;> simp

def noEvidence (m n : ℕ) : PerChain (List WordEvidence) :=
  ⟨List.replicate m ⟨[], false⟩, List.replicate n ⟨[], false⟩⟩

theorem observed_none : Observed P F B [] (noEvidence (P.length .first) (P.length .second)) := by
  have hnone : ∀ (chain : SpeakerChain) (w : ℕ) (e : WordEvidence), ((noEvidence (P.length .first) (P.length .second)).get chain)[w]? =
      some e → e = ⟨[], false⟩ := by
    intro chain w e he
    have hmem := mem_of_getElem? he
    cases chain <;> exact eq_of_mem_replicate hmem
  refine ⟨?_, ?_, ?_⟩
  · intro chain
    cases chain <;> exact length_replicate
  · intro chain w e he
    simp [hnone chain w e he]
  · intro chain w e he r
    simp [hnone chain w e he]

theorem mem_sortCandidates {r : ℕ} : r ∈ (sortCandidates e).candidates ↔ r ∈ e.candidates := by
  have hsorted := pairwise_mergeSort' (· ≤ ·) e.candidates
  rw [sortCandidates, hsorted.destutter_eq_dedup, mem_dedup, mem_mergeSort]

theorem sortCandidates_sorted : (sortCandidates e).candidates.Pairwise (· < ·) := by
  have hsorted := pairwise_mergeSort' (· ≤ ·) e.candidates
  rw [sortCandidates, hsorted.destutter_eq_dedup]
  have hle := hsorted.sublist (dedup_sublist _)
  exact (hle.and (nodup_dedup _)).imp fun ⟨h1, h2⟩ => lt_of_le_of_ne h1 h2

/-! ## The traceback -/

namespace Scored

theorem value_at_finish (hs : Scored P shape forward backward F B) (hc : c ∈ cellsIn P)
    (hend : c.position = finish P) : B c.position = 0 := by
  have hvalue := hs.toFinish c.position (mem_cellsIn.mp hc)
  rw [hend] at hvalue ⊢
  exact greatest_finish hvalue

theorem best_step (hs : Scored P shape forward backward F B) (hc : c ∈ cellsIn P)
    (hopen : c.Open P) : ∃ (d : Cell) (move : Move SpeakerChain),
      Step P c.position move d.position ∧ move.gain + B d.position = B c.position := by
  have hvalue := hs.toFinish c.position (mem_cellsIn.mp hc)
  obtain ⟨move, s, k, hstep, hk, hsum⟩ :=
    hvalue.first_step fun heq => not_open_of_eq_finish heq hopen
  obtain ⟨d, rfl⟩ := exists_cell s
  have hd := Step.inside hstep (mem_cellsIn.mp hc)
  rw [hk.unique (hs.toFinish _ hd)] at hsum
  exact ⟨d, move, hstep, hsum⟩

end Scored

def canTake (P : Problem SpeakerChain) (c : Cell) (chain : SpeakerChain) : Bool :=
  decide (c.position.word chain < P.length chain) && decide (c.k < P.references) &&
    P.isMatch chain (c.position.word chain) c.k

theorem canTake_iff : canTake P c chain = true ↔
    Step P c.position (.take ⟨chain, c.position.word chain, c.k⟩) (c.advance chain).next.position := by
  rw [step_take_iff]
  simp only [canTake, and_eq_true, decide_eq_true_eq]
  tauto

theorem traceback_open (h : Prepared shape relation P) (hs : Scored P shape forward backward F B)
    {steps : ℕ} {selected : List MatchAddress} (hc : c ∈ cellsIn P)
    (hopen : c.Open P) :
    traceback shape relation (P.length .first) (P.length .second) P.references backward
        (steps + 1) c selected =
      let go := traceback shape relation (P.length .first) (P.length .second) P.references
        backward steps
      let best (d : Cell) (gain : ℕ) : Bool := gain + B d.position == B c.position
      if canTake P c .first && best (c.advance .first).next 1 then
        go (c.advance .first).next (selected ++ [⟨.first, c.i, c.k⟩])
      else if canTake P c .second && best (c.advance .second).next 1 then
        go (c.advance .second).next (selected ++ [⟨.second, c.j, c.k⟩])
      else if decide (c.k < P.references) && best c.next 0 then go c.next selected
      else if decide (c.i < P.length .first) && best (c.advance .first) 0 then
        go (c.advance .first) selected
      else go (c.advance .second) selected := by
  have hscore : backward[shape.cellAt c.i c.j c.k]? = some (B c.position) := hs.backward c hc
  have hmatch : ∀ chain, andThen (decide (c.position.word chain < P.length chain) &&
        decide (c.k < P.references)) (relation.matchesAt chain (c.position.word chain) c.k) =
      some (canTake P c chain) := by
    intro chain
    refine andThen_eq fun hin => ?_
    simp only [and_eq_true, decide_eq_true_eq] at hin
    exact h.matchesAt chain _ _ hin.1 hin.2
  have htake : ∀ chain, andThen (canTake P c chain)
        (backward[shape.cellAt (c.advance chain).i (c.advance chain).j (c.k + 1)]?.map
          (1 + · == B c.position)) =
      some (canTake P c chain && (1 + B (c.advance chain).next.position == B c.position)) := by
    intro chain
    refine andThen_eq fun hcan => ?_
    simp only [canTake, and_eq_true, decide_eq_true_eq] at hcan
    rw [hs.read_advance_next (hs.advance_mem hc hcan.1.1) hcan.1.2, Cell.position_next,
      Cell.position_advance]
    rfl
  have hreference : andThen (decide (c.k < P.references))
        (backward[shape.cellAt c.i c.j (c.k + 1)]?.map (· == B c.position)) =
      some (decide (c.k < P.references) && (0 + B c.next.position == B c.position)) := by
    refine andThen_eq fun hk => ?_
    rw [decide_eq_true_eq] at hk
    have hread : backward[shape.cellAt c.i c.j (c.k + 1)]? = some (B c.next.position) :=
      hs.backward _ (Scored.next_mem hc hk)
    rw [hread, Nat.zero_add]
    rfl
  have hfirst : andThen (decide (c.i < P.length .first))
        (backward[shape.cellAt (c.i + 1) c.j c.k]?.map (· == B c.position)) =
      some (decide (c.i < P.length .first) &&
        (0 + B (c.advance .first).position == B c.position)) := by
    refine andThen_eq fun hi => ?_
    rw [decide_eq_true_eq] at hi
    have hread : backward[shape.cellAt (c.i + 1) c.j c.k]? = some (B (c.advance .first).position) :=
      hs.backward (c.advance .first) (hs.advance_mem hc hi)
    rw [hread, Nat.zero_add]
    rfl
  have hmatch1 : andThen (decide (c.i < P.length .first) && decide (c.k < P.references))
      (relation.matchesAt .first c.i c.k) = some (canTake P c .first) := hmatch .first
  have hmatch2 : andThen (decide (c.j < P.length .second) && decide (c.k < P.references))
      (relation.matchesAt .second c.j c.k) = some (canTake P c .second) := hmatch .second
  have htake1 : andThen (canTake P c .first)
        (backward[shape.cellAt (c.i + 1) c.j (c.k + 1)]?.map (1 + · == B c.position)) =
      some (canTake P c .first && (1 + B (c.advance .first).next.position == B c.position)) :=
    htake .first
  have htake2 : andThen (canTake P c .second)
        (backward[shape.cellAt c.i (c.j + 1) (c.k + 1)]?.map (1 + · == B c.position)) =
      some (canTake P c .second && (1 + B (c.advance .second).next.position == B c.position)) :=
    htake .second
  rw [traceback, if_pos hopen]
  simp only [hscore, hmatch1, htake1, hmatch2, htake2, hreference, hfirst, bind_eq_bind, bind_some]
  rfl

theorem traceback_spec (h : Prepared shape relation P) (hs : Scored P shape forward backward F B)
    (steps : ℕ) (selected : List MatchAddress) (hc : c ∈ cellsIn P) (hsteps : left P c.position ≤ steps) :
    ∃ l, (readings P).Path c.position l (finish P) ∧ (readings P).total l = B c.position ∧
      traceback shape relation (P.length .first) (P.length .second) P.references backward steps c
        selected = some (selected ++ taken l) := by
  induction steps generalizing c selected with
  | zero =>
    have hend := eq_finish_of_left (mem_cellsIn.mp hc) (Nat.le_zero.mp hsteps)
    refine ⟨[], hend, (hs.value_at_finish hc hend).symm, ?_⟩
    rw [traceback, if_neg (not_open_of_eq_finish hend), taken_nil, append_nil]
  | succ steps ih =>
    by_cases hopen : c.Open P
    · rw [traceback_open h hs hc hopen]
      -- a best step to `d`, and the rest of the way from there
      have follow : ∀ (d : Cell) (move : Move SpeakerChain), Step P c.position move d.position →
          move.gain + B d.position = B c.position →
          ∃ l, (readings P).Path c.position l (finish P) ∧ (readings P).total l = B c.position ∧
            traceback shape relation (P.length .first) (P.length .second) P.references backward
              steps d (selected ++ taken [move]) = some (selected ++ taken l) := by
        intro d move hstep hbest
        have hleft := hstep.left_lt
        have hd := mem_cellsIn.mpr (hstep.inside (mem_cellsIn.mp hc))
        obtain ⟨l, hl, htotal, hrun⟩ := ih (selected ++ taken [move]) hd (by omega)
        refine ⟨move :: l, ⟨_, hstep, hl⟩, ?_, ?_⟩
        · rw [Web.total_cons, htotal]
          exact hbest
        · rw [hrun, append_assoc]
          cases move <;> rfl
      simp only [and_eq_true, decide_eq_true_eq, beq_iff_eq]
      split_ifs with hfirst hsecond href hskip
      · exact follow _ _ (canTake_iff.mp hfirst.1) hfirst.2
      · exact follow _ _ (canTake_iff.mp hsecond.1) hsecond.2
      · simpa using follow _ _ (step_skipReference_iff.mpr href.1) href.2
      · simpa using follow _ _ ((step_skipWord_iff .first).mpr hskip.1) hskip.2
      · -- some step is best, and it is none of the four above
        obtain ⟨d, move, hstep, hbest⟩ := hs.best_step hc hopen
        rcases step_from_cases hstep with ⟨chain, hd, rfl⟩ | ⟨hd, rfl⟩ | ⟨chain, hd, rfl⟩
        · rw [Cell.position_inj] at hd
          subst hd
          cases chain with
          | first => exact absurd ⟨(step_skipWord_iff .first).mp hstep, hbest⟩ hskip
          | second => simpa using follow _ _ hstep hbest
        · rw [Cell.position_inj] at hd
          subst hd
          exact absurd ⟨step_skipReference_iff.mp hstep, hbest⟩ href
        · rw [Cell.position_inj] at hd
          subst hd
          cases chain with
          | first => exact absurd ⟨canTake_iff.mpr hstep, hbest⟩ hfirst
          | second => exact absurd ⟨canTake_iff.mpr hstep, hbest⟩ hsecond
    · have hend := eq_finish_of_not_open hc hopen
      refine ⟨[], hend, (hs.value_at_finish hc hend).symm, ?_⟩
      rw [traceback, if_neg hopen, taken_nil, append_nil]

/-! ## The whole analysis -/

def problemOf (sources : PerChain (List String)) (reference : List String) (mode : MatchMode) :
    Problem SpeakerChain where
  length chain := (sources.get chain).length
  references := reference.length
  isMatch chain word k := (Relation.new (sources.get chain) reference mode).matchesAt word k

theorem getElem?_rows {α β γ : Type} (f : α → β → γ) (row : List β) (hk : k < row.length) :
    ∀ (source : List α) (word : ℕ),
      (source.flatMap fun a => row.map (f a))[word * row.length + k]? =
        source[word]?.map fun a => f a row[k]
  | [], word => by simp
  | a :: source, 0 => by
    rw [flatMap_cons, Nat.zero_mul, Nat.zero_add, getElem?_append_left (by simpa using hk)]
    simp [hk]
  | a :: source, word + 1 => by
    have hlater : (word + 1) * row.length + k = row.length + (word * row.length + k) := by
      rw [Nat.add_mul, Nat.one_mul]
      omega
    rw [flatMap_cons, hlater, getElem?_append_right (by simp), length_map,
      Nat.add_sub_cancel_left, getElem?_rows f row hk source word, getElem?_cons_succ]

theorem matchRelation_spec (sources : PerChain (List String)) (reference : List String)
    (mode : MatchMode) (chain : SpeakerChain) {word : ℕ}
    (hword : word < (sources.get chain).length) (hk : k < reference.length) :
    (MatchRelation.new sources reference mode).matchesAt chain word k =
      some ((Relation.new (sources.get chain) reference mode).matchesAt word k) := by
  cases mode with
  | exact =>
    simp only [MatchRelation.new, MatchRelation.matchesAt, PerChain.get_map]
    rw [getElem?_rows _ _ hk]
    simp [Relation.new, Relation.matchesAt, LiteralMatchMode.matchesWords, hword, hk]
  | caseInsensitive =>
    simp only [MatchRelation.new, MatchRelation.matchesAt, PerChain.get_map]
    rw [getElem?_rows _ _ hk]
    simp [Relation.new, Relation.matchesAt, LiteralMatchMode.matchesWords, hword, hk]
  | fuzzy policy =>
    simp only [MatchRelation.new, MatchRelation.matchesAt, PerChain.get_map]
    have hrows := getElem?_rows
      (fun word other => (alignableFuzzy policy).isMatch (policy.prepare word) other)
      (reference.map policy.prepare) (k := k) (by simpa using hk) (sources.get chain) word
    simp only [length_map, getElem_map] at hrows
    rw [hrows]
    simp [Relation.new, Relation.matchesAt, hword, hk]

theorem admittedShape_spec {m n p budget : ℕ} (hfits : (m + 1) * (n + 1) * (p + 1) ≤ budget)
    (hbudget : budget ≤ usizeMax) :
    AdmittedShape.new m n p budget = some ⟨n + 1, p + 1, (m + 1) * (n + 1) * (p + 1)⟩ := by
  have hpairs : (m + 1) * (n + 1) ≤ (m + 1) * (n + 1) * (p + 1) :=
    Nat.le_mul_of_pos_right _ (Nat.succ_pos p)
  have hm : m + 1 ≤ (m + 1) * (n + 1) := Nat.le_mul_of_pos_right _ (Nat.succ_pos n)
  have hn : n + 1 ≤ (m + 1) * (n + 1) := Nat.le_mul_of_pos_left _ (Nat.succ_pos m)
  have hp : p + 1 ≤ (m + 1) * (n + 1) * (p + 1) :=
    Nat.le_mul_of_pos_left _ (Nat.mul_pos (Nat.succ_pos m) (Nat.succ_pos n))
  simp only [AdmittedShape.new, checkedAdd, checkedMul, bind_eq_bind]
  rw [if_pos (by omega), if_pos (by omega), if_pos (by omega), bind_some, bind_some,
    bind_some, if_pos (by omega), bind_some, if_pos (by omega), bind_some,
    if_pos hfits]

theorem prepared_new (sources : PerChain (List String)) (reference : List String) (mode : MatchMode) :
    Prepared ⟨sources.second.length + 1, reference.length + 1,
        (sources.first.length + 1) * (sources.second.length + 1) * (reference.length + 1)⟩
      (MatchRelation.new sources reference mode) (problemOf sources reference mode) where
  second := rfl
  reference := rfl
  cells := rfl
  matchesAt chain _ _ hword hk := matchRelation_spec sources reference mode chain hword hk

structure JointEvidence (P : Problem SpeakerChain) (analysis : TwoSpeakerAlignment) : Prop where
  selected : Maximum P analysis.selected.toFinset ∧ analysis.selected.Nodup
  optimum : ∀ A, Maximum P A → A.card = analysis.optimum
  length : ∀ chain, (analysis.words.get chain).length = P.length chain
  candidates : ∀ chain word e, (analysis.words.get chain)[word]? = some e →
    e.candidates.Pairwise (· < ·) ∧
      ∀ r, r ∈ e.candidates ↔ ∃ A, Maximum P A ∧ (⟨chain, word, r⟩ : MatchAddress) ∈ A
  canBeMissing : ∀ chain word e, (analysis.words.get chain)[word]? = some e →
    (e.canBeMissing = true ↔ ∃ A, Maximum P A ∧ ∀ r, (⟨chain, word, r⟩ : MatchAddress) ∉ A)
  common : ∀ chain word e, (analysis.words.get chain)[word]? = some e → ∀ r,
    (e.common = some r ↔ ∀ A, Maximum P A → (⟨chain, word, r⟩ : MatchAddress) ∈ A)

theorem WordEvidence.common_eq_some {r : ℕ} (hsorted : e.candidates.Pairwise (· < ·)) :
    e.common = some r ↔ e.canBeMissing ≠ true ∧ ∀ r', r' ∈ e.candidates ↔ r' = r := by
  obtain ⟨candidates, canBeMissing⟩ := e
  cases canBeMissing with
  | true => simp [WordEvidence.common]
  | false =>
    match candidates, hsorted with
    | [], _ =>
      constructor
      · intro h
        cases h
      · rintro ⟨-, honly⟩
        exact absurd ((honly r).mpr rfl) not_mem_nil
    | [a], _ =>
      have hcommon : WordEvidence.common ⟨[a], false⟩ = some a := rfl
      rw [hcommon, Option.some.injEq]
      constructor
      · rintro rfl
        exact ⟨Bool.false_ne_true, fun r' => mem_singleton⟩
      · rintro ⟨-, honly⟩
        exact (honly a).mp (mem_singleton_self a)
    | a :: b :: rest, hsorted =>
      have hnone : WordEvidence.common ⟨a :: b :: rest, false⟩ = none := by
        simp [WordEvidence.common]
      rw [hnone]
      constructor
      · intro h
        cases h
      · rintro ⟨-, honly⟩
        have hlt : a < b := (pairwise_cons.mp hsorted).1 b (by simp)
        have ha := (honly a).mp (by simp)
        have hb := (honly b).mp (by simp)
        omega

theorem Observed.exact (hs : Scored P shape forward backward F B)
    (hO : Observed P F B (wordsOfCells (cellsIn P)) words) {w : ℕ} (he : (words.get chain)[w]? = some e) :
    (e.canBeMissing = true ↔ ∃ A, Maximum P A ∧ ∀ r, (⟨chain, w, r⟩ : MatchAddress) ∉ A) ∧
      ∀ r, r ∈ e.candidates ↔ ∃ A, Maximum P A ∧ (⟨chain, w, r⟩ : MatchAddress) ∈ A := by
  have hw : w < P.length chain := by
    rw [← hO.length chain]
    exact (List.getElem?_eq_some_iff.mp he).1
  refine ⟨?_, ?_⟩
  · rw [hO.missing chain w e he, omitted_iff hs.fromStart hs.toFinish hw]
    calc (∃ x ∈ wordsOfCells (cellsIn P), x.2 = chain ∧
            x.1.position.word chain = w ∧ Skips F B x.1 chain)
        ↔ ∃ c ∈ cellsIn P, c.position.word chain = w ∧ Skips F B c chain :=
          exists_wordsOfCells (Q := fun c => c.position.word chain = w ∧ Skips F B c chain)
      _ ↔ _ := by
        constructor
        · rintro ⟨c, hc, hword, hskip⟩
          exact ⟨c.position, mem_cellsIn.mp hc, hword, hskip⟩
        · rintro ⟨s, hs', hword, hskip⟩
          obtain ⟨c, rfl⟩ := exists_cell s
          exact ⟨c, mem_cellsIn.mpr hs', hword, hskip⟩
  · intro r
    rw [hO.candidates chain w e he, used_iff hs.fromStart hs.toFinish]
    calc (∃ x ∈ wordsOfCells (cellsIn P), x.2 = chain ∧
            x.1.position.word chain = w ∧ x.1.k = r ∧ Takes P F B x.1 chain)
        ↔ ∃ c ∈ cellsIn P, c.position.word chain = w ∧ c.k = r ∧ Takes P F B c chain :=
          exists_wordsOfCells
            (Q := fun c => c.position.word chain = w ∧ c.k = r ∧ Takes P F B c chain)
      _ ↔ _ := by
        constructor
        · rintro ⟨c, hc, rfl, rfl, hk, hmatch, htake⟩
          exact ⟨c.position, mem_cellsIn.mp hc, rfl, rfl, hw, hk, hmatch, htake⟩
        · rintro ⟨s, hs', hword, href, -, hk, hmatch, htake⟩
          obtain ⟨c, rfl⟩ := exists_cell s
          simp only at hword href hk hmatch htake
          subst hword href
          exact ⟨c, mem_cellsIn.mpr hs', rfl, rfl, hk, hmatch, htake⟩

/-- Within the cell budget the evidence is exact over all maximum joint assignments. -/
theorem joint_evidence_exact (first second reference : List String) (mode : MatchMode)
    (budget steps : ℕ) (hbudget : budget ≤ usizeMax)
    (hfits : (first.length + 1) * (second.length + 1) * (reference.length + 1) ≤ budget)
    (hsteps : first.length + second.length + reference.length ≤ steps) :
    ∃ analysis, withBudget first second reference mode budget steps = some (.ok analysis) ∧
      analysis.sources = ⟨first, second⟩ ∧ analysis.reference = reference ∧
      JointEvidence (problemOf ⟨first, second⟩ reference mode) analysis := by
  have hP := prepared_new ⟨first, second⟩ reference mode
  obtain ⟨forward, hforward, hF⟩ := forwardTable_spec hP
  obtain ⟨backward, hbackward, hB⟩ := backwardTable_spec hP
  obtain ⟨F, hF, hFmax⟩ :=
    exists_values (Q := fun s best => (readings _).Greatest start s best) hF
  obtain ⟨B, hB, hBmax⟩ :=
    exists_values (Q := fun s best => (readings _).Greatest s (finish _) best) hB
  have hs : Scored (problemOf ⟨first, second⟩ reference mode) _ forward backward F B :=
    ⟨hF, hB, hFmax, hBmax⟩
  have horigin : (⟨0, 0, 0⟩ : Cell) ∈ cellsIn (problemOf ⟨first, second⟩ reference mode) :=
    mem_cellsOf.mpr ⟨Nat.zero_le _, Nat.zero_le _, Nat.zero_le _⟩
  have hoptimum : backward[0]? = some (B start) := by
    have := hs.backward _ horigin
    rwa [position_origin, address_origin] at this
  obtain ⟨words, hwords, hO⟩ := observed_none.run hP hs fun c (hc : c ∈ cellsIn _) => hc
  rw [nil_append] at hO
  obtain ⟨l, hl, htotal, hselected⟩ := traceback_spec hP hs steps []
    horigin (by rw [left_position]; exact hsteps)
  rw [position_origin] at hl htotal
  have hopt := hs.toFinish start inside_start
  have hmaximum := (maximum_iff_reading hopt).mpr ⟨l, hl, htotal, rfl⟩
  refine ⟨⟨⟨first, second⟩, reference, B start, taken l, words.map (·.map sortCandidates)⟩, ?_, rfl,
    rfl, ⟨hmaximum, (Path.assignment hl).2⟩, ?_, ?_, ?_, ?_, ?_⟩
  · rw [withBudget]
    simp only [admittedShape_spec hfits hbudget]
    exact Option.bind_eq_some_iff.mpr ⟨_, hforward, Option.bind_eq_some_iff.mpr ⟨_, hbackward,
      Option.bind_eq_some_iff.mpr ⟨_, hoptimum, Option.bind_eq_some_iff.mpr ⟨_, hwords,
        Option.bind_eq_some_iff.mpr ⟨_, hselected, rfl⟩⟩⟩⟩⟩
  · intro A hA
    exact ((maximum_iff hopt).mp hA).2
  · intro chain
    rw [PerChain.get_map, length_map, hO.length]
  · intro chain w e' he'
    obtain ⟨e, he, rfl⟩ := PerChain.getElem?_map he'
    refine ⟨sortCandidates_sorted, ?_⟩
    intro r
    rw [mem_sortCandidates, (hO.exact hs he).2]
  · intro chain w e' he'
    obtain ⟨e, he, rfl⟩ := PerChain.getElem?_map he'
    exact (hO.exact hs he).1
  · intro chain w e' he' r
    obtain ⟨e, he, rfl⟩ := PerChain.getElem?_map he'
    obtain ⟨hmissing, hcandidates⟩ := hO.exact hs he
    rw [WordEvidence.common_eq_some sortCandidates_sorted, JointChains.common_iff ⟨_, hmaximum⟩,
      ← hmissing]
    refine and_congr Iff.rfl (forall_congr' fun r' => ?_)
    rw [mem_sortCandidates, hcandidates]

-- both speakers say both words, and the reference has one of them once
theorem joint_evidence_exact_shared_word : (2 + 1) * (2 + 1) * (3 + 1) ≤ 36 ∧ ∃ analysis,
      withBudget ["yes", "no"] ["no", "yes"] ["yes", "no", "yes"] .exact 36 7 = some (.ok analysis) ∧
        analysis.sources = ⟨["yes", "no"], ["no", "yes"]⟩ ∧ analysis.reference = ["yes", "no", "yes"] ∧
        JointEvidence (problemOf ⟨["yes", "no"], ["no", "yes"]⟩ ["yes", "no", "yes"] .exact) analysis :=
  ⟨by decide, joint_evidence_exact ["yes", "no"] ["no", "yes"] ["yes", "no", "yes"] .exact 36 7 (by decide)
    (by decide) (by decide)⟩

end Batchalign.Interleaving
