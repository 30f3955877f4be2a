import Mathlib.Tactic

/- Tables filled cell by cell. -/
namespace Tabulate
open List

variable {C V : Type*}

def write (table : List V) (at' : ℕ) (value : V) : Option (List V) :=
  if at' < table.length then some (table.set at' value) else none

def fill (at' : C → ℕ) (cell : List V → C → Option V) : List V → List C → Option (List V)
  | table, [] => some table
  | table, c :: cells => do
    let value ← cell table c
    let table ← write table (at' c) value
    fill at' cell table cells

variable {at' : C → ℕ} {cell : List V → C → Option V} {P : C → V → Prop}
  {R : C → C → Prop} {table : List V} {cells : List C} {c d : C}

def Entry (at' : C → ℕ) (P : C → V → Prop) (table : List V) (c : C) : Prop :=
  ∃ v, table[at' c]? = some v ∧ P c v

theorem Entry.write {v : V} (hne : at' c ≠ at' d) (h : Entry at' P table d) :
    Entry at' P (table.set (at' c) v) d := by
  obtain ⟨w, hw, hP⟩ := h
  exact ⟨w, by rw [getElem?_set_ne hne, hw], hP⟩

theorem fill_from (size : ℕ) (done : List C) (table : List V)
    (hinside : ∀ c ∈ done ++ cells, at' c < size) (hsorted : (done ++ cells).Pairwise R)
    (hasymm : ∀ a b, R a b → ¬ R b a) (hapart : ∀ a b, R a b → at' a ≠ at' b)
    (hcell : ∀ (t : List V) (c : C), c ∈ done ++ cells → t.length = size →
      (∀ d ∈ done ++ cells, R d c → Entry at' P t d) → ∃ v, cell t c = some v ∧ P c v)
    (hsize : table.length = size) (hdone : ∀ d ∈ done, Entry at' P table d) :
    ∃ t, fill at' cell table cells = some t ∧ t.length = size ∧ ∀ c ∈ done ++ cells, Entry at' P t c := by
  induction cells generalizing done table with
  | nil =>
    refine ⟨table, rfl, hsize, ?_⟩
    simpa using hdone
  | cons c cells ih =>
    have hbefore : ∀ d ∈ done ++ c :: cells, R d c → Entry at' P table d := by
      intro d hd hR
      rcases mem_append.mp hd with hd | hd
      · exact hdone d hd
      · -- a cell that comes later does not stand before this one
        have hlater := (pairwise_append.mp hsorted).2.1
        rcases mem_cons.mp hd with rfl | hd
        · exact absurd hR (hasymm d d hR)
        · exact absurd hR (hasymm c d ((pairwise_cons.mp hlater).1 d hd))
    obtain ⟨v, hv, hP⟩ := hcell table c (by simp) hsize hbefore
    have hin : at' c < table.length := by
      rw [hsize]
      exact hinside c (by simp)
    have hassoc : done ++ c :: cells = (done ++ [c]) ++ cells := by simp
    rw [hassoc] at hinside hsorted hcell ⊢
    obtain ⟨t, ht, hlen, hall⟩ := ih (done ++ [c]) (table.set (at' c) v)
      hinside hsorted hcell (by rw [length_set, hsize]) (by
        intro d hd
        rcases mem_append.mp hd with hmem | hmem
        · have hR : R d c := by
            have := (pairwise_append.mp hsorted).1
            exact (pairwise_append.mp this).2.2 d hmem c (mem_singleton_self c)
          exact (hdone d hmem).write (hapart d c hR).symm
        · rw [mem_singleton.mp hmem]
          exact ⟨v, by rw [getElem?_set_self hin], hP⟩)
    refine ⟨t, ?_, hlen, hall⟩
    rw [fill, hv]
    simp only [Option.bind_eq_bind, Option.bind_some, write, if_pos hin]
    exact ht

theorem fill_spec (at' : C → ℕ) (cell : List V → C → Option V)
    (hinside : ∀ c ∈ cells, at' c < table.length) (hsorted : cells.Pairwise R)
    (hasymm : ∀ a b, R a b → ¬ R b a) (hapart : ∀ a b, R a b → at' a ≠ at' b)
    (hcell : ∀ (t : List V) (c : C), c ∈ cells → t.length = table.length →
      (∀ d ∈ cells, R d c → Entry at' P t d) → ∃ v, cell t c = some v ∧ P c v) :
    ∃ t, fill at' cell table cells = some t ∧ t.length = table.length ∧ ∀ c ∈ cells, Entry at' P t c := by
  obtain ⟨t, ht, hlen, hall⟩ := fill_from table.length [] table (by simpa using hinside)
    (by simpa using hsorted) hasymm hapart (by simpa using hcell) rfl (by simp)
  exact ⟨t, ht, hlen, by simpa using hall⟩

/-! ## Folds that touch one cell at a time -/

section Fold
variable {T : Type*} {I : T → Prop} {get : T → C → V} {step : T → C → T} {value : (C → V) → C → V}
  {t : T}

/-- Each step keeps the table's shape and all but its own cell, which gets its value computed before. -/
structure Touches (I : T → Prop) (get : T → C → V) (step : T → C → T) (value : (C → V) → C → V)
    (cells : List C) : Prop where
  keep : ∀ t, ∀ c ∈ cells, I t → I (step t c)
  own : ∀ t, ∀ c ∈ cells, I t → get (step t c) c = value (get t) c
  other : ∀ t, ∀ c ∈ cells, ∀ d, d ≠ c → I t → get (step t c) d = get t d

theorem Touches.tail (h : Touches I get step value (c :: cells)) : Touches I get step value cells :=
  ⟨fun t d hd => h.keep t d (mem_cons_of_mem _ hd), fun t d hd => h.own t d (mem_cons_of_mem _ hd),
    fun t d hd => h.other t d (mem_cons_of_mem _ hd)⟩

section
variable (h : Touches I get step value cells)
include h

theorem Touches.foldl_keep (ht : I t) : I (cells.foldl step t) := by
  induction cells generalizing t with
  | nil => exact ht
  | cons c cells ih => exact ih h.tail (h.keep t c mem_cons_self ht)

theorem Touches.foldl_other (ht : I t) (hd : d ∉ cells) : get (cells.foldl step t) d = get t d := by
  induction cells generalizing t with
  | nil => rfl
  | cons c cells ih =>
    obtain ⟨hne, hd⟩ := ne_and_not_mem_of_not_mem_cons hd
    calc get ((c :: cells).foldl step t) d
        = get (step t c) d := ih h.tail (h.keep t c mem_cons_self ht) hd
      _ = get t d := h.other t c mem_cons_self d hne ht

/-- A listed cell has its value of the finished table when it reads no cell that comes after it. -/
theorem Touches.foldl_own (ht : I t) (hsorted : cells.Pairwise R)
    (hirrefl : ∀ c ∈ cells, ¬ R c c) (reads : C → C → Prop)
    (hreads : ∀ g g' : C → V, ∀ c ∈ cells, g c = g' c → (∀ d, reads c d → g d = g' d) →
      value g c = value g' c) (hbefore : ∀ c ∈ cells, ∀ d, reads c d → d ≠ c ∧ ¬ R c d) (hc : c ∈ cells)
    {g : C → V} (hown : g c = get t c) (hrest : ∀ d ≠ c, g d = get (cells.foldl step t) d) :
    get (cells.foldl step t) c = value g c := by
  induction cells generalizing t with
  | nil => cases hc
  | cons b cells ih =>
    obtain ⟨hb, hsorted⟩ := pairwise_cons.mp hsorted
    have htail := h.tail
    have hkeep := h.keep t b mem_cons_self ht
    rcases mem_cons.mp hc with rfl | hmem
    · -- the cell is computed now; what it reads is not touched again
      have hnot : c ∉ cells := fun hin => hirrefl c mem_cons_self (hb c hin)
      have hnow : ∀ d, reads c d → get t d = g d := by
        intro d hd
        obtain ⟨hne, hR⟩ := hbefore c mem_cons_self d hd
        have hout : d ∉ cells := fun hin => hR (hb d hin)
        rw [hrest d hne]
        symm
        calc get ((c :: cells).foldl step t) d
            = get (step t c) d := htail.foldl_other hkeep hout
          _ = get t d := h.other t c mem_cons_self d hne ht
      calc get ((c :: cells).foldl step t) c
          = get (step t c) c := htail.foldl_other hkeep hnot
        _ = value (get t) c := h.own t c mem_cons_self ht
        _ = value g c := hreads _ _ c mem_cons_self hown.symm hnow
    · have hne : c ≠ b := by
        rintro rfl
        exact hirrefl c mem_cons_self (hb c hmem)
      refine ih htail hkeep hsorted (fun d hd => hirrefl d (mem_cons_of_mem _ hd))
        (fun g g' d hd => hreads g g' d (mem_cons_of_mem _ hd))
        (fun d hd => hbefore d (mem_cons_of_mem _ hd)) hmem ?_ hrest
      rw [hown, h.other t b mem_cons_self c hne ht]

end

end Fold

end Tabulate
