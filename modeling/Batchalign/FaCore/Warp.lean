import Batchalign.Lib.Tabulate

/- Dynamic time warping of label rows over frame columns (`batchalign-fa-core/src/lib.rs`).

   Costs are taken in any ordered additive group: exact arithmetic in place of `f64`. -/
namespace Batchalign.FaCore
open List
open Function (update_self update_of_ne)

/-- One row for each label, one column for each frame. -/
structure CostMatrix (K : Type) where
  rows : ℕ
  cols : ℕ
  values : List K
  rows_pos : 0 < rows
  cols_pos : 0 < cols
  size : values.length = rows * cols

/-- `FaDtwError`; in exact arithmetic no cost is infinite. -/
inductive FaDtwError where
  | shapeMismatch (rows cols len : ℕ)
  | empty (rows cols : ℕ)

def CostMatrix.new {K : Type} (rows cols : ℕ) (values : List K) : Except FaDtwError (CostMatrix K) :=
  if hempty : rows = 0 ∨ cols = 0 then .error (.empty rows cols)
  else if hsize : values.length = rows * cols then
    .ok ⟨rows, cols, values, Nat.pos_of_ne_zero (not_or.mp hempty).1, Nat.pos_of_ne_zero (not_or.mp hempty).2, hsize⟩
  else .error (.shapeMismatch rows cols values.length)

def CostMatrix.at' {K : Type} [Zero K] (matrix : CostMatrix K) (r c : ℕ) : K :=
  matrix.values.getD (r * matrix.cols + c) 0

structure PathPoint where
  textIdx : ℕ
  timeIdx : ℕ

inductive BeginBoundary where
  | closed
  | opened
  deriving DecidableEq

/-- The two tables of `warp`, by row and column of the bordered grid. -/
structure Tables (K : Type) where
  cost : ℕ × ℕ → WithTop K
  trace : ℕ × ℕ → ℕ

/-- A trace cell no move is stored in (`u8::MAX`). -/
def unset : ℕ := 255

section Warp
variable {K : Type} [AddCommGroup K] [LinearOrder K]

def bordered (begin : BeginBoundary) : Tables K where
  cost p := if p = (0, 0) ∨ begin = .opened ∧ p.1 = 0 then 0 else ⊤
  trace _ := unset

/-- The least of three costs and its move: ties prefer the diagonal, then the text axis. -/
def bestMove (c0 c1 c2 : WithTop K) : WithTop K × ℕ :=
  if c0 ≤ c1 ∧ c0 ≤ c2 then (c0, 0) else if c1 ≤ c2 then (c1, 1) else (c2, 2)

def cellOf (matrix : CostMatrix K) (cost : ℕ × ℕ → WithTop K) (p : ℕ × ℕ) : WithTop K × ℕ :=
  let best := bestMove (cost (p.1 - 1, p.2 - 1)) (cost (p.1 - 1, p.2)) (cost (p.1, p.2 - 1))
  (matrix.at' (p.1 - 1) (p.2 - 1) + best.1, best.2)

def fillCell (matrix : CostMatrix K) (tables : Tables K) (p : ℕ × ℕ) : Tables K where
  cost := Function.update tables.cost p (cellOf matrix tables.cost p).1
  trace := Function.update tables.trace p (cellOf matrix tables.cost p).2

def cells (rows cols : ℕ) : List (ℕ × ℕ) :=
  (List.range' 1 rows).flatMap fun i => (List.range' 1 cols).map fun j => (i, j)

def filled (matrix : CostMatrix K) (begin : BeginBoundary) : Tables K :=
  (cells matrix.rows matrix.cols).foldl (fillCell matrix) (bordered begin)

/-- The loop of the backtrace; each round leaves a row or a column. -/
def backtrace (trace : ℕ × ℕ → ℕ) : ℕ → ℕ → ℕ → List PathPoint
  | 0, _, _ => []
  | fuel + 1, i, j =>
    if 0 < i ∧ 0 < j then
      ⟨i - 1, j - 1⟩ :: match trace (i, j) with
        | 0 => backtrace trace fuel (i - 1) (j - 1)
        | 1 => backtrace trace fuel (i - 1) j
        | _ => backtrace trace fuel i (j - 1)
    else []

def warp (matrix : CostMatrix K) (begin : BeginBoundary) : List PathPoint :=
  (backtrace (filled matrix begin).trace (matrix.rows + matrix.cols) matrix.rows matrix.cols).reverse

def dynamicTimeWarping (matrix : CostMatrix K) : Except FaDtwError (List PathPoint) :=
  .ok (warp matrix .closed)

end Warp

structure LexicalFrameAlignment where
  rowEntries : List ℕ
  deriving DecidableEq

/-- The loop of `align`: the first column of each row. -/
def enterRow (rowEntries : List ℕ) (point : PathPoint) : List ℕ :=
  if point.textIdx = rowEntries.length then rowEntries ++ [point.timeIdx] else rowEntries

def LexicalFrameAlignment.align {K : Type} [AddCommGroup K] [LinearOrder K] (matrix : CostMatrix K) :
    LexicalFrameAlignment :=
  ⟨(warp matrix .opened).foldl enterRow []⟩

/-! ## The filled tables -/

section Filled
variable {K : Type} [AddCommGroup K] [LinearOrder K] {matrix : CostMatrix K} {begin : BeginBoundary}
  {i j : ℕ}

variable {p : ℕ × ℕ}

theorem mem_cells {rows cols : ℕ} :
    p ∈ cells rows cols ↔ (1 ≤ p.1 ∧ p.1 ≤ rows) ∧ 1 ≤ p.2 ∧ p.2 ≤ cols := by
  obtain ⟨i, j⟩ := p
  simp only [cells, mem_flatMap, mem_map, mem_range'_1, Prod.mk.injEq]
  constructor
  · omega
  · rintro ⟨hi, hj⟩
    exact ⟨i, by omega, j, by omega, rfl, rfl⟩

def Earlier (p q : ℕ × ℕ) : Prop := p.1 < q.1 ∨ p.1 = q.1 ∧ p.2 < q.2

theorem cells_sorted (rows cols : ℕ) : (cells rows cols).Pairwise Earlier := by
  rw [cells, pairwise_flatMap]
  refine ⟨?_, ?_⟩
  · intro i _
    rw [pairwise_map]
    exact (pairwise_lt_range' ..).imp fun hlt => .inr ⟨rfl, hlt⟩
  · refine (pairwise_lt_range' ..).imp ?_
    intro i i' hlt p hp q hq
    obtain ⟨j, -, rfl⟩ := mem_map.mp hp
    obtain ⟨j', -, rfl⟩ := mem_map.mp hq
    exact .inl hlt

theorem fillCell_touches (matrix : CostMatrix K) (l : List (ℕ × ℕ)) :
    Tabulate.Touches (fun _ : Tables K => True) (fun t p => (t.cost p, t.trace p)) (fillCell matrix)
      (fun g => cellOf matrix fun p => (g p).1) l := by
  refine ⟨fun _ _ _ _ => trivial, ?_, ?_⟩
  · intro t p _ _
    show (Function.update t.cost p _ p, Function.update t.trace p _ p) = _
    rw [update_self, update_self]
  · intro t p _ q hq _
    show (Function.update t.cost p _ q, Function.update t.trace p _ q) = _
    rw [update_of_ne hq, update_of_ne hq]

theorem filled_border (hp : p.1 = 0 ∨ p.2 = 0) :
    (filled matrix begin).cost p = (bordered begin).cost p := by
  have hnot : p ∉ cells matrix.rows matrix.cols := by
    rw [mem_cells]
    omega
  have h := (fillCell_touches matrix (cells matrix.rows matrix.cols)).foldl_other
    (t := bordered begin) trivial hnot
  exact congrArg Prod.fst h

theorem filled_cell (begin : BeginBoundary) (hp : p ∈ cells matrix.rows matrix.cols) :
    ((filled matrix begin).cost p, (filled matrix begin).trace p) =
      cellOf matrix (filled matrix begin).cost p := by
  have hpos := (mem_cells.mp hp)
  have hreads : ∀ g g' : ℕ × ℕ → WithTop K × ℕ, ∀ q ∈ cells matrix.rows matrix.cols, g q = g' q →
      (∀ d, (d = (q.1 - 1, q.2 - 1) ∨ d = (q.1 - 1, q.2) ∨ d = (q.1, q.2 - 1)) → g d = g' d) →
      cellOf matrix (fun p => (g p).1) q = cellOf matrix (fun p => (g' p).1) q := by
    intro g g' q _ _ hall
    rw [cellOf, cellOf, hall _ (.inl rfl), hall _ (.inr (.inl rfl)), hall _ (.inr (.inr rfl))]
  have h := (fillCell_touches matrix (cells matrix.rows matrix.cols)).foldl_own
    (t := bordered begin) trivial (cells_sorted _ _)
    (fun q _ => by simp [Earlier])
    (fun q d => d = (q.1 - 1, q.2 - 1) ∨ d = (q.1 - 1, q.2) ∨ d = (q.1, q.2 - 1)) hreads
    (by
      rintro q hq d hd
      have hin := mem_cells.mp hq
      obtain ⟨a, b⟩ := q
      rcases hd with rfl | rfl | rfl <;> simp only [Earlier, ne_eq, Prod.mk.injEq] <;> omega)
    hp (g := Function.update (fun q => ((filled matrix begin).cost q, (filled matrix begin).trace q)) p
      ((bordered begin).cost p, (bordered begin).trace p))
    (update_self ..) (fun d hd => update_of_ne hd _ _)
  have hne : (p.1 - 1, p.2 - 1) ≠ p ∧ (p.1 - 1, p.2) ≠ p ∧ (p.1, p.2 - 1) ≠ p := by
    obtain ⟨a, b⟩ := p
    simp only [ne_eq, Prod.mk.injEq]
    omega
  refine h.trans ?_
  rw [cellOf, cellOf, update_of_ne hne.1, update_of_ne hne.2.1, update_of_ne hne.2.2]

end Filled

/-! ## Ways -/

section Ways
variable {K : Type} {matrix : CostMatrix K} {begin : BeginBoundary} {p q : PathPoint}
  {path : List PathPoint}

def BeginBoundary.Starts (begin : BeginBoundary) (p : PathPoint) : Prop :=
  p.textIdx = 0 ∧ (begin = .closed → p.timeIdx = 0)

def Moves (q p : PathPoint) : Prop :=
  (p.textIdx = q.textIdx + 1 ∧ p.timeIdx = q.timeIdx + 1) ∨
    (p.textIdx = q.textIdx + 1 ∧ p.timeIdx = q.timeIdx) ∨
    (p.textIdx = q.textIdx ∧ p.timeIdx = q.timeIdx + 1)

inductive Way (matrix : CostMatrix K) (begin : BeginBoundary) : PathPoint → List PathPoint → Prop
  | start {p : PathPoint} (h : begin.Starts p) (hcols : p.timeIdx < matrix.cols) :
      Way matrix begin p [p]
  | move {q p : PathPoint} {path : List PathPoint} (h : Way matrix begin q path) (hmove : Moves q p)
      (hrows : p.textIdx < matrix.rows) (hcols : p.timeIdx < matrix.cols) :
      Way matrix begin p (path ++ [p])

def CostMatrix.total [AddCommGroup K] (matrix : CostMatrix K) (path : List PathPoint) : K :=
  (path.map fun p => matrix.at' p.textIdx p.timeIdx).sum

@[simp] theorem total_singleton [AddCommGroup K] : matrix.total [p] = matrix.at' p.textIdx p.timeIdx := by
  simp [CostMatrix.total]

@[simp] theorem total_concat [AddCommGroup K] :
    matrix.total (path ++ [p]) = matrix.total path + matrix.at' p.textIdx p.timeIdx := by
  simp [CostMatrix.total]

def PathPoint.cell (p : PathPoint) : ℕ × ℕ := (p.textIdx + 1, p.timeIdx + 1)

theorem cell_mem (hrows : p.textIdx < matrix.rows) (hcols : p.timeIdx < matrix.cols) :
    p.cell ∈ cells matrix.rows matrix.cols :=
  mem_cells.mpr ⟨⟨Nat.succ_pos _, hrows⟩, Nat.succ_pos _, hcols⟩

variable [AddCommGroup K] [LinearOrder K]

theorem filled_point (begin : BeginBoundary) (hrows : p.textIdx < matrix.rows) (hcols : p.timeIdx < matrix.cols) :
    (filled matrix begin).cost p.cell = matrix.at' p.textIdx p.timeIdx +
        (bestMove ((filled matrix begin).cost (p.textIdx, p.timeIdx))
          ((filled matrix begin).cost (p.textIdx, p.timeIdx + 1))
          ((filled matrix begin).cost (p.textIdx + 1, p.timeIdx))).1 ∧
      (filled matrix begin).trace p.cell = (bestMove ((filled matrix begin).cost (p.textIdx, p.timeIdx))
          ((filled matrix begin).cost (p.textIdx, p.timeIdx + 1))
          ((filled matrix begin).cost (p.textIdx + 1, p.timeIdx))).2 := by
  have h := filled_cell begin (cell_mem hrows hcols)
  exact ⟨congrArg Prod.fst h, congrArg Prod.snd h⟩

omit [AddCommGroup K] in
theorem bestMove_le (c0 c1 c2 : WithTop K) :
    (bestMove c0 c1 c2).1 ≤ c0 ∧ (bestMove c0 c1 c2).1 ≤ c1 ∧ (bestMove c0 c1 c2).1 ≤ c2 := by
  rw [bestMove]
  split_ifs with h h'
  · exact ⟨le_refl _, h.1, h.2⟩
  · -- the diagonal is not the least, so it is above one of the others
    refine ⟨?_, le_refl _, h'⟩
    by_contra hlt
    exact h ⟨(not_le.mp hlt).le, (not_le.mp hlt).le.trans h'⟩
  · have hlt := (not_le.mp h').le
    refine ⟨?_, hlt, le_refl _⟩
    by_contra hlt'
    exact h ⟨(not_le.mp hlt').le.trans hlt, (not_le.mp hlt').le⟩

variable [IsOrderedAddMonoid K]

theorem cost_le (h : Way matrix begin p path) :
    (filled matrix begin).cost p.cell ≤ (matrix.total path : WithTop K) := by
  induction h with
  | @start p hstart hcols =>
    have hrows : p.textIdx < matrix.rows := by rw [hstart.1]; exact matrix.rows_pos
    have hcorner : (filled matrix begin).cost (p.textIdx, p.timeIdx) = 0 := by
      rw [filled_border (.inl hstart.1)]
      refine if_pos ?_
      cases begin with
      | closed => exact .inl (Prod.ext hstart.1 (hstart.2 rfl))
      | opened => exact .inr ⟨rfl, hstart.1⟩
    rw [(filled_point begin hrows hcols).1, total_singleton]
    calc _ ≤ (matrix.at' p.textIdx p.timeIdx : WithTop K) + 0 := by
          gcongr
          rw [← hcorner]
          exact (bestMove_le _ _ _).1
      _ = matrix.at' p.textIdx p.timeIdx := add_zero _
  | @move q p path _ hmove hrows hcols ih =>
    have hbest : (bestMove ((filled matrix begin).cost (p.textIdx, p.timeIdx))
        ((filled matrix begin).cost (p.textIdx, p.timeIdx + 1))
        ((filled matrix begin).cost (p.textIdx + 1, p.timeIdx))).1 ≤
          (filled matrix begin).cost q.cell := by
      have hle := bestMove_le ((filled matrix begin).cost (p.textIdx, p.timeIdx))
        ((filled matrix begin).cost (p.textIdx, p.timeIdx + 1))
        ((filled matrix begin).cost (p.textIdx + 1, p.timeIdx))
      rcases hmove with ⟨h1, h2⟩ | ⟨h1, h2⟩ | ⟨h1, h2⟩ <;> rw [h1, h2] at hle ⊢
      · exact hle.1
      · exact hle.2.1
      · exact hle.2.2
    rw [(filled_point begin hrows hcols).1, total_concat, WithTop.coe_add, add_comm]
    gcongr
    exact hbest.trans ih

omit [AddCommGroup K] [LinearOrder K] [IsOrderedAddMonoid K] in
theorem exists_way (begin : BeginBoundary) : ∀ r c, r < matrix.rows → c < matrix.cols →
    ∃ path, Way matrix begin ⟨r, c⟩ path := by
  intro r
  induction r with
  | zero =>
    intro c hrows
    induction c with
    | zero => exact fun hcols => ⟨_, .start ⟨rfl, fun _ => rfl⟩ hcols⟩
    | succ c ih =>
      intro hcols
      obtain ⟨path, hpath⟩ := ih (Nat.lt_of_succ_lt hcols)
      exact ⟨_, .move hpath (.inr (.inr ⟨rfl, rfl⟩)) hrows hcols⟩
  | succ r ih =>
    intro c hrows hcols
    obtain ⟨path, hpath⟩ := ih c (Nat.lt_of_succ_lt hrows) hcols
    exact ⟨_, .move hpath (.inr (.inl ⟨rfl, rfl⟩)) hrows hcols⟩

def PathPoint.back (p : PathPoint) : ℕ → ℕ × ℕ
  | 0 => (p.textIdx, p.timeIdx)
  | 1 => (p.textIdx, p.timeIdx + 1)
  | _ => (p.textIdx + 1, p.timeIdx)

omit [AddCommGroup K] [IsOrderedAddMonoid K] in
theorem bestMove_cases (c0 c1 c2 : WithTop K) :
    bestMove c0 c1 c2 = (c0, 0) ∨ (bestMove c0 c1 c2 = (c1, 1) ∧ c1 < c0) ∨
      bestMove c0 c1 c2 = (c2, 2) := by
  rw [bestMove]
  split_ifs with h h'
  · exact .inl rfl
  · refine .inr (.inl ⟨rfl, ?_⟩)
    by_contra hle
    exact h ⟨not_lt.mp hle, (not_lt.mp hle).trans h'⟩
  · exact .inr (.inr rfl)

theorem move_back (begin : BeginBoundary) (hrows : p.textIdx < matrix.rows) (hcols : p.timeIdx < matrix.cols) :
    (filled matrix begin).trace p.cell < 3 ∧
      (filled matrix begin).cost p.cell = matrix.at' p.textIdx p.timeIdx +
        (filled matrix begin).cost (p.back ((filled matrix begin).trace p.cell)) ∧
      ((∃ q : PathPoint, Moves q p ∧ q.textIdx < matrix.rows ∧ q.timeIdx < matrix.cols ∧
          p.back ((filled matrix begin).trace p.cell) = q.cell) ∨
        begin.Starts p ∧ (p.back ((filled matrix begin).trace p.cell)).1 = 0 ∧
          (filled matrix begin).cost (p.back ((filled matrix begin).trace p.cell)) = 0) := by
  obtain ⟨r, c⟩ := p
  obtain ⟨path, hpath⟩ := exists_way begin r c hrows hcols
  -- the cell is finite, so the neighbour it comes from is
  have hfinite : (filled matrix begin).cost (PathPoint.cell ⟨r, c⟩) < ⊤ :=
    lt_of_le_of_lt (cost_le hpath) (WithTop.coe_lt_top _)
  obtain ⟨hcost, htrace⟩ := filled_point begin hrows hcols
  have hborder : ∀ a b, a = 0 ∨ b = 0 → (filled matrix begin).cost (a, b) =
      if (a, b) = (0, 0) ∨ begin = .opened ∧ a = 0 then 0 else ⊤ := fun a b h => filled_border h
  rcases bestMove_cases ((filled matrix begin).cost (r, c)) ((filled matrix begin).cost (r, c + 1))
    ((filled matrix begin).cost (r + 1, c)) with hbest | ⟨hbest, hlt⟩ | hbest
  · rw [hbest] at hcost htrace
    rw [htrace]
    refine ⟨show 0 < 3 by decide, hcost, ?_⟩
    show (∃ q : PathPoint, _ ∧ _ ∧ _ ∧ (r, c) = q.cell) ∨ _ ∧ r = 0 ∧ (filled matrix begin).cost (r, c) = 0
    have hneighbour : (filled matrix begin).cost (r, c) ≠ ⊤ := by
      intro htop
      rw [hcost, htop, WithTop.add_top] at hfinite
      exact absurd hfinite (lt_irrefl _)
    by_cases hin : 0 < r ∧ 0 < c
    · refine .inl ⟨⟨r - 1, c - 1⟩, .inl ⟨?_, ?_⟩, ?_, ?_, ?_⟩
      · show r = r - 1 + 1
        omega
      · show c = c - 1 + 1
        omega
      · exact lt_of_le_of_lt (Nat.sub_le r 1) hrows
      · exact lt_of_le_of_lt (Nat.sub_le c 1) hcols
      · show (r, c) = (r - 1 + 1, c - 1 + 1)
        rw [Nat.sub_add_cancel hin.1, Nat.sub_add_cancel hin.2]
    · right
      rw [hborder r c (by omega)] at hneighbour ⊢
      split_ifs at hneighbour ⊢ with hzero
      · refine ⟨⟨?_, ?_⟩, ?_, rfl⟩
        · rcases hzero with h | h
          · exact congrArg Prod.fst h
          · exact h.2
        · intro hclosed
          rcases hzero with h | h
          · exact congrArg Prod.snd h
          · rw [hclosed] at h
            cases h.1
        · rcases hzero with h | h
          · exact congrArg Prod.fst h
          · exact h.2
      · exact absurd rfl hneighbour
  · rw [hbest] at hcost htrace
    rw [htrace]
    refine ⟨show 1 < 3 by decide, hcost, .inl ⟨⟨r - 1, c⟩, .inr (.inl ⟨?_, rfl⟩), ?_, hcols, ?_⟩⟩
    all_goals
      -- in the first row the border above is not below the diagonal
      have hr : 0 < r := by
        by_contra hzero
        obtain rfl : r = 0 := by omega
        rw [hborder 0 (c + 1) (.inl rfl), hborder 0 c (.inl rfl)] at hlt
        cases begin <;> simp at hlt
    · show r = r - 1 + 1
      omega
    · exact lt_of_le_of_lt (Nat.sub_le r 1) hrows
    · show (r, c + 1) = (r - 1 + 1, c + 1)
      rw [Nat.sub_add_cancel hr]
  · rw [hbest] at hcost htrace
    rw [htrace]
    have hc : 0 < c := by
      by_contra hzero
      obtain rfl : c = 0 := by omega
      rw [hcost, hborder (r + 1) 0 (.inr rfl)] at hfinite
      simp at hfinite
    refine ⟨show 2 < 3 by decide, hcost, .inl ⟨⟨r, c - 1⟩, .inr (.inr ⟨rfl, ?_⟩), hrows, ?_, ?_⟩⟩
    · show c = c - 1 + 1
      omega
    · exact lt_of_le_of_lt (Nat.sub_le c 1) hcols
    · show (r + 1, c) = (r + 1, c - 1 + 1)
      rw [Nat.sub_add_cancel hc]

omit [AddCommGroup K] [LinearOrder K] [IsOrderedAddMonoid K] in
theorem backtrace_cell (trace : ℕ × ℕ → ℕ) (fuel : ℕ) (p : PathPoint) :
    backtrace trace (fuel + 1) p.cell.1 p.cell.2 =
      p :: backtrace trace fuel (p.back (trace p.cell)).1 (p.back (trace p.cell)).2 := by
  rw [backtrace, if_pos ⟨Nat.succ_pos _, Nat.succ_pos _⟩]
  show p :: _ = _
  congr 1
  show (match trace p.cell with
    | 0 => backtrace trace fuel p.textIdx p.timeIdx
    | 1 => backtrace trace fuel p.textIdx (p.timeIdx + 1)
    | _ => backtrace trace fuel (p.textIdx + 1) p.timeIdx) = _
  match trace p.cell with
  | 0 => rfl
  | 1 => rfl
  | _ + 2 => rfl

theorem backtrace_way (matrix : CostMatrix K) (begin : BeginBoundary) : ∀ (fuel : ℕ) (p : PathPoint), p.textIdx < matrix.rows →
    p.timeIdx < matrix.cols → p.textIdx + p.timeIdx + 2 ≤ fuel →
    Way matrix begin p (backtrace (filled matrix begin).trace fuel p.cell.1 p.cell.2).reverse ∧
      (filled matrix begin).cost p.cell =
        (matrix.total (backtrace (filled matrix begin).trace fuel p.cell.1 p.cell.2).reverse :
          WithTop K) ∧ ∀ q ∈ backtrace (filled matrix begin).trace fuel p.cell.1 p.cell.2,
        (filled matrix begin).trace q.cell < 3 := by
  intro fuel
  induction fuel with
  | zero =>
    omega
  | succ fuel ih =>
    intro p hrows hcols hfuel
    obtain ⟨hset, hcost, hback⟩ := move_back begin hrows hcols
    rw [backtrace_cell, reverse_cons, total_concat]
    rcases hback with ⟨q, hmove, hqrows, hqcols, hq⟩ | ⟨hstart, hoff, hzero⟩
    · have hless : q.textIdx + q.timeIdx + 2 ≤ fuel := by
        rcases hmove with ⟨h1, h2⟩ | ⟨h1, h2⟩ | ⟨h1, h2⟩ <;> omega
      obtain ⟨hway, hqcost, hqset⟩ := ih q hqrows hqcols hless
      rw [hq] at hcost ⊢
      refine ⟨.move hway hmove hrows hcols, ?_, ?_⟩
      · rw [hcost, hqcost, WithTop.coe_add, add_comm]
      · intro x hx
        rcases mem_cons.mp hx with rfl | hx
        · exact hset
        · exact hqset x hx
    · -- the loop stops off the grid
      have hstop : backtrace (filled matrix begin).trace fuel
          (p.back ((filled matrix begin).trace p.cell)).1
          (p.back ((filled matrix begin).trace p.cell)).2 = [] := by
        rw [hoff]
        cases fuel with
        | zero => rfl
        | succ fuel => exact if_neg fun h => absurd h.1 (lt_irrefl 0)
      rw [hstop]
      refine ⟨.start hstart hcols, ?_, ?_⟩
      · rw [hcost, hzero, add_zero]
        simp [CostMatrix.total]
      · intro x hx
        rw [mem_singleton.mp hx]
        exact hset

/-! ## Rows -/

omit [AddCommGroup K] [LinearOrder K] [IsOrderedAddMonoid K] in
theorem Way.le_last (h : Way matrix begin p path) :
    ∀ q ∈ path, q.textIdx ≤ p.textIdx ∧ q.timeIdx ≤ p.timeIdx := by
  induction h with
  | start _ _ =>
    intro q hq
    rw [mem_singleton.mp hq]
    exact ⟨le_refl _, le_refl _⟩
  | @move q p path _ hmove _ _ ih =>
    intro x hx
    rcases mem_append.mp hx with hx | hx
    · have := ih x hx
      rcases hmove with ⟨h1, h2⟩ | ⟨h1, h2⟩ | ⟨h1, h2⟩ <;> omega
    · rw [mem_singleton.mp hx]
      exact ⟨le_refl _, le_refl _⟩

/-- One entry a row of a path, the first column it has there, none before the one above. -/
structure EntersRows (path : List PathPoint) (rows : ℕ) (entries : List ℕ) : Prop where
  length : entries.length = rows
  sorted : entries.Pairwise (· ≤ ·)
  entered : ∀ r c, entries[r]? = some c → (⟨r, c⟩ : PathPoint) ∈ path
  first : ∀ r c, entries[r]? = some c → ∀ q ∈ path, q.textIdx = r → c ≤ q.timeIdx

omit [AddCommGroup K] [LinearOrder K] [IsOrderedAddMonoid K] in
theorem Way.entersRows (h : Way matrix begin p path) :
    EntersRows path (p.textIdx + 1) (path.foldl enterRow []) := by
  induction h with
  | @start p hstart _ =>
    have hentries : [p].foldl enterRow [] = [p.timeIdx] := if_pos hstart.1
    rw [hentries]
    refine ⟨?_, pairwise_singleton _ _, ?_, ?_⟩
    · rw [hstart.1]
      rfl
    · intro r c hc
      obtain ⟨rfl, rfl⟩ : r = 0 ∧ p.timeIdx = c := by
        cases r with
        | zero => exact ⟨rfl, Option.some.inj hc⟩
        | succ r => cases hc
      rw [mem_singleton, ← hstart.1]
    · intro r c hc q hq _
      rw [mem_singleton.mp hq]
      cases r with
      | zero => exact (Option.some.inj hc).ge
      | succ r => cases hc
  | @move q p path hway hmove _ _ ih =>
    have hlast := hway.le_last
    rw [foldl_append]
    show EntersRows _ _ (enterRow _ p)
    rw [enterRow, ih.length]
    by_cases hnew : p.textIdx = q.textIdx + 1
    · -- a new row: its first column stands last
      rw [if_pos hnew]
      have hle : q.timeIdx ≤ p.timeIdx := by
        rcases hmove with ⟨h1, h2⟩ | ⟨h1, h2⟩ | ⟨h1, h2⟩ <;> omega
      refine ⟨?_, ?_, ?_, ?_⟩
      · rw [length_append, ih.length, hnew]
        rfl
      · apply pairwise_append.mpr
        refine ⟨ih.sorted, pairwise_singleton _ _, ?_⟩
        intro c hc x hx
        rw [mem_singleton.mp hx]
        obtain ⟨r, hr⟩ := mem_iff_getElem?.mp hc
        exact (hlast _ (ih.entered r c hr)).2.trans hle
      · intro r c hc
        rcases lt_or_ge r (q.textIdx + 1) with hr | hr
        · rw [getElem?_append_left (by rw [ih.length]; exact hr)] at hc
          exact mem_append_left _ (ih.entered r c hc)
        · rw [getElem?_append_right (by rw [ih.length]; exact hr), ih.length] at hc
          obtain ⟨hzero, rfl⟩ : r - (q.textIdx + 1) = 0 ∧ p.timeIdx = c := by
            cases hk : r - (q.textIdx + 1) with
            | zero => exact ⟨rfl, by rw [hk] at hc; exact Option.some.inj hc⟩
            | succ k => rw [hk] at hc; cases hc
          have hrp : r = p.textIdx := by omega
          rw [hrp]
          exact mem_append_right _ (mem_singleton_self _)
      · intro r c hc x hx hrow
        rcases mem_append.mp hx with hx | hx
        · have hr : r < (path.foldl enterRow []).length := by
            have := (hlast x hx).1
            rw [ih.length]
            omega
          rw [getElem?_append_left hr] at hc
          exact ih.first r c hc x hx hrow
        · obtain rfl := mem_singleton.mp hx
          rw [getElem?_append_right (by rw [ih.length]; omega), ih.length, ← hrow, hnew,
            Nat.sub_self] at hc
          exact (Option.some.inj hc).ge
    · rw [if_neg hnew]
      have hsame : p.textIdx = q.textIdx ∧ p.timeIdx = q.timeIdx + 1 := by
        rcases hmove with ⟨h1, h2⟩ | ⟨h1, h2⟩ | ⟨h1, h2⟩ <;> omega
      refine ⟨by rw [ih.length, hsame.1], ih.sorted, ?_, ?_⟩
      · intro r c hc
        exact mem_append_left _ (ih.entered r c hc)
      · intro r c hc x hx hrow
        rcases mem_append.mp hx with hx | hx
        · exact ih.first r c hc x hx hrow
        · -- a later column of the row it is in
          obtain rfl := mem_singleton.mp hx
          have := (hlast _ (ih.entered r c hc)).2
          simp only at this
          omega

/-! ## The alignment -/

/-- A warp gives a way to the last corner, no more costly than any other, spelled by stored moves. -/
structure LeastWay (matrix : CostMatrix K) (begin : BeginBoundary) (path : List PathPoint) : Prop where
  way : Way matrix begin ⟨matrix.rows - 1, matrix.cols - 1⟩ path
  least : ∀ other, Way matrix begin ⟨matrix.rows - 1, matrix.cols - 1⟩ other →
    matrix.total path ≤ matrix.total other
  visits : ∀ r < matrix.rows, ∃ p ∈ path, p.textIdx = r
  stored : ∀ p ∈ path, (filled matrix begin).trace p.cell ≠ unset

theorem warp_least (matrix : CostMatrix K) (begin : BeginBoundary) :
    LeastWay matrix begin (warp matrix begin) := by
  have hr := matrix.rows_pos
  have hc := matrix.cols_pos
  have hcell : PathPoint.cell ⟨matrix.rows - 1, matrix.cols - 1⟩ = (matrix.rows, matrix.cols) := by
    show (matrix.rows - 1 + 1, matrix.cols - 1 + 1) = _
    rw [Nat.sub_add_cancel hr, Nat.sub_add_cancel hc]
  obtain ⟨hway, hcost, hset⟩ := backtrace_way matrix begin
    (matrix.rows + matrix.cols) ⟨matrix.rows - 1, matrix.cols - 1⟩
    (show matrix.rows - 1 < matrix.rows by omega) (show matrix.cols - 1 < matrix.cols by omega)
    (show matrix.rows - 1 + (matrix.cols - 1) + 2 ≤ _ by omega)
  rw [hcell] at hway hcost hset
  change Way matrix begin _ (warp matrix begin) at hway
  refine ⟨hway, ?_, ?_, ?_⟩
  · intro other hother
    have hle := cost_le hother
    rw [hcell, hcost] at hle
    exact WithTop.coe_le_coe.mp hle
  · intro r hr'
    have hentries := hway.entersRows
    have hlt : r < ((warp matrix begin).foldl enterRow []).length := by
      rw [hentries.length]
      show r < matrix.rows - 1 + 1
      omega
    exact ⟨_, hentries.entered r _ (getElem?_eq_getElem hlt), rfl⟩
  · intro p hp
    have hlt := hset p (mem_reverse.mp hp)
    intro hunset
    rw [hunset] at hlt
    exact absurd hlt (by decide)

/-- A warp is least from its begin, and the open one gives each row its first column. -/
theorem warp_exact (matrix : CostMatrix K) :
    (∃ path, dynamicTimeWarping matrix = .ok path ∧ LeastWay matrix .closed path) ∧
      LeastWay matrix .opened (warp matrix .opened) ∧
      EntersRows (warp matrix .opened) matrix.rows (LexicalFrameAlignment.align matrix).rowEntries ∧
      ∀ c ∈ (LexicalFrameAlignment.align matrix).rowEntries, c < matrix.cols := by
  have hopen := warp_least matrix .opened
  have hentries : EntersRows (warp matrix .opened) matrix.rows
      (LexicalFrameAlignment.align matrix).rowEntries := by
    have h := hopen.way.entersRows
    rwa [show (⟨matrix.rows - 1, matrix.cols - 1⟩ : PathPoint).textIdx + 1 = matrix.rows from
      Nat.sub_add_cancel matrix.rows_pos] at h
  refine ⟨⟨_, rfl, warp_least matrix .closed⟩, hopen, hentries, ?_⟩
  intro c hc
  obtain ⟨r, hr⟩ := mem_iff_getElem?.mp hc
  have hle := (hopen.way.le_last _ (hentries.entered r c hr)).2
  have hpos := matrix.cols_pos
  simp only at hle
  omega

/-- Two labels over three frames, one of them cheaper than nothing. -/
theorem warp_exact_two_labels :
    (∃ path, dynamicTimeWarping (⟨2, 3, [4, -1, 2, 3, 5, -2], by decide, by decide, rfl⟩ : CostMatrix ℤ) =
        .ok path ∧
      LeastWay (⟨2, 3, [4, -1, 2, 3, 5, -2], by decide, by decide, rfl⟩ : CostMatrix ℤ) .closed path) ∧
    LexicalFrameAlignment.align (⟨2, 3, [4, -1, 2, 3, 5, -2], by decide, by decide, rfl⟩ : CostMatrix ℤ) =
      ⟨[1, 2]⟩ := by
  refine ⟨(warp_exact _).1, ?_⟩
  decide +kernel

end Ways

end Batchalign.FaCore
