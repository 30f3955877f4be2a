import Mathlib.Tactic

/- Longest chains of a matching relation between two index ranges. `IsChain M m n c`: `c` lists matching
   pairs inside `m × n`, strictly increasing in both coordinates. `lcs M m n` is the greatest length of
   one (`chain_le_lcs`, `exists_chain`). The relation need not be transitive or symmetric. -/
namespace Chain
open List

def Before (p q : ℕ × ℕ) : Prop := p.1 < q.1 ∧ p.2 < q.2

/-- `c` is a chain of matching pairs inside `m × n`. -/
structure IsChain (M : ℕ → ℕ → Bool) (m n : ℕ) (c : List (ℕ × ℕ)) : Prop where
  increasing : c.Pairwise Before
  matching : ∀ p ∈ c, M p.1 p.2 = true
  inside : ∀ p ∈ c, p.1 < m ∧ p.2 < n

/-- The greatest length of a chain inside `m × n`, by the usual recurrence. -/
def lcs (M : ℕ → ℕ → Bool) : ℕ → ℕ → ℕ
  | 0, _ => 0
  | _ + 1, 0 => 0
  | i + 1, j + 1 =>
    max (max (lcs M i (j + 1)) (lcs M (i + 1) j)) (lcs M i j + if M i j then 1 else 0)

/-- The relation seen from `(a, b)` on. -/
def shift (M : ℕ → ℕ → Bool) (a b : ℕ) : ℕ → ℕ → Bool := fun i j => M (a + i) (b + j)

/-- The relation on `m × n` read backwards in both coordinates. -/
def mirror (M : ℕ → ℕ → Bool) (m n : ℕ) : ℕ → ℕ → Bool := fun i j => M (m - 1 - i) (n - 1 - j)

variable {M : ℕ → ℕ → Bool} {m n i j : ℕ} {c d : List (ℕ × ℕ)}

section
variable (M : ℕ → ℕ → Bool)

@[simp] theorem lcs_zero_left (j : ℕ) : lcs M 0 j = 0 := by
  simp [lcs]

@[simp] theorem lcs_zero_right (i : ℕ) : lcs M i 0 = 0 := by
  cases i <;> simp [lcs]

theorem lcs_succ (i j : ℕ) : lcs M (i + 1) (j + 1) =
    max (max (lcs M i (j + 1)) (lcs M (i + 1) j)) (lcs M i j + if M i j then 1 else 0) := by
  rw [lcs]

theorem lcs_le_succ_left (i j : ℕ) : lcs M i j ≤ lcs M (i + 1) j := by
  cases j with
  | zero => simp
  | succ j => rw [lcs_succ]; omega

theorem lcs_le_succ_right (i j : ℕ) : lcs M i j ≤ lcs M i (j + 1) := by
  cases i with
  | zero => simp
  | succ i => rw [lcs_succ]; omega

end

theorem lcs_mono {i i' j j' : ℕ} (hi : i ≤ i') (hj : j ≤ j') : lcs M i j ≤ lcs M i' j' := by
  calc lcs M i j ≤ lcs M i' j := monotone_nat_of_le_succ (fun k => lcs_le_succ_left M k j) hi
    _ ≤ lcs M i' j' := monotone_nat_of_le_succ (fun k => lcs_le_succ_right M i' k) hj

theorem lcs_succ_le (M : ℕ → ℕ → Bool) (i j : ℕ) :
    lcs M (i + 1) j ≤ lcs M i j + 1 ∧ lcs M i (j + 1) ≤ lcs M i j + 1 := by
  induction i generalizing j with
  | zero =>
    induction j with
    | zero => simp
    | succ j ih =>
      rw [lcs_succ]
      simp only [lcs_zero_left] at ih ⊢
      split <;> omega
  | succ i ihi =>
    have hright : ∀ j, lcs M (i + 1) (j + 1) ≤ lcs M (i + 1) j + 1 := by
      intro j
      rw [lcs_succ]
      have h1 := (ihi j).2
      have h2 := lcs_le_succ_left M i j
      split <;> omega
    refine ⟨?_, hright j⟩
    induction j with
    | zero => simp
    | succ j ihj =>
      rw [lcs_succ M (i + 1) j]
      have h2 := lcs_le_succ_right M (i + 1) j
      split <;> omega

theorem lcs_le_left (M : ℕ → ℕ → Bool) (i j : ℕ) : lcs M i j ≤ i := by
  induction i with
  | zero => simp
  | succ i ih => have := (lcs_succ_le M i j).1; omega

theorem lcs_succ_of_match (h : M i j = true) : lcs M (i + 1) (j + 1) = lcs M i j + 1 := by
  rw [lcs_succ, if_pos h]
  have h1 := (lcs_succ_le M i j).1
  have h2 := (lcs_succ_le M i j).2
  omega

theorem lcs_succ_of_not_match (h : M i j = false) :
    lcs M (i + 1) (j + 1) = max (lcs M i (j + 1)) (lcs M (i + 1) j) := by
  rw [lcs_succ]
  have h1 := lcs_le_succ_right M i j
  simp [h]
  omega

theorem lcs_congr {M N : ℕ → ℕ → Bool} {m n : ℕ}
    (h : ∀ i < m, ∀ j < n, M i j = N i j) : lcs M m n = lcs N m n := by
  induction m generalizing n with
  | zero => simp
  | succ m ihm =>
    induction n with
    | zero => simp
    | succ n ihn =>
      have h1 := ihm (n := n + 1) (fun i hi j hj => h i (by omega) j hj)
      have h2 := ihm (n := n) (fun i hi j hj => h i (by omega) j (by omega))
      have h3 := ihn (fun i hi j hj => h i hi j (by omega))
      rw [lcs_succ, lcs_succ, h1, h2, h3, h m (by omega) n (by omega)]

/-! ## Chains and the recurrence -/

theorem IsChain.nil : IsChain M m n [] := ⟨by simp, by simp, by simp⟩

theorem IsChain.mono {m' n' : ℕ} (h : IsChain M m n c) (hm : m ≤ m') (hn : n ≤ n') : IsChain M m' n' c :=
  ⟨h.increasing, h.matching, fun p hp => by have := h.inside p hp; omega⟩

theorem IsChain.concat (h : IsChain M i j c) (hM : M i j = true) :
    IsChain M (i + 1) (j + 1) (c ++ [(i, j)]) := by
  refine ⟨?_, ?_, ?_⟩
  · rw [pairwise_append]
    refine ⟨h.increasing, by simp, ?_⟩
    intro p hp q hq
    rw [mem_singleton] at hq
    subst hq
    exact h.inside p hp
  · intro p hp
    rcases mem_append.mp hp with hp | hp
    · exact h.matching p hp
    · rw [mem_singleton] at hp; subst hp; exact hM
  · intro p hp
    rcases mem_append.mp hp with hp | hp
    · have := h.inside p hp; omega
    · rw [mem_singleton] at hp; subst hp; simp

variable {p : ℕ × ℕ} {a b : ℕ}

theorem IsChain.init (h : IsChain M m n (c ++ [p])) : IsChain M p.1 p.2 c := by
  have hinc := pairwise_append.mp h.increasing
  exact ⟨hinc.1, fun q hq => h.matching q (by simp [hq]),
    fun q hq => hinc.2.2 q hq p (by simp)⟩

theorem IsChain.last_inside (h : IsChain M m n (c ++ [p])) : M p.1 p.2 = true ∧ p.1 < m ∧ p.2 < n :=
  ⟨h.matching p (by simp), h.inside p (by simp)⟩

theorem IsChain.before_of_fst {q : ℕ × ℕ} (h : IsChain M m n c) (hp : p ∈ c) (hq : q ∈ c) (hlt : p.1 < q.1) :
    Before p q := by
  obtain ⟨i, hi, rfl⟩ := getElem_of_mem hp
  obtain ⟨j, hj, rfl⟩ := getElem_of_mem hq
  rcases lt_trichotomy i j with hij | rfl | hji
  · exact pairwise_iff_getElem.mp h.increasing i j hi hj hij
  · exact absurd hlt (lt_irrefl _)
  · exact absurd (pairwise_iff_getElem.mp h.increasing j i hj hi hji).1 hlt.asymm

theorem chain_le_lcs (h : IsChain M m n c) : c.length ≤ lcs M m n := by
  induction c using reverseRecOn generalizing m n with
  | nil => simp
  | append_singleton c p ih =>
    obtain ⟨hM, hm, hn⟩ := h.last_inside
    have hlen := ih h.init
    have hcorner := lcs_succ_of_match hM
    have hmono : lcs M (p.1 + 1) (p.2 + 1) ≤ lcs M m n := lcs_mono hm hn
    simp only [length_append, length_singleton]
    omega

theorem exists_chain (M : ℕ → ℕ → Bool) (m n : ℕ) : ∃ c, IsChain M m n c ∧ c.length = lcs M m n := by
  induction m generalizing n with
  | zero => exact ⟨[], IsChain.nil, by simp⟩
  | succ m ihm =>
    induction n with
    | zero => exact ⟨[], IsChain.nil, by simp⟩
    | succ n ihn =>
      cases hM : M m n with
      | true =>
        obtain ⟨c, hc, hlen⟩ := ihm n
        exact ⟨c ++ [(m, n)], hc.concat hM, by rw [lcs_succ_of_match hM]; simp [hlen]⟩
      | false =>
        rw [lcs_succ_of_not_match hM]
        obtain ⟨c, hc, hlen⟩ := ihm (n + 1)
        obtain ⟨d, hd, hlen'⟩ := ihn
        rcases le_total (lcs M m (n + 1)) (lcs M (m + 1) n) with h | h
        · exact ⟨d, hd.mono (le_refl _) (by omega), by omega⟩
        · exact ⟨c, hc.mono (by omega) (le_refl _), by omega⟩

def IsOptimal (M : ℕ → ℕ → Bool) (m n : ℕ) (c : List (ℕ × ℕ)) : Prop :=
  IsChain M m n c ∧ c.length = lcs M m n

theorem isOptimal_iff : IsOptimal M m n c ↔
    IsChain M m n c ∧ ∀ d, IsChain M m n d → d.length ≤ c.length := by
  constructor
  · rintro ⟨hc, hlen⟩
    exact ⟨hc, fun d hd => by rw [hlen]; exact chain_le_lcs hd⟩
  · rintro ⟨hc, hmax⟩
    obtain ⟨d, hd, hlen⟩ := exists_chain M m n
    have h1 := hmax d hd
    have h2 := chain_le_lcs hc
    exact ⟨hc, by omega⟩

/-! ## Cutting a chain -/

theorem IsChain.map_add (h : IsChain (shift M a b) m n c) :
    IsChain M (a + m) (b + n) (c.map fun p => (a + p.1, b + p.2)) := by
  refine ⟨?_, ?_, ?_⟩
  · rw [pairwise_map]
    exact h.increasing.imp fun hpq => by unfold Before at hpq ⊢; omega
  · intro p hp
    obtain ⟨q, hq, rfl⟩ := mem_map.mp hp
    exact h.matching q hq
  · intro p hp
    obtain ⟨q, hq, rfl⟩ := mem_map.mp hp
    have := h.inside q hq
    omega

theorem IsChain.append (hc : IsChain M a b c) (hd : IsChain (shift M a b) m n d) :
    IsChain M (a + m) (b + n) (c ++ d.map fun p => (a + p.1, b + p.2)) := by
  have hd' := hd.map_add
  refine ⟨?_, ?_, ?_⟩
  · rw [pairwise_append]
    refine ⟨hc.increasing, hd'.increasing, ?_⟩
    intro p hp q hq
    obtain ⟨q, -, rfl⟩ := mem_map.mp hq
    have := hc.inside p hp
    constructor <;> simp only <;> omega
  · intro p hp
    rcases mem_append.mp hp with hp | hp
    · exact hc.matching p hp
    · exact hd'.matching p hp
  · intro p hp
    rcases mem_append.mp hp with hp | hp
    · have := hc.inside p hp; omega
    · exact hd'.inside p hp

theorem lcs_add_le (M : ℕ → ℕ → Bool) (a b m n : ℕ) :
    lcs M a b + lcs (shift M a b) m n ≤ lcs M (a + m) (b + n) := by
  obtain ⟨c, hc, hlen⟩ := exists_chain M a b
  obtain ⟨d, hd, hlen'⟩ := exists_chain (shift M a b) m n
  have h := chain_le_lcs (hc.append hd)
  simp only [length_append, length_map] at h
  omega

theorem IsChain.map_sub (h : IsChain M m n c) (hge : ∀ p ∈ c, a ≤ p.1 ∧ b ≤ p.2) :
    IsChain (shift M a b) (m - a) (n - b) (c.map fun p => (p.1 - a, p.2 - b)) := by
  refine ⟨?_, ?_, ?_⟩
  · rw [pairwise_map]
    refine h.increasing.imp_of_mem ?_
    intro p q hp hq hpq
    have h1 := hge p hp
    unfold Before at hpq ⊢
    omega
  · intro p hp
    obtain ⟨q, hq, rfl⟩ := mem_map.mp hp
    have h1 := hge q hq
    simp only [shift]
    rw [show a + (q.1 - a) = q.1 by omega, show b + (q.2 - b) = q.2 by omega]
    exact h.matching q hq
  · intro p hp
    obtain ⟨q, hq, rfl⟩ := mem_map.mp hp
    have h1 := hge q hq
    have h2 := h.inside q hq
    omega

theorem IsChain.sublist (h : IsChain M m n c) (hs : d.Sublist c) : IsChain M m n d :=
  ⟨h.increasing.sublist hs, fun p hp => h.matching p (hs.subset hp),
    fun p hp => h.inside p (hs.subset hp)⟩

theorem IsChain.cut (h : IsChain M m n (c ++ p :: d)) :
    IsChain M p.1 p.2 c ∧ M p.1 p.2 = true ∧ p.1 < m ∧ p.2 < n ∧
      ∀ q ∈ d, p.1 + 1 ≤ q.1 ∧ p.2 + 1 ≤ q.2 := by
  have hinc := pairwise_append.mp h.increasing
  have hcons := pairwise_cons.mp hinc.2.1
  refine ⟨⟨hinc.1, fun q hq => h.matching q (by simp [hq]), ?_⟩, h.matching p (by simp),
    (h.inside p (by simp)).1, (h.inside p (by simp)).2, fun q hq => hcons.1 q hq⟩
  exact fun q hq => hinc.2.2 q hq p (by simp)

theorem lcs_le_split (M : ℕ → ℕ → Bool) : ∀ m n, b ≤ n →
    ∃ k ≤ m, lcs M m n ≤ lcs M k b + lcs (shift M k b) (m - k) (n - b) := by
  intro m n
  induction m generalizing n with
  | zero => exact fun _ => ⟨0, le_refl _, by simp⟩
  | succ m ihm =>
    induction n with
    | zero => exact fun _ => ⟨0, by omega, by simp⟩
    | succ n ihn =>
      intro hb
      rcases Nat.eq_or_lt_of_le hb with rfl | hlt
      · exact ⟨m + 1, le_refl _, by omega⟩
      have hbn : b ≤ n := by omega
      cases hM : M m n with
      | true =>
        obtain ⟨k, hk, hle⟩ := ihm n hbn
        refine ⟨k, by omega, ?_⟩
        have hcorner : shift M k b (m - k) (n - b) = true := by
          simp only [shift]
          rw [show k + (m - k) = m by omega, show b + (n - b) = n by omega, hM]
        have := lcs_succ_of_match hcorner
        rw [lcs_succ_of_match hM, show m + 1 - k = m - k + 1 by omega,
          show n + 1 - b = n - b + 1 by omega]
        omega
      | false =>
        rw [lcs_succ_of_not_match hM]
        rcases le_total (lcs M m (n + 1)) (lcs M (m + 1) n) with h | h
        · obtain ⟨k, hk, hle⟩ := ihn hbn
          have := lcs_mono (M := shift M k b) (le_refl (m + 1 - k)) (show n - b ≤ n + 1 - b by omega)
          exact ⟨k, hk, by omega⟩
        · obtain ⟨k, hk, hle⟩ := ihm (n + 1) hb
          have := lcs_mono (M := shift M k b) (show m - k ≤ m + 1 - k by omega)
            (le_refl (n + 1 - b))
          exact ⟨k, by omega, by omega⟩

theorem lcs_through_le (hM : M i j = true) (hi : i < m) (hj : j < n) :
    lcs M i j + 1 + lcs (shift M (i + 1) (j + 1)) (m - (i + 1)) (n - (j + 1)) ≤ lcs M m n := by
  have h := lcs_add_le M (i + 1) (j + 1) (m - (i + 1)) (n - (j + 1))
  rw [lcs_succ_of_match hM, show i + 1 + (m - (i + 1)) = m by omega,
    show j + 1 + (n - (j + 1)) = n by omega] at h
  exact h

theorem lcs_succ_succ_le (M : ℕ → ℕ → Bool) (m n : ℕ) :
    lcs M (m + 1) (n + 1) ≤ 1 + lcs (shift M 1 1) m n := by
  obtain ⟨c, hc, hlen⟩ := exists_chain M (m + 1) (n + 1)
  cases c with
  | nil => simp at hlen; omega
  | cons p c =>
    have hcut := (IsChain.cut (c := []) hc).2.2.2.2
    have htail := (hc.sublist (sublist_cons_self p c)).map_sub (a := 1) (b := 1)
      (fun q hq => by have := hcut q hq; omega)
    have := chain_le_lcs htail
    simp only [length_map, length_cons, Nat.add_sub_cancel] at this hlen
    omega

theorem lcs_of_match_zero (h : M 0 0 = true) (m n : ℕ) :
    lcs M (m + 1) (n + 1) = 1 + lcs (shift M 1 1) m n := by
  have h1 := lcs_succ_succ_le M m n
  have h2 := lcs_through_le (m := m + 1) (n := n + 1) h (by omega) (by omega)
  simp only [lcs_zero_left, zero_add, Nat.add_sub_cancel] at h2
  omega

/-! ## Edit cost -/

/-- The least edit cost: a gap costs 1, a substitution 2, a match nothing. -/
def editCost (M : ℕ → ℕ → Bool) : ℕ → ℕ → ℕ
  | 0, j => j
  | i + 1, 0 => i + 1
  | i + 1, j + 1 =>
    min (min (editCost M i j + if M i j then 0 else 2) (editCost M (i + 1) j + 1))
      (editCost M i (j + 1) + 1)

section
variable (M : ℕ → ℕ → Bool)

@[simp] theorem editCost_zero_left (j : ℕ) : editCost M 0 j = j := by
  simp [editCost]

@[simp] theorem editCost_zero_right (i : ℕ) : editCost M i 0 = i := by
  cases i <;> simp [editCost]

theorem editCost_succ (i j : ℕ) : editCost M (i + 1) (j + 1) =
    min (min (editCost M i j + if M i j then 0 else 2) (editCost M (i + 1) j + 1))
      (editCost M i (j + 1) + 1) := by
  rw [editCost]

theorem editCost_add_lcs (i j : ℕ) : editCost M i j + 2 * lcs M i j = i + j := by
  induction i generalizing j with
  | zero => simp
  | succ i ihi =>
    induction j with
    | zero => simp
    | succ j ihj =>
      have h1 := ihi j
      have h2 := ihi (j + 1)
      have h3 := (lcs_succ_le M i j).1
      have h4 := (lcs_succ_le M i j).2
      have h5 := lcs_le_succ_left M i j
      cases hM : M i j with
      | true =>
        rw [lcs_succ_of_match hM, editCost_succ, hM]
        simp only [if_true]
        omega
      | false =>
        rw [lcs_succ_of_not_match hM, editCost_succ, hM]
        simp only [Bool.false_eq_true, if_false]
        omega

end

theorem eq_of_increasing (hc : c.Pairwise Before) (hd : d.Pairwise Before) (h : ∀ p, p ∈ c ↔ p ∈ d) : c = d := by
  have : Std.Irrefl Before := ⟨fun q hq => lt_irrefl q.1 hq.1⟩
  have : Std.Antisymm Before := ⟨fun p q hpq hqp => absurd hpq.1 hqp.1.asymm⟩
  exact Pairwise.eq_of_mem_iff hc hd h

/-! ## Reading backwards -/

theorem IsChain.reverse (h : IsChain M m n c) :
    IsChain (mirror M m n) m n (c.map fun p => (m - 1 - p.1, n - 1 - p.2)).reverse := by
  refine ⟨?_, ?_, ?_⟩
  · rw [pairwise_reverse, pairwise_map]
    refine h.increasing.imp_of_mem ?_
    intro p q hp hq hpq
    have h2 := h.inside q hq
    unfold Before at hpq ⊢
    omega
  · intro p hp
    obtain ⟨q, hq, rfl⟩ := mem_map.mp (mem_reverse.mp hp)
    have h1 := h.inside q hq
    simp only [mirror]
    rw [show m - 1 - (m - 1 - q.1) = q.1 by omega, show n - 1 - (n - 1 - q.2) = q.2 by omega]
    exact h.matching q hq
  · intro p hp
    obtain ⟨q, hq, rfl⟩ := mem_map.mp (mem_reverse.mp hp)
    have h1 := h.inside q hq
    omega

theorem lcs_le_mirror (M : ℕ → ℕ → Bool) (m n : ℕ) : lcs M m n ≤ lcs (mirror M m n) m n := by
  obtain ⟨c, hc, hlen⟩ := exists_chain M m n
  have := chain_le_lcs hc.reverse
  simp only [length_reverse, length_map] at this
  omega

theorem lcs_mirror (M : ℕ → ℕ → Bool) (m n : ℕ) : lcs (mirror M m n) m n = lcs M m n := by
  have h1 := lcs_le_mirror M m n
  have h2 := lcs_le_mirror (mirror M m n) m n
  have h3 : lcs (mirror (mirror M m n) m n) m n = lcs M m n := by
    apply lcs_congr
    intro i hi j hj
    simp only [mirror]
    rw [show m - 1 - (m - 1 - i) = i by omega, show n - 1 - (n - 1 - j) = j by omega]
  omega

end Chain
