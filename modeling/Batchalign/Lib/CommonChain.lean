import Batchalign.Lib.Chain

/- The pairs every longest chain contains. -/
namespace Chain
open List

variable {M : ℕ → ℕ → Bool} {m n i j : ℕ} {p q : ℕ × ℕ} {l d : List (ℕ × ℕ)}

/-- How many pairs a chain can have after the pair `(i, j)`. -/
def after (M : ℕ → ℕ → Bool) (m n i j : ℕ) : ℕ :=
  lcs (shift M (i + 1) (j + 1)) (m - (i + 1)) (n - (j + 1))

structure OnOptimal (M : ℕ → ℕ → Bool) (m n : ℕ) (p : ℕ × ℕ) : Prop where
  matching : M p.1 p.2 = true
  inside : p.1 < m ∧ p.2 < n
  through : lcs M p.1 p.2 + 1 + after M m n p.1 p.2 = lcs M m n

def Common (M : ℕ → ℕ → Bool) (m n : ℕ) (p : ℕ × ℕ) : Prop := ∀ l, IsOptimal M m n l → p ∈ l

theorem IsChain.swap (h : IsChain M m n l) : IsChain (fun i j => M j i) n m (l.map Prod.swap) := by
  refine ⟨?_, ?_, ?_⟩
  · rw [pairwise_map]
    exact h.increasing.imp And.symm
  · intro p hp
    obtain ⟨q, hq, rfl⟩ := mem_map.mp hp
    exact h.matching q hq
  · intro p hp
    obtain ⟨q, hq, rfl⟩ := mem_map.mp hp
    exact (h.inside q hq).symm

theorem Common.swap (h : Common M m n p) : Common (fun i j => M j i) n m p.swap := by
  intro l hl
  obtain ⟨hchain, hlongest⟩ := isOptimal_iff.mp hl
  have hswapped : IsOptimal M m n (l.map Prod.swap) := by
    refine isOptimal_iff.mpr ⟨hchain.swap, ?_⟩
    intro d hd
    simpa using hlongest _ hd.swap
  obtain ⟨q, hq, rfl⟩ := mem_map.mp (h _ hswapped)
  rwa [q.swap_swap]

theorem IsOptimal.rank_at (h : IsOptimal M m n l) {k : ℕ} (hk : l[k]? = some p) :
    lcs M p.1 p.2 = k ∧ OnOptimal M m n p := by
  obtain ⟨hchain, hlen⟩ := h
  obtain ⟨hlt, hget⟩ := List.getElem?_eq_some_iff.mp hk
  have hsplit : l = l.take k ++ p :: l.drop (k + 1) := by
    rw [← hget, ← drop_eq_getElem_cons hlt, take_append_drop]
  rw [hsplit] at hchain
  obtain ⟨hbefore, hM, hm, hn, hafter⟩ := hchain.cut
  have hrest : IsChain M m n (l.drop (k + 1)) := hchain.sublist (by simp)
  have h1 := chain_le_lcs hbefore
  have h2 := chain_le_lcs (hrest.map_sub hafter)
  have h3 := lcs_through_le hM hm hn
  have hdrop : (l.drop (k + 1)).length = l.length - (k + 1) := length_drop
  have htake : (l.take k).length = k := by
    rw [length_take]
    omega
  rw [length_map] at h2
  refine ⟨by omega, hM, ⟨hm, hn⟩, ?_⟩
  unfold after
  omega

theorem OnOptimal.exists_chain (h : OnOptimal M m n p) :
    ∃ l, IsOptimal M m n l ∧ l[lcs M p.1 p.2]? = some p := by
  obtain ⟨hM, ⟨hm, hn⟩, hthrough⟩ := h
  obtain ⟨l, hc, hclen⟩ := Chain.exists_chain M p.1 p.2
  obtain ⟨d, hd, hdlen⟩ := Chain.exists_chain (shift M (p.1 + 1) (p.2 + 1)) (m - (p.1 + 1)) (n - (p.2 + 1))
  have hall := (hc.concat hM).append hd
  rw [show p.1 + 1 + (m - (p.1 + 1)) = m by omega, show p.2 + 1 + (n - (p.2 + 1)) = n by omega] at hall
  refine ⟨_, ⟨hall, ?_⟩, ?_⟩
  · simp only [length_append, length_map, length_singleton]
    unfold after at hthrough
    omega
  · rw [append_assoc, getElem?_append_right (by omega), hclen]
    simp

/-- A pair lies on every longest chain exactly if alone of its rank on any. -/
theorem common_iff : Common M m n p ↔
    OnOptimal M m n p ∧ ∀ q, OnOptimal M m n q → lcs M q.1 q.2 = lcs M p.1 p.2 → q = p := by
  refine ⟨?_, ?_⟩
  · intro h
    have hon : OnOptimal M m n p := by
      obtain ⟨l, hc⟩ := Chain.exists_chain M m n
      obtain ⟨k, hk⟩ := mem_iff_getElem?.mp (h l hc)
      exact (IsOptimal.rank_at hc hk).2
    refine ⟨hon, ?_⟩
    intro q hq hrank
    obtain ⟨d, hd, hdq⟩ := hq.exists_chain
    obtain ⟨k, hk⟩ := mem_iff_getElem?.mp (h d hd)
    -- both stand at their common rank in the chain through `q`
    rw [hrank, (hd.rank_at hk).1, hk, Option.some.injEq] at hdq
    exact hdq.symm
  · intro h l hc
    obtain ⟨hon, honly⟩ := h
    have hlt : lcs M p.1 p.2 < l.length := by
      have := hon.through
      rw [hc.2]
      omega
    obtain ⟨hrank, hq⟩ := hc.rank_at (getElem?_eq_getElem hlt)
    rw [← honly _ hq hrank]
    exact getElem_mem hlt

theorem Common.before (hp : Common M m n p) (hq : Common M m n q)
    (hrank : lcs M p.1 p.2 < lcs M q.1 q.2) : Before p q := by
  obtain ⟨l, hc, hcp⟩ := ((common_iff.mp hp).1).exists_chain
  obtain ⟨k, hk⟩ := mem_iff_getElem?.mp (hq l hc)
  rw [(hc.rank_at hk).1] at hrank
  obtain ⟨h1, hget1⟩ := List.getElem?_eq_some_iff.mp hcp
  obtain ⟨h2, hget2⟩ := List.getElem?_eq_some_iff.mp hk
  rw [← hget1, ← hget2]
  exact pairwise_iff_getElem.mp hc.1.increasing _ _ h1 h2 hrank

theorem Common.before_of_fst (hp : Common M m n p) (hq : Common M m n q) (hlt : p.1 < q.1) :
    Before p q := by
  rcases lt_trichotomy (lcs M p.1 p.2) (lcs M q.1 q.2) with h | h | h
  · exact hp.before hq h
  · have heq := (common_iff.mp hq).2 p (common_iff.mp hp).1 h
    subst heq
    omega
  · have := (hq.before hp h).1
    omega

theorem Common.eq_of_fst (hp : Common M m n p) (hq : Common M m n q) (heq : p.1 = q.1) : p = q := by
  rcases lt_trichotomy (lcs M p.1 p.2) (lcs M q.1 q.2) with h | h | h
  · have := (hp.before hq h).1
    omega
  · exact (common_iff.mp hq).2 p (common_iff.mp hp).1 h
  · have := (hq.before hp h).1
    omega

/-! ## Ranks over sets of pairs -/

theorem lcs_attained (h : 0 < lcs M i j) :
    ∃ p : ℕ × ℕ, p.1 < i ∧ p.2 < j ∧ M p.1 p.2 = true ∧ lcs M p.1 p.2 + 1 = lcs M i j := by
  obtain ⟨l, hc, hlen⟩ := Chain.exists_chain M i j
  have hlast : lcs M i j - 1 < l.length := by omega
  obtain ⟨hrank, hon⟩ := IsOptimal.rank_at ⟨hc, hlen⟩ (getElem?_eq_getElem hlast)
  exact ⟨l[lcs M i j - 1], hon.inside.1, hon.inside.2, hon.matching, by omega⟩

theorem lcs_rank_le (hM : M p.1 p.2 = true) (hi : p.1 < i) (hj : p.2 < j) :
    lcs M p.1 p.2 + 1 ≤ lcs M i j := by
  have := lcs_through_le hM hi hj
  omega

/-- What can lie after a pair is what can lie before it when all is read backwards. -/
theorem after_eq_mirror (hi : i < m) (hj : j < n) :
    after M m n i j = lcs (mirror M m n) (m - 1 - i) (n - 1 - j) := by
  rw [after, ← lcs_mirror, show m - (i + 1) = m - 1 - i by omega,
    show n - (j + 1) = n - 1 - j by omega]
  apply lcs_congr
  intro a ha b hb
  simp only [mirror, shift]
  rw [show i + 1 + (m - 1 - i - 1 - a) = m - 1 - a by omega,
    show j + 1 + (n - 1 - j - 1 - b) = n - 1 - b by omega]

end Chain
