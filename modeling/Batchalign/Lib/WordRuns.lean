import Mathlib.Tactic

/- Alignments along the paths of a graph whose edges carry words. A run skips a reference, passes an
   edge, or takes one whose word matches. Runs are the assignments of references to words in path order
   (`run_iff`). -/
namespace WordRuns
open List

variable {V W : Type}

/-- A path from `v` and the words it spells. -/
inductive Path (E : V → Option W → V → Prop) (v : V) : List W → V → Prop
  | here : Path E v [] v
  | step {u u' : V} {σ : List W} {w : Option W} :
      Path E v σ u → E u w u' → Path E v (σ ++ w.toList) u'

/-- A run between two nodes and reference positions, the words it passes, and the pairs it takes. -/
inductive Run (E : V → Option W → V → Prop) (M : W → ℕ → Bool) (v : V) (k : ℕ) :
    V → ℕ → List W → List (W × ℕ) → Prop
  | here : Run E M v k v k [] []
  | skip {u : V} {j : ℕ} {σ : List W} {a : List (W × ℕ)} :
      Run E M v k u j σ a → Run E M v k u (j + 1) σ a
  | pass {u u' : V} {j : ℕ} {σ : List W} {a : List (W × ℕ)} {w : Option W} :
      Run E M v k u j σ a → E u w u' → Run E M v k u' j (σ ++ w.toList) a
  | take {u u' : V} {j : ℕ} {σ : List W} {a : List (W × ℕ)} {w : W} :
      Run E M v k u j σ a → E u (some w) u' → M w j = true →
        Run E M v k u' (j + 1) (σ ++ [w]) (a ++ [(w, j)])

/-- Words take references in order, each matching, all inside `[k, j)`. -/
structure Assigned (M : W → ℕ → Bool) (k j : ℕ) (σ : List W) (a : List (W × ℕ)) : Prop where
  order : (a.map Prod.fst).Sublist σ
  increasing : a.Pairwise fun p q => p.2 < q.2
  matching : ∀ p ∈ a, M p.1 p.2 = true
  inside : ∀ p ∈ a, k ≤ p.2 ∧ p.2 < j

variable {w : W}

section Runs
variable {E : V → Option W → V → Prop} {M : W → ℕ → Bool} {v u u' x : V} {k j l : ℕ}
  {σ τ : List W} {a b : List (W × ℕ)}

theorem Path.trans (h : Path E v σ u) (h' : Path E u τ x) : Path E v (σ ++ τ) x := by
  induction h' with
  | here => simpa using h
  | step _ he ih =>
    rw [← append_assoc]
    exact .step ih he

theorem Path.cons {w : Option W} (he : E v w u) (h : Path E u σ x) : Path E v (w.toList ++ σ) x := by
  have hstep : Path E v ([] ++ w.toList) u := .step .here he
  exact hstep.trans h

theorem Run.trans (h : Run E M v k u j σ a) (h' : Run E M u j x l τ b) :
    Run E M v k x l (σ ++ τ) (a ++ b) := by
  induction h' with
  | here => simpa using h
  | skip _ ih => exact .skip ih
  | pass _ he ih =>
    rw [← append_assoc]
    exact .pass ih he
  | take _ he hM ih =>
    rw [← append_assoc, ← append_assoc]
    exact .take ih he hM

theorem Run.skip_front (h : Run E M v (k + 1) u j σ a) : Run E M v k u j σ a := by
  have hfront : Run E M v k v (k + 1) [] [] := .skip .here
  exact hfront.trans h

theorem Run.pass_front {w : Option W} (he : E v w u) (h : Run E M u k x j σ a) :
    Run E M v k x j (w.toList ++ σ) a := by
  have hfront : Run E M v k u k ([] ++ w.toList) [] := .pass .here he
  exact hfront.trans h

theorem Run.take_front (he : E v (some w) u) (hM : M w k = true)
    (h : Run E M u (k + 1) x j σ a) : Run E M v k x j (w :: σ) ((w, k) :: a) := by
  have hfront : Run E M v k u (k + 1) ([] ++ [w]) ([] ++ [(w, k)]) := .take .here he hM
  exact hfront.trans h

section
variable (h : Run E M v k u j σ a)
include h

theorem Run.le : k ≤ j := by
  induction h with
  | here => exact le_refl _
  | skip _ ih => omega
  | pass _ _ ih => exact ih
  | take _ _ _ ih => omega

theorem Run.skip_to (hle : j ≤ l) : Run E M v k u l σ a := by
  induction l, hle using Nat.le_induction with
  | base => exact h
  | succ l _ ih => exact .skip ih

theorem Run.path : Path E v σ u := by
  induction h with
  | here => exact .here
  | skip _ ih => exact ih
  | pass _ he ih => exact .step ih he
  | take _ he _ ih => exact .step ih he

theorem Run.assigned : Assigned M k j σ a := by
  induction h with
  | here => exact ⟨by simp, by simp, by simp, by simp⟩
  | skip _ ih =>
    refine ⟨ih.order, ih.increasing, ih.matching, ?_⟩
    intro p hp
    have := ih.inside p hp
    omega
  | pass _ _ ih =>
    exact ⟨ih.order.trans (sublist_append_left _ _), ih.increasing, ih.matching, ih.inside⟩
  | @take _ _ j σ a w hrun _ hM ih =>
    refine ⟨?_, ?_, ?_, ?_⟩
    · rw [map_append]
      exact ih.order.append (by simp)
    · rw [pairwise_append]
      refine ⟨ih.increasing, by simp, ?_⟩
      intro p hp q hq
      rw [mem_singleton.mp hq]
      exact (ih.inside p hp).2
    · intro p hp
      rcases mem_append.mp hp with hp | hp
      · exact ih.matching p hp
      · rw [mem_singleton.mp hp]
        exact hM
    · intro p hp
      rcases mem_append.mp hp with hp | hp
      · have := ih.inside p hp
        omega
      · rw [mem_singleton.mp hp]
        have := hrun.le
        omega

end

theorem sublist_concat_cases {a : List (W × ℕ)} (h : (a.map Prod.fst).Sublist (σ ++ [w])) :
    (a.map Prod.fst).Sublist σ ∨ ∃ a' r, a = a' ++ [(w, r)] ∧ (a'.map Prod.fst).Sublist σ := by
  rcases eq_nil_or_concat a with rfl | ⟨a', p, rfl⟩
  · exact .inl (by simp)
  · rw [concat_eq_append] at h ⊢
    rw [map_append, map_singleton] at h
    have hrev := reverse_sublist.mpr h
    rw [reverse_append, reverse_append] at hrev
    cases hrev with
    | cons _ hrest =>
      left
      rw [map_append, map_singleton, ← reverse_sublist, reverse_append]
      exact hrest
    | cons_cons _ hrest =>
      right
      exact ⟨a', p.2, rfl, reverse_sublist.mp hrest⟩

theorem Path.run (h : Path E v σ u) : ∀ {j : ℕ} {a : List (W × ℕ)}, Assigned M k j σ a → k ≤ j →
    Run E M v k u j σ a := by
  induction h with
  | here =>
    intro j a ha hle
    obtain rfl : a = [] := by simpa using ha.order
    exact Run.skip_to .here hle
  | @step u u' σ w _ he ih =>
    intro j a ha hle
    cases w with
    | none =>
      have ha' : Assigned M k j σ a := ⟨by simpa using ha.order, ha.increasing, ha.matching, ha.inside⟩
      exact .pass (ih ha' hle) he
    | some w =>
      rcases sublist_concat_cases ha.order with hsub | ⟨a', r, rfl, hsub⟩
      · exact .pass (ih ⟨hsub, ha.increasing, ha.matching, ha.inside⟩ hle) he
      · obtain ⟨hinc, _, hlast⟩ := pairwise_append.mp ha.increasing
        have hr := ha.inside (w, r) (by simp)
        have hM := ha.matching (w, r) (by simp)
        have ha' : Assigned M k r σ a' := by
          refine ⟨hsub, hinc, fun p hp => ha.matching p (by simp [hp]), ?_⟩
          intro p hp
          exact ⟨(ha.inside p (by simp [hp])).1, hlast p hp (w, r) (by simp)⟩
        exact Run.skip_to (.take (ih ha' hr.1) he hM) hr.2

theorem Assigned.length_le (h : Assigned M k j σ a) : a.length + k ≤ j ∨ a = [] := by
  induction a using reverseRecOn generalizing j with
  | nil => exact .inr rfl
  | append_singleton a p ih =>
    obtain ⟨hinc, _, hlast⟩ := pairwise_append.mp h.increasing
    have hp := h.inside p (by simp)
    have hrest : Assigned M k p.2 σ a := by
      refine ⟨?_, hinc, fun q hq => h.matching q (by simp [hq]), ?_⟩
      · have hsub := h.order
        rw [map_append] at hsub
        exact (sublist_append_left _ _).trans hsub
      · intro q hq
        exact ⟨(h.inside q (by simp [hq])).1, hlast q hq p (by simp)⟩
    rw [length_append, length_singleton]
    rcases ih hrest with h' | rfl
    · omega
    · simp only [length_nil]
      omega

theorem Run.length_add_le (h : Run E M v k u j σ a) : a.length + k ≤ j := by
  rcases h.assigned.length_le with h' | rfl
  · exact h'
  · simpa using h.le

theorem Run.length_le_words (h : Run E M v k u j σ a) : a.length ≤ σ.length := by
  have := h.assigned.order.length_le
  rwa [length_map] at this

theorem Run.split_taken {r : ℕ} (h : Run E M v k u j σ (a ++ (w, r) :: b)) :
    ∃ y y' σ₁ σ₂, Run E M v k y r σ₁ a ∧ E y (some w) y' ∧ M w r = true ∧
      Run E M y' (r + 1) u j σ₂ b := by
  generalize hc : a ++ (w, r) :: b = c at h
  induction h generalizing b with
  | here => simp at hc
  | skip _ ih =>
    obtain ⟨y, y', σ₁, σ₂, h1, he, hM, h2⟩ := ih hc
    exact ⟨y, y', σ₁, σ₂, h1, he, hM, .skip h2⟩
  | pass _ he' ih =>
    obtain ⟨y, y', σ₁, σ₂, h1, he, hM, h2⟩ := ih hc
    exact ⟨y, y', σ₁, _, h1, he, hM, .pass h2 he'⟩
  | @take y y' j σ c' w' hrun he' hM' ih =>
    rcases eq_nil_or_concat b with rfl | ⟨b', p, rfl⟩
    · obtain ⟨rfl, hp⟩ := append_inj' hc rfl
      cases (cons.inj hp).1
      exact ⟨y, y', σ, [], hrun, he', hM', .here⟩
    · rw [concat_eq_append, ← cons_append, ← append_assoc] at hc
      obtain ⟨rfl, hp⟩ := append_inj' hc rfl
      obtain ⟨z, z', σ₁, σ₂, h1, he, hM, h2⟩ := ih rfl
      refine ⟨z, z', σ₁, σ₂ ++ [w'], h1, he, hM, ?_⟩
      rw [concat_eq_append, hp]
      exact .take h2 he' hM'

theorem Run.split_passed (h : Run E M v k u j σ a) (hw : w ∈ σ) (hnot : ∀ r, (w, r) ∉ a) :
    ∃ y y' r σ₁ σ₂ a₁ a₂, Run E M v k y r σ₁ a₁ ∧ E y (some w) y' ∧ Run E M y' r u j σ₂ a₂ ∧
      a = a₁ ++ a₂ := by
  induction h with
  | here => simp at hw
  | skip _ ih =>
    obtain ⟨y, y', r, σ₁, σ₂, a₁, a₂, h1, he, h2, rfl⟩ := ih hw hnot
    exact ⟨y, y', r, σ₁, σ₂, a₁, a₂, h1, he, .skip h2, rfl⟩
  | @pass y y' j σ a w' hrun he' ih =>
    rcases mem_append.mp hw with hw | hw
    · obtain ⟨z, z', r, σ₁, σ₂, a₁, a₂, h1, he, h2, rfl⟩ := ih hw hnot
      exact ⟨z, z', r, σ₁, _, a₁, a₂, h1, he, .pass h2 he', rfl⟩
    · obtain rfl : w' = some w := by
        cases w' with
        | none => simp at hw
        | some w' => rw [show w = w' by simpa using hw]
      exact ⟨y, y', j, σ, [], a, [], hrun, he', .here, by simp⟩
  | @take y y' j σ a w' hrun he' hM' ih =>
    rcases mem_append.mp hw with hw | hw
    · obtain ⟨z, z', r, σ₁, σ₂, a₁, a₂, h1, he, h2, rfl⟩ := ih hw (fun r hr => hnot r (by simp [hr]))
      exact ⟨z, z', r, σ₁, _, a₁, _, h1, he, .take h2 he' hM', by simp⟩
    · rw [mem_singleton] at hw
      subst hw
      exact absurd (mem_append_right _ (by simp)) (hnot j)

end Runs

/-! ## Longest runs -/

section Longest
variable {E : V → Option W → V → Prop} {M : W → ℕ → Bool} {s e : V} {n : ℕ}

structure Longest (E : V → Option W → V → Prop) (M : W → ℕ → Bool) (s e : V) (n : ℕ) (σ : List W)
    (a : List (W × ℕ)) : Prop where
  run : Run E M s 0 e n σ a
  most : ∀ τ b, Run E M s 0 e n τ b → b.length ≤ a.length

structure IsOptimum (E : V → Option W → V → Prop) (M : W → ℕ → Bool) (s e : V) (n opt : ℕ) : Prop where
  attained : ∃ σ a, Run E M s 0 e n σ a ∧ a.length = opt
  upper : ∀ σ a, Run E M s 0 e n σ a → a.length ≤ opt

theorem IsOptimum.longest_iff {opt : ℕ} (h : IsOptimum E M s e n opt) {σ : List W} {a : List (W × ℕ)} :
    Longest E M s e n σ a ↔ Run E M s 0 e n σ a ∧ a.length = opt := by
  refine ⟨?_, ?_⟩
  · intro hl
    obtain ⟨τ, b, hb, hlen⟩ := h.attained
    have h1 := hl.most τ b hb
    have h2 := h.upper σ a hl.run
    exact ⟨hl.run, by omega⟩
  · intro hr
    refine ⟨hr.1, ?_⟩
    intro τ b hb
    rw [hr.2]
    exact h.upper τ b hb

theorem exists_isOptimum {σ : List W} (h : Path E s σ e) : ∃ opt, IsOptimum E M s e n opt := by
  classical
  have hbound : ∀ τ b, Run E M s 0 e n τ b → b.length ≤ n := by
    intro τ b hb
    have := hb.length_add_le
    omega
  have hsome : ∃ t, ∃ τ b, Run E M s 0 e n τ b ∧ b.length = t :=
    ⟨0, σ, [], h.run ⟨by simp, by simp, by simp, by simp⟩ (Nat.zero_le n), rfl⟩
  obtain ⟨t, ht⟩ := hsome
  have hmax := Nat.findGreatest_spec (P := fun t => ∃ τ b, Run E M s 0 e n τ b ∧ b.length = t)
    (show t ≤ n by obtain ⟨τ, b, hb, rfl⟩ := ht; exact hbound τ b hb) ht
  refine ⟨_, hmax, ?_⟩
  intro τ b hb
  exact Nat.le_findGreatest (hbound τ b hb) ⟨τ, b, hb, rfl⟩

end Longest

/-! ## Scores -/

section Scores
variable {E : V → Option W → V → Prop} {M : W → ℕ → Bool} {s e : V} {n feasible opt : ℕ}
  {f b : V → ℕ → Option ℕ}

/-- Scores by the runs that reach a state: each is attained, none that can be completed to `feasible` is
  missed. -/
structure Scores (E : V → Option W → V → Prop) (M : W → ℕ → Bool) (s e : V) (n feasible : ℕ)
    (f : V → ℕ → Option ℕ) : Prop where
  attained : ∀ v k t, f v k = some t → ∃ σ a, Run E M s 0 v k σ a ∧ a.length = t
  covers : ∀ v k σ a τ c, Run E M s 0 v k σ a → Run E M v k e n τ c →
    feasible ≤ a.length + c.length → ∃ t, f v k = some t ∧ a.length ≤ t

structure Suffixes (E : V → Option W → V → Prop) (M : W → ℕ → Bool) (s e : V) (n feasible : ℕ)
    (b : V → ℕ → Option ℕ) : Prop where
  attained : ∀ v k t, b v k = some t → ∃ τ c, Run E M v k e n τ c ∧ c.length = t
  covers : ∀ v k σ a τ c, Run E M s 0 v k σ a → Run E M v k e n τ c →
    feasible ≤ a.length + c.length → ∃ t, b v k = some t ∧ c.length ≤ t

theorem Scores.optimum (hf : Scores E M s e n feasible f) (hopt : IsOptimum E M s e n opt)
    (hle : feasible ≤ opt) : f e n = some opt := by
  obtain ⟨σ, a, ha, rfl⟩ := hopt.attained
  obtain ⟨t, ht, hat⟩ := hf.covers e n σ a [] [] ha .here (by simpa using hle)
  obtain ⟨τ, c, hc, rfl⟩ := hf.attained e n t ht
  have := hopt.upper τ c hc
  rw [ht, show c.length = a.length by omega]

variable (hf : Scores E M s e n feasible f) (hb : Suffixes E M s e n feasible b)
  (hopt : IsOptimum E M s e n opt) (hle : feasible ≤ opt)
include hf hb hopt hle

theorem taken_iff {r : ℕ} : (∃ σ a, Longest E M s e n σ a ∧ (w, r) ∈ a) ↔
      ∃ u u' t t', E u (some w) u' ∧ M w r = true ∧ f u r = some t ∧ b u' (r + 1) = some t' ∧
        t + 1 + t' = opt := by
  refine ⟨?_, ?_⟩
  · intro h
    obtain ⟨σ, a, hl, hmem⟩ := h
    obtain ⟨hrun, hlen⟩ := hopt.longest_iff.mp hl
    obtain ⟨a₁, a₂, rfl⟩ := append_of_mem hmem
    obtain ⟨u, u', σ₁, σ₂, h1, he, hM, h2⟩ := hrun.split_taken
    rw [length_append, length_cons] at hlen
    -- the prefix is completed through the edge, the suffix reached through it
    obtain ⟨t, ht, hat⟩ := hf.covers u r σ₁ a₁ _ _ h1 (h2.take_front he hM)
      (by rw [length_cons]; omega)
    obtain ⟨t', ht', hat'⟩ := hb.covers u' (r + 1) _ _ σ₂ a₂ (h1.take he hM) h2
      (by rw [length_append, length_singleton]; omega)
    refine ⟨u, u', t, t', he, hM, ht, ht', ?_⟩
    obtain ⟨τ, c, hc, rfl⟩ := hf.attained u r t ht
    obtain ⟨τ', c', hc', rfl⟩ := hb.attained u' (r + 1) t' ht'
    have hupper := hopt.upper _ _ (hc.trans (hc'.take_front he hM))
    rw [length_append, length_cons] at hupper
    omega
  · intro h
    obtain ⟨u, u', t, t', he, hM, ht, ht', hsum⟩ := h
    obtain ⟨σ, a, ha, rfl⟩ := hf.attained u r t ht
    obtain ⟨τ, c, hc, rfl⟩ := hb.attained u' (r + 1) t' ht'
    refine ⟨_, _, hopt.longest_iff.mpr ⟨ha.trans (hc.take_front he hM), ?_⟩, by simp⟩
    rw [length_append, length_cons]
    omega

theorem omitted_iff (honce : ∀ σ, Path E s σ e → σ.Nodup ∧ w ∈ σ) :
    (∃ σ a, Longest E M s e n σ a ∧ ∀ r, (w, r) ∉ a) ↔
      ∃ u u' r t t', E u (some w) u' ∧ r ≤ n ∧ f u r = some t ∧ b u' r = some t' ∧ t + t' = opt := by
  refine ⟨?_, ?_⟩
  · intro h
    obtain ⟨σ, a, hl, hnot⟩ := h
    obtain ⟨hrun, hlen⟩ := hopt.longest_iff.mp hl
    obtain ⟨u, u', r, σ₁, σ₂, a₁, a₂, h1, he, h2, rfl⟩ := hrun.split_passed (honce σ hrun.path).2 hnot
    rw [length_append] at hlen
    obtain ⟨t, ht, hat⟩ := hf.covers u r σ₁ a₁ _ _ h1 (h2.pass_front he) (by omega)
    obtain ⟨t', ht', hat'⟩ := hb.covers u' r _ _ σ₂ a₂ (h1.pass he) h2 (by omega)
    refine ⟨u, u', r, t, t', he, h2.le, ht, ht', ?_⟩
    obtain ⟨τ, c, hc, rfl⟩ := hf.attained u r t ht
    obtain ⟨τ', c', hc', rfl⟩ := hb.attained u' r t' ht'
    have hupper := hopt.upper _ _ (hc.trans (hc'.pass_front he))
    rw [length_append] at hupper
    omega
  · intro h
    obtain ⟨u, u', r, t, t', he, _, ht, ht', hsum⟩ := h
    obtain ⟨σ, a, ha, rfl⟩ := hf.attained u r t ht
    obtain ⟨τ, c, hc, rfl⟩ := hb.attained u' r t' ht'
    have hall := ha.trans (hc.pass_front he)
    refine ⟨_, _, hopt.longest_iff.mpr ⟨hall, by rw [length_append]; omega⟩, ?_⟩
    -- the word stands at this edge and nowhere else on the path
    intro r' hr'
    obtain ⟨hnodup, _⟩ := honce _ hall.path
    obtain ⟨_, hrest, hdisj⟩ := nodup_append.mp hnodup
    rcases mem_append.mp hr' with hr' | hr'
    · have hmem := ha.assigned.order.subset (mem_map_of_mem hr')
      exact hdisj w hmem w (by simp) rfl
    · have hmem := hc.assigned.order.subset (mem_map_of_mem hr')
      exact (nodup_cons.mp hrest).1 hmem

end Scores

/-! ## Runs read backwards -/

def flip (E : V → Option W → V → Prop) : V → Option W → V → Prop := fun u w v => E v w u

def mirror (M : W → ℕ → Bool) (n : ℕ) : W → ℕ → Bool := fun w k => M w (n - 1 - k)

section Mirror
variable {E : V → Option W → V → Prop} {M : W → ℕ → Bool} {v u : V} {n k j feasible : ℕ}
  {σ : List W} {a : List (W × ℕ)}

theorem Run.mirror (h : Run E M v k u j σ a) (hj : j ≤ n) :
    ∃ b, Run (flip E) (mirror M n) u (n - j) v (n - k) σ.reverse b ∧ b.length = a.length := by
  induction h with
  | here => exact ⟨[], .here, rfl⟩
  | @skip u j σ a _ ih =>
    obtain ⟨b, hb, hlen⟩ := ih (by omega)
    refine ⟨b, ?_, hlen⟩
    rw [show n - j = n - (j + 1) + 1 by omega] at hb
    exact hb.skip_front
  | @pass u u' j σ a w _ he ih =>
    obtain ⟨b, hb, hlen⟩ := ih hj
    refine ⟨b, ?_, hlen⟩
    rw [reverse_append, show w.toList.reverse = w.toList by cases w <;> rfl]
    exact hb.pass_front (show flip E u' w u from he)
  | @take u u' j σ a w _ he hM ih =>
    obtain ⟨b, hb, hlen⟩ := ih (by omega)
    refine ⟨(w, n - (j + 1)) :: b, ?_, by simp [hlen]⟩
    rw [reverse_append, reverse_singleton, singleton_append]
    rw [show n - j = n - (j + 1) + 1 by omega] at hb
    apply hb.take_front (show flip E u' (some w) u from he)
    rw [WordRuns.mirror, show n - 1 - (n - (j + 1)) = j by omega]
    exact hM

theorem Run.unmirror (h : Run (flip E) (WordRuns.mirror M n) u k v j σ a) (hj : j ≤ n) :
    ∃ b, Run E M v (n - j) u (n - k) σ.reverse b ∧ b.length = a.length := by
  obtain ⟨b, hb, hlen⟩ := h.mirror hj
  refine ⟨b, ?_, hlen⟩
  have hagree : ∀ {x y : V} {l l' : ℕ} {τ : List W} {c : List (W × ℕ)},
      Run (flip (flip E)) (WordRuns.mirror (WordRuns.mirror M n) n) x l y l' τ c → l' ≤ n →
      Run E M x l y l' τ c := by
    intro x y l l' τ c hc
    induction hc with
    | here => intro _; exact .here
    | skip _ ih => intro hle; exact .skip (ih (by omega))
    | pass _ he ih => intro hle; exact .pass (ih hle) he
    | @take _ _ i _ _ w _ he hM ih =>
      intro hle
      apply Run.take (ih (by omega)) he
      rw [WordRuns.mirror, WordRuns.mirror, show n - 1 - (n - 1 - i) = i by omega] at hM
      exact hM
  exact hagree hb (by omega)

theorem Suffixes.of_mirror {s e : V} {b : V → ℕ → Option ℕ} (hin : ∀ v k t, b v k = some t → k ≤ n)
    (h : Scores (flip E) (WordRuns.mirror M n) e s n feasible (fun v k => b v (n - k))) :
    Suffixes E M s e n feasible b := by
  refine ⟨?_, ?_⟩
  · intro v k t ht
    have hk := hin v k t ht
    obtain ⟨σ, a, ha, rfl⟩ := h.attained v (n - k) t (by rwa [Nat.sub_sub_self hk])
    obtain ⟨c, hc, hlen⟩ := ha.unmirror (by omega)
    rw [Nat.sub_sub_self hk, Nat.sub_zero] at hc
    exact ⟨_, c, hc, hlen⟩
  · intro v k σ a τ c ha hc hle
    have hk := hc.le
    obtain ⟨a', ha', hlen⟩ := ha.mirror hk
    obtain ⟨c', hc', hlen'⟩ := hc.mirror (le_refl n)
    rw [Nat.sub_self] at hc'
    obtain ⟨t, ht, hle'⟩ := h.covers v (n - k) _ _ _ _ hc' ha' (by omega)
    rw [Nat.sub_sub_self hk] at ht
    exact ⟨t, ht, by omega⟩

end Mirror

/-! ## Rows of scores -/

structure Recurrence (E : V → Option W → V → Prop) (M : W → ℕ → Bool) (s : V) (n : ℕ)
    (inBand : V → ℕ → Prop) (f : V → ℕ → Option ℕ) : Prop where
  start : ∀ v t, f v 0 = some t → t = 0 ∧ ∃ σ, Path E s σ v
  from_start : ∀ v, inBand v 0 → f v 0 = some 0
  step : ∀ v k t, f v (k + 1) = some t → f v k = some t ∨ (∃ u w, E u w v ∧ f u (k + 1) = some t) ∨
    ∃ u w t', E u (some w) v ∧ M w k = true ∧ f u k = some t' ∧ t = t' + 1
  keep : ∀ v k t, k < n → inBand v (k + 1) → f v k = some t → ∃ t', f v (k + 1) = some t' ∧ t ≤ t'
  pass : ∀ u w v k t, k < n → inBand v (k + 1) → E u w v → f u (k + 1) = some t →
    ∃ t', f v (k + 1) = some t' ∧ t ≤ t'
  take : ∀ u w v k t, k < n → inBand v (k + 1) → E u (some w) v → M w k = true → f u k = some t →
    ∃ t', f v (k + 1) = some t' ∧ t + 1 ≤ t'

section Recurrence
variable {E : V → Option W → V → Prop} {M : W → ℕ → Bool} {s e : V} {n feasible : ℕ}
  {inBand : V → ℕ → Prop} {f : V → ℕ → Option ℕ}

theorem Recurrence.attained (h : Recurrence E M s n inBand f) (rank : V → ℕ)
    (hrank : ∀ u w v, E u w v → rank u < rank v) : ∀ (k : ℕ) (v : V) (t : ℕ), f v k = some t →
      ∃ σ a, Run E M s 0 v k σ a ∧ a.length = t := by
  intro k
  induction k with
  | zero =>
    intro v t ht
    obtain ⟨rfl, σ, hσ⟩ := h.start v t ht
    exact ⟨σ, [], hσ.run ⟨by simp, by simp, by simp, by simp⟩ (le_refl 0), rfl⟩
  | succ k ih =>
    -- inside a row the score may come along an edge, from a node of lower rank
    intro v
    induction hr : rank v using Nat.strong_induction_on generalizing v with
    | _ r ihr =>
      intro t ht
      rcases h.step v k t ht with hkeep | ⟨u, w, he, hu⟩ | ⟨u, w, t', he, hM, hu, rfl⟩
      · obtain ⟨σ, a, ha, hlen⟩ := ih v t hkeep
        exact ⟨σ, a, .skip ha, hlen⟩
      · obtain ⟨σ, a, ha, hlen⟩ := ihr (rank u) (by rw [← hr]; exact hrank u w v he) u rfl t hu
        exact ⟨_, a, .pass ha he, hlen⟩
      · obtain ⟨σ, a, ha, hlen⟩ := ih u t' hu
        exact ⟨_, _, .take ha he hM, by simp [hlen]⟩

theorem Recurrence.scores (h : Recurrence E M s n inBand f) (rank : V → ℕ)
    (hrank : ∀ u w v, E u w v → rank u < rank v)
    (hband : ∀ v k σ a τ c, Run E M s 0 v k σ a → Run E M v k e n τ c →
      feasible ≤ a.length + c.length → inBand v k) : Scores E M s e n feasible f := by
  refine ⟨fun v k t ht => h.attained rank hrank k v t ht, ?_⟩
  -- every prefix of a good run is a prefix of a good run, so the band holds it too
  intro v k σ a τ c ha
  induction ha generalizing τ c with
  | here =>
    intro hc hle
    exact ⟨0, h.from_start s (hband s 0 _ _ _ _ .here hc hle), by simp⟩
  | @skip u j σ a ha ih =>
    intro hc hle
    obtain ⟨t, ht, hat⟩ := ih τ c hc.skip_front hle
    obtain ⟨t', ht', htt'⟩ := h.keep u j t (by have := hc.le; omega)
      (hband u (j + 1) _ _ _ _ (.skip ha) hc hle) ht
    exact ⟨t', ht', by omega⟩
  | @pass u u' j σ a w ha he ih =>
    intro hc hle
    obtain ⟨t, ht, hat⟩ := ih _ c (hc.pass_front he) hle
    have hin := hband u' j _ _ _ _ (.pass ha he) hc hle
    cases j with
    | zero => exact ⟨0, h.from_start u' hin, by have := ha.length_add_le; omega⟩
    | succ j =>
      obtain ⟨t', ht', htt'⟩ := h.pass u w u' j t (by have := hc.le; omega) hin he ht
      exact ⟨t', ht', by omega⟩
  | @take u u' j σ a w ha he hM ih =>
    intro hc hle
    rw [length_append, length_singleton] at hle ⊢
    obtain ⟨t, ht, hat⟩ := ih _ _ (hc.take_front he hM) (by rw [length_cons]; omega)
    obtain ⟨t', ht', htt'⟩ := h.take u w u' j t (by have := hc.le; omega)
      (hband u' (j + 1) _ _ _ _ (.take ha he hM) hc
        (by rw [length_append, length_singleton]; omega)) he hM ht
    exact ⟨t', ht', by omega⟩

end Recurrence

end WordRuns
