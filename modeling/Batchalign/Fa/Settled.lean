import Batchalign.Fa.Neighbours
import Batchalign.Fa.Enforcement

/- When a run of enforcement changes nothing: starts in order, no revisable line starting after the next
   kept line (`Settled`), and no two neighbours that overlap. -/
namespace Batchalign.Fa
open List

/-- Line `k` is the nearest kept bulleted line after `i`. -/
structure NearestKept (authority : MainBulletAuthority) (ord : ℕ → ℕ) (file : ChatFile) (i k : ℕ)
    (c : TimeSpan) : Prop where
  after : i < k
  kept : authority.keptBullet (ord k) ≠ none
  bullet : bulletAt file k = some c
  nearest : ∀ j, i < j → j < k → authority.keptBullet (ord j) ≠ none → bulletAt file j = none

def Settled (authority : MainBulletAuthority) (ord : ℕ → ℕ) (file : ChatFile) : Prop :=
  ∀ i k b c, authority.keptBullet (ord i) = none → bulletAt file i = some b →
    NearestKept authority ord file i k c → b.startMs ≤ c.startMs

/-! ## Pass 1 -/

section Pass1
variable {W : ContentWalker} {authority : MainBulletAuthority} {ord : ℕ → ℕ} {U : ℕ → Prop}
  {file : ChatFile} {st st' : StartOrderState} {x : StartOrderSource} {rest : List StartOrderSource}

theorem kept?_eq_some {y : StartOrderSource} {k : StartOrderEntry} : y.kept? = some k ↔ y = .kept k := by
  cases y <;> simp [StartOrderSource.kept?]

section
variable (h : StartOrderInv authority ord file st (x :: rest))
include h

theorem StartOrderInv.ahead {k : ℕ} {c : TimeSpan}
    (hk : x.facts.lineIdx < k) (hc : bulletAt st.pass.file k = some c) :
    ∃ y ∈ rest, y.facts.lineIdx = k := by
  rcases h.covered k c hc with ⟨y, hy, hyk⟩ | hpassed
  · rcases mem_cons.mp hy with hyx | hy
    · subst hyx
      omega
    · exact ⟨y, hy, hyk⟩
  · have := hpassed.lt_head
    omega

theorem StartOrderInv.entry_live {y : StartOrderSource} (hy : y ∈ rest) :
    ∃ b, bulletAt st.pass.file y.facts.lineIdx = some b ∧ y.facts.startMs = b.startMs ∧
      (authority.keptBullet (ord y.facts.lineIdx) ≠ none ↔ ∃ k, y = .kept k) := by
  obtain ⟨u, b, hu, hb, hsrc⟩ := h.live y (mem_cons_of_mem x hy)
  have hfacts : y.facts = startOrderEntry y.facts.lineIdx (ord y.facts.lineIdx) u b := by
    rw [← sourceOf_facts authority, ← hsrc]
  refine ⟨b, by rw [bulletAt_eq hu, hb], by rw [hfacts]; rfl, ?_⟩
  rw [hsrc, sourceOf_facts]
  change authority.keptBullet (ord y.facts.lineIdx) ≠ none ↔ _
  unfold sourceOf startOrderSource
  cases hst : authority.standing (ord y.facts.lineIdx) with
  | readOnly kept =>
    rw [MainBulletAuthority.standing_readOnly hst]
    simp
  | revisable =>
    rw [MainBulletAuthority.standing_revisable hst]
    simp

theorem StartOrderInv.nearestKept
    {k : StartOrderEntry} (hk : rest.findSome? StartOrderSource.kept? = some k) :
    ∃ c, NearestKept authority ord st.pass.file x.facts.lineIdx k.lineIdx c ∧ c.startMs = k.startMs := by
  obtain ⟨l₁, y, l₂, hsplit, hy, hl₁⟩ := findSome?_eq_some_iff.mp hk
  obtain rfl := kept?_eq_some.mp hy
  have hmem : StartOrderSource.kept k ∈ rest := by
    rw [hsplit]
    simp
  obtain ⟨c, hc, hstart, hkept⟩ := h.entry_live hmem
  refine ⟨c, ⟨h.passed_head _ hmem, hkept.mpr ⟨k, rfl⟩, hc, ?_⟩, hstart.symm⟩
  intro j hij hjk hkj
  by_contra hne
  obtain ⟨d, hd⟩ := Option.ne_none_iff_exists'.mp hne
  obtain ⟨z, hz, hzj⟩ := h.ahead hij hd
  obtain ⟨_, _, _, hzkept⟩ := h.entry_live hz
  rw [hzj] at hzkept
  obtain ⟨k', rfl⟩ := hzkept.mp hkj
  -- a kept entry ahead of the first one cannot come before it in the list
  have hsorted := (pairwise_cons.mp h.sorted).2
  rw [hsplit] at hz hsorted
  rcases mem_append.mp hz with hz | hz
  · exact absurd (hl₁ _ hz) (by simp [StartOrderSource.kept?])
  · rcases mem_cons.mp hz with heq | hz
    · rw [heq] at hzj
      change k.lineIdx = j at hzj
      omega
    · have hlt := (pairwise_cons.mp (pairwise_append.mp hsorted).2.1).1 _ hz
      change k.lineIdx < k'.lineIdx at hlt
      change k'.lineIdx = j at hzj
      omega

end

/-- A second run of Pass 1: the file is untouched, and no kept line passed starts after the last. -/
structure Unmoved (authority : MainBulletAuthority) (ord : ℕ → ℕ) (U : ℕ → Prop) (file : ChatFile)
    (st : StartOrderState) (rest : List StartOrderSource) : Prop where
  file_eq : st.pass.file = file
  no_effect : st.pass.effects = []
  accepted_live : ∀ a, st.lastAccepted = some a →
    ∃ i b, Passed rest i ∧ ¬ U i ∧ bulletAt file i = some b ∧ b.startMs = a.startMs
  kept_below : ∀ k b, Passed rest k → authority.keptBullet (ord k) ≠ none →
    bulletAt file k = some b → ∃ l, st.lastKept = some l ∧ b.startMs ≤ l.startMs

theorem Unmoved.step (hord : InOrder authority ord U file) (hset : Settled authority ord file)
    (hinv : StartOrderInv authority ord file st (x :: rest))
    (h : Unmoved authority ord U file st (x :: rest))
    (hstep : StartStep W st x (rest.findSome? StartOrderSource.kept?) st') :
    Unmoved authority ord U file st' rest := by
  obtain ⟨_, bx, _, _, hbx, hstart, _, hkx, hrx⟩ := hinv.head
  rw [h.file_eq] at hbx
  have hcases : ∀ i c, bulletAt file i = some c → Passed rest i →
      Passed (x :: rest) i ∨ i = x.facts.lineIdx := by
    intro i c hc hi
    exact hinv.passed_cases (by rw [h.file_eq]; exact hc) hi
  -- an ordered line passed starts no later than the entry the sweep is at
  have habove : ∀ a, ¬ U x.facts.lineIdx → st.lastAccepted = some a → a.startMs ≤ x.facts.startMs := by
    intro a hUx ha
    obtain ⟨i, b, hi, hUi, hb, hba⟩ := h.accepted_live a ha
    have := hord.ordered i x.facts.lineIdx b bx hi.lt_head hUi hUx hb hbx
    omega
  cases hstep with
  | leftUnresolved e l hsource hlast hlt _ hfile heff _ hacc hkept =>
    subst hsource
    refine ⟨hfile.trans h.file_eq, heff.trans h.no_effect, ?_, ?_⟩
    · intro a ha
      rw [hacc] at ha
      obtain ⟨i, b, hi, hUi, hb⟩ := h.accepted_live a ha
      exact ⟨i, b, hi.tail, hUi, hb⟩
    · intro k b hk hkk hb
      rw [hkept]
      rcases hcases k b hb hk with hpassed | hke
      · exact h.kept_below k b hpassed hkk hb
      · subst hke
        cases hbx.symm.trans hb
        change e.startMs = bx.startMs at hstart
        exact ⟨l, hlast, by omega⟩
  | keptAccepted e hsource hle _ hpass hacc hkept =>
    subst hsource
    change bulletAt file e.lineIdx = some bx at hbx
    change e.startMs = bx.startMs at hstart
    have hUe : ¬ U e.lineIdx := by
      intro hU
      obtain ⟨k, d, hke, _, hkk, hd, hlt⟩ := (hord.unresolved e.lineIdx hU).2 bx hbx
      have hpassed : Passed (.kept e :: rest) k := by
        rcases hinv.covered k d (by rw [h.file_eq]; exact hd) with ⟨y, hy, hyk⟩ | hp
        · rcases mem_cons.mp hy with hyx | hy
          · subst hyx
            change e.lineIdx = k at hyk
            omega
          · have := hinv.passed_head y hy
            change e.lineIdx < y.facts.lineIdx at this
            omega
        · exact hp
      obtain ⟨l, hl, hdl⟩ := h.kept_below k d hpassed hkk hd
      have := hle l hl
      omega
    refine ⟨by rw [hpass]; exact h.file_eq, by rw [hpass]; exact h.no_effect, ?_, ?_⟩
    · intro a ha
      cases hacc.symm.trans ha
      exact ⟨e.lineIdx, bx, hinv.passed_head, hUe, hbx, hstart.symm⟩
    · intro k b hk hkk hb
      refine ⟨e, hkept, ?_⟩
      rcases hcases k b hb hk with hpassed | hke
      · obtain ⟨l, hl, hbl⟩ := h.kept_below k b hpassed hkk hb
        exact le_trans hbl (hle l hl)
      · subst hke
        rw [show bulletAt file e.lineIdx = some b from hb, Option.some.injEq] at hbx
        subst hbx
        exact le_of_eq hstart.symm
  | accepted e hsource hle _ _ hpass hacc hkept =>
    subst hsource
    have hUe : ¬ U e.lineIdx := hord.not_unresolved (hrx e rfl)
    refine ⟨by rw [hpass]; exact h.file_eq, by rw [hpass]; exact h.no_effect, ?_, ?_⟩
    · intro a ha
      cases hacc.symm.trans ha
      exact ⟨e.lineIdx, bx, hinv.passed_head, hUe, hbx, hstart.symm⟩
    · intro k b hk hkk hb
      rw [hkept]
      rcases hcases k b hb hk with hpassed | hke
      · exact h.kept_below k b hpassed hkk hb
      · subst hke
        exact absurd (hrx e rfl) hkk
  | raised e a u hsource hu hlast hlt _ _ _ _ _ _ =>
    subst hsource
    have := habove a (hord.not_unresolved (hrx e rfl)) hlast
    change a.startMs ≤ e.startMs at this
    omega
  | stripped e u hsource hu hwhy _ _ _ _ _ =>
    subst hsource
    rcases hwhy with ⟨a, hlast, hlt⟩ | ⟨k, hk, hlt⟩
    · have := habove a (hord.not_unresolved (hrx e rfl)) hlast
      change a.startMs ≤ e.startMs at this
      omega
    · obtain ⟨c, hn, hck⟩ := hinv.nearestKept hk
      rw [h.file_eq] at hn
      have := hset e.lineIdx k.lineIdx bx c (hrx e rfl) hbx hn
      change e.startMs = bx.startMs at hstart
      omega

theorem enforceStartOrder_settled (hord : InOrder authority ord U file)
    (hset : Settled authority ord file) :
    ∃ s, enforceStartOrder W authority ⟨file, [], [], []⟩ = .ok s ∧ s.file = file ∧ s.effects = [] := by
  obtain ⟨sources, hsources, hinv⟩ := collectSources_inv (s := ⟨file, [], [], []⟩) hord.toAccepted rfl
  obtain ⟨st, hrun, _⟩ := startOrderSweep_inv (W := W) hinv
  have hend := startOrderSweep_along (C := fun _ _ => True)
    (J := Unmoved authority ord U file) hinv hrun ⟨rfl, rfl, by simp, by
      intro k b hk hkk hb
      have hnr : ¬ Recorded ([] : List DecisionRecord) k := by
        intro hr
        obtain ⟨r, hr, _⟩ := hr
        simp at hr
      obtain ⟨a, ha, _⟩ := hinv.accepted_max k b hk hnr hb
      exact absurd ha (by simp)⟩ (Sweep.along_true _ _) (by
    intro st x rest st' hI hJ _ hstep
    exact hJ.step hord hset hI hstep)
  exact ⟨st.pass, enforceStartOrder_eq hsources hrun, hend.file_eq, hend.no_effect⟩

end Pass1

/-! ## The whole run -/

section Whole
variable {W : ContentWalker} {authority : MainBulletAuthority} {policy : EndOverlapPolicy}
  {file : ChatFile} {ord : ℕ → ℕ}

theorem enforceMonotonicityUnder_of_clear {U : ℕ → Prop}
    (hord : InOrder authority ord U file) (hset : Settled authority ord file)
    (hsame : ∀ i j u v, Neighbours .sameSpeaker file i j u v → Clear authority ord file i j)
    (hscope : ∀ i j u v, Neighbours policy.scope file i j u v → Clear authority ord file i j) :
    ∃ s, enforceMonotonicityUnder W authority policy file = .ok s ∧ s.file = file ∧ s.effects = [] := by
  obtain ⟨t1, ht1, hfile1, heff1⟩ := enforceStartOrder_settled (W := W) hord hset
  have hord1 : InOrder authority ord U t1.file := by
    rw [hfile1]
    exact hord
  obtain ⟨t2, ht2, hfile2, heff2⟩ := resolvePairs_of_clear (W := W) hord1
    (streamPairs_ok hord1.ordinals) (by
      intro x hx
      rw [hfile1] at hx ⊢
      obtain ⟨i, j, u, v, hn, rfl⟩ := mem_streamPairs_iff.mp hx
      exact hsame i j u v hn)
  have hord2 : InOrder authority ord U t2.file := by
    rw [hfile2]
    exact hord1
  obtain ⟨t3, ht3, hfile3, heff3⟩ := resolvePairs_of_clear (W := W) hord2
    (adjacentPairs_ok policy hord2.ordinals) (by
      intro x hx
      rw [hfile2, hfile1] at hx ⊢
      obtain ⟨u, v, hn⟩ := adjacentPairs_neighbours hx
      exact hscope _ _ u v hn)
  refine ⟨t3, ?_, hfile3.trans (hfile2.trans hfile1), heff3.trans (heff2.trans heff1)⟩
  simp only [enforceMonotonicityUnder, ht1, resolveSameSpeakerStreamOverlaps, ht2]
  exact ht3

end Whole

end Batchalign.Fa
