import Batchalign.Fa.Monotonicity

/- What the steps of monotonicity enforcement preserve. -/
namespace Batchalign.Fa

structure TimeSpan.Within (s b : TimeSpan) : Prop where
  start_le : b.startMs ≤ s.startMs
  positive : s.startMs < s.endMs
  end_le : s.endMs ≤ b.endMs

instance (s b : TimeSpan) : Decidable (s.Within b) :=
  decidable_of_iff (b.startMs ≤ s.startMs ∧ s.startMs < s.endMs ∧ s.endMs ≤ b.endMs)
    ⟨fun h => ⟨h.1, h.2.1, h.2.2⟩, fun h => ⟨h.start_le, h.positive, h.end_le⟩⟩

variable {file : ChatFile}

theorem bulletAt_eq {i : ℕ} {u : Utterance} (h : getUtterance file i = some u) :
    bulletAt file i = u.parsedBullet := by
  rw [bulletAt, h]
  rfl

theorem bulletAt_eq_some {i : ℕ} {b : TimeSpan} (h : bulletAt file i = some b) :
    ∃ u, getUtterance file i = some u ∧ u.parsedBullet = some b :=
  Option.bind_eq_some_iff.mp h

theorem bulletAt_modify_ne {i j : ℕ} {f : Utterance → Utterance} (h : i ≠ j) :
    bulletAt (modifyUtterance file i f) j = bulletAt file j := by
  rw [bulletAt, bulletAt, getUtterance_modifyUtterance_ne h]

theorem bulletAt_modify_self {i : ℕ} {f : Utterance → Utterance} {u : Utterance}
    (h : getUtterance file i = some u) : bulletAt (modifyUtterance file i f) i = (f u).parsedBullet := by
  rw [bulletAt, getUtterance_modifyUtterance_self, h]
  rfl

def Housed (file : ChatFile) : Prop :=
  ∀ i u, getUtterance file i = some u → u.parsedBullet = none → u.timedSpans = []

/-- Every live bullet passes the authority's check; `ord` gives the ordinal of each line. -/
structure Accepted (authority : MainBulletAuthority) (ord : ℕ → ℕ) (file : ChatFile) : Prop where
  ordinals : ∀ i, utteranceOrdinal file i = ord i
  attributed : ∀ i b, bulletAt file i = some b →
    authority.mutability (ord i) b = .ok (authority.standing (ord i))

structure Contained (authority : MainBulletAuthority) (ord : ℕ → ℕ) (file : ChatFile) : Prop where
  extent : ∀ i b, bulletAt file i = some b → authority.keptBullet (ord i) = none →
    b.startMs < b.endMs
  words : ∀ i u b, getUtterance file i = some u → u.parsedBullet = some b →
    ∀ s ∈ u.timedSpans, s.Within b

/-- The file is in start order outside `U`. -/
structure InOrder (authority : MainBulletAuthority) (ord : ℕ → ℕ) (U : ℕ → Prop) (file : ChatFile) :
    Prop extends Accepted authority ord file where
  ordered : ∀ i j b c, i < j → ¬ U i → ¬ U j → bulletAt file i = some b → bulletAt file j = some c →
    b.startMs ≤ c.startMs
  unresolved : ∀ j, U j → authority.keptBullet (ord j) ≠ none ∧ ∀ c, bulletAt file j = some c →
    ∃ k b, k < j ∧ ¬ U k ∧ authority.keptBullet (ord k) ≠ none ∧ bulletAt file k = some b ∧
      c.startMs < b.startMs

section Edits
variable {authority : MainBulletAuthority} {ord : ℕ → ℕ} {U : ℕ → Prop} {file : ChatFile}
  {i : ℕ} {u w : Utterance} {b a : TimeSpan}

theorem Accepted.kept_live (h : Accepted authority ord file) (hb : bulletAt file i = some b)
    {kept : KeptBullet} (hk : authority.keptBullet (ord i) = some kept) : b = kept.toBullet :=
  (mutability_ok (h.attributed i b hb)).2.1 kept hk

theorem InOrder.not_unresolved (h : InOrder authority ord U file)
    (hk : authority.keptBullet (ord i) = none) : ¬ U i := by
  intro hU
  exact (h.unresolved i hU).1 hk

theorem Accepted.edit (h : Accepted authority ord file) (hu : getUtterance file i = some u)
    (hb : u.parsedBullet = some b) (hk : authority.keptBullet (ord i) = none) :
    Accepted authority ord (modifyUtterance file i fun _ => w) := by
  refine ⟨?_, ?_⟩
  · intro j
    rw [ordinal_modifyUtterance]
    exact h.ordinals j
  · intro j c hc
    by_cases hij : i = j
    · subst hij
      -- a revisable line passes the check whatever its bullet is
      exact (mutability_ok (h.attributed i b (by rw [bulletAt_eq hu, hb]))).2.2 hk c
    · rw [bulletAt_modify_ne hij] at hc
      exact h.attributed j c hc

section
variable (h : Contained authority ord file)
include h

section
variable (hu : getUtterance file i = some u)
include hu

theorem Contained.edit
    (hnew : ∀ c, w.parsedBullet = some c → c.startMs < c.endMs ∧ ∀ s ∈ w.timedSpans, s.Within c) :
    Contained authority ord (modifyUtterance file i fun _ => w) := by
  refine ⟨?_, ?_⟩
  · intro j c hc hkj
    by_cases hij : i = j
    · subst hij
      rw [bulletAt_modify_self hu] at hc
      exact (hnew c hc).1
    · rw [bulletAt_modify_ne hij] at hc
      exact h.extent j c hc hkj
  · intro j v c hv hc
    by_cases hij : i = j
    · subst hij
      rw [getUtterance_modifyUtterance_self, hu, Option.map_some, Option.some.injEq] at hv
      subst hv
      exact (hnew c hc).2
    · rw [getUtterance_modifyUtterance_ne hij] at hv
      exact h.words j v c hv hc

theorem Contained.strip (hnone : w.parsedBullet = none) :
    Contained authority ord (modifyUtterance file i fun _ => w) := by
  apply h.edit hu
  intro c hc
  rw [hnone] at hc
  simp at hc

theorem Contained.rebullet (hb' : w.parsedBullet = some a) (hext : a.startMs < a.endMs)
    (hwords : ∀ s ∈ w.timedSpans, s.Within a) :
    Contained authority ord (modifyUtterance file i fun _ => w) := by
  apply h.edit hu
  intro c hc
  cases hb'.symm.trans hc
  exact ⟨hext, hwords⟩

end

end

section
variable (h : InOrder authority ord U file)
include h

section
variable (hu : getUtterance file i = some u)
include hu

theorem InOrder.edit (hb : u.parsedBullet = some b) (hk : authority.keptBullet (ord i) = none)
    (hnew : ∀ c, w.parsedBullet = some c → b.startMs ≤ c.startMs ∧
      ∀ j d, i < j → ¬ U j → bulletAt file j = some d → c.startMs ≤ d.startMs) :
    InOrder authority ord U (modifyUtterance file i fun _ => w) := by
  have hbi : bulletAt file i = some b := by rw [bulletAt_eq hu, hb]
  have hself : bulletAt (modifyUtterance file i fun _ => w) i = w.parsedBullet :=
    bulletAt_modify_self hu
  have hne : ∀ j, i ≠ j → bulletAt (modifyUtterance file i fun _ => w) j = bulletAt file j :=
    fun j hj => bulletAt_modify_ne hj
  have hUi : ¬ U i := h.not_unresolved hk
  refine ⟨h.toAccepted.edit hu hb hk, ?_, ?_⟩
  · intro j k c d hjk hUj hUk hc hd
    by_cases hij : i = j
    · subst hij
      rw [hself] at hc
      rw [hne k (by omega)] at hd
      exact (hnew c hc).2 k d hjk hUk hd
    · rw [hne j hij] at hc
      by_cases hik : i = k
      · subst hik
        rw [hself] at hd
        exact le_trans (h.ordered j i c b hjk hUj hUk hc hbi) (hnew d hd).1
      · rw [hne k hik] at hd
        exact h.ordered j k c d hjk hUj hUk hc hd
  · intro j hUj
    have hij : i ≠ j := by
      intro hij
      subst hij
      exact hUi hUj
    obtain ⟨hkj, hex⟩ := h.unresolved j hUj
    refine ⟨hkj, ?_⟩
    intro c hc
    rw [hne j hij] at hc
    obtain ⟨k, d, hkj', hUk, hkk, hd, hlt⟩ := hex c hc
    have hik : i ≠ k := by
      intro hik
      subst hik
      exact hkk hk
    exact ⟨k, d, hkj', hUk, hkk, by rw [hne k hik]; exact hd, hlt⟩

theorem InOrder.strip (hb : u.parsedBullet = some b) (hk : authority.keptBullet (ord i) = none)
    (hnone : w.parsedBullet = none) : InOrder authority ord U (modifyUtterance file i fun _ => w) := by
  apply h.edit hu hb hk
  intro c hc
  rw [hnone] at hc
  simp at hc

theorem InOrder.moveStart (hb : u.parsedBullet = some b) (hk : authority.keptBullet (ord i) = none)
    (hb' : w.parsedBullet = some a) (hle : b.startMs ≤ a.startMs)
    (hlater : ∀ j d, i < j → ¬ U j → bulletAt file j = some d → a.startMs ≤ d.startMs) :
    InOrder authority ord U (modifyUtterance file i fun _ => w) := by
  apply h.edit hu hb hk
  intro c hc
  cases hb'.symm.trans hc
  exact ⟨hle, hlater⟩

theorem InOrder.cutEnd (hb : u.parsedBullet = some b) (hk : authority.keptBullet (ord i) = none) {e : ℕ}
    (hb' : w.parsedBullet = some ⟨b.startMs, e⟩) :
    InOrder authority ord U (modifyUtterance file i fun _ => w) := by
  refine h.moveStart hu hb hk hb' (le_refl _) ?_
  intro j d hij hUj hd
  exact h.ordered i j b d hij (h.not_unresolved hk) hUj (by rw [bulletAt_eq hu, hb]) hd

end

end

theorem housed_modify_bulleted (hu : getUtterance file i = some u) (hb : u.parsedBullet ≠ none)
    (hb' : w.parsedBullet ≠ none) : Housed (modifyUtterance file i fun _ => w) ↔ Housed file := by
  have key : ∀ j v, v.parsedBullet = none →
      (getUtterance (modifyUtterance file i fun _ => w) j = some v ↔ getUtterance file j = some v) := by
    intro j v hv
    by_cases hij : i = j
    · subst hij
      rw [getUtterance_modifyUtterance_self, hu, Option.map_some, Option.some.injEq,
        Option.some.injEq]
      refine ⟨?_, ?_⟩
      · intro huv
        subst huv
        exact absurd hv hb'
      · intro huv
        subst huv
        exact absurd hv hb
    · rw [getUtterance_modifyUtterance_ne hij]
  refine ⟨?_, ?_⟩
  · intro h j v hv hnone
    exact h j v ((key j v hnone).mpr hv) hnone
  · intro h j v hv hnone
    exact h j v ((key j v hnone).mp hv) hnone

theorem housed_strip (W : ContentWalker) (hu : getUtterance file i = some u)
    (hb : u.parsedBullet ≠ none) : Housed (modifyUtterance file i fun _ => (stripUtteranceTiming W u).1) ↔
      Housed file ∧ ∀ w ∈ unreachedWords u.content, w.inlineBullet = none := by
  have hself : getUtterance (modifyUtterance file i fun _ => (stripUtteranceTiming W u).1) i =
      some (stripUtteranceTiming W u).1 := by
    rw [getUtterance_modifyUtterance_self, hu]
    rfl
  rw [← timings_eq_nil_iff, ← timedSpans_stripUtteranceTiming W u]
  refine ⟨?_, ?_⟩
  · intro h
    refine ⟨?_, h i _ hself rfl⟩
    intro j v hv hnone
    have hij : i ≠ j := by
      intro hij
      subst hij
      cases hu.symm.trans hv
      exact hb hnone
    exact h j v (by rw [getUtterance_modifyUtterance_ne hij]; exact hv) hnone
  · intro h j v hv hnone
    by_cases hij : i = j
    · subst hij
      cases hself.symm.trans hv
      exact h.2
    · rw [getUtterance_modifyUtterance_ne hij] at hv
      exact h.1 j v hv hnone

end Edits

/-! ## The file-order successor -/

theorem findSome?_drop_spec {α : Type} (file : ChatFile) (f : Line → Option α) (n : ℕ) :
    (∀ a, (file.drop n).findSome? f = some a → ∃ q line, n ≤ q ∧ file[q]? = some line ∧
      f line = some a ∧ ∀ j line', n ≤ j → j < q → file[j]? = some line' → f line' = none) ∧
    ((file.drop n).findSome? f = none → ∀ j line', n ≤ j → file[j]? = some line' → f line' = none) := by
  induction file generalizing n with
  | nil => simp
  | cons line lines ih =>
    cases n with
    | succ n =>
      obtain ⟨h1, h2⟩ := ih n
      refine ⟨?_, ?_⟩
      · intro a ha
        obtain ⟨q, l, hnq, hq, hl, hmin⟩ := h1 a ha
        refine ⟨q + 1, l, by omega, hq, hl, ?_⟩
        intro j l' hnj hjq hj
        cases j with
        | zero => omega
        | succ j => exact hmin j l' (by omega) (by omega) hj
      · intro hnone j l' hnj hj
        cases j with
        | zero => omega
        | succ j => exact h2 hnone j l' (by omega) hj
    | zero =>
      obtain ⟨h1, h2⟩ := ih 0
      rw [List.drop_zero] at h1 h2 ⊢
      cases hline : f line with
      | some c =>
        refine ⟨?_, ?_⟩
        · intro a ha
          rw [List.findSome?_cons, hline] at ha
          exact ⟨0, line, le_refl _, rfl, by rw [hline]; exact ha, by omega⟩
        · intro hnone
          simp [hline] at hnone
      | none =>
        rw [List.findSome?_cons, hline]
        refine ⟨?_, ?_⟩
        · intro a ha
          obtain ⟨q, l, _, hq, hl, hmin⟩ := h1 a ha
          refine ⟨q + 1, l, by omega, hq, hl, ?_⟩
          intro j l' _ hjq hj
          cases j with
          | zero =>
            simp only [List.getElem?_cons_zero, Option.some.injEq] at hj
            subst hj
            exact hline
          | succ j => exact hmin j l' (by omega) (by omega) hj
        · intro hnone j l' _ hj
          cases j with
          | zero =>
            simp only [List.getElem?_cons_zero, Option.some.injEq] at hj
            subst hj
            exact hline
          | succ j => exact h2 hnone j l' (by omega) hj

theorem bulletAt_eq_bind (file : ChatFile) (i : ℕ) :
    bulletAt file i = (file[i]?).bind fun line => line.utterance?.bind Utterance.parsedBullet := by
  rw [bulletAt, getUtterance, Option.bind_assoc]

theorem fileOrderSuccessorStartMs_some {i t : ℕ} (h : fileOrderSuccessorStartMs file i = some t) :
    ∃ q d, i < q ∧ bulletAt file q = some d ∧ d.startMs = t ∧
      ∀ j, i < j → j < q → bulletAt file j = none := by
  obtain ⟨q, line, hiq, hq, hline, hmin⟩ := (findSome?_drop_spec file _ (i + 1)).1 t h
  obtain ⟨d, hd, rfl⟩ := Option.map_eq_some_iff.mp hline
  refine ⟨q, d, by omega, by rw [bulletAt_eq_bind, hq]; exact hd, rfl, ?_⟩
  intro j hij hjq
  rw [bulletAt_eq_bind]
  cases hj : file[j]? with
  | none => rfl
  | some l => exact Option.map_eq_none_iff.mp (hmin j l (by omega) hjq hj)

theorem fileOrderSuccessorStartMs_none {i : ℕ}
    (h : fileOrderSuccessorStartMs file i = none) : ∀ j, i < j → bulletAt file j = none := by
  intro j hij
  rw [bulletAt_eq_bind]
  cases hj : file[j]? with
  | none => rfl
  | some l =>
    exact Option.map_eq_none_iff.mp ((findSome?_drop_spec file _ (i + 1)).2 h j l (by omega) hj)

theorem InOrder.move_before_later {authority : MainBulletAuthority} {ord : ℕ → ℕ} {U : ℕ → Prop}
    {i t : ℕ} {b : TimeSpan} (h : InOrder authority ord U file)
    (hb : bulletAt file i = some b) (hk : authority.keptBullet (ord i) = none)
    (hforward : b.startMs < t) (hguard : ∀ s, fileOrderSuccessorStartMs file i = some s → t ≤ s) :
    ∀ j d, i < j → ¬ U j → bulletAt file j = some d → t ≤ d.startMs := by
  intro j d hij hUj hd
  cases hsucc : fileOrderSuccessorStartMs file i with
  | none => rw [fileOrderSuccessorStartMs_none hsucc j hij] at hd; simp at hd
  | some s =>
    obtain ⟨q, c, hiq, hc, hcs, hmin⟩ := fileOrderSuccessorStartMs_some hsucc
    have hts : t ≤ c.startMs := by
      rw [hcs]
      exact hguard s hsucc
    by_cases hUq : U q
    · obtain ⟨k, a, hkq, hUk, hkk, ha, hlt⟩ := (h.unresolved q hUq).2 c hc
      have hki : k < i := by
        by_contra hle
        by_cases heq : k = i
        · subst heq
          exact hkk hk
        · rw [hmin k (by omega) hkq] at ha
          simp at ha
      have := h.ordered k i a b hki hUk (h.not_unresolved hk) ha hb
      omega
    · have hqj : q ≤ j := by
        by_contra hlt
        rw [hmin j hij (by omega)] at hd
        simp at hd
      rcases Nat.lt_or_eq_of_le hqj with hlt | heq
      · exact le_trans hts (h.ordered q j c d hlt hUq hUj hc hd)
      · subst heq
        cases hc.symm.trans hd
        exact hts

end Batchalign.Fa
