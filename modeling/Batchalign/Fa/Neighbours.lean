import Batchalign.Fa.StartOrder

/- Neighbouring bulleted lines, and the pairs an overlap sweep lists. A sweep whose pairs are all `Clear`
   changes nothing. -/
namespace Batchalign.Fa
open List

inductive Scope where
  | sameSpeaker
  | anySpeaker

def Scope.Covers : Scope → Utterance → Utterance → Prop
  | .sameSpeaker, u, v => u.speaker = v.speaker
  | .anySpeaker, _, _ => True

structure Neighbours (scope : Scope) (file : ChatFile) (i j : ℕ) (u v : Utterance) : Prop where
  before : i < j
  first : getUtterance file i = some u
  second : getUtterance file j = some v
  first_bulleted : u.bullet.isSome
  second_bulleted : v.bullet.isSome
  covered : scope.Covers u v
  between : ∀ k w, i < k → k < j → getUtterance file k = some w → scope.Covers u w → w.bullet = none

def Clear (authority : MainBulletAuthority) (ord : ℕ → ℕ) (file : ChatFile) (i j : ℕ) : Prop :=
  ∀ b c, bulletAt file i = some b → bulletAt file j = some c → c.startMs < b.endMs →
    authority.keptBullet (ord i) ≠ none ∧ authority.keptBullet (ord j) ≠ none

/-! ## The pairs a sweep lists -/

theorem mem_windows_iff {lines : List TimedLine}
    (hsorted : lines.Pairwise fun a b => a.lineIdx < b.lineIdx) {a b : TimedLine} :
    (a, b) ∈ windows lines ↔ a ∈ lines ∧ b ∈ lines ∧ a.lineIdx < b.lineIdx ∧
      ∀ c ∈ lines, ¬ (a.lineIdx < c.lineIdx ∧ c.lineIdx < b.lineIdx) := by
  induction lines with
  | nil => simp [windows]
  | cons x lines ih =>
    obtain ⟨hx, hsorted⟩ := pairwise_cons.mp hsorted
    cases lines with
    | nil =>
      simp only [windows, not_mem_nil, mem_singleton, false_iff, not_and]
      intro ha hb hlt
      subst ha hb
      omega
    | cons y lines =>
      obtain ⟨hy, _⟩ := pairwise_cons.mp hsorted
      have hxy := hx y (by simp)
      simp only [windows, mem_cons, Prod.mk.injEq]
      refine ⟨?_, ?_⟩
      · intro h
        rcases h with ⟨h1, h2⟩ | h
        · subst h1 h2
          refine ⟨.inl rfl, .inr (.inl rfl), hxy, ?_⟩
          intro c hc
          rcases hc with hc | hc | hc
          · subst hc
            omega
          · subst hc
            omega
          · have := hy c hc
            omega
        · obtain ⟨ha, hb, hlt, hno⟩ := (ih hsorted).mp h
          refine ⟨.inr (mem_cons.mp ha), .inr (mem_cons.mp hb), hlt, ?_⟩
          intro c hc
          rcases hc with hc | hc
          · subst hc
            have := hx a ha
            omega
          · exact hno c (mem_cons.mpr hc)
      · intro h
        obtain ⟨ha, hb, hlt, hno⟩ := h
        have hbmem : b ∈ y :: lines := by
          rcases hb with hb | hb
          · subst hb
            rcases ha with ha | ha
            · subst ha
              omega
            · have := hx a (mem_cons.mpr ha)
              omega
          · exact mem_cons.mpr hb
        rcases ha with ha | ha
        · -- the first line's only window is with the second
          subst ha
          left
          refine ⟨rfl, ?_⟩
          rcases mem_cons.mp hbmem with hby | hby
          · exact hby
          · exact absurd ⟨hxy, hy b hby⟩ (hno y (.inr (.inl rfl)))
        · right
          exact (ih hsorted).mpr ⟨mem_cons.mpr ha, hbmem, hlt,
            fun c hc => hno c (.inr (mem_cons.mp hc))⟩

theorem mem_speakerOrder {speakers : List String} {speaker : String} (h : speaker ∈ speakers) :
    speaker ∈ speakerOrder speakers := by
  have hfold : ∀ (speakers seen : List String), (∀ s ∈ seen, s ∈ speakers.foldl
      (fun seen speaker => if speaker ∈ seen then seen else seen ++ [speaker]) seen) ∧
      ∀ s ∈ speakers, s ∈ speakers.foldl
        (fun seen speaker => if speaker ∈ seen then seen else seen ++ [speaker]) seen := by
    intro speakers
    induction speakers with
    | nil => simp
    | cons x speakers ih =>
      intro seen
      obtain ⟨hseen, hrest⟩ := ih (if x ∈ seen then seen else seen ++ [x])
      have hgrow : ∀ s ∈ seen, s ∈ if x ∈ seen then seen else seen ++ [x] := by
        intro s hs
        split_ifs
        · exact hs
        · exact mem_append_left _ hs
      refine ⟨fun s hs => hseen s (hgrow s hs), ?_⟩
      intro s hs
      rcases mem_cons.mp hs with hsx | hs
      · subst hsx
        apply hseen
        split_ifs with hmem
        · exact hmem
        · simp
      · exact hrest s hs
  exact (hfold speakers []).2 speaker h

theorem speakerOrder_nodup (speakers : List String) : (speakerOrder speakers).Nodup := by
  have hfold : ∀ (speakers seen : List String), seen.Nodup → (speakers.foldl
      (fun seen speaker => if speaker ∈ seen then seen else seen ++ [speaker]) seen).Nodup := by
    intro speakers
    induction speakers with
    | nil => intro seen h; exact h
    | cons x speakers ih =>
      intro seen h
      rw [foldl_cons]
      apply ih
      split_ifs with hmem
      · exact h
      · exact nodup_append.mpr ⟨h, nodup_singleton _, by
          intro a ha b hb
          rw [mem_singleton] at hb
          subst hb
          exact fun heq => hmem (heq ▸ ha)⟩
  exact hfold speakers [] nodup_nil

variable {x : String × OverlapPairIdentity}

section Listing
variable {file : ChatFile} {i j : ℕ}

def timedLineAt (file : ChatFile) (i : ℕ) (u : Utterance) : TimedLine :=
  ⟨i, utteranceOrdinal file i, u.speaker⟩

theorem timedLineAt_mem {u : Utterance} (hu : getUtterance file i = some u) (hb : u.bullet.isSome) :
    timedLineAt file i u ∈ timedLines file :=
  mem_timedLines.mpr ⟨u, hu, hb, rfl, rfl⟩

theorem mem_streamPairs_iff {file : ChatFile} :
    x ∈ streamPairs (timedLines file) ↔ ∃ i j u v, Neighbours .sameSpeaker file i j u v ∧
      x = (timedLineAt file i u).pairWith (timedLineAt file j v) := by
  have hsorted : ∀ speaker, ((timedLines file).filter fun line => line.speaker == speaker).Pairwise
      fun a b => a.lineIdx < b.lineIdx :=
    fun speaker => (timedLines_sorted file).sublist filter_sublist
  simp only [streamPairs, mem_flatMap, mem_map, Prod.exists]
  refine ⟨?_, ?_⟩
  · intro h
    obtain ⟨speaker, _, a, b, hab, hx⟩ := h
    obtain ⟨ha, hb, hlt, hno⟩ := (mem_windows_iff (hsorted speaker)).mp hab
    obtain ⟨ha, has⟩ := mem_filter.mp ha
    obtain ⟨hb, hbs⟩ := mem_filter.mp hb
    obtain ⟨u, hu, hub, hus, huo⟩ := mem_timedLines.mp ha
    obtain ⟨v, hv, hvb, hvs, hvo⟩ := mem_timedLines.mp hb
    have hspk : u.speaker = speaker := by rw [← hus]; exact beq_iff_eq.mp has
    have hspk' : v.speaker = speaker := by rw [← hvs]; exact beq_iff_eq.mp hbs
    refine ⟨a.lineIdx, b.lineIdx, u, v, ⟨hlt, hu, hv, hub, hvb, ?_, ?_⟩, ?_⟩
    · change u.speaker = v.speaker
      rw [hspk, hspk']
    · intro k w hik hkj hw hcov
      by_contra hne
      have hmem : timedLineAt file k w ∈ (timedLines file).filter fun line => line.speaker == speaker := by
        refine mem_filter.mpr ⟨timedLineAt_mem hw (Option.isSome_iff_ne_none.mpr hne), ?_⟩
        change (w.speaker == speaker) = true
        rw [← hcov, hspk]
        simp
      exact hno _ hmem ⟨hik, hkj⟩
    · rw [← hx]
      simp [TimedLine.pairWith, timedLineAt, hvs, huo, hvo]
  · intro h
    obtain ⟨i, j, u, v, hn, hx⟩ := h
    have hcov : u.speaker = v.speaker := hn.covered
    refine ⟨u.speaker, mem_speakerOrder (mem_map_of_mem (f := TimedLine.speaker)
        (timedLineAt_mem hn.first hn.first_bulleted)),
      timedLineAt file i u, timedLineAt file j v, ?_, hx.symm⟩
    refine (mem_windows_iff (hsorted u.speaker)).mpr ⟨?_, ?_, hn.before, ?_⟩
    · exact mem_filter.mpr ⟨timedLineAt_mem hn.first hn.first_bulleted, beq_self_eq_true _⟩
    · refine mem_filter.mpr ⟨timedLineAt_mem hn.second hn.second_bulleted, ?_⟩
      change (v.speaker == u.speaker) = true
      rw [hcov]
      simp
    · intro c hc hbetween
      obtain ⟨hc, hcs⟩ := mem_filter.mp hc
      obtain ⟨w, hw, hwb, hws, _⟩ := mem_timedLines.mp hc
      have hnone := hn.between c.lineIdx w hbetween.1 hbetween.2 hw
        (show u.speaker = w.speaker by rw [← hws]; exact (beq_iff_eq.mp hcs).symm)
      rw [hnone] at hwb
      simp at hwb

theorem mem_windows_timedLines {file : ChatFile} {a b : TimedLine} :
    (a, b) ∈ windows (timedLines file) ↔ ∃ i j u v, Neighbours .anySpeaker file i j u v ∧
      a = timedLineAt file i u ∧ b = timedLineAt file j v := by
  rw [mem_windows_iff (timedLines_sorted file)]
  refine ⟨?_, ?_⟩
  · intro h
    obtain ⟨ha, hb, hlt, hno⟩ := h
    obtain ⟨u, hu, hub, hus, huo⟩ := mem_timedLines.mp ha
    obtain ⟨v, hv, hvb, hvs, hvo⟩ := mem_timedLines.mp hb
    refine ⟨a.lineIdx, b.lineIdx, u, v, ⟨hlt, hu, hv, hub, hvb, trivial, ?_⟩, ?_, ?_⟩
    · intro k w hik hkj hw _
      by_contra hne
      exact hno _ (timedLineAt_mem hw (Option.isSome_iff_ne_none.mpr hne)) ⟨hik, hkj⟩
    · cases a
      simp_all [timedLineAt]
    · cases b
      simp_all [timedLineAt]
  · intro h
    obtain ⟨i, j, u, v, hn, rfl, rfl⟩ := h
    refine ⟨timedLineAt_mem hn.first hn.first_bulleted, timedLineAt_mem hn.second hn.second_bulleted,
      hn.before, ?_⟩
    intro c hc hbetween
    obtain ⟨w, hw, hwb, _, _⟩ := mem_timedLines.mp hc
    rw [hn.between c.lineIdx w hbetween.1 hbetween.2 hw trivial] at hwb
    simp at hwb

def EndOverlapPolicy.scope : EndOverlapPolicy → Scope
  | .clampAllAdjacent => .anySpeaker
  | .preserveCrossSpeaker => .sameSpeaker

theorem adjacentPairs_neighbours {policy : EndOverlapPolicy}
    (h : x ∈ adjacentPairs policy (timedLines file)) :
    ∃ u v, Neighbours policy.scope file x.2.prevLineIdx x.2.nextLineIdx u v := by
  obtain ⟨⟨a, b⟩, hab, rfl⟩ := mem_map.mp h
  obtain ⟨hab, hclamp⟩ := mem_filter.mp hab
  obtain ⟨i, j, u, v, hn, rfl, rfl⟩ := mem_windows_timedLines.mp hab
  refine ⟨u, v, hn.before, hn.first, hn.second, hn.first_bulleted, hn.second_bulleted, ?_, ?_⟩
  · cases policy with
    | clampAllAdjacent => trivial
    | preserveCrossSpeaker => exact beq_iff_eq.mp hclamp
  · intro k w hik hkj hw _
    exact hn.between k w hik hkj hw trivial

end Listing

/-! ## Sweeps over clear pairs -/

section Steps
variable {W : ContentWalker} {authority : MainBulletAuthority} {ord : ℕ → ℕ} {U : ℕ → Prop}
  {s s' : PassState} {pair : OverlapPairIdentity}

theorem PairStep.idle_of_clear (hstep : PairStep W authority ord s pair s')
    (hclear : Clear authority ord s.file pair.prevLineIdx pair.nextLineIdx) :
    s'.file = s.file ∧ s'.effects = s.effects := by
  have hlive : ∀ {p n : Utterance} {pb nb : TimeSpan}, LiveOverlap s.file pair p n pb nb →
      authority.keptBullet (ord pair.prevLineIdx) ≠ none ∧
        authority.keptBullet (ord pair.nextLineIdx) ≠ none := by
    intro p n pb nb h
    exact hclear pb nb (by rw [bulletAt_eq h.prev, h.prev_bullet])
      (by rw [bulletAt_eq h.next, h.next_bullet]) h.overlap
  cases hstep with
  | idle hfile heff _ _ => exact ⟨hfile, heff⟩
  | stripPrev p n pb nb h hk _ _ _ => exact absurd hk (hlive h).1
  | coverage p n pb nb e h hk _ _ _ _ => exact absurd hk (hlive h).1
  | boundary p n pb nb e t h hk _ _ _ _ _ _ _ _ _ => exact absurd hk (hlive h).1
  | interleaved p n pb nb h hk _ _ _ => exact absurd hk (hlive h).1
  | raiseNext p n pb nb h _ hkn _ _ _ _ => exact absurd hkn (hlive h).2
  | stripNext p n pb nb h _ hkn _ _ => exact absurd hkn (hlive h).2

variable {pairs : List (String × OverlapPairIdentity)}

theorem resolvePairs_of_clear (hs : InOrder authority ord U s.file) (hp : ∀ x ∈ pairs, PairOk ord x.2)
    (hclear : ∀ x ∈ pairs, Clear authority ord s.file x.2.prevLineIdx x.2.nextLineIdx) :
    ∃ s', resolvePairs W authority s pairs = .ok s' ∧ s'.file = s.file ∧ s'.effects = s.effects := by
  obtain ⟨s', hrun, _, _, _⟩ := resolvePairs_inOrder (W := W) hs hp
  have hend := resolvePairs_along (C := fun _ _ => True) (J := fun t xs => t.file = s.file ∧
    t.effects = s.effects ∧ ∀ x ∈ xs, Clear authority ord s.file x.2.prevLineIdx x.2.nextLineIdx)
    hs hp hrun ⟨rfl, rfl, hclear⟩ (Sweep.along_true pairs s) (by
      intro t x xs t' _ _ hJ _ hpair
      obtain ⟨hfile, heff, hall⟩ := hJ
      obtain ⟨hfile', heff'⟩ := hpair.idle_of_clear (by rw [hfile]; exact hall x (by simp))
      exact ⟨hfile'.trans hfile, heff'.trans heff, fun y hy => hall y (mem_cons_of_mem x hy)⟩)
  exact ⟨s', hrun, hend.1, hend.2.1⟩

end Steps

end Batchalign.Fa
