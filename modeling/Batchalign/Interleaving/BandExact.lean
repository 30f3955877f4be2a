import Batchalign.Interleaving.BandScores

/- The evidence of the scalar search is exact, whatever the band leaves out. -/
namespace Batchalign.Interleaving
open Batchalign.DpAlign WordRuns List

/-- Of each word the references some optimum uses, last first, and whether one omits it. -/
structure ExactEvidence (graph : Graph) (relation : Relation) (referenceLen words : ℕ)
    (evidence : List WordEvidence) : Prop where
  length : evidence.length = words
  missing : ∀ (w : ℕ) (e : WordEvidence), evidence[w]? = some e → (e.canBeMissing = true ↔
    ∃ σ a, Longest graph.Connects relation.matchesAt 0 graph.finish referenceLen σ a ∧ ∀ r, (w, r) ∉ a)
  candidates : ∀ (w : ℕ) (e : WordEvidence), evidence[w]? = some e → ∀ r, (r ∈ e.candidates ↔
    ∃ σ a, Longest graph.Connects relation.matchesAt 0 graph.finish referenceLen σ a ∧ (w, r) ∈ a)
  sorted : ∀ (w : ℕ) (e : WordEvidence), evidence[w]? = some e → e.candidates.Pairwise (· > ·)

theorem eq_of_sorted {l l' : List ℕ} (h : l.Pairwise (· > ·)) (h' : l'.Pairwise (· > ·))
    (hmem : ∀ r, r ∈ l ↔ r ∈ l') : l = l' := by
  have hperm : l.Perm l' := by
    refine (perm_ext_iff_of_nodup ?_ ?_).mpr hmem
    · exact h.imp (fun hlt => hlt.ne')
    · exact h'.imp (fun hlt => hlt.ne')
  exact hperm.eq_of_pairwise (fun a b _ _ hab hba => absurd hab (Nat.lt_asymm hba)) h h'

variable {relation : Relation}

theorem ExactEvidence.unique {graph : Graph} {referenceLen words : ℕ}
    {evidence evidence' : List WordEvidence} (h : ExactEvidence graph relation referenceLen words evidence)
    (h' : ExactEvidence graph relation referenceLen words evidence') : evidence = evidence' := by
  apply ext_getElem (h.length.trans h'.length.symm)
  intro w hw hw'
  have hat := getElem?_eq_getElem hw
  have hat' := getElem?_eq_getElem hw'
  have hcandidates : evidence[w].candidates = evidence'[w].candidates :=
    eq_of_sorted (h.sorted w _ hat) (h'.sorted w _ hat') fun r =>
      (h.candidates w _ hat r).trans (h'.candidates w _ hat' r).symm
  have hmissing : evidence[w].canBeMissing = evidence'[w].canBeMissing :=
    Bool.eq_iff_iff.mpr ((h.missing w _ hat).trans (h'.missing w _ hat').symm)
  calc evidence[w] = ⟨evidence[w].candidates, evidence[w].canBeMissing⟩ := rfl
    _ = ⟨evidence'[w].candidates, evidence'[w].canBeMissing⟩ := by rw [hcandidates, hmissing]
    _ = evidence'[w] := rfl

/-! ## One cut -/

theorem reaches_combined {t opt matched : ℕ} {score : Score} :
    Band.reaches (combined (some t) score matched) (some opt) = true ↔
      ∃ t', score = some t' ∧ t + t' + matched = opt := by
  cases score with
  | none => simp [Band.reaches, combined]
  | some t' => simp [Band.reaches, combined]

namespace Band
variable {band : Band}

def ShowsMissing (band : Band) (backward : Row) (optimum : Score) (w : ℕ) (p : ℕ × Edge) : Prop :=
  p.2.word = some w ∧
    reaches (combined (some p.1) (backward.get (band.graph.rank p.2.target)) 0) optimum = true

/-- Whether an edge shows that its word can take reference `k`. -/
def ShowsCandidate (band : Band) (next : Row) (k : ℕ) (optimum : Score) (w : ℕ) (p : ℕ × Edge) :
    Prop :=
  p.2.word = some w ∧ band.relation.matchesAt w k = true ∧
    reaches (combined (some p.1) (next.get (band.graph.rank p.2.target)) 1) optimum = true

section Cut
variable (band) (backward : Row) (optimum : Score)

theorem getElem?_modify_at {α : Type} (l : List α) (f : α → α) (i w : ℕ) :
    (l.modify i f)[w]? = (l[w]?).map fun x => if i = w then f x else x := by
  rw [getElem?_modify]
  rfl

theorem observeEdge_last (state : List WordEvidence × ℕ) (p : ℕ × Edge) (w : ℕ) :
    (band.observeEdge backward none optimum state p).1.length = state.1.length ∧
    ∀ e, state.1[w]? = some e → ∃ e', (band.observeEdge backward none optimum state p).1[w]? = some e' ∧
      e'.candidates = e.candidates ∧
      (e'.canBeMissing = true ↔ e.canBeMissing = true ∨ ShowsMissing band backward optimum w p) := by
  rw [observeEdge]
  cases hword : p.2.word with
  | none => exact ⟨rfl, fun e he => ⟨e, he, rfl, by simp [ShowsMissing, hword]⟩⟩
  | some word =>
    simp only
    by_cases hreaches : reaches (combined (some p.1)
        (backward.get (band.graph.rank p.2.target)) 0) optimum = true
    · rw [if_pos hreaches]
      refine ⟨length_modify _ _ _, ?_⟩
      intro e he
      rw [getElem?_modify_at, he]
      by_cases hw : word = w
      · exact ⟨_, rfl, by simp [hw], by simp [hw, ShowsMissing, hword, hreaches]⟩
      · exact ⟨_, rfl, by simp [hw], by simp [hw, ShowsMissing, hword]⟩
    · rw [if_neg hreaches]
      refine ⟨rfl, fun e he => ⟨e, he, rfl, ?_⟩⟩
      simp [ShowsMissing, hreaches]

theorem observeEdge_cut (next : Row) (k : ℕ) (state : List WordEvidence × ℕ) (p : ℕ × Edge) (w : ℕ) :
    (band.observeEdge backward (some (next, k)) optimum state p).1.length = state.1.length ∧
    ∀ e, state.1[w]? = some e →
      ∃ e', (band.observeEdge backward (some (next, k)) optimum state p).1[w]? = some e' ∧
        (e'.canBeMissing = true ↔ e.canBeMissing = true ∨ ShowsMissing band backward optimum w p) ∧
        (ShowsCandidate band next k optimum w p ∧ e.candidates.getLast? ≠ some k ∧
            e'.candidates = e.candidates ++ [k] ∨
          ¬ (ShowsCandidate band next k optimum w p ∧ e.candidates.getLast? ≠ some k) ∧
            e'.candidates = e.candidates) := by
  -- the first half of the edge is that of the last row
  have hlast := observeEdge_last band backward optimum state p w
  rw [observeEdge] at hlast ⊢
  cases hword : p.2.word with
  | none =>
    exact ⟨rfl, fun e he => ⟨e, he, by simp [ShowsMissing, hword], .inr ⟨by simp [ShowsCandidate, hword], rfl⟩⟩⟩
  | some word =>
    rw [hword] at hlast
    simp only at hlast ⊢
    obtain ⟨hlen, hgets⟩ := hlast
    generalize (if reaches (combined (some p.1) (backward.get (band.graph.rank p.2.target)) 0) optimum =
      true then state.1.modify word fun evidence => { evidence with canBeMissing := true }
      else state.1) = words at hlen hgets ⊢
    by_cases hshows : (band.relation.matchesAt word k &&
        reaches (combined (some p.1) (next.get (band.graph.rank p.2.target)) 1) optimum &&
          decide ((words[word]?).bind (fun evidence => evidence.candidates.getLast?) ≠ some k)) = true
    · rw [if_pos hshows]
      rw [Bool.and_eq_true, Bool.and_eq_true, decide_eq_true_eq] at hshows
      refine ⟨(length_modify _ _ _).trans hlen, ?_⟩
      intro e he
      obtain ⟨e', he', hcandidates, hmissing⟩ := hgets e he
      rw [getElem?_modify_at, he']
      by_cases hw : word = w
      · subst hw
        rw [he', Option.bind_some, hcandidates] at hshows
        refine ⟨_, rfl, by simpa using hmissing, .inl ⟨⟨hword, hshows.1⟩, hshows.2, ?_⟩⟩
        simp [hcandidates]
      · refine ⟨_, rfl, by simpa [hw] using hmissing, .inr ⟨?_, by simp [hw, hcandidates]⟩⟩
        rintro ⟨⟨hsome, -⟩, -⟩
        rw [hword] at hsome
        exact hw (Option.some.inj hsome)
    · rw [if_neg hshows]
      refine ⟨hlen, ?_⟩
      intro e he
      obtain ⟨e', he', hcandidates, hmissing⟩ := hgets e he
      refine ⟨e', he', hmissing, .inr ⟨?_, hcandidates⟩⟩
      rintro ⟨⟨hsome, hmatch, hreaches⟩, hlastNe⟩
      rw [hword] at hsome
      cases hsome
      apply hshows
      rw [he', Option.bind_some, hcandidates, hmatch, hreaches]
      simpa using hlastNe

theorem foldl_observeEdge_last (edges : List (ℕ × Edge)) : ∀ (state : List WordEvidence × ℕ),
    (edges.foldl (band.observeEdge backward none optimum) state).1.length = state.1.length ∧
    ∀ w e, state.1[w]? = some e →
      ∃ e', (edges.foldl (band.observeEdge backward none optimum) state).1[w]? = some e' ∧
        e'.candidates = e.candidates ∧ (e'.canBeMissing = true ↔
          e.canBeMissing = true ∨ ∃ p ∈ edges, ShowsMissing band backward optimum w p) := by
  induction edges with
  | nil => exact fun state => ⟨rfl, fun w e he => ⟨e, he, rfl, by simp⟩⟩
  | cons p edges ih =>
    intro state
    obtain ⟨hlen, hget⟩ := ih (band.observeEdge backward none optimum state p)
    have hfirst := observeEdge_last band backward optimum state p
    refine ⟨hlen.trans (hfirst 0).1, ?_⟩
    intro w e he
    obtain ⟨e', he', hcandidates, hmissing⟩ := (hfirst w).2 e he
    obtain ⟨e'', he'', hcandidates', hmissing'⟩ := hget w e' he'
    refine ⟨e'', he'', hcandidates'.trans hcandidates, ?_⟩
    rw [hmissing', hmissing, exists_mem_cons_iff, or_assoc]

theorem foldl_observeEdge_cut (next : Row) (k : ℕ) (edges : List (ℕ × Edge)) :
    ∀ (state : List WordEvidence × ℕ),
    (edges.foldl (band.observeEdge backward (some (next, k)) optimum) state).1.length = state.1.length ∧
    ∀ w e, state.1[w]? = some e →
      ∃ e', (edges.foldl (band.observeEdge backward (some (next, k)) optimum) state).1[w]? = some e' ∧
        (e'.canBeMissing = true ↔
          e.canBeMissing = true ∨ ∃ p ∈ edges, ShowsMissing band backward optimum w p) ∧
        ((∃ p ∈ edges, ShowsCandidate band next k optimum w p) ∧ e.candidates.getLast? ≠ some k ∧
            e'.candidates = e.candidates ++ [k] ∨
          ¬ ((∃ p ∈ edges, ShowsCandidate band next k optimum w p) ∧ e.candidates.getLast? ≠ some k) ∧
            e'.candidates = e.candidates) := by
  induction edges with
  | nil => exact fun state => ⟨rfl, fun w e he => ⟨e, he, by simp, .inr ⟨by simp, rfl⟩⟩⟩
  | cons p edges ih =>
    intro state
    obtain ⟨hlen, hget⟩ := ih (band.observeEdge backward (some (next, k)) optimum state p)
    have hfirst := observeEdge_cut band backward optimum next k state p
    refine ⟨hlen.trans (hfirst 0).1, ?_⟩
    intro w e he
    obtain ⟨e', he', hmissing, hcandidates⟩ := (hfirst w).2 e he
    obtain ⟨e'', he'', hmissing', hcandidates'⟩ := hget w e' he'
    refine ⟨e'', he'', by rw [hmissing', hmissing, exists_mem_cons_iff, or_assoc], ?_⟩
    rw [exists_mem_cons_iff]
    rcases hcandidates with ⟨hshows, hlast, heq⟩ | ⟨hnot, heq⟩
    · -- the reference stands last now, so no later edge adds it again
      have hadded : e'.candidates.getLast? = some k := by rw [heq, getLast?_concat]
      rcases hcandidates' with ⟨-, hlast', -⟩ | ⟨-, heq'⟩
      · exact absurd hadded hlast'
      · exact .inl ⟨.inl hshows, hlast, heq'.trans heq⟩
    · rw [heq] at hcandidates'
      rcases hcandidates' with ⟨hshows, hlast, heq'⟩ | ⟨hnot', heq'⟩
      · exact .inl ⟨.inr hshows, hlast, heq'⟩
      · refine .inr ⟨?_, heq'⟩
        rintro ⟨hshows | hshows, hlast⟩
        · exact hnot ⟨hshows, hlast⟩
        · exact hnot' ⟨hshows, hlast⟩

end Cut

/-! ## The search -/

def optimum (band : Band) : Score :=
  (band.forwardRow band.referenceLen).get (band.graph.rank band.graph.finish)

def noEvidence (band : Band) : List WordEvidence := List.replicate band.sourceLen ⟨[], false⟩

def evidenceAtEnd (band : Band) : List WordEvidence :=
  (band.observeEdges (band.forwardRow band.referenceLen) band.terminal none band.optimum
    band.noEvidence).1

def evidenceDown (band : Band) : ℕ → List WordEvidence
  | 0 => band.evidenceAtEnd
  | d + 1 =>
    let k := band.referenceLen - 1 - d
    (band.observeEdges (band.forwardRow k) (band.backwardRow (d + 1)) (some (band.backwardRow d, k))
      band.optimum (band.evidenceDown d)).1

/-- The evidence of the whole search, as `MaterializedGraph::observe` gathers it. -/
def evidence (band : Band) : List WordEvidence := band.evidenceDown band.referenceLen

section Exact
variable {words : ℕ} (G : band.graph.Laid words)
include G

variable {d k opt : ℕ}

theorem mem_openEdges (hk : k ≤ band.referenceLen) {t : ℕ} {e : Edge}
    (hhas : ∀ slot, (band.forwardRow k).Has slot → slot < band.graph.nodes) :
    (t, e) ∈ band.openEdges (band.forwardRow k) ↔
      ∃ u, band.graph.Connects u e.word e.target ∧ band.forwardScore u k = some t := by
  have hscore : ∀ u < band.graph.nodes, band.forwardScore u k =
      (band.forwardRow k).get (band.graph.rank u) := by
    intro u hu
    rw [forwardScore, scoresOf, if_pos hu, Nat.min_eq_left hk]
  rw [openEdges, mem_flatMap]
  constructor
  · rintro ⟨slot, hslot, hmem⟩
    have hlt := hhas slot (Row.mem_slots.mp hslot)
    obtain ⟨hrank, hnode⟩ := G.rank_order hlt
    split at hmem
    · cases hmem
    · next score hget =>
      obtain ⟨e', he', heq⟩ := mem_map.mp hmem
      cases heq
      refine ⟨band.graph.order.getD slot 0, he', ?_⟩
      rw [hscore _ hnode, hrank, hget]
  · rintro ⟨u, he, hu⟩
    have hnode := (G.inside _ _ _ he).1
    rw [hscore u hnode] at hu
    refine ⟨band.graph.rank u, Row.mem_slots.mpr (Row.has_of_get hu), ?_⟩
    rw [hu, G.order_rank hnode]
    exact mem_map.mpr ⟨e, he, rfl⟩

theorem forwardRow_has (k slot : ℕ) (h : (band.forwardRow k).Has slot) : slot < band.graph.nodes := by
  cases k with
  | zero => exact slot_lt_of_has G h
  | succ k =>
    have hmem : ∀ slot, slot ∈ (band.row (k + 1) none).slots ↔ (band.row (k + 1) none).Has slot :=
      fun _ => Row.mem_slots
    obtain ⟨-, hfirst, hlen⟩ := fill_get band band.graph.incoming (band.forwardRow k) k pairwise_lt_range'
      (fun slot _ => lt_irrefl slot) hmem (by
        intro slot hslot e he
        have hlt := slot_lt_of_has G ((hmem slot).mp hslot)
        have hgrows := G.grows _ _ _ ((G.incoming _ e).mp he)
        rw [(G.rank_order hlt).1] at hgrows
        exact ⟨hgrows.ne, Nat.not_lt.mpr hgrows.le⟩)
    have hrow : (band.forwardRow (k + 1)).first = (band.row (k + 1) none).first ∧
        (band.forwardRow (k + 1)).scores.length = (band.row (k + 1) none).scores.length := ⟨hfirst, hlen⟩
    rw [Row.Has, hrow.1, hrow.2] at h
    exact slot_lt_of_has G h

omit G in
theorem backwardRow_get {v : ℕ} (hd : d ≤ band.referenceLen) (hv : v < band.graph.nodes) :
    (band.backwardRow d).get (band.graph.rank v) = band.backwardScore v (band.referenceLen - d) := by
  rw [backwardScore, if_pos (Nat.sub_le _ _), scoresOf, if_pos hv, Nat.sub_sub_self hd,
    Nat.min_eq_left hd]

theorem exists_showsMissing {w : ℕ} (hk : k + d = band.referenceLen)
    (hopt : band.optimum = some opt) : (∃ p ∈ band.openEdges (band.forwardRow k),
        ShowsMissing band (band.backwardRow d) band.optimum w p) ↔
      ∃ u u' t t', band.graph.Connects u (some w) u' ∧ band.forwardScore u k = some t ∧
        band.backwardScore u' k = some t' ∧ t + t' = opt := by
  have hcut : band.referenceLen - d = k := by omega
  constructor
  · rintro ⟨⟨t, e⟩, hmem, hword, hreaches⟩
    obtain ⟨u, he, ht⟩ := (mem_openEdges G (by omega) (forwardRow_has G k)).mp hmem
    rw [hopt, reaches_combined] at hreaches
    obtain ⟨t', ht', hsum⟩ := hreaches
    rw [backwardRow_get (by omega) (G.inside _ _ _ he).2, hcut] at ht'
    rw [hword] at he
    exact ⟨u, e.target, t, t', he, ht, ht', hsum⟩
  · rintro ⟨u, u', t, t', he, ht, ht', hsum⟩
    refine ⟨(t, ⟨u', some w⟩), (mem_openEdges G (by omega) (forwardRow_has G k)).mpr ⟨u, he, ht⟩, rfl, ?_⟩
    rw [hopt, reaches_combined, backwardRow_get (by omega) (G.inside _ _ _ he).2, hcut]
    exact ⟨t', ht', hsum⟩

theorem exists_showsCandidate {w : ℕ} (hk : k + (d + 1) = band.referenceLen)
    (hopt : band.optimum = some opt) : (∃ p ∈ band.openEdges (band.forwardRow k),
        ShowsCandidate band (band.backwardRow d) k band.optimum w p) ↔
      ∃ u u' t t', band.graph.Connects u (some w) u' ∧ band.relation.matchesAt w k = true ∧
        band.forwardScore u k = some t ∧ band.backwardScore u' (k + 1) = some t' ∧ t + 1 + t' = opt := by
  have hcut : band.referenceLen - d = k + 1 := by omega
  constructor
  · rintro ⟨⟨t, e⟩, hmem, hword, hmatch, hreaches⟩
    obtain ⟨u, he, ht⟩ := (mem_openEdges G (by omega) (forwardRow_has G k)).mp hmem
    rw [hopt, reaches_combined] at hreaches
    obtain ⟨t', ht', hsum⟩ := hreaches
    rw [backwardRow_get (by omega) (G.inside _ _ _ he).2, hcut] at ht'
    rw [hword] at he
    exact ⟨u, e.target, t, t', he, hmatch, ht, ht', by omega⟩
  · rintro ⟨u, u', t, t', he, hmatch, ht, ht', hsum⟩
    refine ⟨(t, ⟨u', some w⟩), (mem_openEdges G (by omega) (forwardRow_has G k)).mpr ⟨u, he, ht⟩,
      rfl, hmatch, ?_⟩
    rw [hopt, reaches_combined, backwardRow_get (by omega) (G.inside _ _ _ he).2, hcut]
    exact ⟨t', ht', by omega⟩

theorem evidenceDown_spec (hopt : band.optimum = some opt) : ∀ d ≤ band.referenceLen,
    (band.evidenceDown d).length = band.sourceLen ∧ ∀ w e, (band.evidenceDown d)[w]? = some e →
      (e.canBeMissing = true ↔ ∃ u u' k t t', band.graph.Connects u (some w) u' ∧
        band.referenceLen - d ≤ k ∧ k ≤ band.referenceLen ∧ band.forwardScore u k = some t ∧
          band.backwardScore u' k = some t' ∧ t + t' = opt) ∧ e.candidates.Pairwise (· > ·) ∧
      ∀ k, (k ∈ e.candidates ↔ band.referenceLen - d ≤ k ∧ k < band.referenceLen ∧
        ∃ u u' t t', band.graph.Connects u (some w) u' ∧ band.relation.matchesAt w k = true ∧
          band.forwardScore u k = some t ∧ band.backwardScore u' (k + 1) = some t' ∧
            t + 1 + t' = opt) := by
  intro d
  induction d with
  | zero =>
    intro _
    obtain ⟨hlen, hget⟩ := foldl_observeEdge_last band band.terminal band.optimum
      (band.openEdges (band.forwardRow band.referenceLen)) (band.noEvidence, 0)
    refine ⟨hlen.trans length_replicate, ?_⟩
    intro w e he
    have hw : w < band.noEvidence.length := by
      rw [← hlen]
      exact (List.getElem?_eq_some_iff.mp he).1
    have hnone : band.noEvidence[w]? = some ⟨[], false⟩ := by
      rw [noEvidence, getElem?_replicate, if_pos (by rwa [noEvidence, length_replicate] at hw)]
    obtain ⟨e', he', hcandidates, hmissing⟩ := hget w _ hnone
    obtain rfl : e = e' := Option.some.inj (he.symm.trans he')
    have hshows := exists_showsMissing (w := w) G (d := 0) (add_zero _) hopt
    rw [show band.backwardRow 0 = band.terminal from rfl] at hshows
    refine ⟨?_, by rw [hcandidates]; exact Pairwise.nil, ?_⟩
    · rw [hmissing, hshows]
      constructor
      · rintro (h | ⟨u, u', t, t', he, ht, ht', hsum⟩)
        · cases h
        · exact ⟨u, u', band.referenceLen, t, t', he, by omega, le_refl _, ht, ht', hsum⟩
      · rintro ⟨u, u', k, t, t', he, hlow, hhigh, ht, ht', hsum⟩
        obtain rfl : k = band.referenceLen := by omega
        exact .inr ⟨u, u', t, t', he, ht, ht', hsum⟩
    · intro k
      rw [hcandidates]
      refine iff_of_false (by simp) ?_
      omega
  | succ d ih =>
    intro hd
    obtain ⟨hlen, hdown⟩ := ih (by omega)
    have hk : band.referenceLen - 1 - d + (d + 1) = band.referenceLen := by omega
    obtain ⟨hlen', hget⟩ := foldl_observeEdge_cut band (band.backwardRow (d + 1))
      band.optimum (band.backwardRow d) (band.referenceLen - 1 - d)
      (band.openEdges (band.forwardRow (band.referenceLen - 1 - d))) (band.evidenceDown d, 0)
    refine ⟨hlen'.trans hlen, ?_⟩
    intro w e he
    have hw : w < (band.evidenceDown d).length := by
      rw [← hlen']
      exact (List.getElem?_eq_some_iff.mp he).1
    obtain ⟨e', he', hmissing, hcandidates⟩ := hget w _ (getElem?_eq_getElem hw)
    obtain rfl : e = e' := Option.some.inj (he.symm.trans he')
    obtain ⟨hmissingDown, hsorted, hmem⟩ := hdown w _ (getElem?_eq_getElem hw)
    rw [exists_showsMissing G hk hopt, hmissingDown] at hmissing
    -- every candidate so far comes later in the reference
    have hlast : (band.evidenceDown d)[w].candidates.getLast? ≠ some (band.referenceLen - 1 - d) := by
      intro hlast
      have := ((hmem _).mp (mem_of_getLast? hlast)).1
      omega
    rw [exists_showsCandidate G hk hopt] at hcandidates
    refine ⟨?_, ?_⟩
    · rw [hmissing]
      constructor
      · rintro (⟨u, u', k, t, t', he, hlow, hhigh, hrest⟩ | ⟨u, u', t, t', he, hrest⟩)
        · exact ⟨u, u', k, t, t', he, by omega, hhigh, hrest⟩
        · exact ⟨u, u', _, t, t', he, by omega, by omega, hrest⟩
      · rintro ⟨u, u', k, t, t', he, hlow, hhigh, hrest⟩
        rcases lt_or_ge k (band.referenceLen - d) with hlt | hge
        · obtain rfl : k = band.referenceLen - 1 - d := by omega
          exact .inr ⟨u, u', t, t', he, hrest⟩
        · exact .inl ⟨u, u', k, t, t', he, hge, hhigh, hrest⟩
    · rcases hcandidates with ⟨hshows, -, heq⟩ | ⟨hnot, heq⟩
      · rw [heq]
        refine ⟨?_, ?_⟩
        · rw [pairwise_append]
          refine ⟨hsorted, pairwise_singleton _ _, ?_⟩
          intro r hr x hx
          rw [mem_singleton] at hx
          have := ((hmem r).mp hr).1
          omega
        · intro k
          rw [mem_append, mem_singleton, hmem]
          constructor
          · rintro (⟨hlow, hhigh, hrest⟩ | rfl)
            · exact ⟨by omega, hhigh, hrest⟩
            · exact ⟨by omega, by omega, hshows⟩
          · rintro ⟨hlow, hhigh, hrest⟩
            rcases lt_or_ge k (band.referenceLen - d) with hlt | hge
            · exact .inr (by omega)
            · exact .inl ⟨hge, hhigh, hrest⟩
      · rw [heq]
        refine ⟨hsorted, ?_⟩
        intro k
        rw [hmem]
        constructor
        · rintro ⟨hlow, hhigh, hrest⟩
          exact ⟨by omega, hhigh, hrest⟩
        · rintro ⟨hlow, hhigh, hrest⟩
          refine ⟨?_, hhigh, hrest⟩
          rcases lt_or_ge k (band.referenceLen - d) with hlt | hge
          · obtain rfl : k = band.referenceLen - 1 - d := by omega
            exact absurd ⟨hrest, hlast⟩ hnot
          · exact hge

variable (hadmits : band.Admits words)
include hadmits

theorem optimum_eq (hopt : IsOptimum band.graph.Connects band.relation.matchesAt 0
    band.graph.finish band.referenceLen opt) (hle : band.feasible ≤ opt) : band.optimum = some opt := by
  have hscore := (forward_scores G hadmits).optimum hopt hle
  rwa [forwardScore, scoresOf, if_pos G.finish.1, Nat.min_eq_left (le_refl _)] at hscore

theorem evidence_exact (hopt : IsOptimum band.graph.Connects band.relation.matchesAt 0
    band.graph.finish band.referenceLen opt) (hle : band.feasible ≤ opt) :
    ExactEvidence band.graph band.relation band.referenceLen words band.evidence := by
  have hscores := forward_scores G hadmits
  have hsuffixes := backward_suffixes G hadmits
  obtain ⟨hlen, hspec⟩ := evidenceDown_spec G (optimum_eq G hadmits hopt hle) _ (le_refl _)
  rw [hadmits.sourceLen] at hlen
  refine ⟨hlen, ?_, ?_, fun w e he => (hspec w e he).2.1⟩
  · intro w e he
    have hw : w < words := by
      rw [← hlen]
      exact (List.getElem?_eq_some_iff.mp he).1
    rw [(hspec w e he).1, omitted_iff hscores hsuffixes hopt hle (fun σ hσ => G.path_words hσ hw)]
    constructor
    · rintro ⟨u, u', k, t, t', hedge, -, hk, hrest⟩
      exact ⟨u, u', k, t, t', hedge, hk, hrest⟩
    · rintro ⟨u, u', k, t, t', hedge, hk, hrest⟩
      exact ⟨u, u', k, t, t', hedge, by omega, hk, hrest⟩
  · intro w e he r
    rw [(hspec w e he).2.2, taken_iff hscores hsuffixes hopt hle]
    constructor
    · rintro ⟨-, -, hrest⟩
      exact hrest
    · rintro ⟨u, u', t, t', hedge, hmatch, ht, ht', hsum⟩
      -- a score after the reference lies inside it
      have hr : r + 1 ≤ band.referenceLen := by
        by_contra hnot
        rw [backwardScore, if_neg hnot] at ht'
        cases ht'
      exact ⟨by omega, hr, u, u', t, t', hedge, hmatch, ht, ht', hsum⟩

end Exact

end Band

/-! ## Pruning -/

/-- A band's bounds: none, or those observed with the feasible score of the same relation. -/
def BoundsOf (relation : Relation) (feasible : ℕ) (capacity : Option ReferenceCapacity) : Prop :=
  capacity = none ∨ ∃ work, capacity = ReferenceCapacity.observe ⟨relation, feasible, work⟩

def bandOf (prepared : PreparedGraph) (relation : Relation) (feasible block : ℕ)
    (capacity : Option ReferenceCapacity) : Band :=
  ⟨materialize prepared, relation, relation.sourceLen, relation.referenceLen, feasible, block, 0, capacity⟩

/-- Pruning leaves every state on an optimal run, so the optimum and the evidence. -/
structure PrunesNothing (band whole : Band) : Prop where
  unpruned : ∀ k ≤ whole.referenceLen, whole.slots k = (0, whole.graph.order.length)
  keeps : ∀ v k σ τ a c, Run band.graph.Connects band.relation.matchesAt 0 0 v k σ a →
    Run band.graph.Connects band.relation.matchesAt v k band.graph.finish band.referenceLen τ c →
    Longest band.graph.Connects band.relation.matchesAt 0 band.graph.finish band.referenceLen (σ ++ τ) (a ++ c) →
      (band.slots k).1 ≤ band.graph.rank v ∧ band.graph.rank v < (band.slots k).2
  optimum : band.optimum = whole.optimum
  evidence : band.evidence = whole.evidence

theorem admits_bandOf {prepared : PreparedGraph} {words feasible block : ℕ}
    {capacity : Option ReferenceCapacity} (hsource : relation.sourceLen = words)
    (hcapacity : BoundsOf relation feasible capacity) :
    (bandOf prepared relation feasible block capacity).Admits words := by
  refine ⟨hsource, rfl, ?_⟩
  intro c hc
  rcases hcapacity with hnone | ⟨work, hsome⟩
  · rw [show (bandOf prepared relation feasible block capacity).capacity = capacity from rfl, hnone] at hc
    cases hc
  · rw [show (bandOf prepared relation feasible block capacity).capacity = capacity from rfl, hsome] at hc
    have hbounds := ReferenceCapacity.observe_bounds hc
    exact ⟨hbounds.source.trans hsource, hbounds⟩

theorem slots_unpruned {prepared : PreparedGraph} {block k : ℕ}
    (G : (materialize prepared).Laid relation.sourceLen) (hk : k ≤ relation.referenceLen) :
    (bandOf prepared relation 0 block none).slots k = (0, (materialize prepared).order.length) := by
  have hdepths : (bandOf prepared relation 0 block none).depthsAt k = (0, relation.sourceLen) := by
    show (k - (relation.referenceLen - 0), min relation.sourceLen (k + (relation.sourceLen - 0))) = _
    rw [Nat.sub_zero, Nat.sub_eq_zero_of_le hk, Nat.sub_zero, Nat.min_eq_left (Nat.le_add_left _ _)]
  have hall : ∀ v ∈ (materialize prepared).order, (materialize prepared).depth v ≤ relation.sourceLen :=
    fun v hv => G.depth_le (G.mem_order.mp hv)
  rw [Band.slots, hdepths]
  show (partitionPoint (fun node => decide ((materialize prepared).depth node < 0))
      (materialize prepared).order,
    partitionPoint (fun node => decide ((materialize prepared).depth node ≤ relation.sourceLen))
      (materialize prepared).order) = _
  rw [partitionPoint, partitionPoint,
    takeWhile_eq_self_iff.mpr (fun v hv => decide_eq_true (hall v hv))]
  cases (materialize prepared).order <;> simp

/-- Pruning by a feasible score some path reaches changes neither optimum nor evidence. -/
theorem pruning_exact (turns : List SpeakerTurn) (prepared : PreparedGraph) (relation : Relation)
    (feasible block : ℕ) (capacity : Option ReferenceCapacity) (hadmitted : admitGraph turns = .ok prepared)
    (hsource : relation.sourceLen = offsetAt turns turns.length)
    (hfeasible : ∃ σ a, Run (materialize prepared).Connects relation.matchesAt 0 0
      (materialize prepared).finish relation.referenceLen σ a ∧ a.length = feasible)
    (hcapacity : BoundsOf relation feasible capacity) :
    PrunesNothing (bandOf prepared relation feasible block capacity)
      (bandOf prepared relation 0 block none) := by
  have G := laid_of_admitted hadmitted
  have hadmits : (bandOf prepared relation feasible block capacity).Admits
      (offsetAt turns turns.length) := admits_bandOf hsource hcapacity
  have hwhole : (bandOf prepared relation 0 block none).Admits (offsetAt turns turns.length) :=
    admits_bandOf hsource (.inl rfl)
  obtain ⟨σ, a, hrun, rfl⟩ := hfeasible
  obtain ⟨opt, hopt⟩ := exists_isOptimum (M := relation.matchesAt) (n := relation.referenceLen) hrun.path
  have hle := hopt.upper σ a hrun
  refine ⟨fun k hk => slots_unpruned (by rwa [hsource]) hk, ?_, ?_, ?_⟩
  · intro v k σ τ b c hb hc hlongest
    obtain ⟨-, hlen⟩ := hopt.longest_iff.mp hlongest
    rw [length_append] at hlen
    have hkept : (bandOf prepared relation a.length block capacity).Keeps v k :=
      Band.kept_of_runs G hadmits hb hc (by show a.length ≤ _; omega)
    exact (Band.row_has k none _).mp ((Band.has_row_iff G k none hkept.1).mpr hkept)
  · rw [Band.optimum_eq G hadmits hopt hle, Band.optimum_eq G hwhole hopt (Nat.zero_le _)]
  · exact (Band.evidence_exact G hadmits hopt hle).unique
      (Band.evidence_exact G hwhole hopt (Nat.zero_le _))

/-- Two speakers over a reference in the other order, pruned by the bags of one match. -/
theorem pruning_exact_two_speakers : PrunesNothing
      (bandOf ⟨[⟨"A", ["a"], .separate⟩, ⟨"B", ["b"], .separate⟩], 5, [0, 1, 2], [.grid ⟨0, 2⟩ 1 1 4]⟩
        (.literal ["a", "b"] ["b", "a"] .exact) 1 1
        (ReferenceCapacity.observe ⟨.literal ["a", "b"] ["b", "a"] .exact, 1, 0⟩))
      (bandOf ⟨[⟨"A", ["a"], .separate⟩, ⟨"B", ["b"], .separate⟩], 5, [0, 1, 2], [.grid ⟨0, 2⟩ 1 1 4]⟩
        (.literal ["a", "b"] ["b", "a"] .exact) 0 1 none) :=
  pruning_exact [⟨"A", ["a"], .separate⟩, ⟨"B", ["b"], .separate⟩] _ _ 1 1 _ rfl rfl
    ⟨[0, 1], [(0, 1)], Run.pass (w := some 1)
        (Run.take (Run.skip Run.here) (by decide) (by decide) : Run _ _ 0 0 1 2 [0] [(0, 1)]) (by decide),
      rfl⟩
    (.inr ⟨0, rfl⟩)

end Batchalign.Interleaving
