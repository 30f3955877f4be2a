import Batchalign.Fa.PairStep

/- Pass 1 puts the starts in order (`enforce_start_order`). By `StartOrderInv` the lines passed are
   ordered, none starts after the accepted start, and that does not pass the next kept start unless it
   is itself the last kept one. -/
namespace Batchalign.Fa
open List

def Recorded (decisions : List DecisionRecord) (i : ℕ) : Prop :=
  ∃ r ∈ decisions, r.lineIdx = i ∧ r.strategy = .monotonicity .keptBulletLeftUnresolved

theorem Recorded.mono {ds ds' : List DecisionRecord} {i : ℕ} (h : ds <+: ds') (hr : Recorded ds i) :
    Recorded ds' i := by
  obtain ⟨r, hmem, hi⟩ := hr
  exact ⟨r, h.subset hmem, hi⟩

theorem recorded_append_other {ds : List DecisionRecord} {r : DecisionRecord}
    (h : r.strategy ≠ .monotonicity .keptBulletLeftUnresolved) (i : ℕ) :
    Recorded (ds ++ [r]) i ↔ Recorded ds i := by
  refine ⟨?_, Recorded.mono (prefix_append _ _)⟩
  intro hr
  obtain ⟨r', hmem, hi, hstrat⟩ := hr
  rcases mem_append.mp hmem with hmem | hmem
  · exact ⟨r', hmem, hi, hstrat⟩
  · rw [mem_singleton] at hmem
    subst hmem
    exact absurd hstrat h

/-! ## The entries -/

def sourceOf (authority : MainBulletAuthority) (lineIdx utteranceIdx : ℕ) (u : Utterance)
    (bullet : TimeSpan) : StartOrderSource :=
  startOrderSource lineIdx utteranceIdx u bullet (authority.standing utteranceIdx)

theorem sourceOf_facts (authority : MainBulletAuthority) (i k : ℕ) (u : Utterance) (b : TimeSpan) :
    (sourceOf authority i k u b).facts = startOrderEntry i k u b := by
  unfold sourceOf
  cases authority.standing k <;> rfl

/-! ## One step -/

def raisesStart (W : ContentWalker) (facts previous : StartOrderEntry) (u : Utterance) : Bool :=
  facts.precedesMarked && decide (previous.startMs < facts.endMs) &&
    match furthestWordTimingEnd W u with
    | none => true
    | some furthestEnd => decide (previous.startMs < furthestEnd)

def startStrippedLine (W : ContentWalker) (st : StartOrderState) (source : StartOrderSource)
    (nextKept : Option StartOrderEntry) : Option ℕ :=
  match source with
  | .kept _ => none
  | .revisable entry => match getUtterance st.pass.file entry.lineIdx with
    | none => none
    | some u => match entry.classify st.lastAccepted nextKept with
      | .accepted => none
      | .yielding _ => some entry.lineIdx
      | .regressing previous => if raisesStart W entry previous u then none else some entry.lineIdx

def StartStripReaches (W : ContentWalker) (st : StartOrderState)
    (x : StartOrderSource × Option StartOrderEntry) : Prop :=
  ∀ i u, startStrippedLine W st x.1 x.2 = some i → getUtterance st.pass.file i = some u →
    ∀ w ∈ unreachedWords u.content, w.inlineBullet = none

theorem resolveStartRegression_spec (W : ContentWalker) (facts previous : StartOrderEntry)
    (u : Utterance) : (raisesStart W facts previous u = true ∧
      (resolveStartRegression W facts previous u).1 = (raiseBulletStart W u previous.startMs).1 ∧
      ∃ d t, (resolveStartRegression W facts previous u).2 = .raisedToPrecedingStart d t) ∨
    (raisesStart W facts previous u = false ∧
      (resolveStartRegression W facts previous u).1 = (stripUtteranceTiming W u).1 ∧
      ∃ t c, (resolveStartRegression W facts previous u).2 = .stripped t c) := by
  unfold resolveStartRegression raisesStart
  cases hmark : facts.precedesMarked with
  | false => exact .inr ⟨rfl, rfl, _, _, rfl⟩
  | true =>
    by_cases hend : facts.endMs ≤ previous.startMs
    · have hlt : ¬ previous.startMs < facts.endMs := by omega
      simp [hend, hlt]
    · have hlt : previous.startMs < facts.endMs := by omega
      cases hhull : furthestWordTimingEnd W u with
      | none =>
        simp [hend, hlt]
      | some e =>
        by_cases he : previous.startMs < e
        · simp [hend, hlt, he]
        · simp [hend, hlt, he]

/-- What one entry of Pass 1 can do. -/
inductive StartStep (W : ContentWalker) (st : StartOrderState) (source : StartOrderSource)
    (nextKept : Option StartOrderEntry) (st' : StartOrderState) : Prop where
  /-- A kept start below the last kept one is recorded and changes nothing. -/
  | leftUnresolved (e l : StartOrderEntry) (hsource : source = .kept e) (hlast : st.lastKept = some l)
      (hlt : e.startMs < l.startMs) (hnone : startStrippedLine W st source nextKept = none)
      (hfile : st'.pass.file = st.pass.file) (heff : st'.pass.effects = st.pass.effects)
      (hdec : ∃ reason, st'.pass.decisions =
        st.pass.decisions ++ [startOrderRecord e .keptBulletLeftUnresolved reason])
      (hacc : st'.lastAccepted = st.lastAccepted) (hkept : st'.lastKept = st.lastKept)
  /-- Any other kept start is the new accepted one. -/
  | keptAccepted (e : StartOrderEntry) (hsource : source = .kept e)
      (hle : ∀ l, st.lastKept = some l → l.startMs ≤ e.startMs)
      (hnone : startStrippedLine W st source nextKept = none)
      (hpass : st'.pass = st.pass) (hacc : st'.lastAccepted = some e) (hkept : st'.lastKept = some e)
  /-- A revisable start between the accepted one and the next kept one. -/
  | accepted (e : StartOrderEntry) (hsource : source = .revisable e)
      (hle : ∀ a, st.lastAccepted = some a → a.startMs ≤ e.startMs)
      (hnext : ∀ k, nextKept = some k → e.startMs ≤ k.startMs)
      (hnone : startStrippedLine W st source nextKept = none)
      (hpass : st'.pass = st.pass) (hacc : st'.lastAccepted = some e)
      (hkept : st'.lastKept = st.lastKept)
  /-- A marked regression is raised to the accepted start. -/
  | raised (e a : StartOrderEntry) (u : Utterance) (hsource : source = .revisable e)
      (hu : getUtterance st.pass.file e.lineIdx = some u) (hlast : st.lastAccepted = some a)
      (hlt : e.startMs < a.startMs) (hraise : raisesStart W e a u = true)
      (hnone : startStrippedLine W st source nextKept = none)
      (hfile : st'.pass.file = modifyUtterance st.pass.file e.lineIdx fun _ =>
        (raiseBulletStart W u a.startMs).1)
      (hdec : ∃ r, r.strategy ≠ .monotonicity .keptBulletLeftUnresolved ∧
        st'.pass.decisions = st.pass.decisions ++ [r])
      (hacc : st'.lastAccepted = st.lastAccepted) (hkept : st'.lastKept = st.lastKept)
  /-- A line that cannot keep its place loses its timing. -/
  | stripped (e : StartOrderEntry) (u : Utterance) (hsource : source = .revisable e)
      (hu : getUtterance st.pass.file e.lineIdx = some u)
      (hwhy : (∃ a, st.lastAccepted = some a ∧ e.startMs < a.startMs) ∨
        ∃ k, nextKept = some k ∧ k.startMs < e.startMs)
      (hline : startStrippedLine W st source nextKept = some e.lineIdx)
      (hfile : st'.pass.file = modifyUtterance st.pass.file e.lineIdx fun _ =>
        (stripUtteranceTiming W u).1)
      (hdec : ∃ r, r.strategy ≠ .monotonicity .keptBulletLeftUnresolved ∧
        st'.pass.decisions = st.pass.decisions ++ [r])
      (hacc : st'.lastAccepted = st.lastAccepted) (hkept : st'.lastKept = st.lastKept)

theorem classify_of_previous (e : StartOrderEntry) {previous : Option StartOrderEntry}
    (nextKept : Option StartOrderEntry) (hle : ∀ a, previous = some a → a.startMs ≤ e.startMs) :
    e.classify previous nextKept = match nextKept.filter fun kept => kept.startMs < e.startMs with
      | some kept => .yielding kept
      | none => .accepted := by
  have hfilter : (previous.filter fun a => decide (e.startMs < a.startMs)) = none := by
    rw [Option.filter_eq_none_iff]
    intro a ha
    simpa using hle a ha
  cases hnext : nextKept.filter fun kept => decide (kept.startMs < e.startMs) <;>
    simp [StartOrderEntry.classify, hfilter, hnext]

theorem classify_spec (e : StartOrderEntry) (previous nextKept : Option StartOrderEntry) :
    (∃ a, previous = some a ∧ e.startMs < a.startMs ∧ e.classify previous nextKept = .regressing a) ∨
    ((∀ a, previous = some a → a.startMs ≤ e.startMs) ∧
      ∃ k, nextKept = some k ∧ k.startMs < e.startMs ∧ e.classify previous nextKept = .yielding k) ∨
    ((∀ a, previous = some a → a.startMs ≤ e.startMs) ∧ (∀ k, nextKept = some k → e.startMs ≤ k.startMs) ∧
      e.classify previous nextKept = .accepted) := by
  by_cases hreg : ∃ a, previous = some a ∧ e.startMs < a.startMs
  · obtain ⟨a, ha, hlt⟩ := hreg
    left
    subst ha
    exact ⟨a, rfl, hlt, by simp [StartOrderEntry.classify, Option.filter, hlt]⟩
  · have hle : ∀ a, previous = some a → a.startMs ≤ e.startMs := by
      intro a ha
      by_contra hlt
      exact hreg ⟨a, ha, by omega⟩
    right
    by_cases hyield : ∃ k, nextKept = some k ∧ k.startMs < e.startMs
    · obtain ⟨k, hk, hlt⟩ := hyield
      subst hk
      left
      exact ⟨hle, k, rfl, hlt, by rw [classify_of_previous e _ hle]; simp [Option.filter, hlt]⟩
    · have hnext : ∀ k, nextKept = some k → e.startMs ≤ k.startMs := by
        intro k hk
        by_contra hlt
        exact hyield ⟨k, hk, by omega⟩
      right
      refine ⟨hle, hnext, ?_⟩
      have hfilter : (nextKept.filter fun k => decide (k.startMs < e.startMs)) = none := by
        rw [Option.filter_eq_none_iff]
        intro k hk
        simpa using hnext k hk
      simp only [classify_of_previous e nextKept hle, hfilter]

theorem startStep_spec (W : ContentWalker) (st : StartOrderState) (source : StartOrderSource)
    (nextKept : Option StartOrderEntry)
    (hlive : ∃ u, getUtterance st.pass.file source.facts.lineIdx = some u) :
    StartStep W st source nextKept (startOrderStep W st source nextKept) := by
  cases source with
  | kept e =>
    by_cases hreg : ∃ l, st.lastKept = some l ∧ e.startMs < l.startMs
    · obtain ⟨l, hl, hlt⟩ := hreg
      have hstep : keptStartStep st e = { st with pass := { st.pass with
          decisions := st.pass.decisions ++ [startOrderRecord e .keptBulletLeftUnresolved
            ("non_monotonic kept_main_bullet start_ms=" ++ toString e.startMs ++
              " previous_start_ms=" ++ toString l.startMs ++ " previous_line_idx=" ++
              toString l.lineIdx ++ " previous_speaker=" ++ l.speaker)] } } := by
        simp [keptStartStep, hl, Option.filter, hlt]
      rw [startOrderStep, hstep]
      exact .leftUnresolved e l rfl hl hlt rfl rfl rfl ⟨_, rfl⟩ rfl rfl
    · have hle : ∀ l, st.lastKept = some l → l.startMs ≤ e.startMs := by
        intro l hl
        by_contra hlt
        exact hreg ⟨l, hl, by omega⟩
      have hstep : keptStartStep st e = { st with lastKept := some e, lastAccepted := some e } := by
        have hfilter : (st.lastKept.filter fun l => decide (e.startMs < l.startMs)) = none := by
          rw [Option.filter_eq_none_iff]
          intro l hl
          simpa using hle l hl
        simp only [keptStartStep, hfilter]
      rw [startOrderStep, hstep]
      exact .keptAccepted e rfl hle rfl rfl rfl rfl
  | revisable e =>
    obtain ⟨u, hu⟩ := hlive
    change getUtterance st.pass.file e.lineIdx = some u at hu
    rcases classify_spec e st.lastAccepted nextKept with
      ⟨a, ha, hlt, hcls⟩ | ⟨hle, k, hk, hlt, hcls⟩ | ⟨hle, hnext, hcls⟩
    · have hstep : startOrderStep W st (.revisable e) nextKept = regressingStep W st e a u := by
        simp only [startOrderStep, hu, hcls]
      have hline : startStrippedLine W st (.revisable e) nextKept =
          if raisesStart W e a u then none else some e.lineIdx := by
        simp only [startStrippedLine, hu, hcls]
      rw [hstep]
      rcases resolveStartRegression_spec W e a u with
        ⟨hraise, hfst, d, t, hsnd⟩ | ⟨hraise, hfst, t, c, hsnd⟩
      · rw [hraise] at hline
        simp only [regressingStep, hsnd, hfst]
        exact .raised e a u rfl hu ha hlt hraise hline rfl ⟨_, by simp [startOrderRecord], rfl⟩ rfl rfl
      · rw [hraise] at hline
        simp only [regressingStep, hsnd, hfst]
        exact .stripped e u rfl hu (.inl ⟨a, ha, hlt⟩) hline rfl ⟨_, by simp [startOrderRecord], rfl⟩
          rfl rfl
    · have hstep : startOrderStep W st (.revisable e) nextKept = yieldingStep W st e k u := by
        simp only [startOrderStep, hu, hcls]
      rw [hstep]
      exact .stripped e u rfl hu (.inr ⟨k, hk, hlt⟩) (by simp only [startStrippedLine, hu, hcls]) rfl
        ⟨_, by simp [startOrderRecord], rfl⟩ rfl rfl
    · have hstep : startOrderStep W st (.revisable e) nextKept =
          { st with lastAccepted := some e } := by
        simp only [startOrderStep, hu, hcls]
      rw [hstep]
      exact .accepted e rfl hle hnext (by simp only [startStrippedLine, hu, hcls]) rfl rfl rfl

/-! ## The invariant of the sweep -/

/-- Line `i` lies before every entry still to come. -/
def Passed (rest : List StartOrderSource) (i : ℕ) : Prop := ∀ x ∈ rest, i < x.facts.lineIdx

/-- The state of the sweep with the entries `rest` still to come. -/
structure StartOrderInv (authority : MainBulletAuthority) (ord : ℕ → ℕ) (file : ChatFile)
    (st : StartOrderState) (rest : List StartOrderSource) : Prop where
  accepted : Accepted authority ord st.pass.file
  live : ∀ x ∈ rest, ∃ u b, getUtterance st.pass.file x.facts.lineIdx = some u ∧
    u.parsedBullet = some b ∧ x = sourceOf authority x.facts.lineIdx (ord x.facts.lineIdx) u b
  sorted : rest.Pairwise fun x y => x.facts.lineIdx < y.facts.lineIdx
  covered : ∀ i b, bulletAt st.pass.file i = some b →
    (∃ x ∈ rest, x.facts.lineIdx = i) ∨ Passed rest i
  ordered : ∀ i j b c, i < j → Passed rest j → ¬ Recorded st.pass.decisions i →
    ¬ Recorded st.pass.decisions j → bulletAt st.pass.file i = some b →
    bulletAt st.pass.file j = some c → b.startMs ≤ c.startMs
  recorded : ∀ j, Recorded st.pass.decisions j → Passed rest j ∧
    authority.keptBullet (ord j) ≠ none ∧ ∀ c, bulletAt st.pass.file j = some c →
    ∃ k b, k < j ∧ ¬ Recorded st.pass.decisions k ∧ authority.keptBullet (ord k) ≠ none ∧
      bulletAt st.pass.file k = some b ∧ c.startMs < b.startMs
  accepted_max : ∀ i b, Passed rest i → ¬ Recorded st.pass.decisions i →
    bulletAt st.pass.file i = some b → ∃ a, st.lastAccepted = some a ∧ b.startMs ≤ a.startMs
  last_kept : ∀ l, st.lastKept = some l → Passed rest l.lineIdx ∧
    ¬ Recorded st.pass.decisions l.lineIdx ∧ authority.keptBullet (ord l.lineIdx) ≠ none ∧
    (∃ b, bulletAt st.pass.file l.lineIdx = some b ∧ b.startMs = l.startMs) ∧
    ∃ a, st.lastAccepted = some a ∧ l.startMs ≤ a.startMs
  next_kept : ∀ k a, rest.findSome? StartOrderSource.kept? = some k → st.lastAccepted = some a →
    a.startMs ≤ k.startMs ∨ ∃ l, st.lastKept = some l ∧ a.startMs = l.startMs
  kept_unchanged : ∀ i, authority.keptBullet (ord i) ≠ none →
    getUtterance st.pass.file i = getUtterance file i

section Sweep
variable {W : ContentWalker} {authority : MainBulletAuthority} {ord : ℕ → ℕ} {file : ChatFile}
  {st st' : StartOrderState} {x : StartOrderSource} {rest : List StartOrderSource}

theorem StartOrderInv.passed_head (h : StartOrderInv authority ord file st (x :: rest)) :
    Passed rest x.facts.lineIdx := (pairwise_cons.mp h.sorted).1

variable {i : ℕ} {e : StartOrderEntry} {sources : List StartOrderSource}

theorem Passed.tail (h : Passed (x :: rest) i) : Passed rest i :=
  fun y hy => h y (mem_cons_of_mem x hy)

theorem Passed.lt_head (h : Passed (x :: rest) i) : i < x.facts.lineIdx := h x (by simp)

section
variable (h : StartOrderInv authority ord file st (x :: rest))
include h

theorem StartOrderInv.passed_cases {b : TimeSpan} (hb : bulletAt st.pass.file i = some b) (hi : Passed rest i) :
    Passed (x :: rest) i ∨ i = x.facts.lineIdx := by
  rcases h.covered i b hb with ⟨y, hy, hyi⟩ | hpassed
  · rcases mem_cons.mp hy with hyx | hy
    · subst hyx
      exact .inr hyi.symm
    · have := hi y hy
      omega
  · exact .inl hpassed

theorem StartOrderInv.covered_tail {c : TimeSpan} (hc : bulletAt st.pass.file i = some c) :
    (∃ y ∈ rest, y.facts.lineIdx = i) ∨ Passed rest i := by
  rcases h.covered i c hc with ⟨y, hy, hyi⟩ | hpassed
  · rcases mem_cons.mp hy with hyx | hy
    · subst hyx
      exact .inr (hyi ▸ h.passed_head)
    · exact .inl ⟨y, hy, hyi⟩
  · exact .inr hpassed.tail

theorem StartOrderInv.head :
    ∃ u b, getUtterance st.pass.file x.facts.lineIdx = some u ∧ u.parsedBullet = some b ∧
      bulletAt st.pass.file x.facts.lineIdx = some b ∧ x.facts.startMs = b.startMs ∧
      x.facts.endMs = b.endMs ∧ (∀ e, x = .kept e → authority.keptBullet (ord e.lineIdx) ≠ none) ∧
      (∀ e, x = .revisable e → authority.keptBullet (ord e.lineIdx) = none) := by
  obtain ⟨u, b, hu, hb, hx⟩ := h.live x (by simp)
  have hfacts : x.facts = startOrderEntry x.facts.lineIdx (ord x.facts.lineIdx) u b := by
    rw [← sourceOf_facts authority, ← hx]
  refine ⟨u, b, hu, hb, by rw [bulletAt_eq hu, hb], ?_, ?_, ?_, ?_⟩
  · rw [hfacts]
    rfl
  · rw [hfacts]
    rfl
  · intro e he
    subst he
    cases hst : authority.standing (ord e.lineIdx) with
    | readOnly kept =>
      rw [MainBulletAuthority.standing_readOnly hst]
      simp
    | revisable =>
      change StartOrderSource.kept e = sourceOf authority e.lineIdx (ord e.lineIdx) u b at hx
      simp [sourceOf, startOrderSource, hst] at hx
  · intro e he
    subst he
    cases hst : authority.standing (ord e.lineIdx) with
    | revisable => exact MainBulletAuthority.standing_revisable hst
    | readOnly kept =>
      change StartOrderSource.revisable e = sourceOf authority e.lineIdx (ord e.lineIdx) u b at hx
      simp [sourceOf, startOrderSource, hst] at hx

theorem StartOrderInv.live_tail
    (hfile : ∀ i, i ≠ x.facts.lineIdx → getUtterance st'.pass.file i = getUtterance st.pass.file i) :
    ∀ y ∈ rest, ∃ u b, getUtterance st'.pass.file y.facts.lineIdx = some u ∧
      u.parsedBullet = some b ∧ y = sourceOf authority y.facts.lineIdx (ord y.facts.lineIdx) u b := by
  intro y hy
  obtain ⟨u, b, hu, hb, hysrc⟩ := h.live y (mem_cons_of_mem x hy)
  have hne : y.facts.lineIdx ≠ x.facts.lineIdx := by
    have := h.passed_head y hy
    omega
  exact ⟨u, b, by rw [hfile _ hne]; exact hu, hb, hysrc⟩

theorem StartOrderInv.accepts (hle : ∀ a, st.lastAccepted = some a → a.startMs ≤ x.facts.startMs)
    (hpass : st'.pass = st.pass) (hacc : st'.lastAccepted = some x.facts)
    (hlast : ∀ l, st'.lastKept = some l → st.lastKept = some l ∨ x = .kept l)
    (hnext : ∀ k, rest.findSome? StartOrderSource.kept? = some k → x.facts.startMs ≤ k.startMs ∨
      ∃ l, st'.lastKept = some l ∧ x.facts.startMs = l.startMs) :
    StartOrderInv authority ord file st' rest := by
  obtain ⟨u, b, hu, hb, hbAt, hstart, _, hk, _⟩ := h.head
  have hbelow : ∀ i c, Passed rest i → ¬ Recorded st.pass.decisions i →
      bulletAt st.pass.file i = some c → c.startMs ≤ x.facts.startMs := by
    intro i c hi hri hc
    rcases h.passed_cases hc hi with hpassed | heq
    · obtain ⟨a, ha, hca⟩ := h.accepted_max i c hpassed hri hc
      exact le_trans hca (hle a ha)
    · subst heq
      cases hbAt.symm.trans hc
      omega
  refine ⟨by rw [hpass]; exact h.accepted, h.live_tail (fun i _ => by rw [hpass]), (pairwise_cons.mp h.sorted).2,
    ?_, ?_, ?_, ?_, ?_, ?_, by rw [hpass]; exact h.kept_unchanged⟩
  · intro i c hc
    rw [hpass] at hc
    exact h.covered_tail hc
  · intro i j c d hij hj hri hrj hc hd
    rw [hpass] at hri hrj hc hd
    rcases h.passed_cases hd hj with hpassed | heq
    · exact h.ordered i j c d hij hpassed hri hrj hc hd
    · subst heq
      cases hbAt.symm.trans hd
      rw [← hstart]
      refine hbelow i c ?_ hri hc
      intro y hy
      have := hj y hy
      omega
  · intro j hr
    rw [hpass] at hr ⊢
    obtain ⟨hp, hkj, hex⟩ := h.recorded j hr
    exact ⟨hp.tail, hkj, hex⟩
  · intro i c hi hri hc
    rw [hpass] at hri hc
    exact ⟨_, hacc, hbelow i c hi hri hc⟩
  · intro l hl
    rw [hpass]
    rcases hlast l hl with hl | hx
    · obtain ⟨h1, h2, h3, h4, a, ha, hla⟩ := h.last_kept l hl
      exact ⟨h1.tail, h2, h3, h4, _, hacc, le_trans hla (hle a ha)⟩
    · -- a kept line not yet passed cannot have been recorded
      have hnr : ¬ Recorded st.pass.decisions x.facts.lineIdx :=
        fun hr => lt_irrefl _ ((h.recorded _ hr).1 x (by simp))
      subst hx
      exact ⟨h.passed_head, hnr, hk l rfl, ⟨b, hbAt, hstart.symm⟩, _, hacc, le_refl _⟩
  · intro k a hk' ha
    cases hacc.symm.trans ha
    exact hnext k hk'

end

theorem StartOrderInv.step_kept (h : StartOrderInv authority ord file st (.kept e :: rest))
    (hle : ∀ l, st.lastKept = some l → l.startMs ≤ e.startMs) (hpass : st'.pass = st.pass)
    (hacc : st'.lastAccepted = some e) (hkept : st'.lastKept = some e) :
    StartOrderInv authority ord file st' rest := by
  refine h.accepts ?_ hpass hacc ?_ fun _ _ => .inr ⟨e, hkept, rfl⟩
  · intro a ha
    rcases h.next_kept e a rfl ha with hle' | ⟨l, hl, hal⟩
    · exact hle'
    · rw [hal]
      exact hle l hl
  · intro l hl
    rw [hkept, Option.some.injEq] at hl
    exact .inr (congrArg _ hl)

theorem StartOrderInv.step_unresolved {l : StartOrderEntry}
    (h : StartOrderInv authority ord file st (.kept e :: rest)) (hlast : st.lastKept = some l)
    (hlt : e.startMs < l.startMs) (hfile : st'.pass.file = st.pass.file)
    (hdec : ∃ reason, st'.pass.decisions =
      st.pass.decisions ++ [startOrderRecord e .keptBulletLeftUnresolved reason])
    (hacc : st'.lastAccepted = st.lastAccepted) (hkept : st'.lastKept = st.lastKept) :
    StartOrderInv authority ord file st' rest := by
  obtain ⟨u, b, hu, hb, hbAt, hstart, _, hk, _⟩ := h.head
  change bulletAt st.pass.file e.lineIdx = some b at hbAt
  change e.startMs = b.startMs at hstart
  have hke := hk e rfl
  obtain ⟨reason, hdec⟩ := hdec
  have hrec : ∀ i, Recorded st'.pass.decisions i ↔ Recorded st.pass.decisions i ∨ i = e.lineIdx := by
    intro i
    rw [hdec]
    refine ⟨?_, ?_⟩
    · intro hr
      obtain ⟨r, hmem, hri, hs⟩ := hr
      rcases mem_append.mp hmem with hmem | hmem
      · exact .inl ⟨r, hmem, hri, hs⟩
      · rw [mem_singleton] at hmem
        subst hmem
        exact .inr hri.symm
    · intro hr
      rcases hr with hr | heq
      · exact hr.mono (prefix_append _ _)
      · subst heq
        exact ⟨_, mem_append_right _ (mem_singleton.mpr rfl), rfl, rfl⟩
  obtain ⟨hlp, hlr, hlk, ⟨lb, hlb, hls⟩, a, ha, hla⟩ := h.last_kept l hlast
  refine ⟨by rw [hfile]; exact h.accepted, h.live_tail (fun i _ => by rw [hfile]),
    (pairwise_cons.mp h.sorted).2, ?_, ?_, ?_, ?_, ?_, ?_, by rw [hfile]; exact h.kept_unchanged⟩
  · intro i c hc
    rw [hfile] at hc
    exact h.covered_tail hc
  · intro i j c d hij hj hri hrj hc hd
    rw [hfile] at hc hd
    rw [hrec] at hri hrj
    rw [not_or] at hri hrj
    rcases h.passed_cases hd hj with hpassed | heq
    · exact h.ordered i j c d hij hpassed hri.1 hrj.1 hc hd
    · exact absurd heq hrj.2
  · intro j hr
    rw [hrec] at hr
    rw [hfile]
    have hlift : ∀ k, ¬ Recorded st.pass.decisions k → k < e.lineIdx →
        ¬ Recorded st'.pass.decisions k := by
      intro k hk hke' hr'
      rcases (hrec k).mp hr' with hr' | heq
      · exact hk hr'
      · omega
    rcases hr with hr | heq
    · obtain ⟨hp, hkj, hex⟩ := h.recorded j hr
      refine ⟨hp.tail, hkj, ?_⟩
      intro c hc
      obtain ⟨k, d, hkj', hkr, hkk, hd, hcd⟩ := hex c hc
      have := hp.lt_head
      change j < e.lineIdx at this
      exact ⟨k, d, hkj', hlift k hkr (by omega), hkk, hd, hcd⟩
    · subst heq
      refine ⟨h.passed_head, hke, ?_⟩
      intro c hc
      cases hbAt.symm.trans hc
      have hle := hlp.lt_head
      exact ⟨l.lineIdx, lb, hle, hlift _ hlr hle, hlk, hlb, by omega⟩
  · intro i c hi hri hc
    rw [hfile] at hc
    rw [hrec] at hri
    rw [not_or] at hri
    rw [hacc]
    rcases h.passed_cases hc hi with hpassed | heq
    · exact h.accepted_max i c hpassed hri.1 hc
    · exact absurd heq hri.2
  · intro l' hl'
    rw [hkept] at hl'
    obtain ⟨h1, h2, h3, h4, h5⟩ := h.last_kept l' hl'
    have := h1.lt_head
    change l'.lineIdx < e.lineIdx at this
    rw [hfile, hacc]
    refine ⟨h1.tail, ?_, h3, h4, h5⟩
    intro hr
    rcases (hrec _).mp hr with hr | heq
    · exact h2 hr
    · omega
  · -- the accepted start is the last kept one: no revisable start fits between
    intro k a' _ ha'
    rw [hacc] at ha'
    right
    cases ha.symm.trans ha'
    rw [hkept]
    rcases h.next_kept e a rfl ha with hle | heq
    · omega
    · exact heq

theorem StartOrderInv.step_accepted (h : StartOrderInv authority ord file st (.revisable e :: rest))
    (hle : ∀ a, st.lastAccepted = some a → a.startMs ≤ e.startMs)
    (hnext : ∀ k, rest.findSome? StartOrderSource.kept? = some k → e.startMs ≤ k.startMs)
    (hpass : st'.pass = st.pass) (hacc : st'.lastAccepted = some e)
    (hkept : st'.lastKept = st.lastKept) : StartOrderInv authority ord file st' rest :=
  h.accepts hle hpass hacc (fun _ hl => .inl (hkept ▸ hl)) fun k hk => .inl (hnext k hk)

theorem StartOrderInv.step_rewritten {u u' : Utterance}
    (h : StartOrderInv authority ord file st (.revisable e :: rest))
    (hu : getUtterance st.pass.file e.lineIdx = some u)
    (hnew : ∀ c, u'.parsedBullet = some c → ∃ a, st.lastAccepted = some a ∧ c.startMs = a.startMs)
    (hfile : st'.pass.file = modifyUtterance st.pass.file e.lineIdx fun _ => u')
    (hdec : ∃ r, r.strategy ≠ .monotonicity .keptBulletLeftUnresolved ∧
      st'.pass.decisions = st.pass.decisions ++ [r])
    (hacc : st'.lastAccepted = st.lastAccepted) (hkept : st'.lastKept = st.lastKept) :
    StartOrderInv authority ord file st' rest := by
  obtain ⟨v, b, hv, hb, hbAt, _, _, _, hk⟩ := h.head
  cases hu.symm.trans hv
  have hke := hk e rfl
  obtain ⟨r, hr, hdec⟩ := hdec
  have hrec : ∀ i, Recorded st'.pass.decisions i ↔ Recorded st.pass.decisions i := by
    intro i
    rw [hdec]
    exact recorded_append_other hr i
  have hself : bulletAt st'.pass.file e.lineIdx = u'.parsedBullet := by
    rw [hfile]
    exact bulletAt_modify_self hu
  have hne : ∀ i, e.lineIdx ≠ i → bulletAt st'.pass.file i = bulletAt st.pass.file i := by
    intro i hi
    rw [hfile]
    exact bulletAt_modify_ne hi
  have hnotKept : ∀ k, authority.keptBullet (ord k) ≠ none → e.lineIdx ≠ k := by
    intro k hkk heq
    subst heq
    exact hkk hke
  refine ⟨?_, ?_, (pairwise_cons.mp h.sorted).2, ?_, ?_, ?_, ?_, ?_, ?_, ?_⟩
  · rw [hfile]
    exact h.accepted.edit hu hb hke
  · apply h.live_tail
    intro i hi
    rw [hfile]
    exact getUtterance_modifyUtterance_ne (Ne.symm hi)
  · intro i c hc
    by_cases hei : e.lineIdx = i
    · subst hei
      exact .inr h.passed_head
    · rw [hne i hei] at hc
      exact h.covered_tail hc
  · intro i j c d hij hj hri hrj hc hd
    rw [hrec] at hri hrj
    by_cases hej : e.lineIdx = j
    · -- the rewritten line comes last: it starts at the accepted start
      subst hej
      rw [hself] at hd
      obtain ⟨a, ha, hda⟩ := hnew d hd
      rw [hne i (by omega)] at hc
      have hpassed : Passed (.revisable e :: rest) i := by
        intro y hy
        rcases mem_cons.mp hy with hyx | hy
        · subst hyx
          exact hij
        · have := hj y hy
          omega
      obtain ⟨a', ha', hca⟩ := h.accepted_max i c hpassed hri hc
      cases ha.symm.trans ha'
      omega
    · rw [hne j hej] at hd
      rcases h.passed_cases hd hj with hpassed | heq
      · have hei : e.lineIdx ≠ i := by
          have := hpassed.lt_head
          change j < e.lineIdx at this
          omega
        rw [hne i hei] at hc
        exact h.ordered i j c d hij hpassed hri hrj hc hd
      · exact absurd heq.symm hej
  · intro j hrj
    rw [hrec] at hrj
    obtain ⟨hp, hkj, hex⟩ := h.recorded j hrj
    refine ⟨hp.tail, hkj, ?_⟩
    intro c hc
    rw [hne j (hnotKept j hkj)] at hc
    obtain ⟨k, d, hkj', hkr, hkk, hd, hcd⟩ := hex c hc
    refine ⟨k, d, hkj', by rw [hrec]; exact hkr, hkk, ?_, hcd⟩
    rw [hne k (hnotKept k hkk)]
    exact hd
  · intro i c hi hri hc
    rw [hrec] at hri
    rw [hacc]
    by_cases hei : e.lineIdx = i
    · subst hei
      rw [hself] at hc
      obtain ⟨a, ha, hca⟩ := hnew c hc
      exact ⟨a, ha, le_of_eq hca⟩
    · rw [hne i hei] at hc
      rcases h.passed_cases hc hi with hpassed | heq
      · exact h.accepted_max i c hpassed hri hc
      · exact absurd heq.symm hei
  · intro l hl
    rw [hkept] at hl
    obtain ⟨h1, h2, h3, h4, h5⟩ := h.last_kept l hl
    rw [hrec, hacc, hne _ (hnotKept _ h3)]
    exact ⟨h1.tail, h2, h3, h4, h5⟩
  · intro k a hk' ha
    rw [hacc] at ha
    rw [hkept]
    exact h.next_kept k a hk' ha
  · intro i hi
    rw [hfile, getUtterance_modifyUtterance_ne (hnotKept i hi)]
    exact h.kept_unchanged i hi

theorem startStripReaches_of_none {next : Option StartOrderEntry}
    (h : startStrippedLine W st x next = none) : StartStripReaches W st (x, next) := by
  intro i u hi
  rw [h] at hi
  simp at hi

section
variable (h : StartOrderInv authority ord file st (x :: rest))
include h

theorem StartOrderInv.step (hstep : StartStep W st x (rest.findSome? StartOrderSource.kept?) st') :
    StartOrderInv authority ord file st' rest := by
  cases hstep with
  | leftUnresolved e l hsource hlast hlt _ hfile _ hdec hacc hkept =>
    subst hsource
    exact h.step_unresolved hlast hlt hfile hdec hacc hkept
  | keptAccepted e hsource hle _ hpass hacc hkept =>
    subst hsource
    exact h.step_kept hle hpass hacc hkept
  | accepted e hsource hle hnext _ hpass hacc hkept =>
    subst hsource
    exact h.step_accepted hle hnext hpass hacc hkept
  | raised e a u hsource hu hlast _ _ _ hfile hdec hacc hkept =>
    subst hsource
    apply h.step_rewritten hu _ hfile hdec hacc hkept
    intro c hc
    rw [parsedBullet_raiseBulletStart] at hc
    obtain ⟨b, _, rfl⟩ := Option.map_eq_some_iff.mp hc
    exact ⟨a, hlast, rfl⟩
  | stripped e u hsource hu _ _ hfile hdec hacc hkept =>
    subst hsource
    apply h.step_rewritten hu _ hfile hdec hacc hkept
    intro c hc
    exact absurd hc (by simp [Utterance.parsedBullet])

theorem StartOrderInv.step_contained (hc : Contained authority ord st.pass.file)
    (hstep : StartStep W st x (rest.findSome? StartOrderSource.kept?) st') :
    Contained authority ord st'.pass.file := by
  cases hstep with
  | leftUnresolved _ _ _ _ _ _ hfile _ _ _ _ =>
    rw [hfile]
    exact hc
  | keptAccepted _ _ _ _ hpass _ _ =>
    rw [hpass]
    exact hc
  | accepted _ _ _ _ _ hpass _ _ =>
    rw [hpass]
    exact hc
  | raised e a u hsource hu _ _ hraise _ hfile _ _ _ =>
    subst hsource
    obtain ⟨v, b, hv, hb, _, _, hend, _, _⟩ := h.head
    change getUtterance st.pass.file e.lineIdx = some v at hv
    change e.endMs = b.endMs at hend
    cases hu.symm.trans hv
    rw [hfile]
    refine hc.rebullet hu (a := ⟨a.startMs, b.endMs⟩)
      (by rw [parsedBullet_raiseBulletStart, hb]; rfl) ?_ (words_raiseBulletStart (hc.words _ _ _ hu hb))
    have hroom : a.startMs < e.endMs := by
      simp only [raisesStart, Bool.and_eq_true, decide_eq_true_eq] at hraise
      exact hraise.1.2
    change a.startMs < b.endMs
    omega
  | stripped e u _ hu _ _ hfile _ _ _ =>
    rw [hfile]
    exact hc.strip hu rfl

theorem StartOrderInv.step_housed (hstep : StartStep W st x (rest.findSome? StartOrderSource.kept?) st') :
    Housed st'.pass.file ↔ Housed st.pass.file ∧
      StartStripReaches W st (x, rest.findSome? StartOrderSource.kept?) := by
  have hkeep : startStrippedLine W st x (rest.findSome? StartOrderSource.kept?) = none →
      (Housed st'.pass.file ↔ Housed st.pass.file) →
      (Housed st'.pass.file ↔ Housed st.pass.file ∧
        StartStripReaches W st (x, rest.findSome? StartOrderSource.kept?)) := by
    intro hnone hiff
    rw [hiff]
    exact ⟨fun hh => ⟨hh, startStripReaches_of_none hnone⟩, fun hh => hh.1⟩
  cases hstep with
  | leftUnresolved _ _ _ _ _ hnone hfile _ _ _ _ =>
    apply hkeep hnone
    rw [hfile]
  | keptAccepted _ _ _ hnone hpass _ _ =>
    apply hkeep hnone
    rw [hpass]
  | accepted _ _ _ _ hnone hpass _ _ =>
    apply hkeep hnone
    rw [hpass]
  | raised e a u hsource hu _ _ _ hnone hfile _ _ _ =>
    subst hsource
    obtain ⟨v, b, hv, hb, _⟩ := h.head
    cases hu.symm.trans hv
    apply hkeep hnone
    rw [hfile]
    exact housed_modify_bulleted hu (by rw [hb]; simp)
      (by rw [parsedBullet_raiseBulletStart, hb]; simp)
  | stripped e u hsource hu _ hline hfile _ _ _ =>
    subst hsource
    obtain ⟨v, b, hv, hb, _⟩ := h.head
    cases hu.symm.trans hv
    rw [hfile, housed_strip W hu (by rw [hb]; simp)]
    refine and_congr_right fun _ => ⟨?_, fun hr => hr e.lineIdx u hline hu⟩
    intro hw i v' hi hv'
    cases hline.symm.trans hi
    cases hu.symm.trans hv'
    exact hw

end

theorem collectSources_inv {s : PassState} (hacc : Accepted authority ord s.file)
    (hdec : s.decisions = []) :
    ∃ sources, collectSources authority (utterancesIndexed s.file) = .ok sources ∧
      StartOrderInv authority ord s.file ⟨s, none, none⟩ sources := by
  have hattr : ∀ i k u b, (i, k, u) ∈ utterancesIndexed s.file → u.parsedBullet = some b →
      authority.mutability k b = .ok (authority.standing k) := by
    intro i k u b hmem hb
    obtain ⟨hu, hk⟩ := mem_utterancesIndexed.mp hmem
    rw [hk, hacc.ordinals]
    exact hacc.attributed i b (by rw [bulletAt_eq hu, hb])
  refine ⟨_, collectBulleted_ok hattr, ?_⟩
  change StartOrderInv authority ord s.file ⟨s, none, none⟩
    ((utterancesIndexed s.file).filterMap fun x =>
      x.2.2.parsedBullet.map fun b => sourceOf authority x.1 x.2.1 x.2.2 b)
  set sources := (utterancesIndexed s.file).filterMap fun x =>
    x.2.2.parsedBullet.map fun b => sourceOf authority x.1 x.2.1 x.2.2 b with hdef
  have hline : ∀ i k u b, (sourceOf authority i k u b).facts.lineIdx = i := by
    intro i k u b
    rw [sourceOf_facts]
    rfl
  have hnorec : ∀ i, ¬ Recorded s.decisions i := by
    intro i hr
    obtain ⟨r, hr, _⟩ := hr
    rw [hdec] at hr
    simp at hr
  have hcovered : ∀ i b, bulletAt s.file i = some b → ∃ x ∈ sources, x.facts.lineIdx = i := by
    intro i b hb
    obtain ⟨u, hu, hb⟩ := bulletAt_eq_some hb
    refine ⟨sourceOf authority i (utteranceOrdinal s.file i) u b, ?_, hline _ _ _ _⟩
    exact mem_filterMap.mpr
      ⟨(i, utteranceOrdinal s.file i, u), mem_utterancesIndexed.mpr ⟨hu, rfl⟩, by simp [hb]⟩
  have hnotPassed : ∀ i b, bulletAt s.file i = some b → ¬ Passed sources i := by
    intro i b hb hp
    obtain ⟨x, hx, hxi⟩ := hcovered i b hb
    have := hp x hx
    omega
  refine ⟨hacc, ?_, ?_, fun i b hb => .inl (hcovered i b hb), ?_, ?_, ?_, ?_, ?_, fun _ _ => rfl⟩
  · intro x hx
    obtain ⟨⟨i, k, u⟩, hiku, hx⟩ := mem_filterMap.mp hx
    obtain ⟨b, hb, hx⟩ := Option.map_eq_some_iff.mp hx
    obtain ⟨hu, hk⟩ := mem_utterancesIndexed.mp hiku
    have hi : x.facts.lineIdx = i := by rw [← hx, hline]
    rw [hi]
    exact ⟨u, b, hu, hb, by rw [← hx, hk, hacc.ordinals]⟩
  · rw [hdef, pairwise_filterMap]
    apply (utterancesIndexed_sorted s.file).imp
    intro a c hac x hx y hy
    obtain ⟨b, _, hx⟩ := Option.map_eq_some_iff.mp hx
    obtain ⟨d, _, hy⟩ := Option.map_eq_some_iff.mp hy
    rw [← hx, ← hy, hline, hline]
    exact hac
  · intro i j b c _ hj _ _ _ hc
    exact absurd hj (hnotPassed j c hc)
  · intro j hr
    exact absurd hr (hnorec j)
  · intro i b hi _ hb
    exact absurd hi (hnotPassed i b hb)
  · intro l hl
    simp at hl
  · intro k a _ ha
    simp at ha

variable {rest : List StartOrderSource}

theorem withNextKept_cons_inv {y : StartOrderSource × Option StartOrderEntry}
    {ys : List (StartOrderSource × Option StartOrderEntry)}
    (h : y :: ys = withNextKept rest) :
    ∃ x tail, rest = x :: tail ∧ y = (x, tail.findSome? StartOrderSource.kept?) ∧
      ys = withNextKept tail := by
  cases rest with
  | nil => simp [withNextKept] at h
  | cons x tail =>
    simp only [withNextKept, cons.injEq] at h
    exact ⟨x, tail, rfl, h.1, h.2⟩

theorem withNextKept_eq_nil (h : [] = withNextKept rest) : rest = [] := by
  cases rest with
  | nil => rfl
  | cons x tail => simp [withNextKept] at h

theorem StartOrderInv.spec (h : StartOrderInv authority ord file st (x :: rest)) :
    StartStep W st x (rest.findSome? StartOrderSource.kept?)
      (startOrderStep W st x (rest.findSome? StartOrderSource.kept?)) := by
  obtain ⟨u, _, hu, _⟩ := h.head
  exact startStep_spec W st x _ ⟨u, hu⟩

section
variable (h : StartOrderInv authority ord file st sources)
include h

theorem startOrderSweep_inv :
    ∃ st', startOrderSweep W st sources = .ok st' ∧ StartOrderInv authority ord file st' [] := by
  have hsweep := Sweep.sweep_invariant (f := startOrderAt W)
    (I := fun st xs => ∃ rest, xs = withNextKept rest ∧ StartOrderInv authority ord file st rest) (by
      intro st y ys hI
      obtain ⟨rest, hys, hI⟩ := hI
      obtain ⟨x, tail, rfl, rfl, htail⟩ := withNextKept_cons_inv hys
      exact ⟨_, rfl, tail, htail, hI.step hI.spec⟩)
  obtain ⟨st', hrun, rest, hrest, hend⟩ := hsweep (withNextKept sources) st ⟨sources, rfl, h⟩
  obtain rfl := withNextKept_eq_nil hrest
  exact ⟨st', hrun, hend⟩

theorem startOrderSweep_along {C : StartOrderState → StartOrderSource × Option StartOrderEntry → Prop}
    {J : StartOrderState → List StartOrderSource → Prop} (hrun : startOrderSweep W st sources = .ok st')
    (hJ : J st sources) (hC : Sweep.Along (startOrderAt W) C st (withNextKept sources))
    (hstep : ∀ st x rest st', StartOrderInv authority ord file st (x :: rest) → J st (x :: rest) →
      C st (x, rest.findSome? StartOrderSource.kept?) →
      StartStep W st x (rest.findSome? StartOrderSource.kept?) st' → J st' rest) : J st' [] := by
  have hend := Sweep.run_along (I := fun st xs => ∃ rest, xs = withNextKept rest ∧
    StartOrderInv authority ord file st rest ∧ J st rest) (by
      intro st y ys st' hI hCy hok
      obtain ⟨rest, hys, hI, hJ⟩ := hI
      obtain ⟨x, tail, rfl, rfl, htail⟩ := withNextKept_cons_inv hys
      cases hok
      exact ⟨tail, htail, hI.step hI.spec, hstep st x tail _ hI hJ hCy hI.spec⟩)
    hrun ⟨sources, rfl, h, hJ⟩ hC
  obtain ⟨rest, hrest, _, hJend⟩ := hend
  obtain rfl := withNextKept_eq_nil hrest
  exact hJend

theorem startOrderSweep_contained (hc : Contained authority ord st.pass.file)
    (hrun : startOrderSweep W st sources = .ok st') : Contained authority ord st'.pass.file := by
  apply startOrderSweep_along (C := fun _ _ => True)
    (J := fun st _ => Contained authority ord st.pass.file) h hrun hc
  · exact Sweep.along_true _ _
  · intro st x rest st' hI hct _ hstep
    exact hI.step_contained hct hstep

theorem startOrderSweep_housed (hrun : startOrderSweep W st sources = .ok st') :
    Housed st'.pass.file ↔ Housed st.pass.file ∧
      Sweep.Along (startOrderAt W) (StartStripReaches W) st (withNextKept sources) := by
  apply Sweep.run_iff (I := fun st xs => ∃ rest, xs = withNextKept rest ∧
    StartOrderInv authority ord file st rest) (G := fun st => Housed st.pass.file) _ hrun
    ⟨sources, rfl, h⟩
  intro st y ys st' hI hok
  obtain ⟨rest, hys, hI⟩ := hI
  obtain ⟨x, tail, rfl, rfl, htail⟩ := withNextKept_cons_inv hys
  cases hok
  exact ⟨⟨tail, htail, hI.step hI.spec⟩, hI.step_housed hI.spec⟩

end

theorem StartOrderInv.inOrder (h : StartOrderInv authority ord file st []) :
    InOrder authority ord (Recorded st.pass.decisions) st.pass.file := by
  have hall : ∀ i, Passed [] i := fun i x hx => absurd hx (by simp)
  refine ⟨h.accepted, ?_, ?_⟩
  · intro i j b c hij hri hrj hb hc
    exact h.ordered i j b c hij (hall j) hri hrj hb hc
  · intro j hr
    exact (h.recorded j hr).2

theorem enforceStartOrder_eq {s : PassState} (hsources : collectSources authority (utterancesIndexed s.file) = .ok sources)
    (hrun : startOrderSweep W ⟨s, none, none⟩ sources = .ok st') :
    enforceStartOrder W authority s = .ok st'.pass := by
  simp only [enforceStartOrder, hsources, hrun]

end Sweep

end Batchalign.Fa
