import Batchalign.Fa.PartitionSound

/- The passes of the planner keep a tiling, and a plan is a partition: one lemma for each function says
   what it yields from any record, under any probe. No call meets an invalid cut, and the rounds allowed
   suffice. -/
namespace Batchalign.Fa
open Recorded Numbering List

variable {R : Recording} {S P E : Type} {original : SourceRequest R} {r : ResourceRequest R}
  {record grown : List (Exchange R P)} {part : PreparedResourcePart R P}
  {parts more : List (PreparedResourcePart R P)} {a s b e m t : ℕ} {probe : ResourceProbe R S P E}

/-! ## Rounds -/

def StepTiles (original : SourceRequest R) (record : List (Exchange R P)) (step : Step R P) (a s b e : ℕ) : Prop :=
  match step.remaining with
  | none => Occupies original record step.part a s b e
  | some more => ∃ m t, Occupies original record step.part a s m t ∧ Selected original more m t b e

variable {cuts : List SourceCut} {edge : Edge} {following : ℕ}

section
variable (h : Selected original r a s b e)
include h

theorem split_yields {cut : SourceCut} (hcut : cut ∈ cutsInside cuts r) :
    Yields FromProbe (orInvalidCut (r.split cut) : Plan R S P E _) record fun halves _ =>
      ∃ m t, Selected original halves.1 a s m t ∧ Selected original halves.2 m t b e := by
  have hinside := (mem_filter.mp hcut).2
  simp only [decide_eq_true_eq] at hinside
  obtain ⟨hfirst, hlast, hstart, hend⟩ := hinside
  obtain ⟨head, tail, hsplit, hhead, htail⟩ := split_selected h hfirst hlast hstart hend
  exact orInvalidCut_yields hsplit ⟨_, _, hhead, htail⟩

theorem probePrefixes_yields {before : List SourceCut} {refused : LimitedRequest R}
    {after : ResourceRequest R} (hcuts : ∀ cut ∈ before, cut ∈ cutsInside cuts r)
    (hrefused : Selected original refused.request a s m t) (hafter : Selected original after m t b e) :
    Yields FromProbe (probePrefixes probe r before refused after) record fun next grown =>
      StepTiles original grown next a s b e := by
  induction before generalizing refused after m t record with
  | nil => exact Yields.pure ⟨m, t, Occupies.of_unavailable hrefused, hafter⟩
  | cons cut before ih =>
    unfold probePrefixes
    apply Yields.bind (split_yields h (hcuts cut (mem_cons_self ..)))
    rintro ⟨head, remainder⟩ grown - ⟨n, u, hhead, hremainder⟩
    apply Yields.bind (prepare_yields hhead)
    intro admission later _ hadmission
    cases admission with
    | prepared piece => exact Yields.pure ⟨n, u, hadmission, hremainder⟩
    | limited limited =>
      have hlimited : Selected original limited.request a s n u := by
        rw [show limited.request = head from hadmission]
        exact hhead
      exact ih (fun other hother => hcuts other (mem_cons_of_mem _ hother)) hlimited hremainder

theorem prefixes_yields {constraint : FaResourceConstraint}
    (hwhole : ∀ grown, StepTiles original grown (P := P) ⟨.unavailable ⟨r, constraint⟩, none⟩ a s b e) :
    Yields FromProbe (match (cutsInside cuts r).reverse with
      | [] => (pure ⟨.unavailable ⟨r, constraint⟩, none⟩ : Plan R S P E (Step R P))
      | last :: before => do
        let (head, after) ← orInvalidCut (r.split last)
        match ← head.prepare probe with
        | .prepared piece => pure ⟨.request piece, some after⟩
        | .limited refused => probePrefixes probe r before refused after) record
      fun next later => StepTiles original later next a s b e := by
  cases hcuts : (cutsInside cuts r).reverse with
  | nil => exact Yields.pure (hwhole record)
  | cons last before =>
    have hmem : ∀ cut ∈ last :: before, cut ∈ cutsInside cuts r := by
      intro cut hin
      rw [← hcuts] at hin
      exact mem_reverse.mp hin
    apply Yields.bind (split_yields h (hmem last (mem_cons_self ..)))
    rintro ⟨head, after⟩ later - ⟨n, u, hhead, hafter⟩
    apply Yields.bind (prepare_yields hhead)
    intro admission final _ hfirst
    cases admission with
    | prepared piece => exact Yields.pure ⟨n, u, hfirst, hafter⟩
    | limited refused =>
      have hrefused : Selected original refused.request a s n u := by
        rw [show refused.request = head from hfirst]
        exact hhead
      exact probePrefixes_yields h (fun cut hin => hmem cut (mem_cons_of_mem _ hin)) hrefused hafter

theorem step_yields :
    Yields FromProbe (step probe cuts r) record fun next grown => StepTiles original grown next a s b e := by
  unfold step
  apply Yields.bind (prepare_yields h)
  intro admission grown _ hadmission
  cases admission with
  | prepared piece => exact Yields.pure hadmission
  | limited limited =>
    obtain ⟨request, constraint⟩ := limited
    have hrequest : request = r := hadmission
    subst hrequest
    have hwhole : ∀ grown, StepTiles original grown (P := P) ⟨.unavailable ⟨request, constraint⟩, none⟩ a s b e :=
      fun _ => Occupies.of_unavailable h
    cases constraint with
    | emptyDecodedAudio => exact Yields.pure (hwhole grown)
    | hostMemory => exact prefixes_yields h hwhole
    | model reason =>
      cases reason with
      | insufficientInput => exact Yields.pure (hwhole grown)
      | projectionUnavailable => exact Yields.pure (hwhole grown)
      | modelConstraint => exact prefixes_yields h hwhole

theorem planRounds_yields {rounds : ℕ} (hrounds : b - a ≤ rounds) :
    Yields FromProbe (planRounds probe cuts rounds r) record fun parts grown =>
      Tiles original grown a s parts b e := by
  induction rounds generalizing r a s record with
  | zero =>
    have hinc := h.increasing
    omega
  | succ rounds ih =>
    unfold planRounds
    apply Yields.bind (step_yields h)
    intro next grown _ hnext
    unfold StepTiles at hnext
    cases hmore : next.remaining with
    | none =>
      simp only [hmore] at hnext
      exact Yields.pure (Tiles.single hnext)
    | some remaining =>
      simp only [hmore] at hnext
      obtain ⟨m, t, hpart, hremaining⟩ := hnext
      -- each round uses up a word
      have hinc := hpart.increasing
      apply Yields.bind (ih hremaining (by omega))
      intro rest later hlater hrest
      exact Yields.pure ⟨m, t, hpart.mono hlater, hrest⟩

/-! ## Tails -/

theorem Selected.previous {previous : FaWord} (hprevious : r.words.words.reverse[1]? = some previous) :
    previous.utteranceWordIndex + 2 = b ∧ a ≤ previous.utteranceWordIndex := by
  have hlen := h.length
  have htwo : 1 < r.words.words.length := by
    obtain ⟨hlt, -⟩ := List.getElem?_eq_some_iff.mp hprevious
    rw [length_reverse] at hlt
    exact hlt
  rw [getElem?_reverse htwo, List.getElem?_eq_some_iff] at hprevious
  obtain ⟨hpos, hget⟩ := hprevious
  have hnum := h.numbered _ hpos
  rw [hget] at hnum
  omega

end

theorem tailRecovery_sound {before : LimitedRequest R} {after : PreparedPiece R P} (anchors : UtteranceAnchors)
    (hbefore : Occupies original record (.unavailable before) a s m t)
    (hafter : Occupies original record (.request after) m t b e) :
    ∃ found, tailRecovery before after.source original.toResourceRequest anchors = some found ∧
      ∀ head joined, found = some (head, joined) →
        ∃ n u, Selected original head a s n u ∧ Selected original joined n u b e := by
  have hselected := hbefore.selected
  have hnone : ∃ found : Option (ResourceRequest R × ResourceRequest R), some none = some found ∧
      ∀ head joined, found = some (head, joined) →
        ∃ n u, Selected original head a s n u ∧ Selected original joined n u b e := by
    refine ⟨none, rfl, ?_⟩
    intro head joined hfound
    cases hfound
  unfold tailRecovery
  split
  · exact hnone
  split
  · exact hnone
  next previous hprevious =>
  split
  · exact hnone
  next anchor hanchor =>
  have hprev := hselected.previous hprevious
  have hchosen := find?_some hanchor
  simp only [Bool.and_eq_true, beq_iff_eq, decide_eq_true_eq] at hchosen
  obtain ⟨⟨⟨hword, hend⟩, hpositive⟩, hstart⟩ := hchosen
  have hstop := hselected.lastWord
  rw [hselected.endMs] at hend
  rw [hselected.startMs] at hstart
  have hlast : after.source.lastWord = b - 1 := by
    have hlast := hafter.last
    have hshow : (PreparedResourcePart.request after).ownership.last = after.source.lastWord := rfl
    rw [hshow] at hlast
    omega
  have hclose : after.source.ownershipWindow.endMs = e := hafter.endMs
  have hwide := hafter.window_positive
  have hinside := hafter.end_inside
  have hupper := hafter.upper
  have hlow := hselected.lower
  have hopen := hselected.early
  have hafterinc := hafter.increasing
  obtain ⟨head, hheadEq, hhead⟩ := selection_selected original (a := a) (b := m - 1) (s := s)
    (e := anchor.startMs) hlow (by omega) (by omega) hopen hstart (by omega)
  obtain ⟨joined, hjoinedEq, hjoined⟩ := selection_selected original (a := m - 1) (b := b)
    (s := anchor.startMs) (e := e) (by omega) (by omega) hupper (by omega) (by omega) hinside
  have hfirstWord : before.request.words.firstWord = a := hselected.firstWord
  have hbeforeStart : before.request.window.startMs = s := hselected.startMs
  have hprevEq : previous.utteranceWordIndex = m - 1 - 1 := by omega
  have hlastWord : before.request.words.lastWord = m - 1 := by omega
  rw [hfirstWord, hbeforeStart, hprevEq, hlastWord, hlast, hclose, hheadEq, hjoinedEq]
  refine ⟨_, rfl, ?_⟩
  intro found joinedFound hfound
  cases hfound
  exact ⟨_, _, hhead, hjoined⟩

theorem recover_yields {before : LimitedRequest R} {after : PreparedPiece R P} {anchors : UtteranceAnchors}
    (hbefore : Occupies original record (.unavailable before) a s m t)
    (hafter : Occupies original record (.request after) m t b e) :
    Yields FromProbe (recover probe original.toResourceRequest anchors before after) record fun pair grown =>
      ∃ n u, Occupies original grown pair.1 a s n u ∧ Occupies original grown (.request pair.2) n u b e := by
  obtain ⟨found, hfound, hsound⟩ := tailRecovery_sound anchors hbefore hafter
  unfold recover
  apply Yields.bind (orInvalidCut_yields (Q := fun value now => value = found ∧ now = record) hfound ⟨rfl, rfl⟩)
  rintro value now - ⟨rfl, rfl⟩
  match value with
  | none => exact Yields.pure ⟨m, t, hbefore, hafter⟩
  | some (head, joined) =>
    obtain ⟨n, u, hhead, hjoined⟩ := hsound head joined rfl
    apply Yields.bind (prepare_yields hjoined)
    intro admission grown hgrown hadmission
    cases admission with
    | limited limited => exact Yields.pure ⟨m, t, hbefore.mono hgrown, hafter.mono hgrown⟩
    | prepared piece =>
      apply Yields.bind (prepare_yields hhead)
      intro admission later hlater hfirst
      cases admission with
      | prepared first => exact Yields.pure ⟨n, u, hfirst, Occupies.mono hadmission hlater⟩
      | limited limited =>
        have hlimited : Selected original limited.request a s n u := by
          rw [show limited.request = head from hfirst]
          exact hhead
        exact Yields.pure ⟨n, u, Occupies.of_unavailable hlimited, Occupies.mono hadmission hlater⟩

theorem recoverTails_yields {anchors : UtteranceAnchors} {previous : PreparedResourcePart R P}
    (hprevious : Occupies original record previous a s m t) (hparts : Tiles original record m t parts b e) :
    Yields FromProbe (recoverTails probe original.toResourceRequest anchors previous parts) record
      fun supported grown => Tiles original grown a s supported b e := by
  induction parts generalizing previous a s m t record with
  | nil =>
    obtain ⟨rfl, rfl⟩ := hparts
    unfold recoverTails
    exact Yields.pure (Tiles.single hprevious)
  | cons next rest ih =>
    obtain ⟨n, u, hnext, hrest⟩ := hparts
    -- only an unavailable part before a prepared one is looked at again
    have hkeep : Yields FromProbe (do
        let later ← recoverTails probe original.toResourceRequest anchors next rest
        pure (previous :: later) : Plan R S P E _) record fun supported grown =>
          Tiles original grown a s supported b e := by
      apply Yields.bind (ih hnext hrest)
      intro later grown hgrown hlater
      exact Yields.pure ⟨m, t, hprevious.mono hgrown, hlater⟩
    match previous, next with
    | .request _, .request _ => exact hkeep
    | .request _, .unavailable _ => exact hkeep
    | .unavailable _, .unavailable _ => exact hkeep
    | .unavailable before, .request after =>
      unfold recoverTails
      apply Yields.bind (recover_yields hprevious hnext)
      rintro ⟨head, joined⟩ grown hgrown ⟨k, v, hhead, hjoined⟩
      apply Yields.bind (ih hjoined (hrest.mono hgrown))
      intro later final hfinal hlater
      exact Yields.pure ⟨k, v, hhead.mono hfinal, hlater⟩

/-! ## Borrowed context -/

theorem mem_of_mem_dedupEdges {edges : List Edge} (h : edge ∈ dedupEdges edges) : edge ∈ edges := by
  fun_induction dedupEdges edges with
  | case1 second rest ih => exact mem_cons_of_mem _ (ih h)
  | case2 first second rest hne ih =>
    cases h with
    | head => exact mem_cons_self ..
    | tail _ h => exact mem_cons_of_mem _ (ih h)
  | case3 edges hshort => exact h

theorem mem_of_mem_sortEdges {edges : List Edge} (h : edge ∈ sortEdges edges) : edge ∈ edges :=
  (mem_insertionSort _).mp (mem_of_mem_dedupEdges h)

theorem mem_drainProposals {starts ends : List Edge} {heap : List HeapEntry} {start stop : Edge}
    (h : (start, stop) ∈ drainProposals starts ends heap) : start ∈ starts ∧ stop ∈ ends := by
  have hlater : ∀ {rest later : List (Edge × Edge)} {last : Prop} [Decidable last],
      (last → (start, stop) ∈ rest → start ∈ starts ∧ stop ∈ ends) →
      (¬ last → (start, stop) ∈ later → start ∈ starts ∧ stop ∈ ends) →
      (start, stop) ∈ (if last then rest else later) → start ∈ starts ∧ stop ∈ ends := by
    intro rest later last _ hrest hmore hin
    split at hin
    · next hlast => exact hrest hlast hin
    · next hlast => exact hmore hlast hin
  fun_induction drainProposals starts ends heap with
  | case1 heap hnone => cases h
  | case2 heap top htop rest later found foundStop hstop hstart ihrest ihmore =>
    cases h with
    | head => exact ⟨mem_of_getElem? hstart, mem_of_getElem? hstop⟩
    | tail _ h => exact hlater ihrest ihmore h
  | case3 heap top htop rest later hnone ihrest ihmore => exact hlater ihrest ihmore h

structure Opens (original : SourceRequest R) (edge : Edge) (a s : ℕ) : Prop where
  lower : original.words.firstWord ≤ edge.word
  word : edge.word ≤ a
  early : original.window.startMs ≤ edge.atMs
  instant : edge.atMs ≤ s

structure Closes (original : SourceRequest R) (edge : Edge) (b e : ℕ) : Prop where
  upper : edge.word + 1 ≤ original.stopWord
  word : b ≤ edge.word + 1
  late : edge.atMs ≤ original.window.endMs
  instant : e ≤ edge.atMs

theorem Occupies.opens_start (h : Occupies original record part a s b e) :
    Opens original part.ownership.startEdge a s where
  lower := le_trans h.lower (Nat.le_of_eq h.first.symm)
  word := Nat.le_of_eq h.first
  early := le_trans h.start_inside (Nat.le_of_eq h.startMs.symm)
  instant := Nat.le_of_eq h.startMs

theorem Occupies.closes_end (h : Occupies original record part a s b e) :
    Closes original part.ownership.endEdge b e where
  upper := le_trans (Nat.le_of_eq h.last) h.upper
  word := Nat.le_of_eq h.last.symm
  late := le_trans (Nat.le_of_eq h.endMs) h.end_inside
  instant := Nat.le_of_eq h.endMs.symm

variable {first last : Edge} {anchors : UtteranceAnchors}

theorem contextProposals_sound (hpart : Occupies original record part a s b e) (hfirst : Opens original first a s)
    (hlast : Closes original last b e) {start stop : Edge}
    (h : (start, stop) ∈ contextProposals first last part.ownership anchors) :
    Opens original start a s ∧ Closes original stop b e := by
  obtain ⟨hstart, hstop⟩ := mem_drainProposals h
  refine ⟨?_, ?_⟩
  · have hmem := mem_of_mem_sortEdges hstart
    simp only [cons_append, nil_append, mem_cons, mem_filterMap] at hmem
    obtain rfl | rfl | ⟨anchor, -, hanchor⟩ := hmem
    · exact hfirst
    · exact hpart.opens_start
    · split at hanchor
      · cases hanchor
      next hinside =>
      split at hanchor
      · next howned =>
        cases hanchor
        simp only [not_or, not_lt] at hinside
        exact {
          lower := le_trans hfirst.lower hinside.1
          word := le_trans howned.1 (Nat.le_of_eq hpart.first)
          early := le_trans hfirst.early hinside.2.2.2.1
          instant := le_trans howned.2 (Nat.le_of_eq hpart.startMs) }
      · cases hanchor
  · have hmem := mem_of_mem_sortEdges hstop
    simp only [cons_append, nil_append, mem_cons, mem_filterMap] at hmem
    obtain rfl | rfl | ⟨anchor, -, hanchor⟩ := hmem
    · exact hlast
    · exact hpart.closes_end
    · split at hanchor
      · cases hanchor
      next hinside =>
      split at hanchor
      · next howned =>
        cases hanchor
        simp only [not_or, not_lt] at hinside
        exact {
          upper := le_trans (Nat.succ_le_succ hinside.2.1) hlast.upper
          word := le_trans (Nat.le_of_eq hpart.last.symm) (Nat.succ_le_succ howned.1)
          late := le_trans hinside.2.2.2.2 hlast.late
          instant := le_trans (Nat.le_of_eq hpart.endMs.symm) howned.2 }
      · cases hanchor

theorem admitOwned_sound (hpart : Occupies original record part a s b e) {a' s' b' e' : ℕ}
    (hcandidate : Selected original r a' s' b' e') (ha : a' ≤ a) (hb : b ≤ b') (hs : s' ≤ s) (he : e ≤ e') :
    ∃ context, ResourceContext.admitOwned r part.ownership.first part.ownership.last part.ownership.window =
        some context ∧ context.request = r ∧
      ∀ (grown : List (Exchange R P)) (artifact : P), ⟨r.words.words, r.window, artifact⟩ ∈ grown →
        Occupies original grown (.request ⟨.fromResourceContext context, artifact⟩) a s b e := by
  have hlen := hcandidate.length
  have hinc := hpart.increasing
  have hlow := hcandidate.lower
  have hlast : part.ownership.last = b - 1 := by
    have hlast := hpart.last
    omega
  have hfirstPos := hcandidate.numbered.findIdx?_eq (x := a) ha (by omega)
  have hlastPos := hcandidate.numbered.findIdx?_eq (x := b - 1) (by omega) (by omega)
  have hwords : (r.words.words.drop (a - a')).take (b - 1 - a' + 1 - (a - a')) = original.wordsFrom a b := by
    have hcount : b - 1 - a' + 1 - (a - a') = b - a := by omega
    rw [hcandidate.words, hcount]
    unfold SourceRequest.wordsFrom
    rw [drop_slice hlow ha, take_slice hb]
  refine ⟨⟨r, a - a', b - 1 - a' + 1, part.ownership.window⟩, ?_, rfl, ?_⟩
  · unfold ResourceContext.admitOwned
    rw [hpart.startMs, hpart.endMs, hcandidate.startMs, hcandidate.endMs, if_neg (by omega), hpart.first, hlast,
      hfirstPos, hlastPos]
    simp only
    rw [if_neg (by omega)]
  · intro grown artifact hanswer
    exact {
      lower := hpart.lower
      increasing := hinc
      upper := hpart.upper
      first := by
        show r.words.firstWord + (a - a') = a
        rw [hcandidate.firstWord]
        omega
      last := by
        show r.words.firstWord + (b - 1 - a' + 1) - 1 + 1 = b
        rw [hcandidate.firstWord]
        omega
      startMs := hpart.startMs
      endMs := hpart.endMs
      words := hwords
      early := hcandidate.startMs ▸ hcandidate.early
      late := hcandidate.endMs ▸ hcandidate.late
      opens := hcandidate.startMs.symm ▸ hs
      closes := hcandidate.endMs.symm ▸ he
      answered := hanswer }

theorem contextPrepare_yields (context : ResourceContext R) :
    Yields FromProbe (context.prepare probe) record fun found grown => ∀ piece, found = some piece →
      ∃ artifact, piece = ⟨.fromResourceContext context, artifact⟩ ∧
        ⟨context.request.words.words, context.request.window, artifact⟩ ∈ grown := by
  unfold ResourceContext.prepare
  apply Yields.bind (askProbe_yields probe _ _)
  intro outcome grown _ hanswer
  cases outcome with
  | prepared artifact =>
    apply Yields.pure
    intro piece hpiece
    cases hpiece
    exact ⟨artifact, rfl, hanswer artifact rfl⟩
  | limited constraint =>
    apply Yields.pure
    intro piece hpiece
    cases hpiece

theorem tryProposals_yields {proposals : List (Edge × Edge)} (hpart : Occupies original record part a s b e)
    (hproposals : ∀ start stop, (start, stop) ∈ proposals → Opens original start a s ∧ Closes original stop b e) :
    Yields FromProbe (tryProposals probe original.toResourceRequest part.ownership proposals) record
      fun found grown => ∀ piece, found = some piece → Occupies original grown (.request piece) a s b e := by
  induction proposals generalizing record with
  | nil =>
    apply Yields.pure
    intro piece hpiece
    cases hpiece
  | cons proposal rest ih =>
    obtain ⟨start, stop⟩ := proposal
    obtain ⟨hstart, hstop⟩ := hproposals start stop (mem_cons_self ..)
    have hinc := hpart.increasing
    have hwide := hpart.window_positive
    have hword := hstart.word
    have hstopWord := hstop.word
    have hinstant := hstart.instant
    have hstopInstant := hstop.instant
    obtain ⟨candidate, hcandidateEq, hcandidate⟩ := selection_selected original (a := start.word)
      (b := stop.word + 1) (s := start.atMs) (e := stop.atMs) hstart.lower (by omega) hstop.upper hstart.early
      (by omega) hstop.late
    rw [Nat.add_sub_cancel] at hcandidateEq
    obtain ⟨context, hcontextEq, hrequest, howns⟩ := admitOwned_sound hpart hcandidate hword hstopWord hinstant hstopInstant
    unfold tryProposals
    apply Yields.bind (orInvalidCut_yields (Q := fun value now => value = candidate ∧ now = record) hcandidateEq
      ⟨rfl, rfl⟩)
    rintro value now - ⟨rfl, rfl⟩
    apply Yields.bind (orInvalidCut_yields (Q := fun value later => value = context ∧ later = now) hcontextEq
      ⟨rfl, rfl⟩)
    rintro found later - ⟨rfl, rfl⟩
    apply Yields.bind (contextPrepare_yields found)
    intro answer final hfinal hanswer
    cases answer with
    | none =>
      exact ih (hpart.mono hfinal) (fun start stop hin => hproposals start stop (mem_cons_of_mem _ hin))
    | some piece =>
      apply Yields.pure
      intro other hother
      cases hother
      obtain ⟨artifact, rfl, hmem⟩ := hanswer piece rfl
      rw [hrequest] at hmem
      exact howns final artifact hmem

theorem contextFor_yields (anchors : UtteranceAnchors) (hpart : Occupies original record part a s b e) (hfirst : Opens original first a s)
    (hlast : Closes original last b e) :
    Yields FromProbe (contextFor probe original.toResourceRequest anchors part.ownership first last) record
      fun found grown => ∀ piece, found = some piece → Occupies original grown (.request piece) a s b e := by
  apply tryProposals_yields hpart
  intro start stop hin
  exact contextProposals_sound hpart hfirst hlast hin

/-! ## Minimums -/

theorem Opens.weaken (h : Opens original edge m t) (ha : m ≤ a) (hs : t ≤ s) : Opens original edge a s :=
  { h with word := le_trans h.word ha, instant := le_trans h.instant hs }

theorem Closes.weaken (h : Closes original edge m t) (hb : b ≤ m) (he : e ≤ t) : Closes original edge b e :=
  { h with word := le_trans hb h.word, instant := le_trans he h.instant }

theorem runStart_opens {before : List (PreparedResourcePart R P)} (hbefore : Tiles original record m t before.reverse a s)
    (hedge : Opens original edge a s) : Opens original (runStart edge before) a s := by
  induction before generalizing edge a s with
  | nil => exact hedge
  | cons part rest ih =>
    cases part with
    | unavailable limited => exact hedge
    | request piece =>
      rw [reverse_cons] at hbefore
      obtain ⟨n, u, hrest, hlast⟩ := hbefore.of_append
      have hpiece := hlast.of_single
      have hinc := le_of_lt hpiece.increasing
      have hpos := le_of_lt hpiece.window_positive
      exact (ih hrest hpiece.opens_start).weaken hinc hpos

variable {after : List (PreparedResourcePart R P)}

theorem runEnd_closes (hafter : Tiles original record b e after m t)
    (hedge : Closes original edge b e) : Closes original (runEnd edge after) b e := by
  induction after generalizing edge b e with
  | nil => exact hedge
  | cons part rest ih =>
    cases part with
    | unavailable limited => exact hedge
    | request piece =>
      obtain ⟨n, u, hpiece, hrest⟩ := hafter
      have hinc := le_of_lt hpiece.increasing
      have hpos := le_of_lt hpiece.window_positive
      exact (ih hrest hpiece.closes_end).weaken hinc hpos

theorem recoverMinimums_yields (before : List (PreparedResourcePart R P))
    (hbefore : Tiles original record a s before.reverse m t) (hafter : Tiles original record m t after b e) :
    Yields FromProbe (recoverMinimums probe original.toResourceRequest anchors before after) record
      fun supported grown => Tiles original grown a s supported b e := by
  induction after generalizing before m t record with
  | nil =>
    obtain ⟨rfl, rfl⟩ := hafter
    exact Yields.pure hbefore
  | cons part after ih =>
    obtain ⟨n, u, hpart, hrest⟩ := hafter
    -- whichever part takes the place, it owns what this one owns
    have hnext : ∀ {other grown}, record <+: grown → Occupies original grown other m t n u →
        Yields FromProbe (recoverMinimums probe original.toResourceRequest anchors (other :: before) after) grown
          fun supported final => Tiles original final a s supported b e := by
      intro other grown hgrown hother
      apply ih (other :: before) _ (hrest.mono hgrown)
      rw [reverse_cons]
      exact (hbefore.mono hgrown).append (Tiles.single hother)
    cases part with
    | request piece =>
      unfold recoverMinimums
      exact hnext (prefix_refl _) hpart
    | unavailable limited =>
      unfold recoverMinimums
      split
      · apply Yields.bind (contextFor_yields anchors hpart (runStart_opens hbefore hpart.opens_start)
          (runEnd_closes hrest hpart.closes_end))
        intro found grown hgrown hfound
        cases found with
        | none => exact hnext hgrown (hpart.mono hgrown)
        | some piece => exact hnext hgrown (hfound piece rfl)
      · exact hnext (prefix_refl _) hpart

/-! ## Runs -/

def ContextSegment.members : ContextSegment R P → List (PreparedResourcePart R P)
  | .supported first rest => .request first :: rest.map .request
  | .unavailable limited => [.unavailable limited]

theorem contextSegments_members (parts : List (PreparedResourcePart R P)) :
    (contextSegments parts).flatMap ContextSegment.members = parts := by
  induction parts with
  | nil => rfl
  | cons part parts ih =>
    cases part with
    | unavailable limited =>
      unfold contextSegments
      rw [flatMap_cons, ih]
      rfl
    | request piece =>
      unfold contextSegments
      split
      · next first rest segments hsegments =>
        rw [hsegments, flatMap_cons] at ih
        rw [flatMap_cons, ← ih]
        rfl
      · rw [flatMap_cons, ih]
        rfl

theorem expandPieces_yields (pieces : List (PreparedPiece R P))
    (hpieces : Tiles original record a s (pieces.map .request) b e) (hfirst : Opens original first a s)
    (hlast : Closes original last b e) :
    Yields FromProbe (expandPieces probe original.toResourceRequest anchors first last pieces) record
      fun expanded grown => Tiles original grown a s expanded b e := by
  induction pieces generalizing a s record with
  | nil => exact Yields.pure hpieces
  | cons piece rest ih =>
    obtain ⟨m, t, hpiece, hrest⟩ := hpieces
    have hforward := hrest.le
    have hinc := le_of_lt hpiece.increasing
    have hpos := le_of_lt hpiece.window_positive
    unfold expandPieces
    apply Yields.bind (contextFor_yields anchors hpiece hfirst (hlast.weaken hforward.1 hforward.2))
    intro found grown hgrown hfound
    apply Yields.bind (ih (hrest.mono hgrown) (hfirst.weaken hinc hpos))
    intro later final hfinal hlater
    apply Yields.pure
    refine ⟨m, t, ?_, hlater⟩
    cases found with
    | none => exact (hpiece.mono hgrown).mono hfinal
    | some context => exact (hfound context rfl).mono hfinal

theorem expandRun_yields {piece : PreparedPiece R P} {rest : List (PreparedPiece R P)}
    (hrun : Tiles original record a s (.request piece :: rest.map .request) b e) :
    Yields FromProbe (expandRun probe original.toResourceRequest anchors piece rest) record
      fun expanded grown => Tiles original grown a s expanded b e := by
  unfold expandRun
  cases hlast : rest.getLast? with
  | none =>
    have hnil : rest = [] := getLast?_eq_none_iff.mp hlast
    subst hnil
    exact Yields.pure hrun
  | some last =>
    have hopens : Opens original (Ownership.ofPiece piece.source).startEdge a s := by
      obtain ⟨m, t, hpiece, -⟩ := hrun
      exact hpiece.opens_start
    have hcloses : Closes original (Ownership.ofPiece last.source).endEdge b e := by
      obtain ⟨front, rfl⟩ := getLast?_eq_some_iff.mp hlast
      rw [map_append, ← cons_append] at hrun
      obtain ⟨m, t, -, hend⟩ := hrun.of_append
      exact hend.of_single.closes_end
    exact expandPieces_yields (piece :: rest) hrun hopens hcloses

theorem expandSegments_yields {segments : List (ContextSegment R P)}
    (hsegments : Tiles original record a s (segments.flatMap ContextSegment.members) b e) :
    Yields FromProbe (expandSegments probe original.toResourceRequest anchors segments) record
      fun expanded grown => Tiles original grown a s expanded b e := by
  induction segments generalizing a s record with
  | nil => exact Yields.pure hsegments
  | cons segment segments ih =>
    rw [flatMap_cons] at hsegments
    obtain ⟨m, t, hsegment, hrest⟩ := hsegments.of_append
    cases segment with
    | unavailable limited =>
      unfold expandSegments
      apply Yields.bind (ih hrest)
      intro later grown hgrown hlater
      exact Yields.pure ⟨m, t, hsegment.of_single.mono hgrown, hlater⟩
    | supported piece rest =>
      unfold expandSegments
      apply Yields.bind (expandRun_yields hsegment)
      intro run grown hgrown hrun
      apply Yields.bind (ih (hrest.mono hgrown))
      intro later final hfinal hlater
      exact Yields.pure ((hrun.mono hfinal).append hlater)

/-! ## The plan -/

theorem prepareContext_yields (hparts : Tiles original record a s parts b e) (hab : a < b) :
    Yields FromProbe (prepareContext probe original.toResourceRequest anchors parts) record
      fun expanded grown => Tiles original grown a s expanded b e := by
  cases parts with
  | nil =>
    obtain ⟨rfl, -⟩ := hparts
    exact absurd hab (lt_irrefl _)
  | cons part rest =>
    obtain ⟨m, t, hpart, hrest⟩ := hparts
    unfold prepareContext
    apply Yields.bind (recoverTails_yields hpart hrest)
    intro supported first _ hsupported
    apply Yields.bind (recoverMinimums_yields [] ⟨rfl, rfl⟩ hsupported)
    intro recovered second _ hrecovered
    rw [← contextSegments_members recovered] at hrecovered
    apply Yields.bind (expandSegments_yields hrecovered)
    intro expanded third _ hexpanded
    cases expanded with
    | nil =>
      obtain ⟨rfl, -⟩ := hexpanded
      exact absurd hab (lt_irrefl _)
    | cons head tail => exact Yields.pure hexpanded

theorem planCore_yields (lookup : AnchorLookup) :
    Yields FromProbe (planCore probe original.toResourceRequest lookup) record fun parts grown =>
      Tiles original grown original.words.firstWord original.window.startMs parts original.stopWord
        original.window.endMs := by
  have hwhole := Selected.whole original
  unfold planCore
  apply Yields.bind (planRounds_yields hwhole (by unfold SourceRequest.stopWord; omega))
  intro parts grown _ hparts
  cases lookup with
  | notRecovered => exact Yields.pure hparts
  | noReliableMatch => exact Yields.pure hparts
  | refused => exact Yields.pure hparts
  | anchored anchors =>
    simp only
    split
    · exact prepareContext_yields hparts hwhole.increasing
    · exact Yields.pure hparts

def Follows (before after : PreparedResourcePart R P) : Prop :=
  after.ownership.first = before.ownership.last + 1 ∧
    after.ownership.window.startMs = before.ownership.window.endMs

/-- The parts own the words, each once and in order; their audio is that of the request, of which the
  last may go on towards `following`; each was shown to the probe with at least that. -/
structure Partitions (original : SourceRequest R) (following : ℕ) (record : List (Exchange R P))
    (parts : List (PreparedResourcePart R P)) : Prop where
  words : parts.flatMap PreparedResourcePart.ownedWords = original.words.words
  numbered : ∀ part ∈ parts, Numbered FaWord.utteranceWordIndex part.ownership.first part.ownedWords ∧
    part.ownership.first + part.ownedWords.length = part.ownership.last + 1
  follows : parts.IsChain Follows
  begins : ∃ part, parts.head? = some part ∧ part.ownership.first = original.words.firstWord ∧
    part.ownership.window.startMs = original.window.startMs
  ends : ∃ part, parts.getLast? = some part ∧ part.ownership.last = original.words.lastWord ∧
    part.ownership.window.startMs < original.window.endMs ∧
    original.window.endMs ≤ part.ownership.window.endMs ∧
    part.ownership.window.endMs ≤ max original.window.endMs following
  covers : ∀ part ∈ parts, part.requestWindow.startMs ≤ part.ownership.window.startMs ∧
    part.ownership.window.endMs ≤ part.requestWindow.endMs
  answered : ∀ part ∈ parts, part.Answered record

namespace Tiles

theorem words (h : Tiles original record a s parts b e) (ha : original.words.firstWord ≤ a) :
    parts.flatMap PreparedResourcePart.ownedWords = original.wordsFrom a b := by
  induction parts generalizing a s with
  | nil =>
    obtain ⟨rfl, rfl⟩ := h
    unfold SourceRequest.wordsFrom slice
    rw [Nat.sub_self, take_zero]
    rfl
  | cons part parts ih =>
    obtain ⟨m, t, hpart, hrest⟩ := h
    have hinc := hpart.increasing
    rw [flatMap_cons, hpart.words, ih hrest (by omega)]
    exact slice_append ha (le_of_lt hinc) hrest.le.1

theorem mem (h : Tiles original record a s parts b e) (hpart : part ∈ parts) :
    ∃ a' s' b' e', Occupies original record part a' s' b' e' := by
  induction parts generalizing a s with
  | nil => cases hpart
  | cons first rest ih =>
    obtain ⟨m, t, hfirst, hrest⟩ := h
    cases hpart with
    | head => exact ⟨a, s, m, t, hfirst⟩
    | tail _ hpart => exact ih hrest hpart

theorem chain (h : Tiles original record a s parts m t) (final : PreparedResourcePart R P)
    (hfirst : final.ownership.first = m) (hstart : final.ownership.window.startMs = t) :
    (parts ++ [final]).IsChain Follows ∧ ∃ part, (parts ++ [final]).head? = some part ∧
      part.ownership.first = a ∧ part.ownership.window.startMs = s := by
  induction parts generalizing a s with
  | nil =>
    obtain ⟨rfl, rfl⟩ := h
    exact ⟨isChain_singleton _, final, rfl, hfirst, hstart⟩
  | cons part rest ih =>
    obtain ⟨n, u, hpart, hrest⟩ := h
    obtain ⟨hchain, next, hnext, hnextFirst, hnextStart⟩ := ih hrest
    refine ⟨?_, part, rfl, hpart.first, hpart.startMs⟩
    rw [cons_append, isChain_cons]
    refine ⟨?_, hchain⟩
    intro other hother
    rw [hnext] at hother
    cases hother
    exact ⟨by rw [hnextFirst, hpart.last], by rw [hnextStart, hpart.endMs]⟩

end Tiles

theorem Occupies.numbered (h : Occupies original record part a s b e) :
    Numbered FaWord.utteranceWordIndex part.ownership.first part.ownedWords ∧
      part.ownership.first + part.ownedWords.length = part.ownership.last + 1 := by
  have hinc := h.increasing
  rw [h.words, h.first, h.last]
  refine ⟨original.wordsFrom_numbered h.lower, ?_⟩
  rw [original.length_wordsFrom h.lower h.upper]
  omega

variable {final : PreparedResourcePart R P}

theorem Partitions.of_tiles (final' : PreparedResourcePart R P)
    (hparts : Tiles original record original.words.firstWord original.window.startMs parts m t)
    (hfinal : Occupies original record final m t original.stopWord original.window.endMs)
    (hfirst : final'.ownership.first = final.ownership.first) (hlast : final'.ownership.last = final.ownership.last)
    (hwords : final'.ownedWords = final.ownedWords)
    (hstart : final'.ownership.window.startMs = final.ownership.window.startMs)
    (hlater : original.window.endMs ≤ final'.ownership.window.endMs)
    (hbound : final'.ownership.window.endMs ≤ max original.window.endMs following)
    (hcovers : final'.requestWindow.startMs ≤ final'.ownership.window.startMs ∧
      final'.ownership.window.endMs ≤ final'.requestWindow.endMs)
    (hanswered : final'.Answered record) : Partitions original following record (parts ++ [final']) := by
  have hchain := hparts.chain final' (hfirst.trans hfinal.first) (hstart.trans hfinal.startMs)
  have hstop := original.lastWord_eq
  have hfinalLast := hfinal.last
  have hinside := hfinal.window_positive
  refine ⟨?_, ?_, hchain.1, hchain.2, ?_, ?_, ?_⟩
  · rw [flatMap_append, hparts.words (le_refl _), flatMap_singleton, hwords, hfinal.words]
    calc original.wordsFrom original.words.firstWord m ++ original.wordsFrom m original.stopWord
        = original.wordsFrom original.words.firstWord original.stopWord :=
          slice_append (le_refl _) hfinal.lower (le_of_lt hfinal.increasing)
      _ = original.words.words := slice_self
  · intro part hpart
    rw [mem_append, mem_singleton] at hpart
    obtain hpart | rfl := hpart
    · obtain ⟨_, _, _, _, howned⟩ := hparts.mem hpart
      exact howned.numbered
    · rw [hfirst, hlast, hwords]
      exact hfinal.numbered
  · refine ⟨final', getLast?_concat, by omega, ?_, hlater, hbound⟩
    rw [hstart, hfinal.startMs]
    exact hinside
  · intro part hpart
    rw [mem_append, mem_singleton] at hpart
    obtain hpart | rfl := hpart
    · obtain ⟨_, _, _, _, howned⟩ := hparts.mem hpart
      rw [howned.startMs, howned.endMs]
      exact ⟨howned.opens, howned.closes⟩
    · exact hcovers
  · intro part hpart
    rw [mem_append, mem_singleton] at hpart
    obtain hpart | rfl := hpart
    · obtain ⟨_, _, _, _, howned⟩ := hparts.mem hpart
      exact howned.answered
    · exact hanswered

theorem Tiles.partitions
    (hparts : Tiles original record original.words.firstWord original.window.startMs parts m t)
    (hfinal : Occupies original record final m t original.stopWord original.window.endMs) :
    Partitions original following record (parts ++ [final]) := by
  have hend := hfinal.endMs
  apply Partitions.of_tiles final hparts hfinal rfl rfl rfl rfl (by omega) (by omega) _ hfinal.answered
  rw [hfinal.startMs, hfinal.endMs]
  exact ⟨hfinal.opens, hfinal.closes⟩

theorem Tiles.partitions_extended {final : PreparedPiece R P} {proposal : AnchoredPiece R}
    {artifact : P} (hproposal : final.source.trailingProposal following = some proposal)
    (hparts : Tiles original record original.words.firstWord original.window.startMs parts m t)
    (hfinal : Occupies original record (.request final) m t original.stopWord original.window.endMs)
    (hanswer : ⟨proposal.words.words, proposal.window, artifact⟩ ∈ record) :
    Partitions original following record (parts ++ [.request ⟨proposal, artifact⟩]) := by
  unfold AnchoredPiece.trailingProposal at hproposal
  simp only at hproposal
  split at hproposal
  · cases hproposal
  cases hproposal
  have hlate : final.source.window.endMs ≤ original.window.endMs := hfinal.late
  have hcloses : original.window.endMs ≤ final.source.window.endMs := hfinal.closes
  have hopens : final.source.window.startMs ≤ t := hfinal.opens
  have hstart : final.source.ownershipWindow.startMs = t := hfinal.startMs
  have hend : final.source.ownershipWindow.endMs = original.window.endMs := hfinal.endMs
  have hinside := final.source.ownershipWindow.inside
  have hfits := R.fits
  have hsum := saturatingAdd_le final.source.ownershipWindow.endMs
    (min ((following - final.source.window.endMs) / 2) trailingGapExtensionMs)
  have hgrow : final.source.ownershipWindow.endMs ≤ saturatingAdd final.source.ownershipWindow.endMs
      (min ((following - final.source.window.endMs) / 2) trailingGapExtensionMs) :=
    le_saturatingAdd (Nat.le_add_right _ _) (by omega)
  have hsame : final.source.window.endMs = final.source.ownershipWindow.endMs := by omega
  refine Partitions.of_tiles (.request ⟨_, artifact⟩) hparts hfinal rfl rfl rfl rfl ?_ ?_ ?_ hanswer
  · show original.window.endMs ≤ min _ R.duration
    omega
  · show min _ R.duration ≤ max original.window.endMs following
    omega
  · refine ⟨?_, ?_⟩
    · show final.source.window.startMs ≤ final.source.ownershipWindow.startMs
      omega
    · show min (saturatingAdd final.source.ownershipWindow.endMs _) R.duration ≤
        min (saturatingAdd final.source.window.endMs _) R.duration
      rw [hsame]

theorem planBefore_yields (probe : ResourceProbe R S P E) (original : SourceRequest R)
    (record : List (Exchange R P)) (lookup : AnchorLookup) (following : ℕ) :
    Yields FromProbe (planBefore probe original.toResourceRequest lookup following) record fun parts grown =>
      Partitions original following grown parts := by
  unfold planBefore
  apply Yields.bind (planCore_yields lookup)
  intro parts grown _ hparts
  have hpositive := (Selected.whole original).increasing
  obtain rfl | ⟨init, final, rfl⟩ := eq_nil_or_concat parts
  · obtain ⟨hsame, -⟩ := hparts
    omega
  rw [concat_eq_append] at hparts ⊢
  obtain ⟨m, t, hinit, hlast⟩ := hparts.of_append
  have hfinal := hlast.of_single
  rw [getLast?_concat]
  match final with
  | .unavailable limited => exact Yields.pure (hinit.partitions hfinal)
  | .request piece =>
    simp only
    cases hproposal : piece.source.trailingProposal following with
    | none => exact Yields.pure (hinit.partitions hfinal)
    | some proposal =>
      apply Yields.bind (askProbe_yields probe proposal.words.words proposal.window)
      intro outcome later hlater hanswer
      cases outcome with
      | limited constraint => exact Yields.pure ((hinit.mono hlater).partitions (hfinal.mono hlater))
      | prepared artifact =>
        simp only [dropLast_concat]
        exact Yields.pure ((hinit.mono hlater).partitions_extended hproposal (hfinal.mono hlater)
          (hanswer artifact rfl))

/-- Planning ends for every request, anchors and probe, and succeeds with a partition unless the probe
fails. -/
theorem planBefore_partitions (probe : ResourceProbe R S P E) (original : SourceRequest R) (lookup : AnchorLookup)
    (following : ℕ) (state : S) :
    match (planBefore probe original.toResourceRequest lookup following).run ⟨state, []⟩ with
    | .ok (parts, st) => Partitions original following st.record parts
    | .error error => ∃ cause, error = .probe cause := by
  have h := planBefore_yields probe original [] lookup following state
  cases hrun : (planBefore probe original.toResourceRequest lookup following).run ⟨state, []⟩ with
  | error error =>
    rw [hrun] at h
    exact h
  | ok out =>
    rw [hrun] at h
    exact h.2

def fourSeconds : Recording := ⟨4000, by decide, by decide⟩

def oneTwo : SourceRequest fourSeconds :=
  .fromRecorded noAnchors 0 ⟨"CHI", [], none, [.word ⟨"one", none⟩, .word ⟨"two", none⟩], [], []⟩
    ⟨0, 4000, by decide, by decide⟩ (by decide)

def shortProbe : ResourceProbe fourSeconds Unit Unit Empty where
  prepare _ _ window := (.ok (if window.len ≤ 2500 then .prepared () else .limited (.model .modelConstraint)), ())

def oneHeard : UtteranceAnchors := UtteranceAnchors.admit 2 [⟨0, 500, 1800⟩] |>.get (by decide)

/-- The window is too long for the model, and is cut where the first word was heard to end. -/
theorem planBefore_partitions_two_words :
    ∃ parts st, (planBefore shortProbe oneTwo.toResourceRequest (.anchored oneHeard) 4000).run ⟨(), []⟩ =
        .ok (parts, st) ∧ parts.length = 2 ∧ Partitions oneTwo 4000 st.record parts := by
  have hlength : ((planBefore shortProbe oneTwo.toResourceRequest (.anchored oneHeard) 4000).run ⟨(), []⟩).toOption.map
      (fun out => out.1.length) = some 2 := by
    decide +kernel
  have hparts := planBefore_partitions shortProbe oneTwo (.anchored oneHeard) 4000 ()
  cases hrun : (planBefore shortProbe oneTwo.toResourceRequest (.anchored oneHeard) 4000).run ⟨(), []⟩ with
  | error e =>
    rw [hrun] at hlength
    cases hlength
  | ok out =>
    rw [hrun] at hlength hparts
    exact ⟨out.1, out.2, rfl, Option.some.inj hlength, hparts⟩
end Batchalign.Fa
