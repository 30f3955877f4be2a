import Batchalign.Compare.Projected

/-
  Morphology that belongs to its words, and `%gra` that keeps step with `%mor`
-/
namespace Batchalign.Compare
open DpAlign Morphosyntax List
open Option (bind_some)

variable {M T : Type} (C : Chatter M T) (D : WordLists)

theorem length_flattenWords_le (pos : GoldPos) (utterance position : ℕ) (words : List LanguagedWord) :
    (flattenWords C pos utterance position words).length ≤ words.length := by
  induction words generalizing position with
  | nil => simp [flattenWords]
  | cons languaged rest ih =>
    simp only [flattenWords, length_cons]
    split
    · have := ih position
      omega
    · have := ih (position + 1)
      simp only [length_cons]
      omega

variable {w : FlattenedWord} {file : ChatFile M T} {u : Utterance M T}

theorem flattenWords_lt {pos : GoldPos} {utterance position : ℕ} {words : List LanguagedWord}
    (h : w ∈ flattenWords C pos utterance position words) :
    w.position < position + (flattenWords C pos utterance position words).length := by
  induction words generalizing position with
  | nil => simp [flattenWords] at h
  | cons languaged rest ih =>
    simp only [flattenWords] at h ⊢
    split at h
    · rw [if_pos (by assumption)]
      exact ih h
    · rw [if_neg (by assumption), length_cons]
      rcases mem_cons.mp h with rfl | h
      · simp
      · have := ih h
        omega

theorem flattenWords_all {pos : GoldPos} {utterance position : ℕ} (first : ℕ) {words : List LanguagedWord}
    (hindex : ∀ k w, words[k]? = some w → w.word.utteranceWordIndex = first + k)
    (hall : (flattenWords C pos utterance position words).length = words.length) :
    ∀ w ∈ flattenWords C pos utterance position words,
      w.word.word.utteranceWordIndex + position = first + w.position := by
  induction words generalizing position first with
  | nil => simp [flattenWords]
  | cons languaged rest ih =>
    have hrest : ∀ k w, rest[k]? = some w → w.word.utteranceWordIndex = first + 1 + k := by
      intro k w hw
      have := hindex (k + 1) w (by simpa using hw)
      omega
    simp only [flattenWords] at hall ⊢
    split at hall
    · -- a word left out makes the list too short
      have := length_flattenWords_le C pos utterance position rest
      simp only [length_cons] at hall
      omega
    · rw [if_neg (by assumption)]
      intro w hw
      rcases mem_cons.mp hw with rfl | hw
      · have := hindex 0 languaged (by simp)
        simp only [add_zero] at this
        simp only [this]
      · have := ih (first + 1) hrest (by simpa using hall) w hw
        omega

theorem mem_flattenSide (h : w ∈ flattenSide C (ComparedDocument.of C file)) :
    ∃ u, file.utterances[w.word.utterance]? = some u ∧
      w ∈ flattenWords C (GoldPos.of C file) w.word.utterance 0
        (languagedUtterance C file.languageDeclaration w.word.utterance u).words := by
  obtain ⟨utt, hutt, hw⟩ := mem_flatMap.mp h
  have hutterance := mem_languagedUtterances C hutt w.word (mem_flattenWords C hw).1
  simp only [ComparedDocument.of, languagedUtterances, mem_mapIdx] at hutt
  obtain ⟨i, hi, rfl⟩ := hutt
  have hi' : w.word.utterance = i := hutterance
  refine ⟨file.utterances[i], by rw [hi']; exact getElem?_eq_getElem hi, ?_⟩
  rw [hi']
  exact hw

theorem languagedUtterance_index {declared : Except LanguageDeclarationError DeclaredLanguages}
    {g k : ℕ} {w : LanguagedWord}
    (h : (languagedUtterance C declared g u).words[k]? = some w) : w.word.utteranceWordIndex = k := by
  simp only [languagedUtterance, collectUtteranceContent, getElem?_map, getElem?_mapIdx,
    Option.map_eq_some_iff] at h
  obtain ⟨_, ⟨word, _, rfl⟩, rfl⟩ := h
  rfl

@[simp] theorem length_languagedUtterance_words
    (declared : Except LanguageDeclarationError DeclaredLanguages) (g : ℕ) (u : Utterance M T) :
    (languagedUtterance C declared g u).words.length = u.words.length := by
  simp [languagedUtterance, collectUtteranceContent]

theorem comparedWordCounts_getElem? {g : ℕ} (hu : file.utterances[g]? = some u) :
    (comparedWordCounts C (extractWords file))[g]? =
      some ((collectUtteranceContent u.words).filter fun w => !isPunctOrFiller C w.text).length := by
  simp [comparedWordCounts, extractWords, hu]

theorem mem_flattenWords_of_mem {g : ℕ}
    (hu : file.utterances[g]? = some u) (hw : w ∈ flattenSide C (ComparedDocument.of C file)) (hg : w.word.utterance = g) :
    w ∈ flattenWords C (GoldPos.of C file) g 0
      (languagedUtterance C file.languageDeclaration g u).words := by
  subst hg
  obtain ⟨u', hu', hw'⟩ := mem_flattenSide C hw
  rw [hu, Option.some.injEq] at hu'
  rw [hu']
  exact hw'

theorem position_lt {g : ℕ}
    (hu : file.utterances[g]? = some u) (hw : w ∈ flattenSide C (ComparedDocument.of C file)) (hg : w.word.utterance = g) :
    w.position < u.words.length := by
  have hlt := flattenWords_lt C (mem_flattenWords_of_mem C hu hw hg)
  have hle := length_flattenWords_le C (GoldPos.of C file) g 0
    (languagedUtterance C file.languageDeclaration g u).words
  rw [length_languagedUtterance_words] at hle
  omega

theorem compared_all_iff (words : List MorDomainWord) :
    ((collectUtteranceContent words).filter fun w => !isPunctOrFiller C w.text).length =
      words.length ↔ ∀ w ∈ words, isPunctOrFiller C w.text = false := by
  have hlength : words.length = (collectUtteranceContent words).length := by
    simp [collectUtteranceContent]
  rw [hlength, length_filter_eq_length_iff]
  simp only [collectUtteranceContent, mem_mapIdx, Bool.not_eq_true']
  constructor
  · intro h w hw
    obtain ⟨k, hk, rfl⟩ := getElem_of_mem hw
    exact h _ ⟨k, hk, rfl⟩
  · rintro h _ ⟨k, hk, rfl⟩
    exact h _ (getElem_mem hk)

theorem dedup_length_le {ps : List ℕ} {n : ℕ} (h : ∀ p ∈ ps, p < n) : ps.dedup.length ≤ n := by
  rw [← card_toFinset, ← Finset.card_range n]
  exact Finset.card_le_card fun p hp => Finset.mem_range.mpr (h p (mem_toFinset.mp hp))

theorem index_eq_position {main gold : ChatFile M T} {coverage : GoldCoverage} {g : ℕ}
    (hu : gold.utterances[g]? = some u) (hpositions : (((compare C D main gold coverage).matchesOf g).map
      (·.goldWordPosition)).dedup.length = u.words.length)
    {gw : FlattenedWord} (hgw : gw ∈ flattenSide C (ComparedDocument.of C gold))
    (hg : gw.word.utterance = g) : gw.word.word.utteranceWordIndex = gw.position := by
  have hle : u.words.length ≤ (flattenWords C (GoldPos.of C gold) g 0
      (languagedUtterance C gold.languageDeclaration g u).words).length := by
    rw [← hpositions]
    refine dedup_length_le fun p hp => ?_
    obtain ⟨item, hitem, rfl⟩ := mem_map.mp hp
    obtain ⟨hitem, hitemg⟩ := mem_filter.mp hitem
    obtain ⟨w, hw, _, _, rfl⟩ := match_words C D hitem
    have := flattenWords_lt C (mem_flattenWords_of_mem C hu hw (of_decide_eq_true hitemg))
    simpa [GoldWordMatch.of] using this
  have hge := length_flattenWords_le C (GoldPos.of C gold) g 0
    (languagedUtterance C gold.languageDeclaration g u).words
  rw [length_languagedUtterance_words] at hge
  have := flattenWords_all C 0 (fun k w hw => by simp [languagedUtterance_index C hw])
    (by rw [length_languagedUtterance_words]; exact le_antisymm hge hle) gw
    (mem_flattenWords_of_mem C hu hgw hg)
  simpa using this

/-- Every `%mor` tier has one item for each word of its utterance. -/
def MorAligned (file : ChatFile M T) : Prop :=
  ∀ u ∈ file.utterances, ∀ tier, DependentTier.mor tier ∈ u.dependentTiers →
    tier.items.length = u.words.length

def mainItem (main : ChatFile M T) (mw : FlattenedWord) : Option (Mor M) :=
  main.utterances[mw.word.utterance]?.bind fun u => u.morItems[mw.word.word.utteranceWordIndex]?

def MatchedIn (main gold : ChatFile M T) (bundle : ComparisonBundle) (g : ℕ)
    (gw mw : FlattenedWord) : Prop :=
  gw ∈ flattenSide C (ComparedDocument.of C gold) ∧
    mw ∈ flattenSide C (ComparedDocument.of C main) ∧
    GoldWordMatch.of gw mw ∈ bundle.goldWordMatches ∧ gw.word.utterance = g

/-- A `%mor` tier with one item for each word, a matched word's being that of its match. -/
def BelongsTo (main gold : ChatFile M T) (bundle : ComparisonBundle) (g : ℕ) (u : Utterance M T)
    (tier : MorTier M T) : Prop :=
  tier.items.length = u.words.length ∧ ∀ gw mw, MatchedIn C main gold bundle g gw mw →
    tier.items[gw.word.word.utteranceWordIndex]? = mainItem main mw

/-- Every `%mor` tier that the projection changed belongs to the words it is written on. -/
def ProjectionBelongs (main gold : ChatFile M T) (bundle : ComparisonBundle) : Prop :=
  ∀ g u u', gold.utterances[g]? = some u →
    (projectGoldStructurally C main gold bundle).utterances[g]? = some u' →
    u'.morTier ≠ u.morTier → ∃ tier, u'.morTier = some tier ∧ BelongsTo C main gold bundle g u tier

/-- The main item of a gold word: at its own index in an utterance copied whole, else of its last match. -/
def readItem (main gold : ChatFile M T) (bundle : ComparisonBundle) (g : ℕ) (gw : FlattenedWord) :
    Option (Mor M) :=
  match exactSource C main gold bundle g with
  | some m => (main.utterances[m]?.bind Utterance.lastMor).bind
      (·.items[gw.word.word.utteranceWordIndex]?)
  | none => suppliedItem main bundle g gw.position

/-- The item read for a gold word is its match's own, and an utterance not copied whole has compared
words only. -/
structure ReadsInPlace (main gold : ChatFile M T) (bundle : ComparisonBundle) (g : ℕ)
    (u : Utterance M T) : Prop where
  compared : exactSource C main gold bundle g = none → ∀ w ∈ u.words, isPunctOrFiller C w.text = false
  item : ∀ gw mw, MatchedIn C main gold bundle g gw mw →
    readItem C main gold bundle g gw = mainItem main mw

variable {tier : MorTier M T}

section Belongs
variable {main gold : ChatFile M T} {bundle : ComparisonBundle} {g : ℕ} {u : Utterance M T}

theorem belongsTo_exact_iff (hmain : MorAligned main) {m : ℕ} {mu : Utterance M T} (hexact : exactSource C main gold bundle g = some m)
    (hu : gold.utterances[g]? = some u) (hmu : main.utterances[m]? = some mu)
    (htier : mu.lastMor = some tier) :
    BelongsTo C main gold bundle g u tier ↔ ReadsInPlace C main gold bundle g u := by
  have hread (gw : FlattenedWord) : readItem C main gold bundle g gw =
      tier.items[gw.word.word.utteranceWordIndex]? := by
    simp [readItem, hexact, hmu, htier]
  have hlength : tier.items.length = u.words.length := by
    obtain ⟨mu', hmu', hwords, _⟩ := exactSource_some C hexact hu
    cases hmu.symm.trans hmu'
    rw [hmain mu (mem_of_getElem? hmu) _ (mem_of_lastMor htier), hwords]
  constructor
  · intro h
    refine ⟨fun hnone => ?_, fun gw mw hmatched => ?_⟩
    · rw [hexact] at hnone
      cases hnone
    · rw [hread, h.2 gw mw hmatched]
  · intro h
    refine ⟨hlength, fun gw mw hmatched => ?_⟩
    rw [← hread, h.item gw mw hmatched]

end Belongs

section Compared
variable {main gold : ChatFile M T} {coverage : GoldCoverage} {g : ℕ} {u : Utterance M T}

theorem belongsTo_items_iff (hexact : exactSource C main gold (compare C D main gold coverage) g = none)
    (hmor : projectedMor C main gold (compare C D main gold coverage) g = some tier)
    (hu : gold.utterances[g]? = some u) :
    BelongsTo C main gold (compare C D main gold coverage) g u tier ↔
      ReadsInPlace C main gold (compare C D main gold coverage) g u := by
  obtain ⟨hlength, hpositions, hitems⟩ :=
    projectedMor_items C (comparedWordCounts_getElem? C hu) hmor
  have hread (gw : FlattenedWord) : readItem C main gold (compare C D main gold coverage) g gw =
      suppliedItem main (compare C D main gold coverage) g gw.position := by
    simp [readItem, hexact]
  -- the item at a compared word's index is the one supplied for its position
  have hplace (hall : tier.items.length = u.words.length) {gw mw : FlattenedWord}
      (hmatched : MatchedIn C main gold (compare C D main gold coverage) g gw mw) :
      tier.items[gw.word.word.utteranceWordIndex]? =
        suppliedItem main (compare C D main gold coverage) g gw.position := by
    have hindex := index_eq_position C D hu (hpositions.trans (hlength.symm.trans hall))
      hmatched.1 hmatched.2.2.2
    rw [hindex]
    have hlt := position_lt C hu hmatched.1 hmatched.2.2.2
    exact hitems _ (by omega)
  constructor
  · rintro ⟨hall, hbelongs⟩
    refine ⟨fun _ => (compared_all_iff C u.words).mp (hlength.symm.trans hall),
      fun gw mw hmatched => ?_⟩
    rw [hread, ← hplace hall hmatched, hbelongs gw mw hmatched]
  · intro h
    have hall : tier.items.length = u.words.length :=
      hlength.trans ((compared_all_iff C u.words).mpr (h.compared hexact))
    refine ⟨hall, fun gw mw hmatched => ?_⟩
    rw [hplace hall hmatched, ← hread, h.item gw mw hmatched]

theorem changed_belongs_iff (hmain : MorAligned main) (hu : gold.utterances[g]? = some u)
    {u' : Utterance M T}
    (hu' : (projectGoldStructurally C main gold (compare C D main gold coverage)).utterances[g]? =
      some u') (hchanged : u'.morTier ≠ u.morTier) : (∃ tier, u'.morTier = some tier ∧
        BelongsTo C main gold (compare C D main gold coverage) g u tier) ↔
      ReadsInPlace C main gold (compare C D main gold coverage) g u := by
  rw [projected_utterance, hu, Option.map_some, Option.some.injEq] at hu'
  subst hu'
  cases hexact : exactSource C main gold (compare C D main gold coverage) g with
  | some m =>
    obtain ⟨mu, hmu, _, _⟩ := exactSource_some C hexact hu
    have htier := (projectTiers_exact C (u := u) hexact hmu).1
    cases hlast : mu.lastMor with
    | none =>
      rw [hlast, Option.none_or] at htier
      exact absurd htier hchanged
    | some tier =>
      rw [hlast, Option.some_or] at htier
      rw [← belongsTo_exact_iff C hmain hexact hu hmu hlast]
      simp [Utterance.morTier, htier]
  | none =>
    cases hmor : projectedMor C main gold (compare C D main gold coverage) g with
    | none =>
      refine absurd ?_ hchanged
      simp only [projectTiers_kept C hexact hmor]
    | some tier =>
      rw [← belongsTo_items_iff C D hexact hmor hu]
      simp [Utterance.morTier, (projectTiers_items C (u := u) hexact hmor).1]

end Compared

section
variable (main gold : ChatFile M T) (bundle : ComparisonBundle) (g : ℕ) (u : Utterance M T)

/-- The matched words stand where their items are read: at one index, in an utterance copied whole with its `%mor`;
  else all words are compared, and the last match of a word's position is at the matched word's index. -/
structure WordsCorrespond : Prop where
  whole : ∀ m mu tier, MatchedWhole C main gold bundle g m → main.utterances[m]? = some mu → mu.lastMor = some tier →
    mu.morTier = some tier ∧ ∀ gw mw, MatchedIn C main gold bundle g gw mw →
      gw.word.word.utteranceWordIndex = mw.word.word.utteranceWordIndex
  words : (∀ m, ¬ MatchedWhole C main gold bundle g m) → MatchedWords C main gold bundle g →
    (∀ w ∈ u.words, isPunctOrFiller C w.text = false) ∧ ∀ gw mw, MatchedIn C main gold bundle g gw mw →
      ∀ last, lastMatch bundle g gw.position = some last →
        last.mainPair = (mw.word.utterance, mw.word.word.utteranceWordIndex)

end

/-- No two main words share an item, and no utterance has two `%mor` tiers. -/
structure DistinctItems (main : ChatFile M T) : Prop where
  single : ∀ u ∈ main.utterances, u.lastMor = u.morTier
  distinct : ∀ (m m' j j' : ℕ) (item : Mor M), (main.utterances[m]?.bind fun u => u.morItems[j]?) = some item →
    (main.utterances[m']?.bind fun u => u.morItems[j']?) = some item → (m, j) = (m', j')

section Correspond
variable {main gold : ChatFile M T} {bundle : ComparisonBundle} {g : ℕ} {u : Utterance M T} {gw mw : FlattenedWord}

theorem MatchedIn.mem (h : MatchedIn C main gold bundle g gw mw) : GoldWordMatch.of gw mw ∈ bundle.matchesOf g :=
  mem_filter.mpr ⟨h.2.2.1, decide_eq_true h.2.2.2⟩

theorem index_lt (hu : gold.utterances[g]? = some u) (h : MatchedIn C main gold bundle g gw mw) :
    gw.word.word.utteranceWordIndex < u.words.length := by
  obtain ⟨hword, -⟩ := mem_flattenWords C (mem_flattenWords_of_mem C hu h.1 h.2.2.2)
  obtain ⟨k, hk⟩ := mem_iff_getElem?.mp hword
  rw [languagedUtterance_index C hk]
  have hlt := (List.getElem?_eq_some_iff.mp hk).1
  rwa [length_languagedUtterance_words] at hlt

theorem mainItem_pair (last : GoldWordMatch) (h : last.mainPair = (mw.word.utterance, mw.word.word.utteranceWordIndex)) :
    last.mainItem main = mainItem main mw := by
  obtain ⟨hutterance, hposition⟩ := Prod.mk.inj h
  rw [GoldWordMatch.mainItem, hutterance, hposition, collectMorItems, getElem?_map, mainItem]
  cases main.utterances[mw.word.utterance]? <;> rfl

theorem morItems_eq {tier : MorTier M T} (h : u.morTier = some tier) : u.morItems = tier.items := by
  rw [Utterance.morItems, h]

theorem WordsCorrespond.readsInPlace (h : WordsCorrespond C main gold bundle g u) (hu : gold.utterances[g]? = some u)
    {u' : Utterance M T} (hu' : (projectGoldStructurally C main gold bundle).utterances[g]? = some u')
    (hchanged : u'.morTier ≠ u.morTier) : ReadsInPlace C main gold bundle g u := by
  rw [projected_utterance, hu, Option.map_some, Option.some.injEq] at hu'
  subst hu'
  cases hexact : exactSource C main gold bundle g with
  | some m =>
    obtain ⟨mu, hmu, -, hsource⟩ := exactSource_some C hexact hu
    cases hlast : mu.lastMor with
    | none =>
      have htier := (projectTiers_exact C (u := u) hexact hmu).1
      rw [hlast, Option.none_or] at htier
      exact absurd htier hchanged
    | some tier =>
      obtain ⟨htier, hindex⟩ := h.whole m mu tier ((exactSource_eq_some C).mp hexact) hmu hlast
      refine ⟨fun hnone => (nomatch hexact.symm.trans hnone), fun gw mw hmatched => ?_⟩
      have hutterance : mw.word.utterance = m := hsource _ hmatched.mem
      simp only [readItem, hexact, mainItem, hutterance, hmu, bind_some, hlast, morItems_eq htier, hindex gw mw hmatched]
  | none =>
    cases hmor : projectedMor C main gold bundle g with
    | none =>
      refine absurd ?_ hchanged
      simp only [projectTiers_kept C hexact hmor]
    | some tier =>
      have hnone (m : ℕ) : ¬ MatchedWhole C main gold bundle g m := by
        rw [← exactSource_eq_some, hexact]
        exact fun hsome => nomatch hsome
      obtain ⟨hcompared, hplace⟩ := h.words hnone
        ((projectedMor_isSome C (comparedWordCounts_getElem? C hu)).mp (by rw [hmor]; rfl))
      refine ⟨fun _ => hcompared, fun gw mw hmatched => ?_⟩
      obtain ⟨last, hlast⟩ := exists_lastMatch ⟨_, hmatched.mem, rfl⟩
      simp only [readItem, hexact, suppliedItem]
      rw [show lastMatch bundle g gw.position = some last from hlast, bind_some]
      exact mainItem_pair last (hplace gw mw hmatched last hlast)

theorem ReadsInPlace.wordsCorrespond (h : ReadsInPlace C main gold bundle g u) (hmain : MorAligned main)
    (hdistinct : DistinctItems main) (hu : gold.utterances[g]? = some u) : WordsCorrespond C main gold bundle g u := by
  constructor
  · intro m mu tier hwhole hmu hlast
    have htier : mu.morTier = some tier := (hdistinct.single mu (mem_of_getElem? hmu)).symm.trans hlast
    refine ⟨htier, fun gw mw hmatched => ?_⟩
    have hexact := (exactSource_eq_some C).mpr hwhole
    obtain ⟨mu', hmu', hwords, -⟩ := exactSource_some C hexact hu
    cases hmu.symm.trans hmu'
    have hitem := h.item gw mw hmatched
    have hlt : gw.word.word.utteranceWordIndex < tier.items.length := by
      rw [hmain mu (mem_of_getElem? hmu) _ (mem_of_lastMor hlast), hwords]
      exact index_lt C hu hmatched
    simp only [readItem, hexact, hmu, bind_some, hlast] at hitem
    have hown : (main.utterances[m]?.bind fun mu => mu.morItems[gw.word.word.utteranceWordIndex]?) =
        tier.items[gw.word.word.utteranceWordIndex]? := by
      rw [hmu, bind_some, morItems_eq htier]
    rw [getElem?_eq_getElem hlt] at hitem hown
    exact (Prod.mk.inj (hdistinct.distinct _ _ _ _ _ hown hitem.symm)).2
  · intro hnone hwords
    have hexact : exactSource C main gold bundle g = none := by
      rw [Option.eq_none_iff_forall_ne_some]
      exact fun m hm => hnone m ((exactSource_eq_some C).mp hm)
    refine ⟨h.compared hexact, fun gw mw hmatched last hlast => ?_⟩
    have hitem := h.item gw mw hmatched
    simp only [readItem, hexact, suppliedItem, hlast, bind_some] at hitem
    obtain ⟨item, hown⟩ := Option.isSome_iff_exists.mp (hwords.items last (lastMatch_some hlast).1)
    rw [hown] at hitem
    rw [GoldWordMatch.mainItem, collectMorItems, getElem?_map, Option.bind_map] at hown
    exact hdistinct.distinct _ _ _ _ _ hown hitem.symm

end Correspond

/-- Projected morphology belongs to its words where the matched words correspond; and, where no two main words
  share an item, nowhere else. -/
theorem projection_belongs_iff {main : ChatFile M T} (hmain : MorAligned main) (gold : ChatFile M T)
    (coverage : GoldCoverage) :
    ((∀ g u, gold.utterances[g]? = some u → WordsCorrespond C main gold (compare C D main gold coverage) g u) →
      ProjectionBelongs C main gold (compare C D main gold coverage)) ∧
    (DistinctItems main → ProjectionBelongs C main gold (compare C D main gold coverage) →
      ∀ g u u', gold.utterances[g]? = some u →
        (projectGoldStructurally C main gold (compare C D main gold coverage)).utterances[g]? = some u' →
        u'.morTier ≠ u.morTier → WordsCorrespond C main gold (compare C D main gold coverage) g u) := by
  constructor
  · intro h g u u' hu hu' hchanged
    exact (changed_belongs_iff C D hmain hu hu' hchanged).mpr ((h g u hu).readsInPlace C hu hu' hchanged)
  · intro hdistinct h g u u' hu hu' hchanged
    exact ((changed_belongs_iff C D hmain hu hu' hchanged).mp (h g u u' hu hu' hchanged)).wordsCorrespond C hmain
      hdistinct hu

def umFirst : ChatFile String String :=
  plainFile [(["um", "hello", "world"], [.mor ⟨[⟨"intj", []⟩, ⟨"co", []⟩, ⟨"n", []⟩], "."⟩])]

def umSecond : ChatFile String String := plainFile [(["hello", "um", "world"], [])]

theorem umFirst_aligned : MorAligned umFirst := by
  simp [MorAligned, umFirst, plainFile]

def umInOrder : ChatFile String String := plainFile [(["um", "hello", "world"], [])]

/-- The same words in one order. -/
theorem projection_belongs_iff_um : ProjectionBelongs plainChatter umFirst umInOrder
    (compare plainChatter noWordLists umFirst umInOrder .complete) := by
  refine (projection_belongs_iff plainChatter noWordLists umFirst_aligned umInOrder .complete).1 fun g u hu => ?_
  have hexact : exactSource plainChatter umFirst umInOrder
      (compare plainChatter noWordLists umFirst umInOrder .complete) 0 = some 0 := by decide +kernel
  have hplaces : ∀ gw ∈ flattenSide plainChatter (ComparedDocument.of plainChatter umInOrder),
      ∀ mw ∈ flattenSide plainChatter (ComparedDocument.of plainChatter umFirst),
        GoldWordMatch.of gw mw ∈ (compare plainChatter noWordLists umFirst umInOrder .complete).goldWordMatches →
          gw.word.word.utteranceWordIndex = mw.word.word.utteranceWordIndex := by decide +kernel
  cases g with
  | succ g => cases hu
  | zero =>
    refine ⟨fun m mu tier hwhole hmu hlast => ?_, fun hnone => absurd ((exactSource_eq_some _).mp hexact) (hnone 0)⟩
    cases hexact.symm.trans ((exactSource_eq_some _).mpr hwhole)
    cases hmu
    cases hlast
    exact ⟨rfl, fun gw mw h => hplaces gw h.1 mw h.2.1 h.2.2.1⟩

/-- The item of "um" is written on "hello", which stands first in the gold. -/
theorem um_item_on_hello : MorAligned umFirst ∧ MorAligned umSecond ∧
      ¬ ProjectionBelongs plainChatter umFirst umSecond
        (compare plainChatter noWordLists umFirst umSecond .complete) := by
  refine ⟨umFirst_aligned, by simp [MorAligned, umSecond, plainFile], fun h => ?_⟩
  have hprojected : (projectGoldStructurally plainChatter umFirst umSecond
      (compare plainChatter noWordLists umFirst umSecond .complete)).utterances[0]? =
      some { umSecond.utterances[0] with dependentTiers := umFirst.utterances[0].dependentTiers } := by
    decide +kernel
  have hmatched : MatchedIn plainChatter umFirst umSecond
      (compare plainChatter noWordLists umFirst umSecond .complete) 0
      ⟨⟨⟨⟨"hello", .utterance, ""⟩, 0⟩, 0, ⟨.language "eng", .utteranceLanguage⟩⟩, 0, none⟩
      ⟨⟨⟨⟨"hello", .utterance, ""⟩, 1⟩, 0, ⟨.language "eng", .utteranceLanguage⟩⟩, 0, some "CO"⟩ :=
    ⟨by decide +kernel, by decide +kernel, by decide +kernel, rfl⟩
  obtain ⟨tier, htier, _, hitems⟩ := h 0 _ _ rfl hprojected (by decide)
  cases htier
  exact absurd (hitems _ _ hmatched) (by decide +kernel)

def InStep : Option (MorTier M T) → Option (List (GrammaticalRelation String)) → Prop
  | some tier, some relations => relations.length = tier.countChunks + 1
  | none, _ | some _, none => True

instance : (mor : Option (MorTier M T)) → (gra : Option (List (GrammaticalRelation String))) →
    Decidable (InStep mor gra)
  | some tier, some relations =>
    inferInstanceAs (Decidable (relations.length = tier.countChunks + 1))
  | none, _ => .isTrue trivial
  | some _, none => .isTrue trivial

def Utterance.InStep (u : Utterance M T) : Prop := Compare.InStep u.morTier u.graTier

instance (u : Utterance M T) : Decidable u.InStep :=
  inferInstanceAs (Decidable (Compare.InStep u.morTier u.graTier))

/-- The chunks of the items supplied for the first `n` places. -/
def suppliedChunks (main : ChatFile M T) (bundle : ComparisonBundle) (g n : ℕ) : ℕ :=
  ((List.range n).map fun p => ((suppliedItem main bundle g p).map countChunks).getD 0).sum

/-- Any `%mor` tier and any `%gra` tier of the utterance are in step. -/
def Utterance.TiersInStep (u : Utterance M T) : Prop :=
  ∀ tier relations, .mor tier ∈ u.dependentTiers → .gra relations ∈ u.dependentTiers →
    relations.length = tier.countChunks + 1

/-- Matched whole with an utterance of only one of the two tiers, it fits the gold's other one; matched word by word,
  the gold's relations count the chunks of the items supplied. -/
structure KeepsStep (main gold : ChatFile M T) (bundle : ComparisonBundle) (g : ℕ) (u : Utterance M T) : Prop where
  whole : ∀ m mu, MatchedWhole C main gold bundle g m → main.utterances[m]? = some mu →
    (∀ tier relations, mu.lastMor = some tier → mu.lastGra = none → u.graTier = some relations →
      relations.length = tier.countChunks + 1) ∧
    ∀ tier relations, mu.lastMor = none → mu.lastGra = some relations → u.morTier = some tier →
      relations.length = tier.countChunks + 1
  words : (∀ m, ¬ MatchedWhole C main gold bundle g m) → MatchedWords C main gold bundle g →
    ∀ relations, u.graTier = some relations →
      relations.length = suppliedChunks main bundle g (comparedWordCounts C (extractWords gold))[g]! + 1

section Step
variable {main gold : ChatFile M T} {bundle : ComparisonBundle} {g : ℕ} {u : Utterance M T}

theorem countChunks_projectedMor {n : ℕ} (hn : (comparedWordCounts C (extractWords gold))[g]? = some n)
    (hmor : projectedMor C main gold bundle g = some tier) :
    tier.countChunks = suppliedChunks main bundle g n := by
  obtain ⟨hlength, _, hitems⟩ := projectedMor_items C hn hmor
  have hmap : tier.items.map countChunks =
      (range n).map fun p => ((suppliedItem main bundle g p).map countChunks).getD 0 := by
    apply ext_getElem
    · simp [hlength]
    · intro p hp _
      rw [length_map] at hp
      have := hitems p (hlength ▸ hp)
      simp [← this, getElem?_eq_getElem hp]
  rw [MorTier.countChunks, suppliedChunks, hmap]

theorem projected_inStep_iff (hmain : ∀ mu ∈ main.utterances, mu.TiersInStep) (hu : gold.utterances[g]? = some u)
    (hstep : u.InStep) :
    InStep ((projectTiers C main gold bundle g u.dependentTiers).findSome? DependentTier.mor?)
        ((projectTiers C main gold bundle g u.dependentTiers).findSome? DependentTier.gra?) ↔
      KeepsStep C main gold bundle g u := by
  cases hexact : exactSource C main gold bundle g with
  | some m =>
    obtain ⟨mu, hmu, _, _⟩ := exactSource_some C hexact hu
    obtain ⟨hmor, hgra⟩ := projectTiers_exact C (u := u) hexact hmu
    have hwhole := (exactSource_eq_some C).mp hexact
    have hkeeps : KeepsStep C main gold bundle g u ↔
        (∀ tier relations, mu.lastMor = some tier → mu.lastGra = none → u.graTier = some relations →
          relations.length = tier.countChunks + 1) ∧
        ∀ tier relations, mu.lastMor = none → mu.lastGra = some relations → u.morTier = some tier →
          relations.length = tier.countChunks + 1 := by
      refine ⟨fun h => h.whole m mu hwhole hmu, fun h => ⟨fun m' mu' hwhole' hmu' => ?_, fun hnone => absurd hwhole (hnone m)⟩⟩
      cases hexact.symm.trans ((exactSource_eq_some C).mpr hwhole')
      cases hmu.symm.trans hmu'
      exact h
    rw [hmor, hgra, hkeeps]
    unfold Utterance.InStep at hstep
    cases htier : mu.lastMor with
    | none =>
      cases hrelations : mu.lastGra with
      | none => simpa using hstep
      | some relations => cases u.morTier <;> simp [InStep]
    | some tier =>
      cases hrelations : mu.lastGra with
      | none => cases u.graTier <;> simp [InStep]
      | some relations =>
        simpa [InStep] using hmain mu (mem_of_getElem? hmu) tier relations (mem_of_lastMor htier) (mem_of_lastGra hrelations)
  | none =>
    have hnone (m : ℕ) : ¬ MatchedWhole C main gold bundle g m := by
      rw [← exactSource_eq_some, hexact]
      exact fun hsome => nomatch hsome
    have hn := comparedWordCounts_getElem? C hu
    have hkeeps : KeepsStep C main gold bundle g u ↔ ((projectedMor C main gold bundle g).isSome →
        ∀ relations, u.graTier = some relations → relations.length =
          suppliedChunks main bundle g (comparedWordCounts C (extractWords gold))[g]! + 1) := by
      rw [projectedMor_isSome C hn]
      exact ⟨fun h => h.words hnone, fun h => ⟨fun m _ hwhole => absurd hwhole (hnone m), fun _ => h⟩⟩
    rw [hkeeps]
    cases hmor : projectedMor C main gold bundle g with
    | none =>
      rw [projectTiers_kept C hexact hmor]
      simp only [Option.isSome_none, Bool.false_eq_true, false_implies, iff_true]
      exact hstep
    | some tier =>
      obtain ⟨hmor', hgra⟩ := projectTiers_items C (u := u) hexact hmor
      rw [hmor', hgra, getElem!_of_getElem? hn, ← countChunks_projectedMor C hn hmor]
      cases u.graTier <;> simp [InStep]

end Step

/-- The projection leaves `%mor` and `%gra` in step exactly when every utterance takes tiers that fit those it
  keeps. -/
theorem projection_in_step_iff {main gold : ChatFile M T} (hmain : ∀ mu ∈ main.utterances, mu.TiersInStep)
    (hgold : ∀ u ∈ gold.utterances, u.InStep) (bundle : ComparisonBundle) :
    (∀ u ∈ (projectGoldStructurally C main gold bundle).utterances, u.InStep) ↔
      ∀ g u, gold.utterances[g]? = some u → KeepsStep C main gold bundle g u := by
  constructor
  · intro h g u hu
    have hprojected := projected_utterance C main gold bundle g
    rw [hu, Option.map_some] at hprojected
    exact (projected_inStep_iff C hmain hu (hgold u (mem_of_getElem? hu))).mp
      (h _ (mem_of_getElem? hprojected))
  · intro h u' hu'
    obtain ⟨g, hg⟩ := mem_iff_getElem?.mp hu'
    rw [projected_utterance, Option.map_eq_some_iff] at hg
    obtain ⟨u, hu, rfl⟩ := hg
    exact (projected_inStep_iff C hmain hu (hgold u (mem_of_getElem? hu))).mpr (h g u hu)

def relations (count : ℕ) : DependentTier String String :=
  .gra ((List.range count).map fun index => ⟨index + 1, index, "INCROOT"⟩)

def withClitic : ChatFile String String :=
  plainFile [(["dalo"], [.mor ⟨[⟨"v", ["pro"]⟩], "."⟩, relations 3]),
    (["ya"], [.mor ⟨[⟨"adv", []⟩], "."⟩, relations 2])]

def withoutClitic : ChatFile String String :=
  plainFile [(["dalo", "ya"], [.mor ⟨[⟨"v", []⟩, ⟨"adv", []⟩], "."⟩, relations 3])]

theorem withClitic_inStep : ∀ u ∈ withClitic.utterances, u.InStep := by decide +kernel

theorem withoutClitic_inStep : ∀ u ∈ withoutClitic.utterances, u.InStep := by decide +kernel

def withoutTiers : ChatFile String String := plainFile [(["dalo"], []), (["ya"], [])]

theorem withClitic_tiersInStep : ∀ mu ∈ withClitic.utterances, mu.TiersInStep := by
  intro mu hmu tier relations hmor hgra
  simp only [withClitic, plainFile, map_cons, map_nil, mem_cons, not_mem_nil, or_false] at hmu
  rcases hmu with rfl | rfl
  all_goals
    simp only [Compare.relations, mem_cons, not_mem_nil, or_false, DependentTier.mor.injEq, DependentTier.gra.injEq,
      reduceCtorEq, false_or] at hmor hgra
    subst hmor hgra
    rfl

/-- Both lines are copied whole, with both tiers. -/
theorem projection_in_step_iff_clitic :
    (projectGoldStructurally plainChatter withClitic withoutTiers
      (compare plainChatter noWordLists withClitic withoutTiers .complete)).utterances.map (·.lastMor.isSome) =
        [true, true] ∧
    ∀ u ∈ (projectGoldStructurally plainChatter withClitic withoutTiers
      (compare plainChatter noWordLists withClitic withoutTiers .complete)).utterances, u.InStep := by
  refine ⟨by decide +kernel,
    (projection_in_step_iff plainChatter withClitic_tiersInStep (by decide +kernel) _).mpr fun g u hu => ?_⟩
  have hboth : ∀ mu ∈ withClitic.utterances, mu.lastMor.isSome ∧ mu.lastGra.isSome := by decide +kernel
  have hexact : ∀ g < 2, exactSource plainChatter withClitic withoutTiers
      (compare plainChatter noWordLists withClitic withoutTiers .complete) g = some g := by decide +kernel
  have hwhole := (exactSource_eq_some _).mp (hexact g (List.getElem?_eq_some_iff.mp hu).1)
  refine ⟨fun m mu _ hmu => ⟨fun tier relations _ hnone => ?_, fun tier relations hnone => ?_⟩,
    fun hnone => absurd hwhole (hnone g)⟩
  · have hgra := (hboth mu (mem_of_getElem? hmu)).2
    rw [hnone] at hgra
    cases hgra
  · have hmor := (hboth mu (mem_of_getElem? hmu)).1
    rw [hnone] at hmor
    cases hmor

/-- The clitic comes to the gold's `%mor` without its relation. -/
theorem clitic_without_relation :
    (∀ u ∈ withClitic.utterances, u.InStep) ∧ (∀ u ∈ withoutClitic.utterances, u.InStep) ∧
      ¬ ∀ u ∈ (projectGoldStructurally plainChatter withClitic withoutClitic
        (compare plainChatter noWordLists withClitic withoutClitic .complete)).utterances,
        u.InStep := by
  refine ⟨withClitic_inStep, withoutClitic_inStep, fun h => ?_⟩
  have hprojected : (projectGoldStructurally plainChatter withClitic withoutClitic
      (compare plainChatter noWordLists withClitic withoutClitic .complete)).utterances[0]? =
      some { withoutClitic.utterances[0] with
        dependentTiers := [.mor ⟨[⟨"v", ["pro"]⟩, ⟨"adv", []⟩], "."⟩, relations 3] } := by
    decide +kernel
  have hstep := h _ (mem_of_getElem? hprojected)
  exact absurd hstep (by decide +kernel)

end Batchalign.Compare
