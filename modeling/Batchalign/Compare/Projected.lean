import Batchalign.Compare.Recut
import Batchalign.Compare.Materialize

/- What a projected utterance carries: the last tier of each kind of its one main utterance, or a `%mor`
   tier with one item a compared word, that of the word's last match (`projectedMor_items`). -/
namespace Batchalign.Compare
open DpAlign Morphosyntax List
open Option (bind_eq_some_iff guard_eq_some' bind_some)

variable {M T : Type} (C : Chatter M T) (D : WordLists)

def Utterance.lastMor (u : Utterance M T) : Option (MorTier M T) :=
  (u.dependentTiers.filterMap DependentTier.mor?).getLast?

def Utterance.lastGra (u : Utterance M T) : Option (List (GrammaticalRelation String)) :=
  (u.dependentTiers.filterMap DependentTier.gra?).getLast?

variable {mu : Utterance M T}

theorem mem_of_lastMor {tier : MorTier M T} (h : mu.lastMor = some tier) : .mor tier ∈ mu.dependentTiers := by
  obtain ⟨kept, hmem, hmor⟩ := mem_filterMap.mp (mem_of_getLast? h)
  cases kept <;> simp only [DependentTier.mor?, Option.some.injEq, reduceCtorEq] at hmor
  exact hmor ▸ hmem

theorem mem_of_lastGra {relations : List (GrammaticalRelation String)}
    (h : mu.lastGra = some relations) : .gra relations ∈ mu.dependentTiers := by
  obtain ⟨kept, hmem, hgra⟩ := mem_filterMap.mp (mem_of_getLast? h)
  cases kept <;> simp only [DependentTier.gra?, Option.some.injEq, reduceCtorEq] at hgra
  exact hgra ▸ hmem

/-- What the loop does to the tiers of the `g`-th gold utterance. -/
def projectTiers (main gold : ChatFile M T) (bundle : ComparisonBundle) (g : ℕ)
    (tiers : List (DependentTier M T)) : List (DependentTier M T) :=
  match exactSource C main gold bundle g with
  | some m => match main.utterances[m]? with
    | some utt => (utt.dependentTiers.filter (tierMatches · [.mor, .gra, .wor])).foldl
        C.replaceOrAddTier tiers
    | none => tiers
  | none => match projectedMor C main gold bundle g with
    | some mor => C.replaceOrAddTier tiers (.mor mor)
    | none => tiers

theorem changeTiers_id (file : ChatFile M T) (g : ℕ) : file.changeTiers g (fun tiers => tiers) = file := by
  have : (fun utt : Utterance M T => { utt with dependentTiers := utt.dependentTiers }) = id := rfl
  simp [ChatFile.changeTiers, this]

theorem projectUtterance_eq (main gold : ChatFile M T) (bundle : ComparisonBundle)
    (projected : ChatFile M T) (g : ℕ) : projectUtterance C main gold bundle projected g =
      projected.changeTiers g (projectTiers C main gold bundle g) := by
  unfold projectUtterance projectTiers copyDependentTiers
  cases exactSource C main gold bundle g with
  | some m => cases hm : main.utterances[m]? <;> simp [hm]
  | none =>
    cases projectedMor C main gold bundle g with
    | some mor => rfl
    | none => exact (changeTiers_id projected g).symm

theorem getElem?_changeTiers (file : ChatFile M T) (i g : ℕ)
    (f : List (DependentTier M T) → List (DependentTier M T)) :
    (file.changeTiers i f).utterances[g]? = file.utterances[g]?.map fun u =>
      if i = g then { u with dependentTiers := f u.dependentTiers } else u := by
  simp only [ChatFile.changeTiers, getElem?_modify]
  rfl

theorem foldl_changeTiers (f : ℕ → List (DependentTier M T) → List (DependentTier M T))
    (file : ChatFile M T) (n g : ℕ) :
    ((range n).foldl (fun projected i => projected.changeTiers i (f i)) file).utterances[g]? =
      file.utterances[g]?.map fun u =>
        if g < n then { u with dependentTiers := f g u.dependentTiers } else u := by
  induction n with
  | zero => simp
  | succ n ih =>
    rw [range_succ, foldl_append, foldl_cons, foldl_nil, getElem?_changeTiers, ih]
    rcases lt_trichotomy g n with hlt | rfl | hgt
    · simp [hlt, Nat.lt_succ_of_lt hlt, hlt.ne', Function.comp_def]
    · simp
    · have : ¬ g < n + 1 := by omega
      simp [this, hgt.ne, Nat.not_lt_of_gt hgt]

theorem projected_utterance (main gold : ChatFile M T) (bundle : ComparisonBundle) (g : ℕ) :
    (projectGoldStructurally C main gold bundle).utterances[g]? = gold.utterances[g]?.map fun u =>
      { u with dependentTiers := projectTiers C main gold bundle g u.dependentTiers } := by
  have hstep : projectUtterance C main gold bundle = fun projected i =>
      projected.changeTiers i (projectTiers C main gold bundle i) := by
    funext projected i
    exact projectUtterance_eq C main gold bundle projected i
  rw [projectGoldStructurally, hstep, foldl_changeTiers]
  cases hu : gold.utterances[g]? with
  | none => rfl
  | some u =>
    have hg : g < (extractWords gold).length := by
      simpa [extractWords] using (List.getElem?_eq_some_iff.mp hu).1
    simp [hg]

variable {A : Type}

theorem foldl_replaceOrAddTier {f : DependentTier M T → Option A}
    (hf : ∀ tiers tier, (C.replaceOrAddTier tiers tier).findSome? f =
      (f tier).or (tiers.findSome? f)) (copied tiers : List (DependentTier M T)) :
    (copied.foldl C.replaceOrAddTier tiers).findSome? f =
      (copied.filterMap f).getLast?.or (tiers.findSome? f) := by
  induction copied generalizing tiers with
  | nil => simp
  | cons tier copied ih =>
    rw [foldl_cons, ih, hf, filterMap_cons]
    cases htier : f tier with
    | none => simp
    | some a => cases hlast : (copied.filterMap f).getLast? <;> simp [getLast?_cons, hlast]

theorem filterMap_copied {f : DependentTier M T → Option A}
    (hf : ∀ tier, (f tier).isSome → tierMatches tier [.mor, .gra, .wor] = true)
    (tiers : List (DependentTier M T)) :
    (tiers.filter (tierMatches · [.mor, .gra, .wor])).filterMap f = tiers.filterMap f := by
  rw [filterMap_filter]
  congr 1
  funext tier
  cases h : f tier with
  | none => simp
  | some a => simp [hf tier (by simp [h])]

variable {item : GoldWordMatch}

section Tiers
variable {main gold : ChatFile M T} {bundle : ComparisonBundle} {g m : ℕ} {u : Utterance M T}

theorem projectTiers_exact (hexact : exactSource C main gold bundle g = some m)
    (hmu : main.utterances[m]? = some mu) :
    (projectTiers C main gold bundle g u.dependentTiers).findSome? DependentTier.mor? =
        mu.lastMor.or u.morTier ∧
      (projectTiers C main gold bundle g u.dependentTiers).findSome? DependentTier.gra? =
        mu.lastGra.or u.graTier := by
  unfold projectTiers
  rw [hexact]
  simp only [hmu]
  rw [foldl_replaceOrAddTier C C.mor_replaceOrAddTier, foldl_replaceOrAddTier C C.gra_replaceOrAddTier,
    filterMap_copied, filterMap_copied]
  · exact ⟨rfl, rfl⟩
  · intro tier
    cases tier <;> simp [tierMatches, DependentTier.gra?]
  · intro tier
    cases tier <;> simp [tierMatches, DependentTier.mor?]

theorem projectTiers_items {mor : MorTier M T} (hexact : exactSource C main gold bundle g = none)
    (hmor : projectedMor C main gold bundle g = some mor) :
    (projectTiers C main gold bundle g u.dependentTiers).findSome? DependentTier.mor? = some mor ∧
      (projectTiers C main gold bundle g u.dependentTiers).findSome? DependentTier.gra? = u.graTier := by
  unfold projectTiers
  rw [hexact]
  simp only [hmor]
  rw [C.mor_replaceOrAddTier, C.gra_replaceOrAddTier]
  exact ⟨rfl, rfl⟩

theorem projectTiers_kept (hexact : exactSource C main gold bundle g = none)
    (hmor : projectedMor C main gold bundle g = none) (tiers : List (DependentTier M T)) :
    projectTiers C main gold bundle g tiers = tiers := by
  unfold projectTiers
  rw [hexact]
  simp only [hmor]

theorem dedup_map_length {A B : Type} [DecidableEq B] (f : A → B) (xs : List A) :
    (xs.map f).dedup.length = xs.length ↔ (xs.map f).Nodup := by
  constructor
  · intro h
    rw [← length_map f] at h
    exact dedup_eq_self.mp ((dedup_sublist _).eq_of_length h)
  · intro h
    rw [h.dedup, length_map]

variable (main gold bundle g m) in
/-- The compared words of gold utterance `g` are matched once each with all those of main utterance `m`, which has
  as many `%mor` words. -/
structure MatchedWhole : Prop where
  words : ∃ n ≠ 0, (comparedWordCounts C (extractWords gold))[g]? = some n ∧
    (comparedWordCounts C (extractWords main))[m]? = some n ∧ (bundle.matchesOf g).length = n
  alignable : (alignableWordCounts (extractWords main))[m]? = (alignableWordCounts (extractWords gold))[g]?
  positions : ((bundle.matchesOf g).map (·.goldWordPosition)).Nodup
  mainWords : ((bundle.matchesOf g).map GoldWordMatch.mainPair).Nodup
  source : ∀ item ∈ bundle.matchesOf g, item.mainUtteranceIndex = m
  tokens : ∃ goldTokens, bundle.goldUtterances[g]? = some goldTokens ∧
    ∀ token ∈ goldTokens.tokens, token.status = .matched

theorem exactSource_eq_some : exactSource C main gold bundle g = some m ↔ MatchedWhole C main gold bundle g m := by
  simp only [exactSource, exactProjectionSource, Option.bind_eq_bind, bind_eq_some_iff,
    guard_eq_some', exists_const, Option.pure_def, Option.some.injEq]
  constructor
  · rintro ⟨n, hgold, hne, hlength, hpositions, hpairs, hone, m, hhead, hcompared, halignable, tokens, htokens, hall, rfl⟩
    rw [← hlength, dedup_map_length] at hpositions hpairs
    refine ⟨⟨n, hne, hgold, hcompared, hlength⟩, halignable, hpositions, hpairs, ?_, tokens, htokens, by simpa using hall⟩
    -- one main utterance is left of all the matches name, and it is the head
    obtain ⟨only, honly⟩ := length_eq_one_iff.mp hone
    rw [honly, head?_cons, Option.some.injEq] at hhead
    intro item hitem
    have hmem : item.mainUtteranceIndex ∈ (bundle.matchesOf g).map (·.mainUtteranceIndex) :=
      mem_map_of_mem hitem
    rw [← mem_dedup, honly, mem_singleton] at hmem
    rw [hmem, hhead]
  · rintro ⟨⟨n, hne, hgold, hcompared, hlength⟩, halignable, hpositions, hpairs, hsource, tokens, htokens, hall⟩
    have hone : ((bundle.matchesOf g).map (·.mainUtteranceIndex)).dedup = [m] := by
      rw [map_congr_left hsource, map_const', hlength]
      exact replicate_dedup hne
    refine ⟨n, hgold, hne, hlength, ?_, ?_, by rw [hone]; rfl, m, by rw [hone]; rfl, hcompared, halignable, tokens,
      htokens, by simpa using hall, rfl⟩
    · rw [← hlength, dedup_map_length]
      exact hpositions
    · rw [← hlength, dedup_map_length]
      exact hpairs

theorem exactSource_some (hexact : exactSource C main gold bundle g = some m)
    (hu : gold.utterances[g]? = some u) :
    ∃ mu, main.utterances[m]? = some mu ∧ mu.words.length = u.words.length ∧
      ∀ item ∈ bundle.matchesOf g, item.mainUtteranceIndex = m := by
  obtain ⟨⟨n, _, _, hcompared, _⟩, halignable, _, _, hsource, _⟩ := (exactSource_eq_some C).mp hexact
  cases hmu : main.utterances[m]? with
  | none => simp [comparedWordCounts, extractWords, hmu] at hcompared
  | some mu =>
    refine ⟨mu, rfl, ?_, hsource⟩
    simpa [alignableWordCounts, extractWords, collectUtteranceContent, hmu, hu] using halignable

def GoldWordMatch.mainItem (main : ChatFile M T) (item : GoldWordMatch) : Option (Mor M) :=
  (collectMorItems main)[item.mainUtteranceIndex]?.bind (·[item.mainWordPosition]?)

def lastMatch (bundle : ComparisonBundle) (g position : ℕ) : Option GoldWordMatch :=
  (bundle.matchesOf g).reverse.find? fun item => item.goldWordPosition = position

def suppliedItem (main : ChatFile M T) (bundle : ComparisonBundle) (g position : ℕ) :
    Option (Mor M) :=
  (lastMatch bundle g position).bind (GoldWordMatch.mainItem main)

variable {projected filled : List (Option (Mor M))}

theorem projectItem_some
    (h : projectItem (collectMorItems main) projected item = some filled) :
    ∃ mor, item.mainItem main = some mor ∧ item.goldWordPosition < projected.length ∧
      filled = projected.set item.goldWordPosition (some mor) := by
  simp only [projectItem, Option.bind_eq_bind, bind_eq_some_iff, guard_eq_some',
    exists_const, Option.pure_def, Option.some.injEq] at h
  obtain ⟨items, hitems, mor, hmor, hlt, rfl⟩ := h
  exact ⟨mor, by simp [GoldWordMatch.mainItem, hitems, hmor], hlt, rfl⟩

theorem foldlM_projectItem {items : List GoldWordMatch}
    (h : items.foldlM (projectItem (collectMorItems main)) projected = some filled) :
    filled.length = projected.length ∧
      (∀ item ∈ items, item.goldWordPosition < projected.length ∧ (item.mainItem main).isSome) ∧
      ∀ p, filled[p]? = match items.reverse.find? (fun item => item.goldWordPosition = p) with
        | some item => some (item.mainItem main)
        | none => projected[p]? := by
  induction items generalizing projected with
  | nil =>
    obtain rfl : projected = filled := by simpa using h
    simp
  | cons item items ih =>
    simp only [foldlM_cons, Option.bind_eq_bind, bind_eq_some_iff] at h
    obtain ⟨step, hstep, hrest⟩ := h
    obtain ⟨mor, hmor, hlt, rfl⟩ := projectItem_some hstep
    obtain ⟨hlength, hplaces, hfilled⟩ := ih hrest
    rw [length_set] at hlength hplaces
    refine ⟨hlength, forall_mem_cons.mpr ⟨⟨hlt, by rw [hmor]; rfl⟩, hplaces⟩, fun p => ?_⟩
    rw [hfilled p, reverse_cons, find?_append]
    cases items.reverse.find? fun item => item.goldWordPosition = p with
    | some last => simp
    | none =>
      by_cases hp : item.goldWordPosition = p
      · subst hp
        simp [hmor, hlt]
      · simp [hp, getElem?_set_ne hp]

theorem foldlM_projectItem_isSome {items : List GoldWordMatch} {projected : List (Option (Mor M))}
    (h : ∀ item ∈ items, item.goldWordPosition < projected.length ∧ (item.mainItem main).isSome) :
    ∃ filled, items.foldlM (projectItem (collectMorItems main)) projected = some filled := by
  induction items generalizing projected with
  | nil => exact ⟨projected, rfl⟩
  | cons item items ih =>
    obtain ⟨⟨hlt, hmor⟩, hrest⟩ := forall_mem_cons.mp h
    obtain ⟨mor, hmor⟩ := Option.isSome_iff_exists.mp hmor
    obtain ⟨own, hown, hitem⟩ := bind_eq_some_iff.mp hmor
    have hstep : projectItem (collectMorItems main) projected item =
        some (projected.set item.goldWordPosition (some mor)) := by
      simp [projectItem, hown, hitem, hlt]
    rw [foldlM_cons, hstep]
    exact ih (by simpa using hrest)

theorem mapM_id_eq_some {xs : List (Option A)} {ys : List A} :
    xs.mapM id = some ys ↔ xs = ys.map some := by
  induction xs generalizing ys with
  | nil => cases ys <;> simp
  | cons x xs ih =>
    cases x with
    | none => cases ys <;> simp
    | some x =>
      simp only [mapM_cons, id, Option.bind_eq_bind, bind_some, bind_eq_some_iff,
        Option.pure_def, Option.some.injEq, ih]
      constructor
      · rintro ⟨zs, rfl, rfl⟩
        rfl
      · intro h
        cases ys with
        | nil => simp at h
        | cons y ys => simp_all

theorem mem_of_dedup_length {ps : List ℕ} {n : ℕ} (hlength : ps.dedup.length = n)
    (hlt : ∀ p ∈ ps, p < n) {p : ℕ} (hp : p < n) : p ∈ ps := by
  have hsubset : ps.toFinset ⊆ Finset.range n := fun q hq =>
    Finset.mem_range.mpr (hlt q (mem_toFinset.mp hq))
  have hall : ps.toFinset = Finset.range n :=
    Finset.eq_of_subset_of_card_le hsubset (by rw [card_toFinset, hlength, Finset.card_range])
  have : p ∈ ps.toFinset := by rw [hall]; exact Finset.mem_range.mpr hp
  exact mem_toFinset.mp this

theorem exists_position_iff {n : ℕ} (hpositions : ((bundle.matchesOf g).map (·.goldWordPosition)).dedup.length = n)
    (hlt : ∀ item ∈ bundle.matchesOf g, item.goldWordPosition < n) {p : ℕ} :
    (∃ item ∈ bundle.matchesOf g, item.goldWordPosition = p) ↔ p < n := by
  constructor
  · rintro ⟨item, hitem, rfl⟩
    exact hlt item hitem
  · intro hp
    refine mem_map.mp (mem_of_dedup_length hpositions ?_ hp)
    exact forall_mem_map.mpr hlt

theorem exists_lastMatch {p : ℕ} (h : ∃ item ∈ bundle.matchesOf g, item.goldWordPosition = p) :
    ∃ last, lastMatch bundle g p = some last := by
  obtain ⟨item, hitem, hposition⟩ := h
  rw [← Option.isSome_iff_exists, lastMatch, find?_isSome]
  exact ⟨item, mem_reverse.mpr hitem, by simpa using hposition⟩

theorem lastMatch_some {p : ℕ} {last : GoldWordMatch} (h : lastMatch bundle g p = some last) :
    last ∈ bundle.matchesOf g ∧ last.goldWordPosition = p := by
  unfold lastMatch at h
  exact ⟨mem_reverse.mp (mem_of_find?_eq_some h), by simpa using find?_some h⟩

theorem projectedMor_items {tier : MorTier M T} {n : ℕ}
    (hn : (comparedWordCounts C (extractWords gold))[g]? = some n)
    (h : projectedMor C main gold bundle g = some tier) : tier.items.length = n ∧
      ((bundle.matchesOf g).map (·.goldWordPosition)).dedup.length = n ∧
      ∀ p < n, tier.items[p]? = suppliedItem main bundle g p := by
  simp only [projectedMor, getElem!_of_getElem? hn, buildProjectedMorTier, Option.bind_eq_bind,
    bind_eq_some_iff, guard_eq_some', exists_const, Option.pure_def,
    Option.some.injEq, mapM_id_eq_some] at h
  obtain ⟨_, _, hpositions, _, _, hfilled, items, rfl, _, _, _, _, rfl⟩ := h
  obtain ⟨hlength, hplaces, hread⟩ := foldlM_projectItem hfilled
  rw [length_ownItems] at hlength hplaces
  rw [length_map] at hlength
  refine ⟨hlength, hpositions, fun p hp => ?_⟩
  -- some match names the place
  obtain ⟨last, hlast⟩ := exists_lastMatch
    ((exists_position_iff hpositions fun item hitem => (hplaces item hitem).1).mpr hp)
  have := hread p
  rw [suppliedItem, hlast, bind_some]
  rw [lastMatch] at hlast
  cases hp' : items[p]? <;> simp_all

variable (main gold bundle g) in
/-- Every compared word of gold utterance `g` is matched, no main word twice, with an item at each matched word's
  place, and the gold has a terminator. -/
structure MatchedWords : Prop where
  words : ∃ n ≠ 0, (comparedWordCounts C (extractWords gold))[g]? = some n ∧
    ∀ p, (∃ item ∈ bundle.matchesOf g, item.goldWordPosition = p) ↔ p < n
  mainWords : ((bundle.matchesOf g).map GoldWordMatch.mainPair).Nodup
  items : ∀ item ∈ bundle.matchesOf g, (item.mainItem main).isSome
  terminator : ((collectUtteranceTerminators C gold)[g]?.join.bind fun raw => C.tryFromChatStr (C.trim raw)).isSome

theorem exists_map_some {xs : List (Option A)} (h : ∀ x ∈ xs, x.isSome) : ∃ ys, xs = map some ys := by
  induction xs with
  | nil => exact ⟨[], rfl⟩
  | cons x xs ih =>
    obtain ⟨hx, hxs⟩ := forall_mem_cons.mp h
    obtain ⟨y, rfl⟩ := Option.isSome_iff_exists.mp hx
    obtain ⟨ys, rfl⟩ := ih hxs
    exact ⟨y :: ys, rfl⟩

theorem projectedMor_isSome {n : ℕ} (hn : (comparedWordCounts C (extractWords gold))[g]? = some n) :
    (projectedMor C main gold bundle g).isSome ↔ MatchedWords C main gold bundle g := by
  simp only [projectedMor, getElem!_of_getElem? hn, buildProjectedMorTier, Option.bind_eq_bind, Option.isSome_iff_exists,
    bind_eq_some_iff, guard_eq_some', exists_const, Option.pure_def, Option.some.injEq, mapM_id_eq_some]
  constructor
  · rintro ⟨_, hne, _, hpositions, hpairs, filled, hfilled, items, rfl, raw, hraw, terminator, hterminator, _⟩
    obtain ⟨_, hplaces, _⟩ := foldlM_projectItem hfilled
    rw [length_ownItems] at hplaces
    refine ⟨⟨n, hne, hn, fun p => exists_position_iff hpositions fun item hitem => (hplaces item hitem).1⟩,
      (dedup_map_length _ _).mp hpairs, fun item hitem => (hplaces item hitem).2, ?_⟩
    rw [hraw, bind_some, hterminator]
    rfl
  · rintro ⟨⟨n', hne, hn', hplaces⟩, hpairs, hitems, hterminator⟩
    cases hn.symm.trans hn'
    obtain ⟨terminator, hterminator⟩ := Option.isSome_iff_exists.mp hterminator
    obtain ⟨raw, hraw, hterminator⟩ := bind_eq_some_iff.mp hterminator
    have hready : ∀ item ∈ bundle.matchesOf g,
        item.goldWordPosition < (ownItems (collectMorItems gold)[g]? n).length ∧ (item.mainItem main).isSome := by
      intro item hitem
      rw [length_ownItems]
      exact ⟨(hplaces _).mp ⟨item, hitem, rfl⟩, hitems item hitem⟩
    obtain ⟨filled, hfilled⟩ := foldlM_projectItem_isSome hready
    obtain ⟨hlength, _, hread⟩ := foldlM_projectItem hfilled
    rw [length_ownItems] at hlength
    obtain ⟨items, rfl⟩ : ∃ items, filled = map some items := by
      apply exists_map_some
      intro x hx
      obtain ⟨p, hp, rfl⟩ := getElem_of_mem hx
      obtain ⟨last, hlast⟩ := exists_lastMatch ((hplaces p).mpr (hlength ▸ hp))
      have hread := hread p
      rw [getElem?_eq_getElem hp, show List.find? _ _ = _ from hlast, Option.some.injEq] at hread
      rw [hread]
      exact hitems last (lastMatch_some hlast).1
    refine ⟨_, hne, ?_, ?_, (dedup_map_length _ _).mpr hpairs, _, hfilled, items, rfl, raw, hraw, terminator, hterminator, rfl⟩
    · obtain ⟨item, hitem, _⟩ := (hplaces 0).mpr (Nat.pos_of_ne_zero hne)
      exact ne_nil_of_mem hitem
    · have hrange : ((bundle.matchesOf g).map (·.goldWordPosition)).toFinset = Finset.range n := by
        ext p
        rw [mem_toFinset, mem_map, Finset.mem_range]
        exact hplaces p
      rw [← card_toFinset, hrange, Finset.card_range]

end Tiers

theorem conformed_word_mem (document : ComparedDocument) (normalization : WerNormalization)
    {token : ℕ} (h : token < (ConformedSide.of C D document normalization).tokens.length) :
    (ConformedSide.of C D document normalization).word token ∈ flattenSide C document := by
  have howner : ∀ index ∈ (ConformedSide.of C D document normalization).wordOfToken,
      index < (flattenSide C document).length := by
    intro index hindex
    obtain ⟨owned, howned, rfl⟩ := mem_map.mp hindex
    simpa using conformWords_owner C D normalization (flattenSide C document) 0 owned howned
  have htoken : token < (ConformedSide.of C D document normalization).wordOfToken.length := by
    simpa [ConformedSide.of] using h
  have hlt := howner _ (getElem_mem htoken)
  have hword : (ConformedSide.of C D document normalization).word token =
      (flattenSide C document)[(ConformedSide.of C D document normalization).wordOfToken[token]]! := by
    rw [ConformedSide.word,
      getElem!_pos (ConformedSide.of C D document normalization).wordOfToken token htoken]
    rfl
  rw [hword, getElem!_pos (flattenSide C document) _ hlt]
  exact getElem_mem hlt

theorem mem_alignSteps_matched {main gold : ConformedSide} {results : List AlignResult}
    {consumed : Option ℕ} {key : String} {mw gw : FlattenedWord}
    (h : AlignStep.matched key mw gw ∈ alignSteps main gold consumed results) :
    ∃ x ∈ results, ∃ p r, x.payloadIdx? = some p ∧ x.referenceIdx? = some r ∧
      mw = main.word p ∧ gw = gold.word r := by
  induction results generalizing consumed with
  | nil => simp [alignSteps] at h
  | cons x results ih =>
    cases x with
    | matched key' p r =>
      rcases mem_cons.mp h with hhead | htail
      · cases hhead
        exact ⟨_, mem_cons_self, p, r, rfl, rfl, rfl, rfl⟩
      · obtain ⟨x, hx, hrest⟩ := ih htail
        exact ⟨x, mem_cons_of_mem _ hx, hrest⟩
    | extraPayload key' p =>
      rcases mem_cons.mp h with hhead | htail
      · cases hhead
      · obtain ⟨x, hx, hrest⟩ := ih htail
        exact ⟨x, mem_cons_of_mem _ hx, hrest⟩
    | extraReference key' r =>
      rcases mem_cons.mp h with hhead | htail
      · cases hhead
      · obtain ⟨x, hx, hrest⟩ := ih htail
        exact ⟨x, mem_cons_of_mem _ hx, hrest⟩

theorem mem_recordMatch {seen : List GoldWordMatch} {structural : GoldWordMatch}
    (h : item ∈ recordMatch seen structural) : item ∈ seen ∨ item = structural := by
  unfold recordMatch at h
  split at h
  · exact .inl h
  · simpa using h

theorem mem_renderSteps (goldPos : GoldPos) (scope : InsertionScope) (steps : List AlignStep)
    (r : Rendering) (h : item ∈ (steps.foldl (renderStep C goldPos scope) r).goldWordMatches) :
    item ∈ r.goldWordMatches ∨
      ∃ key mw gw, AlignStep.matched key mw gw ∈ steps ∧ item = GoldWordMatch.of gw mw := by
  induction steps generalizing r with
  | nil => exact .inl h
  | cons step steps ih =>
    rcases ih _ h with hstep | ⟨key, mw, gw, hmem, rfl⟩
    · cases step with
      | matched key mw gw =>
        exact (mem_recordMatch hstep).imp id fun heq => ⟨key, mw, gw, mem_cons_self, heq⟩
      | insertion key mw site =>
        simp only [renderStep] at hstep
        split at hstep <;> exact .inl hstep
      | deletion key gw => exact .inl hstep
    · exact .inr ⟨key, mw, gw, mem_cons_of_mem _ hmem, rfl⟩

theorem renderUnaligned_matches (main : ConformedSide) (r : Rendering) :
    (renderUnaligned C main r).goldWordMatches = r.goldWordMatches := by
  unfold renderUnaligned
  generalize main.tokensWithWords = tokens
  induction tokens generalizing r with
  | nil => rfl
  | cons token tokens ih => exact ih _

theorem match_words {main gold : ChatFile M T} {coverage : GoldCoverage}
    (h : item ∈ (compare C D main gold coverage).goldWordMatches) :
    ∃ gw ∈ flattenSide C (ComparedDocument.of C gold),
      ∃ mw ∈ flattenSide C (ComparedDocument.of C main), item = GoldWordMatch.of gw mw := by
  simp only [compare, WholeFileAlignment.render, WholeFileAlignment.of] at h
  split at h
  · -- without gold words nothing is matched
    cases coverage <;> simp [WholeFileAlignment.rendering, renderUnaligned_matches] at h
  · obtain hstart | ⟨key, mw, gw, hstep, rfl⟩ := mem_renderSteps C _ _ _ _ h
    · simp at hstart
    · obtain ⟨x, hx, p, r, hp, hr, rfl, rfl⟩ := mem_alignSteps_matched hstep
      have hin := align_indices _ _ x hx
      exact ⟨_, conformed_word_mem C D _ _ (hin.2 r hr), _, conformed_word_mem C D _ _ (hin.1 p hp),
        rfl⟩

end Batchalign.Compare
