import Mathlib.Algebra.Order.BigOperators.Group.List
import Mathlib.Algebra.Order.Ring.Nat
import Batchalign.Morphosyntax.TreePreserved

/- Relabelling special forms (`morphosyntax/injection.rs`, `inject.rs`). The item of a form-marked word
   is replaced by one synthesized from its form, with one chunk, and its relation relabelled.
   `preserved` is what `UtteranceInjection::inject_preserved` passes on, `synthesize` is
   `synthesize_special_form_mor` without `Mor::new`, `tryAlign` is `try_align_mor_gra`. -/
namespace Batchalign.Morphosyntax
open List

variable {A M R E F : Type}

def Mor.countChunks (mor : Mor M) : ℕ := mor.postClitics.length + 1

inductive WordRole (F M : Type) where
  | analysed
  | codeSwitched (stagedMor : M)
  | specialForm (formType : F)

/-- A word of the request, and the items it was written as. -/
structure PlacedWord (F M : Type) where
  role : WordRole F M
  text : String
  items : List ℕ

/-- The chunk each item starts at. -/
def firstChunks : ℕ → List (Mor M) → List ℕ
  | _, [] => []
  | chunks, mor :: mors => chunks :: firstChunks (chunks + mor.countChunks) mors

section Relabel

variable (P : WordMapping A M R E) (synthesize : F → String → Except (MappingError E) M)

def relabelItem (firsts : List ℕ) (word : PlacedWord F M)
    (s : List (Mor M) × List (GrammaticalRelation R)) (item : ℕ) :
    Except (MappingError E) (List (Mor M) × List (GrammaticalRelation R)) :=
  match s.1[item]?, firsts[item]? with
  | some mor, some first =>
    match word.role with
    | .analysed => .ok s
    | .codeSwitched staged => .ok (s.1.set item { mor with main := staged }, s.2)
    | .specialForm formType => do
      let main ← synthesize formType word.text
      let mors := s.1.set item ⟨main, []⟩
      match s.2[first]? with
      | none => return (mors, s.2)
      | some gra =>
        let label ← normalizeDeprel P (if gra.head = 0 then "ROOT" else "DEP")
          "special-form attachment"
        return (mors, s.2.set first { gra with relation := label })
  | _, _ => .ok s

def relabelSpecialForms (mors : List (Mor M)) (gras : List (GrammaticalRelation R))
    (words : List (PlacedWord F M)) :
    Except (MappingError E) (List (Mor M) × List (GrammaticalRelation R)) :=
  words.foldlM (fun s word => word.items.foldlM
    (relabelItem P synthesize (firstChunks 0 mors) word) s) (mors, gras)

end Relabel

/-- One item a word, at the word's own place. -/
def preserved (words : List (WordRole F M × String)) : List (PlacedWord F M) :=
  words.zipIdx.map (fun w => ⟨w.1.1, w.1.2, [w.2]⟩)

inductive MisalignmentClass where
  | unknown
  | morGraCountMismatch

structure MisalignmentDiagnostic where
  expected : ℕ
  actual : ℕ
  suspectedClass : MisalignmentClass

/-- The tiers written, or why not; `tryAlign` gets the relations without the terminator's. -/
def injectMorphosyntax
    (tryAlign : List (Mor M) → List (GrammaticalRelation R) → Except (ℕ × ℕ) Unit)
    (wordCount : ℕ) (mors : List (Mor M)) (gras : List (GrammaticalRelation R)) :
    Except MisalignmentDiagnostic (Option (List (Mor M) × List (GrammaticalRelation R))) :=
  if mors.isEmpty then .ok none
  else if wordCount ≠ mors.length then .error ⟨wordCount, mors.length, .unknown⟩
  else if gras.isEmpty then .ok (some (mors, []))
  else match tryAlign mors gras.dropLast with
    | .ok _ => .ok (some (mors, gras))
    | .error counts => .error ⟨counts.1, counts.2, .morGraCountMismatch⟩

def chunkCount (mors : List (Mor M)) : ℕ := (mors.map Mor.countChunks).sum

/-- The word is one of a special form. -/
def isSpecial (words : List (WordRole F M × String)) (k : ℕ) : Bool :=
  match words[k]? with
  | some (.specialForm _, _) => true
  | _ => false

variable {P : WordMapping A M R E} {synthesize : F → String → Except (MappingError E) M}
  {words : List (WordRole F M × String)} {mors mors' : List (Mor M)}
  {gras gras' : List (GrammaticalRelation R)} {j k first : ℕ}
  {s s' : List (Mor M) × List (GrammaticalRelation R)}

theorem asStr_normalizeDeprel {label : R} {head : ℕ} {context : String}
    (h : normalizeDeprel P (if head = 0 then "ROOT" else "DEP") context = .ok label) :
    P.relations.asStr label = "ROOT" ↔ head = 0 := by
  have hnew : ∀ raw, raw.toList.any (fun c => c.isLower || c == ':') = false →
      normalizeDeprel P raw context = .ok label → P.relations.asStr label = raw := by
    intro raw hraw hlabel
    simp only [normalizeDeprel, hraw] at hlabel
    split at hlabel
    · next hok =>
      cases hlabel
      exact P.relations.asStr_new hok
    · cases hlabel
  by_cases hhead : head = 0
  · rw [if_pos hhead] at h
    rw [hnew _ (by decide) h]
    exact iff_of_true rfl hhead
  · rw [if_neg hhead] at h
    rw [hnew _ (by decide) h]
    exact iff_of_false (by decide) hhead

theorem getElem?_firstChunks (chunks : ℕ) (mors : List (Mor M)) (k : ℕ) :
    (firstChunks chunks mors)[k]? = mors[k]?.map (fun _ => chunks + chunkCount (mors.take k)) := by
  induction mors generalizing chunks k with
  | nil => simp [firstChunks]
  | cons mor mors ih =>
    cases k with
    | zero => simp [firstChunks, chunkCount]
    | succ k =>
      rw [firstChunks, getElem?_cons_succ, getElem?_cons_succ, ih]
      simp [chunkCount, add_assoc]

/-- Items and relations with the words before `j` relabelled. -/
structure Relabelled (P : WordMapping A M R E) (words : List (WordRole F M × String))
    (mors : List (Mor M)) (gras : List (GrammaticalRelation R)) (j : ℕ)
    (s : List (Mor M) × List (GrammaticalRelation R)) : Prop where
  counts : ∀ k, s.1[k]?.map Mor.countChunks = mors[k]?.map (fun mor =>
    if k < j ∧ isSpecial words k then 1 else mor.countChunks)
  heads : s.2.map (fun gra => (gra.index, gra.head)) = gras.map (fun gra => (gra.index, gra.head))
  others : ∀ i, (∀ k < j, isSpecial words k → (firstChunks 0 mors)[k]? ≠ some i) →
    s.2[i]? = gras[i]?
  labels : ∀ k < j, isSpecial words k → ∀ first, (firstChunks 0 mors)[k]? = some first →
    ∀ gra ∈ s.2[first]?, P.relations.asStr gra.relation = "ROOT" ↔ gra.head = 0

theorem map_set_of_eq {α β : Type} {f : α → β} {l : List α} {i : ℕ} {a b : α}
    (hb : l[i]? = some b) (h : f a = f b) : (l.set i a).map f = l.map f := by
  refine ext_getElem? (fun k => ?_)
  rw [getElem?_map, getElem?_map]
  by_cases hk : k = i
  · subst hk
    simp [getElem?_set_self', hb, h]
  · rw [getElem?_set_ne (Ne.symm hk)]

theorem Relabelled.start : Relabelled P words mors gras 0 (mors, gras) :=
  ⟨fun k => by simp, rfl, fun _ _ => rfl, by simp⟩

section
variable (h : Relabelled P words mors gras j s)
include h

theorem Relabelled.keep (hj : ¬ isSpecial words j)
    (hcounts : s'.1.map Mor.countChunks = s.1.map Mor.countChunks) (hgras : s'.2 = s.2) :
    Relabelled P words mors gras (j + 1) s' := by
  have hlt : ∀ k, k < j + 1 → isSpecial words k → k < j := by
    intro k hk hspecial
    refine Nat.lt_of_le_of_ne (Nat.le_of_lt_succ hk) ?_
    rintro rfl
    exact hj hspecial
  refine ⟨?_, hgras ▸ h.heads, ?_, ?_⟩
  · intro k
    rw [← getElem?_map, hcounts, getElem?_map, h.counts k]
    congr 1
    funext mor
    refine if_congr ?_ rfl rfl
    exact ⟨fun ⟨hk, hs⟩ => ⟨by omega, hs⟩, fun ⟨hk, hs⟩ => ⟨hlt k hk hs, hs⟩⟩
  · intro i hi
    rw [hgras]
    exact h.others i (fun k hk => hi k (by omega))
  · intro k hk hs
    rw [hgras]
    exact h.labels k (hlt k hk hs) hs

theorem Relabelled.relabel (hj : isSpecial words j)
    (hfirst : (firstChunks 0 mors)[j]? = some first) {main : M}
    (hmors : s'.1 = s.1.set j ⟨main, []⟩)
    (hgras : s.2[first]? = none ∧ s'.2 = s.2 ∨ ∃ gra label, s.2[first]? = some gra ∧
      (P.relations.asStr label = "ROOT" ↔ gra.head = 0) ∧
      s'.2 = s.2.set first { gra with relation := label }) :
    Relabelled P words mors gras (j + 1) s' := by
  have hget : ∀ i ≠ first, s'.2[i]? = s.2[i]? := by
    intro i hi
    obtain ⟨-, heq⟩ | ⟨gra, label, -, -, heq⟩ := hgras
    · rw [heq]
    · rw [heq, getElem?_set_ne (Ne.symm hi)]
  have hlabel : ∀ gra ∈ s'.2[first]?, P.relations.asStr gra.relation = "ROOT" ↔ gra.head = 0 := by
    intro gra hgra
    obtain ⟨hnone, heq⟩ | ⟨gra', label, hsome, hlabel, heq⟩ := hgras
    · simp [heq, hnone] at hgra
    · rw [heq, getElem?_set_self', hsome] at hgra
      cases hgra
      exact hlabel
  refine ⟨?_, ?_, ?_, ?_⟩
  · intro k
    rw [hmors]
    by_cases hk : k = j
    · subst hk
      have hcount := h.counts k
      rw [getElem?_set_self']
      cases hmor : mors[k]? with
      | none => simpa [hmor] using hcount
      | some mor =>
        cases hs : s.1[k]? with
        | none => simp [hmor, hs] at hcount
        | some mor' => simp [hj, Mor.countChunks]
    · rw [getElem?_set_ne (Ne.symm hk), h.counts k]
      congr 1
      funext mor
      exact if_congr ⟨fun ⟨hlt, hs⟩ => ⟨by omega, hs⟩, fun ⟨hlt, hs⟩ => ⟨by omega, hs⟩⟩ rfl rfl
  · rw [← h.heads]
    obtain ⟨-, heq⟩ | ⟨gra, label, hsome, -, heq⟩ := hgras
    · rw [heq]
    · rw [heq]
      exact map_set_of_eq hsome rfl
  · intro i hi
    rw [hget i (fun heq => hi j (by omega) hj (heq ▸ hfirst))]
    exact h.others i (fun k hk => hi k (by omega))
  · intro k hk hs first' hfirst' gra hgra
    by_cases heq : first' = first
    · exact hlabel gra (heq ▸ hgra)
    · rw [hget first' heq] at hgra
      have hne : k ≠ j := by
        rintro rfl
        rw [hfirst, Option.some.injEq] at hfirst'
        exact heq hfirst'.symm
      exact h.labels k (by omega) hs first' hfirst' gra hgra

theorem Relabelled.next {role : WordRole F M} {text : String}
    (hlt : j < mors.length) (hword : words[j]? = some (role, text))
    (hstep : relabelItem P synthesize (firstChunks 0 mors) ⟨role, text, [j]⟩ s j = .ok s') :
    Relabelled P words mors gras (j + 1) s' := by
  have hcount := h.counts j
  have hfirst := getElem?_firstChunks 0 mors j
  rw [getElem?_eq_getElem hlt] at hcount hfirst
  obtain ⟨mor, hmor, -⟩ := Option.map_eq_some_iff.mp hcount
  simp only [relabelItem, hmor, hfirst, Option.map_some] at hstep
  cases role with
  | analysed =>
    cases hstep
    exact h.keep (by simp [isSpecial, hword]) rfl rfl
  | codeSwitched staged =>
    cases hstep
    exact h.keep (by simp [isSpecial, hword]) (map_set_of_eq hmor rfl) rfl
  | specialForm formType =>
    have hj : isSpecial words j := by simp [isSpecial, hword]
    cases hmain : synthesize formType text with
    | error e => simp [hmain, bind, Except.bind] at hstep
    | ok main =>
      simp only [hmain, bind, Except.bind] at hstep
      cases hgra : s.2[0 + chunkCount (mors.take j)]? with
      | none =>
        simp only [hgra, pure, Except.pure, Except.ok.injEq] at hstep
        subst hstep
        exact h.relabel hj hfirst rfl (.inl ⟨hgra, rfl⟩)
      | some gra =>
        simp only [hgra] at hstep
        split at hstep
        · cases hstep
        · next label hlabel =>
          cases hstep
          exact h.relabel hj hfirst rfl
            (.inr ⟨gra, label, hgra, asStr_normalizeDeprel hlabel, rfl⟩)

end

theorem Relabelled.rest {rest : List (WordRole F M × String)} (hlen : words.length = mors.length)
    (hrest : words.drop j = rest) (h : Relabelled P words mors gras j s)
    (hrun : ((rest.zipIdx j).map (fun w => (⟨w.1.1, w.1.2, [w.2]⟩ : PlacedWord F M))).foldlM
      (fun s word => word.items.foldlM (relabelItem P synthesize (firstChunks 0 mors) word) s) s =
        .ok s') : Relabelled P words mors gras (j + rest.length) s' := by
  induction rest generalizing j s with
  | nil =>
    cases hrun
    exact h
  | cons w rest ih =>
    have hget : words[j]? = some w := by
      rw [← head?_drop, hrest, head?_cons]
    have hlt := (List.getElem?_eq_some_iff.mp hget).1
    rw [zipIdx_cons, map_cons, foldlM_cons] at hrun
    cases hstep : relabelItem P synthesize (firstChunks 0 mors) ⟨w.1, w.2, [j]⟩ s j with
    | error e => simp [hstep, bind, Except.bind] at hrun
    | ok s₁ =>
      have hdrop : words.drop (j + 1) = rest := by
        rw [← tail_drop, hrest, tail_cons]
      have hnext := ih hdrop (h.next (hlen ▸ hlt) hget hstep)
        (by simpa [hstep, bind, Except.bind, pure, Except.pure] using hrun)
      rwa [add_right_comm, add_assoc] at hnext

theorem relabelled (hlen : words.length = mors.length)
    (h : relabelSpecialForms P synthesize mors gras (preserved words) = .ok s') :
    Relabelled P words mors gras words.length s' := by
  have hrun := Relabelled.start.rest hlen rfl h
  rwa [zero_add] at hrun

theorem chunkCount_take_le {mor : Mor M} (hmor : mors[j]? = some mor) (hlt : j < k) :
    chunkCount (mors.take j) + mor.countChunks ≤ chunkCount (mors.take k) := by
  have htake : mors.take (j + 1) = mors.take j ++ [mor] := by
    rw [take_add_one, hmor, Option.toList_some]
  have hmin : (mors.take k).take (j + 1) = mors.take (j + 1) := by
    rw [take_take, min_eq_left hlt]
  rw [← take_append_drop (j + 1) (mors.take k), hmin, htake]
  simp [chunkCount]

theorem first_ne {mor : Mor M} (hmor : mors[k]? = some mor) {i : ℕ}
    (hle : chunkCount (mors.take k) ≤ i) (hlt : i < chunkCount (mors.take k) + mor.countChunks)
    (hne : j ≠ k) : (firstChunks 0 mors)[j]? ≠ some i := by
  rw [getElem?_firstChunks]
  intro heq
  obtain ⟨mor', hmor', hi⟩ := Option.map_eq_some_iff.mp heq
  rcases Nat.lt_or_gt_of_ne hne with hj | hj
  · have := chunkCount_take_le hmor' hj
    simp only [Mor.countChunks] at this
    omega
  · have := chunkCount_take_le hmor hj
    omega

theorem Relabelled.map_countChunks (h : Relabelled P words mors gras j s) :
    s.1.map Mor.countChunks = mors.zipIdx.map (fun x =>
      if x.2 < j ∧ isSpecial words x.2 then 1 else x.1.countChunks) := by
  refine ext_getElem? (fun k => ?_)
  rw [getElem?_map, h.counts k, getElem?_map, getElem?_zipIdx, Option.map_map]
  simp [Function.comp_def]

theorem Relabelled.chunkCount_eq_iff (h : Relabelled P words mors gras j s) :
    chunkCount s.1 = chunkCount mors ↔
      ∀ k < j, isSpecial words k → ∀ mor ∈ mors[k]?, mor.postClitics = [] := by
  have hbefore : mors.map Mor.countChunks = mors.zipIdx.map (fun x => x.1.countChunks) := by
    conv_lhs => rw [← zipIdx_map_fst 0 mors, map_map]
    rfl
  rw [chunkCount, chunkCount, hbefore, h.map_countChunks]
  constructor
  · intro hsum k hk hs mor hmor
    by_contra hclitics
    refine absurd hsum (Nat.ne_of_lt (sum_lt_sum _ _ ?_ ⟨(mor, k), ?_, ?_⟩))
    · intro x _
      simp only [Mor.countChunks]
      split <;> omega
    · exact mem_zipIdx_iff_getElem?.mpr hmor
    · rw [if_pos ⟨hk, hs⟩]
      simpa [Mor.countChunks] using length_pos_iff.mpr hclitics
  · intro hclitics
    congr 1
    refine map_congr_left (fun x hx => ?_)
    split
    · next hs =>
      simp [Mor.countChunks, hclitics x.2 hs.1 hs.2 x.1 (mem_zipIdx_iff_getElem?.mp hx)]
    · rfl

/-- Relabelling is to leave tiers in step, the relations of analysed words, a root label at head 0, indices
  and heads. -/
structure InStep (P : WordMapping A M R E)
    (tryAlign : List (Mor M) → List (GrammaticalRelation R) → Except (ℕ × ℕ) Unit)
    (words : List (WordRole F M × String)) (mors mors' : List (Mor M))
    (gras gras' : List (GrammaticalRelation R)) : Prop where
  length : gras'.length = chunkCount mors' + 1
  accepted : ∃ tiers, injectMorphosyntax tryAlign words.length mors' gras' = .ok tiers
  analysed : ∀ k text mor, words[k]? = some (.analysed, text) → mors[k]? = some mor →
    ∀ i, chunkCount (mors.take k) ≤ i → i < chunkCount (mors.take k) + mor.countChunks →
      gras'[i]? = gras[i]?
  labels : ∀ k, isSpecial words k → ∀ gra ∈ gras'[chunkCount (mors.take k)]?, k < mors.length →
    (P.relations.asStr gra.relation = "ROOT" ↔ gra.head = 0)
  heads : gras'.map (fun gra => (gra.index, gra.head)) = gras.map (fun gra => (gra.index, gra.head))

/-- Relabelling leaves the tiers in step exactly when no special form was analysed as a word
with clitics. -/
theorem relabelSpecialForms_inStep_iff
    {tryAlign : List (Mor M) → List (GrammaticalRelation R) → Except (ℕ × ℕ) Unit}
    (halign : ∀ mors rels, tryAlign mors rels = .ok () ↔ chunkCount mors = rels.length)
    (hwords : words.length = mors.length) (hgras : gras.length = chunkCount mors + 1)
    (h : relabelSpecialForms P synthesize mors gras (preserved words) = .ok (mors', gras')) :
    InStep P tryAlign words mors mors' gras gras' ↔
      ∀ k, isSpecial words k → ∀ mor ∈ mors[k]?, mor.postClitics = [] := by
  have hrel := relabelled hwords h
  have hlength : gras'.length = gras.length := by
    simpa using congrArg List.length hrel.heads
  have hspecial : ∀ k, isSpecial words k → k < words.length := by
    intro k hs
    by_contra hge
    simp [isSpecial, getElem?_eq_none (Nat.le_of_not_lt hge)] at hs
  have hcount : gras'.length = chunkCount mors' + 1 ↔
      ∀ k, isSpecial words k → ∀ mor ∈ mors[k]?, mor.postClitics = [] := by
    rw [hlength, hgras, Nat.add_right_cancel_iff, eq_comm, hrel.chunkCount_eq_iff]
    exact ⟨fun hall k hs => hall k (hspecial k hs) hs, fun hall k _ hs => hall k hs⟩
  refine ⟨fun hstep => hcount.mp hstep.length, fun hall => ?_⟩
  have hchunks := hcount.mpr hall
  refine ⟨hchunks, ?_, ?_, ?_, hrel.heads⟩
  · have hmors : mors'.length = mors.length := by
      simpa using congrArg List.length hrel.map_countChunks
    have hok : tryAlign mors' gras'.dropLast = .ok () := by
      rw [halign, length_dropLast, hchunks, Nat.add_sub_cancel]
    have hne : gras' ≠ [] := ne_nil_of_length_eq_add_one hchunks
    rw [ injectMorphosyntax, if_neg (not_not.mpr (hwords.trans hmors.symm)),
      if_neg (show ¬ gras'.isEmpty by simpa using hne), hok]
    split <;> exact ⟨_, rfl⟩
  · intro k text mor hword hmor i hle hlt
    refine hrel.others i (fun k' _ hs => first_ne hmor hle hlt ?_)
    rintro rfl
    simp [isSpecial, hword] at hs
  · intro k hs gra hgra hlt
    refine hrel.labels k (hspecial k hs) hs _ ?_ gra hgra
    rw [getElem?_firstChunks, getElem?_eq_getElem hlt]
    simp

def alignCounts (mors : List (Mor String)) (rels : List (GrammaticalRelation String)) :
    Except (ℕ × ℕ) Unit :=
  if chunkCount mors = rels.length then .ok () else .error (chunkCount mors, rels.length)

/-- A special form read as a word with a clitic: one chunk, and the relations of two. -/
theorem special_form_with_clitic :
    ∃ mors' gras', relabelSpecialForms plainMapping (fun (_ : Unit) text => .ok text)
      [⟨"xb", ["xxx"]⟩] [⟨1, 0, "ROOT"⟩, ⟨2, 1, "DEP"⟩, ⟨3, 1, "PUNCT"⟩]
      (preserved [(.specialForm (), "xbxxx")]) = .ok (mors', gras') ∧
    injectMorphosyntax alignCounts 1 mors' gras' = .error ⟨1, 2, .morGraCountMismatch⟩ ∧
    ¬ InStep plainMapping alignCounts [(.specialForm (), "xbxxx")] [⟨"xb", ["xxx"]⟩] mors'
      [⟨1, 0, "ROOT"⟩, ⟨2, 1, "DEP"⟩, ⟨3, 1, "PUNCT"⟩] gras' := by
  refine ⟨_, _, rfl, rfl, fun h => ?_⟩
  exact absurd h.length (by decide)

/-- A dog's bark before a contraction. -/
theorem special_form_of_one_chunk :
    InStep plainMapping alignCounts [(.specialForm (), "woof"), (.analysed, "it's")]
      [⟨"woof", []⟩, ⟨"it", ["be"]⟩] [⟨"woof", []⟩, ⟨"it", ["be"]⟩]
      [⟨1, 2, "INTJ"⟩, ⟨2, 0, "ROOT"⟩, ⟨3, 2, "COP"⟩, ⟨4, 2, "PUNCT"⟩]
      [⟨1, 2, "DEP"⟩, ⟨2, 0, "ROOT"⟩, ⟨3, 2, "COP"⟩, ⟨4, 2, "PUNCT"⟩] := by
  have halign : ∀ mors rels, alignCounts mors rels = .ok () ↔ chunkCount mors = rels.length := by
    intro mors rels
    rw [alignCounts]
    split <;> simp_all
  have hrelabel : relabelSpecialForms plainMapping (fun (_ : Unit) text => .ok text)
      [⟨"woof", []⟩, ⟨"it", ["be"]⟩]
      [⟨1, 2, "INTJ"⟩, ⟨2, 0, "ROOT"⟩, ⟨3, 2, "COP"⟩, ⟨4, 2, "PUNCT"⟩]
      (preserved [(.specialForm (), "woof"), (.analysed, "it's")]) = .ok (_, _) := rfl
  refine (relabelSpecialForms_inStep_iff halign rfl rfl hrelabel).mpr ?_
  rintro (_ | _ | k) hs mor hmor
  · cases hmor
    rfl
  · cases hs
  · cases hmor

end Batchalign.Morphosyntax
