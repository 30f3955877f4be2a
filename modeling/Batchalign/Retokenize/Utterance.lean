import Batchalign.Morphosyntax.SpecialForms
import Batchalign.Retokenize.Spelled

/- The rewrite of one utterance (`retokenize_utterance`) and the injection it ends in
   (`inject_morphosyntax`). The content is put back where the rebuild or the injection refuses. The
   counted words and `try_align_mor_gra` are the transcript library's. -/
namespace Batchalign.Retokenize
open Morphosyntax (Mor GrammaticalRelation chunkCount)
open List

structure MorTier (M T : Type) where
  items : List (Mor M)
  terminator : T

/-- The terminator is a chunk of its own. -/
def MorTier.countChunks {M T : Type} (tier : MorTier M T) : ℕ := chunkCount tier.items + 1

inductive DependentTier (M R T : Type) where
  | mor (tier : MorTier M T)
  | gra (relations : List (GrammaticalRelation R))
  | other (label : String) (text : String)

structure Utterance (M R T : Type) where
  content : List UtteranceContent
  dependentTiers : List (DependentTier M R T)

variable {M R T : Type}

def DependentTier.sameKind : DependentTier M R T → DependentTier M R T → Bool
  | .mor _, .mor _ => true
  | .gra _, .gra _ => true
  | .other label _, .other label' _ => label == label'
  | _, _ => false

def replaceOrAddTier (tier : DependentTier M R T) : List (DependentTier M R T) → List (DependentTier M R T)
  | [] => [tier]
  | old :: tiers => if tier.sameKind old then tier :: tiers else old :: replaceOrAddTier tier tiers

def Utterance.write (u : Utterance M R T) (tier : DependentTier M R T) : Utterance M R T :=
  { u with dependentTiers := replaceOrAddTier tier u.dependentTiers }

def Utterance.withContent (u : Utterance M R T) (content : List UtteranceContent) : Utterance M R T :=
  { u with content := content }

/-- The library. `try_align_mor_gra` builds the tiers, or refuses with the two counts. -/
structure TierLibrary (M R T : Type) where
  terminatorText : T → List Char
  extractedWords : List UtteranceContent → List (List Char)
  morAlignableWordCount : List UtteranceContent → ℕ
  tryAlignMorGra : List (Mor M) → List (GrammaticalRelation R) → T → GrammaticalRelation R →
    Except (ℕ × ℕ) (MorTier M T × List (GrammaticalRelation R))
  aligned : ∀ mors relations terminator relation tiers,
    tryAlignMorGra mors relations terminator relation = .ok tiers →
      tiers = (⟨mors, terminator⟩, relations ++ [relation]) ∧ chunkCount mors = relations.length

inductive MisalignmentClass where
  | morGraCountMismatch
  | mergeCrossesContent
  | tokensDivergeFromWords
  | unknown

def RebuildRefusal.misalignmentClass : RebuildRefusal → MisalignmentClass
  | .mergeCrossesContent _ _ => .mergeCrossesContent
  | _ => .unknown

structure MisalignmentDiagnostic where
  chatWords : List (List Char)
  stanzaTokensAfterMapping : List (List Char)
  expected : ℕ
  actual : ℕ
  suspectedClass : MisalignmentClass

section
variable (L : TierLibrary M R T) (X : Chatter) (u : Utterance M R T) (words : List ExtractedWord)
  (tokens : List (List Char)) (mapping : WordTokenMapping) (mors : List (Mor M)) (terminator : T)
  (gras : List (GrammaticalRelation R))

def injectMorphosyntax : Except MisalignmentDiagnostic Unit × Utterance M R T :=
  if mors.isEmpty then (.ok (), u)
  else if L.morAlignableWordCount u.content ≠ mors.length then
    (.error ⟨L.extractedWords u.content, [], L.morAlignableWordCount u.content, mors.length, .unknown⟩, u)
  else match gras.getLast? with
    | none => (.ok (), u.write (.mor ⟨mors, terminator⟩))
    | some relation => match L.tryAlignMorGra mors gras.dropLast terminator relation with
      | .ok tiers => (.ok (), (u.write (.mor tiers.1)).write (.gra tiers.2))
      | .error counts => (.error ⟨[], [], counts.1, counts.2, .morGraCountMismatch⟩, u)

def retokenizeUtterance : Except MisalignmentDiagnostic Unit × Utterance M R T :=
  if words.isEmpty || tokens.isEmpty then (.ok (), u)
  else
    let ctx : RetokenizeContext :=
      ⟨X, mapping, tokens, words, mors.length, some (L.terminatorText terminator)⟩
    let taken := u.withContent []
    let rebuilt := rebuildContent ctx u.content .initial
    match rebuilt.2.diagnostics.head? with
    | some first =>
      (.error ⟨words.map ExtractedWord.text, tokens, words.length, mors.length, first.misalignmentClass⟩,
        taken.withContent u.content)
    | none =>
      let admitted := injectMorphosyntax L (taken.withContent rebuilt.1) mors terminator gras
      match admitted.1 with
      | .ok _ => admitted
      | .error diagnostic => (.error diagnostic, admitted.2.withContent u.content)

end

/-! ## What an injection leaves -/

theorem mem_replaceOrAddTier (tier : DependentTier M R T) (tiers : List (DependentTier M R T)) :
    tier ∈ replaceOrAddTier tier tiers := by
  induction tiers with
  | nil => exact mem_cons_self
  | cons old tiers ih =>
    unfold replaceOrAddTier
    split
    · exact mem_cons_self
    · exact mem_cons_of_mem old ih

theorem mem_replaceOrAddTier_of_mem {tier old : DependentTier M R T} {tiers : List (DependentTier M R T)}
    (h : old ∈ tiers) (hkind : tier.sameKind old = false) : old ∈ replaceOrAddTier tier tiers := by
  induction tiers with
  | nil => cases h
  | cons first tiers ih =>
    unfold replaceOrAddTier
    rcases mem_cons.mp h with rfl | h
    · rw [if_neg (by simp [hkind])]
      exact mem_cons_self
    · split
      · exact mem_cons_of_mem tier h
      · exact mem_cons_of_mem first (ih h)

/-- What a successful injection leaves: as many items as words and, with relations, tiers of one length.
-/
structure Injected (L : TierLibrary M R T) (mors : List (Mor M)) (gras : List (GrammaticalRelation R))
    (u : Utterance M R T) : Prop where
  words : L.morAlignableWordCount u.content = mors.length
  tiers : gras ≠ [] → ∃ tier, .mor tier ∈ u.dependentTiers ∧ .gra gras ∈ u.dependentTiers ∧
    tier.items = mors ∧ tier.countChunks = gras.length

section
variable (L : TierLibrary M R T) (X : Chatter) (u : Utterance M R T) (words : List ExtractedWord)
  (tokens : List (List Char)) (mapping : WordTokenMapping) (mors : List (Mor M)) (terminator : T)
  (gras : List (GrammaticalRelation R))

theorem injectMorphosyntax_cases : (∃ d, injectMorphosyntax L u mors terminator gras = (.error d, u)) ∨
      ∃ u', injectMorphosyntax L u mors terminator gras = (.ok (), u') ∧ u'.content = u.content ∧
        (mors ≠ [] → Injected L mors gras u') := by
  unfold injectMorphosyntax
  split_ifs with hempty hcount
  · exact .inr ⟨u, rfl, rfl, fun hne => absurd (List.isEmpty_iff.mp hempty) hne⟩
  · exact .inl ⟨_, rfl⟩
  · have hwords := not_not.mp hcount
    split
    · rename_i hlast
      exact .inr ⟨_, rfl, rfl, fun _ => ⟨hwords, fun hne => absurd (getLast?_eq_none_iff.mp hlast) hne⟩⟩
    · rename_i relation hlast
      have hgras : gras.dropLast ++ [relation] = gras := dropLast_append_getLast? relation hlast
      split
      · rename_i tiers halign
        obtain ⟨rfl, hchunks⟩ := L.aligned _ _ _ _ _ halign
        rw [hgras]
        refine .inr ⟨_, rfl, rfl, fun _ => ⟨hwords, fun _ => ⟨⟨mors, terminator⟩, ?_, mem_replaceOrAddTier .., rfl, ?_⟩⟩⟩
        · exact mem_replaceOrAddTier_of_mem (mem_replaceOrAddTier ..) rfl
        · rw [← hgras, length_append, ← hchunks]
          rfl
      · exact .inl ⟨_, rfl⟩

/-- The context a rewrite rebuilds the content in. -/
def rewriteContext : RetokenizeContext :=
  ⟨X, mapping, tokens, words, mors.length, some (L.terminatorText terminator)⟩

theorem retokenizeUtterance_cases :
    (∃ d, retokenizeUtterance L X u words tokens mapping mors terminator gras = (.error d, u)) ∨
      ∃ u', retokenizeUtterance L X u words tokens mapping mors terminator gras = (.ok (), u') ∧
        (words ≠ [] → tokens ≠ [] →
          u'.content = (rebuildContent (rewriteContext L X words tokens mapping mors terminator) u.content .initial).1 ∧
            (mors ≠ [] → Injected L mors gras u')) := by
  unfold retokenizeUtterance
  split_ifs with hempty
  · refine .inr ⟨u, rfl, fun hwords htokens => ?_⟩
    simp [hwords, htokens] at hempty
  · extract_lets ctx taken rebuilt admitted
    split
    · exact .inl ⟨_, rfl⟩
    · rcases injectMorphosyntax_cases L (taken.withContent rebuilt.1) mors terminator gras with
        ⟨d, h⟩ | ⟨u', h, hcontent, hinjected⟩
      · have hadmitted : admitted = (.error d, taken.withContent rebuilt.1) := h
        rw [hadmitted]
        exact .inl ⟨d, rfl⟩
      · have hadmitted : admitted = (.ok (), u') := h
        rw [hadmitted]
        exact .inr ⟨u', rfl, fun _ _ => ⟨hcontent, hinjected⟩⟩

/-- A failed injection or rewrite leaves the utterance; a successful one leaves the rebuilt content, with as
  many items as words and tiers of one length. -/
theorem retokenize_all_or_nothing :
    (∀ d u', injectMorphosyntax L u mors terminator gras = (.error d, u') → u' = u) ∧
    (∀ d u', retokenizeUtterance L X u words tokens mapping mors terminator gras = (.error d, u') →
      u' = u) ∧
    ∀ u', retokenizeUtterance L X u words tokens mapping mors terminator gras = (.ok (), u') →
      words ≠ [] → tokens ≠ [] →
      u'.content = (rebuildContent (rewriteContext L X words tokens mapping mors terminator) u.content .initial).1 ∧
        (mors ≠ [] → Injected L mors gras u') := by
  have hinject := injectMorphosyntax_cases L u mors terminator gras
  have hrewrite := retokenizeUtterance_cases L X u words tokens mapping mors terminator gras
  refine ⟨?_, ?_, ?_⟩
  · intro d u' heq
    rcases hinject with ⟨_, h⟩ | ⟨_, h, -⟩
    · exact (Prod.mk.inj (heq.symm.trans h)).2
    · cases heq.symm.trans h
  · intro d u' heq
    rcases hrewrite with ⟨_, h⟩ | ⟨_, h, -⟩
    · exact (Prod.mk.inj (heq.symm.trans h)).2
    · cases heq.symm.trans h
  · intro u' heq
    rcases hrewrite with ⟨_, h⟩ | ⟨_, h, hinjected⟩
    · cases heq.symm.trans h
    · exact (Prod.mk.inj (heq.symm.trans h)).2 ▸ hinjected

end

def alignCounted (mors : List (Mor (List Char))) (relations : List (GrammaticalRelation String)) (terminator : List Char)
    (relation : GrammaticalRelation String) :
    Except (ℕ × ℕ) (MorTier (List Char) (List Char) × List (GrammaticalRelation String)) :=
  if chunkCount mors = relations.length then .ok (⟨mors, terminator⟩, relations ++ [relation])
  else .error (chunkCount mors + 1, relations.length + 1)

theorem alignCounted_ok {mors : List (Mor (List Char))} {relations : List (GrammaticalRelation String)}
    {terminator : List Char} {relation : GrammaticalRelation String}
    {tiers : MorTier (List Char) (List Char) × List (GrammaticalRelation String)}
    (h : alignCounted mors relations terminator relation = .ok tiers) :
    tiers = (⟨mors, terminator⟩, relations ++ [relation]) ∧ chunkCount mors = relations.length := by
  unfold alignCounted at h
  split_ifs at h with hcount
  cases h
  exact ⟨rfl, hcount⟩

/-- A library that counts the words at the top of a line. -/
def topWords : TierLibrary (List Char) String (List Char) where
  terminatorText := id
  extractedWords content := content.filterMap fun
    | .word word => some word.cleanedText
    | _ => none
  morAlignableWordCount content := content.countP fun
    | .word _ => true
    | _ => false
  tryAlignMorGra := alignCounted
  aligned _ _ _ _ _ := alignCounted_ok

/-- `gonna go .`, its first word cut in two. -/
theorem retokenize_all_or_nothing_gonna :
    let words : List ExtractedWord := [⟨['g', 'o', 'n', 'n', 'a'], none, .other⟩, ⟨['g', 'o'], none, .other⟩]
    let tokens := [['g', 'o', 'n'], ['n', 'a'], ['g', 'o']]
    let mors : List (Mor (List Char)) := tokens.map (⟨·, []⟩)
    let u : Utterance (List Char) String (List Char) := ⟨words.map fun word => .word (plainText word.text), []⟩
    let ctx := rewriteContext topWords everyTextAWord words tokens [[0, 1], [2]] mors ['.']
    let gras : List (GrammaticalRelation String) := [⟨1, 3, "AUX"⟩, ⟨2, 1, "MARK"⟩, ⟨3, 0, "ROOT"⟩, ⟨4, 3, "PUNCT"⟩]
    let u' := (retokenizeUtterance topWords everyTextAWord u words tokens [[0, 1], [2]] mors ['.'] gras).2
    u'.content.length = 3 ∧ u'.content = (rebuildContent ctx u.content .initial).1 ∧ Injected topWords mors gras u' := by
  intro words tokens mors u ctx gras u'
  have h := (retokenize_all_or_nothing topWords everyTextAWord u words tokens [[0, 1], [2]] mors ['.'] gras).2.2 u' rfl
    (cons_ne_nil _ _) (cons_ne_nil _ _)
  exact ⟨rfl, h.1, h.2 (cons_ne_nil _ _)⟩

end Batchalign.Retokenize
