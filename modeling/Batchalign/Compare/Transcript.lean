import Mathlib.Tactic
import Batchalign.DpAlign.Comparison
import Batchalign.Morphosyntax.SentenceMapping

/- The transcripts a comparison reads (`compare/{language,pos,engine}.rs`): the utterances with their
   words, each with language and part of speech.

   What the CHAT model's package says of texts, language marks and tiers is `Chatter`. `M` is an
   analysed word, `T` a typed terminator. -/
namespace Batchalign.Compare
open DpAlign Morphosyntax

abbrev LanguageCode := String

/-- What an admitted `@Languages` line declares. -/
structure DeclaredLanguages where
  primary : LanguageCode
  additional : List LanguageCode

inductive LanguageDeclarationError where
  | absent
  | empty
  | rejected
  | repeated

inductive LanguageResolution where
  | single (code : LanguageCode)
  | multiple (codes : List LanguageCode)
  | ambiguous (codes : List LanguageCode)
  | unresolved

inductive GoverningMarkKind where
  | utterance
  | own
  | span
  deriving DecidableEq, Inhabited

/-- A word of the main tier in the `%mor` domain, with the text of its language mark. -/
structure MorDomainWord where
  text : String
  languageKind : GoverningMarkKind
  mark : String
  deriving DecidableEq, Inhabited

structure ExtractedWord extends MorDomainWord where
  utteranceWordIndex : ℕ
  deriving DecidableEq, Inhabited

variable {M T : Type}

deriving instance DecidableEq for Mor

structure MorTier (M T : Type) where
  items : List (Mor M)
  terminator : T
  deriving DecidableEq

inductive DependentTier (M T : Type) where
  | mor (tier : MorTier M T)
  | gra (relations : List (GrammaticalRelation String))
  | wor (content : String)
  | other (label content : String)
  deriving DecidableEq

def DependentTier.mor? : DependentTier M T → Option (MorTier M T)
  | .mor tier => some tier
  | _ => none

def DependentTier.gra? : DependentTier M T → Option (List (GrammaticalRelation String))
  | .gra relations => some relations
  | _ => none

/-- The main word and its clitics. -/
def countChunks (mor : Mor M) : ℕ := 1 + mor.postClitics.length

def MorTier.countChunks (tier : MorTier M T) : ℕ := (tier.items.map Compare.countChunks).sum

structure Utterance (M T : Type) where
  speaker : String
  /-- the code of a `[- lang]` precode -/
  languageCode : Option LanguageCode
  words : List MorDomainWord
  terminator : Option T
  dependentTiers : List (DependentTier M T)
  deriving DecidableEq

def Utterance.morTier (u : Utterance M T) : Option (MorTier M T) :=
  u.dependentTiers.findSome? DependentTier.mor?

def Utterance.graTier (u : Utterance M T) : Option (List (GrammaticalRelation String)) :=
  u.dependentTiers.findSome? DependentTier.gra?

structure ChatFile (M T : Type) where
  languageDeclaration : Except LanguageDeclarationError DeclaredLanguages
  utterances : List (Utterance M T)

/-- The CHAT packages and Unicode tables. `replace_or_add_tier` replaces the tier of the kind, or appends. -/
structure Chatter (M T : Type) where
  trim : String → String
  toLowercase : String → String
  toUppercase : String → String
  isChatTerminator : String → Bool
  toChatString : T → String
  tryFromChatStr : String → Option T
  pos : M → String
  resolveLanguage : ExtractedWord → Option LanguageCode → DeclaredLanguages → LanguageResolution
  replaceOrAddTier : List (DependentTier M T) → DependentTier M T → List (DependentTier M T)
  mor_replaceOrAddTier : ∀ tiers tier, (replaceOrAddTier tiers tier).findSome? DependentTier.mor? =
    tier.mor?.or (tiers.findSome? DependentTier.mor?)
  gra_replaceOrAddTier : ∀ tiers tier, (replaceOrAddTier tiers tier).findSome? DependentTier.gra? =
    tier.gra?.or (tiers.findSome? DependentTier.gra?)

def DependentTier.sameKind : DependentTier M T → DependentTier M T → Bool
  | .mor _, .mor _ | .gra _, .gra _ | .wor _, .wor _ => true
  | .other label _, .other label' _ => label == label'
  | _, _ => false

def putTier (tier : DependentTier M T) : List (DependentTier M T) → List (DependentTier M T)
  | [] => [tier]
  | old :: tiers => if old.sameKind tier then tier :: tiers else old :: putTier tier tiers

theorem findSome?_putTier {A : Type} {f : DependentTier M T → Option A}
    (hsame : ∀ old tier, old.sameKind tier = true → f tier = none → f old = none)
    (hother : ∀ old tier, old.sameKind tier = false → f tier ≠ none → f old = none)
    (tier : DependentTier M T) (tiers : List (DependentTier M T)) :
    (putTier tier tiers).findSome? f = (f tier).or (tiers.findSome? f) := by
  induction tiers with
  | nil => cases h : f tier <;> simp [putTier, h]
  | cons old tiers ih =>
    cases hkind : old.sameKind tier <;> cases htier : f tier
    · simp [putTier, hkind, List.findSome?_cons, ih, htier]
    · simp [putTier, hkind, ih, htier, hother old tier hkind (by simp [htier])]
    · simp [putTier, hkind, htier, hsame old tier hkind htier]
    · simp [putTier, hkind, List.findSome?_cons, htier]

/-- Plain ASCII texts, where an analysed word is its part of speech and a terminator its text. -/
def plainChatter : Chatter String String where
  trim text := text
  toLowercase text := text.map Char.toLower
  toUppercase text := text.map Char.toUpper
  isChatTerminator text := [".", "?", "!"].contains text
  toChatString terminator := terminator
  tryFromChatStr text := if [".", "?", "!"].contains text then some text else none
  pos word := word
  resolveLanguage word tierLanguage codes := match word.languageKind with
    | .utterance => .single (tierLanguage.getD codes.primary)
    | .own | .span => .single word.mark
  replaceOrAddTier tiers tier := putTier tier tiers
  mor_replaceOrAddTier tiers tier := findSome?_putTier
    (by rintro (_ | _) (_ | _) <;> simp [DependentTier.sameKind, DependentTier.mor?])
    (by rintro (_ | _) (_ | _) <;> simp [DependentTier.sameKind, DependentTier.mor?]) tier tiers
  gra_replaceOrAddTier tiers tier := findSome?_putTier
    (by rintro (_ | _) (_ | _) <;> simp [DependentTier.sameKind, DependentTier.gra?])
    (by rintro (_ | _) (_ | _) <;> simp [DependentTier.sameKind, DependentTier.gra?]) tier tiers

def plainFile (utterances : List (List String × List (DependentTier String String))) :
    ChatFile String String where
  languageDeclaration := .ok ⟨"eng", []⟩
  utterances := utterances.map fun (texts, tiers) =>
    ⟨"CHI", none, texts.map fun text => ⟨text, .utterance, ""⟩, some ".", tiers⟩

variable (C : Chatter M T)

inductive LanguageBucket where
  | language (code : LanguageCode)
  | mixed (codes : List LanguageCode)
  | ambiguous (codes : List LanguageCode)
  | unresolved
  deriving DecidableEq, Inhabited

def LanguageBucket.ofResolution : LanguageResolution → LanguageBucket
  | .single code => .language code
  | .multiple codes => .mixed codes
  | .ambiguous codes => .ambiguous codes
  | .unresolved => .unresolved

inductive LanguageAgreement where
  | same
  | different
  | indeterminate

def LanguageAgreement.of : LanguageBucket → LanguageBucket → LanguageAgreement
  | .unresolved, _ | _, .unresolved | .ambiguous _, _ | _, .ambiguous _ => .indeterminate
  | .language left, .language right => if left = right then .same else .different
  | .mixed left, .mixed right => if left = right then .same else .different
  | .language _, .mixed _ | .mixed _, .language _ => .different

inductive LanguageRole where
  | utteranceLanguage
  | switched
  deriving DecidableEq, Inhabited

structure WordLanguage where
  language : LanguageBucket
  role : LanguageRole
  deriving DecidableEq, Inhabited

structure LanguagedWord where
  word : ExtractedWord
  utterance : ℕ
  language : WordLanguage
  deriving DecidableEq, Inhabited

structure LanguagedUtterance where
  speaker : String
  utteranceIndex : ℕ
  language : LanguageBucket
  words : List LanguagedWord
  deriving Inhabited

def resolveWordLanguage (word : ExtractedWord) (utteranceLanguage : LanguageBucket)
    (tierLanguage : Option LanguageCode)
    (declared : Except LanguageDeclarationError DeclaredLanguages) : WordLanguage :=
  let bucket := match declared with
    | .ok codes => LanguageBucket.ofResolution (C.resolveLanguage word tierLanguage codes)
    | .error _ => .unresolved
  let role := match word.languageKind, LanguageAgreement.of bucket utteranceLanguage with
    | .utterance, _ | .own, .same | .span, .same => LanguageRole.utteranceLanguage
    | .own, .different | .own, .indeterminate | .span, .different | .span, .indeterminate =>
      LanguageRole.switched
  ⟨bucket, role⟩

/-- `extract::collect_utterance_content` in the `%mor` domain. -/
def collectUtteranceContent (words : List MorDomainWord) : List ExtractedWord :=
  words.mapIdx fun index word => ⟨word, index⟩

def languagedUtterance (declared : Except LanguageDeclarationError DeclaredLanguages) (index : ℕ)
    (utterance : Utterance M T) : LanguagedUtterance :=
  let primary := match declared with
    | .ok codes => some codes.primary
    | .error _ => none
  let tierLanguage := utterance.languageCode.or primary
  let utteranceBucket := match tierLanguage with
    | some code => LanguageBucket.language code
    | none => .unresolved
  { speaker := utterance.speaker
    utteranceIndex := index
    language := utteranceBucket
    words := (collectUtteranceContent utterance.words).map fun word =>
      ⟨word, index, resolveWordLanguage C word utteranceBucket tierLanguage declared⟩ }

def languagedUtterances (file : ChatFile M T) : List LanguagedUtterance :=
  file.utterances.mapIdx (languagedUtterance C file.languageDeclaration)

def FILLERS : List String := ["um", "uhm", "em", "mhm", "uhhm", "eh", "uh", "hm"]

def isPunctOrFiller (word : String) : Bool :=
  let w := C.trim word
  C.isChatTerminator w || [",", "‡", "„"].contains w || FILLERS.contains (C.toLowercase w)

inductive GoldPos where
  | tagged (labels : List (List (Option String)))
  | untagged

def GoldPos.of (file : ChatFile M T) : GoldPos :=
  let labels := file.utterances.map fun utt => match utt.morTier with
    | some mor => mor.items.map fun item => some (C.toUppercase (C.pos item.main))
    | none => []
  if labels.any fun utterance => !utterance.isEmpty then .tagged labels else .untagged

def GoldPos.label (pos : GoldPos) (utterance word : ℕ) : Option String :=
  match pos with
  | .tagged labels => (labels[utterance]?.bind (·[word]?)).join
  | .untagged => none

def GoldPos.tag (pos : GoldPos) (utterance word : ℕ) : Option String := pos.label utterance word

def GoldPos.excludesFromComparison (pos : GoldPos) (utterance word : ℕ) (text : String) : Bool :=
  match pos with
  | .tagged _ => isPunctOrFiller C text ||
      (pos.label utterance word).any fun label => eqIgnoreAsciiCase label "PUNCT"
  | .untagged => isPunctOrFiller C text

def GoldPos.posForMatch (pos : GoldPos) (gold main : Option String) : Option String :=
  match pos with
  | .tagged _ => gold
  | .untagged => main

def collectUtteranceTerminators (file : ChatFile M T) : List (Option String) :=
  file.utterances.map fun utt => utt.terminator.map C.toChatString

structure ComparedDocument where
  utterances : List LanguagedUtterance
  pos : GoldPos
  terminators : List (Option String)

def ComparedDocument.of (file : ChatFile M T) : ComparedDocument :=
  ⟨languagedUtterances C file, GoldPos.of C file, collectUtteranceTerminators C file⟩

structure FlattenedWord where
  word : LanguagedWord
  position : ℕ
  pos : Option String
  deriving DecidableEq, Inhabited

/-- The compared words of one utterance, the first of them at `position`. -/
def flattenWords (pos : GoldPos) (utterance : ℕ) : ℕ → List LanguagedWord → List FlattenedWord
  | _, [] => []
  | position, languaged :: rest =>
    let index := languaged.word.utteranceWordIndex
    if pos.excludesFromComparison C utterance index languaged.word.text then
      flattenWords pos utterance position rest
    else
      ⟨languaged, position, pos.tag utterance index⟩ :: flattenWords pos utterance (position + 1) rest

def flattenSide (document : ComparedDocument) : List FlattenedWord :=
  document.utterances.flatMap fun utt =>
    flattenWords C document.pos utt.utteranceIndex 0 utt.words

end Batchalign.Compare
