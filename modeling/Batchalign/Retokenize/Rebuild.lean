import Batchalign.Retokenize.Mapping

/- The rebuild of a main tier from a model's tokens (`retokenize/rebuild.rs`, `rebuild/scoped.rs`,
   `parse_helpers.rs`, `refusal.rs`). A counted word takes the next index, and its tokens are written in
   its place unless they were before; other content is a boundary no open merge may cross; an annotated
   word or one of a replacement is expanded whole or refused. The transcript library is `Chatter`; of
   the `%mor` items only their number is read. -/
namespace Batchalign.Retokenize

/-! ## Content -/

structure ContentAnnotation where
  mark : List Char

inductive WordContent where
  | text (text : List Char)
  | other (text : List Char)
  deriving DecidableEq

structure Word where
  cleanedText : List Char
  wordId : Option (List Char)
  category : Option (List Char)
  suffix : Option (List Char)
  partOfSpeech : Option (List Char)
  inlineBullet : Option (ℕ × ℕ)
  content : List WordContent
  deriving DecidableEq

structure ReplacedWord where
  word : Word
  replacement : List Word
  scopedAnnotations : List ContentAnnotation

inductive Separator where
  | comma
  | tag
  | vocative
  | other (text : List Char)
  deriving DecidableEq

inductive ContainerKind where
  | group
  | phoGroup
  | sinGroup
  | quotation

inductive AnnotatedContainerKind where
  | group
  | quotation

/-- Content that carries no `%mor` word; a retrace keeps its words to itself. -/
inductive OtherKind where
  | orphanAnnotation | event | annotatedEvent | pause | retrace | annotatedRetrace
  | action | annotatedAction | freecode | overlapPoint | internalBullet
  | longFeatureBegin | longFeatureEnd | underlineBegin | underlineEnd
  | nonvocalBegin | nonvocalEnd | nonvocalSimple | otherSpokenEvent

inductive BracketedItem where
  | word (word : Word)
  | annotatedWord (inner : Word) (scopedAnnotations : List ContentAnnotation)
  | replacedWord (replaced : ReplacedWord)
  | container (kind : ContainerKind) (items : List BracketedItem)
  | annotatedContainer (kind : AnnotatedContainerKind) (items : List BracketedItem)
      (scopedAnnotations : List ContentAnnotation)
  | separator (separator : Separator)
  | other (kind : OtherKind) (text : List Char)

inductive UtteranceContent where
  | word (word : Word)
  | annotatedWord (inner : Word) (scopedAnnotations : List ContentAnnotation)
  | replacedWord (replaced : ReplacedWord)
  | container (kind : ContainerKind) (items : List BracketedItem)
  | annotatedContainer (kind : AnnotatedContainerKind) (items : List BracketedItem)
      (scopedAnnotations : List ContentAnnotation)
  | separator (separator : Separator)
  | other (kind : OtherKind) (text : List Char)

/-- The transcript library: words that count, excluding annotations, tag separators, ending texts, texts that
  are words. -/
structure Chatter where
  countsForMor : Word → Bool
  annotationsHaveAlignmentIgnore : List ContentAnnotation → Bool
  isTagMarkerSeparator : Separator → Bool
  isChatTerminator : List Char → Bool
  parseWordFragment : List Char → Option Word

def shouldRetokenize (X : Chatter) (word : Word) : Bool := X.countsForMor word

def excludedFromMor (X : Chatter) (annotations : List ContentAnnotation) : Bool :=
  X.annotationsHaveAlignmentIgnore annotations

/-! ## The context -/

inductive ExpansionRefusal where
  | unmapped
  | wrongSource
  | crossesScope
  | alreadyEmitted
  | missingToken (index : ℕ)
  | notAWord
  | decoratedWord
  deriving DecidableEq

inductive RebuildRefusal where
  | mergeCrossesContent (token firstWord : ℕ)
  | wordUnmapped (word : ℕ)
  | scopedExpansion (refusal : ExpansionRefusal)
  | replacementWithoutWords
  | notAWord (token : List Char)
  | terminatorDiffers (model transcript : List Char)
  deriving DecidableEq

structure RetokenizeContext where
  chatter : Chatter
  mapping : WordTokenMapping
  stanzaTokens : List (List Char)
  originalWords : List ExtractedWord
  mors : ℕ
  expectedTerminator : Option (List Char)

/-- The state of the rebuild walk. -/
structure RebuildState where
  wordCounter : ℕ
  morCursor : ℕ
  diagnostics : List RebuildRefusal
  emittedTokens : List ℕ

namespace RebuildState

def initial : RebuildState := ⟨0, 0, [], []⟩

def report (s : RebuildState) (refusal : RebuildRefusal) : RebuildState :=
  { s with diagnostics := s.diagnostics ++ [refusal] }

def nextWord (s : RebuildState) : RebuildState := { s with wordCounter := s.wordCounter + 1 }

def emit (s : RebuildState) (token : ℕ) : RebuildState :=
  { s with morCursor := s.morCursor + 1, emittedTokens := token :: s.emittedTokens }

def passMor (s : RebuildState) (mors : ℕ) : RebuildState :=
  if s.morCursor < mors then { s with morCursor := s.morCursor + 1 } else s

end RebuildState

/-! ## What the walk writes -/

inductive Written where
  | word (word : Word)
  | separator (separator : Separator)

def Written.toUtteranceContent : Written → UtteranceContent
  | .word w => .word w
  | .separator mark => .separator mark

def Written.toBracketedItem : Written → BracketedItem
  | .word w => .word w
  | .separator mark => .separator mark

structure ExpandedWords where
  first : Word
  rest : List Word

def ExpandedWords.retained (word : Word) : ExpandedWords := ⟨word, []⟩

def ExpandedWords.toList (words : ExpandedWords) : List Word := words.first :: words.rest

structure AdmittedExpansion where
  tokenIndices : List ℕ
  words : ExpandedWords

inductive RebuiltScopedWord where
  | word (inner : Word) (scopedAnnotations : List ContentAnnotation)
  | group (words : List Word) (scopedAnnotations : List ContentAnnotation)

def RebuiltScopedWord.toUtteranceContent : RebuiltScopedWord → UtteranceContent
  | .word inner annotations => .annotatedWord inner annotations
  | .group words annotations => .annotatedContainer .group (words.map .word) annotations

def RebuiltScopedWord.toBracketedItem : RebuiltScopedWord → BracketedItem
  | .word inner annotations => .annotatedWord inner annotations
  | .group words annotations => .annotatedContainer .group (words.map .word) annotations

/-! ## Boundaries -/

section Walk
variable (ctx : RetokenizeContext)

def openMerge (s : RebuildState) : Option ℕ :=
  if s.wordCounter = 0 then none
  else
    match (ctx.mapping.tokensForWord (s.wordCounter - 1)).getLast? with
    | none => none
    | some last =>
      if (ctx.mapping.tokensForWord s.wordCounter).head? = some last then some last else none

def atBoundary (s : RebuildState) : RebuildState :=
  match openMerge ctx s with
  | none => s
  | some token =>
    let crossing := .mergeCrossesContent token (s.wordCounter - 1)
    if s.diagnostics.getLast? = some crossing then s else s.report crossing

/-! ## Tokens as words -/

def xbxxx : List Char := ['x', 'b', 'x', 'x', 'x']

def resolveTokenText (stanzaText : List Char) (origWordIdx : ℕ)
    (originalWords : List ExtractedWord) : List Char :=
  match originalWords[origWordIdx]? with
  | none => stanzaText
  | some word =>
    if stanzaText = xbxxx ∧ (word.formType.isSome ∨ word.languageKind = .own) then word.text
    else stanzaText

def handleEndingPunctSkip (text : List Char) (s : RebuildState) : Bool × RebuildState :=
  if ctx.chatter.isChatTerminator text then
    match ctx.expectedTerminator with
    | none => (true, s)
    | some expected =>
      if text = expected then (true, s) else (true, s.report (.terminatorDiffers text expected))
  else (false, s)

def tryParseTokenAsWord (text : List Char) (s : RebuildState) : Option Word × RebuildState :=
  match ctx.chatter.parseWordFragment text with
  | some word => (some word, s)
  | none => (none, s.report (.notAWord text))

def separatorOf (text : List Char) : Option Separator :=
  if text = [','] then some .comma
  else if text = ['\u201E'] then some .tag
  else if text = ['\u2021'] then some .vocative
  else none

def tryParseToken (text : List Char) (s : RebuildState) : Option Written × RebuildState :=
  match separatorOf text with
  | some separator => (some (.separator separator), s)
  | none =>
    let skip := handleEndingPunctSkip ctx text s
    if skip.1 then (none, skip.2)
    else
      let parsed := tryParseTokenAsWord ctx text skip.2
      (parsed.1.map .word, parsed.2)

/-! ## Plain words -/

/-- Write the tokens of a word from one of them on; `indices` are all of its tokens. -/
def writeTokens (word : Word) (origIdx : ℕ) (indices : List ℕ) :
    List ℕ → RebuildState → List Written × RebuildState
  | [], s => ([], s)
  | ti :: rest, s =>
    let text := resolveTokenText ((ctx.stanzaTokens[ti]?).getD []) origIdx ctx.originalWords
    if indices.length = 1 ∧ word.cleanedText = text then ([.word word], s.emit ti)
    else
      let parsed := tryParseToken ctx text (s.emit ti)
      match parsed.1 with
      | some item =>
        let later := writeTokens word origIdx indices rest parsed.2
        (item :: later.1, later.2)
      | none =>
        -- the word stays, and what follows of its tokens counts as written
        ([.word word], (indices.drop (indices.idxOf ti + 1)).foldl RebuildState.emit parsed.2)

/-- `handle_word_retokenize` and its bracketed twin, before the items are wrapped. -/
def handleWord (word : Word) (s : RebuildState) : List Written × RebuildState :=
  let origIdx := s.wordCounter
  let s := s.nextWord
  match ctx.mapping.getNonempty origIdx with
  | none => ([.word word], (s.report (.wordUnmapped origIdx)).passMor ctx.mors)
  | some indices =>
    if indices.isEmpty then ([.word word], s.passMor ctx.mors)
    else if indices.all s.emittedTokens.contains then ([], s)
    else writeTokens ctx word origIdx indices indices s

def handleWordRetokenize (word : Word) (s : RebuildState) : List UtteranceContent × RebuildState :=
  ((handleWord ctx word s).1.map Written.toUtteranceContent, (handleWord ctx word s).2)

def handleBracketedWordRetokenize (word : Word) (s : RebuildState) :
    List BracketedItem × RebuildState :=
  ((handleWord ctx word s).1.map Written.toBracketedItem, (handleWord ctx word s).2)

/-! ## Scoped words -/

def tokenRefusal (originalIndex : ℕ) (emitted : List ℕ) (index : ℕ) : Option ExpansionRefusal :=
  if emitted.contains index then some .alreadyEmitted
  else if (List.range ctx.mapping.length).any fun other =>
      other != originalIndex && (ctx.mapping.tokensForWord other).contains index then
    some .crossesScope
  else none

def Word.isDecorated (word : Word) : Bool :=
  word.wordId.isSome || word.category.isSome || word.suffix.isSome || word.partOfSpeech.isSome ||
    word.inlineBullet.isSome || word.content.length != 1 ||
    !word.content.all fun part =>
      match part with
      | .text _ => true
      | .other _ => false

def expandTokens (word : Word) (originalIndex : ℕ) (single : Bool) :
    List ℕ → RebuildState → Except ExpansionRefusal (List Word) × RebuildState
  | [], s => (.ok [], s)
  | index :: rest, s =>
    match ctx.stanzaTokens[index]? with
    | none => (.error (.missingToken index), s)
    | some token =>
      let text := resolveTokenText token originalIndex ctx.originalWords
      if single ∧ word.cleanedText = text then
        let later := expandTokens word originalIndex single rest s
        (later.1.map (word :: ·), later.2)
      else if word.isDecorated then (.error .decoratedWord, s)
      else
        let parsed := tryParseTokenAsWord ctx text s
        match parsed.1 with
        | none => (.error .notAWord, parsed.2)
        | some new =>
          let later := expandTokens word originalIndex single rest parsed.2
          (later.1.map (new :: ·), later.2)

/-- `AdmittedExpansion::admit`. -/
def admitExpansion (word : Word) (s : RebuildState) :
    Except ExpansionRefusal AdmittedExpansion × RebuildState :=
  let originalIndex := s.wordCounter
  let s := s.nextWord
  match ctx.mapping.getNonempty originalIndex with
  | none => (.error .unmapped, s)
  | some indices =>
    match ctx.originalWords[originalIndex]? with
    | none => (.error .wrongSource, s)
    | some original =>
      if original.text ≠ word.cleanedText then (.error .wrongSource, s)
      else
        match indices.findSome? (tokenRefusal ctx originalIndex s.emittedTokens) with
        | some refused => (.error refused, s)
        | none =>
          let expanded := expandTokens ctx word originalIndex (indices.length == 1) indices s
          match expanded.1 with
          | .error refused => (.error refused, expanded.2)
          | .ok [] => (.error .unmapped, expanded.2)
          | .ok (first :: rest) => (.ok ⟨indices, first, rest⟩, expanded.2)

def RebuildState.commit (s : RebuildState) (tokenIndices : List ℕ) : RebuildState :=
  { s with
    morCursor := s.morCursor + tokenIndices.length
    emittedTokens := tokenIndices ++ s.emittedTokens }

def expandWord (word : Word) (s : RebuildState) : ExpandedWords × RebuildState :=
  if shouldRetokenize ctx.chatter word then
    let admitted := admitExpansion ctx word s
    match admitted.1 with
    | .ok expansion => (expansion.words, admitted.2.commit expansion.tokenIndices)
    | .error refused => (.retained word, admitted.2.report (.scopedExpansion refused))
  else (.retained word, s)

def rebuildAnnotatedWord (inner : Word) (annotations : List ContentAnnotation) (s : RebuildState) :
    RebuiltScopedWord × RebuildState :=
  if excludedFromMor ctx.chatter annotations then (.word inner annotations, s)
  else
    let expansion := expandWord ctx inner s
    if expansion.1.rest.isEmpty then (.word expansion.1.first annotations, expansion.2)
    else (.group expansion.1.toList annotations, expansion.2)

def expandWords : List Word → RebuildState → List Word × RebuildState
  | [], s => ([], s)
  | word :: words, s =>
    let expansion := expandWord ctx word s
    let later := expandWords words expansion.2
    (expansion.1.toList ++ later.1, later.2)

def rebuildReplacedWord (replaced : ReplacedWord) (s : RebuildState) :
    ReplacedWord × RebuildState :=
  if excludedFromMor ctx.chatter replaced.scopedAnnotations then (replaced, s)
  else if replaced.replacement.isEmpty then (replaced, s.report .replacementWithoutWords)
  else
    let rewritten := expandWords ctx replaced.replacement s
    ({ replaced with replacement := rewritten.1 }, rewritten.2)

/-! ## The two walks -/

def BracketedItem.isRetokenized (X : Chatter) : BracketedItem → Bool
  | .word w => shouldRetokenize X w
  | _ => false

def UtteranceContent.isRetokenized (X : Chatter) : UtteranceContent → Bool
  | .word w => shouldRetokenize X w
  | _ => false

mutual

/-- One item of `rebuild_bracketed_content`; a container's last `atBoundary` is its closing edge. -/
def rebuildBracketedItem (item : BracketedItem) (s : RebuildState) :
    List BracketedItem × RebuildState :=
  let s := if item.isRetokenized ctx.chatter then s else atBoundary ctx s
  match item with
  | .word word =>
    if shouldRetokenize ctx.chatter word then handleBracketedWordRetokenize ctx word s
    else ([.word word], s)
  | .annotatedWord inner annotations =>
    let rebuilt := rebuildAnnotatedWord ctx inner annotations s
    ([rebuilt.1.toBracketedItem], rebuilt.2)
  | .replacedWord replaced =>
    let rebuilt := rebuildReplacedWord ctx replaced s
    ([.replacedWord rebuilt.1], rebuilt.2)
  | .container kind items =>
    let nested := rebuildBracketedContent items s
    ([.container kind nested.1], atBoundary ctx nested.2)
  | .annotatedContainer kind items annotations =>
    if excludedFromMor ctx.chatter annotations then
      ([.annotatedContainer kind items annotations], s)
    else
      let nested := rebuildBracketedContent items s
      ([.annotatedContainer kind nested.1 annotations], atBoundary ctx nested.2)
  | .separator separator =>
    ([.separator separator], if ctx.chatter.isTagMarkerSeparator separator then s.nextWord else s)
  | .other kind text => ([.other kind text], s)

def rebuildBracketedContent : List BracketedItem → RebuildState → List BracketedItem × RebuildState
  | [], s => ([], s)
  | item :: items, s =>
    let rebuilt := rebuildBracketedItem item s
    let later := rebuildBracketedContent items rebuilt.2
    (rebuilt.1 ++ later.1, later.2)

end

def rebuildNested (items : List BracketedItem) (s : RebuildState) :
    List BracketedItem × RebuildState :=
  let nested := rebuildBracketedContent ctx items s
  (nested.1, atBoundary ctx nested.2)

/-- One item of `rebuild_content`. -/
def rebuildItem (item : UtteranceContent) (s : RebuildState) :
    List UtteranceContent × RebuildState :=
  let s := if item.isRetokenized ctx.chatter then s else atBoundary ctx s
  match item with
  | .word word =>
    if shouldRetokenize ctx.chatter word then handleWordRetokenize ctx word s
    else ([.word word], s)
  | .annotatedWord inner annotations =>
    let rebuilt := rebuildAnnotatedWord ctx inner annotations s
    ([rebuilt.1.toUtteranceContent], rebuilt.2)
  | .replacedWord replaced =>
    let rebuilt := rebuildReplacedWord ctx replaced s
    ([.replacedWord rebuilt.1], rebuilt.2)
  | .container kind items =>
    let nested := rebuildNested ctx items s
    ([.container kind nested.1], nested.2)
  | .annotatedContainer kind items annotations =>
    if excludedFromMor ctx.chatter annotations then
      ([.annotatedContainer kind items annotations], s)
    else
      let nested := rebuildNested ctx items s
      ([.annotatedContainer kind nested.1 annotations], nested.2)
  | .separator separator =>
    ([.separator separator], if ctx.chatter.isTagMarkerSeparator separator then s.nextWord else s)
  | .other kind text => ([.other kind text], s)

def rebuildContent : List UtteranceContent → RebuildState → List UtteranceContent × RebuildState
  | [], s => ([], s)
  | item :: items, s =>
    let rebuilt := rebuildItem ctx item s
    let later := rebuildContent items rebuilt.2
    (rebuilt.1 ++ later.1, later.2)

end Walk

end Batchalign.Retokenize
