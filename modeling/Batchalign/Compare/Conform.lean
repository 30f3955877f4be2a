import Batchalign.Compare.Transcript

/- Words conformed before they are aligned (`wer_conform.rs`, `ConformedSide` of `compare/engine.rs`).
   Every compared word becomes the tokens of the first rule that matches it; the word lists of the
   package's data files are `WordLists`. -/
namespace Batchalign.Compare

variable {M T : Type} (C : Chatter M T)

inductive WerNormalization where
  | english
  | keepNames
  deriving DecidableEq

def WerNormalization.forDocument (file : ChatFile M T) : WerNormalization :=
  match file.languageDeclaration with
  | .ok codes => if codes.additional = [] ∧ codes.primary = "eng" then .english else .keepNames
  | .error .absent => .english
  | .error _ => .keepNames

/-- `COMPOUND_MAP`, `NAMES` and `ABBREV` -/
structure WordLists where
  compounds : String → Option (String × String)
  names : String → Bool
  abbreviations : String → Bool

def noWordLists : WordLists := ⟨fun _ => none, fun _ => false, fun _ => false⟩

variable (D : WordLists)

def apostrophe : Char := Char.ofNat 0x27
def rightSingleQuotationMark : Char := Char.ofNat 0x2019

def canonicalizeApostrophes (word : String) : String :=
  word.map fun c => if c = rightSingleQuotationMark then apostrophe else c

/-- `push_token`: no token is empty. -/
def pushTokens (tokens : List String) : List String := tokens.filter fun token => !token.isEmpty

def contains (word pattern : String) : Bool := decide (pattern.toList <:+: word.toList)

/-- `str::split` at one character -/
def splitAt (word : String) (separator : Char) : List String :=
  (word.toList.splitOn separator).map String.ofList

def letters (word : String) : List String := word.toList.map String.singleton

def conformColloquial (w : String) : List String :=
  if w = "dunno" then ["don't", "know"]
  else if w = "wanna" then ["want", "to"]
  else if w = "gonna" then ["going", "to"]
  else if w = "gotta" then ["got", "to"]
  else if w = "kinda" then ["kind", "of"]
  else if w = "sorta" then ["sort", "of"]
  else if w = "shoulda" then ["should", "have"]
  else if w = "sposta" then ["supposed", "to"]
  else if w = "hadta" then ["had", "to"]
  else if w = "alright" ∨ w = "alrightie" then ["all", "right"]
  else if w = "i'd" then ["i", "had"]
  else if w = "this'll" then ["this", "will"]
  else if w = "farmhouse" then ["farm", "house"]
  else if w = "mm" ∨ w = "hmm" then ["hm"]
  else if w = "em" then ["them"]
  else if w = "eh" then ["uh"]
  else if w = "til" then ["until"]
  else if w = "ed" then ["education"]
  else if ["mba", "tli", "bbc", "ai", "aa", "ii"].contains w then letters w
  else if contains w "_" then pushTokens (splitAt w '_')
  else pushTokens [w]

/-- `conform_word_into`: the tokens it appends. -/
def conformWord (normalization : WerNormalization) (word : String) : List String :=
  let trimmed := C.trim word
  let w := canonicalizeApostrophes (C.toLowercase trimmed)
  let stem := String.ofList (w.toList.takeWhile (· ≠ apostrophe))
  match D.compounds w with
  | some (a, b) => pushTokens [a, b]
  | none =>
    if D.abbreviations trimmed then letters trimmed
    else if contains w "'s" then pushTokens [stem, "is"]
    else if contains w "'ve" then pushTokens [stem, "have"]
    else if contains w "'d" then pushTokens [stem, "had"]
    else if contains w "'m" then pushTokens [stem, "am"]
    else if FILLERS.contains w then ["um"]
    else if contains w "-" then pushTokens ((splitAt w '-').map C.trim)
    else if w = "ok" then ["okay"]
    else if w = "gimme" then ["give", "me"]
    else if w = "hafta" ∨ w = "havta" then ["have", "to"]
    else if normalization = .english ∧ D.names w then ["name"]
    else conformColloquial w

/-- One side's compared words and alignment tokens; token `j` is of word `wordOfToken[j]`. -/
structure ConformedSide where
  words : List FlattenedWord
  tokens : List String
  wordOfToken : List ℕ
  document : ComparedDocument

/-- The tokens of the words from the `index`-th on, each with its word. -/
def conformWords (normalization : WerNormalization) : ℕ → List FlattenedWord → List (String × ℕ)
  | _, [] => []
  | index, word :: words =>
    (conformWord C D normalization word.word.word.text).map (·, index) ++
      conformWords normalization (index + 1) words

def ConformedSide.of (document : ComparedDocument) (normalization : WerNormalization) :
    ConformedSide :=
  let words := flattenSide C document
  let tokens := conformWords C D normalization 0 words
  { words, tokens := tokens.map (·.1), wordOfToken := tokens.map (·.2), document }

def ConformedSide.word (side : ConformedSide) (token : ℕ) : FlattenedWord :=
  side.words[side.wordOfToken[token]!]!

def ConformedSide.tokensWithWords (side : ConformedSide) : List (String × FlattenedWord) :=
  (side.tokens.zip side.wordOfToken).map fun (token, word) => (token, side.words[word]!)

end Batchalign.Compare
