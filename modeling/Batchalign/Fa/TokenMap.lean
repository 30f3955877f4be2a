import Batchalign.Lib.Segments
import Batchalign.DpAlign.AlignOptimal
import Batchalign.Fa.Windows

/- Attribution of an engine's labels to the words of a transcript (`fa/alignment/token_map.rs`,
   `fa/alignment/residue.rs`). Words are spelled from whole labels as far as that goes; after that each
   label goes to the word with most of its aligned characters, and an unmatched word may take the labels
   between its neighbours. Slots of the residue are counted from its start. -/
namespace Batchalign.Fa
open DpAlign Segments

structure UnicodeTables where
  toLowercase : Char → List Char
  nfc : List Char → List Char
  isAlphanumeric : Char → Bool
  isWhitespace : Char → Bool

def normalizeFaAlignmentUnit (U : UnicodeTables) (text : List Char) : List Char :=
  (U.nfc (text.flatMap U.toLowercase)).filter U.isAlphanumeric

def trim (U : UnicodeTables) (text : List Char) : List Char :=
  ((text.dropWhile U.isWhitespace).reverse.dropWhile U.isWhitespace).reverse

structure FaRawToken where
  text : List Char
  timeMs : ℕ

structure CharEdits where
  transcriptOnly : ℕ
  labelOnly : ℕ

def CharEdits.zero : CharEdits := ⟨0, 0⟩

def CharEdits.isExact (edits : CharEdits) : Bool := edits.transcriptOnly == 0 && edits.labelOnly == 0

inductive Origin where
  | engineMeasured
  | derivedFromNextOnset
  | fallbackDuration (assumed : ℕ)
  | clampedToRequestEnd (was : Origin) (original overshoot : ℕ)
  | attributedByCharAlignment (was : Origin) (edits : CharEdits)

inductive SpanFault where
  | inverted (startMs endMs : ℕ)
  | noExtent (atMs : ℕ)
  deriving DecidableEq

inductive UntimedReason where
  | noLexicalContent
  | noUsableLabels
  | noLabelSpan
  | spanRefused (fault : SpanFault)
  | timingRefusedProvenSpan
  | residueTooLongToAlign (transcriptChars labelChars budget : ℕ)
  | nonMonotoneAttribution
  deriving DecidableEq

structure WordTiming where
  startMs : ℕ
  endMs : ℕ
  startOrigin : Origin
  endOrigin : Origin

inductive WordTimingOutcome where
  | timed (timing : WordTiming) (edits : CharEdits)
  | untimed (reason : UntimedReason)

structure LabelRun where
  first : ℕ
  last : ℕ
  deriving DecidableEq

def LabelRun.through (first last : ℕ) : Option LabelRun := if first ≤ last then some ⟨first, last⟩ else none

structure Attribution where
  run : LabelRun
  edits : CharEdits

structure Label where
  norm : List Char
  onset : ℕ
  deriving DecidableEq

section Tracks
variable (U : UnicodeTables) {R : Recording}

/-- `WordTrack::of_words`: a word without alphanumeric content refuses the group. -/
def wordTrack : List FaWord → Except UntimedReason (List (List Char))
  | [] => .ok []
  | word :: words =>
    let norm := normalizeFaAlignmentUnit U word.text.toList
    if norm.isEmpty then .error .noLexicalContent
    else
      match wordTrack words with
      | .ok norms => .ok (norm :: norms)
      | .error reason => .error reason

/-- `FaWindow::to_file`, when the report lies inside the window. -/
def FaWindow.toFile (window : FaWindow R) (reported : ℕ) : Option ℕ :=
  if reported > window.len then none else some (window.startMs + reported)

/-- `LabelTrack::from_engine_tokens`: markers, empty tokens and reports past the window are no labels.
-/
def labelTrack (tokens : List FaRawToken) (window : FaWindow R) : List Label :=
  tokens.filterMap fun token =>
    let text := trim U token.text
    if ['<', '|'] <+: text ∧ ['|', '>'] <:+ text then none
    else
      let norm := normalizeFaAlignmentUnit U text
      if norm.isEmpty then none
      else (window.toFile token.timeMs).map fun onset => ⟨norm, onset⟩

end Tracks

/-! ## The stitch -/

def spell : List Char → List (List Char) → Option ℕ
  | _, [] => none
  | rest, label :: labels =>
    if label <+: rest then
      if (rest.drop label.length).isEmpty then some 1
      else (spell (rest.drop label.length) labels).map (· + 1)
    else none

/-- The runs of the words spelled in order from label `next`, and the first unused label. -/
def stitchInOrder (labels : List (List Char)) : ℕ → List (List Char) → List LabelRun × ℕ
  | next, [] => ([], next)
  | next, word :: words =>
    match spell word (labels.drop next) with
    | none => ([], next)
    | some used =>
      let later := stitchInOrder labels (next + used) words
      (⟨next, next + used - 1⟩ :: later.1, later.2)

/-! ## The residue -/

def maxResidueAlignChars : ℕ := 4096

section Residue
variable (ws ls : List (List Char))

def residueAlignment : List AlignResult := alignChars ws.flatten ls.flatten .exact

def wordOfChar (p : ℕ) : ℕ := ((slotsFrom 0 ws)[p]?).getD 0

def labelOfChar (r : ℕ) : ℕ := ((slotsFrom 0 ls)[r]?).getD 0

def shared (word label : ℕ) : ℕ :=
  (residueAlignment ws ls).countP fun
    | .matched _ p r => wordOfChar ws p == word && labelOfChar ls r == label
    | _ => false

def unmatchedWordChars (word : ℕ) : ℕ :=
  (residueAlignment ws ls).countP fun
    | .extraPayload _ p => wordOfChar ws p == word
    | _ => false

def unmatchedLabelChars (label : ℕ) : ℕ :=
  (residueAlignment ws ls).countP fun
    | .extraReference _ r => labelOfChar ls r == label
    | _ => false

def betterOwner (label : ℕ) (best : Option (ℕ × ℕ)) (word : ℕ) : Option (ℕ × ℕ) :=
  let count := shared ws ls word label
  if count = 0 then best
  else
    match best with
    | none => some (word, count)
    | some (_, bestCount) => if bestCount < count then some (word, count) else best

def owner (label : ℕ) : Option ℕ :=
  ((List.range ws.length).foldl (betterOwner ws ls label) none).map Prod.fst

/-- `owners_are_monotone`, after the owner last seen. -/
def ownersAreMonotoneFrom : Option ℕ → List ℕ → Bool
  | _, [] => true
  | none, word :: words => ownersAreMonotoneFrom (some word) words
  | some previous, word :: words =>
    if word < previous then false else ownersAreMonotoneFrom (some word) words

def ownersAreMonotone (owners : List (Option ℕ)) : Bool := ownersAreMonotoneFrom none (owners.filterMap id)

def ownedLabels (word : ℕ) : List ℕ := (List.range ls.length).filter fun label => owner ws ls label == some word

def claim (word : ℕ) : Option (ℕ × ℕ) :=
  match (ownedLabels ws ls word).head?, (ownedLabels ws ls word).getLast? with
  | some first, some last => some (first, last)
  | _, _ => none

/-- The label after the claim before a word; words before the residue count as a claim. -/
def leftBracket (hasPrefix : Bool) (word : ℕ) : Option ℕ :=
  if word = 0 then if hasPrefix then some 0 else none
  else (claim ws ls (word - 1)).map fun previous => previous.2 + 1

/-- The labels between the claims around a single word; a gap of several words brackets none. -/
def bracketed (hasPrefix : Bool) (word : ℕ) : Option LabelRun :=
  match leftBracket ws ls hasPrefix word, claim ws ls (word + 1) with
  | some left, some (right, _) => if left < right then LabelRun.through left (right - 1) else none
  | _, _ => none

def residueAttribution (hasPrefix : Bool) (word : ℕ) : Option Attribution :=
  match claim ws ls word with
  | some (first, last) => (LabelRun.through first last).map fun run =>
      ⟨run, ⟨unmatchedWordChars ws ls word, ((ownedLabels ws ls word).map (unmatchedLabelChars ws ls)).sum⟩⟩
  | none => (bracketed ws ls hasPrefix word).map fun run =>
      ⟨run, ⟨unmatchedWordChars ws ls word,
        ((List.range' run.first (run.last + 1 - run.first)).map (unmatchedLabelChars ws ls)).sum⟩⟩

def remapResidue (hasPrefix : Bool) : Except UntimedReason (List (Option Attribution)) :=
  if ws.flatten.isEmpty ∨ ls.flatten.isEmpty then .ok (ws.map fun _ => none)
  else if ws.flatten.length > maxResidueAlignChars ∨ ls.flatten.length > maxResidueAlignChars then
    .error (.residueTooLongToAlign ws.flatten.length ls.flatten.length maxResidueAlignChars)
  else if ownersAreMonotone ((List.range ls.length).map (owner ws ls)) = false then .error .nonMonotoneAttribution
  else .ok ((List.range ws.length).map (residueAttribution ws ls hasPrefix))

end Residue

/-! ## Outcomes -/

def Attribution.shift (k : ℕ) (attribution : Attribution) : Attribution :=
  { attribution with run := ⟨attribution.run.first + k, attribution.run.last + k⟩ }

def attributions (words : List (List Char)) (labels : List Label) : List (Option Attribution) × UntimedReason :=
  let norms := labels.map Label.norm
  let stitched := stitchInOrder norms 0 words
  let spelled := stitched.1.map fun run => some ⟨run, CharEdits.zero⟩
  let ws := words.drop stitched.1.length
  let ls := norms.drop stitched.2
  if ws.isEmpty ∨ ls.isEmpty then (spelled ++ ws.map fun _ => none, .noLabelSpan)
  else
    match remapResidue ws ls (0 < stitched.1.length) with
    | .ok residue => (spelled ++ residue.map (Option.map (Attribution.shift stitched.2)), .noLabelSpan)
    | .error refusal => (spelled ++ ws.map fun _ => none, refusal)

def lastWordFallbackMs : ℕ := 500

section Outcomes
variable {R : Recording}

/-- `WordSpan::between`. -/
def spanBetween (startMs endMs : ℕ) (startOrigin endOrigin : Origin) : Except SpanFault WordTiming :=
  if startMs < endMs then .ok ⟨startMs, endMs, startOrigin, endOrigin⟩
  else if startMs = endMs then .error (.noExtent startMs)
  else .error (.inverted startMs endMs)

/-- From the run's first onset to the next, or to an assumed end inside the
window. -/
def spanFor (labels : List Label) (window : FaWindow R) (run : LabelRun) : Except SpanFault WordTiming :=
  let startMs := (labels[run.first]?.map Label.onset).getD 0
  match labels[run.last + 1]? with
  | some next => spanBetween startMs next.onset .engineMeasured .derivedFromNextOnset
  | none =>
    let proposed := startMs + lastWordFallbackMs
    let assumed := Origin.fallbackDuration lastWordFallbackMs
    if proposed > window.endMs then
      spanBetween startMs window.endMs .engineMeasured
        (.clampedToRequestEnd assumed proposed (proposed - window.endMs))
    else spanBetween startMs proposed .engineMeasured assumed

def attributed (edits : CharEdits) (origin : Origin) : Origin :=
  if edits.isExact then origin else .attributedByCharAlignment origin edits

def lowerToOutcome (labels : List Label) (window : FaWindow R) (unplaced : UntimedReason) :
    Option Attribution → WordTimingOutcome
  | none => .untimed unplaced
  | some attribution =>
    match spanFor labels window attribution.run with
    | .error fault => .untimed (.spanRefused fault)
    | .ok span =>
      if span.startMs < span.endMs then
        .timed ⟨span.startMs, span.endMs, attributed attribution.edits span.startOrigin,
          attributed attribution.edits span.endOrigin⟩ attribution.edits
      else .untimed .timingRefusedProvenSpan

def mapLabelsToWords (U : UnicodeTables) (original : List FaWord) (tokens : List FaRawToken) (window : FaWindow R) :
    List WordTimingOutcome :=
  match wordTrack U original with
  | .error reason => original.map fun _ => .untimed reason
  | .ok words =>
    let labels := labelTrack U tokens window
    if labels.isEmpty then original.map fun _ => .untimed .noUsableLabels
    else
      let placed := attributions words labels
      placed.1.map (lowerToOutcome labels window placed.2)

end Outcomes

end Batchalign.Fa
