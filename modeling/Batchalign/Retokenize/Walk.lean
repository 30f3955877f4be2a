import Batchalign.Retokenize.Rebuild

/- The walk of the rebuild as a list of stops. Nesting matters only through the order in which words and
   boundaries are met: the state after the rebuild and the words of the tier are those of `visitAll`
   over `stops` (`rebuildContent_visits`, `rebuildContent_toItem`). -/
namespace Batchalign.Retokenize
open List

def UtteranceContent.toItem : UtteranceContent → BracketedItem
  | .word w => .word w
  | .annotatedWord inner annotations => .annotatedWord inner annotations
  | .replacedWord replaced => .replacedWord replaced
  | .container kind items => .container kind items
  | .annotatedContainer kind items annotations => .annotatedContainer kind items annotations
  | .separator mark => .separator mark
  | .other kind text => .other kind text

/-- What the walk meets: a boundary, a plain word, one expanded in place, a tag separator, a replacement
  without words. -/
inductive Stop where
  | boundary
  | plainWord (word : Word)
  | scopedWord (word : Word)
  | separator
  | noReplacement
  deriving DecidableEq

section Read
variable (X : Chatter)

/-- The words the `%mor` tier counts. -/
def countedWords (words : List Word) : List Word := words.filter (shouldRetokenize X)

mutual

/-- The words the `%mor` tier reads in an item; of a replaced word, the replacement. -/
def spokenInItem : BracketedItem → List Word
  | .word word => countedWords X [word]
  | .annotatedWord inner annotations =>
    if excludedFromMor X annotations then [] else countedWords X [inner]
  | .replacedWord replaced =>
    if excludedFromMor X replaced.scopedAnnotations then [] else countedWords X replaced.replacement
  | .container _ items => spokenInItems items
  | .annotatedContainer _ items annotations =>
    if excludedFromMor X annotations then [] else spokenInItems items
  | .separator _ => []
  | .other _ _ => []

def spokenInItems : List BracketedItem → List Word
  | [] => []
  | item :: items => spokenInItem item ++ spokenInItems items

end

def spoken (content : List UtteranceContent) : List Word :=
  spokenInItems X (content.map UtteranceContent.toItem)

def replacementStops (words : List Word) : List Stop :=
  if words.isEmpty then [.noReplacement] else words.map .scopedWord

mutual

def stopsInItem : BracketedItem → List Stop
  | .word word => if shouldRetokenize X word then [.plainWord word] else [.boundary]
  | .annotatedWord inner annotations =>
    .boundary :: if excludedFromMor X annotations then [] else [.scopedWord inner]
  | .replacedWord replaced =>
    .boundary :: if excludedFromMor X replaced.scopedAnnotations then []
      else replacementStops replaced.replacement
  | .container _ items => .boundary :: (stopsInItems items ++ [.boundary])
  | .annotatedContainer _ items annotations =>
    .boundary :: if excludedFromMor X annotations then [] else stopsInItems items ++ [.boundary]
  | .separator separator =>
    .boundary :: if X.isTagMarkerSeparator separator then [.separator] else []
  | .other _ _ => [.boundary]

def stopsInItems : List BracketedItem → List Stop
  | [] => []
  | item :: items => stopsInItem item ++ stopsInItems items

end

def stops (content : List UtteranceContent) : List Stop :=
  stopsInItems X (content.map UtteranceContent.toItem)

theorem countedWords_append (l l' : List Word) :
    countedWords X (l ++ l') = countedWords X l ++ countedWords X l' := filter_append ..

theorem spokenInItems_append (l l' : List BracketedItem) :
    spokenInItems X (l ++ l') = spokenInItems X l ++ spokenInItems X l' := by
  induction l with
  | nil => rfl
  | cons item l ih => rw [cons_append, spokenInItems, spokenInItems, ih, append_assoc]

theorem spokenInItems_singleton (item : BracketedItem) :
    spokenInItems X [item] = spokenInItem X item := append_nil _

theorem spokenInItems_words (words : List Word) :
    spokenInItems X (words.map .word) = countedWords X words := by
  induction words with
  | nil => rfl
  | cons word words ih =>
    rw [map_cons, spokenInItems, ih, spokenInItem, ← countedWords_append]
    rfl

end Read

/-! ## The utterance's walk is the bracketed walk -/

section Walk
variable (ctx : RetokenizeContext)

theorem rebuildItem_toItem (item : UtteranceContent) (s : RebuildState) :
    rebuildBracketedItem ctx item.toItem s =
      ((rebuildItem ctx item s).1.map UtteranceContent.toItem, (rebuildItem ctx item s).2) := by
  cases item with
  | word word =>
    simp only [rebuildItem, UtteranceContent.toItem, rebuildBracketedItem,
      BracketedItem.isRetokenized, UtteranceContent.isRetokenized]
    split_ifs
    · simp only [handleBracketedWordRetokenize, handleWordRetokenize, map_map]
      refine Prod.ext (map_congr_left fun written _ => ?_) rfl
      cases written <;> rfl
    · rfl
  | annotatedWord inner annotations =>
    simp only [rebuildItem, UtteranceContent.toItem, rebuildBracketedItem,
      BracketedItem.isRetokenized, UtteranceContent.isRetokenized]
    have hwrap : ∀ rebuilt : RebuiltScopedWord,
        rebuilt.toUtteranceContent.toItem = rebuilt.toBracketedItem := by
      intro rebuilt
      cases rebuilt <;> rfl
    simp only [map_singleton, hwrap]
    rfl
  | replacedWord replaced => rfl
  | container kind items => rfl
  | annotatedContainer kind items annotations =>
    simp only [rebuildItem, UtteranceContent.toItem, rebuildBracketedItem,
      BracketedItem.isRetokenized, UtteranceContent.isRetokenized]
    split_ifs <;> rfl
  | separator separator => rfl
  | other kind text => rfl

theorem rebuildContent_toItem (content : List UtteranceContent) (s : RebuildState) :
    rebuildBracketedContent ctx (content.map UtteranceContent.toItem) s =
      ((rebuildContent ctx content s).1.map UtteranceContent.toItem,
        (rebuildContent ctx content s).2) := by
  induction content generalizing s with
  | nil => rfl
  | cons item content ih =>
    simp [rebuildBracketedContent, rebuildContent, rebuildItem_toItem, ih]

/-! ## Visits -/

def Written.spoken (X : Chatter) : Written → List Word
  | .word w => countedWords X [w]
  | .separator _ => []

def Stop.visit : Stop → RebuildState → List Word × RebuildState
  | .boundary, s => ([], atBoundary ctx s)
  | .plainWord word, s =>
    ((handleWord ctx word s).1.flatMap (Written.spoken ctx.chatter), (handleWord ctx word s).2)
  | .scopedWord word, s =>
    (countedWords ctx.chatter (expandWord ctx word s).1.toList, (expandWord ctx word s).2)
  | .separator, s => ([], s.nextWord)
  | .noReplacement, s => ([], s.report .replacementWithoutWords)

def visitAll : List Stop → RebuildState → List Word × RebuildState
  | [], s => ([], s)
  | stop :: stops, s =>
    let now := stop.visit ctx s
    let later := visitAll stops now.2
    (now.1 ++ later.1, later.2)

variable {ctx} {s : RebuildState}

theorem visitAll_cons (stop : Stop) (l : List Stop) (s : RebuildState) :
    visitAll ctx (stop :: l) s = ((stop.visit ctx s).1 ++ (visitAll ctx l (stop.visit ctx s).2).1,
      (visitAll ctx l (stop.visit ctx s).2).2) := rfl

theorem visitAll_append (l l' : List Stop) (s : RebuildState) :
    visitAll ctx (l ++ l') s = ((visitAll ctx l s).1 ++ (visitAll ctx l' (visitAll ctx l s).2).1,
      (visitAll ctx l' (visitAll ctx l s).2).2) := by
  induction l generalizing s with
  | nil => rfl
  | cons stop l ih =>
    rw [cons_append, visitAll_cons, ih, visitAll_cons]
    simp

theorem visitAll_singleton (stop : Stop) (s : RebuildState) :
    visitAll ctx [stop] s = stop.visit ctx s := by
  simp [visitAll]

def Reads (ctx : RetokenizeContext) (rebuilt : List BracketedItem × RebuildState) (stops : List Stop)
    (s : RebuildState) : Prop :=
  (spokenInItems ctx.chatter rebuilt.1, rebuilt.2) = visitAll ctx stops s

theorem Reads.nil (s : RebuildState) : Reads ctx ([], s) [] s := rfl

theorem Reads.append {first later : List BracketedItem × RebuildState} {l l' : List Stop}
    (h : Reads ctx first l s) (h' : Reads ctx later l' first.2) :
    Reads ctx (first.1 ++ later.1, later.2) (l ++ l') s := by
  rw [Reads] at h h' ⊢
  rw [visitAll_append, ← h, ← h', spokenInItems_append]

theorem Reads.boundary {rebuilt : List BracketedItem × RebuildState} {l : List Stop}
    (h : Reads ctx rebuilt l (atBoundary ctx s)) : Reads ctx rebuilt (.boundary :: l) s := by
  exact h

theorem reads_word (word : Word) (s : RebuildState) :
    Reads ctx (handleBracketedWordRetokenize ctx word s) [.plainWord word] s := by
  rw [Reads, visitAll_singleton, handleBracketedWordRetokenize, Stop.visit]
  refine Prod.ext ?_ rfl
  show spokenInItems ctx.chatter ((handleWord ctx word s).1.map Written.toBracketedItem) = _
  induction (handleWord ctx word s).1 with
  | nil => rfl
  | cons written l ih =>
    rw [map_cons, spokenInItems, ih, flatMap_cons]
    cases written <;> rfl

theorem reads_annotatedWord (inner : Word) (annotations : List ContentAnnotation) (s : RebuildState) :
    Reads ctx ([(rebuildAnnotatedWord ctx inner annotations s).1.toBracketedItem],
        (rebuildAnnotatedWord ctx inner annotations s).2)
      (if excludedFromMor ctx.chatter annotations then [] else [.scopedWord inner]) s := by
  rw [Reads, rebuildAnnotatedWord, spokenInItems_singleton]
  by_cases hex : excludedFromMor ctx.chatter annotations
  · simp only [RebuiltScopedWord.toBracketedItem, spokenInItem, if_pos hex]
    rfl
  · rw [if_neg hex, if_neg hex, visitAll_singleton, Stop.visit]
    simp only
    split_ifs with hone
    · have hlist : (expandWord ctx inner s).1.toList = [(expandWord ctx inner s).1.first] := by
        rw [ExpandedWords.toList, List.isEmpty_iff.mp hone]
      simp only [RebuiltScopedWord.toBracketedItem, spokenInItem, if_neg hex, hlist]
    · simp only [RebuiltScopedWord.toBracketedItem, spokenInItem, if_neg hex, spokenInItems_words]

theorem expandWords_visits (words : List Word) (s : RebuildState) :
    (countedWords ctx.chatter (expandWords ctx words s).1, (expandWords ctx words s).2) =
      visitAll ctx (words.map .scopedWord) s := by
  induction words generalizing s with
  | nil => rfl
  | cons word words ih =>
    rw [map_cons, visitAll_cons, Stop.visit, ← ih, expandWords]
    simp only [countedWords_append]

theorem reads_replacedWord (replaced : ReplacedWord) (s : RebuildState) :
    Reads ctx ([.replacedWord (rebuildReplacedWord ctx replaced s).1],
        (rebuildReplacedWord ctx replaced s).2)
      (if excludedFromMor ctx.chatter replaced.scopedAnnotations then []
        else replacementStops replaced.replacement) s := by
  rw [Reads, rebuildReplacedWord, spokenInItems_singleton, spokenInItem]
  by_cases hex : excludedFromMor ctx.chatter replaced.scopedAnnotations
  · simp only [if_pos hex]
    rfl
  · rw [replacementStops]
    split_ifs with hempty
    · rw [visitAll_singleton, Stop.visit, List.isEmpty_iff.mp hempty]
      rfl
    · rw [← expandWords_visits]

theorem Reads.closed {nested : List BracketedItem × RebuildState} {l : List Stop}
    {item : BracketedItem} (h : Reads ctx nested l s)
    (hitem : spokenInItem ctx.chatter item = spokenInItems ctx.chatter nested.1) :
    Reads ctx ([item], atBoundary ctx nested.2) (l ++ [.boundary]) s := by
  rw [Reads] at h ⊢
  rw [visitAll_append, ← h, visitAll_singleton, spokenInItems_singleton, hitem, Stop.visit,
    append_nil]

theorem reads_silent {item : BracketedItem} (h : spokenInItem ctx.chatter item = [])
    (s : RebuildState) : Reads ctx ([item], s) [] s := by
  rw [Reads, spokenInItems_singleton, h]
  rfl

variable (ctx)

mutual

theorem rebuildBracketedItem_reads (item : BracketedItem) (s : RebuildState) :
    Reads ctx (rebuildBracketedItem ctx item s) (stopsInItem ctx.chatter item) s :=
  match item with
  | .word word => by
    rw [rebuildBracketedItem, stopsInItem]
    by_cases hplain : shouldRetokenize ctx.chatter word
    · have hstay : (if (BracketedItem.word word).isRetokenized ctx.chatter then s
          else atBoundary ctx s) = s := if_pos hplain
      simp only [hstay, if_pos hplain]
      exact reads_word word s
    · have hcross : (if (BracketedItem.word word).isRetokenized ctx.chatter then s
          else atBoundary ctx s) = atBoundary ctx s := if_neg hplain
      simp only [hcross, if_neg hplain]
      refine (reads_silent ?_ _).boundary
      rw [spokenInItem, countedWords, filter_cons_of_neg hplain, filter_nil]
  | .annotatedWord inner annotations => by
    rw [rebuildBracketedItem, stopsInItem]
    exact (reads_annotatedWord inner annotations _).boundary
  | .replacedWord replaced => by
    rw [rebuildBracketedItem, stopsInItem]
    exact (reads_replacedWord replaced _).boundary
  | .container kind items => by
    rw [rebuildBracketedItem, stopsInItem]
    refine Reads.boundary ((rebuildBracketedContent_reads items _).closed ?_)
    rw [spokenInItem]
  | .annotatedContainer kind items annotations => by
    rw [rebuildBracketedItem, stopsInItem]
    by_cases hex : excludedFromMor ctx.chatter annotations
    · simp only [if_pos hex]
      exact (reads_silent (by rw [spokenInItem, if_pos hex]) _).boundary
    · simp only [if_neg hex]
      refine Reads.boundary ((rebuildBracketedContent_reads items _).closed ?_)
      rw [spokenInItem, if_neg hex]
  | .separator separator => by
    rw [rebuildBracketedItem, stopsInItem]
    refine Reads.boundary ?_
    by_cases htag : ctx.chatter.isTagMarkerSeparator separator
    · simp only [if_pos htag]
      rfl
    · simp only [if_neg htag]
      exact reads_silent (by rw [spokenInItem]) _
  | .other kind text => by
    rw [rebuildBracketedItem, stopsInItem]
    exact (reads_silent (by rw [spokenInItem]) _).boundary

theorem rebuildBracketedContent_reads (items : List BracketedItem) (s : RebuildState) :
    Reads ctx (rebuildBracketedContent ctx items s) (stopsInItems ctx.chatter items) s :=
  match items with
  | [] => Reads.nil s
  | item :: items =>
    (rebuildBracketedItem_reads item s).append (rebuildBracketedContent_reads items _)

end

theorem rebuildContent_visits (content : List UtteranceContent) (s : RebuildState) :
    (spoken ctx.chatter (rebuildContent ctx content s).1, (rebuildContent ctx content s).2) =
      visitAll ctx (stops ctx.chatter content) s := by
  have h := rebuildBracketedContent_reads ctx (content.map UtteranceContent.toItem) s
  rw [rebuildContent_toItem] at h
  exact h

end Walk

/-! ## What a step does to the state -/

/-- `s'` comes after `s` with `n` more words passed; what it reported is no crossing. -/
structure Passes (n : ℕ) (s s' : RebuildState) : Prop where
  counter : s'.wordCounter = s.wordCounter + n
  reported : ∃ new, s'.diagnostics = s.diagnostics ++ new ∧
    ∀ token first, RebuildRefusal.mergeCrossesContent token first ∉ new

variable {ctx : RetokenizeContext} {s s' s'' : RebuildState} {n k : ℕ}

namespace Passes

theorem refl (s : RebuildState) : Passes 0 s s := ⟨rfl, [], by simp, by simp⟩

theorem trans (h : Passes n s s') (h' : Passes k s' s'') : Passes (n + k) s s'' := by
  obtain ⟨new, hnew, hnone⟩ := h.reported
  obtain ⟨new', hnew', hnone'⟩ := h'.reported
  refine ⟨by rw [h'.counter, h.counter, add_assoc], new ++ new', ?_, ?_⟩
  · rw [hnew', hnew, append_assoc]
  · intro token first hmem
    rcases mem_append.mp hmem with hmem | hmem
    · exact hnone token first hmem
    · exact hnone' token first hmem

theorem of_eq (hcounter : s'.wordCounter = s.wordCounter)
    (hdiagnostics : s'.diagnostics = s.diagnostics) : Passes 0 s s' :=
  ⟨hcounter, [], by rw [hdiagnostics, append_nil], by simp⟩

section
variable (s : RebuildState)

theorem emit (token : ℕ) : Passes 0 s (s.emit token) := of_eq rfl rfl

theorem commit (tokens : List ℕ) : Passes 0 s (s.commit tokens) := of_eq rfl rfl

theorem passMor (mors : ℕ) : Passes 0 s (s.passMor mors) := by
  rw [RebuildState.passMor]
  split_ifs
  · exact of_eq rfl rfl
  · exact refl s

theorem nextWord : Passes 1 s s.nextWord :=
  ⟨rfl, [], by simp [RebuildState.nextWord], by simp⟩

theorem report {refusal : RebuildRefusal}
    (h : ∀ token first, refusal ≠ .mergeCrossesContent token first) : Passes 0 s (s.report refusal) := by
  refine ⟨rfl, [refusal], rfl, ?_⟩
  intro token first hmem
  exact h token first (mem_singleton.mp hmem).symm

theorem emitAll (tokens : List ℕ) : Passes 0 s (tokens.foldl RebuildState.emit s) := by
  induction tokens generalizing s with
  | nil => exact refl s
  | cons token tokens ih => exact (emit s token).trans (ih _)

end

end Passes

section
variable (ctx)

theorem tryParseTokenAsWord_passes (text : List Char) (s : RebuildState) :
    Passes 0 s (tryParseTokenAsWord ctx text s).2 := by
  rw [tryParseTokenAsWord]
  split
  · exact .refl s
  · exact .report s (by simp)

theorem handleEndingPunctSkip_passes (text : List Char) (s : RebuildState) :
    Passes 0 s (handleEndingPunctSkip ctx text s).2 := by
  rw [handleEndingPunctSkip]
  split_ifs
  · split
    · exact .refl s
    · split_ifs
      · exact .refl s
      · exact .report s (by simp)
  · exact .refl s

theorem tryParseToken_passes (text : List Char) (s : RebuildState) :
    Passes 0 s (tryParseToken ctx text s).2 := by
  rw [tryParseToken]
  split
  · exact .refl s
  · have hskip := handleEndingPunctSkip_passes ctx text s
    simp only
    split_ifs
    · exact hskip
    · exact hskip.trans (tryParseTokenAsWord_passes ctx text _)

section
variable (word : Word)

theorem writeTokens_passes (origIdx : ℕ) (indices tokens : List ℕ)
    (s : RebuildState) : Passes 0 s (writeTokens ctx word origIdx indices tokens s).2 := by
  induction tokens generalizing s with
  | nil => exact .refl s
  | cons ti rest ih =>
    rw [writeTokens]
    simp only
    split_ifs
    · exact .emit s ti
    · have hparsed := (Passes.emit s ti).trans (tryParseToken_passes ctx
        (resolveTokenText ((ctx.stanzaTokens[ti]?).getD []) origIdx ctx.originalWords) _)
      split
      · exact hparsed.trans (ih _)
      · exact hparsed.trans (.emitAll _ _)

theorem handleWord_passes (s : RebuildState) : Passes 1 s (handleWord ctx word s).2 := by
  rw [handleWord]
  have hnext := Passes.nextWord s
  split
  · exact (hnext.trans (.report _ (by simp))).trans (.passMor _ _)
  · split_ifs
    · exact hnext.trans (.passMor _ _)
    · exact hnext
    · exact hnext.trans (writeTokens_passes ..)

theorem expandTokens_passes (originalIndex : ℕ) (single : Bool) (tokens : List ℕ)
    (s : RebuildState) : Passes 0 s (expandTokens ctx word originalIndex single tokens s).2 := by
  induction tokens generalizing s with
  | nil => exact .refl s
  | cons index rest ih =>
    rw [expandTokens]
    split
    · exact .refl s
    · next token _ =>
      simp only
      split_ifs
      · exact ih s
      · exact .refl s
      · have hparsed := tryParseTokenAsWord_passes ctx
          (resolveTokenText token originalIndex ctx.originalWords) s
        split
        · exact hparsed
        · exact hparsed.trans (ih _)

theorem admitExpansion_passes (s : RebuildState) : Passes 1 s (admitExpansion ctx word s).2 := by
  rw [admitExpansion]
  have hnext := Passes.nextWord s
  simp only
  split
  · exact hnext
  · next indices _ =>
    split
    · exact hnext
    · split_ifs
      · exact hnext
      · split
        · exact hnext
        · have hexpanded := hnext.trans (expandTokens_passes ctx word s.wordCounter
            (indices.length == 1) indices s.nextWord)
          split <;> exact hexpanded

theorem expandWord_passes (s : RebuildState) :
    Passes (if shouldRetokenize ctx.chatter word then 1 else 0) s (expandWord ctx word s).2 := by
  rw [expandWord]
  split_ifs
  · have hadmitted := admitExpansion_passes ctx word s
    simp only
    split
    · exact hadmitted.trans (.commit _ _)
    · exact hadmitted.trans (.report _ (by simp))
  · exact .refl s

end

end

def Stop.advance (X : Chatter) : Stop → ℕ
  | .boundary => 0
  | .plainWord _ => 1
  | .scopedWord word => if shouldRetokenize X word then 1 else 0
  | .separator => 1
  | .noReplacement => 0

theorem atBoundary_wordCounter (s : RebuildState) : (atBoundary ctx s).wordCounter = s.wordCounter := by
  rw [atBoundary]
  split
  · rfl
  · simp only
    split_ifs <;> rfl

theorem Stop.visit_passes {stop : Stop} (h : stop ≠ .boundary) (s : RebuildState) :
    Passes (stop.advance ctx.chatter) s (stop.visit ctx s).2 := by
  cases stop with
  | boundary => exact absurd rfl h
  | plainWord word => exact handleWord_passes ctx word s
  | scopedWord word => exact expandWord_passes ctx word s
  | separator => exact .nextWord s
  | noReplacement => exact .report s (by simp)

theorem Stop.visit_wordCounter (stop : Stop) (s : RebuildState) :
    (stop.visit ctx s).2.wordCounter = s.wordCounter + stop.advance ctx.chatter := by
  by_cases h : stop = .boundary
  · rw [h]
    exact atBoundary_wordCounter s
  · exact (stop.visit_passes h s).counter

theorem visitAll_wordCounter (l : List Stop) (s : RebuildState) : (visitAll ctx l s).2.wordCounter =
      s.wordCounter + (l.map (Stop.advance ctx.chatter)).sum := by
  induction l generalizing s with
  | nil => rfl
  | cons stop l ih =>
    rw [visitAll_cons, ih, stop.visit_wordCounter, map_cons, sum_cons, add_assoc]

end Batchalign.Retokenize
