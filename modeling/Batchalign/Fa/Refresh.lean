import Batchalign.Fa.Windows
import Batchalign.Fa.Utterance

/- Refresh of an utterance from its `%wor` tier (`fa/orchestrate.rs`, `fa/injection.rs`). What belongs
   to the document model is a field of `WorBinding`. -/
namespace Batchalign.Fa
open List

/-- The words an aligner is given do not depend on the timings written on them. -/
structure WorBinding where
  domain : WorDomain
  counts_timing_free : ∀ w timing, domain.countsForTier { w with inlineBullet := timing } = domain.countsForTier w
  parts_timing_free : ∀ w timing, domain.splitCompoundFiller { w with inlineBullet := timing } =
    domain.splitCompoundFiller w
  /-- `walk_words` under the `Wor` domain. -/
  walkWor : List UtteranceContent → List Word
  isFiller : Word → Bool
  /-- The timing of each slot, when counts and words correspond and every slot is timed. -/
  completeSlots : List UtteranceContent → List WorItem → Option (List TimeSpan)
  /-- `max_duration_ms as f64 / utterance_span_ms as f64 > 0.4`. -/
  overProportion : ℕ → ℕ → Bool
  /-- The main bullet is a provisional one (`BulletSource::Utr`). -/
  provisional : Utterance → Bool

/-! ## Words rewritten in order -/

section Walk
variable {σ : Type} (f : σ → Word → σ × Word)

/-- `f` along a list of words, with its state. -/
def rewriteWords : σ → List Word → σ × List Word
  | s, [] => (s, [])
  | s, w :: ws => ((rewriteWords (f s w).1 ws).1, (f s w).2 :: (rewriteWords (f s w).1 ws).2)

mutual
/-- `walk_words_mut` with a closure that has a state, under domain `None`. -/
def BracketedItem.rewrite : σ → BracketedItem → σ × BracketedItem
  | s, .word w => ((f s w).1, .word (f s w).2)
  | s, .annotatedWord w => ((f s w).1, .annotatedWord (f s w).2)
  | s, .replacedWord w replacement => ((f s w).1, .replacedWord (f s w).2 replacement)
  | s, .container kind items => ((rewriteBracketed s items).1, .container kind (rewriteBracketed s items).2)
  | s, .internalBullet bullet => (s, .internalBullet bullet)
  | s, .other label => (s, .other label)

def rewriteBracketed : σ → List BracketedItem → σ × List BracketedItem
  | s, [] => (s, [])
  | s, item :: items =>
    ((rewriteBracketed (item.rewrite s).1 items).1, (item.rewrite s).2 :: (rewriteBracketed (item.rewrite s).1 items).2)
end

def UtteranceContent.rewrite : σ → UtteranceContent → σ × UtteranceContent
  | s, .word w => ((f s w).1, .word (f s w).2)
  | s, .annotatedWord w => ((f s w).1, .annotatedWord (f s w).2)
  | s, .replacedWord w replacement => ((f s w).1, .replacedWord (f s w).2 replacement)
  | s, .container kind items => ((rewriteBracketed f s items).1, .container kind (rewriteBracketed f s items).2)
  | s, .internalBullet bullet => (s, .internalBullet bullet)
  | s, .other label => (s, .other label)

def rewriteContent : σ → List UtteranceContent → σ × List UtteranceContent
  | s, [] => (s, [])
  | s, item :: items =>
    ((rewriteContent (item.rewrite f s).1 items).1,
      (item.rewrite f s).2 :: (rewriteContent (item.rewrite f s).1 items).2)

theorem rewriteWords_append (s : σ) (ws vs : List Word) :
    rewriteWords f s (ws ++ vs) = ((rewriteWords f (rewriteWords f s ws).1 vs).1,
      (rewriteWords f s ws).2 ++ (rewriteWords f (rewriteWords f s ws).1 vs).2) := by
  induction ws generalizing s with
  | nil => rfl
  | cons w ws ih =>
    show ((rewriteWords f (f s w).1 (ws ++ vs)).1, (f s w).2 :: (rewriteWords f (f s w).1 (ws ++ vs)).2) = _
    rw [ih]
    rfl

mutual
theorem BracketedItem.leaves_rewrite (s : σ) : ∀ item : BracketedItem,
    ((item.rewrite f s).1, (item.rewrite f s).2.leaves) = rewriteWords f s item.leaves
  | .word _ => by simp only [BracketedItem.rewrite, BracketedItem.leaves, rewriteWords]
  | .annotatedWord _ => by simp only [BracketedItem.rewrite, BracketedItem.leaves, rewriteWords]
  | .replacedWord _ _ => by simp only [BracketedItem.rewrite, BracketedItem.leaves, rewriteWords]
  | .container _ items => by
    simp only [BracketedItem.rewrite, BracketedItem.leaves]
    exact leaves_rewriteBracketed s items
  | .internalBullet _ => by simp only [BracketedItem.rewrite, BracketedItem.leaves, rewriteWords]
  | .other _ => by simp only [BracketedItem.rewrite, BracketedItem.leaves, rewriteWords]

theorem leaves_rewriteBracketed (s : σ) : ∀ items : List BracketedItem,
    ((rewriteBracketed f s items).1, bracketedLeaves (rewriteBracketed f s items).2) =
      rewriteWords f s (bracketedLeaves items)
  | [] => by simp only [rewriteBracketed, bracketedLeaves, rewriteWords]
  | item :: items => by
    have hitem := BracketedItem.leaves_rewrite s item
    have hitems := leaves_rewriteBracketed (item.rewrite f s).1 items
    simp only [rewriteBracketed, bracketedLeaves]
    rw [rewriteWords_append, ← hitem, ← hitems]
end

theorem UtteranceContent.leaves_rewrite (s : σ) (item : UtteranceContent) :
    ((item.rewrite f s).1, (item.rewrite f s).2.leaves) = rewriteWords f s item.leaves := by
  cases item with
  | container kind items => exact leaves_rewriteBracketed f s items
  | word w => rfl
  | annotatedWord w => rfl
  | replacedWord w replacement => rfl
  | internalBullet bullet => rfl
  | other label => rfl

theorem wordLeaves_rewriteContent (s : σ) (items : List UtteranceContent) :
    ((rewriteContent f s items).1, wordLeaves (rewriteContent f s items).2) = rewriteWords f s (wordLeaves items) := by
  induction items generalizing s with
  | nil => rfl
  | cons item items ih =>
    have hitem := UtteranceContent.leaves_rewrite f s item
    have hitems := ih (item.rewrite f s).1
    have hcons : wordLeaves (item :: items) = item.leaves ++ wordLeaves items := flatMap_cons
    rw [hcons, rewriteWords_append, ← hitem, ← hitems]
    rfl

theorem map_rewriteWords {β : Type} (g : Word → β) (h : ∀ s w, g (f s w).2 = g w) (s : σ) (ws : List Word) :
    (rewriteWords f s ws).2.map g = ws.map g := by
  induction ws generalizing s with
  | nil => rfl
  | cons w ws ih =>
    show g (f s w).2 :: (rewriteWords f (f s w).1 ws).2.map g = g w :: ws.map g
    rw [h, ih]

end Walk

/-! ## Internal bullets -/

mutual
/-- One arm of `strip_internal_bullet_tokens_bracketed`. -/
def BracketedItem.stripBulletTokens : BracketedItem → BracketedItem
  | .container .annotatedGroup items => .container .annotatedGroup (stripBulletTokensBracketed items)
  | .container .phoGroup items => .container .phoGroup (stripBulletTokensBracketed items)
  | .container .sinGroup items => .container .sinGroup (stripBulletTokensBracketed items)
  | .container .quotation items => .container .quotation (stripBulletTokensBracketed items)
  | item => item

/-- `strip_internal_bullet_tokens_bracketed`: bullets at this depth go, and the arms above
go on. -/
def stripBulletTokensBracketed : List BracketedItem → List BracketedItem
  | [] => []
  | .internalBullet _ :: items => stripBulletTokensBracketed items
  | item :: items => item.stripBulletTokens :: stripBulletTokensBracketed items
end

def UtteranceContent.stripBulletTokens : UtteranceContent → UtteranceContent
  | .container .group items => .container .group (stripBulletTokensBracketed items)
  | .container .annotatedGroup items => .container .annotatedGroup (stripBulletTokensBracketed items)
  | item => item

def stripInternalBulletTokens (items : List UtteranceContent) : List UtteranceContent :=
  (items.filter fun item => !item.isInternalBullet).map UtteranceContent.stripBulletTokens

mutual
theorem BracketedItem.leaves_stripBulletTokens : ∀ item : BracketedItem, item.stripBulletTokens.leaves = item.leaves
  | .container .annotatedGroup items => by
    simp only [BracketedItem.stripBulletTokens, BracketedItem.leaves]
    exact leaves_stripBulletTokensBracketed items
  | .container .phoGroup items => by
    simp only [BracketedItem.stripBulletTokens, BracketedItem.leaves]
    exact leaves_stripBulletTokensBracketed items
  | .container .sinGroup items => by
    simp only [BracketedItem.stripBulletTokens, BracketedItem.leaves]
    exact leaves_stripBulletTokensBracketed items
  | .container .quotation items => by
    simp only [BracketedItem.stripBulletTokens, BracketedItem.leaves]
    exact leaves_stripBulletTokensBracketed items
  | .container .group _ => by simp only [BracketedItem.stripBulletTokens]
  | .container .annotatedQuotation _ => by simp only [BracketedItem.stripBulletTokens]
  | .container .retrace _ => by simp only [BracketedItem.stripBulletTokens]
  | .container .annotatedRetrace _ => by simp only [BracketedItem.stripBulletTokens]
  | .word _ => by simp only [BracketedItem.stripBulletTokens]
  | .annotatedWord _ => by simp only [BracketedItem.stripBulletTokens]
  | .replacedWord _ _ => by simp only [BracketedItem.stripBulletTokens]
  | .internalBullet _ => by simp only [BracketedItem.stripBulletTokens]
  | .other _ => by simp only [BracketedItem.stripBulletTokens]

theorem leaves_stripBulletTokensBracketed : ∀ items : List BracketedItem,
    bracketedLeaves (stripBulletTokensBracketed items) = bracketedLeaves items
  | [] => by simp only [stripBulletTokensBracketed]
  | .internalBullet _ :: items => by
    simp only [stripBulletTokensBracketed, bracketedLeaves, BracketedItem.leaves, nil_append]
    exact leaves_stripBulletTokensBracketed items
  | .word _ :: items => by
    simp only [stripBulletTokensBracketed, bracketedLeaves]
    rw [BracketedItem.leaves_stripBulletTokens, leaves_stripBulletTokensBracketed items]
  | .annotatedWord _ :: items => by
    simp only [stripBulletTokensBracketed, bracketedLeaves]
    rw [BracketedItem.leaves_stripBulletTokens, leaves_stripBulletTokensBracketed items]
  | .replacedWord _ _ :: items => by
    simp only [stripBulletTokensBracketed, bracketedLeaves]
    rw [BracketedItem.leaves_stripBulletTokens, leaves_stripBulletTokensBracketed items]
  | .container kind inner :: items => by
    simp only [stripBulletTokensBracketed, bracketedLeaves]
    rw [BracketedItem.leaves_stripBulletTokens (.container kind inner), leaves_stripBulletTokensBracketed items]
  | .other _ :: items => by
    simp only [stripBulletTokensBracketed, bracketedLeaves]
    rw [BracketedItem.leaves_stripBulletTokens, leaves_stripBulletTokensBracketed items]
end

theorem UtteranceContent.leaves_stripBulletTokens (item : UtteranceContent) :
    item.stripBulletTokens.leaves = item.leaves := by
  unfold UtteranceContent.stripBulletTokens
  split
  · exact leaves_stripBulletTokensBracketed _
  · exact leaves_stripBulletTokensBracketed _
  · rfl

theorem wordLeaves_stripInternalBulletTokens (items : List UtteranceContent) :
    wordLeaves (stripInternalBulletTokens items) = wordLeaves items := by
  unfold stripInternalBulletTokens
  induction items with
  | nil => rfl
  | cons item items ih =>
    have hcons : wordLeaves (item :: items) = item.leaves ++ wordLeaves items := flatMap_cons
    rw [hcons, filter_cons]
    split
    · rw [map_cons]
      have hhead : wordLeaves (item.stripBulletTokens ::
          (items.filter fun item => !item.isInternalBullet).map UtteranceContent.stripBulletTokens) =
          item.stripBulletTokens.leaves ++ wordLeaves
            ((items.filter fun item => !item.isInternalBullet).map UtteranceContent.stripBulletTokens) :=
        flatMap_cons
      rw [hhead, item.leaves_stripBulletTokens, ih]
    · next hbullet =>
      rw [ih]
      cases item with
      | internalBullet bullet => rfl
      | word w => exact absurd rfl hbullet
      | annotatedWord w => exact absurd rfl hbullet
      | replacedWord w replacement => exact absurd rfl hbullet
      | container kind inner => exact absurd rfl hbullet
      | other label => exact absurd rfl hbullet

/-! ## The refresh -/

variable (B : WorBinding)

/-- `project_timing_for_word`: an uncounted word takes none, a compound filler one a part. -/
def projectTimingForWord (cursor : List TimeSpan) (w : Word) : List TimeSpan × Option TimeSpan :=
  if B.domain.countsForTier w then
    let parts := (B.domain.splitCompoundFiller w).length
    if parts ≤ 1 then (cursor.drop 1, cursor.head?)
    else
      let taken := cursor.take parts
      (cursor.drop parts,
        match (taken.map TimeSpan.startMs).min?, (taken.map TimeSpan.endMs).max? with
        | some startMs, some endMs => if startMs < endMs then some ⟨startMs, endMs⟩ else none
        | _, _ => none)
  else (cursor, none)

/-- `inject_timing_on_word`: a word the projection gives nothing keeps what it has. -/
def injectTimingOnWord (cursor : List TimeSpan) (w : Word) : List TimeSpan × Word :=
  match projectTimingForWord B cursor w with
  | (rest, some timing) => (rest, { w with inlineBullet := some timing })
  | (rest, none) => (rest, w)

def hasUntimedLeadingFillerCoverage (content : List UtteranceContent) : Bool :=
  ((B.walkWor content).takeWhile fun w => (getWordTiming w).isNone).any B.isFiller

def maxAuthoritativeStartLeadMs : ℕ := 2000

/-- The span the main bullet gets under `ExistingWorBoundaryPolicy::Preserve`. -/
def preservedSpan (u : Utterance) (wordStart wordEnd : ℕ) : TimeSpan :=
  match u.parsedBullet with
  | none => ⟨wordStart, wordEnd⟩
  | some existing =>
    if B.provisional u then ⟨wordStart, wordEnd⟩
    else
      let startLeadMs := wordStart - existing.startMs
      let finalStart :=
        if u.worTier.isNone ∨ hasUntimedLeadingFillerCoverage B u.content ∨
            startLeadMs ≤ maxAuthoritativeStartLeadMs then min wordStart existing.startMs
        else wordStart
      ⟨finalStart, max wordEnd existing.endMs⟩

/-- `update_utterance_bullet_with_boundary_policy` under `Preserve`. -/
def updateUtteranceBullet (u : Utterance) : Utterance :=
  let spans := timings (wordLeaves u.content)
  let updated :=
    match (spans.map TimeSpan.startMs).min?, (spans.map TimeSpan.endMs).max? with
    | some wordStart, some wordEnd => { u with bullet := some (.parsed (preservedSpan B u wordStart wordEnd)) }
    | _, _ => u
  match updated.parsedBullet with
  | some existing => if existing.startMs ≥ existing.endMs then { updated with bullet := none } else updated
  | none => updated

def minReusableWorWordDurationMs : ℕ := 40

def minWordsForDominanceCheck : ℕ := 3

def collectWorBackedTimings (u : Utterance) : Option (List TimeSpan) := do
  let wor ← u.worTier
  let slots ← B.completeSlots u.content wor
  if slots.any fun span => span.endMs - span.startMs < minReusableWorWordDurationMs then none
  else if minWordsForDominanceCheck ≤ slots.length then do
    let lastEnd ← (slots.map TimeSpan.endMs).max?
    let firstStart ← (slots.map TimeSpan.startMs).min?
    let utteranceSpanMs := lastEnd - firstStart
    let maxDurationMs := ((slots.map fun span => span.endMs - span.startMs).max?).getD 0
    if 0 < utteranceSpanMs ∧ B.overProportion maxDurationMs utteranceSpanMs then none else some slots
  else some slots

/-- `refresh_existing_alignment_for_utterance`; `none` is its `false`, which leaves the
utterance as it is. -/
def refreshExistingAlignment (u : Utterance) : Option Utterance :=
  (collectWorBackedTimings B u).map fun slots =>
    updateUtteranceBullet B
      { u with content := (rewriteContent (injectTimingOnWord B) slots (stripInternalBulletTokens u.content)).2 }

def faWords (u : Utterance) : List String :=
  ((wordLeaves u.content).filter B.domain.countsForTier).flatMap B.domain.splitCompoundFiller

theorem flatMap_timing_free (ws : List Word) :
    (ws.filter B.domain.countsForTier).flatMap B.domain.splitCompoundFiller =
      ((ws.map Word.untimed).filter B.domain.countsForTier).flatMap B.domain.splitCompoundFiller := by
  induction ws with
  | nil => rfl
  | cons w ws ih =>
    have hcounts : B.domain.countsForTier w.untimed = B.domain.countsForTier w := B.counts_timing_free w none
    have hparts : B.domain.splitCompoundFiller w.untimed = B.domain.splitCompoundFiller w :=
      B.parts_timing_free w none
    rw [map_cons, filter_cons, filter_cons, hcounts]
    split
    · rw [flatMap_cons, flatMap_cons, hparts, ih]
    · exact ih

theorem untimed_injectTimingOnWord (cursor : List TimeSpan) (w : Word) :
    (injectTimingOnWord B cursor w).2.untimed = w.untimed := by
  unfold injectTimingOnWord
  split <;> rfl

theorem content_updateUtteranceBullet (u : Utterance) : (updateUtteranceBullet B u).content = u.content := by
  unfold updateUtteranceBullet
  simp only
  split <;> split <;> try split
  all_goals rfl

theorem faWords_refresh {u v : Utterance} (h : refreshExistingAlignment B u = some v) : faWords B v = faWords B u := by
  obtain ⟨slots, -, hv⟩ := Option.map_eq_some_iff.mp h
  subst hv
  have hleaves := congrArg Prod.snd
    (wordLeaves_rewriteContent (injectTimingOnWord B) slots (stripInternalBulletTokens u.content))
  unfold faWords
  rw [content_updateUtteranceBullet]
  simp only at hleaves ⊢
  rw [hleaves, wordLeaves_stripInternalBulletTokens, flatMap_timing_free,
    map_rewriteWords (injectTimingOnWord B) Word.untimed (untimed_injectTimingOnWord B), ← flatMap_timing_free]

end Batchalign.Fa
