import Batchalign.Fa.Refresh
import Batchalign.FaTiming.Origin

/- From the timings of an aligner to the words of a main tier (`fa/injection.rs`).

   A word that does not count for the tier takes no timing, a compound filler takes one for each
   of its parts and their envelope, any other word takes one. -/
namespace Batchalign.FaTiming
open Fa

/-! ## What a walk leaves alone -/

section Walk
variable {σ : Type} (f : σ → Word → σ × Word) (g : Word → Word)

mutual
theorem BracketedItem.mapLeaves_rewrite (h : ∀ s w, g (f s w).2 = g w) (s : σ) : ∀ item : BracketedItem,
    (item.rewrite f s).2.mapLeaves g = item.mapLeaves g
  | .word w => congrArg BracketedItem.word (h s w)
  | .annotatedWord w => congrArg BracketedItem.annotatedWord (h s w)
  | .replacedWord w replacement => congrArg (BracketedItem.replacedWord · replacement) (h s w)
  | .container kind items => congrArg (BracketedItem.container kind) (mapLeaves_rewriteBracketed h s items)
  | .internalBullet _ => rfl
  | .other _ => rfl

theorem mapLeaves_rewriteBracketed (h : ∀ s w, g (f s w).2 = g w) (s : σ) : ∀ items : List BracketedItem,
    mapBracketedLeaves g (rewriteBracketed f s items).2 = mapBracketedLeaves g items
  | [] => rfl
  | item :: items => congrArg₂ List.cons (BracketedItem.mapLeaves_rewrite h s item)
      (mapLeaves_rewriteBracketed h (item.rewrite f s).1 items)
end

theorem mapLeaves_rewriteContent (h : ∀ s w, g (f s w).2 = g w) (s : σ) (items : List UtteranceContent) :
    (rewriteContent f s items).2.map (UtteranceContent.mapLeaves g) = items.map (UtteranceContent.mapLeaves g) := by
  induction items generalizing s with
  | nil => rfl
  | cons item items ih =>
    have hitem : (item.rewrite f s).2.mapLeaves g = item.mapLeaves g := by
      cases item with
      | word w => exact congrArg UtteranceContent.word (h s w)
      | annotatedWord w => exact congrArg UtteranceContent.annotatedWord (h s w)
      | replacedWord w replacement => exact congrArg (UtteranceContent.replacedWord · replacement) (h s w)
      | container kind inner => exact congrArg (UtteranceContent.container kind) (mapLeaves_rewriteBracketed f g h s inner)
      | internalBullet bullet => rfl
      | other label => rfl
    exact congrArg₂ List.cons hitem (ih _)

end Walk

/-! ## Timings for words -/

inductive MergedScore where
  | complete (weightedMillionths durationMs : ℕ)
  | missing

def MergedScore.add (score : MergedScore) (timing : WordTiming) : MergedScore :=
  match score, timing.modelScore with
  | .complete weightedMillionths durationMs, some part =>
    .complete (weightedMillionths + part.millionths * timing.durationMs) (durationMs + timing.durationMs)
  | _, _ => .missing

def MergedScore.finish : MergedScore → Option ModelAlignmentScore
  | .complete weightedMillionths durationMs =>
    ModelAlignmentScore.fromWeightedMillionths weightedMillionths durationMs
  | .missing => none

structure TimingCursor where
  timings : List (Option WordTiming)
  pos : ℕ

/-- It advances past the end too. -/
def TimingCursor.take (cursor : TimingCursor) : Option WordTiming × TimingCursor :=
  ((cursor.timings[cursor.pos]?).join, { cursor with pos := cursor.pos + 1 })

structure MergedParts where
  minStart : Option ℕ
  maxEnd : Option ℕ
  merged : ℕ
  score : MergedScore

def MergedParts.none : MergedParts := ⟨Option.none, Option.none, 0, .complete 0 0⟩

def MergedParts.add (parts : MergedParts) : Option WordTiming → MergedParts
  | some t => ⟨some (min (parts.minStart.getD t.startMs) t.startMs), some (max (parts.maxEnd.getD t.endMs) t.endMs),
      parts.merged + 1, parts.score.add t⟩
  | Option.none => { parts with score := .missing }

def takeParts : ℕ → MergedParts → TimingCursor → MergedParts × TimingCursor
  | 0, parts, cursor => (parts, cursor)
  | n + 1, parts, cursor => takeParts n (parts.add cursor.take.1) cursor.take.2

def MergedParts.timing (parts : MergedParts) : Option WordTiming := do
  let startMs ← parts.minStart
  let endMs ← parts.maxEnd
  let timing ← WordTiming.new startMs endMs (.mergedFromParts parts.merged) (.mergedFromParts parts.merged)
  match parts.score.finish with
  | some score => some (timing.withModelScore score)
  | Option.none => some timing

section Domain
variable (D : WorDomain)

def projectTimingForWord (w : Word) (cursor : TimingCursor) : Option WordTiming × TimingCursor :=
  if !D.countsForTier w then (none, cursor)
  else
    let parts := (D.splitCompoundFiller w).length
    if parts ≤ 1 then cursor.take
    else ((takeParts parts .none cursor).1.timing, (takeParts parts .none cursor).2)

end Domain

end Batchalign.FaTiming
