import Mathlib.Data.List.Basic

/- Main-tier content and the removal of its timing (`fa/orchestrate.rs`). The types are those of the
   `talkbank-model` crate as `retokenize/runs.rs` matches them; its walker is `ContentWalker`, which
   visits a replaced word at its original. -/
namespace Batchalign.Fa
open List

structure TimeSpan where
  startMs : ℕ
  endMs : ℕ
  deriving DecidableEq

structure Word where
  text : String
  inlineBullet : Option TimeSpan
  deriving DecidableEq

def getWordTiming (word : Word) : Option TimeSpan := word.inlineBullet

def Word.untimed (word : Word) : Word := { word with inlineBullet := none }

inductive ContainerKind where
  | group
  | annotatedGroup
  | phoGroup
  | sinGroup
  | quotation
  | annotatedQuotation
  | retrace
  | annotatedRetrace

inductive BracketedItem where
  | word (word : Word)
  | annotatedWord (inner : Word)
  | replacedWord (word : Word) (replacement : List Word)
  | container (kind : ContainerKind) (items : List BracketedItem)
  | internalBullet (bullet : TimeSpan)
  | other (label : String)

inductive UtteranceContent where
  | word (word : Word)
  | annotatedWord (inner : Word)
  | replacedWord (word : Word) (replacement : List Word)
  | container (kind : ContainerKind) (items : List BracketedItem)
  | internalBullet (bullet : TimeSpan)
  | other (label : String)

/-! ## Every word and every internal bullet -/

mutual
def BracketedItem.leaves : BracketedItem → List Word
  | .word w => [w]
  | .annotatedWord w => [w]
  | .replacedWord w _ => [w]
  | .container _ items => bracketedLeaves items
  | .internalBullet _ => []
  | .other _ => []

def bracketedLeaves : List BracketedItem → List Word
  | [] => []
  | item :: items => item.leaves ++ bracketedLeaves items
end

mutual
def BracketedItem.bullets : BracketedItem → List TimeSpan
  | .internalBullet bullet => [bullet]
  | .container _ items => bracketedBullets items
  | .word _ => []
  | .annotatedWord _ => []
  | .replacedWord _ _ => []
  | .other _ => []

def bracketedBullets : List BracketedItem → List TimeSpan
  | [] => []
  | item :: items => item.bullets ++ bracketedBullets items
end

mutual
def BracketedItem.mapLeaves (f : Word → Word) : BracketedItem → BracketedItem
  | .word w => .word (f w)
  | .annotatedWord w => .annotatedWord (f w)
  | .replacedWord w replacement => .replacedWord (f w) replacement
  | .container kind items => .container kind (mapBracketedLeaves f items)
  | .internalBullet bullet => .internalBullet bullet
  | .other label => .other label

def mapBracketedLeaves (f : Word → Word) : List BracketedItem → List BracketedItem
  | [] => []
  | item :: items => item.mapLeaves f :: mapBracketedLeaves f items
end

def UtteranceContent.leaves : UtteranceContent → List Word
  | .word w => [w]
  | .annotatedWord w => [w]
  | .replacedWord w _ => [w]
  | .container _ items => bracketedLeaves items
  | .internalBullet _ => []
  | .other _ => []

def UtteranceContent.bullets : UtteranceContent → List TimeSpan
  | .internalBullet bullet => [bullet]
  | .container _ items => bracketedBullets items
  | _ => []

def UtteranceContent.mapLeaves (f : Word → Word) : UtteranceContent → UtteranceContent
  | .word w => .word (f w)
  | .annotatedWord w => .annotatedWord (f w)
  | .replacedWord w replacement => .replacedWord (f w) replacement
  | .container kind items => .container kind (mapBracketedLeaves f items)
  | .internalBullet bullet => .internalBullet bullet
  | .other label => .other label

def wordLeaves (items : List UtteranceContent) : List Word := items.flatMap UtteranceContent.leaves

def internalBullets (items : List UtteranceContent) : List TimeSpan :=
  items.flatMap UtteranceContent.bullets

/-- The crate's content walker under domain `None`: every word in whatever containers. -/
structure ContentWalker where
  walkWords : List UtteranceContent → List Word
  walkWordsMut : (Word → Word) → List UtteranceContent → List UtteranceContent
  visits_every_word : ∀ items, walkWords items = wordLeaves items
  rewrites_every_word : ∀ f items, walkWordsMut f items = items.map (UtteranceContent.mapLeaves f)

def ContentWalker.unconditional : ContentWalker where
  walkWords := wordLeaves
  walkWordsMut f items := items.map (UtteranceContent.mapLeaves f)
  visits_every_word _ := rfl
  rewrites_every_word _ _ := rfl

/-! ## The strip -/

mutual
/-- One arm of `strip_timing_from_bracketed`. -/
def BracketedItem.stripTiming : BracketedItem → BracketedItem
  | .word w => .word w.untimed
  | .annotatedWord w => .annotatedWord w.untimed
  | .container .annotatedGroup items => .container .annotatedGroup (stripTimingFromBracketed items)
  | item => item

/-- Internal bullets go, the words of the arms the match
has lose their timing. -/
def stripTimingFromBracketed : List BracketedItem → List BracketedItem
  | [] => []
  | .internalBullet _ :: items => stripTimingFromBracketed items
  | item :: items => item.stripTiming :: stripTimingFromBracketed items
end

/-- One arm of `strip_timing_from_content`. -/
def UtteranceContent.stripTiming : UtteranceContent → UtteranceContent
  | .word w => .word w.untimed
  | .annotatedWord w => .annotatedWord w.untimed
  | .replacedWord w replacement => .replacedWord w.untimed replacement
  | .container .group items => .container .group (stripTimingFromBracketed items)
  | .container .annotatedGroup items => .container .annotatedGroup (stripTimingFromBracketed items)
  | item => item

def UtteranceContent.isInternalBullet : UtteranceContent → Bool
  | .internalBullet _ => true
  | _ => false

def stripTimingFromContent (items : List UtteranceContent) : List UtteranceContent :=
  (items.filter fun item => !item.isInternalBullet).map UtteranceContent.stripTiming

/-! ## What the strip passes over -/

mutual
/-- The words the strip does not reach: of a replaced word, and of any container but an annotated group. -/
def BracketedItem.unreached : BracketedItem → List Word
  | .replacedWord w _ => [w]
  | .container .annotatedGroup items => bracketedUnreached items
  | .container _ items => bracketedLeaves items
  | .word _ => []
  | .annotatedWord _ => []
  | .internalBullet _ => []
  | .other _ => []

def bracketedUnreached : List BracketedItem → List Word
  | [] => []
  | item :: items => item.unreached ++ bracketedUnreached items
end

mutual
def BracketedItem.unreachedBullets : BracketedItem → List TimeSpan
  | .container .annotatedGroup items => bracketedUnreachedBullets items
  | .container _ items => bracketedBullets items
  | .replacedWord _ _ => []
  | .word _ => []
  | .annotatedWord _ => []
  | .internalBullet _ => []
  | .other _ => []

def bracketedUnreachedBullets : List BracketedItem → List TimeSpan
  | [] => []
  | item :: items => item.unreachedBullets ++ bracketedUnreachedBullets items
end

def UtteranceContent.unreached : UtteranceContent → List Word
  | .container .group items => bracketedUnreached items
  | .container .annotatedGroup items => bracketedUnreached items
  | .container _ items => bracketedLeaves items
  | _ => []

def UtteranceContent.unreachedBullets : UtteranceContent → List TimeSpan
  | .container .group items => bracketedUnreachedBullets items
  | .container .annotatedGroup items => bracketedUnreachedBullets items
  | .container _ items => bracketedBullets items
  | _ => []

/-- The words of a main tier outside the reach of `stripTimingFromContent`. -/
def unreachedWords (items : List UtteranceContent) : List Word :=
  items.flatMap UtteranceContent.unreached

def unreachedInternalBullets (items : List UtteranceContent) : List TimeSpan :=
  items.flatMap UtteranceContent.unreachedBullets

def timings (words : List Word) : List TimeSpan := words.filterMap getWordTiming

@[simp] theorem timings_nil : timings [] = [] := rfl

@[simp] theorem timings_append (ws ws' : List Word) : timings (ws ++ ws') = timings ws ++ timings ws' := by
  simp [timings]

@[simp] theorem timings_untimed (w : Word) : timings [w.untimed] = [] := by
  simp [timings, getWordTiming, Word.untimed]

variable (f : Word → Word)

theorem timings_map (g : TimeSpan → Option TimeSpan)
    (h : ∀ w, (f w).inlineBullet = w.inlineBullet.bind g) (ws : List Word) :
    timings (ws.map f) = (timings ws).filterMap g := by
  rw [timings, timings, filterMap_map, filterMap_filterMap]
  apply filterMap_congr
  intro w _
  exact h w

mutual
theorem timings_stripTiming_item : ∀ item : BracketedItem,
    timings item.stripTiming.leaves = timings item.unreached
  | .word w => by simp [BracketedItem.stripTiming, BracketedItem.leaves, BracketedItem.unreached]
  | .annotatedWord w => by
    simp [BracketedItem.stripTiming, BracketedItem.leaves, BracketedItem.unreached]
  | .replacedWord w replacement => by
    simp [BracketedItem.stripTiming, BracketedItem.leaves, BracketedItem.unreached]
  | .container kind items => by
    cases kind <;>
      simp only [BracketedItem.stripTiming, BracketedItem.leaves, BracketedItem.unreached]
    exact timings_stripTimingFromBracketed items
  | .internalBullet _ => by
    simp [BracketedItem.stripTiming, BracketedItem.leaves, BracketedItem.unreached]
  | .other _ => by simp [BracketedItem.stripTiming, BracketedItem.leaves, BracketedItem.unreached]

theorem timings_stripTimingFromBracketed : ∀ items : List BracketedItem,
    timings (bracketedLeaves (stripTimingFromBracketed items)) = timings (bracketedUnreached items)
  | [] => rfl
  | item :: items => by
    have hitem := timings_stripTiming_item item
    have hitems := timings_stripTimingFromBracketed items
    cases item <;>
      simp only [stripTimingFromBracketed, bracketedLeaves, bracketedUnreached, timings_append,
        hitem, hitems]
    rfl
end

mutual
theorem bullets_stripTiming_item : ∀ item : BracketedItem, (∀ b, item ≠ .internalBullet b) →
    item.stripTiming.bullets = item.unreachedBullets
  | .word _, _ => rfl
  | .annotatedWord _, _ => rfl
  | .replacedWord _ _, _ => rfl
  | .container kind items, _ => by
    cases kind <;>
      simp only [BracketedItem.stripTiming, BracketedItem.bullets, BracketedItem.unreachedBullets]
    exact bullets_stripTimingFromBracketed items
  | .internalBullet b, h => absurd rfl (h b)
  | .other _, _ => rfl

theorem bullets_stripTimingFromBracketed : ∀ items : List BracketedItem,
    bracketedBullets (stripTimingFromBracketed items) = bracketedUnreachedBullets items
  | [] => rfl
  | item :: items => by
    have hitem := bullets_stripTiming_item item
    have hitems := bullets_stripTimingFromBracketed items
    cases item <;>
      simp only [stripTimingFromBracketed, bracketedBullets, bracketedUnreachedBullets, hitems]
    case internalBullet => rfl
    all_goals rw [hitem (by simp)]
end

theorem stripTimingFromContent_cons (item : UtteranceContent) (items : List UtteranceContent) :
    stripTimingFromContent (item :: items) = if item.isInternalBullet then stripTimingFromContent items
      else item.stripTiming :: stripTimingFromContent items := by
  by_cases h : item.isInternalBullet = true <;> simp [stripTimingFromContent, h]

variable (items : List UtteranceContent)

theorem timed_stripTimingFromContent :
    timings (wordLeaves (stripTimingFromContent items)) = timings (unreachedWords items) := by
  induction items with
  | nil => rfl
  | cons item items ih =>
    have hitem : timings item.stripTiming.leaves = timings item.unreached := by
      cases item with
      | container kind inner =>
        cases kind
        case group => exact timings_stripTimingFromBracketed inner
        case annotatedGroup => exact timings_stripTimingFromBracketed inner
        all_goals rfl
      | _ => rfl
    rw [stripTimingFromContent_cons, unreachedWords, flatMap_cons, timings_append, ← hitem,
      ← unreachedWords, ← ih]
    by_cases h : item.isInternalBullet = true
    · cases item <;> simp [UtteranceContent.isInternalBullet] at h
      rfl
    · rw [if_neg h, wordLeaves, flatMap_cons, timings_append, ← wordLeaves]

theorem bullets_stripTimingFromContent :
    internalBullets (stripTimingFromContent items) = unreachedInternalBullets items := by
  induction items with
  | nil => rfl
  | cons item items ih =>
    rw [stripTimingFromContent_cons, unreachedInternalBullets, flatMap_cons,
      ← unreachedInternalBullets, ← ih]
    by_cases h : item.isInternalBullet = true
    · cases item <;> simp [UtteranceContent.isInternalBullet] at h
      rfl
    · have hitem : item.stripTiming.bullets = item.unreachedBullets := by
        cases item with
        | container kind inner =>
          cases kind
          case group => exact bullets_stripTimingFromBracketed inner
          case annotatedGroup => exact bullets_stripTimingFromBracketed inner
          all_goals rfl
        | internalBullet => exact absurd rfl h
        | _ => rfl
      rw [if_neg h, internalBullets, flatMap_cons, hitem, ← internalBullets]

/-! ## Rewriting words in place -/

mutual
theorem leaves_mapLeaves_item (f : Word → Word) : ∀ item : BracketedItem,
    (item.mapLeaves f).leaves = item.leaves.map f
  | .word _ => rfl
  | .annotatedWord _ => rfl
  | .replacedWord _ _ => rfl
  | .container _ items => leaves_mapBracketedLeaves f items
  | .internalBullet _ => rfl
  | .other _ => rfl

theorem leaves_mapBracketedLeaves (f : Word → Word) : ∀ items : List BracketedItem,
    bracketedLeaves (mapBracketedLeaves f items) = (bracketedLeaves items).map f
  | [] => rfl
  | item :: items => by
    simp [mapBracketedLeaves, bracketedLeaves, leaves_mapLeaves_item f item,
      leaves_mapBracketedLeaves f items]
end

theorem wordLeaves_mapLeaves :
    wordLeaves (items.map (UtteranceContent.mapLeaves f)) = (wordLeaves items).map f := by
  simp only [wordLeaves, flatMap_map, map_flatMap]
  apply flatMap_congr
  intro item _
  cases item with
  | container kind inner => exact leaves_mapBracketedLeaves f inner
  | _ => rfl

mutual
theorem unreached_sublist_item : ∀ item : BracketedItem, item.unreached.Sublist item.leaves
  | .word _ => nil_sublist _
  | .annotatedWord _ => nil_sublist _
  | .replacedWord _ _ => Sublist.refl _
  | .container kind items => by
    cases kind
    case annotatedGroup => exact bracketedUnreached_sublist items
    all_goals exact Sublist.refl _
  | .internalBullet _ => nil_sublist _
  | .other _ => nil_sublist _

theorem bracketedUnreached_sublist : ∀ items : List BracketedItem,
    (bracketedUnreached items).Sublist (bracketedLeaves items)
  | [] => Sublist.refl _
  | item :: items => (unreached_sublist_item item).append (bracketedUnreached_sublist items)
end

theorem unreachedWords_subset {items : List UtteranceContent} {w : Word} (h : w ∈ unreachedWords items) :
    w ∈ wordLeaves items := by
  obtain ⟨item, hitem, hw⟩ := mem_flatMap.mp h
  refine mem_flatMap.mpr ⟨item, hitem, ?_⟩
  cases item with
  | container kind inner =>
    cases kind
    case group => exact (bracketedUnreached_sublist inner).subset hw
    case annotatedGroup => exact (bracketedUnreached_sublist inner).subset hw
    all_goals exact hw
  | _ => exact absurd hw (by simp [UtteranceContent.unreached])

end Batchalign.Fa
