import Batchalign.Lib.WrittenOnce
import Batchalign.Retokenize.Walk

/- The words of a rebuilt tier spell the tokens of its words. -/
namespace Batchalign.Retokenize
open WrittenOnce List

/-! ## The claim -/

inductive Slot where
  | plain
  | expanded
  | separator
  deriving DecidableEq

def Stop.slot (X : Chatter) : Stop → List Slot
  | .boundary => []
  | .plainWord _ => [.plain]
  | .scopedWord word => if shouldRetokenize X word then [.expanded] else []
  | .separator => [.separator]
  | .noReplacement => []

def slots (X : Chatter) (content : List UtteranceContent) : List Slot :=
  (stops X content).flatMap (Stop.slot X)

def IsWord (l : List Slot) (k : ℕ) : Prop := ∃ slot, l[k]? = some slot ∧ slot ≠ .separator

instance (l : List Slot) (k : ℕ) : Decidable (IsWord l k) :=
  decidable_of_iff (l[k]?.any (fun slot => decide (slot ≠ .separator)) = true) (by
    simp [IsWord, Option.any_eq_true])

section Claim
variable (ctx : RetokenizeContext) (content : List UtteranceContent)

def tokenText (owner token : ℕ) : List Char :=
  resolveTokenText ((ctx.stanzaTokens[token]?).getD []) owner ctx.originalWords

/-- A text that is read as one word of that spelling, which the `%mor` tier counts. -/
def ReadAsWord (X : Chatter) (text : List Char) : Prop :=
  separatorOf text = none ∧ X.isChatTerminator text = false ∧
    ∃ word, X.parseWordFragment text = some word ∧ word.cleanedText = text ∧ shouldRetokenize X word

def TokensRead : Prop :=
  ∀ k t, IsWord (slots ctx.chatter content) k → t ∈ ctx.mapping.tokensForWord k →
    ReadAsWord ctx.chatter (tokenText ctx k t)

def wordTokens : List ℕ :=
  (List.range ctx.stanzaTokens.length).filter fun t =>
    (List.range (slots ctx.chatter content).length).any fun k =>
      (slots ctx.chatter content)[k]? != some .separator && (ctx.mapping.tokensForWord k).contains t

def SpellsOnce : Prop :=
  ∃ owner : ℕ → ℕ, (∀ t ∈ wordTokens ctx content, IsWord (slots ctx.chatter content) (owner t) ∧
      t ∈ ctx.mapping.tokensForWord (owner t)) ∧
    (spoken ctx.chatter (rebuildContent ctx content .initial).1).map Word.cleanedText =
      (wordTokens ctx content).map fun t => tokenText ctx (owner t) t

def OwnedBefore (k t : ℕ) : Prop :=
  ∃ j < k, IsWord (slots ctx.chatter content) j ∧ t ∈ ctx.mapping.tokensForWord j

instance (k t : ℕ) : Decidable (OwnedBefore ctx content k t) :=
  inferInstanceAs (Decidable (∃ j < k, _ ∧ _))

def WholeOrNew : Prop :=
  ∀ k, (slots ctx.chatter content)[k]? = some .plain →
    (∀ t ∈ ctx.mapping.tokensForWord k, OwnedBefore ctx content k t) ∨
      ∀ t ∈ ctx.mapping.tokensForWord k, ¬ OwnedBefore ctx content k t

end Claim

/-! ## The tokens of each word -/

variable {ctx : RetokenizeContext} {X : Chatter} {content : List UtteranceContent}
  {m : WordTokenMapping} {s : RebuildState} {word : Word} {k j t : ℕ} {l l' : List Slot}

/-- The words from index `k` on, each with its tokens. -/
def ownLists (m : WordTokenMapping) : ℕ → List Slot → List (ℕ × List ℕ)
  | _, [] => []
  | k, slot :: rest =>
    if slot = .separator then ownLists m (k + 1) rest
    else (k, m.tokensForWord k) :: ownLists m (k + 1) rest

theorem ownLists_append (m : WordTokenMapping) (k : ℕ) (l l' : List Slot) :
    ownLists m k (l ++ l') = ownLists m k l ++ ownLists m (k + l.length) l' := by
  induction l generalizing k with
  | nil => rfl
  | cons slot l ih =>
    rw [cons_append, ownLists, ownLists, ih, length_cons, add_assoc, add_comm 1]
    split_ifs <;> rfl

variable {p : ℕ × List ℕ}

theorem mem_ownLists : p ∈ ownLists m k l ↔ ∃ i, IsWord l i ∧ p = (k + i, m.tokensForWord (k + i)) := by
  induction l generalizing k with
  | nil => simp [ownLists, IsWord]
  | cons slot l ih =>
    have hlater : (∃ i, IsWord (slot :: l) i ∧ p = (k + i, m.tokensForWord (k + i))) ↔
        (slot ≠ .separator ∧ p = (k, m.tokensForWord k)) ∨
          ∃ i, IsWord l i ∧ p = (k + 1 + i, m.tokensForWord (k + 1 + i)) := by
      constructor
      · rintro ⟨i, ⟨slot', hslot, hword⟩, rfl⟩
        cases i with
        | zero =>
          obtain rfl : slot = slot' := by simpa using hslot
          exact .inl ⟨hword, rfl⟩
        | succ i =>
          refine .inr ⟨i, ⟨slot', by simpa using hslot, hword⟩, ?_⟩
          rw [add_assoc, add_comm 1]
      · rintro (⟨hword, rfl⟩ | ⟨i, ⟨slot', hslot, hword⟩, rfl⟩)
        · exact ⟨0, ⟨slot, rfl, hword⟩, rfl⟩
        · refine ⟨i + 1, ⟨slot', by simpa using hslot, hword⟩, ?_⟩
          rw [add_assoc, add_comm 1]
    rw [hlater, ownLists, ← ih]
    split_ifs with hsep
    · simp [hsep]
    · simp [hsep]

theorem ownLists_keys (m : WordTokenMapping) (k : ℕ) (l : List Slot) :
    (ownLists m k l).Pairwise fun p q => p.1 < q.1 := by
  induction l generalizing k with
  | nil => exact .nil
  | cons slot l ih =>
    rw [ownLists]
    split_ifs
    · exact ih (k + 1)
    · refine pairwise_cons.mpr ⟨?_, ih (k + 1)⟩
      intro q hq
      obtain ⟨i, -, rfl⟩ := mem_ownLists.mp hq
      omega

theorem tokensForWord_getNonempty {indices : List ℕ} (h : m.getNonempty k = some indices) :
    m.tokensForWord k = indices := by
  rw [WordTokenMapping.tokensForWord, (Option.filter_eq_some_iff.mp h).1, Option.getD_some]

theorem getNonempty_of_ne_nil (h : m.tokensForWord k ≠ []) :
    m.getNonempty k = some (m.tokensForWord k) := by
  rw [WordTokenMapping.tokensForWord] at h ⊢
  rw [WordTokenMapping.getNonempty]
  cases hl : m[k]? with
  | none =>
    rw [hl] at h
    exact absurd rfl h
  | some tokens =>
    rw [hl] at h
    exact Option.filter_eq_some_iff.mpr ⟨rfl, by simpa using h⟩

/-! ## Plain words -/

theorem tryParseToken_read {text : List Char} (h : ReadAsWord ctx.chatter text)
    (s : RebuildState) : ∃ word, tryParseToken ctx text s = (some (.word word), s) ∧
      word.cleanedText = text ∧ shouldRetokenize ctx.chatter word := by
  obtain ⟨hseparator, hterminator, word, hparse, htext, hcounts⟩ := h
  refine ⟨word, ?_, htext, hcounts⟩
  simp [tryParseToken, hseparator, handleEndingPunctSkip, hterminator, tryParseTokenAsWord, hparse]

theorem spoken_word (h : shouldRetokenize X word) (written : List Written) :
    ((.word word :: written).flatMap (Written.spoken X)).map Word.cleanedText =
      word.cleanedText :: (written.flatMap (Written.spoken X)).map Word.cleanedText := by
  rw [flatMap_cons, Written.spoken, countedWords, filter_cons_of_pos h, filter_nil]
  rfl

theorem writeTokens_spelled (hword : shouldRetokenize ctx.chatter word) {indices tokens : List ℕ}
    (hread : ∀ t ∈ tokens, ReadAsWord ctx.chatter (tokenText ctx k t))
    (hone : indices.length = 1 → tokens.length ≤ 1) (s : RebuildState) :
    ((writeTokens ctx word k indices tokens s).1.flatMap (Written.spoken ctx.chatter)).map
        Word.cleanedText = tokens.map (tokenText ctx k) ∧
      ∀ t, t ∈ (writeTokens ctx word k indices tokens s).2.emittedTokens ↔
        t ∈ tokens ∨ t ∈ s.emittedTokens := by
  induction tokens generalizing s with
  | nil => exact ⟨rfl, fun t => by simp [writeTokens]⟩
  | cons ti rest ih =>
    rw [writeTokens]
    rw [← tokenText]
    split_ifs with hkept
    · -- a word of one token that spells it stays
      obtain rfl : rest = [] := by
        have := hone hkept.1
        rw [length_cons] at this
        exact length_eq_zero_iff.mp (by omega)
      rw [spoken_word hword, hkept.2]
      exact ⟨rfl, fun t => by simp [RebuildState.emit]⟩
    · obtain ⟨parsed, hparsed, htext, hcounts⟩ :=
        tryParseToken_read (hread ti mem_cons_self) (s.emit ti)
      have hrest : indices.length = 1 → rest.length ≤ 1 := by
        intro hlen
        have := hone hlen
        rw [length_cons] at this
        omega
      obtain ⟨hspelled, hemitted⟩ :=
        ih (fun t ht => hread t (mem_cons_of_mem _ ht)) hrest (s.emit ti)
      simp only [hparsed]
      refine ⟨?_, fun t => ?_⟩
      · rw [spoken_word hcounts, hspelled, htext, map_cons]
      · rw [hemitted, RebuildState.emit, mem_cons, mem_cons]
        tauto

/-- What one word leaves in the tier, as if its tokens were written by `written`. -/
structure LeavesTokens (ctx : RetokenizeContext) (k : ℕ) (s : RebuildState)
    (result : List Word × RebuildState) : Prop where
  spelled : result.1.map Word.cleanedText =
    (written s.emittedTokens [(k, ctx.mapping.tokensForWord k)]).map fun p => tokenText ctx p.1 p.2
  emitted : ∀ t, t ∈ result.2.emittedTokens ↔ t ∈ ctx.mapping.tokensForWord k ∨ t ∈ s.emittedTokens

theorem written_singleton_old {seen : List ℕ} (h : ∀ x ∈ p.2, x ∈ seen) : written seen [p] = [] := by
  rw [written, if_pos h]
  rfl

theorem written_singleton_new {seen : List ℕ} (h : ¬ ∀ x ∈ p.2, x ∈ seen) :
    written seen [p] = p.2.map fun x => (p.1, x) := by
  rw [written, if_neg h, written, append_nil]

theorem plainWord_leaves (hword : shouldRetokenize ctx.chatter word)
    (hne : ctx.mapping.tokensForWord s.wordCounter ≠ [])
    (hread : ∀ t ∈ ctx.mapping.tokensForWord s.wordCounter,
      ReadAsWord ctx.chatter (tokenText ctx s.wordCounter t)) :
    LeavesTokens ctx s.wordCounter s (Stop.visit ctx (.plainWord word) s) := by
  rw [Stop.visit, handleWord, getNonempty_of_ne_nil hne]
  simp only [List.isEmpty_iff, if_neg hne]
  have hall : (ctx.mapping.tokensForWord s.wordCounter).all s.nextWord.emittedTokens.contains ↔
      ∀ t ∈ ctx.mapping.tokensForWord s.wordCounter, t ∈ s.emittedTokens := by
    simp [RebuildState.nextWord]
  by_cases hold : ∀ t ∈ ctx.mapping.tokensForWord s.wordCounter, t ∈ s.emittedTokens
  · simp only [if_pos (hall.mpr hold)]
    refine ⟨?_, fun t => ?_⟩
    · rw [written_singleton_old hold]
      rfl
    · exact (or_iff_right_of_imp (hold t)).symm
  · simp only [if_neg fun h => hold (hall.mp h)]
    have hone : (ctx.mapping.tokensForWord s.wordCounter).length = 1 →
        (ctx.mapping.tokensForWord s.wordCounter).length ≤ 1 := le_of_eq
    obtain ⟨hspelled, hemitted⟩ := writeTokens_spelled hword hread hone s.nextWord
    refine ⟨?_, hemitted⟩
    rw [hspelled, written_singleton_new hold, map_map]
    rfl

/-! ## Scoped words -/

theorem tryParseTokenAsWord_read {text : List Char} (h : ReadAsWord ctx.chatter text)
    (s : RebuildState) : ∃ word, tryParseTokenAsWord ctx text s = (some word, s) ∧
      word.cleanedText = text ∧ shouldRetokenize ctx.chatter word := by
  obtain ⟨-, -, word, hparse, htext, hcounts⟩ := h
  exact ⟨word, by rw [tryParseTokenAsWord, hparse], htext, hcounts⟩

theorem countedWords_cons (h : shouldRetokenize X word) (words : List Word) :
    countedWords X (word :: words) = word :: countedWords X words := filter_cons_of_pos h

theorem ok_of_map {ε α β : Type} {f : α → β} {e : Except ε α} {b : β} (h : e.map f = .ok b) :
    ∃ a, e = .ok a ∧ f a = b := by
  cases e with
  | error _ => cases h
  | ok a =>
    cases h
    exact ⟨a, rfl, rfl⟩

theorem expandTokens_spelled (hword : shouldRetokenize ctx.chatter word) {single : Bool}
    {tokens : List ℕ} (hread : ∀ t ∈ tokens, ReadAsWord ctx.chatter (tokenText ctx k t))
    {s : RebuildState} {words : List Word} (h : (expandTokens ctx word k single tokens s).1 = .ok words) :
    (countedWords ctx.chatter words).map Word.cleanedText = tokens.map (tokenText ctx k) ∧
      (expandTokens ctx word k single tokens s).2 = s := by
  induction tokens generalizing words with
  | nil =>
    cases h
    exact ⟨rfl, rfl⟩
  | cons index rest ih =>
    have hrest := fun t ht => hread t (mem_cons_of_mem _ ht)
    rw [expandTokens] at h ⊢
    cases htoken : ctx.stanzaTokens[index]? with
    | none =>
      rw [htoken] at h
      cases h
    | some token =>
      have htext : tokenText ctx k index = resolveTokenText token k ctx.originalWords := by
        rw [tokenText, htoken, Option.getD_some]
      rw [htoken] at h
      simp only [← htext] at h ⊢
      split_ifs at h ⊢ with hkept hdecorated
      · obtain ⟨later, hlater, rfl⟩ := ok_of_map h
        obtain ⟨hspelled, hstate⟩ := ih hrest hlater
        refine ⟨?_, hstate⟩
        rw [countedWords_cons hword, map_cons, hspelled, map_cons, hkept.2]
      · obtain ⟨parsed, hparsed, hcleaned, hcounts⟩ :=
          tryParseTokenAsWord_read (hread index mem_cons_self) s
        simp only [hparsed] at h ⊢
        obtain ⟨later, hlater, rfl⟩ := ok_of_map h
        obtain ⟨hspelled, hstate⟩ := ih hrest hlater
        refine ⟨?_, hstate⟩
        rw [countedWords_cons hcounts, map_cons, hspelled, map_cons, hcleaned]

def Alone (m : WordTokenMapping) (k : ℕ) : Prop :=
  ∀ j, j ≠ k → ∀ t ∈ m.tokensForWord k, t ∉ m.tokensForWord j

structure Admitted (ctx : RetokenizeContext) (word : Word) (s : RebuildState)
    (expansion : AdmittedExpansion) : Prop where
  indices : expansion.tokenIndices = ctx.mapping.tokensForWord s.wordCounter
  new : ∀ t ∈ ctx.mapping.tokensForWord s.wordCounter, t ∉ s.emittedTokens
  alone : Alone ctx.mapping s.wordCounter
  expanded : ∃ single, (expandTokens ctx word s.wordCounter single
    (ctx.mapping.tokensForWord s.wordCounter) s.nextWord).1 = .ok expansion.words.toList ∧
    (admitExpansion ctx word s).2 = (expandTokens ctx word s.wordCounter single
      (ctx.mapping.tokensForWord s.wordCounter) s.nextWord).2

theorem tokenRefusal_eq_none {emitted : List ℕ} (h : tokenRefusal ctx k emitted t = none) :
    t ∉ emitted ∧ ∀ j, j ≠ k → t ∉ ctx.mapping.tokensForWord j := by
  rw [tokenRefusal] at h
  split_ifs at h with hemitted hother
  refine ⟨by simpa using hemitted, ?_⟩
  intro j hj hmem
  refine hother (any_eq_true.mpr ⟨j, mem_range.mpr (lt_of_mem_tokensForWord hmem), ?_⟩)
  simpa [hj] using hmem

theorem admitted_of_ok {expansion : AdmittedExpansion}
    (h : (admitExpansion ctx word s).1 = .ok expansion) : Admitted ctx word s expansion := by
  rw [admitExpansion] at h
  split at h
  · cases h
  · next indices hindices =>
    obtain rfl := tokensForWord_getNonempty hindices
    split at h
    · cases h
    · next original horiginal =>
      split_ifs at h with hsource
      · split at h
        · cases h
        · next hrefusal =>
          have hfree : ∀ t ∈ ctx.mapping.tokensForWord s.wordCounter, t ∉ s.emittedTokens ∧
              ∀ j, j ≠ s.wordCounter → t ∉ ctx.mapping.tokensForWord j := by
            intro t ht
            exact tokenRefusal_eq_none (findSome?_eq_none_iff.mp hrefusal t ht)
          have hstate : ∀ words, (expandTokens ctx word s.wordCounter
              ((ctx.mapping.tokensForWord s.wordCounter).length == 1)
              (ctx.mapping.tokensForWord s.wordCounter) s.nextWord).1 = .ok words →
              words ≠ [] → (admitExpansion ctx word s).2 = (expandTokens ctx word s.wordCounter
                ((ctx.mapping.tokensForWord s.wordCounter).length == 1)
                (ctx.mapping.tokensForWord s.wordCounter) s.nextWord).2 := by
            intro words hwords hne
            simp only [admitExpansion, hindices, horiginal, if_neg hsource, hrefusal, hwords]
            cases words with
            | nil => exact absurd rfl hne
            | cons first rest => rfl
          simp only at h
          split at h
          · cases h
          · cases h
          · next first rest hwords =>
            cases h
            exact ⟨rfl, fun t ht => (hfree t ht).1, fun j hj t ht => (hfree t ht).2 j hj,
              _, hwords, hstate _ hwords (by simp)⟩

theorem scopedWord_leaves (hword : shouldRetokenize ctx.chatter word)
    (hne : ctx.mapping.tokensForWord s.wordCounter ≠ [])
    (hread : ∀ t ∈ ctx.mapping.tokensForWord s.wordCounter,
      ReadAsWord ctx.chatter (tokenText ctx s.wordCounter t))
    (hclean : (Stop.visit ctx (.scopedWord word) s).2.diagnostics = []) :
    LeavesTokens ctx s.wordCounter s (Stop.visit ctx (.scopedWord word) s) ∧
      Alone ctx.mapping s.wordCounter := by
  rw [Stop.visit, expandWord, if_pos hword] at hclean ⊢
  simp only at hclean ⊢
  cases hresult : (admitExpansion ctx word s).1 with
  | error refused =>
    -- a refusal is reported
    simp [hresult, RebuildState.report] at hclean
  | ok expansion =>
    have hadmitted := admitted_of_ok hresult
    obtain ⟨single, hwords, hstate⟩ := hadmitted.expanded
    obtain ⟨hspelled, hsame⟩ := expandTokens_spelled hword hread hwords
    have hnew : ¬ ∀ x ∈ ctx.mapping.tokensForWord s.wordCounter, x ∈ s.emittedTokens := by
      intro hall
      obtain ⟨t, ht⟩ := exists_mem_of_ne_nil _ hne
      exact hadmitted.new t ht (hall t ht)
    refine ⟨⟨?_, fun t => ?_⟩, hadmitted.alone⟩
    · rw [hspelled, written_singleton_new hnew, map_map]
      rfl
    · show t ∈ expansion.tokenIndices ++ (admitExpansion ctx word s).2.emittedTokens ↔ _
      rw [hstate, hsame, hadmitted.indices]
      exact mem_append

/-! ## The run -/

mutual

theorem plainWord_counts_item (item : BracketedItem) (h : .plainWord word ∈ stopsInItem X item) :
    shouldRetokenize X word :=
  match item with
  | .word plain => by
    rw [stopsInItem] at h
    split_ifs at h with hcounts
    · obtain rfl : word = plain := by simpa using h
      exact hcounts
    · simp at h
  | .annotatedWord inner annotations => by
    rw [stopsInItem] at h
    split_ifs at h <;> simp at h
  | .replacedWord replaced => by
    rw [stopsInItem, replacementStops] at h
    split_ifs at h <;> simp at h
  | .container kind items => by
    rw [stopsInItem] at h
    exact plainWord_counts items (by simpa using h)
  | .annotatedContainer kind items annotations => by
    rw [stopsInItem] at h
    split_ifs at h
    · simp at h
    · exact plainWord_counts items (by simpa using h)
  | .separator separator => by
    rw [stopsInItem] at h
    split_ifs at h <;> simp at h
  | .other kind text => by
    rw [stopsInItem] at h
    simp at h

theorem plainWord_counts (items : List BracketedItem) (h : .plainWord word ∈ stopsInItems X items) :
    shouldRetokenize X word :=
  match items with
  | [] => by
    rw [stopsInItems] at h
    cases h
  | item :: items => by
    rw [stopsInItems] at h
    rcases mem_append.mp h with h | h
    · exact plainWord_counts_item item h
    · exact plainWord_counts items h

end

theorem length_slot (X : Chatter) (stop : Stop) : (stop.slot X).length = stop.advance X := by
  cases stop with
  | scopedWord word =>
    rw [Stop.slot, Stop.advance]
    split_ifs <;> rfl
  | boundary => rfl
  | plainWord word => rfl
  | separator => rfl
  | noReplacement => rfl

structure Leaves (ctx : RetokenizeContext) (s : RebuildState) (l : List Slot)
    (result : List Word × RebuildState) : Prop where
  spelled : result.1.map Word.cleanedText =
    (written s.emittedTokens (ownLists ctx.mapping s.wordCounter l)).map fun p =>
      tokenText ctx p.1 p.2
  emitted : ∀ t, t ∈ result.2.emittedTokens ↔
    (∃ p ∈ ownLists ctx.mapping s.wordCounter l, t ∈ p.2) ∨ t ∈ s.emittedTokens
  alone : ∀ i, l[i]? = some .expanded → Alone ctx.mapping (s.wordCounter + i)

def Readable (ctx : RetokenizeContext) (k : ℕ) (l : List Slot) : Prop :=
  ∀ p ∈ ownLists ctx.mapping k l, p.2 ≠ [] ∧ ∀ t ∈ p.2, ReadAsWord ctx.chatter (tokenText ctx p.1 t)

variable {result : List Word × RebuildState}

theorem Leaves.silent (hwords : result.1 = [])
    (hemitted : result.2.emittedTokens = s.emittedTokens)
    (hnone : ownLists ctx.mapping s.wordCounter l = [])
    (hplain : ∀ i : ℕ, l[i]? ≠ some .expanded) : Leaves ctx s l result := by
  refine ⟨?_, fun t => ?_, fun i hi => absurd hi (hplain i)⟩
  · rw [hwords, hnone]
    rfl
  · rw [hemitted, hnone]
    simp

theorem LeavesTokens.leaves {slot : Slot}
    (h : LeavesTokens ctx s.wordCounter s result) (hslot : slot ≠ .separator)
    (halone : slot = .expanded → Alone ctx.mapping s.wordCounter) : Leaves ctx s [slot] result := by
  have hlists : ownLists ctx.mapping s.wordCounter [slot] =
      [(s.wordCounter, ctx.mapping.tokensForWord s.wordCounter)] := by
    rw [ownLists, if_neg hslot]
    rfl
  refine ⟨by rw [h.spelled, hlists], fun t => ?_, ?_⟩
  · rw [h.emitted, hlists]
    simp
  · intro i hi
    cases i with
    | zero => exact halone (by simpa using hi)
    | succ i => simp at hi

theorem Stop.visit_leaves (stop : Stop)
    (hplain : ∀ word, stop = .plainWord word → shouldRetokenize ctx.chatter word)
    (hread : Readable ctx s.wordCounter (stop.slot ctx.chatter))
    (hclean : (stop.visit ctx s).2.diagnostics = []) :
    Leaves ctx s (stop.slot ctx.chatter) (stop.visit ctx s) := by
  cases stop with
  | boundary =>
    refine .silent rfl ?_ rfl (by simp [Stop.slot])
    rw [Stop.visit, atBoundary]
    split
    · rfl
    · simp only
      split_ifs <;> rfl
  | plainWord word =>
    obtain ⟨hne, htokens⟩ := hread _ mem_cons_self
    exact (plainWord_leaves (hplain word rfl) hne htokens).leaves (by simp) (by simp)
  | scopedWord word =>
    rw [Stop.slot] at hread ⊢
    split_ifs at hread ⊢ with hcounts
    · obtain ⟨hne, htokens⟩ := hread _ mem_cons_self
      obtain ⟨hleaves, halone⟩ := scopedWord_leaves hcounts hne htokens hclean
      exact hleaves.leaves (by simp) fun _ => halone
    · have hkept : Stop.visit ctx (.scopedWord word) s = ([], s) := by
        rw [Stop.visit, expandWord, if_neg hcounts, ExpandedWords.retained, ExpandedWords.toList,
          countedWords, filter_cons_of_neg hcounts, filter_nil]
      rw [hkept]
      exact .silent rfl rfl rfl (by simp)
  | separator =>
    refine .silent rfl rfl rfl fun i => ?_
    cases i <;> simp [Stop.slot]
  | noReplacement => exact .silent rfl rfl rfl (by simp [Stop.slot])

theorem diagnostics_of_visitAll {l : List Stop} (h : (visitAll ctx l s).2.diagnostics = []) :
    s.diagnostics = [] := by
  induction l generalizing s with
  | nil => exact h
  | cons stop l ih =>
    have hlater := ih h
    by_cases hstop : stop = .boundary
    · subst hstop
      rw [Stop.visit, atBoundary] at hlater
      split at hlater
      · exact hlater
      · simp only at hlater
        split_ifs at hlater
        · exact hlater
        · simp [RebuildState.report] at hlater
    · obtain ⟨new, hnew, -⟩ := (stop.visit_passes hstop s).reported
      rw [hnew] at hlater
      exact (append_eq_nil_iff.mp hlater).1

theorem visitAll_leaves {l : List Stop}
    (hplain : ∀ word, .plainWord word ∈ l → shouldRetokenize ctx.chatter word)
    (hread : Readable ctx s.wordCounter (l.flatMap (Stop.slot ctx.chatter)))
    (hclean : (visitAll ctx l s).2.diagnostics = []) :
    Leaves ctx s (l.flatMap (Stop.slot ctx.chatter)) (visitAll ctx l s) := by
  induction l generalizing s with
  | nil => exact .silent rfl rfl rfl (by simp)
  | cons stop l ih =>
    rw [visitAll_cons] at hclean ⊢
    rw [flatMap_cons] at hread ⊢
    have hcounter : (stop.visit ctx s).2.wordCounter =
        s.wordCounter + (stop.slot ctx.chatter).length := by
      rw [stop.visit_wordCounter, length_slot]
    have hlists : ownLists ctx.mapping s.wordCounter
        (stop.slot ctx.chatter ++ l.flatMap (Stop.slot ctx.chatter)) =
        ownLists ctx.mapping s.wordCounter (stop.slot ctx.chatter) ++
          ownLists ctx.mapping (stop.visit ctx s).2.wordCounter
            (l.flatMap (Stop.slot ctx.chatter)) := by
      rw [ownLists_append, hcounter]
    rw [Readable, hlists] at hread
    have hnow := stop.visit_leaves (fun word h => hplain word (by rw [h]; exact mem_cons_self))
      (fun p hp => hread p (mem_append_left _ hp)) (diagnostics_of_visitAll hclean)
    have hlater := ih (fun word h => hplain word (mem_cons_of_mem _ h))
      (fun p hp => hread p (mem_append_right _ hp)) hclean
    refine ⟨?_, fun t => ?_, fun i hi => ?_⟩
    · rw [map_append, hnow.spelled, hlater.spelled, hlists, written_append hnow.emitted, map_append]
    · rw [hlater.emitted, hnow.emitted, hlists, ← or_assoc]
      refine or_congr_left ?_
      constructor
      · rintro (⟨p, hp, ht⟩ | ⟨p, hp, ht⟩)
        · exact ⟨p, mem_append_right _ hp, ht⟩
        · exact ⟨p, mem_append_left _ hp, ht⟩
      · rintro ⟨p, hp, ht⟩
        rcases mem_append.mp hp with hp | hp
        · exact .inr ⟨p, hp, ht⟩
        · exact .inl ⟨p, hp, ht⟩
    · by_cases hin : i < (stop.slot ctx.chatter).length
      · rw [getElem?_append_left hin] at hi
        exact hnow.alone i hi
      · rw [getElem?_append_right (by omega)] at hi
        have := hlater.alone _ hi
        rw [hcounter] at this
        rwa [show s.wordCounter + (stop.slot ctx.chatter).length +
          (i - (stop.slot ctx.chatter).length) = s.wordCounter + i by omega] at this

/-! ## Exactly when the tier spells the tokens -/

section Exact
variable {toLowercase : Char → List Char}

theorem isWord_lt (h : IsWord l k) : k < l.length := by
  obtain ⟨slot, hslot, -⟩ := h
  exact (List.getElem?_eq_some_iff.mp hslot).1

theorem mem_ownLists_slots {p : ℕ × List ℕ} : p ∈ ownLists m 0 l ↔
    IsWord l p.1 ∧ p.2 = m.tokensForWord p.1 := by
  rw [mem_ownLists]
  constructor
  · rintro ⟨i, hi, rfl⟩
    rw [zero_add]
    exact ⟨hi, rfl⟩
  · rintro ⟨hword, htokens⟩
    exact ⟨p.1, hword, by rw [zero_add, ← htokens]⟩

theorem wordTokens_elements (hmap : buildWordTokenMapping toLowercase ctx.originalWords ctx.stanzaTokens =
      some ctx.mapping) :
    Elements (ownLists ctx.mapping 0 (slots ctx.chatter content)) (wordTokens ctx content) := by
  refine ⟨Pairwise.filter _ pairwise_lt_range, fun t => ?_⟩
  have hjoins := buildWordTokenMapping_joins hmap
  simp only [wordTokens, mem_filter, mem_range, any_eq_true, Bool.and_eq_true,
    bne_iff_ne, ne_eq, contains_iff_mem]
  constructor
  · rintro ⟨-, k, hk, hslot, ht⟩
    refine ⟨(k, ctx.mapping.tokensForWord k), mem_ownLists_slots.mpr ⟨?_, rfl⟩, ht⟩
    refine ⟨(slots ctx.chatter content)[k], getElem?_eq_getElem hk, ?_⟩
    intro hsep
    exact hslot (by rw [getElem?_eq_getElem hk, hsep])
  · rintro ⟨⟨k, tokens⟩, hp, ht⟩
    obtain ⟨hword, htokens⟩ := mem_ownLists_slots.mp hp
    replace ht : t ∈ ctx.mapping.tokensForWord k := by rwa [← htokens]
    refine ⟨?_, k, isWord_lt hword, ?_, ht⟩
    · have hlt := (hjoins.mem_bounds ht).1
      rwa [tokenUnits, length_map] at hlt
    · obtain ⟨slot, hslot, hne⟩ := hword
      rw [hslot]
      exact fun h => hne (Option.some.inj h)

theorem fresh_iff_wholeOrNew
    (halone : ∀ k, (slots ctx.chatter content)[k]? = some .expanded → Alone ctx.mapping k) :
    Fresh [] (ownLists ctx.mapping 0 (slots ctx.chatter content)) ↔ WholeOrNew ctx content := by
  have hbefore : ∀ k t, (t ∈ ([] : List ℕ) ∨
      Before (ownLists ctx.mapping 0 (slots ctx.chatter content)) k t) ↔
        OwnedBefore ctx content k t := by
    intro k t
    rw [or_iff_right not_mem_nil]
    constructor
    · rintro ⟨⟨j, tokens⟩, hq, hlt, ht⟩
      obtain ⟨hword, htokens⟩ := mem_ownLists_slots.mp hq
      exact ⟨j, hlt, hword, by rwa [← htokens]⟩
    · rintro ⟨j, hlt, hword, ht⟩
      exact ⟨(j, ctx.mapping.tokensForWord j), mem_ownLists_slots.mpr ⟨hword, rfl⟩, hlt, ht⟩
  rw [fresh_iff (ownLists_keys ..)]
  simp only [hbefore]
  constructor
  · intro h k hk
    exact h (k, ctx.mapping.tokensForWord k) (mem_ownLists_slots.mpr ⟨⟨_, hk, by simp⟩, rfl⟩)
  · rintro h ⟨k, tokens⟩ hp
    obtain ⟨⟨slot, hslot, hne⟩, htokens⟩ := mem_ownLists_slots.mp hp
    replace htokens : tokens = ctx.mapping.tokensForWord k := htokens
    subst htokens
    cases slot with
    | plain => exact h k hslot
    | expanded =>
      -- an expanded word shares no token at all
      refine .inr ?_
      rintro t ht ⟨j, hlt, -, hmem⟩
      exact halone k hslot j (by omega) t ht hmem
    | separator => exact absurd rfl hne

/-- Where nothing is reported, the rebuilt tier spells every owned token once and in order exactly if
each plain word's tokens were all owned by earlier words, or none was. -/
theorem rebuilt_words_spell_exact (toLowercase : Char → List Char) (ctx : RetokenizeContext)
    (content : List UtteranceContent)
    (hwords : ctx.originalWords.length = (slots ctx.chatter content).length)
    (hmap : buildWordTokenMapping toLowercase ctx.originalWords ctx.stanzaTokens = some ctx.mapping)
    (hread : TokensRead ctx content)
    (hclean : (rebuildContent ctx content .initial).2.diagnostics = []) :
    SpellsOnce ctx content ↔ WholeOrNew ctx content := by
  have hjoins := buildWordTokenMapping_joins hmap
  have helements : Elements (ownLists ctx.mapping 0 (slots ctx.chatter content))
      (wordTokens ctx content) := wordTokens_elements hmap
  have hvisits := rebuildContent_visits ctx content .initial
  have hreadable : Readable ctx 0 (slots ctx.chatter content) := by
    rintro ⟨k, tokens⟩ hp
    obtain ⟨hword, htokens⟩ := mem_ownLists_slots.mp hp
    replace htokens : tokens = ctx.mapping.tokensForWord k := htokens
    subst htokens
    refine ⟨hjoins.tokensForWord_ne_nil ?_, fun t ht => hread k t hword ht⟩
    rw [wordUnits, length_map, hwords]
    exact isWord_lt hword
  have hleaves : Leaves ctx .initial (slots ctx.chatter content)
      (visitAll ctx (stops ctx.chatter content) .initial) := by
    refine visitAll_leaves (fun word h => plainWord_counts _ h) hreadable ?_
    rw [← hvisits]
    exact hclean
  have hspelled := hleaves.spelled
  rw [← hvisits] at hspelled
  have halone : ∀ k, (slots ctx.chatter content)[k]? = some .expanded → Alone ctx.mapping k := by
    intro k hk
    have := hleaves.alone k hk
    rwa [RebuildState.initial, zero_add] at this
  rw [← fresh_iff_wholeOrNew halone]
  constructor
  · -- a token written twice makes the tier too long
    rintro ⟨owner, -, hspells⟩
    refine fresh_of_length helements ?_
    have hlen := congrArg List.length (hspelled.symm.trans hspells)
    rwa [length_map, length_map] at hlen
  · intro hfresh
    have hwritten := written_eq_of_fresh helements hfresh ?_ ?_
    · have hnodup : ((written [] (ownLists ctx.mapping 0 (slots ctx.chatter content))).map
          Prod.snd).Nodup := by
        rw [hwritten]
        exact helements.sorted.imp ne_of_lt
      obtain ⟨owner, howner⟩ := exists_owner hnodup
      refine ⟨owner, ?_, ?_⟩
      · intro t ht
        rw [← hwritten] at ht
        obtain ⟨p, hp, rfl⟩ := mem_map.mp ht
        obtain ⟨q, hq, hkey, hmem⟩ := mem_of_written hp
        obtain ⟨hword, htokens⟩ := mem_ownLists_slots.mp hq
        rw [howner p hp, ← hkey, ← htokens]
        exact ⟨hword, hmem⟩
      · rw [hspelled, ← hwritten, map_map]
        refine map_congr_left fun p hp => ?_
        rw [Function.comp_apply, howner p hp]
    · intro q hq
      rw [(mem_ownLists_slots.mp hq).2]
      exact hjoins.sorted q.1
    · refine List.Pairwise.imp_of_mem ?_ (ownLists_keys ctx.mapping 0 (slots ctx.chatter content))
      intro p q hp hq hlt x hx y hy
      rw [(mem_ownLists_slots.mp hp).2] at hx
      rw [(mem_ownLists_slots.mp hq).2] at hy
      exact hjoins.le hlt hx hy

def everyTextAWord : Chatter where
  countsForMor := fun _ => true
  annotationsHaveAlignmentIgnore := fun _ => false
  isTagMarkerSeparator := fun separator => separator = .comma
  isChatTerminator := fun text => text = ['.']
  parseWordFragment := fun text => some ⟨text, none, none, none, none, none, [.text text]⟩

def plainText (text : List Char) : Word := ⟨text, none, none, none, none, none, [.text text]⟩

def contextOf (words tokens : List (List Char)) : RetokenizeContext :=
  let original := words.map fun text => ⟨text, none, .other⟩
  ⟨everyTextAWord, (buildWordTokenMapping List.singleton original tokens).getD [], tokens, original,
    tokens.length, some ['.']⟩

theorem tokensRead_everyTextAWord {words tokens : List (List Char)}
    (h : ∀ k < (slots everyTextAWord content).length,
      (slots everyTextAWord content)[k]? ≠ some .separator →
      ∀ t ∈ (contextOf words tokens).mapping.tokensForWord k,
        separatorOf (tokenText (contextOf words tokens) k t) = none ∧
          everyTextAWord.isChatTerminator (tokenText (contextOf words tokens) k t) = false) :
    TokensRead (contextOf words tokens) content := by
  intro k t hk ht
  have hslot : (slots everyTextAWord content)[k]? ≠ some .separator := by
    obtain ⟨slot, hslot, hne⟩ := hk
    intro hsep
    exact hne (Option.some.inj (hslot.symm.trans hsep))
  obtain ⟨hseparator, hterminator⟩ := h k (isWord_lt hk) hslot t ht
  exact ⟨hseparator, hterminator, plainText _, rfl, rfl, rfl⟩

/-- `a can't [= cannot] go , b`, its contraction cut in two and the words after it joined. -/
theorem rebuilt_words_spell_contraction :
    let ctx := contextOf [['a'], ['c', 'a', 'n', 't'], ['g', 'o'], ['o', 'n'], [',']]
      [['a'], ['c', 'a'], ['n', 't'], ['g', 'o', 'o', 'n'], [',']]
    let content : List UtteranceContent := [.word (plainText ['a']),
      .annotatedWord (plainText ['c', 'a', 'n', 't']) [⟨['=', ' ', 'c', 'a', 'n', 'n', 'o', 't']⟩],
      .word (plainText ['g', 'o']), .word (plainText ['o', 'n']), .separator .comma]
    SpellsOnce ctx content := by
  intro ctx content
  have hwhole : ∀ k < (slots ctx.chatter content).length, (slots ctx.chatter content)[k]? = some .plain →
      (∀ t ∈ ctx.mapping.tokensForWord k, OwnedBefore ctx content k t) ∨
        ∀ t ∈ ctx.mapping.tokensForWord k, ¬ OwnedBefore ctx content k t := by
    decide
  exact (rebuilt_words_spell_exact List.singleton ctx content (by decide) (by decide)
    (tokensRead_everyTextAWord (by decide)) (by decide)).mpr fun k hk => hwhole k (List.getElem?_eq_some_iff.mp hk).1 hk

/-- `ab cd` cut as `abc d`: the second word owns the shared token and one more, and writes
both. -/
theorem shared_token_written_twice : ¬ ∀ (toLowercase : Char → List Char) (ctx : RetokenizeContext)
      (content : List UtteranceContent),
      ctx.originalWords.length = (slots ctx.chatter content).length →
      buildWordTokenMapping toLowercase ctx.originalWords ctx.stanzaTokens = some ctx.mapping →
      TokensRead ctx content → (rebuildContent ctx content .initial).2.diagnostics = [] →
      SpellsOnce ctx content := by
  intro h
  obtain ⟨owner, -, hspells⟩ := h List.singleton
    (contextOf [['a', 'b'], ['c', 'd']] [['a', 'b', 'c'], ['d']])
    [.word (plainText ['a', 'b']), .word (plainText ['c', 'd'])]
    (by decide) (by decide) (tokensRead_everyTextAWord (by decide)) (by decide)
  have hlen := congrArg List.length hspells
  rw [length_map, length_map] at hlen
  exact absurd hlen (by decide)

end Exact

end Batchalign.Retokenize
