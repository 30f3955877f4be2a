import Mathlib.Data.List.SplitLengths
import Batchalign.Retokenize.Walk

/- Where a tokenizer may merge words (`retokenize/runs.rs`). -/
namespace Batchalign.Retokenize
open Segments List

structure RunWalk where
  runs : List ℕ+
  openRun : ℕ

namespace RunWalk

def start : RunWalk := ⟨[], 0⟩

def joinableWord (walk : RunWalk) : RunWalk := { walk with openRun := walk.openRun + 1 }

def boundary (walk : RunWalk) : RunWalk :=
  if h : 0 < walk.openRun then ⟨walk.runs ++ [⟨walk.openRun, h⟩], 0⟩ else walk

def loneWords (walk : RunWalk) (count : ℕ) : RunWalk :=
  { walk.boundary with runs := walk.boundary.runs ++ List.replicate count 1 }

variable (X : Chatter)

mutual

/-- One item of `RunWalk::bracketed`. -/
def bracketedItem : BracketedItem → RunWalk → RunWalk
  | .word word, walk => if shouldRetokenize X word then walk.joinableWord else walk.boundary
  | .annotatedWord _ annotations, walk =>
    if excludedFromMor X annotations then walk.boundary else walk.loneWords 1
  | .replacedWord replaced, walk =>
    if excludedFromMor X replaced.scopedAnnotations then walk.boundary
    else walk.loneWords replaced.replacement.length
  | .container _ items, walk => (bracketed items walk.boundary).boundary
  | .annotatedContainer _ items annotations, walk =>
    if excludedFromMor X annotations then walk.boundary
    else (bracketed items walk.boundary).boundary
  | .separator separator, walk =>
    if X.isTagMarkerSeparator separator then walk.loneWords 1 else walk.boundary
  | .other _ _, walk => walk.boundary

def bracketed : List BracketedItem → RunWalk → RunWalk
  | [], walk => walk
  | item :: items, walk => bracketed items (bracketedItem item walk)

end

def container (items : List BracketedItem) (walk : RunWalk) : RunWalk :=
  (bracketed X items walk.boundary).boundary

/-- One item of `RunWalk::utterance`. -/
def utteranceItem : UtteranceContent → RunWalk → RunWalk
  | .word word, walk => if shouldRetokenize X word then walk.joinableWord else walk.boundary
  | .annotatedWord _ annotations, walk =>
    if excludedFromMor X annotations then walk.boundary else walk.loneWords 1
  | .replacedWord replaced, walk =>
    if excludedFromMor X replaced.scopedAnnotations then walk.boundary
    else walk.loneWords replaced.replacement.length
  | .container _ items, walk => walk.container X items
  | .annotatedContainer _ items annotations, walk =>
    if excludedFromMor X annotations then walk.boundary else walk.container X items
  | .separator separator, walk =>
    if X.isTagMarkerSeparator separator then walk.loneWords 1 else walk.boundary
  | .other _ _, walk => walk.boundary

def utterance (content : List UtteranceContent) (walk : RunWalk) : RunWalk :=
  content.foldl (fun walk item => walk.utteranceItem X item) walk

end RunWalk

structure RunsDisagree where
  walked : ℕ
  extracted : ℕ

section Of
variable (X : Chatter)

def walkedRuns (content : List UtteranceContent) : List ℕ+ :=
  (RunWalk.start.utterance X content).boundary.runs

def lengths (runs : List ℕ+) : List ℕ := runs.map PNat.val

def walkedWords (content : List UtteranceContent) : ℕ := (lengths (walkedRuns X content)).sum

/-- `WordRuns::of`. -/
def wordRunsOf (content : List UtteranceContent) (extracted : ℕ) : Except RunsDisagree (List ℕ+) :=
  if walkedWords X content = extracted then .ok (walkedRuns X content)
  else .error ⟨walkedWords X content, extracted⟩

end Of

/-! ## The claims on runs -/

def SegmentedByRuns (runs : List ℕ) (words : List ExtractedWord) (tokens : List (List Char)) :
    Prop :=
  ∃ pieces : List (List (List Char)), tokens = pieces.flatten ∧
    List.Forall₂ (fun run piece => piece.flatten = (run.map ExtractedWord.text).flatten)
      (runs.splitLengths words) pieces

def SameRun (runs : List ℕ) (i j : ℕ) : Prop :=
  ∃ k, ((runs.take k).sum ≤ i ∧ i < (runs.take (k + 1)).sum) ∧
    (runs.take k).sum ≤ j ∧ j < (runs.take (k + 1)).sum

structure RunsAgree (X : Chatter) (content : List UtteranceContent) : Prop where
  counts : ∀ (ctx : RetokenizeContext) (s : RebuildState), ctx.chatter = X →
    (rebuildContent ctx content s).2.wordCounter = s.wordCounter + walkedWords X content
  uncrossed : ∀ (toLowercase : Char → List Char) (ctx : RetokenizeContext) (runs : List ℕ+),
    ctx.chatter = X → wordRunsOf X content ctx.originalWords.length = .ok runs →
    SegmentedByRuns (lengths runs) ctx.originalWords ctx.stanzaTokens →
    buildWordTokenMapping toLowercase ctx.originalWords ctx.stanzaTokens = some ctx.mapping →
    ∀ token first, .mergeCrossesContent token first ∉
      (rebuildContent ctx content .initial).2.diagnostics
  shared : ∀ (toLowercase : Char → List Char) (words : List ExtractedWord)
    (tokens : List (List Char)) (m : WordTokenMapping) (runs : List ℕ+),
    wordRunsOf X content words.length = .ok runs → SegmentedByRuns (lengths runs) words tokens →
    buildWordTokenMapping toLowercase words tokens = some m →
    ∀ i j t, t ∈ m.tokensForWord i → t ∈ m.tokensForWord j → SameRun (lengths runs) i j

/-- Every annotated word, and every word of a replacement, counts, unless it is excluded. -/
def ScopedWordsCount (X : Chatter) (content : List UtteranceContent) : Prop :=
  ∀ word, .scopedWord word ∈ stops X content → shouldRetokenize X word

/-! ## The run walk over stops -/

namespace RunWalk

variable {X : Chatter} {walk : RunWalk}

def total (walk : RunWalk) : ℕ := (lengths walk.runs).sum + walk.openRun

def stop (walk : RunWalk) : Stop → RunWalk
  | .boundary => walk.boundary
  | .plainWord _ => walk.joinableWord
  | .scopedWord _ => walk.loneWords 1
  | .separator => walk.loneWords 1
  | .noReplacement => walk.boundary

def stopAll (walk : RunWalk) (l : List Stop) : RunWalk := l.foldl stop walk

section
variable (walk : RunWalk)

theorem openRun_boundary : walk.boundary.openRun = 0 := by
  rw [boundary]
  split_ifs with h
  · rfl
  · omega

theorem boundary_boundary : walk.boundary.boundary = walk.boundary := by
  have h := walk.openRun_boundary
  rw [boundary, dif_neg (by omega)]

theorem boundary_loneWords (count : ℕ) : (walk.loneWords count).boundary = walk.loneWords count := by
  have h : (walk.loneWords count).openRun = 0 := walk.openRun_boundary
  rw [boundary, dif_neg (by omega)]

theorem loneWords_boundary (count : ℕ) : walk.boundary.loneWords count = walk.loneWords count := by
  rw [loneWords, boundary_boundary, loneWords]

end

theorem stopAll_scopedWords (words : List Word) (walk : RunWalk) (h : words ≠ []) :
    walk.stopAll (words.map .scopedWord) = walk.loneWords words.length := by
  induction words generalizing walk with
  | nil => exact absurd rfl h
  | cons word words ih =>
    rw [map_cons, stopAll, foldl_cons, ← stopAll]
    cases words with
    | nil => rfl
    | cons next words =>
      rw [ih _ (by simp), stop, loneWords, boundary_loneWords, loneWords, loneWords]
      simp [replicate_succ]

theorem stopAll_append (l l' : List Stop) (walk : RunWalk) :
    walk.stopAll (l ++ l') = (walk.stopAll l).stopAll l' := foldl_append ..

theorem stopAll_cons (x : Stop) (l : List Stop) (walk : RunWalk) :
    walk.stopAll (x :: l) = (walk.stop x).stopAll l := rfl

mutual

theorem bracketedItem_eq (item : BracketedItem) (walk : RunWalk) :
    bracketedItem X item walk = walk.stopAll (stopsInItem X item) :=
  match item with
  | .word word => by
    rw [bracketedItem, stopsInItem]
    split_ifs <;> rfl
  | .annotatedWord inner annotations => by
    rw [bracketedItem, stopsInItem, stopAll_cons]
    split_ifs
    · rfl
    · exact (walk.loneWords_boundary 1).symm
  | .replacedWord replaced => by
    rw [bracketedItem, stopsInItem, stopAll_cons]
    split_ifs
    · rfl
    · rw [replacementStops]
      split_ifs with hempty
      · rw [List.isEmpty_iff.mp hempty, length_nil, loneWords, replicate_zero, append_nil]
        exact walk.boundary_boundary.symm
      · rw [stopAll_scopedWords _ _ (by simpa using hempty)]
        exact (walk.loneWords_boundary _).symm
  | .container kind items => by
    rw [bracketedItem, stopsInItem, stopAll_cons, stopAll_append, bracketed_eq items walk.boundary]
    rfl
  | .annotatedContainer kind items annotations => by
    rw [bracketedItem, stopsInItem, stopAll_cons]
    split_ifs
    · rfl
    · rw [stopAll_append, bracketed_eq items walk.boundary]
      rfl
  | .separator separator => by
    rw [bracketedItem, stopsInItem, stopAll_cons]
    split_ifs
    · exact (walk.loneWords_boundary 1).symm
    · rfl
  | .other kind text => by
    rw [bracketedItem, stopsInItem]
    rfl

theorem bracketed_eq (items : List BracketedItem) (walk : RunWalk) :
    bracketed X items walk = walk.stopAll (stopsInItems X items) :=
  match items with
  | [] => by
    rw [bracketed, stopsInItems]
    rfl
  | item :: items => by
    rw [bracketed, stopsInItems, stopAll_append, bracketedItem_eq item walk,
      bracketed_eq items (walk.stopAll (stopsInItem X item))]

end

theorem utterance_toItem (content : List UtteranceContent) (walk : RunWalk) :
    walk.utterance X content = bracketed X (content.map UtteranceContent.toItem) walk := by
  induction content generalizing walk with
  | nil =>
    rfl
  | cons item content ih =>
    rw [utterance, foldl_cons, ← utterance, ih, map_cons, bracketed]
    have hitem : walk.utteranceItem X item = bracketedItem X item.toItem walk := by
      cases item <;> rw [utteranceItem, UtteranceContent.toItem, bracketedItem] <;> rfl
    rw [hitem]

theorem utterance_eq (content : List UtteranceContent) (walk : RunWalk) :
    walk.utterance X content = walk.stopAll (stops X content) := by
  rw [utterance_toItem, bracketed_eq, stops]

theorem total_boundary (walk : RunWalk) : (lengths walk.boundary.runs).sum = walk.total := by
  rw [boundary, total]
  split_ifs with h
  · rw [lengths, map_append, sum_append]
    rfl
  · have hzero : walk.openRun = 0 := by omega
    rw [hzero, add_zero]

def counted : Stop → ℕ
  | .boundary => 0
  | .plainWord _ => 1
  | .scopedWord _ => 1
  | .separator => 1
  | .noReplacement => 0

section
variable (walk : RunWalk)

theorem total_loneWords (count : ℕ) : (walk.loneWords count).total = walk.total + count := by
  have hrest := walk.openRun_boundary
  have htotal := walk.total_boundary
  rw [loneWords, total]
  simp only [lengths, map_append, sum_append, map_replicate, PNat.val_ofNat,
    sum_replicate, smul_eq_mul, Nat.mul_one, hrest, add_zero]
  rw [← htotal, lengths]

theorem total_stop (x : Stop) : (walk.stop x).total = walk.total + counted x := by
  have hboundary : walk.boundary.total = walk.total := by
    rw [total, walk.openRun_boundary, add_zero, total_boundary]
  cases x with
  | boundary => exact hboundary
  | plainWord word => exact (add_assoc ..).symm
  | scopedWord word => exact walk.total_loneWords 1
  | separator => exact walk.total_loneWords 1
  | noReplacement => exact hboundary

theorem total_stopAll (l : List Stop) : (walk.stopAll l).total = walk.total + (l.map counted).sum := by
  induction l generalizing walk with
  | nil => rfl
  | cons x l ih =>
    rw [stopAll_cons, ih, total_stop, map_cons, sum_cons, add_assoc]

theorem runs_prefix_boundary : walk.runs <+: walk.boundary.runs := by
  rw [boundary]
  split_ifs
  · exact prefix_append _ _
  · exact prefix_rfl

theorem runs_prefix_stopAll (l : List Stop) : walk.runs <+: (walk.stopAll l).runs := by
  induction l generalizing walk with
  | nil => exact prefix_rfl
  | cons x l ih =>
    have hlone : walk.runs <+: (walk.loneWords 1).runs :=
      walk.runs_prefix_boundary.trans (prefix_append _ _)
    have hstep : walk.runs <+: (walk.stop x).runs := by
      cases x with
      | boundary => exact walk.runs_prefix_boundary
      | plainWord word => exact prefix_rfl
      | scopedWord word => exact hlone
      | separator => exact hlone
      | noReplacement => exact walk.runs_prefix_boundary
    exact hstep.trans (ih _)

end

end RunWalk

theorem walkedRuns_eq (X : Chatter) (content : List UtteranceContent) :
    walkedRuns X content = (RunWalk.start.stopAll (stops X content)).boundary.runs := by
  rw [walkedRuns, RunWalk.utterance_eq]

theorem walkedWords_eq (X : Chatter) (content : List UtteranceContent) :
    walkedWords X content = ((stops X content).map RunWalk.counted).sum := by
  rw [walkedWords, walkedRuns_eq, RunWalk.total_boundary, RunWalk.total_stopAll]
  exact zero_add _

/-! ## Cuts -/

variable {X : Chatter} {content : List UtteranceContent} {toLowercase : Char → List Char}
  {words : List ExtractedWord} {tokens : List (List Char)} {runs : List ℕ}
  {ctx : RetokenizeContext} {m : WordTokenMapping} {i j t : ℕ}

theorem flatten_wordUnits (toLowercase : Char → List Char) (words : List ExtractedWord) :
    (wordUnits toLowercase words).flatten =
      normalizeAlignmentUnit toLowercase (words.map ExtractedWord.text).flatten := by
  induction words with
  | nil => rfl
  | cons word words ih =>
    rw [wordUnits, map_cons, flatten_cons, ← wordUnits, ih, map_cons,
      flatten_cons, normalizeAlignmentUnit, normalizeAlignmentUnit, normalizeAlignmentUnit,
      flatMap_append]

theorem flatten_tokenUnits (toLowercase : Char → List Char) (tokens : List (List Char)) :
    (tokenUnits toLowercase tokens).flatten = normalizeAlignmentUnit toLowercase tokens.flatten := by
  induction tokens with
  | nil => rfl
  | cons token tokens ih =>
    rw [tokenUnits, map_cons, flatten_cons, ← tokenUnits, ih, flatten_cons,
      normalizeAlignmentUnit, normalizeAlignmentUnit, normalizeAlignmentUnit, flatMap_append]

theorem spelled_take {pieces : List (List (List Char))}
    (h : Forall₂ (fun run piece => piece.flatten = (run.map ExtractedWord.text).flatten)
      (runs.splitLengths words) pieces) (k : ℕ) :
    ((words.take (runs.take k).sum).map ExtractedWord.text).flatten =
      (pieces.take k).flatten.flatten := by
  induction runs generalizing words pieces k with
  | nil =>
    rw [splitLengths_nil, forall₂_nil_left_iff] at h
    subst h
    simp
  | cons run runs ih =>
    rw [splitLengths_cons] at h
    cases h with
    | @cons _ piece _ pieces hpiece hrest =>
      cases k with
      | zero => rfl
      | succ k =>
        calc ((words.take ((run :: runs).take (k + 1)).sum).map ExtractedWord.text).flatten
            = ((words.take run).map ExtractedWord.text).flatten ++
                (((words.drop run).take (runs.take k).sum).map ExtractedWord.text).flatten := by
              rw [take_succ_cons, sum_cons, take_add, map_append, flatten_append]
          _ = piece.flatten ++ (pieces.take k).flatten.flatten := by rw [← hpiece, ih hrest]
          _ = ((piece :: pieces).take (k + 1)).flatten.flatten := by
              rw [take_succ_cons, flatten_cons, flatten_append]

theorem SegmentedByRuns.cut (h : SegmentedByRuns runs words tokens)
    (toLowercase : Char → List Char) (k : ℕ) :
    ∃ q, offset (wordUnits toLowercase words) (runs.take k).sum =
      offset (tokenUnits toLowercase tokens) q := by
  obtain ⟨pieces, rfl, hpieces⟩ := h
  refine ⟨(pieces.take k).flatten.length, ?_⟩
  have htokens : pieces.flatten.take (pieces.take k).flatten.length = (pieces.take k).flatten := by
    conv_lhs => rw [← take_append_drop k pieces, flatten_append]
    rw [take_append_drop, take_left]
  calc offset (wordUnits toLowercase words) (runs.take k).sum
      = (wordUnits toLowercase (words.take (runs.take k).sum)).flatten.length := by
        rw [offset, wordUnits, ← map_take, ← wordUnits]
    _ = (tokenUnits toLowercase (pieces.take k).flatten).flatten.length := by
        rw [flatten_wordUnits, spelled_take hpieces, flatten_tokenUnits]
    _ = offset (tokenUnits toLowercase pieces.flatten) (pieces.take k).flatten.length := by
        rw [offset, tokenUnits, tokenUnits, ← map_take, htokens]

theorem exists_run (h : i < runs.sum) : ∃ k, (runs.take k).sum ≤ i ∧ i < (runs.take (k + 1)).sum := by
  induction runs generalizing i with
  | nil => cases h
  | cons run runs ih =>
    rw [sum_cons] at h
    by_cases hfirst : i < run
    · exact ⟨0, Nat.zero_le _, by simpa using hfirst⟩
    · obtain ⟨k, hstart, hend⟩ := ih (show i - run < runs.sum by omega)
      refine ⟨k + 1, ?_, ?_⟩
      · rw [take_succ_cons, sum_cons]
        omega
      · rw [take_succ_cons, sum_cons]
        omega

theorem SameRun.symm (h : SameRun runs i j) : SameRun runs j i := by
  obtain ⟨k, hi, hj⟩ := h
  exact ⟨k, hj, hi⟩

theorem sameRun_of_shared {ws ts : List (List Char)} (h : Joins ws ts m) (hlen : m.length = runs.sum)
    (hcut : ∀ k, ∃ q, offset ws (runs.take k).sum = offset ts q) (hi : t ∈ m.tokensForWord i)
    (hj : t ∈ m.tokensForWord j) : SameRun runs i j := by
  wlog hij : i ≤ j generalizing i j
  · exact (this hj hi (Nat.le_of_not_le hij)).symm
  have hin := lt_of_mem_tokensForWord hi
  rw [hlen] at hin
  obtain ⟨k, hstart, hend⟩ := exists_run hin
  refine ⟨k, ⟨hstart, hend⟩, hstart.trans hij, ?_⟩
  by_contra hlt
  obtain ⟨q, hq⟩ := hcut (k + 1)
  exact h.not_across hq hend (Nat.le_of_not_lt hlt) hi hj

/-! ## Boundaries -/

def Unmerged (m : WordTokenMapping) (n : ℕ) : Prop :=
  n ≠ 0 → ∀ t ∈ m.tokensForWord (n - 1), t ∉ m.tokensForWord n

theorem openMerge_eq_none {s : RebuildState} (h : Unmerged ctx.mapping s.wordCounter) :
    openMerge ctx s = none := by
  rw [openMerge]
  split_ifs with hzero
  · rfl
  · split
    · rfl
    · next last hlast =>
      rw [if_neg]
      intro hfirst
      exact h hzero last (mem_of_getLast? hlast) (mem_of_head? hfirst)

def RebuildState.Uncrossed (s : RebuildState) : Prop :=
  ∀ token first, RebuildRefusal.mergeCrossesContent token first ∉ s.diagnostics

theorem Passes.uncrossed {s s' : RebuildState} {n : ℕ} (h : Passes n s s') (hs : s.Uncrossed) :
    s'.Uncrossed := by
  obtain ⟨new, hnew, hnone⟩ := h.reported
  intro token first hmem
  rw [hnew] at hmem
  rcases mem_append.mp hmem with hmem | hmem
  · exact hs token first hmem
  · exact hnone token first hmem

theorem visitAll_uncrossed {l : List Stop} {s : RebuildState} (walk : RunWalk)
    (hcount : ∀ word, .scopedWord word ∈ l → shouldRetokenize ctx.chatter word)
    (hcounter : s.wordCounter = walk.total) (hs : s.Uncrossed) (hcuts : ∀ k, Unmerged ctx.mapping
      ((lengths (walk.stopAll l).boundary.runs).take k).sum) : (visitAll ctx l s).2.Uncrossed := by
  induction l generalizing s walk with
  | nil => exact hs
  | cons stop l ih =>
    have hadvance : stop.advance ctx.chatter = RunWalk.counted stop := by
      cases stop with
      | scopedWord word => exact if_pos (hcount word (by simp))
      | boundary => rfl
      | plainWord word => rfl
      | separator => rfl
      | noReplacement => rfl
    refine ih (walk.stop stop) (fun word hmem => hcount word (mem_cons_of_mem _ hmem)) ?_ ?_ hcuts
    · rw [stop.visit_wordCounter, hcounter, hadvance, RunWalk.total_stop]
    · by_cases hstop : stop = .boundary
      · -- the runs closed so far are the first of the runs at the end
        subst hstop
        have hprefix := (walk.boundary.runs_prefix_stopAll l).trans
          (walk.boundary.stopAll l).runs_prefix_boundary
        have hcut := hcuts walk.boundary.runs.length
        rw [RunWalk.stopAll_cons, RunWalk.stop, lengths, ← map_take,
          ← prefix_iff_eq_take.mp hprefix, ← lengths, RunWalk.total_boundary, ← hcounter]
          at hcut
        rw [Stop.visit, atBoundary, openMerge_eq_none hcut]
        exact hs
      · exact (stop.visit_passes hstop s).uncrossed hs

/-! ## Exactly when they agree -/

theorem rebuildContent_wordCounter (content : List UtteranceContent) (s : RebuildState) :
    (rebuildContent ctx content s).2.wordCounter =
      s.wordCounter + ((stops ctx.chatter content).map (Stop.advance ctx.chatter)).sum := by
  have h := rebuildContent_visits ctx content s
  rw [← visitAll_wordCounter, ← h]

theorem advance_le_counted (X : Chatter) (stop : Stop) : stop.advance X ≤ RunWalk.counted stop := by
  cases stop with
  | scopedWord word =>
    rw [Stop.advance]
    split_ifs <;> simp [RunWalk.counted]
  | boundary => exact le_refl _
  | plainWord word => exact le_refl _
  | separator => exact le_refl _
  | noReplacement => exact le_refl _

theorem advance_sum_eq_iff (l : List Stop) : (l.map (Stop.advance X)).sum = (l.map RunWalk.counted).sum ↔
      ∀ word, .scopedWord word ∈ l → shouldRetokenize X word := by
  induction l with
  | nil => simp
  | cons stop l ih =>
    have hle := advance_le_counted X stop
    have hrest : (l.map (Stop.advance X)).sum ≤ (l.map RunWalk.counted).sum :=
      sum_le_sum fun stop _ => advance_le_counted X stop
    have hstop : stop.advance X = RunWalk.counted stop ↔
        ∀ word, stop = .scopedWord word → shouldRetokenize X word := by
      cases stop <;> simp [Stop.advance, RunWalk.counted]
    rw [map_cons, map_cons, sum_cons, sum_cons]
    constructor
    · intro heq word hmem
      rcases mem_cons.mp hmem with hfirst | hmem
      · exact hstop.mp (by omega) word hfirst.symm
      · exact ih.mp (by omega) word hmem
    · intro hall
      have hfirst := hstop.mpr fun word hword => hall word (by rw [hword]; exact mem_cons_self)
      have hlater := ih.mpr fun word hmem => hall word (mem_cons_of_mem _ hmem)
      omega

theorem wordRunsOf_eq_ok {extracted : ℕ} {found : List ℕ+}
    (h : wordRunsOf X content extracted = .ok found) :
    found = walkedRuns X content ∧ (lengths found).sum = extracted := by
  rw [wordRunsOf] at h
  split_ifs at h with hwalked
  cases h
  exact ⟨rfl, hwalked⟩

theorem length_wordUnits (toLowercase : Char → List Char) (words : List ExtractedWord) :
    (wordUnits toLowercase words).length = words.length := length_map _

/-- The run walk and the rebuild agree exactly if every annotated or replacement word counts, unless
excluded. -/
theorem runs_agree_exact (X : Chatter) (content : List UtteranceContent) :
    RunsAgree X content ↔ ScopedWordsCount X content := by
  constructor
  · intro h
    refine (advance_sum_eq_iff _).mp ?_
    have hcounts := h.counts ⟨X, [], [], [], 0, none⟩ .initial rfl
    rw [rebuildContent_wordCounter, walkedWords_eq] at hcounts
    exact Nat.add_left_cancel hcounts
  · intro h
    refine ⟨?_, ?_, ?_⟩
    · rintro ctx s rfl
      rw [rebuildContent_wordCounter, walkedWords_eq, (advance_sum_eq_iff _).mpr h]
    · rintro toLowercase ctx runs rfl hruns hsegmented hmapping
      obtain ⟨rfl, -⟩ := wordRunsOf_eq_ok hruns
      have hjoins := buildWordTokenMapping_joins hmapping
      have hvisits := rebuildContent_visits ctx content .initial
      have huncrossed : (visitAll ctx (stops ctx.chatter content) .initial).2.Uncrossed := by
        refine visitAll_uncrossed .start h rfl (fun _ _ hmem => by cases hmem) ?_
        intro k hk t ht
        rw [← walkedRuns_eq] at hk ht ⊢
        obtain ⟨q, hq⟩ := hsegmented.cut toLowercase k
        exact hjoins.not_across hq (by omega) (le_refl _) ht
      rw [← hvisits] at huncrossed
      exact huncrossed
    · intro toLowercase words tokens m runs hruns hsegmented hmapping i j t hi hj
      have hjoins := buildWordTokenMapping_joins hmapping
      refine sameRun_of_shared hjoins ?_ (hsegmented.cut toLowercase) hi hj
      rw [hjoins.length, length_wordUnits]
      exact (wordRunsOf_eq_ok hruns).2.symm

def untranscribed : Word := ⟨['x', 'x', 'x'], none, none, none, none, none, [.text ['x', 'x', 'x']]⟩

/-- Conventions under which untranscribed material is no `%mor` word and nothing is excluded. -/
def untranscribedAside : Chatter where
  countsForMor := fun word => word.cleanedText ≠ untranscribed.cleanedText
  annotationsHaveAlignmentIgnore := fun _ => false
  isTagMarkerSeparator := fun separator => separator = .comma
  isChatTerminator := fun text => text = ['.']
  parseWordFragment := fun text => some ⟨text, none, none, none, none, none, [.text text]⟩

/-- `xxx [= ball] .`: the run walk counts a word that the rebuild does not pass. -/
theorem annotated_untranscribed_disagrees : ¬ RunsAgree untranscribedAside
      [.annotatedWord untranscribed [⟨['=', ' ', 'b', 'a', 'l', 'l']⟩]] := by
  intro h
  have hcounts := h.counts ⟨untranscribedAside, [], [], [], 0, none⟩ .initial rfl
  exact absurd hcounts (by decide)

end Batchalign.Retokenize
