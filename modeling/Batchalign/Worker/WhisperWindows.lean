import Mathlib.Tactic
import Batchalign.Lib.Shuffle
import Batchalign.Lib.WhiteSpace
import Batchalign.Worker.ChunkSpans

/- Overlapping Whisper windows (`worker/whisper_windows.rs`), folded one after another into one list. An
   observation that repeats one already there is absorbed, one that may repeat several is dropped and
   recorded, every other is spliced in. Seconds are exact numbers. -/

namespace Batchalign.AsrPostprocess

def maxMs : ℤ := 1000000000000

/-- A span in whole milliseconds, ordered and in range. -/
structure AdmittedInterval where
  startMs : ℤ
  endMs : ℤ
  nonneg : 0 ≤ startMs
  ordered : startMs ≤ endMs
  in_range : endMs ≤ maxMs

/-- `AdmittedInterval::admit_millis`; a refusal is `none`. -/
def AdmittedInterval.admitMillis (startMs endMs : ℤ) : Option AdmittedInterval :=
  if h : 0 ≤ startMs ∧ startMs ≤ endMs ∧ endMs ≤ maxMs then
    some ⟨startMs, endMs, h.1, h.2.1, h.2.2⟩
  else none

end Batchalign.AsrPostprocess

namespace Batchalign.Worker
open List

open AsrPostprocess (AdmittedInterval maxMs)
open Shuffle (IsShuffle)

structure WhisperWindowV2 where
  startSample : ℕ
  sampleCount : ℕ
  leftContext : ℕ
  rightContext : ℕ
  spans : List WhisperChunkSpanV2

structure WhisperWindowsV2 where
  sampleRateHz : ℕ
  rate_pos : 0 < sampleRateHz
  windows : List WhisperWindowV2

inductive WhisperObservationsV2 where
  | monolithic (spans : List WhisperChunkSpanV2)
  | windows (windows : WhisperWindowsV2)

structure SeamAmbiguity where
  seamMs : ℤ
  text : List Char
  droppedFrom : ℕ
  kept : AdmittedInterval

structure Reconciled where
  spans : List WhisperChunkSpanV2
  seams : List SeamAmbiguity

inductive WindowMergeRefusal where
  | offset

structure Observation where
  span : WhisperChunkSpanV2
  windowStart : ℚ
  windowEnd : ℚ

inductive SeamObservation where
  | shared (anchor : ℕ)
  | novel (observation : Observation)

def trimmed (text : String) : List Char := WhiteSpace.trim text.toList

/-- A bound in milliseconds, rounded, if it is in range. -/
def admitBoundSeconds (seconds : ℚ) : Option ℤ :=
  let rounded := round (seconds * 1000)
  if 0 ≤ rounded ∧ rounded ≤ maxMs then some rounded else none

def admitPositions (start stop : AudioPositionSeconds) : Option AdmittedInterval := do
  let startMs ← admitBoundSeconds start.seconds
  let endMs ← admitBoundSeconds stop.seconds
  AdmittedInterval.admitMillis startMs endMs

namespace Observation

/-- Whether `other` repeats this observation, and this one's interval if so. -/
def duplicatedBy (self other : Observation) : Option AdmittedInterval :=
  if trimmed self.span.text ≠ trimmed other.span.text ∨ trimmed self.span.text = [] then none
  else
    match self.span.startS, self.span.endS, other.span.startS, other.span.endS with
    | some a, some b, some c, some d =>
      let sharedStart := max self.windowStart other.windowStart
      let sharedEnd := min self.windowEnd other.windowEnd
      let duplicate := sharedStart ≤ a.seconds ∧ sharedStart ≤ c.seconds ∧
        b.seconds ≤ sharedEnd ∧ d.seconds ≤ sharedEnd ∧
        max a.seconds c.seconds < min b.seconds d.seconds
      if duplicate then admitPositions a b else none
    -- a missing bound is no authority to remove a word
    | _, _, _, _ => none

end Observation

def interleave (left right : List Observation) : List Observation :=
  left.merge right (fun a b =>
    match a.span.startS, b.span.startS with
    | some a, some b => !(b.seconds < a.seconds : Bool)
    | _, _ => true)

namespace WhisperWindowV2

def start (window : WhisperWindowV2) (rate : ℕ) : ℚ := window.startSample / rate

def stop (window : WhisperWindowV2) (rate : ℕ) : ℚ :=
  window.start rate + window.sampleCount / rate

def seamMs (window : WhisperWindowV2) (rate : ℕ) : ℤ :=
  min (round (((window.startSample + window.leftContext : ℕ) : ℚ) / rate * 1000)) (2 ^ 63 - 1)

end WhisperWindowV2

def shift (start : ℚ) : Option AudioPositionSeconds →
    Except WindowMergeRefusal (Option AudioPositionSeconds)
  | none => .ok none
  | some bound =>
    match AudioPositionSeconds.tryFrom (start + bound.seconds) with
    | .ok position => .ok (some position)
    | .error _ => .error .offset

def observe (rate : ℕ) (window : WhisperWindowV2) : Except WindowMergeRefusal (List Observation) :=
  window.spans.mapM (fun span => do
    let startS ← shift (window.start rate) span.startS
    let endS ← shift (window.start rate) span.endS
    return ⟨⟨span.text, startS, endS⟩, window.start rate, window.stop rate⟩)

/-- What becomes of an observation; an ambiguous one carries the kept copy's interval. -/
inductive Outcome where
  | novel
  | shared (index : ℕ)
  | ambiguous (kept : AdmittedInterval)

/-- Judge a window's observations in order; `used` and `previous`: the earlier ones claimed. -/
def judge (merged : List Observation) : List Bool → Option ℕ → List Observation →
    List (Observation × Outcome)
  | _, _, [] => []
  | used, previous, observation :: incoming =>
    let found := merged.zipIdx.filterMap (fun old =>
      (old.1.duplicatedBy observation).map (fun kept => (old.2, kept)))
    match found with
    | [] => (observation, .novel) :: judge merged used previous incoming
    | (index, kept) :: others =>
      if !others.isEmpty || used.getD index false || previous.any (fun p => index ≤ p) then
        (observation, .ambiguous kept) :: judge merged used previous incoming
      else
        (observation, .shared index) ::
          judge merged (used.set index true) (some index) incoming

def plan (outcomes : List (Observation × Outcome)) : List SeamObservation :=
  outcomes.filterMap (fun o =>
    match o.2 with
    | .novel => some (.novel o.1)
    | .shared index => some (.shared index)
    | .ambiguous _ => none)

def seams (seamMs : ℤ) (ordinal : ℕ) (outcomes : List (Observation × Outcome)) :
    List SeamAmbiguity :=
  outcomes.filterMap (fun o =>
    match o.2 with
    | .ambiguous kept => some ⟨seamMs, trimmed o.1.span.text, ordinal, kept⟩
    | .novel | .shared _ => none)

/-- Splice the plan into the rest of the merged list. New observations wait for the anchor after them. -/
def splice : List (Observation × ℕ) → List Observation → List Observation →
    List SeamObservation → List Observation
  | left, pending, next, [] => next ++ interleave (left.map Prod.fst) pending
  | left, pending, next, .novel observation :: items =>
    splice left (pending ++ [observation]) next items
  | left, pending, next, .shared anchor :: items =>
    let before := left.takeWhile (fun old => old.2 < anchor)
    let rest := left.dropWhile (fun old => old.2 < anchor)
    splice rest.tail [] (next ++ interleave (before.map Prod.fst) pending ++
      (rest.head?.map Prod.fst).toList) items

/-- One window folded in; `seams` are the records so far. -/
def foldWindow (rate : ℕ) (state : List Observation × List SeamAmbiguity)
    (window : WhisperWindowV2 × ℕ) :
    Except WindowMergeRefusal (List Observation × List SeamAmbiguity) := do
  let incoming ← observe rate window.1
  let outcomes := judge state.1 (List.replicate state.1.length false) none incoming
  return (splice state.1.zipIdx [] [] (plan outcomes),
    state.2 ++ seams (window.1.seamMs rate) window.2 outcomes)

def reconcile : WhisperObservationsV2 → Except WindowMergeRefusal Reconciled
  | .monolithic spans => .ok ⟨spans, []⟩
  | .windows windows => do
    let state ← windows.windows.zipIdx.foldlM (foldWindow windows.sampleRateHz) ([], [])
    return ⟨state.1.map Observation.span, state.2⟩

/-- `new` repeats `old`: same text, both timed, intersecting, inside their windows' shared audio. -/
structure Repeats (old new : Observation) : Prop where
  text : trimmed old.span.text = trimmed new.span.text
  text_ne_nil : trimmed old.span.text ≠ []
  timed : ∃ a b c d, old.span.startS = some a ∧ old.span.endS = some b ∧
    new.span.startS = some c ∧ new.span.endS = some d ∧
    max old.windowStart new.windowStart ≤ a.seconds ∧
    max old.windowStart new.windowStart ≤ c.seconds ∧
    b.seconds ≤ min old.windowEnd new.windowEnd ∧
    d.seconds ≤ min old.windowEnd new.windowEnd ∧
    max a.seconds c.seconds < min b.seconds d.seconds

variable {merged : List Observation} {old : Observation} {anchor p : ℕ}

theorem repeats_of_duplicatedBy {new : Observation} {kept : AdmittedInterval}
    (h : old.duplicatedBy new = some kept) : Repeats old new := by
  unfold Observation.duplicatedBy at h
  split at h
  · cases h
  · next hne =>
    push Not at hne
    split at h
    · next a b c d ha hb hc hd =>
      simp only at h
      split at h
      · next hdup =>
        obtain ⟨h1, h2, h3, h4, h5⟩ := hdup
        exact ⟨hne.1, hne.2, a, b, c, d, ha, hb, hc, hd, h1, h2, h3, h4, h5⟩
      · cases h
    · cases h

theorem not_repeats_of_apart {new : Observation}
    (h : min old.windowEnd new.windowEnd ≤ max old.windowStart new.windowStart) : ¬Repeats old new := by
  rintro ⟨-, -, a, b, c, d, -, -, -, -, ha, -, hb, -, hlt⟩
  have hle : b.seconds ≤ a.seconds := hb.trans (h.trans ha)
  exact absurd ((le_max_left _ _).trans_lt (hlt.trans_le (min_le_left _ _))) (not_lt.mpr hle)

def novels (outcomes : List (Observation × Outcome)) : List Observation :=
  outcomes.filterMap (fun o =>
    match o.2 with
    | .novel => some o.1
    | .shared _ | .ambiguous _ => none)

def absorbed (outcomes : List (Observation × Outcome)) : ℕ :=
  outcomes.countP (fun o =>
    match o.2 with
    | .shared _ => true
    | .novel | .ambiguous _ => false)

def Judged (merged : List Observation) (o : Observation × Outcome) : Prop :=
  match o.2 with
  | .novel => True
  | .shared index => ∃ old, merged[index]? = some old ∧ Repeats old o.1
  | .ambiguous kept => ∃ old ∈ merged, Repeats old o.1 ∧ old.duplicatedBy o.1 = some kept

/-- Anchors at or after `p`, each after the one before, and all in a list of length `n`. -/
def Ascends (n : ℕ) : ℕ → List SeamObservation → Prop
  | _, [] => True
  | p, .novel _ :: items => Ascends n p items
  | p, .shared anchor :: items => p ≤ anchor ∧ anchor < n ∧ Ascends n (anchor + 1) items

theorem map_fst_judge (merged : List Observation) (used : List Bool) (previous : Option ℕ)
    (incoming : List Observation) : (judge merged used previous incoming).map Prod.fst = incoming := by
  induction incoming generalizing used previous with
  | nil => rfl
  | cons observation incoming ih =>
    unfold judge
    simp only
    split
    · rw [map_cons, ih]
    · split <;> rw [map_cons, ih]

theorem found_spec {observation : Observation} {index : ℕ}
    {kept : AdmittedInterval} {others : List (ℕ × AdmittedInterval)}
    (h : merged.zipIdx.filterMap (fun old =>
      (old.1.duplicatedBy observation).map (fun kept => (old.2, kept))) = (index, kept) :: others) :
    ∃ old, merged[index]? = some old ∧ old.duplicatedBy observation = some kept := by
  have hmem : (index, kept) ∈ merged.zipIdx.filterMap (fun old =>
      (old.1.duplicatedBy observation).map (fun kept => (old.2, kept))) := by
    rw [h]
    exact mem_cons_self
  obtain ⟨⟨old, i⟩, hold, hsome⟩ := mem_filterMap.mp hmem
  obtain ⟨k, hk, heq⟩ := Option.map_eq_some_iff.mp hsome
  cases heq
  exact ⟨old, mem_zipIdx_iff_getElem?.mp hold, hk⟩

theorem judged_judge (merged : List Observation) (used : List Bool) (previous : Option ℕ)
    (incoming : List Observation) : ∀ o ∈ judge merged used previous incoming, Judged merged o := by
  induction incoming generalizing used previous with
  | nil =>
    intro o ho
    cases ho
  | cons observation incoming ih =>
    intro o ho
    unfold judge at ho
    simp only at ho
    split at ho
    · obtain rfl | ho := mem_cons.mp ho
      · trivial
      · exact ih _ _ o ho
    · next index kept others hfound =>
      obtain ⟨old, hold, hdup⟩ := found_spec hfound
      split at ho
      · obtain rfl | ho := mem_cons.mp ho
        · exact ⟨old, mem_of_getElem? hold, repeats_of_duplicatedBy hdup, hdup⟩
        · exact ih _ _ o ho
      · obtain rfl | ho := mem_cons.mp ho
        · exact ⟨old, hold, repeats_of_duplicatedBy hdup⟩
        · exact ih _ _ o ho

theorem ascends_judge (merged : List Observation) (used : List Bool) (previous : Option ℕ)
    (incoming : List Observation) : Ascends merged.length (previous.elim 0 (· + 1))
      (plan (judge merged used previous incoming)) := by
  induction incoming generalizing used previous with
  | nil => trivial
  | cons observation incoming ih =>
    unfold judge
    simp only
    split
    · exact ih used previous
    · next index kept others hfound =>
      obtain ⟨old, hold, -⟩ := found_spec hfound
      split
      · exact ih used previous
      · next hclear =>
        simp only [Bool.or_eq_true, not_or] at hclear
        refine ⟨?_, (List.getElem?_eq_some_iff.mp hold).1, ih _ (some index)⟩
        cases previous with
        | none => exact Nat.zero_le _
        | some p =>
          have hafter := hclear.2
          simp only [Option.any_some, decide_eq_true_eq, not_le] at hafter
          exact hafter

theorem Ascends.le_anchor {n : ℕ} {earlier later : List SeamObservation}
    (h : Ascends n p (earlier ++ .shared anchor :: later)) : p ≤ anchor := by
  induction earlier generalizing p with
  | nil => exact h.1
  | cons item earlier ih =>
    cases item with
    | novel observation => exact ih h
    | shared before => exact (h.1.trans (Nat.le_succ before)).trans (ih h.2.2)

def newOnes (items : List SeamObservation) : List Observation :=
  items.filterMap (fun item =>
    match item with
    | .novel observation => some observation
    | .shared _ => none)

theorem newOnes_plan (outcomes : List (Observation × Outcome)) :
    newOnes (plan outcomes) = novels outcomes := by
  unfold newOnes plan novels
  rw [filterMap_filterMap]
  apply filterMap_congr
  rintro ⟨observation, outcome⟩ -
  cases outcome <;> rfl

theorem isShuffle_interleave (left right : List Observation) :
    IsShuffle left right (interleave left right) :=
  IsShuffle.merge _ left right

theorem span_zipIdx {α : Type} (l : List α) {a : ℕ} (hpa : p ≤ a) :
    (l.zipIdx p).takeWhile (fun o => o.2 < a) = (l.take (a - p)).zipIdx p ∧
      (l.zipIdx p).dropWhile (fun o => o.2 < a) = (l.drop (a - p)).zipIdx a := by
  induction l generalizing p with
  | nil => simp
  | cons x l ih =>
    rw [zipIdx_cons]
    obtain rfl | hlt := hpa.eq_or_lt
    · simp
    · obtain ⟨htake, hdrop⟩ := ih (p := p + 1) hlt
      have hsub : a - p = (a - (p + 1)) + 1 := by omega
      rw [takeWhile_cons_of_pos (by simpa using hlt),
        dropWhile_cons_of_pos (by simpa using hlt), htake, hdrop, hsub]
      exact ⟨rfl, rfl⟩

theorem drop_split (hpa : p ≤ anchor) (hold : merged[anchor]? = some old) :
    merged.drop p = (merged.drop p).take (anchor - p) ++ old :: merged.drop (anchor + 1) := by
  obtain ⟨hlt, rfl⟩ := List.getElem?_eq_some_iff.mp hold
  have hrest : (merged.drop p).drop (anchor - p) = merged.drop anchor := by
    rw [drop_drop, show p + (anchor - p) = anchor by omega]
  rw [← drop_eq_getElem_cons hlt, ← hrest, take_append_drop]

theorem length_take_drop (hold : merged[anchor]? = some old) :
    ((merged.drop p).take (anchor - p)).length = anchor - p := by
  obtain ⟨hlt, -⟩ := List.getElem?_eq_some_iff.mp hold
  rw [length_take, length_drop]
  omega

theorem splice_shared (hpa : p ≤ anchor) (hold : merged[anchor]? = some old) (pending next : List Observation)
    (items : List SeamObservation) :
    splice ((merged.drop p).zipIdx p) pending next (.shared anchor :: items) =
      splice ((merged.drop (anchor + 1)).zipIdx (anchor + 1)) []
        (next ++ interleave ((merged.drop p).take (anchor - p)) pending ++ [old]) items := by
  obtain ⟨htake, hdrop⟩ := span_zipIdx (merged.drop p) hpa
  have hrest : (merged.drop p).drop (anchor - p) = old :: merged.drop (anchor + 1) := by
    conv_lhs => rw [drop_split hpa hold]
    exact drop_left' (length_take_drop hold)
  rw [splice, htake, hdrop, hrest, zipIdx_map_fst]
  rfl

theorem splice_next (items : List SeamObservation) : ∀ (left : List (Observation × ℕ))
    (pending next : List Observation),
    splice left pending next items = next ++ splice left pending [] items := by
  induction items with
  | nil =>
    simp [splice]
  | cons item items ih =>
    intro left pending next
    cases item with
    | novel observation =>
      exact ih left _ next
    | shared anchor =>
      rw [splice, splice, ih, ih _ _ (_ ++ _)]
      simp

theorem isShuffle_splice (items : List SeamObservation) :
    ∀ (p : ℕ) (pending : List Observation), Ascends merged.length p items →
      IsShuffle (merged.drop p) (pending ++ newOnes items)
        (splice ((merged.drop p).zipIdx p) pending [] items) := by
  induction items with
  | nil =>
    intro p pending _
    rw [splice, zipIdx_map_fst, nil_append]
    simpa [newOnes] using isShuffle_interleave (merged.drop p) pending
  | cons item items ih =>
    intro p pending h
    cases item with
    | novel observation =>
      have hrest := ih p (pending ++ [observation]) h
      rw [append_assoc] at hrest
      exact hrest
    | shared anchor =>
      obtain ⟨hpa, hlt, hlater⟩ := h
      have hold := getElem?_eq_getElem hlt
      have hrest := ih (anchor + 1) [] hlater
      rw [splice_shared hpa hold, splice_next, nil_append]
      have hboth := (isShuffle_interleave ((merged.drop p).take (anchor - p)) pending).append
        (.left (x := merged[anchor]) hrest)
      rw [← drop_split hpa hold] at hboth
      rwa [append_assoc, singleton_append]

theorem splice_cut (hold : merged[anchor]? = some old) (later : List SeamObservation)
    (earlier : List SeamObservation) : ∀ (p : ℕ) (pending : List Observation),
    Ascends merged.length p (earlier ++ .shared anchor :: later) →
      ∃ left right, splice ((merged.drop p).zipIdx p) pending []
          (earlier ++ .shared anchor :: later) = left ++ old :: right ∧
        IsShuffle ((merged.drop p).take (anchor - p)) (pending ++ newOnes earlier) left ∧
        IsShuffle (merged.drop (anchor + 1)) (newOnes later) right := by
  induction earlier with
  | nil =>
    intro p pending h
    obtain ⟨hpa, -, hlater⟩ := h
    refine ⟨interleave ((merged.drop p).take (anchor - p)) pending, _, ?_, ?_,
      isShuffle_splice later (anchor + 1) [] hlater⟩
    · rw [nil_append, splice_shared hpa hold, splice_next, nil_append,
        append_assoc, singleton_append]
    · simpa [newOnes] using isShuffle_interleave ((merged.drop p).take (anchor - p)) pending
  | cons item earlier ih =>
    intro p pending h
    cases item with
    | novel observation =>
      obtain ⟨left, right, heq, hleft, hright⟩ := ih p (pending ++ [observation]) h
      rw [append_assoc] at hleft
      exact ⟨left, right, heq, hleft, hright⟩
    | shared before =>
      obtain ⟨hpb, hlt, hlater⟩ := h
      have hbefore := getElem?_eq_getElem hlt
      have hba : before + 1 ≤ anchor := hlater.le_anchor
      obtain ⟨left, right, heq, hleft, hright⟩ := ih (before + 1) [] hlater
      refine ⟨interleave ((merged.drop p).take (before - p)) pending ++
        merged[before] :: left, right, ?_, ?_, hright⟩
      · rw [cons_append, splice_shared hpb hbefore, splice_next, heq, nil_append]
        simp
      · have hboth := (isShuffle_interleave ((merged.drop p).take (before - p)) pending).append
          (.left (x := merged[before]) hleft)
        have hsplit : (merged.drop p).take (anchor - p) = (merged.drop p).take (before - p) ++
              merged[before] :: (merged.drop (before + 1)).take (anchor - (before + 1)) := by
          conv_lhs => rw [drop_split hpb hbefore]
          rw [take_append, length_take_drop hbefore,
            show anchor - p - (before - p) = (anchor - (before + 1)) + 1 by omega,
            take_succ_cons, take_of_length_le]
          rw [length_take_drop hbefore]
          omega
        rw [hsplit]
        exact hboth

/-- A window folded in: `before` is the merged list it met and `after` the one it left. -/
structure WindowFold where
  before : List Observation
  outcomes : List (Observation × Outcome)
  after : List Observation
  seams : List SeamAmbiguity

structure WindowFold.Sound (f : WindowFold) : Prop where
  judged : ∀ o ∈ f.outcomes, Judged f.before o
  recorded : ∃ seamMs ordinal, f.seams = Worker.seams seamMs ordinal f.outcomes
  /-- what was merged and what is new, each once and in its order -/
  merged : IsShuffle f.before (novels f.outcomes) f.after
  /-- an absorbed observation keeps what is before and after it on the sides of its counterpart -/
  cut : ∀ earlier observation index later,
    f.outcomes = earlier ++ (observation, .shared index) :: later →
    ∃ old left right, f.before[index]? = some old ∧ Repeats old observation ∧
      f.after = left ++ old :: right ∧
      IsShuffle (f.before.take index) (novels earlier) left ∧
      IsShuffle (f.before.drop (index + 1)) (novels later) right

def windowFold (seamMs : ℤ) (ordinal : ℕ) (merged incoming : List Observation) : WindowFold :=
  let outcomes := judge merged (List.replicate merged.length false) none incoming
  ⟨merged, outcomes, splice merged.zipIdx [] [] (plan outcomes), seams seamMs ordinal outcomes⟩

theorem plan_append (earlier later : List (Observation × Outcome)) :
    plan (earlier ++ later) = plan earlier ++ plan later := filterMap_append

theorem windowFold_sound (seamMs : ℤ) (ordinal : ℕ) (merged incoming : List Observation) :
    (windowFold seamMs ordinal merged incoming).Sound := by
  have hascends : Ascends merged.length 0
      (plan (windowFold seamMs ordinal merged incoming).outcomes) :=
    ascends_judge merged (replicate merged.length false) none incoming
  have hjudged : ∀ o ∈ (windowFold seamMs ordinal merged incoming).outcomes,
      Judged merged o := judged_judge merged _ none incoming
  refine ⟨hjudged, ⟨seamMs, ordinal, rfl⟩, ?_, ?_⟩
  · have hshuffle := isShuffle_splice _ 0 [] hascends
    rwa [nil_append, newOnes_plan, drop_zero] at hshuffle
  · intro earlier observation index later houtcomes
    obtain ⟨old, hold, hrepeats⟩ :=
      hjudged (observation, .shared index) (by rw [houtcomes]; simp)
    have hplan : plan (windowFold seamMs ordinal merged incoming).outcomes =
        plan earlier ++ .shared index :: plan later := by
      rw [houtcomes, plan_append]
      rfl
    rw [hplan] at hascends
    obtain ⟨left, right, heq, hleft, hright⟩ := splice_cut hold (plan later) _ 0 [] hascends
    rw [drop_zero, nil_append, newOnes_plan] at hleft
    rw [newOnes_plan] at hright
    refine ⟨old, left, right, hold, hrepeats, ?_, hleft, hright⟩
    rw [drop_zero, ← hplan] at heq
    exact heq

theorem length_outcomes (seamMs : ℤ) (ordinal : ℕ) (outcomes : List (Observation × Outcome)) :
    (novels outcomes).length + (seams seamMs ordinal outcomes).length + absorbed outcomes =
      outcomes.length := by
  induction outcomes with
  | nil => rfl
  | cons o outcomes ih =>
    obtain ⟨observation, outcome⟩ := o
    simp only [novels, seams, absorbed, filterMap_cons, countP_cons] at ih ⊢
    cases outcome <;>
      simp only [length_cons, if_true, Bool.false_eq_true, if_false] <;> omega

theorem WindowFold.Sound.length_eq {f : WindowFold} (h : f.Sound) :
    f.after.length + f.seams.length + absorbed f.outcomes = f.before.length + f.outcomes.length := by
  obtain ⟨seamMs, ordinal, hseams⟩ := h.recorded
  have houtcomes := length_outcomes seamMs ordinal f.outcomes
  rw [h.merged.length_eq, hseams]
  omega

structure Shifted (rate : ℕ) (window : WhisperWindowV2) (span : WhisperChunkSpanV2)
    (o : Observation) : Prop where
  text : o.span.text = span.text
  startS : o.span.startS.map AudioPositionSeconds.seconds =
    span.startS.map (fun bound => window.start rate + bound.seconds)
  endS : o.span.endS.map AudioPositionSeconds.seconds =
    span.endS.map (fun bound => window.start rate + bound.seconds)
  windowStart : o.windowStart = window.start rate
  windowEnd : o.windowEnd = window.stop rate

theorem start_nonneg (window : WhisperWindowV2) (rate : ℕ) : 0 ≤ window.start rate :=
  div_nonneg (Nat.cast_nonneg _) (Nat.cast_nonneg _)

theorem shift_eq {start : ℚ} (h : 0 ≤ start) (bound : Option AudioPositionSeconds) :
    ∃ shifted, shift start bound = .ok shifted ∧ shifted.map AudioPositionSeconds.seconds =
        bound.map (fun bound => start + bound.seconds) := by
  cases bound with
  | none => exact ⟨none, rfl, rfl⟩
  | some bound =>
    have hsum : 0 ≤ start + bound.seconds := add_nonneg h bound.nonneg
    refine ⟨some ⟨start + bound.seconds, hsum⟩, ?_, rfl⟩
    rw [shift, tryFrom_of_nonneg hsum]

theorem observe_eq (rate : ℕ) (window : WhisperWindowV2) :
    ∃ incoming, observe rate window = .ok incoming ∧
      Forall₂ (Shifted rate window) window.spans incoming := by
  unfold observe
  induction window.spans with
  | nil => exact ⟨[], rfl, .nil⟩
  | cons span spans ih =>
    obtain ⟨incoming, heq, hshifted⟩ := ih
    obtain ⟨startS, hstart, hstartEq⟩ := shift_eq (start_nonneg window rate) span.startS
    obtain ⟨endS, hend, hendEq⟩ := shift_eq (start_nonneg window rate) span.endS
    refine ⟨⟨⟨span.text, startS, endS⟩, window.start rate, window.stop rate⟩ :: incoming, ?_,
      .cons ⟨rfl, hstartEq, hendEq, rfl, rfl⟩ hshifted⟩
    rw [mapM_cons, heq, hstart, hend]
    rfl

def Follows : List Observation → List WindowFold → List Observation → Prop
  | merged, [], final => final = merged
  | merged, f :: folds, final => f.before = merged ∧ Follows f.after folds final

structure Folds (rate : ℕ) (windows : List WhisperWindowV2) (merged : List Observation)
    (folds : List WindowFold) (final : List Observation) : Prop where
  follows : Follows merged folds final
  sound : ∀ f ∈ folds, f.Sound
  observed : List.Forall₂ (fun f window =>
    List.Forall₂ (Shifted rate window) window.spans (f.outcomes.map Prod.fst)) folds windows

theorem foldlM_folds (rate : ℕ) (windows : List WhisperWindowV2) :
    ∀ (n : ℕ) (merged : List Observation) (records : List SeamAmbiguity),
      ∃ folds final, (windows.zipIdx n).foldlM (foldWindow rate) (merged, records) =
          .ok (final, records ++ folds.flatMap WindowFold.seams) ∧
        Folds rate windows merged folds final := by
  induction windows with
  | nil =>
    intro n merged records
    refine ⟨[], merged, ?_, rfl, by simp, .nil⟩
    rw [flatMap_nil, append_nil]
    rfl
  | cons window windows ih =>
    intro n merged records
    obtain ⟨incoming, hobserve, hshifted⟩ := observe_eq rate window
    let f := windowFold (window.seamMs rate) n merged incoming
    obtain ⟨folds, final, hrest, hfolds⟩ := ih (n + 1) f.after (records ++ f.seams)
    refine ⟨f :: folds, final, ?_, ⟨rfl, hfolds.follows⟩, ?_, .cons ?_ hfolds.observed⟩
    · have hstep : foldWindow rate (merged, records) (window, n) =
          .ok (f.after, records ++ f.seams) := by
        rw [foldWindow, hobserve]
        rfl
      rw [zipIdx_cons, foldlM_cons, hstep, flatMap_cons, ← append_assoc]
      exact hrest
    · intro g hg
      obtain rfl | hg := mem_cons.mp hg
      · exact windowFold_sound _ _ merged incoming
      · exact hfolds.sound g hg
    · rw [show f.outcomes.map Prod.fst = incoming from map_fst_judge merged _ none incoming]
      exact hshifted

namespace Folds

variable {rate : ℕ} {windows : List WhisperWindowV2} {merged final : List Observation}
  {folds : List WindowFold}

theorem sublist (h : Folds rate windows merged folds final) :
    merged.Sublist final ∧ ∀ f ∈ folds, f.before.Sublist final ∧ f.after.Sublist final := by
  obtain ⟨hfollows, hsound, -⟩ := h
  induction folds generalizing merged with
  | nil =>
    cases hfollows
    exact ⟨Sublist.refl _, by simp⟩
  | cons f folds ih =>
    obtain ⟨rfl, hrest⟩ := hfollows
    obtain ⟨hafter, hlater⟩ := ih hrest (fun g hg => hsound g (mem_cons_of_mem f hg))
    have hbefore : f.before.Sublist final :=
      (hsound f mem_cons_self).merged.sublist_left.trans hafter
    refine ⟨hbefore, fun g hg => ?_⟩
    obtain rfl | hg := mem_cons.mp hg
    · exact ⟨hbefore, hafter⟩
    · exact hlater g hg

theorem accounting (h : Folds rate windows merged folds final) :
    final.length + (folds.flatMap WindowFold.seams).length +
        (folds.map (fun f => absorbed f.outcomes)).sum =
      merged.length + (windows.map (fun window => window.spans.length)).sum := by
  obtain ⟨hfollows, hsound, hobserved⟩ := h
  induction hobserved generalizing merged with
  | nil =>
    cases hfollows
    simp
  | @cons f window folds windows hshifted hobserved ih =>
    obtain ⟨rfl, hrest⟩ := hfollows
    have hlater := ih hrest (fun g hg => hsound g (mem_cons_of_mem f hg))
    have hone := (hsound f mem_cons_self).length_eq
    have hspans : window.spans.length = f.outcomes.length := by
      rw [hshifted.length_eq, length_map]
    simp only [flatMap_cons, length_append, map_cons, sum_cons]
    omega

theorem mem_before {before after : List WindowFold} {f : WindowFold}
    (h : Folds rate windows merged (before ++ f :: after) final) {old : Observation}
    (hold : old ∈ f.before) : old ∈ merged ∨ ∃ g ∈ before, old ∈ g.outcomes.map Prod.fst := by
  obtain ⟨hfollows, hsound, -⟩ := h
  induction before generalizing merged with
  | nil =>
    left
    rw [← hfollows.1]
    exact hold
  | cons g before ih =>
    obtain ⟨rfl, hrest⟩ := hfollows
    obtain hin | ⟨g', hg', hin⟩ :=
      ih hrest (fun g' hg' => hsound g' (mem_cons_of_mem g hg'))
    · -- it was merged before, or is new with `g`
      have hperm := (hsound g mem_cons_self).merged.perm
      obtain hin | hin := mem_append.mp (hperm.mem_iff.mp hin)
      · exact .inl hin
      · refine .inr ⟨g, mem_cons_self, ?_⟩
        obtain ⟨⟨observation, outcome⟩, ho, hsome⟩ := mem_filterMap.mp hin
        cases outcome with
        | novel =>
          cases hsome
          exact mem_map_of_mem ho
        | _ => cases hsome
    · exact .inr ⟨g', mem_cons_of_mem g hg', hin⟩

end Folds

theorem outcome_eq_novel {o : Observation × Outcome}
    (h : Judged merged o) (hnone : ∀ old ∈ merged, ¬Repeats old o.1) : o.2 = .novel := by
  obtain ⟨observation, outcome⟩ := o
  cases outcome with
  | novel => rfl
  | shared index =>
    obtain ⟨old, hold, hrepeats⟩ := h
    exact absurd hrepeats (hnone old (mem_of_getElem? hold))
  | ambiguous kept =>
    obtain ⟨old, hold, hrepeats, -⟩ := h
    exact absurd hrepeats (hnone old hold)

variable {outcomes : List (Observation × Outcome)}

theorem mem_novels {o : Observation × Outcome}
    (ho : o ∈ outcomes) (hnovel : o.2 = .novel) : o.1 ∈ novels outcomes := by
  refine mem_filterMap.mpr ⟨o, ho, ?_⟩
  simp [hnovel]

theorem novels_eq_of_all
    (h : ∀ o ∈ outcomes, o.2 = .novel) : novels outcomes = outcomes.map Prod.fst := by
  induction outcomes with
  | nil => rfl
  | cons o outcomes ih =>
    have hrest := ih (fun o' ho' => h o' (mem_cons_of_mem o ho'))
    have hhead := h o mem_cons_self
    obtain ⟨observation, outcome⟩ := o
    cases hhead
    rw [map_cons, ← hrest]
    rfl

structure Reconciliation (ws : WhisperWindowsV2) (out : Reconciled) (folds : List WindowFold)
    (final : List Observation) : Prop where
  spans : out.spans = final.map Observation.span
  seams : out.seams = folds.flatMap WindowFold.seams
  folded : Folds ws.sampleRateHz ws.windows [] folds final
  accounting : out.spans.length + out.seams.length +
    (folds.map (fun f => absorbed f.outcomes)).sum =
      (ws.windows.map (fun window => window.spans.length)).sum
  /-- a dropped span repeats one that was there before its window, and is in the output -/
  dropped : ∀ f ∈ folds, ∀ o ∈ f.outcomes, o.2 ≠ .novel →
    ∃ old ∈ f.before, Repeats old o.1 ∧ old.span ∈ out.spans
  kept : ∀ f ∈ folds, f.before.Sublist final
  untimed : ∀ f ∈ folds, ∀ o ∈ f.outcomes, o.1.span.startS = none ∨ o.1.span.endS = none →
    o.1.span ∈ out.spans
  apart : ∀ earlier window later, ws.windows = earlier ++ window :: later →
    (∀ v ∈ earlier, min (v.stop ws.sampleRateHz) (window.stop ws.sampleRateHz) ≤
      max (v.start ws.sampleRateHz) (window.start ws.sampleRateHz)) →
    ∃ placed, List.Forall₂ (Shifted ws.sampleRateHz window) window.spans placed ∧
      (placed.map Observation.span).Sublist out.spans

theorem forall₂_exists_left {α β : Type} {R : α → β → Prop} {as : List α} {bs : List β}
    (h : Forall₂ R as bs) {b : β} (hb : b ∈ bs) : ∃ a ∈ as, R a b := by
  induction h with
  | nil => cases hb
  | @cons a b' as bs hR _ ih =>
    obtain rfl | hb := mem_cons.mp hb
    · exact ⟨a, mem_cons_self, hR⟩
    · obtain ⟨a', ha', hR'⟩ := ih hb
      exact ⟨a', mem_cons_of_mem a ha', hR'⟩

namespace Folds

variable {ws : WhisperWindowsV2} {folds : List WindowFold} {final : List Observation}

variable {earlier later : List WhisperWindowV2}

theorem split {window : WhisperWindowV2}
    (h : Folds ws.sampleRateHz ws.windows [] folds final)
    (hwindows : ws.windows = earlier ++ window :: later) :
    ∃ before f after, folds = before ++ f :: after ∧
      Forall₂ (fun f v => Forall₂ (Shifted ws.sampleRateHz v) v.spans
        (f.outcomes.map Prod.fst)) before earlier ∧
      Forall₂ (Shifted ws.sampleRateHz window) window.spans (f.outcomes.map Prod.fst) := by
  have hobserved := h.observed
  rw [hwindows] at hobserved
  have hbefore := forall₂_take_append _ _ _ hobserved
  have hrest := forall₂_drop_append _ _ _ hobserved
  obtain ⟨f, after, hf, -, hdrop⟩ := forall₂_cons_right_iff.mp hrest
  refine ⟨folds.take earlier.length, f, after, ?_, hbefore, hf⟩
  rw [← hdrop, take_append_drop]

theorem kept_apart {window : WhisperWindowV2}
    (h : Folds ws.sampleRateHz ws.windows [] folds final)
    (hwindows : ws.windows = earlier ++ window :: later)
    (hapart : ∀ v ∈ earlier, min (v.stop ws.sampleRateHz) (window.stop ws.sampleRateHz) ≤
      max (v.start ws.sampleRateHz) (window.start ws.sampleRateHz)) :
    ∃ placed, Forall₂ (Shifted ws.sampleRateHz window) window.spans placed ∧ placed.Sublist final := by
  obtain ⟨before, f, after, rfl, hearlier, hf⟩ := h.split hwindows
  have hmem : f ∈ before ++ f :: after := by simp
  have hsound := h.sound f hmem
  refine ⟨f.outcomes.map Prod.fst, hf, ?_⟩
  have hnovel : ∀ o ∈ f.outcomes, o.2 = .novel := by
    intro o ho
    apply outcome_eq_novel (hsound.judged o ho)
    intro old hold
    apply not_repeats_of_apart
    -- the two observations have the bounds of their windows
    obtain ⟨span, -, hshifted⟩ := forall₂_exists_left hf (mem_map_of_mem ho)
    obtain hin | ⟨g, hg, hin⟩ := h.mem_before hold
    · cases hin
    · obtain ⟨v, hv, hg⟩ := forall₂_exists_left hearlier.flip hg
      obtain ⟨span', -, hshifted'⟩ := forall₂_exists_left hg hin
      rw [hshifted.windowStart, hshifted.windowEnd, hshifted'.windowStart, hshifted'.windowEnd]
      exact hapart v hv
  rw [← novels_eq_of_all hnovel]
  exact hsound.merged.sublist_right.trans (h.sublist.2 f hmem).2

end Folds

/-- A single list stays as it is. Over windows every span is in the output, absorbed, or recorded at a
  seam, where a dropped one repeats one in the output; new and merged spans keep their order. -/
theorem reconcile_spec : (∀ spans, reconcile (.monolithic spans) = .ok ⟨spans, []⟩) ∧
    ∀ ws, ∃ out folds final, reconcile (.windows ws) = .ok out ∧
      Reconciliation ws out folds final := by
  refine ⟨fun spans => rfl, fun ws => ?_⟩
  obtain ⟨folds, final, heq, hfolds⟩ := foldlM_folds ws.sampleRateHz ws.windows 0 [] []
  have hkept := hfolds.sublist.2
  refine ⟨⟨final.map Observation.span, folds.flatMap WindowFold.seams⟩, folds, final, ?_,
    rfl, rfl, hfolds, ?_, ?_, fun f hf => (hkept f hf).1, ?_, ?_⟩
  · rw [reconcile, heq]
    rfl
  · have haccounting := hfolds.accounting
    rwa [length_nil, zero_add, ← length_map Observation.span] at haccounting
  · intro f hf o ho hne
    have hjudged := (hfolds.sound f hf).judged o ho
    obtain ⟨old, hold, hrepeats⟩ : ∃ old ∈ f.before, Repeats old o.1 := by
      by_contra hnone
      push Not at hnone
      exact hne (outcome_eq_novel hjudged hnone)
    exact ⟨old, hold, hrepeats, mem_map_of_mem ((hkept f hf).1.mem hold)⟩
  · intro f hf o ho huntimed
    have hsound := hfolds.sound f hf
    have hnovel : o.2 = .novel := by
      apply outcome_eq_novel (hsound.judged o ho)
      rintro old - ⟨-, -, a, b, c, d, -, -, hc, hd, -⟩
      obtain hnone | hnone := huntimed
      · rw [hnone] at hc
        cases hc
      · rw [hnone] at hd
        cases hd
    exact mem_map_of_mem ((hkept f hf).2.mem
      (hsound.merged.sublist_right.mem (mem_novels ho hnovel)))
  · intro earlier window later hwindows hapart
    obtain ⟨placed, hplaced, hsub⟩ := hfolds.kept_apart hwindows hapart
    exact ⟨placed, hplaced, hsub.map Observation.span⟩

def tenths (n : ℕ) : AudioPositionSeconds := ⟨n / 10, by positivity⟩

/-- Two windows of two seconds, the second a second after the first; both hear `there`. -/
def twoWindows : WhisperWindowsV2 where
  sampleRateHz := 16000
  rate_pos := by decide
  windows :=
    [⟨0, 32000, 0, 8000, [⟨"hi", some (tenths 5), some (tenths 10)⟩, ⟨"there", some (tenths 12), some (tenths 18)⟩]⟩,
      ⟨16000, 32000, 8000, 0, [⟨"there", some (tenths 2), some (tenths 8)⟩, ⟨"you", some (tenths 10), some (tenths 15)⟩]⟩]

-- the second `there` is heard again and absorbed, `you` is new
example : (do
    let merged ← observe 16000 (twoWindows.windows.head (by decide))
    let incoming ← observe 16000 (twoWindows.windows.getLast (by decide))
    return match plan (judge merged [false, false] none incoming) with
      | [.shared 1, .novel _] => true
      | _ => false).toOption = some true := by
  decide +kernel

end Batchalign.Worker
