import Batchalign.Lib.Numbered
import Batchalign.Fa.ResourcePartition

/- What a plan makes of a request. `Selected` says which stretch of words and window a request is,
   `Occupies` what a part owns. The parts of a plan tile the original (`Tiles`). -/
namespace Batchalign.Fa
open Recorded Numbering List

variable {R : Recording} {S P E : Type}

/-- A request: words of one utterance in order, numbered without gaps. -/
structure SourceRequest (R : Recording) extends ResourceRequest R where
  numbered : Numbered FaWord.utteranceWordIndex words.firstWord words.words

namespace NonEmptyWords

variable {w : NonEmptyWords} {f : ℕ}

theorem length_pos (w : NonEmptyWords) : 0 < w.words.length := length_pos_iff.mpr w.nonempty

theorem firstWord_eq (h : Numbered FaWord.utteranceWordIndex f w.words) : w.firstWord = f := by
  unfold firstWord
  rw [head_eq_getElem]
  exact h 0 w.length_pos

theorem numbered_firstWord (h : Numbered FaWord.utteranceWordIndex f w.words) :
    Numbered FaWord.utteranceWordIndex w.firstWord w.words := by
  rwa [firstWord_eq h]

theorem lastWord_eq (h : Numbered FaWord.utteranceWordIndex f w.words) :
    w.lastWord = f + w.words.length - 1 := by
  have hpos := w.length_pos
  unfold lastWord
  rw [getLast_eq_getElem, h _ (by omega)]
  omega

theorem fromVec_eq_some {words : List FaWord} (h : words ≠ []) : fromVec words = some ⟨words, h⟩ := by
  unfold fromVec
  rw [dif_pos h]

end NonEmptyWords

theorem faWordsOf_numbered (env : GroupingEnv) (utteranceIdx : ℕ) (u : Utterance) :
    Numbered FaWord.utteranceWordIndex 0 (faWordsOf env utteranceIdx u) := by
  intro i hi
  simp [faWordsOf]

/-- `ResourceRequest::from_recorded`, for an utterance with words. -/
def SourceRequest.fromRecorded (env : GroupingEnv) (utteranceIdx : ℕ) (u : Utterance)
    (window : FaWindow R) (hwords : faWordsOf env utteranceIdx u ≠ []) : SourceRequest R where
  utterance := utteranceIdx
  words := ⟨faWordsOf env utteranceIdx u, hwords⟩
  window := window
  numbered := NonEmptyWords.numbered_firstWord (faWordsOf_numbered env utteranceIdx u)

section Selection
variable (original : SourceRequest R)

def SourceRequest.stopWord : ℕ := original.words.firstWord + original.words.words.length

/-- The original's words from number `a` up to `b`. -/
def SourceRequest.wordsFrom (a b : ℕ) : List FaWord := slice original.words.words original.words.firstWord a b

/-- `r` is the words `a` up to `b` of the original, over its audio from `s` to `e`. -/
structure Selected (r : ResourceRequest R) (a s b e : ℕ) : Prop where
  lower : original.words.firstWord ≤ a
  increasing : a < b
  upper : b ≤ original.stopWord
  words : r.words.words = original.wordsFrom a b
  startMs : r.window.startMs = s
  endMs : r.window.endMs = e
  early : original.window.startMs ≤ s
  late : e ≤ original.window.endMs

end Selection

variable {original : SourceRequest R} {r : ResourceRequest R} {a s b e : ℕ}

section
variable (original : SourceRequest R)

theorem SourceRequest.lastWord_eq : original.words.lastWord + 1 = original.stopWord := by
  have hpos := original.words.length_pos
  unfold stopWord
  rw [NonEmptyWords.lastWord_eq original.numbered]
  omega

theorem SourceRequest.length_wordsFrom (ha : original.words.firstWord ≤ a)
    (hb : b ≤ original.stopWord) : (original.wordsFrom a b).length = b - a := length_slice ha hb

theorem SourceRequest.wordsFrom_numbered (ha : original.words.firstWord ≤ a) :
    Numbered FaWord.utteranceWordIndex a (original.wordsFrom a b) := original.numbered.of_slice ha

theorem Selected.whole :
    Selected original original.toResourceRequest original.words.firstWord original.window.startMs original.stopWord
      original.window.endMs where
  lower := le_refl _
  increasing := Nat.lt_add_of_pos_right original.words.length_pos
  upper := le_refl _
  words := slice_self.symm
  startMs := rfl
  endMs := rfl
  early := le_refl _
  late := le_refl _

end

namespace Selected

section
variable (h : Selected original r a s b e)
include h

theorem numbered : Numbered FaWord.utteranceWordIndex a r.words.words := by
  rw [h.words]
  exact original.wordsFrom_numbered h.lower

theorem length : r.words.words.length = b - a := by
  rw [h.words]
  exact original.length_wordsFrom h.lower h.upper

theorem firstWord : r.words.firstWord = a :=
  NonEmptyWords.firstWord_eq h.numbered

theorem lastWord : r.words.lastWord + 1 = b := by
  have hinc := h.increasing
  rw [NonEmptyWords.lastWord_eq h.numbered, h.length]
  omega

end

end Selected

theorem selection_selected (original : SourceRequest R) (hlow : original.words.firstWord ≤ a) (hab : a < b) (hup : b ≤ original.stopWord)
    (hearly : original.window.startMs ≤ s) (hse : s < e) (hlate : e ≤ original.window.endMs) :
    ∃ r, original.toResourceRequest.selection a (b - 1) s e = some r ∧ Selected original r a s b e := by
  have hlast := original.lastWord_eq
  have hin := original.window.inside
  have hwords : (original.words.words.filter fun word =>
      a ≤ word.utteranceWordIndex ∧ word.utteranceWordIndex ≤ b - 1) = original.wordsFrom a b := by
    apply original.numbered.filter_eq_slice hlow (le_of_lt hab) hup
    intro word
    simp only [decide_eq_true_eq]
    omega
  have hne : original.wordsFrom a b ≠ [] := by
    rw [← length_pos_iff, original.length_wordsFrom hlow hup]
    omega
  have hwithin : FaWindow.within R s e = .ok ⟨s, e, hse, le_trans hlate hin⟩ := by
    unfold FaWindow.within
    rw [dif_pos hse, dif_pos (le_trans hlate hin)]
  refine ⟨⟨original.utterance, ⟨original.wordsFrom a b, hne⟩, ⟨s, e, hse, le_trans hlate hin⟩⟩, ?_, ?_⟩
  · unfold ResourceRequest.selection
    rw [if_neg (by omega), hwithin]
    simp only [hwords, NonEmptyWords.fromVec_eq_some hne]
  · exact ⟨hlow, hab, hup, rfl, rfl, rfl, hearly, hlate⟩

theorem split_selected (h : Selected original r a s b e) {cut : SourceCut} (hfirst : r.words.firstWord ≤ cut.word)
    (hlast : cut.word < r.words.lastWord) (hstart : r.window.startMs < cut.atMs) (hend : cut.atMs < r.window.endMs) :
    ∃ head tail, r.split cut = some (head, tail) ∧ Selected original head a s (cut.word + 1) cut.atMs ∧
      Selected original tail (cut.word + 1) cut.atMs b e := by
  have ha := h.firstWord
  have hb := h.lastWord
  have hlen := h.length
  have hup := h.upper
  have hlow := h.lower
  rw [h.startMs] at hstart
  rw [h.endMs] at hend
  have hcut : (r.words.words.findIdx? fun candidate => decide (cut.word < candidate.utteranceWordIndex)).getD
      r.words.words.length = cut.word + 1 - a :=
    h.numbered.findIdx?_lt (by omega) (by omega)
  have htake : r.words.words.take (cut.word + 1 - a) = original.wordsFrom a (cut.word + 1) := by
    rw [h.words]
    exact take_slice (by omega)
  have hdrop : r.words.words.drop (cut.word + 1 - a) = original.wordsFrom (cut.word + 1) b := by
    rw [h.words]
    exact drop_slice hlow (by omega)
  have hheadne : r.words.words.take (cut.word + 1 - a) ≠ [] := by
    rw [← length_pos_iff, length_take]
    omega
  have htailne : r.words.words.drop (cut.word + 1 - a) ≠ [] := by
    rw [← length_pos_iff, length_drop]
    omega
  have hwords : r.words.splitAfter cut.word = some (⟨_, hheadne⟩, ⟨_, htailne⟩) := by
    unfold NonEmptyWords.splitAfter
    simp only [hcut, NonEmptyWords.fromVec_eq_some hheadne, NonEmptyWords.fromVec_eq_some htailne]
  have hinside : r.window.startMs < cut.atMs ∧ cut.atMs < r.window.endMs := by
    rw [h.startMs, h.endMs]
    exact ⟨hstart, hend⟩
  have hearly := h.early
  have hlate := h.late
  refine ⟨⟨r.utterance, ⟨_, hheadne⟩, ⟨r.window.startMs, cut.atMs, hinside.1,
      le_trans (le_of_lt hinside.2) r.window.inside⟩⟩,
    ⟨r.utterance, ⟨_, htailne⟩, ⟨cut.atMs, r.window.endMs, hinside.2, r.window.inside⟩⟩, ?_, ?_, ?_⟩
  · unfold ResourceRequest.split FaWindow.splitAt
    rw [dif_pos hinside, hwords]
  · exact ⟨hlow, by omega, by omega, htake, h.startMs, rfl, hearly, by omega⟩
  · exact ⟨by omega, by omega, hup, hdrop, rfl, h.endMs, by omega, hlate⟩

/-! ## What a part owns -/

def PreparedResourcePart.ownedWords : PreparedResourcePart R P → List FaWord
  | .request piece => piece.source.ownedWords
  | .unavailable limited => limited.request.words.words

def PreparedResourcePart.requestWindow : PreparedResourcePart R P → FaWindow R
  | .request piece => piece.source.window
  | .unavailable limited => limited.request.window

def PreparedResourcePart.Answered (record : List (Exchange R P)) : PreparedResourcePart R P → Prop
  | .request piece => ⟨piece.source.words.words, piece.source.window, piece.prepared⟩ ∈ record
  | .unavailable _ => True

/-- `part` owns the words `a` up to `b` of the original and its audio from `s` to `e`. -/
structure Occupies (original : SourceRequest R) (record : List (Exchange R P)) (part : PreparedResourcePart R P)
    (a s b e : ℕ) : Prop where
  lower : original.words.firstWord ≤ a
  increasing : a < b
  upper : b ≤ original.stopWord
  first : part.ownership.first = a
  last : part.ownership.last + 1 = b
  startMs : part.ownership.window.startMs = s
  endMs : part.ownership.window.endMs = e
  words : part.ownedWords = original.wordsFrom a b
  early : original.window.startMs ≤ part.requestWindow.startMs
  late : part.requestWindow.endMs ≤ original.window.endMs
  opens : part.requestWindow.startMs ≤ s
  closes : e ≤ part.requestWindow.endMs
  answered : part.Answered record

/-- The parts own one stretch after another, from `(a, s)` to `(b, e)`. -/
def Tiles (original : SourceRequest R) (record : List (Exchange R P)) :
    ℕ → ℕ → List (PreparedResourcePart R P) → ℕ → ℕ → Prop
  | a, s, [], b, e => a = b ∧ s = e
  | a, s, part :: parts, b, e => ∃ m t, Occupies original record part a s m t ∧ Tiles original record m t parts b e

variable {record grown : List (Exchange R P)} {part : PreparedResourcePart R P} {m t : ℕ}

theorem PreparedResourcePart.Answered.mono (h : part.Answered record) (hrecord : record <+: grown) :
    part.Answered grown := by
  cases part with
  | request piece => exact hrecord.subset h
  | unavailable limited => exact h

namespace Occupies

section
variable (h : Occupies original record part a s b e)
include h

theorem mono (hrecord : record <+: grown) : Occupies original grown part a s b e :=
  { h with answered := h.answered.mono hrecord }

theorem window_positive : s < e := by
  have hpos := part.ownership.window.positive
  rw [h.startMs, h.endMs] at hpos
  exact hpos

theorem start_inside : original.window.startMs ≤ s :=
  le_trans h.early h.opens

theorem end_inside : e ≤ original.window.endMs :=
  le_trans h.closes h.late

end

theorem of_unavailable {limited : LimitedRequest R} (h : Selected original limited.request a s b e) :
    Occupies original record (.unavailable limited) a s b e where
  lower := h.lower
  increasing := h.increasing
  upper := h.upper
  first := h.firstWord
  last := h.lastWord
  startMs := h.startMs
  endMs := h.endMs
  words := h.words
  early := h.startMs ▸ h.early
  late := h.endMs ▸ h.late
  opens := Nat.le_of_eq h.startMs
  closes := Nat.le_of_eq h.endMs.symm
  answered := trivial

theorem selected {limited : LimitedRequest R} (h : Occupies original record (.unavailable limited) a s b e) :
    Selected original limited.request a s b e where
  lower := h.lower
  increasing := h.increasing
  upper := h.upper
  words := h.words
  startMs := h.startMs
  endMs := h.endMs
  early := h.startMs ▸ h.early
  late := h.endMs ▸ h.late

theorem of_request {artifact : P} (h : Selected original r a s b e)
    (hanswer : ⟨r.words.words, r.window, artifact⟩ ∈ record) :
    Occupies original record (.request ⟨.new r.words r.window, artifact⟩) a s b e where
  lower := h.lower
  increasing := h.increasing
  upper := h.upper
  first := h.firstWord
  last := by
    have hlen := h.length
    have hinc := h.increasing
    show r.words.firstWord + r.words.words.length - 1 + 1 = b
    rw [h.firstWord]
    omega
  startMs := h.startMs
  endMs := h.endMs
  words := by
    show (r.words.words.drop 0).take (r.words.words.length - 0) = _
    rw [drop_zero, Nat.sub_zero, take_length, h.words]
  early := h.startMs ▸ h.early
  late := h.endMs ▸ h.late
  opens := Nat.le_of_eq h.startMs
  closes := Nat.le_of_eq h.endMs.symm
  answered := hanswer

end Occupies

namespace Tiles

variable {parts more : List (PreparedResourcePart R P)}

theorem mono (h : Tiles original record a s parts b e) (hrecord : record <+: grown) :
    Tiles original grown a s parts b e := by
  induction parts generalizing a s with
  | nil => exact h
  | cons part parts ih =>
    obtain ⟨m, t, hpart, hrest⟩ := h
    exact ⟨m, t, hpart.mono hrecord, ih hrest⟩

theorem append (h : Tiles original record a s parts m t) (hmore : Tiles original record m t more b e) :
    Tiles original record a s (parts ++ more) b e := by
  induction parts generalizing a s with
  | nil =>
    obtain ⟨rfl, rfl⟩ := h
    exact hmore
  | cons part parts ih =>
    obtain ⟨n, u, hpart, hrest⟩ := h
    exact ⟨n, u, hpart, ih hrest⟩

theorem of_append (h : Tiles original record a s (parts ++ more) b e) :
    ∃ m t, Tiles original record a s parts m t ∧ Tiles original record m t more b e := by
  induction parts generalizing a s with
  | nil => exact ⟨a, s, ⟨rfl, rfl⟩, h⟩
  | cons part parts ih =>
    obtain ⟨n, u, hpart, hrest⟩ := h
    obtain ⟨m, t, hparts, hmore⟩ := ih hrest
    exact ⟨m, t, ⟨n, u, hpart, hparts⟩, hmore⟩

theorem single (h : Occupies original record part a s b e) : Tiles original record a s [part] b e :=
  ⟨b, e, h, rfl, rfl⟩

theorem of_single (h : Tiles original record a s [part] b e) : Occupies original record part a s b e := by
  obtain ⟨m, t, hpart, rfl, rfl⟩ := h
  exact hpart

theorem le (h : Tiles original record a s parts b e) : a ≤ b ∧ s ≤ e := by
  induction parts generalizing a s with
  | nil => exact ⟨Nat.le_of_eq h.1, Nat.le_of_eq h.2⟩
  | cons part parts ih =>
    obtain ⟨m, t, hpart, hrest⟩ := h
    have hle := ih hrest
    have hword := hpart.increasing
    have hinstant := hpart.window_positive
    omega

end Tiles

/-! ## Asking the probe -/

variable {probe : ResourceProbe R S P E}

def FromProbe (error : ResourcePlanError E) : Prop := ∃ e, error = .probe e

theorem askProbe_run (probe : ResourceProbe R S P E) (words : List FaWord) (window : FaWindow R) (state : S)
    (record : List (Exchange R P)) : (askProbe probe words window).run ⟨state, record⟩ =
      match probe.prepare state words window with
      | (.error error, _) => .error (.probe error)
      | (.ok (.prepared artifact), after) =>
        .ok (.prepared artifact, ⟨after, record ++ [⟨words, window, artifact⟩]⟩)
      | (.ok (.limited constraint), after) => .ok (.limited constraint, ⟨after, record⟩) := rfl

theorem askProbe_yields (probe : ResourceProbe R S P E) (words : List FaWord) (window : FaWindow R) :
    Yields FromProbe (askProbe probe words window) record fun outcome grown =>
      ∀ artifact, outcome = .prepared artifact → ⟨words, window, artifact⟩ ∈ grown := by
  intro state
  rw [askProbe_run]
  obtain ⟨answer, after⟩ := probe.prepare state words window
  cases answer with
  | error error => exact ⟨error, rfl⟩
  | ok outcome =>
    cases outcome with
    | prepared artifact =>
      refine ⟨prefix_append _ _, ?_⟩
      intro other hother
      cases hother
      exact mem_append_right _ (mem_singleton.mpr rfl)
    | limited constraint =>
      refine ⟨prefix_refl _, ?_⟩
      intro other hother
      cases hother

theorem orInvalidCut_yields {α : Type} {Q : α → List (Exchange R P) → Prop} {found : Option α} {value : α}
    (hfound : found = some value) (hQ : Q value record) :
    Yields FromProbe (orInvalidCut found : Plan R S P E α) record Q := by
  subst hfound
  exact Yields.pure hQ

theorem prepare_yields (h : Selected original r a s b e) :
    Yields FromProbe (r.prepare probe) record fun admission grown =>
      match admission with
      | .prepared piece => Occupies original grown (.request piece) a s b e
      | .limited limited => limited.request = r := by
  apply Yields.bind (askProbe_yields probe r.words.words r.window)
  intro outcome grown _ hanswer
  cases outcome with
  | prepared artifact => exact Yields.pure (Occupies.of_request h (hanswer artifact rfl))
  | limited constraint => exact Yields.pure rfl

end Batchalign.Fa
