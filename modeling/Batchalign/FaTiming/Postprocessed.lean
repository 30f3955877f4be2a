import Batchalign.FaTiming.Postprocess

/- What postprocessing leaves of the injected timings. An unchanged origin stands on the value it went in
   with (`BoundaryTrace`). What each pass leaves of a word is listed in the order they run
   (`passOutputs`), and a boundary that moved names the last of them that moved it. -/
namespace Batchalign.FaTiming
open Fa List

/-! ## Origins -/

namespace Origin

def depth : Origin → ℕ
  | clampedTo _ was _ _ => was.depth + 1
  | rebalancedWithNeighbour was _ => was.depth + 1
  | attributedByCharAlignment was _ => was.depth + 1
  | _ => 0

def Supplied : Origin → Prop
  | clampedTo _ was _ _ => was.Supplied
  | rebalancedWithNeighbour was _ => was.Supplied
  | attributedByCharAlignment was _ => was.Supplied
  | derivedFromNextOnset => True
  | inheritedFromNeighbour _ => True
  | fallbackDuration _ => True
  | _ => False

end Origin

inductive BoundaryPass where
  | nextOnset
  | inheritedBullet
  | fallback
  | rebalance
  | utteranceBullet
  | requestWindow

def Origin.pass : Origin → Option BoundaryPass
  | .derivedFromNextOnset => some .nextOnset
  | .inheritedFromNeighbour _ => some .inheritedBullet
  | .fallbackDuration _ => some .fallback
  | .clampedTo .nextOnset _ _ _ => some .fallback
  | .rebalancedWithNeighbour _ _ => some .rebalance
  | .clampedTo .utteranceBullet _ _ _ => some .utteranceBullet
  | .clampedTo .requestStart _ _ _ => some .requestWindow
  | .clampedTo .requestEnd _ _ _ => some .requestWindow
  | _ => none

inductive BoundaryTrace (replaceable : Prop) (value : ℕ) (origin : Origin) : ℕ → Origin → Prop where
  | injected : BoundaryTrace replaceable value origin value origin
  | clamped {v : ℕ} {o : Origin} (before : BoundaryTrace replaceable value origin v o) (bound : ClampBound)
      (now overshoot : ℕ) :
      BoundaryTrace replaceable value origin now (.clampedTo bound o v overshoot)
  | rebalanced {v : ℕ} {o : Origin} (before : BoundaryTrace replaceable value origin v o) (now : ℕ) :
      BoundaryTrace replaceable value origin now (.rebalancedWithNeighbour o v)
  | replaced (can : replaceable) (now : ℕ) (o : Origin) (hsupplied : o.Supplied) :
      BoundaryTrace replaceable value origin now o

namespace BoundaryTrace

variable {replaceable : Prop} {value v : ℕ} {origin o : Origin}

section
variable (h : BoundaryTrace replaceable value origin v o)
include h

theorem cases_depth : (v = value ∧ o = origin) ∨ origin.depth < o.depth ∨ (replaceable ∧ o.Supplied) := by
  induction h with
  | injected => exact .inl ⟨rfl, rfl⟩
  | clamped before bound now overshoot ih =>
    rcases ih with ⟨_, rfl⟩ | hdeeper | hsupplied
    · exact .inr (.inl (Nat.lt_succ_self _))
    · exact .inr (.inl (Nat.lt_succ_of_lt hdeeper))
    · exact .inr (.inr hsupplied)
  | rebalanced before now ih =>
    rcases ih with ⟨_, rfl⟩ | hdeeper | hsupplied
    · exact .inr (.inl (Nat.lt_succ_self _))
    · exact .inr (.inl (Nat.lt_succ_of_lt hdeeper))
    · exact .inr (.inr hsupplied)
  | replaced can now o hsupplied => exact .inr (.inr ⟨can, hsupplied⟩)

theorem same_value (hsame : o = origin) (hown : replaceable → ¬ origin.Supplied) : v = value := by
  rcases h.cases_depth with ⟨hv, _⟩ | hdeeper | ⟨can, hsupplied⟩
  · exact hv
  · rw [hsame] at hdeeper
    exact absurd hdeeper (lt_irrefl _)
  · rw [hsame] at hsupplied
    exact absurd hsupplied (hown can)

end

end BoundaryTrace

/-! ## One word -/

structure Derived (t : WordTiming) (p : PendingTiming) : Prop where
  window : p.requestWindow = t.requestWindow
  score : p.modelScore = t.modelScore
  start : BoundaryTrace False t.startMs t.startOrigin p.span.startMs p.startOrigin
  stop : BoundaryTrace True t.endMs t.endOrigin p.span.endMs p.endOrigin

namespace Derived

variable {t : WordTiming} {p : PendingTiming}

theorem fromAligned (t : WordTiming) : Derived t (.fromAligned t) := ⟨rfl, rfl, .injected, .injected⟩

section
variable (h : Derived t p)
include h

theorem withEnd (endMs : ℕ) {origin : Origin} (hsupplied : origin.Supplied) : Derived t (p.withEnd endMs origin) :=
  ⟨h.window, h.score, h.start, .replaced trivial endMs origin hsupplied⟩

theorem remeasured (span : TimeSpan) {why : MovedBoundary → Origin}
    (hwhy : ∀ (replaceable : Prop) (value : ℕ) (origin : Origin) (moved : MovedBoundary),
      BoundaryTrace replaceable value origin moved.original moved.was →
        BoundaryTrace replaceable value origin moved.now (why moved)) :
    Derived t (p.remeasured span why) := by
  refine ⟨h.window, h.score, ?_, ?_⟩
  · show BoundaryTrace False t.startMs t.startOrigin span.startMs (if _ then _ else _)
    split_ifs with hsame
    · rw [hsame]
      exact h.start
    · exact hwhy False _ _ ⟨p.startOrigin, p.span.startMs, span.startMs⟩ h.start
  · show BoundaryTrace True t.endMs t.endOrigin span.endMs (if _ then _ else _)
    split_ifs with hsame
    · rw [hsame]
      exact h.stop
    · exact hwhy True _ _ ⟨p.endOrigin, p.span.endMs, span.endMs⟩ h.stop

theorem rebalanced (span : TimeSpan) : Derived t (p.remeasured span rebalancedWithNeighbour) :=
  h.remeasured span fun _ _ _ moved before => before.rebalanced moved.now

theorem clampedToBullet {startMs endMs : ℕ} {q : PendingTiming}
    (hq : p.clampedToBullet startMs endMs = some q) : Derived t q := by
  unfold PendingTiming.clampedToBullet at hq
  split_ifs at hq
  cases hq
  apply h.remeasured
  intro _ _ _ moved before
  exact before.clamped .utteranceBullet moved.now moved.distance

theorem contained : Derived t p.contained := by
  unfold PendingTiming.contained
  split
  · exact h
  · next window hwindow =>
    refine ⟨h.window, h.score, ?_, ?_⟩
    · dsimp only
      split_ifs with hlt
      · rw [max_eq_right hlt.le]
        exact h.start.clamped .requestStart window.startMs _
      · rw [max_eq_left (Nat.le_of_not_lt hlt)]
        exact h.start
    · dsimp only
      split_ifs with hlt
      · rw [min_eq_right hlt.le]
        exact h.stop.clamped .requestEnd window.endMs _
      · rw [min_eq_left (Nat.le_of_not_lt hlt)]
        exact h.stop

end

end Derived

/-- A kept timing lies in its window, keeps its score, and where its origin is the one it came with, its value.
-/
structure KeptTiming (t t' : WordTiming) : Prop where
  window : t'.requestWindow = t.requestWindow
  inside : ∀ window, t'.requestWindow = some window → window.startMs ≤ t'.startMs ∧ t'.endMs ≤ window.endMs
  score : t'.modelScore = t.modelScore
  startSame : t'.startOrigin = t.startOrigin → t'.startMs = t.startMs
  endSame : t'.endOrigin = t.endOrigin → ¬ t.endOrigin.Supplied → t'.endMs = t.endMs

theorem PendingTiming.contained_inside (p : PendingTiming) {window : RequestWindow} (h : p.contained.requestWindow = some window) :
    window.startMs ≤ p.contained.span.startMs ∧ p.contained.span.endMs ≤ window.endMs := by
  unfold PendingTiming.contained at h ⊢
  split at h
  · next hnone =>
    rw [hnone] at h
    cases h
  · next own hown =>
    cases hown.symm.trans h
    exact ⟨le_max_right _ _, min_le_right _ _⟩

variable {p : PendingTiming}

theorem Derived.settle {t t' : WordTiming} (h : Derived t p) (hsettled : p.settle.toOption = some t') :
    KeptTiming t t' := by
  have hcontained := h.contained
  unfold PendingTiming.settle at hsettled
  dsimp only at hsettled
  split_ifs at hsettled with hpos
  · cases hsettled
    refine ⟨hcontained.window, fun window hwindow => p.contained_inside hwindow, hcontained.score, ?_, ?_⟩
    · exact fun hsame => hcontained.start.same_value hsame fun hfalse => hfalse.elim
    · exact fun hsame hown => hcontained.stop.same_value hsame fun _ => hown
  · cases hsettled

/-! ## Healing -/

/-- A slot and the timing injected for its word: both or neither, and it has an extent. -/
def Carries (t : Option WordTiming) (slot : WordSlot) : Prop :=
  Option.Rel (fun t p => Derived t p ∧ p.span.startMs < p.span.endMs) t slot.timing

section Passes
variable {ts : List (Option WordTiming)} {slots : List WordSlot} {t s : Option WordTiming} {a b : WordSlot}

theorem Carries.map (h : Carries t a) {f : PendingTiming → PendingTiming}
    (hf : ∀ t p, Derived t p → p.span.startMs < p.span.endMs → Derived t (f p) ∧ (f p).span.startMs < (f p).span.endMs) :
    Carries t { a with timing := a.timing.map f } := by
  unfold Carries at h ⊢
  generalize a.timing = timing at h
  cases h with
  | none => exact .none
  | some hp => exact .some (hf _ _ hp.1 hp.2)

theorem wordSlots_carries (B : WorBinding) (u : Utterance) (hwords : ts.length = (wordLeaves u.content).length) :
    Forall₂ Carries ts (wordSlots B u ts) := by
  unfold wordSlots
  generalize wordLeaves u.content = ws at hwords
  induction ts generalizing ws with
  | nil => exact .nil
  | cons t ts ih =>
    cases ws with
    | nil => cases hwords
    | cons w ws =>
      refine .cons ?_ (ih ws (Nat.succ.inj hwords))
      cases t with
      | none => exact .none
      | some t => exact .some ⟨.fromAligned t, t.extent⟩

theorem extendLast_carries (boundary : TimeSpan) (h : Forall₂ Carries ts slots) :
    Forall₂ Carries ts (extendLast boundary slots) := by
  induction h with
  | nil => exact .nil
  | cons hhead htail ih =>
    unfold extendLast
    split_ifs
    · exact .cons hhead ih
    · refine .cons (hhead.map ?_) htail
      intro t p hderived hpos
      unfold extendDerivedEnd
      split_ifs with hroom
      · exact ⟨hderived.withEnd _ trivial, hroom.1⟩
      · exact ⟨hderived, hpos⟩

theorem healWord_derived {spanMs : Option ℕ} {next : NextWord} {t : WordTiming} (h : Derived t p)
    (hpos : p.span.startMs < p.span.endMs) : Derived t (healWord spanMs a p next) ∧
      (healWord spanMs a p next).span.startMs < (healWord spanMs a p next).span.endMs := by
  unfold healWord
  split_ifs with hfill hroom hzero
  · exact ⟨h.withEnd _ trivial, hroom⟩
  · exact ⟨h, hpos⟩
  · omega
  · exact ⟨h, hpos⟩

theorem healBackward_carries (spanMs : Option ℕ) (h : Forall₂ Carries ts slots) :
    Forall₂ Carries ts (healBackward spanMs slots).1 := by
  induction h with
  | nil => exact .nil
  | @cons t slot ts slots hhead htail ih =>
    unfold healBackward
    cases htiming : slot.timing with
    | none => exact .cons hhead ih
    | some p =>
      refine .cons ?_ ih
      unfold Carries at hhead ⊢
      rw [htiming] at hhead
      cases hhead with
      | some hp =>
        apply Option.Rel.some
        split
        · exact hp
        · exact healWord_derived hp.1 hp.2

theorem closeGaps_carries (policy : WordEndPolicy) (boundary : Option TimeSpan) (spanMs : Option ℕ)
    (h : Forall₂ Carries ts slots) : Forall₂ Carries ts (closeGaps policy boundary spanMs slots) := by
  apply healBackward_carries
  split_ifs
  · split
    · exact extendLast_carries _ h
    · exact h
  · exact h

/-! ## Rebalancing -/

def SharedMove (a b a' b' : WordSlot) : Prop :=
  ∃ p q p' q', a.timing = some p ∧ b.timing = some q ∧ a'.timing = some p' ∧ b'.timing = some q' ∧
    p.span.endMs = q.span.startMs ∧ p'.span.endMs = q'.span.startMs ∧
    p'.span.startMs = p.span.startMs ∧ q'.span.endMs = q.span.endMs ∧
    minHealableWordDurationMs ≤ p'.durationMs ∧ minHealableWordDurationMs ≤ q'.durationMs

def BoundaryMoved (slots slots' : List WordSlot) : Prop :=
  ∃ before a b a' b' after, slots = before ++ a :: b :: after ∧ slots' = before ++ a' :: b' :: after ∧
    SharedMove a b a' b'

def PairStep (step : WordSlot → WordSlot → WordSlot × WordSlot) : Prop :=
  ∀ t s a b, Carries t a → Carries s b → Carries t (step a b).1 ∧ Carries s (step a b).2 ∧
    (step a b = (a, b) ∨ SharedMove a b (step a b).1 (step a b).2)

theorem moveBoundary_pair {p q : PendingTiming} (boundaryMs : ℕ) (ha : a.timing = some p) (hb : b.timing = some q)
    (hta : Carries t a) (hsb : Carries s b) (habut : p.span.endMs = q.span.startMs)
    (hleft : p.span.startMs + minHealableWordDurationMs ≤ boundaryMs)
    (hright : boundaryMs + minHealableWordDurationMs ≤ q.span.endMs) :
    Carries t (moveBoundary a b p q boundaryMs).1 ∧ Carries s (moveBoundary a b p q boundaryMs).2 ∧
      SharedMove a b (moveBoundary a b p q boundaryMs).1 (moveBoundary a b p q boundaryMs).2 := by
  have hpos : 0 < minHealableWordDurationMs := by decide
  unfold Carries at hta hsb
  rw [ha] at hta
  rw [hb] at hsb
  cases hta with
  | some hp =>
    cases hsb with
    | some hq =>
      refine ⟨.some ⟨hp.1.rebalanced _, ?_⟩, .some ⟨hq.1.rebalanced _, ?_⟩, ?_⟩
      · show p.span.startMs < boundaryMs
        omega
      · show boundaryMs < q.span.endMs
        omega
      · refine ⟨p, q, _, _, ha, hb, rfl, rfl, habut, rfl, rfl, rfl, ?_, ?_⟩
        · exact Nat.le_sub_of_add_le' hleft
        · exact Nat.le_sub_of_add_le' hright

theorem Carries.positive (h : Carries t a) (ha : a.timing = some p) :
    p.span.startMs < p.span.endMs := by
  unfold Carries at h
  rw [ha] at h
  cases h with
  | some hp => exact hp.2

theorem carries_positive (h : Forall₂ Carries ts slots) :
    ∀ slot ∈ slots, ∀ p, slot.timing = some p → p.span.startMs < p.span.endMs := by
  induction h with
  | nil => exact fun slot hslot => nomatch hslot
  | cons hhead htail ih => exact forall_mem_cons.mpr ⟨fun p hp => hhead.positive hp, ih⟩

variable {step : WordSlot → WordSlot → WordSlot × WordSlot}

theorem PairStep.of_move (h : ∀ a b, step a b = (a, b) ∨ ∃ p q boundaryMs, a.timing = some p ∧ b.timing = some q ∧
      step a b = moveBoundary a b p q boundaryMs ∧ p.span.endMs = q.span.startMs ∧
      (p.span.startMs < p.span.endMs → q.span.startMs < q.span.endMs →
        p.span.startMs + minHealableWordDurationMs ≤ boundaryMs ∧
          boundaryMs + minHealableWordDurationMs ≤ q.span.endMs)) : PairStep step := by
  intro t s a b hta hsb
  rcases h a b with hidle | ⟨p, q, boundaryMs, ha, hb, hmove, habut, hroom⟩
  · rw [hidle]
    exact ⟨hta, hsb, .inl rfl⟩
  · obtain ⟨hleft, hright⟩ := hroom (hta.positive ha) (hsb.positive hb)
    obtain ⟨hta', hsb', hshared⟩ := moveBoundary_pair boundaryMs ha hb hta hsb habut hleft hright
    rw [hmove]
    exact ⟨hta', hsb', .inr hshared⟩

theorem rebalance_pair (h : step = rebalanceFollowing ∨ step = rebalancePreceding) : PairStep step := by
  apply PairStep.of_move
  intro a b
  rcases h with rfl | rfl
  all_goals
    first
      | unfold rebalanceFollowing
      | unfold rebalancePreceding
    split
    · next p q ha hb =>
      split_ifs with hfiller hlong habut hshort
      · exact .inl rfl
      · exact .inl rfl
      · exact .inl rfl
      · exact .inl rfl
      · rw [not_ne_iff] at habut
        refine .inr ⟨p, q, _, ha, hb, rfl, habut, ?_⟩
        intro hp hq
        unfold PendingTiming.durationMs at *
        omega
    · exact .inl rfl

theorem BoundaryMoved.cons {slots slots' : List WordSlot} (a : WordSlot) (h : BoundaryMoved slots slots') :
    BoundaryMoved (a :: slots) (a :: slots') := by
  obtain ⟨before, b, c, b', c', after, rfl, rfl, hmove⟩ := h
  exact ⟨a :: before, b, c, b', c', after, rfl, rfl, hmove⟩

theorem sweepPairsFrom_moves (hstep : PairStep step) :
    ∀ (slots : List WordSlot) (a : WordSlot) (t : Option WordTiming) (ts : List (Option WordTiming)),
      Carries t a → Forall₂ Carries ts slots → Forall₂ Carries (t :: ts) (sweepPairsFrom step a slots) ∧
        Relation.ReflTransGen BoundaryMoved (a :: slots) (sweepPairsFrom step a slots) := by
  intro slots
  induction slots with
  | nil =>
    intro a t ts hta hslots
    cases hslots
    exact ⟨.cons hta .nil, .refl⟩
  | cons b slots ih =>
    intro a t ts hta hslots
    cases hslots with
    | @cons s _ ts _ hsb hslots =>
      obtain ⟨hta', hsb', hpair⟩ := hstep t s a b hta hsb
      obtain ⟨hcarries, hmoves⟩ := ih (step a b).2 s ts hsb' hslots
      refine ⟨.cons hta' hcarries, ?_⟩
      have hrest := Relation.ReflTransGen.lift (List.cons (step a b).1) (fun _ _ h => BoundaryMoved.cons _ h) _ _ hmoves
      show Relation.ReflTransGen BoundaryMoved (a :: b :: slots) ((step a b).1 :: sweepPairsFrom step (step a b).2 slots)
      rcases hpair with hsame | hmove
      · rw [hsame] at hrest ⊢
        exact hrest
      · exact hrest.head ⟨[], a, b, _, _, slots, rfl, rfl, hmove⟩

theorem sweepPairs_moves (hstep : PairStep step) (h : Forall₂ Carries ts slots) :
    Forall₂ Carries ts (sweepPairs step slots) ∧ Relation.ReflTransGen BoundaryMoved slots (sweepPairs step slots) := by
  cases h with
  | nil => exact ⟨.nil, .refl⟩
  | cons hhead htail => exact sweepPairsFrom_moves hstep _ _ _ _ hhead htail

end Passes

/-! ## Drops -/

def lost {α β : Type} (before : List (Option α)) (after : List (Option β)) : ℕ :=
  (before.zip after).countP fun x => x.1.isSome && x.2.isNone

def MayCarry (t : Option WordTiming) (slot : WordSlot) : Prop :=
  ∀ p, slot.timing = some p → ∃ given, t = some given ∧ Derived given p

section Drops
variable {ts : List (Option WordTiming)} {slots : List WordSlot}

theorem Carries.mayCarry {t : Option WordTiming} {slot : WordSlot} (h : Carries t slot) : MayCarry t slot := by
  intro p hp
  unfold Carries at h
  rw [hp] at h
  cases h with
  | some hderived => exact ⟨_, rfl, hderived.1⟩

theorem Carries.isSome {t : Option WordTiming} {slot : WordSlot} (h : Carries t slot) : slot.timing.isSome = t.isSome := by
  unfold Carries at h
  generalize slot.timing = timing at h ⊢
  cases h <;> rfl

theorem lost_carries (h : Forall₂ Carries ts slots) : lost ts (slots.map WordSlot.timing) = 0 := by
  induction h with
  | nil => rfl
  | cons hhead htail ih =>
    show List.countP _ ((_, _) :: _) = 0
    rw [countP_cons_of_neg]
    · exact ih
    · have hsame := hhead.isSome
      rename_i t slot ts slots
      rw [← hsame]
      cases slot.timing <;> simp

theorem clampSlots_spec (boundary : TimeSpan) (h : Forall₂ Carries ts slots) :
    Forall₂ MayCarry ts (clampSlots boundary slots).1 ∧
      lost ts ((clampSlots boundary slots).1.map WordSlot.timing) = (clampSlots boundary slots).2 := by
  induction h with
  | nil => exact ⟨.nil, rfl⟩
  | @cons t slot ts slots hhead htail ih =>
    obtain ⟨hcarry, hlost⟩ := ih
    unfold clampSlots
    cases htiming : slot.timing with
    | none =>
      have hnone : t = none := by
        have hsame := hhead.isSome
        rw [htiming] at hsame
        exact Option.not_isSome_iff_eq_none.mp (by rw [← hsame]; exact Bool.false_ne_true)
      refine ⟨.cons hhead.mayCarry hcarry, ?_⟩
      rw [hnone]
      exact hlost
    | some p =>
      obtain ⟨given, rfl, hderived⟩ := hhead.mayCarry p htiming
      dsimp only
      cases hclamp : clampToBoundary boundary (!anyTimed slots) p with
      | some kept =>
        refine ⟨.cons ?_ hcarry, hlost⟩
        intro q hq
        cases hq
        exact ⟨given, rfl, hderived.clampedToBullet hclamp⟩
      | none =>
        refine ⟨.cons (fun q hq => nomatch hq) hcarry, ?_⟩
        show List.countP _ ((some given, none) :: ts.zip _) = _
        rw [countP_cons_of_pos (by rfl)]
        exact congrArg Nat.succ hlost

theorem settle_spec (h : Forall₂ MayCarry ts slots) :
    Forall₂ (fun t t' => ∀ kept, t' = some kept → ∃ given, t = some given ∧ KeptTiming given kept) ts
        (slots.map fun slot => slot.timing.bind fun p => p.settle.toOption) ∧
      lost ts (slots.map fun slot => slot.timing.bind fun p => p.settle.toOption) =
        lost ts (slots.map WordSlot.timing) +
          slots.countP fun slot => slot.timing.any fun p => p.settle.toOption.isNone := by
  induction h with
  | nil => exact ⟨.nil, rfl⟩
  | @cons t slot ts slots hhead htail ih =>
    obtain ⟨hkept, hlost⟩ := ih
    refine ⟨.cons ?_ hkept, ?_⟩
    · intro kept hsome
      obtain ⟨p, hp, hsettled⟩ := Option.bind_eq_some_iff.mp hsome
      obtain ⟨given, hgiven, hderived⟩ := hhead p hp
      exact ⟨given, hgiven, hderived.settle hsettled⟩
    · show List.countP _ ((t, slot.timing.bind _) :: ts.zip _) = List.countP _ ((t, slot.timing) :: ts.zip _) + _
      unfold lost at hlost
      rw [countP_cons, countP_cons, countP_cons, hlost]
      cases hp : slot.timing with
      | none =>
        cases t
        · simp
        · simp
          omega
      | some p =>
        obtain ⟨given, rfl, _⟩ := hhead p hp
        cases hsettled : p.settle.toOption
        · simp [hsettled]
          omega
        · simp [hsettled]

end Drops

/-! ## The pass that moved a boundary -/

abbrev Boundary := ℕ × Origin

def PendingTiming.startBoundary (p : PendingTiming) : Boundary := (p.span.startMs, p.startOrigin)

def PendingTiming.endBoundary (p : PendingTiming) : Boundary := (p.span.endMs, p.endOrigin)

/-- The last of the passes, in the order they run, that changed the value. -/
def lastMover : Boundary → List (BoundaryPass × Boundary) → Option BoundaryPass
  | _, [] => none
  | b, (pass, b') :: rest => (lastMover b' rest).or (if b'.1 = b.1 then none else some pass)

/-- A pass leaves a boundary, or moves it and names itself. -/
structure MovedBy (pass : BoundaryPass) (b b' : Boundary) : Prop where
  kept : b'.1 = b.1 → b' = b
  named : b'.1 ≠ b.1 → b'.2.pass = some pass

def MovedThrough : Boundary → List (BoundaryPass × Boundary) → Boundary → Prop
  | b, [], last => last = b
  | b, (pass, b') :: rest, last => MovedBy pass b b' ∧ MovedThrough b' rest last

section Movers
variable {pass : BoundaryPass} {b e g last : Boundary} {passes : List (BoundaryPass × Boundary)} {p q r : PendingTiming}

theorem MovedBy.refl (pass : BoundaryPass) (b : Boundary) : MovedBy pass b b := ⟨fun _ => rfl, fun hmoved => absurd rfl hmoved⟩

theorem MovedThrough.last_named (h : MovedThrough b passes last) :
    (lastMover b passes = none ∧ last = b) ∨ ∃ pass, lastMover b passes = some pass ∧ last.2.pass = some pass := by
  induction passes generalizing b with
  | nil => exact .inl ⟨rfl, h⟩
  | cons first rest ih =>
    obtain ⟨pass, b'⟩ := first
    obtain ⟨hmoved, hrest⟩ := h
    unfold lastMover
    rcases ih hrest with ⟨hnone, rfl⟩ | ⟨later, hlater, hnamed⟩
    · rw [hnone, Option.none_or]
      split_ifs with hsame
      · exact .inl ⟨rfl, hmoved.kept hsame⟩
      · exact .inr ⟨pass, rfl, hmoved.named hsame⟩
    · rw [hlater, Option.some_or]
      exact .inr ⟨later, rfl, hnamed⟩

/-- Healing may give an end its value again under another origin, but none that the extension moved. -/
structure HealedFrom (b e g : Boundary) : Prop where
  extended : MovedBy .inheritedBullet b e
  healed : g.1 ≠ e.1 → g.2.pass = some .nextOnset
  once : e = b ∨ g = e

theorem HealedFrom.refl (b : Boundary) : HealedFrom b b b := ⟨.refl _ b, fun hmoved => absurd rfl hmoved, .inl rfl⟩

theorem HealedFrom.last_named (h : HealedFrom b e g) (hlater : MovedThrough g passes last) (hmoved : last.1 ≠ b.1) :
    ∃ pass, lastMover b ((.inheritedBullet, e) :: (.nextOnset, g) :: passes) = some pass ∧ last.2.pass = some pass := by
  unfold lastMover
  unfold lastMover
  rcases hlater.last_named with ⟨hnone, rfl⟩ | ⟨pass, hpass, hnamed⟩
  · rw [hnone, Option.none_or]
    split_ifs with hsame hfirst hfirst
    · exact absurd (hsame.trans hfirst) hmoved
    · have hextended : last = e := h.once.resolve_left fun heq => hfirst (congrArg Prod.fst heq)
      exact ⟨_, rfl, hextended ▸ h.extended.named hfirst⟩
    · exact ⟨_, rfl, h.healed hsame⟩
    · exact ⟨_, rfl, h.healed hsame⟩
  · exact ⟨pass, by rw [hpass, Option.some_or, Option.some_or], hnamed⟩

theorem remeasured_moves {why : MovedBoundary → Origin} (hwhy : ∀ moved, (why moved).pass = some pass)
    (p : PendingTiming) (span : TimeSpan) : MovedBy pass p.startBoundary (p.remeasured span why).startBoundary ∧
      MovedBy pass p.endBoundary (p.remeasured span why).endBoundary := by
  refine ⟨⟨fun hsame => Prod.ext hsame (if_pos hsame), fun hmoved => ?_⟩,
    ⟨fun hsame => Prod.ext hsame (if_pos hsame), fun hmoved => ?_⟩⟩
  · exact (congrArg Origin.pass (if_neg hmoved)).trans (hwhy _)
  · exact (congrArg Origin.pass (if_neg hmoved)).trans (hwhy _)

theorem contained_moves (p : PendingTiming) : MovedBy .requestWindow p.startBoundary p.contained.startBoundary ∧
    MovedBy .requestWindow p.endBoundary p.contained.endBoundary := by
  unfold PendingTiming.contained
  split
  · exact ⟨.refl _ _, .refl _ _⟩
  · next window _ =>
    constructor
    · by_cases hcut : p.span.startMs < window.startMs
      · refine ⟨fun hsame => ?_, fun _ => congrArg Origin.pass (if_pos hcut)⟩
        change max _ _ = p.span.startMs at hsame
        omega
      · exact ⟨fun hsame => Prod.ext hsame (if_neg hcut), fun hmoved => absurd (max_eq_left (not_lt.mp hcut)) hmoved⟩
    · by_cases hcut : window.endMs < p.span.endMs
      · refine ⟨fun hsame => ?_, fun _ => congrArg Origin.pass (if_pos hcut)⟩
        change min _ _ = p.span.endMs at hsame
        omega
      · exact ⟨fun hsame => Prod.ext hsame (if_neg hcut), fun hmoved => absurd (min_eq_left (not_lt.mp hcut)) hmoved⟩

def timingAt (slots : List WordSlot) (i : ℕ) : Option PendingTiming := slots[i]?.bind WordSlot.timing

/-! Closing the gaps: only the last timed word is extended, and it is never healed. -/

theorem anyTimed_extendLast (boundary : TimeSpan) (slots : List WordSlot) (k : ℕ) :
    anyTimed ((extendLast boundary slots).drop k) = anyTimed (slots.drop k) := by
  induction slots generalizing k with
  | nil => rfl
  | cons slot slots ih =>
    unfold extendLast
    split_ifs
    · cases k with
      | zero => exact congrArg (slot.timing.isSome || ·) (ih 0)
      | succ k => exact ih k
    · cases k with
      | zero => exact congrArg (· || anyTimed slots) Option.isSome_map
      | succ k => rfl

theorem extendLast_at (boundary : TimeSpan) {slots : List WordSlot} {i : ℕ}
    (hr : timingAt (extendLast boundary slots) i = some r) : ∃ p, timingAt slots i = some p ∧
      r.startBoundary = p.startBoundary ∧ MovedBy .inheritedBullet p.endBoundary r.endBoundary ∧
        (r = p ∨ anyTimed (slots.drop (i + 1)) = false) := by
  induction slots generalizing i with
  | nil => cases hr
  | cons slot slots ih =>
    unfold extendLast at hr
    split_ifs at hr with hlater
    · cases i with
      | zero => exact ⟨r, hr, rfl, .refl _ _, .inl rfl⟩
      | succ i => exact ih hr
    · cases i with
      | zero =>
        obtain ⟨p, hp, rfl⟩ := Option.map_eq_some_iff.mp hr
        refine ⟨p, hp, ?_, ?_, .inr (Bool.eq_false_iff.mpr hlater)⟩
        · unfold extendDerivedEnd
          split_ifs <;> rfl
        · unfold extendDerivedEnd
          split_ifs with hroom
          · exact ⟨fun hsame => absurd hsame hroom.2.ne', fun _ => rfl⟩
          · exact .refl _ _
      | succ i => exact ⟨r, hr, rfl, .refl _ _, .inl rfl⟩

theorem healBackward_next (spanMs : Option ℕ) (slots : List WordSlot) :
    (healBackward spanMs slots).2.isSome = anyTimed slots := by
  induction slots with
  | nil => rfl
  | cons slot slots ih =>
    unfold healBackward anyTimed
    cases htiming : slot.timing with
    | none => exact ih.trans (by simp [anyTimed, htiming])
    | some p => simp [htiming]

theorem healBackward_at (spanMs : Option ℕ) {slots : List WordSlot} {i : ℕ}
    (hpos : ∀ slot ∈ slots, ∀ p, slot.timing = some p → p.span.startMs < p.span.endMs)
    (hq : timingAt (healBackward spanMs slots).1 i = some q) : ∃ r, timingAt slots i = some r ∧
      q.startBoundary = r.startBoundary ∧ (q.endBoundary.1 ≠ r.endBoundary.1 → q.endBoundary.2.pass = some .nextOnset) ∧
        (q = r ∨ anyTimed (slots.drop (i + 1)) = true) := by
  induction slots generalizing i with
  | nil => cases hq
  | cons slot slots ih =>
    have hrest := fun other hother => hpos other (mem_cons_of_mem slot hother)
    unfold healBackward at hq
    cases htiming : slot.timing with
    | none =>
      rw [htiming] at hq
      cases i with
      | zero => exact absurd (htiming.symm.trans hq) (by simp)
      | succ i => exact ih hrest hq
    | some p =>
      rw [htiming] at hq
      cases i with
      | succ i => exact ih hrest hq
      | zero =>
        refine ⟨p, htiming, ?_⟩
        cases Option.some.inj hq
        have hnext := healBackward_next spanMs slots
        cases hafter : (healBackward spanMs slots).2 with
        | none => exact ⟨rfl, fun hmoved => absurd rfl hmoved, .inl rfl⟩
        | some next =>
          rw [hafter] at hnext
          dsimp only
          unfold healWord
          split_ifs with hfill hroom hzero
          · exact ⟨rfl, fun _ => rfl, .inr hnext.symm⟩
          · exact ⟨rfl, fun hmoved => absurd rfl hmoved, .inl rfl⟩
          · exact absurd hzero (hpos slot mem_cons_self p htiming).ne
          · exact ⟨rfl, fun hmoved => absurd rfl hmoved, .inl rfl⟩

/-! The passes after it. -/

/-- What a slot keeps, it had before the pass. -/
def Left (R : PendingTiming → PendingTiming → Prop) (a b : WordSlot) : Prop :=
  ∀ q, b.timing = some q → ∃ p, a.timing = some p ∧ R p q

theorem timingAt_left {R : PendingTiming → PendingTiming → Prop} {slots slots' : List WordSlot}
    (h : Forall₂ (Left R) slots slots') {i : ℕ} (hq : timingAt slots' i = some q) :
    ∃ p, timingAt slots i = some p ∧ R p q := by
  induction h generalizing i with
  | nil => cases hq
  | cons hhead htail ih =>
    cases i with
    | zero => exact hhead q hq
    | succ i => exact ih hq

def BothMovedBy (pass : BoundaryPass) (p q : PendingTiming) : Prop :=
  MovedBy pass p.startBoundary q.startBoundary ∧ MovedBy pass p.endBoundary q.endBoundary

theorem left_refl (pass : BoundaryPass) (a : WordSlot) : Left (BothMovedBy pass) a a :=
  fun q hq => ⟨q, hq, .refl _ _, .refl _ _⟩

theorem clampSlots_left (boundary : TimeSpan) (slots : List WordSlot) :
    Forall₂ (Left (BothMovedBy .utteranceBullet)) slots (clampSlots boundary slots).1 := by
  induction slots with
  | nil => exact .nil
  | cons slot slots ih =>
    unfold clampSlots
    cases htiming : slot.timing with
    | none => exact .cons (left_refl _ _) ih
    | some p =>
      dsimp only
      cases hclamp : clampToBoundary boundary (!anyTimed slots) p with
      | none => exact .cons (fun q hq => nomatch hq) ih
      | some kept =>
        refine .cons (fun q hq => ⟨p, htiming, ?_⟩) ih
        cases hq
        unfold clampToBoundary PendingTiming.clampedToBullet at hclamp
        dsimp only at hclamp
        split_ifs at hclamp <;> cases hclamp <;> exact remeasured_moves (fun _ => rfl) p _

def EndMoved (p q : PendingTiming) : Prop :=
  q.startBoundary = p.startBoundary ∧ MovedBy .rebalance p.endBoundary q.endBoundary

def StartMoved (p q : PendingTiming) : Prop :=
  MovedBy .rebalance p.startBoundary q.startBoundary ∧ q.endBoundary = p.endBoundary

/-- A pair keeps its outer boundaries. -/
def PairMoves (step : WordSlot → WordSlot → WordSlot × WordSlot) : Prop :=
  ∀ a b, Left EndMoved a (step a b).1 ∧ Left StartMoved b (step a b).2

variable {step : WordSlot → WordSlot → WordSlot × WordSlot}

theorem rebalance_moves
    (h : step = rebalanceFollowing ∨ step = rebalancePreceding) : PairMoves step := by
  intro a b
  have hidle : Left EndMoved a a ∧ Left StartMoved b b :=
    ⟨fun q hq => ⟨q, hq, rfl, .refl _ _⟩, fun q hq => ⟨q, hq, .refl _ _, rfl⟩⟩
  have hmove : ∀ p q boundaryMs, a.timing = some p → b.timing = some q →
      Left EndMoved a (moveBoundary a b p q boundaryMs).1 ∧ Left StartMoved b (moveBoundary a b p q boundaryMs).2 := by
    intro p q boundaryMs hp hq
    constructor
    · intro p' hp'
      cases hp'
      exact ⟨p, hp, Prod.ext rfl (if_pos rfl), (remeasured_moves (fun _ => rfl) p _).2⟩
    · intro q' hq'
      cases hq'
      exact ⟨q, hq, (remeasured_moves (fun _ => rfl) q _).1, Prod.ext rfl (if_pos rfl)⟩
  rcases h with rfl | rfl
  · unfold rebalanceFollowing
    split
    · split_ifs
      all_goals first | exact hidle | exact hmove _ _ _ ‹_› ‹_›
    · exact hidle
  · unfold rebalancePreceding
    split
    · split_ifs
      all_goals first | exact hidle | exact hmove _ _ _ ‹_› ‹_›
    · exact hidle

theorem sweepPairsFrom_left (h : PairMoves step) (slots : List WordSlot)
    (a : WordSlot) : ∃ first rest, sweepPairsFrom step a slots = first :: rest ∧
      Left EndMoved a first ∧ Forall₂ (Left (BothMovedBy .rebalance)) slots rest := by
  induction slots generalizing a with
  | nil => exact ⟨a, [], rfl, fun q hq => ⟨q, hq, rfl, .refl _ _⟩, .nil⟩
  | cons b slots ih =>
    obtain ⟨hfirst, hsecond⟩ := h a b
    obtain ⟨next, rest, hsweep, hnext, hrest⟩ := ih (step a b).2
    refine ⟨_, _, rfl, hfirst, ?_⟩
    rw [hsweep]
    refine .cons (fun q hq => ?_) hrest
    obtain ⟨r, hr, hstart, hend⟩ := hnext q hq
    obtain ⟨p, hp, hstart', hend'⟩ := hsecond r hr
    exact ⟨p, hp, hstart ▸ hstart', hend' ▸ hend⟩

theorem sweepPairs_left (h : PairMoves step) (slots : List WordSlot) :
    Forall₂ (Left (BothMovedBy .rebalance)) slots (sweepPairs step slots) := by
  cases slots with
  | nil => exact .nil
  | cons a slots =>
    obtain ⟨first, rest, hsweep, hfirst, hrest⟩ := sweepPairsFrom_left h slots a
    rw [show sweepPairs step (a :: slots) = first :: rest from hsweep]
    refine .cons (fun q hq => ?_) hrest
    obtain ⟨p, hp, hstart, hend⟩ := hfirst q hq
    exact ⟨p, hp, hstart ▸ .refl _ _, hend⟩

end Movers

/-! ## The utterance -/

theorem rewriteWords_setWordTiming (timings : List (Option WordTiming)) (ws : List Word)
    (hlength : timings.length = ws.length) :
    (rewriteWords setWordTiming timings ws).2.map Word.inlineBullet = timings.map (Option.map WordTiming.bullet) := by
  induction ws generalizing timings with
  | nil =>
    rw [length_eq_zero_iff.mp hlength]
    rfl
  | cons w ws ih =>
    cases timings with
    | nil => cases hlength
    | cons timing timings => exact congrArg (List.cons _) (ih timings (Nat.succ.inj hlength))

section Postprocessed
variable (B : WorBinding) (u : Utterance) (policy : WordEndPolicy) (existingWorBoundaries : ExistingWorBoundaryPolicy)
  (injected : List (Option WordTiming))

variable {slots : List WordSlot} {ts : List (Option WordTiming)}

theorem boundSlots_spec (h : Forall₂ Carries ts slots) :
    Forall₂ MayCarry ts (boundSlots B u existingWorBoundaries slots).1 ∧
      lost ts ((boundSlots B u existingWorBoundaries slots).1.map WordSlot.timing) =
        (boundSlots B u existingWorBoundaries slots).2 := by
  have hidle : Forall₂ MayCarry ts slots ∧ lost ts (slots.map WordSlot.timing) = 0 :=
    ⟨h.imp fun _ _ => Carries.mayCarry, lost_carries h⟩
  unfold boundSlots
  split
  · exact hidle
  · split_ifs
    · exact clampSlots_spec _ h
    · exact hidle

theorem settledTimings_spec (hwords : injected.length = (wordLeaves u.content).length) :
    let settled := settledTimings B u policy existingWorBoundaries injected
    Forall₂ (fun t t' => ∀ kept, t' = some kept → ∃ given, t = some given ∧ KeptTiming given kept) injected settled.1 ∧
      settled.2.total = lost injected settled.1 := by
  have hslots := wordSlots_carries B u hwords
  have hhealed : Forall₂ Carries injected (if policy.heals then
      healSlots policy (transcriptBoundary B u) (utteranceSpanMs u injected) (wordSlots B u injected)
      else wordSlots B u injected) := by
    split_ifs
    · exact (sweepPairs_moves (rebalance_pair (.inr rfl)) (sweepPairs_moves (rebalance_pair (.inl rfl))
        (closeGaps_carries policy (transcriptBoundary B u) (utteranceSpanMs u injected) hslots)).1).1
    · exact hslots
  obtain ⟨hmay, hclamped⟩ := boundSlots_spec B u existingWorBoundaries hhealed
  obtain ⟨hkept, hsettled⟩ := settle_spec hmay
  refine ⟨hkept, ?_⟩
  rw [hclamped] at hsettled
  exact hsettled.symm

theorem postprocess_writes (hwords : injected.length = (wordLeaves u.content).length) :
    let settled := settledTimings B u policy existingWorBoundaries injected
    let result := postprocessUtteranceTimingsWithBoundaryPolicy B u policy existingWorBoundaries injected
    (wordLeaves result.1.content).map Word.inlineBullet = settled.1.map (Option.map WordTiming.bullet) ∧
      result.2.dropped = settled.2 := by
  intro settled result
  have hlength : settled.1.length = (wordLeaves u.content).length := by
    rw [← hwords]
    exact (settledTimings_spec B u policy existingWorBoundaries injected hwords).1.length_eq.symm
  have hwritten := rewriteWords_setWordTiming settled.1 (wordLeaves u.content) hlength
  rw [← congrArg Prod.snd (wordLeaves_rewriteContent setWordTiming settled.1 u.content)] at hwritten
  by_cases hempty : injected = []
  · -- no word, and nothing to settle
    subst hempty
    have hnone : wordLeaves u.content = [] := length_eq_zero_iff.mp hwords.symm
    have hsettled : settled.1 = [] := length_eq_zero_iff.mp (by rw [hlength, hnone]; rfl)
    have htotal := (settledTimings_spec B u policy existingWorBoundaries [] hwords).2
    refine ⟨?_, ?_⟩
    · show (wordLeaves u.content).map Word.inlineBullet = _
      rw [hnone, hsettled]
      rfl
    · have hzero : settled.2.total = 0 := by
        rw [htotal]
        rfl
      obtain ⟨hclamped, hextent⟩ := Nat.add_eq_zero_iff.mp hzero
      show (⟨0, 0⟩ : DroppedWordTimings) = ⟨settled.2.clampedToUtteranceBoundary, settled.2.withoutExtent⟩
      rw [hclamped, hextent]
  · have hresult : result = ({ u with content := (rewriteContent setWordTiming settled.1 u.content).2 },
        ⟨settled.2, (settled.1.filterMap id).foldl
          (fun tally timing => (tally.record timing.startOrigin).record timing.endOrigin) .default⟩) := by
      show postprocessUtteranceTimingsWithBoundaryPolicy B u policy existingWorBoundaries injected = _
      unfold postprocessUtteranceTimingsWithBoundaryPolicy
      rw [if_neg fun h => hempty (List.isEmpty_iff.mp h)]
    rw [hresult]
    exact ⟨hwritten, rfl⟩

/-! The passes over each word, in the order they run. -/

def extendedSlots (slots : List WordSlot) : List WordSlot :=
  if policy.endsAreDerived then match transcriptBoundary B u with
    | some boundary => extendLast boundary slots
    | none => slots
  else slots

/-- What each pass leaves of the slots. -/
def passOutputs : List (BoundaryPass × List WordSlot) :=
  let slots := wordSlots B u injected
  let extended := extendedSlots B u policy slots
  let gaps := closeGaps policy (transcriptBoundary B u) (utteranceSpanMs u injected) slots
  let following := rebalanceNearZeroLexicalWordsFromFollowingSpans gaps
  let preceding := rebalanceNearZeroLexicalWordsFromPrecedingSpans following
  let bounded := (boundSlots B u existingWorBoundaries (if policy.heals then preceding else slots)).1
  (if policy.heals then
    [(.inheritedBullet, extended), (.nextOnset, gaps), (.rebalance, following), (.rebalance, preceding)] else []) ++
    [(.utteranceBullet, bounded),
      (.requestWindow, bounded.map fun slot => { slot with timing := slot.timing.map PendingTiming.contained })]

/-- What each pass leaves of one boundary of a word. -/
def boundaryPasses (i : ℕ) (boundary : PendingTiming → Boundary) : List (BoundaryPass × Boundary) :=
  (passOutputs B u policy existingWorBoundaries injected).filterMap fun (pass, slots) =>
    (timingAt slots i).map fun p => (pass, boundary p)

variable {i : ℕ}

theorem extendedSlots_at {r : PendingTiming}
    (hr : timingAt (extendedSlots B u policy slots) i = some r) : ∃ p, timingAt slots i = some p ∧
      r.startBoundary = p.startBoundary ∧ MovedBy .inheritedBullet p.endBoundary r.endBoundary ∧
        (r = p ∨ anyTimed (slots.drop (i + 1)) = false) := by
  unfold extendedSlots at hr
  split_ifs at hr
  · split at hr
    · exact extendLast_at _ hr
    · exact ⟨r, hr, rfl, .refl _ _, .inl rfl⟩
  · exact ⟨r, hr, rfl, .refl _ _, .inl rfl⟩

theorem anyTimed_extendedSlots (slots : List WordSlot) (k : ℕ) :
    anyTimed ((extendedSlots B u policy slots).drop k) = anyTimed (slots.drop k) := by
  unfold extendedSlots
  split_ifs
  · split
    · exact anyTimed_extendLast _ _ k
    · rfl
  · rfl

theorem closeGaps_at (h : Forall₂ Carries ts slots)
    (spanMs : Option ℕ) {q : PendingTiming}
    (hq : timingAt (closeGaps policy (transcriptBoundary B u) spanMs slots) i = some q) :
    ∃ p r, timingAt slots i = some p ∧ timingAt (extendedSlots B u policy slots) i = some r ∧
      HealedFrom p.startBoundary r.startBoundary q.startBoundary ∧ HealedFrom p.endBoundary r.endBoundary q.endBoundary := by
  have hcarries : Forall₂ Carries ts (extendedSlots B u policy slots) := by
    unfold extendedSlots
    split_ifs
    · split
      · exact extendLast_carries _ h
      · exact h
    · exact h
  obtain ⟨r, hr, hstart, hend, hhealed⟩ := healBackward_at spanMs (carries_positive hcarries) hq
  obtain ⟨p, hp, hstart', hend', hextended⟩ := extendedSlots_at B u policy hr
  rw [anyTimed_extendedSlots] at hhealed
  refine ⟨p, r, hp, hr, ?_, hend', hend, ?_⟩
  · rw [hstart, hstart']
    exact .refl _
  · rcases hextended with rfl | hlast
    · exact .inl rfl
    · rcases hhealed with rfl | hfollowed
      · exact .inr rfl
      · rw [hlast] at hfollowed
        cases hfollowed

theorem boundSlots_left (slots : List WordSlot) : Forall₂ (Left (BothMovedBy .utteranceBullet)) slots
    (boundSlots B u existingWorBoundaries slots).1 := by
  have hidle : Forall₂ (Left (BothMovedBy .utteranceBullet)) slots slots := forall₂_same.mpr fun slot _ => left_refl _ slot
  unfold boundSlots
  split
  · exact hidle
  · split_ifs
    · exact clampSlots_left _ _
    · exact hidle

/-- A boundary whose value changed names the last pass that changed it. -/
def NamesMover (passes : List (BoundaryPass × Boundary)) (b b' : Boundary) : Prop :=
  b'.1 ≠ b.1 → ∃ pass, lastMover b passes = some pass ∧ b'.2.pass = some pass

theorem wordSlots_at {given : WordTiming} (hgiven : injected[i]? = some (some given))
    (hp : timingAt (wordSlots B u injected) i = some p) : p = .fromAligned given := by
  unfold timingAt wordSlots at hp
  obtain ⟨slot, hslot, htiming⟩ := Option.bind_eq_some_iff.mp hp
  rw [getElem?_map] at hslot
  obtain ⟨⟨t, w⟩, hzip, rfl⟩ := Option.map_eq_some_iff.mp hslot
  obtain ⟨ht, -⟩ := getElem?_zip_eq_some.mp hzip
  cases Option.some.inj (ht.symm.trans hgiven)
  exact (Option.some.inj htiming).symm

theorem timingAt_contained (slots : List WordSlot) (i : ℕ) :
    timingAt (slots.map fun slot => { slot with timing := slot.timing.map PendingTiming.contained }) i =
      (timingAt slots i).map PendingTiming.contained := by
  unfold timingAt
  rw [getElem?_map]
  cases slots[i]? <;> rfl

theorem settledTimings_at {kept : WordTiming}
    (hkept : (settledTimings B u policy existingWorBoundaries injected).1[i]? = some (some kept)) :
    let healed := if policy.heals then
      healSlots policy (transcriptBoundary B u) (utteranceSpanMs u injected) (wordSlots B u injected)
      else wordSlots B u injected
    ∃ p, timingAt (boundSlots B u existingWorBoundaries healed).1 i = some p ∧
      (kept.startMs, kept.startOrigin) = p.contained.startBoundary ∧
      (kept.endMs, kept.endOrigin) = p.contained.endBoundary := by
  intro healed
  change (List.map _ (boundSlots B u existingWorBoundaries healed).1)[i]? = _ at hkept
  rw [getElem?_map] at hkept
  obtain ⟨slot, hslot, hsettled⟩ := Option.map_eq_some_iff.mp hkept
  obtain ⟨p, hp, hsettled⟩ := Option.bind_eq_some_iff.mp hsettled
  refine ⟨p, Option.bind_eq_some_iff.mpr ⟨slot, hslot, hp⟩, ?_⟩
  unfold PendingTiming.settle at hsettled
  dsimp only at hsettled
  split_ifs at hsettled
  · cases hsettled
    exact ⟨rfl, rfl⟩
  · cases hsettled

theorem settled_names_movers (hwords : injected.length = (wordLeaves u.content).length) {given kept : WordTiming}
    (hgiven : injected[i]? = some (some given))
    (hkept : (settledTimings B u policy existingWorBoundaries injected).1[i]? = some (some kept)) :
    NamesMover (boundaryPasses B u policy existingWorBoundaries injected i PendingTiming.startBoundary)
        (given.startMs, given.startOrigin) (kept.startMs, kept.startOrigin) ∧
      NamesMover (boundaryPasses B u policy existingWorBoundaries injected i PendingTiming.endBoundary)
        (given.endMs, given.endOrigin) (kept.endMs, kept.endOrigin) := by
  obtain ⟨p₅, hp₅, hstart, hend⟩ := settledTimings_at B u policy existingWorBoundaries injected hkept
  obtain ⟨p₄, hp₄, hstart₅, hend₅⟩ := timingAt_left (boundSlots_left B u existingWorBoundaries _) hp₅
  obtain ⟨hstart₆, hend₆⟩ := contained_moves p₅
  rw [hstart, hend]
  by_cases hheals : policy.heals = true
  · rw [if_pos hheals] at hp₄ hp₅
    unfold healSlots rebalanceNearZeroLexicalWordsFromPrecedingSpans rebalanceNearZeroLexicalWordsFromFollowingSpans at hp₄ hp₅
    obtain ⟨p₃, hp₃, hstart₄, hend₄⟩ := timingAt_left (sweepPairs_left (rebalance_moves (.inr rfl)) _) hp₄
    obtain ⟨p₂, hp₂, hstart₃, hend₃⟩ := timingAt_left (sweepPairs_left (rebalance_moves (.inl rfl)) _) hp₃
    obtain ⟨p₀, p₁, hp₀, hp₁, hstarts, hends⟩ := closeGaps_at B u policy (wordSlots_carries B u hwords) _ hp₂
    cases wordSlots_at B u injected hgiven hp₀
    have hpasses (boundary : PendingTiming → Boundary) :
        boundaryPasses B u policy existingWorBoundaries injected i boundary = [(.inheritedBullet, boundary p₁),
          (.nextOnset, boundary p₂), (.rebalance, boundary p₃), (.rebalance, boundary p₄),
          (.utteranceBullet, boundary p₅), (.requestWindow, boundary p₅.contained)] := by
      simp only [boundaryPasses, passOutputs, rebalanceNearZeroLexicalWordsFromPrecedingSpans,
        rebalanceNearZeroLexicalWordsFromFollowingSpans, hheals, if_true, cons_append, nil_append, filterMap_cons,
        filterMap_nil, hp₁, hp₂, hp₃, hp₄, hp₅, timingAt_contained, Option.map_some]
    rw [hpasses, hpasses]
    exact ⟨hstarts.last_named ⟨hstart₃, hstart₄, hstart₅, hstart₆, rfl⟩,
      hends.last_named ⟨hend₃, hend₄, hend₅, hend₆, rfl⟩⟩
  · rw [if_neg hheals] at hp₄ hp₅
    cases wordSlots_at B u injected hgiven hp₄
    have hpasses (boundary : PendingTiming → Boundary) :
        boundaryPasses B u policy existingWorBoundaries injected i boundary =
          [(.utteranceBullet, boundary p₅), (.requestWindow, boundary p₅.contained)] := by
      simp only [boundaryPasses, passOutputs, hheals, nil_append, filterMap_cons, filterMap_nil, hp₅,
        timingAt_contained, Option.map_some, Bool.false_eq_true, if_false]
    have hnamed {b b' last : Boundary} (h : MovedThrough b [(.utteranceBullet, b'), (.requestWindow, last)] last) :
        NamesMover [(.utteranceBullet, b'), (.requestWindow, last)] b last :=
      fun hmoved => h.last_named.resolve_left fun hsame => hmoved (congrArg Prod.fst hsame.2)
    rw [hpasses, hpasses]
    exact ⟨hnamed ⟨hstart₅, hstart₆, rfl⟩, hnamed ⟨hend₅, hend₆, rfl⟩⟩

theorem lost_map {α β γ : Type} (f : β → γ) (before : List (Option α)) (after : List (Option β)) :
    lost before (after.map (Option.map f)) = lost before after := by
  unfold lost
  rw [zip_map_right, countP_map]
  congr 1
  funext x
  show (x.1.isSome && (x.2.map f).isNone) = (x.1.isSome && x.2.isNone)
  rw [Option.isNone_map]

end Postprocessed

def plainWords : WorBinding where
  domain := ⟨fun _ => true, fun w => [w.text]⟩
  counts_timing_free _ _ := rfl
  parts_timing_free _ _ := rfl
  walkWor := wordLeaves
  isFiller _ := false
  completeSlots _ _ := none
  overProportion _ _ := false
  provisional _ := false

def twoWords : Utterance := ⟨"CHI", [], none, [.word ⟨"one", none⟩, .word ⟨"two", none⟩], [], []⟩

def onsetTimings : List (Option WordTiming) :=
  [WordTiming.new 300 900 (.engineMeasured "whisper") .derivedFromNextOnset,
    WordTiming.new 1000 1200 (.engineMeasured "whisper") .derivedFromNextOnset]

end Batchalign.FaTiming
