import Batchalign.Lib.BestPath

/- Several ordered chains of words matched against one reference. An assignment keeps the order inside
   each chain alone. Assignments are the paths of a graph (`exists_path`, `Path.assignment`), whose
   greatest gains say which matches some maximum one uses (`used_iff`) and which words one omits
   (`omitted_iff`). -/
namespace JointChains
open BestPath List
open Finset (mem_univ mem_insert mem_of_mem_erase)

structure Match (ι : Type*) where
  chain : ι
  word : ℕ
  reference : ℕ
  deriving DecidableEq

structure Position (ι : Type*) where
  word : ι → ℕ
  reference : ℕ

inductive Move (ι : Type*) where
  | skipWord (chain : ι) (word : ℕ)
  | skipReference
  | take (pair : Match ι)

variable {ι : Type*}

structure Problem (ι : Type*) where
  length : ι → ℕ
  references : ℕ
  isMatch : ι → ℕ → ℕ → Bool

structure Assignment (P : Problem ι) (A : Finset (Match ι)) : Prop where
  inside : ∀ a ∈ A, a.word < P.length a.chain ∧ a.reference < P.references
  matching : ∀ a ∈ A, P.isMatch a.chain a.word a.reference = true
  ordered : ∀ a ∈ A, ∀ b ∈ A, a.chain = b.chain → a.word < b.word → a.reference < b.reference
  wordOnce : ∀ a ∈ A, ∀ b ∈ A, a.chain = b.chain → a.word = b.word → a = b
  referenceOnce : ∀ a ∈ A, ∀ b ∈ A, a.reference = b.reference → a = b

def Maximum (P : Problem ι) (A : Finset (Match ι)) : Prop :=
  Assignment P A ∧ ∀ B, Assignment P B → B.card ≤ A.card

def Position.next (s : Position ι) : Position ι := { s with reference := s.reference + 1 }

@[simp] theorem Position.next_reference (s : Position ι) : s.next.reference = s.reference + 1 := rfl

@[simp] theorem Position.next_word (s : Position ι) : s.next.word = s.word := rfl

def Move.gain : Move ι → ℕ
  | .take _ => 1
  | _ => 0

def start : Position ι := ⟨fun _ => 0, 0⟩

def finish (P : Problem ι) : Position ι := ⟨P.length, P.references⟩

def taken (l : List (Move ι)) : List (Match ι) :=
  l.filterMap fun | .take pair => some pair | _ => none

variable {P : Problem ι} {s t : Position ι} {l : List (Move ι)} {c : ι} {w r : ℕ} {pair : Match ι}
  {A : Finset (Match ι)}

@[simp] theorem taken_nil : taken ([] : List (Move ι)) = [] := rfl

@[simp] theorem taken_skipWord : taken (.skipWord c w :: l) = taken l := rfl

@[simp] theorem taken_skipReference : taken (.skipReference :: l) = taken l := rfl

@[simp] theorem taken_take : taken (.take pair :: l) = pair :: taken l := rfl

theorem mem_taken : pair ∈ taken l ↔ .take pair ∈ l := by
  simp only [taken, mem_filterMap]
  constructor
  · rintro ⟨move, hmem, hmove⟩
    cases move <;> simp_all
  · intro h
    exact ⟨_, h, rfl⟩

def Inside (P : Problem ι) (s : Position ι) : Prop :=
  (∀ c, s.word c ≤ P.length c) ∧ s.reference ≤ P.references

theorem inside_start : Inside P start := ⟨fun _ => Nat.zero_le _, Nat.zero_le _⟩

def left [Fintype ι] (P : Problem ι) (s : Position ι) : ℕ :=
  ∑ c, (P.length c - s.word c) + (P.references - s.reference)

theorem left_next [Fintype ι] (hr : s.reference < P.references) : left P s.next + 1 = left P s := by
  simp only [left, Position.next_word, Position.next_reference]
  omega

theorem eq_finish_of_left [Fintype ι] (hs : Inside P s) (h : left P s = 0) : s = finish P := by
  obtain ⟨words, reference⟩ := s
  simp only [left, Nat.add_eq_zero_iff, Finset.sum_eq_zero_iff, mem_univ, forall_const] at h
  have hword : words = P.length := by
    funext c
    have := hs.1 c
    have := h.1 c
    simp only at *
    omega
  have href : reference = P.references := by
    have := hs.2
    simp only at *
    omega
  rw [hword, href, finish]

variable {move : Move ι}

section
variable [DecidableEq ι]

def Position.advance (s : Position ι) (chain : ι) : Position ι :=
  { s with word := Function.update s.word chain (s.word chain + 1) }

section
variable (s : Position ι)

@[simp] theorem Position.advance_reference (c : ι) : (s.advance c).reference = s.reference := rfl

@[simp] theorem Position.advance_word_self (c : ι) : (s.advance c).word c = s.word c + 1 := by
  simp [Position.advance]

theorem Position.advance_word_of_ne {c d : ι} (h : d ≠ c) : (s.advance c).word d = s.word d := by
  simp [Position.advance, h]

theorem Position.word_le_advance (c d : ι) : s.word d ≤ (s.advance c).word d := by
  by_cases h : d = c
  · subst h
    simp
  · rw [s.advance_word_of_ne h]

end

inductive Step (P : Problem ι) : Position ι → Move ι → Position ι → Prop
  | skipWord {s : Position ι} (c : ι) : s.word c < P.length c →
      Step P s (.skipWord c (s.word c)) (s.advance c)
  | skipReference {s : Position ι} : s.reference < P.references → Step P s .skipReference s.next
  | take {s : Position ι} (c : ι) : s.word c < P.length c → s.reference < P.references →
      P.isMatch c (s.word c) s.reference = true →
      Step P s (.take ⟨c, s.word c, s.reference⟩) (s.advance c).next

variable {s t : Position ι} {P : Problem ι}

theorem step_skipWord {c : ι} {w : ℕ} :
    Step P s (.skipWord c w) t ↔ s.word c = w ∧ w < P.length c ∧ t = s.advance c := by
  constructor
  · rintro ⟨c, hc⟩
    exact ⟨rfl, hc, rfl⟩
  · rintro ⟨rfl, hc, rfl⟩
    exact Step.skipWord c hc

theorem step_skipReference :
    Step P s .skipReference t ↔ s.reference < P.references ∧ t = s.next := by
  constructor
  · rintro ⟨hr⟩
    exact ⟨by assumption, rfl⟩
  · rintro ⟨hr, rfl⟩
    exact Step.skipReference hr

theorem step_take {c : ι} {w r : ℕ} :
    Step P s (.take ⟨c, w, r⟩) t ↔ (s.word c = w ∧ s.reference = r) ∧ w < P.length c ∧
      r < P.references ∧ P.isMatch c w r = true ∧ t = (s.advance c).next := by
  constructor
  · rintro ⟨c, hc, hr, hmatch⟩
    exact ⟨⟨rfl, rfl⟩, by assumption, by assumption, by assumption, rfl⟩
  · rintro ⟨⟨rfl, rfl⟩, hc, hr, hmatch, rfl⟩
    exact Step.take c hc hr hmatch

def readings (P : Problem ι) : Web (Position ι) (Move ι) := ⟨Step P, Move.gain⟩

theorem total_eq : (readings P).total l = (taken l).length := by
  induction l with
  | nil => rfl
  | cons move l ih =>
    rw [Web.total_cons, ih]
    cases move <;> simp [readings, Move.gain]
    omega

/-! ## Readings give assignments -/

section
variable (h : (readings P).Path s l t)
include h

theorem Path.after : (∀ pair ∈ taken l, s.word pair.chain ≤ pair.word ∧ s.reference ≤ pair.reference) ∧
      ∀ c w, .skipWord c w ∈ l → s.word c ≤ w := by
  induction l generalizing s with
  | nil => simp
  | cons move l ih =>
    obtain ⟨u, hstep, hl⟩ := h
    obtain ⟨htaken, hskip⟩ := ih hl
    cases hstep with
    | skipWord c hc =>
      refine ⟨?_, ?_⟩
      · intro pair hp
        have := htaken pair hp
        have := s.word_le_advance c pair.chain
        simp only [Position.advance_reference] at *
        omega
      · intro d w hd
        rcases mem_cons.mp hd with heq | hd
        · cases heq
          exact le_rfl
        · have := hskip d w hd
          have := s.word_le_advance c d
          omega
    | skipReference hr =>
      refine ⟨?_, ?_⟩
      · intro pair hp
        have := htaken pair hp
        simp only [Position.next_word, Position.next_reference] at this
        omega
      · intro d w hd
        rcases mem_cons.mp hd with heq | hd
        · cases heq
        · exact hskip d w hd
    | take c hc hr hmatch =>
      refine ⟨?_, ?_⟩
      · intro pair hp
        rcases mem_cons.mp hp with rfl | hp
        · exact ⟨le_rfl, le_rfl⟩
        · have := htaken pair hp
          have := s.word_le_advance c pair.chain
          simp only [Position.next_word, Position.next_reference, Position.advance_reference] at *
          omega
      · intro d w hd
        rcases mem_cons.mp hd with heq | hd
        · cases heq
        · have := hskip d w hd
          have := s.word_le_advance c d
          simp only [Position.next_word] at *
          omega

theorem Path.assignment : Assignment P (taken l).toFinset ∧ (taken l).Nodup := by
  induction l generalizing s with
  | nil => exact ⟨⟨by simp, by simp, by simp, by simp, by simp⟩, nodup_nil⟩
  | cons move l ih =>
    obtain ⟨u, hstep, hl⟩ := h
    obtain ⟨hass, hnodup⟩ := ih hl
    cases hstep with
    | skipWord c hc => exact ⟨hass, hnodup⟩
    | skipReference hr => exact ⟨hass, hnodup⟩
    | take c hc hr hmatch =>
      have hafter := (Path.after hl).1
      simp only [Position.next_word, Position.next_reference, Position.advance_reference] at hafter
      -- whatever is taken later has a later reference word, and a later word of this chain
      have hlater : ∀ b ∈ taken l, s.reference < b.reference ∧ (b.chain = c → s.word c < b.word) := by
        intro b hb
        obtain ⟨hword, href⟩ := hafter b hb
        refine ⟨by omega, ?_⟩
        rintro rfl
        rw [Position.advance_word_self] at hword
        omega
      refine ⟨⟨?_, ?_, ?_, ?_, ?_⟩, ?_⟩
      · intro a ha
        simp only [taken_take, toFinset_cons, mem_insert] at ha
        rcases ha with rfl | ha
        · exact ⟨hc, hr⟩
        · exact hass.inside a ha
      · intro a ha
        simp only [taken_take, toFinset_cons, mem_insert] at ha
        rcases ha with rfl | ha
        · exact hmatch
        · exact hass.matching a ha
      · intro a ha b hb hchain hword
        simp only [taken_take, toFinset_cons, mem_insert] at ha hb
        rcases ha with rfl | ha <;> rcases hb with rfl | hb
        · exact absurd hword (lt_irrefl _)
        · exact (hlater b (mem_toFinset.mp hb)).1
        · have := (hlater a (mem_toFinset.mp ha)).2 hchain
          simp only at hword
          omega
        · exact hass.ordered a ha b hb hchain hword
      · intro a ha b hb hchain hword
        simp only [taken_take, toFinset_cons, mem_insert] at ha hb
        rcases ha with rfl | ha <;> rcases hb with rfl | hb
        · rfl
        · have := (hlater b (mem_toFinset.mp hb)).2 hchain.symm
          simp only at hword
          omega
        · have := (hlater a (mem_toFinset.mp ha)).2 hchain
          simp only at hword
          omega
        · exact hass.wordOnce a ha b hb hchain hword
      · intro a ha b hb href
        simp only [taken_take, toFinset_cons, mem_insert] at ha hb
        rcases ha with rfl | ha <;> rcases hb with rfl | hb
        · rfl
        · have := (hlater b (mem_toFinset.mp hb)).1
          simp only at href
          omega
        · have := (hlater a (mem_toFinset.mp ha)).1
          simp only at href
          omega
        · exact hass.referenceOnce a ha b hb href
      · rw [taken_take, nodup_cons]
        refine ⟨?_, hnodup⟩
        intro hmem
        exact lt_irrefl _ (hlater _ hmem).1

theorem Path.total_eq_card : (readings P).total l = (taken l).toFinset.card := by
  rw [total_eq, toFinset_card_of_nodup (Path.assignment h).2]

end

theorem Path.skips_iff (h : (readings P).Path s l (finish P)) (hs : s.word c ≤ w)
    (hw : w < P.length c) : .skipWord c w ∈ l ↔ ∀ r, (⟨c, w, r⟩ : Match ι) ∉ taken l := by
  induction l generalizing s with
  | nil =>
    subst h
    simp only [finish] at hs
    omega
  | cons move l ih =>
    obtain ⟨u, hstep, hl⟩ := h
    cases hstep with
    | skipReference hr =>
      simpa using ih hl hs
    | skipWord d hd =>
      by_cases hhere : d = c ∧ s.word c = w
      · -- the word is skipped here, and what follows lies after it
        obtain ⟨rfl, rfl⟩ := hhere
        simp only [mem_cons, true_or, taken_skipWord, true_iff]
        intro r hr
        have := ((Path.after hl).1 _ hr).1
        simp at this
      · have hnext : (s.advance d).word c ≤ w := by
          by_cases hdc : c = d
          · subst hdc
            have : s.word c ≠ w := fun heq => hhere ⟨rfl, heq⟩
            rw [Position.advance_word_self]
            omega
          · rwa [s.advance_word_of_ne hdc]
        rw [taken_skipWord, ← ih hl hnext, mem_cons, or_iff_right]
        rintro ⟨⟩
        exact hhere ⟨rfl, rfl⟩
    | take d hd hr hmatch =>
      by_cases hhere : d = c ∧ s.word c = w
      · obtain ⟨rfl, rfl⟩ := hhere
        constructor
        · intro hmem
          have hlater := (Path.after hl).2 d (s.word d) (by simpa using hmem)
          simp at hlater
        · intro hnone
          exact absurd (by simp) (hnone s.reference)
      · have hnext : (s.advance d).next.word c ≤ w := by
          rw [Position.next_word]
          by_cases hdc : c = d
          · subst hdc
            have : s.word c ≠ w := fun heq => hhere ⟨rfl, heq⟩
            rw [Position.advance_word_self]
            omega
          · rwa [s.advance_word_of_ne hdc]
        have hrest := ih hl hnext
        simp only [mem_cons, reduceCtorEq, false_or, hrest, taken_take, Match.mk.injEq]
        constructor
        · intro hnone r hor
          rcases hor with ⟨rfl, rfl, -⟩ | hmem
          · exact hhere ⟨rfl, rfl⟩
          · exact hnone r hmem
        · intro hnone r hmem
          exact hnone r (Or.inr hmem)

/-! ## Assignments give readings -/

def Beyond (s : Position ι) (A : Finset (Match ι)) : Prop :=
  ∀ a ∈ A, s.word a.chain ≤ a.word ∧ s.reference ≤ a.reference

theorem Assignment.erase (h : Assignment P A) (a : Match ι) : Assignment P (A.erase a) where
  inside b hb := h.inside b (mem_of_mem_erase hb)
  matching b hb := h.matching b (mem_of_mem_erase hb)
  ordered b hb d hd := h.ordered b (mem_of_mem_erase hb) d (mem_of_mem_erase hd)
  wordOnce b hb d hd := h.wordOnce b (mem_of_mem_erase hb) d (mem_of_mem_erase hd)
  referenceOnce b hb d hd :=
    h.referenceOnce b (mem_of_mem_erase hb) d (mem_of_mem_erase hd)

theorem inside_advance (hs : Inside P s) (hc : s.word c < P.length c) : Inside P (s.advance c) := by
  refine ⟨?_, hs.2⟩
  intro d
  by_cases hdc : d = c
  · subst hdc
    rw [Position.advance_word_self]
    omega
  · rw [s.advance_word_of_ne hdc]
    exact hs.1 d

theorem Beyond.skipWord (hA : Beyond s A) (hnone : ∀ r, (⟨c, s.word c, r⟩ : Match ι) ∉ A) :
    Beyond (s.advance c) A := by
  rintro ⟨d, w, r⟩ ha
  obtain ⟨hword, href⟩ := hA _ ha
  refine ⟨?_, href⟩
  by_cases hdc : d = c
  · subst hdc
    have : w ≠ s.word d := by
      rintro rfl
      exact hnone r ha
    rw [Position.advance_word_self]
    simp only at hword ⊢
    omega
  · rwa [s.advance_word_of_ne hdc]

variable [Fintype ι]

theorem left_advance (hc : s.word c < P.length c) : left P (s.advance c) + 1 = left P s := by
  have hothers : ∑ d ∈ Finset.univ.erase c, (P.length d - (s.advance c).word d) =
      ∑ d ∈ Finset.univ.erase c, (P.length d - s.word d) := by
    refine Finset.sum_congr rfl ?_
    intro d hd
    rw [s.advance_word_of_ne (Finset.ne_of_mem_erase hd)]
  have h1 := Finset.add_sum_erase Finset.univ (fun d => P.length d - s.word d) (mem_univ c)
  have h2 := Finset.add_sum_erase Finset.univ (fun d => P.length d - (s.advance c).word d)
    (mem_univ c)
  simp only [Position.advance_word_self] at h2
  simp only [left, Position.advance_reference]
  omega

theorem Step.left_lt (hstep : Step P s move t) : left P t < left P s := by
  cases hstep with
  | skipWord c hc =>
    have := left_advance hc
    omega
  | skipReference hr =>
    have := left_next (P := P) (s := s) hr
    omega
  | take c hc hr hmatch =>
    have h1 := left_advance hc
    have h2 := left_next (P := P) (s := s.advance c) hr
    omega

theorem greatest_finish {n : ℕ} (h : (readings P).Greatest (finish P) (finish P) n) : n = 0 := by
  obtain ⟨⟨l, hl, rfl⟩, -⟩ := h
  cases l with
  | nil => rfl
  | cons move l =>
    obtain ⟨u, hstep, -⟩ := hl
    have := Step.left_lt hstep
    simp [left, finish] at this

/-- Every assignment is what some complete reading takes. -/
theorem exists_path (hs : Inside P s) (hass : Assignment P A) (hA : Beyond s A) :
    ∃ l, (readings P).Path s l (finish P) ∧ (taken l).toFinset = A := by
  induction hn : left P s using Nat.strong_induction_on generalizing s A with
  | _ n ih =>
  subst hn
  by_cases hr : s.reference < P.references
  · by_cases hex : ∃ c w, (⟨c, w, s.reference⟩ : Match ι) ∈ A
    · obtain ⟨c, w, hmem⟩ := hex
      have hw := (hA _ hmem).1
      have hlen := (hass.inside _ hmem).1
      simp only at hw hlen
      rcases Nat.lt_or_eq_of_le hw with hlt | rfl
      · -- the match uses a later word, so the word here is not used at all
        have hnone : ∀ r, (⟨c, s.word c, r⟩ : Match ι) ∉ A := by
          intro r hmem'
          have h1 := hass.ordered _ hmem' _ hmem rfl hlt
          have h2 := (hA _ hmem').2
          simp only at h1 h2
          omega
        have hc : s.word c < P.length c := by omega
        obtain ⟨l, hl, htaken⟩ := ih _ (by have := left_advance hc; omega)
          (inside_advance hs hc) hass (hA.skipWord hnone) rfl
        exact ⟨.skipWord c (s.word c) :: l, ⟨_, Step.skipWord c hc, hl⟩, htaken⟩
      · have hbeyond : Beyond (s.advance c).next (A.erase ⟨c, s.word c, s.reference⟩) := by
          rintro ⟨d, v, r⟩ ha
          obtain ⟨hne, hin⟩ := Finset.mem_erase.mp ha
          obtain ⟨hword, href⟩ := hA _ hin
          have hrne : r ≠ s.reference := by
            rintro rfl
            exact hne (hass.referenceOnce _ hin _ hmem rfl)
          refine ⟨?_, ?_⟩
          · rw [Position.next_word]
            by_cases hdc : d = c
            · subst hdc
              have hvne : v ≠ s.word d := by
                rintro rfl
                exact hne (hass.wordOnce _ hin _ hmem rfl rfl)
              rw [Position.advance_word_self]
              simp only at hword ⊢
              omega
            · rwa [s.advance_word_of_ne hdc]
          · rw [Position.next_reference, Position.advance_reference]
            simp only at href ⊢
            omega
        have hinside : Inside P (s.advance c).next := by
          refine ⟨(inside_advance hs hlen).1, ?_⟩
          rw [Position.next_reference, Position.advance_reference]
          omega
        have hleft : left P (s.advance c).next < left P s := by
          have h1 := left_advance hlen
          have h2 := left_next (s := s.advance c) (P := P) hr
          omega
        obtain ⟨l, hl, htaken⟩ := ih _ hleft hinside (hass.erase _) hbeyond rfl
        refine ⟨.take ⟨c, s.word c, s.reference⟩ :: l,
          ⟨_, Step.take c hlen hr (hass.matching _ hmem), hl⟩, ?_⟩
        rw [taken_take, toFinset_cons, htaken, Finset.insert_erase hmem]
    · have hbeyond : Beyond s.next A := by
        rintro ⟨d, v, r⟩ ha
        obtain ⟨hword, href⟩ := hA _ ha
        refine ⟨hword, ?_⟩
        have hrne : r ≠ s.reference := by
          rintro rfl
          exact hex ⟨d, v, ha⟩
        rw [Position.next_reference]
        simp only at href ⊢
        omega
      have hleft : left P s.next < left P s := by
        have := left_next (P := P) hr
        omega
      have hinside : Inside P s.next := ⟨hs.1, Nat.succ_le_of_lt hr⟩
      obtain ⟨l, hl, htaken⟩ := ih _ hleft hinside hass hbeyond rfl
      exact ⟨.skipReference :: l, ⟨_, Step.skipReference hr, hl⟩, htaken⟩
  · -- the reference is read to its end, so nothing is assigned any more
    have hempty : A = ∅ := by
      rw [Finset.eq_empty_iff_forall_notMem]
      intro a ha
      have := (hA a ha).2
      have := (hass.inside a ha).2
      omega
    subst hempty
    by_cases hex : ∃ c, s.word c < P.length c
    · obtain ⟨c, hc⟩ := hex
      obtain ⟨l, hl, htaken⟩ := ih _ (by have := left_advance hc; omega)
        (inside_advance hs hc) hass (by simp [Beyond]) rfl
      exact ⟨.skipWord c (s.word c) :: l, ⟨_, Step.skipWord c hc, hl⟩, htaken⟩
    · refine ⟨[], ?_, rfl⟩
      refine eq_finish_of_left hs ?_
      simp only [left, Nat.add_eq_zero_iff, Finset.sum_eq_zero_iff, mem_univ, forall_const]
      refine ⟨fun c => ?_, by omega⟩
      have := not_exists.mp hex c
      omega

/-! ## What all maximum assignments say of a word -/

omit [Fintype ι] in
theorem Step.inside (hstep : Step P s move t) (hs : Inside P s) : Inside P t := by
  cases hstep with
  | skipWord c hc => exact inside_advance hs hc
  | skipReference hr => exact ⟨hs.1, Nat.succ_le_of_lt hr⟩
  | take c hc hr hmatch => exact ⟨(inside_advance hs hc).1, Nat.succ_le_of_lt hr⟩

omit [Fintype ι] in
theorem Path.inside (h : (readings P).Path s l t) (hs : Inside P s) : Inside P t := by
  induction l generalizing s with
  | nil =>
    rw [Web.path_nil] at h
    exact h ▸ hs
  | cons move l ih =>
    obtain ⟨u, hstep, hl⟩ := h
    exact ih hl (Step.inside hstep hs)

theorem exists_reading (hass : Assignment P A) :
    ∃ l, (readings P).Path start l (finish P) ∧ (taken l).toFinset = A :=
  exists_path inside_start hass fun _ _ => ⟨Nat.zero_le _, Nat.zero_le _⟩

theorem maximum_iff {opt : ℕ} (hopt : (readings P).Greatest start (finish P) opt) :
    Maximum P A ↔ Assignment P A ∧ A.card = opt := by
  have hmost : ∀ B, Assignment P B → B.card ≤ opt := by
    intro B hB
    obtain ⟨l, hl, htaken⟩ := exists_reading hB
    rw [← htaken, ← Path.total_eq_card hl]
    exact hopt.le hl
  obtain ⟨⟨l, hl, htotal⟩, -⟩ := hopt
  constructor
  · rintro ⟨hass, hmax⟩
    have h1 := hmax _ (Path.assignment hl).1
    rw [← Path.total_eq_card hl, htotal] at h1
    exact ⟨hass, le_antisymm (hmost A hass) h1⟩
  · rintro ⟨hass, hcard⟩
    refine ⟨hass, ?_⟩
    intro B hB
    rw [hcard]
    exact hmost B hB

theorem maximum_iff_reading {opt : ℕ} (hopt : (readings P).Greatest start (finish P) opt) :
    Maximum P A ↔ ∃ l, (readings P).Path start l (finish P) ∧ (readings P).total l = opt ∧
        (taken l).toFinset = A := by
  rw [maximum_iff hopt]
  constructor
  · rintro ⟨hass, hcard⟩
    obtain ⟨l, hl, htaken⟩ := exists_reading hass
    exact ⟨l, hl, by rw [Path.total_eq_card hl, htaken, hcard], htaken⟩
  · rintro ⟨l, hl, htotal, rfl⟩
    exact ⟨(Path.assignment hl).1, by rw [← Path.total_eq_card hl, htotal]⟩

section
variable {F B : Position ι → ℕ}
  (hF : ∀ s, Inside P s → (readings P).Greatest start s (F s))
  (hB : ∀ s, Inside P s → (readings P).Greatest s (finish P) (B s))
include hF hB

omit [Fintype ι] in
theorem reading_takes_iff (hs : Inside P s) (hstep : Step P s move t) : F s + move.gain + B t = B start ↔
      ∃ l d, (readings P).Path start l s ∧ (readings P).Path t d (finish P) ∧
        (readings P).total (l ++ move :: d) = B start :=
  Web.Greatest.takes_iff (hB start inside_start) (hF s hs) (hB t (Step.inside hstep hs)) hstep

omit [Fintype ι] in
theorem reading_has_iff :
    (∃ l, (readings P).Path start l (finish P) ∧ (readings P).total l = B start ∧ move ∈ l) ↔
      ∃ s t, Inside P s ∧ Step P s move t ∧ F s + move.gain + B t = B start := by
  constructor
  · rintro ⟨l, hl, htotal, hmem⟩
    obtain ⟨before, after, rfl⟩ := append_of_mem hmem
    obtain ⟨s, hbefore, t, hstep, hafter⟩ := Web.path_append.mp hl
    have hs := Path.inside hbefore inside_start
    exact ⟨s, t, hs, hstep, (reading_takes_iff hF hB hs hstep).mpr
      ⟨before, after, hbefore, hafter, htotal⟩⟩
  · rintro ⟨s, t, hs, hstep, hsum⟩
    obtain ⟨before, after, hbefore, hafter, htotal⟩ :=
      (reading_takes_iff hF hB hs hstep).mp hsum
    exact ⟨before ++ move :: after, Web.path_append.mpr ⟨s, hbefore, t, hstep, hafter⟩, htotal,
      by simp⟩

theorem used_iff : (∃ A, Maximum P A ∧ pair ∈ A) ↔
      ∃ s, Inside P s ∧ s.word pair.chain = pair.word ∧ s.reference = pair.reference ∧
        pair.word < P.length pair.chain ∧ pair.reference < P.references ∧
        P.isMatch pair.chain pair.word pair.reference = true ∧
        F s + 1 + B (s.advance pair.chain).next = B start := by
  have hopt := hB start inside_start
  calc (∃ A, Maximum P A ∧ pair ∈ A)
      ↔ ∃ l, (readings P).Path start l (finish P) ∧ (readings P).total l = B start ∧
          .take pair ∈ l := by
        constructor
        · rintro ⟨A, hA, hmem⟩
          obtain ⟨l, hl, htotal, rfl⟩ := (maximum_iff_reading hopt).mp hA
          exact ⟨l, hl, htotal, mem_taken.mp (mem_toFinset.mp hmem)⟩
        · rintro ⟨l, hl, htotal, hmem⟩
          exact ⟨_, (maximum_iff_reading hopt).mpr ⟨l, hl, htotal, rfl⟩,
            mem_toFinset.mpr (mem_taken.mpr hmem)⟩
    _ ↔ _ := reading_has_iff hF hB
    _ ↔ _ := by
        constructor
        · rintro ⟨s, t, hs, hstep, hsum⟩
          cases hstep with
          | take c hc hr hmatch => exact ⟨s, hs, rfl, rfl, hc, hr, hmatch, hsum⟩
        · obtain ⟨c, w, r⟩ := pair
          rintro ⟨s, hs, hword, href, hc, hr, hmatch, hsum⟩
          simp only at hword href hc hr hmatch hsum
          subst hword href
          exact ⟨s, _, hs, Step.take c hc hr hmatch, hsum⟩

theorem omitted_iff (hw : w < P.length c) : (∃ A, Maximum P A ∧ ∀ r, (⟨c, w, r⟩ : Match ι) ∉ A) ↔
      ∃ s, Inside P s ∧ s.word c = w ∧ F s + B (s.advance c) = B start := by
  have hopt := hB start inside_start
  calc (∃ A, Maximum P A ∧ ∀ r, (⟨c, w, r⟩ : Match ι) ∉ A)
      ↔ ∃ l, (readings P).Path start l (finish P) ∧ (readings P).total l = B start ∧
          .skipWord c w ∈ l := by
        constructor
        · rintro ⟨A, hA, hnone⟩
          obtain ⟨l, hl, htotal, rfl⟩ := (maximum_iff_reading hopt).mp hA
          refine ⟨l, hl, htotal, (Path.skips_iff hl (Nat.zero_le w) hw).mpr ?_⟩
          intro r hr
          exact hnone r (mem_toFinset.mpr hr)
        · rintro ⟨l, hl, htotal, hmem⟩
          refine ⟨_, (maximum_iff_reading hopt).mpr ⟨l, hl, htotal, rfl⟩, ?_⟩
          intro r hr
          exact (Path.skips_iff hl (Nat.zero_le w) hw).mp hmem r (mem_toFinset.mp hr)
    _ ↔ _ := reading_has_iff hF hB
    _ ↔ _ := by
        constructor
        · rintro ⟨s, t, hs, hstep, hsum⟩
          cases hstep with
          | skipWord c hc => exact ⟨s, hs, rfl, hsum⟩
        · rintro ⟨s, hs, rfl, hsum⟩
          exact ⟨s, _, hs, Step.skipWord c hw, hsum⟩

end

omit [DecidableEq ι] [Fintype ι] in
theorem common_iff {r : ℕ} (hex : ∃ A, Maximum P A) : (∀ A, Maximum P A → (⟨c, w, r⟩ : Match ι) ∈ A) ↔
      (¬ ∃ A, Maximum P A ∧ ∀ r', (⟨c, w, r'⟩ : Match ι) ∉ A) ∧
        ∀ r', (∃ A, Maximum P A ∧ (⟨c, w, r'⟩ : Match ι) ∈ A) ↔ r' = r := by
  constructor
  · intro hall
    refine ⟨?_, ?_⟩
    · rintro ⟨A, hA, hnone⟩
      exact hnone r (hall A hA)
    · intro r'
      constructor
      · rintro ⟨A, hA, hmem⟩
        have := hA.1.wordOnce _ hmem _ (hall A hA) rfl rfl
        injection this
      · rintro rfl
        obtain ⟨A, hA⟩ := hex
        exact ⟨A, hA, hall A hA⟩
  · rintro ⟨hnever, honly⟩ A hA
    by_contra hmem
    refine hnever ⟨A, hA, ?_⟩
    intro r' hr'
    have := (honly r').mp ⟨A, hA, hr'⟩
    subst this
    exact hmem hr'

end

end JointChains
