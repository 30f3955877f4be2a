import Mathlib.Algebra.Order.BigOperators.Group.Finset
import Mathlib.Algebra.Order.Group.Nat
import Mathlib.Data.Finset.Prod

/- Pairings of two finite sets and their weight. Where one alone has the greatest weight (`UniqueBest`),
   no pair of it is without weight unless forced, and the same one is found from either side. -/

/-- Each member of `A` and of `B` is in at most one pair. -/
structure Pairing {α β : Type*} (A : Finset α) (B : Finset β) (m : Finset (α × β)) : Prop where
  left : ∀ x ∈ m, x.1 ∈ A
  right : ∀ x ∈ m, x.2 ∈ B
  injLeft : ∀ x ∈ m, ∀ y ∈ m, x.1 = y.1 → x = y
  injRight : ∀ x ∈ m, ∀ y ∈ m, x.2 = y.2 → x = y

namespace Pairing
open Finset

set_option linter.unusedSectionVars false

variable {α β : Type*} {A : Finset α} {B : Finset β} {m m' : Finset (α × β)}
  {w : α → β → ℕ}

def weight (w : α → β → ℕ) (m : Finset (α × β)) : ℕ := ∑ x ∈ m, w x.1 x.2

/-- The only one with the property of the greatest weight. -/
def UniqueBest (P : Finset (α × β) → Prop) (w : α → β → ℕ) (m : Finset (α × β)) : Prop :=
  P m ∧ ∀ m', P m' → m' ≠ m → weight w m' < weight w m

/-- A set no larger than the other is paired whole. -/
def Considered (A : Finset α) (B : Finset β) (m : Finset (α × β)) : Prop :=
  Pairing A B m ∧ (A.card ≤ B.card → m.card = A.card)

theorem mono (h : Pairing A B m) (hsub : m' ⊆ m) : Pairing A B m' :=
  ⟨fun x hx => h.left x (hsub hx), fun x hx => h.right x (hsub hx),
    fun x hx y hy => h.injLeft x (hsub hx) y (hsub hy),
    fun x hx y hy => h.injRight x (hsub hx) y (hsub hy)⟩

theorem weight_mono (hsub : m' ⊆ m) : weight w m' ≤ weight w m :=
  sum_le_sum_of_subset hsub

variable [DecidableEq α] [DecidableEq β]

theorem swap (h : Pairing A B m) : Pairing B A (m.image Prod.swap) := by
  constructor
  · exact forall_mem_image.mpr h.right
  · exact forall_mem_image.mpr h.left
  · intro x hx y hy heq
    obtain ⟨u, hu, rfl⟩ := mem_image.mp hx
    obtain ⟨v, hv, rfl⟩ := mem_image.mp hy
    rw [h.injRight u hu v hv heq]
  · intro x hx y hy heq
    obtain ⟨u, hu, rfl⟩ := mem_image.mp hx
    obtain ⟨v, hv, rfl⟩ := mem_image.mp hy
    rw [h.injLeft u hu v hv heq]

theorem image_swap_swap (m : Finset (α × β)) : (m.image Prod.swap).image Prod.swap = m := by
  rw [image_image, Prod.swap_swap_eq, image_id]

theorem card_swap (m : Finset (α × β)) : (m.image Prod.swap).card = m.card :=
  card_image_of_injective _ Prod.swap_injective

theorem weight_swap (m : Finset (α × β)) : weight (fun b a => w a b) (m.image Prod.swap) = weight w m :=
  sum_image (fun _ _ _ _ heq => Prod.swap_injective heq)

theorem card_le_left (h : Pairing A B m) : m.card ≤ A.card := by
  rw [← card_image_of_injOn (f := Prod.fst) (fun x hx y hy => h.injLeft x hx y hy)]
  refine card_le_card ?_
  exact image_subset_iff.mpr h.left

theorem insert (h : Pairing A B m) {a : α} {b : β} (ha : a ∈ A) (hb : b ∈ B)
    (hfreeA : ∀ x ∈ m, x.1 ≠ a) (hfreeB : ∀ x ∈ m, x.2 ≠ b) : Pairing A B (insert (a, b) m) := by
  constructor
  · exact forall_mem_insert _ _ _ |>.mpr ⟨ha, h.left⟩
  · exact forall_mem_insert _ _ _ |>.mpr ⟨hb, h.right⟩
  · intro x hx y hy heq
    obtain rfl | hx := mem_insert.mp hx
    · obtain rfl | hy := mem_insert.mp hy
      · rfl
      · exact absurd heq.symm (hfreeA y hy)
    · obtain rfl | hy := mem_insert.mp hy
      · exact absurd heq (hfreeA x hx)
      · exact h.injLeft x hx y hy heq
  · intro x hx y hy heq
    obtain rfl | hx := mem_insert.mp hx
    · obtain rfl | hy := mem_insert.mp hy
      · rfl
      · exact absurd heq.symm (hfreeB y hy)
    · obtain rfl | hy := mem_insert.mp hy
      · exact absurd heq (hfreeB x hx)
      · exact h.injRight x hx y hy heq

/-- A further member of the first set is in no pair, or in one whose partner no other pair has. -/
theorem insert_left_iff {a : α} (ha : a ∉ A) : Pairing (Insert.insert a A) B m ↔
    Pairing A B m ∨ ∃ b ∈ B, ∃ m', Pairing A (B.erase b) m' ∧ m = Insert.insert (a, b) m' := by
  constructor
  · intro h
    by_cases hfree : ∀ x ∈ m, x.1 ≠ a
    · exact .inl ⟨fun x hx => mem_of_mem_insert_of_ne (h.left x hx) (hfree x hx), h.right,
        h.injLeft, h.injRight⟩
    · push Not at hfree
      obtain ⟨⟨a, b⟩, hx, rfl⟩ := hfree
      refine .inr ⟨b, h.right _ hx, m.erase (a, b), ?_, (insert_erase hx).symm⟩
      have hrest := h.mono (erase_subset (a, b) m)
      refine ⟨?_, ?_, hrest.injLeft, hrest.injRight⟩
      · intro y hy
        refine mem_of_mem_insert_of_ne (hrest.left y hy) ?_
        exact fun heq => (mem_erase.mp hy).1 (h.injLeft y (mem_erase.mp hy).2 _ hx heq)
      · intro y hy
        refine mem_erase.mpr ⟨?_, hrest.right y hy⟩
        exact fun heq => (mem_erase.mp hy).1 (h.injRight y (mem_erase.mp hy).2 _ hx heq)
  · rintro (h | ⟨b, hb, m', h, rfl⟩)
    · exact ⟨fun x hx => mem_insert_of_mem (h.left x hx), h.right, h.injLeft, h.injRight⟩
    · have hlarger : Pairing (Insert.insert a A) B m' :=
        ⟨fun x hx => mem_insert_of_mem (h.left x hx), fun x hx => mem_of_mem_erase (h.right x hx),
          h.injLeft, h.injRight⟩
      refine hlarger.insert (mem_insert_self a A) hb ?_ ?_
      · exact fun x hx heq => ha (heq ▸ h.left x hx)
      · exact fun x hx heq => (mem_erase.mp (h.right x hx)).1 heq

/-- A set with more members than there are pairs has one that is not paired. -/
theorem exists_free_left (hlt : m.card < A.card) : ∃ a ∈ A, ∀ x ∈ m, x.1 ≠ a := by
  have hcard : (m.image Prod.fst).card < A.card := lt_of_le_of_lt card_image_le hlt
  obtain ⟨a, ha, hfree⟩ := exists_mem_notMem_of_card_lt_card hcard
  exact ⟨a, ha, fun x hx heq => hfree (mem_image.mpr ⟨x, hx, heq⟩)⟩

theorem exists_free_right (hlt : m.card < B.card) : ∃ b ∈ B, ∀ x ∈ m, x.2 ≠ b := by
  have hcard : (m.image Prod.snd).card < B.card := lt_of_le_of_lt card_image_le hlt
  obtain ⟨b, hb, hfree⟩ := exists_mem_notMem_of_card_lt_card hcard
  exact ⟨b, hb, fun x hx heq => hfree (mem_image.mpr ⟨x, hx, heq⟩)⟩

/-- A pairing that leaves members of both sets over is part of a larger one. -/
theorem exists_insert (h : Pairing A B m) (hA : m.card < A.card) (hB : m.card < B.card) :
    ∃ x ∉ m, Pairing A B (Insert.insert x m) := by
  obtain ⟨a, ha, hfreeA⟩ := exists_free_left hA
  obtain ⟨b, hb, hfreeB⟩ := exists_free_right hB
  exact ⟨(a, b), fun hmem => hfreeA _ hmem rfl, h.insert ha hb hfreeA hfreeB⟩

/-- A pairing is part of one that is considered. -/
theorem exists_considered (h : Pairing A B m) : ∃ m', m ⊆ m' ∧ Considered A B m' := by
  induction hn : A.card - m.card using Nat.strong_induction_on generalizing m with
  | h n ih =>
  by_cases hdone : A.card ≤ B.card → m.card = A.card
  · exact ⟨m, Subset.rfl, h, hdone⟩
  · obtain ⟨hle, hne⟩ := Classical.not_imp.mp hdone
    have hlt : m.card < A.card := lt_of_le_of_ne h.card_le_left hne
    obtain ⟨x, hx, hinsert⟩ := h.exists_insert hlt (lt_of_lt_of_le hlt hle)
    have hcard := card_insert_of_notMem hx
    obtain ⟨m', hsub, hm'⟩ := ih _ (by omega) hinsert rfl
    exact ⟨m', (subset_insert x m).trans hsub, hm'⟩

theorem weight_erase {x : α × β} (hx : x ∈ m) : weight w (m.erase x) + w x.1 x.2 = weight w m :=
  sum_erase_add m (fun x => w x.1 x.2) hx

variable {n : ℕ}

theorem UniqueBest.positive_of_partial (h : UniqueBest (Pairing A B) w m) : ∀ x ∈ m, 0 < w x.1 x.2 := by
  intro x hx
  have hless := h.2 (m.erase x) (h.1.mono (erase_subset x m)) (erase_ne_self.mpr hx)
  have hweight := weight_erase (w := w) hx
  omega

theorem UniqueBest.positive_of_room
    (h : UniqueBest (fun m => Pairing A B m ∧ m.card = n) w m) (hroom : n < B.card) :
    ∀ x ∈ m, 0 < w x.1 x.2 := by
  intro x hx
  obtain ⟨hm, hcard⟩ := h.1
  obtain ⟨b, hb, hfree⟩ := exists_free_right (m := m) (hcard ▸ hroom)
  have hnew : (x.1, b) ∉ m.erase x := fun hmem => hfree _ (mem_of_mem_erase hmem) rfl
  have hpairing : Pairing A B (Insert.insert (x.1, b) (m.erase x)) := by
    refine (hm.mono (erase_subset x m)).insert (hm.left x hx) hb ?_ ?_
    · intro y hy heq
      exact (mem_erase.mp hy).1 (hm.injLeft y (mem_erase.mp hy).2 x hx heq)
    · exact fun y hy => hfree y (mem_erase.mp hy).2
  have hsame : (Insert.insert (x.1, b) (m.erase x)).card = n := by
    rw [card_insert_of_notMem hnew, card_erase_add_one hx, hcard]
  have hne : Insert.insert (x.1, b) (m.erase x) ≠ m :=
    fun heq => hfree _ (heq ▸ mem_insert_self _ _) rfl
  have hless := h.2 _ ⟨hpairing, hsame⟩ hne
  have hinsert : weight w (Insert.insert (x.1, b) (m.erase x)) =
      w x.1 b + weight w (m.erase x) := sum_insert hnew
  have hweight := weight_erase (w := w) hx
  omega

theorem UniqueBest.swap (h : UniqueBest (Considered A B) w m) :
    UniqueBest (Considered B A) (fun b a => w a b) (m.image Prod.swap) := by
  obtain ⟨⟨hm, hfull⟩, hbest⟩ := h
  have hother : ∀ p, Considered B A p → p ≠ m.image Prod.swap → Considered A B (p.image Prod.swap) →
      weight (fun b a => w a b) p < weight w m := by
    intro p _ hne hconsidered
    have hne' : p.image Prod.swap ≠ m := fun heq => hne (by rw [← heq, image_swap_swap])
    have hless := hbest _ hconsidered hne'
    rwa [← weight_swap, image_swap_swap] at hless
  unfold UniqueBest
  rw [weight_swap]
  obtain hlt | hcard | hlt := lt_trichotomy A.card B.card
  · refine ⟨⟨hm.swap, fun hle => absurd hle (by omega)⟩, ?_⟩
    intro p hp hne
    -- the rest of a pairing that leaves some of `A` over can only add weight
    obtain ⟨p', hsub, hp'⟩ := hp.1.swap.exists_considered
    have hle := weight_mono (w := w) hsub
    rw [← weight_swap, image_swap_swap] at hle
    by_cases heq : p' = m
    · subst heq
      have hstrict : p.image Prod.swap ≠ p' := fun h => hne (by rw [← h, image_swap_swap])
      obtain ⟨x, hx, hnot⟩ := exists_of_ssubset (hsub.ssubset_of_ne hstrict)
      have hpositive := UniqueBest.positive_of_room
        ⟨⟨hm, hfull hlt.le⟩, fun q hq => hbest q ⟨hq.1, fun _ => hq.2⟩⟩ hlt x hx
      have herase := weight_mono (w := w) (subset_erase.mpr ⟨hsub, hnot⟩)
      rw [← weight_swap, image_swap_swap] at herase
      have hweight := weight_erase (w := w) hx
      omega
    · exact lt_of_le_of_lt hle (hbest p' hp' heq)
  · refine ⟨⟨hm.swap, fun _ => ?_⟩, ?_⟩
    · rw [card_swap, hfull hcard.le, hcard]
    · intro p hp hne
      refine hother p hp hne ⟨hp.1.swap, fun _ => ?_⟩
      rw [card_swap, hp.2 hcard.ge, hcard]
  · refine ⟨⟨hm.swap, fun _ => ?_⟩, ?_⟩
    · rw [card_swap]
      by_contra hne
      have hle := hm.swap.card_le_left
      rw [card_swap] at hle
      obtain ⟨x, hx, hinsert⟩ := hm.exists_insert (by omega) (by omega)
      have hless := hbest _ ⟨hinsert, fun hle => absurd hle (by omega)⟩ (insert_ne_self.mpr hx)
      exact absurd (weight_mono (w := w) (subset_insert x m)) (by omega)
    · exact fun p hp hne => hother p hp hne ⟨hp.1.swap, fun hle => absurd hle (by omega)⟩

end Pairing
