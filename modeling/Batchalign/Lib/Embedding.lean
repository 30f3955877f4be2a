import Batchalign.Lib.CommonChain

/- Embeddings of one list in another, by position, under a matching relation. -/
namespace Embedding
open List

variable {α β : Type*} {R : α → β → Prop} {xs : List α} {ys : List β} {x : α} {y : β} {f g : List ℕ} {k n : ℕ}

/-- Increasing positions of `ys` that match the elements of `xs` one by one. -/
structure IsEmbedding (R : α → β → Prop) (xs : List α) (ys : List β) (f : List ℕ) : Prop where
  length : f.length = xs.length
  increasing : f.Pairwise (· < ·)
  matching : ∀ (i : ℕ) (x : α) (r : ℕ), xs[i]? = some x → f[i]? = some r → ∃ y, ys[r]? = some y ∧ R x y

/-- An embedding built along `ys`, whose first position is `k`. -/
inductive Embeds (R : α → β → Prop) : List α → List β → ℕ → List ℕ → Prop where
  | nil (ys : List β) (k : ℕ) : Embeds R [] ys k []
  | take {x : α} {xs : List α} {y : β} {ys : List β} {k : ℕ} {f : List ℕ} (h : R x y)
      (rest : Embeds R xs ys (k + 1) f) : Embeds R (x :: xs) (y :: ys) k (k :: f)
  | skip {x : α} {xs : List α} {y : β} {ys : List β} {k : ℕ} {f : List ℕ}
      (rest : Embeds R (x :: xs) ys (k + 1) f) : Embeds R (x :: xs) (y :: ys) k f

theorem Embeds.spec (h : Embeds R xs ys k f) : f.length = xs.length ∧ f.Pairwise (· < ·) ∧ (∀ r ∈ f, k ≤ r) ∧
    ∀ (i : ℕ) (x : α) (r : ℕ), xs[i]? = some x → f[i]? = some r → ∃ y, ys[r - k]? = some y ∧ R x y := by
  induction h with
  | nil ys k =>
    refine ⟨rfl, Pairwise.nil, fun r hr => absurd hr not_mem_nil, ?_⟩
    intro i x r hx
    cases hx
  | @take x xs y ys k f hxy rest ih =>
    obtain ⟨hlength, hincreasing, hfrom, hmatching⟩ := ih
    refine ⟨congrArg Nat.succ hlength, pairwise_cons.mpr ⟨hfrom, hincreasing⟩, ?_, ?_⟩
    · intro r hr
      rcases mem_cons.mp hr with rfl | hr
      · exact le_rfl
      · exact (Nat.le_succ k).trans (hfrom r hr)
    · intro i x' r hx hr
      cases i with
      | zero =>
        cases hx
        cases hr
        exact ⟨y, by rw [Nat.sub_self]; rfl, hxy⟩
      | succ i =>
        obtain ⟨y', hy', hmatch⟩ := hmatching i x' r hx hr
        have hle := hfrom r (mem_of_getElem? hr)
        refine ⟨y', ?_, hmatch⟩
        rw [show r - k = (r - (k + 1)) + 1 by omega]
        exact hy'
  | @skip x xs y ys k f rest ih =>
    obtain ⟨hlength, hincreasing, hfrom, hmatching⟩ := ih
    refine ⟨hlength, hincreasing, fun r hr => (Nat.le_succ k).trans (hfrom r hr), ?_⟩
    intro i x' r hx hr
    obtain ⟨y', hy', hmatch⟩ := hmatching i x' r hx hr
    have hle := hfrom r (mem_of_getElem? hr)
    refine ⟨y', ?_, hmatch⟩
    rw [show r - k = (r - (k + 1)) + 1 by omega]
    exact hy'

theorem Embeds.of_spec (hlength : f.length = xs.length) (hincreasing : f.Pairwise (· < ·)) (hfrom : ∀ r ∈ f, k ≤ r)
    (hmatching : ∀ (i : ℕ) (x : α) (r : ℕ), xs[i]? = some x → f[i]? = some r → ∃ y, ys[r - k]? = some y ∧ R x y) :
    Embeds R xs ys k f := by
  induction ys generalizing xs f k with
  | nil =>
    cases xs with
    | nil =>
      rw [length_eq_zero_iff.mp hlength]
      exact .nil [] k
    | cons x xs =>
      cases f with
      | nil => cases hlength
      | cons r f =>
        obtain ⟨y, hy, _⟩ := hmatching 0 x r rfl rfl
        cases hy
  | cons y ys ih =>
    cases xs with
    | nil =>
      rw [length_eq_zero_iff.mp hlength]
      exact .nil _ k
    | cons x xs =>
      cases f with
      | nil => cases hlength
      | cons r f =>
        obtain ⟨hlater, hrest⟩ := pairwise_cons.mp hincreasing
        have hr := hfrom r mem_cons_self
        by_cases hhere : r = k
        · subst hhere
          obtain ⟨y', hy', hmatch⟩ := hmatching 0 x r rfl rfl
          rw [Nat.sub_self] at hy'
          obtain rfl : y = y' := Option.some.inj hy'
          refine .take hmatch (ih (Nat.succ.inj hlength) hrest hlater ?_)
          intro i x' r' hx' hr'
          obtain ⟨y', hy', hmatch'⟩ := hmatching (i + 1) x' r' hx' hr'
          have hlt := hlater r' (mem_of_getElem? hr')
          refine ⟨y', ?_, hmatch'⟩
          rw [show r' - r = (r' - (r + 1)) + 1 by omega] at hy'
          exact hy'
        · have hall : ∀ r' ∈ r :: f, k + 1 ≤ r' := by
            intro r' hr'
            rcases mem_cons.mp hr' with rfl | hr'
            · omega
            · have hlt := hlater r' hr'
              omega
          refine .skip (ih hlength hincreasing hall ?_)
          intro i x' r' hx' hr'
          obtain ⟨y', hy', hmatch⟩ := hmatching i x' r' hx' hr'
          have hle := hall r' (mem_of_getElem? hr')
          refine ⟨y', ?_, hmatch⟩
          rw [show r' - k = (r' - (k + 1)) + 1 by omega] at hy'
          exact hy'

theorem isEmbedding_iff : IsEmbedding R xs ys f ↔ Embeds R xs ys 0 f := by
  constructor
  · intro h
    exact .of_spec h.length h.increasing (fun _ _ => Nat.zero_le _) h.matching
  · intro h
    obtain ⟨hlength, hincreasing, _, hmatching⟩ := h.spec
    exact ⟨hlength, hincreasing, hmatching⟩

theorem exists_embeds_iff : ∀ {xs : List α} {ys : List β} {k : ℕ},
    (∃ f, Embeds R xs ys k f) ↔ SublistForall₂ R xs ys := by
  intro xs ys k
  constructor
  · rintro ⟨f, h⟩
    induction h with
    | nil ys k => exact .nil
    | take h rest ih => exact .cons h ih
    | skip rest ih => exact .cons_right ih
  · intro h
    induction h generalizing k with
    | nil => exact ⟨[], .nil _ k⟩
    | cons h rest ih =>
      obtain ⟨f, hf⟩ := @ih (k + 1)
      exact ⟨k :: f, .take h hf⟩
    | @cons_right y xs ys rest ih =>
      obtain ⟨f, hf⟩ := @ih (k + 1)
      cases xs with
      | nil => exact ⟨[], .nil _ k⟩
      | cons x xs => exact ⟨f, .skip hf⟩

theorem Embeds.tail {a : ℕ} (h : Embeds R (x :: xs) ys k (a :: f)) : Embeds R xs ys k f ∧ k ≤ a := by
  obtain ⟨hlength, hincreasing, hfrom, hmatching⟩ := h.spec
  refine ⟨.of_spec (Nat.succ.inj hlength) (pairwise_cons.mp hincreasing).2 ?_ ?_, hfrom a mem_cons_self⟩
  · exact fun r hr => hfrom r (mem_cons_of_mem _ hr)
  · exact fun i x' r hx hr => hmatching (i + 1) x' r hx hr

/-! ## The greedy walk -/

section Greedy
variable {m : α → β → Bool}

def greedy (m : α → β → Bool) : List α → List β → ℕ → Option (List ℕ)
  | [], _, _ => some []
  | _ :: _, [], _ => none
  | x :: xs, y :: ys, k =>
    if m x y then (greedy m xs ys (k + 1)).map (k :: ·) else greedy m (x :: xs) ys (k + 1)
termination_by structural _ ys _ => ys

theorem greedy_embeds (h : greedy m xs ys k = some f) : Embeds (fun x y => m x y = true) xs ys k f := by
  induction ys generalizing xs k f with
  | nil =>
    cases xs with
    | nil =>
      cases h
      exact .nil [] k
    | cons x xs => cases h
  | cons y ys ih =>
    cases xs with
    | nil =>
      cases h
      exact .nil _ k
    | cons x xs =>
      unfold greedy at h
      split_ifs at h with hxy
      · obtain ⟨g, hg, rfl⟩ := Option.map_eq_some_iff.mp h
        exact .take hxy (ih hg)
      · exact .skip (ih h)

theorem Embeds.greedy (h : Embeds (fun x y => m x y = true) xs ys k g) :
    ∃ f, greedy m xs ys k = some f ∧ Forall₂ (· ≤ ·) f g := by
  induction ys generalizing xs k g with
  | nil =>
    cases h
    exact ⟨[], rfl, .nil⟩
  | cons y ys ih =>
    cases xs with
    | nil =>
      cases h
      exact ⟨[], rfl, .nil⟩
    | cons x xs =>
      unfold Embedding.greedy
      cases hxy : m x y with
      | true =>
        -- the rest of any embedding is one past this position
        cases h with
        | take _ rest =>
          obtain ⟨f, hf, hle⟩ := ih rest
          exact ⟨k :: f, by rw [if_pos rfl, hf]; rfl, .cons le_rfl hle⟩
        | skip rest =>
          cases g with
          | nil => cases rest.spec.1
          | cons a g =>
            obtain ⟨hrest, ha⟩ := rest.tail
            obtain ⟨f, hf, hle⟩ := ih hrest
            exact ⟨k :: f, by rw [if_pos rfl, hf]; rfl, .cons (by omega) hle⟩
      | false =>
        cases h with
        | take hmatch _ =>
          rw [hxy] at hmatch
          cases hmatch
        | skip rest =>
          obtain ⟨f, hf, hle⟩ := ih rest
          exact ⟨f, by rw [if_neg Bool.false_ne_true, hf], hle⟩

end Greedy

/-! ## Backwards -/

/-- The positions counted from the end of `n`, in order again. -/
def mirror (n : ℕ) (f : List ℕ) : List ℕ := (f.map fun r => n - 1 - r).reverse

theorem length_mirror (n : ℕ) (f : List ℕ) : (mirror n f).length = f.length := by
  unfold mirror
  rw [length_reverse, length_map]

theorem IsEmbedding.lt (h : IsEmbedding R xs ys f) {r : ℕ} (hr : r ∈ f) : r < ys.length := by
  obtain ⟨i, hi⟩ := mem_iff_getElem?.mp hr
  have hlt : i < xs.length := by
    rw [← h.length]
    exact (List.getElem?_eq_some_iff.mp hi).1
  obtain ⟨y, hy, _⟩ := h.matching i _ r (getElem?_eq_getElem hlt) hi
  exact (List.getElem?_eq_some_iff.mp hy).1

theorem IsEmbedding.mirror (h : IsEmbedding R xs ys f) :
    IsEmbedding R xs.reverse ys.reverse (mirror ys.length f) := by
  refine ⟨by rw [length_mirror, h.length, length_reverse], ?_, ?_⟩
  · unfold Embedding.mirror
    rw [pairwise_reverse, pairwise_map]
    apply Pairwise.imp_of_mem _ h.increasing
    intro a b _ hb hab
    have hlt := h.lt hb
    omega
  · intro i x r hx hr
    have hi : i < xs.length := by
      have hlt := (List.getElem?_eq_some_iff.mp hx).1
      rwa [length_reverse] at hlt
    rw [getElem?_reverse hi] at hx
    unfold Embedding.mirror at hr
    rw [getElem?_reverse (by rw [length_map, h.length]; exact hi), length_map, h.length,
      getElem?_map] at hr
    obtain ⟨r', hr', rfl⟩ := Option.map_eq_some_iff.mp hr
    obtain ⟨y, hy, hmatch⟩ := h.matching _ x r' hx hr'
    have hlt := h.lt (mem_of_getElem? hr')
    refine ⟨y, ?_, hmatch⟩
    rw [getElem?_reverse (by omega), ← hy]
    congr 1
    omega

theorem mirror_mirror (h : ∀ r ∈ f, r < n) : mirror n (mirror n f) = f := by
  unfold mirror
  rw [map_reverse, reverse_reverse, map_map]
  conv_rhs => rw [← map_id f]
  apply map_congr_left
  intro r hr
  have hlt := h r hr
  show n - 1 - (n - 1 - r) = r
  omega

theorem le_mirror (h : Forall₂ (· ≤ ·) f (mirror n g)) (hg : ∀ r ∈ g, r < n) :
    Forall₂ (· ≤ ·) g (mirror n f) := by
  have hmap : Forall₂ (· ≤ ·) ((mirror n g).map fun r => n - 1 - r) (f.map fun r => n - 1 - r) := by
    rw [forall₂_map_left_iff, forall₂_map_right_iff]
    exact h.flip.imp fun a b hab => Nat.sub_le_sub_left hab (n - 1)
  have hreverse := forall₂_reverse_iff.mpr hmap
  have hback : ((mirror n g).map fun r => n - 1 - r).reverse = g := mirror_mirror hg
  rw [hback] at hreverse
  exact hreverse

/-! ## The extremes -/

section Extremes
variable {m : α → β → Bool} {a b : List ℕ}

def greedyReverse (m : α → β → Bool) (xs : List α) (ys : List β) : Option (List ℕ) :=
  (greedy m xs.reverse ys.reverse 0).map (mirror ys.length)

theorem greedy_isEmbedding (h : greedy m xs ys 0 = some a) : IsEmbedding (fun x y => m x y = true) xs ys a :=
  isEmbedding_iff.mpr (greedy_embeds h)

theorem greedyReverse_isEmbedding (h : greedyReverse m xs ys = some b) :
    IsEmbedding (fun x y => m x y = true) xs ys b := by
  obtain ⟨g, hg, rfl⟩ := Option.map_eq_some_iff.mp h
  have hback := (greedy_isEmbedding hg).mirror
  rw [reverse_reverse, reverse_reverse, length_reverse] at hback
  exact hback

theorem IsEmbedding.between (h : IsEmbedding (fun x y => m x y = true) xs ys f) :
    ∃ a b, greedy m xs ys 0 = some a ∧ greedyReverse m xs ys = some b ∧
      Forall₂ (· ≤ ·) a f ∧ Forall₂ (· ≤ ·) f b := by
  obtain ⟨a, ha, hle⟩ := (isEmbedding_iff.mp h).greedy
  obtain ⟨g, hg, hmirror⟩ := (isEmbedding_iff.mp h.mirror).greedy
  refine ⟨a, Embedding.mirror ys.length g, ha, ?_, hle, le_mirror hmirror fun r hr => h.lt hr⟩
  show (Embedding.greedy m xs.reverse ys.reverse 0).map (Embedding.mirror ys.length) = _
  rw [hg]
  rfl

theorem greedy_isSome_iff : (greedy m xs ys 0).isSome ↔ SublistForall₂ (fun x y => m x y = true) xs ys := by
  rw [← exists_embeds_iff (k := 0), Option.isSome_iff_exists]
  constructor
  · rintro ⟨a, ha⟩
    exact ⟨a, greedy_embeds ha⟩
  · rintro ⟨f, hf⟩
    obtain ⟨a, ha, _⟩ := hf.greedy
    exact ⟨a, ha⟩

theorem greedyReverse_isSome_iff :
    (greedyReverse m xs ys).isSome ↔ SublistForall₂ (fun x y => m x y = true) xs ys := by
  rw [← exists_embeds_iff (k := 0), Option.isSome_iff_exists]
  constructor
  · rintro ⟨b, hb⟩
    exact ⟨b, isEmbedding_iff.mp (greedyReverse_isEmbedding hb)⟩
  · rintro ⟨f, hf⟩
    obtain ⟨_, b, _, hb, _⟩ := (isEmbedding_iff.mpr hf).between
    exact ⟨b, hb⟩

theorem eq_of_forall₂_le (h : Forall₂ (· ≤ ·) f g) (h' : Forall₂ (· ≤ ·) g f) : f = g := by
  induction h with
  | nil => rfl
  | cons hle _ ih =>
    cases h' with
    | cons hge rest => rw [le_antisymm hle hge, ih rest]

theorem earliest_eq_latest_iff (ha : greedy m xs ys 0 = some a) (hb : greedyReverse m xs ys = some b) :
    a = b ↔ ∃! f, IsEmbedding (fun x y => m x y = true) xs ys f := by
  constructor
  · intro hab
    refine ⟨a, greedy_isEmbedding ha, ?_⟩
    intro f hf
    obtain ⟨a', b', ha', hb', hle, hge⟩ := hf.between
    obtain rfl : a = a' := Option.some.inj (ha.symm.trans ha')
    obtain rfl : b = b' := Option.some.inj (hb.symm.trans hb')
    rw [← hab] at hge
    exact eq_of_forall₂_le hge hle
  · rintro ⟨f, _, hunique⟩
    calc a = f := hunique a (greedy_isEmbedding ha)
      _ = b := (hunique b (greedyReverse_isEmbedding hb)).symm

end Extremes

/-! ## Embeddings as chains -/

section Chains
open Chain
variable {M : ℕ → ℕ → Bool}

theorem eq_range (hincreasing : f.Pairwise (· < ·)) (hlt : ∀ i ∈ f, i < n) (hlength : f.length = n) :
    f = range n := by
  apply Pairwise.eq_of_mem_iff hincreasing pairwise_lt_range
  have hsubset : f ⊆ range n := fun i hi => mem_range.mpr (hlt i hi)
  have hperm : f.Perm (range n) := by
    apply (subperm_of_subset (hincreasing.imp fun h => h.ne) hsubset).perm_of_length_le
    rw [length_range, hlength]
  exact fun i => hperm.mem_iff

theorem pairwise_before_zip (h : f.Pairwise (· < ·)) (m : ℕ) : ((range m).zip f).Pairwise Before := by
  rw [pairwise_iff_getElem]
  intro i j hi hj hij
  rw [length_zip] at hi hj
  rw [getElem_zip, getElem_zip, getElem_range, getElem_range]
  exact ⟨hij, pairwise_iff_getElem.mp h i j (by omega) (by omega) hij⟩

theorem IsEmbedding.isChain (hM : ∀ i j x y, xs[i]? = some x → ys[j]? = some y → R x y → M i j = true)
    (h : IsEmbedding R xs ys f) : IsChain M xs.length ys.length ((range xs.length).zip f) := by
  have hpair : ∀ q ∈ (range xs.length).zip f, q.1 < xs.length ∧ f[q.1]? = some q.2 := by
    intro q hq
    obtain ⟨i, hi⟩ := mem_iff_getElem?.mp hq
    obtain ⟨h1, h2⟩ := getElem?_zip_eq_some.mp hi
    obtain ⟨hlt, heq⟩ := List.getElem?_eq_some_iff.mp h1
    rw [getElem_range] at heq
    rw [length_range] at hlt
    rw [← heq]
    exact ⟨hlt, h2⟩
  refine ⟨pairwise_before_zip h.increasing _, ?_, ?_⟩
  · intro q hq
    obtain ⟨hlt, hf⟩ := hpair q hq
    have hx : xs[q.1]? = some xs[q.1] := getElem?_eq_getElem hlt
    obtain ⟨y, hy, hR⟩ := h.matching q.1 _ q.2 hx hf
    exact hM q.1 q.2 _ y hx hy hR
  · intro q hq
    obtain ⟨hlt, hf⟩ := hpair q hq
    exact ⟨hlt, h.lt (mem_of_getElem? hf)⟩

theorem isEmbedding_of_isChain {c : List (ℕ × ℕ)}
    (hM : ∀ i j, M i j = true → ∃ x y, xs[i]? = some x ∧ ys[j]? = some y ∧ R x y)
    (h : IsChain M xs.length ys.length c) (hlength : c.length = xs.length) :
    IsEmbedding R xs ys (c.map Prod.snd) ∧ c = (range xs.length).zip (c.map Prod.snd) := by
  have hfst : c.map Prod.fst = range xs.length := by
    apply eq_range
    · exact pairwise_map.mpr (h.increasing.imp fun hb => hb.1)
    · intro i hi
      obtain ⟨q, hq, rfl⟩ := mem_map.mp hi
      exact (h.inside q hq).1
    · rw [length_map, hlength]
  have hzip : c = (range xs.length).zip (c.map Prod.snd) := by
    rw [← hfst]
    exact (zip_unzip c).symm.trans (by rw [unzip_eq_map])
  refine ⟨⟨by rw [length_map, hlength], pairwise_map.mpr (h.increasing.imp fun hb => hb.2), ?_⟩, hzip⟩
  intro i x r hx hr
  rw [getElem?_map] at hr
  obtain ⟨q, hq, rfl⟩ := Option.map_eq_some_iff.mp hr
  have hqi : q.1 = i := by
    have hi : (c.map Prod.fst)[i]? = some q.1 := by rw [getElem?_map, hq]; rfl
    rw [hfst] at hi
    obtain ⟨_, heq⟩ := List.getElem?_eq_some_iff.mp hi
    rw [getElem_range] at heq
    exact heq.symm
  obtain ⟨x', y, hx', hy, hR⟩ := hM q.1 q.2 (h.matching q (mem_of_getElem? hq))
  rw [hqi, hx, Option.some.injEq] at hx'
  subst hx'
  exact ⟨y, hy, hR⟩

theorem common_iff (hM : ∀ i j, M i j = true ↔ ∃ x y, xs[i]? = some x ∧ ys[j]? = some y ∧ R x y)
    (h : IsEmbedding R xs ys f) (hunique : ∀ g, IsEmbedding R xs ys g → g = f) (q : ℕ × ℕ) :
    Common M xs.length ys.length q ↔ q ∈ (range xs.length).zip f := by
  have hchain := h.isChain (M := M) fun i j x y hx hy hR => (hM i j).mpr ⟨x, y, hx, hy, hR⟩
  have hlength : ((range xs.length).zip f).length = xs.length := by
    rw [length_zip, length_range, h.length, Nat.min_self]
  have hlcs : lcs M xs.length ys.length = xs.length := by
    apply le_antisymm (lcs_le_left M _ _)
    calc xs.length = ((range xs.length).zip f).length := hlength.symm
      _ ≤ lcs M xs.length ys.length := chain_le_lcs hchain
  constructor
  · intro hcommon
    exact hcommon _ ⟨hchain, by rw [hlength, hlcs]⟩
  · rintro hq c ⟨hc, hoptimal⟩
    obtain ⟨hembedding, hzip⟩ := isEmbedding_of_isChain (fun i j => (hM i j).mp) hc (by rw [hoptimal, hlcs])
    rw [hzip, hunique _ hembedding]
    exact hq

end Chains

end Embedding
