import Batchalign.Lib.PatienceSort
import Batchalign.Utr.Census

/- The windows of the regions a census is cut into (`fa/utr/regions.rs`). The anchors are a longest
   chain (`anchorChain_longest`). No window is inverted (`partition_windows`), and together they leave
   no onset out (`regionsFrom_admits`). -/
namespace Batchalign.Utr
open PatienceSort List

/-! ## The chain -/

def Anchor.startMs (anchor : Anchor) : ℕ := anchor.timing.startMs

theorem patienceStep_reverse (tails : List (List Anchor)) (candidate : Anchor) :
    (patienceStep tails candidate).map List.reverse =
      place Anchor.startMs (tails.map List.reverse) candidate := by
  have hpile : pileFor Anchor.startMs (tails.map List.reverse) candidate =
      (tails.takeWhile fun chain => chain.head?.all fun tail =>
        decide (tail.timing.startMs ≤ candidate.timing.startMs)).length := by
    unfold pileFor
    rw [takeWhile_map, length_map]
    congr 2
    funext chain
    show endsBy Anchor.startMs candidate chain.reverse = _
    rw [endsBy, getLast?_reverse]
    rfl
  unfold place before patienceStep
  rw [hpile]
  simp only [map_append, map_cons, map_take, map_drop, reverse_cons, getElem?_map]
  split_ifs
  · rfl
  · cases tails[(tails.takeWhile _).length - 1]? <;> rfl

theorem foldl_patienceStep_reverse (candidates : List Anchor) : ∀ tails : List (List Anchor),
    (candidates.foldl patienceStep tails).map List.reverse =
      candidates.foldl (place Anchor.startMs) (tails.map List.reverse) := by
  induction candidates with
  | nil => exact fun _ => rfl
  | cons candidate candidates ih =>
    intro tails
    rw [foldl_cons, foldl_cons, ih, patienceStep_reverse]

theorem anchorChain_longest (census : List UtrUtteranceInfo) :
    Longest Anchor.startMs (anchorCandidates census) (anchorChain census) := by
  have hnone : Piles Anchor.startMs [] [] := Piles.nil
  have hpiles := hnone.foldl (anchorCandidates census)
  have hchain : anchorChain census = lastChain ((anchorCandidates census).foldl (place Anchor.startMs) []) := by
    have hrun := foldl_patienceStep_reverse (anchorCandidates census) []
    rw [map_nil] at hrun
    unfold anchorChain lastChain
    rw [← hrun, getLast?_map]
    cases ((anchorCandidates census).foldl patienceStep []).getLast? <;> rfl
  rw [hchain]
  exact hpiles.longest

/-! ## Windows -/

def UtrRegionEdge.ms? : UtrRegionEdge → Option ℕ
  | .streamEdge => none
  | .anchor _ ms => some ms

def leadingAnchor (chain : List Anchor) (first : ℕ) : Option Anchor :=
  chain.find? fun anchor => anchor.index == first

/-- Where a window closes before an anchor: after the words of both anchors. -/
def closesAt (chain : List Anchor) (first : ℕ) (anchor : Anchor) : ℕ :=
  max (max anchor.timing.endMs anchor.timing.startMs)
    (((leadingAnchor chain first).map fun leading => leading.timing.endMs).getD 0)

structure Windowed (census : ℕ) (chain : List Anchor) (region : UtrRegionSpan) : Prop where
  -- the edges are those of the file, or of the chain anchors next to the region
  floor : (region.firstUtterance = 0 ∧ region.onsetFloor = .streamEdge) ∨
    ∃ a ∈ chain, 0 < a.index ∧ a.index = region.firstUtterance ∧ region.onsetFloor = .anchor a.index a.timing.startMs
  ceiling : (region.lastUtterance + 1 = census ∧ region.onsetCeiling = .streamEdge) ∨
    ∃ b ∈ chain, b.index = region.lastUtterance + 1 ∧
      region.onsetCeiling = .anchor b.index (closesAt chain region.firstUtterance b)
  next : ∀ a ∈ chain, ¬ (region.firstUtterance < a.index ∧ a.index ≤ region.lastUtterance)
  upright : ∀ low high, region.onsetFloor.ms? = some low → region.onsetCeiling.ms? = some high → low ≤ high
  -- the words of the anchor the region opens at
  leading : ∀ a ∈ chain, a.index = region.firstUtterance →
    (∀ low, region.onsetFloor.ms? = some low → low ≤ a.timing.startMs) ∧
      ∀ high, region.onsetCeiling.ms? = some high → a.timing.startMs ≤ high ∧ a.timing.endMs ≤ high

section Chain
variable {census : ℕ} {chain : List Anchor}

theorem leadingAnchor_of_mem (hsorted : chain.Pairwise fun a b => a.index < b.index) {a : Anchor} (ha : a ∈ chain) :
    leadingAnchor chain a.index = some a := by
  unfold leadingAnchor
  induction chain with
  | nil => cases ha
  | cons b chain ih =>
    obtain ⟨hb, hsorted⟩ := pairwise_cons.mp hsorted
    rcases mem_cons.mp ha with rfl | ha
    · exact find?_cons_of_pos (beq_self_eq_true a.index)
    · have hne : (b.index == a.index) = false := beq_false_of_ne (hb a ha).ne
      rw [find?_cons_of_neg (by rw [hne]; exact Bool.false_ne_true)]
      exact ih hsorted ha

theorem le_closesAt (hsorted : chain.Pairwise fun a b => a.index < b.index) {a b : Anchor} (ha : a ∈ chain) :
    b.timing.startMs ≤ closesAt chain a.index b ∧ a.timing.endMs ≤ closesAt chain a.index b := by
  unfold closesAt
  rw [leadingAnchor_of_mem hsorted ha, Option.map_some, Option.getD_some]
  exact ⟨(le_max_right _ _).trans (le_max_left _ _), le_max_right _ _⟩

structure Opens (chain : List Anchor) (first : ℕ) (onsetFloor : UtrRegionEdge) (leadingEnd : Option ℕ) : Prop where
  floor : (first = 0 ∧ onsetFloor = .streamEdge) ∨
    ∃ a ∈ chain, 0 < a.index ∧ a.index = first ∧ onsetFloor = .anchor a.index a.timing.startMs
  leading : leadingEnd = (leadingAnchor chain first).map fun anchor => anchor.timing.endMs

variable {first : ℕ} {onsetFloor : UtrRegionEdge} {leadingEnd : Option ℕ}

theorem Opens.low_le (h : Opens chain first onsetFloor leadingEnd)
    (hsorted : chain.Pairwise fun a b => a.index < b.index) {a : Anchor} (ha : a ∈ chain) (hfirst : a.index = first)
    {low : ℕ} (hlow : onsetFloor.ms? = some low) : low = a.timing.startMs := by
  rcases h.floor with ⟨_, rfl⟩ | ⟨b, hb, _, hbfirst, rfl⟩
  · cases hlow
  · have hsame := leadingAnchor_of_mem hsorted hb
    rw [hbfirst, ← hfirst, leadingAnchor_of_mem hsorted ha] at hsame
    rw [Option.some.inj hsame]
    exact (Option.some.inj hlow).symm

theorem windowed_before (h : Opens chain first onsetFloor leadingEnd)
    (hindex : chain.Pairwise fun a b => a.index < b.index)
    (hstart : ∀ a ∈ chain, ∀ b ∈ chain, a.index < b.index → a.timing.startMs ≤ b.timing.startMs) {b : Anchor}
    (hb : b ∈ chain) (hfirst : first < b.index) (hnext : ∀ a ∈ chain, first < a.index → b.index ≤ a.index) :
    Windowed census chain ⟨first, b.index - 1, onsetFloor, .anchor b.index (closesAt chain first b)⟩ where
  floor := h.floor
  ceiling := by
    right
    exact ⟨b, hb, (Nat.sub_add_cancel (by omega)).symm, rfl⟩
  next := by
    intro a ha hin
    have := hnext a ha hin.1
    have hle : a.index ≤ b.index - 1 := hin.2
    omega
  upright := by
    intro low high hlow hhigh
    cases hhigh
    rcases h.floor with ⟨_, rfl⟩ | ⟨a, ha, _, hafirst, rfl⟩
    · cases hlow
    · cases hlow
      rw [← hafirst] at hfirst ⊢
      exact (hstart a ha b hb hfirst).trans (le_closesAt hindex ha).1
  leading := by
    intro a ha hafirst
    refine ⟨fun low hlow => (h.low_le hindex ha hafirst hlow).le, ?_⟩
    intro high hhigh
    cases hhigh
    have hlt : a.index < b.index := by
      rw [hafirst]
      exact hfirst
    rw [← show a.index = first from hafirst]
    exact ⟨(hstart a ha b hb hlt).trans (le_closesAt hindex ha).1, (le_closesAt hindex ha).2⟩

theorem regionsFrom_windowed (hindex : chain.Pairwise fun a b => a.index < b.index)
    (hstart : ∀ a ∈ chain, ∀ b ∈ chain, a.index < b.index → a.timing.startMs ≤ b.timing.startMs)
    (anchors : List Anchor) : ∀ {first : ℕ} {onsetFloor : UtrRegionEdge} {leadingEnd : Option ℕ}, Opens chain first onsetFloor leadingEnd →
      0 < census → chain.filter (fun a => decide (first < a.index)) = anchors →
      ∀ region ∈ regionsFrom census first onsetFloor leadingEnd anchors, Windowed census chain region.span := by
  induction anchors with
  | nil =>
    intro first onsetFloor leadingEnd h hpos hrest region hregion
    obtain rfl := mem_singleton.mp hregion
    have hnone : ∀ a ∈ chain, ¬ first < a.index := by
      intro a ha
      have := filter_eq_nil_iff.mp hrest a ha
      rwa [decide_eq_true_iff] at this
    refine ⟨h.floor, .inl ⟨Nat.sub_add_cancel hpos, rfl⟩, fun a ha hin => hnone a ha hin.1, ?_, ?_⟩
    · intro low high _ hhigh
      cases hhigh
    · intro a ha hafirst
      refine ⟨fun low hlow => (h.low_le hindex ha hafirst hlow).le, ?_⟩
      intro high hhigh
      cases hhigh
  | cons b anchors ih =>
    intro first onsetFloor leadingEnd h hpos hrest region hregion
    have hmem : b ∈ chain.filter fun a => decide (first < a.index) := by
      rw [hrest]
      exact mem_cons_self
    obtain ⟨hb, hfirst⟩ := mem_filter.mp hmem
    have hfirst : first < b.index := of_decide_eq_true hfirst
    have hsub : (b :: anchors).Pairwise fun a b => a.index < b.index := hrest ▸ hindex.filter _
    have hnext : ∀ a ∈ chain, first < a.index → b.index ≤ a.index := by
      intro a ha hlt
      have hin : a ∈ b :: anchors := hrest ▸ mem_filter.mpr ⟨ha, decide_eq_true hlt⟩
      rcases mem_cons.mp hin with rfl | hin
      · exact le_rfl
      · exact ((pairwise_cons.mp hsub).1 a hin).le
    rw [regionsFrom, h.leading] at hregion
    rcases mem_cons.mp hregion with rfl | hregion
    · exact windowed_before h hindex hstart hb hfirst hnext
    · apply ih ⟨.inr ⟨b, hb, by omega, rfl, rfl⟩, ?_⟩ hpos ?_ region hregion
      · rw [leadingAnchor_of_mem hindex hb]
        rfl
      · -- what follows the anchor is what the chain holds behind it
        have hfilter : chain.filter (fun a => decide (b.index < a.index)) =
            (chain.filter fun a => decide (first < a.index)).filter fun a => decide (b.index < a.index) := by
          rw [filter_filter]
          apply filter_congr
          intro a _
          rw [← Bool.decide_and]
          apply decide_eq_decide.mpr
          omega
        rw [hfilter, hrest, filter_cons_of_neg (by simp), filter_eq_self]
        intro a ha
        exact decide_eq_true ((pairwise_cons.mp hsub).1 a ha)

end Chain

/-! ## The census -/

theorem anchorChain_starts (census : List UtrUtteranceInfo) : ∀ a ∈ anchorChain census, ∀ b ∈ anchorChain census,
    a.index < b.index → a.timing.startMs ≤ b.timing.startMs := by
  have hindex := (anchorChain_sorted census).1
  rw [pairwise_map] at hindex
  have hstart := (anchorChain_longest census).sorted
  intro a ha b hb hlt
  obtain ⟨i, hi, rfl⟩ := mem_iff_getElem.mp ha
  obtain ⟨j, hj, rfl⟩ := mem_iff_getElem.mp hb
  rcases lt_trichotomy i j with hij | rfl | hij
  · exact pairwise_iff_getElem.mp hstart i j hi hj hij
  · exact le_rfl
  · have := pairwise_iff_getElem.mp hindex j i hj hi hij
    omega

theorem partition_windows (census : List UtrUtteranceInfo) : ∀ region ∈ partition census,
    Windowed census.length (anchorChain census) region.span := by
  have hindex := (anchorChain_sorted census).1
  rw [pairwise_map] at hindex
  unfold partition
  split_ifs with hnil
  · intro region hregion
    cases hregion
  · apply regionsFrom_windowed hindex (anchorChain_starts census) _ ?_ (length_pos_iff.mpr hnil) rfl
    refine ⟨.inl ⟨rfl, rfl⟩, ?_⟩
    cases hchain : anchorChain census with
    | nil => rfl
    | cons a chain =>
      rw [hchain] at hindex
      have hrest : chain.find? (fun anchor => anchor.index == 0) = none := by
        apply find?_eq_none.mpr
        intro b hb
        have := (pairwise_cons.mp hindex).1 b hb
        rw [beq_iff_eq]
        omega
      unfold leadingAnchor
      rw [head?_cons, find?_cons, hrest, Option.filter_some]
      cases a.index == 0 <;> rfl

variable {census : ℕ}

theorem regionsFrom_firsts (anchors : List Anchor) : ∀ {first : ℕ} {onsetFloor : UtrRegionEdge}
    {leadingEnd : Option ℕ}, (regionsFrom census first onsetFloor leadingEnd anchors).map
      (fun region => region.span.firstUtterance) = first :: anchors.map Anchor.index := by
  induction anchors with
  | nil => exact rfl
  | cons b anchors ih =>
    intro first onsetFloor leadingEnd
    rw [regionsFrom, map_cons, map_cons, ih]

def UtrRegionSpan.Owns (span : UtrRegionSpan) (utterance : ℕ) : Prop :=
  span.firstUtterance ≤ utterance ∧ utterance ≤ span.lastUtterance

theorem Tiles.start_le {regions : List UtrRegion} : ∀ {start : ℕ}, Tiles census start regions →
    ∀ region ∈ regions, start ≤ region.span.firstUtterance := by
  induction regions with
  | nil =>
    intro start _ region hregion
    cases hregion
  | cons head regions ih =>
    intro start h region hregion
    obtain ⟨hfirst, hlast, _, _, hrest⟩ := h
    rcases mem_cons.mp hregion with rfl | hregion
    · exact hfirst.ge
    · have := ih hrest region hregion
      omega

theorem Tiles.owner {regions : List UtrRegion} : ∀ {start : ℕ}, Tiles census start regions →
    ∀ {utterance : ℕ}, start ≤ utterance → utterance < census →
      ∃! k : ℕ, ∃ region, regions[k]? = some region ∧ region.span.Owns utterance := by
  induction regions with
  | nil =>
    intro start h utterance hlow hhigh
    have : start = census := h
    omega
  | cons head regions ih =>
    intro start h utterance hlow hhigh
    obtain ⟨hfirst, hlast, _, _, hrest⟩ := h
    by_cases hin : utterance ≤ head.span.lastUtterance
    · refine ⟨0, ⟨head, rfl, by rw [hfirst]; exact hlow, hin⟩, ?_⟩
      rintro (_ | k) ⟨region, hregion, howns⟩
      · rfl
      · -- the later regions begin behind it
        have := hrest.start_le region (mem_of_getElem? (getElem?_cons_succ ▸ hregion))
        have := howns.1
        omega
    · obtain ⟨k, ⟨region, hregion, howns⟩, hunique⟩ := ih hrest (by omega : _ ≤ utterance) hhigh
      refine ⟨k + 1, ⟨region, hregion, howns⟩, ?_⟩
      rintro (_ | j) ⟨region', hregion', howns'⟩
      · cases hregion'
        exact absurd howns'.2 hin
      · rw [hunique j ⟨region', hregion', howns'⟩]

theorem regionsFrom_admits (anchors : List Anchor) : ∀ (first : ℕ) (onsetFloor : UtrRegionEdge)
    (leadingEnd : Option ℕ) (onsetMs : ℕ), (∀ low, onsetFloor.ms? = some low → low ≤ onsetMs) →
      ∃ region ∈ regionsFrom census first onsetFloor leadingEnd anchors, region.span.admitsOnset onsetMs = true := by
  have hfloor : ∀ (edge : UtrRegionEdge) (onsetMs : ℕ), (∀ low, edge.ms? = some low → low ≤ onsetMs) →
      (match edge with
        | .streamEdge => true
        | .anchor _ ms => decide (ms ≤ onsetMs)) = true := by
    intro edge onsetMs h
    cases edge with
    | streamEdge => rfl
    | anchor _ ms => exact decide_eq_true (h ms rfl)
  induction anchors with
  | nil =>
    intro first onsetFloor leadingEnd onsetMs h
    refine ⟨_, mem_singleton_self _, ?_⟩
    show (_ && true) = true
    rw [Bool.and_true]
    exact hfloor onsetFloor onsetMs h
  | cons b anchors ih =>
    intro first onsetFloor leadingEnd onsetMs h
    by_cases hopen : onsetMs < max (max b.timing.endMs b.timing.startMs) (leadingEnd.getD 0)
    · refine ⟨_, mem_cons_self, ?_⟩
      unfold UtrRegionSpan.admitsOnset
      rw [Bool.and_eq_true]
      exact ⟨hfloor onsetFloor onsetMs h, decide_eq_true hopen⟩
    · obtain ⟨region, hregion, hadmits⟩ := ih b.index (.anchor b.index b.timing.startMs)
        (some b.timing.endMs) onsetMs (by
          intro low hlow
          cases hlow
          omega)
      exact ⟨region, mem_cons_of_mem _ hregion, hadmits⟩

/-- A census is cut at a longest chain of its timed anchors into regions that own each utterance once; their
  windows admit every onset exactly when there is an utterance. -/
theorem partition_regions (census : List UtrUtteranceInfo) :
    Tiles census.length 0 (partition census) ∧ (∀ utterance < census.length,
        ∃! k : ℕ, ∃ region, (partition census)[k]? = some region ∧ region.span.Owns utterance) ∧
      Longest Anchor.startMs (anchorCandidates census) (anchorChain census) ∧
      (partition census).tail.map (fun region => region.span.firstUtterance) =
        ((anchorChain census).filter fun anchor => decide (0 < anchor.index)).map Anchor.index ∧
      (∀ region ∈ partition census, Windowed census.length (anchorChain census) region.span) ∧
      ((∀ onsetMs, ∃ region ∈ partition census, region.span.admitsOnset onsetMs = true) ↔ census ≠ []) := by
  have htiles := partition_tiles census
  refine ⟨htiles, fun utterance h => htiles.owner (Nat.zero_le utterance) h, anchorChain_longest census, ?_,
    partition_windows census, ?_⟩
  · rw [map_tail]
    unfold partition
    split_ifs with hnil
    · rw [hnil]
      rfl
    · rw [regionsFrom_firsts, tail_cons]
  · unfold partition
    split_ifs with hnil
    · refine iff_of_false ?_ (not_not_intro hnil)
      intro hall
      obtain ⟨region, hregion, _⟩ := hall 0
      cases hregion
    · refine iff_of_true ?_ hnil
      intro onsetMs
      apply regionsFrom_admits
      intro low hlow
      cases hlow

/-- Without utterances there is no region to admit an onset. -/
theorem partition_admits_nothing_of_empty : ¬ ∀ (census : List UtrUtteranceInfo) (onsetMs : ℕ),
      ∃ region ∈ partition census, region.span.admitsOnset onsetMs = true := by
  intro h
  obtain ⟨region, hregion, _⟩ := h [] 0
  cases hregion

end Batchalign.Utr
