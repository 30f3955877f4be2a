import Batchalign.Utr.RegionPlan

/- The plan of a whole file (`fa/utr.rs`, `fa/utr/evidence.rs`). Every region is planned on its own;
   regions that claimed one token are planned again without the claim, and the plans are placed one
   after another (`assemble`). -/
namespace Batchalign.Utr
open Fa DpAlign Polled List

/-! ## Contested tokens -/

/-- The tokens the owned utterances admitted. -/
def LocalRegionPlan.ownedClaims (plan : LocalRegionPlan) : List ℕ :=
  (plan.utterances.take plan.span.owned).flatMap fun planned =>
    planned.evidence.admitted.map AdmittedUtrWordMatch.token

def claimsOf (plans : List LocalRegionPlan) : List (ℕ × ℕ) :=
  plans.zipIdx.flatMap fun (plan, region) => plan.ownedClaims.map fun token => (region, token)

/-- `ContestedTokens::between`: who claimed each token last, and the contested ones. -/
structure ClaimTables where
  claimedBy : ℕ → Option ℕ
  contested : List ℕ

def ClaimTables.claim (tables : ClaimTables) (claim : ℕ × ℕ) : ClaimTables where
  claimedBy := Function.update tables.claimedBy claim.2 (some claim.1)
  contested :=
    if (tables.claimedBy claim.2).any fun other => other != claim.1 then claim.2 :: tables.contested
    else tables.contested

/-- `ContestedTokens::between`. -/
def contestedBetween (plans : List LocalRegionPlan) : List ℕ :=
  ((claimsOf plans).foldl ClaimTables.claim ⟨fun _ => none, []⟩).contested

def touches (contested : List ℕ) (plan : LocalRegionPlan) : Bool := plan.ownedClaims.any contested.contains

/-! ## The file -/

structure UtrRegionSummary where
  span : UtrRegionSpan
  strategy : UtrAlignmentStrategy
  withdrawnClaims : List ℕ

/-- What the global pass decided for each utterance. -/
structure UtrAlignmentPlan where
  strategy : UtrOrderModel
  regions : List UtrRegionSummary
  utterances : List UtrUtteranceAlignmentEvidence
  searchEnvelopes : List (Option FaSearchEnvelope)

/-- What each region owns, addressed in the file. -/
def UtrAlignmentPlan.assemble (strategy : UtrOrderModel) (plans : List LocalRegionPlan) : UtrAlignmentPlan where
  strategy := strategy
  regions := plans.map fun plan => ⟨plan.span, plan.strategy, plan.withdrawnClaims⟩
  utterances := plans.flatMap fun plan =>
    (plan.utterances.take plan.span.owned).map fun planned => planned.evidence.placedAfter plan.span.firstUtterance
  searchEnvelopes := plans.flatMap fun plan =>
    (plan.utterances.take plan.span.owned).map fun planned =>
      planned.envelope.map (FaSearchEnvelope.placedAfter plan.span.firstUtterance)

section Plan
variable (env : SearchEnv) (census : List UtrUtteranceInfo) (tokens : PreparedUtrTokens) (mode : MatchMode)
  (participation : GlobalUtrParticipation)

def planOf (contested : List ℕ) (region : UtrRegion) : Work LocalRegionPlan :=
  planRegion env (UtrOrderModel.of census participation) (withinRegion env.chars tokens region) region.span
    (region.searched census) mode participation contested

def planGlobalUtrAlignmentFor : Work UtrAlignmentPlan := do
  Work.check
  let first ← (partition census).mapM (planOf env census tokens mode participation [])
  if contestedBetween first = [] then pure (.assemble (UtrOrderModel.of census participation) first)
  else
    let plans ← ((partition census).zip first).mapM fun (region, plan) =>
      if touches (contestedBetween first) plan then
        planOf env census tokens mode participation (contestedBetween first) region
      else pure plan
    pure (.assemble (UtrOrderModel.of census participation) plans)

def firstPlans : List LocalRegionPlan :=
  (partition census).map fun region => (planOf env census tokens mode participation [] region).value

def contestedTokens : List ℕ := contestedBetween (firstPlans env census tokens mode participation)

def finalPlan (region : UtrRegion) : LocalRegionPlan :=
  if touches (contestedTokens env census tokens mode participation)
      (planOf env census tokens mode participation [] region).value then
    (planOf env census tokens mode participation (contestedTokens env census tokens mode participation) region).value
  else (planOf env census tokens mode participation [] region).value

theorem value_planGlobalUtrAlignmentFor :
    (planGlobalUtrAlignmentFor env census tokens mode participation).value =
      .assemble (UtrOrderModel.of census participation)
        ((partition census).map (finalPlan env census tokens mode participation)) := by
  have hfirst : ((partition census).mapM (planOf env census tokens mode participation [])).value =
      firstPlans env census tokens mode participation := Work.value_mapM _ _
  unfold planGlobalUtrAlignmentFor
  rw [Work.value_bind, Work.value_bind, hfirst]
  change Work.value (if contestedTokens env census tokens mode participation = [] then _ else _) = _
  by_cases hnone : contestedTokens env census tokens mode participation = []
  · rw [if_pos hnone, Work.value_pure]
    refine congrArg _ (map_congr_left fun region _ => ?_)
    have hno : touches [] (planOf env census tokens mode participation [] region).value = false := by
      simp [touches]
    unfold finalPlan
    rw [hnone, hno]
    rfl
  · rw [if_neg hnone, Work.value_bind, Work.value_mapM, Work.value_pure, firstPlans, zip_map_right, map_map]
    refine congrArg _ ?_
    have hdiag : (partition census).zip (partition census) = (partition census).map fun region => (region, region) := by
      induction partition census with
      | nil => rfl
      | cons region regions ih => rw [zip_cons_cons, ih, map_cons]
    rw [hdiag, map_map]
    refine map_congr_left fun region _ => ?_
    show Work.value (if touches (contestedTokens env census tokens mode participation)
      (planOf env census tokens mode participation [] region).value then _ else _) = _
    unfold finalPlan
    split <;> rfl

end Plan

/-! ## One entry per utterance -/

structure LocalRegionPlan.Covers (plan : LocalRegionPlan) (span : UtrRegionSpan) (searched : List UtrUtteranceInfo) :
    Prop where
  span_eq : plan.span = span
  infos : plan.utterances.map PlannedUtterance.info = searched
  numbered : plan.utterances.map (fun planned => planned.evidence.utteranceIndex) = List.range searched.length

theorem buildAlignmentPlan_covers (sim : String → String → ℕ) (strategy : UtrAlignmentStrategy)
    (payload : List UtrPayloadWord) (stream : UtrLexicalStream) (selection : UtrMatchSelection) (span : UtrRegionSpan)
    (searched : List UtrUtteranceInfo) (participation : GlobalUtrParticipation) (contested : List ℕ) :
    (buildAlignmentPlan sim strategy payload stream selection span searched participation contested).Covers span searched where
  span_eq := rfl
  infos := by
    refine ext_getElem (by simp [buildAlignmentPlan]) fun i hi hi' => ?_
    simp [buildAlignmentPlan]
  numbered := by
    refine ext_getElem (by simp [buildAlignmentPlan]) fun i hi hi' => ?_
    simp [buildAlignmentPlan]

theorem length_interiorFloors (utterances : List PlannedUtterance) :
    ∀ (k : ℕ) (floor : Option MeasuredBound), (interiorFloors k floor utterances).length = utterances.length := by
  induction utterances with
  | nil => intro k floor; rfl
  | cons planned rest ih =>
    intro k floor
    rw [interiorFloors, length_cons, length_cons, ih]

theorem length_interiorCeilings (utterances : List PlannedUtterance) :
    ∀ k : ℕ, (interiorCeilings k utterances).1.length = utterances.length := by
  induction utterances with
  | nil => intro k; rfl
  | cons planned rest ih =>
    intro k
    rw [interiorCeilings]
    rw [length_cons, length_cons, ih]

theorem map_boundInteriorOnlySearches {β : Type} (plan : LocalRegionPlan) (stream : UtrLexicalStream)
    (f : PlannedUtterance → β) (hf : ∀ planned envelope, f { planned with envelope := envelope } = f planned) :
    (boundInteriorOnlySearches plan stream).utterances.map f = plan.utterances.map f := by
  unfold boundInteriorOnlySearches
  split
  · have hlen : plan.utterances.length ≤
        ((interiorFloors 0 none plan.utterances).zip (interiorCeilings 0 plan.utterances).1).length := by
      rw [length_zip, length_interiorFloors, length_interiorCeilings, Nat.min_self]
    rw [map_map]
    calc (plan.utterances.zip ((interiorFloors 0 none plan.utterances).zip (interiorCeilings 0 plan.utterances).1)).map _
        = (plan.utterances.zip ((interiorFloors 0 none plan.utterances).zip
            (interiorCeilings 0 plan.utterances).1)).map (f ∘ Prod.fst) :=
          map_congr_left fun entry _ => hf entry.1 _
      _ = plan.utterances.map f := by rw [← map_map, map_fst_zip hlen]
  · rfl

theorem boundInteriorOnlySearches_covers {plan : LocalRegionPlan} {span : UtrRegionSpan}
    {searched : List UtrUtteranceInfo} (h : plan.Covers span searched) (stream : UtrLexicalStream) :
    (boundInteriorOnlySearches plan stream).Covers span searched where
  span_eq := by
    unfold boundInteriorOnlySearches
    split
    · exact h.span_eq
    · exact h.span_eq
  infos := by rw [map_boundInteriorOnlySearches plan stream _ fun _ _ => rfl, h.infos]
  numbered := by rw [map_boundInteriorOnlySearches plan stream _ fun _ _ => rfl, h.numbered]

theorem planRegion_covers (env : SearchEnv) (order : UtrOrderModel) (stream : UtrLexicalStream) (span : UtrRegionSpan)
    (searched : List UtrUtteranceInfo) (mode : MatchMode) (participation : GlobalUtrParticipation) (contested : List ℕ) :
    (planRegion env order stream span searched mode participation contested).value.Covers span searched := by
  unfold planRegion
  rw [Work.value_bind]
  split
  · unfold planInterleaving
    rw [Work.value_bind, Work.value_bind]
    split
    · exact buildAlignmentPlan_covers ..
    · exact buildAlignmentPlan_covers ..
  · unfold planUtrAlignment
    split
    · exact buildAlignmentPlan_covers ..
    · exact boundInteriorOnlySearches_covers (buildAlignmentPlan_covers ..) _

section Assembled
variable {env : SearchEnv} {census : List UtrUtteranceInfo} {tokens : PreparedUtrTokens} {mode : MatchMode}
  {participation : GlobalUtrParticipation}

theorem finalPlan_covers (region : UtrRegion) :
    (finalPlan env census tokens mode participation region).Covers region.span (region.searched census) := by
  unfold finalPlan planOf
  split
  · exact planRegion_covers ..
  · exact planRegion_covers ..

theorem owned_placed {region : UtrRegion} {plan : LocalRegionPlan} {n : ℕ}
    (h : plan.Covers region.span (region.searched census)) (hn : census.length = n)
    (hle : region.span.firstUtterance ≤ region.span.lastUtterance)
    (hsearch : region.span.lastUtterance + 1 ≤ region.searchedEnd) (hend : region.searchedEnd ≤ n) :
    ((plan.utterances.take plan.span.owned).map fun planned =>
      (planned.evidence.placedAfter plan.span.firstUtterance).utteranceIndex) =
      range' region.span.firstUtterance (region.span.lastUtterance + 1 - region.span.firstUtterance) := by
  have hlen : (region.searched census).length = region.searchedEnd - region.span.firstUtterance := by
    unfold UtrRegion.searched
    rw [length_take, length_drop]
    omega
  have hnumbered := congrArg (List.take plan.span.owned) h.numbered
  rw [← map_take] at hnumbered
  rw [h.span_eq] at hnumbered ⊢
  calc (plan.utterances.take region.span.owned).map (fun planned =>
        (planned.evidence.placedAfter region.span.firstUtterance).utteranceIndex)
      = ((plan.utterances.take region.span.owned).map fun planned => planned.evidence.utteranceIndex).map
          (region.span.firstUtterance + ·) := by
        rw [map_map]
        exact map_congr_left fun planned _ => UtrUtteranceAlignmentEvidence.utteranceIndex_placedAfter ..
    _ = ((range (region.searched census).length).take region.span.owned).map
          (region.span.firstUtterance + ·) := by rw [hnumbered]
    _ = range' region.span.firstUtterance (region.span.lastUtterance + 1 - region.span.firstUtterance) := by
        rw [take_range, hlen, ← range'_eq_map_range]
        refine congrArg (range' region.span.firstUtterance) ?_
        unfold UtrRegionSpan.owned
        omega

theorem assemble_numbered {strategy : UtrOrderModel} (regions : List UtrRegion) :
    ∀ {start : ℕ}, Tiles census.length start regions →
      ∀ {plan : UtrRegion → LocalRegionPlan}, (∀ region, (plan region).Covers region.span (region.searched census)) →
      ((UtrAlignmentPlan.assemble strategy (regions.map plan)).utterances.map
        UtrUtteranceAlignmentEvidence.utteranceIndex) = range' start (census.length - start) := by
  induction regions with
  | nil =>
    intro start htiles plan _
    rw [show start = census.length from htiles, Nat.sub_self]
    rfl
  | cons region regions ih =>
    intro start htiles plan hplan
    obtain ⟨rfl, hle, hsearch, hend, htail⟩ := htiles
    have hrest := ih htail hplan
    have howned := owned_placed (hplan region) rfl hle hsearch hend
    unfold UtrAlignmentPlan.assemble at hrest ⊢
    simp only [map_cons, flatMap_cons, map_append, map_map] at hrest ⊢
    rw [hrest]
    obtain ⟨k, hk⟩ : ∃ k, region.span.lastUtterance + 1 = region.span.firstUtterance + k :=
      ⟨region.span.lastUtterance + 1 - region.span.firstUtterance, by omega⟩
    have hsplit : census.length - region.span.firstUtterance =
        k + (census.length - (region.span.firstUtterance + k)) := by omega
    rw [hk, Nat.add_sub_cancel_left] at howned
    refine (congrArg (· ++ _) howned).trans ?_
    rw [hk, hsplit, range'_append_1]

variable (env census tokens mode participation) in
theorem planGlobal_numbered :
    ((planGlobalUtrAlignmentFor env census tokens mode participation).value.utterances.map
      UtrUtteranceAlignmentEvidence.utteranceIndex) = range census.length := by
  rw [value_planGlobalUtrAlignmentFor]
  rw [assemble_numbered (partition census) (partition_tiles census) finalPlan_covers, Nat.sub_zero,
    range_eq_range']

end Assembled

end Batchalign.Utr
