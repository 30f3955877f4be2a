import Batchalign.Interleaving.GraphOrder
import Batchalign.Lib.PartitionPoint

/- The source graph as blocks between boundaries. Every turn and episode is a grid of words, and
   `buildEdges` lays the grids one after another. The number of words before a node (`wordsBefore_node`)
   makes the graph acyclic. -/
namespace Batchalign.Interleaving
open List

/-- A run of another speaker after turn `u`, up to turn `e`. -/
structure IsRun (turns : List SpeakerTurn) (u e : ℕ) : Prop where
  nonempty : u + 1 < e
  inside : e ≤ turns.length
  other : ∃ turn next, turns[u]? = some turn ∧ turns[u + 1]? = some next ∧
    turn.speaker ≠ next.speaker ∧ ∀ k, u + 1 < k → k < e → ∃ later, turns[k]? = some later ∧
      later.speaker = next.speaker ∧ later.continuation = .overlappingSpeakerRun

/-! ## Blocks -/

structure Block where
  entry : ℕ
  leave : ℕ
  left : ℕ
  right : ℕ
  firstStart : ℕ
  secondStart : ℕ
  deriving DecidableEq

def Block.inner (b : Block) : ℕ := (b.left + 1) * (b.right + 1) - 2

/-- Node `(i, j)` of a block whose first new node is `base`. -/
def Block.node (b : Block) (base i j : ℕ) : ℕ :=
  gridNode base b.entry b.leave b.left b.right i j

def Block.pushes (b : Block) (base : ℕ) : List (ℕ × Edge) :=
  if b.left = 0 ∧ b.right = 0 then [(b.entry, ⟨b.leave, none⟩)]
  else (List.range (b.left + 1)).flatMap fun i => (List.range (b.right + 1)).flatMap fun j =>
    gridEdges (b.node base) b.firstStart b.secondStart b.left b.right i j

def lay (building : Building) (b : Block) : Building :=
  ⟨building.nodes + b.inner, building.pushed ++ b.pushes building.nodes⟩

section Turns
variable (turns : List SpeakerTurn)

def turnBlock (u : ℕ) : Block :=
  ⟨u, u + 1, offsetAt turns (u + 1) - offsetAt turns u, 0, offsetAt turns u, offsetAt turns (u + 1)⟩

def episodeBlock (span : Episode) : Block :=
  ⟨span.first, span.followingEnd, offsetAt turns (span.first + 1) - offsetAt turns span.first,
    offsetAt turns span.followingEnd - offsetAt turns (span.first + 1), offsetAt turns span.first,
    offsetAt turns (span.first + 1)⟩

def blocks : List Block :=
  (List.range turns.length).map (turnBlock turns) ++ (episodes turns).map (episodeBlock turns)

def basesFrom : ℕ → List Block → List (ℕ × Block)
  | _, [] => []
  | base, b :: bs => (base, b) :: basesFrom (base + b.inner) bs

def bases : List (ℕ × Block) := basesFrom (turns.length + 1) (blocks turns)

end Turns

variable {turns : List SpeakerTurn} {prepared : PreparedGraph} {b : Block} {u v i j k base : ℕ}

/-! ## Offsets -/

theorem offsetAt_zero (turns : List SpeakerTurn) : offsetAt turns 0 = 0 := rfl

theorem offsetAt_succ {turn : SpeakerTurn} (h : turns[u]? = some turn) :
    offsetAt turns (u + 1) = offsetAt turns u + turn.words.length := by
  rw [offsetAt, take_add_one, h, Option.toList_some, map_append, sum_append, ← offsetAt]
  rfl

theorem offsetAt_mono (h : u ≤ v) : offsetAt turns u ≤ offsetAt turns v := by
  obtain ⟨k, rfl⟩ := Nat.exists_eq_add_of_le h
  rw [offsetAt, offsetAt, take_add, map_append, sum_append]
  exact Nat.le_add_right _ _

theorem offsetAt_cons_succ (turn : SpeakerTurn) (turns : List SpeakerTurn) (u : ℕ) :
    offsetAt (turn :: turns) (u + 1) = turn.words.length + offsetAt turns u := by
  rw [offsetAt, take_succ_cons, map_cons, sum_cons, ← offsetAt]

variable {offsets : List ℕ} {span : Episode} {bs : List Block} {e : Edge}

theorem countChains_offsets {words nodes total : ℕ} (h : countChains words nodes turns = .ok (total, offsets)) (hu : u ≤ turns.length) :
    (words :: offsets).getD u 0 = words + offsetAt turns u := by
  induction turns generalizing words nodes total offsets u with
  | nil =>
    obtain rfl : u = 0 := Nat.le_zero.mp hu
    rfl
  | cons turn turns ih =>
    rw [countChains] at h
    split at h
    · cases h
    · next words' hwords =>
      split at h
      · cases h
      · split at h
        · cases h
        · next total' offsets' hrest =>
          cases h
          rw [checkedAdd] at hwords
          split_ifs at hwords
          cases hwords
          cases u with
          | zero => rfl
          | succ u =>
            rw [getD_cons_succ, ih hrest (Nat.le_of_succ_le_succ hu), offsetAt_cons_succ, add_assoc]

def preparedOf (turns : List SpeakerTurn) (span : Episode) : PreparedEpisode :=
  let b := episodeBlock turns span
  if b.left = 0 ∧ b.right = 0 then .empty span
  else .grid span b.left b.right ((b.left + 1) * (b.right + 1))

theorem countGrids_episodes {nodes total : ℕ} {spans : List Episode} {made : List PreparedEpisode}
    (hoffsets : ∀ u ≤ turns.length, offsets.getD u 0 = offsetAt turns u)
    (hspans : ∀ span ∈ spans, span.first < turns.length ∧ span.followingEnd ≤ turns.length)
    (h : countGrids turns offsets nodes spans = .ok (total, made)) :
    made = spans.map (preparedOf turns) := by
  induction spans generalizing nodes total made with
  | nil =>
    cases h
    rfl
  | cons span spans ih =>
    obtain ⟨hfirst, hend⟩ := hspans span mem_cons_self
    have hlater := fun s hs => hspans s (mem_cons_of_mem _ hs)
    have hleft : (turns[span.first]?).elim 0 (fun t => t.words.length) =
        (episodeBlock turns span).left := by
      have hat : turns[span.first]? = some turns[span.first] := getElem?_eq_getElem hfirst
      rw [hat, episodeBlock, offsetAt_succ hat, Option.elim_some, Nat.add_sub_cancel_left]
    have hright : offsets.getD span.followingEnd 0 - offsets.getD (span.first + 1) 0 =
        (episodeBlock turns span).right := by
      rw [hoffsets _ hend, hoffsets _ hfirst, episodeBlock]
    rw [countGrids] at h
    simp only [hleft, hright] at h
    rw [map_cons, preparedOf]
    split_ifs at h ⊢ with hempty
    · split at h
      · cases h
      · next hrest =>
        cases h
        rw [ih hlater hrest]
    · split at h
      · cases h
      · next cells hcells =>
        split at h
        · cases h
        · split_ifs at h
          split at h
          · cases h
          · next hrest =>
            cases h
            -- the product passed its checks, so it is the product
            have hproduct : cells =
                ((episodeBlock turns span).left + 1) * ((episodeBlock turns span).right + 1) := by
              simp only [checkedAdd, checkedMul, Option.bind_eq_some_iff] at hcells
              obtain ⟨a, ha, c, hc, hcells⟩ := hcells
              split_ifs at ha hc hcells
              rw [← Option.some.inj hcells, ← Option.some.inj ha, ← Option.some.inj hc]
            rw [ih hlater hrest, hproduct]

/-! ## Episodes -/

theorem mem_episodesFrom :
    span ∈ episodesFrom turns u ↔ span.first = u ∧ IsRun turns u span.followingEnd := by
  have hat : ∀ k, (turns.drop u)[k]? = turns[u + k]? := fun k => getElem?_drop
  rw [episodesFrom]
  split
  · next turn next rest hdrop =>
    have hturn : turns[u]? = some turn := by rw [← add_zero u, ← hat, hdrop]; rfl
    have hnext : turns[u + 1]? = some next := by rw [← hat, hdrop]; rfl
    have hrest : ∀ k, rest[k]? = turns[u + 2 + k]? := by
      intro k
      rw [add_assoc, ← hat, hdrop, add_comm 2 k, getElem?_cons_succ, getElem?_cons_succ]
    have hcontinuing : ∀ i, i ≤ continuing next.speaker rest ↔ ∀ k < i, ∃ later,
        turns[u + 2 + k]? = some later ∧ later.speaker = next.speaker ∧
          later.continuation = .overlappingSpeakerRun := by
      intro i
      rw [continuing, PartitionPoint.le_takeWhile_iff]
      simp [hrest]
    split_ifs with hother
    · rw [mem_map]
      constructor
      · rintro ⟨i, hi, rfl⟩
        rw [mem_range, Nat.lt_succ_iff, hcontinuing] at hi
        refine ⟨rfl, ⟨by show u + 1 < u + 2 + i; omega, ?_, turn, next, hturn, hnext, hother, ?_⟩⟩
        · cases i with
          | zero => exact (List.getElem?_eq_some_iff.mp hnext).1
          | succ i =>
            obtain ⟨later, hlater, -⟩ := hi i (Nat.lt_succ_self i)
            exact (List.getElem?_eq_some_iff.mp hlater).1
        · intro k hk hlt
          replace hlt : k < u + 2 + i := hlt
          obtain ⟨later, hlater, hsame⟩ := hi (k - (u + 2)) (by omega)
          rw [Nat.add_sub_cancel' (by omega)] at hlater
          exact ⟨later, hlater, hsame⟩
      · rintro ⟨hfirst, hrun⟩
        obtain ⟨turn', next', hturn', hnext', -, hmembers⟩ := hrun.other
        obtain rfl : next = next' := Option.some.inj (hnext.symm.trans hnext')
        have hlt := hrun.nonempty
        refine ⟨span.followingEnd - (u + 2), ?_, ?_⟩
        · rw [mem_range, Nat.lt_succ_iff, hcontinuing]
          exact fun k hk => hmembers (u + 2 + k) (by omega) (by omega)
        · rw [Nat.add_sub_cancel' (by omega), ← hfirst]
    · refine iff_of_false not_mem_nil ?_
      rintro ⟨-, hrun⟩
      obtain ⟨turn', next', hturn', hnext', hne, -⟩ := hrun.other
      rw [hturn] at hturn'
      rw [hnext] at hnext'
      cases hturn'
      cases hnext'
      exact hother hne
  · next hshort =>
    refine iff_of_false not_mem_nil ?_
    rintro ⟨-, hrun⟩
    obtain ⟨turn, next, hturn, hnext, -⟩ := hrun.other
    have hlt : u + 1 < turns.length := (List.getElem?_eq_some_iff.mp hnext).1
    refine hshort turns[u] turns[u + 1] (turns.drop (u + 2)) ?_
    rw [drop_eq_getElem_cons (by omega), drop_eq_getElem_cons hlt]

theorem mem_episodes : span ∈ episodes turns ↔ IsRun turns span.first span.followingEnd := by
  simp only [episodes, mem_flatMap, mem_range, mem_episodesFrom]
  constructor
  · rintro ⟨u, -, rfl, hrun⟩
    exact hrun
  · intro hrun
    have hlt := hrun.nonempty
    have hle := hrun.inside
    exact ⟨span.first, by omega, rfl, hrun⟩

theorem admitGraph_ok (h : admitGraph turns = .ok prepared) :
    prepared.turns = turns ∧ (∀ u ≤ turns.length, prepared.offsets.getD u 0 = offsetAt turns u) ∧
      prepared.episodes = (episodes turns).map (preparedOf turns) := by
  rw [admitGraph] at h
  split at h
  · cases h
  · split_ifs at h
    split at h
    · cases h
    · next nodes offsets hchains =>
      have hoffsets : ∀ u ≤ turns.length, (0 :: offsets).getD u 0 = offsetAt turns u := by
        intro u hu
        rw [countChains_offsets hchains hu, zero_add]
      split_ifs at h
      split at h
      · cases h
      · next hgrids =>
        cases h
        refine ⟨rfl, hoffsets, countGrids_episodes hoffsets ?_ hgrids⟩
        intro span hspan
        have hrun := mem_episodes.mp hspan
        have hlt := hrun.nonempty
        have hle := hrun.inside
        exact ⟨by omega, hle⟩

/-! ## The graph is laid block by block -/

theorem chainOf_eq (building : Building) (hu : u < turns.length) :
    chainOf (offsetAt turns u) u (turns[u]).words.length building = lay building (turnBlock turns u) := by
  have hlen : offsetAt turns (u + 1) - offsetAt turns u = (turns[u]).words.length := by
    rw [offsetAt_succ (getElem?_eq_getElem hu), Nat.add_sub_cancel_left]
  rw [chainOf, lay, Block.inner, Block.pushes, turnBlock, hlen]
  simp only [and_true]
  split_ifs with hempty
  · rw [hempty]
    rfl
  · refine congrArg₂ Building.mk (by omega) (congrArg _ ?_)
    have hnode : ∀ i, (turnBlock turns u).node building.nodes i 0 =
        chainNode building.nodes u (turns[u]).words.length i := by
      intro i
      rw [Block.node, gridNode, chainNode, turnBlock, hlen]
      simp
    have hedges : ∀ i < (turns[u]).words.length, gridEdges ((turnBlock turns u).node building.nodes)
        (offsetAt turns u) (offsetAt turns (u + 1)) (turns[u]).words.length 0 i 0 =
          [(chainNode building.nodes u (turns[u]).words.length i,
            ⟨chainNode building.nodes u (turns[u]).words.length (i + 1),
              some (offsetAt turns u + i)⟩)] := by
      intro i hi
      rw [gridEdges, if_pos hi, if_neg (lt_irrefl 0), hnode, hnode, append_nil]
    have hlast : gridEdges ((turnBlock turns u).node building.nodes) (offsetAt turns u)
        (offsetAt turns (u + 1)) (turns[u]).words.length 0 (turns[u]).words.length 0 = [] := by
      rw [gridEdges, if_neg (lt_irrefl _), if_neg (lt_irrefl 0), append_nil]
    rw [turnBlock, hlen] at hedges hlast
    simp only [zero_add, range_one, flatMap_singleton]
    rw [range_succ, flatMap_append, flatMap_singleton, hlast, append_nil, map_eq_flatMap]
    exact flatMap_congr fun i hi => (hedges i (mem_range.mp hi)).symm

theorem chains_eq (hoffsets : ∀ u ≤ turns.length, offsets.getD u 0 = offsetAt turns u) {rest : List SpeakerTurn}
    (hrest : turns.drop u = rest) (building : Building) : chains offsets u rest building =
      ((range' u rest.length).map (turnBlock turns)).foldl lay building := by
  induction rest generalizing u building with
  | nil => rfl
  | cons turn rest ih =>
    have hu : u < turns.length := by
      by_contra hge
      rw [drop_eq_nil_of_le (by omega)] at hrest
      cases hrest
    rw [drop_eq_getElem_cons hu] at hrest
    obtain ⟨rfl, hlater⟩ := cons.inj hrest
    rw [chains, hoffsets u hu.le, chainOf_eq building hu, ih hlater, length_cons,
      range'_succ, map_cons, foldl_cons]

theorem gridOf_eq (hoffsets : ∀ u ≤ turns.length, offsets.getD u 0 = offsetAt turns u) (hspan : span.first < turns.length) (building : Building) :
    gridOf offsets building (preparedOf turns span) = lay building (episodeBlock turns span) := by
  rw [preparedOf, lay, Block.pushes, Block.inner]
  split_ifs with hempty
  · rw [gridOf, hempty.1, hempty.2]
    rfl
  · rw [gridOf]
    simp only [hoffsets _ hspan.le, hoffsets _ hspan]
    rfl

theorem buildEdges_eq (h : admitGraph turns = .ok prepared) :
    buildEdges prepared = (blocks turns).foldl lay ⟨turns.length + 1, []⟩ := by
  obtain ⟨rfl, hoffsets, hepisodes⟩ := admitGraph_ok h
  have hchains := chains_eq hoffsets (drop_zero (l := prepared.turns))
    ⟨prepared.turns.length + 1, []⟩
  rw [buildEdges, hchains, hepisodes, blocks, foldl_append, ← range_eq_range',
    foldl_map, foldl_map, foldl_map]
  refine foldl_ext _ _ _ fun building span hspan => ?_
  have hrun := mem_episodes.mp hspan
  have hlt := hrun.nonempty
  have hle := hrun.inside
  exact gridOf_eq hoffsets (by omega) building

/-! ## Nodes and edges of the blocks -/

theorem foldl_lay (bs : List Block) (building : Building) :
    bs.foldl lay building = ⟨building.nodes + (bs.map Block.inner).sum,
      building.pushed ++ (basesFrom building.nodes bs).flatMap fun p => p.2.pushes p.1⟩ := by
  induction bs generalizing building with
  | nil => simp [basesFrom]
  | cons b bs ih =>
    rw [foldl_cons, ih, lay, map_cons, sum_cons, basesFrom, flatMap_cons]
    simp only [add_assoc, append_assoc]

theorem basesFrom_apart (base : ℕ) (bs : List Block) :
    (basesFrom base bs).Pairwise (fun p q => p.1 + p.2.inner ≤ q.1) ∧
      ∀ p ∈ basesFrom base bs, base ≤ p.1 ∧ p.1 + p.2.inner ≤ base + (bs.map Block.inner).sum := by
  induction bs generalizing base with
  | nil => exact ⟨.nil, fun p hp => by cases hp⟩
  | cons b bs ih =>
    obtain ⟨hapart, hinside⟩ := ih (base + b.inner)
    rw [basesFrom, map_cons, sum_cons]
    refine ⟨pairwise_cons.mpr ⟨fun q hq => (hinside q hq).1, hapart⟩, ?_⟩
    intro p hp
    rcases mem_cons.mp hp with rfl | hp
    · exact ⟨le_refl _, by rw [← add_assoc]; exact Nat.le_add_right _ _⟩
    · obtain ⟨hbase, hend⟩ := hinside p hp
      exact ⟨by omega, by omega⟩

theorem exists_base (hv : base ≤ v) (hlt : v < base + (bs.map Block.inner).sum) :
    ∃ p ∈ basesFrom base bs, p.1 ≤ v ∧ v < p.1 + p.2.inner := by
  induction bs generalizing base with
  | nil =>
    rw [map_nil, sum_nil] at hlt
    omega
  | cons b bs ih =>
    rw [map_cons, sum_cons, ← add_assoc] at hlt
    by_cases hhere : v < base + b.inner
    · exact ⟨_, mem_cons_self, hv, hhere⟩
    · obtain ⟨p, hp, hin⟩ := ih (by omega) hlt
      exact ⟨p, mem_cons_of_mem _ hp, hin⟩

theorem mem_basesFrom {p : ℕ × Block} (h : p ∈ basesFrom base bs) : p.2 ∈ bs := by
  induction bs generalizing base with
  | nil => cases h
  | cons b bs ih =>
    rcases mem_cons.mp h with rfl | h
    · exact mem_cons_self
    · exact mem_cons_of_mem _ (ih h)

theorem exists_basesFrom (base : ℕ) (h : b ∈ bs) : ∃ base', (base', b) ∈ basesFrom base bs := by
  induction bs generalizing base with
  | nil => cases h
  | cons c bs ih =>
    rcases mem_cons.mp h with rfl | h
    · exact ⟨base, mem_cons_self⟩
    · obtain ⟨base', hmem⟩ := ih (base + c.inner) h
      exact ⟨base', mem_cons_of_mem _ hmem⟩

structure Block.Inner (b : Block) (i j : ℕ) : Prop where
  left : i ≤ b.left
  right : j ≤ b.right
  notEntry : ¬ (i = 0 ∧ j = 0)
  notLeave : ¬ (i = b.left ∧ j = b.right)

theorem Block.Inner.bounds (h : b.Inner i j) :
    1 ≤ i * (b.right + 1) + j ∧ i * (b.right + 1) + j ≤ b.inner := by
  obtain ⟨hi, hj, hentry, hleave⟩ := h
  have hrow : i * (b.right + 1) ≤ b.left * (b.right + 1) := Nat.mul_le_mul_right _ hi
  have hcells : (b.left + 1) * (b.right + 1) = b.left * (b.right + 1) + b.right + 1 := by ring
  constructor
  · rcases Nat.eq_zero_or_pos i with rfl | hpos
    · omega
    · have := Nat.mul_le_mul_right (b.right + 1) hpos
      omega
  · rw [Block.inner, hcells]
    rcases lt_or_ge i b.left with hlt | hge
    · have := Nat.mul_le_mul_right (b.right + 1) (show i + 1 ≤ b.left from hlt)
      rw [Nat.add_mul] at this
      omega
    · omega

theorem Block.node_inner (h : b.Inner i j) (base : ℕ) :
    b.node base i j = base + (i * (b.right + 1) + j - 1) := by
  rw [Block.node, gridNode, if_neg h.notEntry, if_neg h.notLeave]

theorem Block.node_entry (b : Block) (base : ℕ) : b.node base 0 0 = b.entry := by
  rw [Block.node, gridNode, if_pos ⟨rfl, rfl⟩]

theorem Block.node_leave (hne : ¬ (b.left = 0 ∧ b.right = 0)) (base : ℕ) :
    b.node base b.left b.right = b.leave := by
  rw [Block.node, gridNode, if_neg hne, if_pos ⟨rfl, rfl⟩]

/-- A step inside a block: along either axis, or past a block without words. -/
inductive Block.Step (b : Block) (base : ℕ) : ℕ → Option ℕ → ℕ → Prop
  | first {i j : ℕ} : i < b.left → j ≤ b.right →
      b.Step base (b.node base i j) (some (b.firstStart + i)) (b.node base (i + 1) j)
  | second {i j : ℕ} : i ≤ b.left → j < b.right →
      b.Step base (b.node base i j) (some (b.secondStart + j)) (b.node base i (j + 1))
  | pass : b.left = 0 → b.right = 0 → b.Step base b.entry none b.leave

theorem Block.mem_pushes : (v, e) ∈ b.pushes base ↔ b.Step base v e.word e.target := by
  rw [Block.pushes]
  split_ifs with hempty
  · constructor
    · intro h
      cases mem_singleton.mp h
      exact .pass hempty.1 hempty.2
    · obtain ⟨target, word⟩ := e
      intro h
      cases h with
      | first hi => omega
      | second _ hj => omega
      | pass => exact mem_singleton_self _
  · simp only [mem_flatMap, mem_range, gridEdges, mem_append]
    constructor
    · rintro ⟨i, hi, j, hj, h | h⟩
      · split_ifs at h with hlt
        · cases mem_singleton.mp h
          exact .first hlt (Nat.le_of_lt_succ hj)
        · cases h
      · split_ifs at h with hlt
        · cases mem_singleton.mp h
          exact .second (Nat.le_of_lt_succ hi) hlt
        · cases h
    · obtain ⟨target, word⟩ := e
      intro h
      cases h with
      | @first i j hi hj =>
        refine ⟨i, Nat.lt_succ_of_lt hi, j, Nat.lt_succ_of_le hj, .inl ?_⟩
        rw [if_pos hi]
        exact mem_singleton_self _
      | @second i j hi hj =>
        refine ⟨i, Nat.lt_succ_of_le hi, j, Nat.lt_succ_of_lt hj, .inr ?_⟩
        rw [if_pos hj]
        exact mem_singleton_self _
      | pass hleft hright => exact absurd ⟨hleft, hright⟩ hempty

theorem Building.mem_edges {building : Building} : e ∈ building.edges v ↔ (v, e) ∈ building.pushed := by
  rw [Building.edges, mem_filterMap]
  constructor
  · rintro ⟨⟨w, d⟩, hmem, h⟩
    split_ifs at h with hw
    cases h
    rwa [← hw]
  · intro h
    exact ⟨(v, e), h, if_pos rfl⟩

theorem mem_edges_iff (h : admitGraph turns = .ok prepared) :
    e ∈ (buildEdges prepared).edges v ↔ ∃ p ∈ bases turns, p.2.Step p.1 v e.word e.target := by
  rw [Building.mem_edges, buildEdges_eq h, foldl_lay, nil_append, mem_flatMap]
  simp only [Block.mem_pushes]
  rfl

theorem nodes_eq (h : admitGraph turns = .ok prepared) :
    (buildEdges prepared).nodes = turns.length + 1 + ((blocks turns).map Block.inner).sum := by
  rw [buildEdges_eq h, foldl_lay]

/-! ## Words before a node -/

structure Block.Lies (turns : List SpeakerTurn) (b : Block) : Prop where
  forward : b.entry < b.leave
  inside : b.leave ≤ turns.length
  first : b.firstStart = offsetAt turns b.entry
  second : b.secondStart = offsetAt turns (b.entry + 1)
  left : b.firstStart + b.left = b.secondStart
  right : b.secondStart + b.right = offsetAt turns b.leave

theorem turnBlock_lies (hu : u < turns.length) : (turnBlock turns u).Lies turns :=
  ⟨Nat.lt_succ_self u, hu, rfl, rfl, Nat.add_sub_cancel' (offsetAt_mono (Nat.le_succ u)), rfl⟩

theorem episodeBlock_lies (h : IsRun turns span.first span.followingEnd) :
    (episodeBlock turns span).Lies turns :=
  ⟨Nat.lt_of_succ_lt h.nonempty, h.inside, rfl, rfl,
    Nat.add_sub_cancel' (offsetAt_mono (Nat.le_succ _)),
    Nat.add_sub_cancel' (offsetAt_mono h.nonempty.le)⟩

theorem blocks_lie (h : b ∈ blocks turns) : b.Lies turns := by
  rcases mem_append.mp h with h | h
  · obtain ⟨u, hu, rfl⟩ := mem_map.mp h
    exact turnBlock_lies (mem_range.mp hu)
  · obtain ⟨span, hspan, rfl⟩ := mem_map.mp h
    exact episodeBlock_lies (mem_episodes.mp hspan)

variable {p q : ℕ × Block} {w : Option ℕ}

theorem bases_lie (hp : p ∈ bases turns) : p.2.Lies turns := blocks_lie (mem_basesFrom hp)

theorem bases_above (hp : p ∈ bases turns) : turns.length < p.1 :=
  ((basesFrom_apart (turns.length + 1) (blocks turns)).2 p hp).1

theorem base_unique (hp : p ∈ bases turns) (hq : q ∈ bases turns)
    (hvp : p.1 ≤ v ∧ v < p.1 + p.2.inner) (hvq : q.1 ≤ v ∧ v < q.1 + q.2.inner) : p = q := by
  have hsorted : (bases turns).Pairwise fun p q => p.1 + p.2.inner ≤ q.1 :=
    (basesFrom_apart (turns.length + 1) (blocks turns)).1
  have hapart := pairwise_iff_getElem.mp hsorted
  obtain ⟨i, hi, rfl⟩ := mem_iff_getElem.mp hp
  obtain ⟨j, hj, rfl⟩ := mem_iff_getElem.mp hq
  rcases lt_trichotomy i j with hlt | rfl | hlt
  · have := hapart i j hi hj hlt
    omega
  · rfl
  · have := hapart j i hj hi hlt
    omega

def wordsBefore (turns : List SpeakerTurn) (v : ℕ) : ℕ :=
  if v ≤ turns.length then offsetAt turns v
  else
    match (bases turns).find? fun p => p.1 ≤ v ∧ v < p.1 + p.2.inner with
    | none => 0
    | some p =>
      p.2.firstStart + (v - p.1 + 1) / (p.2.right + 1) + (v - p.1 + 1) % (p.2.right + 1)

theorem wordsBefore_boundary (hv : v ≤ turns.length) : wordsBefore turns v = offsetAt turns v := by
  rw [wordsBefore, if_pos hv]

theorem node_inside (h : p.2.Inner i j) :
    p.1 ≤ p.2.node p.1 i j ∧ p.2.node p.1 i j < p.1 + p.2.inner := by
  obtain ⟨hlow, hhigh⟩ := h.bounds
  rw [Block.node_inner h]
  omega

theorem wordsBefore_node (hp : p ∈ bases turns) (hi : i ≤ p.2.left) (hj : j ≤ p.2.right) :
    wordsBefore turns (p.2.node p.1 i j) = p.2.firstStart + i + j := by
  have hlies := bases_lie hp
  by_cases hentry : i = 0 ∧ j = 0
  · obtain ⟨rfl, rfl⟩ := hentry
    rw [Block.node_entry, wordsBefore_boundary (hlies.forward.le.trans hlies.inside), hlies.first]
    rfl
  by_cases hleave : i = p.2.left ∧ j = p.2.right
  · obtain ⟨rfl, rfl⟩ := hleave
    rw [Block.node_leave hentry, wordsBefore_boundary hlies.inside, ← hlies.right, hlies.left]
  · have hinner : p.2.Inner i j := ⟨hi, hj, hentry, hleave⟩
    have hinside := node_inside hinner
    have habove := bases_above hp
    have hfind : ((bases turns).find? fun q => q.1 ≤ p.2.node p.1 i j ∧
        p.2.node p.1 i j < q.1 + q.2.inner) = some p := by
      cases hfound : (bases turns).find? fun q => q.1 ≤ p.2.node p.1 i j ∧
          p.2.node p.1 i j < q.1 + q.2.inner with
      | none =>
        have := find?_eq_none.mp hfound p hp
        exact absurd (decide_eq_true hinside) this
      | some q =>
        have hq : q.1 ≤ p.2.node p.1 i j ∧ p.2.node p.1 i j < q.1 + q.2.inner := by
          simpa using find?_some hfound
        rw [base_unique (mem_of_find?_eq_some hfound) hp hq hinside]
    have hnumber : p.2.node p.1 i j - p.1 + 1 = i * (p.2.right + 1) + j := by
      have := hinner.bounds.1
      rw [Block.node_inner hinner]
      omega
    have hrow : (i * (p.2.right + 1) + j) / (p.2.right + 1) = i := by
      rw [mul_comm, Nat.mul_add_div (Nat.succ_pos _), Nat.div_eq_of_lt (Nat.lt_succ_of_le hj),
        add_zero]
    have hcolumn : (i * (p.2.right + 1) + j) % (p.2.right + 1) = j := by
      rw [mul_comm, Nat.mul_add_mod, Nat.mod_eq_of_lt (Nat.lt_succ_of_le hj)]
    rw [wordsBefore, if_neg (by omega), hfind]
    simp only [hnumber, hrow, hcolumn]

theorem wordsBefore_step (hp : p ∈ bases turns) (h : p.2.Step p.1 u w v) :
    wordsBefore turns v = wordsBefore turns u + if w.isSome then 1 else 0 := by
  cases h with
  | @first i j hi hj =>
    rw [wordsBefore_node hp hi hj, wordsBefore_node hp hi.le hj]
    show _ = _ + 1
    omega
  | @second i j hi hj =>
    rw [wordsBefore_node hp hi hj, wordsBefore_node hp hi hj.le]
    rfl
  | pass hleft hright =>
    have hlies := bases_lie hp
    have htotal := hlies.right
    rw [hright, add_zero, ← hlies.left, hleft, add_zero] at htotal
    rw [wordsBefore_boundary hlies.inside,
      wordsBefore_boundary (hlies.forward.le.trans hlies.inside), ← htotal, hlies.first]
    rfl

def heightOf (turns : List SpeakerTurn) (v : ℕ) : ℕ :=
  wordsBefore turns v * (turns.length + 2) + if v ≤ turns.length then v else 0

theorem heightOf_step (hp : p ∈ bases turns) (h : p.2.Step p.1 u w v) :
    heightOf turns u < heightOf turns v := by
  have hwords := wordsBefore_step hp h
  cases w with
  | some word =>
    have hu : (if u ≤ turns.length then u else 0) ≤ turns.length := by split_ifs <;> omega
    rw [heightOf, heightOf, hwords, Option.isSome_some, if_pos rfl, Nat.add_mul, Nat.one_mul]
    omega
  | none =>
    have hlies := bases_lie hp
    cases h with
    | pass =>
      have hforward := hlies.forward
      have hinside := hlies.inside
      rw [heightOf, heightOf, hwords, if_pos (by omega), if_pos hinside]
      exact Nat.add_lt_add_left hforward _

theorem node_cases (hi : i ≤ b.left) (hj : j ≤ b.right) (base : ℕ) :
    (b.node base i j = b.entry ∧ i = 0 ∧ j = 0) ∨
      (b.node base i j = b.leave ∧ i = b.left ∧ j = b.right) ∨ b.Inner i j := by
  by_cases hentry : i = 0 ∧ j = 0
  · obtain ⟨rfl, rfl⟩ := hentry
    exact .inl ⟨b.node_entry base, rfl, rfl⟩
  by_cases hleave : i = b.left ∧ j = b.right
  · obtain ⟨rfl, rfl⟩ := hleave
    exact .inr (.inl ⟨Block.node_leave hentry base, rfl, rfl⟩)
  · exact .inr (.inr ⟨hi, hj, hentry, hleave⟩)

theorem step_inside (hp : p ∈ bases turns) (h : p.2.Step p.1 u w v) :
    u < turns.length + 1 + ((blocks turns).map Block.inner).sum ∧
      v < turns.length + 1 + ((blocks turns).map Block.inner).sum ∧ v ≠ 0 := by
  have hlies := bases_lie hp
  have hforward := hlies.forward
  have hleave := hlies.inside
  have habove := bases_above hp
  have hend := ((basesFrom_apart (turns.length + 1) (blocks turns)).2 p hp).2
  have hnode : ∀ i j, i ≤ p.2.left → j ≤ p.2.right →
      p.2.node p.1 i j < turns.length + 1 + ((blocks turns).map Block.inner).sum ∧
        (¬ (i = 0 ∧ j = 0) → p.2.node p.1 i j ≠ 0) := by
    intro i j hi hj
    rcases node_cases hi hj p.1 with ⟨hat, hzero⟩ | ⟨hat, -⟩ | hinner
    · exact ⟨by omega, fun hne => absurd hzero hne⟩
    · exact ⟨by omega, fun _ => by omega⟩
    · have := node_inside hinner
      exact ⟨by omega, fun _ => by omega⟩
  cases h with
  | @first i j hi hj =>
    have hto := hnode (i + 1) j hi hj
    exact ⟨(hnode i j hi.le hj).1, hto.1, hto.2 (by omega)⟩
  | @second i j hi hj =>
    have hto := hnode i (j + 1) hi hj
    exact ⟨(hnode i j hi hj.le).1, hto.1, hto.2 (by omega)⟩
  | pass => exact ⟨by omega, by omega, by omega⟩

theorem exists_position (hv : v < turns.length + 1 + ((blocks turns).map Block.inner).sum)
    (habove : turns.length < v) : ∃ p ∈ bases turns, ∃ i j, p.2.Inner i j ∧ p.2.node p.1 i j = v := by
  obtain ⟨p, hp, hlow, hhigh⟩ := exists_base (by omega) hv
  -- the position of the node, row by row
  have hcells : p.2.inner = (p.2.left + 1) * (p.2.right + 1) - 2 := rfl
  have hnumber := Nat.div_add_mod (v - p.1 + 1) (p.2.right + 1)
  have hcolumn := Nat.mod_lt (v - p.1 + 1) (Nat.succ_pos p.2.right)
  have hrow : (v - p.1 + 1) / (p.2.right + 1) < p.2.left + 1 :=
    Nat.div_lt_of_lt_mul (by rw [mul_comm]; omega)
  rw [mul_comm] at hnumber
  have hinner : p.2.Inner ((v - p.1 + 1) / (p.2.right + 1)) ((v - p.1 + 1) % (p.2.right + 1)) := by
    refine ⟨Nat.le_of_lt_succ hrow, Nat.le_of_lt_succ hcolumn, ?_, ?_⟩
    · rintro ⟨hi, hj⟩
      rw [hi, hj] at hnumber
      omega
    · rintro ⟨hi, hj⟩
      rw [hi, hj] at hnumber
      have hall : (p.2.left + 1) * (p.2.right + 1) =
          p.2.left * (p.2.right + 1) + p.2.right + 1 := by
        ring
      omega
  refine ⟨p, hp, _, _, hinner, ?_⟩
  rw [Block.node_inner hinner, hnumber]
  omega

theorem exists_step (hv : v < turns.length + 1 + ((blocks turns).map Block.inner).sum)
    (hne : v ≠ 0) : ∃ p ∈ bases turns, ∃ u w, p.2.Step p.1 u w v := by
  have hgrid : ∀ p ∈ bases turns, ∀ i j, i ≤ p.2.left → j ≤ p.2.right → ¬ (i = 0 ∧ j = 0) →
      ∃ u w, p.2.Step p.1 u w (p.2.node p.1 i j) := by
    intro p _ i j hi hj hpos
    cases i with
    | succ i => exact ⟨_, _, .first hi hj⟩
    | zero =>
      cases j with
      | zero => exact absurd ⟨rfl, rfl⟩ hpos
      | succ j => exact ⟨_, _, .second hi hj⟩
  by_cases hboundary : v ≤ turns.length
  · -- the chain of the turn before a boundary
    obtain ⟨u, rfl⟩ := Nat.exists_eq_succ_of_ne_zero hne
    have hturn : turnBlock turns u ∈ blocks turns :=
      mem_append_left _ (mem_map.mpr ⟨u, mem_range.mpr hboundary, rfl⟩)
    obtain ⟨base, hp⟩ := exists_basesFrom (turns.length + 1) hturn
    by_cases hempty : (turnBlock turns u).left = 0
    · exact ⟨_, hp, u, none, .pass hempty rfl⟩
    · obtain ⟨u', w, hstep⟩ := hgrid _ hp _ _ (le_refl _) (le_refl _)
        fun h => hempty h.1
      rw [Block.node_leave fun h => hempty h.1] at hstep
      exact ⟨_, hp, u', w, hstep⟩
  · obtain ⟨p, hp, i, j, hinner, hat⟩ := exists_position hv (Nat.lt_of_not_le hboundary)
    obtain ⟨u, w, hstep⟩ := hgrid p hp i j hinner.left hinner.right hinner.notEntry
    rw [hat] at hstep
    exact ⟨p, hp, u, w, hstep⟩

theorem exists_exit (hu : u < turns.length + 1 + ((blocks turns).map Block.inner).sum)
    (hne : u ≠ turns.length) : ∃ p ∈ bases turns, ∃ w v, p.2.Step p.1 u w v := by
  have hgrid : ∀ p ∈ bases turns, ∀ i j, i ≤ p.2.left → j ≤ p.2.right →
      ¬ (i = p.2.left ∧ j = p.2.right) → ∃ w v, p.2.Step p.1 (p.2.node p.1 i j) w v := by
    intro p _ i j hi hj hpos
    by_cases hleft : i < p.2.left
    · exact ⟨_, _, .first hleft hj⟩
    · exact ⟨_, _, .second hi (by omega)⟩
  by_cases hboundary : u ≤ turns.length
  · -- the chain of the turn after a boundary
    have hturn : turnBlock turns u ∈ blocks turns :=
      mem_append_left _ (mem_map.mpr ⟨u, mem_range.mpr (by omega), rfl⟩)
    obtain ⟨base, hp⟩ := exists_basesFrom (turns.length + 1) hturn
    by_cases hempty : (turnBlock turns u).left = 0
    · exact ⟨_, hp, none, u + 1, .pass hempty rfl⟩
    · obtain ⟨w, v, hstep⟩ := hgrid _ hp 0 0 (Nat.zero_le _) (Nat.zero_le _)
        fun h => hempty h.1.symm
      exact ⟨_, hp, w, v, hstep⟩
  · obtain ⟨p, hp, i, j, hinner, hat⟩ := exists_position hu (Nat.lt_of_not_le hboundary)
    obtain ⟨w, v, hstep⟩ := hgrid p hp i j hinner.left hinner.right hinner.notLeave
    rw [hat] at hstep
    exact ⟨p, hp, w, v, hstep⟩

theorem buildEdges_acyclic (h : admitGraph turns = .ok prepared) :
    Acyclic (buildEdges prepared).nodes (buildEdges prepared).edges (heightOf turns)
      (wordsBefore turns) := by
  rw [nodes_eq h]
  refine ⟨by omega, ?_, ?_, ?_, rfl, ?_, ?_⟩
  · intro u e he
    obtain ⟨p, hp, hstep⟩ := (mem_edges_iff h).mp he
    have := step_inside hp hstep
    exact ⟨this.1, this.2.1⟩
  · intro u e he
    obtain ⟨p, hp, hstep⟩ := (mem_edges_iff h).mp he
    exact heightOf_step hp hstep
  · intro u e he
    obtain ⟨p, hp, hstep⟩ := (mem_edges_iff h).mp he
    exact wordsBefore_step hp hstep
  · intro v hv hne
    obtain ⟨p, hp, u, w, hstep⟩ := exists_step hv hne
    exact ⟨u, ⟨v, w⟩, (mem_edges_iff h).mpr ⟨p, hp, hstep⟩, rfl⟩
  · intro u e he
    obtain ⟨p, hp, hstep⟩ := (mem_edges_iff h).mp he
    exact (step_inside hp hstep).2.2

end Batchalign.Interleaving
