import Batchalign.Lib.Shuffle
import Batchalign.Lib.WordRuns
import Batchalign.Interleaving.Blocks

/- The paths of the source graph are the legal orders of the words: the turns from the first, each alone
   or shuffled with a run of another speaker after it (`LegalFrom`). One edge preserves what follows a
   node (`Rest.step`). -/
namespace Batchalign.Interleaving
open Shuffle WordRuns List

/-- The words of turns `u` to `e`, the last outside. -/
def wordsIn (turns : List SpeakerTurn) (u e : ℕ) : List ℕ :=
  List.range' (offsetAt turns u) (offsetAt turns e - offsetAt turns u)

/-- The legal orders of the words from turn `u` on. -/
inductive LegalFrom (turns : List SpeakerTurn) : ℕ → List ℕ → Prop
  | finish : LegalFrom turns turns.length []
  | turn {u : ℕ} {σ : List ℕ} : u < turns.length → LegalFrom turns (u + 1) σ →
      LegalFrom turns u (wordsIn turns u (u + 1) ++ σ)
  | episode {u e : ℕ} {mixed σ : List ℕ} : IsRun turns u e →
      IsShuffle (wordsIn turns u (u + 1)) (wordsIn turns (u + 1) e) mixed →
      LegalFrom turns e σ → LegalFrom turns u (mixed ++ σ)

def Graph.Connects (graph : Graph) (u : ℕ) (w : Option ℕ) (v : ℕ) : Prop :=
  ⟨v, w⟩ ∈ graph.edges u

instance (graph : Graph) (u : ℕ) (w : Option ℕ) (v : ℕ) : Decidable (graph.Connects u w v) :=
  inferInstanceAs (Decidable (⟨v, w⟩ ∈ graph.edges u))

variable {turns : List SpeakerTurn} {prepared : PreparedGraph} {b : Block} {p : ℕ × Block}
  {u v i j : ℕ} {σ τ : List ℕ} {w : Option ℕ}

/-! ## Blocks and legal orders -/

theorem turnBlock_mem (hu : u < turns.length) : turnBlock turns u ∈ blocks turns :=
  mem_append_left _ (mem_map.mpr ⟨u, mem_range.mpr hu, rfl⟩)

theorem episodeBlock_mem {e : ℕ} (h : IsRun turns u e) : episodeBlock turns ⟨u, e⟩ ∈ blocks turns :=
  mem_append_right _ (mem_map.mpr ⟨⟨u, e⟩, mem_episodes.mpr h, rfl⟩)

def axes (b : Block) (i j : ℕ) (mixed : List ℕ) : Prop :=
  IsShuffle (List.range' (b.firstStart + i) (b.left - i))
    (List.range' (b.secondStart + j) (b.right - j)) mixed

variable {mixed : List ℕ} {E : ℕ → Option ℕ → ℕ → Prop}

theorem legal_of_block (hb : b ∈ blocks turns) (hmixed : axes b 0 0 mixed)
    (h : LegalFrom turns b.leave σ) : LegalFrom turns b.entry (mixed ++ σ) := by
  rcases mem_append.mp hb with hb | hb
  · obtain ⟨u, hu, rfl⟩ := mem_map.mp hb
    -- a chain has one axis
    have hone : mixed = wordsIn turns u (u + 1) := IsShuffle.eq_of_alone hmixed
    rw [hone]
    exact .turn (mem_range.mp hu) h
  · obtain ⟨span, hspan, rfl⟩ := mem_map.mp hb
    exact .episode (mem_episodes.mp hspan) hmixed h

/-! ## From paths to legal orders -/

structure Rest (turns : List SpeakerTurn) (v : ℕ) (σ : List ℕ) : Prop where
  boundary : v ≤ turns.length → LegalFrom turns v σ
  inner : ∀ p ∈ bases turns, ∀ i j, p.2.Inner i j → v = p.2.node p.1 i j →
    ∃ mixed rest, axes p.2 i j mixed ∧ LegalFrom turns p.2.leave rest ∧ σ = mixed ++ rest

theorem rest_finish (turns : List SpeakerTurn) : Rest turns turns.length [] := by
  refine ⟨fun _ => .finish, ?_⟩
  intro p hp i j hinner hat
  have habove := bases_above hp
  have hinside := node_inside hinner
  omega

theorem Rest.at_node (h : Rest turns v σ) (hp : p ∈ bases turns) (hi : i ≤ p.2.left)
    (hj : j ≤ p.2.right) (hpos : ¬ (i = 0 ∧ j = 0)) (hat : v = p.2.node p.1 i j) :
    ∃ mixed rest, axes p.2 i j mixed ∧ LegalFrom turns p.2.leave rest ∧ σ = mixed ++ rest := by
  rcases node_cases hi hj p.1 with ⟨-, hzero⟩ | ⟨hleave, rfl, rfl⟩ | hinner
  · exact absurd hzero hpos
  · refine ⟨[], σ, ?_, ?_, rfl⟩
    · rw [axes, Nat.sub_self, Nat.sub_self]
      exact .nil
    · rw [← hleave, ← hat]
      refine h.boundary ?_
      rw [hat, hleave]
      exact (bases_lie hp).inside
  · exact h.inner p hp i j hinner hat

theorem rest_of_axes (hp : p ∈ bases turns) (hi : i ≤ p.2.left) (hj : j ≤ p.2.right)
    (hopen : ¬ (i = p.2.left ∧ j = p.2.right)) (hmixed : axes p.2 i j mixed)
    (h : LegalFrom turns p.2.leave σ) : Rest turns (p.2.node p.1 i j) (mixed ++ σ) := by
  have hlies := bases_lie hp
  have habove := bases_above hp
  rcases node_cases hi hj p.1 with ⟨hentry, rfl, rfl⟩ | ⟨-, hleave⟩ | hinner
  · refine ⟨fun _ => legal_of_block (mem_basesFrom hp) hmixed h, ?_⟩
    intro q hq i' j' hinner hat
    have := bases_above hq
    have := node_inside hinner
    have := hlies.forward
    have := hlies.inside
    omega
  · exact absurd hleave hopen
  · have hinside := node_inside hinner
    refine ⟨fun hle => by omega, ?_⟩
    intro q hq i' j' hinner' hat
    -- a new node has one block and one position
    obtain rfl : p = q := base_unique hp hq hinside (by rw [hat]; exact node_inside hinner')
    rw [Block.node_inner hinner, Block.node_inner hinner'] at hat
    have hlow := hinner.bounds.1
    have hlow' := hinner'.bounds.1
    have hnumber : i * (p.2.right + 1) + j = i' * (p.2.right + 1) + j' := by omega
    have hrow : i = i' := by
      have hdiv := congrArg (· / (p.2.right + 1)) hnumber
      simp only [mul_comm _ (p.2.right + 1), Nat.mul_add_div (Nat.succ_pos p.2.right),
        Nat.div_eq_of_lt (Nat.lt_succ_of_le hinner.right),
        Nat.div_eq_of_lt (Nat.lt_succ_of_le hinner'.right), add_zero] at hdiv
      exact hdiv
    subst hrow
    obtain rfl : j = j' := by omega
    exact ⟨mixed, σ, hmixed, h, rfl⟩

theorem axes_first (hi : i < b.left) (h : axes b (i + 1) j mixed) :
    axes b i j ((b.firstStart + i) :: mixed) := by
  rw [axes] at h ⊢
  rw [show b.left - i = b.left - (i + 1) + 1 by omega, range'_succ]
  exact .left h

theorem axes_second (hj : j < b.right) (h : axes b i (j + 1) mixed) :
    axes b i j ((b.secondStart + j) :: mixed) := by
  rw [axes] at h ⊢
  rw [show b.right - j = b.right - (j + 1) + 1 by omega, range'_succ]
  exact .right h

theorem Rest.step (hp : p ∈ bases turns) (hstep : p.2.Step p.1 u w v) (h : Rest turns v τ) :
    Rest turns u (w.toList ++ τ) := by
  cases hstep with
  | @first i j hi hj =>
    obtain ⟨mixed, rest, hmixed, hrest, rfl⟩ := h.at_node hp hi hj (by omega) rfl
    show Rest turns _ ((p.2.firstStart + i) :: mixed ++ rest)
    exact rest_of_axes hp hi.le hj (by omega) (axes_first hi hmixed) hrest
  | @second i j hi hj =>
    obtain ⟨mixed, rest, hmixed, hrest, rfl⟩ := h.at_node hp hi hj (by omega) rfl
    show Rest turns _ ((p.2.secondStart + j) :: mixed ++ rest)
    exact rest_of_axes hp hi hj.le (by omega) (axes_second hj hmixed) hrest
  | pass hleft hright =>
    have hlies := bases_lie hp
    have hforward := hlies.forward
    have hinside := hlies.inside
    have hempty : axes p.2 0 0 [] := by
      rw [axes, hleft, hright]
      exact .nil
    refine ⟨fun _ => legal_of_block (mem_basesFrom hp) hempty (h.boundary hinside), ?_⟩
    intro q hq i j hinner hat
    have := bases_above hq
    have := node_inside hinner
    omega

theorem Rest.path (hE : ∀ u w v, E u w v → ∃ p ∈ bases turns, p.2.Step p.1 u w v) (h : Path E u σ v) :
    ∀ {τ : List ℕ}, Rest turns v τ → Rest turns u (σ ++ τ) := by
  induction h with
  | here => exact fun h => h
  | step _ he ih =>
    intro τ hτ
    obtain ⟨p, hp, hstep⟩ := hE _ _ _ he
    rw [append_assoc]
    exact ih (hτ.step hp hstep)

/-! ## From legal orders to paths -/

theorem path_of_axes (hE : ∀ u w v, p.2.Step p.1 u w v → E u w v) (hne : ¬ (p.2.left = 0 ∧ p.2.right = 0))
    {first second : List ℕ} (h : IsShuffle first second mixed) :
    ∀ {i j : ℕ}, i ≤ p.2.left → j ≤ p.2.right → first = range' (p.2.firstStart + i) (p.2.left - i) →
      second = range' (p.2.secondStart + j) (p.2.right - j) →
      Path E (p.2.node p.1 i j) mixed p.2.leave := by
  induction h with
  | nil =>
    intro i j hi hj hfirst hsecond
    have hleft : i = p.2.left := by
      have := range'_eq_nil_iff.mp hfirst.symm
      omega
    have hright : j = p.2.right := by
      have := range'_eq_nil_iff.mp hsecond.symm
      omega
    rw [hleft, hright, Block.node_leave hne]
    exact .here
  | left _ ih =>
    intro i j hi hj hfirst hsecond
    have hlt : i < p.2.left := by
      by_contra hge
      rw [show p.2.left - i = 0 by omega, range'_zero] at hfirst
      cases hfirst
    rw [show p.2.left - i = p.2.left - (i + 1) + 1 by omega, range'_succ] at hfirst
    obtain ⟨rfl, hrest⟩ := cons.inj hfirst
    exact (ih hlt hj hrest hsecond).cons (hE _ _ _ (.first hlt hj))
  | right _ ih =>
    intro i j hi hj hfirst hsecond
    have hlt : j < p.2.right := by
      by_contra hge
      rw [show p.2.right - j = 0 by omega, range'_zero] at hsecond
      cases hsecond
    rw [show p.2.right - j = p.2.right - (j + 1) + 1 by omega, range'_succ] at hsecond
    obtain ⟨rfl, hrest⟩ := cons.inj hsecond
    exact (ih hi hlt hfirst hrest).cons (hE _ _ _ (.second hi hlt))

theorem path_of_block
    (hE : ∀ p ∈ bases turns, ∀ u w v, p.2.Step p.1 u w v → E u w v) (hb : b ∈ blocks turns)
    (h : axes b 0 0 mixed) : Path E b.entry mixed b.leave := by
  obtain ⟨base, hp⟩ := exists_basesFrom (turns.length + 1) hb
  by_cases hempty : b.left = 0 ∧ b.right = 0
  · rw [axes, hempty.1, hempty.2] at h
    rw [IsShuffle.eq_of_alone h]
    exact Path.here.cons (hE _ hp _ _ _ (.pass hempty.1 hempty.2))
  · have hpath := path_of_axes (hE _ hp) hempty h (Nat.zero_le _) (Nat.zero_le _) rfl rfl
    rwa [Block.node_entry] at hpath

theorem LegalFrom.path
    (hE : ∀ p ∈ bases turns, ∀ u w v, p.2.Step p.1 u w v → E u w v) (h : LegalFrom turns u σ) :
    Path E u σ turns.length := by
  induction h with
  | finish => exact .here
  | @turn u σ hu _ ih =>
    have hmixed : axes (turnBlock turns u) 0 0 (wordsIn turns u (u + 1)) := IsShuffle.alone _
    exact (path_of_block hE (turnBlock_mem hu) hmixed).trans ih
  | episode hrun hmixed _ ih =>
    exact (path_of_block hE (episodeBlock_mem hrun) hmixed).trans ih

/-! ## Every word once -/

theorem wordsIn_append {e f : ℕ} (hue : u ≤ e) (hef : e ≤ f) :
    wordsIn turns u e ++ wordsIn turns e f = wordsIn turns u f := by
  have hue' : offsetAt turns u ≤ offsetAt turns e := offsetAt_mono hue
  have hef' : offsetAt turns e ≤ offsetAt turns f := offsetAt_mono hef
  have hstart : offsetAt turns e = offsetAt turns u + (offsetAt turns e - offsetAt turns u) := by
    omega
  calc wordsIn turns u e ++ wordsIn turns e f
      = range' (offsetAt turns u) (offsetAt turns e - offsetAt turns u) ++
          range' (offsetAt turns u + (offsetAt turns e - offsetAt turns u))
            (offsetAt turns f - offsetAt turns e) := by rw [← hstart]; rfl
    _ = range' (offsetAt turns u)
          ((offsetAt turns e - offsetAt turns u) + (offsetAt turns f - offsetAt turns e)) :=
        range'_append_1
    _ = wordsIn turns u f := by
        congr 1
        omega

theorem LegalFrom.perm (h : LegalFrom turns u σ) : σ.Perm (wordsIn turns u turns.length) := by
  induction h with
  | finish =>
    rw [wordsIn, Nat.sub_self]
    exact .refl _
  | @turn u σ hu _ ih =>
    rw [← wordsIn_append (Nat.le_succ u) hu]
    exact ih.append_left _
  | @episode u e mixed σ hrun hmixed _ ih =>
    have hlt := hrun.nonempty
    rw [← wordsIn_append (show u ≤ e by omega) hrun.inside,
      ← wordsIn_append (Nat.le_succ u) hlt.le]
    exact hmixed.perm.append ih

/-! ## The graph -/

section
variable (hE : ∀ u w v, E u w v → ∃ p ∈ bases turns, p.2.Step p.1 u w v)
include hE

theorem wordsBefore_path (h : Path E u σ v) : wordsBefore turns v = wordsBefore turns u + σ.length := by
  induction h with
  | here => rfl
  | @step v v' σ w _ he ih =>
    obtain ⟨p, hp, hstep⟩ := hE _ _ _ he
    rw [wordsBefore_step hp hstep, ih, length_append]
    cases w <;> rfl

theorem heightOf_path (h : Path E u σ v) : heightOf turns u ≤ heightOf turns v := by
  induction h with
  | here => exact le_refl _
  | step _ he ih =>
    obtain ⟨p, hp, hstep⟩ := hE _ _ _ he
    exact ih.trans (heightOf_step hp hstep).le

theorem lt_nodes_of_path
    (h : Path E 0 σ v) : v < turns.length + 1 + ((blocks turns).map Block.inner).sum := by
  cases h with
  | here => omega
  | step _ he =>
    obtain ⟨p, hp, hstep⟩ := hE _ _ _ he
    exact (step_inside hp hstep).2.1

end

/-- The graph of the turns is acyclic, with a topological order and one depth a node; its complete paths are
  the legal orders, each word once. -/
structure SpellsLegalOrders (turns : List SpeakerTurn) (graph : Graph) : Prop where
  acyclic : ∀ u w v σ, graph.Connects u w v → ¬ Path graph.Connects v σ u
  order : Topological graph.nodes graph.edges graph.order
  depth : ∀ v σ, Path graph.Connects 0 σ v → graph.depth v = σ.length
  once : ∀ σ, Path graph.Connects 0 σ graph.finish →
    σ.Perm (List.range (offsetAt turns turns.length))
  legal : ∀ σ, Path graph.Connects 0 σ graph.finish ↔ LegalFrom turns 0 σ

theorem SpellsLegalOrders.of_admitted (h : admitGraph turns = .ok prepared) :
    SpellsLegalOrders turns (materialize prepared) := by
  have hE : ∀ u w v, (materialize prepared).Connects u w v ↔
      ∃ p ∈ bases turns, p.2.Step p.1 u w v := fun u w v => mem_edges_iff h
  have hforth := fun u w v => (hE u w v).mp
  have hback : ∀ p ∈ bases turns, ∀ u w v, p.2.Step p.1 u w v →
      (materialize prepared).Connects u w v := fun p hp u w v hstep => (hE u w v).mpr ⟨p, hp, hstep⟩
  obtain ⟨horder, hdepth, -⟩ := materialize_order prepared (buildEdges_acyclic h)
  have hfinish : (materialize prepared).finish = turns.length := by
    rw [← (admitGraph_ok h).1]
    rfl
  have hlegal : ∀ σ, Path (materialize prepared).Connects 0 σ (materialize prepared).finish ↔
      LegalFrom turns 0 σ := by
    intro σ
    rw [hfinish]
    constructor
    · intro hpath
      have hrest := Rest.path hforth hpath (rest_finish turns)
      rw [append_nil] at hrest
      exact hrest.boundary (Nat.zero_le _)
    · exact fun hlegal => hlegal.path hback
  refine ⟨?_, horder, ?_, ?_, hlegal⟩
  · intro u w v σ hedge hpath
    obtain ⟨p, hp, hstep⟩ := hforth _ _ _ hedge
    exact absurd (heightOf_path hforth hpath) (Nat.not_le.mpr (heightOf_step hp hstep))
  · intro v σ hpath
    have hlt := lt_nodes_of_path hforth hpath
    rw [← nodes_eq h] at hlt
    rw [hdepth v hlt, wordsBefore_path hforth hpath]
    exact zero_add _
  · intro σ hpath
    have hperm := ((hlegal σ).mp hpath).perm
    rwa [wordsIn, offsetAt_zero, Nat.sub_zero, ← range_eq_range'] at hperm

/-- The graph of every admitted list of turns spells its legal orders. -/
theorem graph_spells_legal_orders (turns : List SpeakerTurn) (prepared : PreparedGraph)
    (h : admitGraph turns = .ok prepared) : SpellsLegalOrders turns (materialize prepared) :=
  .of_admitted h

/-- Two speakers, the second of whom goes on over the first. -/
theorem graph_spells_two_speakers : SpellsLegalOrders
      [⟨"A", ["a", "b"], .separate⟩, ⟨"B", ["c"], .separate⟩,
        ⟨"B", ["d"], .overlappingSpeakerRun⟩, ⟨"A", [], .separate⟩]
      (materialize ⟨[⟨"A", ["a", "b"], .separate⟩, ⟨"B", ["c"], .separate⟩,
        ⟨"B", ["d"], .overlappingSpeakerRun⟩, ⟨"A", [], .separate⟩], 17, [0, 2, 3, 4, 4],
        [.grid ⟨0, 2⟩ 2 1 6, .grid ⟨0, 3⟩ 2 2 9, .grid ⟨2, 4⟩ 1 0 2]⟩) :=
  graph_spells_legal_orders _ _ rfl

end Batchalign.Interleaving
