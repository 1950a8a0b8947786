/-
What moves finalisation on.  A node that holds an event of round `k + 1` has finalised
the frames below `k`; and no node finalises a frame before it holds, of each peer, an
event of a later frame, so that one peer that stops holds up all.
-/
import ConsensusDag.Agreement
import ConsensusDag.Lib.QuorumRounds

namespace ConsensusDag

open DAGcore ParentGraphs ParentGraph QuorumGraph Relation

variable {P D T H PK SK Sig : Type} [LinearOrder P] [LinearOrder H] [Inhabited H]
  {env : Env P D T H PK SK Sig}

section Graph

variable {peers : List (DAGPeer P PK)} {dag : EventDag env peers}
  {conf : DAGconfig P PK SK} {inserted : List (HashEvent P D T H)}
  {core : DAGcore P D T H PK SK Sig}

omit [LinearOrder H] in
theorem mem_graph_peers {p : P} : p ∈ dag.graph.peers ↔ p ∈ peers.map DAGPeer.id :=
  List.mem_toFinset

omit [LinearOrder H] in
/-- All peers together are a majority. -/
theorem majority_le_card {p : P} (hp : p ∈ dag.graph.peers) :
    dag.graph.majority ≤ dag.graph.peers.card := by
  have hpos : 0 < dag.graph.peers.card := Finset.card_pos.mpr ⟨p, hp⟩
  rw [EventDag.card_graph_peers] at hpos ⊢
  have hmajority : dag.graph.majority = 2 * peers.length / 3 + 1 := rfl
  omega

theorem DagInv.le_of_rounds (h : DagInv dag inserted core) {k : Nat}
    {layer : Nat → P → dag.Vertex} (hrounds : dag.graph.Rounds (k + 1) layer) {p : P}
    (hp : p ∈ dag.graph.peers) (hheld : layer (k + 1) p ∈ dag.present inserted) :
    k ≤ core.firstNotFinalisedFrame := by
  by_contra hlt
  have hbound := hrounds.lt_bound (majority_le_card hp) (Nat.lt_succ_self k) hp
    (Nat.lt_of_not_le hlt)
  exact Nat.lt_irrefl _ ((h.finalised _).mpr ⟨_, hheld, hbound⟩)

/-- A node that holds one event of round `k + 1` has finalised the frames below `k`, in
whatever order the events came in. -/
theorem rounds_finalise (h : DagRun dag conf inserted core) {k : Nat}
    {layer : Nat → P → dag.Vertex} (hrounds : dag.graph.Rounds (k + 1) layer) {p : P}
    (hp : p ∈ peers.map DAGPeer.id) (hheld : (layer (k + 1) p).1 ∈ inserted) :
    k ≤ core.firstNotFinalisedFrame ∧
      ∀ key e, core.store.event (.hash key) = some e → e.frameNumber < k →
        key ∈ core.finalOrder := by
  have hinv := h.dagInv
  have hle := hinv.le_of_rounds hrounds (mem_graph_peers.mpr hp) (Or.inr hheld)
  refine ⟨hle, fun key e he hframe => ?_⟩
  obtain ⟨v, -, rfl, -, hnumber⟩ := hinv.vertex_of_stored he
  exact (hinv.mem_finalOrder_iff v).mpr (by omega)

/-- Where a frame is finalised, each peer has an event of a later frame. -/
theorem DagInv.exists_later (h : DagInv dag inserted core) {f : Nat}
    (hf : f < core.firstNotFinalisedFrame) {p : P} (hp : p ∈ peers.map DAGPeer.id) :
    ∃ r : dag.Vertex, r ∈ dag.present inserted ∧ r.1.creator = p ∧
      f < dag.graph.frame r := by
  obtain ⟨v, hv, hbound⟩ := (h.finalised f).mp hf
  obtain ⟨r, hr, -, hcreator, hframe⟩ := lt_bound_iff.mp hbound p (mem_graph_peers.mpr hp)
  exact ⟨r, h.closed.mem_of_reaches hr hv, hcreator, hframe⟩

end Graph

namespace Service

variable {net : Network P PK SK} {s : Service P D T H PK SK Sig} {i p : P}

/-- In every run, over all interleavings, a node that has finalised a frame holds of each
peer an event of a later frame, which the peer has made. -/
theorem finalised_needs_all (hhonest : net.Honest env) (h : Reachable net env Unheld s)
    (hfree : net.CollisionFree env s.world) (hi : i ∈ net.ids) (hp : p ∈ net.ids)
    {f : Nat} (hf : f < (s.world.nodes i).core.firstNotFinalisedFrame) :
    ∃ key e, (s.world.nodes i).core.store.event (.hash key) = some e ∧ e.creator = p ∧
      f < e.frameNumber ∧ e.toHashEvent ∈ s.world.created := by
  obtain ⟨dag, -, hmade, hfollows, -⟩ := h.follow_one_graph hhonest .refl hfree
  obtain ⟨inserted, hnode⟩ := (hfollows i hi).node
  obtain ⟨r, hr, hcreator, hframe⟩ := hnode.dagInv.exists_later hf hp
  obtain ⟨e, he, hevent, -, hnumber⟩ := hnode.dagInv.store.lookup_vertex hr
  refine ⟨_, e, he, ?_, by omega, ?_⟩
  · exact (congrArg HashEvent.creator hevent).trans hcreator
  · rw [hevent]
    refine (hmade r).resolve_left fun hleaf => ?_
    obtain ⟨peer, hpeer, heq⟩ := hleaf
    have hparents : dag.graph.parents r = none :=
      EventDag.parents_eq_none.mpr (heq ▸ dag.leaf_not_mem peer hpeer)
    rw [frame_of_leaf hparents] at hframe
    exact Nat.not_lt_zero f hframe

end Service

namespace TwoPeers

/-- The first peer has finalised frame 1, and holds an event of the second peer of a
later frame. -/
theorem talked_later : ∃ key e,
    (talked.1.world.nodes 0).core.store.event (.hash key) = some e ∧ e.creator = 1 ∧
      1 < e.frameNumber := by
  have hfinal : 1 < (talked.1.world.nodes 0).core.firstNotFinalisedFrame := by
    decide +kernel
  obtain ⟨key, e, he, hcreator, hlater, -⟩ := Service.finalised_needs_all honest
    reachable_talked collisionFree_talked (i := 0) (p := 1) (by decide) (by decide) hfinal
  exact ⟨key, e, he, hcreator, hlater⟩

/-- The leaves, and two events of each peer. -/
def layer (j p : Nat) : dag.Vertex :=
  match j, p with
  | 0, 0 => vertex (leafHashEvent (peer 0)) (by decide)
  | 0, _ => vertex (leafHashEvent (peer 1)) (by decide)
  | 1, 0 => vertex a₁.toHashEvent (by decide)
  | 1, _ => vertex b₁.toHashEvent (by decide)
  | _, 0 => vertex a₂.toHashEvent (by decide)
  | _, _ => vertex b₂.toHashEvent (by decide)

theorem rounds_layer : dag.graph.Rounds 2 layer := by
  have hb₁ : dag.graph.parents (layer 1 1) = some (layer 0 1, layer 0 0) :=
    parents_vertex (by decide) (by decide) (by decide) (by decide) (by decide)
      (by decide)
  have ha₁ : dag.graph.parents (layer 1 0) = some (layer 0 0, layer 1 1) :=
    parents_vertex (by decide) (by decide) (by decide) (by decide) (by decide)
      (by decide)
  have hb₂ : dag.graph.parents (layer 2 1) = some (layer 1 1, layer 1 0) :=
    parents_vertex (by decide) (by decide) (by decide) (by decide) (by decide)
      (by decide)
  have ha₂ : dag.graph.parents (layer 2 0) = some (layer 1 0, layer 2 1) :=
    parents_vertex (by decide) (by decide) (by decide) (by decide) (by decide)
      (by decide)
  have hall : ∀ p ∈ dag.graph.peers, p = 0 ∨ p = 1 := by
    intro p hp
    have hmem : ∀ p ∈ peers.map DAGPeer.id, p = 0 ∨ p = 1 := by decide
    exact hmem p (mem_graph_peers.mp hp)
  have hbelow : dag.graph.Ancestor (layer 1 1) (layer 1 0) := .single (isParent_other ha₁)
  constructor
  case creator =>
    intro j hj p hp
    obtain rfl | rfl | rfl : j = 0 ∨ j = 1 ∨ j = 2 := by omega
    all_goals rcases hall p hp with rfl | rfl <;> rfl
  case sees =>
    intro j hj p hp q hq
    obtain rfl | rfl : j = 0 ∨ j = 1 := by omega
    all_goals rcases hall p hp with rfl | rfl <;> rcases hall q hq with rfl | rfl
    · exact .single (isParent_self ha₁)
    · exact (Relation.TransGen.single (isParent_self hb₁)).trans hbelow
    · exact .single (isParent_other hb₁)
    · exact .single (isParent_self hb₁)
    · exact .single (isParent_self ha₂)
    · exact hbelow.trans (.single (isParent_self ha₂))
    · exact .single (isParent_other hb₂)
    · exact .single (isParent_self hb₂)
  case current =>
    intro j hj p hp s o hparents
    obtain rfl | rfl : j = 0 ∨ j = 1 := by omega
    all_goals rcases hall p hp with rfl | rfl
    · cases ha₁.symm.trans hparents
      exact .single (isParent_self hb₁)
    · cases hb₁.symm.trans hparents
      exact .refl
    · cases ha₂.symm.trans hparents
      exact .single (isParent_self hb₂)
    · cases hb₂.symm.trans hparents
      exact .refl

/-- With the first event of round 2, the second peer has finalised frame 0. -/
theorem rounds_three : 1 ≤ (after (start 1) [b₁, a₁, b₂]).firstNotFinalisedFrame := by
  have hrounds := rounds_finalise dagRun_three rounds_layer (p := 1) (by decide)
    List.mem_cons_self
  exact hrounds.1

end TwoPeers

end ConsensusDag
