/-
Event graphs over the leaf events of a peer list, and the runs that insert such
a graph into a node one event at a time.
-/
import ConsensusDag.InsertEvent
import ConsensusDag.Lib.QuorumFrame

namespace ConsensusDag

open ParentGraphs

variable {P D T H PK SK Sig : Type}

/-- The leaf event of a peer, as it is hashed. -/
def leafHashEvent [Inhabited H] (peer : DAGPeer P PK) : HashEvent P D T H :=
  (leafEvent peer : Event P D T H Unit).toHashEvent

/-- An event is part of a graph when it is a leaf or one of the `events`. -/
def InGraph [Inhabited H] (peers : List (DAGPeer P PK))
    (events : Set (HashEvent P D T H)) (v : HashEvent P D T H) : Prop :=
  (∃ peer ∈ peers, v = leafHashEvent peer) ∨ v ∈ events

/-- A graph of events over the leaf events of a peer list, without forks and
without hash collisions.  Parents are named by their hashes. -/
structure EventDag [Inhabited H] (env : Env P D T H PK SK Sig)
    (peers : List (DAGPeer P PK)) where
  events : Set (HashEvent P D T H)
  peers_nodup : (peers.map DAGPeer.id).Nodup
  leaf_not_mem : ∀ peer ∈ peers, leafHashEvent peer ∉ events
  hashed : ∀ v, InGraph peers events v → ∃ k, env.eventHash v = .ok k
  collision_free : ∀ v w k, InGraph peers events v → InGraph peers events w →
    env.eventHash v = .ok k → env.eventHash w = .ok k → v = w
  creator_mem : ∀ v ∈ events, v.creator ∈ peers.map DAGPeer.id
  self_parent : ∀ v ∈ events, ∃ s, InGraph peers events s ∧
    env.eventHash s = .ok v.selfParent ∧ s.creator = v.creator ∧
    s.height + 1 = v.height
  other_parent : ∀ v ∈ events, ∃ o, InGraph peers events o ∧
    env.eventHash o = .ok v.otherParent
  fork_free : ∀ v w, InGraph peers events v → InGraph peers events w →
    v.creator = w.creator → v.height = w.height → v = w
  acyclic : WellFounded fun p v : {v // InGraph peers events v} =>
    v.1 ∈ events ∧ (env.eventHash p.1 = .ok v.1.selfParent ∨
      env.eventHash p.1 = .ok v.1.otherParent)

namespace EventDag

section Graph

variable [Inhabited H] {env : Env P D T H PK SK Sig}
  {peers : List (DAGPeer P PK)} (dag : EventDag env peers)

/-- The leaf events and the events of the graph. -/
abbrev Vertex := {v : HashEvent P D T H // InGraph peers dag.events v}

theorem exists_parents (v : dag.Vertex) (hv : v.1 ∈ dag.events) :
    ∃ pair : dag.Vertex × dag.Vertex,
      env.eventHash pair.1.1 = .ok v.1.selfParent ∧
        env.eventHash pair.2.1 = .ok v.1.otherParent ∧
        pair.1.1.creator = v.1.creator ∧ pair.1.1.height + 1 = v.1.height := by
  obtain ⟨s, hs, hself, hcreator, hheight⟩ := dag.self_parent v.1 hv
  obtain ⟨o, ho, hother⟩ := dag.other_parent v.1 hv
  exact ⟨(⟨s, hs⟩, ⟨o, ho⟩), hself, hother, hcreator, hheight⟩

/-- The hash of a vertex. -/
noncomputable def hashOf (v : dag.Vertex) : H :=
  Classical.choose (dag.hashed v.1 v.2)

open scoped Classical in
/-- The two parents of a vertex, `none` for a leaf. -/
noncomputable def parents (v : dag.Vertex) : Option (dag.Vertex × dag.Vertex) :=
  if hv : v.1 ∈ dag.events then some (Classical.choose (dag.exists_parents v hv))
  else none

variable {dag}

theorem eventHash_eq (v : dag.Vertex) :
    env.eventHash v.1 = .ok (dag.hashOf v) :=
  Classical.choose_spec (dag.hashed v.1 v.2)

theorem hashOf_eq_iff {v : dag.Vertex} {k : H} :
    dag.hashOf v = k ↔ env.eventHash v.1 = .ok k := by
  rw [eventHash_eq]
  simp

theorem hashOf_injective : Function.Injective dag.hashOf := by
  intro v w h
  exact Subtype.ext (dag.collision_free v.1 w.1 _ v.2 w.2 (eventHash_eq v)
    (hashOf_eq_iff.mp h.symm))

theorem parents_eq_none {v : dag.Vertex} :
    dag.parents v = none ↔ v.1 ∉ dag.events := by
  unfold parents
  split <;> simp_all

/-- The hashes an event carries are those of its parents. -/
theorem parents_eq_some {v s o : dag.Vertex} :
    dag.parents v = some (s, o) ↔ v.1 ∈ dag.events ∧
      dag.hashOf s = v.1.selfParent ∧ dag.hashOf o = v.1.otherParent := by
  unfold parents
  split
  · rename_i hv
    obtain ⟨hself, hother, _, _⟩ := Classical.choose_spec (dag.exists_parents v hv)
    simp only [Option.some.injEq, hv, true_and]
    constructor
    · intro h
      rw [h] at hself hother
      exact ⟨hashOf_eq_iff.mpr hself, hashOf_eq_iff.mpr hother⟩
    · rintro ⟨hs, ho⟩
      refine Prod.ext ?_ ?_
      · exact hashOf_injective ((hashOf_eq_iff.mpr hself).trans hs.symm)
      · exact hashOf_injective ((hashOf_eq_iff.mpr hother).trans ho.symm)
  · rename_i hv
    simp [hv]

theorem creator_height_of_parents {v s o : dag.Vertex}
    (h : dag.parents v = some (s, o)) :
    s.1.creator = v.1.creator ∧ s.1.height + 1 = v.1.height := by
  obtain ⟨hv, hs, _⟩ := parents_eq_some.mp h
  obtain ⟨s', hs', hself, hcreator, hheight⟩ := dag.self_parent v.1 hv
  have heq : s.1 = s' := dag.collision_free _ _ _ s.2 hs' (eventHash_eq s)
    (by rw [hs]; exact hself)
  rw [heq]
  exact ⟨hcreator, hheight⟩

/-- A vertex without parents is the leaf event of a peer. -/
theorem exists_peer_of_leaf {v : dag.Vertex} (h : dag.parents v = none) :
    ∃ peer ∈ peers, v.1 = leafHashEvent peer :=
  v.2.resolve_right (parents_eq_none.mp h)

theorem creator_mem_peers (v : dag.Vertex) :
    v.1.creator ∈ peers.map DAGPeer.id := by
  rcases v.2 with ⟨peer, hpeer, hv⟩ | hv
  · rw [hv]
    exact List.mem_map.mpr ⟨peer, hpeer, rfl⟩
  · exact dag.creator_mem v.1 hv

variable (dag) in
/-- The leaf event of a peer, as a vertex. -/
def leafVertex {peer : DAGPeer P PK} (hpeer : peer ∈ peers) : dag.Vertex :=
  ⟨leafHashEvent peer, Or.inl ⟨peer, hpeer, rfl⟩⟩

theorem parents_leafVertex {peer : DAGPeer P PK} (hpeer : peer ∈ peers) :
    dag.parents (dag.leafVertex hpeer) = none :=
  parents_eq_none.mpr (dag.leaf_not_mem peer hpeer)

end Graph

variable [Inhabited H] [LinearOrder P] {env : Env P D T H PK SK Sig}
  {peers : List (DAGPeer P PK)} (dag : EventDag env peers)

/-- The event graph as a graph of vertices with peers and a root majority. -/
noncomputable def graph : QuorumGraph dag.Vertex P where
  creator v := v.1.creator
  height v := v.1.height
  parents := dag.parents
  acyclic := by
    refine Subrelation.wf ?_ dag.acyclic
    rintro p v ⟨s, o, hv, hp⟩
    obtain ⟨hmem, hs, ho⟩ := parents_eq_some.mp hv
    refine ⟨hmem, ?_⟩
    rcases hp with rfl | rfl
    · exact Or.inl (hashOf_eq_iff.mp hs)
    · exact Or.inr (hashOf_eq_iff.mp ho)
  creator_self h := (creator_height_of_parents h).1
  height_self h := (creator_height_of_parents h).2
  fork_free {v w} hcreator hheight :=
    Subtype.ext (dag.fork_free v.1 w.1 v.2 w.2 hcreator hheight)
  leaf_unique {v w} hv hw hcreator := by
    obtain ⟨peer, hpeer, hv⟩ := exists_peer_of_leaf hv
    obtain ⟨peer', hpeer', hw⟩ := exists_peer_of_leaf hw
    rw [hv, hw] at hcreator
    have heq : peer = peer' :=
      List.inj_on_of_nodup_map dag.peers_nodup hpeer hpeer' hcreator
    exact Subtype.ext (by rw [hv, hw, heq])
  peers := (peers.map DAGPeer.id).toFinset
  majority := 2 * peers.length / 3 + 1
  creator_mem v := List.mem_toFinset.mpr (creator_mem_peers v)

theorem card_graph_peers : dag.graph.peers.card = peers.length := by
  change (peers.map DAGPeer.id).toFinset.card = peers.length
  rw [List.toFinset_card_of_nodup dag.peers_nodup, List.length_map]

/-- The vertices a node holds once the events `inserted` are in. -/
def present (inserted : List (HashEvent P D T H)) : Set dag.Vertex :=
  {v | dag.graph.parents v = none ∨ v.1 ∈ inserted}

end EventDag

section Runs

variable [LinearOrder P] [LinearOrder H] [Inhabited H]
  {env : Env P D T H PK SK Sig} {peers : List (DAGPeer P PK)}

/-- The later states of a node, and what was inserted up to them, latest first.
An event of the graph is inserted at most once.  A call that succeeds has found
both parents in the store. -/
inductive DagExtends (dag : EventDag env peers)
    (inserted : List (HashEvent P D T H)) (core : DAGcore P D T H PK SK Sig) :
    List (HashEvent P D T H) → DAGcore P D T H PK SK Sig → Prop
  | refl : DagExtends dag inserted core inserted core
  | insert {later : List (HashEvent P D T H)}
      {core₁ core₂ : DAGcore P D T H PK SK Sig} (event : Event P D T H Sig) :
      DagExtends dag inserted core later core₁ →
      event.toHashEvent ∈ dag.events → event.toHashEvent ∉ later →
      DAGcore.insertEvent env event core₁ = (.ok true, core₂) →
      DagExtends dag inserted core (event.toHashEvent :: later) core₂

/-- The states reached from a new node on an empty store. -/
def DagRun (dag : EventDag env peers) (conf : DAGconfig P PK SK)
    (inserted : List (HashEvent P D T H)) (core : DAGcore P D T H PK SK Sig) :
    Prop :=
  ∃ start, conf.peers.peers.Perm peers ∧
    DAGcore.new env conf SledStore.empty = .ok start ∧
    DagExtends dag [] start inserted core

theorem DagExtends.trans {dag : EventDag env peers}
    {inserted later last : List (HashEvent P D T H)}
    {core core' core'' : DAGcore P D T H PK SK Sig}
    (h : DagExtends dag inserted core later core')
    (h' : DagExtends dag later core' last core'') :
    DagExtends dag inserted core last core'' := by
  induction h' with
  | refl => exact h
  | insert event _ hmem hnew hinsert ih => exact .insert event ih hmem hnew hinsert

theorem DagRun.insert {dag : EventDag env peers} {conf : DAGconfig P PK SK}
    {inserted : List (HashEvent P D T H)}
    {core core' : DAGcore P D T H PK SK Sig} (h : DagRun dag conf inserted core)
    (event : Event P D T H Sig) (hmem : event.toHashEvent ∈ dag.events)
    (hnew : event.toHashEvent ∉ inserted)
    (hinsert : DAGcore.insertEvent env event core = (.ok true, core')) :
    DagRun dag conf (event.toHashEvent :: inserted) core' := by
  obtain ⟨start, hperm, hstart, hext⟩ := h
  exact ⟨start, hperm, hstart, hext.insert event hmem hnew hinsert⟩

theorem DagRun.extend {dag : EventDag env peers} {conf : DAGconfig P PK SK}
    {inserted later : List (HashEvent P D T H)}
    {core core' : DAGcore P D T H PK SK Sig} (h : DagRun dag conf inserted core)
    (h' : DagExtends dag inserted core later core') :
    DagRun dag conf later core' := by
  obtain ⟨start, hperm, hnew, hext⟩ := h
  exact ⟨start, hperm, hnew, hext.trans h'⟩

end Runs

namespace TwoPeers

def dagEvents : List (HashEvent Nat Nat Unit Nat) :=
  [b₁, a₁, b₂, a₂, b₃, a₃].map Event.toHashEvent

def dagVertices : List (HashEvent Nat Nat Unit Nat) :=
  peers.map leafHashEvent ++ dagEvents

theorem mem_dagVertices {v : HashEvent Nat Nat Unit Nat}
    (h : InGraph peers {v | v ∈ dagEvents} v) : v ∈ dagVertices := by
  rcases h with ⟨peer, hpeer, rfl⟩ | hv
  · exact List.mem_append_left _ (List.mem_map.mpr ⟨peer, hpeer, rfl⟩)
  · exact List.mem_append_right _ hv

theorem inGraph_of_mem {v : HashEvent Nat Nat Unit Nat} (h : v ∈ dagVertices) :
    InGraph peers {v | v ∈ dagEvents} v := by
  rcases List.mem_append.mp h with hv | hv
  · obtain ⟨peer, hpeer, rfl⟩ := List.mem_map.mp hv
    exact Or.inl ⟨peer, hpeer, rfl⟩
  · exact Or.inr hv

theorem lamport_lt_of_hash : ∀ v ∈ dagEvents, ∀ p ∈ dagVertices,
    Nat.pair p.creator p.height + 1 = v.selfParent ∨
      Nat.pair p.creator p.height + 1 = v.otherParent →
    p.lamportTimestamp < v.lamportTimestamp := by decide

/-- Three events of each peer; the clocks grow along the graph. -/
def dag : EventDag env peers where
  events := {v | v ∈ dagEvents}
  peers_nodup := by decide
  leaf_not_mem := by
    intro peer hpeer hmem
    have hall : ∀ peer ∈ peers, leafHashEvent peer ∉ dagEvents := by decide
    exact hall peer hpeer hmem
  hashed v _ := ⟨_, rfl⟩
  collision_free v w k hv hw hk hk' := by
    have hall : ∀ v ∈ dagVertices, ∀ w ∈ dagVertices,
        Nat.pair v.creator v.height = Nat.pair w.creator w.height → v = w := by
      decide
    have heq := hk.trans hk'.symm
    simp only [env, Except.ok.injEq, Nat.add_right_cancel_iff] at heq
    exact hall v (mem_dagVertices hv) w (mem_dagVertices hw) heq
  creator_mem v hv := by
    have hall : ∀ v ∈ dagEvents, v.creator ∈ peers.map DAGPeer.id := by decide
    exact hall v hv
  self_parent v hv := by
    have hall : ∀ v ∈ dagEvents, ∃ s ∈ dagVertices,
        Nat.pair s.creator s.height + 1 = v.selfParent ∧
          s.creator = v.creator ∧ s.height + 1 = v.height := by decide
    obtain ⟨s, hs, hself, hcreator, hheight⟩ := hall v hv
    exact ⟨s, inGraph_of_mem hs, congrArg Except.ok hself, hcreator, hheight⟩
  other_parent v hv := by
    have hall : ∀ v ∈ dagEvents, ∃ o ∈ dagVertices,
        Nat.pair o.creator o.height + 1 = v.otherParent := by decide
    obtain ⟨o, ho, hother⟩ := hall v hv
    exact ⟨o, inGraph_of_mem ho, congrArg Except.ok hother⟩
  fork_free v w hv hw hcreator hheight := by
    have hall : ∀ v ∈ dagVertices, ∀ w ∈ dagVertices,
        v.creator = w.creator → v.height = w.height → v = w := by decide
    exact hall v (mem_dagVertices hv) w (mem_dagVertices hw) hcreator hheight
  acyclic := by
    refine Subrelation.wf ?_ (measure fun v => v.1.lamportTimestamp).wf
    rintro p v ⟨hv, hp⟩
    refine lamport_lt_of_hash v.1 hv p.1 (mem_dagVertices p.2) ?_
    exact hp.imp Except.ok.inj Except.ok.inj

theorem dagRun_start (creator : Nat) :
    DagRun dag (conf creator) [] (start creator) :=
  ⟨start creator, List.Perm.refl _, rfl, .refl⟩

theorem DagRun.after {creator : Nat}
    {inserted : List (HashEvent Nat Nat Unit Nat)} {core : Core}
    (h : DagRun dag (conf creator) inserted core)
    (event : Event Nat Nat Unit Nat Unit) (hmem : event.toHashEvent ∈ dagEvents)
    (hnew : event.toHashEvent ∉ inserted)
    (hinsert : (core.insertEvent env event).1 = .ok true) :
    DagRun dag (conf creator) (event.toHashEvent :: inserted)
      (after core [event]) :=
  h.insert event hmem hnew (insertEvent_after hinsert)

/-- The second peer has made the first event, and the first peer answers. -/
theorem dagRun_two :
    DagRun dag (conf 0) [a₁.toHashEvent, b₁.toHashEvent]
      (after (start 0) [b₁, a₁]) :=
  DagRun.after (DagRun.after (dagRun_start 0) b₁ (by decide) (by decide)
    (by decide +kernel)) a₁ (by decide) (by decide) (by decide +kernel)

/-- The same on the second peer, which goes on with its next event. -/
theorem dagRun_three :
    DagRun dag (conf 1) [b₂.toHashEvent, a₁.toHashEvent, b₁.toHashEvent]
      (after (start 1) [b₁, a₁, b₂]) :=
  DagRun.after (DagRun.after (DagRun.after (dagRun_start 1) b₁ (by decide)
    (by decide) (by decide +kernel)) a₁ (by decide) (by decide)
    (by decide +kernel)) b₂ (by decide) (by decide) (by decide +kernel)

/-- All six events in the order of their clocks. -/
def sixEvents : List (Event Nat Nat Unit Nat Unit) := [b₁, a₁, b₂, a₂, b₃, a₃]

theorem dagRun_six : DagRun dag (conf 0) dagEvents.reverse (after (start 0) sixEvents) :=
  DagRun.after (DagRun.after (DagRun.after (DagRun.after dagRun_two b₂ (by decide)
    (by decide) (by decide +kernel)) a₂ (by decide) (by decide) (by decide +kernel)) b₃
    (by decide) (by decide) (by decide +kernel)) a₃ (by decide) (by decide)
    (by decide +kernel)

theorem dagRun_six_other :
    DagRun dag (conf 1) dagEvents.reverse (after (start 1) sixEvents) :=
  DagRun.after (DagRun.after (DagRun.after dagRun_three a₂ (by decide) (by decide)
    (by decide +kernel)) b₃ (by decide) (by decide) (by decide +kernel)) a₃ (by decide)
    (by decide) (by decide +kernel)

def vertex (v : HashEvent Nat Nat Unit Nat) (h : v ∈ dagVertices) : dag.Vertex :=
  ⟨v, inGraph_of_mem h⟩

theorem parents_vertex {v s o : HashEvent Nat Nat Unit Nat} (hv : v ∈ dagVertices)
    (hs : s ∈ dagVertices) (ho : o ∈ dagVertices) (hmem : v ∈ dagEvents)
    (hself : Nat.pair s.creator s.height + 1 = v.selfParent)
    (hother : Nat.pair o.creator o.height + 1 = v.otherParent) :
    dag.graph.parents (vertex v hv) = some (vertex s hs, vertex o ho) :=
  EventDag.parents_eq_some.mpr ⟨hmem,
    EventDag.hashOf_eq_iff.mpr (congrArg Except.ok hself),
    EventDag.hashOf_eq_iff.mpr (congrArg Except.ok hother)⟩

theorem lamport_lt_of_parents (v s o : dag.Vertex)
    (h : dag.graph.parents v = some (s, o)) :
    s.1.lamportTimestamp < v.1.lamportTimestamp ∧
      o.1.lamportTimestamp < v.1.lamportTimestamp := by
  obtain ⟨hv, hs, ho⟩ := EventDag.parents_eq_some.mp h
  constructor
  · exact lamport_lt_of_hash v.1 hv s.1 (mem_dagVertices s.2)
      (Or.inl (Except.ok.inj (EventDag.hashOf_eq_iff.mp hs)))
  · exact lamport_lt_of_hash v.1 hv o.1 (mem_dagVertices o.2)
      (Or.inr (Except.ok.inj (EventDag.hashOf_eq_iff.mp ho)))

end TwoPeers

end ConsensusDag
