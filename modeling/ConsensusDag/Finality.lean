/-
What holds of finalised frames on every run over an event graph: frame numbers
and the finalisation point are those of the graph, nodes agree, causes come
first, and the quorums of two events meet.
-/
import ConsensusDag.DagInvariant

namespace ConsensusDag

open ParentGraphs ParentGraph QuorumGraph

variable {P D T H PK SK Sig : Type} [LinearOrder P] [LinearOrder H]
  [Inhabited H] {env : Env P D T H PK SK Sig} {peers : List (DAGPeer P PK)}
  {dag : EventDag env peers} {conf conf' : DAGconfig P PK SK}
  {inserted inserted' : List (HashEvent P D T H)}
  {core core' : DAGcore P D T H PK SK Sig}

section Frames

/-- A stored event is a vertex of the graph with the frame of the vertex. -/
theorem DagInv.vertex_of_stored (h : DagInv dag inserted core) {k : H}
    {e : Event P D T H Sig} (he : core.store.event (.hash k) = some e) :
    ∃ v ∈ dag.present inserted, dag.hashOf v = k ∧ e.toHashEvent = v.1 ∧
      e.frameNumber = dag.graph.frame v := by
  obtain ⟨v, hv, hk, hevent, _, hframe⟩ := h.store.stored k e he
  exact ⟨v, hv, hk, hevent, hframe⟩

/-- A vertex is listed in its own flag table when it is a root. -/
theorem TableInv.mem_own_iff {v : dag.Vertex} {first : Nat} {ft : FlagTable H}
    (h : TableInv dag v first ft) :
    dag.hashOf v ∈ ft ↔ dag.graph.IsRoot v := by
  rw [← AList.lookup_isSome]
  constructor
  · intro hsome
    obtain ⟨f, hf⟩ := Option.isSome_iff_exists.mp hsome
    obtain ⟨r, hr, _, hroot, _⟩ := h.sound _ f hf
    rwa [← EventDag.hashOf_injective hr]
  · intro hroot
    rw [h.own hroot]
    rfl

/-- The frame number of a stored event is its frame in the graph, the event is
listed in its own flag table exactly when its frame exceeds its self-parent's,
and every other node gives the event the same frame number, whatever it has
inserted or finalised before. -/
theorem frameNumber_eq_frame (h : DagRun dag conf inserted core) {k : H}
    {e : Event P D T H Sig} (he : core.store.event (.hash k) = some e) :
    ∃ v : dag.Vertex, dag.hashOf v = k ∧ e.toHashEvent = v.1 ∧
      e.frameNumber = dag.graph.frame v ∧
      (∃ ft, core.store.flagTable k = some ft ∧
        (k ∈ ft ↔ ∀ s o, dag.graph.parents v = some (s, o) →
          dag.graph.frame s < dag.graph.frame v)) ∧
      ∀ conf' inserted' core', DagRun dag conf' inserted' core' →
        ∀ e', core'.store.event (.hash k) = some e' →
          e'.frameNumber = e.frameNumber := by
  have hinv := h.dagInv
  obtain ⟨v, hv, rfl, hevent, hframe⟩ := hinv.vertex_of_stored he
  obtain ⟨ft, hft, htable⟩ := hinv.store.table v hv
  refine ⟨v, rfl, hevent, hframe, ⟨ft, hft, htable.mem_own_iff⟩, ?_⟩
  intro conf' inserted' core' h' e' he'
  obtain ⟨w, _, hw, _, hframe'⟩ := h'.dagInv.vertex_of_stored he'
  rw [hframe, hframe', EventDag.hashOf_injective hw]

/-- The second event of the second peer, under hash 6, has frame 2. -/
theorem TwoPeers.frameNumber_b₂ :
    ∃ v : TwoPeers.dag.Vertex, TwoPeers.dag.hashOf v = 6 ∧
      TwoPeers.dag.graph.frame v = 2 := by
  have hstored : ((TwoPeers.after (TwoPeers.start 1) [TwoPeers.b₁, TwoPeers.a₁,
      TwoPeers.b₂]).store.event (.hash 6)).map Event.frameNumber = some 2 := by
    decide +kernel
  obtain ⟨e, he, hnumber⟩ := Option.map_eq_some_iff.mp hstored
  obtain ⟨v, hv, _, hframe, _⟩ := frameNumber_eq_frame TwoPeers.dagRun_three he
  exact ⟨v, hv, hframe.symm.trans hnumber⟩

/-- The number of finalised frames is the greatest bound of the inserted events,
and the frames were finalised one after the other. -/
theorem finalised_eq_sSup_bound (h : DagRun dag conf inserted core) :
    core.firstNotFinalisedFrame =
        sSup (dag.graph.bound '' {v | v.1 ∈ inserted}) ∧
      core.finalisedLog = List.range core.firstNotFinalisedFrame := by
  have hinv := h.dagInv
  refine ⟨?_, hinv.log⟩
  have hupper : ∀ v : dag.Vertex, v.1 ∈ inserted →
      dag.graph.bound v ≤ core.firstNotFinalisedFrame := by
    intro v hv
    by_contra hlt
    have hself := (hinv.finalised _).mpr ⟨v, Or.inr hv, Nat.lt_of_not_le hlt⟩
    exact Nat.lt_irrefl _ hself
  apply Nat.le_antisymm
  · by_contra hlt
    obtain ⟨v, hv | hv, hbound⟩ :=
      (hinv.finalised _).mp (Nat.lt_of_not_le hlt)
    · -- the bound of a leaf is zero
      have hle := bound_le_frame (G := dag.graph) v
      rw [frame_of_leaf hv] at hle
      omega
    · have hle : dag.graph.bound v ≤
          sSup (dag.graph.bound '' {v | v.1 ∈ inserted}) :=
        le_csSup ⟨_, by rintro _ ⟨w, hw, rfl⟩; exact hupper w hw⟩ ⟨v, hv, rfl⟩
      omega
  · apply csSup_le'
    rintro _ ⟨v, hv, rfl⟩
    exact hupper v hv

/-- Two events, one by each peer, finalise frame 0. -/
theorem TwoPeers.finalised_two :
    1 = sSup (TwoPeers.dag.graph.bound '' {v | v.1 ∈
        [TwoPeers.a₁.toHashEvent, TwoPeers.b₁.toHashEvent]}) ∧
      [0] = List.range 1 :=
  finalised_eq_sSup_bound TwoPeers.dagRun_two

end Frames

section Agreement

/-- A frame below the finalisation point is complete: every vertex of the graph
that has it is in the node. -/
theorem DagInv.present_of_frame_lt (h : DagInv dag inserted core)
    {v : dag.Vertex} (hv : dag.graph.frame v < core.firstNotFinalisedFrame) :
    v ∈ dag.present inserted := by
  obtain ⟨z, hz, hbound⟩ := (h.finalised _).mp hv
  exact h.closed.mem_of_reaches (reaches_of_frame_lt_bound hbound) hz

/-- The records of a finalised frame are those of the vertices of the graph. -/
theorem DagInv.mem_finalised_iff (h : DagInv dag inserted core) {f : Nat}
    (hf : f < core.firstNotFinalisedFrame) (record : FrameRecord H) :
    record ∈ (core.store.getFrame f).events ↔
      ∃ v : dag.Vertex, dag.graph.frame v = f ∧
        record = ⟨dag.hashOf v, v.1.lamportTimestamp⟩ := by
  rw [h.store.record]
  constructor
  · rintro ⟨v, _, hframe, hrecord⟩
    exact ⟨v, hframe, hrecord⟩
  · rintro ⟨v, hframe, hrecord⟩
    exact ⟨v, h.present_of_frame_lt (by omega), hframe, hrecord⟩

/-- Two nodes that have finalised a frame hold the same list of records. -/
theorem DagInv.getFrame_eq (h : DagInv dag inserted core)
    (h' : DagInv dag inserted' core') {f : Nat}
    (hf : f < core.firstNotFinalisedFrame)
    (hf' : f < core'.firstNotFinalisedFrame) :
    core.store.getFrame f = core'.store.getFrame f := by
  refine Frame.eq_of_sorted (h.sorted f hf) (h'.sorted f hf')
    (h.store.record_nodup f) (h'.store.record_nodup f) fun record => ?_
  rw [h.mem_finalised_iff hf, h'.mem_finalised_iff hf']

/-- What a node inserts later has a frame beyond those finalised before. -/
theorem DagInv.later_frame (h : DagInv dag inserted core)
    {later : List (HashEvent P D T H)} {last : DAGcore P D T H PK SK Sig}
    (hext : DagExtends dag inserted core later last)
    {v : HashEvent P D T H} (hv : v ∈ later) (hnew : v ∉ inserted)
    (hin : v ∈ dag.events) {k : H} (hk : env.eventHash v = .ok k) :
    ∃ e, last.store.event (.hash k) = some e ∧
      core.firstNotFinalisedFrame ≤ e.frameNumber := by
  let w : dag.Vertex := ⟨v, Or.inr hin⟩
  have hwk : dag.hashOf w = k := EventDag.hashOf_eq_iff.mpr hk
  obtain ⟨e, he, _, _, hframe⟩ :=
    (h.extend hext).store.lookup_vertex (v := w) (Or.inr hv)
  refine ⟨e, by rw [← hwk, he], ?_⟩
  rw [hframe]
  by_contra hlt
  rcases h.present_of_frame_lt (Nat.lt_of_not_le hlt) with hleaf | hmem
  · exact EventDag.parents_eq_none.mp hleaf hin
  · exact hnew hmem

theorem mem_events_of_extends {later : List (HashEvent P D T H)}
    (hext : DagExtends dag inserted core later core') {v : HashEvent P D T H}
    (hv : v ∈ later) (hnew : v ∉ inserted) : v ∈ dag.events := by
  induction hext with
  | refl => exact absurd hv hnew
  | insert event _ hmem _ _ ih =>
      rcases List.mem_cons.mp hv with rfl | hv
      · exact hmem
      · exact ih hv

omit [LinearOrder P] [LinearOrder H] [Inhabited H] in
theorem lt_firstNotFinalisedFrame {f last : Nat}
    (hlast : core.lastFinalisedFrame = some last) (hf : f ≤ last) :
    f < core.firstNotFinalisedFrame := by
  rw [DAGcore.firstNotFinalisedFrame, hlast]
  exact Nat.lt_succ_of_le hf

/-- Agreement and immutability: two states that have finalised frame `f` hold
the same sorted list of records for it, and whatever is inserted after either
state has a later frame. -/
theorem finalised_frames_agree (h : DagRun dag conf inserted core)
    (h' : DagRun dag conf' inserted' core') {f last last' : Nat}
    (hlast : core.lastFinalisedFrame = some last)
    (hlast' : core'.lastFinalisedFrame = some last')
    (hf : f ≤ last) (hf' : f ≤ last') :
    core.store.getFrame f = core'.store.getFrame f ∧
      (core.store.getFrame f).Sorted ∧
      (∀ later core₁, DagExtends dag inserted core later core₁ →
        ∀ v ∈ later, v ∉ inserted → ∀ k, env.eventHash v = .ok k →
          ∃ e, core₁.store.event (.hash k) = some e ∧ f < e.frameNumber) ∧
      (∀ later core₁, DagExtends dag inserted' core' later core₁ →
        ∀ v ∈ later, v ∉ inserted' → ∀ k, env.eventHash v = .ok k →
          ∃ e, core₁.store.event (.hash k) = some e ∧ f < e.frameNumber) := by
  have hlt := lt_firstNotFinalisedFrame hlast hf
  have hlt' := lt_firstNotFinalisedFrame hlast' hf'
  refine ⟨h.dagInv.getFrame_eq h'.dagInv hlt hlt', h.dagInv.sorted f hlt, ?_, ?_⟩
  · intro later core₁ hext v hv hnew k hk
    obtain ⟨e, he, hle⟩ := h.dagInv.later_frame hext hv hnew
      (mem_events_of_extends hext hv hnew) hk
    exact ⟨e, he, Nat.lt_of_lt_of_le hlt hle⟩
  · intro later core₁ hext v hv hnew k hk
    obtain ⟨e, he, hle⟩ := h'.dagInv.later_frame hext hv hnew
      (mem_events_of_extends hext hv hnew) hk
    exact ⟨e, he, Nat.lt_of_lt_of_le hlt' hle⟩

/-- The two peers hold the same frame 0. -/
theorem TwoPeers.frame_zero_agrees :
    (TwoPeers.after (TwoPeers.start 0) [TwoPeers.b₁, TwoPeers.a₁]).store.getFrame
        0 =
      (TwoPeers.after (TwoPeers.start 1) [TwoPeers.b₁, TwoPeers.a₁,
        TwoPeers.b₂]).store.getFrame 0 := by
  have hlast : (TwoPeers.after (TwoPeers.start 0) [TwoPeers.b₁,
      TwoPeers.a₁]).lastFinalisedFrame = some 0 := by decide +kernel
  have hlast' : (TwoPeers.after (TwoPeers.start 1) [TwoPeers.b₁, TwoPeers.a₁,
      TwoPeers.b₂]).lastFinalisedFrame = some 0 := by decide +kernel
  exact (finalised_frames_agree TwoPeers.dagRun_two TwoPeers.dagRun_three hlast
    hlast' (Nat.le_refl 0) (Nat.le_refl 0)).1

end Agreement

section Causality

/-- The hashes of the finalised events, frame after frame. -/
def DAGcore.finalOrder (core : DAGcore P D T H PK SK Sig) : List H :=
  (List.range core.firstNotFinalisedFrame).flatMap fun f =>
    (core.store.getFrame f).events.map FrameRecord.hash

theorem DagInv.mem_finalOrder_iff (h : DagInv dag inserted core)
    (v : dag.Vertex) : dag.hashOf v ∈ core.finalOrder ↔
      dag.graph.frame v < core.firstNotFinalisedFrame := by
  simp only [DAGcore.finalOrder, List.mem_flatMap, List.mem_range, List.mem_map]
  constructor
  · rintro ⟨f, hf, record, hrecord, hhash⟩
    obtain ⟨w, hw, rfl⟩ := (h.mem_finalised_iff hf record).mp hrecord
    rw [← EventDag.hashOf_injective hhash]
    omega
  · intro hf
    exact ⟨_, hf, _, (h.mem_finalised_iff hf _).mpr ⟨v, rfl, rfl⟩, rfl⟩

/-- A relation between the hashes of vertices holds all along the final order
when it holds inside frames, by Lamport times, and from frame to frame. -/
theorem DagInv.pairwise_finalOrder (h : DagInv dag inserted core)
    {R : H → H → Prop}
    (hwithin : ∀ v w : dag.Vertex, v ≠ w →
      dag.graph.frame v = dag.graph.frame w →
      v.1.lamportTimestamp ≤ w.1.lamportTimestamp →
      R (dag.hashOf v) (dag.hashOf w))
    (hacross : ∀ v w : dag.Vertex, dag.graph.frame v < dag.graph.frame w →
      R (dag.hashOf v) (dag.hashOf w)) :
    core.finalOrder.Pairwise R := by
  rw [DAGcore.finalOrder, List.pairwise_flatMap]
  constructor
  · intro f hf
    have hf := List.mem_range.mp hf
    rw [List.pairwise_map]
    refine ((h.sorted f hf).and (h.store.record_nodup f)).imp_of_mem ?_
    rintro a b ha hb ⟨hle, hne⟩
    obtain ⟨v, hv, rfl⟩ := (h.mem_finalised_iff hf a).mp ha
    obtain ⟨w, hw, rfl⟩ := (h.mem_finalised_iff hf b).mp hb
    refine hwithin v w ?_ (hv.trans hw.symm) ?_
    · rintro rfl
      exact hne rfl
    · rcases FrameRecord.le_iff.mp hle with hlt | ⟨heq, _⟩
      · exact hlt.le
      · exact heq.le
  · refine List.pairwise_lt_range.imp_of_mem ?_
    intro f g hf hg hlt x hx y hy
    obtain ⟨a, ha, rfl⟩ := List.mem_map.mp hx
    obtain ⟨b, hb, rfl⟩ := List.mem_map.mp hy
    obtain ⟨v, hv, rfl⟩ := (h.mem_finalised_iff (List.mem_range.mp hf) a).mp ha
    obtain ⟨w, hw, rfl⟩ := (h.mem_finalised_iff (List.mem_range.mp hg) b).mp hb
    exact hacross v w (by omega)

omit [LinearOrder H] in
/-- Lamport times grow along the graph when they grow from the parents of every
vertex to the vertex. -/
theorem lamport_lt_of_ancestor
    (hlamport : ∀ v s o, dag.graph.parents v = some (s, o) →
      s.1.lamportTimestamp < v.1.lamportTimestamp ∧
        o.1.lamportTimestamp < v.1.lamportTimestamp)
    {u v : dag.Vertex} (h : dag.graph.Ancestor u v) :
    u.1.lamportTimestamp < v.1.lamportTimestamp := by
  have hstep : ∀ {p v}, dag.graph.IsParent p v →
      p.1.lamportTimestamp < v.1.lamportTimestamp := by
    rintro p v ⟨s, o, hv, rfl | rfl⟩
    · exact (hlamport v _ o hv).1
    · exact (hlamport v s _ hv).2
  induction h with
  | single hp => exact hstep hp
  | tail _ hp ih => exact ih.trans (hstep hp)

/-- The final order respects causality: it lists no event twice, and lists every
ancestor of a finalised event at an earlier place. -/
theorem ancestor_before_in_finalOrder (h : DagRun dag conf inserted core)
    (hlamport : ∀ v s o, dag.graph.parents v = some (s, o) →
      s.1.lamportTimestamp < v.1.lamportTimestamp ∧
        o.1.lamportTimestamp < v.1.lamportTimestamp) :
    core.finalOrder.Nodup ∧
      ∀ u v : dag.Vertex, dag.graph.Ancestor u v → ∀ j : Nat,
        core.finalOrder[j]? = some (dag.hashOf v) →
        ∃ i < j, core.finalOrder[i]? = some (dag.hashOf u) := by
  have hinv := h.dagInv
  constructor
  · refine hinv.pairwise_finalOrder ?_ ?_
    · exact fun v w hne _ _ heq => hne (EventDag.hashOf_injective heq)
    · intro v w hlt heq
      rw [EventDag.hashOf_injective heq] at hlt
      exact Nat.lt_irrefl _ hlt
  · intro u v huv j hj
    have hframe := frame_le_of_reaches huv.reaches
    have hv := (hinv.mem_finalOrder_iff v).mp (List.mem_of_getElem? hj)
    have hu := (hinv.mem_finalOrder_iff u).mpr (by omega)
    obtain ⟨i, hi⟩ := List.mem_iff_getElem?.mp hu
    -- no ancestor stands after a descendant
    have horder : core.finalOrder.Pairwise fun a b =>
        ∀ x y : dag.Vertex, dag.hashOf x = a → dag.hashOf y = b →
          ¬ dag.graph.Ancestor y x := by
      refine hinv.pairwise_finalOrder ?_ ?_
      · intro x y _ _ hle x' y' hx hy hanc
        rw [EventDag.hashOf_injective hx, EventDag.hashOf_injective hy] at hanc
        have hlt := lamport_lt_of_ancestor hlamport hanc
        omega
      · intro x y hlt x' y' hx hy hanc
        rw [EventDag.hashOf_injective hx, EventDag.hashOf_injective hy] at hanc
        have hle := frame_le_of_reaches hanc.reaches
        omega
    refine ⟨i, ?_, hi⟩
    rcases Nat.lt_trichotomy i j with hlt | rfl | hgt
    · exact hlt
    · rw [hj, Option.some.injEq] at hi
      rw [EventDag.hashOf_injective hi] at huv
      exact absurd huv (wellFounded_ancestor.irrefl.irrefl u)
    · obtain ⟨hjlt, hjget⟩ := List.getElem?_eq_some_iff.mp hj
      obtain ⟨hilt, higet⟩ := List.getElem?_eq_some_iff.mp hi
      exact absurd huv (List.pairwise_iff_getElem.mp horder j i hjlt hilt hgt
        v u hjget.symm higet.symm)

/-- With all six events in, the fourth final event is the first peer's first one, and
the event of the other peer that it answers stands before it. -/
theorem TwoPeers.answered_before :
    (TwoPeers.after (TwoPeers.start 0) TwoPeers.sixEvents).finalOrder.Nodup ∧
      ∃ i < 3, (TwoPeers.after (TwoPeers.start 0) TwoPeers.sixEvents).finalOrder[i]? =
        some 4 := by
  have horder := ancestor_before_in_finalOrder TwoPeers.dagRun_six
    TwoPeers.lamport_lt_of_parents
  let answer := TwoPeers.vertex TwoPeers.a₁.toHashEvent (by decide)
  let answered := TwoPeers.vertex TwoPeers.b₁.toHashEvent (by decide)
  have hparents : TwoPeers.dag.graph.parents answer =
      some (TwoPeers.vertex (leafHashEvent (TwoPeers.peer 0)) (by decide), answered) :=
    TwoPeers.parents_vertex _ _ _ (by decide) (by decide) (by decide)
  have hanswer : TwoPeers.dag.hashOf answer = 2 := EventDag.hashOf_eq_iff.mpr rfl
  have hanswered : TwoPeers.dag.hashOf answered = 4 := EventDag.hashOf_eq_iff.mpr rfl
  have hfourth : (TwoPeers.after (TwoPeers.start 0) TwoPeers.sixEvents).finalOrder[3]? =
      some (TwoPeers.dag.hashOf answer) := by
    rw [hanswer]
    decide +kernel
  have hbefore := horder.2 answered answer (.single (isParent_other hparents)) 3 hfourth
  rw [hanswered] at hbefore
  exact ⟨horder.1, hbefore⟩

end Causality

section Quorums

/-- The frame number a node has stored for a vertex. -/
noncomputable def storedFrame (dag : EventDag env peers)
    (core : DAGcore P D T H PK SK Sig) (v : dag.Vertex) : Option Nat :=
  (core.store.event (.hash (dag.hashOf v))).map Event.frameNumber

/-- A stored root of frame `f`: a leaf, or an event with a frame number beyond
its self-parent's. -/
def StoredRoot (dag : EventDag env peers) (core : DAGcore P D T H PK SK Sig)
    (r : dag.Vertex) (f : Nat) : Prop :=
  storedFrame dag core r = some f ∧ ∀ s o, dag.graph.parents r = some (s, o) →
    ∃ g, storedFrame dag core s = some g ∧ g < f

open scoped Classical in
/-- The peers with a root of frame `f` that is an ancestor of both vertices. -/
noncomputable def commonRootCreators (dag : EventDag env peers)
    (core : DAGcore P D T H PK SK Sig) (f : Nat) (v w : dag.Vertex) : Finset P :=
  (peers.map DAGPeer.id).toFinset.filter fun c =>
    ∃ r, dag.graph.Ancestor r v ∧ dag.graph.Ancestor r w ∧
      StoredRoot dag core r f ∧ r.1.creator = c

theorem DagInv.storedFrame_eq (h : DagInv dag inserted core) {v : dag.Vertex}
    (hv : v ∈ dag.present inserted) :
    storedFrame dag core v = some (dag.graph.frame v) := by
  obtain ⟨e, he, _, _, hframe⟩ := h.store.lookup_vertex hv
  rw [storedFrame, he, Option.map_some, hframe]

theorem DagInv.present_of_storedFrame (h : DagInv dag inserted core)
    {v : dag.Vertex} {f : Nat} (hf : storedFrame dag core v = some f) :
    v ∈ dag.present inserted ∧ dag.graph.frame v = f := by
  obtain ⟨e, he, hframe⟩ := Option.map_eq_some_iff.mp hf
  obtain ⟨w, hw, hhash, _, hwframe⟩ := h.vertex_of_stored he
  rw [← EventDag.hashOf_injective hhash]
  exact ⟨hw, hwframe.symm.trans hframe⟩

/-- Quorum overlap: for two events beyond frame `f`, more than a third of the
peers have a root of frame `f` below both. -/
theorem third_lt_commonRootCreators (h : DagRun dag conf inserted core)
    {v w : dag.Vertex} {f a b : Nat} (hv : storedFrame dag core v = some a)
    (hw : storedFrame dag core w = some b) (ha : f < a) (hb : f < b) :
    peers.length < 3 * (commonRootCreators dag core f v w).card := by
  have hinv := h.dagInv
  obtain ⟨hvS, rfl⟩ := hinv.present_of_storedFrame hv
  obtain ⟨hwS, rfl⟩ := hinv.present_of_storedFrame hw
  have hoverlap := majority_overlap ha hb
    (commonRootCreators dag core f v w) ?_
  · rw [EventDag.card_graph_peers] at hoverlap
    have hmajority : dag.graph.majority = 2 * peers.length / 3 + 1 := rfl
    omega
  · intro c r hrv hrw hroot hframe hcreator
    have hrS := hinv.closed.mem_of_reaches hrv.reaches hvS
    simp only [commonRootCreators, Finset.mem_filter]
    refine ⟨?_, r, hrv, hrw, ⟨?_, ?_⟩, hcreator⟩
    · rw [← hcreator]
      exact dag.graph.creator_mem r
    · rw [hinv.storedFrame_eq hrS, hframe]
    · intro s o hparents
      refine ⟨_, hinv.storedFrame_eq (hinv.closed r hrS s
        (isParent_self hparents)), ?_⟩
      rw [← hframe]
      exact hroot s o hparents

/-- The later events of the two peers have the leaves of both below them. -/
theorem TwoPeers.quorum_below_two : ∃ v w : TwoPeers.dag.Vertex,
    2 < 3 * (commonRootCreators TwoPeers.dag (TwoPeers.after (TwoPeers.start 1)
      [TwoPeers.b₁, TwoPeers.a₁, TwoPeers.b₂]) 0 v w).card := by
  have hinv := TwoPeers.dagRun_three.dagInv
  have hframes : ((TwoPeers.after (TwoPeers.start 1) [TwoPeers.b₁, TwoPeers.a₁,
      TwoPeers.b₂]).store.event (.hash 6)).map Event.frameNumber = some 2 ∧
      ((TwoPeers.after (TwoPeers.start 1) [TwoPeers.b₁, TwoPeers.a₁,
        TwoPeers.b₂]).store.event (.hash 2)).map Event.frameNumber = some 1 := by
    decide +kernel
  obtain ⟨e, he, _⟩ := Option.map_eq_some_iff.mp hframes.1
  obtain ⟨e', he', _⟩ := Option.map_eq_some_iff.mp hframes.2
  obtain ⟨v, _, hv, _⟩ := hinv.vertex_of_stored he
  obtain ⟨w, _, hw, _⟩ := hinv.vertex_of_stored he'
  exact ⟨v, w, third_lt_commonRootCreators TwoPeers.dagRun_three
    (by rw [storedFrame, hv]; exact hframes.1)
    (by rw [storedFrame, hw]; exact hframes.2) (by decide) (by decide)⟩

end Quorums

end ConsensusDag
