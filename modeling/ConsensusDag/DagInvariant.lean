/-
The invariant of a node that inserts an event graph: a new node has it, and
`insert_event` keeps it.
-/
import ConsensusDag.FrameRefinement

namespace ConsensusDag

open ParentGraphs ParentGraph QuorumGraph

variable {P D T H PK SK Sig : Type} [LinearOrder P] [LinearOrder H]
  [Inhabited H] {env : Env P D T H PK SK Sig} {peers : List (DAGPeer P PK)}

/-- The state of a node that holds the leaf events and `inserted`.  A frame is
finalised when it is below the bound of some vertex of the node. -/
structure DagInv (dag : EventDag env peers)
    (inserted : List (HashEvent P D T H)) (core : DAGcore P D T H PK SK Sig) :
    Prop where
  peers_perm : core.conf.peers.peers.Perm peers
  closed : dag.graph.ParentClosed (dag.present inserted)
  store : StoreInv dag (dag.present inserted) core.firstNotFinalisedFrame
    core.store
  sorted : ∀ f < core.firstNotFinalisedFrame, (core.store.getFrame f).Sorted
  finalised : ∀ f, f < core.firstNotFinalisedFrame ↔
    ∃ v ∈ dag.present inserted, f < dag.graph.bound v
  log : core.finalisedLog = List.range core.firstNotFinalisedFrame

variable {dag : EventDag env peers} {inserted : List (HashEvent P D T H)}
  {core core' : DAGcore P D T H PK SK Sig} {event : Event P D T H Sig}

section Start

/-- The leaf event of a peer has frame zero and sees only itself. -/
theorem tableInv_leaf {v : dag.Vertex} (hv : dag.graph.parents v = none)
    (first : Nat) : TableInv dag v first (AList.insert (dag.hashOf v) 0 ∅) where
  sound k f hlookup := by
    obtain ⟨rfl, rfl⟩ := lookup_insert_empty hlookup
    exact ⟨v, rfl, Relation.ReflTransGen.refl, isRoot_of_leaf hv, frame_of_leaf hv⟩
  complete r hr _ _ := by
    rw [(reaches_iff_of_leaf hv).mp hr, frame_of_leaf hv, AList.lookup_insert]
  own _ := by rw [frame_of_leaf hv, AList.lookup_insert]

/-- One turn of the loop of `new` writes the leaf event of a peer. -/
theorem insertLeaf_storeInv {S : Set dag.Vertex} {first : Nat}
    {store store' : SledStore P D T H Sig} (h : StoreInv dag S first store)
    {peer : DAGPeer P PK} (hpeer : peer ∈ peers)
    (hnew : dag.leafVertex hpeer ∉ S)
    (hleaf : DAGcore.insertLeaf env store peer = .ok store') :
    StoreInv dag (insert (dag.leafVertex hpeer) S) first store' := by
  have hparents : dag.graph.parents (dag.leafVertex hpeer) = none :=
    EventDag.parents_leafVertex hpeer
  obtain ⟨k, hk, rfl⟩ := DAGcore.insertLeaf_eq_ok hleaf
  have hkey : dag.hashOf (dag.leafVertex hpeer) = k := EventDag.hashOf_eq_iff.mpr hk
  rw [← hkey]
  exact h.write hnew rfl rfl (frame_of_leaf hparents).symm
    (tableInv_leaf hparents first)

theorem new_storeInv {conf : DAGconfig P PK SK} {first : Nat}
    (hperm : conf.peers.peers.Perm peers)
    (h : DAGcore.new env conf SledStore.empty = .ok core) :
    StoreInv dag {v | ∃ peer ∈ (conf.peers.setCreator conf.creator).peers,
      v.1 = leafHashEvent peer} first core.store := by
  let leaves (done : List (DAGPeer P PK)) : Set dag.Vertex :=
    {v | ∃ peer ∈ done, v.1 = leafHashEvent peer}
  refine DAGcore.new_induct (I := fun done s => StoreInv dag (leaves done) first s)
    h ?_ ?_
  · refine StoreInv.empty.congr_set (Set.ext fun v => ?_)
    simp [leaves]
  · intro done peer s s' hmem hfresh hs hleaf
    have hpeer := hperm.mem_iff.mp
      (hmem peer (List.mem_append_right _ List.mem_cons_self))
    have hnew : dag.leafVertex hpeer ∉ leaves done := by
      rintro ⟨p, hp, heq⟩
      have hid : peer.id = p.id := congrArg HashEvent.creator heq
      exact hfresh DAGPeer.id ((hperm.map _).nodup_iff.mpr dag.peers_nodup)
        (List.mem_map.mpr ⟨p, hp, hid.symm⟩)
    refine (insertLeaf_storeInv hs hpeer hnew hleaf).congr_set ?_
    refine Set.ext fun v => ⟨?_, ?_⟩
    · rintro (rfl | ⟨p, hp, heq⟩)
      · exact ⟨peer, List.mem_append_right _ List.mem_cons_self, rfl⟩
      · exact ⟨p, List.mem_append_left _ hp, heq⟩
    · rintro ⟨p, hp, heq⟩
      rcases List.mem_append.mp hp with hp | hp
      · exact Or.inr ⟨p, hp, heq⟩
      · rw [List.mem_singleton.mp hp] at heq
        exact Or.inl (Subtype.ext heq)

/-- A new node on an empty store holds the leaf events. -/
theorem DagInv.new {conf : DAGconfig P PK SK}
    (hperm : conf.peers.peers.Perm peers)
    (h : DAGcore.new env conf SledStore.empty = .ok core) :
    DagInv dag [] core := by
  have hstore : StoreInv dag {v | ∃ peer ∈ (conf.peers.setCreator
      conf.creator).peers, v.1 = leafHashEvent peer} 0 core.store :=
    new_storeInv hperm h
  obtain ⟨store, -, rfl⟩ := DAGcore.new_eq_ok h
  have hsorted := (conf.peers.setCreator_peers_perm conf.creator).trans hperm
  have hset : {v : dag.Vertex | ∃ peer ∈ (conf.peers.setCreator
      conf.creator).peers, v.1 = leafHashEvent peer} = dag.present [] := by
    ext v
    simp only [EventDag.present, List.not_mem_nil, or_false]
    constructor
    · rintro ⟨peer, hpeer, heq⟩
      have hpeer := hsorted.mem_iff.mp hpeer
      have hv : v = dag.leafVertex hpeer := Subtype.ext heq
      rw [hv]
      exact EventDag.parents_leafVertex hpeer
    · intro hv
      obtain ⟨peer, hpeer, heq⟩ := EventDag.exists_peer_of_leaf hv
      exact ⟨peer, hsorted.mem_iff.mpr hpeer, heq⟩
  rw [hset] at hstore
  refine ⟨hsorted, ?_, hstore, ?_, ?_, rfl⟩
  · rintro v (hv | hv) p ⟨s, o, hparents, _⟩
    · rw [hv] at hparents
      cases hparents
    · cases hv
  · intro f hf
    cases hf
  · intro f
    constructor
    · intro hf
      cases hf
    · rintro ⟨v, hv | hv, hf⟩
      · have hle := bound_le_frame (G := dag.graph) v
        rw [frame_of_leaf hv] at hle
        omega
      · cases hv

end Start

section Insert

/-- The vertex an insertion adds, its parents, and what the node has computed
for it. -/
structure AddsVertex (dag : EventDag env peers)
    (inserted : List (HashEvent P D T H)) (ins : core.Insertion env event core')
    (v s o : dag.Vertex) : Prop where
  vertex : v.1 = event.toHashEvent
  hash : dag.hashOf v = ins.eventHash
  parents : dag.graph.parents v = some (s, o)
  fresh : v ∉ dag.present inserted
  self_mem : s ∈ dag.present inserted
  other_mem : o ∈ dag.present inserted
  first_le : core.firstNotFinalisedFrame ≤ dag.graph.frame s
  frame : ins.frame = dag.graph.frame v
  table : TableInv dag v core.firstNotFinalisedFrame ins.flagTable

/-- A vertex whose parents a node holds has its self-parent, and so itself, at
or beyond the finalisation point. -/
theorem DagInv.first_le_frame_self (h : DagInv dag inserted core)
    {v s o : dag.Vertex} (hfresh : v ∉ dag.present inserted)
    (hv : dag.graph.parents v = some (s, o)) :
    core.firstNotFinalisedFrame ≤ dag.graph.frame s := by
  by_contra hlt
  obtain ⟨z, hz, hbound⟩ :=
    (h.finalised (dag.graph.frame s)).mp (Nat.lt_of_not_le hlt)
  have hnot : ¬ dag.graph.Reaches v z :=
    fun hreach => hfresh (h.closed.mem_of_reaches hreach hz)
  exact Nat.lt_irrefl _ (lt_frame_self_of_lt_bound hbound hnot hv)

theorem DagInv.addsVertex (h : DagInv dag inserted core)
    (hmem : event.toHashEvent ∈ dag.events) (hnew : event.toHashEvent ∉ inserted)
    (ins : core.Insertion env event core') :
    ∃ v s o, AddsVertex dag inserted ins v s o := by
  let v : dag.Vertex := ⟨event.toHashEvent, Or.inr hmem⟩
  have hhash : dag.hashOf v = ins.eventHash := EventDag.hashOf_eq_iff.mpr ins.hash_eq
  obtain ⟨s, hs, hself, _, _, hsframe⟩ := h.store.stored _ _ ins.self_stored
  obtain ⟨o, ho, hother, _, _, hoframe⟩ := h.store.stored _ _ ins.other_stored
  have hv : dag.graph.parents v = some (s, o) :=
    EventDag.parents_eq_some.mpr ⟨hmem, hself, hother⟩
  have hfresh : v ∉ dag.present inserted := by
    rintro (hleaf | hin)
    · rw [hleaf] at hv
      cases hv
    · exact hnew hin
  have hfirst := h.first_le_frame_self hfresh hv
  obtain ⟨sft, hsft, hstable⟩ := h.store.table s hs
  obtain ⟨oft, hoft, hotable⟩ := h.store.table o ho
  have hsft' : ins.selfParentFt = sft := by
    have hread := ins.self_ft
    rw [← hself, hsft] at hread
    exact (Option.some.inj hread).symm
  have hoft' : ins.otherParentFt = oft := by
    have hread := ins.other_ft
    rw [← hother, hoft] at hread
    exact (Option.some.inj hread).symm
  subst hsft' hoft'
  obtain ⟨root, hcall, hroot⟩ := rootAndFrame_eq h.store h.closed h.peers_perm hv
    hs ho hstable hotable hfirst hsframe hoframe
  have hpair := ins.frame_eq.symm.trans hcall
  simp only [Except.ok.injEq, Prod.mk.injEq] at hpair
  refine ⟨v, s, o, rfl, hhash, hv, hfresh, hs, ho, hfirst, hpair.2, ?_⟩
  have htable := tableInv_visibilis core rfl hv hstable hotable hroot
  rw [hhash, ← hpair.1, ← hpair.2] at htable
  exact htable

omit [LinearOrder H] in
/-- The vertices after an insertion. -/
theorem present_cons {v : dag.Vertex} (hv : v.1 = event.toHashEvent) :
    dag.present (event.toHashEvent :: inserted) =
      insert v (dag.present inserted) := by
  ext w
  simp only [EventDag.present, List.mem_cons, Set.mem_insert_iff,
    Subtype.ext_iff, hv]
  exact ⟨fun hw => hw.elim (fun hw => Or.inr (Or.inl hw)) fun hw =>
      hw.elim Or.inl fun hw => Or.inr (Or.inr hw),
    fun hw => hw.elim (fun hw => Or.inr (Or.inl hw)) fun hw =>
      hw.elim Or.inl fun hw => Or.inr (Or.inr hw)⟩

variable {ins : core.Insertion env event core'} {v s o : dag.Vertex}

/-- The store after the event is written and before frames are sorted. -/
theorem DagInv.storeInv_written (h : DagInv dag inserted core)
    (hadd : AddsVertex dag inserted ins v s o) :
    StoreInv dag (dag.present (event.toHashEvent :: inserted))
      core.firstNotFinalisedFrame ins.writtenStore := by
  rw [present_cons hadd.vertex]
  unfold DAGcore.Insertion.writtenStore
  have hwrite := h.store.write hadd.fresh (e := ins.stored)
    hadd.vertex.symm hadd.hash.symm hadd.frame hadd.table
  rw [hadd.hash] at hwrite
  exact hwrite

theorem DagInv.closed_cons (h : DagInv dag inserted core)
    (hadd : AddsVertex dag inserted ins v s o) :
    dag.graph.ParentClosed (dag.present (event.toHashEvent :: inserted)) := by
  rw [present_cons hadd.vertex]
  rintro w (rfl | hw) p hp
  · obtain ⟨s', o', hparents, hp⟩ := hp
    rw [hadd.parents] at hparents
    cases hparents
    rcases hp with rfl | rfl
    · exact Or.inr hadd.self_mem
    · exact Or.inr hadd.other_mem
  · exact Or.inr (h.closed w hw p hp)

theorem DagInv.frames_eq (h : DagInv dag inserted core)
    (hadd : AddsVertex dag inserted ins v s o) :
    ins.frames = List.range' core.firstNotFinalisedFrame
      (dag.graph.bound v - core.firstNotFinalisedFrame) := by
  have hv : v ∈ dag.present (event.toHashEvent :: inserted) := by
    rw [present_cons hadd.vertex]
    exact Or.inl rfl
  have hframes := framesToFinalise_eq (core.written ins.eventHash
    ins.flagTable ins.stored) (h.storeInv_written hadd) (h.closed_cons hadd)
    h.peers_perm hv hadd.table
  exact Except.ok.inj (ins.frames_eq.symm.trans hframes)

/-- One call of `insert_event` keeps the invariant. -/
theorem DagInv.insert (h : DagInv dag inserted core)
    (hadd : AddsVertex dag inserted ins v s o) :
    DagInv dag (event.toHashEvent :: inserted) core' := by
  have hframes := h.frames_eq hadd
  have hfirst : core'.firstNotFinalisedFrame =
      max core.firstNotFinalisedFrame (dag.graph.bound v) := by
    rw [ins.firstNotFinalisedFrame_eq hframes]
    omega
  have hle : core.firstNotFinalisedFrame ≤ dag.graph.frame v :=
    hadd.first_le.trans (frame_self_le hadd.parents)
  refine ⟨?_, h.closed_cons hadd, ?_, ?_, ?_, ?_⟩
  · rw [ins.peers_eq]
    exact h.peers_perm
  · have hwritten : StoreInv dag _ core'.firstNotFinalisedFrame _ :=
      (h.storeInv_written hadd).mono (by omega)
    refine hwritten.of_perm ins.event_eq ins.flagTable_written fun f => ?_
    exact ins.getFrame_written f
  · intro f hf
    rw [ins.getFrame_eq]
    by_cases hin : f ∈ ins.frames
    · simp only [hin, ↓reduceIte]
      exact Frame.finalise_sorted _
    · have hold : f < core.firstNotFinalisedFrame := by
        rw [hframes, List.mem_range'_1] at hin
        omega
      have hne : f ≠ ins.frame := by
        rw [hadd.frame]
        omega
      simp only [hin, hne, ↓reduceIte]
      exact h.sorted f hold
  · intro f
    rw [hfirst, present_cons hadd.vertex, lt_max_iff, h.finalised]
    constructor
    · rintro (⟨w, hw, hlt⟩ | hlt)
      · exact ⟨w, Or.inr hw, hlt⟩
      · exact ⟨v, Or.inl rfl, hlt⟩
    · rintro ⟨w, rfl | hw, hlt⟩
      · exact Or.inr hlt
      · exact Or.inl ⟨w, hw, hlt⟩
  · exact ins.finalisedLog_range h.log

end Insert

/-- Every state of a run keeps the invariant. -/
theorem DagInv.extend {later : List (HashEvent P D T H)}
    (h : DagInv dag inserted core)
    (hext : DagExtends dag inserted core later core') :
    DagInv dag later core' := by
  induction hext with
  | refl => exact h
  | insert event _ hmem hnew hinsert ih =>
      obtain ⟨_, ⟨ins⟩⟩ := DAGcore.insertEvent_eq_ok hinsert
      obtain ⟨v, s, o, hadd⟩ := ih.addsVertex hmem hnew ins
      exact ih.insert hadd

theorem DagRun.dagInv {conf : DAGconfig P PK SK}
    (h : DagRun dag conf inserted core) : DagInv dag inserted core := by
  obtain ⟨start, hperm, hnew, hext⟩ := h
  exact (DagInv.new hperm hnew).extend hext

end ConsensusDag
