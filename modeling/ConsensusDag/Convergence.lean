/-
Convergence.  What a node computes of the events that it holds depends on these events
alone, and only grows with them: two nodes that hold the same events are in the same
state, in whatever order and with whatever finalised in between the events came in.
-/
import ConsensusDag.Agreement

namespace ConsensusDag

open DAGcore ParentGraphs ParentGraph QuorumGraph Relation

section Runs

variable {P D T H PK SK Sig : Type} [LinearOrder P] [LinearOrder H] [Inhabited H]
  {net : Network P PK SK} {env : Env P D T H PK SK Sig}

/-- `core'` has all that `core` has computed, and the same of each event that `core`
holds.  Roots may be missing in flag tables only where `core'` has finalised. -/
structure GrowsTo (core core' : DAGcore P D T H PK SK Sig) : Prop where
  finalOrder : core.finalOrder <+: core'.finalOrder
  finalisedItems : core.finalisedItems <+: core'.finalisedItems
  records : ∀ f, (core.store.getFrame f).events ⊆ (core'.store.getFrame f).events
  stored : ∀ k e, core.store.event (.hash k) = some e →
    ∃ e', core'.store.event (.hash k) = some e' ∧ e'.toHashEvent = e.toHashEvent ∧
      e'.frameNumber = e.frameNumber ∧
      ∃ ft ft', core.store.flagTable k = some ft ∧ core'.store.flagTable k = some ft' ∧
        ∀ root f, core'.firstNotFinalisedFrame ≤ f →
          (ft.lookup root = some f ↔ ft'.lookup root = some f)

section Graph

variable {peers : List (DAGPeer P PK)} {dag : EventDag env peers}
  {inserted inserted' : List (HashEvent P D T H)}
  {core core' : DAGcore P D T H PK SK Sig}

/-- A node holds the leaf events and what it has inserted. -/
theorem DagInv.held_eq (h : DagInv dag inserted core) :
    heldIn core.store.event = Subtype.val '' dag.present inserted := by
  ext v
  constructor
  · rintro ⟨k, e, he, rfl⟩
    obtain ⟨u, hu, -, hevent, -⟩ := h.vertex_of_stored he
    exact ⟨u, hu, hevent.symm⟩
  · rintro ⟨u, hu, rfl⟩
    obtain ⟨e, he, hevent, -⟩ := h.store.lookup_vertex hu
    exact ⟨_, e, he, hevent⟩

variable (h : DagInv dag inserted core) (h' : DagInv dag inserted' core')
  (hsub : heldIn core.store.event ⊆ heldIn core'.store.event)
include h h' hsub

theorem DagInv.present_subset : dag.present inserted ⊆ dag.present inserted' := by
  rw [h.held_eq, h'.held_eq] at hsub
  exact (Set.image_subset_image_iff Subtype.val_injective).mp hsub

theorem DagInv.first_le_of_held :
    core.firstNotFinalisedFrame ≤ core'.firstNotFinalisedFrame := by
  by_contra hlt
  obtain ⟨v, hv, hbound⟩ := (h.finalised _).mp (Nat.lt_of_not_le hlt)
  have hfinal := (h'.finalised _).mpr ⟨v, h.present_subset h' hsub hv, hbound⟩
  exact Nat.lt_irrefl _ hfinal

theorem DagInv.records_subset (f : Nat) :
    (core.store.getFrame f).events ⊆ (core'.store.getFrame f).events := by
  intro record hrecord
  obtain ⟨v, hv, hframe⟩ := (h.store.record f record).mp hrecord
  exact (h'.store.record f record).mpr ⟨v, h.present_subset h' hsub hv, hframe⟩

/-- Each stored event is stored there too, with the same frame number, and with the same
roots listed from the first frame on that is not finalised there. -/
theorem DagInv.stored_same {k : H} {e : Event P D T H Sig}
    (he : core.store.event (.hash k) = some e) :
    ∃ e', core'.store.event (.hash k) = some e' ∧ e'.toHashEvent = e.toHashEvent ∧
      e'.frameNumber = e.frameNumber ∧
      ∃ ft ft', core.store.flagTable k = some ft ∧ core'.store.flagTable k = some ft' ∧
        ∀ root f, core'.firstNotFinalisedFrame ≤ f →
          (ft.lookup root = some f ↔ ft'.lookup root = some f) := by
  obtain ⟨v, hv, rfl, hevent, hframe⟩ := h.vertex_of_stored he
  have hv' := h.present_subset h' hsub hv
  obtain ⟨e', he', hevent', -, hframe'⟩ := h'.store.lookup_vertex hv'
  obtain ⟨ft, hft, htable⟩ := h.store.table v hv
  obtain ⟨ft', hft', htable'⟩ := h'.store.table v hv'
  refine ⟨e', he', hevent'.trans hevent.symm, hframe'.trans hframe.symm, ft, ft', hft,
    hft', fun root f hf => ⟨fun hlookup => ?_, fun hlookup => ?_⟩⟩
  · obtain ⟨r, rfl, hreach, hroot, rfl⟩ := htable.sound root f hlookup
    exact htable'.complete r hreach hroot hf
  · obtain ⟨r, rfl, hreach, hroot, rfl⟩ := htable'.sound root f hlookup
    exact htable.complete r hreach hroot ((h.first_le_of_held h' hsub).trans hf)

theorem DagInv.growsTo : GrowsTo core core' :=
  have hle := h.first_le_of_held h' hsub
  ⟨h.finalOrder_prefix h' hle, h.finalisedItems_prefix h' hle,
    h.records_subset h' hsub, fun _ _ he => h.stored_same h' hsub he⟩

omit hsub in
/-- With the same events held, each frame has the same records. -/
theorem DagInv.records_perm (hsame : heldIn core.store.event = heldIn core'.store.event)
    (f : Nat) : (core.store.getFrame f).events.Perm (core'.store.getFrame f).events :=
  (List.perm_ext_iff_of_nodup (h.store.record_nodup f) (h'.store.record_nodup f)).mpr
    fun _ => ⟨fun hrecord => h.records_subset h' hsame.le f hrecord,
      fun hrecord => h'.records_subset h hsame.ge f hrecord⟩

end Graph

omit [LinearOrder P] [LinearOrder H] [Inhabited H] in
theorem lastFinalisedFrame_eq {core core' : DAGcore P D T H PK SK Sig}
    (h : core.firstNotFinalisedFrame = core'.firstNotFinalisedFrame) :
    core.lastFinalisedFrame = core'.lastFinalisedFrame := by
  unfold firstNotFinalisedFrame at h
  cases hlast : core.lastFinalisedFrame <;> cases hlast' : core'.lastFinalisedFrame <;>
    rw [hlast, hlast'] at h
  · simp at h
  · simp at h
  · rw [Nat.succ.inj h]

namespace Service

variable {s s' : Service P D T H PK SK Sig} {i j : P}

/-- What a node has computed grows with the events that it holds, and depends on nothing
else.  When node `j` holds, at the same time or later, all that node `i` holds, it has
all that `i` has computed; when they hold the same events, they have finalised the same,
and each frame, final or not, has the same records. -/
theorem state_grows_with_held (hhonest : net.Honest env) (h : Reachable net env Unheld s)
    (hlater : ReflTransGen (Step net env Unheld) s s')
    (hfree : net.CollisionFree env s'.world) (hi : i ∈ net.ids) (hj : j ∈ net.ids) :
    let core := (s.world.nodes i).core
    let later := (s'.world.nodes j).core
    (heldIn core.store.event ⊆ heldIn later.store.event → GrowsTo core later) ∧
      (heldIn core.store.event = heldIn later.store.event →
        core.lastFinalisedFrame = later.lastFinalisedFrame ∧
        core.finalOrder = later.finalOrder ∧
        core.finalisedItems = later.finalisedItems ∧
        ∀ f, (core.store.getFrame f).events.Perm (later.store.getFrame f).events) := by
  obtain ⟨dag, -, -, hfollows, hfollows'⟩ := h.follow_one_graph hhonest hlater hfree
  obtain ⟨inserted, hnode⟩ := (hfollows i hi).node
  obtain ⟨inserted', hnode'⟩ := (hfollows' j hj).node
  have hinv := hnode.dagInv
  have hinv' := hnode'.dagInv
  constructor
  · intro hsub
    have hgrows := hinv.growsTo hinv' hsub
    exact ⟨hgrows.finalOrder, hgrows.finalisedItems, hgrows.records, hgrows.stored⟩
  · intro hsame
    have hgrows := hinv.growsTo hinv' hsame.le
    have hback := hinv'.growsTo hinv hsame.ge
    have hfirst := Nat.le_antisymm (hinv.first_le_of_held hinv' hsame.le)
      (hinv'.first_le_of_held hinv hsame.ge)
    have hrecords := hinv.records_perm hinv' hsame
    refine ⟨lastFinalisedFrame_eq hfirst, ?_, ?_, hrecords⟩
    · exact hgrows.finalOrder.eq_of_length_le hback.finalOrder.length_le
    · exact hgrows.finalisedItems.eq_of_length_le hback.finalisedItems.length_le

end Service

end Runs

namespace TwoPeers

/-- The first peer holds all that was made. -/
theorem held_talked {v : HashEvent Nat Nat Unit Nat} (h : net.Made talked.1.world v) :
    v ∈ heldIn (talked.1.world.nodes 0).core.store.event := by
  have hall : ∀ v ∈ peers.map leafHashEvent ++ talked.1.world.created,
      ((talked.1.world.nodes 0).core.store.event
        (.hash (Nat.pair v.creator v.height + 1))).map Event.toHashEvent = some v := by
    decide +kernel
  have hmem : v ∈ peers.map leafHashEvent ++ talked.1.world.created := by
    rcases h with ⟨peer, hpeer, rfl⟩ | hmem
    · exact List.mem_append_left _ (List.mem_map.mpr ⟨peer, hpeer, rfl⟩)
    · exact List.mem_append_right _ hmem
  obtain ⟨e, he, hsame⟩ := Option.map_eq_some_iff.mp (hall v hmem)
  exact ⟨_, e, he, hsame⟩

/-- What the second peer holds is part of that, and what it has finalised, of what the
first peer has. -/
theorem talked_grows :
    (talked.1.world.nodes 1).core.finalOrder = [1, 3] ∧
      (talked.1.world.nodes 0).core.finalOrder = [1, 3, 4, 2] ∧
      GrowsTo (talked.1.world.nodes 1).core (talked.1.world.nodes 0).core := by
  have hpart : heldIn (talked.1.world.nodes 1).core.store.event ⊆
      heldIn (talked.1.world.nodes 0).core.store.event := by
    rintro v ⟨k, e, he, rfl⟩
    have hclock := (reachable_talked.unpolled.clockInv.nodes 1 (by decide)).store
    exact held_talked (hclock.dated _ e he).made
  exact ⟨by decide +kernel, by decide +kernel,
    (Service.state_grows_with_held honest reachable_talked .refl collisionFree_talked
      (i := 1) (j := 0) (by decide) (by decide)).1 hpart⟩

end TwoPeers

end ConsensusDag
