/-
What a node reads back from its store, in every state of a run over an event graph:
flag tables, the two keys of an event, and the records of the frames.
-/
import ConsensusDag.DagInvariant
import ConsensusDag.Forks
import ConsensusDag.Redelivery

namespace ConsensusDag

open ParentGraphs ParentGraph QuorumGraph

variable {P D T H PK SK Sig : Type} [LinearOrder P] [LinearOrder H]
  [Inhabited H] {env : Env P D T H PK SK Sig} {peers : List (DAGPeer P PK)}
  {dag : EventDag env peers} {conf : DAGconfig P PK SK}
  {inserted : List (HashEvent P D T H)} {core core' : DAGcore P D T H PK SK Sig}

section FlagTables

/-- An ancestor of a stored event is stored, with the frame of its vertex. -/
theorem DagInv.stored_of_reaches (h : DagInv dag inserted core) {v r : dag.Vertex}
    (hv : v ∈ dag.present inserted) (hr : dag.graph.Reaches r v) :
    ∃ e, core.store.event (.hash (dag.hashOf r)) = some e ∧
      e.toHashEvent = r.1 ∧ e.frameNumber = dag.graph.frame r := by
  obtain ⟨e, he, hsame, -, hframe⟩ :=
    h.store.lookup_vertex (h.closed.mem_of_reaches hr hv)
  exact ⟨e, he, hsame, hframe⟩

/-- The flag table of a stored event lists roots only, each of them stored with the
frame that is listed and either the event itself or an ancestor; and from the
first frame that is not finalised on, it lists all of them. -/
theorem flagTable_entries (h : DagRun dag conf inserted core) {k : H}
    {e : Event P D T H Sig} (he : core.store.event (.hash k) = some e) :
    ∃ (v : dag.Vertex) (ft : FlagTable H), dag.hashOf v = k ∧ e.toHashEvent = v.1 ∧
      core.store.flagTable k = some ft ∧
      (∀ key f, ft.lookup key = some f → ∃ (r : dag.Vertex) (e' : Event P D T H Sig),
        dag.hashOf r = key ∧ dag.graph.IsRoot r ∧ dag.graph.Reaches r v ∧
          core.store.event (.hash key) = some e' ∧ e'.toHashEvent = r.1 ∧
          e'.frameNumber = f) ∧
      ∀ (r : dag.Vertex) (e' : Event P D T H Sig), dag.graph.IsRoot r →
        dag.graph.Reaches r v →
        core.store.event (.hash (dag.hashOf r)) = some e' →
        core.firstNotFinalisedFrame ≤ e'.frameNumber →
        ft.lookup (dag.hashOf r) = some e'.frameNumber := by
  have hinv := h.dagInv
  obtain ⟨v, hv, rfl, hsame, -, -⟩ := hinv.store.stored k e he
  obtain ⟨ft, hft, htable⟩ := hinv.store.table v hv
  refine ⟨v, ft, rfl, hsame, hft, ?_, ?_⟩
  · intro key f hlookup
    obtain ⟨r, rfl, hreach, hroot, rfl⟩ := htable.sound key f hlookup
    obtain ⟨e', he', hsame', hframe⟩ := hinv.stored_of_reaches hv hreach
    exact ⟨r, e', rfl, hroot, hreach, he', hsame', hframe⟩
  · intro r e' hroot hreach he' hle
    obtain ⟨e₁, he₁, -, hframe⟩ := hinv.stored_of_reaches hv hreach
    obtain rfl : e' = e₁ := Option.some.inj (he'.symm.trans he₁)
    rw [hframe] at hle ⊢
    exact htable.complete r hreach hroot hle

end FlagTables

namespace TwoPeers

/-- `a₁` closes frame 0, and its table has every root from frame 1 on. -/
theorem flagTable_of_a₁ :
    ∃ (v : TwoPeers.dag.Vertex) (ft : FlagTable Nat), TwoPeers.dag.hashOf v = 2 ∧
      (after (start 0) [b₁, a₁]).store.flagTable 2 = some ft ∧
      ∀ (r : TwoPeers.dag.Vertex) (e : Event Nat Nat Unit Nat Unit),
        TwoPeers.dag.graph.IsRoot r → TwoPeers.dag.graph.Reaches r v →
        (after (start 0) [b₁, a₁]).store.event
          (.hash (TwoPeers.dag.hashOf r)) = some e →
        1 ≤ e.frameNumber →
        ft.lookup (TwoPeers.dag.hashOf r) = some e.frameNumber := by
  obtain ⟨e, he⟩ := Option.isSome_iff_exists.mp (show ((after (start 0)
    [b₁, a₁]).store.event (.hash 2)).isSome = true by decide +kernel)
  obtain ⟨v, ft, hv, -, hft, -, hroots⟩ := flagTable_entries dagRun_two he
  exact ⟨v, ft, hv, hft, hroots⟩

end TwoPeers

section Views

/-- A new node has each leaf event under both of its keys. -/
theorem new_leavesIndexed (hperm : conf.peers.peers.Perm peers)
    (hnew : DAGcore.new env conf SledStore.empty = .ok core)
    (dag : EventDag env peers) :
    Indexed env core.store := by
  have hnodup : (conf.peers.peers.map DAGPeer.id).Nodup :=
    (hperm.map _).nodup_iff.mpr dag.peers_nodup
  have hloop : LeavesIndexed env (conf.peers.setCreator conf.creator).peers
      core.store := by
    refine DAGcore.new_induct (I := LeavesIndexed env) hnew .empty ?_
    intro done peer s s' hmem hid hdone hbody
    apply hdone.insertLeaf hbody (hid _ hnodup)
    intro q hq k hk hk'
    have hq := hmem q (List.mem_append_left [peer] hq)
    have hpeer := hmem peer (List.mem_append_right _ List.mem_cons_self)
    have hsame := dag.collision_free (leafHashEvent q) (leafHashEvent peer) k
      (Or.inl ⟨q, hperm.mem_iff.mp hq, rfl⟩)
      (Or.inl ⟨peer, hperm.mem_iff.mp hpeer, rfl⟩) hk hk'
    exact List.inj_on_of_nodup_map hnodup hq hpeer
      (congrArg HashEvent.creator hsame)
  exact hloop.indexed

/-- Inserting an event of the graph fills two keys that were free. -/
theorem Indexed.insert {event : Event P D T H Sig}
    (h : Indexed env core.store) (hinv : DagInv dag inserted core)
    {ins : core.Insertion env event core'} {v s o : dag.Vertex}
    (hadd : AddsVertex dag inserted ins v s o) : Indexed env core'.store := by
  have hnone : ∀ k e, core.store.event (.hash k) = some e →
      e.creator = event.creator → e.height = event.height → False := by
    intro k e he hcreator hheight
    obtain ⟨w, hw, -, hsame⟩ := hinv.store.stored k e he
    have hwcreator : w.1.creator = e.creator := by rw [← hsame.1]; rfl
    have hwheight : w.1.height = e.height := by rw [← hsame.1]; rfl
    have hwv : w = v := Subtype.ext (dag.fork_free w.1 v.1 w.2 v.2
      (by rw [hwcreator, hcreator, hadd.vertex]; rfl)
      (by rw [hwheight, hheight, hadd.vertex]; rfl))
    exact hadd.fresh (hwv ▸ hw)
  apply h.write (e := ins.stored) ins.event_eq ins.hash_eq
  · intro e he
    -- under the hash of `v` there could only be `v` itself
    obtain ⟨w, hw, hk, -⟩ := hinv.store.stored _ e he
    have hwv : w = v := EventDag.hashOf_injective (hk.trans hadd.hash.symm)
    exact absurd (hwv ▸ hw) hadd.fresh
  · intro e he
    obtain ⟨hcreator, hheight, hstored⟩ := h.of_creator _ _ e he
    exact (hnone _ e hstored hcreator hheight).elim

theorem DagRun.indexed (h : DagRun dag conf inserted core) :
    Indexed env core.store := by
  obtain ⟨start, hperm, hnew, hext⟩ := h
  have hstart : DagInv dag [] start := DagInv.new hperm hnew
  have hindexed := new_leavesIndexed hperm hnew dag
  induction hext with
  | refl => exact hindexed
  | insert event hext hmem hfresh hinsert ih =>
      obtain ⟨_, ⟨ins⟩⟩ := DAGcore.insertEvent_eq_ok hinsert
      have hinv := hstart.extend hext
      obtain ⟨v, s, o, hadd⟩ := hinv.addsVertex hmem hfresh ins
      exact ih.insert hinv hadd

/-- The records of a frame are those of the stored events with its number. -/
theorem StoreInv.record_iff {S : Set dag.Vertex} {first : Nat}
    {store : SledStore P D T H Sig} (h : StoreInv dag S first store) (f : Nat)
    (record : FrameRecord H) :
    record ∈ (store.getFrame f).events ↔ ∃ e, store.getEvent record.hash = .ok e ∧
      e.frameNumber = f ∧ e.lamportTimestamp = record.lamportTime := by
  rw [h.record]
  constructor
  · rintro ⟨v, hv, rfl, rfl⟩
    obtain ⟨e, he, hsame, -, hframe⟩ := h.lookup_vertex hv
    exact ⟨e, SledStore.getEvent_eq_ok.mpr he, hframe,
      congrArg HashEvent.lamportTimestamp hsame⟩
  · rintro ⟨e, he, rfl, hlamport⟩
    obtain ⟨v, hv, hk, hsame, -, hframe⟩ :=
      h.stored _ e (SledStore.getEvent_eq_ok.mp he)
    refine ⟨v, hv, hframe.symm, ?_⟩
    have htime : e.lamportTimestamp = v.1.lamportTimestamp :=
      congrArg HashEvent.lamportTimestamp hsame
    rw [hk, ← htime, hlamport]

/-- A stored event has one frame, so no hash stands in the frames twice. -/
theorem StoreInv.hashOnce {S : Set dag.Vertex} {first : Nat}
    {store : SledStore P D T H Sig} (h : StoreInv dag S first store) :
    HashOnce store where
  within f := by
    refine List.Nodup.map_on ?_ (h.record_nodup f)
    intro r hr r' hr' hsame
    obtain ⟨v, -, -, rfl⟩ := (h.record f r).mp hr
    obtain ⟨w, -, -, rfl⟩ := (h.record f r').mp hr'
    rw [EventDag.hashOf_injective hsame]
  across f g hne r hr r' hr' hsame := by
    obtain ⟨v, -, hf, rfl⟩ := (h.record f r).mp hr
    obtain ⟨w, -, hg, rfl⟩ := (h.record g r').mp hr'
    obtain rfl : v = w := EventDag.hashOf_injective hsame
    exact hne (hf.symm.trans hg)

/-- An event is read under its creator and height as it is read under its hash,
and the frames list each stored event once, in the frame it carries. -/
theorem store_views_agree (h : DagRun dag conf inserted core) :
    (∀ c height e, core.store.getEventOfCreator c height = .ok e ↔
      core.store.getEvent e.hash = .ok e ∧ e.creator = c ∧ e.height = height) ∧
    (∀ f record, record ∈ (core.store.getFrame f).events ↔
      ∃ e, core.store.getEvent record.hash = .ok e ∧ e.frameNumber = f ∧
        e.lamportTimestamp = record.lamportTime) ∧
    HashOnce core.store := by
  have hinv := h.dagInv
  refine ⟨fun c height e => ?_, hinv.store.record_iff, hinv.store.hashOnce⟩
  rw [SledStore.getEventOfCreator_eq_ok, SledStore.getEvent_eq_ok]
  constructor
  · intro he
    obtain ⟨hcreator, hheight, hstored⟩ := h.indexed.of_creator c height e he
    exact ⟨hstored, hcreator, hheight⟩
  · rintro ⟨he, rfl, rfl⟩
    exact (h.indexed.of_hash _ e he).2.2

end Views

namespace TwoPeers

/-- The first peer answers the first event of the second. -/
theorem store_views_agree_two :
    (∀ c height e, (after (start 0) [b₁, a₁]).store.getEventOfCreator c height =
        .ok e ↔
      (after (start 0) [b₁, a₁]).store.getEvent e.hash = .ok e ∧
        e.creator = c ∧ e.height = height) ∧
    (∀ f record, record ∈ ((after (start 0) [b₁, a₁]).store.getFrame f).events ↔
      ∃ e, (after (start 0) [b₁, a₁]).store.getEvent record.hash = .ok e ∧
        e.frameNumber = f ∧ e.lamportTimestamp = record.lamportTime) ∧
    HashOnce (after (start 0) [b₁, a₁]).store :=
  store_views_agree dagRun_two

end TwoPeers

end ConsensusDag
