/-
The frame numbers of a run, whoever makes its events: they go up along parent
edges by one at most, so the frames that have records leave no gap, and the
finalisation point stays below the last of them.
-/
import ConsensusDag.Network
import ConsensusDag.Redelivery
import ConsensusDag.TableLoops

namespace ConsensusDag

variable {P D T H PK SK Sig : Type}

section Calls

variable [LinearOrder P] [LinearOrder H] {env : Env P D T H PK SK Sig}
  {core : DAGcore P D T H PK SK Sig}

/-- A frame number is at least those of both parents, and at most one more than the
larger of the two. -/
theorem rootAndFrame_bounds {s o : Event P D T H Sig} {sft oft : FlagTable H}
    {root : Bool} {frame : Nat}
    (h : core.rootAndFrame env s o sft oft = .ok (root, frame)) :
    s.frameNumber ≤ frame ∧ o.frameNumber ≤ frame ∧
      frame ≤ max s.frameNumber o.frameNumber + 1 := by
  unfold DAGcore.rootAndFrame at h
  split at h
  · rename_i heq
    have hsame := compare_eq_iff_eq.mp heq
    simp only [Result.bind_eq_ok] at h
    obtain ⟨t, -, h⟩ := h
    split at h
    · cases h
      omega
    · cases h
      omega
  · rename_i hgt
    have hlt := compare_gt_iff_gt.mp hgt
    cases h
    omega
  · rename_i hlt
    have hlt := compare_lt_iff_lt.mp hlt
    cases h
    omega

omit [LinearOrder H] in
/-- Each frame in a creator table is that of an entry for a stored event. -/
theorem mem_of_derive [DecidableEq H] {store : SledStore P D T H Sig}
    {ft : FlagTable H} {least : Nat} {t : CreatorFlagTable P}
    (h : store.deriveCreatorFlagTable env ft least = .ok t) {c : P} {f : Nat}
    (hlookup : t.lookup c = some f) :
    ∃ key e, ft.lookup key = some f ∧ store.event (.hash key) = some e := by
  have hderive : store.deriveCreatorFlagTable env ft least = _ :=
    SledStore.deriveCreatorFlagTable_eq fun _ _ hkey hle => stored_of_derive h hkey hle
  obtain rfl := Except.ok.inj (h.symm.trans hderive)
  obtain ⟨-, ⟨key, e, hkey, he, -⟩, -⟩ := lookup_maxTable_creatorPairs.mp hlookup
  exact ⟨key, e, hkey, he⟩

/-- Frames are finalised up to one that an entry of the table has. -/
theorem framesToFinalise_le {ft : FlagTable H} {first top : Nat} {frames : List Nat}
    (h : core.framesToFinalise env ft first = .ok frames)
    (hne : core.conf.peers.peers ≠ [])
    (htop : ∀ key f e, ft.lookup key = some f →
      core.store.event (.hash key) = some e → f ≤ top) :
    ∃ count, frames = List.range' first count ∧ (count = 0 ∨ first + count ≤ top) := by
  unfold DAGcore.framesToFinalise at h
  simp only [Result.bind_eq_ok] at h
  obtain ⟨t, ht, h⟩ := h
  split at h
  · rename_i hlength
    cases h
    refine ⟨_, rfl, ?_⟩
    have hentries : t.entries ≠ [] := by
      rw [← List.length_pos_iff, ← hlength]
      exact List.length_pos_iff.mpr hne
    obtain ⟨⟨c, hc⟩, -⟩ := minFrame_spec hentries
    obtain ⟨key, e, hkey, he⟩ := mem_of_derive ht hc
    have hle := htop key _ e hkey he
    omega
  · cases h
    exact ⟨0, rfl, Or.inl rfl⟩

end Calls

section Invariant

variable [LinearOrder P] [LinearOrder H] {env : Env P D T H PK SK Sig}
  {core core' : DAGcore P D T H PK SK Sig} {event : Event P D T H Sig}

/-- The frames up to `top` have records and no others do; each stored event has one
of them, reached from those of its parents. -/
structure FramesUpTo (leaf : HashEvent P D T H → Prop)
    (core : DAGcore P D T H PK SK Sig) (top : Nat) : Prop where
  peers_ne : core.conf.peers.peers ≠ []
  filled : ∀ f, (core.store.getFrame f).events ≠ [] ↔ f ≤ top
  frame_le : ∀ k e, core.store.event (.hash k) = some e → e.frameNumber ≤ top
  table : ∀ k ft key f, core.store.flagTable k = some ft →
    ft.lookup key = some f →
    ∃ e, core.store.event (.hash key) = some e ∧ e.frameNumber = f
  parents : ∀ k e, core.store.event (.hash k) = some e → ¬ leaf e.toHashEvent →
    ∃ s o, core.store.event (.hash e.selfParent) = some s ∧
      core.store.event (.hash e.otherParent) = some o ∧
      s.frameNumber ≤ e.frameNumber ∧ o.frameNumber ≤ e.frameNumber ∧
      e.frameNumber ≤ max s.frameNumber o.frameNumber + 1
  first_le : core.firstNotFinalisedFrame ≤ top

variable {leaf : HashEvent P D T H → Prop} {top : Nat}

/-- What is stored stays as it is when an event is written under a new hash. -/
theorem DAGcore.Insertion.event_kept (ins : core.Insertion env event core')
    (hnew : core.store.event (.hash ins.eventHash) = none) {k : H}
    {e : Event P D T H Sig} (he : core.store.event (.hash k) = some e) :
    core'.store.event (.hash k) = some e := by
  rw [ins.event_hash, if_neg]
  · exact he
  · rintro rfl
    rw [hnew] at he
    cases he

/-- The frame of an inserted event is one that has records or the next one. -/
theorem FramesUpTo.frame_le_succ (h : FramesUpTo leaf core top)
    (ins : core.Insertion env event core') : ins.frame ≤ top + 1 := by
  obtain ⟨-, -, hle⟩ := rootAndFrame_bounds ins.frame_eq
  have hself := h.frame_le _ _ ins.self_stored
  have hother := h.frame_le _ _ ins.other_stored
  omega

/-- The entries of the table written for an event name stored events with their
frames. -/
theorem FramesUpTo.table_insert (h : FramesUpTo leaf core top)
    (ins : core.Insertion env event core')
    (hnew : core.store.event (.hash ins.eventHash) = none) {key : H} {f : Nat}
    (hlookup : ins.flagTable.lookup key = some f) :
    ∃ e, core'.store.event (.hash key) = some e ∧ e.frameNumber = f := by
  have hmerged : (openMergeFlagTable ins.selfParentFt ins.otherParentFt
      core.firstNotFinalisedFrame).lookup key = some f →
      ∃ e, core'.store.event (.hash key) = some e ∧ e.frameNumber = f := by
    intro hmem
    have hparent : ∃ e, core.store.event (.hash key) = some e ∧ e.frameNumber = f :=
      (lookup_of_lookup_openMergeFlagTable hmem).elim
        (h.table _ _ key f ins.self_ft) (h.table _ _ key f ins.other_ft)
    obtain ⟨e, he, hframe⟩ := hparent
    exact ⟨e, ins.event_kept hnew he, hframe⟩
  unfold DAGcore.Insertion.flagTable DAGcore.visibilisFlagTable at hlookup
  simp only at hlookup
  split at hlookup
  · by_cases hkey : key = ins.eventHash
    · subst hkey
      rw [AList.lookup_insert, Option.some.injEq] at hlookup
      exact ⟨ins.stored, by rw [ins.event_hash, if_pos rfl], hlookup⟩
    · rw [AList.lookup_insert_ne hkey] at hlookup
      exact hmerged hlookup
  · exact hmerged hlookup

/-- Inserting an event under a new hash adds at most the next frame. -/
theorem FramesUpTo.insert (h : FramesUpTo leaf core top)
    (ins : core.Insertion env event core')
    (hnew : core.store.event (.hash ins.eventHash) = none) :
    FramesUpTo leaf core' (max top ins.frame) := by
  have hsucc := h.frame_le_succ ins
  have hframe : ∀ k e, core'.store.event (.hash k) = some e →
      e.frameNumber ≤ max top ins.frame := by
    intro k e he
    rw [ins.event_hash] at he
    split at he
    · cases he
      exact Nat.le_max_right _ _
    · exact (h.frame_le k e he).trans (Nat.le_max_left _ _)
  constructor
  case peers_ne =>
    rw [ins.peers_eq]
    exact h.peers_ne
  case filled =>
    intro f
    have hperm := ins.getFrame_perm f
    have hnil : (core'.store.getFrame f).events ≠ [] ↔
        f = ins.frame ∨ (core.store.getFrame f).events ≠ [] := by
      rw [← List.length_pos_iff, hperm.length_eq, List.length_pos_iff]
      split
      · rename_i hf
        exact iff_of_true (by simp) (Or.inl hf)
      · rename_i hf
        exact ⟨Or.inr, fun hor => hor.resolve_left hf⟩
    rw [hnil, h.filled]
    omega
  case frame_le => exact hframe
  case table =>
    intro k ft key f hft hlookup
    rw [ins.flagTable_written] at hft
    unfold DAGcore.Insertion.writtenStore at hft
    rw [SledStore.setEvent_flagTable, SledStore.setFlagTable_flagTable] at hft
    split at hft
    · cases hft
      exact h.table_insert ins hnew hlookup
    · obtain ⟨e, he, heq⟩ := h.table k ft key f hft hlookup
      exact ⟨e, ins.event_kept hnew he, heq⟩
  case parents =>
    intro k e he hleaf
    rw [ins.event_hash] at he
    split at he
    · cases he
      obtain ⟨hself, hother, hle⟩ := rootAndFrame_bounds ins.frame_eq
      exact ⟨_, _, ins.event_kept hnew ins.self_stored,
        ins.event_kept hnew ins.other_stored, hself, hother, hle⟩
    · obtain ⟨s, o, hs, ho, hrest⟩ := h.parents k e he hleaf
      exact ⟨s, o, ins.event_kept hnew hs, ins.event_kept hnew ho, hrest⟩
  case first_le =>
    have hfirst := h.first_le
    have htop : ∀ key f e, ins.flagTable.lookup key = some f →
        ins.writtenStore.event (.hash key) = some e → f ≤ max top ins.frame := by
      intro key f _ hlookup _
      obtain ⟨e, he, rfl⟩ := h.table_insert ins hnew hlookup
      exact hframe key e he
    obtain ⟨count, hframes, hcount⟩ :=
      framesToFinalise_le ins.frames_eq h.peers_ne htop
    rw [ins.firstNotFinalisedFrame_eq hframes]
    omega

end Invariant

section Runs

variable [LinearOrder P] [LinearOrder H] [Inhabited H]
  {env : Env P D T H PK SK Sig} {conf : DAGconfig P PK SK}
  {core : DAGcore P D T H PK SK Sig} {inserted : List (HashEvent P D T H)}

/-- The leaf event of a configured peer. -/
def DAGconfig.Leaf (conf : DAGconfig P PK SK) (v : HashEvent P D T H) : Prop :=
  ∃ peer ∈ conf.peers.peers, v = leafHashEvent peer

/-- The leaf events alone stand in frame 0, once there is one. -/
structure LeafFrames (conf : DAGconfig P PK SK) (done : List (DAGPeer P PK))
    (store : SledStore P D T H Sig) : Prop where
  filled : ∀ f, (store.getFrame f).events ≠ [] ↔ f = 0 ∧ done ≠ []
  leaf : ∀ k e, store.event (.hash k) = some e →
    e.frameNumber = 0 ∧ conf.Leaf e.toHashEvent
  table : ∀ k ft key f, store.flagTable k = some ft → ft.lookup key = some f →
    f = 0 ∧ ∃ e, store.event (.hash key) = some e

omit [LinearOrder P] in
theorem LeafFrames.empty :
    LeafFrames conf [] (SledStore.empty : SledStore P D T H Sig) where
  filled f := by simp [SledStore.empty, SledStore.getFrame, default]
  leaf _ _ h := by cases h
  table _ _ _ _ h := by cases h

theorem LeafFrames.insertLeaf {done : List (DAGPeer P PK)} {peer : DAGPeer P PK}
    {store store' : SledStore P D T H Sig} (h : LeafFrames conf done store)
    (hpeer : peer ∈ conf.peers.peers)
    (hleaf : DAGcore.insertLeaf env store peer = .ok store') :
    LeafFrames conf (done ++ [peer]) store' := by
  obtain ⟨k, -, rfl⟩ := DAGcore.insertLeaf_eq_ok hleaf
  constructor
  case filled =>
    intro f
    rw [SledStore.setEvent_getFrame, SledStore.setFlagTable_getFrame]
    split
    · rename_i hf
      exact iff_of_true (by simp) ⟨hf, by simp⟩
    · rename_i hf
      have hf : f ≠ 0 := hf
      rw [h.filled]
      exact iff_of_false (fun hand => hf hand.1) fun hand => hf hand.1
  case leaf =>
    intro k' e he
    rw [SledStore.setEvent_event_hash] at he
    split at he
    · cases he
      exact ⟨rfl, peer, hpeer, rfl⟩
    · exact h.leaf k' e he
  case table =>
    intro k' ft key f hft hlookup
    rw [SledStore.setEvent_flagTable, SledStore.setFlagTable_flagTable] at hft
    split at hft
    · cases hft
      obtain ⟨rfl, rfl⟩ := lookup_insert_empty hlookup
      exact ⟨rfl, _, by rw [SledStore.setEvent_event_hash]; exact if_pos rfl⟩
    · obtain ⟨hzero, hstored⟩ := h.table k' ft key f hft hlookup
      exact ⟨hzero, SledStore.setEvent_event_grows _ _ hstored⟩

theorem LeafFrames.new (h : DAGcore.new env conf SledStore.empty = .ok core) :
    LeafFrames conf (conf.peers.setCreator conf.creator).peers core.store := by
  refine DAGcore.new_induct (I := LeafFrames conf) h .empty ?_
  intro done peer s s' hmem _ hdone hbody
  exact hdone.insertLeaf
    (hmem peer (List.mem_append_right _ List.mem_cons_self)) hbody

/-- A new node with peers has frame 0. -/
theorem FramesUpTo.new (hne : conf.peers.peers ≠ [])
    (h : DAGcore.new env conf SledStore.empty = .ok core) :
    FramesUpTo conf.Leaf core 0 := by
  have hleaves := LeafFrames.new h
  obtain ⟨store, -, rfl⟩ := DAGcore.new_eq_ok h
  have hpeers : (conf.peers.setCreator conf.creator).peers ≠ [] := by
    rw [← List.length_pos_iff, (conf.peers.setCreator_peers_perm _).length_eq]
    exact List.length_pos_iff.mpr hne
  refine ⟨hpeers, fun f => ?_, fun k e he => ?_, fun k ft key f hft hlookup => ?_,
    fun k e he hleaf => absurd (hleaves.leaf k e he).2 hleaf, Nat.le_refl _⟩
  · exact (hleaves.filled f).trans ((and_iff_left hpeers).trans Nat.le_zero.symm)
  · exact Nat.le_of_eq (hleaves.leaf k e he).1
  · obtain ⟨rfl, e, he⟩ := hleaves.table k ft key f hft hlookup
    exact ⟨e, he, (hleaves.leaf key e he).1⟩

/-- Wherever events come in under new hashes, the frames stay without gaps. -/
theorem CoreRun.framesUpTo (h : CoreRun env conf (fun _ _ => False) core)
    (hne : conf.peers.peers ≠ []) : ∃ top, FramesUpTo conf.Leaf core top := by
  induction h with
  | start hnew => exact ⟨0, .new hne hnew⟩
  | insert event _ hk hnew hinsert ih =>
      obtain ⟨top, htop⟩ := ih
      obtain ⟨-, ⟨ins⟩⟩ := DAGcore.insertEvent_eq_ok hinsert
      obtain rfl := Except.ok.inj (hk.symm.trans ins.hash_eq)
      exact ⟨_, htop.insert ins hnew⟩
  | redeliver event _ _ _ hredelivered => exact hredelivered.elim

/-- The states of a node with all events inserted so far, the leaf events first.
None of them is inserted again. -/
inductive EventRun (env : Env P D T H PK SK Sig) (conf : DAGconfig P PK SK) :
    List (HashEvent P D T H) → DAGcore P D T H PK SK Sig → Prop
  | start {core : DAGcore P D T H PK SK Sig} :
      DAGcore.new env conf SledStore.empty = .ok core →
      EventRun env conf (conf.peers.peers.map leafHashEvent) core
  | insert {inserted : List (HashEvent P D T H)}
      {core core' : DAGcore P D T H PK SK Sig} (event : Event P D T H Sig) :
      EventRun env conf inserted core → event.toHashEvent ∉ inserted →
      core.insertEvent env event = (.ok true, core') →
      EventRun env conf (event.toHashEvent :: inserted) core'

/-- Without collisions the hash of an event is new when it is inserted. -/
theorem EventRun.coreRun (h : EventRun env conf inserted core)
    (hfree : HashInjective env (· ∈ inserted)) :
    CoreRun env conf (fun _ _ => False) core ∧
      ∀ k e, core.store.event (.hash k) = some e → e.toHashEvent ∈ inserted := by
  induction h with
  | start hnew =>
      refine ⟨.start hnew, fun k e he => ?_⟩
      obtain ⟨peer, hpeer, hleaf⟩ := ((LeafFrames.new hnew).leaf k e he).2
      exact List.mem_map.mpr ⟨peer, hpeer, hleaf.symm⟩
  | @insert inserted core core' event _ hfresh hinsert ih =>
      have hsub : HashInjective env (· ∈ inserted) := fun v v' k hv hv' =>
        hfree v v' k (List.mem_cons_of_mem _ hv) (List.mem_cons_of_mem _ hv')
      obtain ⟨hcore, hstored⟩ := ih hsub
      obtain ⟨-, ⟨ins⟩⟩ := DAGcore.insertEvent_eq_ok hinsert
      have hnew : core.store.event (.hash ins.eventHash) = none := by
        cases he : core.store.event (.hash ins.eventHash) with
        | none => rfl
        | some e =>
            have hmem := hstored _ e he
            have hsame := hfree e.toHashEvent event.toHashEvent ins.eventHash
              (List.mem_cons_of_mem _ hmem) List.mem_cons_self
              (hcore.coreInv.keys.hashed _ e he) ins.hash_eq
            exact absurd (hsame ▸ hmem) hfresh
      refine ⟨.insert event hcore ins.hash_eq hnew hinsert, fun k e he => ?_⟩
      rw [ins.event_hash] at he
      split at he
      · cases he
        exact List.mem_cons_self
      · exact List.mem_cons_of_mem _ (hstored k e he)

/-- Whoever makes the events: a frame number is at least those of both parents and
at most one more; the frames with records are those up to some last one, and the
last finalised frame comes before it. -/
theorem frame_numbers_without_gaps (h : EventRun env conf inserted core)
    (hne : conf.peers.peers ≠ []) (hfree : HashInjective env (· ∈ inserted)) :
    (∀ k e, core.store.event (.hash k) = some e → ¬ conf.Leaf e.toHashEvent →
      ∃ s o, core.store.event (.hash e.selfParent) = some s ∧
        core.store.event (.hash e.otherParent) = some o ∧
        s.frameNumber ≤ e.frameNumber ∧ o.frameNumber ≤ e.frameNumber ∧
        e.frameNumber ≤ max s.frameNumber o.frameNumber + 1) ∧
    ∃ last, (∀ f, (core.store.getFrame f).events ≠ [] ↔ f ≤ last) ∧
      ∀ x, core.lastFinalisedFrame = some x →
        x < last ∧ ∀ f ≤ x, (core.store.getFrame f).events ≠ [] := by
  obtain ⟨last, hlast⟩ := (h.coreRun hfree).1.framesUpTo hne
  refine ⟨hlast.parents, last, hlast.filled, fun x hx => ?_⟩
  have hlt : x < last := by
    have hfirst := hlast.first_le
    unfold DAGcore.firstNotFinalisedFrame at hfirst
    rw [hx] at hfirst
    exact hfirst
  exact ⟨hlt, fun f hf => (hlast.filled f).mpr (hf.trans hlt.le)⟩

end Runs

namespace TwoPeers

def insertedTwo : List (HashEvent Nat Nat Unit Nat) :=
  a₁.toHashEvent :: b₁.toHashEvent :: (conf 0).peers.peers.map leafHashEvent

theorem eventRun_two :
    EventRun env (conf 0) insertedTwo (after (start 0) [b₁, a₁]) := by
  have hstart : EventRun env (conf 0) _ (start 0) := .start rfl
  have hfirst := hstart.insert b₁ (by decide) (insertEvent_after (by decide +kernel))
  exact hfirst.insert a₁ (by decide) (insertEvent_after (by decide +kernel))

/-- Frame 0 is final once each peer has a root in frame 1. -/
theorem frames_of_two : ∃ last,
    (∀ f, ((after (start 0) [b₁, a₁]).store.getFrame f).events ≠ [] ↔ f ≤ last) ∧
      0 < last := by
  have hsub : ∀ v ∈ insertedTwo, v ∈ dagVertices := by decide
  have hfree : HashInjective env (· ∈ insertedTwo) := fun v v' k hv hv' =>
    dag.collision_free v v' k (inGraph_of_mem (hsub v hv))
      (inGraph_of_mem (hsub v' hv'))
  obtain ⟨-, last, hfilled, hlast⟩ :=
    frame_numbers_without_gaps eventRun_two (by decide) hfree
  exact ⟨last, hfilled, (hlast 0 (by decide +kernel)).1⟩

end TwoPeers

end ConsensusDag
