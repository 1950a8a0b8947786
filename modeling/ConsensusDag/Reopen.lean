/-
A node that is started again on the directory it has left behind.  The store is
kept, but heights and clock begin anew, and `new` writes the leaf events without
looking at what is there.
-/
import ConsensusDag.OwnEvents

namespace ConsensusDag

variable {P D T H PK SK Sig : Type}

section Store

/-- Each key of a stored event leads to an event under its other key. -/
structure Filed (store : SledStore P D T H Sig) : Prop where
  of_hash : ∀ k e, store.event (.hash k) = some e →
    ∃ e', store.event (.creator e.creator e.height) = some e'
  of_place : ∀ c height e, store.event (.creator c height) = some e →
    ∃ e', store.event (.hash e.hash) = some e'

/-- Below an event of the creator there are others, down to height 0. -/
def NoGap (store : SledStore P D T H Sig) (c : P) : Prop :=
  ∀ height e, store.event (.creator c (height + 1)) = some e →
    ∃ s, store.event (.creator c height) = some s

variable {store store' : SledStore P D T H Sig} {e : Event P D T H Sig}

theorem NoGap.taken {c : P} (h : NoGap store c) {height top : Nat}
    (htop : ∃ e, store.event (.creator c top) = some e) (hle : height ≤ top) :
    ∃ e, store.event (.creator c height) = some e := by
  induction hle with
  | refl => exact htop
  | step _ ih =>
      obtain ⟨e, he⟩ := htop
      exact ih (h _ e he)

theorem Filed.empty : Filed (SledStore.empty : SledStore P D T H Sig) :=
  ⟨fun _ _ h => (Option.some_ne_none _ h.symm).elim,
    fun _ _ _ h => (Option.some_ne_none _ h.symm).elim⟩

theorem NoGap.empty (c : P) :
    NoGap (SledStore.empty : SledStore P D T H Sig) c :=
  fun _ _ h => (Option.some_ne_none _ h.symm).elim

variable [DecidableEq P] [DecidableEq H]

theorem Filed.write (h : Filed store)
    (hevent : store'.event = (store.setEvent e).event) : Filed store' := by
  constructor
  case of_hash =>
    intro k e' he'
    rw [hevent] at he' ⊢
    rcases SledStore.setEvent_event_cases _ he' with rfl | hold
    · exact ⟨e', by rw [SledStore.setEvent_event_creator, if_pos ⟨rfl, rfl⟩]⟩
    · exact store.setEvent_event_grows e (h.of_hash k e' hold)
  case of_place =>
    intro c height e' he'
    rw [hevent] at he' ⊢
    rcases SledStore.setEvent_event_cases _ he' with rfl | hold
    · exact ⟨e', by rw [SledStore.setEvent_event_hash, if_pos rfl]⟩
    · exact store.setEvent_event_grows e (h.of_place c height e' hold)

/-- An event is written at height 0, or above another one of its creator. -/
theorem NoGap.write {c : P} (h : NoGap store c)
    (hevent : store'.event = (store.setEvent e).event)
    (hbelow : e.creator = c → e.height = 0 ∨
      ∃ s, store.event (.creator c (e.height - 1)) = some s) :
    NoGap store' c := by
  intro height e' he'
  rw [hevent] at he' ⊢
  apply store.setEvent_event_grows e
  rw [SledStore.setEvent_event_creator] at he'
  split at he'
  · rename_i hat
    have hs := (hbelow hat.1.symm).resolve_left (by omega)
    rwa [← hat.2, Nat.add_sub_cancel] at hs
  · exact h height e' he'

end Store

section Start

variable [LinearOrder P] [LinearOrder H] [Inhabited H]
  {env : Env P D T H PK SK Sig} {conf : DAGconfig P PK SK}
  {disk : SledStore P D T H Sig} {core : DAGcore P D T H PK SK Sig}

variable (env conf) in
/-- A node that can be started, has another peer, and can hash and sign. -/
structure Startable : Prop where
  sled : conf.storeType = .sled
  own : conf.creator ∈ conf.peers.peers.map DAGPeer.id
  nodup : (conf.peers.peers.map DAGPeer.id).Nodup
  height_eq : ∀ peer ∈ conf.peers.peers, peer.height = 0
  turning : (conf.peers.setCreator conf.creator).Turning
  hashes : ∀ v, ∃ k, env.eventHash v = .ok k
  signs : ∀ k, ∃ signature,
    env.sign k conf.publicKey conf.secretKey = .ok signature

/-- `new` opens any directory. -/
theorem Startable.opens (h : Startable env conf)
    (disk : SledStore P D T H Sig) : ∃ core, DAGcore.new env conf disk = .ok core := by
  have hleaf : ∀ (store : SledStore P D T H Sig) peer, ∃ store',
      DAGcore.insertLeaf env store peer = .ok store' := by
    intro store peer
    obtain ⟨k, hk⟩ := h.hashes (leafEvent peer : Event P D T H Sig).toHashEvent
    unfold DAGcore.insertLeaf
    simp only [Event.eventHash_eq_ok.mpr ⟨hk, rfl⟩, Result.unwrap]
    exact ⟨_, rfl⟩
  obtain ⟨store, hstore⟩ := Result.foldlM_ends hleaf
    (conf.peers.setCreator conf.creator).peers disk
  unfold DAGcore.new
  rw [h.sled]
  simp only [hstore]
  exact ⟨_, rfl⟩

/-- The leaf events of `done` are written on top of `disk`: an event each, and a
record in frame 0. -/
structure LeavesOn (env : Env P D T H PK SK Sig)
    (disk : SledStore P D T H Sig) (done : List (DAGPeer P PK))
    (store : SledStore P D T H Sig) : Prop where
  leaf : ∀ peer ∈ done, ∃ e, store.event (.creator peer.id 0) = some e
  above : ∀ c height,
    store.event (.creator c (height + 1)) = disk.event (.creator c (height + 1))
  records : (store.getFrame 0).events.length =
    (disk.getFrame 0).events.length + done.length
  filed : Filed disk → Filed store
  keys : KeysStored env disk → KeysStored env store

theorem LeavesOn.insertLeaf {done : List (DAGPeer P PK)} {peer : DAGPeer P PK}
    {store store' : SledStore P D T H Sig} (h : LeavesOn env disk done store)
    (hzero : peer.height = 0)
    (hbody : DAGcore.insertLeaf env store peer = .ok store') :
    LeavesOn env disk (done ++ [peer]) store' := by
  have hkeys (hstore : KeysStored env store) : KeysStored env store' :=
    hstore.insertLeaf hbody
  obtain ⟨k, hk, rfl⟩ := DAGcore.insertLeaf_eq_ok hbody
  let leaf : Event P D T H Sig := { leafEvent peer with hash := k }
  constructor
  case leaf =>
    intro q hq
    rcases List.mem_append.mp hq with hq | hq
    · exact SledStore.setEvent_event_grows _ leaf (h.leaf q hq)
    · rw [List.mem_singleton.mp hq]
      refine ⟨leaf, (SledStore.setEvent_event_creator _ leaf peer.id 0).trans ?_⟩
      exact if_pos ⟨rfl, hzero.symm⟩
  case above =>
    intro c height
    refine (SledStore.setEvent_event_creator _ leaf c (height + 1)).trans ?_
    rw [if_neg]
    · exact h.above c height
    · rintro ⟨-, hheight⟩
      exact absurd (hheight.trans hzero) (Nat.succ_ne_zero height)
  case records =>
    have hframe := SledStore.setEvent_getFrame
      (store.setFlagTable k (AList.insert k 0 ∅)) leaf 0
    have hlength := congrArg (fun frame => frame.events.length)
      (hframe.trans (if_pos rfl))
    change _ = ((store.getFrame 0).events ++ [_]).length at hlength
    rw [List.length_append, h.records, List.length_singleton] at hlength
    rw [List.length_append, List.length_singleton, ← Nat.add_assoc]
    exact hlength
  case filed => exact fun hdisk => (h.filed hdisk).write rfl
  case keys => exact fun hdisk => hkeys (h.keys hdisk)

theorem leavesOn_of_new (hheights : ∀ peer ∈ conf.peers.peers, peer.height = 0)
    (hnew : DAGcore.new env conf disk = .ok core) :
    LeavesOn env disk (conf.peers.setCreator conf.creator).peers core.store := by
  refine DAGcore.new_induct (I := LeavesOn env disk) hnew ?_ ?_
  · exact ⟨fun _ hmem => (List.not_mem_nil hmem).elim, fun _ _ => rfl, rfl,
      id, id⟩
  · intro done peer store store' hmem _ hdone hbody
    have hpeer := hmem peer (List.mem_append_right _ List.mem_cons_self)
    exact hdone.insertLeaf (hheights peer hpeer) hbody

end Start

section Runs

variable [LinearOrder P] [LinearOrder H] [Inhabited H]

/-- An event that comes in under the node's own id is one that it has stored. -/
def KnownOwn (env : Env P D T H PK SK Sig) (core : DAGcore P D T H PK SK Sig)
    (event : Event P D T H Sig) : Prop :=
  event.creator = core.conf.creator →
    ∃ k e, env.eventHash event.toHashEvent = .ok k ∧
      core.store.event (.hash k) = some e ∧ e.toHashEvent = event.toHashEvent

/-- The states of a node that is started on `disk`, where no one else makes
events under its id. -/
inductive DiskRun (env : Env P D T H PK SK Sig) (conf : DAGconfig P PK SK)
    (disk : SledStore P D T H Sig) : NodeState P D T H PK SK Sig → Prop
  | start {core : DAGcore P D T H PK SK Sig} :
      DAGcore.new env conf disk = .ok core →
      DiskRun env conf disk ⟨core, .start, .idle, .idle⟩
  | step {n n' : NodeState P D T H PK SK Sig} {out : Output P D T H Sig}
      (requests : List (SyncReq P)) (replies : List (Answer P D T H Sig)) :
      DiskRun env conf disk n → NodeStep env requests replies n n' out →
      (∀ event, Takes n n' event → KnownOwn env n.core event) →
      DiskRun env conf disk n'

/-- The directories that a node leaves behind, after one run or more. -/
inductive LeftBy (env : Env P D T H PK SK Sig) (conf : DAGconfig P PK SK) :
    SledStore P D T H Sig → Prop
  | first {n : NodeState P D T H PK SK Sig} :
      DiskRun env conf SledStore.empty n → LeftBy env conf n.core.store
  | again {disk : SledStore P D T H Sig} {n : NodeState P D T H PK SK Sig} :
      LeftBy env conf disk → DiskRun env conf disk n →
      LeftBy env conf n.core.store

/-- Two stores have the same events, flag tables and frames. -/
structure SameStore (store store' : SledStore P D T H Sig) : Prop where
  event : store'.event = store.event
  flagTable : store'.flagTable = store.flagTable
  frame : ∀ f, store'.getFrame f = store.getFrame f

/-- `procedure_a` stores no event whose creator and height belong to a different
stored event. -/
def Forkless (env : Env P D T H PK SK Sig) (conf : DAGconfig P PK SK)
    (disk : SledStore P D T H Sig) : Prop :=
  ∀ n n' requests replies out event, DiskRun env conf disk n →
    NodeStep env requests replies n n' out → Makes n n' event →
    ∀ e, n.core.store.event (.creator event.creator event.height) = some e →
      e.toHashEvent = event.toHashEvent

/-- Starting on a directory changes nothing in it, and the run that follows does
not fork the node's chain. -/
structure ReopenSafe (env : Env P D T H PK SK Sig) (conf : DAGconfig P PK SK)
    (disk : SledStore P D T H Sig) : Prop where
  unchanged : ∀ core, DAGcore.new env conf disk = .ok core →
    SameStore disk core.store
  forkless : Forkless env conf disk

variable {env : Env P D T H PK SK Sig} {conf : DAGconfig P PK SK}
  {disk : SledStore P D T H Sig} {core : DAGcore P D T H PK SK Sig}
  {n n' : NodeState P D T H PK SK Sig} {requests : List (SyncReq P)}
  {replies : List (Answer P D T H Sig)} {out : Output P D T H Sig} {own : P}

/-- What `procedure_a` has in hand stands right above an event of the node. -/
def ProcA.Stands (own : P) (store : SledStore P D T H Sig) :
    ProcA P D T H PK Sig → Prop
  | .parents height _ _ => ∃ s, store.event (.creator own (height - 1)) = some s
  | .formed event => event.creator = own ∧
      ∃ s, store.event (.creator own (event.height - 1)) = some s
  | _ => True

/-- The node's own events have no gap, whatever directory it has been started
on. -/
structure OwnPlaces (env : Env P D T H PK SK Sig) (own : P)
    (n : NodeState P D T H PK SK Sig) : Prop where
  creator : n.core.conf.creator = own
  creatorId : n.core.conf.peers.getCreatorId = .ok own
  filed : Filed n.core.store
  keys : KeysStored env n.core.store
  no_gap : NoGap n.core.store own
  stands : n.procA.Stands own n.core.store

omit [LinearOrder P] [LinearOrder H] [Inhabited H] in
theorem ProcA.Stands.mono {store store' : SledStore P D T H Sig}
    {procA : ProcA P D T H PK Sig} (h : procA.Stands own store)
    (hgrows : ∀ key, (∃ e, store.event key = some e) →
      ∃ e, store'.event key = some e) : procA.Stands own store' := by
  cases procA with
  | parents height selfParent otherParent => exact hgrows _ h
  | formed event => exact ⟨h.1, hgrows _ h.2⟩
  | start | chosen | requested | numbered | paired => trivial

/-- A step that leaves the store alone. -/
theorem OwnPlaces.keep (h : OwnPlaces env own n)
    (hstep : NodeStep env requests replies n n' out)
    (hstore : n'.core.store = n.core.store)
    (hstands : n'.procA.Stands own n.core.store) : OwnPlaces env own n' where
  creator := hstep.sameKeys.creator.trans h.creator
  creatorId := hstep.sameKeys.creatorId h.creatorId
  filed := hstore ▸ h.filed
  keys := hstore ▸ h.keys
  no_gap := hstore ▸ h.no_gap
  stands := hstore ▸ hstands

/-- A step that inserts an event of another node, or one that stands above an
event of this one. -/
theorem OwnPlaces.insert (h : OwnPlaces env own n)
    (hstep : NodeStep env requests replies n n' out) (event : Event P D T H Sig)
    (ins : DAGcore.Insertion env n.core event n'.core)
    (hbelow : event.creator = own → event.height = 0 ∨
      ∃ s, n.core.store.event (.creator own (event.height - 1)) = some s)
    (hproc : n'.procA = n.procA ∨ n'.procA = .start) : OwnPlaces env own n' where
  creator := hstep.sameKeys.creator.trans h.creator
  creatorId := hstep.sameKeys.creatorId h.creatorId
  filed := h.filed.write (e := ins.stored) ins.event_eq
  keys := h.keys.insert ins
  no_gap := h.no_gap.write (e := ins.stored) ins.event_eq hbelow
  stands := by
    rcases hproc with hproc | hproc
    · rw [hproc]
      apply h.stands.mono
      intro key hkey
      rw [ins.event_eq]
      exact SledStore.setEvent_event_grows _ ins.stored hkey
    · rw [hproc]
      trivial

theorem OwnPlaces.step (h : OwnPlaces env own n)
    (hstep : NodeStep env requests replies n n' out)
    (hknown : ∀ event, Takes n n' event → KnownOwn env n.core event) :
    OwnPlaces env own n' := by
  have hkeep := h.keep hstep
  have hstands := h.stands
  have hinsert := h.insert hstep
  cases hstep with
  | readParents hproc _ hs =>
      rw [h.creator] at hs
      exact hkeep rfl ⟨_, SledStore.getEventOfCreator_eq_ok.mp hs⟩
  | formEvent hproc htime htx hitx hevent =>
      obtain ⟨-, rfl⟩ := getNextLamportTime_eq_ok htime
      cases htx
      cases hitx
      subst hevent
      rw [hproc] at hstands
      exact hkeep rfl ⟨h.creator, hstands⟩
  | insertOwn hproc hhash hcall =>
      obtain ⟨-, ⟨ins⟩⟩ := DAGcore.insertEvent_eq_ok hcall
      obtain ⟨-, rfl⟩ := Event.eventHash_eq_ok.mp hhash
      rw [hproc] at hstands
      exact hinsert _ ins (fun _ => Or.inr hstands.2) (Or.inr rfl)
  | @insertEvent answer event rest rc core' hlistener hcall =>
      obtain ⟨-, ⟨ins⟩⟩ := DAGcore.insertEvent_eq_ok hcall
      refine hinsert _ ins (fun hown => ?_) (Or.inl rfl)
      obtain ⟨k, e, -, he, hsame⟩ := hknown _ ⟨_, _, hlistener, rfl⟩
        (hown.trans h.creator.symm)
      -- the event is stored, so its place is taken and the one below it too
      obtain ⟨e', he'⟩ := h.filed.of_hash k e he
      have hcreator : e.creator = own :=
        (congrArg HashEvent.creator hsame).trans hown
      have hheight : e.height = event.height := congrArg HashEvent.height hsame
      rw [hcreator, hheight] at he'
      cases hcase : event.height with
      | zero => exact Or.inl rfl
      | succ height =>
          rw [hcase] at he'
          exact Or.inr (h.no_gap height e' he')
  | receiveReply | receiveRequest =>
      exact hkeep (by rw [updateLamportTime_eq]) hstands
  | choosePeer | sendRequest | nextHeight | otherHeight =>
      exact hkeep rfl trivial
  | checkEvent | skipEvent | updatePeer | finishReply | collectEvents
  | collectFails | listGossip | formReply | sendReply | sendFails
  | addTransaction => exact hkeep rfl hstands

/-- A node that has just been started. -/
theorem OwnPlaces.new (hstart : Startable env conf) (hfiled : Filed disk)
    (hkeys : KeysStored env disk) (hgap : NoGap disk conf.creator)
    (hnew : DAGcore.new env conf disk = .ok core) :
    OwnPlaces env conf.creator ⟨core, .start, .idle, .idle⟩ := by
  have hleaves := leavesOn_of_new hstart.height_eq hnew
  obtain ⟨store, -, rfl⟩ := DAGcore.new_eq_ok hnew
  have hperm := conf.peers.setCreator_peers_perm conf.creator
  constructor
  case creator => rfl
  case creatorId => exact DAGPeerList.getCreatorId_setCreator_of_mem hstart.own
  case filed => exact hleaves.filed hfiled
  case keys => exact hleaves.keys hkeys
  case no_gap =>
    intro height e he
    cases height with
    | zero =>
        obtain ⟨peer, hpeer, hid⟩ := List.mem_map.mp hstart.own
        rw [← hid]
        exact hleaves.leaf peer (hperm.mem_iff.mpr hpeer)
    | succ height =>
        rw [hleaves.above] at he
        obtain ⟨s, hs⟩ := hgap _ e he
        exact ⟨s, (hleaves.above _ _).trans hs⟩
  case stands => trivial

theorem DiskRun.ownPlaces (hstart : Startable env conf) (hfiled : Filed disk)
    (hkeys : KeysStored env disk) (hgap : NoGap disk conf.creator)
    (h : DiskRun env conf disk n) : OwnPlaces env conf.creator n := by
  induction h with
  | start hnew => exact .new hstart hfiled hkeys hgap hnew
  | step _ _ _ hstep hknown ih => exact ih.step hstep hknown

/-- What every directory of the node has. -/
theorem LeftBy.placed (hstart : Startable env conf) (h : LeftBy env conf disk) :
    Filed disk ∧ KeysStored env disk ∧ NoGap disk conf.creator := by
  induction h with
  | first hrun =>
      have hplaces := hrun.ownPlaces hstart .empty .empty (.empty _)
      exact ⟨hplaces.filed, hplaces.keys, hplaces.no_gap⟩
  | again _ hrun ih =>
      have hplaces := hrun.ownPlaces hstart ih.1 ih.2.1 ih.2.2
      exact ⟨hplaces.filed, hplaces.keys, hplaces.no_gap⟩

/-- What `procedure_a` has in hand has the height of the node's own entry. -/
def ProcA.Counted (own : P) (height : Nat) : ProcA P D T H PK Sig → Prop
  | .numbered _ height' => height' = height
  | .paired _ height' _ => height' = height
  | .parents height' _ _ => height' = height
  | .formed event => event.creator = own ∧ event.height = height
  | _ => True

/-- No stored event of the node is above its own entry in the peer list, nor at
it while the next event is prepared. -/
structure OwnCount (own : P) (n : NodeState P D T H PK SK Sig) : Prop where
  top : ∀ peer ∈ n.core.conf.peers.peers, peer.id = own → ∀ height e,
    n.core.store.event (.creator own height) = some e →
      height + n.procA.pending ≤ peer.height
  counted : ∀ peer ∈ n.core.conf.peers.peers, peer.id = own →
    n.procA.Counted own peer.height
  inserted : ∀ answer event rest, n.listener = .inserted answer event rest →
    ∃ e, n.core.store.event (.creator event.creator event.height) = some e

omit [LinearOrder P] [LinearOrder H] [Inhabited H] in
/-- A step that leaves the store and the heights alone. -/
theorem OwnCount.keep (h : OwnCount own n)
    (hstore : n'.core.store = n.core.store)
    (hpeers : ∀ peer' ∈ n'.core.conf.peers.peers, peer'.id = own →
      ∃ peer ∈ n.core.conf.peers.peers, peer.id = own ∧
        peer'.height = peer.height)
    (hpending : n'.procA.pending = n.procA.pending)
    (hcounted : ∀ height, n.procA.Counted own height →
      n'.procA.Counted own height)
    (hinserted : ∀ answer event rest, n'.listener = .inserted answer event rest →
      n.listener = .inserted answer event rest) : OwnCount own n' := by
  constructor
  case top =>
    intro peer' hpeer' hid height e he
    obtain ⟨peer, hpeer, hid, hheight⟩ := hpeers peer' hpeer' hid
    rw [hstore] at he
    rw [hpending, hheight]
    exact h.top peer hpeer hid height e he
  case counted =>
    intro peer' hpeer' hid
    obtain ⟨peer, hpeer, hid, hheight⟩ := hpeers peer' hpeer' hid
    rw [hheight]
    exact hcounted _ (h.counted peer hpeer hid)
  case inserted =>
    intro answer event rest hlistener
    rw [hstore]
    exact h.inserted answer event rest (hinserted answer event rest hlistener)

omit [LinearOrder P] [LinearOrder H] [Inhabited H] in
/-- The height of the next event is counted in the node's own entry. -/
theorem OwnCount.nextHeight (h : OwnCount own n)
    (hnodup : (n.core.conf.peers.peers.map DAGPeer.id).Nodup) {i : Nat}
    {peer p : DAGPeer P PK} (hproc : n.procA = .requested peer)
    (hget : n.core.conf.peers.peers[i]? = some p) (hid : p.id = own) :
    OwnCount own
      { n with
        core := n.core.setPeers
          (n.core.conf.peers.writePeer i { p with height := p.height + 1 })
        procA := .numbered peer (p.height + 1) } := by
  constructor
  case top =>
    intro q hq hself height e he
    rcases DAGPeerList.mem_writePeer hnodup hget (by rfl) hq with
      rfl | ⟨-, hne⟩
    · have hle := h.top _ (List.mem_of_getElem? hget) hid height e he
      rw [hproc] at hle
      exact Nat.succ_le_succ hle
    · exact absurd (hself.trans hid.symm) hne
  case counted =>
    intro q hq hself
    rcases DAGPeerList.mem_writePeer hnodup hget (by rfl) hq with
      rfl | ⟨-, hne⟩
    · rfl
    · exact absurd (hself.trans hid.symm) hne
  case inserted => exact h.inserted

omit [Inhabited H] in
/-- The node's own event is stored at the height that was counted for it. -/
theorem OwnCount.insertOwn (h : OwnCount own n) {event : Event P D T H Sig}
    {k : H} {core' : DAGcore P D T H PK SK Sig} (hproc : n.procA = .formed event)
    (ins : DAGcore.Insertion env n.core { event with hash := k } core') :
    OwnCount own { n with core := core', procA := .start } := by
  constructor
  case top =>
    intro peer hpeer hid height e he
    rw [ins.peers_eq] at hpeer
    have hcounted := h.counted peer hpeer hid
    rw [hproc] at hcounted
    have hread := ins.event_creator own height
    rw [he] at hread
    split at hread
    · rename_i hat
      exact Nat.le_of_eq (hat.2.trans hcounted.2)
    · exact Nat.le_of_add_right_le (h.top peer hpeer hid height e hread.symm)
  case counted => exact fun _ _ _ => trivial
  case inserted =>
    intro answer event' rest hlistener
    rw [ins.event_eq]
    exact SledStore.setEvent_event_grows _ ins.stored
      (h.inserted answer event' rest hlistener)

omit [Inhabited H] in
/-- A received event of the node itself is stored where one was before. -/
theorem OwnCount.insertReceived (h : OwnCount own n) (hplaces : OwnPlaces env own n)
    {answer : Answer P D T H Sig} {event : Event P D T H Sig}
    {rest : List (NetEvent P D T H Sig)} {core' : DAGcore P D T H PK SK Sig}
    (ins : DAGcore.Insertion env n.core event core')
    (hknown : KnownOwn env n.core event) :
    OwnCount own
      { n with core := core', listener := .inserted answer event rest } := by
  constructor
  case top =>
    intro peer hpeer hid height e he
    rw [ins.peers_eq] at hpeer
    have hread := ins.event_creator own height
    rw [he] at hread
    split at hread
    · rename_i hat
      obtain ⟨k, e', -, he', hsame'⟩ :=
        hknown (hat.1.symm.trans hplaces.creator.symm)
      obtain ⟨e'', he''⟩ := hplaces.filed.of_hash k e' he'
      have hcreator : e'.creator = own :=
        (congrArg HashEvent.creator hsame').trans hat.1.symm
      have hheight : e'.height = height :=
        (congrArg HashEvent.height hsame').trans hat.2.symm
      rw [hcreator, hheight] at he''
      exact h.top peer hpeer hid height e'' he''
    · exact h.top peer hpeer hid height e hread.symm
  case counted =>
    intro peer hpeer hid
    rw [ins.peers_eq] at hpeer
    exact h.counted peer hpeer hid
  case inserted =>
    intro _ _ _ heq
    cases heq
    exact ⟨ins.stored, (ins.event_creator _ _).trans (if_pos ⟨rfl, rfl⟩)⟩

theorem OwnCount.step (h : OwnCount own n) (hplaces : OwnPlaces env own n)
    (hnodup : (n.core.conf.peers.peers.map DAGPeer.id).Nodup)
    (hstep : NodeStep env requests replies n n' out)
    (hknown : ∀ event, Takes n n' event → KnownOwn env n.core event) :
    OwnCount own n' := by
  have hsame : ∀ peer ∈ n.core.conf.peers.peers, peer.id = own →
      ∃ peer' ∈ n.core.conf.peers.peers, peer'.id = own ∧
        peer.height = peer'.height := fun peer hpeer hid =>
    ⟨peer, hpeer, hid, rfl⟩
  cases hstep with
  | choosePeer hproc hnext =>
      obtain ⟨-, r, rfl⟩ := DAGPeerList.nextPeer_eq_ok hnext
      exact h.keep rfl hsame (by rw [hproc]; rfl) (fun _ _ => trivial)
        fun _ _ _ => id
  | sendRequest hproc =>
      exact h.keep rfl hsame (by rw [hproc]; rfl) (fun _ _ => trivial)
        fun _ _ _ => id
  | nextHeight hproc hfind hget hnext =>
      obtain ⟨rfl, rfl⟩ := DAGPeer.getNextHeight_eq_ok hnext
      have hid := (DAGPeerList.findPeerMut_eq_ok hfind hget).trans hplaces.creator
      exact h.nextHeight hnodup hproc hget hid
  | otherHeight hproc _ =>
      refine h.keep rfl hsame (by rw [hproc]; rfl) (fun height hcounted => ?_)
        fun _ _ _ => id
      rw [hproc] at hcounted
      exact hcounted
  | readParents hproc _ _ =>
      refine h.keep rfl hsame (by rw [hproc]; rfl) (fun height hcounted => ?_)
        fun _ _ _ => id
      rw [hproc] at hcounted
      exact hcounted
  | formEvent hproc htime htx hitx hevent =>
      obtain ⟨-, rfl⟩ := getNextLamportTime_eq_ok htime
      cases htx
      cases hitx
      subst hevent
      refine h.keep rfl hsame (by rw [hproc]; rfl) (fun height hcounted => ?_)
        fun _ _ _ => id
      rw [hproc] at hcounted
      exact ⟨hplaces.creator, hcounted⟩
  | insertOwn hproc hhash hcall =>
      obtain ⟨-, ⟨ins⟩⟩ := DAGcore.insertEvent_eq_ok hcall
      obtain ⟨-, rfl⟩ := Event.eventHash_eq_ok.mp hhash
      exact h.insertOwn hproc ins
  | insertEvent hlistener hcall =>
      obtain ⟨-, ⟨ins⟩⟩ := DAGcore.insertEvent_eq_ok hcall
      exact h.insertReceived hplaces ins (hknown _ ⟨_, _, hlistener, rfl⟩)
  | updatePeer hlistener hfind hget =>
      have hid := DAGPeerList.findPeerMut_eq_ok hfind hget
      obtain ⟨e, he⟩ := h.inserted _ _ _ hlistener
      refine h.keep rfl (fun q hq hself => ?_) rfl (fun _ => id)
        fun _ _ _ => nofun
      rcases DAGPeerList.mem_writePeer hnodup hget (by rfl) hq with rfl | ⟨hmem, -⟩
      · -- the height recorded for the node itself is one of its stored events
        refine ⟨_, List.mem_of_getElem? hget, hself, ?_⟩
        have hle := h.top _ (List.mem_of_getElem? hget) hself _ e
          (by rw [← hself]; exact hid.symm ▸ he)
        rw [DAGPeer.updateLamportTimeAndHeight_height, Nat.max_eq_left (by omega)]
      · exact ⟨q, hmem, hself, rfl⟩
  | sendReply _ hfind =>
      obtain ⟨j, peer, hget, rfl⟩ :=
        DAGPeerList.findPeerWithLamportTimeUpdate_eq_ok hfind
      refine h.keep rfl (fun q hq hself => ?_) rfl (fun _ => id) fun _ _ _ => id
      rcases DAGPeerList.mem_writePeer hnodup hget (by rfl) hq with rfl | ⟨hmem, -⟩
      · exact ⟨peer, List.mem_of_getElem? hget, hself, rfl⟩
      · exact ⟨q, hmem, hself, rfl⟩
  | receiveReply =>
      rw [updateLamportTime_eq]
      exact h.keep rfl hsame rfl (fun _ => id) fun _ _ _ => nofun
  | receiveRequest =>
      rw [updateLamportTime_eq]
      exact h.keep rfl hsame rfl (fun _ => id) fun _ _ _ => id
  | checkEvent | skipEvent | finishReply =>
      exact h.keep rfl hsame rfl (fun _ => id) fun _ _ _ => nofun
  | collectEvents | collectFails | listGossip | formReply | sendFails
  | addTransaction => exact h.keep rfl hsame rfl (fun _ => id) fun _ _ _ => id

theorem DiskRun.sameKeys (h : DiskRun env conf disk n) :
    (startConf conf).SameKeys n.core.conf := by
  induction h with
  | start hnew =>
      obtain ⟨store, -, rfl⟩ := DAGcore.new_eq_ok hnew
      exact .refl _
  | step _ _ _ hstep _ ih => exact ih.trans hstep.sameKeys

theorem DiskRun.nodup (hstart : Startable env conf) (h : DiskRun env conf disk n) :
    (n.core.conf.peers.peers.map DAGPeer.id).Nodup :=
  (ids_perm_of_sameKeys h.sameKeys).nodup_iff.mpr hstart.nodup

/-- On a directory with no event of the node above its leaf event, `procedure_a`
never meets a place that is taken. -/
theorem forkless_of_fresh (hstart : Startable env conf) (hfiled : Filed disk)
    (hkeys : KeysStored env disk)
    (hfresh : ∀ height e, disk.event (.creator conf.creator height) = some e →
      height = 0) : Forkless env conf disk := by
  have hgap : NoGap disk conf.creator := fun height e he =>
    absurd (hfresh _ e he) (Nat.succ_ne_zero height)
  have hcount : ∀ n, DiskRun env conf disk n → OwnCount conf.creator n := by
    intro n hrun
    induction hrun with
    | start hnew =>
        have hleaves := leavesOn_of_new hstart.height_eq hnew
        obtain ⟨store, -, rfl⟩ := DAGcore.new_eq_ok hnew
        refine ⟨?_, fun _ _ _ => trivial, fun _ _ _ => nofun⟩
        intro peer _ _ height e he
        cases height with
        | zero => exact Nat.zero_le _
        | succ height =>
            change store.event _ = some e at he
            rw [hleaves.above] at he
            exact absurd (hfresh _ e he) (Nat.succ_ne_zero height)
    | step _ _ hrun hstep hknown ih =>
        exact ih.step (hrun.ownPlaces hstart hfiled hkeys hgap)
          (hrun.nodup hstart) hstep hknown
  intro n n' requests replies out event hrun _ hmakes e he
  have hids : conf.creator ∈ n.core.conf.peers.peers.map DAGPeer.id :=
    (ids_perm_of_sameKeys hrun.sameKeys).mem_iff.mpr hstart.own
  obtain ⟨peer, hpeer, hid⟩ := List.mem_map.mp hids
  have hcounted := (hcount n hrun).counted peer hpeer hid
  rw [hmakes.1] at hcounted
  obtain ⟨hcreator, hheight⟩ := hcounted
  rw [hcreator] at he
  have hle := (hcount n hrun).top peer hpeer hid _ e he
  rw [hmakes.1, hheight] at hle
  exact absurd hle (Nat.not_succ_le_self _)

end Runs

section Fork

variable [LinearOrder P] [LinearOrder H] [Inhabited H]
  {env : Env P D T H PK SK Sig} {conf : DAGconfig P PK SK}
  {disk : SledStore P D T H Sig} {core : DAGcore P D T H PK SK Sig}
  {n n' : NodeState P D T H PK SK Sig} {requests : List (SyncReq P)}
  {replies : List (Answer P D T H Sig)} {out : Output P D T H Sig}

/-- A step of another thread than the listener's. -/
theorem DiskRun.other (requests : List (SyncReq P))
    (replies : List (Answer P D T H Sig)) (h : DiskRun env conf disk n)
    (hstep : NodeStep env requests replies n n' out)
    (hlistener : n'.listener = n.listener) : DiskRun env conf disk n' := by
  refine h.step requests replies hstep ?_
  rintro event ⟨answer, rest, hchecked, hinserted⟩
  rw [hlistener, hchecked] at hinserted
  cases hinserted

/-- After a start `procedure_a` gets as far as the two leaf events that it
reads. -/
theorem round_to_parents (hstart : Startable env conf)
    (h : DiskRun env conf disk n) (hproc : n.procA = .start)
    (hpeers : n.core.conf.peers = conf.peers.setCreator conf.creator)
    (hleaf : ∀ peer ∈ conf.peers.peers,
      ∃ e, n.core.store.event (.creator peer.id 0) = some e) :
    ∃ n₁ s o, DiskRun env conf disk n₁ ∧ n₁.procA = .parents 1 s.hash o.hash ∧
      n₁.core.store = n.core.store ∧ n₁.core.lamportTime = n.core.lamportTime ∧
      (∃ c height, n.core.store.event (.creator c height) = some s) ∧
      ∃ c height, n.core.store.event (.creator c height) = some o := by
  have hperm := conf.peers.setCreator_peers_perm conf.creator
  have hcreator : n.core.conf.creator = conf.creator := h.sameKeys.creator
  have hturning : n.core.conf.peers.Turning := hpeers ▸ hstart.turning
  have hnodup := h.nodup hstart
  have hown : n.core.conf.peers.getCreatorId = .ok conf.creator :=
    h.sameKeys.creatorId (DAGPeerList.getCreatorId_setCreator_of_mem hstart.own)
  have hzero : ∀ peer ∈ n.core.conf.peers.peers, peer.height = 0 ∧
      ∃ e, n.core.store.event (.creator peer.id 0) = some e := by
    intro peer hpeer
    rw [hpeers] at hpeer
    have hmem := hperm.mem_iff.mp hpeer
    exact ⟨hstart.height_eq peer hmem, hleaf peer hmem⟩
  obtain ⟨peer, list', hnext⟩ := hturning.nextPeer_ok
  obtain ⟨hne, hpeer, -⟩ := hturning.next hnodup hown hnext
  obtain ⟨-, r, rfl⟩ := DAGPeerList.nextPeer_eq_ok hnext
  let list := { n.core.conf.peers with r := r }
  have hchosen := h.other [] [] (.choosePeer hproc hnext) rfl
  have hrequested := hchosen.other [] [] (.sendRequest rfl) rfl
  -- the node's own entry counts the event
  have hmem : n.core.conf.creator ∈ list.peers.map DAGPeer.id := by
    rw [hcreator]
    exact List.mem_of_getElem? (DAGPeerList.getCreatorId_eq_ok.mp hown)
  obtain ⟨i, self, hfind, hget⟩ := DAGPeerList.findPeerMut_of_mem hmem
  have hself : self.height = 0 := (hzero self (List.mem_of_getElem? hget)).1
  have hheight : self.getNextHeight = .ok (1, { self with height := 1 }) := by
    unfold DAGPeer.getNextHeight
    rw [hself]
    rfl
  have hnumbered := hrequested.other [] [] (.nextHeight rfl hfind hget hheight) rfl
  -- the other peer's entry is as it was
  let counted := list.writePeer i { self with height := 1 }
  have hids : peer.id ∈ counted.peers.map DAGPeer.id := by
    rw [DAGPeerList.map_id_writePeer hget (by rfl)]
    exact List.mem_map_of_mem hpeer
  obtain ⟨other, hother⟩ := DAGPeerList.findPeer_of_mem hids
  obtain ⟨hotherMem, hotherId⟩ := DAGPeerList.findPeer_eq_ok hother
  have hselfId := (DAGPeerList.findPeerMut_eq_ok hfind hget).trans hcreator
  have hotherList : other ∈ n.core.conf.peers.peers := by
    rcases DAGPeerList.mem_writePeer hnodup hget (by rfl) hotherMem with
      rfl | ⟨hmem, -⟩
    · exact absurd (hotherId.symm.trans hselfId) hne
    · exact hmem
  obtain ⟨hotherHeight, o, ho⟩ := hzero other hotherList
  have hpaired := hnumbered.other [] [] (.otherHeight rfl hother) rfl
  -- both leaf events are there
  obtain ⟨-, s, hs⟩ := hzero self (List.mem_of_getElem? hget)
  rw [hselfId] at hs
  rw [hotherId] at ho
  have hreadOther : n.core.store.getEventOfCreator peer.id other.height = .ok o := by
    rw [hotherHeight]
    exact SledStore.getEventOfCreator_eq_ok.mpr ho
  have hreadSelf : n.core.store.getEventOfCreator n.core.conf.creator (1 - 1) =
      .ok s := by
    rw [hcreator]
    exact SledStore.getEventOfCreator_eq_ok.mpr hs
  exact ⟨_, s, o, hpaired.other [] [] (.readParents rfl hreadOther hreadSelf) rfl,
    rfl, rfl, rfl, ⟨_, _, hs⟩, _, _, ho⟩

/-- An event on stored parents can be inserted. -/
theorem insert_formed (hstart : Startable env conf)
    (h : DiskRun env conf disk n) (hplaces : OwnPlaces env conf.creator n)
    {event : Event P D T H Sig} (hproc : n.procA = .formed event)
    (hs : ∃ s, n.core.store.event (.hash event.selfParent) = some s)
    (ho : ∃ o, n.core.store.event (.hash event.otherParent) = some o) :
    ∃ n', NodeStep env [] [] n n' {} ∧ Makes n n' event := by
  obtain ⟨s, hs⟩ := hs
  obtain ⟨o, ho⟩ := ho
  obtain ⟨k, hk⟩ := hstart.hashes event.toHashEvent
  obtain ⟨signature, hsign⟩ := hstart.signs k
  have hsame := h.sameKeys
  have hsign' : env.sign k n.core.conf.publicKey n.core.conf.secretKey =
      .ok signature := by
    rw [hsame.publicKey, hsame.secretKey]
    exact hsign
  have hinsert : ∃ core', n.core.insertEvent env { event with hash := k } =
      (.ok true, core') :=
    insertEvent_succeeds hplaces.keys hk hs ho hsign' hplaces.creatorId
  obtain ⟨core', hinsert⟩ := hinsert
  exact ⟨_, .insertOwn hproc (Event.eventHash_eq_ok.mpr ⟨hk, rfl⟩) hinsert,
    hproc, rfl⟩

/-- The first round of `procedure_a` after a start makes an event of height 1. -/
theorem first_round (hstart : Startable env conf) (hfiled : Filed disk)
    (hkeys : KeysStored env disk) (hgap : NoGap disk conf.creator)
    (h : DiskRun env conf disk n) (hproc : n.procA = .start)
    (hpeers : n.core.conf.peers = conf.peers.setCreator conf.creator)
    (hleaf : ∀ peer ∈ conf.peers.peers,
      ∃ e, n.core.store.event (.creator peer.id 0) = some e)
    (htime : n.core.lamportTime + 1 ≤ usizeMax) :
    ∃ n₁ n₂ event, DiskRun env conf disk n₁ ∧
      NodeStep env [] [] n₁ n₂ {} ∧ Makes n₁ n₂ event ∧
      n₁.core.store = n.core.store ∧ event.creator = conf.creator ∧
      event.height = 1 ∧ event.lamportTimestamp = n.core.lamportTime + 1 := by
  obtain ⟨n₁, s, o, hrun, hparents, hstore, htime', ⟨c, height, hs⟩, c', height',
    ho⟩ := round_to_parents hstart h hproc hpeers hleaf
  have htick : n₁.core.getNextLamportTime = .ok (n.core.lamportTime + 1,
      { n₁.core with lamportTime := n.core.lamportTime + 1 }) := by
    unfold DAGcore.getNextLamportTime usizeAdd
    rw [htime', if_pos htime]
    rfl
  have hformed := hrun.other [] [] (.formEvent hparents htick rfl rfl rfl) rfl
  have hplaces := hformed.ownPlaces hstart hfiled hkeys hgap
  have hstored : ∀ c height e, n.core.store.event (.creator c height) = some e →
      ∃ e', n₁.core.store.event (.hash e.hash) = some e' := by
    intro c height e he
    rw [← hstore] at he
    exact hplaces.filed.of_place c height e he
  obtain ⟨n₂, hstep, hmakes⟩ := insert_formed hstart hformed hplaces rfl
    (hstored _ _ s hs) (hstored _ _ o ho)
  exact ⟨_, n₂, _, hformed, hstep, hmakes, hstore, hrun.sameKeys.creator, rfl, rfl⟩

/-- Where the directory has an event of the node above its leaf event, the first
round after a start can put another event in the place of height 1. -/
theorem fork_of_left (hstart : Startable env conf) (hfiled : Filed disk)
    (hkeys : KeysStored env disk) (hgap : NoGap disk conf.creator)
    {old : Event P D T H Sig}
    (hold : disk.event (.creator conf.creator 1) = some old) :
    ¬ Forkless env conf disk := by
  intro hforkless
  obtain ⟨core, hnew⟩ := hstart.opens disk
  have hperm := conf.peers.setCreator_peers_perm conf.creator
  have hleaves := leavesOn_of_new hstart.height_eq hnew
  obtain ⟨store, -, rfl⟩ := DAGcore.new_eq_ok hnew
  have hleaf : ∀ peer ∈ conf.peers.peers,
      ∃ e, store.event (.creator peer.id 0) = some e := fun peer hpeer =>
    hleaves.leaf peer (hperm.mem_iff.mpr hpeer)
  -- a round from `n` makes an event that has the next time of the clock
  have hround : ∀ n time, DiskRun env conf disk n → n.procA = .start →
      n.core.conf.peers = conf.peers.setCreator conf.creator →
      n.core.store = store → n.core.lamportTime = time → time + 1 ≤ usizeMax →
      old.lamportTimestamp = time + 1 := by
    rintro n _ hrun hproc hpeers hstore rfl htime
    obtain ⟨n₁, n₂, event, hrun₁, hstep, hmakes, hstore₁, hcreator, hheight,
      hlamport⟩ := first_round hstart hfiled hkeys hgap hrun hproc hpeers
        (by rwa [hstore]) htime
    have hplace : n₁.core.store.event (.creator event.creator event.height) =
        some old := by
      rw [hstore₁, hstore, hcreator, hheight]
      exact (hleaves.above _ 0).trans hold
    have hsame := hforkless n₁ n₂ [] [] {} event hrun₁ hstep hmakes old hplace
    rw [← hlamport]
    exact congrArg HashEvent.lamportTimestamp hsame
  have hfirst := hround _ 0 (.start hnew) rfl rfl rfl rfl (by decide)
  -- a request that comes in before the round moves the clock
  have hlater := hround _ 1 (.other [⟨conf.creator, conf.creator, ∅, 1⟩] []
    (.start hnew) (.receiveRequest rfl List.mem_cons_self) rfl) rfl rfl rfl rfl
    (by decide)
  exact absurd (hfirst.symm.trans hlater) (by decide)

/-- Every start of a node changes the directory it finds.  The run that follows
does not fork the node's chain just when the earlier runs have left no event of
the node above its leaf event. -/
theorem reopen_never_safe (hstart : Startable env conf)
    (h : LeftBy env conf disk) :
    ¬ ReopenSafe env conf disk ∧ (Forkless env conf disk ↔
      ∀ height e, disk.event (.creator conf.creator height) = some e →
        height = 0) := by
  obtain ⟨hfiled, hkeys, hgap⟩ := h.placed hstart
  refine ⟨fun hsafe => ?_, fun hforkless height e he => ?_,
    forkless_of_fresh hstart hfiled hkeys⟩
  · obtain ⟨core, hnew⟩ := hstart.opens disk
    have hrecords := (leavesOn_of_new hstart.height_eq hnew).records
    rw [(hsafe.unchanged core hnew).frame 0] at hrecords
    have hlength := (conf.peers.setCreator_peers_perm conf.creator).length_eq
    obtain ⟨peer, hpeer, -⟩ := List.mem_map.mp hstart.own
    have hpos := List.length_pos_of_mem hpeer
    omega
  · by_contra hne
    obtain ⟨old, hold⟩ := hgap.taken ⟨e, he⟩ (Nat.pos_of_ne_zero hne)
    exact fork_of_left hstart hfiled hkeys hgap hold hforkless

end Fork

namespace TwoPeers

theorem startable : Startable env (conf 1) where
  sled := rfl
  own := by decide
  nodup := by decide
  height_eq := by decide
  turning := ⟨rfl, Nat.le_refl 1, Nat.le_refl 1⟩
  hashes _ := ⟨_, rfl⟩
  signs _ := ⟨_, rfl⟩

/-- The second peer's first run, in which it stores an event with a
transaction. -/
theorem diskRun_served :
    DiskRun env (conf 1) SledStore.empty ⟨served, .start, .idle, .idle⟩ := by
  have hstart : DiskRun env (conf 1) SledStore.empty (idle 1) := .start rfl
  have hpooled := hstart.other [] [] (.addTransaction 7) rfl
  have hchosen : DiskRun env (conf 1) SledStore.empty
      ⟨pooled, .chosen (peer 0) gossip, .idle, .idle⟩ :=
    hpooled.other [] [] (.choosePeer rfl rfl) rfl
  have hrequested := hchosen.other [] [] (.sendRequest rfl) rfl
  have hnumbered : DiskRun env (conf 1) SledStore.empty
      ⟨numbered, .numbered (peer 0) 1, .idle, .idle⟩ :=
    hrequested.other [] [] (.nextHeight rfl rfl rfl rfl) rfl
  have hpaired := hnumbered.other [] [] (.otherHeight rfl rfl) rfl
  have hparents := hpaired.other [] [] (.readParents rfl rfl rfl) rfl
  have hformed : DiskRun env (conf 1) SledStore.empty
      ⟨formed, .formed b₁, .idle, .idle⟩ :=
    hparents.other [] [] (.formEvent rfl rfl rfl rfl rfl) rfl
  exact hformed.other [] [] (.insertOwn rfl rfl insertEvent_formed) rfl

/-- The second peer, started again on what its first run has left. -/
def reopened : Core :=
  (DAGcore.new env (conf 1) served.store).toOption.get rfl

/-- The event that the first run has stored. -/
def kept : Event Nat Nat Unit Nat Unit :=
  { b₁ with hash := 4, frameNumber := 1, signatures := AList.insert 1 () ∅ }

/-- The event that the second run makes. -/
def fork : Event Nat Nat Unit Nat Unit := Event.new 1 1 3 1 1 [] []

def reopenedFormed : Core :=
  { reopened.setPeers (reopened.conf.peers.writePeer 1 { peer 1 with height := 1 })
    with lamportTime := 1 }

theorem diskRun_fork : DiskRun env (conf 1) served.store
    ⟨reopenedFormed, .formed fork, .idle, .idle⟩ := by
  have hstart : DiskRun env (conf 1) served.store ⟨reopened, .start, .idle, .idle⟩ :=
    .start rfl
  have hchosen : DiskRun env (conf 1) served.store
      ⟨reopened, .chosen (peer 0) gossip, .idle, .idle⟩ :=
    hstart.other [] [] (.choosePeer rfl rfl) rfl
  have hrequested := hchosen.other [] [] (.sendRequest rfl) rfl
  have hnumbered : DiskRun env (conf 1) served.store
      ⟨{ reopenedFormed with lamportTime := 0 }, .numbered (peer 0) 1, .idle,
        .idle⟩ :=
    hrequested.other [] [] (.nextHeight rfl rfl rfl rfl) rfl
  have hpaired := hnumbered.other [] [] (.otherHeight rfl rfl) rfl
  have hparents := hpaired.other [] [] (.readParents rfl rfl rfl) rfl
  exact hparents.other [] [] (.formEvent rfl rfl rfl rfl rfl) rfl

/-- After its restart the second peer has four records in frame 0 instead of
two, and it stores another event of height 1 than before. -/
theorem reopen_forks : LeftBy env (conf 1) served.store ∧
    (served.store.getFrame 0).events.length = 2 ∧
    (reopened.store.getFrame 0).events.length = 4 ∧
    ¬ ReopenSafe env (conf 1) served.store ∧
    ∃ n n' e, DiskRun env (conf 1) served.store n ∧
      NodeStep env [] [] n n' {} ∧ Makes n n' fork ∧
      n.core.store.event (.creator fork.creator fork.height) = some e ∧
      e.toHashEvent ≠ fork.toHashEvent := by
  have hstep : NodeStep env [] [] ⟨reopenedFormed, .formed fork, .idle, .idle⟩
      ⟨after reopenedFormed [{ fork with hash := 4 }], .start, .idle, .idle⟩ {} :=
    .insertOwn rfl rfl (insertEvent_after (by decide +kernel))
  have hstored : reopenedFormed.store.event (.creator 1 1) = some kept := rfl
  have hne : kept.toHashEvent ≠ fork.toHashEvent := by decide
  refine ⟨.first diskRun_served, by decide +kernel, by decide +kernel, ?_,
    _, _, _, diskRun_fork, hstep, ⟨rfl, rfl⟩, hstored, hne⟩
  intro hsafe
  exact hne (hsafe.forkless _ _ _ _ _ fork diskRun_fork hstep ⟨rfl, rfl⟩ _ hstored)

/-- The restarted peer is not safe, and its chain is forked. -/
theorem reopened_not_safe : ¬ ReopenSafe env (conf 1) served.store ∧
    ¬ Forkless env (conf 1) served.store := by
  obtain ⟨hnot, hforkless⟩ :=
    reopen_never_safe startable (.first diskRun_served)
  refine ⟨hnot, fun h => ?_⟩
  exact absurd (hforkless.mp h 1 kept rfl) (by decide)

end TwoPeers

end ConsensusDag
