/-
Agreement over a whole network.  While threads, messages and consumers interleave
in any order, each node inserts part of one graph, the graph of all events made.
-/
import ConsensusDag.FinalLog
import ConsensusDag.NetworkDag
import ConsensusDag.Schedule

namespace ConsensusDag

open DAGcore Emissions Relation

variable {P D T H PK SK Sig : Type}

section SetPeers

variable [LinearOrder P] [LinearOrder H] {env : Env P D T H PK SK Sig}
  {core core' : DAGcore P D T H PK SK Sig} {peers : DAGPeerList P PK}

omit [LinearOrder P] in
theorem finaliseFrames_setPeers (core : DAGcore P D T H PK SK Sig)
    (peers : DAGPeerList P PK) (frames : List Nat) :
    (core.setPeers peers).finaliseFrames frames =
      (core.finaliseFrames frames).setPeers peers := by
  induction frames generalizing core with
  | nil => rfl
  | cons f rest ih => exact ih (core.finaliseFrame f)

/-- An insertion reads of the peer list how long it is and who the node is. -/
theorem insertEvent_setPeers {event : Event P D T H Sig} {rc : Bool}
    (hlen : peers.peers.length = core.conf.peers.peers.length)
    (hid : peers.getCreatorId = core.conf.peers.getCreatorId)
    (h : core.insertEvent env event = (.ok rc, core')) :
    (core.setPeers peers).insertEvent env event = (.ok rc, core'.setPeers peers) := by
  obtain ⟨k, prepared, signed, ft, frames, hprepare, hsign, hframes, rfl, rfl⟩ :=
    insertEvent_parts h
  have hroot : (core.setPeers peers).rootAndFrame env = core.rootAndFrame env := by
    funext s o sft oft
    unfold rootAndFrame DAGPeerList.rootMajority setPeers
    simp only [hlen]
  have hprepare' : (core.setPeers peers).prepareEvent env event =
      .ok (k, prepared, ft) := by
    rw [← hprepare, prepareEvent, prepareEvent, hroot]
    rfl
  have hsign' : signEvent env (core.setPeers peers).conf k prepared = .ok signed := by
    rw [← hsign, signEvent, signEvent]
    simp only [setPeers, hid]
  have hframes' : ((core.setPeers peers).written k ft signed).framesToFinalise env ft
      (core.setPeers peers).firstNotFinalisedFrame = .ok frames := by
    rw [← hframes, framesToFinalise, framesToFinalise]
    simp only [DAGPeerList.len, setPeers, written, hlen]
    rfl
  rw [insertEvent_of_parts hprepare' hsign' hframes']
  exact congrArg _ (finaliseFrames_setPeers (core.written k ft signed) peers frames)

omit [LinearOrder P] [LinearOrder H] in
theorem advance_setPeers (core : DAGcore P D T H PK SK Sig)
    (peers : DAGPeerList P PK) (frame event tx nEvents nTx : Nat) :
    (core.setPeers peers).advance frame event tx nEvents nTx =
      (core.advance frame event tx nEvents nTx).setPeers peers := by
  unfold advance
  simp only
  split
  · rfl
  · split <;> rfl

omit [LinearOrder P] [LinearOrder H] in
/-- The stream reads nothing of the peer list. -/
theorem pollTurn_setPeers {waker last : Nat} {items : List (D × P)}
    (h : (core.pollTurn waker last).result = some (items, core')) :
    ((core.setPeers peers).pollTurn waker last).result =
      some (items, core'.setPeers peers) := by
  obtain ⟨frame, event, hreading, hread⟩ := pollTurn_result h
  obtain ⟨record, e, hrecord, he, hitems, hrange, rfl⟩ := readEvent_result hread
  have hreading' : reading last (core.setPeers peers).cursor = some (frame, event) :=
    hreading
  have hrecord' : ((core.setPeers peers).store.getFrame frame).events[event]? =
      some record := hrecord
  have hstored : ((core.setPeers peers).store.event (.hash record.hash)).map
      Event.items = some e.items := congrArg (Option.map Event.items) he
  have hlength : e.items.length = e.transactions.length := List.length_map _
  rcases hrange with hnil | hlt
  · have hnone : e.items = [] := by rw [Event.items, hnil, List.map_nil]
    rw [hnone] at hstored hitems
    rw [pollTurn_eq_again hreading' hrecord' hstored, hitems, hnil]
    exact congrArg (fun c => some ([], c)) (advance_setPeers core peers _ _ _ _ _)
  · rw [← hlength] at hlt ⊢
    have hitem := List.getElem?_eq_getElem hlt
    rw [pollTurn_eq_data hreading' hrecord' hstored hitem, hitems, hitem]
    exact congrArg (fun c => some ([_], c)) (advance_setPeers core peers _ _ _ _ _)

omit [LinearOrder P] [LinearOrder H] in
/-- A turn that goes by an older finalisation point does what one that goes by the
current one does, unless it ends in `Pending`. -/
theorem pollTurn_result_of_le {waker last last' : Nat} {items : List (D × P)}
    (hle : last ≤ last')
    (h : (core.pollTurn waker last).result = some (items, core')) :
    (core.pollTurn waker last').result = some (items, core') := by
  obtain ⟨frame, event, hreading, hread⟩ := pollTurn_result h
  have hreading' : reading last' core.cursor = some (frame, event) := by
    unfold reading at hreading ⊢
    simp only at hreading ⊢
    split at hreading
    · simp only [Option.ite_none_left_eq_some] at hreading ⊢
      exact ⟨fun hend => hreading.1 (hle.trans hend), hreading.2⟩
    · exact hreading
  rw [pollTurn_eq, hreading']
  exact hread

end SetPeers

section Runs

variable [LinearOrder P] [LinearOrder H] [Inhabited H] {net : Network P PK SK}
  {env : Env P D T H PK SK Sig}

namespace Network

/-- The peer list that a node starts with. -/
def startPeers (net : Network P PK SK) (i : P) : DAGPeerList P PK :=
  (net.conf i).peers.setCreator (net.conf i).creator

variable {w : World P D T H PK SK Sig} {dag : EventDag env net.peers} {i : P}

/-- The graph has all events made so far that can be hashed. -/
def Covers (dag : EventDag env net.peers) (w : World P D T H PK SK Sig) : Prop :=
  ∀ v ∈ w.created, ∀ k, env.eventHash v = .ok k → v ∈ dag.events

omit [LinearOrder P] [LinearOrder H] in
theorem Covers.of_subset {w' : World P D T H PK SK Sig}
    (h : Covers dag w') (hsub : w.created ⊆ w'.created) :
    Covers dag w :=
  fun v hv => h v (hsub hv)

omit [LinearOrder P] [LinearOrder H] in
theorem CollisionFree.of_subset {w' : World P D T H PK SK Sig}
    (h : net.CollisionFree env w') (hsub : w.created ⊆ w'.created) :
    net.CollisionFree env w := by
  have hmade : ∀ {v}, net.Made w v → net.Made w' v := fun hv =>
    hv.imp id fun hmem => hsub hmem
  exact fun v v' k hv hv' => h v v' k (hmade hv) (hmade hv')

/-- What a node has inserted, it holds. -/
theorem mem_held_of_inserted {inserted : List (HashEvent P D T H)}
    {core : DAGcore P D T H PK SK Sig} (h : DagInv dag inserted core)
    {v : HashEvent P D T H} (hv : v ∈ inserted) (hmem : v ∈ dag.events) :
    v ∈ heldIn core.store.event := by
  obtain ⟨e, he, hsame, -⟩ := h.store.lookup_vertex
    (v := (⟨v, Or.inr hmem⟩ : dag.Vertex)) (Or.inr hv)
  exact ⟨_, e, he, hsame⟩

end Network

namespace Service

variable {s s' : Service P D T H PK SK Sig} {dag : EventDag env net.peers} {i : P}

/-- A node that has started with `peers` has inserted part of the graph, and its
stream has walked over the frames that it has finalised so far. -/
structure Follows (dag : EventDag env net.peers) (peers : DAGPeerList P PK)
    (out : List (D × P)) (str : Streaming P D T H PK SK Sig) : Prop where
  node : ∃ inserted, NodeInv dag (out ++ str.consumer.items) inserted
    (str.core.setPeers peers)
  last : ∀ waker last log, str.consumer = .looping waker last log →
    ∃ current, str.core.lastFinalisedFrame = some current ∧ last ≤ current

omit [LinearOrder P] [LinearOrder H] [Inhabited H] in
theorem items_of_resting {consumer : Consumer P D} (h : consumer.resting) :
    consumer.items = [] := by
  cases consumer with
  | idle | waiting => rfl
  | entered | looping | delivering => cases h

variable {peers : DAGPeerList P PK} {out items : List (D × P)}
  {str str' : Streaming P D T H PK SK Sig} {core' : DAGcore P D T H PK SK Sig}

/-- Nothing is inserted and nothing is read. -/
theorem Follows.keep (h : Follows dag peers out str)
    (hstore : core'.store = str.core.store)
    (hlast : core'.lastFinalisedFrame = str.core.lastFinalisedFrame)
    (hlog : core'.finalisedLog = str.core.finalisedLog)
    (hcursor : core'.cursor = str.core.cursor) :
    Follows dag peers out ⟨core', str.consumer⟩ where
  node := by
    obtain ⟨inserted, hnode⟩ := h.node
    have hsame : SameNode (str.core.setPeers peers) (core'.setPeers peers) :=
      ⟨hstore, rfl, hlast, hlog⟩
    exact ⟨inserted, hnode.of_sameNode hsame hcursor⟩
  last waker last log hlooping := by
    rw [hlast]
    exact h.last waker last log hlooping

theorem Follows.insert (h : Follows dag peers out str) {event : Event P D T H Sig}
    (hlen : peers.peers.length = str.core.conf.peers.peers.length)
    (hid : peers.getCreatorId = str.core.conf.peers.getCreatorId)
    (hmem : event.toHashEvent ∈ dag.events) (hunheld : Unheld str.core event)
    (hinsert : str.core.insertEvent env event = (.ok true, core')) :
    Follows dag peers out ⟨core', str.consumer⟩ := by
  obtain ⟨inserted, hnode⟩ := h.node
  have hnew : event.toHashEvent ∉ inserted := fun hin =>
    hunheld (Network.mem_held_of_inserted hnode.dagInv hin hmem)
  have hinsert' := insertEvent_setPeers hlen hid hinsert
  refine ⟨⟨_, hnode.insert hmem hnew hinsert'⟩, ?_⟩
  intro waker last log hlooping
  obtain ⟨current, hcurrent, hle⟩ := h.last waker last log hlooping
  obtain ⟨-, ⟨ins⟩⟩ := insertEvent_eq_ok hinsert
  obtain ⟨count, hframes⟩ := framesToFinalise_eq_ok ins.frames_eq
  have hfirst := ins.firstNotFinalisedFrame_eq hframes
  rw [firstNotFinalisedFrame_of_last hcurrent] at hfirst
  cases hlast : core'.lastFinalisedFrame with
  | none =>
      simp only [firstNotFinalisedFrame, hlast] at hfirst
      omega
  | some later =>
      rw [firstNotFinalisedFrame_of_last hlast] at hfirst
      exact ⟨later, rfl, by omega⟩

/-- A section of a call takes the walk on. -/
theorem Follows.poll (h : Follows dag peers out str)
    (hsection : PollSection str items str') : Follows dag peers (out ++ items) str' := by
  obtain ⟨inserted, hnode⟩ := h.node
  -- the loop goes by the finalisation point that it has read
  have hturn : ∀ {waker last log handed core'}, str.consumer = .looping waker last log →
      (str.core.pollTurn waker last).result = some (handed, core') →
      NodeInv dag (out ++ handed) inserted (core'.setPeers peers) := by
    intro waker last log handed core' hlooping hresult
    obtain ⟨current, hcurrent, hle⟩ := h.last waker last log hlooping
    rw [hlooping] at hnode
    have hcurrent' : (str.core.setPeers peers).lastFinalisedFrame = some current :=
      hcurrent
    have hnext := hnode.turn hcurrent'
      (pollTurn_setPeers (pollTurn_result_of_le hle hresult))
    rwa [show out ++ (Consumer.looping waker last log).items = out from
      List.append_nil out] at hnext
  cases hsection with
  | quit hresting _ | enter waker hresting _ =>
      rw [items_of_resting hresting] at hnode
      exact ⟨⟨inserted, by rwa [List.append_nil]⟩, nofun⟩
  | readNone hentered _ =>
      rw [hentered] at hnode
      refine ⟨⟨inserted, ?_⟩, nofun⟩
      rw [List.append_nil]
      exact hnode.of_sameNode ⟨rfl, rfl, rfl, rfl⟩ rfl
  | readSome hentered hlast =>
      rw [hentered] at hnode
      refine ⟨⟨inserted, by rwa [List.append_nil]⟩, ?_⟩
      intro waker last log hlooping
      cases hlooping
      exact ⟨_, hlast, Nat.le_refl _⟩
  | turn hlooping hagain =>
      have hnext := hturn hlooping (congrArg PollTurn.result hagain)
      have hsame := pollTurn_sameNode (congrArg PollTurn.result hagain)
      refine ⟨⟨inserted, ?_⟩, ?_⟩
      · rwa [hlooping, List.append_nil]
      · intro waker last log hlooping'
        obtain ⟨current, hcurrent, hle⟩ := h.last waker last log hlooping'
        exact ⟨current, hsame.last.trans hcurrent, hle⟩
  | pend hlooping hpending =>
      obtain ⟨-, rfl⟩ := pollTurn_pending hpending
      rw [hlooping] at hnode
      refine ⟨⟨inserted, ?_⟩, nofun⟩
      rw [List.append_nil]
      exact hnode.of_sameNode ⟨rfl, rfl, rfl, rfl⟩ rfl
  | emit hlooping hdata =>
      refine ⟨⟨inserted, ?_⟩, nofun⟩
      rw [List.append_nil]
      exact hturn hlooping (congrArg PollTurn.result hdata)
  | deliver hdelivering =>
      rw [hdelivering] at hnode
      refine ⟨⟨inserted, ?_⟩, nofun⟩
      rw [show (Consumer.idle : Consumer P D).items = [] from rfl, List.append_nil]
      exact hnode.of_sameNode ⟨rfl, rfl, rfl, rfl⟩ rfl

theorem Step.created_subset {received : DAGcore P D T H PK SK Sig →
    Event P D T H Sig → Prop} (h : Step net env received s s') :
    s.world.created ⊆ s'.world.created := by
  cases h with
  | node _ _ _ => exact List.subset_append_right _ _
  | poll _ _ => exact List.Subset.refl _

/-- Each node of a network, with its consumer, follows the graph. -/
theorem Reachable.follows (hhonest : net.Honest env)
    (h : Reachable net env Unheld s) (hfree : net.CollisionFree env s.world)
    (hcovers : Network.Covers dag s.world) :
    ∀ i ∈ net.ids, Follows dag (net.startPeers i) (s.delivered i) (s.streaming i) := by
  obtain ⟨s₀, hinit, hrun⟩ := h
  induction hrun with
  | refl =>
      intro i hi
      obtain ⟨core, hnew, hnode⟩ := hinit.world.node i hi
      have hcore : (s₀.streaming i).core = core := congrArg NodeState.core hnode
      have hfresh := new_fresh hnew
      have hset : core.setPeers (net.startPeers i) = core := by
        obtain ⟨store, -, rfl⟩ := DAGcore.new_eq_ok hnew
        rfl
      refine ⟨⟨[], ?_⟩, ?_⟩
      · rw [hcore, hset, hinit.delivered i hi, streaming, hinit.consumers i hi]
        exact NodeRun.nodeInv (.start (net.peers_perm i hi) hnew)
      · intro waker last log hlooping
        rw [streaming, hinit.consumers i hi] at hlooping
        cases hlooping
  | @tail s s' hrun hstep ih =>
      have hsub := hstep.created_subset
      have hfree' := hfree.of_subset hsub
      have hcovers' := hcovers.of_subset hsub
      have hfollows := ih hfree' hcovers'
      have hreach : net.Reachable env s.world.unpolled :=
        Reachable.unpolled ⟨s₀, hinit, hrun⟩
      cases hstep with
      | @node j n out hj hnode hreceived =>
          intro i hi
          by_cases hij : i = j
          · subst hij
            rw [node_streaming_self]
            rcases hnode.core_cases with ⟨hstore, hlast, hlog, hcursor⟩ |
              ⟨event, hinsert, hsource⟩
            · exact (hfollows i hi).keep hstore hlast hlog hcursor
            · obtain ⟨hcreated, hunheld⟩ := hreach.inserted_fresh hhonest hfree' hi
                (n := n.unpolled) (v := event.toHashEvent)
                (hsource.imp (fun htakes => ⟨event, htakes, rfl, hreceived _ htakes⟩)
                  id)
              have hconf := (hreach.signInv hhonest.toKeyed).conf i hi
              obtain ⟨-, ⟨ins⟩⟩ := insertEvent_eq_ok hinsert
              have hstart := net.peers_setCreator_perm hi
              refine (hfollows i hi).insert ?_ ?_
                (hcovers' _ hcreated _ ins.hash_eq) hunheld hinsert
              · have hlength := (hstart.map DAGPeer.id).length_eq.trans
                  hconf.ids.length_eq.symm
                rwa [List.length_map, List.length_map] at hlength
              · have hown : (net.conf i).creator ∈
                    (net.conf i).peers.peers.map DAGPeer.id := by
                  rw [net.creator_eq i hi]
                  exact ((net.peers_perm i hi).map _).mem_iff.mpr hi
                rw [Network.startPeers, DAGPeerList.getCreatorId_setCreator_of_mem hown,
                  net.creator_eq i hi]
                exact hconf.creatorId.symm
          · rw [node_streaming_of_ne _ _ _ hij]
            exact hfollows i hi
      | @poll j items after hj hsection =>
          intro i hi
          by_cases hij : i = j
          · subst hij
            rw [poll_streaming_self, poll_delivered_self]
            exact (hfollows i hi).poll hsection
          · rw [poll_streaming_of_ne _ _ _ hij, poll_delivered_of_ne _ _ _ hij]
            exact hfollows i hi

/-- No node takes back what it has finalised. -/
theorem Step.first_le {received : DAGcore P D T H PK SK Sig →
    Event P D T H Sig → Prop} (h : Step net env received s s') (i : P) :
    (s.streaming i).core.firstNotFinalisedFrame ≤
      (s'.streaming i).core.firstNotFinalisedFrame := by
  cases h with
  | @node j n out _ hnode _ =>
      by_cases hij : i = j
      · subst hij
        rw [node_streaming_self]
        rcases hnode.core_cases with ⟨-, hlast, -⟩ | ⟨event, hinsert, -⟩
        · simp only [firstNotFinalisedFrame, streaming, hlast, Nat.le_refl]
        · obtain ⟨-, ⟨ins⟩⟩ := insertEvent_eq_ok hinsert
          obtain ⟨count, hframes⟩ := framesToFinalise_eq_ok ins.frames_eq
          have hfirst := ins.firstNotFinalisedFrame_eq hframes
          exact (Nat.le_add_right _ count).trans_eq hfirst.symm
      · rw [node_streaming_of_ne _ _ _ hij]
  | @poll j items after _ hsection =>
      by_cases hij : i = j
      · subst hij
        rw [poll_streaming_self]
        have hlast := congrArg DAGcore.lastFinalisedFrame hsection.unpolled
        simp only [DAGcore.unpolled] at hlast
        simp only [firstNotFinalisedFrame, hlast, Nat.le_refl]
      · rw [poll_streaming_of_ne _ _ _ hij]

theorem first_le_of_run {received : DAGcore P D T H PK SK Sig →
    Event P D T H Sig → Prop} (h : ReflTransGen (Step net env received) s s') (i : P) :
    (s.streaming i).core.firstNotFinalisedFrame ≤
      (s'.streaming i).core.firstNotFinalisedFrame := by
  induction h with
  | refl => exact Nat.le_refl _
  | tail _ hstep ih => exact ih.trans (hstep.first_le i)

theorem created_subset_of_run {received : DAGcore P D T H PK SK Sig →
    Event P D T H Sig → Prop} (h : ReflTransGen (Step net env received) s s') :
    s.world.created ⊆ s'.world.created := by
  induction h with
  | refl => exact List.Subset.refl _
  | tail _ hstep ih => exact List.Subset.trans ih hstep.created_subset

/-- Any two nodes, each at some time of a run, have inserted parts of one graph. -/
theorem Reachable.follow_one_graph (hhonest : net.Honest env)
    (h : Reachable net env Unheld s) (hlater : ReflTransGen (Step net env Unheld) s s')
    (hfree : net.CollisionFree env s'.world) :
    ∃ dag : EventDag env net.peers,
      (∀ v p o, dag.graph.parents v = some (p, o) →
        p.1.lamportTimestamp < v.1.lamportTimestamp ∧
          o.1.lamportTimestamp < v.1.lamportTimestamp) ∧
      (∀ v : dag.Vertex, net.Made s'.world v.1) ∧
      (∀ i ∈ net.ids, Follows dag (net.startPeers i) (s.delivered i) (s.streaming i)) ∧
      ∀ i ∈ net.ids, Follows dag (net.startPeers i) (s'.delivered i)
        (s'.streaming i) := by
  have hsub := created_subset_of_run hlater
  have h' := h.run hlater
  have hreach : net.Reachable env s'.world.unpolled := h'.unpolled
  have hcovers : Network.Covers (hreach.dag hhonest hfree) s'.world :=
    fun v hv k hk => ⟨hv, k, hk⟩
  refine ⟨hreach.dag hhonest hfree, ?_, fun v => v.2.imp id And.left,
    h.follows hhonest (hfree.of_subset hsub) (hcovers.of_subset hsub),
    h'.follows hhonest hfree hcovers⟩
  intro v p o hparents
  obtain ⟨hv, hp, ho⟩ := EventDag.parents_eq_some.mp hparents
  have hlater := hreach.clockInv.created v.1 hv.1
  have hmade : ∀ u : (hreach.dag hhonest hfree).Vertex,
      net.Made s'.world.unpolled u.1 := fun u => u.2.imp id And.left
  exact ⟨hlater.lamport_lt hfree (hmade p) (Or.inl (EventDag.hashOf_eq_iff.mp hp)),
    hlater.lamport_lt hfree (hmade o) (Or.inr (EventDag.hashOf_eq_iff.mp ho))⟩

variable {j : P}

/-- In every run of a network, over all interleavings, the nodes build one log.  What
a node has finalised at one time and what another has finalised later agree as far as
both go; a node only appends; no event is listed twice, and both parents of an event
that is not a leaf are listed before it. -/
theorem final_logs_agree (hhonest : net.Honest env) (h : Reachable net env Unheld s)
    (hlater : ReflTransGen (Step net env Unheld) s s')
    (hfree : net.CollisionFree env s'.world) (hi : i ∈ net.ids) (hj : j ∈ net.ids) :
    let core := (s.world.nodes i).core
    let later := (s'.world.nodes j).core
    (core.finalOrder <+: later.finalOrder ∨ later.finalOrder <+: core.finalOrder) ∧
      core.finalOrder <+: (s'.world.nodes i).core.finalOrder ∧
      core.finalOrder.Nodup ∧
      ∀ (place : Nat) k e, core.finalOrder[place]? = some k →
        core.store.event (.hash k) = some e → ¬ net.Leaf e.toHashEvent →
        ∀ parent, parent = e.selfParent ∨ parent = e.otherParent →
          ∃ before : Nat, before < place ∧
            core.finalOrder[before]? = some parent := by
  obtain ⟨dag, hlamport, -, hfollows, hfollows'⟩ :=
    h.follow_one_graph hhonest hlater hfree
  obtain ⟨inserted, hnode⟩ := (hfollows i hi).node
  obtain ⟨inserted₁, hnode₁⟩ := (hfollows' i hi).node
  obtain ⟨inserted₂, hnode₂⟩ := (hfollows' j hj).node
  have hinv := hnode.dagInv
  have happends := hinv.finalOrder_prefix hnode₁.dagInv (first_le_of_run hlater i)
  refine ⟨?_, happends, hinv.nodup_finalOrder, ?_⟩
  · rcases Nat.le_total (s.streaming i).core.firstNotFinalisedFrame
      (s'.streaming j).core.firstNotFinalisedFrame with hle | hle
    · have hpre := hinv.finalOrder_prefix hnode₂.dagInv hle
      exact Or.inl hpre
    · have hpre := hnode₂.dagInv.finalOrder_prefix hinv hle
      exact Or.inr hpre
  · intro place k e hplace he hleaf parent hparent
    obtain ⟨v, hv, hframe⟩ := hinv.vertex_of_mem_finalOrder
      (List.mem_of_getElem? hplace)
    obtain ⟨v', -, hv', hevent, -⟩ := hinv.vertex_of_stored he
    obtain rfl : v = v' := EventDag.hashOf_injective (hv.trans hv'.symm)
    rw [hevent] at hleaf
    cases hparents : dag.graph.parents v with
    | none => exact absurd (EventDag.exists_peer_of_leaf hparents) hleaf
    | some pair =>
        obtain ⟨p, o⟩ := pair
        obtain ⟨-, hp, ho⟩ := EventDag.parents_eq_some.mp hparents
        rw [← hv] at hplace
        have hbefore : ∀ u, dag.graph.IsParent u v → ∃ before < place,
            (s.streaming i).core.finalOrder[before]? = some (dag.hashOf u) :=
          fun u hu => hinv.ancestor_before hlamport (.single hu) hplace
        rcases hparent with rfl | rfl
        · obtain ⟨before, hlt, hat⟩ := hbefore p ⟨p, o, hparents, Or.inl rfl⟩
          rw [hp, ← hevent] at hat
          exact ⟨before, hlt, hat⟩
        · obtain ⟨before, hlt, hat⟩ := hbefore o ⟨p, o, hparents, Or.inr rfl⟩
          rw [ho, ← hevent] at hat
          exact ⟨before, hlt, hat⟩

/-- The streams agree too.  However the sections of the calls, the threads and the
messages interleave, of what two streams have delivered up to any two times one is a
prefix of the other. -/
theorem deliveries_agree (hhonest : net.Honest env) (h : Reachable net env Unheld s)
    (hlater : ReflTransGen (Step net env Unheld) s s')
    (hfree : net.CollisionFree env s'.world) (hi : i ∈ net.ids) (hj : j ∈ net.ids) :
    s.delivered i <+: s'.delivered j ∨ s'.delivered j <+: s.delivered i := by
  obtain ⟨dag, -, -, hfollows, hfollows'⟩ := h.follow_one_graph hhonest hlater hfree
  obtain ⟨inserted, hnode⟩ := (hfollows i hi).node
  obtain ⟨inserted', hnode'⟩ := (hfollows' j hj).node
  -- the items in hand come from the same walk as those delivered
  have hpre := List.prefix_append (s.delivered i) (s.consumers i).items
  have hpre' := List.prefix_append (s'.delivered j) (s'.consumers j).items
  rcases Emits.prefix_total walkStep_deterministic hnode.walk hnode'.walk with
    hwalk | hwalk
  · exact List.prefix_or_prefix_of_prefix (hpre.trans hwalk) hpre'
  · exact List.prefix_or_prefix_of_prefix hpre (hpre'.trans hwalk)

end Service

end Runs

namespace TwoPeers

/-- The first peer has three frames in its log when the second one catches up.  The
event of the other peer that its first own event answers stands before that event. -/
theorem polled_agrees :
    let core := (polled.1.world.nodes 0).core
    let later := (caughtUp.1.world.nodes 1).core
    core.finalOrder = [1, 3, 4, 2, 6, 5] ∧ core.finalOrder.Nodup ∧
      (core.finalOrder <+: later.finalOrder ∨ later.finalOrder <+: core.finalOrder) ∧
      ∃ before < 3, core.finalOrder[before]? = some 4 := by
  have hlogs := Service.final_logs_agree honest reachable_polled caughtUp.2
    collisionFree_caughtUp (i := 0) (j := 1) (by decide) (by decide)
  have hstored : ((polled.1.world.nodes 0).core.store.event (.hash 2)).map
      (fun e => (e.otherParent, e.height)) = some (4, 1) := by decide +kernel
  obtain ⟨e, he, hfields⟩ := Option.map_eq_some_iff.mp hstored
  obtain ⟨hother, hheight⟩ := Prod.mk.inj hfields
  have hleaf : ¬ net.Leaf e.toHashEvent := by
    refine Network.not_leaf_of_pos ?_
    change 0 < e.height
    omega
  have hbefore := hlogs.2.2.2 3 2 e (by decide +kernel) he hleaf 4 (Or.inr hother.symm)
  exact ⟨by decide +kernel, hlogs.2.2.1, hlogs.1, hbefore⟩

/-- One item handed out at the first peer, and later two at the second. -/
theorem polled_delivers :
    polled.1.delivered 0 = [(9, 1)] ∧ caughtUp.1.delivered 1 = [(9, 1), (8, 0)] ∧
      (polled.1.delivered 0 <+: caughtUp.1.delivered 1 ∨
        caughtUp.1.delivered 1 <+: polled.1.delivered 0) :=
  ⟨by decide +kernel, by decide +kernel,
    Service.deliveries_agree honest reachable_polled caughtUp.2 collisionFree_caughtUp
      (i := 0) (j := 1) (by decide) (by decide)⟩

end TwoPeers

end ConsensusDag
