/-
The events of a network as one graph.  An event is known to nobody before the node
that makes it has stored it, and what a node inserts is a vertex of the graph.
-/
import ConsensusDag.Cursor
import ConsensusDag.SoloRun
import ConsensusDag.SyncDelivery

namespace ConsensusDag

variable {P D T H PK SK Sig : Type}

/-- The event is stored, or on its way through the listener or `procedure_b`. -/
def NodeState.Knows (n : NodeState P D T H PK SK Sig) (v : HashEvent P D T H) :
    Prop :=
  (∃ key e, n.core.store.event key = some e ∧ e.toHashEvent = v) ∨
    v ∈ n.listener.carried.map NetEvent.toHashEvent ∨
    v ∈ n.procB.carried.map NetEvent.toHashEvent

/-- The event is in a reply. -/
def Replied (replies : List (Answer P D T H Sig)) (v : HashEvent P D T H) : Prop :=
  ∃ answer ∈ replies, v ∈ answer.reply.events.map NetEvent.toHashEvent

/-- The parents of an event that is made were made before it. -/
theorem Later.lamport_lt {env : Env P D T H PK SK Sig}
    {made : HashEvent P D T H → Prop} {v p : HashEvent P D T H}
    (h : Later env made v) (hinjective : HashInjective env made) (hp : made p)
    (hparent : env.eventHash p = .ok v.selfParent ∨
      env.eventHash p = .ok v.otherParent) :
    p.lamportTimestamp < v.lamportTimestamp := by
  obtain ⟨s, o, hs, ho, hself, hother, hslt, holt⟩ := h
  rcases hparent with hparent | hparent
  · rwa [hinjective p s _ hp hs hparent hself]
  · rwa [hinjective p o _ hp ho hparent hother]

section Steps

variable [LinearOrder P] [LinearOrder H] [Inhabited H]
  {env : Env P D T H PK SK Sig} {requests : List (SyncReq P)}
  {replies : List (Answer P D T H Sig)} {n n' : NodeState P D T H PK SK Sig}
  {out : Output P D T H Sig} {v : HashEvent P D T H}

omit [Inhabited H] in
theorem NodeState.Knows.of_insertion (h : n'.Knows v) {event : Event P D T H Sig}
    {core' : DAGcore P D T H PK SK Sig}
    (ins : DAGcore.Insertion env n.core event core') (hcore : n'.core = core')
    (hlistener : ∀ ev ∈ n'.listener.carried, ev ∈ n.listener.carried)
    (hprocB : n'.procB = n.procB) : n.Knows v ∨ event.toHashEvent = v := by
  rcases h with ⟨key, e, he, rfl⟩ | hmem | hmem
  · rw [hcore, ins.event_eq] at he
    rcases SledStore.setEvent_event_cases _ he with rfl | hold
    · exact Or.inr rfl
    · exact Or.inl (Or.inl ⟨key, e, hold, rfl⟩)
  · obtain ⟨ev, hev, rfl⟩ := List.mem_map.mp hmem
    exact Or.inl (Or.inr (Or.inl (List.mem_map_of_mem (hlistener ev hev))))
  · rw [hprocB] at hmem
    exact Or.inl (Or.inr (Or.inr hmem))

/-- A node comes to know what a reply brings and what it has made itself. -/
theorem NodeStep.knows (hstep : NodeStep env requests replies n n' out)
    (h : n'.Knows v) : n.Knows v ∨ Replied replies v ∨
      ∃ event, Makes n n' event ∧ event.toHashEvent = v := by
  cases hstep with
  | choosePeer | sendRequest | nextHeight | otherHeight | readParents
  | addTransaction => exact Or.inl h
  | formEvent _ htime htx hitx _ =>
      obtain ⟨-, rfl⟩ := getNextLamportTime_eq_ok htime
      cases htx
      cases hitx
      exact Or.inl h
  | insertOwn hproc hhash hinsert =>
      obtain ⟨-, ⟨ins⟩⟩ := DAGcore.insertEvent_eq_ok hinsert
      obtain ⟨-, rfl⟩ := Event.eventHash_eq_ok.mp hhash
      rcases h.of_insertion ins rfl (fun _ => id) rfl with hold | hnew
      · exact Or.inl hold
      · exact Or.inr (Or.inr ⟨_, ⟨hproc, rfl⟩, hnew⟩)
  | receiveReply hlistener hmem =>
      rw [updateLamportTime_eq] at h
      rcases h with hstored | hcarried | hcarried
      · exact Or.inl (Or.inl hstored)
      · exact Or.inr (Or.inl ⟨_, hmem, hcarried⟩)
      · exact Or.inl (Or.inr (Or.inr hcarried))
  | checkEvent hlistener hevent _ =>
      refine Or.inl (h.imp_right (Or.imp_left ?_))
      rw [hlistener, ← (toEvent_eq_ok hevent).1]
      exact id
  | skipEvent hlistener _ _ =>
      refine Or.inl (h.imp_right (Or.imp_left fun hcarried => ?_))
      rw [hlistener]
      exact List.mem_cons_of_mem _ hcarried
  | insertEvent hlistener hinsert =>
      obtain ⟨-, ⟨ins⟩⟩ := DAGcore.insertEvent_eq_ok hinsert
      left
      rcases h.of_insertion ins rfl
        (fun _ hev => hlistener ▸ List.mem_cons_of_mem _ hev) rfl with hold | rfl
      · exact hold
      · refine Or.inr (Or.inl ?_)
        rw [hlistener]
        exact List.mem_cons_self
  | updatePeer hlistener _ _ =>
      refine Or.inl (h.imp_right (Or.imp_left ?_))
      rw [hlistener]
      exact id
  | finishReply _ =>
      rcases h with hstored | hcarried | hcarried
      · exact Or.inl (Or.inl hstored)
      · exact (List.not_mem_nil hcarried).elim
      · exact Or.inl (Or.inr (Or.inr hcarried))
  | receiveRequest _ _ =>
      rw [updateLamportTime_eq] at h
      rcases h with hstored | hcarried | hcarried
      · exact Or.inl (Or.inl hstored)
      · exact Or.inl (Or.inr (Or.inl hcarried))
      · exact (List.not_mem_nil hcarried).elim
  | collectEvents _ _ hevents =>
      rcases h with hstored | hcarried | hcarried
      · exact Or.inl (Or.inl hstored)
      · exact Or.inl (Or.inr (Or.inl hcarried))
      · obtain ⟨ev, hev, rfl⟩ := List.mem_map.mp hcarried
        obtain ⟨creator, g, height, e, -, hchain, rfl⟩ :=
          (SledStore.mem_getEventsForGossip hevents).mp hev
        exact Or.inl (Or.inl ⟨_, e, hchain.stored, rfl⟩)
  | listGossip hproc | formReply hproc =>
      refine Or.inl (h.imp_right (Or.imp_right ?_))
      rw [hproc]
      exact id
  | collectFails | sendReply | sendFails =>
      rcases h with hstored | hcarried | hcarried
      · exact Or.inl (Or.inl hstored)
      · exact Or.inl (Or.inr (Or.inl hcarried))
      · exact (List.not_mem_nil hcarried).elim

/-- A node sends only what it knows. -/
theorem NodeStep.sends (hstep : NodeStep env requests replies n n' out)
    (h : Replied out.replies v) : n.Knows v := by
  obtain ⟨answer, hmem, hv⟩ := h
  cases hstep with
  | sendReply hproc _ =>
      rw [List.mem_singleton.mp hmem] at hv
      refine Or.inr (Or.inr ?_)
      rw [hproc]
      exact hv
  | choosePeer | sendRequest | nextHeight | otherHeight | readParents | formEvent
  | insertOwn | receiveReply | checkEvent | skipEvent | insertEvent | updatePeer
  | finishReply | receiveRequest | collectEvents | collectFails | listGossip
  | formReply | sendFails | addTransaction => exact (List.not_mem_nil hmem).elim

/-- An event in preparation was there before the step, or the step makes it. -/
theorem NodeStep.event_cases (hstep : NodeStep env requests replies n n' out)
    (h : n'.procA.event? = some v) :
    n.procA.event? = some v ∨ out.created = [v] := by
  cases hstep with
  | formEvent _ _ _ _ hevent =>
      right
      cases h
      rfl
  | choosePeer | sendRequest | nextHeight | otherHeight | readParents
  | insertOwn => cases h
  | receiveReply | checkEvent | skipEvent | insertEvent | updatePeer
  | finishReply | receiveRequest | collectEvents | collectFails | listGossip
  | formReply | sendReply | sendFails | addTransaction => exact Or.inl h

/-- A step inserts an event that the node has taken or made, or leaves alone what
the node has finalised and where its stream is. -/
theorem NodeStep.core_cases (hstep : NodeStep env requests replies n n' out) :
    (n'.core.store = n.core.store ∧
        n'.core.lastFinalisedFrame = n.core.lastFinalisedFrame ∧
        n'.core.finalisedLog = n.core.finalisedLog ∧ n'.core.cursor = n.core.cursor) ∨
      ∃ event, n.core.insertEvent env event = (.ok true, n'.core) ∧
        (Takes n n' event ∨
          ∃ own, Makes n n' own ∧ own.toHashEvent = event.toHashEvent) := by
  cases hstep with
  | insertOwn hproc hhash hinsert =>
      obtain ⟨rfl, -⟩ := DAGcore.insertEvent_eq_ok hinsert
      obtain ⟨-, rfl⟩ := Event.eventHash_eq_ok.mp hhash
      exact Or.inr ⟨_, hinsert, Or.inr ⟨_, ⟨hproc, rfl⟩, rfl⟩⟩
  | insertEvent hlistener hinsert =>
      obtain ⟨rfl, -⟩ := DAGcore.insertEvent_eq_ok hinsert
      exact Or.inr ⟨_, hinsert, Or.inl ⟨_, _, hlistener, rfl⟩⟩
  | formEvent _ htime htx hitx _ =>
      obtain ⟨-, rfl⟩ := getNextLamportTime_eq_ok htime
      cases htx
      cases hitx
      exact Or.inl ⟨rfl, rfl, rfl, rfl⟩
  | receiveReply | receiveRequest =>
      rw [updateLamportTime_eq]
      exact Or.inl ⟨rfl, rfl, rfl, rfl⟩
  | choosePeer | sendRequest | nextHeight | otherHeight | readParents
  | checkEvent | skipEvent | updatePeer | finishReply | collectEvents
  | collectFails | listGossip | formReply | sendReply | sendFails
  | addTransaction => exact Or.inl ⟨rfl, rfl, rfl, rfl⟩

end Steps

namespace Network

variable [LinearOrder P] [LinearOrder H] [Inhabited H] {net : Network P PK SK}
  {env : Env P D T H PK SK Sig} {w w' : World P D T H PK SK Sig}

omit [LinearOrder P] [LinearOrder H] in
/-- Whatever a node knows has been made. -/
theorem ClockInv.made_of_knows (h : net.ClockInv env w) {i : P} (hi : i ∈ net.ids)
    {v : HashEvent P D T H} (hv : (w.nodes i).Knows v) : net.Made w v := by
  have hnode := h.nodes i hi
  rcases hv with ⟨key, e, he, rfl⟩ | hcarried | hcarried
  · exact (hnode.store.dated key e he).made
  · obtain ⟨ev, hev, rfl⟩ := List.mem_map.mp hcarried
    exact (hnode.listener ev hev).made
  · obtain ⟨ev, hev, rfl⟩ := List.mem_map.mp hcarried
    have hprocB := hnode.procB
    revert hev hprocB
    cases (w.nodes i).procB with
    | idle | updated => exact fun hev _ => (List.not_mem_nil hev).elim
    | collected | listed => exact fun hev hprocB => (hprocB ev hev).made
    | formed req answer => exact fun hev hanswer => (hanswer ev hev).made

/-- An event in preparation is known to no node and in no reply. -/
def Unsent (net : Network P PK SK) (w : World P D T H PK SK Sig) : Prop :=
  ∀ i ∈ net.ids, ∀ v, (w.nodes i).procA.event? = some v →
    (∀ j ∈ net.ids, ¬ (w.nodes j).Knows v) ∧ ¬ Replied w.replies v

theorem Unsent.step (hhonest : net.Honest env) (h : net.Reachable env w)
    (hfree : net.CollisionFree env w) (hunsent : net.Unsent w)
    (hstep : net.Step env w w') : net.Unsent w' := by
  have hsync := h.syncInv hhonest hfree
  have hclock := h.clockInv
  cases hstep with
  | @node j n out hj hnode =>
      have hconf := (h.signInv hhonest.toKeyed).conf j hj
      intro i hi v hv
      -- the node in preparation has its own event in hand
      have howner : ∀ k ∈ net.ids, (w.nodes k).procA.event? = some v →
          v.creator = k := by
        intro k hk hpending
        obtain ⟨top, hown⟩ := (hsync.nodes k hk).own
        have hprepares := hown.prepares
        revert hpending hprepares
        cases (w.nodes k).procA with
        | formed event =>
            intro hpending hprepares
            cases hpending
            exact hprepares.1
        | start | chosen | requested | numbered | paired | parents =>
            exact fun hpending => by cases hpending
      have hunknown : (∀ k ∈ net.ids, ¬ (w.nodes k).Knows v) ∧
          ¬ Replied w.replies v ∧ (∀ event, Makes (w.nodes j) n event →
            event.toHashEvent ≠ v) := by
        by_cases hij : i = j
        · subst hij
          rw [World.step_nodes_self] at hv
          have hmakes : ∀ event, Makes (w.nodes i) n event →
              event.toHashEvent ≠ v := by
            rintro event ⟨-, hstart⟩
            rw [hstart] at hv
            cases hv
          rcases hnode.event_cases hv with hold | hmade
          · obtain ⟨hknows, hreplied⟩ := hunsent i hi v hold
            exact ⟨hknows, hreplied, hmakes⟩
          · rcases (hsync.nodes i hi).created_cases hconf hnode with
              hnil | ⟨v₀, hout, hcreator, habove, -⟩
            · rw [hnil] at hmade
              cases hmade
            · rw [hout] at hmade
              cases hmade
              -- the new event is above all that are made
              have hnew : ¬ net.Made w v := fun hmade =>
                Nat.lt_irrefl _ (habove v hmade hcreator)
              refine ⟨fun k hk hknows => hnew (hclock.made_of_knows hk hknows), ?_,
                hmakes⟩
              rintro ⟨answer, hmem, hv'⟩
              obtain ⟨ev, hev, heq⟩ := List.mem_map.mp hv'
              exact hnew (heq ▸ (hclock.replies answer hmem ev hev).made)
        · rw [World.step_nodes_of_ne w hij] at hv
          obtain ⟨hknows, hreplied⟩ := hunsent i hi v hv
          refine ⟨hknows, hreplied, ?_⟩
          rintro event ⟨hproc, -⟩ rfl
          have hpending : (w.nodes j).procA.event? = some event.toHashEvent := by
            rw [hproc]
            rfl
          exact hij ((howner i hi hv).symm.trans (howner j hj hpending))
      obtain ⟨hknows, hreplied, hmakes⟩ := hunknown
      constructor
      · intro k hk hnew
        by_cases hkj : k = j
        · subst hkj
          rw [World.step_nodes_self] at hnew
          rcases hnode.knows hnew with hold | ⟨answer, hmem, hv'⟩ | ⟨event, hmake, heq⟩
          · exact hknows k hk hold
          · exact hreplied ⟨answer, List.mem_of_mem_filter hmem, hv'⟩
          · exact hmakes event hmake heq
        · rw [World.step_nodes_of_ne w hkj] at hnew
          exact hknows k hk hnew
      · rintro ⟨answer, hmem, hv'⟩
        rcases List.mem_append.mp hmem with hmem | hmem
        · exact hknows j hj (hnode.sends ⟨answer, hmem, hv'⟩)
        · exact hreplied ⟨answer, hmem, hv'⟩

/-- An event in preparation is known to no node and in no reply, in every
reachable state. -/
theorem Reachable.unsent (hhonest : net.Honest env) (h : net.Reachable env w)
    (hfree : net.CollisionFree env w) : net.Unsent w := by
  induction h with
  | initial h =>
      intro i hi v hv
      obtain ⟨core, -, hnode⟩ := h.node i hi
      rw [hnode] at hv
      cases hv
  | step h hstep ih =>
      have hfree := hfree.of_step hstep
      exact (ih hfree).step hhonest h hfree hstep

/-- An event that is made stands above a leaf. -/
theorem Reachable.created_pos (hhonest : net.Honest env) (h : net.Reachable env w)
    (hfree : net.CollisionFree env w) : ∀ v ∈ w.created, 0 < v.height := by
  induction h with
  | initial h =>
      rw [h.created]
      exact fun _ hmem => (List.not_mem_nil hmem).elim
  | @step w _ h hstep ih =>
      have hfree' : net.CollisionFree env w := hfree.of_step hstep
      cases hstep with
      | @node i n out hi hnode =>
          intro v hv
          rcases List.mem_append.mp hv with hnew | hold
          · rcases ((h.syncInv hhonest hfree').nodes i hi).created_cases
              ((h.signInv hhonest.toKeyed).conf i hi) hnode with
              hnil | ⟨v₀, hout, -, -, s, -, -, -, hheight⟩
            · rw [hnil] at hnew
              exact (List.not_mem_nil hnew).elim
            · rw [hout, List.mem_singleton] at hnew
              rw [hnew, ← hheight]
              exact Nat.succ_pos _
          · exact ih hfree' v hold

/-- The leaf events of a node that has been started have hashes. -/
theorem new_leaf_hashed {conf : DAGconfig P PK SK}
    {core : DAGcore P D T H PK SK Sig}
    (hnew : DAGcore.new env conf SledStore.empty = .ok core) :
    ∀ peer ∈ conf.peers.peers, ∃ k, env.eventHash (leafHashEvent peer) = .ok k := by
  have hall := DAGcore.new_induct (I := fun done _ =>
    ∀ peer ∈ done, ∃ k, env.eventHash (leafHashEvent peer) = .ok k) hnew
    (fun _ hmem => (List.not_mem_nil hmem).elim) ?_
  · intro peer hpeer
    exact hall peer ((conf.peers.setCreator_peers_perm conf.creator).mem_iff.mpr hpeer)
  · intro done peer store store' _ _ hdone hleaf p hp
    rcases List.mem_append.mp hp with hp | hp
    · exact hdone p hp
    · obtain ⟨k, hk, -⟩ := DAGcore.insertLeaf_eq_ok hleaf
      rw [List.mem_singleton.mp hp]
      exact ⟨k, hk⟩

theorem Reachable.leaf_hashed (h : net.Reachable env w) :
    ∀ peer ∈ net.peers, ∃ k, env.eventHash (leafHashEvent peer) = .ok k := by
  induction h with
  | initial h =>
      intro peer hpeer
      have hi : peer.id ∈ net.ids := List.mem_map_of_mem hpeer
      obtain ⟨core, hnew, -⟩ := h.node peer.id hi
      exact new_leaf_hashed hnew peer ((net.peers_perm peer.id hi).mem_iff.mpr hpeer)
  | step _ _ ih => exact ih

/-- The graph of the events made so far that can be hashed. -/
def Reachable.dag (hhonest : net.Honest env) (h : net.Reachable env w)
    (hfree : net.CollisionFree env w) : EventDag env net.peers :=
  have hmade : ∀ {v}, InGraph net.peers
      {v | v ∈ w.created ∧ ∃ k, env.eventHash v = .ok k} v → net.Made w v :=
    fun hv => hv.imp id And.left
  have hgraph : ∀ {v k}, net.Made w v → env.eventHash v = .ok k → InGraph net.peers
      {v | v ∈ w.created ∧ ∃ k, env.eventHash v = .ok k} v :=
    fun hv hk => hv.imp id fun hmem => ⟨hmem, _, hk⟩
  have hlineage := (h.syncInv hhonest hfree).lineage
  { events := {v | v ∈ w.created ∧ ∃ k, env.eventHash v = .ok k}
    peers_nodup := hhonest.ids_nodup
    leaf_not_mem := fun peer hpeer hmem =>
      not_leaf_of_pos (h.created_pos hhonest hfree _ hmem.1) ⟨peer, hpeer, rfl⟩
    hashed := by
      rintro v (⟨peer, hpeer, rfl⟩ | hv)
      · exact h.leaf_hashed peer hpeer
      · exact hv.2
    collision_free := fun v w k hv hw => hfree v w k (hmade hv) (hmade hw)
    creator_mem := fun v hv => hlineage.creator_mem v (Or.inr hv.1)
    self_parent := by
      intro v hv
      obtain ⟨s, hs, hself, hat⟩ := hlineage.self_parent v (Or.inr hv.1)
        (not_leaf_of_pos (h.created_pos hhonest hfree v hv.1))
      exact ⟨s, hgraph hs hself, hself, hat⟩
    other_parent := by
      intro v hv
      obtain ⟨_, o, _, ho, _, hother, _⟩ := h.clockInv.created v hv.1
      exact ⟨o, hgraph ho hother, hother⟩
    fork_free := fun v w hv hw => hlineage.fork_free v w (hmade hv) (hmade hw)
    acyclic := by
      refine Subrelation.wf ?_ (measure fun v => v.1.lamportTimestamp).wf
      rintro p v ⟨hv, hparent⟩
      exact (h.clockInv.created v.1 hv.1).lamport_lt hfree (hmade p.2) hparent }

/-- Every node holds the leaf events. -/
theorem Reachable.leaf_held (hhonest : net.Honest env) (h : net.Reachable env w)
    (hfree : net.CollisionFree env w) {i : P} (hi : i ∈ net.ids)
    {v : HashEvent P D T H} (hv : net.Leaf v) : v ∈ held w i := by
  have hsync := h.syncInv hhonest hfree
  have hnode := hsync.nodes i hi
  have hhistory := (h.clockInv.nodes i hi).store.history
  have hmade : net.Made w v := Or.inl hv
  obtain ⟨peer, hpeer, rfl⟩ := hv
  have hzero : (leafHashEvent peer : HashEvent P D T H).height ≤ 0 :=
    Nat.le_of_eq (net.fresh peer hpeer).1
  by_cases hid : peer.id = i
  · obtain ⟨top, hown⟩ := hnode.own
    refine hhistory.mem_of_le hsync.lineage hmade ?_ (hzero.trans (Nat.zero_le top))
    change Reaches _ peer.id top
    rw [hid]
    exact hown.reaches
  · have hmem := ((h.signInv hhonest.toKeyed).conf i hi).ids.mem_iff.mpr
      (List.mem_map_of_mem hpeer)
    obtain ⟨entry, hentry, hsame⟩ := List.mem_map.mp hmem
    have hreach := hnode.heights entry hentry (by rwa [hsame])
    rw [hsame] at hreach
    exact hhistory.mem_of_le hsync.lineage hmade hreach
      (hzero.trans (Nat.zero_le _))

/-- What a node makes or takes has been made by some node, and it is none of those
that the node holds, provided that it takes no event twice. -/
theorem Reachable.inserted_fresh (hhonest : net.Honest env) (h : net.Reachable env w)
    (hfree : net.CollisionFree env w) {i : P} (hi : i ∈ net.ids)
    {n : NodeState P D T H PK SK Sig} {v : HashEvent P D T H}
    (hv : (∃ event, Takes (w.nodes i) n event ∧ event.toHashEvent = v ∧
        v ∉ held w i) ∨
      ∃ event, Makes (w.nodes i) n event ∧ event.toHashEvent = v) :
    v ∈ w.created ∧ v ∉ held w i := by
  have hnode := h.clockInv.nodes i hi
  suffices hmade : net.Made w v ∧ v ∉ held w i from
    ⟨hmade.1.resolve_left fun hleaf =>
      hmade.2 (h.leaf_held hhonest hfree hi hleaf), hmade.2⟩
  rcases hv with ⟨event, ⟨answer, rest, hlistener, -⟩, rfl, hnot⟩ |
    ⟨event, ⟨hproc, -⟩, rfl⟩
  · have hcarried := hnode.listener
    rw [hlistener] at hcarried
    exact ⟨(hcarried _ List.mem_cons_self).made, hnot⟩
  · have hdated := hnode.procA
    rw [hproc] at hdated
    have hunsent := (h.unsent hhonest hfree i hi event.toHashEvent
      (by rw [hproc]; rfl)).1 i hi
    refine ⟨hdated.made, fun hheld => hunsent (Or.inl ?_)⟩
    obtain ⟨k, e, he, hsame⟩ := hheld
    exact ⟨_, e, he, hsame⟩

end Network

end ConsensusDag
