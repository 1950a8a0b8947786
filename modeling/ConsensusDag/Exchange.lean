/-
One round of `procedure_a` with nothing in its way: node `i` asks the peer whose turn it
is, takes in what the peer answers, and makes an event above the last one of the peer.
-/
import ConsensusDag.Agreement
import ConsensusDag.NoPanic

namespace ConsensusDag

open AssocTables Relation

variable {P D T H PK SK Sig : Type} [LinearOrder P] [LinearOrder H] [Inhabited H]

section Noted

variable {net : Network P PK SK} {env : Env P D T H PK SK Sig}
  {made : HashEvent P D T H → Prop} {held : P → Set (HashEvent P D T H)} {i : P}
  {time : Nat} {n n' : NodeState P D T H PK SK Sig} {requests : List (SyncReq P)}
  {replies : List (Answer P D T H Sig)} {out : Output P D T H Sig}

/-- The listener has inserted the event and not recorded it yet. -/
def Listener.JustInserted (listener : Listener P D T H Sig) (v : HashEvent P D T H) :
    Prop :=
  ∃ answer event rest, listener = .inserted answer event rest ∧ event.toHashEvent = v

/-- The peer list goes as high as what the node holds of each peer, but for an event
that the listener has just inserted. -/
def NodeState.Noted (n : NodeState P D T H PK SK Sig) : Prop :=
  ∀ v ∈ heldIn n.core.store.event, ∀ peer ∈ n.core.conf.peers.peers,
    peer.id = v.creator → v.height ≤ peer.height ∨ n.listener.JustInserted v

omit [LinearOrder P] [LinearOrder H] [Inhabited H] in
/-- Nothing new is held, no height goes down, and the listener records nothing. -/
theorem NodeState.Noted.keep (h : n.Noted)
    (hstore : n'.core.store = n.core.store)
    (hpeers : ∀ peer' ∈ n'.core.conf.peers.peers, ∃ peer ∈ n.core.conf.peers.peers,
      peer.id = peer'.id ∧ peer.height ≤ peer'.height)
    (hlistener : ∀ v, n.listener.JustInserted v → n'.listener.JustInserted v) :
    n'.Noted := by
  intro v hv peer' hpeer' hid
  rw [hstore] at hv
  obtain ⟨peer, hpeer, hsame, hle⟩ := hpeers peer' hpeer'
  exact (h v hv peer hpeer (hsame.trans hid)).imp (fun hnoted => hnoted.trans hle)
    (hlistener v)

omit [LinearOrder P] [LinearOrder H] [Inhabited H] in
theorem NodeState.Noted.writePeer (h : n.Noted)
    (hnodup : (n.core.conf.peers.peers.map DAGPeer.id).Nodup) {k : Nat}
    {peer peer' : DAGPeer P PK} (hget : n.core.conf.peers.peers[k]? = some peer)
    (hpeers : n'.core.conf.peers = n.core.conf.peers.writePeer k peer')
    (hid : peer'.id = peer.id) (hle : peer.height ≤ peer'.height)
    (hstore : n'.core.store = n.core.store)
    (hlistener : n'.listener = n.listener) : n'.Noted := by
  refine h.keep hstore ?_ fun v hv => hlistener ▸ hv
  intro q hq
  rw [hpeers] at hq
  rcases DAGPeerList.mem_writePeer hnodup hget hid hq with rfl | ⟨hmem, -⟩
  · exact ⟨peer, List.mem_of_getElem? hget, hid.symm, hle⟩
  · exact ⟨q, hmem, rfl, Nat.le_refl _⟩

theorem NodeState.Noted.step (hhonest : net.Honest env)
    (hconf : ConfSync net i n.core.conf) (hinjective : HashInjective env made)
    (hclock : NodeClock env net.Leaf made time n)
    (hsync : NodeSync net env made held i n) (h : n.Noted)
    (hstep : NodeStep env requests replies n n' out) : n'.Noted := by
  have hnodup := hconf.ids.nodup_iff.mpr hhonest.ids_nodup
  have hkeep : n'.core.store = n.core.store →
      n'.core.conf.peers.peers = n.core.conf.peers.peers →
      (∀ v, n.listener.JustInserted v → n'.listener.JustInserted v) → n'.Noted := by
    intro hstore hpeers
    exact h.keep hstore fun peer hpeer => ⟨peer, hpeers ▸ hpeer, rfl, Nat.le_refl _⟩
  cases hstep with
  | choosePeer _ hnext =>
      obtain ⟨-, r, rfl⟩ := DAGPeerList.nextPeer_eq_ok hnext
      exact hkeep rfl rfl fun _ => id
  | nextHeight _ _ hget hnext =>
      obtain ⟨rfl, rfl⟩ := DAGPeer.getNextHeight_eq_ok hnext
      exact h.writePeer hnodup hget rfl rfl (Nat.le_succ _) rfl rfl
  | formEvent _ htime htx hitx _ =>
      obtain ⟨-, rfl⟩ := getNextLamportTime_eq_ok htime
      cases htx
      cases hitx
      exact hkeep rfl rfl fun _ => id
  | insertOwn hproc hhash hinsert =>
      obtain ⟨-, ⟨ins⟩⟩ := DAGcore.insertEvent_eq_ok hinsert
      obtain ⟨-, rfl⟩ := Event.eventHash_eq_ok.mp hhash
      obtain ⟨top, hown⟩ := hsync.own
      have hdated := hclock.procA
      rw [hproc] at hdated hown
      intro v hv peer hpeer hid
      rw [heldIn_insert hinjective hclock.store ins hdated.made] at hv
      rw [ins.peers_eq] at hpeer
      rcases hv with rfl | hv
      · -- the own entry was counted on for this event
        left
        obtain ⟨hcreator, hheight⟩ := hown.prepares
        rw [hown.height peer hpeer (hid.trans hcreator)]
        exact Nat.le_of_eq hheight
      · exact h v hv peer hpeer hid
  | insertEvent hlistener hinsert =>
      obtain ⟨-, ⟨ins⟩⟩ := DAGcore.insertEvent_eq_ok hinsert
      have hpending := hclock.listener
      rw [hlistener] at hpending
      have hmade := (hpending _ List.mem_cons_self).made
      intro v hv peer hpeer hid
      rw [heldIn_insert hinjective hclock.store ins hmade] at hv
      rw [ins.peers_eq] at hpeer
      rcases hv with rfl | hv
      · exact Or.inr ⟨_, _, _, rfl, rfl⟩
      · refine (h v hv peer hpeer hid).imp_right ?_
        rintro ⟨_, _, _, hinserted, -⟩
        cases hlistener.symm.trans hinserted
  | @updatePeer _ event _ k peer hlistener hfind hget =>
      have hcreator := DAGPeerList.findPeerMut_eq_ok hfind hget
      have hsame : (peer.updateLamportTimeAndHeight event.lamportTimestamp
          event.height).id = peer.id := rfl
      intro v hv q hq hid
      left
      rcases DAGPeerList.mem_writePeer hnodup hget hsame hq with rfl | ⟨hmem, hne⟩
      · rw [DAGPeer.updateLamportTimeAndHeight_height]
        rcases h v hv peer (List.mem_of_getElem? hget) hid with hle | hinserted
        · exact hle.trans (Nat.le_max_left _ _)
        · obtain ⟨_, _, _, hinserted, rfl⟩ := hinserted
          cases hlistener.symm.trans hinserted
          exact Nat.le_max_right _ _
      · refine (h v hv q hmem hid).resolve_right ?_
        rintro ⟨_, _, _, hinserted, rfl⟩
        cases hlistener.symm.trans hinserted
        exact hne (hid.trans hcreator.symm)
  | sendReply _ hfind =>
      obtain ⟨k, peer, hget, rfl⟩ :=
        DAGPeerList.findPeerWithLamportTimeUpdate_eq_ok hfind
      exact h.writePeer hnodup hget rfl rfl (Nat.le_refl _) rfl rfl
  | receiveReply hlistener _ =>
      refine hkeep (by rw [updateLamportTime_eq]) (by rw [updateLamportTime_eq]) ?_
      rintro v ⟨_, _, _, hinserted, -⟩
      cases hlistener.symm.trans hinserted
  | checkEvent hlistener _ _ | skipEvent hlistener _ _ | finishReply hlistener =>
      refine hkeep rfl rfl ?_
      rintro v ⟨_, _, _, hinserted, -⟩
      cases hlistener.symm.trans hinserted
  | receiveRequest =>
      exact hkeep (by rw [updateLamportTime_eq]) (by rw [updateLamportTime_eq])
        fun _ => id
  | sendRequest | otherHeight | readParents | collectEvents | collectFails
  | listGossip | formReply | sendFails | addTransaction =>
      exact hkeep rfl rfl fun _ => id

end Noted

/-- No thread of the node has anything in hand. -/
structure NodeState.Resting (n : NodeState P D T H PK SK Sig) : Prop where
  procA : n.procA = .start
  listener : n.listener = .idle
  procB : n.procB = .idle

namespace Network

variable {net : Network P PK SK} {env : Env P D T H PK SK Sig}
  {w w' : World P D T H PK SK Sig} {i : P}

theorem Reachable.noted (hhonest : net.Honest env) (h : net.Reachable env w)
    (hfree : net.CollisionFree env w) : ∀ i ∈ net.ids, (w.nodes i).Noted := by
  induction h with
  | @initial w h =>
      intro i hi v hv peer _ _
      have hmade := (Reachable.initial h).clockInv.nodes i hi |>.store.history.made v hv
      have hle := (CountInv.initial h).made_height_le hmade
      rw [h.created] at hle
      exact Or.inl (hle.trans (Nat.zero_le _))
  | step h hstep ih =>
      have hfree' := hfree.of_step hstep
      intro i hi
      cases hstep with
      | @node j n out hj hnode =>
          by_cases hij : i = j
          · subst hij
            rw [World.step_nodes_self]
            exact (ih hfree' i hi).step hhonest ((h.signInv hhonest.toKeyed).conf i hi)
              hfree' (h.clockInv.nodes i hi) ((h.syncInv hhonest hfree').nodes i hi) hnode
          · rw [World.step_nodes_of_ne _ hij]
            exact ih hfree' i hi

section Alone

/-- Node `i` takes a step, and its listener inserts nothing that the node holds. -/
inductive FreshStep (net : Network P PK SK) (env : Env P D T H PK SK Sig) (i : P) :
    World P D T H PK SK Sig → World P D T H PK SK Sig → Prop
  | node {w : World P D T H PK SK Sig} {n : NodeState P D T H PK SK Sig}
      {out : Output P D T H Sig} : i ∈ net.ids →
      NodeStep env (w.requestsTo i) (w.repliesTo i) (w.nodes i) n out →
      (∀ event, Takes (w.nodes i) n event → Unheld (w.nodes i).core event) →
      FreshStep net env i w (w.step i n out)

/-- Node `i` goes on while the others wait. -/
def Alone (net : Network P PK SK) (env : Env P D T H PK SK Sig) (i : P) :
    World P D T H PK SK Sig → World P D T H PK SK Sig → Prop :=
  ReflTransGen (FreshStep net env i)

/-- The nodes go on in some order. -/
def Goes (net : Network P PK SK) (env : Env P D T H PK SK Sig) :
    World P D T H PK SK Sig → World P D T H PK SK Sig → Prop :=
  ReflTransGen fun w w' => ∃ i, FreshStep net env i w w'

/-- A reachable state from which no collision comes, and no event that cannot be hashed
and signed. -/
structure Clear (net : Network P PK SK) (env : Env P D T H PK SK Sig)
    (w : World P D T H PK SK Sig) : Prop where
  reachable : net.Reachable env w
  free : ∀ w', net.Goes env w w' → net.CollisionFree env w'
  computes : ∀ w', net.Goes env w w' → net.Computes env w'

theorem FreshStep.step (h : FreshStep net env i w w') : net.Step env w w' := by
  cases h with
  | node hi hnode _ => exact .node hi hnode

/-- A step of another thread than the listener. -/
theorem FreshStep.of_listener {n : NodeState P D T H PK SK Sig}
    {out : Output P D T H Sig} (hi : i ∈ net.ids)
    (hstep : NodeStep env (w.requestsTo i) (w.repliesTo i) (w.nodes i) n out)
    (hlistener : n.listener = (w.nodes i).listener) :
    FreshStep net env i w (w.step i n out) := by
  refine .node hi hstep ?_
  rintro event ⟨answer, rest, hchecked, hinserted⟩
  cases hchecked.symm.trans (hlistener.symm.trans hinserted)

/-- A step that finds the listener with nothing to insert. -/
theorem FreshStep.of_unchecked {n : NodeState P D T H PK SK Sig}
    {out : Output P D T H Sig} (hi : i ∈ net.ids)
    (hstep : NodeStep env (w.requestsTo i) (w.repliesTo i) (w.nodes i) n out)
    (hlistener : ∀ answer event rest,
      (w.nodes i).listener ≠ .checked answer event rest) :
    FreshStep net env i w (w.step i n out) := by
  refine .node hi hstep ?_
  rintro event ⟨answer, rest, hchecked, -⟩
  exact absurd hchecked (hlistener answer event rest)

theorem FreshStep.of_unheld {n : NodeState P D T H PK SK Sig}
    {out : Output P D T H Sig} {answer : Answer P D T H Sig}
    {event : Event P D T H Sig} {rest : List (NetEvent P D T H Sig)} (hi : i ∈ net.ids)
    (hstep : NodeStep env (w.requestsTo i) (w.repliesTo i) (w.nodes i) n out)
    (hlistener : (w.nodes i).listener = .checked answer event rest)
    (hunheld : Unheld (w.nodes i).core event) :
    FreshStep net env i w (w.step i n out) := by
  refine .node hi hstep ?_
  rintro event' ⟨_, _, hchecked, -⟩
  cases hlistener.symm.trans hchecked
  exact hunheld

theorem FreshStep.exists {n : NodeState P D T H PK SK Sig} {out : Output P D T H Sig}
    (h : FreshStep net env i w (w.step i n out)) : ∃ w', FreshStep net env i w w' ∧
      w'.nodes i = n ∧ w'.created = out.created ++ w.created :=
  ⟨_, h, World.step_nodes_self .., rfl⟩

theorem Alone.goes (h : Alone net env i w w') : net.Goes env w w' :=
  ReflTransGen.mono (fun _ _ hstep => ⟨i, hstep⟩) _ _ h

theorem Alone.nodes_of_ne (h : Alone net env i w w') {j : P} (hne : j ≠ i) :
    w'.nodes j = w.nodes j := by
  induction h with
  | refl => rfl
  | tail _ hstep ih =>
      cases hstep with
      | node _ _ _ => rw [World.step_nodes_of_ne _ hne, ih]

theorem Clear.goes (h : net.Clear env w) (hgoes : net.Goes env w w') :
    net.Clear env w' := by
  refine ⟨?_, fun w'' h' => h.free w'' (hgoes.trans h'),
    fun w'' h' => h.computes w'' (hgoes.trans h')⟩
  have hreach := h.reachable
  clear h
  induction hgoes with
  | refl => exact hreach
  | tail _ hstep ih =>
      obtain ⟨i, hstep⟩ := hstep
      exact .step ih hstep.step

theorem Clear.step (h : net.Clear env w) (hstep : FreshStep net env i w w') :
    net.Clear env w' :=
  h.goes (.single ⟨i, hstep⟩)

theorem Clear.collisionFree (h : net.Clear env w) : net.CollisionFree env w :=
  h.free w .refl

theorem Goes.created_subset (h : net.Goes env w w') : w.created ⊆ w'.created := by
  induction h with
  | refl => exact List.Subset.refl _
  | tail _ hstep ih =>
      obtain ⟨i, hstep⟩ := hstep
      cases hstep with
      | node _ _ _ => exact List.Subset.trans ih (List.subset_append_right _ _)

theorem Goes.held_subset (h : net.Goes env w w') (hclear : net.Clear env w) {j : P}
    (hj : j ∈ net.ids) : held w j ⊆ held w' j := by
  induction h with
  | refl => exact Set.Subset.refl _
  | tail hgoes hstep ih =>
      have hclear' := hclear.goes hgoes
      obtain ⟨i, hstep⟩ := hstep
      cases hstep with
      | @node n out hi hnode _ =>
          refine ih.trans ?_
          unfold held
          by_cases hji : j = i
          · subst hji
            rw [World.step_nodes_self]
            exact (hclear'.reachable.clockInv.nodes j hj).heldIn_mono
              hclear'.collisionFree hnode
          · rw [World.step_nodes_of_ne _ hji]

end Alone

section Answering

variable {answer : Answer P D T H Sig} {req : SyncReq P}

/-- `procedure_b` of node `i` has sent `answer`.  Of the node itself only the clock and
the times in its peer list have changed. -/
structure Answers (net : Network P PK SK) (env : Env P D T H PK SK Sig) (i : P)
    (w w' : World P D T H PK SK Sig) (answer : Answer P D T H Sig) : Prop where
  alone : Alone net env i w w'
  node : ∃ core, w'.nodes i = { w.nodes i with core := core, procB := .idle } ∧
    core.store = (w.nodes i).core.store ∧
    core.conf.peers.r = (w.nodes i).core.conf.peers.r
  created : w'.created = w.created
  sent : answer ∈ w'.replies

theorem Answers.head {w₁ : World P D T H PK SK Sig} {core : DAGcore P D T H PK SK Sig}
    {procB : ProcB P D T H Sig} (h : net.Answers env i w₁ w' answer)
    (hstep : FreshStep net env i w w₁)
    (hnode : w₁.nodes i = { w.nodes i with core := core, procB := procB })
    (hstore : core.store = (w.nodes i).core.store)
    (hr : core.conf.peers.r = (w.nodes i).core.conf.peers.r)
    (hcreated : w₁.created = w.created) : net.Answers env i w w' answer := by
  obtain ⟨core', hnode', hstore', hr'⟩ := h.node
  rw [hnode] at hnode' hstore' hr'
  exact ⟨.head hstep h.alone, ⟨core', hnode', hstore'.trans hstore, hr'.trans hr⟩,
    h.created.trans hcreated, h.sent⟩

variable (hhonest : net.Honest env) (hclear : net.Clear env w) (hi : i ∈ net.ids)
include hhonest hclear hi

theorem sends_answer (hproc : (w.nodes i).procB = .formed req answer) :
    ∃ w', net.Answers env i w w' answer := by
  obtain ⟨peer, list, hfind⟩ :=
    answers_request hhonest hclear.reachable hclear.collisionFree hi hproc
  have hstep : FreshStep net env i w _ :=
    .of_listener hi (.sendReply hproc hfind) rfl
  refine ⟨_, .single hstep, ⟨_, World.step_nodes_self .., rfl, ?_⟩, rfl,
    List.mem_cons_self⟩
  obtain ⟨k, q, -, rfl⟩ := DAGPeerList.findPeerWithLamportTimeUpdate_eq_ok hfind
  rfl

theorem forms_answer {events : List (NetEvent P D T H Sig)}
    {snapshot : SledTree (EventKey P H) (Event P D T H Sig)} {gossip : GossipList P}
    (hproc : (w.nodes i).procB = .listed req events snapshot gossip) :
    ∃ w' answer, net.Answers env i w w' answer ∧ answer.reply.toId = req.fromId ∧
      answer.reply.events = events ∧ answer.snapshot = snapshot := by
  have hstep : FreshStep net env i w _ :=
    .of_listener hi (.formReply hproc) rfl
  have hnode := World.step_nodes_self w i { w.nodes i with
    procB := .formed req ⟨⟨req.toId, req.fromId, gossip, (w.nodes i).core.lamportTime,
      events⟩, snapshot⟩ } {}
  obtain ⟨w', hanswers⟩ :=
    sends_answer hhonest (hclear.step hstep) hi (congrArg NodeState.procB hnode)
  exact ⟨w', _, hanswers.head hstep hnode rfl rfl rfl, rfl, rfl, rfl⟩

theorem lists_gossip {events : List (NetEvent P D T H Sig)}
    {snapshot : SledTree (EventKey P H) (Event P D T H Sig)}
    (hproc : (w.nodes i).procB = .collected req events snapshot) :
    ∃ w' answer, net.Answers env i w w' answer ∧ answer.reply.toId = req.fromId ∧
      answer.reply.events = events ∧ answer.snapshot = snapshot := by
  have hstep : FreshStep net env i w _ :=
    .of_listener hi (.listGossip hproc) rfl
  have hnode := World.step_nodes_self w i { w.nodes i with
    procB := .listed req events snapshot (w.nodes i).core.conf.peers.getGossipList } {}
  obtain ⟨w', answer, hanswers, hanswer⟩ :=
    forms_answer hhonest (hclear.step hstep) hi (congrArg NodeState.procB hnode)
  exact ⟨w', answer, hanswers.head hstep hnode rfl rfl rfl, hanswer⟩

/-- What a request asks for is collected and sent. -/
theorem answers_updated (hroom : w.created.length < usizeMax)
    (hproc : (w.nodes i).procB = .updated req) :
    ∃ w' answer, net.Answers env i w w' answer ∧ answer.reply.toId = req.fromId ∧
      (w.nodes i).core.store.getEventsForGossip req.gossipList =
        .ok answer.reply.events ∧ answer.snapshot = (w.nodes i).core.store.event := by
  obtain ⟨events, hevents⟩ := collects_events hhonest hclear.reachable
    hclear.collisionFree hi hroom hproc (.refl _)
  have hstep : FreshStep net env i w _ :=
    .of_listener hi (.collectEvents hproc (.refl _) hevents) rfl
  have hnode := World.step_nodes_self w i { w.nodes i with
    procB := .collected req events (w.nodes i).core.store.event } {}
  obtain ⟨w', answer, hanswers, hto, rfl, hsnapshot⟩ :=
    lists_gossip hhonest (hclear.step hstep) hi (congrArg NodeState.procB hnode)
  exact ⟨w', answer, hanswers.head hstep hnode rfl rfl rfl, hto, hevents, hsnapshot⟩

/-- A request that has been sent is answered. -/
theorem answers_sent (hroom : w.created.length < usizeMax)
    (hidle : (w.nodes i).procB = .idle) (hreq : req ∈ w.requestsTo i) :
    ∃ w' answer, net.Answers env i w w' answer ∧ answer.reply.toId = req.fromId ∧
      (w.nodes i).core.store.getEventsForGossip req.gossipList =
        .ok answer.reply.events ∧ answer.snapshot = (w.nodes i).core.store.event := by
  have hstep : FreshStep net env i w _ :=
    .of_listener hi (.receiveRequest hidle hreq) rfl
  have hnode := World.step_nodes_self w i { w.nodes i with
    core := (w.nodes i).core.updateLamportTime req.lamportTime
    procB := .updated req } {}
  obtain ⟨w', answer, hanswers, hto, hevents, hsnapshot⟩ := answers_updated hhonest
    (hclear.step hstep) hi hroom (congrArg NodeState.procB hnode)
  rw [hnode, updateLamportTime_eq] at hevents hsnapshot
  refine ⟨w', answer, hanswers.head hstep hnode ?_ ?_ rfl, hto, hevents, hsnapshot⟩
  · rw [updateLamportTime_eq]
  · rw [updateLamportTime_eq]

end Answering

section Hearing

variable {answer : Answer P D T H Sig}
  {snapshot : SledTree (EventKey P H) (Event P D T H Sig)}

/-- The listener of node `i` has come to the end of a reply, and the node holds all of
the snapshot. -/
structure Hears (net : Network P PK SK) (env : Env P D T H PK SK Sig) (i : P)
    (w w' : World P D T H PK SK Sig)
    (snapshot : SledTree (EventKey P H) (Event P D T H Sig)) : Prop where
  alone : Alone net env i w w'
  node : ∃ core, w'.nodes i = { w.nodes i with core := core, listener := .idle } ∧
    core.conf.peers.r = (w.nodes i).core.conf.peers.r
  created : w'.created = w.created
  holds : heldIn snapshot ⊆ held w' i

theorem Hears.head {w₁ : World P D T H PK SK Sig} {core : DAGcore P D T H PK SK Sig}
    {listener : Listener P D T H Sig} (h : net.Hears env i w₁ w' snapshot)
    (halone : Alone net env i w w₁)
    (hnode : w₁.nodes i = { w.nodes i with core := core, listener := listener })
    (hr : core.conf.peers.r = (w.nodes i).core.conf.peers.r)
    (hcreated : w₁.created = w.created) : net.Hears env i w w' snapshot := by
  obtain ⟨core', hnode', hr'⟩ := h.node
  rw [hnode] at hnode' hr'
  exact ⟨halone.trans h.alone, ⟨core', hnode', hr'.trans hr⟩,
    h.created.trans hcreated, h.holds⟩

variable (hhonest : net.Honest env) (hi : i ∈ net.ids)
include hhonest hi

/-- An event that the node does not hold is checked, inserted and recorded. -/
theorem hears_event (hclear : net.Clear env w) {ev : NetEvent P D T H Sig}
    {rest : List (NetEvent P D T H Sig)}
    (hlistener : (w.nodes i).listener = .processing answer (ev :: rest))
    (hnew : ev.toHashEvent ∉ held w i) :
    ∃ w' core, Alone net env i w w' ∧
      w'.nodes i =
        { w.nodes i with core := core, listener := .processing answer rest } ∧
      core.conf.peers.r = (w.nodes i).core.conf.peers.r ∧ w'.created = w.created ∧
      held w' i = insert ev.toHashEvent (held w i) := by
  have hclock := hclear.reachable.clockInv.nodes i hi
  have hcarried : ev ∈ (w.nodes i).listener.carried := hlistener ▸ List.mem_cons_self
  have hmade := (hclock.listener ev hcarried).made
  obtain ⟨k, hk⟩ := (hclear.computes w .refl).hashes _ hmade
  obtain ⟨event, hevent⟩ := exists_toEvent hk
  obtain ⟨rfl, -⟩ := toEvent_eq_ok hevent
  have hcheck := accepts_events hhonest hclear.reachable hi hlistener hevent
  -- it is checked
  have hchecks : FreshStep net env i w _ :=
    .of_unchecked hi (.checkEvent hlistener hevent hcheck) (by simp [hlistener])
  obtain ⟨w₁, hstep₁, hnode₁, hcreated₁⟩ := hchecks.exists
  have hclear₁ := hclear.step hstep₁
  have hlistener₁ := congrArg NodeState.listener hnode₁
  have hunheld : Unheld (w₁.nodes i).core event := hnode₁.symm ▸ hnew
  -- inserted
  obtain ⟨core, hinsert⟩ := inserts_event hhonest hclear₁.reachable
    hclear₁.collisionFree hi (hclear₁.computes _ .refl) hlistener₁
  have hinserts : FreshStep net env i w₁ _ :=
    .of_unheld hi (.insertEvent hlistener₁ hinsert) hlistener₁ hunheld
  obtain ⟨w₂, hstep₂, hnode₂, hcreated₂⟩ := hinserts.exists
  have hclear₂ := hclear₁.step hstep₂
  have hlistener₂ := congrArg NodeState.listener hnode₂
  -- and recorded
  obtain ⟨k, peer, hfind, hget⟩ := finds_creator hhonest hclear₂.reachable
    hclear₂.collisionFree hi hlistener₂
  have hupdates : FreshStep net env i w₂ _ :=
    .of_unchecked hi (.updatePeer hlistener₂ hfind hget) (by simp [hlistener₂])
  obtain ⟨w₃, hstep₃, hnode₃, hcreated₃⟩ := hupdates.exists
  obtain ⟨-, ⟨ins⟩⟩ := DAGcore.insertEvent_eq_ok hinsert
  rw [hnode₁] at hnode₂ ins
  rw [hnode₂] at hnode₃
  have hr : core.conf.peers.r = (w.nodes i).core.conf.peers.r :=
    congrArg DAGPeerList.r ins.peers_eq
  have hheld : heldIn core.store.event = _ :=
    heldIn_insert hclear.collisionFree hclock.store ins hmade
  refine ⟨w₃, _, .head hstep₁ (.head hstep₂ (.single hstep₃)), hnode₃, hr,
    hcreated₃.trans (hcreated₂.trans hcreated₁), ?_⟩
  rw [held, hnode₃]
  exact hheld

/-- The events of a reply that the node does not hold are inserted one after the
other. -/
theorem hears_rest (hclear : net.Clear env w) {rest : List (NetEvent P D T H Sig)}
    (hlistener : (w.nodes i).listener = .processing answer rest)
    (hnew : ∀ ev ∈ rest, ev.toHashEvent ∉ held w i)
    (hnodup : (rest.map NetEvent.toHashEvent).Nodup) :
    ∃ w', net.Hears env i w w' answer.snapshot := by
  induction rest generalizing w with
  | nil =>
      have hcarries := ((hclear.reachable.syncInv hhonest
        hclear.collisionFree).nodes i hi).listener
      rw [hlistener] at hcarries
      have hstep : FreshStep net env i w _ :=
        .of_unchecked hi (.finishReply hlistener) (by simp [hlistener])
      refine ⟨_, .single hstep, ⟨_, World.step_nodes_self .., rfl⟩, rfl, ?_⟩
      intro v hv
      rw [held, World.step_nodes_self]
      exact (hcarries.complete hv).resolve_right List.not_mem_nil
  | cons ev rest ih =>
      obtain ⟨hfirst, hrest⟩ := List.nodup_cons.mp hnodup
      obtain ⟨w₁, core, halone, hnode, hr, hcreated, hheld⟩ := hears_event hhonest hi
        hclear hlistener (hnew ev List.mem_cons_self)
      have hnew₁ : ∀ ev' ∈ rest, ev'.toHashEvent ∉ held w₁ i := by
        intro ev' hmem hmem'
        rw [hheld] at hmem'
        rcases hmem' with heq | hheld'
        · exact hfirst (heq ▸ List.mem_map_of_mem hmem)
        · exact hnew ev' (List.mem_cons_of_mem _ hmem) hheld'
      obtain ⟨w', hhears⟩ := ih (hclear.goes halone.goes)
        (congrArg NodeState.listener hnode) hnew₁ hrest
      exact ⟨w', hhears.head halone hnode hr hcreated⟩

/-- A reply with nothing in it that the node holds is taken in. -/
theorem hears (hclear : net.Clear env w) (hidle : (w.nodes i).listener = .idle)
    (hanswer : answer ∈ w.repliesTo i)
    (hnew : ∀ ev ∈ answer.reply.events, ev.toHashEvent ∉ held w i)
    (hnodup : (answer.reply.events.map NetEvent.toHashEvent).Nodup) :
    ∃ w', net.Hears env i w w' answer.snapshot := by
  have hstep : FreshStep net env i w _ :=
    .of_unchecked hi (.receiveReply hidle hanswer) (by simp [hidle])
  have hnode := World.step_nodes_self w i { w.nodes i with
    core := (w.nodes i).core.updateLamportTime answer.reply.lamportTime
    listener := .processing answer answer.reply.events } {}
  have hheld : held _ i = held w i :=
    congrArg (fun n : NodeState P D T H PK SK Sig => heldIn n.core.store.event) hnode
      |>.trans (by rw [updateLamportTime_eq]; rfl)
  obtain ⟨w', hhears⟩ := hears_rest hhonest hi (hclear.step hstep)
    (congrArg NodeState.listener hnode) (hheld ▸ hnew) hnodup
  refine ⟨w', hhears.head (.single hstep) hnode ?_ rfl⟩
  rw [updateLamportTime_eq]

end Hearing

section Making

variable {e o : HashEvent P D T H} {p : P} {peer : DAGPeer P PK}
  {new : List (HashEvent P D T H)}

/-- `procedure_a` of node `i` has come to the end of its loop, and has made `new`. -/
structure Ends (net : Network P PK SK) (env : Env P D T H PK SK Sig) (i : P)
    (w w' : World P D T H PK SK Sig) (new : List (HashEvent P D T H)) : Prop where
  alone : Alone net env i w w'
  node : ∃ core, w'.nodes i = { w.nodes i with core := core, procA := .start } ∧
    core.conf.peers.r = (w.nodes i).core.conf.peers.r
  created : w'.created = new ++ w.created

theorem Ends.head {w₁ : World P D T H PK SK Sig} {core : DAGcore P D T H PK SK Sig}
    {procA : ProcA P D T H PK Sig} {before : List (HashEvent P D T H)}
    (h : net.Ends env i w₁ w' new) (hstep : FreshStep net env i w w₁)
    (hnode : w₁.nodes i = { w.nodes i with core := core, procA := procA })
    (hr : core.conf.peers.r = (w.nodes i).core.conf.peers.r)
    (hcreated : w₁.created = before ++ w.created) :
    net.Ends env i w w' (new ++ before) := by
  obtain ⟨core', hnode', hr'⟩ := h.node
  rw [hnode] at hnode' hr'
  refine ⟨.head hstep h.alone, ⟨core', hnode', hr'.trans hr⟩, ?_⟩
  rw [h.created, hcreated, List.append_assoc]

/-- Node `i` holds an event `e` that it has made on top of an event `o` of peer `p`. -/
structure Stands (env : Env P D T H PK SK Sig) (i p : P) (own : Set (HashEvent P D T H))
    (e o : HashEvent P D T H) : Prop where
  creator : e.creator = i
  mem : e ∈ own
  other_mem : o ∈ own
  other_hash : env.eventHash o = .ok e.otherParent
  other_creator : o.creator = p

variable [Inhabited P] (hhonest : net.Honest env) (hbuilt : net.Built)
  (hn : 2 ≤ net.peers.length) (hclear : net.Clear env w) (hi : i ∈ net.ids)
include hhonest hbuilt hn hclear hi

theorem ends_formed {event : Event P D T H Sig}
    (hproc : (w.nodes i).procA = .formed event) :
    ∃ w', net.Ends env i w w' [] ∧ event.toHashEvent ∈ held w' i := by
  obtain ⟨k, event', core, hhash, hinsert⟩ := inserts_own hhonest hclear.reachable
    hclear.collisionFree hi hbuilt hn (hclear.computes w .refl) hproc
  have hinserts : FreshStep net env i w _ :=
    .of_listener hi (.insertOwn hproc hhash hinsert) rfl
  obtain ⟨w', hstep, hnode, hcreated⟩ := hinserts.exists
  obtain ⟨-, ⟨ins⟩⟩ := DAGcore.insertEvent_eq_ok hinsert
  obtain ⟨-, rfl⟩ := Event.eventHash_eq_ok.mp hhash
  refine ⟨w', ⟨.single hstep, ⟨core, hnode, congrArg DAGPeerList.r ins.peers_eq⟩,
    hcreated⟩, ?_⟩
  have hclock := hclear.reachable.clockInv.nodes i hi
  have hdated := hclock.procA
  rw [hproc] at hdated
  rw [held, hnode, heldIn_insert hclear.collisionFree hclock.store ins hdated.made]
  exact Set.mem_insert _ _

theorem ends_parents (hroom : w.created.length < usizeMax) {height : Nat}
    {selfParent otherParent : H}
    (hproc : (w.nodes i).procA = .parents height selfParent otherParent) :
    ∃ w' e, net.Ends env i w w' [e] ∧ e.creator = i ∧ e.otherParent = otherParent ∧
      e ∈ held w' i := by
  have hconf := (hclear.reachable.signInv hhonest.toKeyed).conf i hi
  obtain ⟨time, core, htime⟩ :=
    exists_nextTime hhonest hclear.reachable hclear.collisionFree hi hroom
  have hforms : FreshStep net env i w _ :=
    .of_listener hi (.formEvent hproc htime rfl rfl rfl) rfl
  obtain ⟨w₁, hstep, hnode, hcreated⟩ := hforms.exists
  obtain ⟨w', hends, hheld⟩ := ends_formed hhonest hbuilt hn (hclear.step hstep) hi
    (congrArg NodeState.procA hnode)
  obtain ⟨-, rfl⟩ := getNextLamportTime_eq_ok htime
  exact ⟨w', _, hends.head hstep hnode rfl hcreated, hconf.creator, rfl, hheld⟩

theorem ends_paired (hroom : w.created.length < usizeMax) {height otherHeight : Nat}
    (hproc : (w.nodes i).procA = .paired peer height otherHeight) :
    ∃ w' e o, net.Ends env i w w' [e] ∧ Stands env i peer.id (held w' i) e o ∧
      o.height = otherHeight := by
  have hsync := (hclear.reachable.syncInv hhonest hclear.collisionFree).nodes i hi
  have hclock := hclear.reachable.clockInv.nodes i hi
  obtain ⟨⟨o, ho⟩, s, hs⟩ := finds_parents hhonest hclear.reachable
    hclear.collisionFree hi hbuilt hn hproc
  have hreads : FreshStep net env i w _ :=
    .of_listener hi (.readParents hproc ho hs) rfl
  obtain ⟨w₁, hstep, hnode, hcreated⟩ := hreads.exists
  have hclear₁ := hclear.step hstep
  have hroom₁ : w₁.created.length < usizeMax := hcreated ▸ hroom
  obtain ⟨w', e, hends, hcreator, hother, hheld⟩ := ends_parents hhonest hbuilt hn
    hclear₁ hi hroom₁ (congrArg NodeState.procA hnode)
  have ho := SledStore.getEventOfCreator_eq_ok.mp ho
  obtain ⟨hoheld, hocreator, hoheight⟩ := hsync.store.indexed _ _ o ho
  refine ⟨w', e, o.toHashEvent, hends.head hstep hnode rfl hcreated, ?_, hoheight⟩
  refine ⟨hcreator, hheld, ?_, ?_, hocreator⟩
  · refine hends.alone.goes.held_subset hclear₁ hi ?_
    rw [held, hnode]
    exact hoheld
  · rw [hother]
    exact hclock.store.hashed _ o ho

/-- With an idle listener, the other-parent is as high as what is held of the peer. -/
theorem ends_numbered (hroom : w.created.length < usizeMax)
    (hidle : (w.nodes i).listener = .idle) {height : Nat}
    (hproc : (w.nodes i).procA = .numbered peer height) :
    ∃ w' e o, net.Ends env i w w' [e] ∧ Stands env i peer.id (held w' i) e o ∧
      ∀ v ∈ held w i, v.creator = peer.id → v.height ≤ o.height := by
  obtain ⟨other, hfind⟩ := finds_other hhonest hclear.reachable hclear.collisionFree hi
    hbuilt hn hproc
  have hreads : FreshStep net env i w _ :=
    .of_listener hi (.otherHeight hproc hfind) rfl
  obtain ⟨w₁, hstep, hnode, hcreated⟩ := hreads.exists
  have hroom₁ : w₁.created.length < usizeMax := hcreated ▸ hroom
  obtain ⟨w', e, o, hends, hstands, hheight⟩ := ends_paired hhonest hbuilt hn
    (hclear.step hstep) hi hroom₁ (congrArg NodeState.procA hnode)
  refine ⟨w', e, o, hends.head hstep hnode rfl hcreated, hstands, fun v hv hcreator => ?_⟩
  obtain ⟨hmem, hid⟩ := DAGPeerList.findPeer_eq_ok hfind
  rw [hheight]
  refine (hclear.reachable.noted hhonest hclear.collisionFree i hi v hv other hmem
    (hid.trans hcreator.symm)).resolve_right ?_
  rintro ⟨_, _, _, hinserted, -⟩
  cases hidle.symm.trans hinserted

theorem ends_requested (hroom : w.created.length < usizeMax)
    (hidle : (w.nodes i).listener = .idle)
    (hproc : (w.nodes i).procA = .requested peer) :
    ∃ w' e o, net.Ends env i w w' [e] ∧ Stands env i peer.id (held w' i) e o ∧
      ∀ v ∈ held w i, v.creator = peer.id → v.height ≤ o.height := by
  obtain ⟨k, own, height, own', hfind, hget, hnext⟩ := exists_nextHeight hhonest
    hclear.reachable hclear.collisionFree hi hroom hproc
  have hcounts : FreshStep net env i w _ :=
    .of_listener hi (.nextHeight hproc hfind hget hnext) rfl
  obtain ⟨w₁, hstep, hnode, hcreated⟩ := hcounts.exists
  have hroom₁ : w₁.created.length < usizeMax := hcreated ▸ hroom
  have hidle₁ : (w₁.nodes i).listener = .idle := by rw [hnode]; exact hidle
  obtain ⟨w', e, o, hends, hstands, hnoted⟩ := ends_numbered hhonest hbuilt hn
    (hclear.step hstep) hi hroom₁ hidle₁ (congrArg NodeState.procA hnode)
  refine ⟨w', e, o, hends.head hstep hnode rfl hcreated, hstands, fun v hv => ?_⟩
  apply hnoted
  rw [held, hnode]
  exact hv

end Making

section Asking

omit [LinearOrder H] [Inhabited H] in
/-- No event is collected twice. -/
theorem gossip_nodup {store : SledStore P D T H Sig} (hsync : StoreSync store)
    {gossip : GossipList P} {events : List (NetEvent P D T H Sig)}
    (h : store.getEventsForGossip gossip = .ok events) :
    (events.map NetEvent.toHashEvent).Nodup := by
  have hfiled : store.Filed := fun c height e he =>
    (hsync.indexed c height e (SledStore.getEventOfCreator_eq_ok.mp he)).2
  have hnodup : events.Nodup := by
    rw [SledStore.getEventsForGossip_eq, Result.bind_eq_ok] at h
    obtain ⟨chains, hchains, h⟩ := h
    cases h
    obtain ⟨places, chosen, hplaces, -, hchosen, hflatten⟩ :=
      exists_places gossip.nodupKeys hchains
    rw [(List.perm_insertionSort _ _).nodup_iff, hflatten]
    exact nodup_of_places hfiled hchosen hplaces
  refine hnodup.map_on fun ev hev ev' hev' hsame => ?_
  obtain ⟨c, _, height, e, -, hin, rfl⟩ := (SledStore.mem_getEventsForGossip h).mp hev
  obtain ⟨c', _, height', e', -, hin', rfl⟩ :=
    (SledStore.mem_getEventsForGossip h).mp hev'
  -- they stand at one place
  obtain ⟨-, rfl, rfl⟩ := hsync.indexed _ _ e hin.stored
  obtain ⟨-, rfl, rfl⟩ := hsync.indexed _ _ e' hin'.stored
  have hcreator : e.creator = e'.creator := congrArg HashEvent.creator hsame
  have hheight : e.height = e'.height := congrArg HashEvent.height hsame
  have hstored := hin.stored
  rw [hcreator, hheight, hin'.stored] at hstored
  rw [Option.some.inj hstored]

/-- What a node with an idle listener asks for it does not hold. -/
theorem Clear.asked_unheld (hhonest : net.Honest env) (hclear : net.Clear env w)
    (hi : i ∈ net.ids) (hidle : (w.nodes i).listener = .idle)
    {store : SledStore P D T H Sig} (hsync : StoreSync store)
    {events : List (NetEvent P D T H Sig)}
    (h : store.getEventsForGossip (w.nodes i).core.conf.peers.getGossipList =
      .ok events) : ∀ ev ∈ events, ev.toHashEvent ∉ held w i := by
  intro ev hev hheld
  have hconf := (hclear.reachable.signInv hhonest.toKeyed).conf i hi
  obtain ⟨c, g, height, e, hlookup, hin, rfl⟩ :=
    (SledStore.mem_getEventsForGossip h).mp hev
  obtain ⟨-, rfl, rfl⟩ := hsync.indexed _ _ e hin.stored
  have hmade := (hclear.reachable.clockInv.nodes i hi).store.history.made _ hheld
  have hcreator := (hclear.reachable.syncInv hhonest
    hclear.collisionFree).lineage.creator_mem _ hmade
  obtain ⟨peer, hpeer, hid⟩ := List.mem_map.mp (hconf.ids.mem_iff.mpr hcreator)
  have hid : peer.id = e.creator := hid
  -- the height asked for is that of the peer's entry
  have hentry := DAGPeerList.lookup_getGossipList
    (hconf.ids.nodup_iff.mpr hhonest.ids_nodup) hpeer
  rw [hid] at hentry
  cases hlookup.symm.trans hentry
  rcases hclear.reachable.noted hhonest hclear.collisionFree i hi _ hheld peer hpeer hid
    with hnoted | ⟨_, _, _, hinserted, -⟩
  · exact absurd hin.le (Nat.not_le.mpr (Nat.lt_succ_of_le hnoted))
  · cases hidle.symm.trans hinserted

/-- `procedure_a` chooses a peer and sends it a request. -/
theorem asks (hhonest : net.Honest env) (hclear : net.Clear env w) (hi : i ∈ net.ids)
    (hproc : (w.nodes i).procA = .start) {peer : DAGPeer P PK}
    {list : DAGPeerList P PK}
    (hnext : (w.nodes i).core.conf.peers.nextPeer = .ok (peer, list)) :
    ∃ w' req, Alone net env i w w' ∧
      w'.nodes i = { w.nodes i with
        core := (w.nodes i).core.setPeers list, procA := .requested peer } ∧
      w'.created = w.created ∧ req ∈ w'.requestsTo peer.id ∧ req.fromId = i ∧
      req.gossipList = list.getGossipList := by
  have hconf := (hclear.reachable.signInv hhonest.toKeyed).conf i hi
  have hchooses : FreshStep net env i w _ :=
    .of_listener hi (.choosePeer hproc hnext) rfl
  obtain ⟨w₁, hstep₁, hnode₁, hcreated₁⟩ := hchooses.exists
  have hsends : FreshStep net env i w₁ _ :=
    .of_listener hi (.sendRequest (congrArg NodeState.procA hnode₁)) rfl
  refine ⟨_, _, .head hstep₁ (.single hsends), ?_, hcreated₁,
    List.mem_filter.mpr ⟨List.mem_cons_self, decide_eq_true rfl⟩, ?_, rfl⟩
  · rw [World.step_nodes_self, hnode₁]
  · rw [hnode₁]
    exact hconf.creator

/-- A request of node `i` has been answered by peer `p`, and the answer taken in: the node
holds all that the peer held. -/
structure Brings (net : Network P PK SK) (env : Env P D T H PK SK Sig) (i p : P)
    (w w' : World P D T H PK SK Sig) : Prop where
  goes : net.Goes env w w'
  node : ∃ core, w'.nodes i = { w.nodes i with core := core, listener := .idle } ∧
    core.conf.peers.r = (w.nodes i).core.conf.peers.r
  other : ∃ core, w'.nodes p = { w.nodes p with core := core, procB := .idle }
  others : ∀ j, j ≠ i → j ≠ p → w'.nodes j = w.nodes j
  created : w'.created = w.created
  holds : held w p ⊆ held w' i

theorem brings (hhonest : net.Honest env) (hclear : net.Clear env w) (hi : i ∈ net.ids)
    {p : P} (hp : p ∈ net.ids) (hne : p ≠ i) (hroom : w.created.length < usizeMax)
    (hidle : (w.nodes i).listener = .idle) (hquiet : (w.nodes p).procB = .idle)
    {req : SyncReq P} (hreq : req ∈ w.requestsTo p) (hfrom : req.fromId = i)
    (hgossip : req.gossipList = (w.nodes i).core.conf.peers.getGossipList) :
    ∃ w', net.Brings env i p w w' := by
  have hsync := (hclear.reachable.syncInv hhonest hclear.collisionFree).nodes p hp
  obtain ⟨w₁, answer, hanswers, hto, hevents, hsnapshot⟩ :=
    answers_sent hhonest hclear hp hroom hquiet hreq
  have hclear₁ := hclear.goes hanswers.alone.goes
  have hnode₁ : w₁.nodes i = w.nodes i := hanswers.alone.nodes_of_ne hne.symm
  obtain ⟨core₁, hother₁, -, -⟩ := hanswers.node
  have hidle₁ : (w₁.nodes i).listener = .idle := hnode₁ ▸ hidle
  have hanswer : answer ∈ w₁.repliesTo i :=
    List.mem_filter.mpr ⟨hanswers.sent, decide_eq_true (hto.trans hfrom)⟩
  have hasked : (w.nodes p).core.store.getEventsForGossip
      (w₁.nodes i).core.conf.peers.getGossipList = .ok answer.reply.events := by
    rw [hnode₁, ← hgossip]
    exact hevents
  have hnew := hclear₁.asked_unheld hhonest hi hidle₁ hsync.store hasked
  obtain ⟨w', hhears⟩ := hears hhonest hi hclear₁ hidle₁ hanswer hnew
    (gossip_nodup hsync.store hevents)
  obtain ⟨core, hnode, hr⟩ := hhears.node
  rw [hnode₁] at hnode hr
  refine ⟨w', ?_⟩
  constructor
  case goes => exact hanswers.alone.goes.trans hhears.alone.goes
  case node => exact ⟨core, hnode, hr⟩
  case other => exact ⟨core₁, (hhears.alone.nodes_of_ne hne).trans hother₁⟩
  case others =>
    intro j hji hjp
    exact (hhears.alone.nodes_of_ne hji).trans (hanswers.alone.nodes_of_ne hjp)
  case created => exact hhears.created.trans hanswers.created
  case holds =>
    have hholds := hhears.holds
    rw [hsnapshot] at hholds
    exact hholds

end Asking

section Pulling

def AtRest (net : Network P PK SK) (w : World P D T H PK SK Sig) : Prop :=
  ∀ j ∈ net.ids, (w.nodes j).Resting

/-- Node `i` has had a round with peer `p`, and has made `e` on top of `o`.  Nothing that
the peer held of its own events before is above `o`. -/
structure Pulls (net : Network P PK SK) (env : Env P D T H PK SK Sig) (i p : P)
    (w w' : World P D T H PK SK Sig) (e o : HashEvent P D T H) : Prop where
  goes : net.Goes env w w'
  rest : net.AtRest w'
  created : w'.created = e :: w.created
  stands : Stands env i p (held w' i) e o
  highest : ∀ v ∈ held w p, v.creator = p → v.height ≤ o.height

variable [Inhabited P] (hhonest : net.Honest env) (hbuilt : net.Built)
  (hn : 2 ≤ net.peers.length)
include hhonest hbuilt hn

/-- A round with the peer whose turn it is, from a state at rest to the next. -/
theorem pulls (hclear : net.Clear env w) (hi : i ∈ net.ids) (hrest : net.AtRest w)
    (hroom : w.created.length < usizeMax) {peer : DAGPeer P PK}
    {list : DAGPeerList P PK}
    (hnext : (w.nodes i).core.conf.peers.nextPeer = .ok (peer, list)) :
    ∃ w' e o, net.Pulls env i peer.id w w' e o ∧
      (w'.nodes i).core.conf.peers.r = list.r := by
  have hconf := (hclear.reachable.signInv hhonest.toKeyed).conf i hi
  obtain ⟨hne, hpeer, -⟩ :=
    (hclear.reachable.turning hbuilt hn hhonest.ids_nodup hi).next
      (hconf.ids.nodup_iff.mpr hhonest.ids_nodup) hconf.creatorId hnext
  have hp : peer.id ∈ net.ids := hconf.ids.mem_iff.mp (List.mem_map_of_mem hpeer)
  -- the request
  obtain ⟨w₁, req, halone, hnode₁, hcreated₁, hreq, hfrom, hgossip⟩ :=
    asks hhonest hclear hi (hrest i hi).procA hnext
  have hclear₁ := hclear.goes halone.goes
  have hkept : ∀ j, j ≠ i → w₁.nodes j = w.nodes j := fun j => halone.nodes_of_ne
  have hidle₁ : (w₁.nodes i).listener = .idle := hnode₁ ▸ (hrest i hi).listener
  have hquiet₁ : (w₁.nodes peer.id).procB = .idle :=
    hkept peer.id hne ▸ (hrest _ hp).procB
  -- what it brings
  obtain ⟨w₂, hbrings⟩ := brings hhonest hclear₁ hi hp hne (hcreated₁ ▸ hroom) hidle₁
    hquiet₁ hreq hfrom (by rw [hgossip, hnode₁]; rfl)
  obtain ⟨core₂, hnode₂, hr₂⟩ := hbrings.node
  rw [hnode₁] at hnode₂ hr₂
  obtain ⟨core', hother₂⟩ := hbrings.other
  have hcreated₂ := hbrings.created.trans hcreated₁
  -- and the event
  obtain ⟨w', e, o, hends, hstands, hhighest⟩ := ends_requested hhonest hbuilt hn
    (hclear₁.goes hbrings.goes) hi (hcreated₂ ▸ hroom)
    (congrArg NodeState.listener hnode₂) (congrArg NodeState.procA hnode₂)
  obtain ⟨core₃, hnode₃, hr₃⟩ := hends.node
  rw [hnode₂] at hnode₃ hr₃
  refine ⟨w', e, o, ⟨?_, ?_, ?_, hstands, ?_⟩, ?_⟩
  · exact halone.goes.trans (hbrings.goes.trans hends.alone.goes)
  · intro j hj
    by_cases hji : j = i
    · subst hji
      rw [hnode₃]
      exact ⟨rfl, rfl, (hrest j hj).procB⟩
    · have hresting : (w₁.nodes j).Resting := hkept j hji ▸ hrest j hj
      rw [hends.alone.nodes_of_ne hji]
      by_cases hjp : j = peer.id
      · subst hjp
        rw [hother₂]
        exact ⟨hresting.procA, hresting.listener, rfl⟩
      · rw [hbrings.others j hji hjp]
        exact hresting
  · exact hends.created.trans (congrArg _ hcreated₂)
  · intro v hv hcreator
    refine hhighest v (hbrings.holds ?_) hcreator
    rw [held, hkept peer.id hne]
    exact hv
  · rw [hnode₃]
    exact hr₃.trans hr₂

end Pulling

section Settling

/-- `procedure_b` comes to the end of what it has in hand. -/
theorem quiets (hhonest : net.Honest env) (hclear : net.Clear env w) (hi : i ∈ net.ids)
    (hroom : w.created.length < usizeMax) :
    ∃ w' core, Alone net env i w w' ∧
      w'.nodes i = { w.nodes i with core := core, procB := .idle } ∧
      w'.created = w.created := by
  have hsent : (∃ w' answer, net.Answers env i w w' answer) →
      ∃ w' core, Alone net env i w w' ∧
        w'.nodes i = { w.nodes i with core := core, procB := .idle } ∧
        w'.created = w.created := by
    rintro ⟨w', answer, hanswers⟩
    obtain ⟨core, hnode, -⟩ := hanswers.node
    exact ⟨w', core, hanswers.alone, hnode, hanswers.created⟩
  cases hproc : (w.nodes i).procB with
  | idle =>
      refine ⟨w, (w.nodes i).core, .refl, ?_, rfl⟩
      rw [← hproc]
  | updated req =>
      obtain ⟨w', answer, hanswers, -⟩ :=
        answers_updated hhonest hclear hi hroom hproc
      exact hsent ⟨w', answer, hanswers⟩
  | collected req events snapshot =>
      obtain ⟨w', answer, hanswers, -⟩ := lists_gossip hhonest hclear hi hproc
      exact hsent ⟨w', answer, hanswers⟩
  | listed req events snapshot gossip =>
      obtain ⟨w', answer, hanswers, -⟩ := forms_answer hhonest hclear hi hproc
      exact hsent ⟨w', answer, hanswers⟩
  | formed req answer =>
      obtain ⟨w', hanswers⟩ := sends_answer hhonest hclear hi hproc
      exact hsent ⟨w', answer, hanswers⟩

variable [Inhabited P] (hhonest : net.Honest env) (hbuilt : net.Built)
  (hn : 2 ≤ net.peers.length)
include hhonest hbuilt hn

/-- `procedure_a` comes to the end of its loop, and makes one event at most. -/
theorem ends (hclear : net.Clear env w) (hi : i ∈ net.ids)
    (hroom : w.created.length < usizeMax) (hidle : (w.nodes i).listener = .idle) :
    ∃ w' new, net.Ends env i w w' new ∧ new.length ≤ 1 := by
  cases hproc : (w.nodes i).procA with
  | start =>
      refine ⟨w, [], ⟨.refl, ⟨(w.nodes i).core, ?_, rfl⟩, rfl⟩, Nat.zero_le _⟩
      rw [← hproc]
  | chosen peer gossip =>
      have hsends : FreshStep net env i w _ := .of_listener hi (.sendRequest hproc) rfl
      obtain ⟨w₁, hstep, hnode, hcreated⟩ := hsends.exists
      have hroom₁ : w₁.created.length < usizeMax := hcreated ▸ hroom
      have hidle₁ : (w₁.nodes i).listener = .idle := by rw [hnode]; exact hidle
      obtain ⟨w', e, o, hends, -⟩ := ends_requested hhonest hbuilt hn
        (hclear.step hstep) hi hroom₁ hidle₁ (congrArg NodeState.procA hnode)
      exact ⟨w', _, hends.head hstep hnode rfl hcreated, Nat.le_refl _⟩
  | requested peer =>
      obtain ⟨w', e, o, hends, -⟩ :=
        ends_requested hhonest hbuilt hn hclear hi hroom hidle hproc
      exact ⟨w', _, hends, Nat.le_refl _⟩
  | numbered peer height =>
      obtain ⟨w', e, o, hends, -⟩ :=
        ends_numbered hhonest hbuilt hn hclear hi hroom hidle hproc
      exact ⟨w', _, hends, Nat.le_refl _⟩
  | paired peer height otherHeight =>
      obtain ⟨w', e, o, hends, -⟩ :=
        ends_paired hhonest hbuilt hn hclear hi hroom hproc
      exact ⟨w', _, hends, Nat.le_refl _⟩
  | parents height selfParent otherParent =>
      obtain ⟨w', e, hends, -⟩ := ends_parents hhonest hbuilt hn hclear hi hroom hproc
      exact ⟨w', _, hends, Nat.le_refl _⟩
  | formed event =>
      obtain ⟨w', hends, -⟩ := ends_formed hhonest hbuilt hn hclear hi hproc
      exact ⟨w', _, hends, Nat.zero_le _⟩

/-- A node with an idle listener comes to rest. -/
theorem settles (hclear : net.Clear env w) (hi : i ∈ net.ids)
    (hroom : w.created.length + 1 < usizeMax)
    (hidle : (w.nodes i).listener = .idle) :
    ∃ w', Alone net env i w w' ∧ (w'.nodes i).Resting ∧
      w'.created.length ≤ w.created.length + 1 := by
  obtain ⟨w₁, new, hends, hle⟩ :=
    ends hhonest hbuilt hn hclear hi (Nat.lt_of_succ_lt hroom) hidle
  obtain ⟨core₁, hnode₁, -⟩ := hends.node
  have hlength : w₁.created.length ≤ w.created.length + 1 := by
    rw [hends.created, List.length_append, Nat.add_comm]
    exact Nat.add_le_add_left hle _
  obtain ⟨w', core, halone, hnode, hcreated⟩ :=
    quiets hhonest (hclear.goes hends.alone.goes) hi (hlength.trans_lt hroom)
  refine ⟨w', hends.alone.trans halone, ?_, hcreated ▸ hlength⟩
  rw [hnode, hnode₁]
  exact ⟨rfl, hidle, rfl⟩

/-- One after the other, all nodes come to rest. -/
theorem all_settle (hclear : net.Clear env w)
    (hroom : w.created.length + net.ids.length < usizeMax)
    (hidle : ∀ j ∈ net.ids, (w.nodes j).listener = .idle) :
    ∃ w', net.Goes env w w' ∧ net.AtRest w' ∧
      w'.created.length ≤ w.created.length + net.ids.length := by
  suffices hsome : ∀ todo : List P, (∀ j ∈ todo, j ∈ net.ids) →
      todo.length ≤ net.ids.length → ∃ w', net.Goes env w w' ∧
        (∀ j ∈ net.ids, (w'.nodes j).listener = .idle) ∧
        (∀ j ∈ todo, (w'.nodes j).Resting) ∧
        w'.created.length ≤ w.created.length + todo.length by
    obtain ⟨w', hgoes, -, hrest, hlength⟩ := hsome net.ids (fun _ => id) (Nat.le_refl _)
    exact ⟨w', hgoes, hrest, hlength⟩
  intro todo
  induction todo with
  | nil => exact fun _ _ => ⟨w, .refl, hidle, fun _ => nofun, Nat.le_refl _⟩
  | cons i todo ih =>
      intro hall hcount
      rw [List.length_cons] at hcount ⊢
      obtain ⟨hi, hall⟩ := List.forall_mem_cons.mp hall
      obtain ⟨w₁, hgoes, hidle₁, hrest, hlength⟩ := ih hall (Nat.le_of_succ_le hcount)
      obtain ⟨w', halone, hresting, hlength'⟩ := settles hhonest hbuilt hn
        (hclear.goes hgoes) hi (by omega) (hidle₁ i hi)
      refine ⟨w', hgoes.trans halone.goes, ?_, ?_, by omega⟩
      · intro j hj
        by_cases hji : j = i
        · exact hji ▸ hresting.listener
        · exact halone.nodes_of_ne hji ▸ hidle₁ j hj
      · intro j hj
        by_cases hji : j = i
        · exact hji ▸ hresting
        · have hj := (List.mem_cons.mp hj).resolve_left hji
          exact halone.nodes_of_ne hji ▸ hrest j hj

end Settling

end Network

end ConsensusDag
