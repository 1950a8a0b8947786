/-
Where the events of a node come from.  An event is made by `procedure_a` or
arrives in a reply; from there it goes into the store, and from the store into
the replies of `procedure_b`.
-/
import ConsensusDag.Gossip
import ConsensusDag.Network

namespace ConsensusDag

variable {P D T H PK SK Sig : Type}

/-- One while `procedure_a` has counted an event that is not stored yet. -/
def ProcA.pending : ProcA P D T H PK Sig → Nat
  | .start => 0
  | .chosen _ _ => 0
  | .requested _ => 0
  | .numbered _ _ => 1
  | .paired _ _ _ => 1
  | .parents _ _ _ => 1
  | .formed _ => 1

theorem ProcA.pending_cases (procA : ProcA P D T H PK Sig) :
    procA.pending = 0 ∨ procA.pending = 1 := by
  cases procA with
  | start | chosen | requested => exact Or.inl rfl
  | numbered | paired | parents | formed => exact Or.inr rfl

section Calls

theorem updateLamportTime_eq (core : DAGcore P D T H PK SK Sig) (time : Nat) :
    core.updateLamportTime time =
      { core with lamportTime := max core.lamportTime time } := by
  unfold DAGcore.updateLamportTime
  split
  · rw [Nat.max_eq_right (by omega)]
  · rw [Nat.max_eq_left (by omega)]

theorem getNextLamportTime_eq_ok {core core' : DAGcore P D T H PK SK Sig}
    {time : Nat} (h : core.getNextLamportTime = .ok (time, core')) :
    time = core.lamportTime + 1 ∧
      core' = { core with lamportTime := core.lamportTime + 1 } := by
  unfold DAGcore.getNextLamportTime at h
  simp only [Result.bind_eq_ok] at h
  obtain ⟨next, hnext, h⟩ := h
  cases usizeAdd_eq_ok hnext
  cases h
  exact ⟨rfl, rfl⟩

theorem toEvent_eq_ok [Inhabited H] {env : Env P D T H PK SK Sig}
    {ev : NetEvent P D T H Sig} {event : Event P D T H Sig}
    (h : ev.toEvent env = .ok event) :
    event.toNetEvent = ev ∧ env.eventHash ev.toHashEvent = .ok event.hash := by
  unfold NetEvent.toEvent at h
  simp only [Result.bind_eq_ok, Result.unwrap_eq_ok, Prod.exists] at h
  obtain ⟨k, event', hhash, h⟩ := h
  obtain ⟨hk, rfl⟩ := Event.eventHash_eq_ok.mp hhash
  cases h
  exact ⟨rfl, hk⟩

/-- A stored event that is sent comes back without its frame number. -/
theorem toEvent_toNetEvent [Inhabited H] {env : Env P D T H PK SK Sig}
    {e : Event P D T H Sig} (h : env.eventHash e.toHashEvent = .ok e.hash) :
    e.toNetEvent.toEvent env = .ok { e with frameNumber := 0 } := by
  unfold NetEvent.toEvent
  simp only [Result.bind_eq_ok, Result.unwrap_eq_ok, Prod.exists]
  exact ⟨e.hash, _, Event.eventHash_eq_ok.mpr ⟨h, rfl⟩, rfl⟩

/-- The loop of `check_event` passes over signatures of peers that verify, and
over nothing else. -/
theorem checkSignatures_eq_true [LinearOrder P] {env : Env P D T H PK SK Sig}
    {peers : DAGPeerList P PK} {k : H} {entries : List (Sigma fun _ : P => Sig)} :
    DAGcore.checkSignatures env peers k entries = .ok true ↔
      ∀ entry ∈ entries, ∃ peer, peers.findPeer entry.1 = .ok peer ∧
        env.verify entry.2 k peer.pubKey = .ok true := by
  induction entries with
  | nil => simp [DAGcore.checkSignatures]
  | cons entry rest ih =>
      obtain ⟨signatory, signature⟩ := entry
      simp only [DAGcore.checkSignatures, Result.bind_eq_ok, raise_eq_ok,
        List.forall_mem_cons]
      constructor
      · rintro ⟨peer, hpeer, res, hres, hrest⟩
        split at hrest
        · rename_i htrue
          subst htrue
          exact ⟨⟨peer, hpeer, hres⟩, ih.mp hrest⟩
        · cases hrest
      · rintro ⟨⟨peer, hpeer, hres⟩, hrest⟩
        exact ⟨peer, hpeer, true, hres, ih.mpr hrest⟩

end Calls

variable [LinearOrder P] [LinearOrder H] [Inhabited H]
  {env : Env P D T H PK SK Sig} {requests : List (SyncReq P)}
  {replies : List (Answer P D T H Sig)}
  {n n' : NodeState P D T H PK SK Sig} {out : Output P D T H Sig}

/-- A step leaves the store alone or inserts one event: the one that
`procedure_a` has formed or the one that the listener has checked. -/
theorem NodeStep.store_cases (h : NodeStep env requests replies n n' out) :
    n'.core.store = n.core.store ∨
      (∃ event k, n.procA = .formed event ∧
        Nonempty (DAGcore.Insertion env n.core { event with hash := k } n'.core) ∧
        n'.procA = .start ∧ n'.listener = n.listener) ∨
      ∃ answer event rest, n.listener = .checked answer event rest ∧
        Nonempty (DAGcore.Insertion env n.core event n'.core) ∧
        n'.listener = .inserted answer event rest ∧ n'.procA = n.procA := by
  cases h with
  | insertOwn hproc hhash hinsert =>
      obtain ⟨-, hins⟩ := DAGcore.insertEvent_eq_ok hinsert
      obtain ⟨-, rfl⟩ := Event.eventHash_eq_ok.mp hhash
      exact Or.inr (Or.inl ⟨_, _, hproc, hins, rfl, rfl⟩)
  | insertEvent hlistener hinsert =>
      obtain ⟨-, hins⟩ := DAGcore.insertEvent_eq_ok hinsert
      exact Or.inr (Or.inr ⟨_, _, _, hlistener, hins, rfl, rfl⟩)
  | formEvent _ htime htx hitx _ =>
      obtain ⟨-, rfl⟩ := getNextLamportTime_eq_ok htime
      cases htx
      cases hitx
      exact Or.inl rfl
  | receiveReply | receiveRequest =>
      left
      rw [updateLamportTime_eq]
  | choosePeer | sendRequest | nextHeight | otherHeight | readParents
  | checkEvent | skipEvent | updatePeer | finishReply | collectEvents
  | collectFails | listGossip | formReply | sendReply | sendFails
  | addTransaction => exact Or.inl rfl

/-- Two configurations of one node.  Heights, times, the round-robin number and
the waker may differ. -/
structure DAGconfig.SameKeys (conf conf' : DAGconfig P PK SK) : Prop where
  creator : conf'.creator = conf.creator
  publicKey : conf'.publicKey = conf.publicKey
  secretKey : conf'.secretKey = conf.secretKey
  keys : conf'.peers.keys = conf.peers.keys
  n : conf'.peers.n = conf.peers.n
  current : conf'.peers.current = conf.peers.current

omit [LinearOrder P] in
theorem DAGconfig.SameKeys.refl (conf : DAGconfig P PK SK) :
    conf.SameKeys conf :=
  ⟨rfl, rfl, rfl, rfl, rfl, rfl⟩

omit [LinearOrder P] in
theorem DAGconfig.SameKeys.symm {conf conf' : DAGconfig P PK SK}
    (h : conf.SameKeys conf') : conf'.SameKeys conf :=
  ⟨h.creator.symm, h.publicKey.symm, h.secretKey.symm, h.keys.symm, h.n.symm,
    h.current.symm⟩

omit [LinearOrder P] in
theorem DAGconfig.SameKeys.trans {conf conf' conf'' : DAGconfig P PK SK}
    (h : conf.SameKeys conf') (h' : conf'.SameKeys conf'') :
    conf.SameKeys conf'' :=
  ⟨h'.creator.trans h.creator, h'.publicKey.trans h.publicKey,
    h'.secretKey.trans h.secretKey, h'.keys.trans h.keys, h'.n.trans h.n,
    h'.current.trans h.current⟩

omit [LinearOrder P] in
theorem DAGconfig.SameKeys.writePeer {conf : DAGconfig P PK SK} {j : Nat}
    {peer peer' : DAGPeer P PK} (hget : conf.peers.peers[j]? = some peer)
    (hid : peer'.id = peer.id) (hkey : peer'.pubKey = peer.pubKey) :
    conf.SameKeys { conf with peers := conf.peers.writePeer j peer' } :=
  ⟨rfl, rfl, rfl, DAGPeerList.keys_writePeer hget hid hkey, rfl, rfl⟩

omit [LinearOrder P] in
theorem DAGconfig.SameKeys.creatorId {conf conf' : DAGconfig P PK SK}
    (h : conf.SameKeys conf') {id : P} (hid : conf.peers.getCreatorId = .ok id) :
    conf'.peers.getCreatorId = .ok id := by
  rw [DAGPeerList.getCreatorId_eq_ok, DAGPeerList.map_id_eq] at hid ⊢
  rw [h.keys, h.current]
  exact hid

omit [Inhabited H] in
theorem DAGcore.Insertion.sameKeys {core core' : DAGcore P D T H PK SK Sig}
    {event : Event P D T H Sig} (ins : DAGcore.Insertion env core event core') :
    core.conf.SameKeys core'.conf := by
  obtain ⟨waker, hconf⟩ := ins.conf_eq
  rw [hconf]
  exact ⟨rfl, rfl, rfl, rfl, rfl, rfl⟩

/-- No step changes ids and keys. -/
theorem NodeStep.sameKeys (h : NodeStep env requests replies n n' out) :
    n.core.conf.SameKeys n'.core.conf := by
  cases h with
  | choosePeer _ hnext =>
      obtain ⟨-, r, rfl⟩ := DAGPeerList.nextPeer_eq_ok hnext
      exact ⟨rfl, rfl, rfl, rfl, rfl, rfl⟩
  | nextHeight _ _ hget hnext =>
      obtain ⟨-, rfl⟩ := DAGPeer.getNextHeight_eq_ok hnext
      exact .writePeer hget rfl rfl
  | formEvent _ htime htx hitx _ =>
      obtain ⟨-, rfl⟩ := getNextLamportTime_eq_ok htime
      cases htx
      cases hitx
      exact .refl _
  | insertOwn _ _ hinsert =>
      obtain ⟨-, ⟨ins⟩⟩ := DAGcore.insertEvent_eq_ok hinsert
      exact ins.sameKeys
  | insertEvent _ hinsert =>
      obtain ⟨-, ⟨ins⟩⟩ := DAGcore.insertEvent_eq_ok hinsert
      exact ins.sameKeys
  | updatePeer _ _ hget => exact .writePeer hget rfl rfl
  | sendReply _ hfind =>
      obtain ⟨j, peer, hget, rfl⟩ :=
        DAGPeerList.findPeerWithLamportTimeUpdate_eq_ok hfind
      exact .writePeer hget rfl rfl
  | receiveReply | receiveRequest =>
      rw [updateLamportTime_eq]
      exact .refl _
  | sendRequest | otherHeight | readParents | checkEvent | skipEvent
  | finishReply | collectEvents | collectFails | listGossip | formReply
  | sendFails | addTransaction => exact .refl _

/-- A property of events, wherever the node has them. -/
structure Flow (I : NetEvent P D T H Sig → Prop)
    (n : NodeState P D T H PK SK Sig) : Prop where
  store : ∀ key e, n.core.store.event key = some e → I e.toNetEvent
  formed : ∀ event, n.procA = .formed event → I event.toNetEvent
  listener : ∀ ev ∈ n.listener.carried, I ev
  procB : ∀ ev ∈ n.procB.carried, I ev

variable {I I' : NetEvent P D T H Sig → Prop}

omit [LinearOrder P] [LinearOrder H] [Inhabited H] in
theorem Flow.mono (h : Flow I n) (himp : ∀ ev, I ev → I' ev) : Flow I' n where
  store key e he := himp _ (h.store key e he)
  formed event hproc := himp _ (h.formed event hproc)
  listener ev hev := himp ev (h.listener ev hev)
  procB ev hev := himp ev (h.procB ev hev)

/-- The rule for what events carry: it holds of each event that is made and of
those that arrive, and the node's own signature keeps it. -/
theorem Flow.step (h : Flow I n) (hstep : NodeStep env requests replies n n' out)
    (hreplies : ∀ answer ∈ replies, ∀ ev ∈ answer.reply.events, I ev)
    (hmade : ∀ event : Event P D T H Sig, out.created = [event.toHashEvent] →
      event.signatures = ∅ → I event.toNetEvent)
    (hsign : ∀ (event : Event P D T H Sig) k signature id, I event.toNetEvent →
      env.eventHash event.toHashEvent = .ok k →
      env.sign k n.core.conf.publicKey n.core.conf.secretKey = .ok signature →
      n.core.conf.peers.getCreatorId = .ok id →
      I { event with
        signatures := event.signatures.insert id signature }.toNetEvent) :
    Flow I n' ∧ ∀ answer ∈ out.replies, ∀ ev ∈ answer.reply.events, I ev := by
  have hstore : ∀ {event core'}, DAGcore.Insertion env n.core event core' →
      I event.toNetEvent → ∀ key e, core'.store.event key = some e →
        I e.toNetEvent := by
    intro event core' ins hevent key e he
    rw [ins.event_eq] at he
    rcases SledStore.setEvent_event_cases _ he with rfl | hold
    · exact hsign event _ _ _ hevent ins.hash_eq ins.sign_eq ins.creatorId_eq
    · exact h.store key e hold
  have hnone : ∀ answer ∈ ([] : List (Answer P D T H Sig)),
      ∀ ev ∈ answer.reply.events, I ev := fun _ hmem =>
    (List.not_mem_nil hmem).elim
  cases hstep with
  | choosePeer | sendRequest | nextHeight | otherHeight | readParents =>
      exact ⟨{ h with formed := fun _ hproc => by cases hproc }, hnone⟩
  | formEvent hproc htime htx hitx hevent =>
      obtain ⟨-, rfl⟩ := getNextLamportTime_eq_ok htime
      cases htx
      cases hitx
      subst hevent
      refine ⟨{ h with formed := ?_ }, hnone⟩
      intro event hproc
      cases hproc
      exact hmade _ rfl rfl
  | insertOwn hproc hhash hinsert =>
      obtain ⟨-, ⟨ins⟩⟩ := DAGcore.insertEvent_eq_ok hinsert
      obtain ⟨-, rfl⟩ := Event.eventHash_eq_ok.mp hhash
      have hformed := h.formed _ hproc
      exact ⟨{ h with
        store := hstore ins hformed
        formed := fun _ hproc => by cases hproc }, hnone⟩
  | receiveReply hlistener hmem =>
      rw [updateLamportTime_eq]
      exact ⟨{ h with listener := hreplies _ hmem }, hnone⟩
  | checkEvent hlistener hevent _ =>
      have hcarried := h.listener
      rw [hlistener] at hcarried
      refine ⟨{ h with listener := ?_ }, hnone⟩
      rw [Listener.carried, (toEvent_eq_ok hevent).1]
      exact hcarried
  | skipEvent hlistener _ _ =>
      have hcarried := h.listener
      rw [hlistener] at hcarried
      exact ⟨{ h with
        listener := fun ev hev => hcarried ev (List.mem_cons_of_mem _ hev) },
        hnone⟩
  | insertEvent hlistener hinsert =>
      obtain ⟨-, ⟨ins⟩⟩ := DAGcore.insertEvent_eq_ok hinsert
      have hcarried := h.listener
      rw [hlistener] at hcarried
      exact ⟨{ h with
        store := hstore ins (hcarried _ List.mem_cons_self)
        listener := fun ev hev => hcarried ev (List.mem_cons_of_mem _ hev) },
        hnone⟩
  | updatePeer hlistener _ _ =>
      have hcarried := h.listener
      rw [hlistener] at hcarried
      exact ⟨{ h with listener := hcarried }, hnone⟩
  | finishReply _ =>
      exact ⟨{ h with
        listener := fun _ hev => (List.not_mem_nil hev).elim }, hnone⟩
  | receiveRequest _ _ =>
      rw [updateLamportTime_eq]
      exact ⟨{ h with procB := fun _ hev => (List.not_mem_nil hev).elim }, hnone⟩
  | collectEvents _ _ hevents =>
      refine ⟨{ h with procB := ?_ }, hnone⟩
      intro ev hev
      obtain ⟨creator, g, height, e, -, hchain, rfl⟩ :=
        (SledStore.mem_getEventsForGossip hevents).mp hev
      exact h.store _ e hchain.stored
  | listGossip hproc =>
      have hcarried := h.procB
      rw [hproc] at hcarried
      exact ⟨{ h with procB := hcarried }, hnone⟩
  | formReply hproc =>
      have hcarried := h.procB
      rw [hproc] at hcarried
      exact ⟨{ h with procB := hcarried }, hnone⟩
  | sendReply hproc _ =>
      have hcarried := h.procB
      rw [hproc] at hcarried
      refine ⟨{ h with procB := fun _ hev => (List.not_mem_nil hev).elim }, ?_⟩
      intro answer hmem
      rw [List.mem_singleton.mp hmem]
      exact hcarried
  | collectFails | sendFails =>
      exact ⟨{ h with procB := fun _ hev => (List.not_mem_nil hev).elim }, hnone⟩
  | addTransaction _ => exact ⟨{ h with }, hnone⟩

end ConsensusDag
