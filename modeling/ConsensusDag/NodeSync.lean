/-
What one node of a network keeps from step to step: its configuration, the
heights of its peer list, its own chain of events, and what its listener and
`procedure_b` have in hand.
-/
import ConsensusDag.History
import ConsensusDag.Signatures

namespace ConsensusDag

open AssocTables CausalOrders

variable {P D T H PK SK Sig : Type}

section Invariant

variable [LinearOrder P]

/-- The event that is made but not stored yet. -/
def ProcA.event? : ProcA P D T H PK Sig → Option (HashEvent P D T H)
  | .formed event => some event.toHashEvent
  | _ => none

/-- What `procedure_a` has in hand when the node's own chain ends at `top`. -/
def ProcA.Prepares (net : Network P PK SK) (env : Env P D T H PK SK Sig)
    (made : HashEvent P D T H → Prop) (i : P) (top : Nat)
    (held : Set (HashEvent P D T H)) : ProcA P D T H PK Sig → Prop
  | .chosen _ gossipList => Asks net held gossipList
  | .numbered _ height => height = top + 1
  | .paired _ height _ => height = top + 1
  | .parents height selfParent _ => height = top + 1 ∧ ∃ v, made v ∧
      v.creator = i ∧ v.height = top ∧ env.eventHash v = .ok selfParent
  | .formed event => event.creator = i ∧ event.height = top + 1
  | _ => True

/-- The node's own chain ends at `top`; its own entry in the peer list is there
too, or one ahead while an event is prepared. -/
structure OwnChain (net : Network P PK SK) (env : Env P D T H PK SK Sig)
    (made : HashEvent P D T H → Prop) (i : P) (top : Nat)
    (peers : List (DAGPeer P PK)) (held : Set (HashEvent P D T H))
    (procA : ProcA P D T H PK Sig) : Prop where
  height : ∀ peer ∈ peers, peer.id = i → peer.height = top + procA.pending
  reaches : Reaches held i top
  made_le : ∀ v, made v → v.creator = i →
    v.height ≤ top ∨ procA.event? = some v
  prepares : procA.Prepares net env made i top held

/-- A reply brings the node it is for up to the store it was read from. -/
def Answer.Sync (net : Network P PK SK) (env : Env P D T H PK SK Sig)
    (held : P → Set (HashEvent P D T H)) (answer : Answer P D T H Sig) : Prop :=
  answer.reply.toId ∈ net.ids ∧ Carries env (held answer.reply.toId)
    answer.reply.events answer.snapshot

/-- What is left of a reply still brings the node up to the snapshot. -/
def Listener.Sync (env : Env P D T H PK SK Sig)
    (held : Set (HashEvent P D T H)) : Listener P D T H Sig → Prop
  | .idle => True
  | .processing answer rest => Carries env held rest answer.snapshot
  | .checked answer event rest =>
      Carries env held (event.toNetEvent :: rest) answer.snapshot
  | .inserted answer event rest => event.toHashEvent ∈ held ∧
      Carries env held rest answer.snapshot

def ProcB.Sync (net : Network P PK SK) (env : Env P D T H PK SK Sig)
    (held : P → Set (HashEvent P D T H)) : ProcB P D T H Sig → Prop
  | .idle => True
  | .updated req => req.fromId ∈ net.ids ∧
      Asks net (held req.fromId) req.gossipList
  | .collected req events snapshot => req.fromId ∈ net.ids ∧
      Carries env (held req.fromId) events snapshot
  | .listed req events snapshot _ => req.fromId ∈ net.ids ∧
      Carries env (held req.fromId) events snapshot
  | .formed _ answer => answer.Sync net env held

/-- The invariant of node `i`; `held j` is what node `j` holds. -/
structure NodeSync (net : Network P PK SK) (env : Env P D T H PK SK Sig)
    (made : HashEvent P D T H → Prop) (held : P → Set (HashEvent P D T H))
    (i : P) (n : NodeState P D T H PK SK Sig) : Prop where
  store : StoreSync n.core.store
  heights : ∀ peer ∈ n.core.conf.peers.peers, peer.id ≠ i →
    Reaches (heldIn n.core.store.event) peer.id peer.height
  own : ∃ top, OwnChain net env made i top n.core.conf.peers.peers
    (heldIn n.core.store.event) n.procA
  listener : n.listener.Sync env (heldIn n.core.store.event)
  procB : n.procB.Sync net env held

variable {net : Network P PK SK} {env : Env P D T H PK SK Sig}
  {made made' : HashEvent P D T H → Prop}
  {held held' : P → Set (HashEvent P D T H)} {own own' : Set (HashEvent P D T H)}
  {i : P} {n n' : NodeState P D T H PK SK Sig}

theorem OwnChain.mono {top : Nat} {peers : List (DAGPeer P PK)}
    {procA : ProcA P D T H PK Sig}
    (h : OwnChain net env made i top peers own procA)
    (hmade : ∀ v, made v → made' v)
    (hback : ∀ v, made' v → v.creator = i → made v) (hsub : own ⊆ own') :
    OwnChain net env made' i top peers own' procA where
  height := h.height
  reaches := h.reaches.mono hsub
  made_le v hv hcreator := h.made_le v (hback v hv hcreator) hcreator
  prepares := by
    have hprepares := h.prepares
    cases procA with
    | chosen peer gossipList => exact Asks.mono hprepares hsub
    | parents height selfParent otherParent =>
        obtain ⟨hheight, v, hv, hat⟩ := hprepares
        exact ⟨hheight, v, hmade v hv, hat⟩
    | start | requested | numbered | paired | formed => exact hprepares

/-- No event of the node is above its own entry. -/
theorem OwnChain.height_le {top : Nat} {peers : List (DAGPeer P PK)}
    {procA : ProcA P D T H PK Sig}
    (h : OwnChain net env made i top peers own procA) (v : HashEvent P D T H)
    (hv : made v) (hcreator : v.creator = i) :
    v.height ≤ top + procA.pending := by
  rcases h.made_le v hv hcreator with hle | hevent
  · exact Nat.le_add_right_of_le hle
  · have hprepares := h.prepares
    cases procA with
    | formed event =>
        cases hevent
        exact Nat.le_of_eq hprepares.2
    | start | chosen | requested | numbered | paired | parents => cases hevent

omit [LinearOrder P] in
theorem Listener.Sync.mono {listener : Listener P D T H Sig}
    (h : listener.Sync env own) (hsub : own ⊆ own') :
    listener.Sync env own' := by
  cases listener with
  | idle => trivial
  | processing answer rest => exact Carries.mono h hsub
  | checked answer event rest => exact Carries.mono h hsub
  | inserted answer event rest => exact ⟨hsub h.1, h.2.mono hsub⟩

omit [LinearOrder P] in
theorem Answer.Sync.mono {answer : Answer P D T H Sig}
    (h : answer.Sync net env held) (hsub : ∀ j, held j ⊆ held' j) :
    answer.Sync net env held' :=
  ⟨h.1, h.2.mono (hsub _)⟩

theorem ProcB.Sync.mono {procB : ProcB P D T H Sig}
    (h : procB.Sync net env held) (hsub : ∀ j, held j ⊆ held' j) :
    procB.Sync net env held' := by
  cases procB with
  | idle => trivial
  | updated req => exact ⟨h.1, h.2.mono (hsub _)⟩
  | collected req events snapshot => exact ⟨h.1, h.2.mono (hsub _)⟩
  | listed req events snapshot gossipList => exact ⟨h.1, h.2.mono (hsub _)⟩
  | formed req answer => exact Answer.Sync.mono h hsub

/-- A node that does not move keeps its invariant when others hold more and no
event of its own is made. -/
theorem NodeSync.mono (h : NodeSync net env made held i n)
    (hmade : ∀ v, made v → made' v)
    (hback : ∀ v, made' v → v.creator = i → made v)
    (hsub : ∀ j, held j ⊆ held' j) : NodeSync net env made' held' i n := by
  obtain ⟨top, hown⟩ := h.own
  exact { h with
    own := ⟨top, hown.mono hmade hback (Set.Subset.refl _)⟩
    procB := h.procB.mono hsub }

/-- With no event in preparation the gossip list asks from where the node
stands. -/
theorem NodeSync.asks (hhonest : net.Honest env)
    (hconf : ConfSync net i n.core.conf) (h : NodeSync net env made held i n)
    (hpending : n.procA.pending = 0) :
    Asks net (heldIn n.core.store.event) n.core.conf.peers.getGossipList := by
  intro id hid
  obtain ⟨top, hown⟩ := h.own
  obtain ⟨peer, hpeer, rfl⟩ := List.mem_map.mp (hconf.ids.mem_iff.mpr hid)
  refine ⟨_, DAGPeerList.lookup_getGossipList
    (hconf.ids.nodup_iff.mpr hhonest.ids_nodup) hpeer, ?_⟩
  by_cases hself : peer.id = i
  · have hheight := hown.height peer hpeer hself
    rw [hpending] at hheight
    rw [hself]
    change Reaches _ i peer.height
    rw [hheight]
    exact hown.reaches
  · exact h.heights peer hpeer hself

end Invariant

section Writes

variable [LinearOrder P] [LinearOrder H] [Inhabited H]
  {net : Network P PK SK} {env : Env P D T H PK SK Sig}
  {made : HashEvent P D T H → Prop} {held : P → Set (HashEvent P D T H)}
  {i : P} {n : NodeState P D T H PK SK Sig} {time : Nat}

omit [LinearOrder H] [Inhabited H] in
/-- `procedure_a` moves on, with neither its event nor what the chain is ahead by
changed. -/
theorem NodeSync.prepare (h : NodeSync net env made held i n)
    {m : NodeState P D T H PK SK Sig} (hstore : m.core.store = n.core.store)
    (hpeers : m.core.conf.peers.peers = n.core.conf.peers.peers)
    (hlistener : m.listener = n.listener) (hprocB : m.procB = n.procB)
    (hpending : m.procA.pending = n.procA.pending)
    (hevent : m.procA.event? = n.procA.event?)
    (hprepares : ∀ top, n.procA.Prepares net env made i top
      (heldIn n.core.store.event) →
      m.procA.Prepares net env made i top (heldIn n.core.store.event)) :
    NodeSync net env made held i m := by
  obtain ⟨top, hown⟩ := h.own
  constructor
  case store => exact hstore ▸ h.store
  case heights =>
    rw [hpeers, hstore]
    exact h.heights
  case own =>
    rw [hpeers, hstore]
    refine ⟨top, ?_, hown.reaches, ?_, hprepares top hown.prepares⟩
    · rw [hpending]
      exact hown.height
    · rw [hevent]
      exact hown.made_le
  case listener =>
    rw [hlistener, hstore]
    exact h.listener
  case procB => exact hprocB ▸ h.procB

omit [LinearOrder H] [Inhabited H] in
/-- An entry of the peer list is replaced.  The node's own entry stays where its
chain ends, the one of another peer where the node holds that peer's events. -/
theorem NodeSync.writePeer (h : NodeSync net env made held i n)
    (hhonest : net.Honest env) (hconf : ConfSync net i n.core.conf) {j : Nat}
    {peer peer' : DAGPeer P PK} {procA : ProcA P D T H PK Sig}
    (hget : n.core.conf.peers.peers[j]? = some peer) (hid : peer'.id = peer.id)
    (hother : peer.id ≠ i →
      Reaches (heldIn n.core.store.event) peer.id peer'.height ∧
        procA.pending = n.procA.pending)
    (hevent : procA.event? = n.procA.event?)
    (hown : ∀ top, OwnChain net env made i top n.core.conf.peers.peers
      (heldIn n.core.store.event) n.procA →
      (peer.id = i → peer'.height = top + procA.pending) ∧
        procA.Prepares net env made i top (heldIn n.core.store.event)) :
    NodeSync net env made held i
      { n with
        core := n.core.setPeers (n.core.conf.peers.writePeer j peer')
        procA := procA } := by
  have hnodup := hconf.ids.nodup_iff.mpr hhonest.ids_nodup
  obtain ⟨top, hchain⟩ := h.own
  obtain ⟨hheight, hprepares⟩ := hown top hchain
  refine { h with heights := ?_, own := ⟨top, ?_, hchain.reaches, ?_, hprepares⟩ }
  · intro q hq hne
    rcases DAGPeerList.mem_writePeer hnodup hget hid hq with rfl | ⟨hmem, -⟩
    · rw [hid]
      exact (hother (hid ▸ hne)).1
    · exact h.heights q hmem hne
  · intro q hq hself
    rcases DAGPeerList.mem_writePeer hnodup hget hid hq with rfl | ⟨hmem, hne⟩
    · exact hheight (hid.symm.trans hself)
    · rw [(hother fun heq => hne (hself.trans heq.symm)).2]
      exact hchain.height q hmem hself
  · rw [hevent]
    exact hchain.made_le

/-- A known event is inserted: the node holds it in addition. -/
theorem NodeSync.insert (hinjective : HashInjective env made)
    (hclock : NodeClock env net.Leaf made time n)
    (h : NodeSync net env made held i n) {event : Event P D T H Sig}
    {core' : DAGcore P D T H PK SK Sig} {procA : ProcA P D T H PK Sig}
    {listener : Listener P D T H Sig}
    (ins : DAGcore.Insertion env n.core event core')
    (hmade : made event.toHashEvent)
    (hown : heldIn core'.store.event =
        insert event.toHashEvent (heldIn n.core.store.event) →
      ∃ top, OwnChain net env made i top n.core.conf.peers.peers
        (heldIn core'.store.event) procA)
    (hlistener : heldIn core'.store.event =
        insert event.toHashEvent (heldIn n.core.store.event) →
      listener.Sync env (heldIn core'.store.event)) :
    NodeSync net env made held i
      { n with core := core', procA := procA, listener := listener } := by
  have hheld := heldIn_insert hinjective hclock.store ins hmade
  constructor
  case store =>
    exact h.store.write (e := ins.stored) hinjective hclock.store ins.event_eq
      ins.flagTable_written hmade ins.hash_eq
  case heights =>
    rw [ins.peers_eq, hheld]
    intro peer hpeer hne
    exact (h.heights peer hpeer hne).mono (Set.subset_insert _ _)
  case own =>
    rw [ins.peers_eq]
    exact hown hheld
  case listener => exact hlistener hheld
  case procB => exact h.procB

omit [LinearOrder H] in
/-- The listener records an event that it has stored for its creator. -/
theorem NodeSync.updatePeer (h : NodeSync net env made held i n)
    (hhonest : net.Honest env) (hconf : ConfSync net i n.core.conf)
    (hclock : NodeClock env net.Leaf made time n) {answer : Answer P D T H Sig}
    {event : Event P D T H Sig} {rest : List (NetEvent P D T H Sig)} {j : Nat}
    {peer : DAGPeer P PK} (hlistener : n.listener = .inserted answer event rest)
    (hget : n.core.conf.peers.peers[j]? = some peer)
    (hid : peer.id = event.creator) :
    NodeSync net env made held i
      { n with
        core := n.core.setPeers (n.core.conf.peers.writePeer j
          (peer.updateLamportTimeAndHeight event.lamportTimestamp event.height))
        listener := .processing answer rest } := by
  have hlisted := h.listener
  rw [hlistener] at hlisted
  obtain ⟨hmem, hcarries⟩ := hlisted
  have hpeer := List.mem_of_getElem? hget
  have hrest : NodeSync net env made held i
      { n with listener := .processing answer rest } :=
    { h with listener := hcarries }
  apply hrest.writePeer hhonest hconf hget
  · rfl
  · -- the height recorded is the old one or that of the event just stored
    intro hne
    refine ⟨?_, rfl⟩
    rw [DAGPeer.updateLamportTimeAndHeight_height]
    rcases max_choice peer.height event.height with hsame | hsame <;> rw [hsame]
    · exact h.heights _ hpeer hne
    · exact ⟨_, hmem, hid.symm, rfl⟩
  · rfl
  · -- an event of the node itself is not above its own entry
    intro top hchain
    refine ⟨fun hself => ?_, hchain.prepares⟩
    have hle := hchain.height_le _ (hclock.store.history.made _ hmem)
      (hid.symm.trans hself)
    rw [← hchain.height _ hpeer hself] at hle ⊢
    rw [DAGPeer.updateLamportTimeAndHeight_height]
    exact Nat.max_eq_left hle

end Writes

section Step

variable [LinearOrder P] [LinearOrder H] [Inhabited H]
  {net : Network P PK SK} {env : Env P D T H PK SK Sig}
  {made made' : HashEvent P D T H → Prop}
  {held held' : P → Set (HashEvent P D T H)} {i : P} {time : Nat}
  {n n' : NodeState P D T H PK SK Sig} {requests : List (SyncReq P)}
  {replies : List (Answer P D T H Sig)} {out : Output P D T H Sig}

/-- The event that a step makes, if any, stands on top of the chain of its
node. -/
theorem NodeSync.created_cases (hconf : ConfSync net i n.core.conf)
    (h : NodeSync net env made held i n)
    (hstep : NodeStep env requests replies n n' out) :
    out.created = [] ∨ ∃ v, out.created = [v] ∧ v.creator = i ∧
      (∀ v', made v' → v'.creator = i → v'.height < v.height) ∧
      ∃ s, made s ∧ env.eventHash s = .ok v.selfParent ∧
        s.creator = v.creator ∧ s.height + 1 = v.height := by
  cases hstep with
  | formEvent hproc _ _ _ hevent =>
      right
      subst hevent
      obtain ⟨top, hown⟩ := h.own
      rw [hproc] at hown
      obtain ⟨rfl, s, hs, hcreator, rfl, hhash⟩ := hown.prepares
      refine ⟨_, rfl, hconf.creator, ?_, s, hs, hhash,
        hcreator.trans hconf.creator.symm, rfl⟩
      intro v' hv' hcreator'
      rcases hown.made_le v' hv' hcreator' with hle | hevent
      · exact Nat.lt_succ_of_le hle
      · cases hevent
  | choosePeer | sendRequest | nextHeight | otherHeight | readParents
  | insertOwn | receiveReply | checkEvent | skipEvent | insertEvent
  | updatePeer | finishReply | receiveRequest | collectEvents | collectFails
  | listGossip | formReply | sendReply | sendFails | addTransaction =>
      exact Or.inl rfl

/-- The step keeps places unique, since nobody else makes events of this node. -/
theorem Lineage.step (hi : i ∈ net.ids) (hlineage : Lineage net env made)
    (hconf : ConfSync net i n.core.conf) (h : NodeSync net env made held i n)
    (hstep : NodeStep env requests replies n n' out)
    (hmade : ∀ v, made v → made' v)
    (hback : ∀ v, made' v → made v ∨ v ∈ out.created)
    (hinjective : HashInjective env made') : Lineage net env made' := by
  rcases h.created_cases hconf hstep with hnil | ⟨v₀, hout, hcreator, habove, hself⟩
  · have hback : ∀ v, made' v → made v := fun v hv => by
      simpa [hnil] using hback v hv
    constructor
    case hash_injective => exact hinjective
    case fork_free =>
      exact fun v v' hv hv' => hlineage.fork_free v v' (hback v hv) (hback v' hv')
    case creator_mem => exact fun v hv => hlineage.creator_mem v (hback v hv)
    case self_parent =>
      intro v hv hleaf
      obtain ⟨s, hs, hat⟩ := hlineage.self_parent v (hback v hv) hleaf
      exact ⟨s, hmade s hs, hat⟩
  · have hback : ∀ v, made' v → made v ∨ v = v₀ := fun v hv => by
      simpa [hout] using hback v hv
    -- an old event is below the new one or has another creator
    have hnew : ∀ v, made v → v.creator = v₀.creator → v.height = v₀.height →
        v = v₀ := fun v hv hsame hheight =>
      absurd hheight (Nat.ne_of_lt (habove v hv (hsame.trans hcreator)))
    constructor
    case hash_injective => exact hinjective
    case fork_free =>
      intro v v' hv hv' hsame hheight
      rcases hback v hv with hv | rfl <;> rcases hback v' hv' with hv' | rfl
      · exact hlineage.fork_free v v' hv hv' hsame hheight
      · exact hnew v hv hsame hheight
      · exact (hnew v' hv' hsame.symm hheight.symm).symm
      · rfl
    case creator_mem =>
      intro v hv
      rcases hback v hv with hv | rfl
      · exact hlineage.creator_mem v hv
      · rwa [hcreator]
    case self_parent =>
      intro v hv hleaf
      rcases hback v hv with hv | rfl
      · obtain ⟨s, hs, hat⟩ := hlineage.self_parent v hv hleaf
        exact ⟨s, hmade s hs, hat⟩
      · obtain ⟨s, hs, hat⟩ := hself
        exact ⟨s, hmade s hs, hat⟩

/-- A node never holds less. -/
theorem NodeClock.heldIn_mono (hclock : NodeClock env net.Leaf made time n)
    (hinjective : HashInjective env made)
    (hstep : NodeStep env requests replies n n' out) :
    heldIn n.core.store.event ⊆ heldIn n'.core.store.event := by
  cases hstep with
  | insertOwn hproc hhash hinsert =>
      obtain ⟨-, ⟨ins⟩⟩ := DAGcore.insertEvent_eq_ok hinsert
      obtain ⟨-, rfl⟩ := Event.eventHash_eq_ok.mp hhash
      have hdated := hclock.procA
      rw [hproc] at hdated
      rw [heldIn_insert hinjective hclock.store ins hdated.made]
      exact Set.subset_insert _ _
  | insertEvent hlistener hinsert =>
      obtain ⟨-, ⟨ins⟩⟩ := DAGcore.insertEvent_eq_ok hinsert
      have hpending := hclock.listener
      rw [hlistener] at hpending
      have hmade := (hpending _ List.mem_cons_self).made
      rw [heldIn_insert hinjective hclock.store ins hmade]
      exact Set.subset_insert _ _
  | formEvent _ htime htx hitx _ =>
      obtain ⟨-, rfl⟩ := getNextLamportTime_eq_ok htime
      cases htx
      cases hitx
      exact Set.Subset.refl _
  | receiveReply | receiveRequest => rw [updateLamportTime_eq]
  | choosePeer | sendRequest | nextHeight | otherHeight | readParents
  | checkEvent | skipEvent | updatePeer | finishReply | collectEvents
  | collectFails | listGossip | formReply | sendReply | sendFails
  | addTransaction =>
      exact Set.Subset.refl _

theorem NodeSync.step (hhonest : net.Honest env) (hi : i ∈ net.ids)
    (hconf : ConfSync net i n.core.conf) (hflow : Flow (Signed net env) n)
    (hlineage : Lineage net env made)
    (hlater : ∀ v, made v → ¬ net.Leaf v → Later env made v)
    (hhistory : ∀ j ∈ net.ids, History net env made (held j))
    (hclock : NodeClock env net.Leaf made time n)
    (hrequests : ∀ req ∈ requests, req.fromId ∈ net.ids ∧
      Asks net (held req.fromId) req.gossipList)
    (hreplies : ∀ answer ∈ replies, answer.reply.toId = i ∧
      answer.Sync net env held)
    (h : NodeSync net env made held i n)
    (hstep : NodeStep env requests replies n n' out)
    (hmade : ∀ v, made v → made' v)
    (hback : ∀ v, made' v → made v ∨ v ∈ out.created)
    (hsub : ∀ j, held j ⊆ held' j)
    (hself : held i = heldIn n.core.store.event)
    (hself' : held' i = heldIn n'.core.store.event) :
    NodeSync net env made' held' i n' ∧
      (∀ req ∈ out.requests, req.fromId ∈ net.ids ∧
        Asks net (held' req.fromId) req.gossipList) ∧
      ∀ answer ∈ out.replies, answer.Sync net env held' := by
  have hlift : ∀ {m}, out.created = [] → NodeSync net env made held i m →
      NodeSync net env made' held' i m := fun hnil hm =>
    hm.mono hmade (fun v hv _ => by simpa [hnil] using hback v hv) hsub
  have hnone : (∀ req ∈ ([] : List (SyncReq P)), req.fromId ∈ net.ids ∧
      Asks net (held' req.fromId) req.gossipList) ∧
      ∀ answer ∈ ([] : List (Answer P D T H Sig)), answer.Sync net env held' :=
    ⟨fun _ hmem => (List.not_mem_nil hmem).elim,
      fun _ hmem => (List.not_mem_nil hmem).elim⟩
  obtain ⟨top, hown⟩ := h.own
  cases hstep with
  | choosePeer hproc hnext =>
      obtain ⟨-, r, rfl⟩ := DAGPeerList.nextPeer_eq_ok hnext
      have hasks := h.asks hhonest hconf (by rw [hproc]; rfl)
      refine ⟨hlift rfl (h.prepare rfl rfl rfl rfl ?_ ?_ fun _ _ => hasks), hnone⟩
      · rw [hproc]
        rfl
      · rw [hproc]
        rfl
  | sendRequest hproc =>
      rw [hproc] at hown
      refine ⟨hlift rfl (h.prepare rfl rfl rfl rfl ?_ ?_ fun _ _ => trivial), ?_,
        hnone.2⟩
      · rw [hproc]
        rfl
      · rw [hproc]
        rfl
      · intro req hmem
        rw [List.mem_singleton.mp hmem]
        change n.core.conf.creator ∈ net.ids ∧ Asks net (held' n.core.conf.creator) _
        rw [hconf.creator, hself']
        exact ⟨hi, hown.prepares⟩
  | nextHeight hproc hfind hget hnext =>
      obtain ⟨rfl, rfl⟩ := DAGPeer.getNextHeight_eq_ok hnext
      have hid := (DAGPeerList.findPeerMut_eq_ok hfind hget).trans hconf.creator
      refine ⟨hlift rfl (h.writePeer hhonest hconf hget rfl
        (fun hne => absurd hid hne) ?_ ?_), hnone⟩
      · rw [hproc]
        rfl
      · intro top hchain
        rw [hproc] at hchain
        have htop := hchain.height _ (List.mem_of_getElem? hget) hid
        exact ⟨fun _ => congrArg (· + 1) htop, congrArg (· + 1) htop⟩
  | otherHeight hproc _ =>
      refine ⟨hlift rfl (h.prepare rfl rfl rfl rfl ?_ ?_ ?_), hnone⟩
      · rw [hproc]
        rfl
      · rw [hproc]
        rfl
      · intro top hprepares
        rw [hproc] at hprepares
        exact hprepares
  | readParents hproc _ hs =>
      have hs := SledStore.getEventOfCreator_eq_ok.mp hs
      obtain ⟨-, hcreator, hheight⟩ := h.store.indexed _ _ _ hs
      refine ⟨hlift rfl (h.prepare rfl rfl rfl rfl ?_ ?_ ?_), hnone⟩
      · rw [hproc]
        rfl
      · rw [hproc]
        rfl
      · intro top hprepares
        rw [hproc] at hprepares
        obtain rfl : _ = top + 1 := hprepares
        exact ⟨rfl, _, (hclock.store.dated _ _ hs).made,
          hcreator.trans hconf.creator, hheight, hclock.store.hashed _ _ hs⟩
  | formEvent hproc htime htx hitx hevent =>
      obtain ⟨rfl, rfl⟩ := getNextLamportTime_eq_ok htime
      cases htx
      cases hitx
      subst hevent
      rw [hproc] at hown
      obtain ⟨rfl, -⟩ := hown.prepares
      refine ⟨{ h with
        own := ⟨top, hown.height, hown.reaches, ?_, hconf.creator, rfl⟩
        procB := h.procB.mono hsub }, hnone⟩
      intro v hv hcreator
      rcases hback v hv with hold | hnew
      · rcases hown.made_le v hold hcreator with hle | hevent
        · exact Or.inl hle
        · cases hevent
      · rw [List.mem_singleton.mp hnew]
        exact Or.inr rfl
  | insertOwn hproc hhash hinsert =>
      obtain ⟨-, ⟨ins⟩⟩ := DAGcore.insertEvent_eq_ok hinsert
      obtain ⟨-, rfl⟩ := Event.eventHash_eq_ok.mp hhash
      have hdated := hclock.procA
      rw [hproc] at hdated hown
      obtain ⟨hcreator, hheight⟩ := hown.prepares
      refine ⟨hlift rfl (h.insert hlineage.hash_injective hclock ins hdated.made
        (fun hheld => ⟨top + 1, hown.height, ?_, ?_, trivial⟩)
        fun hheld => h.listener.mono (hheld ▸ Set.subset_insert _ _)), hnone⟩
      · exact ⟨_, hheld ▸ Set.mem_insert _ _, hcreator, hheight⟩
      · intro v hv hself
        left
        rcases hown.made_le v hv hself with hle | hevent
        · exact Nat.le_succ_of_le hle
        · cases hevent
          exact Nat.le_of_eq hheight
  | receiveReply hlistener hmem =>
      obtain ⟨hto, -, hanswer⟩ := hreplies _ hmem
      rw [hto, hself] at hanswer
      rw [updateLamportTime_eq]
      exact ⟨hlift rfl { h with listener := hanswer }, hnone⟩
  | checkEvent hlistener hevent _ =>
      have hcarries := h.listener
      rw [hlistener] at hcarries
      obtain ⟨rfl, -⟩ := toEvent_eq_ok hevent
      exact ⟨hlift rfl { h with listener := hcarries }, hnone⟩
  | skipEvent hlistener hevent hcheck =>
      have hcarried := hflow.listener
      rw [hlistener] at hcarried
      obtain ⟨rfl, hhash⟩ := toEvent_eq_ok hevent
      have hsigned := hcarried _ List.mem_cons_self _ hhash
      cases (hconf.checkEvent hsigned).symm.trans hcheck
  | insertEvent hlistener hinsert =>
      obtain ⟨-, ⟨ins⟩⟩ := DAGcore.insertEvent_eq_ok hinsert
      have hpending := hclock.listener
      have hcarries := h.listener
      rw [hlistener] at hpending hcarries
      have hmadeEvent := (hpending _ List.mem_cons_self).made
      refine ⟨hlift rfl (h.insert hlineage.hash_injective hclock ins hmadeEvent
        (fun hheld => ⟨top, ?_⟩) fun hheld => ?_), hnone⟩
      · exact hown.mono (fun _ hv => hv) (fun _ hv _ => hv)
          (hheld ▸ Set.subset_insert _ _)
      · have hmem : _ ∈ heldIn _ := hheld ▸ Set.mem_insert _ _
        exact ⟨hmem, hcarries.tail (hheld ▸ Set.subset_insert _ _) hmem⟩
  | updatePeer hlistener hfind hget =>
      have hid := DAGPeerList.findPeerMut_eq_ok hfind hget
      exact ⟨hlift rfl (h.updatePeer hhonest hconf hclock hlistener hget hid), hnone⟩
  | finishReply _ => exact ⟨hlift rfl { h with listener := trivial }, hnone⟩
  | receiveRequest _ hmem =>
      rw [updateLamportTime_eq]
      exact ⟨hlift rfl { h with procB := hrequests _ hmem }, hnone⟩
  | collectEvents hproc hperm hevents =>
      have hasked := h.procB
      rw [hproc] at hasked
      obtain ⟨hfrom, hasks⟩ := hasked
      have hcarries := Carries.collect hlineage hlater hclock.store h.store
        (hhistory _ hfrom) (hasks.perm hperm) hevents
      exact ⟨hlift rfl { h with procB := ⟨hfrom, hcarries⟩ }, hnone⟩
  | collectFails _ _ _ => exact ⟨hlift rfl { h with procB := trivial }, hnone⟩
  | listGossip hproc =>
      have hlisted := h.procB
      rw [hproc] at hlisted
      exact ⟨hlift rfl { h with procB := hlisted }, hnone⟩
  | formReply hproc =>
      have hformed := h.procB
      rw [hproc] at hformed
      exact ⟨hlift rfl { h with procB := hformed }, hnone⟩
  | sendReply hproc hfind =>
      have hanswer := (h.procB).mono hsub
      rw [hproc] at hanswer
      obtain ⟨j, peer, hget, rfl⟩ :=
        DAGPeerList.findPeerWithLamportTimeUpdate_eq_ok hfind
      have hpeer := List.mem_of_getElem? hget
      have hidle : NodeSync net env made held i { n with procB := .idle } :=
        { h with procB := trivial }
      refine ⟨hlift rfl ?_, hnone.1, ?_⟩
      · apply hidle.writePeer hhonest hconf hget
        · rfl
        · exact fun hne => ⟨h.heights peer hpeer hne, rfl⟩
        · rfl
        · exact fun top hchain => ⟨hchain.height peer hpeer, hchain.prepares⟩
      · intro answer hmem
        rw [List.mem_singleton.mp hmem]
        exact hanswer
  | sendFails _ _ => exact ⟨hlift rfl { h with procB := trivial }, hnone⟩
  | addTransaction _ => exact ⟨hlift rfl { h with }, hnone⟩

end Step

end ConsensusDag
