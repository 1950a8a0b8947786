/-
A network of nodes.  Each node runs `procedure_a`, `procedure_b` and the
listener; a step is one section that a thread executes under one lock.  Messages
are kept in lists that only grow: a message that is never picked is dropped, one
picked twice is duplicated, and any order of picking is allowed.
-/
import ConsensusDag.EventDag

namespace ConsensusDag

structure SyncReq (P : Type) where
  fromId : P
  toId : P
  gossipList : GossipList P
  lamportTime : Nat

structure SyncReply (P D T H Sig : Type) where
  fromId : P
  toId : P
  gossipList : GossipList P
  lamportTime : Nat
  events : List (NetEvent P D T H Sig)

/-- A reply together with the events its sender held when it read its store for
it.  No node looks at `snapshot`. -/
structure Answer (P D T H Sig : Type) where
  reply : SyncReply P D T H Sig
  snapshot : SledTree (EventKey P H) (Event P D T H Sig)

/-- How far `procedure_a` is in its loop. -/
inductive ProcA (P D T H PK Sig : Type)
  | start
  | chosen (peer : DAGPeer P PK) (gossipList : GossipList P)
  | requested (peer : DAGPeer P PK)
  | numbered (peer : DAGPeer P PK) (height : Nat)
  | paired (peer : DAGPeer P PK) (height otherHeight : Nat)
  | parents (height : Nat) (selfParent otherParent : H)
  | formed (event : Event P D T H Sig)

/-- How far the listener is with a reply; `rest` is what remains of its
events. -/
inductive Listener (P D T H Sig : Type)
  | idle
  | processing (answer : Answer P D T H Sig) (rest : List (NetEvent P D T H Sig))
  | checked (answer : Answer P D T H Sig) (event : Event P D T H Sig)
      (rest : List (NetEvent P D T H Sig))
  | inserted (answer : Answer P D T H Sig) (event : Event P D T H Sig)
      (rest : List (NetEvent P D T H Sig))

/-- How far `procedure_b` is with a request. -/
inductive ProcB (P D T H Sig : Type)
  | idle
  | updated (req : SyncReq P)
  | collected (req : SyncReq P) (events : List (NetEvent P D T H Sig))
      (snapshot : SledTree (EventKey P H) (Event P D T H Sig))
  | listed (req : SyncReq P) (events : List (NetEvent P D T H Sig))
      (snapshot : SledTree (EventKey P H) (Event P D T H Sig))
      (gossipList : GossipList P)
  | formed (req : SyncReq P) (answer : Answer P D T H Sig)

/-- The events that a listener still has to insert. -/
def Listener.carried {P D T H Sig : Type} :
    Listener P D T H Sig → List (NetEvent P D T H Sig)
  | .idle => []
  | .processing _ rest => rest
  | .checked _ event rest => event.toNetEvent :: rest
  | .inserted _ _ rest => rest

/-- The events that `procedure_b` is about to send. -/
def ProcB.carried {P D T H Sig : Type} :
    ProcB P D T H Sig → List (NetEvent P D T H Sig)
  | .idle => []
  | .updated _ => []
  | .collected _ events _ => events
  | .listed _ events _ _ => events
  | .formed _ answer => answer.reply.events

structure NodeState (P D T H PK SK Sig : Type) where
  core : DAGcore P D T H PK SK Sig
  procA : ProcA P D T H PK Sig
  listener : Listener P D T H Sig
  procB : ProcB P D T H Sig

/-- What a step adds to the messages sent, to the events made and to the
transactions handed in so far. -/
structure Output (P D T H Sig : Type) where
  requests : List (SyncReq P) := []
  replies : List (Answer P D T H Sig) := []
  created : List (HashEvent P D T H) := []
  submitted : List D := []

structure World (P D T H PK SK Sig : Type) where
  nodes : P → NodeState P D T H PK SK Sig
  requests : List (SyncReq P)
  replies : List (Answer P D T H Sig)
  created : List (HashEvent P D T H)

variable {P D T H PK SK Sig : Type} [LinearOrder P] [LinearOrder H]
  [Inhabited H]

def DAGcore.setPeers (core : DAGcore P D T H PK SK Sig)
    (peers : DAGPeerList P PK) : DAGcore P D T H PK SK Sig :=
  { core with conf := { core.conf with peers := peers } }

/-- One step of one thread of a node, which finds `requests` and `replies` in
its inbox.  A call that panics has no step. -/
inductive NodeStep (env : Env P D T H PK SK Sig) (requests : List (SyncReq P))
    (replies : List (Answer P D T H Sig)) :
    NodeState P D T H PK SK Sig → NodeState P D T H PK SK Sig →
    Output P D T H Sig → Prop
  -- `procedure_a`
  | choosePeer {n peer peers} : n.procA = .start →
      n.core.conf.peers.nextPeer = .ok (peer, peers) →
      NodeStep env requests replies n
        { n with
          core := n.core.setPeers peers
          procA := .chosen peer peers.getGossipList } {}
  | sendRequest {n peer gossipList} : n.procA = .chosen peer gossipList →
      NodeStep env requests replies n { n with procA := .requested peer }
        { requests := [⟨n.core.conf.creator, peer.id, gossipList,
            n.core.lamportTime⟩] }
  | nextHeight {n peer i own height own'} : n.procA = .requested peer →
      n.core.conf.peers.findPeerMut n.core.conf.creator = .ok i →
      n.core.conf.peers.peers[i]? = some own →
      own.getNextHeight = .ok (height, own') →
      NodeStep env requests replies n
        { n with
          core := n.core.setPeers (n.core.conf.peers.writePeer i own')
          procA := .numbered peer height } {}
  | otherHeight {n peer height other} : n.procA = .numbered peer height →
      n.core.conf.peers.findPeer peer.id = .ok other →
      NodeStep env requests replies n
        { n with procA := .paired peer height other.height } {}
  | readParents {n peer height otherHeight o s} :
      n.procA = .paired peer height otherHeight →
      n.core.store.getEventOfCreator peer.id otherHeight = .ok o →
      n.core.store.getEventOfCreator n.core.conf.creator (height - 1) = .ok s →
      NodeStep env requests replies n
        { n with procA := .parents height s.hash o.hash } {}
  | formEvent {n height selfParent otherParent time core core₁ core₂}
      {transactions internalTransactions} {event : Event P D T H Sig} :
      n.procA = .parents height selfParent otherParent →
      n.core.getNextLamportTime = .ok (time, core) →
      core.nextTransactions = (transactions, core₁) →
      core₁.nextInternalTransactions = (internalTransactions, core₂) →
      event = Event.new n.core.conf.creator height selfParent otherParent time
        transactions internalTransactions →
      NodeStep env requests replies n
        { n with core := core₂, procA := .formed event }
        { created := [event.toHashEvent] }
  | insertOwn {n event k event' rc core'} : n.procA = .formed event →
      event.eventHash env = .ok (k, event') →
      n.core.insertEvent env event' = (.ok rc, core') →
      NodeStep env requests replies n
        { n with core := core', procA := .start } {}
  -- the listener
  | receiveReply {n answer} : n.listener = .idle → answer ∈ replies →
      NodeStep env requests replies n
        { n with
          core := n.core.updateLamportTime answer.reply.lamportTime
          listener := .processing answer answer.reply.events } {}
  | checkEvent {n answer ev rest event} :
      n.listener = .processing answer (ev :: rest) →
      ev.toEvent env = .ok event → n.core.checkEvent env event = .ok true →
      NodeStep env requests replies n
        { n with listener := .checked answer event rest } {}
  | skipEvent {n answer ev rest event} :
      n.listener = .processing answer (ev :: rest) →
      ev.toEvent env = .ok event → n.core.checkEvent env event = .ok false →
      NodeStep env requests replies n
        { n with listener := .processing answer rest } {}
  | insertEvent {n answer event rest rc core'} :
      n.listener = .checked answer event rest →
      n.core.insertEvent env event = (.ok rc, core') →
      NodeStep env requests replies n
        { n with core := core', listener := .inserted answer event rest } {}
  | updatePeer {n answer event rest i peer} :
      n.listener = .inserted answer event rest →
      n.core.conf.peers.findPeerMut event.creator = .ok i →
      n.core.conf.peers.peers[i]? = some peer →
      NodeStep env requests replies n
        { n with
          core := n.core.setPeers (n.core.conf.peers.writePeer i
            (peer.updateLamportTimeAndHeight event.lamportTimestamp event.height))
          listener := .processing answer rest } {}
  | finishReply {n answer} : n.listener = .processing answer [] →
      NodeStep env requests replies n { n with listener := .idle } {}
  -- `procedure_b`
  | receiveRequest {n req} : n.procB = .idle → req ∈ requests →
      NodeStep env requests replies n
        { n with
          core := n.core.updateLamportTime req.lamportTime
          procB := .updated req } {}
  -- the list is a hash map: its entries come in any order
  | collectEvents {n req gossip events} : n.procB = .updated req →
      gossip.entries.Perm req.gossipList.entries →
      n.core.store.getEventsForGossip gossip = .ok events →
      NodeStep env requests replies n
        { n with procB := .collected req events n.core.store.event } {}
  | collectFails {n req gossip error} : n.procB = .updated req →
      gossip.entries.Perm req.gossipList.entries →
      n.core.store.getEventsForGossip gossip = .error (.err error) →
      NodeStep env requests replies n { n with procB := .idle } {}
  | listGossip {n req events snapshot} :
      n.procB = .collected req events snapshot →
      NodeStep env requests replies n
        { n with
          procB := .listed req events snapshot n.core.conf.peers.getGossipList }
        {}
  | formReply {n req events snapshot gossipList} :
      n.procB = .listed req events snapshot gossipList →
      NodeStep env requests replies n
        { n with
          procB := .formed req ⟨⟨req.toId, req.fromId, gossipList,
            n.core.lamportTime, events⟩, snapshot⟩ } {}
  | sendReply {n req answer peer peers} : n.procB = .formed req answer →
      n.core.conf.peers.findPeerWithLamportTimeUpdate answer.reply.toId
        req.lamportTime = .ok (peer, peers) →
      NodeStep env requests replies n
        { n with core := n.core.setPeers peers, procB := .idle }
        { replies := [answer] }
  | sendFails {n req answer error} : n.procB = .formed req answer →
      n.core.conf.peers.findPeerWithLamportTimeUpdate answer.reply.toId
        req.lamportTime = .error (.err error) →
      NodeStep env requests replies n { n with procB := .idle } {}
  -- the application hands in a transaction
  | addTransaction {n} (data : D) :
      NodeStep env requests replies n
        { n with core := n.core.addTransaction data } { submitted := [data] }

/-- Different events among those made have different hashes. -/
def HashInjective (env : Env P D T H PK SK Sig)
    (made : HashEvent P D T H → Prop) : Prop :=
  ∀ v v' k, made v → made v' → env.eventHash v = .ok k →
    env.eventHash v' = .ok k → v = v'

/-- The requests sent to node `i`, by address. -/
def World.requestsTo (w : World P D T H PK SK Sig) (i : P) :
    List (SyncReq P) :=
  w.requests.filter fun req => req.toId = i

def World.repliesTo (w : World P D T H PK SK Sig) (i : P) :
    List (Answer P D T H Sig) :=
  w.replies.filter fun answer => answer.reply.toId = i

/-- Node `i` has taken a step to `n`. -/
def World.step (w : World P D T H PK SK Sig) (i : P)
    (n : NodeState P D T H PK SK Sig) (out : Output P D T H Sig) :
    World P D T H PK SK Sig :=
  { nodes := Function.update w.nodes i n
    requests := out.requests ++ w.requests
    replies := out.replies ++ w.replies
    created := out.created ++ w.created }

omit [LinearOrder H] [Inhabited H] in
theorem World.step_nodes_self (w : World P D T H PK SK Sig) (i : P)
    (n : NodeState P D T H PK SK Sig) (out : Output P D T H Sig) :
    (w.step i n out).nodes i = n :=
  Function.update_self ..

omit [LinearOrder H] [Inhabited H] in
theorem World.step_nodes_of_ne (w : World P D T H PK SK Sig) {i j : P}
    (hne : j ≠ i) (n : NodeState P D T H PK SK Sig) (out : Output P D T H Sig) :
    (w.step i n out).nodes j = w.nodes j :=
  Function.update_of_ne hne ..

/-- The nodes of a network, by the ids in their common peer list.  A peer list
that nobody has worked with yet has no heights and no times. -/
structure Network (P PK SK : Type) where
  peers : List (DAGPeer P PK)
  conf : P → DAGconfig P PK SK
  fresh : ∀ peer ∈ peers, peer.height = 0 ∧ peer.lamportTime = 0
  creator_eq : ∀ i ∈ peers.map DAGPeer.id, (conf i).creator = i
  peers_perm : ∀ i ∈ peers.map DAGPeer.id, (conf i).peers.peers.Perm peers

namespace Network

variable (net : Network P PK SK)

/-- The peer ids, one node each. -/
def ids : List P := net.peers.map DAGPeer.id

omit [LinearOrder H] [Inhabited H] in
/-- The peers of a new node are those of the network, in another order. -/
theorem peers_setCreator_perm {i : P} (hi : i ∈ net.ids) :
    ((net.conf i).peers.setCreator (net.conf i).creator).peers.Perm net.peers :=
  (DAGPeerList.setCreator_peers_perm _ _).trans (net.peers_perm i hi)

/-- Every node has just been started on an empty store. -/
structure Initial (env : Env P D T H PK SK Sig)
    (w : World P D T H PK SK Sig) : Prop where
  node : ∀ i ∈ net.ids, ∃ core,
    DAGcore.new env (net.conf i) SledStore.empty = .ok core ∧
      w.nodes i = ⟨core, .start, .idle, .idle⟩
  requests : w.requests = []
  replies : w.replies = []
  created : w.created = []

/-- One node takes a step. -/
inductive Step (env : Env P D T H PK SK Sig) :
    World P D T H PK SK Sig → World P D T H PK SK Sig → Prop
  | node {w : World P D T H PK SK Sig} {i : P} {n : NodeState P D T H PK SK Sig}
      {out : Output P D T H Sig} : i ∈ net.ids →
      NodeStep env (w.requestsTo i) (w.repliesTo i) (w.nodes i) n out →
      Step env w (w.step i n out)

/-- The states of a network, over all interleavings. -/
inductive Reachable (env : Env P D T H PK SK Sig) :
    World P D T H PK SK Sig → Prop
  | initial {w : World P D T H PK SK Sig} :
      net.Initial env w → Reachable env w
  | step {w w' : World P D T H PK SK Sig} :
      Reachable env w → net.Step env w w' → Reachable env w'

/-- The leaf events of the common peer list. -/
def Leaf (v : HashEvent P D T H) : Prop :=
  ∃ peer ∈ net.peers, v = leafHashEvent peer

variable {net} in
omit [LinearOrder P] [LinearOrder H] in
theorem not_leaf_of_pos {v : HashEvent P D T H} (h : 0 < v.height) :
    ¬ net.Leaf v := by
  rintro ⟨peer, hpeer, rfl⟩
  have hzero : (leafHashEvent peer : HashEvent P D T H).height = 0 :=
    (net.fresh peer hpeer).1
  omega

/-- The leaf events, and the events made so far. -/
def Made (w : World P D T H PK SK Sig) (v : HashEvent P D T H) : Prop :=
  InGraph net.peers {v | v ∈ w.created} v

/-- No two events of the network have the same hash. -/
def CollisionFree (env : Env P D T H PK SK Sig) (w : World P D T H PK SK Sig) :
    Prop :=
  HashInjective env (net.Made w)

/-- A node signs with the key that the peer list has for it, and what it signs
verifies. -/
structure Keyed (env : Env P D T H PK SK Sig) : Prop where
  pubKey_eq : ∀ peer ∈ net.peers, peer.pubKey = (net.conf peer.id).publicKey
  verify_sign : ∀ i ∈ net.ids, ∀ k signature,
    env.sign k (net.conf i).publicKey (net.conf i).secretKey = .ok signature →
    env.verify signature k (net.conf i).publicKey = .ok true

/-- The ids of the peers are distinct, and their keys match. -/
structure Honest (env : Env P D T H PK SK Sig) : Prop extends net.Keyed env where
  ids_nodup : net.ids.Nodup

end Network

end ConsensusDag
