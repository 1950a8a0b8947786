/-
Runs that are computed.  A turn names a thread of a node, or its consumer, and the next
section there is taken with the newest message and with the hash maps in their own
order.  What is computed comes with the proof that it is a step.
-/
import ConsensusDag.Consumers
import ConsensusDag.History

namespace ConsensusDag

open Relation

variable {P D T H PK SK Sig : Type}

/-- Who takes the next section at a node. -/
inductive Turn (D : Type)
  | procedureA
  | procedureB
  | listener
  | addTransaction (data : D)
  | consumer (waker : Nat)
deriving DecidableEq, Repr

section Nodes

variable [LinearOrder P] [LinearOrder H]

/-- The node does not hold the event. -/
def Unheld (core : DAGcore P D T H PK SK Sig) (event : Event P D T H Sig) : Prop :=
  event.toHashEvent ∉ heldIn core.store.event

/-- There is nothing under the hash of the event. -/
def DAGcore.lacks (env : Env P D T H PK SK Sig) (core : DAGcore P D T H PK SK Sig)
    (event : Event P D T H Sig) : Bool :=
  match env.eventHash event.toHashEvent with
  | .ok k => (core.store.event (.hash k)).isNone
  | .error _ => false

variable [Inhabited H]

/-- A step that is computed.  What the listener inserts in it was not there. -/
abbrev NodeState.Next (env : Env P D T H PK SK Sig) (requests : List (SyncReq P))
    (replies : List (Answer P D T H Sig)) (n : NodeState P D T H PK SK Sig) :=
  { next : NodeState P D T H PK SK Sig × Output P D T H Sig //
    NodeStep env requests replies n next.1 next.2 ∧
      ∀ event, Takes n next.1 event → n.core.lacks env event = true }

variable {env : Env P D T H PK SK Sig} {requests : List (SyncReq P)}
  {replies : List (Answer P D T H Sig)} {n n' : NodeState P D T H PK SK Sig}

omit [LinearOrder P] [LinearOrder H] [Inhabited H] in
theorem takes_of_listener_eq (h : n'.listener = n.listener) {p : Event P D T H Sig → Prop} :
    ∀ event, Takes n n' event → p event := by
  rintro event ⟨answer, rest, hchecked, hinserted⟩
  cases hchecked.symm.trans (h.symm.trans hinserted)

omit [LinearOrder P] [LinearOrder H] [Inhabited H] in
theorem takes_of_listener_ne
    (h : ∀ answer event rest, n'.listener ≠ .inserted answer event rest)
    {p : Event P D T H Sig → Prop} : ∀ event, Takes n n' event → p event := by
  rintro event ⟨answer, rest, -, hinserted⟩
  exact absurd hinserted (h answer event rest)

namespace NodeState

variable (env requests replies n)

/-- The next section of `procedure_a`. -/
def nextA : Option (n.Next env requests replies) :=
  match hproc : n.procA with
  | .start =>
      match hnext : n.core.conf.peers.nextPeer with
      | .ok (_, _) =>
          some ⟨(_, _), .choosePeer hproc hnext, takes_of_listener_eq rfl⟩
      | .error _ => none
  | .chosen _ _ => some ⟨(_, _), .sendRequest hproc, takes_of_listener_eq rfl⟩
  | .requested _ =>
      match hfind : n.core.conf.peers.findPeerMut n.core.conf.creator with
      | .ok i =>
          match hget : n.core.conf.peers.peers[i]? with
          | some own =>
              match hheight : own.getNextHeight with
              | .ok (_, _) =>
                  some ⟨(_, _), .nextHeight hproc hfind hget hheight,
                    takes_of_listener_eq rfl⟩
              | .error _ => none
          | none => none
      | .error _ => none
  | .numbered peer _ =>
      match hfind : n.core.conf.peers.findPeer peer.id with
      | .ok _ => some ⟨(_, _), .otherHeight hproc hfind, takes_of_listener_eq rfl⟩
      | .error _ => none
  | .paired peer height otherHeight =>
      match ho : n.core.store.getEventOfCreator peer.id otherHeight with
      | .ok _ =>
          match hs : n.core.store.getEventOfCreator n.core.conf.creator (height - 1) with
          | .ok _ => some ⟨(_, _), .readParents hproc ho hs, takes_of_listener_eq rfl⟩
          | .error _ => none
      | .error _ => none
  | .parents _ _ _ =>
      match htime : n.core.getNextLamportTime with
      | .ok (_, _) =>
          some ⟨(_, _), .formEvent hproc htime rfl rfl rfl, takes_of_listener_eq rfl⟩
      | .error _ => none
  | .formed event =>
      match hhash : event.eventHash env with
      | .ok (_, event') =>
          match hinsert : n.core.insertEvent env event' with
          | (.ok _, _) =>
              some ⟨(_, _), .insertOwn hproc hhash hinsert, takes_of_listener_eq rfl⟩
          | (.error _, _) => none
      | .error _ => none

/-- The next section of the listener.  An event that is there already is not
inserted. -/
def nextListener : Option (n.Next env requests replies) :=
  match hlistener : n.listener with
  | .idle =>
      match hreplies : replies with
      | answer :: _ =>
          some ⟨(_, _), .receiveReply hlistener (List.mem_cons_self (a := answer)),
            takes_of_listener_ne (by nofun)⟩
      | [] => none
  | .processing _ [] =>
      some ⟨(_, _), .finishReply hlistener, takes_of_listener_ne (by nofun)⟩
  | .processing _ (ev :: _) =>
      match hevent : ev.toEvent env with
      | .ok event =>
          match hcheck : n.core.checkEvent env event with
          | .ok true =>
              some ⟨(_, _), .checkEvent hlistener hevent hcheck,
                takes_of_listener_ne (by nofun)⟩
          | .ok false =>
              some ⟨(_, _), .skipEvent hlistener hevent hcheck,
                takes_of_listener_ne (by nofun)⟩
          | .error _ => none
      | .error _ => none
  | .checked _ event _ =>
      match hinsert : n.core.insertEvent env event with
      | (.ok _, _) =>
          if hlacks : n.core.lacks env event = true then
            some ⟨(_, _), .insertEvent hlistener hinsert, by
              rintro event' ⟨_, _, hchecked, -⟩
              cases hlistener.symm.trans hchecked
              exact hlacks⟩
          else none
      | (.error _, _) => none
  | .inserted _ event _ =>
      match hfind : n.core.conf.peers.findPeerMut event.creator with
      | .ok i =>
          match hget : n.core.conf.peers.peers[i]? with
          | some _ =>
              some ⟨(_, _), .updatePeer hlistener hfind hget,
                takes_of_listener_ne (by nofun)⟩
          | none => none
      | .error _ => none

/-- The next section of `procedure_b`. -/
def nextB : Option (n.Next env requests replies) :=
  match hproc : n.procB with
  | .idle =>
      match requests with
      | req :: _ =>
          some ⟨(_, _), .receiveRequest hproc (List.mem_cons_self (a := req)),
            takes_of_listener_eq rfl⟩
      | [] => none
  | .updated req =>
      match hevents : n.core.store.getEventsForGossip req.gossipList with
      | .ok _ =>
          some ⟨(_, _), .collectEvents hproc (List.Perm.refl _) hevents,
            takes_of_listener_eq rfl⟩
      | .error (.err _) =>
          some ⟨(_, _), .collectFails hproc (List.Perm.refl _) hevents,
            takes_of_listener_eq rfl⟩
      | .error _ => none
  | .collected _ _ _ => some ⟨(_, _), .listGossip hproc, takes_of_listener_eq rfl⟩
  | .listed _ _ _ _ => some ⟨(_, _), .formReply hproc, takes_of_listener_eq rfl⟩
  | .formed req answer =>
      match hfind : n.core.conf.peers.findPeerWithLamportTimeUpdate answer.reply.toId
          req.lamportTime with
      | .ok (_, _) => some ⟨(_, _), .sendReply hproc hfind, takes_of_listener_eq rfl⟩
      | .error (.err _) =>
          some ⟨(_, _), .sendFails hproc hfind, takes_of_listener_eq rfl⟩
      | .error _ => none

end NodeState

end Nodes

/-- The next section of a call, or the first one of a new call. -/
def Streaming.nextSection (s : Streaming P D T H PK SK Sig) (waker : Nat) :
    Option { next : List (D × P) × Streaming P D T H PK SK Sig //
      PollSection s next.1 next.2 } :=
  let enter (hresting : s.consumer.resting) : Option { next : List (D × P) ×
      Streaming P D T H PK SK Sig // PollSection s next.1 next.2 } :=
    match hshutdown : s.core.shutdown with
    | true => some ⟨(_, _), .quit hresting hshutdown⟩
    | false => some ⟨(_, _), .enter waker hresting hshutdown⟩
  match hconsumer : s.consumer with
  | .idle => enter (hconsumer ▸ trivial)
  | .waiting _ _ _ => enter (hconsumer ▸ trivial)
  | .entered _ =>
      match hlast : s.core.lastFinalisedFrame with
      | none => some ⟨(_, _), .readNone hconsumer hlast⟩
      | some _ => some ⟨(_, _), .readSome hconsumer hlast⟩
  | .looping waker last _ =>
      match hturn : s.core.pollTurn waker last with
      | .panic => none
      | .pending _ => some ⟨(_, _), .pend hconsumer hturn⟩
      | .again _ => some ⟨(_, _), .turn hconsumer hturn⟩
      | .data _ _ => some ⟨(_, _), .emit hconsumer hturn⟩
  | .delivering _ _ => some ⟨(_, _), .deliver hconsumer⟩

namespace Service

variable [LinearOrder P] [LinearOrder H] [Inhabited H] {net : Network P PK SK}
  {env : Env P D T H PK SK Sig}
  {received : DAGcore P D T H PK SK Sig → Event P D T H Sig → Prop}
  {s : Service P D T H PK SK Sig} {i : P}

/-- A node keeps its events under their hashes, so it does not hold an event for whose
hash it has none. -/
theorem Reachable.unheld (h : Reachable net env received s) (hi : i ∈ net.ids)
    {event : Event P D T H Sig}
    (hlacks : (s.world.nodes i).core.lacks env event = true) :
    Unheld (s.world.nodes i).core event := by
  rintro ⟨k, e, he, hsame⟩
  have hkey : env.eventHash e.toHashEvent = .ok k :=
    (h.unpolled.clockInv.nodes i hi).store.eventHash_key he
  rw [DAGcore.lacks, ← hsame, hkey] at hlacks
  simp only [he, Option.isNone_some, Bool.false_eq_true] at hlacks

/-- A node takes a step that is computed. -/
def ofNode (h : Reachable net env Unheld s) (hi : i ∈ net.ids)
    (next : (s.world.nodes i).Next env (s.world.requestsTo i) (s.world.repliesTo i)) :
    { s' : Service P D T H PK SK Sig // Step net env Unheld s s' } :=
  ⟨s.node i next.1.1 next.1.2,
    .node hi next.2.1 fun event htakes => h.unheld hi (next.2.2 event htakes)⟩

/-- The next section at a node. -/
def next (h : Reachable net env Unheld s) (hi : i ∈ net.ids) :
    Turn D → Option { s' : Service P D T H PK SK Sig // Step net env Unheld s s' }
  | .procedureA => ((s.world.nodes i).nextA env _ _).map (ofNode h hi)
  | .procedureB => ((s.world.nodes i).nextB env _ _).map (ofNode h hi)
  | .listener => ((s.world.nodes i).nextListener env _ _).map (ofNode h hi)
  | .addTransaction data =>
      some ⟨_, .node hi (.addTransaction data) (takes_of_listener_eq rfl)⟩
  | .consumer waker => ((s.streaming i).nextSection waker).map fun next =>
      ⟨s.poll i next.1.1 next.1.2, .poll hi next.2⟩

/-- The run that a schedule leads to, unless a turn in it has no section to take. -/
def follow (s : Service P D T H PK SK Sig) (h : Reachable net env Unheld s) :
    List (P × Turn D) → Option { s' : Service P D T H PK SK Sig //
      ReflTransGen (Step net env Unheld) s s' }
  | [] => some ⟨s, .refl⟩
  | (i, turn) :: rest =>
      if hi : i ∈ net.ids then
        match next h hi turn with
        | some s₁ =>
            (follow s₁.1 (h.run (.single s₁.2)) rest).map fun s' =>
              ⟨s'.1, .head s₁.2 s'.2⟩
        | none => none
      else none

end Service

namespace TwoPeers

abbrev Served := Service Nat Nat Unit Nat Unit Unit Unit

/-- Nobody polls, and nothing is delivered. -/
def started : Served :=
  ⟨world (idle 0) (idle 1) [] [] [], fun _ => .idle, fun _ => [], fun _ => []⟩

theorem reachable_started : Service.Reachable net env Unheld started := by
  refine ⟨_, ⟨⟨?_, rfl, rfl, rfl⟩, fun _ _ => rfl, fun _ _ => rfl,
    fun _ _ => rfl, fun _ _ => rfl⟩, .refl⟩
  intro i hi
  have hall : ∀ i ∈ net.ids, i = 0 ∨ i = 1 := by decide
  rcases hall i hi with rfl | rfl
  · exact ⟨start 0, rfl, rfl⟩
  · exact ⟨start 1, rfl, rfl⟩

/-- Peer `i` asks peer `j`, which answers, and takes the one event of the reply. -/
def fetch (i j : Nat) : List (Nat × Turn Nat) :=
  List.replicate 2 (i, .procedureA) ++ List.replicate 5 (j, .procedureB) ++
    List.replicate 5 (i, .listener)

/-- Then it makes an event itself. -/
def exchange (i j : Nat) : List (Nat × Turn Nat) :=
  fetch i j ++ List.replicate 5 (i, .procedureA)

abbrev RunFrom (s : Served) :=
  { s' : Served // ReflTransGen (Service.Step net env Unheld) s s' }

/-- Each peer has made two events, and the first peer has all four. -/
def talked : RunFrom started :=
  (started.follow reachable_started ((1, .addTransaction 7) ::
    List.replicate 7 (1, .procedureA) ++ (0, .addTransaction 8) :: exchange 0 1 ++
    (1, .addTransaction 9) :: exchange 1 0 ++ exchange 0 1)).get (by decide +kernel)

theorem reachable_talked : Service.Reachable net env Unheld talked.1 :=
  reachable_started.run talked.2

/-- With two more events three frames are final at the first peer, where a call hands
out an item.  It has another transaction to send. -/
def polled : RunFrom talked.1 :=
  (talked.1.follow reachable_talked (exchange 1 0 ++ exchange 0 1 ++
    (0, .addTransaction 6) :: List.replicate 6 (0, .consumer 5))).get (by decide +kernel)

theorem reachable_polled : Service.Reachable net env Unheld polled.1 :=
  reachable_talked.run polled.2

/-- The second peer fetches the last event, and polls until it has to wait. -/
def caughtUp : RunFrom polled.1 :=
  (polled.1.follow reachable_polled (fetch 1 0 ++
    List.replicate 13 (1, .consumer 5))).get (by decide +kernel)

theorem reachable_caughtUp : Service.Reachable net env Unheld caughtUp.1 :=
  reachable_polled.run caughtUp.2

theorem collisionFree_of_created {w : World Nat Nat Unit Nat Unit Unit Unit}
    (h : ∀ v ∈ w.created, v ∈ dagEvents) : net.CollisionFree env w := by
  have hsub : ∀ v, net.Made w v → InGraph peers dag.events v := fun v hv =>
    hv.imp id fun hmem => h v hmem
  exact fun v v' k hv hv' => dag.collision_free v v' k (hsub v hv) (hsub v' hv')

theorem collisionFree_talked : net.CollisionFree env talked.1.world :=
  collisionFree_of_created (by decide +kernel)

theorem collisionFree_polled : net.CollisionFree env polled.1.world :=
  collisionFree_of_created (by decide +kernel)

theorem collisionFree_caughtUp : net.CollisionFree env caughtUp.1.world :=
  collisionFree_of_created (by decide +kernel)

end TwoPeers

end ConsensusDag
