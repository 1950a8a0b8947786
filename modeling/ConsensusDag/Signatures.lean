/-
Signatures in a network of honest nodes.  A node files its own signature under
its own id, whose key verifies it; so the signatures that an event has gathered
on its way verify at every node.
-/
import ConsensusDag.LamportClock

namespace ConsensusDag

open AssocTables

section Honest

variable {P D T H PK SK Sig : Type} [LinearOrder P] {net : Network P PK SK}
  {env : Env P D T H PK SK Sig}

/-- Signatures by peers over a hash, all of which verify. -/
def SignedBy (net : Network P PK SK) (env : Env P D T H PK SK Sig) (k : H)
    (signatures : Table P Sig) : Prop :=
  ∀ id signature, signatures.lookup id = some signature → id ∈ net.ids ∧
    env.verify signature k (net.conf id).publicKey = .ok true

/-- The signatures of an event are by peers over its hash. -/
def Signed (net : Network P PK SK) (env : Env P D T H PK SK Sig)
    (ev : NetEvent P D T H Sig) : Prop :=
  ∀ k, env.eventHash ev.toHashEvent = .ok k → SignedBy net env k ev.signatures

theorem SignedBy.empty {k : H} : SignedBy net env k ∅ := by
  intro id signature h
  rw [AList.lookup_empty] at h
  cases h

theorem SignedBy.insert {i : P} (hkeyed : net.Keyed env) (hi : i ∈ net.ids)
    {k : H} {signatures : Table P Sig} (h : SignedBy net env k signatures)
    {signature : Sig} (hsign : env.sign k (net.conf i).publicKey
      (net.conf i).secretKey = .ok signature) :
    SignedBy net env k (signatures.insert i signature) := by
  intro id signature' hlookup
  by_cases hid : id = i
  · subst hid
    rw [AList.lookup_insert, Option.some.injEq] at hlookup
    subst hlookup
    exact ⟨hi, hkeyed.verify_sign id hi k signature hsign⟩
  · rw [AList.lookup_insert_ne hid] at hlookup
    exact h id signature' hlookup

section Configuration

/-- The configuration of node `i` still has its keys and the peers of the
network. -/
structure ConfSync (net : Network P PK SK) (i : P) (conf : DAGconfig P PK SK) :
    Prop where
  creator : conf.creator = i
  publicKey : conf.publicKey = (net.conf i).publicKey
  secretKey : conf.secretKey = (net.conf i).secretKey
  ids : (conf.peers.peers.map DAGPeer.id).Perm net.ids
  pubKey : ∀ peer ∈ conf.peers.peers, peer.pubKey = (net.conf peer.id).publicKey
  creatorId : conf.peers.getCreatorId = .ok i

variable {i : P} {conf : DAGconfig P PK SK}

omit [LinearOrder P] in
theorem ConfSync.mono {conf' : DAGconfig P PK SK} (h : ConfSync net i conf)
    (hsame : conf.SameKeys conf') : ConfSync net i conf' := by
  constructor
  case creator => exact hsame.creator.trans h.creator
  case publicKey => exact hsame.publicKey.trans h.publicKey
  case secretKey => exact hsame.secretKey.trans h.secretKey
  case ids =>
    rw [DAGPeerList.map_id_eq, hsame.keys, ← DAGPeerList.map_id_eq]
    exact h.ids
  case pubKey =>
    intro peer hpeer
    have hmem : (peer.id, peer.pubKey) ∈ conf.peers.keys := by
      rw [← hsame.keys]
      exact List.mem_map.mpr ⟨peer, hpeer, rfl⟩
    obtain ⟨peer', hpeer', hpair⟩ := List.mem_map.mp hmem
    rw [Prod.mk.injEq] at hpair
    rw [← hpair.1, ← hpair.2]
    exact h.pubKey peer' hpeer'
  case creatorId => exact hsame.creatorId h.creatorId

/-- A new node finds its own entry, and the keys are those of the network. -/
theorem ConfSync.new [DecidableEq H] [Inhabited H] (hkeyed : net.Keyed env)
    (hi : i ∈ net.ids) {core : DAGcore P D T H PK SK Sig}
    (hnew : DAGcore.new env (net.conf i) SledStore.empty = .ok core) :
    ConfSync net i core.conf := by
  obtain ⟨store, -, rfl⟩ := DAGcore.new_eq_ok hnew
  have hperm := net.peers_setCreator_perm hi
  have hcreator := net.creator_eq i hi
  refine ⟨hcreator, rfl, rfl, hperm.map _, ?_, ?_⟩
  · exact fun peer hpeer => hkeyed.pubKey_eq peer (hperm.mem_iff.mp hpeer)
  · have hmem : (net.conf i).creator ∈
        (net.conf i).peers.peers.map DAGPeer.id := by
      rw [hcreator]
      exact ((net.peers_perm i hi).map _).mem_iff.mpr hi
    exact (DAGPeerList.getCreatorId_setCreator_of_mem hmem).trans
      (congrArg Except.ok hcreator)

variable [LinearOrder H] [Inhabited H]

omit [LinearOrder H] [Inhabited H] in
/-- An event that is signed by peers passes the check. -/
theorem ConfSync.checkEvent {core : DAGcore P D T H PK SK Sig}
    (h : ConfSync net i core.conf) {event : Event P D T H Sig}
    (hsigned : SignedBy net env event.hash event.signatures) :
    core.checkEvent env event = .ok true := by
  apply checkSignatures_eq_true.mpr
  intro entry hentry
  obtain ⟨hid, hverify⟩ :=
    hsigned entry.1 entry.2 (Table.mem_entries_iff_lookup.mp hentry)
  obtain ⟨peer, hfind⟩ := DAGPeerList.findPeer_of_mem (h.ids.mem_iff.mpr hid)
  obtain ⟨hpeer, hpeerId⟩ := DAGPeerList.findPeer_eq_ok hfind
  refine ⟨peer, hfind, ?_⟩
  rw [h.pubKey peer hpeer, hpeerId]
  exact hverify

end Configuration

/-- The keys, the peers and the signatures at one node, step by step. -/
theorem ConfSync.flow_step [LinearOrder H] [Inhabited H] {i : P}
    {requests : List (SyncReq P)} {replies : List (Answer P D T H Sig)}
    {n n' : NodeState P D T H PK SK Sig} {out : Output P D T H Sig}
    (h : ConfSync net i n.core.conf) (hkeyed : net.Keyed env) (hi : i ∈ net.ids)
    (hflow : Flow (Signed net env) n)
    (hstep : NodeStep env requests replies n n' out)
    (hreplies : ∀ answer ∈ replies, ∀ ev ∈ answer.reply.events,
      Signed net env ev) :
    Flow (Signed net env) n' ∧
      ∀ answer ∈ out.replies, ∀ ev ∈ answer.reply.events, Signed net env ev := by
  apply hflow.step hstep hreplies
  · intro event _ hnone k _
    change SignedBy net env k event.signatures
    rw [hnone]
    exact .empty
  · intro event k signature id hsigned hhash hsign hid k' hhash'
    obtain rfl : k = k' := Except.ok.inj (hhash.symm.trans hhash')
    obtain rfl : id = i := Except.ok.inj (hid.symm.trans h.creatorId)
    rw [h.publicKey, h.secretKey] at hsign
    exact (hsigned k hhash).insert hkeyed hi hsign

namespace Network

variable [LinearOrder H] [Inhabited H] {w w' : World P D T H PK SK Sig}

variable (net env w) in
structure SignInv : Prop where
  conf : ∀ i ∈ net.ids, ConfSync net i (w.nodes i).core.conf
  flow : ∀ i ∈ net.ids, Flow (Signed net env) (w.nodes i)
  replies : ∀ answer ∈ w.replies, ∀ ev ∈ answer.reply.events, Signed net env ev

/-- A new node holds events that nobody has signed. -/
theorem new_signed {i : P} {core : DAGcore P D T H PK SK Sig}
    (hnew : DAGcore.new env (net.conf i) SledStore.empty = .ok core)
    {key : EventKey P H} {e : Event P D T H Sig}
    (he : core.store.event key = some e) : Signed net env e.toNetEvent := by
  refine DAGcore.new_induct (I := fun _ store => ∀ key e,
    store.event key = some e → Signed net env e.toNetEvent) hnew ?_ ?_ key e he
  · exact fun _ _ h => (Option.some_ne_none _ h.symm).elim
  · intro done peer store store' _ _ hstore hbody key e he
    obtain ⟨k, -, rfl⟩ := DAGcore.insertLeaf_eq_ok hbody
    rcases SledStore.setEvent_event_cases _ he with rfl | hold
    · exact fun _ _ => .empty
    · exact hstore key e hold

theorem SignInv.step (hkeyed : net.Keyed env) (h : net.SignInv env w)
    (hstep : net.Step env w w') : net.SignInv env w' := by
  cases hstep with
  | @node i n out hi hnode =>
      obtain ⟨hflow, hreplies⟩ := (h.conf i hi).flow_step hkeyed hi (h.flow i hi)
        hnode fun answer hmem => h.replies answer (List.mem_of_mem_filter hmem)
      constructor
      case conf =>
        intro j hj
        by_cases hji : j = i
        · subst hji
          rw [World.step_nodes_self]
          exact (h.conf j hi).mono hnode.sameKeys
        · rw [World.step_nodes_of_ne w hji]
          exact h.conf j hj
      case flow =>
        intro j hj
        by_cases hji : j = i
        · subst hji
          rw [World.step_nodes_self]
          exact hflow
        · rw [World.step_nodes_of_ne w hji]
          exact h.flow j hj
      case replies =>
        intro answer hmem
        rcases List.mem_append.mp hmem with hmem | hmem
        · exact hreplies answer hmem
        · exact h.replies answer hmem

theorem Reachable.signInv (hkeyed : net.Keyed env) (h : net.Reachable env w) :
    net.SignInv env w := by
  induction h with
  | initial h =>
      constructor
      case conf =>
        intro i hi
        obtain ⟨core, hnew, hnode⟩ := h.node i hi
        rw [hnode]
        exact .new hkeyed hi hnew
      case flow =>
        intro i hi
        obtain ⟨core, hnew, hnode⟩ := h.node i hi
        rw [hnode]
        constructor
        case store => exact fun _ _ he => new_signed hnew he
        case formed =>
          intro event hproc
          cases hproc
        case listener => exact fun _ hev => (List.not_mem_nil hev).elim
        case procB => exact fun _ hev => (List.not_mem_nil hev).elim
      case replies =>
        rw [h.replies]
        exact fun _ hmem => (List.not_mem_nil hmem).elim
  | step _ hstep ih => exact ih.step hkeyed hstep

/-- What any node stores, any other node reads back from the event it is sent,
and accepts, whichever frame and signatures the event has got on its way. -/
theorem stored_event_accepted (hkeyed : net.Keyed env) (h : net.Reachable env w)
    {i j : P} (hi : i ∈ net.ids) (hj : j ∈ net.ids) {key : EventKey P H}
    {e : Event P D T H Sig} (he : (w.nodes i).core.store.event key = some e) :
    ∃ e', e.toNetEvent.toEvent env = .ok e' ∧ e'.hash = e.hash ∧
      e'.selfParent = e.selfParent ∧ e'.otherParent = e.otherParent ∧
      e'.creator = e.creator ∧ e'.height = e.height ∧
      e'.transactions = e.transactions ∧ e'.signatures = e.signatures ∧
      (∀ frameNumber signatures, ({ e with
          frameNumber := frameNumber
          signatures := signatures } : Event P D T H Sig).toNetEvent.toEvent env =
        .ok { e' with signatures := signatures }) ∧
      (w.nodes j).core.checkEvent env e' = .ok true := by
  have hhash := (h.clockInv.nodes i hi).store.hashed key e he
  have hsign := h.signInv hkeyed
  refine ⟨{ e with frameNumber := 0 }, toEvent_toNetEvent hhash, rfl, rfl, rfl,
    rfl, rfl, rfl, rfl, fun frameNumber signatures => ?_, ?_⟩
  · exact toEvent_toNetEvent (e := { e with
      frameNumber := frameNumber, signatures := signatures }) hhash
  · apply (hsign.conf j hj).checkEvent
    exact (hsign.flow i hi).store key e he e.hash hhash

end Network

end Honest

namespace TwoPeers

/-- The first peer accepts the event that the second one has made and signed. -/
theorem served_accepted : ∃ e e', served.store.event (.hash 4) = some e ∧
    e.toNetEvent.toEvent env = .ok e' ∧
    (start 0).checkEvent env e' = .ok true := by
  have hkeyed : net.Keyed env := ⟨fun _ _ => rfl, fun _ _ _ _ _ => rfl⟩
  obtain ⟨requests, hserved⟩ := reachable_served
  have hstored : served.store.event (.hash 4) = some { b₁ with
      hash := 4, frameNumber := 1, signatures := AList.insert 1 () ∅ } := rfl
  obtain ⟨e', hevent, -, -, -, -, -, -, -, -, hcheck⟩ :=
    Network.stored_event_accepted hkeyed hserved (i := 1) (j := 0) (by decide)
      (by decide) hstored
  exact ⟨_, e', hstored, hevent, hcheck⟩

end TwoPeers

end ConsensusDag
