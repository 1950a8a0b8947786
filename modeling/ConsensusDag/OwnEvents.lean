/-
The events that `procedure_a` makes.  It chooses another peer by turns, and the
heights that it reads never run ahead of the store, so it finds both parents of
the event it makes.
-/
import ConsensusDag.PeerSelection
import ConsensusDag.SyncDelivery
import ConsensusDag.Unwraps

namespace ConsensusDag

open Relation

variable {P D T H PK SK Sig : Type} [LinearOrder P]

section RoundRobin

/-- The round-robin number lies between one and half the size of the list. -/
structure DAGPeerList.Turning (list : DAGPeerList P PK) : Prop where
  n_eq : list.n = list.peers.length
  pos : 1 ≤ list.r
  le : list.r ≤ list.n / 2

variable {list list' : DAGPeerList P PK}

omit [LinearOrder P] in
theorem DAGPeerList.Turning.nextPeer_ok (h : list.Turning) :
    ∃ peer list', list.nextPeer = .ok (peer, list') := by
  have hpos := h.pos
  have hle := h.le
  obtain ⟨peer, -, hnext⟩ := DAGPeerList.nextPeer_eq (by omega) h.n_eq
  exact ⟨peer, _, hnext⟩

omit [LinearOrder P] in
/-- The next peer is never the node itself. -/
theorem DAGPeerList.Turning.next (h : list.Turning) {own : P}
    (hnodup : (list.peers.map DAGPeer.id).Nodup)
    (hown : list.getCreatorId = .ok own) {peer : DAGPeer P PK}
    (hnext : list.nextPeer = .ok (peer, list')) :
    peer.id ≠ own ∧ peer ∈ list.peers ∧ list'.Turning := by
  have hpos := h.pos
  have hle := h.le
  obtain ⟨peer', hget, hcall⟩ := DAGPeerList.nextPeer_eq (by omega) h.n_eq
  rw [hcall] at hnext
  cases hnext
  have hne := DAGPeerList.id_ne_of_offset h.n_eq hnodup
    (DAGPeerList.getCreatorId_eq_ok.mp hown) hpos (by omega) hget
  obtain ⟨hpos', hle'⟩ := HalvingRounds.halve_bounds hpos hle
  exact ⟨hne, List.mem_of_getElem? hget, h.n_eq, hpos', hle'⟩

/-- A list of two peers or more that was filled by `add`. -/
theorem turning_of_add [Inhabited P] {added : List (DAGPeer P PK)} (creator : P)
    (hlist : list = added.foldl DAGPeerList.add DAGPeerList.new)
    (hn : 2 ≤ list.peers.length) : (list.setCreator creator).Turning := by
  obtain ⟨hperm, hlength, hr⟩ := DAGPeerList.foldl_add added
  rw [← hlist] at hperm hlength hr
  have hsame := (DAGPeerList.setCreator_peers_perm list creator).length_eq
  have hcount := hperm.length_eq
  rw [Nat.shiftRight_one] at hr
  refine ⟨?_, ?_, ?_⟩
  · exact hlength.trans (hcount.symm.trans hsame.symm)
  · change 1 ≤ list.r
    omega
  · change list.r ≤ list.n / 2
    omega

variable [LinearOrder H] [Inhabited H] {env : Env P D T H PK SK Sig}
  {requests : List (SyncReq P)} {replies : List (Answer P D T H Sig)}
  {n n' : NodeState P D T H PK SK Sig} {out : Output P D T H Sig}

/-- Only the choice of a peer moves the round-robin number. -/
theorem NodeStep.r_cases (h : NodeStep env requests replies n n' out) :
    n'.core.conf.peers.r = n.core.conf.peers.r ∨
      ∃ peer, n.core.conf.peers.nextPeer = .ok (peer, n'.core.conf.peers) := by
  cases h with
  | choosePeer _ hnext => exact Or.inr ⟨_, hnext⟩
  | formEvent _ htime htx hitx _ =>
      obtain ⟨-, rfl⟩ := getNextLamportTime_eq_ok htime
      cases htx
      cases hitx
      exact Or.inl rfl
  | insertOwn _ _ hinsert =>
      obtain ⟨-, ⟨ins⟩⟩ := DAGcore.insertEvent_eq_ok hinsert
      exact Or.inl (by rw [ins.peers_eq])
  | insertEvent _ hinsert =>
      obtain ⟨-, ⟨ins⟩⟩ := DAGcore.insertEvent_eq_ok hinsert
      exact Or.inl (by rw [ins.peers_eq])
  | sendReply _ hfind =>
      obtain ⟨j, peer, -, rfl⟩ :=
        DAGPeerList.findPeerWithLamportTimeUpdate_eq_ok hfind
      exact Or.inl rfl
  | receiveReply | receiveRequest =>
      left
      rw [updateLamportTime_eq]
  | sendRequest | nextHeight | otherHeight | readParents | checkEvent
  | skipEvent | updatePeer | finishReply | collectEvents | collectFails
  | listGossip | formReply | sendFails | addTransaction => exact Or.inl rfl

theorem SoloRun.turning {conf : DAGconfig P PK SK} {submitted : List D}
    {received made : DAGcore P D T H PK SK Sig → Event P D T H Sig → Prop}
    (h : SoloRun env conf received made submitted n)
    (hmem : conf.creator ∈ conf.peers.peers.map DAGPeer.id)
    (hnodup : (conf.peers.peers.map DAGPeer.id).Nodup)
    (hstart : (conf.peers.setCreator conf.creator).Turning) :
    n.core.conf.peers.Turning := by
  induction h with
  | start hnew =>
      obtain ⟨store, -, rfl⟩ := DAGcore.new_eq_ok hnew
      exact hstart
  | step _ _ hrun hstep _ _ ih =>
      have hsame := hstep.sameKeys
      rcases hstep.r_cases with hr | ⟨peer, hnext⟩
      · refine ⟨?_, ?_, ?_⟩
        · rw [hsame.n, ih.n_eq]
          have hlength := congrArg List.length hsame.keys
          rw [DAGPeerList.keys, DAGPeerList.keys, List.length_map,
            List.length_map] at hlength
          exact hlength.symm
        · rw [hr]
          exact ih.pos
        · rw [hr, hsame.n]
          exact ih.le
      · have hids := hrun.ids_perm.nodup_iff.mpr hnodup
        exact (ih.next hids (hrun.creatorId_eq hmem) hnext).2.2

end RoundRobin

section Rounds

variable [LinearOrder H] [Inhabited H] {net : Network P PK SK}
  {env : Env P D T H PK SK Sig} {made : HashEvent P D T H → Prop}
  {held : P → Set (HashEvent P D T H)} {own own' : Set (HashEvent P D T H)}
  {i p : P} {time : Nat} {n n' : NodeState P D T H PK SK Sig}
  {requests : List (SyncReq P)} {replies : List (Answer P D T H Sig)}
  {out : Output P D T H Sig}

/-- What two hashes stand for: the event of node `i` of one height less, and an
event of peer `p`. -/
structure Parents (env : Env P D T H PK SK Sig) (own : Set (HashEvent P D T H))
    (i p : P) (height : Nat) (selfParent otherParent : H) : Prop where
  self : ∃ s ∈ own, env.eventHash s = .ok selfParent ∧ s.creator = i ∧
    s.height + 1 = height
  other : ∃ o ∈ own, env.eventHash o = .ok otherParent ∧ o.creator = p

/-- `procedure_a` of node `i` is in a round in which it has chosen peer `p`. -/
def ProcA.Chose (env : Env P D T H PK SK Sig) (own : Set (HashEvent P D T H))
    (i p : P) : ProcA P D T H PK Sig → Prop
  | .start => False
  | .chosen peer _ => peer.id = p
  | .requested peer => peer.id = p
  | .numbered peer _ => peer.id = p
  | .paired peer _ otherHeight => peer.id = p ∧ Reaches own p otherHeight
  | .parents height selfParent otherParent =>
      Parents env own i p height selfParent otherParent
  | .formed event =>
      Parents env own i p event.height event.selfParent event.otherParent

omit [LinearOrder P] [LinearOrder H] [Inhabited H] in
theorem Parents.mono {height : Nat} {selfParent otherParent : H}
    (h : Parents env own i p height selfParent otherParent) (hsub : own ⊆ own') :
    Parents env own' i p height selfParent otherParent := by
  obtain ⟨⟨s, hs, hself⟩, o, ho, hother⟩ := h
  exact ⟨⟨s, hsub hs, hself⟩, o, hsub ho, hother⟩

omit [LinearOrder P] [LinearOrder H] [Inhabited H] in
theorem ProcA.Chose.mono {procA : ProcA P D T H PK Sig}
    (h : procA.Chose env own i p) (hsub : own ⊆ own') :
    procA.Chose env own' i p := by
  cases procA with
  | paired peer height otherHeight => exact ⟨h.1, h.2.mono hsub⟩
  | parents height selfParent otherParent => exact Parents.mono h hsub
  | formed event => exact Parents.mono h hsub
  | start | chosen | requested | numbered => exact h

/-- A round goes on with the peer it has begun with, up to its end. -/
theorem ProcA.Chose.step
    (h : n.procA.Chose env (heldIn n.core.store.event) i p) (hne : p ≠ i)
    (hconf : ConfSync net i n.core.conf)
    (hclock : NodeClock env net.Leaf made time n)
    (hinjective : HashInjective env made)
    (hsync : NodeSync net env made held i n)
    (hstep : NodeStep env requests replies n n' out) :
    n'.procA = .start ∨ n'.procA.Chose env (heldIn n'.core.store.event) i p := by
  have hkeep : n'.procA = n.procA →
      n'.procA.Chose env (heldIn n'.core.store.event) i p := by
    intro hproc
    rw [hproc]
    exact h.mono (hclock.heldIn_mono hinjective hstep)
  cases hstep with
  | choosePeer hproc _ =>
      rw [hproc] at h
      exact h.elim
  | sendRequest hproc =>
      rw [hproc] at h
      exact Or.inr h
  | nextHeight hproc _ _ _ =>
      rw [hproc] at h
      exact Or.inr h
  | otherHeight hproc hfind =>
      rw [hproc] at h
      obtain ⟨hmem, hid⟩ := DAGPeerList.findPeer_eq_ok hfind
      have hid := hid.trans h
      have hreaches := hsync.heights _ hmem (hid ▸ hne)
      exact Or.inr ⟨h, hid ▸ hreaches⟩
  | readParents hproc ho hs =>
      rw [hproc] at h
      obtain ⟨rfl, -⟩ := h
      obtain ⟨top, hown⟩ := hsync.own
      rw [hproc] at hown
      obtain rfl : _ = top + 1 := hown.prepares
      have ho := SledStore.getEventOfCreator_eq_ok.mp ho
      have hs := SledStore.getEventOfCreator_eq_ok.mp hs
      obtain ⟨hoheld, hocreator, -⟩ := hsync.store.indexed _ _ _ ho
      obtain ⟨hsheld, hscreator, hsheight⟩ := hsync.store.indexed _ _ _ hs
      right
      constructor
      · exact ⟨_, hsheld, hclock.store.hashed _ _ hs,
          hscreator.trans hconf.creator, congrArg (· + 1) hsheight⟩
      · exact ⟨_, hoheld, hclock.store.hashed _ _ ho, hocreator⟩
  | formEvent hproc htime htx hitx hevent =>
      obtain ⟨-, rfl⟩ := getNextLamportTime_eq_ok htime
      cases htx
      cases hitx
      subst hevent
      rw [hproc] at h
      exact Or.inr h
  | insertOwn => exact Or.inl rfl
  | receiveReply | checkEvent | skipEvent | insertEvent | updatePeer
  | finishReply | receiveRequest | collectEvents | collectFails | listGossip
  | formReply | sendReply | sendFails | addTransaction => exact Or.inr (hkeep rfl)

/-- A round begins with the choice of another peer. -/
theorem chose_of_start (hproc : n.procA = .start) (hturning : n.core.conf.peers.Turning)
    (hnodup : net.ids.Nodup) (hconf : ConfSync net i n.core.conf)
    (hstep : NodeStep env requests replies n n' out) :
    n'.procA = .start ∨ ∃ p ∈ net.ids, p ≠ i ∧
      n'.procA.Chose env (heldIn n'.core.store.event) i p := by
  cases hstep with
  | choosePeer _ hnext =>
      obtain ⟨hne, hmem, -⟩ := hturning.next (hconf.ids.nodup_iff.mpr hnodup)
        hconf.creatorId hnext
      exact Or.inr ⟨_, hconf.ids.mem_iff.mp (List.mem_map_of_mem hmem), hne, rfl⟩
  | sendRequest h => cases hproc.symm.trans h
  | nextHeight h => cases hproc.symm.trans h
  | otherHeight h => cases hproc.symm.trans h
  | readParents h => cases hproc.symm.trans h
  | formEvent h => cases hproc.symm.trans h
  | insertOwn h => cases hproc.symm.trans h
  | receiveReply | checkEvent | skipEvent | insertEvent | updatePeer
  | finishReply | receiveRequest | collectEvents | collectFails | listGossip
  | formReply | sendReply | sendFails | addTransaction => exact Or.inl hproc

end Rounds

namespace Network

variable [LinearOrder H] [Inhabited H] {net : Network P PK SK}
  {env : Env P D T H PK SK Sig} {w w' : World P D T H PK SK Sig} {i : P}

/-- Each node gets its peers through `add`, one by one. -/
def Built [Inhabited P] (net : Network P PK SK) : Prop :=
  ∀ i ∈ net.ids, ∃ added : List (DAGPeer P PK),
    (net.conf i).peers = added.foldl DAGPeerList.add DAGPeerList.new

/-- What a node hashes and signs, it can hash and sign. -/
structure Computes (net : Network P PK SK) (env : Env P D T H PK SK Sig)
    (w : World P D T H PK SK Sig) : Prop where
  hashes : ∀ v, net.Made w v → ∃ k, env.eventHash v = .ok k
  signs : ∀ i ∈ net.ids, ∀ k, ∃ signature,
    env.sign k (net.conf i).publicKey (net.conf i).secretKey = .ok signature

/-- A step of the network in which `procedure_a` of node `i` does not come back
to the start of its loop. -/
def InRound (net : Network P PK SK) (env : Env P D T H PK SK Sig) (i : P)
    (w w' : World P D T H PK SK Sig) : Prop :=
  net.Step env w w' ∧ (w'.nodes i).procA ≠ .start

theorem Reachable.soloRun (h : net.Reachable env w) (hi : i ∈ net.ids) :
    ∃ submitted,
      SoloRun env (net.conf i) anyEvent anyEvent submitted (w.nodes i) := by
  induction h with
  | initial h =>
      obtain ⟨core, hnew, hnode⟩ := h.node i hi
      rw [hnode]
      exact ⟨[], .start hnew⟩
  | step _ hstep ih =>
      obtain ⟨submitted, hrun⟩ := ih
      cases hstep with
      | @node j n out _ hnode =>
          by_cases hij : i = j
          · subst hij
            rw [World.step_nodes_self]
            exact ⟨_, .step _ _ hrun hnode (fun _ _ => trivial) fun _ _ => trivial⟩
          · rw [World.step_nodes_of_ne _ hij]
            exact ⟨_, hrun⟩

theorem Reachable.turning [Inhabited P] (h : net.Reachable env w)
    (hbuilt : net.Built) (hn : 2 ≤ net.peers.length) (hnodup : net.ids.Nodup)
    (hi : i ∈ net.ids) : (w.nodes i).core.conf.peers.Turning := by
  obtain ⟨submitted, hrun⟩ := h.soloRun hi
  obtain ⟨added, hadded⟩ := hbuilt i hi
  have hperm := net.peers_perm i hi
  have hids := hperm.map DAGPeer.id
  apply hrun.turning
  · rw [net.creator_eq i hi]
    exact hids.mem_iff.mpr hi
  · exact hids.nodup_iff.mpr hnodup
  · exact turning_of_add _ hadded (hperm.length_eq.symm ▸ hn)

/-- A round stays with its peer, whatever the other threads and nodes do. -/
theorem Step.chose {p : P} (hstep : net.Step env w w') (hhonest : net.Honest env)
    (h : net.Reachable env w)
    (hfree : net.CollisionFree env w) (hi : i ∈ net.ids) (hne : p ≠ i)
    (hchose : (w.nodes i).procA.Chose env (held w i) i p) :
    (w'.nodes i).procA = .start ∨
      (w'.nodes i).procA.Chose env (held w' i) i p := by
  have hsync := (h.syncInv hhonest hfree).nodes i hi
  cases hstep with
  | @node j n out _ hnode =>
      unfold held
      by_cases hij : i = j
      · subst hij
        rw [World.step_nodes_self]
        exact ProcA.Chose.step hchose hne ((h.signInv hhonest.toKeyed).conf i hi)
          (h.clockInv.nodes i hi) hfree hsync hnode
      · rw [World.step_nodes_of_ne _ hij]
        exact Or.inr hchose

/-- Outside the start of its loop, `procedure_a` works with another node. -/
theorem Reachable.chose [Inhabited P] (hhonest : net.Honest env)
    (hbuilt : net.Built) (hn : 2 ≤ net.peers.length) (h : net.Reachable env w)
    (hfree : net.CollisionFree env w) (hi : i ∈ net.ids) :
    (w.nodes i).procA = .start ∨ ∃ p ∈ net.ids, p ≠ i ∧
      (w.nodes i).procA.Chose env (held w i) i p := by
  induction h with
  | initial h =>
      obtain ⟨core, -, hnode⟩ := h.node i hi
      rw [hnode]
      exact Or.inl rfl
  | @step w w' h hstep ih =>
      have hfree' := hfree.of_step hstep
      rcases ih hfree' with hstart | ⟨p, hp, hne, hchose⟩
      · cases hstep with
        | @node j n out _ hnode =>
            unfold held
            by_cases hij : i = j
            · subst hij
              rw [World.step_nodes_self]
              exact chose_of_start hstart
                (h.turning hbuilt hn hhonest.ids_nodup hi) hhonest.ids_nodup
                ((h.signInv hhonest.toKeyed).conf i hi) hnode
            · rw [World.step_nodes_of_ne _ hij]
              exact Or.inl hstart
      · refine (hstep.chose hhonest h hfree' hi hne hchose).imp_right ?_
        exact fun hchose' => ⟨p, hp, hne, hchose'⟩

/-- Through a whole round the node goes on with the peer it has chosen. -/
theorem chose_of_round [Inhabited P] {w₀ : World P D T H PK SK Sig}
    {peer : DAGPeer P PK} {gossipList : GossipList P} (hhonest : net.Honest env)
    (hbuilt : net.Built) (hn : 2 ≤ net.peers.length)
    (h₀ : net.Reachable env w₀) (hi : i ∈ net.ids)
    (hchosen : (w₀.nodes i).procA = .chosen peer gossipList)
    (hround : ReflTransGen (InRound net env i) w₀ w)
    (hfree : net.CollisionFree env w) :
    net.Reachable env w ∧ peer.id ∈ net.ids ∧ peer.id ≠ i ∧
      (w.nodes i).procA.Chose env (held w i) i peer.id := by
  induction hround with
  | refl =>
      have hchose := h₀.chose hhonest hbuilt hn hfree hi
      rw [hchosen] at hchose
      obtain ⟨p, hp, hne, rfl⟩ := hchose.resolve_left nofun
      rw [hchosen]
      exact ⟨h₀, hp, hne, rfl⟩
  | tail _ hstep ih =>
      obtain ⟨hstep, hgoes⟩ := hstep
      have hfree' := hfree.of_step hstep
      obtain ⟨h, hp, hne, hchose⟩ := ih hfree'
      refine ⟨.step h hstep, hp, hne, ?_⟩
      exact (hstep.chose hhonest h hfree' hi hne hchose).resolve_left hgoes

/-- What `procedure_a` of node `i` makes in a round with peer `p`: the event
stands on the node's last one and on one of the peer's, and it can be inserted. -/
structure WellFormed (env : Env P D T H PK SK Sig) (i p : P)
    (core : DAGcore P D T H PK SK Sig) (event : Event P D T H Sig) : Prop where
  creator : event.creator = i
  self_parent : ∃ s, core.store.event (.hash event.selfParent) = some s ∧
    s.creator = i ∧ s.height + 1 = event.height
  other_parent : ∃ o, core.store.event (.hash event.otherParent) = some o ∧
    o.creator = p
  inserts : ∃ k event' core', event.eventHash env = .ok (k, event') ∧
    core.insertEvent env event' = (.ok true, core')

omit [LinearOrder H] [Inhabited H] in
/-- The two reads of the parents go through. -/
theorem reads_parents {n : NodeState P D T H PK SK Sig} {p : P}
    {peer : DAGPeer P PK} {height otherHeight : Nat}
    {made : HashEvent P D T H → Prop} {held : P → Set (HashEvent P D T H)}
    (hconf : ConfSync net i n.core.conf) (hsync : NodeSync net env made held i n)
    (hproc : n.procA = .paired peer height otherHeight)
    (hchose : n.procA.Chose env (heldIn n.core.store.event) i p) :
    (∃ o, n.core.store.getEventOfCreator peer.id otherHeight = .ok o) ∧
      ∃ s, n.core.store.getEventOfCreator n.core.conf.creator (height - 1) =
        .ok s := by
  rw [hproc] at hchose
  obtain ⟨rfl, hother⟩ := hchose
  obtain ⟨top, hown⟩ := hsync.own
  rw [hproc] at hown
  obtain rfl : height = top + 1 := hown.prepares
  obtain ⟨o, ho⟩ := hsync.store.reaches_iff.mp hother
  obtain ⟨s, hs⟩ := hsync.store.reaches_iff.mp hown.reaches
  rw [hconf.creator]
  exact ⟨⟨o, SledStore.getEventOfCreator_eq_ok.mpr ho⟩, s,
    SledStore.getEventOfCreator_eq_ok.mpr hs⟩

theorem Reachable.wellFormed {p : P} {event : Event P D T H Sig}
    (hhonest : net.Honest env) (hcomputes : net.Computes env w)
    (h : net.Reachable env w) (hfree : net.CollisionFree env w)
    (hi : i ∈ net.ids) (hproc : (w.nodes i).procA = .formed event)
    (hchose : (w.nodes i).procA.Chose env (held w i) i p) :
    WellFormed env i p (w.nodes i).core event := by
  have hsync := (h.syncInv hhonest hfree).nodes i hi
  have hclock := h.clockInv.nodes i hi
  have hconf := (h.signInv hhonest.toKeyed).conf i hi
  obtain ⟨submitted, hrun⟩ := h.soloRun hi
  obtain ⟨top, hown⟩ := hsync.own
  have hdated := hclock.procA
  rw [hproc] at hown hdated hchose
  obtain ⟨⟨v, hv, hself, hvcreator, hvheight⟩, v', hv', hother, hvcreator'⟩ :=
    hchose
  obtain ⟨s, hs, rfl⟩ := hclock.store.stored_of_held hv hself
  obtain ⟨o, ho, rfl⟩ := hclock.store.stored_of_held hv' hother
  constructor
  case creator => exact hown.prepares.1
  case self_parent => exact ⟨s, hs, hvcreator, hvheight⟩
  case other_parent => exact ⟨o, ho, hvcreator'⟩
  case inserts =>
    obtain ⟨k, hk⟩ := hcomputes.hashes _ hdated.made
    obtain ⟨signature, hsign⟩ := hcomputes.signs i hi k
    rw [← hconf.publicKey, ← hconf.secretKey] at hsign
    let hashed : Event P D T H Sig := { event with hash := k }
    have hk' : env.eventHash hashed.toHashEvent = .ok k := hk
    obtain ⟨core', hinsert⟩ :=
      insertEvent_succeeds hrun.coreInv.keys hk' hs ho hsign hconf.creatorId
    exact ⟨k, _, core', Event.eventHash_eq_ok.mpr ⟨hk, rfl⟩, hinsert⟩

/-- No node makes two events of the same height. -/
theorem Reachable.heights_nodup (hhonest : net.Honest env)
    (h : net.Reachable env w) (hfree : net.CollisionFree env w) :
    (w.created.map fun v => (v.creator, v.height)).Nodup := by
  induction h with
  | initial h =>
      rw [h.created]
      exact List.nodup_nil
  | @step w w' h hstep ih =>
      have hfree' := hfree.of_step hstep
      have hsync := h.syncInv hhonest hfree'
      cases hstep with
      | @node j n out hj hnode =>
          have hconf := (h.signInv hhonest.toKeyed).conf j hj
          rcases (hsync.nodes j hj).created_cases hconf hnode with
            hnil | ⟨v, hout, hcreator, habove, -⟩
          · change ((out.created ++ w.created).map _).Nodup
            rw [hnil]
            exact ih hfree'
          · change ((out.created ++ w.created).map _).Nodup
            rw [hout]
            apply List.nodup_cons.mpr
            refine ⟨fun hmem => ?_, ih hfree'⟩
            obtain ⟨v', hv', hpair⟩ := List.mem_map.mp hmem
            rw [Prod.mk.injEq] at hpair
            have hlt := habove v' (Or.inr hv') (hpair.1.trans hcreator)
            exact absurd hpair.2 (Nat.ne_of_lt hlt)

/-- In each round of `procedure_a` the peer is another node, both parents are
found, and the event made is well formed; no node makes two events of the same
height. -/
theorem own_events_well_formed [Inhabited P] (hhonest : net.Honest env)
    (hbuilt : net.Built) (hn : 2 ≤ net.peers.length)
    (hcomputes : net.Computes env w) (h : net.Reachable env w)
    (hfree : net.CollisionFree env w) :
    (∀ i ∈ net.ids, ∀ w₀ peer gossipList, net.Reachable env w₀ →
      (w₀.nodes i).procA = .chosen peer gossipList →
      ReflTransGen (InRound net env i) w₀ w →
      peer.id ∈ net.ids ∧ peer.id ≠ i ∧
        (∀ peer' height otherHeight,
          (w.nodes i).procA = .paired peer' height otherHeight →
          peer'.id = peer.id ∧
          (∃ o, (w.nodes i).core.store.getEventOfCreator peer'.id otherHeight =
            .ok o) ∧
          ∃ s, (w.nodes i).core.store.getEventOfCreator
            (w.nodes i).core.conf.creator (height - 1) = .ok s) ∧
        ∀ event, (w.nodes i).procA = .formed event →
          WellFormed env i peer.id (w.nodes i).core event) ∧
    (w.created.map fun v => (v.creator, v.height)).Nodup := by
  refine ⟨?_, h.heights_nodup hhonest hfree⟩
  intro i hi w₀ peer gossipList h₀ hchosen hround
  obtain ⟨-, hpeer, hne, hchose⟩ :=
    chose_of_round hhonest hbuilt hn h₀ hi hchosen hround hfree
  refine ⟨hpeer, hne, ?_, ?_⟩
  · intro peer' height otherHeight hproc
    refine ⟨?_, reads_parents ((h.signInv hhonest.toKeyed).conf i hi)
      ((h.syncInv hhonest hfree).nodes i hi) hproc hchose⟩
    rw [hproc] at hchose
    exact hchose.1
  · intro event hproc
    exact h.wellFormed hhonest hcomputes hfree hi hproc hchose

end Network

namespace TwoPeers

/-- The same network, with the peer lists as `add` leaves them. -/
def builtNet : Network Nat Unit Unit where
  peers := peers
  conf creator := { conf creator with
    peers := peers.foldl DAGPeerList.add DAGPeerList.new }
  fresh := net.fresh
  creator_eq _ _ := rfl
  peers_perm _ _ := List.Perm.refl _

theorem builtNet_step {w w' : World Nat Nat Unit Nat Unit Unit Unit}
    (h : net.Step env w w') : builtNet.Step env w w' := by
  cases h with
  | node hi hnode => exact .node hi hnode

theorem builtNet_reachable {w : World Nat Nat Unit Nat Unit Unit Unit}
    (h : net.Reachable env w) : builtNet.Reachable env w := by
  induction h with
  | initial h =>
      refine .initial ⟨fun i hi => ?_, h.requests, h.replies, h.created⟩
      obtain ⟨core, hnew, hnode⟩ := h.node i hi
      exact ⟨core, hnew, hnode⟩
  | step _ hstep ih => exact ih.step (builtNet_step hstep)

/-- A round of the second peer with the first one has come to this state. -/
def Round (w : World Nat Nat Unit Nat Unit Unit Unit) : Prop :=
  ∃ w₀, builtNet.Reachable env w₀ ∧
    (w₀.nodes 1).procA = .chosen (peer 0) gossip ∧
    ReflTransGen (Network.InRound builtNet env 1) w₀ w

theorem Round.step {n₀ n₁ n : Node} {requests : List (SyncReq Nat)}
    {replies : List (Answer Nat Nat Unit Nat Unit)}
    {created : List (HashEvent Nat Nat Unit Nat)}
    {out : Output Nat Nat Unit Nat Unit}
    (h : Round (world n₀ n₁ requests replies created))
    (hstep : NodeStep env (requests.filter fun req => req.toId = 1)
      (replies.filter fun answer => answer.reply.toId = 1) n₁ n out)
    (hgoes : n.procA ≠ .start) :
    Round (world n₀ n (out.requests ++ requests) (out.replies ++ replies)
      (out.created ++ created)) := by
  obtain ⟨w₀, h₀, hchosen, hround⟩ := h
  exact ⟨w₀, h₀, hchosen, hround.tail ⟨builtNet_step (step_one hstep), hgoes⟩⟩

theorem round_formed : ∃ requests, Round (world (idle 0)
    ⟨formed, .formed b₁, .idle, .idle⟩ requests [] [b₁.toHashEvent]) := by
  have hpooled := reachable_one reachable_start (.addTransaction 7)
  have hreachable : net.Reachable env (world (idle 0)
      ⟨pooled, .chosen (peer 0) gossip, .idle, .idle⟩ _ _ _) :=
    reachable_one hpooled (.choosePeer rfl rfl)
  have hchosen : Round (world (idle 0)
      ⟨pooled, .chosen (peer 0) gossip, .idle, .idle⟩ _ _ _) :=
    ⟨_, builtNet_reachable hreachable, rfl, .refl⟩
  have hrequested := hchosen.step (.sendRequest rfl) nofun
  have hnumbered : Round (world (idle 0)
      ⟨numbered, .numbered (peer 0) 1, .idle, .idle⟩ _ _ _) :=
    hrequested.step (.nextHeight rfl rfl rfl rfl) nofun
  have hpaired := hnumbered.step (.otherHeight rfl rfl) nofun
  have hparents := hpaired.step (.readParents rfl rfl rfl) nofun
  exact ⟨_, hparents.step (.formEvent rfl rfl rfl rfl rfl) nofun⟩

/-- The second peer's first event is well formed. -/
theorem formed_well_formed :
    Network.WellFormed env 1 0 formed b₁ := by
  have hhonest : builtNet.Honest env :=
    ⟨⟨fun _ _ => rfl, fun _ _ _ _ _ => rfl⟩, by decide⟩
  obtain ⟨requests, w₀, h₀, hchosen, hround⟩ := round_formed
  have hfree := collisionFree (w := world (idle 0)
    ⟨formed, .formed b₁, .idle, .idle⟩ requests [] [b₁.toHashEvent]) rfl
  have hbuilt : builtNet.Built := fun _ _ => ⟨peers, rfl⟩
  have hreachable := (Network.chose_of_round hhonest hbuilt (Nat.le_refl 2) h₀
    (by decide) hchosen hround hfree).1
  exact ((Network.own_events_well_formed hhonest hbuilt (Nat.le_refl 2)
    ⟨fun _ _ => ⟨_, rfl⟩, fun _ _ _ => ⟨_, rfl⟩⟩ hreachable hfree).1 1 (by decide)
    w₀ (peer 0) gossip h₀ hchosen hround).2.2.2 b₁ rfl

end TwoPeers

end ConsensusDag
