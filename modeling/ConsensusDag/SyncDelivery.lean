/-
Gossip over a whole network.  A listener that inserts the events of a reply
finds the parents of each, and at the end of the reply it holds all that its
sender held.
-/
import ConsensusDag.NodeSync

namespace ConsensusDag

open CausalOrders

variable {P D T H PK SK Sig : Type} [LinearOrder P] [LinearOrder H]
  [Inhabited H]

namespace Network

variable {net : Network P PK SK} {env : Env P D T H PK SK Sig}
  {w w' : World P D T H PK SK Sig}

/-- What a node holds. -/
def held (w : World P D T H PK SK Sig) (i : P) : Set (HashEvent P D T H) :=
  heldIn (w.nodes i).core.store.event

variable (net env w) in
structure SyncInv : Prop where
  lineage : Lineage net env (net.Made w)
  nodes : ∀ i ∈ net.ids, NodeSync net env (net.Made w) (held w) i (w.nodes i)
  requests : ∀ req ∈ w.requests, req.fromId ∈ net.ids ∧
    Asks net (held w req.fromId) req.gossipList
  replies : ∀ answer ∈ w.replies, answer.Sync net env (held w)

section Start

variable {i : P} {core : DAGcore P D T H PK SK Sig}

/-- A new node holds the leaf event of every peer. -/
theorem new_storeSync (hi : i ∈ net.ids) {made : HashEvent P D T H → Prop}
    (hinjective : HashInjective env made) (hmade : ∀ v, net.Leaf v → made v)
    (hnew : DAGcore.new env (net.conf i) SledStore.empty = .ok core) :
    StoreSync core.store ∧ ∀ peer ∈ net.peers,
      leafHashEvent peer ∈ heldIn core.store.event := by
  suffices hloop : StoreClock env net.Leaf made 0 core.store ∧
      StoreSync core.store ∧
      ∀ peer ∈ ((net.conf i).peers.setCreator (net.conf i).creator).peers,
        leafHashEvent peer ∈ heldIn core.store.event from
    ⟨hloop.2.1, fun peer hpeer =>
      hloop.2.2 peer ((net.peers_setCreator_perm hi).mem_iff.mpr hpeer)⟩
  refine DAGcore.new_induct (I := fun done store =>
    StoreClock env net.Leaf made 0 store ∧ StoreSync store ∧
      ∀ peer ∈ done, leafHashEvent peer ∈ heldIn store.event) hnew ?_ ?_
  · exact ⟨.empty, .empty, fun _ hmem => (List.not_mem_nil hmem).elim⟩
  · rintro done peer store store' hmem - ⟨hclock, hsync, hheld⟩ hbody
    have hpeer : peer ∈ net.peers := (net.peers_perm i hi).mem_iff.mp
      (hmem peer (List.mem_append_right _ List.mem_cons_self))
    have hclock' := insertLeaf_storeClock hclock hmade hpeer hbody
    obtain ⟨k, hk, rfl⟩ := DAGcore.insertLeaf_eq_ok hbody
    have hleaf := hmade _ ⟨peer, hpeer, rfl⟩
    have hinsert := heldIn_write hinjective hclock
      (e := { (leafEvent peer : Event P D T H Sig) with hash := k }) hleaf hk
    refine ⟨hclock', hsync.write hinjective hclock rfl rfl hleaf hk, ?_⟩
    intro p hp
    change _ ∈ heldIn (store.setEvent _).event
    rw [hinsert]
    rcases List.mem_append.mp hp with hp | hp
    · exact Set.mem_insert_of_mem _ (hheld p hp)
    · rw [List.mem_singleton.mp hp]
      exact Set.mem_insert _ _

/-- A node that has just been started. -/
theorem new_nodeSync (hi : i ∈ net.ids)
    {made : HashEvent P D T H → Prop} (hinjective : HashInjective env made)
    (hmade : ∀ v, made v ↔ net.Leaf v)
    (hnew : DAGcore.new env (net.conf i) SledStore.empty = .ok core)
    (held : P → Set (HashEvent P D T H)) :
    NodeSync net env made held i ⟨core, .start, .idle, .idle⟩ := by
  obtain ⟨hstore, hleaves⟩ :=
    new_storeSync hi hinjective (fun v hv => (hmade v).mpr hv) hnew
  obtain ⟨store, -, rfl⟩ := DAGcore.new_eq_ok hnew
  have hperm := net.peers_setCreator_perm hi
  have hreaches : ∀ peer ∈ ((net.conf i).peers.setCreator
      (net.conf i).creator).peers, Reaches (heldIn store.event) peer.id
        peer.height := fun peer hpeer =>
    ⟨_, hleaves peer (hperm.mem_iff.mp hpeer), rfl, rfl⟩
  constructor
  case store => exact hstore
  case heights => exact fun peer hpeer _ => hreaches peer hpeer
  case own =>
    refine ⟨0, ?_, ?_, ?_, trivial⟩
    · exact fun peer hpeer _ => (net.fresh peer (hperm.mem_iff.mp hpeer)).1
    · obtain ⟨peer, hpeer, rfl⟩ := List.mem_map.mp hi
      rw [← (net.fresh peer hpeer).1]
      exact hreaches peer (hperm.mem_iff.mpr hpeer)
    · intro v hv _
      obtain ⟨peer, hpeer, rfl⟩ := (hmade v).mp hv
      exact Or.inl (Nat.le_of_eq (net.fresh peer hpeer).1)
  case listener => trivial
  case procB => trivial

theorem SyncInv.initial (hhonest : net.Honest env) (h : net.Initial env w)
    (hfree : net.CollisionFree env w) : net.SyncInv env w := by
  have hmade : ∀ v, net.Made w v ↔ net.Leaf v := by
    intro v
    refine ⟨fun hv => hv.resolve_right fun hmem => ?_, Or.inl⟩
    change v ∈ w.created at hmem
    rw [h.created] at hmem
    exact List.not_mem_nil hmem
  constructor
  case lineage =>
    refine ⟨hfree, ?_, ?_, fun v hv hnot => absurd ((hmade v).mp hv) hnot⟩
    · intro v v' hv hv' hcreator _
      obtain ⟨peer, hpeer, rfl⟩ := (hmade v).mp hv
      obtain ⟨peer', hpeer', rfl⟩ := (hmade v').mp hv'
      rw [List.inj_on_of_nodup_map hhonest.ids_nodup hpeer hpeer' hcreator]
    · intro v hv
      obtain ⟨peer, hpeer, rfl⟩ := (hmade v).mp hv
      exact List.mem_map.mpr ⟨peer, hpeer, rfl⟩
  case nodes =>
    intro i hi
    obtain ⟨core, hnew, hnode⟩ := h.node i hi
    rw [hnode]
    exact new_nodeSync hi hfree hmade hnew _
  case requests =>
    rw [h.requests]
    exact fun _ hmem => (List.not_mem_nil hmem).elim
  case replies =>
    rw [h.replies]
    exact fun _ hmem => (List.not_mem_nil hmem).elim

end Start

theorem SyncInv.step (hhonest : net.Honest env) (hclock : net.ClockInv env w)
    (hsign : net.SignInv env w) (h : net.SyncInv env w) (hstep : net.Step env w w')
    (hfree : net.CollisionFree env w') : net.SyncInv env w' := by
  have hmono := hstep.made_mono
  have hfree' : net.CollisionFree env w := hfree.of_step hstep
  have hlater : ∀ v, net.Made w v → ¬ net.Leaf v → Later env (net.Made w) v :=
    fun v hv hleaf => hclock.created v (hv.resolve_left hleaf)
  cases hstep with
  | @node i n out hi hnode =>
      have hback : ∀ v, net.Made (w.step i n out) v →
          net.Made w v ∨ v ∈ out.created := by
        rintro v (hleaf | hmem)
        · exact Or.inl (Or.inl hleaf)
        · rcases List.mem_append.mp hmem with hmem | hmem
          · exact Or.inr hmem
          · exact Or.inl (Or.inr hmem)
      have hsub : ∀ j, held w j ⊆ held (w.step i n out) j := by
        intro j
        unfold held
        by_cases hji : j = i
        · subst hji
          rw [World.step_nodes_self]
          exact (hclock.nodes j hi).heldIn_mono hfree' hnode
        · rw [World.step_nodes_of_ne w hji]
      have hconf := hsign.conf i hi
      obtain ⟨hnew, hrequests, hreplies⟩ := (h.nodes i hi).step hhonest hi hconf
        (hsign.flow i hi) h.lineage hlater
        (fun j hj => (hclock.nodes j hj).store.history) (hclock.nodes i hi)
        (fun req hmem => h.requests req (List.mem_of_mem_filter hmem))
        (fun answer hmem => ⟨of_decide_eq_true (List.mem_filter.mp hmem).2,
          h.replies answer (List.mem_of_mem_filter hmem)⟩)
        hnode hmono hback hsub rfl (by rw [held, World.step_nodes_self])
      constructor
      case lineage =>
        exact h.lineage.step hi hconf (h.nodes i hi) hnode hmono hback hfree
      case nodes =>
        intro j hj
        by_cases hji : j = i
        · subst hji
          rw [World.step_nodes_self]
          exact hnew
        · rw [World.step_nodes_of_ne w hji]
          refine (h.nodes j hj).mono hmono (fun v hv hcreator => ?_) hsub
          rcases hback v hv with hv | hmem
          · exact hv
          · -- what is made in this step is an event of node `i`
            rcases (h.nodes i hi).created_cases hconf hnode with
              hnil | ⟨v₀, hout, hi, -⟩
            · rw [hnil] at hmem
              exact (List.not_mem_nil hmem).elim
            · rw [hout, List.mem_singleton] at hmem
              exact absurd (hcreator.symm.trans (hmem ▸ hi)) hji
      case requests =>
        intro req hmem
        rcases List.mem_append.mp hmem with hmem | hmem
        · exact hrequests req hmem
        · obtain ⟨hfrom, hasks⟩ := h.requests req hmem
          exact ⟨hfrom, hasks.mono (hsub _)⟩
      case replies =>
        intro answer hmem
        rcases List.mem_append.mp hmem with hmem | hmem
        · exact hreplies answer hmem
        · exact (h.replies answer hmem).mono hsub

theorem Reachable.syncInv (hhonest : net.Honest env) (h : net.Reachable env w)
    (hfree : net.CollisionFree env w) : net.SyncInv env w := by
  induction h with
  | initial h => exact .initial hhonest h hfree
  | step h hstep ih =>
      have hsync := ih (hfree.of_step hstep)
      exact hsync.step hhonest h.clockInv (h.signInv hhonest.toKeyed) hstep hfree

/-- Before the listener inserts an event of a reply, both parents are stored
with their flag tables.  With the last event of the reply processed, the store
has all that the sender's store had when the events were collected. -/
theorem reply_delivers (hhonest : net.Honest env) (h : net.Reachable env w)
    (hfree : net.CollisionFree env w) {i : P} (hi : i ∈ net.ids) :
    (∀ answer event rest, (w.nodes i).listener = .checked answer event rest →
      ∀ k, k = event.selfParent ∨ k = event.otherParent →
        (∃ p, (w.nodes i).core.store.event (.hash k) = some p) ∧
          ∃ ft, (w.nodes i).core.store.flagTable k = some ft) ∧
    ∀ answer, (w.nodes i).listener = .processing answer [] →
      ∀ v ∈ heldIn answer.snapshot, ∃ k e, env.eventHash v = .ok k ∧
        (w.nodes i).core.store.event (.hash k) = some e ∧ e.toHashEvent = v := by
  have hnode := (h.syncInv hhonest hfree).nodes i hi
  have hclock := (h.clockInv.nodes i hi).store
  constructor
  · intro answer event rest hlistener k hk
    have hchecked := hnode.listener
    rw [hlistener] at hchecked
    obtain ⟨hself, hother⟩ := hclock.stored_of_ready hchecked.deliverable.1
    have hp : ∃ p, (w.nodes i).core.store.event (.hash k) = some p := by
      rcases hk with rfl | rfl
      · exact hself
      · exact hother
    obtain ⟨p, hp⟩ := hp
    exact ⟨⟨p, hp⟩, hnode.store.tabled k p hp⟩
  · intro answer hlistener v hv
    have hcarries := hnode.listener
    rw [hlistener] at hcarries
    obtain ⟨k, e, he, rfl⟩ :=
      (hcarries.complete hv).resolve_right List.not_mem_nil
    exact ⟨k, e, hclock.eventHash_key he, he, rfl⟩

end Network

namespace TwoPeers

def sent : NetEvent Nat Nat Unit Nat Unit :=
  Event.toNetEvent { b₁ with signatures := AList.insert 1 () ∅ }

theorem eventsFrom_zero : served.store.eventsFrom 0 1 = .ok [] := by
  rw [SledStore.eventsFrom]
  rfl

theorem eventsFrom_two : served.store.eventsFrom 1 2 = .ok [] := by
  rw [SledStore.eventsFrom]
  rfl

theorem eventsFrom_one : served.store.eventsFrom 1 1 = .ok [sent] := by
  have hread : served.store.getEventOfCreator 1 1 = .ok { b₁ with
      hash := 4, frameNumber := 1, signatures := AList.insert 1 () ∅ } := rfl
  rw [SledStore.eventsFrom, hread]
  change (if _ : 2 ≤ usizeMax then _ else _) = _
  rw [dif_pos (by decide)]
  change (served.store.eventsFrom 1 2 >>= _) = _
  rw [eventsFrom_two]
  rfl

/-- The first peer's request and the answer to it. -/
def request : SyncReq Nat := ⟨0, 1, gossip, 0⟩

theorem collect : served.store.getEventsForGossip gossip = .ok [sent] := by
  have hentries : gossip.entries = [⟨1, ⟨0, 0⟩⟩, ⟨0, ⟨0, 0⟩⟩] := rfl
  have hstart : usizeAdd 0 1 = .ok 1 := rfl
  unfold SledStore.getEventsForGossip
  simp [hentries, hstart, List.mapM_cons, eventsFrom_one, eventsFrom_zero, bind,
    Except.bind, pure, Except.pure]

def answer : Answer Nat Nat Unit Nat Unit :=
  ⟨⟨1, 0, served.conf.peers.getGossipList, 1, [sent]⟩, served.store.event⟩

def received : Core := (start 0).updateLamportTime 1

theorem reachable_answered : ∃ n₁ requests, net.Reachable env (world
    ⟨received, .requested (peer 1), .processing answer [sent], .idle⟩ n₁ requests
    [answer] [b₁.toHashEvent]) := by
  obtain ⟨requests, hserved⟩ := reachable_served
  have hchosen : net.Reachable env (world
      ⟨start 0, .chosen (peer 1) gossip, .idle, .idle⟩ _ _ _ _) :=
    reachable_zero hserved (.choosePeer rfl rfl)
  have hrequested := reachable_zero hchosen (.sendRequest rfl)
  have hupdated : net.Reachable env (world _
      ⟨served, .start, .idle, .updated request⟩ _ _ _) :=
    reachable_one hrequested (.receiveRequest rfl List.mem_cons_self)
  have hcollected := reachable_one hupdated
    (.collectEvents rfl (List.Perm.refl _) collect)
  have hlisted := reachable_one hcollected (.listGossip rfl)
  have hformed : net.Reachable env (world _
      ⟨served, .start, .idle, .formed request answer⟩ _ _ _) :=
    reachable_one hlisted (.formReply rfl)
  have hsent : net.Reachable env (world _ ⟨served, .start, .idle, .idle⟩ _ _ _) :=
    reachable_one hformed (.sendReply rfl rfl)
  exact ⟨_, _, reachable_zero hsent (.receiveReply rfl List.mem_cons_self)⟩

/-- The event of the reply, as the first peer reads it. -/
def taken : Event Nat Nat Unit Nat Unit :=
  { b₁ with hash := 4, signatures := AList.insert 1 () ∅ }

theorem reachable_checked : ∃ n₁ requests, net.Reachable env (world
    ⟨received, .requested (peer 1), .checked answer taken [], .idle⟩ n₁ requests
    [answer] [b₁.toHashEvent]) := by
  obtain ⟨n₁, requests, hanswered⟩ := reachable_answered
  exact ⟨_, _, reachable_zero hanswered (.checkEvent rfl rfl rfl)⟩

theorem reachable_processed : ∃ core n₁ requests, net.Reachable env (world
    ⟨core, .requested (peer 1), .processing answer [], .idle⟩ n₁ requests
    [answer] [b₁.toHashEvent]) := by
  obtain ⟨n₁, requests, hchecked⟩ := reachable_checked
  have hinsert : received.insertEvent env taken = (.ok true, after received [taken]) :=
    insertEvent_after (by decide +kernel)
  have hinserted := reachable_zero hchecked (.insertEvent rfl hinsert)
  exact ⟨_, _, _, reachable_zero hinserted (.updatePeer rfl rfl rfl)⟩

theorem honest : net.Honest env where
  ids_nodup := by decide
  pubKey_eq _ _ := rfl
  verify_sign _ _ _ _ _ := rfl

/-- The first peer finds the parents of the event it is sent, and holds the
event in the end. -/
theorem reply_delivered :
    (∀ k, k = taken.selfParent ∨ k = taken.otherParent →
      (∃ p, received.store.event (.hash k) = some p) ∧
        ∃ ft, received.store.flagTable k = some ft) ∧
    ∃ w, net.Reachable env w ∧ ∃ k e,
      (w.nodes 0).core.store.event (.hash k) = some e ∧
        e.toHashEvent = b₁.toHashEvent := by
  constructor
  · obtain ⟨n₁, requests, hchecked⟩ := reachable_checked
    exact (Network.reply_delivers honest hchecked (collisionFree rfl) (i := 0)
      (by decide)).1 _ _ _ rfl
  · obtain ⟨core, n₁, requests, hprocessed⟩ := reachable_processed
    obtain ⟨k, e, -, he, hsame⟩ := (Network.reply_delivers honest hprocessed
      (collisionFree rfl) (i := 0) (by decide)).2 _ rfl b₁.toHashEvent
      ⟨4, _, rfl, rfl⟩
    exact ⟨_, hprocessed, k, e, he, hsame⟩

end TwoPeers

end ConsensusDag
