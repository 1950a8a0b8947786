/-
The network as a broadcast service.  What is handed in at a node is finalised by all
nodes in one order, which has the transactions of each node in the order in which
they were handed in.
-/
import ConsensusDag.Agreement

namespace ConsensusDag

open DAGcore OrderedBroadcasts Relation

section Runs

variable {P D T H PK SK Sig : Type} [LinearOrder P] [LinearOrder H] [Inhabited H]
  {net : Network P PK SK} {env : Env P D T H PK SK Sig}

namespace Network

variable {w : World P D T H PK SK Sig} {i : P}

/-- What any node knows of, its creator has stored. -/
theorem Reachable.filed_of_known (hhonest : net.Honest env)
    (h : net.Reachable env w) (hfree : net.CollisionFree env w) (hi : i ∈ net.ids)
    {v : HashEvent P D T H} (hv : (w.nodes i).Knows v) :
    ∃ e, (w.nodes v.creator).core.store.event (.creator v.creator v.height) = some e ∧
      e.toHashEvent = v := by
  have hsync := h.syncInv hhonest hfree
  have hmade := h.clockInv.made_of_knows hi hv
  have hp := hsync.lineage.creator_mem v hmade
  have hnode := hsync.nodes v.creator hp
  have hhistory := (h.clockInv.nodes v.creator hp).store.history
  obtain ⟨top, hown⟩ := hnode.own
  have hle : v.height ≤ top := by
    refine (hown.made_le v hmade rfl).resolve_right fun hpending => ?_
    exact (h.unsent hhonest hfree v.creator hp v hpending).1 i hi hv
  have hheld := hhistory.mem_of_le hsync.lineage hmade hown.reaches hle
  obtain ⟨e, he⟩ := hnode.store.of_held v hheld
  obtain ⟨hmem, hcreator, hheight⟩ := hnode.store.indexed _ _ e he
  exact ⟨e, he, hsync.lineage.fork_free _ _ (hhistory.made _ hmem) hmade hcreator
    hheight⟩

/-- An event of its own that a node takes is one that it has stored. -/
theorem Reachable.takes_own (hhonest : net.Honest env) (h : net.Reachable env w)
    (hfree : net.CollisionFree env w) (hi : i ∈ net.ids)
    {n : NodeState P D T H PK SK Sig} {event : Event P D T H Sig}
    (htakes : Takes (w.nodes i) n event) : OwnStored (w.nodes i).core event := by
  intro hcreator
  have hself : event.creator = i :=
    hcreator.trans ((h.signInv hhonest.toKeyed).conf i hi).creator
  obtain ⟨answer, rest, hlistener, -⟩ := htakes
  have hknows : (w.nodes i).Knows event.toHashEvent := by
    refine Or.inr (Or.inl ?_)
    rw [hlistener]
    exact List.mem_cons_self
  obtain ⟨e, he, hsame⟩ := h.filed_of_known hhonest hfree hi hknows
  rw [show event.toHashEvent.creator = i from hself] at he
  rw [hself]
  exact ⟨e, he, hsame⟩

/-- A node has the events of a peer from height 0 up to some height. -/
theorem Reachable.exists_top (hhonest : net.Honest env) (h : net.Reachable env w)
    (hfree : net.CollisionFree env w) (hi : i ∈ net.ids) (p : P) :
    ∃ m, ∀ height, Reaches (held w i) p height ↔ height < m := by
  have hsync := h.syncInv hhonest hfree
  have hhistory := (h.clockInv.nodes i hi).store.history
  have hbounded : ∃ top, ¬ Reaches (held w i) p top := by
    by_cases hp : p ∈ net.ids
    · obtain ⟨top, hown⟩ := (hsync.nodes p hp).own
      refine ⟨top + 2, ?_⟩
      rintro ⟨v, hv, hcreator, hheight⟩
      have hle := hown.height_le v (hhistory.made v hv) hcreator
      rcases (w.nodes p).procA.pending_cases with hpending | hpending <;> omega
    · refine ⟨0, ?_⟩
      rintro ⟨v, hv, rfl, -⟩
      exact hp (hsync.lineage.creator_mem v (hhistory.made v hv))
  classical
  refine ⟨Nat.find hbounded, fun height => ⟨fun hreach => ?_, fun hlt => ?_⟩⟩
  · by_contra hle
    exact Nat.find_spec hbounded
      (hhistory.reaches_of_le hsync.lineage hreach (Nat.le_of_not_lt hle))
  · exact not_not.mp (Nat.find_min hbounded hlt)

end Network

omit [LinearOrder H] [Inhabited H] in
/-- The transactions of a node's events up to any height are the first of those
handed in. -/
theorem Pooled.ownTransactions_prefix {own : P} {submitted : List D}
    {n : NodeState P D T H PK SK Sig} {bound : Nat} (h : Pooled own submitted n bound)
    (m : Nat) : ownTransactions n.core.store own m <+: submitted := by
  have hbound : ownTransactions n.core.store own bound <+: submitted := by
    rw [← h.total, List.append_assoc]
    exact List.prefix_append _ _
  rcases Nat.le_total m bound with hle | hle
  · have hshort : ownTransactions n.core.store own m <+:
        ownTransactions n.core.store own bound :=
      flatMap_range_prefix hle fun _ _ => rfl
    exact hshort.trans hbound
  · rwa [ownTransactions_of_le hle fun height hbound _ => h.above height hbound]

namespace Service

variable {received : DAGcore P D T H PK SK Sig → Event P D T H Sig → Prop}
  {s s' : Service P D T H PK SK Sig} {i p : P}

/-- What is handed in at a node is in its events, in the event in preparation or in
its pool. -/
theorem Reachable.pooled (hhonest : net.Honest env) (h : Reachable net env received s)
    (hfree : net.CollisionFree env s.world) (hi : i ∈ net.ids) :
    ∃ bound, Pooled i (s.submitted i) (s.world.unpolled.nodes i) bound := by
  obtain ⟨s₀, hinit, hrun⟩ := h
  induction hrun with
  | refl =>
      obtain ⟨core, hnew, hnode⟩ := hinit.unpolled.node i hi
      rw [hnode, hinit.submitted i hi]
      exact ⟨0, new_pooled hnew⟩
  | @tail s s' hrun hstep ih =>
      have hfree' := hfree.of_subset hstep.created_subset
      have hreach : net.Reachable env s.world.unpolled :=
        Reachable.unpolled ⟨s₀, hinit, hrun⟩
      obtain ⟨bound, hpooled⟩ := ih hfree'
      cases hstep with
      | @node j n out hj hnode hreceived =>
          by_cases hij : i = j
          · subst hij
            have hnext : (s.node i n out).world.unpolled.nodes i = n.unpolled :=
              congrArg NodeState.unpolled (World.step_nodes_self s.world i n out)
            rw [hnext, node_submitted_self]
            exact hpooled.step hnode.unpolled
              ((hreach.signInv hhonest.toKeyed).conf i hi).creator
              fun event htakes => hreach.takes_own hhonest hfree' hi htakes
          · have hsame : (s.node j n out).world.unpolled.nodes i =
                s.world.unpolled.nodes i :=
              congrArg NodeState.unpolled (World.step_nodes_of_ne s.world hij n out)
            rw [hsame, node_submitted_of_ne _ _ _ hij]
            exact ⟨bound, hpooled⟩
      | @poll j items after hj hsection =>
          rw [poll_unpolled hsection]
          exact ⟨bound, hpooled⟩

/-- No node has a transaction in the name of a peer that the peer was not handed: the
transactions of a peer's events, as any node stores them, are the first of those
handed in, in the same order. -/
theorem Reachable.stored_prefix (hhonest : net.Honest env)
    (h : Reachable net env received s) (hfree : net.CollisionFree env s.world)
    (hi : i ∈ net.ids) (hp : p ∈ net.ids) (bound : Nat) :
    ownTransactions (s.world.nodes i).core.store p bound <+: s.submitted p := by
  have hreach : net.Reachable env s.world.unpolled := h.unpolled
  have hnode := (hreach.syncInv hhonest hfree).nodes i hi
  obtain ⟨m, hm⟩ := hreach.exists_top hhonest hfree hi p
  have hfiled : ∀ height, (∃ e, (s.world.nodes i).core.store.event
      (.creator p height) = some e) ↔ height < m := fun height =>
    hnode.store.reaches_iff.symm.trans (hm height)
  have hcut : ownTransactions (s.world.nodes i).core.store p bound =
      ownTransactions (s.world.nodes i).core.store p (min bound m) := by
    refine ownTransactions_of_le (Nat.min_le_left _ _) fun height hle hlt => ?_
    unfold transactionsAt
    split
    · rename_i e he
      have hlt' := (hfiled height).mp ⟨e, he⟩
      omega
    · rfl
  -- below `m` the two nodes have the same events
  have hsame : ownTransactions (s.world.nodes i).core.store p (min bound m) =
      ownTransactions (s.world.nodes p).core.store p (min bound m) := by
    refine List.flatMap_congr fun height hmem => ?_
    have hlt := (List.mem_range.mp hmem).trans_le (Nat.min_le_right _ _)
    obtain ⟨e, he⟩ := (hfiled height).mpr hlt
    obtain ⟨⟨k, e₁, he₁, hevent₁⟩, hcreator, hheight⟩ :=
      hnode.store.indexed p height e he
    obtain ⟨e', he', hevent⟩ := hreach.filed_of_known hhonest hfree hi
      (v := e.toHashEvent) (Or.inl ⟨_, e₁, he₁, hevent₁⟩)
    have hat : e.toHashEvent.creator = p ∧ e.toHashEvent.height = height :=
      ⟨hcreator, hheight⟩
    rw [hat.1, hat.2] at he'
    rw [transactionsAt_of_stored he]
    exact (congrArg HashEvent.transactions hevent).symm.trans
      (transactionsAt_of_stored he').symm
  obtain ⟨bound', hpooled⟩ := h.pooled hhonest hfree hp
  rw [hcut, hsame]
  exact hpooled.ownTransactions_prefix _

/-- No transaction is lost, made up, repeated or moved.  At the node where they are
handed in, the transactions are in all its events, in the event in preparation or in
its pool; wherever events of that node are stored, their transactions are the first of
those handed in, in the same order. -/
theorem transactions_conserved (hhonest : net.Honest env)
    (h : Reachable net env received s) (hfree : net.CollisionFree env s.world)
    (hp : p ∈ net.ids) :
    (∃ bound, (∀ height e, (s.world.nodes p).core.store.event (.creator p height) =
        some e → height < bound) ∧
      ownTransactions (s.world.nodes p).core.store p bound ++
        (s.world.nodes p).procA.inFlight ++ (s.world.nodes p).core.txPool =
      s.submitted p) ∧
      ∀ i ∈ net.ids, ∀ bound,
        ownTransactions (s.world.nodes i).core.store p bound <+: s.submitted p := by
  obtain ⟨_, hpooled⟩ := h.pooled hhonest hfree hp
  exact ⟨hpooled.covers, fun i hi bound => h.stored_prefix hhonest hfree hi hp bound⟩

/-- Of each peer, a node finalises the transactions in the order in which they were
handed in, leaving none out. -/
theorem Reachable.finalised_prefix (hhonest : net.Honest env)
    (h : Reachable net env Unheld s) (hfree : net.CollisionFree env s.world)
    (hi : i ∈ net.ids) (p : P) :
    itemsOf p (s.world.nodes i).core.finalisedItems <+:
      if p ∈ net.ids then s.submitted p else [] := by
  obtain ⟨dag, hlamport, hmade, hfollows, -⟩ :=
    h.follow_one_graph hhonest .refl hfree
  obtain ⟨inserted, hwalk⟩ := (hfollows i hi).node
  have hinv := hwalk.dagInv
  split
  · rename_i hp
    have hreach : net.Reachable env s.world.unpolled := h.unpolled
    have hsync := hreach.syncInv hhonest hfree
    have hnode := hsync.nodes i hi
    obtain ⟨m, hm⟩ := hinv.finalHeights_eq_range hlamport
      (fun peer hpeer => (net.fresh peer hpeer).1) p
    have hitems := hinv.itemsOf_finalisedItems p
      (s.world.nodes i).core.store fun v hv hcreator => ?_
    · rw [hm] at hitems
      exact hitems ▸ h.stored_prefix hhonest hfree hi hp m
    · obtain ⟨e, he, hevent, -⟩ :=
        hinv.store.lookup_vertex (hinv.present_of_frame_lt hv)
      have hheld : v.1 ∈ Network.held s.world.unpolled i := ⟨_, e, he, hevent⟩
      obtain ⟨e', he'⟩ := hnode.store.of_held v.1 hheld
      obtain ⟨hmem, hcreator', hheight'⟩ := hnode.store.indexed _ _ e' he'
      have hhistory := (hreach.clockInv.nodes i hi).store.history
      have hsame := hsync.lineage.fork_free _ _ (hhistory.made _ hmem) (hmade v)
        hcreator' hheight'
      rw [hcreator] at he'
      exact ⟨e', he', congrArg HashEvent.transactions hsame⟩
  · rename_i hp
    have hitems := hinv.itemsOf_finalisedItems p SledStore.empty
      fun v _ hcreator => absurd (hcreator ▸ EventDag.creator_mem_peers v) hp
    have hnone : transactionsAt (SledStore.empty : SledStore P D T H Sig) p =
        fun _ => [] := rfl
    rw [hnone, List.flatMap_eq_nil_iff.mpr fun _ _ => rfl] at hitems
    exact hitems ▸ List.nil_prefix

/-- The network as a state of the ideal service: what was handed in at its nodes, what
each node has finalised, and as the log what the furthest node has. -/
structure Represents (net : Network P PK SK) (s : Service P D T H PK SK Sig)
    (b : Broadcast P D) : Prop where
  submitted : ∀ i, b.submitted i = if i ∈ net.ids then s.submitted i else []
  learned : ∀ i ∈ net.ids, b.learned i = (s.world.nodes i).core.finalisedItems
  log : b.log = [] ∨ ∃ i ∈ net.ids, b.log = (s.world.nodes i).core.finalisedItems

variable {b : Broadcast P D}

theorem Initial.represents (h : Initial net env s) :
    Represents net s Broadcast.start where
  submitted i := by
    split
    · exact (h.submitted i ‹_›).symm
    · rfl
  learned i hi := by
    obtain ⟨core, hnew, hnode⟩ := h.world.node i hi
    obtain ⟨store, -, rfl⟩ := DAGcore.new_eq_ok hnew
    rw [hnode]
    rfl
  log := Or.inl rfl

omit [LinearOrder H] [Inhabited H] in
/-- One node moves: what is handed in is submitted, what it has finalised is put in
the log as far as it is not there, and the node learns it. -/
theorem Represents.node {n : NodeState P D T H PK SK Sig} {out : Output P D T H Sig}
    (h : Represents net s b) (hi : i ∈ net.ids)
    (hmono : (s.world.nodes i).core.finalisedItems <+: n.core.finalisedItems)
    (hlog : b.log <+: n.core.finalisedItems ∨ n.core.finalisedItems <+: b.log)
    (hlogged : ∀ p, itemsOf p n.core.finalisedItems <+:
      if p ∈ net.ids then (s.node i n out).submitted p else []) :
    ∃ b', Represents net (s.node i n out) b' ∧ ReflTransGen Broadcast.Step b b' := by
  have hself : (s.node i n out).world.nodes i = n :=
    World.step_nodes_self s.world i n out
  have hother : ∀ j, j ≠ i → (s.node i n out).world.nodes j = s.world.nodes j :=
    fun j hne => World.step_nodes_of_ne s.world hne n out
  -- first the transactions are handed in
  let b₁ : Broadcast P D := { b with
    submitted := Function.update b.submitted i (b.submitted i ++ out.submitted) }
  have hsubmitted : ∀ p, b₁.submitted p =
      if p ∈ net.ids then (s.node i n out).submitted p else [] := by
    intro p
    by_cases hpi : p = i
    · subst hpi
      rw [node_submitted_self, if_pos hi]
      refine (Function.update_self ..).trans ?_
      rw [h.submitted p, if_pos hi]
    · rw [node_submitted_of_ne _ _ _ hpi]
      exact (Function.update_of_ne hpi ..).trans (h.submitted p)
  have hstart : ReflTransGen Broadcast.Step b b₁ := Broadcast.submit_all i _
  have hlearned : b₁.learned i <+: n.core.finalisedItems :=
    (h.learned i hi).symm ▸ hmono
  by_cases hahead : b.log <+: n.core.finalisedItems
  · -- the node has gone beyond the log, which is brought up to it
    have horder := Broadcast.order_up_to (b := b₁) hahead fun p => by
      rw [hsubmitted]
      exact hlogged p
    have hlearn := Broadcast.learn_up_to (b := { b₁ with log := n.core.finalisedItems })
      hlearned List.prefix_rfl
    refine ⟨{ b₁ with
      log := n.core.finalisedItems
      learned := Function.update b₁.learned i n.core.finalisedItems },
      ⟨hsubmitted, ?_, Or.inr ⟨i, hi, ?_⟩⟩, hstart.trans (horder.trans hlearn)⟩
    · intro j hj
      by_cases hji : j = i
      · subst hji
        rw [hself]
        exact Function.update_self ..
      · rw [hother j hji]
        exact (Function.update_of_ne hji ..).trans (h.learned j hj)
    · rw [hself]
  · have hbehind := hlog.resolve_left hahead
    have hlearn := Broadcast.learn_up_to hlearned hbehind
    refine ⟨{ b₁ with learned := Function.update b₁.learned i n.core.finalisedItems },
      ⟨hsubmitted, ?_, ?_⟩, hstart.trans hlearn⟩
    · intro j hj
      by_cases hji : j = i
      · subst hji
        rw [hself]
        exact Function.update_self ..
      · rw [hother j hji]
        exact (Function.update_of_ne hji ..).trans (h.learned j hj)
    · refine h.log.imp id ?_
      rintro ⟨j, hj, hat⟩
      refine ⟨j, hj, ?_⟩
      have hji : j ≠ i := by
        rintro rfl
        rw [hat] at hahead
        exact hahead hmono
      rw [hother j hji]
      exact hat

/-- Each step of the network is matched by the ideal service. -/
theorem Represents.step (hhonest : net.Honest env) (h : Reachable net env Unheld s)
    (hstep : Step net env Unheld s s') (hfree : net.CollisionFree env s'.world)
    (hrep : Represents net s b) :
    ∃ b', Represents net s' b' ∧ ReflTransGen Broadcast.Step b b' := by
  have hrun : ReflTransGen (Step net env Unheld) s s' := .single hstep
  have h' := h.run hrun
  obtain ⟨dag, -, -, hfollows, hfollows'⟩ := h.follow_one_graph hhonest hrun hfree
  cases hstep with
  | @node i n out hi hnode hreceived =>
      have hself : (s.node i n out).world.nodes i = n :=
        World.step_nodes_self s.world i n out
      obtain ⟨inserted', hnode'⟩ := (hfollows' i hi).node
      have hfirst' : ((s.node i n out).streaming i).core = n.core :=
        congrArg NodeState.core hself
      rw [hfirst'] at hnode'
      -- two nodes before and after the step have one log as far as both go
      have hcompare : ∀ j ∈ net.ids,
          (s.world.nodes j).core.finalisedItems <+: n.core.finalisedItems ∨
            n.core.finalisedItems <+: (s.world.nodes j).core.finalisedItems := by
        intro j hj
        obtain ⟨inserted, hother⟩ := (hfollows j hj).node
        rcases Nat.le_total (s.streaming j).core.firstNotFinalisedFrame
          n.core.firstNotFinalisedFrame with hle | hle
        · have hpre := hother.dagInv.finalisedItems_prefix hnode'.dagInv hle
          exact Or.inl hpre
        · have hpre := hnode'.dagInv.finalisedItems_prefix hother.dagInv hle
          exact Or.inr hpre
      have hmono : (s.world.nodes i).core.finalisedItems <+: n.core.finalisedItems := by
        obtain ⟨inserted, hbefore⟩ := (hfollows i hi).node
        have hle := first_le_of_run hrun i
        rw [hfirst'] at hle
        have hpre := hbefore.dagInv.finalisedItems_prefix hnode'.dagInv hle
        exact hpre
      refine hrep.node hi hmono ?_ fun p => ?_
      · rcases hrep.log with hnil | ⟨j, hj, hat⟩
        · rw [hnil]
          exact Or.inl List.nil_prefix
        · rw [hat]
          exact hcompare j hj
      · have hfinal := h'.finalised_prefix hhonest hfree hi p
        rwa [hself] at hfinal
  | @poll i items after hi hsection =>
      have hsame : ∀ j, ((s.poll i items after).world.nodes j).core.finalisedItems =
          (s.world.nodes j).core.finalisedItems := by
        intro j
        have hnode := congrArg (fun w => (World.nodes w j).core.finalisedItems)
          (poll_unpolled hsection)
        exact hnode
      refine ⟨b, ⟨hrep.submitted, fun j hj => ?_, hrep.log.imp id ?_⟩, .refl⟩
      · rw [hsame]
        exact hrep.learned j hj
      · rintro ⟨j, hj, hat⟩
        exact ⟨j, hj, hat.trans (hsame j).symm⟩

/-- A run of the network is a run of the ideal broadcast service, from its start and
from any state on: what is handed in at the nodes is submitted, what a node has
finalised is what the service has let it learn. -/
theorem refines_broadcast (hhonest : net.Honest env) (h : Reachable net env Unheld s)
    (hlater : ReflTransGen (Step net env Unheld) s s')
    (hfree : net.CollisionFree env s'.world) :
    ∃ b b', Broadcast.Reachable b ∧ Represents net s b ∧
      ReflTransGen Broadcast.Step b b' ∧ Represents net s' b' := by
  have hmatch : ∀ {s s' b}, Reachable net env Unheld s →
      ReflTransGen (Step net env Unheld) s s' →
      net.CollisionFree env s'.world → Represents net s b →
      ∃ b', Represents net s' b' ∧ ReflTransGen Broadcast.Step b b' := by
    intro s s' b h hrun hfree hrep
    induction hrun with
    | refl => exact ⟨b, hrep, .refl⟩
    | @tail s₁ s₂ hbefore hstep ih =>
        obtain ⟨b₁, hrep₁, hrun₁⟩ := ih (hfree.of_subset hstep.created_subset)
        obtain ⟨b₂, hrep₂, hrun₂⟩ :=
          Represents.step hhonest (h.run hbefore) hstep hfree hrep₁
        exact ⟨b₂, hrep₂, hrun₁.trans hrun₂⟩
  obtain ⟨s₀, hinit, hrun⟩ := id h
  obtain ⟨b, hrep, hbroadcast⟩ := hmatch ⟨s₀, hinit, .refl⟩ hrun
    (hfree.of_subset (created_subset_of_run hlater)) hinit.represents
  obtain ⟨b', hrep', hbroadcast'⟩ := hmatch h hlater hfree hrep
  exact ⟨b, b', hbroadcast, hrep, hbroadcast', hrep'⟩

end Service

end Runs

namespace TwoPeers

/-- The first peer was handed 8, which is in one of its events, and 6, which is still in
its pool.  The second one was handed 7 and 9; its events are stored at both peers. -/
theorem polled_conserves :
    (ownTransactions (polled.1.world.nodes 0).core.store 0 4 = [8] ∧
      ∃ bound, 3 < bound ∧
        ownTransactions (polled.1.world.nodes 0).core.store 0 bound ++ [] ++ [6] =
          polled.1.submitted 0) ∧
    ownTransactions (polled.1.world.nodes 0).core.store 1 4 = [7, 9] ∧
      ownTransactions (polled.1.world.nodes 0).core.store 1 4 <+:
        polled.1.submitted 1 := by
  obtain ⟨⟨bound, hcovers, htotal⟩, -⟩ := Service.transactions_conserved honest
    reachable_polled collisionFree_polled (p := 0) (by decide)
  have hother := (Service.transactions_conserved honest reachable_polled
    collisionFree_polled (p := 1) (by decide)).2 0 (by decide) 4
  have hstored : ∃ e, (polled.1.world.nodes 0).core.store.event (.creator 0 3) = some e :=
    Option.isSome_iff_exists.mp (by decide +kernel)
  obtain ⟨e, he⟩ := hstored
  have hflight : (polled.1.world.nodes 0).procA.inFlight = [] := by decide +kernel
  have hpool : (polled.1.world.nodes 0).core.txPool = [6] := by decide +kernel
  rw [hflight, hpool] at htotal
  exact ⟨⟨by decide +kernel, bound, hcovers 3 e he, htotal⟩, by decide +kernel, hother⟩

/-- The first peer has learned two items, and then a third one. -/
theorem polled_refines :
    (talked.1.world.nodes 0).core.finalisedItems = [(7, 1), (8, 0)] ∧
    (polled.1.world.nodes 0).core.finalisedItems = [(7, 1), (8, 0), (9, 1)] ∧
    ∃ b b' : Broadcast Nat Nat, b.Reachable ∧ Service.Represents net talked.1 b ∧
      Relation.ReflTransGen Broadcast.Step b b' ∧ Service.Represents net polled.1 b' :=
  ⟨by decide +kernel, by decide +kernel,
    Service.refines_broadcast honest reachable_talked polled.2 collisionFree_polled⟩

end TwoPeers

end ConsensusDag
