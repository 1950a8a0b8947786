/-
The clocks of a network.  A node's clock is never behind the events it stores,
is about to insert or has collected for a reply, and the clock in a reply is
never behind the reply's events; so an event is made later than its parents.
-/
import ConsensusDag.EventFlow

namespace ConsensusDag

variable {P D T H PK SK Sig : Type}

/-- A known event that is not later than `time`. -/
structure Dated (made : HashEvent P D T H → Prop) (time : Nat)
    (v : HashEvent P D T H) : Prop where
  made : made v
  le : v.lamportTimestamp ≤ time

variable {made made' : HashEvent P D T H → Prop} {time time' : Nat}

theorem Dated.mono {v : HashEvent P D T H} (h : Dated made time v)
    (hmade : ∀ v, made v → made' v) (htime : time ≤ time') :
    Dated made' time' v :=
  ⟨hmade v h.made, h.le.trans htime⟩

/-- A hash of a known event that is not later than `time`. -/
def DatedHash (env : Env P D T H PK SK Sig) (made : HashEvent P D T H → Prop)
    (time : Nat) (k : H) : Prop :=
  ∃ v, Dated made time v ∧ env.eventHash v = .ok k

/-- An event whose parents are known and were made before it. -/
def Later (env : Env P D T H PK SK Sig) (made : HashEvent P D T H → Prop)
    (v : HashEvent P D T H) : Prop :=
  ∃ s o, made s ∧ made o ∧ env.eventHash s = .ok v.selfParent ∧
    env.eventHash o = .ok v.otherParent ∧
    s.lamportTimestamp < v.lamportTimestamp ∧
    o.lamportTimestamp < v.lamportTimestamp

theorem Later.mono {env : Env P D T H PK SK Sig} {v : HashEvent P D T H}
    (h : Later env made v) (hmade : ∀ v, made v → made' v) :
    Later env made' v := by
  obtain ⟨s, o, hs, ho, hrest⟩ := h
  exact ⟨s, o, hmade s hs, hmade o ho, hrest⟩

section Store

/-- The store holds known events that the clock is not behind, and with an event
that is not a leaf both of its parents. -/
structure StoreClock (env : Env P D T H PK SK Sig)
    (leaf made : HashEvent P D T H → Prop) (time : Nat)
    (store : SledStore P D T H Sig) : Prop where
  dated : ∀ key e, store.event key = some e → Dated made time e.toHashEvent
  hashed : ∀ key e, store.event key = some e →
    env.eventHash e.toHashEvent = .ok e.hash
  hash_key : ∀ k e, store.event (.hash k) = some e → e.hash = k
  closed : ∀ key e, store.event key = some e → ¬ leaf e.toHashEvent →
    (∃ s, store.event (.hash e.selfParent) = some s) ∧
      ∃ o, store.event (.hash e.otherParent) = some o

variable {env : Env P D T H PK SK Sig} {leaf : HashEvent P D T H → Prop}
  {store store' : SledStore P D T H Sig}

theorem StoreClock.eventHash_key (h : StoreClock env leaf made time store) {k : H}
    {e : Event P D T H Sig} (he : store.event (.hash k) = some e) :
    env.eventHash e.toHashEvent = .ok k := by
  rw [h.hashed _ e he, h.hash_key k e he]

theorem StoreClock.empty : StoreClock env leaf made time SledStore.empty :=
  ⟨fun _ _ h => (Option.some_ne_none _ h.symm).elim,
    fun _ _ h => (Option.some_ne_none _ h.symm).elim,
    fun _ _ h => (Option.some_ne_none _ h.symm).elim,
    fun _ _ h => (Option.some_ne_none _ h.symm).elim⟩

theorem StoreClock.mono (h : StoreClock env leaf made time store)
    (hmade : ∀ v, made v → made' v) (htime : time ≤ time') :
    StoreClock env leaf made' time' store :=
  { h with dated := fun key e he => (h.dated key e he).mono hmade htime }

/-- Writing an event under both of its keys, with its parents in the store
unless it is a leaf. -/
theorem StoreClock.write [DecidableEq P] [DecidableEq H]
    (h : StoreClock env leaf made time store) {e : Event P D T H Sig}
    (hevent : store'.event = (store.setEvent e).event)
    (hdated : Dated made time e.toHashEvent)
    (hhash : env.eventHash e.toHashEvent = .ok e.hash)
    (hparents : ¬ leaf e.toHashEvent →
      (∃ s, store.event (.hash e.selfParent) = some s) ∧
        ∃ o, store.event (.hash e.otherParent) = some o) :
    StoreClock env leaf made time store' := by
  have hcases : ∀ key e', store'.event key = some e' →
      e' = e ∨ store.event key = some e' := by
    rw [hevent]
    exact fun _ _ => store.setEvent_event_cases
  have hgrows : ∀ k, (∃ e', store.event (.hash k) = some e') →
      ∃ e', store'.event (.hash k) = some e' := by
    rw [hevent]
    exact fun _ => store.setEvent_event_grows e
  constructor
  case dated =>
    intro key e' he'
    rcases hcases key e' he' with rfl | hold
    · exact hdated
    · exact h.dated key e' hold
  case hashed =>
    intro key e' he'
    rcases hcases key e' he' with rfl | hold
    · exact hhash
    · exact h.hashed key e' hold
  case hash_key =>
    intro k e' he'
    rw [hevent, SledStore.setEvent_event_hash] at he'
    split at he'
    · rename_i hk
      rw [← Option.some.inj he', hk]
    · exact h.hash_key k e' he'
  case closed =>
    intro key e' he' hleaf
    rcases hcases key e' he' with rfl | hold
    · exact (hparents hleaf).imp (hgrows _) (hgrows _)
    · exact (h.closed key e' hold hleaf).imp (hgrows _) (hgrows _)

theorem StoreClock.insert [LinearOrder P] [LinearOrder H]
    {core core' : DAGcore P D T H PK SK Sig} {event : Event P D T H Sig}
    (h : StoreClock env leaf made time core.store)
    (ins : DAGcore.Insertion env core event core')
    (hdated : Dated made time event.toHashEvent) :
    StoreClock env leaf made time core'.store :=
  h.write (e := ins.stored) ins.event_eq hdated ins.hash_eq fun _ =>
    ⟨⟨_, ins.self_stored⟩, ⟨_, ins.other_stored⟩⟩

end Store

section Node

/-- Where `procedure_a` has read the parents, their events are known; the event
it has formed is known too, and the clock is not behind them. -/
def ProcA.Clocked (env : Env P D T H PK SK Sig)
    (made : HashEvent P D T H → Prop) (time : Nat) :
    ProcA P D T H PK Sig → Prop
  | .parents _ selfParent otherParent =>
      DatedHash env made time selfParent ∧ DatedHash env made time otherParent
  | .formed event => Dated made time event.toHashEvent
  | _ => True

/-- The clock in a reply is not behind the events that go with it. -/
def Answer.Clocked (made : HashEvent P D T H → Prop)
    (answer : Answer P D T H Sig) : Prop :=
  ∀ ev ∈ answer.reply.events, Dated made answer.reply.lamportTime ev.toHashEvent

def ProcB.Clocked (made : HashEvent P D T H → Prop) (time : Nat) :
    ProcB P D T H Sig → Prop
  | .collected _ events _ => ∀ ev ∈ events, Dated made time ev.toHashEvent
  | .listed _ events _ _ => ∀ ev ∈ events, Dated made time ev.toHashEvent
  | .formed _ answer => answer.Clocked made
  | _ => True

/-- The clock of a node is not behind the events its store and its threads
hold. -/
structure NodeClock (env : Env P D T H PK SK Sig)
    (leaf made : HashEvent P D T H → Prop) (time : Nat)
    (n : NodeState P D T H PK SK Sig) : Prop where
  store : StoreClock env leaf made time n.core.store
  procA : n.procA.Clocked env made time
  listener : ∀ ev ∈ n.listener.carried, Dated made time ev.toHashEvent
  procB : n.procB.Clocked made time

variable {env : Env P D T H PK SK Sig} {leaf : HashEvent P D T H → Prop}
  {n n' : NodeState P D T H PK SK Sig}

theorem Answer.Clocked.mono {answer : Answer P D T H Sig}
    (h : answer.Clocked made) (hmade : ∀ v, made v → made' v) :
    answer.Clocked made' :=
  fun ev hev => (h ev hev).mono hmade (Nat.le_refl _)

theorem NodeClock.mono (h : NodeClock env leaf made time n)
    (hmade : ∀ v, made v → made' v) (htime : time ≤ time') :
    NodeClock env leaf made' time' n := by
  constructor
  case store => exact h.store.mono hmade htime
  case procA =>
    have hproc := h.procA
    revert hproc
    cases n.procA with
    | parents height s o =>
        rintro ⟨⟨v, hv, hs⟩, w, hw, ho⟩
        exact ⟨⟨v, hv.mono hmade htime, hs⟩, w, hw.mono hmade htime, ho⟩
    | formed event => exact fun hevent => hevent.mono hmade htime
    | start | chosen | requested | numbered | paired => exact fun _ => trivial
  case listener => exact fun ev hev => (h.listener ev hev).mono hmade htime
  case procB =>
    have hproc := h.procB
    revert hproc
    cases n.procB with
    | collected req events snapshot =>
        exact fun hevents ev hev => (hevents ev hev).mono hmade htime
    | listed req events snapshot gossipList =>
        exact fun hevents ev hev => (hevents ev hev).mono hmade htime
    | formed req answer => exact fun hanswer => hanswer.mono hmade
    | idle | updated => exact fun _ => trivial

variable [LinearOrder P] [LinearOrder H] [Inhabited H]
  {requests : List (SyncReq P)} {replies : List (Answer P D T H Sig)}
  {out : Output P D T H Sig}

/-- What one step of a node keeps, once everything made so far, this step
included, counts as known. -/
theorem NodeClock.step (h : NodeClock env leaf made n.core.lamportTime n)
    (hstep : NodeStep env requests replies n n' out)
    (hreplies : ∀ answer ∈ replies, answer.Clocked made)
    (hmade : ∀ v, made v → made' v) (hcreated : ∀ v ∈ out.created, made' v) :
    NodeClock env leaf made' n'.core.lamportTime n' ∧
      (∀ answer ∈ out.replies, answer.Clocked made') ∧
      ∀ v ∈ out.created, Later env made' v := by
  have hkeep := h.mono hmade (Nat.le_refl _)
  have hnone : (∀ answer ∈ ([] : List (Answer P D T H Sig)),
      answer.Clocked made') ∧
      ∀ v ∈ ([] : List (HashEvent P D T H)), Later env made' v :=
    ⟨fun _ hmem => (List.not_mem_nil hmem).elim,
      fun _ hmem => (List.not_mem_nil hmem).elim⟩
  cases hstep with
  | choosePeer _ _ => exact ⟨{ hkeep with procA := trivial }, hnone⟩
  | sendRequest _ => exact ⟨{ hkeep with procA := trivial }, hnone⟩
  | nextHeight _ _ _ _ => exact ⟨{ hkeep with procA := trivial }, hnone⟩
  | otherHeight _ _ => exact ⟨{ hkeep with procA := trivial }, hnone⟩
  | readParents _ ho hs =>
      have hread : ∀ key e, n.core.store.event key = some e →
          DatedHash env made' n.core.lamportTime e.hash := fun key e he =>
        ⟨e.toHashEvent, hkeep.store.dated key e he, hkeep.store.hashed key e he⟩
      exact ⟨{ hkeep with
        procA := ⟨hread _ _ (SledStore.getEventOfCreator_eq_ok.mp hs),
          hread _ _ (SledStore.getEventOfCreator_eq_ok.mp ho)⟩ }, hnone⟩
  | formEvent hproc htime htx hitx hevent =>
      obtain ⟨rfl, rfl⟩ := getNextLamportTime_eq_ok htime
      cases htx
      cases hitx
      subst hevent
      have hparents := hkeep.procA
      rw [hproc] at hparents
      obtain ⟨⟨s, hs, hself⟩, o, ho, hother⟩ := hparents
      refine ⟨{ h.mono hmade (Nat.le_succ _) with
        procA := ⟨hcreated _ List.mem_cons_self, Nat.le_refl _⟩ }, hnone.1, ?_⟩
      intro v hv
      rw [List.mem_singleton.mp hv]
      exact ⟨s, o, hs.made, ho.made, hself, hother, Nat.lt_succ_of_le hs.le,
        Nat.lt_succ_of_le ho.le⟩
  | insertOwn hproc hhash hinsert =>
      obtain ⟨-, ⟨ins⟩⟩ := DAGcore.insertEvent_eq_ok hinsert
      obtain ⟨-, rfl⟩ := Event.eventHash_eq_ok.mp hhash
      have hevent := hkeep.procA
      rw [hproc] at hevent
      simp only [ins.lamportTime_eq]
      exact ⟨{ hkeep with
        store := hkeep.store.insert ins hevent, procA := trivial }, hnone⟩
  | receiveReply _ hmem =>
      simp only [updateLamportTime_eq]
      refine ⟨{ h.mono hmade (Nat.le_max_left _ _) with listener := ?_ }, hnone⟩
      intro ev hev
      exact (hreplies _ hmem ev hev).mono hmade (Nat.le_max_right _ _)
  | checkEvent hlistener hevent _ =>
      have hcarried := hkeep.listener
      rw [hlistener] at hcarried
      refine ⟨{ hkeep with listener := ?_ }, hnone⟩
      rw [Listener.carried, (toEvent_eq_ok hevent).1]
      exact hcarried
  | skipEvent hlistener _ _ =>
      have hcarried := hkeep.listener
      rw [hlistener] at hcarried
      exact ⟨{ hkeep with
        listener := fun ev hev => hcarried ev (List.mem_cons_of_mem _ hev) },
        hnone⟩
  | insertEvent hlistener hinsert =>
      obtain ⟨-, ⟨ins⟩⟩ := DAGcore.insertEvent_eq_ok hinsert
      have hcarried := hkeep.listener
      rw [hlistener] at hcarried
      have hevent := hcarried _ List.mem_cons_self
      simp only [ins.lamportTime_eq]
      exact ⟨{ hkeep with
        store := hkeep.store.insert ins hevent
        listener := fun ev hev => hcarried ev (List.mem_cons_of_mem _ hev) },
        hnone⟩
  | updatePeer hlistener _ _ =>
      have hcarried := hkeep.listener
      rw [hlistener] at hcarried
      exact ⟨{ hkeep with listener := hcarried }, hnone⟩
  | finishReply _ =>
      exact ⟨{ hkeep with
        listener := fun _ hev => (List.not_mem_nil hev).elim }, hnone⟩
  | receiveRequest _ _ =>
      simp only [updateLamportTime_eq]
      exact ⟨{ h.mono hmade (Nat.le_max_left _ _) with procB := trivial }, hnone⟩
  | collectEvents _ _ hevents =>
      refine ⟨{ hkeep with procB := ?_ }, hnone⟩
      intro ev hev
      obtain ⟨creator, g, height, e, -, hchain, rfl⟩ :=
        (SledStore.mem_getEventsForGossip hevents).mp hev
      exact hkeep.store.dated _ e hchain.stored
  | collectFails _ _ _ => exact ⟨{ hkeep with procB := trivial }, hnone⟩
  | listGossip hproc =>
      have hevents := hkeep.procB
      rw [hproc] at hevents
      exact ⟨{ hkeep with procB := hevents }, hnone⟩
  | formReply hproc =>
      have hevents := hkeep.procB
      rw [hproc] at hevents
      exact ⟨{ hkeep with procB := hevents }, hnone⟩
  | sendReply hproc _ =>
      have hanswer := hkeep.procB
      rw [hproc] at hanswer
      refine ⟨{ hkeep with procB := trivial }, ?_, hnone.2⟩
      intro answer hmem
      rw [List.mem_singleton.mp hmem]
      exact hanswer
  | sendFails _ _ => exact ⟨{ hkeep with procB := trivial }, hnone⟩
  | addTransaction _ => exact ⟨{ hkeep with }, hnone⟩

end Node

namespace Network

variable [LinearOrder P] [LinearOrder H] [Inhabited H] {net : Network P PK SK}
  {env : Env P D T H PK SK Sig} {w w' : World P D T H PK SK Sig}

variable (net env w) in
structure ClockInv : Prop where
  nodes : ∀ i ∈ net.ids, NodeClock env net.Leaf (net.Made w)
    (w.nodes i).core.lamportTime (w.nodes i)
  replies : ∀ answer ∈ w.replies, answer.Clocked (net.Made w)
  created : ∀ v ∈ w.created, Later env (net.Made w) v

/-- What was made stays made. -/
theorem Step.made_mono (h : net.Step env w w') (v : HashEvent P D T H)
    (hv : net.Made w v) : net.Made w' v := by
  cases h with
  | node _ _ => exact hv.imp id fun hmem => List.mem_append_right _ hmem

/-- Nothing that is made goes away, so a collision would stay. -/
theorem CollisionFree.of_step (hfree : net.CollisionFree env w')
    (hstep : net.Step env w w') : net.CollisionFree env w := by
  intro v v' k hv hv'
  exact hfree v v' k (hstep.made_mono v hv) (hstep.made_mono v' hv')

theorem ClockInv.step (h : net.ClockInv env w) (hstep : net.Step env w w') :
    net.ClockInv env w' := by
  have hmono := hstep.made_mono
  cases hstep with
  | @node i n out hi hnode =>
      obtain ⟨hnew, hreplies, hcreated⟩ := (h.nodes i hi).step hnode
        (fun answer hmem => h.replies answer (List.mem_of_mem_filter hmem))
        hmono fun v hv => Or.inr (List.mem_append_left _ hv)
      constructor
      case nodes =>
        intro j hj
        by_cases hji : j = i
        · subst hji
          rw [World.step_nodes_self]
          exact hnew
        · rw [World.step_nodes_of_ne w hji]
          exact (h.nodes j hj).mono hmono (Nat.le_refl _)
      case replies =>
        intro answer hmem
        rcases List.mem_append.mp hmem with hmem | hmem
        · exact hreplies answer hmem
        · exact (h.replies answer hmem).mono hmono
      case created =>
        intro v hv
        rcases List.mem_append.mp hv with hv | hv
        · exact hcreated v hv
        · exact (h.created v hv).mono hmono

theorem insertLeaf_storeClock {made : HashEvent P D T H → Prop} {time : Nat}
    {store store' : SledStore P D T H Sig}
    (h : StoreClock env net.Leaf made time store)
    (hmade : ∀ v, net.Leaf v → made v) {peer : DAGPeer P PK}
    (hpeer : peer ∈ net.peers)
    (hbody : DAGcore.insertLeaf env store peer = .ok store') :
    StoreClock env net.Leaf made time store' := by
  obtain ⟨k, hk, rfl⟩ := DAGcore.insertLeaf_eq_ok hbody
  have hleaf : net.Leaf (leafHashEvent peer : HashEvent P D T H) :=
    ⟨peer, hpeer, rfl⟩
  refine h.write rfl ⟨hmade _ hleaf, ?_⟩ hk fun hnot => absurd hleaf hnot
  exact (Nat.le_of_eq (net.fresh peer hpeer).2).trans (Nat.zero_le _)

/-- A new node holds the leaf events, all at time 0. -/
theorem new_storeClock {i : P} (hi : i ∈ net.ids) {made : HashEvent P D T H → Prop}
    (hmade : ∀ v, net.Leaf v → made v) {core : DAGcore P D T H PK SK Sig}
    (hnew : DAGcore.new env (net.conf i) SledStore.empty = .ok core) :
    StoreClock env net.Leaf made core.lamportTime core.store := by
  have hstore : StoreClock env net.Leaf made 0 core.store := by
    refine DAGcore.new_induct (I := fun _ store =>
      StoreClock env net.Leaf made 0 store) hnew .empty ?_
    intro done peer store store' hmem _ hstore hbody
    have hpeer : peer ∈ net.peers := (net.peers_perm i hi).mem_iff.mp
      (hmem peer (List.mem_append_right _ List.mem_cons_self))
    exact insertLeaf_storeClock hstore hmade hpeer hbody
  obtain ⟨store, -, rfl⟩ := DAGcore.new_eq_ok hnew
  exact hstore

theorem Reachable.clockInv (h : net.Reachable env w) : net.ClockInv env w := by
  induction h with
  | initial h =>
      constructor
      case nodes =>
        intro i hi
        obtain ⟨core, hnew, hnode⟩ := h.node i hi
        rw [hnode]
        exact ⟨new_storeClock hi (fun _ hv => Or.inl hv) hnew, trivial,
          fun _ hv => (List.not_mem_nil hv).elim, trivial⟩
      case replies =>
        intro answer hmem
        rw [h.replies] at hmem
        exact (List.not_mem_nil hmem).elim
      case created =>
        intro v hv
        rw [h.created] at hv
        exact (List.not_mem_nil hv).elim
  | step _ hstep ih => exact ih.step hstep

/-- In every reachable state a node's clock is not behind its events, and a
stored event that is not a leaf is later than its parents, which are stored. -/
theorem clock_condition (h : net.Reachable env w) (hfree : net.CollisionFree env w)
    {i : P} (hi : i ∈ net.ids) {key : EventKey P H} {e : Event P D T H Sig}
    (he : (w.nodes i).core.store.event key = some e) :
    e.lamportTimestamp ≤ (w.nodes i).core.lamportTime ∧
      (¬ net.Leaf e.toHashEvent →
        ∃ s o, (w.nodes i).core.store.event (.hash e.selfParent) = some s ∧
          (w.nodes i).core.store.event (.hash e.otherParent) = some o ∧
          s.lamportTimestamp < e.lamportTimestamp ∧
          o.lamportTimestamp < e.lamportTimestamp) := by
  have hinv := h.clockInv
  have hstore := (hinv.nodes i hi).store
  refine ⟨(hstore.dated key e he).le, fun hleaf => ?_⟩
  obtain ⟨⟨s, hs⟩, o, ho⟩ := hstore.closed key e he hleaf
  have hcreated : e.toHashEvent ∈ w.created :=
    (hstore.dated key e he).made.resolve_left hleaf
  obtain ⟨s', o', hs', ho', hself, hother, hlt, hlt'⟩ :=
    hinv.created _ hcreated
  -- the parents an event was made from are the ones stored under its hashes
  have hsame : ∀ k v p, net.Made w v → env.eventHash v = .ok k →
      (w.nodes i).core.store.event (.hash k) = some p → p.toHashEvent = v := by
    intro k v p hv hk hp
    exact hfree _ _ k (hstore.dated _ p hp).made hv (hstore.eventHash_key hp) hk
  rw [← hsame _ s' s hs' hself hs] at hlt
  rw [← hsame _ o' o ho' hother ho] at hlt'
  exact ⟨s, o, hs, ho, hlt, hlt'⟩

end Network

namespace TwoPeers

def net : Network Nat Unit Unit where
  peers := peers
  conf := conf
  fresh := by
    intro peer hpeer
    have hall : ∀ peer ∈ peers, peer.height = 0 ∧ peer.lamportTime = 0 := by
      decide
    exact hall peer hpeer
  creator_eq _ _ := rfl
  peers_perm _ _ := List.Perm.refl _

abbrev Node := NodeState Nat Nat Unit Nat Unit Unit Unit

def idle (i : Nat) : Node := ⟨start i, .start, .idle, .idle⟩

def world (n₀ n₁ : Node) (requests : List (SyncReq Nat))
    (replies : List (Answer Nat Nat Unit Nat Unit))
    (created : List (HashEvent Nat Nat Unit Nat)) :
    World Nat Nat Unit Nat Unit Unit Unit :=
  ⟨fun i => if i = 0 then n₀ else if i = 1 then n₁ else idle 0, requests, replies,
    created⟩

section Steps

variable {n₀ n₁ n : Node} {requests : List (SyncReq Nat)}
  {replies : List (Answer Nat Nat Unit Nat Unit)}
  {created : List (HashEvent Nat Nat Unit Nat)} {out : Output Nat Nat Unit Nat Unit}

theorem reachable_start :
    net.Reachable env (world (idle 0) (idle 1) [] [] []) := by
  refine .initial ⟨?_, rfl, rfl, rfl⟩
  intro i hi
  have hall : ∀ i ∈ net.ids, i = 0 ∨ i = 1 := by decide
  rcases hall i hi with rfl | rfl
  · exact ⟨start 0, rfl, rfl⟩
  · exact ⟨start 1, rfl, rfl⟩

theorem step_zero (hstep : NodeStep env
      (requests.filter fun req => req.toId = 0)
      (replies.filter fun answer => answer.reply.toId = 0) n₀ n out) :
    net.Step env (world n₀ n₁ requests replies created)
      (world n n₁ (out.requests ++ requests) (out.replies ++ replies)
        (out.created ++ created)) := by
  have hnext : net.Step env (world n₀ n₁ requests replies created) _ :=
    .node (i := 0) (by decide) hstep
  convert hnext using 1
  unfold world World.step
  congr 1
  funext i
  by_cases hi : i = 0
  · subst hi
    rfl
  · simp [hi]

theorem step_one (hstep : NodeStep env
      (requests.filter fun req => req.toId = 1)
      (replies.filter fun answer => answer.reply.toId = 1) n₁ n out) :
    net.Step env (world n₀ n₁ requests replies created)
      (world n₀ n (out.requests ++ requests) (out.replies ++ replies)
        (out.created ++ created)) := by
  have hnext : net.Step env (world n₀ n₁ requests replies created) _ :=
    .node (i := 1) (by decide) hstep
  convert hnext using 1
  unfold world World.step
  congr 1
  funext i
  by_cases hi : i = 1
  · subst hi
    rfl
  · simp [hi]

theorem reachable_zero
    (h : net.Reachable env (world n₀ n₁ requests replies created))
    (hstep : NodeStep env (requests.filter fun req => req.toId = 0)
      (replies.filter fun answer => answer.reply.toId = 0) n₀ n out) :
    net.Reachable env (world n n₁ (out.requests ++ requests)
      (out.replies ++ replies) (out.created ++ created)) :=
  h.step (step_zero hstep)

theorem reachable_one
    (h : net.Reachable env (world n₀ n₁ requests replies created))
    (hstep : NodeStep env (requests.filter fun req => req.toId = 1)
      (replies.filter fun answer => answer.reply.toId = 1) n₁ n out) :
    net.Reachable env (world n₀ n (out.requests ++ requests)
      (out.replies ++ replies) (out.created ++ created)) :=
  h.step (step_one hstep)

end Steps

/-- The second peer with a transaction to send, and after its height is counted
and its event formed. -/
def pooled : Core := (start 1).addTransaction 7

def numbered : Core :=
  pooled.setPeers (pooled.conf.peers.writePeer 1 { peer 1 with height := 1 })

def formed : Core := { numbered with txPool := [], lamportTime := 1 }

theorem insertEvent_formed :
    formed.insertEvent env { b₁ with hash := 4 } =
      (.ok true, after formed [{ b₁ with hash := 4 }]) :=
  insertEvent_after (by decide +kernel)

/-- The second peer has stored its event. -/
def served : Core := after formed [{ b₁ with hash := 4 }]

def gossip : GossipList Nat := (start 0).conf.peers.getGossipList

theorem reachable_served : ∃ requests, net.Reachable env (world (idle 0)
    ⟨served, .start, .idle, .idle⟩ requests [] [b₁.toHashEvent]) := by
  have hpooled := reachable_one reachable_start (.addTransaction 7)
  have hchosen : net.Reachable env (world (idle 0)
      ⟨pooled, .chosen (peer 0) gossip, .idle, .idle⟩ _ _ _) :=
    reachable_one hpooled (.choosePeer rfl rfl)
  have hrequested := reachable_one hchosen (.sendRequest rfl)
  have hnumbered : net.Reachable env (world (idle 0)
      ⟨numbered, .numbered (peer 0) 1, .idle, .idle⟩ _ _ _) :=
    reachable_one hrequested (.nextHeight rfl rfl rfl rfl)
  have hpaired := reachable_one hnumbered (.otherHeight rfl rfl)
  have hparents := reachable_one hpaired (.readParents rfl rfl rfl)
  have hformed : net.Reachable env (world (idle 0)
      ⟨formed, .formed b₁, .idle, .idle⟩ _ _ _) :=
    reachable_one hparents (.formEvent rfl rfl rfl rfl rfl)
  exact ⟨_, reachable_one hformed (.insertOwn rfl rfl insertEvent_formed)⟩

theorem collisionFree {w : World Nat Nat Unit Nat Unit Unit Unit}
    (h : w.created = [b₁.toHashEvent]) : net.CollisionFree env w := by
  have hsub : ∀ v, net.Made w v → InGraph peers dag.events v := by
    rintro v (hleaf | hmem)
    · exact Or.inl hleaf
    · change v ∈ w.created at hmem
      rw [h, List.mem_singleton] at hmem
      rw [hmem]
      exact Or.inr (show b₁.toHashEvent ∈ dagEvents by decide)
  exact fun v v' k hv hv' => dag.collision_free v v' k (hsub v hv) (hsub v' hv')

/-- The second peer's event is later than the two leaf events it names. -/
theorem served_clock : ∃ e s o, served.store.event (.hash 4) = some e ∧
    e.lamportTimestamp ≤ served.lamportTime ∧
    served.store.event (.hash e.selfParent) = some s ∧
    served.store.event (.hash e.otherParent) = some o ∧
    s.lamportTimestamp < e.lamportTimestamp ∧
    o.lamportTimestamp < e.lamportTimestamp := by
  obtain ⟨requests, hserved⟩ := reachable_served
  have hstored : served.store.event (.hash 4) = some { b₁ with
      hash := 4, frameNumber := 1, signatures := AList.insert 1 () ∅ } := rfl
  obtain ⟨hle, hparents⟩ := Network.clock_condition hserved (collisionFree rfl)
    (i := 1) (by decide) hstored
  obtain ⟨s, o, hrest⟩ := hparents (Network.not_leaf_of_pos (by decide))
  exact ⟨_, s, o, hstored, hle, hrest⟩

end TwoPeers

end ConsensusDag
