/-
A network whose nodes have consumers.  Each section of `poll_next` is a step of its
own, as is each section of the node's threads.  The consumers have no part in what
the nodes do: with cursors and wakers taken away, a run is one of the network alone.
-/
import ConsensusDag.SoloRun
import ConsensusDag.SyncDelivery
import ConsensusDag.WakeUp

namespace ConsensusDag

open Relation

variable {P D T H PK SK Sig : Type}

/-- The state of a node that nobody has polled. -/
def DAGcore.unpolled (core : DAGcore P D T H PK SK Sig) :
    DAGcore P D T H PK SK Sig :=
  { core with
    conf := { core.conf with waker := none }
    currentFrame := none
    currentEvent := some 0
    currentTx := some 0
    wakes := [] }

def NodeState.unpolled (n : NodeState P D T H PK SK Sig) :
    NodeState P D T H PK SK Sig :=
  { n with core := n.core.unpolled }

def World.unpolled (w : World P D T H PK SK Sig) : World P D T H PK SK Sig :=
  { w with nodes := fun i => (w.nodes i).unpolled }

/-- The item that a call is about to hand out. -/
def Consumer.items : Consumer P D → List (D × P)
  | .delivering _ item => [item]
  | _ => []

/-- The sections of `poll_next`, with the items that they hand out. -/
inductive PollSection :
    Streaming P D T H PK SK Sig → List (D × P) → Streaming P D T H PK SK Sig → Prop
  | quit {s} : s.consumer.resting → s.core.shutdown = true →
      PollSection s [] { s with consumer := .idle }
  | enter {s} (waker : Nat) : s.consumer.resting → s.core.shutdown = false →
      PollSection s [] { s with consumer := .entered waker }
  | readNone {s waker} : s.consumer = .entered waker →
      s.core.lastFinalisedFrame = none →
      PollSection s []
        ⟨s.core.setWaker waker, .waiting waker none s.core.wakes.length⟩
  | readSome {s waker last} : s.consumer = .entered waker →
      s.core.lastFinalisedFrame = some last →
      PollSection s []
        { s with consumer := .looping waker last s.core.finalisedLog }
  | turn {s waker last log core'} : s.consumer = .looping waker last log →
      s.core.pollTurn waker last = .again core' →
      PollSection s [] { s with core := core' }
  | pend {s waker last log core'} : s.consumer = .looping waker last log →
      s.core.pollTurn waker last = .pending core' →
      PollSection s [] ⟨core', .waiting waker (some last) core'.wakes.length⟩
  | emit {s waker last log item core'} : s.consumer = .looping waker last log →
      s.core.pollTurn waker last = .data item core' →
      PollSection s [] ⟨core', .delivering waker item⟩
  | deliver {s waker item} : s.consumer = .delivering waker item →
      PollSection s [item] ⟨s.core.setWaker waker, .idle⟩

/-- A node with its consumer takes a section of a call, or inserts an event. -/
theorem sectionStep_iff [LinearOrder P] [LinearOrder H]
    {env : Env P D T H PK SK Sig} {s s' : Streaming P D T H PK SK Sig} :
    SectionStep env s s' ↔
      (∃ event result core', s.core.insertEvent env event = (result, core') ∧
        s' = { s with core := core' }) ∨ ∃ items, PollSection s items s' := by
  constructor
  · intro h
    cases h with
    | insert hinsert => exact Or.inl ⟨_, _, _, hinsert, rfl⟩
    | quit hresting hshutdown => exact Or.inr ⟨_, .quit hresting hshutdown⟩
    | enter waker hresting hshutdown =>
        exact Or.inr ⟨_, .enter waker hresting hshutdown⟩
    | readNone hentered hlast => exact Or.inr ⟨_, .readNone hentered hlast⟩
    | readSome hentered hlast => exact Or.inr ⟨_, .readSome hentered hlast⟩
    | turn hlooping hturn => exact Or.inr ⟨_, .turn hlooping hturn⟩
    | pend hlooping hturn => exact Or.inr ⟨_, .pend hlooping hturn⟩
    | emit hlooping hturn => exact Or.inr ⟨_, .emit hlooping hturn⟩
    | deliver hdelivering => exact Or.inr ⟨_, .deliver hdelivering⟩
  · rintro (⟨event, result, core', hinsert, rfl⟩ | ⟨items, h⟩)
    · exact .insert hinsert
    · cases h with
      | quit hresting hshutdown => exact .quit hresting hshutdown
      | enter waker hresting hshutdown => exact .enter waker hresting hshutdown
      | readNone hentered hlast => exact .readNone hentered hlast
      | readSome hentered hlast => exact .readSome hentered hlast
      | turn hlooping hturn => exact .turn hlooping hturn
      | pend hlooping hturn => exact .pend hlooping hturn
      | emit hlooping hturn => exact .emit hlooping hturn
      | deliver hdelivering => exact .deliver hdelivering

section Erasure

variable {core core' : DAGcore P D T H PK SK Sig}

theorem setWaker_unpolled (core : DAGcore P D T H PK SK Sig) (waker : Nat) :
    (core.setWaker waker).unpolled = core.unpolled :=
  rfl

theorem pollTurn_unpolled {waker last : Nat} {items : List (D × P)}
    (h : (core.pollTurn waker last).result = some (items, core')) :
    core'.unpolled = core.unpolled := by
  obtain ⟨frame, event, -, hread⟩ := DAGcore.pollTurn_result h
  obtain ⟨_, _, _, _, _, _, rfl⟩ := DAGcore.readEvent_result hread
  unfold DAGcore.advance
  simp only
  split
  · rfl
  · split <;> rfl

/-- A section of a call changes cursor and waker, and nothing else. -/
theorem PollSection.unpolled {s s' : Streaming P D T H PK SK Sig}
    {items : List (D × P)} (h : PollSection s items s') :
    s'.core.unpolled = s.core.unpolled := by
  cases h with
  | quit | enter | readSome => rfl
  | readNone | deliver => exact setWaker_unpolled _ _
  | turn _ hturn => exact pollTurn_unpolled (congrArg PollTurn.result hturn)
  | pend _ hturn =>
      obtain ⟨-, rfl⟩ := DAGcore.pollTurn_pending hturn
      exact setWaker_unpolled _ _
  | emit _ hturn => exact pollTurn_unpolled (congrArg PollTurn.result hturn)

theorem updateLamportTime_unpolled (core : DAGcore P D T H PK SK Sig) (time : Nat) :
    (core.updateLamportTime time).unpolled =
      core.unpolled.updateLamportTime time := by
  rw [updateLamportTime_eq, updateLamportTime_eq]
  rfl

theorem getNextLamportTime_unpolled {time : Nat}
    (h : core.getNextLamportTime = .ok (time, core')) :
    core.unpolled.getNextLamportTime = .ok (time, core'.unpolled) := by
  unfold DAGcore.getNextLamportTime at h ⊢
  simp only [Result.bind_eq_ok] at h ⊢
  obtain ⟨later, hlater, h⟩ := h
  cases h
  exact ⟨_, hlater, rfl⟩

theorem getNextLamportTime_of_unpolled {time : Nat}
    (h : core.unpolled.getNextLamportTime = .ok (time, core')) :
    ∃ core'', core.getNextLamportTime = .ok (time, core'') ∧
      core''.unpolled = core' := by
  unfold DAGcore.getNextLamportTime at h ⊢
  simp only [Result.bind_eq_ok] at h ⊢
  obtain ⟨later, hlater, h⟩ := h
  cases h
  exact ⟨_, ⟨_, hlater, rfl⟩, rfl⟩

variable [LinearOrder P] [LinearOrder H] {env : Env P D T H PK SK Sig}

omit [LinearOrder P] in
theorem finaliseFrames_unpolled (core : DAGcore P D T H PK SK Sig)
    (frames : List Nat) :
    (core.finaliseFrames frames).unpolled = core.unpolled.finaliseFrames frames := by
  induction frames generalizing core with
  | nil => rfl
  | cons f rest ih => exact ih (core.finaliseFrame f)

/-- So `insert_event` comes to the same with or without a consumer. -/
theorem insertEvent_unpolled {event : Event P D T H Sig} {rc : Bool}
    (h : core.insertEvent env event = (.ok rc, core')) :
    core.unpolled.insertEvent env event = (.ok rc, core'.unpolled) := by
  obtain ⟨k, prepared, signed, ft, frames, hprepare, hsign, hframes, rfl, rfl⟩ :=
    DAGcore.insertEvent_parts h
  rw [finaliseFrames_unpolled]
  have hprepare' : core.unpolled.prepareEvent env event = .ok (k, prepared, ft) :=
    hprepare
  exact DAGcore.insertEvent_of_parts hprepare' hsign hframes

theorem insertEvent_of_unpolled {event : Event P D T H Sig} {rc : Bool}
    (h : core.unpolled.insertEvent env event = (.ok rc, core')) :
    ∃ core'', core.insertEvent env event = (.ok rc, core'') ∧
      core''.unpolled = core' := by
  obtain ⟨k, prepared, signed, ft, frames, hprepare, hsign, hframes, rfl, rfl⟩ :=
    DAGcore.insertEvent_parts h
  have hprepare' : core.prepareEvent env event = .ok (k, prepared, ft) := hprepare
  exact ⟨_, DAGcore.insertEvent_of_parts hprepare' hsign hframes,
    finaliseFrames_unpolled _ frames⟩

variable [Inhabited H] {requests : List (SyncReq P)}
  {replies : List (Answer P D T H Sig)} {n n' : NodeState P D T H PK SK Sig}
  {out : Output P D T H Sig}

/-- What a node does, it does without its consumer too. -/
theorem NodeStep.unpolled (h : NodeStep env requests replies n n' out) :
    NodeStep env requests replies n.unpolled n'.unpolled out := by
  cases h with
  | choosePeer hproc hnext => exact .choosePeer hproc hnext
  | sendRequest hproc => exact .sendRequest hproc
  | nextHeight hproc hfind hget hnext =>
      exact .nextHeight hproc hfind hget hnext
  | otherHeight hproc hfind => exact .otherHeight hproc hfind
  | readParents hproc ho hs => exact .readParents hproc ho hs
  | formEvent hproc htime htx hitx hevent =>
      cases htx
      cases hitx
      exact .formEvent hproc (getNextLamportTime_unpolled htime) rfl rfl hevent
  | insertOwn hproc hhash hinsert =>
      exact .insertOwn hproc hhash (insertEvent_unpolled hinsert)
  | receiveReply hlistener hmem =>
      have hstep : NodeStep env requests replies n.unpolled _ {} :=
        .receiveReply hlistener hmem
      change NodeStep _ _ _ _ ⟨(n.core.updateLamportTime _).unpolled, _, _, _⟩ _
      rw [updateLamportTime_unpolled]
      exact hstep
  | checkEvent hlistener hevent hcheck => exact .checkEvent hlistener hevent hcheck
  | skipEvent hlistener hevent hcheck => exact .skipEvent hlistener hevent hcheck
  | insertEvent hlistener hinsert =>
      exact .insertEvent hlistener (insertEvent_unpolled hinsert)
  | updatePeer hlistener hfind hget => exact .updatePeer hlistener hfind hget
  | finishReply hlistener => exact .finishReply hlistener
  | receiveRequest hproc hmem =>
      have hstep : NodeStep env requests replies n.unpolled _ {} :=
        .receiveRequest hproc hmem
      change NodeStep _ _ _ _ ⟨(n.core.updateLamportTime _).unpolled, _, _, _⟩ _
      rw [updateLamportTime_unpolled]
      exact hstep
  | collectEvents hproc hperm hevents => exact .collectEvents hproc hperm hevents
  | collectFails hproc hperm hevents => exact .collectFails hproc hperm hevents
  | listGossip hproc => exact .listGossip hproc
  | formReply hproc => exact .formReply hproc
  | sendReply hproc hfind => exact .sendReply hproc hfind
  | sendFails hproc hfind => exact .sendFails hproc hfind
  | addTransaction data => exact .addTransaction data

/-- And what it does without, it does with its consumer. -/
theorem NodeStep.of_unpolled {m : NodeState P D T H PK SK Sig}
    (h : NodeStep env requests replies n.unpolled m out) :
    ∃ n', NodeStep env requests replies n n' out ∧ n'.unpolled = m := by
  cases h with
  | choosePeer hproc hnext => exact ⟨_, .choosePeer hproc hnext, rfl⟩
  | sendRequest hproc => exact ⟨_, .sendRequest hproc, rfl⟩
  | nextHeight hproc hfind hget hnext =>
      exact ⟨_, .nextHeight hproc hfind hget hnext, rfl⟩
  | otherHeight hproc hfind => exact ⟨_, .otherHeight hproc hfind, rfl⟩
  | readParents hproc ho hs => exact ⟨_, .readParents hproc ho hs, rfl⟩
  | formEvent hproc htime htx hitx hevent =>
      cases htx
      cases hitx
      obtain ⟨core', htime', rfl⟩ := getNextLamportTime_of_unpolled htime
      exact ⟨_, .formEvent hproc htime' rfl rfl hevent, rfl⟩
  | insertOwn hproc hhash hinsert =>
      obtain ⟨core', hinsert', rfl⟩ := insertEvent_of_unpolled hinsert
      exact ⟨_, .insertOwn hproc hhash hinsert', rfl⟩
  | receiveReply hlistener hmem =>
      refine ⟨_, .receiveReply hlistener hmem, ?_⟩
      rw [NodeState.unpolled, updateLamportTime_unpolled]
      rfl
  | checkEvent hlistener hevent hcheck =>
      exact ⟨_, .checkEvent hlistener hevent hcheck, rfl⟩
  | skipEvent hlistener hevent hcheck =>
      exact ⟨_, .skipEvent hlistener hevent hcheck, rfl⟩
  | insertEvent hlistener hinsert =>
      obtain ⟨core', hinsert', rfl⟩ := insertEvent_of_unpolled hinsert
      exact ⟨_, .insertEvent hlistener hinsert', rfl⟩
  | updatePeer hlistener hfind hget =>
      exact ⟨_, .updatePeer hlistener hfind hget, rfl⟩
  | finishReply hlistener => exact ⟨_, .finishReply hlistener, rfl⟩
  | receiveRequest hproc hmem =>
      refine ⟨_, .receiveRequest hproc hmem, ?_⟩
      rw [NodeState.unpolled, updateLamportTime_unpolled]
      rfl
  | collectEvents hproc hperm hevents =>
      exact ⟨_, .collectEvents hproc hperm hevents, rfl⟩
  | collectFails hproc hperm hevents =>
      exact ⟨_, .collectFails hproc hperm hevents, rfl⟩
  | listGossip hproc => exact ⟨_, .listGossip hproc, rfl⟩
  | formReply hproc => exact ⟨_, .formReply hproc, rfl⟩
  | sendReply hproc hfind => exact ⟨_, .sendReply hproc hfind, rfl⟩
  | sendFails hproc hfind => exact ⟨_, .sendFails hproc hfind, rfl⟩
  | addTransaction data => exact ⟨_, .addTransaction data, rfl⟩

end Erasure

/-- A network with its consumers: what was handed in at each node so far, and what
its stream has handed out. -/
structure Service (P D T H PK SK Sig : Type) where
  world : World P D T H PK SK Sig
  consumers : P → Consumer P D
  delivered : P → List (D × P)
  submitted : P → List D

namespace Service

variable [LinearOrder P] [LinearOrder H] [Inhabited H]

def streaming (s : Service P D T H PK SK Sig) (i : P) :
    Streaming P D T H PK SK Sig :=
  ⟨(s.world.nodes i).core, s.consumers i⟩

/-- A thread of node `i` has taken a step. -/
def node (s : Service P D T H PK SK Sig) (i : P) (n : NodeState P D T H PK SK Sig)
    (out : Output P D T H Sig) : Service P D T H PK SK Sig :=
  { s with
    world := s.world.step i n out
    submitted := Function.update s.submitted i (s.submitted i ++ out.submitted) }

/-- The consumer of node `i` has taken a step. -/
def poll (s : Service P D T H PK SK Sig) (i : P) (items : List (D × P))
    (after : Streaming P D T H PK SK Sig) : Service P D T H PK SK Sig :=
  { s with
    world := s.world.step i { s.world.nodes i with core := after.core } {}
    consumers := Function.update s.consumers i after.consumer
    delivered := Function.update s.delivered i (s.delivered i ++ items) }

section Updates

omit [LinearOrder H] [Inhabited H]

variable (s : Service P D T H PK SK Sig) {i j : P} (n : NodeState P D T H PK SK Sig)
  (out : Output P D T H Sig) (items : List (D × P))
  (after : Streaming P D T H PK SK Sig)

@[simp] theorem node_streaming_self :
    (s.node i n out).streaming i = ⟨n.core, s.consumers i⟩ :=
  congrArg (fun m => Streaming.mk m.core (s.consumers i))
    (World.step_nodes_self s.world i n out)

@[simp] theorem node_streaming_of_ne (hne : j ≠ i) :
    (s.node i n out).streaming j = s.streaming j :=
  congrArg (fun m => Streaming.mk m.core (s.consumers j))
    (World.step_nodes_of_ne s.world hne n out)

@[simp] theorem poll_streaming_self : (s.poll i items after).streaming i = after := by
  have hcore : ((s.poll i items after).world.nodes i).core = after.core :=
    congrArg NodeState.core (World.step_nodes_self s.world i _ {})
  have hconsumer : (s.poll i items after).consumers i = after.consumer :=
    Function.update_self ..
  rw [streaming, hcore, hconsumer]

@[simp] theorem poll_streaming_of_ne (hne : j ≠ i) :
    (s.poll i items after).streaming j = s.streaming j := by
  have hnode : (s.poll i items after).world.nodes j = s.world.nodes j :=
    World.step_nodes_of_ne s.world hne _ {}
  have hconsumer : (s.poll i items after).consumers j = s.consumers j :=
    Function.update_of_ne hne ..
  rw [streaming, hnode, hconsumer, streaming]

@[simp] theorem poll_delivered_self :
    (s.poll i items after).delivered i = s.delivered i ++ items :=
  Function.update_self ..

@[simp] theorem poll_delivered_of_ne (hne : j ≠ i) :
    (s.poll i items after).delivered j = s.delivered j :=
  Function.update_of_ne hne ..

@[simp] theorem node_submitted_self :
    (s.node i n out).submitted i = s.submitted i ++ out.submitted :=
  Function.update_self ..

@[simp] theorem node_submitted_of_ne (hne : j ≠ i) :
    (s.node i n out).submitted j = s.submitted j :=
  Function.update_of_ne hne ..

end Updates

/-- The nodes have just been started, and nobody polls them. -/
structure Initial (net : Network P PK SK) (env : Env P D T H PK SK Sig)
    (s : Service P D T H PK SK Sig) : Prop where
  world : net.Initial env s.world
  waker : ∀ i ∈ net.ids, (net.conf i).waker = none
  consumers : ∀ i ∈ net.ids, s.consumers i = .idle
  delivered : ∀ i ∈ net.ids, s.delivered i = []
  submitted : ∀ i ∈ net.ids, s.submitted i = []

/-- A thread or a consumer takes a step.  Of an event that a listener inserts,
`received` holds. -/
inductive Step (net : Network P PK SK) (env : Env P D T H PK SK Sig)
    (received : DAGcore P D T H PK SK Sig → Event P D T H Sig → Prop) :
    Service P D T H PK SK Sig → Service P D T H PK SK Sig → Prop
  | node {s : Service P D T H PK SK Sig} {i : P}
      {n : NodeState P D T H PK SK Sig} {out : Output P D T H Sig} : i ∈ net.ids →
      NodeStep env (s.world.requestsTo i) (s.world.repliesTo i) (s.world.nodes i) n
        out →
      (∀ event, Takes (s.world.nodes i) n event →
        received (s.world.nodes i).core event) →
      Step net env received s (s.node i n out)
  | poll {s : Service P D T H PK SK Sig} {i : P} {items : List (D × P)}
      {after : Streaming P D T H PK SK Sig} : i ∈ net.ids →
      PollSection (s.streaming i) items after →
      Step net env received s (s.poll i items after)

/-- The states of a network with its consumers, over all interleavings. -/
def Reachable (net : Network P PK SK) (env : Env P D T H PK SK Sig)
    (received : DAGcore P D T H PK SK Sig → Event P D T H Sig → Prop)
    (s : Service P D T H PK SK Sig) : Prop :=
  ∃ s₀, Initial net env s₀ ∧ ReflTransGen (Step net env received) s₀ s

variable {net : Network P PK SK} {env : Env P D T H PK SK Sig}
  {received : DAGcore P D T H PK SK Sig → Event P D T H Sig → Prop}
  {s s' : Service P D T H PK SK Sig}

theorem Reachable.run (h : Reachable net env received s)
    (hlater : ReflTransGen (Step net env received) s s') :
    Reachable net env received s' := by
  obtain ⟨s₀, hinit, hrun⟩ := h
  exact ⟨s₀, hinit, hrun.trans hlater⟩

omit [LinearOrder H] [Inhabited H] in
theorem unpolled_step (w : World P D T H PK SK Sig) (i : P)
    (n : NodeState P D T H PK SK Sig) (out : Output P D T H Sig) :
    (w.step i n out).unpolled = w.unpolled.step i n.unpolled out := by
  unfold World.unpolled World.step
  congr 1
  funext j
  change (Function.update w.nodes i n j).unpolled =
    Function.update (fun j => (w.nodes j).unpolled) i n.unpolled j
  by_cases hji : j = i
  · subst hji
    rw [Function.update_self, Function.update_self]
  · rw [Function.update_of_ne hji, Function.update_of_ne hji]

omit [LinearOrder H] [Inhabited H] in
/-- The network does not see a section of a call. -/
theorem poll_unpolled {i : P} {items : List (D × P)}
    {after : Streaming P D T H PK SK Sig}
    (hsection : PollSection (s.streaming i) items after) :
    (s.poll i items after).world.unpolled = s.world.unpolled := by
  have hnode : NodeState.unpolled { s.world.nodes i with core := after.core } =
      (s.world.nodes i).unpolled := by
    unfold NodeState.unpolled
    rw [show after.core.unpolled = (s.world.nodes i).core.unpolled from
      hsection.unpolled]
  change (s.world.step i { s.world.nodes i with core := after.core } {}).unpolled = _
  rw [unpolled_step, hnode]
  unfold World.step
  congr 1
  exact Function.update_eq_self i s.world.unpolled.nodes

/-- Without the consumers, a step is one of the network or none at all. -/
theorem Step.unpolled (h : Step net env received s s') :
    net.Step env s.world.unpolled s'.world.unpolled ∨
      s'.world.unpolled = s.world.unpolled := by
  cases h with
  | @node i n out hi hstep _ =>
      left
      change net.Step env _ (s.world.step i n out).unpolled
      rw [unpolled_step]
      exact .node hi hstep.unpolled
  | poll _ hsection => exact Or.inr (poll_unpolled hsection)

theorem Initial.unpolled (h : Initial net env s) :
    net.Initial env s.world.unpolled := by
  refine { h.world with node := fun i hi => ?_ }
  obtain ⟨core, hnew, hnode⟩ := h.world.node i hi
  refine ⟨core, hnew, ?_⟩
  change (s.world.nodes i).unpolled = _
  rw [hnode]
  obtain ⟨store, -, rfl⟩ := DAGcore.new_eq_ok hnew
  unfold NodeState.unpolled DAGcore.unpolled
  simp only [← h.waker i hi]

/-- A run with consumers is, without them, a run of the network. -/
theorem Reachable.unpolled (h : Reachable net env received s) :
    net.Reachable env s.world.unpolled := by
  obtain ⟨s₀, hinit, hrun⟩ := h
  induction hrun with
  | refl => exact .initial hinit.unpolled
  | tail _ hstep ih =>
      rcases hstep.unpolled with hnode | hsame
      · exact .step ih hnode
      · rw [hsame]
        exact ih

end Service

end ConsensusDag
