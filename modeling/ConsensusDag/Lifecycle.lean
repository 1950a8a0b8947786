/-
A node from its start to the end of `drop`.  Its owner polls it, hands in transactions,
shuts it down and drops it.  `listener` and `procedure_a` ask at the head of each round
whether they have to end: `listener` finds a message to quit and sets the flag by which
all others end.
-/
import ConsensusDag.NetworkDag
import ConsensusDag.Consumers

namespace ConsensusDag

open Relation

variable {P D T H PK SK Sig : Type}

def DAGcore.setShutdown (core : DAGcore P D T H PK SK Sig) (shutdown : Bool) :
    DAGcore P D T H PK SK Sig :=
  { core with shutdown := shutdown }

/-- Take the waker that is registered, if any, and call it. -/
def DAGcore.wake (core : DAGcore P D T H PK SK Sig) : DAGcore P D T H PK SK Sig :=
  { core with
    conf := { core.conf with waker := none }
    wakes := core.wakes ++ core.conf.waker.toList }

/-- Two states with the same events, frames and finalisation point. -/
structure DAGcore.SameEvents (core core' : DAGcore P D T H PK SK Sig) : Prop where
  store : core'.store = core.store
  last : core'.lastFinalisedFrame = core.lastFinalisedFrame
  log : core'.finalisedLog = core.finalisedLog

/-- Where a thread is in its loop. -/
inductive LoopPoint
  | head
  | inside
  | ended
deriving DecidableEq, Repr

/-- Where the owner is in `drop`, which waits for the threads one by one. -/
inductive Owner
  | inUse
  | joinsListener
  | joinsProcA
  | wakes
  | joinsProcB
deriving DecidableEq, Repr

def Owner.joinedListener : Owner → Bool
  | .inUse => false
  | .joinsListener => false
  | _ => true

def Owner.joinedProcA : Owner → Bool
  | .wakes => true
  | .joinsProcB => true
  | _ => false

/-- A reply is in hand. -/
def Listener.busy : Listener P D T H Sig → Bool
  | .idle => false
  | _ => true

/-- An event is in preparation. -/
def ProcA.busy : ProcA P D T H PK Sig → Bool
  | .start => false
  | _ => true

/-- When a round is over, the thread is back at the head of its loop. -/
def LoopPoint.next (point : LoopPoint) (before after : Bool) : LoopPoint :=
  if before && !after then .head else point

/-- `DAG`: the node, how far its threads and its owner are, the messages to quit that
`listener` has not read, and what the stream has handed out. -/
structure DAG (P D T H PK SK Sig : Type) where
  node : NodeState P D T H PK SK Sig
  consumer : Consumer P D
  quits : Nat
  listener : LoopPoint
  procA : LoopPoint
  owner : Owner
  delivered : List (D × P)

namespace DAG

def start (core : DAGcore P D T H PK SK Sig) : DAG P D T H PK SK Sig where
  node := ⟨core, .start, .idle, .idle⟩
  consumer := .idle
  quits := 0
  listener := .head
  procA := .head
  owner := .inUse
  delivered := []

def streaming (s : DAG P D T H PK SK Sig) : Streaming P D T H PK SK Sig :=
  ⟨s.node.core, s.consumer⟩

/-- A thread has taken a step inside its round, or a transaction has been handed in. -/
def move (s : DAG P D T H PK SK Sig) (n : NodeState P D T H PK SK Sig) :
    DAG P D T H PK SK Sig :=
  { s with
    node := n
    listener := s.listener.next s.node.listener.busy n.listener.busy
    procA := s.procA.next s.node.procA.busy n.procA.busy }

def setCore (s : DAG P D T H PK SK Sig) (core : DAGcore P D T H PK SK Sig) :
    DAG P D T H PK SK Sig :=
  { s with node := { s.node with core := core } }

variable [LinearOrder P] [LinearOrder H] [Inhabited H]

/-- One step of a thread or of the owner, who has the node to himself: he does nothing
else during a call of `poll_next`.  The inbox holds whatever the peers like. -/
inductive Step (env : Env P D T H PK SK Sig) :
    DAG P D T H PK SK Sig → DAG P D T H PK SK Sig → Prop
  -- `listener`; the sender of the channel is alive until `drop` is through
  | listenerQuits {s} : s.listener = .head → 0 < s.quits →
      Step env s { s.setCore (s.node.core.setShutdown true) with
        quits := s.quits - 1, listener := .ended }
  | listenerGoesOn {s} : s.listener = .head → s.quits = 0 →
      Step env s { s with listener := .inside }
  -- there are no more replies
  | repliesEnd {s} : s.listener = .inside → s.node.listener = .idle →
      Step env s { s with listener := .head }
  -- `procedure_a`
  | procAQuits {s} : s.procA = .head → s.node.core.shutdown = true →
      Step env s { s with procA := .ended }
  | procAGoesOn {s} : s.procA = .head → s.node.core.shutdown = false →
      Step env s { s with procA := .inside }
  | move {s requests replies n out} : NodeStep env requests replies s.node n out →
      (n.listener ≠ s.node.listener → s.listener = .inside) →
      (n.procA ≠ s.node.procA → s.procA = .inside) →
      (out.submitted ≠ [] → s.owner = .inUse ∧ s.consumer.resting) →
      Step env s (s.move n)
  -- the owner
  | poll {s items after} : s.owner = .inUse → PollSection s.streaming items after →
      Step env s { s.setCore after.core with
        consumer := after.consumer, delivered := s.delivered ++ items }
  | shutdown {s} : s.owner = .inUse → s.consumer.resting →
      Step env s { s with quits := s.quits + 1 }
  | drop {s} : s.owner = .inUse → s.consumer.resting →
      Step env s { s with quits := s.quits + 1, owner := .joinsListener }
  | joinListener {s} : s.owner = .joinsListener → s.listener = .ended →
      Step env s { s with owner := .joinsProcA }
  | joinProcA {s} : s.owner = .joinsProcA → s.procA = .ended →
      Step env s { s with owner := .wakes }
  | wake {s} : s.owner = .wakes →
      Step env s { s.setCore s.node.core.wake with owner := .joinsProcB }

/-- The states of a node that is started on what a disk holds. -/
def Reachable (env : Env P D T H PK SK Sig) (conf : DAGconfig P PK SK)
    (s : DAG P D T H PK SK Sig) : Prop :=
  ∃ disk core, DAGcore.new env conf disk = .ok core ∧
    ReflTransGen (Step env) (start core) s

end DAG

section Steps

variable [LinearOrder P] [LinearOrder H] [Inhabited H] {env : Env P D T H PK SK Sig}
  {requests : List (SyncReq P)} {replies : List (Answer P D T H Sig)}
  {n n' : NodeState P D T H PK SK Sig} {out : Output P D T H Sig}

omit [LinearOrder P] [LinearOrder H] [Inhabited H] in
theorem DAGcore.SameEvents.trans {core core' core'' : DAGcore P D T H PK SK Sig}
    (h : core.SameEvents core') (h' : core'.SameEvents core'') :
    core.SameEvents core'' :=
  ⟨h'.store.trans h.store, h'.last.trans h.last, h'.log.trans h.log⟩

/-- Inside a round no thread touches the flag, and a thread either leaves waker and
woken tasks alone or wakes the task that is registered. -/
theorem NodeStep.wakes_cases (h : NodeStep env requests replies n n' out) :
    n'.core.shutdown = n.core.shutdown ∧
      (n'.core.conf.waker = n.core.conf.waker ∧ n'.core.wakes = n.core.wakes ∨
        n'.core.wakes = n.core.wakes ++ n.core.conf.waker.toList) := by
  have hinsertion : ∀ {event : Event P D T H Sig} {rc core'},
      n.core.insertEvent env event = (.ok rc, core') →
      core'.shutdown = n.core.shutdown ∧
        (core'.conf.waker = n.core.conf.waker ∧ core'.wakes = n.core.wakes ∨
          core'.wakes = n.core.wakes ++ n.core.conf.waker.toList) := by
    intro event rc core' hinsert
    obtain ⟨-, ⟨ins⟩⟩ := DAGcore.insertEvent_eq_ok hinsert
    refine ⟨ins.cursor_eq.2.2.2, ?_⟩
    rcases insertEvent_wakes hinsert with ⟨hwaker, hwakes, -⟩ | hwakes
    · exact Or.inl ⟨hwaker, hwakes⟩
    · exact Or.inr hwakes
  cases h with
  | insertOwn _ _ hinsert => exact hinsertion hinsert
  | insertEvent _ hinsert => exact hinsertion hinsert
  | formEvent _ htime htx hitx _ =>
      obtain ⟨-, rfl⟩ := getNextLamportTime_eq_ok htime
      cases htx
      cases hitx
      exact ⟨rfl, Or.inl ⟨rfl, rfl⟩⟩
  | receiveReply | receiveRequest =>
      rw [updateLamportTime_eq]
      exact ⟨rfl, Or.inl ⟨rfl, rfl⟩⟩
  | choosePeer | sendRequest | nextHeight | otherHeight | readParents
  | checkEvent | skipEvent | updatePeer | finishReply | collectEvents
  | collectFails | listGossip | formReply | sendReply | sendFails
  | addTransaction => exact ⟨rfl, Or.inl ⟨rfl, rfl⟩⟩

/-- What `procedure_a` is about to insert it has made for this node. -/
def NodeState.MakesOwn (n : NodeState P D T H PK SK Sig) : Prop :=
  ∀ event, n.procA = .formed event → event.creator = n.core.conf.creator

omit [LinearOrder P] [LinearOrder H] [Inhabited H] in
theorem NodeState.MakesOwn.of_eq (h : n.MakesOwn) (hprocA : n'.procA = n.procA)
    (hcreator : n'.core.conf.creator = n.core.conf.creator) : n'.MakesOwn := by
  intro event hformed
  rw [hcreator]
  exact h event (hprocA.symm.trans hformed)

theorem NodeState.MakesOwn.step (h : n.MakesOwn)
    (hstep : NodeStep env requests replies n n' out) : n'.MakesOwn := by
  have hcreator := hstep.sameKeys.creator
  cases hstep with
  | formEvent _ htime htx hitx hevent =>
      intro event hformed
      cases hformed
      rw [hcreator, hevent]
      rfl
  | choosePeer | sendRequest | nextHeight | otherHeight | readParents
  | insertOwn => exact fun _ => nofun
  | receiveReply | checkEvent | skipEvent | insertEvent | updatePeer
  | finishReply | receiveRequest | collectEvents | collectFails | listGossip
  | formReply | sendReply | sendFails | addTransaction => exact h.of_eq rfl hcreator

omit [LinearOrder P] [LinearOrder H] [Inhabited H]

theorem PollSection.sameEvents {s s' : Streaming P D T H PK SK Sig}
    {items : List (D × P)} (h : PollSection s items s') :
    s.core.SameEvents s'.core := by
  have hsame := h.unpolled
  have hstore := congrArg DAGcore.store hsame
  have hlast := congrArg DAGcore.lastFinalisedFrame hsame
  have hlog := congrArg DAGcore.finalisedLog hsame
  exact ⟨hstore, hlast, hlog⟩

/-- A call leaves the flag and the node's id alone. -/
theorem PollSection.flag_eq {s s' : Streaming P D T H PK SK Sig}
    {items : List (D × P)} (h : PollSection s items s') :
    s'.core.shutdown = s.core.shutdown ∧
      s'.core.conf.creator = s.core.conf.creator := by
  have hsame := h.unpolled
  have hflag := congrArg DAGcore.shutdown hsame
  have hcreator := congrArg (fun core => core.conf.creator) hsame
  exact ⟨hflag, hcreator⟩

/-- A call that returns `Pending` has just registered its waker. -/
theorem PollSection.registered {s s' : Streaming P D T H PK SK Sig}
    {items : List (D × P)} (h : PollSection s items s') {waker : Nat}
    {last : Option Nat} {wakes : Nat}
    (hwaiting : s'.consumer = .waiting waker last wakes) :
    s'.core.conf.waker = some waker ∧ wakes = s'.core.wakes.length := by
  cases h with
  | readNone =>
      cases hwaiting
      exact ⟨rfl, rfl⟩
  | pend _ hturn =>
      obtain ⟨-, rfl⟩ := DAGcore.pollTurn_pending hturn
      cases hwaiting
      exact ⟨rfl, rfl⟩
  | quit | enter | readSome | emit | deliver => cases hwaiting
  | turn hlooping => cases hlooping.symm.trans hwaiting

/-- A call that has begun hands out one item at most, with which it ends; after the
shutdown no other call begins. -/
theorem PollSection.after_shutdown {s s' : Streaming P D T H PK SK Sig}
    {items : List (D × P)} (h : PollSection s items s')
    (hshutdown : s.core.shutdown = true) :
    items = [] ∧ (s.consumer.resting → s'.consumer.resting) ∨
      ¬ s.consumer.resting ∧ s'.consumer.resting ∧ ∃ item, items = [item] := by
  have hbusy : ∀ {consumer : Consumer P D}, s.consumer = consumer →
      ¬ consumer.resting → ¬ s.consumer.resting := fun heq hnot => heq ▸ hnot
  cases h with
  | quit => exact Or.inl ⟨rfl, fun _ => trivial⟩
  | enter _ _ hopen => cases hshutdown.symm.trans hopen
  | readNone hentered | readSome hentered =>
      exact Or.inl ⟨rfl, fun hresting => (hbusy hentered id hresting).elim⟩
  | turn hlooping | pend hlooping | emit hlooping =>
      exact Or.inl ⟨rfl, fun hresting => (hbusy hlooping id hresting).elim⟩
  | deliver hdelivering => exact Or.inr ⟨hbusy hdelivering id, trivial, _, rfl⟩

end Steps

section Points

/-- Only a round that comes to its end moves a thread in its loop. -/
theorem LoopPoint.next_cases {point : LoopPoint} {before after : Bool}
    (hinside : before ≠ after → point = .inside) :
    point.next before after = point ∨
      point = .inside ∧ after = false ∧ point.next before after = .head := by
  cases before <;> cases after
  · exact Or.inl rfl
  · exact Or.inl rfl
  · exact Or.inr ⟨hinside nofun, rfl, rfl⟩
  · exact Or.inl rfl

theorem LoopPoint.next_eq_ended {point : LoopPoint} {before after : Bool}
    (hinside : before ≠ after → point = .inside) :
    point.next before after = .ended ↔ point = .ended := by
  rcases next_cases hinside with hsame | ⟨rfl, -, hhead⟩
  · rw [hsame]
  · rw [hhead]
    exact iff_of_false nofun nofun

theorem Listener.idle_of_busy {listener : Listener P D T H Sig}
    (h : listener.busy = false) : listener = .idle := by
  cases listener with
  | idle => rfl
  | processing | checked | inserted => cases h

theorem ProcA.start_of_busy {procA : ProcA P D T H PK Sig} (h : procA.busy = false) :
    procA = .start := by
  cases procA with
  | start => rfl
  | chosen | requested | numbered | paired | parents | formed => cases h

end Points

namespace DAG

variable [LinearOrder P] [LinearOrder H] [Inhabited H] {env : Env P D T H PK SK Sig}
  {conf : DAGconfig P PK SK} {s s' : DAG P D T H PK SK Sig}

/-- Threads that are not inside a round have nothing in hand; the flag is set when
`listener` ends, and each thread that the owner has waited for has ended. -/
structure Orderly (conf : DAGconfig P PK SK) (s : DAG P D T H PK SK Sig) : Prop where
  flag : s.node.core.shutdown = true ↔ s.listener = .ended
  listener : s.listener ≠ .inside → s.node.listener = .idle
  procA : s.procA ≠ .inside → s.node.procA = .start
  procAEnded : s.procA = .ended → s.listener = .ended
  joinedListener : s.owner.joinedListener = true → s.listener = .ended
  joinedProcA : s.owner.joinedProcA = true → s.procA = .ended
  resting : s.owner ≠ .inUse → s.consumer.resting
  creator : s.node.core.conf.creator = conf.creator
  own : s.node.MakesOwn

theorem Orderly.move (h : Orderly conf s) {requests : List (SyncReq P)}
    {replies : List (Answer P D T H Sig)} {n : NodeState P D T H PK SK Sig}
    {out : Output P D T H Sig} (hnode : NodeStep env requests replies s.node n out)
    (hlistener : n.listener ≠ s.node.listener → s.listener = .inside)
    (hprocA : n.procA ≠ s.node.procA → s.procA = .inside) :
    Orderly conf (s.move n) := by
  have hinside : s.node.listener.busy ≠ n.listener.busy → s.listener = .inside :=
    fun hne => hlistener fun heq => hne (congrArg Listener.busy heq.symm)
  have hinside' : s.node.procA.busy ≠ n.procA.busy → s.procA = .inside :=
    fun hne => hprocA fun heq => hne (congrArg ProcA.busy heq.symm)
  have hended := LoopPoint.next_eq_ended hinside
  have hended' := LoopPoint.next_eq_ended hinside'
  constructor
  case flag =>
    exact ((Bool.eq_iff_iff.mp hnode.wakes_cases.1).trans h.flag).trans hended.symm
  case listener =>
    intro hnot
    rcases LoopPoint.next_cases hinside with hsame | ⟨-, hbusy, -⟩
    · have hpoint : s.listener ≠ .inside := hsame ▸ hnot
      have heq : n.listener = s.node.listener := by
        by_contra hne
        exact hpoint (hlistener hne)
      exact heq.trans (h.listener hpoint)
    · exact Listener.idle_of_busy hbusy
  case procA =>
    intro hnot
    rcases LoopPoint.next_cases hinside' with hsame | ⟨-, hbusy, -⟩
    · have hpoint : s.procA ≠ .inside := hsame ▸ hnot
      have heq : n.procA = s.node.procA := by
        by_contra hne
        exact hpoint (hprocA hne)
      exact heq.trans (h.procA hpoint)
    · exact ProcA.start_of_busy hbusy
  case procAEnded => exact fun hends => hended.mpr (h.procAEnded (hended'.mp hends))
  case joinedListener => exact fun hjoined => hended.mpr (h.joinedListener hjoined)
  case joinedProcA => exact fun hjoined => hended'.mpr (h.joinedProcA hjoined)
  case resting => exact h.resting
  case creator => exact hnode.sameKeys.creator.trans h.creator
  case own => exact h.own.step hnode

theorem Orderly.step (h : Orderly conf s) (hstep : Step env s s') :
    Orderly conf s' := by
  cases hstep with
  | listenerQuits hhead _ =>
      exact {
        flag := iff_of_true rfl rfl
        listener := fun _ => h.listener (hhead ▸ nofun)
        procA := h.procA
        procAEnded := fun _ => rfl
        joinedListener := fun _ => rfl
        joinedProcA := h.joinedProcA
        resting := h.resting
        creator := h.creator
        own := h.own }
  | listenerGoesOn hhead _ =>
      have hrunning : s.listener ≠ .ended := hhead ▸ nofun
      exact { h with
        flag := iff_of_false (fun hflag => hrunning (h.flag.mp hflag)) nofun
        listener := fun hnot => absurd rfl hnot
        procAEnded := fun hended => absurd (h.procAEnded hended) hrunning
        joinedListener := fun hjoined => absurd (h.joinedListener hjoined) hrunning }
  | repliesEnd hinside hidle =>
      have hrunning : s.listener ≠ .ended := hinside ▸ nofun
      exact { h with
        flag := iff_of_false (fun hflag => hrunning (h.flag.mp hflag)) nofun
        listener := fun _ => hidle
        procAEnded := fun hended => absurd (h.procAEnded hended) hrunning
        joinedListener := fun hjoined => absurd (h.joinedListener hjoined) hrunning }
  | procAQuits hhead hshutdown =>
      exact { h with
        procA := fun _ => h.procA (hhead ▸ nofun)
        procAEnded := fun _ => h.flag.mp hshutdown
        joinedProcA := fun _ => rfl }
  | procAGoesOn hhead hshutdown =>
      have hrunning : s.procA ≠ .ended := hhead ▸ nofun
      exact { h with
        procA := fun hnot => absurd rfl hnot
        procAEnded := nofun
        joinedProcA := fun hjoined => absurd (h.joinedProcA hjoined) hrunning }
  | move hnode hlistener hprocA _ =>
      exact h.move hnode hlistener hprocA
  | @poll items after howner hsection =>
      obtain ⟨hflag, hcreator⟩ := hsection.flag_eq
      have hcreator' : after.core.conf.creator = s.node.core.conf.creator := hcreator
      exact {
        flag := (Bool.eq_iff_iff.mp hflag).trans h.flag
        listener := h.listener
        procA := h.procA
        procAEnded := h.procAEnded
        joinedListener := h.joinedListener
        joinedProcA := h.joinedProcA
        resting := fun hnot => absurd howner hnot
        creator := hcreator'.trans h.creator
        own := h.own.of_eq rfl hcreator' }
  | shutdown => exact { h with }
  | drop howner hresting =>
      exact { h with
        joinedListener := nofun
        joinedProcA := nofun
        resting := fun _ => hresting }
  | joinListener howner hended =>
      exact { h with
        joinedListener := fun _ => hended
        joinedProcA := nofun
        resting := fun _ => h.resting (howner ▸ nofun) }
  | joinProcA howner hended =>
      exact { h with
        joinedListener := fun _ => h.joinedListener (howner ▸ rfl)
        joinedProcA := fun _ => hended
        resting := fun _ => h.resting (howner ▸ nofun) }
  | wake howner =>
      exact {
        flag := h.flag
        listener := h.listener
        procA := h.procA
        procAEnded := h.procAEnded
        joinedListener := fun _ => h.joinedListener (howner ▸ rfl)
        joinedProcA := fun _ => h.joinedProcA (howner ▸ rfl)
        resting := fun _ => h.resting (howner ▸ nofun)
        creator := h.creator
        own := h.own }

theorem orderly_start {disk : SledStore P D T H Sig} {core : DAGcore P D T H PK SK Sig}
    (hnew : DAGcore.new env conf disk = .ok core) : Orderly conf (start core) := by
  obtain ⟨store, -, rfl⟩ := DAGcore.new_eq_ok hnew
  constructor
  case flag => exact iff_of_false nofun nofun
  case listener | procA => exact fun _ => rfl
  case procAEnded | joinedListener | joinedProcA => exact nofun
  case resting => exact fun hnot => absurd rfl hnot
  case creator => rfl
  case own => exact fun _ => nofun

theorem Orderly.run (h : Orderly conf s) (hrun : ReflTransGen (Step env) s s') :
    Orderly conf s' := by
  induction hrun with
  | refl => exact h
  | tail _ hstep ih => exact ih.step hstep

theorem Reachable.orderly (h : Reachable env conf s) : Orderly conf s := by
  obtain ⟨disk, core, hnew, hrun⟩ := h
  exact (orderly_start hnew).run hrun

section Waiting

omit [LinearOrder P] [LinearOrder H] [Inhabited H] in
/-- A task that is registered, or has been woken since `count` tasks had been, stays so
while the registered task is kept or woken. -/
theorem wakes_of_cases {core core' : DAGcore P D T H PK SK Sig} {waker count : Nat}
    {unmet : Prop} (h : count ≤ core.wakes.length ∧
      (unmet ∧ core.conf.waker = some waker ∨ waker ∈ core.wakes.drop count))
    (hcases : core'.conf.waker = core.conf.waker ∧ core'.wakes = core.wakes ∨
      core'.wakes = core.wakes ++ core.conf.waker.toList) :
    count ≤ core'.wakes.length ∧
      (unmet ∧ core'.conf.waker = some waker ∨ waker ∈ core'.wakes.drop count) := by
  obtain ⟨hle, hknown⟩ := h
  rcases hcases with ⟨hwaker, hwakes⟩ | hwakes
  · rw [hwaker, hwakes]
    exact ⟨hle, hknown⟩
  · rw [hwakes, List.length_append, List.drop_append_of_le_length hle]
    refine ⟨hle.trans (Nat.le_add_right _ _), Or.inr ?_⟩
    rcases hknown with ⟨-, hwaker⟩ | hwoken
    · rw [hwaker]
      exact List.mem_append_right _ List.mem_cons_self
    · exact List.mem_append_left _ hwoken

/-- While a task waits it is registered or has been woken; before it waits for
`procedure_b`, `drop` wakes it. -/
def Heard (s : DAG P D T H PK SK Sig) : Prop :=
  ∀ waker last count, s.consumer = .waiting waker last count →
    count ≤ s.node.core.wakes.length ∧
      (s.owner ≠ .joinsProcB ∧ s.node.core.conf.waker = some waker ∨
        waker ∈ s.node.core.wakes.drop count)

omit [LinearOrder P] [LinearOrder H] [Inhabited H] in
/-- The owner may be anywhere before the wake. -/
theorem Heard.of_owner (h : Heard s) {owner : Owner} (hbefore : owner ≠ .joinsProcB) :
    Heard { s with owner := owner } := by
  intro waker last count hwaiting
  obtain ⟨hle, hknown⟩ := h waker last count hwaiting
  exact ⟨hle, hknown.imp (fun hwaker => ⟨hbefore, hwaker.2⟩) id⟩

theorem Heard.step (h : Heard s) (hstep : Step env s s') : Heard s' := by
  cases hstep with
  | listenerQuits | listenerGoesOn | repliesEnd | procAQuits | procAGoesOn
  | shutdown => exact h
  | move hnode _ _ _ =>
      intro waker last count hwaiting
      exact wakes_of_cases (h waker last count hwaiting) hnode.wakes_cases.2
  | poll howner hsection =>
      intro waker last count hwaiting
      obtain ⟨hwaker, hcount⟩ := hsection.registered hwaiting
      exact ⟨Nat.le_of_eq hcount, Or.inl ⟨howner ▸ nofun, hwaker⟩⟩
  | drop => exact h.of_owner nofun
  | joinListener => exact h.of_owner nofun
  | joinProcA => exact h.of_owner nofun
  | wake howner =>
      intro waker last count hwaiting
      obtain ⟨hle, hknown⟩ := h waker last count hwaiting
      have hcases : s.node.core.wake.wakes =
          s.node.core.wakes ++ s.node.core.conf.waker.toList := rfl
      have hwoken := wakes_of_cases ⟨hle, hknown⟩ (Or.inr hcases)
      refine ⟨hwoken.1, Or.inr (hwoken.2.resolve_left ?_)⟩
      exact fun hregistered => nomatch hregistered.2

theorem Reachable.heard (h : Reachable env conf s) : Heard s := by
  obtain ⟨disk, core, -, hrun⟩ := h
  induction hrun with
  | refl => exact fun _ _ _ => nofun
  | tail _ hstep ih => exact ih.step hstep

end Waiting

section Shutdown

/-- The core has inserted one more event of this node. -/
def OneMore (env : Env P D T H PK SK Sig) (conf : DAGconfig P PK SK)
    (core core' : DAGcore P D T H PK SK Sig) : Prop :=
  ∃ before after event, core.SameEvents before ∧
    before.insertEvent env event = (.ok true, after) ∧ after.SameEvents core' ∧
    event.creator = conf.creator

/-- What a step can still insert once the flag is set: the event in preparation, with
which `procedure_a` leaves its round. -/
theorem Step.events_cases (h : Orderly conf s) (hshutdown : s.node.core.shutdown = true)
    (hstep : Step env s s') :
    s.node.core.SameEvents s'.node.core ∧ (s'.procA = .inside → s.procA = .inside) ∨
      s.procA = .inside ∧ s'.procA ≠ .inside ∧
        OneMore env conf s.node.core s'.node.core := by
  have hended := h.flag.mp hshutdown
  cases hstep with
  | listenerQuits hhead | listenerGoesOn hhead => cases hhead.symm.trans hended
  | repliesEnd hinside => cases hinside.symm.trans hended
  | procAQuits => exact Or.inl ⟨⟨rfl, rfl, rfl⟩, nofun⟩
  | procAGoesOn _ hopen => cases hshutdown.symm.trans hopen
  | @move requests replies n out hnode hlistener hprocA _ =>
      rcases hnode.core_cases with ⟨hstore, hlast, hlog, -⟩ | ⟨event, hinsert, hsource⟩
      · refine Or.inl ⟨⟨hstore, hlast, hlog⟩, fun hinside => ?_⟩
        have hbusy : s.node.procA.busy ≠ n.procA.busy → s.procA = .inside :=
          fun hne => hprocA fun heq => hne (congrArg ProcA.busy heq.symm)
        rcases LoopPoint.next_cases hbusy with hsame | ⟨hpoint, -, -⟩
        · exact hsame.symm.trans hinside
        · exact hpoint
      · rcases hsource with ⟨answer, rest, hchecked, hinserted⟩ |
          ⟨own, ⟨hformed, hstart⟩, hown⟩
        · -- the listener has ended
          have hinside := hlistener (by rw [hchecked, hinserted]; nofun)
          cases hinside.symm.trans hended
        · have hinside := hprocA (by rw [hformed, hstart]; nofun)
          have hhead : (s.move n).procA = .head := by
            change s.procA.next s.node.procA.busy n.procA.busy = .head
            rw [hformed, hstart]
            rfl
          have hcreator : event.creator = conf.creator :=
            (congrArg HashEvent.creator hown).symm.trans
              ((h.own own hformed).trans h.creator)
          exact Or.inr ⟨hinside, hhead ▸ nofun, s.node.core, n.core, event,
            ⟨rfl, rfl, rfl⟩, hinsert, ⟨rfl, rfl, rfl⟩, hcreator⟩
  | poll _ hsection => exact Or.inl ⟨hsection.sameEvents, id⟩
  | shutdown | drop | joinListener | joinProcA | wake =>
      exact Or.inl ⟨⟨rfl, rfl, rfl⟩, id⟩

theorem Step.ended (hstep : Step env s s')
    (hended : s.listener = .ended) : s'.listener = .ended := by
  cases hstep with
  | listenerQuits => rfl
  | listenerGoesOn hhead => cases hhead.symm.trans hended
  | repliesEnd hinside => cases hinside.symm.trans hended
  | move hnode hlistener _ _ =>
      refine (LoopPoint.next_eq_ended fun hne => hlistener fun heq => ?_).mpr hended
      exact hne (congrArg Listener.busy heq.symm)
  | procAQuits | procAGoesOn | poll | shutdown | drop | joinListener | joinProcA
  | wake => exact hended

/-- What a step can still hand out once the flag is set. -/
theorem Step.delivered_cases (hshutdown : s.node.core.shutdown = true)
    (hstep : Step env s s') :
    s'.delivered = s.delivered ∧ (s.consumer.resting → s'.consumer.resting) ∨
      ¬ s.consumer.resting ∧ s'.consumer.resting ∧
        ∃ item, s'.delivered = s.delivered ++ [item] := by
  cases hstep with
  | poll _ hsection =>
      rcases hsection.after_shutdown hshutdown with ⟨rfl, hresting⟩ |
        ⟨hbusy, hresting, item, rfl⟩
      · exact Or.inl ⟨List.append_nil _, hresting⟩
      · exact Or.inr ⟨hbusy, hresting, item, rfl⟩
  | listenerQuits | listenerGoesOn | repliesEnd | procAQuits | procAGoesOn | move
  | shutdown | drop | joinListener | joinProcA | wake => exact Or.inl ⟨rfl, id⟩

/-- Once the flag is set it stays set. -/
theorem shutdown_of_run (h : Orderly conf s) (hshutdown : s.node.core.shutdown = true)
    (hrun : ReflTransGen (Step env) s s') : s'.node.core.shutdown = true := by
  have hended : s'.listener = .ended := by
    induction hrun with
    | refl => exact h.flag.mp hshutdown
    | tail _ hstep ih => exact hstep.ended ih
  exact (h.run hrun).flag.mpr hended

theorem events_of_run (h : Orderly conf s) (hshutdown : s.node.core.shutdown = true)
    (hrun : ReflTransGen (Step env) s s') :
    s.node.core.SameEvents s'.node.core ∧ (s'.procA = .inside → s.procA = .inside) ∨
      s.procA = .inside ∧ s'.procA ≠ .inside ∧
        OneMore env conf s.node.core s'.node.core := by
  induction hrun with
  | refl => exact Or.inl ⟨⟨rfl, rfl, rfl⟩, id⟩
  | tail hrun hstep ih =>
      have hflag := shutdown_of_run h hshutdown hrun
      rcases hstep.events_cases (h.run hrun) hflag with
        ⟨hsame, hback⟩ | ⟨hinside, hleft, before, after, event, hbefore, hinsertion⟩
      · rcases ih with ⟨hkept, hkeep⟩ | ⟨hpoint, hleft, before, after, event, hbefore,
          hinsert, hafter, hcreator⟩
        · exact Or.inl ⟨hkept.trans hsame, hkeep ∘ hback⟩
        · exact Or.inr ⟨hpoint, hleft ∘ hback, before, after, event, hbefore, hinsert,
            hafter.trans hsame, hcreator⟩
      · -- a second event would need a second round
        rcases ih with ⟨hkept, hkeep⟩ | ⟨-, houtside, -⟩
        · exact Or.inr ⟨hkeep hinside, hleft, before, after, event, hkept.trans hbefore,
            hinsertion⟩
        · exact absurd hinside houtside

theorem delivered_of_run (h : Orderly conf s) (hshutdown : s.node.core.shutdown = true)
    (hrun : ReflTransGen (Step env) s s') :
    s'.delivered = s.delivered ∧ (s.consumer.resting → s'.consumer.resting) ∨
      ¬ s.consumer.resting ∧ s'.consumer.resting ∧
        ∃ item, s'.delivered = s.delivered ++ [item] := by
  induction hrun with
  | refl => exact Or.inl ⟨rfl, id⟩
  | tail hrun hstep ih =>
      rcases hstep.delivered_cases (shutdown_of_run h hshutdown hrun) with
        ⟨hsame, hresting⟩ | ⟨hbusy, hresting, item, hitem⟩
      · rw [hsame]
        exact ih.imp (And.imp_right hresting.comp)
          (And.imp_right (And.imp_left hresting))
      · rcases ih with ⟨hkept, hkeep⟩ | ⟨-, hdone, -⟩
        · refine Or.inr ⟨fun hrests => hbusy (hkeep hrests), hresting, item, ?_⟩
          rw [hitem, hkept]
        · exact absurd hdone hbusy

/-- After the flag is set the listener takes no more replies.  The node still inserts
one event at most, of its own, if `procedure_a` is in a round; and its stream still
hands out one item at most, if a call has begun. -/
theorem shutdown_quiesces (h : Reachable env conf s)
    (hshutdown : s.node.core.shutdown = true) (hrun : ReflTransGen (Step env) s s') :
    s'.node.core.shutdown = true ∧ s'.node.listener = .idle ∧
      (s.node.core.SameEvents s'.node.core ∨
        s.procA = .inside ∧ OneMore env conf s.node.core s'.node.core) ∧
      (s'.delivered = s.delivered ∨
        ¬ s.consumer.resting ∧ ∃ item, s'.delivered = s.delivered ++ [item]) := by
  have horderly := h.orderly
  have horderly' := horderly.run hrun
  have hflag := shutdown_of_run horderly hshutdown hrun
  refine ⟨hflag, horderly'.listener (horderly'.flag.mp hflag ▸ nofun), ?_, ?_⟩
  · rcases events_of_run horderly hshutdown hrun with ⟨hsame, -⟩ | ⟨hinside, -, hone⟩
    · exact Or.inl hsame
    · exact Or.inr ⟨hinside, hone⟩
  · rcases delivered_of_run horderly hshutdown hrun with ⟨hsame, -⟩ | ⟨hbusy, -, hitem⟩
    · exact Or.inl hsame
    · exact Or.inr ⟨hbusy, hitem⟩

/-- When `drop` comes to wait for `procedure_b`, the other threads have ended with
nothing in hand, and a task that waits on the stream has been woken, also one whose
wake-up was lost before.  From then on nothing is inserted, finalised or handed out. -/
theorem drop_ends (h : Reachable env conf s) (howner : s.owner = .joinsProcB) :
    s.listener = .ended ∧ s.procA = .ended ∧ s.node.listener = .idle ∧
      s.node.procA = .start ∧
      (∀ waker last count, s.consumer = .waiting waker last count →
        waker ∈ s.node.core.wakes.drop count) ∧
      ∀ s', ReflTransGen (Step env) s s' →
        s.node.core.SameEvents s'.node.core ∧ s'.delivered = s.delivered := by
  have horderly := h.orderly
  have hlistener := horderly.joinedListener (howner ▸ rfl)
  have hprocA := horderly.joinedProcA (howner ▸ rfl)
  have hflag := horderly.flag.mpr hlistener
  have hresting := horderly.resting (howner ▸ nofun)
  refine ⟨hlistener, hprocA, horderly.listener (hlistener ▸ nofun),
    horderly.procA (hprocA ▸ nofun), ?_, ?_⟩
  · intro waker last count hwaiting
    have hheard := (h.heard waker last count hwaiting).2
    exact hheard.resolve_left fun hregistered => hregistered.1 howner
  · intro s' hrun
    constructor
    · rcases events_of_run horderly hflag hrun with ⟨hsame, -⟩ | ⟨hinside, -⟩
      · exact hsame
      · cases hprocA.symm.trans hinside
    · rcases delivered_of_run horderly hflag hrun with ⟨hsame, -⟩ | ⟨hbusy, -⟩
      · exact hsame
      · exact absurd hresting hbusy

end Shutdown

end DAG

namespace TwoPeers

abbrev Owned := DAG Nat Nat Unit Nat Unit Unit Unit

/-- The second peer has formed an event when it is shut down. -/
def stopping : Owned where
  node := ⟨formed.setShutdown true, .formed b₁, .idle, .idle⟩
  consumer := .idle
  quits := 0
  listener := .ended
  procA := .inside
  owner := .inUse
  delivered := []

theorem reachable_stopping : DAG.Reachable env (conf 1) stopping := by
  have hstart : ReflTransGen (DAG.Step env) (DAG.start (start 1)) _ := .refl
  have hmove : ∀ {s : Owned} {n out},
      ReflTransGen (DAG.Step env) (DAG.start (start 1)) s →
      s.procA = .inside → s.owner = .inUse → s.consumer = .idle →
      NodeStep env [] [] s.node n out → n.listener = s.node.listener →
      ReflTransGen (DAG.Step env) (DAG.start (start 1)) (s.move n) := by
    intro s n out hrun hinside howner hidle hnode hlistener
    exact hrun.tail (.move hnode (fun hne => absurd hlistener hne) (fun _ => hinside)
      fun _ => ⟨howner, hidle ▸ trivial⟩)
  have hinside := hstart.tail (.procAGoesOn rfl rfl)
  have hpooled := hmove hinside rfl rfl rfl (.addTransaction 7) rfl
  have hchosen := hmove hpooled rfl rfl rfl (.choosePeer rfl rfl) rfl
  have hrequested := hmove hchosen rfl rfl rfl (.sendRequest rfl) rfl
  have hnumbered := hmove hrequested rfl rfl rfl (.nextHeight rfl rfl rfl rfl) rfl
  have hpaired := hmove hnumbered rfl rfl rfl (.otherHeight rfl rfl) rfl
  have hparents := hmove hpaired rfl rfl rfl (.readParents rfl rfl rfl) rfl
  have hformed := hmove hparents rfl rfl rfl (.formEvent rfl rfl rfl rfl rfl) rfl
  have hasked := hformed.tail (.shutdown rfl trivial)
  exact ⟨SledStore.empty, start 1, rfl, hasked.tail (.listenerQuits rfl Nat.one_pos)⟩

/-- It still inserts that event. -/
theorem stopping_inserts : ∃ s' : Owned, ReflTransGen (DAG.Step env) stopping s' ∧
    s'.procA = .head ∧ s'.node.core.shutdown = true ∧
      (stopping.node.core.SameEvents s'.node.core ∨
        stopping.procA = .inside ∧
          DAG.OneMore env (conf 1) stopping.node.core s'.node.core) := by
  have hinsert : (formed.setShutdown true).insertEvent env { b₁ with hash := 4 } =
      (.ok true, after (formed.setShutdown true) [{ b₁ with hash := 4 }]) :=
    insertEvent_after (by decide +kernel)
  have hnode : NodeStep env [] [] stopping.node _ {} := .insertOwn rfl rfl hinsert
  have hrun : ReflTransGen (DAG.Step env) stopping (stopping.move _) :=
    .single (.move hnode (fun hne => absurd rfl hne) (fun _ => rfl)
      fun hne => absurd rfl hne)
  obtain ⟨hflag, -, hevents, -⟩ := DAG.shutdown_quiesces reachable_stopping rfl hrun
  exact ⟨_, hrun, rfl, hflag, hevents⟩

/-- The first peer is dropped while a task waits on its stream. -/
def dropped : Owned where
  node := ⟨{ start 0 with shutdown := true, wakes := [5] }, .start, .idle, .idle⟩
  consumer := .waiting 5 none 0
  quits := 0
  listener := .ended
  procA := .ended
  owner := .joinsProcB
  delivered := []

/-- The task has been woken. -/
theorem dropped_wakes : DAG.Reachable env (conf 0) dropped ∧
    5 ∈ dropped.node.core.wakes.drop 0 := by
  have hentered : DAG.Step env (DAG.start (start 0)) _ :=
    .poll rfl (.enter 5 trivial rfl)
  have hwaiting := (ReflTransGen.single hentered).tail (.poll rfl (.readNone rfl rfl))
  have hdrop := hwaiting.tail (.drop rfl trivial)
  have hquit := hdrop.tail (.listenerQuits rfl Nat.one_pos)
  have hended := (hquit.tail (.joinListener rfl rfl)).tail (.procAQuits rfl rfl)
  have hjoined := hended.tail (.joinProcA rfl rfl)
  have hdropped : DAG.Reachable env (conf 0) dropped :=
    ⟨SledStore.empty, start 0, rfl, hjoined.tail (.wake rfl)⟩
  exact ⟨hdropped, (DAG.drop_ends hdropped rfl).2.2.2.2.1 5 none 0 rfl⟩

end TwoPeers

end ConsensusDag
