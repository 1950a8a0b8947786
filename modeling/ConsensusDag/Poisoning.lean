/-
The locks of a node whose threads can panic.  A thread that panics while it holds the
core or the configuration for writing leaves the lock poisoned, and from then on every
unwrap of the lock fails.  So whether a message does harm depends on the other threads
too: one message can bring `procedure_a` to a panic while the next is processed.
-/
import ConsensusDag.ClockBounds
import ConsensusDag.Locks
import ConsensusDag.Reopen

namespace ConsensusDag

open Relation

variable {P D T H PK SK Sig : Type}

/-- A node, and the locks that panics have poisoned. -/
structure GuardedNode (P D T H PK SK Sig : Type) where
  node : NodeState P D T H PK SK Sig
  poisoned : Set NodeLock

/-- The locks that the listener takes in the section that it comes to next.  The check
of an event locks the configuration once for each signature. -/
def Listener.locks : Listener P D T H Sig → List NodeLock
  | .idle => [.core]
  | .processing _ [] => []
  | .processing _ (ev :: _) =>
      if ev.signatures.entries.isEmpty then [.core] else [.core, .conf]
  | .checked _ _ _ => [.core, .store, .conf]
  | .inserted _ _ _ => [.conf]

def ProcA.locks : ProcA P D T H PK Sig → List NodeLock
  | .start => [.core, .conf]
  | .chosen _ _ => [.core]
  | .requested _ => [.conf]
  | .numbered _ _ => [.conf]
  | .paired _ _ _ => [.store]
  | .parents _ _ _ => [.core]
  | .formed _ => [.core, .store, .conf]

/-- Debug lines lock the configuration for the sender's address, and the core for its
clock. -/
def ProcB.locks (debug : Bool) : ProcB P D T H Sig → List NodeLock
  | .idle => if debug then [.conf, .core] else [.core]
  | .updated _ => if debug then [.core, .store] else [.store]
  | .collected _ _ _ => [.conf]
  | .listed _ _ _ _ => [.core]
  | .formed _ _ => [.conf]

namespace GuardedNode

/-- None of the locks is poisoned. -/
def Free (g : GuardedNode P D T H PK SK Sig) (locks : List NodeLock) : Prop :=
  ∀ lock ∈ locks, lock ∉ g.poisoned

theorem free_of_unpoisoned {g : GuardedNode P D T H PK SK Sig} (hnone : g.poisoned = ∅)
    (locks : List NodeLock) : g.Free locks := by
  intro lock _
  rw [hnone]
  exact Set.notMem_empty lock

end GuardedNode

variable [LinearOrder P] [LinearOrder H] [Inhabited H]

/-- A thread goes through a section: no lock that it takes is poisoned, and the debug
line for a request finds the sender. -/
structure Section (env : Env P D T H PK SK Sig) (debug : Bool)
    (requests : List (SyncReq P)) (replies : List (Answer P D T H Sig))
    (thread : NodeThread) (g g' : GuardedNode P D T H PK SK Sig) : Prop where
  step : ∃ out, NodeStep env requests replies g.node g'.node out
  poisoned_eq : g'.poisoned = g.poisoned
  listener : g'.node.listener ≠ g.node.listener →
    thread = .listener ∧ g.Free g.node.listener.locks
  procA : g'.node.procA ≠ g.node.procA →
    thread = .procedureA ∧ g.Free g.node.procA.locks
  procB : g'.node.procB ≠ g.node.procB →
    thread = .procedureB ∧ g.Free (g.node.procB.locks debug)
  owner : g'.node.listener = g.node.listener → g'.node.procA = g.node.procA →
    g'.node.procB = g.node.procB → thread = .owner ∧ g.Free [.core]
  log : ∀ req, g.node.procB = .idle → g'.node.procB = .updated req →
    logRequest debug g.node.core.conf.peers req = .ok ()

/-- `procedure_a` panics while it holds a lock for writing.  What it has written by then
stays. -/
inductive ProcAPanics (env : Env P D T H PK SK Sig) :
    NodeState P D T H PK SK Sig → NodeLock → NodeState P D T H PK SK Sig → Prop
  | choosePeer {n failure} : n.procA = .start →
      n.core.conf.peers.nextPeer = .error failure → ProcAPanics env n .conf n
  | findOwn {n peer failure} : n.procA = .requested peer →
      n.core.conf.peers.findPeerMut n.core.conf.creator = .error failure →
      ProcAPanics env n .conf n
  | nextHeight {n peer i own failure} : n.procA = .requested peer →
      n.core.conf.peers.findPeerMut n.core.conf.creator = .ok i →
      n.core.conf.peers.peers[i]? = some own →
      own.getNextHeight = .error failure → ProcAPanics env n .conf n
  | nextTime {n height selfParent otherParent failure} :
      n.procA = .parents height selfParent otherParent →
      n.core.getNextLamportTime = .error failure → ProcAPanics env n .core n
  | insertOwn {n event k event' failure core'} : n.procA = .formed event →
      event.eventHash env = .ok (k, event') →
      n.core.insertEvent env event' = (.error failure, core') →
      ProcAPanics env n .core { n with core := core' }

/-- So does the listener. -/
inductive ListenerPanics (env : Env P D T H PK SK Sig) :
    NodeState P D T H PK SK Sig → NodeLock → NodeState P D T H PK SK Sig → Prop
  | insertEvent {n answer event rest failure core'} :
      n.listener = .checked answer event rest →
      n.core.insertEvent env event = (.error failure, core') →
      ListenerPanics env n .core { n with core := core' }
  | updatePeer {n answer event rest failure} :
      n.listener = .inserted answer event rest →
      n.core.conf.peers.findPeerMut event.creator = .error failure →
      ListenerPanics env n .conf n

/-- What `insert_event` may have written when it comes to lock the configuration: it
locks it before the flag table is written, where the parents are of one frame, and
after that. -/
inductive HalfInserted (env : Env P D T H PK SK Sig)
    (core : DAGcore P D T H PK SK Sig) (event : Event P D T H Sig) :
    DAGcore P D T H PK SK Sig → Prop
  | nothing : HalfInserted env core event core
  | flagTable {k prepared ft} : core.prepareEvent env event = .ok (k, prepared, ft) →
      HalfInserted env core event { core with store := core.store.setFlagTable k ft }

/-- The thread is in `insert_event` with this event. -/
def NodeThread.Inserts (thread : NodeThread) (n : NodeState P D T H PK SK Sig)
    (event : Event P D T H Sig) : Prop :=
  match thread with
  | .listener => ∃ answer rest, n.listener = .checked answer event rest
  | .procedureA => n.procA = .formed event
  | _ => False

/-- A section of a thread, or a panic that poisons a lock.  The panics that poison
nothing end a thread, which then takes no more steps. -/
inductive GuardedStep (env : Env P D T H PK SK Sig) (debug : Bool)
    (requests : List (SyncReq P)) (replies : List (Answer P D T H Sig)) :
    NodeThread → GuardedNode P D T H PK SK Sig → GuardedNode P D T H PK SK Sig → Prop
  | goes {thread g g'} : Section env debug requests replies thread g g' →
      GuardedStep env debug requests replies thread g g'
  | procAPanics {n n' lock poisoned} : ProcAPanics env n lock n' →
      GuardedNode.Free ⟨n, poisoned⟩ n.procA.locks →
      GuardedStep env debug requests replies .procedureA ⟨n, poisoned⟩
        ⟨n', insert lock poisoned⟩
  | listenerPanics {n n' lock poisoned} : ListenerPanics env n lock n' →
      GuardedNode.Free ⟨n, poisoned⟩ n.listener.locks →
      GuardedStep env debug requests replies .listener ⟨n, poisoned⟩
        ⟨n', insert lock poisoned⟩
  -- the configuration is poisoned when `insert_event` locks it, under the core's lock
  | insertPanics {thread n event core' poisoned} : thread.Inserts n event →
      .conf ∈ poisoned → GuardedNode.Free ⟨n, poisoned⟩ [.core] →
      HalfInserted env n.core event core' →
      GuardedStep env debug requests replies thread ⟨n, poisoned⟩
        ⟨{ n with core := core' }, insert .core poisoned⟩

/-- The states of a node that is started on an empty store.  Nothing is assumed about
the peers: its inbox holds whatever they like at every step. -/
inductive GuardedRun (env : Env P D T H PK SK Sig) (conf : DAGconfig P PK SK)
    (debug : Bool) : GuardedNode P D T H PK SK Sig → Prop
  | start {core : DAGcore P D T H PK SK Sig} :
      DAGcore.new env conf SledStore.empty = .ok core →
      GuardedRun env conf debug ⟨⟨core, .start, .idle, .idle⟩, ∅⟩
  | step {g g' : GuardedNode P D T H PK SK Sig} {thread : NodeThread}
      (requests : List (SyncReq P)) (replies : List (Answer P D T H Sig)) :
      GuardedRun env conf debug g →
      GuardedStep env debug requests replies thread g g' → GuardedRun env conf debug g'

/-- `procedure_a` finds what it counts on in the sections in which it holds a lock for
writing. -/
structure Provided (env : Env P D T H PK SK Sig) (n : NodeState P D T H PK SK Sig) :
    Prop where
  peer : n.procA = .start → ∃ chosen, n.core.conf.peers.nextPeer = .ok chosen
  own : ∀ peer, n.procA = .requested peer →
    n.core.conf.creator ∈ n.core.conf.peers.peers.map DAGPeer.id
  height : ∀ peer i own, n.procA = .requested peer →
    n.core.conf.peers.findPeerMut n.core.conf.creator = .ok i →
    n.core.conf.peers.peers[i]? = some own → own.height < usizeMax
  clock : ∀ height selfParent otherParent,
    n.procA = .parents height selfParent otherParent → n.core.lamportTime < usizeMax
  signs : ∀ event k, n.procA = .formed event →
    env.eventHash event.toHashEvent = .ok k →
    ∃ signature, env.sign k n.core.conf.publicKey n.core.conf.secretKey = .ok signature

section Steps

variable {env : Env P D T H PK SK Sig} {conf : DAGconfig P PK SK} {debug : Bool}
  {g g' : GuardedNode P D T H PK SK Sig} {n n' : NodeState P D T H PK SK Sig}
  {requests : List (SyncReq P)} {replies : List (Answer P D T H Sig)}
  {out : Output P D T H Sig} {thread : NodeThread}

/-- No thread panics while it writes to the store. -/
theorem GuardedRun.store_free (h : GuardedRun env conf debug g) :
    NodeLock.store ∉ g.poisoned := by
  induction h with
  | start _ => exact Set.notMem_empty _
  | step _ _ _ hstep ih =>
      cases hstep with
      | goes hstep => rwa [hstep.poisoned_eq]
      | procAPanics hpanics _ =>
          cases hpanics <;> exact fun hmem => ih (hmem.resolve_left (by decide))
      | listenerPanics hpanics _ =>
          cases hpanics <;> exact fun hmem => ih (hmem.resolve_left (by decide))
      | insertPanics => exact fun hmem => ih (hmem.resolve_left (by decide))

theorem GuardedRun.unpoisoned (h : GuardedRun env conf debug g) (hcore : g.Free [.core])
    (hconf : g.Free [.conf]) : g.poisoned = ∅ := by
  refine Set.eq_empty_iff_forall_notMem.mpr fun lock => ?_
  cases lock with
  | core => exact hcore _ List.mem_cons_self
  | conf => exact hconf _ List.mem_cons_self
  | store => exact h.store_free

/-- Where nothing is poisoned, every section so far has gone through. -/
theorem GuardedRun.soloRun (h : GuardedRun env conf debug g) (hnone : g.poisoned = ∅) :
    ∃ submitted, SoloRun env conf anyEvent anyEvent submitted g.node := by
  induction h with
  | start hnew => exact ⟨[], .start hnew⟩
  | step requests replies _ hstep ih =>
      cases hstep with
      | goes hstep =>
          obtain ⟨submitted, hrun⟩ := ih (hstep.poisoned_eq.symm.trans hnone)
          obtain ⟨out, hnode⟩ := hstep.step
          exact ⟨_, hrun.step requests replies hnode (fun _ _ => trivial)
            fun _ _ => trivial⟩
      | procAPanics | listenerPanics | insertPanics =>
          exact absurd hnone (Set.insert_nonempty _ _).ne_empty

/-- The parents that `procedure_a` has in hand are stored. -/
structure Prepared (n : NodeState P D T H PK SK Sig) : Prop where
  filed : Filed n.core.store
  parents : ∀ height selfParent otherParent,
    n.procA = .parents height selfParent otherParent →
    selfParent ∈ n.core.known ∧ otherParent ∈ n.core.known
  formed : ∀ event, n.procA = .formed event →
    event.selfParent ∈ n.core.known ∧ event.otherParent ∈ n.core.known

theorem Prepared.step (h : Prepared n) (hstep : NodeStep env requests replies n n' out) :
    Prepared n' := by
  have hfiled : Filed n'.core.store := by
    rcases hstep.store_cases with hsame | ⟨_, _, _, ⟨ins⟩, _⟩ | ⟨_, _, _, _, ⟨ins⟩, _⟩
    · rw [hsame]
      exact h.filed
    · exact h.filed.write (e := ins.stored) ins.event_eq
    · exact h.filed.write (e := ins.stored) ins.event_eq
  have hsub := hstep.known_subset
  have hkeep : n'.procA = n.procA → Prepared n' := by
    intro hproc
    refine ⟨hfiled, fun height s o hparents => ?_, fun event hformed => ?_⟩
    · obtain ⟨hs, ho⟩ := h.parents height s o (hproc.symm.trans hparents)
      exact ⟨hsub hs, hsub ho⟩
    · obtain ⟨hs, ho⟩ := h.formed event (hproc.symm.trans hformed)
      exact ⟨hsub hs, hsub ho⟩
  cases hstep with
  | choosePeer | sendRequest | nextHeight | otherHeight | insertOwn =>
      exact ⟨hfiled, nofun, nofun⟩
  | readParents _ ho hs =>
      refine ⟨hfiled, ?_, nofun⟩
      rintro height selfParent otherParent ⟨⟩
      exact ⟨hfiled.of_place _ _ _ (SledStore.getEventOfCreator_eq_ok.mp hs),
        hfiled.of_place _ _ _ (SledStore.getEventOfCreator_eq_ok.mp ho)⟩
  | formEvent hproc _ _ _ hevent =>
      refine ⟨hfiled, nofun, ?_⟩
      rintro event ⟨⟩
      obtain ⟨hs, ho⟩ := h.parents _ _ _ hproc
      rw [hevent]
      exact ⟨hsub hs, hsub ho⟩
  | receiveReply | checkEvent | skipEvent | insertEvent | updatePeer | finishReply
  | receiveRequest | collectEvents | collectFails | listGossip | formReply
  | sendReply | sendFails | addTransaction => exact hkeep rfl

theorem SoloRun.prepared {submitted : List D}
    {received made : DAGcore P D T H PK SK Sig → Event P D T H Sig → Prop}
    (h : SoloRun env conf received made submitted n) : Prepared n := by
  induction h with
  | start hnew =>
      refine ⟨DAGcore.new_induct (I := fun _ store => Filed store) hnew .empty ?_,
        nofun, nofun⟩
      intro _ peer s s' _ _ hs hleaf
      obtain ⟨k, -, rfl⟩ := DAGcore.insertLeaf_eq_ok hleaf
      exact hs.write rfl
  | step _ _ _ hstep _ _ ih => exact ih.step hstep

/-- A machine integer can be counted on, or the addition panics. -/
theorem usizeAdd_one_error_iff {a : Nat} :
    (∃ failure, usizeAdd a 1 = .error failure) ↔ ¬ a < usizeMax := by
  rw [← usizeAdd_one_ends_iff]
  cases usizeAdd a 1 <;> simp

omit [Inhabited H] in
/-- `procedure_a` panics with a lock held for writing just where it does not find what
it counts on. -/
theorem procAPanics_iff (hcore : CoreInv env n.core) (hprepared : Prepared n) :
    (∃ lock n', ProcAPanics env n lock n') ↔ ¬ Provided env n := by
  constructor
  · rintro ⟨lock, n', hpanics⟩ hprovided
    cases hpanics with
    | choosePeer hproc hnext =>
        obtain ⟨chosen, hchosen⟩ := hprovided.peer hproc
        cases hchosen.symm.trans hnext
    | findOwn hproc hfind =>
        obtain ⟨i, _, hi, -⟩ := DAGPeerList.findPeerMut_of_mem (hprovided.own _ hproc)
        cases hi.symm.trans hfind
    | nextHeight hproc hfind hget hnext =>
        obtain ⟨height, hheight⟩ :=
          usizeAdd_one_ends_iff.mpr (hprovided.height _ _ _ hproc hfind hget)
        unfold DAGPeer.getNextHeight at hnext
        rw [hheight] at hnext
        cases hnext
    | nextTime hproc hnext =>
        obtain ⟨time, htime⟩ :=
          usizeAdd_one_ends_iff.mpr (hprovided.clock _ _ _ hproc)
        unfold DAGcore.getNextLamportTime at hnext
        rw [htime] at hnext
        cases hnext
    | @insertOwn event k _ _ _ hproc hhash hinsert =>
        obtain ⟨hk, rfl⟩ := Event.eventHash_eq_ok.mp hhash
        obtain ⟨⟨s, hs⟩, o, ho⟩ := hprepared.formed _ hproc
        obtain ⟨signature, hsign⟩ := hprovided.signs _ _ hproc hk
        obtain ⟨id, hid⟩ := hcore.creatorId _ s hs
        have hsucceeds : ∃ core', n.core.insertEvent env { event with hash := k } =
            (.ok true, core') := insertEvent_succeeds hcore.keys hk hs ho hsign hid
        obtain ⟨core', hsucceeds⟩ := hsucceeds
        cases hsucceeds.symm.trans hinsert
  · intro hlacks
    by_contra hnone
    simp only [not_exists] at hnone
    refine hlacks ⟨fun hproc => ?_, fun peer hproc => ?_, fun peer i own hproc hi hown => ?_,
      fun height s o hproc => ?_, fun event k hproc hk => ?_⟩
    · cases hnext : n.core.conf.peers.nextPeer with
      | ok chosen => exact ⟨chosen, rfl⟩
      | error failure => exact absurd (.choosePeer hproc hnext) (hnone _ _)
    · cases hfind : n.core.conf.peers.findPeerMut n.core.conf.creator with
      | ok i =>
          obtain ⟨own, hown⟩ := DAGPeerList.exists_of_findPeerMut hfind
          have hid := DAGPeerList.findPeerMut_eq_ok hfind hown
          rw [← hid]
          exact List.mem_map_of_mem (List.mem_of_getElem? hown)
      | error failure => exact absurd (.findOwn hproc hfind) (hnone _ _)
    · by_contra hlast
      obtain ⟨failure, hadd⟩ := usizeAdd_one_error_iff.mpr hlast
      have hnext : own.getNextHeight = .error failure := by
        unfold DAGPeer.getNextHeight
        rw [hadd]
        rfl
      exact hnone _ _ (.nextHeight hproc hi hown hnext)
    · by_contra hlast
      obtain ⟨failure, hadd⟩ := usizeAdd_one_error_iff.mpr hlast
      have hnext : n.core.getNextLamportTime = .error failure := by
        unfold DAGcore.getNextLamportTime
        rw [hadd]
        rfl
      exact hnone _ _ (.nextTime hproc hnext)
    · have hhash : event.eventHash env = .ok (k, { event with hash := k }) :=
        Event.eventHash_eq_ok.mpr ⟨hk, rfl⟩
      cases hinsert : n.core.insertEvent env { event with hash := k } with
      | mk result core' =>
          cases result with
          | error failure => exact absurd (.insertOwn hproc hhash hinsert) (hnone _ _)
          | ok rc =>
              obtain ⟨-, ⟨ins⟩⟩ := DAGcore.insertEvent_eq_ok hinsert
              have hsame : ins.eventHash = k := Except.ok.inj (ins.hash_eq.symm.trans hk)
              have hsign := ins.sign_eq
              rw [hsame] at hsign
              exact ⟨ins.signature, hsign⟩


/-- No lock is poisoned, and what the node's own events rest on is there. -/
structure Sound (env : Env P D T H PK SK Sig) (g : GuardedNode P D T H PK SK Sig) :
    Prop where
  unpoisoned : g.poisoned = ∅
  core : CoreInv env g.node.core
  prepared : Prepared g.node

theorem GuardedRun.sound (h : GuardedRun env conf debug g) (hnone : g.poisoned = ∅) :
    Sound env g := by
  obtain ⟨submitted, hrun⟩ := h.soloRun hnone
  exact ⟨hnone, hrun.coreInv, hrun.prepared⟩

omit [LinearOrder P] [Inhabited H] in
theorem Sound.free (h : Sound env g) (locks : List NodeLock) : g.Free locks :=
  GuardedNode.free_of_unpoisoned h.unpoisoned locks

/-- Where `procedure_a` finds what it counts on, and no unwrap of the listener fails, a
step is a section that goes through. -/
theorem Sound.step (h : Sound env g)
    (hstep : GuardedStep env debug requests replies thread g g')
    (hprovided : thread = .procedureA → Provided env g.node)
    (hlistener : thread = .listener → ¬ UnwrapFails env g.node) :
    Sound env g' ∧ ∃ out, NodeStep env requests replies g.node g'.node out := by
  cases hstep with
  | goes hstep =>
      obtain ⟨out, hnode⟩ := hstep.step
      exact ⟨⟨hstep.poisoned_eq.trans h.unpoisoned, hnode.coreInv h.core,
        h.prepared.step hnode⟩, out, hnode⟩
  | procAPanics hpanics _ =>
      exact absurd (hprovided rfl) ((procAPanics_iff h.core h.prepared).mp ⟨_, _, hpanics⟩)
  | listenerPanics hpanics _ =>
      refine absurd ?_ (hlistener rfl)
      unfold UnwrapFails
      cases hpanics with
      | insertEvent hchecked hinsert =>
          rw [hchecked]
          intro rc core' hsucceeds
          cases hsucceeds.symm.trans hinsert
      | updatePeer hinserted hfind =>
          rw [hinserted]
          intro i hfound
          cases hfound.symm.trans hfind
  | insertPanics _ hconf _ _ =>
      have hnone := h.unpoisoned
      simp only at hnone
      rw [hnone] at hconf
      exact absurd hconf (Set.notMem_empty _)

end Steps

end ConsensusDag
