/-
The locks of a node.  The core is shared behind one lock, and holds the configuration
and the store behind a lock each.  Here each function is what it does with the three
locks: the data decides which branch is taken, so every branch is possible.
-/
import ConsensusDag.Lib.LockOrder

namespace ConsensusDag

open LockOrders Prog Relation

/-- The locks of one node. -/
inductive NodeLock
  | core
  | conf
  | store
deriving DecidableEq, Repr

/-- The core comes first; configuration and store are never held together. -/
def NodeLock.rank : NodeLock → Nat
  | .core => 0
  | .conf => 1
  | .store => 1

abbrev LockProg := Prog NodeLock

namespace Locks

/-- A read or a write of what is behind a lock. -/
def reads (lock : NodeLock) : LockProg := .guard lock .read .work

def writes (lock : NodeLock) : LockProg := .guard lock .write .work

/-- The call may return here, as `?` does and `return` under a condition. -/
def orReturn (rest : List LockProg) : LockProg := .either .work (.all rest)

/-- What is done under a condition. -/
def maybe (p : LockProg) : LockProg := .either p .work

/-- For each signature the peer is looked up. -/
def checkEvent : LockProg := .loop (.seq (reads .conf) .work)

/-- The loop over the frames to finalise, which a write that fails may end.  The waker
is called while the configuration is locked. -/
def finaliseFrames : LockProg :=
  .seq (.loop (.seq (writes .store) (writes .conf))) (maybe (writes .store))

/-- `insert_event`, which runs under the lock of the core. -/
def insertEvent : LockProg :=
  .seq .work <| orReturn [reads .store,
    orReturn [maybe (.all [reads .store, reads .conf]), writes .store,
      orReturn [reads .conf,
        orReturn [writes .store,
          orReturn [reads .store, reads .conf, maybe finaliseFrames]]]]]

/-- One event of a reply. -/
def receiveEvent : LockProg :=
  .seq (.guard .core .read checkEvent)
    (orReturn [.guard .core .write insertEvent, writes .conf])

/-- `listener`: when the loop ends, the node is shut down. -/
def listener : LockProg :=
  .all [reads .core, reads .core,
    .loop (.seq .work (orReturn [writes .core, .loop receiveEvent])), writes .core]

/-- One iteration of `procedure_a` after the check for shutdown. -/
def round : LockProg :=
  .all [writes .conf, reads .core, .work, writes .conf, reads .conf, reads .store,
    writes .core, .work, .guard .core .write insertEvent, .work]

def procedureA : LockProg :=
  .all [reads .core, reads .core, reads .conf, reads .conf, reads .conf, reads .core,
    .loop (.seq (reads .core) round), reads .core]

/-- One request in `procedure_b`, with the trace messages that look up a peer or the
time.  The reply is sent while the configuration is locked. -/
def serve : LockProg :=
  .all [.work, maybe (reads .conf), writes .core, maybe (reads .core), reads .store,
    orReturn [reads .conf, reads .core, writes .conf]]

def procedureB : LockProg :=
  .all [reads .core, reads .conf, reads .core, reads .core, .loop serve]

/-- One turn of the loop of `poll_next`, all of it under the lock of the core. -/
def pollTurn : LockProg :=
  .guard .core .write (.either (writes .conf) (.seq (reads .store) (reads .store)))

def pollNext : LockProg :=
  .seq (reads .core) (orReturn [.guard .core .read (maybe (writes .conf)),
    orReturn [.loop pollTurn, orReturn [.guard .core .read (writes .conf)]]])

def sendTransaction : LockProg := writes .core

/-- `drop`: the waker is called while the core and the configuration are locked. -/
def drop : LockProg :=
  .all [reads .core, .work, .guard .core .write (writes .conf), .work]

/-- The owner of the node polls and hands in transactions, and drops the node. -/
def owner : LockProg :=
  .seq (.loop (.either pollNext (.either sendTransaction .work))) drop

end Locks

/-- The threads of a node, and those of its owner. -/
inductive NodeThread
  | listener
  | procedureA
  | procedureB
  | owner
deriving DecidableEq, Repr

def NodeThread.prog : NodeThread → LockProg
  | .listener => Locks.listener
  | .procedureA => Locks.procedureA
  | .procedureB => Locks.procedureB
  | .owner => Locks.owner

theorem NodeThread.ordered (thread : NodeThread) :
    thread.prog.ordered NodeLock.rank 0 = true := by
  cases thread <;> decide

theorem NodeLock.rank_lt (lock : NodeLock) : lock.rank < 2 := by
  cases lock <;> decide

variable {ι : Type} [DecidableEq ι] {threads : ι → NodeThread}
  {s : ι → List (Todo NodeLock)}

/-- The threads of a node never block each other for good, however they interleave, and
whether or not readers have to wait for waiting writers.  Each thread that has something
to do can go on, or waits in the end for one that can; and what runs with a lock taken
for writing, as each section of the model under the lock of the core, runs alone. -/
theorem threads_go_on (h : Reachable (fun i => (threads i).prog) s) :
    (∀ i, s i ≠ [] → ∃ j, ReflTransGen (WaitsFor s) i j ∧ CanGo s j) ∧
      ∀ i j lock mode, (lock, .write) ∈ held (s i) → (lock, mode) ∈ held (s j) → i = j :=
  ⟨fun _ htodo => waits_for_canGo NodeLock.rank_lt
    (fun i => h.inOrder (fun j => (threads j).ordered) i) htodo, h.exclusive⟩

/-- The owner hands in a transaction, for which it has taken the core, while the
listener is about to read the core. -/
def handsIn : NodeThread → List (Todo NodeLock)
  | .owner => [.run .work, .release .core .write,
      .run (.loop (.either Locks.pollNext (.either Locks.sendTransaction .work))),
      .run Locks.drop]
  | .listener => [.run (Locks.reads .core), .run (.all [Locks.reads .core,
      .loop (.seq .work (Locks.orReturn [Locks.writes .core, .loop Locks.receiveEvent])),
      Locks.writes .core])]
  | thread => [.run thread.prog]

theorem reachable_handsIn :
    Reachable (fun thread : NodeThread => (id thread).prog) handsIn := by
  have hstart : Reachable (fun thread : NodeThread => (id thread).prog)
      fun thread => [Todo.run thread.prog] := .refl
  have hlistens := hstart.tail (.thread (i := NodeThread.listener) .seq)
  have howns := hlistens.tail (.thread (i := NodeThread.owner) .seq)
  have hagain := howns.tail (.thread (i := NodeThread.owner) .again)
  have hright := hagain.tail (.thread (i := NodeThread.owner) .right)
  have hsends := hright.tail (.thread (i := NodeThread.owner) .left)
  have hlocks := hsends.tail (.acquire (i := NodeThread.owner) rfl ?_)
  · refine cast (congrArg _ ?_) hlocks
    funext thread
    cases thread <;> rfl
  · intro thread mode hheld
    cases thread <;> cases hheld

/-- The listener waits for the owner, which can go on. -/
theorem handsIn_goes_on : (NodeLock.core, .write) ∈ held (handsIn .owner) ∧
    WaitsFor handsIn .listener .owner ∧
    ∃ j, ReflTransGen (WaitsFor handsIn) .listener j ∧ CanGo handsIn j := by
  have hheld : (NodeLock.core, Mode.write) ∈ held (handsIn .owner) := List.mem_cons_self
  refine ⟨hheld, ⟨.core, .read, rfl, Or.inl ⟨.write, hheld, nofun⟩⟩, ?_⟩
  exact (threads_go_on reachable_handsIn).1 .listener nofun

end ConsensusDag
