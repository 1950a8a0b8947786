/-
The core of a node: its configuration, its store and clock, and `insert_event`,
which gives an event its frame and finalises the frames that are complete.
-/
import ConsensusDag.Store

namespace ConsensusDag

open AssocTables

inductive StoreType
  | unknown
  | sled
deriving DecidableEq, Repr

/-- The consumer task waiting in `poll_next` is a number. -/
structure DAGconfig (P PK SK : Type) where
  storeType : StoreType
  waker : Option Nat
  peers : DAGPeerList P PK
  creator : P
  secretKey : SK
  publicKey : PK

/-- `wakes` lists the tasks woken so far and `finalisedLog` the frames for which
a `+finalised frame` line was written: effects that the code has on others. -/
structure DAGcore (P D T H PK SK Sig : Type) where
  conf : DAGconfig P PK SK
  store : SledStore P D T H Sig
  txPool : List D
  internalTxPool : List T
  lamportTime : Nat
  currentFrame : Option Nat
  currentEvent : Option Nat
  currentTx : Option Nat
  lastFinalisedFrame : Option Nat
  shutdown : Bool
  wakes : List Nat
  finalisedLog : List Nat

variable {P D T H PK SK Sig : Type}

/-- The leaf event of a peer. -/
def leafEvent [Inhabited H] (peer : DAGPeer P PK) : Event P D T H Sig :=
  Event.new peer.id peer.height default default peer.lamportTime [] []

namespace DAGcore

def transactionsLimit : Nat := 16000

/-- Hash and store the leaf event of one peer, with a flag table that holds just
this event. -/
def insertLeaf [DecidableEq P] [DecidableEq H] [Inhabited H]
    (env : Env P D T H PK SK Sig) (store : SledStore P D T H Sig)
    (peer : DAGPeer P PK) : Result (SledStore P D T H Sig) := do
  let (ex, event) ← ((leafEvent peer).eventHash env).unwrap
  let ft : FlagTable H := AList.insert ex 0 ∅
  pure ((store.setEvent event).setFlagTable ex ft)

/-- Start a node on the store found on disk. -/
def new [LinearOrder P] [DecidableEq H] [Inhabited H]
    (env : Env P D T H PK SK Sig) (conf : DAGconfig P PK SK)
    (disk : SledStore P D T H Sig) : Result (DAGcore P D T H PK SK Sig) :=
  match conf.storeType with
  | .unknown => .error .panic
  | .sled => do
      let peers := conf.peers.setCreator conf.creator
      let store ← peers.peers.foldlM (insertLeaf env) disk
      pure
        { conf := { conf with peers := peers }
          store := store
          txPool := []
          internalTxPool := []
          lamportTime := 0
          currentFrame := none
          currentEvent := some 0
          currentTx := some 0
          lastFinalisedFrame := none
          shutdown := false
          wakes := []
          finalisedLog := [] }

def getNextLamportTime (core : DAGcore P D T H PK SK Sig) :
    Result (Nat × DAGcore P D T H PK SK Sig) := do
  let time ← usizeAdd core.lamportTime 1
  pure (time, { core with lamportTime := time })

def updateLamportTime (core : DAGcore P D T H PK SK Sig) (time : Nat) :
    DAGcore P D T H PK SK Sig :=
  if core.lamportTime < time then { core with lamportTime := time } else core

def addTransaction (core : DAGcore P D T H PK SK Sig) (data : D) :
    DAGcore P D T H PK SK Sig :=
  { core with txPool := core.txPool ++ [data] }

def nextTransactions (core : DAGcore P D T H PK SK Sig) :
    List D × DAGcore P D T H PK SK Sig :=
  let len := min core.txPool.length transactionsLimit
  (core.txPool.take len, { core with txPool := core.txPool.drop len })

def nextInternalTransactions (core : DAGcore P D T H PK SK Sig) :
    List T × DAGcore P D T H PK SK Sig :=
  let len := min core.internalTxPool.length transactionsLimit
  (core.internalTxPool.take len,
    { core with internalTxPool := core.internalTxPool.drop len })

variable [LinearOrder P] [LinearOrder H]

/-- The loop of `check_event` over the signatures the event carries. -/
def checkSignatures (env : Env P D T H PK SK Sig) (peers : DAGPeerList P PK)
    (hash : H) : List (Sigma fun _ : P => Sig) → Result Bool
  | [] => .ok true
  | ⟨signatory, signature⟩ :: rest => do
      let peer ← peers.findPeer signatory
      let res ← raise (env.verify signature hash peer.pubKey)
      if res then checkSignatures env peers hash rest else pure false

def checkEvent (env : Env P D T H PK SK Sig) (core : DAGcore P D T H PK SK Sig)
    (event : Event P D T H Sig) : Result Bool :=
  checkSignatures env core.conf.peers event.hash event.signatures.entries

def firstNotFinalisedFrame (core : DAGcore P D T H PK SK Sig) : Nat :=
  match core.lastFinalisedFrame with
  | some x => x + 1
  | none => 0

/-- Whether an event with these parents is a root, and its frame number. -/
def rootAndFrame (env : Env P D T H PK SK Sig)
    (core : DAGcore P D T H PK SK Sig)
    (selfParentEvent otherParentEvent : Event P D T H Sig)
    (selfParentFt otherParentFt : FlagTable H) : Result (Bool × Nat) :=
  match compare selfParentEvent.frameNumber otherParentEvent.frameNumber with
  | .eq => do
      let rootFlagTable := strictMergeFlagTable selfParentFt otherParentFt
        selfParentEvent.frameNumber
      let creatorRootFlagTable ← core.store.deriveCreatorFlagTable env
        rootFlagTable selfParentEvent.frameNumber
      if core.conf.peers.rootMajority ≤ creatorRootFlagTable.entries.length then
        pure (true, selfParentEvent.frameNumber + 1)
      else pure (false, selfParentEvent.frameNumber)
  | .gt => pure (false, selfParentEvent.frameNumber)
  | .lt => pure (true, otherParentEvent.frameNumber)

/-- The part of `insert_event` that only reads: the hash, the parents, the frame
and the flag table of the event. -/
def prepareEvent (env : Env P D T H PK SK Sig)
    (core : DAGcore P D T H PK SK Sig) (event : Event P D T H Sig) :
    Result (H × Event P D T H Sig × FlagTable H) := do
  let (eventHash, event) ← event.eventHash env
  let selfParentEvent ← core.store.getEvent event.selfParent
  let otherParentEvent ← core.store.getEvent event.otherParent
  let selfParentFt ← core.store.getFlagTable event.selfParent
  let otherParentFt ← core.store.getFlagTable event.otherParent
  let (root, frame) ← core.rootAndFrame env selfParentEvent otherParentEvent
    selfParentFt otherParentFt
  let visibilisFlagTable := openMergeFlagTable selfParentFt otherParentFt
    core.firstNotFinalisedFrame
  let visibilisFlagTable : FlagTable H :=
    if root then visibilisFlagTable.insert eventHash frame
    else visibilisFlagTable
  pure (eventHash, { event with frameNumber := frame }, visibilisFlagTable)

/-- Add the node's own signature. -/
def signEvent (env : Env P D T H PK SK Sig) (conf : DAGconfig P PK SK)
    (eventHash : H) (event : Event P D T H Sig) :
    Result (Event P D T H Sig) := do
  let signature ← raise (env.sign eventHash conf.publicKey conf.secretKey)
  let creatorId ← conf.peers.getCreatorId
  pure { event with signatures := event.signatures.insert creatorId signature }

/-- The frames an inserted event finalises, in the order of the loop. -/
def framesToFinalise (env : Env P D T H PK SK Sig)
    (core : DAGcore P D T H PK SK Sig) (visibilisFlagTable : FlagTable H)
    (firstNotFinalisedFrame : Nat) : Result (List Nat) := do
  let creatorVisibilisFlagTable ← core.store.deriveCreatorFlagTable env
    visibilisFlagTable (firstNotFinalisedFrame + 1)
  if core.conf.peers.len = creatorVisibilisFlagTable.entries.length then
    let frameUpto := minFrame creatorVisibilisFlagTable
    pure (List.range' firstNotFinalisedFrame
      (frameUpto - firstNotFinalisedFrame))
  else pure []

/-- One turn of the finalisation loop: sort the frame, move the finalisation
point and wake the consumer. -/
def finaliseFrame (core : DAGcore P D T H PK SK Sig) (frame : Nat) :
    DAGcore P D T H PK SK Sig :=
  { core with
    store := core.store.setFrame frame (core.store.getFrame frame).finalise
    lastFinalisedFrame := some frame
    conf := { core.conf with waker := none }
    wakes := core.wakes ++ core.conf.waker.toList
    finalisedLog := core.finalisedLog ++ [frame] }

def finaliseFrames (core : DAGcore P D T H PK SK Sig) (frames : List Nat) :
    DAGcore P D T H PK SK Sig :=
  frames.foldl finaliseFrame core

/-- `insert_event`.  The state is returned also when the call fails, since the
flag table is written before the event is signed. -/
def insertEvent (env : Env P D T H PK SK Sig) (event : Event P D T H Sig)
    (core : DAGcore P D T H PK SK Sig) :
    Result Bool × DAGcore P D T H PK SK Sig :=
  match core.prepareEvent env event with
  | .error failure => (.error failure, core)
  | .ok (eventHash, event, visibilisFlagTable) =>
      let first := core.firstNotFinalisedFrame
      let core := { core with
        store := core.store.setFlagTable eventHash visibilisFlagTable }
      match signEvent env core.conf eventHash event with
      | .error failure => (.error failure, core)
      | .ok event =>
          let core := { core with store := core.store.setEvent event }
          match core.framesToFinalise env visibilisFlagTable first with
          | .error failure => (.error failure, core)
          | .ok frames => (.ok true, core.finaliseFrames frames)

end DAGcore

end ConsensusDag
