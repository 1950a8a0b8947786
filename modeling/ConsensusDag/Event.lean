/-
Events, in the three shapes in which they are stored, sent and hashed, and the
functions of the linked crates that work on them.
-/
import ConsensusDag.Peer

namespace ConsensusDag

open AssocTables

/-- The fields an event's hash is computed from. -/
structure HashEvent (P D T H : Type) where
  creator : P
  height : Nat
  selfParent : H
  otherParent : H
  lamportTimestamp : Nat
  transactions : List D
  internalTransactions : List T
deriving DecidableEq, Repr

/-- An event as it travels between nodes. -/
structure NetEvent (P D T H Sig : Type) where
  creator : P
  height : Nat
  selfParent : H
  otherParent : H
  lamportTimestamp : Nat
  transactions : List D
  internalTransactions : List T
  signatures : Table P Sig

/-- An event as a node stores it. -/
structure Event (P D T H Sig : Type) where
  creator : P
  height : Nat
  selfParent : H
  otherParent : H
  lamportTimestamp : Nat
  transactions : List D
  internalTransactions : List T
  hash : H
  signatures : Table P Sig
  frameNumber : Nat

/-- What the node takes from linked crates: hashing, signing, verification, and
the number of nested calls its stack has room for. -/
structure Env (P D T H PK SK Sig : Type) where
  eventHash : HashEvent P D T H → Except Error H
  sign : H → PK → SK → Except Error Sig
  verify : Sig → H → PK → Except Error Bool
  stackDepth : Nat

/-- An error value of a linked crate, raised with `?`. -/
def raise {α : Type} : Except Error α → Result α
  | .error error => .error (.err error)
  | .ok value => .ok value

@[simp] theorem raise_eq_ok {α : Type} {result : Except Error α} {value : α} :
    raise result = .ok value ↔ result = .ok value := by
  cases result <;> simp [raise]

variable {P D T H PK SK Sig : Type}

namespace Event

def new [Inhabited H] (creator : P) (height : Nat) (selfParent otherParent : H)
    (lamportTimestamp : Nat) (transactions : List D)
    (internalTransactions : List T) : Event P D T H Sig :=
  { creator, height, selfParent, otherParent, lamportTimestamp, transactions,
    internalTransactions
    hash := default
    signatures := ∅
    frameNumber := 0 }

def toHashEvent (ev : Event P D T H Sig) : HashEvent P D T H :=
  { creator := ev.creator
    height := ev.height
    selfParent := ev.selfParent
    otherParent := ev.otherParent
    lamportTimestamp := ev.lamportTimestamp
    transactions := ev.transactions
    internalTransactions := ev.internalTransactions }

def toNetEvent (ev : Event P D T H Sig) : NetEvent P D T H Sig :=
  { creator := ev.creator
    height := ev.height
    selfParent := ev.selfParent
    otherParent := ev.otherParent
    lamportTimestamp := ev.lamportTimestamp
    transactions := ev.transactions
    internalTransactions := ev.internalTransactions
    signatures := ev.signatures }

/-- Compute the hash and keep it in the event. -/
def eventHash (env : Env P D T H PK SK Sig) (ev : Event P D T H Sig) :
    Result (H × Event P D T H Sig) := do
  let hash ← raise (env.eventHash ev.toHashEvent)
  pure (hash, { ev with hash := hash })

theorem eventHash_eq_ok {env : Env P D T H PK SK Sig}
    {ev ev' : Event P D T H Sig} {k : H} :
    ev.eventHash env = .ok (k, ev') ↔
      env.eventHash ev.toHashEvent = .ok k ∧ ev' = { ev with hash := k } := by
  unfold eventHash
  simp only [Result.bind_eq_ok, raise_eq_ok]
  constructor
  · rintro ⟨hash, hhash, h⟩
    cases h
    exact ⟨hhash, rfl⟩
  · rintro ⟨hhash, rfl⟩
    exact ⟨k, hhash, rfl⟩

end Event

namespace NetEvent

def toHashEvent (ev : NetEvent P D T H Sig) : HashEvent P D T H :=
  { creator := ev.creator
    height := ev.height
    selfParent := ev.selfParent
    otherParent := ev.otherParent
    lamportTimestamp := ev.lamportTimestamp
    transactions := ev.transactions
    internalTransactions := ev.internalTransactions }

def toEvent [Inhabited H] (env : Env P D T H PK SK Sig)
    (ev : NetEvent P D T H Sig) : Result (Event P D T H Sig) := do
  let ex : Event P D T H Sig :=
    { creator := ev.creator
      height := ev.height
      selfParent := ev.selfParent
      otherParent := ev.otherParent
      lamportTimestamp := ev.lamportTimestamp
      transactions := ev.transactions
      internalTransactions := ev.internalTransactions
      hash := default
      signatures := ev.signatures
      frameNumber := 0 }
  let (_, ex) ← (ex.eventHash env).unwrap
  pure ex

end NetEvent

end ConsensusDag
