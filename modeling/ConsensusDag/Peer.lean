/-
Peers and the peer list: the heights and clocks a node has recorded for the
others, the round-robin choice of the next peer, and the root majority.  The
aliases of `usize` (frame numbers, heights, Lamport times) are natural numbers.
-/
import Mathlib.Data.List.Sort
import ConsensusDag.Errors
import ConsensusDag.Lib.AssocTable

namespace ConsensusDag

open AssocTables

structure Gossip where
  lamportTime : Nat
  height : Nat
deriving DecidableEq, Repr

abbrev GossipList (P : Type) := Table P Gossip

structure DAGPeer (P PK : Type) where
  pubKey : PK
  id : P
  requestAddr : String
  replyAddr : String
  height : Nat
  lamportTime : Nat

variable {P PK : Type}

namespace DAGPeer

def getNextHeight (peer : DAGPeer P PK) : Result (Nat × DAGPeer P PK) := do
  let height ← usizeAdd peer.height 1
  pure (height, { peer with height := height })

def updateLamportTimeAndHeight (peer : DAGPeer P PK) (time : Nat)
    (height : Nat) : DAGPeer P PK :=
  { peer with
    lamportTime := if peer.lamportTime < time then time else peer.lamportTime
    height := if peer.height < height then height else peer.height }

theorem getNextHeight_eq_ok {peer peer' : DAGPeer P PK} {height : Nat}
    (h : peer.getNextHeight = .ok (height, peer')) :
    height = peer.height + 1 ∧ peer' = { peer with height := height } := by
  unfold getNextHeight at h
  simp only [Result.bind_eq_ok] at h
  obtain ⟨next, hnext, h⟩ := h
  cases usizeAdd_eq_ok hnext
  cases h
  exact ⟨rfl, rfl⟩

theorem updateLamportTimeAndHeight_height (peer : DAGPeer P PK)
    (time height : Nat) :
    (peer.updateLamportTimeAndHeight time height).height =
      max peer.height height := by
  unfold updateLamportTimeAndHeight
  simp only
  split <;> omega

end DAGPeer

/-- The peer list caches its size `n`, the round-robin number `r` and the index
`current` of the node's own entry. -/
structure DAGPeerList (P PK : Type) where
  peers : List (DAGPeer P PK)
  n : Nat
  r : Nat
  creator : P
  current : Nat

namespace DAGPeerList

def new [Inhabited P] : DAGPeerList P PK :=
  ⟨[], 0, 0, default, 0⟩

variable [LinearOrder P]

def sortPeers (list : DAGPeerList P PK) : DAGPeerList P PK :=
  let peers := list.peers.insertionSort fun a b => a.id ≤ b.id
  { list with
    peers := peers
    current := (peers.findIdx? fun x => x.id = list.creator).getD 0 }

def add (list : DAGPeerList P PK) (p : DAGPeer P PK) : DAGPeerList P PK :=
  let peers := list.peers ++ [p]
  sortPeers { list with
    peers := peers, n := peers.length, r := peers.length >>> 1 }

def setCreator (list : DAGPeerList P PK) (creator : P) : DAGPeerList P PK :=
  sortPeers { list with creator := creator }

theorem setCreator_peers_perm (list : DAGPeerList P PK) (creator : P) :
    (list.setCreator creator).peers.Perm list.peers :=
  List.perm_insertionSort _ _

/-- The peer at offset `r` from the node's own entry; `r` is halved each time
and starts over from `n / 2`. -/
def nextPeer (list : DAGPeerList P PK) :
    Result (DAGPeer P PK × DAGPeerList P PK) :=
  if list.n = 0 then .error .panic
  else
    let next := (list.current + list.r) % list.n
    let r := if 1 < list.r then list.r >>> 1 else list.n >>> 1
    match list.peers[next]? with
    | none => .error .panic
    | some peer => .ok (peer, { list with r := r })

def getGossipList (list : DAGPeerList P PK) : GossipList P :=
  list.peers.foldl
    (fun g p => g.insert p.id ⟨p.lamportTime, p.height⟩) ∅

def findPeer (list : DAGPeerList P PK) (id : P) : Result (DAGPeer P PK) :=
  match list.peers.find? fun x => x.id = id with
  | none => .error (.err .noneError)
  | some peer => .ok peer

/-- The mutable reference is the position of the peer in the list. -/
def findPeerMut (list : DAGPeerList P PK) (id : P) : Result Nat :=
  match list.peers.findIdx? fun x => x.id = id with
  | none => .error (.err .noneError)
  | some i => .ok i

/-- Write through the reference returned by `findPeerMut`. -/
def writePeer (list : DAGPeerList P PK) (i : Nat) (peer : DAGPeer P PK) :
    DAGPeerList P PK :=
  { list with peers := list.peers.set i peer }

def findPeerWithLamportTimeUpdate (list : DAGPeerList P PK) (id : P)
    (time : Nat) : Result (DAGPeer P PK × DAGPeerList P PK) := do
  let i ← list.findPeerMut id
  let peer ← list.findPeer id
  let peer := { peer with
    lamportTime := if peer.lamportTime < time then time else peer.lamportTime }
  pure (peer, list.writePeer i peer)

def rootMajority (list : DAGPeerList P PK) : Nat :=
  2 * list.peers.length / 3 + 1

def len (list : DAGPeerList P PK) : Nat :=
  list.peers.length

def getCreatorId (list : DAGPeerList P PK) : Result P :=
  match list.peers[list.current]? with
  | none => .error .panic
  | some peer => .ok peer.id

end DAGPeerList

end ConsensusDag
