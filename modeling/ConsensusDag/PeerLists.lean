/-
The ways to build a peer list.  Adding peers one at a time keeps the cached size
and the round-robin number in step with the list; a list that is loaded from a file
or taken over from a vector has neither.
-/
import ConsensusDag.Gossip

namespace ConsensusDag

variable {P PK : Type}

section Construction

/-- What the standard library does with socket addresses. -/
structure SocketFormat (Addr : Type) where
  parse : String → Option Addr
  port : Addr → Nat
  setPort : Addr → Nat → Addr
  toString : Addr → String

/-- `u16::MAX`, the last port. -/
def u16Max : Nat := 0xffff

/-- A peer as the application describes it, and as a peer file lists it. -/
structure BaseConsensusPeer (P PK : Type) where
  pubKey : PK
  id : P
  netAddr : String

namespace DAGPeer

/-- Replies go to the port after the one for requests. -/
def ofBase {Addr : Type} (net : SocketFormat Addr) (bp : BaseConsensusPeer P PK) :
    Result (DAGPeer P PK) :=
  match net.parse bp.netAddr with
  | none => .error .panic
  | some socket =>
      if net.port socket + 1 ≤ u16Max then
        .ok
          { pubKey := bp.pubKey
            id := bp.id
            requestAddr := bp.netAddr
            replyAddr := net.toString (net.setPort socket (net.port socket + 1))
            height := 0
            lamportTime := 0 }
      else .error .panic

def new {Addr : Type} [Inhabited PK] (net : SocketFormat Addr) (id : P)
    (netAddr : String) : Result (DAGPeer P PK) :=
  ofBase net ⟨default, id, netAddr⟩

def setPublicKey (peer : DAGPeer P PK) (key : PK) : DAGPeer P PK :=
  { peer with pubKey := key }

/-- Deserialisation skips the reply address, the height and the time. -/
def deserialize (bp : BaseConsensusPeer P PK) : DAGPeer P PK :=
  { pubKey := bp.pubKey
    id := bp.id
    requestAddr := bp.netAddr
    replyAddr := ""
    height := 0
    lamportTime := 0 }

/-- Both constructors derive the same reply address. -/
theorem new_setPublicKey {Addr : Type} [Inhabited PK] (net : SocketFormat Addr)
    (bp : BaseConsensusPeer P PK) :
    (do let peer ← new net bp.id bp.netAddr
        pure (setPublicKey peer bp.pubKey)) = ofBase net bp := by
  unfold new ofBase
  simp only
  split
  · rfl
  · split <;> rfl

theorem ofBase_id {Addr : Type} {net : SocketFormat Addr}
    {bp : BaseConsensusPeer P PK} {peer : DAGPeer P PK}
    (h : ofBase net bp = .ok peer) : peer.id = bp.id := by
  unfold ofBase at h
  split at h
  · cases h
  · split at h
    · cases h
      rfl
    · cases h

end DAGPeer

namespace DAGPeerList

def newWithContent [Inhabited P] (peers : List (DAGPeer P PK)) : DAGPeerList P PK :=
  { (new : DAGPeerList P PK) with peers := peers }

variable [LinearOrder P]

/-- `readFile` opens a file and reads it, `fromStr` is the JSON parser. -/
def getPeersFromFile (readFile : String → Except Error String)
    (fromStr : String → Except Error (List (BaseConsensusPeer P PK)))
    (list : DAGPeerList P PK) (jsonPeerPath : String) :
    Result (DAGPeerList P PK) := do
  let data ← raise (readFile jsonPeerPath)
  let v ← raise (fromStr data)
  pure (sortPeers { list with peers := list.peers ++ v.map DAGPeer.deserialize })

/-- The peers that so many calls of `next_peer` choose. -/
def nextPeers : Nat → DAGPeerList P PK → Result (List (DAGPeer P PK))
  | 0, _ => .ok []
  | k + 1, list => do
      let (peer, list) ← list.nextPeer
      let rest ← nextPeers k list
      pure (peer :: rest)

end DAGPeerList

end Construction

section Agreement

variable [LinearOrder P] {list list' : DAGPeerList P PK} {creator : P}

namespace DAGPeerList

/-- The size and the round-robin number of a list that was filled by `add`. -/
theorem foldl_add [Inhabited P] (added : List (DAGPeer P PK)) :
    (added.foldl add new).peers.Perm added ∧
      (added.foldl add new).n = added.length ∧
      (added.foldl add new).r = added.length >>> 1 := by
  induction added using List.reverseRecOn with
  | nil => exact ⟨.refl _, rfl, (Nat.zero_shiftRight 1).symm⟩
  | append_singleton added peer ih =>
      have hperm := ih.1.append_right [peer]
      have hlength := hperm.length_eq
      rw [List.foldl_append]
      refine ⟨(List.perm_insertionSort _ _).trans hperm, hlength, ?_⟩
      exact congrArg (· >>> 1) hlength

theorem setCreator_ids_sorted (list : DAGPeerList P PK) (creator : P) :
    ((list.setCreator creator).peers.map DAGPeer.id).Pairwise (· ≤ ·) := by
  rw [List.pairwise_map]
  exact List.pairwise_insertionSort (fun a b : DAGPeer P PK => a.id ≤ b.id) _

/-- Lists of the same ids have them in the same places once the creator is set. -/
theorem setCreator_ids_eq
    (hperm : (list.peers.map DAGPeer.id).Perm (list'.peers.map DAGPeer.id))
    (creator creator' : P) : (list.setCreator creator).peers.map DAGPeer.id =
      (list'.setCreator creator').peers.map DAGPeer.id := by
  refine List.Perm.eq_of_pairwise' (setCreator_ids_sorted list creator)
    (setCreator_ids_sorted list' creator') ?_
  exact ((setCreator_peers_perm list creator).map _).trans
    (hperm.trans ((setCreator_peers_perm list' creator').map _).symm)

theorem setCreator_current (list : DAGPeerList P PK) (creator : P) :
    (list.setCreator creator).current =
      (((list.setCreator creator).peers.map DAGPeer.id).findIdx?
        fun id => id = creator).getD 0 := by
  rw [List.findIdx?_map]
  rfl

/-- Three lists are one, with its size cached, and no choice of a peer fails. -/
structure Same (built loaded taken : DAGPeerList P PK) : Prop where
  loaded_eq : loaded = built
  taken_eq : taken = built
  n_eq : built.n = built.peers.length
  next : ∀ k, ∃ chosen, built.nextPeers k = .ok chosen

theorem getPeersFromFile_eq_ok {readFile : String → Except Error String}
    {fromStr : String → Except Error (List (BaseConsensusPeer P PK))}
    {path data : String} {records : List (BaseConsensusPeer P PK)}
    (hread : readFile path = .ok data) (hparse : fromStr data = .ok records) :
    list.getPeersFromFile readFile fromStr path = .ok (sortPeers { list with
      peers := list.peers ++ records.map DAGPeer.deserialize }) := by
  simp only [getPeersFromFile, hread, hparse, raise, bind, Except.bind]
  rfl

omit [LinearOrder P] in
/-- A list without its size divides by zero. -/
theorem nextPeer_of_n_eq_zero (h : list.n = 0) : list.nextPeer = .error .panic :=
  if_pos h

omit [LinearOrder P] in
theorem ids_of_mapM {Addr : Type} {net : SocketFormat Addr}
    {records : List (BaseConsensusPeer P PK)} {added : List (DAGPeer P PK)}
    (h : records.mapM (DAGPeer.ofBase net) = .ok added) :
    added.map DAGPeer.id = records.map BaseConsensusPeer.id := by
  induction records generalizing added with
  | nil =>
      cases h
      rfl
  | cons bp records ih =>
      simp only [List.mapM_cons, Result.bind_eq_ok] at h
      obtain ⟨peer, hpeer, rest, hrest, h⟩ := h
      cases h
      rw [List.map_cons, List.map_cons, ih hrest, DAGPeer.ofBase_id hpeer]

/-- What the three ways to build a list make of the same peers: ids in the same
places, but a size and a round-robin number only where peers were added, and no
reply address where they were loaded. -/
theorem peer_lists_differ [Inhabited P] {Addr : Type} {net : SocketFormat Addr}
    {readFile : String → Except Error String}
    {fromStr : String → Except Error (List (BaseConsensusPeer P PK))}
    {path data : String} {records : List (BaseConsensusPeer P PK)}
    {added : List (DAGPeer P PK)}
    (hadded : records.mapM (DAGPeer.ofBase net) = .ok added)
    (hread : readFile path = .ok data) (hparse : fromStr data = .ok records)
    (hcreator : creator ∈ records.map BaseConsensusPeer.id) :
    ∃ loaded, new.getPeersFromFile readFile fromStr path = .ok loaded ∧
      ¬ Same ((added.foldl add new).setCreator creator)
        (loaded.setCreator creator) ((newWithContent added).setCreator creator) ∧
      (∀ list ∈ [loaded, newWithContent added],
        (list.setCreator creator).nextPeer = .error .panic ∧
        (list.setCreator creator).peers.map DAGPeer.id =
          ((added.foldl add new).setCreator creator).peers.map DAGPeer.id ∧
        (list.setCreator creator).current =
          ((added.foldl add new).setCreator creator).current) ∧
      ((added.foldl add new).setCreator creator).n = records.length ∧
      ∀ peer ∈ (loaded.setCreator creator).peers, peer.replyAddr = "" := by
  obtain ⟨hperm, hn, -⟩ := foldl_add added
  have hids := ids_of_mapM hadded
  have hlength : added.length = records.length := by
    rw [← List.length_map DAGPeer.id, hids, List.length_map]
  have hsame : ∀ list : DAGPeerList P PK,
      (list.peers.map DAGPeer.id).Perm (added.map DAGPeer.id) →
      (list.setCreator creator).peers.map DAGPeer.id =
          ((added.foldl add new).setCreator creator).peers.map DAGPeer.id ∧
        (list.setCreator creator).current =
          ((added.foldl add new).setCreator creator).current := by
    intro list hlist
    have heq := setCreator_ids_eq (hlist.trans (hperm.map _).symm) creator creator
    exact ⟨heq, by rw [setCreator_current, setCreator_current, heq]⟩
  have hloaded : new.getPeersFromFile readFile fromStr path = _ :=
    getPeersFromFile_eq_ok hread hparse
  refine ⟨_, hloaded, ?_, ?_, hn.trans hlength, ?_⟩
  · intro hall
    -- the lengths are cached as zero and as a number of peers
    have hzero : (0 : Nat) = (added.foldl add new).n :=
      congrArg DAGPeerList.n hall.taken_eq
    rw [hn, hlength] at hzero
    obtain ⟨bp, hbp, -⟩ := List.mem_map.mp hcreator
    exact absurd (List.length_pos_of_mem hbp) (by omega)
  · intro list hlist
    rcases List.mem_cons.mp hlist with rfl | hlist
    · refine ⟨nextPeer_of_n_eq_zero rfl, hsame _ ?_⟩
      refine ((List.perm_insertionSort _ _).map _).trans (List.Perm.of_eq ?_)
      rw [hids]
      exact List.map_map
    · obtain rfl := List.mem_singleton.mp hlist
      exact ⟨nextPeer_of_n_eq_zero rfl, hsame _ (.refl _)⟩
  · intro peer hpeer
    have hmem := ((setCreator_peers_perm _ _).trans
      (List.perm_insertionSort _ _)).mem_iff.mp hpeer
    obtain ⟨bp, -, rfl⟩ := List.mem_map.mp hmem
    rfl

end DAGPeerList

end Agreement

namespace TwoPeers

/-- Two ports of one host, and two peers that listen there. -/
def loopback : SocketFormat Nat where
  parse text :=
    if text = "127.0.0.1:10001" then some 10001
    else if text = "127.0.0.1:10003" then some 10003
    else none
  port := id
  setPort _ port := port
  toString port := "127.0.0.1:" ++ toString port

def records : List (BaseConsensusPeer Nat Unit) :=
  [⟨(), 0, "127.0.0.1:10001"⟩, ⟨(), 1, "127.0.0.1:10003"⟩]

/-- A file with these peers, whatever its name. -/
def readFile (_ : String) : Except Error String := .ok "[..]"

def fromStr (_ : String) : Except Error (List (BaseConsensusPeer Nat Unit)) :=
  .ok records

theorem loaded_list_fails : ∃ loaded : DAGPeerList Nat Unit,
    DAGPeerList.new.getPeersFromFile readFile fromStr "peers.json" = .ok loaded ∧
    (loaded.setCreator 0).nextPeer = .error .panic := by
  have hadded : records.mapM (DAGPeer.ofBase loopback) = .ok _ := rfl
  have hread : readFile "peers.json" = .ok "[..]" := rfl
  have hparse : fromStr "[..]" = .ok records := rfl
  have hcreator : 0 ∈ records.map BaseConsensusPeer.id := by decide
  obtain ⟨loaded, hloaded, -, hlists, -⟩ :=
    DAGPeerList.peer_lists_differ hadded hread hparse hcreator
  exact ⟨loaded, hloaded, (hlists loaded List.mem_cons_self).1⟩

/-- The size of a list that is taken over from a vector is zero. -/
theorem taken_list_differs :
    ¬ ∀ (records : List (BaseConsensusPeer Nat Unit))
      (added : List (DAGPeer Nat Unit)) (loaded : DAGPeerList Nat Unit)
      (creator : Nat), (records.map BaseConsensusPeer.id).Nodup →
      creator ∈ records.map BaseConsensusPeer.id →
      records.mapM (DAGPeer.ofBase loopback) = .ok added →
      DAGPeerList.new.getPeersFromFile readFile (fun _ => .ok records)
        "peers.json" = .ok loaded →
      DAGPeerList.Same
        ((added.foldl DAGPeerList.add DAGPeerList.new).setCreator creator)
        (loaded.setCreator creator)
        ((DAGPeerList.newWithContent added).setCreator creator) := by
  intro hclaim
  have hsame := hclaim records _ _ 0 (by decide) (by decide) rfl rfl
  have hn : (0 : Nat) = 2 := congrArg DAGPeerList.n hsame.taken_eq
  exact absurd hn (by decide)

end TwoPeers

end ConsensusDag
