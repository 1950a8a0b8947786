/-
What the calls of the gossip exchange read and write: entries of the peer list,
the gossip list made from them, and the events a store holds beyond such a list.
-/
import ConsensusDag.Core

namespace ConsensusDag

open AssocTables

variable {P D T H PK Sig : Type}

namespace DAGPeerList

variable {list : DAGPeerList P PK}

theorem nextPeer_eq_ok {peer : DAGPeer P PK} {list' : DAGPeerList P PK}
    (h : list.nextPeer = .ok (peer, list')) :
    peer ∈ list.peers ∧ ∃ r, list' = { list with r := r } := by
  unfold nextPeer at h
  split at h
  · cases h
  · simp only at h
    split at h
    · cases h
    · rename_i hget
      cases h
      exact ⟨List.mem_of_getElem? hget, _, rfl⟩

/-- What the peer list says about who signs with which key. -/
def keys (list : DAGPeerList P PK) : List (P × PK) :=
  list.peers.map fun peer => (peer.id, peer.pubKey)

theorem keys_writePeer {i : Nat} {peer peer' : DAGPeer P PK}
    (hget : list.peers[i]? = some peer) (hid : peer'.id = peer.id)
    (hkey : peer'.pubKey = peer.pubKey) :
    (list.writePeer i peer').keys = list.keys := by
  have hlt : i < list.keys.length := by
    rw [keys, List.length_map]
    exact (List.getElem?_eq_some_iff.mp hget).1
  have hsame : list.keys[i] = (peer'.id, peer'.pubKey) := by
    obtain ⟨hlt, rfl⟩ := List.getElem?_eq_some_iff.mp hget
    rw [hid, hkey]
    exact List.getElem_map ..
  change (list.peers.set i peer').map _ = _
  rw [List.map_set, ← hsame]
  exact List.set_getElem_self hlt

theorem map_id_eq (list : DAGPeerList P PK) :
    list.peers.map DAGPeer.id = list.keys.map Prod.fst := by
  rw [keys, List.map_map]
  rfl

/-- The list with its entry under `i` replaced by one with the same id has the
same ids in the same places. -/
theorem map_id_writePeer {i : Nat} {peer peer' : DAGPeer P PK}
    (hget : list.peers[i]? = some peer) (hid : peer'.id = peer.id) :
    (list.writePeer i peer').peers.map DAGPeer.id =
      list.peers.map DAGPeer.id := by
  have hlt : i < (list.peers.map DAGPeer.id).length := by
    rw [List.length_map]
    exact (List.getElem?_eq_some_iff.mp hget).1
  have hsame : (list.peers.map DAGPeer.id)[i] = peer'.id := by
    rw [List.getElem_map, hid]
    exact congrArg DAGPeer.id (List.getElem?_eq_some_iff.mp hget).2
  change (list.peers.set i peer').map DAGPeer.id = _
  rw [List.map_set, ← hsame, List.set_getElem_self]

/-- Where ids are distinct, the other entries are those with other ids. -/
theorem mem_writePeer (hnodup : (list.peers.map DAGPeer.id).Nodup) {i : Nat}
    {peer peer' q : DAGPeer P PK} (hget : list.peers[i]? = some peer)
    (hid : peer'.id = peer.id) (hq : q ∈ (list.writePeer i peer').peers) :
    q = peer' ∨ q ∈ list.peers ∧ q.id ≠ peer.id := by
  by_cases hsame : q.id = peer.id
  · left
    refine List.inj_on_of_nodup_map (f := DAGPeer.id)
      (l := (list.writePeer i peer').peers) ?_ hq ?_ (hsame.trans hid.symm)
    · rw [map_id_writePeer hget hid]
      exact hnodup
    · exact List.mem_set (List.getElem?_eq_some_iff.mp hget).1 _
  · rcases List.mem_or_eq_of_mem_set hq with hmem | rfl
    · exact Or.inr ⟨hmem, hsame⟩
    · exact absurd hid hsame

theorem getCreatorId_eq_ok {id : P} :
    list.getCreatorId = .ok id ↔
      (list.peers.map DAGPeer.id)[list.current]? = some id := by
  unfold getCreatorId
  rw [List.getElem?_map]
  split
  · rename_i hnone
    simp [hnone]
  · rename_i peer hget
    simp [hget]

section Lookup

variable [LinearOrder P]

theorem findPeer_eq_ok {id : P} {peer : DAGPeer P PK}
    (h : list.findPeer id = .ok peer) : peer ∈ list.peers ∧ peer.id = id := by
  unfold findPeer at h
  split at h
  · cases h
  · rename_i hfind
    cases h
    exact ⟨List.mem_of_find?_eq_some hfind,
      by simpa using List.find?_some hfind⟩

/-- The key under which signatures of a peer are verified. -/
def publicKeyOf (list : DAGPeerList P PK) (id : P) : Option PK :=
  (list.keys.find? fun entry => entry.1 = id).map Prod.snd

theorem publicKeyOf_eq_some {id : P} {key : PK} :
    list.publicKeyOf id = some key ↔
      ∃ peer, list.findPeer id = .ok peer ∧ peer.pubKey = key := by
  have hfind : list.keys.find? (fun entry => entry.1 = id) =
      (list.peers.find? fun peer => peer.id = id).map fun peer =>
        (peer.id, peer.pubKey) :=
    List.find?_map ..
  unfold publicKeyOf findPeer
  rw [hfind]
  cases list.peers.find? fun peer => peer.id = id with
  | none => simp
  | some peer => simp

theorem findPeer_of_mem {id : P} (hid : id ∈ list.peers.map DAGPeer.id) :
    ∃ peer, list.findPeer id = .ok peer := by
  obtain ⟨peer, hpeer, rfl⟩ := List.mem_map.mp hid
  unfold findPeer
  split
  · rename_i hnone
    have hne := List.find?_eq_none.mp hnone peer hpeer
    simp at hne
  · exact ⟨_, rfl⟩

theorem findPeerMut_eq_ok {id : P} {i : Nat} {peer : DAGPeer P PK}
    (h : list.findPeerMut id = .ok i) (hget : list.peers[i]? = some peer) :
    peer.id = id := by
  unfold findPeerMut at h
  split at h
  · cases h
  · rename_i hfind
    cases h
    obtain ⟨hlt, hid, _⟩ := List.findIdx?_eq_some_iff_getElem.mp hfind
    rw [List.getElem?_eq_getElem hlt, Option.some.injEq] at hget
    rw [← hget]
    simpa using hid

theorem exists_of_findPeerMut {id : P} {i : Nat}
    (h : list.findPeerMut id = .ok i) : ∃ peer, list.peers[i]? = some peer := by
  unfold findPeerMut at h
  split at h
  · cases h
  · rename_i hfind
    cases h
    obtain ⟨hlt, -, -⟩ := List.findIdx?_eq_some_iff_getElem.mp hfind
    exact ⟨_, List.getElem?_eq_getElem hlt⟩

theorem findPeerMut_of_mem {id : P} (hid : id ∈ list.peers.map DAGPeer.id) :
    ∃ i peer, list.findPeerMut id = .ok i ∧ list.peers[i]? = some peer := by
  obtain ⟨peer, hpeer, rfl⟩ := List.mem_map.mp hid
  unfold findPeerMut
  split
  · rename_i hnone
    have hne := List.findIdx?_eq_none_iff.mp hnone peer hpeer
    simp at hne
  · rename_i i hfind
    obtain ⟨hlt, -, -⟩ := List.findIdx?_eq_some_iff_getElem.mp hfind
    exact ⟨i, _, rfl, List.getElem?_eq_getElem hlt⟩

theorem findPeerMut_writePeer {i : Nat} {peer peer' : DAGPeer P PK}
    (hget : list.peers[i]? = some peer) (hid : peer'.id = peer.id) (id : P) :
    (list.writePeer i peer').findPeerMut id = list.findPeerMut id := by
  have hindex : ∀ peers : List (DAGPeer P PK),
      peers.findIdx? (fun x => x.id = id) =
        (peers.map DAGPeer.id).findIdx? fun x => x = id := by
    intro peers
    rw [List.findIdx?_map]
    rfl
  unfold findPeerMut
  rw [hindex, hindex, map_id_writePeer hget hid]

theorem findPeerWithLamportTimeUpdate_eq_ok {id : P} {time : Nat}
    {peer' : DAGPeer P PK} {list' : DAGPeerList P PK}
    (h : list.findPeerWithLamportTimeUpdate id time = .ok (peer', list')) :
    ∃ i peer, list.peers[i]? = some peer ∧
      list' = list.writePeer i { peer with lamportTime := peer'.lamportTime } := by
  unfold findPeerWithLamportTimeUpdate at h
  simp only [Result.bind_eq_ok] at h
  obtain ⟨i, hi, peer, hpeer, h⟩ := h
  cases h
  refine ⟨i, peer, ?_, rfl⟩
  unfold findPeerMut at hi
  unfold findPeer at hpeer
  rw [List.find?_eq_bind_findIdx?_getElem?] at hpeer
  split at hi
  · cases hi
  · rename_i hfind
    cases hi
    rw [hfind, Option.bind_some] at hpeer
    split at hpeer
    · cases hpeer
    · rename_i hget
      cases hpeer
      exact hget

/-- The node's own entry stands under `current` once the creator is set. -/
theorem getCreatorId_setCreator_of_mem {creator : P}
    (h : creator ∈ list.peers.map DAGPeer.id) :
    (list.setCreator creator).getCreatorId = .ok creator := by
  have hperm := list.setCreator_peers_perm creator
  obtain ⟨peer, hpeer, hid⟩ := List.mem_map.mp h
  rw [getCreatorId_eq_ok]
  change ((list.setCreator creator).peers.map DAGPeer.id)[
    ((list.setCreator creator).peers.findIdx?
      fun x => x.id = creator).getD 0]? = some creator
  cases hfind : (list.setCreator creator).peers.findIdx?
      fun x => x.id = creator with
  | none =>
      have hne := List.findIdx?_eq_none_iff.mp hfind peer
        (hperm.mem_iff.mpr hpeer)
      simp [hid] at hne
  | some i =>
      obtain ⟨hlt, hsame, _⟩ := List.findIdx?_eq_some_iff_getElem.mp hfind
      simp only [decide_eq_true_eq] at hsame
      simp [hlt, hsame]

/-- The gossip list has an entry for each peer, with its clock and height. -/
theorem lookup_getGossipList (hnodup : (list.peers.map DAGPeer.id).Nodup)
    {peer : DAGPeer P PK} (hpeer : peer ∈ list.peers) :
    list.getGossipList.lookup peer.id =
      some ⟨peer.lamportTime, peer.height⟩ := by
  unfold getGossipList
  suffices hfold : ∀ (rest : List (DAGPeer P PK)) (g : GossipList P),
      (rest.map DAGPeer.id).Nodup → peer ∈ rest ∨ peer.id ∉ rest.map DAGPeer.id ∧
        g.lookup peer.id = some ⟨peer.lamportTime, peer.height⟩ →
      (rest.foldl (fun g p => g.insert p.id ⟨p.lamportTime, p.height⟩)
        g).lookup peer.id = some ⟨peer.lamportTime, peer.height⟩ from
    hfold list.peers ∅ hnodup (Or.inl hpeer)
  intro rest
  induction rest with
  | nil =>
      rintro g - (hmem | ⟨-, hg⟩)
      · cases hmem
      · exact hg
  | cons p rest ih =>
      rintro g hnodup hcase
      rw [List.map_cons, List.nodup_cons] at hnodup
      refine ih _ hnodup.2 ?_
      rcases hcase with hmem | ⟨hnew, hg⟩
      · rcases List.mem_cons.mp hmem with rfl | hmem
        · exact Or.inr ⟨hnodup.1, AList.lookup_insert _⟩
        · exact Or.inl hmem
      · rw [List.map_cons, List.mem_cons, not_or] at hnew
        refine Or.inr ⟨hnew.2, ?_⟩
        rw [AList.lookup_insert_ne hnew.1]
        exact hg

end Lookup

end DAGPeerList

namespace SledStore

variable {store : SledStore P D T H Sig}

/-- The event of a creator at a height, reached from `start` without a gap. -/
structure InChain (store : SledStore P D T H Sig) (creator : P)
    (start height : Nat) (e : Event P D T H Sig) : Prop where
  le : start ≤ height
  stored : store.event (.creator creator height) = some e
  below : ∀ h, start ≤ h → h < height →
    ∃ e', store.event (.creator creator h) = some e'

theorem InChain.succ_iff {creator : P} {start height : Nat}
    {e : Event P D T H Sig} (hne : start ≠ height) {e₀ : Event P D T H Sig}
    (hstart : store.event (.creator creator start) = some e₀) :
    store.InChain creator (start + 1) height e ↔
      store.InChain creator start height e := by
  constructor
  · intro h
    refine ⟨Nat.le_of_succ_le h.le, h.stored, fun k hk hlt => ?_⟩
    rcases Nat.eq_or_lt_of_le hk with rfl | hk
    · exact ⟨e₀, hstart⟩
    · exact h.below k hk hlt
  · intro h
    refine ⟨Nat.lt_of_le_of_ne h.le hne, h.stored, fun k hk hlt => ?_⟩
    exact h.below k (Nat.le_of_succ_le hk) hlt

/-- The inner loop of `get_events_for_gossip` collects a chain. -/
theorem mem_eventsFrom {creator : P} {start : Nat}
    {events : List (NetEvent P D T H Sig)}
    (h : store.eventsFrom creator start = .ok events)
    {ev : NetEvent P D T H Sig} :
    ev ∈ events ↔
      ∃ height e, store.InChain creator start height e ∧ ev = e.toNetEvent := by
  induction start using SledStore.eventsFrom.induct store creator
      generalizing events with
  | case1 start error hget =>
      rw [eventsFrom, hget] at h
      cases h
      simp only [List.not_mem_nil, false_iff, not_exists, not_and]
      rintro height e hchain -
      have hstart : ∃ e', store.event (.creator creator start) = some e' := by
        rcases Nat.eq_or_lt_of_le hchain.le with rfl | hlt
        · exact ⟨e, hchain.stored⟩
        · exact hchain.below start (Nat.le_refl _) hlt
      obtain ⟨e', he'⟩ := hstart
      rw [getEventOfCreator_eq_ok.mpr he'] at hget
      cases hget
  | case2 start failure hne hget =>
      rw [eventsFrom, hget] at h
      cases failure with
      | err error => exact absurd rfl (hne error)
      | panic => cases h
      | stackOverflow => cases h
  | case3 start event hget hle ih =>
      rw [eventsFrom, hget] at h
      simp only [hle, ↓reduceDIte, Result.bind_eq_ok] at h
      obtain ⟨rest, hrest, h⟩ := h
      cases h
      have hstored := getEventOfCreator_eq_ok.mp hget
      rw [List.mem_cons, ih hrest]
      constructor
      · rintro (rfl | ⟨height, e, hchain, rfl⟩)
        · refine ⟨start, event, ⟨Nat.le_refl _, hstored, ?_⟩, rfl⟩
          exact fun k hk hlt => absurd hlt (Nat.not_lt.mpr hk)
        · have hne : start ≠ height := Nat.ne_of_lt hchain.le
          exact ⟨height, e, (InChain.succ_iff hne hstored).mp hchain, rfl⟩
      · rintro ⟨height, e, hchain, rfl⟩
        by_cases hne : start = height
        · subst hne
          rw [hchain.stored, Option.some.injEq] at hstored
          exact Or.inl (congrArg Event.toNetEvent hstored)
        · exact Or.inr ⟨height, e, (InChain.succ_iff hne hstored).mpr hchain, rfl⟩
  | case4 start event hget hle =>
      rw [eventsFrom, hget] at h
      simp only [hle, ↓reduceDIte] at h
      cases h

/-- The events of a reply: for each entry of the gossip list, the chain of that
creator beyond the height of the entry. -/
theorem mem_getEventsForGossip {gossip : GossipList P} [DecidableEq P]
    {events : List (NetEvent P D T H Sig)}
    (h : store.getEventsForGossip gossip = .ok events)
    {ev : NetEvent P D T H Sig} :
    ev ∈ events ↔ ∃ creator g height e, gossip.lookup creator = some g ∧
      store.InChain creator (g.height + 1) height e ∧ ev = e.toNetEvent := by
  unfold getEventsForGossip at h
  simp only [Result.bind_eq_ok] at h
  obtain ⟨chains, hchains, h⟩ := h
  cases h
  rw [List.mem_insertionSort, List.mem_flatten]
  constructor
  · rintro ⟨chain, hchain, hev⟩
    obtain ⟨⟨creator, g⟩, hentry, hbody⟩ := (Result.mem_mapM hchains).mp hchain
    simp only [Result.bind_eq_ok] at hbody
    obtain ⟨start, hstart, hfrom⟩ := hbody
    cases usizeAdd_eq_ok hstart
    obtain ⟨height, e, hin, rfl⟩ := (mem_eventsFrom hfrom).mp hev
    exact ⟨creator, g, height, e, Table.mem_entries_iff_lookup.mp hentry, hin,
      rfl⟩
  · rintro ⟨creator, g, height, e, hlookup, hin, rfl⟩
    have hentry := Table.mem_entries_iff_lookup.mpr hlookup
    obtain ⟨chain, hbody⟩ := Result.exists_of_mapM hchains hentry
    refine ⟨chain, (Result.mem_mapM hchains).mpr ⟨_, hentry, hbody⟩, ?_⟩
    simp only [Result.bind_eq_ok] at hbody
    obtain ⟨start, hstart, hfrom⟩ := hbody
    cases usizeAdd_eq_ok hstart
    exact (mem_eventsFrom hfrom).mpr ⟨height, e, hin, rfl⟩

theorem getEventsForGossip_sorted {gossip : GossipList P}
    {events : List (NetEvent P D T H Sig)}
    (h : store.getEventsForGossip gossip = .ok events) :
    events.Pairwise fun a b => a.lamportTimestamp ≤ b.lamportTimestamp := by
  unfold getEventsForGossip at h
  simp only [Result.bind_eq_ok] at h
  obtain ⟨chains, -, h⟩ := h
  cases h
  exact List.pairwise_insertionSort _ _

end SledStore

end ConsensusDag
