/-
The choice of the next peer: by offsets that are halved from call to call, the
last of them to the next peer in the list.  A node never chooses itself, and along
the choices of all nodes every node can be reached from every other.
-/
import Mathlib.Data.List.GetD
import ConsensusDag.Lib.HalvingRound
import ConsensusDag.InsertEvent
import ConsensusDag.PeerLists

namespace ConsensusDag

open Relation HalvingRounds

variable {P PK : Type} {list list' : DAGPeerList P PK}

namespace DAGPeerList

section Calls

/-- A call returns the peer at the offset `r` and halves the offset. -/
theorem nextPeer_eq (hpos : 0 < list.n) (hn : list.n = list.peers.length) :
    ∃ peer, list.peers[(list.current + list.r) % list.n]? = some peer ∧
      list.nextPeer = .ok (peer, { list with r := halve list.n list.r }) := by
  have hlt : (list.current + list.r) % list.n < list.peers.length := by
    rw [← hn]
    exact Nat.mod_lt _ hpos
  have hget := List.getElem?_eq_getElem hlt
  refine ⟨_, hget, ?_⟩
  unfold nextPeer
  rw [if_neg (Nat.ne_of_gt hpos)]
  simp only [hget]
  rfl

/-- So do calls one after the other. -/
theorem nextPeers_eq (hpos : 0 < list.n) (hn : list.n = list.peers.length)
    (k : Nat) : ∃ chosen, list.nextPeers k = .ok chosen ∧ chosen.length = k ∧
      ∀ i < k, chosen[i]? = list.peers[
        (list.current + (halve list.n)^[i] list.r) % list.n]? := by
  induction k generalizing list with
  | zero => exact ⟨[], rfl, rfl, fun i hi => absurd hi (Nat.not_lt_zero i)⟩
  | succ k ih =>
      obtain ⟨peer, hget, hnext⟩ := nextPeer_eq hpos hn
      obtain ⟨rest, hrest, hlength, hat⟩ :=
        @ih { list with r := halve list.n list.r } hpos hn
      refine ⟨peer :: rest, ?_, congrArg (· + 1) hlength, fun i hi => ?_⟩
      · simp only [nextPeers, hnext, bind, Except.bind, hrest]
        rfl
      · cases i with
        | zero => exact hget.symm
        | succ i => exact hat i (Nat.lt_of_succ_lt_succ hi)

end Calls

section Offsets

/-- The own entry is not at an offset below the size of the list. -/
theorem id_ne_of_offset (hn : list.n = list.peers.length) {own : P}
    (hnodup : (list.peers.map DAGPeer.id).Nodup)
    (hown : (list.peers.map DAGPeer.id)[list.current]? = some own)
    {offset : Nat} (hpos : 0 < offset) (hlt : offset < list.n)
    {peer : DAGPeer P PK}
    (hget : list.peers[(list.current + offset) % list.n]? = some peer) :
    peer.id ≠ own := by
  rintro rfl
  have hcurrent := (List.getElem?_eq_some_iff.mp hown).1
  have hid : (list.peers.map DAGPeer.id)[(list.current + offset) % list.n]? =
      some peer.id := by
    rw [List.getElem?_map, hget]
    rfl
  have hplace := (List.getElem?_inj hcurrent hnodup).mp (hown.trans hid.symm)
  rw [List.length_map, ← hn] at hcurrent
  have hzero : (list.current + 0) % list.n = (list.current + offset) % list.n := by
    rw [Nat.add_zero, Nat.mod_eq_of_lt hcurrent]
    exact hplace
  have hoffset := offset_injective (by omega) hlt hzero
  omega

end Offsets

section Rounds

/-- So many calls on a list whose own entry is `own`: one peer at each offset of a
round, round after round. -/
structure Rounds (list : DAGPeerList P PK) (own : P) (k : Nat)
    (chosen : List (DAGPeer P PK)) : Prop where
  length : chosen.length = k
  offsets : ∀ i < k, chosen[i]? = list.peers[
    (list.current + list.n >>> (i % Nat.log 2 list.n + 1)) % list.n]?
  last : list.n >>> Nat.log 2 list.n = 1
  period : ∀ i, i + Nat.log 2 list.n < k →
    chosen[i + Nat.log 2 list.n]? = chosen[i]?
  once : ∀ i j, i < j → j < i + Nat.log 2 list.n → j < k → chosen[i]? ≠ chosen[j]?
  others : ∀ peer ∈ chosen, peer.id ≠ own

/-- A list with its size and number cached, whose ids are distinct and which has
`own` under `current`. -/
structure Ready (list : DAGPeerList P PK) (own : P) : Prop where
  n_eq : list.n = list.peers.length
  two_le : 2 ≤ list.n
  r_eq : list.r = list.n >>> 1
  nodup : (list.peers.map DAGPeer.id).Nodup
  own_eq : (list.peers.map DAGPeer.id)[list.current]? = some own

theorem Ready.rounds {own : P} (h : list.Ready own) (k : Nat) :
    ∃ chosen, list.nextPeers k = .ok chosen ∧ list.Rounds own k chosen := by
  have htwo := h.two_le
  have hlog : 0 < Nat.log 2 list.n := Nat.log_pos (by decide) htwo
  obtain ⟨chosen, hchosen, hlength, hat⟩ := nextPeers_eq (by omega) h.n_eq k
  have hoffsets : ∀ i < k, chosen[i]? = list.peers[
      (list.current + list.n >>> (i % Nat.log 2 list.n + 1)) % list.n]? := by
    intro i hi
    rw [hat i hi, h.r_eq, halve_iterate htwo]
  refine ⟨chosen, hchosen, hlength, hoffsets, shiftRight_log (by omega), ?_, ?_, ?_⟩
  · intro i hi
    rw [hoffsets _ hi, hoffsets i (by omega), Nat.add_mod_right]
  · intro i j hij hround hj hsame
    rw [hoffsets i (by omega), hoffsets j hj] at hsame
    have hplace : ∀ offset, (list.current + offset) % list.n <
        (list.peers.map DAGPeer.id).length := by
      intro offset
      rw [List.length_map, ← h.n_eq]
      exact Nat.mod_lt _ (by omega)
    have hids := congrArg (Option.map DAGPeer.id) hsame
    rw [← List.getElem?_map, ← List.getElem?_map] at hids
    have heq := offset_injective (offset_pos_lt htwo i).2 (offset_pos_lt htwo j).2
      ((List.getElem?_inj (hplace _) h.nodup).mp hids)
    exact round_injective htwo hij hround heq
  · intro peer hpeer
    obtain ⟨i, hi, hget⟩ := List.getElem_of_mem hpeer
    have hget' := hoffsets i (by omega)
    rw [List.getElem?_eq_getElem hi, hget] at hget'
    obtain ⟨hpos, hlt⟩ := offset_pos_lt htwo i
    exact id_ne_of_offset h.n_eq h.nodup h.own_eq hpos hlt hget'.symm

/-- A list that was filled by `add`, in whatever order. -/
theorem ready_of_add [LinearOrder P] [Inhabited P]
    {added : List (DAGPeer P PK)} {creator : P}
    (hnodup : (added.map DAGPeer.id).Nodup) (htwo : 2 ≤ added.length)
    (hcreator : creator ∈ added.map DAGPeer.id) :
    ((added.foldl add new).setCreator creator).Ready creator := by
  obtain ⟨hperm, hn, hr⟩ := foldl_add added
  have hall := (setCreator_peers_perm (added.foldl add new) creator).trans hperm
  refine ⟨hn.trans hall.length_eq.symm, hn ▸ htwo, ?_, ?_, ?_⟩
  · exact hr.trans (congrArg (· >>> 1) hn.symm)
  · exact (hall.map _).nodup_iff.mpr hnodup
  · rw [← getCreatorId_eq_ok]
    exact getCreatorId_setCreator_of_mem ((hperm.map _).mem_iff.mpr hcreator)

end Rounds

section Graph

/-- One peer's own list comes to choose another peer. -/
def Selects (own : P → DAGPeerList P PK) (a b : P) : Prop :=
  ∃ k chosen, (own a).nextPeers k = .ok chosen ∧ b ∈ chosen.map DAGPeer.id

/-- The last call of a round goes to the next place. -/
theorem Ready.selects_next {own : P → DAGPeerList P PK} {a b : P}
    (h : (own a).Ready a)
    (hb : ((own a).peers.map DAGPeer.id)[
      ((own a).current + 1) % (own a).n]? = some b) : Selects own a b := by
  have hlog : 0 < Nat.log 2 (own a).n := Nat.log_pos (by decide) h.two_le
  obtain ⟨chosen, hchosen, hrounds⟩ := h.rounds (Nat.log 2 (own a).n)
  refine ⟨_, chosen, hchosen, ?_⟩
  have hround : (Nat.log 2 (own a).n - 1) % Nat.log 2 (own a).n + 1 =
      Nat.log 2 (own a).n := by
    rw [Nat.mod_eq_of_lt (by omega)]
    omega
  have hlast := hrounds.offsets (Nat.log 2 (own a).n - 1) (by omega)
  rw [hround, hrounds.last] at hlast
  have hid := congrArg (Option.map DAGPeer.id) hlast
  rw [← List.getElem?_map, ← List.getElem?_map, hb] at hid
  exact List.mem_of_getElem? hid

/-- Where all lists have the same ids in the same places, the choices connect any
two peers. -/
theorem selects_connected {own : P → DAGPeerList P PK} {ids : List P}
    (hready : ∀ a ∈ ids, (own a).Ready a)
    (hids : ∀ a ∈ ids, (own a).peers.map DAGPeer.id = ids) {a b : P}
    (ha : a ∈ ids) (hb : b ∈ ids) : ReflTransGen (Selects own) a b := by
  have hring : ∀ i < ids.length,
      Selects own (ids.getD i a) (ids.getD ((i + 1) % ids.length) a) := by
    intro i hi
    have hnext : (i + 1) % ids.length < ids.length := Nat.mod_lt _ (by omega)
    rw [List.getD_eq_getElem _ _ hi, List.getD_eq_getElem _ _ hnext]
    have hmem : ids[i] ∈ ids := List.getElem_mem hi
    have hown := hready _ hmem
    have hsame := hids _ hmem
    have hn : (own ids[i]).n = ids.length := by
      rw [hown.n_eq, ← List.length_map DAGPeer.id, hsame]
    -- the own entry stands at the own place
    have hcurrent : (own ids[i]).current = i := by
      have hnodup := hown.nodup
      have hplace := hown.own_eq
      rw [hsame] at hnodup hplace
      exact ((List.getElem?_inj hi hnodup).mp
        ((List.getElem?_eq_getElem hi).trans hplace.symm)).symm
    apply hown.selects_next
    rw [hsame, hcurrent, hn]
    exact List.getElem?_eq_getElem hnext
  obtain ⟨i, hi, hia⟩ := List.getElem_of_mem ha
  obtain ⟨j, hj, hjb⟩ := List.getElem_of_mem hb
  have hpath := @reaches_of_next _ _ (fun i => ids.getD i a) _ hring _ _ hi hj
  simp only [List.getD_eq_getElem _ _ hi, List.getD_eq_getElem _ _ hj, hia, hjb]
    at hpath
  exact hpath

/-- A node among two or more that were added in any order takes its turns with the
peers at the halved offsets, never with itself; and each node can be reached from
each other along the choices of all of them. -/
theorem peers_selected_in_rounds [LinearOrder P] [Inhabited P]
    {peers : List (DAGPeer P PK)} (hnodup : (peers.map DAGPeer.id).Nodup)
    (htwo : 2 ≤ peers.length)
    (orders : P → List (DAGPeer P PK)) (horders : ∀ a, (orders a).Perm peers) :
    let own := fun a => ((orders a).foldl add new).setCreator a
    (∀ a ∈ peers.map DAGPeer.id, (own a).n = peers.length ∧
      (own a).peers.Perm peers ∧
      ((own a).peers.map DAGPeer.id).Pairwise (· ≤ ·) ∧
      ((own a).peers.map DAGPeer.id)[(own a).current]? = some a ∧
      ∀ k, ∃ chosen, (own a).nextPeers k = .ok chosen ∧
        (own a).Rounds a k chosen) ∧
    ∀ a ∈ peers.map DAGPeer.id, ∀ b ∈ peers.map DAGPeer.id,
      ReflTransGen (Selects own) a b := by
  intro own
  have hready : ∀ a ∈ peers.map DAGPeer.id, (own a).Ready a := fun a ha =>
    have hids := (horders a).map DAGPeer.id
    ready_of_add (hids.nodup_iff.mpr hnodup) ((horders a).length_eq ▸ htwo)
      (hids.mem_iff.mpr ha)
  have hperm : ∀ a, (own a).peers.Perm peers := fun a =>
    (setCreator_peers_perm _ a).trans ((foldl_add (orders a)).1.trans (horders a))
  refine ⟨fun a ha => ⟨?_, hperm a, setCreator_ids_sorted _ a, (hready a ha).own_eq,
    (hready a ha).rounds⟩, fun a ha b hb => ?_⟩
  · exact (hready a ha).n_eq.trans (hperm a).length_eq
  · -- the ids of all lists are in the order of the ids
    have hids : ∀ c, (own c).peers.map DAGPeer.id = (own a).peers.map DAGPeer.id :=
      fun c => setCreator_ids_eq ((((foldl_add (orders c)).1.trans
        ((horders c).trans (horders a).symm)).trans
        (foldl_add (orders a)).1.symm).map _) c a
    have hmem : ∀ c, c ∈ (own a).peers.map DAGPeer.id ↔ c ∈ peers.map DAGPeer.id :=
      fun c => ((hperm a).map _).mem_iff
    exact selects_connected (fun c hc => hready c ((hmem c).mp hc))
      (fun c _ => hids c) ((hmem a).mpr ha) ((hmem b).mpr hb)

end Graph

end DAGPeerList

namespace TwoPeers

/-- Five peers, the fourth of which starts with the peer two places on. -/
def fivePeers : List (DAGPeer Nat Unit) := [3, 1, 4, 0, 2].map peer

theorem five_peers_connected :
    ReflTransGen (DAGPeerList.Selects fun a =>
      (fivePeers.foldl DAGPeerList.add DAGPeerList.new).setCreator a) 4 1 :=
  (DAGPeerList.peers_selected_in_rounds (by decide) (by decide)
    (fun _ => fivePeers) (fun _ => .refl fivePeers)).2 4 (by decide) 1 (by decide)

end TwoPeers

end ConsensusDag
