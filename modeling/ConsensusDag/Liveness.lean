/-
Finality stays within reach.  As long as no listener is in a reply, the nodes can go on
so that they make events by turns around the ring of their lists, each above what the
next one in the ring has made before; and then all of them finalise as many frames as
one likes.
-/
import Mathlib.Tactic.Ring
import ConsensusDag.Convergence
import ConsensusDag.Exchange
import ConsensusDag.Progress

namespace ConsensusDag

open HalvingRounds ParentGraphs ParentGraph QuorumGraph Relation

section Runs

variable {P D T H PK SK Sig : Type} [LinearOrder P] [LinearOrder H] [Inhabited H]
  {net : Network P PK SK} {env : Env P D T H PK SK Sig}

namespace Network

section Ring

/-- The ids of the peers in the order in which every node has them in its list. -/
def ring (net : Network P PK SK) : List P :=
  net.ids.insertionSort (· ≤ ·)

omit [LinearOrder H] [Inhabited H]

theorem ring_perm (net : Network P PK SK) : net.ring.Perm net.ids :=
  List.perm_insertionSort _ _

theorem mem_ring {i : P} : i ∈ net.ring ↔ i ∈ net.ids :=
  net.ring_perm.mem_iff

theorem length_ring (net : Network P PK SK) : net.ring.length = net.peers.length := by
  rw [net.ring_perm.length_eq, ids, List.length_map]

theorem ring_pos (hn : 2 ≤ net.peers.length) : 0 < net.ring.length :=
  net.length_ring.symm ▸ Nat.zero_lt_of_lt hn

variable {w : World P D T H PK SK Sig} {i : P}

theorem Reachable.ids_eq_ring [LinearOrder H] [Inhabited H] (h : net.Reachable env w)
    (hi : i ∈ net.ids) :
    (w.nodes i).core.conf.peers.peers.map DAGPeer.id = net.ring := by
  obtain ⟨submitted, hrun⟩ := h.soloRun hi
  rw [DAGPeerList.map_id_eq, hrun.sameKeys.keys, ← DAGPeerList.map_id_eq]
  refine List.Perm.eq_of_pairwise' (DAGPeerList.setCreator_ids_sorted _ _)
    (List.pairwise_insertionSort (· ≤ ·) net.ids) ?_
  exact ((net.peers_setCreator_perm hi).map _).trans net.ring_perm.symm

/-- At an offset of one the peer is the next in the ring. -/
theorem Reachable.id_of_offset_one [LinearOrder H] [Inhabited H] [Inhabited P]
    (hhonest : net.Honest env) (h : net.Reachable env w) (hi : i ∈ net.ids)
    {peer : DAGPeer P PK}
    (hget : (w.nodes i).core.conf.peers.peers[((w.nodes i).core.conf.peers.current + 1) %
      net.ring.length]? = some peer) : peer.id = next net.ring i := by
  have hring := h.ids_eq_ring hi
  have hcurrent := DAGPeerList.getCreatorId_eq_ok.mp
    ((h.signInv hhonest.toKeyed).conf i hi).creatorId
  rw [hring] at hcurrent
  have hid := congrArg (Option.map DAGPeer.id) hget
  rw [← List.getElem?_map, hring] at hid
  obtain ⟨hlt, hown⟩ := List.getElem?_eq_some_iff.mp hcurrent
  have hnodup : net.ring.Nodup := net.ring_perm.nodup_iff.mpr hhonest.ids_nodup
  rw [← hown, next, hnodup.idxOf_getElem, List.getD_eq_getElem?_getD, hid]
  rfl

end Ring

section Turns

variable [Inhabited P] {w w' : World P D T H PK SK Sig} {i : P}
  {made : Nat → HashEvent P D T H} {length : Nat}

/-- In turn `t` around the ring a node has made an event on top of one of the next node,
which is not below what that node had made in its turns before. -/
structure Taken (net : Network P PK SK) (env : Env P D T H PK SK Sig)
    (w : World P D T H PK SK Sig) (made : Nat → HashEvent P D T H) (t : Nat) : Prop where
  created : made t ∈ w.created
  creator : (made t).creator = turn net.ring t
  holds : made t ∈ held w (turn net.ring t)
  parent : ∃ o ∈ held w (turn net.ring t),
    env.eventHash o = .ok (made t).otherParent ∧
    o.creator = next net.ring (turn net.ring t) ∧
    ∀ t' < t, turn net.ring t' = o.creator → (made t').height ≤ o.height

omit [LinearOrder H] [Inhabited H] in
theorem Taken.congr {made' : Nat → HashEvent P D T H} {t : Nat}
    (h : net.Taken env w made t) (hsame : ∀ t' ≤ t, made' t' = made t') :
    net.Taken env w made' t := by
  have hnow := hsame t (Nat.le_refl t)
  obtain ⟨o, ho, hhash, hcreator, hbefore⟩ := h.parent
  constructor
  case created => exact hnow ▸ h.created
  case creator => exact hnow ▸ h.creator
  case holds => exact hnow ▸ h.holds
  case parent =>
    refine ⟨o, ho, hnow ▸ hhash, hcreator, fun t' ht' hturn => ?_⟩
    rw [hsame t' (Nat.le_of_lt ht')]
    exact hbefore t' ht' hturn

theorem Taken.goes {t : Nat} (h : net.Taken env w made t) (hclear : net.Clear env w)
    (hgoes : net.Goes env w w') (hmem : turn net.ring t ∈ net.ids) :
    net.Taken env w' made t := by
  have hsub := hgoes.held_subset hclear hmem
  obtain ⟨o, ho, hparent⟩ := h.parent
  exact ⟨hgoes.created_subset h.created, h.creator, hsub h.holds, o, hsub ho, hparent⟩

omit [LinearOrder H] [Inhabited H] in
/-- One more turn, after those of `made`. -/
theorem Taken.of_stands {e o : HashEvent P D T H} {t : Nat} (he : e ∈ w.created)
    (hstands : Stands env (turn net.ring t) (next net.ring (turn net.ring t))
      (held w (turn net.ring t)) e o)
    (hbefore : ∀ t' < t, turn net.ring t' = o.creator → (made t').height ≤ o.height) :
    net.Taken env w (Function.update made t e) t := by
  have hnew : Function.update made t e t = e := Function.update_self ..
  constructor
  case created => exact hnew.symm ▸ he
  case creator => exact hnew.symm ▸ hstands.creator
  case holds => exact hnew.symm ▸ hstands.mem
  case parent =>
    refine ⟨o, hstands.other_mem, hnew.symm ▸ hstands.other_hash,
      hstands.other_creator, fun t' ht' hturn => ?_⟩
    rw [Function.update_of_ne (Nat.ne_of_lt ht')]
    exact hbefore t' ht' hturn

variable (hhonest : net.Honest env) (hbuilt : net.Built)
  (hn : 2 ≤ net.peers.length)
include hhonest hbuilt hn

/-- The node goes through its offsets down to one, with a round for each. -/
theorem takes_turn (hclear : net.Clear env w) (hi : i ∈ net.ids) (hrest : net.AtRest w)
    {r : Nat} (hr : (w.nodes i).core.conf.peers.r = r)
    (hroom : w.created.length + r ≤ usizeMax) :
    ∃ w' e o, net.Goes env w w' ∧ net.AtRest w' ∧
      w'.created.length ≤ w.created.length + r ∧ e ∈ w'.created ∧
      Stands env i (next net.ring i) (held w' i) e o ∧
      ∀ v ∈ held w (next net.ring i), v.creator = next net.ring i →
        v.height ≤ o.height := by
  induction r using Nat.strong_induction_on generalizing w with
  | h r ih =>
      have hring := hclear.reachable.ids_eq_ring hi
      have hturning := hclear.reachable.turning hbuilt hn hhonest.ids_nodup hi
      have hpos := hturning.pos
      have hle := hturning.le
      have hlength : (w.nodes i).core.conf.peers.n = net.ring.length := by
        rw [hturning.n_eq, ← hring, List.length_map]
      obtain ⟨peer, hget, hnext⟩ := DAGPeerList.nextPeer_eq (by omega) hturning.n_eq
      obtain ⟨w₁, e, o, hpulls, hr₁⟩ :=
        pulls hhonest hbuilt hn hclear hi hrest (by omega) hnext
      have hcreated₁ : w₁.created.length = w.created.length + 1 :=
        congrArg List.length hpulls.created
      by_cases hlast : r = 1
      · rw [hr, hlast, hlength] at hget
        rw [← hclear.reachable.id_of_offset_one hhonest hi hget]
        refine ⟨w₁, e, o, hpulls.goes, hpulls.rest, by omega, ?_, hpulls.stands,
          hpulls.highest⟩
        rw [hpulls.created]
        exact List.mem_cons_self
      · have hhalf : (w₁.nodes i).core.conf.peers.r = r / 2 := by
          rw [hr₁]
          change halve _ (w.nodes i).core.conf.peers.r = r / 2
          rw [hr, halve, if_pos (by omega), Nat.shiftRight_one]
        obtain ⟨w', e', o', hgoes, hrest', hlength', hmem, hstands, hhighest⟩ :=
          ih (r / 2) (by omega) (hclear.goes hpulls.goes) hpulls.rest hhalf (by omega)
        refine ⟨w', e', o', hpulls.goes.trans hgoes, hrest', by omega, hmem, hstands, ?_⟩
        have hp : next net.ring i ∈ net.ids :=
          mem_ring.mp (next_mem (ring_pos hn) i)
        exact fun v hv => hhighest v (hpulls.goes.held_subset hclear hp hv)

/-- So turn after turn can be taken. -/
theorem takes_turns (hclear : net.Clear env w) (hrest : net.AtRest w)
    (hroom : w.created.length + length * net.peers.length ≤ usizeMax) :
    ∃ w' made, net.Goes env w w' ∧
      w'.created.length ≤ w.created.length + length * net.peers.length ∧
      net.AtRest w' ∧ ∀ t < length, net.Taken env w' made t := by
  have hpos := ring_pos hn
  have hmem : ∀ t, turn net.ring t ∈ net.ids := fun t => mem_ring.mp (turn_mem hpos t)
  induction length with
  | zero =>
      obtain ⟨peer, -⟩ := List.exists_mem_of_length_pos (Nat.zero_lt_of_lt hn)
      exact ⟨w, fun _ => leafHashEvent peer, .refl, Nat.le_add_right _ _, hrest,
        fun t ht => absurd ht (Nat.not_lt_zero t)⟩
  | succ length ih =>
      rw [Nat.succ_mul] at hroom ⊢
      obtain ⟨w₁, made, hgoes₁, hlength₁, hrest₁, htaken⟩ := ih (by omega)
      have hclear₁ := hclear.goes hgoes₁
      have hturning := hclear₁.reachable.turning hbuilt hn hhonest.ids_nodup (hmem length)
      have hle : (w₁.nodes (turn net.ring length)).core.conf.peers.r ≤
          net.peers.length := by
        have hids := congrArg List.length (hclear₁.reachable.ids_eq_ring (hmem length))
        rw [List.length_map, net.length_ring, ← hturning.n_eq] at hids
        have hhalf := hturning.le
        omega
      obtain ⟨w', e, o, hgoes, hrest', hlength', he, hstands, hhighest⟩ :=
        takes_turn hhonest hbuilt hn hclear₁ (hmem length) hrest₁ rfl (by omega)
      refine ⟨w', Function.update made length e, hgoes₁.trans hgoes, by omega, hrest', ?_⟩
      intro t ht
      rcases Nat.lt_succ_iff_lt_or_eq.mp ht with hlt | rfl
      · refine ((htaken t hlt).goes hclear₁ hgoes (hmem t)).congr fun t' ht' => ?_
        exact Function.update_of_ne (Nat.ne_of_lt (Nat.lt_of_le_of_lt ht' hlt)) _ _
      · refine .of_stands he hstands fun t' ht' hturn => ?_
        have hnext := hturn.trans hstands.other_creator
        refine hhighest _ ?_ ((htaken t' ht').creator.trans hnext)
        exact hnext ▸ (htaken t' ht').holds

end Turns

section Graph

variable [Inhabited P] {w : World P D T H PK SK Sig} {dag : EventDag env net.peers}
  {made : Nat → HashEvent P D T H} {length : Nat}

omit [LinearOrder H] in
/-- The event of a turn stands in the graph on one of the node whose turn was before. -/
theorem Taken.next_parent (hnodup : net.ring.Nodup) {t : Nat}
    (hpositive : 0 < (made (t + 1)).height) (hnow : net.Taken env w made t)
    (hnext : net.Taken env w made (t + 1)) (hpos : 0 < net.ring.length)
    (hvertex : ∀ t, ∀ v ∈ held w (turn net.ring t), ∃ u : dag.Vertex, u.1 = v)
    {u v : dag.Vertex} (hu : u.1 = made t) (hv : v.1 = made (t + 1)) :
    ∃ s o, dag.graph.parents v = some (s, o) ∧
      dag.graph.creator o = turn net.ring t ∧ dag.graph.Reaches u o := by
  cases hparents : dag.graph.parents v with
  | none =>
      rw [← hv] at hpositive
      exact absurd (EventDag.exists_peer_of_leaf hparents) (not_leaf_of_pos hpositive)
  | some pair =>
      obtain ⟨s, o⟩ := pair
      obtain ⟨e, he, hhash, hcreator, hbefore⟩ := hnext.parent
      rw [next_turn hnodup hpos] at hcreator
      obtain ⟨o', rfl⟩ := hvertex (t + 1) e he
      -- the hash that it carries is that of `o'`
      obtain ⟨-, -, hother⟩ := EventDag.parents_eq_some.mp hparents
      rw [hv] at hother
      obtain rfl : o = o' :=
        EventDag.hashOf_injective (hother.trans (EventDag.hashOf_eq_iff.mpr hhash).symm)
      have hle := hbefore t (Nat.lt_succ_self t) hcreator.symm
      have hsame := hnow.creator.trans hcreator.symm
      rw [← hu] at hle hsame
      exact ⟨s, o, rfl, hcreator,
        (selfReaches_of_height_le (G := dag.graph.toParentGraph) hsame hle).reaches⟩

/-- What is made in turns are turns of the graph. -/
theorem exists_turns (hhonest : net.Honest env) (hn : 2 ≤ net.peers.length)
    (h : net.Reachable env w) (hfree : net.CollisionFree env w)
    (htaken : ∀ t < length, net.Taken env w made t)
    (hvertex : ∀ i ∈ net.ids, ∀ v ∈ held w i, ∃ u : dag.Vertex, u.1 = v) :
    ∃ vertex : Nat → dag.Vertex, (∀ t < length, (vertex t).1 = made t) ∧
      dag.graph.Turns (turn net.ring) length vertex := by
  have hpos := ring_pos hn
  have hnodup : net.ring.Nodup := net.ring_perm.nodup_iff.mpr hhonest.ids_nodup
  have hvertex : ∀ t, ∀ v ∈ held w (turn net.ring t), ∃ u : dag.Vertex, u.1 = v :=
    fun t => hvertex _ (mem_ring.mp (turn_mem hpos t))
  have hsome : ∀ t, ∃ u : dag.Vertex, t < length → u.1 = made t := by
    intro t
    by_cases ht : t < length
    · obtain ⟨u, hu⟩ := hvertex t _ (htaken t ht).holds
      exact ⟨u, fun _ => hu⟩
    · obtain ⟨peer, hpeer⟩ := List.exists_mem_of_length_pos (Nat.zero_lt_of_lt hn)
      exact ⟨dag.leafVertex hpeer, fun hlt => absurd hlt ht⟩
  choose vertex hmade using hsome
  refine ⟨vertex, hmade, ⟨fun t ht => ?_, fun t ht => ?_⟩⟩
  · change (vertex t).1.creator = _
    rw [hmade t ht, (htaken t ht).creator]
  · have hnow := Nat.lt_of_succ_lt ht
    have hpositive := h.created_pos hhonest hfree _ (htaken _ ht).created
    exact (htaken t hnow).next_parent hnodup hpositive (htaken _ ht) hpos hvertex
      (hmade t hnow) (hmade _ ht)

end Graph

end Network

namespace Service

variable {s : Service P D T H PK SK Sig} {w : World P D T H PK SK Sig} {i : P}

/-- What the network does without consumers it can do while they wait. -/
theorem step_of_fresh (h : net.FreshStep env i s.world.unpolled w) :
    ∃ s', Step net env Unheld s s' ∧ s'.world.unpolled = w := by
  cases h with
  | node hi hnode hunheld =>
      obtain ⟨n, hstep, rfl⟩ := hnode.of_unpolled
      refine ⟨s.node i n _, .node hi hstep ?_, unpolled_step ..⟩
      rintro event ⟨answer, rest, hchecked, hinserted⟩
      exact hunheld event ⟨answer, rest, hchecked, hinserted⟩

theorem run_of_goes (h : net.Goes env s.world.unpolled w) :
    ∃ s', ReflTransGen (Step net env Unheld) s s' ∧ s'.world.unpolled = w := by
  induction h with
  | refl => exact ⟨s, .refl, rfl⟩
  | tail _ hstep ih =>
      obtain ⟨s₁, hrun, rfl⟩ := ih
      obtain ⟨i, hstep⟩ := hstep
      obtain ⟨s', hnext, hworld⟩ := step_of_fresh hstep
      exact ⟨s', hrun.tail hnext, hworld⟩

theorem Reachable.clear (h : Reachable net env Unheld s)
    (hsound : ∀ s', ReflTransGen (Step net env Unheld) s s' →
      net.CollisionFree env s'.world ∧ net.Computes env s'.world) :
    net.Clear env s.world.unpolled := by
  have hall : ∀ w, net.Goes env s.world.unpolled w →
      net.CollisionFree env w ∧ net.Computes env w := by
    intro w hgoes
    obtain ⟨s', hrun, rfl⟩ := run_of_goes hgoes
    obtain ⟨hfree, hcomputes⟩ := hsound s' hrun
    exact ⟨hfree, hcomputes.hashes, hcomputes.signs⟩
  exact ⟨h.unpolled, fun w hgoes => (hall w hgoes).1, fun w hgoes => (hall w hgoes).2⟩

variable [Inhabited P] {k : Nat} {made : Nat → HashEvent P D T H}

/-- With `k + 2` rounds of turns behind them, all nodes have finalised `k` frames. -/
theorem finalises_of_taken (hhonest : net.Honest env) (hn : 2 ≤ net.peers.length)
    (h : Reachable net env Unheld s) (hfree : net.CollisionFree env s.world)
    (htaken : ∀ t < (k + 2) * net.ring.length,
      net.Taken env s.world.unpolled made t) (hi : i ∈ net.ids) :
    k ≤ (s.world.nodes i).core.firstNotFinalisedFrame := by
  obtain ⟨dag, -, -, hfollows, -⟩ := h.follow_one_graph hhonest .refl hfree
  have hvertex : ∀ j ∈ net.ids, ∀ v ∈ Network.held s.world.unpolled j,
      ∃ u : dag.Vertex, u.1 = v := by
    intro j hj v hv
    obtain ⟨inserted, hnode⟩ := (hfollows j hj).node
    obtain ⟨u, -, hu⟩ := hnode.dagInv.held_eq.le hv
    exact ⟨u, hu⟩
  obtain ⟨vertex, hmade, hturns⟩ :=
    Network.exists_turns hhonest hn h.unpolled hfree htaken hvertex
  have hrounds := hturns.rounds rfl fun p hp =>
    have hmem := Network.mem_ring.mpr (mem_graph_peers.mp hp)
    ⟨(turn_place hmem 0).1, fun j => (turn_place hmem j).2⟩
  obtain ⟨inserted, hnode⟩ := (hfollows i hi).node
  refine hnode.dagInv.le_of_rounds hrounds (mem_graph_peers.mpr hi) ?_
  -- the node holds what it has made in its last turn
  obtain ⟨hplace, hturn⟩ := turn_place (Network.mem_ring.mpr hi) (k + 1)
  have hlt : (k + 1) * net.ring.length + place net.ring i <
      (k + 2) * net.ring.length := by
    rw [Nat.succ_mul (k + 1)]
    exact Nat.add_lt_add_left hplace _
  have hheld := (htaken _ hlt).holds
  rw [hturn] at hheld
  obtain ⟨u, hu, heq⟩ := hnode.dagInv.held_eq.le hheld
  obtain rfl : u = vertex _ := Subtype.ext (heq.trans (hmade _ hlt).symm)
  exact hu

/-- From every state of a run in which no listener is in a reply, the nodes can go on,
over threads and messages as they are, until all of them have finalised `k` frames; and
they make no more than `(k + 3) n²` events until then. -/
theorem finality_within_reach (hhonest : net.Honest env) (hbuilt : net.Built)
    (hn : 2 ≤ net.peers.length) (h : Reachable net env Unheld s)
    (hidle : ∀ i ∈ net.ids, (s.world.nodes i).listener = .idle)
    (hsound : ∀ s', ReflTransGen (Step net env Unheld) s s' →
      net.CollisionFree env s'.world ∧ net.Computes env s'.world) (k : Nat)
    (hroom : s.world.created.length + (k + 3) * net.peers.length ^ 2 < usizeMax) :
    ∃ s', ReflTransGen (Step net env Unheld) s s' ∧
      s'.world.created.length ≤
        s.world.created.length + (k + 3) * net.peers.length ^ 2 ∧
      ∀ i ∈ net.ids, k ≤ (s'.world.nodes i).core.firstNotFinalisedFrame := by
  have hclear := h.clear hsound
  have hcreated : s.world.unpolled.created = s.world.created := rfl
  have hcount : net.ids.length = net.peers.length := List.length_map ..
  have hsize : net.peers.length + (k + 2) * net.peers.length * net.peers.length ≤
      (k + 3) * net.peers.length ^ 2 :=
    calc net.peers.length + (k + 2) * net.peers.length * net.peers.length
        ≤ net.peers.length * net.peers.length +
          (k + 2) * net.peers.length * net.peers.length :=
        Nat.add_le_add_right (Nat.le_mul_self _) _
      _ = (k + 3) * net.peers.length ^ 2 := by ring
  -- what the threads have in hand is brought to an end, then the turns are taken
  have hroom₀ : s.world.unpolled.created.length + net.ids.length < usizeMax := by
    rw [hcreated]
    omega
  obtain ⟨w₁, hgoes₁, hrest, hlength₁⟩ :=
    Network.all_settle hhonest hbuilt hn hclear hroom₀ hidle
  rw [hcreated] at hlength₁
  have hroom₁ : w₁.created.length + (k + 2) * net.peers.length * net.peers.length ≤
      usizeMax := by omega
  obtain ⟨w₂, made, hgoes₂, hlength₂, -, htaken⟩ :=
    Network.takes_turns hhonest hbuilt hn (hclear.goes hgoes₁) hrest hroom₁
  obtain ⟨s', hrun, rfl⟩ := run_of_goes (hgoes₁.trans hgoes₂)
  have hcreated' : s'.world.unpolled.created = s'.world.created := rfl
  rw [hcreated'] at hlength₂
  refine ⟨s', hrun, by omega, fun i hi => ?_⟩
  rw [← net.length_ring] at htaken
  exact finalises_of_taken hhonest hn (h.run hrun) (hsound s' hrun).1 htaken hi

end Service

end Runs

namespace TwoPeers

/-- Events of different places have different hashes. -/
theorem collisionFree_of_places {w : World Nat Nat Unit Nat Unit Unit Unit}
    (h : ∀ v v', builtNet.Made w v → builtNet.Made w v' → v.creator = v'.creator →
      v.height = v'.height → v = v') : builtNet.CollisionFree env w := by
  intro v v' k hv hv' hk hk'
  have hpair := Nat.succ.inj (Except.ok.inj (hk.trans hk'.symm))
  obtain ⟨hcreator, hheight⟩ := Nat.pair_eq_pair.mp hpair
  exact h v v' hv hv' hcreator hheight

/-- No run of the two peers has a collision. -/
theorem builtNet_collisionFree {w : World Nat Nat Unit Nat Unit Unit Unit}
    (h : builtNet.Reachable env w) : builtNet.CollisionFree env w := by
  apply collisionFree_of_places
  induction h with
  | initial h =>
      rintro v v' (⟨peer, hpeer, rfl⟩ | hv) (⟨peer', hpeer', rfl⟩ | hv') hcreator -
      · rw [List.inj_on_of_nodup_map builtNet_honest.ids_nodup hpeer hpeer' hcreator]
      · exact (List.not_mem_nil (h.created ▸ hv')).elim
      · exact (List.not_mem_nil (h.created ▸ hv)).elim
      · exact (List.not_mem_nil (h.created ▸ hv)).elim
  | @step w _ h hstep ih =>
      have hsync := h.syncInv builtNet_honest (collisionFree_of_places ih)
      cases hstep with
      | @node i n out hi hnode =>
          have hconf := (h.signInv builtNet_honest.toKeyed).conf i hi
          have hback : ∀ v, builtNet.Made (w.step i n out) v →
              v ∈ out.created ∨ builtNet.Made w v := by
            rintro v (hleaf | hmem)
            · exact Or.inr (Or.inl hleaf)
            · exact (List.mem_append.mp hmem).imp_right Or.inr
          intro v v' hv hv' hcreator hheight
          rcases (hsync.nodes i hi).created_cases hconf hnode with
            hnil | ⟨v₀, hout, hown, habove, -⟩
          · rw [hnil] at hback
            exact ih v v' ((hback v hv).resolve_left List.not_mem_nil)
              ((hback v' hv').resolve_left List.not_mem_nil) hcreator hheight
          · rw [hout] at hback
            simp only [List.mem_singleton] at hback
            rcases hback v hv with rfl | hold <;> rcases hback v' hv' with rfl | hold'
            · rfl
            · exact absurd hheight.symm
                (Nat.ne_of_lt (habove v' hold' (hcreator.symm.trans hown)))
            · exact absurd hheight (Nat.ne_of_lt (habove v hold (hcreator.trans hown)))
            · exact ih v v' hold hold' hcreator hheight

/-- From their start on, both peers can finalise a frame. -/
theorem start_finalises : ∃ s : Served,
    Service.Reachable builtNet env Unheld s ∧ s.world.created.length ≤ 16 ∧
      1 ≤ (s.world.nodes 0).core.firstNotFinalisedFrame ∧
      1 ≤ (s.world.nodes 1).core.firstNotFinalisedFrame := by
  let s : Served := started
  have hall : ∀ i ∈ builtNet.ids, i = 0 ∨ i = 1 := by decide
  have hinit : Service.Initial builtNet env s := by
    refine ⟨⟨?_, rfl, rfl, rfl⟩, fun _ _ => rfl, fun _ _ => rfl, fun _ _ => rfl,
      fun _ _ => rfl⟩
    intro i hi
    rcases hall i hi with rfl | rfl
    · exact ⟨start 0, rfl, rfl⟩
    · exact ⟨start 1, rfl, rfl⟩
  have hidle : ∀ i ∈ builtNet.ids, (s.world.nodes i).listener = .idle := by
    intro i hi
    rcases hall i hi with rfl | rfl <;> rfl
  have hsound : ∀ s', ReflTransGen (Service.Step builtNet env Unheld) s s' →
      builtNet.CollisionFree env s'.world ∧ builtNet.Computes env s'.world := by
    intro s' hrun
    have hfree := builtNet_collisionFree (Service.Reachable.unpolled ⟨s, hinit, hrun⟩)
    exact ⟨hfree, fun _ _ => ⟨_, rfl⟩, fun _ _ _ => ⟨_, rfl⟩⟩
  obtain ⟨s', hrun, hlength, hfinal⟩ := Service.finality_within_reach builtNet_honest
    (fun _ _ => ⟨peers, rfl⟩) (Nat.le_refl 2) ⟨s, hinit, .refl⟩ hidle hsound 1
    (by decide)
  exact ⟨s', ⟨s, hinit, hrun⟩, hlength, hfinal 0 (by decide), hfinal 1 (by decide)⟩

end TwoPeers

end ConsensusDag
