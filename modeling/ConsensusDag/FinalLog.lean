/-
The final order as a log.  A node only ever appends to it, two nodes have the same
log as far as both go, and the events of a creator stand in it in the order of their
heights.
-/
import ConsensusDag.DeliveryOrder
import ConsensusDag.Lib.OrderedBroadcast
import ConsensusDag.Transactions

namespace ConsensusDag

open DAGcore OrderedBroadcasts ParentGraphs ParentGraph QuorumGraph

variable {P D T H PK SK Sig : Type}

/-- Lists that are put together from parts: with more parts, and the first ones the
same, the list is longer at its end. -/
theorem flatMap_range_prefix {α : Type} {f g : Nat → List α} {n m : Nat} (hle : n ≤ m)
    (h : ∀ k < n, f k = g k) : (List.range n).flatMap f <+: (List.range m).flatMap g := by
  have hsame : (List.range n).flatMap f = (List.range n).flatMap g :=
    List.flatMap_congr fun k hk => h k (List.mem_range.mp hk)
  obtain ⟨d, rfl⟩ := Nat.exists_eq_add_of_le hle
  rw [hsame, List.range_add, List.flatMap_append]
  exact List.prefix_append _ _

/-- Numbers in increasing order that leave none out are the first ones. -/
theorem eq_range_of_pairwise_lt {l : List Nat} (hsorted : l.Pairwise (· < ·))
    (hclosed : ∀ n ∈ l, ∀ m ≤ n, m ∈ l) : l = List.range l.length := by
  induction l using List.reverseRecOn with
  | nil => rfl
  | append_singleton l n ih =>
      obtain ⟨hl, -, hlt⟩ := List.pairwise_append.mp hsorted
      have hbelow : ∀ m ∈ l, m < n := fun m hm => hlt m hm n List.mem_cons_self
      have hmem : ∀ m, m < n → m ∈ l := fun m hm => by
        have hin := hclosed n (List.mem_append_right _ List.mem_cons_self) m hm.le
        exact (List.mem_append.mp hin).resolve_right fun heq =>
          hm.ne (List.mem_singleton.mp heq)
      have hrange : l = List.range l.length := ih hl fun m hm k hk =>
        hmem k (hk.trans_lt (hbelow m hm))
      have hlast : n = l.length := by
        apply Nat.le_antisymm
        · by_contra hgt
          have hin := hmem l.length (Nat.lt_of_not_le hgt)
          rw [hrange, List.mem_range, List.length_range] at hin
          exact Nat.lt_irrefl _ hin
        · by_contra hgt
          have hin : n ∈ List.range l.length :=
            List.mem_range.mpr (Nat.lt_of_not_le hgt)
          rw [← hrange] at hin
          exact Nat.lt_irrefl _ (hbelow n hin)
      rw [List.length_append, List.length_singleton, List.range_succ, ← hrange,
        ← hlast]

namespace DAGcore

/-- The height of a stored event of the creator. -/
def heightOf [DecidableEq P] (core : DAGcore P D T H PK SK Sig) (creator : P)
    (k : H) : Option Nat :=
  match core.store.event (.hash k) with
  | some e => if e.creator = creator then some e.height else none
  | none => none

/-- The heights of the finalised events of a creator, in their final order. -/
def finalHeights [DecidableEq P] (core : DAGcore P D T H PK SK Sig) (creator : P) :
    List Nat :=
  core.finalOrder.filterMap (core.heightOf creator)

/-- The items of the event stored under a hash. -/
def itemsUnder (core : DAGcore P D T H PK SK Sig) (k : H) : List (D × P) :=
  match core.store.event (.hash k) with
  | some event => event.items
  | none => []

theorem finalisedItems_eq_flatMap (core : DAGcore P D T H PK SK Sig) :
    core.finalisedItems = core.finalOrder.flatMap core.itemsUnder := by
  unfold finalisedItems finalOrder frameItems
  rw [List.flatMap_assoc]
  refine List.flatMap_congr fun f _ => ?_
  rw [List.flatMap_map]
  rfl

end DAGcore

theorem itemsOf_event [DecidableEq P] (creator : P) (e : Event P D T H Sig) :
    itemsOf creator e.items = if e.creator = creator then e.transactions else [] := by
  have hlist : ∀ l : List D, itemsOf creator (l.map fun data => (data, e.creator)) =
      if e.creator = creator then l else [] := by
    intro l
    induction l with
    | nil => simp
    | cons data l ih =>
        rw [List.map_cons]
        by_cases hcreator : e.creator = creator
        · rw [if_pos hcreator] at ih ⊢
          rw [hcreator] at ih ⊢
          rw [itemsOf_cons_self, ih]
        · rw [if_neg hcreator] at ih ⊢
          rw [itemsOf_cons_of_ne hcreator, ih]
  exact hlist e.transactions

variable [LinearOrder P] [LinearOrder H] [Inhabited H] {env : Env P D T H PK SK Sig}
  {peers : List (DAGPeer P PK)} {dag : EventDag env peers}
  {inserted inserted' : List (HashEvent P D T H)}
  {core core' : DAGcore P D T H PK SK Sig}

section Prefix

variable (h : DagInv dag inserted core) (h' : DagInv dag inserted' core')
  (hle : core.firstNotFinalisedFrame ≤ core'.firstNotFinalisedFrame)
include h h' hle

theorem DagInv.finalOrder_prefix : core.finalOrder <+: core'.finalOrder := by
  refine flatMap_range_prefix hle fun f hf => ?_
  rw [h.getFrame_eq h' hf (hf.trans_le hle)]

theorem DagInv.recordItems_eq {f : Nat} (hf : f < core.firstNotFinalisedFrame)
    {record : FrameRecord H} (hrecord : record ∈ (core.store.getFrame f).events) :
    core.recordItems record = core'.recordItems record := by
  obtain ⟨v, hv, rfl⟩ := (h.mem_finalised_iff hf record).mp hrecord
  obtain ⟨e, he, hevent, -⟩ :=
    h.store.lookup_vertex (h.present_of_frame_lt (v := v) (by omega))
  obtain ⟨e', he', hevent', -⟩ :=
    h'.store.lookup_vertex (h'.present_of_frame_lt (v := v) (by omega))
  have hsame : e.toHashEvent = e'.toHashEvent := hevent.trans hevent'.symm
  unfold recordItems
  simp only [he, he', Event.items]
  rw [show e.transactions = e'.transactions from congrArg HashEvent.transactions hsame,
    show e.creator = e'.creator from congrArg HashEvent.creator hsame]

theorem DagInv.frameItems_eq {f : Nat} (hf : f < core.firstNotFinalisedFrame) :
    core.frameItems f = core'.frameItems f := by
  unfold frameItems
  rw [← h.getFrame_eq h' hf (hf.trans_le hle)]
  exact List.flatMap_congr fun record hrecord => h.recordItems_eq h' hle hf hrecord

theorem DagInv.finalisedItems_prefix : core.finalisedItems <+: core'.finalisedItems :=
  flatMap_range_prefix hle fun _ hf => h.frameItems_eq h' hle hf

end Prefix

section Order

variable (h : DagInv dag inserted core)
include h

theorem DagInv.nodup_finalOrder : core.finalOrder.Nodup := by
  refine h.pairwise_finalOrder ?_ ?_
  · exact fun v w hne _ _ heq => hne (EventDag.hashOf_injective heq)
  · intro v w hlt heq
    rw [EventDag.hashOf_injective heq] at hlt
    exact Nat.lt_irrefl _ hlt

/-- No event stands before one that it descends from. -/
theorem DagInv.pairwise_not_ancestor
    (hlamport : ∀ v s o, dag.graph.parents v = some (s, o) →
      s.1.lamportTimestamp < v.1.lamportTimestamp ∧
        o.1.lamportTimestamp < v.1.lamportTimestamp) :
    core.finalOrder.Pairwise fun a b => ∀ x y : dag.Vertex,
      dag.hashOf x = a → dag.hashOf y = b → ¬ dag.graph.Ancestor y x := by
  refine h.pairwise_finalOrder ?_ ?_
  · intro x y _ _ hle x' y' hx hy hanc
    rw [EventDag.hashOf_injective hx, EventDag.hashOf_injective hy] at hanc
    exact Nat.not_lt.mpr hle (lamport_lt_of_ancestor hlamport hanc)
  · intro x y hlt x' y' hx hy hanc
    rw [EventDag.hashOf_injective hx, EventDag.hashOf_injective hy] at hanc
    exact Nat.not_lt.mpr (frame_le_of_reaches hanc.reaches) hlt

/-- What an event descends from stands before it. -/
theorem DagInv.ancestor_before
    (hlamport : ∀ v s o, dag.graph.parents v = some (s, o) →
      s.1.lamportTimestamp < v.1.lamportTimestamp ∧
        o.1.lamportTimestamp < v.1.lamportTimestamp)
    {u v : dag.Vertex} (huv : dag.graph.Ancestor u v) {j : Nat}
    (hj : core.finalOrder[j]? = some (dag.hashOf v)) :
    ∃ i < j, core.finalOrder[i]? = some (dag.hashOf u) := by
  have hv := (h.mem_finalOrder_iff v).mp (List.mem_of_getElem? hj)
  have hframe := frame_le_of_reaches huv.reaches
  obtain ⟨i, hi⟩ := List.mem_iff_getElem?.mp
    ((h.mem_finalOrder_iff u).mpr (hframe.trans_lt hv))
  refine ⟨i, ?_, hi⟩
  obtain ⟨hjlt, hjget⟩ := List.getElem?_eq_some_iff.mp hj
  obtain ⟨hilt, higet⟩ := List.getElem?_eq_some_iff.mp hi
  rcases Nat.lt_trichotomy i j with hlt | rfl | hgt
  · exact hlt
  · rw [hj, Option.some.injEq] at hi
    rw [EventDag.hashOf_injective hi] at huv
    exact absurd huv (wellFounded_ancestor.irrefl.irrefl u)
  · exact absurd huv (List.pairwise_iff_getElem.mp (h.pairwise_not_ancestor hlamport)
      j i hjlt hilt hgt v u hjget.symm higet.symm)

theorem DagInv.vertex_of_mem_finalOrder {k : H} (hk : k ∈ core.finalOrder) :
    ∃ v : dag.Vertex, dag.hashOf v = k ∧
      dag.graph.frame v < core.firstNotFinalisedFrame := by
  obtain ⟨f, hf, hk⟩ := List.mem_flatMap.mp hk
  obtain ⟨record, hrecord, rfl⟩ := List.mem_map.mp hk
  have hlt := List.mem_range.mp hf
  obtain ⟨v, hv, rfl⟩ := (h.mem_finalised_iff hlt record).mp hrecord
  exact ⟨v, rfl, hv.trans_lt hlt⟩

/-- The finalised events of a creator have the heights from 0 on, and stand in the
order of their heights. -/
theorem DagInv.finalHeights_eq_range
    (hlamport : ∀ v s o, dag.graph.parents v = some (s, o) →
      s.1.lamportTimestamp < v.1.lamportTimestamp ∧
        o.1.lamportTimestamp < v.1.lamportTimestamp)
    (hleaf : ∀ peer ∈ peers, peer.height = 0) (creator : P) :
    ∃ m, core.finalHeights creator = List.range m := by
  have hheight : ∀ {k n}, core.heightOf creator k = some n → ∃ v : dag.Vertex,
      dag.hashOf v = k ∧ v.1.creator = creator ∧ v.1.height = n := by
    intro k n hk
    unfold heightOf at hk
    split at hk
    · rename_i e he
      obtain ⟨v, -, hv, hevent, -⟩ := h.vertex_of_stored he
      rw [Option.ite_none_right_eq_some] at hk
      refine ⟨v, hv, ?_, ?_⟩
      · rw [← hevent]
        exact hk.1
      · rw [← hevent]
        exact Option.some.inj hk.2
    · cases hk
  refine ⟨_, eq_range_of_pairwise_lt ?_ ?_⟩
  · rw [finalHeights, List.pairwise_filterMap]
    refine ((h.pairwise_not_ancestor hlamport).and h.nodup_finalOrder).imp ?_
    rintro a b ⟨hanc, hne⟩ n hn m hm
    obtain ⟨v, rfl, hv, rfl⟩ := hheight hn
    obtain ⟨w, rfl, hw, rfl⟩ := hheight hm
    -- of two events of one creator, the lower one is an ancestor of the other
    by_contra hle
    have hreach := (selfReaches_of_height_le (G := dag.graph.toParentGraph)
      (hw.trans hv.symm) (Nat.le_of_not_lt hle)).reaches
    rcases hreach.eq_or_ancestor with heq | hlt
    · exact hne (congrArg dag.hashOf heq.symm)
    · exact hanc v w rfl rfl hlt
  · intro n hn m hm
    obtain ⟨k, hk, hkn⟩ := List.mem_filterMap.mp hn
    obtain ⟨v, rfl, hv, rfl⟩ := hheight hkn
    have hleaf' : ∀ u, dag.graph.parents u = none → dag.graph.height u = 0 := by
      intro u hu
      obtain ⟨peer, hpeer, heq⟩ := EventDag.exists_peer_of_leaf hu
      exact (congrArg HashEvent.height heq).trans (hleaf peer hpeer)
    obtain ⟨u, hu, rfl⟩ := exists_selfReaches_of_height_le
      (G := dag.graph.toParentGraph) hleaf' hm
    have hframe := (frame_le_of_reaches (G := dag.graph) hu.reaches).trans_lt
      ((h.mem_finalOrder_iff v).mp hk)
    obtain ⟨e, he, hevent, -⟩ := h.store.lookup_vertex (h.present_of_frame_lt hframe)
    refine List.mem_filterMap.mpr ⟨_, (h.mem_finalOrder_iff u).mpr hframe, ?_⟩
    have hcreator : e.creator = creator :=
      (congrArg HashEvent.creator hevent).trans (hu.creator_eq.trans hv)
    simp only [heightOf, he, hcreator, if_true]
    exact congrArg (some ∘ HashEvent.height) hevent

/-- With the events of a creator filed in `store`, its finalised items are the
transactions filed there, in the order of the heights. -/
theorem DagInv.itemsOf_finalisedItems (creator : P) (store : SledStore P D T H Sig)
    (hstore : ∀ v : dag.Vertex, dag.graph.frame v < core.firstNotFinalisedFrame →
      v.1.creator = creator → ∃ e,
        store.event (.creator creator v.1.height) = some e ∧
          e.transactions = v.1.transactions) :
    itemsOf creator core.finalisedItems =
      (core.finalHeights creator).flatMap (transactionsAt store creator) := by
  have hlist : ∀ l : List H, (∀ k ∈ l, k ∈ core.finalOrder) →
      itemsOf creator (l.flatMap core.itemsUnder) =
        (l.filterMap (core.heightOf creator)).flatMap
          (transactionsAt store creator) := by
    intro l hl
    induction l with
    | nil => rfl
    | cons k l ih =>
        have hrest := ih fun k' hk' => hl k' (List.mem_cons_of_mem _ hk')
        obtain ⟨v, rfl, hframe⟩ :=
          h.vertex_of_mem_finalOrder (hl k List.mem_cons_self)
        obtain ⟨e, he, hevent, -⟩ :=
          h.store.lookup_vertex (h.present_of_frame_lt hframe)
        have hitems : core.itemsUnder (dag.hashOf v) = e.items := by
          simp only [itemsUnder, he]
        have hcreator : e.creator = v.1.creator := congrArg HashEvent.creator hevent
        rw [List.flatMap_cons, itemsOf_append, hitems, itemsOf_event, hrest]
        by_cases hown : e.creator = creator
        · obtain ⟨e', he', htransactions⟩ := hstore v hframe (hcreator.symm.trans hown)
          have hsome : core.heightOf creator (dag.hashOf v) = some v.1.height := by
            simp only [heightOf, he, hown, if_true]
            exact congrArg (some ∘ HashEvent.height) hevent
          rw [List.filterMap_cons_some hsome, List.flatMap_cons, if_pos hown,
            transactionsAt_of_stored he', htransactions]
          exact congrArg (· ++ _) (congrArg HashEvent.transactions hevent)
        · have hnone : core.heightOf creator (dag.hashOf v) = none := by
            simp only [heightOf, he, hown, if_false]
          rw [List.filterMap_cons_none hnone, if_neg hown, List.nil_append]
  rw [finalisedItems_eq_flatMap]
  exact hlist _ fun _ hk => hk

end Order

end ConsensusDag
