/-
The indices that `poll_next` uses.  On entering a frame the cursor keeps the
number of the frame before it, so an event index that was checked against one
frame is used against another: what saves it is that every finalised frame has a
majority of roots.
-/
import ConsensusDag.DeliveryOrder

namespace ConsensusDag

open DAGcore ParentGraphs ParentGraph QuorumGraph Relation

variable {P D T H PK SK Sig : Type}

/-- The place that the next turn reads, once its frame is finalised. -/
def Cursor.place (cursor : Cursor) : Nat × Nat :=
  match cursor.event with
  | none => (cursor.frame.getD 0 + 1, 0)
  | some event => (cursor.frame.getD 0, event)

theorem place_of_reading {last : Nat} {cursor : Cursor} {place : Nat × Nat}
    (h : reading last cursor = some place) : cursor.place = place := by
  unfold reading at h
  unfold Cursor.place
  cases hevent : cursor.event with
  | none =>
      simp only [hevent, Option.ite_none_left_eq_some] at h
      exact Option.some.inj h.2
  | some event =>
      simp only [hevent] at h
      exact Option.some.inj h

/-- The event index is in the frame, the record's event is stored, and the
transaction index is in the event if it has any transactions. -/
def InRange (core : DAGcore P D T H PK SK Sig) (frame event tx : Nat) : Prop :=
  ∃ record e, (core.store.getFrame frame).events[event]? = some record ∧
    core.store.event (.hash record.hash) = some e ∧
    (e.transactions = [] ∨ tx < e.transactions.length)

/-- The cursor is at the head of an event list, or in range in a finalised
frame. -/
def CursorSafe (core : DAGcore P D T H PK SK Sig) : Prop :=
  core.cursor.place.2 = 0 ∧ core.currentTx.getD 0 = 0 ∨
    core.cursor.place.1 < core.firstNotFinalisedFrame ∧
      InRange core core.cursor.place.1 core.cursor.place.2
        (core.currentTx.getD 0)

variable [LinearOrder P] [LinearOrder H] [Inhabited H]
  {env : Env P D T H PK SK Sig} {peers : List (DAGPeer P PK)}
  {dag : EventDag env peers} {conf : DAGconfig P PK SK}
  {inserted inserted' : List (HashEvent P D T H)}
  {core core' : DAGcore P D T H PK SK Sig} {out : List (D × P)}

section Frames

/-- A finalised frame has a root of each peer of some majority. -/
theorem DagInv.majority_le_length (h : DagInv dag inserted core) {f : Nat}
    (hf : f < core.firstNotFinalisedFrame) :
    2 * peers.length / 3 + 1 ≤ (core.store.getFrame f).events.length := by
  obtain ⟨v, hv, hbound⟩ := (h.finalised f).mp hf
  let creators := (core.store.getFrame f).events.filterMap fun record =>
    (core.store.event (.hash record.hash)).map Event.creator
  have hsub : dag.graph.rootCreators v f ⊆ creators.toFinset := by
    intro c hc
    obtain ⟨r, _, _, hframe, hcreator⟩ := mem_rootCreators.mp hc
    have hr := h.present_of_frame_lt (v := r) (by omega)
    obtain ⟨e, he, hevent, _, _⟩ := h.store.lookup_vertex hr
    rw [List.mem_toFinset, List.mem_filterMap]
    refine ⟨_, (h.mem_finalised_iff hf _).mpr ⟨r, hframe, rfl⟩, ?_⟩
    rw [he, Option.map_some, ← hcreator]
    exact congrArg (some ∘ HashEvent.creator) hevent
  calc 2 * peers.length / 3 + 1 = dag.graph.majority := rfl
    _ ≤ (dag.graph.rootCreators v f).card :=
      majority_le_rootCreators (hbound.trans_le (bound_le_frame v))
    _ ≤ creators.toFinset.card := Finset.card_le_card hsub
    _ ≤ creators.length := List.toFinset_card_le _
    _ ≤ (core.store.getFrame f).events.length := List.length_filterMap_le _ _

/-- With two peers or more, every finalised frame has a second event. -/
theorem DagInv.two_le_length (h : DagInv dag inserted core)
    (hn : 2 ≤ peers.length) {f : Nat} (hf : f < core.firstNotFinalisedFrame) :
    2 ≤ (core.store.getFrame f).events.length := by
  have hle := h.majority_le_length hf
  omega

/-- At the head of an event, an index of the frame is enough. -/
theorem DagInv.inRange (h : DagInv dag inserted core) {f i : Nat}
    (hi : i < (core.store.getFrame f).events.length) : InRange core f i 0 := by
  have hrecord := List.getElem?_eq_getElem hi
  obtain ⟨v, hv, _, hsame⟩ :=
    (h.store.record f _).mp (List.mem_of_getElem? hrecord)
  obtain ⟨e, he, _⟩ := h.store.lookup_vertex hv
  refine ⟨_, e, hrecord, by rw [hsame]; exact he, ?_⟩
  exact e.transactions.length.eq_zero_or_pos.imp List.length_eq_zero_iff.mp id

/-- What is in range in a finalised frame stays so. -/
theorem DagInv.inRange_of_finalised (h : DagInv dag inserted core)
    (h' : DagInv dag inserted' core')
    (hle : core.firstNotFinalisedFrame ≤ core'.firstNotFinalisedFrame)
    {f i tx : Nat} (hf : f < core.firstNotFinalisedFrame)
    (hrange : InRange core f i tx) : InRange core' f i tx := by
  obtain ⟨record, e, hrecord, he, htx⟩ := hrange
  rw [h.getFrame_eq h' hf (by omega)] at hrecord
  obtain ⟨_, e', hrecord', he', -⟩ :=
    h'.inRange (List.getElem?_eq_some_iff.mp hrecord).1
  cases hrecord.symm.trans hrecord'
  have hsame := congrArg HashEvent.transactions (h.toHashEvent_eq h' he he')
  have htransactions : e.transactions = e'.transactions := hsame
  exact ⟨record, e', hrecord, he', by rwa [← htransactions]⟩

end Frames

section Turns

omit [LinearOrder P] [LinearOrder H] [Inhabited H] in
theorem InRange.of_sameNode (hsame : core.SameNode core') {f i tx : Nat}
    (h : InRange core f i tx) : InRange core' f i tx := by
  unfold InRange
  rw [hsame.store]
  exact h

/-- Moving on from an event that was read in range keeps the cursor safe. -/
theorem advance_safe (h : DagInv dag inserted core) (hn : 2 ≤ peers.length)
    {frame event : Nat} (tx : Nat) (hplace : core.cursor.place = (frame, event))
    (hframe : frame < core.firstNotFinalisedFrame)
    (hcurrent : core.currentFrame.getD 0 < core.firstNotFinalisedFrame)
    {record : FrameRecord H} {e : Event P D T H Sig}
    (hrecord : (core.store.getFrame frame).events[event]? = some record)
    (he : core.store.event (.hash record.hash) = some e) :
    CursorSafe (core.advance frame event tx
      (core.store.getFrame frame).events.length e.transactions.length) := by
  have hsame := advance_sameNode core frame event tx
    (core.store.getFrame frame).events.length e.transactions.length
  have hcursor := advance_cursor core frame event tx
    (core.store.getFrame frame).events.length e.transactions.length
  have htx := congrArg (fun cursor => cursor.tx.getD 0) hcursor
  change (core.advance frame event tx _ _).currentTx.getD 0 = _ at htx
  unfold CursorSafe
  rw [hsame.firstNotFinalisedFrame, htx, hcursor]
  by_cases hmore : tx + 1 < e.transactions.length
  · -- the same event, at its next transaction
    rw [if_pos hmore]
    have hsameplace : (Cursor.mk core.currentFrame core.currentEvent
        (some (tx + 1))).place = (frame, event) := hplace
    rw [hsameplace]
    exact Or.inr ⟨hframe, InRange.of_sameNode hsame
      ⟨record, e, hrecord, he, Or.inr hmore⟩⟩
  rw [if_neg hmore]
  by_cases hnext : event + 1 < (core.store.getFrame frame).events.length
  · -- the next index, in the frame that the cursor is still at
    rw [if_pos hnext]
    refine Or.inr ⟨hcurrent, InRange.of_sameNode hsame (h.inRange ?_)⟩
    change event + 1 < (core.store.getFrame (core.currentFrame.getD 0)).events.length
    have hlength := h.two_le_length hn hcurrent
    unfold Cursor.place at hplace
    simp only [cursor] at hplace
    cases hevent : core.currentEvent with
    | none =>
        rw [hevent] at hplace
        cases hplace
        omega
    | some i =>
        rw [hevent] at hplace
        cases hplace
        exact hnext
  · rw [if_neg hnext]
    exact Or.inl ⟨rfl, rfl⟩

/-- A turn that reads anything reads in range, and leaves the cursor safe. -/
theorem CursorSafe.turn (hsafe : CursorSafe core) (h : DagInv dag inserted core)
    (hcursor : CursorInv core) (hn : 2 ≤ peers.length) {last : Nat}
    (hlast : core.lastFinalisedFrame = some last) {frame event : Nat}
    (hreading : reading last core.cursor = some (frame, event)) (waker : Nat) :
    InRange core frame event (core.currentTx.getD 0) ∧
      ∃ items core', (core.pollTurn waker last).result = some (items, core') ∧
        CursorSafe core' := by
  have hplace := place_of_reading hreading
  have hfirst := firstNotFinalisedFrame_of_last hlast
  obtain ⟨hframe, hcurrent⟩ := hcursor.reading_le hlast hreading
  have hrange : InRange core frame event (core.currentTx.getD 0) := by
    unfold CursorSafe at hsafe
    rw [hplace] at hsafe
    rcases hsafe with ⟨hevent, htx⟩ | ⟨-, hrange⟩
    · have hlength := h.two_le_length hn (f := frame) (by omega)
      simp only at hevent
      rw [hevent, htx]
      exact h.inRange (by omega)
    · exact hrange
  refine ⟨hrange, ?_⟩
  obtain ⟨record, e, hrecord, he, htx⟩ := hrange
  have hadvance := advance_safe h hn (core.currentTx.getD 0) hplace (by omega)
    (by omega) hrecord he
  have hitems : (core.store.event (.hash record.hash)).map Event.items =
      some e.items := by rw [he, Option.map_some]
  rcases htx with hnil | htx
  · have hturn : core.pollTurn waker last = _ :=
      pollTurn_eq_again hreading hrecord (by rw [hitems, Event.items, hnil]; rfl)
    rw [hnil, List.length_nil] at hadvance
    exact ⟨[], _, by rw [hturn]; rfl, hadvance⟩
  · have hlength : e.items.length = e.transactions.length := List.length_map _
    have hturn : core.pollTurn waker last = _ :=
      pollTurn_eq_data hreading hrecord hitems
        (List.getElem?_eq_getElem (by rwa [hlength]))
    rw [← hlength] at hadvance
    exact ⟨[_], _, by rw [hturn]; rfl, hadvance⟩

end Turns

section Runs

omit [LinearOrder P] [LinearOrder H] [Inhabited H] in
theorem CursorSafe.of_sameNode (h : CursorSafe core) (hsame : core.SameNode core')
    (hcursor : core'.cursor = core.cursor) : CursorSafe core' := by
  have htx : core'.currentTx = core.currentTx := congrArg Cursor.tx hcursor
  unfold CursorSafe
  rw [hcursor, htx, hsame.firstNotFinalisedFrame]
  exact h.imp id fun h => ⟨h.1, h.2.of_sameNode hsame⟩

/-- A turn leaves the cursor safe, whatever it delivers. -/
theorem CursorSafe.of_turn (hsafe : CursorSafe core)
    (h : DagInv dag inserted core) (hcursor : CursorInv core)
    (hn : 2 ≤ peers.length) {waker last : Nat}
    (hlast : core.lastFinalisedFrame = some last) {items : List (D × P)}
    (hturn : (core.pollTurn waker last).result = some (items, core')) :
    CursorSafe core' := by
  obtain ⟨frame, event, hreading, -⟩ := pollTurn_result hturn
  obtain ⟨-, items', core'', hturn', hsafe'⟩ :=
    hsafe.turn h hcursor hn hlast hreading waker
  rw [hturn, Option.some.injEq, Prod.mk.injEq] at hturn'
  rw [hturn'.2]
  exact hsafe'

/-- What holds at the start of each turn of one call. -/
structure TurnInv (dag : EventDag env peers)
    (inserted : List (HashEvent P D T H)) (core c : DAGcore P D T H PK SK Sig) :
    Prop where
  dagInv : DagInv dag inserted c
  cursorInv : CursorInv c
  safe : CursorSafe c
  same : core.SameNode c

theorem TurnInv.turn {c c' : DAGcore P D T H PK SK Sig}
    (h : TurnInv dag inserted core c) (hn : 2 ≤ peers.length) {waker last : Nat}
    (hlast : core.lastFinalisedFrame = some last) {items : List (D × P)}
    (hturn : (c.pollTurn waker last).result = some (items, c')) :
    TurnInv dag inserted core c' := by
  have hlast := h.same.last.trans hlast
  have hsame := pollTurn_sameNode hturn
  exact ⟨h.dagInv.of_sameNode hsame, (h.cursorInv.turn hlast hturn).1,
    h.safe.of_turn h.dagInv h.cursorInv hn hlast hturn, h.same.trans hsame⟩

theorem NodeRun.cursorSafe (hn : 2 ≤ peers.length)
    (h : NodeRun dag conf out inserted core) : CursorSafe core := by
  induction h with
  | start _ hnew =>
      have hfresh := (new_fresh hnew).1
      have htx := congrArg Cursor.tx hfresh
      simp only [cursor] at htx
      unfold CursorSafe
      rw [hfresh, htx]
      exact Or.inl ⟨rfl, rfl⟩
  | @insert out inserted core core' event hrun hmem hnew hinsert ih =>
      have hinv := hrun.nodeInv
      have hinv' := hinv.insert hmem hnew hinsert
      obtain ⟨-, ⟨ins⟩⟩ := DAGcore.insertEvent_eq_ok hinsert
      obtain ⟨v, s, o, hadd⟩ := hinv.dagInv.addsVertex hmem hnew ins
      have hfirst := ins.firstNotFinalisedFrame_eq (hinv.dagInv.frames_eq hadd)
      obtain ⟨hframe, hevent, htx, -⟩ := ins.cursor_eq
      have hcursor : core'.cursor = core.cursor := by
        rw [cursor, hframe, hevent, htx]
        rfl
      unfold CursorSafe
      rw [hcursor, htx]
      refine ih.imp id ?_
      rintro ⟨hlt, hrange⟩
      refine ⟨by omega, ?_⟩
      exact hinv.dagInv.inRange_of_finalised hinv'.dagInv (by omega) hlt hrange
  | @poll out inserted core core' poll waker hrun hpoll ih =>
      have hinv := hrun.nodeInv
      rcases pollNext_eq_ok hpoll with ⟨-, rfl⟩ | ⟨-, -, rfl⟩ | ⟨last, hlast, hloop⟩
      · exact ih
      · exact ih.of_sameNode (setWaker_sameNode _ _) rfl
      · obtain ⟨core₁, hturns, hend⟩ := pollLoop_induct
          (I := TurnInv dag inserted core)
          (fun c c' hc hturn => hc.turn hn hlast hturn) hloop
          ⟨hinv.dagInv, hinv.cursorInv, ih, .refl core⟩
        rcases hend with ⟨-, -, rfl⟩ | ⟨item, core₂, -, hturn, rfl⟩
        · exact hturns.safe.of_sameNode (setWaker_sameNode _ _) rfl
        · exact (hturns.turn hn hlast hturn).safe.of_sameNode
            (setWaker_sameNode _ _) rfl

/-- With two peers or more, a call of `poll_next` comes to its end and does not
panic; its turns read finalised frames only, with indices that are in range. -/
theorem poll_safe (hn : 2 ≤ peers.length)
    (h : NodeRun dag conf out inserted core) (waker : Nat) :
    (∃ poll core', core.pollNext waker = (.ok poll, core')) ∧
      ∀ last, core.lastFinalisedFrame = some last →
        ∀ c, ReflTransGen (fun c c' => c.pollTurn waker last = .again c') core c →
          ∀ frame event, reading last c.cursor = some (frame, event) →
            frame ≤ last ∧ InRange c frame event (c.currentTx.getD 0) := by
  have hstart : TurnInv dag inserted core core :=
    ⟨h.nodeInv.dagInv, h.nodeInv.cursorInv, h.cursorSafe hn, .refl core⟩
  constructor
  · unfold pollNext
    split
    · exact ⟨_, _, rfl⟩
    · split
      · exact ⟨_, _, rfl⟩
      · rename_i last hlast
        refine pollLoop_ok (I := TurnInv dag inserted core) (fun c hc => ?_) hstart
        cases hreading : reading last c.cursor with
        | none => exact Or.inl rfl
        | some place =>
            have hlast' := hc.same.last.trans hlast
            obtain ⟨-, items, c', hturn, -⟩ :=
              hc.safe.turn hc.dagInv hc.cursorInv hn hlast' hreading waker
            exact Or.inr ⟨items, c', hturn, hc.turn hn hlast hturn⟩
  · intro last hlast c hturns frame event hreading
    have hc : TurnInv dag inserted core c := by
      clear hreading
      induction hturns with
      | refl => exact hstart
      | tail _ hagain ih => exact ih.turn hn hlast (by rw [hagain]; rfl)
    have hlast' := hc.same.last.trans hlast
    exact ⟨(hc.cursorInv.reading_le hlast' hreading).1,
      (hc.safe.turn hc.dagInv hc.cursorInv hn hlast' hreading waker).1⟩

end Runs

/-- After three events a call at the second peer goes through. -/
theorem TwoPeers.poll_three : ∃ poll core', (TwoPeers.after (TwoPeers.start 1)
    [TwoPeers.b₁, TwoPeers.a₁, TwoPeers.b₂]).pollNext 0 = (.ok poll, core') :=
  (poll_safe (by decide) (DagRun.nodeRun TwoPeers.dagRun_three) 0).1

end ConsensusDag
