/-
What the stream delivers, call after call, while the finalisation point moves.
The walk is right inside frame 0.  When it leaves a frame, the frame number is
incremented, and it is incremented again when the next frame is entered.
-/
import ConsensusDag.Cursor
import ConsensusDag.InsertEvent

namespace ConsensusDag

variable {P D T H PK SK Sig : Type}

namespace DAGcore

/-- The items of the event behind a record. -/
def recordItems (core : DAGcore P D T H PK SK Sig) (record : FrameRecord H) :
    List (D × P) :=
  match core.store.event (.hash record.hash) with
  | some event => event.items
  | none => []

/-- The transactions of a frame, event after event, with their creators. -/
def frameItems (core : DAGcore P D T H PK SK Sig) (f : Nat) : List (D × P) :=
  (core.store.getFrame f).events.flatMap core.recordItems

/-- The transactions of all finalised frames, in their final order. -/
def finalisedItems (core : DAGcore P D T H PK SK Sig) : List (D × P) :=
  (List.range core.firstNotFinalisedFrame).flatMap core.frameItems

/-- The cursor and the finalisation point of a new node. -/
def Fresh (core : DAGcore P D T H PK SK Sig) : Prop :=
  core.cursor = ⟨none, some 0, some 0⟩ ∧ core.lastFinalisedFrame = none

/-- The finalisation point moves on: what was finalised stays, and every
finalised frame is a non-empty list of stored events. -/
structure Finalises (core core' : DAGcore P D T H PK SK Sig) : Prop where
  cursor : core'.cursor = core.cursor
  le : core.firstNotFinalisedFrame ≤ core'.firstNotFinalisedFrame
  frame_kept : ∀ f < core.firstNotFinalisedFrame,
    core'.store.getFrame f = core.store.getFrame f
  event_kept : ∀ f < core.firstNotFinalisedFrame,
    ∀ record ∈ (core.store.getFrame f).events,
      core'.store.event (.hash record.hash) = core.store.event (.hash record.hash)
  nonempty : ∀ f < core'.firstNotFinalisedFrame,
    (core'.store.getFrame f).events ≠ []
  stored : ∀ f < core'.firstNotFinalisedFrame,
    ∀ record ∈ (core'.store.getFrame f).events,
      ∃ e, core'.store.event (.hash record.hash) = some e

/-- The items of frame 0 at and after the cursor. -/
def frameZeroRest (core : DAGcore P D T H PK SK Sig) : List (D × P) :=
  match core.currentFrame, core.currentEvent with
  | none, some event =>
      (((core.store.getFrame 0).events.drop event).flatMap
        core.recordItems).drop (core.currentTx.getD 0)
  | _, _ => []

/-- There is something left to deliver in frame 0, or nothing to deliver in the
frames after it. -/
def FrameZeroSuffices (core : DAGcore P D T H PK SK Sig) : Prop :=
  core.frameZeroRest ≠ [] ∨
    ∀ f, 0 < f → f < core.firstNotFinalisedFrame → core.frameItems f = []

theorem new_fresh [LinearOrder P] [DecidableEq H] [Inhabited H]
    {env : Env P D T H PK SK Sig} {conf : DAGconfig P PK SK}
    {disk : SledStore P D T H Sig} {core : DAGcore P D T H PK SK Sig}
    (h : DAGcore.new env conf disk = .ok core) : core.Fresh := by
  obtain ⟨store, _, rfl⟩ := DAGcore.new_eq_ok h
  exact ⟨rfl, rfl⟩

end DAGcore

open DAGcore

/-- What a stream has delivered when calls of `poll_next` alternate with moves
of the finalisation point.  Calls are made in `allowed` states. -/
inductive StreamRun (allowed : DAGcore P D T H PK SK Sig → Prop) :
    List (D × P) → DAGcore P D T H PK SK Sig → Prop
  | start {core : DAGcore P D T H PK SK Sig} :
      core.Fresh → StreamRun allowed [] core
  | finalise {out : List (D × P)} {core core' : DAGcore P D T H PK SK Sig} :
      StreamRun allowed out core → core.Finalises core' →
      StreamRun allowed out core'
  | poll {out : List (D × P)} {core core' : DAGcore P D T H PK SK Sig}
      {poll : Poll (D × P)} (waker : Nat) :
      StreamRun allowed out core → allowed core →
      core.pollNext waker = (.ok poll, core') →
      StreamRun allowed (out ++ poll.items) core'

section CursorInvariant

/-- Inside a frame, the cursor is not beyond the finalisation point. -/
def CursorInv (core : DAGcore P D T H PK SK Sig) : Prop :=
  ∀ event, core.currentEvent = some event →
    core.currentFrame.getD 0 ≤ core.firstNotFinalisedFrame - 1

variable {core core' : DAGcore P D T H PK SK Sig}

theorem CursorInv.of_fresh (h : core.Fresh) : CursorInv core := by
  intro event _
  have hframe : core.currentFrame = none := congrArg Cursor.frame h.1
  rw [hframe]
  exact Nat.zero_le _

theorem CursorInv.of_cursor_eq (h : CursorInv core)
    (hcursor : core'.cursor = core.cursor)
    (hle : core.firstNotFinalisedFrame ≤ core'.firstNotFinalisedFrame) :
    CursorInv core' := by
  intro event hevent
  have hframe : core'.currentFrame = core.currentFrame :=
    congrArg Cursor.frame hcursor
  have hevent' : core'.currentEvent = core.currentEvent :=
    congrArg Cursor.event hcursor
  have hold := h event (hevent'.symm.trans hevent)
  rw [hframe]
  omega

theorem firstNotFinalisedFrame_of_last {last : Nat}
    (hlast : core.lastFinalisedFrame = some last) :
    core.firstNotFinalisedFrame = last + 1 := by
  rw [DAGcore.firstNotFinalisedFrame, hlast]

/-- No turn reads beyond the finalisation point. -/
theorem CursorInv.reading_le (h : CursorInv core) {last frame event : Nat}
    (hlast : core.lastFinalisedFrame = some last)
    (hreading : reading last core.cursor = some (frame, event)) :
    frame ≤ last ∧ core.currentFrame.getD 0 ≤ last := by
  have hfirst := firstNotFinalisedFrame_of_last hlast
  unfold reading cursor at hreading
  simp only at hreading
  split at hreading
  · split at hreading
    · cases hreading
    · cases hreading
      omega
  · rename_i currentEvent hevent
    cases hreading
    have hold := h _ hevent
    omega

/-- A turn reads a finalised frame, and leaves the cursor in one or between
two. -/
theorem CursorInv.turn (h : CursorInv core) {waker last : Nat}
    (hlast : core.lastFinalisedFrame = some last) {items : List (D × P)}
    (hturn : (core.pollTurn waker last).result = some (items, core')) :
    CursorInv core' ∧ ∃ frame event, reading last core.cursor =
        some (frame, event) ∧ frame < core.firstNotFinalisedFrame := by
  obtain ⟨frame, event, hreading, hread⟩ := pollTurn_result hturn
  obtain ⟨record, e, _, _, _, _, rfl⟩ := readEvent_result hread
  have hfirst := firstNotFinalisedFrame_of_last hlast
  have hcursor := advance_cursor core frame event
    (core.currentTx.getD 0) (core.store.getFrame frame).events.length
    e.transactions.length
  have hsame := (advance_sameNode core frame event
    (core.currentTx.getD 0) (core.store.getFrame frame).events.length
    e.transactions.length).firstNotFinalisedFrame
  have hbounds := h.reading_le hlast hreading
  refine ⟨?_, frame, event, hreading, by omega⟩
  intro event' hevent'
  rw [hsame]
  have hframe := congrArg Cursor.frame hcursor
  have hevent := congrArg Cursor.event hcursor
  simp only [cursor] at hframe hevent
  rw [hframe]
  rw [hevent'] at hevent
  split
  · simp only
    omega
  · rename_i htx
    rw [if_neg htx] at hevent
    split
    · simp only
      omega
    · rename_i hev
      rw [if_neg hev] at hevent
      cases hevent

end CursorInvariant

section FrameZero

variable {core core' : DAGcore P D T H PK SK Sig} {out : List (D × P)}

theorem DAGcore.SameNode.recordItems_eq (h : core.SameNode core') :
    core'.recordItems = core.recordItems := by
  funext record
  unfold DAGcore.recordItems
  rw [h.store]

theorem DAGcore.SameNode.frameItems_eq (h : core.SameNode core') :
    core'.frameItems = core.frameItems := by
  funext f
  unfold DAGcore.frameItems
  rw [h.recordItems_eq, h.store]

/-- What is left of frame 0 is the rest of the event under the cursor, and the
events after it. -/
theorem DAGcore.frameZeroRest_eq (hframe : core.currentFrame = none) {event : Nat}
    (hevent : core.currentEvent = some event) {record : FrameRecord H}
    (hrecord : (core.store.getFrame 0).events[event]? = some record)
    (hle : core.currentTx.getD 0 ≤ (core.recordItems record).length) :
    core.frameZeroRest = (core.recordItems record).drop (core.currentTx.getD 0) ++
      ((core.store.getFrame 0).events.drop (event + 1)).flatMap
        core.recordItems := by
  obtain ⟨hlt, hget⟩ := List.getElem?_eq_some_iff.mp hrecord
  simp only [DAGcore.frameZeroRest, hframe, hevent, List.drop_eq_getElem_cons hlt,
    hget, List.flatMap_cons]
  exact List.drop_append_of_le_length hle

/-- The cursor is in frame 0: `out` and what is left make up the frame. -/
structure AtFrameZero (out : List (D × P))
    (core : DAGcore P D T H PK SK Sig) : Prop where
  frame : core.currentFrame = none
  event : ∃ event, core.currentEvent = some event
  started : core.firstNotFinalisedFrame = 0 →
    core.cursor = ⟨none, some 0, some 0⟩ ∧ out = []
  items : 0 < core.firstNotFinalisedFrame →
    out ++ core.frameZeroRest = core.frameItems 0
  tx : ∀ event, core.currentEvent = some event → ∀ record,
    (core.store.getFrame 0).events[event]? = some record →
    core.currentTx.getD 0 ≤ (core.recordItems record).length

/-- The cursor has left frame 0, and the frame is delivered. -/
structure PastFrameZero (out : List (D × P))
    (core : DAGcore P D T H PK SK Sig) : Prop where
  frame : ∃ f, core.currentFrame = some (f + 1)
  finalised : 0 < core.firstNotFinalisedFrame
  items : out = core.frameItems 0

theorem PastFrameZero.rest_eq_nil (h : PastFrameZero out core) :
    core.frameZeroRest = [] := by
  obtain ⟨f, hf⟩ := h.frame
  unfold DAGcore.frameZeroRest
  rw [hf]

/-- The cursor stays in frame 0, at a transaction that the event under it has. -/
theorem AtFrameZero.advance (h : AtFrameZero out core) (hsame : core.SameNode core')
    (hpos : 0 < core.firstNotFinalisedFrame) {event : Nat}
    (hframe : core'.currentFrame = none) (hevent : core'.currentEvent = some event)
    (htx : ∀ record, (core.store.getFrame 0).events[event]? = some record →
      core'.currentTx.getD 0 ≤ (core.recordItems record).length)
    {items : List (D × P)}
    (hrest : core.frameZeroRest = items ++ core'.frameZeroRest) :
    AtFrameZero (out ++ items) core' := by
  refine ⟨hframe, ⟨event, hevent⟩, ?_, ?_, ?_⟩
  · intro hzero
    rw [hsame.firstNotFinalisedFrame] at hzero
    omega
  · intro _
    rw [List.append_assoc, ← hrest, hsame.frameItems_eq, h.items hpos]
  · intro event' hevent' record hrecord
    rw [hevent, Option.some.injEq] at hevent'
    subst hevent'
    rw [hsame.store] at hrecord
    rw [hsame.recordItems_eq]
    exact htx record hrecord

/-- In frame 0 a turn delivers the next item that is left, or steps over an
event without transactions. -/
theorem AtFrameZero.turn (h : AtFrameZero out core) {waker last : Nat}
    (hlast : core.lastFinalisedFrame = some last) {items : List (D × P)}
    (hturn : (core.pollTurn waker last).result = some (items, core')) :
    (AtFrameZero (out ++ items) core' ∨ PastFrameZero (out ++ items) core') ∧
      core.frameZeroRest = items ++ core'.frameZeroRest := by
  have hfirst := firstNotFinalisedFrame_of_last hlast
  obtain ⟨event, hevent⟩ := h.event
  obtain ⟨frame, event', hreading, hread⟩ := pollTurn_result hturn
  have hat : frame = 0 ∧ event' = event := by
    simp only [reading, cursor, h.frame, hevent, Option.getD_none,
      Option.some.injEq, Prod.mk.injEq] at hreading
    exact ⟨hreading.1.symm, hreading.2.symm⟩
  obtain ⟨rfl, rfl⟩ := hat
  obtain ⟨record, e, hrecord, hstored, hitems, htx, hcore⟩ := readEvent_result hread
  have hsame := pollTurn_sameNode hturn
  have hrecordItems : core.recordItems record = e.items := by
    unfold DAGcore.recordItems
    rw [hstored]
  have hlen : e.items.length = e.transactions.length := List.length_map _
  let tail := ((core.store.getFrame 0).events.drop (event' + 1)).flatMap
    core.recordItems
  -- what is left splits into the item under the cursor and the rest
  have hsplit : core.frameZeroRest =
      items ++ (e.items.drop (core.currentTx.getD 0 + 1) ++ tail) := by
    rw [DAGcore.frameZeroRest_eq h.frame hevent hrecord
      (h.tx event' hevent record hrecord), hrecordItems,
      List.drop_eq_getElem?_toList_append, ← hitems, List.append_assoc]
  have hcursor := advance_cursor core 0 event'
    (core.currentTx.getD 0) (core.store.getFrame 0).events.length
    e.transactions.length
  rw [← hcore] at hcursor
  by_cases hmore : core.currentTx.getD 0 + 1 < e.transactions.length
  · -- the event has another transaction
    rw [if_pos hmore] at hcursor
    have hframe' := congrArg Cursor.frame hcursor
    have hevent' := congrArg Cursor.event hcursor
    have htx' := congrArg Cursor.tx hcursor
    simp only [cursor, h.frame, hevent] at hframe' hevent' htx'
    have hrest' : core'.frameZeroRest =
        e.items.drop (core.currentTx.getD 0 + 1) ++ tail := by
      rw [DAGcore.frameZeroRest_eq hframe' hevent' (hsame.store ▸ hrecord),
        hsame.recordItems_eq, hrecordItems, htx', Option.getD_some, hsame.store]
      rw [hsame.recordItems_eq, hrecordItems, htx', Option.getD_some]
      omega
    rw [← hrest'] at hsplit
    refine ⟨Or.inl (h.advance hsame (by omega) hframe' hevent' ?_ hsplit), hsplit⟩
    intro record' hrecord'
    rw [hrecord, Option.some.injEq] at hrecord'
    subst hrecord'
    rw [hrecordItems, htx', Option.getD_some]
    omega
  · rw [if_neg hmore] at hcursor
    have hdone : e.items.drop (core.currentTx.getD 0 + 1) = [] :=
      List.drop_eq_nil_of_le (by omega)
    rw [hdone, List.nil_append] at hsplit
    by_cases hnext : event' + 1 < (core.store.getFrame 0).events.length
    · -- the frame has another event
      rw [if_pos hnext] at hcursor
      have hframe' := congrArg Cursor.frame hcursor
      have hevent' := congrArg Cursor.event hcursor
      have htx' := congrArg Cursor.tx hcursor
      simp only [cursor, h.frame] at hframe' hevent' htx'
      have hrest' : core'.frameZeroRest = tail := by
        simp only [DAGcore.frameZeroRest, hframe', hevent', htx', hsame.store,
          hsame.recordItems_eq, Option.getD_some, List.drop_zero, tail]
      rw [← hrest'] at hsplit
      refine ⟨Or.inl (h.advance hsame (by omega) hframe' hevent' ?_ hsplit), hsplit⟩
      intro record' _
      rw [htx', Option.getD_some]
      exact Nat.zero_le _
    · -- the frame is done
      rw [if_neg hnext] at hcursor
      have hframe' := congrArg Cursor.frame hcursor
      simp only [cursor] at hframe'
      have htail : tail = [] := by
        simp only [tail]
        rw [List.drop_eq_nil_of_le (by omega), List.flatMap_nil]
      have hpast : PastFrameZero (out ++ items) core' := by
        refine ⟨⟨0, hframe'⟩, ?_, ?_⟩
        · rw [hsame.firstNotFinalisedFrame]
          omega
        · rw [hsame.frameItems_eq, ← h.items (by omega), hsplit, htail,
            List.append_nil]
      refine ⟨Or.inr hpast, ?_⟩
      rw [hpast.rest_eq_nil, hsplit, htail]

/-- Past frame 0 nothing is delivered as long as no later frame has items. -/
theorem PastFrameZero.turn (h : PastFrameZero out core) (hinv : CursorInv core)
    {waker last : Nat} (hlast : core.lastFinalisedFrame = some last)
    (hempty : ∀ f, 0 < f → f < core.firstNotFinalisedFrame →
      core.frameItems f = []) {items : List (D × P)}
    (hturn : (core.pollTurn waker last).result = some (items, core')) :
    items = [] ∧ PastFrameZero out core' := by
  obtain ⟨c, hc⟩ := h.frame
  obtain ⟨_, frame, event, hreading, hlt⟩ := hinv.turn hlast hturn
  obtain ⟨frame', event', hreading', hread⟩ := pollTurn_result hturn
  rw [hreading, Option.some.injEq, Prod.mk.injEq] at hreading'
  obtain ⟨rfl, rfl⟩ := hreading'
  obtain ⟨record, e, hrecord, hstored, hitems, _, hcore⟩ := readEvent_result hread
  have hsame := pollTurn_sameNode hturn
  have hpos : 0 < frame := by
    unfold reading cursor at hreading
    simp only [hc, Option.getD_some] at hreading
    split at hreading
    · split at hreading
      · cases hreading
      · cases hreading
        omega
    · cases hreading
      omega
  have hnil : e.items = [] := by
    have hmem := List.mem_of_getElem? hrecord
    have hframe := hempty frame hpos hlt
    rw [DAGcore.frameItems, List.flatMap_eq_nil_iff] at hframe
    have hrecordNil := hframe record hmem
    rw [DAGcore.recordItems, hstored] at hrecordNil
    exact hrecordNil
  have hcursor := congrArg Cursor.frame (advance_cursor core frame event
    (core.currentTx.getD 0) (core.store.getFrame frame).events.length
    e.transactions.length)
  rw [← hcore] at hcursor
  refine ⟨by rw [hitems, hnil]; rfl, ?_, ?_, ?_⟩
  · rw [cursor] at hcursor
    simp only at hcursor
    rw [hcursor]
    split
    · exact ⟨c, hc⟩
    · split
      · exact ⟨c, hc⟩
      · exact ⟨frame, rfl⟩
  · rw [hsame.firstNotFinalisedFrame]
    exact h.finalised
  · rw [hsame.frameItems_eq]
    exact h.items

end FrameZero

section Delivered

variable {core core' : DAGcore P D T H PK SK Sig} {out : List (D × P)}

/-- The cursor stands in frame 0 or beyond it, with what was delivered so far in
`out`. -/
structure DeliveryInv (out : List (D × P))
    (core : DAGcore P D T H PK SK Sig) : Prop where
  cursor : CursorInv core
  place : AtFrameZero out core ∨ PastFrameZero out core

theorem DeliveryInv.of_fresh (h : core.Fresh) : DeliveryInv [] core := by
  have hfirst : core.firstNotFinalisedFrame = 0 := by
    rw [DAGcore.firstNotFinalisedFrame, h.2]
  have hframe := congrArg Cursor.frame h.1
  have hevent := congrArg Cursor.event h.1
  have htx := congrArg Cursor.tx h.1
  simp only [DAGcore.cursor] at hframe hevent htx
  refine ⟨CursorInv.of_fresh h, Or.inl ⟨hframe, ⟨0, hevent⟩, fun _ => ⟨h.1, rfl⟩,
    ?_, ?_⟩⟩
  · intro hpos
    omega
  · intro event _ record _
    rw [htx]
    exact Nat.zero_le _

theorem DAGcore.Finalises.recordItems_eq (h : core.Finalises core') {f : Nat}
    (hf : f < core.firstNotFinalisedFrame) {record : FrameRecord H}
    (hrecord : record ∈ (core.store.getFrame f).events) :
    core'.recordItems record = core.recordItems record := by
  unfold DAGcore.recordItems
  rw [h.event_kept f hf record hrecord]

theorem DAGcore.Finalises.frameItems_eq (h : core.Finalises core') {f : Nat}
    (hf : f < core.firstNotFinalisedFrame) :
    core'.frameItems f = core.frameItems f := by
  unfold DAGcore.frameItems
  rw [h.frame_kept f hf]
  exact List.flatMap_congr fun record hrecord => h.recordItems_eq hf hrecord

theorem DeliveryInv.finalise (h : DeliveryInv out core)
    (hfin : core.Finalises core') : DeliveryInv out core' := by
  have hframe := congrArg Cursor.frame hfin.cursor
  have hevent := congrArg Cursor.event hfin.cursor
  have htx := congrArg Cursor.tx hfin.cursor
  simp only [DAGcore.cursor] at hframe hevent htx
  have hle := hfin.le
  refine ⟨h.cursor.of_cursor_eq hfin.cursor hle, ?_⟩
  rcases h.place with hat | hpast
  · left
    obtain ⟨event, hcurrent⟩ := hat.event
    refine ⟨hframe.trans hat.frame, ⟨event, hevent.trans hcurrent⟩, ?_, ?_, ?_⟩
    · intro hzero
      rw [hfin.cursor]
      exact hat.started (by omega)
    · intro hpos
      rcases Nat.eq_zero_or_pos core.firstNotFinalisedFrame with hzero | hold
      · -- frame 0 appears under the initial cursor
        obtain ⟨hstart, rfl⟩ := hat.started hzero
        have hframe₀ := congrArg Cursor.frame hstart
        have hevent₀ := congrArg Cursor.event hstart
        have htx₀ := congrArg Cursor.tx hstart
        simp only [DAGcore.cursor] at hframe₀ hevent₀ htx₀
        simp only [DAGcore.frameZeroRest, hframe, hframe₀, hevent, hevent₀, htx,
          htx₀, Option.getD_some, List.drop_zero, List.nil_append]
        rfl
      · rw [hfin.frameItems_eq hold, ← hat.items hold]
        congr 1
        simp only [DAGcore.frameZeroRest, hframe, hat.frame, hevent, hcurrent, htx,
          hfin.frame_kept 0 hold]
        rw [List.flatMap_congr fun record hrecord =>
          hfin.recordItems_eq hold (List.mem_of_mem_drop hrecord)]
    · intro event' hevent' record hrecord
      rcases Nat.eq_zero_or_pos core.firstNotFinalisedFrame with hzero | hold
      · have htx₀ := congrArg Cursor.tx (hat.started hzero).1
        simp only [DAGcore.cursor] at htx₀
        rw [htx, htx₀]
        exact Nat.zero_le _
      · rw [hfin.frame_kept 0 hold] at hrecord
        rw [htx, hfin.recordItems_eq hold (List.mem_of_getElem? hrecord)]
        exact hat.tx event' (hevent.symm.trans hevent') record hrecord
  · right
    refine ⟨?_, by have := hpast.finalised; omega, ?_⟩
    · rw [hframe]
      exact hpast.frame
    · rw [hfin.frameItems_eq hpast.finalised]
      exact hpast.items

theorem DAGcore.SameNode.frameZeroRest_eq (h : core.SameNode core')
    (hcursor : core'.cursor = core.cursor) :
    core'.frameZeroRest = core.frameZeroRest := by
  have hframe := congrArg Cursor.frame hcursor
  have hevent := congrArg Cursor.event hcursor
  have htx := congrArg Cursor.tx hcursor
  simp only [DAGcore.cursor] at hframe hevent htx
  unfold DAGcore.frameZeroRest
  rw [hframe, hevent, htx, h.store, h.recordItems_eq]

theorem DeliveryInv.of_sameNode (h : DeliveryInv out core)
    (hsame : core.SameNode core') (hcursor : core'.cursor = core.cursor) :
    DeliveryInv out core' := by
  have hframe := congrArg Cursor.frame hcursor
  have hevent := congrArg Cursor.event hcursor
  have htx := congrArg Cursor.tx hcursor
  simp only [DAGcore.cursor] at hframe hevent htx
  have hfirst := hsame.firstNotFinalisedFrame
  refine ⟨h.cursor.of_cursor_eq hcursor hfirst.ge, ?_⟩
  rcases h.place with hat | hpast
  · left
    refine ⟨by rw [hframe, hat.frame], by rw [hevent]; exact hat.event, ?_, ?_, ?_⟩
    · rw [hfirst, hcursor]
      exact hat.started
    · rw [hfirst, hsame.frameItems_eq, hsame.frameZeroRest_eq hcursor]
      exact hat.items
    · rw [hevent, hsame.store, htx, hsame.recordItems_eq]
      exact hat.tx
  · right
    refine ⟨by rw [hframe]; exact hpast.frame, ?_, ?_⟩
    · rw [hfirst]
      exact hpast.finalised
    · rw [hsame.frameItems_eq]
      exact hpast.items

/-- One turn of the loop, as long as frame 0 suffices. -/
theorem DeliveryInv.turn (h : DeliveryInv out core)
    (hsafe : core.FrameZeroSuffices) {waker last : Nat}
    (hlast : core.lastFinalisedFrame = some last) {items : List (D × P)}
    (hturn : (core.pollTurn waker last).result = some (items, core')) :
    DeliveryInv (out ++ items) core' ∧
      (items = [] → core'.FrameZeroSuffices) := by
  have hsame := pollTurn_sameNode hturn
  have hcursor := (h.cursor.turn hlast hturn).1
  have hlater : (∀ f, 0 < f → f < core.firstNotFinalisedFrame →
      core.frameItems f = []) → core'.FrameZeroSuffices := by
    intro hempty
    right
    rw [hsame.firstNotFinalisedFrame, hsame.frameItems_eq]
    exact hempty
  rcases h.place with hat | hpast
  · obtain ⟨hplace, hrest⟩ := hat.turn hlast hturn
    refine ⟨⟨hcursor, hplace⟩, ?_⟩
    rintro rfl
    rcases hsafe with hne | hempty
    · rw [List.nil_append] at hrest
      exact Or.inl (hrest ▸ hne)
    · exact hlater hempty
  · have hempty := hsafe.resolve_left (fun hne => hne hpast.rest_eq_nil)
    obtain ⟨rfl, hpast'⟩ := hpast.turn h.cursor hlast hempty hturn
    rw [List.append_nil]
    exact ⟨⟨hcursor, Or.inr hpast'⟩, fun _ => hlater hempty⟩

/-- The items of frame 0 come first. -/
theorem finalisedItems_eq (h : 0 < core.firstNotFinalisedFrame) :
    ∃ later, core.finalisedItems = core.frameItems 0 ++ later ∧
      ((∀ f, 0 < f → f < core.firstNotFinalisedFrame → core.frameItems f = []) →
        later = []) := by
  obtain ⟨n, hn⟩ := Nat.exists_eq_succ_of_ne_zero h.ne'
  refine ⟨((List.range n).map Nat.succ).flatMap core.frameItems, ?_, ?_⟩
  · rw [DAGcore.finalisedItems, hn, List.range_succ_eq_map, List.flatMap_cons]
  · intro hempty
    rw [List.flatMap_eq_nil_iff]
    intro f hf
    obtain ⟨g, hg, rfl⟩ := List.mem_map.mp hf
    have hlt := List.mem_range.mp hg
    exact hempty (g + 1) (Nat.succ_pos g) (by omega)

theorem DeliveryInv.prefix_finalisedItems (h : DeliveryInv out core) :
    out <+: core.finalisedItems := by
  rcases h.place with hat | hpast
  · rcases Nat.eq_zero_or_pos core.firstNotFinalisedFrame with hzero | hpos
    · rw [(hat.started hzero).2]
      exact List.nil_prefix
    · obtain ⟨later, hitems, _⟩ := finalisedItems_eq hpos
      rw [hitems, ← hat.items hpos, List.append_assoc]
      exact List.prefix_append _ _
  · obtain ⟨later, hitems, _⟩ := finalisedItems_eq hpast.finalised
    rw [hitems, hpast.items]
    exact List.prefix_append _ _

/-- A call made while frame 0 suffices keeps the invariant, and returns `Pending`
only when everything is delivered. -/
theorem DeliveryInv.poll (h : DeliveryInv out core)
    (hsafe : core.FrameZeroSuffices) {waker : Nat} {poll : Poll (D × P)}
    (hpoll : core.pollNext waker = (.ok poll, core')) :
    DeliveryInv (out ++ poll.items) core' ∧
      (poll = .pending → out = core.finalisedItems) := by
  rcases pollNext_eq_ok hpoll with ⟨rfl, rfl⟩ | ⟨hlast, rfl, rfl⟩ |
    ⟨last, hlast, hloop⟩
  · refine ⟨?_, fun h => by cases h⟩
    change DeliveryInv (out ++ []) core'
    rwa [List.append_nil]
  · have hzero : core.firstNotFinalisedFrame = 0 := by
      rw [DAGcore.firstNotFinalisedFrame, hlast]
    constructor
    · change DeliveryInv (out ++ []) _
      rw [List.append_nil]
      exact h.of_sameNode (setWaker_sameNode core waker) rfl
    · intro _
      rcases h.place with hat | hpast
      · rw [(hat.started hzero).2, DAGcore.finalisedItems, hzero]
        rfl
      · exact absurd hpast.finalised (by omega)
  · -- the invariant of the loop: nothing was delivered, and frame 0 suffices
    obtain ⟨core₁, ⟨hinv, hsafe₁, hsame⟩, hend⟩ := pollLoop_induct
      (I := fun c => DeliveryInv out c ∧ c.FrameZeroSuffices ∧ core.SameNode c)
      (by
        rintro c c' ⟨hinv, hsafe, hsame⟩ hturn
        have hstep := hinv.turn hsafe (hsame.last.trans hlast) hturn
        rw [List.append_nil] at hstep
        exact ⟨hstep.1, hstep.2 rfl, hsame.trans (pollTurn_sameNode hturn)⟩)
      hloop ⟨h, hsafe, SameNode.refl core⟩
    rcases hend with ⟨rfl, hreading, rfl⟩ | ⟨item, core₂, rfl, hturn, rfl⟩
    · constructor
      · change DeliveryInv (out ++ []) _
        rw [List.append_nil]
        exact hinv.of_sameNode (setWaker_sameNode core₁ waker) rfl
      · intro _
        rcases hinv.place with hat | hpast
        · obtain ⟨event, hevent⟩ := hat.event
          rw [reading, DAGcore.cursor] at hreading
          simp only [hevent] at hreading
          cases hreading
        · have hempty := hsafe₁.resolve_left (fun hne => hne hpast.rest_eq_nil)
          obtain ⟨later, hitems, hlater⟩ := finalisedItems_eq hpast.finalised
          have hall : core.finalisedItems = core₁.finalisedItems := by
            unfold DAGcore.finalisedItems
            rw [hsame.firstNotFinalisedFrame, hsame.frameItems_eq]
          rw [hall, hitems, hlater hempty, List.append_nil]
          exact hpast.items
    · refine ⟨?_, fun h => by cases h⟩
      have hstep := (hinv.turn hsafe₁ (hsame.last.trans hlast) hturn).1
      exact hstep.of_sameNode (setWaker_sameNode core₂ waker) rfl

theorem StreamRun.deliveryInv (h : StreamRun DAGcore.FrameZeroSuffices out core) :
    DeliveryInv out core := by
  induction h with
  | start hfresh => exact DeliveryInv.of_fresh hfresh
  | finalise _ hfin ih => exact ih.finalise hfin
  | poll waker _ hsafe hpoll ih => exact (ih.poll hsafe hpoll).1

/-- In a run whose calls are all made while frame 0 suffices, the items delivered
are a prefix of those of the finalised frames, and such a call returns `Pending`
only when all of these are delivered. -/
theorem delivered_prefix_of_frameZeroSuffices
    (h : StreamRun DAGcore.FrameZeroSuffices out core) :
    out <+: core.finalisedItems ∧
      ∀ waker core', core.FrameZeroSuffices →
        core.pollNext waker = (.ok .pending, core') →
        out = core.finalisedItems :=
  ⟨h.deliveryInv.prefix_finalisedItems, fun _ _ hsafe hpoll =>
    (h.deliveryInv.poll hsafe hpoll).2 rfl⟩

end Delivered

namespace TwoPeers

/-- An event of frame 0 with a transaction, in the place of `b₁`: it does not
see the other peer's leaf. -/
def b₀ : Event Nat Nat Unit Nat Unit := Event.new 1 1 3 3 1 [7] []

/-- What has to be looked up for the finalisation point to move from a new node
to `core`. -/
theorem finalises_of_start {core : Core}
    (hcursor : core.cursor = ⟨none, some 0, some 0⟩)
    (hframes : ∀ f < core.firstNotFinalisedFrame,
      (core.store.getFrame f).events ≠ [] ∧
        ∀ record ∈ (core.store.getFrame f).events,
          (core.store.event (.hash record.hash)).isSome) :
    (start 0).Finalises core where
  cursor := hcursor
  le := Nat.zero_le _
  frame_kept _ hf := absurd hf (Nat.not_lt_zero _)
  event_kept _ hf := absurd hf (Nat.not_lt_zero _)
  nonempty f hf := (hframes f hf).1
  stored f hf record hrecord :=
    Option.isSome_iff_exists.mp ((hframes f hf).2 record hrecord)

theorem start_fresh : (start 0).Fresh := ⟨rfl, rfl⟩

/-- A call steps over the two leaves that come first in frame 0. -/
theorem pollNext_leaves (core : Core) (last : Nat)
    (hshutdown : core.shutdown = false)
    (hlast : core.lastFinalisedFrame = some last)
    (hcursor : core.cursor = ⟨none, some 0, some 0⟩)
    {rest : List (FrameRecord Nat)}
    (hframe : (core.store.getFrame 0).events = ⟨1, 0⟩ :: ⟨3, 0⟩ :: rest)
    (hleaf₁ : (core.store.event (.hash 1)).map Event.items = some [])
    (hleaf₂ : (core.store.event (.hash 3)).map Event.items = some []) :
    ∃ core' : Core, core.SameNode core' ∧ core'.shutdown = false ∧
      core'.cursor = (if 0 < rest.length then ⟨none, some 2, some 0⟩
        else ⟨some 1, none, some 0⟩) ∧
      core.pollNext 0 = core'.pollLoop 0 last := by
  have hframe₀ := congrArg Cursor.frame hcursor
  have htx₀ := congrArg Cursor.tx hcursor
  simp only [cursor] at hframe₀ htx₀
  let next := core.advance 0 0 0 (rest.length + 2) 0
  have hturn₁ : core.pollTurn 0 last = .again next := by
    have hreading : reading last core.cursor = some (0, 0) := by rw [hcursor]; rfl
    have hrecord : (core.store.getFrame 0).events[0]? = some ⟨1, 0⟩ := by
      rw [hframe]
      rfl
    rw [pollTurn_eq_again hreading hrecord hleaf₁, htx₀, hframe]
    rfl
  have hsame₁ : core.SameNode next := advance_sameNode _ _ _ _ _ _
  have hcursor₁ : next.cursor = ⟨none, some 1, some 0⟩ := by
    rw [advance_cursor, hframe₀]
    simp
  have htx₁ := congrArg Cursor.tx hcursor₁
  have hframe₁ := congrArg Cursor.frame hcursor₁
  simp only [cursor] at htx₁ hframe₁
  let last' := next.advance 0 1 0 (rest.length + 2) 0
  have hturn₂ : next.pollTurn 0 last = .again last' := by
    have hreading : reading last next.cursor = some (0, 1) := by rw [hcursor₁]; rfl
    have hrecord : (next.store.getFrame 0).events[1]? = some ⟨3, 0⟩ := by
      rw [hsame₁.store, hframe]
      rfl
    rw [← hsame₁.store] at hleaf₂
    rw [pollTurn_eq_again hreading hrecord hleaf₂, htx₁, hsame₁.store, hframe]
    rfl
  refine ⟨last', hsame₁.trans (advance_sameNode _ _ _ _ _ _), ?_, ?_, ?_⟩
  · rw [advance_shutdown, advance_shutdown, hshutdown]
  · rw [advance_cursor, hframe₁]
    simp
  · rw [pollNext_of_last hshutdown hlast, pollLoop_of_again next hturn₁,
      pollLoop_of_again last' hturn₂]

/-- One finalised frame with one transaction, and one call that delivers it. -/
theorem delivered_prefix_one_frame :
    ∃ core : Core, [(7, 1)] <+: core.finalisedItems ∧
      ∀ waker core', core.FrameZeroSuffices →
        core.pollNext waker = (.ok .pending, core') →
        [(7, 1)] = core.finalisedItems := by
  have hfinalises : (start 0).Finalises (after (start 0) [b₀, a₁, b₂]) :=
    finalises_of_start rfl (by decide +kernel)
  have hframe : ((after (start 0) [b₀, a₁, b₂]).store.getFrame 0).events =
      [⟨1, 0⟩, ⟨3, 0⟩, ⟨4, 1⟩] := by decide +kernel
  obtain ⟨core, hsame, -, hcursor, hcall⟩ := pollNext_leaves
    (after (start 0) [b₀, a₁, b₂]) 0 rfl rfl rfl hframe (by decide +kernel)
    (by decide +kernel)
  have hreading : reading 0 core.cursor = some (0, 2) := by rw [hcursor]; rfl
  have hrecord : (core.store.getFrame 0).events[2]? = some ⟨4, 1⟩ := by
    rw [hsame.store, hframe]
    rfl
  have hitems : (core.store.event (.hash 4)).map Event.items = some [(7, 1)] := by
    rw [hsame.store]
    decide +kernel
  have htx : core.currentTx = some 0 := congrArg Cursor.tx hcursor
  have hitem : [(7, 1)][core.currentTx.getD 0]? = some (7, 1) := by rw [htx]; rfl
  rw [pollLoop_of_data _ (pollTurn_eq_data hreading hrecord hitems hitem)] at hcall
  have hsuffices : (after (start 0) [b₀, a₁, b₂]).FrameZeroSuffices :=
    Or.inl (by decide +kernel)
  exact ⟨_, delivered_prefix_of_frameZeroSuffices
    (((StreamRun.start start_fresh).finalise hfinalises).poll 0 hsuffices hcall)⟩

/-- With frames 0 and 1 finalised, the first call runs past the two leaves of
frame 0 and stops before frame 1: it returns `Pending` and two transactions are
left. -/
theorem pending_before_frame_one :
    ¬ ∀ (out : List (Nat × Nat)) (core : Core),
      StreamRun (fun _ => True) out core →
      out <+: core.finalisedItems ∧
        ∀ waker core', core.pollNext waker = (.ok .pending, core') →
          out = core.finalisedItems := by
  intro hclaim
  have hfinalises : (start 0).Finalises (after (start 0) [b₁, a₁, b₂, a₂]) :=
    finalises_of_start rfl (by decide +kernel)
  have hframe : ((after (start 0) [b₁, a₁, b₂, a₂]).store.getFrame 0).events =
      [⟨1, 0⟩, ⟨3, 0⟩] := by decide +kernel
  obtain ⟨core, hsame, -, hcursor, hcall⟩ := pollNext_leaves
    (after (start 0) [b₁, a₁, b₂, a₂]) 1 rfl (by decide +kernel) rfl hframe
    (by decide +kernel) (by decide +kernel)
  have hturn : core.pollTurn 0 1 = .pending (core.setWaker 0) := by
    rw [pollTurn_eq, hcursor]
    rfl
  rw [pollLoop_of_pending _ hturn] at hcall
  have hall := (hclaim [] _ ((StreamRun.start start_fresh).finalise
    hfinalises)).2 0 _ hcall
  have hitems : (after (start 0) [b₁, a₁, b₂, a₂]).finalisedItems =
      [(7, 1), (8, 0)] := by decide +kernel
  rw [hitems] at hall
  cases hall

end TwoPeers

end ConsensusDag
