/-
What a turn of the loop of `poll_next`, and a whole call, do to the cursor.
-/
import ConsensusDag.Stream

namespace ConsensusDag

variable {P D T H PK SK Sig : Type}

/-- The three optional fields with which the stream walks over the frames. -/
structure Cursor where
  frame : Option Nat
  event : Option Nat
  tx : Option Nat
deriving DecidableEq, Repr

/-- The transactions of an event as the stream hands them out. -/
def Event.items (event : Event P D T H Sig) : List (D × P) :=
  event.transactions.map fun data => (data, event.creator)

/-- What a call of `poll_next` delivers. -/
def Poll.items {α : Type} : Poll α → List α
  | .ready (some item) => [item]
  | _ => []

/-- The items a turn delivers and the state it leads to, when the loop does not
end with it in `Pending` or a panic. -/
def PollTurn.result : PollTurn P D T H PK SK Sig →
    Option (List (D × P) × DAGcore P D T H PK SK Sig)
  | .again core => some ([], core)
  | .data item core => some ([item], core)
  | _ => none

theorem PollTurn.result_again {turn : PollTurn P D T H PK SK Sig}
    {core : DAGcore P D T H PK SK Sig} (h : turn.result = some ([], core)) :
    turn = .again core := by
  cases turn <;> cases h
  rfl

theorem PollTurn.result_data {turn : PollTurn P D T H PK SK Sig} {item : D × P}
    {core : DAGcore P D T H PK SK Sig} (h : turn.result = some ([item], core)) :
    turn = .data item core := by
  cases turn <;> cases h
  rfl

namespace DAGcore

def cursor (core : DAGcore P D T H PK SK Sig) : Cursor :=
  ⟨core.currentFrame, core.currentEvent, core.currentTx⟩

/-- Two states that differ in the cursor and the waker only. -/
structure SameNode (core core' : DAGcore P D T H PK SK Sig) : Prop where
  store : core'.store = core.store
  peers : core'.conf.peers = core.conf.peers
  last : core'.lastFinalisedFrame = core.lastFinalisedFrame
  log : core'.finalisedLog = core.finalisedLog

theorem SameNode.refl (core : DAGcore P D T H PK SK Sig) : core.SameNode core :=
  ⟨rfl, rfl, rfl, rfl⟩

theorem SameNode.trans {core core' core'' : DAGcore P D T H PK SK Sig}
    (h : core.SameNode core') (h' : core'.SameNode core'') :
    core.SameNode core'' :=
  ⟨h'.store.trans h.store, h'.peers.trans h.peers, h'.last.trans h.last,
    h'.log.trans h.log⟩

theorem SameNode.firstNotFinalisedFrame {core core' : DAGcore P D T H PK SK Sig}
    (h : core.SameNode core') :
    core'.firstNotFinalisedFrame = core.firstNotFinalisedFrame := by
  unfold DAGcore.firstNotFinalisedFrame
  rw [h.last]

theorem setWaker_sameNode (core : DAGcore P D T H PK SK Sig) (waker : Nat) :
    core.SameNode (core.setWaker waker) :=
  ⟨rfl, rfl, rfl, rfl⟩

section Turn

variable {core core' : DAGcore P D T H PK SK Sig}

theorem advance_sameNode (core : DAGcore P D T H PK SK Sig)
    (frame event tx nEvents nTx : Nat) :
    core.SameNode (core.advance frame event tx nEvents nTx) := by
  unfold advance
  simp only
  split
  · exact ⟨rfl, rfl, rfl, rfl⟩
  · split <;> exact ⟨rfl, rfl, rfl, rfl⟩

theorem advance_shutdown (core : DAGcore P D T H PK SK Sig)
    (frame event tx nEvents nTx : Nat) :
    (core.advance frame event tx nEvents nTx).shutdown = core.shutdown := by
  unfold advance
  simp only
  split
  · rfl
  · split <;> rfl

theorem advance_cursor (core : DAGcore P D T H PK SK Sig)
    (frame event tx nEvents nTx : Nat) :
    (core.advance frame event tx nEvents nTx).cursor =
      if tx + 1 < nTx then ⟨core.currentFrame, core.currentEvent, some (tx + 1)⟩
      else if event + 1 < nEvents then
        ⟨core.currentFrame, some (event + 1), some 0⟩
      else ⟨some (frame + 1), none, some 0⟩ := by
  unfold advance
  simp only
  split
  · rfl
  · split <;> rfl

/-- The frame and the event that a turn reads; `none` when it ends in
`Pending`. -/
def reading (lastFinalisedFrame : Nat) (cursor : Cursor) : Option (Nat × Nat) :=
  let currentFrame := cursor.frame.getD 0
  match cursor.event with
  | none =>
      if lastFinalisedFrame ≤ currentFrame then none
      else some (currentFrame + 1, 0)
  | some currentEvent => some (currentFrame, currentEvent)

theorem pollTurn_eq (waker last : Nat) (core : DAGcore P D T H PK SK Sig) :
    core.pollTurn waker last =
      match reading last core.cursor with
      | none => .pending (core.setWaker waker)
      | some (frame, event) => core.readEvent frame event := by
  unfold pollTurn reading cursor
  simp only
  cases core.currentEvent with
  | none =>
      simp only
      split <;> rfl
  | some event => rfl

/-- Reading an event delivers the transaction under the cursor, if the event has
any, and moves the cursor on. -/
theorem readEvent_result {frame event : Nat} {items : List (D × P)}
    (h : (core.readEvent frame event).result = some (items, core')) :
    ∃ record e, (core.store.getFrame frame).events[event]? = some record ∧
      core.store.event (.hash record.hash) = some e ∧
      items = (e.items[core.currentTx.getD 0]?).toList ∧
      (e.transactions = [] ∨ core.currentTx.getD 0 < e.transactions.length) ∧
      core' = core.advance frame event (core.currentTx.getD 0)
        (core.store.getFrame frame).events.length e.transactions.length := by
  unfold readEvent at h
  simp only at h
  split at h
  · cases h
  · rename_i record hrecord
    split at h
    · cases h
    · rename_i e he
      have hstored := SledStore.getEvent_eq_ok.mp he
      split at h
      · rename_i hnone
        have hnil := List.eq_nil_of_length_eq_zero hnone
        cases h
        exact ⟨record, e, hrecord, hstored, by simp [Event.items, hnil],
          Or.inl hnil, rfl⟩
      · split at h
        · cases h
        · rename_i data hdata
          cases h
          refine ⟨record, e, hrecord, hstored, ?_, Or.inr ?_, rfl⟩
          · simp [Event.items, hdata]
          · exact (List.getElem?_eq_some_iff.mp hdata).1

theorem pollTurn_result {waker last : Nat} {items : List (D × P)}
    (h : (core.pollTurn waker last).result = some (items, core')) :
    ∃ frame event, reading last core.cursor = some (frame, event) ∧
      (core.readEvent frame event).result = some (items, core') := by
  rw [pollTurn_eq] at h
  split at h
  · cases h
  · rename_i frame event hreading
    exact ⟨frame, event, hreading, h⟩

/-- Only a turn that reads nothing ends in `Pending`. -/
theorem pollTurn_pending {waker last : Nat}
    (h : core.pollTurn waker last = .pending core') :
    reading last core.cursor = none ∧ core' = core.setWaker waker := by
  rw [pollTurn_eq] at h
  split at h
  · rename_i hreading
    cases h
    exact ⟨hreading, rfl⟩
  · rename_i frame event _
    unfold readEvent at h
    simp only at h
    split at h
    · cases h
    · split at h
      · cases h
      · split at h
        · cases h
        · split at h <;> cases h

/-- A turn over a stored event without transactions. -/
theorem pollTurn_eq_again {waker last frame event : Nat} {record : FrameRecord H}
    (hreading : reading last core.cursor = some (frame, event))
    (hrecord : (core.store.getFrame frame).events[event]? = some record)
    (hitems : (core.store.event (.hash record.hash)).map Event.items = some []) :
    core.pollTurn waker last = .again (core.advance frame event
      (core.currentTx.getD 0) (core.store.getFrame frame).events.length 0) := by
  obtain ⟨e, he, hnil⟩ := Option.map_eq_some_iff.mp hitems
  have hlength : e.transactions.length = 0 := by
    rw [List.length_eq_zero_iff]
    exact List.map_eq_nil_iff.mp hnil
  rw [pollTurn_eq, hreading]
  simp only [readEvent, hrecord, SledStore.getEvent_eq_ok.mpr he, hlength,
    ↓reduceIte]

/-- A turn over a stored event with a transaction under the cursor. -/
theorem pollTurn_eq_data {waker last frame event : Nat} {record : FrameRecord H}
    {items : List (D × P)} {item : D × P}
    (hreading : reading last core.cursor = some (frame, event))
    (hrecord : (core.store.getFrame frame).events[event]? = some record)
    (hitems : (core.store.event (.hash record.hash)).map Event.items = some items)
    (hitem : items[core.currentTx.getD 0]? = some item) :
    core.pollTurn waker last = .data item (core.advance frame event
      (core.currentTx.getD 0) (core.store.getFrame frame).events.length
      items.length) := by
  obtain ⟨e, he, rfl⟩ := Option.map_eq_some_iff.mp hitems
  rw [Event.items, List.getElem?_map, Option.map_eq_some_iff] at hitem
  obtain ⟨data, hdata, rfl⟩ := hitem
  have hlt := (List.getElem?_eq_some_iff.mp hdata).1
  rw [pollTurn_eq, hreading]
  simp only [readEvent, hrecord, SledStore.getEvent_eq_ok.mpr he, hdata,
    Event.items, List.length_map]
  rw [if_neg (by omega)]

theorem pollTurn_sameNode {waker last : Nat} {items : List (D × P)}
    (h : (core.pollTurn waker last).result = some (items, core')) :
    core.SameNode core' := by
  obtain ⟨frame, event, _, hread⟩ := pollTurn_result h
  obtain ⟨_, _, _, _, _, _, rfl⟩ := readEvent_result hread
  exact advance_sameNode _ _ _ _ _ _

end Turn

section Loop

/-- What holds before every turn of the loop that is not the last holds before
the last one. -/
theorem pollLoop_induct {waker last : Nat}
    {I : DAGcore P D T H PK SK Sig → Prop}
    (hagain : ∀ core core', I core →
      (core.pollTurn waker last).result = some ([], core') → I core')
    {core core' : DAGcore P D T H PK SK Sig} {poll : Poll (D × P)}
    (h : core.pollLoop waker last = (.ok poll, core')) (hI : I core) :
    ∃ core₁, I core₁ ∧
      (poll = .pending ∧ reading last core₁.cursor = none ∧
          core' = core₁.setWaker waker ∨
        ∃ item core₂, poll = .ready (some item) ∧
          (core₁.pollTurn waker last).result = some ([item], core₂) ∧
          core' = core₂.setWaker waker) := by
  fun_induction pollLoop waker last core with
  | case1 core hturn => cases h
  | case2 core core₁ hturn =>
      cases h
      exact ⟨core, hI, Or.inl ⟨rfl, pollTurn_pending hturn⟩⟩
  | case3 core core₁ hturn ih =>
      exact ih h (hagain core core₁ hI (by rw [hturn]; rfl))
  | case4 core item core₂ hturn =>
      cases h
      exact ⟨core, hI, Or.inr ⟨item, core₂, rfl, by rw [hturn]; rfl, rfl⟩⟩

/-- The loop does not panic when no turn of it does. -/
theorem pollLoop_ok {waker last : Nat} {I : DAGcore P D T H PK SK Sig → Prop}
    (hturn : ∀ core, I core → reading last core.cursor = none ∨
      ∃ items core', (core.pollTurn waker last).result = some (items, core') ∧
        I core')
    {core : DAGcore P D T H PK SK Sig} (hI : I core) :
    ∃ poll core', core.pollLoop waker last = (.ok poll, core') := by
  fun_induction pollLoop waker last core with
  | case1 core hpanic =>
      rcases hturn core hI with hreading | ⟨items, core', hresult, -⟩
      · rw [pollTurn_eq, hreading] at hpanic
        cases hpanic
      · rw [hpanic] at hresult
        cases hresult
  | case2 core core' _ => exact ⟨.pending, core', rfl⟩
  | case3 core core' hagain ih =>
      rcases hturn core hI with hreading | ⟨items, core'', hresult, hI'⟩
      · rw [pollTurn_eq, hreading] at hagain
        cases hagain
      · rw [hagain] at hresult
        cases hresult
        exact ih hI'
  | case4 core item core' _ => exact ⟨.ready (some item), core'.setWaker waker, rfl⟩

/-- A call of `poll_next` either leaves the cursor alone and delivers nothing,
or runs the loop up to the current finalisation point. -/
theorem pollNext_eq_ok {waker : Nat} {core core' : DAGcore P D T H PK SK Sig}
    {poll : Poll (D × P)} (h : core.pollNext waker = (.ok poll, core')) :
    poll = .ready none ∧ core' = core ∨
      core.lastFinalisedFrame = none ∧ poll = .pending ∧
        core' = core.setWaker waker ∨
      ∃ last, core.lastFinalisedFrame = some last ∧
        core.pollLoop waker last = (.ok poll, core') := by
  unfold pollNext at h
  split at h
  · cases h
    exact Or.inl ⟨rfl, rfl⟩
  · split at h
    · rename_i hlast
      cases h
      exact Or.inr (Or.inl ⟨hlast, rfl, rfl⟩)
    · rename_i last hlast
      exact Or.inr (Or.inr ⟨last, hlast, h⟩)

/-- With the finalisation point set and no shutdown, a call runs the loop. -/
theorem pollNext_of_last {waker last : Nat} {core : DAGcore P D T H PK SK Sig}
    (hshutdown : core.shutdown = false)
    (hlast : core.lastFinalisedFrame = some last) :
    core.pollNext waker = core.pollLoop waker last := by
  unfold pollNext
  rw [hshutdown, hlast]
  rfl

end Loop

end DAGcore

end ConsensusDag
