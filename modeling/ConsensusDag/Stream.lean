/-
The consumer's side: `poll_next` walks over the finalised frames with a cursor
of three optional fields and hands out one transaction at a time.
-/
import ConsensusDag.Core

namespace ConsensusDag

/-- What a call of `poll_next` returns. -/
inductive Poll (α : Type)
  | pending
  | ready (item : Option α)
deriving DecidableEq, Repr

/-- How one turn of the loop of `poll_next` ends. -/
inductive PollTurn (P D T H PK SK Sig : Type)
  | panic
  | pending (core : DAGcore P D T H PK SK Sig)
  | again (core : DAGcore P D T H PK SK Sig)
  | data (item : D × P) (core : DAGcore P D T H PK SK Sig)

variable {P D T H PK SK Sig : Type}

namespace DAGcore

def setWaker (core : DAGcore P D T H PK SK Sig) (waker : Nat) :
    DAGcore P D T H PK SK Sig :=
  { core with conf := { core.conf with waker := some waker } }

/-- Move the cursor on after transaction `currentTx` of an event.  The frame
number is written back only when the last event of a frame is done. -/
def advance (core : DAGcore P D T H PK SK Sig)
    (currentFrame currentEvent currentTx nEvents nTx : Nat) :
    DAGcore P D T H PK SK Sig :=
  let currentTx := currentTx + 1
  if currentTx < nTx then { core with currentTx := some currentTx }
  else
    let core := { core with currentTx := some 0 }
    let currentEvent := currentEvent + 1
    if currentEvent < nEvents then
      { core with currentEvent := some currentEvent }
    else
      { core with currentEvent := none, currentFrame := some (currentFrame + 1) }

/-- Read one event of a frame and its transaction under the cursor. -/
def readEvent (core : DAGcore P D T H PK SK Sig)
    (currentFrame currentEvent : Nat) : PollTurn P D T H PK SK Sig :=
  let currentTx := core.currentTx.getD 0
  let frame := core.store.getFrame currentFrame
  match frame.events[currentEvent]? with
  | none => .panic
  | some eventRecord =>
      match core.store.getEvent eventRecord.hash with
      | .error _ => .panic
      | .ok event =>
          let core' := core.advance currentFrame currentEvent currentTx
            frame.events.length event.transactions.length
          if event.transactions.length = 0 then .again core'
          else
            match event.transactions[currentTx]? with
            | none => .panic
            | some data => .data (data, event.creator) core'

/-- One turn of the loop.  Between two frames the frame number is incremented
once more before the event is read. -/
def pollTurn (waker lastFinalisedFrame : Nat)
    (core : DAGcore P D T H PK SK Sig) : PollTurn P D T H PK SK Sig :=
  let currentFrame := core.currentFrame.getD 0
  match core.currentEvent with
  | none =>
      if lastFinalisedFrame ≤ currentFrame then .pending (core.setWaker waker)
      else core.readEvent (currentFrame + 1) 0
  | some currentEvent => core.readEvent currentFrame currentEvent

/-- The events still to come in the frame under the cursor. -/
def pollRank (lastFinalisedFrame : Nat) (core : DAGcore P D T H PK SK Sig) :
    Nat :=
  let currentFrame := core.currentFrame.getD 0
  let nEvents := (core.store.getFrame currentFrame).events.length
  match core.currentEvent with
  | none => if lastFinalisedFrame ≤ currentFrame then 0 else nEvents + 1
  | some currentEvent => nEvents + 1 - currentEvent

/-- A turn over an event without transactions steps over the event. -/
theorem readEvent_eq_again {core core' : DAGcore P D T H PK SK Sig}
    {currentFrame currentEvent : Nat}
    (h : core.readEvent currentFrame currentEvent = .again core') :
    currentEvent < (core.store.getFrame currentFrame).events.length ∧
      core'.store = core.store ∧
      (currentEvent + 1 < (core.store.getFrame currentFrame).events.length ∧
          core'.currentEvent = some (currentEvent + 1) ∧
          core'.currentFrame = core.currentFrame ∨
        core'.currentEvent = none ∧
          core'.currentFrame = some (currentFrame + 1)) := by
  unfold readEvent at h
  simp only at h
  split at h
  · cases h
  · rename_i eventRecord hrecord
    have hlt := (List.getElem?_eq_some_iff.mp hrecord).1
    split at h
    · cases h
    · rename_i event _
      split at h
      · rename_i hnone
        cases h
        refine ⟨hlt, ?_, ?_⟩
        · unfold advance
          rw [hnone]
          simp only [Nat.not_lt_zero, ↓reduceIte]
          split <;> rfl
        · unfold advance
          rw [hnone]
          simp only [Nat.not_lt_zero, ↓reduceIte]
          split
          · rename_i hnext
            exact Or.inl ⟨hnext, rfl, rfl⟩
          · exact Or.inr ⟨rfl, rfl⟩
      · split at h <;> cases h

theorem pollTurn_again_lt {waker lastFinalisedFrame : Nat}
    {core core' : DAGcore P D T H PK SK Sig}
    (h : core.pollTurn waker lastFinalisedFrame = .again core') :
    Prod.Lex (· < ·) (· < ·)
      (lastFinalisedFrame + 1 - core'.currentFrame.getD 0,
        core'.pollRank lastFinalisedFrame)
      (lastFinalisedFrame + 1 - core.currentFrame.getD 0,
        core.pollRank lastFinalisedFrame) := by
  rw [Prod.lex_def]
  unfold pollTurn at h
  simp only at h
  split at h
  · rename_i hevent
    split at h
    · cases h
    · rename_i hframe
      obtain ⟨_, hstore, ⟨_, hev, hfr⟩ | ⟨hev, hfr⟩⟩ := readEvent_eq_again h
      · refine Or.inr ⟨by rw [hfr], ?_⟩
        simp only [pollRank, hstore, hev, hfr, hevent, hframe, ↓reduceIte]
        omega
      · left
        simp only [hfr, Option.getD_some]
        omega
  · rename_i x hevent
    obtain ⟨hlt, hstore, ⟨hnext, hev, hfr⟩ | ⟨hev, hfr⟩⟩ := readEvent_eq_again h
    · refine Or.inr ⟨by rw [hfr], ?_⟩
      simp only [pollRank, hstore, hev, hfr, hevent]
      omega
    · by_cases hend : lastFinalisedFrame ≤ core.currentFrame.getD 0 + 1
      · by_cases hin : core.currentFrame.getD 0 ≤ lastFinalisedFrame
        · left
          simp only [hfr, Option.getD_some]
          omega
        · refine Or.inr ⟨?_, ?_⟩
          · simp only [hfr, Option.getD_some]
            omega
          · simp only [pollRank, hev, hfr, hevent, Option.getD_some, hend,
              ↓reduceIte]
            omega
      · left
        simp only [hfr, Option.getD_some]
        omega

def pollLoop (waker lastFinalisedFrame : Nat)
    (core : DAGcore P D T H PK SK Sig) :
    Result (Poll (D × P)) × DAGcore P D T H PK SK Sig :=
  match _h : core.pollTurn waker lastFinalisedFrame with
  | .panic => (.error .panic, core)
  | .pending core' => (.ok .pending, core')
  | .again core' => pollLoop waker lastFinalisedFrame core'
  | .data item core' => (.ok (.ready (some item)), core'.setWaker waker)
termination_by
  (lastFinalisedFrame + 1 - core.currentFrame.getD 0,
    core.pollRank lastFinalisedFrame)
decreasing_by exact pollTurn_again_lt _h

theorem pollLoop_of_again {waker last : Nat}
    {core : DAGcore P D T H PK SK Sig} (core' : DAGcore P D T H PK SK Sig)
    (h : core.pollTurn waker last = .again core') :
    core.pollLoop waker last = core'.pollLoop waker last := by
  rw [pollLoop]
  split <;> simp_all

theorem pollLoop_of_pending {waker last : Nat}
    {core : DAGcore P D T H PK SK Sig} (core' : DAGcore P D T H PK SK Sig)
    (h : core.pollTurn waker last = .pending core') :
    core.pollLoop waker last = (.ok .pending, core') := by
  rw [pollLoop]
  split <;> simp_all

theorem pollLoop_of_data {waker last : Nat}
    {core : DAGcore P D T H PK SK Sig} (core' : DAGcore P D T H PK SK Sig)
    {item : D × P}
    (h : core.pollTurn waker last = .data item core') :
    core.pollLoop waker last =
      (.ok (.ready (some item)), core'.setWaker waker) := by
  rw [pollLoop]
  split <;> simp_all

/-- `poll_next`, with the calling task as argument.  The finalisation point is
read once, before the loop. -/
def pollNext (waker : Nat) (core : DAGcore P D T H PK SK Sig) :
    Result (Poll (D × P)) × DAGcore P D T H PK SK Sig :=
  if core.shutdown then (.ok (.ready none), core)
  else
    match core.lastFinalisedFrame with
    | none => (.ok .pending, core.setWaker waker)
    | some lastFinalisedFrame => core.pollLoop waker lastFinalisedFrame

end DAGcore

end ConsensusDag
