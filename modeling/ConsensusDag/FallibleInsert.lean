/-
`insert_event` when hashing, signing and each access to the store can fail.  The
writes are made one by one, and an error in between leaves those made before.
-/
import ConsensusDag.Lib.FallibleCall
import ConsensusDag.Redelivery

namespace ConsensusDag

open FallibleCalls AssocTables

/-- How a value gets into a sled tree. -/
inductive WriteStep
  | serialize
  | insert
  | flush
deriving DecidableEq, Repr

/-- The operations of `insert_event` that can fail; each is carried out at most
once in a call. -/
inductive Operation (H : Type)
  | eventHash
  | getSelfParent
  | getOtherParent
  | getSelfParentFlagTable
  | getOtherParentFlagTable
  | getRoot (ex : H)
  | setFlagTable (step : WriteStep)
  | sign
  | serializeEvent
  | insertByHash
  | insertByCreator
  | flushEvents
  | getFrame
  | setFrame (step : WriteStep)
  | getVisibleRoot (ex : H)
  | getFinalised (frame : Nat)
  | setFinalised (frame : Nat) (step : WriteStep)
deriving DecidableEq

/-- The operations that fail in a call, and their errors. -/
abbrev Faults (H : Type) := Operation H → Option Error

/-- An operation that goes through unless there is a fault. -/
def checkFault : Option Error → Result Unit
  | some err => .error (.err err)
  | none => .ok ()

variable {P D T H PK SK Sig : Type}

namespace SledStore

variable [DecidableEq P]

/-- A read that fails is logged, and its entry is passed over. -/
def deriveStepWith (fault : Option Error) (env : Env P D T H PK SK Sig)
    (store : SledStore P D T H Sig) (minFrame : Nat)
    (result : CreatorFlagTable P) (key : H) (value : Nat) :
    Result (CreatorFlagTable P) :=
  match fault with
  | none => store.deriveStep env minFrame result key value
  -- the error comes from a linked crate, so it is not compared with `NoneError`
  | some _ => pure result

def deriveCreatorFlagTableWith (faults : H → Option Error)
    (env : Env P D T H PK SK Sig) (store : SledStore P D T H Sig)
    (ft : FlagTable H) (minFrame : Nat) : Result (CreatorFlagTable P) :=
  ft.entries.foldlM
    (fun result entry => store.deriveStepWith (faults entry.1) env minFrame result
      entry.1 entry.2) ∅

end SledStore

namespace DAGcore

section Writes

variable [DecidableEq P] [DecidableEq H]

def putFlagTable (eventHash : H) (ft : FlagTable H)
    (core : DAGcore P D T H PK SK Sig) : DAGcore P D T H PK SK Sig :=
  { core with store := core.store.setFlagTable eventHash ft }

/-- One of the two writes of an event in `set_event`. -/
def putEvent (key : EventKey P H) (e : Event P D T H Sig)
    (core : DAGcore P D T H PK SK Sig) : DAGcore P D T H PK SK Sig :=
  { core with
    store := { core.store with event := core.store.event.insert key e } }

/-- The last write of `set_event`. -/
def putRecord (e : Event P D T H Sig) (core : DAGcore P D T H PK SK Sig) :
    DAGcore P D T H PK SK Sig :=
  let frame := (core.store.frame e.frameNumber).getD default
  let record : FrameRecord H := ⟨e.hash, e.lamportTimestamp⟩
  { core with
    store := { core.store with
      frame := core.store.frame.insert e.frameNumber
        ⟨frame.events ++ [record]⟩ } }

/-- The three writes of `set_event`. -/
def eventWrites (e : Event P D T H Sig) :
    List (DAGcore P D T H PK SK Sig → DAGcore P D T H PK SK Sig) :=
  [putEvent (.hash e.hash) e, putEvent (.creator e.creator e.height) e,
    putRecord e]

end Writes

section Frames

variable [LinearOrder H]

def logFinalised (frame : Nat) (core : DAGcore P D T H PK SK Sig) :
    DAGcore P D T H PK SK Sig :=
  { core with finalisedLog := core.finalisedLog ++ [frame] }

def sortFrame (frame : Nat) (core : DAGcore P D T H PK SK Sig) :
    DAGcore P D T H PK SK Sig :=
  { core with
    store := core.store.setFrame frame (core.store.getFrame frame).finalise }

def passFrame (frame : Nat) (core : DAGcore P D T H PK SK Sig) :
    DAGcore P D T H PK SK Sig :=
  { core with
    lastFinalisedFrame := some frame
    conf := { core.conf with waker := none }
    wakes := core.wakes ++ core.conf.waker.toList }

/-- What one turn of the finalisation loop does, step by step. -/
def frameWrites (frame : Nat) :
    List (DAGcore P D T H PK SK Sig → DAGcore P D T H PK SK Sig) :=
  [logFinalised frame, sortFrame frame, passFrame frame]

end Frames

section Calls

abbrev InsertCall (P D T H PK SK Sig : Type) :=
  Call Failure (DAGcore P D T H PK SK Sig)

def fails (fault : Option Error) : InsertCall P D T H PK SK Sig Unit :=
  Call.attempt (fault.map Failure.err)

/-- Serialize a value, insert it and flush the tree. -/
def putWith (faults : WriteStep → Option Error)
    (write : DAGcore P D T H PK SK Sig → DAGcore P D T H PK SK Sig) :
    InsertCall P D T H PK SK Sig Unit := do
  fails (faults .serialize)
  fails (faults .insert)
  modify write
  fails (faults .flush)

def setEventWith [DecidableEq P] [DecidableEq H] (faults : Faults H)
    (e : Event P D T H Sig) : InsertCall P D T H PK SK Sig Unit := do
  fails (faults .serializeEvent)
  fails (faults .insertByHash)
  modify (putEvent (.hash e.hash) e)
  fails (faults .insertByCreator)
  modify (putEvent (.creator e.creator e.height) e)
  fails (faults .flushEvents)
  fails (faults .getFrame)
  putWith (fun step => faults (.setFrame step)) (putRecord e)

def finaliseFrameWith [LinearOrder H] (faults : Faults H) (frame : Nat) :
    InsertCall P D T H PK SK Sig Unit := do
  fails (faults (.getFinalised frame))
  modify (logFinalised frame)
  putWith (fun step => faults (.setFinalised frame step)) (sortFrame frame)
  modify (passFrame frame)

variable [LinearOrder P] [LinearOrder H]

def rootAndFrameWith (faults : Faults H) (env : Env P D T H PK SK Sig)
    (core : DAGcore P D T H PK SK Sig)
    (selfParentEvent otherParentEvent : Event P D T H Sig)
    (selfParentFt otherParentFt : FlagTable H) : Result (Bool × Nat) :=
  match compare selfParentEvent.frameNumber otherParentEvent.frameNumber with
  | .eq => do
      let rootFlagTable := strictMergeFlagTable selfParentFt otherParentFt
        selfParentEvent.frameNumber
      let creatorRootFlagTable ← core.store.deriveCreatorFlagTableWith
        (fun ex => faults (.getRoot ex)) env rootFlagTable
        selfParentEvent.frameNumber
      if core.conf.peers.rootMajority ≤ creatorRootFlagTable.entries.length then
        pure (true, selfParentEvent.frameNumber + 1)
      else pure (false, selfParentEvent.frameNumber)
  | .gt => pure (false, selfParentEvent.frameNumber)
  | .lt => pure (true, otherParentEvent.frameNumber)

def prepareEventWith (faults : Faults H) (env : Env P D T H PK SK Sig)
    (core : DAGcore P D T H PK SK Sig) (event : Event P D T H Sig) :
    Result (H × Event P D T H Sig × FlagTable H) := do
  checkFault (faults .eventHash)
  let (eventHash, event) ← event.eventHash env
  checkFault (faults .getSelfParent)
  let selfParentEvent ← core.store.getEvent event.selfParent
  checkFault (faults .getOtherParent)
  let otherParentEvent ← core.store.getEvent event.otherParent
  checkFault (faults .getSelfParentFlagTable)
  let selfParentFt ← core.store.getFlagTable event.selfParent
  checkFault (faults .getOtherParentFlagTable)
  let otherParentFt ← core.store.getFlagTable event.otherParent
  let (root, frame) ← core.rootAndFrameWith faults env selfParentEvent
    otherParentEvent selfParentFt otherParentFt
  pure (eventHash, { event with frameNumber := frame },
    core.visibilisFlagTable selfParentFt otherParentFt root eventHash frame)

def signEventWith (faults : Faults H) (env : Env P D T H PK SK Sig)
    (conf : DAGconfig P PK SK) (eventHash : H) (event : Event P D T H Sig) :
    Result (Event P D T H Sig) := do
  checkFault (faults .sign)
  signEvent env conf eventHash event

def framesToFinaliseWith (faults : Faults H) (env : Env P D T H PK SK Sig)
    (core : DAGcore P D T H PK SK Sig) (visibilisFlagTable : FlagTable H)
    (firstNotFinalisedFrame : Nat) : Result (List Nat) := do
  let creatorVisibilisFlagTable ← core.store.deriveCreatorFlagTableWith
    (fun ex => faults (.getVisibleRoot ex)) env visibilisFlagTable
    (firstNotFinalisedFrame + 1)
  if core.conf.peers.len = creatorVisibilisFlagTable.entries.length then
    let frameUpto := minFrame creatorVisibilisFlagTable
    pure (List.range' firstNotFinalisedFrame
      (frameUpto - firstNotFinalisedFrame))
  else pure []

def insertEventWith (faults : Faults H) (env : Env P D T H PK SK Sig)
    (event : Event P D T H Sig) : InsertCall P D T H PK SK Sig Bool := do
  let core ← get
  let (eventHash, event, visibilisFlagTable) ←
    Call.ofExcept (core.prepareEventWith faults env event)
  putWith (fun step => faults (.setFlagTable step))
    (putFlagTable eventHash visibilisFlagTable)
  let event ← Call.ofExcept (signEventWith faults env core.conf eventHash event)
  setEventWith faults event
  let written ← get
  let frames ← Call.ofExcept (written.framesToFinaliseWith faults env
    visibilisFlagTable core.firstNotFinalisedFrame)
  frames.forM (finaliseFrameWith faults)
  pure true

/-- What a call writes, in this order, as far as it gets. -/
def insertWrites (faults : Faults H) (env : Env P D T H PK SK Sig)
    (event : Event P D T H Sig) (core : DAGcore P D T H PK SK Sig) :
    List (DAGcore P D T H PK SK Sig → DAGcore P D T H PK SK Sig) :=
  match core.prepareEventWith faults env event with
  | .error _ => []
  | .ok (eventHash, event, visibilisFlagTable) =>
      putFlagTable eventHash visibilisFlagTable ::
        match signEventWith faults env core.conf eventHash event with
        | .error _ => []
        | .ok event => eventWrites event ++
            match (core.written eventHash visibilisFlagTable
                event).framesToFinaliseWith faults env visibilisFlagTable
                core.firstNotFinalisedFrame with
            | .error _ => []
            | .ok frames => frames.flatMap frameWrites

end Calls

section NoFault

variable [LinearOrder P] [LinearOrder H] {env : Env P D T H PK SK Sig}
  {event : Event P D T H Sig} {core : DAGcore P D T H PK SK Sig}

theorem prepareEventWith_none :
    core.prepareEventWith (fun _ => none) env event =
      core.prepareEvent env event := rfl

theorem setEventWith_none (e : Event P D T H Sig) :
    (setEventWith (fun _ => none) e : InsertCall P D T H PK SK Sig Unit).outcome
      core = (.ok (), { core with store := core.store.setEvent e }) := rfl

omit [LinearOrder P] in
theorem forM_finaliseFrameWith_none (frames : List Nat) :
    (frames.forM (finaliseFrameWith fun _ => none) :
        InsertCall P D T H PK SK Sig Unit).outcome core =
      (.ok (), core.finaliseFrames frames) := by
  induction frames generalizing core with
  | nil => rfl
  | cons f rest ih =>
      change (finaliseFrameWith (fun _ => none) f >>= fun _ =>
        rest.forM (finaliseFrameWith fun _ => none)).outcome core = _
      have hturn : (finaliseFrameWith (fun _ => none) f :
          InsertCall P D T H PK SK Sig Unit).outcome core =
            (.ok (), core.finaliseFrame f) := rfl
      rw [Call.outcome_bind_ok hturn]
      exact ih

/-- Without faults this is `insert_event`. -/
theorem insertEventWith_none :
    (insertEventWith (fun _ => none) env event).outcome core =
      core.insertEvent env event := by
  unfold insertEventWith insertEvent
  rw [Call.outcome_bind_ok (Call.outcome_get core), prepareEventWith_none]
  cases core.prepareEvent env event with
  | error failure => rfl
  | ok prepared =>
      obtain ⟨k, event, ft⟩ := prepared
      rw [Call.outcome_bind_ok (Call.outcome_ofExcept _ core)]
      let tabled := core.putFlagTable k ft
      have hput : (putWith (fun _ => none) (putFlagTable k ft) :
          InsertCall P D T H PK SK Sig Unit).outcome core = (.ok (), tabled) := rfl
      have hsign : signEventWith (fun _ => none) env core.conf k event =
          signEvent env core.conf k event := rfl
      simp only [Call.outcome_bind_ok hput, hsign]
      cases signEvent env core.conf k event with
      | error failure => rfl
      | ok signed =>
          rw [Call.outcome_bind_ok (Call.outcome_ofExcept _ tabled),
            Call.outcome_bind_ok (setEventWith_none signed),
            Call.outcome_bind_ok (Call.outcome_get _)]
          have hframes : (core.written k ft signed).framesToFinaliseWith
              (fun _ => none) env ft core.firstNotFinalisedFrame =
                (core.written k ft signed).framesToFinalise env ft
                  core.firstNotFinalisedFrame := rfl
          change (Call.ofExcept ((core.written k ft signed).framesToFinaliseWith
            (fun _ => none) env ft core.firstNotFinalisedFrame) >>= _).outcome
              (core.written k ft signed) = match (core.written k ft
                signed).framesToFinalise env ft core.firstNotFinalisedFrame with
              | .error failure => (.error failure, core.written k ft signed)
              | .ok frames =>
                  (.ok true, (core.written k ft signed).finaliseFrames frames)
          rw [hframes]
          cases (core.written k ft signed).framesToFinalise env ft
            core.firstNotFinalisedFrame with
          | error failure => rfl
          | ok frames =>
              rw [Call.outcome_bind_ok (Call.outcome_ofExcept _ _),
                Call.outcome_bind_ok (forM_finaliseFrameWith_none frames)]
              rfl

end NoFault

section Performs

open Call

theorem performs_fails (fault : Option Error) (core : DAGcore P D T H PK SK Sig) :
    Performs (fails fault : InsertCall P D T H PK SK Sig Unit) [] core :=
  performs_attempt _ core

theorem performs_putWith (faults : WriteStep → Option Error)
    (write : DAGcore P D T H PK SK Sig → DAGcore P D T H PK SK Sig)
    (core : DAGcore P D T H PK SK Sig) :
    Performs (putWith faults write) [write] core :=
  (performs_fails _ core).bind fun _ => (performs_fails _ _).bind fun _ =>
    (performs_modify write _).bind fun _ => performs_fails _ _

theorem performs_setEventWith [DecidableEq P] [DecidableEq H] (faults : Faults H)
    (e : Event P D T H Sig) (core : DAGcore P D T H PK SK Sig) :
    Performs (setEventWith faults e) (eventWrites e) core :=
  (performs_fails _ core).bind fun _ => (performs_fails _ _).bind fun _ =>
    (performs_modify _ _).bind fun _ => (performs_fails _ _).bind fun _ =>
      (performs_modify _ _).bind fun _ => (performs_fails _ _).bind fun _ =>
        (performs_fails _ _).bind fun _ => performs_putWith _ _ _

theorem performs_finaliseFrameWith [LinearOrder H] (faults : Faults H) (f : Nat)
    (core : DAGcore P D T H PK SK Sig) :
    Performs (finaliseFrameWith faults f) (frameWrites f) core :=
  (performs_fails _ core).bind fun _ => (performs_modify _ _).bind fun _ =>
    (performs_putWith _ _ _).bind fun _ => performs_modify _ _

variable [LinearOrder P] [LinearOrder H] (faults : Faults H)
  (env : Env P D T H PK SK Sig) (event : Event P D T H Sig)
  (core : DAGcore P D T H PK SK Sig)

/-- A call of `insert_event` makes the writes of its list. -/
theorem performs_insertEventWith :
    Performs (insertEventWith faults env event)
      (core.insertWrites faults env event) core := by
  unfold insertEventWith
  apply Performs.get_bind
  unfold insertWrites
  cases hprepare : core.prepareEventWith faults env event with
  | error failure => exact performs_of_error rfl
  | ok prepared =>
      obtain ⟨k, event, ft⟩ := prepared
      apply Performs.of_read rfl
      refine (performs_putWith _ (putFlagTable k ft) core).bind fun _ => ?_
      cases hsign : signEventWith faults env core.conf k event with
      | error failure => exact performs_of_error rfl
      | ok signed =>
          apply Performs.of_read rfl
          refine (performs_setEventWith faults signed _).bind fun _ => ?_
          apply Performs.get_bind
          change Performs (ofExcept ((core.written k ft signed).framesToFinaliseWith
            faults env ft core.firstNotFinalisedFrame) >>= _) _
              (core.written k ft signed)
          cases (core.written k ft signed).framesToFinaliseWith faults env ft
            core.firstNotFinalisedFrame with
          | error failure => exact performs_of_error rfl
          | ok frames =>
              apply Performs.of_read rfl
              have hloop : Performs (frames.forM (finaliseFrameWith faults))
                  (frames.flatMap frameWrites) (core.written k ft signed) :=
                performs_forM (performs_finaliseFrameWith faults) _
              have hcall := hloop.bind fun _ => performs_pure true _
              rwa [List.append_nil] at hcall

end Performs

section Stages

variable [LinearOrder P] [LinearOrder H] {faults : Faults H}
  {env : Env P D T H PK SK Sig} {event : Event P D T H Sig}
  {core core' : DAGcore P D T H PK SK Sig} {k : H} {ft : FlagTable H}

/-- How far the writes of a call have come once the event is prepared. -/
inductive Partly (event : Event P D T H Sig) (k : H) (ft : FlagTable H)
    (core : DAGcore P D T H PK SK Sig) : DAGcore P D T H PK SK Sig → Prop
  | unchanged : Partly event k ft core core
  | tabled : Partly event k ft core (putFlagTable k ft core)
  | hashed {e : Event P D T H Sig} : e.hash = k →
      e.toHashEvent = event.toHashEvent →
      Partly event k ft core (putEvent (.hash e.hash) e (putFlagTable k ft core))
  | placed {e : Event P D T H Sig} : e.hash = k →
      e.toHashEvent = event.toHashEvent →
      Partly event k ft core (putEvent (.creator e.creator e.height) e
        (putEvent (.hash e.hash) e (putFlagTable k ft core)))
  | recorded {e : Event P D T H Sig} (frames : List Nat) (made : Nat) :
      e.hash = k → e.toHashEvent = event.toHashEvent →
      Partly event k ft core (applied ((frames.flatMap frameWrites).take made)
        (core.written k ft e))

/-- What a prepared event has read. -/
structure Prepared (event : Event P D T H Sig) (core : DAGcore P D T H PK SK Sig)
    (prepared : Event P D T H Sig) (k : H) (ft : FlagTable H) : Prop where
  hash : prepared.hash = k
  same : prepared.toHashEvent = event.toHashEvent
  read : ∃ s o sft oft root frame,
    core.store.event (.hash event.selfParent) = some s ∧
    core.store.event (.hash event.otherParent) = some o ∧
    core.store.flagTable event.selfParent = some sft ∧
    core.store.flagTable event.otherParent = some oft ∧
    ft = core.visibilisFlagTable sft oft root k frame

theorem prepareEventWith_eq_ok {prepared : Event P D T H Sig}
    (h : core.prepareEventWith faults env event = .ok (k, prepared, ft)) :
    env.eventHash event.toHashEvent = .ok k ∧ Prepared event core prepared k ft := by
  unfold prepareEventWith at h
  simp only [Result.bind_eq_ok, Prod.exists] at h
  obtain ⟨-, -, k', event', hhash, -, -, s, hs, -, -, o, ho, -, -, sft, hsft, -, -,
    oft, hoft, root, frame, -, h⟩ := h
  obtain ⟨hk, rfl⟩ := Event.eventHash_eq_ok.mp hhash
  cases h
  refine ⟨hk, rfl, rfl, s, o, sft, oft, root, frame, ?_, ?_, ?_, ?_, rfl⟩
  · exact SledStore.getEvent_eq_ok.mp hs
  · exact SledStore.getEvent_eq_ok.mp ho
  · exact SledStore.getFlagTable_eq_ok.mp hsft
  · exact SledStore.getFlagTable_eq_ok.mp hoft

omit [LinearOrder H] in
theorem signEventWith_eq_ok {conf : DAGconfig P PK SK} {prepared e : Event P D T H Sig}
    (h : signEventWith faults env conf k prepared = .ok e) :
    ∃ signatures, e = { prepared with signatures := signatures } := by
  unfold signEventWith at h
  rw [Result.bind_eq_ok] at h
  obtain ⟨-, -, h⟩ := h
  obtain ⟨signature, id, -, -, rfl⟩ := signEvent_eq_ok h
  exact ⟨_, rfl⟩

/-- Each beginning of the list of writes is one of these stages. -/
theorem partly_of_take {prepared : Event P D T H Sig}
    (h : core.prepareEventWith faults env event = .ok (k, prepared, ft))
    (made : Nat) : Partly event k ft core
      (applied ((core.insertWrites faults env event).take made) core) := by
  obtain ⟨-, hhash, hsame, -⟩ := prepareEventWith_eq_ok h
  unfold insertWrites
  simp only [h]
  match made with
  | 0 => exact .unchanged
  | made + 1 =>
      cases hsign : signEventWith faults env core.conf k prepared with
      | error failure =>
          simp only [List.take_succ_cons, List.take_nil]
          exact .tabled
      | ok e =>
          obtain ⟨signatures, rfl⟩ := signEventWith_eq_ok hsign
          simp only [List.take_succ_cons]
          match made with
          | 0 => exact .tabled
          | 1 => exact .hashed hhash hsame
          | 2 => exact .placed hhash hsame
          | made + 3 =>
              cases (core.written k ft { prepared with
                signatures := signatures }).framesToFinaliseWith faults env ft
                core.firstNotFinalisedFrame with
              | error failure => exact .recorded [] made hhash hsame
              | ok frames => exact .recorded frames made hhash hsame

omit [LinearOrder P] in
/-- The finalisation loop writes neither events nor flag tables, and keeps the
lengths of all frames. -/
theorem applied_frameWrites (core : DAGcore P D T H PK SK Sig) {frames : List Nat}
    {writes : List (DAGcore P D T H PK SK Sig → DAGcore P D T H PK SK Sig)}
    (hwrites : writes ⊆ frames.flatMap frameWrites) :
    (applied writes core).store.event = core.store.event ∧
      (applied writes core).store.flagTable = core.store.flagTable ∧
      ∀ f, ((applied writes core).store.getFrame f).events.length =
        (core.store.getFrame f).events.length := by
  refine applied_induct (I := fun t : DAGcore P D T H PK SK Sig =>
    t.store.event = core.store.event ∧
    t.store.flagTable = core.store.flagTable ∧
    ∀ f, (t.store.getFrame f).events.length =
      (core.store.getFrame f).events.length) ⟨rfl, rfl, fun _ => rfl⟩ ?_
  intro write hwrite t ht
  obtain ⟨f, -, hf⟩ := List.mem_flatMap.mp (hwrites hwrite)
  simp only [frameWrites, List.mem_cons, List.not_mem_nil, or_false] at hf
  rcases hf with rfl | rfl | rfl
  · exact ht
  · refine ⟨ht.1, ht.2.1, fun g => ?_⟩
    have hlength : ((t.sortFrame f).store.getFrame g).events.length =
        (t.store.getFrame g).events.length := by
      rw [sortFrame, SledStore.setFrame_getFrame]
      split
      · rename_i hfg
        rw [hfg]
        exact (Frame.finalise_perm _).length_eq
      · rfl
    exact hlength.trans (ht.2.2 g)
  · exact ht

/-- The flag tables of stored events name stored events only. -/
def TableKeys (store : SledStore P D T H Sig) : Prop :=
  ∀ k e ft, store.event (.hash k) = some e → store.flagTable k = some ft →
    ∀ key f, ft.lookup key = some f →
      ∃ e', store.event (.hash key) = some e'

omit [LinearOrder P] in
/-- Storing an event whose table names stored events and the event itself. -/
theorem TableKeys.extend {store store' : SledStore P D T H Sig}
    (h : TableKeys store)
    (hkeys : ∀ key f, ft.lookup key = some f →
      key = k ∨ ∃ e, store.event (.hash key) = some e)
    (htable : store'.flagTable = (store.setFlagTable k ft).flagTable)
    (hstored : ∀ x, (∃ e, store'.event (.hash x) = some e) ↔
      x = k ∨ ∃ e, store.event (.hash x) = some e) : TableKeys store' := by
  intro x e ft' he hft' key f hlookup
  rw [htable, SledStore.setFlagTable_flagTable] at hft'
  apply (hstored key).mpr
  split at hft'
  · cases hft'
    exact hkeys key f hlookup
  · rename_i hne
    obtain ⟨e', he'⟩ := ((hstored x).mp ⟨e, he⟩).resolve_left hne
    exact Or.inr (h x e' ft' he' hft' key f hlookup)

theorem stored_setEvent (store : SledStore P D T H Sig) (e : Event P D T H Sig)
    (x : H) : (∃ e', (store.setEvent e).event (.hash x) = some e') ↔
      x = e.hash ∨ ∃ e', store.event (.hash x) = some e' := by
  rw [SledStore.setEvent_event_hash]
  by_cases hx : x = e.hash
  · simp [hx]
  · simp [hx]

/-- Each stage keeps this: a flag table is written before its event. -/
theorem TableKeys.partly {prepared : Event P D T H Sig}
    (h : TableKeys core.store) (hprepared : Prepared event core prepared k ft)
    (hpartly : Partly event k ft core core') : TableKeys core'.store := by
  obtain ⟨s, o, sft, oft, root, frame, hs, ho, hsft, hoft, hft⟩ := hprepared.read
  have hkeys : ∀ key f, ft.lookup key = some f →
      key = k ∨ ∃ e', core.store.event (.hash key) = some e' := by
    rw [hft]
    exact visibilis_keys ⟨hs, ho, hsft, hoft, h _ _ _ hs hsft, h _ _ _ ho hoft⟩
  cases hpartly with
  | unchanged => exact h
  | tabled =>
      intro x e ft' he hft' key f hlookup
      change (core.store.setFlagTable k ft).flagTable x = some ft' at hft'
      rw [SledStore.setFlagTable_flagTable] at hft'
      split at hft'
      · rename_i hx
        cases hft'
        rcases hkeys key f hlookup with rfl | hkey
        · exact ⟨e, hx ▸ he⟩
        · exact hkey
      · exact h x e ft' he hft' key f hlookup
  | @hashed e hhash _ =>
      subst hhash
      refine h.extend hkeys rfl fun x => ?_
      have hread : SledTree.insert core.store.event (.hash e.hash) e (.hash x) =
          (core.store.setEvent e).event (.hash x) := by
        rw [SledStore.setEvent_event_hash]
        simp [SledTree.insert, Function.update_apply]
      rw [← stored_setEvent core.store e x, ← hread]
      rfl
  | @placed e hhash _ =>
      subst hhash
      exact h.extend hkeys rfl (stored_setEvent core.store e)
  | @recorded e frames made hhash _ =>
      subst hhash
      obtain ⟨hevent, htable, -⟩ := applied_frameWrites (core.written e.hash ft e)
        (List.take_subset made (frames.flatMap frameWrites))
      refine h.extend hkeys htable fun x => ?_
      rw [hevent]
      exact stored_setEvent core.store e x

/-- A call leaves one of these stages, or nothing was written. -/
theorem insertEventWith_partly (faults : Faults H) (env : Env P D T H PK SK Sig)
    (event : Event P D T H Sig) (core : DAGcore P D T H PK SK Sig) :
    ((insertEventWith faults env event).outcome core).2 = core ∨
      ∃ k prepared ft, env.eventHash event.toHashEvent = .ok k ∧
        Prepared event core prepared k ft ∧
        Partly event k ft core ((insertEventWith faults env event).outcome core).2 := by
  obtain ⟨made, hmade⟩ := (performs_insertEventWith faults env event core).exists_take
  cases hprepare : core.prepareEventWith faults env event with
  | error failure =>
      left
      rw [hmade, insertWrites, hprepare]
      simp [applied]
  | ok result =>
      obtain ⟨k, prepared, ft⟩ := result
      obtain ⟨hk, hprepared⟩ := prepareEventWith_eq_ok hprepare
      right
      refine ⟨k, prepared, ft, hk, hprepared, ?_⟩
      rw [hmade]
      exact partly_of_take hprepare made

end Stages

section Reads

variable [LinearOrder P] [LinearOrder H] {faults : Faults H}
  {env : Env P D T H PK SK Sig} {event : Event P D T H Sig}
  {core core' : DAGcore P D T H PK SK Sig} {store store' : SledStore P D T H Sig}

omit [LinearOrder H] in
/-- Deriving a creator table reads the creators of the events that the table
names. -/
theorem deriveCreatorFlagTableWith_congr {faults : H → Option Error}
    {ft : FlagTable H} (least : Nat)
    (hcreators : ∀ key f, ⟨key, f⟩ ∈ ft.entries →
      (store'.event (.hash key)).map Event.creator =
        (store.event (.hash key)).map Event.creator) :
    store'.deriveCreatorFlagTableWith faults env ft least =
      store.deriveCreatorFlagTableWith faults env ft least := by
  have hstep : ∀ result key f, ⟨key, f⟩ ∈ ft.entries →
      store'.deriveStepWith (faults key) env least result key f =
        store.deriveStepWith (faults key) env least result key f := by
    intro result key f hentry
    have hcreator := hcreators key f hentry
    unfold SledStore.deriveStepWith SledStore.deriveStep SledStore.getEvent
    cases he : store.event (.hash key) <;> cases he' : store'.event (.hash key) <;>
      simp_all
  unfold SledStore.deriveCreatorFlagTableWith
  suffices hfold : ∀ entries : List (Sigma fun _ : H => Nat),
      entries ⊆ ft.entries → ∀ result,
      entries.foldlM (fun result entry => store'.deriveStepWith (faults entry.1) env
          least result entry.1 entry.2) result =
        entries.foldlM (fun result entry => store.deriveStepWith (faults entry.1)
          env least result entry.1 entry.2) result from
    hfold ft.entries (List.Subset.refl _) ∅
  intro entries
  induction entries with
  | nil => exact fun _ _ => rfl
  | cons entry rest ih =>
      intro hsub result
      rw [List.foldlM_cons, List.foldlM_cons,
        hstep result entry.1 entry.2 (hsub List.mem_cons_self)]
      apply Result.bind_congr
      exact fun a _ => ih (fun _ hmem => hsub (List.mem_cons_of_mem _ hmem)) a

/-- Preparing the event reads the same in both states. -/
structure SameReads (event : Event P D T H Sig)
    (core core' : DAGcore P D T H PK SK Sig) : Prop where
  event_eq : ∀ p, p = event.selfParent ∨ p = event.otherParent →
    core'.store.event (.hash p) = core.store.event (.hash p)
  table_eq : ∀ p, p = event.selfParent ∨ p = event.otherParent →
    (∃ e, core.store.event (.hash p) = some e) →
    core'.store.flagTable p = core.store.flagTable p
  creators : ∀ p, p = event.selfParent ∨ p = event.otherParent →
    ∀ e ft, core.store.event (.hash p) = some e →
      core.store.flagTable p = some ft → ∀ key f, ft.lookup key = some f →
        (core'.store.event (.hash key)).map Event.creator =
          (core.store.event (.hash key)).map Event.creator
  conf : core'.conf = core.conf
  last : core'.lastFinalisedFrame = core.lastFinalisedFrame

theorem SameReads.rootAndFrameWith_eq (h : SameReads event core core')
    (faults : Faults H) (env : Env P D T H PK SK Sig) {s o : Event P D T H Sig}
    {sft oft : FlagTable H}
    (hs : core.store.event (.hash event.selfParent) = some s)
    (ho : core.store.event (.hash event.otherParent) = some o)
    (hsft : core.store.flagTable event.selfParent = some sft)
    (hoft : core.store.flagTable event.otherParent = some oft) :
    core'.rootAndFrameWith faults env s o sft oft =
      core.rootAndFrameWith faults env s o sft oft := by
  have hderive : core'.store.deriveCreatorFlagTableWith
      (fun ex => faults (.getRoot ex)) env
      (strictMergeFlagTable sft oft s.frameNumber) s.frameNumber =
    core.store.deriveCreatorFlagTableWith (fun ex => faults (.getRoot ex)) env
      (strictMergeFlagTable sft oft s.frameNumber) s.frameNumber := by
    apply deriveCreatorFlagTableWith_congr
    intro key f hentry
    have hlookup := lookup_strictMergeFlagTable.mp
      (Table.mem_entries_iff_lookup.mp hentry)
    rcases hlookup.2 with hl | hl
    · exact h.creators _ (Or.inl rfl) s sft hs hsft key f hl
    · exact h.creators _ (Or.inr rfl) o oft ho hoft key f hl
  unfold rootAndFrameWith
  simp only [hderive, h.conf]

theorem prepareEventWith_congr (h : SameReads event core core') :
    core'.prepareEventWith faults env event =
      core.prepareEventWith faults env event := by
  have hread : ∀ p, p = event.selfParent ∨ p = event.otherParent →
      core'.store.getEvent p = core.store.getEvent p := by
    intro p hp
    unfold SledStore.getEvent
    rw [h.event_eq p hp]
  have htable : ∀ p, p = event.selfParent ∨ p = event.otherParent →
      ∀ e, core.store.getEvent p = .ok e →
      core'.store.getFlagTable p = core.store.getFlagTable p := by
    intro p hp e he
    unfold SledStore.getFlagTable
    rw [h.table_eq p hp ⟨e, SledStore.getEvent_eq_ok.mp he⟩]
  unfold prepareEventWith
  refine Result.bind_congr fun _ _ => Result.bind_congr ?_
  rintro ⟨k, event'⟩ hhash
  obtain ⟨-, rfl⟩ := Event.eventHash_eq_ok.mp hhash
  simp only [hread _ (Or.inl rfl), hread _ (Or.inr rfl)]
  refine Result.bind_congr fun _ _ => Result.bind_congr fun s hs => ?_
  refine Result.bind_congr fun _ _ => Result.bind_congr fun o ho => ?_
  simp only [htable _ (Or.inl rfl) s hs, htable _ (Or.inr rfl) o ho]
  refine Result.bind_congr fun _ _ => Result.bind_congr fun sft hsft => ?_
  refine Result.bind_congr fun _ _ => Result.bind_congr fun oft hoft => ?_
  have hs := SledStore.getEvent_eq_ok.mp hs
  have ho := SledStore.getEvent_eq_ok.mp ho
  have hsft := SledStore.getFlagTable_eq_ok.mp hsft
  have hoft := SledStore.getFlagTable_eq_ok.mp hoft
  have hroot := h.rootAndFrameWith_eq faults env hs ho hsft hoft
  rw [hroot]
  have hfirst : core'.firstNotFinalisedFrame = core.firstNotFinalisedFrame := by
    unfold firstNotFinalisedFrame
    rw [h.last]
  have hft : ∀ root k frame, core'.visibilisFlagTable sft oft root k frame =
      core.visibilisFlagTable sft oft root k frame := by
    intro root k frame
    unfold visibilisFlagTable
    rw [hfirst]
  simp only [hft]

end Reads

section Tracks

open Call

variable {R : DAGcore P D T H PK SK Sig → DAGcore P D T H PK SK Sig → Prop}
  {core core' : DAGcore P D T H PK SK Sig}

theorem tracks_fails (fault : Option Error) (h : R core core') :
    Tracks R (fails fault : InsertCall P D T H PK SK Sig Unit) (fails fault) core
      core' :=
  tracks_attempt _ h

theorem tracks_putWith (faults : WriteStep → Option Error)
    {write : DAGcore P D T H PK SK Sig → DAGcore P D T H PK SK Sig}
    (hwrite : ∀ s t, R s t → R (write s) (write t)) (h : R core core') :
    Tracks R (putWith faults write) (putWith faults write) core core' :=
  (tracks_fails _ h).bind fun _ _ _ h => (tracks_fails _ h).bind fun _ _ _ h =>
    (tracks_modify (hwrite _ _ h)).bind fun _ _ _ h => tracks_fails _ h

theorem tracks_setEventWith [DecidableEq P] [DecidableEq H] (faults : Faults H)
    {e : Event P D T H Sig}
    (hwrites : ∀ write ∈ eventWrites e, ∀ s t, R s t → R (write s) (write t))
    (h : R core core') :
    Tracks R (setEventWith faults e) (setEventWith faults e) core core' := by
  simp only [eventWrites, List.forall_mem_cons] at hwrites
  obtain ⟨hhash, hplace, hrecord, -⟩ := hwrites
  exact (tracks_fails _ h).bind fun _ _ _ h => (tracks_fails _ h).bind fun _ _ _ h =>
    (tracks_modify (hhash _ _ h)).bind fun _ _ _ h => (tracks_fails _ h).bind
      fun _ _ _ h => (tracks_modify (hplace _ _ h)).bind fun _ _ _ h =>
        (tracks_fails _ h).bind fun _ _ _ h => (tracks_fails _ h).bind fun _ _ _ h =>
          tracks_putWith _ hrecord h

theorem tracks_finaliseFrameWith [LinearOrder H] (faults : Faults H) (f : Nat)
    (hwrites : ∀ write ∈ frameWrites f, ∀ s t, R s t → R (write s) (write t))
    (h : R core core') :
    Tracks R (finaliseFrameWith faults f) (finaliseFrameWith faults f) core
      core' := by
  simp only [frameWrites, List.forall_mem_cons] at hwrites
  obtain ⟨hlog, hsort, hpass, -⟩ := hwrites
  exact (tracks_fails _ h).bind fun _ _ _ h =>
    (tracks_modify (hlog _ _ h)).bind fun _ _ _ h =>
      (tracks_putWith _ hsort h).bind fun _ _ _ h => tracks_modify (hpass _ _ h)

theorem putWith_ok {faults : WriteStep → Option Error}
    {write : DAGcore P D T H PK SK Sig → DAGcore P D T H PK SK Sig} {u : Unit}
    (h : (putWith faults write).outcome core = (.ok u, core')) :
    core' = write core ∧
      ∀ t, (putWith faults write).outcome t = (.ok u, write t) :=
  Performs.outcome_any (performs_putWith faults write)
    (fun _ => tracks_putWith _ (fun _ _ _ => trivial) trivial) h

theorem setEventWith_ok [DecidableEq P] [DecidableEq H] {faults : Faults H}
    {e : Event P D T H Sig} {u : Unit}
    (h : (setEventWith faults e).outcome core = (.ok u, core')) :
    core' = applied (eventWrites e) core ∧ ∀ t : DAGcore P D T H PK SK Sig,
      (setEventWith faults e).outcome t = (.ok u, applied (eventWrites e) t) :=
  Performs.outcome_any (performs_setEventWith faults e)
    (fun _ => tracks_setEventWith _ (fun _ _ _ _ _ => trivial) trivial) h

end Tracks

end DAGcore

end ConsensusDag
