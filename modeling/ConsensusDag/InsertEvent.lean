/-
What a successful `insert_event` and the start of a node do to the state.  The
proofs about runs cite these lemmas and never unfold the code again.
-/
import Mathlib.Data.Nat.Pairing
import ConsensusDag.Core

namespace ConsensusDag

open AssocTables

variable {P D T H PK SK Sig : Type}

namespace DAGcore

section Start

variable [LinearOrder P] [DecidableEq H] [Inhabited H]
  {env : Env P D T H PK SK Sig}

/-- One turn of the loop of `new` writes the leaf event of a peer, with a flag
table that holds just this event. -/
theorem insertLeaf_eq_ok {store store' : SledStore P D T H Sig}
    {peer : DAGPeer P PK} (h : insertLeaf env store peer = .ok store') :
    ∃ k, env.eventHash (leafEvent peer : Event P D T H Sig).toHashEvent = .ok k ∧
      store' = (store.setFlagTable k (AList.insert k 0 ∅)).setEvent
        { (leafEvent peer : Event P D T H Sig) with hash := k } := by
  unfold insertLeaf at h
  simp only [Result.bind_eq_ok, Result.unwrap_eq_ok, Prod.exists] at h
  obtain ⟨k, event, hhash, hstore⟩ := h
  obtain ⟨hk, rfl⟩ := Event.eventHash_eq_ok.mp hhash
  cases hstore
  exact ⟨k, hk, rfl⟩

/-- A new node holds the leaf events of its sorted peer list; its clock, its
cursor and its finalisation point stand at the start. -/
theorem new_eq_ok {conf : DAGconfig P PK SK} {disk : SledStore P D T H Sig}
    {core : DAGcore P D T H PK SK Sig} (h : DAGcore.new env conf disk = .ok core) :
    ∃ store, (conf.peers.setCreator conf.creator).peers.foldlM
        (insertLeaf env) disk = .ok store ∧
      core =
        { conf := { conf with peers := conf.peers.setCreator conf.creator }
          store := store
          txPool := []
          internalTxPool := []
          lamportTime := 0
          currentFrame := none
          currentEvent := some 0
          currentTx := some 0
          lastFinalisedFrame := none
          shutdown := false
          wakes := []
          finalisedLog := [] } := by
  unfold DAGcore.new at h
  split at h
  · cases h
  · simp only [Result.bind_eq_ok] at h
    obtain ⟨store, hfold, hcore⟩ := h
    cases hcore
    exact ⟨store, hfold, rfl⟩

/-- The rule for a new node: what the leaf event of a peer keeps, for the peers
done so far, holds of the store in the end. -/
theorem new_induct {conf : DAGconfig P PK SK} {disk : SledStore P D T H Sig}
    {core : DAGcore P D T H PK SK Sig} (h : DAGcore.new env conf disk = .ok core)
    {I : List (DAGPeer P PK) → SledStore P D T H Sig → Prop} (hnil : I [] disk)
    (hstep : ∀ done peer store store',
      (∀ q ∈ done ++ [peer], q ∈ conf.peers.peers) →
      (∀ {α : Type} (f : DAGPeer P PK → α),
        (conf.peers.peers.map f).Nodup → f peer ∉ done.map f) →
      I done store → insertLeaf env store peer = .ok store' →
      I (done ++ [peer]) store') :
    I (conf.peers.setCreator conf.creator).peers core.store := by
  have hperm := conf.peers.setCreator_peers_perm conf.creator
  obtain ⟨store, hfold, rfl⟩ := new_eq_ok h
  refine Result.foldlM_induct hfold hnil fun done peer store store' hpre =>
    hstep done peer store store' (fun q hq => hperm.subset (hpre.subset hq)) ?_
  intro α f hnodup hmem
  have hdone := (hpre.sublist.map f).nodup ((hperm.map f).nodup_iff.mpr hnodup)
  rw [List.map_append, List.nodup_append] at hdone
  exact hdone.2.2 _ hmem _ List.mem_cons_self rfl

end Start

section FinaliseFrames

variable [LinearOrder H] (core : DAGcore P D T H PK SK Sig) (frames : List Nat)

/-- The finalisation loop touches frames, the finalisation point and the waker;
everything else stays as it was. -/
theorem finaliseFrames_unchanged :
    (core.finaliseFrames frames).store.event = core.store.event ∧
      (core.finaliseFrames frames).store.flagTable = core.store.flagTable ∧
      (core.finaliseFrames frames).conf.peers = core.conf.peers ∧
      (core.finaliseFrames frames).lamportTime = core.lamportTime := by
  induction frames generalizing core with
  | nil => exact ⟨rfl, rfl, rfl, rfl⟩
  | cons f rest ih => exact ih (core.finaliseFrame f)

theorem finaliseFrames_conf : ∃ waker,
    (core.finaliseFrames frames).conf = { core.conf with waker := waker } := by
  induction frames generalizing core with
  | nil => exact ⟨core.conf.waker, rfl⟩
  | cons f rest ih =>
      obtain ⟨waker, hconf⟩ := ih (core.finaliseFrame f)
      exact ⟨waker, hconf⟩

theorem finaliseFrames_txPool :
    (core.finaliseFrames frames).txPool = core.txPool := by
  induction frames generalizing core with
  | nil => rfl
  | cons f rest ih => exact ih (core.finaliseFrame f)

/-- The loop leaves the stream's cursor alone. -/
theorem finaliseFrames_cursor :
    (core.finaliseFrames frames).currentFrame = core.currentFrame ∧
      (core.finaliseFrames frames).currentEvent = core.currentEvent ∧
      (core.finaliseFrames frames).currentTx = core.currentTx ∧
      (core.finaliseFrames frames).shutdown = core.shutdown := by
  induction frames generalizing core with
  | nil => exact ⟨rfl, rfl, rfl, rfl⟩
  | cons f rest ih => exact ih (core.finaliseFrame f)

theorem finaliseFrames_finalisedLog :
    (core.finaliseFrames frames).finalisedLog = core.finalisedLog ++ frames := by
  induction frames generalizing core with
  | nil => exact (List.append_nil _).symm
  | cons f rest ih =>
      have hstep := ih (core.finaliseFrame f)
      rw [finaliseFrames, List.foldl_cons]
      rw [finaliseFrames] at hstep
      rw [hstep]
      simp [finaliseFrame]

theorem finaliseFrames_lastFinalisedFrame :
    (core.finaliseFrames frames).lastFinalisedFrame =
      frames.getLast?.or core.lastFinalisedFrame := by
  induction frames generalizing core with
  | nil => rfl
  | cons f rest ih =>
      have hstep := ih (core.finaliseFrame f)
      rw [finaliseFrames, List.foldl_cons]
      rw [finaliseFrames] at hstep
      rw [hstep]
      cases rest with
      | nil => rfl
      | cons g rest => simp [List.getLast?_cons]

/-- The first frame of the loop takes the waker out and wakes it. -/
theorem finaliseFrames_wakes (hne : frames ≠ []) :
    (core.finaliseFrames frames).wakes =
        core.wakes ++ core.conf.waker.toList ∧
      (core.finaliseFrames frames).conf.waker = none := by
  have hnone : ∀ (rest : List Nat) (core : DAGcore P D T H PK SK Sig),
      core.conf.waker = none →
      (core.finaliseFrames rest).wakes = core.wakes ∧
        (core.finaliseFrames rest).conf.waker = none := by
    intro rest
    induction rest with
    | nil => exact fun core h => ⟨rfl, h⟩
    | cons f rest ih =>
        intro core h
        obtain ⟨hwakes, hwaker⟩ := ih (core.finaliseFrame f) rfl
        refine ⟨hwakes.trans ?_, hwaker⟩
        simp [finaliseFrame, h]
  cases frames with
  | nil => exact absurd rfl hne
  | cons f rest => exact hnone rest (core.finaliseFrame f) rfl

/-- The frames of the loop end up sorted, the others as they were. -/
theorem finaliseFrames_getFrame (f : Nat) :
    (core.finaliseFrames frames).store.getFrame f =
      if f ∈ frames then (core.store.getFrame f).finalise
      else core.store.getFrame f := by
  induction frames generalizing core with
  | nil => simp [finaliseFrames]
  | cons g rest ih =>
      have hstep := ih (core.finaliseFrame g)
      rw [finaliseFrames] at hstep
      rw [finaliseFrames, List.foldl_cons, hstep]
      have hone : (core.finaliseFrame g).store.getFrame f =
          if f = g then (core.store.getFrame f).finalise
          else core.store.getFrame f := by
        rw [finaliseFrame, SledStore.setFrame_getFrame]
        split
        · rename_i heq
          rw [heq]
        · rfl
      by_cases hfg : f = g
      · rw [hone, if_pos hfg, if_pos (List.mem_cons.mpr (Or.inl hfg))]
        split
        · exact Frame.finalise_eq_self
            (Frame.finalise_sorted (core.store.getFrame f))
        · rfl
      · rw [hone, if_neg hfg]
        simp only [List.mem_cons, hfg, false_or]

end FinaliseFrames

section Insertion

variable [LinearOrder P] [LinearOrder H]

/-- The flag table of a new event: what both parents see, and itself when it is
a root. -/
def visibilisFlagTable (core : DAGcore P D T H PK SK Sig)
    (selfParentFt otherParentFt : FlagTable H) (root : Bool) (eventHash : H)
    (frame : Nat) : FlagTable H :=
  let merged := openMergeFlagTable selfParentFt otherParentFt
    core.firstNotFinalisedFrame
  if root then merged.insert eventHash frame else merged

/-- The state after the event and its flag table are written. -/
def written (core : DAGcore P D T H PK SK Sig) (eventHash : H)
    (ft : FlagTable H) (event : Event P D T H Sig) :
    DAGcore P D T H PK SK Sig :=
  { core with store := (core.store.setFlagTable eventHash ft).setEvent event }

/-- A successful call of `insert_event`: what it read, what it computed, and the
state it leaves. -/
structure Insertion (env : Env P D T H PK SK Sig)
    (core : DAGcore P D T H PK SK Sig) (event : Event P D T H Sig)
    (core' : DAGcore P D T H PK SK Sig) where
  eventHash : H
  selfParentEvent : Event P D T H Sig
  otherParentEvent : Event P D T H Sig
  selfParentFt : FlagTable H
  otherParentFt : FlagTable H
  root : Bool
  frame : Nat
  signature : Sig
  creatorId : P
  frames : List Nat
  hash_eq : env.eventHash event.toHashEvent = .ok eventHash
  self_stored :
    core.store.event (.hash event.selfParent) = some selfParentEvent
  other_stored :
    core.store.event (.hash event.otherParent) = some otherParentEvent
  self_ft : core.store.flagTable event.selfParent = some selfParentFt
  other_ft : core.store.flagTable event.otherParent = some otherParentFt
  frame_eq : core.rootAndFrame env selfParentEvent otherParentEvent
    selfParentFt otherParentFt = .ok (root, frame)
  sign_eq :
    env.sign eventHash core.conf.publicKey core.conf.secretKey = .ok signature
  creatorId_eq : core.conf.peers.getCreatorId = .ok creatorId
  frames_eq :
    let ft := core.visibilisFlagTable selfParentFt otherParentFt root
      eventHash frame
    (core.written eventHash ft { event with
        hash := eventHash
        frameNumber := frame
        signatures := event.signatures.insert creatorId signature }).framesToFinalise
      env ft core.firstNotFinalisedFrame = .ok frames
  core_eq :
    let ft := core.visibilisFlagTable selfParentFt otherParentFt root
      eventHash frame
    core' = (core.written eventHash ft { event with
        hash := eventHash
        frameNumber := frame
        signatures := event.signatures.insert creatorId signature }).finaliseFrames
      frames

namespace Insertion

variable {env : Env P D T H PK SK Sig} {core core' : DAGcore P D T H PK SK Sig}
  {event : Event P D T H Sig} (ins : Insertion env core event core')

/-- The flag table written for the event. -/
def flagTable : FlagTable H :=
  core.visibilisFlagTable ins.selfParentFt ins.otherParentFt ins.root
    ins.eventHash ins.frame

/-- The event as it is stored. -/
def stored : Event P D T H Sig :=
  { event with
    hash := ins.eventHash
    frameNumber := ins.frame
    signatures := event.signatures.insert ins.creatorId ins.signature }

@[simp] theorem stored_hash : ins.stored.hash = ins.eventHash := rfl

/-- The store before the finalisation loop. -/
def writtenStore : SledStore P D T H Sig :=
  (core.store.setFlagTable ins.eventHash ins.flagTable).setEvent ins.stored

theorem event_eq : core'.store.event = ins.writtenStore.event :=
  (congrArg (fun c => c.store.event) ins.core_eq).trans
    (finaliseFrames_unchanged _ _).1

theorem event_hash (k : H) :
    core'.store.event (.hash k) =
      if k = ins.eventHash then some ins.stored
      else core.store.event (.hash k) := by
  rw [ins.event_eq]
  exact SledStore.setEvent_event_hash _ _ k

theorem event_creator (c : P) (height : Nat) :
    core'.store.event (.creator c height) =
      if c = event.creator ∧ height = event.height then some ins.stored
      else core.store.event (.creator c height) := by
  rw [ins.event_eq]
  exact SledStore.setEvent_event_creator _ _ c height

theorem flagTable_written :
    core'.store.flagTable = ins.writtenStore.flagTable :=
  (congrArg (fun c => c.store.flagTable) ins.core_eq).trans
    (finaliseFrames_unchanged _ _).2.1

/-- Finalisation only permutes the records of a frame. -/
theorem getFrame_written (f : Nat) :
    (core'.store.getFrame f).events.Perm
      (ins.writtenStore.getFrame f).events := by
  have hloop : core'.store.getFrame f =
      if f ∈ ins.frames then (ins.writtenStore.getFrame f).finalise
      else ins.writtenStore.getFrame f :=
    (congrArg (fun c => c.store.getFrame f) ins.core_eq).trans
      (finaliseFrames_getFrame _ _ f)
  rw [hloop]
  split
  · exact Frame.finalise_perm _
  · exact List.Perm.refl _

theorem getFrame_eq (f : Nat) :
    core'.store.getFrame f =
      let appended : Frame H := if f = ins.frame
        then ⟨(core.store.getFrame f).events ++
          [⟨ins.eventHash, event.lamportTimestamp⟩]⟩
        else core.store.getFrame f
      if f ∈ ins.frames then appended.finalise else appended := by
  have happended := SledStore.setEvent_getFrame
    (core.store.setFlagTable ins.eventHash ins.flagTable) ins.stored f
  have hloop : core'.store.getFrame f =
      if f ∈ ins.frames then (ins.writtenStore.getFrame f).finalise
      else ins.writtenStore.getFrame f :=
    (congrArg (fun c => c.store.getFrame f) ins.core_eq).trans
      (finaliseFrames_getFrame _ _ f)
  rw [hloop, writtenStore, happended]
  rfl

/-- Finalisation only permutes the records of a frame. -/
theorem getFrame_perm (f : Nat) :
    (core'.store.getFrame f).events.Perm
      (if f = ins.frame
        then (core.store.getFrame f).events ++
          [⟨ins.eventHash, event.lamportTimestamp⟩]
        else (core.store.getFrame f).events) := by
  rw [ins.getFrame_eq]
  by_cases hf : f = ins.frame
  · simp only [hf, ↓reduceIte]
    split
    · exact Frame.finalise_perm _
    · exact List.Perm.refl _
  · simp only [hf, ↓reduceIte]
    split
    · exact Frame.finalise_perm _
    · exact List.Perm.refl _

include ins in
theorem peers_eq : core'.conf.peers = core.conf.peers :=
  (congrArg (fun c => c.conf.peers) ins.core_eq).trans
    (finaliseFrames_unchanged _ _).2.2.1

include ins in
theorem conf_eq : ∃ waker, core'.conf = { core.conf with waker := waker } := by
  obtain ⟨waker, hconf⟩ := finaliseFrames_conf
    (core.written ins.eventHash ins.flagTable ins.stored) ins.frames
  exact ⟨waker, (congrArg (fun c => c.conf) ins.core_eq).trans hconf⟩

include ins in
theorem lamportTime_eq : core'.lamportTime = core.lamportTime :=
  (congrArg (fun c => c.lamportTime) ins.core_eq).trans
    (finaliseFrames_unchanged _ _).2.2.2

include ins in
theorem txPool_eq : core'.txPool = core.txPool :=
  (congrArg (fun c => c.txPool) ins.core_eq).trans (finaliseFrames_txPool _ _)

include ins in
theorem cursor_eq :
    core'.currentFrame = core.currentFrame ∧
      core'.currentEvent = core.currentEvent ∧
      core'.currentTx = core.currentTx ∧ core'.shutdown = core.shutdown := by
  have hcursor := finaliseFrames_cursor
    (core.written ins.eventHash ins.flagTable ins.stored) ins.frames
  have hcore : core' = (core.written ins.eventHash ins.flagTable
      ins.stored).finaliseFrames ins.frames := ins.core_eq
  rw [← hcore] at hcursor
  exact hcursor

theorem finalisedLog_eq :
    core'.finalisedLog = core.finalisedLog ++ ins.frames :=
  (congrArg (fun c => c.finalisedLog) ins.core_eq).trans
    (finaliseFrames_finalisedLog _ _)

theorem lastFinalisedFrame_eq :
    core'.lastFinalisedFrame =
      ins.frames.getLast?.or core.lastFinalisedFrame :=
  (congrArg (fun c => c.lastFinalisedFrame) ins.core_eq).trans
    (finaliseFrames_lastFinalisedFrame _ _)

end Insertion

variable {env : Env P D T H PK SK Sig} {core core' : DAGcore P D T H PK SK Sig}
  {event : Event P D T H Sig}

/-- The read-only part succeeds when the hash, the parents and their flag tables
are there and the frame can be computed. -/
theorem prepareEvent_eq_ok {k : H} {event' : Event P D T H Sig}
    {ft : FlagTable H} (h : core.prepareEvent env event = .ok (k, event', ft)) :
    env.eventHash event.toHashEvent = .ok k ∧
      ∃ s o sft oft root frame,
        core.store.event (.hash event.selfParent) = some s ∧
        core.store.event (.hash event.otherParent) = some o ∧
        core.store.flagTable event.selfParent = some sft ∧
        core.store.flagTable event.otherParent = some oft ∧
        core.rootAndFrame env s o sft oft = .ok (root, frame) ∧
        event' = { event with hash := k, frameNumber := frame } ∧
        ft = core.visibilisFlagTable sft oft root k frame := by
  unfold prepareEvent at h
  simp only [Result.bind_eq_ok, Prod.exists] at h
  obtain ⟨k', ev, hhash, h⟩ := h
  obtain ⟨hk, rfl⟩ := Event.eventHash_eq_ok.mp hhash
  obtain ⟨s, hs, o, ho, sft, hsft, oft, hoft, root, frame, hframe, h⟩ := h
  cases h
  exact ⟨hk, s, o, sft, oft, root, frame, SledStore.getEvent_eq_ok.mp hs,
    SledStore.getEvent_eq_ok.mp ho, SledStore.getFlagTable_eq_ok.mp hsft,
    SledStore.getFlagTable_eq_ok.mp hoft, hframe, rfl, rfl⟩

omit [LinearOrder H] in
theorem signEvent_eq_ok {conf : DAGconfig P PK SK} {k : H}
    {event' : Event P D T H Sig}
    (h : signEvent env conf k event = .ok event') :
    ∃ signature creatorId,
      env.sign k conf.publicKey conf.secretKey = .ok signature ∧
      conf.peers.getCreatorId = .ok creatorId ∧
      event' = { event with
        signatures := event.signatures.insert creatorId signature } := by
  unfold signEvent at h
  simp only [Result.bind_eq_ok, raise_eq_ok] at h
  obtain ⟨signature, hsign, creatorId, hid, h⟩ := h
  cases h
  exact ⟨signature, creatorId, hsign, hid, rfl⟩

/-- A call whose three fallible parts succeed returns `true`. -/
theorem insertEvent_of_parts {k : H} {prepared signed : Event P D T H Sig}
    {ft : FlagTable H} {frames : List Nat}
    (hprepare : core.prepareEvent env event = .ok (k, prepared, ft))
    (hsign : signEvent env core.conf k prepared = .ok signed)
    (hframes : (core.written k ft signed).framesToFinalise env ft
      core.firstNotFinalisedFrame = .ok frames) :
    insertEvent env event core =
      (.ok true, (core.written k ft signed).finaliseFrames frames) := by
  unfold written at hframes ⊢
  unfold insertEvent
  simp only [hprepare, hsign, hframes]

/-- The three parts of a call that returns a value. -/
theorem insertEvent_parts {rc : Bool}
    (h : insertEvent env event core = (.ok rc, core')) :
    ∃ k prepared signed ft frames,
      core.prepareEvent env event = .ok (k, prepared, ft) ∧
      signEvent env core.conf k prepared = .ok signed ∧
      (core.written k ft signed).framesToFinalise env ft
        core.firstNotFinalisedFrame = .ok frames ∧
      rc = true ∧ core' = (core.written k ft signed).finaliseFrames frames := by
  unfold insertEvent at h
  split at h
  · cases h
  · rename_i k prepared ft hprepare
    simp only at h
    split at h
    · cases h
    · rename_i signed hsign
      split at h
      · cases h
      · rename_i frames hframes
        cases h
        exact ⟨k, prepared, signed, ft, frames, hprepare, hsign, hframes, rfl, rfl⟩

/-- A call that returns a value is an insertion, and the value is `true`. -/
theorem insertEvent_eq_ok {rc : Bool}
    (h : insertEvent env event core = (.ok rc, core')) :
    rc = true ∧ Nonempty (Insertion env core event core') := by
  unfold insertEvent at h
  split at h
  · cases h
  · rename_i k event' ft hprepare
    obtain ⟨hk, s, o, sft, oft, root, frame, hs, ho, hsft, hoft, hframe, rfl,
      rfl⟩ := prepareEvent_eq_ok hprepare
    simp only at h
    split at h
    · cases h
    · rename_i event'' hsigned
      obtain ⟨signature, creatorId, hsign, hid, rfl⟩ := signEvent_eq_ok hsigned
      split at h
      · cases h
      · rename_i frames hframes
        cases h
        exact ⟨rfl, ⟨{
          eventHash := k, selfParentEvent := s, otherParentEvent := o
          selfParentFt := sft, otherParentFt := oft, root, frame, signature
          creatorId, frames, hash_eq := hk, self_stored := hs
          other_stored := ho, self_ft := hsft, other_ft := hoft
          frame_eq := hframe, sign_eq := hsign, creatorId_eq := hid
          frames_eq := hframes, core_eq := rfl }⟩⟩

omit [LinearOrder H] in
/-- The finalisation loop goes up from the first frame that is not finalised. -/
theorem framesToFinalise_eq_ok {ft : FlagTable H} {first : Nat}
    {frames : List Nat} (h : core.framesToFinalise env ft first = .ok frames) :
    ∃ count, frames = List.range' first count := by
  unfold framesToFinalise at h
  simp only [Result.bind_eq_ok] at h
  obtain ⟨table, -, h⟩ := h
  split at h
  · cases h
    exact ⟨_, rfl⟩
  · cases h
    exact ⟨0, rfl⟩

/-- The finalisation point moves over the frames of the loop. -/
theorem Insertion.firstNotFinalisedFrame_eq (ins : Insertion env core event core')
    {count : Nat}
    (hframes : ins.frames = List.range' core.firstNotFinalisedFrame count) :
    core'.firstNotFinalisedFrame = core.firstNotFinalisedFrame + count := by
  have hlast := ins.lastFinalisedFrame_eq
  rw [hframes, List.getLast?_range'] at hlast
  split at hlast
  · rename_i hzero
    rw [hzero, Nat.add_zero, firstNotFinalisedFrame, hlast]
    rfl
  · rw [firstNotFinalisedFrame, hlast]
    simp only [Option.some_or]
    omega

theorem Insertion.finalisedLog_range (ins : Insertion env core event core')
    (hlog : core.finalisedLog = List.range core.firstNotFinalisedFrame) :
    core'.finalisedLog = List.range core'.firstNotFinalisedFrame := by
  obtain ⟨count, hframes⟩ := framesToFinalise_eq_ok ins.frames_eq
  have hframes : ins.frames = List.range' core.firstNotFinalisedFrame count :=
    hframes
  have happend := List.range'_append_1 (s := 0)
    (m := core.firstNotFinalisedFrame) (n := count)
  rw [Nat.zero_add] at happend
  rw [ins.finalisedLog_eq, hlog, ins.firstNotFinalisedFrame_eq hframes, hframes,
    List.range_eq_range', List.range_eq_range', happend]

/-- A call that fails has finalised nothing. -/
theorem insertEvent_error {failure : Failure}
    (h : insertEvent env event core = (.error failure, core')) :
    core'.conf = core.conf ∧ core'.lastFinalisedFrame = core.lastFinalisedFrame ∧
      core'.wakes = core.wakes ∧ core'.finalisedLog = core.finalisedLog := by
  unfold insertEvent at h
  split at h
  · cases h
    exact ⟨rfl, rfl, rfl, rfl⟩
  · simp only at h
    split at h
    · cases h
      exact ⟨rfl, rfl, rfl, rfl⟩
    · split at h
      · cases h
        exact ⟨rfl, rfl, rfl, rfl⟩
      · cases h

end Insertion

end DAGcore

namespace TwoPeers

abbrev Core := DAGcore Nat Nat Unit Nat Unit Unit Unit

/-- Hashes by creator and height, and signatures that always verify. -/
def env : Env Nat Nat Unit Nat Unit Unit Unit where
  eventHash v := .ok (Nat.pair v.creator v.height + 1)
  sign _ _ _ := .ok ()
  verify _ _ _ := .ok true
  stackDepth := 0

def peer (id : Nat) : DAGPeer Nat Unit := ⟨(), id, "", "", 0, 0⟩

def peers : List (DAGPeer Nat Unit) := [peer 0, peer 1]

def conf (creator : Nat) : DAGconfig Nat Unit Unit where
  storeType := .sled
  waker := none
  peers := ⟨peers, 2, 1, creator, 0⟩
  creator := creator
  secretKey := ()
  publicKey := ()

/-- The first events of the two peers: the leaves have the hashes 1 and 3, and
each event refers to the latest event of the other peer. -/
def b₁ : Event Nat Nat Unit Nat Unit := Event.new 1 1 3 1 1 [7] []

def a₁ : Event Nat Nat Unit Nat Unit := Event.new 0 1 1 4 2 [8] []

def b₂ : Event Nat Nat Unit Nat Unit := Event.new 1 2 4 2 3 [9] []

def a₂ : Event Nat Nat Unit Nat Unit := Event.new 0 2 2 6 4 [] []

def b₃ : Event Nat Nat Unit Nat Unit := Event.new 1 3 6 5 5 [] []

def a₃ : Event Nat Nat Unit Nat Unit := Event.new 0 3 5 11 6 [] []

def start (creator : Nat) : Core :=
  (DAGcore.new env (conf creator) SledStore.empty).toOption.get rfl

/-- The state after these events are inserted, the first of the list first. -/
def after (core : Core) (events : List (Event Nat Nat Unit Nat Unit)) : Core :=
  events.foldl (fun core event => (core.insertEvent env event).2) core

theorem insertEvent_after {core : Core} {event : Event Nat Nat Unit Nat Unit}
    (h : (core.insertEvent env event).1 = .ok true) :
    core.insertEvent env event = (.ok true, after core [event]) :=
  Prod.ext h rfl

example : (after (start 0) [b₁, a₁, b₂, a₂]).finalisedLog = [0, 1] := by rfl

end TwoPeers

end ConsensusDag
