/-
The consumer that sleeps until a frame is finalised.  A call of `poll_next` takes
the lock several times, and insertions come in between: one that finalises a
frame wakes the task that is registered at that time.
-/
import ConsensusDag.Cursor
import ConsensusDag.InsertEvent

namespace ConsensusDag

open Relation

/-- How far the consumer is with a call of `poll_next`.  When the call read the
finalisation point, the frames of `log` were finalised; when it returned
`Pending`, it went by `last`, and `wakes` tasks had been woken. -/
inductive Consumer (P D : Type)
  | idle
  | entered (waker : Nat)
  | looping (waker last : Nat) (log : List Nat)
  | delivering (waker : Nat) (item : D × P)
  | waiting (waker : Nat) (last : Option Nat) (wakes : Nat)
deriving DecidableEq

/-- The last call has returned. -/
def Consumer.resting {P D : Type} : Consumer P D → Prop
  | .idle => True
  | .waiting _ _ _ => True
  | _ => False

structure Streaming (P D T H PK SK Sig : Type) where
  core : DAGcore P D T H PK SK Sig
  consumer : Consumer P D

variable {P D T H PK SK Sig : Type}

/-- No wake-up is lost: while the consumer waits, its waker is registered and the
finalisation point is where the call saw it, or the waker has been woken. -/
def Awake (s : Streaming P D T H PK SK Sig) : Prop :=
  ∀ waker last wakes, s.consumer = .waiting waker last wakes →
    s.core.conf.waker = some waker ∧ s.core.lastFinalisedFrame = last ∨
      waker ∈ s.core.wakes.drop wakes

/-- The step does not return `Pending` after a frame has been finalised since the
call read the finalisation point. -/
def Timely (s s' : Streaming P D T H PK SK Sig) : Prop :=
  ∀ waker last log last' wakes, s.consumer = .looping waker last log →
    s'.consumer = .waiting waker last' wakes → s.core.finalisedLog = log

variable [LinearOrder P] [LinearOrder H]

/-- The sections of `poll_next`, each under the lock, and the insertions. -/
inductive SectionStep (env : Env P D T H PK SK Sig) :
    Streaming P D T H PK SK Sig → Streaming P D T H PK SK Sig → Prop
  | insert {s event result core'} :
      s.core.insertEvent env event = (result, core') →
      SectionStep env s { s with core := core' }
  | quit {s} : s.consumer.resting → s.core.shutdown = true →
      SectionStep env s { s with consumer := .idle }
  | enter {s} (waker : Nat) : s.consumer.resting → s.core.shutdown = false →
      SectionStep env s { s with consumer := .entered waker }
  | readNone {s waker} : s.consumer = .entered waker →
      s.core.lastFinalisedFrame = none →
      SectionStep env s
        ⟨s.core.setWaker waker, .waiting waker none s.core.wakes.length⟩
  | readSome {s waker last} : s.consumer = .entered waker →
      s.core.lastFinalisedFrame = some last →
      SectionStep env s
        { s with consumer := .looping waker last s.core.finalisedLog }
  | turn {s waker last log core'} : s.consumer = .looping waker last log →
      s.core.pollTurn waker last = .again core' →
      SectionStep env s { s with core := core' }
  | pend {s waker last log core'} : s.consumer = .looping waker last log →
      s.core.pollTurn waker last = .pending core' →
      SectionStep env s ⟨core', .waiting waker (some last) core'.wakes.length⟩
  | emit {s waker last log item core'} :
      s.consumer = .looping waker last log →
      s.core.pollTurn waker last = .data item core' →
      SectionStep env s ⟨core', .delivering waker item⟩
  | deliver {s waker item} : s.consumer = .delivering waker item →
      SectionStep env s ⟨s.core.setWaker waker, .idle⟩

/-- The states that a node and its consumer go through, the latest first. -/
inductive SectionRun [Inhabited H] (env : Env P D T H PK SK Sig)
    (conf : DAGconfig P PK SK) : List (Streaming P D T H PK SK Sig) → Prop
  | start {core : DAGcore P D T H PK SK Sig} :
      DAGcore.new env conf SledStore.empty = .ok core →
      SectionRun env conf [⟨core, .idle⟩]
  | step {s s' : Streaming P D T H PK SK Sig}
      {past : List (Streaming P D T H PK SK Sig)} :
      SectionRun env conf (s :: past) → SectionStep env s s' →
      SectionRun env conf (s' :: s :: past)

section Insertions

variable {env : Env P D T H PK SK Sig}
  {core core' : DAGcore P D T H PK SK Sig} {event : Event P D T H Sig}
  {result : Result Bool}

/-- An insertion finalises nothing, or wakes the task that is registered. -/
theorem insertEvent_wakes (h : core.insertEvent env event = (result, core')) :
    core'.conf.waker = core.conf.waker ∧ core'.wakes = core.wakes ∧
        core'.lastFinalisedFrame = core.lastFinalisedFrame ∨
      core'.wakes = core.wakes ++ core.conf.waker.toList := by
  cases result with
  | error failure =>
      obtain ⟨hconf, hlast, hwakes, -⟩ := DAGcore.insertEvent_error h
      exact Or.inl ⟨by rw [hconf], hwakes, hlast⟩
  | ok rc =>
      obtain ⟨-, ⟨ins⟩⟩ := DAGcore.insertEvent_eq_ok h
      have hcore : core' = (core.written ins.eventHash ins.flagTable
        ins.stored).finaliseFrames ins.frames := ins.core_eq
      rw [hcore]
      cases hframes : ins.frames with
      | nil => exact Or.inl ⟨rfl, rfl, rfl⟩
      | cons f rest =>
          exact Or.inr (DAGcore.finaliseFrames_wakes _ _ (List.cons_ne_nil _ _)).1

/-- The frames finalised are those up to the finalisation point. -/
def LogUpToDate (core : DAGcore P D T H PK SK Sig) : Prop :=
  core.finalisedLog = List.range core.firstNotFinalisedFrame

theorem LogUpToDate.insert (hlog : LogUpToDate core)
    (h : core.insertEvent env event = (result, core')) : LogUpToDate core' := by
  cases result with
  | error failure =>
      obtain ⟨-, hlast, -, hsame⟩ := DAGcore.insertEvent_error h
      unfold LogUpToDate DAGcore.firstNotFinalisedFrame at hlog ⊢
      rw [hsame, hlast]
      exact hlog
  | ok rc =>
      obtain ⟨-, ⟨ins⟩⟩ := DAGcore.insertEvent_eq_ok h
      exact ins.finalisedLog_range hlog

end Insertions

section Sections

variable {env : Env P D T H PK SK Sig} {s s' : Streaming P D T H PK SK Sig}

/-- The sections of a call that nothing interrupts add up to `poll_next`. -/
theorem sections_of_pollNext {core core' : DAGcore P D T H PK SK Sig}
    {consumer : Consumer P D} {waker : Nat} {poll : Poll (D × P)}
    (hresting : consumer.resting) (h : core.pollNext waker = (.ok poll, core')) :
    ∃ consumer', consumer'.resting ∧
      ReflTransGen (SectionStep env) ⟨core, consumer⟩ ⟨core', consumer'⟩ := by
  unfold DAGcore.pollNext at h
  split at h
  · rename_i hshutdown
    cases h
    exact ⟨.idle, trivial, .single (.quit hresting hshutdown)⟩
  · rename_i hshutdown
    have henter : SectionStep env ⟨core, consumer⟩ ⟨core, .entered waker⟩ :=
      .enter waker hresting (Bool.eq_false_iff.mpr hshutdown)
    split at h
    · rename_i hlast
      cases h
      exact ⟨.waiting waker none core.wakes.length, trivial,
        .head henter (.single (.readNone rfl hlast))⟩
    · rename_i last hlast
      have hread : ReflTransGen (SectionStep env) ⟨core, consumer⟩
          ⟨core, .looping waker last core.finalisedLog⟩ :=
        .head henter (.single (.readSome rfl hlast))
      obtain ⟨core₁, hrun, hend⟩ := DAGcore.pollLoop_induct
        (I := fun c => ReflTransGen (SectionStep env) ⟨core, consumer⟩
          ⟨c, .looping waker last core.finalisedLog⟩)
        (fun c c' hrun hturn => hrun.tail (.turn rfl (PollTurn.result_again hturn)))
        h hread
      rcases hend with ⟨rfl, hreading, rfl⟩ | ⟨item, core₂, rfl, hturn, rfl⟩
      · refine ⟨.waiting waker (some last) core₁.wakes.length, trivial,
          hrun.tail (.pend rfl ?_)⟩
        rw [DAGcore.pollTurn_eq, hreading]
      · have hemit := hrun.tail (.emit rfl (PollTurn.result_data hturn))
        exact ⟨.idle, trivial, hemit.tail (.deliver rfl)⟩

/-- What the consumer knows in the middle of a call, and while it waits. -/
structure SectionInv (s : Streaming P D T H PK SK Sig) : Prop where
  log : LogUpToDate s.core
  looping : ∀ waker last log, s.consumer = .looping waker last log →
    log = List.range (last + 1)
  waiting : ∀ waker last wakes, s.consumer = .waiting waker last wakes →
    wakes ≤ s.core.wakes.length

omit [LinearOrder P] [LinearOrder H] in
/-- A call finds the finalisation point where it saw it exactly when no frame has
been finalised in between. -/
theorem SectionInv.last_eq_iff (h : SectionInv s) {waker last : Nat}
    {log : List Nat} (hlooping : s.consumer = .looping waker last log) :
    s.core.lastFinalisedFrame = some last ↔ s.core.finalisedLog = log := by
  rw [h.looping _ _ _ hlooping, h.log]
  have hlength : List.range s.core.firstNotFinalisedFrame = List.range (last + 1) ↔
      s.core.firstNotFinalisedFrame = last + 1 := by
    constructor
    · intro heq
      have hcount := congrArg List.length heq
      rwa [List.length_range, List.length_range] at hcount
    · exact congrArg List.range
  rw [hlength]
  unfold DAGcore.firstNotFinalisedFrame
  cases s.core.lastFinalisedFrame with
  | none => simp
  | some last' => simp

theorem SectionInv.step (h : SectionInv s) (hstep : SectionStep env s s') :
    SectionInv s' := by
  have hsame : ∀ {core' : DAGcore P D T H PK SK Sig}, s.core.SameNode core' →
      LogUpToDate core' := by
    intro core' hsame
    unfold LogUpToDate
    rw [hsame.log, hsame.firstNotFinalisedFrame]
    exact h.log
  cases hstep with
  | insert hinsert =>
      refine ⟨h.log.insert hinsert, h.looping, fun waker last wakes hwaiting => ?_⟩
      have hle := h.waiting waker last wakes hwaiting
      rcases insertEvent_wakes hinsert with ⟨-, hwakes, -⟩ | hwakes
      · rwa [hwakes]
      · rw [hwakes, List.length_append]
        exact hle.trans (Nat.le_add_right _ _)
  | quit | enter | deliver =>
      exact ⟨h.log, (fun _ _ _ h => by cases h), fun _ _ _ h => by cases h⟩
  | readNone =>
      refine ⟨h.log, (fun _ _ _ h => by cases h), ?_⟩
      intro _ _ _ hwaiting
      cases hwaiting
      exact Nat.le_refl _
  | readSome _ hlast =>
      refine ⟨h.log, ?_, (fun _ _ _ h => by cases h)⟩
      intro _ _ _ hlooping
      cases hlooping
      rw [h.log, DAGcore.firstNotFinalisedFrame, hlast]
  | turn hlooping hturn =>
      have hnode := DAGcore.pollTurn_sameNode (congrArg PollTurn.result hturn)
      refine ⟨hsame hnode, h.looping, ?_⟩
      intro _ _ _ hwaiting
      cases hlooping.symm.trans hwaiting
  | emit hlooping hturn =>
      have hnode := DAGcore.pollTurn_sameNode (congrArg PollTurn.result hturn)
      exact ⟨hsame hnode, (fun _ _ _ h => by cases h), (fun _ _ _ h => by cases h)⟩
  | pend hlooping hturn =>
      obtain ⟨-, rfl⟩ := DAGcore.pollTurn_pending hturn
      refine ⟨h.log, (fun _ _ _ h => by cases h), ?_⟩
      intro _ _ _ hwaiting
      cases hwaiting
      exact Nat.le_refl _

/-- A call that returns `Pending` leaves no wake-up behind exactly when it is in
time; from then on the next frame finalised wakes the consumer. -/
theorem Awake.step_iff (h : Awake s) (hinv : SectionInv s)
    (hstep : SectionStep env s s') : Awake s' ↔ Timely s s' := by
  cases hstep with
  | insert hinsert =>
      refine iff_of_true ?_ ?_
      · intro waker last wakes hwaiting
        have hle := hinv.waiting waker last wakes hwaiting
        rcases h waker last wakes hwaiting with ⟨hwaker, hlast⟩ | hwoken
        · rcases insertEvent_wakes hinsert with ⟨hkeep, -, hsame⟩ | hwakes
          · exact Or.inl ⟨hkeep.trans hwaker, hsame.trans hlast⟩
          · right
            rw [hwakes, List.drop_append_of_le_length hle, hwaker]
            exact List.mem_append_right _ List.mem_cons_self
        · right
          rcases insertEvent_wakes hinsert with ⟨-, hwakes, -⟩ | hwakes
          · rwa [hwakes]
          · rw [hwakes, List.drop_append_of_le_length hle]
            exact List.mem_append_left _ hwoken
      · intro waker last log last' wakes hlooping hwaiting
        cases hlooping.symm.trans hwaiting
  | quit | enter | deliver =>
      exact iff_of_true (fun _ _ _ => nofun) fun _ _ _ _ _ _ => nofun
  | readSome | emit =>
      exact iff_of_true (fun _ _ _ => nofun) fun _ _ _ _ _ _ => nofun
  | readNone hentered hlast =>
      refine iff_of_true ?_ ?_
      · intro _ _ _ hwaiting
        cases hwaiting
        exact Or.inl ⟨rfl, hlast⟩
      · intro _ _ _ _ _ hlooping
        cases hentered.symm.trans hlooping
  | turn hlooping _ =>
      refine iff_of_true ?_ ?_
      · intro _ _ _ hwaiting
        cases hlooping.symm.trans hwaiting
      · intro _ _ _ _ _ _ hwaiting
        cases hlooping.symm.trans hwaiting
  | pend hlooping hturn =>
      obtain ⟨-, rfl⟩ := DAGcore.pollTurn_pending hturn
      have hiff := hinv.last_eq_iff hlooping
      constructor
      · intro hawake waker' last' log' _ _ hlooping' _
        cases hlooping.symm.trans hlooping'
        apply hiff.mp
        -- nothing can have been woken since the waker was registered
        rcases hawake _ _ _ rfl with ⟨-, hlast⟩ | hwoken
        · exact hlast
        · rw [List.drop_length] at hwoken
          exact (List.not_mem_nil hwoken).elim
      · intro htimely _ _ _ hwaiting
        cases hwaiting
        exact Or.inl ⟨rfl, hiff.mpr (htimely _ _ _ _ _ hlooping rfl)⟩

end Sections

section Runs

variable [Inhabited H] {env : Env P D T H PK SK Sig} {conf : DAGconfig P PK SK}
  {trace : List (Streaming P D T H PK SK Sig)}

theorem SectionRun.sectionInv (h : SectionRun env conf trace) :
    ∀ s ∈ trace, SectionInv s := by
  induction h with
  | start hnew =>
      obtain ⟨store, -, rfl⟩ := DAGcore.new_eq_ok hnew
      intro s hs
      rw [List.mem_singleton.mp hs]
      exact ⟨rfl, fun _ _ _ => nofun, fun _ _ _ => nofun⟩
  | step _ hstep ih =>
      intro s hs
      rcases List.mem_cons.mp hs with rfl | hs
      · exact (ih _ List.mem_cons_self).step hstep
      · exact ih s hs

/-- No wake-up is lost in a run exactly when every call that returns `Pending` is
in time. -/
theorem awake_iff_timely (h : SectionRun env conf trace) :
    (∀ s ∈ trace, Awake s) ↔ trace.IsChain fun s' s => Timely s s' := by
  induction h with
  | start hnew =>
      refine iff_of_true ?_ (.singleton _)
      intro s hs
      rw [List.mem_singleton.mp hs]
      exact fun _ _ _ => nofun
  | @step s s' past hrun hstep ih =>
      have hinv := hrun.sectionInv s List.mem_cons_self
      rw [List.forall_mem_cons, List.isChain_cons_cons, ← ih]
      constructor
      · rintro ⟨hawake, hpast⟩
        exact ⟨((hpast s List.mem_cons_self).step_iff hinv hstep).mp hawake, hpast⟩
      · rintro ⟨htimely, hpast⟩
        exact ⟨((hpast s List.mem_cons_self).step_iff hinv hstep).mpr htimely,
          hpast⟩

end Runs

namespace TwoPeers

/-- The consumer of the first peer has read that frame 0 is finalised, and walks
over the two leaf events in it. -/
def walked : Core :=
  { after (start 0) [b₁, a₁] with
    currentFrame := some 1, currentEvent := none, currentTx := some 0 }

/-- Meanwhile an insertion has finalised frame 1. -/
def overtaken : Core := after walked [b₂, a₂]

def walkedTrace : List (Streaming Nat Nat Unit Nat Unit Unit Unit) :=
  let two := after (start 0) [b₁, a₁]
  [⟨walked, .looping 5 0 [0]⟩,
    ⟨{ two with currentEvent := some 1 }, .looping 5 0 [0]⟩,
    ⟨two, .looping 5 0 [0]⟩, ⟨two, .entered 5⟩, ⟨two, .idle⟩,
    ⟨after (start 0) [b₁], .idle⟩, ⟨start 0, .idle⟩]

theorem sectionRun_walked : SectionRun env (conf 0) walkedTrace := by
  have hstart : SectionRun env (conf 0) [⟨start 0, .idle⟩] := .start rfl
  have hfirst : ((start 0).insertEvent env b₁).1 = .ok true := by decide +kernel
  have hsecond : ((after (start 0) [b₁]).insertEvent env a₁).1 = .ok true := by
    decide +kernel
  have hinserted := (hstart.step (.insert (insertEvent_after hfirst))).step
    (.insert (insertEvent_after hsecond))
  have hread := (hinserted.step (.enter 5 trivial rfl)).step (.readSome rfl rfl)
  have hturn : (after (start 0) [b₁, a₁]).pollTurn 5 0 =
      .again { after (start 0) [b₁, a₁] with currentEvent := some 1 } := rfl
  have hturn' : ({ after (start 0) [b₁, a₁] with currentEvent := some 1 }
      : Core).pollTurn 5 0 = .again walked := rfl
  exact (hread.step (.turn rfl hturn)).step (.turn rfl hturn')

/-- The first peer's consumer goes to sleep by frame 0 after frame 1 has been
finalised, and nothing has woken it. -/
theorem wakeup_lost : ∃ trace, SectionRun env (conf 0) trace ∧
    ∃ s ∈ trace, ¬ Awake s := by
  have hfirst : (walked.insertEvent env b₂).1 = .ok true := by decide +kernel
  have hsecond : ((after walked [b₂]).insertEvent env a₂).1 = .ok true := by
    decide +kernel
  have hpend : overtaken.pollTurn 5 0 = .pending (overtaken.setWaker 5) := rfl
  have hasleep := ((sectionRun_walked.step (.insert (insertEvent_after hfirst))).step
    (.insert (insertEvent_after hsecond))).step (.pend rfl hpend)
  refine ⟨_, hasleep, _, List.mem_cons_self, ?_⟩
  intro hawake
  have hlast : overtaken.lastFinalisedFrame = some 1 := by decide +kernel
  rcases hawake 5 (some 0) _ rfl with ⟨-, hstale⟩ | hwoken
  · cases hlast.symm.trans hstale
  · rw [List.drop_length] at hwoken
    exact (List.not_mem_nil hwoken).elim

/-- Had the consumer gone to sleep at once, nothing would have been lost. -/
theorem walked_awake :
    SectionRun env (conf 0) (⟨walked.setWaker 5, .waiting 5 (some 0) 0⟩ :: walkedTrace) ∧
      ∀ s ∈ (⟨walked.setWaker 5, .waiting 5 (some 0) 0⟩ :: walkedTrace :
        List (Streaming Nat Nat Unit Nat Unit Unit Unit)), Awake s := by
  have hpend : walked.pollTurn 5 0 = .pending (walked.setWaker 5) := rfl
  have hrun : SectionRun env (conf 0)
      (⟨walked.setWaker 5, .waiting 5 (some 0) 0⟩ :: walkedTrace) :=
    sectionRun_walked.step (.pend rfl hpend)
  refine ⟨hrun, (awake_iff_timely hrun).mpr ?_⟩
  have hidle : walkedTrace.IsChain fun s' s => Timely s s' := by
    unfold walkedTrace
    simp [Timely]
  refine .cons_cons ?_ hidle
  intro _ _ _ _ _ hlooping _
  cases hlooping
  rfl

end TwoPeers

end ConsensusDag
