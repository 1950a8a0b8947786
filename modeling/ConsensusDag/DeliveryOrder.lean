/-
Nodes that insert the same event graph deliver the same items in the same order:
the walk of the stream reads finalised frames only, and these are the same on
every node.
-/
import ConsensusDag.Delivery
import ConsensusDag.Finality
import ConsensusDag.Lib.Emission

namespace ConsensusDag

open Emissions DAGcore

section Nodes

variable {P D T H PK SK Sig : Type} [LinearOrder P] [LinearOrder H]
  [Inhabited H] {env : Env P D T H PK SK Sig} {peers : List (DAGPeer P PK)}

/-- The runs of a node whose consumer polls between insertions, with the items
delivered so far. -/
inductive NodeRun (dag : EventDag env peers) (conf : DAGconfig P PK SK) :
    List (D × P) → List (HashEvent P D T H) → DAGcore P D T H PK SK Sig → Prop
  | start {core : DAGcore P D T H PK SK Sig} :
      conf.peers.peers.Perm peers →
      DAGcore.new env conf SledStore.empty = .ok core →
      NodeRun dag conf [] [] core
  | insert {out : List (D × P)} {inserted : List (HashEvent P D T H)}
      {core core' : DAGcore P D T H PK SK Sig} (event : Event P D T H Sig) :
      NodeRun dag conf out inserted core →
      event.toHashEvent ∈ dag.events → event.toHashEvent ∉ inserted →
      DAGcore.insertEvent env event core = (.ok true, core') →
      NodeRun dag conf out (event.toHashEvent :: inserted) core'
  | poll {out : List (D × P)} {inserted : List (HashEvent P D T H)}
      {core core' : DAGcore P D T H PK SK Sig} {poll : Poll (D × P)}
      (waker : Nat) :
      NodeRun dag conf out inserted core →
      core.pollNext waker = (.ok poll, core') →
      NodeRun dag conf (out ++ poll.items) inserted core'

/-- One step of the walk, taken on some node that holds part of the graph. -/
def WalkStep (dag : EventDag env peers) (cursor : Cursor) (items : List (D × P))
    (cursor' : Cursor) : Prop :=
  ∃ inserted core core' waker last, DagInv dag inserted core ∧ CursorInv core ∧
    core.lastFinalisedFrame = some last ∧
    (DAGcore.pollTurn waker last core).result = some (items, core') ∧
    core.cursor = cursor ∧ core'.cursor = cursor'

theorem DagRun.nodeRun {dag : EventDag env peers} {conf : DAGconfig P PK SK}
    {inserted : List (HashEvent P D T H)} {core : DAGcore P D T H PK SK Sig}
    (h : DagRun dag conf inserted core) : NodeRun dag conf [] inserted core := by
  obtain ⟨start, hperm, hnew, hext⟩ := h
  induction hext with
  | refl => exact .start hperm hnew
  | insert event _ hmem hfresh hinsert ih =>
      exact .insert event ih hmem hfresh hinsert

variable {dag : EventDag env peers} {conf conf' : DAGconfig P PK SK}
  {inserted inserted' : List (HashEvent P D T H)}
  {core core' : DAGcore P D T H PK SK Sig} {out out' : List (D × P)}

theorem DagInv.of_sameNode (h : DagInv dag inserted core)
    (hsame : core.SameNode core') : DagInv dag inserted core' := by
  have hfirst := hsame.firstNotFinalisedFrame
  refine ⟨?_, h.closed, ?_, ?_, ?_, ?_⟩
  · rw [hsame.peers]
    exact h.peers_perm
  · rw [hfirst, hsame.store]
    exact h.store
  · rw [hfirst, hsame.store]
    exact h.sorted
  · rw [hfirst]
    exact h.finalised
  · rw [hsame.log, hfirst]
    exact h.log

/-- Two nodes keep the same event under a hash, up to signatures. -/
theorem DagInv.toHashEvent_eq (h : DagInv dag inserted core)
    (h' : DagInv dag inserted' core') {k : H} {e e' : Event P D T H Sig}
    (he : core.store.event (.hash k) = some e)
    (he' : core'.store.event (.hash k) = some e') :
    e.toHashEvent = e'.toHashEvent := by
  obtain ⟨v, _, hv, hevent, _⟩ := h.vertex_of_stored he
  obtain ⟨w, _, hw, hevent', _⟩ := h'.vertex_of_stored he'
  rw [hevent, hevent', EventDag.hashOf_injective (hv.trans hw.symm)]

/-- Which frame a turn reads does not depend on how much is finalised. -/
theorem reading_unique {cursor : Cursor} {last last' : Nat}
    {place place' : Nat × Nat} (h : reading last cursor = some place)
    (h' : reading last' cursor = some place') : place = place' := by
  unfold reading at h h'
  cases hevent : cursor.event with
  | none =>
      simp only [hevent, Option.ite_none_left_eq_some] at h h'
      exact Option.some.inj (h.2.symm.trans h'.2)
  | some event =>
      simp only [hevent] at h h'
      exact Option.some.inj (h.symm.trans h')

/-- What a step of the walk delivers, and where it leads, depends on the cursor
alone. -/
theorem walkStep_deterministic : Deterministic (WalkStep dag) := by
  rintro _ _ _ items items'
    ⟨ins, core, core₁, waker, last, hinv, hcur, hlast, hturn, rfl, rfl⟩
    ⟨ins', core', core₁', waker', last', hinv', hcur', hlast', hturn', hcursor, rfl⟩
  obtain ⟨_, frame, event, hreading, hlt⟩ := hcur.turn hlast hturn
  obtain ⟨_, frame', event', hreading', hlt'⟩ := hcur'.turn hlast' hturn'
  rw [hcursor] at hreading'
  have hplace := reading_unique hreading hreading'
  rw [Prod.mk.injEq] at hplace
  obtain ⟨rfl, rfl⟩ := hplace
  obtain ⟨_, _, hr, hread⟩ := pollTurn_result hturn
  obtain ⟨_, _, hr', hread'⟩ := pollTurn_result hturn'
  rw [hreading, Option.some.injEq, Prod.mk.injEq] at hr
  rw [hcursor, hreading', Option.some.injEq, Prod.mk.injEq] at hr'
  obtain ⟨rfl, rfl⟩ := hr
  obtain ⟨rfl, rfl⟩ := hr'
  obtain ⟨record, e, hrecord, he, hitems, _, hcore⟩ := readEvent_result hread
  obtain ⟨record', e', hrecord', he', hitems', _, hcore'⟩ := readEvent_result hread'
  -- both nodes read the same record of the same frame
  have hframe := hinv.getFrame_eq hinv' hlt hlt'
  rw [← hframe, hrecord, Option.some.injEq] at hrecord'
  subst hrecord'
  have hevent := hinv.toHashEvent_eq hinv' he he'
  have htransactions : e'.transactions = e.transactions :=
    (congrArg HashEvent.transactions hevent).symm
  have hcreator : e'.creator = e.creator :=
    (congrArg HashEvent.creator hevent).symm
  have hfields := hcursor
  simp only [cursor, Cursor.mk.injEq] at hfields
  obtain ⟨hcf, hce, hct⟩ := hfields
  constructor
  · rw [hitems, hitems', hct, Event.items, Event.items, htransactions, hcreator]
  · rw [hcore, hcore', advance_cursor, advance_cursor, ← hframe, htransactions, hcf,
      hce, hct]

/-- The state of a node, and the walk that has delivered its items. -/
structure NodeInv (dag : EventDag env peers) (out : List (D × P))
    (inserted : List (HashEvent P D T H)) (core : DAGcore P D T H PK SK Sig) :
    Prop where
  dagInv : DagInv dag inserted core
  cursorInv : CursorInv core
  walk : Emits (WalkStep dag) ⟨none, some 0, some 0⟩ out core.cursor

theorem NodeInv.of_sameNode (h : NodeInv dag out inserted core)
    (hsame : core.SameNode core') (hcursor : core'.cursor = core.cursor) :
    NodeInv dag out inserted core' := by
  refine ⟨h.dagInv.of_sameNode hsame, ?_, ?_⟩
  · exact h.cursorInv.of_cursor_eq hcursor hsame.firstNotFinalisedFrame.ge
  · rw [hcursor]
    exact h.walk

theorem NodeInv.turn (h : NodeInv dag out inserted core) {waker last : Nat}
    (hlast : core.lastFinalisedFrame = some last) {items : List (D × P)}
    (hturn : (core.pollTurn waker last).result = some (items, core')) :
    NodeInv dag (out ++ items) inserted core' := by
  refine ⟨h.dagInv.of_sameNode (pollTurn_sameNode hturn),
    (h.cursorInv.turn hlast hturn).1, h.walk.trans (Emits.single ?_)⟩
  exact ⟨inserted, core, core', waker, last, h.dagInv, h.cursorInv, hlast, hturn,
    rfl, rfl⟩

theorem NodeInv.poll (h : NodeInv dag out inserted core) {waker : Nat}
    {poll : Poll (D × P)} (hpoll : core.pollNext waker = (.ok poll, core')) :
    NodeInv dag (out ++ poll.items) inserted core' := by
  have hwaker : ∀ c : DAGcore P D T H PK SK Sig, NodeInv dag out inserted c →
      NodeInv dag (out ++ []) inserted (c.setWaker waker) := by
    intro c hc
    rw [List.append_nil]
    exact hc.of_sameNode (setWaker_sameNode c waker) rfl
  rcases pollNext_eq_ok hpoll with ⟨rfl, rfl⟩ | ⟨hlast, rfl, rfl⟩ |
    ⟨last, hlast, hloop⟩
  · change NodeInv dag (out ++ []) inserted core'
    rwa [List.append_nil]
  · exact hwaker core h
  · obtain ⟨core₁, ⟨hinv, hsame⟩, hend⟩ := pollLoop_induct
      (I := fun c => NodeInv dag out inserted c ∧ core.SameNode c)
      (fun c c' ⟨hinv, hsame⟩ hturn => by
        have hstep := hinv.turn (hsame.last.trans hlast) hturn
        rw [List.append_nil] at hstep
        exact ⟨hstep, hsame.trans (pollTurn_sameNode hturn)⟩)
      hloop ⟨h, SameNode.refl core⟩
    rcases hend with ⟨rfl, _, rfl⟩ | ⟨item, core₂, rfl, hturn, rfl⟩
    · exact hwaker core₁ hinv
    · exact (hinv.turn (hsame.last.trans hlast) hturn).of_sameNode
        (setWaker_sameNode core₂ waker) rfl

theorem NodeInv.insert {event : Event P D T H Sig}
    (h : NodeInv dag out inserted core) (hmem : event.toHashEvent ∈ dag.events)
    (hnew : event.toHashEvent ∉ inserted)
    (hinsert : DAGcore.insertEvent env event core = (.ok true, core')) :
    NodeInv dag out (event.toHashEvent :: inserted) core' := by
  obtain ⟨_, ⟨ins⟩⟩ := DAGcore.insertEvent_eq_ok hinsert
  obtain ⟨v, s, o, hadd⟩ := h.dagInv.addsVertex hmem hnew ins
  have hcursor : core'.cursor = core.cursor := by
    obtain ⟨hframe, hevent, htx, _⟩ := ins.cursor_eq
    rw [cursor, hframe, hevent, htx]
    rfl
  have hfirst := ins.firstNotFinalisedFrame_eq (h.dagInv.frames_eq hadd)
  refine ⟨h.dagInv.insert hadd, h.cursorInv.of_cursor_eq hcursor (by omega), ?_⟩
  rw [hcursor]
  exact h.walk

theorem NodeRun.nodeInv (h : NodeRun dag conf out inserted core) :
    NodeInv dag out inserted core := by
  induction h with
  | start hperm hnew =>
      have hfresh := new_fresh hnew
      refine ⟨DagInv.new hperm hnew, CursorInv.of_fresh hfresh, ?_⟩
      rw [hfresh.1]
      exact .refl _
  | insert event _ hmem hnew hinsert ih => exact ih.insert hmem hnew hinsert
  | poll waker _ hpoll ih => exact ih.poll hpoll

/-- Total order at the API: of the items two nodes have delivered, those of one
are a prefix of those of the other. -/
theorem delivered_prefix_total (h : NodeRun dag conf out inserted core)
    (h' : NodeRun dag conf' out' inserted' core') :
    out <+: out' ∨ out' <+: out :=
  Emits.prefix_total walkStep_deterministic h.nodeInv.walk h'.nodeInv.walk

end Nodes

namespace TwoPeers

/-- What a stream reads of a node with the six events, of which three frames are
final. -/
structure HoldsSix (core : Core) : Prop where
  running : core.shutdown = false
  last : core.lastFinalisedFrame = some 2
  leaves : (core.store.getFrame 0).events = [⟨1, 0⟩, ⟨3, 0⟩]
  leaf₁ : (core.store.event (.hash 1)).map Event.items = some []
  leaf₂ : (core.store.event (.hash 3)).map Event.items = some []
  later : (core.store.getFrame 1).events = [⟨4, 1⟩, ⟨2, 2⟩]
  later_items : (core.store.event (.hash 2)).map Event.items = some [(8, 0)]
  first : (core.store.getFrame 2).events = [⟨6, 3⟩, ⟨5, 4⟩]
  first_items : (core.store.event (.hash 6)).map Event.items = some [(9, 1)]

theorem holdsSix : HoldsSix (after (start 0) sixEvents) := by
  constructor <;> decide +kernel

theorem holdsSix_other : HoldsSix (after (start 1) sixEvents) := by
  constructor <;> decide +kernel

theorem HoldsSix.of_sameNode {core core' : Core} (h : HoldsSix core)
    (hsame : core.SameNode core') (hrunning : core'.shutdown = false) :
    HoldsSix core' := by
  obtain ⟨-, hlast, hleaves, hleaf₁, hleaf₂, hlater, hlater', hfirst, hfirst'⟩ := h
  rw [← hsame.store] at hleaves hleaf₁ hleaf₂ hlater hlater' hfirst hfirst'
  exact ⟨hrunning, hsame.last.trans hlast, hleaves, hleaf₁, hleaf₂, hlater, hlater',
    hfirst, hfirst'⟩

/-- A turn that reads a transaction ends the call. -/
theorem pollLoop_of_item {core : Core} {last frame event : Nat}
    {record : FrameRecord Nat} {item : Nat × Nat}
    (hreading : reading last core.cursor = some (frame, event))
    (hrecord : (core.store.getFrame frame).events[event]? = some record)
    (hitems : (core.store.event (.hash record.hash)).map Event.items = some [item])
    (htx : core.cursor.tx = some 0) :
    ∃ core', core.pollLoop 0 last = (.ok (.ready (some item)), core') ∧
      core.SameNode core' ∧ core'.shutdown = core.shutdown ∧
      core'.cursor = (if event + 1 < (core.store.getFrame frame).events.length then
        ⟨core.cursor.frame, some (event + 1), some 0⟩
        else ⟨some (frame + 1), none, some 0⟩) := by
  have htx₀ : core.currentTx.getD 0 = 0 := by
    change core.cursor.tx.getD 0 = 0
    rw [htx]
    rfl
  have hitem : [item][core.currentTx.getD 0]? = some item := by rw [htx₀]; rfl
  have hturn : core.pollTurn 0 last = _ :=
    pollTurn_eq_data hreading hrecord hitems hitem
  refine ⟨_, pollLoop_of_data _ hturn, (advance_sameNode _ _ _ _ _ _).trans
    (setWaker_sameNode _ _), advance_shutdown _ _ _ _ _ _, ?_⟩
  refine (advance_cursor _ _ _ _ _ _).trans ?_
  rw [htx₀]
  rfl

/-- The first call runs past frame 0 and delivers the transaction of the first
event of frame 2. -/
theorem HoldsSix.pollNext_first {core : Core} (h : HoldsSix core)
    (hcursor : core.cursor = ⟨none, some 0, some 0⟩) :
    ∃ core', core.pollNext 0 = (.ok (.ready (some (9, 1))), core') ∧
      HoldsSix core' ∧ core'.cursor = ⟨some 1, some 1, some 0⟩ := by
  obtain ⟨core₁, hsame₁, hrunning₁, hcursor₁, hcall⟩ := pollNext_leaves core 2
    h.running h.last hcursor h.leaves h.leaf₁ h.leaf₂
  have h₁ := h.of_sameNode hsame₁ hrunning₁
  have hreading : reading 2 core₁.cursor = some (2, 0) := by rw [hcursor₁]; rfl
  have hrecord : (core₁.store.getFrame 2).events[0]? = some ⟨6, 3⟩ := by
    rw [h₁.first]
    rfl
  obtain ⟨core₂, hloop, hsame₂, hrunning₂, hcursor₂⟩ := pollLoop_of_item hreading
    hrecord h₁.first_items (by rw [hcursor₁]; rfl)
  rw [h₁.first, hcursor₁] at hcursor₂
  exact ⟨core₂, hcall.trans hloop, h₁.of_sameNode hsame₂ (hrunning₂.trans hrunning₁),
    hcursor₂⟩

/-- The second call goes on inside frame 1, at its second event. -/
theorem HoldsSix.pollNext_second {core : Core} (h : HoldsSix core)
    (hcursor : core.cursor = ⟨some 1, some 1, some 0⟩) :
    ∃ core', core.pollNext 0 = (.ok (.ready (some (8, 0))), core') := by
  have hreading : reading 2 core.cursor = some (1, 1) := by rw [hcursor]; rfl
  have hrecord : (core.store.getFrame 1).events[1]? = some ⟨2, 2⟩ := by
    rw [h.later]
    rfl
  obtain ⟨core', hloop, -⟩ := pollLoop_of_item hreading hrecord h.later_items
    (by rw [hcursor])
  exact ⟨core', (pollNext_of_last h.running h.last).trans hloop⟩

/-- The consumer of one peer has polled twice, that of the other once. -/
theorem delivered_six_twice :
    [(9, 1), (8, 0)] <+: [(9, 1)] ∨ [(9, 1)] <+: [(9, 1), (8, 0)] := by
  obtain ⟨core, hfirst, hholds, hcursor⟩ := holdsSix.pollNext_first rfl
  obtain ⟨core', hsecond⟩ := hholds.pollNext_second hcursor
  obtain ⟨other, hother, -⟩ := holdsSix_other.pollNext_first rfl
  exact delivered_prefix_total
    (((DagRun.nodeRun dagRun_six).poll 0 hfirst).poll 0 hsecond)
    ((DagRun.nodeRun dagRun_six_other).poll 0 hother)

end TwoPeers

end ConsensusDag
