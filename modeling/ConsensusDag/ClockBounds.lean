/-
Clocks and heights as machine integers.  What comes in with a message goes into a
maximum and is counted on from there, so one message with the last number there
is leaves nothing to count to.
-/
import ConsensusDag.GossipSelection
import ConsensusDag.LamportClock
import ConsensusDag.SoloRun

namespace ConsensusDag

open AssocTables

variable {P D T H PK SK Sig : Type}

section Filed

variable {store store' : SledStore P D T H Sig}

theorem SledStore.Filed.empty : (SledStore.empty : SledStore P D T H Sig).Filed :=
  fun _ _ _ h => by cases h

/-- An event is written under its own creator and height. -/
theorem SledStore.Filed.setEvent [DecidableEq P] [DecidableEq H]
    (h : store.Filed) {e : Event P D T H Sig}
    (hevent : store'.event = (store.setEvent e).event) : store'.Filed := by
  intro c height e' he'
  rw [getEventOfCreator_eq_ok, hevent, setEvent_event_creator] at he'
  split at he'
  · rename_i hplace
    cases he'
    exact ⟨hplace.1.symm, hplace.2.symm⟩
  · exact h c height e' (getEventOfCreator_eq_ok.mpr he')

end Filed

section Runs

variable [LinearOrder P] [LinearOrder H] [Inhabited H]
  {env : Env P D T H PK SK Sig} {conf : DAGconfig P PK SK}
  {received made : DAGcore P D T H PK SK Sig → Event P D T H Sig → Prop}
  {submitted : List D} {past : List (NodeState P D T H PK SK Sig)}
  {n n' : NodeState P D T H PK SK Sig} {requests : List (SyncReq P)}
  {replies : List (Answer P D T H Sig)} {out : Output P D T H Sig}

theorem NodeStep.filed (h : NodeStep env requests replies n n' out)
    (hfiled : n.core.store.Filed) : n'.core.store.Filed := by
  rcases h.store_cases with hsame | ⟨_, _, _, ⟨ins⟩, _⟩ | ⟨_, _, _, _, ⟨ins⟩, _⟩
  · rw [hsame]
    exact hfiled
  · exact hfiled.setEvent (e := ins.stored) ins.event_eq
  · exact hfiled.setEvent (e := ins.stored) ins.event_eq

theorem SoloRun.filed (h : SoloRun env conf received made submitted n) :
    n.core.store.Filed := by
  induction h with
  | start hnew =>
      refine DAGcore.new_induct (I := fun _ store => store.Filed) hnew .empty ?_
      intro _ peer s s' _ _ hs hleaf
      obtain ⟨k, -, rfl⟩ := DAGcore.insertLeaf_eq_ok hleaf
      exact hs.setEvent rfl
  | step _ _ _ hstep _ _ ih => exact hstep.filed ih

/-- The clock never goes back. -/
theorem NodeStep.lamportTime_le (h : NodeStep env requests replies n n' out) :
    n.core.lamportTime ≤ n'.core.lamportTime := by
  cases h with
  | formEvent _ htime htx hitx _ =>
      obtain ⟨-, rfl⟩ := getNextLamportTime_eq_ok htime
      cases htx
      cases hitx
      exact Nat.le_succ _
  | insertOwn _ _ hinsert =>
      obtain ⟨-, ⟨ins⟩⟩ := DAGcore.insertEvent_eq_ok hinsert
      exact Nat.le_of_eq ins.lamportTime_eq.symm
  | insertEvent _ hinsert =>
      obtain ⟨-, ⟨ins⟩⟩ := DAGcore.insertEvent_eq_ok hinsert
      exact Nat.le_of_eq ins.lamportTime_eq.symm
  | receiveReply | receiveRequest =>
      rw [updateLamportTime_eq]
      exact Nat.le_max_left _ _
  | choosePeer | sendRequest | nextHeight | otherHeight | readParents
  | checkEvent | skipEvent | updatePeer | finishReply | collectEvents
  | collectFails | listGossip | formReply | sendReply | sendFails
  | addTransaction => exact Nat.le_refl _

/-- The states of a node with those it has left behind, latest first.  Its inbox
holds whatever the peers like. -/
inductive SoloTrace (env : Env P D T H PK SK Sig) (conf : DAGconfig P PK SK) :
    List (NodeState P D T H PK SK Sig) → NodeState P D T H PK SK Sig → Prop
  | start {core : DAGcore P D T H PK SK Sig} :
      DAGcore.new env conf SledStore.empty = .ok core →
      SoloTrace env conf [] ⟨core, .start, .idle, .idle⟩
  | step {past : List (NodeState P D T H PK SK Sig)}
      {n n' : NodeState P D T H PK SK Sig} {out : Output P D T H Sig}
      (requests : List (SyncReq P)) (replies : List (Answer P D T H Sig)) :
      SoloTrace env conf past n → NodeStep env requests replies n n' out →
      SoloTrace env conf (n :: past) n'

theorem SoloTrace.soloRun (h : SoloTrace env conf past n) :
    ∃ submitted, SoloRun env conf anyEvent anyEvent submitted n := by
  induction h with
  | start hnew => exact ⟨[], .start hnew⟩
  | step requests replies _ hstep ih =>
      obtain ⟨submitted, hrun⟩ := ih
      exact ⟨_, hrun.step requests replies hstep (fun _ _ => trivial)
        fun _ _ => trivial⟩

theorem SoloTrace.past_le (h : SoloTrace env conf past n)
    {m : NodeState P D T H PK SK Sig} (hm : m ∈ past) :
    m.core.lamportTime ≤ n.core.lamportTime := by
  induction h with
  | start _ => cases hm
  | step _ _ _ hstep ih =>
      rcases List.mem_cons.mp hm with rfl | hm
      · exact hstep.lamportTime_le
      · exact (ih hm).trans hstep.lamportTime_le

/-- There is a number left for each addition that the node comes to next. -/
structure Headroom (n : NodeState P D T H PK SK Sig) : Prop where
  clock : ∀ height selfParent otherParent,
    n.procA = .parents height selfParent otherParent → n.core.lamportTime < usizeMax
  height : ∀ peer i own, n.procA = .requested peer →
    n.core.conf.peers.findPeerMut n.core.conf.creator = .ok i →
    n.core.conf.peers.peers[i]? = some own → own.height < usizeMax
  gossip : ∀ req, n.procB = .updated req →
    n.core.store.RunsOut req.gossipList.entries

/-- The additions that the node comes to next go through.  A time that it hands out
is later than all of its clock before, and a reply has no event of a height up to
the one in the request. -/
structure CountsOn (past : List (NodeState P D T H PK SK Sig))
    (n : NodeState P D T H PK SK Sig) : Prop where
  clock : ∀ height selfParent otherParent,
    n.procA = .parents height selfParent otherParent →
    ∃ time core', n.core.getNextLamportTime = .ok (time, core') ∧
      ∀ m ∈ n :: past, m.core.lamportTime < time
  height : ∀ peer i own, n.procA = .requested peer →
    n.core.conf.peers.findPeerMut n.core.conf.creator = .ok i →
    n.core.conf.peers.peers[i]? = some own →
    ∃ height own', own.getNextHeight = .ok (height, own') ∧ own.height < height
  gossip : ∀ req gossip, n.procB = .updated req →
    gossip.entries.Perm req.gossipList.entries →
    ∃ events, n.core.store.getEventsForGossip gossip = .ok events ∧
      ∀ ev ∈ events, ∀ g, req.gossipList.lookup ev.creator = some g →
        g.height < ev.height

theorem usizeAdd_one_ends_iff {a : Nat} :
    (∃ b, usizeAdd a 1 = .ok b) ↔ a < usizeMax := by
  unfold usizeAdd
  split
  · exact iff_of_true ⟨_, rfl⟩ ‹_›
  · exact iff_of_false (by simp) (by omega)

omit [LinearOrder H] [Inhabited H] in
/-- A filed store replies with events beyond the heights of the request. -/
theorem height_lt_of_gossip {store : SledStore P D T H Sig} (hfiled : store.Filed)
    {gossip gossip' : GossipList P} (hperm : gossip'.entries.Perm gossip.entries)
    {events : List (NetEvent P D T H Sig)}
    (hevents : store.getEventsForGossip gossip' = .ok events)
    {ev : NetEvent P D T H Sig} (hev : ev ∈ events) {g : Gossip}
    (hg : gossip.lookup ev.creator = some g) : g.height < ev.height := by
  obtain ⟨c, g', height, e, hg', hchain, rfl⟩ :=
    (SledStore.mem_getEventsForGossip hevents).mp hev
  obtain ⟨hcreator, hheight⟩ :=
    hfiled c height e (SledStore.getEventOfCreator_eq_ok.mpr hchain.stored)
  have hsame : gossip.lookup c = some g' :=
    (AList.perm_lookup hperm.symm).trans hg'
  obtain rfl : g = g' := by
    have hc : e.toNetEvent.creator = c := hcreator
    rw [hc, hsame] at hg
    exact (Option.some.inj hg).symm
  calc g.height < height := hchain.le
    _ = e.toNetEvent.height := hheight.symm

/-- In every state of a run, whatever comes in, the additions go through and count
on exactly where there is a number left for them. -/
theorem countsOn_iff_headroom (h : SoloTrace env conf past n) :
    CountsOn past n ↔ Headroom n := by
  obtain ⟨submitted, hrun⟩ := h.soloRun
  have hfiled := hrun.filed
  constructor
  · intro hcounts
    refine ⟨fun height s o hproc => ?_, fun peer i own hproc hi hown => ?_,
      fun req hproc => ?_⟩
    · obtain ⟨time, core', hnext, -⟩ := hcounts.clock height s o hproc
      unfold DAGcore.getNextLamportTime at hnext
      rw [Result.bind_eq_ok] at hnext
      obtain ⟨time', htime, -⟩ := hnext
      exact usizeAdd_one_ends_iff.mp ⟨time', htime⟩
    · obtain ⟨height, own', hnext, -⟩ := hcounts.height peer i own hproc hi hown
      unfold DAGPeer.getNextHeight at hnext
      rw [Result.bind_eq_ok] at hnext
      obtain ⟨height', hheight, -⟩ := hnext
      exact usizeAdd_one_ends_iff.mp ⟨height', hheight⟩
    · obtain ⟨events, hevents, -⟩ := hcounts.gossip req _ hproc (.refl _)
      exact (getEventsForGossip_ends_iff _ _).mp ⟨events, hevents⟩
  · intro hroom
    refine ⟨fun height s o hproc => ?_, fun peer i own hproc hi hown => ?_,
      fun req gossip hproc hperm => ?_⟩
    · obtain ⟨time, htime⟩ := usizeAdd_one_ends_iff.mpr (hroom.clock height s o hproc)
      refine ⟨time, { n.core with lamportTime := time }, ?_, fun m hm => ?_⟩
      · simp only [DAGcore.getNextLamportTime, htime, bind, Except.bind]
        rfl
      · rw [usizeAdd_eq_ok htime]
        rcases List.mem_cons.mp hm with rfl | hm
        · exact Nat.lt_succ_self _
        · exact Nat.lt_succ_of_le (h.past_le hm)
    · obtain ⟨height, hheight⟩ :=
        usizeAdd_one_ends_iff.mpr (hroom.height peer i own hproc hi hown)
      refine ⟨height, { own with height := height }, ?_, ?_⟩
      · simp only [DAGPeer.getNextHeight, hheight, bind, Except.bind]
        rfl
      · rw [usizeAdd_eq_ok hheight]
        exact Nat.lt_succ_self _
    · have hends : n.core.store.RunsOut gossip.entries := fun entry hentry =>
        hroom.gossip req hproc entry (hperm.mem_iff.mp hentry)
      obtain ⟨events, hevents⟩ := (getEventsForGossip_ends_iff _ _).mpr hends
      exact ⟨events, hevents, fun ev hev g hg =>
        height_lt_of_gossip hfiled hperm hevents hev hg⟩

end Runs

namespace TwoPeers

variable {past : List Node} {time : Nat} {procB : ProcB Nat Nat Unit Nat Unit}

/-- The second peer with its clock at `time`, before it counts its height and
after. -/
def clockAt (time : Nat) : Core := { start 1 with lamportTime := time }

def counted (time : Nat) : Core := (clockAt time).setPeers
  ((clockAt time).conf.peers.writePeer 1 { peer 1 with height := 1 })

/-- Whatever its clock shows, it comes to hand out a time. -/
theorem trace_parents
    (h : SoloTrace env (conf 1) past ⟨clockAt time, .start, .idle, procB⟩) :
    ∃ past, SoloTrace env (conf 1) past
      ⟨counted time, .parents 1 3 1, .idle, procB⟩ := by
  have hnext : (start 1).conf.peers.nextPeer =
      .ok (peer 0, (start 1).conf.peers) := by rfl
  have hchosen : SoloTrace env (conf 1) _
      ⟨clockAt time, .chosen (peer 0) gossip, .idle, procB⟩ :=
    h.step [] [] (.choosePeer rfl hnext)
  have hrequested := hchosen.step [] [] (.sendRequest rfl)
  have hnumbered : SoloTrace env (conf 1) _
      ⟨counted time, .numbered (peer 0) 1, .idle, procB⟩ :=
    hrequested.step [] [] (.nextHeight rfl rfl rfl rfl)
  have hpaired := hnumbered.step [] [] (.otherHeight rfl rfl)
  have hparents := hpaired.step [] [] (.readParents rfl rfl rfl)
  exact ⟨_, hparents⟩

/-- A request of the first peer, whose clock is ahead. -/
def ahead : SyncReq Nat := ⟨0, 1, gossip, 5⟩

/-- With this request under way it counts on, from the time in it. -/
theorem counts_on_ahead : ∃ past : List Node,
    CountsOn past ⟨counted 5, .parents 1 3 1, .idle, .updated ahead⟩ := by
  have hreceived : SoloTrace env (conf 1) _
      ⟨clockAt 5, .start, .idle, .updated ahead⟩ :=
    .step [ahead] [] (.start rfl) (.receiveRequest rfl List.mem_cons_self)
  obtain ⟨past, htrace⟩ := trace_parents hreceived
  have hfree : ∀ entry ∈ gossip.entries, entry.2.height < 1 ∧ 1 ≤ usizeMax ∧
      (counted 5).store.event (.creator entry.1 1) = none := by decide
  refine ⟨past, (countsOn_iff_headroom htrace).mpr ⟨?_, ?_, ?_⟩⟩
  · exact fun _ _ _ _ => by decide
  · intro _ _ _ hproc
    cases hproc
  · intro _ hproc
    cases hproc
    exact fun entry hentry => ⟨1, hfree entry hentry⟩

/-- A request with the last number there is as its time, and nobody's heights. -/
def lastTime : SyncReq Nat := ⟨0, 1, ∅, usizeMax⟩

/-- After it the clock cannot be advanced. -/
theorem clock_overflows :
    ¬ ∀ (past : List Node) (n : Node), SoloTrace env (conf 1) past n →
      CountsOn past n := by
  intro hclaim
  have hreceived : SoloTrace env (conf 1) _
      ⟨clockAt usizeMax, .start, .idle, .updated lastTime⟩ :=
    .step [lastTime] [] (.start rfl) (.receiveRequest rfl List.mem_cons_self)
  obtain ⟨past, htrace⟩ := trace_parents hreceived
  obtain ⟨time, core', hnext, -⟩ := (hclaim past _ htrace).clock 1 3 1 rfl
  cases hnext

end TwoPeers

end ConsensusDag
