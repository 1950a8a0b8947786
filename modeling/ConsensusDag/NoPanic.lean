/-
What the unwraps and additions of a node's threads rest on, over a whole network: a
gossip list names peers only, no clock and no height is ahead of the number of events
made, and what a thread looks up next is there.  So no thread of an honest network
panics, as long as there is a number left for the next event.
-/
import ConsensusDag.ClockBounds
import ConsensusDag.OwnEvents

namespace ConsensusDag

open AssocTables

variable {P D T H PK SK Sig : Type} [LinearOrder P]

section Lists

variable {net : Network P PK SK} {i : P}

/-- The gossip list names peers only. -/
def Lists (net : Network P PK SK) (gossip : GossipList P) : Prop :=
  ∀ entry ∈ gossip.entries, entry.1 ∈ net.ids

theorem DAGPeerList.id_of_mem_getGossipList {list : DAGPeerList P PK}
    {entry : Sigma fun _ : P => Gossip} (h : entry ∈ list.getGossipList.entries) :
    entry.1 ∈ list.peers.map DAGPeer.id := by
  have hkey : entry.1 ∈ list.getGossipList :=
    AList.mem_keys.mpr (List.mem_keys_of_mem h)
  unfold getGossipList at hkey
  suffices hfold : ∀ (rest : List (DAGPeer P PK)) (g : GossipList P),
      entry.1 ∈ rest.foldl (fun g p => g.insert p.id ⟨p.lamportTime, p.height⟩) g →
      entry.1 ∈ g ∨ entry.1 ∈ rest.map DAGPeer.id from
    (hfold list.peers ∅ hkey).resolve_left (AList.notMem_empty entry.1)
  intro rest
  induction rest with
  | nil => exact fun _ hmem => Or.inl hmem
  | cons p rest ih =>
      intro g hmem
      rw [List.map_cons, List.mem_cons]
      rcases ih _ hmem with hmem | hmem
      · rcases (AList.mem_insert _).mp hmem with heq | hmem
        · exact Or.inr (Or.inl heq)
        · exact Or.inl hmem
      · exact Or.inr (Or.inr hmem)

theorem ConfSync.lists {conf : DAGconfig P PK SK} (h : ConfSync net i conf) :
    Lists net conf.peers.getGossipList := fun _ hentry =>
  h.ids.mem_iff.mp (DAGPeerList.id_of_mem_getGossipList hentry)

theorem DAGPeerList.findPeerWithLamportTimeUpdate_of_mem {list : DAGPeerList P PK}
    {id : P} (hid : id ∈ list.peers.map DAGPeer.id) (time : Nat) :
    ∃ peer list', list.findPeerWithLamportTimeUpdate id time = .ok (peer, list') := by
  obtain ⟨i, _, hi, -⟩ := findPeerMut_of_mem hid
  obtain ⟨peer, hpeer⟩ := findPeer_of_mem hid
  unfold findPeerWithLamportTimeUpdate
  simp only [hi, hpeer, bind, Except.bind]
  exact ⟨_, _, rfl⟩

omit [LinearOrder P] in
/-- An event that can be hashed can be read from a message. -/
theorem exists_toEvent [Inhabited H] {env : Env P D T H PK SK Sig}
    {ev : NetEvent P D T H Sig} {k : H} (h : env.eventHash ev.toHashEvent = .ok k) :
    ∃ event, ev.toEvent env = .ok event := by
  unfold NetEvent.toEvent
  simp only [Result.bind_eq_ok, Result.unwrap_eq_ok, Prod.exists]
  exact ⟨_, k, _, Event.eventHash_eq_ok.mpr ⟨h, rfl⟩, rfl⟩

end Lists

section Counts

variable {net : Network P PK SK} {i : P} {made : Nat}

/-- A request that names peers only, from a clock that is not ahead of the number of
events made. -/
structure SyncReq.Counted (net : Network P PK SK) (made : Nat) (req : SyncReq P) :
    Prop where
  time_le : req.lamportTime ≤ made
  lists : Lists net req.gossipList

/-- A node that is not ahead of the number of events made, and whose threads have gossip
lists that name peers only. -/
structure NodeCount (net : Network P PK SK) (made : Nat)
    (n : NodeState P D T H PK SK Sig) : Prop where
  time_le : n.core.lamportTime ≤ made
  chosen : ∀ peer gossip, n.procA = .chosen peer gossip → Lists net gossip
  updated : ∀ req, n.procB = .updated req → Lists net req.gossipList
  formed : ∀ req answer, n.procB = .formed req answer →
    answer.reply.lamportTime ≤ made

omit [LinearOrder P] in
theorem SyncReq.Counted.mono {made' : Nat} {req : SyncReq P}
    (h : req.Counted net made) (hle : made ≤ made') : req.Counted net made' :=
  ⟨h.time_le.trans hle, h.lists⟩

omit [LinearOrder P] in
theorem NodeCount.mono {made' : Nat} {n : NodeState P D T H PK SK Sig}
    (h : NodeCount net made n) (hle : made ≤ made') : NodeCount net made' n :=
  ⟨h.time_le.trans hle, h.chosen, h.updated, fun req answer hproc =>
    (h.formed req answer hproc).trans hle⟩

variable [LinearOrder H] [Inhabited H] {env : Env P D T H PK SK Sig}
  {requests : List (SyncReq P)} {replies : List (Answer P D T H Sig)}
  {n n' : NodeState P D T H PK SK Sig} {out : Output P D T H Sig}

/-- The clock of a node goes on by one with each event that it makes, and otherwise to
what a message brings. -/
theorem NodeCount.time_step (h : NodeCount net made n)
    (hrequests : ∀ req ∈ requests, req.Counted net made)
    (hreplies : ∀ answer ∈ replies, answer.reply.lamportTime ≤ made)
    (hstep : NodeStep env requests replies n n' out) :
    n'.core.lamportTime ≤ made + out.created.length := by
  have hle := h.time_le
  cases hstep with
  | formEvent _ htime htx hitx _ =>
      obtain ⟨-, rfl⟩ := getNextLamportTime_eq_ok htime
      cases htx
      cases hitx
      exact Nat.succ_le_succ hle
  | insertOwn _ _ hinsert =>
      obtain ⟨-, ⟨ins⟩⟩ := DAGcore.insertEvent_eq_ok hinsert
      exact ins.lamportTime_eq.trans_le hle
  | insertEvent _ hinsert =>
      obtain ⟨-, ⟨ins⟩⟩ := DAGcore.insertEvent_eq_ok hinsert
      exact ins.lamportTime_eq.trans_le hle
  | receiveReply _ hmem =>
      rw [updateLamportTime_eq]
      exact max_le hle (hreplies _ hmem)
  | receiveRequest _ hmem =>
      rw [updateLamportTime_eq]
      exact max_le hle (hrequests _ hmem).time_le
  | choosePeer | sendRequest | nextHeight | otherHeight | readParents
  | checkEvent | skipEvent | updatePeer | finishReply | collectEvents
  | collectFails | listGossip | formReply | sendReply | sendFails
  | addTransaction => exact hle

theorem NodeCount.step (h : NodeCount net made n) (hconf : ConfSync net i n.core.conf)
    (hrequests : ∀ req ∈ requests, req.Counted net made)
    (hreplies : ∀ answer ∈ replies, answer.reply.lamportTime ≤ made)
    (hstep : NodeStep env requests replies n n' out) :
    NodeCount net (made + out.created.length) n' ∧
      (∀ req ∈ out.requests, req.Counted net made) ∧
      ∀ answer ∈ out.replies, answer.reply.lamportTime ≤ made := by
  have htime := h.time_step hrequests hreplies hstep
  have hconf' := hconf.mono hstep.sameKeys
  have h' : NodeCount net (made + out.created.length) n :=
    h.mono (Nat.le_add_right _ _)
  have hnone : (∀ req ∈ ([] : List (SyncReq P)), req.Counted net made) ∧
      ∀ answer ∈ ([] : List (Answer P D T H Sig)), answer.reply.lamportTime ≤ made :=
    ⟨fun _ hmem => (List.not_mem_nil hmem).elim,
      fun _ hmem => (List.not_mem_nil hmem).elim⟩
  cases hstep with
  | choosePeer _ _ =>
      refine ⟨⟨htime, ?_, h'.updated, h'.formed⟩, hnone⟩
      rintro peer gossip ⟨⟩
      exact hconf'.lists
  | sendRequest hproc =>
      refine ⟨⟨htime, nofun, h'.updated, h'.formed⟩, ?_, hnone.2⟩
      intro req hmem
      rw [List.mem_singleton.mp hmem]
      exact ⟨h.time_le, h.chosen _ _ hproc⟩
  | nextHeight | otherHeight | readParents | formEvent | insertOwn =>
      exact ⟨⟨htime, nofun, h'.updated, h'.formed⟩, hnone⟩
  | receiveReply | checkEvent | skipEvent | insertEvent | updatePeer | finishReply
  | addTransaction =>
      exact ⟨⟨htime, h'.chosen, h'.updated, h'.formed⟩, hnone⟩
  | receiveRequest _ hmem =>
      refine ⟨⟨htime, h'.chosen, ?_, nofun⟩, hnone⟩
      rintro req ⟨⟩
      exact (hrequests _ hmem).lists
  | collectEvents | collectFails | listGossip | sendFails =>
      exact ⟨⟨htime, h'.chosen, nofun, nofun⟩, hnone⟩
  | formReply _ =>
      refine ⟨⟨htime, h'.chosen, nofun, ?_⟩, hnone⟩
      rintro req answer ⟨⟩
      exact h'.time_le
  | sendReply hproc _ =>
      refine ⟨⟨htime, h'.chosen, nofun, nofun⟩, hnone.1, ?_⟩
      intro answer hmem
      rw [List.mem_singleton.mp hmem]
      exact h.formed _ _ hproc

end Counts

namespace Network

variable [LinearOrder H] [Inhabited H] {net : Network P PK SK}
  {env : Env P D T H PK SK Sig} {w w' : World P D T H PK SK Sig} {i : P}

variable (net w) in
/-- No clock and no height is ahead of the number of events made. -/
structure CountInv : Prop where
  height_le : ∀ v ∈ w.created, v.height ≤ w.created.length
  nodes : ∀ i ∈ net.ids, NodeCount net w.created.length (w.nodes i)
  requests : ∀ req ∈ w.requests, req.Counted net w.created.length
  replies : ∀ answer ∈ w.replies, answer.reply.lamportTime ≤ w.created.length

omit [LinearOrder P] [LinearOrder H] in
theorem CountInv.made_height_le (h : net.CountInv w) {v : HashEvent P D T H}
    (hv : net.Made w v) : v.height ≤ w.created.length := by
  rcases hv with ⟨peer, hpeer, rfl⟩ | hmem
  · exact (net.fresh peer hpeer).1.trans_le (Nat.zero_le _)
  · exact h.height_le v hmem

theorem CountInv.step (hsign : net.SignInv env w)
    (hsync : net.SyncInv env w) (h : net.CountInv w) (hstep : net.Step env w w') :
    net.CountInv w' := by
  cases hstep with
  | @node i n out hi hnode =>
      have hconf := hsign.conf i hi
      have hlength : (w.step i n out).created.length =
          w.created.length + out.created.length :=
        List.length_append.trans (Nat.add_comm _ _)
      have hle : w.created.length ≤ (w.step i n out).created.length :=
        hlength.symm ▸ Nat.le_add_right _ _
      obtain ⟨hnew, hrequests, hreplies⟩ := (h.nodes i hi).step hconf
        (fun req hmem => h.requests req (List.mem_of_mem_filter hmem))
        (fun answer hmem => h.replies answer (List.mem_of_mem_filter hmem)) hnode
      constructor
      case height_le =>
        intro v hmem
        rcases List.mem_append.mp hmem with hmem | hmem
        · -- one above its self-parent, it raises the greatest height by one at most
          rcases (hsync.nodes i hi).created_cases hconf hnode with
            hnil | ⟨v', hout, -, -, s, hs, -, -, hheight⟩
          · rw [hnil] at hmem
            exact (List.not_mem_nil hmem).elim
          · rw [hlength, hout]
            rw [hout, List.mem_singleton] at hmem
            rw [hmem, ← hheight]
            exact Nat.succ_le_succ (h.made_height_le hs)
        · exact (h.height_le v hmem).trans hle
      case nodes =>
        intro j hj
        by_cases hji : j = i
        · subst hji
          rw [World.step_nodes_self, hlength]
          exact hnew
        · rw [World.step_nodes_of_ne w hji]
          exact (h.nodes j hj).mono hle
      case requests =>
        intro req hmem
        rcases List.mem_append.mp hmem with hmem | hmem
        · exact (hrequests req hmem).mono hle
        · exact (h.requests req hmem).mono hle
      case replies =>
        intro answer hmem
        rcases List.mem_append.mp hmem with hmem | hmem
        · exact (hreplies answer hmem).trans hle
        · exact (h.replies answer hmem).trans hle

theorem CountInv.initial (h : net.Initial env w) : net.CountInv w := by
  constructor
  case height_le =>
    rw [h.created]
    exact fun _ hmem => (List.not_mem_nil hmem).elim
  case nodes =>
    intro i hi
    obtain ⟨core, hnew, hnode⟩ := h.node i hi
    obtain ⟨store, -, rfl⟩ := DAGcore.new_eq_ok hnew
    rw [hnode]
    exact ⟨Nat.zero_le _, nofun, nofun, nofun⟩
  case requests =>
    rw [h.requests]
    exact fun _ hmem => (List.not_mem_nil hmem).elim
  case replies =>
    rw [h.replies]
    exact fun _ hmem => (List.not_mem_nil hmem).elim

theorem Reachable.countInv (hhonest : net.Honest env) (h : net.Reachable env w)
    (hfree : net.CollisionFree env w) : net.CountInv w := by
  induction h with
  | initial h => exact .initial h
  | step h hstep ih =>
      have hfree' := hfree.of_step hstep
      exact (ih hfree').step (h.signInv hhonest.toKeyed) (h.syncInv hhonest hfree')
        hstep

omit [LinearOrder P] [LinearOrder H] in
/-- What a node holds is no higher than the number of events made. -/
theorem CountInv.reaches_le (h : net.CountInv w) (hclock : net.ClockInv env w)
    (hi : i ∈ net.ids) {c : P} {height : Nat} (hreach : Reaches (held w i) c height) :
    height ≤ w.created.length := by
  obtain ⟨v, hv, -, rfl⟩ := hreach
  exact h.made_height_le ((hclock.nodes i hi).store.history.made v hv)

omit [LinearOrder H] in
/-- No chain of a store goes on to the last height. -/
theorem CountInv.runsOut (h : net.CountInv w) (hclock : net.ClockInv env w)
    (hsync : net.SyncInv env w) (hroom : w.created.length < usizeMax)
    (hi : i ∈ net.ids) {j : P} (hj : j ∈ net.ids) {gossip : GossipList P}
    (hlists : Lists net gossip) (hasks : Asks net (held w j) gossip) :
    (w.nodes i).core.store.RunsOut gossip.entries := by
  intro entry hentry
  obtain ⟨g, hlookup, hreach⟩ := hasks entry.1 (hlists entry hentry)
  obtain rfl : entry.2 = g := Option.some.inj
    ((Table.mem_entries_iff_lookup.mp hentry).symm.trans hlookup)
  refine ⟨w.created.length + 1, Nat.lt_succ_of_le (h.reaches_le hclock hj hreach),
    hroom, Option.eq_none_iff_forall_ne_some.mpr fun e he => ?_⟩
  obtain ⟨hheld, -, hheight⟩ := (hsync.nodes i hi).store.indexed _ _ e he
  have hle := h.reaches_le hclock hi ⟨_, hheld, rfl, rfl⟩
  exact absurd hheight (Nat.ne_of_lt (Nat.lt_succ_of_le hle))

/-- The network can take a step that moves a thread of node `i` on. -/
def Moves {α : Type} (net : Network P PK SK) (env : Env P D T H PK SK Sig) (i : P)
    (thread : NodeState P D T H PK SK Sig → α) (w : World P D T H PK SK Sig) : Prop :=
  ∃ w', net.Step env w w' ∧ thread (w'.nodes i) ≠ thread (w.nodes i)

theorem Moves.of_node {α : Type} {thread : NodeState P D T H PK SK Sig → α}
    {n : NodeState P D T H PK SK Sig} {out : Output P D T H Sig} (hi : i ∈ net.ids)
    (hstep : NodeStep env (w.requestsTo i) (w.repliesTo i) (w.nodes i) n out)
    (hne : thread n ≠ thread (w.nodes i)) : net.Moves env i thread w :=
  ⟨_, .node hi hstep, (World.step_nodes_self w i n out).symm ▸ hne⟩

/-- No thread of node `i` panics in the section that it comes to next: one that has
something in hand goes on, whatever the order in which `procedure_b` goes over the
gossip list, and with debug lines written or not.  The listener passes over no event,
and no request goes unanswered. -/
structure GoesOn (net : Network P PK SK) (env : Env P D T H PK SK Sig) (i : P)
    (w : World P D T H PK SK Sig) : Prop where
  procA : net.Moves env i NodeState.procA w
  listener : (w.nodes i).listener ≠ .idle → net.Moves env i NodeState.listener w
  accepts : ∀ answer ev rest event,
    (w.nodes i).listener = .processing answer (ev :: rest) →
    ev.toEvent env = .ok event → (w.nodes i).core.checkEvent env event = .ok true
  procB : (w.nodes i).procB ≠ .idle → net.Moves env i NodeState.procB w
  log : ∀ req ∈ w.requestsTo i, ∀ debug,
    logRequest debug (w.nodes i).core.conf.peers req = .ok ()
  collects : ∀ req gossip, (w.nodes i).procB = .updated req →
    gossip.entries.Perm req.gossipList.entries →
    ∃ events, (w.nodes i).core.store.getEventsForGossip gossip = .ok events
  answers : ∀ req answer, (w.nodes i).procB = .formed req answer →
    ∃ peer list, (w.nodes i).core.conf.peers.findPeerWithLamportTimeUpdate
      answer.reply.toId req.lamportTime = .ok (peer, list)

section Threads

variable (hhonest : net.Honest env) (h : net.Reachable env w)
  (hfree : net.CollisionFree env w) (hi : i ∈ net.ids)
include hhonest h hfree hi

theorem exists_nextHeight (hroom : w.created.length < usizeMax)
    {peer : DAGPeer P PK} (hproc : (w.nodes i).procA = .requested peer) :
    ∃ k own height own',
      (w.nodes i).core.conf.peers.findPeerMut (w.nodes i).core.conf.creator = .ok k ∧
      (w.nodes i).core.conf.peers.peers[k]? = some own ∧
      own.getNextHeight = .ok (height, own') := by
  have hconf := (h.signInv hhonest.toKeyed).conf i hi
  obtain ⟨top, hown⟩ := ((h.syncInv hhonest hfree).nodes i hi).own
  have hself := hconf.ids.mem_iff.mpr (hconf.creator.symm ▸ hi)
  obtain ⟨k, own, hfind, hget⟩ := DAGPeerList.findPeerMut_of_mem hself
  have hid := (DAGPeerList.findPeerMut_eq_ok hfind hget).trans hconf.creator
  have hheight := hown.height own (List.mem_of_getElem? hget) hid
  rw [hproc] at hheight
  have hle := (h.countInv hhonest hfree).reaches_le h.clockInv hi hown.reaches
  obtain ⟨height, hadd⟩ := usizeAdd_one_ends_iff.mpr
    (calc own.height = top := hheight
      _ ≤ w.created.length := hle
      _ < usizeMax := hroom)
  refine ⟨k, own, height, { own with height := height }, hfind, hget, ?_⟩
  simp only [DAGPeer.getNextHeight, hadd, bind, Except.bind]
  rfl

theorem exists_nextTime (hroom : w.created.length < usizeMax) :
    ∃ time core', (w.nodes i).core.getNextLamportTime = .ok (time, core') := by
  have hle := ((h.countInv hhonest hfree).nodes i hi).time_le
  obtain ⟨time, hadd⟩ := usizeAdd_one_ends_iff.mpr (hle.trans_lt hroom)
  refine ⟨time, { (w.nodes i).core with lamportTime := time }, ?_⟩
  simp only [DAGcore.getNextLamportTime, hadd, bind, Except.bind]
  rfl

section Round

variable [Inhabited P] (hbuilt : net.Built) (hn : 2 ≤ net.peers.length)
include hbuilt hn

/-- The peer of the round is another one, so it is listed. -/
theorem finds_other {peer : DAGPeer P PK} {height : Nat}
    (hproc : (w.nodes i).procA = .numbered peer height) :
    ∃ other, (w.nodes i).core.conf.peers.findPeer peer.id = .ok other := by
  have hchose := h.chose hhonest hbuilt hn hfree hi
  rw [hproc] at hchose
  obtain ⟨p, hp, -, rfl⟩ := hchose.resolve_left (by simp)
  have hconf := (h.signInv hhonest.toKeyed).conf i hi
  exact DAGPeerList.findPeer_of_mem (hconf.ids.mem_iff.mpr hp)

theorem finds_parents {peer : DAGPeer P PK} {height otherHeight : Nat}
    (hproc : (w.nodes i).procA = .paired peer height otherHeight) :
    (∃ o, (w.nodes i).core.store.getEventOfCreator peer.id otherHeight = .ok o) ∧
      ∃ s, (w.nodes i).core.store.getEventOfCreator (w.nodes i).core.conf.creator
        (height - 1) = .ok s := by
  obtain ⟨p, -, -, hchose⟩ :=
    (h.chose hhonest hbuilt hn hfree hi).resolve_left (by simp [hproc])
  exact reads_parents ((h.signInv hhonest.toKeyed).conf i hi)
    ((h.syncInv hhonest hfree).nodes i hi) hproc hchose

theorem inserts_own (hcomputes : net.Computes env w) {event : Event P D T H Sig}
    (hproc : (w.nodes i).procA = .formed event) :
    ∃ k event' core', event.eventHash env = .ok (k, event') ∧
      (w.nodes i).core.insertEvent env event' = (.ok true, core') := by
  obtain ⟨p, -, -, hchose⟩ :=
    (h.chose hhonest hbuilt hn hfree hi).resolve_left (by simp [hproc])
  exact (h.wellFormed hhonest hcomputes hfree hi hproc hchose).inserts

/-- Neither the choice of a peer nor the heights, the parents, the time and the event
that follow from it can fail. -/
theorem procA_moves (hcomputes : net.Computes env w)
    (hroom : w.created.length < usizeMax) : net.Moves env i NodeState.procA w := by
  cases hproc : (w.nodes i).procA with
  | start =>
      obtain ⟨peer, list, hnext⟩ :=
        (h.turning hbuilt hn hhonest.ids_nodup hi).nextPeer_ok
      exact .of_node hi (.choosePeer hproc hnext) (by simp [hproc])
  | chosen peer gossip => exact .of_node hi (.sendRequest hproc) (by simp [hproc])
  | requested peer =>
      obtain ⟨k, own, height, own', hfind, hget, hnext⟩ :=
        exists_nextHeight hhonest h hfree hi hroom hproc
      exact .of_node hi (.nextHeight hproc hfind hget hnext) (by simp [hproc])
  | numbered peer height =>
      obtain ⟨other, hfind⟩ := finds_other hhonest h hfree hi hbuilt hn hproc
      exact .of_node hi (.otherHeight hproc hfind) (by simp [hproc])
  | paired peer height otherHeight =>
      obtain ⟨⟨o, ho⟩, s, hs⟩ := finds_parents hhonest h hfree hi hbuilt hn hproc
      exact .of_node hi (.readParents hproc ho hs) (by simp [hproc])
  | parents height selfParent otherParent =>
      obtain ⟨time, core', htime⟩ := exists_nextTime hhonest h hfree hi hroom
      exact .of_node hi (.formEvent hproc htime rfl rfl rfl) (by simp [hproc])
  | formed event =>
      obtain ⟨k, event', core', hhash, hinsert⟩ :=
        inserts_own hhonest h hfree hi hbuilt hn hcomputes hproc
      exact .of_node hi (.insertOwn hproc hhash hinsert) (by simp [hproc])

end Round

omit hfree in
/-- The events of a reply are signed by peers. -/
theorem accepts_events {answer : Answer P D T H Sig} {ev : NetEvent P D T H Sig}
    {rest : List (NetEvent P D T H Sig)} {event : Event P D T H Sig}
    (hlistener : (w.nodes i).listener = .processing answer (ev :: rest))
    (hevent : ev.toEvent env = .ok event) :
    (w.nodes i).core.checkEvent env event = .ok true := by
  have hsign := h.signInv hhonest.toKeyed
  obtain ⟨rfl, hhash⟩ := toEvent_eq_ok hevent
  apply (hsign.conf i hi).checkEvent
  exact (hsign.flow i hi).listener _ (hlistener ▸ List.mem_cons_self) _ hhash

/-- Its parents are there. -/
theorem inserts_event (hcomputes : net.Computes env w) {answer : Answer P D T H Sig}
    {event : Event P D T H Sig} {rest : List (NetEvent P D T H Sig)}
    (hlistener : (w.nodes i).listener = .checked answer event rest) :
    ∃ core', (w.nodes i).core.insertEvent env event = (.ok true, core') := by
  have hconf := (h.signInv hhonest.toKeyed).conf i hi
  have hclock := h.clockInv.nodes i hi
  have hchecked := ((h.syncInv hhonest hfree).nodes i hi).listener
  rw [hlistener] at hchecked
  have hcarried : event.toNetEvent ∈ (w.nodes i).listener.carried :=
    hlistener ▸ List.mem_cons_self
  obtain ⟨k, hk⟩ := hcomputes.hashes _ (hclock.listener _ hcarried).made
  obtain ⟨⟨s, hs⟩, o, ho⟩ := hclock.store.stored_of_ready hchecked.deliverable.1
  obtain ⟨signature, hsign⟩ := hcomputes.signs i hi k
  rw [← hconf.publicKey, ← hconf.secretKey] at hsign
  obtain ⟨submitted, hrun⟩ := h.soloRun hi
  exact insertEvent_succeeds hrun.coreInv.keys hk hs ho hsign hconf.creatorId

/-- Its creator is listed. -/
theorem finds_creator {answer : Answer P D T H Sig} {event : Event P D T H Sig}
    {rest : List (NetEvent P D T H Sig)}
    (hlistener : (w.nodes i).listener = .inserted answer event rest) :
    ∃ k peer, (w.nodes i).core.conf.peers.findPeerMut event.creator = .ok k ∧
      (w.nodes i).core.conf.peers.peers[k]? = some peer := by
  have hconf := (h.signInv hhonest.toKeyed).conf i hi
  have hsync := h.syncInv hhonest hfree
  have hinserted := (hsync.nodes i hi).listener
  rw [hlistener] at hinserted
  have hmade := (h.clockInv.nodes i hi).store.history.made _ hinserted.1
  exact DAGPeerList.findPeerMut_of_mem
    (hconf.ids.mem_iff.mpr (hsync.lineage.creator_mem _ hmade))

theorem listener_moves (hcomputes : net.Computes env w)
    (hbusy : (w.nodes i).listener ≠ .idle) :
    net.Moves env i NodeState.listener w := by
  have hclock := h.clockInv.nodes i hi
  cases hcase : (w.nodes i).listener with
  | idle => exact absurd hcase hbusy
  | processing answer rest =>
      cases rest with
      | nil => exact .of_node hi (.finishReply hcase) (by simp [hcase])
      | cons ev rest =>
          have hcarried : ev ∈ (w.nodes i).listener.carried :=
            hcase ▸ List.mem_cons_self
          obtain ⟨k, hk⟩ := hcomputes.hashes _ (hclock.listener ev hcarried).made
          obtain ⟨event, hevent⟩ := exists_toEvent hk
          have hcheck := accepts_events hhonest h hi hcase hevent
          exact .of_node hi (.checkEvent hcase hevent hcheck) (by simp [hcase])
  | checked answer event rest =>
      obtain ⟨core', hinsert⟩ := inserts_event hhonest h hfree hi hcomputes hcase
      exact .of_node hi (.insertEvent hcase hinsert) (by simp [hcase])
  | inserted answer event rest =>
      obtain ⟨k, peer, hfind, hget⟩ := finds_creator hhonest h hfree hi hcase
      exact .of_node hi (.updatePeer hcase hfind hget) (by simp [hcase])

/-- A request leaves room beyond the heights that it gives. -/
theorem collects_events (hroom : w.created.length < usizeMax) {req : SyncReq P}
    {gossip : GossipList P} (hproc : (w.nodes i).procB = .updated req)
    (hperm : gossip.entries.Perm req.gossipList.entries) :
    ∃ events, (w.nodes i).core.store.getEventsForGossip gossip = .ok events := by
  have hsync := h.syncInv hhonest hfree
  have hcount := h.countInv hhonest hfree
  have hupdated := (hsync.nodes i hi).procB
  rw [hproc] at hupdated
  have hlists : Lists net gossip := fun entry hentry =>
    (hcount.nodes i hi).updated req hproc entry (hperm.mem_iff.mp hentry)
  exact (getEventsForGossip_ends_iff _ _).mpr (hcount.runsOut h.clockInv hsync hroom hi
    hupdated.1 hlists (hupdated.2.perm hperm))

theorem answers_request {req : SyncReq P} {answer : Answer P D T H Sig}
    (hproc : (w.nodes i).procB = .formed req answer) :
    ∃ peer list, (w.nodes i).core.conf.peers.findPeerWithLamportTimeUpdate
      answer.reply.toId req.lamportTime = .ok (peer, list) := by
  have hconf := (h.signInv hhonest.toKeyed).conf i hi
  have hanswer := ((h.syncInv hhonest hfree).nodes i hi).procB
  rw [hproc] at hanswer
  exact DAGPeerList.findPeerWithLamportTimeUpdate_of_mem
    (hconf.ids.mem_iff.mpr hanswer.1) _

theorem procB_moves (hroom : w.created.length < usizeMax)
    (hbusy : (w.nodes i).procB ≠ .idle) : net.Moves env i NodeState.procB w := by
  cases hcase : (w.nodes i).procB with
  | idle => exact absurd hcase hbusy
  | updated req =>
      obtain ⟨events, hevents⟩ :=
        collects_events hhonest h hfree hi hroom hcase (.refl _)
      exact .of_node hi (.collectEvents hcase (.refl _) hevents) (by simp [hcase])
  | collected req events snapshot =>
      exact .of_node hi (.listGossip hcase) (by simp [hcase])
  | listed req events snapshot gossip =>
      exact .of_node hi (.formReply hcase) (by simp [hcase])
  | formed req answer =>
      obtain ⟨peer, list, hfind⟩ := answers_request hhonest h hfree hi hcase
      exact .of_node hi (.sendReply hcase hfind) (by simp [hcase])

/-- The line that `procedure_b` writes names a peer. -/
theorem logs_request {req : SyncReq P} (hreq : req ∈ w.requestsTo i) (debug : Bool) :
    logRequest debug (w.nodes i).core.conf.peers req = .ok () := by
  have hconf := (h.signInv hhonest.toKeyed).conf i hi
  have hmem := (h.syncInv hhonest hfree).requests req (List.mem_of_mem_filter hreq)
  exact logRequest_eq_ok.mpr fun _ => hconf.ids.mem_iff.mpr hmem.1

end Threads

/-- In every state of an honest network of two peers or more, over all interleavings, no
thread of a node panics, as long as fewer events have been made than a machine integer
counts. -/
theorem no_thread_panics [Inhabited P] (hhonest : net.Honest env)
    (hbuilt : net.Built) (hn : 2 ≤ net.peers.length)
    (hcomputes : net.Computes env w) (h : net.Reachable env w)
    (hfree : net.CollisionFree env w) (hroom : w.created.length < usizeMax)
    (hi : i ∈ net.ids) : net.GoesOn env i w where
  procA := procA_moves hhonest h hfree hi hbuilt hn hcomputes hroom
  listener := listener_moves hhonest h hfree hi hcomputes
  accepts _ _ _ _ := accepts_events hhonest h hi
  procB := procB_moves hhonest h hfree hi hroom
  log _ hreq := logs_request hhonest h hfree hi hreq
  collects _ _ := collects_events hhonest h hfree hi hroom
  answers _ _ := answers_request hhonest h hfree hi

end Network

namespace TwoPeers

theorem builtNet_honest : builtNet.Honest env :=
  ⟨⟨fun _ _ => rfl, fun _ _ _ _ _ => rfl⟩, by decide⟩

/-- The first peer's listener goes on with the reply that it is in. -/
theorem answered_goes_on : ∃ w, builtNet.Reachable env w ∧
    (w.nodes 0).listener = .processing answer [sent] ∧
    Network.GoesOn builtNet env 0 w := by
  obtain ⟨n₁, requests, hanswered⟩ := reachable_answered
  exact ⟨_, builtNet_reachable hanswered, rfl, Network.no_thread_panics builtNet_honest
    (fun _ _ => ⟨peers, rfl⟩) (Nat.le_refl 2)
    ⟨fun _ _ => ⟨_, rfl⟩, fun _ _ _ => ⟨_, rfl⟩⟩ (builtNet_reachable hanswered)
    (collisionFree rfl) (show 1 < usizeMax by decide) (by decide)⟩

end TwoPeers

end ConsensusDag
