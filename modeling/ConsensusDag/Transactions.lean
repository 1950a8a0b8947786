/-
Where the transactions go that are handed to a node: out of the pool into the
event that `procedure_a` forms, and with it into the store.
-/
import ConsensusDag.LamportClock
import ConsensusDag.SoloRun

namespace ConsensusDag

section Batches

variable {P D T H PK SK Sig : Type}

/-- The transactions of the node's own event at a height. -/
def transactionsAt (store : SledStore P D T H Sig) (own : P) (height : Nat) :
    List D :=
  match store.event (.creator own height) with
  | some e => e.transactions
  | none => []

/-- The transactions of the node's own events below a height, in order. -/
def ownTransactions (store : SledStore P D T H Sig) (own : P) (bound : Nat) :
    List D :=
  (List.range bound).flatMap (transactionsAt store own)

/-- The transactions that are out of the pool and not in the store yet. -/
def ProcA.inFlight : ProcA P D T H PK Sig → List D
  | .formed event => event.transactions
  | _ => []

/-- The height of the event that `procedure_a` prepares. -/
def ProcA.height : ProcA P D T H PK Sig → Nat
  | .numbered _ height => height
  | .paired _ height _ => height
  | .parents height _ _ => height
  | .formed event => event.height
  | _ => 0

variable {store store' : SledStore P D T H Sig} {own : P} {bound bound' : Nat}

theorem transactionsAt_of_stored {height : Nat} {e : Event P D T H Sig}
    (h : store.event (.creator own height) = some e) :
    transactionsAt store own height = e.transactions := by
  unfold transactionsAt
  rw [h]

theorem ownTransactions_congr
    (h : ∀ height, transactionsAt store' own height =
      transactionsAt store own height) (bound : Nat) :
    ownTransactions store' own bound = ownTransactions store own bound := by
  unfold ownTransactions
  rw [funext h]

theorem ownTransactions_succ : ownTransactions store own (bound + 1) =
    ownTransactions store own bound ++ transactionsAt store own bound := by
  simp [ownTransactions, List.range_succ]

/-- Events without transactions add nothing. -/
theorem ownTransactions_of_le (hle : bound ≤ bound')
    (h : ∀ height, bound ≤ height → height < bound' →
      transactionsAt store own height = []) :
    ownTransactions store own bound' = ownTransactions store own bound := by
  induction hle with
  | refl => rfl
  | @step m hle ih =>
      rw [ownTransactions_succ, h m hle (Nat.lt_succ_self m), List.append_nil]
      exact ih fun height hbound hlt => h height hbound (Nat.lt_succ_of_lt hlt)

/-- With an event above all others, its transactions come last. -/
theorem ownTransactions_extend {height : Nat} {transactions : List D}
    (hle : bound ≤ height)
    (habove : ∀ h, bound ≤ h → transactionsAt store own h = [])
    (hwrite : ∀ h, transactionsAt store' own h =
      if h = height then transactions else transactionsAt store own h) :
    ownTransactions store' own (height + 1) =
      ownTransactions store own bound ++ transactions := by
  have hbelow : ownTransactions store' own height =
      ownTransactions store own height := by
    apply List.flatMap_congr
    intro h hmem
    rw [hwrite, if_neg (Nat.ne_of_lt (List.mem_range.mp hmem))]
  rw [ownTransactions_succ, hwrite, if_pos rfl, hbelow,
    ownTransactions_of_le hle fun h hbound _ => habove h hbound]

theorem nextTransactions_eq {core core' : DAGcore P D T H PK SK Sig}
    {transactions : List D} (h : core.nextTransactions = (transactions, core')) :
    core.txPool = transactions ++ core'.txPool ∧
      transactions.length ≤ DAGcore.transactionsLimit := by
  cases h
  exact ⟨(List.take_append_drop _ _).symm,
    (List.length_take_le _ _).trans (Nat.min_le_right _ _)⟩

end Batches

section Runs

variable {P D T H PK SK Sig : Type} [LinearOrder P]

/-- The height recorded for a peer is at least this. -/
def Records (list : DAGPeerList P PK) (id : P) (least : Nat) : Prop :=
  ∀ i peer, list.findPeerMut id = .ok i → list.peers[i]? = some peer →
    least ≤ peer.height

theorem Records.writePeer {list : DAGPeerList P PK} {id : P} {least j : Nat}
    {peer peer' : DAGPeer P PK} (h : Records list id least)
    (hget : list.peers[j]? = some peer) (hid : peer'.id = peer.id)
    (hheight : peer.height ≤ peer'.height) :
    Records (list.writePeer j peer') id least := by
  intro i q hfind hq
  rw [DAGPeerList.findPeerMut_writePeer hget hid] at hfind
  change (list.peers.set j peer')[i]? = some q at hq
  rw [List.getElem?_set] at hq
  split at hq
  · rename_i hji
    subst hji
    have hle := (h _ peer hfind hget).trans hheight
    split at hq
    · cases hq
      exact hle
    · cases hq
  · exact h i q hfind hq

/-- What is written for a peer is recorded for it. -/
theorem records_writePeer {list : DAGPeerList P PK} {id : P} {i : Nat}
    {peer peer' : DAGPeer P PK} (hfind : list.findPeerMut id = .ok i)
    (hget : list.peers[i]? = some peer) (hid : peer'.id = peer.id) :
    Records (list.writePeer i peer') id peer'.height := by
  intro j q hfind' hq
  rw [DAGPeerList.findPeerMut_writePeer hget hid, hfind] at hfind'
  cases hfind'
  change (list.peers.set i peer')[i]? = some q at hq
  rw [List.getElem?_set_self (List.getElem?_eq_some_iff.mp hget).1] at hq
  cases hq
  exact Nat.le_refl _

/-- A received event of the node itself is one that it has stored. -/
def OwnStored (core : DAGcore P D T H PK SK Sig) (event : Event P D T H Sig) :
    Prop :=
  event.creator = core.conf.creator → ∃ e,
    core.store.event (.creator event.creator event.height) = some e ∧
      e.toHashEvent = event.toHashEvent

/-- Everything submitted is in the node's events below `bound`, in the event
being prepared, or in the pool. -/
structure Pooled (own : P) (submitted : List D) (n : NodeState P D T H PK SK Sig)
    (bound : Nat) : Prop where
  total : ownTransactions n.core.store own bound ++ n.procA.inFlight ++
    n.core.txPool = submitted
  above : ∀ height, bound ≤ height → transactionsAt n.core.store own height = []
  limited : ∀ height, (transactionsAt n.core.store own height).length ≤
    DAGcore.transactionsLimit
  finite : ∃ top, ∀ height e,
    n.core.store.event (.creator own height) = some e → height < top
  prepared : n.procA.pending = 1 → bound ≤ n.procA.height
  formed : ∀ event, n.procA = .formed event → event.creator = own ∧
    event.transactions.length ≤ DAGcore.transactionsLimit
  recorded : Records n.core.conf.peers own (bound - 1)
  counted : Records n.core.conf.peers own n.procA.height

variable [LinearOrder H] [Inhabited H] {env : Env P D T H PK SK Sig} {own : P}
  {submitted : List D} {n n' : NodeState P D T H PK SK Sig}
  {requests : List (SyncReq P)} {replies : List (Answer P D T H Sig)}
  {out : Output P D T H Sig} {bound : Nat}

omit [LinearOrder H] [Inhabited H] in
/-- What the invariant looks at is the same in the new state. -/
theorem Pooled.keep (h : Pooled own submitted n bound)
    (hproc : n'.procA = n.procA) (hpool : n'.core.txPool = n.core.txPool)
    (hstore : ∀ height, transactionsAt n'.core.store own height =
      transactionsAt n.core.store own height)
    (hevents : ∀ height e', n'.core.store.event (.creator own height) = some e' →
      ∃ e, n.core.store.event (.creator own height) = some e)
    (hpeers : ∀ least, Records n.core.conf.peers own least →
      Records n'.core.conf.peers own least) :
    Pooled own submitted n' bound where
  total := by
    rw [ownTransactions_congr hstore, hproc, hpool]
    exact h.total
  above height hle := (hstore height).trans (h.above height hle)
  limited height := by
    rw [hstore]
    exact h.limited height
  finite := by
    obtain ⟨top, htop⟩ := h.finite
    refine ⟨top, fun height e' he' => ?_⟩
    obtain ⟨e, he⟩ := hevents height e' he'
    exact htop height e he
  prepared := by
    rw [hproc]
    exact h.prepared
  formed := by
    rw [hproc]
    exact h.formed
  recorded := hpeers _ h.recorded
  counted := by
    rw [hproc]
    exact hpeers _ h.counted

omit [LinearOrder H] [Inhabited H] in
/-- `procedure_a` goes on without an event in its hands. -/
theorem Pooled.advance (h : Pooled own submitted n bound)
    {procA : ProcA P D T H PK Sig} (hold : n.procA.inFlight = [])
    (hnew : ∀ event, procA ≠ .formed event)
    (hprepared : procA.pending = 1 → bound ≤ procA.height)
    (hcounted : Records n.core.conf.peers own procA.height) :
    Pooled own submitted { n with procA := procA } bound := by
  have hnone : procA.inFlight = [] := by
    cases procA with
    | formed event => exact absurd rfl (hnew event)
    | start | chosen | requested | numbered | paired | parents => rfl
  refine { h with
    total := ?_
    prepared := hprepared
    formed := fun event hproc => absurd hproc (hnew event)
    counted := hcounted }
  have htotal := h.total
  rw [hold] at htotal
  rw [hnone]
  exact htotal

omit [Inhabited H] in
theorem Pooled.insertOwn (h : Pooled own submitted n bound)
    {event : Event P D T H Sig} {k : H} {core' : DAGcore P D T H PK SK Sig}
    (hproc : n.procA = .formed event)
    (ins : DAGcore.Insertion env n.core { event with hash := k } core') :
    Pooled own submitted { n with core := core', procA := .start }
      (event.height + 1) := by
  obtain ⟨hcreator, hlimit⟩ := h.formed event hproc
  have hprepared := h.prepared
  have hcounted := h.counted
  have htotal := h.total
  rw [hproc] at hprepared hcounted htotal
  have hle : bound ≤ event.height := hprepared rfl
  have hwrite : ∀ height, transactionsAt core'.store own height =
      if height = event.height then event.transactions
      else transactionsAt n.core.store own height := by
    intro height
    unfold transactionsAt
    rw [ins.event_creator]
    by_cases hat : height = event.height
    · rw [if_pos ⟨hcreator.symm, hat⟩, if_pos hat]
      rfl
    · rw [if_neg fun h => hat h.2, if_neg hat]
  constructor
  case total =>
    have hown := ownTransactions_extend hle h.above hwrite
    change ownTransactions core'.store own (event.height + 1) ++ [] ++
      core'.txPool = submitted
    rw [hown, List.append_nil, ins.txPool_eq]
    exact htotal
  case above =>
    intro height hlt
    rw [hwrite, if_neg (by omega)]
    exact h.above height (hle.trans (Nat.le_of_succ_le hlt))
  case limited =>
    intro height
    rw [hwrite]
    split
    · exact hlimit
    · exact h.limited height
  case finite =>
    obtain ⟨top, htop⟩ := h.finite
    refine ⟨max top (event.height + 1), fun height e he => ?_⟩
    change core'.store.event _ = _ at he
    rw [ins.event_creator] at he
    split at he
    · rename_i hat
      have hheight : height = event.height := hat.2
      omega
    · have hlt := htop height e he
      omega
  case prepared => exact nofun
  case formed => exact fun _ => nofun
  case recorded =>
    change Records core'.conf.peers own event.height
    rw [ins.peers_eq]
    exact hcounted
  case counted =>
    change Records core'.conf.peers own 0
    exact fun _ _ _ _ => Nat.zero_le _

omit [Inhabited H] in
/-- An event of another peer, or one that the node has already, changes nothing
in the node's own transactions. -/
theorem Pooled.insertReceived (h : Pooled own submitted n bound)
    {event : Event P D T H Sig} {core' : DAGcore P D T H PK SK Sig}
    (hcreator : n.core.conf.creator = own)
    (hstored : OwnStored n.core event)
    (ins : DAGcore.Insertion env n.core event core')
    (hproc : n'.procA = n.procA) (hcore : n'.core = core') :
    Pooled own submitted n' bound := by
  subst hcore
  have hsame : ∀ height e', n'.core.store.event (.creator own height) = some e' →
      ∃ e, n.core.store.event (.creator own height) = some e ∧
        e.toHashEvent = e'.toHashEvent := by
    intro height e' he'
    rw [ins.event_creator] at he'
    split at he'
    · rename_i hat
      cases he'
      obtain ⟨e, he, hcontent⟩ := hstored (hat.1.symm.trans hcreator.symm)
      rw [← hat.1, ← hat.2] at he
      exact ⟨e, he, hcontent⟩
    · exact ⟨e', he', rfl⟩
  refine h.keep hproc ins.txPool_eq ?_ ?_ ?_
  · intro height
    unfold transactionsAt
    cases he' : n'.core.store.event (.creator own height) with
    | some e' =>
        obtain ⟨e, he, hcontent⟩ := hsame height e' he'
        rw [he]
        exact congrArg HashEvent.transactions hcontent.symm
    | none =>
        rw [ins.event_creator] at he'
        split at he'
        · cases he'
        · rw [he']
  · intro height e' he'
    obtain ⟨e, he, -⟩ := hsame height e' he'
    exact ⟨e, he⟩
  · rw [ins.peers_eq]
    exact fun _ => id

/-- One step: a batch moves from the pool into an event and from there into the
store. -/
theorem Pooled.step (h : Pooled own submitted n bound)
    (hstep : NodeStep env requests replies n n' out)
    (hcreator : n.core.conf.creator = own)
    (hstored : ∀ event, Takes n n' event → OwnStored n.core event) :
    ∃ bound', Pooled own (submitted ++ out.submitted) n' bound' := by
  have hsame : ∀ height e, n.core.store.event (.creator own height) = some e →
      ∃ e, n.core.store.event (.creator own height) = some e :=
    fun _ e he => ⟨e, he⟩
  cases hstep with
  | choosePeer hproc hnext =>
      obtain ⟨-, r, rfl⟩ := DAGPeerList.nextPeer_eq_ok hnext
      have hkeep : Pooled own submitted
          { n with core := n.core.setPeers { n.core.conf.peers with r := r } }
          bound :=
        h.keep rfl rfl (fun _ => rfl) hsame fun _ => id
      rw [List.append_nil]
      exact ⟨bound, hkeep.advance (by rw [hproc]; rfl) (fun _ => nofun) nofun
        fun _ _ _ _ => Nat.zero_le _⟩
  | sendRequest hproc =>
      rw [List.append_nil]
      exact ⟨bound, h.advance (by rw [hproc]; rfl) (fun _ => nofun) nofun
        fun _ _ _ _ => Nat.zero_le _⟩
  | @nextHeight peer i entry height entry' hproc hfind hget hnext =>
      obtain ⟨rfl, rfl⟩ := DAGPeer.getNextHeight_eq_ok hnext
      have hrecorded := h.recorded i entry (by rw [← hcreator]; exact hfind) hget
      have hkeep : Pooled own submitted
          { n with core := n.core.setPeers (n.core.conf.peers.writePeer i
            { entry with height := entry.height + 1 }) } bound :=
        h.keep rfl rfl (fun _ => rfl) hsame fun _ hrecords =>
          hrecords.writePeer hget rfl (Nat.le_succ _)
      rw [List.append_nil]
      exact ⟨bound, hkeep.advance (by rw [hproc]; rfl) (fun _ => nofun)
        (fun _ => Nat.le_add_of_sub_le hrecorded)
        (records_writePeer (by rw [← hcreator]; exact hfind) hget rfl)⟩
  | otherHeight hproc _ =>
      have hprepared := h.prepared
      have hcounted := h.counted
      rw [hproc] at hprepared hcounted
      rw [List.append_nil]
      exact ⟨bound, h.advance (by rw [hproc]; rfl) (fun _ => nofun)
        (fun _ => hprepared rfl) hcounted⟩
  | readParents hproc _ _ =>
      have hprepared := h.prepared
      have hcounted := h.counted
      rw [hproc] at hprepared hcounted
      rw [List.append_nil]
      exact ⟨bound, h.advance (by rw [hproc]; rfl) (fun _ => nofun)
        (fun _ => hprepared rfl) hcounted⟩
  | formEvent hproc htime htx hitx hevent =>
      obtain ⟨-, rfl⟩ := getNextLamportTime_eq_ok htime
      obtain ⟨hpool, hlimit⟩ := nextTransactions_eq htx
      cases htx
      cases hitx
      subst hevent
      have hprepared := h.prepared
      have hcounted := h.counted
      have htotal := h.total
      rw [hproc] at hprepared hcounted htotal
      rw [List.append_nil]
      refine ⟨bound, { h with
        total := ?_
        prepared := hprepared
        formed := ?_
        counted := hcounted }⟩
      · change _ ++ [] ++ n.core.txPool = submitted at htotal
        rw [← htotal, List.append_nil]
        exact (List.append_assoc _ _ _).trans (congrArg _ hpool.symm)
      · intro event hformed
        cases hformed
        exact ⟨hcreator, hlimit⟩
  | insertOwn hproc hhash hinsert =>
      obtain ⟨-, ⟨ins⟩⟩ := DAGcore.insertEvent_eq_ok hinsert
      obtain ⟨-, rfl⟩ := Event.eventHash_eq_ok.mp hhash
      rw [List.append_nil]
      exact ⟨_, h.insertOwn hproc ins⟩
  | receiveReply _ _ =>
      rw [List.append_nil, updateLamportTime_eq]
      exact ⟨bound, h.keep rfl rfl (fun _ => rfl) hsame fun _ => id⟩
  | receiveRequest _ _ =>
      rw [List.append_nil, updateLamportTime_eq]
      exact ⟨bound, h.keep rfl rfl (fun _ => rfl) hsame fun _ => id⟩
  | insertEvent hlistener hinsert =>
      obtain ⟨-, ⟨ins⟩⟩ := DAGcore.insertEvent_eq_ok hinsert
      rw [List.append_nil]
      exact ⟨bound, h.insertReceived hcreator (hstored _ ⟨_, _, hlistener, rfl⟩)
        ins rfl rfl⟩
  | updatePeer _ _ hget =>
      rw [List.append_nil]
      refine ⟨bound, h.keep rfl rfl (fun _ => rfl) hsame fun _ hrecords =>
        hrecords.writePeer hget rfl ?_⟩
      rw [DAGPeer.updateLamportTimeAndHeight_height]
      exact Nat.le_max_left _ _
  | sendReply _ hfind =>
      obtain ⟨j, peer, hget, rfl⟩ :=
        DAGPeerList.findPeerWithLamportTimeUpdate_eq_ok hfind
      rw [List.append_nil]
      exact ⟨bound, h.keep rfl rfl (fun _ => rfl) hsame fun _ hrecords =>
        hrecords.writePeer hget rfl (Nat.le_refl _)⟩
  | addTransaction data =>
      refine ⟨bound, { h with total := ?_ }⟩
      rw [← h.total, List.append_assoc _ n.core.txPool]
      rfl
  | checkEvent | skipEvent | finishReply | collectEvents | collectFails
  | listGossip | formReply | sendFails =>
      rw [List.append_nil]
      exact ⟨bound, { h with }⟩

/-- The leaf events carry no transactions, and the pool is empty. -/
theorem new_pooled {conf : DAGconfig P PK SK} {core : DAGcore P D T H PK SK Sig}
    (h : DAGcore.new env conf SledStore.empty = .ok core) :
    Pooled own [] ⟨core, .start, .idle, .idle⟩ 0 := by
  have hleaves : (∀ height, transactionsAt core.store own height = []) ∧
      ∃ top, ∀ height e, core.store.event (.creator own height) = some e →
        height < top := by
    refine DAGcore.new_induct (I := fun _ store =>
      (∀ height, transactionsAt store own height = []) ∧
        ∃ top, ∀ height e, store.event (.creator own height) = some e →
          height < top) h ⟨fun _ => rfl, 0, fun _ _ => nofun⟩ ?_
    rintro done peer store store' - - ⟨hnone, top, htop⟩ hbody
    obtain ⟨k, -, rfl⟩ := DAGcore.insertLeaf_eq_ok hbody
    constructor
    · intro height
      unfold transactionsAt
      rw [SledStore.setEvent_event_creator]
      split
      · rename_i e he
        split at he
        · cases he
          rfl
        · exact (transactionsAt_of_stored he).symm.trans (hnone height)
      · rfl
    · refine ⟨max top (peer.height + 1), fun height e he => ?_⟩
      rw [SledStore.setEvent_event_creator] at he
      split at he
      · rename_i hat
        have hheight : height = peer.height := hat.2
        omega
      · have hlt := htop height e he
        omega
  obtain ⟨store, -, rfl⟩ := DAGcore.new_eq_ok h
  have hnone := hleaves.1
  constructor
  case total => rfl
  case above => exact fun height _ => hnone height
  case limited =>
    intro height
    rw [hnone]
    exact Nat.zero_le _
  case finite => exact hleaves.2
  case prepared => exact nofun
  case formed => exact fun _ => nofun
  case recorded => exact fun _ _ _ _ => Nat.zero_le _
  case counted => exact fun _ _ _ _ => Nat.zero_le _

theorem SoloRun.pooled {conf : DAGconfig P PK SK}
    {made : DAGcore P D T H PK SK Sig → Event P D T H Sig → Prop}
    (h : SoloRun env conf OwnStored made submitted n) :
    ∃ bound, Pooled conf.creator submitted n bound := by
  induction h with
  | start hnew => exact ⟨0, new_pooled hnew⟩
  | step _ _ hrun hstep hstored _ ih =>
      obtain ⟨bound, hpooled⟩ := ih
      exact hpooled.step hstep hrun.creator_eq hstored

omit [LinearOrder H] [Inhabited H] in
/-- With a bound above all own events, nothing is left out. -/
theorem Pooled.covers (h : Pooled own submitted n bound) : ∃ bound,
    (∀ height e, n.core.store.event (.creator own height) = some e →
      height < bound) ∧
    ownTransactions n.core.store own bound ++ n.procA.inFlight ++ n.core.txPool =
      submitted := by
  obtain ⟨top, htop⟩ := h.finite
  refine ⟨max bound top, fun height e he =>
    (htop height e he).trans_le (Nat.le_max_right _ _), ?_⟩
  rw [ownTransactions_of_le (Nat.le_max_left _ _) fun height hle _ =>
    h.above height hle]
  exact h.total

/-- Between two rounds of `procedure_a`, the transactions of the node's own
events, in order of height, followed by the pool are all those handed in. -/
theorem transactions_in_order {conf : DAGconfig P PK SK}
    (h : SoloRun env conf OwnStored anyEvent submitted n)
    (hstart : n.procA = .start) :
    ∃ bound, (∀ height e,
        n.core.store.event (.creator conf.creator height) = some e →
        height < bound ∧ e.transactions.length ≤ DAGcore.transactionsLimit) ∧
      ownTransactions n.core.store conf.creator bound ++ n.core.txPool =
        submitted := by
  obtain ⟨_, hpooled⟩ := h.pooled
  obtain ⟨bound, hcovers, htotal⟩ := hpooled.covers
  refine ⟨bound, fun height e he => ⟨hcovers height e he, ?_⟩, ?_⟩
  · rw [← transactionsAt_of_stored he]
    exact hpooled.limited height
  · rw [hstart] at htotal
    rw [← htotal]
    exact congrArg (· ++ _) (List.append_nil _).symm

end Runs

namespace TwoPeers

/-- The second peer with two transactions to send, and after its event is formed and a
third one is handed in. -/
def pooledTwo : Core := pooled.addTransaction 5

def numberedTwo : Core :=
  pooledTwo.setPeers (pooledTwo.conf.peers.writePeer 1 { peer 1 with height := 1 })

def waiting : Core := { numberedTwo with txPool := [6], lamportTime := 1 }

/-- The first event of the second peer, with both transactions. -/
def both : Event Nat Nat Unit Nat Unit := { b₁ with transactions := [7, 5] }

theorem insertEvent_waiting :
    waiting.insertEvent env { both with hash := 4 } =
      (.ok true, after waiting [{ both with hash := 4 }]) :=
  insertEvent_after (by decide +kernel)

/-- The event with both is stored, and the third transaction waits. -/
def servedBoth : Core := after waiting [{ both with hash := 4 }]

theorem soloRun_servedBoth (received : Core → Event Nat Nat Unit Nat Unit → Prop) :
    SoloRun env (conf 1) received anyEvent [7, 5, 6]
      ⟨servedBoth, .start, .idle, .idle⟩ := by
  have hstart : SoloRun env (conf 1) received anyEvent [] (idle 1) := .start rfl
  have htakes : ∀ {n n' : Node} {event}, n.listener = .idle → Takes n n' event →
      received n.core event := by
    rintro n n' event hidle ⟨_, _, h, -⟩
    cases hidle.symm.trans h
  have hfirst := hstart.step [] [] (.addTransaction 7) (fun _ => htakes rfl)
    fun _ _ => trivial
  have hsecond := hfirst.step [] [] (.addTransaction 5) (fun _ => htakes rfl)
    fun _ _ => trivial
  have hchosen : SoloRun env (conf 1) received anyEvent [7, 5]
      ⟨pooledTwo, .chosen (peer 0) gossip, .idle, .idle⟩ :=
    hsecond.step [] [] (.choosePeer rfl rfl) (fun _ => htakes rfl)
      fun _ _ => trivial
  have hrequested := hchosen.step [] [] (.sendRequest rfl) (fun _ => htakes rfl)
    fun _ _ => trivial
  have hnumbered : SoloRun env (conf 1) received anyEvent [7, 5]
      ⟨numberedTwo, .numbered (peer 0) 1, .idle, .idle⟩ :=
    hrequested.step [] [] (.nextHeight rfl rfl rfl rfl) (fun _ => htakes rfl)
      fun _ _ => trivial
  have hpaired := hnumbered.step [] [] (.otherHeight rfl rfl)
    (fun _ => htakes rfl) fun _ _ => trivial
  have hparents := hpaired.step [] [] (.readParents rfl rfl rfl)
    (fun _ => htakes rfl) fun _ _ => trivial
  have hformed : SoloRun env (conf 1) received anyEvent [7, 5]
      ⟨{ waiting with txPool := [] }, .formed both, .idle, .idle⟩ :=
    hparents.step [] [] (.formEvent rfl rfl rfl rfl rfl) (fun _ => htakes rfl)
      fun _ _ => trivial
  have hwaiting : SoloRun env (conf 1) received anyEvent [7, 5, 6]
      ⟨waiting, .formed both, .idle, .idle⟩ :=
    hformed.step [] [] (.addTransaction 6) (fun _ => htakes rfl) fun _ _ => trivial
  exact hwaiting.step [] [] (.insertOwn rfl rfl insertEvent_waiting)
    (fun _ => htakes rfl) fun _ _ => trivial

/-- Two of the transactions handed to the second peer are in its first event, and the
third one is in the pool. -/
theorem servedBoth_transactions : servedBoth.txPool = [6] ∧ ∃ bound,
    (∀ height e, servedBoth.store.event (.creator 1 height) = some e →
      height < bound ∧ e.transactions.length ≤ DAGcore.transactionsLimit) ∧
    ownTransactions servedBoth.store 1 bound ++ servedBoth.txPool = [7, 5, 6] :=
  ⟨rfl, transactions_in_order (soloRun_servedBoth OwnStored) rfl⟩

end TwoPeers

end ConsensusDag
