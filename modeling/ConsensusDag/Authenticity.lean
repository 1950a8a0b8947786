/-
Who has signed the events of a store.  `check_event` goes over the signatures
that the sender has chosen to attach; nothing asks for the one of the creator.
-/
import ConsensusDag.SoloRun
import ConsensusDag.LamportClock

namespace ConsensusDag

open AssocTables

section Runs

variable {P D T H PK SK Sig : Type} [LinearOrder P]

/-- The signature over the hash verifies under the key that the peer list has
for the signatory. -/
def Verifies (env : Env P D T H PK SK Sig) (peers : DAGPeerList P PK) (k : H)
    (signatory : P) (signature : Sig) : Prop :=
  ∃ peer, peers.findPeer signatory = .ok peer ∧
    env.verify signature k peer.pubKey = .ok true

/-- The event carries a signature of its creator, and it verifies. -/
def Authentic (env : Env P D T H PK SK Sig) (peers : DAGPeerList P PK)
    (e : Event P D T H Sig) : Prop :=
  ∃ signature, e.signatures.lookup e.creator = some signature ∧
    Verifies env peers e.hash e.creator signature

/-- Every event in the store that is neither a leaf nor made by the node itself
is authentic. -/
def StoreAuthentic [Inhabited H] (env : Env P D T H PK SK Sig)
    (conf : DAGconfig P PK SK) (core : DAGcore P D T H PK SK Sig) : Prop :=
  ∀ key e, core.store.event key = some e →
    (¬ ∃ peer ∈ conf.peers.peers, e.toHashEvent = leafHashEvent peer) →
    e.creator ≠ conf.creator → Authentic env core.conf.peers e

/-- An event of another peer comes with an entry for its creator. -/
def EntryOfCreator (core : DAGcore P D T H PK SK Sig)
    (event : Event P D T H Sig) : Prop :=
  event.creator ≠ core.conf.creator →
    ∃ signature, event.signatures.lookup event.creator = some signature

variable {env : Env P D T H PK SK Sig} {conf conf' : DAGconfig P PK SK}

theorem Verifies.mono {k : H} {signatory : P} {signature : Sig}
    (h : Verifies env conf.peers k signatory signature)
    (hsame : conf.SameKeys conf') :
    Verifies env conf'.peers k signatory signature := by
  obtain ⟨peer, hfind, hverify⟩ := h
  have hkey := DAGPeerList.publicKeyOf_eq_some.mpr ⟨peer, hfind, rfl⟩
  unfold DAGPeerList.publicKeyOf at hkey
  rw [← hsame.keys] at hkey
  obtain ⟨peer', hfind', hkey'⟩ := DAGPeerList.publicKeyOf_eq_some.mp hkey
  rw [← hkey'] at hverify
  exact ⟨peer', hfind', hverify⟩

theorem Authentic.mono {e : Event P D T H Sig} (h : Authentic env conf.peers e)
    (hsame : conf.SameKeys conf') : Authentic env conf'.peers e := by
  obtain ⟨signature, hlookup, hverifies⟩ := h
  exact ⟨signature, hlookup, hverifies.mono hsame⟩

variable [LinearOrder H] [Inhabited H] {submitted : List D}
  {n n' : NodeState P D T H PK SK Sig} {requests : List (SyncReq P)}
  {replies : List (Answer P D T H Sig)} {out : Output P D T H Sig}

/-- What `procedure_a` has formed is the node's own, and what the listener has
checked is hashed and signed. -/
structure ThreadsAuthentic (env : Env P D T H PK SK Sig)
    (n : NodeState P D T H PK SK Sig) : Prop where
  formed : ∀ event, n.procA = .formed event →
    event.creator = n.core.conf.creator
  checked : ∀ answer event rest, n.listener = .checked answer event rest →
    env.eventHash event.toHashEvent = .ok event.hash ∧
      ∀ id signature, event.signatures.lookup id = some signature →
        Verifies env n.core.conf.peers event.hash id signature

theorem ThreadsAuthentic.step (h : ThreadsAuthentic env n)
    (hstep : NodeStep env requests replies n n' out) :
    ThreadsAuthentic env n' := by
  have hsame := hstep.sameKeys
  have hformed : n'.procA = n.procA → ∀ event, n'.procA = .formed event →
      event.creator = n'.core.conf.creator := fun hproc event hevent =>
    (h.formed event (hproc ▸ hevent)).trans hsame.creator.symm
  have hchecked : n'.listener = n.listener → ∀ answer event rest,
      n'.listener = .checked answer event rest →
      env.eventHash event.toHashEvent = .ok event.hash ∧
        ∀ id signature, event.signatures.lookup id = some signature →
          Verifies env n'.core.conf.peers event.hash id signature := by
    intro hlistener answer event rest hevent
    obtain ⟨hhash, hsigned⟩ := h.checked answer event rest (hlistener ▸ hevent)
    exact ⟨hhash, fun id signature hlookup =>
      (hsigned id signature hlookup).mono hsame⟩
  cases hstep with
  | formEvent _ htime htx hitx hevent =>
      obtain ⟨-, rfl⟩ := getNextLamportTime_eq_ok htime
      cases htx
      cases hitx
      refine ⟨?_, hchecked rfl⟩
      intro event hproc
      cases hproc
      rw [hevent]
      rfl
  | choosePeer | sendRequest | nextHeight | otherHeight | readParents
  | insertOwn => exact ⟨fun _ => nofun, hchecked rfl⟩
  | checkEvent hlistener hevent hcheck =>
      refine ⟨hformed rfl, ?_⟩
      intro answer' event' rest' heq
      cases heq
      obtain ⟨rfl, hhash⟩ := toEvent_eq_ok hevent
      refine ⟨hhash, fun id signature hlookup => ?_⟩
      exact checkSignatures_eq_true.mp hcheck ⟨id, signature⟩
        (Table.mem_entries_iff_lookup.mpr hlookup)
  | receiveReply | skipEvent | insertEvent | updatePeer | finishReply =>
      refine ⟨hformed rfl, ?_⟩
      intro answer event rest heq
      cases heq
  | receiveRequest | collectEvents | collectFails | listGossip | formReply
  | sendReply | sendFails | addTransaction =>
      exact ⟨hformed rfl, hchecked rfl⟩

omit [Inhabited H] in
/-- The node's own signature stands beside that of another creator. -/
theorem authentic_stored {core core' : DAGcore P D T H PK SK Sig}
    {event : Event P D T H Sig} (ins : DAGcore.Insertion env core event core')
    (hid : ins.creatorId ≠ event.creator)
    (hhash : env.eventHash event.toHashEvent = .ok event.hash)
    (hevent : Authentic env core.conf.peers event) :
    Authentic env core'.conf.peers ins.stored := by
  have hauthentic := hevent.mono ins.sameKeys
  obtain ⟨signature, hlookup, hverifies⟩ := hauthentic
  have hsame : event.hash = ins.eventHash :=
    Except.ok.inj (hhash.symm.trans ins.hash_eq)
  rw [hsame] at hverifies
  exact ⟨signature, (AList.lookup_insert_ne hid.symm).trans hlookup, hverifies⟩

theorem SoloRun.threadsAuthentic
    {received made : DAGcore P D T H PK SK Sig → Event P D T H Sig → Prop}
    (h : SoloRun env conf received made submitted n) : ThreadsAuthentic env n := by
  induction h with
  | start _ =>
      exact ⟨fun _ => nofun, fun _ _ _ => nofun⟩
  | step _ _ _ hstep _ _ ih => exact ih.step hstep

/-- At a node that is among its peers, a run in which every event of another
peer comes with an entry for its creator stores authentic events. -/
theorem store_authentic (hmem : conf.creator ∈ conf.peers.peers.map DAGPeer.id)
    (h : SoloRun env conf EntryOfCreator anyEvent submitted n) :
    StoreAuthentic env conf n.core := by
  induction h with
  | start hnew =>
      intro key e he hleaf
      refine absurd ?_ hleaf
      refine DAGcore.new_induct (I := fun _ store => ∀ key e,
        store.event key = some e → ∃ peer ∈ conf.peers.peers,
          e.toHashEvent = leafHashEvent peer) hnew ?_ ?_ key e he
      · exact fun _ _ h => (Option.some_ne_none _ h.symm).elim
      · intro done peer store store' hmem _ hstore hbody key e he
        obtain ⟨k, -, rfl⟩ := DAGcore.insertLeaf_eq_ok hbody
        rcases SledStore.setEvent_event_cases _ he with rfl | hold
        · exact ⟨peer, hmem peer (List.mem_append_right _ List.mem_cons_self), rfl⟩
        · exact hstore key e hold
  | @step submitted n n' out requests replies hrun hstep hreceived _ ih =>
      have hthreads := hrun.threadsAuthentic
      have hold : ∀ key e, n.core.store.event key = some e →
          (¬ ∃ peer ∈ conf.peers.peers, e.toHashEvent = leafHashEvent peer) →
          e.creator ≠ conf.creator → Authentic env n'.core.conf.peers e :=
        fun key e he hleaf hne => (ih key e he hleaf hne).mono hstep.sameKeys
      intro key e he hleaf hne
      rcases hstep.store_cases with hstore | ⟨event, k, hproc, ⟨ins⟩, -⟩ |
          ⟨answer, event, rest, hlistener, ⟨ins⟩, hlistener', -⟩
      · exact hold key e (hstore ▸ he) hleaf hne
      · rw [ins.event_eq] at he
        rcases SledStore.setEvent_event_cases _ he with rfl | he
        · -- an event of the node itself
          exact absurd ((hthreads.formed event hproc).trans hrun.creator_eq) hne
        · exact hold key e he hleaf hne
      · rw [ins.event_eq] at he
        rcases SledStore.setEvent_event_cases _ he with rfl | he
        · obtain ⟨hhash, hsigned⟩ := hthreads.checked answer event rest hlistener
          obtain ⟨signature, hlookup⟩ := hreceived event
            ⟨answer, rest, hlistener, hlistener'⟩ (by rwa [hrun.creator_eq])
          have hid : ins.creatorId = conf.creator := Except.ok.inj
            (ins.creatorId_eq.symm.trans (hrun.creatorId_eq hmem))
          apply authentic_stored ins (hid ▸ hne.symm) hhash
          exact ⟨signature, hlookup, hsigned _ signature hlookup⟩
        · exact hold key e he hleaf hne

end Runs

namespace TwoPeers

/-- The second peer's first event, sent by somebody who attaches no signature. -/
def forged : Event Nat Nat Unit Nat Unit := { b₁ with hash := 4 }

/-- A reply with one event. -/
def delivery (event : Event Nat Nat Unit Nat Unit) : Answer Nat Nat Unit Nat Unit :=
  ⟨⟨1, 0, ∅, 0, [event.toNetEvent]⟩, fun _ => none⟩

theorem soloRun_delivered {event : Event Nat Nat Unit Nat Unit}
    {received made : Core → Event Nat Nat Unit Nat Unit → Prop}
    (hevent : event.toNetEvent.toEvent env = .ok event)
    (hcheck : (start 0).checkEvent env event = .ok true)
    (hinsert : ((start 0).insertEvent env event).1 = .ok true)
    (hreceived : received (start 0) event) :
    SoloRun env (conf 0) received made [] ⟨after (start 0) [event], .start,
      .inserted (delivery event) event [], .idle⟩ := by
  have hstart : SoloRun env (conf 0) received made [] (idle 0) := .start rfl
  have hprocessing := hstart.step [] [delivery event]
    (.receiveReply rfl List.mem_cons_self) (fun _ ⟨_, _, h, _⟩ => nomatch h)
    fun _ ⟨h, _⟩ => nomatch h
  have hchecked := hprocessing.step [] [] (.checkEvent rfl hevent hcheck)
    (fun _ ⟨_, _, h, _⟩ => nomatch h) fun _ ⟨h, _⟩ => nomatch h
  refine hchecked.step [] [] (.insertEvent rfl (insertEvent_after hinsert)) ?_
    fun _ ⟨h, _⟩ => nomatch h
  rintro event' ⟨_, _, h, -⟩
  cases h
  exact hreceived

/-- The first peer stores the event, and signs it, but the second one has not. -/
theorem forged_stored : ∃ submitted n,
    SoloRun env (conf 0) anyEvent anyEvent submitted n ∧
      ¬ StoreAuthentic env (conf 0) n.core := by
  have hcheck : (start 0).checkEvent env forged = .ok true := rfl
  refine ⟨[], _, soloRun_delivered rfl hcheck (by decide +kernel) trivial, ?_⟩
  intro h
  obtain ⟨signature, hlookup, -⟩ := h (.hash 4) { forged with
    frameNumber := 1, signatures := AList.insert 0 () ∅ } rfl (by decide)
    (by decide)
  cases hlookup

/-- With the second peer's signature, the stored event is authentic. -/
theorem taken_authentic : ∃ n e, n.core.store.event (.hash 4) = some e ∧
    SoloRun env (conf 0) EntryOfCreator anyEvent [] n ∧
    Authentic env n.core.conf.peers e := by
  let sent : Event Nat Nat Unit Nat Unit :=
    { forged with signatures := AList.insert 1 () ∅ }
  have hcheck : (start 0).checkEvent env sent = .ok true := rfl
  have hrun : SoloRun env (conf 0) EntryOfCreator anyEvent [] _ :=
    soloRun_delivered rfl hcheck (by decide +kernel) fun _ => ⟨(), rfl⟩
  exact ⟨_, { sent with
      frameNumber := 1
      signatures := AList.insert 0 () (AList.insert 1 () ∅) }, rfl, hrun,
    store_authentic (by decide) hrun (.hash 4) _ rfl (by decide) (by decide)⟩

end TwoPeers

end ConsensusDag
