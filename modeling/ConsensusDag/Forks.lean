/-
The chains of events in the store of a node whose peers may send anything.
Nothing ties the creator, the height and the self-parent of a received event
together; where they fit, the stored events of each peer form one chain.
-/
import ConsensusDag.Authenticity
import ConsensusDag.Lib.HeightChain

namespace ConsensusDag

open HeightChains

section Store

variable {P D T H PK SK Sig : Type}

/-- An event names the one below it as its self-parent. -/
def NamesParent (s e : Event P D T H Sig) : Prop :=
  e.selfParent = s.hash

/-- The events filed under a creator, by height. -/
def SledStore.chainOf (store : SledStore P D T H Sig) (c : P) (height : Nat) :
    Option (Event P D T H Sig) :=
  store.event (.creator c height)

/-- The stored events of a creator form one chain up to the height `top`. -/
structure OneChain (store : SledStore P D T H Sig) (c : P) (top : Nat) : Prop where
  no_fork : ∀ k k' e e', store.event (.hash k) = some e →
    store.event (.hash k') = some e' → e.creator = c → e'.creator = c →
    e.height = e'.height → k = k' ∧ e = e'
  self_parent : ∀ k e height, store.event (.hash k) = some e → e.creator = c →
    e.height = height + 1 → ∃ s, store.event (.hash e.selfParent) = some s ∧
      s.creator = c ∧ s.height = height
  heights : ∀ height, (∃ k e, store.event (.hash k) = some e ∧ e.creator = c ∧
    e.height = height) ↔ height ≤ top

/-- The two keys of each stored event lead to the same event. -/
structure Indexed (env : Env P D T H PK SK Sig) (store : SledStore P D T H Sig) :
    Prop where
  of_hash : ∀ k e, store.event (.hash k) = some e → e.hash = k ∧
    env.eventHash e.toHashEvent = .ok k ∧
    store.event (.creator e.creator e.height) = some e
  of_creator : ∀ c height e, store.event (.creator c height) = some e →
    e.creator = c ∧ e.height = height ∧ store.event (.hash e.hash) = some e

variable {env : Env P D T H PK SK Sig} {store store' : SledStore P D T H Sig}
  {c : P} {top : Nat} {e s : Event P D T H Sig}

theorem Indexed.empty : Indexed env (SledStore.empty : SledStore P D T H Sig) :=
  ⟨fun _ _ h => (Option.some_ne_none _ h.symm).elim,
    fun _ _ _ h => (Option.some_ne_none _ h.symm).elim⟩

theorem Indexed.oneChain (h : Indexed env store)
    (hchain : HeightChain NamesParent (store.chainOf c) top) :
    OneChain store c top := by
  have hplace : ∀ k e, store.event (.hash k) = some e → e.creator = c →
      store.chainOf c e.height = some e := by
    rintro k e he rfl
    exact (h.of_hash k e he).2.2
  constructor
  case no_fork =>
    intro k k' e e' he he' hcreator hcreator' hheight
    have hsame := hplace k e he hcreator
    rw [hheight, hplace k' e' he' hcreator', Option.some.injEq] at hsame
    subst hsame
    exact ⟨(h.of_hash k _ he).1.symm.trans (h.of_hash k' _ he').1, rfl⟩
  case self_parent =>
    intro k e height he hcreator hheight
    have hstored := hplace k e he hcreator
    rw [hheight] at hstored
    obtain ⟨s, hs⟩ := (hchain.filled height).mpr
      (Nat.le_of_succ_le (hchain.le_top hstored))
    obtain ⟨hcreator', hheight', hhash⟩ := h.of_creator c height s hs
    rw [← hchain.linked height s e hs hstored] at hhash
    exact ⟨s, hhash, hcreator', hheight'⟩
  case heights =>
    intro height
    rw [← hchain.filled]
    constructor
    · rintro ⟨k, e, he, hcreator, rfl⟩
      exact ⟨e, hplace k e he hcreator⟩
    · rintro ⟨e, he⟩
      obtain ⟨hcreator, hheight, hhash⟩ := h.of_creator c height e he
      exact ⟨e.hash, e, hhash, hcreator, hheight⟩

variable [DecidableEq P] [DecidableEq H]

/-- Writing an event whose two keys are both free, or both lead to an event of
the same place and hash. -/
theorem Indexed.write (h : Indexed env store)
    (hevent : store'.event = (store.setEvent e).event)
    (hhash : env.eventHash e.toHashEvent = .ok e.hash)
    (hkey : ∀ e', store.event (.hash e.hash) = some e' →
      e'.creator = e.creator ∧ e'.height = e.height)
    (hplace : ∀ e', store.event (.creator e.creator e.height) = some e' →
      e'.hash = e.hash) : Indexed env store' := by
  constructor
  case of_hash =>
    intro k e' he'
    rw [hevent, SledStore.setEvent_event_hash] at he'
    rw [hevent, SledStore.setEvent_event_creator]
    split at he'
    · rename_i hk
      cases he'
      rw [if_pos ⟨rfl, rfl⟩]
      exact ⟨hk.symm, hk ▸ hhash, rfl⟩
    · rename_i hk
      obtain ⟨hkept, hhash', hstored⟩ := h.of_hash k e' he'
      refine ⟨hkept, hhash', ?_⟩
      rw [if_neg, hstored]
      rintro ⟨hcreator, hheight⟩
      rw [hcreator, hheight] at hstored
      exact hk (hkept.symm.trans (hplace e' hstored))
  case of_creator =>
    intro c height e' he'
    rw [hevent, SledStore.setEvent_event_creator] at he'
    rw [hevent, SledStore.setEvent_event_hash]
    split at he'
    · rename_i hat
      cases he'
      rw [if_pos rfl]
      exact ⟨hat.1.symm, hat.2.symm, rfl⟩
    · rename_i hat
      obtain ⟨hcreator, hheight, hstored⟩ := h.of_creator c height e' he'
      refine ⟨hcreator, hheight, ?_⟩
      rw [if_neg, hstored]
      intro hsame
      rw [hsame] at hstored
      obtain ⟨hcreator', hheight'⟩ := hkey e' hstored
      exact hat ⟨hcreator.symm.trans hcreator', hheight.symm.trans hheight'⟩

/-- The chains of other creators do not change. -/
theorem chainOf_write_of_ne (hevent : store'.event = (store.setEvent e).event)
    (hne : c ≠ e.creator) (height : Nat) :
    store'.chainOf c height = store.chainOf c height := by
  unfold SledStore.chainOf
  rw [hevent, SledStore.setEvent_event_creator, if_neg fun h => hne h.1]

theorem chainOf_write (hevent : store'.event = (store.setEvent e).event)
    (height : Nat) : store'.chainOf e.creator height =
      if height = e.height then some e else store.chainOf e.creator height := by
  unfold SledStore.chainOf
  rw [hevent, SledStore.setEvent_event_creator]
  simp only [true_and]

theorem chainOf_write_grows (hevent : store'.event = (store.setEvent e).event)
    {height : Nat} (h : ∃ e', store.chainOf c height = some e') :
    ∃ e', store'.chainOf c height = some e' := by
  unfold SledStore.chainOf
  rw [hevent]
  exact store.setEvent_event_grows e h

/-- The next event of its creator is written. -/
theorem write_next (h : Indexed env store)
    (hchain : HeightChain NamesParent (store.chainOf e.creator) top)
    (hevent : store'.event = (store.setEvent e).event)
    (hhash : env.eventHash e.toHashEvent = .ok e.hash)
    (hfresh : store.event (.hash e.hash) = none) (hheight : e.height = top + 1)
    (hs : store.chainOf e.creator top = some s) (hlink : NamesParent s e) :
    Indexed env store' ∧
      HeightChain NamesParent (store'.chainOf e.creator) (top + 1) := by
  have hfree : store.chainOf e.creator e.height = none :=
    hchain.eq_none (by omega)
  refine ⟨h.write hevent hhash ?_ ?_, hchain.extend hs hlink ?_⟩
  · intro e' he'
    rw [hfresh] at he'
    cases he'
  · intro e' he'
    rw [SledStore.chainOf, he'] at hfree
    cases hfree
  · rw [← hheight]
    exact chainOf_write hevent

/-- An event that is stored already is written again. -/
theorem write_again (h : Indexed env store)
    (hevent : store'.event = (store.setEvent e).event)
    (hhash : env.eventHash e.toHashEvent = .ok e.hash) {old : Event P D T H Sig}
    (hold : store.event (.hash e.hash) = some old)
    (hsame : old.toHashEvent = e.toHashEvent) :
    Indexed env store' ∧ ∀ c top,
      HeightChain NamesParent (store.chainOf c) top →
        HeightChain NamesParent (store'.chainOf c) top := by
  obtain ⟨hhash', -, hplace⟩ := h.of_hash e.hash old hold
  have hcreator : old.creator = e.creator := congrArg HashEvent.creator hsame
  have hheight : old.height = e.height := congrArg HashEvent.height hsame
  have hparent : old.selfParent = e.selfParent :=
    congrArg HashEvent.selfParent hsame
  rw [hcreator, hheight] at hplace
  refine ⟨h.write hevent hhash ?_ ?_, fun c top hchain => ?_⟩
  · intro e' he'
    rw [hold, Option.some.injEq] at he'
    subst he'
    exact ⟨hcreator, hheight⟩
  · intro e' he'
    rw [hplace, Option.some.injEq] at he'
    subst he'
    exact hhash'
  · by_cases hc : c = e.creator
    · subst hc
      refine hchain.replace hplace ?_ ?_ (chainOf_write hevent)
      · exact fun c hlink => hparent.symm.trans hlink
      · exact fun c hlink => hlink.trans hhash'
    · exact hchain.congr (chainOf_write_of_ne hevent hc)

end Store

section Conditions

variable {P D T H PK SK Sig : Type} [LinearOrder P]

/-- The event is stored already, or it is the next event of another peer. -/
def ExtendsChain (env : Env P D T H PK SK Sig) (core : DAGcore P D T H PK SK Sig)
    (event : Event P D T H Sig) : Prop :=
  (∃ k e, env.eventHash event.toHashEvent = .ok k ∧
    core.store.event (.hash k) = some e ∧ e.toHashEvent = event.toHashEvent) ∨
  event.creator ≠ core.conf.creator ∧
    (∀ k, env.eventHash event.toHashEvent = .ok k →
      core.store.event (.hash k) = none) ∧
    ∃ peer s, core.conf.peers.findPeer event.creator = .ok peer ∧
      event.height = peer.height + 1 ∧
      core.store.event (.creator event.creator peer.height) = some s ∧
      event.selfParent = s.hash

/-- No event is stored under the hash of this one. -/
def FreshHash (env : Env P D T H PK SK Sig) (core : DAGcore P D T H PK SK Sig)
    (event : Event P D T H Sig) : Prop :=
  ∀ k, env.eventHash event.toHashEvent = .ok k →
    core.store.event (.hash k) = none

/-- A peer list as it is before the first run: ids are distinct, no heights are
recorded, and the leaf events have different hashes. -/
structure NewPeers [Inhabited H] (env : Env P D T H PK SK Sig)
    (peers : List (DAGPeer P PK)) : Prop where
  nodup : (peers.map DAGPeer.id).Nodup
  height_eq : ∀ peer ∈ peers, peer.height = 0
  leaf_injective : ∀ p ∈ peers, ∀ q ∈ peers, ∀ k,
    env.eventHash (leafHashEvent p) = .ok k →
    env.eventHash (leafHashEvent q) = .ok k → p = q

end Conditions

section Runs

variable {P D T H PK SK Sig : Type}

/-- What `procedure_a` has in hand fits on the top of the node's own chain. -/
def ProcA.Fits (own : P) (top : Nat) (slot : Nat → Option (Event P D T H Sig)) :
    ProcA P D T H PK Sig → Prop
  | .numbered _ height => height = top + 1
  | .paired _ height _ => height = top + 1
  | .parents height selfParent _ => height = top + 1 ∧
      ∃ s, slot top = some s ∧ selfParent = s.hash
  | .formed event => event.creator = own ∧ event.height = top + 1 ∧
      ∃ s, slot top = some s ∧ event.selfParent = s.hash
  | _ => True

/-- The chain of a peer, and the height recorded for it.  The node's own height
is one ahead while its next event is prepared, another peer's one behind while
the listener has still to record it. -/
structure PeerChain (own : P) (n : NodeState P D T H PK SK Sig)
    (peer : DAGPeer P PK) (top : Nat) : Prop where
  chain : HeightChain NamesParent (n.core.store.chainOf peer.id) top
  at_own : peer.id = own → peer.height = top + n.procA.pending ∧
    n.procA.Fits own top (n.core.store.chainOf peer.id)
  at_other : peer.id ≠ own → peer.height = top ∨
    ∃ answer event rest, n.listener = .inserted answer event rest ∧
      event.creator = peer.id ∧ event.height = top ∧ peer.height + 1 = top

structure NodeChains (env : Env P D T H PK SK Sig) (own : P)
    (n : NodeState P D T H PK SK Sig) : Prop where
  indexed : Indexed env n.core.store
  peers : ∀ peer ∈ n.core.conf.peers.peers, ∃ top, PeerChain own n peer top
  inserted : ∀ answer event rest, n.listener = .inserted answer event rest →
    ∃ e, n.core.store.chainOf event.creator event.height = some e

variable {env : Env P D T H PK SK Sig} {own : P}
  {n n' : NodeState P D T H PK SK Sig}

/-- The top of a chain may be written again, with the same hash. -/
theorem ProcA.Fits.congr {procA : ProcA P D T H PK Sig} {top : Nat}
    {slot slot' : Nat → Option (Event P D T H Sig)} (h : procA.Fits own top slot)
    (hslot : ∀ s, slot top = some s → ∃ s', slot' top = some s' ∧
      s'.hash = s.hash) : procA.Fits own top slot' := by
  cases procA with
  | parents height selfParent otherParent =>
      obtain ⟨hheight, s, hs, hparent⟩ := h
      obtain ⟨s', hs', hsame⟩ := hslot s hs
      exact ⟨hheight, s', hs', hparent.trans hsame.symm⟩
  | formed event =>
      obtain ⟨hcreator, hheight, s, hs, hparent⟩ := h
      obtain ⟨s', hs', hsame⟩ := hslot s hs
      exact ⟨hcreator, hheight, s', hs', hparent.trans hsame.symm⟩
  | start | chosen | requested | numbered | paired => exact h

/-- A step that leaves the store and the peers alone. -/
theorem NodeChains.keep (h : NodeChains env own n)
    (hstore : n'.core.store = n.core.store)
    (hpeers : n'.core.conf.peers.peers = n.core.conf.peers.peers)
    (hpending : n'.procA.pending = n.procA.pending)
    (hfits : ∀ top, n.procA.Fits own top (n.core.store.chainOf own) →
      n'.procA.Fits own top (n.core.store.chainOf own))
    (hlistener : n'.listener = n.listener ∨
      (∀ answer event rest, n.listener ≠ .inserted answer event rest) ∧
        ∀ answer event rest, n'.listener ≠ .inserted answer event rest) :
    NodeChains env own n' := by
  constructor
  case indexed =>
    rw [hstore]
    exact h.indexed
  case peers =>
    intro peer hpeer
    rw [hpeers] at hpeer
    obtain ⟨top, hpeerChain⟩ := h.peers peer hpeer
    refine ⟨top, ?_, ?_, ?_⟩
    · rw [hstore]
      exact hpeerChain.chain
    · rintro rfl
      obtain ⟨hheight, hfit⟩ := hpeerChain.at_own rfl
      rw [hpending, hstore]
      exact ⟨hheight, hfits top hfit⟩
    · intro hne
      rcases hlistener with hsame | ⟨hnone, -⟩
      · rw [hsame]
        exact hpeerChain.at_other hne
      · left
        apply (hpeerChain.at_other hne).resolve_right
        rintro ⟨answer, event, rest, hinserted, -⟩
        exact hnone answer event rest hinserted
  case inserted =>
    intro answer event rest hinserted
    rw [hstore]
    rcases hlistener with hsame | ⟨-, hnone⟩
    · exact h.inserted answer event rest (hsame ▸ hinserted)
    · exact absurd hinserted (hnone answer event rest)

/-- An entry of the peer list is replaced. -/
theorem NodeChains.writePeer (h : NodeChains env own n)
    (hnodup : (n.core.conf.peers.peers.map DAGPeer.id).Nodup)
    (hstore : n'.core.store = n.core.store) {j : Nat}
    {peer peer' : DAGPeer P PK} (hget : n.core.conf.peers.peers[j]? = some peer)
    (hpeers : n'.core.conf.peers = n.core.conf.peers.writePeer j peer')
    (hid : peer'.id = peer.id)
    (hpeer : ∀ top, PeerChain own n peer top → PeerChain own n' peer' top)
    (hother : ∀ q ∈ n.core.conf.peers.peers, ∀ top, q.id ≠ peer.id →
      PeerChain own n q top → PeerChain own n' q top)
    (hinserted : ∀ answer event rest, n'.listener = .inserted answer event rest →
      n.listener = .inserted answer event rest) :
    NodeChains env own n' := by
  constructor
  case indexed =>
    rw [hstore]
    exact h.indexed
  case peers =>
    intro q hq
    rw [hpeers] at hq
    rcases DAGPeerList.mem_writePeer hnodup hget hid hq with rfl | ⟨hmem, hne⟩
    · obtain ⟨top, hchain⟩ := h.peers peer (List.mem_of_getElem? hget)
      exact ⟨top, hpeer top hchain⟩
    · obtain ⟨top, hchain⟩ := h.peers q hmem
      exact ⟨top, hother q hmem top hne hchain⟩
  case inserted =>
    intro answer event rest hlistener
    rw [hstore]
    exact h.inserted answer event rest (hinserted answer event rest hlistener)

variable [LinearOrder P] [LinearOrder H]

/-- The node's own event goes on top of its chain. -/
theorem NodeChains.insertOwn (h : NodeChains env own n)
    (hmem : own ∈ n.core.conf.peers.peers.map DAGPeer.id)
    {event : Event P D T H Sig} {k : H} {core' : DAGcore P D T H PK SK Sig}
    (hproc : n.procA = .formed event)
    (ins : DAGcore.Insertion env n.core { event with hash := k } core')
    (hfresh : FreshHash env n.core event) :
    NodeChains env own { n with core := core', procA := .start } := by
  obtain ⟨peer, hpeer, hid⟩ := List.mem_map.mp hmem
  obtain ⟨top, hpeerChain⟩ := h.peers peer hpeer
  obtain ⟨-, hfits⟩ := hpeerChain.at_own hid
  have hchain := hpeerChain.chain
  rw [hproc] at hfits
  rw [hid] at hfits hchain
  obtain ⟨rfl, hheight, s, hs, hparent⟩ := hfits
  obtain ⟨hindexed, hnext⟩ := write_next h.indexed (e := ins.stored) hchain
    ins.event_eq ins.hash_eq (hfresh _ ins.hash_eq) hheight hs hparent
  constructor
  case indexed => exact hindexed
  case peers =>
    intro q hq
    rw [ins.peers_eq] at hq
    obtain ⟨top', hqChain⟩ := h.peers q hq
    by_cases hself : q.id = event.creator
    · have hsame := hqChain.chain
      rw [hself] at hsame
      obtain rfl := hsame.top_unique hchain
      refine ⟨top' + 1, hself ▸ hnext, fun _ => ⟨?_, trivial⟩,
        fun hne => absurd hself hne⟩
      have hrecorded := (hqChain.at_own hself).1
      rw [hproc] at hrecorded
      exact hrecorded
    · refine ⟨top', ?_, fun hself' => absurd hself' hself, hqChain.at_other⟩
      exact hqChain.chain.congr (chainOf_write_of_ne (e := ins.stored)
        ins.event_eq hself)
  case inserted =>
    intro answer event' rest hlistener
    exact chainOf_write_grows (e := ins.stored) ins.event_eq
      (h.inserted answer event' rest hlistener)

/-- An event that the listener has checked is stored again, or goes on top of
the chain of its creator. -/
theorem NodeChains.insertReceived (h : NodeChains env own n)
    (hnodup : (n.core.conf.peers.peers.map DAGPeer.id).Nodup)
    (hown : n.core.conf.creator = own) {answer : Answer P D T H Sig}
    {event : Event P D T H Sig} {rest : List (NetEvent P D T H Sig)}
    {core' : DAGcore P D T H PK SK Sig}
    (hlistener : n.listener = .checked answer event rest)
    (ins : DAGcore.Insertion env n.core event core')
    (hextends : ExtendsChain env n.core event) :
    NodeChains env own
      { n with core := core', listener := .inserted answer event rest } := by
  have hrecorded : ∀ q top, PeerChain own n q top → q.id ≠ own →
      q.height = top := by
    intro q top hq hne
    apply (hq.at_other hne).resolve_right
    rintro ⟨_, _, _, hinserted, -⟩
    cases hlistener.symm.trans hinserted
  have hinserted : ∀ answer' event' rest',
      Listener.inserted answer event rest = .inserted answer' event' rest' →
      ∃ e, core'.store.chainOf event'.creator event'.height = some e := by
    intro _ _ _ heq
    cases heq
    exact ⟨ins.stored, (chainOf_write (e := ins.stored) ins.event_eq
      event.height).trans (if_pos rfl)⟩
  rcases hextends with ⟨k, old, hk, hold, hsame⟩ |
      ⟨hforeign, hfresh, peer, s, hfind, hheight, hs, hparent⟩
  · -- the event is stored already
    obtain rfl : k = ins.eventHash := Except.ok.inj (hk.symm.trans ins.hash_eq)
    obtain ⟨hindexed, hchains⟩ := write_again h.indexed (e := ins.stored)
      ins.event_eq ins.hash_eq hold hsame
    refine ⟨hindexed, ?_, hinserted⟩
    intro q hq
    rw [ins.peers_eq] at hq
    obtain ⟨top, hqChain⟩ := h.peers q hq
    refine ⟨top, hchains _ _ hqChain.chain, fun hself => ?_,
      fun hne => Or.inl (hrecorded q top hqChain hne)⟩
    obtain ⟨hheight, hfits⟩ := hqChain.at_own hself
    refine ⟨hheight, hfits.congr fun s hs => ?_⟩
    by_cases hat : q.id = event.creator ∧ top = event.height
    · refine ⟨ins.stored, ?_, ?_⟩
      · rw [hat.1, hat.2]
        exact (chainOf_write (e := ins.stored) ins.event_eq event.height).trans
          (if_pos rfl)
      · obtain ⟨hhash, -, hplace⟩ := h.indexed.of_hash _ old hold
        have hcreator : old.creator = event.creator :=
          congrArg HashEvent.creator hsame
        have hheight' : old.height = event.height :=
          congrArg HashEvent.height hsame
        rw [hcreator, hheight', ← hat.1, ← hat.2] at hplace
        rw [Option.some.inj (hs.symm.trans hplace)]
        exact hhash.symm
    · refine ⟨s, ?_, rfl⟩
      have hread := ins.event_creator q.id top
      rw [if_neg hat] at hread
      exact hread.trans hs
  · -- the event is the next one of another peer
    obtain ⟨hpeer, hid⟩ := DAGPeerList.findPeer_eq_ok hfind
    rw [hown] at hforeign
    obtain ⟨top, hpeerChain⟩ := h.peers peer hpeer
    obtain rfl := hrecorded peer top hpeerChain (hid ▸ hforeign)
    have hchain := hpeerChain.chain
    rw [hid] at hchain
    obtain ⟨hindexed, hnext⟩ := write_next h.indexed (e := ins.stored) hchain
      ins.event_eq ins.hash_eq (hfresh _ ins.hash_eq) hheight hs hparent
    refine ⟨hindexed, ?_, hinserted⟩
    intro q hq
    rw [ins.peers_eq] at hq
    by_cases hsame : q.id = event.creator
    · have hq_eq : q = peer :=
        List.inj_on_of_nodup_map hnodup hq hpeer (hsame.trans hid.symm)
      subst hq_eq
      refine ⟨q.height + 1, hsame ▸ hnext,
        fun hself => absurd (hsame.symm.trans hself) hforeign, fun _ => ?_⟩
      exact Or.inr ⟨answer, event, rest, rfl, hsame.symm, hheight, rfl⟩
    · obtain ⟨top, hqChain⟩ := h.peers q hq
      have hslot := chainOf_write_of_ne (e := ins.stored) ins.event_eq hsame
      refine ⟨top, hqChain.chain.congr hslot, fun hself => ?_,
        fun hne => Or.inl (hrecorded q top hqChain hne)⟩
      obtain ⟨hheight, hfits⟩ := hqChain.at_own hself
      exact ⟨hheight, hfits.congr fun s hs => ⟨s, (hslot top).trans hs, rfl⟩⟩

variable [Inhabited H] {requests : List (SyncReq P)}
  {replies : List (Answer P D T H Sig)} {out : Output P D T H Sig}

theorem NodeChains.step (h : NodeChains env own n)
    (hnodup : (n.core.conf.peers.peers.map DAGPeer.id).Nodup)
    (hmem : own ∈ n.core.conf.peers.peers.map DAGPeer.id)
    (hown : n.core.conf.creator = own)
    (hstep : NodeStep env requests replies n n' out)
    (hreceived : ∀ event, Takes n n' event → ExtendsChain env n.core event)
    (hmade : ∀ event, Makes n n' event → FreshHash env n.core event) :
    NodeChains env own n' := by
  cases hstep with
  | choosePeer hproc hnext =>
      obtain ⟨-, r, rfl⟩ := DAGPeerList.nextPeer_eq_ok hnext
      exact h.keep rfl rfl (by rw [hproc]; rfl) (fun _ _ => trivial) (.inl rfl)
  | sendRequest hproc =>
      exact h.keep rfl rfl (by rw [hproc]; rfl) (fun _ _ => trivial) (.inl rfl)
  | nextHeight hproc hfind hget hnext =>
      obtain ⟨rfl, rfl⟩ := DAGPeer.getNextHeight_eq_ok hnext
      have hid := (DAGPeerList.findPeerMut_eq_ok hfind hget).trans hown
      refine h.writePeer hnodup rfl hget rfl rfl ?_ ?_ fun _ _ _ => id
      · intro top hchain
        obtain ⟨hrecorded, -⟩ := hchain.at_own hid
        rw [hproc] at hrecorded
        refine ⟨hchain.chain, fun _ => ?_, fun hne => absurd hid hne⟩
        have hnumber := congrArg (· + 1) hrecorded
        exact ⟨hnumber, hnumber⟩
      · intro q _ top hne hchain
        exact ⟨hchain.chain, fun hself => absurd (hself.trans hid.symm) hne,
          hchain.at_other⟩
  | otherHeight hproc _ =>
      refine h.keep rfl rfl (by rw [hproc]; rfl) (fun top hfits => ?_) (.inl rfl)
      rw [hproc] at hfits
      exact hfits
  | readParents hproc _ hs =>
      refine h.keep rfl rfl (by rw [hproc]; rfl) (fun top hfits => ?_) (.inl rfl)
      rw [hproc] at hfits
      obtain rfl : _ = top + 1 := hfits
      rw [hown] at hs
      exact ⟨rfl, _, SledStore.getEventOfCreator_eq_ok.mp hs, rfl⟩
  | formEvent hproc htime htx hitx hevent =>
      obtain ⟨-, rfl⟩ := getNextLamportTime_eq_ok htime
      cases htx
      cases hitx
      subst hevent
      refine h.keep rfl rfl (by rw [hproc]; rfl) (fun top hfits => ?_) (.inl rfl)
      rw [hproc] at hfits
      exact ⟨hown, hfits⟩
  | insertOwn hproc hhash hinsert =>
      obtain ⟨-, ⟨ins⟩⟩ := DAGcore.insertEvent_eq_ok hinsert
      obtain ⟨-, rfl⟩ := Event.eventHash_eq_ok.mp hhash
      exact h.insertOwn hmem hproc ins (hmade _ ⟨hproc, rfl⟩)
  | insertEvent hlistener hinsert =>
      obtain ⟨-, ⟨ins⟩⟩ := DAGcore.insertEvent_eq_ok hinsert
      exact h.insertReceived hnodup hown hlistener ins
        (hreceived _ ⟨_, _, hlistener, rfl⟩)
  | receiveReply hlistener _ =>
      rw [updateLamportTime_eq]
      exact h.keep rfl rfl rfl (fun _ => id)
        (.inr ⟨by rw [hlistener]; exact fun _ _ _ => nofun, fun _ _ _ => nofun⟩)
  | checkEvent hlistener _ _ | skipEvent hlistener _ _ | finishReply hlistener =>
      exact h.keep rfl rfl rfl (fun _ => id)
        (.inr ⟨by rw [hlistener]; exact fun _ _ _ => nofun, fun _ _ _ => nofun⟩)
  | updatePeer hlistener hfind hget =>
      have hid := DAGPeerList.findPeerMut_eq_ok hfind hget
      obtain ⟨e, he⟩ := h.inserted _ _ _ hlistener
      refine h.writePeer hnodup rfl hget rfl rfl ?_ ?_ fun _ _ _ => nofun
      · intro top hchain
        rw [← hid] at he
        have hle := hchain.chain.le_top he
        refine ⟨hchain.chain, fun hself => ?_, fun hne => Or.inl ?_⟩
        · obtain ⟨hrecorded, hfits⟩ := hchain.at_own hself
          refine ⟨?_, hfits⟩
          rw [DAGPeer.updateLamportTimeAndHeight_height, Nat.max_eq_left (by omega)]
          exact hrecorded
        · rw [DAGPeer.updateLamportTimeAndHeight_height]
          rcases hchain.at_other hne with hrecorded | ⟨_, _, _, hinserted, _, hat, _⟩
          · rw [Nat.max_eq_left (by omega)]
            exact hrecorded
          · cases hlistener.symm.trans hinserted
            omega
      · intro q _ top hne hchain
        refine ⟨hchain.chain, hchain.at_own, fun hne' => Or.inl ?_⟩
        apply (hchain.at_other hne').resolve_right
        rintro ⟨_, _, _, hinserted, hcreator, -⟩
        cases hlistener.symm.trans hinserted
        exact hne (hcreator.symm.trans hid.symm)
  | receiveRequest _ _ =>
      rw [updateLamportTime_eq]
      exact h.keep rfl rfl rfl (fun _ => id) (.inl rfl)
  | sendReply _ hfind =>
      obtain ⟨j, peer, hget, rfl⟩ :=
        DAGPeerList.findPeerWithLamportTimeUpdate_eq_ok hfind
      exact h.writePeer hnodup rfl hget rfl rfl
        (fun _ hchain => ⟨hchain.chain, hchain.at_own, hchain.at_other⟩)
        (fun _ _ _ _ hchain => ⟨hchain.chain, hchain.at_own, hchain.at_other⟩)
        fun _ _ _ => id
  | collectEvents | collectFails | listGossip | formReply | sendFails
  | addTransaction => exact h.keep rfl rfl rfl (fun _ => id) (.inl rfl)

variable {conf : DAGconfig P PK SK} {submitted : List D}

/-- Every event stored so far is the leaf of one of these peers, under both of its
keys. -/
structure LeavesIndexed (env : Env P D T H PK SK Sig) (done : List (DAGPeer P PK))
    (store : SledStore P D T H Sig) : Prop where
  indexed : Indexed env store
  leaf : ∀ k e, store.event (.hash k) = some e →
    ∃ peer ∈ done, e.toHashEvent = leafHashEvent peer

omit [LinearOrder P] [LinearOrder H] in
theorem LeavesIndexed.empty :
    LeavesIndexed env ([] : List (DAGPeer P PK)) SledStore.empty :=
  ⟨.empty, fun _ _ h => (Option.some_ne_none _ h.symm).elim⟩

omit [LinearOrder P] [LinearOrder H] in
/-- No event is filed under a peer whose leaf is still to come. -/
theorem LeavesIndexed.chainOf_eq_none {done : List (DAGPeer P PK)}
    {store : SledStore P D T H Sig} (h : LeavesIndexed env done store) {c : P}
    (hnew : c ∉ done.map DAGPeer.id) (height : Nat) :
    store.chainOf c height = none := by
  cases hslot : store.chainOf c height with
  | none => rfl
  | some e =>
      obtain ⟨hcreator, -, hhash⟩ := h.indexed.of_creator _ _ e hslot
      obtain ⟨q, hq, hsame⟩ := h.leaf _ e hhash
      have hid : e.creator = q.id := congrArg HashEvent.creator hsame
      exact absurd (List.mem_map.mpr ⟨q, hq, hid.symm.trans hcreator⟩) hnew

theorem LeavesIndexed.insertLeaf {done : List (DAGPeer P PK)} {peer : DAGPeer P PK}
    {store store' : SledStore P D T H Sig} (h : LeavesIndexed env done store)
    (hbody : DAGcore.insertLeaf env store peer = .ok store')
    (hnew : peer.id ∉ done.map DAGPeer.id)
    (hinjective : ∀ q ∈ done, ∀ k, env.eventHash (leafHashEvent q) = .ok k →
      env.eventHash (leafHashEvent peer) = .ok k → q = peer) :
    LeavesIndexed env (done ++ [peer]) store' := by
  obtain ⟨k, hk, rfl⟩ := DAGcore.insertLeaf_eq_ok hbody
  constructor
  case indexed =>
    refine h.indexed.write rfl hk ?_ fun e' he' => ?_
    · intro e' he'
      obtain ⟨q, hq, hsame⟩ := h.leaf k e' he'
      have hhash := (h.indexed.of_hash k e' he').2.1
      rw [hsame] at hhash
      obtain rfl := hinjective q hq k hhash hk
      exact absurd (List.mem_map.mpr ⟨q, hq, rfl⟩) hnew
    · cases (h.chainOf_eq_none hnew peer.height).symm.trans he'
  case leaf =>
    intro k' e he
    rcases SledStore.setEvent_event_cases _ he with rfl | hold
    · exact ⟨peer, List.mem_append_right _ List.mem_cons_self, rfl⟩
    · obtain ⟨q, hq, hsame⟩ := h.leaf k' e hold
      exact ⟨q, List.mem_append_left _ hq, hsame⟩

/-- The leaf events of `done` are in the store, and nothing else. -/
structure LeafChains (env : Env P D T H PK SK Sig) (done : List (DAGPeer P PK))
    (store : SledStore P D T H Sig) : Prop where
  indexed : Indexed env store
  leaf : ∀ k e, store.event (.hash k) = some e →
    ∃ peer ∈ done, e.toHashEvent = leafHashEvent peer
  chains : ∀ peer ∈ done, HeightChain NamesParent (store.chainOf peer.id) 0

omit [LinearOrder P] [LinearOrder H] in
theorem LeafChains.empty :
    LeafChains env ([] : List (DAGPeer P PK)) SledStore.empty :=
  ⟨.empty, fun _ _ h => (Option.some_ne_none _ h.symm).elim,
    fun _ hmem => (List.not_mem_nil hmem).elim⟩

theorem LeafChains.insertLeaf {done : List (DAGPeer P PK)} {peer : DAGPeer P PK}
    {store store' : SledStore P D T H Sig} (h : LeafChains env done store)
    (hbody : DAGcore.insertLeaf env store peer = .ok store')
    (hzero : peer.height = 0) (hnew : peer.id ∉ done.map DAGPeer.id)
    (hinjective : ∀ q ∈ done, ∀ k, env.eventHash (leafHashEvent q) = .ok k →
      env.eventHash (leafHashEvent peer) = .ok k → q = peer) :
    LeafChains env (done ++ [peer]) store' := by
  have hleaves : LeavesIndexed env done store := ⟨h.indexed, h.leaf⟩
  have hfree := hleaves.chainOf_eq_none hnew
  have hindexed := hleaves.insertLeaf hbody hnew hinjective
  obtain ⟨k, hk, rfl⟩ := DAGcore.insertLeaf_eq_ok hbody
  refine ⟨hindexed.indexed, hindexed.leaf, ?_⟩
  intro q hq
  rcases List.mem_append.mp hq with hq | hq
  · apply (h.chains q hq).congr
    apply chainOf_write_of_ne rfl
    intro hsame
    exact hnew (List.mem_map.mpr ⟨q, hq, hsame⟩)
  · rw [List.mem_singleton.mp hq]
    let leaf : Event P D T H Sig := { leafEvent peer with hash := k }
    let written := (store.setFlagTable k (AList.insert k 0 ∅)).setEvent leaf
    have hevent : written.event = (store.setEvent leaf).event := rfl
    have hslot : ∀ height, written.chainOf peer.id height =
        if height = 0 then some leaf else none := by
      intro height
      rw [← hfree height, ← hzero]
      exact chainOf_write hevent height
    exact .single hslot

/-- A new node has the leaf event of each peer. -/
theorem new_nodeChains (hnew : NewPeers env conf.peers.peers)
    {core : DAGcore P D T H PK SK Sig}
    (h : DAGcore.new env conf SledStore.empty = .ok core) :
    NodeChains env conf.creator ⟨core, .start, .idle, .idle⟩ := by
  have hloop : LeafChains env (conf.peers.setCreator conf.creator).peers
      core.store := by
    refine DAGcore.new_induct (I := LeafChains env) h .empty ?_
    intro done peer store store' hmem hid hdone hbody
    have hpeer := hmem peer (List.mem_append_right _ List.mem_cons_self)
    apply hdone.insertLeaf hbody (hnew.height_eq peer hpeer) (hid _ hnew.nodup)
    intro q hq k hk hk'
    exact hnew.leaf_injective q (hmem q (List.mem_append_left _ hq)) peer hpeer k
      hk hk'
  obtain ⟨store, -, rfl⟩ := DAGcore.new_eq_ok h
  have hperm := conf.peers.setCreator_peers_perm conf.creator
  refine ⟨hloop.indexed, fun peer hpeer => ?_, fun _ _ _ => nofun⟩
  have hzero := hnew.height_eq peer (hperm.mem_iff.mp hpeer)
  exact ⟨0, hloop.chains peer hpeer, fun _ => ⟨hzero, trivial⟩,
    fun _ => Or.inl hzero⟩

/-- At a node that is among its peers, a run in which every event that passes the
check is stored already or is the next one of its creator keeps one chain of
each peer, up to the height recorded for the peer. -/
theorem stored_chains (hnew : NewPeers env conf.peers.peers)
    (hmem : conf.creator ∈ conf.peers.peers.map DAGPeer.id)
    (h : SoloRun env conf (ExtendsChain env) (FreshHash env) submitted n)
    (hdone : ∀ answer event rest, n.listener ≠ .inserted answer event rest) :
    ∀ peer ∈ n.core.conf.peers.peers, ∃ top,
      OneChain n.core.store peer.id top ∧ (peer.height = top ∨
        peer.id = conf.creator ∧ n.procA.pending = 1 ∧
          peer.height = top + 1) := by
  have hchains : NodeChains env conf.creator n := by
    clear hdone
    induction h with
    | start h => exact new_nodeChains hnew h
    | @step submitted n n' out requests replies hrun hstep hreceived hmade ih =>
        exact ih.step (hrun.ids_perm.nodup_iff.mpr hnew.nodup)
          (hrun.ids_perm.mem_iff.mpr hmem) hrun.creator_eq hstep hreceived hmade
  intro peer hpeer
  obtain ⟨top, hpeerChain⟩ := hchains.peers peer hpeer
  refine ⟨top, hchains.indexed.oneChain hpeerChain.chain, ?_⟩
  by_cases hself : peer.id = conf.creator
  · have hheight := (hpeerChain.at_own hself).1
    rcases n.procA.pending_cases with hpending | hpending
    · exact Or.inl (hheight.trans (by rw [hpending]; rfl))
    · exact Or.inr ⟨hself, hpending, hheight.trans (by rw [hpending])⟩
  · left
    apply (hpeerChain.at_other hself).resolve_right
    rintro ⟨answer, event, rest, hinserted, -⟩
    exact hdone answer event rest hinserted

end Runs

namespace TwoPeers

/-- An event of the second peer that leaves out the heights 1 to 4. -/
def jumped : Event Nat Nat Unit Nat Unit := { b₁ with height := 5, hash := 27 }

/-- The first peer has stored an event of the second one and recorded it. -/
def recorded (event : Event Nat Nat Unit Nat Unit) : Core :=
  let core := after (start 0) [event]
  core.setPeers (core.conf.peers.writePeer 1
    ((peer 1).updateLamportTimeAndHeight event.lamportTimestamp event.height))

theorem soloRun_recorded {event : Event Nat Nat Unit Nat Unit}
    {received made : Core → Event Nat Nat Unit Nat Unit → Prop}
    (h : SoloRun env (conf 0) received made [] ⟨after (start 0) [event], .start,
      .inserted (delivery event) event [], .idle⟩)
    (hfind : (after (start 0) [event]).conf.peers.findPeerMut event.creator =
      .ok 1)
    (hget : (after (start 0) [event]).conf.peers.peers[1]? = some (peer 1)) :
    SoloRun env (conf 0) received made [] ⟨recorded event, .start,
      .processing (delivery event) [], .idle⟩ :=
  h.step [] [] (.updatePeer rfl hfind hget) (fun _ ⟨_, _, h, _⟩ => nomatch h)
    fun _ ⟨h, _⟩ => nomatch h

/-- The first peer stores the event of height 5, and no event of height 4. -/
theorem jumped_stored : ∃ submitted n peer,
    SoloRun env (conf 0) anyEvent anyEvent submitted n ∧
      (∀ answer event rest, n.listener ≠ .inserted answer event rest) ∧
      peer ∈ n.core.conf.peers.peers ∧
      ∀ top, ¬ OneChain n.core.store peer.id top := by
  have hcheck : (start 0).checkEvent env jumped = .ok true := rfl
  have hrun : SoloRun env (conf 0) anyEvent anyEvent [] _ :=
    soloRun_delivered rfl hcheck (by decide +kernel) trivial
  have hnext := soloRun_recorded hrun rfl rfl
  refine ⟨[], _, { peer 1 with height := 5, lamportTime := 1 }, hnext,
    fun _ _ _ => nofun, List.mem_of_getElem? (i := 1) rfl, fun top h => ?_⟩
  have hstored : (recorded jumped).store.event (.hash 27) = some { jumped with
      frameNumber := 1, signatures := AList.insert 0 () ∅ } := rfl
  obtain ⟨s, hs, -, hheight⟩ := h.self_parent 27 _ 4 hstored rfl rfl
  have hparent : ((recorded jumped).store.event (.hash 3)).map Event.height =
      some 0 := by decide +kernel
  rw [show (recorded jumped).store.event (.hash 3) = some s from hs,
    Option.map_some, hheight] at hparent
  cases hparent

theorem newPeers : NewPeers env (conf 0).peers.peers := by
  refine ⟨by decide, by decide, ?_⟩
  intro p hp q hq k hk hk'
  have hsame := Except.ok.inj (hk.trans hk'.symm)
  rcases List.mem_pair.mp hp with rfl | rfl <;>
    rcases List.mem_pair.mp hq with rfl | rfl
  · rfl
  · exact absurd hsame (by decide)
  · exact absurd hsame (by decide)
  · rfl

/-- The second peer's first event is the next one of its chain. -/
theorem recorded_chain : ∃ top, OneChain (recorded forged).store 1 top := by
  have hcheck : (start 0).checkEvent env forged = .ok true := rfl
  have hextends : ExtendsChain env (start 0) forged := by
    refine Or.inr ⟨by decide, fun k hk => ?_, peer 1,
      { leafEvent (peer 1) with hash := 3 }, rfl, rfl, rfl, rfl⟩
    cases hk
    rfl
  have hrun : SoloRun env (conf 0) (ExtendsChain env) (FreshHash env) [] _ :=
    soloRun_delivered rfl hcheck (by decide +kernel) hextends
  obtain ⟨top, hchain, -⟩ := stored_chains newPeers (by decide)
    (soloRun_recorded hrun rfl rfl) (fun _ _ _ => nofun)
    { peer 1 with height := 1, lamportTime := 1 } (List.mem_of_getElem? (i := 1) rfl)
  exact ⟨top, hchain⟩

end TwoPeers

end ConsensusDag
