/-
The unwraps that a message can bring to fail.  The listener passes over an event
with a bad signature, but what it cannot look up ends the thread.  The signatures
of an event are a hash map, which the check goes over in any order.
-/
import ConsensusDag.Authenticity
import ConsensusDag.Redelivery

namespace ConsensusDag

open Relation

variable {P D T H PK SK Sig : Type}

/-- The hashes of the stored events. -/
def DAGcore.known (core : DAGcore P D T H PK SK Sig) : Set H :=
  {k | ∃ e, core.store.event (.hash k) = some e}

/-- The sections that the listener has before it until it is idle. -/
def Listener.remaining : Listener P D T H Sig → Nat
  | .idle => 0
  | .processing _ rest => 3 * rest.length + 1
  | .inserted _ _ rest => 3 * rest.length + 2
  | .checked _ _ rest => 3 * rest.length + 3

/-- `procedure_b` has taken a request. -/
def NodeState.take (n : NodeState P D T H PK SK Sig) (req : SyncReq P) :
    NodeState P D T H PK SK Sig :=
  { n with
    core := n.core.updateLamportTime req.lamportTime
    procB := .updated req }

variable [LinearOrder P]

/-- The line that `procedure_b` writes when a request comes in, if debug lines
are written at all: it names the sender's address. -/
def logRequest (debug : Bool) (peers : DAGPeerList P PK) (req : SyncReq P) :
    Result Unit :=
  if debug then do
    let _ ← (peers.findPeer req.fromId).unwrap
    pure ()
  else pure ()

theorem logRequest_eq_ok {debug : Bool} {peers : DAGPeerList P PK} {req : SyncReq P} :
    logRequest debug peers req = .ok () ↔
      (debug = true → req.fromId ∈ peers.peers.map DAGPeer.id) := by
  unfold logRequest
  cases debug with
  | false => exact ⟨fun _ => nofun, fun _ => rfl⟩
  | true =>
      simp only [↓reduceIte, Result.bind_eq_ok, Result.unwrap_eq_ok, forall_const]
      constructor
      · rintro ⟨peer, hfind, -⟩
        obtain ⟨hmem, hid⟩ := DAGPeerList.findPeer_eq_ok hfind
        exact hid ▸ List.mem_map_of_mem hmem
      · intro hmem
        obtain ⟨peer, hfind⟩ := DAGPeerList.findPeer_of_mem hmem
        exact ⟨peer, hfind, rfl⟩

variable [LinearOrder H] [Inhabited H]

/-- In whatever order it goes over the map, the check of the signatures has this
result. -/
def DAGcore.ChecksTo (env : Env P D T H PK SK Sig) (peers : DAGPeerList P PK)
    (event : Event P D T H Sig) (rc : Bool) : Prop :=
  ∀ entries, entries.Perm event.signatures.entries →
    DAGcore.checkSignatures env peers event.hash entries = .ok rc

/-- An unwrap in the section that the listener comes to next fails, be it in one
order of the signatures only. -/
def UnwrapFails (env : Env P D T H PK SK Sig) (n : NodeState P D T H PK SK Sig) :
    Prop :=
  match n.listener with
  | .processing _ (ev :: _) => ∀ event, ev.toEvent env = .ok event →
      ∃ entries, entries.Perm event.signatures.entries ∧ ∀ rc,
        DAGcore.checkSignatures env n.core.conf.peers event.hash entries ≠ .ok rc
  | .checked _ event _ => ∀ rc core', n.core.insertEvent env event ≠ (.ok rc, core')
  | .inserted _ event _ => ∀ i,
      n.core.conf.peers.findPeerMut event.creator ≠ .ok i
  | _ => False

/-- The signatures verify, the parents are stored, and the creator is a peer. -/
structure Acceptable (env : Env P D T H PK SK Sig)
    (core : DAGcore P D T H PK SK Sig) (event : Event P D T H Sig) : Prop where
  checked : DAGcore.ChecksTo env core.conf.peers event true
  self_known : event.selfParent ∈ core.known
  other_known : event.otherParent ∈ core.known
  creator_mem : event.creator ∈ core.conf.peers.peers.map DAGPeer.id

/-- Each event in turn has signatures that can all be checked, one of which does not
verify, or all verify and the event comes after its parents and from a peer, and can
be signed. -/
inductive Digests (env : Env P D T H PK SK Sig) (conf : DAGconfig P PK SK) :
    Set H → List (NetEvent P D T H Sig) → Prop
  | nil {known : Set H} : Digests env conf known []
  | skip {known : Set H} {ev : NetEvent P D T H Sig}
      {rest : List (NetEvent P D T H Sig)} {event : Event P D T H Sig} :
      ev.toEvent env = .ok event →
      DAGcore.ChecksTo env conf.peers event false →
      Digests env conf known rest → Digests env conf known (ev :: rest)
  | take {known : Set H} {ev : NetEvent P D T H Sig}
      {rest : List (NetEvent P D T H Sig)} {event : Event P D T H Sig}
      {signature : Sig} : ev.toEvent env = .ok event →
      DAGcore.ChecksTo env conf.peers event true →
      event.selfParent ∈ known → event.otherParent ∈ known →
      event.creator ∈ conf.peers.peers.map DAGPeer.id →
      env.sign event.hash conf.publicKey conf.secretKey = .ok signature →
      Digests env conf (insert event.hash known) rest →
      Digests env conf known (ev :: rest)

section Conditions

variable {env : Env P D T H PK SK Sig} {conf conf' : DAGconfig P PK SK}
  {known known' : Set H} {events : List (NetEvent P D T H Sig)}

omit [LinearOrder H] [Inhabited H] in
/-- Checking signatures reads ids and keys only. -/
theorem checkSignatures_congr {peers peers' : DAGPeerList P PK}
    (hkeys : peers'.keys = peers.keys) {k : H} {rc : Bool}
    {entries : List (Sigma fun _ : P => Sig)}
    (h : DAGcore.checkSignatures env peers k entries = .ok rc) :
    DAGcore.checkSignatures env peers' k entries = .ok rc := by
  induction entries with
  | nil => exact h
  | cons entry rest ih =>
      obtain ⟨signatory, signature⟩ := entry
      simp only [DAGcore.checkSignatures, Result.bind_eq_ok, raise_eq_ok] at h ⊢
      obtain ⟨peer, hpeer, res, hres, hrest⟩ := h
      have hkey : peers'.publicKeyOf signatory = some peer.pubKey := by
        unfold DAGPeerList.publicKeyOf
        rw [hkeys]
        exact DAGPeerList.publicKeyOf_eq_some.mpr ⟨peer, hpeer, rfl⟩
      obtain ⟨peer', hpeer', hsame⟩ := DAGPeerList.publicKeyOf_eq_some.mp hkey
      refine ⟨peer', hpeer', res, by rwa [hsame], ?_⟩
      cases res with
      | true => exact ih hrest
      | false => exact hrest

omit [LinearOrder H] [Inhabited H] in
theorem DAGcore.ChecksTo.congr {peers peers' : DAGPeerList P PK}
    {event : Event P D T H Sig} {rc : Bool} (h : ChecksTo env peers event rc)
    (hkeys : peers'.keys = peers.keys) : ChecksTo env peers' event rc :=
  fun entries hperm => checkSignatures_congr hkeys (h entries hperm)

omit [LinearOrder H] in
theorem Digests.mono (h : Digests env conf known events) (hsub : known ⊆ known') :
    Digests env conf known' events := by
  induction h generalizing known' with
  | nil => exact .nil
  | skip hevent hcheck _ ih => exact .skip hevent hcheck (ih hsub)
  | take hevent hcheck hself hother hcreator hsign _ ih =>
      exact .take hevent hcheck (hsub hself) (hsub hother) hcreator hsign
        (ih (Set.insert_subset_insert hsub))

omit [LinearOrder H] in
theorem Digests.congr (h : Digests env conf known events)
    (hsame : conf.SameKeys conf') : Digests env conf' known events := by
  induction h with
  | nil => exact .nil
  | skip hevent hcheck _ ih =>
      exact .skip hevent (hcheck.congr hsame.keys) ih
  | take hevent hcheck hself hother hcreator hsign _ ih =>
      refine .take hevent (hcheck.congr hsame.keys) hself hother ?_
        (by rwa [hsame.publicKey, hsame.secretKey]) ih
      rw [DAGPeerList.map_id_eq, hsame.keys, ← DAGPeerList.map_id_eq]
      exact hcreator

end Conditions

section Steps

variable {env : Env P D T H PK SK Sig} {n n' : NodeState P D T H PK SK Sig}
  {requests : List (SyncReq P)} {replies : List (Answer P D T H Sig)}
  {out : Output P D T H Sig}

omit [Inhabited H] in
theorem known_insert {core core' : DAGcore P D T H PK SK Sig}
    {event : Event P D T H Sig} (ins : DAGcore.Insertion env core event core') :
    core'.known = insert ins.eventHash core.known := by
  ext k
  change (∃ e, core'.store.event (.hash k) = some e) ↔
    k = ins.eventHash ∨ ∃ e, core.store.event (.hash k) = some e
  rw [ins.event_hash]
  split
  · rename_i hk
    exact ⟨fun _ => Or.inl hk, fun _ => ⟨_, rfl⟩⟩
  · rename_i hk
    exact ⟨Or.inr, fun h => h.resolve_left hk⟩

theorem NodeStep.known_subset (h : NodeStep env requests replies n n' out) :
    n.core.known ⊆ n'.core.known := by
  rcases h.store_cases with hstore | ⟨_, _, _, ⟨ins⟩, -⟩ | ⟨_, _, _, _, ⟨ins⟩, -⟩
  · intro k hk
    change ∃ e, n'.core.store.event (.hash k) = some e
    rw [hstore]
    exact hk
  · rw [known_insert ins]
    exact Set.subset_insert _ _
  · rw [known_insert ins]
    exact Set.subset_insert _ _

theorem NodeStep.coreInv (h : NodeStep env requests replies n n' out)
    (hcore : CoreInv env n.core) : CoreInv env n'.core := by
  rcases h.store_cases with hstore | ⟨_, _, _, ⟨ins⟩, -⟩ | ⟨_, _, _, _, ⟨ins⟩, -⟩
  · refine ⟨by rw [hstore]; exact hcore.keys, fun k e he => ?_⟩
    obtain ⟨id, hid⟩ := hcore.creatorId k e (by rwa [← hstore])
    exact ⟨id, h.sameKeys.creatorId hid⟩
  · exact hcore.insert ins
  · exact hcore.insert ins

theorem SoloRun.coreInv {conf : DAGconfig P PK SK} {submitted : List D}
    {received made : DAGcore P D T H PK SK Sig → Event P D T H Sig → Prop}
    (h : SoloRun env conf received made submitted n) : CoreInv env n.core := by
  induction h with
  | start hnew => exact .new hnew
  | step _ _ _ hstep _ _ ih => exact hstep.coreInv ih

/-- What is left of the reply can be digested, in every section of the loop. -/
def Digesting (env : Env P D T H PK SK Sig) (n : NodeState P D T H PK SK Sig) :
    Prop :=
  match n.listener with
  | .idle => True
  | .processing _ rest => Digests env n.core.conf n.core.known rest
  | .checked _ event rest => Acceptable env n.core event ∧
      env.eventHash event.toHashEvent = .ok event.hash ∧
      (∃ signature, env.sign event.hash n.core.conf.publicKey
        n.core.conf.secretKey = .ok signature) ∧
      Digests env n.core.conf (insert event.hash n.core.known) rest
  | .inserted _ event rest =>
      event.creator ∈ n.core.conf.peers.peers.map DAGPeer.id ∧
        Digests env n.core.conf n.core.known rest

omit [LinearOrder H] [Inhabited H] in
theorem Acceptable.mono {core core' : DAGcore P D T H PK SK Sig}
    {event : Event P D T H Sig} (h : Acceptable env core event)
    (hsame : core.conf.SameKeys core'.conf) (hsub : core.known ⊆ core'.known) :
    Acceptable env core' event where
  checked := h.checked.congr hsame.keys
  self_known := hsub h.self_known
  other_known := hsub h.other_known
  creator_mem := by
    rw [DAGPeerList.map_id_eq, hsame.keys, ← DAGPeerList.map_id_eq]
    exact h.creator_mem

theorem Digesting.keep (h : Digesting env n)
    (hstep : NodeStep env requests replies n n' out)
    (hlistener : n'.listener = n.listener) : Digesting env n' := by
  have hsame := hstep.sameKeys
  have hsub := hstep.known_subset
  unfold Digesting at h ⊢
  rw [hlistener]
  split at h
  · trivial
  · exact (h.mono hsub).congr hsame
  · obtain ⟨haccept, hhash, ⟨signature, hsign⟩, hrest⟩ := h
    refine ⟨haccept.mono hsame hsub, hhash, ⟨signature, ?_⟩, ?_⟩
    · rwa [hsame.publicKey, hsame.secretKey]
    · exact (hrest.mono (Set.insert_subset_insert hsub)).congr hsame
  · obtain ⟨hcreator, hrest⟩ := h
    refine ⟨?_, (hrest.mono hsub).congr hsame⟩
    rw [DAGPeerList.map_id_eq, hsame.keys, ← DAGPeerList.map_id_eq]
    exact hcreator

theorem Digesting.step (h : Digesting env n)
    (hstep : NodeStep env requests [] n n' out) : Digesting env n' := by
  have hkeep := h.keep hstep
  cases hstep with
  | receiveReply _ hmem => exact (List.not_mem_nil hmem).elim
  | checkEvent hlistener hevent hcheck =>
      unfold Digesting at h
      rw [hlistener] at h
      cases h with
      | skip hevent' hcheck' _ =>
          cases hevent.symm.trans hevent'
          cases hcheck.symm.trans (hcheck' _ (.refl _))
      | take hevent' hcheck' hself hother hcreator hsign hrest =>
          cases hevent.symm.trans hevent'
          obtain ⟨rfl, hhash⟩ := toEvent_eq_ok hevent
          exact ⟨⟨hcheck', hself, hother, hcreator⟩, hhash, ⟨_, hsign⟩, hrest⟩
  | skipEvent hlistener hevent hcheck =>
      unfold Digesting at h
      rw [hlistener] at h
      cases h with
      | skip _ _ hrest => exact hrest
      | take hevent' hcheck' _ _ _ _ _ =>
          cases hevent.symm.trans hevent'
          cases hcheck.symm.trans (hcheck' _ (.refl _))
  | insertEvent hlistener hinsert =>
      obtain ⟨-, ⟨ins⟩⟩ := DAGcore.insertEvent_eq_ok hinsert
      unfold Digesting at h
      rw [hlistener] at h
      obtain ⟨haccept, hhash, -, hrest⟩ := h
      have hsame := Except.ok.inj (ins.hash_eq.symm.trans hhash)
      refine ⟨?_, ?_⟩
      · rw [ins.peers_eq]
        exact haccept.creator_mem
      · rw [known_insert ins, hsame]
        exact hrest.congr ins.sameKeys
  | updatePeer hlistener _ hget =>
      unfold Digesting at h
      rw [hlistener] at h
      exact h.2.congr (.writePeer hget rfl rfl)
  | finishReply hlistener => trivial
  | choosePeer | sendRequest | nextHeight | otherHeight | readParents
  | formEvent | insertOwn | receiveRequest | collectEvents | collectFails
  | listGossip | formReply | sendReply | sendFails | addTransaction =>
      exact hkeep rfl

/-- What is left can be digested, so the listener can go on. -/
theorem Digesting.progress (h : Digesting env n) (hcore : CoreInv env n.core) :
    ¬ UnwrapFails env n ∧ (n.listener ≠ .idle → ∃ n', NodeStep env [] [] n n' {} ∧
      n'.procA = n.procA ∧ n'.procB = n.procB ∧
      n'.listener.remaining < n.listener.remaining) := by
  unfold Digesting at h
  unfold UnwrapFails
  cases hlistener : n.listener with
  | idle => exact ⟨nofun, fun hne => absurd rfl hne⟩
  | processing answer rest =>
      rw [hlistener] at h
      cases h with
      | nil =>
          exact ⟨nofun, fun _ => ⟨_, .finishReply hlistener, rfl, rfl,
            Nat.lt_succ_self _⟩⟩
      | @skip _ _ rest _ hevent hcheck _ =>
          refine ⟨fun hfails => ?_, fun _ =>
            ⟨_, .skipEvent hlistener hevent (hcheck _ (.refl _)), rfl, rfl, ?_⟩⟩
          · obtain ⟨entries, hperm, hne⟩ := hfails _ hevent
            exact hne _ (hcheck entries hperm)
          · change 3 * rest.length + 1 < 3 * (rest.length + 1) + 1
            omega
      | @take _ _ rest _ _ hevent hcheck _ _ _ _ _ =>
          refine ⟨fun hfails => ?_, fun _ =>
            ⟨_, .checkEvent hlistener hevent (hcheck _ (.refl _)), rfl, rfl, ?_⟩⟩
          · obtain ⟨entries, hperm, hne⟩ := hfails _ hevent
            exact hne _ (hcheck entries hperm)
          · change 3 * rest.length + 3 < 3 * (rest.length + 1) + 1
            omega
  | checked answer event rest =>
      rw [hlistener] at h
      obtain ⟨haccept, hhash, ⟨signature, hsign⟩, -⟩ := h
      obtain ⟨s, hs⟩ := haccept.self_known
      obtain ⟨o, ho⟩ := haccept.other_known
      obtain ⟨id, hid⟩ := hcore.creatorId _ s hs
      obtain ⟨core', hinsert⟩ :=
        insertEvent_succeeds hcore.keys hhash hs ho hsign hid
      exact ⟨fun hfails => hfails _ _ hinsert, fun _ =>
        ⟨_, .insertEvent hlistener hinsert, rfl, rfl, Nat.lt_succ_self _⟩⟩
  | inserted answer event rest =>
      rw [hlistener] at h
      obtain ⟨i, peer, hfind, hget⟩ := DAGPeerList.findPeerMut_of_mem h.1
      exact ⟨fun hfails => hfails i hfind, fun _ =>
        ⟨_, .updatePeer hlistener hfind hget, rfl, rfl, Nat.lt_succ_self _⟩⟩

end Steps

end ConsensusDag
