/-
An event that reaches the listener a second time.  Neither the listener nor
`insert_event` asks whether an event is in the store already, and its record is
appended to the frame once more.
-/
import ConsensusDag.EventDag

namespace ConsensusDag

variable {P D T H PK SK Sig : Type} [LinearOrder P] [LinearOrder H]

/-- The body of the listener's loop over the events of a reply, up to the
update of the peer list: an event that is not valid is passed over. -/
def DAGcore.receiveEvent (env : Env P D T H PK SK Sig) (event : Event P D T H Sig)
    (core : DAGcore P D T H PK SK Sig) :
    Result Bool × DAGcore P D T H PK SK Sig :=
  match (core.checkEvent env event).unwrap with
  | .error failure => (.error failure, core)
  | .ok false => (.ok false, core)
  | .ok true =>
      let (result, core) := core.insertEvent env event
      (result.unwrap, core)

section KeysStored

/-- Every stored event has its hash as key, and a flag table that names stored
events only. -/
structure KeysStored (env : Env P D T H PK SK Sig)
    (store : SledStore P D T H Sig) : Prop where
  hashed : ∀ k e, store.event (.hash k) = some e →
    env.eventHash e.toHashEvent = .ok k
  table : ∀ k e, store.event (.hash k) = some e →
    ∃ ft, store.flagTable k = some ft ∧ ∀ key f, ft.lookup key = some f →
      ∃ e', store.event (.hash key) = some e'

variable {env : Env P D T H PK SK Sig} {store : SledStore P D T H Sig}

omit [LinearOrder P] in
theorem KeysStored.empty [DecidableEq P] :
    KeysStored env (SledStore.empty : SledStore P D T H Sig) where
  hashed k e h := by cases h
  table k e h := by cases h

/-- Writing an event whose table names stored events and the event itself. -/
theorem KeysStored.write (h : KeysStored env store) {k : H}
    {e : Event P D T H Sig} {ft : FlagTable H} (hhash : e.hash = k)
    (hk : env.eventHash e.toHashEvent = .ok k)
    (hft : ∀ key f, ft.lookup key = some f →
      key = k ∨ ∃ e', store.event (.hash key) = some e') :
    KeysStored env ((store.setFlagTable k ft).setEvent e) := by
  have hkept : ∀ key, (key = k ∨ ∃ e', store.event (.hash key) = some e') →
      ∃ e', ((store.setFlagTable k ft).setEvent e).event (.hash key) =
        some e' := by
    intro key hkey
    rw [SledStore.setEvent_event_hash, hhash]
    split
    · exact ⟨e, rfl⟩
    · rename_i hne
      exact hkey.resolve_left hne
  constructor
  · intro key e' he'
    rw [SledStore.setEvent_event_hash, hhash] at he'
    split at he'
    · rename_i heq
      cases he'
      rw [heq]
      exact hk
    · exact h.hashed key e' he'
  · intro key e' he'
    rw [SledStore.setEvent_flagTable, SledStore.setFlagTable_flagTable]
    rw [SledStore.setEvent_event_hash, hhash] at he'
    split
    · exact ⟨ft, rfl, fun key' f hlookup => hkept key' (hft key' f hlookup)⟩
    · rename_i hne
      rw [if_neg hne] at he'
      obtain ⟨ft', hft', hkeys⟩ := h.table key e' he'
      exact ⟨ft', hft', fun key' f hlookup =>
        hkept key' (Or.inr (hkeys key' f hlookup))⟩

/-- Tables of stored events can be turned into creator tables. -/
theorem KeysStored.derive_eq_ok (env : Env P D T H PK SK Sig)
    {ft : FlagTable H} (least : Nat)
    (hft : ∀ key f, ft.lookup key = some f →
      ∃ e, store.event (.hash key) = some e) :
    ∃ t, store.deriveCreatorFlagTable env ft least = .ok t :=
  ⟨_, SledStore.deriveCreatorFlagTable_eq fun key f hlookup _ =>
    hft key f hlookup⟩

end KeysStored

section Succeeds

variable {env : Env P D T H PK SK Sig} {core core' : DAGcore P D T H PK SK Sig}
  {event : Event P D T H Sig}

/-- The parents of an event are stored, with tables that name stored events. -/
structure ParentsStored (core : DAGcore P D T H PK SK Sig)
    (event : Event P D T H Sig) (s o : Event P D T H Sig)
    (sft oft : FlagTable H) : Prop where
  self_stored : core.store.event (.hash event.selfParent) = some s
  other_stored : core.store.event (.hash event.otherParent) = some o
  self_ft : core.store.flagTable event.selfParent = some sft
  other_ft : core.store.flagTable event.otherParent = some oft
  self_keys : ∀ key f, sft.lookup key = some f →
    ∃ e, core.store.event (.hash key) = some e
  other_keys : ∀ key f, oft.lookup key = some f →
    ∃ e, core.store.event (.hash key) = some e

omit [LinearOrder P] in
theorem KeysStored.parentsStored (h : KeysStored env core.store)
    {s o : Event P D T H Sig}
    (hs : core.store.event (.hash event.selfParent) = some s)
    (ho : core.store.event (.hash event.otherParent) = some o) :
    ∃ sft oft, ParentsStored core event s o sft oft := by
  obtain ⟨sft, hsft, hskeys⟩ := h.table _ s hs
  obtain ⟨oft, hoft, hokeys⟩ := h.table _ o ho
  exact ⟨sft, oft, hs, ho, hsft, hoft, hskeys, hokeys⟩

theorem rootAndFrame_eq_ok (env : Env P D T H PK SK Sig)
    {s o : Event P D T H Sig} {sft oft : FlagTable H}
    (h : ParentsStored core event s o sft oft) :
    ∃ root frame, core.rootAndFrame env s o sft oft = .ok (root, frame) := by
  unfold DAGcore.rootAndFrame
  split
  · have hkeys : ∀ key f, (strictMergeFlagTable sft oft
        s.frameNumber).lookup key = some f →
        ∃ e, core.store.event (.hash key) = some e := fun key f hlookup =>
      (lookup_strictMergeFlagTable.mp hlookup).2.elim (h.self_keys key f)
        (h.other_keys key f)
    obtain ⟨t, ht⟩ := KeysStored.derive_eq_ok env s.frameNumber hkeys
    simp only [ht, bind, Except.bind]
    split
    · exact ⟨_, _, rfl⟩
    · exact ⟨_, _, rfl⟩
  · exact ⟨_, _, rfl⟩
  · exact ⟨_, _, rfl⟩

omit [LinearOrder P] in
theorem visibilis_keys {s o : Event P D T H Sig} {sft oft : FlagTable H}
    (h : ParentsStored core event s o sft oft) {root : Bool} {k : H}
    {frame : Nat} (key : H) (f : Nat)
    (hlookup : (core.visibilisFlagTable sft oft root k frame).lookup key =
      some f) :
    key = k ∨ ∃ e, core.store.event (.hash key) = some e := by
  have hmerged : (openMergeFlagTable sft oft core.firstNotFinalisedFrame).lookup
      key = some f → ∃ e, core.store.event (.hash key) = some e := fun hl =>
    (lookup_of_lookup_openMergeFlagTable hl).elim (h.self_keys key f)
      (h.other_keys key f)
  unfold DAGcore.visibilisFlagTable at hlookup
  simp only at hlookup
  split at hlookup
  · by_cases hkey : key = k
    · exact Or.inl hkey
    · rw [AList.lookup_insert_ne hkey] at hlookup
      exact Or.inr (hmerged hlookup)
  · exact Or.inr (hmerged hlookup)

/-- With both parents in the store and a key that signs, `insert_event` goes
through, whether or not the event is stored already. -/
theorem insertEvent_succeeds (h : KeysStored env core.store) {k : H}
    (hk : env.eventHash event.toHashEvent = .ok k)
    {s o : Event P D T H Sig}
    (hs : core.store.event (.hash event.selfParent) = some s)
    (ho : core.store.event (.hash event.otherParent) = some o)
    {signature : Sig} (hsign : env.sign k core.conf.publicKey
      core.conf.secretKey = .ok signature)
    {id : P} (hid : core.conf.peers.getCreatorId = .ok id) :
    ∃ core', core.insertEvent env event = (.ok true, core') := by
  obtain ⟨sft, oft, hparents⟩ := h.parentsStored hs ho
  obtain ⟨root, frame, hframe⟩ := rootAndFrame_eq_ok env hparents
  let ft := core.visibilisFlagTable sft oft root k frame
  let prepared : Event P D T H Sig := { event with hash := k, frameNumber := frame }
  let signed : Event P D T H Sig :=
    { prepared with signatures := event.signatures.insert id signature }
  have hprepare : core.prepareEvent env event = .ok (k, prepared, ft) := by
    unfold DAGcore.prepareEvent
    have hhash : event.eventHash env = .ok (k, { event with hash := k }) :=
      Event.eventHash_eq_ok.mpr ⟨hk, rfl⟩
    simp only [hhash, bind, Except.bind, SledStore.getEvent_eq_ok.mpr hs,
      SledStore.getEvent_eq_ok.mpr ho,
      SledStore.getFlagTable_eq_ok.mpr hparents.self_ft,
      SledStore.getFlagTable_eq_ok.mpr hparents.other_ft, hframe]
    rfl
  have hsigned : DAGcore.signEvent env core.conf k prepared = .ok signed := by
    unfold DAGcore.signEvent
    simp only [hsign, raise, bind, Except.bind, hid]
    rfl
  have hkeys : ∀ key f, ft.lookup key = some f → ∃ e,
      (core.written k ft signed).store.event (.hash key) = some e := by
    intro key f hlookup
    have hread := SledStore.setEvent_event_hash (core.store.setFlagTable k ft)
      signed key
    split at hread
    · exact ⟨_, hread⟩
    · rename_i hne
      obtain ⟨e, he⟩ := (visibilis_keys hparents key f hlookup).resolve_left hne
      exact ⟨e, hread.trans he⟩
  obtain ⟨t, ht⟩ := KeysStored.derive_eq_ok env
    (core.firstNotFinalisedFrame + 1) hkeys
  have hfinalise : ∃ frames, (core.written k ft signed).framesToFinalise env ft
      core.firstNotFinalisedFrame = .ok frames := by
    unfold DAGcore.framesToFinalise
    simp only [ht, bind, Except.bind]
    split
    · exact ⟨_, rfl⟩
    · exact ⟨_, rfl⟩
  obtain ⟨frames, hframes⟩ := hfinalise
  exact ⟨_, DAGcore.insertEvent_of_parts hprepare hsigned hframes⟩

end Succeeds

section Runs

variable [Inhabited H] {env : Env P D T H PK SK Sig}
  {conf : DAGconfig P PK SK} {core core' : DAGcore P D T H PK SK Sig}

/-- The event fails `check_event`, or one of its parents is not in the store. -/
def DAGcore.Refuses (env : Env P D T H PK SK Sig)
    (core : DAGcore P D T H PK SK Sig) (event : Event P D T H Sig) : Prop :=
  core.checkEvent env event ≠ .ok true ∨
    core.store.event (.hash event.selfParent) = none ∨
    core.store.event (.hash event.otherParent) = none

/-- The states of a node whose events are inserted for the first time, and
handed to the listener again where `redelivered` lets them. -/
inductive CoreRun (env : Env P D T H PK SK Sig) (conf : DAGconfig P PK SK)
    (redelivered : DAGcore P D T H PK SK Sig → Event P D T H Sig → Prop) :
    DAGcore P D T H PK SK Sig → Prop
  | start {core : DAGcore P D T H PK SK Sig} :
      DAGcore.new env conf SledStore.empty = .ok core →
      CoreRun env conf redelivered core
  | insert {core core' : DAGcore P D T H PK SK Sig} {k : H}
      (event : Event P D T H Sig) : CoreRun env conf redelivered core →
      env.eventHash event.toHashEvent = .ok k →
      core.store.event (.hash k) = none →
      core.insertEvent env event = (.ok true, core') →
      CoreRun env conf redelivered core'
  | redeliver {core core' : DAGcore P D T H PK SK Sig} {k : H} {rc : Bool}
      {stored : Event P D T H Sig} (event : Event P D T H Sig) :
      CoreRun env conf redelivered core →
      env.eventHash event.toHashEvent = .ok k →
      core.store.event (.hash k) = some stored →
      redelivered core event →
      core.receiveEvent env event = (.ok rc, core') →
      CoreRun env conf redelivered core'

/-- Nothing that the final order depends on differs between two states. -/
structure DAGcore.Unchanged (core core' : DAGcore P D T H PK SK Sig) : Prop where
  frames : ∀ f, core'.store.getFrame f = core.store.getFrame f
  frameNumbers : ∀ k e, core.store.event (.hash k) = some e →
    ∃ e', core'.store.event (.hash k) = some e' ∧ e'.frameNumber = e.frameNumber
  tables : ∀ k ft, core.store.flagTable k = some ft →
    ∃ ft', core'.store.flagTable k = some ft' ∧
      ∀ key f, core.firstNotFinalisedFrame ≤ f →
        (ft'.lookup key = some f ↔ ft.lookup key = some f)
  last : core'.lastFinalisedFrame = core.lastFinalisedFrame

/-- No hash occurs twice in the frames. -/
structure HashOnce (store : SledStore P D T H Sig) : Prop where
  within : ∀ f, ((store.getFrame f).events.map FrameRecord.hash).Nodup
  across : ∀ f g, f ≠ g → ∀ r ∈ (store.getFrame f).events,
    ∀ r' ∈ (store.getFrame g).events, r.hash ≠ r'.hash

end Runs

section Invariants

variable {env : Env P D T H PK SK Sig} {core core' : DAGcore P D T H PK SK Sig}
  {event : Event P D T H Sig}

/-- The tables name stored events, and the node finds itself in its peer list
once anything is stored. -/
structure CoreInv (env : Env P D T H PK SK Sig)
    (core : DAGcore P D T H PK SK Sig) : Prop where
  keys : KeysStored env core.store
  creatorId : ∀ k e, core.store.event (.hash k) = some e →
    ∃ id, core.conf.peers.getCreatorId = .ok id

/-- Every record is one of a stored event, and no hash occurs twice. -/
structure RecordsInv (store : SledStore P D T H Sig) : Prop where
  once : HashOnce store
  stored : ∀ f, ∀ r ∈ (store.getFrame f).events,
    ∃ e, store.event (.hash r.hash) = some e

theorem KeysStored.insert (h : KeysStored env core.store)
    (ins : core.Insertion env event core') : KeysStored env core'.store := by
  obtain ⟨sft, oft, hparents⟩ := h.parentsStored ins.self_stored ins.other_stored
  have hsft := Option.some.inj (hparents.self_ft.symm.trans ins.self_ft)
  have hoft := Option.some.inj (hparents.other_ft.symm.trans ins.other_ft)
  subst hsft hoft
  have hkeys : ∀ key f, ins.flagTable.lookup key = some f →
      key = ins.eventHash ∨ ∃ e, core.store.event (.hash key) = some e :=
    fun key f => visibilis_keys hparents key f
  have hwrite := h.write (e := ins.stored) ins.stored_hash ins.hash_eq hkeys
  have hevent := ins.event_eq
  have htable := ins.flagTable_written
  constructor
  · rw [hevent]
    exact hwrite.hashed
  · rw [hevent, htable]
    exact hwrite.table

theorem CoreInv.insert (h : CoreInv env core)
    (ins : core.Insertion env event core') : CoreInv env core' :=
  ⟨h.keys.insert ins, fun _ _ _ =>
    ⟨ins.creatorId, by rw [ins.peers_eq]; exact ins.creatorId_eq⟩⟩

omit [LinearOrder P] [LinearOrder H] in
theorem RecordsInv.empty :
    RecordsInv (SledStore.empty : SledStore P D T H Sig) where
  once := ⟨fun _ => List.nodup_nil, fun _ _ _ _ hr => by cases hr⟩
  stored _ _ hr := by cases hr

/-- Writing an event whose hash is new. -/
theorem RecordsInv.write {store : SledStore P D T H Sig} (h : RecordsInv store)
    {e : Event P D T H Sig} (hnew : store.event (.hash e.hash) = none) (k : H)
    (ft : FlagTable H) :
    RecordsInv ((store.setFlagTable k ft).setEvent e) := by
  have hne : ∀ f, ∀ r ∈ (store.getFrame f).events, r.hash ≠ e.hash := by
    intro f r hr heq
    obtain ⟨e', he'⟩ := h.stored f r hr
    rw [heq, hnew] at he'
    cases he'
  have hmem : ∀ f r, r ∈ (((store.setFlagTable k ft).setEvent e).getFrame f).events ↔
      r ∈ (store.getFrame f).events ∨
        f = e.frameNumber ∧ r = ⟨e.hash, e.lamportTimestamp⟩ := by
    intro f r
    rw [SledStore.setEvent_getFrame, SledStore.setFlagTable_getFrame]
    split
    · rename_i hf
      simp [hf]
    · rename_i hf
      simp [hf]
  refine ⟨⟨?_, ?_⟩, ?_⟩
  · intro f
    rw [SledStore.setEvent_getFrame, SledStore.setFlagTable_getFrame]
    split
    · rw [List.map_append, List.nodup_append]
      refine ⟨h.once.within f, List.nodup_singleton _, ?_⟩
      intro a ha b hb
      obtain ⟨r, hr, rfl⟩ := List.mem_map.mp ha
      rw [List.map_singleton, List.mem_singleton] at hb
      rw [hb]
      exact hne f r hr
    · exact h.once.within f
  · intro f g hfg r hr r' hr'
    rcases (hmem f r).mp hr with hr | ⟨rfl, rfl⟩ <;>
      rcases (hmem g r').mp hr' with hr' | ⟨rfl, rfl⟩
    · exact h.once.across f g hfg r hr r' hr'
    · exact hne f r hr
    · exact (hne g r' hr').symm
    · exact absurd rfl hfg
  · intro f r hr
    rw [SledStore.setEvent_event_hash]
    rcases (hmem f r).mp hr with hr | ⟨_, rfl⟩
    · rw [if_neg (hne f r hr)]
      exact h.stored f r hr
    · exact ⟨e, if_pos rfl⟩

omit [LinearOrder P] [LinearOrder H] in
theorem RecordsInv.of_perm {store store' : SledStore P D T H Sig}
    (h : RecordsInv store) (hevent : store'.event = store.event)
    (hframe : ∀ f, (store'.getFrame f).events.Perm (store.getFrame f).events) :
    RecordsInv store' := by
  refine ⟨⟨fun f => ?_, fun f g hfg r hr r' hr' => ?_⟩, fun f r hr => ?_⟩
  · exact ((hframe f).map FrameRecord.hash).nodup_iff.mpr (h.once.within f)
  · exact h.once.across f g hfg r ((hframe f).mem_iff.mp hr) r'
      ((hframe g).mem_iff.mp hr')
  · rw [hevent]
    exact h.stored f r ((hframe f).mem_iff.mp hr)

theorem RecordsInv.insert (h : RecordsInv core.store)
    (ins : core.Insertion env event core')
    (hnew : core.store.event (.hash ins.eventHash) = none) :
    RecordsInv core'.store :=
  (h.write (e := ins.stored) hnew ins.eventHash ins.flagTable).of_perm
    ins.event_eq ins.getFrame_written

end Invariants

section Start

variable [Inhabited H] {env : Env P D T H PK SK Sig}
  {conf : DAGconfig P PK SK} {core : DAGcore P D T H PK SK Sig}

theorem KeysStored.insertLeaf {store store' : SledStore P D T H Sig}
    {peer : DAGPeer P PK} (h : KeysStored env store)
    (hleaf : DAGcore.insertLeaf env store peer = .ok store') :
    KeysStored env store' := by
  obtain ⟨k, hk, rfl⟩ := DAGcore.insertLeaf_eq_ok hleaf
  apply h.write rfl hk
  intro key f hlookup
  exact Or.inl (lookup_insert_empty hlookup).1

/-- A node whose peer list is not empty finds an entry under `current`. -/
theorem getCreatorId_setCreator (list : DAGPeerList P PK) (creator : P)
    (hne : (list.setCreator creator).peers ≠ []) :
    ∃ id, (list.setCreator creator).getCreatorId = .ok id := by
  have hlt : (list.setCreator creator).current <
      (list.setCreator creator).peers.length := by
    change (((list.setCreator creator).peers.findIdx?
      fun x => x.id = creator).getD 0) < _
    cases hfind : (list.setCreator creator).peers.findIdx?
        fun x => x.id = creator with
    | none => exact List.length_pos_iff.mpr hne
    | some i => exact (List.findIdx?_eq_some_iff_getElem.mp hfind).1
  unfold DAGPeerList.getCreatorId
  rw [List.getElem?_eq_getElem hlt]
  exact ⟨_, rfl⟩

theorem CoreInv.new (h : DAGcore.new env conf SledStore.empty = .ok core) :
    CoreInv env core := by
  have hkeys : KeysStored env core.store :=
    DAGcore.new_induct (I := fun _ s => KeysStored env s) h .empty
      fun _ _ _ _ _ _ hs hleaf => hs.insertLeaf hleaf
  obtain ⟨store, hfold, rfl⟩ := DAGcore.new_eq_ok h
  refine ⟨hkeys, ?_⟩
  intro k e he
  refine getCreatorId_setCreator conf.peers conf.creator fun hnil => ?_
  rw [hnil] at hfold
  cases hfold
  cases he

theorem RecordsInv.new
    (hdistinct : (conf.peers.peers.map fun peer =>
      env.eventHash (leafHashEvent peer)).Nodup)
    (h : DAGcore.new env conf SledStore.empty = .ok core) :
    RecordsInv core.store := by
  suffices hloop : RecordsInv core.store ∧ ∀ k e,
      core.store.event (.hash k) = some e →
        ∃ peer ∈ (conf.peers.setCreator conf.creator).peers,
          env.eventHash (leafHashEvent peer) = .ok k from hloop.1
  refine DAGcore.new_induct (I := fun done s => RecordsInv s ∧ ∀ k e,
    s.event (.hash k) = some e → ∃ peer ∈ done,
      env.eventHash (leafHashEvent peer) = .ok k) h ⟨.empty, fun _ _ => nofun⟩ ?_
  rintro done peer s s' - hfresh ⟨hs, hheld⟩ hleaf
  obtain ⟨k, hk, rfl⟩ := DAGcore.insertLeaf_eq_ok hleaf
  constructor
  · refine hs.write ?_ k _
    -- an event under the same hash would be the leaf event of an earlier peer
    by_contra hstored
    obtain ⟨e, he⟩ := Option.ne_none_iff_exists'.mp hstored
    obtain ⟨q, hq, hqk⟩ := hheld k e he
    exact hfresh _ hdistinct (List.mem_map.mpr ⟨q, hq, hqk.trans hk.symm⟩)
  · intro k' e he
    rw [SledStore.setEvent_event_hash] at he
    split at he
    · rename_i hat
      subst hat
      exact ⟨peer, List.mem_append_right _ List.mem_cons_self, hk⟩
    · obtain ⟨q, hq, hqk⟩ := hheld k' e he
      exact ⟨q, List.mem_append_left _ hq, hqk⟩

end Start

section Receive

variable {env : Env P D T H PK SK Sig} {core core' : DAGcore P D T H PK SK Sig}
  {event : Event P D T H Sig}

/-- The listener leaves the state alone, or the event is valid and goes through
`insert_event`. -/
theorem receiveEvent_eq_ok {rc : Bool}
    (h : core.receiveEvent env event = (.ok rc, core')) :
    core' = core ∨ core.checkEvent env event = .ok true ∧
      core.insertEvent env event = (.ok true, core') := by
  unfold DAGcore.receiveEvent at h
  split at h
  · cases h
  · cases h
    exact Or.inl rfl
  · rename_i hcheck
    rw [Result.unwrap_eq_ok] at hcheck
    rw [Prod.mk.injEq, Result.unwrap_eq_ok] at h
    have hcall : core.insertEvent env event = (.ok rc, core') := Prod.ext h.1 h.2
    have hrc := (DAGcore.insertEvent_eq_ok hcall).1
    subst hrc
    exact Or.inr ⟨hcheck, hcall⟩

theorem receiveEvent_of_valid (hcheck : core.checkEvent env event = .ok true) :
    (core.receiveEvent env event).2 = (core.insertEvent env event).2 := by
  unfold DAGcore.receiveEvent
  rw [hcheck]
  rfl

/-- A refused event leaves no trace. -/
theorem DAGcore.Refuses.receiveEvent_eq (h : core.Refuses env event) :
    (core.receiveEvent env event).2 = core := by
  by_cases hcheck : core.checkEvent env event = .ok true
  · rw [receiveEvent_of_valid hcheck]
    have hmissing := h.resolve_left (fun hne => hne hcheck)
    unfold DAGcore.insertEvent
    split
    · rfl
    · rename_i hprepare
      obtain ⟨_, s, o, _, _, _, _, hs, ho, _⟩ := DAGcore.prepareEvent_eq_ok hprepare
      rcases hmissing with hnone | hnone
      · rw [hs] at hnone
        cases hnone
      · rw [ho] at hnone
        cases hnone
  · unfold DAGcore.receiveEvent
    split
    · rfl
    · rfl
    · rename_i htrue
      exact absurd (Result.unwrap_eq_ok.mp htrue) hcheck

omit [LinearOrder P] in
theorem DAGcore.Unchanged.refl (core : DAGcore P D T H PK SK Sig) :
    core.Unchanged core :=
  ⟨fun _ => rfl, fun _ e he => ⟨e, he, rfl⟩,
    fun _ ft hft => ⟨ft, hft, fun _ _ _ => Iff.rfl⟩, rfl⟩

/-- An insertion makes the list of one frame longer. -/
theorem DAGcore.Insertion.not_unchanged
    (ins : core.Insertion env event core') : ¬ core.Unchanged core' := by
  intro h
  have hlength := (ins.getFrame_perm ins.frame).length_eq
  rw [if_pos rfl, h.frames, List.length_append, List.length_singleton] at hlength
  omega

end Receive

section Claim

variable [Inhabited H] {env : Env P D T H PK SK Sig}
  {conf : DAGconfig P PK SK} {core : DAGcore P D T H PK SK Sig}

theorem CoreRun.coreInv
    {redelivered : DAGcore P D T H PK SK Sig → Event P D T H Sig → Prop}
    (h : CoreRun env conf redelivered core) : CoreInv env core := by
  induction h with
  | start hnew => exact CoreInv.new hnew
  | insert event _ _ _ hinsert ih =>
      obtain ⟨_, ⟨ins⟩⟩ := DAGcore.insertEvent_eq_ok hinsert
      exact ih.insert ins
  | redeliver event _ _ _ _ hreceive ih =>
      rcases receiveEvent_eq_ok hreceive with rfl | ⟨_, hinsert⟩
      · exact ih
      · obtain ⟨_, ⟨ins⟩⟩ := DAGcore.insertEvent_eq_ok hinsert
        exact ih.insert ins

omit [Inhabited H] in
/-- A stored event that is handed to the listener again changes nothing exactly
when the node refuses it. -/
theorem CoreInv.unchanged_iff_refuses (h : CoreInv env core) {k : H}
    {stored event : Event P D T H Sig}
    (hstored : core.store.event (.hash k) = some stored)
    (hsame : event.toHashEvent = stored.toHashEvent)
    (hsign : ∃ signature, env.sign k core.conf.publicKey core.conf.secretKey =
      .ok signature) :
    core.Unchanged (core.receiveEvent env event).2 ↔
      core.Refuses env event := by
  constructor
  · intro hunchanged
    by_contra hrefuses
    unfold DAGcore.Refuses at hrefuses
    push Not at hrefuses
    obtain ⟨hcheck, hself, hother⟩ := hrefuses
    obtain ⟨s, hs⟩ := Option.ne_none_iff_exists'.mp hself
    obtain ⟨o, ho⟩ := Option.ne_none_iff_exists'.mp hother
    obtain ⟨signature, hsign⟩ := hsign
    obtain ⟨id, hid⟩ := h.creatorId k stored hstored
    have hk : env.eventHash event.toHashEvent = .ok k := by
      rw [hsame]
      exact h.keys.hashed k stored hstored
    obtain ⟨core', hinsert⟩ := insertEvent_succeeds h.keys hk hs ho hsign hid
    obtain ⟨_, ⟨ins⟩⟩ := DAGcore.insertEvent_eq_ok hinsert
    rw [receiveEvent_of_valid hcheck, hinsert] at hunchanged
    exact ins.not_unchanged hunchanged
  · intro hrefuses
    rw [hrefuses.receiveEvent_eq]
    exact DAGcore.Unchanged.refl core

/-- As long as the node refuses what is delivered again, no hash is recorded
twice. -/
theorem CoreRun.recordsInv
    (hdistinct : (conf.peers.peers.map fun peer =>
      env.eventHash (leafHashEvent peer)).Nodup)
    (h : CoreRun env conf (DAGcore.Refuses env) core) :
    RecordsInv core.store := by
  induction h with
  | start hnew => exact RecordsInv.new hdistinct hnew
  | insert event _ hk hnone hinsert ih =>
      obtain ⟨_, ⟨ins⟩⟩ := DAGcore.insertEvent_eq_ok hinsert
      have hsame : ins.eventHash = _ := Except.ok.inj (ins.hash_eq.symm.trans hk)
      exact ih.insert ins (by rw [hsame]; exact hnone)
  | redeliver event _ _ _ hrefuses hreceive ih =>
      have heq := hrefuses.receiveEvent_eq
      rw [hreceive] at heq
      simp only at heq
      rw [heq]
      exact ih

/-- In every state a node can reach, delivering a stored event again changes
nothing exactly when the event fails `check_event` or a parent of it is not in
the store; and in a run where this holds of every repeated delivery, no hash
occurs twice in the frames. -/
theorem redelivery_unchanged_iff_refuses (env : Env P D T H PK SK Sig)
    (conf : DAGconfig P PK SK) :
    (∀ core : DAGcore P D T H PK SK Sig,
      CoreRun env conf (fun _ _ => True) core →
      ∀ k stored event, core.store.event (.hash k) = some stored →
        event.toHashEvent = stored.toHashEvent →
        (∃ signature, env.sign k core.conf.publicKey core.conf.secretKey =
          .ok signature) →
        (core.Unchanged (core.receiveEvent env event).2 ↔
          core.Refuses env event)) ∧
    ((conf.peers.peers.map fun peer =>
        env.eventHash (leafHashEvent peer)).Nodup →
      ∀ core : DAGcore P D T H PK SK Sig,
        CoreRun env conf (DAGcore.Refuses env) core → HashOnce core.store) :=
  ⟨fun _ h _ _ _ hstored hsame hsign =>
      h.coreInv.unchanged_iff_refuses hstored hsame hsign,
    fun hdistinct _ h => (h.recordsInv hdistinct).once⟩

end Claim

namespace TwoPeers

theorem coreRun_after_b₁
    (redelivered : Core → Event Nat Nat Unit Nat Unit → Prop) :
    CoreRun env (conf 0) redelivered (after (start 0) [b₁]) :=
  .insert b₁ (.start rfl) rfl rfl (insertEvent_after (by decide +kernel))

/-- Signatures that do not verify. -/
def doubting : Env Nat Nat Unit Nat Unit Unit Unit :=
  { env with verify := fun _ _ _ => .ok false }

/-- The other peer's first event, with a signature that does not verify. -/
def spoilt : Event Nat Nat Unit Nat Unit :=
  { b₁ with hash := 4, signatures := AList.insert 1 () ∅ }

theorem checkEvent_spoilt (core : Core)
    (hpeer : ∃ p, core.conf.peers.findPeer 1 = .ok p) :
    core.checkEvent doubting spoilt = .ok false := by
  obtain ⟨p, hp⟩ := hpeer
  change DAGcore.checkSignatures doubting core.conf.peers 4 [⟨1, ()⟩] = _
  rw [DAGcore.checkSignatures, hp]
  rfl

/-- The event is stored, and comes in again with the bad signature. -/
theorem coreRun_spoilt {redelivered : Core → Event Nat Nat Unit Nat Unit → Prop}
    (hspoilt : redelivered (after (start 0) [b₁]) spoilt) :
    CoreRun doubting (conf 0) redelivered (after (start 0) [b₁]) := by
  have hinsert : (start 0).insertEvent doubting b₁ = (.ok true, after (start 0) [b₁]) :=
    Prod.ext (by decide +kernel) rfl
  have hinserted : CoreRun doubting (conf 0) redelivered (after (start 0) [b₁]) :=
    .insert b₁ (.start rfl) rfl rfl hinsert
  have hstored : ∃ stored, (after (start 0) [b₁]).store.event (.hash 4) = some stored :=
    Option.isSome_iff_exists.mp (by decide +kernel)
  obtain ⟨stored, he⟩ := hstored
  have hreceive : (after (start 0) [b₁]).receiveEvent doubting spoilt =
      (.ok false, after (start 0) [b₁]) := by
    unfold DAGcore.receiveEvent
    rw [checkEvent_spoilt _ ⟨_, rfl⟩]
    rfl
  exact hinserted.redeliver spoilt rfl he hspoilt hreceive

/-- It is refused, and recorded once. -/
theorem spoilt_refused :
    (after (start 0) [b₁]).Unchanged
      ((after (start 0) [b₁]).receiveEvent doubting spoilt).2 ∧
    HashOnce (after (start 0) [b₁]).store := by
  have hboth := redelivery_unchanged_iff_refuses doubting (conf 0)
  have hrefuses : (after (start 0) [b₁]).Refuses doubting spoilt := by
    refine Or.inl ?_
    rw [checkEvent_spoilt _ ⟨_, rfl⟩]
    exact nofun
  have hstored : ((after (start 0) [b₁]).store.event (.hash 4)).map
      Event.toHashEvent = some spoilt.toHashEvent := by decide +kernel
  obtain ⟨stored, he, hsame⟩ := Option.map_eq_some_iff.mp hstored
  exact ⟨(hboth.1 _ (coreRun_spoilt trivial) 4 stored spoilt he hsame.symm
      ⟨(), rfl⟩).mpr hrefuses,
    hboth.2 (by decide +kernel) _ (coreRun_spoilt hrefuses)⟩

/-- Delivered a second time, the event of the other peer stands in frame 1
twice. -/
theorem redelivered_event_recorded_twice :
    ¬ ∀ core : Core, CoreRun env (conf 0) (fun _ _ => True) core →
      ∀ k stored event, core.store.event (.hash k) = some stored →
        event.toHashEvent = stored.toHashEvent →
        core.Unchanged (core.receiveEvent env event).2 := by
  intro hclaim
  have hstored : ((after (start 0) [b₁]).store.event (.hash 4)).map
      Event.toHashEvent = some b₁.toHashEvent := by decide +kernel
  obtain ⟨stored, he, hsame⟩ := Option.map_eq_some_iff.mp hstored
  have hunchanged := hclaim _ (coreRun_after_b₁ _) 4 stored b₁ he hsame.symm
  have hbefore : ((after (start 0) [b₁]).store.getFrame 1).events =
      [⟨4, 1⟩] := by decide +kernel
  have hafter : (((after (start 0) [b₁]).receiveEvent env b₁).2.store.getFrame
      1).events = [⟨4, 1⟩, ⟨4, 1⟩] := by decide +kernel
  rw [hunchanged.frames 1, hbefore] at hafter
  cases hafter

end TwoPeers

end ConsensusDag
