/-
What a node holds of the events of a network: sets of events that are closed
under parents, the chain of each creator in them, and the lists of events that
bring such a set up to another one.
-/
import ConsensusDag.LamportClock
import ConsensusDag.Lib.CausalOrder

namespace ConsensusDag

open AssocTables CausalOrders

variable {P D T H PK SK Sig : Type}

/-- The events stored under their hashes. -/
def heldIn (tree : SledTree (EventKey P H) (Event P D T H Sig)) :
    Set (HashEvent P D T H) :=
  {v | ∃ k e, tree (.hash k) = some e ∧ e.toHashEvent = v}

/-- Both parents of an event are held. -/
def Ready (env : Env P D T H PK SK Sig) (held : Set (HashEvent P D T H))
    (v : HashEvent P D T H) : Prop :=
  ∃ s ∈ held, ∃ o ∈ held, env.eventHash s = .ok v.selfParent ∧
    env.eventHash o = .ok v.otherParent

theorem ready_persistent (env : Env P D T H PK SK Sig) :
    Persistent (Ready env) := by
  rintro held held' v hsub ⟨s, hs, o, ho, hparents⟩
  exact ⟨s, hsub hs, o, hsub ho, hparents⟩

/-- An event of the creator at this height is held. -/
def Reaches (held : Set (HashEvent P D T H)) (creator : P) (height : Nat) :
    Prop :=
  ∃ v ∈ held, v.creator = creator ∧ v.height = height

theorem Reaches.mono {held held' : Set (HashEvent P D T H)} {c : P}
    {height : Nat} (h : Reaches held c height) (hsub : held ⊆ held') :
    Reaches held' c height := by
  obtain ⟨v, hv, hat⟩ := h
  exact ⟨v, hsub hv, hat⟩

variable [Inhabited H]

/-- The events made in a network: hashes and places are unique, creators are
peers, and an event stands one above its self-parent. -/
structure Lineage (net : Network P PK SK) (env : Env P D T H PK SK Sig)
    (made : HashEvent P D T H → Prop) : Prop where
  hash_injective : HashInjective env made
  fork_free : ∀ v v', made v → made v' → v.creator = v'.creator →
    v.height = v'.height → v = v'
  creator_mem : ∀ v, made v → v.creator ∈ net.ids
  self_parent : ∀ v, made v → ¬ net.Leaf v → ∃ s, made s ∧
    env.eventHash s = .ok v.selfParent ∧ s.creator = v.creator ∧
    s.height + 1 = v.height

/-- A set of known events, with the parents of each event that is not a leaf. -/
structure History (net : Network P PK SK) (env : Env P D T H PK SK Sig)
    (made : HashEvent P D T H → Prop) (held : Set (HashEvent P D T H)) :
    Prop where
  made : ∀ v ∈ held, made v
  closed : ∀ v ∈ held, ¬ net.Leaf v → Ready env held v

variable {net : Network P PK SK} {env : Env P D T H PK SK Sig}
  {made made' : HashEvent P D T H → Prop} {held held' : Set (HashEvent P D T H)}

section Chains

variable (hlineage : Lineage net env made) (h : History net env made held)
include hlineage h

theorem History.reaches_pred {c : P} {height : Nat}
    (hreach : Reaches held c (height + 1)) : Reaches held c height := by
  obtain ⟨v, hv, hcreator, hheight⟩ := hreach
  have hleaf : ¬ net.Leaf v := Network.not_leaf_of_pos (by omega)
  obtain ⟨s, hs, -, -, hself, -⟩ := h.closed v hv hleaf
  obtain ⟨s', hs', hself', hcreator', hheight'⟩ :=
    hlineage.self_parent v (h.made v hv) hleaf
  have hsame : s = s' :=
    hlineage.hash_injective s s' _ (h.made s hs) hs' hself hself'
  subst hsame
  exact ⟨s, hs, hcreator'.trans hcreator, by omega⟩

/-- A creator's events are held without a gap. -/
theorem History.reaches_of_le {c : P} {height top : Nat}
    (hreach : Reaches held c top) (hle : height ≤ top) :
    Reaches held c height := by
  induction hle with
  | refl => exact hreach
  | step _ ih => exact ih (h.reaches_pred hlineage hreach)

theorem History.mem_of_le {v : HashEvent P D T H} {top : Nat} (hv : made v)
    (hreach : Reaches held v.creator top) (hle : v.height ≤ top) :
    v ∈ held := by
  obtain ⟨v', hv', hcreator, hheight⟩ := h.reaches_of_le hlineage hreach hle
  rwa [hlineage.fork_free v v' hv (h.made v' hv') hcreator.symm hheight.symm]

end Chains

theorem StoreClock.history {time : Nat} {store : SledStore P D T H Sig}
    (h : StoreClock env net.Leaf made time store) :
    History net env made (heldIn store.event) := by
  constructor
  case made =>
    rintro v ⟨k, e, he, rfl⟩
    exact (h.dated _ e he).made
  case closed =>
    rintro v ⟨k, e, he, rfl⟩ hleaf
    obtain ⟨⟨s, hs⟩, o, ho⟩ := h.closed _ e he hleaf
    exact ⟨s.toHashEvent, ⟨_, s, hs, rfl⟩, o.toHashEvent, ⟨_, o, ho, rfl⟩,
      h.eventHash_key hs, h.eventHash_key ho⟩

theorem StoreClock.stored_of_held {time : Nat} {store : SledStore P D T H Sig}
    (h : StoreClock env net.Leaf made time store) {v : HashEvent P D T H}
    (hv : v ∈ heldIn store.event) {k : H} (hk : env.eventHash v = .ok k) :
    ∃ e, store.event (.hash k) = some e ∧ e.toHashEvent = v := by
  obtain ⟨k', e, he, rfl⟩ := hv
  cases (h.eventHash_key he).symm.trans hk
  exact ⟨e, he, rfl⟩

/-- An event that is ready finds its parents under the hashes it carries. -/
theorem StoreClock.stored_of_ready {time : Nat} {store : SledStore P D T H Sig}
    (h : StoreClock env net.Leaf made time store) {v : HashEvent P D T H}
    (hready : Ready env (heldIn store.event) v) :
    (∃ s, store.event (.hash v.selfParent) = some s) ∧
      ∃ o, store.event (.hash v.otherParent) = some o := by
  obtain ⟨v, hv, v', hv', hself, hother⟩ := hready
  obtain ⟨s, hs, -⟩ := h.stored_of_held hv hself
  obtain ⟨o, ho, -⟩ := h.stored_of_held hv' hother
  exact ⟨⟨s, hs⟩, o, ho⟩

section Stored

variable [LinearOrder P]

/-- The index by creator and height agrees with the events held, and each event
has a flag table. -/
structure StoreSync (store : SledStore P D T H Sig) : Prop where
  indexed : ∀ c height e, store.event (.creator c height) = some e →
    e.toHashEvent ∈ heldIn store.event ∧ e.creator = c ∧ e.height = height
  of_held : ∀ v ∈ heldIn store.event,
    ∃ e, store.event (.creator v.creator v.height) = some e
  tabled : ∀ k e, store.event (.hash k) = some e →
    ∃ ft, store.flagTable k = some ft

variable {time : Nat} {store store' : SledStore P D T H Sig}

omit [Inhabited H] [LinearOrder P] in
theorem StoreSync.reaches_iff (h : StoreSync store) {c : P}
    {height : Nat} : Reaches (heldIn store.event) c height ↔
      ∃ e, store.event (.creator c height) = some e := by
  constructor
  · rintro ⟨v, hv, rfl, rfl⟩
    exact h.of_held v hv
  · rintro ⟨e, he⟩
    obtain ⟨hheld, hcreator, hheight⟩ := h.indexed c height e he
    exact ⟨_, hheld, hcreator, hheight⟩

omit [Inhabited H] [LinearOrder P] in
theorem StoreSync.empty :
    StoreSync (SledStore.empty : SledStore P D T H Sig) := by
  constructor
  case indexed => exact fun _ _ _ h => (Option.some_ne_none _ h.symm).elim
  case of_held =>
    rintro v ⟨_, _, h, -⟩
    exact (Option.some_ne_none _ h.symm).elim
  case tabled => exact fun _ _ h => (Option.some_ne_none _ h.symm).elim

variable [LinearOrder H]

/-- Writing an event never loses one, and adds this one. -/
theorem heldIn_write (hinjective : HashInjective env made)
    (h : StoreClock env net.Leaf made time store) {e : Event P D T H Sig}
    (hmade : made e.toHashEvent)
    (hhash : env.eventHash e.toHashEvent = .ok e.hash) :
    heldIn (store.setEvent e).event =
      insert e.toHashEvent (heldIn store.event) := by
  refine Set.Subset.antisymm ?_ (Set.insert_subset ?_ ?_)
  · rintro v ⟨k, e', he', rfl⟩
    rcases store.setEvent_event_cases he' with rfl | hold
    · exact Set.mem_insert _ _
    · exact Set.mem_insert_of_mem _ ⟨k, e', hold, rfl⟩
  · exact ⟨e.hash, e, by rw [SledStore.setEvent_event_hash, if_pos rfl], rfl⟩
  · rintro v ⟨k, e', he', rfl⟩
    by_cases hk : k = e.hash
    · -- an event under the same hash is the same event
      subst hk
      have hsame := hinjective _ _ _ (h.dated _ e' he').made hmade
        (h.eventHash_key he') hhash
      rw [hsame]
      exact ⟨e.hash, e, by rw [SledStore.setEvent_event_hash, if_pos rfl], rfl⟩
    · exact ⟨k, e', by rw [SledStore.setEvent_event_hash, if_neg hk, he'], rfl⟩

theorem heldIn_insert (hinjective : HashInjective env made)
    {core core' : DAGcore P D T H PK SK Sig} {event : Event P D T H Sig}
    (h : StoreClock env net.Leaf made time core.store)
    (ins : DAGcore.Insertion env core event core')
    (hmade : made event.toHashEvent) :
    heldIn core'.store.event =
      insert event.toHashEvent (heldIn core.store.event) := by
  rw [ins.event_eq]
  exact heldIn_write (e := ins.stored) hinjective h hmade ins.hash_eq

theorem StoreSync.write (hinjective : HashInjective env made)
    (hclock : StoreClock env net.Leaf made time store)
    (h : StoreSync store) {e : Event P D T H Sig} {ft : FlagTable H}
    (hevent : store'.event = (store.setEvent e).event)
    (hflagTable : store'.flagTable = (store.setFlagTable e.hash ft).flagTable)
    (hmade : made e.toHashEvent)
    (hhash : env.eventHash e.toHashEvent = .ok e.hash) : StoreSync store' := by
  have hheld := heldIn_write hinjective hclock hmade hhash
  constructor
  case indexed =>
    intro c height e' he'
    rw [hevent] at he' ⊢
    rw [hheld]
    rw [SledStore.setEvent_event_creator] at he'
    split at he'
    · rename_i hat
      cases he'
      exact ⟨Set.mem_insert _ _, hat.1.symm, hat.2.symm⟩
    · obtain ⟨hmem, hat⟩ := h.indexed c height e' he'
      exact ⟨Set.mem_insert_of_mem _ hmem, hat⟩
  case of_held =>
    intro v hv
    rw [hevent] at hv ⊢
    rw [hheld] at hv
    rcases hv with rfl | hv
    · exact ⟨e, by rw [SledStore.setEvent_event_creator]; simp [Event.toHashEvent]⟩
    · exact store.setEvent_event_grows e (h.of_held v hv)
  case tabled =>
    intro k e' he'
    rw [hevent, SledStore.setEvent_event_hash] at he'
    rw [hflagTable, SledStore.setFlagTable_flagTable]
    split at he'
    · rename_i hk
      exact ⟨ft, by rw [if_pos hk]⟩
    · rename_i hk
      rw [if_neg hk]
      exact h.tabled k e' he'

end Stored

section Transfer

variable [LinearOrder P]

/-- A gossip list that gives for each peer the height of an event held. -/
def Asks (net : Network P PK SK) (held : Set (HashEvent P D T H))
    (gossip : GossipList P) : Prop :=
  ∀ id ∈ net.ids, ∃ g, gossip.lookup id = some g ∧ Reaches held id g.height

/-- Events on their way to a node: in an order in which each finds its parents,
and with what the node holds all of a snapshot. -/
structure Carries (env : Env P D T H PK SK Sig) (held : Set (HashEvent P D T H))
    (events : List (NetEvent P D T H Sig))
    (snapshot : SledTree (EventKey P H) (Event P D T H Sig)) : Prop where
  deliverable :
    Deliverable (Ready env) held (events.map NetEvent.toHashEvent)
  complete : heldIn snapshot ⊆
    held ∪ {v | v ∈ events.map NetEvent.toHashEvent}

omit [Inhabited H] in
theorem Asks.mono {gossip : GossipList P} (h : Asks net held gossip)
    (hsub : held ⊆ held') : Asks net held' gossip := by
  intro id hid
  obtain ⟨g, hlookup, hreach⟩ := h id hid
  exact ⟨g, hlookup, hreach.mono hsub⟩

omit [Inhabited H] in
theorem Asks.perm {gossip gossip' : GossipList P} (h : Asks net held gossip)
    (hperm : gossip'.entries.Perm gossip.entries) : Asks net held gossip' := by
  intro id hid
  obtain ⟨g, hlookup, hreach⟩ := h id hid
  exact ⟨g, (AList.perm_lookup hperm).trans hlookup, hreach⟩

variable {events : List (NetEvent P D T H Sig)}
  {snapshot : SledTree (EventKey P H) (Event P D T H Sig)}

omit [Inhabited H] [LinearOrder P] in
theorem Carries.mono (h : Carries env held events snapshot)
    (hsub : held ⊆ held') : Carries env held' events snapshot where
  deliverable := h.deliverable.mono (ready_persistent env) hsub
  complete := h.complete.trans (Set.union_subset_union_left _ hsub)

omit [Inhabited H] [LinearOrder P] in
/-- The first event is taken in, the others are still on their way. -/
theorem Carries.tail {ev : NetEvent P D T H Sig}
    (h : Carries env held (ev :: events) snapshot) (hsub : held ⊆ held')
    (hev : ev.toHashEvent ∈ held') : Carries env held' events snapshot where
  deliverable := h.deliverable.tail (ready_persistent env) hsub hev
  complete := by
    intro v hv
    rcases h.complete hv with hheld | hmem
    · exact Or.inl (hsub hheld)
    · rcases List.mem_cons.mp hmem with rfl | hmem
      · exact Or.inl hev
      · exact Or.inr hmem

/-- What `get_events_for_gossip` collects brings the node that asks up to the
store. -/
theorem Carries.collect {time : Nat} {store : SledStore P D T H Sig}
    {gossip : GossipList P} (hlineage : Lineage net env made)
    (hlater : ∀ v, made v → ¬ net.Leaf v → Later env made v)
    (hclock : StoreClock env net.Leaf made time store)
    (hsync : StoreSync store) (hhistory : History net env made held)
    (hasks : Asks net held gossip)
    (hevents : store.getEventsForGossip gossip = .ok events) :
    Carries env held events store.event := by
  have hstore : History net env made (heldIn store.event) := hclock.history
  have hcomplete : heldIn store.event ⊆
      held ∪ {v | v ∈ events.map NetEvent.toHashEvent} := by
    intro v hv
    obtain ⟨g, hlookup, hreach⟩ :=
      hasks v.creator (hlineage.creator_mem v (hstore.made v hv))
    by_cases hle : v.height ≤ g.height
    · exact Or.inl (hhistory.mem_of_le hlineage (hstore.made v hv) hreach hle)
    · -- above the height asked for, the chain of the creator has the event
      right
      obtain ⟨e, he⟩ := hsync.of_held v hv
      obtain ⟨hheld, hcreator, hheight⟩ := hsync.indexed _ _ e he
      have hsame := hlineage.fork_free e.toHashEvent v (hstore.made _ hheld)
        (hstore.made v hv) hcreator hheight
      refine List.mem_map.mpr ⟨e.toNetEvent, ?_, hsame⟩
      refine (SledStore.mem_getEventsForGossip hevents).mpr
        ⟨v.creator, g, v.height, e, hlookup, ⟨by omega, he, ?_⟩, rfl⟩
      intro height _ hlt
      exact hsync.reaches_iff.mp
        (hstore.reaches_of_le hlineage ⟨v, hv, rfl, rfl⟩ hlt.le)
  have hchain : ∀ ev ∈ events, ∃ e : Event P D T H Sig,
      e.toHashEvent ∈ heldIn store.event ∧ 0 < e.height ∧ ev = e.toNetEvent := by
    intro ev hev
    obtain ⟨c, g, height, e, -, hin, rfl⟩ :=
      (SledStore.mem_getEventsForGossip hevents).mp hev
    obtain ⟨hheld, -, hheight⟩ := hsync.indexed c height e hin.stored
    have hle := hin.le
    exact ⟨e, hheld, by omega, rfl⟩
  refine ⟨?_, hcomplete⟩
  refine Deliverable.of_sorted (ready_persistent env)
    (fun v => v.lamportTimestamp) ?_ ?_
  · exact List.pairwise_map.mpr (SledStore.getEventsForGossip_sorted hevents)
  · intro v hv
    obtain ⟨ev, hev, rfl⟩ := List.mem_map.mp hv
    obtain ⟨e, hheld, hpos, rfl⟩ := hchain ev hev
    have hleaf : ¬ net.Leaf e.toHashEvent := Network.not_leaf_of_pos hpos
    obtain ⟨s, hs, o, ho, hself, hother⟩ := hstore.closed _ hheld hleaf
    obtain ⟨s', o', hs', ho', hself', hother', hlt, hlt'⟩ :=
      hlater _ (hstore.made _ hheld) hleaf
    have hs_eq := hlineage.hash_injective s s' _ (hstore.made s hs) hs' hself
      hself'
    have ho_eq := hlineage.hash_injective o o' _ (hstore.made o ho) ho' hother
      hother'
    subst hs_eq ho_eq
    -- a parent is held already, or it is sent and sorted before the event
    exact ⟨s, (hcomplete hs).imp id fun hmem => ⟨hmem, hlt⟩,
      o, (hcomplete ho).imp id fun hmem => ⟨hmem, hlt'⟩, hself, hother⟩

end Transfer

end ConsensusDag
