/-
What `get_events_for_gossip` selects: for each peer of the list the chain beyond
the height that the list gives for it, unless the chain goes on up to the last
height there is.
-/
import ConsensusDag.Gossip
import ConsensusDag.InsertEvent

namespace ConsensusDag

open AssocTables

variable {P D T H PK SK Sig : Type} {store : SledStore P D T H Sig}

section Chains

/-- The chain of a creator from `start` on stops before `stop`. -/
structure SledStore.ChainEnds (store : SledStore P D T H Sig) (c : P)
    (start stop : Nat) : Prop where
  le : start ≤ stop
  le_max : stop ≤ usizeMax
  free : store.event (.creator c stop) = none
  filled : ∀ height, start ≤ height → height < stop →
    ∃ e, store.event (.creator c height) = some e

variable {c : P} {start stop : Nat}

/-- Up to the first height that is free, every height is filled. -/
theorem SledStore.ChainEnds.of_free {height : Nat} (hle : start ≤ height)
    (hmax : height ≤ usizeMax) (hfree : store.event (.creator c height) = none) :
    ∃ stop, store.ChainEnds c start stop := by
  classical
  have hexists : ∃ k, start ≤ k ∧ store.event (.creator c k) = none :=
    ⟨height, hle, hfree⟩
  obtain ⟨hstart, hnone⟩ := Nat.find_spec hexists
  refine ⟨Nat.find hexists, hstart,
    (Nat.find_min' hexists ⟨hle, hfree⟩).trans hmax, hnone, ?_⟩
  intro k hk hlt
  exact Option.ne_none_iff_exists'.mp fun hk' => Nat.find_min hexists hlt ⟨hk, hk'⟩

/-- The inner loop reads a chain that ends from its start to its end. -/
theorem SledStore.ChainEnds.eventsFrom (h : store.ChainEnds c start stop) :
    ∃ chosen, List.Forall₂ (fun height e => store.getEventOfCreator c height = .ok e)
        (List.range' start (stop - start)) chosen ∧
      store.eventsFrom c start = .ok (chosen.map Event.toNetEvent) := by
  induction hlength : stop - start generalizing start with
  | zero =>
      obtain rfl : start = stop := by
        have hle := h.le
        omega
      refine ⟨[], .nil, ?_⟩
      have hget : store.getEventOfCreator c start = .error (.err .noneError) := by
        unfold getEventOfCreator
        rw [h.free]
      rw [SledStore.eventsFrom, hget]
      rfl
  | succ length ih =>
      obtain ⟨e, he⟩ := h.filled start (Nat.le_refl _) (by omega)
      have hget := getEventOfCreator_eq_ok.mpr he
      have hrest : store.ChainEnds c (start + 1) stop :=
        ⟨by omega, h.le_max, h.free, fun k hk => h.filled k (by omega)⟩
      obtain ⟨chosen, hchosen, hfrom⟩ := ih hrest (by omega)
      refine ⟨e :: chosen, .cons hget hchosen, ?_⟩
      have hmax := h.le_max
      rw [SledStore.eventsFrom, hget]
      simp only [show start + 1 ≤ usizeMax by omega, ↓reduceDIte, hfrom]
      rfl

/-- Where it comes back, it has met a height that is free. -/
theorem free_of_eventsFrom {events : List (NetEvent P D T H Sig)}
    (h : store.eventsFrom c start = .ok events) (hstart : start ≤ usizeMax) :
    ∃ height, start ≤ height ∧ height ≤ usizeMax ∧
      store.event (.creator c height) = none := by
  induction start using SledStore.eventsFrom.induct store c generalizing events with
  | case1 start error hget =>
      refine ⟨start, Nat.le_refl _, hstart, ?_⟩
      cases he : store.event (.creator c start) with
      | none => rfl
      | some e =>
          rw [SledStore.getEventOfCreator_eq_ok.mpr he] at hget
          cases hget
  | case2 start failure hne hget =>
      rw [SledStore.eventsFrom, hget] at h
      cases failure with
      | err error => exact absurd rfl (hne error)
      | panic => cases h
      | stackOverflow => cases h
  | case3 start event hget hle ih =>
      rw [SledStore.eventsFrom, hget] at h
      simp only [hle, ↓reduceDIte, Result.bind_eq_ok] at h
      obtain ⟨rest, hrest, -⟩ := h
      obtain ⟨height, hheight, hfree⟩ := ih hrest hle
      exact ⟨height, Nat.le_of_succ_le hheight, hfree⟩
  | case4 start event hget hle =>
      rw [SledStore.eventsFrom, hget] at h
      simp only [hle, ↓reduceDIte] at h
      cases h

end Chains

section Selection

variable {gossip : GossipList P} {events : List (NetEvent P D T H Sig)}

/-- Beyond the height of each entry some height is free. -/
def SledStore.RunsOut (store : SledStore P D T H Sig)
    (entries : List (Sigma fun _ : P => Gossip)) : Prop :=
  ∀ entry ∈ entries, ∃ height, entry.2.height < height ∧ height ≤ usizeMax ∧
    store.event (.creator entry.1 height) = none

/-- A place beyond the height of an entry, with every place in between filled. -/
def SledStore.Selected (store : SledStore P D T H Sig)
    (entries : List (Sigma fun _ : P => Gossip)) (place : P × Nat) : Prop :=
  ∃ g, ⟨place.1, g⟩ ∈ entries ∧ g.height < place.2 ∧
    ∀ height, g.height < height → height ≤ place.2 →
      ∃ e, store.event (.creator place.1 height) = some e

/-- The body of the outer loop. -/
def SledStore.entryEvents (store : SledStore P D T H Sig)
    (entry : Sigma fun _ : P => Gossip) : Result (List (NetEvent P D T H Sig)) := do
  let height ← usizeAdd entry.2.height 1
  store.eventsFrom entry.1 height

theorem SledStore.getEventsForGossip_eq (gossip : GossipList P) :
    store.getEventsForGossip gossip = (do
      let chains ← gossip.entries.mapM store.entryEvents
      pure (chains.flatten.insertionSort fun a b =>
        a.lamportTimestamp ≤ b.lamportTimestamp)) := rfl

/-- A turn of the outer loop reads the filled places beyond its entry. -/
theorem entryEvents_of_free {entry : Sigma fun _ : P => Gossip} {height : Nat}
    (hlt : entry.2.height < height) (hmax : height ≤ usizeMax)
    (hfree : store.event (.creator entry.1 height) = none) :
    ∃ (stop : Nat) (chosen : List (Event P D T H Sig)),
      store.ChainEnds entry.1 (entry.2.height + 1) stop ∧
      List.Forall₂ (fun place e =>
          store.getEventOfCreator place.1 place.2 = .ok e)
        ((List.range' (entry.2.height + 1) (stop - (entry.2.height + 1))).map
          (Prod.mk entry.1)) chosen ∧
      store.entryEvents entry = .ok (chosen.map Event.toNetEvent) := by
  obtain ⟨stop, hends⟩ := SledStore.ChainEnds.of_free hlt hmax hfree
  obtain ⟨chosen, hchosen, hfrom⟩ := hends.eventsFrom
  refine ⟨stop, chosen, hends, List.forall₂_map_left_iff.mpr hchosen, ?_⟩
  have hadd : usizeAdd entry.2.height 1 = .ok (entry.2.height + 1) :=
    if_pos (by omega)
  simp only [SledStore.entryEvents, hadd, bind, Except.bind]
  exact hfrom

theorem free_of_entryEvents {entry : Sigma fun _ : P => Gossip}
    (h : store.entryEvents entry = .ok events) :
    ∃ height, entry.2.height < height ∧ height ≤ usizeMax ∧
      store.event (.creator entry.1 height) = none := by
  simp only [SledStore.entryEvents, Result.bind_eq_ok] at h
  obtain ⟨start, hadd, hfrom⟩ := h
  have hmax : start ≤ usizeMax := by
    unfold usizeAdd at hadd
    split at hadd
    · rename_i hle
      cases hadd
      exact hle
    · cases hadd
  cases usizeAdd_eq_ok hadd
  obtain ⟨height, hle, hle', hfree⟩ := free_of_eventsFrom hfrom hmax
  exact ⟨height, hle, hle', hfree⟩

/-- The reply can be made exactly where no chain goes on to the last height. -/
theorem getEventsForGossip_ends_iff (store : SledStore P D T H Sig)
    (gossip : GossipList P) :
    (∃ events, store.getEventsForGossip gossip = .ok events) ↔
      store.RunsOut gossip.entries := by
  have hchains : (∃ events, store.getEventsForGossip gossip = .ok events) ↔
      ∃ chains, gossip.entries.mapM store.entryEvents = .ok chains := by
    rw [SledStore.getEventsForGossip_eq]
    simp only [Result.bind_eq_ok]
    constructor
    · rintro ⟨events, chains, hchains, -⟩
      exact ⟨chains, hchains⟩
    · rintro ⟨chains, hchains⟩
      exact ⟨_, chains, hchains, rfl⟩
  rw [hchains, Result.mapM_ends_iff]
  refine forall₂_congr fun entry _ => ?_
  constructor
  · rintro ⟨events, hevents⟩
    exact free_of_entryEvents hevents
  · rintro ⟨height, hlt, hmax, hfree⟩
    obtain ⟨_, chosen, -, -, hevents⟩ := entryEvents_of_free hlt hmax hfree
    exact ⟨_, hevents⟩

/-- A chain that goes on to the last height ends in an overflow. -/
theorem eventsFrom_error {c : P} {start : Nat} {failure : Failure}
    (h : store.eventsFrom c start = .error failure) : failure = .panic := by
  induction start using SledStore.eventsFrom.induct store c with
  | case1 start error hget =>
      rw [SledStore.eventsFrom, hget] at h
      cases h
  | case2 start failure' hne hget =>
      unfold SledStore.getEventOfCreator at hget
      split at hget
      · cases hget
      · cases hget
        exact absurd rfl (hne _)
  | case3 start event hget hle ih =>
      rw [SledStore.eventsFrom, hget] at h
      simp only [hle, ↓reduceDIte] at h
      cases hrest : store.eventsFrom c (start + 1) with
      | error failure' =>
          rw [hrest] at h
          cases h
          exact ih hrest
      | ok rest =>
          rw [hrest] at h
          cases h
  | case4 start event hget hle =>
      rw [SledStore.eventsFrom, hget] at h
      simp only [hle, ↓reduceDIte] at h
      cases h
      rfl

/-- Where no reply can be made, the counting has panicked. -/
theorem getEventsForGossip_panics {gossip : GossipList P}
    (h : ¬ store.RunsOut gossip.entries) :
    store.getEventsForGossip gossip = .error .panic := by
  cases hresult : store.getEventsForGossip gossip with
  | ok events =>
      exact absurd ((getEventsForGossip_ends_iff store gossip).mp ⟨events, hresult⟩) h
  | error failure =>
      rw [SledStore.getEventsForGossip_eq] at hresult
      cases hchains : gossip.entries.mapM store.entryEvents with
      | ok chains =>
          rw [hchains] at hresult
          cases hresult
      | error failure' =>
          rw [hchains] at hresult
          cases hresult
          obtain ⟨entry, -, hentry⟩ := Result.mapM_error hchains
          unfold SledStore.entryEvents usizeAdd at hentry
          split at hentry
          · rw [eventsFrom_error hentry]
          · cases hentry
            rfl

/-- The places read in one turn are those selected by its entry. -/
theorem mem_places_iff {c : P} {g : Gossip} {stop : Nat}
    (h : store.ChainEnds c (g.height + 1) stop) (place : P × Nat) :
    place ∈ (List.range' (g.height + 1) (stop - (g.height + 1))).map (Prod.mk c) ↔
      store.Selected [⟨c, g⟩] place := by
  have hle := h.le
  rw [List.mem_map]
  constructor
  · rintro ⟨height, hheight, rfl⟩
    rw [List.mem_range'_1] at hheight
    refine ⟨g, List.mem_singleton_self _, by omega, fun k hk hk' => ?_⟩
    exact h.filled k hk (by omega)
  · obtain ⟨c', height⟩ := place
    rintro ⟨g', hg, hlt, hfilled⟩
    cases List.mem_singleton.mp hg
    refine ⟨height, List.mem_range'_1.mpr ⟨hlt, ?_⟩, rfl⟩
    by_contra hge
    -- the free place would be filled
    obtain ⟨e, he⟩ := hfilled stop (by omega) (by simp only at hlt ⊢; omega)
    rw [h.free] at he
    cases he

/-- The outer loop reads each selected place once. -/
theorem exists_places {entries : List (Sigma fun _ : P => Gossip)}
    (hnodup : entries.NodupKeys) {chains : List (List (NetEvent P D T H Sig))}
    (h : entries.mapM store.entryEvents = .ok chains) :
    ∃ (places : List (P × Nat)) (chosen : List (Event P D T H Sig)),
      places.Nodup ∧ (∀ place, place ∈ places ↔ store.Selected entries place) ∧
      List.Forall₂ (fun place e =>
        store.getEventOfCreator place.1 place.2 = .ok e) places chosen ∧
      chains.flatten = chosen.map Event.toNetEvent := by
  induction entries generalizing chains with
  | nil =>
      cases h
      refine ⟨[], [], .nil, fun place => ?_, .nil, rfl⟩
      constructor
      · intro hplace
        cases hplace
      · rintro ⟨g, hg, -⟩
        cases hg
  | cons entry entries ih =>
      obtain ⟨hnew, hrest⟩ := List.nodupKeys_cons.mp hnodup
      simp only [List.mapM_cons, Result.bind_eq_ok] at h
      obtain ⟨events, hevents, rest, hchains, h⟩ := h
      cases h
      obtain ⟨height, hlt, hmax, hfree⟩ := free_of_entryEvents hevents
      obtain ⟨stop, chosen, hends, hchosen, hread⟩ :=
        entryEvents_of_free hlt hmax hfree
      obtain rfl := Except.ok.inj (hevents.symm.trans hread)
      obtain ⟨places, chosen', hplaces, hselected, hchosen', hflatten⟩ :=
        ih hrest hchains
      refine ⟨_ ++ places, chosen ++ chosen', ?_, fun place => ?_,
        List.rel_append hchosen hchosen', ?_⟩
      · refine List.nodup_append'.mpr ⟨?_, hplaces, ?_⟩
        · exact (List.nodup_range' 1).map (Prod.mk_right_injective entry.1)
        · -- an entry further on has another peer
          intro place hplace hplace'
          obtain ⟨k, -, rfl⟩ := List.mem_map.mp hplace
          obtain ⟨g, hg, -⟩ := (hselected _).mp hplace'
          exact hnew (List.mem_keys.mpr ⟨g, hg⟩)
      · rw [List.mem_append, mem_places_iff hends, hselected]
        unfold SledStore.Selected
        constructor
        · rintro (⟨g, hg, hbeyond⟩ | ⟨g, hg, hbeyond⟩)
          · exact ⟨g, List.mem_cons.mpr (Or.inl (List.mem_singleton.mp hg)), hbeyond⟩
          · exact ⟨g, List.mem_cons_of_mem _ hg, hbeyond⟩
        · rintro ⟨g, hg, hbeyond⟩
          rcases List.mem_cons.mp hg with hg | hg
          · exact Or.inl ⟨g, List.mem_singleton.mpr hg, hbeyond⟩
          · exact Or.inr ⟨g, hg, hbeyond⟩
      · rw [List.flatten_cons, hflatten, List.map_append]

/-- Each event is read under its own creator and height. -/
def SledStore.Filed (store : SledStore P D T H Sig) : Prop :=
  ∀ c height e, store.getEventOfCreator c height = .ok e →
    e.creator = c ∧ e.height = height

/-- One event of a reply is a parent of another. -/
def NetEvent.ParentOf (env : Env P D T H PK SK Sig) (p ev : NetEvent P D T H Sig) :
    Prop :=
  env.eventHash p.toHashEvent = .ok ev.selfParent ∨
    env.eventHash p.toHashEvent = .ok ev.otherParent

/-- The reply consists of the events at the selected places, one for each place,
by time and with parents first.  Filed events do not come twice. -/
structure SelectsExactly (env : Env P D T H PK SK Sig)
    (store : SledStore P D T H Sig) (gossip : GossipList P)
    (events : List (NetEvent P D T H Sig)) : Prop where
  places : ∃ (places : List (P × Nat)) (chosen : List (Event P D T H Sig)),
    places.Nodup ∧ (∀ place, place ∈ places ↔ store.Selected gossip.entries place) ∧
    List.Forall₂ (fun place e =>
      store.getEventOfCreator place.1 place.2 = .ok e) places chosen ∧
    events.Perm (chosen.map Event.toNetEvent)
  nodup : store.Filed → events.Nodup
  sorted : events.Pairwise fun a b => a.lamportTimestamp ≤ b.lamportTimestamp
  parentsFirst : (∀ p ∈ events, ∀ ev ∈ events, p.ParentOf env ev →
      p.lamportTimestamp < ev.lamportTimestamp) →
    ∀ (i j : Nat) (p ev : NetEvent P D T H Sig), events[i]? = some p →
      events[j]? = some ev → p.ParentOf env ev → i < j

/-- Events of different places differ where each is stored under its own. -/
theorem nodup_of_places {places : List (P × Nat)}
    {chosen : List (Event P D T H Sig)}
    (hfiled : store.Filed) (h : List.Forall₂ (fun place e =>
      store.getEventOfCreator place.1 place.2 = .ok e) places chosen)
    (hnodup : places.Nodup) : (chosen.map Event.toNetEvent).Nodup := by
  have hplaces : places = (chosen.map Event.toNetEvent).map
      fun ev => (ev.creator, ev.height) := by
    induction h with
    | nil => rfl
    | cons hread _ ih =>
        obtain ⟨hcreator, hheight⟩ := hfiled _ _ _ hread
        rw [List.map_cons, List.map_cons, ← ih hnodup.of_cons]
        exact congrArg₂ _ (Prod.ext hcreator.symm hheight.symm) rfl
  rw [hplaces] at hnodup
  exact hnodup.of_map

/-- In a list sorted by time, what has the earlier time stands first. -/
theorem index_lt_of_sorted
    (h : events.Pairwise fun a b => a.lamportTimestamp ≤ b.lamportTimestamp)
    {i j : Nat} {p ev : NetEvent P D T H Sig} (hp : events[i]? = some p)
    (hev : events[j]? = some ev) (hlt : p.lamportTimestamp < ev.lamportTimestamp) :
    i < j := by
  obtain ⟨hi, rfl⟩ := List.getElem?_eq_some_iff.mp hp
  obtain ⟨hj, rfl⟩ := List.getElem?_eq_some_iff.mp hev
  by_contra hge
  rcases Nat.eq_or_lt_of_le (Nat.le_of_not_lt hge) with rfl | hji
  · exact Nat.lt_irrefl _ hlt
  · exact absurd (List.pairwise_iff_getElem.mp h j i hj hi hji) (Nat.not_le.mpr hlt)

/-- The reply to a gossip list is made, and is the selection that it should be,
exactly where no chain that it asks for goes on to the last height. -/
theorem selectsExactly_iff (env : Env P D T H PK SK Sig)
    (store : SledStore P D T H Sig) (gossip : GossipList P) :
    (∃ events, store.getEventsForGossip gossip = .ok events ∧
        SelectsExactly env store gossip events) ↔
      store.RunsOut gossip.entries := by
  rw [← getEventsForGossip_ends_iff]
  constructor
  · rintro ⟨events, hevents, -⟩
    exact ⟨events, hevents⟩
  · rintro ⟨events, hevents⟩
    refine ⟨events, hevents, ?_⟩
    have hsorted := SledStore.getEventsForGossip_sorted hevents
    rw [SledStore.getEventsForGossip_eq, Result.bind_eq_ok] at hevents
    obtain ⟨chains, hchains, h⟩ := hevents
    cases h
    obtain ⟨places, chosen, hnodup, hselected, hchosen, hflatten⟩ :=
      exists_places gossip.nodupKeys hchains
    have hperm := (List.perm_insertionSort (fun a b : NetEvent P D T H Sig =>
      a.lamportTimestamp ≤ b.lamportTimestamp) chains.flatten).trans
      (List.Perm.of_eq hflatten)
    refine ⟨⟨places, chosen, hnodup, hselected, hchosen, hperm⟩, ?_, hsorted, ?_⟩
    · exact fun hfiled => hperm.nodup_iff.mpr
        (nodup_of_places hfiled hchosen hnodup)
    · intro hclock i j p ev hp hev hparent
      exact index_lt_of_sorted hsorted hp hev (hclock p (List.mem_of_getElem? hp) ev
        (List.mem_of_getElem? hev) hparent)

/-- An event at the last height stops the reply to a list that asks for it. -/
theorem TwoPeers.selection_overflows :
    ¬ ∀ (store : SledStore Nat Nat Unit Nat Unit) (gossip : GossipList Nat),
      (∀ entry ∈ gossip.entries, entry.2.height < usizeMax) →
      ∃ events, store.getEventsForGossip gossip = .ok events ∧
        SelectsExactly TwoPeers.env store gossip events := by
  intro hclaim
  obtain ⟨events, hevents, -⟩ := hclaim
    (SledStore.empty.setEvent { TwoPeers.b₁ with height := usizeMax })
    (AList.singleton 1 ⟨0, usizeMax - 1⟩) (by decide)
  have hends := (getEventsForGossip_ends_iff _ _).mp ⟨events, hevents⟩
  obtain ⟨height, hlt, hmax, hfree⟩ := hends _ List.mem_cons_self
  obtain rfl : height = usizeMax := by
    simp only at hlt
    omega
  rw [SledStore.setEvent_event_creator] at hfree
  cases hfree

end Selection

end ConsensusDag
