/-
What a call of `insert_event` that fails leaves behind, and what a later call with
the same event makes of it.
-/
import Mathlib.Logic.Relation
import ConsensusDag.FallibleInsert

namespace ConsensusDag

open FallibleCalls AssocTables

variable {P D T H PK SK Sig : Type}

namespace DAGcore

section Retry

variable [LinearOrder P] [LinearOrder H] {faults : Faults H}
  {env : Env P D T H PK SK Sig} {event : Event P D T H Sig}
  {core core' core₂ : DAGcore P D T H PK SK Sig} {k : H} {ft : FlagTable H}

/-- The stages before the record of the event is appended. -/
structure Unrecorded (event : Event P D T H Sig) (k : H)
    (core core' : DAGcore P D T H PK SK Sig) : Prop where
  rest : core' = { core with store := core'.store }
  frame : core'.store.frame = core.store.frame
  flagTable : ∀ x, x ≠ k → core'.store.flagTable x = core.store.flagTable x
  event_eq : ∀ key, key ≠ .hash k → key ≠ .creator event.creator event.height →
    core'.store.event key = core.store.event key
  at_hash : core'.store.event (.hash k) = core.store.event (.hash k) ∨
    ∃ e, core'.store.event (.hash k) = some e ∧ e.creator = event.creator

/-- One record more in one frame. -/
theorem written_getFrame_length {frames : List Nat}
    {writes : List (DAGcore P D T H PK SK Sig → DAGcore P D T H PK SK Sig)}
    (hwrites : writes ⊆ frames.flatMap frameWrites) (e : Event P D T H Sig)
    (f : Nat) :
    ((applied writes (core.written k ft e)).store.getFrame f).events.length =
      (core.store.getFrame f).events.length + if f = e.frameNumber then 1 else 0 := by
  obtain ⟨-, -, hlength⟩ := applied_frameWrites (core.written k ft e) hwrites
  refine (hlength f).trans ?_
  rw [written, SledStore.setEvent_getFrame]
  split
  · exact List.length_append
  · rfl

/-- A stage is before the record, or one frame has one record more. -/
theorem Partly.unrecorded_or (h : Partly event k ft core core') :
    Unrecorded event k core core' ∨ ∃ f₀, ∀ f,
      (core'.store.getFrame f).events.length =
        (core.store.getFrame f).events.length + if f = f₀ then 1 else 0 := by
  cases h with
  | unchanged =>
      exact Or.inl ⟨rfl, rfl, fun _ _ => rfl, fun _ _ _ => rfl, Or.inl rfl⟩
  | tabled =>
      refine Or.inl ⟨rfl, rfl, fun x hx => ?_, fun _ _ _ => rfl, Or.inl rfl⟩
      exact (SledStore.setFlagTable_flagTable _ _ _ x).trans (if_neg hx)
  | @hashed e hhash hsame =>
      subst hhash
      refine Or.inl ⟨rfl, rfl, fun x hx => ?_, fun key hkey _ => ?_, Or.inr ?_⟩
      · exact (SledStore.setFlagTable_flagTable _ _ _ x).trans (if_neg hx)
      · exact Function.update_of_ne hkey _ _
      · exact ⟨e, Function.update_self _ _ _, congrArg HashEvent.creator hsame⟩
  | @placed e hhash hsame =>
      subst hhash
      have hcreator : e.creator = event.creator := congrArg HashEvent.creator hsame
      have hheight : e.height = event.height := congrArg HashEvent.height hsame
      refine Or.inl ⟨rfl, rfl, fun x hx => ?_, fun key hkey hplace => ?_, Or.inr ?_⟩
      · exact (SledStore.setFlagTable_flagTable _ _ _ x).trans (if_neg hx)
      · have hplace : key ≠ .creator e.creator e.height := by
          rw [hcreator, hheight]
          exact hplace
        exact (Function.update_of_ne hplace _ _).trans
          (Function.update_of_ne hkey _ _)
      · exact ⟨e, (SledStore.setEvent_event_hash _ e e.hash).trans (if_pos rfl),
          hcreator⟩
  | @recorded e frames made _ _ =>
      exact Or.inr ⟨e.frameNumber,
        written_getFrame_length (List.take_subset made _) e⟩

omit [LinearOrder P] [LinearOrder H] in
theorem Unrecorded.getFrame_eq (h : Unrecorded event k core core') (f : Nat) :
    core'.store.getFrame f = core.store.getFrame f := by
  unfold SledStore.getFrame
  rw [h.frame]

/-- Writing the event and its table leaves no trace of the earlier stages. -/
theorem Unrecorded.written_eq (h : Unrecorded event k core core')
    {e : Event P D T H Sig} (hhash : e.hash = k)
    (hsame : e.toHashEvent = event.toHashEvent) :
    core'.written k ft e = core.written k ft e := by
  subst hhash
  have hcreator : e.creator = event.creator := congrArg HashEvent.creator hsame
  have hheight : e.height = event.height := congrArg HashEvent.height hsame
  have htable : (core'.store.setFlagTable e.hash ft).flagTable =
      (core.store.setFlagTable e.hash ft).flagTable := by
    funext x
    rw [SledStore.setFlagTable_flagTable, SledStore.setFlagTable_flagTable]
    split
    · rfl
    · rename_i hx
      exact h.flagTable x hx
  have hevent : (core'.store.setEvent e).event = (core.store.setEvent e).event := by
    funext key
    cases key with
    | hash x =>
        rw [SledStore.setEvent_event_hash, SledStore.setEvent_event_hash]
        split
        · rfl
        · rename_i hx
          exact h.event_eq _ (by simpa using hx) nofun
    | creator c height =>
        rw [SledStore.setEvent_event_creator, SledStore.setEvent_event_creator]
        split
        · rfl
        · rename_i hplace
          refine h.event_eq _ nofun ?_
          rw [← hcreator, ← hheight]
          simpa using hplace
  have hframe : (core'.store.setEvent e).frame = (core.store.setEvent e).frame := by
    unfold SledStore.setEvent
    rw [h.frame]
  have hstore : (core'.store.setFlagTable e.hash ft).setEvent e =
      (core.store.setFlagTable e.hash ft).setEvent e := by
    apply SledStore.ext
    · exact hevent
    · exact htable
    · exact hframe
  unfold written
  rw [hstore, h.rest]

theorem written_eq_applied (core : DAGcore P D T H PK SK Sig) (k : H)
    (ft : FlagTable H) (e : Event P D T H Sig) :
    core.written k ft e = applied (eventWrites e) (putFlagTable k ft core) := rfl

/-- A call that returns has written the event and finalised frames; and from every
state in which it prepares the same event and writes it into the same store, it
would have done the same. -/
theorem insertEventWith_eq_ok {rc : Bool}
    (h : (insertEventWith faults env event).outcome core = (.ok rc, core₂)) :
    ∃ k ft e, ∃ frames : List Nat,
      env.eventHash event.toHashEvent = .ok k ∧ e.hash = k ∧
      e.toHashEvent = event.toHashEvent ∧
      core₂ = applied (frames.flatMap frameWrites) (core.written k ft e) ∧
      ∀ core', SameReads event core core' →
        core'.written k ft e = core.written k ft e →
        (insertEventWith faults env event).outcome core' = (.ok rc, core₂) := by
  unfold insertEventWith at h
  rw [Call.outcome_bind_ok (Call.outcome_get core), Call.outcome_bind_eq_ok] at h
  obtain ⟨⟨k, prepared, ft⟩, _, hread, h⟩ := h
  obtain ⟨hprepare, rfl⟩ := Prod.mk.inj hread
  obtain ⟨hk, hprepared⟩ := prepareEventWith_eq_ok hprepare
  obtain ⟨_, _, hcall, h⟩ := Call.outcome_bind_eq_ok.mp h
  obtain ⟨rfl, hput⟩ := putWith_ok hcall
  obtain ⟨e, _, hread, h⟩ := Call.outcome_bind_eq_ok.mp h
  obtain ⟨hsign, rfl⟩ := Prod.mk.inj hread
  obtain ⟨_, _, hcall, h⟩ := Call.outcome_bind_eq_ok.mp h
  obtain ⟨rfl, hset⟩ := setEventWith_ok hcall
  have he : e.hash = k ∧ e.toHashEvent = event.toHashEvent := by
    obtain ⟨signatures, rfl⟩ := signEventWith_eq_ok hsign
    exact ⟨hprepared.hash, hprepared.same⟩
  rw [← written_eq_applied] at h
  have hframes : ∃ frames : List Nat,
      core₂ = applied (frames.flatMap frameWrites) (core.written k ft e) := by
    rw [Call.outcome_bind_ok (Call.outcome_get _)] at h
    obtain ⟨frames, _, hread, h⟩ := Call.outcome_bind_eq_ok.mp h
    obtain ⟨-, rfl⟩ := Prod.mk.inj hread
    obtain ⟨_, t, hloop, h⟩ := Call.outcome_bind_eq_ok.mp h
    obtain ⟨-, rfl⟩ := Prod.mk.inj h
    exact ⟨frames,
      (Call.performs_forM (performs_finaliseFrameWith faults) _).of_ok hloop⟩
  obtain ⟨frames, hframes⟩ := hframes
  refine ⟨k, ft, e, frames, hk, he.1, he.2, hframes, ?_⟩
  intro core' hreads hwritten
  have hfirst : core'.firstNotFinalisedFrame = core.firstNotFinalisedFrame := by
    unfold firstNotFinalisedFrame
    rw [hreads.last]
  unfold insertEventWith
  rw [Call.outcome_bind_ok (Call.outcome_get core'),
    prepareEventWith_congr hreads, hprepare, hreads.conf, hfirst]
  rw [Call.outcome_bind_ok (Call.outcome_ofExcept _ core')]
  simp only [Call.outcome_bind_ok (hput core')]
  rw [hsign, Call.outcome_bind_ok (Call.outcome_ofExcept _ _)]
  rw [Call.outcome_bind_ok (hset _)]
  rw [← written_eq_applied, hwritten]
  exact h

/-- A call that returns records the event in one frame. -/
theorem insertEventWith_recorded {rc : Bool}
    (h : (insertEventWith faults env event).outcome core = (.ok rc, core₂)) :
    ∃ f₀, ∀ f, (core₂.store.getFrame f).events.length =
      (core.store.getFrame f).events.length + if f = f₀ then 1 else 0 := by
  obtain ⟨k, ft, e, frames, -, -, -, rfl, -⟩ := insertEventWith_eq_ok h
  exact ⟨e.frameNumber, written_getFrame_length (List.Subset.refl _) e⟩

/-- The hash of the event is neither that of a parent nor that of another stored
event. -/
structure HashDistinct (env : Env P D T H PK SK Sig)
    (core : DAGcore P D T H PK SK Sig) (event : Event P D T H Sig) : Prop where
  self_parent : env.eventHash event.toHashEvent ≠ .ok event.selfParent
  other_parent : env.eventHash event.toHashEvent ≠ .ok event.otherParent
  stored : ∀ k e, env.eventHash event.toHashEvent = .ok k →
    core.store.event (.hash k) = some e → e.toHashEvent = event.toHashEvent

omit [LinearOrder P] [LinearOrder H] in
theorem HashDistinct.parent_ne (h : HashDistinct env core event)
    (hk : env.eventHash event.toHashEvent = .ok k) {p : H}
    (hp : p = event.selfParent ∨ p = event.otherParent) : p ≠ k := by
  rintro rfl
  rcases hp with hp | hp
  · exact h.self_parent (hp ▸ hk)
  · exact h.other_parent (hp ▸ hk)

omit [LinearOrder P] in
theorem Unrecorded.sameReads (h : Unrecorded event k core core')
    (hkeys : TableKeys core.store) (hdistinct : HashDistinct env core event)
    (hk : env.eventHash event.toHashEvent = .ok k) :
    SameReads event core' core := by
  have hevent : ∀ p, p ≠ k →
      core'.store.event (.hash p) = core.store.event (.hash p) :=
    fun p hp => h.event_eq _ (by simpa using hp) nofun
  refine ⟨fun p hp => ?_, fun p hp _ => ?_, ?_, ?_, ?_⟩
  · exact (hevent p (hdistinct.parent_ne hk hp)).symm
  · exact (h.flagTable p (hdistinct.parent_ne hk hp)).symm
  · intro p hp e ft he hft key f hlookup
    have hne := hdistinct.parent_ne hk hp
    by_cases hkey : key = k
    · subst hkey
      rcases h.at_hash with hsame | ⟨e', he', hcreator⟩
      · rw [hsame]
      · -- the table of the parent already named the event
        rw [hevent p hne] at he
        rw [h.flagTable p hne] at hft
        obtain ⟨e₀, he₀⟩ := hkeys p e ft he hft key f hlookup
        have hcreator₀ : e₀.creator = event.creator :=
          congrArg HashEvent.creator (hdistinct.stored key e₀ hk he₀)
        rw [he', he₀, Option.map_some, Option.map_some, hcreator, hcreator₀]
    · rw [hevent key hkey]
  · rw [h.rest]
  · rw [h.rest]

/-- A retry after such a stage does what the first call would have done. -/
theorem Unrecorded.retry_eq {rc : Bool} (h : Unrecorded event k core core')
    (hkeys : TableKeys core.store) (hdistinct : HashDistinct env core event)
    (hk : env.eventHash event.toHashEvent = .ok k)
    (hretry : (insertEventWith faults env event).outcome core' = (.ok rc, core₂)) :
    (insertEventWith faults env event).outcome core = (.ok rc, core₂) := by
  obtain ⟨k', ft, e, -, hk', hhash, hsame, -, hagain⟩ :=
    insertEventWith_eq_ok hretry
  obtain rfl : k' = k := Except.ok.inj (hk'.symm.trans hk)
  exact hagain core (h.sameReads hkeys hdistinct hk) (h.written_eq hhash hsame).symm

/-- Where the event stands in a frame already, a retry cannot do the same. -/
theorem retry_ne {rc : Bool} {f₀ : Nat}
    (hrecorded : ∀ f, (core'.store.getFrame f).events.length =
      (core.store.getFrame f).events.length + if f = f₀ then 1 else 0)
    (hretry : (insertEventWith faults env event).outcome core' = (.ok rc, core₂)) :
    (insertEventWith faults env event).outcome core ≠ (.ok rc, core₂) := by
  intro hfirst
  obtain ⟨f₁, hf₁⟩ := insertEventWith_recorded hretry
  obtain ⟨f₂, hf₂⟩ := insertEventWith_recorded hfirst
  have hlength : ∀ f, ((if f = f₀ then 1 else 0) + if f = f₁ then 1 else 0) =
      if f = f₂ then 1 else 0 := by
    intro f
    have h₀ := hrecorded f
    have h₁ := hf₁ f
    have h₂ := hf₂ f
    omega
  have h₀ := hlength f₀
  have h₁ := hlength f₁
  grind

/-- Leaf events are written with tables that name just themselves. -/
theorem TableKeys.new [Inhabited H] {conf : DAGconfig P PK SK}
    {disk : SledStore P D T H Sig} (h : TableKeys disk)
    (hnew : DAGcore.new env conf disk = .ok core) : TableKeys core.store := by
  refine DAGcore.new_induct (I := fun _ t => TableKeys t) hnew h ?_
  intro _ peer s s' _ _ hs hleaf
  obtain ⟨k, -, rfl⟩ := insertLeaf_eq_ok hleaf
  refine hs.extend (k := k) ?_ rfl (stored_setEvent s _)
  intro key f hlookup
  exact Or.inl (lookup_insert_empty hlookup).1

/-- The states of a node whose calls of `insert_event` can fail anywhere, and
which can be started again on its store.  The rest of the node does not write to
the store. -/
inductive FaultRun [Inhabited H] (env : Env P D T H PK SK Sig) :
    DAGcore P D T H PK SK Sig → Prop
  | start (conf : DAGconfig P PK SK) {core : DAGcore P D T H PK SK Sig} :
      DAGcore.new env conf SledStore.empty = .ok core → FaultRun env core
  | reopen {conf : DAGconfig P PK SK} {core core' : DAGcore P D T H PK SK Sig} :
      FaultRun env core → DAGcore.new env conf core.store = .ok core' →
      FaultRun env core'
  | call {core : DAGcore P D T H PK SK Sig} (faults : Faults H)
      (event : Event P D T H Sig) : FaultRun env core →
      FaultRun env ((insertEventWith faults env event).outcome core).2
  | other {core core' : DAGcore P D T H PK SK Sig} : FaultRun env core →
      core'.store = core.store → FaultRun env core'

theorem FaultRun.tableKeys [Inhabited H] (h : FaultRun env core) :
    TableKeys core.store := by
  induction h with
  | start conf hnew =>
      have hempty : TableKeys (SledStore.empty : SledStore P D T H Sig) := nofun
      exact hempty.new hnew
  | reopen _ hnew ih => exact ih.new hnew
  | @call core faults event _ ih =>
      rcases insertEventWith_partly faults env event core with heq | hpartly
      · rw [heq]
        exact ih
      · obtain ⟨k, prepared, ft, -, hprepared, hpartly⟩ := hpartly
        exact ih.partly hprepared hpartly
  | other _ hstore ih =>
      rw [hstore]
      exact ih

end Retry

section Between

variable [LinearOrder P] [LinearOrder H] {faults : Faults H}
  {env : Env P D T H PK SK Sig} {event : Event P D T H Sig}
  {core core' core₂ : DAGcore P D T H PK SK Sig} {k : H} {ft : FlagTable H}

def withFlagTables (flagTable : SledTree H (FlagTable H))
    (core : DAGcore P D T H PK SK Sig) : DAGcore P D T H PK SK Sig :=
  { core with store := { core.store with flagTable := flagTable } }

/-- Two states that differ at most in the flag table of a hash under which no event
is stored. -/
inductive AlikeBut (k : H) :
    DAGcore P D T H PK SK Sig → DAGcore P D T H PK SK Sig → Prop
  | of_table (core : DAGcore P D T H PK SK Sig)
      (flagTable : SledTree H (FlagTable H)) :
      core.store.event (.hash k) = none →
      (∀ x, x ≠ k → flagTable x = core.store.flagTable x) →
      AlikeBut k core (withFlagTables flagTable core)

omit [LinearOrder P] [LinearOrder H] in
theorem AlikeBut.symm (h : AlikeBut k core core') : AlikeBut k core' core := by
  obtain ⟨flagTable, hnone, htable⟩ := h
  exact .of_table (withFlagTables flagTable core) core.store.flagTable hnone
    fun x hx => (htable x hx).symm

omit [LinearOrder P] in
theorem AlikeBut.sameReads (h : AlikeBut k core core')
    (event : Event P D T H Sig) : SameReads event core core' := by
  obtain ⟨flagTable, hnone, htable⟩ := h
  refine ⟨fun _ _ => rfl, fun p _ hstored => htable p ?_, fun _ _ _ _ _ _ _ _ _ => rfl,
    rfl, rfl⟩
  rintro rfl
  obtain ⟨e, he⟩ := hstored
  rw [hnone] at he
  cases he

omit [LinearOrder P] in
theorem AlikeBut.putFlagTable_eq (h : AlikeBut k core core') :
    putFlagTable k ft core' = putFlagTable k ft core := by
  obtain ⟨flagTable, -, htable⟩ := h
  have hstore : SledStore.setFlagTable
      { core.store with flagTable := flagTable } k ft =
        core.store.setFlagTable k ft := by
    apply SledStore.ext
    · rfl
    · funext x
      rw [SledStore.setFlagTable_flagTable, SledStore.setFlagTable_flagTable]
      split
      · rfl
      · rename_i hx
        exact htable x hx
    · rfl
  unfold putFlagTable withFlagTables
  rw [hstore]

omit [LinearOrder P] in
theorem AlikeBut.putFlagTable (h : AlikeBut k core core') (x : H) (ft : FlagTable H) :
    AlikeBut k (DAGcore.putFlagTable x ft core)
      (DAGcore.putFlagTable x ft core') := by
  obtain ⟨flagTable, hnone, htable⟩ := h
  refine .of_table (DAGcore.putFlagTable x ft core) (SledTree.insert flagTable x ft)
    hnone ?_
  intro y hy
  change SledTree.insert flagTable x ft y =
    SledTree.insert core.store.flagTable x ft y
  unfold SledTree.insert
  rw [Function.update_apply, Function.update_apply, htable y hy]

theorem AlikeBut.eventWrites {e : Event P D T H Sig} (he : e.hash ≠ k) :
    ∀ write ∈ eventWrites e, ∀ s t : DAGcore P D T H PK SK Sig,
      AlikeBut k s t → AlikeBut k (write s) (write t) := by
  intro write hwrite s t h
  obtain ⟨flagTable, hnone, htable⟩ := h
  simp only [DAGcore.eventWrites, List.mem_cons, List.not_mem_nil, or_false] at hwrite
  rcases hwrite with rfl | rfl | rfl
  · refine .of_table (putEvent (.hash e.hash) e s) flagTable ?_ htable
    exact (Function.update_of_ne (by simpa using he.symm) _ _).trans hnone
  · refine .of_table (putEvent (.creator e.creator e.height) e s) flagTable ?_ htable
    have hkey : (EventKey.hash k : EventKey P H) ≠ .creator e.creator e.height := by
      simp
    exact (Function.update_of_ne hkey (some e) s.store.event).trans hnone
  · exact .of_table (putRecord e s) flagTable hnone htable

omit [LinearOrder P] in
theorem AlikeBut.frameWrites (f : Nat) :
    ∀ write ∈ frameWrites f, ∀ s t : DAGcore P D T H PK SK Sig,
      AlikeBut k s t → AlikeBut k (write s) (write t) := by
  intro write hwrite s t h
  obtain ⟨flagTable, hnone, htable⟩ := h
  simp only [DAGcore.frameWrites, List.mem_cons, List.not_mem_nil, or_false] at hwrite
  rcases hwrite with rfl | rfl | rfl
  · exact .of_table (logFinalised f s) flagTable hnone htable
  · exact .of_table (sortFrame f s) flagTable hnone htable
  · exact .of_table (passFrame f s) flagTable hnone htable

omit [LinearOrder H] in
theorem AlikeBut.framesToFinaliseWith_eq (h : AlikeBut k core core')
    (faults : Faults H) (env : Env P D T H PK SK Sig) (ft : FlagTable H)
    (first : Nat) : core'.framesToFinaliseWith faults env ft first =
      core.framesToFinaliseWith faults env ft first := by
  obtain ⟨flagTable, -, -⟩ := h
  rfl

/-- A call does the same in both states, and leaves two such states again, or the
same one when it has written the table. -/
theorem AlikeBut.tracks (h : AlikeBut k core core') (faults : Faults H)
    (env : Env P D T H PK SK Sig) (event : Event P D T H Sig) :
    Call.Tracks (Relation.ReflGen (AlikeBut k))
      (insertEventWith faults env event) (insertEventWith faults env event) core
      core' := by
  have hreads := h.sameReads event
  have hfirst : core'.firstNotFinalisedFrame = core.firstNotFinalisedFrame := by
    unfold firstNotFinalisedFrame
    rw [hreads.last]
  unfold insertEventWith
  apply Call.Tracks.get_bind
  rw [prepareEventWith_congr hreads, hreads.conf, hfirst]
  refine (Call.tracks_ofExcept _ (.single h)).bind_of_outcome ?_
  rintro ⟨x, prepared, ft⟩ _ _ hread hread'
  obtain ⟨hprepare, rfl⟩ := Prod.mk.inj hread
  obtain ⟨-, rfl⟩ := Prod.mk.inj hread'
  obtain ⟨-, hprepared⟩ := prepareEventWith_eq_ok hprepare
  refine (tracks_putWith _ ?_ (.single h)).bind_of_outcome ?_
  · rintro s t (_ | hst)
    · exact .refl
    · exact .single (hst.putFlagTable x ft)
  intro _ _ _ hcall hcall'
  obtain ⟨rfl, -⟩ := putWith_ok hcall
  obtain ⟨rfl, -⟩ := putWith_ok hcall'
  by_cases hx : x = k
  · subst hx
    rw [h.putFlagTable_eq]
    exact ⟨rfl, .refl⟩
  · have htabled := h.putFlagTable x ft
    refine Call.Tracks.mono (R := AlikeBut k) ?_ fun _ _ => .single
    refine (Call.tracks_ofExcept _ htabled).bind_of_outcome ?_
    intro e _ _ hread hread'
    obtain ⟨hsign, rfl⟩ := Prod.mk.inj hread
    obtain ⟨-, rfl⟩ := Prod.mk.inj hread'
    have he : e.hash ≠ k := by
      obtain ⟨signatures, rfl⟩ := signEventWith_eq_ok hsign
      exact hprepared.hash ▸ hx
    refine (tracks_setEventWith faults (AlikeBut.eventWrites he) htabled).bind ?_
    intro _ s t hst
    apply Call.Tracks.get_bind
    rw [hst.framesToFinaliseWith_eq]
    refine (Call.tracks_ofExcept _ hst).bind fun frames s t hst => ?_
    refine Call.Tracks.bind (Call.tracks_forM (fun f s t hst => ?_) hst)
      fun _ _ _ hst => Call.tracks_pure _ hst
    exact tracks_finaliseFrameWith faults f (AlikeBut.frameWrites f) hst

/-- What happens at a node between two calls: another call of `insert_event`, or
something that has no part in flag tables and does not write to the store. -/
inductive Turn (P D T H PK SK Sig : Type)
  | insert (faults : Faults H) (event : Event P D T H Sig)
  | other (turn : DAGcore P D T H PK SK Sig → DAGcore P D T H PK SK Sig)
      (store_eq : ∀ core, (turn core).store = core.store)
      (apart : ∀ flagTable core,
        turn (withFlagTables flagTable core) = withFlagTables flagTable (turn core))

def Turn.apply (env : Env P D T H PK SK Sig) :
    Turn P D T H PK SK Sig → DAGcore P D T H PK SK Sig → DAGcore P D T H PK SK Sig
  | .insert faults event, core => ((insertEventWith faults env event).outcome core).2
  | .other turn _ _, core => turn core

theorem AlikeBut.turn (h : Relation.ReflGen (AlikeBut k) core core')
    (turn : Turn P D T H PK SK Sig) :
    Relation.ReflGen (AlikeBut k) (turn.apply env core) (turn.apply env core') := by
  cases h with
  | refl => exact .refl
  | single h =>
      cases turn with
      | insert faults event => exact (h.tracks faults env event).2
      | other turn store_eq apart =>
          obtain ⟨flagTable, hnone, htable⟩ := h
          change Relation.ReflGen _ (turn core) (turn (withFlagTables flagTable core))
          rw [apart]
          rw [← store_eq core] at hnone htable
          exact .single (.of_table (turn core) flagTable hnone htable)

theorem AlikeBut.turns (h : Relation.ReflGen (AlikeBut k) core core')
    (turns : List (Turn P D T H PK SK Sig)) :
    Relation.ReflGen (AlikeBut k) (applied (turns.map (Turn.apply env)) core)
      (applied (turns.map (Turn.apply env)) core') := by
  induction turns generalizing core core' with
  | nil => exact h
  | cons turn rest ih => exact ih (AlikeBut.turn h turn)

/-- Writing the event makes up for the difference. -/
theorem AlikeBut.retry_eq {rc : Bool} (h : Relation.ReflGen (AlikeBut k) core core')
    (hk : env.eventHash event.toHashEvent = .ok k)
    (hretry : (insertEventWith faults env event).outcome core' = (.ok rc, core₂)) :
    (insertEventWith faults env event).outcome core = (.ok rc, core₂) := by
  cases h with
  | refl => exact hretry
  | single h =>
      obtain ⟨k', ft, e, -, hk', -, -, -, hagain⟩ := insertEventWith_eq_ok hretry
      obtain rfl : k' = k := Except.ok.inj (hk'.symm.trans hk)
      refine hagain core (h.symm.sameReads event) ?_
      rw [written_eq_applied, written_eq_applied, h.putFlagTable_eq]

/-- Where the event is not under its hash, at most its flag table was written. -/
theorem Partly.alikeBut (h : Partly event k ft core core')
    (hnone : core'.store.event (.hash k) = none) :
    Relation.ReflGen (AlikeBut k) core core' := by
  have hstored : ∀ e : Event P D T H Sig, e.hash = k →
      (core.store.setEvent e).event (.hash k) = some e := by
    rintro e rfl
    exact (SledStore.setEvent_event_hash core.store e e.hash).trans (if_pos rfl)
  cases h with
  | unchanged => exact .refl
  | tabled =>
      refine .single (.of_table core (core.store.setFlagTable k ft).flagTable hnone ?_)
      intro x hx
      rw [SledStore.setFlagTable_flagTable, if_neg hx]
  | @hashed e hhash _ =>
      subst hhash
      have hput : (putEvent (.hash e.hash) e (putFlagTable e.hash ft
          core)).store.event (.hash e.hash) = some e := Function.update_self _ _ _
      rw [hput] at hnone
      cases hnone
  | @placed e hhash _ =>
      have hput := (hstored e hhash).symm.trans hnone
      cases hput
  | @recorded e frames made hhash _ =>
      obtain ⟨hevent, -, -⟩ := applied_frameWrites (core.written k ft e)
        (List.take_subset made (frames.flatMap frameWrites))
      rw [hevent] at hnone
      have hput := (hstored e hhash).symm.trans hnone
      cases hput

end Between

section Claim

variable [LinearOrder P] [LinearOrder H] [Inhabited H] {faults : Faults H}
  {env : Env P D T H PK SK Sig} {event : Event P D T H Sig}
  {core core₁ : DAGcore P D T H PK SK Sig} {failure : Failure}

/-- The call fails before it inserts the flag table of the event. -/
def FailsUnwritten (faults : Faults H) (env : Env P D T H PK SK Sig)
    (event : Event P D T H Sig) (core : DAGcore P D T H PK SK Sig) : Prop :=
  (∃ failure, core.prepareEventWith faults env event = .error failure) ∨
    faults (.setFlagTable .serialize) ≠ none ∨ faults (.setFlagTable .insert) ≠ none

omit [LinearOrder P] [LinearOrder H] [Inhabited H] in
theorem putWith_unwritten {faults : WriteStep → Option Error}
    (h : faults .serialize ≠ none ∨ faults .insert ≠ none)
    (write : DAGcore P D T H PK SK Sig → DAGcore P D T H PK SK Sig)
    (core : DAGcore P D T H PK SK Sig) :
    ∃ failure, (putWith faults write).outcome core = (.error failure, core) := by
  unfold putWith
  cases hserialize : faults .serialize with
  | some err => exact ⟨.err err, rfl⟩
  | none =>
      cases hinsert : faults .insert with
      | some err => exact ⟨.err err, rfl⟩
      | none => exact absurd h (by simp [hserialize, hinsert])

omit [Inhabited H] in
theorem FailsUnwritten.core_eq (h : FailsUnwritten faults env event core) :
    ((insertEventWith faults env event).outcome core).2 = core := by
  unfold insertEventWith
  rw [Call.outcome_bind_ok (Call.outcome_get core)]
  cases hprepare : core.prepareEventWith faults env event with
  | error failure => rfl
  | ok result =>
      obtain ⟨k, prepared, ft⟩ := result
      have hput : ∃ failure, (putWith (fun step => faults (.setFlagTable step))
          (putFlagTable k ft)).outcome core = (.error failure, core) :=
        putWith_unwritten (h.resolve_left (by simp [hprepare])) _ core
      obtain ⟨failure, hput⟩ := hput
      rw [Call.outcome_bind_ok (Call.outcome_ofExcept _ core)]
      simp only [Call.outcome_bind_error hput]

/-- What is left when `insert_event` fails: the writes it made before, in their
order, and none when it did not come to the flag table.  The next call with this
event, if it returns, makes up for these writes exactly when no record was appended
to a frame; and if the event was not yet put under its hash, any later call does,
whatever happened in between. -/
theorem failed_insert_keeps_writes (hrun : FaultRun env core)
    (hfail : (insertEventWith faults env event).outcome core =
      (.error failure, core₁)) :
    (∃ made, core₁ =
      applied ((core.insertWrites faults env event).take made) core) ∧
    (FailsUnwritten faults env event core → core₁ = core) ∧
    (HashDistinct env core event → ∀ (faults' : Faults H) core₂,
      (insertEventWith faults' env event).outcome core₁ = (.ok true, core₂) →
      ((insertEventWith faults' env event).outcome core = (.ok true, core₂) ↔
        ∀ f, core₁.store.getFrame f = core.store.getFrame f)) ∧
    ((∀ k, env.eventHash event.toHashEvent = .ok k →
        core₁.store.event (.hash k) = none) →
      ∀ (turns : List (Turn P D T H PK SK Sig)) (faults' : Faults H) core₂,
        (insertEventWith faults' env event).outcome
          (applied (turns.map (Turn.apply env)) core₁) = (.ok true, core₂) →
        (insertEventWith faults' env event).outcome
          (applied (turns.map (Turn.apply env)) core) = (.ok true, core₂)) := by
  have hleft : ((insertEventWith faults env event).outcome core).2 = core₁ := by
    rw [hfail]
  have hpartly := insertEventWith_partly faults env event core
  rw [hleft] at hpartly
  refine ⟨?_, fun h => hleft.symm.trans h.core_eq, ?_, ?_⟩
  · exact (performs_insertEventWith faults env event core).of_error hfail
  · intro hdistinct faults' core₂ hretry
    rcases hpartly with rfl | ⟨k, prepared, ft, hk, -, hpartly⟩
    · exact ⟨fun _ _ => rfl, fun _ => hretry⟩
    · rcases hpartly.unrecorded_or with hunrecorded | ⟨f₀, hrecorded⟩
      · exact ⟨fun _ f => hunrecorded.getFrame_eq f,
          fun _ => hunrecorded.retry_eq hrun.tableKeys hdistinct hk hretry⟩
      · constructor
        · exact fun hsame => absurd hsame (retry_ne hrecorded hretry)
        · intro hframes
          have hlength := hrecorded f₀
          rw [hframes f₀, if_pos rfl] at hlength
          omega
  · intro hnone turns faults' core₂ hretry
    rcases hpartly with rfl | ⟨k, prepared, ft, hk, -, hpartly⟩
    · exact hretry
    · exact AlikeBut.retry_eq (AlikeBut.turns (hpartly.alikeBut (hnone k hk)) turns)
        hk hretry

end Claim

end DAGcore

namespace TwoPeers

open DAGcore

def signFault : Faults Nat
  | .sign => some (.io "sign")
  | _ => none

/-- The last flush of `set_event` fails. -/
def flushFault : Faults Nat
  | .setFrame .flush => some (.sled "flush")
  | _ => none

/-- What a call with the event of the other peer leaves. -/
def left (faults : Faults Nat) : Core :=
  ((insertEventWith faults env b₁).outcome (start 0)).2

theorem signFault_fails : (insertEventWith signFault env b₁).outcome (start 0) =
    (.error (.err (.io "sign")), left signFault) := rfl

theorem flushFault_fails : (insertEventWith flushFault env b₁).outcome (start 0) =
    (.error (.err (.sled "flush")), left flushFault) := rfl

/-- What a second call, in which nothing fails, makes of it. -/
def retried (faults : Faults Nat) : Core := after (left faults) [b₁]

theorem retry_returns (faults : Faults Nat)
    (h : ((left faults).insertEvent env b₁).1 = .ok true) :
    (insertEventWith (fun _ => none) env b₁).outcome (left faults) =
      (.ok true, retried faults) :=
  insertEventWith_none.trans (insertEvent_after h)

theorem hashDistinct : HashDistinct env (start 0) b₁ where
  self_parent := by decide
  other_parent := by decide
  stored k e hk he := by
    have hk : k = 4 := (Except.ok.inj hk).symm
    have hnone : (start 0).store.event (.hash 4) = none := rfl
    rw [hk, hnone] at he
    cases he

/-- A call that could not sign is made up for, also after a call with an event that
is refused for now. -/
theorem sign_made_up :
    ((insertEventWith (fun _ => none) env b₁).outcome (start 0) =
        (.ok true, retried signFault) ↔
      ∀ f, (left signFault).store.getFrame f = (start 0).store.getFrame f) ∧
    ∃ core₂, (insertEventWith (fun _ => none) env b₁).outcome
      (applied ([Turn.insert (fun _ => none) a₁].map (Turn.apply env)) (start 0)) =
        (.ok true, core₂) := by
  obtain ⟨-, -, hdirect, hlater⟩ :=
    failed_insert_keeps_writes (.start (conf 0) rfl) signFault_fails
  have hnone : ∀ k, env.eventHash b₁.toHashEvent = .ok k →
      (left signFault).store.event (.hash k) = none := by
    intro k hk
    have hk : k = 4 := (Except.ok.inj hk).symm
    rw [hk]
    rfl
  let refused := applied
    ([Turn.insert (fun _ => none) a₁].map (Turn.apply env)) (left signFault)
  have hretry : (insertEventWith (fun _ => none) env b₁).outcome refused =
      (.ok true, after refused [b₁]) :=
    insertEventWith_none.trans (insertEvent_after (by decide +kernel))
  exact ⟨hdirect hashDistinct _ _ (retry_returns signFault (by decide +kernel)),
    _, hlater hnone _ _ _ hretry⟩

/-- The failed flush leaves the event under its hash, and after the second call the
event stands in frame 1 twice. -/
theorem failed_insert_not_atomic :
    (¬ ∀ (core core₁ : Core) (faults : Faults Nat)
        (event : Event Nat Nat Unit Nat Unit) (failure : Failure),
      FaultRun env core →
      (insertEventWith faults env event).outcome core = (.error failure, core₁) →
      (∀ key, core₁.store.event key = core.store.event key) ∧
        (∀ k, core₁.store.flagTable k = core.store.flagTable k) ∧
        (∀ f, core₁.store.getFrame f = core.store.getFrame f) ∧
        core₁.lastFinalisedFrame = core.lastFinalisedFrame) ∧
    ¬ ∀ (core core₁ core₂ : Core) (faults : Faults Nat)
        (event : Event Nat Nat Unit Nat Unit) (failure : Failure),
      FaultRun env core →
      (insertEventWith faults env event).outcome core = (.error failure, core₁) →
      core₁.insertEvent env event = (.ok true, core₂) →
      core.insertEvent env event = (.ok true, core₂) := by
  have hrun : FaultRun env (start 0) := .start (conf 0) rfl
  constructor
  · intro hclaim
    have hsame := (hclaim _ _ _ _ _ hrun flushFault_fails).1 (.hash 4)
    have hnone : (start 0).store.event (.hash 4) = none := rfl
    have hsome : ((left flushFault).store.event (.hash 4)).isSome := rfl
    rw [hsame, hnone] at hsome
    cases hsome
  · intro hclaim
    have hretry : (left flushFault).insertEvent env b₁ =
        (.ok true, retried flushFault) := insertEvent_after (by decide +kernel)
    have hfirst := hclaim _ _ _ _ _ _ hrun flushFault_fails hretry
    have honce : (((start 0).insertEvent env b₁).2.store.getFrame 1).events =
        [⟨4, 1⟩] := by decide +kernel
    have htwice : ((retried flushFault).store.getFrame 1).events =
        [⟨4, 1⟩, ⟨4, 1⟩] := by decide +kernel
    rw [hfirst, htwice] at honce
    cases honce

end TwoPeers

end ConsensusDag
