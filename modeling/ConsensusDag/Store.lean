/-
The store of a node: events under their hash and under their creator and
height, flag tables under event hashes, frames under frame numbers.
-/
import Mathlib.Logic.Function.Basic
import ConsensusDag.Event
import ConsensusDag.FlagTable
import ConsensusDag.Frame

namespace ConsensusDag

open AssocTables

/-- The two kinds of keys of the event tree. -/
inductive EventKey (P H : Type)
  | hash (hash : H)
  | creator (creator : P) (height : Nat)
deriving DecidableEq

/-- A sled tree, read one key at a time. -/
abbrev SledTree (K A : Type) := K → Option A

def SledTree.insert {K A : Type} [DecidableEq K] (tree : SledTree K A) (key : K)
    (value : A) : SledTree K A :=
  Function.update tree key (some value)

@[ext] structure SledStore (P D T H Sig : Type) where
  event : SledTree (EventKey P H) (Event P D T H Sig)
  flagTable : SledTree H (FlagTable H)
  frame : SledTree Nat (Frame H)

variable {P D T H PK SK Sig : Type}

namespace SledStore

/-- A store opened on a new directory. -/
def empty : SledStore P D T H Sig :=
  ⟨fun _ => none, fun _ => none, fun _ => none⟩

/-- Write the event under both of its keys and append its record to the list of
its frame. -/
def setEvent [DecidableEq P] [DecidableEq H] (store : SledStore P D T H Sig)
    (e : Event P D T H Sig) : SledStore P D T H Sig :=
  let event := SledTree.insert store.event (.hash e.hash) e
  let event := SledTree.insert event (.creator e.creator e.height) e
  let frame := (store.frame e.frameNumber).getD default
  let record : FrameRecord H := ⟨e.hash, e.lamportTimestamp⟩
  { store with
    event := event
    frame := SledTree.insert store.frame e.frameNumber
      ⟨frame.events ++ [record]⟩ }

def getEvent (store : SledStore P D T H Sig) (ex : H) :
    Result (Event P D T H Sig) :=
  match store.event (.hash ex) with
  | some event => .ok event
  | none => .error (.err .noneError)

def setFrame (store : SledStore P D T H Sig) (frameNumber : Nat)
    (frame : Frame H) : SledStore P D T H Sig :=
  { store with frame := SledTree.insert store.frame frameNumber frame }

def getFrame (store : SledStore P D T H Sig) (frameNumber : Nat) :
    Frame H :=
  (store.frame frameNumber).getD default

def setFlagTable [DecidableEq H] (store : SledStore P D T H Sig) (ex : H)
    (ft : FlagTable H) : SledStore P D T H Sig :=
  { store with flagTable := SledTree.insert store.flagTable ex ft }

def getFlagTable (store : SledStore P D T H Sig) (ex : H) :
    Result (FlagTable H) :=
  match store.flagTable ex with
  | some ft => .ok ft
  | none => .error (.err .noneError)

def getEventOfCreator (store : SledStore P D T H Sig) (creator : P)
    (height : Nat) : Result (Event P D T H Sig) :=
  match store.event (.creator creator height) with
  | some event => .ok event
  | none => .error (.err .noneError)

/-- The inner loop of `get_events_for_gossip`: the events of one creator from
`height` upwards, up to the first height that is not stored. -/
def eventsFrom (store : SledStore P D T H Sig) (creator : P) (height : Nat) :
    Result (List (NetEvent P D T H Sig)) :=
  match store.getEventOfCreator creator height with
  | .error (.err _) => .ok []
  | .error failure => .error failure
  | .ok event =>
      if _ : height + 1 ≤ usizeMax then do
        let events ← store.eventsFrom creator (height + 1)
        pure (event.toNetEvent :: events)
      else .error .panic
termination_by usizeMax - height
decreasing_by omega

def getEventsForGossip (store : SledStore P D T H Sig) (gossip : GossipList P) :
    Result (List (NetEvent P D T H Sig)) := do
  let chains ← gossip.entries.mapM fun entry => do
    let height ← usizeAdd entry.2.height 1
    store.eventsFrom entry.1 height
  pure (chains.flatten.insertionSort fun a b =>
    a.lamportTimestamp ≤ b.lamportTimestamp)

/-- One turn of the loop of `derive_creator_flag_table`.  A missing event is
compared with `NoneError` before it is passed over. -/
def deriveStep [DecidableEq P] (env : Env P D T H PK SK Sig)
    (store : SledStore P D T H Sig) (minFrame : Nat)
    (result : CreatorFlagTable P) (key : H) (value : Nat) :
    Result (CreatorFlagTable P) :=
  if minFrame ≤ value then
    match store.getEvent key with
    | .error (.err err) => do
        -- both outcomes of the comparison only write a log line
        let _ ← Error.eq env.stackDepth err .noneError
        pure result
    | .error failure => .error failure
    | .ok e => pure (result.insertMax e.creator value)
  else pure result

def deriveCreatorFlagTable [DecidableEq P] (env : Env P D T H PK SK Sig)
    (store : SledStore P D T H Sig) (ft : FlagTable H)
    (minFrame : Nat) : Result (CreatorFlagTable P) :=
  ft.entries.foldlM
    (fun result entry => store.deriveStep env minFrame result entry.1 entry.2) ∅

section Reads

variable {store : SledStore P D T H Sig}

@[simp] theorem getEvent_eq_ok {ex : H} {e : Event P D T H Sig} :
    store.getEvent ex = .ok e ↔ store.event (.hash ex) = some e := by
  unfold getEvent
  split <;> simp_all

@[simp] theorem getFlagTable_eq_ok {ex : H} {ft : FlagTable H} :
    store.getFlagTable ex = .ok ft ↔ store.flagTable ex = some ft := by
  unfold getFlagTable
  split <;> simp_all

@[simp] theorem getEventOfCreator_eq_ok {c : P} {height : Nat}
    {e : Event P D T H Sig} :
    store.getEventOfCreator c height = .ok e ↔
      store.event (.creator c height) = some e := by
  unfold getEventOfCreator
  split <;> simp_all

end Reads

section Writes

variable (store : SledStore P D T H Sig)

theorem setEvent_event_hash [DecidableEq P] [DecidableEq H]
    (e : Event P D T H Sig) (ex : H) :
    (store.setEvent e).event (.hash ex) =
      if ex = e.hash then some e else store.event (.hash ex) := by
  simp [setEvent, SledTree.insert, Function.update_apply]

theorem setEvent_event_creator [DecidableEq P] [DecidableEq H]
    (e : Event P D T H Sig) (c : P) (height : Nat) :
    (store.setEvent e).event (.creator c height) =
      if c = e.creator ∧ height = e.height then some e
      else store.event (.creator c height) := by
  simp [setEvent, SledTree.insert, Function.update_apply]

/-- What is stored after a write was stored before it, or is the event written. -/
theorem setEvent_event_cases [DecidableEq P] [DecidableEq H]
    {e e' : Event P D T H Sig} {key : EventKey P H}
    (h : (store.setEvent e).event key = some e') :
    e' = e ∨ store.event key = some e' := by
  cases key with
  | hash k =>
      rw [setEvent_event_hash] at h
      split at h
      · exact Or.inl (Option.some.inj h).symm
      · exact Or.inr h
  | creator c height =>
      rw [setEvent_event_creator] at h
      split at h
      · exact Or.inl (Option.some.inj h).symm
      · exact Or.inr h

theorem setEvent_event_grows [DecidableEq P] [DecidableEq H]
    (e : Event P D T H Sig) {key : EventKey P H}
    (h : ∃ e', store.event key = some e') :
    ∃ e', (store.setEvent e).event key = some e' := by
  obtain ⟨e', he'⟩ := h
  cases key with
  | hash k =>
      rw [setEvent_event_hash]
      split
      · exact ⟨e, rfl⟩
      · exact ⟨e', he'⟩
  | creator c height =>
      rw [setEvent_event_creator]
      split
      · exact ⟨e, rfl⟩
      · exact ⟨e', he'⟩

theorem setEvent_getFrame [DecidableEq P] [DecidableEq H]
    (e : Event P D T H Sig) (f : Nat) :
    (store.setEvent e).getFrame f =
      if f = e.frameNumber
      then ⟨(store.getFrame f).events ++ [⟨e.hash, e.lamportTimestamp⟩]⟩
      else store.getFrame f := by
  by_cases hf : f = e.frameNumber
  · simp [setEvent, SledTree.insert, getFrame, hf]
  · simp [setEvent, SledTree.insert, getFrame, hf]

@[simp] theorem setEvent_flagTable [DecidableEq P] [DecidableEq H]
    (e : Event P D T H Sig) :
    (store.setEvent e).flagTable = store.flagTable := rfl

@[simp] theorem setFlagTable_getFrame [DecidableEq H] (ex : H)
    (ft : FlagTable H) (f : Nat) :
    (store.setFlagTable ex ft).getFrame f = store.getFrame f := rfl

theorem setFlagTable_flagTable [DecidableEq H] (ex : H) (ft : FlagTable H)
    (ex' : H) :
    (store.setFlagTable ex ft).flagTable ex' =
      if ex' = ex then some ft else store.flagTable ex' := by
  simp [setFlagTable, SledTree.insert, Function.update_apply]

theorem setFrame_getFrame (f : Nat) (frame : Frame H) (f' : Nat) :
    (store.setFrame f frame).getFrame f' =
      if f' = f then frame else store.getFrame f' := by
  by_cases hf : f' = f
  · simp [setFrame, SledTree.insert, getFrame, hf]
  · simp [setFrame, SledTree.insert, getFrame, hf]

end Writes

section Derive

variable [DecidableEq P] (env : Env P D T H PK SK Sig)
  (store : SledStore P D T H Sig) (minFrame : Nat)

/-- The creator and the frame of an entry that the loop of
`derive_creator_flag_table` does not pass over. -/
def creatorPair (entry : Sigma fun _ : H => Nat) : Option (P × Nat) :=
  if minFrame ≤ entry.2 then
    (store.event (.hash entry.1)).map fun e => (e.creator, entry.2)
  else none

private theorem foldlM_deriveStep (entries : List (Sigma fun _ : H => Nat))
    (acc : CreatorFlagTable P)
    (hstored : ∀ entry ∈ entries, minFrame ≤ entry.2 →
      ∃ e, store.event (.hash entry.1) = some e) :
    entries.foldlM
        (fun result entry => store.deriveStep env minFrame result entry.1 entry.2)
        acc =
      .ok ((entries.filterMap (store.creatorPair minFrame)).foldl
        (fun t pair => t.insertMax pair.1 pair.2) acc) := by
  induction entries generalizing acc with
  | nil => rfl
  | cons entry rest ih =>
      have hrest := fun acc => ih acc fun e he => hstored e (by simp [he])
      rw [List.foldlM_cons, List.filterMap_cons]
      by_cases hle : minFrame ≤ entry.2
      · obtain ⟨e, he⟩ := hstored entry (by simp) hle
        have hget : store.getEvent entry.1 = .ok e := getEvent_eq_ok.mpr he
        simp only [deriveStep, creatorPair, hle, ↓reduceIte, hget, he,
          Option.map_some, List.foldl_cons]
        exact hrest _
      · simp only [deriveStep, creatorPair, hle, ↓reduceIte]
        exact hrest _

variable {env store minFrame} {ft : FlagTable H}

/-- With every event of the table in the store, the loop ends and keeps the
greatest frame of each creator. -/
theorem deriveCreatorFlagTable_eq [DecidableEq H]
    (hstored : ∀ key value, ft.lookup key = some value → minFrame ≤ value →
      ∃ e, store.event (.hash key) = some e) :
    store.deriveCreatorFlagTable env ft minFrame =
      .ok (Table.maxTable (ft.entries.filterMap (store.creatorPair minFrame))) := by
  refine foldlM_deriveStep env store minFrame ft.entries ∅ ?_
  rintro ⟨key, value⟩ hentry hle
  exact hstored key value (Table.mem_entries_iff_lookup.mp hentry) hle

omit [DecidableEq P] in
theorem mem_creatorPairs [DecidableEq H] {c : P} {value : Nat} :
    (c, value) ∈ ft.entries.filterMap (store.creatorPair minFrame) ↔
      ∃ key e, ft.lookup key = some value ∧ minFrame ≤ value ∧
        store.event (.hash key) = some e ∧ e.creator = c := by
  simp only [List.mem_filterMap, creatorPair]
  constructor
  · rintro ⟨⟨key, v⟩, hentry, hpair⟩
    split at hpair
    · rename_i hle
      obtain ⟨e, he, heq⟩ := Option.map_eq_some_iff.mp hpair
      cases heq
      exact ⟨key, e, Table.mem_entries_iff_lookup.mp hentry, hle, he, rfl⟩
    · cases hpair
  · rintro ⟨key, e, hlookup, hle, he, rfl⟩
    exact ⟨⟨key, value⟩, Table.mem_entries_iff_lookup.mpr hlookup, by simp [hle, he]⟩

end Derive

end SledStore

end ConsensusDag
