/-
The store as it is on disk: three trees from byte strings to byte strings, one of
them with two kinds of keys.  It reads like four maps that know nothing of each
other, and so does the store that the rest of the development works with.
-/
import ConsensusDag.Lib.ByteEncoding
import ConsensusDag.Lib.FallibleCall
import ConsensusDag.Store

namespace ConsensusDag

open FallibleCalls ByteEncoding AssocTables

/-- `bincode` for the values of one type. -/
structure Bincode (A : Type) where
  serialize : A → Except Error ByteArray
  deserialize : ByteArray → Except Error A

/-- How keys and values become bytes: the text of a peer id, the bytes of a hash,
and the code of what is stored in each tree. -/
structure Encoding (P D T H Sig : Type) where
  display : P → String
  toVec : H → ByteArray
  event : Bincode (Event P D T H Sig)
  flagTable : Bincode (FlagTable H)
  frame : Bincode (Frame H)

/-- The trees of a store.  Writing to them comes back when the bytes are there, so
that there is nothing to flush. -/
structure SledTrees where
  event : SledTree ByteArray ByteArray
  flagTable : SledTree ByteArray ByteArray
  frame : SledTree ByteArray ByteArray

variable {P D T H Sig : Type}

/-- Look a key up and read the value stored under it. -/
def Bincode.fetch {A : Type} (code : Bincode A)
    (tree : SledTree ByteArray ByteArray) (key : ByteArray) (missing : Result A) :
    Result A :=
  match tree key with
  | some x => raise (code.deserialize x)
  | none => missing

namespace Encoding

def creatorKey (code : Encoding P D T H Sig) (creator : P) (height : Nat) :
    ByteArray :=
  (code.display creator ++ "-" ++ toString height).toUTF8

def frameKey (_ : Encoding P D T H Sig) (frameNumber : Nat) : ByteArray :=
  (toString frameNumber).toUTF8

end Encoding

/-- A call of the store; where it fails, the writes made so far stay. -/
abbrev StoreCall := Call Failure SledTrees

namespace SledTrees

def empty : SledTrees := ⟨fun _ => none, fun _ => none, fun _ => none⟩

variable (code : Encoding P D T H Sig)

def setEvent (e : Event P D T H Sig) : StoreCall Unit := do
  let eBytes ← Call.ofExcept (raise (code.event.serialize e))
  let key := code.toVec e.hash
  modify fun trees => { trees with event := trees.event.insert key eBytes }
  let key2 := code.creatorKey e.creator e.height
  modify fun trees => { trees with event := trees.event.insert key2 eBytes }
  let frameKey := code.frameKey e.frameNumber
  let trees ← get
  let frame ← Call.ofExcept (code.frame.fetch trees.frame frameKey (.ok default))
  let record : FrameRecord H := ⟨e.hash, e.lamportTimestamp⟩
  let fBytes ← Call.ofExcept
    (raise (code.frame.serialize ⟨frame.events ++ [record]⟩))
  modify fun trees => { trees with frame := trees.frame.insert frameKey fBytes }

def getEvent (trees : SledTrees) (ex : H) : Result (Event P D T H Sig) :=
  code.event.fetch trees.event (code.toVec ex) (.error (.err .noneError))

def setFrame (frameNumber : Nat) (frame : Frame H) : StoreCall Unit := do
  let fBytes ← Call.ofExcept (raise (code.frame.serialize frame))
  let frameKey := code.frameKey frameNumber
  modify fun trees => { trees with frame := trees.frame.insert frameKey fBytes }

def getFrame (trees : SledTrees) (frameNumber : Nat) : Result (Frame H) :=
  code.frame.fetch trees.frame (code.frameKey frameNumber) (.ok default)

def setFlagTable (ex : H) (ft : FlagTable H) : StoreCall Unit := do
  let key := code.toVec ex
  let eBytes ← Call.ofExcept (raise (code.flagTable.serialize ft))
  modify fun trees => { trees with flagTable := trees.flagTable.insert key eBytes }

def getFlagTable (trees : SledTrees) (ex : H) : Result (FlagTable H) :=
  code.flagTable.fetch trees.flagTable (code.toVec ex) (.error (.err .noneError))

def getEventOfCreator (trees : SledTrees) (creator : P) (height : Nat) :
    Result (Event P D T H Sig) :=
  code.event.fetch trees.event (code.creatorKey creator height)
    (.error (.err .noneError))

end SledTrees

/-- The calls that write to the store. -/
inductive StoreWrite (P D T H Sig : Type)
  | setEvent (e : Event P D T H Sig)
  | setFrame (frameNumber : Nat) (frame : Frame H)
  | setFlagTable (ex : H) (ft : FlagTable H)

def StoreWrite.run (code : Encoding P D T H Sig) :
    StoreWrite P D T H Sig → StoreCall Unit
  | .setEvent e => SledTrees.setEvent code e
  | .setFrame frameNumber frame => SledTrees.setFrame code frameNumber frame
  | .setFlagTable ex ft => SledTrees.setFlagTable code ex ft

/-- What the store is for: four maps with nothing in common. -/
@[ext] structure StoreMaps (P D T H Sig : Type) where
  event : H → Option (Event P D T H Sig)
  eventOfCreator : P × Nat → Option (Event P D T H Sig)
  flagTable : H → Option (FlagTable H)
  frame : Nat → Option (Frame H)

namespace StoreMaps

def empty : StoreMaps P D T H Sig :=
  ⟨fun _ => none, fun _ => none, fun _ => none, fun _ => none⟩

section Writes

variable [DecidableEq P] [DecidableEq H] (maps : StoreMaps P D T H Sig)

/-- An event goes into the two maps of events, and its record into the list of its
frame. -/
def setEvent (e : Event P D T H Sig) : StoreMaps P D T H Sig :=
  let frame := (maps.frame e.frameNumber).getD default
  let record : FrameRecord H := ⟨e.hash, e.lamportTimestamp⟩
  { maps with
    event := Function.update maps.event e.hash (some e)
    eventOfCreator :=
      Function.update maps.eventOfCreator (e.creator, e.height) (some e)
    frame := Function.update maps.frame e.frameNumber
      (some ⟨frame.events ++ [record]⟩) }

def setFrame (frameNumber : Nat) (frame : Frame H) : StoreMaps P D T H Sig :=
  { maps with frame := Function.update maps.frame frameNumber (some frame) }

def setFlagTable (ex : H) (ft : FlagTable H) : StoreMaps P D T H Sig :=
  { maps with flagTable := Function.update maps.flagTable ex (some ft) }

def write : StoreWrite P D T H Sig → StoreMaps P D T H Sig
  | .setEvent e => maps.setEvent e
  | .setFrame frameNumber frame => maps.setFrame frameNumber frame
  | .setFlagTable ex ft => maps.setFlagTable ex ft

theorem setEvent_event (e : Event P D T H Sig) (ex : H) :
    (maps.setEvent e).event ex = if ex = e.hash then some e else maps.event ex :=
  Function.update_apply ..

theorem setEvent_eventOfCreator (e : Event P D T H Sig) (c : P) (height : Nat) :
    (maps.setEvent e).eventOfCreator (c, height) =
      if c = e.creator ∧ height = e.height then some e
      else maps.eventOfCreator (c, height) := by
  simp only [setEvent, Function.update_apply, Prod.mk.injEq]

theorem setEvent_frame (e : Event P D T H Sig) (frameNumber : Nat) :
    (maps.setEvent e).frame frameNumber =
      if frameNumber = e.frameNumber then
        some ⟨((maps.frame e.frameNumber).getD default).events ++
          [⟨e.hash, e.lamportTimestamp⟩]⟩
      else maps.frame frameNumber :=
  Function.update_apply ..

omit [DecidableEq P] [DecidableEq H] in
theorem setFrame_frame (number : Nat) (frame : Frame H) (frameNumber : Nat) :
    (maps.setFrame number frame).frame frameNumber =
      if frameNumber = number then some frame else maps.frame frameNumber :=
  Function.update_apply ..

omit [DecidableEq P] in
theorem setFlagTable_flagTable (key : H) (ft : FlagTable H) (ex : H) :
    (maps.setFlagTable key ft).flagTable ex =
      if ex = key then some ft else maps.flagTable ex :=
  Function.update_apply ..

end Writes

end StoreMaps

/-- What a map returns for a key; one that is not there is an error. -/
def found {A : Type} : Option A → Result A
  | some a => .ok a
  | none => .error (.err .noneError)

/-- Each read of the trees returns what the maps have; the hashes that are looked
up are among those in use. -/
structure ReadsAs (code : Encoding P D T H Sig) (used : Set H) (trees : SledTrees)
    (maps : StoreMaps P D T H Sig) : Prop where
  event : ∀ ex ∈ used, trees.getEvent code ex = found (maps.event ex)
  eventOfCreator : ∀ c height, trees.getEventOfCreator code c height =
    found (maps.eventOfCreator (c, height))
  flagTable : ∀ ex, trees.getFlagTable code ex = found (maps.flagTable ex)
  frame : ∀ frameNumber, trees.getFrame code frameNumber =
    .ok ((maps.frame frameNumber).getD default)

/-- The keys that the reads of the store go by. -/
inductive StoreKey (P H : Type)
  | event (ex : H)
  | eventOfCreator (creator : P) (height : Nat)
  | flagTable (ex : H)
  | frame (frameNumber : Nat)
deriving DecidableEq

/-- The keys that a write is about. -/
def StoreWrite.keys : StoreWrite P D T H Sig → List (StoreKey P H)
  | .setEvent e =>
      [.event e.hash, .eventOfCreator e.creator e.height, .frame e.frameNumber]
  | .setFrame frameNumber _ => [.frame frameNumber]
  | .setFlagTable ex _ => [.flagTable ex]

/-- Every other key reads as before. -/
structure KeepsOthers (code : Encoding P D T H Sig) (used : Set H)
    (keys : List (StoreKey P H)) (trees trees' : SledTrees) : Prop where
  event : ∀ ex ∈ used, .event ex ∉ keys →
    trees'.getEvent code ex = trees.getEvent code ex
  eventOfCreator : ∀ c height, .eventOfCreator c height ∉ keys →
    trees'.getEventOfCreator code c height = trees.getEventOfCreator code c height
  flagTable : ∀ ex, .flagTable ex ∉ keys →
    trees'.getFlagTable code ex = trees.getFlagTable code ex
  frame : ∀ frameNumber, .frame frameNumber ∉ keys →
    trees'.getFrame code frameNumber = trees.getFrame code frameNumber

/-- Every value can be written, and is read again as it was. -/
def Bincode.Lossless {A : Type} (code : Bincode A) : Prop :=
  ∀ value, ∃ bytes, code.serialize value = .ok bytes ∧
    code.deserialize bytes = .ok value

namespace Encoding

structure Lossless (code : Encoding P D T H Sig) : Prop where
  event : code.event.Lossless
  flagTable : code.flagTable.Lossless
  frame : code.frame.Lossless

/-- The text of a peer id and the bytes of a hash determine them, and the bytes of
a hash in use are not the text of a creator and a height. -/
structure KeepsApart (code : Encoding P D T H Sig) (used : Set H) : Prop where
  display_injective : Function.Injective code.display
  toVec_injective : Function.Injective code.toVec
  toVec_ne : ∀ ex ∈ used, ∀ c height, code.toVec ex ≠ code.creatorKey c height

variable {code : Encoding P D T H Sig}

theorem creatorKey_inj (hdisplay : Function.Injective code.display) {c c' : P}
    {height height' : Nat} :
    code.creatorKey c height = code.creatorKey c' height' ↔
      c = c' ∧ height = height' := by
  refine String.toByteArray_inj.trans ?_
  change code.display c ++ String.singleton '-' ++ toString height =
    code.display c' ++ String.singleton '-' ++ toString height' ↔ _
  rw [numbered_inj rfl, hdisplay.eq_iff]

theorem frameKey_inj {frameNumber frameNumber' : Nat} :
    code.frameKey frameNumber = code.frameKey frameNumber' ↔
      frameNumber = frameNumber' :=
  String.toByteArray_inj.trans Nat.repr_inj

end Encoding

/-- What is read after a write: the value under its key, and under the other keys
what was there. -/
theorem Bincode.fetch_insert {A : Type} {code : Bincode A} {bytes : ByteArray}
    {value : A} (h : code.deserialize bytes = .ok value)
    {tree : SledTree ByteArray ByteArray} {key key' : ByteArray}
    {missing : Result A} {same : Prop} [Decidable same]
    (hkey : key' = key ↔ same) :
    code.fetch (tree.insert key bytes) key' missing =
      if same then .ok value else code.fetch tree key' missing := by
  unfold fetch SledTree.insert
  rw [Function.update_apply]
  by_cases hsame : same
  · simp only [if_pos hsame, if_pos (hkey.mpr hsame), h, raise]
  · simp only [if_neg hsame, if_neg (mt hkey.mp hsame)]

section Calls

variable {code : Encoding P D T H Sig} {trees : SledTrees}

/-- What `set_event` writes where every value has its bytes. -/
theorem SledTrees.setEvent_outcome {e : Event P D T H Sig} {frame : Frame H}
    {eBytes fBytes : ByteArray} (hevent : code.event.serialize e = .ok eBytes)
    (hread : trees.getFrame code e.frameNumber = .ok frame)
    (hframe : code.frame.serialize
      ⟨frame.events ++ [⟨e.hash, e.lamportTimestamp⟩]⟩ = .ok fBytes) :
    (SledTrees.setEvent code e).outcome trees = (.ok (),
      { trees with
        event := (trees.event.insert (code.toVec e.hash) eBytes).insert
          (code.creatorKey e.creator e.height) eBytes
        frame := trees.frame.insert (code.frameKey e.frameNumber) fBytes }) := by
  unfold SledTrees.getFrame at hread
  simp only [SledTrees.setEvent, Call.outcome_bind, Call.outcome_ofExcept,
    Call.outcome_get, Call.outcome_modify, hevent, hread, hframe, raise]

theorem SledTrees.setFrame_outcome {frameNumber : Nat} {frame : Frame H}
    {fBytes : ByteArray} (hframe : code.frame.serialize frame = .ok fBytes) :
    (SledTrees.setFrame code frameNumber frame).outcome trees = (.ok (),
      { trees with
        frame := trees.frame.insert (code.frameKey frameNumber) fBytes }) := by
  simp only [SledTrees.setFrame, Call.outcome_bind, Call.outcome_ofExcept,
    Call.outcome_modify, hframe, raise]

theorem SledTrees.setFlagTable_outcome {ex : H} {ft : FlagTable H}
    {eBytes : ByteArray} (hft : code.flagTable.serialize ft = .ok eBytes) :
    (SledTrees.setFlagTable code ex ft).outcome trees = (.ok (),
      { trees with
        flagTable := trees.flagTable.insert (code.toVec ex) eBytes }) := by
  simp only [SledTrees.setFlagTable, Call.outcome_bind, Call.outcome_ofExcept,
    Call.outcome_modify, hft, raise]

end Calls

section Refinement

variable [DecidableEq P] [DecidableEq H] {code : Encoding P D T H Sig}
  {used : Set H} {trees trees' : SledTrees} {maps : StoreMaps P D T H Sig}

omit [DecidableEq P] [DecidableEq H] in
theorem ReadsAs.empty : ReadsAs code used .empty (.empty : StoreMaps P D T H Sig) :=
  ⟨fun _ _ => rfl, fun _ _ => rfl, fun _ => rfl, fun _ => rfl⟩

/-- An event is read under its two keys, and no other key of its tree is hit:
neither kind of key is ever one of the other kind. -/
theorem ReadsAs.setEvent (hcode : code.Lossless) (hkeys : code.KeepsApart used)
    (h : ReadsAs code used trees maps) {e : Event P D T H Sig}
    (hused : e.hash ∈ used) :
    ∃ trees', (SledTrees.setEvent code e).outcome trees = (.ok (), trees') ∧
      ReadsAs code used trees' (maps.setEvent e) := by
  obtain ⟨eBytes, heBytes, hevent⟩ := hcode.event e
  obtain ⟨fBytes, hfBytes, hframe⟩ := hcode.frame
    ⟨((maps.frame e.frameNumber).getD default).events ++
      [⟨e.hash, e.lamportTimestamp⟩]⟩
  refine ⟨_, SledTrees.setEvent_outcome heBytes (h.frame e.frameNumber) hfBytes, ?_⟩
  constructor
  case event =>
    intro ex hex
    unfold SledTrees.getEvent
    rw [Bincode.fetch_insert hevent (iff_false_intro (hkeys.toVec_ne ex hex _ _)),
      if_neg id, Bincode.fetch_insert hevent hkeys.toVec_injective.eq_iff,
      StoreMaps.setEvent_event]
    split
    · rfl
    · exact h.event ex hex
  case eventOfCreator =>
    intro c height
    have hne := (hkeys.toVec_ne e.hash hused c height).symm
    unfold SledTrees.getEventOfCreator
    rw [Bincode.fetch_insert hevent
        (Encoding.creatorKey_inj hkeys.display_injective),
      Bincode.fetch_insert hevent (iff_false_intro hne), if_neg id,
      StoreMaps.setEvent_eventOfCreator]
    split
    · rfl
    · exact h.eventOfCreator c height
  case flagTable => exact h.flagTable
  case frame =>
    intro frameNumber
    unfold SledTrees.getFrame
    rw [Bincode.fetch_insert hframe Encoding.frameKey_inj, StoreMaps.setEvent_frame]
    split
    · rfl
    · exact h.frame frameNumber

omit [DecidableEq P] [DecidableEq H] in
theorem ReadsAs.setFrame (hcode : code.Lossless)
    (h : ReadsAs code used trees maps) (frameNumber : Nat) (frame : Frame H) :
    ∃ trees', (SledTrees.setFrame code frameNumber frame).outcome trees =
        (.ok (), trees') ∧
      ReadsAs code used trees' (maps.setFrame frameNumber frame) := by
  obtain ⟨fBytes, hfBytes, hframe⟩ := hcode.frame frame
  refine ⟨_, SledTrees.setFrame_outcome hfBytes, { h with frame := ?_ }⟩
  intro number
  unfold SledTrees.getFrame
  rw [Bincode.fetch_insert hframe Encoding.frameKey_inj, StoreMaps.setFrame_frame]
  split
  · rfl
  · exact h.frame number

omit [DecidableEq P] in
theorem ReadsAs.setFlagTable (hcode : code.Lossless)
    (hkeys : code.KeepsApart used) (h : ReadsAs code used trees maps) (ex : H)
    (ft : FlagTable H) :
    ∃ trees', (SledTrees.setFlagTable code ex ft).outcome trees =
        (.ok (), trees') ∧
      ReadsAs code used trees' (maps.setFlagTable ex ft) := by
  obtain ⟨eBytes, heBytes, hft⟩ := hcode.flagTable ft
  refine ⟨_, SledTrees.setFlagTable_outcome heBytes, { h with flagTable := ?_ }⟩
  intro key
  unfold SledTrees.getFlagTable
  rw [Bincode.fetch_insert hft hkeys.toVec_injective.eq_iff,
    StoreMaps.setFlagTable_flagTable]
  split
  · rfl
  · exact h.flagTable key

/-- The hash of an event that is written is in use. -/
def StoreWrite.Uses (used : Set H) (write : StoreWrite P D T H Sig) : Prop :=
  ∀ e, write = .setEvent e → e.hash ∈ used

theorem ReadsAs.write (hcode : code.Lossless) (hkeys : code.KeepsApart used)
    (h : ReadsAs code used trees maps) {write : StoreWrite P D T H Sig}
    (hused : write.Uses used) :
    ∃ trees', (write.run code).outcome trees = (.ok (), trees') ∧
      ReadsAs code used trees' (maps.write write) := by
  cases write with
  | setEvent e => exact h.setEvent hcode hkeys (hused e rfl)
  | setFrame frameNumber frame => exact h.setFrame hcode frameNumber frame
  | setFlagTable ex ft => exact h.setFlagTable hcode hkeys ex ft

/-- The trees go on reading like the maps through any sequence of writes. -/
theorem ReadsAs.writes (hcode : code.Lossless) (hkeys : code.KeepsApart used)
    (h : ReadsAs code used trees maps) {writes : List (StoreWrite P D T H Sig)}
    (hused : ∀ write ∈ writes, write.Uses used) :
    ∃ trees', (writes.forM (StoreWrite.run code)).outcome trees = (.ok (), trees') ∧
      ReadsAs code used trees' (writes.foldl StoreMaps.write maps) := by
  induction writes generalizing trees maps with
  | nil => exact ⟨trees, rfl, h⟩
  | cons write rest ih =>
      rw [List.forall_mem_cons] at hused
      obtain ⟨trees₁, hcall, h₁⟩ := h.write hcode hkeys hused.1
      obtain ⟨trees', hrest, h'⟩ := ih h₁ hused.2
      refine ⟨trees', ?_, h'⟩
      exact (Call.outcome_bind_ok hcall).trans hrest

/-- Reads of the maps before and after a write differ in its keys only. -/
theorem ReadsAs.keepsOthers (h : ReadsAs code used trees maps)
    {write : StoreWrite P D T H Sig}
    (h' : ReadsAs code used trees' (maps.write write)) :
    KeepsOthers code used write.keys trees trees' := by
  constructor
  case event =>
    intro ex hex hkey
    rw [h.event ex hex, h'.event ex hex]
    cases write with
    | setEvent e =>
        have hne : ex ≠ e.hash := by
          rintro rfl
          exact hkey List.mem_cons_self
        rw [StoreMaps.write, StoreMaps.setEvent_event, if_neg hne]
    | setFrame | setFlagTable => rfl
  case eventOfCreator =>
    intro c height hkey
    rw [h.eventOfCreator c height, h'.eventOfCreator c height]
    cases write with
    | setEvent e =>
        have hne : ¬ (c = e.creator ∧ height = e.height) := by
          rintro ⟨rfl, rfl⟩
          exact hkey (List.mem_cons_of_mem _ List.mem_cons_self)
        rw [StoreMaps.write, StoreMaps.setEvent_eventOfCreator, if_neg hne]
    | setFrame | setFlagTable => rfl
  case flagTable =>
    intro ex hkey
    rw [h.flagTable ex, h'.flagTable ex]
    cases write with
    | setFlagTable key ft =>
        have hne : ex ≠ key := by
          rintro rfl
          exact hkey List.mem_cons_self
        rw [StoreMaps.write, StoreMaps.setFlagTable_flagTable, if_neg hne]
    | setEvent | setFrame => rfl
  case frame =>
    intro frameNumber hkey
    rw [h.frame frameNumber, h'.frame frameNumber]
    cases write with
    | setEvent e =>
        have hne : frameNumber ≠ e.frameNumber := by
          rintro rfl
          exact hkey (by simp [StoreWrite.keys])
        rw [StoreMaps.write, StoreMaps.setEvent_frame, if_neg hne]
    | setFrame number frame =>
        have hne : frameNumber ≠ number := by
          rintro rfl
          exact hkey List.mem_cons_self
        rw [StoreMaps.write, StoreMaps.setFrame_frame, if_neg hne]
    | setFlagTable => rfl

/-- Where values are coded without loss and the keys are kept apart, the calls that
write to a new store return, the reads after them are those of four maps, and one
more write leaves every key alone that it is not about. -/
theorem sled_reads_as_maps (hcode : code.Lossless) (hkeys : code.KeepsApart used)
    (writes : List (StoreWrite P D T H Sig))
    (hused : ∀ write ∈ writes, write.Uses used) :
    ∃ trees, (writes.forM (StoreWrite.run code)).outcome .empty = (.ok (), trees) ∧
      ReadsAs code used trees (writes.foldl StoreMaps.write .empty) ∧
      ∀ write : StoreWrite P D T H Sig, write.Uses used → ∃ trees',
        (write.run code).outcome trees = (.ok (), trees') ∧
          KeepsOthers code used write.keys trees trees' := by
  obtain ⟨trees, hcalls, h⟩ := ReadsAs.empty.writes hcode hkeys hused
  refine ⟨trees, hcalls, h, fun write hwrite => ?_⟩
  obtain ⟨trees', hcall, h'⟩ := h.write hcode hkeys hwrite
  exact ⟨trees', hcall, h.keepsOthers h'⟩

end Refinement

section Typed

variable [DecidableEq P] [DecidableEq H]

/-- The maps in a store whose keys are told apart by their type. -/
def SledStore.maps (store : SledStore P D T H Sig) : StoreMaps P D T H Sig :=
  { event := fun ex => store.event (.hash ex)
    eventOfCreator := fun place => store.event (.creator place.1 place.2)
    flagTable := store.flagTable
    frame := store.frame }

section Reads

omit [DecidableEq P] [DecidableEq H]

variable (store : SledStore P D T H Sig)

theorem SledStore.getEvent_eq_found (ex : H) :
    store.getEvent ex = found (store.maps.event ex) := by
  change _ = found (store.event (.hash ex))
  unfold SledStore.getEvent
  cases store.event (.hash ex) with
  | none => rfl
  | some e => rfl

theorem SledStore.getEventOfCreator_eq_found (c : P) (height : Nat) :
    store.getEventOfCreator c height =
      found (store.maps.eventOfCreator (c, height)) := by
  change _ = found (store.event (.creator c height))
  unfold SledStore.getEventOfCreator
  cases store.event (.creator c height) with
  | none => rfl
  | some e => rfl

theorem SledStore.getFlagTable_eq_found (ex : H) :
    store.getFlagTable ex = found (store.maps.flagTable ex) := by
  change _ = found (store.flagTable ex)
  unfold SledStore.getFlagTable
  cases store.flagTable ex with
  | none => rfl
  | some ft => rfl

end Reads

def SledStore.write (store : SledStore P D T H Sig) :
    StoreWrite P D T H Sig → SledStore P D T H Sig
  | .setEvent e => store.setEvent e
  | .setFrame frameNumber frame => store.setFrame frameNumber frame
  | .setFlagTable ex ft => store.setFlagTable ex ft

theorem SledStore.maps_setEvent (store : SledStore P D T H Sig)
    (e : Event P D T H Sig) :
    (store.setEvent e).maps = store.maps.setEvent e := by
  have hevent : (store.setEvent e).maps.event = (store.maps.setEvent e).event := by
    ext1 ex
    exact (store.setEvent_event_hash e ex).trans
      (store.maps.setEvent_event e ex).symm
  have hplace : (store.setEvent e).maps.eventOfCreator =
      (store.maps.setEvent e).eventOfCreator := by
    ext1 ⟨c, height⟩
    exact (store.setEvent_event_creator e c height).trans
      (store.maps.setEvent_eventOfCreator e c height).symm
  exact StoreMaps.ext hevent hplace rfl rfl

theorem SledStore.maps_write (store : SledStore P D T H Sig)
    (write : StoreWrite P D T H Sig) :
    (store.write write).maps = store.maps.write write := by
  cases write with
  | setEvent e => exact store.maps_setEvent e
  | setFrame | setFlagTable => rfl

/-- The store that the rest of the development works with reads like the trees. -/
theorem sled_reads_as_store {code : Encoding P D T H Sig} {used : Set H}
    (hcode : code.Lossless) (hkeys : code.KeepsApart used)
    {writes : List (StoreWrite P D T H Sig)}
    (hused : ∀ write ∈ writes, write.Uses used) :
    ∃ trees, (writes.forM (StoreWrite.run code)).outcome .empty = (.ok (), trees) ∧
      (∀ ex ∈ used, trees.getEvent code ex =
        (writes.foldl SledStore.write .empty).getEvent ex) ∧
      (∀ c height, trees.getEventOfCreator code c height =
        (writes.foldl SledStore.write .empty).getEventOfCreator c height) ∧
      (∀ ex, trees.getFlagTable code ex =
        (writes.foldl SledStore.write .empty).getFlagTable ex) ∧
      ∀ frameNumber, trees.getFrame code frameNumber =
        .ok ((writes.foldl SledStore.write .empty).getFrame frameNumber) := by
  obtain ⟨trees, hcalls, h⟩ := ReadsAs.empty.writes hcode hkeys hused
  have hmaps : writes.foldl StoreMaps.write (SledStore.maps .empty) =
      (writes.foldl SledStore.write .empty).maps :=
    List.foldl_hom SledStore.maps fun store write => (store.maps_write write).symm
  change ReadsAs code used trees
    (writes.foldl StoreMaps.write (SledStore.maps .empty)) at h
  rw [hmaps] at h
  refine ⟨trees, hcalls, fun ex hex => ?_, fun c height => ?_, fun ex => ?_,
    h.frame⟩
  · rw [h.event ex hex, SledStore.getEvent_eq_found]
  · rw [h.eventOfCreator c height, SledStore.getEventOfCreator_eq_found]
  · rw [h.flagTable ex, SledStore.getFlagTable_eq_found]

end Typed

section Codes

/-- A code gives the bytes of a value, and reads it off the front of its bytes. -/
def Bincode.ofCode {A : Type} (code : Code A) : Bincode A where
  serialize value := .ok (code.write value).toByteArray
  deserialize bytes :=
    match code.read bytes.data.toList with
    | some (value, _) => .ok value
    | none => .error (.bincode "failed to fill whole buffer")

theorem Bincode.ofCode_lossless {A : Type} (code : Code A) :
    (Bincode.ofCode code).Lossless := by
  intro value
  refine ⟨_, rfl, ?_⟩
  have hread := code.read_write value []
  rw [List.append_nil] at hread
  unfold Bincode.ofCode
  simp only [List.data_toByteArray, hread]

/-- A map is written entry by entry. -/
def tableCode {K A : Type} [DecidableEq K] (key : Code K) (value : Code A) :
    Code (Table K A) :=
  let entry : Code (Sigma fun _ : K => A) :=
    (key.pair value).via (fun e => (e.1, e.2)) (fun p => ⟨p.1, p.2⟩) fun _ => rfl
  entry.list.via AList.entries
    (fun entries => if h : entries.keys.Nodup then ⟨entries, h⟩ else ∅)
    fun table => dif_pos table.nodupKeys

/-- The fields of an event are written in the order in which they are declared. -/
def eventCode [DecidableEq P] (peer : Code P) (data : Code D) (transaction : Code T)
    (hash : Code H) (signature : Code Sig) : Code (Event P D T H Sig) :=
  (peer.pair (Code.nat.pair (hash.pair (hash.pair (Code.nat.pair (data.list.pair
    (transaction.list.pair (hash.pair ((tableCode peer signature).pair
      Code.nat))))))))).via
    (fun e => (e.creator, e.height, e.selfParent, e.otherParent,
      e.lamportTimestamp, e.transactions, e.internalTransactions, e.hash,
      e.signatures, e.frameNumber))
    (fun (creator, height, selfParent, otherParent, lamportTimestamp, transactions,
        internalTransactions, hash, signatures, frameNumber) =>
      { creator, height, selfParent, otherParent, lamportTimestamp, transactions,
        internalTransactions, hash, signatures, frameNumber })
    fun _ => rfl

def frameCode (hash : Code H) : Code (Frame H) :=
  let record : Code (FrameRecord H) :=
    (hash.pair Code.nat).via (fun r => (r.hash, r.lamportTime))
      (fun p => ⟨p.1, p.2⟩) fun _ => rfl
  record.list.via Frame.events Frame.mk fun _ => rfl

/-- The encoding of a store whose values are written field by field. -/
def Encoding.ofCodes [DecidableEq P] [DecidableEq H] (display : P → String)
    (toVec : H → ByteArray) (peer : Code P) (data : Code D) (transaction : Code T)
    (hash : Code H) (signature : Code Sig) : Encoding P D T H Sig where
  display := display
  toVec := toVec
  event := .ofCode (eventCode peer data transaction hash signature)
  flagTable := .ofCode (tableCode hash Code.nat)
  frame := .ofCode (frameCode hash)

theorem Encoding.ofCodes_lossless [DecidableEq P] [DecidableEq H]
    (display : P → String) (toVec : H → ByteArray) (peer : Code P) (data : Code D)
    (transaction : Code T) (hash : Code H) (signature : Code Sig) :
    (Encoding.ofCodes display toVec peer data transaction hash signature).Lossless :=
  ⟨Bincode.ofCode_lossless _, Bincode.ofCode_lossless _, Bincode.ofCode_lossless _⟩

end Codes

namespace DashedPeers

abbrev Digest := Vector UInt8 32

/-- The digest with 32 equal bytes. -/
def digest (b : UInt8) : Digest := Vector.replicate 32 b

/-- Peer ids are texts, which may have dashes in them. -/
def encoding : Encoding String Nat Unit Digest Unit :=
  let char : Code Char := Code.nat.via Char.toNat Char.ofNat Char.ofNat_toNat
  let text : Code String :=
    char.list.via String.toList String.ofList fun _ => String.ofList_toList
  .ofCodes id (fun ex => ⟨ex.toArray⟩) text Code.nat Code.unit
    (Code.byte.vector 32) Code.unit

/-- The event of the peer `a-1` at height 2 and that of the peer `a` at height 12,
with a frame and a flag table. -/
def writes : List (StoreWrite String Nat Unit Digest Unit) :=
  [.setEvent { Event.new "a-1" 2 (digest 0) (digest 0) 1 [] [] with hash := digest 0 },
    .setEvent { Event.new "a" 12 (digest 0) (digest 0) 2 [7] [] with hash := digest 1 },
    .setFrame 1 ⟨[]⟩, .setFlagTable (digest 1) (AList.singleton (digest 0) 0)]

theorem encoding_keepsApart : encoding.KeepsApart {digest 0, digest 1} where
  display_injective := Function.injective_id
  toVec_injective := by
    intro ex ex' h
    exact Vector.toArray_inj.mp (ByteArray.mk.inj h)
  toVec_ne := by
    -- the bytes of either digest are a text without a dash
    have hdash : ∀ b : UInt8, b = 0 ∨ b = 1 → ∃ text : String,
        encoding.toVec (digest b) = text.toUTF8 ∧ '-' ∉ text.toList := by
      rintro b (rfl | rfl)
      · exact ⟨String.ofList (List.replicate 32 (Char.ofNat 0)), by decide +kernel⟩
      · exact ⟨String.ofList (List.replicate 32 (Char.ofNat 1)), by decide +kernel⟩
    rintro ex hex c height h
    obtain ⟨b, hb, rfl⟩ : ∃ b : UInt8, (b = 0 ∨ b = 1) ∧ ex = digest b := by
      rcases hex with rfl | rfl
      · exact ⟨0, Or.inl rfl, rfl⟩
      · exact ⟨1, Or.inr rfl, rfl⟩
    obtain ⟨text, htext, hnone⟩ := hdash b hb
    have heq := String.toByteArray_inj.mp (htext.symm.trans h)
    apply hnone
    rw [heq, String.toList_append, String.toList_append]
    simp

theorem dashed_peers_kept_apart :
    ∃ trees, (writes.forM (StoreWrite.run encoding)).outcome .empty =
        (.ok (), trees) ∧
      ReadsAs encoding {digest 0, digest 1} trees
        (writes.foldl StoreMaps.write .empty) := by
  have hused : ∀ write ∈ writes, write.Uses {digest 0, digest 1} := by
    intro write hmem e heq
    subst heq
    simp only [writes, List.mem_cons, StoreWrite.setEvent.injEq, reduceCtorEq,
      List.not_mem_nil, or_false] at hmem
    rcases hmem with rfl | rfl
    · exact Or.inl rfl
    · exact Or.inr rfl
  obtain ⟨trees, hcalls, h, -⟩ := sled_reads_as_maps
    (Encoding.ofCodes_lossless _ _ _ _ _ _ _) encoding_keepsApart writes hused
  exact ⟨trees, hcalls, h⟩

end DashedPeers

end ConsensusDag
