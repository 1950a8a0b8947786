/-
The loops over flag tables against what their comments promise: the open merge
of two tables, the greatest frame of each creator, and what the second loop does
with an event it does not find.
-/
import Mathlib.Order.Bounds.Basic
import ConsensusDag.InsertEvent

namespace ConsensusDag

open AssocTables

section OpenMerge

variable {H : Type} [DecidableEq H] {first second : FlagTable H}
  {frameNumber : Nat} {key : H} {value : Nat}

/-- The two tables list the same frame for a key that both have. -/
def FlagTable.Agree (first second : FlagTable H) : Prop :=
  ∀ key a b, first.lookup key = some a → second.lookup key = some b → a = b

theorem FlagTable.Agree.symm (h : first.Agree second) : second.Agree first :=
  fun key a b ha hb => (h key b a hb ha).symm

/-- What the comment on the open merge asks for, with what follows from it. -/
structure MergesOpenly (first second : FlagTable H) (frameNumber : Nat) : Prop where
  entries : ∀ key value,
    (openMergeFlagTable first second frameNumber).lookup key = some value ↔
      (first.lookup key = some value ∨ second.lookup key = some value) ∧
        frameNumber ≤ value
  order : ∀ key, (openMergeFlagTable second first frameNumber).lookup key =
    (openMergeFlagTable first second frameNumber).lookup key
  strict : ∀ key value,
    (strictMergeFlagTable first second frameNumber).lookup key = some value ↔
      (openMergeFlagTable first second frameNumber).lookup key = some value ∧
        value = frameNumber
  above : ∀ key value,
    (openMergeFlagTable first second frameNumber).lookup key = some value →
      frameNumber ≤ value

/-- The entries below `frameNumber` of the second table are entries of the first. -/
def FlagTable.LowIn (frameNumber : Nat) (second first : FlagTable H) : Prop :=
  ∀ key value, second.lookup key = some value → value < frameNumber →
    key ∈ first

theorem entries_of_lowIn (hagree : first.Agree second)
    (hlow : second.LowIn frameNumber first) (key : H) (value : Nat) :
    (openMergeFlagTable first second frameNumber).lookup key = some value ↔
      (first.lookup key = some value ∨ second.lookup key = some value) ∧
        frameNumber ≤ value := by
  constructor
  · intro h
    have hmem := lookup_of_lookup_openMergeFlagTable h
    refine ⟨hmem, ?_⟩
    rcases lookup_openMergeFlagTable.mp h with ⟨hsecond, hlater⟩ | ⟨-, hle, -⟩
    · by_contra hlt
      -- the key is in the first table, with a frame that is not later
      obtain ⟨number, hnumber⟩ := Option.isSome_iff_exists.mp
        (AList.lookup_isSome.mpr (hlow key value hsecond (Nat.lt_of_not_le hlt)))
      have hsame := hagree key number value hnumber hsecond
      have := hlater number hnumber
      omega
    · exact hle
  · rintro ⟨hmem, hle⟩
    exact lookup_openMergeFlagTable_of_le (hagree key) hmem hle

/-- An entry of one table below the frame number escapes where the other table
does not have its key. -/
theorem lowIn_of_entries
    (h : ∀ key value,
      (openMergeFlagTable first second frameNumber).lookup key = some value →
        frameNumber ≤ value) : second.LowIn frameNumber first := by
  intro key value hsecond hlt
  by_contra hnone
  have hkept := h key value (lookup_openMergeFlagTable.mpr
    (Or.inl ⟨hsecond, fun number hnumber =>
      absurd (AList.lookup_isSome.mp (by rw [hnumber]; rfl)) hnone⟩))
  omega

/-- On tables that agree, the open merge does what its comment says exactly where
each entry below the frame number has its key in both tables. -/
theorem mergesOpenly_iff (first second : FlagTable H) (frameNumber : Nat)
    (hagree : first.Agree second) :
    MergesOpenly first second frameNumber ↔
      second.LowIn frameNumber first ∧ first.LowIn frameNumber second := by
  constructor
  · intro h
    refine ⟨lowIn_of_entries h.above, lowIn_of_entries fun key value hvalue => ?_⟩
    rw [h.order] at hvalue
    exact h.above key value hvalue
  · rintro ⟨hsecond, hfirst⟩
    have hentries := entries_of_lowIn hagree hsecond
    refine ⟨hentries, fun key => ?_, fun key value => ?_, fun key value hvalue => ?_⟩
    · refine Option.ext fun value => ?_
      rw [entries_of_lowIn hagree.symm hfirst, hentries, or_comm]
    · rw [lookup_strictMergeFlagTable, hentries]
      constructor
      · rintro ⟨rfl, hmem⟩
        exact ⟨⟨hmem, Nat.le_refl _⟩, rfl⟩
      · rintro ⟨⟨hmem, -⟩, rfl⟩
        exact ⟨rfl, hmem⟩
    · exact ((hentries key value).mp hvalue).2

/-- An entry of frame 0 of the second table is in the merge from frame 1 on. -/
theorem openMerge_keeps_earlier :
    ¬ ∀ (first second : FlagTable Nat) (frameNumber : Nat), first.Agree second →
      MergesOpenly first second frameNumber := by
  intro hclaim
  have hagree : FlagTable.Agree (∅ : FlagTable Nat) (AList.singleton 7 0) :=
    fun _ _ _ h => by cases h
  have hlow := (hclaim ∅ (AList.singleton 7 0) 1 hagree).above 7 0 (by decide)
  exact absurd hlow (by decide)

/-- A table with an entry of frame 0 and a later one. -/
def twoEntries (k later : Nat) : FlagTable Nat :=
  AList.insert k later (AList.insert 5 0 ∅)

theorem lookup_twoEntries {k later entry frame : Nat}
    (h : (twoEntries k later).lookup entry = some frame) :
    entry = k ∧ frame = later ∨ entry = 5 ∧ frame = 0 := by
  by_cases hentry : entry = k
  · rw [twoEntries, hentry, AList.lookup_insert] at h
    exact Or.inl ⟨hentry, (Option.some.inj h).symm⟩
  · rw [twoEntries, AList.lookup_insert_ne hentry] at h
    exact Or.inr (lookup_insert_empty h)

/-- Two tables that share their entry of frame 0 merge as they should from frame 1
on. -/
theorem mergesOpenly_twoEntries : MergesOpenly (twoEntries 7 1) (twoEntries 9 2) 1 := by
  have hagree : (twoEntries 7 1).Agree (twoEntries 9 2) := by
    intro entry a b ha hb
    have hfirst := lookup_twoEntries ha
    have hsecond := lookup_twoEntries hb
    omega
  refine (mergesOpenly_iff _ _ 1 hagree).mpr ⟨?_, ?_⟩
  all_goals
    intro entry frame hframe hlt
    have hshared : entry = 5 := by
      have hlookup := lookup_twoEntries hframe
      omega
    rw [hshared]
    decide

end OpenMerge

section CreatorTables

variable {P D T H PK SK Sig : Type} [DecidableEq P] [DecidableEq H]
  {env : Env P D T H PK SK Sig} {store : SledStore P D T H Sig} {ft : FlagTable H}
  {least : Nat}

/-- The frames that a flag table lists for the stored events of a creator. -/
def SledStore.creatorFrames (store : SledStore P D T H Sig) (ft : FlagTable H)
    (c : P) : Set Nat :=
  {value | ∃ key e, ft.lookup key = some value ∧
    store.event (.hash key) = some e ∧ e.creator = c}

omit [DecidableEq P] in
theorem mem_creatorPairs_iff_frames {c : P} {value : Nat} :
    (c, value) ∈ ft.entries.filterMap (store.creatorPair least) ↔
      value ∈ store.creatorFrames ft c ∧ least ≤ value := by
  rw [SledStore.mem_creatorPairs]
  constructor
  · rintro ⟨key, e, hlookup, hle, he, hcreator⟩
    exact ⟨⟨key, e, hlookup, he, hcreator⟩, hle⟩
  · rintro ⟨⟨key, e, hlookup, he, hcreator⟩, hle⟩
    exact ⟨key, e, hlookup, hle, he, hcreator⟩

theorem lookup_maxTable_creatorPairs {c : P} {f : Nat} :
    (Table.maxTable (ft.entries.filterMap (store.creatorPair least))).lookup c =
      some f ↔ least ≤ f ∧ IsGreatest (store.creatorFrames ft c) f := by
  rw [Table.lookup_maxTable_iff, mem_creatorPairs_iff_frames]
  simp only [mem_creatorPairs_iff_frames]
  constructor
  · rintro ⟨⟨hmem, hle⟩, hmax⟩
    refine ⟨hle, hmem, fun other hother => ?_⟩
    rcases Nat.le_total least other with hother' | hother'
    · exact hmax other ⟨hother, hother'⟩
    · exact hother'.trans hle
  · rintro ⟨hle, hmem, hmax⟩
    exact ⟨⟨hmem, hle⟩, fun other hother => hmax hother.1⟩

/-- With every event of the table in the store, the loop keeps the greatest frame
of each creator that has one from `least` on, and the least of them is the last
frame that all of these creators have reached. -/
theorem creatorFlagTable_greatest (env : Env P D T H PK SK Sig) (least : Nat)
    (hstored : ∀ key value, ft.lookup key = some value →
      ∃ e, store.event (.hash key) = some e) :
    ∃ t, store.deriveCreatorFlagTable env ft least = .ok t ∧
      (∀ c, c ∈ t ↔ ∃ value ∈ store.creatorFrames ft c, least ≤ value) ∧
      (∀ c f, t.lookup c = some f ↔
        c ∈ t ∧ IsGreatest (store.creatorFrames ft c) f) ∧
      (t.entries ≠ [] → IsGreatest
        {F | ∀ c ∈ t, ∃ value ∈ store.creatorFrames ft c, F ≤ value}
        (minFrame t)) := by
  refine ⟨_, SledStore.deriveCreatorFlagTable_eq fun key value hlookup _ =>
    hstored key value hlookup, fun c => ?_, fun c f => ?_, fun hne => ?_⟩
  · rw [Table.mem_maxTable_iff]
    simp only [mem_creatorPairs_iff_frames]
  · rw [lookup_maxTable_creatorPairs, Table.mem_maxTable_iff]
    simp only [mem_creatorPairs_iff_frames]
    constructor
    · rintro ⟨hle, hmax⟩
      exact ⟨⟨f, hmax.1, hle⟩, hmax⟩
    · rintro ⟨⟨value, hvalue, hle⟩, hmax⟩
      exact ⟨hle.trans (hmax.2 hvalue), hmax⟩
  · obtain ⟨⟨c₀, hc₀⟩, hmin⟩ := minFrame_spec hne
    constructor
    · intro c hc
      obtain ⟨f, hf⟩ := Option.isSome_iff_exists.mp (AList.lookup_isSome.mpr hc)
      exact ⟨f, (lookup_maxTable_creatorPairs.mp hf).2.1, hmin c f hf⟩
    · intro F hF
      -- the creator whose greatest frame is the minimum
      have hmem := AList.lookup_isSome.mp (show (AList.lookup c₀ _).isSome from by
        rw [hc₀]; rfl)
      obtain ⟨value, hvalue, hle⟩ := hF c₀ hmem
      exact hle.trans ((lookup_maxTable_creatorPairs.mp hc₀).2.2 hvalue)

end CreatorTables

namespace TwoPeers

/-- The leaf event of the first peer and its first event, at frames 0 and 1. -/
def ownRoots : FlagTable Nat := AList.insert 2 1 (AList.insert 1 0 ∅)

theorem creatorFlagTable_ownRoots :
    ∃ t, (after (start 0) [b₁, a₁]).store.deriveCreatorFlagTable env ownRoots 0 =
        .ok t ∧
      ∀ c f, t.lookup c = some f ↔ c ∈ t ∧
        IsGreatest ((after (start 0) [b₁, a₁]).store.creatorFrames ownRoots c)
          f := by
  have hstored : ∀ key value, ownRoots.lookup key = some value →
      ∃ e, (after (start 0) [b₁, a₁]).store.event (.hash key) = some e := by
    intro key value hlookup
    by_cases hkey : key = 2
    · subst hkey
      exact Option.isSome_iff_exists.mp (by decide +kernel)
    · rw [ownRoots, AList.lookup_insert_ne hkey] at hlookup
      obtain ⟨rfl, -⟩ := lookup_insert_empty hlookup
      exact Option.isSome_iff_exists.mp (by decide +kernel)
  obtain ⟨t, ht, -, hmax, -⟩ := creatorFlagTable_greatest env 0 hstored
  exact ⟨t, ht, hmax⟩

end TwoPeers

section MissingEvents

variable {P D T H PK SK Sig : Type} [DecidableEq P] [DecidableEq H]
  {env : Env P D T H PK SK Sig} {store : SledStore P D T H Sig}
  {ft ft' : FlagTable H} {least : Nat}

/-- `NoneError` against `NoneError` needs more stack than there is. -/
theorem Error.eq_noneError_noneError (depth : Nat) :
    Error.eq depth .noneError .noneError = .error .stackOverflow := by
  induction depth with
  | zero => rfl
  | succ depth ih => exact ih

/-- A comparison of two errors ends for every pair but `NoneError` with itself. -/
theorem Error.eq_ends_iff (left right : Error) :
    (∃ depth result, Error.eq depth left right = .ok result) ↔
      ¬ (left = .noneError ∧ right = .noneError) := by
  constructor
  · rintro ⟨depth, result, hresult⟩ ⟨rfl, rfl⟩
    rw [Error.eq_noneError_noneError] at hresult
    cases hresult
  · intro h
    -- one call, or a second one with the two errors swapped
    refine ⟨2, ?_⟩
    cases left <;> cases right <;>
      first
      | exact absurd ⟨rfl, rfl⟩ h
      | exact ⟨_, rfl⟩

/-- The table `ft'` lists what `ft` lists for stored events. -/
def FlagTable.WithoutMissing (store : SledStore P D T H Sig) (ft ft' : FlagTable H) :
    Prop :=
  ∀ key value, ft'.lookup key = some value ↔ ft.lookup key = some value ∧
    ∃ e, store.event (.hash key) = some e

omit [DecidableEq H] in
/-- A missing event in the range of the loop ends it without a table. -/
theorem deriveStep_missing {key : H} {value : Nat} (hle : least ≤ value)
    (hnone : store.event (.hash key) = none) (acc : CreatorFlagTable P) :
    store.deriveStep env least acc key value = .error .stackOverflow := by
  have hget : store.getEvent key = .error (.err .noneError) := by
    unfold SledStore.getEvent
    rw [hnone]
  simp only [SledStore.deriveStep, hle, ↓reduceIte, hget,
    Error.eq_noneError_noneError, bind, Except.bind]

theorem stored_of_derive {t : CreatorFlagTable P}
    (h : store.deriveCreatorFlagTable env ft least = .ok t) {key : H} {value : Nat}
    (hlookup : ft.lookup key = some value) (hle : least ≤ value) :
    ∃ e, store.event (.hash key) = some e := by
  cases he : store.event (.hash key) with
  | some e => exact ⟨e, rfl⟩
  | none =>
      exfalso
      have hmem := Table.mem_entries_iff_lookup.mpr hlookup
      refine Result.foldlM_induct (I := fun done _ => ⟨key, value⟩ ∉ done) h
        List.not_mem_nil ?_ hmem
      intro done entry acc acc' _ hdone hbody
      rw [List.mem_append, List.mem_singleton]
      rintro (hold | rfl)
      · exact hdone hold
      · rw [deriveStep_missing hle he] at hbody
        cases hbody

omit [DecidableEq P] in
/-- The loop reads the frames of stored events only. -/
theorem creatorFrames_withoutMissing (h : ft.WithoutMissing store ft') (c : P) :
    store.creatorFrames ft' c = store.creatorFrames ft c := by
  ext value
  constructor
  · rintro ⟨key, e, hlookup, he, hcreator⟩
    exact ⟨key, e, ((h key value).mp hlookup).1, he, hcreator⟩
  · rintro ⟨key, e, hlookup, he, hcreator⟩
    exact ⟨key, e, (h key value).mpr ⟨hlookup, e, he⟩, he, hcreator⟩

/-- Two errors can be compared except where both are `NoneError`; and missing
events are passed over only below the frame where the loop starts to look
entries up, on a stack of any depth. -/
theorem missing_tolerated_iff :
    (∀ left right : Error,
      (∃ depth result, Error.eq depth left right = .ok result ∧
          (left = .noneError → right = .noneError → result = true)) ↔
        ¬ (left = .noneError ∧ right = .noneError)) ∧
    ∀ (env : Env P D T H PK SK Sig) (store : SledStore P D T H Sig)
      (ft : FlagTable H) (least : Nat),
      (∃ t, store.deriveCreatorFlagTable env ft least = .ok t ∧
          ∀ ft', ft.WithoutMissing store ft' →
            ∃ t', store.deriveCreatorFlagTable env ft' least = .ok t' ∧
              ∀ c, t'.lookup c = t.lookup c) ↔
        ∀ key value, ft.lookup key = some value → least ≤ value →
          ∃ e, store.event (.hash key) = some e := by
  refine ⟨fun left right => ?_, fun env store ft least => ?_⟩
  · rw [← Error.eq_ends_iff]
    constructor
    · rintro ⟨depth, result, hresult, -⟩
      exact ⟨depth, result, hresult⟩
    · rintro ⟨depth, result, hresult⟩
      refine ⟨depth, result, hresult, ?_⟩
      rintro rfl rfl
      rw [Error.eq_noneError_noneError] at hresult
      cases hresult
  · constructor
    · rintro ⟨t, ht, -⟩ key value hlookup hle
      exact stored_of_derive ht hlookup hle
    · intro hstored
      refine ⟨_, SledStore.deriveCreatorFlagTable_eq hstored, fun ft' hft' => ?_⟩
      refine ⟨_, SledStore.deriveCreatorFlagTable_eq fun key value hlookup _ =>
        ((hft' key value).mp hlookup).2, fun c => Option.ext fun f => ?_⟩
      rw [lookup_maxTable_creatorPairs, lookup_maxTable_creatorPairs,
        creatorFrames_withoutMissing hft']

/-- On an empty store a table with one entry sends the loop into a comparison
that no stack is deep enough for. -/
theorem TwoPeers.missing_not_tolerated :
    ¬ ∀ (store : SledStore Nat Nat Unit Nat Unit) (ft : FlagTable Nat)
      (least : Nat), ∃ depth t, store.deriveCreatorFlagTable
        { TwoPeers.env with stackDepth := depth } ft least = .ok t := by
  intro hclaim
  obtain ⟨depth, t, ht⟩ := hclaim SledStore.empty (AList.insert 1 0 ∅) 0
  obtain ⟨e, he⟩ := stored_of_derive ht (AList.lookup_insert _) (Nat.le_refl 0)
  cases he

end MissingEvents

end ConsensusDag
