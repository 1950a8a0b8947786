/-
Flag tables: the roots an event sees, with their frames, and the two merges of
the parents' tables.
-/
import ConsensusDag.Peer

namespace ConsensusDag

open AssocTables

/-- From event hashes to frame numbers. -/
abbrev FlagTable (H : Type) := Table H Nat

/-- From creators to frame numbers. -/
abbrev CreatorFlagTable (P : Type) := Table P Nat

variable {H P : Type}

/-- Keep the entries of either table whose frame is `frameNumber`. -/
def strictMergeFlagTable [DecidableEq H] (first second : FlagTable H)
    (frameNumber : Nat) : FlagTable H :=
  let result : FlagTable H := ∅
  let result := first.insertWhere result fun _ value => value == frameNumber
  second.insertWhere result fun _ value => value == frameNumber

/-- The first table is filtered by the frame number; the second is not: its
entries are kept where the first table has no entry, or a later one. -/
def openMergeFlagTable [DecidableEq H] (first second : FlagTable H)
    (frameNumber : Nat) : FlagTable H :=
  let result : FlagTable H := ∅
  let result := first.insertWhere result fun _ value => frameNumber ≤ value
  second.insertWhere result fun key value =>
    match first.lookup key with
    | some number => value < number
    | none => true

def minFrame (ft : CreatorFlagTable P) : Nat :=
  match ft.minValue? with
  | none => 0
  | some x => x

/-- A table with one entry, such as that of a leaf event. -/
theorem lookup_insert_empty [DecidableEq H] {key k : H} {f f₀ : Nat}
    (h : (AList.insert k f₀ ∅ : FlagTable H).lookup key = some f) :
    key = k ∧ f = f₀ := by
  by_cases hkey : key = k
  · rw [hkey, AList.lookup_insert] at h
    exact ⟨hkey, (Option.some.inj h).symm⟩
  · rw [AList.lookup_insert_ne hkey, AList.lookup_empty] at h
    cases h

section Merge

variable [DecidableEq H] {first second : FlagTable H} {frameNumber : Nat}
  {key : H} {value : Nat}

/-- The strict merge keeps exactly the entries of the given frame. -/
theorem lookup_strictMergeFlagTable :
    (strictMergeFlagTable first second frameNumber).lookup key = some value ↔
      value = frameNumber ∧
        (first.lookup key = some value ∨ second.lookup key = some value) := by
  unfold strictMergeFlagTable
  simp only [Table.lookup_insertWhere, AList.lookup_empty, beq_iff_eq]
  cases hfirst : first.lookup key <;> cases hsecond : second.lookup key
  · simp
  · simp only [reduceCtorEq, false_or]
    split <;> simp <;> omega
  · simp only [reduceCtorEq, or_false]
    split <;> simp <;> omega
  · rename_i a b
    simp only [Option.some.injEq]
    split
    · simp only [Option.some.injEq]
      omega
    · split <;> simp <;> omega

/-- An entry of the second table stays where the first has none or a later one,
at any frame; an entry of the first stays from `frameNumber` on, unless the second
has an earlier one. -/
theorem lookup_openMergeFlagTable :
    (openMergeFlagTable first second frameNumber).lookup key = some value ↔
      (second.lookup key = some value ∧
        ∀ number, first.lookup key = some number → value < number) ∨
      (first.lookup key = some value ∧ frameNumber ≤ value ∧
        ∀ number, second.lookup key = some number → value ≤ number) := by
  unfold openMergeFlagTable
  simp only [Table.lookup_insertWhere, AList.lookup_empty]
  cases hfirst : first.lookup key <;> cases hsecond : second.lookup key
  · simp
  · simp
  · simp only [decide_eq_true_eq, reduceCtorEq, false_and, false_or]
    split <;> simp <;> omega
  · rename_i a b
    simp only [decide_eq_true_eq, Option.some.injEq]
    split
    · simp only [Option.some.injEq, forall_eq']
      omega
    · split <;> simp <;> omega

/-- Every entry of the open merge is an entry of one of the tables. -/
theorem lookup_of_lookup_openMergeFlagTable
    (h : (openMergeFlagTable first second frameNumber).lookup key = some value) :
    first.lookup key = some value ∨ second.lookup key = some value := by
  rcases lookup_openMergeFlagTable.mp h with ⟨hsecond, -⟩ | ⟨hfirst, -, -⟩
  · exact Or.inr hsecond
  · exact Or.inl hfirst

/-- On tables that agree, the open merge keeps every entry from the given frame
on. -/
theorem lookup_openMergeFlagTable_of_le
    (hagree : ∀ a b, first.lookup key = some a → second.lookup key = some b →
      a = b)
    (h : first.lookup key = some value ∨ second.lookup key = some value)
    (hle : frameNumber ≤ value) :
    (openMergeFlagTable first second frameNumber).lookup key = some value := by
  rw [lookup_openMergeFlagTable]
  cases hfirst : first.lookup key with
  | none =>
      rw [hfirst] at h
      refine Or.inl ⟨h.resolve_left (by simp), fun number hnumber => ?_⟩
      cases hnumber
  | some a =>
      have ha : a = value := h.elim
        (fun hkey => Option.some.inj (hfirst.symm.trans hkey))
        (hagree a value hfirst)
      subst ha
      exact Or.inr ⟨rfl, hle, fun number hnumber =>
        Nat.le_of_eq (hagree a number hfirst hnumber)⟩

end Merge

/-- The minimum over a table that is not empty. -/
theorem minFrame_spec [DecidableEq P] {ft : CreatorFlagTable P}
    (hne : ft.entries ≠ []) :
    (∃ c, ft.lookup c = some (minFrame ft)) ∧
      ∀ c f, ft.lookup c = some f → minFrame ft ≤ f := by
  unfold minFrame
  cases hmin : ft.minValue? with
  | none => exact absurd (Table.minValue?_eq_none hmin) hne
  | some x => exact Table.minValue?_eq_some hmin

end ConsensusDag
