/-
Loops over finite tables.  A table is a list of entries with distinct keys and
its loops visit the entries in that order, so a statement about every table is
a statement about every order in which the entries of a map can be visited.
-/
import Mathlib.Data.Finset.Card
import Mathlib.Data.List.AList

namespace AssocTables

universe u v

/-- A finite map, with the order in which its entries are visited. -/
abbrev Table (K : Type u) (A : Type v) := AList fun _ : K => A

namespace Table

variable {K : Type u} {A : Type v} [DecidableEq K]

/-- Insert into `result` the entries of `source` that pass the test. -/
def insertWhere (source result : Table K A) (keep : K → A → Bool) : Table K A :=
  source.entries.foldl
    (fun acc entry =>
      if keep entry.1 entry.2 then acc.insert entry.1 entry.2 else acc)
    result

/-- Insert `key` only where it raises the stored value or is new. -/
def insertMax (t : Table K Nat) (key : K) (value : Nat) : Table K Nat :=
  match t.lookup key with
  | some old => if old < value then t.insert key value else t
  | none => t.insert key value

/-- The least value of a table, `none` for the empty table. -/
def minValue? (t : Table K Nat) : Option Nat :=
  t.entries.foldl
    (fun least entry =>
      match least with
      | none => some entry.2
      | some x => if entry.2 < x then some entry.2 else some x)
    none

theorem mem_entries_iff_lookup {t : Table K A} {key : K}
    {value : A} : ⟨key, value⟩ ∈ t.entries ↔ t.lookup key = some value :=
  AList.mem_lookup_iff.symm

private theorem lookup_foldl_insertWhere (keep : K → A → Bool) (key : K)
    (entries : List (Sigma fun _ : K => A)) (hnodup : entries.NodupKeys)
    (acc : Table K A) :
    (entries.foldl
      (fun acc entry =>
        if keep entry.1 entry.2 then acc.insert entry.1 entry.2 else acc)
      acc).lookup key =
      match entries.dlookup key with
      | some value => if keep key value then some value else acc.lookup key
      | none => acc.lookup key := by
  induction entries generalizing acc with
  | nil => rfl
  | cons head tail ih =>
      obtain ⟨headKey, headValue⟩ := head
      obtain ⟨hfresh, htail⟩ := List.nodupKeys_cons.mp hnodup
      rw [List.foldl_cons, ih htail]
      by_cases heq : key = headKey
      · subst heq
        have hnone : tail.dlookup key = none := List.dlookup_eq_none.mpr hfresh
        simp only [hnone, List.dlookup_cons_eq]
        split
        · exact AList.lookup_insert acc
        · rfl
      · rw [List.dlookup_cons_ne _ _ heq]
        have hacc : (if keep headKey headValue = true
            then acc.insert headKey headValue else acc).lookup key =
            acc.lookup key := by
          split
          · exact AList.lookup_insert_ne heq
          · rfl
        rw [hacc]

/-- What the copying loop leaves under a key, whatever the order of entries. -/
theorem lookup_insertWhere (source result : Table K A) (keep : K → A → Bool)
    (key : K) :
    (source.insertWhere result keep).lookup key =
      match source.lookup key with
      | some value => if keep key value then some value else result.lookup key
      | none => result.lookup key :=
  lookup_foldl_insertWhere keep key source.entries source.nodupKeys result

theorem lookup_insertMax_self (t : Table K Nat) (key : K) (value : Nat) :
    (t.insertMax key value).lookup key =
      some (max value ((t.lookup key).getD value)) := by
  unfold insertMax
  split
  · rename_i old hold
    split
    · rw [AList.lookup_insert, hold]
      simp only [Option.getD_some, Option.some.injEq]
      omega
    · rw [hold]
      simp only [Option.getD_some, Option.some.injEq]
      omega
  · rename_i hnone
    rw [AList.lookup_insert, hnone]
    simp

theorem lookup_insertMax_ne (t : Table K Nat) {key other : K} (value : Nat)
    (hne : other ≠ key) :
    (t.insertMax key value).lookup other = t.lookup other := by
  unfold insertMax
  split
  · split
    · exact AList.lookup_insert_ne hne
    · rfl
  · exact AList.lookup_insert_ne hne

theorem mem_insertMax {t : Table K Nat} {key other : K} {value : Nat} :
    other ∈ t.insertMax key value ↔ other = key ∨ other ∈ t := by
  unfold insertMax
  split
  · rename_i old hold
    have hmem : key ∈ t := AList.lookup_isSome.mp (by rw [hold]; rfl)
    split
    · exact AList.mem_insert t
    · constructor
      · exact Or.inr
      · rintro (rfl | h)
        · exact hmem
        · exact h
  · exact AList.mem_insert t

/-- The size of a table is the number of its keys. -/
theorem length_entries_eq_card (t : Table K A) {keys : Finset K}
    (hkeys : ∀ key, key ∈ t ↔ key ∈ keys) : t.entries.length = keys.card := by
  have heq : t.keys.toFinset = keys := by
    ext key
    rw [List.mem_toFinset, ← AList.mem_keys, hkeys]
  rw [← heq, List.toFinset_card_of_nodup t.keys_nodup]
  exact (List.length_map _).symm

omit [DecidableEq K] in
private theorem foldl_minValue? (entries : List (Sigma fun _ : K => Nat))
    (least : Nat) :
    entries.foldl
      (fun least entry =>
        match least with
        | none => some entry.2
        | some x => if entry.2 < x then some entry.2 else some x)
      (some least) = some ((entries.map Sigma.snd).foldl min least) := by
  induction entries generalizing least with
  | nil => rfl
  | cons head tail ih =>
      simp only [List.foldl_cons, List.map_cons]
      split
      · rename_i hlt
        rw [ih, Nat.min_eq_right (Nat.le_of_lt hlt)]
      · rename_i hlt
        rw [ih, Nat.min_eq_left (Nat.le_of_not_lt hlt)]

omit [DecidableEq K] in
theorem minValue?_eq_min? (t : Table K Nat) :
    t.minValue? = (t.entries.map Sigma.snd).min? := by
  unfold minValue?
  cases t.entries with
  | nil => rfl
  | cons head tail => exact foldl_minValue? tail head.2

/-- The value found by the minimum loop is a value of the table and a lower
bound of them all. -/
theorem minValue?_eq_some {t : Table K Nat} {x : Nat}
    (h : t.minValue? = some x) :
    (∃ key, t.lookup key = some x) ∧
      ∀ key value, t.lookup key = some value → x ≤ value := by
  rw [minValue?_eq_min?, List.min?_eq_some_iff] at h
  obtain ⟨hmem, hle⟩ := h
  constructor
  · obtain ⟨⟨key, value⟩, hentry, rfl⟩ := List.mem_map.mp hmem
    exact ⟨key, mem_entries_iff_lookup.mp hentry⟩
  · intro key value hlookup
    exact hle value (List.mem_map.mpr
      ⟨⟨key, value⟩, mem_entries_iff_lookup.mpr hlookup, rfl⟩)

omit [DecidableEq K] in
theorem minValue?_eq_none {t : Table K Nat} (h : t.minValue? = none) :
    t.entries = [] := by
  rw [minValue?_eq_min?, List.min?_eq_none_iff, List.map_eq_nil_iff] at h
  exact h

/-- The greatest value listed for each key. -/
def maxTable (pairs : List (K × Nat)) : Table K Nat :=
  pairs.foldl (fun t pair => t.insertMax pair.1 pair.2) ∅

theorem maxTable_append_singleton (pairs : List (K × Nat)) (pair : K × Nat) :
    maxTable (pairs ++ [pair]) =
      (maxTable pairs).insertMax pair.1 pair.2 := by
  simp [maxTable]

theorem mem_maxTable_iff {pairs : List (K × Nat)} {key : K} :
    key ∈ maxTable pairs ↔ ∃ value, (key, value) ∈ pairs := by
  induction pairs using List.reverseRecOn with
  | nil => simp [maxTable]
  | append_singleton pre last ih =>
      obtain ⟨lastKey, lastValue⟩ := last
      rw [maxTable_append_singleton, mem_insertMax, ih]
      simp only [List.mem_append, List.mem_singleton, Prod.mk.injEq]
      constructor
      · rintro (rfl | ⟨value, hvalue⟩)
        · exact ⟨lastValue, Or.inr ⟨rfl, rfl⟩⟩
        · exact ⟨value, Or.inl hvalue⟩
      · rintro ⟨value, hvalue | ⟨rfl, _⟩⟩
        · exact Or.inr ⟨value, hvalue⟩
        · exact Or.inl rfl

/-- The entry of a key is the greatest value listed for it, in whatever order
the pairs come. -/
theorem lookup_maxTable_iff {pairs : List (K × Nat)} {key : K} {value : Nat} :
    (maxTable pairs).lookup key = some value ↔
      (key, value) ∈ pairs ∧ ∀ other, (key, other) ∈ pairs → other ≤ value := by
  induction pairs using List.reverseRecOn generalizing value with
  | nil => simp [maxTable]
  | append_singleton pre last ih =>
      obtain ⟨lastKey, lastValue⟩ := last
      rw [maxTable_append_singleton]
      by_cases heq : key = lastKey
      · subst heq
        rw [lookup_insertMax_self]
        cases hold : (maxTable pre).lookup key with
        | none =>
            have hnone : ∀ x, (key, x) ∉ pre := by
              intro x hx
              exact AList.lookup_eq_none.mp hold (mem_maxTable_iff.mpr ⟨x, hx⟩)
            simp only [Option.getD_none, Nat.max_self, Option.some.injEq,
              List.mem_append, hnone, List.mem_singleton, Prod.mk.injEq,
              true_and, false_or, forall_eq]
            constructor
            · rintro rfl
              exact ⟨rfl, Nat.le_refl _⟩
            · exact fun h => h.1.symm
        | some old =>
            obtain ⟨hmem, hmax⟩ := ih.mp hold
            simp only [Option.getD_some, Option.some.injEq, List.mem_append,
              List.mem_singleton, Prod.mk.injEq, true_and]
            constructor
            · rintro rfl
              refine ⟨?_, ?_⟩
              · rcases Nat.le_total lastValue old with hle | hle
                · rw [Nat.max_eq_right hle]
                  exact Or.inl hmem
                · exact Or.inr (Nat.max_eq_left hle)
              · rintro other (hother | rfl)
                · exact Nat.le_trans (hmax other hother) (Nat.le_max_right _ _)
                · exact Nat.le_max_left _ _
            · rintro ⟨hvalue, hupper⟩
              have hlast := hupper lastValue (Or.inr rfl)
              have hprev := hupper old (Or.inl hmem)
              rcases hvalue with hvalue | rfl
              · have hle := hmax value hvalue
                omega
              · omega
      · rw [lookup_insertMax_ne _ _ heq, ih]
        simp [heq]

end Table

end AssocTables
