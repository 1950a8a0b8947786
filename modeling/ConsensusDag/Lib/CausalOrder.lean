/-
Items that arrive in a list and are taken in one after another.  An item may be
taken in once what it depends on is held; a list sorted by a rank that grows
along the dependencies can be taken in from front to back.
-/
import Mathlib.Data.Set.Insert
import Mathlib.Data.List.Basic

namespace CausalOrders

universe u

variable {α : Type u}

/-- Every item of the list is ready when its turn comes. -/
def Deliverable (ready : Set α → α → Prop) : Set α → List α → Prop
  | _, [] => True
  | held, x :: rest => ready held x ∧ Deliverable ready (insert x held) rest

/-- Holding more keeps an item ready. -/
def Persistent (ready : Set α → α → Prop) : Prop :=
  ∀ held held' x, held ⊆ held' → ready held x → ready held' x

variable {ready : Set α → α → Prop}

theorem Deliverable.mono (hpersistent : Persistent ready) {held held' : Set α}
    {items : List α} (h : Deliverable ready held items) (hsub : held ⊆ held') :
    Deliverable ready held' items := by
  induction items generalizing held held' with
  | nil => trivial
  | cons x rest ih =>
      exact ⟨hpersistent held held' x hsub h.1,
        ih h.2 (Set.insert_subset_insert hsub)⟩

/-- Once the first item is held the rest can be taken in. -/
theorem Deliverable.tail (hpersistent : Persistent ready) {held held' : Set α}
    {x : α} {rest : List α} (h : Deliverable ready held (x :: rest))
    (hsub : held ⊆ held') (hx : x ∈ held') : Deliverable ready held' rest :=
  h.2.mono hpersistent (Set.insert_subset hx hsub)

/-- Sorted by rank, the items can be taken in if each is ready with what is held
and the items of lower rank. -/
theorem Deliverable.of_sorted (hpersistent : Persistent ready) (rank : α → Nat)
    {held : Set α} {items : List α}
    (hsorted : items.Pairwise fun x y => rank x ≤ rank y)
    (hready : ∀ x ∈ items,
      ready (held ∪ {y | y ∈ items ∧ rank y < rank x}) x) :
    Deliverable ready held items := by
  induction items generalizing held with
  | nil => trivial
  | cons x rest ih =>
      obtain ⟨hhead, htail⟩ := List.pairwise_cons.mp hsorted
      constructor
      · refine hpersistent _ held x ?_ (hready x List.mem_cons_self)
        rintro y (hy | ⟨hmem, hlt⟩)
        · exact hy
        · -- nothing in the list is ranked below its first item
          rcases List.mem_cons.mp hmem with rfl | hmem
          · exact absurd hlt (Nat.lt_irrefl _)
          · exact absurd hlt (Nat.not_lt.mpr (hhead y hmem))
      · refine ih htail fun z hz => ?_
        refine hpersistent _ _ z ?_ (hready z (List.mem_cons_of_mem _ hz))
        rintro y (hy | ⟨hmem, hlt⟩)
        · exact Or.inl (Set.mem_insert_of_mem _ hy)
        · rcases List.mem_cons.mp hmem with rfl | hmem
          · exact Or.inl (Set.mem_insert _ _)
          · exact Or.inr ⟨hmem, hlt⟩

end CausalOrders
