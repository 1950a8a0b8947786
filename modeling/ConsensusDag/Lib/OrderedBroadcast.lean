/-
Broadcast in total order, as an ideal service.  Senders hand in items; the service
puts them one by one into a single log, those of a sender in the order in which they
were handed in; each receiver learns the log from its start.
-/
import Mathlib.Data.List.Basic
import Mathlib.Logic.Function.Basic
import Mathlib.Logic.Relation

namespace OrderedBroadcasts

open Relation

universe u v

variable {ι : Type u} {α : Type v}

structure Broadcast (ι : Type u) (α : Type v) where
  submitted : ι → List α
  log : List (α × ι)
  learned : ι → List (α × ι)

variable [DecidableEq ι]

/-- The items of one sender in a log. -/
def itemsOf (i : ι) (log : List (α × ι)) : List α :=
  log.filterMap fun item => if item.2 = i then some item.1 else none

@[simp] theorem itemsOf_nil (i : ι) : itemsOf i ([] : List (α × ι)) = [] :=
  rfl

theorem itemsOf_append (i : ι) (log rest : List (α × ι)) :
    itemsOf i (log ++ rest) = itemsOf i log ++ itemsOf i rest :=
  List.filterMap_append

theorem itemsOf_cons_self (i : ι) (x : α) (log : List (α × ι)) :
    itemsOf i ((x, i) :: log) = x :: itemsOf i log := by
  simp [itemsOf]

theorem itemsOf_cons_of_ne {i j : ι} (hne : j ≠ i) (x : α) (log : List (α × ι)) :
    itemsOf i ((x, j) :: log) = itemsOf i log := by
  simp [itemsOf, hne]

namespace Broadcast

/-- Nothing has been handed in. -/
def start : Broadcast ι α :=
  ⟨fun _ => [], [], fun _ => []⟩

/-- A sender hands in an item, the service logs the next item of a sender, or a
receiver learns the next item of the log. -/
inductive Step : Broadcast ι α → Broadcast ι α → Prop
  | submit {b : Broadcast ι α} (i : ι) (x : α) :
      Step b { b with
        submitted := Function.update b.submitted i (b.submitted i ++ [x]) }
  | order {b : Broadcast ι α} (i : ι) (x : α) :
      itemsOf i b.log ++ [x] <+: b.submitted i →
      Step b { b with log := b.log ++ [(x, i)] }
  | learn {b : Broadcast ι α} (i : ι) (item : α × ι) :
      b.learned i ++ [item] <+: b.log →
      Step b { b with
        learned := Function.update b.learned i (b.learned i ++ [item]) }

/-- The states of the service. -/
def Reachable (b : Broadcast ι α) : Prop :=
  ReflTransGen Step start b

/-- What the service promises: the log has of each sender the first items that it
has handed in, and each receiver has learned a first part of the log. -/
structure Sound (b : Broadcast ι α) : Prop where
  logged : ∀ i, itemsOf i b.log <+: b.submitted i
  learned : ∀ i, b.learned i <+: b.log

variable {b b' : Broadcast ι α}

theorem Sound.step (h : b.Sound) (hstep : Step b b') : b'.Sound := by
  cases hstep with
  | submit i x =>
      refine { h with logged := fun j => ?_ }
      change itemsOf j b.log <+: Function.update b.submitted i _ j
      by_cases hji : j = i
      · subst hji
        rw [Function.update_self]
        exact (h.logged j).trans (List.prefix_append _ _)
      · rw [Function.update_of_ne hji]
        exact h.logged j
  | order i x hnext =>
      constructor
      · intro j
        by_cases hij : i = j
        · subst hij
          rw [itemsOf_append, itemsOf_cons_self]
          exact hnext
        · rw [itemsOf_append, itemsOf_cons_of_ne hij, itemsOf_nil, List.append_nil]
          exact h.logged j
      · exact fun j => (h.learned j).trans (List.prefix_append _ _)
  | learn i item hnext =>
      refine { h with learned := fun j => ?_ }
      change Function.update b.learned i _ j <+: b.log
      by_cases hji : j = i
      · subst hji
        rw [Function.update_self]
        exact hnext
      · rw [Function.update_of_ne hji]
        exact h.learned j

theorem Reachable.sound (h : b.Reachable) : b.Sound := by
  induction h with
  | refl => exact ⟨fun _ => List.prefix_rfl, fun _ => List.prefix_rfl⟩
  | tail _ hstep ih => exact ih.step hstep

/-- The log can be brought up to a longer one that has of each sender the first
items that it has handed in. -/
theorem order_up_to {log : List (α × ι)} (hlog : b.log <+: log)
    (hlogged : ∀ i, itemsOf i log <+: b.submitted i) :
    ReflTransGen Step b { b with log := log } := by
  obtain ⟨rest, rfl⟩ := hlog
  induction rest generalizing b with
  | nil => rw [List.append_nil]
  | cons item rest ih =>
      obtain ⟨x, i⟩ := item
      have happend : b.log ++ (x, i) :: rest = b.log ++ [(x, i)] ++ rest :=
        List.append_cons _ _ _
      rw [happend] at hlogged ⊢
      have hnext : itemsOf i b.log ++ [x] <+: b.submitted i := by
        refine List.IsPrefix.trans ?_ (hlogged i)
        rw [itemsOf_append, itemsOf_append, itemsOf_cons_self]
        exact List.prefix_append _ _
      exact .head (.order i x hnext) (ih (b := { b with log := b.log ++ [(x, i)] })
        hlogged)

/-- A receiver can learn any first part of the log that it is not beyond. -/
theorem learn_up_to {i : ι} {log : List (α × ι)} (hlearned : b.learned i <+: log)
    (hlog : log <+: b.log) :
    ReflTransGen Step b
      { b with learned := Function.update b.learned i log } := by
  obtain ⟨rest, rfl⟩ := hlearned
  induction rest generalizing b with
  | nil => rw [List.append_nil, Function.update_eq_self]
  | cons item rest ih =>
      have happend : b.learned i ++ item :: rest = b.learned i ++ [item] ++ rest :=
        List.append_cons _ _ _
      rw [happend] at hlog ⊢
      have hnext : b.learned i ++ [item] <+: b.log :=
        (List.prefix_append _ _).trans hlog
      have hlearned : Function.update b.learned i (b.learned i ++ [item]) i ++ rest <+:
          b.log := by
        rw [Function.update_self]
        exact hlog
      have hrest := ih (b := { b with
        learned := Function.update b.learned i (b.learned i ++ [item]) }) hlearned
      simp only [Function.update_self, Function.update_idem] at hrest
      exact .head (.learn i item hnext) hrest

/-- A run that hands in several items. -/
theorem submit_all (i : ι) (items : List α) :
    ReflTransGen Step b { b with
      submitted := Function.update b.submitted i (b.submitted i ++ items) } := by
  induction items generalizing b with
  | nil => rw [List.append_nil, Function.update_eq_self]
  | cons x items ih =>
      have hrest := ih (b := { b with
        submitted := Function.update b.submitted i (b.submitted i ++ [x]) })
      simp only [Function.update_self, Function.update_idem, List.append_assoc,
        List.singleton_append] at hrest
      exact .head (.submit i x) hrest

end Broadcast

end OrderedBroadcasts
