/-
Chains of items that are filed under their heights: no gap from 0 up to the top,
and each item linked to the one below it.
-/
import Mathlib.Logic.Basic
import Mathlib.Order.Basic

namespace HeightChains

variable {α : Type} {link : α → α → Prop} {slot slot' : Nat → Option α}
  {top : Nat} {a b : α}

/-- The items under the heights 0 to `top`; `link a b` holds of each item `a`
and the next one, `b`. -/
structure HeightChain (link : α → α → Prop) (slot : Nat → Option α) (top : Nat) :
    Prop where
  filled : ∀ height, (∃ a, slot height = some a) ↔ height ≤ top
  linked : ∀ height a b, slot height = some a → slot (height + 1) = some b →
    link a b

theorem HeightChain.top_mem (h : HeightChain link slot top) :
    ∃ a, slot top = some a :=
  (h.filled top).mpr (Nat.le_refl top)

theorem HeightChain.le_top (h : HeightChain link slot top) {height : Nat}
    (ha : slot height = some a) : height ≤ top :=
  (h.filled height).mp ⟨a, ha⟩

theorem HeightChain.eq_none (h : HeightChain link slot top) {height : Nat}
    (hlt : top < height) : slot height = none := by
  cases hslot : slot height with
  | none => rfl
  | some a => exact absurd (h.le_top hslot) (Nat.not_le.mpr hlt)

theorem HeightChain.congr (h : HeightChain link slot top)
    (hslot : ∀ height, slot' height = slot height) :
    HeightChain link slot' top := by
  rw [funext hslot]
  exact h

/-- A chain of one item. -/
theorem HeightChain.single
    (hslot : ∀ height, slot height = if height = 0 then some a else none) :
    HeightChain link slot 0 where
  filled height := by
    rw [hslot, Nat.le_zero]
    split <;> simp_all
  linked height _ _ _ hb := by
    rw [hslot, if_neg (Nat.succ_ne_zero height)] at hb
    cases hb

/-- An item that is linked to the top becomes the new top. -/
theorem HeightChain.extend (h : HeightChain link slot top)
    (ha : slot top = some a) (hlink : link a b)
    (hslot : ∀ height, slot' height =
      if height = top + 1 then some b else slot height) :
    HeightChain link slot' (top + 1) where
  filled height := by
    rw [hslot]
    split
    · rename_i heq
      simp [heq]
    · rename_i hne
      rw [h.filled, Nat.le_succ_iff]
      simp [hne]
  linked height c d hc hd := by
    rw [hslot] at hc hd
    split at hd
    · rename_i heq
      obtain rfl := Nat.succ.inj heq
      rw [if_neg (Nat.ne_of_lt (Nat.lt_succ_self _)), ha] at hc
      cases hc
      cases hd
      exact hlink
    · have hlt : height + 1 ≤ top := h.le_top hd
      rw [if_neg (by omega)] at hc
      exact h.linked height c d hc hd

/-- An item is replaced by one with the same links. -/
theorem HeightChain.replace (h : HeightChain link slot top) {at' : Nat}
    (ha : slot at' = some a) (hbelow : ∀ c, link c a → link c b)
    (habove : ∀ c, link a c → link b c)
    (hslot : ∀ height, slot' height =
      if height = at' then some b else slot height) :
    HeightChain link slot' top where
  filled height := by
    rw [hslot, ← h.filled]
    split
    · rename_i heq
      simp [heq, ha]
    · rfl
  linked height c d hc hd := by
    rw [hslot] at hc hd
    split at hc
    · rename_i heq
      subst heq
      cases hc
      rw [if_neg (Nat.succ_ne_self _)] at hd
      exact habove d (h.linked _ a d ha hd)
    · split at hd
      · rename_i heq
        subst heq
        cases hd
        exact hbelow c (h.linked _ c a hc ha)
      · exact h.linked _ c d hc hd

theorem HeightChain.top_unique {top' : Nat} (h : HeightChain link slot top)
    (h' : HeightChain link slot top') : top = top' := by
  apply Nat.le_antisymm
  · exact (h'.filled top).mp h.top_mem
  · exact (h.filled top').mp h'.top_mem

end HeightChains
