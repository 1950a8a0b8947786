/-
A counter that is halved down to one and then starts over, and walks around a
ring by the offsets that it shows.
-/
import Mathlib.Data.List.GetD
import Mathlib.Data.Nat.Log
import Mathlib.Data.Nat.ModEq
import Mathlib.Logic.Relation

namespace HalvingRounds

open Relation

section Counter

variable {n i j : Nat}

/-- The next value of the counter. -/
def halve (n r : Nat) : Nat :=
  if 1 < r then r >>> 1 else n >>> 1

/-- From a value between one and half of `n` the next one is there too. -/
theorem halve_bounds {r : Nat} (hpos : 1 ≤ r) (hle : r ≤ n / 2) :
    1 ≤ halve n r ∧ halve n r ≤ n / 2 := by
  unfold halve
  rw [Nat.shiftRight_one, Nat.shiftRight_one]
  split <;> omega

theorem one_lt_shiftRight (hn : n ≠ 0) (hi : i < Nat.log 2 n) : 1 < n >>> i := by
  rw [Nat.shiftRight_eq_div_pow]
  have hpow : 2 ^ (i + 1) ≤ n :=
    (Nat.pow_le_pow_right (by decide) hi).trans (Nat.pow_log_le_self 2 hn)
  rw [Nat.lt_iff_add_one_le, Nat.le_div_iff_mul_le (Nat.two_pow_pos i)]
  rw [Nat.pow_succ] at hpow
  omega

/-- After as many halvings as the logarithm one is left. -/
theorem shiftRight_log (hn : n ≠ 0) : n >>> Nat.log 2 n = 1 := by
  rw [Nat.shiftRight_eq_div_pow]
  refine Nat.div_eq_of_lt_le ?_ ?_
  · rw [Nat.one_mul]
    exact Nat.pow_log_le_self 2 hn
  · have hlt := Nat.lt_pow_succ_log_self (by decide : 1 < 2) n
    rw [Nat.pow_succ] at hlt
    omega

/-- Within a round every value is less than the one before. -/
theorem shiftRight_lt (hn : n ≠ 0) (hij : i < j) (hj : j ≤ Nat.log 2 n) :
    n >>> j < n >>> i := by
  obtain ⟨d, rfl⟩ := Nat.exists_eq_add_of_lt hij
  have hpos : 1 < n >>> i := one_lt_shiftRight hn (by omega)
  rw [Nat.add_assoc, Nat.shiftRight_add, Nat.shiftRight_succ_inside]
  calc (n >>> i / 2) >>> d ≤ n >>> i / 2 := Nat.shiftRight_le _ _
    _ < n >>> i := by omega

theorem halve_shiftRight (hn : n ≠ 0) (hi : i ≤ Nat.log 2 n) :
    halve n (n >>> i) = if i < Nat.log 2 n then n >>> (i + 1) else n >>> 1 := by
  unfold halve
  rcases Nat.lt_or_eq_of_le hi with hlt | rfl
  · rw [if_pos hlt, if_pos (one_lt_shiftRight hn hlt), ← Nat.shiftRight_add]
  · rw [shiftRight_log hn, if_neg (by decide), if_neg (Nat.lt_irrefl _)]

/-- The counter goes through the halves of `n` down to one, round after round. -/
theorem halve_iterate (hn : 2 ≤ n) (k : Nat) :
    (halve n)^[k] (n >>> 1) = n >>> (k % Nat.log 2 n + 1) := by
  have hlog : 0 < Nat.log 2 n := Nat.log_pos (by decide) hn
  induction k with
  | zero =>
      rw [Nat.zero_mod]
      rfl
  | succ k ih =>
      have hlt := Nat.mod_lt k hlog
      rw [Function.iterate_succ_apply', ih, halve_shiftRight (by omega) hlt]
      rw [← Nat.mod_add_mod k (Nat.log 2 n) 1]
      split
      · rename_i hnext
        rw [Nat.mod_eq_of_lt hnext]
      · rename_i hlast
        have hround : k % Nat.log 2 n + 1 = Nat.log 2 n := by omega
        rw [hround, Nat.mod_self]

/-- The values of a round lie between one and half of `n`. -/
theorem offset_pos_lt (hn : 2 ≤ n) (i : Nat) :
    0 < n >>> (i % Nat.log 2 n + 1) ∧ n >>> (i % Nat.log 2 n + 1) < n := by
  have hlog : 0 < Nat.log 2 n := Nat.log_pos (by decide) hn
  have hmod := Nat.mod_lt i hlog
  constructor
  · rcases Nat.lt_or_eq_of_le (Nat.succ_le_of_lt hmod) with hlt | heq
    · exact (one_lt_shiftRight (by omega) hlt).le
    · have hone : n >>> (i % Nat.log 2 n + 1) = 1 := by
        rw [show i % Nat.log 2 n + 1 = Nat.log 2 n from heq]
        exact shiftRight_log (by omega)
      rw [hone]
      decide
  · exact shiftRight_lt (show n ≠ 0 by omega) (Nat.succ_pos _) hmod

/-- Within a round no value comes twice. -/
theorem round_injective (hn : 2 ≤ n) (hij : i < j)
    (hround : j < i + Nat.log 2 n) :
    n >>> (i % Nat.log 2 n + 1) ≠ n >>> (j % Nat.log 2 n + 1) := by
  have hlog : 0 < Nat.log 2 n := Nat.log_pos (by decide) hn
  intro hsame
  have hne : i % Nat.log 2 n ≠ j % Nat.log 2 n := by
    intro hmod
    have hzero := Nat.sub_mod_eq_zero_of_mod_eq hmod.symm
    rw [Nat.mod_eq_of_lt (by omega)] at hzero
    omega
  rcases Nat.lt_or_gt_of_ne hne with hlt | hlt
  · have hless := shiftRight_lt (show n ≠ 0 by omega) (Nat.succ_lt_succ hlt)
      (Nat.mod_lt j hlog)
    exact absurd hsame (Nat.ne_of_gt hless)
  · have hless := shiftRight_lt (show n ≠ 0 by omega) (Nat.succ_lt_succ hlt)
      (Nat.mod_lt i hlog)
    exact absurd hsame (Nat.ne_of_lt hless)

end Counter

section Ring

variable {α : Type*} {r : α → α → Prop} {place : Nat → α} {n : Nat}

/-- Offsets below the size of a ring lead to different places. -/
theorem offset_injective {c a b : Nat} (ha : a < n) (hb : b < n)
    (h : (c + a) % n = (c + b) % n) : a = b := by
  have hmod : Nat.ModEq n a b := Nat.ModEq.add_left_cancel' c h
  exact Nat.ModEq.eq_of_lt_of_lt hmod ha hb

/-- Steps to the next place lead around the ring to every other. -/
theorem reaches_of_next (hnext : ∀ i < n, r (place i) (place ((i + 1) % n)))
    {i j : Nat} (hi : i < n) (hj : j < n) :
    ReflTransGen r (place i) (place j) := by
  have hwalk : ∀ k, ReflTransGen r (place i) (place ((i + k) % n)) := by
    intro k
    induction k with
    | zero =>
        rw [Nat.add_zero, Nat.mod_eq_of_lt hi]
    | succ k ih =>
        have hstep := hnext _ (Nat.mod_lt (i + k) (by omega))
        rw [Nat.mod_add_mod] at hstep
        exact ih.tail hstep
  have hend := hwalk (n - i + j)
  rwa [show i + (n - i + j) = j + n by omega, Nat.add_mod_right,
    Nat.mod_eq_of_lt hj] at hend

end Ring

section Turns

variable {α : Type*} [DecidableEq α] [Inhabited α] {ring : List α} {a : α}

/-- The element that comes after this one, around the ring. -/
def next (ring : List α) (a : α) : α :=
  ring.getD ((ring.idxOf a + 1) % ring.length) default

/-- Turns that go around the ring backwards, from the last element on. -/
def turn (ring : List α) (t : Nat) : α :=
  ring.getD (ring.length - 1 - t % ring.length) default

/-- Which turn of a round an element has. -/
def place (ring : List α) (a : α) : Nat :=
  ring.length - 1 - ring.idxOf a

omit [DecidableEq α] in
theorem turn_eq (hpos : 0 < ring.length) (t : Nat) :
    ∃ hlt : ring.length - 1 - t % ring.length < ring.length,
      turn ring t = ring[ring.length - 1 - t % ring.length] :=
  ⟨by omega, List.getD_eq_getElem _ _ _⟩

omit [DecidableEq α] in
theorem turn_mem (hpos : 0 < ring.length) (t : Nat) : turn ring t ∈ ring := by
  obtain ⟨hlt, hturn⟩ := turn_eq hpos t
  rw [hturn]
  exact List.getElem_mem hlt

theorem next_mem (hpos : 0 < ring.length) (a : α) : next ring a ∈ ring := by
  have hlt : (ring.idxOf a + 1) % ring.length < ring.length := Nat.mod_lt _ hpos
  rw [next, List.getD_eq_getElem _ _ hlt]
  exact List.getElem_mem hlt

/-- The turn before is that of the next element. -/
theorem next_turn (hnodup : ring.Nodup) (hpos : 0 < ring.length) (t : Nat) :
    next ring (turn ring (t + 1)) = turn ring t := by
  obtain ⟨hlt, hturn⟩ := turn_eq hpos (t + 1)
  have hmod := Nat.mod_lt t hpos
  have hindex : (ring.length - 1 - (t + 1) % ring.length + 1) % ring.length =
      ring.length - 1 - t % ring.length := by
    rw [← Nat.mod_add_mod t ring.length 1]
    rcases Nat.lt_or_eq_of_le (Nat.succ_le_of_lt hmod) with hnext | hlast
    · rw [Nat.mod_eq_of_lt hnext, Nat.mod_eq_of_lt (by omega)]
      omega
    · rw [show t % ring.length + 1 = ring.length from hlast, Nat.mod_self,
        Nat.sub_zero, Nat.sub_add_cancel hpos, Nat.mod_self]
      omega
  rw [hturn, next, hnodup.idxOf_getElem, hindex]
  rfl

/-- Each element has one turn in every round. -/
theorem turn_place (ha : a ∈ ring) (j : Nat) :
    place ring a < ring.length ∧ turn ring (j * ring.length + place ring a) = a := by
  have hindex := List.idxOf_lt_length_of_mem ha
  have hplace : place ring a < ring.length := by
    unfold place
    omega
  refine ⟨hplace, ?_⟩
  have hback : ring.length - 1 - place ring a = ring.idxOf a := by
    unfold place
    omega
  rw [turn, Nat.mul_comm, Nat.mul_add_mod, Nat.mod_eq_of_lt hplace, hback,
    List.getD_eq_getElem _ _ hindex, List.getElem_idxOf]

end Turns

end HalvingRounds
