/-
Frames: the records of the events that share a frame number, and their final
order.
-/
import Mathlib.Data.List.Sort
import ConsensusDag.Peer

namespace ConsensusDag

/-- The fields the final order is computed from. -/
structure FrameRecord (H : Type) where
  hash : H
  lamportTime : Nat
deriving DecidableEq, Repr

structure Frame (H : Type) where
  events : List (FrameRecord H)
deriving DecidableEq, Repr

instance {H : Type} : Inhabited (Frame H) := ⟨⟨[]⟩⟩

variable {H : Type} [LinearOrder H]

namespace FrameRecord

/-- The comparison handed to `sort_by`. -/
def cmp (a b : FrameRecord H) : Ordering :=
  if a.lamportTime < b.lamportTime then .lt
  else if b.lamportTime < a.lamportTime then .gt
  else if a.hash < b.hash then .lt
  else if b.hash < a.hash then .gt
  else .eq

/-- Not after, in the order of `cmp`. -/
def Le (a b : FrameRecord H) : Prop :=
  a.cmp b ≠ .gt

instance : DecidableRel (Le (H := H)) := fun a b =>
  inferInstanceAs (Decidable (a.cmp b ≠ .gt))

/-- The comparison is lexicographic: Lamport time first, then the hash. -/
theorem le_iff {a b : FrameRecord H} :
    a.Le b ↔ a.lamportTime < b.lamportTime ∨
      a.lamportTime = b.lamportTime ∧ a.hash ≤ b.hash := by
  unfold Le cmp
  split
  · rename_i hlt
    simp [hlt]
  · rename_i hnlt
    split
    · rename_i hgt
      simp only [ne_eq, not_true_eq_false, hnlt, false_or, false_iff, not_and]
      intro heq
      omega
    · rename_i hngt
      have heq : a.lamportTime = b.lamportTime := by omega
      simp only [heq, Nat.lt_irrefl, true_and, false_or]
      split
      · rename_i hhash
        simp [hhash.le]
      · split
        · rename_i hhash
          simp [hhash]
        · rename_i hhash
          simpa using hhash

instance : Std.Total (Le (H := H)) where
  total a b := by
    rw [le_iff, le_iff]
    rcases Nat.lt_trichotomy a.lamportTime b.lamportTime with hlt | heq | hgt
    · exact Or.inl (Or.inl hlt)
    · rcases le_total a.hash b.hash with hle | hle
      · exact Or.inl (Or.inr ⟨heq, hle⟩)
      · exact Or.inr (Or.inr ⟨heq.symm, hle⟩)
    · exact Or.inr (Or.inl hgt)

instance : IsTrans (FrameRecord H) Le where
  trans a b c hab hbc := by
    rw [le_iff] at *
    rcases hab with hab | ⟨hab, hab'⟩ <;> rcases hbc with hbc | ⟨hbc, hbc'⟩
    · exact Or.inl (by omega)
    · exact Or.inl (by omega)
    · exact Or.inl (by omega)
    · exact Or.inr ⟨by omega, hab'.trans hbc'⟩

instance : Std.Antisymm (Le (H := H)) where
  antisymm a b hab hba := by
    rw [le_iff] at *
    obtain ⟨ahash, atime⟩ := a
    obtain ⟨bhash, btime⟩ := b
    simp only at hab hba
    rcases hab with hab | ⟨hab, hab'⟩ <;> rcases hba with hba | ⟨hba, hba'⟩
    · omega
    · omega
    · omega
    · rw [hab, le_antisymm hab' hba']

end FrameRecord

namespace Frame

/-- Sort by Lamport time, then by hash. -/
def finalise (frame : Frame H) : Frame H :=
  ⟨frame.events.insertionSort FrameRecord.Le⟩

/-- The records of a frame stand in their final order. -/
def Sorted (frame : Frame H) : Prop :=
  frame.events.Pairwise FrameRecord.Le

theorem finalise_perm (frame : Frame H) :
    frame.finalise.events.Perm frame.events :=
  List.perm_insertionSort _ _

theorem finalise_sorted (frame : Frame H) : frame.finalise.Sorted :=
  List.pairwise_insertionSort _ _

theorem finalise_eq_self {frame : Frame H} (h : frame.Sorted) :
    frame.finalise = frame :=
  congrArg Frame.mk h.insertionSort_eq

/-- Two sorted frames with the same records, each once, are equal. -/
theorem eq_of_sorted {frame frame' : Frame H} (h : frame.Sorted)
    (h' : frame'.Sorted) (hnodup : frame.events.Nodup)
    (hnodup' : frame'.events.Nodup)
    (hmem : ∀ record, record ∈ frame.events ↔ record ∈ frame'.events) :
    frame = frame' := by
  have hperm : frame.events.Perm frame'.events :=
    (List.perm_ext_iff_of_nodup hnodup hnodup').mpr hmem
  have heq : frame.events = frame'.events := hperm.eq_of_pairwise' h h'
  cases frame
  exact congrArg Frame.mk heq

end Frame

end ConsensusDag
