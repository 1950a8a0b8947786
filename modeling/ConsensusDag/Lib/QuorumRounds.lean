/-
Progress of frame numbers.  In each round every peer makes a vertex above all vertices
of the round before, with an other-parent that is not older than that round.  Then each
round is a frame further at least, and the bound of a vertex is one round behind it.
-/
import ConsensusDag.Lib.QuorumFrame

namespace ParentGraphs

namespace QuorumGraph

open ParentGraph

universe u v

variable {V : Type u} {P : Type v} {G : QuorumGraph V P}

/-- `layer j p` is the vertex that peer `p` has made in round `j`, up to round `k`. -/
structure Rounds (G : QuorumGraph V P) (k : Nat) (layer : Nat → P → V) : Prop where
  creator : ∀ j ≤ k, ∀ p ∈ G.peers, G.creator (layer j p) = p
  sees : ∀ j < k, ∀ p ∈ G.peers, ∀ q ∈ G.peers, G.Ancestor (layer j q) (layer (j + 1) p)
  current : ∀ j < k, ∀ p ∈ G.peers, ∀ s o, G.parents (layer (j + 1) p) = some (s, o) →
    G.Reaches (layer j (G.creator o)) o

/-- Each vertex has, on the chain of its creator, a root of its own frame. -/
theorem exists_root_of_frame (v : V) :
    ∃ r, G.SelfReaches r v ∧ G.IsRoot r ∧ G.frame r = G.frame v := by
  induction v using G.acyclic.induction with
  | h v ih =>
      cases hv : G.parents v with
      | none => exact ⟨v, .refl, isRoot_of_leaf hv, rfl⟩
      | some pair =>
          obtain ⟨s, o⟩ := pair
          rcases Nat.eq_or_lt_of_le (frame_self_le hv) with heq | hlt
          · obtain ⟨r, hr, hroot, hframe⟩ := ih s (isParent_self hv)
            exact ⟨r, hr.tail ⟨o, hv⟩, hroot, hframe.trans heq⟩
          · exact ⟨v, .refl, (isRoot_iff_of_parents hv).mpr hlt, rfl⟩

/-- An earlier vertex of the same creator is at the self-parent or below it. -/
theorem selfReaches_of_ancestor {u v s o : V} (h : G.Ancestor u v)
    (hcreator : G.creator u = G.creator v) (hv : G.parents v = some (s, o)) :
    G.SelfReaches u s := by
  have hirrefl := wellFounded_ancestor (G := G.toParentGraph) |>.irrefl.irrefl
  rcases selfReaches_total hcreator with huv | hvu
  · refine huv.of_ne ?_ hv
    rintro rfl
    exact hirrefl u h
  · rcases hvu.reaches.eq_or_ancestor with rfl | hback
    · exact absurd h (hirrefl _)
    · exact absurd (h.trans hback) (hirrefl u)

/-- A vertex above a root of frame `f` by every peer, both of whose parents stand in
that frame or a later one, has a later frame. -/
theorem lt_frame_of_roots (hmajority : G.majority ≤ G.peers.card) {v s o : V} {f : Nat}
    (hv : G.parents v = some (s, o)) (hs : f ≤ G.frame s) (ho : f ≤ G.frame o)
    (hroots : ∀ p ∈ G.peers, ∃ r, G.Ancestor r v ∧ G.IsRoot r ∧ G.frame r = f ∧
      G.creator r = p) : f < G.frame v := by
  have hall : G.peers ⊆ G.rootCreators v f := fun p hp => mem_rootCreators.mpr (hroots p hp)
  have hquorum := hmajority.trans (Finset.card_le_card hall)
  rw [frame_of_parents hv]
  split
  · rename_i heq
    rcases Nat.eq_or_lt_of_le hs with hf | hlt
    · rw [← hf, if_pos hquorum]
      exact Nat.lt_succ_self f
    · split <;> omega
  · omega

namespace Rounds

variable {k : Nat} {layer : Nat → P → V} (h : G.Rounds k layer)
include h

/-- Each round is a frame further. -/
theorem le_frame (hmajority : G.majority ≤ G.peers.card) {j : Nat} (hj : j ≤ k) {p : P}
    (hp : p ∈ G.peers) : j ≤ G.frame (layer j p) := by
  induction j generalizing p with
  | zero => exact Nat.zero_le _
  | succ j ih =>
      have hlt : j < k := hj
      have ih : ∀ q ∈ G.peers, j ≤ G.frame (layer j q) := fun q hq => ih hlt.le hq
      by_contra hle
      have hframe : ∀ u, G.Reaches u (layer (j + 1) p) → G.frame u ≤ j := fun u hu =>
        (frame_le_of_reaches hu).trans (by omega)
      cases hv : G.parents (layer (j + 1) p) with
      | none => exact not_ancestor_of_leaf hv (h.sees j hlt p hp p hp)
      | some pair =>
          obtain ⟨s, o⟩ := pair
          -- the self-parent is above the peer's own vertex of the round before
          have hself : G.SelfReaches (layer j p) s :=
            selfReaches_of_ancestor (h.sees j hlt p hp p hp)
              ((h.creator j hlt.le p hp).trans (h.creator (j + 1) hj p hp).symm) hv
          have ho := h.current j hlt p hp s o hv
          refine hle (lt_frame_of_roots hmajority hv ?_ ?_ ?_)
          · exact (ih p hp).trans (frame_le_of_reaches hself.reaches)
          · exact (ih _ (G.creator_mem o)).trans (frame_le_of_reaches ho)
          · intro q hq
            have hsees := h.sees j hlt p hp q hq
            obtain ⟨r, hr, hroot, hrf⟩ := exists_root_of_frame (layer j q)
            have hq' := hframe _ hsees.reaches
            have hbelow := ih q hq
            refine ⟨r, Relation.TransGen.trans_right hr.reaches hsees, hroot, by omega, ?_⟩
            rw [hr.creator_eq, h.creator j hlt.le q hq]

/-- The bound of a vertex of a round is not below the round before. -/
theorem lt_bound (hmajority : G.majority ≤ G.peers.card) {j f : Nat} (hj : j < k) {p : P}
    (hp : p ∈ G.peers) (hf : f < j) : f < G.bound (layer (j + 1) p) := by
  refine lt_bound_iff.mpr fun q hq => ?_
  obtain ⟨r, hr, hroot, hframe⟩ := exists_root_of_frame (layer j q)
  have hsees := h.sees j hj p hp q hq
  refine ⟨r, hr.reaches.trans hsees.reaches, hroot, ?_, ?_⟩
  · rw [hr.creator_eq, h.creator j hj.le q hq]
  · have hle := h.le_frame hmajority hj.le hq
    omega

end Rounds

/-- The peers make vertices by turns.  Each has for its other-parent a vertex of the peer
whose turn was before, which is not older than what that peer has made then. -/
structure Turns (G : QuorumGraph V P) (turn : Nat → P) (length : Nat)
    (made : Nat → V) : Prop where
  creator : ∀ t < length, G.creator (made t) = turn t
  next : ∀ t, t + 1 < length → ∃ s o, G.parents (made (t + 1)) = some (s, o) ∧
    G.creator o = turn t ∧ G.Reaches (made t) o

namespace Turns

variable {turn : Nat → P} {length : Nat} {made : Nat → V} (h : G.Turns turn length made)
include h

theorem reaches {t t' : Nat} (hle : t ≤ t') (hlt : t' < length) :
    G.Reaches (made t) (made t') := by
  induction hle with
  | refl => exact .refl
  | step _ ih =>
      obtain ⟨s, o, hparents, -, hreach⟩ := h.next _ hlt
      exact (ih (Nat.lt_of_succ_lt hlt)).trans
        (hreach.trans (.single (isParent_other hparents)))

/-- What is made in a turn is above all that was made in the turns before. -/
theorem ancestor {t t' : Nat} (htt : t < t') (hlt : t' < length) :
    G.Ancestor (made t) (made t') := by
  cases t' with
  | zero => exact absurd htt (Nat.not_lt_zero t)
  | succ t' =>
      obtain ⟨s, o, hparents, -, hreach⟩ := h.next t' hlt
      have hbelow := h.reaches (Nat.le_of_lt_succ htt) (Nat.lt_of_succ_lt hlt)
      exact Relation.TransGen.tail' (hbelow.trans hreach) (isParent_other hparents)

/-- Where each peer has one turn in `n`, always at its place, `n` turns are a round. -/
theorem rounds {n k : Nat} {place : P → Nat} (hlength : length = (k + 1) * n)
    (hplace : ∀ p ∈ G.peers, place p < n ∧ ∀ j, turn (j * n + place p) = p) :
    G.Rounds k fun j p => made (j * n + place p) := by
  have hlt : ∀ j ≤ k, ∀ p ∈ G.peers, j * n + place p < length := by
    intro j hj p hp
    calc j * n + place p < j * n + n := Nat.add_lt_add_left (hplace p hp).1 _
      _ = (j + 1) * n := (Nat.succ_mul j n).symm
      _ ≤ (k + 1) * n := Nat.mul_le_mul_right n (Nat.succ_le_succ hj)
      _ = length := hlength.symm
  constructor
  case creator =>
    intro j hj p hp
    exact (h.creator _ (hlt j hj p hp)).trans ((hplace p hp).2 j)
  case sees =>
    intro j hj p hp q hq
    refine h.ancestor ?_ (hlt (j + 1) hj p hp)
    have hq := (hplace q hq).1
    rw [Nat.succ_mul]
    omega
  case current =>
    intro j hj p hp s o hparents
    have hturn := hlt (j + 1) hj p hp
    have hp := (hplace p hp).1
    obtain ⟨t, ht⟩ : ∃ t, (j + 1) * n + place p = t + 1 :=
      Nat.exists_eq_succ_of_ne_zero (by rw [Nat.succ_mul]; omega)
    simp only [ht] at hparents hturn
    obtain ⟨s', o', hparents', hcreator, hreach⟩ := h.next t hturn
    cases hparents'.symm.trans hparents
    have ho := G.creator_mem o
    rw [hcreator] at ho ⊢
    -- the peer's vertex of the round before is from this turn or an earlier one
    refine (h.reaches ?_ (Nat.lt_of_succ_lt hturn)).trans hreach
    have hq := (hplace _ ho).1
    rw [Nat.succ_mul] at ht
    omega

end Turns

end QuorumGraph

end ParentGraphs
