/-
Frame numbers on a two-parent graph.  A vertex whose parents stand in one frame
moves to the next frame when a majority of the peers have a root of that frame
below it.  Nothing is pruned here: frames, roots and bounds are functions of
the ancestry alone.
-/
import Mathlib.Data.Finset.Card
import Mathlib.Order.Lattice.Nat
import Mathlib.Order.ConditionallyCompleteLattice.Basic
import ConsensusDag.Lib.ParentGraph

namespace ParentGraphs

universe u v

/-- A two-parent graph with a finite set of peers and a majority threshold. -/
structure QuorumGraph (V : Type u) (P : Type v) extends ParentGraph V P where
  peers : Finset P
  majority : Nat
  creator_mem : ∀ v, creator v ∈ peers

namespace QuorumGraph

open ParentGraph

variable {V : Type u} {P : Type v} (G : QuorumGraph V P)

/-- `c` has a root of frame `f` among the ancestors of `v`, read off the frames
`below` of these ancestors. -/
def HasRootBelow (v : V) (below : ∀ u, G.Ancestor u v → Nat) (f : Nat)
    (c : P) : Prop :=
  ∃ r, ∃ hr : G.Ancestor r v,
    (∀ s o, ∀ hs : G.parents r = some (s, o),
      below s (.trans (.single (isParent_self hs)) hr) < below r hr) ∧
    below r hr = f ∧ G.creator r = c

open scoped Classical in
/-- The frame of a vertex, by recursion on the graph.  A leaf has frame zero.
A vertex takes the larger frame of its parents when these differ; when both are
`f` it takes `f + 1` if roots of frame `f` by a majority of the peers are among
its ancestors, and `f` otherwise. -/
noncomputable def frame : V → Nat :=
  (wellFounded_ancestor (G := G.toParentGraph)).fix fun v below =>
    match hv : G.parents v with
    | none => 0
    | some (s, o) =>
        let first := below s (.single (isParent_self hv))
        let second := below o (.single (isParent_other hv))
        if first = second then
          if G.majority ≤ (G.peers.filter (G.HasRootBelow v below first)).card
          then first + 1 else first
        else max first second

/-- A root is a leaf, or a vertex whose frame exceeds its self-parent's. -/
def IsRoot (r : V) : Prop :=
  ∀ s o, G.parents r = some (s, o) → G.frame s < G.frame r

open scoped Classical in
/-- The creators of the roots of frame `f` among the ancestors of `v`. -/
noncomputable def rootCreators (v : V) (f : Nat) : Finset P :=
  G.peers.filter fun c =>
    ∃ r, G.Ancestor r v ∧ G.IsRoot r ∧ G.frame r = f ∧ G.creator r = c

/-- The highest frame of a root by `c` among `v` and its ancestors, zero when
there is none. -/
noncomputable def topFrame (c : P) (v : V) : Nat :=
  sSup {f | ∃ r, G.Reaches r v ∧ G.IsRoot r ∧ G.creator r = c ∧ G.frame r = f}

/-- The least `topFrame` over all peers. -/
noncomputable def bound (v : V) : Nat :=
  sInf ((fun c => G.topFrame c v) '' G.peers)

variable {G}

theorem frame_of_leaf {v : V} (hv : G.parents v = none) : G.frame v = 0 := by
  rw [frame, WellFounded.fix_eq]
  split
  · rfl
  · rename_i hv'
    rw [hv] at hv'
    cases hv'

open scoped Classical in
theorem frame_of_parents {v s o : V} (hv : G.parents v = some (s, o)) :
    G.frame v =
      if G.frame s = G.frame o then
        if G.majority ≤ (G.rootCreators v (G.frame s)).card
        then G.frame s + 1 else G.frame s
      else max (G.frame s) (G.frame o) := by
  rw [frame, WellFounded.fix_eq]
  split
  · rename_i hv'
    rw [hv] at hv'
    cases hv'
  · rename_i s' o' hv'
    rw [hv] at hv'
    cases hv'
    have hcreators : ∀ f, G.peers.filter (G.HasRootBelow v
        (fun u _ => G.frame u) f) = G.rootCreators v f := by
      intro f
      refine Finset.filter_congr fun c _ => ?_
      simp only [HasRootBelow, IsRoot, exists_prop]
    rw [← hcreators]
    rfl

theorem isRoot_of_leaf {v : V} (hv : G.parents v = none) : G.IsRoot v := by
  intro s o hv'
  rw [hv] at hv'
  cases hv'

theorem isRoot_iff_of_parents {v s o : V} (hv : G.parents v = some (s, o)) :
    G.IsRoot v ↔ G.frame s < G.frame v := by
  constructor
  · exact fun h => h s o hv
  · intro h s' o' hv'
    rw [hv] at hv'
    cases hv'
    exact h

theorem frame_self_le {v s o : V} (hv : G.parents v = some (s, o)) :
    G.frame s ≤ G.frame v := by
  rw [frame_of_parents hv]
  split
  · split <;> omega
  · exact Nat.le_max_left _ _

theorem frame_other_le {v s o : V} (hv : G.parents v = some (s, o)) :
    G.frame o ≤ G.frame v := by
  rw [frame_of_parents hv]
  split
  · split <;> omega
  · exact Nat.le_max_right _ _

/-- Frames never decrease along a path of the graph. -/
theorem frame_le_of_reaches {u v : V} (h : G.Reaches u v) :
    G.frame u ≤ G.frame v := by
  induction h with
  | refl => exact Nat.le_refl _
  | tail _ hstep ih =>
      obtain ⟨s, o, hv, rfl | rfl⟩ := hstep
      · exact Nat.le_trans ih (frame_self_le hv)
      · exact Nat.le_trans ih (frame_other_le hv)

/-- A creator has at most one root in a frame. -/
theorem root_unique {r r' : V} (hr : G.IsRoot r) (hr' : G.IsRoot r')
    (hcreator : G.creator r = G.creator r')
    (hframe : G.frame r = G.frame r') : r = r' := by
  -- a root strictly above another on one chain has the larger frame
  have habove : ∀ {a b : V}, G.IsRoot b → G.frame a = G.frame b →
      G.SelfReaches a b → a = b := by
    intro a b hb hab hreach
    by_contra hne
    cases hv : G.parents b with
    | none =>
        exact hne ((reaches_iff_of_leaf hv).mp hreach.reaches)
    | some pair =>
        obtain ⟨s, o⟩ := pair
        have hle := frame_le_of_reaches (hreach.of_ne hne hv).reaches
        have hlt := hb s o hv
        omega
  rcases selfReaches_total hcreator with h | h
  · exact habove hr' hframe h
  · exact (habove hr hframe.symm h).symm

theorem mem_rootCreators {v : V} {f : Nat} {c : P} :
    c ∈ G.rootCreators v f ↔
      ∃ r, G.Ancestor r v ∧ G.IsRoot r ∧ G.frame r = f ∧ G.creator r = c := by
  simp only [rootCreators, Finset.mem_filter, and_iff_right_iff_imp]
  rintro ⟨r, _, _, _, rfl⟩
  exact G.creator_mem r

theorem rootCreators_mono {u v : V} (h : G.Reaches u v) (f : Nat) :
    G.rootCreators u f ⊆ G.rootCreators v f := by
  intro c hc
  obtain ⟨r, hr, hroot⟩ := mem_rootCreators.mp hc
  exact mem_rootCreators.mpr ⟨r, Relation.TransGen.trans_left hr h, hroot⟩

/-- Below every vertex of a frame greater than `f` there is a quorum of roots
of frame `f`.  Only one branch of the recursion checks the majority; the others
inherit the quorum of the parent whose frame they take. -/
theorem majority_le_rootCreators {v : V} {f : Nat} (hf : f < G.frame v) :
    G.majority ≤ (G.rootCreators v f).card := by
  induction v using G.acyclic.induction with
  | h v ih =>
      cases hv : G.parents v with
      | none =>
          rw [frame_of_leaf hv] at hf
          omega
      | some pair =>
          obtain ⟨s, o⟩ := pair
          have inherit : ∀ p, G.IsParent p v → f < G.frame p →
              G.majority ≤ (G.rootCreators v f).card := by
            intro p hp hfp
            exact Nat.le_trans (ih p hp hfp)
              (Finset.card_le_card (rootCreators_mono (.single hp) f))
          by_cases hs : f < G.frame s
          · exact inherit s (isParent_self hv) hs
          by_cases ho : f < G.frame o
          · exact inherit o (isParent_other hv) ho
          -- neither parent is above `f`: the majority was counted here
          rw [frame_of_parents hv] at hf
          split at hf
          · split at hf
            · rename_i hmajority
              have heq : G.frame s = f := by omega
              rwa [heq] at hmajority
            · omega
          · omega

/-- The roots of one frame below both of two higher vertices: two majorities
meet, and their members meet in the same root. -/
theorem majority_overlap {v w : V} {f : Nat} (hv : f < G.frame v)
    (hw : f < G.frame w) (common : Finset P)
    (hcommon : ∀ c r, G.Ancestor r v → G.Ancestor r w → G.IsRoot r →
      G.frame r = f → G.creator r = c → c ∈ common) :
    2 * G.majority ≤ common.card + G.peers.card := by
  classical
  have hsub : G.rootCreators v f ∩ G.rootCreators w f ⊆ common := by
    intro c hc
    obtain ⟨hcv, hcw⟩ := Finset.mem_inter.mp hc
    obtain ⟨r, hrv, hroot, hframe, hcreator⟩ := mem_rootCreators.mp hcv
    obtain ⟨r', hrw, hroot', hframe', hcreator'⟩ := mem_rootCreators.mp hcw
    have hsame : r = r' := root_unique hroot hroot'
      (hcreator.trans hcreator'.symm) (hframe.trans hframe'.symm)
    subst r'
    exact hcommon c r hrv hrw hroot hframe hcreator
  have hunion : (G.rootCreators v f ∪ G.rootCreators w f).card ≤ G.peers.card :=
    Finset.card_le_card (Finset.union_subset (Finset.filter_subset _ _)
      (Finset.filter_subset _ _))
  have hcard := Finset.card_union_add_card_inter
    (G.rootCreators v f) (G.rootCreators w f)
  have hinter := Finset.card_le_card hsub
  have hmv := majority_le_rootCreators hv
  have hmw := majority_le_rootCreators hw
  omega

theorem lt_topFrame_iff {c : P} {v : V} {f : Nat} :
    f < G.topFrame c v ↔
      ∃ r, G.Reaches r v ∧ G.IsRoot r ∧ G.creator r = c ∧ f < G.frame r := by
  have hbdd : BddAbove
      {f | ∃ r, G.Reaches r v ∧ G.IsRoot r ∧ G.creator r = c ∧ G.frame r = f} := by
    refine ⟨G.frame v, ?_⟩
    rintro g ⟨r, hr, _, _, rfl⟩
    exact frame_le_of_reaches hr
  constructor
  · intro hlt
    by_contra hnone
    push Not at hnone
    have hle : G.topFrame c v ≤ f := by
      apply csSup_le'
      rintro g ⟨r, hr, hroot, hcreator, rfl⟩
      exact hnone r hr hroot hcreator
    omega
  · rintro ⟨r, hr, hroot, hcreator, hlt⟩
    exact Nat.lt_of_lt_of_le hlt
      (le_csSup hbdd ⟨r, hr, hroot, hcreator, rfl⟩)

/-- A frame is below the bound of `v` when every peer has a later root among
`v` and its ancestors. -/
theorem lt_bound_iff {v : V} {f : Nat} :
    f < G.bound v ↔ ∀ c ∈ G.peers,
      ∃ r, G.Reaches r v ∧ G.IsRoot r ∧ G.creator r = c ∧ f < G.frame r := by
  have hne : ((fun c => G.topFrame c v) '' G.peers).Nonempty :=
    ⟨_, G.creator v, G.creator_mem v, rfl⟩
  constructor
  · intro hlt c hc
    rw [← lt_topFrame_iff]
    exact Nat.lt_of_lt_of_le hlt (Nat.sInf_le ⟨c, hc, rfl⟩)
  · intro hall
    obtain ⟨c, hc, heq⟩ := Nat.sInf_mem hne
    rw [bound, ← heq]
    exact lt_topFrame_iff.mpr (hall c hc)

theorem bound_le_frame (v : V) : G.bound v ≤ G.frame v := by
  by_contra hlt
  obtain ⟨r, hr, _, _, hframe⟩ :=
    lt_bound_iff.mp (Nat.lt_of_not_ge hlt) _ (G.creator_mem v)
  have hle := frame_le_of_reaches hr
  omega

/-- A frame below the bound of `v` is complete at `v`: whatever vertex the
whole graph has in it is among `v` and its ancestors. -/
theorem reaches_of_frame_lt_bound {v w : V} (h : G.frame w < G.bound v) :
    G.Reaches w v := by
  obtain ⟨r, hr, _, hcreator, hframe⟩ :=
    lt_bound_iff.mp h _ (G.creator_mem w)
  rcases selfReaches_total hcreator with hrw | hwr
  · have hle := frame_le_of_reaches hrw.reaches
    omega
  · exact hwr.reaches.trans hr

/-- A vertex that `z` does not see has its self-parent beyond every frame below
the bound of `z`. -/
theorem lt_frame_self_of_lt_bound {z v s o : V} {f : Nat}
    (hf : f < G.bound z) (hnot : ¬ G.Reaches v z)
    (hv : G.parents v = some (s, o)) : f < G.frame s := by
  obtain ⟨r, hr, _, hcreator, hframe⟩ :=
    lt_bound_iff.mp hf _ (G.creator_mem v)
  rcases selfReaches_total hcreator with hrv | hvr
  · have hne : r ≠ v := by
      rintro rfl
      exact hnot hr
    exact Nat.lt_of_lt_of_le hframe
      (frame_le_of_reaches (hrv.of_ne hne hv).reaches)
  · exact absurd (hvr.reaches.trans hr) hnot

end QuorumGraph

end ParentGraphs
