/-
Graphs in which every vertex is a leaf or has two parents, one of them by the
same creator.  The vertices of one creator form a chain of self-parents; this
file says what follows from that about ancestors.
-/
import Mathlib.Logic.Relation
import Mathlib.Order.WellFounded

namespace ParentGraphs

universe u v

/-- A two-parent graph without cycles and without forks: a creator has one
leaf, and its vertices are told apart by their heights. -/
structure ParentGraph (V : Type u) (P : Type v) where
  creator : V → P
  height : V → Nat
  parents : V → Option (V × V)
  acyclic : WellFounded fun p v =>
    ∃ s o, parents v = some (s, o) ∧ (p = s ∨ p = o)
  creator_self : ∀ {v s o}, parents v = some (s, o) → creator s = creator v
  height_self : ∀ {v s o}, parents v = some (s, o) → height s + 1 = height v
  fork_free : ∀ {v w}, creator v = creator w → height v = height w → v = w
  leaf_unique : ∀ {v w}, parents v = none → parents w = none →
    creator v = creator w → v = w

namespace ParentGraph

variable {V : Type u} {P : Type v} (G : ParentGraph V P)

/-- `p` is one of the two parents of `v`. -/
def IsParent (p v : V) : Prop :=
  ∃ s o, G.parents v = some (s, o) ∧ (p = s ∨ p = o)

/-- `s` is the self-parent of `v`. -/
def IsSelfParent (s v : V) : Prop :=
  ∃ o, G.parents v = some (s, o)

/-- A proper ancestor. -/
def Ancestor : V → V → Prop :=
  Relation.TransGen G.IsParent

/-- `u` is `v` or one of its ancestors. -/
def Reaches : V → V → Prop :=
  Relation.ReflTransGen G.IsParent

/-- `u` is `v` or lies below it on its creator's chain. -/
def SelfReaches : V → V → Prop :=
  Relation.ReflTransGen G.IsSelfParent

/-- A set of vertices that holds the parents of each of its vertices. -/
def ParentClosed (S : Set V) : Prop :=
  ∀ v ∈ S, ∀ p, G.IsParent p v → p ∈ S

variable {G}

theorem wellFounded_ancestor : WellFounded G.Ancestor :=
  G.acyclic.transGen

theorem isParent_self {v s o : V} (hv : G.parents v = some (s, o)) :
    G.IsParent s v :=
  ⟨s, o, hv, Or.inl rfl⟩

theorem isParent_other {v s o : V} (hv : G.parents v = some (s, o)) :
    G.IsParent o v :=
  ⟨s, o, hv, Or.inr rfl⟩

theorem IsSelfParent.isParent {s v : V} (h : G.IsSelfParent s v) :
    G.IsParent s v := by
  obtain ⟨o, hv⟩ := h
  exact isParent_self hv

theorem SelfReaches.reaches {u v : V} (h : G.SelfReaches u v) :
    G.Reaches u v :=
  Relation.ReflTransGen.mono (fun _ _ => IsSelfParent.isParent) _ _ h

theorem Ancestor.reaches {u v : V} (h : G.Ancestor u v) : G.Reaches u v :=
  Relation.TransGen.to_reflTransGen h

theorem Reaches.eq_or_ancestor {u v : V} (h : G.Reaches u v) :
    u = v ∨ G.Ancestor u v := by
  rcases Relation.reflTransGen_iff_eq_or_transGen.mp h with heq | hlt
  · exact Or.inl heq.symm
  · exact Or.inr hlt

/-- A proper ancestor is reached from one of the two parents. -/
theorem ancestor_iff_of_parents {u v s o : V} (hv : G.parents v = some (s, o)) :
    G.Ancestor u v ↔ G.Reaches u s ∨ G.Reaches u o := by
  constructor
  · intro h
    obtain ⟨p, hup, s', o', hv', hp⟩ := Relation.TransGen.tail'_iff.mp h
    rw [hv] at hv'
    cases hv'
    rcases hp with rfl | rfl
    · exact Or.inl hup
    · exact Or.inr hup
  · rintro (h | h)
    · exact Relation.TransGen.tail' h (isParent_self hv)
    · exact Relation.TransGen.tail' h (isParent_other hv)

theorem not_ancestor_of_leaf {u v : V} (hv : G.parents v = none) :
    ¬ G.Ancestor u v := by
  intro h
  obtain ⟨p, _, s, o, hv', _⟩ := Relation.TransGen.tail'_iff.mp h
  rw [hv] at hv'
  cases hv'

theorem reaches_iff_of_leaf {u v : V} (hv : G.parents v = none) :
    G.Reaches u v ↔ u = v := by
  constructor
  · intro h
    exact h.eq_or_ancestor.resolve_right (not_ancestor_of_leaf hv)
  · rintro rfl
    exact Relation.ReflTransGen.refl

theorem ParentClosed.mem_of_reaches {S : Set V} (hS : G.ParentClosed S)
    {u v : V} (h : G.Reaches u v) (hv : v ∈ S) : u ∈ S := by
  induction h using Relation.ReflTransGen.head_induction_on with
  | refl => exact hv
  | head hparent _ ih => exact hS _ ih _ hparent

theorem SelfReaches.creator_eq {u v : V} (h : G.SelfReaches u v) :
    G.creator u = G.creator v := by
  induction h with
  | refl => rfl
  | tail _ hstep ih =>
      obtain ⟨o, hv⟩ := hstep
      exact ih.trans (G.creator_self hv)

theorem SelfReaches.height_le {u v : V} (h : G.SelfReaches u v) :
    G.height u ≤ G.height v := by
  induction h with
  | refl => exact Nat.le_refl _
  | tail _ hstep ih =>
      obtain ⟨o, hv⟩ := hstep
      exact Nat.le_trans ih (Nat.le_of_succ_le (G.height_self hv).le)

/-- Every chain of self-parents ends in a leaf. -/
theorem exists_leaf_selfReaches (v : V) :
    ∃ leaf, G.parents leaf = none ∧ G.SelfReaches leaf v := by
  induction v using G.acyclic.induction with
  | h v ih =>
      cases hv : G.parents v with
      | none => exact ⟨v, hv, Relation.ReflTransGen.refl⟩
      | some pair =>
          obtain ⟨s, o⟩ := pair
          obtain ⟨leaf, hleaf, hreach⟩ := ih s (isParent_self hv)
          exact ⟨leaf, hleaf, hreach.tail ⟨o, hv⟩⟩

/-- Two vertices of one creator lie on one chain, the lower one below. -/
theorem selfReaches_of_height_le {u v : V}
    (hcreator : G.creator u = G.creator v) (hheight : G.height u ≤ G.height v) :
    G.SelfReaches u v := by
  induction v using G.acyclic.induction with
  | h v ih =>
      rcases Nat.eq_or_lt_of_le hheight with heq | hlt
      · rw [G.fork_free hcreator heq]
        exact Relation.ReflTransGen.refl
      · cases hv : G.parents v with
        | none =>
            -- the leaf below `u` would be a second leaf of the creator of `v`
            obtain ⟨leaf, hleaf, hreach⟩ := exists_leaf_selfReaches (G := G) u
            have hsame : leaf = v :=
              G.leaf_unique hleaf hv (hreach.creator_eq.trans hcreator)
            have hle := hreach.height_le
            rw [hsame] at hle
            omega
        | some pair =>
            obtain ⟨s, o⟩ := pair
            have hs := G.height_self hv
            have hreach := ih s (isParent_self hv)
              (hcreator.trans (G.creator_self hv).symm) (by omega)
            exact hreach.tail ⟨o, hv⟩

/-- Below a vertex its creator has a vertex of each height. -/
theorem exists_selfReaches_of_height_le
    (hleaf : ∀ v, G.parents v = none → G.height v = 0) {v : V} {n : Nat}
    (hn : n ≤ G.height v) : ∃ u, G.SelfReaches u v ∧ G.height u = n := by
  induction v using G.acyclic.induction with
  | h v ih =>
      rcases Nat.eq_or_lt_of_le hn with heq | hlt
      · exact ⟨v, Relation.ReflTransGen.refl, heq.symm⟩
      · cases hv : G.parents v with
        | none =>
            rw [hleaf v hv] at hlt
            exact absurd hlt (Nat.not_lt_zero n)
        | some pair =>
            obtain ⟨s, o⟩ := pair
            have hs := G.height_self hv
            obtain ⟨u, hu, hheight⟩ := ih s (isParent_self hv) (by omega)
            exact ⟨u, hu.tail ⟨o, hv⟩, hheight⟩

theorem selfReaches_total {u v : V} (hcreator : G.creator u = G.creator v) :
    G.SelfReaches u v ∨ G.SelfReaches v u := by
  rcases Nat.le_total (G.height u) (G.height v) with hle | hle
  · exact Or.inl (selfReaches_of_height_le hcreator hle)
  · exact Or.inr (selfReaches_of_height_le hcreator.symm hle)

/-- A chain strictly below a vertex is a chain below its self-parent. -/
theorem SelfReaches.of_ne {u v s o : V} (h : G.SelfReaches u v) (hne : u ≠ v)
    (hv : G.parents v = some (s, o)) : G.SelfReaches u s := by
  rcases Relation.ReflTransGen.cases_tail h with heq | ⟨p, hup, o', hv'⟩
  · exact absurd heq.symm hne
  · rw [hv] at hv'
    cases hv'
    exact hup

end ParentGraph

end ParentGraphs
