/-
Machines that emit items as they step.  When each step is determined by the
state, two runs from one state emit the same items for as long as both last.
-/
import Mathlib.Logic.Relation
import Mathlib.Data.List.Basic

namespace Emissions

universe u v

variable {σ : Type u} {α : Type v}

/-- A run of steps, with all the items it has emitted. -/
inductive Emits (step : σ → List α → σ → Prop) : σ → List α → σ → Prop
  | refl (s : σ) : Emits step s [] s
  | head {s t u : σ} {items rest : List α} :
      step s items t → Emits step t rest u → Emits step s (items ++ rest) u

/-- What a step emits, and where it leads, depends on the state alone. -/
def Deterministic (step : σ → List α → σ → Prop) : Prop :=
  ∀ s t t' items items', step s items t → step s items' t' →
    items = items' ∧ t = t'

variable {step : σ → List α → σ → Prop}

theorem Emits.trans {s t u : σ} {items rest : List α}
    (h : Emits step s items t) (h' : Emits step t rest u) :
    Emits step s (items ++ rest) u := by
  induction h with
  | refl => exact h'
  | head hstep _ ih =>
      rw [List.append_assoc]
      exact .head hstep (ih h')

theorem Emits.single {s t : σ} {items : List α} (h : step s items t) :
    Emits step s items t := by
  have hrun := Emits.head h (.refl t)
  rwa [List.append_nil] at hrun

/-- Of two runs from one state, one has emitted a prefix of what the other has
emitted. -/
theorem Emits.prefix_total (hdet : Deterministic step) {s t t' : σ}
    {items items' : List α} (h : Emits step s items t)
    (h' : Emits step s items' t') : items <+: items' ∨ items' <+: items := by
  induction h generalizing items' with
  | refl => exact Or.inl List.nil_prefix
  | head hstep _ ih =>
      cases h' with
      | refl => exact Or.inr List.nil_prefix
      | head hstep' hrest' =>
          obtain ⟨rfl, rfl⟩ := hdet _ _ _ _ _ hstep hstep'
          rcases ih hrest' with hpre | hpre
          · exact Or.inl ((List.prefix_append_right_inj _).mpr hpre)
          · exact Or.inr ((List.prefix_append_right_inj _).mpr hpre)

end Emissions
