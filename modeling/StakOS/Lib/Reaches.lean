import Mathlib.Logic.Relation

/-!
# Reaching a condition

From every state with `P` some run leads to a state with `Q`.  Runs are put together
one behind the other, and a stretch of a run can be repeated any number of times.
-/

namespace StakOS.Lib

open Relation (ReflTransGen)

variable {σ : Type} {step : σ → σ → Prop} {P Q R : σ → Prop}

/-- From `P` a run leads to `Q`. -/
def Reaches (step : σ → σ → Prop) (P Q : σ → Prop) : Prop :=
  ∀ s, P s → ∃ t, ReflTransGen step s t ∧ Q t

namespace Reaches

theorem refl (P : σ → Prop) : Reaches step P P := fun s hs => ⟨s, .refl, hs⟩

theorem single (h : ∀ s, P s → ∃ t, step s t ∧ Q t) : Reaches step P Q := by
  intro s hs
  obtain ⟨t, hst, ht⟩ := h s hs
  exact ⟨t, .single hst, ht⟩

theorem trans (hpq : Reaches step P Q) (hqr : Reaches step Q R) : Reaches step P R := by
  intro s hs
  obtain ⟨t, hst, ht⟩ := hpq s hs
  obtain ⟨u, htu, hu⟩ := hqr t ht
  exact ⟨u, hst.trans htu, hu⟩

/-- The same stretch `n` times over. -/
theorem iterate {I : Nat → σ → Prop} (h : ∀ i, Reaches step (I i) (I (i + 1))) (n : Nat) :
    Reaches step (I 0) (I n) := by
  induction n with
  | zero => exact refl _
  | succ n ih => exact ih.trans (h n)

end Reaches

end StakOS.Lib
