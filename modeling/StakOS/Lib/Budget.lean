import Mathlib.Algebra.BigOperators.Group.List.Basic
import Mathlib.Data.List.TakeWhile
import Mathlib.Tactic.NormNum

/-!
# Deadlines

Steps of a system cost something, and a waiting party has a budget.  When every step is paid
for out of the budget, a run cannot cost more than the budget it started with; what has not
happened by then is a contradiction.

The budget of a node that waits in a queue is the load ahead of it: the weights of the nodes
that are served before it.
-/

namespace StakOS.Lib.Budget

/-! ## Runs that cost something -/

section Runs

variable {σ : Type} {step : σ → Nat → σ → Prop}

/-- A run, with the sum of what its steps cost. -/
inductive Spends (step : σ → Nat → σ → Prop) (s : σ) : Nat → σ → Prop
  | refl : Spends step s 0 s
  | tail {n c : Nat} {t u : σ} (hrun : Spends step s n t) (hstep : step t c u) :
      Spends step s (n + c) u

/-- Every step is paid for: what a run costs and what is left are within the budget. -/
theorem Spends.within {inv : Nat → σ → Prop}
    (hpaid : ∀ b s c t, inv b s → step s c t → ∃ b', inv b' t ∧ b' + c ≤ b)
    {s t : σ} {n b : Nat} (hrun : Spends step s n t) (hs : inv b s) :
    ∃ b', inv b' t ∧ b' + n ≤ b := by
  induction hrun with
  | refl => exact ⟨b, hs, Nat.le_refl b⟩
  | @tail n c t u _ hstep ih =>
      obtain ⟨b₁, ht, hle₁⟩ := ih
      obtain ⟨b₂, hu, hle₂⟩ := hpaid b₁ t c u ht hstep
      exact ⟨b₂, hu, by omega⟩

end Runs

/-! ## The load ahead of a node -/

section Load

variable {α : Type} [DecidableEq α]

/-- The weights of the nodes ahead of `p`. -/
def load (w : α → Nat) (p : α) (q : List α) : Nat :=
  ((q.takeWhile fun x => decide (x ≠ p)).map w).sum

variable {w w' : α → Nat} {p x : α} {xs ys q : List α}

theorem load_append_of_notMem (hxs : p ∉ xs) (ys : List α) :
    load w p (xs ++ ys) = (xs.map w).sum + load w p ys := by
  have hpass : ∀ x ∈ xs, decide (x ≠ p) = true := fun x hx =>
    decide_eq_true fun hxp => hxs (hxp ▸ hx)
  unfold load
  rw [List.takeWhile_append_of_pos hpass, List.map_append, List.sum_append]

theorem load_append_of_mem (hxs : p ∈ xs) (ys : List α) : load w p (xs ++ ys) = load w p xs := by
  have hstop : (xs.takeWhile fun x => decide (x ≠ p)).length ≠ xs.length := by
    intro hall
    have heq := (List.takeWhile_prefix fun x => decide (x ≠ p)).eq_of_length hall
    rw [← heq] at hxs
    have hne : decide (p ≠ p) = true := List.mem_takeWhile_imp (p := fun x => decide (x ≠ p)) hxs
    exact of_decide_eq_true hne rfl
  unfold load
  rw [List.takeWhile_append, if_neg hstop]

theorem load_cons_self (ys : List α) : load w p (p :: ys) = 0 := by
  unfold load
  rw [List.takeWhile_cons_of_neg (by simp)]
  rfl

theorem load_cons_of_ne (hx : x ≠ p) (ys : List α) : load w p (x :: ys) = w x + load w p ys := by
  have hnot : p ∉ [x] := fun hmem => hx (List.mem_singleton.mp hmem).symm
  have happend := load_append_of_notMem (w := w) hnot ys
  rw [List.map_singleton, List.sum_singleton] at happend
  exact happend

/-- The load ahead of `p` is that of the nodes before it. -/
theorem load_split (hxs : p ∉ xs) (ys : List α) :
    load w p (xs ++ p :: ys) = (xs.map w).sum := by
  rw [load_append_of_notMem hxs, load_cons_self, Nat.add_zero]

/-- Another node is served and goes to the end: its weight is not ahead any more. -/
theorem load_serve (hxs : p ∉ xs) (hx : x ≠ p) (hys : p ∈ ys) :
    load w p (ys ++ xs ++ [x]) + w x ≤ load w p (xs ++ x :: ys) := by
  have hbefore : load w p (xs ++ x :: ys) = (xs.map w).sum + (w x + load w p ys) := by
    rw [load_append_of_notMem hxs, load_cons_of_ne hx]
  have hafter : load w p (ys ++ xs ++ [x]) = load w p ys := by
    rw [List.append_assoc, load_append_of_mem hys]
  omega

/-- A node that leaves makes the load no greater. -/
theorem load_leave (hx : x ≠ p) : load w p (xs ++ ys) ≤ load w p (xs ++ x :: ys) := by
  by_cases hxs : p ∈ xs
  · rw [load_append_of_mem hxs, load_append_of_mem hxs]
  · rw [load_append_of_notMem hxs, load_append_of_notMem hxs, load_cons_of_ne hx]
    omega

theorem load_congr (h : ∀ x ∈ q, w' x = w x) : load w' p q = load w p q := by
  unfold load
  congr 1
  apply List.map_congr_left
  intro x hx
  exact h x ((List.takeWhile_prefix _).subset hx)

end Load

end StakOS.Lib.Budget
