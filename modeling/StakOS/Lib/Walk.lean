import StakOS.Lib.Linked
import StakOS.Lib.Loop

/-!
# Walks over linked lists

`while (p) { visit(p); p = p->next; }` is a fold over the nodes of the list.
-/

namespace StakOS.Lib.Walk

open StakOS.Lib.Linked StakOS.Lib.Loop

variable {α β : Type} [DecidableEq α] (null : α) (next : α → α) (visit : β → α → β)

def walkTurn : α × β → Turn (α × β) β
  | (p, acc) => if p = null then .done acc else .again (next p, visit acc p)

/-- The walk from `p`, with what has been gathered on the way. -/
def walk (p : α) (acc : β) : Outcome β := loop (walkTurn null next visit) turns (p, acc)

variable {null next visit}

theorem walkTurn_again {p : α} (h : p ≠ null) (acc : β) :
    walkTurn null next visit (p, acc) = .again (next p, visit acc p) := if_neg h

theorem loop_walkTurn {p : α} {xs : List α} (h : Chain next p xs null) (hnull : null ∉ xs)
    {bound : Nat} (hlen : xs.length < bound) (acc : β) :
    loop (walkTurn null next visit) bound (p, acc) = .ok (xs.foldl visit acc) := by
  obtain ⟨bound, rfl⟩ : ∃ n, bound = n + 1 := Nat.exists_eq_add_one_of_ne_zero (by omega)
  induction xs generalizing p acc bound with
  | nil => exact loop_of_done (if_pos h)
  | cons x xs ih =>
      obtain ⟨rfl, hrest⟩ := chain_cons.mp h
      rw [List.mem_cons, not_or] at hnull
      rw [List.length_cons] at hlen
      obtain ⟨bound, rfl⟩ : ∃ n, bound = n + 1 := Nat.exists_eq_add_one_of_ne_zero (by omega)
      rw [loop_of_again (walkTurn_again (Ne.symm hnull.1) acc)]
      exact ih hrest hnull.2 (visit acc p) bound (by omega)

theorem walk_eq_foldl {p : α} {xs : List α} (h : Chain next p xs null) (hnull : null ∉ xs)
    (hlen : xs.length < turns) (acc : β) :
    walk null next visit p acc = .ok (xs.foldl visit acc) :=
  loop_walkTurn h hnull hlen acc

end StakOS.Lib.Walk
