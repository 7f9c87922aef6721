import Mathlib.Data.List.Range
import Mathlib.Logic.Function.Basic

/-!
# Ring buffers

A ring of `size` cells read as a queue: the cells from a position on, in order,
with positions taken modulo the size.  Adding behind the last cell of a window
that does not fill the ring leaves the window alone, and taking from its front
moves it by one.
-/

namespace StakOS.Lib.Ring

variable {α : Type*}

/-- The `count` cells of the ring from position `tail` on. -/
def window (size : Nat) (cells : Nat → α) (tail : Nat) : Nat → List α
  | 0 => []
  | count + 1 => cells (tail % size) :: window size cells (tail + 1) count

theorem length_window (size : Nat) (cells : Nat → α) (tail count : Nat) :
    (window size cells tail count).length = count := by
  induction count generalizing tail with
  | zero => rfl
  | succ count ih => rw [window, List.length_cons, ih]

/-- Positions that agree modulo the size see the same window. -/
theorem window_mod (size : Nat) (cells : Nat → α) (tail count : Nat) :
    window size cells (tail % size) count = window size cells tail count := by
  induction count generalizing tail with
  | zero => rfl
  | succ count ih =>
      rw [window, window, Nat.mod_mod, ← ih (tail % size + 1), ← ih (tail + 1), Nat.mod_add_mod]

/-- The last cell of a window, split off. -/
theorem window_succ (size : Nat) (cells : Nat → α) (tail count : Nat) :
    window size cells tail (count + 1) =
      window size cells tail count ++ [cells ((tail + count) % size)] := by
  induction count generalizing tail with
  | zero => rfl
  | succ count ih =>
      rw [window, ih, window, List.cons_append, show tail + (count + 1) = tail + 1 + count by omega]

/-- A store into a cell outside the window leaves it alone. -/
theorem window_update {size : Nat} (cells : Nat → α) {tail count position : Nat} (v : α)
    (hout : ∀ i, i < count → (tail + i) % size ≠ position) :
    window size (Function.update cells position v) tail count = window size cells tail count := by
  induction count generalizing tail with
  | zero => rfl
  | succ count ih =>
      have hfirst : tail % size ≠ position := hout 0 (Nat.succ_pos count)
      have hrest : ∀ i, i < count → (tail + 1 + i) % size ≠ position := by
        intro i hi
        have hnext := hout (i + 1) (by omega)
        rwa [show tail + (i + 1) = tail + 1 + i by omega] at hnext
      rw [window, window, Function.update_of_ne hfirst, ih hrest]

/-- The cells of a window that does not fill the ring are distinct from the cell
behind it. -/
theorem add_mod_ne {size tail i j : Nat} (hij : i < j) (hj : j < i + size) :
    (tail + i) % size ≠ (tail + j) % size := by
  intro heq
  have hzero := Nat.sub_mod_eq_zero_of_mod_eq heq.symm
  rw [Nat.mod_eq_of_lt (by omega)] at hzero
  omega

/-- Adding behind a window that does not fill the ring. -/
theorem window_push {size : Nat} (cells : Nat → α) {tail count : Nat} (v : α)
    (hroom : count < size) :
    window size (Function.update cells ((tail + count) % size) v) tail (count + 1) =
      window size cells tail count ++ [v] := by
  have hout : ∀ i, i < count → (tail + i) % size ≠ (tail + count) % size :=
    fun i hi => add_mod_ne hi (by omega)
  rw [window_succ, window_update cells v hout, Function.update_self]

end StakOS.Lib.Ring
