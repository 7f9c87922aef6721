import Mathlib.Algebra.GroupWithZero.Nat
import Mathlib.Data.Fin.Basic
import Mathlib.Logic.Function.Basic

/-!
# A terminal with unlimited rows

The document has rows of `cols` cells without end, and a window shows `rows` of them.
The cursor is a cell of the window.  The window only moves down, by a row when the
cursor would pass its last one; what has left it stays in the document and is not
seen again.

A screen of fixed size follows the window if it is stored to where the terminal is
written, and moved up by a row, with a blank one below, when the window moves.
-/

namespace StakOS.Lib

/-- A document, the first of its rows that is shown, and the cursor in the window. -/
structure Terminal (rows cols : Nat) (α : Type*) where
  cell : Nat → Fin cols → α
  top : Nat
  row : Fin rows
  col : Fin cols

namespace Terminal

variable {rows cols : Nat} {α β : Type*}

/-- What the window shows. -/
def view (t : Terminal rows cols α) (r : Fin rows) (c : Fin cols) : α := t.cell (t.top + r) c

/-- Blank, with the cursor in the first cell. -/
def cleared [NeZero rows] [NeZero cols] (blank : α) : Terminal rows cols α where
  cell := fun _ _ => blank
  top := 0
  row := 0
  col := 0

/-- Write into the cell at the cursor. -/
def put (t : Terminal rows cols α) (a : α) : Terminal rows cols α :=
  { t with
    cell := Function.update t.cell (t.top + t.row)
      (Function.update (t.cell (t.top + t.row)) t.col a) }

section Moves

variable [NeZero cols]

/-- To the start of the next row.  Behind the last row of the window, the window moves
down to a blank row. -/
def newLine (t : Terminal rows cols α) (blank : α) : Terminal rows cols α :=
  if h : t.row + 1 < rows then { t with row := ⟨t.row + 1, h⟩, col := 0 }
  else
    { t with
      cell := Function.update t.cell (t.top + rows) fun _ => blank
      top := t.top + 1
      col := 0 }

/-- To the next cell, in the next row behind the last column. -/
def advance (t : Terminal rows cols α) (blank : α) : Terminal rows cols α :=
  if h : t.col + 1 < cols then { t with col := ⟨t.col + 1, h⟩ } else t.newLine blank

/-- To the cell before, in the row before in front of the first column; the first cell
of the window has none. -/
def stepBack (t : Terminal rows cols α) : Terminal rows cols α :=
  if 0 < t.col.val then { t with col := ⟨t.col - 1, by have := t.col.isLt; omega⟩ }
  else if 0 < t.row.val then
    { t with
      row := ⟨t.row - 1, by have := t.row.isLt; omega⟩
      col := ⟨cols - 1, Nat.sub_one_lt (NeZero.ne cols)⟩ }
  else t

def write (t : Terminal rows cols α) (a blank : α) : Terminal rows cols α :=
  (t.put a).advance blank

def erase (t : Terminal rows cols α) (blank : α) : Terminal rows cols α := t.stepBack.put blank

end Moves

/-! ## What the window shows -/

section View

variable {t : Terminal rows cols α}

theorem view_put (a : α) (r : Fin rows) (c : Fin cols) :
    (t.put a).view r c = if r = t.row ∧ c = t.col then a else t.view r c := by
  unfold view put
  dsimp only
  by_cases hrow : r = t.row
  · subst hrow
    rw [Function.update_self]
    by_cases hcol : c = t.col
    · subst hcol
      rw [Function.update_self, if_pos ⟨rfl, rfl⟩]
    · rw [Function.update_of_ne hcol, if_neg fun h => hcol h.2]
  · have hne : t.top + r ≠ t.top + t.row := fun h => hrow (Fin.ext (Nat.add_left_cancel h))
    rw [Function.update_of_ne hne, if_neg fun h => hrow h.1]

variable [NeZero cols]

theorem newLine_of_lt (blank : α) (h : t.row + 1 < rows) :
    t.newLine blank = { t with row := ⟨t.row + 1, h⟩, col := 0 } := dif_pos h

theorem newLine_of_last (blank : α) (h : ¬ t.row + 1 < rows) :
    t.newLine blank =
      { t with
        cell := Function.update t.cell (t.top + rows) fun _ => blank
        top := t.top + 1
        col := 0 } := dif_neg h

/-- The rows move up by one when the window moves down. -/
theorem view_newLine_of_last (blank : α) (h : ¬ t.row + 1 < rows) (r : Fin rows) (c : Fin cols) :
    (t.newLine blank).view r c =
      if hr : r + 1 < rows then t.view ⟨r + 1, hr⟩ c else blank := by
  rw [newLine_of_last blank h]
  unfold view
  have hrow : t.top + 1 + r = t.top + (r + 1) := by omega
  by_cases hr : r + 1 < rows
  · rw [dif_pos hr]
    simp only [hrow]
    rw [Function.update_of_ne (by omega)]
  · have hlast : r + 1 = rows := by omega
    rw [dif_neg hr]
    simp only [hrow, hlast]
    rw [Function.update_self]

/-- What is written is seen, in a window of two rows or more. -/
theorem exists_view_write (hrows : 2 ≤ rows) (a blank : α) :
    ∃ r c, (t.write a blank).view r c = a := by
  have hput : (t.put a).view t.row t.col = a := by rw [view_put, if_pos ⟨rfl, rfl⟩]
  unfold write advance
  by_cases hcol : (t.put a).col + 1 < cols
  · rw [dif_pos hcol]
    exact ⟨t.row, t.col, hput⟩
  · rw [dif_neg hcol]
    by_cases hrow : (t.put a).row + 1 < rows
    · rw [newLine_of_lt blank hrow]
      exact ⟨t.row, t.col, hput⟩
    · -- the row of the cursor was the last one and is the last but one now
      have hlast : t.row + 1 = rows := by
        have := t.row.isLt
        change ¬ t.row + 1 < rows at hrow
        omega
      refine ⟨⟨t.row - 1, by omega⟩, t.col, ?_⟩
      have hup : t.row - 1 + 1 = t.row.val := by omega
      rw [view_newLine_of_last blank hrow, dif_pos (by simp only [hup]; exact t.row.isLt)]
      simp only [hup]
      exact hput

end View

/-! ## A screen that follows the window -/

/-- The screen shows the window, cell by cell up to `rel`. -/
def ShownOn (rel : β → α → Prop) (screen : Fin rows → Fin cols → β) (t : Terminal rows cols α) :
    Prop :=
  ∀ r c, rel (screen r c) (t.view r c)

namespace ShownOn

variable {rel : β → α → Prop} {screen screen' : Fin rows → Fin cols → β} {t : Terminal rows cols α}
  {a : α} {b : β}

theorem cleared [NeZero rows] [NeZero cols] (h : ∀ r c, rel (screen r c) a) :
    ShownOn rel screen (Terminal.cleared a) := h

theorem put (h : ShownOn rel screen t) (hab : rel b a)
    (hscreen : ∀ r c, screen' r c = if r = t.row ∧ c = t.col then b else screen r c) :
    ShownOn rel screen' (t.put a) := by
  intro r c
  rw [view_put, hscreen]
  by_cases hcursor : r = t.row ∧ c = t.col
  · rw [if_pos hcursor, if_pos hcursor]
    exact hab
  · rw [if_neg hcursor, if_neg hcursor]
    exact h r c

/-- Copying the rows of the screen up by one is moving the window down by one. -/
theorem scroll [NeZero cols] (h : ShownOn rel screen t) (hlast : ¬ t.row + 1 < rows) (hab : rel b a)
    (hscreen : ∀ r c, screen' r c = if hr : r + 1 < rows then screen ⟨r + 1, hr⟩ c else b) :
    ShownOn rel screen' (t.newLine a) := by
  intro r c
  rw [view_newLine_of_last a hlast, hscreen]
  by_cases hr : r + 1 < rows
  · rw [dif_pos hr, dif_pos hr]
    exact h _ c
  · rw [dif_neg hr, dif_neg hr]
    exact hab

end ShownOn

end Terminal

end StakOS.Lib
