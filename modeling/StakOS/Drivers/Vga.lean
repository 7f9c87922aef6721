import Mathlib.Logic.Function.Iterate
import Mathlib.Logic.Relation
import StakOS.Lib.Memory

/-!
# The text console

`kernel/vga.c`: a cursor over 25 rows of 80 cells.  The shell prints with interrupts
enabled, so a process can be scheduled between any two statements of `vga_putchar`
and print a string of its own through `SYS_WRITE`, during which interrupts are off.

The cursor is off the screen while `vga_putchar` wraps a line or scrolls, and its
tests and decrements are apart: what the other process may print depends on where
the shell was stopped.
-/

namespace StakOS.Drivers.Vga

open StakOS.Lib.Memory
open Relation (ReflTransGen)

def vgaCols : Nat := 80
def vgaRows : Nat := 25
def backspace : UInt8 := 8
def newline : UInt8 := 10

/-- The static variables of the driver.  `stored` is not one of them: it records
the cursor at every store of a character cell. -/
structure Screen where
  buf : Nat → UInt16
  row : Nat
  col : Nat
  color : UInt8
  stored : List (Nat × Nat)

/-! ## The functions of `vga.c` -/

/-- `char` is signed. -/
def vgaMakeEntry (c color : UInt8) : UInt16 :=
  (if c < 128 then c.toUInt16 else c.toUInt16 ||| 0xFF00) ||| (color.toUInt16 <<< 8)

def Screen.blank (v : Screen) : UInt16 := vgaMakeEntry 32 v.color

/-- `vga_buf[vga_row * VGA_COLS + vga_col] = e`. -/
def Screen.setCell (v : Screen) (e : UInt16) : Screen :=
  { v with
    buf := Function.update v.buf (add32 (v.row * vgaCols) v.col) e
    stored := (v.row, v.col) :: v.stored }

def vgaInit (buf : Nat → UInt16) : Screen where
  buf := fun i => if i < vgaRows * vgaCols then vgaMakeEntry 32 7 else buf i
  row := 0
  col := 0
  color := 7
  stored := []

def vgaScroll (v : Screen) : Screen :=
  { v with
    buf := fun i =>
      if i < (vgaRows - 1) * vgaCols then v.buf (i + vgaCols)
      else if i < vgaRows * vgaCols then v.blank
      else v.buf i
    row := vgaRows - 1 }

/-- `if (++vga_row == VGA_ROWS) vga_scroll()`. -/
def nextRow (v : Screen) : Screen :=
  let v := { v with row := add32 v.row 1 }
  if v.row = vgaRows then vgaScroll v else v

/-- Where a backspace moves the cursor. -/
def backUp (v : Screen) : Screen :=
  if 0 < v.col then { v with col := sub32 v.col 1 }
  else if 0 < v.row then { v with row := sub32 v.row 1, col := vgaCols - 1 }
  else v

def vgaPutchar (v : Screen) (c : UInt8) : Screen :=
  if c = backspace then
    let v := backUp v
    v.setCell v.blank
  else if c = newline then nextRow { v with col := 0 }
  else
    let v := v.setCell (vgaMakeEntry c v.color)
    let v := { v with col := add32 v.col 1 }
    if v.col = vgaCols then nextRow { v with col := 0 } else v

/-- On a black background. -/
def vgaSetColor (v : Screen) (fg : UInt8) : Screen := { v with color := fg }

def kprint (v : Screen) (str : List UInt8) : Screen := str.foldl vgaPutchar v

/-- The bytes of a string constant. -/
def ascii (s : String) : List UInt8 := s.toList.map fun c => UInt8.ofNat c.toNat

/-- `-val` in 32 bits, which the least number is its own result of. -/
def negInt32 (val : Int) : Int := if val = -2 ^ 31 then val else -val

def kprintInt (v : Screen) (val : Int) : Screen :=
  let (v, val) := if val < 0 then (vgaPutchar v 45, negInt32 val) else (v, val)
  if val = 0 then vgaPutchar v 48
  else if val > 0 then kprint v (ascii (Nat.repr val.toNat)) else v

/-- `sys_write` with the bytes behind `buf`, or none if it is null. -/
def sysWrite (v : Screen) (fd : Int) (buf : Option (List UInt8)) : Screen × Nat :=
  match buf with
  | none => (v, 2 ^ 32 - 1)
  | some w => if fd ≠ 1 then (v, 2 ^ 32 - 1) else (w.foldl vgaPutchar v, w.length)

/-! ## Statements -/

/-- The statement of `vga_putchar` that is next. -/
inductive Pc where
  | idle
  | backTest
  | decCol
  | testRow
  | decRow
  | wrapCol
  | backStore
  | store (c : UInt8)
  | incCol
  | zeroCol
  | incRow
  /-- The copy loops of `vga_scroll`, up to the cell `k`. -/
  | scroll (k : Nat)
deriving DecidableEq

def entryPc (c : UInt8) : Pc :=
  if c = backspace then .backTest else if c = newline then .zeroCol else .store c

def stmt : Pc × Screen → Pc × Screen
  | (.idle, v) => (.idle, v)
  | (.backTest, v) => (if 0 < v.col then .decCol else .testRow, v)
  | (.decCol, v) => (.backStore, { v with col := sub32 v.col 1 })
  | (.testRow, v) => (if 0 < v.row then .decRow else .backStore, v)
  | (.decRow, v) => (.wrapCol, { v with row := sub32 v.row 1 })
  | (.wrapCol, v) => (.backStore, { v with col := vgaCols - 1 })
  | (.backStore, v) => (.idle, v.setCell v.blank)
  | (.store c, v) => (.incCol, v.setCell (vgaMakeEntry c v.color))
  | (.incCol, v) =>
      let v := { v with col := add32 v.col 1 }
      (if v.col = vgaCols then .zeroCol else .idle, v)
  | (.zeroCol, v) => (.incRow, { v with col := 0 })
  | (.incRow, v) =>
      let v := { v with row := add32 v.row 1 }
      (if v.row = vgaRows then .scroll 0 else .idle, v)
  | (.scroll k, v) =>
      if k < (vgaRows - 1) * vgaCols then
        (.scroll (k + 1), { v with buf := Function.update v.buf k (v.buf (k + vgaCols)) })
      else if k < vgaRows * vgaCols then
        (.scroll (k + 1), { v with buf := Function.update v.buf k v.blank })
      else (.idle, { v with row := vgaRows - 1 })

theorem stmt_decCol (v : Screen) :
    stmt (.decCol, v) = (.backStore, { v with col := sub32 v.col 1 }) := rfl

theorem stmt_decRow (v : Screen) :
    stmt (.decRow, v) = (.wrapCol, { v with row := sub32 v.row 1 }) := rfl

/-! ## Without interruption the statements are the function -/

/-- The buffer once the copy loops have reached the cell `k`. -/
def scrolledBuf (v : Screen) (k i : Nat) : UInt16 :=
  if i < k then if i < (vgaRows - 1) * vgaCols then v.buf (i + vgaCols) else v.blank else v.buf i

/-- The cells below `k` are done, and those from `k` on are as they were. -/
theorem update_scrolledBuf (v : Screen) (k : Nat) :
    Function.update (scrolledBuf v k) k
      (if k < (vgaRows - 1) * vgaCols then v.buf (k + vgaCols) else v.blank) =
    scrolledBuf v (k + 1) := by
  funext i
  unfold scrolledBuf
  by_cases hi : i = k
  · subst hi
    rw [Function.update_self, if_pos (Nat.lt_succ_self i)]
  · have hiff : i < k ↔ i < k + 1 := by omega
    rw [Function.update_of_ne hi]
    simp only [hiff]

theorem stmt_scroll (v : Screen) {k : Nat} (hk : k < vgaRows * vgaCols) :
    stmt (.scroll k, { v with buf := scrolledBuf v k }) =
      (.scroll (k + 1), { v with buf := scrolledBuf v (k + 1) }) := by
  have hahead : scrolledBuf v k (k + vgaCols) = v.buf (k + vgaCols) := by
    unfold scrolledBuf
    rw [if_neg (by omega)]
  rw [stmt, ← update_scrolledBuf]
  by_cases hcopy : k < (vgaRows - 1) * vgaCols
  · simp only [if_pos hcopy, hahead]
  · simp only [if_neg hcopy, if_pos hk]
    rfl

theorem iterate_scroll (v : Screen) {k : Nat} (hk : k ≤ vgaRows * vgaCols) :
    stmt^[k] (.scroll 0, v) = (.scroll k, { v with buf := scrolledBuf v k }) := by
  induction k with
  | zero => rfl
  | succ k ih => rw [Function.iterate_succ_apply', ih (Nat.le_of_succ_le hk), stmt_scroll v hk]

theorem iterate_scroll_end (v : Screen) :
    stmt^[vgaRows * vgaCols + 1] (.scroll 0, v) = (.idle, vgaScroll v) := by
  have hbuf : scrolledBuf v (vgaRows * vgaCols) = (vgaScroll v).buf := by
    funext i
    unfold scrolledBuf vgaScroll
    by_cases hcopy : i < (vgaRows - 1) * vgaCols
    · have hin : i < vgaRows * vgaCols := hcopy.trans (by decide)
      simp only [if_pos hcopy, if_pos hin]
    · simp only [if_neg hcopy]
  rw [Function.iterate_succ_apply', iterate_scroll v (Nat.le_refl _), stmt,
    if_neg (by decide), if_neg (by decide), hbuf]
  rfl

/-- Left alone, the shell finishes its `vga_putchar` with the screen `v`. -/
def Finishes (x : Pc × Screen) (v : Screen) : Prop := ∃ n, stmt^[n] x = (.idle, v)

theorem Finishes.done (v : Screen) : Finishes (.idle, v) v := ⟨0, rfl⟩

theorem Finishes.step {x : Pc × Screen} {v : Screen} (h : Finishes (stmt x) v) : Finishes x v := by
  obtain ⟨n, hn⟩ := h
  exact ⟨n + 1, hn⟩

theorem finishes_nextRow (v : Screen) : Finishes (.zeroCol, v) (nextRow { v with col := 0 }) := by
  apply Finishes.step
  apply Finishes.step
  change Finishes (if add32 v.row 1 = vgaRows then .scroll 0 else .idle, _) _
  unfold nextRow
  by_cases hlast : add32 v.row 1 = vgaRows
  · simp only [if_pos hlast]
    exact ⟨_, iterate_scroll_end _⟩
  · simp only [if_neg hlast]
    exact Finishes.done _

theorem finishes_putchar (v : Screen) (c : UInt8) : Finishes (entryPc c, v) (vgaPutchar v c) := by
  unfold entryPc vgaPutchar
  by_cases hback : c = backspace
  · simp only [if_pos hback]
    apply Finishes.step
    change Finishes (if 0 < v.col then .decCol else .testRow, v) _
    unfold backUp
    by_cases hcol : 0 < v.col
    · simp only [if_pos hcol]
      apply Finishes.step
      apply Finishes.step
      exact Finishes.done _
    · simp only [if_neg hcol]
      apply Finishes.step
      change Finishes (if 0 < v.row then .decRow else .backStore, v) _
      by_cases hrow : 0 < v.row
      · simp only [if_pos hrow]
        apply Finishes.step
        apply Finishes.step
        apply Finishes.step
        exact Finishes.done _
      · simp only [if_neg hrow]
        apply Finishes.step
        exact Finishes.done _
  · simp only [if_neg hback]
    by_cases hline : c = newline
    · simp only [if_pos hline]
      exact finishes_nextRow v
    · simp only [if_neg hline]
      apply Finishes.step
      apply Finishes.step
      change Finishes (if add32 v.col 1 = vgaCols then .zeroCol else .idle, _)
        (if add32 v.col 1 = vgaCols then _ else _)
      by_cases hfull : add32 v.col 1 = vgaCols
      · simp only [if_pos hfull]
        exact finishes_nextRow _
      · simp only [if_neg hfull]
        exact Finishes.done _

/-! ## Where the cursor is -/

def Screen.OnScreen (v : Screen) : Prop := v.row < vgaRows ∧ v.col < vgaCols

instance (v : Screen) : Decidable v.OnScreen := inferInstanceAs (Decidable (_ ∧ _))

/-- Every cell stored so far is one of the screen. -/
def Screen.Clean (v : Screen) : Prop := ∀ p ∈ v.stored, p.1 < vgaRows ∧ p.2 < vgaCols

theorem clean_setCell (v : Screen) (e : UInt16) : (v.setCell e).Clean ↔ v.OnScreen ∧ v.Clean := by
  unfold Screen.Clean Screen.setCell Screen.OnScreen
  simp only [List.mem_cons, forall_eq_or_imp]

section Putchar

variable {v : Screen} {c : UInt8}

theorem nextRow_onScreen (hrow : v.row < vgaRows) (hcol : v.col < vgaCols) :
    (nextRow v).OnScreen := by
  have hinc : add32 v.row 1 = v.row + 1 := add32_of_lt (by unfold vgaRows at hrow; omega)
  unfold nextRow
  simp only [hinc]
  by_cases hlast : v.row + 1 = vgaRows
  · rw [if_pos hlast]
    exact ⟨show vgaRows - 1 < vgaRows by decide, hcol⟩
  · rw [if_neg hlast]
    exact ⟨by simp only; omega, hcol⟩

theorem nextRow_stored (v : Screen) : (nextRow v).stored = v.stored := by
  unfold nextRow
  dsimp only
  split <;> rfl

theorem backUp_onScreen (h : v.OnScreen) : (backUp v).OnScreen := by
  obtain ⟨hrow, hcol⟩ := h
  unfold backUp
  by_cases hpos : 0 < v.col
  · rw [if_pos hpos]
    exact ⟨hrow, (sub32_one_lt_iff hcol (by decide)).mpr hpos⟩
  · rw [if_neg hpos]
    by_cases hup : 0 < v.row
    · rw [if_pos hup]
      exact ⟨(sub32_one_lt_iff hrow (by decide)).mpr hup, show vgaCols - 1 < vgaCols by decide⟩
    · rw [if_neg hup]
      exact ⟨hrow, hcol⟩

theorem backUp_stored (v : Screen) : (backUp v).stored = v.stored := by
  unfold backUp
  split
  · rfl
  · split <;> rfl

/-- `vga_putchar` stores a cell of the screen only if the cursor is on it, after
backing up in the case of a backspace. -/
theorem clean_putchar :
    (vgaPutchar v c).Clean ↔
      v.Clean ∧ (c = backspace → (backUp v).OnScreen) ∧
        (c ≠ backspace → c ≠ newline → v.OnScreen) := by
  unfold vgaPutchar
  by_cases hback : c = backspace
  · simp only [if_pos hback, clean_setCell]
    unfold Screen.Clean
    rw [backUp_stored]
    tauto
  · simp only [if_neg hback]
    by_cases hline : c = newline
    · simp only [if_pos hline]
      have hclean : (nextRow { v with col := 0 }).Clean ↔ v.Clean := by
        unfold Screen.Clean
        rw [nextRow_stored]
      rw [hclean]
      exact (and_iff_left ⟨fun h => absurd h hback, fun _ h => absurd hline h⟩).symm
    · simp only [if_neg hline]
      have hrest : ∀ v' : Screen, v'.stored = (v.setCell (vgaMakeEntry c v.color)).stored →
          (v'.Clean ↔ v.OnScreen ∧ v.Clean) := by
        intro v' hstored
        rw [← clean_setCell v (vgaMakeEntry c v.color)]
        unfold Screen.Clean
        rw [hstored]
      have hclean : (v.OnScreen ∧ v.Clean) ↔ v.Clean ∧ (c = backspace → (backUp v).OnScreen) ∧
          (c ≠ backspace → c ≠ newline → v.OnScreen) := by tauto
      split
      · refine (hrest _ ?_).trans hclean
        rw [nextRow_stored]
      · exact (hrest _ rfl).trans hclean

theorem putchar_onScreen (h : v.OnScreen) : (vgaPutchar v c).OnScreen := by
  obtain ⟨hrow, hcol⟩ := h
  unfold vgaPutchar
  by_cases hback : c = backspace
  · simp only [if_pos hback]
    exact backUp_onScreen ⟨hrow, hcol⟩
  · simp only [if_neg hback]
    by_cases hline : c = newline
    · simp only [if_pos hline]
      exact nextRow_onScreen hrow (show 0 < vgaCols by decide)
    · simp only [if_neg hline]
      have hinc : add32 v.col 1 = v.col + 1 := add32_of_lt (by unfold vgaCols at hcol; omega)
      simp only [Screen.setCell, hinc]
      split
      · exact nextRow_onScreen hrow (show 0 < vgaCols by decide)
      · exact ⟨hrow, by simp only; omega⟩

end Putchar

/-- A string printed from the screen stays on it. -/
theorem foldl_onScreen {v : Screen} (h : v.OnScreen) (w : List UInt8) :
    (w.foldl vgaPutchar v).OnScreen ∧ ((w.foldl vgaPutchar v).Clean ↔ v.Clean) := by
  induction w generalizing v with
  | nil => exact ⟨h, Iff.rfl⟩
  | cons c w ih =>
      obtain ⟨hon, hclean⟩ := ih (putchar_onScreen h (c := c))
      refine ⟨hon, hclean.trans (clean_putchar.trans ?_)⟩
      exact and_iff_left ⟨fun _ => backUp_onScreen h, fun _ _ => h⟩

/-- Printing does not undo a store. -/
theorem clean_of_foldl {v : Screen} {w : List UInt8} (h : (w.foldl vgaPutchar v).Clean) :
    v.Clean := by
  induction w generalizing v with
  | nil => exact h
  | cons c w ih => exact (clean_putchar.mp (ih h)).1

/-! ## What another process may print -/

/-- The number of newlines that a string starts with. -/
def leadingLines (w : List UInt8) : Nat := (w.takeWhile (· == newline)).length

/-- What can be printed with the cursor at `v`: anything on the screen; behind the
last column a string that moves the cursor back first; below the last row newlines
only, unless they count the row around to 0, or a backspace that gets back to the
last cell. -/
def Harmless (v : Screen) (w : List UInt8) : Prop :=
  v.OnScreen ∨ w = [] ∨
    (v.row < vgaRows ∧ (w.head? = some newline ∨ w.head? = some backspace)) ∨
    (vgaRows ≤ v.row ∧ ((∀ c ∈ w, c = newline) ∨ 2 ^ 32 ≤ v.row + leadingLines w ∨
      (v.row = vgaRows ∧ v.col = 0 ∧ w.head? = some backspace)))

/-- The cursor is on the screen, behind the last column, or below the last row. -/
def Screen.Near (v : Screen) : Prop :=
  (v.row < vgaRows ∧ v.col ≤ vgaCols) ∨ (vgaRows ≤ v.row ∧ v.row < 2 ^ 32 ∧ v.col < vgaCols)

section Strings

variable {v : Screen} {c : UInt8} {w : List UInt8}

theorem clean_putchar_newline : (vgaPutchar v newline).Clean ↔ v.Clean :=
  clean_putchar.trans (and_iff_left ⟨fun h => absurd h (by decide), fun _ h => absurd rfl h⟩)

/-- Off the screen a string that does not start with a newline stores outside, unless it
starts with a backspace that leads back. -/
theorem clean_foldl_cons_off (hoff : ¬ v.OnScreen) (hline : c ≠ newline) :
    ((c :: w).foldl vgaPutchar v).Clean ↔ v.Clean ∧ (backUp v).OnScreen ∧ c = backspace := by
  constructor
  · intro h
    obtain ⟨hclean, hback, hother⟩ := clean_putchar.mp (clean_of_foldl h)
    by_cases hc : c = backspace
    · exact ⟨hclean, hback hc, hc⟩
    · exact absurd (hother hc hline) hoff
  · rintro ⟨hclean, hup, rfl⟩
    have hon : (vgaPutchar v backspace).OnScreen := hup
    rw [List.foldl_cons, (foldl_onScreen hon w).2]
    exact clean_putchar.mpr ⟨hclean, fun _ => hup, fun h => absurd rfl h⟩

/-- Behind the last column. -/
theorem clean_foldl_right (hrow : v.row < vgaRows) (hcol : v.col = vgaCols) :
    (w.foldl vgaPutchar v).Clean ↔
      v.Clean ∧ (w = [] ∨ w.head? = some newline ∨ w.head? = some backspace) := by
  cases w with
  | nil => simp
  | cons c w =>
      have hoff : ¬ v.OnScreen := fun h => by
        have hlt := h.2
        omega
      by_cases hline : c = newline
      · subst hline
        have hon : (vgaPutchar v newline).OnScreen :=
          nextRow_onScreen hrow (show 0 < vgaCols by decide)
        rw [List.foldl_cons, (foldl_onScreen hon w).2, clean_putchar_newline]
        simp
      · have hup : (backUp v).OnScreen := by
          have hpos : 0 < v.col := by
            rw [hcol]
            decide
          unfold backUp
          rw [if_pos hpos, hcol]
          exact ⟨hrow, show sub32 vgaCols 1 < vgaCols by decide⟩
        rw [clean_foldl_cons_off hoff hline, and_iff_right hup]
        simp [hline]

/-- Below the last row a newline goes further down, or around to the first row. -/
theorem putchar_newline_below (hrow : vgaRows ≤ v.row) (hlt : v.row < 2 ^ 32) :
    (vgaPutchar v newline).row = (v.row + 1) % 2 ^ 32 ∧ (vgaPutchar v newline).col = 0 := by
  have hne : add32 v.row 1 ≠ vgaRows := by
    unfold add32
    unfold vgaRows at hrow ⊢
    omega
  have heq : vgaPutchar v newline = { v with col := 0, row := add32 v.row 1 } := if_neg hne
  rw [heq]
  exact ⟨rfl, rfl⟩

/-- Below the last row a backspace reaches the screen from the start of the first
row that is too many. -/
theorem backUp_onScreen_below (hrow : vgaRows ≤ v.row) (hlt : v.row < 2 ^ 32) :
    (backUp v).OnScreen ↔ v.row = vgaRows ∧ v.col = 0 := by
  have hdec : sub32 v.row 1 = v.row - 1 := sub32_of_le (by unfold vgaRows at hrow; omega) hlt
  unfold backUp Screen.OnScreen
  by_cases hcol : 0 < v.col
  · rw [if_pos hcol]
    simp only
    omega
  · rw [if_neg hcol, if_pos (by unfold vgaRows at hrow; omega)]
    simp only [hdec]
    have hlast : vgaCols - 1 < vgaCols := by decide
    unfold vgaRows at *
    omega

/-- Below the last row. -/
theorem clean_foldl_below (hrow : vgaRows ≤ v.row) (hlt : v.row < 2 ^ 32) (hcol : v.col < vgaCols) :
    (w.foldl vgaPutchar v).Clean ↔
      v.Clean ∧ ((∀ c ∈ w, c = newline) ∨ 2 ^ 32 ≤ v.row + leadingLines w ∨
        (v.row = vgaRows ∧ v.col = 0 ∧ w.head? = some backspace)) := by
  induction w generalizing v with
  | nil => simp
  | cons c w ih =>
      have hoff : ¬ v.OnScreen := fun h => by
        have := h.1
        omega
      by_cases hline : c = newline
      · subst hline
        have hlead : leadingLines (newline :: w) = leadingLines w + 1 := by
          unfold leadingLines
          rw [List.takeWhile_cons, if_pos (by decide), List.length_cons]
        have hall : (∀ c ∈ newline :: w, c = newline) ↔ ∀ c ∈ w, c = newline := by simp
        obtain ⟨hrow', hcol'⟩ := putchar_newline_below hrow hlt
        rw [List.foldl_cons, hlead, hall]
        by_cases haround : v.row + 1 = 2 ^ 32
        · have hon : (vgaPutchar v newline).OnScreen := by
            refine ⟨?_, ?_⟩
            · rw [hrow', haround]
              decide
            · rw [hcol']
              decide
          rw [(foldl_onScreen hon w).2, clean_putchar_newline]
          exact (and_iff_left (Or.inr (Or.inl (by omega)))).symm
        · have hmod : (v.row + 1) % 2 ^ 32 = v.row + 1 := Nat.mod_eq_of_lt (by omega)
          rw [hmod] at hrow'
          have hdown : vgaRows ≤ (vgaPutchar v newline).row := by omega
          have hbound : (vgaPutchar v newline).row < 2 ^ 32 := by omega
          have hleft : (vgaPutchar v newline).col < vgaCols := by
            rw [hcol']
            decide
          rw [ih hdown hbound hleft, clean_putchar_newline, hrow']
          refine and_congr_right fun _ => or_congr_right (or_congr (by omega) ?_)
          refine iff_of_false (fun h => ?_) (fun h => ?_)
          · have hrow'' := h.1
            omega
          · exact absurd h.2.2 (by simp [newline, backspace])
      · have hsome : ¬ ∀ c' ∈ c :: w, c' = newline := fun h => hline (h c List.mem_cons_self)
        have hlead : leadingLines (c :: w) = 0 := by
          unfold leadingLines
          rw [List.takeWhile_cons, if_neg (by simpa using hline), List.length_nil]
        have hcond : ((∀ c' ∈ c :: w, c' = newline) ∨ 2 ^ 32 ≤ v.row + leadingLines (c :: w) ∨
            (v.row = vgaRows ∧ v.col = 0 ∧ (c :: w).head? = some backspace)) ↔
            (v.row = vgaRows ∧ v.col = 0) ∧ c = backspace := by
          rw [hlead, List.head?_cons, Option.some.injEq]
          constructor
          · rintro (h | h | ⟨h, h', h''⟩)
            · exact absurd h hsome
            · omega
            · exact ⟨⟨h, h'⟩, h''⟩
          · rintro ⟨⟨h, h'⟩, h''⟩
            exact Or.inr (Or.inr ⟨h, h', h''⟩)
        rw [hcond, ← backUp_onScreen_below hrow hlt, clean_foldl_cons_off hoff hline]

/-- A string stores cells of the screen only exactly if it is harmless. -/
theorem clean_foldl_iff (h : v.Near) :
    (w.foldl vgaPutchar v).Clean ↔ v.Clean ∧ Harmless v w := by
  unfold Harmless
  rcases h with ⟨hrow, hcol⟩ | ⟨hrow, hlt, hcol⟩
  · by_cases hfull : v.col = vgaCols
    · have hoff : ¬ v.OnScreen := fun h => by
        have := h.2
        omega
      rw [clean_foldl_right hrow hfull]
      refine and_congr_right fun _ => ?_
      constructor
      · rintro (hnil | hhead)
        · exact Or.inr (Or.inl hnil)
        · exact Or.inr (Or.inr (Or.inl ⟨hrow, hhead⟩))
      · rintro (hon | hnil | ⟨-, hhead⟩ | ⟨hbelow, -⟩)
        · exact absurd hon hoff
        · exact Or.inl hnil
        · exact Or.inr hhead
        · omega
    · have hon : v.OnScreen := ⟨hrow, by omega⟩
      rw [(foldl_onScreen hon w).2]
      exact (and_iff_left (Or.inl hon)).symm
  · have hoff : ¬ v.OnScreen := fun h => by
      have := h.1
      omega
    rw [clean_foldl_below hrow hlt hcol]
    refine and_congr_right fun _ => ?_
    constructor
    · intro hcond
      exact Or.inr (Or.inr (Or.inr ⟨hrow, hcond⟩))
    · rintro (hon | rfl | ⟨habove, -⟩ | ⟨-, hcond⟩)
      · exact absurd hon hoff
      · exact Or.inl (by simp)
      · omega
      · exact hcond

/-- A column stays one, whatever is printed. -/
theorem foldl_col_lt (hrow : v.row < 2 ^ 32) (hcol : v.col < vgaCols) :
    (w.foldl vgaPutchar v).row < 2 ^ 32 ∧ (w.foldl vgaPutchar v).col < vgaCols := by
  induction w generalizing v with
  | nil => exact ⟨hrow, hcol⟩
  | cons c w ih =>
      have hnext : ∀ v' : Screen, v'.col < vgaCols →
          (nextRow v').row < 2 ^ 32 ∧ (nextRow v').col < vgaCols := by
        intro v' hcol'
        unfold nextRow
        dsimp only
        split
        · exact ⟨show vgaRows - 1 < 2 ^ 32 by decide, hcol'⟩
        · exact ⟨add32_lt v'.row 1, hcol'⟩
      suffices h : (vgaPutchar v c).row < 2 ^ 32 ∧ (vgaPutchar v c).col < vgaCols from
        ih h.1 h.2
      unfold vgaPutchar
      by_cases hback : c = backspace
      · simp only [if_pos hback, Screen.setCell]
        unfold backUp
        split
        · rename_i hpos
          exact ⟨hrow, (sub32_one_lt_iff hcol (by decide)).mpr hpos⟩
        · split
          · exact ⟨Nat.mod_lt _ (by decide), show vgaCols - 1 < vgaCols by decide⟩
          · exact ⟨hrow, hcol⟩
      · simp only [if_neg hback]
        by_cases hline : c = newline
        · simp only [if_pos hline]
          exact hnext _ (show 0 < vgaCols by decide)
        · have hinc : add32 v.col 1 = v.col + 1 := add32_of_lt (by unfold vgaCols at hcol; omega)
          simp only [if_neg hline, Screen.setCell, hinc]
          split
          · exact hnext _ (show 0 < vgaCols by decide)
          · exact ⟨hrow, by simp only; omega⟩

/-- A harmless string printed behind the last column comes back to the screen. -/
theorem Harmless.right (h : Harmless v w) (hrow : v.row < vgaRows) (hcol : v.col ≤ vgaCols) :
    (w.foldl vgaPutchar v).row < vgaRows ∧ (w.foldl vgaPutchar v).col ≤ vgaCols := by
  have hon : ∀ {v' : Screen} {w' : List UInt8}, v'.OnScreen →
      (w'.foldl vgaPutchar v').row < vgaRows ∧ (w'.foldl vgaPutchar v').col ≤ vgaCols := by
    intro v' w' hv'
    obtain ⟨hr, hc⟩ := (foldl_onScreen hv' w').1
    exact ⟨hr, Nat.le_of_lt hc⟩
  by_cases hfull : v.OnScreen
  · exact hon hfull
  · cases w with
    | nil => exact ⟨hrow, hcol⟩
    | cons c w =>
        rw [List.foldl_cons]
        apply hon
        rcases h with hv | hnil | ⟨-, hhead⟩ | ⟨hbelow, -⟩
        · exact absurd hv hfull
        · cases hnil
        · rw [List.head?_cons, Option.some.injEq, Option.some.injEq] at hhead
          rcases hhead with rfl | rfl
          · exact nextRow_onScreen hrow (show 0 < vgaCols by decide)
          · have hpos : 0 < v.col := by
              unfold Screen.OnScreen vgaCols at hfull
              omega
            have hdec : sub32 v.col 1 = v.col - 1 :=
              sub32_of_le (by omega) (by unfold vgaCols at hcol; omega)
            have hup : (backUp v).OnScreen := by
              unfold backUp
              rw [if_pos hpos, hdec]
              exact ⟨hrow, by simp only; omega⟩
            exact hup
        · omega

end Strings

/-! ## The shell and another process -/

/-- What can happen next: the shell calls `vga_putchar` or executes a statement of
it, or another process makes a call of `SYS_WRITE`. -/
inductive Event where
  | putchar (c : UInt8)
  | stmt
  | write (fd : Int) (buf : Option (List UInt8))

/-- The bytes that a call of `SYS_WRITE` prints. -/
def printed (fd : Int) (buf : Option (List UInt8)) : List UInt8 :=
  match buf with
  | none => []
  | some w => if fd ≠ 1 then [] else w

theorem sysWrite_screen (v : Screen) (fd : Int) (buf : Option (List UInt8)) :
    (sysWrite v fd buf).1 = (printed fd buf).foldl vgaPutchar v := by
  unfold sysWrite printed
  cases buf with
  | none => rfl
  | some w =>
      dsimp only
      split <;> rfl

def after (s : Pc × Screen) : Event → Pc × Screen
  | .putchar c => (entryPc c, s.2)
  | .stmt => stmt s
  | .write fd buf => (s.1, (sysWrite s.2 fd buf).1)

/-- A step whose event passes the guard; the shell makes one call at a time. -/
inductive Step (guard : Pc × Screen → Event → Prop) : Pc × Screen → Pc × Screen → Prop
  | mk {s : Pc × Screen} (e : Event) (hidle : ∀ c, e = .putchar c → s.1 = .idle)
      (hguard : guard s e) : Step guard s (after s e)

/-- The shell decrements only what is not 0, as it has tested before, and the other
process prints what is harmless where the cursor is. -/
def Undisturbed (s : Pc × Screen) : Event → Prop
  | .putchar _ => True
  | .stmt => (s.1 = .decCol → 0 < s.2.col) ∧ (s.1 = .decRow → 0 < s.2.row)
  | .write fd buf => Harmless s.2 (printed fd buf)

/-- Where the cursor can be before each statement. -/
def Region : Pc → Screen → Prop
  | .zeroCol, v => v.row < vgaRows ∧ v.col ≤ vgaCols
  | .scroll _, v => v.row < 2 ^ 32 ∧ v.col < vgaCols
  | _, v => v.OnScreen

structure Inv (s : Pc × Screen) : Prop where
  region : Region s.1 s.2
  clean : s.2.Clean

theorem Region.near {pc : Pc} {v : Screen} (h : Region pc v) : v.Near := by
  have hon : v.OnScreen → v.Near := fun hv => Or.inl ⟨hv.1, Nat.le_of_lt hv.2⟩
  cases pc with
  | zeroCol => exact Or.inl h
  | scroll k =>
      by_cases hrow : v.row < vgaRows
      · exact hon ⟨hrow, h.2⟩
      · exact Or.inr ⟨Nat.le_of_not_lt hrow, h.1, h.2⟩
  | _ => exact hon h

theorem Region.of_onScreen {v : Screen} (pc : Pc) (h : v.OnScreen) : Region pc v := by
  obtain ⟨hrow, hcol⟩ := h
  cases pc with
  | zeroCol => exact ⟨hrow, Nat.le_of_lt hcol⟩
  | scroll k =>
      refine ⟨?_, hcol⟩
      unfold vgaRows at hrow
      omega
  | _ => exact ⟨hrow, hcol⟩

theorem Region.write {pc : Pc} {v : Screen} {w : List UInt8} (h : Region pc v)
    (hharmless : Harmless v w) : Region pc (w.foldl vgaPutchar v) := by
  cases pc with
  | zeroCol => exact hharmless.right h.1 h.2
  | scroll k => exact foldl_col_lt h.1 h.2
  | _ => exact (foldl_onScreen h w).1

/-- Moving the cursor stores nothing. -/
theorem inv_moved {pc : Pc} {v : Screen} (row col : Nat) (hclean : v.Clean)
    (hregion : Region pc { v with row := row, col := col }) :
    Inv (pc, { v with row := row, col := col }) := ⟨hregion, hclean⟩

/-- One statement of the shell. -/
theorem Inv.stmt {s : Pc × Screen} (h : Inv s) (hcol : s.1 = .decCol → 0 < s.2.col)
    (hrow : s.1 = .decRow → 0 < s.2.row) : Inv (stmt s) := by
  obtain ⟨pc, v⟩ := s
  obtain ⟨hregion, hclean⟩ := h
  cases pc with
  | idle => exact ⟨hregion, hclean⟩
  | backTest => exact ⟨Region.of_onScreen _ hregion, hclean⟩
  | decCol =>
      obtain ⟨hr, hc⟩ : v.row < vgaRows ∧ v.col < vgaCols := hregion
      have hdec : sub32 v.col 1 < vgaCols := (sub32_one_lt_iff hc (by decide)).mpr (hcol rfl)
      exact inv_moved v.row (sub32 v.col 1) hclean ⟨hr, hdec⟩
  | testRow => exact ⟨Region.of_onScreen _ hregion, hclean⟩
  | decRow =>
      obtain ⟨hr, hc⟩ : v.row < vgaRows ∧ v.col < vgaCols := hregion
      have hdec : sub32 v.row 1 < vgaRows := (sub32_one_lt_iff hr (by decide)).mpr (hrow rfl)
      exact inv_moved (sub32 v.row 1) v.col hclean ⟨hdec, hc⟩
  | wrapCol => exact ⟨⟨hregion.1, show vgaCols - 1 < vgaCols by decide⟩, hclean⟩
  | backStore => exact ⟨hregion, (clean_setCell v _).mpr ⟨hregion, hclean⟩⟩
  | store c => exact ⟨hregion, (clean_setCell v _).mpr ⟨hregion, hclean⟩⟩
  | incCol =>
      obtain ⟨hr, hc⟩ : v.row < vgaRows ∧ v.col < vgaCols := hregion
      have hinc : add32 v.col 1 = v.col + 1 := add32_of_lt (by unfold vgaCols at hc; omega)
      refine ⟨?_, hclean⟩
      change Region (if add32 v.col 1 = vgaCols then .zeroCol else .idle)
        { v with col := add32 v.col 1 }
      rw [hinc]
      by_cases hfull : v.col + 1 = vgaCols
      · rw [if_pos hfull]
        exact ⟨hr, Nat.le_of_eq hfull⟩
      · rw [if_neg hfull]
        exact ⟨hr, by simp only; omega⟩
  | zeroCol => exact ⟨⟨hregion.1, show 0 < vgaCols by decide⟩, hclean⟩
  | incRow =>
      obtain ⟨hr, hc⟩ : v.row < vgaRows ∧ v.col < vgaCols := hregion
      have hinc : add32 v.row 1 = v.row + 1 := add32_of_lt (by unfold vgaRows at hr; omega)
      refine ⟨?_, hclean⟩
      change Region (if add32 v.row 1 = vgaRows then .scroll 0 else .idle)
        { v with row := add32 v.row 1 }
      rw [hinc]
      by_cases hlast : v.row + 1 = vgaRows
      · rw [if_pos hlast]
        refine ⟨?_, hc⟩
        simp only
        unfold vgaRows at hr
        omega
      · rw [if_neg hlast]
        exact ⟨by simp only; omega, hc⟩
  | scroll k =>
      change Inv (if k < (vgaRows - 1) * vgaCols then _ else if k < vgaRows * vgaCols then _ else _)
      split
      · exact ⟨hregion, hclean⟩
      · split
        · exact ⟨hregion, hclean⟩
        · exact ⟨⟨show vgaRows - 1 < vgaRows by decide, hregion.2⟩, hclean⟩

theorem onScreen_moved (v : Screen) (row col : Nat) :
    { v with row := row, col := col : Screen }.OnScreen ↔ row < vgaRows ∧ col < vgaCols := Iff.rfl

/-- A decrement that finds 0 leaves the screen. -/
theorem decCol_onScreen {v : Screen} (h : v.OnScreen) :
    (stmt (.decCol, v)).2.OnScreen ↔ 0 < v.col := by
  rw [stmt_decCol]
  refine (onScreen_moved v v.row (sub32 v.col 1)).trans ?_
  rw [sub32_one_lt_iff h.2 (by decide)]
  exact and_iff_right h.1

theorem decRow_onScreen {v : Screen} (h : v.OnScreen) :
    (stmt (.decRow, v)).2.OnScreen ↔ 0 < v.row := by
  rw [stmt_decRow]
  refine (onScreen_moved v (sub32 v.row 1) v.col).trans ?_
  rw [sub32_one_lt_iff h.1 (by decide)]
  exact and_iff_left h.2

theorem Inv.step {s s' : Pc × Screen} (h : Inv s) (hstep : Step Undisturbed s s') : Inv s' := by
  obtain ⟨e, hidle, hguard⟩ := hstep
  cases e with
  | putchar c =>
      have hpc := hidle c rfl
      have hon : s.2.OnScreen := by
        have hregion := h.region
        rw [hpc] at hregion
        exact hregion
      exact ⟨Region.of_onScreen _ hon, h.clean⟩
  | stmt => exact h.stmt hguard.1 hguard.2
  | write fd buf =>
      have hharmless : Harmless s.2 (printed fd buf) := hguard
      have hwrite : after s (.write fd buf) = (s.1, (printed fd buf).foldl vgaPutchar s.2) := by
        rw [after, sysWrite_screen]
      rw [hwrite]
      exact ⟨h.region.write hharmless, (clean_foldl_iff h.region.near).mpr ⟨h.clean, hharmless⟩⟩

/-- The console as `vga_init` leaves it. -/
def booted (buf : Nat → UInt16) : Pc × Screen := (.idle, vgaInit buf)

theorem inv_of_run {buf : Nat → UInt16} {s : Pc × Screen}
    (hrun : ReflTransGen (Step Undisturbed) (booted buf) s) : Inv s := by
  induction hrun with
  | refl => exact ⟨⟨show 0 < vgaRows by decide, show 0 < vgaCols by decide⟩, fun p hp => nomatch hp⟩
  | tail _ hstep ih => exact ih.step hstep

/-- **The cursor stays on the screen** in every interleaving in which the shell is not
disturbed.  At each point the condition on what is printed is exact, and a decrement
that finds 0 leaves the screen. -/
theorem cursor_on_screen {buf : Nat → UInt16} {s : Pc × Screen}
    (hrun : ReflTransGen (Step Undisturbed) (booted buf) s) :
    (∀ p ∈ s.2.stored, p.1 < vgaRows ∧ p.2 < vgaCols ∧ p.1 * vgaCols + p.2 < 2000) ∧
    (∀ fd buf, (∀ p ∈ (sysWrite s.2 fd buf).1.stored, p.1 < vgaRows ∧ p.2 < vgaCols) ↔
      Harmless s.2 (printed fd buf)) ∧
    (s.1 = .decCol → ((stmt s).2.OnScreen ↔ 0 < s.2.col)) ∧
    (s.1 = .decRow → ((stmt s).2.OnScreen ↔ 0 < s.2.row)) := by
  have h := inv_of_run hrun
  refine ⟨?_, ?_, ?_, ?_⟩
  · intro p hp
    obtain ⟨hrow, hcol⟩ := h.clean p hp
    refine ⟨hrow, hcol, ?_⟩
    unfold vgaRows vgaCols at *
    omega
  · intro fd buf
    have hiff := clean_foldl_iff (w := printed fd buf) h.region.near
    rw [sysWrite_screen]
    exact hiff.trans (and_iff_right h.clean)
  · intro hpc
    obtain ⟨pc, v⟩ := s
    change pc = .decCol at hpc
    subst hpc
    exact decCol_onScreen h.region
  · intro hpc
    obtain ⟨pc, v⟩ := s
    change pc = .decRow at hpc
    subst hpc
    exact decRow_onScreen h.region

/-- The other process has filled all but one column of the first row. -/
def lineFilled : Pc × Screen :=
  after (booted fun _ => 0) (.write 1 (some (List.replicate 79 120)))

/-- The shell is stopped after it has printed into the last column. -/
def atLastColumn : Pc × Screen := after (after (after lineFilled (.putchar 121)) .stmt) .stmt

theorem atLastColumn_run : ReflTransGen (Step Undisturbed) (booted fun _ => 0) atLastColumn := by
  have hline : Step Undisturbed (booted fun _ => 0) lineFilled :=
    Step.mk _ (fun _ h => nomatch h) (Or.inl ⟨show 0 < vgaRows by decide, show 0 < vgaCols by decide⟩)
  have hidle : lineFilled.1 = .idle := by decide +kernel
  have hcall : Step Undisturbed lineFilled (after lineFilled (.putchar 121)) :=
    Step.mk _ (fun _ _ => hidle) trivial
  -- neither statement is a decrement
  have hpc : (after lineFilled (.putchar 121)).1 = .store 121 ∧
      (after (after lineFilled (.putchar 121)) .stmt).1 = .incCol := by decide +kernel
  have hstore : Step Undisturbed (after lineFilled (.putchar 121))
      (after (after lineFilled (.putchar 121)) .stmt) := by
    apply Step.mk .stmt (fun _ h => nomatch h)
    unfold Undisturbed
    rw [hpc.1]
    exact And.intro (fun h => nomatch h) (fun h => nomatch h)
  have hinc : Step Undisturbed (after (after lineFilled (.putchar 121)) .stmt) atLastColumn := by
    apply Step.mk .stmt (fun _ h => nomatch h)
    unfold Undisturbed
    rw [hpc.2]
    exact And.intro (fun h => nomatch h) (fun h => nomatch h)
  exact (((ReflTransGen.single hline).tail hcall).tail hstore).tail hinc

/-- A newline is harmless there. -/
theorem cursor_on_screen_atLastColumn :
    ∃ s, ReflTransGen (Step Undisturbed) (booted fun _ => 0) s ∧
      s.1 = .zeroCol ∧ s.2.row = 1 ∧ s.2.stored.length = 80 ∧
      ∀ p ∈ s.2.stored, p.1 < vgaRows ∧ p.2 < vgaCols ∧ p.1 * vgaCols + p.2 < 2000 := by
  have hharmless : Harmless atLastColumn.2 (printed 1 (some [newline])) :=
    Or.inr (Or.inr (Or.inl ⟨by decide +kernel, Or.inl rfl⟩))
  have hwrite : Step Undisturbed atLastColumn (after atLastColumn (.write 1 (some [newline]))) :=
    Step.mk _ (fun _ h => nomatch h) hharmless
  have hrun := atLastColumn_run.tail hwrite
  exact ⟨_, hrun, by decide +kernel, by decide +kernel, by decide +kernel,
    (cursor_on_screen hrun).1⟩

/-- Any other character is stored behind the row. -/
theorem cell_stored_off_screen :
    ∃ s, ReflTransGen (Step fun _ _ => True) (booted fun _ => 0) s ∧
      ∃ p ∈ s.2.stored, ¬ (p.1 < vgaRows ∧ p.2 < vgaCols) := by
  have hfree : ∀ s s', Step Undisturbed s s' → Step (fun _ _ => True) s s' := by
    rintro s s' ⟨e, hidle, -⟩
    exact Step.mk e hidle trivial
  have hwrite : Step (fun _ _ => True) atLastColumn (after atLastColumn (.write 1 (some [122]))) :=
    Step.mk _ (fun _ h => nomatch h) trivial
  have hcell : (0, 80) ∈ (after atLastColumn (.write 1 (some [122]))).2.stored := by
    decide +kernel
  exact ⟨_, (ReflTransGen.mono hfree _ _ atLastColumn_run).tail hwrite, (0, 80), hcell, by decide⟩

end StakOS.Drivers.Vga
