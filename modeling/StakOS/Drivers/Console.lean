import Mathlib.Data.List.Induction
import StakOS.Drivers.Vga
import StakOS.Lib.Terminal

/-!
# The console as a terminal

A `vga_putchar` that is not interrupted keeps the 25 rows of the screen equal to the
window of a terminal whose rows have no end.  This is one simulation for all that a
cell may be compared with: its glyph, or its glyph and its colour.

Glyphs are right for every byte.  Colours are not: `char` is signed, so a byte from
0x80 on is widened to a word whose upper byte is 0xFF, and the colour is lost in it.
-/

namespace StakOS.Drivers.Vga

open StakOS.Lib StakOS.Lib.Memory

/-! ## The bytes of a cell -/

def vgaColorBlack : UInt8 := 0
def vgaColorLightGrey : UInt8 := 7

def vgaMakeColor (fg bg : UInt8) : UInt8 := fg ||| (bg <<< 4)

theorem vgaSetColor_color (v : Screen) (fg : UInt8) :
    (vgaSetColor v fg).color = vgaMakeColor fg vgaColorBlack := UInt8.or_zero.symm

theorem vgaInit_color (buf : Nat → UInt16) :
    (vgaInit buf).color = vgaMakeColor vgaColorLightGrey vgaColorBlack := rfl

def glyph (e : UInt16) : UInt8 := e.toUInt8

def attr (e : UInt16) : UInt8 := (e >>> 8).toUInt8

theorem forall_byte {p : UInt8 → Prop} (h : ∀ n : Fin 256, p (UInt8.ofFin n)) (c : UInt8) : p c :=
  h c.toFin

theorem glyph_makeEntry (c color : UInt8) : glyph (vgaMakeEntry c color) = c := by
  have hshift : (color.toUInt16 <<< 8).toUInt8 = 0 :=
    forall_byte (p := fun k => (k.toUInt16 <<< 8).toUInt8 = 0) (by decide +kernel) color
  unfold glyph vgaMakeEntry
  rw [UInt16.toUInt8_or, hshift, UInt8.or_zero]
  split
  · exact UInt8.toUInt8_toUInt16 c
  · rw [UInt16.toUInt8_or, UInt8.toUInt8_toUInt16]
    exact UInt8.or_zero

theorem attr_makeEntry (c color : UInt8) :
    attr (vgaMakeEntry c color) = if c < 128 then color else 0xFF := by
  have hcolor : (color.toUInt16 <<< 8 >>> 8).toUInt8 = color :=
    forall_byte (p := fun k => (k.toUInt16 <<< 8 >>> 8).toUInt8 = k) (by decide +kernel) color
  have hchar : (c.toUInt16 >>> 8).toUInt8 = 0 :=
    forall_byte (p := fun k => (k.toUInt16 >>> 8).toUInt8 = 0) (by decide +kernel) c
  have hfull : 0xFF ||| color = 0xFF :=
    forall_byte (p := fun k => 0xFF ||| k = 0xFF) (by decide +kernel) color
  unfold attr vgaMakeEntry
  rw [UInt16.shiftRight_or, UInt16.toUInt8_or, hcolor]
  split
  · rw [hchar, UInt8.zero_or]
  · rw [UInt16.shiftRight_or, UInt16.toUInt8_or, hchar, UInt8.zero_or]
    exact hfull

theorem backUp_color (v : Screen) : (backUp v).color = v.color := by
  unfold backUp
  split
  · rfl
  · split <;> rfl

theorem nextRow_color (v : Screen) : (nextRow v).color = v.color := by
  unfold nextRow
  dsimp only
  split <;> rfl

theorem putchar_color (v : Screen) (c : UInt8) : (vgaPutchar v c).color = v.color := by
  unfold vgaPutchar
  dsimp only
  split
  · exact backUp_color v
  · split
    · exact nextRow_color _
    · split
      · exact nextRow_color _
      · rfl

/-! ## The screen follows a terminal -/

instance : NeZero vgaRows := ⟨by decide⟩
instance : NeZero vgaCols := ⟨by decide⟩

def Screen.cells (v : Screen) (r : Fin vgaRows) (c : Fin vgaCols) : UInt16 :=
  v.buf (r * vgaCols + c)

/-- The index of the cell at the cursor. -/
theorem Screen.OnScreen.index {v : Screen} (h : v.OnScreen) :
    add32 (v.row * vgaCols) v.col = v.row * vgaCols + v.col ∧ v.row * vgaCols + v.col < 2000 := by
  obtain ⟨hrow, hcol⟩ := h
  have hlt : v.row * vgaCols + v.col < 2000 := by
    unfold vgaRows vgaCols at *
    omega
  exact ⟨add32_of_lt (hlt.trans (by decide)), hlt⟩

variable {α : Type*}

/-- What a byte does to a terminal in which the character `c` is shown as `render c`. -/
def feed (render : UInt8 → α) (t : Terminal vgaRows vgaCols α) (c : UInt8) :
    Terminal vgaRows vgaCols α :=
  if c = backspace then t.erase (render 32)
  else if c = newline then t.newLine (render 32)
  else t.write (render c) (render 32)

/-- The cursors agree, and the screen shows the window of the terminal up to `rel`. -/
structure Follows (rel : UInt16 → α → Prop) (v : Screen) (t : Terminal vgaRows vgaCols α) :
    Prop where
  row : v.row = t.row
  col : v.col = t.col
  cells : t.ShownOn rel v.cells

namespace Follows

variable {rel : UInt16 → α → Prop} {v : Screen} {t : Terminal vgaRows vgaCols α} {a : α}

theorem onScreen (h : Follows rel v t) : v.OnScreen :=
  ⟨h.row ▸ t.row.isLt, h.col ▸ t.col.isLt⟩

/-- The same cells and another cursor. -/
theorem moved (h : Follows rel v t) (row : Fin vgaRows) (col : Fin vgaCols) :
    Follows rel { v with row := row, col := col } { t with row := row, col := col } :=
  ⟨rfl, rfl, h.cells⟩

theorem setCell (h : Follows rel v t) {e : UInt16} (hrel : rel e a) :
    Follows rel (v.setCell e) (t.put a) := by
  refine ⟨h.row, h.col, h.cells.put hrel fun r c => ?_⟩
  unfold Screen.cells Screen.setCell
  rw [h.onScreen.index.1, h.row, h.col]
  dsimp only
  by_cases hcursor : r = t.row ∧ c = t.col
  · rw [if_pos hcursor, hcursor.1, hcursor.2, Function.update_self]
  · have hne : r * vgaCols + c ≠ t.row * vgaCols + t.col := by
      have hc := c.isLt
      have htc := t.col.isLt
      rw [Fin.ext_iff, Fin.ext_iff] at hcursor
      unfold vgaCols at *
      omega
    rw [if_neg hcursor, Function.update_of_ne hne]

/-- `vga_scroll` moves the window. -/
theorem scroll (h : Follows rel v t) (hlast : ¬ t.row + 1 < vgaRows) (hrel : rel v.blank a) :
    Follows rel (vgaScroll { v with row := vgaRows, col := 0 }) (t.newLine a) := by
  refine ⟨?_, ?_, h.cells.scroll hlast hrel fun r c => ?_⟩
  · have hrow := t.row.isLt
    rw [Terminal.newLine_of_last a hlast]
    change vgaRows - 1 = t.row.val
    omega
  · rw [Terminal.newLine_of_last a hlast]
    rfl
  · have hc := c.isLt
    have hr := r.isLt
    unfold Screen.cells vgaScroll
    dsimp only
    by_cases hup : r + 1 < vgaRows
    · have hcopied : r * vgaCols + c < (vgaRows - 1) * vgaCols := by
        unfold vgaRows vgaCols at *
        omega
      have hbelow : r * vgaCols + c + vgaCols = (r + 1) * vgaCols + c := by
        rw [Nat.add_one_mul]
        omega
      rw [dif_pos hup, if_pos hcopied, hbelow]
    · have hblank : ¬ r * vgaCols + c < (vgaRows - 1) * vgaCols ∧
          r * vgaCols + c < vgaRows * vgaCols := by
        unfold vgaRows vgaCols at *
        omega
      rw [dif_neg hup, if_neg hblank.1, if_pos hblank.2]
      rfl

theorem nextRow (h : Follows rel v t) (hrel : rel v.blank a) :
    Follows rel (nextRow { v with col := 0 }) (t.newLine a) := by
  have hinc : add32 v.row 1 = t.row + 1 := by
    have hrow := t.row.isLt
    rw [h.row]
    apply add32_of_lt
    unfold vgaRows at hrow
    omega
  unfold Vga.nextRow
  simp only [hinc]
  by_cases hlast : t.row + 1 < vgaRows
  · rw [if_neg (by omega), Terminal.newLine_of_lt a hlast]
    exact h.moved ⟨t.row + 1, hlast⟩ 0
  · have hrows : t.row + 1 = vgaRows := by
      have hrow := t.row.isLt
      omega
    rw [if_pos hrows, hrows]
    exact h.scroll hlast hrel

theorem backUp (h : Follows rel v t) : Follows rel (backUp v) t.stepBack := by
  obtain ⟨hrow, hcol⟩ := h.onScreen
  unfold Vga.backUp Terminal.stepBack
  by_cases hc : 0 < v.col
  · have hdec : sub32 v.col 1 = t.col - 1 := by
      rw [sub32_of_le hc (by unfold vgaCols at hcol; omega), h.col]
    rw [if_pos hc, if_pos (h.col ▸ hc), hdec]
    exact ⟨h.row, rfl, h.cells⟩
  · have htc : ¬ 0 < t.col.val := h.col ▸ hc
    rw [if_neg hc, if_neg htc]
    by_cases hr : 0 < v.row
    · have hdec : sub32 v.row 1 = t.row - 1 := by
        rw [sub32_of_le hr (by unfold vgaRows at hrow; omega), h.row]
      rw [if_pos hr, if_pos (h.row ▸ hr), hdec]
      exact ⟨rfl, rfl, h.cells⟩
    · have htr : ¬ 0 < t.row.val := h.row ▸ hr
      rw [if_neg hr, if_neg htr]
      exact h

theorem write (h : Follows rel v t) {e : UInt16} {b : α} (hrel : rel e a) (hblank : rel v.blank b) :
    Follows rel
      (if add32 v.col 1 = vgaCols then Vga.nextRow { v.setCell e with col := 0 }
        else { v.setCell e with col := add32 v.col 1 })
      (t.write a b) := by
  have hset := h.setCell hrel
  have hinc : add32 v.col 1 = t.col + 1 := by
    have hcol := t.col.isLt
    rw [h.col]
    apply add32_of_lt
    unfold vgaCols at hcol
    omega
  have hcol := t.col.isLt
  rw [hinc]
  unfold Terminal.write Terminal.advance
  by_cases hfull : (t.put a).col + 1 < vgaCols
  · have hmore : t.col + 1 < vgaCols := hfull
    rw [if_neg (by omega), dif_pos hfull]
    exact ⟨hset.row, rfl, hset.cells⟩
  · have hless : ¬ t.col + 1 < vgaCols := hfull
    rw [if_pos (by omega), dif_neg hfull]
    exact hset.nextRow hblank

/-- One call of `vga_putchar`. -/
theorem putchar (h : Follows rel v t) {render : UInt8 → α} {c : UInt8}
    (hblank : rel v.blank (render 32)) (hchar : rel (vgaMakeEntry c v.color) (render c)) :
    Follows rel (vgaPutchar v c) (feed render t c) := by
  unfold vgaPutchar feed
  by_cases hback : c = backspace
  · have hcolor : (Vga.backUp v).blank = v.blank := by
      unfold Screen.blank
      rw [backUp_color]
    simp only [if_pos hback, hcolor]
    exact h.backUp.setCell hblank
  · simp only [if_neg hback]
    by_cases hline : c = newline
    · simp only [if_pos hline]
      exact h.nextRow hblank
    · simp only [if_neg hline]
      exact h.write hchar hblank

end Follows

/-- `vga_init` clears the screen. -/
theorem follows_init {rel : UInt16 → α → Prop} {a : α} (buf : Nat → UInt16)
    (hrel : rel (vgaMakeEntry 32 7) a) : Follows rel (vgaInit buf) (Terminal.cleared a) := by
  refine ⟨rfl, rfl, Terminal.ShownOn.cleared fun r c => ?_⟩
  have hin : r * vgaCols + c < vgaRows * vgaCols := by
    have hr := r.isLt
    have hc := c.isLt
    unfold vgaRows vgaCols at *
    omega
  unfold Screen.cells vgaInit
  dsimp only
  rw [if_pos hin]
  exact hrel

/-! ## Stores -/

/-- The index in `vga_buf` that the next statement stores to. -/
def storeIndex : Pc × Screen → Option Nat
  | (.backStore, v) => some (add32 (v.row * vgaCols) v.col)
  | (.store _, v) => some (add32 (v.row * vgaCols) v.col)
  | (.scroll k, _) => if k < vgaRows * vgaCols then some k else none
  | _ => none

/-- Nothing else is stored to. -/
theorem stmt_buf_of_ne {x : Pc × Screen} {i : Nat} (h : storeIndex x ≠ some i) :
    (stmt x).2.buf i = x.2.buf i := by
  obtain ⟨pc, v⟩ := x
  cases pc with
  | backStore => exact Function.update_of_ne (fun heq => h (congrArg some heq.symm)) _ _
  | store c => exact Function.update_of_ne (fun heq => h (congrArg some heq.symm)) _ _
  | scroll k =>
      by_cases hk : k < vgaRows * vgaCols
      · have hne : i ≠ k := fun heq => h (by rw [storeIndex, if_pos hk, heq])
        rw [stmt]
        by_cases hcopy : k < (vgaRows - 1) * vgaCols
        · rw [if_pos hcopy]
          exact Function.update_of_ne hne _ _
        · rw [if_neg hcopy, if_pos hk]
          exact Function.update_of_ne hne _ _
      · have hcopy : ¬ k < (vgaRows - 1) * vgaCols := by
          unfold vgaRows vgaCols at *
          omega
        rw [stmt, if_neg hcopy, if_neg hk]
  | _ => rfl

/-- A decrement comes after its test. -/
def Tested (x : Pc × Screen) : Prop :=
  (x.1 = .decCol → 0 < x.2.col) ∧ (x.1 = .decRow → 0 < x.2.row)

theorem tested_of_ne {x : Pc × Screen} (hcol : x.1 ≠ .decCol) (hrow : x.1 ≠ .decRow) : Tested x :=
  ⟨fun h => absurd h hcol, fun h => absurd h hrow⟩

theorem tested_stmt (x : Pc × Screen) : Tested (stmt x) := by
  obtain ⟨pc, v⟩ := x
  cases pc with
  | backTest =>
      change Tested (if 0 < v.col then .decCol else .testRow, v)
      by_cases hpos : 0 < v.col
      · rw [if_pos hpos]
        exact ⟨fun _ => hpos, by simp⟩
      · rw [if_neg hpos]
        exact tested_of_ne (by simp) (by simp)
  | testRow =>
      change Tested (if 0 < v.row then .decRow else .backStore, v)
      by_cases hpos : 0 < v.row
      · rw [if_pos hpos]
        exact ⟨by simp, fun _ => hpos⟩
      · rw [if_neg hpos]
        exact tested_of_ne (by simp) (by simp)
  | incCol =>
      change Tested (if add32 v.col 1 = vgaCols then .zeroCol else .idle, _)
      split <;> exact tested_of_ne (by simp) (by simp)
  | incRow =>
      change Tested (if add32 v.row 1 = vgaRows then .scroll 0 else .idle, _)
      split <;> exact tested_of_ne (by simp) (by simp)
  | scroll k =>
      rw [stmt]
      split
      · exact tested_of_ne (by simp) (by simp)
      · split <;> exact tested_of_ne (by simp) (by simp)
  | _ => exact tested_of_ne (by simp [stmt]) (by simp [stmt])

/-- The statements of a call that is not interrupted. -/
theorem inv_iterate {v : Screen} (hon : v.OnScreen) (hclean : v.Clean) (c : UInt8) (n : Nat) :
    Inv (stmt^[n] (entryPc c, v)) ∧ Tested (stmt^[n] (entryPc c, v)) := by
  induction n with
  | zero =>
      refine ⟨⟨Region.of_onScreen _ hon, hclean⟩, ?_⟩
      change Tested (entryPc c, v)
      unfold entryPc
      split
      · exact tested_of_ne (by simp) (by simp)
      · split <;> exact tested_of_ne (by simp) (by simp)
  | succ n ih =>
      rw [Function.iterate_succ_apply']
      exact ⟨ih.1.stmt ih.2.1 ih.2.2, tested_stmt _⟩

theorem Inv.storeIndex_lt {x : Pc × Screen} (h : Inv x) {i : Nat} (hi : storeIndex x = some i) :
    i < 2000 := by
  obtain ⟨pc, v⟩ := x
  have hcell : v.OnScreen → add32 (v.row * vgaCols) v.col < 2000 := fun hon =>
    hon.index.1 ▸ hon.index.2
  cases pc with
  | backStore => exact Option.some.inj hi ▸ hcell h.region
  | store c => exact Option.some.inj hi ▸ hcell h.region
  | scroll k =>
      rw [storeIndex] at hi
      split at hi
      · rename_i hk
        exact Option.some.inj hi ▸ hk
      · cases hi
  | _ => cases hi

/-- Nothing outside the screen changes. -/
theorem foldl_buf {v : Screen} (hon : v.OnScreen) (hclean : v.Clean) (w : List UInt8) {i : Nat}
    (hi : 2000 ≤ i) : (w.foldl vgaPutchar v).buf i = v.buf i := by
  have hstmts : ∀ {v : Screen} (c : UInt8) (n : Nat), v.OnScreen → v.Clean →
      (stmt^[n] (entryPc c, v)).2.buf i = v.buf i := by
    intro v c n hon hclean
    induction n with
    | zero => rfl
    | succ n ih =>
        have hne : storeIndex (stmt^[n] (entryPc c, v)) ≠ some i := fun hstore =>
          absurd ((inv_iterate hon hclean c n).1.storeIndex_lt hstore) (by omega)
        rw [Function.iterate_succ_apply', stmt_buf_of_ne hne, ih]
  induction w generalizing v with
  | nil => rfl
  | cons c w ih =>
      obtain ⟨n, hend⟩ := finishes_putchar v c
      have hcall := hstmts c n hon hclean
      rw [hend] at hcall
      obtain ⟨hon', hclean'⟩ := foldl_onScreen hon [c]
      exact (ih hon' (hclean'.mpr hclean)).trans hcall

/-- The terminal that the bytes `w` are written to. -/
def terminal (w : List UInt8) : Terminal vgaRows vgaCols UInt8 :=
  w.foldl (feed id) (Terminal.cleared 32)

theorem follows_terminal (buf : Nat → UInt16) (w : List UInt8) :
    Follows (fun e g => glyph e = g) (w.foldl vgaPutchar (vgaInit buf)) (terminal w) := by
  have hinit : Follows (fun e g => glyph e = g) (vgaInit buf) (Terminal.cleared 32) :=
    follows_init buf (glyph_makeEntry 32 7)
  exact List.foldl_rel hinit fun c _ v t h =>
    h.putchar (glyph_makeEntry 32 v.color) (glyph_makeEntry c v.color)

/-- **The console is a terminal with unlimited rows**, seen through its window of 25
rows.  Whatever bytes have been printed, the cursor is on the screen, the statements of
the next call store to cells of the screen only, nothing else has changed since before
`vga_init`, and every cell has the glyph that the window shows. -/
theorem console_refines_terminal (buf : Nat → UInt16) (w : List UInt8) :
    (w.foldl vgaPutchar (vgaInit buf)).row < 25 ∧ (w.foldl vgaPutchar (vgaInit buf)).col < 80 ∧
    (∀ c n i, storeIndex (stmt^[n] (entryPc c, w.foldl vgaPutchar (vgaInit buf))) = some i →
      i < 2000) ∧
    (∀ i, 2000 ≤ i → (w.foldl vgaPutchar (vgaInit buf)).buf i = buf i) ∧
    (w.foldl vgaPutchar (vgaInit buf)).row = (terminal w).row ∧
    (w.foldl vgaPutchar (vgaInit buf)).col = (terminal w).col ∧
    ∀ (y : Fin vgaRows) (x : Fin vgaCols),
      glyph ((w.foldl vgaPutchar (vgaInit buf)).buf (y * vgaCols + x)) = (terminal w).view y x := by
  have h := follows_terminal buf w
  have hon : (vgaInit buf).OnScreen := (follows_terminal buf []).onScreen
  have hclean : (vgaInit buf).Clean := fun p hp => nomatch hp
  have hclean' := (foldl_onScreen hon w).2.mpr hclean
  refine ⟨h.onScreen.1, h.onScreen.2, fun c n i hi => ?_, fun i hi => ?_, h.row, h.col, h.cells⟩
  · exact (inv_iterate h.onScreen hclean' c n).1.storeIndex_lt hi
  · exact (foldl_buf hon hclean w hi).trans (if_neg (Nat.not_lt.mpr hi))

/-! ## Colours -/

inductive Call where
  | setColor (fg : UInt8)
  | putchar (c : UInt8)
deriving DecidableEq

def call (v : Screen) : Call → Screen
  | .setColor fg => vgaSetColor v fg
  | .putchar c => vgaPutchar v c

/-- A terminal whose cells are glyphs with the colour in force when they were written,
and the colour in force. -/
structure Coloured where
  terminal : Terminal vgaRows vgaCols (UInt8 × UInt8)
  color : UInt8

def Coloured.call (p : Coloured) : Call → Coloured
  | .setColor fg => { p with color := vgaMakeColor fg vgaColorBlack }
  | .putchar c => { p with terminal := feed (fun c => (c, p.color)) p.terminal c }

def coloured (calls : List Call) : Coloured :=
  calls.foldl Coloured.call
    ⟨Terminal.cleared (32, vgaMakeColor vgaColorLightGrey vgaColorBlack),
      vgaMakeColor vgaColorLightGrey vgaColorBlack⟩

/-- The console after `vga_init` and some calls. -/
def console (buf : Nat → UInt16) (calls : List Call) : Screen := calls.foldl call (vgaInit buf)

/-- Every cell has the colour that was in force when its glyph was written. -/
def ColoursKept (v : Screen) (t : Terminal vgaRows vgaCols (UInt8 × UInt8)) : Prop :=
  ∀ r c, attr (v.cells r c) = (t.view r c).2

theorem console_concat (buf : Nat → UInt16) (calls : List Call) (x : Call) :
    console buf (calls ++ [x]) = call (console buf calls) x := by
  rw [console, List.foldl_append]
  rfl

theorem coloured_concat (calls : List Call) (x : Call) :
    coloured (calls ++ [x]) = (coloured calls).call x := by
  rw [coloured, List.foldl_append]
  rfl

section Colours

variable {rel : UInt16 → UInt8 × UInt8 → Prop} {buf : Nat → UInt16}

theorem Follows.call {v : Screen} {p : Coloured} (h : Follows rel v p.terminal)
    (hcolor : v.color = p.color) {x : Call} (hblank : rel (vgaMakeEntry 32 p.color) (32, p.color))
    (hchar : ∀ c, x = .putchar c → rel (vgaMakeEntry c p.color) (c, p.color)) :
    Follows rel (call v x) (p.call x).terminal ∧ (Vga.call v x).color = (p.call x).color := by
  cases x with
  | setColor fg => exact ⟨⟨h.row, h.col, h.cells⟩, vgaSetColor_color v fg⟩
  | putchar c =>
      rw [← hcolor] at hblank hchar
      have hput : Follows rel (vgaPutchar v c) (feed (fun c => (c, v.color)) p.terminal c) :=
        h.putchar hblank (hchar c rfl)
      refine ⟨?_, (putchar_color v c).trans hcolor⟩
      rw [hcolor] at hput
      exact hput

/-- A run of calls, each of which writes a related cell. -/
theorem follows_calls (hblank : ∀ color, rel (vgaMakeEntry 32 color) (32, color)) (calls : List Call)
    (hchar : ∀ before c, before ++ [.putchar c] <+: calls →
      rel (vgaMakeEntry c (coloured before).color) (c, (coloured before).color)) :
    Follows rel (console buf calls) (coloured calls).terminal ∧
      (console buf calls).color = (coloured calls).color := by
  induction calls using List.reverseRecOn with
  | nil => exact ⟨follows_init buf (hblank 7), vgaInit_color buf⟩
  | append_singleton calls x ih =>
      obtain ⟨h, hcolor⟩ := ih fun before c hpre => hchar before c (hpre.trans (List.prefix_append ..))
      rw [console_concat, coloured_concat]
      apply h.call hcolor (hblank _)
      rintro c rfl
      exact hchar calls c List.prefix_rfl

theorem follows_entries (buf : Nat → UInt16) (calls : List Call) :
    Follows (fun e p => e = vgaMakeEntry p.1 p.2) (console buf calls) (coloured calls).terminal :=
  (follows_calls (fun _ => rfl) calls fun _ _ _ => rfl).1

end Colours

theorem attr_makeEntry_eq_iff (c color : UInt8) :
    attr (vgaMakeEntry c color) = color ↔ c < 0x80 ∨ color = 0xFF := by
  rw [attr_makeEntry]
  by_cases hc : c < 128
  · rw [if_pos hc]
    exact iff_of_true rfl (Or.inl hc)
  · rw [if_neg hc]
    exact eq_comm.trans (or_iff_right hc).symm

/-- **Colours are kept** in every state of a run exactly if no byte from 0x80 on is
printed, unless in the colour 0xFF.  The glyphs are those of the terminal in any case. -/
theorem colours_kept_iff (buf : Nat → UInt16) (calls : List Call) :
    (∀ r c, glyph ((console buf calls).cells r c) = ((coloured calls).terminal.view r c).1) ∧
    ((∀ before, before <+: calls →
        ColoursKept (console buf before) (coloured before).terminal) ↔
      ∀ before c, before ++ [.putchar c] <+: calls →
        c < 0x80 ∨ (coloured before).color = 0xFF) := by
  refine ⟨fun r c => ?_, ?_, ?_⟩
  · rw [(follows_entries buf calls).cells r c]
    exact glyph_makeEntry _ _
  · -- right after the call the glyph is on the screen
    intro hkept before c hpre
    by_cases hctrl : c = backspace ∨ c = newline
    · left
      rcases hctrl with rfl | rfl <;> decide
    · obtain ⟨hback, hline⟩ := not_or.mp hctrl
      obtain ⟨r, x, hview⟩ := Terminal.exists_view_write (t := (coloured before).terminal)
        (show 2 ≤ vgaRows by decide) (c, (coloured before).color) (32, (coloured before).color)
      have hterm : (coloured (before ++ [.putchar c])).terminal =
          (coloured before).terminal.write (c, (coloured before).color)
            (32, (coloured before).color) := by
        rw [coloured_concat]
        exact (if_neg hback).trans (if_neg hline)
      have hcell := (follows_entries buf (before ++ [.putchar c])).cells r x
      have hattr := hkept _ hpre r x
      rw [hcell, hterm, hview] at hattr
      exact (attr_makeEntry_eq_iff c _).mp hattr
  · intro hplain before hpre
    have hblank : ∀ color, attr (vgaMakeEntry 32 color) = color := fun color =>
      (attr_makeEntry_eq_iff 32 color).mpr (Or.inl (by decide))
    have hfollows : Follows (fun e p => attr e = p.2) (console buf before)
        (coloured before).terminal :=
      (follows_calls hblank before fun before' c hpre' =>
        (attr_makeEntry_eq_iff c _).mpr (hplain before' c (hpre'.trans hpre))).1
    exact hfollows.cells

/-- The byte 0x80 gets the attribute 0xFF in place of light grey on black. -/
theorem colour_lost_in_sign :
    ¬ ColoursKept (console (fun _ => 0) [.putchar 0x80]) (coloured [.putchar 0x80]).terminal := by
  intro hkept
  have hcell := hkept 0 0
  revert hcell
  decide +kernel

end StakOS.Drivers.Vga
