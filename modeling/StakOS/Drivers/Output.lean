import StakOS.Drivers.Console
import StakOS.Drivers.Print

/-!
# What a function prints

The calls of `vga_set_color` and `vga_putchar` that a piece of code makes, as a list: `kprint`,
`kprint_hex` and `kprint_int` are lists of characters, and code that prints is a list of
those.
-/

namespace StakOS.Drivers.Output

open StakOS.Lib.Loop StakOS.Lib.Numeral
open Vga (Call ascii)

/-! ## Colours of `vga.h`, besides those the console starts with -/

def vgaColorRed : UInt8 := 4
def vgaColorLightGreen : UInt8 := 10
def vgaColorLightCyan : UInt8 := 11
def vgaColorLightRed : UInt8 := 12
def vgaColorYellow : UInt8 := 14
def vgaColorWhite : UInt8 := 15

/-! ## Calls -/

def color (fg : UInt8) : List Call := [.setColor fg]

/-- `kprint` of the characters up to the NUL. -/
def chars (w : List UInt8) : List Call := w.map .putchar

def text (s : String) : List Call := chars (ascii s)

def hexChars (val : Nat) : List UInt8 := (Print.kprintHex (Vector.replicate 8 0) val).getD []

def intChars (val : Int) : List UInt8 :=
  match Print.kprintInt (Vector.replicate 10 0) val with
  | .ok (some cs) => cs
  | _ => []

/-- `kprint_hex(val)` -/
def hex (val : Nat) : List Call := chars (hexChars val)

/-- `kprint_int(val)` -/
def int (val : Int) : List Call := chars (intChars val)

/-- `(int32_t)w` -/
def toInt32 (w : Nat) : Int := (BitVec.ofNat 32 w).toInt

theorem toInt32_of_lt {w : Nat} (h : w < 2 ^ 31) : toInt32 w = w := by
  unfold toInt32
  rw [BitVec.toInt_eq_toNat_of_lt]
  · rw [BitVec.toNat_ofNat, Nat.mod_eq_of_lt (by omega)]
  · rw [BitVec.toNat_ofNat, Nat.mod_eq_of_lt (by omega)]
    omega

theorem hexChars_eq (val : Nat) :
    hexChars val = ascii "0x" ++ (lastDigits 16 8 val).map Print.hexChar := by
  rw [hexChars, Print.kprintHex_eq]
  rfl

@[simp] theorem hexChars_length (val : Nat) : (hexChars val).length = 10 := by
  rw [hexChars_eq, List.length_append, List.length_map, length_lastDigits]
  rfl

/-- No two words look the same. -/
theorem hexChars_injective {v w : Nat} (hv : v < 2 ^ 32) (hw : w < 2 ^ 32)
    (h : hexChars v = hexChars w) : v = w := by
  have hread : ∀ val : Nat, val < 2 ^ 32 →
      Shell.shStrtoul (hexChars val ++ 0 :: []) 16 = some val := by
    intro val hval
    have hval' : (UInt32.ofNat val).toNat = val := UInt32.toNat_ofNat_of_lt hval
    have hprint : Print.kprintHex (Vector.replicate 8 0) (UInt32.ofNat val).toNat =
        some (hexChars val) := by
      rw [hval', hexChars_eq, Print.kprintHex_eq]
    have := Print.kprintHex_read (Vector.replicate 8 0) (UInt32.ofNat val) hprint []
    rwa [hval'] at this
  have hboth := hread v hv
  rw [h, hread w hw] at hboth
  exact (Option.some_inj.mp hboth).symm

theorem intChars_natCast {n : Nat} (h : n < 2 ^ 31) : intChars n = ascii (Nat.repr n) := by
  rw [intChars, Print.kprintInt_eq _ (by omega) (by omega)]
  rfl

/-! ## Reading what was printed -/

/-- The characters, without the colours. -/
def transcript : List Call → List UInt8
  | [] => []
  | .setColor _ :: calls => transcript calls
  | .putchar c :: calls => c :: transcript calls

@[simp] theorem transcript_append (a b : List Call) :
    transcript (a ++ b) = transcript a ++ transcript b := by
  induction a with
  | nil => rfl
  | cons x a ih =>
      cases x with
      | setColor fg => exact ih
      | putchar c => exact congrArg (c :: ·) ih

theorem transcript_flatten (ls : List (List Call)) :
    transcript ls.flatten = (ls.map transcript).flatten := by
  induction ls with
  | nil => rfl
  | cons l ls ih => rw [List.flatten_cons, transcript_append, ih, List.map_cons, List.flatten_cons]

@[simp] theorem transcript_color (fg : UInt8) : transcript (color fg) = [] := rfl

@[simp] theorem transcript_chars (w : List UInt8) : transcript (chars w) = w := by
  induction w with
  | nil => rfl
  | cons c w ih => exact congrArg (c :: ·) ih

@[simp] theorem transcript_text (s : String) : transcript (text s) = ascii s :=
  transcript_chars (ascii s)

@[simp] theorem transcript_hex (val : Nat) : transcript (hex val) = hexChars val :=
  transcript_chars _

@[simp] theorem transcript_int (val : Int) : transcript (int val) = intChars val :=
  transcript_chars _

/-- A word below 2 GB is not taken for a negative number. -/
theorem transcript_int_toInt32 {n : Nat} (hn : n < 2 ^ 31) :
    transcript (int (toInt32 n)) = ascii (Nat.repr n) := by
  rw [transcript_int, toInt32_of_lt hn, intChars_natCast hn]

end StakOS.Drivers.Output
