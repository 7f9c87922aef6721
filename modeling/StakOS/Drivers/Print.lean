import StakOS.Drivers.Vga
import StakOS.Lib.Loop
import StakOS.Shell.Number

/-!
# Printing numbers

`kprint_hex` and `kprint_int` of `kernel/vga.c`, as the characters they send to
`vga_putchar`.  Both fill a buffer on the stack from the least significant digit on; a store
outside of it gives none.
-/

namespace StakOS.Drivers.Print

open StakOS.Lib.CString StakOS.Lib.Loop StakOS.Lib.Numeral
open Vga (Screen vgaPutchar negInt32 ascii)

/-- `buf[i] = c` -/
def store {n : Nat} (buf : Vector UInt8 n) (i : Nat) (c : UInt8) : Option (Vector UInt8 n) :=
  if h : i < n then some (buf.set i c) else none

/-! ## `kprint_hex` -/

def hexChar (nibble : Nat) : UInt8 :=
  UInt8.ofNat (if nibble < 10 then 48 + nibble else 65 + nibble - 10)

/-- `for (int i = 7; i >= 0; i--)`, with `i + 1` turns left. -/
def hexLoop : Nat → Nat → Vector UInt8 8 → Option (Vector UInt8 8)
  | 0, _, buf => some buf
  | i + 1, val, buf => (store buf i (hexChar (val &&& 0xF))).bind (hexLoop i (val >>> 4))

/-- The characters printed; `buf` is what the stack holds. -/
def kprintHex (buf : Vector UInt8 8) (val : Nat) : Option (List UInt8) :=
  (hexLoop 8 val buf).map fun buf => ascii "0x" ++ buf.toList

/-! ## `kprint_int` -/

/-- One turn of `while (val > 0)`. -/
def intTurn : Vector UInt8 10 × Nat × Int →
    Turn (Vector UInt8 10 × Nat × Int) (Option (Vector UInt8 10 × Nat))
  | (buf, i, val) =>
      if val > 0 then
        match store buf i (UInt8.ofNat (48 + val.toNat % 10)) with
        | some buf => .again (buf, i + 1, val / 10)
        | none => .done none
      else .done (some (buf, i))

/-- `for (int j = i - 1; j >= 0; j--)` -/
def backwards (buf : Vector UInt8 10) : Nat → List UInt8
  | 0 => []
  | j + 1 => buf.toList.getD j 0 :: backwards buf j

/-- The digits of a number that is not negative. -/
def intDigits (buf : Vector UInt8 10) (val : Int) : Outcome (Option (List UInt8)) :=
  if val = 0 then .ok (some [48])
  else (Option.map fun r => backwards r.1 r.2) <$> loop intTurn turns (buf, 0, val)

def kprintInt (buf : Vector UInt8 10) (val : Int) : Outcome (Option (List UInt8)) :=
  if val < 0 then (Option.map (45 :: ·)) <$> intDigits buf (negInt32 val) else intDigits buf val

/-! ## Hexadecimal numbers -/

theorem store_eq {n : Nat} (buf : Vector UInt8 n) {i : Nat} (hi : i < n) (c : UInt8) :
    store buf i c = some (buf.set i c) := dif_pos hi

theorem hexLoop_eq {i : Nat} (hi : i ≤ 8) (val : Nat) (buf : Vector UInt8 8) :
    ∃ buf', hexLoop i val buf = some buf' ∧
      buf'.toList = (lastDigits 16 i val).map hexChar ++ buf.toList.drop i := by
  induction i generalizing val buf with
  | zero => exact ⟨buf, rfl, rfl⟩
  | succ i ih =>
      have hnibble : val &&& 0xF = val % 16 := Nat.and_two_pow_sub_one_eq_mod val 4
      have hshift : val >>> 4 = val / 16 := Nat.shiftRight_eq_div_pow val 4
      obtain ⟨buf', hloop, hlist⟩ := ih (by omega) (val / 16) (buf.set i (hexChar (val % 16)))
      refine ⟨buf', ?_, ?_⟩
      · rw [hexLoop, hnibble, hshift, store_eq buf (by omega), Option.bind_some, hloop]
      · have hdrop : (buf.set i (hexChar (val % 16))).toList.drop i =
            hexChar (val % 16) :: buf.toList.drop (i + 1) := by
          have hlen : i < buf.toList.length := by
            rw [Vector.length_toList]
            omega
          rw [Vector.toList_set, List.set_eq_take_append_cons_drop, if_pos hlen]
          exact List.drop_left' (List.length_take_of_le (Nat.le_of_lt hlen))
        rw [hlist, hdrop, lastDigits, List.map_append, List.append_assoc]
        rfl

theorem digitOf_hexChar {d : Nat} (hd : d < 16) : Shell.digitOf (hexChar d) = some d := by
  interval_cases d <;> decide

theorem kprintHex_eq (buf : Vector UInt8 8) (val : Nat) :
    kprintHex buf val = some (ascii "0x" ++ (lastDigits 16 8 val).map hexChar) := by
  obtain ⟨buf', hloop, hlist⟩ := hexLoop_eq (Nat.le_refl 8) val buf
  have hall : buf.toList.drop 8 = [] := List.drop_eq_nil_of_le (by simp)
  rw [kprintHex, hloop, Option.map_some, hlist, hall, List.append_nil]

theorem kprintHex_read (buf : Vector UInt8 8) (val : UInt32) {cs : List UInt8}
    (h : kprintHex buf val.toNat = some cs) (rest : List UInt8) :
    Shell.shStrtoul (cs ++ 0 :: rest) 16 = some val.toNat := by
  rw [kprintHex_eq] at h
  cases h
  have hmarker : ascii "0x" = [48, 120] := by decide
  have hterm : Terminated (ascii "0x" ++ (lastDigits 16 8 val.toNat).map hexChar ++ 0 :: rest) :=
    List.mem_append_right _ List.mem_cons_self
  have hskip : Shell.skipPrefix 16 (ascii "0x" ++ (lastDigits 16 8 val.toNat).map hexChar ++
      0 :: rest) = (lastDigits 16 8 val.toNat).map hexChar ++ 0 :: rest := by
    rw [hmarker]
    rfl
  have hdigits : scan Shell.digitOf ((lastDigits 16 8 val.toNat).map hexChar ++ 0 :: rest) =
      lastDigits 16 8 val.toNat :=
    scan_map (fun d hd => digitOf_hexChar (lt_of_mem_lastDigits (by decide) hd)) (by decide) rest
  have hval : value 16 (lastDigits 16 8 val.toNat) = val.toNat := by
    rw [value_lastDigits]
    exact Nat.mod_eq_of_lt val.toNat_lt
  have hmin : min Shell.uint32Max val.toNat = val.toNat :=
    Nat.min_eq_right (Nat.le_of_lt_succ val.toNat_lt)
  rw [Shell.shStrtoul_eq (by decide) hterm, hskip, hdigits, hval, hmin]

/-- What `kprint_hex` prints is read back by `sh_strtoul`, so no two numbers look the same. -/
theorem kprintHex_roundtrip (buf : Vector UInt8 8) (val : UInt32) :
    ∃ cs, kprintHex buf val.toNat = some cs ∧
      (∀ rest, Shell.shStrtoul (cs ++ 0 :: rest) 16 = some val.toNat) ∧
      ∀ (buf' : Vector UInt8 8) (val' : UInt32), kprintHex buf' val'.toNat = some cs → val' = val := by
  refine ⟨_, kprintHex_eq buf val.toNat, kprintHex_read buf val (kprintHex_eq buf val.toNat), ?_⟩
  intro buf' val' hsame
  have hread := kprintHex_read buf val (kprintHex_eq buf val.toNat) []
  rw [kprintHex_read buf' val' hsame [], Option.some_inj] at hread
  exact UInt32.toNat_inj.1 hread

/-! ## Decimal numbers -/

/-- The decimal digits, none for 0. -/
def digits (n : Nat) : List UInt8 := if n = 0 then [] else ascii (Nat.repr n)

theorem ascii_digitChar {d : Nat} (hd : d < 10) :
    UInt8.ofNat (Nat.digitChar d).toNat = UInt8.ofNat (48 + d) := by
  interval_cases d <;> decide

/-- The last digit comes off the end. -/
theorem digits_pos {n : Nat} (hn : 0 < n) :
    digits n = digits (n / 10) ++ [UInt8.ofNat (48 + n % 10)] := by
  unfold digits ascii Nat.repr
  rw [if_neg (by omega), String.toList_ofList, Nat.toDigits_eq_if (by decide)]
  by_cases hlt : n < 10
  · have hdiv : n / 10 = 0 := Nat.div_eq_of_lt hlt
    have hmod : n % 10 = n := Nat.mod_eq_of_lt hlt
    rw [if_pos hlt, if_pos hdiv, hmod, List.nil_append, List.map_singleton, ascii_digitChar hlt]
  · have hdiv : n / 10 ≠ 0 := by omega
    rw [if_neg hlt, if_neg hdiv, String.toList_ofList, List.map_append, List.map_singleton,
      ascii_digitChar (Nat.mod_lt n (by decide))]

theorem backwards_congr {buf buf' : Vector UInt8 10} {i : Nat}
    (h : ∀ j, j < i → buf'.toList.getD j 0 = buf.toList.getD j 0) :
    backwards buf' i = backwards buf i := by
  induction i with
  | zero => rfl
  | succ i ih =>
      rw [backwards, backwards, h i (by omega), ih fun j hj => h j (by omega)]

theorem backwards_set (buf : Vector UInt8 10) {i : Nat} (hi : i < 10) (c : UInt8) :
    backwards (buf.set i c) (i + 1) = c :: backwards buf i := by
  have hlen : i < buf.toList.length := by
    rw [Vector.length_toList]
    exact hi
  have hset : (buf.set i c).toList = buf.toList.set i c := Vector.toList_set ..
  rw [backwards, hset]
  congr 1
  · rw [List.getD_eq_getElem?_getD, List.getElem?_set_self hlen, Option.getD_some]
  · apply backwards_congr
    intro j hj
    rw [hset, List.getD_eq_getElem?_getD, List.getD_eq_getElem?_getD,
      List.getElem?_set_ne (by omega)]

/-- The loop puts the digits behind those that are there already. -/
theorem loop_intTurn (k : Nat) (buf : Vector UInt8 10) (i : Nat) {val bound : Nat} (hval : val < 10 ^ k)
    (hroom : i + k ≤ 10) (hbound : k < bound) :
    ∃ buf' i', loop intTurn bound (buf, i, (val : Int)) = .ok (some (buf', i')) ∧
      backwards buf' i' = digits val ++ backwards buf i := by
  induction k generalizing buf i val bound with
  | zero =>
      obtain rfl : val = 0 := by omega
      obtain ⟨bound, rfl⟩ := Nat.exists_eq_add_one_of_ne_zero (Nat.ne_of_gt hbound)
      exact ⟨buf, i, loop_of_done rfl, rfl⟩
  | succ k ih =>
      obtain ⟨bound, rfl⟩ := Nat.exists_eq_add_one_of_ne_zero (Nat.ne_of_gt (Nat.zero_lt_of_lt hbound))
      by_cases hzero : val = 0
      · subst hzero
        exact ⟨buf, i, loop_of_done rfl, rfl⟩
      · have hpos : (val : Int) > 0 := by omega
        have hturn : intTurn (buf, i, (val : Int)) =
            .again (buf.set i (UInt8.ofNat (48 + val % 10)), i + 1, ((val / 10 : Nat) : Int)) := by
          rw [intTurn, if_pos hpos, Int.toNat_natCast, store_eq buf (by omega)]
          rfl
        have hdiv : val / 10 < 10 ^ k := by
          rw [Nat.pow_succ] at hval
          exact Nat.div_lt_of_lt_mul (by omega)
        obtain ⟨buf', i', hloop, hprint⟩ := ih (buf.set i (UInt8.ofNat (48 + val % 10))) (i + 1) hdiv
          (by omega) (Nat.lt_of_succ_lt_succ hbound)
        refine ⟨buf', i', (loop_of_again hturn).trans hloop, ?_⟩
        rw [hprint, backwards_set buf (by omega), digits_pos (Nat.pos_of_ne_zero hzero),
          List.append_assoc]
        rfl

theorem intDigits_natCast (buf : Vector UInt8 10) {n : Nat} (hn : n < 10 ^ 10) :
    intDigits buf n = .ok (some (ascii (Nat.repr n))) := by
  unfold intDigits
  by_cases hzero : n = 0
  · subst hzero
    rfl
  · obtain ⟨buf', i, hloop, hprint⟩ := loop_intTurn 10 buf 0 hn (by decide) (by decide : 10 < turns)
    have hdigits : backwards buf' i = ascii (Nat.repr n) := by
      rw [hprint, digits, if_neg hzero, backwards, List.append_nil]
    rw [if_neg (by omega), hloop, ← hdigits]
    rfl

/-- The least number is its own negative, and no digit of it is printed. -/
theorem kprintInt_minValue (buf : Vector UInt8 10) : kprintInt buf (-2 ^ 31) = .ok (some [45]) := by
  rfl

theorem kprintInt_eq (buf : Vector UInt8 10) {val : Int} (hlo : -2 ^ 31 < val) (hhi : val < 2 ^ 31) :
    kprintInt buf val = .ok (some (ascii (Int.repr val))) := by
  unfold kprintInt
  cases val with
  | ofNat n =>
      have hn : n < 10 ^ 10 := by
        have : (n : Int) < 2 ^ 31 := hhi
        omega
      rw [if_neg (by exact Int.not_lt.2 (Int.natCast_nonneg n))]
      exact intDigits_natCast buf hn
  | negSucc n =>
      have hn : n + 1 < 10 ^ 10 := by omega
      have hneg : negInt32 (Int.negSucc n) = ((n + 1 : Nat) : Int) := by
        unfold negInt32
        rw [if_neg (by omega)]
        rfl
      have hminus : ascii (Int.repr (Int.negSucc n)) = 45 :: ascii (Nat.repr (n + 1)) := by
        simp only [Int.repr, ascii, String.toList_append, List.map_append]
        rfl
      rw [if_pos (Int.negSucc_lt_zero n), hneg, intDigits_natCast buf hn, hminus]
      rfl

/-! ## On the console -/

theorem vga_kprintInt_digits (v : Screen) {n : Nat} (hn : n < 2 ^ 31) (buf : Vector UInt8 10) :
    ∃ cs, intDigits buf n = .ok (some cs) ∧ Vga.kprintInt v n = cs.foldl vgaPutchar v := by
  refine ⟨_, intDigits_natCast buf (by omega), ?_⟩
  unfold Vga.kprintInt
  rw [if_neg (by omega)]
  by_cases hzero : n = 0
  · subst hzero
    rfl
  · simp only
    rw [if_neg (by omega), if_pos (by omega), Int.toNat_natCast]
    rfl

/-- The console gets the characters printed, for every number there is. -/
theorem vga_kprintInt (v : Screen) (buf : Vector UInt8 10) (val : Int32) :
    ∃ cs, kprintInt buf val.toInt = .ok (some cs) ∧
      Vga.kprintInt v val.toInt = cs.foldl vgaPutchar v := by
  have hlo := val.le_toInt
  have hhi := val.toInt_lt
  generalize val.toInt = z at hlo hhi
  by_cases hneg : z < 0
  · by_cases hmin : z = -2 ^ 31
    · subst hmin
      exact ⟨_, kprintInt_minValue buf, rfl⟩
    · -- behind the sign both print the number without it
      obtain ⟨n, hn⟩ := Int.eq_ofNat_of_zero_le (by omega : 0 ≤ -z)
      have hnegate : negInt32 z = n := by
        rw [negInt32, if_neg hmin, hn]
      have hlt : n < 2 ^ 31 := by omega
      obtain ⟨cs, hdigits, hshow⟩ := vga_kprintInt_digits (vgaPutchar v 45) hlt buf
      refine ⟨45 :: cs, ?_, ?_⟩
      · rw [kprintInt, if_pos hneg, hnegate, hdigits]
        rfl
      · rw [List.foldl_cons, ← hshow]
        unfold Vga.kprintInt
        rw [if_pos hneg, if_neg (by omega), hnegate]
  · obtain ⟨n, rfl⟩ := Int.eq_ofNat_of_zero_le (Int.not_lt.1 hneg)
    have hlt : n < 2 ^ 31 := by omega
    obtain ⟨cs, hdigits, hshow⟩ := vga_kprintInt_digits v hlt buf
    refine ⟨cs, ?_, hshow⟩
    rw [kprintInt, if_neg hneg, hdigits]

end StakOS.Drivers.Print
