import StakOS.Lib.CString
import StakOS.Lib.Numeral

/-!
# Numbers on the command line

`sh_strtoul` of `shell/sh_util.c`.  It takes the letters from `a` to `f` for digits in
both of its bases, so in base 10 it reads on where the decimal digits have ended.
-/

namespace StakOS.Shell

open StakOS.Lib.CString StakOS.Lib.Numeral

/-! ## The code -/

def uint32Max : Nat := 0xFFFFFFFF

/-- The chain of tests that sets `digit`, or leaves the loop. -/
def digitOf (c : UInt8) : Option Nat :=
  let n := c.toNat
  if 48 ≤ n ∧ n ≤ 57 then some (n - 48)
  else if 97 ≤ n ∧ n ≤ 102 then some (n - 97 + 10)
  else if 65 ≤ n ∧ n ≤ 70 then some (n - 65 + 10)
  else none

/-- The assignment to `result`, in 32 bits. -/
def addDigit (base result digit : Nat) : Nat :=
  if result > uint32Max / base ∨ result * base % 2 ^ 32 > uint32Max - digit then uint32Max
  else (result * base + digit) % 2 ^ 32

/-- `while (*s)`; a string that is read past its array gives none. -/
def strtoulLoop (base : Nat) : Nat → List UInt8 → Option Nat
  | _, [] => none
  | result, c :: s =>
      if c = 0 then some result
      else
        match digitOf c with
        | none => some result
        | some digit => strtoulLoop base (addDigit base result digit) s

/-- The optional prefix of base 16. -/
def skipPrefix (base : Nat) : List UInt8 → List UInt8
  | a :: b :: s => if base = 16 ∧ a = 48 ∧ (b = 120 ∨ b = 88) then s else a :: b :: s
  | s => s

def shStrtoul (s : List UInt8) (base : Nat) : Option Nat :=
  strtoulLoop base 0 (skipPrefix base s)

/-! ## What it computes -/

theorem addDigit_eq {base result digit : Nat} (hbase : 0 < base) (hdigit : digit ≤ uint32Max) :
    addDigit base result digit = accumulate uint32Max base result digit := by
  unfold addDigit accumulate
  by_cases hover : result > uint32Max / base
  · rw [if_pos (Or.inl hover), if_pos (Or.inl hover)]
  · -- the first test keeps the product in the register
    have hmul : result * base ≤ uint32Max :=
      (Nat.le_div_iff_mul_le hbase).1 (Nat.le_of_not_lt hover)
    have hmod : result * base % 2 ^ 32 = result * base :=
      Nat.mod_eq_of_lt (Nat.lt_succ_of_le hmul)
    rw [hmod]
    by_cases hsum : result * base > uint32Max - digit
    · rw [if_pos (Or.inr hsum), if_pos (Or.inr hsum)]
    · have hlt : result * base + digit < 2 ^ 32 := by
        unfold uint32Max at *
        omega
      rw [if_neg (by tauto), if_neg (by tauto), Nat.mod_eq_of_lt hlt]

theorem digitOf_lt {c : UInt8} {d : Nat} (h : digitOf c = some d) : d < 16 := by
  simp only [digitOf] at h
  split at h
  · cases h
    omega
  · split at h
    · cases h
      omega
    · split at h
      · cases h
        omega
      · cases h

theorem digitOf_zero : digitOf 0 = none := by decide

theorem strtoulLoop_eq {base : Nat} (hbase : 0 < base) {s : List UInt8} (hs : Terminated s)
    (result : Nat) :
    strtoulLoop base result s =
      some ((scan digitOf s).foldl (accumulate uint32Max base) result) := by
  induction s generalizing result with
  | nil => exact absurd hs not_terminated_nil
  | cons c s ih =>
      rw [strtoulLoop]
      by_cases hc : c = 0
      · rw [if_pos hc, hc, scan_cons_none digitOf_zero, List.foldl_nil]
      · rw [if_neg hc]
        cases hd : digitOf c with
        | none => rw [scan_cons_none hd, List.foldl_nil]
        | some d =>
            have hle : d ≤ uint32Max := by
              have := digitOf_lt hd
              unfold uint32Max
              omega
            rw [scan_cons_some hd, List.foldl_cons, ← addDigit_eq hbase hle]
            exact ih (hs.tail hc) _

theorem skipPrefix_ten (s : List UInt8) : skipPrefix 10 s = s := by
  unfold skipPrefix
  split
  · exact if_neg fun h => absurd h.1 (by decide)
  · rfl

theorem skipPrefix_terminated {base : Nat} {s : List UInt8} (hs : Terminated s) :
    Terminated (skipPrefix base s) := by
  unfold skipPrefix
  split
  · rename_i a b s
    split
    · -- the two characters skipped are not the NUL
      rename_i h
      have ha : a ≠ 0 := by
        rw [h.2.1]
        decide
      have hb : b ≠ 0 := by
        rcases h.2.2 with hb | hb
        · rw [hb]
          decide
        · rw [hb]
          decide
      exact (hs.tail ha).tail hb
    · exact hs
  · exact hs

/-- The value of all the digits the code takes, letters included. -/
theorem shStrtoul_eq {base : Nat} (hbase : 1 < base) {s : List UInt8} (hs : Terminated s) :
    shStrtoul s base = some (min uint32Max (value base (scan digitOf (skipPrefix base s)))) := by
  have hdigits : ∀ d ∈ scan digitOf (skipPrefix base s), d ≤ uint32Max := by
    intro d hd
    obtain ⟨c, -, hc⟩ := mem_scan hd
    have := digitOf_lt hc
    unfold uint32Max
    omega
  unfold shStrtoul
  rw [strtoulLoop_eq (by omega) (skipPrefix_terminated hs),
    foldl_accumulate hbase (by decide) hdigits]

/-! ## The numeral at the front of a string -/

/-- Letters follow the decimal digits, as far as a base reaches. -/
def alphanumeric (c : UInt8) : Option Nat :=
  let n := c.toNat
  if 48 ≤ n ∧ n ≤ 57 then some (n - 48)
  else if 97 ≤ n ∧ n ≤ 122 then some (n - 97 + 10)
  else if 65 ≤ n ∧ n ≤ 90 then some (n - 65 + 10)
  else none

def digitIn (base : Nat) (c : UInt8) : Option Nat := (alphanumeric c).filter (· < base)

/-- The longest run of digits of the base, behind the prefix that base 16 may have. -/
def numeral (base : Nat) (s : List UInt8) : List Nat := scan (digitIn base) (skipPrefix base s)

/-- A letter from `a` to `f` or from `A` to `F`. -/
def HexLetter (c : UInt8) : Prop :=
  (97 ≤ c.toNat ∧ c.toNat ≤ 102) ∨ (65 ≤ c.toNat ∧ c.toNat ≤ 70)

instance : DecidablePred HexLetter := fun c =>
  inferInstanceAs (Decidable ((97 ≤ c.toNat ∧ c.toNat ≤ 102) ∨ (65 ≤ c.toNat ∧ c.toNat ≤ 70)))

/-- The decimal digits are followed by a letter that is a digit in base 16. -/
def LetterFollows (s : List UInt8) : Prop :=
  ∃ c ∈ s[(numeral 10 s).length]?, HexLetter c

instance : DecidablePred LetterFollows := fun s =>
  inferInstanceAs (Decidable (∃ c ∈ s[(numeral 10 s).length]?, HexLetter c))

theorem digitIn_sixteen : digitIn 16 = digitOf := by
  funext c
  simp only [digitIn, alphanumeric, digitOf]
  split_ifs <;> simp [Option.filter] <;> omega

theorem digitIn_ten (c : UInt8) :
    digitIn 10 c = if 48 ≤ c.toNat ∧ c.toNat ≤ 57 then some (c.toNat - 48) else none := by
  simp only [digitIn, alphanumeric]
  split_ifs <;> simp [Option.filter]
  omega

theorem digitOf_of_digitIn_ten {c : UInt8} {d : Nat} (h : digitIn 10 c = some d) :
    digitOf c = some d := by
  rw [digitIn_ten] at h
  simp only [digitOf]
  split at h
  · rwa [if_pos ‹_›]
  · cases h

/-- A letter is taken for a digit. -/
theorem digitOf_letter {c : UInt8} (hc : HexLetter c) : ∃ d, 0 < d ∧ digitOf c = some d := by
  simp only [digitOf]
  rcases hc with hc | hc
  · exact ⟨c.toNat - 97 + 10, by omega, by rw [if_neg (by omega), if_pos hc]⟩
  · exact ⟨c.toNat - 65 + 10, by omega, by rw [if_neg (by omega), if_neg (by omega), if_pos hc]⟩

theorem digitOf_other {c : UInt8} (hten : digitIn 10 c = none) (hc : ¬HexLetter c) :
    digitOf c = none := by
  rw [digitIn_ten] at hten
  unfold HexLetter at hc
  simp only [digitOf]
  split at hten
  · cases hten
  · rw [if_neg ‹_›, if_neg (by omega), if_neg (by omega)]

/-- The decimal part of what the code takes. -/
theorem scan_digitOf (s : List UInt8) :
    scan digitOf s = numeral 10 s ++ scan digitOf (s.drop (numeral 10 s).length) := by
  unfold numeral
  rw [skipPrefix_ten]
  exact scan_of_le (fun _ _ => digitOf_of_digitIn_ten) s

theorem scan_rest_of_letter {s : List UInt8} (h : LetterFollows s) :
    ∃ d es, 0 < d ∧ scan digitOf (s.drop (numeral 10 s).length) = d :: es := by
  obtain ⟨c, hmem, hc⟩ := h
  obtain ⟨d, hpos, hd⟩ := digitOf_letter hc
  obtain ⟨hlt, rfl⟩ := List.getElem?_eq_some_iff.1 hmem
  rw [List.drop_eq_getElem_cons hlt, scan_cons_some hd]
  exact ⟨d, _, hpos, rfl⟩

theorem scan_rest_of_not_letter {s : List UInt8} (h : ¬LetterFollows s) :
    scan digitOf (s.drop (numeral 10 s).length) = [] := by
  by_cases hlt : (numeral 10 s).length < s.length
  · have hmem : s[(numeral 10 s).length]? = some s[(numeral 10 s).length] :=
      List.getElem?_eq_getElem hlt
    have hten : digitIn 10 s[(numeral 10 s).length] = none := by
      apply digit_after_scan (s := s)
      rw [← hmem]
      unfold numeral
      rw [skipPrefix_ten]
    rw [List.drop_eq_getElem_cons hlt]
    exact scan_cons_none (digitOf_other hten fun hc => h ⟨_, hmem, hc⟩) _
  · rw [List.drop_eq_nil_of_le (by omega)]
    rfl

/-- In base 16 the digits the code takes are those of the base. -/
theorem shStrtoul_sixteen {s : List UInt8} (hs : Terminated s) :
    shStrtoul s 16 = some (min uint32Max (value 16 (numeral 16 s))) := by
  rw [shStrtoul_eq (by decide) hs, numeral, digitIn_sixteen]

/-- The result is the value of the numeral, or the largest number, unless in base 10 a letter
is taken for a digit and the numeral before it leaves room for the difference. -/
theorem shStrtoul_value_iff {s : List UInt8} (hs : Terminated s) {base : Nat}
    (hbase : base = 10 ∨ base = 16) :
    shStrtoul s base = some (min uint32Max (value base (numeral base s))) ↔
      (base = 10 → LetterFollows s → uint32Max ≤ value 10 (numeral 10 s)) := by
  rcases hbase with rfl | rfl
  · rw [shStrtoul_eq (by decide) hs, skipPrefix_ten, Option.some_inj]
    by_cases hletter : LetterFollows s
    · obtain ⟨d, es, hpos, hrest⟩ := scan_rest_of_letter hletter
      have hlt := value_lt_append (numeral 10 s) es (by decide : 0 < 10) hpos
      rw [scan_digitOf, hrest]
      constructor
      · intro h _ _
        omega
      · intro h
        have := h rfl hletter
        omega
    · rw [scan_digitOf, scan_rest_of_not_letter hletter, List.append_nil]
      exact iff_of_true rfl fun _ h => absurd h hletter
  · exact iff_of_true (shStrtoul_sixteen hs) fun h => absurd h (by decide)

/-- The argument of `memtest 64k`. -/
theorem shStrtoul_value_iff_memtest :
    Terminated [54, 52, 107, 0] ∧ shStrtoul [54, 52, 107, 0] 10 = some 64 := by
  have hterm : Terminated [54, 52, 107, 0] := by decide
  have hvalue : min uint32Max (value 10 (numeral 10 [54, 52, 107, 0])) = 64 := by decide
  have hletter : ¬LetterFollows [54, 52, 107, 0] := by decide
  have hresult := (shStrtoul_value_iff hterm (Or.inl rfl)).2 fun _ h => absurd h hletter
  rw [hvalue] at hresult
  exact ⟨hterm, hresult⟩

/-- `memtest 1a` asks for 20 frames. -/
theorem letter_taken_for_digit :
    Terminated [49, 97, 0] ∧ shStrtoul [49, 97, 0] 10 = some 20 ∧
      min uint32Max (value 10 (numeral 10 [49, 97, 0])) = 1 := by
  decide

end StakOS.Shell
