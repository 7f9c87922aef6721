import Mathlib.Data.List.TakeWhile

/-!
# NUL-terminated strings

A pointer into a byte array is the list of the bytes from it to the end of the
array, so a read that leaves the array is a read past the end of the list.  The
string it points to is what stands before the first zero byte.
-/

namespace StakOS.Lib.CString

/-- The characters before the first NUL. -/
def chars (s : List UInt8) : List UInt8 := s.takeWhile (· ≠ 0)

/-- The string ends inside its array. -/
def Terminated (s : List UInt8) : Prop := 0 ∈ s

instance : DecidablePred Terminated := fun s => inferInstanceAs (Decidable (0 ∈ s))

@[simp] theorem chars_zero (s : List UInt8) : chars (0 :: s) = [] := by
  simp [chars]

theorem chars_cons {c : UInt8} (hc : c ≠ 0) (s : List UInt8) : chars (c :: s) = c :: chars s := by
  simp [chars, hc]

theorem Terminated.tail {c : UInt8} {s : List UInt8} (h : Terminated (c :: s)) (hc : c ≠ 0) :
    Terminated s := by
  rcases List.mem_cons.mp h with hzero | hrest
  · exact absurd hzero.symm hc
  · exact hrest

theorem not_terminated_nil : ¬Terminated [] := List.not_mem_nil

theorem chars_ne_zero {s : List UInt8} {c : UInt8} (hc : c ∈ chars s) : c ≠ 0 := by
  simpa using List.mem_takeWhile_imp hc

/-- A terminated string is its characters, a NUL, and whatever follows. -/
theorem Terminated.split {s : List UInt8} (h : Terminated s) :
    ∃ rest, s = chars s ++ 0 :: rest := by
  induction s with
  | nil => exact absurd h not_terminated_nil
  | cons c s ih =>
      by_cases hc : c = 0
      · exact ⟨s, by rw [hc, chars_zero, List.nil_append]⟩
      · obtain ⟨rest, hrest⟩ := ih (h.tail hc)
        refine ⟨rest, ?_⟩
        rw [chars_cons hc, List.cons_append, ← hrest]

/-- The byte behind the characters is the NUL. -/
theorem Terminated.getElem?_length {s : List UInt8} (h : Terminated s) :
    s[(chars s).length]? = some 0 := by
  obtain ⟨rest, hsplit⟩ := h.split
  generalize chars s = cs at hsplit
  rw [hsplit, List.getElem?_append_right (Nat.le_refl _), Nat.sub_self, List.getElem?_cons_zero]

/-- The bytes before it are the characters. -/
theorem getElem?_of_lt {s : List UInt8} {i : Nat} (hi : i < (chars s).length) :
    s[i]? = some (chars s)[i] := by
  have hpre : chars s <+: s := List.takeWhile_prefix _
  obtain ⟨rest, hrest⟩ := hpre
  rw [← List.getElem?_eq_getElem hi]
  calc s[i]? = (chars s ++ rest)[i]? := by rw [hrest]
    _ = (chars s)[i]? := List.getElem?_append_left hi

theorem Terminated.take_length {s : List UInt8} (h : Terminated s) :
    s.take ((chars s).length + 1) = chars s ++ [0] := by
  obtain ⟨rest, hsplit⟩ := h.split
  generalize chars s = cs at hsplit
  rw [hsplit, List.take_length_add_append]
  rfl

/-- The string in front of a NUL, whatever follows. -/
theorem chars_append_zero {s : List UInt8} (hs : 0 ∉ s) (rest : List UInt8) :
    chars (s ++ 0 :: rest) = s := by
  induction s with
  | nil => exact chars_zero rest
  | cons c s ih =>
      rw [List.mem_cons, not_or] at hs
      rw [List.cons_append, chars_cons (Ne.symm hs.1), ih hs.2]

theorem terminated_append_zero (s rest : List UInt8) : Terminated (s ++ 0 :: rest) := by
  simp [Terminated]

end StakOS.Lib.CString
