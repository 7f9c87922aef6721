import Mathlib.Data.Nat.Digits.Lemmas

/-!
# Numerals

Digits with the most significant one first, as they are written and read.  Their value
is Mathlib's `Nat.ofDigits` of the reversed list.  A reader takes digits from the front of
a text for as long as there are some, and adds them up in a register that sticks at its
largest value.
-/

namespace StakOS.Lib.Numeral

variable {α : Type*} {b : Nat}

def value (b : Nat) (ds : List Nat) : Nat := Nat.ofDigits b ds.reverse

@[simp] theorem value_nil (b : Nat) : value b [] = 0 := rfl

theorem value_append (b : Nat) (ds es : List Nat) :
    value b (ds ++ es) = value b ds * b ^ es.length + value b es := by
  unfold value
  rw [List.reverse_append, Nat.ofDigits_append, List.length_reverse, Nat.add_comm, Nat.mul_comm]

theorem value_singleton (b d : Nat) : value b [d] = d := Nat.ofDigits_singleton

theorem value_snoc (b : Nat) (ds : List Nat) (d : Nat) :
    value b (ds ++ [d]) = value b ds * b + d := by
  rw [value_append, value_singleton, List.length_singleton, Nat.pow_one]

/-- A digit that a base does not have makes the numeral larger. -/
theorem value_lt_append (ds : List Nat) {d : Nat} (es : List Nat) (hb : 0 < b) (hd : 0 < d) :
    value b ds < value b (ds ++ d :: es) := by
  have hpow : 0 < b ^ es.length := Nat.pow_pos hb
  calc value b ds
      < value b ds * b + d := by
        have := Nat.le_mul_of_pos_right (value b ds) hb
        omega
    _ = value b (ds ++ [d]) := (value_snoc b ds d).symm
    _ ≤ value b (ds ++ [d]) * b ^ es.length := Nat.le_mul_of_pos_right _ hpow
    _ ≤ value b ((ds ++ [d]) ++ es) := by
        rw [value_append b (ds ++ [d])]
        exact Nat.le_add_right _ _
    _ = value b (ds ++ d :: es) := by rw [List.append_assoc, List.singleton_append]

/-! ## Writing -/

/-- The last `n` digits of a number. -/
def lastDigits (b : Nat) : Nat → Nat → List Nat
  | 0, _ => []
  | n + 1, v => lastDigits b n (v / b) ++ [v % b]

theorem value_lastDigits (b n v : Nat) : value b (lastDigits b n v) = v % b ^ n := by
  induction n generalizing v with
  | zero => simp [lastDigits, Nat.mod_one]
  | succ n ih =>
      rw [lastDigits, value_snoc, ih, Nat.pow_succ, Nat.mul_comm (b ^ n) b, Nat.mod_mul,
        Nat.mul_comm, Nat.add_comm]

theorem length_lastDigits (b n v : Nat) : (lastDigits b n v).length = n := by
  induction n generalizing v with
  | zero => rfl
  | succ n ih => rw [lastDigits, List.length_append, ih, List.length_singleton]

theorem lt_of_mem_lastDigits (hb : 0 < b) {n v d : Nat} (h : d ∈ lastDigits b n v) : d < b := by
  induction n generalizing v with
  | zero => exact absurd h List.not_mem_nil
  | succ n ih =>
      rcases List.mem_append.1 h with h | h
      · exact ih h
      · rw [List.mem_singleton.1 h]
        exact Nat.mod_lt v hb

/-! ## Reading -/

/-- The digits at the front of a text. -/
def scan (digit : α → Option Nat) : List α → List Nat
  | [] => []
  | c :: s =>
      match digit c with
      | some d => d :: scan digit s
      | none => []

theorem scan_cons_some {digit : α → Option Nat} {c : α} {d : Nat} (h : digit c = some d)
    (s : List α) : scan digit (c :: s) = d :: scan digit s := by
  rw [scan, h]

theorem scan_cons_none {digit : α → Option Nat} {c : α} (h : digit c = none) (s : List α) :
    scan digit (c :: s) = [] := by
  rw [scan, h]

theorem mem_scan {digit : α → Option Nat} {d : Nat} {s : List α} (h : d ∈ scan digit s) :
    ∃ c ∈ s, digit c = some d := by
  induction s with
  | nil => exact absurd h List.not_mem_nil
  | cons c s ih =>
      cases hc : digit c with
      | none =>
          rw [scan_cons_none hc] at h
          exact absurd h List.not_mem_nil
      | some e =>
          rw [scan_cons_some hc] at h
          rcases List.mem_cons.1 h with rfl | hrest
          · exact ⟨c, List.mem_cons_self, hc⟩
          · obtain ⟨c', hmem, hd⟩ := ih hrest
            exact ⟨c', List.mem_cons_of_mem c hmem, hd⟩

/-- Digits that have been written are read back up to the first other character. -/
theorem scan_map {digit : α → Option Nat} {char : Nat → α} {ds : List Nat}
    (hchar : ∀ d ∈ ds, digit (char d) = some d) {c : α} (hc : digit c = none) (s : List α) :
    scan digit (ds.map char ++ c :: s) = ds := by
  induction ds with
  | nil => exact scan_cons_none hc s
  | cons d ds ih =>
      rw [List.map_cons, List.cons_append, scan_cons_some (hchar d List.mem_cons_self),
        ih fun e he => hchar e (List.mem_cons_of_mem d he)]

/-- What stands behind the digits is not one. -/
theorem digit_after_scan {digit : α → Option Nat} {c : α} {s : List α}
    (h : s[(scan digit s).length]? = some c) : digit c = none := by
  induction s with
  | nil => cases h
  | cons a s ih =>
      cases ha : digit a with
      | none =>
          rw [scan_cons_none ha] at h
          cases h
          exact ha
      | some d =>
          rw [scan_cons_some ha, List.length_cons, List.getElem?_cons_succ] at h
          exact ih h

/-- A reader that knows more digits goes on where another one stops. -/
theorem scan_of_le {small large : α → Option Nat}
    (hle : ∀ c d, small c = some d → large c = some d) (s : List α) :
    scan large s = scan small s ++ scan large (s.drop (scan small s).length) := by
  induction s with
  | nil => rfl
  | cons c s ih =>
      cases hc : small c with
      | none => rw [scan_cons_none hc, List.nil_append, List.length_nil, List.drop_zero]
      | some d =>
          rw [scan_cons_some hc, scan_cons_some (hle c d hc), List.length_cons,
            List.drop_succ_cons, List.cons_append, ← ih]

/-! ## Saturation -/

/-- `r * b + d`, or the largest value of the register. -/
def accumulate (max b r d : Nat) : Nat :=
  if r > max / b ∨ r * b > max - d then max else r * b + d

variable {max d : Nat}

theorem accumulate_min (hb : 1 < b) (hd : d ≤ max) (hmax : 0 < max) (v : Nat) :
    accumulate max b (min max v) d = min max (v * b + d) := by
  have hdiv : max / b < max := Nat.div_lt_self hmax hb
  unfold accumulate
  by_cases hv : max ≤ v
  · have hle : max ≤ v * b + d := by
      calc max ≤ v := hv
        _ ≤ v * b := Nat.le_mul_of_pos_right v (by omega)
        _ ≤ v * b + d := Nat.le_add_right _ _
    rw [Nat.min_eq_left hv, Nat.min_eq_left hle, if_pos (Or.inl hdiv)]
  · rw [Nat.min_eq_right (by omega)]
    by_cases hover : v > max / b ∨ v * b > max - d
    · have hle : max ≤ v * b + d := by
        rcases hover with hover | hover
        · have hmul : max < v * b := (Nat.div_lt_iff_lt_mul (by omega)).1 hover
          omega
        · omega
      rw [if_pos hover, Nat.min_eq_left hle]
    · have hfits : v * b ≤ max - d := Nat.le_of_not_lt fun h => hover (Or.inr h)
      rw [if_neg hover, Nat.min_eq_right (by omega)]

/-- The register ends at the value of the numeral, or at its largest value. -/
theorem foldl_accumulate (hb : 1 < b) (hmax : 0 < max) {ds : List Nat}
    (hds : ∀ d ∈ ds, d ≤ max) : ds.foldl (accumulate max b) 0 = min max (value b ds) := by
  induction ds using List.reverseRecOn with
  | nil => simp
  | append_singleton ds d ih =>
      have hd : d ≤ max := hds d (by simp)
      have hrest := ih fun e he => hds e (List.mem_append_left _ he)
      rw [List.foldl_append, hrest, List.foldl_cons, List.foldl_nil, value_snoc]
      exact accumulate_min hb hd hmax _

end StakOS.Lib.Numeral
