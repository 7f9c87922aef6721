import Mathlib.Data.Nat.Bitwise
import Mathlib.Logic.Function.Basic
import Mathlib.Tactic.NormNum

/-!
# Byte memory with little-endian words

A memory is a total map from byte addresses to bytes.  Words of 16, 32 and 64
bits are read and written least-significant byte first.  Programs see words as
natural numbers; the width is a bound, not a type, so that address arithmetic
stays in `Nat`.
-/

namespace StakOS.Lib.Memory

/-- A byte-addressed memory. -/
abbrev Mem := Nat → UInt8

/-- Addition of 32-bit words. -/
def add32 (a b : Nat) : Nat := (a + b) % 2 ^ 32

/-- Subtraction of 32-bit words. -/
def sub32 (a b : Nat) : Nat := (a + (2 ^ 32 - b % 2 ^ 32)) % 2 ^ 32

theorem add32_of_lt {a b : Nat} (h : a + b < 2 ^ 32) : add32 a b = a + b :=
  Nat.mod_eq_of_lt h

theorem add32_lt (a b : Nat) : add32 a b < 2 ^ 32 :=
  Nat.mod_lt _ (by norm_num)

theorem sub32_of_le {a b : Nat} (hba : b ≤ a) (ha : a < 2 ^ 32) :
    sub32 a b = a - b := by
  unfold sub32
  have hb : b % 2 ^ 32 = b := Nat.mod_eq_of_lt (by omega)
  rw [hb]
  omega

/-- A decrement wraps around at 0. -/
theorem sub32_one_lt_iff {a n : Nat} (ha : a < n) (hn : n < 2 ^ 32) : sub32 a 1 < n ↔ 0 < a := by
  unfold sub32
  omega

/-- Byte `i` of a word, least significant first. -/
def byteOf (w i : Nat) : UInt8 := UInt8.ofNat (w / 256 ^ i % 256)

def read16 (m : Mem) (a : Nat) : Nat :=
  (m a).toNat + 256 * (m (a + 1)).toNat

def read32 (m : Mem) (a : Nat) : Nat :=
  (m a).toNat + 256 * (m (a + 1)).toNat + 65536 * (m (a + 2)).toNat +
    16777216 * (m (a + 3)).toNat

def read64 (m : Mem) (a : Nat) : Nat :=
  read32 m a + 2 ^ 32 * read32 m (a + 4)

def write8 (m : Mem) (a : Nat) (b : UInt8) : Mem :=
  Function.update m a b

def write32 (m : Mem) (a w : Nat) : Mem := fun x =>
  if a ≤ x ∧ x < a + 4 then byteOf w (x - a) else m x

theorem write8_of_ne (m : Mem) {a x : Nat} (v : UInt8) (h : x ≠ a) : write8 m a v x = m x := by
  unfold write8
  rw [Function.update_of_ne h]

theorem read32_lt (m : Mem) (a : Nat) : read32 m a < 2 ^ 32 := by
  have h0 := (m a).toNat_lt
  have h1 := (m (a + 1)).toNat_lt
  have h2 := (m (a + 2)).toNat_lt
  have h3 := (m (a + 3)).toNat_lt
  unfold read32
  omega

/-- A word read depends on its four bytes only. -/
theorem read32_congr {m m' : Mem} {a : Nat}
    (h : ∀ x, a ≤ x → x < a + 4 → m' x = m x) : read32 m' a = read32 m a := by
  unfold read32
  rw [h a (by omega) (by omega), h (a + 1) (by omega) (by omega),
    h (a + 2) (by omega) (by omega), h (a + 3) (by omega) (by omega)]

theorem write32_of_disjoint (m : Mem) {a x : Nat} (w : Nat)
    (h : x < a ∨ a + 4 ≤ x) : write32 m a w x = m x := by
  unfold write32
  rw [if_neg (by omega)]

@[simp] theorem read32_write32_same (m : Mem) (a : Nat) {w : Nat}
    (hw : w < 2 ^ 32) : read32 (write32 m a w) a = w := by
  unfold read32 write32
  rw [if_pos (by omega), if_pos (by omega), if_pos (by omega), if_pos (by omega)]
  have h0 : a - a = 0 := by omega
  have h1 : a + 1 - a = 1 := by omega
  have h2 : a + 2 - a = 2 := by omega
  have h3 : a + 3 - a = 3 := by omega
  rw [h0, h1, h2, h3]
  simp only [byteOf, UInt8.toNat_ofNat']
  norm_num
  omega

theorem read32_write32_of_disjoint (m : Mem) {a b : Nat} (w : Nat)
    (h : a + 4 ≤ b ∨ b + 4 ≤ a) : read32 (write32 m b w) a = read32 m a := by
  apply read32_congr
  intro x hx hx'
  exact write32_of_disjoint m w (by omega)

/-! ## Consecutive words

`writeWords m base f n` is the loop `for (i = 0; i < n; i++) base[i] = f(i)` over
an array of words.
-/

def writeWords (m : Mem) (base : Nat) (f : Nat → Nat) : Nat → Mem
  | 0 => m
  | n + 1 => write32 (writeWords m base f n) (base + 4 * n) (f n)

theorem writeWords_of_disjoint (m : Mem) {base x : Nat} (f : Nat → Nat) (n : Nat)
    (h : x < base ∨ base + 4 * n ≤ x) : writeWords m base f n x = m x := by
  induction n with
  | zero => rfl
  | succ n ih =>
      rw [writeWords, write32_of_disjoint _ _ (by omega)]
      exact ih (by omega)

theorem read32_writeWords (m : Mem) (base : Nat) {f : Nat → Nat} {n i : Nat}
    (hf : f i < 2 ^ 32) (hi : i < n) :
    read32 (writeWords m base f n) (base + 4 * i) = f i := by
  induction n with
  | zero => omega
  | succ n ih =>
      rw [writeWords]
      by_cases hin : i = n
      · subst hin
        exact read32_write32_same _ _ hf
      · rw [read32_write32_of_disjoint _ _ (by omega)]
        exact ih (by omega)

/-! ## Consecutive bytes -/

/-- The loop `for (j = 0; j < n; j++) base[j] = f(j)` over bytes. -/
def writeBytes (m : Mem) (base : Nat) (f : Nat → UInt8) : Nat → Mem
  | 0 => m
  | n + 1 => write8 (writeBytes m base f n) (base + n) (f n)

theorem writeBytes_of_disjoint (m : Mem) {base x : Nat} (f : Nat → UInt8) (n : Nat)
    (h : x < base ∨ base + n ≤ x) : writeBytes m base f n x = m x := by
  induction n with
  | zero => rfl
  | succ n ih =>
      rw [writeBytes, write8_of_ne _ _ (by omega)]
      exact ih (by omega)

theorem writeBytes_of_lt (m : Mem) (base : Nat) (f : Nat → UInt8) {n i : Nat} (hi : i < n) :
    writeBytes m base f n (base + i) = f i := by
  induction n with
  | zero => omega
  | succ n ih =>
      rw [writeBytes]
      by_cases hin : i = n
      · subst hin
        exact Function.update_self _ _ _
      · rw [write8_of_ne _ _ (by omega)]
        exact ih (by omega)

theorem writeBytes_congr (m : Mem) (base : Nat) {f g : Nat → UInt8} {n : Nat}
    (h : ∀ j, j < n → f j = g j) : writeBytes m base f n = writeBytes m base g n := by
  induction n with
  | zero => rfl
  | succ n ih =>
      rw [writeBytes, writeBytes, h n (Nat.lt_succ_self n),
        ih fun j hj => h j (Nat.lt_succ_of_lt hj)]

/-- The loop `for (b = 0; b < n; b++) dst[b] = src[b]` over bytes. -/
def copyBytes (m : Mem) (dst src : Nat) : Nat → Mem
  | 0 => m
  | n + 1 => write8 (copyBytes m dst src n) (dst + n) (copyBytes m dst src n (src + n))

theorem copyBytes_of_disjoint (m : Mem) {dst src x : Nat} (n : Nat)
    (h : x < dst ∨ dst + n ≤ x) : copyBytes m dst src n x = m x := by
  induction n with
  | zero => rfl
  | succ n ih =>
      rw [copyBytes, write8_of_ne _ _ (by omega)]
      exact ih (by omega)

/-- A copy to a place apart from its source. -/
theorem copyBytes_of_lt (m : Mem) {dst src n i : Nat} (h : src + n ≤ dst ∨ dst + n ≤ src)
    (hi : i < n) : copyBytes m dst src n (dst + i) = m (src + i) := by
  induction n with
  | zero => omega
  | succ n ih =>
      rw [copyBytes]
      by_cases hin : i = n
      · subst hin
        unfold write8
        rw [Function.update_self]
        exact copyBytes_of_disjoint m i (by omega)
      · rw [write8_of_ne _ _ (by omega)]
        exact ih (by omega) (by omega)

/-! ## Ranges of bytes -/

/-- The `n` bytes from `a` on. -/
def bytesAt (m : Mem) (a n : Nat) : List UInt8 := (List.range n).map fun i => m (a + i)

theorem bytesAt_congr {m m' : Mem} {a a' n : Nat} (h : ∀ i, i < n → m (a + i) = m' (a' + i)) :
    bytesAt m a n = bytesAt m' a' n :=
  List.map_congr_left fun i hi => h i (List.mem_range.mp hi)

theorem bytesAt_eq_replicate {m : Mem} {a n : Nat} {b : UInt8} (h : ∀ i, i < n → m (a + i) = b) :
    bytesAt m a n = List.replicate n b := by
  rw [List.eq_replicate_iff]
  refine ⟨by rw [bytesAt, List.length_map, List.length_range], fun x hx => ?_⟩
  obtain ⟨i, hi, rfl⟩ := List.mem_map.mp hx
  exact h i (List.mem_range.mp hi)

theorem bytesAt_add (m : Mem) (a n k : Nat) :
    bytesAt m a (n + k) = bytesAt m a n ++ bytesAt m (a + n) k := by
  unfold bytesAt
  rw [List.range_add, List.map_append, List.map_map]
  simp only [Function.comp_def, Nat.add_assoc]

/-- Consecutive ranges of one size put together. -/
theorem flatMap_bytesAt (m : Mem) (a size n : Nat) :
    (List.range n).flatMap (fun i => bytesAt m (a + i * size) size) = bytesAt m a (n * size) := by
  induction n with
  | zero =>
      rw [Nat.zero_mul]
      rfl
  | succ n ih =>
      rw [List.range_succ, List.flatMap_append, ih, List.flatMap_singleton, Nat.add_one_mul,
        bytesAt_add]

/-! ## Words on a stack -/

/-- The words `ws` stand in memory from `a` upwards. -/
def Words (m : Mem) : Nat → List Nat → Prop
  | _, [] => True
  | a, w :: ws => read32 m a = w ∧ Words m (a + 4) ws

theorem words_cons {m : Mem} {a w : Nat} {ws : List Nat} :
    Words m a (w :: ws) ↔ read32 m a = w ∧ Words m (a + 4) ws := Iff.rfl

theorem words_append {m : Mem} {a : Nat} {ws vs : List Nat} :
    Words m a (ws ++ vs) ↔ Words m a ws ∧ Words m (a + 4 * ws.length) vs := by
  induction ws generalizing a with
  | nil => simp [Words]
  | cons w ws ih =>
      rw [List.cons_append, words_cons, words_cons, ih, List.length_cons, and_assoc]
      have haddr : a + 4 + 4 * ws.length = a + 4 * (ws.length + 1) := by omega
      rw [haddr]

/-- Words depend on their own bytes. -/
theorem Words.congr {m m' : Mem} {a : Nat} {ws : List Nat} (h : Words m a ws)
    (hsame : ∀ x, a ≤ x → x < a + 4 * ws.length → m' x = m x) : Words m' a ws := by
  induction ws generalizing a with
  | nil => trivial
  | cons w ws ih =>
      rw [List.length_cons] at hsame
      refine ⟨?_, ih h.2 fun x hx hx' => hsame x (by omega) (by omega)⟩
      rw [read32_congr fun x hx hx' => hsame x hx (by omega)]
      exact h.1

/-- A word of the list is read at its place. -/
theorem Words.get {m : Mem} {a : Nat} {ws : List Nat} (h : Words m a ws) {i w : Nat}
    (hi : ws[i]? = some w) : read32 m (a + 4 * i) = w := by
  induction ws generalizing a i with
  | nil => simp at hi
  | cons v ws ih =>
      cases i with
      | zero =>
          rw [← Option.some.inj hi]
          exact h.1
      | succ i =>
          have haddr : a + 4 * (i + 1) = a + 4 + 4 * i := by omega
          rw [haddr]
          exact ih h.2 hi

/-- The words are pushed one after the other below `a`. -/
def pushed (m : Mem) (a : Nat) : List Nat → Mem
  | [] => m
  | w :: ws => pushed (write32 m (a - 4) w) (a - 4) ws

theorem pushed_of_disjoint (m : Mem) {a x : Nat} {ws : List Nat} (hroom : 4 * ws.length ≤ a)
    (h : x < a - 4 * ws.length ∨ a ≤ x) : pushed m a ws x = m x := by
  induction ws generalizing m a with
  | nil => rfl
  | cons w ws ih =>
      rw [List.length_cons] at h hroom
      rw [pushed, ih _ (by omega) (by omega)]
      exact write32_of_disjoint m w (by omega)

theorem pushed_append (m : Mem) (a : Nat) (ws vs : List Nat) :
    pushed m a (ws ++ vs) = pushed (pushed m a ws) (a - 4 * ws.length) vs := by
  induction ws generalizing m a with
  | nil => rfl
  | cons w ws ih =>
      have haddr : a - 4 - 4 * ws.length = a - 4 * (w :: ws).length := by
        rw [List.length_cons]
        omega
      rw [List.cons_append, pushed, pushed, ih, haddr]

/-- What has been pushed is read from the top of the stack, last word first. -/
theorem words_pushed (m : Mem) {a : Nat} {ws : List Nat} (hwords : ∀ w ∈ ws, w < 2 ^ 32)
    (hroom : 4 * ws.length ≤ a) : Words (pushed m a ws) (a - 4 * ws.length) ws.reverse := by
  induction ws generalizing m a with
  | nil => trivial
  | cons w ws ih =>
      rw [List.length_cons] at hroom ⊢
      have haddr : a - 4 - 4 * ws.length = a - 4 * (ws.length + 1) := by omega
      have hrest := ih (write32 m (a - 4) w) (fun v hv => hwords v (List.mem_cons_of_mem w hv))
        (a := a - 4) (by omega)
      rw [haddr] at hrest
      rw [pushed, List.reverse_cons, words_append]
      refine ⟨hrest, ?_, trivial⟩
      have hlast : a - 4 * (ws.length + 1) + 4 * ws.reverse.length = a - 4 := by
        rw [List.length_reverse]
        omega
      -- the pushes that follow stay below the first word
      rw [hlast, read32_congr fun x hx _ => pushed_of_disjoint _ (by omega) (Or.inr hx)]
      exact read32_write32_same _ _ (hwords w List.mem_cons_self)

end StakOS.Lib.Memory
