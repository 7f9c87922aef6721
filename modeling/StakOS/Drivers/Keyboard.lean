import Mathlib.Logic.Relation
import StakOS.Lib.Ring

/-!
# The keyboard queue

`drivers/keyboard.c`: the interrupt handler translates scancodes and pushes
characters into a ring of 256 cells; `keyboard_getchar` takes them out with
interrupts enabled, so a push can fall between any two of its statements.

One cell is kept empty to tell a full ring from an empty one, and the `uint8_t`
positions wrap at exactly the size of the ring.
-/

namespace StakOS.Drivers.Keyboard

open StakOS.Lib.Ring
open Relation (ReflTransGen)

def keyboardBufSize : Nat := 256

/-- `kb_buf`, `kb_head` and `kb_tail`. -/
structure Ring where
  kbBuf : Nat → UInt8
  kbHead : UInt8
  kbTail : UInt8

/-- The static variables of the driver. -/
structure State where
  ring : Ring
  shift : UInt8

/-! ## The functions of `keyboard.c` -/

def next (i : UInt8) : UInt8 := UInt8.ofNat ((i.toNat + 1) % keyboardBufSize)

def kbBufPush (r : Ring) (c : UInt8) : Ring :=
  if next r.kbHead ≠ r.kbTail then
    { r with kbBuf := Function.update r.kbBuf r.kbHead.toNat c, kbHead := next r.kbHead }
  else r

/-- Scancode set 1, lower case, as ASCII codes. -/
def scAscii : List UInt8 :=
  [0, 0, 49, 50, 51, 52, 53, 54, 55, 56, 57, 48, 45, 61, 8, 9,
    113, 119, 101, 114, 116, 121, 117, 105, 111, 112, 91, 93, 10, 0, 97, 115,
    100, 102, 103, 104, 106, 107, 108, 59, 39, 96, 0, 92, 122, 120, 99, 118,
    98, 110, 109, 44, 46, 47, 0, 42, 0, 32, 0, 0, 0, 0, 0, 0,
    0, 0, 0, 0, 0, 0, 0, 55, 56, 57, 45, 52, 53, 54, 43, 49,
    50, 51, 48, 46, 0, 0, 0, 0]

/-- Scancode set 1, upper case. -/
def scAsciiShift : List UInt8 :=
  [0, 0, 33, 64, 35, 36, 37, 94, 38, 42, 40, 41, 95, 43, 8, 9,
    81, 87, 69, 82, 84, 89, 85, 73, 79, 80, 123, 125, 10, 0, 65, 83,
    68, 70, 71, 72, 74, 75, 76, 58, 34, 126, 0, 124, 90, 88, 67, 86,
    66, 78, 77, 60, 62, 63, 0, 42, 0, 32, 0, 0, 0, 0, 0, 0,
    0, 0, 0, 0, 0, 0, 0, 55, 56, 57, 45, 52, 53, 54, 43, 49,
    50, 51, 48, 46, 0, 0, 0, 0]

/-- `keyboard_handler`, given the byte read from the data port. -/
def keyboardHandler (s : State) (sc : UInt8) : State :=
  if sc &&& 0x80 ≠ 0 then
    let released := sc &&& 0x7F
    if released = 0x2A ∨ released = 0x36 then { s with shift := 0 } else s
  else if sc = 0x2A ∨ sc = 0x36 then { s with shift := 1 }
  else if sc.toNat < scAscii.length then
    let c := if s.shift ≠ 0 then scAsciiShift.getD sc.toNat 0 else scAscii.getD sc.toNat 0
    if c ≠ 0 then { s with ring := kbBufPush s.ring c } else s
  else s

def keyboardGetchar (r : Ring) : Ring × UInt8 :=
  if r.kbHead = r.kbTail then (r, 0)
  else ({ r with kbTail := next r.kbTail }, r.kbBuf r.kbTail.toNat)

/-- The handler touches the ring only to push a character other than 0. -/
theorem keyboardHandler_ring (s : State) (sc : UInt8) :
    (keyboardHandler s sc).ring = s.ring ∨
      ∃ c, c ≠ 0 ∧ (keyboardHandler s sc).ring = kbBufPush s.ring c := by
  unfold keyboardHandler
  by_cases hrelease : sc &&& 0x80 ≠ 0
  · rw [if_pos hrelease]
    left
    simp only
    split
    · rfl
    · rfl
  · rw [if_neg hrelease]
    by_cases hshift : sc = 0x2A ∨ sc = 0x36
    · rw [if_pos hshift]
      exact Or.inl rfl
    · rw [if_neg hshift]
      by_cases htable : sc.toNat < scAscii.length
      · rw [if_pos htable]
        simp only
        generalize (if s.shift ≠ 0 then scAsciiShift.getD sc.toNat 0
          else scAscii.getD sc.toNat 0) = c
        by_cases hc : c ≠ 0
        · rw [if_pos hc]
          exact Or.inr ⟨c, hc, rfl⟩
        · rw [if_neg hc]
          exact Or.inl rfl
      · rw [if_neg htable]
        exact Or.inl rfl

/-! ## The ring as a queue -/

/-- How many characters are held. -/
def Ring.count (r : Ring) : Nat := (r.kbHead - r.kbTail).toNat

/-- The characters held, from `kb_tail` to `kb_head`. -/
def Ring.held (r : Ring) : List UInt8 := window keyboardBufSize r.kbBuf r.kbTail.toNat r.count

theorem length_held (r : Ring) : r.held.length = r.count := length_window _ _ _ _

theorem next_toNat (i : UInt8) : (next i).toNat = (i.toNat + 1) % 256 := by
  unfold next keyboardBufSize
  rw [UInt8.toNat_ofNat']
  omega

theorem count_eq (r : Ring) :
    r.count = (256 - r.kbTail.toNat + r.kbHead.toNat) % 256 := by
  unfold Ring.count
  rw [UInt8.toNat_sub]

theorem head_eq (r : Ring) : r.kbHead.toNat = (r.kbTail.toNat + r.count) % 256 := by
  have hhead := r.kbHead.toNat_lt
  have htail := r.kbTail.toNat_lt
  rw [count_eq]
  omega

theorem empty_iff (r : Ring) : r.kbHead = r.kbTail ↔ r.count = 0 := by
  have hhead := r.kbHead.toNat_lt
  have htail := r.kbTail.toNat_lt
  rw [← UInt8.toNat_inj, count_eq]
  omega

theorem full_iff (r : Ring) : next r.kbHead = r.kbTail ↔ r.count = 255 := by
  have hhead := r.kbHead.toNat_lt
  have htail := r.kbTail.toNat_lt
  rw [← UInt8.toNat_inj, next_toNat, count_eq]
  omega

theorem count_lt (r : Ring) : r.count < 256 := UInt8.toNat_lt _

/-- A push is dropped exactly when 255 characters are held. -/
theorem held_kbBufPush (r : Ring) (c : UInt8) :
    (kbBufPush r c).held = if r.count = 255 then r.held else r.held ++ [c] := by
  unfold kbBufPush
  by_cases hfull : r.count = 255
  · rw [if_neg (not_not.mpr ((full_iff r).mpr hfull)), if_pos hfull]
  · rw [if_pos fun heq => hfull ((full_iff r).mp heq), if_neg hfull]
    have hlt := count_lt r
    have hcount : Ring.count { r with
        kbBuf := Function.update r.kbBuf r.kbHead.toNat c, kbHead := next r.kbHead } =
          r.count + 1 := by
      have hhead := r.kbHead.toNat_lt
      have htail := r.kbTail.toNat_lt
      show (next r.kbHead - r.kbTail).toNat = r.count + 1
      rw [count_eq] at hfull hlt ⊢
      rw [UInt8.toNat_sub, next_toNat]
      omega
    unfold Ring.held
    rw [hcount]
    simp only
    rw [head_eq r]
    exact window_push r.kbBuf c (by unfold keyboardBufSize; omega)

/-- Moving `kb_tail` takes the front character. -/
theorem held_advance (r : Ring) (hne : r.count ≠ 0) :
    r.held = r.kbBuf r.kbTail.toNat :: Ring.held { r with kbTail := next r.kbTail } := by
  have hhead := r.kbHead.toNat_lt
  have htail := r.kbTail.toNat_lt
  have hcount : r.count = Ring.count { r with kbTail := next r.kbTail } + 1 := by
    show r.count = (r.kbHead - next r.kbTail).toNat + 1
    rw [count_eq] at hne ⊢
    rw [UInt8.toNat_sub, next_toNat]
    omega
  unfold Ring.held
  rw [hcount, window, next_toNat]
  simp only
  unfold keyboardBufSize
  rw [Nat.mod_eq_of_lt htail, window_mod]

/-! ## Interleavings -/

/-- The next statement of the process that reads the keyboard. -/
inductive Pc where
  /-- Outside `keyboard_getchar`. -/
  | idle
  /-- `if (kb_head == kb_tail)` -/
  | test
  /-- `return 0` -/
  | retZero
  /-- `char c = kb_buf[kb_tail]` -/
  | load
  /-- `kb_tail = (kb_tail + 1) % KEYBOARD_BUF_SIZE` -/
  | advance (c : UInt8)
  /-- `return c` -/
  | ret (c : UInt8)
deriving DecidableEq

/-- The ring, the reader's position, and a record of what happened: the results
of the calls, the characters that pushes stored, and what the ring held when the
latest call tested it. -/
structure Sys where
  ring : Ring
  pc : Pc
  returned : List UInt8
  accepted : List UInt8
  tested : List UInt8

def start : Sys := ⟨⟨fun _ => 0, 0, 0⟩, .idle, [], [], []⟩

/-- Execute one statement of the reader. -/
def getcharStep (s : Sys) : Sys :=
  match s.pc with
  | .idle => { s with pc := .test }
  | .test =>
      { s with
        pc := if s.ring.kbHead = s.ring.kbTail then .retZero else .load
        tested := s.ring.held }
  | .retZero => { s with pc := .idle, returned := s.returned ++ [0] }
  | .load => { s with pc := .advance (s.ring.kbBuf s.ring.kbTail.toNat) }
  | .advance c => { s with pc := .ret c, ring := { s.ring with kbTail := next s.ring.kbTail } }
  | .ret c => { s with pc := .idle, returned := s.returned ++ [c] }

/-- The interrupt handler pushes a character. -/
def push (s : Sys) (c : UInt8) : Sys :=
  { s with
    ring := kbBufPush s.ring c
    accepted := if next s.ring.kbHead ≠ s.ring.kbTail then s.accepted ++ [c] else s.accepted }

/-- A statement of the reader, or an interrupt before it.  The handler pushes no
character 0 (`keyboardHandler_ring`). -/
inductive Event : Sys → Sys → Prop
  | statement (s : Sys) : Event s (getcharStep s)
  | irq (s : Sys) (c : UInt8) (hc : c ≠ 0) : Event s (push s c)

/-- Left alone, the statements of a call compute `keyboard_getchar`. -/
theorem getchar_statements (s : Sys) (hidle : s.pc = .idle) :
    ∃ n, getcharStep^[n] s = { s with
      ring := (keyboardGetchar s.ring).1
      returned := s.returned ++ [(keyboardGetchar s.ring).2]
      tested := s.ring.held } := by
  obtain ⟨ring, pc, returned, accepted, tested⟩ := s
  cases hidle
  unfold keyboardGetchar
  by_cases hempty : ring.kbHead = ring.kbTail
  · refine ⟨3, ?_⟩
    simp only [Function.iterate_succ, Function.iterate_zero, Function.comp_apply, id_eq,
      getcharStep, hempty, if_true]
  · refine ⟨5, ?_⟩
    simp only [Function.iterate_succ, Function.iterate_zero, Function.comp_apply, id_eq,
      getcharStep, hempty, if_false]

/-! ## First in, first out -/

/-- The character a call has taken from the ring and not returned yet. -/
def Pc.inFlight : Pc → List UInt8
  | .ret c => [c]
  | _ => []

/-- What the reader relies on at its next statement. -/
def Expects (s : Sys) : Prop :=
  match s.pc with
  | .idle | .test | .ret _ => True
  | .retZero => s.tested = []
  | .load => s.ring.held ≠ []
  | .advance c => ∃ rest, s.ring.held = c :: rest

/-- The invariant of the interleaving. -/
structure Fifo (s : Sys) : Prop where
  order : s.returned.filter (· ≠ 0) ++ s.pc.inFlight ++ s.ring.held = s.accepted
  nonzero : ∀ c ∈ s.accepted, c ≠ 0
  expects : Expects s

theorem fifo_start : Fifo start where
  order := rfl
  nonzero := by simp [start]
  expects := trivial

theorem held_eq_nil (r : Ring) : r.held = [] ↔ r.kbHead = r.kbTail := by
  rw [empty_iff, ← length_held, List.length_eq_zero_iff]

/-- A push adds the character behind those held, or nothing at all. -/
theorem push_cases (s : Sys) (c : UInt8) :
    (s.ring.count ≠ 255 ∧ (push s c).ring.held = s.ring.held ++ [c] ∧
      (push s c).accepted = s.accepted ++ [c]) ∨
    (s.ring.count = 255 ∧ (push s c).ring.held = s.ring.held ∧
      (push s c).accepted = s.accepted) := by
  have hheld := held_kbBufPush s.ring c
  by_cases hfull : s.ring.count = 255
  · right
    rw [if_pos hfull] at hheld
    exact ⟨hfull, hheld, if_neg (not_not.mpr ((full_iff s.ring).mpr hfull))⟩
  · left
    rw [if_neg hfull] at hheld
    exact ⟨hfull, hheld, if_pos fun heq => hfull ((full_iff s.ring).mp heq)⟩

/-- What the reader relies on survives characters arriving behind. -/
theorem Expects.append {s s' : Sys} (h : Expects s) (hpc : s'.pc = s.pc)
    (htested : s'.tested = s.tested) (more : List UInt8)
    (hheld : s'.ring.held = s.ring.held ++ more) : Expects s' := by
  unfold Expects at *
  rw [hpc, htested, hheld]
  cases hcase : s.pc with
  | idle => trivial
  | test => trivial
  | ret c => trivial
  | retZero =>
      rw [hcase] at h
      exact h
  | load =>
      rw [hcase] at h
      exact List.append_ne_nil_of_left_ne_nil h more
  | advance c =>
      rw [hcase] at h
      obtain ⟨rest, hrest⟩ := h
      exact ⟨rest ++ more, by rw [hrest, List.cons_append]⟩

theorem Fifo.push {s : Sys} (h : Fifo s) {c : UInt8} (hc : c ≠ 0) :
    Fifo (Keyboard.push s c) := by
  rcases push_cases s c with ⟨-, hheld, hacc⟩ | ⟨-, hheld, hacc⟩
  · constructor
    · rw [hheld, hacc, ← h.order]
      simp only [List.append_assoc]
      rfl
    · intro d hd
      rw [hacc, List.mem_append, List.mem_singleton] at hd
      rcases hd with hold | hnew
      · exact h.nonzero d hold
      · rw [hnew]
        exact hc
    · exact h.expects.append rfl rfl _ hheld
  · constructor
    · rw [hheld, hacc]
      exact h.order
    · rw [hacc]
      exact h.nonzero
    · exact h.expects.append rfl rfl [] (by rw [hheld, List.append_nil])

/-- A character on its way out was accepted once. -/
theorem Fifo.ret_ne_zero {s : Sys} (h : Fifo s) {c : UInt8} (hpc : s.pc = .ret c) : c ≠ 0 := by
  apply h.nonzero
  rw [← h.order, hpc]
  simp [Pc.inFlight]

theorem Fifo.statement {s : Sys} (h : Fifo s) : Fifo (getcharStep s) := by
  obtain ⟨ring, pc, returned, accepted, tested⟩ := s
  have horder : returned.filter (· ≠ 0) ++ pc.inFlight ++ ring.held = accepted := h.order
  cases pc with
  | idle => exact ⟨horder, h.nonzero, trivial⟩
  | test =>
      by_cases hempty : ring.kbHead = ring.kbTail
      · refine ⟨?_, h.nonzero, ?_⟩
        · simpa only [getcharStep, hempty, if_true, Pc.inFlight] using horder
        · simp only [Expects, getcharStep, hempty, if_true]
          exact (held_eq_nil ring).mpr hempty
      · refine ⟨?_, h.nonzero, ?_⟩
        · simpa only [getcharStep, hempty, if_false, Pc.inFlight] using horder
        · simp only [Expects, getcharStep, hempty, if_false]
          exact fun hnil => hempty ((held_eq_nil ring).mp hnil)
  | retZero =>
      refine ⟨?_, h.nonzero, trivial⟩
      simp only [getcharStep]
      rw [← horder]
      simp [Pc.inFlight]
  | load =>
      have hne : ring.held ≠ [] := h.expects
      have hcount : ring.count ≠ 0 := by
        rw [← length_held]
        exact fun hzero => hne (List.length_eq_zero_iff.mp hzero)
      exact ⟨horder, h.nonzero, ⟨_, held_advance ring hcount⟩⟩
  | advance c =>
      obtain ⟨rest, hrest⟩ : ∃ rest, ring.held = c :: rest := h.expects
      have hcount : ring.count ≠ 0 := by
        rw [← length_held, hrest]
        exact Nat.succ_ne_zero _
      have hfront := held_advance ring hcount
      rw [hrest, List.cons.injEq] at hfront
      refine ⟨?_, h.nonzero, trivial⟩
      simp only [getcharStep]
      rw [← hfront.2, ← horder, hrest]
      simp [Pc.inFlight]
  | ret c =>
      have hc := h.ret_ne_zero rfl
      refine ⟨?_, h.nonzero, trivial⟩
      simp only [getcharStep]
      rw [← horder]
      simp [Pc.inFlight, hc]

theorem fifo_of_run {s : Sys} (hrun : ReflTransGen Event start s) : Fifo s := by
  induction hrun with
  | refl => exact fifo_start
  | tail _ hevent ih =>
      cases hevent with
      | statement => exact ih.statement
      | irq c hc => exact ih.push hc

/-- A call that returns 0 found the ring empty when it tested it. -/
theorem Fifo.returns_zero {s : Sys} (h : Fifo s)
    (hret : (getcharStep s).returned = s.returned ++ [0]) : s.tested = [] := by
  obtain ⟨ring, pc, returned, accepted, tested⟩ := s
  cases pc with
  | idle => exact absurd hret (by simp [getcharStep])
  | test => exact absurd hret (by simp [getcharStep])
  | load => exact absurd hret (by simp [getcharStep])
  | advance c => exact absurd hret (by simp [getcharStep])
  | retZero => exact h.expects
  | ret c =>
      have hzero : c = 0 := by simpa [getcharStep] using hret
      exact absurd hzero (h.ret_ne_zero rfl)

/-- **The keyboard queue is a lossless FIFO** up to its capacity, whatever the
interleaving: the characters returned, the one being returned, and the ones held
are those that were accepted, in order; a push is dropped only when 255 are held;
and a result of 0 means that the ring was empty at the test. -/
theorem keyboard_fifo {s : Sys} (hrun : ReflTransGen Event start s) :
    s.returned.filter (· ≠ 0) ++ s.pc.inFlight ++ s.ring.held = s.accepted ∧
    (∀ c, (push s c).accepted ≠ s.accepted ++ [c] → s.ring.held.length = 255) ∧
    ((getcharStep s).returned = s.returned ++ [0] → s.tested = []) := by
  have h := fifo_of_run hrun
  refine ⟨h.order, fun c hdrop => ?_, h.returns_zero⟩
  rcases push_cases s c with ⟨-, -, hacc⟩ | ⟨hfull, -, -⟩
  · exact absurd hacc hdrop
  · rw [length_held]
    exact hfull

/-- One key pressed, and the five statements of the call that returns it. -/
theorem keyboard_fifo_key :
    let s := getcharStep (getcharStep (getcharStep (getcharStep (getcharStep (push start 97)))))
    s.returned = [97] ∧
      s.returned.filter (· ≠ 0) ++ s.pc.inFlight ++ s.ring.held = s.accepted := by
  have hkey := ReflTransGen.single (Event.irq start 97 (by decide))
  have htested := (hkey.tail (.statement _)).tail (.statement _)
  have hreturned := ((htested.tail (.statement _)).tail (.statement _)).tail (.statement _)
  exact ⟨by decide, (keyboard_fifo hreturned).1⟩

end StakOS.Drivers.Keyboard
