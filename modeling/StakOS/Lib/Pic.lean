import Mathlib.Data.Fin.Basic
import Mathlib.Data.List.FinRange
import Mathlib.Logic.Function.Basic

/-!
# A pair of 8259A interrupt controllers

Each chip latches the requests of eight lines, holds back the masked ones and those that are
not more urgent than a line in service, and answers the processor's two acknowledge pulses
with a vector.  The second chip's output is wired to a line of the first.

Command and data writes are those of the edge-triggered, fully nested mode with
non-specific ends of interrupt; a write outside of it has no meaning here.
-/

namespace StakOS.Lib.Pic

/-- What a chip takes the next data write for. -/
inductive Stage where
  | icw2 | icw3 | icw4 | ready
deriving DecidableEq

structure Chip where
  irr : Fin 8 → Bool
  isr : Fin 8 → Bool
  imr : BitVec 8
  base : Nat
  icw3 : BitVec 8
  icw4 : BitVec 8
  single : Bool
  needs4 : Bool
  stage : Stage

/-- The line that stands for a request that has gone away. -/
def spurious : Fin 8 := 7

namespace Chip

variable (c : Chip)

/-- A line may interrupt when it is requested, not masked, and nothing as urgent is in
service. -/
def eligible (n : Fin 8) : Bool :=
  c.irr n && !c.imr.getLsbD n && (List.finRange 8).all fun m => !(decide (m ≤ n) && c.isr m)

/-- The most urgent line that may interrupt. -/
def request : Option (Fin 8) := (List.finRange 8).find? c.eligible

/-- The line `n` is taken into service, unless the chip ends interrupts by itself. -/
def accept (n : Fin 8) : Chip :=
  { c with
    irr := Function.update c.irr n false
    isr := if c.icw4.getLsbD 1 then c.isr else Function.update c.isr n true }

/-- An acknowledge pulse.  The line of a request that has gone away is not in service. -/
def acknowledge : Chip × Fin 8 :=
  match c.request with
  | some n => (c.accept n, n)
  | none => (c, spurious)

/-- The vector of a line; there is one in 8086 mode only. -/
def vector (n : Fin 8) : Option Nat := if c.icw4.getLsbD 0 then some (c.base + n) else none

/-- Non-specific end of interrupt: the most urgent line in service is done. -/
def eoi : Chip :=
  match (List.finRange 8).find? c.isr with
  | some n => { c with isr := Function.update c.isr n false }
  | none => c

/-- A write to the command port: ICW1 or the end of an interrupt. -/
def writeCmd (v : BitVec 8) : Option Chip :=
  if v.getLsbD 4 then
    if v.getLsbD 3 then none
    else some { c with
      irr := fun _ => false
      isr := fun _ => false
      imr := 0
      icw4 := 0
      single := v.getLsbD 1
      needs4 := v.getLsbD 0
      stage := .icw2 }
  else if v = 0x20 ∧ c.stage = .ready then some c.eoi
  else none

/-- A write to the data port: the next initialisation word, or the mask. -/
def writeData (v : BitVec 8) : Chip :=
  let last := if c.needs4 then Stage.icw4 else .ready
  match c.stage with
  | .icw2 => { c with base := v.toNat / 8 * 8, stage := if c.single then last else .icw3 }
  | .icw3 => { c with icw3 := v, stage := last }
  | .icw4 => { c with icw4 := v, stage := .ready }
  | .ready => { c with imr := v }

/-- No line is in service. -/
def Idle : Prop := ∀ n, c.isr n = false

/-- At most the line `n` is in service. -/
def Serves (n : Fin 8) : Prop := ∀ m, c.isr m = true → m = n

variable {c}

theorem Idle.serves (h : c.Idle) (n : Fin 8) : c.Serves n := fun m hm =>
  absurd hm (by rw [h m]; exact Bool.false_ne_true)

theorem irr_of_request {n : Fin 8} (h : c.request = some n) : c.irr n = true := by
  have helig : c.eligible n = true := List.find?_some h
  unfold eligible at helig
  simp only [Bool.and_eq_true] at helig
  exact helig.1.1

/-- With nothing in service, every requested line that is not masked interrupts. -/
theorem Idle.request_isSome {n : Fin 8} (h : c.Idle) (hirr : c.irr n = true)
    (himr : c.imr.getLsbD n = false) : c.request.isSome = true := by
  apply List.find?_isSome.mpr
  refine ⟨n, List.mem_finRange n, ?_⟩
  unfold eligible
  rw [hirr, himr]
  simp [h _]

theorem accept_irr (n m : Fin 8) :
    (c.accept n).irr m = if m = n then false else c.irr m :=
  Function.update_apply ..

theorem Idle.accept {n : Fin 8} (h : c.Idle) : (c.accept n).Serves n := by
  intro m hm
  unfold Chip.accept at hm
  by_contra hne
  by_cases haeoi : c.icw4.getLsbD 1 = true
  · simp only [if_pos haeoi] at hm
    exact hne (h.serves n m hm)
  · simp only [if_neg haeoi, Function.update_of_ne hne] at hm
    exact hne (h.serves n m hm)

theorem Idle.acknowledge (h : c.Idle) : c.acknowledge.1.Serves c.acknowledge.2 := by
  unfold Chip.acknowledge
  cases c.request with
  | some n => exact h.accept
  | none => exact h.serves spurious

/-- A request is answered once: it is given up for the line that is answered. -/
theorem acknowledge_irr {m : Fin 8} (hm : m ≠ spurious) :
    (c.irr m).toNat = (c.acknowledge.1.irr m).toNat + (decide (m = c.acknowledge.2)).toNat := by
  unfold acknowledge
  cases hreq : c.request with
  | none => simp [hm]
  | some n =>
      by_cases hmn : m = n
      · subst hmn
        rw [irr_of_request hreq]
        simp [accept_irr]
      · simp [accept_irr, hmn]

theorem writeCmd_eoi (h : c.stage = .ready) : c.writeCmd 0x20 = some c.eoi := by
  unfold writeCmd
  rw [if_neg (by decide), if_pos ⟨rfl, h⟩]

/-- The end of an interrupt is the end of the only one there can be. -/
theorem Serves.eoi {n : Fin 8} (h : c.Serves n) : c.eoi.Idle := by
  intro m
  unfold Chip.eoi
  cases hfind : (List.finRange 8).find? c.isr with
  | none =>
      have hnone := List.find?_eq_none.mp hfind m (List.mem_finRange m)
      exact Bool.eq_false_iff.mpr hnone
  | some k =>
      have hk : k = n := h k (List.find?_some hfind)
      by_cases hm : m = k
      · rw [hm]
        exact Function.update_self ..
      · refine (Function.update_of_ne hm ..).trans ?_
        by_contra hne
        exact hm ((h m (Bool.eq_true_of_not_eq_false hne)).trans hk.symm)

end Chip

/-! ## What the running system does not change -/

/-- The part of a chip that initialisation and mask writes set. -/
structure Setup where
  imr : BitVec 8
  base : Nat
  icw3 : BitVec 8
  icw4 : BitVec 8
  stage : Stage

def Chip.setup (c : Chip) : Setup := ⟨c.imr, c.base, c.icw3, c.icw4, c.stage⟩

@[simp] theorem acknowledge_setup (c : Chip) : c.acknowledge.1.setup = c.setup := by
  unfold Chip.acknowledge
  cases c.request <;> rfl

@[simp] theorem eoi_setup (c : Chip) : c.eoi.setup = c.setup := by
  unfold Chip.eoi
  cases (List.finRange 8).find? c.isr <;> rfl

@[simp] theorem eoi_irr (c : Chip) : c.eoi.irr = c.irr := by
  unfold Chip.eoi
  cases (List.finRange 8).find? c.isr <;> rfl

/-! ## The pair -/

structure Pair where
  master : Chip
  slave : Chip

/-- The slave's output is line 2 of the master. -/
def cascade : Fin 8 := 2

namespace Pair

variable (p : Pair)

/-- The master with what it sees on its cascade line. -/
def wired : Chip :=
  { p.master with irr := Function.update p.master.irr cascade p.slave.request.isSome }

/-- The processor is interrupted. -/
def int : Bool := p.wired.request.isSome

/-- The first acknowledge pulse freezes the master. -/
def inta1 : Pair × Fin 8 := ({ p with master := p.wired.acknowledge.1 }, p.wired.acknowledge.2)

/-- At the second one the vector comes from the chip whose line it is: from the slave when
both chips know it behind the line. -/
def inta2 (n : Fin 8) : Option (Pair × Nat) :=
  if p.master.icw3.getLsbD n ∧ p.slave.icw3.toNat = n then
    (p.slave.vector p.slave.acknowledge.2).map fun v =>
      ({ p with slave := p.slave.acknowledge.1 }, v)
  else (p.master.vector n).map fun v => (p, v)

end Pair

/-- The lines of the pair. -/
inductive Line where
  | master (n : Fin 8)
  | slave (n : Fin 8)
deriving DecidableEq

/-- The number of a line. -/
def Line.irq : Line → Nat
  | .master n => n
  | .slave n => 8 + n

theorem Line.irq_injective : Function.Injective Line.irq := by
  intro a b h
  cases a with
  | master n =>
      cases b with
      | master m => rw [Fin.ext h]
      | slave m =>
          have hn := n.isLt
          change (n : Nat) = 8 + m at h
          omega
  | slave n =>
      cases b with
      | master m =>
          have hm := m.isLt
          change 8 + (n : Nat) = m at h
          omega
      | slave m => rw [Fin.ext (Nat.add_left_cancel h)]

def Pair.pending (p : Pair) : Line → Bool
  | .master n => p.master.irr n
  | .slave n => p.slave.irr n

def Pair.masked (p : Pair) : Line → Bool
  | .master n => p.master.imr.getLsbD n
  | .slave n => p.slave.imr.getLsbD n || p.master.imr.getLsbD cascade

/-- A device raises or drops its line. -/
def Pair.setLine (p : Pair) (b : Bool) : Line → Pair
  | .master n => { p with master := { p.master with irr := Function.update p.master.irr n b } }
  | .slave n => { p with slave := { p.slave with irr := Function.update p.slave.irr n b } }

theorem Pair.setLine_pending (p : Pair) (b : Bool) (l l' : Line) :
    (p.setLine b l).pending l' = if l' = l then b else p.pending l' := by
  cases l <;> cases l' <;> simp [setLine, pending, Function.update_apply]

/-- With nothing in service, a requested line that is not masked interrupts the processor,
through the cascade if it is one of the slave's. -/
theorem Pair.int_of_pending {p : Pair} {l : Line} (hm : p.master.Idle) (hs : p.slave.Idle)
    (hdevice : l ≠ .master cascade) (hpending : p.pending l = true)
    (hmask : p.masked l = false) : p.int = true := by
  have hidle : p.wired.Idle := hm
  cases l with
  | master n =>
      have hn : n ≠ cascade := fun hn => hdevice (hn ▸ rfl)
      apply hidle.request_isSome (n := n)
      · exact (Function.update_of_ne hn ..).trans hpending
      · exact hmask
  | slave n =>
      obtain ⟨hslave, hmaster⟩ := Bool.or_eq_false_iff.mp hmask
      apply hidle.request_isSome (n := cascade)
      · change Function.update p.master.irr cascade p.slave.request.isSome cascade = true
        rw [Function.update_self]
        exact hs.request_isSome hpending hslave
      · exact hmaster

end StakOS.Lib.Pic
