import Mathlib.Data.BitVec
import Mathlib.Tactic.IntervalCases
import StakOS.Lib.X86

/-!
# Descriptor tables

How a 32-bit x86 finds its way into ring 0: it reads a gate of the interrupt descriptor table,
the code segment the gate names, and for code of an outer ring the stack that the task state
segment has for ring 0, and checks each of them.

Only 32-bit interrupt gates to ring 0 are followed; a valid gate of another kind is
`unsupported`.
-/

namespace StakOS.Lib.Descriptors

open StakOS.Lib.X86

/-! ## Layouts -/

/-- A segment descriptor. -/
structure Segment where
  base : BitVec 32
  limit : BitVec 20
  /-- The type and, above it, the bit that tells code and data from system segments. -/
  kind : BitVec 5
  dpl : BitVec 2
  present : Bool
  granular : Bool
  wide : Bool
deriving DecidableEq

/-- The byte with the kind, the ring and the present bit. -/
def accessByte (raw : BitVec 64) : BitVec 8 := raw.extractLsb' 40 8

def segmentOf (raw : BitVec 64) : Segment where
  base := raw.extractLsb' 56 8 ++ raw.extractLsb' 16 24
  limit := raw.extractLsb' 48 4 ++ raw.extractLsb' 0 16
  kind := (accessByte raw).extractLsb' 0 5
  dpl := (accessByte raw).extractLsb' 5 2
  present := (accessByte raw).getLsbD 7
  granular := (raw.extractLsb' 52 4).getLsbD 3
  wide := (raw.extractLsb' 52 4).getLsbD 2

def Segment.isCode (s : Segment) : Bool := s.kind.getLsbD 4 && s.kind.getLsbD 3

def Segment.isData (s : Segment) : Bool := s.kind.getLsbD 4 && !s.kind.getLsbD 3

def Segment.isWritableData (s : Segment) : Bool :=
  s.kind.getLsbD 4 && !s.kind.getLsbD 3 && s.kind.getLsbD 1

/-- The last byte of a segment. -/
def Segment.last (s : Segment) : Nat :=
  if s.granular then s.limit.toNat * 4096 + 4095 else s.limit.toNat

/-- A gate descriptor. -/
structure Gate where
  offset : BitVec 32
  selector : BitVec 16
  kind : BitVec 5
  dpl : BitVec 2
  present : Bool
deriving DecidableEq

def gateOf (raw : BitVec 64) : Gate where
  offset := raw.extractLsb' 48 16 ++ raw.extractLsb' 0 16
  selector := raw.extractLsb' 16 16
  kind := (accessByte raw).extractLsb' 0 5
  dpl := (accessByte raw).extractLsb' 5 2
  present := (accessByte raw).getLsbD 7

/-- A 32-bit interrupt gate. -/
def interruptGate : BitVec 5 := 0b01110

/-- Task gates, 16-bit gates and trap gates. -/
def otherGates : List (BitVec 5) := [0b00101, 0b00110, 0b00111, 0b01111]

/-! ## The way into ring 0 -/

/-- What the registers of the processor point to. -/
structure Tables where
  gdt : Nat → BitVec 64
  gdtLimit : Nat
  idt : Nat → BitVec 64
  idtLimit : Nat
  taskRegister : Nat
  tss : List Nat

inductive Fault where
  | generalProtection | notPresent | invalidTss | stackFault | unsupported
deriving DecidableEq

/-- Why the processor leaves the running code. -/
inductive Cause where
  | external
  /-- An exception, with the error code if it has one. -/
  | exception (code : Option Nat)
  /-- The instruction `int n`. -/
  | software
deriving DecidableEq

def Cause.words : Cause → List Nat
  | .exception (some code) => [code]
  | _ => []

/-- The descriptor of a selector: not the null one, in the global table, and within its
limit. -/
def Tables.lookup (t : Tables) (selector : Nat) : Option Segment :=
  if selector / 8 = 0 ∨ selector.testBit 2 = true ∨ t.gdtLimit < selector / 8 * 8 + 7 then none
  else some (segmentOf (t.gdt (selector / 8)))

/-- The ring-0 stack of the task state segment, with its checks. -/
def Tables.stack0 (t : Tables) : Except Fault (Nat × Nat) :=
  match t.lookup t.taskRegister with
  | none => .error .invalidTss
  | some task =>
      if task.last < 4 * 3 - 1 then .error .invalidTss
      else
        let esp0 := t.tss.getD 1 0
        let ss0 := t.tss.getD 2 0 % 2 ^ 16
        match t.lookup ss0 with
        | none => .error .invalidTss
        | some s =>
            if ss0 % 4 ≠ 0 ∨ s.dpl ≠ 0 ∨ s.isWritableData = false then .error .invalidTss
            else if s.present = false then .error .stackFault
            else .ok (esp0, ss0)

/-- Enter the handler of the vector `v`. -/
def Tables.deliver (t : Tables) (c : Cpu) (v : Nat) (cause : Cause) : Except Fault Cpu :=
  if t.idtLimit < 8 * v + 7 then .error .generalProtection
  else
    let g := gateOf (t.idt v)
    if g.kind ∈ otherGates then .error .unsupported
    else if g.kind ≠ interruptGate then .error .generalProtection
    else if cause = .software ∧ g.dpl.toNat < c.cs % 4 then .error .generalProtection
    else if g.present = false then .error .notPresent
    else
      match t.lookup g.selector.toNat with
      | none => .error .generalProtection
      | some code =>
          if code.isCode = false ∨ c.cs % 4 < code.dpl.toNat then .error .generalProtection
          else if code.present = false then .error .notPresent
          else if code.dpl ≠ 0 ∨ code.kind.getLsbD 2 then .error .unsupported
          else
            let target := fun stack : Nat × Nat =>
              (c.interrupt stack.1 stack.2 (g.selector.toNat / 4 * 4) g.offset.toNat).pushAll
                cause.words
            if c.user then target <$> t.stack0 else .ok (target (0, 0))

/-! ## The way out of ring 0 -/

/-- The checks of `mov sreg, selector` in the ring `cpl`, for a data segment. -/
def Tables.loads (t : Tables) (cpl selector : Nat) : Bool :=
  match t.lookup selector with
  | none => false
  | some s => s.isData && decide (max cpl (selector % 4) ≤ s.dpl.toNat) && s.present

/-- The checks of an `iret` that changes to the ring of `cs`. -/
def Tables.returns (t : Tables) (cs ss : Nat) : Bool :=
  match t.lookup cs, t.lookup ss with
  | some code, some stack =>
      code.isCode && !code.kind.getLsbD 2 && code.dpl.toNat == cs % 4 && code.present &&
        ss % 4 == cs % 4 && stack.isWritableData && stack.dpl.toNat == cs % 4 && stack.present
  | _, _ => false

/-! ## Without a change of rings the stack stays -/

theorem interrupt_of_kernel {c : Cpu} (h : c.user = false) (esp0 ss0 esp0' ss0' codeSeg target : Nat) :
    c.interrupt esp0 ss0 codeSeg target = c.interrupt esp0' ss0' codeSeg target := by
  unfold Cpu.interrupt
  rw [h]
  rfl

/-- A gate that is present and names a ring-0 code segment leads into ring 0, unless the code
may not use it. -/
theorem Tables.deliver_of_gate {t : Tables} {c : Cpu} {v esp0 ss0 : Nat} {cause : Cause} {g : Gate}
    {code : Segment} (hlimit : 8 * v + 7 ≤ t.idtLimit) (hgate : gateOf (t.idt v) = g)
    (hkind : g.kind = interruptGate) (hpresent : g.present = true)
    (hlookup : t.lookup g.selector.toNat = some code) (hcode : code.isCode = true)
    (hdpl : code.dpl = 0) (hnonconforming : code.kind.getLsbD 2 = false)
    (hcodePresent : code.present = true) (hstack : t.stack0 = .ok (esp0, ss0)) :
    t.deliver c v cause = if cause = .software ∧ g.dpl.toNat < c.cs % 4
      then .error .generalProtection
      else .ok ((c.interrupt esp0 ss0 (g.selector.toNat / 4 * 4) g.offset.toNat).pushAll
        cause.words) := by
  have hother : interruptGate ∉ otherGates := by decide
  have hring : ¬c.cs % 4 < (0 : BitVec 2).toNat := Nat.not_lt_zero _
  unfold Tables.deliver
  rw [if_neg (Nat.not_lt.mpr hlimit), hgate]
  simp only [hkind, if_neg hother, ne_eq, not_true_eq_false, if_false, hpresent, hlookup, hcode,
    hdpl, if_neg hring, hnonconforming, hcodePresent, Bool.true_eq_false, false_or,
    Bool.false_eq_true]
  by_cases hallowed : cause = .software ∧ g.dpl.toNat < c.cs % 4
  · rw [if_pos hallowed, if_pos hallowed]
  · rw [if_neg hallowed, if_neg hallowed]
    cases huser : c.user with
    | true =>
        rw [if_pos rfl, hstack]
        rfl
    | false =>
        rw [if_neg Bool.false_ne_true, interrupt_of_kernel huser 0 0 esp0 ss0]

end StakOS.Lib.Descriptors
