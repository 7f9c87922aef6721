import Mathlib.Data.List.Basic
import StakOS.Lib.Memory

/-!
# A 32-bit x86 for straight-line stack code

The instructions that entry stubs and context switches are made of: pushes, pops,
moves between registers and memory, and the two ways to enter and leave a more
privileged ring.  Jumps go forward only, by a number of instructions to skip.

Addresses are natural numbers and do not wrap around; a register is a number that
code keeps below `2 ^ 32`.  Paging is left out: a stack is reached at the same
address in every address space.
-/

namespace StakOS.Lib.X86

open StakOS.Lib.Memory

inductive Reg where
  | eax | ecx | edx | ebx | esp | ebp | esi | edi
deriving DecidableEq

inductive Seg where
  | ds | es | fs | gs
deriving DecidableEq

@[ext] structure Cpu where
  reg : Reg → Nat
  seg : Seg → Nat
  cs : Nat
  ss : Nat
  eip : Nat
  eflags : Nat
  cr3 : Nat
  mem : Mem

/-- What arithmetic leaves in EFLAGS, given the old flags and the operands.  Bit 6 is
the zero flag. -/
structure Alu where
  add : Nat → Nat → Nat → Nat
  sub : Nat → Nat → Nat → Nat
  sub_zero_flag : ∀ e a b, (sub e a b).testBit 6 = decide (a = b)

inductive Instr where
  | push (r : Reg)
  | pushImm (w : Nat)
  | pushfd
  | pusha
  | pop (r : Reg)
  | popfd
  | popa
  /-- `mov dst, [base + disp]` -/
  | load (dst base : Reg) (disp : Nat)
  /-- `mov [base + disp], src` -/
  | store (base : Reg) (disp : Nat) (src : Reg)
  | readCr3 (dst : Reg)
  | writeCr3 (src : Reg)
  | cmp (a b : Reg)
  /-- `je` over the next `n` instructions. -/
  | je (n : Nat)
  /-- `mov r16, sreg` -/
  | readSeg (dst : Reg) (s : Seg)
  /-- `mov r16, imm16` -/
  | movLow (dst : Reg) (imm : Nat)
  /-- `mov sreg, r16` -/
  | writeSeg (s : Seg) (src : Reg)
  | addEsp (n : Nat)
  /-- `call target`, with the address of the next instruction. -/
  | call (target next : Nat)
  | ret
  | iret

/-- `pushfd` stores the flags without VM and RF. -/
def pushfdImage (eflags : Nat) : Nat := eflags &&& 0x00FCFFFF

namespace Cpu

variable (c : Cpu)

/-- Every register holds a word, every segment register a selector. -/
structure Wf : Prop where
  reg : ∀ r, c.reg r < 2 ^ 32
  seg : ∀ s, c.seg s < 2 ^ 16
  cs : c.cs < 2 ^ 32
  ss : c.ss < 2 ^ 32
  eip : c.eip < 2 ^ 32
  eflags : c.eflags < 2 ^ 32

@[simp] def set (r : Reg) (w : Nat) : Cpu := { c with reg := Function.update c.reg r w }

/-- The word at distance `n` from the stack pointer. -/
@[simp] def word (n : Nat) : Nat := read32 c.mem (c.reg .esp + n)

/-- Push the words one after the other. -/
@[simp] def pushAll (ws : List Nat) : Cpu :=
  { c with
    reg := Function.update c.reg .esp (c.reg .esp - 4 * ws.length)
    mem := pushed c.mem (c.reg .esp) ws }

@[simp] def push (w : Nat) : Cpu := c.pushAll [w]

@[simp] def drop (n : Nat) : Cpu := c.set .esp (c.reg .esp + n)

/-- The stack pointer that is stored is the one before the first push. -/
@[simp] def pusha : Cpu :=
  c.pushAll [c.reg .eax, c.reg .ecx, c.reg .edx, c.reg .ebx, c.reg .esp, c.reg .ebp, c.reg .esi,
    c.reg .edi]

/-- The slot of the stack pointer is skipped. -/
@[simp] def popa : Cpu :=
  (((((((c.drop 32).set .edi (c.word 0)).set .esi (c.word 4)).set .ebp (c.word 8)).set .ebx
    (c.word 16)).set .edx (c.word 20)).set .ecx (c.word 24)).set .eax (c.word 28)

/-- The low half of a register replaced. -/
@[simp] def setLow (r : Reg) (w : Nat) : Cpu := c.set r (c.reg r / 2 ^ 16 * 2 ^ 16 + w % 2 ^ 16)

/-- The code segment says which ring the processor is in. -/
def user : Bool := decide (c.cs % 4 ≠ 0)

/-- Return from an interrupt; the stack is switched back when the ring changes. -/
def iret : Cpu :=
  let c' := { c with eip := c.word 0, cs := c.word 4, eflags := c.word 8 }
  if c.word 4 % 4 = c.cs % 4 then c'.drop 12
  else { c'.set .esp (c.word 12) with ss := c.word 16 }

/-- What the processor pushes on the way to an interrupt handler: for ring 3 its stack
pointer first. -/
def interruptWords : List Nat :=
  (if c.user then [c.ss, c.reg .esp] else []) ++ [c.eflags, c.cs, c.eip]

/-- Enter ring 0 through an interrupt gate, from ring 3 on the stack that the TSS has;
interrupts and tracing are turned off. -/
def interrupt (esp0 ss0 codeSeg target : Nat) : Cpu :=
  let c' := if c.user then { c.set .esp esp0 with ss := ss0 } else c
  { c'.pushAll c.interruptWords with
    cs := codeSeg
    eip := target
    eflags := c.eflags &&& 0xFFFCBCFF }

end Cpu

/-! ## Execution

The `simp` set executes a block of instructions symbolically. -/

/-- One instruction.  Within a block the instruction pointer is the position in the
block. -/
@[simp] def exec (alu : Alu) (c : Cpu) : Instr → Cpu
  | .push r => c.push (c.reg r)
  | .pushImm w => c.push w
  | .pushfd => c.push (pushfdImage c.eflags)
  | .pusha => c.pusha
  | .pop r => (c.drop 4).set r (c.word 0)
  | .popfd => { c.drop 4 with eflags := c.word 0 }
  | .popa => c.popa
  | .load dst base disp => c.set dst (read32 c.mem (c.reg base + disp))
  | .store base disp src => { c with mem := write32 c.mem (c.reg base + disp) (c.reg src) }
  | .readCr3 dst => c.set dst c.cr3
  | .writeCr3 src => { c with cr3 := c.reg src }
  | .cmp a b => { c with eflags := alu.sub c.eflags (c.reg a) (c.reg b) }
  | .je _ => c
  | .readSeg dst s => c.setLow dst (c.seg s)
  | .movLow dst imm => c.setLow dst imm
  | .writeSeg s src => { c with seg := Function.update c.seg s (c.reg src % 2 ^ 16) }
  | .addEsp n => { c.drop n with eflags := alu.add c.eflags (c.reg .esp) n }
  | .call target next => { c.push next with eip := target }
  | .ret => { c.drop 4 with eip := c.word 0 }
  | .iret => c.iret

/-- How many of the following instructions are jumped over. -/
@[simp] def skips (c : Cpu) : Instr → Nat
  | .je n => if c.eflags.testBit 6 then n else 0
  | _ => 0

/-- A block of instructions, the first `n` of which are jumped over. -/
@[simp] def runFrom (alu : Alu) : Nat → List Instr → Cpu → Cpu
  | _, [], c => c
  | n + 1, _ :: is, c => runFrom alu n is c
  | 0, i :: is, c => runFrom alu (skips c i) is (exec alu c i)

@[simp] def run (alu : Alu) (is : List Instr) (c : Cpu) : Cpu := runFrom alu 0 is c

/-! ## Entering and leaving an interrupt -/

namespace Cpu

theorem user_eq_true {c : Cpu} : c.user = true ↔ c.cs % 4 ≠ 0 := decide_eq_true_iff

theorem user_eq_false {c : Cpu} : c.user = false ↔ c.cs % 4 = 0 := by
  rw [user, decide_eq_false_iff_not, not_not]

variable (c : Cpu)

section Interrupt

variable (esp0 ss0 codeSeg target : Nat)

theorem interrupt_mem : (c.interrupt esp0 ss0 codeSeg target).mem =
    pushed c.mem (if c.user then esp0 else c.reg .esp) c.interruptWords := by
  unfold interrupt
  cases c.user <;> rfl

theorem interrupt_esp : (c.interrupt esp0 ss0 codeSeg target).reg .esp =
    (if c.user then esp0 else c.reg .esp) - 4 * c.interruptWords.length := by
  unfold interrupt
  cases c.user <;> rfl

theorem interrupt_reg {r : Reg} (hr : r ≠ .esp) :
    (c.interrupt esp0 ss0 codeSeg target).reg r = c.reg r := by
  unfold interrupt
  cases c.user with
  | true => exact (Function.update_of_ne hr _ _).trans (Function.update_of_ne hr _ _)
  | false => exact Function.update_of_ne hr _ _

theorem interrupt_ss : (c.interrupt esp0 ss0 codeSeg target).ss = if c.user then ss0 else c.ss := by
  unfold interrupt
  cases c.user <;> rfl

theorem interrupt_seg : (c.interrupt esp0 ss0 codeSeg target).seg = c.seg := by
  unfold interrupt
  cases c.user <;> rfl

end Interrupt

@[simp] theorem iret_eip : c.iret.eip = c.word 0 := by
  unfold iret
  split <;> rfl

@[simp] theorem iret_cs : c.iret.cs = c.word 4 := by
  unfold iret
  split <;> rfl

@[simp] theorem iret_eflags : c.iret.eflags = c.word 8 := by
  unfold iret
  split <;> rfl

@[simp] theorem iret_mem : c.iret.mem = c.mem := by
  unfold iret
  split <;> rfl

@[simp] theorem iret_seg : c.iret.seg = c.seg := by
  unfold iret
  split <;> rfl

theorem iret_reg {r : Reg} (hr : r ≠ .esp) : c.iret.reg r = c.reg r := by
  unfold iret
  split
  · exact Function.update_of_ne hr _ _
  · exact Function.update_of_ne hr _ _

theorem iret_esp : c.iret.reg .esp =
    if c.word 4 % 4 = c.cs % 4 then c.reg .esp + 12 else c.word 12 := by
  unfold iret
  split <;> rfl

theorem iret_ss : c.iret.ss = if c.word 4 % 4 = c.cs % 4 then c.ss else c.word 16 := by
  unfold iret
  split <;> rfl

end Cpu

end StakOS.Lib.X86
