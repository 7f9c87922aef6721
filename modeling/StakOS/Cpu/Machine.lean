import Mathlib.Data.Set.Disjoint
import Mathlib.Order.CompletePartialOrder
import Mathlib.Logic.Relation
import StakOS.Cpu.Stubs

/-!
# Runs with interrupts and switches

One processor, many processes, each with a kernel stack of its own.  A step is a piece
of compiled code, an interrupt up to the call of its handler, the return of a handler,
a call of `context_switch`, or the making and freeing of a process.

`traps` and `context` are bookkeeping: `traps p` are the interrupts of `p` whose handler
has not returned, the last one first, and `context p` is what a suspended process goes on
with.  No step reads them, except that a handler returns with the stack pointer it
was called with.
-/

namespace StakOS.Cpu

open StakOS.Lib.Memory StakOS.Lib.X86 Relation

/-- The bytes of a kernel stack; at least the page below `kernel_stack_top`. -/
structure KStack where
  bytes : Set Nat
  top : Nat
  page_le : 4096 ≤ top
  page : ∀ x, top - 4096 ≤ x → x < top → x ∈ bytes
  lt : ∀ x ∈ bytes, x + 1 < 2 ^ 32

/-- The two frames `process_create` allocates. -/
def kernelStack (lo hi : Nat) (hlo : lo + 4096 < 2 ^ 32) (hhi : hi + 4096 < 2 ^ 32) : KStack where
  bytes := {x | (lo ≤ x ∧ x < lo + 4096) ∨ (hi ≤ x ∧ x < hi + 4096)}
  top := hi + 4096
  page_le := by omega
  page x hx hx' := Or.inr ⟨by omega, hx'⟩
  lt x hx := by
    rcases hx with hx | hx
    · omega
    · omega

theorem KStack.top_lt (st : KStack) : st.top < 2 ^ 32 := by
  have hle := st.page_le
  have hlast := st.lt (st.top - 1) (st.page _ (by omega) (by omega))
  omega

/-- An interrupt, with the processor as it was. -/
structure Trap where
  gate : Gate
  esp0 : Nat
  before : Cpu

namespace Trap

variable (t : Trap)

/-- The frame of the interrupt lies between `base` and `top`. -/
def top : Nat := frameTop t.esp0 t.before
def base : Nat := frameBase t.esp0 t.before

/-- What the handler must not write: its return address and the trap frame, but not the
argument between them, which is its own. -/
def guarded : Set Nat := {x | (t.base ≤ x ∧ x < t.base + 4) ∨ (t.base + 8 ≤ x ∧ x < t.top)}

end Trap

/-- What a suspended process goes on with, and the words that then stand on its stack. -/
structure Context where
  reg : Reg → Nat
  eip : Nat
  eflags : Nat
  above : List Nat

/-- In the order in which `context_switch` pops. -/
def Context.words (k : Context) : List Nat :=
  [k.reg .edi, k.reg .esi, k.reg .ebp, k.reg .ebx, k.reg .edx, k.reg .ecx, k.reg .eax, k.eflags,
    k.eip] ++ k.above

/-- The caller of `context_switch` goes on after the call. -/
def callerContext (c : Cpu) : Context where
  reg := Function.update c.reg .esp (c.reg .esp + 4)
  eip := c.word 0
  eflags := pushfdImage c.eflags
  above := []

/-- A process that has not run yet. -/
def firstContext (img : Process.Image) (start top : Nat) : Context where
  reg := Function.update (fun _ => 0) .esp (top - 4)
  eip := start
  eflags := 0x202
  above := [img.processExit]

/-- The saved `esp` and `cr3` of the process at `p`. -/
def slot (p : Nat) : Set Nat :=
  {x | p + PcbField.esp.offset ≤ x ∧ x < p + PcbField.cr3.offset + PcbField.cr3.bytes}

theorem mem_slot {p x : Nat} : x ∈ slot p ↔ p + 40 ≤ x ∧ x < p + 48 := Iff.rfl

structure Machine where
  cpu : Cpu
  current : Nat
  /-- The TSS has the stack for the way from ring 3 to ring 0. -/
  esp0 : Nat
  live : Set Nat
  stack : Nat → KStack
  traps : Nat → List Trap
  context : Nat → Context

namespace Machine

variable (M : Machine)

/-- Code of the current process: a handler and what it calls, kernel code outside of
handlers, or a user program.  It leaves alone the stacks and the saved pointers of the other
processes and the frames of its own interrupts, and its stack pointer stays below these. -/
structure Code (c : Cpu) (esp0 : Nat) : Prop where
  wf : c.Wf
  ring : M.traps M.current ≠ [] → c.user = false
  low : ∀ t ∈ M.traps M.current, c.reg .esp ≤ t.base
  others : ∀ p ∈ M.live, p ≠ M.current → ∀ x ∈ (M.stack p).bytes, c.mem x = M.cpu.mem x
  slots : ∀ p ∈ M.live, ∀ x ∈ slot p, c.mem x = M.cpu.mem x
  frames : ∀ t ∈ M.traps M.current, ∀ x ∈ t.guarded, c.mem x = M.cpu.mem x
  /-- `tss_set_kernel_stack(self->kernel_stack_top)`, at the latest on the way to ring 3. -/
  tss : esp0 = M.esp0 ∨ esp0 = (M.stack M.current).top
  tss_user : c.user = true → esp0 = (M.stack M.current).top

/-- In ring 0 the frame of an interrupt still fits into the stack. -/
def Room : Prop :=
  M.cpu.user = false → 64 ≤ M.cpu.reg .esp ∧
    ∀ x, M.cpu.reg .esp - 64 ≤ x → x < M.cpu.reg .esp → x ∈ (M.stack M.current).bytes

/-- The handler of the innermost interrupt has come to its `ret`. -/
structure AtReturn (t : Trap) (ts : List Trap) : Prop where
  traps : M.traps M.current = t :: ts
  esp : M.cpu.reg .esp = t.base

/-- `do_switch` has called `context_switch(old, new)` for the current process and one that is
suspended, from a frame that lies in the stack and below the frames of interrupts. -/
structure CanSwitch (new : Nat) : Prop where
  ring : M.cpu.user = false
  live : new ∈ M.live
  ne : new ≠ M.current
  old_arg : M.cpu.word 4 = M.current
  new_arg : M.cpu.word 8 = new
  room : 32 ≤ M.cpu.reg .esp
  inside : ∀ x, M.cpu.reg .esp - 32 ≤ x → x < M.cpu.reg .esp + 12 → x ∈ (M.stack M.current).bytes
  low : ∀ t ∈ M.traps M.current, M.cpu.reg .esp + 12 ≤ t.base

/-- The allocators have given memory to a new process that no other process has. -/
structure Fresh (img : Process.Image) (p : Nat) (st : KStack) (start : Nat) : Prop where
  dead : p ∉ M.live
  stack : ∀ q ∈ M.live, Disjoint st.bytes (M.stack q).bytes
  stack_slot : ∀ q ∈ M.live, Disjoint (slot q) st.bytes
  slot_stack : ∀ q ∈ M.live, Disjoint (slot p) (M.stack q).bytes
  slots : ∀ q ∈ M.live, Disjoint (slot p) (slot q)
  own : Disjoint (slot p) st.bytes
  start_lt : start < 2 ^ 32
  exit_lt : img.processExit < 2 ^ 32

/-- An interrupt, up to the first instruction of the handler. -/
def interrupt (alu : Alu) (lbl : Labels) (g : Gate) : Machine :=
  { M with
    cpu := enter alu lbl g M.esp0 M.cpu
    traps := Function.update M.traps M.current (⟨g, M.esp0, M.cpu⟩ :: M.traps M.current) }

/-- The end of an interrupt. -/
def resume (c : Cpu) : Machine :=
  { M with
    cpu := c
    traps := Function.update M.traps M.current (M.traps M.current).tail }

/-- The end of `do_switch`: `tss_set_kernel_stack`, `process_set_current` and
`context_switch`. -/
def switch (alu : Alu) (new : Nat) : Machine :=
  { M with
    cpu := run alu contextSwitch M.cpu
    current := new
    esp0 := (M.stack new).top
    context := Function.update M.context M.current (callerContext M.cpu) }

/-- What `process_create` writes that a switch will read. -/
def create (img : Process.Image) (p : Nat) (st : KStack) (start cr3 : Nat) : Machine :=
  { M with
    cpu := { M.cpu with
      mem := write32 (Process.pushWords (write32 M.cpu.mem (p + PcbField.cr3.offset) cr3) st.top
        (Process.initialStack img start)) (p + PcbField.esp.offset) (st.top - 40) }
    live := insert p M.live
    stack := Function.update M.stack p st
    traps := Function.update M.traps p []
    context := Function.update M.context p (firstContext img start st.top) }

/-- A process other than the current one is freed. -/
def reap (p : Nat) : Machine := { M with live := M.live \ {p} }

end Machine

/-- Interrupts may come at every point of the code, also where the interrupt flag would hold
them back. -/
inductive Step (alu : Alu) (lbl : Labels) (img : Process.Image) : Machine → Machine → Prop
  | code {M : Machine} {c : Cpu} {esp0 : Nat} (h : M.Code c esp0) :
      Step alu lbl img M { M with cpu := c, esp0 := esp0 }
  | interrupt {M : Machine} (g : Gate) (h : M.Room) : Step alu lbl img M (M.interrupt alu lbl g)
  | returns {M : Machine} {t : Trap} {ts : List Trap} {c : Cpu} (hat : M.AtReturn t ts)
      (hret : handlerReturns alu lbl M.cpu = some c) : Step alu lbl img M (M.resume c)
  | switch {M : Machine} {new : Nat} (h : M.CanSwitch new) :
      Step alu lbl img M (M.switch alu new)
  | create {M : Machine} {p start cr3 : Nat} {st : KStack} (h : M.Fresh img p st start) :
      Step alu lbl img M (M.create img p st start cr3)
  | reap {M : Machine} {p : Nat} (h : p ≠ M.current) : Step alu lbl img M (M.reap p)

/-- A run that stays in `P` after its first state. -/
def RunIn (alu : Alu) (lbl : Labels) (img : Process.Image) (P : Machine → Prop) :
    Machine → Machine → Prop :=
  ReflTransGen fun M M' => Step alu lbl img M M' ∧ P M'

/-- After boot one process runs in ring 0. -/
structure Start (M : Machine) : Prop where
  wf : M.cpu.Wf
  ring : M.cpu.user = false
  live : M.live = {M.current}
  traps : M.traps M.current = []
  slot : Disjoint (slot M.current) (M.stack M.current).bytes

end StakOS.Cpu
