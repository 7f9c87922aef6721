import StakOS.Lib.X86
import StakOS.Process.Create

/-!
# Entry stubs and the context switch

`boot/isr.asm` and `boot/context_switch.asm`, instruction by instruction, and what each
of them does to the registers and to the stack.  A jump to a common stub goes to code
that is written next to it here.
-/

namespace StakOS.Cpu

open StakOS.Lib.Memory StakOS.Lib.X86

/-! ## Layouts the assembly relies on -/

/-- `registers_t` of `idt.h`. -/
structure Registers where
  ds : Nat
  edi : Nat
  esi : Nat
  ebp : Nat
  esp : Nat
  ebx : Nat
  edx : Nat
  ecx : Nat
  eax : Nat
  intNo : Nat
  errCode : Nat
  eip : Nat
  cs : Nat
  eflags : Nat

/-- The fields in memory order, a word each. -/
def Registers.words (r : Registers) : List Nat :=
  [r.ds, r.edi, r.esi, r.ebp, r.esp, r.ebx, r.edx, r.ecx, r.eax, r.intNo, r.errCode, r.eip,
    r.cs, r.eflags]

/-- The first fields of `process_t`, with their sizes. -/
inductive PcbField where
  | pid | name | state | esp | cr3
deriving DecidableEq

def PcbField.bytes : PcbField → Nat
  | .name => 32
  | _ => 4

def PcbField.order : List PcbField := [.pid, .name, .state, .esp, .cr3]

/-- Where the C compiler puts a field. -/
def PcbField.offset (f : PcbField) : Nat :=
  ((order.takeWhile (· ≠ f)).map bytes).sum

/-! ## The code -/

inductive Gate where
  | irq (n : Fin 16)
  | isr128

def Gate.timer : Gate := .irq 0

def Gate.intNo : Gate → Nat
  | .irq n => 32 + n
  | .isr128 => 128

/-- Addresses that the linker has given out: the stubs, the C handlers, and where these
return to. -/
structure Labels where
  stub : Gate → Nat
  irqHandler : Nat
  syscallHandler : Nat
  irqResume : Nat
  syscallResume : Nat
  irqHandler_lt : irqHandler < 2 ^ 32
  syscallHandler_lt : syscallHandler < 2 ^ 32
  irqResume_lt : irqResume < 2 ^ 32
  syscallResume_lt : syscallResume < 2 ^ 32
  resume_ne : irqResume ≠ syscallResume

def Labels.handler (lbl : Labels) : Gate → Nat
  | .irq _ => lbl.irqHandler
  | .isr128 => lbl.syscallHandler

def Labels.resume (lbl : Labels) : Gate → Nat
  | .irq _ => lbl.irqResume
  | .isr128 => lbl.syscallResume

theorem Labels.handler_lt (lbl : Labels) (g : Gate) : lbl.handler g < 2 ^ 32 := by
  cases g with
  | irq n => exact lbl.irqHandler_lt
  | isr128 => exact lbl.syscallHandler_lt

theorem Labels.resume_lt (lbl : Labels) (g : Gate) : lbl.resume g < 2 ^ 32 := by
  cases g with
  | irq n => exact lbl.irqResume_lt
  | isr128 => exact lbl.syscallResume_lt

/-- `irqN` or `isr128`, then the common stub up to the call of the handler. -/
def entryStub (lbl : Labels) (g : Gate) : List Instr :=
  [.pushImm 0,
   .pushImm g.intNo,
   .pusha,
   .readSeg .eax .ds,
   .push .eax,
   .movLow .eax 0x10,
   .writeSeg .ds .eax,
   .writeSeg .es .eax,
   .writeSeg .fs .eax,
   .writeSeg .gs .eax,
   .push .esp,
   .call (lbl.handler g) (lbl.resume g)]

/-- The common stub after the call, up to `iret`: `irq_common_stub` takes the saved `ds`
through `eax`, `syscall_common_stub` through `ebx`, and puts the value of the handler
where `popa` finds it. -/
def exitStub : Gate → List Instr
  | .irq _ =>
      [.addEsp 4,
       .pop .eax,
       .writeSeg .ds .eax,
       .writeSeg .es .eax,
       .writeSeg .fs .eax,
       .writeSeg .gs .eax,
       .popa,
       .addEsp 8]
  | .isr128 =>
      [.addEsp 4,
       .pop .ebx,
       .writeSeg .ds .ebx,
       .writeSeg .es .ebx,
       .writeSeg .fs .ebx,
       .writeSeg .gs .ebx,
       .store .esp 28 .eax,
       .popa,
       .addEsp 8]

def saveContext : List Instr :=
  [.pushfd,
   .push .eax,
   .push .ecx,
   .push .edx,
   .push .ebx,
   .push .ebp,
   .push .esi,
   .push .edi,
   .load .eax .esp 36,
   .store .eax 40 .esp]

def switchAddressSpace : List Instr :=
  [.load .eax .esp 40,
   .load .ecx .eax 44,
   .readCr3 .edx,
   .cmp .ecx .edx,
   .je 1,
   .writeCr3 .ecx]

def restoreContext : List Instr :=
  [.load .esp .eax 40,
   .pop .edi,
   .pop .esi,
   .pop .ebp,
   .pop .ebx,
   .pop .edx,
   .pop .ecx,
   .pop .eax,
   .popfd,
   .ret]

def contextSwitch : List Instr := saveContext ++ switchAddressSpace ++ restoreContext

section Execution

variable (alu : Alu) (lbl : Labels)

/-- The processor takes an interrupt and the stub calls the handler.  Every gate of the
IDT is an interrupt gate to the kernel's code segment. -/
def enter (g : Gate) (esp0 : Nat) (c : Cpu) : Cpu :=
  run alu (entryStub lbl g) (c.interrupt esp0 0x10 0x08 (lbl.stub g))

/-- A handler executes its `ret`, which leads to one of the common stubs. -/
def handlerReturns (c : Cpu) : Option Cpu :=
  let c' := exec alu c .ret
  if c'.eip = lbl.irqResume then some (run alu (exitStub (.irq 0) ++ [.iret]) c')
  else if c'.eip = lbl.syscallResume then some (run alu (exitStub .isr128 ++ [.iret]) c')
  else none

end Execution

/-! ## Into a handler -/

/-- The address below which a trap frame is pushed. -/
def frameTop (esp0 : Nat) (c : Cpu) : Nat := if c.user then esp0 else c.reg .esp

/-- Ring 3 also has its stack saved. -/
def frameBytes (c : Cpu) : Nat := if c.user then 72 else 64

theorem le_frameBytes (c : Cpu) : 64 ≤ frameBytes c := by
  unfold frameBytes
  split <;> decide

def frameBase (esp0 : Nat) (c : Cpu) : Nat := frameTop esp0 c - frameBytes c

/-- What is saved of an interrupted process.  `pusha` stores the stack pointer it finds,
and the upper half of the word with `ds` is that of `eax`. -/
def savedRegisters (g : Gate) (c : Cpu) (esp : Nat) : Registers where
  ds := c.reg .eax / 2 ^ 16 * 2 ^ 16 + c.seg .ds % 2 ^ 16
  edi := c.reg .edi
  esi := c.reg .esi
  ebp := c.reg .ebp
  esp := esp
  ebx := c.reg .ebx
  edx := c.reg .edx
  ecx := c.reg .ecx
  eax := c.reg .eax
  intNo := g.intNo
  errCode := 0
  eip := c.eip
  cs := c.cs
  eflags := c.eflags

/-- The words the argument of the handler points to. -/
def trapFrame (g : Gate) (esp0 : Nat) (c : Cpu) : List Nat :=
  (savedRegisters g c (frameBase esp0 c + 44)).words ++ if c.user then [c.reg .esp, c.ss] else []

theorem trapFrame_length (g : Gate) (esp0 : Nat) (c : Cpu) :
    4 * (trapFrame g esp0 c).length + 8 = frameBytes c := by
  unfold trapFrame frameBytes
  cases c.user <;> rfl

theorem trapFrame_lt (g : Gate) {esp0 : Nat} {c : Cpu} (hc : c.Wf)
    (htop : frameTop esp0 c < 2 ^ 32) (hroom : frameBytes c ≤ frameTop esp0 c) :
    ∀ w ∈ trapFrame g esp0 c, w < 2 ^ 32 := by
  have hds : c.reg .eax / 2 ^ 16 * 2 ^ 16 + c.seg .ds % 2 ^ 16 < 2 ^ 32 := by
    have := hc.reg .eax
    omega
  have hesp : frameBase esp0 c + 44 < 2 ^ 32 := by
    unfold frameBase frameBytes at *
    split at hroom
    · rw [if_pos ‹_›]
      omega
    · rw [if_neg ‹_›]
      omega
  have hno : g.intNo < 2 ^ 32 := by
    cases g with
    | irq n =>
        have := n.isLt
        simp only [Gate.intNo]
        omega
    | isr128 => decide
  intro w hw
  simp only [trapFrame, savedRegisters, Registers.words, List.cons_append, List.nil_append,
    List.mem_cons] at hw
  rcases hw with rfl | rfl | rfl | rfl | rfl | rfl | rfl | rfl | rfl | rfl | rfl | rfl | rfl | rfl | hw
  · exact hds
  · exact hc.reg _
  · exact hc.reg _
  · exact hc.reg _
  · exact hesp
  · exact hc.reg _
  · exact hc.reg _
  · exact hc.reg _
  · exact hc.reg _
  · exact hno
  · decide
  · exact hc.eip
  · exact hc.cs
  · exact hc.eflags
  · split at hw
    · simp only [List.mem_cons, List.not_mem_nil, or_false] at hw
      rcases hw with rfl | rfl
      · exact hc.reg _
      · exact hc.ss
    · simp at hw

section Enter

variable (alu : Alu) (lbl : Labels) (g : Gate)

theorem entryStub_mem (c : Cpu) : (run alu (entryStub lbl g) c).mem =
    pushed c.mem (c.reg .esp)
      [0, g.intNo, c.reg .eax, c.reg .ecx, c.reg .edx, c.reg .ebx, c.reg .esp - 8, c.reg .ebp,
        c.reg .esi, c.reg .edi, c.reg .eax / 2 ^ 16 * 2 ^ 16 + c.seg .ds % 2 ^ 16,
        c.reg .esp - 44, lbl.resume g] := by
  simp [entryStub, pushed, Function.update, Nat.sub_sub]

theorem entryStub_esp (c : Cpu) :
    (run alu (entryStub lbl g) c).reg .esp = c.reg .esp - 52 := by
  simp [entryStub, Function.update, Nat.sub_sub]

variable {esp0 : Nat} {c : Cpu}

theorem interrupted_esp (target : Nat) (hroom : frameBytes c ≤ frameTop esp0 c) :
    (c.interrupt esp0 0x10 0x08 target).reg .esp = frameBase esp0 c + 52 := by
  have hbytes : frameBytes c = 4 * c.interruptWords.length + 52 := by
    unfold frameBytes Cpu.interruptWords
    cases c.user <;> rfl
  rw [Cpu.interrupt_esp]
  unfold frameBase frameTop at *
  omega

/-- The handler finds its return address, its argument and the registers. -/
theorem enter_mem (hroom : frameBytes c ≤ frameTop esp0 c) :
    (enter alu lbl g esp0 c).mem = pushed c.mem (frameTop esp0 c)
      (lbl.resume g :: (frameBase esp0 c + 8) :: trapFrame g esp0 c).reverse := by
  have hwords : (lbl.resume g :: (frameBase esp0 c + 8) :: trapFrame g esp0 c).reverse =
      c.interruptWords ++ [0, g.intNo, c.reg .eax, c.reg .ecx, c.reg .edx, c.reg .ebx,
        frameBase esp0 c + 52 - 8, c.reg .ebp, c.reg .esi, c.reg .edi,
        c.reg .eax / 2 ^ 16 * 2 ^ 16 + c.seg .ds % 2 ^ 16, frameBase esp0 c + 52 - 44,
        lbl.resume g] := by
    unfold trapFrame Cpu.interruptWords
    cases c.user <;> rfl
  have hesp := Cpu.interrupt_esp c esp0 0x10 0x08 (lbl.stub g)
  rw [interrupted_esp _ hroom] at hesp
  unfold enter
  rw [entryStub_mem, interrupted_esp _ hroom, hwords, pushed_append, Cpu.interrupt_mem,
    Cpu.interrupt_seg, frameTop, ← hesp]
  simp only [Cpu.interrupt_reg, ne_eq, reduceCtorEq, not_false_eq_true]

theorem enter_esp (hroom : frameBytes c ≤ frameTop esp0 c) :
    (enter alu lbl g esp0 c).reg .esp = frameBase esp0 c := by
  unfold enter
  rw [entryStub_esp, interrupted_esp _ hroom]
  omega

/-- The handler runs in ring 0. -/
theorem enter_user : (enter alu lbl g esp0 c).user = false := by
  simp [enter, entryStub, Cpu.interrupt, Cpu.user]

theorem entryStub_eax (c : Cpu) : (run alu (entryStub lbl g) c).reg .eax =
    c.reg .eax / 2 ^ 16 * 2 ^ 16 + 0x10 := by
  simp [entryStub, Function.update]
  omega

theorem entryStub_reg {r : Reg} (hesp : r ≠ .esp) (heax : r ≠ .eax) (c : Cpu) :
    (run alu (entryStub lbl g) c).reg r = c.reg r := by
  simp [entryStub, Function.update, hesp, heax]

theorem entryStub_seg (s : Seg) (c : Cpu) : (run alu (entryStub lbl g) c).seg s = 0x10 := by
  cases s <;> simp [entryStub, Function.update]

theorem enter_wf (hc : c.Wf) (htop : frameTop esp0 c < 2 ^ 32)
    (hroom : frameBytes c ≤ frameTop esp0 c) : (enter alu lbl g esp0 c).Wf where
  reg r := by
    by_cases hesp : r = .esp
    · rw [hesp, enter_esp alu lbl g hroom]
      unfold frameBase
      omega
    · have hr := Cpu.interrupt_reg c esp0 0x10 0x08 (lbl.stub g) hesp
      have hlt := hc.reg r
      by_cases heax : r = .eax
      · rw [heax] at hr hlt ⊢
        rw [enter, entryStub_eax, hr]
        omega
      · rw [enter, entryStub_reg alu lbl g hesp heax, hr]
        exact hlt
  seg s := by
    rw [enter, entryStub_seg]
    decide
  cs := (by decide : 0x08 < 2 ^ 32)
  ss := by
    change (c.interrupt esp0 0x10 0x08 (lbl.stub g)).ss < 2 ^ 32
    rw [Cpu.interrupt_ss]
    split
    · decide
    · exact hc.ss
  eip := lbl.handler_lt g
  eflags := lt_of_le_of_lt (Nat.and_le_left : c.eflags &&& 0xFFFCBCFF ≤ c.eflags) hc.eflags

end Enter

/-! ## Out of a handler -/

/-- What a process finds in `eax`. -/
def Gate.result (g : Gate) (saved returned : Nat) : Nat :=
  match g with
  | .irq _ => saved
  | .isr128 => returned

section Exit

variable (alu : Alu) (g : Gate) {c : Cpu}

theorem exitStub_reg (heax : c.reg .eax < 2 ^ 32) (r : Reg) :
    (run alu (exitStub g) c).reg r = match r with
      | .edi => c.word 8
      | .esi => c.word 12
      | .ebp => c.word 16
      | .esp => c.reg .esp + 48
      | .ebx => c.word 24
      | .edx => c.word 28
      | .ecx => c.word 32
      | .eax => g.result (c.word 36) (c.reg .eax) := by
  have hpatch := read32_write32_same c.mem (c.reg .esp + 36) heax
  cases g <;> cases r <;>
    simp [exitStub, Function.update, Nat.add_assoc, Gate.result, read32_write32_of_disjoint, hpatch]

/-- Nothing but the slot of `eax` is written. -/
theorem exitStub_mem {x : Nat} (hx : x < c.reg .esp + 36 ∨ c.reg .esp + 40 ≤ x) :
    (run alu (exitStub g) c).mem x = c.mem x := by
  cases g with
  | irq n => rfl
  | isr128 =>
      have hsame := write32_of_disjoint c.mem (a := c.reg .esp + 36) (x := x) (c.reg .eax) (by omega)
      simpa [exitStub, Function.update, Nat.add_assoc] using hsame

theorem exitStub_cs : (run alu (exitStub g) c).cs = c.cs := by
  cases g <;> rfl

theorem exitStub_ss : (run alu (exitStub g) c).ss = c.ss := by
  cases g <;> rfl

theorem exitStub_seg (s : Seg) : (run alu (exitStub g) c).seg s < 2 ^ 16 := by
  cases g <;> cases s <;> simp [exitStub, Function.update, Nat.mod_lt]

theorem run_exitStub_iret : run alu (exitStub g ++ [.iret]) c = (run alu (exitStub g) c).iret := by
  cases g <;> simp [exitStub]

/-- The words above the popped registers. -/
theorem exitStub_word (heax : c.reg .eax < 2 ^ 32) (n : Nat) :
    (run alu (exitStub g) c).word n = c.word (48 + n) := by
  have hesp : (run alu (exitStub g) c).reg .esp = c.reg .esp + 48 := exitStub_reg alu g heax .esp
  unfold Cpu.word
  rw [hesp, Nat.add_assoc]
  apply read32_congr
  intro x hx _
  exact exitStub_mem alu g (by omega)

end Exit

/-- A process goes on with the registers it had, `eax` apart. -/
structure Resumed (before : Cpu) (eax : Nat) (c : Cpu) : Prop where
  eax : c.reg .eax = eax
  reg : ∀ r, r ≠ .eax → c.reg r = before.reg r
  eip : c.eip = before.eip
  eflags : c.eflags = before.eflags
  cs : c.cs = before.cs

/-- What a handler must leave in place: its return address and the trap frame. -/
structure FrameHeld (lbl : Labels) (g : Gate) (esp0 : Nat) (before : Cpu) (m : Mem) : Prop where
  resume : read32 m (frameBase esp0 before) = lbl.resume g
  frame : Words m (frameBase esp0 before + 8) (trapFrame g esp0 before)

section Return

variable (alu : Alu) {lbl : Labels} {g : Gate} {esp0 : Nat} {before c : Cpu}

theorem handlerReturns_eq (hret : c.word 0 = lbl.resume g) :
    handlerReturns alu lbl c = some (run alu (exitStub g) (exec alu c .ret)).iret := by
  have heip : (exec alu c .ret).eip = lbl.resume g := hret
  simp only [handlerReturns, heip, run_exitStub_iret]
  cases g with
  | irq n => exact if_pos rfl
  | isr128 => exact (if_neg lbl.resume_ne.symm).trans (if_pos rfl)

variable (hheld : FrameHeld lbl g esp0 before c.mem) (hesp : c.reg .esp = frameBase esp0 before)

include hheld hesp

/-- The word of the frame as the stub finds it after the return of the handler. -/
theorem FrameHeld.word {i w : Nat} (hi : (trapFrame g esp0 before)[i]? = some w) :
    (exec alu c .ret).word (4 * i + 4) = w := by
  have haddr : (exec alu c .ret).reg .esp + (4 * i + 4) = frameBase esp0 before + 8 + 4 * i := by
    simp only [exec, Cpu.drop, Cpu.set, Function.update_self]
    omega
  unfold Cpu.word
  rw [haddr]
  exact hheld.frame.get hi

variable (hring : c.user = false) (heax : c.reg .eax < 2 ^ 32)

include hring heax

/-- From ring 3 the stack pointer comes from the frame, from ring 0 it is the end of it. -/
theorem exitStub_esp (hroom : frameBytes before ≤ frameTop esp0 before) :
    (run alu (exitStub g) (exec alu c .ret)).iret.reg .esp = before.reg .esp := by
  have hup := exitStub_word alu g (c := exec alu c .ret) heax
  have hcs : (run alu (exitStub g) (exec alu c .ret)).word 4 = before.cs :=
    (hup 4).trans (hheld.word alu hesp (i := 12) rfl)
  have hzero : (run alu (exitStub g) (exec alu c .ret)).cs % 4 = 0 := by
    rw [exitStub_cs]
    exact Cpu.user_eq_false.1 hring
  rw [Cpu.iret_esp, hcs, hzero]
  cases huser : before.user with
  | true =>
      have hlast : (trapFrame g esp0 before)[14]? = some (before.reg .esp) := by
        simp only [trapFrame, huser, if_true]
        rfl
      rw [if_neg (Cpu.user_eq_true.1 huser), hup 12]
      exact hheld.word alu hesp hlast
  | false =>
      rw [if_pos (Cpu.user_eq_false.1 huser), exitStub_reg alu g (c := exec alu c .ret) heax]
      simp only [exec, Cpu.drop, Cpu.set, Function.update_self, hesp]
      simp only [frameBase, frameTop, frameBytes, huser, Bool.false_eq_true, if_false] at hroom ⊢
      omega

/-- The stub gives the interrupted process its registers back. -/
theorem exitStub_resumed (hroom : frameBytes before ≤ frameTop esp0 before) :
    Resumed before (g.result (before.reg .eax) (c.reg .eax))
      (run alu (exitStub g) (exec alu c .ret)).iret := by
  have hreg := exitStub_reg alu g (c := exec alu c .ret) heax
  have hup := exitStub_word alu g (c := exec alu c .ret) heax
  have hpop : ∀ {r : Reg} (i : Nat), r ≠ .esp →
      (run alu (exitStub g) (exec alu c .ret)).reg r = (exec alu c .ret).word (4 * i + 4) →
      (trapFrame g esp0 before)[i]? = some (before.reg r) →
      (run alu (exitStub g) (exec alu c .ret)).iret.reg r = before.reg r := by
    intro r i hr hslot hi
    rw [Cpu.iret_reg _ hr, hslot]
    exact hheld.word alu hesp hi
  refine ⟨?_, ?_, ?_, ?_, ?_⟩
  · rw [Cpu.iret_reg _ (by decide), hreg]
    exact congrArg₂ g.result (hheld.word alu hesp (i := 8) rfl) rfl
  · intro r hr
    cases r with
    | eax => exact absurd rfl hr
    | esp => exact exitStub_esp alu hheld hesp hring heax hroom
    | edi => exact hpop 1 (by decide) (hreg _) rfl
    | esi => exact hpop 2 (by decide) (hreg _) rfl
    | ebp => exact hpop 3 (by decide) (hreg _) rfl
    | ebx => exact hpop 5 (by decide) (hreg _) rfl
    | edx => exact hpop 6 (by decide) (hreg _) rfl
    | ecx => exact hpop 7 (by decide) (hreg _) rfl
  · rw [Cpu.iret_eip]
    exact (hup 0).trans (hheld.word alu hesp (i := 11) rfl)
  · rw [Cpu.iret_eflags]
    exact (hup 8).trans (hheld.word alu hesp (i := 13) rfl)
  · rw [Cpu.iret_cs]
    exact (hup 4).trans (hheld.word alu hesp (i := 12) rfl)

end Return

/-! ## Switching -/

/-- What `context_switch` pushes. -/
def contextWords (c : Cpu) : List Nat :=
  [pushfdImage c.eflags, c.reg .eax, c.reg .ecx, c.reg .edx, c.reg .ebx, c.reg .ebp, c.reg .esi,
    c.reg .edi]

theorem pushContext_of_disjoint {c : Cpu} (hroom : 32 ≤ c.reg .esp) {x : Nat}
    (hx : x < c.reg .esp - 32 ∨ c.reg .esp ≤ x) :
    pushed c.mem (c.reg .esp) (contextWords c) x = c.mem x :=
  pushed_of_disjoint c.mem hroom hx

/-- The memory in which `old` is suspended. -/
def suspend (c : Cpu) (old : Nat) : Mem :=
  write32 (pushed c.mem (c.reg .esp) (contextWords c)) (old + PcbField.esp.offset)
    (c.reg .esp - 32)

/-- The registers at the address `a`, in the order of the pops, and the return. -/
def popContext (c : Cpu) (m : Mem) (a cr3 : Nat) : Cpu :=
  { c with
    reg := fun
      | .edi => read32 m a
      | .esi => read32 m (a + 4)
      | .ebp => read32 m (a + 8)
      | .ebx => read32 m (a + 12)
      | .edx => read32 m (a + 16)
      | .ecx => read32 m (a + 20)
      | .eax => read32 m (a + 24)
      | .esp => a + 36
    eflags := read32 m (a + 28)
    eip := read32 m (a + 32)
    cr3 := cr3
    mem := m }

section Switch

variable (alu : Alu)

theorem run_saveContext (c : Cpu) (is : List Instr) : run alu (saveContext ++ is) c =
    run alu is
      { c with
        reg := Function.update (Function.update c.reg .esp (c.reg .esp - 32)) .eax
          (read32 (pushed c.mem (c.reg .esp) (contextWords c)) (c.reg .esp - 32 + 36))
        mem := suspend c
          (read32 (pushed c.mem (c.reg .esp) (contextWords c)) (c.reg .esp - 32 + 36)) } := by
  simp [saveContext, contextWords, suspend, PcbField.offset, PcbField.order, PcbField.bytes,
    Function.update, Nat.sub_sub, pushed]

/-- The comparison only spares a reload of the directory that is in use. -/
theorem run_switchAddressSpace (c : Cpu) (is : List Instr) :
    run alu (switchAddressSpace ++ is) c = run alu is
      { c with
        reg := Function.update (Function.update (Function.update c.reg .eax (c.word 40)) .ecx
          (read32 c.mem (c.word 40 + 44))) .edx c.cr3
        eflags := alu.sub c.eflags (read32 c.mem (c.word 40 + 44)) c.cr3
        cr3 := read32 c.mem (c.word 40 + 44) } := by
  by_cases hsame : read32 c.mem (read32 c.mem (c.reg .esp + 40) + 44) = c.cr3
  · simp [switchAddressSpace, Function.update, alu.sub_zero_flag, hsame]
  · simp [switchAddressSpace, Function.update, alu.sub_zero_flag, hsame]

theorem run_restoreContext (c : Cpu) : run alu restoreContext c =
    popContext c c.mem (read32 c.mem (c.reg .eax + 40)) c.cr3 := by
  apply Cpu.ext
  case reg =>
    funext r
    cases r <;> simp [restoreContext, popContext, Function.update, Nat.add_assoc]
  case eip => simp [restoreContext, popContext, Function.update, Nat.add_assoc]
  case eflags => simp [restoreContext, popContext, Function.update, Nat.add_assoc]
  all_goals rfl

theorem run_contextSwitch {c : Cpu} {old new : Nat} (hroom : 32 ≤ c.reg .esp)
    (hold : c.word 4 = old) (hnew : c.word 8 = new)
    (hapart : old + 44 ≤ c.reg .esp + 8 ∨ c.reg .esp + 12 ≤ old + 40) :
    run alu contextSwitch c = popContext c (suspend c old)
      (read32 (suspend c old) (new + PcbField.esp.offset))
      (read32 (suspend c old) (new + PcbField.cr3.offset)) := by
  have habove : ∀ x, c.reg .esp ≤ x → pushed c.mem (c.reg .esp) (contextWords c) x = c.mem x :=
    fun x hx => pushContext_of_disjoint hroom (Or.inr hx)
  have hfirst : read32 (pushed c.mem (c.reg .esp) (contextWords c)) (c.reg .esp - 32 + 36) =
      old := by
    rw [← hold, show c.reg .esp - 32 + 36 = c.reg .esp + 4 by omega]
    exact read32_congr fun x hx _ => habove x (by omega)
  have hsecond : read32 (suspend c old) (c.reg .esp - 32 + 40) = new := by
    rw [← hnew, show c.reg .esp - 32 + 40 = c.reg .esp + 8 by omega]
    apply read32_congr
    intro x hx hx'
    have hoff : PcbField.esp.offset = 40 := rfl
    rw [suspend, write32_of_disjoint _ _ (by omega)]
    exact habove x (by omega)
  rw [contextSwitch, List.append_assoc, run_saveContext, run_switchAddressSpace,
    run_restoreContext, hfirst]
  simp only [Cpu.word, Function.update, popContext, reduceCtorEq, dite_false, dite_true, hsecond]
  rfl

end Switch

end StakOS.Cpu
