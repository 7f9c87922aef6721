import StakOS.Cpu.Descriptors
import StakOS.Cpu.Registers
import StakOS.Drivers.Output

/-!
# Exceptions

`isr0` … `isr31` of `boot/isr.asm` and `isr_handler` of `idt.c`.  The processor pushes an error
code for some vectors only; the stubs push a zero for the others, so that `isr_handler` always
finds a `registers_t`.
-/

namespace StakOS.Cpu

open StakOS.Lib.Memory StakOS.Lib.X86 StakOS.Drivers.Output
open StakOS.Drivers.Vga (Call vgaColorLightGrey)
open StakOS.Lib.Descriptors (Cause)

/-! ## The stubs -/

/-- The vectors that `isr.asm` declares with `ISR_ERRCODE`. -/
def isrErrcode : List Nat := [8, 10, 11, 12, 13, 14, 17]

/-- `isr_common_stub` up to the call of `isr_handler`, which returns to `next`. -/
def isrCommonStub (handler next : Nat) : List Instr :=
  [.pusha,
   .readSeg .eax .ds,
   .push .eax,
   .movLow .eax 0x10,
   .writeSeg .ds .eax,
   .writeSeg .es .eax,
   .writeSeg .fs .eax,
   .writeSeg .gs .eax,
   .push .esp,
   .call handler next]

/-- `isrN`, up to the call. -/
def isrStub (handler next n : Nat) : List Instr :=
  (if n ∈ isrErrcode then [.pushImm n] else [.pushImm 0, .pushImm n]) ++ isrCommonStub handler next

/-! ## `isr_handler` -/

def exceptions : List String :=
  ["Division By Zero", "Debug", "Non Maskable Interrupt", "Breakpoint", "Overflow",
    "Out of Bounds", "Invalid Opcode", "No Coprocessor", "Double Fault",
    "Coprocessor Segment Overrun", "Bad TSS", "Segment Not Present", "Stack Fault",
    "General Protection Fault", "Page Fault", "Unknown Interrupt", "Coprocessor Fault",
    "Alignment Check", "Machine Check", "Reserved", "Reserved", "Reserved", "Reserved",
    "Reserved", "Reserved", "Reserved", "Reserved", "Reserved", "Reserved", "Reserved",
    "Reserved", "Reserved"]

/-- What `kpanic` prints before it halts the machine. -/
def kpanic (msg detail : String) : List Call :=
  color vgaColorRed ++ text "\n[KERNEL PANIC] " ++ text msg ++ text detail ++
    text "\n--- System Halted ---\n"

/-- The page fault report, with the address from CR2. -/
def pageFaultReport (r : Registers) (faultAddr : Nat) : List Call :=
  color vgaColorLightRed ++ text "\n[PAGE FAULT] addr=" ++ hex faultAddr ++ text "  err=" ++
    hex r.errCode ++ text "  eip=" ++ hex r.eip ++ text "\n  " ++
    text (if r.errCode.testBit 0 then "protection " else "not-present ") ++
    text (if r.errCode.testBit 1 then "write " else "read ") ++
    text (if r.errCode.testBit 2 then "user" else "kernel") ++ text "\n"

/-- Everything `isr_handler` prints; it ends in `kpanic`. -/
def isrHandler (r : Registers) (cr2 : Nat) : List Call :=
  if r.intNo = 14 then pageFaultReport r cr2 ++ kpanic "Page fault" ""
  else
    color vgaColorYellow ++ text "ISR HIT: " ++ int (toInt32 r.intNo) ++ text "\n" ++
      kpanic "EXCEPTION: " (if r.intNo < 32 then exceptions.getD r.intNo "" else "Unknown")

/-! ## Into `isr_handler` -/

/-- The exceptions for which the processor pushes an error code. -/
def pushesErrorCode (v : Nat) : Prop := v = 8 ∨ (10 ≤ v ∧ v ≤ 14) ∨ v = 17

instance (v : Nat) : Decidable (pushesErrorCode v) :=
  inferInstanceAs (Decidable (v = 8 ∨ (10 ≤ v ∧ v ≤ 14) ∨ v = 17))

/-- What is saved of the code that raised the exception. -/
def exceptionRegisters (v code : Nat) (c : Cpu) (esp : Nat) : Registers :=
  { savedRegisters .isr128 c esp with intNo := v, errCode := code }

/-- The words the argument of `isr_handler` points to. -/
def exceptionFrame (v code esp0 : Nat) (c : Cpu) : List Nat :=
  (exceptionRegisters v code c (frameBase esp0 c + 44)).words ++
    if c.user then [c.reg .esp, c.ss] else []

/-- `isr.asm` has an error code for exactly the vectors that come with one. -/
theorem mem_isrErrcode_iff : ∀ v < 32, v ∈ isrErrcode ↔ pushesErrorCode v := by decide

section Stub

variable (alu : Alu) (handler next : Nat)

theorem run_cons_pushImm (w : Nat) (is : List Instr) (c : Cpu) :
    run alu (.pushImm w :: is) c = run alu is (c.pushAll [w]) := rfl

/-- With or without an error code from the processor, the same words are pushed. -/
theorem run_isrStub {v : Nat} (hv : v < 32) (code : Option Nat)
    (hcode : code.isSome = true ↔ pushesErrorCode v) (c : Cpu) :
    run alu (isrStub handler next v) (c.pushAll (Cause.exception code).words) =
      run alu (.pushImm (code.getD 0) :: .pushImm v :: isrCommonStub handler next) c := by
  have hsame := mem_isrErrcode_iff v hv
  unfold isrStub
  cases code with
  | none =>
      have hno : v ∉ isrErrcode := fun hmem => Bool.false_ne_true (hcode.mpr (hsame.mp hmem))
      have hpush : c.pushAll [] = c := by
        simp [pushed]
      rw [if_neg hno]
      change run alu _ (c.pushAll []) = _
      rw [hpush]
      rfl
  | some w =>
      have hyes : v ∈ isrErrcode := hsame.mpr (hcode.mp rfl)
      rw [if_pos hyes, Option.getD_some, run_cons_pushImm]
      rfl

theorem run_isrStub_mem (w v : Nat) (c : Cpu) :
    (run alu (.pushImm w :: .pushImm v :: isrCommonStub handler next) c).mem =
      pushed c.mem (c.reg .esp)
        [w, v, c.reg .eax, c.reg .ecx, c.reg .edx, c.reg .ebx, c.reg .esp - 8, c.reg .ebp,
          c.reg .esi, c.reg .edi, c.reg .eax / 2 ^ 16 * 2 ^ 16 + c.seg .ds % 2 ^ 16,
          c.reg .esp - 44, next] := by
  simp [isrCommonStub, pushed, Function.update, Nat.sub_sub]

theorem run_isrStub_esp (w v : Nat) (c : Cpu) :
    (run alu (.pushImm w :: .pushImm v :: isrCommonStub handler next) c).reg .esp =
      c.reg .esp - 52 := by
  simp [isrCommonStub, Function.update, Nat.sub_sub]

end Stub

theorem run_isrStub_target (alu : Alu) (handler next w v : Nat) (c : Cpu) :
    (run alu (.pushImm w :: .pushImm v :: isrCommonStub handler next) c).eip = handler ∧
      (run alu (.pushImm w :: .pushImm v :: isrCommonStub handler next) c).user = c.user := by
  simp [isrCommonStub, Cpu.user]

theorem exceptionFrame_length (v code esp0 : Nat) (c : Cpu) :
    4 * (exceptionFrame v code esp0 c).length + 8 = frameBytes c := by
  unfold exceptionFrame frameBytes
  cases c.user <;> rfl

theorem exceptionFrame_lt {v code esp0 : Nat} {c : Cpu} (hv : v < 2 ^ 32) (hcode : code < 2 ^ 32)
    (hc : c.Wf) (htop : frameTop esp0 c < 2 ^ 32) (hroom : frameBytes c ≤ frameTop esp0 c) :
    ∀ w ∈ exceptionFrame v code esp0 c, w < 2 ^ 32 := by
  -- all words but two are those of a system call's frame
  have hframe := trapFrame_lt .isr128 hc htop hroom
  intro w hw
  by_cases hnumber : w = v
  · rw [hnumber]
    exact hv
  · by_cases hcode' : w = code
    · rw [hcode']
      exact hcode
    · apply hframe
      simp only [exceptionFrame, exceptionRegisters, trapFrame, Registers.words, List.mem_append,
        List.mem_cons, hnumber, hcode', false_or] at hw ⊢
      tauto

/-- Every exception the processor can raise, in either ring, reaches `isr_handler` with its
number, its error code and the state of the code that raised it. -/
theorem exception_frame (alu : Alu) {handler next : Nat} (hnext : next < 2 ^ 32)
    (sym : TableSymbols) (stubs : Stubs) (t : DescriptorTables) (esp0 : BitVec 32) {c : Cpu}
    {v : Nat} (hv : v < 32) {code : Option Nat} (hcode : code.isSome = true ↔ pushesErrorCode v)
    (hcodeLt : code.getD 0 < 2 ^ 32) (hc : c.Wf)
    (htop : frameTop esp0.toNat c < 2 ^ 32) (hroom : frameBytes c ≤ frameTop esp0.toNat c) :
    ∃ c₁, ((bootTables sym stubs t esp0).view sym).deliver c v (.exception code) = .ok c₁ ∧
      c₁.eip = (stubs.isr v).toNat ∧
      (run alu (isrStub handler next v) c₁).eip = handler ∧
      (run alu (isrStub handler next v) c₁).user = false ∧
      Words (run alu (isrStub handler next v) c₁).mem
        ((run alu (isrStub handler next v) c₁).word 4)
        (exceptionFrame v (code.getD 0) esp0.toNat c) := by
  have hvector : stubs.vector v = some (stubs.isr v) := if_pos hv
  have hdeliver := deliver_stub sym stubs t esp0 hvector c (.exception code)
  simp only [reduceCtorEq, false_and, if_false] at hdeliver
  refine ⟨_, hdeliver, rfl, ?_⟩
  rw [run_isrStub alu handler next hv code hcode]
  set c₀ := c.interrupt esp0.toNat 0x10 0x08 (stubs.isr v).toNat with hc₀
  set c₂ := run alu (.pushImm (code.getD 0) :: .pushImm v :: isrCommonStub handler next) c₀ with hc₂
  have hesp₀ : c₀.reg .esp = frameBase esp0.toNat c + 52 := interrupted_esp _ hroom
  have hlen := exceptionFrame_length v (code.getD 0) esp0.toNat c
  -- what is on the stack in the end, the last word first
  set ws := next :: (frameBase esp0.toNat c + 8) :: exceptionFrame v (code.getD 0) esp0.toNat c
    with hws
  have hpushed : ws.reverse =
      c.interruptWords ++ [code.getD 0, v, c.reg .eax, c.reg .ecx, c.reg .edx, c.reg .ebx,
        frameBase esp0.toNat c + 52 - 8, c.reg .ebp, c.reg .esi, c.reg .edi,
        c.reg .eax / 2 ^ 16 * 2 ^ 16 + c.seg .ds % 2 ^ 16, frameBase esp0.toNat c + 52 - 44,
        next] := by
    rw [hws]
    unfold exceptionFrame Cpu.interruptWords
    cases c.user <;> rfl
  have hmem : c₂.mem = pushed c.mem (frameTop esp0.toNat c) ws.reverse := by
    have hesp := Cpu.interrupt_esp c esp0.toNat 0x10 0x08 (stubs.isr v).toNat
    rw [interrupted_esp _ hroom] at hesp
    rw [hc₂, run_isrStub_mem, hesp₀, hpushed, pushed_append, hc₀, Cpu.interrupt_mem,
      Cpu.interrupt_seg, frameTop, ← hesp]
    simp only [Cpu.interrupt_reg, ne_eq, reduceCtorEq, not_false_eq_true]
  have hlt : ∀ w ∈ ws.reverse, w < 2 ^ 32 := by
    intro w hw
    rw [List.mem_reverse, List.mem_cons, List.mem_cons] at hw
    rcases hw with rfl | rfl | hw
    · exact hnext
    · unfold frameBase
      omega
    · exact exceptionFrame_lt (by omega) hcodeLt hc htop hroom w hw
  have hbytes : 4 * ws.reverse.length = frameBytes c := by
    rw [List.length_reverse, List.length_cons, List.length_cons]
    omega
  have hread := words_pushed c.mem hlt (hbytes.trans_le hroom)
  rw [List.reverse_reverse, hbytes, ← hmem] at hread
  have hesp : c₂.reg .esp = frameBase esp0.toNat c := by
    rw [hc₂, run_isrStub_esp, hesp₀]
    omega
  obtain ⟨htarget, hring⟩ := run_isrStub_target alu handler next (code.getD 0) v c₀
  have hkernel : c₀.user = false := by
    simp [hc₀, Cpu.interrupt, Cpu.user]
  have hword : c₂.word 4 = frameBase esp0.toNat c + 8 := by
    rw [Cpu.word, hesp]
    exact hread.2.1
  rw [hword]
  exact ⟨htarget, hring.trans hkernel, hread.2.2⟩

/-- A user program in ring 3. -/
def userCpu : Cpu where
  reg := fun _ => 0xBFFFF000
  seg := fun _ => 0x23
  cs := 0x1B
  ss := 0x23
  eip := 0x8000000
  eflags := 0x202
  cr3 := 0x400000
  mem := fun _ => 0

theorem userCpu_wf : userCpu.Wf :=
  ⟨fun _ => (by decide : 0xBFFFF000 < 2 ^ 32), fun _ => (by decide : 0x23 < 2 ^ 16),
    (by decide : 0x1B < 2 ^ 32), (by decide : 0x23 < 2 ^ 32), (by decide : 0x8000000 < 2 ^ 32),
    (by decide : 0x202 < 2 ^ 32)⟩

/-- The program writes to a page that is not there. -/
theorem exception_frame_pageFault :
    ∃ c₁, ((bootTables ⟨0, 0, 0⟩ ⟨fun _ => 0x100000, fun _ => 0, 0⟩
        ⟨fun _ => gdtEntry 0 0 0 0, ⟨0, 0⟩, zeroTss, fun _ => noGate, ⟨0, 0⟩, ⟨0, 0⟩, ⟨0, 0⟩, 0⟩
        0x402000).view ⟨0, 0, 0⟩).deliver userCpu 14 (.exception (some 6)) = .ok c₁ ∧
      c₁.eip = 0x100000 ∧
      (run sampleAlu (isrStub 0x100100 0x100200 14) c₁).eip = 0x100100 ∧
      (run sampleAlu (isrStub 0x100100 0x100200 14) c₁).user = false ∧
      Words (run sampleAlu (isrStub 0x100100 0x100200 14) c₁).mem
        ((run sampleAlu (isrStub 0x100100 0x100200 14) c₁).word 4)
        (exceptionFrame 14 6 0x402000 userCpu) :=
  exception_frame sampleAlu (by decide) _ _ _ 0x402000 (by decide) (by decide) (by decide)
    userCpu_wf (by decide) (by decide)

/-! ## Out of `isr_handler` -/

/-- A line of the report determines the numbers in it. -/
theorem append_hex_inj {pre a b : List UInt8} {v w : Nat} (hv : v < 2 ^ 32) (hw : w < 2 ^ 32)
    (h : pre ++ (hexChars v ++ a) = pre ++ (hexChars w ++ b)) : v = w ∧ a = b := by
  have htail := List.append_cancel_left h
  obtain ⟨hhex, hrest⟩ := List.append_inj htail (by rw [hexChars_length, hexChars_length])
  exact ⟨hexChars_injective hv hw hhex, hrest⟩

/-- Two page faults that differ in their address, error code or instruction are reported
differently. -/
theorem pageFault_reports_differ {r r' : Registers} {cr2 cr2' : Nat} (hfault : r.intNo = 14)
    (hfault' : r'.intNo = 14) (hcr2 : cr2 < 2 ^ 32 ∧ cr2' < 2 ^ 32)
    (hcode : r.errCode < 2 ^ 32 ∧ r'.errCode < 2 ^ 32) (heip : r.eip < 2 ^ 32 ∧ r'.eip < 2 ^ 32)
    (hsame : transcript (isrHandler r cr2) = transcript (isrHandler r' cr2')) :
    cr2 = cr2' ∧ r.errCode = r'.errCode ∧ r.eip = r'.eip := by
  rw [isrHandler, isrHandler, if_pos hfault, if_pos hfault'] at hsame
  simp only [pageFaultReport, transcript_append, transcript_color, transcript_text, transcript_hex,
    List.nil_append, List.append_assoc] at hsame
  obtain ⟨haddr, hsame⟩ := append_hex_inj hcr2.1 hcr2.2 hsame
  obtain ⟨herr, hsame⟩ := append_hex_inj hcode.1 hcode.2 hsame
  exact ⟨haddr, herr, (append_hex_inj heip.1 heip.2 hsame).1⟩

/-- The program above reads the same address once more. -/
theorem pageFault_reports_differ_read :
    transcript (isrHandler (exceptionRegisters 14 6 userCpu 0) 0x1000) ≠
      transcript (isrHandler (exceptionRegisters 14 4 userCpu 0) 0x1000) := by
  intro hsame
  have hnumbers := pageFault_reports_differ rfl rfl ⟨by decide, by decide⟩
    ⟨(by decide : 6 < 2 ^ 32), (by decide : 4 < 2 ^ 32)⟩
    ⟨(by decide : 0x8000000 < 2 ^ 32), (by decide : 0x8000000 < 2 ^ 32)⟩ hsame
  exact absurd (hnumbers.2.1 : 6 = 4) (by decide)

end StakOS.Cpu
