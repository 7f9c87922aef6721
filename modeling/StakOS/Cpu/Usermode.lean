import StakOS.Cpu.Descriptors
import StakOS.Cpu.Registers

/-!
# The way into ring 3

`enter_usermode` of `boot/usermode.asm`, as `user_mode_trampoline` calls it: the first code of a
process made from an ELF file, on the kernel stack of that process and outside of every
interrupt handler.
-/

namespace StakOS.Cpu

open StakOS.Lib.Memory StakOS.Lib.X86 Relation

/-! ## The code -/

/-- `enter_usermode` without its last instruction. -/
def buildUserFrame : List Instr :=
  [.load .eax .esp 4, .load .ebx .esp 8,
    .movLow .ecx (0x20 ||| 3), .writeSeg .ds .ecx, .writeSeg .es .ecx, .writeSeg .fs .ecx,
    .writeSeg .gs .ecx,
    .pushImm (0x20 ||| 3), .push .ebx, .pushImm 0x202, .pushImm (0x18 ||| 3), .push .eax]

def enterUsermode : List Instr := buildUserFrame ++ [.iret]

/-- `user_mode_trampoline` has set the stack of the TSS and called
`enter_usermode(user_entry, user_stack_top)`. -/
structure Machine.CallsUsermode (M : Machine) (entry stackTop : Nat) : Prop where
  ring : M.cpu.user = false
  traps : M.traps M.current = []
  tss : M.esp0 = (M.stack M.current).top
  entry_arg : M.cpu.word 4 = entry
  stack_arg : M.cpu.word 8 = stackTop
  room : 20 ≤ M.cpu.reg .esp
  inside : ∀ x, M.cpu.reg .esp - 20 ≤ x → x < M.cpu.reg .esp → x ∈ (M.stack M.current).bytes

def Machine.entersUsermode (M : Machine) (alu : Alu) : Machine :=
  { M with cpu := run alu enterUsermode M.cpu }

/-- The processor at the first instruction of a user program. -/
structure UserStart (entry stackTop : Nat) (c : Cpu) : Prop where
  eip : c.eip = entry
  esp : c.reg .esp = stackTop
  cs : c.cs = 0x1B
  ss : c.ss = 0x23
  seg : ∀ s, c.seg s = 0x23
  /-- Interrupts are on, and the program may neither turn them off nor use ports. -/
  eflags : c.eflags = 0x202

/-! ## What it does -/

section Run

variable (alu : Alu) {c : Cpu}

/-- The words for `iret`, in the order of the pushes. -/
def userFrame (c : Cpu) : List Nat := [0x23, c.word 8, 0x202, 0x1B, c.word 4]

theorem buildUserFrame_mem : (run alu buildUserFrame c).mem =
    pushed c.mem (c.reg .esp) (userFrame c) := by
  simp [buildUserFrame, userFrame, pushed]

theorem buildUserFrame_esp : (run alu buildUserFrame c).reg .esp = c.reg .esp - 20 := by
  simp [buildUserFrame]
  omega

theorem buildUserFrame_cs : (run alu buildUserFrame c).cs = c.cs := by
  simp [buildUserFrame]

theorem buildUserFrame_seg (s : Seg) : (run alu buildUserFrame c).seg s = 0x23 := by
  cases s <;> simp [buildUserFrame]

theorem buildUserFrame_reg {r : Reg} (heax : r ≠ .eax) (hebx : r ≠ .ebx) (hecx : r ≠ .ecx)
    (hesp : r ≠ .esp) : (run alu buildUserFrame c).reg r = c.reg r := by
  simp [buildUserFrame, heax, hebx, hecx, hesp]

/-- The arguments stay in registers, and the upper half of `ecx` is that of the kernel. -/
theorem buildUserFrame_args : (run alu buildUserFrame c).reg .eax = c.word 4 ∧
    (run alu buildUserFrame c).reg .ebx = c.word 8 ∧
    (run alu buildUserFrame c).reg .ecx = c.reg .ecx / 2 ^ 16 * 2 ^ 16 + 0x23 := by
  simp [buildUserFrame]

theorem buildUserFrame_reg_lt (hc : c.Wf) (r : Reg) :
    (run alu buildUserFrame c).reg r < 2 ^ 32 := by
  obtain ⟨heax, hebx, hecx⟩ := buildUserFrame_args alu (c := c)
  have hold := hc.reg r
  cases r with
  | eax => exact heax ▸ read32_lt _ _
  | ebx => exact hebx ▸ read32_lt _ _
  | ecx =>
      rw [hecx]
      omega
  | esp =>
      rw [buildUserFrame_esp]
      omega
  | edx | ebp | esi | edi =>
      rw [buildUserFrame_reg alu (by decide) (by decide) (by decide) (by decide)]
      exact hold

theorem run_enterUsermode : run alu enterUsermode c = (run alu buildUserFrame c).iret := by
  simp [enterUsermode, buildUserFrame]

theorem buildUserFrame_words (hroom : 20 ≤ c.reg .esp) :
    Words (run alu buildUserFrame c).mem ((run alu buildUserFrame c).reg .esp)
      [c.word 4, 0x1B, 0x202, c.word 8, 0x23] := by
  have hwords : ∀ w ∈ userFrame c, w < 2 ^ 32 := by
    simp only [userFrame, List.forall_mem_cons]
    exact ⟨by norm_num, read32_lt _ _, by norm_num, by norm_num, read32_lt _ _, by simp⟩
  rw [buildUserFrame_mem, buildUserFrame_esp]
  exact words_pushed c.mem hwords hroom

theorem enterUsermode_start (hring : c.user = false) (hroom : 20 ≤ c.reg .esp) :
    UserStart (c.word 4) (c.word 8) (run alu enterUsermode c) := by
  obtain ⟨heip, hcs, heflags, hesp, hss, -⟩ := buildUserFrame_words alu hroom
  rw [run_enterUsermode]
  have hchange : ¬(run alu buildUserFrame c).word 4 % 4 = (run alu buildUserFrame c).cs % 4 := by
    rw [Cpu.word, hcs, buildUserFrame_cs, Cpu.user_eq_false.mp hring]
    decide
  refine ⟨?_, ?_, ?_, ?_, ?_, ?_⟩
  · rw [Cpu.iret_eip]
    exact heip
  · rw [Cpu.iret_esp, if_neg hchange]
    exact hesp
  · rw [Cpu.iret_cs]
    exact hcs
  · rw [Cpu.iret_ss, if_neg hchange]
    exact hss
  · intro s
    rw [Cpu.iret_seg]
    exact buildUserFrame_seg alu s
  · rw [Cpu.iret_eflags]
    exact heflags

theorem enterUsermode_mem (hroom : 20 ≤ c.reg .esp) {x : Nat}
    (hx : x < c.reg .esp - 20 ∨ c.reg .esp ≤ x) : (run alu enterUsermode c).mem x = c.mem x := by
  rw [run_enterUsermode, Cpu.iret_mem, buildUserFrame_mem]
  exact pushed_of_disjoint _ hroom hx

theorem enterUsermode_wf (hc : c.Wf) (hring : c.user = false) (hroom : 20 ≤ c.reg .esp) :
    (run alu enterUsermode c).Wf := by
  have hstart := enterUsermode_start alu hring hroom
  refine ⟨fun r => ?_, fun s => ?_, ?_, ?_, ?_, ?_⟩
  · by_cases hr : r = .esp
    · rw [hr, hstart.esp]
      exact read32_lt _ _
    · rw [run_enterUsermode, Cpu.iret_reg _ hr]
      exact buildUserFrame_reg_lt alu hc r
  · rw [hstart.seg]
    norm_num
  · rw [hstart.cs]
    norm_num
  · rw [hstart.ss]
    norm_num
  · rw [hstart.eip]
    exact read32_lt _ _
  · rw [hstart.eflags]
    norm_num

end Run

/-! ## In a run -/

section Machine

variable (alu : Alu) {lbl : Labels} {M : Machine} {entry stackTop : Nat}

theorem Machine.CallsUsermode.start (h : M.CallsUsermode entry stackTop) :
    UserStart entry stackTop (M.entersUsermode alu).cpu := by
  have hstart := enterUsermode_start alu h.ring h.room
  rwa [h.entry_arg, h.stack_arg] at hstart

/-- The frame for `iret` lies in the stack of the process. -/
theorem Machine.CallsUsermode.mem (h : M.CallsUsermode entry stackTop) {x : Nat}
    (hx : x ∉ (M.stack M.current).bytes) : (M.entersUsermode alu).cpu.mem x = M.cpu.mem x := by
  apply enterUsermode_mem alu h.room
  by_contra hcon
  exact hx (h.inside x (by omega) (by omega))

theorem Machine.CallsUsermode.code (h : M.CallsUsermode entry stackTop) (hinv : Inv lbl M) :
    M.Code (M.entersUsermode alu).cpu M.esp0 := by
  constructor
  case wf => exact enterUsermode_wf alu hinv.wf h.ring h.room
  case ring => exact fun hne => absurd h.traps hne
  case low =>
    rw [h.traps]
    simp
  case others =>
    intro p hp hne
    exact hinv.stack_kept (fun x hx => h.mem alu fun hin => hx (Or.inl hin)) hp hne
  case slots =>
    intro p hp x hx
    exact h.mem alu (Set.disjoint_left.1 (hinv.slot_stack p hp _ hinv.alive) hx)
  case frames =>
    rw [h.traps]
    simp
  case tss => exact Or.inl rfl
  case tss_user => exact fun _ => h.tss

end Machine

section Selectors

variable (sym : TableSymbols) (stubs : Stubs) (t : DescriptorTables) (esp0 : BitVec 32)

/-- The processor accepts what `enter_usermode` loads. -/
theorem userSelectors_accepted : ((bootTables sym stubs t esp0).view sym).loads 0 0x23 = true ∧
    ((bootTables sym stubs t esp0).view sym).returns 0x1B 0x23 = true := by
  have hcode : ((bootTables sym stubs t esp0).view sym).lookup 0x1B = some (flat 0xFA) :=
    bootTables_flat sym stubs t esp0 (by decide) (by decide)
  have hdata : ((bootTables sym stubs t esp0).view sym).lookup 0x23 = some (flat 0xF2) :=
    bootTables_flat sym stubs t esp0 (by decide) (by decide)
  unfold Lib.Descriptors.Tables.loads Lib.Descriptors.Tables.returns
  rw [hcode, hdata]
  decide

end Selectors

/-- From every reachable state in which it is called, `enter_usermode` gets into ring 3: the
processor accepts its selectors, the program starts at its entry and on its stack, no other
process and no byte outside of the kernel stack notices, and whatever follows, code in ring 3
has the kernel stack of its own process in the TSS, where the frame of the next interrupt is
pushed. -/
theorem usermode_entered {alu : Alu} {lbl : Labels} {img : Process.Image} {M₀ M : Machine}
    {entry stackTop : Nat} (hstart : Start M₀) (hrun : ReflTransGen (Step alu lbl img) M₀ M)
    (hcall : M.CallsUsermode entry stackTop) (sym : TableSymbols) (stubs : Stubs)
    (t : DescriptorTables) (esp0 : BitVec 32) :
    (((bootTables sym stubs t esp0).view sym).loads 0 0x23 = true ∧
      ((bootTables sym stubs t esp0).view sym).returns 0x1B 0x23 = true) ∧
    Step alu lbl img M (M.entersUsermode alu) ∧
    UserStart entry stackTop (M.entersUsermode alu).cpu ∧
    (∀ x ∉ (M.stack M.current).bytes, (M.entersUsermode alu).cpu.mem x = M.cpu.mem x) ∧
    ∀ M' g, ReflTransGen (Step alu lbl img) (M.entersUsermode alu) M' → M'.cpu.user = true →
      (M'.interrupt alu lbl g).cpu.reg .esp + 72 = (M'.stack M'.current).top ∧
      ∀ x, x < (M'.stack M'.current).top - 72 ∨ (M'.stack M'.current).top ≤ x →
        (M'.interrupt alu lbl g).cpu.mem x = M'.cpu.mem x := by
  have hstep : Step alu lbl img M (M.entersUsermode alu) :=
    Step.code (hcall.code alu (hstart.reached hrun))
  refine ⟨userSelectors_accepted sym stubs t esp0, hstep, hcall.start alu,
    fun x hx => hcall.mem alu hx, ?_⟩
  intro M' g hrun' huser
  have hinv := hstart.reached ((hrun.tail hstep).trans hrun')
  have hroom : M'.Room := fun hring => absurd (huser.symm.trans hring) (by decide)
  obtain ⟨hfits, hlt, -⟩ := hinv.frame_inside hroom
  have htop : frameTop M'.esp0 M'.cpu = (M'.stack M'.current).top := by
    rw [frameTop, if_pos huser, hinv.tss (Or.inl huser)]
  have hbase : frameBase M'.esp0 M'.cpu = (M'.stack M'.current).top - 72 := by
    rw [frameBase, htop, frameBytes, if_pos huser]
  constructor
  · have hesp : (M'.interrupt alu lbl g).cpu.reg .esp = frameBase M'.esp0 M'.cpu :=
      enter_esp alu lbl g hfits
    have hpage := (M'.stack M'.current).page_le
    rw [hesp, hbase]
    omega
  · intro x hx
    rw [← hbase, ← htop] at hx
    exact (enter_frame alu lbl g hinv.wf hfits hlt).2 x hx

/-- The call on the boot stack, for a program at 4 MB. -/
def trampoline : Machine :=
  { idleMachine with
    cpu := { idleMachine.cpu with
      mem := write32 (write32 (fun _ => 0) 0x19f004 0x400080) 0x19f008 0x504000 }
    esp0 := 0x1a0000 }

theorem trampoline_start : Start trampoline where
  wf := ⟨idleMachine_start.wf.reg, idleMachine_start.wf.seg, idleMachine_start.wf.cs,
    idleMachine_start.wf.ss, idleMachine_start.wf.eip, idleMachine_start.wf.eflags⟩
  ring := idleMachine_start.ring
  live := rfl
  traps := rfl
  slot := idleMachine_start.slot

theorem trampoline_calls : trampoline.CallsUsermode 0x400080 0x504000 where
  ring := idleMachine_start.ring
  traps := rfl
  tss := rfl
  entry_arg := by decide +kernel
  stack_arg := by decide +kernel
  room := (by decide : 20 ≤ 0x19f000)
  inside x hx hx' := by
    change 0x19f000 - 20 ≤ x at hx
    change x < 0x19f000 at hx'
    exact ⟨by omega, by omega⟩

theorem usermode_entered_trampoline :
    Step sampleAlu sampleLabels Process.sampleImage trampoline
        (trampoline.entersUsermode sampleAlu) ∧
      UserStart 0x400080 0x504000 (trampoline.entersUsermode sampleAlu).cpu := by
  have hrun : ReflTransGen (Step sampleAlu sampleLabels Process.sampleImage) trampoline trampoline :=
    ReflTransGen.refl
  obtain ⟨-, hstep, huser, -, -⟩ := usermode_entered trampoline_start hrun trampoline_calls
    ⟨0, 0, 0⟩ ⟨fun _ => 0x100000, fun _ => 0, 0⟩
    ⟨fun _ => gdtEntry 0 0 0 0, ⟨0, 0⟩, zeroTss, fun _ => noGate, ⟨0, 0⟩, ⟨0, 0⟩, ⟨0, 0⟩, 0⟩ 0
  exact ⟨hstep, huser⟩

end StakOS.Cpu
