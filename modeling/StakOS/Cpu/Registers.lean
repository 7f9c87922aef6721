import StakOS.Cpu.Runs
import StakOS.Scheduler.Runs

/-!
# Registers across interrupts and switches

What a process has in its registers when it goes on: after an interrupt, after a switch away
and back, and the first time it runs.  Between the two ends lies any run: handlers that are
interrupted themselves, switches to other processes and back, processes that come and go.
-/

namespace StakOS.Cpu

open StakOS.Lib.Memory StakOS.Lib.X86 Relation

variable {alu : Alu} {lbl : Labels} {img : Process.Image}

/-! ## What a run leaves alone -/

/-- The process lives and has not come out of its interrupts below depth `d`. -/
def Machine.Inside (p d : Nat) (M : Machine) : Prop := p ∈ M.live ∧ d ≤ (M.traps p).length

/-- The process lives and does not run. -/
def Machine.Waiting (p : Nat) (M : Machine) : Prop := p ∈ M.live ∧ p ≠ M.current

section Kept

variable {M M' : Machine} {p : Nat}

/-- The interrupts of a process come and go at the inner end. -/
theorem Step.traps_suffix (h : Step alu lbl img M M') (hp : p ∈ M.live) {ts : List Trap}
    (hts : ts <:+ M.traps p) (hlen : ts.length ≤ (M'.traps p).length) : ts <:+ M'.traps p := by
  cases h with
  | code h => exact hts
  | interrupt g h =>
      by_cases hcur : p = M.current
      · subst hcur
        simp only [Machine.interrupt, Function.update_self]
        exact hts.trans (List.suffix_cons _ _)
      · simpa only [Machine.interrupt, Function.update_of_ne hcur] using hts
  | @returns t us c hat hret =>
      by_cases hcur : p = M.current
      · subst hcur
        have htail : (M.resume c).traps M.current = us := by
          simp only [Machine.resume, Function.update_self, hat.traps, List.tail_cons]
        rw [htail] at hlen ⊢
        rw [hat.traps] at hts
        rcases List.suffix_cons_iff.1 hts with rfl | hts
        · rw [List.length_cons] at hlen
          omega
        · exact hts
      · simpa only [Machine.resume, Function.update_of_ne hcur] using hts
  | switch h => exact hts
  | @create q _ _ _ h =>
      have hne : p ≠ q := fun hpq => h.dead (hpq ▸ hp)
      simpa only [Machine.create, Function.update_of_ne hne] using hts
  | reap h => exact hts

theorem RunIn.traps_suffix {ts : List Trap}
    (h : RunIn alu lbl img (Machine.Inside p ts.length) M M') (hp : p ∈ M.live)
    (hts : ts <:+ M.traps p) : p ∈ M'.live ∧ ts <:+ M'.traps p := by
  induction h with
  | refl => exact ⟨hp, hts⟩
  | tail _ hstep ih => exact ⟨hstep.2.1, hstep.1.traps_suffix ih.1 ih.2 hstep.2.2⟩

theorem Step.context_eq (h : Step alu lbl img M M') (hp : M.Waiting p) :
    M'.context p = M.context p := by
  cases h with
  | code h => rfl
  | interrupt g h => rfl
  | returns hat hret => rfl
  | switch h => exact Function.update_of_ne hp.2 _ _
  | @create q _ _ _ h =>
      have hne : p ≠ q := fun hpq => h.dead (hpq ▸ hp.1)
      exact Function.update_of_ne hne _ _
  | reap h => rfl

theorem RunIn.context_eq (h : RunIn alu lbl img (Machine.Waiting p) M M') (hp : M.Waiting p) :
    M'.Waiting p ∧ M'.context p = M.context p := by
  induction h with
  | refl => exact ⟨hp, rfl⟩
  | tail _ hstep ih => exact ⟨hstep.2, (hstep.1.context_eq ih.1).trans ih.2⟩

end Kept

/-! ## The three ways to go on -/

variable (alu lbl img) in
/-- From `M₁` on, where a process is interrupted, to `M₃`, where the handler of that interrupt
executes its `ret`: the process then has its registers, but for what `int 0x80` returns. -/
def InterruptsReturn (M₀ : Machine) : Prop :=
  ∀ (M₁ M₃ : Machine) (g : Gate), ReflTransGen (Step alu lbl img) M₀ M₁ → M₁.Room →
    RunIn alu lbl img (Machine.Inside M₁.current ((M₁.traps M₁.current).length + 1))
      (M₁.interrupt alu lbl g) M₃ →
    M₃.current = M₁.current →
    (M₃.traps M₁.current).length = (M₁.traps M₁.current).length + 1 →
    M₃.cpu.reg .esp = (M₁.interrupt alu lbl g).cpu.reg .esp →
    ∃ c, handlerReturns alu lbl M₃.cpu = some c ∧
      Resumed M₁.cpu (g.result (M₁.cpu.reg .eax) (M₃.cpu.reg .eax)) c

variable (alu lbl img) in
/-- From `M₁` on, where a process calls `context_switch`, to `M₃`, where some process switches
back to it: it goes on after the call with the registers of the call. -/
def SwitchesReturn (M₀ : Machine) : Prop :=
  ∀ (M₁ M₃ : Machine) (new : Nat), ReflTransGen (Step alu lbl img) M₀ M₁ → M₁.CanSwitch new →
    RunIn alu lbl img (Machine.Waiting M₁.current) (M₁.switch alu new) M₃ →
    M₃.CanSwitch M₁.current →
    (∀ r, r ≠ .esp → (M₃.switch alu M₁.current).cpu.reg r = M₁.cpu.reg r) ∧
      (M₃.switch alu M₁.current).cpu.reg .esp = M₁.cpu.reg .esp + 4 ∧
      (M₃.switch alu M₁.current).cpu.eip = M₁.cpu.word 0 ∧
      (M₃.switch alu M₁.current).cpu.eflags = pushfdImage M₁.cpu.eflags

variable (alu lbl img) in
/-- From `M₁` on, where a process is made, to `M₃`, where some process switches to it for the
first time. -/
def ProcessesStart (M₀ : Machine) : Prop :=
  ∀ (M₁ M₃ : Machine) (p start cr3 : Nat) (st : KStack), ReflTransGen (Step alu lbl img) M₀ M₁ →
    M₁.Fresh img p st start →
    RunIn alu lbl img (Machine.Waiting p) (M₁.create img p st start cr3) M₃ → M₃.CanSwitch p →
    (M₃.switch alu p).cpu.eip = start ∧ (M₃.switch alu p).cpu.eflags = 0x202 ∧
      (∀ r, r ≠ .esp → (M₃.switch alu p).cpu.reg r = 0) ∧
      (M₃.switch alu p).cpu.word 0 = img.processExit

section Results

variable {M₀ : Machine}

theorem Start.reached (hstart : Start M₀) {M : Machine}
    (hrun : ReflTransGen (Step alu lbl img) M₀ M) : Inv lbl M := by
  induction hrun with
  | refl => exact hstart.inv lbl
  | tail _ hstep ih => exact ih.step alu hstep

theorem interruptsReturn (hstart : Start M₀) : InterruptsReturn alu lbl img M₀ := by
  intro M₁ M₃ g hrun hroom hhandler hcurrent hdepth hesp
  have hinv₁ := hstart.reached hrun
  have hinv₂ := hinv₁.interrupt alu hroom g
  have hinv₃ := hinv₂.run hhandler
  have hpushed : ⟨g, M₁.esp0, M₁.cpu⟩ :: M₁.traps M₁.current <:+
      (M₁.interrupt alu lbl g).traps M₁.current := by
    simp only [Machine.interrupt, Function.update_self, List.suffix_refl]
  -- the frame of this interrupt is still there, and it is the innermost one
  have hsuffix : ⟨g, M₁.esp0, M₁.cpu⟩ :: M₁.traps M₁.current <:+ M₃.traps M₁.current :=
    (RunIn.traps_suffix hhandler hinv₂.alive hpushed).2
  have htraps : M₃.traps M₃.current = ⟨g, M₁.esp0, M₁.cpu⟩ :: M₁.traps M₁.current := by
    rw [hcurrent]
    exact (hsuffix.eq_of_length (hdepth.symm ▸ List.length_cons)).symm
  have hbase : M₃.cpu.reg .esp = Trap.base ⟨g, M₁.esp0, M₁.cpu⟩ :=
    hesp.trans (enter_esp alu lbl g (hinv₁.frame_inside hroom).1)
  obtain ⟨c, hret, hres, -⟩ := hinv₃.handlerReturns alu ⟨htraps, hbase⟩
  exact ⟨c, hret, hres⟩

theorem switchesReturn (hstart : Start M₀) : SwitchesReturn alu lbl img M₀ := by
  intro M₁ M₃ new hrun hswitch hrun' hback
  have hinv₁ := hstart.reached hrun
  have hinv₂ := hinv₁.switch alu hswitch
  obtain ⟨-, hcontext⟩ := hrun'.context_eq ⟨hinv₁.alive, hswitch.ne.symm⟩
  have hload := (hinv₂.run hrun').loaded alu hback
  have hcaller : M₃.context M₁.current = callerContext M₁.cpu :=
    hcontext.trans (Function.update_self _ _ _)
  rw [hcaller] at hload
  refine ⟨fun r hr => ?_, ?_, hload.eip, hload.eflags⟩
  · simp only [hload.reg, callerContext, Function.update_of_ne hr]
  · simp only [hload.reg, callerContext, Function.update_self]

theorem processesStart (hstart : Start M₀) : ProcessesStart alu lbl img M₀ := by
  intro M₁ M₃ p start cr3 st hrun hfresh hrun' hswitch
  have hinv₁ := hstart.reached hrun
  have hinv₂ : Inv lbl (M₁.create img p st start cr3) := hinv₁.create hfresh
  have hne : p ≠ M₁.current := fun h => hfresh.dead (h ▸ hinv₁.alive)
  obtain ⟨-, hcontext⟩ := hrun'.context_eq ⟨Set.mem_insert _ _, hne⟩
  have hload := (hinv₂.run hrun').loaded alu hswitch
  have hfirst : M₃.context p = firstContext img start st.top :=
    hcontext.trans (Function.update_self _ _ _)
  rw [hfirst] at hload
  refine ⟨hload.eip, hload.eflags, fun r hr => ?_, hload.above.1⟩
  simp only [hload.reg, firstContext, Function.update_of_ne hr]

/-- Every process goes on with its registers, however its run is cut up by interrupts and
switches. -/
theorem registers_preserved (alu : Alu) (lbl : Labels) (img : Process.Image) (hstart : Start M₀) :
    InterruptsReturn alu lbl img M₀ ∧ SwitchesReturn alu lbl img M₀ ∧
      ProcessesStart alu lbl img M₀ :=
  ⟨interruptsReturn hstart, switchesReturn hstart, processesStart hstart⟩

end Results

/-! ## A preempted process

The idle process is interrupted by the timer, its handler switches to a new process, that
process switches back, and the handler returns. -/

/-- Kernel code that has moved its stack pointer and is about to execute the first instruction
of `context_switch(old, new)`. -/
def Machine.calls (M : Machine) (esp new : Nat) : Machine :=
  { M with
    cpu := { M.cpu with
      reg := Function.update M.cpu.reg .esp esp
      mem := write32 (write32 M.cpu.mem (esp + 4) M.current) (esp + 8) new } }

section Calls

variable {M : Machine} {esp new : Nat}

/-- Where the stack has room for the call, the call is a step and the switch can follow. -/
theorem Inv.calls (hinv : Inv lbl M) (hring : M.cpu.user = false) (hroom : 32 ≤ esp)
    (hinside : ∀ x, esp - 32 ≤ x → x < esp + 12 → x ∈ (M.stack M.current).bytes)
    (hlow : ∀ t ∈ M.traps M.current, esp + 12 ≤ t.base) (hlive : new ∈ M.live)
    (hne : new ≠ M.current) (hcurrent : M.current < 2 ^ 32) (hnew : new < 2 ^ 32) :
    Step alu lbl img M (M.calls esp new) ∧ (M.calls esp new).CanSwitch new := by
  have hout : ∀ x, x < esp + 4 ∨ esp + 12 ≤ x → (M.calls esp new).cpu.mem x = M.cpu.mem x := by
    intro x hx
    simp only [Machine.calls]
    rw [write32_of_disjoint _ _ (by omega), write32_of_disjoint _ _ (by omega)]
  have hown : ∀ x ∉ M.own, (M.calls esp new).cpu.mem x = M.cpu.mem x := by
    intro x hx
    apply hout
    by_contra hcon
    exact hx (Or.inl (hinside x (by omega) (by omega)))
  have hesp : (M.calls esp new).cpu.reg .esp = esp := by
    simp only [Machine.calls, Function.update_self]
  have hcode : M.Code (M.calls esp new).cpu M.esp0 := by
    constructor
    case wf =>
      refine ⟨fun r => ?_, hinv.wf.seg, hinv.wf.cs, hinv.wf.ss, hinv.wf.eip, hinv.wf.eflags⟩
      by_cases hr : r = .esp
      · have hlast := (M.stack M.current).lt _ (hinside esp (by omega) (by omega))
        rw [hr, hesp]
        omega
      · simpa only [Machine.calls, Function.update_of_ne hr] using hinv.wf.reg r
    case ring => exact fun _ => hring
    case low =>
      intro t ht
      have := hlow t ht
      omega
    case others => exact fun p hp hcur => hinv.stack_kept hown hp hcur
    case slots =>
      intro p hp x hx
      apply hout
      by_contra hcon
      exact Set.disjoint_left.1 (hinv.slot_stack p hp _ hinv.alive) hx
        (hinside x (by omega) (by omega))
    case frames =>
      intro t ht x hx
      have := hlow t ht
      apply hout
      rcases hx with hx | hx
      · omega
      · omega
    case tss => exact Or.inl rfl
    case tss_user => exact fun huser => absurd (hring.symm.trans huser) (by decide)
  refine ⟨Step.code hcode, ⟨hring, hlive, hne, ?_, ?_, ?_, ?_, ?_⟩⟩
  · simp only [Cpu.word, hesp]
    simp only [Machine.calls]
    rw [read32_write32_of_disjoint _ _ (by omega), read32_write32_same _ _ hcurrent]
  · simp only [Cpu.word, hesp]
    exact read32_write32_same _ _ hnew
  · rw [hesp]
    exact hroom
  · rw [hesp]
    exact hinside
  · rw [hesp]
    exact hlow

/-- Kernel code that has moved its stack pointer. -/
def Machine.atEsp (M : Machine) (esp : Nat) : Machine :=
  { M with cpu := { M.cpu with reg := Function.update M.cpu.reg .esp esp } }

theorem Inv.atEsp (hinv : Inv lbl M) (hring : M.cpu.user = false) (hesp : esp < 2 ^ 32)
    (hlow : ∀ t ∈ M.traps M.current, esp ≤ t.base) : Step alu lbl img M (M.atEsp esp) := by
  have hreg : (M.atEsp esp).cpu.reg .esp = esp := by
    simp only [Machine.atEsp, Function.update_self]
  suffices hcode : M.Code (M.atEsp esp).cpu M.esp0 from Step.code hcode
  constructor
  case wf =>
    refine ⟨fun r => ?_, hinv.wf.seg, hinv.wf.cs, hinv.wf.ss, hinv.wf.eip, hinv.wf.eflags⟩
    by_cases hr : r = .esp
    · rw [hr, hreg]
      exact hesp
    · simpa only [Machine.atEsp, Function.update_of_ne hr] using hinv.wf.reg r
  case ring => exact fun _ => hring
  case low =>
    intro t ht
    rw [hreg]
    exact hlow t ht
  case others => exact fun _ _ _ _ _ => rfl
  case slots => exact fun _ _ _ _ => rfl
  case frames => exact fun _ _ _ _ => rfl
  case tss => exact Or.inl rfl
  case tss_user => exact fun huser => absurd (hring.symm.trans huser) (by decide)

end Calls

section Sample

def sampleAlu : Alu where
  add e _ _ := e
  sub _ a b := if a = b then 64 else 0
  sub_zero_flag _ a b := by
    by_cases h : a = b
    · rw [if_pos h, decide_eq_true h]
      decide
    · rw [if_neg h, decide_eq_false h]
      decide

def sampleLabels : Labels where
  stub g := 0x100000 + g.intNo
  irqHandler := 0x101000
  syscallHandler := 0x102000
  irqResume := 0x100100
  syscallResume := 0x100200
  irqHandler_lt := by decide
  syscallHandler_lt := by decide
  irqResume_lt := by decide
  syscallResume_lt := by decide
  resume_ne := by decide

/-- The boot stack of `boot.asm`. -/
def bootStack : KStack where
  bytes := {x | 0x19c000 ≤ x ∧ x < 0x1a0000}
  top := 0x1a0000
  page_le := by decide
  page x hx hx' := ⟨by omega, hx'⟩
  lt x hx := by
    have := hx.2
    omega

def idleMachine : Machine where
  cpu :=
    { reg := fun
        | .eax => 1
        | .ecx => 2
        | .edx => 3
        | .ebx => 4
        | .esp => 0x19f000
        | .ebp => 5
        | .esi => 6
        | .edi => 7
      seg := fun _ => 0x10
      cs := 0x08
      ss := 0x10
      eip := 0x103000
      eflags := 0x202
      cr3 := 0x180000
      mem := fun _ => 0 }
  current := 0x190000
  esp0 := 0
  live := {0x190000}
  stack := fun _ => bootStack
  traps := fun _ => []
  context := fun _ => ⟨fun _ => 0, 0, 0, []⟩

theorem idleMachine_start : Start idleMachine where
  wf := by
    refine ⟨fun r => ?_, fun _ => (by decide : 0x10 < 2 ^ 16), ?_, ?_, ?_, ?_⟩
    · cases r <;> decide
    all_goals decide
  ring := by decide
  live := rfl
  traps := rfl
  slot := by
    apply Set.disjoint_left.2
    intro x hx hx'
    rw [mem_slot] at hx
    change _ + 40 ≤ x ∧ x < 0x190000 + 48 at hx
    change 0x19c000 ≤ x ∧ _ at hx'
    omega

def workerStack : KStack := kernelStack 0x400000 0x401000 (by decide) (by decide)

/-- A process whose control block is at 3 MB. -/
def withWorker : Machine :=
  idleMachine.create Process.sampleImage 0x300000 workerStack 0x104000 0x500000

theorem worker_fresh :
    idleMachine.Fresh Process.sampleImage 0x300000 workerStack 0x104000 := by
  have hidle : ∀ {q : Nat}, q ∈ idleMachine.live → q = 0x190000 := fun hq => hq
  have hslot : ∀ {x : Nat}, x ∈ slot 0x300000 → 0x300028 ≤ x ∧ x < 0x300030 := fun hx => hx
  have hslotIdle : ∀ {x : Nat}, x ∈ slot 0x190000 → 0x190028 ≤ x ∧ x < 0x190030 := fun hx => hx
  have hstack : ∀ {x : Nat}, x ∈ workerStack.bytes → 0x400000 ≤ x := by
    intro x hx
    rcases hx with hx | hx
    · exact hx.1
    · exact Nat.le_trans (by decide) hx.1
  have hboot : ∀ {q x : Nat}, x ∈ (idleMachine.stack q).bytes → 0x19c000 ≤ x ∧ x < 0x1a0000 :=
    fun hx => hx
  constructor
  case dead => exact fun h => absurd (hidle h) (by decide)
  case stack =>
    intro q _
    refine Set.disjoint_left.2 fun x hx hx' => ?_
    have h₁ := hstack hx
    have h₂ := hboot hx'
    omega
  case stack_slot =>
    intro q hq
    rw [hidle hq]
    refine Set.disjoint_left.2 fun x hx hx' => ?_
    have h₁ := hslotIdle hx
    have h₂ := hstack hx'
    omega
  case slot_stack =>
    intro q _
    refine Set.disjoint_left.2 fun x hx hx' => ?_
    have h₁ := hslot hx
    have h₂ := hboot hx'
    omega
  case slots =>
    intro q hq
    rw [hidle hq]
    refine Set.disjoint_left.2 fun x hx hx' => ?_
    have h₁ := hslot hx
    have h₂ := hslotIdle hx'
    omega
  case own =>
    refine Set.disjoint_left.2 fun x hx hx' => ?_
    have h₁ := hslot hx
    have h₂ := hstack hx'
    omega
  case start_lt => decide
  case exit_lt => decide

def timerTick : Machine := withWorker.interrupt sampleAlu sampleLabels Gate.timer

/-- In the handler, at the call of `context_switch`. -/
def preempting : Machine := timerTick.calls 0x19e000 0x300000

def workerRuns : Machine := preempting.switch sampleAlu 0x300000

def workerYields : Machine := workerRuns.calls 0x401800 0x190000

def idleAgain : Machine := workerYields.switch sampleAlu 0x190000

/-- The handler has come to its `ret`. -/
def handlerDone : Machine := idleAgain.atEsp 0x19efc0

theorem withWorker_room : withWorker.Room := by
  intro _
  refine ⟨(by decide : 64 ≤ 0x19f000), fun x hx hx' => ?_⟩
  change 0x19f000 - 64 ≤ x at hx
  change x < 0x19f000 at hx'
  exact ⟨by omega, by omega⟩

/-- The idle process has its registers back after the switches, and the new process starts
with a clean set. -/
theorem registers_preserved_preempted :
    (∃ c, handlerReturns sampleAlu sampleLabels handlerDone.cpu = some c ∧
      Resumed withWorker.cpu 1 c) ∧
    (∀ r, r ≠ .esp → idleAgain.cpu.reg r = preempting.cpu.reg r) ∧
    workerRuns.cpu.eip = 0x104000 ∧ workerRuns.cpu.word 0 = Process.sampleImage.processExit := by
  obtain ⟨hints, hswitches, hstarts⟩ :=
    registers_preserved sampleAlu sampleLabels Process.sampleImage idleMachine_start
  have hinv₁ : Inv sampleLabels withWorker := (idleMachine_start.inv _).create worker_fresh
  have hinv₂ : Inv sampleLabels timerTick := hinv₁.interrupt _ withWorker_room _
  obtain ⟨hcall, hcan⟩ : Step sampleAlu sampleLabels Process.sampleImage timerTick preempting ∧
      preempting.CanSwitch 0x300000 := by
    refine hinv₂.calls (enter_user _ _ _) (by decide) (fun x hx hx' => ?_) (fun t ht => ?_)
      (Or.inl rfl) (by decide) (by decide) (by decide)
    · exact ⟨by omega, by omega⟩
    · rw [List.mem_singleton.1 ht]
      decide
  have hinv₃ := hinv₂.step _ hcall
  have hinv₄ : Inv sampleLabels workerRuns := hinv₃.switch _ hcan
  obtain ⟨hcall', hcan'⟩ : Step sampleAlu sampleLabels Process.sampleImage workerRuns workerYields ∧
      workerYields.CanSwitch 0x190000 := by
    refine hinv₄.calls (hinv₃.switch_user _ hcan) (by decide) (fun x hx hx' => ?_) (fun t ht => ?_)
      (Or.inr rfl) (by decide) (by decide) (by decide)
    · exact Or.inr ⟨by omega, by omega⟩
    · exact absurd ht List.not_mem_nil
  have hinv₅ := hinv₄.step _ hcall'
  have hinv₆ : Inv sampleLabels idleAgain := hinv₅.switch _ hcan'
  have hdone : Step sampleAlu sampleLabels Process.sampleImage idleAgain handlerDone := by
    refine hinv₆.atEsp (hinv₅.switch_user _ hcan') (by decide) fun t ht => ?_
    rw [List.mem_singleton.1 ht]
    decide
  have hcreate : ReflTransGen (Step sampleAlu sampleLabels Process.sampleImage) idleMachine
      withWorker := ReflTransGen.single (Step.create worker_fresh)
  refine ⟨?_, ?_, ?_⟩
  · have hlive : ∀ {M : Machine}, M.live = withWorker.live → M.traps = timerTick.traps →
        M.Inside 0x190000 1 := fun hl ht => ⟨hl ▸ Or.inr rfl, ht ▸ le_rfl⟩
    refine hints withWorker handlerDone Gate.timer hcreate withWorker_room ?_ rfl rfl ?_
    · apply ReflTransGen.tail _ ⟨hdone, hlive rfl rfl⟩
      apply ReflTransGen.tail _ ⟨Step.switch hcan', hlive rfl rfl⟩
      apply ReflTransGen.tail _ ⟨hcall', hlive rfl rfl⟩
      apply ReflTransGen.tail _ ⟨Step.switch hcan, hlive rfl rfl⟩
      exact ReflTransGen.single ⟨hcall, hlive rfl rfl⟩
    · have hdone : handlerDone.cpu.reg .esp = 0x19efc0 := by
        simp only [handlerDone, Machine.atEsp, Function.update_self]
      have htick : timerTick.cpu.reg .esp = 0x19efc0 :=
        (enter_esp _ _ _ (hinv₁.frame_inside withWorker_room).1).trans (by decide)
      exact hdone.trans htick.symm
  · have hreach := (hcreate.tail (Step.interrupt Gate.timer withWorker_room)).tail hcall
    refine (hswitches preempting workerYields 0x300000 hreach hcan ?_ hcan').1
    exact ReflTransGen.single ⟨hcall', Or.inr rfl, by decide⟩
  · have hwaits : RunIn sampleAlu sampleLabels Process.sampleImage (Machine.Waiting 0x300000)
        withWorker preempting :=
      (ReflTransGen.single ⟨Step.interrupt Gate.timer withWorker_room, Or.inl rfl, by decide⟩).tail
        ⟨hcall, Or.inl rfl, by decide⟩
    obtain ⟨heip, -, -, hexit⟩ := hstarts idleMachine preempting 0x300000 0x104000 0x500000
      workerStack ReflTransGen.refl worker_fresh hwaits hcan
    exact ⟨heip, hexit⟩

end Sample

end StakOS.Cpu
