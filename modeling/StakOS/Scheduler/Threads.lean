import Mathlib.Logic.Relation
import StakOS.Scheduler.Blocks
import StakOS.Scheduler.Runs

/-!
# Process creation and exit, statement by statement

`process_create` and `process_create_from_elf` run in the shell, and `process_exit`
runs in a process whose entry function returned, all with interrupts on.  Here they
are machines that execute one statement at a time, and the timer tick may come
before any of them; system calls run with interrupts off and are one step.

What a piece of code does next lives on the kernel stack it runs on, so there is a
program counter for each stack.  `current_process` and the stack in use are two
things: between `process_set_current` and `context_switch` they differ.
-/

namespace StakOS.Threads

open StakOS.Lib.Memory StakOS.Lib.Loop StakOS.Paging StakOS.Process
open Elf (Phdr)
open Relation (ReflTransGen)

/-! ## The calls -/

/-- The arguments of `process_create`. -/
structure Call where
  name : List UInt8
  start : Nat
  priority : Nat

/-- An image with the entry point that `elf32_validate` found. -/
structure Program where
  data : Mem
  entry : Nat

/-- The next statement of `process_create` on the control block `p`.  Assignments to
a control block that nothing points to yet are taken together. -/
inductive Build where
  /-- `proc = kmalloc(sizeof(process_t))` -/
  | kmalloc
  /-- the loop that zeroes the control block -/
  | zero (p : Nat)
  /-- `proc->cr3 = paging_create_user_pd()` -/
  | directory (p : Nat)
  /-- `proc->pid = next_pid++` and the fields behind it -/
  | fields (p : Nat)
  /-- `stack_lo = pmm_alloc_frame()` -/
  | stackLo (p : Nat)
  /-- `stack_hi = pmm_alloc_frame()` -/
  | stackHi (p lo : Nat)
  /-- the frames and the directory go back -/
  | noStack (p lo hi : Nat)
  /-- the stack fields, the initial frame and `proc->esp` -/
  | stack (p lo hi : Nat)
  /-- `scheduler_enqueue(proc)` -/
  | enqueue (p : Nat)
  /-- `if (proc_table_add(proc) != 0)` -/
  | register (p : Nat)
  /-- `scheduler_dequeue(proc)` -/
  | dequeue (p : Nat)
  /-- the frames and the directory go back -/
  | release (p : Nat)
  /-- `kfree(proc); return NULL` -/
  | free (p : Nat)

/-- The next statement of `process_create_from_elf` once the process exists, the loops
of `elf32_load` included. -/
inductive Load where
  /-- the loop over the program headers -/
  | segments (p : Nat) (phs : List Phdr)
  /-- `frame = pmm_alloc_frame()` in the page loop -/
  | page (p : Nat) (ph : Phdr) (vas : List Nat) (phs : List Phdr)
  /-- the frame is zeroed and the file's part copied -/
  | fill (p : Nat) (ph : Phdr) (va frame : Nat) (vas : List Nat) (phs : List Phdr)
  /-- `paging_map_into(pd, va, frame, flags)` -/
  | map (p : Nat) (ph : Phdr) (va frame : Nat) (vas : List Nat) (phs : List Phdr)
  /-- `frame = pmm_alloc_frame()` for the user stack -/
  | stackPage (p : Nat) (vas : List Nat)
  /-- `paging_map_into(proc->cr3, va, frame, ...)` -/
  | stackMap (p va frame : Nat) (vas : List Nat)
  /-- `proc->user_entry = entry` -/
  | userEntry (p : Nat)
  /-- `proc->user_stack_top = stack_top; return proc` -/
  | userStackTop (p : Nat)
  /-- `proc->state = PROCESS_ZOMBIE` -/
  | zombie (p : Nat)
  /-- `scheduler_mark_zombie(proc)`: `scheduler_dequeue(proc)` -/
  | dequeue (p : Nat)
  /-- `scheduler_mark_zombie(proc)`: the push on the zombie list -/
  | bury (p : Nat)

/-- The next statement of `process_exit`, down to the switch it ends in.  `pick_next`
is taken as one statement. -/
inductive Exit where
  /-- `current_process->exit_code = exit_code` -/
  | exitCode (code : Int)
  /-- `current_process->state = PROCESS_ZOMBIE` -/
  | state
  /-- `scheduler_mark_zombie(current_process)`: `scheduler_dequeue(proc)` -/
  | dequeue
  /-- `scheduler_mark_zombie(current_process)`: the push on the zombie list -/
  | bury (p : Nat)
  /-- `scheduler_yield()`: `next = pick_next()` -/
  | pick
  /-- `if (old->state == PROCESS_RUNNING) old->state = PROCESS_READY` -/
  | leave (r : Nat)
  /-- `next->state = PROCESS_RUNNING` -/
  | run (r : Nat)
  /-- `next->ticks_remaining = next->priority` -/
  | quantum (r : Nat)
  /-- `tss_set_kernel_stack(next->kernel_stack_top)` -/
  | esp0 (r : Nat)
  /-- `process_set_current(next)` -/
  | setCurrent (r : Nat)
  /-- `context_switch(old, next)` -/
  | load (old r : Nat)
  /-- `cli; hlt` -/
  | halt

/-- What the code on a kernel stack does next: one of these calls, or anything else. -/
inductive Pc where
  | free
  | build (c : Call) (f : Option Program) (b : Build)
  | load (f : Program) (l : Load)
  | exit (e : Exit)

def Pc.isFree : Pc → Bool
  | .free => true
  | _ => false

def Pc.isHalted : Pc → Bool
  | .exit .halt => true
  | _ => false

/-! ## One statement -/

def withPmm (k : Kernel) (pmm : Pmm.State) : Kernel := { k with ms := ⟨pmm, k.ms.mem⟩ }

def Build.stmt (img : Image) (c : Call) (f : Option Program) (k : Kernel) :
    Build → Outcome (Kernel × Pc)
  | .kmalloc => do
      let (heap, p) ← Kmalloc.kmalloc k.heap pcbBytes
      return ({ k with heap := heap }, if p = 0 then .free else .build c f (.zero p))
  | .zero p => .ok ((k.modPcb p fun _ => Pcb.zero).setNext p 0, .build c f (.directory p))
  | .directory p =>
      let (ms, cr3) := pagingCreateUserPd img.toStatics k.ms
      .ok ({ k with ms := ms }.modPcb p fun b => { b with cr3 := cr3 },
        .build c f (if cr3 = 0 then .free p else .fields p))
  | .fields p =>
      .ok ({ k.modPcb p fun b => newControlBlock k c.name c.priority b.cr3 with
        nextPid := add32 k.nextPid 1 }, .build c f (.stackLo p))
  | .stackLo p =>
      let (pmm, lo) := Pmm.pmmAllocFrame k.ms.pmm
      .ok (withPmm k pmm, .build c f (.stackHi p lo))
  | .stackHi p lo =>
      let (pmm, hi) := Pmm.pmmAllocFrame k.ms.pmm
      .ok (withPmm k pmm,
        .build c f (if lo = 0 ∨ hi = 0 then .noStack p lo hi else .stack p lo hi))
  | .noStack p lo hi =>
      .ok ({ k with
        ms := pagingFreePd ⟨freeIf (freeIf k.ms.pmm lo) hi, k.ms.mem⟩ (k.pcb p).cr3 },
        .build c f (.free p))
  | .stack p lo hi => .ok (giveStack img k p c.start lo hi, .build c f (.enqueue p))
  | .enqueue p => .ok (schedulerEnqueue k p, .build c f (.register p))
  | .register p =>
      match procTableAdd k p with
      | (k, true) => .ok (k, match f with
          | none => .free
          | some f => .load f (.segments p (Elf.loadable f.data)))
      | (k, false) => .ok (k, .build c f (.dequeue p))
  | .dequeue p => do
      let k ← schedulerDequeue k p
      return (k, .build c f (.release p))
  | .release p => .ok ({ k with ms := releaseFrames k.ms (k.pcb p).frames }, .build c f (.free p))
  | .free p => do
      let heap ← Kmalloc.kfree k.heap p
      return ({ k with heap := heap }, .free)

/-- The user stack is at `base`. -/
def Load.stmt (base : Nat) (f : Program) (k : Kernel) : Load → Outcome (Kernel × Pc)
  | .segments p [] => .ok (k, .load f (.stackPage p (stackPages base)))
  | .segments p (ph :: phs) => .ok (k, .load f (.page p ph (Elf.segPages ph) phs))
  | .page p _ [] phs => .ok (k, .load f (.segments p phs))
  | .page p ph (va :: vas) phs =>
      let (pmm, frame) := Pmm.pmmAllocFrame k.ms.pmm
      .ok (withPmm k pmm,
        .load f (if frame = 0 then .zombie p else .fill p ph va frame vas phs))
  | .fill p ph va frame vas phs =>
      .ok ({ k with ms := ⟨k.ms.pmm, Elf.fillPage f.data ph va k.ms.mem frame⟩ },
        .load f (.map p ph va frame vas phs))
  | .map p ph va frame vas phs => do
      let ms ← pagingMapInto k.ms (k.pcb p).cr3 va frame (Elf.segFlags ph)
      return ({ k with ms := ms }, .load f (.page p ph vas phs))
  | .stackPage p [] => .ok (k, .load f (.userEntry p))
  | .stackPage p (va :: vas) =>
      let (pmm, frame) := Pmm.pmmAllocFrame k.ms.pmm
      .ok (withPmm k pmm, .load f (if frame = 0 then .zombie p else .stackMap p va frame vas))
  | .stackMap p va frame vas => do
      let ms ← pagingMapInto k.ms (k.pcb p).cr3 va frame userStackFlags
      return ({ k with ms := ms }, .load f (.stackPage p vas))
  | .userEntry p =>
      .ok (k.modPcb p fun b => { b with userEntry := f.entry }, .load f (.userStackTop p))
  | .userStackTop p =>
      .ok (k.modPcb p fun b => { b with userStackTop := base + userStackPages * Pmm.pageSize },
        .free)
  | .zombie p => .ok (k.setState p .zombie, .load f (.dequeue p))
  | .dequeue p => do
      let k ← schedulerDequeue k p
      return (k, .load f (.bury p))
  | .bury p => .ok ({ k.setNext p k.zombieHead with zombieHead := p }, .free)

/-- `esp` is the stack pointer that `context_switch` saves. -/
def Exit.stmt (k : Kernel) (esp : Nat) : Exit → Outcome (Kernel × Pc)
  | .exitCode code =>
      .ok (k.modPcb k.current fun p => { p with exitCode := code }, .exit .state)
  | .state => .ok (k.setState k.current .zombie, .exit .dequeue)
  | .dequeue => do
      let p := k.current
      let k ← schedulerDequeue k p
      return (k, .exit (.bury p))
  | .bury p => .ok ({ k.setNext p k.zombieHead with zombieHead := p }, .exit .pick)
  | .pick => do
      let cur := k.current
      let (k, r) ← pickNext k
      return (k, .exit (if r = 0 ∨ r = cur then .halt else .leave r))
  | .leave r =>
      .ok (if (k.pcb k.current).state = .running then k.setState k.current .ready else k,
        .exit (.run r))
  | .run r => .ok (k.setState r .running, .exit (.quantum r))
  | .quantum r =>
      .ok (k.modPcb r fun p => { p with ticksRemaining := p.priority }, .exit (.esp0 r))
  | .esp0 r => .ok ({ k with tssEsp0 := (k.pcb r).kernelStackTop }, .exit (.setCurrent r))
  | .setCurrent r => .ok ({ k with current := r }, .exit (.load k.current r))
  | .load old r => .ok (contextSwitch k old r esp, .exit .halt)
  | .halt => .ok (k, .exit .halt)

/-! ## The machine -/

/-- The kernel, the process on whose kernel stack the processor is, the process on
whose stack the saved context of each process lies, and what comes next on each
stack. -/
structure Cpu where
  kernel : Kernel
  stack : Nat
  home : Nat → Nat
  pc : Nat → Pc

/-- The code on the stack in use has got to `pc`. -/
def Cpu.goto (s : Cpu) (k : Kernel) (pc : Pc) : Cpu :=
  { s with kernel := k, pc := Function.update s.pc s.stack pc }

/-- The process of a new control block will start on its own stack. -/
def Cpu.enroll (s : Cpu) : Pc → Cpu
  | .build _ _ (.zero p) =>
      { s with home := Function.update s.home p p, pc := Function.update s.pc p .free }
  | _ => s

/-- `context_switch` saves the stack in use as the context of `old`. -/
def Cpu.switch (s : Cpu) (k : Kernel) (old new : Nat) : Cpu :=
  { s with kernel := k, stack := s.home new, home := Function.update s.home old s.stack }

/-- After a call of the scheduler, which may have switched. -/
def Cpu.resume (s : Cpu) (k : Kernel) : Cpu :=
  if k.current = s.kernel.current then { s with kernel := k }
  else s.switch k s.kernel.current k.current

def Cpu.stmt (img : Image) (base : Nat) (s : Cpu) (esp : Nat) : Outcome Cpu :=
  match s.pc s.stack with
  | .free => .ok s
  | .build c f b => do
      let (k, pc) ← b.stmt img c f s.kernel
      return (s.goto k pc).enroll pc
  | .load f l => do
      let (k, pc) ← l.stmt base f s.kernel
      return s.goto k pc
  | .exit e => do
      let (k, pc) ← e.stmt s.kernel esp
      match e with
      | .load old r => return (s.goto k pc).switch k old r
      | _ => return s.goto k pc

/-- What can happen next.  `ret` is an entry function returning into `process_exit`;
`yield` and `exit` are system calls. -/
inductive Event where
  | create (name : List UInt8) (start priority : Nat)
  | createElf (name : List UInt8) (data : Mem) (priority : Nat)
  | ret (code : Int)
  | stmt (esp : Nat)
  | tick (esp : Nat)
  | yield (esp : Nat)
  | exit (code : Int) (esp : Nat)
  | work (mem : Mem)

/-- Only the shell, which is pid 0, makes processes, and it does not exit.  Nothing
interrupts `cli; hlt`. -/
def Cpu.enabled (img : Image) (s : Cpu) : Event → Bool
  | .create _ _ _ => (s.pc s.stack).isFree && decide (s.stack = img.idlePcb)
  | .createElf _ _ _ => (s.pc s.stack).isFree && decide (s.stack = img.idlePcb)
  | .ret _ => (s.pc s.stack).isFree && decide (s.stack ≠ img.idlePcb)
  | .exit _ _ => (s.pc s.stack).isFree && decide (s.stack ≠ img.idlePcb)
  | .stmt _ => !(s.pc s.stack).isFree && !(s.pc s.stack).isHalted
  | .tick _ => !(s.pc s.stack).isHalted
  | .yield _ => (s.pc s.stack).isFree
  | .work _ => (s.pc s.stack).isFree

def Cpu.act (img : Image) (base : Nat) (s : Cpu) : Event → Outcome Cpu
  | .create name start priority =>
      .ok (s.goto s.kernel (.build ⟨name, start, priority⟩ none .kmalloc))
  | .createElf name data priority =>
      match Elf.elf32Validate data with
      | none => .ok s
      | some entry => .ok (s.goto s.kernel
          (.build ⟨name, img.userModeTrampoline, priority⟩ (some ⟨data, entry⟩) .kmalloc))
  | .ret code => .ok (s.goto s.kernel (.exit (.exitCode code)))
  | .stmt esp => s.stmt img base esp
  | .tick esp => s.resume <$> schedulerTick s.kernel esp
  | .yield esp => s.resume <$> schedulerYield s.kernel esp
  | .exit code esp => s.resume <$> processExit s.kernel code esp
  | .work mem => .ok { s with kernel := { s.kernel with ms := ⟨s.kernel.ms.pmm, mem⟩ } }

/-- A step by an event that satisfies `guard`. -/
inductive Step (img : Image) (base : Nat) (guard : Cpu → Event → Prop) :
    Cpu → Cpu → Prop
  | mk {s s' : Cpu} (e : Event) (hguard : guard s e) (henabled : s.enabled img e = true)
      (hact : s.act img base e = .ok s') : Step img base guard s s'

/-- After boot the shell runs on the boot stack. -/
def boot {img : Image} (b : Boot img) : Cpu where
  kernel := b.kernel
  stack := img.idlePcb
  home := fun p => p
  pc := fun _ => .free

/-! ## The calls left alone -/

/-- Statements without a tick between them. -/
inductive Runs (img : Image) (base esp : Nat) : Cpu → Cpu → Prop
  | refl (s : Cpu) : Runs img base esp s s
  | step {s s' s'' : Cpu} (hbusy : s.enabled img (.stmt esp) = true)
      (hstmt : s.stmt img base esp = .ok s') (hrest : Runs img base esp s' s'') :
      Runs img base esp s s''

end StakOS.Threads
