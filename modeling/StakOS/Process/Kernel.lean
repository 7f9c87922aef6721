import StakOS.Kmalloc.Heap
import StakOS.Elf.Load

/-!
# Processes and the scheduler

`kernel/process.c` and `kernel/scheduler.c`.  A process is named by the address
of its control block; the `next` field of the control blocks, which threads both
the run queue and the zombie list, is kept as a map of its own.  Every function
here runs with interrupts off or is taken as one step.
-/

namespace StakOS.Process

open StakOS.Lib.Memory StakOS.Lib.Loop StakOS.Paging

def maxProcesses : Nat := 16

/-- `sizeof(process_t)`. -/
def pcbBytes : Nat := 188

/-- Addresses that the linker fixes. -/
structure Image extends Statics where
  idlePcb : Nat
  stackTop : Nat
  processExit : Nat
  userModeTrampoline : Nat
  idlePcb_pos : 0 < idlePcb
  idlePcb_end : idlePcb + pcbBytes ≤ kernelEnd

/-- `process_state_t`. -/
inductive PState where
  | ready
  | running
  | blocked
  | zombie
  | dead
deriving DecidableEq

structure FdEntry where
  inUse : Bool
  fileIdx : Int
  offset : Nat
deriving DecidableEq

structure Pcb where
  pid : Nat
  name : List UInt8
  state : PState
  esp : Nat
  cr3 : Nat
  parentPid : Nat
  priority : Nat
  ticksRemaining : Nat
  sleepTicks : Nat
  exitCode : Int
  kernelStackTop : Nat
  stackFrameLo : Nat
  stackFrameHi : Nat
  userEntry : Nat
  userStackTop : Nat
  fds : Nat → FdEntry

/-- A control block of zero bytes. -/
def Pcb.zero : Pcb where
  pid := 0
  name := []
  state := .ready
  esp := 0
  cr3 := 0
  parentPid := 0
  priority := 0
  ticksRemaining := 0
  sleepTicks := 0
  exitCode := 0
  kernelStackTop := 0
  stackFrameLo := 0
  stackFrameHi := 0
  userEntry := 0
  userStackTop := 0
  fds := fun _ => ⟨false, 0, 0⟩

structure Kernel where
  ms : Paging.State
  heap : Kmalloc.Heap
  pcb : Nat → Pcb
  next : Nat → Nat
  nextPid : Nat
  current : Nat
  procTable : Nat → Nat
  queueHead : Nat
  queueTail : Nat
  queueSize : Nat
  zombieHead : Nat
  tssEsp0 : Nat
  cr3 : Nat

/-- Assign fields of one control block. -/
def Kernel.modPcb (k : Kernel) (proc : Nat) (f : Pcb → Pcb) : Kernel :=
  { k with pcb := Function.update k.pcb proc (f (k.pcb proc)) }

def Kernel.setState (k : Kernel) (proc : Nat) (st : PState) : Kernel :=
  k.modPcb proc fun p => { p with state := st }

def Kernel.setNext (k : Kernel) (proc nxt : Nat) : Kernel :=
  { k with next := Function.update k.next proc nxt }

section Fields

variable (k : Kernel) (proc nxt : Nat) (f : Pcb → Pcb)

@[simp] theorem modPcb_ms : (k.modPcb proc f).ms = k.ms := rfl
@[simp] theorem modPcb_heap : (k.modPcb proc f).heap = k.heap := rfl
theorem modPcb_pcb_self : (k.modPcb proc f).pcb proc = f (k.pcb proc) := by
  simp only [Kernel.modPcb, Function.update_self]
@[simp] theorem setNext_ms : (k.setNext proc nxt).ms = k.ms := rfl
@[simp] theorem setNext_heap : (k.setNext proc nxt).heap = k.heap := rfl

end Fields

/-! ## The process table -/

/-- The first free slot is taken; the result says whether there was one. -/
def procTableAdd (k : Kernel) (proc : Nat) : Kernel × Bool :=
  match (List.range maxProcesses).find? fun i => decide (k.procTable i = 0) with
  | some i => ({ k with procTable := Function.update k.procTable i proc }, true)
  | none => (k, false)

def procTableRemove (k : Kernel) (proc : Nat) : Kernel :=
  match (List.range maxProcesses).find? fun i => decide (k.procTable i = proc) with
  | some i => { k with procTable := Function.update k.procTable i 0 }
  | none => k

/-- The process with a pid, or 0. -/
def processLookup (k : Kernel) (pid : Nat) : Nat :=
  match (List.range maxProcesses).find? fun i =>
      decide (k.procTable i ≠ 0) && decide ((k.pcb (k.procTable i)).pid = pid) with
  | some i => k.procTable i
  | none => 0

/-! ## The run queue -/

def schedulerEnqueue (k : Kernel) (proc : Nat) : Kernel :=
  if proc = 0 then k
  else
    let k := (k.setState proc .ready).setNext proc 0
    if k.queueHead = 0 then
      { k with queueHead := proc, queueTail := proc, queueSize := add32 k.queueSize 1 }
    else
      { k.setNext k.queueTail proc with queueTail := proc, queueSize := add32 k.queueSize 1 }

/-- Take `cur` out of the queue, `prev` being the process before it. -/
def unlink (k : Kernel) (prev cur : Nat) : Kernel :=
  let k := if prev ≠ 0 then k.setNext prev (k.next cur) else { k with queueHead := k.next cur }
  let k := if cur = k.queueTail then { k with queueTail := prev } else k
  { k.setNext cur 0 with queueSize := sub32 k.queueSize 1 }

def dequeueTurn (k : Kernel) (proc : Nat) : Nat × Nat → Turn (Nat × Nat) Kernel
  | (prev, cur) =>
      if cur ≠ 0 then
        if cur = proc then .done (unlink k prev cur) else .again (cur, k.next cur)
      else .done k

def schedulerDequeue (k : Kernel) (proc : Nat) : Outcome Kernel :=
  if proc = 0 ∨ k.queueHead = 0 then .ok k
  else loop (dequeueTurn k proc) turns (0, k.queueHead)

def schedulerMarkZombie (k : Kernel) (proc : Nat) : Outcome Kernel :=
  if proc = 0 then .ok k
  else do
    let k ← schedulerDequeue k proc
    return { k.setNext proc k.zombieHead with zombieHead := proc }

/-- Move the head of the queue to its tail. -/
def rotate (k : Kernel) : Kernel :=
  let nxt := k.queueHead
  let k := { k with queueHead := k.next nxt }
  let k := if k.queueHead = 0 then { k with queueTail := 0 } else k
  let k := k.setNext nxt 0
  if k.queueHead = 0 then { k with queueHead := nxt, queueTail := nxt }
  else { k.setNext k.queueTail nxt with queueTail := nxt }

def pickTurn : Kernel × Nat → Turn (Kernel × Nat) (Kernel × Nat)
  | (k, checked) =>
      if checked < k.queueSize then
        let nxt := k.queueHead
        let k := rotate k
        if (k.pcb nxt).state = .ready then .done (k, nxt) else .again (k, checked + 1)
      else .done (k, 0)

/-- The next process to run, or 0. -/
def pickNext (k : Kernel) : Outcome (Kernel × Nat) :=
  if k.queueHead = 0 then .ok (k, 0) else loop pickTurn turns (k, 0)

/-! ## Switching -/

/-- `context_switch`, as far as the control blocks and CR3 go: `esp` is the stack
pointer of the process that is left. -/
def contextSwitch (k : Kernel) (old new esp : Nat) : Kernel :=
  let k := k.modPcb old fun p => { p with esp := esp }
  { k with cr3 := (k.pcb new).cr3 }

def doSwitch (k : Kernel) (nxt esp : Nat) : Kernel :=
  let old := k.current
  if old = nxt then k
  else
    let k := if (k.pcb old).state = .running then k.setState old .ready else k
    let k := k.setState nxt .running
    let k := k.modPcb nxt fun p => { p with ticksRemaining := p.priority }
    let k := { k with tssEsp0 := (k.pcb nxt).kernelStackTop, current := nxt }
    contextSwitch k old nxt esp

def schedulerYield (k : Kernel) (esp : Nat) : Outcome Kernel := do
  let cur := k.current
  let (k, nxt) ← pickNext k
  if nxt = 0 ∨ nxt = cur then return k else return doSwitch k nxt esp

/-! ## The end of a process -/

def processExit (k : Kernel) (code : Int) (esp : Nat) : Outcome Kernel := do
  let cur := k.current
  let k := k.modPcb cur fun p => { p with exitCode := code, state := .zombie }
  let k ← schedulerMarkZombie k cur
  let k ← schedulerYield k esp
  -- a yield that does not switch falls through to `cli; hlt`
  if k.current = cur then .error .halts else return k

def processFree (k : Kernel) (proc : Nat) : Outcome Kernel :=
  if proc = 0 then .ok k
  else
    let k := procTableRemove k proc
    let pmm := Pmm.pmmFreeFrame k.ms.pmm (k.pcb proc).stackFrameLo
    let pmm := Pmm.pmmFreeFrame pmm (k.pcb proc).stackFrameHi
    let ms := pagingFreePd ⟨pmm, k.ms.mem⟩ (k.pcb proc).cr3
    do
      let heap ← Kmalloc.kfree k.heap proc
      return { k with ms := ms, heap := heap }

def isPidAlive (k : Kernel) (pid : Nat) : Bool :=
  if pid = 0 then false
  else
    let p := processLookup k pid
    if p = 0 then false
    else decide ((k.pcb p).state ≠ .zombie) && decide ((k.pcb p).state ≠ .dead)

/-- One turn of the reaper with its cursor on `cur`, `prev` being the last zombie
it left in the list. -/
def reapTurn : Kernel × Nat × Nat → Turn (Kernel × Nat × Nat) (Outcome Kernel)
  | (k, prev, cur) =>
      if cur ≠ 0 then
        if !isPidAlive k (k.pcb cur).parentPid then
          let after := k.next cur
          let k := if prev ≠ 0 then k.setNext prev after else { k with zombieHead := after }
          match processFree k cur with
          | .ok k => .again (k, prev, after)
          | .error e => .done (.error e)
        else .again (k, cur, k.next cur)
      else .done (.ok k)

def schedulerReapZombies (k : Kernel) : Outcome Kernel := do
  let r ← loop reapTurn turns (k, 0, k.zombieHead)
  r

/-! ## The timer -/

def wake (p : Pcb) : Pcb :=
  if p.state = .blocked ∧ p.sleepTicks > 0 then
    { p with
      sleepTicks := p.sleepTicks - 1
      state := if p.sleepTicks - 1 = 0 then .ready else p.state }
  else p

def wakeTurn : Kernel × Nat → Turn (Kernel × Nat) Kernel
  | (k, p) => if p ≠ 0 then .again (k.modPcb p wake, k.next p) else .done k

def schedulerTick (k : Kernel) (esp : Nat) : Outcome Kernel :=
  let cur := k.current
  if cur = 0 then .ok k
  else do
    let k ← schedulerReapZombies k
    let k ← loop wakeTurn turns (k, k.queueHead)
    let k := if (k.pcb cur).ticksRemaining > 0 then
        k.modPcb cur fun p => { p with ticksRemaining := p.ticksRemaining - 1 }
      else k
    if (k.pcb cur).ticksRemaining = 0 ∧ k.queueSize > 0 then
      let (k, nxt) ← pickNext k
      if nxt ≠ 0 ∧ nxt ≠ cur then return doSwitch k nxt esp
      else return k.modPcb cur fun p => { p with ticksRemaining := p.priority }
    else return k

end StakOS.Process
