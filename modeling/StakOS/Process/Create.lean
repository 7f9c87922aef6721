import StakOS.Process.Kernel

/-!
# Making processes

`process_init`, `process_create` and `process_create_from_elf`, with the
rollback on every failure path.
-/

namespace StakOS.Process

open StakOS.Lib.Memory StakOS.Lib.Loop StakOS.Paging

/-- `kstrncpy(dst, src, n)` on the characters before the terminating zero. -/
def kstrncpy (src : List UInt8) (n : Nat) : List UInt8 := (src.takeWhile (· ≠ 0)).take (n - 1)

/-- The characters of "idle". -/
def idleName : List UInt8 := [0x69, 0x64, 0x6c, 0x65]

def idleControlBlock (img : Image) (k : Kernel) : Pcb :=
  { k.pcb img.idlePcb with
    pid := k.nextPid
    state := .running
    parentPid := 0
    priority := 0
    ticksRemaining := 1
    sleepTicks := 0
    exitCode := 0
    name := kstrncpy idleName 32
    esp := 0
    kernelStackTop := img.stackTop
    cr3 := img.kernelPd }

def processInit (img : Image) (k : Kernel) : Kernel :=
  let k := { k.modPcb img.idlePcb fun _ => idleControlBlock img k with
    nextPid := add32 k.nextPid 1
    current := img.idlePcb }
  (procTableAdd (k.setNext img.idlePcb 0) img.idlePcb).1

def schedulerInit (k : Kernel) : Kernel :=
  let k := { k with queueHead := 0, queueTail := 0, queueSize := 0 }
  if k.current = 0 then k else (schedulerEnqueue k k.current).setState k.current .running

/-! ## `process_create` -/

/-- `*(--stack) = w` for each word in turn. -/
def pushWords (m : Mem) (top : Nat) : List Nat → Mem
  | [] => m
  | w :: ws => pushWords (write32 m (top - 4) w) (top - 4) ws

theorem pushWords_eq_pushed (m : Mem) (top : Nat) (ws : List Nat) :
    pushWords m top ws = pushed m top ws := by
  induction ws generalizing m top with
  | nil => rfl
  | cons w ws ih => exact ih _ _

/-- What a process wakes up to the first time it is scheduled. -/
def initialStack (img : Image) (start : Nat) : List Nat :=
  [img.processExit, start, 0x202, 0, 0, 0, 0, 0, 0, 0]

/-- The fields `process_create` assigns before it has a stack. -/
def newControlBlock (k : Kernel) (name : List UInt8) (priority cr3 : Nat) : Pcb :=
  let prio := if priority = 0 then 1 else priority
  { Pcb.zero with
    cr3 := cr3
    pid := k.nextPid
    parentPid := if k.current ≠ 0 then (k.pcb k.current).pid else 0
    state := .ready
    priority := prio
    ticksRemaining := prio
    name := kstrncpy name 32 }

/-- The stack of the new process, in the two frames just allocated. -/
def giveStack (img : Image) (k : Kernel) (proc start lo hi : Nat) : Kernel :=
  let top := hi + Pmm.pageSize
  { k.modPcb proc fun p =>
      { p with
        stackFrameLo := lo
        stackFrameHi := hi
        kernelStackTop := top
        esp := top - 40 } with
    ms := ⟨k.ms.pmm, pushWords k.ms.mem top (initialStack img start)⟩ }

/-- Free a frame unless the allocation had failed. -/
def freeIf (pmm : Pmm.State) (frame : Nat) : Pmm.State :=
  if frame = 0 then pmm else Pmm.pmmFreeFrame pmm frame

/-- Put the process on the run queue and into the table, or take everything back. -/
def registerProcess (k : Kernel) (proc : Nat) : Outcome (Kernel × Nat) :=
  let k := schedulerEnqueue k proc
  match procTableAdd k proc with
  | (k, true) => .ok (k, proc)
  | (k, false) => do
      let k ← schedulerDequeue k proc
      let pmm := Pmm.pmmFreeFrame k.ms.pmm (k.pcb proc).stackFrameLo
      let pmm := Pmm.pmmFreeFrame pmm (k.pcb proc).stackFrameHi
      let ms := pagingFreePd ⟨pmm, k.ms.mem⟩ (k.pcb proc).cr3
      let heap ← Kmalloc.kfree k.heap proc
      return ({ k with ms := ms, heap := heap }, 0)

/-- The process behind a control block that has a page directory. -/
def buildProcess (img : Image) (k : Kernel) (proc start cr3 : Nat) : Outcome (Kernel × Nat) :=
  let (pmm, lo) := Pmm.pmmAllocFrame k.ms.pmm
  let (pmm, hi) := Pmm.pmmAllocFrame pmm
  if lo = 0 ∨ hi = 0 then do
    let ms := pagingFreePd ⟨freeIf (freeIf pmm lo) hi, k.ms.mem⟩ cr3
    let heap ← Kmalloc.kfree k.heap proc
    return ({ k with ms := ms, heap := heap }, 0)
  else registerProcess (giveStack img { k with ms := ⟨pmm, k.ms.mem⟩ } proc start lo hi) proc

/-- The new process, or 0. -/
def processCreate (img : Image) (k : Kernel) (name : List UInt8) (start priority : Nat) :
    Outcome (Kernel × Nat) := do
  let (heap, proc) ← Kmalloc.kmalloc k.heap pcbBytes
  let k := { k with heap := heap }
  if proc = 0 then return (k, 0)
  else
    let k := (k.modPcb proc fun _ => Pcb.zero).setNext proc 0
    let (ms, cr3) := pagingCreateUserPd img.toStatics k.ms
    let k := { k with ms := ms }
    if cr3 = 0 then
      let heap ← Kmalloc.kfree k.heap proc
      return ({ k with heap := heap }, 0)
    else
      let k := { k.modPcb proc fun _ => newControlBlock k name priority cr3 with
        nextPid := add32 k.nextPid 1 }
      buildProcess img k proc start cr3

/-! ## `process_create_from_elf` -/

def userStackPages : Nat := 4
def userStackBase : Nat := 0x500000

def userStackFlags : Nat := ptePresent ||| pteWritable ||| pteUser

/-- The pages of the user stack at `base`. -/
def stackPages (base : Nat) : List Nat :=
  (List.range userStackPages).map fun i => base + i * Pmm.pageSize

/-- Map the stack pages in turn; the result says whether all were mapped. -/
def mapStack (pd : Nat) : List Nat → State → Outcome (State × Bool)
  | [], s => .ok (s, true)
  | va :: vas, s =>
      let (pmm, frame) := Pmm.pmmAllocFrame s.pmm
      if frame = 0 then .ok (⟨pmm, s.mem⟩, false)
      else do
        let s ← pagingMapInto ⟨pmm, s.mem⟩ pd va frame userStackFlags
        mapStack pd vas s

/-- A process that could not be loaded is left to the reaper. -/
def abandon (k : Kernel) (proc : Nat) : Outcome (Kernel × Nat) := do
  let k ← schedulerMarkZombie (k.setState proc .zombie) proc
  return (k, 0)

/-- The loading part, on a process that exists already. -/
def loadProcess (base : Nat) (k : Kernel) (proc elfEntry : Nat) (data : Mem) :
    Outcome (Kernel × Nat) := do
  let (ms, loaded) ← Elf.elf32Load data k.ms (k.pcb proc).cr3
  let k := { k with ms := ms }
  if !loaded then abandon k proc
  else
    let (ms, mapped) ← mapStack (k.pcb proc).cr3 (stackPages base) k.ms
    let k := { k with ms := ms }
    if !mapped then abandon k proc
    else
      return (k.modPcb proc fun p =>
        { p with
          userEntry := elfEntry
          userStackTop := base + userStackPages * Pmm.pageSize }, proc)

/-- `process_create_from_elf` with the user stack at `base`. -/
def createFromElfAt (img : Image) (base : Nat) (k : Kernel) (name : List UInt8) (data : Mem)
    (priority : Nat) : Outcome (Kernel × Nat) :=
  match Elf.elf32Validate data with
  | none => .ok (k, 0)
  | some elfEntry => do
      let (k, proc) ← processCreate img k name img.userModeTrampoline priority
      if proc = 0 then return (k, 0) else loadProcess base k proc elfEntry data

def processCreateFromElf (img : Image) (k : Kernel) (name : List UInt8) (data : Mem)
    (priority : Nat) : Outcome (Kernel × Nat) :=
  createFromElfAt img userStackBase k name data priority

end StakOS.Process
