import StakOS.Drivers.Vga
import StakOS.Process.Create
import StakOS.Ramfs.Table

/-!
# System calls

`kernel/syscall.c`.  The handler runs in ring 0 with interrupts off, in the page
directory of the caller: it reaches the bytes behind a pointer through the walk of the
MMU, and neither the user flag nor, as `CR0.WP` is clear, the writable flag of a page
stops it.  A page that is not present stops the machine with a panic.

A reply carries, besides what the code computes, the accesses made through pointers
that the caller supplied.
-/

namespace StakOS.Syscall

open StakOS.Lib.Memory StakOS.Lib.Loop StakOS.Paging StakOS.Process StakOS.Ramfs
open Drivers.Vga (Screen vgaPutchar vgaSetColor kprint kprintInt ascii)

def maxFdsPerProcess : Nat := 8

/-- `(uint32_t)-1` -/
def minusOne : Nat := 2 ^ 32 - 1

/-- `(int32_t)n` -/
def int32 (n : Nat) : Int := if n < 2 ^ 31 then n else n - 2 ^ 32

namespace Nr

def sysWrite : Nat := 0
def sysExit : Nat := 1
def sysYield : Nat := 2
def sysOpen : Nat := 3
def sysRead : Nat := 4
def sysClose : Nat := 5

end Nr

/-- The registers of the caller that the handler looks at. -/
structure Registers where
  eax : Nat
  ebx : Nat
  ecx : Nat
  edx : Nat

structure System where
  kernel : Kernel
  files : Table
  screen : Screen

/-- An access through a pointer of the caller. -/
inductive Access where
  | load (va : Nat)
  | store (va : Nat) (b : UInt8)
deriving DecidableEq

structure Reply where
  system : System
  eax : Nat
  touched : List Access

/-! ## Memory through the page directory -/

def pageFault : Stop := .kpanic "Page fault"

def load (k : Kernel) (va : Nat) : Outcome UInt8 :=
  match translate k.ms.mem k.cr3 va with
  | some a => .ok (k.ms.mem a)
  | none => .error pageFault

def store (k : Kernel) (va : Nat) (b : UInt8) : Outcome Kernel :=
  match translate k.ms.mem k.cr3 va with
  | some a => .ok { k with ms := ⟨k.ms.pmm, write8 k.ms.mem a b⟩ }
  | none => .error pageFault

/-- The bytes from `va` on, up to the first page that is not present.  Names are
compared with arrays of 32 bytes, so no more than these are looked at. -/
def userString (k : Kernel) (va : Nat) : List UInt8 :=
  (((List.range ramfsMaxNameLen).map fun j =>
    (translate k.ms.mem k.cr3 (add32 va j)).map k.ms.mem).takeWhile Option.isSome).reduceOption

/-! ## The calls -/

def refuse (s : System) : Reply := ⟨s, minusOne, []⟩

/-- `for (i = 0; i < len; i++) vga_putchar(buf[i])`, with `n` turns left. -/
def putBytes (k : Kernel) (buf : Nat) : Nat → Nat → Screen → Outcome Screen
  | 0, _, v => .ok v
  | n + 1, i, v => do
      let c ← load k (add32 buf i)
      putBytes k buf n (i + 1) (vgaPutchar v c)

def sysWrite (s : System) (fd : Int) (buf len : Nat) : Outcome Reply :=
  if fd ≠ 1 ∨ buf = 0 then .ok (refuse s)
  else do
    let screen ← putBytes s.kernel buf len 0 s.screen
    return ⟨{ s with screen := screen }, len,
      (List.range len).map fun i => .load (add32 buf i)⟩

/-- The lowest free descriptor from 3 on. -/
def allocFd (fds : Nat → FdEntry) : Option Nat :=
  (List.range' 3 (maxFdsPerProcess - 3)).find? fun fd => !(fds fd).inUse

/-- Assign one descriptor of the current process. -/
def setFd (s : System) (fd : Nat) (e : FdEntry) : System :=
  { s with kernel := s.kernel.modPcb s.kernel.current fun b =>
      { b with fds := Function.update b.fds fd e } }

def entryOf (s : System) (fd : Nat) : FdEntry := (s.kernel.pcb s.kernel.current).fds fd

/-- How many characters `str_eq` looks at. -/
def strEqReads : List UInt8 → List UInt8 → Nat
  | a :: as, b :: bs => if a ≠ 0 ∧ b ≠ 0 ∧ a = b then strEqReads as bs + 1 else 1
  | _, _ => 0

/-- The same for each comparison that `ramfs_lookup` makes. -/
def lookupReads (files : Table) (name : List UInt8) : List (Fin ramfsMaxFiles) → List Nat
  | [] => []
  | i :: is =>
      if files[i].inUse then
        strEqReads files[i].name.toList name ::
          if strEq files[i].name.toList name = some true then [] else lookupReads files name is
      else lookupReads files name is

def pathReads (s : System) (path : Nat) : List Access :=
  (lookupReads s.files (userString s.kernel path) (List.finRange ramfsMaxFiles)).flatMap fun n =>
    (List.range n).map fun j => .load (add32 path j)

def sysOpen (s : System) (path : Nat) : Outcome Reply :=
  if path = 0 then .ok (refuse s)
  else
    match ramfsLookup s.files (userString s.kernel path) with
    | none => .error pageFault
    | some fileIdx =>
        if fileIdx < 0 then .ok { refuse s with touched := pathReads s path }
        else
          match allocFd (s.kernel.pcb s.kernel.current).fds with
          | none => .ok { refuse s with touched := pathReads s path }
          | some fd => .ok ⟨setFd s fd ⟨true, fileIdx, 0⟩, fd, pathReads s path⟩

/-- `for (i = 0; i < to_copy; i++) buf[i] = file->data[entry->offset + i]`, with `n`
turns left. -/
def copyBytes (data offset buf : Nat) : Nat → Nat → Kernel → Outcome (Kernel × List Access)
  | 0, _, k => .ok (k, [])
  | n + 1, i, k => do
      let b ← load k (add32 data (add32 offset i))
      let k ← store k (add32 buf i) b
      let (k, rest) ← copyBytes data offset buf n (i + 1) k
      return (k, .store (add32 buf i) b :: rest)

/-- `fd < 3 || fd >= MAX_FDS_PER_PROCESS` -/
def badFd (fd : Int) : Bool := decide (fd < 3) || decide (fd ≥ maxFdsPerProcess)

def toCopy (file : RamfsFile) (e : FdEntry) (len : Nat) : Nat :=
  let remaining := sub32 file.size e.offset
  if len < remaining then len else remaining

def sysRead (s : System) (fd : Int) (buf len : Nat) : Outcome Reply :=
  if buf = 0 then .ok (refuse s)
  else if badFd fd then .ok (refuse s)
  else
    let e := entryOf s fd.toNat
    if !e.inUse then .ok (refuse s)
    else
      match ramfsGet s.files e.fileIdx with
      | none => .ok (refuse s)
      | some file => do
          let n := toCopy file e len
          let (k, stores) ← copyBytes file.data e.offset buf n 0 s.kernel
          let s := { s with kernel := k }
          return ⟨setFd s fd.toNat { e with offset := add32 e.offset n }, n, stores⟩

def sysClose (s : System) (fd : Int) : Outcome Reply :=
  if badFd fd then .ok (refuse s)
  else if !(entryOf s fd.toNat).inUse then .ok (refuse s)
  else .ok ⟨setFd s fd.toNat ⟨false, -1, 0⟩, 0, []⟩

/-- The calls that may switch to another process; `esp` is the stack pointer that
`context_switch` saves. -/
def sysExit (s : System) (code : Int) (esp : Nat) : Outcome Reply := do
  let k ← processExit s.kernel code esp
  return ⟨{ s with kernel := k }, 0, []⟩

def sysYield (s : System) (esp : Nat) : Outcome Reply := do
  let k ← schedulerYield s.kernel esp
  return ⟨{ s with kernel := k }, 0, []⟩

def unknownNumber (v : Screen) (eax : Nat) : Screen :=
  let v := vgaSetColor v 12
  let v := kprint v (ascii "[syscall] unknown number: ")
  let v := kprintInt v (int32 eax)
  let v := kprint v (ascii "\n")
  vgaSetColor v 7

def syscallHandler (s : System) (r : Registers) (esp : Nat) : Outcome Reply :=
  if r.eax = Nr.sysWrite then sysWrite s (int32 r.ebx) r.ecx r.edx
  else if r.eax = Nr.sysExit then sysExit s (int32 r.ebx) esp
  else if r.eax = Nr.sysYield then sysYield s esp
  else if r.eax = Nr.sysOpen then sysOpen s r.ebx
  else if r.eax = Nr.sysRead then sysRead s (int32 r.ebx) r.ecx r.edx
  else if r.eax = Nr.sysClose then sysClose s (int32 r.ebx)
  else .ok (refuse { s with screen := unknownNumber s.screen r.eax })

end StakOS.Syscall
