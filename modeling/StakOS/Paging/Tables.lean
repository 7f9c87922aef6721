import StakOS.Lib.Memory
import StakOS.Lib.Loop
import StakOS.Pmm.Bitmap

/-!
# Page directories and page tables

`kernel/paging.c` over physical memory.  The kernel dereferences physical
addresses as pointers, relying on its identity map; here such an access is an
access to physical memory at that address.  What an address means to the MMU is
the two-level walk `translate`, which reads the same memory.
-/

namespace StakOS.Paging

open StakOS.Lib.Memory StakOS.Lib.Loop

def ptePresent : Nat := 1
def pteWritable : Nat := 2
def pteUser : Nat := 4
def pdePresent : Nat := 1
def pdeWritable : Nat := 2
def pdeUser : Nat := 4

def pdEntries : Nat := 1024
def ptEntries : Nat := 1024
def identityPtCount : Nat := 8
def identityMappedBytes : Nat := identityPtCount * ptEntries * Pmm.pageSize

/-- Addresses that the linker fixes: the end of the kernel image and the static
arrays `kernel_pd` and `identity_pts`. -/
structure Statics where
  kernelEnd : Nat
  kernelPd : Nat
  identityPts : Nat
  kernelPd_aligned : kernelPd % 4096 = 0
  identityPts_aligned : identityPts % 4096 = 0
  kernelPd_pos : 0 < kernelPd
  identityPts_pos : 0 < identityPts
  kernelPd_end : kernelPd + 4096 ≤ kernelEnd
  identityPts_end : identityPts + 4096 * 8 ≤ kernelEnd
  apart : kernelPd + 4096 ≤ identityPts ∨ identityPts + 4096 * 8 ≤ kernelPd
  kernelEnd_le : kernelEnd ≤ 2 ^ 25

/-- Physical memory and the frame allocator. -/
structure State where
  pmm : Pmm.State
  mem : Mem

/-! ## Entries -/

/-- `e & flag` as a condition. -/
def hasFlag (e flag : Nat) : Bool := e &&& flag != 0

/-- `e & ~0xFFF`. -/
def frameOf (e : Nat) : Nat := e / 4096 * 4096

def pdIdx (virt : Nat) : Nat := virt / 2 ^ 22
def ptIdx (virt : Nat) : Nat := virt / 2 ^ 12 % 1024

/-- The entry of the directory or table at `base` with index `i`. -/
def entry (m : Mem) (base i : Nat) : Nat := read32 m (base + 4 * i)

def setEntry (m : Mem) (base i e : Nat) : Mem := write32 m (base + 4 * i) e

/-! ## The functions of `paging.c` -/

/-- The page table for window `t` of the identity map. -/
def identityTable (st : Statics) (m : Mem) (t : Nat) : Mem :=
  let m := writeWords m (st.identityPts + 4096 * t)
    (fun i => (t * ptEntries * Pmm.pageSize + i * Pmm.pageSize) ||| ptePresent ||| pteWritable)
    ptEntries
  setEntry m st.kernelPd t ((st.identityPts + 4096 * t) ||| pdePresent ||| pdeWritable)

def identityTables (st : Statics) (m : Mem) : Nat → Mem
  | 0 => m
  | t + 1 => identityTable st (identityTables st m t) t

def pagingInit (st : Statics) (m : Mem) : Mem := identityTables st m identityPtCount

def zeroTable (m : Mem) (pt : Nat) : Mem := writeWords m pt (fun _ => 0) ptEntries

/-- The new directory shares the tables of the identity map. -/
def pagingCreateUserPd (st : Statics) (s : State) : State × Nat :=
  let (pmm, pd) := Pmm.pmmAllocFrame s.pmm
  if pd = 0 then (⟨pmm, s.mem⟩, 0)
  else
    (⟨pmm, writeWords s.mem pd
      (fun i => if i < identityPtCount then entry s.mem st.kernelPd i else 0) pdEntries⟩, pd)

/-- The frames of one page table in the order in which they are freed. -/
def tableFrames (m : Mem) (pt : Nat) : List Nat :=
  ((List.range ptEntries).filter fun j => hasFlag (entry m pt j) ptePresent).map
    fun j => frameOf (entry m pt j)

/-- The entries of a directory above the identity map that are present. -/
def userEntries (m : Mem) (pd : Nat) : List Nat :=
  (List.range pdEntries).filter fun i =>
    decide (identityPtCount ≤ i) && hasFlag (entry m pd i) pdePresent

/-- Everything `paging_free_pd` frees, in order. -/
def pdFrames (m : Mem) (pd : Nat) : List Nat :=
  ((userEntries m pd).flatMap fun i =>
    let pt := frameOf (entry m pd i)
    tableFrames m pt ++ [pt]) ++ [pd]

def pagingFreePd (s : State) (pd : Nat) : State :=
  if pd = 0 then s else ⟨(pdFrames s.mem pd).foldl Pmm.pmmFreeFrame s.pmm, s.mem⟩

/-- The directory entry for `virt`, with a fresh table when there is none. -/
def ensureTable (s : State) (pd virt flags : Nat) : Outcome State :=
  let e := entry s.mem pd (pdIdx virt)
  if !hasFlag e pdePresent then
    let (pmm, pt) := Pmm.pmmAllocFrame s.pmm
    if pt = 0 then .error (.kpanic "paging_map_into: out of physical memory")
    else
      let m := zeroTable s.mem pt
      let pdeFlags := if hasFlag flags pteUser then pdePresent ||| pdeWritable ||| pdeUser
        else pdePresent ||| pdeWritable
      .ok ⟨pmm, setEntry m pd (pdIdx virt) (pt ||| pdeFlags)⟩
  else if hasFlag flags pteUser then .ok ⟨s.pmm, setEntry s.mem pd (pdIdx virt) (e ||| pdeUser)⟩
  else .ok s

def pagingMapInto (s : State) (pd virt phys flags : Nat) : Outcome State := do
  let s ← ensureTable s pd virt flags
  let pt := frameOf (entry s.mem pd (pdIdx virt))
  return ⟨s.pmm, setEntry s.mem pt (ptIdx virt) (frameOf phys ||| flags)⟩

/-! ## The walk of the MMU -/

/-- The directory entry for a virtual address. -/
def pdeAt (m : Mem) (pd virt : Nat) : Nat := entry m pd (pdIdx virt)

/-- The table entry for a virtual address. -/
def pteAt (m : Mem) (pd virt : Nat) : Nat := entry m (frameOf (pdeAt m pd virt)) (ptIdx virt)

/-- Both levels have the flag. -/
def bothHave (m : Mem) (pd virt flag : Nat) : Bool :=
  hasFlag (pdeAt m pd virt) flag && hasFlag (pteAt m pd virt) flag

def translate (m : Mem) (pd virt : Nat) : Option Nat :=
  if bothHave m pd virt ptePresent then some (frameOf (pteAt m pd virt) + virt % 4096) else none

/-- The page is accessible from ring 3. -/
def userAccessible (m : Mem) (pd virt : Nat) : Bool :=
  bothHave m pd virt ptePresent && bothHave m pd virt pteUser

/-- The page can be written from ring 3. -/
def userWritable (m : Mem) (pd virt : Nat) : Bool :=
  userAccessible m pd virt && bothHave m pd virt pteWritable

/-! ## Arithmetic of entries -/

theorem or_flags {a f : Nat} (ha : a % 4096 = 0) (hf : f < 4096) : a ||| f = a + f := by
  have hmul : a = 2 ^ 12 * (a / 4096) := by omega
  rw [hmul]
  exact (Nat.two_pow_add_eq_or_of_lt hf (a / 4096)).symm

@[simp] theorem frameOf_or {a f : Nat} (ha : a % 4096 = 0) (hf : f < 4096) :
    frameOf (a ||| f) = a := by
  rw [or_flags ha hf]
  unfold frameOf
  omega

theorem or_flags_lt {a f : Nat} (ha : a % 4096 = 0) (hf : f < 4096) (hlt : a < 2 ^ 32) :
    a ||| f < 2 ^ 32 := by
  rw [or_flags ha hf]
  omega

theorem hasFlag_pow (e i : Nat) : hasFlag e (2 ^ i) = e.testBit i := by
  unfold hasFlag
  rw [Nat.and_two_pow]
  cases e.testBit i
  · simp
  · simp

@[simp] theorem hasFlag_present (e : Nat) : hasFlag e ptePresent = e.testBit 0 := hasFlag_pow e 0
@[simp] theorem hasFlag_writable (e : Nat) : hasFlag e pteWritable = e.testBit 1 := hasFlag_pow e 1
@[simp] theorem hasFlag_user (e : Nat) : hasFlag e pteUser = e.testBit 2 := hasFlag_pow e 2
@[simp] theorem hasFlag_pdePresent (e : Nat) : hasFlag e pdePresent = e.testBit 0 :=
  hasFlag_pow e 0

/-- The flags of an entry are those it was built with. -/
theorem testBit_or_flags {a f i : Nat} (ha : a % 4096 = 0) (hi : i < 12) :
    (a ||| f).testBit i = f.testBit i := by
  have hmul : a = 2 ^ 12 * (a / 4096) := by omega
  have hlow : a.testBit i = false := by
    rw [hmul, Nat.testBit_two_pow_mul]
    simp [Nat.not_le.mpr hi]
  rw [Nat.testBit_or, hlow, Bool.false_or]

theorem frameOf_aligned (e : Nat) : frameOf e % 4096 = 0 := by
  unfold frameOf
  omega

theorem frameOf_of_aligned {a : Nat} (ha : a % 4096 = 0) : frameOf a = a := by
  unfold frameOf
  omega

theorem frameOf_le (e : Nat) : frameOf e ≤ e := by
  unfold frameOf
  omega

theorem pdIdx_lt {virt : Nat} (h : virt < 2 ^ 32) : pdIdx virt < 1024 := by
  unfold pdIdx
  omega

theorem ptIdx_lt (virt : Nat) : ptIdx virt < 1024 := by
  unfold ptIdx
  omega

/-- An address lies in the identity window iff its directory index does. -/
theorem pdIdx_low {virt : Nat} : pdIdx virt < identityPtCount ↔ virt < identityMappedBytes := by
  unfold pdIdx identityPtCount identityMappedBytes identityPtCount ptEntries Pmm.pageSize
  omega

/-! ## Reading entries back -/

theorem entry_lt (m : Mem) (base i : Nat) : entry m base i < 2 ^ 32 := read32_lt m _

theorem entry_setEntry_same (m : Mem) (base i : Nat) {e : Nat} (he : e < 2 ^ 32) :
    entry (setEntry m base i e) base i = e := read32_write32_same m _ he

theorem entry_setEntry_of_ne (m : Mem) {base base' i i' : Nat} (e : Nat)
    (h : base + 4 * i + 4 ≤ base' + 4 * i' ∨ base' + 4 * i' + 4 ≤ base + 4 * i) :
    entry (setEntry m base i e) base' i' = entry m base' i' :=
  read32_write32_of_disjoint m e (by omega)

/-- Entries of another table, or another index, are not affected. -/
theorem entry_setEntry_other (m : Mem) {base base' i i' : Nat} (e : Nat)
    (hb : base % 4096 = 0) (hb' : base' % 4096 = 0) (hi : i < 1024) (hi' : i' < 1024)
    (h : base ≠ base' ∨ i ≠ i') : entry (setEntry m base i e) base' i' = entry m base' i' := by
  apply entry_setEntry_of_ne
  omega

/-- Bytes of other frames are not affected. -/
theorem setEntry_of_frame_ne (m : Mem) {base i x : Nat} (e : Nat) (hb : base % 4096 = 0)
    (hi : i < 1024) (hx : x / 4096 * 4096 ≠ base) : setEntry m base i e x = m x :=
  write32_of_disjoint m e (by omega)

theorem entry_congr {m m' : Mem} {base i : Nat} (hb : base % 4096 = 0) (hi : i < 1024)
    (h : ∀ x, x / 4096 * 4096 = base → m' x = m x) : entry m' base i = entry m base i := by
  apply read32_congr
  intro x hx hx'
  exact h x (by omega)

theorem entry_writeWords (m : Mem) (base : Nat) {f : Nat → Nat} {i : Nat} (hf : f i < 2 ^ 32)
    (hi : i < 1024) : entry (writeWords m base f 1024) base i = f i :=
  read32_writeWords m base hf hi

theorem writeWords_of_frame_ne (m : Mem) {base x : Nat} (f : Nat → Nat) (hb : base % 4096 = 0)
    (hx : x / 4096 * 4096 ≠ base) : writeWords m base f 1024 x = m x :=
  writeWords_of_disjoint m f 1024 (by omega)

end StakOS.Paging
