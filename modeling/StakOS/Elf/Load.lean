import StakOS.Paging.Tables

/-!
# ELF images and the loader

`kernel/elf.c`.  An image is the bytes behind the pointer `data`; offsets wrap
at 32 bits as pointer arithmetic does.
-/

namespace StakOS.Elf

open StakOS.Lib.Memory StakOS.Lib.Loop StakOS.Paging

def elfMagic : Nat := 0x464C457F
def elfClass32 : Nat := 1
def elfDataLe : Nat := 1
def elfTypeExec : Nat := 2
def elfMachine386 : Nat := 3
def ptLoad : Nat := 1
def pfW : Nat := 2

/-- `sizeof(elf32_phdr_t)`. -/
def phdrSize : Nat := 32

/-- The header fields that the loader reads. -/
structure Header where
  magic : Nat
  eiClass : Nat
  eiData : Nat
  type : Nat
  machine : Nat
  entry : Nat
  phoff : Nat
  phentsize : Nat
  phnum : Nat

def header (data : Mem) : Header where
  magic := read32 data 0
  eiClass := (data 4).toNat
  eiData := (data 5).toNat
  type := read16 data 16
  machine := read16 data 18
  entry := read32 data 24
  phoff := read32 data 28
  phentsize := read16 data 42
  phnum := read16 data 44

/-- The program header fields that the loader reads. -/
structure Phdr where
  type : Nat
  offset : Nat
  vaddr : Nat
  filesz : Nat
  memsz : Nat
  flags : Nat

/-- The entry point of an accepted image. -/
def elf32Validate (data : Mem) : Option Nat :=
  let hdr := header data
  if hdr.magic ≠ elfMagic then none
  else if hdr.eiClass ≠ elfClass32 then none
  else if hdr.eiData ≠ elfDataLe then none
  else if hdr.type ≠ elfTypeExec then none
  else if hdr.machine ≠ elfMachine386 then none
  else if hdr.phentsize ≠ phdrSize then none
  else if hdr.phnum = 0 then none
  else some hdr.entry

def elf32GetPhdr (data : Mem) (i : Nat) : Option Phdr :=
  let hdr := header data
  if i ≥ hdr.phnum then none
  else
    let ph := add32 hdr.phoff (i * hdr.phentsize)
    some {
      type := read32 data ph
      offset := read32 data (ph + 4)
      vaddr := read32 data (ph + 8)
      filesz := read32 data (ph + 16)
      memsz := read32 data (ph + 20)
      flags := read32 data (ph + 24) }

def elf32PhdrCount (data : Mem) : Nat := (header data).phnum

/-! ## Loading -/

def segStart (ph : Phdr) : Nat := frameOf ph.vaddr

def segEnd (ph : Phdr) : Nat := frameOf (add32 (add32 ph.vaddr ph.memsz) 0xFFF)

/-- The pages of a segment: `for (va = seg_start; va < seg_end; va += PAGE_SIZE)`. -/
def segPages (ph : Phdr) : List Nat :=
  (List.range ((segEnd ph - segStart ph) / Pmm.pageSize)).map fun n =>
    segStart ph + n * Pmm.pageSize

def segFlags (ph : Phdr) : Nat :=
  if hasFlag ph.flags pfW then ptePresent ||| pteUser ||| pteWritable else ptePresent ||| pteUser

/-- The part of the page at `va` that comes from the file. -/
def copyStart (ph : Phdr) (va : Nat) : Nat := if va > ph.vaddr then va else ph.vaddr

def copyEnd (ph : Phdr) (va : Nat) : Nat :=
  let pageVaEnd := add32 va Pmm.pageSize
  let segVaEnd := add32 ph.vaddr ph.filesz
  if pageVaEnd < segVaEnd then pageVaEnd else segVaEnd

/-- Zero a frame and copy the file's part of the page at `va` into it. -/
def fillPage (data : Mem) (ph : Phdr) (va : Nat) (m : Mem) (frame : Nat) : Mem :=
  let m := writeBytes m frame (fun _ => 0) Pmm.pageSize
  if copyStart ph va < copyEnd ph va then
    let fileOff := add32 ph.offset (copyStart ph va - ph.vaddr)
    writeBytes m (frame + (copyStart ph va - va)) (fun j => data (add32 fileOff j))
      (copyEnd ph va - copyStart ph va)
  else m

/-- The page loop; the result says whether all pages were loaded. -/
def loadPages (data : Mem) (ph : Phdr) (pd : Nat) : List Nat → State → Outcome (State × Bool)
  | [], s => .ok (s, true)
  | va :: vas, s =>
      let (pmm, frame) := Pmm.pmmAllocFrame s.pmm
      if frame = 0 then .ok (⟨pmm, s.mem⟩, false)
      else do
        let s ← pagingMapInto ⟨pmm, fillPage data ph va s.mem frame⟩ pd va frame (segFlags ph)
        loadPages data ph pd vas s

/-- The segments that are loaded: `PT_LOAD` with a size. -/
def loadable (data : Mem) : List Phdr :=
  ((List.range (elf32PhdrCount data)).filterMap (elf32GetPhdr data)).filter fun ph =>
    decide (ph.type = ptLoad) && decide (ph.memsz ≠ 0)

/-- The loop over the program headers. -/
def loadSegments (data : Mem) (pd : Nat) : List Phdr → State → Outcome (State × Bool)
  | [], s => .ok (s, true)
  | ph :: phs, s => do
      let (s, ok) ← loadPages data ph pd (segPages ph) s
      if ok then loadSegments data pd phs s else return (s, false)

def elf32Load (data : Mem) (s : State) (pd : Nat) : Outcome (State × Bool) :=
  loadSegments data pd (loadable data) s

/-- One turn of the page loop: no frame is left, or a page is filled and mapped. -/
theorem loadPages_cases {data : Mem} {ph : Phdr} {pd va : Nat} {vas : List Nat} {s s' : State}
    {ok : Bool} (h : loadPages data ph pd (va :: vas) s = .ok (s', ok)) :
    (∃ pmm, Pmm.pmmAllocFrame s.pmm = (pmm, 0) ∧ s' = ⟨pmm, s.mem⟩ ∧ ok = false) ∨
    ∃ pmm a s₁, Pmm.pmmAllocFrame s.pmm = (pmm, a) ∧ a ≠ 0 ∧
      pagingMapInto ⟨pmm, fillPage data ph va s.mem a⟩ pd va a (segFlags ph) = .ok s₁ ∧
      loadPages data ph pd vas s₁ = .ok (s', ok) := by
  obtain ⟨pmm, a, halloc⟩ : ∃ pmm a, Pmm.pmmAllocFrame s.pmm = (pmm, a) := ⟨_, _, rfl⟩
  simp only [loadPages, halloc] at h
  by_cases ha : a = 0
  · subst ha
    rw [if_pos rfl] at h
    cases h
    exact Or.inl ⟨pmm, halloc, rfl, rfl⟩
  · rw [if_neg ha] at h
    obtain ⟨s₁, hmap, hrest⟩ := bind_eq_ok.mp h
    exact Or.inr ⟨pmm, a, s₁, halloc, ha, hmap, hrest⟩

/-! ## Pages of an image -/

theorem segStart_aligned (ph : Phdr) : segStart ph % 4096 = 0 := frameOf_aligned _

theorem segEnd_le (ph : Phdr) : segEnd ph ≤ 2 ^ 32 - 4096 := by
  have hlt := add32_lt (add32 ph.vaddr ph.memsz) 0xFFF
  have haligned := frameOf_aligned (add32 (add32 ph.vaddr ph.memsz) 0xFFF)
  have hle := frameOf_le (add32 (add32 ph.vaddr ph.memsz) 0xFFF)
  unfold segEnd
  omega

theorem mem_segPages {ph : Phdr} {va : Nat} (h : va ∈ segPages ph) :
    va % 4096 = 0 ∧ va + 4096 < 2 ^ 32 := by
  obtain ⟨n, hn, rfl⟩ := List.mem_map.mp h
  have hlt := List.mem_range.mp hn
  have hend := segEnd_le ph
  have hal := segStart_aligned ph
  unfold Pmm.pageSize at *
  omega

theorem le_copyStart (ph : Phdr) (va : Nat) : va ≤ copyStart ph va := by
  unfold copyStart
  split <;> omega

theorem copyEnd_le (ph : Phdr) {va : Nat} (hva : va + 4096 < 2 ^ 32) :
    copyEnd ph va ≤ va + 4096 := by
  have hend : add32 va Pmm.pageSize = va + 4096 := add32_of_lt hva
  unfold copyEnd
  simp only [hend]
  split <;> omega

/-- A page is loaded into its own frame. -/
theorem fillPage_frame (data : Mem) (ph : Phdr) {va : Nat} (m : Mem) {frame x : Nat}
    (hva : va + 4096 < 2 ^ 32) (hf : frame % 4096 = 0) (hx : x / 4096 * 4096 ≠ frame) :
    fillPage data ph va m frame x = m x := by
  have hstart := le_copyStart ph va
  have hend := copyEnd_le ph hva
  have hzero : writeBytes m frame (fun _ => 0) Pmm.pageSize x = m x :=
    writeBytes_of_disjoint m _ _ (by unfold Pmm.pageSize; omega)
  unfold fillPage
  by_cases hcopy : copyStart ph va < copyEnd ph va
  · simp only [if_pos hcopy]
    rw [writeBytes_of_disjoint _ _ _ (by omega)]
    exact hzero
  · simp only [if_neg hcopy]
    exact hzero

end StakOS.Elf
