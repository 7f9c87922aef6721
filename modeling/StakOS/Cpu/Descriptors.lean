import StakOS.Lib.Descriptors

/-!
# The descriptor tables of the kernel

`gdt.c` and the table part of `idt.c`, field by field, and what the processor makes of the
packed entries: which vectors lead into the kernel, from which ring, to which stub and on which
stack.
-/

namespace StakOS.Cpu

open StakOS.Lib.X86
open StakOS.Lib.Descriptors (Cause Fault Segment segmentOf gateOf interruptGate accessByte)

/-! ## gdt.c -/

/-- `gdt_entry_t`. -/
structure GdtEntry where
  limitLow : BitVec 16
  baseLow : BitVec 16
  baseMid : BitVec 8
  access : BitVec 8
  granularity : BitVec 8
  baseHigh : BitVec 8

/-- The packed structure, the first field lowest. -/
def GdtEntry.raw (e : GdtEntry) : BitVec 64 :=
  e.baseHigh ++ e.granularity ++ e.access ++ e.baseMid ++ e.baseLow ++ e.limitLow

/-- `gdt_ptr_t` and `idt_ptr_t`. -/
structure TablePtr where
  limit : BitVec 16
  base : BitVec 32

/-- `tss_entry_t`; `others` are the fields from `esp1` to `ldt`. -/
structure TssEntry where
  prevTss : BitVec 32
  esp0 : BitVec 32
  ss0 : BitVec 32
  others : List (BitVec 32)
  trap : BitVec 16
  iomapBase : BitVec 16

def TssEntry.words (t : TssEntry) : List Nat :=
  ([t.prevTss, t.esp0, t.ss0] ++ t.others ++ [t.iomapBase ++ t.trap]).map BitVec.toNat

/-- `idt_entry_t`. -/
structure IdtEntry where
  baseLow : BitVec 16
  selector : BitVec 16
  zero : BitVec 8
  flags : BitVec 8
  baseHigh : BitVec 16

def IdtEntry.raw (e : IdtEntry) : BitVec 64 :=
  e.baseHigh ++ e.flags ++ e.zero ++ e.selector ++ e.baseLow

/-- The statics of the two files, and the registers of the processor that point to them. -/
structure DescriptorTables where
  gdt : Nat → GdtEntry
  gdtPtr : TablePtr
  tss : TssEntry
  idt : Nat → IdtEntry
  idtPtr : TablePtr
  gdtr : TablePtr
  idtr : TablePtr
  taskRegister : BitVec 16

/-- Where the linker has put the statics. -/
structure TableSymbols where
  gdt : BitVec 32
  tss : BitVec 32
  idt : BitVec 32

def sizeofGdtEntry : Nat := 8
def sizeofIdtEntry : Nat := 8
def sizeofTssEntry : Nat := 104
def gdtEntries : Nat := 6
def idtEntries : Nat := 256

def gdtEntry (base limit : BitVec 32) (access gran : BitVec 8) : GdtEntry where
  baseLow := (base &&& 0xFFFF).setWidth 16
  baseMid := ((base >>> 16) &&& 0xFF).setWidth 8
  baseHigh := ((base >>> 24) &&& 0xFF).setWidth 8
  limitLow := (limit &&& 0xFFFF).setWidth 16
  granularity := ((limit >>> 16) &&& 0x0F).setWidth 8 ||| (gran &&& 0xF0)
  access := access

def gdtSetEntry (t : DescriptorTables) (i : Nat) (base limit : BitVec 32) (access gran : BitVec 8) :
    DescriptorTables :=
  { t with gdt := Function.update t.gdt i (gdtEntry base limit access gran) }

def zeroTss : TssEntry := ⟨0, 0, 0, List.replicate 22 0, 0, 0⟩

def writeTss (sym : TableSymbols) (t : DescriptorTables) (i : Nat) (ss0 : BitVec 16) :
    DescriptorTables :=
  let t := gdtSetEntry t i sym.tss (BitVec.ofNat 32 (sizeofTssEntry - 1)) 0x89 0x00
  { t with tss := { zeroTss with
      ss0 := ss0.setWidth 32
      iomapBase := BitVec.ofNat 16 sizeofTssEntry } }

/-- `ltr` loads the register and marks the descriptor busy. -/
def tssFlush (t : DescriptorTables) : DescriptorTables :=
  { t with
    taskRegister := 0x28
    gdt := Function.update t.gdt 5 { t.gdt 5 with access := (t.gdt 5).access ||| 0x02 } }

def gdtInit (sym : TableSymbols) (t : DescriptorTables) : DescriptorTables :=
  let t := { t with
    gdtPtr := ⟨BitVec.ofNat 16 (sizeofGdtEntry * gdtEntries - 1), sym.gdt⟩ }
  let t := gdtSetEntry t 0 0 0 0x00 0x00
  let t := gdtSetEntry t 1 0 0xFFFFFFFF 0x9A 0xCF
  let t := gdtSetEntry t 2 0 0xFFFFFFFF 0x92 0xCF
  let t := gdtSetEntry t 3 0 0xFFFFFFFF 0xFA 0xCF
  let t := gdtSetEntry t 4 0 0xFFFFFFFF 0xF2 0xCF
  let t := writeTss sym t 5 0x10
  -- gdt_flush
  let t := { t with gdtr := t.gdtPtr }
  tssFlush t

def tssSetKernelStack (t : DescriptorTables) (esp0 : BitVec 32) : DescriptorTables :=
  { t with tss := { t.tss with esp0 := esp0 } }

/-! ## idt.c -/

def idtGate (base : BitVec 32) (sel : BitVec 16) (flags : BitVec 8) : IdtEntry where
  baseLow := (base &&& 0xFFFF).setWidth 16
  baseHigh := ((base >>> 16) &&& 0xFFFF).setWidth 16
  selector := sel
  zero := 0
  flags := flags

def idtSetGate (idt : Nat → IdtEntry) (n : Nat) (base : BitVec 32) (sel : BitVec 16)
    (flags : BitVec 8) : Nat → IdtEntry :=
  Function.update idt n (idtGate base sel flags)

/-- The addresses of the entry stubs `isr0` … `isr31`, `irq0` … `irq15` and `isr128`. -/
structure Stubs where
  isr : Nat → BitVec 32
  irq : Nat → BitVec 32
  isr128 : BitVec 32

/-- An entry of zeros. -/
def noGate : IdtEntry := ⟨0, 0, 0, 0, 0⟩

/-- `idt_init` but for `pic_remap` and `sti`. -/
def idtInit (sym : TableSymbols) (stubs : Stubs) (t : DescriptorTables) : DescriptorTables :=
  let idt := fun _ => noGate
  let idt := (List.range 32).foldl (fun idt n => idtSetGate idt n (stubs.isr n) 0x08 0x8E) idt
  let idt := (List.range 16).foldl
    (fun idt n => idtSetGate idt (32 + n) (stubs.irq n) 0x08 0x8E) idt
  let idt := idtSetGate idt 128 stubs.isr128 0x08 0xEE
  let ptr := ⟨BitVec.ofNat 16 (sizeofIdtEntry * idtEntries - 1), sym.idt⟩
  -- idt_flush
  { t with idt := idt, idtPtr := ptr, idtr := ptr }

/-! ## What the processor sees -/

/-- The processor reads the tables where its registers point to, and the task state segment
where its descriptor says it is. -/
def DescriptorTables.view (sym : TableSymbols) (t : DescriptorTables) : Lib.Descriptors.Tables :=
  let gdt := fun i => if t.gdtr.base = sym.gdt then (t.gdt i).raw else 0
  { gdt := gdt
    gdtLimit := t.gdtr.limit.toNat
    idt := fun v => if t.idtr.base = sym.idt then (t.idt v).raw else 0
    idtLimit := t.idtr.limit.toNat
    taskRegister := t.taskRegister.toNat
    tss := if (segmentOf (gdt (t.taskRegister.toNat / 8))).base = sym.tss then t.tss.words else [] }

section Decode

/-- The bits of a descriptor, looked up in the field they belong to. -/
theorem GdtEntry.getLsbD_raw (e : GdtEntry) (i : Nat) : e.raw.getLsbD i =
    if i < 16 then e.limitLow.getLsbD i
    else if i < 32 then e.baseLow.getLsbD (i - 16)
    else if i < 40 then e.baseMid.getLsbD (i - 32)
    else if i < 48 then e.access.getLsbD (i - 40)
    else if i < 56 then e.granularity.getLsbD (i - 48)
    else e.baseHigh.getLsbD (i - 56) := by
  simp only [GdtEntry.raw, BitVec.getLsbD_append, Nat.sub_sub]
  split_ifs <;> first | rfl | omega

theorem IdtEntry.getLsbD_raw (e : IdtEntry) (i : Nat) : e.raw.getLsbD i =
    if i < 16 then e.baseLow.getLsbD i
    else if i < 32 then e.selector.getLsbD (i - 16)
    else if i < 40 then e.zero.getLsbD (i - 32)
    else if i < 48 then e.flags.getLsbD (i - 40)
    else e.baseHigh.getLsbD (i - 48) := by
  simp only [IdtEntry.raw, BitVec.getLsbD_append, Nat.sub_sub]
  split_ifs <;> first | rfl | omega

theorem GdtEntry.accessByte_raw (e : GdtEntry) : accessByte e.raw = e.access := by
  apply BitVec.eq_of_getLsbD_eq
  intro i hi
  rw [accessByte, BitVec.getLsbD_extractLsb', e.getLsbD_raw]
  interval_cases i <;> rfl

theorem IdtEntry.accessByte_raw (e : IdtEntry) : accessByte e.raw = e.flags := by
  apply BitVec.eq_of_getLsbD_eq
  intro i hi
  rw [accessByte, BitVec.getLsbD_extractLsb', e.getLsbD_raw]
  interval_cases i <;> rfl

variable (base limit : BitVec 32) (access gran flags : BitVec 8) (sel : BitVec 16)

theorem gdtEntry_base : (segmentOf (gdtEntry base limit access gran).raw).base = base := by
  apply BitVec.eq_of_getLsbD_eq
  intro i hi
  simp only [segmentOf, BitVec.getLsbD_append, BitVec.getLsbD_extractLsb', GdtEntry.getLsbD_raw,
    gdtEntry, BitVec.getLsbD_setWidth, BitVec.getLsbD_and, BitVec.getLsbD_ushiftRight]
  interval_cases i <;> simp

theorem gdtEntry_limit :
    (segmentOf (gdtEntry base limit access gran).raw).limit = limit.setWidth 20 := by
  apply BitVec.eq_of_getLsbD_eq
  intro i hi
  simp only [segmentOf, BitVec.getLsbD_append, BitVec.getLsbD_extractLsb', GdtEntry.getLsbD_raw,
    gdtEntry, BitVec.getLsbD_setWidth, BitVec.getLsbD_and, BitVec.getLsbD_or,
    BitVec.getLsbD_ushiftRight]
  interval_cases i <;> simp

theorem gdtEntry_flags (i : Nat) (hi : i < 4) :
    ((gdtEntry base limit access gran).raw.extractLsb' 52 4).getLsbD i = gran.getLsbD (4 + i) := by
  simp only [BitVec.getLsbD_extractLsb', GdtEntry.getLsbD_raw, gdtEntry, BitVec.getLsbD_setWidth,
    BitVec.getLsbD_and, BitVec.getLsbD_or, BitVec.getLsbD_ushiftRight]
  interval_cases i <;> simp

/-- What the processor finds in an entry: the base, of the limit the low 20 bits, and the two
bytes of flags but for the low half of the second. -/
theorem gdtEntry_segment : segmentOf (gdtEntry base limit access gran).raw =
    { base := base
      limit := limit.setWidth 20
      kind := access.extractLsb' 0 5
      dpl := access.extractLsb' 5 2
      present := access.getLsbD 7
      granular := gran.getLsbD 7
      wide := gran.getLsbD 6 } := by
  have hbase := gdtEntry_base base limit access gran
  have hlimit := gdtEntry_limit base limit access gran
  have haccess := (gdtEntry base limit access gran).accessByte_raw
  have hflags := gdtEntry_flags base limit access gran
  unfold segmentOf at hbase hlimit ⊢
  rw [haccess, hflags 3 (by decide), hflags 2 (by decide)]
  congr 1

theorem idtGate_offset : (gateOf (idtGate base sel flags).raw).offset = base := by
  apply BitVec.eq_of_getLsbD_eq
  intro i hi
  simp only [gateOf, BitVec.getLsbD_append, BitVec.getLsbD_extractLsb', IdtEntry.getLsbD_raw,
    idtGate, BitVec.getLsbD_setWidth, BitVec.getLsbD_and, BitVec.getLsbD_ushiftRight]
  interval_cases i <;> simp

theorem idtGate_selector : (gateOf (idtGate base sel flags).raw).selector = sel := by
  apply BitVec.eq_of_getLsbD_eq
  intro i hi
  simp only [gateOf, BitVec.getLsbD_extractLsb', IdtEntry.getLsbD_raw]
  interval_cases i <;> rfl

/-- A gate comes out as it went in. -/
theorem idtGate_gate : gateOf (idtGate base sel flags).raw =
    { offset := base
      selector := sel
      kind := flags.extractLsb' 0 5
      dpl := flags.extractLsb' 5 2
      present := flags.getLsbD 7 } := by
  have hoffset := idtGate_offset base flags sel
  have hselector := idtGate_selector base flags sel
  have haccess := (idtGate base sel flags).accessByte_raw
  unfold gateOf at hoffset hselector ⊢
  rw [haccess]
  congr 1

end Decode

/-! ## The tables after boot -/

/-- The stub of a vector, if `idt_init` sets its gate. -/
def Stubs.vector (stubs : Stubs) (v : Nat) : Option (BitVec 32) :=
  if v < 32 then some (stubs.isr v)
  else if v < 48 then some (stubs.irq (v - 32))
  else if v = 128 then some stubs.isr128
  else none

/-- A row of gates. -/
theorem foldl_idtSetGate (idt : Nat → IdtEntry) (first count : Nat) (base : Nat → BitVec 32)
    (sel : BitVec 16) (flags : BitVec 8) (v : Nat) :
    (List.range count).foldl (fun idt n => idtSetGate idt (first + n) (base n) sel flags) idt v =
      if first ≤ v ∧ v < first + count then idtGate (base (v - first)) sel flags else idt v := by
  induction count with
  | zero => rw [List.range_zero, List.foldl_nil, if_neg (by omega)]
  | succ count ih =>
      rw [List.range_succ, List.foldl_append, List.foldl_cons, List.foldl_nil, idtSetGate]
      by_cases hlast : v = first + count
      · rw [hlast, Function.update_self, if_pos (by omega), Nat.add_sub_cancel_left]
      · rw [Function.update_of_ne hlast, ih]
        congr 1
        apply propext
        omega

theorem idtInit_idt (sym : TableSymbols) (stubs : Stubs) (t : DescriptorTables) (v : Nat) :
    (idtInit sym stubs t).idt v = match stubs.vector v with
      | some stub => idtGate stub 0x08 (if v = 128 then 0xEE else 0x8E)
      | none => noGate := by
  have hexceptions := foldl_idtSetGate (fun _ => noGate) 0 32 stubs.isr 0x08 0x8E
  simp only [Nat.zero_add, Nat.zero_le, true_and, Nat.sub_zero] at hexceptions
  change idtSetGate _ 128 stubs.isr128 0x08 0xEE v = _
  rw [idtSetGate]
  by_cases hsyscall : v = 128
  · rw [hsyscall, Function.update_self]
    rfl
  · rw [Function.update_of_ne hsyscall, foldl_idtSetGate, hexceptions, Stubs.vector,
      if_neg hsyscall]
    by_cases hlow : v < 32
    · rw [if_neg (by omega), if_pos hlow, if_pos hlow]
      exact congrArg _ (if_neg hsyscall).symm
    · rw [if_neg hlow, if_neg hlow]
      by_cases hirq : v < 48
      · rw [if_pos (by omega), if_pos hirq]
        exact congrArg _ (if_neg hsyscall).symm
      · rw [if_neg (by omega), if_neg hirq, if_neg hsyscall]

section Boot

variable (sym : TableSymbols) (stubs : Stubs) (t : DescriptorTables) (esp0 : BitVec 32)

/-- The tables behind `gdt_init`, `idt_init` and the last `tss_set_kernel_stack`. -/
def bootTables : DescriptorTables := tssSetKernelStack (idtInit sym stubs (gdtInit sym t)) esp0

/-- A flat segment of 4 GB. -/
def flat (access : BitVec 8) : Segment where
  base := 0
  limit := 0xFFFFF
  kind := access.extractLsb' 0 5
  dpl := access.extractLsb' 5 2
  present := access.getLsbD 7
  granular := true
  wide := true

theorem flat_eq (access : BitVec 8) :
    segmentOf (gdtEntry 0 0xFFFFFFFF access 0xCF).raw = flat access := gdtEntry_segment ..

/-- Code and data of the kernel, code and data of user programs. -/
def flatEntries : List (Nat × BitVec 8) := [(1, 0x9A), (2, 0x92), (3, 0xFA), (4, 0xF2)]

theorem bootTables_gdt :
    (∀ e ∈ flatEntries, (bootTables sym stubs t esp0).gdt e.1 = gdtEntry 0 0xFFFFFFFF e.2 0xCF) ∧
      (bootTables sym stubs t esp0).gdt 5 = gdtEntry sym.tss 103 0x8B 0x00 := by
  simp only [bootTables, tssSetKernelStack, idtInit, gdtInit, tssFlush, writeTss, gdtSetEntry,
    Function.update_self, Function.update_apply]
  refine ⟨?_, ?_⟩
  · simp only [flatEntries, List.forall_mem_cons]
    exact ⟨rfl, rfl, rfl, rfl, by simp⟩
  · simp only [gdtEntry]
    congr 1

theorem bootTables_lookup {selector : Nat} (hindex : selector / 8 ≠ 0)
    (htable : selector.testBit 2 = false) (hlimit : selector / 8 < gdtEntries) :
    ((bootTables sym stubs t esp0).view sym).lookup selector =
      some (segmentOf ((bootTables sym stubs t esp0).gdt (selector / 8)).raw) := by
  have hgdt : ((bootTables sym stubs t esp0).view sym).gdt (selector / 8) =
      ((bootTables sym stubs t esp0).gdt (selector / 8)).raw := if_pos rfl
  have hin : ¬((bootTables sym stubs t esp0).view sym).gdtLimit < selector / 8 * 8 + 7 := by
    change ¬47 < selector / 8 * 8 + 7
    unfold gdtEntries at hlimit
    omega
  unfold Lib.Descriptors.Tables.lookup
  rw [if_neg (by simp [hindex, htable, hin]), hgdt]

theorem bootTables_flat {selector : Nat} {access : BitVec 8}
    (hentry : (selector / 8, access) ∈ flatEntries) (htable : selector.testBit 2 = false) :
    ((bootTables sym stubs t esp0).view sym).lookup selector = some (flat access) := by
  have hindex : ∀ e ∈ flatEntries, e.1 ≠ 0 ∧ e.1 < gdtEntries := by decide
  obtain ⟨hnull, hlimit⟩ := hindex _ hentry
  rw [bootTables_lookup sym stubs t esp0 hnull htable hlimit,
    (bootTables_gdt sym stubs t esp0).1 _ hentry, flat_eq]

/-- The task state segment, busy. -/
theorem bootTables_task : segmentOf ((bootTables sym stubs t esp0).gdt 5).raw =
    { base := sym.tss
      limit := 103
      kind := 0b01011
      dpl := 0
      present := true
      granular := false
      wide := false } := by
  rw [(bootTables_gdt sym stubs t esp0).2, gdtEntry_segment]
  rfl

theorem bootTables_stack0 :
    ((bootTables sym stubs t esp0).view sym).stack0 = .ok (esp0.toNat, 0x10) := by
  have htask : ((bootTables sym stubs t esp0).view sym).lookup 0x28 =
      some (segmentOf ((bootTables sym stubs t esp0).gdt 5).raw) :=
    bootTables_lookup sym stubs t esp0 (by decide) (by decide) (by decide)
  have htss : ((bootTables sym stubs t esp0).view sym).tss =
      (bootTables sym stubs t esp0).tss.words := by
    have hbase := congrArg Segment.base (bootTables_task sym stubs t esp0)
    have htask : (bootTables sym stubs t esp0).taskRegister = 0x28 := rfl
    have hindex : (0x28 : BitVec 16).toNat / 8 = 5 := rfl
    have hgdtr : (bootTables sym stubs t esp0).gdtr.base = sym.gdt := rfl
    simp only [DescriptorTables.view, htask, hindex, hgdtr, if_true, hbase]
  have hesp0 : (bootTables sym stubs t esp0).tss.words.getD 1 0 = esp0.toNat := rfl
  have hss0 : (bootTables sym stubs t esp0).tss.words.getD 2 0 % 2 ^ 16 = 0x10 := rfl
  have hregister : ((bootTables sym stubs t esp0).view sym).taskRegister = 0x28 := rfl
  unfold Lib.Descriptors.Tables.stack0
  rw [hregister, htask, bootTables_task]
  have hstack : ((bootTables sym stubs t esp0).view sym).lookup 0x10 = some (flat 0x92) :=
    bootTables_flat sym stubs t esp0 (by decide) (by decide)
  simp only [htss, hesp0, hss0, hstack]
  rfl

theorem deliver_stub {v : Nat} {stub : BitVec 32} (hvector : stubs.vector v = some stub) (c : Cpu)
    (cause : Cause) : ((bootTables sym stubs t esp0).view sym).deliver c v cause =
      if cause = .software ∧ c.user = true ∧ v ≠ 128 then .error .generalProtection
      else .ok ((c.interrupt esp0.toNat 0x10 0x08 stub.toNat).pushAll cause.words) := by
  have hidt : ((bootTables sym stubs t esp0).view sym).idt v =
      ((idtInit sym stubs (gdtInit sym t)).idt v).raw := if_pos rfl
  rw [idtInit_idt, hvector] at hidt
  have hv : v < 256 := by
    unfold Stubs.vector at hvector
    by_contra hv
    rw [if_neg (by omega), if_neg (by omega), if_neg (by omega)] at hvector
    cases hvector
  have hlimit : 8 * v + 7 ≤ ((bootTables sym stubs t esp0).view sym).idtLimit := by
    change 8 * v + 7 ≤ 2047
    omega
  have hgate := (congrArg gateOf hidt).trans (idtGate_gate ..)
  have hkind : (if v = 128 then 0xEE else 0x8E : BitVec 8).extractLsb' 0 5 = interruptGate := by
    split <;> rfl
  have hpresent : (if v = 128 then 0xEE else 0x8E : BitVec 8).getLsbD 7 = true := by
    split <;> rfl
  have hdpl : (if v = 128 then 0xEE else 0x8E : BitVec 8).extractLsb' 5 2 =
      if v = 128 then 3 else 0 := by
    split <;> rfl
  have hcode : ((bootTables sym stubs t esp0).view sym).lookup 0x08 = some (flat 0x9A) :=
    bootTables_flat sym stubs t esp0 (by decide) (by decide)
  rw [Lib.Descriptors.Tables.deliver_of_gate hlimit hgate hkind hpresent hcode rfl rfl rfl rfl
    (bootTables_stack0 sym stubs t esp0)]
  simp only [hdpl]
  congr 1
  apply propext
  constructor
  · rintro ⟨hsoftware, hring⟩
    by_cases hsyscall : v = 128
    · rw [if_pos hsyscall] at hring
      exact absurd hring (Nat.not_lt.mpr (Nat.le_of_lt_succ (Nat.mod_lt _ (by decide))))
    · rw [if_neg hsyscall] at hring
      exact ⟨hsoftware, Cpu.user_eq_true.mpr (Nat.pos_iff_ne_zero.mp hring), hsyscall⟩
  · rintro ⟨hsoftware, huser, hsyscall⟩
    rw [if_neg hsyscall]
    exact ⟨hsoftware, Nat.pos_iff_ne_zero.mpr (Cpu.user_eq_true.mp huser)⟩

/-- Every vector, whatever the processor was doing: the stubs of `isr.asm` are entered in ring
0, on the stack of the last `tss_set_kernel_stack` if the ring changes, with interrupts off.
Code of an outer ring can ask for vector 128 only, and a vector without a stub is a general
protection fault. -/
theorem vectors_delivered (c : Cpu) (v : Nat) (cause : Cause) :
    ((bootTables sym stubs t esp0).view sym).deliver c v cause =
      match stubs.vector v with
      | some stub =>
          if cause = .software ∧ c.user = true ∧ v ≠ 128 then .error .generalProtection
          else .ok ((c.interrupt esp0.toNat 0x10 0x08 stub.toNat).pushAll cause.words)
      | none => .error .generalProtection := by
  cases hvector : stubs.vector v with
  | none =>
      have hidt : ((bootTables sym stubs t esp0).view sym).idt v =
          ((idtInit sym stubs (gdtInit sym t)).idt v).raw := if_pos rfl
      rw [idtInit_idt, hvector] at hidt
      unfold Lib.Descriptors.Tables.deliver
      by_cases hlimit : ((bootTables sym stubs t esp0).view sym).idtLimit < 8 * v + 7
      · rw [if_pos hlimit]
      · have hkind : (gateOf noGate.raw).kind = 0 := rfl
        rw [if_neg hlimit, hidt]
        simp only [hkind]
        rfl
  | some stub => exact deliver_stub sym stubs t esp0 hvector c cause

end Boot

end StakOS.Cpu
