import StakOS.Elf.Fidelity
import StakOS.Lib.Lookup

/-!
# The bytes of the file that are read

The functions of `kernel/elf.c` once more, as computations that look bytes of the
file up, with the fields read where the source reads them.  None of them is given
the size of the file.
-/

namespace StakOS.Elf

open StakOS.Lib StakOS.Lib.Lookup StakOS.Lib.Memory StakOS.Lib.Loop StakOS.Paging

/-- A computation on the bytes behind `data`. -/
abbrev Reads (α : Type) := Lookup Nat UInt8 α

/-! ## Fields -/

def byte (a : Nat) : Reads Nat := do
  let b ← look a
  return b.toNat

def half (a : Nat) : Reads Nat := do
  let b₀ ← look a
  let b₁ ← look (a + 1)
  return b₀.toNat + 256 * b₁.toNat

def word (a : Nat) : Reads Nat := do
  let b₀ ← look a
  let b₁ ← look (a + 1)
  let b₂ ← look (a + 2)
  let b₃ ← look (a + 3)
  return b₀.toNat + 256 * b₁.toNat + 65536 * b₂.toNat + 16777216 * b₃.toNat

section Fields

variable (data : Mem) (a size : Nat)

@[simp] theorem value_byte : (byte a).value data = (data a).toNat := rfl
@[simp] theorem value_half : (half a).value data = read16 data a := rfl
@[simp] theorem value_word : (word a).value data = read32 data a := rfl

@[simp] theorem within_byte : Within (· < size) (byte a) data ↔ a + 1 ≤ size := by
  simp only [byte, within_bind, within_look, within_pure, and_true]
  omega

@[simp] theorem within_half : Within (· < size) (half a) data ↔ a + 2 ≤ size := by
  simp only [half, within_bind, within_look, within_pure, and_true]
  omega

@[simp] theorem within_word : Within (· < size) (word a) data ↔ a + 4 ≤ size := by
  simp only [word, within_bind, within_look, within_pure, and_true]
  omega

theorem byte_local : Local (byte a) := (Local.look a).bind fun _ => Local.pure _

theorem half_local : Local (half a) :=
  (Local.look a).bind fun _ => (Local.look (a + 1)).bind fun _ => Local.pure _

theorem word_local : Local (word a) :=
  (Local.look a).bind fun _ => (Local.look (a + 1)).bind fun _ =>
    (Local.look (a + 2)).bind fun _ => (Local.look (a + 3)).bind fun _ => Local.pure _

end Fields

/-! ## The functions of `elf.c` -/

def elf32ValidateR : Reads (Option Nat) :=
  require (word 0) (· == elfMagic) <|
  require (byte 4) (· == elfClass32) <|
  require (byte 5) (· == elfDataLe) <|
  require (half 16) (· == elfTypeExec) <|
  require (half 18) (· == elfMachine386) <|
  require (half 42) (· == phdrSize) <|
  require (half 44) (· != 0) <| do
    let e ← word 24
    return some e

/-- Where the program header lies in the file. -/
def elf32GetPhdrR (i : Nat) : Reads (Option Nat) := do
  let phnum ← half 44
  if i ≥ phnum then return none
  else
    let phoff ← word 28
    let phentsize ← half 42
    return some (add32 phoff (i * phentsize))

def elf32PhdrCountR : Reads Nat := half 44

/-- The part of the page at `va` that comes from the file, with the program header at
`ph` of which `seg` has the fields read so far. -/
def copyPartR (ph : Nat) (seg : Phdr) (va : Nat) (m : Mem) (frame : Nat) : Reads Mem :=
  if copyStart seg va < copyEnd seg va then do
    let offset ← word (ph + 4)
    let fileOff := add32 offset (copyStart seg va - seg.vaddr)
    let bytes ← lookAll ((List.range (copyEnd seg va - copyStart seg va)).map (add32 fileOff))
    return writeBytes m (frame + (copyStart seg va - va)) (fun j => bytes.getD j 0)
      (copyEnd seg va - copyStart seg va)
  else return m

def fillPageR (ph va : Nat) (m : Mem) (frame : Nat) : Reads Mem := do
  let m := writeBytes m frame (fun _ => 0) Pmm.pageSize
  let vaddr ← word (ph + 8)
  let filesz ← word (ph + 16)
  copyPartR ph ⟨ptLoad, 0, vaddr, filesz, 0, 0⟩ va m frame

def loadPagesR (ph flags pd : Nat) : List Nat → State → Reads (Outcome (State × Bool))
  | [], s => pure (.ok (s, true))
  | va :: vas, s =>
      let (pmm, frame) := Pmm.pmmAllocFrame s.pmm
      if frame = 0 then pure (.ok (⟨pmm, s.mem⟩, false))
      else do
        let m ← fillPageR ph va s.mem frame
        match pagingMapInto ⟨pmm, m⟩ pd va frame flags with
        | .error e => return .error e
        | .ok s => loadPagesR ph flags pd vas s

/-- The body of the loop over the program headers. -/
def loadEntryR (pd i : Nat) (s : State) : Reads (Outcome (State × Bool)) := do
  match ← elf32GetPhdrR i with
  | none => return .ok (s, true)
  | some ph =>
      let type ← word ph
      if type ≠ ptLoad then return .ok (s, true)
      else
        let memsz ← word (ph + 20)
        if memsz = 0 then return .ok (s, true)
        else
          let vaddr ← word (ph + 8)
          let flags ← word (ph + 24)
          let seg : Phdr := ⟨type, 0, vaddr, 0, memsz, flags⟩
          loadPagesR ph (segFlags seg) pd (segPages seg) s

def loadSegmentsR (pd : Nat) : List Nat → State → Reads (Outcome (State × Bool))
  | [], s => pure (.ok (s, true))
  | i :: is, s => do
      match ← loadEntryR pd i s with
      | .ok (s, true) => loadSegmentsR pd is s
      | r => return r

def elf32LoadR (s : State) (pd : Nat) : Reads (Outcome (State × Bool)) := do
  let count ← elf32PhdrCountR
  loadSegmentsR pd (List.range count) s

/-- What `run` does with a file once there is a process with the directory `pd`:
it is validated by the command and by `process_create_from_elf`, then loaded. -/
def runFile (s : State) (pd : Nat) : Reads (Option (Outcome (State × Bool))) := do
  match ← elf32ValidateR with
  | none => return none
  | some _ =>
      match ← elf32ValidateR with
      | none => return none
      | some _ =>
          let r ← elf32LoadR s pd
          return some r

/-! ## They compute what the functions compute -/

/-- The program header at `ph` in the file. -/
def phdrAt (data : Mem) (ph : Nat) : Phdr where
  type := read32 data ph
  offset := read32 data (ph + 4)
  vaddr := read32 data (ph + 8)
  filesz := read32 data (ph + 16)
  memsz := read32 data (ph + 20)
  flags := read32 data (ph + 24)

section Values

variable {data : Mem}

theorem value_elf32ValidateR : elf32ValidateR.value data = elf32Validate data := by
  unfold elf32ValidateR elf32Validate
  simp only [value_require, value_word, value_byte, value_half, value_bind, value_pure, beq_iff_eq,
    bne_iff_ne, ne_eq, ite_not]
  rfl

theorem elf32GetPhdr_eq (i : Nat) :
    elf32GetPhdr data i = ((elf32GetPhdrR i).value data).map (phdrAt data) := by
  unfold elf32GetPhdr elf32GetPhdrR
  rw [value_bind, value_half]
  by_cases hi : i ≥ read16 data 44
  · rw [if_pos hi]
    exact if_pos hi
  · rw [if_neg hi]
    exact if_neg hi

theorem value_copyPartR (ph : Nat) (seg : Phdr) (va : Nat) (m : Mem) (frame : Nat) :
    (copyPartR ph seg va m frame).value data =
      if copyStart seg va < copyEnd seg va then
        writeBytes m (frame + (copyStart seg va - va))
          (fun j => data (add32 (add32 (read32 data (ph + 4)) (copyStart seg va - seg.vaddr)) j))
          (copyEnd seg va - copyStart seg va)
      else m := by
  unfold copyPartR
  by_cases hcopy : copyStart seg va < copyEnd seg va
  · rw [if_pos hcopy, if_pos hcopy]
    simp only [value_bind, value_word, value_lookAll, value_pure]
    apply writeBytes_congr
    intro j hj
    rw [List.getD_eq_getElem _ _ (by simpa using hj)]
    simp only [List.getElem_map, List.getElem_range]
  · rw [if_neg hcopy, if_neg hcopy, value_pure]

theorem value_fillPageR (ph va : Nat) (m : Mem) (frame : Nat) :
    (fillPageR ph va m frame).value data = fillPage data (phdrAt data ph) va m frame := by
  unfold fillPageR
  rw [value_bind, value_bind, value_copyPartR]
  rfl

theorem value_loadPagesR (ph pd : Nat) (vas : List Nat) (s : State) :
    (loadPagesR ph (segFlags (phdrAt data ph)) pd vas s).value data =
      loadPages data (phdrAt data ph) pd vas s := by
  induction vas generalizing s with
  | nil => rfl
  | cons va vas ih =>
      rw [loadPagesR, loadPages]
      obtain ⟨pmm, frame, halloc⟩ : ∃ pmm frame, Pmm.pmmAllocFrame s.pmm = (pmm, frame) :=
        ⟨_, _, rfl⟩
      rw [halloc]
      by_cases hframe : frame = 0
      · simp only [if_pos hframe]
        rfl
      · simp only [if_neg hframe, value_bind, value_fillPageR]
        cases hmap : pagingMapInto ⟨pmm, fillPage data (phdrAt data ph) va s.mem frame⟩ pd va frame
            (segFlags (phdrAt data ph)) with
        | error e => rfl
        | ok s₁ =>
            rw [bind_ok]
            exact ih s₁

/-- The segments behind some of the program headers. -/
def loadableAt (data : Mem) (is : List Nat) : List Phdr :=
  (is.filterMap (elf32GetPhdr data)).filter fun ph =>
    decide (ph.type = ptLoad) && decide (ph.memsz ≠ 0)

theorem loadableAt_none {i : Nat} (is : List Nat) (h : (elf32GetPhdrR i).value data = none) :
    loadableAt data (i :: is) = loadableAt data is := by
  unfold loadableAt
  rw [List.filterMap_cons, elf32GetPhdr_eq, h]
  rfl

theorem loadableAt_some {i ph : Nat} (is : List Nat)
    (h : (elf32GetPhdrR i).value data = some ph) :
    loadableAt data (i :: is) =
      if (phdrAt data ph).type = ptLoad ∧ (phdrAt data ph).memsz ≠ 0 then
        phdrAt data ph :: loadableAt data is
      else loadableAt data is := by
  unfold loadableAt
  rw [List.filterMap_cons, elf32GetPhdr_eq, h]
  simp only [Option.map_some, List.filter_cons, Bool.and_eq_true, decide_eq_true_eq]

theorem value_loadEntryR (pd i : Nat) (s : State) :
    (loadEntryR pd i s).value data =
      match (elf32GetPhdrR i).value data with
      | none => .ok (s, true)
      | some ph =>
          if (phdrAt data ph).type = ptLoad ∧ (phdrAt data ph).memsz ≠ 0 then
            loadPages data (phdrAt data ph) pd (segPages (phdrAt data ph)) s
          else .ok (s, true) := by
  rw [loadEntryR, value_bind]
  cases (elf32GetPhdrR i).value data with
  | none => rfl
  | some ph =>
      dsimp only
      rw [value_bind]
      by_cases htype : (word ph).value data = ptLoad
      · rw [if_neg (not_not_intro htype), value_bind]
        by_cases hsize : (word (ph + 20)).value data = 0
        · rw [if_pos hsize, if_neg fun hload => hload.2 hsize]
          rfl
        · rw [if_neg hsize, if_pos ⟨htype, hsize⟩, value_bind, value_bind]
          exact value_loadPagesR ph pd _ s
      · rw [if_pos htype, if_neg fun hload => htype hload.1]
        rfl

theorem value_loadSegmentsR (pd : Nat) (is : List Nat) (s : State) :
    (loadSegmentsR pd is s).value data = loadSegments data pd (loadableAt data is) s := by
  induction is generalizing s with
  | nil => rfl
  | cons i is ih =>
      rw [loadSegmentsR, value_bind, value_loadEntryR]
      cases hph : (elf32GetPhdrR i).value data with
      | none =>
          rw [loadableAt_none is hph]
          exact ih s
      | some ph =>
          rw [loadableAt_some is hph]
          by_cases hload : (phdrAt data ph).type = ptLoad ∧ (phdrAt data ph).memsz ≠ 0
          · simp only [if_pos hload]
            rw [loadSegments]
            cases loadPages data (phdrAt data ph) pd (segPages (phdrAt data ph)) s with
            | error e => rfl
            | ok res =>
                obtain ⟨s₁, ok⟩ := res
                cases ok with
                | false => rfl
                | true => exact ih s₁
          · simp only [if_neg hload]
            exact ih s

theorem value_runFile (s : State) (pd : Nat) :
    (runFile s pd).value data = (elf32Validate data).map fun _ => elf32Load data s pd := by
  have hload : (elf32LoadR s pd).value data = elf32Load data s pd := by
    unfold elf32LoadR elf32PhdrCountR elf32Load
    rw [value_bind, value_half, value_loadSegmentsR]
    rfl
  unfold runFile
  rw [value_bind, value_elf32ValidateR]
  cases hvalid : elf32Validate data with
  | none => rfl
  | some e =>
      simp only [value_bind, value_elf32ValidateR, hvalid, hload]
      rfl

end Values

/-! ## They depend on what they read only -/

theorem elf32ValidateR_local : Local elf32ValidateR :=
  .require (word_local 0) <| .require (byte_local 4) <| .require (byte_local 5) <|
  .require (half_local 16) <| .require (half_local 18) <| .require (half_local 42) <|
  .require (half_local 44) <| (word_local 24).bind fun _ => Local.pure _

theorem elf32GetPhdrR_local (i : Nat) : Local (elf32GetPhdrR i) := by
  apply (half_local 44).bind
  intro phnum
  split
  · exact Local.pure none
  · exact (word_local 28).bind fun _ => (half_local 42).bind fun _ => Local.pure _

theorem fillPageR_local (ph va : Nat) (m : Mem) (frame : Nat) :
    Local (fillPageR ph va m frame) := by
  apply (word_local (ph + 8)).bind
  intro vaddr
  apply (word_local (ph + 16)).bind
  intro filesz
  unfold copyPartR
  split
  · exact (word_local (ph + 4)).bind fun _ => (Local.lookAll _).bind fun _ => Local.pure _
  · exact Local.pure _

theorem loadPagesR_local (ph flags pd : Nat) (vas : List Nat) (s : State) :
    Local (loadPagesR ph flags pd vas s) := by
  induction vas generalizing s with
  | nil => exact Local.pure _
  | cons va vas ih =>
      rw [loadPagesR]
      obtain ⟨pmm, frame, halloc⟩ : ∃ pmm frame, Pmm.pmmAllocFrame s.pmm = (pmm, frame) :=
        ⟨_, _, rfl⟩
      rw [halloc]
      by_cases hframe : frame = 0
      · simp only [if_pos hframe]
        exact Local.pure _
      · simp only [if_neg hframe]
        apply (fillPageR_local ph va s.mem frame).bind
        intro m
        cases pagingMapInto ⟨pmm, m⟩ pd va frame flags with
        | error e => exact Local.pure _
        | ok s₁ => exact ih s₁

theorem loadEntryR_local (pd i : Nat) (s : State) : Local (loadEntryR pd i s) := by
  apply (elf32GetPhdrR_local i).bind
  intro ph
  cases ph with
  | none => exact Local.pure _
  | some ph =>
      apply (word_local ph).bind
      intro type
      split
      · exact Local.pure _
      · apply (word_local (ph + 20)).bind
        intro memsz
        split
        · exact Local.pure _
        · apply (word_local (ph + 8)).bind
          intro vaddr
          apply (word_local (ph + 24)).bind
          intro flags
          exact loadPagesR_local ph _ pd _ s

theorem loadSegmentsR_local (pd : Nat) (is : List Nat) (s : State) :
    Local (loadSegmentsR pd is s) := by
  induction is generalizing s with
  | nil => exact Local.pure _
  | cons i is ih =>
      rw [loadSegmentsR]
      apply (loadEntryR_local pd i s).bind
      intro r
      split
      · exact ih _
      · exact Local.pure _

theorem runFile_local (s : State) (pd : Nat) : Local (runFile s pd) := by
  apply elf32ValidateR_local.bind
  intro e
  cases e with
  | none => exact Local.pure _
  | some e =>
      apply elf32ValidateR_local.bind
      intro e'
      cases e' with
      | none => exact Local.pure _
      | some e' =>
          apply Local.bind
          · exact (half_local 44).bind fun count => loadSegmentsR_local pd (List.range count) s
          · exact fun r => Local.pure (some r)

/-! ## Where the bytes lie -/

/-- The bytes that are copied into the page at `va` lie inside the file. -/
def CopyFits (ph : Phdr) (va size : Nat) : Prop :=
  ∀ j, j < copyEnd ph va - copyStart ph va →
    add32 (add32 ph.offset (copyStart ph va - ph.vaddr)) j < size

/-- How much of a program header is read. -/
def phdrRead (ph : Phdr) : Nat :=
  if ph.type ≠ ptLoad then 4 else if ph.memsz = 0 then 24 else 28

/-- What is read for the program header with index `i` lies inside the file. -/
def EntryFits (data : Mem) (size i : Nat) : Prop :=
  ∀ ph, (elf32GetPhdrR i).value data = some ph →
    ph + phdrRead (phdrAt data ph) ≤ size ∧
      ((phdrAt data ph).type = ptLoad → (phdrAt data ph).memsz ≠ 0 →
        ∀ va ∈ segPages (phdrAt data ph), CopyFits (phdrAt data ph) va size)

/-- The parts of an image that are read to load it lie inside the file: the header
up to the number of program headers, the program headers, and what is copied. -/
structure ReadPartsFit (data : Mem) (size : Nat) : Prop where
  header : 46 ≤ size
  entries : ∀ i, i < elf32PhdrCount data → EntryFits data size i

section Within

variable {data : Mem} {size : Nat}

theorem within_elf32ValidateR (hsize : 46 ≤ size) : Within (· < size) elf32ValidateR data := by
  unfold elf32ValidateR
  simp only [within_require, within_word, within_byte, within_half, within_bind, within_pure,
    and_true]
  omega

/-- An image is accepted only after the number of program headers has been read. -/
theorem header_le_of_within (hvalid : elf32Validate data ≠ none)
    (h : Within (· < size) elf32ValidateR data) : 46 ≤ size := by
  rw [← value_elf32ValidateR] at hvalid
  obtain ⟨h, hvalid⟩ := h.passed hvalid
  obtain ⟨h, hvalid⟩ := h.passed hvalid
  obtain ⟨h, hvalid⟩ := h.passed hvalid
  obtain ⟨h, hvalid⟩ := h.passed hvalid
  obtain ⟨h, hvalid⟩ := h.passed hvalid
  obtain ⟨h, -⟩ := h.passed hvalid
  exact (within_half data 44 size).mp ((within_require _ _ _).mp h).1

theorem within_elf32GetPhdrR (hsize : 46 ≤ size) (i : Nat) :
    Within (· < size) (elf32GetPhdrR i) data := by
  unfold elf32GetPhdrR
  rw [within_bind, within_half]
  refine ⟨by omega, ?_⟩
  split
  · exact within_pure _
  · simp only [within_bind, within_word, within_half, within_pure, and_true]
    omega

theorem within_fillPageR {ph : Nat} (hph : ph + 28 ≤ size) (va : Nat) (m : Mem) (frame : Nat) :
    Within (· < size) (fillPageR ph va m frame) data ↔ CopyFits (phdrAt data ph) va size := by
  have hpart : ∀ seg m, Within (· < size) (copyPartR ph seg va m frame) data ↔
      ∀ j, j < copyEnd seg va - copyStart seg va →
        add32 (add32 (read32 data (ph + 4)) (copyStart seg va - seg.vaddr)) j < size := by
    intro seg m
    unfold copyPartR
    by_cases hcopy : copyStart seg va < copyEnd seg va
    · rw [if_pos hcopy]
      simp only [within_bind, within_word, value_word, within_lookAll, within_pure, and_true,
        List.forall_mem_map, List.mem_range]
      exact and_iff_right (by omega)
    · rw [if_neg hcopy]
      refine iff_of_true (within_pure _) fun j hj => ?_
      omega
  unfold fillPageR
  rw [within_bind, within_word, within_bind, within_word, hpart]
  refine (and_iff_right ?_).trans (and_iff_right ?_)
  · omega
  · omega

/-- The page loop reads inside the file if every page does, -/
theorem within_loadPagesR {ph : Nat} (hph : ph + 28 ≤ size) (flags pd : Nat) {vas : List Nat}
    (hvas : ∀ va ∈ vas, CopyFits (phdrAt data ph) va size) (s : State) :
    Within (· < size) (loadPagesR ph flags pd vas s) data := by
  induction vas generalizing s with
  | nil => exact within_pure _
  | cons va vas ih =>
      rw [loadPagesR]
      obtain ⟨pmm, frame, halloc⟩ : ∃ pmm frame, Pmm.pmmAllocFrame s.pmm = (pmm, frame) :=
        ⟨_, _, rfl⟩
      rw [halloc]
      by_cases hframe : frame = 0
      · simp only [if_pos hframe]
        exact within_pure _
      · simp only [if_neg hframe]
        rw [within_bind, within_fillPageR hph]
        refine ⟨hvas va List.mem_cons_self, ?_⟩
        cases pagingMapInto ⟨pmm, (fillPageR ph va s.mem frame).value data⟩ pd va frame flags with
        | error e => exact within_pure _
        | ok s₁ => exact ih (fun va' hva' => hvas va' (List.mem_cons_of_mem va hva')) s₁

/-- and when it runs to its end, only then. -/
theorem copyFits_of_within {ph : Nat} (hph : ph + 28 ≤ size) {flags pd : Nat} {vas : List Nat}
    {s s' : State} (hloaded : (loadPagesR ph flags pd vas s).value data = .ok (s', true))
    (h : Within (· < size) (loadPagesR ph flags pd vas s) data) :
    ∀ va ∈ vas, CopyFits (phdrAt data ph) va size := by
  induction vas generalizing s with
  | nil => exact fun _ hva => nomatch hva
  | cons va vas ih =>
      rw [loadPagesR] at hloaded h
      obtain ⟨pmm, frame, halloc⟩ : ∃ pmm frame, Pmm.pmmAllocFrame s.pmm = (pmm, frame) :=
        ⟨_, _, rfl⟩
      rw [halloc] at hloaded h
      by_cases hframe : frame = 0
      · simp only [if_pos hframe, value_pure] at hloaded
        cases hloaded
      · simp only [if_neg hframe] at hloaded h
        rw [within_bind, within_fillPageR hph] at h
        rw [value_bind] at hloaded
        obtain ⟨hfirst, hrest⟩ := h
        cases hmap : pagingMapInto ⟨pmm, (fillPageR ph va s.mem frame).value data⟩ pd va frame
            flags with
        | error e =>
            rw [hmap] at hloaded
            cases hloaded
        | ok s₁ =>
            rw [hmap] at hloaded hrest
            intro va' hva'
            rcases List.mem_cons.mp hva' with rfl | hmem
            · exact hfirst
            · exact ih hloaded hrest va' hmem

/-- A program header that is not loaded is read up to its type or its size. -/
theorem phdrRead_cases (ph : Phdr) :
    (ph.type ≠ ptLoad ∧ phdrRead ph = 4) ∨ (ph.type = ptLoad ∧ ph.memsz = 0 ∧ phdrRead ph = 24) ∨
      (ph.type = ptLoad ∧ ph.memsz ≠ 0 ∧ phdrRead ph = 28) := by
  unfold phdrRead
  by_cases htype : ph.type = ptLoad
  · rw [if_neg (not_not_intro htype)]
    by_cases hsize : ph.memsz = 0
    · rw [if_pos hsize]
      exact Or.inr (Or.inl ⟨htype, hsize, rfl⟩)
    · rw [if_neg hsize]
      exact Or.inr (Or.inr ⟨htype, hsize, rfl⟩)
  · rw [if_pos htype]
    exact Or.inl ⟨htype, rfl⟩

theorem phdrRead_of_load {ph : Phdr} (htype : ph.type = ptLoad) (hmemsz : ph.memsz ≠ 0) :
    phdrRead ph = 28 := by
  unfold phdrRead
  rw [if_neg (not_not_intro htype), if_neg hmemsz]

/-- What the body of the loop reads for a program header that is there. -/
theorem within_loadEntryR {pd i ph : Nat} (hph : (elf32GetPhdrR i).value data = some ph)
    (s : State) :
    Within (· < size) (loadEntryR pd i s) data ↔
      Within (· < size) (elf32GetPhdrR i) data ∧ ph + phdrRead (phdrAt data ph) ≤ size ∧
        ((phdrAt data ph).type = ptLoad → (phdrAt data ph).memsz ≠ 0 →
          Within (· < size) (loadPagesR ph (segFlags (phdrAt data ph)) pd
            (segPages (phdrAt data ph)) s) data) := by
  rw [loadEntryR, within_bind, hph]
  refine and_congr_right fun _ => ?_
  dsimp only
  rw [within_bind, within_word]
  rcases phdrRead_cases (phdrAt data ph) with ⟨htype, hread⟩ | ⟨htype, hsize, hread⟩ |
    ⟨htype, hsize, hread⟩
  · rw [hread, if_pos (show (word ph).value data ≠ ptLoad from htype)]
    refine and_congr_right fun _ => ?_
    exact iff_of_true (within_pure _) fun h => absurd h htype
  · rw [hread, if_neg (show ¬ (word ph).value data ≠ ptLoad from not_not_intro htype), within_bind,
      within_word, if_pos (show (word (ph + 20)).value data = 0 from hsize)]
    constructor
    · rintro ⟨-, hle, -⟩
      exact ⟨hle, fun _ hne => absurd hsize hne⟩
    · rintro ⟨hle, -⟩
      exact ⟨by omega, hle, within_pure _⟩
  · rw [hread, if_neg (show ¬ (word ph).value data ≠ ptLoad from not_not_intro htype), within_bind,
      within_word, if_neg (show ¬ (word (ph + 20)).value data = 0 from hsize), within_bind,
      within_word, within_bind, within_word]
    constructor
    · rintro ⟨-, -, -, hle, hpages⟩
      exact ⟨hle, fun _ _ => hpages⟩
    · rintro ⟨hle, hpages⟩
      exact ⟨by omega, by omega, by omega, hle, hpages htype hsize⟩

theorem within_loadEntryR_none {pd i : Nat} (hph : (elf32GetPhdrR i).value data = none)
    (s : State) :
    Within (· < size) (loadEntryR pd i s) data ↔ Within (· < size) (elf32GetPhdrR i) data := by
  rw [loadEntryR, within_bind, hph]
  exact and_iff_left (within_pure _)

/-- The loop over the program headers reads inside the file if every entry does, -/
theorem within_loadSegmentsR (hsize : 46 ≤ size) (pd : Nat) {is : List Nat}
    (his : ∀ i ∈ is, EntryFits data size i) (s : State) :
    Within (· < size) (loadSegmentsR pd is s) data := by
  induction is generalizing s with
  | nil => exact within_pure _
  | cons i is ih =>
      rw [loadSegmentsR, within_bind]
      constructor
      · cases hph : (elf32GetPhdrR i).value data with
        | none => exact (within_loadEntryR_none hph s).mpr (within_elf32GetPhdrR hsize i)
        | some ph =>
            obtain ⟨hread, hcopy⟩ := his i List.mem_cons_self ph hph
            refine (within_loadEntryR hph s).mpr
              ⟨within_elf32GetPhdrR hsize i, hread, fun htype hmemsz => ?_⟩
            rw [phdrRead_of_load htype hmemsz] at hread
            exact within_loadPagesR hread _ pd (hcopy htype hmemsz) s
      · split
        · exact ih (fun i' hi' => his i' (List.mem_cons_of_mem i hi')) _
        · exact within_pure _

/-- and when it runs to its end, only then. -/
theorem entryFits_of_within {pd : Nat} {is : List Nat} {s s' : State}
    (hloaded : (loadSegmentsR pd is s).value data = .ok (s', true))
    (h : Within (· < size) (loadSegmentsR pd is s) data) : ∀ i ∈ is, EntryFits data size i := by
  induction is generalizing s with
  | nil => exact fun _ hi => nomatch hi
  | cons i is ih =>
      rw [loadSegmentsR, value_bind] at hloaded
      rw [loadSegmentsR, within_bind] at h
      obtain ⟨hentry, hnext⟩ := h
      generalize hvalue : (loadEntryR pd i s).value data = r at hloaded hnext
      split at hloaded
      · rename_i s₁
        intro i' hi'
        rcases List.mem_cons.mp hi' with rfl | hmem
        · intro ph hph
          obtain ⟨-, hread, hpages⟩ := (within_loadEntryR hph s).mp hentry
          refine ⟨hread, fun htype hmemsz => ?_⟩
          rw [phdrRead_of_load htype hmemsz] at hread
          apply copyFits_of_within hread _ (hpages htype hmemsz)
          · exact s₁
          · rw [value_loadEntryR, hph] at hvalue
            simp only [if_pos (And.intro htype hmemsz)] at hvalue
            rw [value_loadPagesR]
            exact hvalue
        · exact ih hloaded hnext i' hmem
      · rename_i hstopped
        cases hloaded
        exact absurd rfl (hstopped s')

end Within

/-! ## Reads and the size of the file -/

/-- The header, the program header table and the file range of every segment lie in
the first `size` bytes. -/
structure Ranges (data : Mem) (size : Nat) : Prop where
  size_le : size ≤ 2 ^ 32
  headerSize : 52 ≤ size
  table : (header data).phoff + (header data).phnum * phdrSize ≤ size
  segments : ∀ ph ∈ loadable data, ph.offset + ph.filesz ≤ size

theorem phentsize_of_validate {data : Mem} (h : elf32Validate data ≠ none) :
    (header data).phentsize = phdrSize := by
  unfold elf32Validate at h
  by_contra hne
  simp [hne] at h

/-- What is copied into a page lies in the segment's file range. -/
theorem copyFits_of_inside {ph : Phdr} {size : Nat} (va : Nat) (hsize : size ≤ 2 ^ 32)
    (hinside : ph.offset + ph.filesz ≤ size) : CopyFits ph va size := by
  intro j hj
  have hstart : ph.vaddr ≤ copyStart ph va := by
    unfold copyStart
    split <;> omega
  have hwrap : add32 ph.vaddr ph.filesz ≤ ph.vaddr + ph.filesz := Nat.mod_le _ _
  have hend : copyEnd ph va ≤ add32 ph.vaddr ph.filesz := by
    unfold copyEnd
    dsimp only
    split <;> omega
  rw [add32_of_lt (by omega : ph.offset + (copyStart ph va - ph.vaddr) < 2 ^ 32),
    add32_of_lt (by omega)]
  omega

theorem Ranges.readPartsFit {data : Mem} {size : Nat} (h : Ranges data size)
    (hvalid : elf32Validate data ≠ none) : ReadPartsFit data size := by
  have hsize := h.size_le
  have hheader := h.headerSize
  have htable := h.table
  refine ⟨by omega, fun i hi ph hph => ?_⟩
  have hentry : elf32GetPhdr data i = some (phdrAt data ph) := by
    rw [elf32GetPhdr_eq, hph, Option.map_some]
  have hoff : ph = (header data).phoff + i * phdrSize := by
    have hlt : (header data).phoff + i * phdrSize < 2 ^ 32 := by
      have hnum : i < (header data).phnum := hi
      unfold phdrSize at htable ⊢
      omega
    have hvalue : (elf32GetPhdrR i).value data =
        some (add32 (header data).phoff (i * (header data).phentsize)) := by
      have hcount : ¬ i ≥ (half 44).value data := Nat.not_le.mpr hi
      unfold elf32GetPhdrR
      rw [value_bind, if_neg hcount]
      rfl
    rw [hvalue, phentsize_of_validate hvalid, add32_of_lt hlt] at hph
    exact (Option.some.inj hph).symm
  have hread : phdrRead (phdrAt data ph) ≤ 28 := by
    unfold phdrRead
    split
    · omega
    · split <;> omega
  constructor
  · have hnum : i < (header data).phnum := hi
    unfold phdrSize at hoff htable
    omega
  · intro htype hmemsz va _
    apply copyFits_of_inside va hsize
    apply h.segments
    apply List.mem_filter.mpr
    refine ⟨List.mem_filterMap.mpr ⟨i, List.mem_range.mpr hi, hentry⟩, ?_⟩
    rw [Bool.and_eq_true]
    exact ⟨decide_eq_true htype, decide_eq_true hmemsz⟩

/-- What `run` reads of an image that is not accepted, or of one that is. -/
theorem within_runFile {data : Mem} {size : Nat} (s : State) (pd : Nat) :
    Within (· < size) (runFile s pd) data ↔
      Within (· < size) elf32ValidateR data ∧
        (elf32Validate data ≠ none → Within (· < size) (elf32LoadR s pd) data) := by
  unfold runFile
  rw [within_bind, value_elf32ValidateR]
  refine and_congr_right fun hfirst => ?_
  cases hvalid : elf32Validate data with
  | none => exact iff_of_true (within_pure _) fun h => absurd rfl h
  | some e =>
      dsimp only
      rw [within_bind, value_elf32ValidateR, hvalid]
      dsimp only
      rw [within_bind]
      constructor
      · rintro ⟨-, hload, -⟩ -
        exact hload
      · intro hload
        exact ⟨hfirst, hload (Option.some_ne_none e), within_pure _⟩

/-- **The bytes that `run` reads.**  If the header, the table and the segments lie in
the first `size` bytes, so does everything that is read.  Of an image that is loaded
to the end, the parts that are read are read whatever `size` is: the outcome is a
function of the bytes, and of no others than those. -/
theorem run_reads (data : Mem) (size : Nat) (s : State) (pd : Nat) :
    (Ranges data size → ∀ i ∈ (runFile s pd).keys data, i < size) ∧
    (∀ s', (runFile s pd).value data = some (.ok (s', true)) →
      ((∀ i ∈ (runFile s pd).keys data, i < size) ↔ ReadPartsFit data size)) ∧
    (runFile s pd).value data = (elf32Validate data).map (fun _ => elf32Load data s pd) ∧
    ∀ data', (∀ i ∈ (runFile s pd).keys data, data' i = data i) →
      (runFile s pd).value data' = (runFile s pd).value data := by
  have hfits : ReadPartsFit data size → Within (· < size) (elf32LoadR s pd) data := by
    intro hparts
    have hheader := hparts.header
    unfold elf32LoadR elf32PhdrCountR
    rw [within_bind, within_half]
    refine ⟨by omega, within_loadSegmentsR hheader pd (fun i hi => ?_) s⟩
    exact hparts.entries i (List.mem_range.mp hi)
  refine ⟨?_, ?_, value_runFile s pd, ?_⟩
  · intro hranges
    have hheader := hranges.headerSize
    refine (within_runFile s pd).mpr ⟨within_elf32ValidateR (by omega), fun hvalid => ?_⟩
    exact hfits (hranges.readPartsFit hvalid)
  · intro s' hvalue
    rw [value_runFile] at hvalue
    obtain ⟨e, hsome, hload⟩ := Option.map_eq_some_iff.mp hvalue
    have hvalid : elf32Validate data ≠ none := by
      rw [hsome]
      exact Option.some_ne_none e
    refine (within_runFile s pd).trans ⟨?_, ?_⟩
    · rintro ⟨hfirst, hrest⟩
      have hwithin := hrest hvalid
      unfold elf32LoadR elf32PhdrCountR at hwithin
      rw [within_bind] at hwithin
      refine ⟨header_le_of_within hvalid hfirst, fun i hi => ?_⟩
      have hloaded : (loadSegmentsR pd (List.range ((half 44).value data)) s).value data =
          .ok (s', true) := by
        rw [value_loadSegmentsR]
        exact hload
      exact entryFits_of_within hloaded hwithin.2 i (List.mem_range.mpr hi)
    · intro hparts
      exact ⟨within_elf32ValidateR hparts.header, fun _ => hfits hparts⟩
  · intro data' hsame
    exact congrArg Prod.snd (runFile_local s pd data data' hsame)

/-- The sample program cut off after its second byte of text: it is loaded all the
same, with two bytes from behind the file. -/
theorem truncated_file_loaded :
    ¬ Ranges textProgram 86 ∧ 87 ∈ (runFile firstDir.1 firstDir.2).keys textProgram ∧
      ∃ s', (runFile firstDir.1 firstDir.2).value textProgram = some (.ok (s', true)) := by
  have hrange : (⟨1, 84, 0x8048000, 4, 16, 5⟩ : Phdr) ∈ loadable textProgram := by decide +kernel
  have hkey : 87 ∈ (runFile firstDir.1 firstDir.2).keys textProgram := by decide +kernel
  have hload : ((runFile firstDir.1 firstDir.2).value textProgram).any
      (fun x => returnsWith x fun r => r.2) = true := by decide +kernel
  refine ⟨fun h => absurd (h.segments _ hrange) (by decide), hkey, ?_⟩
  obtain ⟨x, hvalue, hreturns⟩ := (Option.any_eq_true ..).mp hload
  obtain ⟨⟨s', ok⟩, rfl, rfl⟩ := returnsWith_iff.mp hreturns
  exact ⟨s', hvalue⟩

end StakOS.Elf
