import StakOS.Elf.Load
import StakOS.Paging.Walk

/-!
# The image a program is loaded as

`elf32_load` builds every page of a segment in a fresh frame and maps it over
whatever was there.  Seen through the directory, this is a map from page numbers
to flags and bytes in which later segments replace earlier ones.
-/

namespace StakOS.Elf

open StakOS.Lib.Memory StakOS.Lib.Loop StakOS.Paging

/-! ## The pages of a segment -/

/-- The byte at offset `o` of the page at `va` as the segment fills it. -/
def pageBytes (data : Mem) (ph : Phdr) (va o : Nat) : UInt8 :=
  if copyStart ph va ≤ va + o ∧ va + o < copyEnd ph va then
    data (add32 (add32 ph.offset (copyStart ph va - ph.vaddr)) (va + o - copyStart ph va))
  else 0

theorem fillPage_apply (data : Mem) (ph : Phdr) (va : Nat) (m : Mem) (frame : Nat) {o : Nat}
    (ho : o < 4096) : fillPage data ph va m frame (frame + o) = pageBytes data ph va o := by
  have hstart := le_copyStart ph va
  have hzero : writeBytes m frame (fun _ => 0) Pmm.pageSize (frame + o) = 0 :=
    writeBytes_of_lt m frame (fun _ => 0) ho
  unfold fillPage pageBytes
  by_cases hcopy : copyStart ph va < copyEnd ph va
  · simp only [if_pos hcopy]
    by_cases hin : copyStart ph va ≤ va + o ∧ va + o < copyEnd ph va
    · rw [if_pos hin]
      have haddr : frame + o = frame + (copyStart ph va - va) + (va + o - copyStart ph va) := by
        omega
      rw [haddr, writeBytes_of_lt _ _ _ (by omega)]
    · rw [if_neg hin, writeBytes_of_disjoint _ _ _ (by omega)]
      exact hzero
  · simp only [if_neg hcopy]
    rw [if_neg (by omega)]
    exact hzero

/-- The file's part of a page, by address, where neither the addresses nor the offsets
wrap around. -/
theorem pageBytes_eq {data : Mem} {ph : Phdr} {va o : Nat} (hend : ph.vaddr + ph.filesz < 2 ^ 32)
    (hfile : ∀ k, k < ph.filesz → ph.offset + k < 2 ^ 32) (hva : va + 4096 < 2 ^ 32)
    (ho : o < 4096) :
    pageBytes data ph va o =
      if ph.vaddr ≤ va + o ∧ va + o < ph.vaddr + ph.filesz then
        data (ph.offset + (va + o - ph.vaddr)) else 0 := by
  have hpage : add32 va Pmm.pageSize = va + 4096 := add32_of_lt hva
  have hsum : add32 ph.vaddr ph.filesz = ph.vaddr + ph.filesz := add32_of_lt hend
  have hstart : copyStart ph va ≤ va + o ↔ ph.vaddr ≤ va + o := by
    unfold copyStart
    split <;> omega
  have hstop : va + o < copyEnd ph va ↔ va + o < ph.vaddr + ph.filesz := by
    unfold copyEnd
    simp only [hpage, hsum]
    split <;> omega
  unfold pageBytes
  simp only [hstart, hstop]
  by_cases hin : ph.vaddr ≤ va + o ∧ va + o < ph.vaddr + ph.filesz
  · rw [if_pos hin, if_pos hin]
    have hle : ph.vaddr ≤ copyStart ph va := by
      unfold copyStart
      split <;> omega
    have hle' := hstart.mpr hin.1
    have hlast := hfile (va + o - ph.vaddr) (by omega)
    have hoff : add32 ph.offset (copyStart ph va - ph.vaddr) =
        ph.offset + (copyStart ph va - ph.vaddr) := add32_of_lt (by omega)
    have hidx : add32 (ph.offset + (copyStart ph va - ph.vaddr)) (va + o - copyStart ph va) =
        ph.offset + (copyStart ph va - ph.vaddr) + (va + o - copyStart ph va) :=
      add32_of_lt (by omega)
    have hplace : ph.offset + (copyStart ph va - ph.vaddr) + (va + o - copyStart ph va) =
        ph.offset + (va + o - ph.vaddr) := by omega
    rw [hoff, hidx, hplace]
  · rw [if_neg hin, if_neg hin]

/-- The segment has a byte in page number `p`, counted without wrap-around. -/
def Touches (ph : Phdr) (p : Nat) : Prop :=
  ph.vaddr < 4096 * p + 4096 ∧ 4096 * p < ph.vaddr + ph.memsz

instance (ph : Phdr) (p : Nat) : Decidable (Touches ph p) := inferInstanceAs (Decidable (_ ∧ _))

theorem mem_segPages_iff_between {ph : Phdr} {p : Nat} :
    4096 * p ∈ segPages ph ↔ segStart ph ≤ 4096 * p ∧ 4096 * p < segEnd ph := by
  have hal := segStart_aligned ph
  have hal' : segEnd ph % 4096 = 0 := frameOf_aligned _
  unfold segPages Pmm.pageSize
  rw [List.mem_map]
  constructor
  · rintro ⟨n, hn, heq⟩
    have hlt := List.mem_range.mp hn
    omega
  · rintro ⟨hle, hlt⟩
    refine ⟨p - segStart ph / 4096, List.mem_range.mpr ?_, ?_⟩
    · omega
    · omega

/-- Where the end of a segment does not wrap around, its pages are those it has a
byte in. -/
theorem mem_segPages_iff {ph : Phdr} {p : Nat} (hend : ph.vaddr + ph.memsz ≤ 2 ^ 32 - 4096) :
    4096 * p ∈ segPages ph ↔ Touches ph p := by
  have hsum : add32 ph.vaddr ph.memsz = ph.vaddr + ph.memsz := add32_of_lt (by omega)
  have hround : add32 (ph.vaddr + ph.memsz) 0xFFF = ph.vaddr + ph.memsz + 0xFFF :=
    add32_of_lt (by omega)
  rw [mem_segPages_iff_between]
  unfold segStart segEnd Touches
  rw [hsum, hround]
  unfold frameOf
  omega

/-! ## Layouts -/

/-- A loaded page: its flags and its bytes. -/
structure Page where
  flags : Nat
  bytes : Nat → UInt8

/-- What an address space shows, by page number. -/
abbrev Layout := Nat → Option Page

/-- The page at `va` as the segment loads it. -/
def segPage (data : Mem) (ph : Phdr) (va : Nat) : Page := ⟨segFlags ph, pageBytes data ph va⟩

def placePages (data : Mem) (ph : Phdr) (vas : List Nat) (l : Layout) : Layout :=
  vas.foldl (fun l va => Function.update l (va / 4096) (some (segPage data ph va))) l

/-- The segments placed one after the other. -/
def placeSegments (data : Mem) (phs : List Phdr) (l : Layout) : Layout :=
  phs.foldl (fun l ph => placePages data ph (segPages ph) l) l

theorem placePages_apply (data : Mem) (ph : Phdr) {vas : List Nat} (l : Layout) {p : Nat}
    (hvas : ∀ va ∈ vas, va % 4096 = 0) :
    placePages data ph vas l p =
      if 4096 * p ∈ vas then some (segPage data ph (4096 * p)) else l p := by
  induction vas generalizing l with
  | nil => rfl
  | cons va vas ih =>
      have hal := hvas va List.mem_cons_self
      have hrest := ih (Function.update l (va / 4096) (some (segPage data ph va)))
        fun va' hva' => hvas va' (List.mem_cons_of_mem va hva')
      rw [placePages, List.foldl_cons]
      refine hrest.trans ?_
      by_cases hmem : 4096 * p ∈ vas
      · rw [if_pos hmem, if_pos (List.mem_cons_of_mem va hmem)]
      · rw [if_neg hmem]
        by_cases heq : 4096 * p = va
        · have hp : va / 4096 = p := by omega
          rw [hp, Function.update_self, if_pos (heq ▸ List.mem_cons_self), heq]
        · have hp : p ≠ va / 4096 := by omega
          rw [Function.update_of_ne hp, if_neg]
          exact fun hin => (List.mem_cons.mp hin).elim heq hmem

/-- A page shows the last segment that was placed on it. -/
theorem placeSegments_apply (data : Mem) (phs : List Phdr) (l : Layout) (p : Nat) :
    placeSegments data phs l p =
      (((phs.filter fun ph => decide (4096 * p ∈ segPages ph)).getLast?).map
        fun ph => segPage data ph (4096 * p)).or (l p) := by
  induction phs generalizing l with
  | nil => rfl
  | cons ph phs ih =>
      have hplace := placePages_apply data ph l (p := p)
        fun va (hva : va ∈ segPages ph) => (mem_segPages hva).1
      rw [placeSegments, List.foldl_cons]
      refine (ih (placePages data ph (segPages ph) l)).trans ?_
      rw [hplace]
      by_cases hmem : 4096 * p ∈ segPages ph
      · rw [if_pos hmem, List.filter_cons, if_pos (decide_eq_true hmem), List.getLast?_cons]
        cases (phs.filter fun ph => decide (4096 * p ∈ segPages ph)).getLast? with
        | none => rfl
        | some last => rfl
      · rw [if_neg hmem, List.filter_cons_of_neg (by simpa using hmem)]

/-! ## What a directory shows -/

/-- A frame in use that the directory does not use for itself. -/
structure Clear (s : State) (pd a : Nat) : Prop where
  used : a ∈ Pmm.usedFrames s.pmm
  ne_pd : a ≠ pd
  ne_table : ∀ i, i < pdEntries → hasFlag (entry s.mem pd i) pdePresent = true →
    frameOf (entry s.mem pd i) ≠ a

/-- The page with number `p` is shown through the frame `a`. -/
structure ShownBy (s : State) (pd p : Nat) (pg : Page) (a : Nat) : Prop where
  clear : Clear s pd a
  walk : ∀ va, va < 2 ^ 32 → va / 4096 = p → walk s.mem pd va = some (a, pg.flags)
  user : ∀ va, va < 2 ^ 32 → va / 4096 = p → hasFlag (pdeAt s.mem pd va) pdeUser = true
  bytes : ∀ o, o < 4096 → s.mem (a + o) = pg.bytes o

/-- The directory shows the layout, and what the memory `m₀` had elsewhere. -/
structure Shows (st : Statics) (m₀ : Mem) (s : State) (pd : Nat) (l : Layout) : Prop where
  ok : PdOk st s pd
  writable : WritableTables s.mem pd
  page : ∀ p pg, l p = some pg → ∃ a, ShownBy s pd p pg a
  rest : ∀ va, va < 2 ^ 32 → l (va / 4096) = none → walk s.mem pd va = walk m₀ pd va

theorem Shows.start {st : Statics} {s : State} {pd : Nat} (hok : PdOk st s pd)
    (hwritable : WritableTables s.mem pd) : Shows st s.mem s pd fun _ => none :=
  ⟨hok, hwritable, fun _ _ h => (by cases h), fun _ _ _ => rfl⟩

section Steps

variable {st : Statics} {m₀ m : Mem} {s s' : State} {pmm : Pmm.State} {pd a b virt flags pt : Nat}
  {l : Layout}

/-- A new frame is neither the directory nor one of its tables, so the directory
reads the same once it is filled. -/
theorem PdOk.entry_fill (hok : PdOk st s pd) (halloc : Pmm.pmmAllocFrame s.pmm = (pmm, a))
    (ha : a ≠ 0) (hfill : SameOff {a} s.mem m) :
    pd ≠ a ∧ (∀ i, i < pdEntries → entry m pd i = entry s.mem pd i) ∧
      ∀ va, va < 2 ^ 32 → walk m pd va = walk s.mem pd va := by
  have hfresh := (Pmm.pmmAllocFrame_some halloc ha).1
  have hpd : pd % 4096 = 0 := Pmm.usedFrames_aligned hok.used
  have hne : pd ≠ a := fun heq => hfresh (heq ▸ hok.used)
  have hout : pd ∉ ({a} : Set Nat) := fun hmem => hne (Set.mem_singleton_iff.mp hmem)
  refine ⟨hne, fun i hi => hfill.entry_eq hpd hi hout, fun va hva => ?_⟩
  apply walk_sameOff hfill hva hpd hout
  intro hpresent hmem
  have hused := (hok.present_used (pdIdx_lt hva) hpresent).1
  exact hfresh (Set.mem_singleton_iff.mp hmem ▸ hused)

/-- The directory and its tables are in use, so a new frame is none of them. -/
theorem Clear.of_alloc (hok : PdOk st s pd) (halloc : Pmm.pmmAllocFrame s.pmm = (pmm, a))
    (ha : a ≠ 0) (hfill : SameOff {a} s.mem m) : Clear ⟨pmm, m⟩ pd a := by
  obtain ⟨hfresh, hused, -⟩ := Pmm.pmmAllocFrame_some halloc ha
  obtain ⟨hne, hentry, -⟩ := PdOk.entry_fill hok halloc ha hfill
  refine ⟨?_, Ne.symm hne, ?_⟩
  · change a ∈ Pmm.usedFrames pmm
    rw [hused]
    exact Set.mem_insert a _
  · intro i hi hpresent heq
    change hasFlag (entry m pd i) pdePresent = true at hpresent
    change frameOf (entry m pd i) = a at heq
    rw [hentry i hi] at hpresent heq
    exact hfresh (heq ▸ (hok.present_used hi hpresent).1)

/-- Filling a new frame leaves the others clear. -/
theorem Clear.fill (h : Clear s pd b) (hok : PdOk st s pd)
    (halloc : Pmm.pmmAllocFrame s.pmm = (pmm, a)) (ha : a ≠ 0) (hfill : SameOff {a} s.mem m) :
    Clear ⟨pmm, m⟩ pd b ∧ b ≠ a := by
  obtain ⟨hfresh, hused, -⟩ := Pmm.pmmAllocFrame_some halloc ha
  obtain ⟨-, hentry, -⟩ := PdOk.entry_fill hok halloc ha hfill
  refine ⟨⟨?_, h.ne_pd, ?_⟩, fun heq => hfresh (heq ▸ h.used)⟩
  · change b ∈ Pmm.usedFrames pmm
    rw [hused]
    exact Set.mem_insert_of_mem a h.used
  · intro i hi hpresent
    change hasFlag (entry m pd i) pdePresent = true at hpresent
    change frameOf (entry m pd i) ≠ b
    rw [hentry i hi] at hpresent ⊢
    exact h.ne_table i hi hpresent

/-- Mapping a page leaves clear frames clear and does not write to them. -/
theorem Clear.maps (h : Clear s pd b) (hmap : WalksTo s s' pd virt a flags pt) :
    Clear s' pd b ∧ b ∉ ({pd, pt} : Set Nat) := by
  have hpt : b ≠ pt ∧ Pmm.usedFrames s.pmm ⊆ Pmm.usedFrames s'.pmm := by
    rcases hmap.origin with ⟨hpresent, htable, hpmm⟩ | ⟨halloc, hpt⟩
    · rw [hpmm, ← htable]
      exact ⟨Ne.symm (h.ne_table _ hmap.index hpresent), subset_rfl⟩
    · obtain ⟨hfresh, hused, -⟩ := Pmm.pmmAllocFrame_some halloc hpt
      rw [hused]
      exact ⟨fun heq => hfresh (heq ▸ h.used), Set.subset_insert pt _⟩
  refine ⟨⟨hpt.2 h.used, h.ne_pd, ?_⟩, notMem_pair h.ne_pd hpt.1⟩
  intro i hi hpresent
  rcases hmap.tables i hi hpresent with htable | ⟨hold, hsame⟩
  · rw [htable]
    exact Ne.symm hpt.1
  · rw [hsame]
    exact h.ne_table i hi hold

/-- Bytes of a frame that is not written to. -/
theorem SameOff.apply_add {fs : Set Nat} {o : Nat} (h : SameOff fs s.mem m)
    (hb : b ∈ Pmm.usedFrames s.pmm) (hout : b ∉ fs) (ho : o < 4096) : m (b + o) = s.mem (b + o) := by
  have hal : b % 4096 = 0 := Pmm.usedFrames_aligned hb
  have hframe : frameOf (b + o) = b := by
    unfold frameOf
    omega
  exact h _ (by rw [hframe]; exact hout)

/-- Filling a new frame changes nothing that the directory shows. -/
theorem Shows.fill (h : Shows st m₀ s pd l) (halloc : Pmm.pmmAllocFrame s.pmm = (pmm, a))
    (ha : a ≠ 0) (hfill : SameOff {a} s.mem m) : Shows st m₀ ⟨pmm, m⟩ pd l := by
  obtain ⟨-, hentry, hwalk⟩ := PdOk.entry_fill h.ok halloc ha hfill
  refine ⟨(h.ok.fill halloc ha hfill).1, ?_, ?_, ?_⟩
  · intro i hi hpresent
    change hasFlag (entry m pd i) pdePresent = true at hpresent
    change hasFlag (entry m pd i) pdeWritable = true
    rw [hentry i hi] at hpresent ⊢
    exact h.writable i hi hpresent
  · intro p pg hp
    obtain ⟨b, hb⟩ := h.page p pg hp
    obtain ⟨hclear, hne⟩ := hb.clear.fill h.ok halloc ha hfill
    refine ⟨b, hclear, ?_, ?_, ?_⟩
    · intro va hva hpage
      exact (hwalk va hva).trans (hb.walk va hva hpage)
    · intro va hva hpage
      change hasFlag (entry m pd (pdIdx va)) pdeUser = true
      rw [hentry _ (pdIdx_lt hva)]
      exact hb.user va hva hpage
    · intro o ho
      have hout : b ∉ ({a} : Set Nat) := fun hmem => hne (Set.mem_singleton_iff.mp hmem)
      exact (SameOff.apply_add hfill hb.clear.used hout ho).trans (hb.bytes o ho)
  · intro va hva hnone
    exact (hwalk va hva).trans (h.rest va hva hnone)

/-- Mapping a clear frame at a page makes the directory show its bytes there. -/
theorem Shows.map (h : Shows st m₀ s pd l) (pg : Page) (hvirt : virt < 2 ^ 32)
    (hmapping : Mapping a pg.flags) (huser : hasFlag pg.flags pteUser = true)
    (hclear : Clear s pd a) (hbytes : ∀ o, o < 4096 → s.mem (a + o) = pg.bytes o)
    (hmap : pagingMapInto s pd virt a pg.flags = .ok s') :
    Shows st m₀ s' pd (Function.update l (virt / 4096) (some pg)) := by
  obtain ⟨pt, hwalks⟩ := pagingMapInto_walk h.ok hvirt hmapping hmap
  have hbit : pg.flags.testBit 0 = true := (hasFlag_present _).symm.trans hmapping.present
  have hkept : ∀ b o, Clear s pd b → o < 4096 → s'.mem (b + o) = s.mem (b + o) := fun b o hb ho =>
    SameOff.apply_add hwalks.same hb.used (hb.maps hwalks).2 ho
  refine ⟨h.ok.maps (pagingMapInto_spec h.ok hvirt hmapping.aligned hmapping.word hmapping.small
    hbit hmap), hwalks.writable h.writable, ?_, ?_⟩
  · intro p pg' hp
    by_cases hpage : p = virt / 4096
    · rw [hpage, Function.update_self] at hp
      cases hp
      refine ⟨a, (hclear.maps hwalks).1, ?_, ?_, ?_⟩
      · intro va hva hva'
        rw [hwalks.walk va hva, if_pos (hva'.trans hpage)]
      · intro va hva hva'
        have hidx := (page_eq_iff.mp (hva'.trans hpage)).1
        have hpde := hwalks.user huser
        unfold pdeAt at hpde ⊢
        rw [hidx]
        exact hpde
      · intro o ho
        exact (hkept a o hclear ho).trans (hbytes o ho)
    · rw [Function.update_of_ne hpage] at hp
      obtain ⟨b, hb⟩ := h.page p pg' hp
      refine ⟨b, (hb.clear.maps hwalks).1, ?_, ?_, ?_⟩
      · intro va hva hva'
        rw [hwalks.walk va hva, if_neg fun heq => hpage (hva'.symm.trans heq)]
        exact hb.walk va hva hva'
      · intro va hva hva'
        exact hwalks.keeps va hva (present_of_walk (hb.walk va hva hva')) (hb.user va hva hva')
      · intro o ho
        exact (hkept b o hb.clear ho).trans (hb.bytes o ho)
  · intro va hva hnone
    have hpage : va / 4096 ≠ virt / 4096 := by
      intro heq
      rw [heq, Function.update_self] at hnone
      cases hnone
    rw [Function.update_of_ne hpage] at hnone
    rw [hwalks.walk va hva, if_neg hpage]
    exact h.rest va hva hnone

end Steps

/-! ## Loading -/

theorem segFlags_mapping (ph : Phdr) {a : Nat} {pmm : Pmm.State} (ha : a ∈ Pmm.usedFrames pmm) :
    Mapping a (segFlags ph) ∧ hasFlag (segFlags ph) pteUser = true := by
  have hal : a % 4096 = 0 := Pmm.usedFrames_aligned ha
  have hlt := Pmm.usedFrames_lt ha
  unfold segFlags
  split
  · exact ⟨⟨hal, by omega, by decide, by decide⟩, by decide⟩
  · exact ⟨⟨hal, by omega, by decide, by decide⟩, by decide⟩

/-- The page loop places its pages. -/
theorem loadPages_shows {st : Statics} {m₀ : Mem} {s s' : State} {data : Mem} {ph : Phdr}
    {pd : Nat} {vas : List Nat} {l : Layout} (h : Shows st m₀ s pd l)
    (hvas : ∀ va ∈ vas, va % 4096 = 0 ∧ va + 4096 < 2 ^ 32)
    (hload : loadPages data ph pd vas s = .ok (s', true)) :
    Shows st m₀ s' pd (placePages data ph vas l) := by
  induction vas generalizing s l with
  | nil =>
      rw [loadPages] at hload
      cases hload
      exact h
  | cons va vas ih =>
      obtain ⟨hal, hlt⟩ := hvas va List.mem_cons_self
      rcases loadPages_cases hload with ⟨-, -, -, hfalse⟩ | ⟨pmm, a, s₁, halloc, ha, hmap, hrest⟩
      · cases hfalse
      · have haligned : a % 4096 = 0 := (Pmm.pmmAllocFrame_some halloc ha).2.2.1
        have hfill : SameOff {a} s.mem (fillPage data ph va s.mem a) := fun x hx =>
          fillPage_frame data ph s.mem hlt haligned fun hxa => hx hxa
        have hclear := Clear.of_alloc h.ok halloc ha hfill
        obtain ⟨hmapping, huser⟩ := segFlags_mapping ph hclear.used
        have hstep := (h.fill halloc ha hfill).map (segPage data ph va) (by omega) hmapping
          huser hclear (fun o ho => fillPage_apply data ph va s.mem a ho) hmap
        exact ih hstep (fun va' hva' => hvas va' (List.mem_cons_of_mem va hva')) hrest

/-- The loop over the program headers places the segments. -/
theorem loadSegments_shows {st : Statics} {m₀ : Mem} {s s' : State} {data : Mem} {pd : Nat}
    {phs : List Phdr} {l : Layout} (h : Shows st m₀ s pd l)
    (hload : loadSegments data pd phs s = .ok (s', true)) :
    Shows st m₀ s' pd (placeSegments data phs l) := by
  induction phs generalizing s l with
  | nil =>
      rw [loadSegments] at hload
      cases hload
      exact h
  | cons ph phs ih =>
      rw [loadSegments] at hload
      obtain ⟨⟨s₁, ok⟩, hpages, hrest⟩ := bind_eq_ok.mp hload
      cases ok with
      | false => cases hrest
      | true => exact ih (loadPages_shows h (fun va hva => mem_segPages hva) hpages) hrest

end StakOS.Elf
