import Mathlib.Data.Set.Card
import Mathlib.Order.Interval.Finset.Nat
import StakOS.Elf.Fidelity

/-!
# A segment is copied page by page

The page loop of `elf32_load` cuts a segment at page boundaries and copies into each
frame what the file has for it.  One after the other the frames are the segment in one
piece: zeros up to `vaddr`, the bytes of the file, and zeros again up to `seg_end`.
-/

namespace StakOS.Elf

open StakOS.Lib.Memory StakOS.Lib.Loop StakOS.Paging

/-! ## One page -/

/-- The stores of one turn of the page loop, `dst[p.1] = p.2`, in their order. -/
def fillStores (data : Mem) (ph : Phdr) (va : Nat) : List (Nat × UInt8) :=
  (List.range Pmm.pageSize).map (fun j => (j, 0)) ++
    if copyStart ph va < copyEnd ph va then
      (List.range (copyEnd ph va - copyStart ph va)).map fun j =>
        (copyStart ph va - va + j,
          data (add32 (add32 ph.offset (copyStart ph va - ph.vaddr)) j))
    else []

theorem writeBytes_eq_foldl (m : Mem) (base off : Nat) (f : Nat → UInt8) (n : Nat) :
    writeBytes m (base + off) f n =
      ((List.range n).map fun j => (off + j, f j)).foldl (fun m p => write8 m (base + p.1) p.2) m := by
  induction n with
  | zero => rfl
  | succ n ih =>
      rw [List.range_succ, List.map_append, List.foldl_append, ← ih, writeBytes, Nat.add_assoc]
      rfl

theorem fillPage_eq_foldl (data : Mem) (ph : Phdr) (va : Nat) (m : Mem) (frame : Nat) :
    fillPage data ph va m frame =
      (fillStores data ph va).foldl (fun m p => write8 m (frame + p.1) p.2) m := by
  have hzero : writeBytes m frame (fun _ => 0) Pmm.pageSize =
      ((List.range Pmm.pageSize).map fun j => (j, (0 : UInt8))).foldl
        (fun m p => write8 m (frame + p.1) p.2) m := by
    have h := writeBytes_eq_foldl m frame 0 (fun _ => 0) Pmm.pageSize
    simp only [Nat.zero_add, Nat.add_zero] at h
    exact h
  unfold fillPage fillStores
  rw [List.foldl_append, ← hzero]
  split
  · exact writeBytes_eq_foldl _ frame _ _ _
  · rfl

/-- No store leaves the frame. -/
theorem fillStores_lt {data : Mem} {ph : Phdr} {va : Nat} (hva : va + 4096 < 2 ^ 32)
    {p : Nat × UInt8} (hp : p ∈ fillStores data ph va) : p.1 < 4096 := by
  have hstart := le_copyStart ph va
  have hend := copyEnd_le ph hva
  rcases List.mem_append.mp hp with hzero | hcopy
  · obtain ⟨j, hj, rfl⟩ := List.mem_map.mp hzero
    exact List.mem_range.mp hj
  · split at hcopy
    · obtain ⟨j, hj, rfl⟩ := List.mem_map.mp hcopy
      have hlt := List.mem_range.mp hj
      dsimp only
      omega
    · cases hcopy

/-! ## The frames of the loop -/

/-- The frames that the page loop fills, each with its bytes once it is filled. -/
def pageFills (data : Mem) (ph : Phdr) (pd : Nat) : List Nat → State → List (Nat × List UInt8)
  | [], _ => []
  | va :: vas, s =>
      let (pmm, frame) := Pmm.pmmAllocFrame s.pmm
      if frame = 0 then []
      else
        let m := fillPage data ph va s.mem frame
        (frame, bytesAt m frame Pmm.pageSize) ::
          match pagingMapInto ⟨pmm, m⟩ pd va frame (segFlags ph) with
          | .ok s => pageFills data ph pd vas s
          | .error _ => []

section Fills

variable {data : Mem} {ph : Phdr} {pd va a : Nat} {vas : List Nat} {s s' s₁ : State}
  {pmm : Pmm.State} {st : Statics}

theorem pageFills_of_page (halloc : Pmm.pmmAllocFrame s.pmm = (pmm, a)) (ha : a ≠ 0)
    (hmap : pagingMapInto ⟨pmm, fillPage data ph va s.mem a⟩ pd va a (segFlags ph) = .ok s₁) :
    pageFills data ph pd (va :: vas) s =
      (a, bytesAt (fillPage data ph va s.mem a) a Pmm.pageSize) :: pageFills data ph pd vas s₁ := by
  simp only [pageFills, halloc, if_neg ha, hmap]

/-- The bytes of the page at `va`. -/
theorem bytesAt_fillPage (data : Mem) (ph : Phdr) (va : Nat) (m : Mem) (frame : Nat) :
    bytesAt (fillPage data ph va m frame) frame Pmm.pageSize =
      bytesAt (pageBytes data ph va) 0 Pmm.pageSize := by
  apply bytesAt_congr
  intro o ho
  rw [Nat.zero_add]
  exact fillPage_apply data ph va m frame ho

/-- When frames run out, the pages up to there have been filled. -/
theorem pageFills_prefix (vas : List Nat) (s : State) :
    (pageFills data ph pd vas s).map Prod.snd <+:
      vas.map fun va => bytesAt (pageBytes data ph va) 0 Pmm.pageSize := by
  induction vas generalizing s with
  | nil => exact List.prefix_rfl
  | cons va vas ih =>
      obtain ⟨pmm, a, halloc⟩ : ∃ pmm a, Pmm.pmmAllocFrame s.pmm = (pmm, a) := ⟨_, _, rfl⟩
      simp only [pageFills, halloc]
      by_cases ha : a = 0
      · rw [if_pos ha]
        exact List.nil_prefix
      · rw [if_neg ha, List.map_cons, List.map_cons, bytesAt_fillPage, List.prefix_cons_inj]
        cases pagingMapInto ⟨pmm, fillPage data ph va s.mem a⟩ pd va a (segFlags ph) with
        | ok s₁ => exact ih s₁
        | error e => exact List.nil_prefix

/-- A loop that runs to its end fills all its pages. -/
theorem pageFills_complete (hload : loadPages data ph pd vas s = .ok (s', true)) :
    (pageFills data ph pd vas s).map Prod.snd =
      vas.map fun va => bytesAt (pageBytes data ph va) 0 Pmm.pageSize := by
  induction vas generalizing s with
  | nil => rfl
  | cons va vas ih =>
      rcases loadPages_cases hload with ⟨-, -, -, hfalse⟩ | ⟨pmm, a, s₁, halloc, ha, hmap, hrest⟩
      · cases hfalse
      · rw [pageFills_of_page halloc ha hmap, List.map_cons, List.map_cons, bytesAt_fillPage, ih hrest]

/-- One turn of the loop: the directory stays in order, the new frame has the bytes of
the page, and frames that were in use keep theirs. -/
structure Turned (st : Statics) (data : Mem) (ph : Phdr) (pd va a : Nat) (s s₁ : State) : Prop where
  ok : PdOk st s₁ pd
  clear : Clear s₁ pd a
  bytes : bytesAt s₁.mem a Pmm.pageSize = bytesAt (pageBytes data ph va) 0 Pmm.pageSize
  keeps : ∀ b, Clear s pd b →
    Clear s₁ pd b ∧ b ≠ a ∧ bytesAt s₁.mem b Pmm.pageSize = bytesAt s.mem b Pmm.pageSize

theorem turned_of_page (hok : PdOk st s pd) (hva : va + 4096 < 2 ^ 32)
    (halloc : Pmm.pmmAllocFrame s.pmm = (pmm, a)) (ha : a ≠ 0)
    (hmap : pagingMapInto ⟨pmm, fillPage data ph va s.mem a⟩ pd va a (segFlags ph) = .ok s₁) :
    Turned st data ph pd va a s s₁ := by
  have haligned : a % 4096 = 0 := (Pmm.pmmAllocFrame_some halloc ha).2.2.1
  have hfill : SameOff {a} s.mem (fillPage data ph va s.mem a) := fun x hx =>
    fillPage_frame data ph s.mem hva haligned fun hxa => hx hxa
  have hvirt : va < 2 ^ 32 := by omega
  have hfilled := (hok.fill halloc ha hfill).1
  have hnew := Clear.of_alloc hok halloc ha hfill
  have hmapping := (segFlags_mapping ph hnew.used).1
  have hbit : (segFlags ph).testBit 0 = true := (hasFlag_present _).symm.trans hmapping.present
  obtain ⟨pt, hwalks⟩ := pagingMapInto_walk hfilled hvirt hmapping hmap
  -- mapping writes to the directory and its table only
  have hkept : ∀ b, Clear ⟨pmm, fillPage data ph va s.mem a⟩ pd b →
      bytesAt s₁.mem b Pmm.pageSize = bytesAt (fillPage data ph va s.mem a) b Pmm.pageSize :=
    fun b hb => bytesAt_congr fun o ho =>
      SameOff.apply_add hwalks.same hb.used (hb.maps hwalks).2 ho
  refine ⟨hfilled.maps (pagingMapInto_spec hfilled hvirt hmapping.aligned hmapping.word
    hmapping.small hbit hmap), (hnew.maps hwalks).1, ?_, fun b hb => ?_⟩
  · rw [hkept a hnew, bytesAt_fillPage]
  · obtain ⟨hclear, hne⟩ := hb.fill hok halloc ha hfill
    refine ⟨(hclear.maps hwalks).1, hne, (hkept b hclear).trans (bytesAt_congr fun o ho => ?_)⟩
    exact SameOff.apply_add hfill hb.used (fun hmem => hne (Set.mem_singleton_iff.mp hmem)) ho

/-- The rest of the loop neither fills nor changes a frame that is in use. -/
theorem Clear.loadPages {b : Nat} {ok : Bool} (h : Clear s pd b) (hok : PdOk st s pd)
    (hvas : ∀ va ∈ vas, va + 4096 < 2 ^ 32) (hload : loadPages data ph pd vas s = .ok (s', ok)) :
    b ∉ (pageFills data ph pd vas s).map Prod.fst ∧
      bytesAt s'.mem b Pmm.pageSize = bytesAt s.mem b Pmm.pageSize := by
  induction vas generalizing s with
  | nil =>
      rw [Elf.loadPages] at hload
      cases hload
      exact ⟨List.not_mem_nil, rfl⟩
  | cons va vas ih =>
      rcases loadPages_cases hload with ⟨pmm, halloc, rfl, -⟩ | ⟨pmm, a, s₁, halloc, ha, hmap, hrest⟩
      · have hnone : pageFills data ph pd (va :: vas) s = [] := by
          simp only [pageFills, halloc, if_pos]
        rw [hnone]
        exact ⟨List.not_mem_nil, rfl⟩
      · have hturned := turned_of_page hok (hvas va List.mem_cons_self) halloc ha hmap
        obtain ⟨hclear, hne, hbytes⟩ := hturned.keeps b h
        obtain ⟨hnot, hsame⟩ := ih hclear hturned.ok
          (fun va' hva' => hvas va' (List.mem_cons_of_mem va hva')) hrest
        rw [pageFills_of_page halloc ha hmap, List.map_cons, List.mem_cons, not_or]
        exact ⟨⟨hne, hnot⟩, hsame.trans hbytes⟩

/-- At the end of the loop its frames are different ones and still have their pages. -/
theorem pageFills_kept (hok : PdOk st s pd) (hvas : ∀ va ∈ vas, va + 4096 < 2 ^ 32)
    (hload : loadPages data ph pd vas s = .ok (s', true)) :
    ((pageFills data ph pd vas s).map Prod.fst).Nodup ∧
      ((pageFills data ph pd vas s).map fun p => bytesAt s'.mem p.1 Pmm.pageSize) =
        vas.map fun va => bytesAt (pageBytes data ph va) 0 Pmm.pageSize := by
  induction vas generalizing s with
  | nil => exact ⟨List.nodup_nil, rfl⟩
  | cons va vas ih =>
      rcases loadPages_cases hload with ⟨-, -, -, hfalse⟩ | ⟨pmm, a, s₁, halloc, ha, hmap, hrest⟩
      · cases hfalse
      · have hturned := turned_of_page hok (hvas va List.mem_cons_self) halloc ha hmap
        have hvas' : ∀ va' ∈ vas, va' + 4096 < 2 ^ 32 := fun va' hva' =>
          hvas va' (List.mem_cons_of_mem va hva')
        obtain ⟨hnodup, hpages⟩ := ih hturned.ok hvas' hrest
        obtain ⟨hnot, hsame⟩ := hturned.clear.loadPages hturned.ok hvas' hrest
        rw [pageFills_of_page halloc ha hmap, List.map_cons, List.map_cons, List.map_cons, hpages,
          hsame, hturned.bytes]
        exact ⟨List.nodup_cons.mpr ⟨hnot, hnodup⟩, rfl⟩

end Fills

/-! ## The segment in one piece -/

/-- An image as `data` points to it. -/
def imageMem (image : List UInt8) : Mem := fun i => image.getD i 0

/-- The segment by address. -/
def segMem (data : Mem) (ph : Phdr) : Mem := fun x =>
  if ph.vaddr ≤ x ∧ x < ph.vaddr + ph.filesz then data (ph.offset + (x - ph.vaddr)) else 0

/-- Zeros, the bytes of the file, and zeros again. -/
def flatSegment (image : List UInt8) (ph : Phdr) : List UInt8 :=
  List.replicate (ph.vaddr % 4096) 0 ++ (image.drop ph.offset).take ph.filesz ++
    List.replicate (segEnd ph - (ph.vaddr + ph.filesz)) 0

/-- A header whose segment ends below the last page and whose file range is in the
image. -/
structure InImage (image : List UInt8) (ph : Phdr) : Prop where
  image_le : image.length ≤ 2 ^ 32
  file : ∀ k, k < ph.filesz → ph.offset + k < image.length
  filesz_le : ph.filesz ≤ ph.memsz
  memsz_pos : 0 < ph.memsz
  end_le : ph.vaddr + ph.memsz ≤ 0xFFFFF000

namespace InImage

variable {image : List UInt8} {ph : Phdr}

theorem segEnd_eq (h : InImage image ph) : segEnd ph = frameOf (ph.vaddr + ph.memsz + 0xFFF) := by
  have hend := h.end_le
  have hsum : add32 ph.vaddr ph.memsz = ph.vaddr + ph.memsz := add32_of_lt (by omega)
  have hround : add32 (ph.vaddr + ph.memsz) 0xFFF = ph.vaddr + ph.memsz + 0xFFF :=
    add32_of_lt (by omega)
  unfold segEnd
  rw [hsum, hround]

theorem page (h : InImage image ph) {va : Nat} (hva : va + 4096 < 2 ^ 32) :
    bytesAt (pageBytes (imageMem image) ph va) 0 Pmm.pageSize =
      bytesAt (segMem (imageMem image) ph) va Pmm.pageSize := by
  have hlen := h.image_le
  have hend := h.end_le
  have hsize := h.filesz_le
  apply bytesAt_congr
  intro o ho
  rw [Nat.zero_add]
  exact pageBytes_eq (by omega) (fun k hk => (h.file k hk).trans_le hlen) hva ho

/-- The file's bytes of the segment. -/
theorem bytesAt_file (h : InImage image ph) :
    bytesAt (segMem (imageMem image) ph) ph.vaddr ph.filesz =
      (image.drop ph.offset).take ph.filesz := by
  have hlength : ((image.drop ph.offset).take ph.filesz).length = ph.filesz := by
    rw [List.length_take, List.length_drop]
    by_cases hnone : ph.filesz = 0
    · omega
    · have hlast := h.file (ph.filesz - 1) (by omega)
      omega
  apply List.ext_getElem
  · rw [hlength, bytesAt, List.length_map, List.length_range]
  · intro k hk hk'
    rw [hlength] at hk'
    have hin : ph.vaddr ≤ ph.vaddr + k ∧ ph.vaddr + k < ph.vaddr + ph.filesz := by omega
    have hsub : ph.vaddr + k - ph.vaddr = k := by omega
    simp only [bytesAt, List.getElem_map, List.getElem_range, List.getElem_take, List.getElem_drop,
      segMem, if_pos hin, hsub, imageMem]
    exact List.getD_eq_getElem image 0 (h.file k hk')

/-- All pages of the segment. -/
theorem bytesAt_segment (h : InImage image ph) :
    bytesAt (segMem (imageMem image) ph) (segStart ph) (segEnd ph - segStart ph) =
      flatSegment image ph := by
  have hzero : ∀ x, x < ph.vaddr ∨ ph.vaddr + ph.filesz ≤ x → segMem (imageMem image) ph x = 0 :=
    fun x hx => if_neg (by omega)
  have hstart : segStart ph + ph.vaddr % 4096 = ph.vaddr := by
    unfold segStart frameOf
    omega
  have hsplit : segEnd ph - segStart ph =
      ph.vaddr % 4096 + ph.filesz + (segEnd ph - (ph.vaddr + ph.filesz)) := by
    have hsize := h.filesz_le
    have hend := h.segEnd_eq
    unfold frameOf at hend
    omega
  rw [hsplit, bytesAt_add, bytesAt_add, ← Nat.add_assoc, hstart, h.bytesAt_file]
  rw [bytesAt_eq_replicate (b := 0) fun i hi => hzero _ (Or.inl (by omega))]
  rw [bytesAt_eq_replicate (b := 0) fun i hi => hzero _ (Or.inr (by omega))]
  rfl

/-- The pages of the loop put together. -/
theorem flatMap_pages (h : InImage image ph) :
    (segPages ph).flatMap (fun va => bytesAt (pageBytes (imageMem image) ph va) 0 Pmm.pageSize) =
      flatSegment image ph := by
  have hpages : (segPages ph).flatMap
      (fun va => bytesAt (pageBytes (imageMem image) ph va) 0 Pmm.pageSize) =
      (segPages ph).flatMap fun va => bytesAt (segMem (imageMem image) ph) va Pmm.pageSize :=
    List.flatMap_congr fun va hva => h.page (mem_segPages hva).2
  have hcount : (segEnd ph - segStart ph) / Pmm.pageSize * Pmm.pageSize =
      segEnd ph - segStart ph := by
    have hstart := segStart_aligned ph
    have hend : segEnd ph % 4096 = 0 := frameOf_aligned _
    unfold Pmm.pageSize
    omega
  rw [hpages, segPages, List.flatMap_map, flatMap_bytesAt, hcount, h.bytesAt_segment]

/-- As many pages as have a byte of the segment. -/
theorem length_segPages (h : InImage image ph) :
    (segPages ph).length =
      {p | ∃ x, ph.vaddr ≤ x ∧ x < ph.vaddr + ph.memsz ∧ x / 4096 = p}.ncard := by
  have hpos := h.memsz_pos
  have hend := h.segEnd_eq
  have hset : {p | ∃ x, ph.vaddr ≤ x ∧ x < ph.vaddr + ph.memsz ∧ x / 4096 = p} =
      ↑(Finset.Ico (segStart ph / 4096) (segEnd ph / 4096)) := by
    ext p
    rw [Finset.coe_Ico, Set.mem_Ico, Set.mem_setOf_eq, hend]
    unfold segStart frameOf
    constructor
    · rintro ⟨x, hx, hx', rfl⟩
      omega
    · rintro ⟨hp, hp'⟩
      refine ⟨max ph.vaddr (4096 * p), le_max_left _ _, ?_, ?_⟩
      · omega
      · omega
  have hstart := segStart_aligned ph
  rw [hset, Set.ncard_coe_finset, Nat.card_Ico, segPages, List.length_map, List.length_range]
  unfold Pmm.pageSize
  omega

end InImage

def splitImage : List UInt8 := [1, 2, 3, 4, 5, 6, 7, 8]

/-- Three of the five bytes are the last ones of their page. -/
def splitHeader : Phdr := ⟨1, 2, 0x8048FFD, 5, 16, 5⟩

end StakOS.Elf
