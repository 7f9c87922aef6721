import Mathlib.Data.List.Pairwise
import StakOS.Elf.Image

/-!
# What a loaded program finds in its address space

Which pages are there once `elf32_load` has returned 1, and which bytes they show.
-/

namespace StakOS.Elf

open StakOS.Lib.Memory StakOS.Lib.Loop StakOS.Paging

/-- A directory for `elf32_load`. -/
structure UserDir (st : Statics) (s : State) (pd : Nat) : Prop extends PdOk st s pd where
  writable : WritableTables s.mem pd

/-- `paging_create_user_pd` makes one, when the kernel's directory has the identity
map. -/
theorem pagingCreateUserPd_userDir {st : Statics} {s s' : State} {pd : Nat}
    (hused : ∀ i, i < identityPtCount → st.identityPts + 4096 * i ∈ Pmm.usedFrames s.pmm)
    (hmap : ∀ i, i < identityPtCount → entry s.mem st.kernelPd i =
      (st.identityPts + 4096 * i) ||| pdePresent ||| pdeWritable)
    (h : pagingCreateUserPd st s = (s', pd)) (hpd : pd ≠ 0) :
    UserDir st s' pd ∧ ∀ i, tableAt s'.mem pd i = none := by
  obtain ⟨halloc, -, hlow, hnone⟩ := pagingCreateUserPd_spec h hpd
  obtain ⟨hfresh, husedFrames, -⟩ := Pmm.pmmAllocFrame_some halloc hpd
  have hno : ∀ {i pt}, tableAt s'.mem pd i = some pt → False := fun hpt => by
    rw [hnone] at hpt
    cases hpt
  have hentry : ∀ i, i < identityPtCount → entry s'.mem pd i =
      (st.identityPts + 4096 * i) ||| (pdePresent ||| pdeWritable) := fun i hi =>
    (hlow i hi).trans ((hmap i hi).trans (Nat.lor_assoc _ _ _))
  have hal : ∀ i, (st.identityPts + 4096 * i) % 4096 = 0 := fun i => by
    have := st.identityPts_aligned
    omega
  have hflag : ∀ i j, i < identityPtCount → j < 2 → hasFlag (entry s'.mem pd i) (2 ^ j) = true := by
    intro i j hi hj
    rw [hentry i hi, hasFlag_pow, testBit_or_flags (hal i) (by omega)]
    have hcases : j = 0 ∨ j = 1 := by omega
    rcases hcases with rfl | rfl <;> decide
  refine ⟨⟨⟨?_, fun _ _ hpt => (hno hpt).elim, fun _ _ hpt => (hno hpt).elim,
    fun _ _ _ hpt => (hno hpt).elim, fun i hi => hflag i 0 hi (by decide), ?_, ?_, ?_,
    fun _ _ _ _ hpt => (hno hpt).elim⟩, ?_⟩, hnone⟩
  · rw [husedFrames]
    exact Set.mem_insert pd _
  · intro i hi
    rw [hentry i hi, frameOf_or (hal i) (by decide)]
  · intro i hi
    rw [husedFrames]
    exact Set.mem_insert_of_mem pd (hused i hi)
  · intro i hi heq
    exact hfresh (heq ▸ hused i hi)
  · intro i hi hpresent
    by_cases hlt : i < identityPtCount
    · exact hflag i 1 hlt (by decide)
    · exact (hno (tableAt_eq_some.mpr ⟨Nat.le_of_not_lt hlt, hi, hpresent, rfl⟩)).elim

/-! ## Sample programs -/

deriving instance DecidableEq for Phdr

def wordBytes (w : Nat) : List UInt8 := [byteOf w 0, byteOf w 1, byteOf w 2, byteOf w 3]

/-- The bytes of a program header; `p_paddr` and `p_align` are zero. -/
def Phdr.toBytes (ph : Phdr) : List UInt8 :=
  [ph.type, ph.offset, ph.vaddr, 0, ph.filesz, ph.memsz, ph.flags, 0].flatMap wordBytes

/-- An executable with the given program headers behind its header. -/
def program (phs : List Phdr) (content : List UInt8) : Mem := fun i =>
  ([0x7F, 0x45, 0x4C, 0x46, 1, 1, 1, 0, 0, 0, 0, 0, 0, 0, 0, 0, 2, 0, 3, 0, 1, 0, 0, 0,
    0, 0x80, 4, 8, 52, 0, 0, 0, 0, 0, 0, 0, 0, 0, 0, 0, 52, 0, 32, 0,
    UInt8.ofNat phs.length, 0, 0, 0, 0, 0, 0, 0] ++ phs.flatMap Phdr.toBytes ++ content).getD i 0

/-- The small machine with the eight entries that `paging_init` makes. -/
def pagedMachine : State :=
  ⟨smallMachine.pmm, fun x =>
    if 0x101000 ≤ x ∧ x < 0x101020 then
      byteOf (0x102003 + 4096 * ((x - 0x101000) / 4)) ((x - 0x101000) % 4)
    else 0⟩

/-- Its first user directory. -/
def firstDir : State × Nat := pagingCreateUserPd smallStatics pagedMachine

theorem firstDir_userDir : UserDir smallStatics firstDir.1 firstDir.2 ∧
    ∀ i, tableAt firstDir.1.mem firstDir.2 i = none := by
  have hbits : ∀ i, i < identityPtCount → (smallStatics.identityPts + 4096 * i) % Pmm.pageSize = 0 ∧
      (smallStatics.identityPts + 4096 * i) / Pmm.pageSize < Pmm.maxFrames ∧
      Pmm.frameTest pagedMachine.pmm ((smallStatics.identityPts + 4096 * i) / Pmm.pageSize) = true := by
    decide +kernel
  have hused : ∀ i, i < identityPtCount →
      smallStatics.identityPts + 4096 * i ∈ Pmm.usedFrames pagedMachine.pmm := fun i hi =>
    Pmm.mem_usedFrames.mpr (hbits i hi)
  have hmap : ∀ i, i < identityPtCount → entry pagedMachine.mem smallStatics.kernelPd i =
      (smallStatics.identityPts + 4096 * i) ||| pdePresent ||| pdeWritable := by decide +kernel
  have hpd : firstDir.2 ≠ 0 := by decide +kernel
  unfold firstDir at hpd ⊢
  generalize hcreate : pagingCreateUserPd smallStatics pagedMachine = r at hpd
  obtain ⟨s, pd⟩ := r
  exact pagingCreateUserPd_userDir hused hmap hcreate hpd

theorem elf32Load_shows {st : Statics} {s s' : State} {data : Mem} {pd : Nat}
    (hdir : UserDir st s pd) (hload : elf32Load data s pd = .ok (s', true)) :
    Shows st s.mem s' pd (placeSegments data (loadable data) fun _ => none) :=
  loadSegments_shows (Shows.start hdir.toPdOk hdir.writable) hload

theorem loadable_memsz {data : Mem} {ph : Phdr} (h : ph ∈ loadable data) : ph.memsz ≠ 0 := by
  have hkept := (List.mem_filter.mp h).2
  simp only [Bool.and_eq_true, decide_eq_true_eq] at hkept
  exact hkept.2

/-! ## No page is missing -/

/-- Every segment lies in the 32-bit address space, and every page with a byte of
it is present. -/
def Complete (data m : Mem) (pd : Nat) : Prop :=
  ∀ ph ∈ loadable data, ph.vaddr + ph.memsz ≤ 2 ^ 32 ∧
    ∀ va, va < 2 ^ 32 → Touches ph (va / 4096) → translate m pd va ≠ none

theorem Shows.translate_ne_none {st : Statics} {m₀ : Mem} {s : State} {pd va : Nat} {l : Layout}
    (h : Shows st m₀ s pd l) (hva : va < 2 ^ 32) {pg : Page} (hpage : l (va / 4096) = some pg) :
    translate s.mem pd va ≠ none := by
  obtain ⟨a, ha⟩ := h.page _ pg hpage
  rw [translate_of_walk (ha.walk va hva rfl)]
  exact Option.some_ne_none _

/-- No segment places the last page of the address space. -/
theorem placeSegments_last (data : Mem) (phs : List Phdr) (l : Layout) :
    placeSegments data phs l (2 ^ 20 - 1) = l (2 ^ 20 - 1) := by
  have hnone : (phs.filter fun ph => decide (4096 * (2 ^ 20 - 1) ∈ segPages ph)) = [] := by
    rw [List.filter_eq_nil_iff]
    intro ph _ hmem
    have hlt := (mem_segPages (of_decide_eq_true hmem)).2
    omega
  rw [placeSegments_apply, hnone]
  rfl

/-- One segment of text. -/
def textProgram : Mem := program [⟨1, 84, 0x8048000, 4, 16, 5⟩] [0x90, 0x90, 0x90, 0xC3]

/-- One segment in the last page of the address space. -/
def topProgram : Mem := program [⟨1, 84, 0xFFFFF000, 4, 16, 6⟩] [1, 2, 3, 4]

/-! ## The bytes of the segments -/

/-- The byte ranges of two segments are disjoint. -/
def Apart (e l : Phdr) : Prop := e.vaddr + e.memsz ≤ l.vaddr ∨ l.vaddr + l.memsz ≤ e.vaddr

instance : Std.Symm Apart := ⟨fun _ _ h => h.symm⟩

/-- An image whose segments can be placed side by side: the file has what they
copy, and their byte ranges are disjoint and end below the last page. -/
structure WellPlaced (data : Mem) (size : Nat) : Prop where
  size_le : size ≤ 2 ^ 32
  inside : ∀ ph ∈ loadable data, ph.offset + ph.filesz ≤ size
  filesz_le : ∀ ph ∈ loadable data, ph.filesz ≤ ph.memsz
  fits : ∀ ph ∈ loadable data, ph.vaddr + ph.memsz ≤ 2 ^ 32 - 4096
  disjoint : (loadable data).Pairwise Apart

/-- The byte at offset `k` of a segment as the file has it. -/
def segByte (data : Mem) (ph : Phdr) (k : Nat) : UInt8 :=
  if k < ph.filesz then data (ph.offset + k) else 0

/-- Read through the directory, every segment shows its bytes, is accessible to
ring 3, and is writable where a writable segment has bytes in the page. -/
def Faithful (data m : Mem) (pd : Nat) : Prop :=
  ∀ ph ∈ loadable data, ∀ k, k < ph.memsz →
    (∃ a, translate m pd (ph.vaddr + k) = some a ∧ m a = segByte data ph k) ∧
    userAccessible m pd (ph.vaddr + k) = true ∧
    ∀ w ∈ loadable data, hasFlag w.flags pfW = true → Touches w ((ph.vaddr + k) / 4096) →
      userWritable m pd (ph.vaddr + k) = true

/-- The last segment in the order of the program headers with a byte in page `p`. -/
def lastOn (phs : List Phdr) (p : Nat) : Option Phdr :=
  (phs.filter fun ph => decide (Touches ph p)).getLast?

/-- In a page that several segments share, those before the last have no byte but
zeros to show, and none of them asks for more than the last. -/
def Unshadowed (data : Mem) : Prop :=
  ∀ p l, lastOn (loadable data) p = some l → ∀ e ∈ loadable data, Touches e p →
    (e ≠ l → ∀ k, k < e.filesz → (e.vaddr + k) / 4096 = p → data (e.offset + k) = 0) ∧
    (hasFlag e.flags pfW = true → hasFlag l.flags pfW = true)

theorem lastOn_mem {phs : List Phdr} {p : Nat} {l : Phdr} (h : lastOn phs p = some l) :
    l ∈ phs ∧ Touches l p := by
  obtain ⟨hmem, htouch⟩ := List.mem_filter.mp (List.mem_of_getLast? h)
  exact ⟨hmem, of_decide_eq_true htouch⟩

theorem lastOn_exists {phs : List Phdr} {p : Nat} {e : Phdr} (he : e ∈ phs) (htouch : Touches e p) :
    ∃ l, lastOn phs p = some l := by
  have hfilter : e ∈ phs.filter fun ph => decide (Touches ph p) :=
    List.mem_filter.mpr ⟨he, decide_eq_true htouch⟩
  exact Option.isSome_iff_exists.mp (List.getLast?_isSome.mpr (List.ne_nil_of_mem hfilter))

section Placed

variable {data : Mem} {size : Nat}

/-- Where no end wraps around, a page shows the last segment with a byte in it. -/
theorem WellPlaced.place (h : WellPlaced data size) {p : Nat} {l : Phdr}
    (hlast : lastOn (loadable data) p = some l) (l₀ : Layout) :
    placeSegments data (loadable data) l₀ p = some (segPage data l (4096 * p)) := by
  have hfilter : ((loadable data).filter fun ph => decide (4096 * p ∈ segPages ph)) =
      (loadable data).filter fun ph => decide (Touches ph p) := by
    apply List.filter_congr
    intro ph hph
    exact decide_eq_decide.mpr (mem_segPages_iff (h.fits ph hph))
  unfold lastOn at hlast
  rw [placeSegments_apply, hfilter, hlast]
  rfl

theorem WellPlaced.pageBytes_eq (h : WellPlaced data size) {l : Phdr} (hl : l ∈ loadable data)
    {va o : Nat} (hva : va + 4096 < 2 ^ 32) (ho : o < 4096) :
    pageBytes data l va o =
      if l.vaddr ≤ va + o ∧ va + o < l.vaddr + l.filesz then
        data (l.offset + (va + o - l.vaddr)) else 0 := by
  have hsize := h.size_le
  have hinside := h.inside l hl
  have hfilesz := h.filesz_le l hl
  have hfits := h.fits l hl
  exact Elf.pageBytes_eq (by omega) (fun k hk => by omega) hva ho

/-- A byte of `e` in a page whose last segment is `l`: its own if `e` is that
segment, and zero otherwise. -/
theorem WellPlaced.shown (h : WellPlaced data size) {e l : Phdr} (he : e ∈ loadable data)
    (hl : l ∈ loadable data) {k : Nat} (hk : k < e.memsz) :
    pageBytes data l (4096 * ((e.vaddr + k) / 4096)) ((e.vaddr + k) % 4096) = segByte data l k ∧
        e = l ∨
      pageBytes data l (4096 * ((e.vaddr + k) / 4096)) ((e.vaddr + k) % 4096) = 0 ∧ e ≠ l := by
  have hfits := h.fits e he
  have haddr : 4096 * ((e.vaddr + k) / 4096) + (e.vaddr + k) % 4096 = e.vaddr + k :=
    Nat.div_add_mod _ _
  rw [h.pageBytes_eq hl (by omega) (Nat.mod_lt _ (by decide)), haddr]
  by_cases heq : e = l
  · left
    subst heq
    refine ⟨?_, rfl⟩
    unfold segByte
    have hidx : e.vaddr + k - e.vaddr = k := by omega
    rw [hidx]
    by_cases hfile : k < e.filesz
    · rw [if_pos (by omega), if_pos hfile]
    · rw [if_neg (by omega), if_neg hfile]
  · right
    refine ⟨?_, heq⟩
    have hapart : Apart e l := h.disjoint.forall he hl heq
    have hfilesz := h.filesz_le l hl
    unfold Apart at hapart
    rw [if_neg (by omega)]

end Placed

/-- What ring 3 reads at an address whose page the layout has. -/
theorem Shows.read {st : Statics} {m₀ : Mem} {s : State} {pd va : Nat} {l : Layout} {pg : Page}
    (h : Shows st m₀ s pd l) (hva : va < 2 ^ 32) (hpage : l (va / 4096) = some pg)
    (huser : hasFlag pg.flags pteUser = true) :
    (∃ a, translate s.mem pd va = some a ∧ s.mem a = pg.bytes (va % 4096)) ∧
      userAccessible s.mem pd va = true ∧
      userWritable s.mem pd va = hasFlag pg.flags pteWritable := by
  obtain ⟨a, ha⟩ := h.page _ pg hpage
  have hwalk := ha.walk va hva rfl
  have hpresent := present_of_walk hwalk
  have hboth : bothHave s.mem pd va ptePresent = true := by
    have htranslate := translate_of_walk hwalk
    unfold Paging.translate at htranslate
    by_contra hno
    rw [if_neg hno] at htranslate
    cases htranslate
  have hpteUser : hasFlag (pteAt s.mem pd va) pteUser = true :=
    (hasFlag_pteAt hwalk (i := 2) (by decide)).trans ((hasFlag_user _).symm.trans huser)
  have hpteWritable : hasFlag (pteAt s.mem pd va) pteWritable = hasFlag pg.flags pteWritable :=
    (hasFlag_pteAt hwalk (i := 1) (by decide)).trans (hasFlag_writable _).symm
  have haccess : userAccessible s.mem pd va = true := by
    have hpde : hasFlag (pdeAt s.mem pd va) pteUser = true := ha.user va hva rfl
    unfold userAccessible
    rw [hboth, Bool.true_and]
    unfold bothHave
    rw [hpde, hpteUser, Bool.true_and]
  refine ⟨⟨a + va % 4096, translate_of_walk hwalk, ha.bytes _ (Nat.mod_lt va (by decide))⟩,
    haccess, ?_⟩
  have hpde : hasFlag (pdeAt s.mem pd va) pteWritable = true :=
    h.writable _ (pdIdx_lt hva) hpresent
  unfold userWritable
  rw [haccess, Bool.true_and]
  unfold bothHave
  rw [hpde, hpteWritable, Bool.true_and]

theorem segFlags_writable (ph : Phdr) :
    hasFlag (segFlags ph) pteWritable = hasFlag ph.flags pfW := by
  unfold segFlags
  cases hasFlag ph.flags pfW
  · decide
  · decide

theorem segFlags_user (ph : Phdr) : hasFlag (segFlags ph) pteUser = true := by
  unfold segFlags
  split <;> decide

/-- Text and data in pages of their own. -/
def twoPages : Mem :=
  program [⟨1, 116, 0x8048000, 4, 4, 5⟩, ⟨1, 120, 0x8049000, 4, 8, 6⟩]
    [0x90, 0x90, 0x90, 0xC3, 1, 2, 3, 4]

/-- Data that follows the text in one page. -/
def onePage : Mem :=
  program [⟨1, 116, 0x8048000, 4, 4, 5⟩, ⟨1, 120, 0x8048100, 4, 8, 6⟩]
    [0x90, 0x90, 0x90, 0xC3, 1, 2, 3, 4]

end StakOS.Elf
