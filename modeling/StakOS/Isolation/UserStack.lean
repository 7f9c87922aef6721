import StakOS.Elf.Fidelity
import StakOS.Isolation.Leak

/-!
# The program and its stack

`process_create_from_elf` maps the user stack at a fixed address, after the segments
and over whatever they have there.  The frames of the stack are always its own; the
program keeps its bytes if its segments keep away from those four pages.
-/

namespace StakOS.Process

open StakOS.Lib.Memory StakOS.Lib.Loop StakOS.Paging

/-! ## The stack loop -/

/-- A page of the stack shows what its frame held before. -/
def stackPage (m : Mem) (a : Nat) : Elf.Page := ⟨userStackFlags, fun o => m (a + o)⟩

/-- The directory shows the layout `l`, and a frame behind one of the stack pages in
`done` is behind no other page. -/
structure Stacked (st : Statics) (m₀ : Mem) (s : Paging.State) (pd : Nat) (l : Elf.Layout)
    (done : List Nat) : Prop where
  shows : Elf.Shows st m₀ s pd l
  word : ∀ va ∈ done, va < 2 ^ 32
  mapped : ∀ va ∈ done, ∃ bytes, l (va / 4096) = some ⟨userStackFlags, bytes⟩
  apart : ∀ va ∈ done, ∀ x, x < 2 ^ 32 → x / 4096 ≠ va / 4096 → l (x / 4096) ≠ none →
    (walk s.mem pd x).map Prod.fst ≠ (walk s.mem pd va).map Prod.fst

/-- The frame behind a page of the layout is in use. -/
theorem frame_used {st : Statics} {m₀ : Mem} {s : Paging.State} {pd x : Nat} {l : Elf.Layout}
    (h : Elf.Shows st m₀ s pd l) (hx : x < 2 ^ 32) (hpage : l (x / 4096) ≠ none) :
    ∃ b flags, walk s.mem pd x = some (b, flags) ∧ b ∈ Pmm.usedFrames s.pmm := by
  obtain ⟨pg, hpg⟩ := Option.ne_none_iff_exists'.mp hpage
  obtain ⟨b, hb⟩ := h.page _ pg hpg
  exact ⟨b, pg.flags, hb.walk x hx rfl, hb.clear.used⟩

theorem userStackFlags_mapping {a : Nat} {pmm : Pmm.State} (ha : a ∈ Pmm.usedFrames pmm) :
    Mapping a userStackFlags := by
  have hlt := Pmm.usedFrames_lt ha
  exact ⟨Pmm.usedFrames_aligned ha, by omega, by decide, by decide⟩

namespace Stacked

variable {st : Statics} {m₀ : Mem} {s s' : Paging.State} {pd va a : Nat} {l : Elf.Layout}
variable {done : List Nat}

theorem page {pmm : Pmm.State} (h : Stacked st m₀ s pd l done) (hva : va < 2 ^ 32)
    (hdone : ∀ x ∈ done, x / 4096 ≠ va / 4096) (halloc : Pmm.pmmAllocFrame s.pmm = (pmm, a))
    (ha : a ≠ 0) (hmap : pagingMapInto ⟨pmm, s.mem⟩ pd va a userStackFlags = .ok s') :
    Stacked st m₀ s' pd (Function.update l (va / 4096) (some (stackPage s.mem a)))
      (va :: done) := by
  have hfresh := (Pmm.pmmAllocFrame_some halloc ha).1
  have hfill : SameOff {a} s.mem s.mem := .refl _
  have hclear := Elf.Clear.of_alloc h.shows.ok halloc ha hfill
  have hmapping := userStackFlags_mapping hclear.used
  have hfilled := h.shows.fill halloc ha hfill
  obtain ⟨pt, hwalks⟩ := pagingMapInto_walk hfilled.ok hva hmapping hmap
  have hnew : ∀ x, x < 2 ^ 32 → x / 4096 = va / 4096 →
      (walk s'.mem pd x).map Prod.fst = some a := by
    intro x hx heq
    rw [hwalks.walk x hx, if_pos heq]
    rfl
  have hold : ∀ x, x < 2 ^ 32 → x / 4096 ≠ va / 4096 → walk s'.mem pd x = walk s.mem pd x :=
    fun x hx hne => (hwalks.walk x hx).trans (if_neg hne)
  -- the frames that the layout had are in use, the new one was not
  have hother : ∀ x, x < 2 ^ 32 → x / 4096 ≠ va / 4096 → l (x / 4096) ≠ none →
      (walk s'.mem pd x).map Prod.fst ≠ some a := by
    intro x hx hne hpage heq
    obtain ⟨b, flags, hwalk, hused⟩ := frame_used h.shows hx hpage
    rw [hold x hx hne, hwalk] at heq
    exact hfresh (Option.some.inj heq ▸ hused)
  have huser : hasFlag userStackFlags pteUser = true := by decide
  refine ⟨hfilled.map (stackPage s.mem a) hva hmapping huser hclear (fun _ _ => rfl) hmap,
    ?_, ?_, ?_⟩
  · intro y hy
    rcases List.mem_cons.mp hy with rfl | hin
    · exact hva
    · exact h.word y hin
  · intro y hy
    rcases List.mem_cons.mp hy with rfl | hin
    · exact ⟨_, Function.update_self _ _ _⟩
    · rw [Function.update_of_ne (hdone y hin)]
      exact h.mapped y hin
  · intro y hy x hx hne hpage
    rcases List.mem_cons.mp hy with rfl | hin
    · rw [Function.update_of_ne hne] at hpage
      rw [hnew y hva rfl]
      exact hother x hx hne hpage
    · have hynone : l (y / 4096) ≠ none := by
        obtain ⟨bytes, hbytes⟩ := h.mapped y hin
        rw [hbytes]
        exact Option.some_ne_none _
      by_cases hxva : x / 4096 = va / 4096
      · rw [hnew x hx hxva]
        exact Ne.symm (hother y (h.word y hin) (hdone y hin) hynone)
      · rw [Function.update_of_ne hxva] at hpage
        rw [hold x hx hxva, hold y (h.word y hin) (hdone y hin)]
        exact h.apart y hin x hx hne hpage

end Stacked

/-- The loop maps its pages and leaves the others. -/
theorem mapStack_stacked {st : Statics} {m₀ : Mem} {s s' : Paging.State} {pd : Nat}
    {l : Elf.Layout} {vas done : List Nat} (h : Stacked st m₀ s pd l done)
    (hvas : ∀ va ∈ vas, va < 2 ^ 32) (hnodup : (vas.map (· / 4096)).Nodup)
    (hdone : ∀ va ∈ vas, ∀ x ∈ done, x / 4096 ≠ va / 4096)
    (hret : mapStack pd vas s = .ok (s', true)) :
    ∃ l', Stacked st m₀ s' pd l' (vas.reverse ++ done) ∧
      ∀ p, (∀ va ∈ vas, p ≠ va / 4096) → l' p = l p := by
  induction vas generalizing s l done with
  | nil =>
      rw [mapStack] at hret
      cases hret
      exact ⟨l, h, fun _ _ => rfl⟩
  | cons va vas ih =>
      rw [mapStack] at hret
      obtain ⟨pmm, a, halloc⟩ : ∃ pmm a, Pmm.pmmAllocFrame s.pmm = (pmm, a) := ⟨_, _, rfl⟩
      rw [halloc] at hret
      by_cases ha : a = 0
      · simp only [if_pos ha] at hret
        cases hret
      · simp only [if_neg ha] at hret
        obtain ⟨s₁, hmap, hrest⟩ := bind_eq_ok.mp hret
        rw [List.map_cons, List.nodup_cons] at hnodup
        have hstep := h.page (hvas va List.mem_cons_self) (hdone va List.mem_cons_self) halloc ha
          hmap
        have hnext : ∀ va' ∈ vas, ∀ x ∈ va :: done, x / 4096 ≠ va' / 4096 := by
          intro va' hva' x hx
          rcases List.mem_cons.mp hx with rfl | hin
          · exact fun heq => hnodup.1 (heq ▸ List.mem_map_of_mem hva')
          · exact hdone va' (List.mem_cons_of_mem va hva') x hin
        obtain ⟨l', hl', hkept⟩ := ih hstep (fun va' hva' => hvas va' (List.mem_cons_of_mem va hva'))
          hnodup.2 hnext hrest
        refine ⟨l', ?_, fun p hp => ?_⟩
        · rw [List.reverse_cons, List.append_assoc]
          exact hl'
        · rw [hkept p fun va' hva' => hp va' (List.mem_cons_of_mem va hva'),
            Function.update_of_ne (hp va List.mem_cons_self)]

/-! ## Segments and the stack's pages -/

def userStackTop : Nat := userStackBase + userStackPages * Pmm.pageSize

/-- The addresses of the segment, which wrap around at 32 bits, keep away from the
stack. -/
def AvoidsStack (ph : Elf.Phdr) : Prop :=
  (ph.vaddr + ph.memsz ≤ userStackBase ∨ userStackTop ≤ ph.vaddr) ∧
    ph.vaddr + ph.memsz ≤ 2 ^ 32 + userStackBase

instance (ph : Elf.Phdr) : Decidable (AvoidsStack ph) := inferInstanceAs (Decidable (_ ∧ _))

/-- Some byte of the segment lies in the stack's pages. -/
def ByteInStack (ph : Elf.Phdr) : Prop :=
  ∃ k, k < ph.memsz ∧ userStackBase ≤ (ph.vaddr + k) % 2 ^ 32 ∧
    (ph.vaddr + k) % 2 ^ 32 < userStackTop

theorem loadable_words {data : Mem} {ph : Elf.Phdr} (h : ph ∈ Elf.loadable data) :
    ph.vaddr < 2 ^ 32 ∧ ph.memsz < 2 ^ 32 := by
  obtain ⟨i, -, hph⟩ := List.mem_filterMap.mp (List.mem_filter.mp h).1
  unfold Elf.elf32GetPhdr at hph
  simp only at hph
  split at hph
  · cases hph
  · cases hph
    exact ⟨read32_lt _ _, read32_lt _ _⟩

theorem avoidsStack_iff {ph : Elf.Phdr} (hvaddr : ph.vaddr < 2 ^ 32) (hmemsz : ph.memsz ≠ 0) :
    AvoidsStack ph ↔ ¬ByteInStack ph := by
  unfold AvoidsStack ByteInStack userStackTop userStackBase userStackPages Pmm.pageSize
  constructor
  · rintro havoids ⟨k, hk, hfrom, hto⟩
    omega
  · intro hnone
    by_contra hmeets
    apply hnone
    by_cases hwraps : ph.vaddr + ph.memsz ≤ 2 ^ 32 + 0x500000
    · by_cases hstart : 0x500000 ≤ ph.vaddr
      · exact ⟨0, by omega, by omega, by omega⟩
      · exact ⟨0x500000 - ph.vaddr, by omega, by omega, by omega⟩
    · exact ⟨2 ^ 32 + 0x500000 - ph.vaddr, by omega, by omega, by omega⟩

/-- A page that the loader gives a segment has a byte of it. -/
theorem byte_of_segPages {ph : Elf.Phdr} {p : Nat} (hvaddr : ph.vaddr < 2 ^ 32)
    (hmemsz : ph.memsz < 2 ^ 32) (hsize : ph.memsz ≠ 0) (h : 4096 * p ∈ Elf.segPages ph) :
    ∃ k, k < ph.memsz ∧ (ph.vaddr + k) % 2 ^ 32 / 4096 = p := by
  obtain ⟨hle, hlt⟩ := Elf.mem_segPages_iff_between.mp h
  unfold Elf.segStart Elf.segEnd frameOf add32 at *
  by_cases hstart : 4096 * p ≤ ph.vaddr
  · exact ⟨0, by omega, by omega⟩
  · exact ⟨4096 * p - ph.vaddr, by omega, by omega⟩

/-- The program as `elf32_load` lays it out. -/
def programLayout (data : Mem) : Elf.Layout :=
  Elf.placeSegments data (Elf.loadable data) fun _ => none

theorem mem_stackPages {va : Nat} :
    va ∈ stackPages userStackBase ↔ ∃ i, i < userStackPages ∧ va = userStackBase + 4096 * i := by
  unfold stackPages Pmm.pageSize
  rw [List.mem_map]
  constructor
  · rintro ⟨i, hi, rfl⟩
    exact ⟨i, List.mem_range.mp hi, by omega⟩
  · rintro ⟨i, hi, rfl⟩
    exact ⟨i, List.mem_range.mpr hi, by omega⟩

/-- A program that keeps away from the stack has no page there. -/
theorem programLayout_stack {data : Mem} (havoids : ∀ ph ∈ Elf.loadable data, AvoidsStack ph)
    {va : Nat} (hva : va ∈ stackPages userStackBase) : programLayout data (va / 4096) = none := by
  have hnone : ((Elf.loadable data).filter fun ph =>
      decide (4096 * (va / 4096) ∈ Elf.segPages ph)) = [] := by
    rw [List.filter_eq_nil_iff]
    intro ph hph hmem
    obtain ⟨hvaddr, hmemsz⟩ := loadable_words hph
    have hsize := Elf.loadable_memsz hph
    obtain ⟨k, hk, hpage⟩ := byte_of_segPages hvaddr hmemsz hsize (of_decide_eq_true hmem)
    apply (avoidsStack_iff hvaddr hsize).mp (havoids ph hph)
    obtain ⟨i, hi, rfl⟩ := mem_stackPages.mp hva
    unfold userStackPages at hi
    refine ⟨k, hk, ?_, ?_⟩
    · unfold userStackBase at *
      omega
    · unfold userStackTop userStackBase userStackPages Pmm.pageSize at *
      omega
  unfold programLayout
  rw [Elf.placeSegments_apply, hnone]
  rfl

/-! ## The process that is returned -/

/-- The byte that `elf32_load` puts at an address, if it loads the page. -/
def loadedByte (data : Mem) (va : Nat) : Option UInt8 :=
  (programLayout data (va / 4096)).map fun pg => pg.bytes (va % 4096)

/-- The stack below `top` displaces nothing of the program. -/
structure StackApart (data m : Mem) (pd top : Nat) : Prop where
  outside : ∀ ph ∈ Elf.loadable data, ¬ByteInStack ph
  readable : ∀ va b, va < 2 ^ 32 → loadedByte data va = some b →
    userAccessible m pd va = true ∧ ∃ a, translate m pd va = some a ∧ m a = b
  top : top = userStackTop
  stack : ∃ frame : Fin userStackPages → Nat, Function.Injective frame ∧
    (∀ i o, o < 4096 →
      userWritable m pd (userStackBase + 4096 * i.val + o) = true ∧
        translate m pd (userStackBase + 4096 * i.val + o) = some (frame i + o)) ∧
    ∀ va a, va < 2 ^ 32 → loadedByte data va ≠ none → translate m pd va = some a →
      ∀ i, frameOf a ≠ frame i

/-- Every page of the program is open to ring 3. -/
theorem programLayout_user {data : Mem} {p : Nat} {pg : Elf.Page}
    (h : programLayout data p = some pg) : hasFlag pg.flags pteUser = true := by
  unfold programLayout at h
  rw [Elf.placeSegments_apply, Option.or_none] at h
  obtain ⟨ph, -, rfl⟩ := Option.map_eq_some_iff.mp h
  exact Elf.segFlags_user ph

theorem stackPages_page {i o : Nat} (ho : o < 4096) :
    (userStackBase + 4096 * i + o) / 4096 = (userStackBase + 4096 * i) / 4096 ∧
      (userStackBase + 4096 * i + o) % 4096 = o := by
  unfold userStackBase
  omega

section Apart

variable {st : Statics} {m₀ : Mem} {s : Paging.State} {pd : Nat} {l : Elf.Layout} {data : Mem}

/-- The frame behind stack page `i`, at each of its bytes. -/
theorem Stacked.frame (h : Stacked st m₀ s pd l (stackPages userStackBase).reverse)
    (i : Fin userStackPages) :
    ∃ a, ∀ o, o < 4096 → walk s.mem pd (userStackBase + 4096 * i.val + o) = some (a, userStackFlags) ∧
      userWritable s.mem pd (userStackBase + 4096 * i.val + o) = true := by
  have hmem : userStackBase + 4096 * i.val ∈ (stackPages userStackBase).reverse :=
    List.mem_reverse.mpr (mem_stackPages.mpr ⟨i.val, i.isLt, rfl⟩)
  obtain ⟨bytes, hbytes⟩ := h.mapped _ hmem
  obtain ⟨a, ha⟩ := h.shows.page _ _ hbytes
  have hword := h.word _ hmem
  refine ⟨a, fun o ho => ?_⟩
  have hpage := (stackPages_page (i := i.val) ho).1
  have hva : userStackBase + 4096 * i.val + o < 2 ^ 32 := by
    unfold userStackBase at *
    omega
  refine ⟨ha.walk _ hva hpage, ?_⟩
  rw [← hpage] at hbytes
  have huser : hasFlag userStackFlags pteUser = true := by decide
  have hwritable : hasFlag userStackFlags pteWritable = true := by decide
  exact (h.shows.read hva hbytes huser).2.2.trans hwritable

theorem Stacked.stackApart (h : Stacked st m₀ s pd l (stackPages userStackBase).reverse)
    (hkept : ∀ p, (∀ va ∈ stackPages userStackBase, p ≠ va / 4096) → l p = programLayout data p)
    (havoids : ∀ ph ∈ Elf.loadable data, AvoidsStack ph) :
    StackApart data s.mem pd userStackTop := by
  -- the pages of the program are those that the stack loop left
  have hprogram : ∀ p, programLayout data p ≠ none →
      (∀ va ∈ stackPages userStackBase, p ≠ va / 4096) ∧ l p = programLayout data p := by
    intro p hp
    have hout : ∀ va ∈ stackPages userStackBase, p ≠ va / 4096 := by
      rintro va hva rfl
      exact hp (programLayout_stack havoids hva)
    exact ⟨hout, hkept p hout⟩
  choose frame hframe using h.frame
  have hwalk : ∀ i : Fin userStackPages,
      walk s.mem pd (userStackBase + 4096 * i.val) = some (frame i, userStackFlags) :=
    fun i => (hframe i 0 (by decide)).1
  have hapart : ∀ (i : Fin userStackPages) x b flags, x < 2 ^ 32 →
      x / 4096 ≠ (userStackBase + 4096 * i.val) / 4096 → l (x / 4096) ≠ none →
      walk s.mem pd x = some (b, flags) → b ≠ frame i := by
    intro i x b flags hx hne hpage hb heq
    have hmem : userStackBase + 4096 * i.val ∈ (stackPages userStackBase).reverse :=
      List.mem_reverse.mpr (mem_stackPages.mpr ⟨i.val, i.isLt, rfl⟩)
    apply h.apart _ hmem x hx hne hpage
    rw [hb, hwalk i, heq]
    rfl
  refine ⟨fun ph hph => ?_, fun va b hva hb => ?_, rfl, frame, fun i j heq => ?_,
    fun i o ho => ⟨(hframe i o ho).2, ?_⟩, fun va a hva hloaded htranslate i => ?_⟩
  · exact (avoidsStack_iff (loadable_words hph).1 (Elf.loadable_memsz hph)).mp (havoids ph hph)
  · obtain ⟨pg, hpg, rfl⟩ := Option.map_eq_some_iff.mp hb
    have hpage := (hprogram _ (by rw [hpg]; exact Option.some_ne_none pg)).2.trans hpg
    obtain ⟨hread, haccess, -⟩ := h.shows.read hva hpage (programLayout_user hpg)
    exact ⟨haccess, hread⟩
  · by_contra hne
    have hmem : userStackBase + 4096 * i.val ∈ (stackPages userStackBase).reverse :=
      List.mem_reverse.mpr (mem_stackPages.mpr ⟨i.val, i.isLt, rfl⟩)
    have hpages : (userStackBase + 4096 * i.val) / 4096 ≠ (userStackBase + 4096 * j.val) / 4096 := by
      have hval : i.val ≠ j.val := fun hv => hne (Fin.ext hv)
      unfold userStackBase
      omega
    have hsome : l ((userStackBase + 4096 * i.val) / 4096) ≠ none := by
      obtain ⟨bytes, hbytes⟩ := h.mapped _ hmem
      rw [hbytes]
      exact Option.some_ne_none _
    exact hapart j _ _ _ (h.word _ hmem) hpages hsome (hwalk i) heq
  · rw [translate_of_walk (hframe i o ho).1, (stackPages_page (i := i.val) ho).2]
  · have hpage : programLayout data (va / 4096) ≠ none := by
      intro hnone
      unfold loadedByte at hloaded
      rw [hnone] at hloaded
      exact hloaded rfl
    obtain ⟨hout, hl⟩ := hprogram _ hpage
    rw [← hl] at hpage
    obtain ⟨b, flags, hb, hused⟩ := frame_used h.shows hva hpage
    rw [translate_of_walk hb] at htranslate
    cases htranslate
    have hal : b % 4096 = 0 := Pmm.usedFrames_aligned hused
    have hframeOf : frameOf (b + va % 4096) = b := by
      unfold frameOf
      omega
    rw [hframeOf]
    exact hapart i va b flags hva
      (hout _ (mem_stackPages.mpr ⟨i.val, i.isLt, rfl⟩)) hpage hb

end Apart

/-! ## `process_create_from_elf` -/

/-- The directory of a new process is one that the loader can use. -/
theorem Ready.userDir {img : Image} {k : Kernel} {q zs : List Nat} {f : Frames}
    {ms : Paging.State} (h : Ready img k q zs) (hb : BuiltOk img k f ms) :
    Elf.UserDir img.toStatics ms f.pd := by
  refine ⟨h.pdOk hb, fun i hi hpresent => ?_⟩
  by_cases hlow : i < identityPtCount
  · rw [hb.low i hlow, h.directory i hlow]
    unfold identityEntry
    rw [Nat.lor_assoc, show pdeWritable = pteWritable from rfl, hasFlag_writable,
      testBit_or_flags (identityPts_aligned img.toStatics i) (by decide)]
    decide
  · have hsome := tableAt_eq_some.mpr ⟨Nat.le_of_not_lt hlow, hi, hpresent, rfl⟩
    rw [hb.empty i] at hsome
    cases hsome

/-- A process that is returned has its stack pointer at the end of the last page. -/
theorem createFromElfAt_top {img : Image} {base priority r : Nat} {k k' : Kernel}
    {name : List UInt8} {data : Mem}
    (hret : createFromElfAt img base k name data priority = .ok (k', r)) (hr : r ≠ 0) :
    (k'.pcb r).userStackTop = base + userStackPages * Pmm.pageSize := by
  unfold createFromElfAt at hret
  cases hvalid : Elf.elf32Validate data with
  | none =>
      rw [hvalid] at hret
      cases hret
      exact absurd rfl hr
  | some entry =>
      rw [hvalid] at hret
      obtain ⟨⟨k₁, p⟩, -, hrest⟩ := bind_eq_ok.mp hret
      by_cases hp : p = 0
      · simp only [if_pos hp] at hrest
        cases hrest
        exact absurd rfl hr
      · simp only [if_neg hp] at hrest
        have habandon : ∀ k₂, abandon k₂ p ≠ .ok (k', r) := by
          intro k₂ hab
          obtain ⟨k₃, -, hend⟩ := bind_eq_ok.mp hab
          cases hend
          exact hr rfl
        obtain ⟨⟨ms₁, loaded⟩, -, hload⟩ := bind_eq_ok.mp hrest
        cases loaded with
        | false => exact absurd hload (habandon _)
        | true =>
            obtain ⟨⟨ms₂, mapped⟩, -, hmap⟩ := bind_eq_ok.mp hload
            cases mapped with
            | false => exact absurd hmap (habandon _)
            | true =>
                cases hmap
                rw [modPcb_pcb_self]

/-- The directory of a process that is returned shows its stack over its program. -/
theorem processCreateFromElf_stacked {img : Image} {priority r : Nat} {k k' : Kernel}
    {q zs : List Nat} {name : List UInt8} {data : Mem} (h : Ready img k q zs)
    (hret : processCreateFromElf img k name data priority = .ok (k', r)) (hr : r ≠ 0) :
    ∃ m₀ l, Stacked img.toStatics m₀ k'.ms (k'.pcb r).cr3 l (stackPages userStackBase).reverse ∧
      ∀ p, (∀ va ∈ stackPages userStackBase, p ≠ va / 4096) → l p = programLayout data p := by
  cases createFromElfAt_inv h.inv hret with
  | invalid => exact absurd rfl hr
  | notCreated => exact absurd rfl hr
  | @created k₁ _ x _ hvalid hx hcreate hload hspares hpid hident =>
      cases hload with
      | abandoned => exact absurd rfl hr
      | loaded hinv hloads =>
          cases hcreate with
          | failed => exact absurd rfl hx
          | made _ _ _ _ _ _ _ hbuilt =>
              have hframes : (k'.pcb r).frames = (k₁.pcb r).frames := congrArg Ident.frames hident
              have hcr3 : (k'.pcb r).cr3 = (k₁.pcb r).cr3 := congrArg Frames.pd hframes
              rw [hcr3]
              generalize hms : k'.ms = ms at hloads
              cases hloads with
              | loaded himage hstack =>
                  have hshows := Elf.elf32Load_shows (h.userDir hbuilt.ok) himage
                  have hstart : Stacked img.toStatics k₁.ms.mem _ _ (programLayout data) [] :=
                    ⟨hshows, by simp, by simp, by simp⟩
                  obtain ⟨l, hl, hkept⟩ := mapStack_stacked hstart (by decide) (by decide)
                    (by simp) hstack
                  rw [List.append_nil] at hl
                  exact ⟨_, l, hl, hkept⟩

/-- One segment of data where the kernel puts the stack. -/
def stackProgram : Mem := Elf.program [⟨1, 84, 0x500000, 4, 16, 6⟩] [1, 2, 3, 4]

end StakOS.Process
