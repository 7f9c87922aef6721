import StakOS.Pmm.Contract
import StakOS.Paging.Tables

/-!
# Frames inside the identity map

`pmm.c` manages 128 MB of frames and `paging.c` identity-maps 32 MB.  Which
frames an allocator may ever hand out is decided by the memory map alone: the
frames of its available entries, less the ones `pmm_init` takes back.  They are
handed out lowest first, so a frame above the window is reached exactly when one
is free and the counter outlasts the free frames below it.
-/

namespace StakOS.Pmm

open StakOS.Lib.Memory StakOS.Paging

/-! ## What `pmm_init` leaves free -/

/-- The frames of the available entries of a memory map. -/
def availableFrames (es : List MmapEntry) : Finset Nat := (es.flatMap entryFrames).toFinset

/-- The frames `pmm_init` tests and takes back: the kernel image and the frame
the boot information starts in. -/
def reservedList (mbootPtr kernelEnd : Nat) : List Nat :=
  List.range (min (kernelEndFrame kernelEnd + 1) maxFrames) ++
    if mbootPtr / pageSize < maxFrames then [mbootPtr / pageSize] else []

/-- The frames that are free when `pmm_init` returns. -/
def initialFrames (es : List MmapEntry) (mbootPtr kernelEnd : Nat) : Finset Nat :=
  (availableFrames es).erase 0 \ (reservedList mbootPtr kernelEnd).toFinset

/-- The counter when `pmm_init` returns: every frame an entry names counts once
for that entry, frame 0 is never uncounted, and 32 bits are kept. -/
def initialCount (es : List MmapEntry) (mbootPtr kernelEnd : Nat) : Nat :=
  sub32 ((es.map fun e => (entryFrames e).length).sum % 2 ^ 32)
    ((availableFrames es).erase 0 ∩ (reservedList mbootPtr kernelEnd).toFinset).card

theorem freeSet_full : freeSet ⟨fun _ => 0xFFFFFFFF#32, 0, 0⟩ = ∅ := by
  ext f
  have hused : frameTest ⟨fun _ => 0xFFFFFFFF#32, 0, 0⟩ f = true := frameTest_of_full rfl rfl
  rw [mem_freeSet, hused]
  simp

theorem freeSet_foldl_releaseFrame (fs : List Nat) (s : State) (hfs : ∀ f ∈ fs, f < maxFrames) :
    freeSet (fs.foldl releaseFrame s) = freeSet s ∪ fs.toFinset := by
  induction fs generalizing s with
  | nil => simp
  | cons f fs ih =>
      have hf : f < maxFrames := hfs f (by simp)
      have hone : freeSet (releaseFrame s f) = insert f (freeSet s) := by
        rw [← freeSet_frameClear hf]
        rfl
      rw [List.foldl_cons, ih _ fun g hg => hfs g (by simp [hg]), hone, List.toFinset_cons,
        Finset.insert_union, Finset.union_insert]

theorem freeSet_foldl_visitEntry (es : List MmapEntry) (s : State) :
    freeSet (es.foldl visitEntry s) = freeSet s ∪ availableFrames es := by
  induction es generalizing s with
  | nil => simp [availableFrames]
  | cons e es ih =>
      have hone : freeSet (visitEntry s e) = freeSet s ∪ (entryFrames e).toFinset :=
        freeSet_foldl_releaseFrame _ s fun f hf => entryFrames_lt hf
      have hsplit : availableFrames (e :: es) = (entryFrames e).toFinset ∪ availableFrames es := by
        unfold availableFrames
        rw [List.flatMap_cons, List.toFinset_append]
      rw [List.foldl_cons, ih, hone, hsplit, Finset.union_assoc]

theorem freeFrames_foldl_releaseFrame (fs : List Nat) (s : State)
    (hword : s.freeFrames < 2 ^ 32) :
    (fs.foldl releaseFrame s).freeFrames = (s.freeFrames + fs.length) % 2 ^ 32 := by
  induction fs generalizing s with
  | nil => exact (Nat.mod_eq_of_lt hword).symm
  | cons f fs ih =>
      have hone : (releaseFrame s f).freeFrames = (s.freeFrames + 1) % 2 ^ 32 := rfl
      rw [List.foldl_cons, ih _ (by rw [hone]; exact Nat.mod_lt _ (by norm_num)), hone,
        List.length_cons]
      omega

theorem freeFrames_foldl_visitEntry (es : List MmapEntry) (s : State)
    (hword : s.freeFrames < 2 ^ 32) :
    (es.foldl visitEntry s).freeFrames =
      (s.freeFrames + (es.map fun e => (entryFrames e).length).sum) % 2 ^ 32 := by
  induction es generalizing s with
  | nil => exact (Nat.mod_eq_of_lt hword).symm
  | cons e es ih =>
      have hone : (visitEntry s e).freeFrames =
          (s.freeFrames + (entryFrames e).length) % 2 ^ 32 :=
        freeFrames_foldl_releaseFrame _ s hword
      rw [List.foldl_cons, ih _ (by rw [hone]; exact Nat.mod_lt _ (by norm_num)), hone,
        List.map_cons, List.sum_cons]
      omega

/-- Taking frames back removes them from the free ones and uncounts those that
were free, each once. -/
theorem foldl_reserveFrame_spec (fs : List Nat) (s : State) (hfs : ∀ f ∈ fs, f < maxFrames)
    (hword : s.freeFrames < 2 ^ 32) :
    freeSet (fs.foldl reserveFrame s) = freeSet s \ fs.toFinset ∧
      (fs.foldl reserveFrame s).freeFrames =
        sub32 s.freeFrames (freeSet s ∩ fs.toFinset).card := by
  induction fs generalizing s with
  | nil =>
      constructor
      · simp
      · simp only [List.foldl_nil, List.toFinset_nil, Finset.inter_empty, Finset.card_empty]
        exact (sub32_of_le (Nat.zero_le _) hword).symm
  | cons f fs ih =>
      have hf : f < maxFrames := hfs f (by simp)
      have hrest : ∀ g ∈ fs, g < maxFrames := fun g hg => hfs g (by simp [hg])
      rw [List.foldl_cons, List.toFinset_cons]
      cases htest : frameTest s f with
      | true =>
          have hout : f ∉ freeSet s := by
            rw [mem_freeSet, htest]
            simp
          rw [reserveFrame_of_used htest, Finset.sdiff_insert_of_notMem hout,
            Finset.inter_insert_of_notMem hout]
          exact ih s hrest hword
      | false =>
          have hin : f ∈ freeSet s := mem_freeSet.mpr ⟨hf, htest⟩
          rw [reserveFrame_of_free htest]
          obtain ⟨hset, hcount⟩ := ih ((frameSet s f).setFree (sub32 s.freeFrames 1)) hrest
            (Nat.mod_lt _ (by norm_num))
          rw [freeSet_setFree, freeSet_frameSet] at hset hcount
          constructor
          · rw [hset, Finset.erase_eq, Finset.sdiff_sdiff_left', ← Finset.sdiff_union_distrib]
            rfl
          · -- `f` is the one element of the intersection that the tail does not see
            have hcard : (freeSet s ∩ insert f fs.toFinset).card =
                ((freeSet s).erase f ∩ fs.toFinset).card + 1 := by
              rw [Finset.inter_insert_of_mem hin, ← Finset.card_erase_add_one
                (Finset.mem_insert_self f _), Finset.erase_insert_eq_erase, ← Finset.erase_inter]
            have hsmall : ((freeSet s).erase f ∩ fs.toFinset).card < 2 ^ 32 - 1 := by
              calc ((freeSet s).erase f ∩ fs.toFinset).card ≤ ((freeSet s).erase f).card :=
                    Finset.card_le_card Finset.inter_subset_left
                _ ≤ (freeSet s).card := Finset.card_erase_le
                _ ≤ maxFrames := freeSet_card_le s
                _ < 2 ^ 32 - 1 := by decide
            rw [hcount, hcard, setFree_freeFrames]
            unfold sub32
            omega

theorem reservedList_lt {mbootPtr kernelEnd f : Nat} (hf : f ∈ reservedList mbootPtr kernelEnd) :
    f < maxFrames := by
  unfold reservedList at hf
  rcases List.mem_append.mp hf with hrange | hinfo
  · rw [List.mem_range] at hrange
    omega
  · split at hinfo
    · rw [List.mem_singleton] at hinfo
      omega
    · cases hinfo

/-- Bitmap and counter after `pmm_init`, as functions of the memory map. -/
theorem pmmInit_spec {m : Mem} {mbootPtr kernelEnd : Nat} {s₀ : State} {es : List MmapEntry}
    (hinit : pmmInit m mbootPtr kernelEnd = some s₀) (hmap : memoryMap m mbootPtr = some es) :
    freeSet s₀ = initialFrames es mbootPtr kernelEnd ∧
      s₀.freeFrames = initialCount es mbootPtr kernelEnd := by
  obtain ⟨es', hmap', hs₀⟩ := pmmInit_eq_foldl hinit
  have hes : es' = es := by
    rw [hmap] at hmap'
    exact (Option.some.inj hmap').symm
  subst hes
  have hfold : s₀ = (reservedList mbootPtr kernelEnd).foldl reserveFrame
      (frameSet (es'.foldl visitEntry ⟨fun _ => 0xFFFFFFFF#32, 0, 0⟩) 0) := by
    rw [hs₀]
    unfold reservedList
    rw [List.foldl_append]
    simp only
    split
    · rfl
    · rfl
  have hfree := freeSet_foldl_visitEntry es' ⟨fun _ => 0xFFFFFFFF#32, 0, 0⟩
  rw [freeSet_full, Finset.empty_union] at hfree
  have hcount := freeFrames_foldl_visitEntry es' ⟨fun _ => 0xFFFFFFFF#32, 0, 0⟩ (by norm_num)
  rw [Nat.zero_add] at hcount
  obtain ⟨hset, hcounter⟩ := foldl_reserveFrame_spec (reservedList mbootPtr kernelEnd)
    (frameSet (es'.foldl visitEntry ⟨fun _ => 0xFFFFFFFF#32, 0, 0⟩) 0)
    (fun f hf => reservedList_lt hf)
    (by rw [frameSet_freeFrames, hcount]; exact Nat.mod_lt _ (by norm_num))
  rw [freeSet_frameSet, hfree] at hset hcounter
  rw [frameSet_freeFrames, hcount] at hcounter
  rw [hfold]
  exact ⟨hset, hcounter⟩

/-! ## Reaching a frame above the window -/

/-- The first frame above the identity map. -/
def windowFrames : Nat := identityMappedBytes / pageSize

/-- Every address the allocator returns, at any point of any history of calls,
is the address of a frame that lies wholly inside the identity map. -/
def Addressable (s₀ : State) : Prop :=
  ∀ h, Relation.ReflTransGen Call ⟨s₀, []⟩ h → (pmmAllocFrame h.pmm).2 ≠ 0 →
    (pmmAllocFrame h.pmm).2 + pageSize ≤ identityMappedBytes

theorem inWindow_iff {f : Nat} : f * pageSize + pageSize ≤ identityMappedBytes ↔ f < windowFrames := by
  unfold windowFrames
  rw [show identityMappedBytes = 8192 * pageSize from rfl]
  unfold pageSize
  omega

/-- The free frames below the window's end. -/
def lowFrames (s : State) : Finset Nat := (freeSet s).filter fun f => f < windowFrames

/-- With a free frame and a counter that allows it, an allocation takes the
lowest free frame. -/
theorem pmmAllocFrame_of_free {s : State} {g : Nat} (hg : g ∈ freeSet s)
    (hcount : 0 < s.freeFrames) :
    ∃ f, f ∈ freeSet s ∧ (∀ g, g < f → frameTest s g = true) ∧
      pmmAllocFrame s = ((frameSet s f).setFree (s.freeFrames - 1), f * pageSize) := by
  rcases pmmAllocFrame_cases s with ⟨f, -, hlt, hfree, hlow, heq⟩ | ⟨hwhy, -⟩
  · exact ⟨f, mem_freeSet.mpr ⟨hlt, hfree⟩, hlow, heq⟩
  · obtain ⟨hgmax, hgfree⟩ := mem_freeSet.mp hg
    rcases hwhy with hempty | hfull
    · omega
    · rw [hfull g hgmax] at hgfree
      exact absurd hgfree (by decide)

theorem lowFrames_frameSet {s : State} (f n : Nat) :
    lowFrames ((frameSet s f).setFree n) = (lowFrames s).erase f := by
  unfold lowFrames
  rw [freeSet_setFree, freeSet_frameSet, Finset.filter_erase]

/-- As long as the counter exceeds the number of free frames in the window,
allocating often enough leads to a frame above it. -/
theorem exists_call_above {h : History} {g : Nat} (hg : g ∈ freeSet h.pmm)
    (hhigh : windowFrames ≤ g) (hcount : (lowFrames h.pmm).card < h.pmm.freeFrames) :
    ∃ h', Relation.ReflTransGen Call h h' ∧ (pmmAllocFrame h'.pmm).2 ≠ 0 ∧
      ¬(pmmAllocFrame h'.pmm).2 + pageSize ≤ identityMappedBytes := by
  -- induction on the free frames inside the window: each call takes one of them
  induction hn : (lowFrames h.pmm).card generalizing h with
  | zero =>
      obtain ⟨f, hf, -, heq⟩ := pmmAllocFrame_of_free hg (by omega)
      have habove : ¬f < windowFrames := by
        intro hlow
        have hmem : f ∈ lowFrames h.pmm := Finset.mem_filter.mpr ⟨hf, hlow⟩
        rw [Finset.card_eq_zero.mp hn] at hmem
        exact Finset.notMem_empty f hmem
      have hpos : 0 < windowFrames := by decide
      refine ⟨h, Relation.ReflTransGen.refl, ?_, ?_⟩
      · rw [heq]
        exact Nat.mul_ne_zero (by omega) (by decide)
      · rw [heq, inWindow_iff]
        exact habove
  | succ n ih =>
      obtain ⟨f, hf, hlowest, heq⟩ := pmmAllocFrame_of_free hg (by omega)
      obtain ⟨e, he⟩ := Finset.card_pos.mp (by rw [hn]; exact Nat.succ_pos n)
      obtain ⟨hefree, helow⟩ := Finset.mem_filter.mp he
      have hflow : f < windowFrames := by
        by_contra habove
        have hused := hlowest e (by omega)
        rw [(mem_freeSet.mp hefree).2] at hused
        exact absurd hused (by decide)
      have hfmem : f ∈ lowFrames h.pmm := Finset.mem_filter.mpr ⟨hf, hflow⟩
      have hcard : ((lowFrames h.pmm).erase f).card = n := by
        rw [Finset.card_erase_of_mem hfmem, hn, Nat.add_sub_cancel]
      have hstep : Call h ⟨(frameSet h.pmm f).setFree (h.pmm.freeFrames - 1),
          if f * pageSize = 0 then h.out else f * pageSize :: h.out⟩ := by
        have halloc := Call.alloc h
        rwa [heq] at halloc
      have hg' : g ∈ freeSet ((frameSet h.pmm f).setFree (h.pmm.freeFrames - 1)) := by
        rw [freeSet_setFree, freeSet_frameSet]
        exact Finset.mem_erase.mpr ⟨by omega, hg⟩
      have hcard' : (lowFrames ((frameSet h.pmm f).setFree (h.pmm.freeFrames - 1))).card = n := by
        rw [lowFrames_frameSet, hcard]
      have hcount' : (lowFrames ((frameSet h.pmm f).setFree (h.pmm.freeFrames - 1))).card <
          ((frameSet h.pmm f).setFree (h.pmm.freeFrames - 1)).freeFrames := by
        rw [hcard', setFree_freeFrames]
        omega
      obtain ⟨h', hrun, hout⟩ := ih (h := ⟨_, _⟩) hg' hcount' hcard'
      exact ⟨h', Relation.ReflTransGen.head hstep hrun, hout⟩

/-- A frame above the window is handed out only after every free frame of the
window, and each of those has been counted. -/
theorem HandedOut.low_lt_count {s₀ : State} {h : History} (hh : HandedOut s₀ h) {f : Nat}
    (hpos : 0 < h.pmm.freeFrames) (hlow : ∀ g, g < f → frameTest h.pmm g = true)
    (hhigh : windowFrames ≤ f) : (lowFrames s₀).card < s₀.freeFrames := by
  have hmaps : Set.MapsTo (fun g => g * pageSize) (lowFrames s₀) h.out.toFinset := by
    intro g hg
    obtain ⟨hfree, hbelow⟩ := Finset.mem_filter.mp (Finset.mem_coe.mp hg)
    have hused := hlow g (by omega)
    rw [hh.bits g, (mem_freeSet.mp hfree).2, Bool.false_or, decide_eq_true_eq] at hused
    simpa using hused
  have hinj : Set.InjOn (fun g => g * pageSize) (lowFrames s₀) :=
    fun a _ b _ hab => mul_pageSize_inj.mp hab
  have hcounter := hh.counter
  calc (lowFrames s₀).card ≤ h.out.toFinset.card := Finset.card_le_card_of_injOn _ hmaps hinj
    _ ≤ h.out.length := List.toFinset_card_le _
    _ < s₀.freeFrames := by omega

/-- The allocator stays inside the window exactly when no frame above it is free
at the start, or the counter runs out on the frames below. -/
theorem addressable_iff_start {s₀ : State} (hzero : frameTest s₀ 0 = true)
    (hword : s₀.freeFrames < 2 ^ 32) :
    Addressable s₀ ↔ (∀ g ∈ freeSet s₀, g < windowFrames) ∨
      s₀.freeFrames ≤ (lowFrames s₀).card := by
  constructor
  · intro haddr
    by_contra hnot
    push Not at hnot
    obtain ⟨⟨g, hg, hhigh⟩, hcount⟩ := hnot
    obtain ⟨h', hrun, hne, hout⟩ := exists_call_above (h := ⟨s₀, []⟩) hg hhigh hcount
    exact hout (haddr h' hrun hne)
  · intro hcond h hrun hne
    have hh := handedOut_of_calls hzero hword hrun
    rcases pmmAllocFrame_cases h.pmm with ⟨f, hpos, hlt, hfree, hlow, heq⟩ | ⟨-, heq⟩
    · rw [heq, inWindow_iff]
      by_contra habove
      rcases hcond with hwindow | hcount
      · have hstart := (hh.free_iff.mp hfree).1
        exact habove (hwindow f (mem_freeSet.mpr ⟨hlt, hstart⟩))
      · have hlt := hh.low_lt_count hpos hlow (by omega)
        omega
    · rw [heq] at hne
      exact absurd rfl hne

/-- Where the counter covers the bitmap, one free frame above the window is
enough. -/
theorem CounterCovers.not_addressable {s₀ : State} {g : Nat} (hcovers : CounterCovers s₀)
    (hzero : frameTest s₀ 0 = true) (hg : g ∈ freeSet s₀) (hhigh : windowFrames ≤ g) :
    ¬Addressable s₀ := by
  rw [addressable_iff_start hzero hcovers.2]
  have hlow : (lowFrames s₀).card < (freeSet s₀).card := by
    apply Finset.card_lt_card
    refine ⟨Finset.filter_subset _ _, fun hsub => ?_⟩
    have hbelow := (Finset.mem_filter.mp (hsub hg)).2
    omega
  have hcount := hcovers.1
  intro hcond
  rcases hcond with hwindow | hcount'
  · have hbelow := hwindow g hg
    omega
  · omega

/-! ## The condition on the memory map -/

/-- `pmm_init` returns whenever its walk over the tags does. -/
theorem pmmInit_of_memoryMap {m : Mem} {mbootPtr : Nat} {es : List MmapEntry} (kernelEnd : Nat)
    (hmap : memoryMap m mbootPtr = some es) : ∃ s₀, pmmInit m mbootPtr kernelEnd = some s₀ := by
  have hwalk := walkTags_eq_foldl m visitEntry ⟨fun _ => 0xFFFFFFFF#32, 0, 0⟩ walkFuel
    (add32 mbootPtr 8) []
  unfold memoryMap at hmap
  rw [List.foldl_nil, hmap, Option.map_some] at hwalk
  unfold pmmInit
  rw [hwalk, Option.map_some]
  exact ⟨_, rfl⟩

/-- The memory map keeps the allocator inside the identity map: its available
entries name no frame above the window other than ones `pmm_init` takes back, or
the 32-bit count of the frames they name does not exceed the frames they leave
free inside the window. -/
def FitsWindow (es : List MmapEntry) (mbootPtr kernelEnd : Nat) : Prop :=
  (∀ f ∈ initialFrames es mbootPtr kernelEnd, f < windowFrames) ∨
    initialCount es mbootPtr kernelEnd ≤
      ((initialFrames es mbootPtr kernelEnd).filter fun f => f < windowFrames).card

/-- **Every allocatable frame is addressable exactly on memory maps that fit the
identity-mapped window.** -/
theorem frames_addressable_iff {m : Mem} {mbootPtr kernelEnd : Nat} {s₀ : State}
    {es : List MmapEntry} (hinit : pmmInit m mbootPtr kernelEnd = some s₀)
    (hmap : memoryMap m mbootPtr = some es) :
    Addressable s₀ ↔ FitsWindow es mbootPtr kernelEnd := by
  obtain ⟨hfree, hcount⟩ := pmmInit_spec hinit hmap
  have hword : s₀.freeFrames < 2 ^ 32 := by
    rw [hcount]
    exact Nat.mod_lt _ (by norm_num)
  rw [addressable_iff_start (pmmInit_frame_zero hinit) hword]
  unfold lowFrames FitsWindow
  rw [hfree, hcount]

theorem frames_addressable_iff_bootBlock :
    ∃ s₀, pmmInit bootBlock 0x9000 0x3000 = some s₀ ∧ Addressable s₀ := by
  have hmap : memoryMap bootBlock 0x9000 = some [⟨0x400000, 0x3000, 1⟩] := by decide +kernel
  obtain ⟨s₀, hinit⟩ := pmmInit_of_memoryMap 0x3000 hmap
  refine ⟨s₀, hinit, (frames_addressable_iff hinit hmap).mpr (Or.inl ?_)⟩
  decide +kernel

/-- The boot information of a machine with 64 MB: low memory is not listed, and
one available entry runs from 1 MB to 64 MB. -/
def bootBlock64 : Mem :=
  [(0x9008, 6), (0x900C, 40), (0x9010, 24), (0x9018, 0x100000), (0x9020, 0x3F00000),
    (0x9028, 1)].foldl (fun m p => write32 m p.1 p.2) fun _ => 0

theorem frame_above_window_allocated :
    ∃ s₀, pmmInit bootBlock64 0x9000 0x130000 = some s₀ ∧ ¬Addressable s₀ := by
  have hmap : memoryMap bootBlock64 0x9000 = some [⟨0x100000, 0x3F00000, 1⟩] := by decide +kernel
  obtain ⟨s₀, hinit⟩ := pmmInit_of_memoryMap 0x130000 hmap
  have hframes : entryFrames ⟨0x100000, 0x3F00000, 1⟩ = List.range' 256 16128 := rfl
  have hcovers : CounterCovers s₀ := by
    apply pmmInit_counterCovers hinit hmap
    rw [List.map_singleton, List.sum_singleton, hframes, List.length_range']
    norm_num
  have hfree : 8192 ∈ freeSet s₀ := by
    rw [(pmmInit_spec hinit hmap).1]
    unfold initialFrames availableFrames
    rw [List.flatMap_singleton, hframes, Finset.mem_sdiff, Finset.mem_erase, List.mem_toFinset,
      List.mem_toFinset, List.mem_range'_1]
    exact ⟨by norm_num, by decide +kernel⟩
  exact ⟨s₀, hinit, hcovers.not_addressable (pmmInit_frame_zero hinit) hfree (by decide)⟩

end StakOS.Pmm
