import StakOS.Pmm.Calls
import StakOS.Pmm.Window

/-!
# The free counter

`pmm_init` counts the frames it releases and uncounts the ones it takes back,
frame 0 excepted, and every later call moves the counter with the bitmap.  So
the counter is exact for ever or never, and which of the two is decided by the
memory map.
-/

namespace StakOS.Pmm

open StakOS.Lib.Memory
open Relation (ReflTransGen)

/-! ## The frames of an entry -/

/-- The entry is available and contains all of frame `f`. -/
def MmapEntry.Contains (e : MmapEntry) (f : Nat) : Prop :=
  e.memType = mb2MemoryAvailable ∧ e.baseAddr ≤ f * pageSize ∧
    f * pageSize + pageSize ≤ e.baseAddr + e.length

instance (e : MmapEntry) (f : Nat) : Decidable (e.Contains f) :=
  inferInstanceAs (Decidable (_ ∧ _ ∧ _))

/-- The entry is available and begins in the last page below `2^44`: rounded up,
its start is frame `2^32`, which `frame_start` keeps as frame 0. -/
def MmapEntry.WrapsAround (e : MmapEntry) : Prop :=
  e.memType = mb2MemoryAvailable ∧ 2 ^ 44 ≤ e.baseAddr + (pageSize - 1)

instance (e : MmapEntry) : Decidable e.WrapsAround := inferInstanceAs (Decidable (_ ∧ _))

/-- The frames an entry below `2^44` releases: those it contains, or all. -/
theorem mem_entryFrames_iff {e : MmapEntry} {f : Nat} (hend : e.baseAddr + e.length < 2 ^ 44) :
    f ∈ entryFrames e ↔ f < maxFrames ∧ (e.Contains f ∨ e.WrapsAround) := by
  unfold entryFrames MmapEntry.Contains MmapEntry.WrapsAround
  by_cases htype : e.memType = mb2MemoryAvailable
  · rw [if_pos htype, List.mem_range'_1]
    unfold frameStart frameEnd maxFrames pageSize
    simp only [htype, true_and]
    omega
  · rw [if_neg htype]
    simp [htype]

/-! ## Calls with arbitrary arguments -/

/-- The counter equals the number of clear bits. -/
def Exact (s : State) : Prop := s.freeFrames = (freeSet s).card

theorem Exact.inStep {s s' : State} (h : Exact s) (hstep : InStep s s') : Exact s' := by
  have hcount := hstep.count
  unfold Exact at *
  omega

theorem Exact.free {s : State} (h : Exact s) (a : Nat) : Exact (pmmFreeFrame s a) := by
  apply h.inStep
  apply inStep_free
  calc (freeSet (pmmFreeFrame s a)).card + s.freeFrames
      ≤ maxFrames + s.freeFrames := Nat.add_le_add_right (freeSet_card_le _) _
    _ = maxFrames + (freeSet s).card := by rw [h]
    _ < 2 ^ 32 + (freeSet s).card := Nat.add_lt_add_right (by decide) _

theorem exact_of_calls {s s' : State} (hrun : ReflTransGen AnyCall s s') (h : Exact s) :
    Exact s' := by
  induction hrun with
  | refl => exact h
  | tail _ hcall ih =>
      cases hcall with
      | alloc => exact ih.inStep (inStep_alloc _)
      | free a => exact ih.free a

/-! ## The counter after `pmm_init` -/

/-- The available entries name as many frames, counted in 32 bits with
repetitions, as there are different ones among them other than frame 0. -/
def CountsOnce (es : List MmapEntry) : Prop :=
  (es.map fun e => (entryFrames e).length).sum % 2 ^ 32 = ((availableFrames es).erase 0).card

instance (es : List MmapEntry) : Decidable (CountsOnce es) := inferInstanceAs (Decidable (_ = _))

theorem availableFrames_card_le (es : List MmapEntry) : (availableFrames es).card ≤ maxFrames := by
  have hsub : availableFrames es ⊆ Finset.range maxFrames := by
    intro f hf
    obtain ⟨e, -, hfe⟩ := List.mem_flatMap.mp (List.mem_toFinset.mp hf)
    exact Finset.mem_range.mpr (entryFrames_lt hfe)
  calc (availableFrames es).card ≤ (Finset.range maxFrames).card := Finset.card_le_card hsub
    _ = maxFrames := Finset.card_range maxFrames

theorem initialCount_eq_card_iff (es : List MmapEntry) (mbootPtr kernelEnd : Nat) :
    initialCount es mbootPtr kernelEnd = (initialFrames es mbootPtr kernelEnd).card ↔
      CountsOnce es := by
  have hsplit := Finset.card_inter_add_card_sdiff ((availableFrames es).erase 0)
    (reservedList mbootPtr kernelEnd).toFinset
  have hsmall : ((availableFrames es).erase 0).card ≤ 32768 :=
    Finset.card_erase_le.trans (availableFrames_card_le es)
  unfold initialCount initialFrames CountsOnce sub32
  omega

/-- The counter is exact after `pmm_init` and after every sequence of calls
exactly on memory maps whose frames are counted once. -/
theorem counter_exact_iff {m : Mem} {mbootPtr kernelEnd : Nat} {s₀ : State} {es : List MmapEntry}
    (hinit : pmmInit m mbootPtr kernelEnd = some s₀) (hmap : memoryMap m mbootPtr = some es) :
    (∀ s, ReflTransGen AnyCall s₀ s → s.freeFrames = (freeSet s).card) ↔ CountsOnce es := by
  obtain ⟨hfree, hcount⟩ := pmmInit_spec hinit hmap
  have hstart : Exact s₀ ↔ CountsOnce es := by
    unfold Exact
    rw [hfree, hcount]
    exact initialCount_eq_card_iff es mbootPtr kernelEnd
  rw [← hstart]
  constructor
  · intro hall
    exact hall s₀ ReflTransGen.refl
  · intro hexact s hrun
    exact exact_of_calls hrun hexact

theorem counter_exact_iff_bootBlock :
    ∃ s₀, pmmInit bootBlock 0x9000 0x3000 = some s₀ ∧
      ∀ s, ReflTransGen AnyCall s₀ s → s.freeFrames = (freeSet s).card := by
  have hmap : memoryMap bootBlock 0x9000 = some [⟨0x400000, 0x3000, 1⟩] := by decide +kernel
  obtain ⟨s₀, hinit⟩ := pmmInit_of_memoryMap 0x3000 hmap
  exact ⟨s₀, hinit, (counter_exact_iff hinit hmap).mpr (by decide +kernel)⟩

/-- The boot information of a machine whose memory map begins, as usual, with
low memory from address 0. -/
def bootBlockLow : Mem :=
  [(0x9008, 6), (0x900C, 40), (0x9010, 24), (0x9018, 0), (0x9020, 0x9F000),
    (0x9028, 1)].foldl (fun m p => write32 m p.1 p.2) fun _ => 0

/-- Frame 0 is taken back without being uncounted. -/
theorem frame_zero_stays_counted :
    memoryMap bootBlockLow 0x9000 = some [⟨0, 0x9F000, 1⟩] ∧
      ∃ s₀, pmmInit bootBlockLow 0x9000 0x3000 = some s₀ ∧
        s₀.freeFrames = (freeSet s₀).card + 1 := by
  have hmap : memoryMap bootBlockLow 0x9000 = some [⟨0, 0x9F000, 1⟩] := by decide +kernel
  obtain ⟨s₀, hinit⟩ := pmmInit_of_memoryMap 0x3000 hmap
  obtain ⟨hfree, hcount⟩ := pmmInit_spec hinit hmap
  refine ⟨hmap, s₀, hinit, ?_⟩
  rw [hfree, hcount]
  decide +kernel

/-! ## Maps below `2^44` -/

/-- The bytes of the entries do not overlap. -/
def Apart (es : List MmapEntry) : Prop :=
  es.Pairwise fun e e' => e.baseAddr + e.length ≤ e'.baseAddr ∨ e'.baseAddr + e'.length ≤ e.baseAddr

/-- On maps whose entries lie apart below `2^44`, and none of which begins in
the last page there, no frame is named twice. -/
theorem Apart.nonOverlapping {es : List MmapEntry} (hapart : Apart es)
    (hend : ∀ e ∈ es, e.baseAddr + e.length < 2 ^ 44) (hwrap : ∀ e ∈ es, ¬ e.WrapsAround) :
    NonOverlapping es := by
  apply hapart.imp_of_mem
  intro e e' he he' hbytes f hf hf'
  have hc := ((mem_entryFrames_iff (hend e he)).mp hf).2.resolve_right (hwrap e he)
  have hc' := ((mem_entryFrames_iff (hend e' he')).mp hf').2.resolve_right (hwrap e' he')
  obtain ⟨-, hlo, hhi⟩ := hc
  obtain ⟨-, hlo', hhi'⟩ := hc'
  unfold pageSize at *
  omega

/-- There the counter is exact unless some available entry contains frame 0. -/
theorem countsOnce_iff {es : List MmapEntry} (hapart : Apart es)
    (hend : ∀ e ∈ es, e.baseAddr + e.length < 2 ^ 44) (hwrap : ∀ e ∈ es, ¬ e.WrapsAround) :
    CountsOnce es ↔ ∀ e ∈ es, ¬ e.Contains 0 := by
  have hnodup : (es.flatMap entryFrames).Nodup :=
    List.nodup_flatMap.mpr ⟨fun e _ => entryFrames_nodup e, hapart.nonOverlapping hend hwrap⟩
  have hsum : (es.map fun e => (entryFrames e).length).sum = (availableFrames es).card := by
    rw [← List.length_flatMap]
    exact (List.toFinset_card_of_nodup hnodup).symm
  have hsmall := availableFrames_card_le es
  have hzero : 0 ∈ availableFrames es ↔ ∃ e ∈ es, e.Contains 0 := by
    unfold availableFrames
    rw [List.mem_toFinset, List.mem_flatMap]
    constructor
    · rintro ⟨e, he, hf⟩
      exact ⟨e, he, ((mem_entryFrames_iff (hend e he)).mp hf).2.resolve_right (hwrap e he)⟩
    · rintro ⟨e, he, hc⟩
      exact ⟨e, he, (mem_entryFrames_iff (hend e he)).mpr ⟨by decide, Or.inl hc⟩⟩
  have hmod : (availableFrames es).card % 2 ^ 32 = (availableFrames es).card :=
    Nat.mod_eq_of_lt (lt_of_le_of_lt hsmall (by decide))
  unfold CountsOnce
  rw [hsum, hmod]
  constructor
  · intro hcount e he hc
    have hmem := hzero.mpr ⟨e, he, hc⟩
    have hpos := Finset.card_pos.mpr ⟨0, hmem⟩
    rw [Finset.card_erase_of_mem hmem] at hcount
    omega
  · intro hnone
    have hout : 0 ∉ availableFrames es := by
      intro hmem
      obtain ⟨e, he, hc⟩ := hzero.mp hmem
      exact hnone e he hc
    rw [Finset.erase_eq_of_notMem hout]

end StakOS.Pmm
