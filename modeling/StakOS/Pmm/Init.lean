import StakOS.Pmm.Bitmap

/-!
# Reading the memory map

`pmm_init` marks every frame used, walks the Multiboot2 tags in memory and
releases the frames of every available entry, then takes back frame 0, the
frames of the kernel image and the frame the boot information starts in.

Both walks are `while` loops over addresses read from memory.  They are given
as many turns as there are 32-bit addresses; a walk that needs more has come
back to an address it has visited and never ends, which is the result `none`.
-/

namespace StakOS.Pmm

open StakOS.Lib.Memory

/-- One entry of the Multiboot2 memory map. -/
structure MmapEntry where
  baseAddr : Nat
  length : Nat
  memType : Nat
deriving DecidableEq

def mb2MemoryAvailable : Nat := 1

def walkFuel : Nat := 2 ^ 32

def readEntry (m : Mem) (p : Nat) : MmapEntry :=
  ⟨read64 m p, read64 m (p + 8), read32 m (p + 16)⟩

/-- The loop over the entries of one memory-map tag.  `visit` is what the loop
does with an entry. -/
def walkEntries {σ : Type} (m : Mem) (entrySize mmapEnd : Nat) (visit : σ → MmapEntry → σ) :
    Nat → Nat → σ → Option σ
  | 0, _, _ => none
  | fuel + 1, entryPtr, acc =>
      if entryPtr < mmapEnd then
        walkEntries m entrySize mmapEnd visit fuel (add32 entryPtr entrySize)
          (visit acc (readEntry m entryPtr))
      else some acc

/-- The loop over the tags, up to the tag of type 0. -/
def walkTags {σ : Type} (m : Mem) (visit : σ → MmapEntry → σ) :
    Nat → Nat → σ → Option σ
  | 0, _, _ => none
  | fuel + 1, tag, acc =>
      if read32 m tag = 0 then some acc
      else
        let mmapEnd := add32 tag (read32 m (tag + 4))
        let next := add32 mmapEnd 7 / 8 * 8
        if read32 m tag = 6 then
          (walkEntries m (read32 m (tag + 8)) mmapEnd visit walkFuel (add32 tag 16) acc).bind
            (walkTags m visit fuel next)
        else walkTags m visit fuel next acc

/-- `start` rounded up to a frame number, as the code computes it. -/
def frameStart (e : MmapEntry) : Nat :=
  (e.baseAddr + pageSize - 1) % 2 ^ 64 / pageSize % 2 ^ 32

/-- `end` rounded down to a frame number. -/
def frameEnd (e : MmapEntry) : Nat :=
  (e.baseAddr + e.length) % 2 ^ 64 / pageSize % 2 ^ 32

/-- The body of the loop that frees a region. -/
def releaseFrame (s : State) (f : Nat) : State :=
  let s := (frameClear s f).setFree ((s.freeFrames + 1) % 2 ^ 32)
  { s with totalFrames := (s.totalFrames + 1) % 2 ^ 32 }

/-- The frames the loop runs over: `f` from `frame_start`, below `frame_end` and
`MAX_FRAMES`, for an available entry. -/
def entryFrames (e : MmapEntry) : List Nat :=
  if e.memType = mb2MemoryAvailable then
    List.range' (frameStart e) (min (frameEnd e) maxFrames - frameStart e)
  else []

def visitEntry (s : State) (e : MmapEntry) : State :=
  (entryFrames e).foldl releaseFrame s

/-- Mark a frame used and uncount it, if it is still free. -/
def reserveFrame (s : State) (f : Nat) : State :=
  if !frameTest s f then (frameSet s f).setFree (sub32 s.freeFrames 1) else s

def kernelEndFrame (kernelEnd : Nat) : Nat := add32 kernelEnd (pageSize - 1) / pageSize

def pmmInit (m : Mem) (mbootPtr kernelEnd : Nat) : Option State :=
  (walkTags m visitEntry walkFuel (add32 mbootPtr 8) ⟨fun _ => 0xFFFFFFFF#32, 0, 0⟩).map
    fun s =>
      -- frame 0 is taken without touching the counter
      let s := frameSet s 0
      let s := (List.range (min (kernelEndFrame kernelEnd + 1) maxFrames)).foldl reserveFrame s
      let mbFrame := mbootPtr / pageSize
      if mbFrame < maxFrames then reserveFrame s mbFrame else s

/-- The entries the walk visits, in the order it visits them. -/
def memoryMap (m : Mem) (mbootPtr : Nat) : Option (List MmapEntry) :=
  walkTags m (fun es e => es ++ [e]) walkFuel (add32 mbootPtr 8) []

/-! ## The walk visits the memory map -/

theorem walkEntries_eq_foldl {σ : Type} (m : Mem) (entrySize mmapEnd : Nat)
    (visit : σ → MmapEntry → σ) (init : σ) (fuel entryPtr : Nat) (seen : List MmapEntry) :
    walkEntries m entrySize mmapEnd visit fuel entryPtr (seen.foldl visit init) =
      (walkEntries m entrySize mmapEnd (fun es e => es ++ [e]) fuel entryPtr seen).map
        fun es => es.foldl visit init := by
  induction fuel generalizing entryPtr seen with
  | zero => rfl
  | succ fuel ih =>
      rw [walkEntries, walkEntries]
      split
      · rw [← ih, List.foldl_append]
        rfl
      · rfl

theorem walkTags_eq_foldl {σ : Type} (m : Mem) (visit : σ → MmapEntry → σ) (init : σ)
    (fuel tag : Nat) (seen : List MmapEntry) :
    walkTags m visit fuel tag (seen.foldl visit init) =
      (walkTags m (fun es e => es ++ [e]) fuel tag seen).map
        fun es => es.foldl visit init := by
  induction fuel generalizing tag seen with
  | zero => rfl
  | succ fuel ih =>
      rw [walkTags, walkTags]
      split
      · rfl
      · simp only
        split
        · rw [walkEntries_eq_foldl]
          cases walkEntries m (read32 m (tag + 8)) (add32 tag (read32 m (tag + 4)))
            (fun es e => es ++ [e]) walkFuel (add32 tag 16) seen with
          | none => rfl
          | some es => exact ih _ es
        · exact ih _ seen

/-- `pmm_init` is a fold over the memory map followed by the reservations. -/
theorem pmmInit_eq_foldl {m : Mem} {mbootPtr kernelEnd : Nat} {s : State}
    (h : pmmInit m mbootPtr kernelEnd = some s) :
    ∃ es, memoryMap m mbootPtr = some es ∧
      s = (let s := frameSet (es.foldl visitEntry ⟨fun _ => 0xFFFFFFFF#32, 0, 0⟩) 0
        let s := (List.range (min (kernelEndFrame kernelEnd + 1) maxFrames)).foldl
          reserveFrame s
        if mbootPtr / pageSize < maxFrames then reserveFrame s (mbootPtr / pageSize)
        else s) := by
  have hwalk := walkTags_eq_foldl m visitEntry ⟨fun _ => 0xFFFFFFFF#32, 0, 0⟩ walkFuel
    (add32 mbootPtr 8) []
  rw [List.foldl_nil] at hwalk
  unfold pmmInit at h
  rw [hwalk] at h
  cases hmap : memoryMap m mbootPtr with
  | none =>
      unfold memoryMap at hmap
      rw [hmap] at h
      cases h
  | some es =>
      unfold memoryMap at hmap
      rw [hmap] at h
      simp only [Option.map_some, Option.some.injEq] at h
      exact ⟨es, rfl, h.symm⟩

/-! ## The counter after the walk -/

theorem entryFrames_nodup (e : MmapEntry) : (entryFrames e).Nodup := by
  unfold entryFrames
  split
  · exact List.nodup_range'
  · exact List.nodup_nil

theorem entryFrames_lt {e : MmapEntry} {f : Nat} (h : f ∈ entryFrames e) : f < maxFrames := by
  unfold entryFrames at h
  split at h
  · rw [List.mem_range'_1] at h
    omega
  · cases h

/-- The counter is at least the number of clear bits.  `pmm_init` takes frame 0
without counting it, so equality is not an invariant. -/
def CounterCovers (s : State) : Prop :=
  (freeSet s).card ≤ s.freeFrames ∧ s.freeFrames < 2 ^ 32

@[simp] theorem frameTest_releaseFrame (s : State) (f g : Nat) :
    frameTest (releaseFrame s f) g = (frameTest s g && !decide (g = f)) :=
  frameTest_frameClear s f g

private theorem foldl_releaseFrame (fs : List Nat) (s : State)
    (hroom : s.freeFrames + fs.length < 2 ^ 32) (hcover : (freeSet s).card ≤ s.freeFrames) :
    (fs.foldl releaseFrame s).freeFrames = s.freeFrames + fs.length ∧
      (freeSet (fs.foldl releaseFrame s)).card ≤ (fs.foldl releaseFrame s).freeFrames := by
  induction fs generalizing s with
  | nil => exact ⟨rfl, hcover⟩
  | cons f fs ih =>
      rw [List.length_cons] at hroom
      have hcount : (releaseFrame s f).freeFrames = s.freeFrames + 1 :=
        Nat.mod_eq_of_lt (by omega)
      have hsub : freeSet (releaseFrame s f) ⊆ insert f (freeSet s) := by
        intro g hg
        rw [mem_freeSet] at hg
        have htest := hg.2
        rw [frameTest_releaseFrame] at htest
        rw [Finset.mem_insert, mem_freeSet]
        by_cases hgf : g = f
        · exact Or.inl hgf
        · exact Or.inr ⟨hg.1, by simpa [hgf] using htest⟩
      have hcard : (freeSet (releaseFrame s f)).card ≤ (releaseFrame s f).freeFrames := by
        have h1 := Finset.card_le_card hsub
        have h2 := Finset.card_insert_le f (freeSet s)
        omega
      have hrest := ih (releaseFrame s f) (by omega) hcard
      rw [List.foldl_cons, List.length_cons]
      exact ⟨by rw [hrest.1, hcount]; omega, hrest.2⟩

theorem foldl_visitEntry (es : List MmapEntry) (s : State)
    (hroom : s.freeFrames + (es.map fun e => (entryFrames e).length).sum < 2 ^ 32)
    (hcover : (freeSet s).card ≤ s.freeFrames) : CounterCovers (es.foldl visitEntry s) := by
  induction es generalizing s with
  | nil =>
      refine ⟨hcover, ?_⟩
      simp only [List.map_nil, List.sum_nil] at hroom
      exact hroom
  | cons e es ih =>
      rw [List.map_cons, List.sum_cons] at hroom
      have hstep := foldl_releaseFrame (entryFrames e) s (by omega) hcover
      exact ih (visitEntry s e) (by unfold visitEntry; omega) hstep.2

/-- What `reserveFrame` does to a frame that is still free. -/
theorem reserveFrame_of_free {s : State} {f : Nat} (h : frameTest s f = false) :
    reserveFrame s f = (frameSet s f).setFree (sub32 s.freeFrames 1) := by
  unfold reserveFrame
  rw [if_pos (by simp [h])]

theorem reserveFrame_of_used {s : State} {f : Nat} (h : frameTest s f = true) :
    reserveFrame s f = s := by
  unfold reserveFrame
  rw [if_neg (by simp [h])]

theorem counterCovers_frameSet {s : State} (f : Nat) (h : CounterCovers s) :
    CounterCovers (frameSet s f) := by
  refine ⟨?_, h.2⟩
  rw [freeSet_frameSet]
  exact (Finset.card_erase_le).trans h.1

theorem counterCovers_reserveFrame {s : State} {f : Nat} (hf : f < maxFrames)
    (h : CounterCovers s) : CounterCovers (reserveFrame s f) := by
  cases htest : frameTest s f with
  | true =>
      rw [reserveFrame_of_used htest]
      exact h
  | false =>
      have hmem : f ∈ freeSet s := mem_freeSet.mpr ⟨hf, htest⟩
      have hpos : 0 < (freeSet s).card := Finset.card_pos.mpr ⟨f, hmem⟩
      have hcard : (freeSet (frameSet s f)).card = (freeSet s).card - 1 := by
        rw [freeSet_frameSet, Finset.card_erase_of_mem hmem]
      obtain ⟨hle, hlt⟩ := h
      have hsub : sub32 s.freeFrames 1 = s.freeFrames - 1 := sub32_of_le (by omega) hlt
      rw [reserveFrame_of_free htest]
      refine ⟨?_, by rw [setFree_freeFrames]; omega⟩
      rw [freeSet_setFree, setFree_freeFrames]
      omega

theorem counterCovers_foldl_reserveFrame (fs : List Nat) {s : State}
    (hfs : ∀ f ∈ fs, f < maxFrames) (h : CounterCovers s) :
    CounterCovers (fs.foldl reserveFrame s) := by
  induction fs generalizing s with
  | nil => exact h
  | cons f fs ih =>
      have hf := hfs f (by simp)
      have hfs' : ∀ g ∈ fs, g < maxFrames := fun g hg => hfs g (by simp [hg])
      exact ih hfs' (counterCovers_reserveFrame hf h)

theorem frameTest_reserveFrame_mono {s : State} {f g : Nat} (h : frameTest s g = true) :
    frameTest (reserveFrame s f) g = true := by
  cases htest : frameTest s f with
  | true =>
      rw [reserveFrame_of_used htest]
      exact h
  | false =>
      rw [reserveFrame_of_free htest, frameTest_setFree, frameTest_frameSet, h, Bool.true_or]

theorem frameTest_foldl_reserveFrame_mono (fs : List Nat) {s : State} {g : Nat}
    (h : frameTest s g = true) : frameTest (fs.foldl reserveFrame s) g = true := by
  induction fs generalizing s with
  | nil => exact h
  | cons f fs ih => exact ih (frameTest_reserveFrame_mono h)

/-- Whatever the memory map says, frame 0 is never free after `pmm_init`. -/
theorem pmmInit_frame_zero {m : Mem} {mbootPtr kernelEnd : Nat} {s : State}
    (h : pmmInit m mbootPtr kernelEnd = some s) : frameTest s 0 = true := by
  obtain ⟨es, -, rfl⟩ := pmmInit_eq_foldl h
  have hzero : frameTest (frameSet
      (es.foldl visitEntry ⟨fun _ => 0xFFFFFFFF#32, 0, 0⟩) 0) 0 = true := by simp
  have hkernel := frameTest_foldl_reserveFrame_mono
    (List.range (min (kernelEndFrame kernelEnd + 1) maxFrames)) hzero
  simp only
  split
  · exact frameTest_reserveFrame_mono hkernel
  · exact hkernel

theorem frameTest_reserveFrame_self (s : State) (f : Nat) :
    frameTest (reserveFrame s f) f = true := by
  cases htest : frameTest s f with
  | true =>
      rw [reserveFrame_of_used htest]
      exact htest
  | false =>
      rw [reserveFrame_of_free htest, frameTest_setFree, frameTest_frameSet, decide_eq_true rfl,
        Bool.or_true]

theorem frameTest_foldl_reserveFrame {fs : List Nat} {f : Nat} (hf : f ∈ fs) (s : State) :
    frameTest (fs.foldl reserveFrame s) f = true := by
  induction fs generalizing s with
  | nil => cases hf
  | cons g fs ih =>
      rcases List.mem_cons.mp hf with rfl | hf
      · exact frameTest_foldl_reserveFrame_mono fs (frameTest_reserveFrame_self s f)
      · exact ih hf _

/-- The frames of the kernel image are never free after `pmm_init`. -/
theorem pmmInit_kernel {m : Mem} {mbootPtr kernelEnd f : Nat} {s : State}
    (h : pmmInit m mbootPtr kernelEnd = some s) (hend : kernelEnd ≤ maxFrames * pageSize)
    (hf : f * pageSize < kernelEnd) : frameTest s f = true := by
  obtain ⟨es, -, rfl⟩ := pmmInit_eq_foldl h
  have hmem : f ∈ List.range (min (kernelEndFrame kernelEnd + 1) maxFrames) := by
    rw [List.mem_range]
    unfold kernelEndFrame
    unfold pageSize maxFrames at *
    rw [add32_of_lt (by omega)]
    omega
  have hkernel := frameTest_foldl_reserveFrame hmem (frameSet
      (es.foldl visitEntry ⟨fun _ => 0xFFFFFFFF#32, 0, 0⟩) 0)
  simp only
  split
  · exact frameTest_reserveFrame_mono hkernel
  · exact hkernel

/-- As long as the counter has not wrapped during the walk, it covers the
bitmap when `pmm_init` returns. -/
theorem pmmInit_counterCovers {m : Mem} {mbootPtr kernelEnd : Nat} {s : State}
    {es : List MmapEntry} (h : pmmInit m mbootPtr kernelEnd = some s)
    (hmap : memoryMap m mbootPtr = some es)
    (hsum : (es.map fun e => (entryFrames e).length).sum < 2 ^ 32) :
    CounterCovers s := by
  obtain ⟨es', hmap', rfl⟩ := pmmInit_eq_foldl h
  have hes : es' = es := by
    rw [hmap] at hmap'
    exact (Option.some.inj hmap').symm
  subst hes
  have hnone : freeSet ⟨fun _ => 0xFFFFFFFF#32, 0, 0⟩ = ∅ := by
    ext f
    rw [mem_freeSet]
    have hused : frameTest ⟨fun _ => 0xFFFFFFFF#32, 0, 0⟩ f = true :=
      frameTest_of_full rfl rfl
    simp [hused]
  have hwalk := foldl_visitEntry es' ⟨fun _ => 0xFFFFFFFF#32, 0, 0⟩
    (by simpa using hsum) (by rw [hnone]; simp)
  have hkernel := counterCovers_foldl_reserveFrame
    (List.range (min (kernelEndFrame kernelEnd + 1) maxFrames))
    (fun f hf => by rw [List.mem_range] at hf; omega) (counterCovers_frameSet 0 hwalk)
  simp only
  split
  · rename_i hmb
    exact counterCovers_reserveFrame hmb hkernel
  · exact hkernel

end StakOS.Pmm
