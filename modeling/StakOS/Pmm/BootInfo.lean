import StakOS.Pmm.Counter

/-!
# The Multiboot2 information block

The block is a header, then tags aligned to eight bytes up to a tag of type 0;
the memory-map tags hold entries of a size they announce.  On a well-formed
block the two walks of `pmm_init` end, stay inside the block and visit every
entry of every memory-map tag, which gives the frames that are free afterwards
as a set.
-/

namespace StakOS.Pmm

open StakOS.Lib.Memory
open Relation (ReflTransGen)

/-! ## The format -/

def tagType (m : Mem) (t : Nat) : Nat := read32 m t

def tagSize (m : Mem) (t : Nat) : Nat := read32 m (t + 4)

def entrySize (m : Mem) (t : Nat) : Nat := read32 m (t + 8)

/-- Entry `i` of the memory-map tag at `t`. -/
def entryAt (m : Mem) (t i : Nat) : MmapEntry := readEntry m (t + 16 + i * entrySize m t)

/-- The entries of the tag at `t`, none when it is not a memory map. -/
def tagEntries (m : Mem) (t : Nat) : List MmapEntry :=
  if tagType m t = 6 then
    (List.range ((tagSize m t - 16) / entrySize m t)).map (entryAt m t)
  else []

/-- The first multiple of eight from `a` on. -/
def align8 (a : Nat) : Nat := (a + 7) / 8 * 8

/-- A memory-map tag holds whole entries, which end below `2^44`. -/
structure WholeEntries (m : Mem) (t : Nat) : Prop where
  header : 16 ≤ tagSize m t
  entry : 24 ≤ entrySize m t
  whole : entrySize m t ∣ tagSize m t - 16
  below : ∀ e ∈ tagEntries m t, e.baseAddr + e.length < 2 ^ 44

/-- The tags from `t` on, closed before `limit` by a tag of type 0. -/
inductive Tags (m : Mem) (limit : Nat) : Nat → List Nat → Prop
  | stop {t : Nat} (htype : tagType m t = 0) (hin : t + 8 ≤ limit) : Tags m limit t []
  | tag {t : Nat} {ts : List Nat} (htype : tagType m t ≠ 0) (hsize : 8 ≤ tagSize m t)
      (hmmap : tagType m t = 6 → WholeEntries m t)
      (hrest : Tags m limit (align8 (t + tagSize m t)) ts) : Tags m limit t (t :: ts)

/-- A well-formed block at `mbootPtr` with the tags `ts`, of any kind and in any
order. -/
structure WellFormed (m : Mem) (mbootPtr : Nat) (ts : List Nat) : Prop where
  aligned : mbootPtr % 8 = 0
  noWrap : mbootPtr + read32 m mbootPtr ≤ 2 ^ 32
  tags : Tags m (mbootPtr + read32 m mbootPtr) (mbootPtr + 8) ts

/-- The entries of all memory-map tags. -/
def blockEntries (m : Mem) (ts : List Nat) : List MmapEntry := ts.flatMap (tagEntries m)

theorem Tags.start_le {m : Mem} {limit t : Nat} {ts : List Nat} (h : Tags m limit t ts) :
    t + 8 ≤ limit := by
  induction h with
  | stop htype hin => exact hin
  | tag htype hsize hmmap hrest ih =>
      unfold align8 at ih
      omega

/-- Every tag takes at least eight bytes. -/
theorem Tags.length_le {m : Mem} {limit t : Nat} {ts : List Nat} (h : Tags m limit t ts) :
    t + 8 * ts.length ≤ limit := by
  induction h with
  | stop htype hin =>
      simp only [List.length_nil]
      omega
  | tag htype hsize hmmap hrest ih =>
      unfold align8 at ih
      rw [List.length_cons]
      omega

theorem Tags.entries_below {m : Mem} {limit t : Nat} {ts : List Nat} (h : Tags m limit t ts) :
    ∀ e ∈ blockEntries m ts, e.baseAddr + e.length < 2 ^ 44 := by
  induction h with
  | stop htype hin =>
      intro e he
      cases he
  | @tag t ts htype hsize hmmap hrest ih =>
      intro e he
      unfold blockEntries at he
      rw [List.flatMap_cons] at he
      rcases List.mem_append.mp he with he | he
      · by_cases hsix : tagType m t = 6
        · exact (hmmap hsix).below e he
        · unfold tagEntries at he
          rw [if_neg hsix] at he
          cases he
      · exact ih e he

/-! ## The words the walks read

Each read is an address and a number of bytes, in the order of the loops.
-/

/-- The reads of the loop over the entries of the tag at `t`: the fields of an
entry, then `entry_size` to step on. -/
def entryReads (t entrySize mmapEnd : Nat) : Nat → Nat → List (Nat × Nat)
  | 0, _ => []
  | fuel + 1, entryPtr =>
      if entryPtr < mmapEnd then
        (entryPtr, 20) :: (t + 8, 4) :: entryReads t entrySize mmapEnd fuel (add32 entryPtr entrySize)
      else []

/-- The reads of the loop over the tags. -/
def tagReads (m : Mem) : Nat → Nat → List (Nat × Nat)
  | 0, _ => []
  | fuel + 1, t =>
      (t, 4) ::
        if read32 m t = 0 then []
        else
          let mmapEnd := add32 t (read32 m (t + 4))
          let next := add32 mmapEnd 7 / 8 * 8
          (t + 4, 4) :: (if read32 m t = 6 then
              entryReads t (read32 m (t + 8)) mmapEnd walkFuel (add32 t 16)
            else []) ++ tagReads m fuel next

/-- Two memories agree on a read. -/
def SameOn (m m' : Mem) (r : Nat × Nat) : Prop := ∀ a, r.1 ≤ a → a < r.1 + r.2 → m' a = m a

theorem SameOn.read32_eq {m m' : Mem} {a : Nat} (h : SameOn m m' (a, 4)) :
    read32 m' a = read32 m a :=
  read32_congr h

theorem SameOn.readEntry_eq {m m' : Mem} {p : Nat} (h : SameOn m m' (p, 20)) :
    readEntry m' p = readEntry m p := by
  have hword : ∀ i, i ≤ 16 → read32 m' (p + i) = read32 m (p + i) := by
    intro i hi
    apply read32_congr
    intro a hlo hhi
    exact h a (by omega) (by omega)
  have h0 := hword 0 (by omega)
  have h4 := hword 4 (by omega)
  have h8 := hword 8 (by omega)
  have h12 := hword 12 (by omega)
  have h16 := hword 16 (by omega)
  unfold readEntry read64
  rw [Nat.add_zero] at h0
  rw [h0, h4, h8, Nat.add_assoc p 8 4, h12, h16]

theorem walkEntries_congr {σ : Type} {m m' : Mem} (visit : σ → MmapEntry → σ)
    (t size mmapEnd fuel entryPtr : Nat) (acc : σ)
    (hsame : ∀ r ∈ entryReads t size mmapEnd fuel entryPtr, SameOn m m' r) :
    walkEntries m' size mmapEnd visit fuel entryPtr acc =
      walkEntries m size mmapEnd visit fuel entryPtr acc := by
  induction fuel generalizing entryPtr acc with
  | zero => rfl
  | succ fuel ih =>
      rw [walkEntries, walkEntries]
      rw [entryReads] at hsame
      by_cases hlt : entryPtr < mmapEnd
      · rw [if_pos hlt] at hsame ⊢
        rw [if_pos hlt, (hsame (entryPtr, 20) (by simp)).readEntry_eq]
        apply ih
        intro r hr
        exact hsame r (by simp [hr])
      · rw [if_neg hlt, if_neg hlt]

/-- The result of the walk depends on the words in the list only. -/
theorem walkTags_congr {σ : Type} {m m' : Mem} (visit : σ → MmapEntry → σ) (fuel t : Nat) (acc : σ)
    (hsame : ∀ r ∈ tagReads m fuel t, SameOn m m' r) :
    walkTags m' visit fuel t acc = walkTags m visit fuel t acc := by
  induction fuel generalizing t acc with
  | zero => rfl
  | succ fuel ih =>
      rw [walkTags, walkTags]
      rw [tagReads] at hsame
      rw [(hsame (t, 4) (by simp)).read32_eq]
      by_cases hstop : read32 m t = 0
      · rw [if_pos hstop, if_pos hstop]
      · simp only [if_neg hstop] at hsame ⊢
        have hsize : read32 m' (t + 4) = read32 m (t + 4) := (hsame (t + 4, 4) (by simp)).read32_eq
        rw [hsize]
        have hrest : ∀ r ∈ tagReads m fuel (add32 (add32 t (read32 m (t + 4))) 7 / 8 * 8),
            SameOn m m' r := by
          intro r hr
          exact hsame r (by simp [hr])
        by_cases hsix : read32 m t = 6
        · simp only [if_pos hsix] at hsame ⊢
          have hentries : walkEntries m' (read32 m' (t + 8)) (add32 t (read32 m (t + 4))) visit
              walkFuel (add32 t 16) acc =
              walkEntries m (read32 m (t + 8)) (add32 t (read32 m (t + 4))) visit
              walkFuel (add32 t 16) acc := by
            by_cases hsome : add32 t 16 < add32 t (read32 m (t + 4))
            · -- an entry was read, and with it the size of entries
              have hstep : (t + 8, 4) ∈ entryReads t (read32 m (t + 8))
                  (add32 t (read32 m (t + 4))) walkFuel (add32 t 16) := by
                rw [show walkFuel = (2 ^ 32 - 1) + 1 from rfl, entryReads, if_pos hsome]
                simp
              rw [(hsame (t + 8, 4) (by simp [hstep])).read32_eq]
              apply walkEntries_congr visit t
              intro r hr
              exact hsame r (by simp [hr])
            · rw [show walkFuel = (2 ^ 32 - 1) + 1 from rfl, walkEntries, walkEntries,
                if_neg hsome, if_neg hsome]
          rw [hentries]
          congr 1
          funext acc'
          exact ih _ acc' hrest
        · simp only [if_neg hsix]
          exact ih _ acc hrest

/-! ## The walks on a well-formed block -/

theorem walkEntries_wellFormed {σ : Type} {m : Mem} (visit : σ → MmapEntry → σ) {t n : Nat}
    (hsize : tagSize m t = 16 + n * entrySize m t) (hentry : 24 ≤ entrySize m t)
    (hlt : t + tagSize m t < 2 ^ 32) (k fuel : Nat) (hfuel : k < fuel) (hk : k ≤ n) (acc : σ) :
    walkEntries m (entrySize m t) (t + tagSize m t) visit fuel
        (t + 16 + (n - k) * entrySize m t) acc =
      some (((List.range' (n - k) k).map (entryAt m t)).foldl visit acc) := by
  -- induction on the number of entries that are left
  induction k generalizing fuel acc with
  | zero =>
      obtain ⟨fuel, rfl⟩ : ∃ n, fuel = n + 1 := ⟨fuel - 1, by omega⟩
      rw [walkEntries, Nat.sub_zero, hsize, if_neg (by omega)]
      rfl
  | succ k ih =>
      obtain ⟨fuel, rfl⟩ : ∃ n, fuel = n + 1 := ⟨fuel - 1, by omega⟩
      have hnext : (n - k) * entrySize m t = (n - (k + 1)) * entrySize m t + entrySize m t := by
        rw [← Nat.succ_mul]
        congr 1
        omega
      have hle : (n - k) * entrySize m t ≤ n * entrySize m t :=
        Nat.mul_le_mul_right _ (Nat.sub_le n k)
      have hstep : add32 (t + 16 + (n - (k + 1)) * entrySize m t) (entrySize m t) =
          t + 16 + (n - k) * entrySize m t := by
        rw [add32_of_lt (by omega)]
        omega
      rw [walkEntries, if_pos (by omega), hstep, ih fuel (by omega) (by omega)]
      rw [List.range'_succ, show n - (k + 1) + 1 = n - k by omega]
      rfl

theorem WholeEntries.count {m : Mem} {t : Nat} (h : WholeEntries m t) :
    tagSize m t = 16 + (tagSize m t - 16) / entrySize m t * entrySize m t := by
  rw [Nat.div_mul_cancel h.whole]
  have := h.header
  omega

/-- Behind a tag that another one follows nothing wraps around. -/
theorem Tags.behind {m : Mem} {limit t : Nat} {ts : List Nat}
    (hrest : Tags m limit (align8 (t + tagSize m t)) ts) (hlimit : limit ≤ 2 ^ 32) :
    add32 t (read32 m (t + 4)) = t + tagSize m t ∧
      add32 (t + tagSize m t) 7 / 8 * 8 = align8 (t + tagSize m t) ∧
      t + tagSize m t + 8 ≤ limit := by
  have hend := hrest.start_le
  unfold align8 at hend
  refine ⟨?_, ?_, by omega⟩
  · unfold tagSize at hend
    exact add32_of_lt (by omega)
  · rw [add32_of_lt (by omega)]
    rfl

theorem walkTags_wellFormed {σ : Type} {m : Mem} (visit : σ → MmapEntry → σ) {limit t : Nat}
    {ts : List Nat} (h : Tags m limit t ts) (hlimit : limit ≤ 2 ^ 32) (fuel : Nat)
    (hfuel : ts.length < fuel) (acc : σ) :
    walkTags m visit fuel t acc = some ((blockEntries m ts).foldl visit acc) := by
  induction h generalizing fuel acc with
  | stop htype hin =>
      obtain ⟨fuel, rfl⟩ : ∃ n, fuel = n + 1 := ⟨fuel - 1, by omega⟩
      have hzero : read32 m _ = 0 := htype
      rw [walkTags, if_pos hzero]
      rfl
  | @tag t ts htype hsize hmmap hrest ih =>
      obtain ⟨fuel, rfl⟩ : ∃ n, fuel = n + 1 := ⟨fuel - 1, by omega⟩
      rw [List.length_cons] at hfuel
      obtain ⟨hmmapEnd, hnext, hend⟩ := hrest.behind hlimit
      have hne : ¬ read32 m t = 0 := htype
      rw [walkTags, if_neg hne]
      simp only [hmmapEnd, hnext]
      by_cases hsix : read32 m t = 6
      · have hwhole := hmmap hsix
        rw [if_pos hsix]
        have hcount : (tagSize m t - 16) / entrySize m t < walkFuel := by
          have hword := read32_lt m (t + 4)
          have hdiv := Nat.div_le_self (tagSize m t - 16) (entrySize m t)
          unfold walkFuel
          unfold tagSize at hdiv ⊢
          omega
        have hwalk := walkEntries_wellFormed visit hwhole.count hwhole.entry (by omega)
          ((tagSize m t - 16) / entrySize m t) walkFuel hcount (le_refl _) acc
        rw [Nat.sub_self, Nat.zero_mul, Nat.add_zero] at hwalk
        have hfirst : add32 t 16 = t + 16 := by
          have hheader := hwhole.header
          exact add32_of_lt (by omega)
        have hentries : tagEntries m t =
            (List.range' 0 ((tagSize m t - 16) / entrySize m t)).map (entryAt m t) := by
          have hmap : tagType m t = 6 := hsix
          unfold tagEntries
          rw [if_pos hmap, List.range_eq_range']
        rw [hfirst]
        unfold entrySize at hwalk
        rw [hwalk, Option.bind_some, ih fuel (by omega)]
        unfold blockEntries
        rw [List.flatMap_cons, List.foldl_append, hentries]
        rfl
      · rw [if_neg hsix, ih fuel (by omega)]
        have hentries : tagEntries m t = [] := if_neg hsix
        unfold blockEntries
        rw [List.flatMap_cons, hentries, List.nil_append]

theorem entryReads_inside (t size mmapEnd n : Nat) (hsize : 24 ≤ size)
    (hend : mmapEnd = t + 16 + n * size) (hlt : mmapEnd < 2 ^ 32) (k fuel : Nat) (hk : k ≤ n) :
    ∀ r ∈ entryReads t size mmapEnd fuel (t + 16 + (n - k) * size),
      t ≤ r.1 ∧ r.1 + r.2 ≤ mmapEnd := by
  induction k generalizing fuel with
  | zero =>
      intro r hr
      cases fuel with
      | zero => cases hr
      | succ fuel =>
          rw [entryReads, Nat.sub_zero, if_neg (by omega)] at hr
          cases hr
  | succ k ih =>
      intro r hr
      cases fuel with
      | zero => cases hr
      | succ fuel =>
          have hnext : (n - k) * size = (n - (k + 1)) * size + size := by
            rw [← Nat.succ_mul]
            congr 1
            omega
          have hle : (n - k) * size ≤ n * size := Nat.mul_le_mul_right _ (Nat.sub_le n k)
          have hstep : add32 (t + 16 + (n - (k + 1)) * size) size = t + 16 + (n - k) * size := by
            rw [add32_of_lt (by omega)]
            omega
          rw [entryReads, if_pos (by omega), hstep] at hr
          rcases List.mem_cons.mp hr with rfl | hr
          · simp only
            omega
          · rcases List.mem_cons.mp hr with rfl | hr
            · simp only
              omega
            · exact ih fuel (by omega) r hr

theorem tagReads_inside {m : Mem} {limit t : Nat} {ts : List Nat} (h : Tags m limit t ts)
    (hlimit : limit ≤ 2 ^ 32) (fuel : Nat) :
    ∀ r ∈ tagReads m fuel t, t ≤ r.1 ∧ r.1 + r.2 ≤ limit := by
  induction h generalizing fuel with
  | stop htype hin =>
      intro r hr
      cases fuel with
      | zero => cases hr
      | succ fuel =>
          have hzero : read32 m _ = 0 := htype
          rw [tagReads, if_pos hzero, List.mem_singleton] at hr
          subst hr
          simp only
          omega
  | @tag t ts htype hsize hmmap hrest ih =>
      intro r hr
      cases fuel with
      | zero => cases hr
      | succ fuel =>
          obtain ⟨hmmapEnd, hnext, hend⟩ := hrest.behind hlimit
          have hne : ¬ read32 m t = 0 := htype
          rw [tagReads, if_neg hne] at hr
          simp only [hmmapEnd, hnext] at hr
          rcases List.mem_cons.mp hr with rfl | hr
          · simp only
            omega
          · rcases List.mem_append.mp hr with hr | hr
            · rcases List.mem_cons.mp hr with rfl | hr
              · simp only
                omega
              · by_cases hsix : read32 m t = 6
                · have hwhole := hmmap hsix
                  rw [if_pos hsix] at hr
                  have hfirst : add32 t 16 = t + 16 := by
                    have hheader := hwhole.header
                    exact add32_of_lt (by omega)
                  have hcount := hwhole.count
                  have hinside := entryReads_inside t (entrySize m t) (t + tagSize m t)
                    ((tagSize m t - 16) / entrySize m t) hwhole.entry (by omega) (by omega)
                    ((tagSize m t - 16) / entrySize m t) walkFuel (le_refl _) r
                  rw [Nat.sub_self, Nat.zero_mul, Nat.add_zero] at hinside
                  rw [hfirst] at hr
                  have hbounds := hinside hr
                  omega
                · rw [if_neg hsix] at hr
                  cases hr
            · have hbounds := ih fuel r hr
              unfold align8 at hbounds
              omega

namespace WellFormed

variable {m : Mem} {mbootPtr : Nat} {ts : List Nat}

theorem ptr_lt (h : WellFormed m mbootPtr ts) : mbootPtr + 16 ≤ 2 ^ 32 := by
  have hstart := h.tags.start_le
  have hwrap := h.noWrap
  omega

theorem first_tag (h : WellFormed m mbootPtr ts) : add32 mbootPtr 8 = mbootPtr + 8 := by
  have hlt := h.ptr_lt
  exact add32_of_lt (by omega)

/-- The walk ends and visits the entries of the block. -/
theorem memoryMap_eq (h : WellFormed m mbootPtr ts) :
    memoryMap m mbootPtr = some (blockEntries m ts) := by
  have hlength := h.tags.length_le
  have hwrap := h.noWrap
  have hwalk := walkTags_wellFormed (fun es e => es ++ [e]) h.tags h.noWrap walkFuel
    (by unfold walkFuel; omega) []
  have hcollect : ∀ (es seen : List MmapEntry), es.foldl (fun es e => es ++ [e]) seen = seen ++ es := by
    intro es
    induction es with
    | nil => simp
    | cons e es ih =>
        intro seen
        rw [List.foldl_cons, ih]
        simp
  unfold memoryMap
  rw [h.first_tag, hwalk, hcollect, List.nil_append]

theorem reads_inside (h : WellFormed m mbootPtr ts) :
    ∀ r ∈ tagReads m walkFuel (add32 mbootPtr 8),
      mbootPtr ≤ r.1 ∧ r.1 + r.2 ≤ mbootPtr + read32 m mbootPtr := by
  intro r hr
  rw [h.first_tag] at hr
  have hbounds := tagReads_inside h.tags h.noWrap walkFuel r hr
  omega

/-- What lies outside the block does not matter. -/
theorem pmmInit_congr (h : WellFormed m mbootPtr ts) {m' : Mem} (kernelEnd : Nat)
    (hsame : ∀ a, mbootPtr ≤ a → a < mbootPtr + read32 m mbootPtr → m' a = m a) :
    pmmInit m' mbootPtr kernelEnd = pmmInit m mbootPtr kernelEnd := by
  unfold pmmInit
  congr 1
  apply walkTags_congr
  intro r hr a hlo hhi
  have hinside := h.reads_inside r hr
  exact hsame a (by omega) (by omega)

end WellFormed

/-! ## The frames that are free -/

/-- Frame `f` is meant to be free: some available entry contains all of it, it
lies behind the kernel image and is not the one the boot information begins in. -/
def Usable (es : List MmapEntry) (mbootPtr kernelEnd f : Nat) : Prop :=
  (∃ e ∈ es, e.Contains f) ∧ (kernelEnd + (pageSize - 1)) / pageSize < f ∧
    f ≠ mbootPtr / pageSize

theorem mem_reservedList {mbootPtr kernelEnd f : Nat} (hf : f < maxFrames) :
    f ∈ reservedList mbootPtr kernelEnd ↔
      f ≤ kernelEndFrame kernelEnd ∨ f = mbootPtr / pageSize := by
  unfold reservedList
  rw [List.mem_append, List.mem_range]
  by_cases hinfo : mbootPtr / pageSize < maxFrames
  · rw [if_pos hinfo, List.mem_singleton]
    omega
  · rw [if_neg hinfo]
    simp only [List.not_mem_nil, or_false]
    omega

/-- What is free after `pmm_init`, in the terms of the block. -/
theorem WellFormed.free_iff {m : Mem} {mbootPtr kernelEnd f : Nat} {ts : List Nat} {s₀ : State}
    (h : WellFormed m mbootPtr ts) (hinit : pmmInit m mbootPtr kernelEnd = some s₀)
    (hf : f < maxFrames) :
    frameTest s₀ f = false ↔ (∃ e ∈ blockEntries m ts, e.Contains f ∨ e.WrapsAround) ∧
      kernelEndFrame kernelEnd < f ∧ f ≠ mbootPtr / pageSize := by
  have hfree := (pmmInit_spec hinit h.memoryMap_eq).1
  have hmem : frameTest s₀ f = false ↔ f ∈ freeSet s₀ := by
    rw [mem_freeSet]
    simp [hf]
  have havail : f ∈ availableFrames (blockEntries m ts) ↔
      ∃ e ∈ blockEntries m ts, e.Contains f ∨ e.WrapsAround := by
    unfold availableFrames
    rw [List.mem_toFinset, List.mem_flatMap]
    constructor
    · rintro ⟨e, he, hfe⟩
      exact ⟨e, he, ((mem_entryFrames_iff (h.tags.entries_below e he)).mp hfe).2⟩
    · rintro ⟨e, he, hfe⟩
      exact ⟨e, he, (mem_entryFrames_iff (h.tags.entries_below e he)).mpr ⟨hf, hfe⟩⟩
  rw [hmem, hfree]
  unfold initialFrames
  rw [Finset.mem_sdiff, Finset.mem_erase, List.mem_toFinset, mem_reservedList hf, havail]
  constructor
  · rintro ⟨⟨-, hsome⟩, hout⟩
    exact ⟨hsome, by omega, by omega⟩
  · rintro ⟨hsome, hkernel, hinfo⟩
    exact ⟨⟨by omega, hsome⟩, by omega⟩

/-- What is made of frame `f` depends on a number that does not fit into 32
bits: the start of an entry rounded up, when no entry contains the frame, or the
end of the kernel rounded up. -/
def Misjudged (es : List MmapEntry) (kernelEnd f : Nat) : Prop :=
  ((∃ e ∈ es, e.WrapsAround) ∧ ¬ ∃ e ∈ es, e.Contains f) ∨
    (2 ^ 32 ≤ kernelEnd + (pageSize - 1) ∧ ∃ e ∈ es, e.Contains f ∨ e.WrapsAround)

/-- The end of the kernel, rounded up in 32 bits. -/
theorem kernelEndFrame_cases {kernelEnd : Nat} (hk : kernelEnd < 2 ^ 32) :
    (kernelEnd + (pageSize - 1) < 2 ^ 32 ∧
      kernelEndFrame kernelEnd = (kernelEnd + (pageSize - 1)) / pageSize) ∨
    (2 ^ 32 ≤ kernelEnd + (pageSize - 1) ∧ kernelEndFrame kernelEnd = 0 ∧
      maxFrames ≤ (kernelEnd + (pageSize - 1)) / pageSize) := by
  unfold kernelEndFrame add32 pageSize maxFrames
  omega

/-- One frame is free exactly when it is meant to be, unless it is misjudged and
not reserved for another reason. -/
theorem WellFormed.usable_iff {m : Mem} {mbootPtr kernelEnd f : Nat} {ts : List Nat} {s₀ : State}
    (h : WellFormed m mbootPtr ts) (hinit : pmmInit m mbootPtr kernelEnd = some s₀)
    (hk : kernelEnd < 2 ^ 32) (hf : f < maxFrames) :
    (frameTest s₀ f = false ↔ Usable (blockEntries m ts) mbootPtr kernelEnd f) ↔
      (Misjudged (blockEntries m ts) kernelEnd f →
        f ≤ kernelEndFrame kernelEnd ∨ f = mbootPtr / pageSize) := by
  have hsplit : (∃ e ∈ blockEntries m ts, e.Contains f ∨ e.WrapsAround) ↔
      (∃ e ∈ blockEntries m ts, e.Contains f) ∨ ∃ e ∈ blockEntries m ts, e.WrapsAround := by
    constructor
    · rintro ⟨e, he, hc | hw⟩
      · exact Or.inl ⟨e, he, hc⟩
      · exact Or.inr ⟨e, he, hw⟩
    · rintro (⟨e, he, hc⟩ | ⟨e, he, hw⟩)
      · exact ⟨e, he, Or.inl hc⟩
      · exact ⟨e, he, Or.inr hw⟩
  rw [h.free_iff hinit hf]
  unfold Usable Misjudged
  rw [hsplit]
  generalize (∃ e ∈ blockEntries m ts, e.Contains f) = contained
  generalize (∃ e ∈ blockEntries m ts, e.WrapsAround) = wraps
  rcases kernelEndFrame_cases hk with ⟨hfits, hframe⟩ | ⟨hwraps, hframe, hbeyond⟩
  · have hno : ¬ 2 ^ 32 ≤ kernelEnd + (pageSize - 1) := by omega
    rw [← hframe]
    simp only [hno, false_and, or_false]
    constructor
    · rintro hiff ⟨hw, hc⟩
      by_contra hspared
      push Not at hspared
      exact hc (hiff.mp ⟨Or.inr hw, hspared⟩).1
    · intro hspared
      constructor
      · rintro ⟨hreleased, hbehind, hinfo⟩
        by_contra hc
        have hout : ¬ contained := fun hin => hc ⟨hin, hbehind, hinfo⟩
        have hreserved := hspared ⟨hreleased.resolve_left hout, hout⟩
        omega
      · rintro ⟨hin, hbehind⟩
        exact ⟨Or.inl hin, hbehind⟩
  · have hno : ¬ (kernelEnd + (pageSize - 1)) / pageSize < f := by omega
    simp only [hno, hwraps, false_and, and_false, true_and, iff_false]
    constructor
    · intro hnone hmis
      by_contra hspared
      push Not at hspared
      have hreleased : contained ∨ wraps := hmis.elim (fun hw => Or.inr hw.1) id
      exact hnone ⟨hreleased, hspared⟩
    · rintro hspared ⟨hreleased, hbehind, hinfo⟩
      have hreserved := hspared (Or.inr hreleased)
      omega

/-- `pmm_init` returns on every well-formed block, reads nothing outside it, so
that nothing else matters, and leaves exactly the usable frames free, unless a bound that does not fit into 32
bits decides about a frame that is not reserved anyway. -/
theorem usable_frames_iff {m : Mem} {mbootPtr : Nat} {ts : List Nat}
    (h : WellFormed m mbootPtr ts) (kernelEnd : Nat) (hk : kernelEnd < 2 ^ 32) :
    ∃ s₀, pmmInit m mbootPtr kernelEnd = some s₀ ∧
      (∀ r ∈ tagReads m walkFuel (add32 mbootPtr 8),
        mbootPtr ≤ r.1 ∧ r.1 + r.2 ≤ mbootPtr + read32 m mbootPtr) ∧
      (∀ m' : Mem, (∀ a, mbootPtr ≤ a → a < mbootPtr + read32 m mbootPtr → m' a = m a) →
        pmmInit m' mbootPtr kernelEnd = some s₀) ∧
      ((∀ f, f < maxFrames →
          (frameTest s₀ f = false ↔ Usable (blockEntries m ts) mbootPtr kernelEnd f)) ↔
        ∀ f, f < maxFrames → Misjudged (blockEntries m ts) kernelEnd f →
          f ≤ kernelEndFrame kernelEnd ∨ f = mbootPtr / pageSize) := by
  obtain ⟨s₀, hinit⟩ := pmmInit_of_memoryMap kernelEnd h.memoryMap_eq
  refine ⟨s₀, hinit, h.reads_inside, ?_, ?_⟩
  · intro m' hsame
    rw [h.pmmInit_congr kernelEnd hsame, hinit]
  constructor
  · intro hexact f hf
    exact (h.usable_iff hinit hk hf).mp (hexact f hf)
  · intro hspared f hf
    exact (h.usable_iff hinit hk hf).mpr (hspared f hf)

/-- A block at `p` with a single memory-map tag of a single available entry. -/
def oneEntryBlock (p base length : Nat) : Mem :=
  [(p, 56), (p + 8, 6), (p + 12, 40), (p + 16, 24), (p + 24, base % 2 ^ 32),
    (p + 28, base / 2 ^ 32), (p + 32, length % 2 ^ 32), (p + 36, length / 2 ^ 32), (p + 40, 1),
    (p + 52, 8)].foldl (fun m w => write32 m w.1 w.2) fun _ => 0

/-- Three frames at 4 MB. -/
theorem wellFormed_threeFrames :
    WellFormed (oneEntryBlock 0x9000 0x400000 0x3000) 0x9000 [0x9008] where
  aligned := by decide
  noWrap := by decide +kernel
  tags := .tag (by decide +kernel) (by decide +kernel)
    (fun _ => ⟨by decide +kernel, by decide +kernel, by decide +kernel, by decide +kernel⟩)
    (.stop (by decide +kernel) (by decide +kernel))

theorem usable_frames_iff_threeFrames :
    ∃ s₀, pmmInit (oneEntryBlock 0x9000 0x400000 0x3000) 0x9000 0x130000 = some s₀ ∧
      ∀ f, f < maxFrames → (frameTest s₀ f = false ↔
        Usable (blockEntries (oneEntryBlock 0x9000 0x400000 0x3000) [0x9008]) 0x9000 0x130000 f) := by
  have hentries : blockEntries (oneEntryBlock 0x9000 0x400000 0x3000) [0x9008] =
      [⟨0x400000, 0x3000, 1⟩] := by decide +kernel
  obtain ⟨s₀, hinit, -, -, hiff⟩ := usable_frames_iff wellFormed_threeFrames 0x130000 (by norm_num)
  refine ⟨s₀, hinit, hiff.mpr ?_⟩
  rw [hentries]
  rintro f - (⟨⟨e, he, hwraps⟩, -⟩ | ⟨hkernel, -⟩)
  · rw [List.mem_singleton.mp he] at hwraps
    exact absurd hwraps (by decide)
  · exact absurd hkernel (by decide)

/-- Fifty bytes in the last page below `2^44`. -/
theorem wellFormed_lastPage :
    WellFormed (oneEntryBlock 0x9000 (2 ^ 44 - 100) 50) 0x9000 [0x9008] where
  aligned := by decide
  noWrap := by decide +kernel
  tags := .tag (by decide +kernel) (by decide +kernel)
    (fun _ => ⟨by decide +kernel, by decide +kernel, by decide +kernel, by decide +kernel⟩)
    (.stop (by decide +kernel) (by decide +kernel))

/-- They contain no frame, but release all of them. -/
theorem last_page_releases_all :
    WellFormed (oneEntryBlock 0x9000 (2 ^ 44 - 100) 50) 0x9000 [0x9008] ∧
      ∃ s₀, pmmInit (oneEntryBlock 0x9000 (2 ^ 44 - 100) 50) 0x9000 0x130000 = some s₀ ∧
        frameTest s₀ 4096 = false ∧
        ¬ Usable (blockEntries (oneEntryBlock 0x9000 (2 ^ 44 - 100) 50) [0x9008])
          0x9000 0x130000 4096 := by
  have hentries : blockEntries (oneEntryBlock 0x9000 (2 ^ 44 - 100) 50) [0x9008] =
      [⟨2 ^ 44 - 100, 50, 1⟩] := by decide +kernel
  have h := wellFormed_lastPage
  obtain ⟨s₀, hinit⟩ := pmmInit_of_memoryMap 0x130000 h.memoryMap_eq
  refine ⟨h, s₀, hinit, ?_, ?_⟩
  · rw [h.free_iff hinit (by decide), hentries]
    exact ⟨⟨_, List.mem_singleton.mpr rfl, Or.inr (by decide)⟩, by decide, by decide⟩
  · rw [hentries]
    rintro ⟨⟨e, he, hc⟩, -⟩
    rw [List.mem_singleton.mp he] at hc
    exact absurd hc (by decide)

/-! ## The frames of the block itself -/

/-- Some byte of the block lies in frame `f`. -/
def BlockFrame (m : Mem) (mbootPtr f : Nat) : Prop :=
  f * pageSize < mbootPtr + read32 m mbootPtr ∧ mbootPtr < f * pageSize + pageSize

/-- No frame of the block is free, and none is ever handed out. -/
structure Protected (m : Mem) (mbootPtr : Nat) (s₀ : State) : Prop where
  used : ∀ f, f < maxFrames → BlockFrame m mbootPtr f → frameTest s₀ f = true
  kept : ∀ h, ReflTransGen Call ⟨s₀, []⟩ h → (pmmAllocFrame h.pmm).2 ≠ 0 →
    ¬ BlockFrame m mbootPtr ((pmmAllocFrame h.pmm).2 / pageSize)

/-- What is used at the start is not handed out later. -/
theorem Protected.of_used {m : Mem} {mbootPtr kernelEnd : Nat} {s₀ : State} {es : List MmapEntry}
    (hinit : pmmInit m mbootPtr kernelEnd = some s₀) (hmap : memoryMap m mbootPtr = some es)
    (hused : ∀ f, f < maxFrames → BlockFrame m mbootPtr f → frameTest s₀ f = true) :
    Protected m mbootPtr s₀ := by
  refine ⟨hused, ?_⟩
  intro h hrun hne hblock
  have hword : s₀.freeFrames < 2 ^ 32 := by
    rw [(pmmInit_spec hinit hmap).2]
    exact Nat.mod_lt _ (by norm_num)
  have hh := handedOut_of_calls (pmmInit_frame_zero hinit) hword hrun
  rcases pmmAllocFrame_cases h.pmm with ⟨f, -, hlt, hfree, -, heq⟩ | ⟨-, heq⟩
  · have hdiv : f * pageSize / pageSize = f := Nat.mul_div_cancel f (by decide)
    rw [heq, hdiv] at hblock
    have htest := hused f hlt hblock
    rw [(hh.free_iff.mp hfree).1] at htest
    cases htest
  · rw [heq] at hne
    exact hne rfl

/-- The boot information is protected exactly when each of its frames other than
the first belongs to the kernel image or is released by no entry. -/
theorem boot_info_protected_iff {m : Mem} {mbootPtr : Nat} {ts : List Nat}
    (h : WellFormed m mbootPtr ts) (kernelEnd : Nat) :
    ∃ s₀, pmmInit m mbootPtr kernelEnd = some s₀ ∧
      (Protected m mbootPtr s₀ ↔
        ∀ f, f < maxFrames → BlockFrame m mbootPtr f → f ≠ mbootPtr / pageSize →
          f ≤ kernelEndFrame kernelEnd ∨
            ∀ e ∈ blockEntries m ts, ¬ e.Contains f ∧ ¬ e.WrapsAround) := by
  obtain ⟨s₀, hinit⟩ := pmmInit_of_memoryMap kernelEnd h.memoryMap_eq
  refine ⟨s₀, hinit, ?_⟩
  constructor
  · intro hprot f hf hblock hne
    by_contra hno
    push Not at hno
    obtain ⟨hkernel, e, he, hreleases⟩ := hno
    have hfree : frameTest s₀ f = false := by
      apply (h.free_iff hinit hf).mpr
      exact ⟨⟨e, he, or_iff_not_imp_left.mpr hreleases⟩, hkernel, hne⟩
    rw [hprot.used f hf hblock] at hfree
    cases hfree
  · intro hspared
    apply Protected.of_used hinit h.memoryMap_eq
    intro f hf hblock
    by_contra hclear
    obtain ⟨⟨e, he, hreleases⟩, hkernel, hne⟩ := (h.free_iff hinit hf).mp (by simpa using hclear)
    rcases hspared f hf hblock hne with hle | hnone
    · omega
    · exact hreleases.elim (hnone e he).1 (hnone e he).2

theorem boot_info_protected_iff_threeFrames :
    ∃ s₀, pmmInit (oneEntryBlock 0x9000 0x400000 0x3000) 0x9000 0x130000 = some s₀ ∧
      Protected (oneEntryBlock 0x9000 0x400000 0x3000) 0x9000 s₀ := by
  obtain ⟨s₀, hinit, hiff⟩ := boot_info_protected_iff wellFormed_threeFrames 0x130000
  refine ⟨s₀, hinit, hiff.mpr ?_⟩
  intro f hf hblock hne
  have hsize : read32 (oneEntryBlock 0x9000 0x400000 0x3000) 0x9000 = 56 := by decide +kernel
  unfold BlockFrame at hblock
  rw [hsize] at hblock
  unfold pageSize at hblock hne
  omega

/-- A block that runs over the end of a frame, in a machine of 64 MB. -/
theorem wellFormed_straddling :
    WellFormed (oneEntryBlock 0x400FE0 0x100000 0x3F00000) 0x400FE0 [0x400FE8] where
  aligned := by decide
  noWrap := by decide +kernel
  tags := .tag (by decide +kernel) (by decide +kernel)
    (fun _ => ⟨by decide +kernel, by decide +kernel, by decide +kernel, by decide +kernel⟩)
    (.stop (by decide +kernel) (by decide +kernel))

/-- The frame its end lies in is free. -/
theorem second_frame_of_block_free :
    WellFormed (oneEntryBlock 0x400FE0 0x100000 0x3F00000) 0x400FE0 [0x400FE8] ∧
      BlockFrame (oneEntryBlock 0x400FE0 0x100000 0x3F00000) 0x400FE0 0x401 ∧
      ∃ s₀, pmmInit (oneEntryBlock 0x400FE0 0x100000 0x3F00000) 0x400FE0 0x130000 = some s₀ ∧
        frameTest s₀ 0x401 = false := by
  have hentries : blockEntries (oneEntryBlock 0x400FE0 0x100000 0x3F00000) [0x400FE8] =
      [⟨0x100000, 0x3F00000, 1⟩] := by decide +kernel
  have hsize : read32 (oneEntryBlock 0x400FE0 0x100000 0x3F00000) 0x400FE0 = 56 := by
    decide +kernel
  have h := wellFormed_straddling
  obtain ⟨s₀, hinit⟩ := pmmInit_of_memoryMap 0x130000 h.memoryMap_eq
  refine ⟨h, ?_, s₀, hinit, ?_⟩
  · unfold BlockFrame
    rw [hsize]
    decide
  · rw [h.free_iff hinit (by decide), hentries]
    exact ⟨⟨_, List.mem_singleton.mpr rfl, Or.inl (by decide)⟩, by decide, by decide⟩

end StakOS.Pmm
