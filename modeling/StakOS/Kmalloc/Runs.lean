import Mathlib.Logic.Relation
import StakOS.Kmalloc.Refine

/-!
# The heap over whole histories

From `kmalloc_init` on, whatever frames it got, every history of allocations,
frees and stores into allocated payloads keeps the arena well formed.
-/

namespace StakOS.Kmalloc

open StakOS.Lib.Memory StakOS.Lib.Loop StakOS.Lib.Linked
open Relation (ReflTransGen)

/-! ## `kmalloc_init` -/

/-- The frames a run of allocations took: free before, used after.  Frame 0 is
not among them, its address being the failure value. -/
def obtained (before after : Pmm.State) : Set Nat :=
  { f | f ≠ 0 ∧ Pmm.frameTest before f = false ∧ Pmm.frameTest after f = true }

/-- The bytes of a set of frames. -/
def frameBytes (frames : Set Nat) : Set Nat := { a | a / Pmm.pageSize ∈ frames }

/-- The block a frame becomes. -/
def frameBlock (f : Nat) : Block := ⟨f * Pmm.pageSize, Pmm.pageSize - blockHeaderSize, true⟩

theorem frameBlock_fin (f : Nat) : (frameBlock f).fin = (f + 1) * Pmm.pageSize := by
  show f * 4096 + 16 + 4080 = (f + 1) * 4096
  omega

theorem layout_frameBlock {f : Nat} (hf : f ≠ 0) (hlt : f < Pmm.maxFrames) :
    Layout [frameBlock f] := by
  refine Layout.cons_iff.mpr ⟨⟨?_, ?_, ?_, ?_, by simp⟩, Layout.nil⟩
  · show f * 4096 % 4 = 0
    omega
  · show 4080 % 4 = 0
    norm_num
  · show f * 4096 ≠ 0
    omega
  · rw [frameBlock_fin]
    unfold Pmm.maxFrames at hlt
    unfold Pmm.pageSize
    omega

theorem mem_covered_frameBlock {f a : Nat} :
    a ∈ covered [frameBlock f] ↔ a / Pmm.pageSize = f := by
  rw [mem_covered_singleton, frameBlock_fin]
  show f * 4096 ≤ a ∧ a < (f + 1) * 4096 ↔ a / 4096 = f
  omega

/-- Linking one more block behind the last one. -/
theorem HeapList.snoc {m m' : Mem} {start : Nat} {pre : List Block} {b c : Block}
    (h : HeapList m start (pre ++ [b])) (hlayout : Layout (pre ++ [b] ++ [c]))
    (hpre : ∀ d ∈ pre, ∀ a, d.inHeader a → m' a = m a)
    (hlast : ∀ a, b.addr ≤ a → a < b.addr + 12 → m' a = m a)
    (hlink : next m' b.addr = c.addr) (hc : Header m' c) (hend : next m' c.addr = 0) :
    HeapList m' start (pre ++ [b] ++ [c]) := by
  have hb := h.header b (by simp)
  have hread : ∀ i, i ≤ 8 → read32 m' (b.addr + i) = read32 m (b.addr + i) := by
    intro i hi
    apply read32_congr
    intro x hx hx'
    exact hlast x (by omega) (by omega)
  have hb' : Header m' b :=
    ⟨(hread 0 (by omega)).trans hb.magic, (hread 4 (by omega)).trans hb.size,
      (hread 8 (by omega)).trans hb.free⟩
  refine ⟨hlayout, ?_, ?_⟩
  · intro d hd
    rcases List.mem_append.mp hd with hd | hd
    · rcases List.mem_append.mp hd with hd | hd
      · exact (h.header d (by simp [hd])).congr (hpre d hd)
      · rw [List.mem_singleton.mp hd]
        exact hb'
    · rw [List.mem_singleton.mp hd]
      exact hc
  · have hchain := h.chain
    rw [List.map_append, chain_append] at hchain
    obtain ⟨r, hto, hr⟩ := hchain
    rw [List.append_assoc, List.map_append, chain_append]
    exact ⟨r, chain_congr hto hpre, hr.1, hlink, hend⟩

/-- The memory `addFrame` writes the new header into. -/
def frameHeader (m : Mem) (phys : Nat) : Mem :=
  setNext (setFree (setSize (setMagic m phys blockMagic) phys
    (Pmm.pageSize - blockHeaderSize)) phys 1) phys 0

theorem frameHeader_frame (m : Mem) {phys a : Nat} (ha : a < phys ∨ phys + 16 ≤ a) :
    frameHeader m phys a = m a := by
  unfold frameHeader setNext setFree setSize setMagic
  simp (disch := omega) only [write32_of_disjoint]

theorem frameHeader_header (m : Mem) (f : Nat) :
    Header (frameHeader m (f * Pmm.pageSize)) (frameBlock f) := by
  have hbm : blockMagic < 2 ^ 32 := by norm_num [blockMagic]
  have hsz : Pmm.pageSize - blockHeaderSize < 2 ^ 32 := by
    norm_num [Pmm.pageSize, blockHeaderSize]
  unfold frameHeader frameBlock
  refine ⟨?_, ?_, ?_⟩
  · simp (disch := omega) only [magic, setNext, setFree, setSize, setMagic, read32_write32_same,
      read32_write32_of_disjoint]
  · simp (disch := omega) only [size, setNext, setFree, setSize, read32_write32_same,
      read32_write32_of_disjoint]
  · simp (disch := omega) only [free, setNext, setFree, read32_write32_same,
      read32_write32_of_disjoint]
    rfl

theorem next_frameHeader (m : Mem) (phys : Nat) : next (frameHeader m phys) phys = 0 :=
  read32_write32_same _ _ (by norm_num)

/-- What the loop of `kmalloc_init` keeps: one block for each frame taken so
far, `prev` being the last, and no free frame below the last one. -/
structure Filling (before : Pmm.State) (bs : List Block) (prev : Nat) (pmm : Pmm.State)
    (h : Heap) : Prop where
  list : HeapList h.mem h.heapStart bs
  last : (bs = [] ∧ prev = 0) ∨ ∃ pre b, bs = pre ++ [b] ∧ prev = b.addr
  low : ∀ b ∈ bs, ∀ f, f * Pmm.pageSize < b.fin → Pmm.frameTest pmm f = true
  kept : ∀ f, Pmm.frameTest before f = true → Pmm.frameTest pmm f = true
  bytes : covered bs = frameBytes (obtained before pmm)
  unused : used bs = []

theorem Filling.heapList_addFrame {before pmm : Pmm.State} {bs : List Block} {prev f : Nat}
    {h : Heap} (hfill : Filling before bs prev pmm h)
    (hlayout : Layout (bs ++ [frameBlock f])) :
    HeapList (addFrame h prev (f * Pmm.pageSize)).mem
      (addFrame h prev (f * Pmm.pageSize)).heapStart (bs ++ [frameBlock f]) := by
  have hstart := hfill.list.start_eq
  rcases hfill.last with ⟨rfl, rfl⟩ | ⟨pre, b, rfl, rfl⟩
  · have hnull : h.heapStart = 0 := hstart
    have hmem : (addFrame h 0 (f * Pmm.pageSize)).mem = frameHeader h.mem (f * Pmm.pageSize) := rfl
    have hfirst : (addFrame h 0 (f * Pmm.pageSize)).heapStart = f * Pmm.pageSize := if_pos hnull
    rw [hmem, hfirst]
    refine ⟨hlayout, ?_, rfl, next_frameHeader _ _⟩
    intro c hc
    rw [List.mem_singleton.mp hc]
    exact frameHeader_header h.mem f
  · obtain ⟨-, -, hbefore⟩ := Layout.append_iff.mp hlayout
    have hbnull := hfill.list.layout.nonNull b (by simp)
    have hsnull : h.heapStart ≠ 0 := by
      rw [hstart]
      cases pre with
      | nil => exact hbnull
      | cons d pre => exact hfill.list.layout.nonNull d (by simp)
    have hmem : (addFrame h b.addr (f * Pmm.pageSize)).mem =
        setNext (frameHeader h.mem (f * Pmm.pageSize)) b.addr (f * Pmm.pageSize) := if_pos hbnull
    have hfirst : (addFrame h b.addr (f * Pmm.pageSize)).heapStart = h.heapStart := if_neg hsnull
    rw [hmem, hfirst]
    have hbehind : ∀ d ∈ pre ++ [b], d.fin ≤ f * Pmm.pageSize := fun d hd =>
      hbefore d hd (frameBlock f) (by simp)
    have hbb := hbehind b (by simp)
    have hphys : f * Pmm.pageSize < 2 ^ 32 := by
      have hbound := hlayout.bounded (frameBlock f) (by simp)
      rw [frameBlock_fin] at hbound
      unfold Pmm.pageSize at hbound ⊢
      omega
    unfold Block.fin at hbb
    apply hfill.list.snoc hlayout
    · intro d hd a ha
      have hdb := hbehind d (by simp [hd])
      have hdlast : d.fin ≤ b.addr := by
        have hsort := hfill.list.layout.sorted
        exact (List.pairwise_append.mp hsort).2.2 d hd b (by simp)
      unfold Block.inHeader at ha
      unfold Block.fin at hdb hdlast
      unfold setNext
      rw [write32_of_disjoint _ _ (by omega), frameHeader_frame _ (by omega)]
    · intro a ha ha'
      unfold setNext
      rw [write32_of_disjoint _ _ (by omega), frameHeader_frame _ (by omega)]
    · exact read32_write32_same _ _ hphys
    · apply (frameHeader_header h.mem f).congr
      intro a ha
      have haddr : f * Pmm.pageSize ≤ a := ha.1
      exact write32_of_disjoint _ _ (by omega)
    · show read32 (write32 _ (b.addr + 12) _) (f * Pmm.pageSize + 12) = 0
      rw [read32_write32_of_disjoint _ _ (by omega)]
      exact next_frameHeader _ _

theorem Filling.layout_snoc {before pmm : Pmm.State} {bs : List Block} {prev f : Nat} {h : Heap}
    (hfill : Filling before bs prev pmm h) (hf : f ≠ 0) (hlt : f < Pmm.maxFrames)
    (hfree : Pmm.frameTest pmm f = false) : Layout (bs ++ [frameBlock f]) := by
  refine Layout.append_iff.mpr ⟨hfill.list.layout, layout_frameBlock hf hlt, ?_⟩
  intro b hb c hc
  rw [List.mem_singleton.mp hc]
  by_contra hover
  -- a frame that begins below the end of a block has been taken already
  have hset := hfill.low b hb f (Nat.lt_of_not_le hover)
  rw [hfree] at hset
  cases hset

theorem obtained_frameSet {before pmm : Pmm.State} {f : Nat} (hf : f ≠ 0)
    (hbefore : Pmm.frameTest before f = false) (n : Nat) :
    obtained before ((Pmm.frameSet pmm f).setFree n) = obtained before pmm ∪ {f} := by
  ext g
  simp only [obtained, Set.mem_ofPred_eq, Pmm.frameTest_setFree, Pmm.frameTest_frameSet,
    Bool.or_eq_true, decide_eq_true_eq, Set.mem_union, Set.mem_singleton_iff]
  constructor
  · rintro ⟨hg, hgb, hset | rfl⟩
    · exact Or.inl ⟨hg, hgb, hset⟩
    · exact Or.inr rfl
  · rintro (⟨hg, hgb, hset⟩ | rfl)
    · exact ⟨hg, hgb, Or.inl hset⟩
    · exact ⟨hf, hbefore, Or.inr rfl⟩

theorem Filling.step {before pmm : Pmm.State} {bs : List Block} {prev f n : Nat} {h : Heap}
    (hfill : Filling before bs prev pmm h) (hf : f ≠ 0) (hlt : f < Pmm.maxFrames)
    (hfree : Pmm.frameTest pmm f = false) (hlow : ∀ g, g < f → Pmm.frameTest pmm g = true) :
    Filling before (bs ++ [frameBlock f]) (f * Pmm.pageSize) ((Pmm.frameSet pmm f).setFree n)
      (addFrame h prev (f * Pmm.pageSize)) := by
  have hlayout := hfill.layout_snoc hf hlt hfree
  have hbefore : Pmm.frameTest before f = false := by
    cases hb : Pmm.frameTest before f with
    | false => rfl
    | true =>
        rw [hfill.kept f hb] at hfree
        cases hfree
  refine ⟨hfill.heapList_addFrame hlayout, Or.inr ⟨bs, frameBlock f, rfl, rfl⟩, ?_, ?_, ?_, ?_⟩
  · intro b hb g hg
    have hgf : g ≤ f := by
      have hend : b.fin ≤ (f + 1) * Pmm.pageSize := by
        rcases List.mem_append.mp hb with hb | hb
        · have hbf := (Layout.append_iff.mp hlayout).2.2 b hb (frameBlock f) (by simp)
          exact hbf.trans (Nat.mul_le_mul_right _ (Nat.le_succ f))
        · rw [List.mem_singleton.mp hb, frameBlock_fin]
      have hlt' := hg.trans_le hend
      exact Nat.le_of_lt_succ (Nat.lt_of_mul_lt_mul_right hlt')
    rcases Nat.lt_or_eq_of_le hgf with hgf | rfl
    · simp [hlow g hgf]
    · simp
  · intro g hg
    simp [hfill.kept g hg]
  · rw [covered_append, hfill.bytes, obtained_frameSet hf hbefore]
    ext a
    rw [Set.mem_union, mem_covered_frameBlock]
    rfl
  · rw [used_append, hfill.unused]
    rfl

/-- `kmalloc_init` leaves an arena of free blocks, one for each frame it obtained. -/
theorem initLoop_frameBlocks {before : Pmm.State} (n : Nat) {bs : List Block} {prev : Nat}
    {pmm : Pmm.State} {h : Heap} (hfill : Filling before bs prev pmm h)
    (hframes : ∀ b ∈ bs, ∃ f, b = frameBlock f) :
    ∃ bs' prev', Filling before bs' prev' (initLoop n prev pmm h).1 (initLoop n prev pmm h).2 ∧
      ∀ b ∈ bs', ∃ f, b = frameBlock f := by
  induction n generalizing bs prev pmm h with
  | zero => exact ⟨bs, prev, hfill, hframes⟩
  | succ n ih =>
      rw [initLoop]
      rcases Pmm.pmmAllocFrame_cases pmm with ⟨f, -, hlt, hfree, hlow, halloc⟩ | ⟨-, halloc⟩
      · by_cases hf : f = 0
        · -- frame 0 is taken, but its address reads as failure
          subst hf
          simp only [halloc, Nat.zero_mul, if_true]
          refine ⟨bs, prev, ⟨hfill.list, hfill.last, ?_, ?_, ?_, hfill.unused⟩, hframes⟩
          · intro b hb g hg
            simp [hfill.low b hb g hg]
          · intro g hg
            simp [hfill.kept g hg]
          · rw [hfill.bytes]
            ext a
            simp only [frameBytes, obtained, Set.mem_ofPred_eq, Pmm.frameTest_setFree,
              Pmm.frameTest_frameSet, Bool.or_eq_true, decide_eq_true_eq]
            tauto
        · have hphys : f * Pmm.pageSize ≠ 0 := by
            unfold Pmm.pageSize
            omega
          simp only [halloc, if_neg hphys]
          apply ih (hfill.step hf hlt hfree hlow)
          intro b hb
          rcases List.mem_append.mp hb with hb | hb
          · exact hframes b hb
          · exact ⟨f, List.mem_singleton.mp hb⟩
      · simp only [halloc, if_true]
        exact ⟨bs, prev, hfill, hframes⟩

theorem kmallocInit_frameBlocks (pages : Nat) (pmm : Pmm.State) {h : Heap}
    (hnull : h.heapStart = 0) :
    ∃ bs prev, Filling pmm bs prev (kmallocInit pages pmm h).1 (kmallocInit pages pmm h).2 ∧
      ∀ b ∈ bs, ∃ f, b = frameBlock f := by
  have hnone : obtained pmm pmm = ∅ := by
    ext f
    simp only [obtained, Set.mem_ofPred_eq, Set.mem_empty_iff_false, iff_false]
    rintro ⟨-, hclear, hset⟩
    rw [hclear] at hset
    cases hset
  have hempty : ∀ total, Filling pmm [] 0 pmm { h with heapTotalBytes := total } := by
    intro total
    refine ⟨⟨Layout.nil, by simp, hnull⟩, Or.inl ⟨rfl, rfl⟩, by simp, fun _ hf => hf, ?_, rfl⟩
    rw [hnone]
    ext a
    simp [covered, frameBytes]
  unfold kmallocInit
  by_cases hzero : pages = 0
  · rw [if_pos hzero]
    exact ⟨[], 0, hempty h.heapTotalBytes, by simp⟩
  · rw [if_neg hzero]
    exact initLoop_frameBlocks pages (hempty 0) (by simp)

theorem kmallocInit_fills (pages : Nat) (pmm : Pmm.State) {h : Heap} (hnull : h.heapStart = 0) :
    ∃ bs prev, Filling pmm bs prev (kmallocInit pages pmm h).1 (kmallocInit pages pmm h).2 := by
  obtain ⟨bs, prev, hfill, -⟩ := kmallocInit_frameBlocks pages pmm hnull
  exact ⟨bs, prev, hfill⟩

/-! ## Histories -/

/-- The heap together with the pointers its clients hold. -/
structure Client where
  heap : Heap
  live : List Nat

/-- One event: a call that returned, or a byte stored inside a payload. -/
inductive Step : Client → Client → Prop
  | kmalloc {s : Client} {h' : Heap} {p : Nat} (sz : Nat) (hsz : sz < 2 ^ 32)
      (hcall : kmalloc s.heap sz = .ok (h', p)) :
      Step s ⟨h', if p = 0 then s.live else p :: s.live⟩
  | kfree {s : Client} {h' : Heap} {p : Nat} (hp : p ∈ s.live)
      (hcall : kfree s.heap p = .ok h') : Step s ⟨h', s.live.erase p⟩
  | store {s : Client} {p a : Nat} (v : UInt8) (hp : p ∈ s.live) (hlow : p ≤ a)
      (hhigh : a < p + size s.heap.mem (p - 16)) :
      Step s ⟨{ s.heap with mem := write8 s.heap.mem a v }, s.live⟩

/-- The heap holds the blocks `bs` on `bytes`, the used ones being the clients'. -/
structure Holds (bytes : Set Nat) (s : Client) (bs : List Block) : Prop where
  list : HeapList s.heap.mem s.heap.heapStart bs
  bytes : covered bs = bytes
  live : ∀ p, p ∈ s.live ↔ p ∈ used bs
  nodup : s.live.Nodup

/-- Stores inside a payload leave every header alone. -/
theorem HeapList.store {m : Mem} {start a : Nat} {bs : List Block} {b : Block}
    (h : HeapList m start bs) (hb : b ∈ bs) (hlow : b.payload ≤ a) (hhigh : a < b.fin)
    (v : UInt8) : HeapList (write8 m a v) start bs := by
  apply h.congr
  intro c hc x hx
  exact write8_of_ne m v fun hxa => h.layout.payload_apart hb hc hlow hhigh (hxa ▸ hx)

theorem Holds.kmalloc {bytes : Set Nat} {s : Client} {bs : List Block} {h' : Heap} {sz p : Nat}
    (hs : Holds bytes s bs) (hcall : kmalloc s.heap sz = .ok (h', p)) :
    Holds bytes ⟨h', if p = 0 then s.live else p :: s.live⟩ (allocate sz bs).1 := by
  obtain ⟨h₁, hret, -, hlist, -⟩ := kmalloc_refines hs.list sz
  rw [hret] at hcall
  cases hcall
  rcases allocate_cases sz bs with ⟨hnone, -⟩ | ⟨pre, b, post, rfl, hfree, -, hsome⟩
  · rw [hnone] at hlist ⊢
    exact ⟨hlist, hs.bytes, hs.live, hs.nodup⟩
  · rw [hsome] at hlist ⊢
    have hne : b.payload ≠ 0 := by
      unfold Block.payload
      omega
    have hfresh := payload_notMem_used hs.list.layout (b := b) (by simp) hfree
    simp only [if_neg hne]
    refine ⟨hlist, ?_, ?_, ?_⟩
    · rw [covered_allocate, hs.bytes]
    · intro q
      rw [mem_used_allocate hfree, List.mem_cons, hs.live q]
    · refine List.nodup_cons.mpr ⟨?_, hs.nodup⟩
      rw [hs.live]
      exact hfresh

theorem Holds.kfree {bytes : Set Nat} {s : Client} {bs : List Block} {h' : Heap} {p : Nat}
    (hs : Holds bytes s bs) (hp : p ∈ s.live) (hcall : kfree s.heap p = .ok h') :
    Holds bytes ⟨h', s.live.erase p⟩ (deallocate p bs) := by
  obtain ⟨m', hret, hlist, -⟩ := kfree_refines hs.list ((hs.live p).mp hp)
  rw [hret] at hcall
  cases hcall
  refine ⟨hlist, ?_, ?_, hs.nodup.erase p⟩
  · unfold deallocate
    rw [covered_merge, covered_release, hs.bytes]
  · intro q
    unfold deallocate
    rw [used_merge, mem_used_release, hs.nodup.mem_erase_iff, hs.live q]
    tauto

theorem Holds.store {bytes : Set Nat} {s : Client} {bs : List Block} {p a : Nat}
    (hs : Holds bytes s bs) (v : UInt8) (hp : p ∈ s.live) (hlow : p ≤ a)
    (hhigh : a < p + size s.heap.mem (p - 16)) :
    Holds bytes ⟨{ s.heap with mem := write8 s.heap.mem a v }, s.live⟩ bs := by
  obtain ⟨b, hb, -, rfl⟩ := mem_used.mp ((hs.live p).mp hp)
  have haddr : b.payload - 16 = b.addr := by
    unfold Block.payload
    omega
  rw [haddr, (hs.list.header b hb).size] at hhigh
  refine ⟨hs.list.store hb hlow ?_ v, hs.bytes, hs.live, hs.nodup⟩
  unfold Block.payload at hhigh
  unfold Block.fin
  omega

theorem Step.keeps {bytes : Set Nat} {s s' : Client} (hstep : Step s s')
    (hs : ∃ bs, Holds bytes s bs) : ∃ bs, Holds bytes s' bs := by
  obtain ⟨bs, hs⟩ := hs
  cases hstep with
  | kmalloc sz hsz hcall => exact ⟨_, hs.kmalloc hcall⟩
  | kfree hp hcall => exact ⟨_, hs.kfree hp hcall⟩
  | store v hp hlow hhigh => exact ⟨_, hs.store v hp hlow hhigh⟩

theorem run_keeps {bytes : Set Nat} {s s' : Client} (hrun : ReflTransGen Step s s')
    (hs : ∃ bs, Holds bytes s bs) : ∃ bs, Holds bytes s' bs := by
  induction hrun with
  | refl => exact hs
  | tail _ hstep ih => exact hstep.keeps ih

/-! ## The invariant, read off memory -/

/-- Before `kmalloc_init` the statics are zero and memory is arbitrary. -/
def noHeap (m : Mem) : Heap := ⟨m, 0, 0⟩

def afterInit (pages : Nat) (pmm : Pmm.State) (m : Mem) : Client :=
  ⟨(kmallocInit pages pmm (noHeap m)).2, []⟩

/-- The frames `kmalloc_init` obtained. -/
def heapFrames (pages : Nat) (pmm : Pmm.State) (m : Mem) : Set Nat :=
  obtained pmm (kmallocInit pages pmm (noHeap m)).1

/-- At first the arena has one free block for each frame. -/
theorem afterInit_frameBlocks (pages : Nat) (pmm : Pmm.State) (m : Mem) :
    ∃ bs, Holds (frameBytes (heapFrames pages pmm m)) (afterInit pages pmm m) bs ∧
      ∀ b ∈ bs, ∃ f, b = frameBlock f := by
  obtain ⟨bs, prev, hfill, hframes⟩ := kmallocInit_frameBlocks pages pmm (h := noHeap m) rfl
  refine ⟨bs, ⟨hfill.list, hfill.bytes, ?_, List.nodup_nil⟩, hframes⟩
  intro p
  rw [hfill.unused]
  rfl

theorem afterInit_holds (pages : Nat) (pmm : Pmm.State) (m : Mem) :
    ∃ bs, Holds (frameBytes (heapFrames pages pmm m)) (afterInit pages pmm m) bs := by
  obtain ⟨bs, hholds, -⟩ := afterInit_frameBlocks pages pmm m
  exact ⟨bs, hholds⟩

/-- The arena of `kmalloc.c` is well formed: `blocks` are the headers on the
list from `heap_start`. -/
structure ArenaInvariant (frames : Set Nat) (s : Client) (blocks : List Nat) : Prop where
  list : Chain (next s.heap.mem) s.heap.heapStart blocks 0
  nonNull : 0 ∉ blocks
  increasing : blocks.Pairwise (· < ·)
  magic : ∀ b ∈ blocks, magic s.heap.mem b = blockMagic
  aligned : ∀ b ∈ blocks, b % 4 = 0 ∧ size s.heap.mem b % 4 = 0
  disjoint : blocks.Pairwise fun b c => b + 16 + size s.heap.mem b ≤ c
  union : ∀ a, (∃ b ∈ blocks, b ≤ a ∧ a < b + 16 + size s.heap.mem b) ↔
    a / Pmm.pageSize ∈ frames
  live : ∀ p, p ∈ s.live ↔ ∃ b ∈ blocks, free s.heap.mem b = 0 ∧ p = b + 16
  distinct : s.live.Nodup
  offHeaders : ∀ p ∈ s.live, ∀ b ∈ blocks,
    p + size s.heap.mem (p - 16) ≤ b ∨ b + 16 ≤ p
  apart : ∀ p ∈ s.live, ∀ q ∈ s.live, p ≠ q →
    p + size s.heap.mem (p - 16) ≤ q ∨ q + size s.heap.mem (q - 16) ≤ p

theorem Holds.size_eq {bytes : Set Nat} {s : Client} {bs : List Block} (hs : Holds bytes s bs)
    {p : Nat} (hp : p ∈ s.live) :
    ∃ b ∈ bs, p = b.addr + 16 ∧ size s.heap.mem (p - 16) = b.size := by
  obtain ⟨b, hb, -, rfl⟩ := mem_used.mp ((hs.live p).mp hp)
  have haddr : b.payload - 16 = b.addr := by
    unfold Block.payload
    omega
  rw [haddr]
  exact ⟨b, hb, rfl, (hs.list.header b hb).size⟩

theorem Holds.arenaInvariant {frames : Set Nat} {s : Client} {bs : List Block}
    (hs : Holds (frameBytes frames) s bs) : ArenaInvariant frames s (bs.map Block.addr) := by
  have hlay := hs.list.layout
  have hsize : ∀ b ∈ bs, size s.heap.mem b.addr = b.size := fun b hb =>
    (hs.list.header b hb).size
  refine ⟨hs.list.chain, hlay.zero_notMem, ?_, ?_, ?_, ?_, ?_, ?_, hs.nodup, ?_, ?_⟩
  · apply List.pairwise_map.mpr
    apply hlay.sorted.imp
    intro b c hbc
    unfold Block.fin at hbc
    omega
  · intro x hx
    obtain ⟨b, hb, rfl⟩ := List.mem_map.mp hx
    exact (hs.list.header b hb).magic
  · intro x hx
    obtain ⟨b, hb, rfl⟩ := List.mem_map.mp hx
    rw [hsize b hb]
    exact hlay.aligned b hb
  · apply List.pairwise_map.mpr
    apply hlay.sorted.imp_of_mem
    intro b c hb _ hbc
    rw [hsize b hb]
    exact hbc
  · intro a
    have hcov : a ∈ covered bs ↔ a / Pmm.pageSize ∈ frames := by
      rw [hs.bytes]
      rfl
    rw [← hcov]
    constructor
    · rintro ⟨x, hx, hxa⟩
      obtain ⟨b, hb, rfl⟩ := List.mem_map.mp hx
      rw [hsize b hb] at hxa
      exact ⟨b, hb, hxa⟩
    · rintro ⟨b, hb, hba⟩
      refine ⟨b.addr, List.mem_map.mpr ⟨b, hb, rfl⟩, ?_⟩
      rw [hsize b hb]
      exact hba
  · intro p
    rw [hs.live p, mem_used]
    constructor
    · rintro ⟨b, hb, hused, rfl⟩
      refine ⟨b.addr, List.mem_map.mpr ⟨b, hb, rfl⟩, ?_, rfl⟩
      rw [(hs.list.header b hb).free, hused]
      rfl
    · rintro ⟨x, hx, hfree, rfl⟩
      obtain ⟨b, hb, rfl⟩ := List.mem_map.mp hx
      refine ⟨b, hb, ?_, rfl⟩
      by_contra hne
      exact (hs.list.header b hb).free_iff.mpr (by simpa using hne) hfree
  · intro p hp x hx
    obtain ⟨b, hb, rfl, hpsize⟩ := hs.size_eq hp
    obtain ⟨c, hc, rfl⟩ := List.mem_map.mp hx
    rw [hpsize]
    rcases hlay.eq_or_apart hb hc with rfl | hapart
    · exact Or.inr (le_refl _)
    · unfold Block.fin at hapart
      omega
  · intro p hp q hq hpq
    obtain ⟨b, hb, rfl, hpsize⟩ := hs.size_eq hp
    obtain ⟨c, hc, rfl, hqsize⟩ := hs.size_eq hq
    rw [hpsize, hqsize]
    rcases hlay.eq_or_apart hb hc with rfl | hapart
    · exact absurd rfl hpq
    · unfold Block.fin at hapart
      omega

/-- Whatever frames `kmalloc_init` got and whatever the clients did since, the
arena is well formed on exactly those frames, every call returns, and freeing a
live pointer does not panic. -/
theorem heap_arena_invariant (pages : Nat) (pmm : Pmm.State) (m : Mem) (s : Client)
    (hrun : ReflTransGen Step (afterInit pages pmm m) s) :
    (∃ blocks, ArenaInvariant (heapFrames pages pmm m) s blocks) ∧
      (∀ sz, sz < 2 ^ 32 → ∃ h' p, kmalloc s.heap sz = .ok (h', p)) ∧
      ∀ p ∈ s.live, ∃ h', kfree s.heap p = .ok h' := by
  obtain ⟨bs, hs⟩ := run_keeps hrun (afterInit_holds pages pmm m)
  refine ⟨⟨_, hs.arenaInvariant⟩, ?_, ?_⟩
  · intro sz _
    obtain ⟨h', hret, -⟩ := kmalloc_refines hs.list sz
    exact ⟨h', _, hret⟩
  · intro p hp
    obtain ⟨m', hret, -⟩ := kfree_refines hs.list ((hs.live p).mp hp)
    exact ⟨_, hret⟩

/-- A machine whose first free frames are 256 and 257, one megabyte up. -/
def megabyteUsed : Pmm.State := ⟨fun w => if w < 8 then 0xFFFFFFFF#32 else 0#32, 32768, 32512⟩

/-- The heap after two pages and one request of 100 bytes. -/
def firstRequest : Outcome (Heap × Nat) :=
  kmalloc (afterInit 2 megabyteUsed fun _ => 0).heap 100

theorem firstRequest_returns : ∃ h' : Heap, firstRequest = .ok (h', 0x100010) := by
  have heval : returnsWith firstRequest (fun r => decide (r.2 = 0x100010)) = true := by
    decide +kernel
  obtain ⟨⟨h', p⟩, hcall, htest⟩ := returnsWith_iff.mp heval
  have hp : p = 0x100010 := of_decide_eq_true htest
  exact ⟨h', by rw [hcall, hp]⟩

theorem heap_arena_invariant_firstRequest :
    ∃ h' : Heap, firstRequest = .ok (h', 0x100010) ∧
      (∃ blocks, ArenaInvariant (heapFrames 2 megabyteUsed fun _ => 0) ⟨h', [0x100010]⟩ blocks) ∧
      (∀ sz, sz < 2 ^ 32 → ∃ h'' p, kmalloc h' sz = .ok (h'', p)) ∧
      ∀ p ∈ [0x100010], ∃ h'', kfree h' p = .ok h'' := by
  obtain ⟨h', hcall⟩ := firstRequest_returns
  refine ⟨h', hcall, ?_⟩
  exact heap_arena_invariant 2 megabyteUsed (fun _ => 0) ⟨h', [0x100010]⟩
    (ReflTransGen.single (Step.kmalloc 100 (by norm_num) hcall))

end StakOS.Kmalloc
