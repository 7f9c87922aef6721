import StakOS.Lib.Memory
import StakOS.Lib.Loop
import StakOS.Lib.Linked
import StakOS.Pmm.Bitmap
import StakOS.Kmalloc.Arena

/-!
# The kernel heap

`mm/kmalloc.c` over byte memory: headers of four words threaded by their `next`
word.  `HeapList` relates a memory to the list of blocks it holds, and each
operation is shown to compute the operation on that list.
-/

namespace StakOS.Kmalloc

open StakOS.Lib.Memory StakOS.Lib.Loop StakOS.Lib.Linked

def blockMagic : Nat := 0xB10C0DE0

/-- The statics of the file, with the memory the blocks live in. -/
structure Heap where
  mem : Mem
  heapStart : Nat
  heapTotalBytes : Nat

/-! ## The fields of `block_t` -/

def magic (m : Mem) (blk : Nat) : Nat := read32 m blk
def size (m : Mem) (blk : Nat) : Nat := read32 m (blk + 4)
def free (m : Mem) (blk : Nat) : Nat := read32 m (blk + 8)
def next (m : Mem) (blk : Nat) : Nat := read32 m (blk + 12)

def setMagic (m : Mem) (blk v : Nat) : Mem := write32 m blk v
def setSize (m : Mem) (blk v : Nat) : Mem := write32 m (blk + 4) v
def setFree (m : Mem) (blk v : Nat) : Mem := write32 m (blk + 8) v
def setNext (m : Mem) (blk v : Nat) : Mem := write32 m (blk + 12) v

/-! ## The functions of `kmalloc.c` -/

/-- The frame at `phys` as one free block at the end of the list. -/
def addFrame (h : Heap) (prev phys : Nat) : Heap :=
  let m := setMagic h.mem phys blockMagic
  let m := setSize m phys (Pmm.pageSize - blockHeaderSize)
  let m := setFree m phys 1
  let m := setNext m phys 0
  { mem := if prev ≠ 0 then setNext m prev phys else m
    heapStart := if h.heapStart = 0 then phys else h.heapStart
    heapTotalBytes := add32 h.heapTotalBytes Pmm.pageSize }

/-- The loop of `kmalloc_init`, `prev` being the last block. -/
def initLoop : Nat → Nat → Pmm.State → Heap → Pmm.State × Heap
  | 0, _, pmm, h => (pmm, h)
  | n + 1, prev, pmm, h =>
      let (pmm', phys) := Pmm.pmmAllocFrame pmm
      if phys = 0 then (pmm', h)
      else initLoop n phys pmm' (addFrame h prev phys)

def kmallocInit (pages : Nat) (pmm : Pmm.State) (h : Heap) : Pmm.State × Heap :=
  if pages = 0 then (pmm, h)
  else initLoop pages 0 pmm { h with heapTotalBytes := 0 }

def split (m : Mem) (blk sz : Nat) : Mem :=
  if size m blk ≤ add32 (add32 sz blockHeaderSize) minSplitSize then m
  else
    let newBlk := add32 (add32 blk blockHeaderSize) sz
    let m := setMagic m newBlk blockMagic
    let m := setSize m newBlk (sub32 (sub32 (size m blk) sz) blockHeaderSize)
    let m := setFree m newBlk 1
    let m := setNext m newBlk (next m blk)
    let m := setSize m blk sz
    setNext m blk newBlk

/-- Absorb the block behind `cur`. -/
def absorb (m : Mem) (cur : Nat) : Mem :=
  let m := setSize m cur
    (add32 (size m cur) (add32 blockHeaderSize (size m (next m cur))))
  setNext m cur (next m (next m cur))

/-- One turn of the loop of `coalesce`. -/
def coalesceTurn : Mem × Nat → Turn (Mem × Nat) Mem
  | (m, cur) =>
      if cur ≠ 0 ∧ next m cur ≠ 0 then
        let endOfCur := add32 (add32 cur blockHeaderSize) (size m cur)
        if free m cur ≠ 0 ∧ free m (next m cur) ≠ 0 ∧ next m cur = endOfCur then
          .again (absorb m cur, cur)
        else .again (m, next m cur)
      else .done m

def coalesce (h : Heap) : Outcome Heap := do
  let m ← loop coalesceTurn turns (h.mem, h.heapStart)
  return { h with mem := m }

/-- `(size + 3) & ~3`. -/
def alignSize (sz : Nat) : Nat := add32 sz 3 / 4 * 4

/-- One turn of the first-fit search; the result is the memory and the pointer. -/
def searchTurn (m : Mem) (sz : Nat) (cur : Nat) : Turn Nat (Mem × Nat) :=
  if cur ≠ 0 then
    if free m cur ≠ 0 ∧ size m cur ≥ sz then
      .done (setFree (split m cur sz) cur 0, add32 cur blockHeaderSize)
    else .again (next m cur)
  else .done (m, 0)

def kmalloc (h : Heap) (sz : Nat) : Outcome (Heap × Nat) :=
  if sz = 0 ∨ h.heapStart = 0 then .ok (h, 0)
  else do
    let (m, p) ← loop (searchTurn h.mem (alignSize sz)) turns h.heapStart
    return ({ h with mem := m }, p)

def kfree (h : Heap) (ptr : Nat) : Outcome Heap :=
  if ptr = 0 then .ok h
  else
    let blk := sub32 ptr blockHeaderSize
    if magic h.mem blk ≠ blockMagic ∨ free h.mem blk ≠ 0 then
      .error (.kpanic "kfree: invalid pointer or double-free")
    else coalesce { h with mem := setFree h.mem blk 1 }

/-! ## The blocks a memory holds -/

/-- The header of `b`, apart from its link. -/
structure Header (m : Mem) (b : Block) : Prop where
  magic : magic m b.addr = blockMagic
  size : size m b.addr = b.size
  free : free m b.addr = if b.free then 1 else 0

/-- The list from `start` consists of the blocks `bs`. -/
structure HeapList (m : Mem) (start : Nat) (bs : List Block) : Prop where
  layout : Layout bs
  header : ∀ b ∈ bs, Header m b
  chain : Chain (next m) start (bs.map Block.addr) 0

/-- The bytes of the header of `b`. -/
def Block.inHeader (b : Block) (a : Nat) : Prop := b.addr ≤ a ∧ a < b.addr + 16

theorem Header.congr {m m' : Mem} {b : Block} (h : Header m b)
    (hsame : ∀ a, b.inHeader a → m' a = m a) : Header m' b := by
  have hread : ∀ i, i ≤ 12 → read32 m' (b.addr + i) = read32 m (b.addr + i) := by
    intro i hi
    apply read32_congr
    intro x hx hx'
    exact hsame x ⟨by omega, by omega⟩
  exact ⟨(hread 0 (by omega)).trans h.magic, (hread 4 (by omega)).trans h.size,
    (hread 8 (by omega)).trans h.free⟩

theorem next_congr {m m' : Mem} {b : Block} (hsame : ∀ a, b.inHeader a → m' a = m a) :
    next m' b.addr = next m b.addr := by
  apply read32_congr
  intro x hx hx'
  exact hsame x ⟨by omega, by omega⟩

theorem chain_congr {m m' : Mem} {p q : Nat} {bs : List Block}
    (h : Chain (next m) p (bs.map Block.addr) q)
    (hsame : ∀ b ∈ bs, ∀ a, b.inHeader a → m' a = m a) :
    Chain (next m') p (bs.map Block.addr) q := by
  apply h.congr
  intro x hx
  obtain ⟨b, hb, rfl⟩ := List.mem_map.mp hx
  exact next_congr (hsame b hb)

theorem Header.free_iff {m : Mem} {b : Block} (h : Header m b) :
    Kmalloc.free m b.addr ≠ 0 ↔ b.free = true := by
  rw [h.free]
  cases b.free <;> simp

/-- A list depends on its headers only. -/
theorem HeapList.congr {m m' : Mem} {start : Nat} {bs : List Block} (h : HeapList m start bs)
    (hsame : ∀ b ∈ bs, ∀ a, b.inHeader a → m' a = m a) : HeapList m' start bs :=
  ⟨h.layout, fun b hb => (h.header b hb).congr (hsame b hb), chain_congr h.chain hsame⟩

/-- Payloads hold no header. -/
theorem Layout.payload_apart {bs : List Block} (h : Layout bs) {b c : Block} (hb : b ∈ bs)
    (hc : c ∈ bs) {a : Nat} (hlow : b.payload ≤ a) (hhigh : a < b.fin) : ¬ c.inHeader a := by
  intro ha
  unfold Block.inHeader at ha
  unfold Block.payload at hlow
  rcases h.eq_or_apart hb hc with rfl | hapart
  · omega
  · unfold Block.fin at hapart hhigh
    omega

/-- Replacing a stretch of the list, when the memory changed on its bytes only. -/
theorem HeapList.replace {m m' : Mem} {start : Nat} {pre mid new post : List Block} {b : Block}
    (h : HeapList m start (pre ++ b :: mid ++ post)) (hlayout : Layout (pre ++ new ++ post))
    (hframe : ∀ a, (∀ c ∈ b :: mid, a < c.addr ∨ c.fin ≤ a) → m' a = m a)
    (hheader : ∀ c ∈ new, Header m' c)
    (hchain : Chain (next m') b.addr (new.map Block.addr) ((post.map Block.addr).headD 0)) :
    HeapList m' start (pre ++ new ++ post) := by
  obtain ⟨hpm, hpost, hbehind⟩ := Layout.append_iff.mp h.layout
  obtain ⟨hpre, hmid, hbefore⟩ := Layout.append_iff.mp hpm
  have hsame : ∀ c ∈ pre ++ post, ∀ a, c.inHeader a → m' a = m a := by
    intro c hc a ha
    apply hframe
    intro d hd
    unfold Block.inHeader at ha
    rcases List.mem_append.mp hc with hc | hc
    · have hcd := hbefore c hc d hd
      unfold Block.fin at hcd
      omega
    · have hdc := hbehind d (by simp [List.mem_cons.mp hd]) c hc
      omega
  have hchain₀ := h.chain
  rw [List.append_assoc, List.map_append, chain_append] at hchain₀
  obtain ⟨r, hto, hrest⟩ := hchain₀
  have hr : r = b.addr := hrest.1
  subst hr
  have hpostChain : Chain (next m) ((post.map Block.addr).headD 0) (post.map Block.addr) 0 := by
    rw [List.map_append] at hrest
    exact hrest.suffix
  refine ⟨hlayout, ?_, ?_⟩
  · intro c hc
    rcases List.mem_append.mp hc with hc | hc
    · rcases List.mem_append.mp hc with hc | hc
      · exact (h.header c (by simp [hc])).congr (hsame c (by simp [hc]))
      · exact hheader c hc
    · exact (h.header c (by simp [hc])).congr (hsame c (by simp [hc]))
  · rw [List.append_assoc, List.map_append, List.map_append, chain_append]
    refine ⟨b.addr, chain_congr hto fun c hc => hsame c (by simp [hc]), ?_⟩
    apply hchain.join
    exact chain_congr hpostChain fun c hc => hsame c (by simp [hc])

theorem HeapList.start_eq {m : Mem} {start : Nat} {bs : List Block} (h : HeapList m start bs) :
    start = (bs.map Block.addr).headD 0 := h.chain.start

theorem HeapList.next_eq {m : Mem} {start : Nat} {pre post : List Block} {b : Block}
    (h : HeapList m start (pre ++ b :: post)) :
    next m b.addr = (post.map Block.addr).headD 0 := by
  have hchain := h.chain
  rw [List.map_append, List.map_cons] at hchain
  exact hchain.next_eq

/-- The list behind a block. -/
theorem HeapList.behind {m : Mem} {start : Nat} {pre post : List Block} {b : Block}
    (h : HeapList m start (pre ++ b :: post)) :
    Chain (next m) ((post.map Block.addr).headD 0) (post.map Block.addr) 0 := by
  have hchain := h.chain
  rw [List.map_append, List.map_cons] at hchain
  obtain ⟨r, -, hr⟩ := chain_append.mp hchain
  rw [← h.next_eq]
  exact hr.2

end StakOS.Kmalloc
