import Mathlib.Data.Set.Card
import Mathlib.Order.Interval.Finset.Nat
import StakOS.Drivers.Output
import StakOS.Kmalloc.Coalesced
import StakOS.Lib.Walk

/-!
# Heap statistics

`kmalloc_print_stats` walks the list of blocks and adds up what it meets.  In every history the
numbers account for the whole arena: each byte that `kmalloc_init` got is in a header, in a free
block or in a block of a client.
-/

namespace StakOS.Kmalloc

open StakOS.Lib.Memory StakOS.Lib.Loop StakOS.Lib.Linked StakOS.Lib.Walk StakOS.Drivers.Output
open StakOS.Drivers
open Relation (ReflTransGen)

/-- The counters of the walk. -/
@[ext] structure Stats where
  totalBlocks : Nat
  freeBlocks : Nat
  usedBlocks : Nat
  freeBytes : Nat
  usedBytes : Nat
deriving DecidableEq

/-- One turn of the loop. -/
def countBlock (m : Mem) (st : Stats) (cur : Nat) : Stats :=
  if free m cur ≠ 0 then
    { st with
      totalBlocks := add32 st.totalBlocks 1
      freeBlocks := add32 st.freeBlocks 1
      freeBytes := add32 st.freeBytes (size m cur) }
  else
    { st with
      totalBlocks := add32 st.totalBlocks 1
      usedBlocks := add32 st.usedBlocks 1
      usedBytes := add32 st.usedBytes (size m cur) }

def countBlocks (h : Heap) : Outcome Stats :=
  walk 0 (next h.mem) (countBlock h.mem) h.heapStart ⟨0, 0, 0, 0, 0⟩

def printStats (heapTotalBytes : Nat) (st : Stats) : List Vga.Call :=
  color vgaColorLightGreen ++ text "[OK] kmalloc heap initialized\n" ++
  color Vga.vgaColorLightGrey ++
  text "     Heap size   : " ++ int (toInt32 heapTotalBytes) ++
  text " bytes (" ++ int (toInt32 (heapTotalBytes / 1024)) ++ text " KB)\n" ++
  text "     Free        : " ++ int (toInt32 st.freeBytes) ++
  text " bytes in " ++ int (toInt32 st.freeBlocks) ++ text " block(s)\n" ++
  text "     Used        : " ++ int (toInt32 st.usedBytes) ++
  text " bytes in " ++ int (toInt32 st.usedBlocks) ++ text " block(s)\n" ++
  text "     Total       : " ++ int (toInt32 st.totalBlocks) ++ text " block(s)\n"

def kmallocPrintStats (h : Heap) : Outcome (List Vga.Call) := do
  let st ← countBlocks h
  return printStats h.heapTotalBytes st

/-! ## The size of an arena -/

/-- The bytes of the blocks, headers included. -/
def extent (bs : List Block) : Nat := (bs.map fun b => 16 + b.size).sum

@[simp] theorem extent_nil : extent [] = 0 := rfl

@[simp] theorem extent_cons (b : Block) (bs : List Block) :
    extent (b :: bs) = 16 + b.size + extent bs := rfl

theorem extent_append (bs cs : List Block) : extent (bs ++ cs) = extent bs + extent cs := by
  unfold extent
  rw [List.map_append, List.sum_append]

theorem covered_singleton (b : Block) : covered [b] = Set.Ico b.addr b.fin := by
  ext a
  rw [mem_covered_singleton, Set.mem_Ico]

theorem ncard_Ico (a b : Nat) : (Set.Ico a b).ncard = b - a := by
  rw [Set.ncard_eq_toFinset_card', Set.toFinset_Ico, Nat.card_Ico]

theorem covered_nil : covered [] = ∅ := by
  ext a
  simp [covered]

theorem covered_finite (bs : List Block) : (covered bs).Finite := by
  induction bs with
  | nil =>
      rw [covered_nil]
      exact Set.finite_empty
  | cons b bs ih =>
      rw [covered_cons, covered_singleton]
      exact (Set.finite_Ico _ _).union ih

/-- The blocks lie apart, so their bytes add up. -/
theorem Layout.ncard_covered {bs : List Block} (h : Layout bs) :
    (covered bs).ncard = extent bs := by
  induction bs with
  | nil => rw [covered_nil, Set.ncard_empty, extent_nil]
  | cons b bs ih =>
      obtain ⟨⟨-, -, -, -, hbefore⟩, hrest⟩ := Layout.cons_iff.mp h
      have hapart : Disjoint (covered [b]) (covered bs) := by
        apply Set.disjoint_left.mpr
        rintro a ha ⟨c, hc, hlow, -⟩
        have hfin := (mem_covered_singleton.mp ha).2
        have hbc := hbefore c hc
        omega
      rw [covered_cons, Set.ncard_union_eq hapart (covered_finite _) (covered_finite _), ih hrest,
        extent_cons, covered_singleton, ncard_Ico]
      unfold Block.fin
      omega

theorem Layout.extent_le {bs : List Block} (h : Layout bs) : extent bs ≤ 2 ^ 27 := by
  have hsub : covered bs ⊆ Set.Ico 0 (2 ^ 27) := by
    rintro a ⟨b, hb, -, hfin⟩
    exact ⟨Nat.zero_le a, hfin.trans_le (h.bounded b hb)⟩
  have hcard := Set.ncard_le_ncard hsub (Set.finite_Ico 0 (2 ^ 27))
  rwa [h.ncard_covered, ncard_Ico, Nat.sub_zero] at hcard

/-! ## The walk over the list -/

/-- The counters for a list of blocks. -/
def statsOf (bs : List Block) : Stats where
  totalBlocks := bs.length
  freeBlocks := (bs.filter Block.free).length
  usedBlocks := (live bs).length
  freeBytes := ((bs.filter Block.free).map Block.size).sum
  usedBytes := ((live bs).map Block.size).sum

/-- One block in front. -/
theorem statsOf_cons (b : Block) (bs : List Block) : statsOf (b :: bs) =
    if b.free then
      { statsOf bs with
        totalBlocks := (statsOf bs).totalBlocks + 1
        freeBlocks := (statsOf bs).freeBlocks + 1
        freeBytes := b.size + (statsOf bs).freeBytes }
    else
      { statsOf bs with
        totalBlocks := (statsOf bs).totalBlocks + 1
        usedBlocks := (statsOf bs).usedBlocks + 1
        usedBytes := b.size + (statsOf bs).usedBytes } := by
  cases hfree : b.free with
  | true => simp [statsOf, live, hfree]
  | false => simp [statsOf, live, hfree]

/-- Every block is free or used, and every byte of an arena is in a header, free or used. -/
theorem statsOf_sums (bs : List Block) :
    (statsOf bs).freeBlocks + (statsOf bs).usedBlocks = (statsOf bs).totalBlocks ∧
      (statsOf bs).freeBytes + (statsOf bs).usedBytes + 16 * (statsOf bs).totalBlocks =
        extent bs := by
  induction bs with
  | nil => exact ⟨rfl, rfl⟩
  | cons b bs ih =>
      rw [extent_cons, statsOf_cons]
      split <;> constructor <;> dsimp only <;> omega

/-- One turn counts one more block. -/
theorem countBlock_statsOf {m : Mem} {pre : List Block} {b : Block} (hb : Header m b)
    (hfits : extent (pre ++ [b]) < 2 ^ 32) :
    countBlock m (statsOf pre) b.addr = statsOf (pre ++ [b]) := by
  obtain ⟨hblocks, hbytes⟩ := statsOf_sums pre
  rw [extent_append, extent_cons, extent_nil] at hfits
  unfold countBlock
  rw [hb.size]
  cases hfree : b.free with
  | true =>
      rw [if_pos (hb.free_iff.mpr hfree), add32_of_lt (by omega), add32_of_lt (by omega),
        add32_of_lt (by omega)]
      simp [statsOf, live, hfree]
  | false =>
      have hused : ¬ free m b.addr ≠ 0 := by
        rw [hb.free_iff, hfree]
        decide
      rw [if_neg hused, add32_of_lt (by omega), add32_of_lt (by omega), add32_of_lt (by omega)]
      simp [statsOf, live, hfree]

theorem foldl_countBlock {m : Mem} {bs : List Block} (pre : List Block) (hb : ∀ b ∈ bs, Header m b)
    (hfits : extent (pre ++ bs) < 2 ^ 32) :
    (bs.map Block.addr).foldl (countBlock m) (statsOf pre) = statsOf (pre ++ bs) := by
  induction bs generalizing pre with
  | nil => rw [List.map_nil, List.foldl_nil, List.append_nil]
  | cons b bs ih =>
      rw [List.append_cons] at hfits ⊢
      have hstep : extent (pre ++ [b]) < 2 ^ 32 := by
        rw [extent_append] at hfits
        omega
      rw [List.map_cons, List.foldl_cons, countBlock_statsOf (hb b (by simp)) hstep]
      exact ih _ (fun c hc => hb c (by simp [hc])) hfits

theorem HeapList.countBlocks {h : Heap} {bs : List Block} (hl : HeapList h.mem h.heapStart bs) :
    countBlocks h = .ok (statsOf bs) := by
  have hfits : extent bs < 2 ^ 32 := Nat.lt_of_le_of_lt hl.layout.extent_le (by decide)
  have hlen : (bs.map Block.addr).length < turns := by
    rw [List.length_map]
    exact hl.layout.length_lt
  unfold Kmalloc.countBlocks
  rw [walk_eq_foldl hl.chain hl.layout.zero_notMem hlen]
  exact congrArg Except.ok (foldl_countBlock [] hl.header hfits)

/-! ## What `kmalloc_init` got -/

theorem extent_frameBlock (f : Nat) : extent [frameBlock f] = Pmm.pageSize := by
  have hsize : (frameBlock f).size = 4080 := rfl
  rw [extent_cons, extent_nil, hsize]
  decide

/-- The total counts a page for every block, and a block is made for every page. -/
theorem initLoop_total {before : Pmm.State} (n : Nat) {bs : List Block} {prev : Nat}
    {pmm : Pmm.State} {h : Heap} (hfill : Filling before bs prev pmm h)
    (htotal : h.heapTotalBytes = extent bs) :
    ∃ bs', HeapList (initLoop n prev pmm h).2.mem (initLoop n prev pmm h).2.heapStart bs' ∧
      (initLoop n prev pmm h).2.heapTotalBytes = extent bs' := by
  induction n generalizing bs prev pmm h with
  | zero => exact ⟨bs, hfill.list, htotal⟩
  | succ n ih =>
      rw [initLoop]
      rcases Pmm.pmmAllocFrame_cases pmm with ⟨f, -, hlt, hfree, hlow, halloc⟩ | ⟨-, halloc⟩
      · by_cases hf : f = 0
        · -- frame 0 reads as failure
          subst hf
          simp only [halloc, Nat.zero_mul, if_true]
          exact ⟨bs, hfill.list, htotal⟩
        · have hphys : f * Pmm.pageSize ≠ 0 := by
            unfold Pmm.pageSize
            omega
          simp only [halloc, if_neg hphys]
          have hstep := hfill.step (n := pmm.freeFrames - 1) hf hlt hfree hlow
          have hle := hstep.list.layout.extent_le
          rw [extent_append, extent_frameBlock, ← htotal] at hle
          have htotal' : (addFrame h prev (f * Pmm.pageSize)).heapTotalBytes =
              h.heapTotalBytes + Pmm.pageSize := add32_of_lt (by omega)
          exact ih hstep (by rw [htotal', htotal, extent_append, extent_frameBlock])
      · simp only [halloc, if_true]
        exact ⟨bs, hfill.list, htotal⟩

/-- A list in memory determines its blocks. -/
theorem HeapList.unique {m : Mem} {start : Nat} {bs cs : List Block} (hb : HeapList m start bs)
    (hc : HeapList m start cs) : bs = cs := by
  have haddrs : bs.map Block.addr = cs.map Block.addr :=
    hb.chain.unique hc.chain hb.layout.zero_notMem hc.layout.zero_notMem
  have hread : ∀ (ds : List Block), (∀ d ∈ ds, Header m d) →
      ds = (ds.map Block.addr).map fun a => ⟨a, size m a, decide (free m a ≠ 0)⟩ := by
    intro ds hds
    rw [List.map_map]
    refine (List.map_id ds).symm.trans (List.map_congr_left fun d hd => ?_)
    have hfree : decide (free m d.addr ≠ 0) = d.free := by
      rw [Bool.eq_iff_iff, decide_eq_true_iff]
      exact (hds d hd).free_iff
    simp only [id, Function.comp_apply, (hds d hd).size, hfree]
  rw [hread bs hb.header, hread cs hc.header, haddrs]

/-- At first the blocks are the pages that were obtained. -/
theorem afterInit_total (pages : Nat) (pmm : Pmm.State) (m : Mem) :
    ∃ bs, HeapList (afterInit pages pmm m).heap.mem (afterInit pages pmm m).heap.heapStart bs ∧
      (afterInit pages pmm m).heap.heapTotalBytes = extent bs := by
  have hfill : Filling pmm [] 0 pmm (noHeap m) := by
    obtain ⟨bs, prev, hfill⟩ := kmallocInit_fills 0 pmm (h := noHeap m) rfl
    have hnil : bs = [] := by
      cases bs with
      | nil => rfl
      | cons b bs => exact absurd hfill.list.start_eq.symm (hfill.list.layout.nonNull b (by simp))
    rcases hfill.last with ⟨-, hprev⟩ | ⟨pre, b, hcons, -⟩
    · rw [hnil, hprev] at hfill
      exact hfill
    · rw [hnil] at hcons
      exact absurd hcons (by simp)
  unfold afterInit kmallocInit
  by_cases hzero : pages = 0
  · rw [if_pos hzero]
    exact ⟨[], hfill.list, rfl⟩
  · rw [if_neg hzero]
    exact initLoop_total pages hfill rfl

/-! ## Histories -/

variable {bytes : Set Nat} {s s' : Client} {bs : List Block}

/-- No call touches the total. -/
theorem Step.total_eq (hstep : Step s s') (hs : Holds bytes s bs) :
    s'.heap.heapTotalBytes = s.heap.heapTotalBytes := by
  cases hstep with
  | kmalloc sz hsz hcall =>
      rcases kmalloc_cases hs.list sz with ⟨hret, -⟩ | ⟨pre, b, post, -, -, -, -, hret, -⟩
      · rw [hret] at hcall
        cases hcall
        rfl
      · rw [hret] at hcall
        cases hcall
        rfl
  | kfree hp hcall =>
      obtain ⟨m', hret, -, -⟩ := kfree_refines hs.list ((hs.live _).mp hp)
      rw [hret] at hcall
      cases hcall
      rfl
  | store v hp hlow hhigh => rfl

/-- The total is the size of the arena throughout. -/
theorem run_total {pages : Nat} {pmm : Pmm.State} {m : Mem}
    (hrun : ReflTransGen Step (afterInit pages pmm m) s) :
    ∃ bs, Holds (frameBytes (heapFrames pages pmm m)) s bs ∧ s.heap.heapTotalBytes = extent bs := by
  have hcard : ∀ {s : Client} {bs : List Block},
      Holds (frameBytes (heapFrames pages pmm m)) s bs →
        (frameBytes (heapFrames pages pmm m)).ncard = extent bs := by
    intro s bs hs
    rw [← hs.bytes, hs.list.layout.ncard_covered]
  induction hrun with
  | refl =>
      obtain ⟨bs, hs⟩ := afterInit_holds pages pmm m
      obtain ⟨cs, hl, htotal⟩ := afterInit_total pages pmm m
      exact ⟨bs, hs, htotal.trans (congrArg extent (hl.unique hs.list))⟩
  | tail _ hstep ih =>
      obtain ⟨bs, hs, htotal⟩ := ih
      obtain ⟨cs, hs'⟩ := hstep.keeps ⟨bs, hs⟩
      refine ⟨cs, hs', ?_⟩
      rw [hstep.total_eq hs, htotal, ← hcard hs, hcard hs']

theorem used_eq_map (bs : List Block) : used bs = (live bs).map Block.payload := rfl

theorem Layout.used_nodup (h : Layout bs) : (used bs).Nodup := by
  rw [used_eq_map]
  apply List.Nodup.map_on
  · intro b hb c hc hpay
    refine h.eq_of_addr (mem_live.mp hb).1 (mem_live.mp hc).1 ?_
    unfold Block.payload at hpay
    omega
  · apply List.Pairwise.filter
    apply h.sorted.imp
    intro b c hbc heq
    rw [heq] at hbc
    exact Nat.not_lt.mpr hbc c.addr_lt_fin

/-- The pointers of the clients are those of the blocks handed out. -/
theorem Holds.live_perm (hs : Holds bytes s bs) : s.live.Perm (used bs) :=
  (List.perm_ext_iff_of_nodup hs.nodup hs.list.layout.used_nodup).mpr hs.live

theorem Holds.used_stats (hs : Holds bytes s bs) :
    (statsOf bs).usedBlocks = s.live.length ∧
      (statsOf bs).usedBytes = (s.live.map fun p => size s.heap.mem (p - 16)).sum := by
  constructor
  · rw [hs.live_perm.length_eq, used_eq_map, List.length_map]
    rfl
  · have hsizes : (used bs).map (fun p => size s.heap.mem (p - 16)) = (Kmalloc.live bs).map Block.size := by
      rw [used_eq_map, List.map_map]
      apply List.map_congr_left
      intro b hb
      have haddr : b.payload - 16 = b.addr := by
        unfold Block.payload
        omega
      show size s.heap.mem (b.payload - 16) = b.size
      rw [haddr, (hs.list.header b (mem_live.mp hb).1).size]
    rw [(hs.live_perm.map _).sum_eq, hsizes]
    rfl

theorem frameBytes_insert (f : Nat) (fs : Set Nat) :
    frameBytes (insert f fs) = Set.Ico (f * Pmm.pageSize) ((f + 1) * Pmm.pageSize) ∪ frameBytes fs := by
  ext a
  simp only [frameBytes, Set.mem_ofPred_eq, Set.mem_insert_iff, Set.mem_union, Set.mem_Ico]
  have hdiv : a / Pmm.pageSize = f ↔ f * Pmm.pageSize ≤ a ∧ a < (f + 1) * Pmm.pageSize := by
    unfold Pmm.pageSize
    omega
  rw [hdiv]

theorem ncard_frameBytes {fs : Set Nat} (hfs : fs.Finite) :
    (frameBytes fs).Finite ∧ (frameBytes fs).ncard = Pmm.pageSize * fs.ncard := by
  induction fs, hfs using Set.Finite.induction_on with
  | empty =>
      have hnone : frameBytes ∅ = ∅ := by
        ext a
        simp [frameBytes]
      rw [hnone, Set.ncard_empty]
      exact ⟨Set.finite_empty, rfl⟩
  | @insert f fs hf hfs ih =>
      have hapart : Disjoint (Set.Ico (f * Pmm.pageSize) ((f + 1) * Pmm.pageSize))
          (frameBytes fs) := by
        apply Set.disjoint_left.mpr
        rintro a ⟨hlow, hhigh⟩ ha
        have hdiv : a / Pmm.pageSize = f := by
          unfold Pmm.pageSize at hlow hhigh ⊢
          omega
        exact hf (hdiv ▸ ha)
      have hsize : (f + 1) * Pmm.pageSize - f * Pmm.pageSize = Pmm.pageSize := by
        rw [Nat.add_mul, Nat.one_mul, Nat.add_sub_cancel_left]
      rw [frameBytes_insert]
      refine ⟨(Set.finite_Ico _ _).union ih.1, ?_⟩
      rw [Set.ncard_union_eq hapart (Set.finite_Ico _ _) ih.1, ncard_Ico, ih.2, hsize,
        Set.ncard_insert_of_notMem hf hfs, Nat.mul_add, Nat.mul_one, Nat.add_comm]

theorem heapFrames_finite (pages : Nat) (pmm : Pmm.State) (m : Mem) :
    (heapFrames pages pmm m).Finite := by
  obtain ⟨bs, hs⟩ := afterInit_holds pages pmm m
  refine ((covered_finite bs).image fun a => a / Pmm.pageSize).subset fun f hf => ?_
  have hdiv : f * Pmm.pageSize / Pmm.pageSize = f := Nat.mul_div_cancel f (by decide)
  refine ⟨f * Pmm.pageSize, ?_, hdiv⟩
  rw [hs.bytes]
  show f * Pmm.pageSize / Pmm.pageSize ∈ heapFrames pages pmm m
  rw [hdiv]
  exact hf

/-- The numbers are those of the clients and of the arena, which has `pages` pages. -/
structure Accounts (pages : Nat) (s : Client) (st : Stats) : Prop where
  blocks : st.freeBlocks + st.usedBlocks = st.totalBlocks
  clients : st.usedBlocks = s.live.length
  payload : st.usedBytes = (s.live.map fun p => size s.heap.mem (p - 16)).sum
  bytes : st.freeBytes + st.usedBytes + 16 * st.totalBlocks = s.heap.heapTotalBytes
  total : s.heap.heapTotalBytes = Pmm.pageSize * pages

/-- The report, with numbers in decimal. -/
def statsText (total : Nat) (st : Stats) : List UInt8 :=
  Vga.ascii "[OK] kmalloc heap initialized\n" ++
  Vga.ascii "     Heap size   : " ++ Vga.ascii (Nat.repr total) ++
  Vga.ascii " bytes (" ++ Vga.ascii (Nat.repr (total / 1024)) ++ Vga.ascii " KB)\n" ++
  Vga.ascii "     Free        : " ++ Vga.ascii (Nat.repr st.freeBytes) ++
  Vga.ascii " bytes in " ++ Vga.ascii (Nat.repr st.freeBlocks) ++ Vga.ascii " block(s)\n" ++
  Vga.ascii "     Used        : " ++ Vga.ascii (Nat.repr st.usedBytes) ++
  Vga.ascii " bytes in " ++ Vga.ascii (Nat.repr st.usedBlocks) ++ Vga.ascii " block(s)\n" ++
  Vga.ascii "     Total       : " ++ Vga.ascii (Nat.repr st.totalBlocks) ++
  Vga.ascii " block(s)\n"

theorem transcript_printStats {total : Nat} {st : Stats} (htotal : total < 2 ^ 31)
    (hbytes : st.freeBytes + st.usedBytes + 16 * st.totalBlocks = total)
    (hblocks : st.freeBlocks + st.usedBlocks = st.totalBlocks) :
    transcript (printStats total st) = statsText total st := by
  have hint : ∀ n, n ≤ total → transcript (int (toInt32 n)) = Vga.ascii (Nat.repr n) := by
    intro n hn
    exact transcript_int_toInt32 (Nat.lt_of_le_of_lt hn htotal)
  have hkb := hint (total / 1024) (Nat.div_le_self _ _)
  have hfree := hint st.freeBytes (by omega)
  have hused := hint st.usedBytes (by omega)
  have hfreeBlocks := hint st.freeBlocks (by omega)
  have husedBlocks := hint st.usedBlocks (by omega)
  have htotalBlocks := hint st.totalBlocks (by omega)
  unfold printStats statsText
  simp only [transcript_append, transcript_color, transcript_text, hint total (Nat.le_refl _), hkb,
    hfree, hused, hfreeBlocks, husedBlocks, htotalBlocks, List.nil_append, List.append_assoc]

/-- `kmalloc_print_stats` accounts for every byte of the heap in every history, and says so. -/
theorem heap_accounted {pages : Nat} {pmm : Pmm.State} {m : Mem} {s : Client}
    (hrun : ReflTransGen Step (afterInit pages pmm m) s) :
    ∃ st calls, Accounts (heapFrames pages pmm m).ncard s st ∧
      kmallocPrintStats s.heap = .ok calls ∧
      transcript calls = statsText s.heap.heapTotalBytes st := by
  obtain ⟨bs, hs, htotal⟩ := run_total hrun
  have hbytes : (statsOf bs).freeBytes + (statsOf bs).usedBytes + 16 * (statsOf bs).totalBlocks =
      s.heap.heapTotalBytes := (statsOf_sums bs).2.trans htotal.symm
  have hpages : s.heap.heapTotalBytes = Pmm.pageSize * (heapFrames pages pmm m).ncard := by
    rw [htotal, ← (ncard_frameBytes (heapFrames_finite pages pmm m)).2, ← hs.bytes,
      hs.list.layout.ncard_covered]
  have hlt : s.heap.heapTotalBytes < 2 ^ 31 := by
    have hle := hs.list.layout.extent_le
    omega
  refine ⟨statsOf bs, printStats s.heap.heapTotalBytes (statsOf bs), ?_, ?_, ?_⟩
  · exact ⟨(statsOf_sums bs).1, hs.used_stats.1, hs.used_stats.2, hbytes, hpages⟩
  · unfold kmallocPrintStats
    rw [hs.list.countBlocks]
    rfl
  · exact transcript_printStats hlt hbytes ((statsOf_sums bs).1)

/-- Two pages, and a client that has asked for 100 bytes. -/
theorem heap_accounted_firstRequest :
    ∃ h st calls, Accounts (heapFrames 2 megabyteUsed fun _ => 0).ncard ⟨h, [0x100010]⟩ st ∧
      st.usedBlocks = 1 ∧ kmallocPrintStats h = .ok calls ∧
      transcript calls = statsText h.heapTotalBytes st := by
  obtain ⟨h, hcall⟩ := firstRequest_returns
  obtain ⟨st, calls, haccounts, hprint, htext⟩ := heap_accounted
    (ReflTransGen.single (Step.kmalloc 100 (by norm_num) hcall))
  exact ⟨h, st, calls, haccounts, haccounts.clients, hprint, htext⟩

end StakOS.Kmalloc
