import StakOS.Kmalloc.Coalesced

/-!
# What a request gets

When `kmalloc` serves a request and when it refuses one.  Rounding the size up to
a multiple of four wraps around for the three largest sizes, and `kmalloc_init`
makes one block of each frame without merging neighbours; both decide which
requests are answered as the caller expects.
-/

namespace StakOS.Kmalloc

open StakOS.Lib.Memory StakOS.Lib.Loop StakOS.Lib.Linked StakOS.Lib.Interval
open Relation (ReflTransGen)

/-! ## Rounding the size -/

theorem alignSize_eq {sz : Nat} (h : sz ≤ 0xFFFFFFFC) : alignSize sz = (sz + 3) / 4 * 4 := by
  unfold alignSize
  rw [add32_of_lt (by omega)]

theorem le_alignSize {sz : Nat} (h : sz ≤ 0xFFFFFFFC) : sz ≤ alignSize sz := by
  rw [alignSize_eq h]
  omega

/-- The three largest sizes are rounded to nothing. -/
theorem alignSize_top {sz : Nat} (hlow : 0xFFFFFFFC < sz) (hhigh : sz < 2 ^ 32) :
    alignSize sz = 0 := by
  unfold alignSize add32
  omega

/-! ## Refused and served requests -/

/-- When no block fits the request is refused. -/
theorem kmalloc_refused {h : Heap} {bs : List Block} {sz : Nat}
    (hl : HeapList h.mem h.heapStart bs)
    (hnone : ∀ c ∈ bs, ¬ (c.free ∧ alignSize sz ≤ c.size)) : kmalloc h sz = .ok (h, 0) := by
  rcases kmalloc_cases hl sz with ⟨hcall, -⟩ | ⟨pre, b, post, rfl, -, hfree, hfit, -, -⟩
  · exact hcall
  · exact absurd ⟨hfree, hfit⟩ (hnone b (by simp))

/-- The block at the head of the split has room for the request. -/
theorem carve_head {b : Block} {size : Nat} (hfit : size ≤ b.size) :
    ∃ c ∈ carve b size, c.addr = b.addr ∧ size ≤ c.size := by
  unfold carve
  by_cases hsmall : b.size ≤ size + 24
  · rw [if_pos hsmall]
    exact ⟨_, List.mem_singleton.mpr rfl, rfl, hfit⟩
  · rw [if_neg hsmall]
    exact ⟨_, List.mem_cons_self, rfl, le_refl size⟩

/-- What the caller of `kmalloc(sz)` relies on: the block behind a pointer has
room for `sz` bytes and was free, and a request above the size of every free
block is refused without a change. -/
structure Serves (h : Heap) (sz : Nat) (h' : Heap) (p : Nat) : Prop where
  room : p ≠ 0 → OnList h' (p - 16) ∧ sz ≤ size h'.mem (p - 16)
  wasFree : p ≠ 0 → OnList h (p - 16) ∧ free h.mem (p - 16) ≠ 0
  refused : (∀ b, OnList h b → free h.mem b ≠ 0 → size h.mem b < sz) → p = 0 ∧ h' = h

theorem Serves.of_null (h : Heap) (sz : Nat) : Serves h sz h 0 where
  room hne := absurd rfl hne
  wasFree hne := absurd rfl hne
  refused _ := ⟨rfl, rfl⟩

theorem Block.payload_sub (b : Block) : b.payload - 16 = b.addr := by
  unfold payload
  omega

theorem kmalloc_serves_of_le {h : Heap} {bs : List Block} {sz : Nat}
    (hl : HeapList h.mem h.heapStart bs) (hsz : sz ≤ 0xFFFFFFFC) :
    ∃ h' p, kmalloc h sz = .ok (h', p) ∧ Serves h sz h' p := by
  rcases kmalloc_cases hl sz with ⟨hcall, -⟩ | ⟨pre, b, post, rfl, -, hfree, hfit, -, hsome⟩
  · exact ⟨h, 0, hcall, Serves.of_null h sz⟩
  · obtain ⟨h', hret, -, hlist, -⟩ := kmalloc_refines hl sz
    rw [hsome] at hret hlist
    have hb := hl.header b (by simp)
    have hon : OnList h b.addr := hl.onList_iff.mpr ⟨b, by simp, rfl⟩
    refine ⟨h', b.payload, hret, ⟨?_, ?_, ?_⟩⟩
    · intro _
      obtain ⟨c, hc, haddr, hroom⟩ := carve_head hfit
      have hmem : c ∈ pre ++ carve b (alignSize sz) ++ post := by simp [hc]
      rw [b.payload_sub, ← haddr, (hlist.header c hmem).size]
      constructor
      · exact hlist.onList_iff.mpr ⟨c, hmem, rfl⟩
      · exact (le_alignSize hsz).trans hroom
    · intro _
      rw [b.payload_sub]
      exact ⟨hon, hb.free_iff.mpr hfree⟩
    · intro hall
      have hless := hall b.addr hon (hb.free_iff.mpr hfree)
      rw [hb.size] at hless
      have hle := (le_alignSize hsz).trans hfit
      omega

/-- A request that is rounded to nothing takes the first free block, whatever
its size. -/
theorem kmalloc_top {h h' : Heap} {bs : List Block} {sz p : Nat}
    (hl : HeapList h.mem h.heapStart bs) (hlow : 0xFFFFFFFC < sz) (hhigh : sz < 2 ^ 32)
    (hfree : ∃ b ∈ bs, b.free = true) (hcall : kmalloc h sz = .ok (h', p)) :
    p ≠ 0 ∧ ¬ (OnList h' (p - 16) ∧ sz ≤ size h'.mem (p - 16)) := by
  obtain ⟨h₁, hret, -, hlist, -⟩ := kmalloc_refines hl sz
  rw [hret] at hcall
  cases hcall
  constructor
  · rcases allocate_cases sz bs with ⟨-, hzero | hnone⟩ | ⟨pre, b, post, -, -, -, hsome⟩
    · omega
    · obtain ⟨b, hb, hbfree⟩ := hfree
      rw [alignSize_top hlow hhigh] at hnone
      exact absurd ⟨hbfree, Nat.zero_le _⟩ (not_fits_of_place_eq_none hnone b hb)
    · rw [hsome]
      unfold Block.payload
      simp
  · -- no block of the heap is that large
    rintro ⟨hon, hroom⟩
    obtain ⟨c, hc, haddr⟩ := hlist.onList_iff.mp hon
    have hbound := hlist.layout.bounded c hc
    rw [← haddr, (hlist.header c hc).size] at hroom
    unfold Block.fin at hbound
    omega

/-- `kmalloc` gives what was asked, unless the size is one of the three that are
rounded to nothing and some block is free. -/
theorem kmalloc_serves_iff (pages : Nat) (pmm : Pmm.State) (m : Mem) (s : Client)
    (hrun : ReflTransGen Step (afterInit pages pmm m) s) (sz : Nat) (hsz : sz < 2 ^ 32) :
    (∃ h' p, kmalloc s.heap sz = .ok (h', p) ∧ Serves s.heap sz h' p) ↔
      sz ≤ 0xFFFFFFFC ∨ ∀ b, OnList s.heap b → free s.heap.mem b = 0 := by
  obtain ⟨bs, hs⟩ := run_keeps hrun (afterInit_holds pages pmm m)
  constructor
  · rintro ⟨h', p, hcall, hserves⟩
    by_contra hno
    push Not at hno
    obtain ⟨hlow, x, hx, hxfree⟩ := hno
    obtain ⟨b, hb, rfl⟩ := hs.list.onList_iff.mp hx
    have hfree : ∃ b ∈ bs, b.free = true := ⟨b, hb, (hs.list.header b hb).free_iff.mp hxfree⟩
    obtain ⟨hp, hroom⟩ := kmalloc_top hs.list hlow hsz hfree hcall
    exact hroom (hserves.room hp)
  · rintro (hle | hnone)
    · exact kmalloc_serves_of_le hs.list hle
    · have hcall : kmalloc s.heap sz = .ok (s.heap, 0) := by
        apply kmalloc_refused hs.list
        rintro c hc ⟨hfree, -⟩
        apply (hs.list.header c hc).free_iff.mpr hfree
        exact hnone c.addr (hs.list.onList_iff.mpr ⟨c, hc, rfl⟩)
      exact ⟨s.heap, 0, hcall, Serves.of_null s.heap sz⟩

theorem kmalloc_serves_iff_hundred :
    ∃ h' p, kmalloc (afterInit 2 megabyteUsed fun _ => 0).heap 100 = .ok (h', p) ∧
      Serves (afterInit 2 megabyteUsed fun _ => 0).heap 100 h' p :=
  (kmalloc_serves_iff 2 megabyteUsed (fun _ => 0) _ ReflTransGen.refl 100 (by norm_num)).mpr
    (Or.inl (by norm_num))

/-- A request of almost 4 GB on a heap of two pages returns a pointer to a block
without a single byte. -/
theorem huge_request_served :
    ∃ h' : Heap, kmalloc (afterInit 2 megabyteUsed fun _ => 0).heap 0xFFFFFFFD =
        .ok (h', 0x100010) ∧ size h'.mem 0x100000 = 0 ∧
      ¬ Serves (afterInit 2 megabyteUsed fun _ => 0).heap 0xFFFFFFFD h' 0x100010 := by
  have heval : returnsWith (kmalloc (afterInit 2 megabyteUsed fun _ => 0).heap 0xFFFFFFFD)
      (fun r => decide (r.2 = 0x100010 ∧ size r.1.mem 0x100000 = 0)) = true := by decide +kernel
  obtain ⟨⟨h', p⟩, hcall, htest⟩ := returnsWith_iff.mp heval
  obtain ⟨rfl, hsize⟩ := of_decide_eq_true htest
  refine ⟨h', hcall, hsize, ?_⟩
  intro hserves
  have hroom := (hserves.room (by norm_num)).2
  have haddr : 0x100010 - 16 = 0x100000 := rfl
  rw [haddr, hsize] at hroom
  omega

/-! ## Exhaustion

Before the first `kfree` every free block lies in one frame and ends with it;
from then on no two free blocks touch.
-/

/-- Free blocks as `kmalloc_init` and `split` leave them. -/
def Fresh (bs : List Block) : Prop :=
  ∀ b ∈ bs, b.free = true → b.fin % Pmm.pageSize = 0 ∧ b.fin ≤ b.addr + Pmm.pageSize

theorem fresh_allocate {bs : List Block} (hfresh : Fresh bs) (sz : Nat) :
    Fresh (allocate sz bs).1 := by
  rcases allocate_cases sz bs with ⟨hnone, -⟩ | ⟨pre, b, post, rfl, hfree, -, hsome⟩
  · rw [hnone]
    exact hfresh
  · rw [hsome]
    intro c hc hcfree
    rcases List.mem_append.mp hc with hc | hc
    · rcases List.mem_append.mp hc with hc | hc
      · exact hfresh c (by simp [hc]) hcfree
      · obtain ⟨haddr, hfin⟩ := mem_carve_free hc hcfree
        obtain ⟨hmod, hend⟩ := hfresh b (by simp) hfree
        rw [hfin]
        exact ⟨hmod, by omega⟩
    · exact hfresh c (by simp [hc]) hcfree

theorem Step.keeps_fresh {bytes : Set Nat} {s s' : Client} (hstep : Step s s')
    (hs : ∃ bs, Holds bytes s bs ∧ (Merged bs ∨ Fresh bs)) :
    ∃ bs, Holds bytes s' bs ∧ (Merged bs ∨ Fresh bs) := by
  obtain ⟨bs, hs, hmf⟩ := hs
  cases hstep with
  | kmalloc sz hsz hcall =>
      refine ⟨_, hs.kmalloc hcall, ?_⟩
      apply hmf.imp
      · intro hmerged
        exact merged_allocate hs.list.layout hmerged sz
      · intro hfresh
        exact fresh_allocate hfresh sz
  | kfree hp hcall =>
      exact ⟨_, hs.kfree hp hcall, Or.inl (merged_deallocate hs.list.layout _)⟩
  | store v hp hlow hhigh => exact ⟨bs, hs.store v hp hlow hhigh, hmf⟩

theorem run_merged_or_fresh {pages : Nat} {pmm : Pmm.State} {m : Mem} {s : Client}
    (hrun : ReflTransGen Step (afterInit pages pmm m) s) :
    ∃ bs, Holds (frameBytes (heapFrames pages pmm m)) s bs ∧ (Merged bs ∨ Fresh bs) := by
  induction hrun with
  | refl =>
      obtain ⟨bs, hs, hframes⟩ := afterInit_frameBlocks pages pmm m
      refine ⟨bs, hs, Or.inr ?_⟩
      intro b hb _
      obtain ⟨f, rfl⟩ := hframes b hb
      rw [frameBlock_fin]
      show (f + 1) * 4096 % 4096 = 0 ∧ (f + 1) * 4096 ≤ f * 4096 + 4096
      omega
  | tail _ hstep ih => exact hstep.keeps_fresh ih

/-- The bytes of the free blocks on the list, headers included. -/
def freeMemory (h : Heap) : Set Nat :=
  { a | ∃ b, OnList h b ∧ free h.mem b ≠ 0 ∧ b ≤ a ∧ a < b + 16 + size h.mem b }

theorem HeapList.freeMemory_eq {h : Heap} {bs : List Block}
    (hl : HeapList h.mem h.heapStart bs) : freeMemory h = freeBytes bs := by
  ext a
  constructor
  · rintro ⟨x, hx, hfree, hlo, hhi⟩
    obtain ⟨b, hb, rfl⟩ := hl.onList_iff.mp hx
    rw [(hl.header b hb).size] at hhi
    exact ⟨b, hb, (hl.header b hb).free_iff.mp hfree, hlo, hhi⟩
  · rintro ⟨b, hb, hfree, hlo, hhi⟩
    refine ⟨b.addr, hl.onList_iff.mpr ⟨b, hb, rfl⟩, (hl.header b hb).free_iff.mpr hfree, hlo, ?_⟩
    rw [(hl.header b hb).size]
    exact hhi

/-- No maximal stretch of free bytes has room for the rounded size and a header. -/
def Exhausted (h : Heap) (sz : Nat) : Prop :=
  ∀ lo hi, MaximalRun (freeMemory h) lo hi → hi - lo < 16 + (sz + 3) / 4 * 4

/-- `kmalloc(sz)` returns `NULL` on an exhausted heap only. -/
def FailsOnlyExhausted (h : Heap) (sz : Nat) : Prop :=
  ∀ h', kmalloc h sz = .ok (h', 0) → Exhausted h sz

/-- A null pointer means that no block was large enough. -/
theorem not_fits_of_kmalloc_null {h h' : Heap} {bs : List Block} {sz : Nat}
    (hl : HeapList h.mem h.heapStart bs) (hsz : 0 < sz) (hcall : kmalloc h sz = .ok (h', 0)) :
    ∀ c ∈ bs, ¬ (c.free ∧ alignSize sz ≤ c.size) := by
  rcases allocate_cases sz bs with ⟨-, hzero | hnone⟩ | ⟨pre, b, post, rfl, -, -, hsome⟩
  · omega
  · exact not_fits_of_place_eq_none hnone
  · obtain ⟨h₁, hret, -⟩ := kmalloc_refines hl sz
    rw [hret, hsome] at hcall
    exfalso
    simp only [Except.ok.injEq, Prod.mk.injEq, Block.payload] at hcall
    omega

/-- When the free blocks are the stretches, no stretch is larger than a block. -/
theorem Merged.failsOnlyExhausted {h : Heap} {bs : List Block} {sz : Nat} (hmerged : Merged bs)
    (hl : HeapList h.mem h.heapStart bs) (hpos : 0 < sz) (hsz : sz ≤ 0xFFFFFFFC) :
    FailsOnlyExhausted h sz := by
  intro h' hcall lo hi hrun
  rw [hl.freeMemory_eq] at hrun
  obtain ⟨b, hb, hfree, rfl, rfl⟩ := (hmerged.maximalRun_iff hl.layout).mp hrun
  have hsmall : ¬ alignSize sz ≤ b.size := fun hfit =>
    not_fits_of_kmalloc_null hl hpos hcall b hb ⟨hfree, hfit⟩
  rw [alignSize_eq hsz] at hsmall
  unfold Block.fin
  omega

/-- Two fresh blocks touch only when the second is a whole frame. -/
theorem Fresh.size_of_touching {bs : List Block} (hfresh : Fresh bs) {b c : Block} (hb : b ∈ bs)
    (hc : c ∈ bs) (habs : b.Absorbs c) : c.size = 4080 := by
  obtain ⟨hbmod, -⟩ := hfresh b hb habs.1
  obtain ⟨hcmod, hcend⟩ := hfresh c hc habs.2.1
  have htouch := habs.2.2
  rw [← htouch] at hbmod
  unfold Block.fin at hcmod hcend
  unfold Pmm.pageSize at *
  omega

/-- When a small request is refused no whole frame is free, so nothing touches. -/
theorem Fresh.merged_of_null {h h' : Heap} {bs : List Block} {sz : Nat} (hfresh : Fresh bs)
    (hl : HeapList h.mem h.heapStart bs) (hpos : 0 < sz) (hsmall : alignSize sz ≤ 4080)
    (hcall : kmalloc h sz = .ok (h', 0)) : Merged bs := by
  intro b hb c hc habs
  apply not_fits_of_kmalloc_null hl hpos hcall c hc
  rw [hfresh.size_of_touching hb hc habs]
  exact ⟨habs.2.1, hsmall⟩

/-- Fresh blocks serve no request above one page. -/
theorem Fresh.kmalloc_null {h : Heap} {bs : List Block} {sz : Nat} (hfresh : Fresh bs)
    (hl : HeapList h.mem h.heapStart bs) (hlarge : 4080 < alignSize sz) :
    kmalloc h sz = .ok (h, 0) := by
  apply kmalloc_refused hl
  rintro c hc ⟨hfree, hfit⟩
  have hend := (hfresh c hc hfree).2
  unfold Block.fin Pmm.pageSize at hend
  omega

/-- `kmalloc` fails only when exhausted if no two free blocks touch, and so after
any `kfree`; before that exactly when the request fits one page or the heap has
no stretch of free frames for it. -/
theorem kmalloc_fails_only_exhausted_iff (pages : Nat) (pmm : Pmm.State) (m : Mem) (s : Client)
    (hrun : ReflTransGen Step (afterInit pages pmm m) s) (sz : Nat) (hpos : 0 < sz)
    (hsz : sz ≤ 0xFFFFFFFC) :
    FailsOnlyExhausted s.heap sz ↔
      NoAdjacentFree s.heap ∨ (sz + 3) / 4 * 4 ≤ 4080 ∨ Exhausted s.heap sz := by
  obtain ⟨bs, hs, hmf⟩ := run_merged_or_fresh hrun
  rw [hs.list.noAdjacentFree_iff, ← alignSize_eq hsz]
  constructor
  · intro hfails
    by_contra hno
    push Not at hno
    obtain ⟨hnotMerged, hlarge, hroom⟩ := hno
    have hfresh := hmf.resolve_left hnotMerged
    exact hroom (hfails s.heap (hfresh.kmalloc_null hs.list hlarge))
  · rintro (hmerged | hsmall | hexhausted)
    · exact hmerged.failsOnlyExhausted hs.list hpos hsz
    · intro h' hcall
      have hmerged : Merged bs := by
        apply hmf.elim id
        intro hfresh
        exact hfresh.merged_of_null hs.list hpos hsmall hcall
      exact hmerged.failsOnlyExhausted hs.list hpos hsz h' hcall
    · intro h' _
      exact hexhausted

theorem kmalloc_fails_only_exhausted_iff_hundred :
    FailsOnlyExhausted (afterInit 2 megabyteUsed fun _ => 0).heap 100 :=
  (kmalloc_fails_only_exhausted_iff 2 megabyteUsed (fun _ => 0) _ ReflTransGen.refl 100
    (by norm_num) (by norm_num)).mpr (Or.inr (Or.inl (by norm_num)))

/-- The heap of two neighbouring frames at one megabyte. -/
theorem heapList_twoFrames :
    HeapList (afterInit 2 megabyteUsed fun _ => 0).heap.mem
      (afterInit 2 megabyteUsed fun _ => 0).heap.heapStart [frameBlock 256, frameBlock 257] := by
  refine ⟨?_, ?_, ?_⟩
  · refine ⟨by decide, by decide, by decide, by decide⟩
  · intro b hb
    rcases List.mem_cons.mp hb with rfl | hb
    · exact ⟨by decide +kernel, by decide +kernel, by decide +kernel⟩
    · rw [List.mem_singleton.mp hb]
      exact ⟨by decide +kernel, by decide +kernel, by decide +kernel⟩
  · decide +kernel

/-- Right after `kmalloc_init` two free frames in a row do not serve a request
of 5000 bytes. -/
theorem large_request_refused :
    ¬ FailsOnlyExhausted (afterInit 2 megabyteUsed fun _ => 0).heap 5000 := by
  intro hfails
  have hl := heapList_twoFrames
  have hnull : kmalloc (afterInit 2 megabyteUsed fun _ => 0).heap 5000 =
      .ok ((afterInit 2 megabyteUsed fun _ => 0).heap, 0) := by
    apply kmalloc_refused hl
    decide
  have hstretch : MaximalRun (freeMemory (afterInit 2 megabyteUsed fun _ => 0).heap)
      0x100000 0x102000 := by
    rw [hl.freeMemory_eq]
    have hmem : ∀ a, a ∈ freeBytes [frameBlock 256, frameBlock 257] ↔
        0x100000 ≤ a ∧ a < 0x102000 := by
      intro a
      simp only [freeBytes, Set.mem_ofPred_eq, List.mem_cons, List.not_mem_nil, or_false,
        exists_eq_or_imp, exists_eq_left, frameBlock, Block.fin, Pmm.pageSize, blockHeaderSize,
        true_and]
      omega
    constructor
    · norm_num
    · intro a hlo hhi
      exact (hmem a).mpr ⟨hlo, hhi⟩
    · intro a ha hin
      have hlo := ((hmem a).mp hin).1
      omega
    · intro hin
      have hhi := ((hmem _).mp hin).2
      omega
  have hless := hfails _ hnull _ _ hstretch
  norm_num at hless

end StakOS.Kmalloc
