import Mathlib.Data.List.Sort
import StakOS.Lib.Interval
import StakOS.Kmalloc.Runs

/-!
# Free blocks that do not touch

One pass of `coalesce` leaves no two free blocks next to each other, and
allocating keeps it so.  The free blocks are then the maximal stretches of free
bytes.  Once everything has been freed these are the stretches of contiguous
heap frames, so that the final list does not depend on the order of the frees.
-/

namespace StakOS.Kmalloc

open StakOS.Lib.Memory StakOS.Lib.Loop StakOS.Lib.Linked StakOS.Lib.Interval
open Relation (ReflTransGen)

/-! ## Merged arenas -/

/-- No free block begins where another one ends. -/
def Merged (bs : List Block) : Prop := ∀ b ∈ bs, ∀ c ∈ bs, ¬ b.Absorbs c

/-- The bytes of free blocks, headers included. -/
def freeBytes (bs : List Block) : Set Nat :=
  { a | ∃ b ∈ bs, b.free = true ∧ b.addr ≤ a ∧ a < b.fin }

theorem Block.addr_lt_fin (b : Block) : b.addr < b.fin := by
  unfold fin
  omega

theorem mergeFrom_isChain (b : Block) (bs : List Block) :
    (mergeFrom b bs).IsChain fun b c => ¬ b.Absorbs c := by
  induction bs generalizing b with
  | nil => exact List.IsChain.singleton b
  | cons c bs ih =>
      by_cases hm : b.free ∧ c.free ∧ c.addr = b.fin
      · rw [mergeFrom_touching hm.1 hm.2.1 hm.2.2]
        exact ih (b.join c)
      · rw [mergeFrom_apart hm]
        -- the block behind `b` keeps the address and the state of `c`
        obtain ⟨-, rest, c', -, hmerge, -, haddr, hfree, -, -⟩ := mergeFrom_split c bs
        have hrest := ih c
        rw [hmerge] at hrest ⊢
        apply List.IsChain.cons_cons _ hrest
        rintro ⟨hb, hc, htouch⟩
        exact hm ⟨hb, hfree ▸ hc, haddr ▸ htouch⟩

/-- In an arena only neighbours in the list can touch. -/
theorem merged_of_isChain {bs : List Block} (h : Layout bs)
    (hchain : bs.IsChain fun b c => ¬ b.Absorbs c) : Merged bs := by
  induction bs with
  | nil =>
      intro b hb
      cases hb
  | cons d bs ih =>
      obtain ⟨⟨-, -, -, -, hbefore⟩, hrest⟩ := Layout.cons_iff.mp h
      have hmerged := ih hrest (List.isChain_of_isChain_cons hchain)
      intro b hb c hc habs
      have hbfin := b.addr_lt_fin
      have hcfin := c.addr_lt_fin
      have htouch := habs.2.2
      rcases List.mem_cons.mp hb with rfl | hb'
      · rcases List.mem_cons.mp hc with rfl | hc'
        · omega
        · cases bs with
          | nil => cases hc'
          | cons e bs =>
              have hne := (List.isChain_cons_cons.mp hchain).1
              rcases List.mem_cons.mp hc' with rfl | hce
              · exact hne habs
              · -- a block between the two would leave a gap
                have hbe := hbefore e (by simp)
                have hec := (Layout.cons_iff.mp hrest).1.2.2.2.2 c hce
                have hefin := e.addr_lt_fin
                omega
      · rcases List.mem_cons.mp hc with rfl | hc'
        · have hcb := hbefore b hb'
          omega
        · exact hmerged b hb' c hc' habs

theorem merged_merge {bs : List Block} (h : Layout bs) : Merged (merge bs) := by
  apply merged_of_isChain (layout_merge h)
  cases bs with
  | nil => exact List.IsChain.nil
  | cons b bs => exact mergeFrom_isChain b bs

theorem merged_deallocate {bs : List Block} (h : Layout bs) (p : Nat) :
    Merged (deallocate p bs) :=
  merged_merge (layout_release p h)

/-- A free block of an arena after an allocation is old, or the end of the one
that served the request. -/
theorem mem_carve_free {b c : Block} {size : Nat} (hc : c ∈ carve b size)
    (hfree : c.free = true) : b.addr < c.addr ∧ c.fin = b.fin := by
  unfold carve at hc
  by_cases hsmall : b.size ≤ size + 24
  · rw [if_pos hsmall, List.mem_singleton] at hc
    subst hc
    cases hfree
  · rw [if_neg hsmall] at hc
    rcases List.mem_cons.mp hc with rfl | hc
    · cases hfree
    · rw [List.mem_singleton.mp hc]
      unfold Block.fin
      simp only
      omega

theorem merged_carve {pre post : List Block} {b : Block} {size : Nat}
    (h : Layout (pre ++ b :: post)) (hfree : b.free = true) (hmerged : Merged (pre ++ b :: post)) :
    Merged (pre ++ carve b size ++ post) := by
  have hold : ∀ c ∈ pre ++ carve b size ++ post, c.free = true →
      ∃ d ∈ pre ++ b :: post, d.free = true ∧ d.fin = c.fin ∧ (d = c ∨ d = b ∧ b.addr < c.addr) := by
    intro c hc hcfree
    rcases List.mem_append.mp hc with hc | hc
    · rcases List.mem_append.mp hc with hc | hc
      · exact ⟨c, by simp [hc], hcfree, rfl, Or.inl rfl⟩
      · obtain ⟨haddr, hfin⟩ := mem_carve_free hc hcfree
        exact ⟨b, by simp, hfree, hfin.symm, Or.inr ⟨rfl, haddr⟩⟩
    · exact ⟨c, by simp [hc], hcfree, rfl, Or.inl rfl⟩
  intro c hc e he habs
  obtain ⟨c', hc', hcfree, hcfin, -⟩ := hold c hc habs.1
  obtain ⟨e', he', hefree, hefin, heq⟩ := hold e he habs.2.1
  have htouch := habs.2.2
  rcases heq with rfl | ⟨rfl, hlow⟩
  · exact hmerged c' hc' e' he' ⟨hcfree, hefree, by rw [hcfin]; exact htouch⟩
  · -- nothing ends inside the block that was split
    have hlt := e.addr_lt_fin
    have hclt := c'.addr_lt_fin
    rcases h.eq_or_apart hc' he' with rfl | hapart
    · omega
    · omega

theorem merged_allocate {bs : List Block} (h : Layout bs) (hmerged : Merged bs) (sz : Nat) :
    Merged (allocate sz bs).1 := by
  rcases allocate_cases sz bs with ⟨hnone, -⟩ | ⟨pre, b, post, rfl, hfree, -, hsome⟩
  · rw [hnone]
    exact hmerged
  · rw [hsome]
    exact merged_carve h hfree hmerged

/-- In a merged arena a free block is a maximal stretch of free bytes. -/
theorem Merged.maximalRun {bs : List Block} (hmerged : Merged bs) (h : Layout bs) {b : Block}
    (hb : b ∈ bs) (hfree : b.free = true) : MaximalRun (freeBytes bs) b.addr b.fin where
  nonempty := b.addr_lt_fin
  inside a hlo hhi := ⟨b, hb, hfree, hlo, hhi⟩
  left a ha := by
    rintro ⟨c, hc, hcfree, hlo, hhi⟩
    rcases h.eq_or_apart hc hb with rfl | hcb | hbc
    · omega
    · exact hmerged c hc b hb ⟨hcfree, hfree, by omega⟩
    · have hlt := b.addr_lt_fin
      omega
  right := by
    rintro ⟨c, hc, hcfree, hlo, hhi⟩
    rcases h.eq_or_apart hc hb with rfl | hcb | hbc
    · omega
    · have hlt := b.addr_lt_fin
      omega
    · exact hmerged b hb c hc ⟨hfree, hcfree, by omega⟩

/-- Conversely every maximal stretch of free bytes is one block. -/
theorem Merged.maximalRun_iff {bs : List Block} (hmerged : Merged bs) (h : Layout bs)
    {lo hi : Nat} :
    MaximalRun (freeBytes bs) lo hi ↔
      ∃ b ∈ bs, b.free = true ∧ b.addr = lo ∧ b.fin = hi := by
  constructor
  · intro hrun
    obtain ⟨b, hb, hfree, hlo, hhi⟩ := hrun.inside lo (le_refl lo) hrun.nonempty
    exact ⟨b, hb, hfree,
      (hmerged.maximalRun h hb hfree).unique hrun hlo hhi (le_refl lo) hrun.nonempty⟩
  · rintro ⟨b, hb, hfree, rfl, rfl⟩
    exact hmerged.maximalRun h hb hfree

/-! ### The order of frees -/

/-- The bytes that are free are those no block handed out covers. -/
theorem mem_freeBytes_iff {bs : List Block} (h : Layout bs) {a : Nat} :
    a ∈ freeBytes bs ↔ a ∈ covered bs ∧ ∀ b ∈ live bs, ¬(b.addr ≤ a ∧ a < b.fin) := by
  constructor
  · rintro ⟨b, hb, hfree, hlo, hhi⟩
    refine ⟨⟨b, hb, hlo, hhi⟩, fun c hc hac => ?_⟩
    obtain ⟨hc, hused⟩ := mem_live.mp hc
    rcases h.eq_or_apart hb hc with rfl | hapart
    · rw [hfree] at hused
      cases hused
    · omega
  · rintro ⟨⟨b, hb, hlo, hhi⟩, hout⟩
    refine ⟨b, hb, ?_, hlo, hhi⟩
    by_contra hused
    exact hout b (mem_live.mpr ⟨hb, Bool.not_eq_true _ ▸ hused⟩) ⟨hlo, hhi⟩

theorem Merged.subset {bs cs : List Block} (hb : Layout bs) (hc : Layout cs) (hbm : Merged bs)
    (hcm : Merged cs) (hbytes : covered bs = covered cs) (hlive : ∀ b, b ∈ live bs ↔ b ∈ live cs)
    {b : Block} (hmem : b ∈ bs) : b ∈ cs := by
  cases hfree : b.free with
  | false => exact (mem_live.mp ((hlive b).mp (mem_live.mpr ⟨hmem, hfree⟩))).1
  | true =>
      have hsame : freeBytes bs = freeBytes cs := by
        ext a
        rw [mem_freeBytes_iff hb, mem_freeBytes_iff hc, hbytes]
        simp only [hlive]
      have hrun := hbm.maximalRun hb hmem hfree
      rw [hsame] at hrun
      obtain ⟨c, hcmem, hcfree, haddr, hfin⟩ := (hcm.maximalRun_iff hc).mp hrun
      have heq : b = c := by
        cases b
        cases c
        simp only [Block.mk.injEq]
        unfold Block.fin at hfin
        simp only at hfree hcfree haddr hfin
        exact ⟨haddr.symm, by omega, hfree.trans hcfree.symm⟩
      rw [heq]
      exact hcmem

/-- A merged arena is determined by its bytes and the blocks that are handed out. -/
theorem Merged.ext {bs cs : List Block} (hb : Layout bs) (hc : Layout cs) (hbm : Merged bs)
    (hcm : Merged cs) (hbytes : covered bs = covered cs)
    (hlive : ∀ b, b ∈ live bs ↔ b ∈ live cs) : bs = cs := by
  have hirrefl : Std.Irrefl fun b c : Block => b.fin ≤ c.addr :=
    ⟨fun b => Nat.not_le_of_lt b.addr_lt_fin⟩
  have hanti : Std.Antisymm fun b c : Block => b.fin ≤ c.addr :=
    ⟨fun b c hbc hcb => by
      have hb := b.addr_lt_fin
      have hc := c.addr_lt_fin
      omega⟩
  apply hb.sorted.eq_of_mem_iff hc.sorted
  intro b
  exact ⟨hbm.subset hb hc hcm hbytes hlive,
    hcm.subset hc hb hbm hbytes.symm fun b => (hlive b).symm⟩

theorem layout_deallocate {bs : List Block} (h : Layout bs) (p : Nat) : Layout (deallocate p bs) :=
  layout_merge (layout_release p h)

theorem covered_deallocate (p : Nat) (bs : List Block) : covered (deallocate p bs) = covered bs :=
  (covered_merge _).trans (covered_release p bs)

theorem mem_live_deallocate {p : Nat} {bs : List Block} {b : Block} :
    b ∈ live (deallocate p bs) ↔ b ∈ live bs ∧ b.payload ≠ p := by
  unfold deallocate
  rw [live_merge, mem_live_release]

/-- Two frees can be exchanged. -/
theorem deallocate_comm {bs : List Block} (h : Layout bs) (p q : Nat) :
    deallocate p (deallocate q bs) = deallocate q (deallocate p bs) := by
  have hp := layout_deallocate h p
  have hq := layout_deallocate h q
  apply Merged.ext (layout_deallocate hq p) (layout_deallocate hp q) (merged_deallocate hq p)
    (merged_deallocate hp q)
  · simp only [covered_deallocate]
  · intro b
    simp only [mem_live_deallocate, and_assoc, and_comm (a := b.payload ≠ p)]

/-- The blocks behind a series of frees do not depend on its order. -/
theorem deallocate_perm {bs : List Block} (h : Layout bs) {ps ps' : List Nat} (hperm : ps.Perm ps') :
    ps.foldl (fun bs p => deallocate p bs) bs = ps'.foldl (fun bs p => deallocate p bs) bs := by
  induction hperm generalizing bs with
  | nil => rfl
  | cons p _ ih => exact ih (layout_deallocate h p)
  | swap p q ps => simp only [List.foldl_cons, deallocate_comm h]
  | trans _ _ ih ih' => exact (ih h).trans (ih' h)

/-! ## The list in memory -/

/-- `b` is a header on the list from `heap_start`. -/
def OnList (h : Heap) (b : Nat) : Prop :=
  ∃ blocks, Chain (next h.mem) h.heapStart blocks 0 ∧ 0 ∉ blocks ∧ b ∈ blocks

theorem HeapList.onList_iff {h : Heap} {bs : List Block} (hl : HeapList h.mem h.heapStart bs)
    {x : Nat} : OnList h x ↔ ∃ b ∈ bs, b.addr = x := by
  constructor
  · rintro ⟨blocks, hchain, hzero, hx⟩
    have heq := hchain.unique hl.chain hzero hl.layout.zero_notMem
    rw [heq] at hx
    exact List.mem_map.mp hx
  · intro hx
    exact ⟨bs.map Block.addr, hl.chain, hl.layout.zero_notMem, List.mem_map.mpr hx⟩

/-- A block of `n` bytes with its header at `x` is handed out. -/
def LiveBlock (h : Heap) (x n : Nat) : Prop := OnList h x ∧ free h.mem x = 0 ∧ size h.mem x = n

theorem HeapList.liveBlock_iff {h : Heap} {bs : List Block} (hl : HeapList h.mem h.heapStart bs)
    {x n : Nat} : LiveBlock h x n ↔ ∃ b ∈ live bs, b.addr = x ∧ b.size = n := by
  have hused : ∀ b ∈ bs, free h.mem b.addr = 0 ↔ b.free = false := by
    intro b hb
    rw [← Bool.not_eq_true, ← (hl.header b hb).free_iff, ne_eq, not_not]
  constructor
  · rintro ⟨hon, hfree, hsize⟩
    obtain ⟨b, hb, rfl⟩ := hl.onList_iff.mp hon
    rw [(hl.header b hb).size] at hsize
    exact ⟨b, mem_live.mpr ⟨hb, (hused b hb).mp hfree⟩, rfl, hsize⟩
  · rintro ⟨b, hb, rfl, rfl⟩
    obtain ⟨hb, hfree⟩ := mem_live.mp hb
    exact ⟨hl.onList_iff.mpr ⟨b, hb, rfl⟩, (hused b hb).mpr hfree, (hl.header b hb).size⟩

/-- The block that serves a request is the only one that becomes live. -/
theorem mem_live_carve {pre post : List Block} {b c : Block} {size : Nat} (hfree : b.free = true)
    (h : Layout (pre ++ b :: post)) :
    c ∈ live (pre ++ carve b size ++ post) ∧ c.payload ≠ b.payload ↔
      c ∈ live (pre ++ b :: post) := by
  have hcarve : ∀ d ∈ live (carve b size), d.payload = b.payload := by
    intro d hd
    obtain ⟨hd, hused⟩ := mem_live.mp hd
    have hmem : d.payload ∈ used (carve b size) := mem_used.mpr ⟨d, hd, hused, rfl⟩
    rw [used_carve] at hmem
    exact List.mem_singleton.mp hmem
  have hb : live [b] = [] := by simp [live, hfree]
  have hsplit : live (pre ++ b :: post) = live pre ++ live post := by
    rw [List.append_cons, live_append, live_append, hb, List.append_nil]
  rw [hsplit, live_append, live_append, List.mem_append, List.mem_append, List.mem_append]
  constructor
  · rintro ⟨(hc | hc) | hc, hne⟩
    · exact Or.inl hc
    · exact absurd (hcarve c hc) hne
    · exact Or.inr hc
  · intro hc
    refine ⟨hc.imp Or.inl id, fun hpay => ?_⟩
    have hin : c ∈ live (pre ++ b :: post) := by
      rw [hsplit]
      exact List.mem_append.mpr hc
    apply payload_notMem_used h (b := b) (by simp) hfree
    rw [← hpay]
    exact mem_used.mpr ⟨c, (mem_live.mp hin).1, (mem_live.mp hin).2, rfl⟩

/-- The list behind a block that is taken and given back. -/
theorem kmalloc_kfree_list {h h₁ h₂ : Heap} {bs : List Block} {sz p : Nat}
    (hl : HeapList h.mem h.heapStart bs) (hret : kmalloc h sz = .ok (h₁, p)) (hp : p ≠ 0)
    (hfree : kfree h₁ p = .ok h₂) :
    ∃ pre b post, bs = pre ++ b :: post ∧ b.free = true ∧ alignSize sz ≤ b.size ∧
      HeapList h₂.mem h₂.heapStart (deallocate b.payload (pre ++ carve b (alignSize sz) ++ post)) := by
  rcases kmalloc_cases hl sz with ⟨hnone, -⟩ | ⟨pre, b, post, rfl, -, hbfree, hfit, hsome, -⟩
  · rw [hret] at hnone
    cases hnone
    exact absurd rfl hp
  · rw [hret] at hsome
    cases hsome
    have hl₁ := heapList_takeBlock hl hfit (alignSize_mod sz)
    have hused : b.payload ∈ used (pre ++ carve b (alignSize sz) ++ post) :=
      (mem_used_allocate hbfree).mpr (Or.inl rfl)
    obtain ⟨m₂, hfree', hl₂, -⟩ := kfree_refines
      (h := { h with mem := takeBlock h.mem b.addr (alignSize sz) }) hl₁ hused
    rw [hfree] at hfree'
    cases hfree'
    exact ⟨pre, b, post, rfl, hbfree, hfit, hl₂⟩

/-- A block that is taken and given back leaves the others handed out as they were. -/
theorem kmalloc_kfree_live {h h₁ h₂ : Heap} {bs : List Block} {sz p : Nat}
    (hl : HeapList h.mem h.heapStart bs) (hret : kmalloc h sz = .ok (h₁, p)) (hp : p ≠ 0)
    (hfree : kfree h₁ p = .ok h₂) {x n : Nat} : LiveBlock h₂ x n ↔ LiveBlock h x n := by
  obtain ⟨pre, b, post, rfl, hbfree, -, hl₂⟩ := kmalloc_kfree_list hl hret hp hfree
  rw [hl.liveBlock_iff, hl₂.liveBlock_iff]
  simp only [mem_live_deallocate, mem_live_carve hbfree hl.layout]

/-! ### Room -/

/-- Some free block is large enough for a request. -/
def Fits (sz : Nat) (bs : List Block) : Prop := ∃ b ∈ bs, b.free = true ∧ alignSize sz ≤ b.size

/-- Merging only enlarges free blocks. -/
theorem mergeFrom_enlarges {b c : Block} {bs : List Block} (hc : c ∈ b :: bs)
    (hfree : c.free = true) : ∃ d ∈ mergeFrom b bs, d.free = true ∧ c.size ≤ d.size := by
  induction bs generalizing b c with
  | nil => exact ⟨b, List.mem_singleton_self b, List.mem_singleton.mp hc ▸ hfree,
      (List.mem_singleton.mp hc ▸ le_refl c.size)⟩
  | cons e bs ih =>
      by_cases hm : b.free ∧ e.free ∧ e.addr = b.fin
      · rw [mergeFrom_touching hm.1 hm.2.1 hm.2.2]
        have hjoin : ∀ n, n ≤ (b.join e).size →
            ∃ d ∈ mergeFrom (b.join e) bs, d.free = true ∧ n ≤ d.size := by
          intro n hn
          obtain ⟨d, hd, hdfree, hsize⟩ := ih (b := b.join e) List.mem_cons_self hm.1
          exact ⟨d, hd, hdfree, hn.trans hsize⟩
        rcases List.mem_cons.mp hc with rfl | hc
        · exact hjoin _ (by unfold Block.join; simp only; omega)
        · rcases List.mem_cons.mp hc with rfl | hc
          · exact hjoin _ (by unfold Block.join; simp only; omega)
          · exact ih (List.mem_cons_of_mem _ hc) hfree
      · rw [mergeFrom_apart hm]
        rcases List.mem_cons.mp hc with rfl | hc
        · exact ⟨c, List.mem_cons_self, hfree, le_refl _⟩
        · obtain ⟨d, hd, hrest⟩ := ih hc hfree
          exact ⟨d, List.mem_cons_of_mem b hd, hrest⟩

theorem Fits.merge {sz : Nat} {bs : List Block} (h : Fits sz bs) : Fits sz (merge bs) := by
  obtain ⟨c, hc, hfree, hfit⟩ := h
  cases bs with
  | nil => cases hc
  | cons b bs =>
      obtain ⟨d, hd, hdfree, hsize⟩ := mergeFrom_enlarges hc hfree
      exact ⟨d, hd, hdfree, hfit.trans hsize⟩

theorem Fits.deallocate {sz : Nat} {bs : List Block} (h : Fits sz bs) (p : Nat) :
    Fits sz (deallocate p bs) := by
  obtain ⟨b, hb, hfree, hfit⟩ := h
  apply Fits.merge
  refine ⟨b.releasedAt p, List.mem_map.mpr ⟨b, hb, rfl⟩, ?_, by simpa using hfit⟩
  unfold Block.releasedAt
  split
  · rfl
  · exact hfree

theorem Fits.deallocateAll {sz : Nat} {bs : List Block} (h : Fits sz bs) (ps : List Nat) :
    Fits sz (ps.foldl (fun bs p => Kmalloc.deallocate p bs) bs) := by
  induction ps generalizing bs with
  | nil => exact h
  | cons p ps ih => exact ih (h.deallocate p)

theorem fits_of_kmalloc {h h' : Heap} {bs : List Block} {sz p : Nat}
    (hl : HeapList h.mem h.heapStart bs) (hret : kmalloc h sz = .ok (h', p)) (hp : p ≠ 0) :
    Fits sz bs := by
  rcases kmalloc_cases hl sz with ⟨hnone, -⟩ | ⟨pre, b, post, rfl, -, hfree, hfit, -, -⟩
  · rw [hret] at hnone
    cases hnone
    exact absurd rfl hp
  · exact ⟨b, by simp, hfree, hfit⟩

theorem kmalloc_of_fits {h h' : Heap} {bs : List Block} {sz p : Nat}
    (hl : HeapList h.mem h.heapStart bs) (hsz : sz ≠ 0) (hfits : Fits sz bs)
    (hret : kmalloc h sz = .ok (h', p)) : p ≠ 0 := by
  rcases kmalloc_cases hl sz with ⟨-, hnone⟩ | ⟨pre, b, post, -, -, -, -, hsome, -⟩
  · obtain ⟨c, hc, hfree, hfit⟩ := hfits
    rcases allocate_cases sz bs with ⟨-, hzero | hplace⟩ | ⟨pre, b, post, -, -, -, hsome⟩
    · exact absurd hzero hsz
    · exact absurd ⟨hfree, hfit⟩ (not_fits_of_place_eq_none hplace c hc)
    · rw [hnone] at hsome
      have hpay : 0 = b.payload := congrArg Prod.snd hsome
      unfold Block.payload at hpay
      omega
  · rw [hret] at hsome
    cases hsome
    unfold Block.payload
    omega

/-- A block that is taken and given back can be taken again. -/
theorem kmalloc_kfree_fits {h h₁ h₂ : Heap} {bs : List Block} {sz p : Nat}
    (hl : HeapList h.mem h.heapStart bs) (hret : kmalloc h sz = .ok (h₁, p)) (hp : p ≠ 0)
    (hfree : kfree h₁ p = .ok h₂) : ∃ bs₂, HeapList h₂.mem h₂.heapStart bs₂ ∧ Fits sz bs₂ := by
  obtain ⟨pre, b, post, -, -, hfit, hl₂⟩ := kmalloc_kfree_list hl hret hp hfree
  refine ⟨_, hl₂, Fits.merge ?_⟩
  have hfirst : ∃ c ∈ carve b (alignSize sz), c.payload = b.payload ∧ alignSize sz ≤ c.size := by
    unfold carve
    split
    · exact ⟨_, List.mem_cons_self, rfl, hfit⟩
    · exact ⟨_, List.mem_cons_self, rfl, le_refl _⟩
  obtain ⟨c, hc, hpay, hsize⟩ := hfirst
  refine ⟨c.releasedAt b.payload, List.mem_map.mpr ⟨c, by simp [hc], rfl⟩, ?_, by simpa using hsize⟩
  unfold Block.releasedAt
  rw [if_pos hpay]

/-- No free block of the list ends at the header of another one. -/
def NoAdjacentFree (h : Heap) : Prop :=
  ∀ b c, OnList h b → OnList h c → free h.mem b ≠ 0 → free h.mem c ≠ 0 →
    c ≠ b + 16 + size h.mem b

theorem HeapList.noAdjacentFree_iff {h : Heap} {bs : List Block}
    (hl : HeapList h.mem h.heapStart bs) : NoAdjacentFree h ↔ Merged bs := by
  constructor
  · intro hno b hb c hc habs
    apply hno b.addr c.addr (hl.onList_iff.mpr ⟨b, hb, rfl⟩) (hl.onList_iff.mpr ⟨c, hc, rfl⟩)
    · exact (hl.header b hb).free_iff.mpr habs.1
    · exact (hl.header c hc).free_iff.mpr habs.2.1
    · rw [(hl.header b hb).size]
      exact habs.2.2
  · intro hmerged x y hx hy hxfree hyfree htouch
    obtain ⟨b, hb, rfl⟩ := hl.onList_iff.mp hx
    obtain ⟨c, hc, rfl⟩ := hl.onList_iff.mp hy
    rw [(hl.header b hb).size] at htouch
    exact hmerged b hb c hc ⟨(hl.header b hb).free_iff.mp hxfree,
      (hl.header c hc).free_iff.mp hyfree, htouch⟩

/-! ## Histories with a free in them -/

/-- Once merged, always merged. -/
theorem Step.keeps_merged {bytes : Set Nat} {s s' : Client} (hstep : Step s s')
    (hs : ∃ bs, Holds bytes s bs ∧ Merged bs) : ∃ bs, Holds bytes s' bs ∧ Merged bs := by
  obtain ⟨bs, hs, hmerged⟩ := hs
  cases hstep with
  | kmalloc sz hsz hcall => exact ⟨_, hs.kmalloc hcall, merged_allocate hs.list.layout hmerged sz⟩
  | kfree hp hcall => exact ⟨_, hs.kfree hp hcall, merged_deallocate hs.list.layout _⟩
  | store v hp hlow hhigh => exact ⟨bs, hs.store v hp hlow hhigh, hmerged⟩

theorem run_keeps_merged {bytes : Set Nat} {s s' : Client} (hrun : ReflTransGen Step s s')
    (hs : ∃ bs, Holds bytes s bs ∧ Merged bs) : ∃ bs, Holds bytes s' bs ∧ Merged bs := by
  induction hrun with
  | refl => exact hs
  | tail _ hstep ih => exact hstep.keeps_merged ih

/-- A run from `kmalloc_init` with at least one `kfree` in it, at the end of
which every allocation has been freed. -/
def FreedAll (pages : Nat) (pmm : Pmm.State) (m : Mem) (s : Client) : Prop :=
  ∃ (s₁ : Client) (p : Nat) (h' : Heap), ReflTransGen Step (afterInit pages pmm m) s₁ ∧
    p ∈ s₁.live ∧ kfree s₁.heap p = .ok h' ∧ ReflTransGen Step ⟨h', s₁.live.erase p⟩ s ∧
    s.live = []

/-- The list from `heap_start` has one free block for each maximal run of
contiguous frames: the run from frame `f` to frame `g - 1` is one block. -/
structure OneBlockPerRun (frames : Set Nat) (h : Heap) (blocks : List Nat) : Prop where
  list : Chain (next h.mem) h.heapStart blocks 0
  nonNull : 0 ∉ blocks
  increasing : blocks.Pairwise (· < ·)
  mem : ∀ b, b ∈ blocks ↔ ∃ f g, MaximalRun frames f g ∧ b = f * Pmm.pageSize
  free : ∀ b ∈ blocks, free h.mem b = 1
  size : ∀ f g, MaximalRun frames f g →
    size h.mem (f * Pmm.pageSize) = 4096 * (g - f) - 16

/-- The list is determined by the frames. -/
theorem OneBlockPerRun.unique {frames : Set Nat} {h h' : Heap} {blocks blocks' : List Nat}
    (hb : OneBlockPerRun frames h blocks) (hb' : OneBlockPerRun frames h' blocks') :
    blocks = blocks' := by
  apply hb.increasing.eq_of_mem_iff hb'.increasing
  intro b
  rw [hb.mem b, hb'.mem b]

/-- An arena without allocations is free throughout. -/
theorem free_of_used_nil {bs : List Block} (hused : used bs = []) : ∀ b ∈ bs, b.free = true := by
  intro b hb
  by_contra hne
  have hmem : b.payload ∈ used bs := mem_used.mpr ⟨b, hb, by simpa using hne, rfl⟩
  rw [hused] at hmem
  cases hmem

theorem Holds.oneBlockPerRun {frames : Set Nat} {s : Client} {bs : List Block}
    (hs : Holds (frameBytes frames) s bs) (hmerged : Merged bs) (hlive : s.live = []) :
    OneBlockPerRun frames s.heap (bs.map Block.addr) := by
  have hlay := hs.list.layout
  have hfree : ∀ b ∈ bs, b.free = true := by
    apply free_of_used_nil
    apply List.eq_nil_iff_forall_not_mem.mpr
    intro p hp
    have hmem := (hs.live p).mpr hp
    rw [hlive] at hmem
    cases hmem
  have hbytes : freeBytes bs = frameBytes frames := by
    rw [← hs.bytes]
    ext a
    constructor
    · rintro ⟨b, hb, -, hab⟩
      exact ⟨b, hb, hab⟩
    · rintro ⟨b, hb, hab⟩
      exact ⟨b, hb, hfree b hb, hab⟩
  -- runs of frames and blocks are both the maximal runs of heap bytes
  have hrun : ∀ lo hi, (∃ f g, MaximalRun frames f g ∧ lo = f * Pmm.pageSize ∧
      hi = g * Pmm.pageSize) ↔ ∃ b ∈ bs, b.free = true ∧ b.addr = lo ∧ b.fin = hi := by
    intro lo hi
    rw [← hmerged.maximalRun_iff hlay, hbytes]
    exact (maximalRun_blocks_iff (by norm_num [Pmm.pageSize])).symm
  refine ⟨hs.list.chain, hlay.zero_notMem, ?_, ?_, ?_, ?_⟩
  · apply List.pairwise_map.mpr
    apply hlay.sorted.imp
    intro b c hbc
    exact b.addr_lt_fin.trans_le hbc
  · intro x
    rw [List.mem_map]
    constructor
    · rintro ⟨b, hb, rfl⟩
      obtain ⟨f, g, hfg, haddr, -⟩ := (hrun b.addr b.fin).mpr ⟨b, hb, hfree b hb, rfl, rfl⟩
      exact ⟨f, g, hfg, haddr⟩
    · rintro ⟨f, g, hfg, rfl⟩
      obtain ⟨b, hb, -, haddr, -⟩ := (hrun _ _).mp ⟨f, g, hfg, rfl, rfl⟩
      exact ⟨b, hb, haddr⟩
  · intro x hx
    obtain ⟨b, hb, rfl⟩ := List.mem_map.mp hx
    rw [(hs.list.header b hb).free, hfree b hb]
    rfl
  · intro f g hfg
    obtain ⟨b, hb, -, haddr, hfin⟩ := (hrun _ _).mp ⟨f, g, hfg, rfl, rfl⟩
    have hlt := hfg.nonempty
    rw [← haddr, (hs.list.header b hb).size]
    unfold Block.fin at hfin
    rw [haddr] at hfin
    unfold Pmm.pageSize at hfin
    omega

theorem FreedAll.oneBlockPerRun {pages : Nat} {pmm : Pmm.State} {m : Mem} {s : Client}
    (hs : FreedAll pages pmm m s) :
    ∃ blocks, OneBlockPerRun (heapFrames pages pmm m) s.heap blocks := by
  obtain ⟨s₁, p, h', hbefore, hp, hcall, hafter, hlive⟩ := hs
  obtain ⟨bs, hholds⟩ := run_keeps hbefore (afterInit_holds pages pmm m)
  obtain ⟨bs', hholds', hmerged⟩ := run_keeps_merged hafter
    ⟨_, hholds.kfree hp hcall, merged_deallocate hholds.list.layout p⟩
  exact ⟨_, hholds'.oneBlockPerRun hmerged hlive⟩

/-- Freeing coalesces completely: no two free blocks touch after a `kfree`, and
when everything has been freed the list consists of one block for each run of
contiguous frames, whatever was allocated and in whatever order it was freed. -/
theorem kfree_coalesces (pages : Nat) (pmm : Pmm.State) (m : Mem) :
    (∀ s, ReflTransGen Step (afterInit pages pmm m) s → ∀ p ∈ s.live, ∀ h',
      kfree s.heap p = .ok h' → NoAdjacentFree h') ∧
    ∀ s₁ s₂, FreedAll pages pmm m s₁ → FreedAll pages pmm m s₂ →
      ∃ blocks, OneBlockPerRun (heapFrames pages pmm m) s₁.heap blocks ∧
        OneBlockPerRun (heapFrames pages pmm m) s₂.heap blocks := by
  constructor
  · intro s hrun p hp h' hcall
    obtain ⟨bs, hs⟩ := run_keeps hrun (afterInit_holds pages pmm m)
    have hafter := hs.kfree hp hcall
    exact hafter.list.noAdjacentFree_iff.mpr (merged_deallocate hs.list.layout p)
  · intro s₁ s₂ h₁ h₂
    obtain ⟨blocks₁, hb₁⟩ := h₁.oneBlockPerRun
    obtain ⟨blocks₂, hb₂⟩ := h₂.oneBlockPerRun
    have heq := hb₁.unique hb₂
    subst heq
    exact ⟨blocks₁, hb₁, hb₂⟩

/-- One request of 100 bytes on a heap of two pages, freed again. -/
theorem kfree_coalesces_firstRequest :
    ∃ h' : Heap, FreedAll 2 megabyteUsed (fun _ => 0) ⟨h', []⟩ ∧
      ∃ blocks, OneBlockPerRun (heapFrames 2 megabyteUsed fun _ => 0) h' blocks := by
  obtain ⟨h₁, hcall⟩ := firstRequest_returns
  have hstep : ReflTransGen Step (afterInit 2 megabyteUsed fun _ => 0) ⟨h₁, [0x100010]⟩ :=
    ReflTransGen.single (Step.kmalloc 100 (by norm_num) hcall)
  obtain ⟨bs, hs⟩ := run_keeps hstep (afterInit_holds 2 megabyteUsed fun _ => 0)
  obtain ⟨m', hfree, -⟩ := kfree_refines hs.list ((hs.live 0x100010).mp (by simp))
  have hall : FreedAll 2 megabyteUsed (fun _ => 0) ⟨{ h₁ with mem := m' }, []⟩ :=
    ⟨⟨h₁, [0x100010]⟩, 0x100010, _, hstep, by simp, hfree, ReflTransGen.refl, rfl⟩
  obtain ⟨blocks, hblocks, -⟩ :=
    (kfree_coalesces 2 megabyteUsed fun _ => 0).2 _ _ hall hall
  exact ⟨_, hall, blocks, hblocks⟩

end StakOS.Kmalloc
