import StakOS.Kmalloc.Heap

/-!
# `kmalloc` and `kfree` compute the operations on block lists

Each function of `kmalloc.c` is shown to return, to turn a memory holding the
blocks `bs` into one holding what the arena operation makes of `bs`, and to
leave the other bytes alone.
-/

namespace StakOS.Kmalloc

open StakOS.Lib.Memory StakOS.Lib.Loop StakOS.Lib.Linked

/-! ## Splitting and marking -/

/-- The threshold does not wrap around for a block inside physical memory. -/
theorem split_threshold {b : Block} {sz : Nat} (hfit : sz ≤ b.size) (hbound : b.fin ≤ 2 ^ 27) :
    add32 (add32 sz blockHeaderSize) minSplitSize = sz + 24 := by
  unfold Block.fin at hbound
  unfold add32 blockHeaderSize minSplitSize
  omega

/-- Neither does the size of the rest. -/
theorem split_rest {b : Block} {sz : Nat} (hroom : sz + 24 < b.size) (hbound : b.fin ≤ 2 ^ 27) :
    sub32 (sub32 b.size sz) blockHeaderSize = b.size - sz - 16 := by
  unfold Block.fin at hbound
  have hfirst : sub32 b.size sz = b.size - sz := sub32_of_le (by omega) (by omega)
  rw [hfirst]
  exact sub32_of_le (by unfold blockHeaderSize; omega) (by omega)

theorem split_of_small {m : Mem} {b : Block} {sz : Nat} (hb : Header m b) (hfit : sz ≤ b.size)
    (hbound : b.fin ≤ 2 ^ 27) (hsmall : b.size ≤ sz + 24) : split m b.addr sz = m := by
  unfold split
  rw [split_threshold hfit hbound, hb.size, if_pos hsmall]

/-- The six writes of `split`, with the pointers and sizes they hold. -/
theorem split_of_large {m : Mem} {b : Block} {sz : Nat} (hb : Header m b) (hfit : sz ≤ b.size)
    (hbound : b.fin ≤ 2 ^ 27) (hlarge : ¬ b.size ≤ sz + 24) :
    split m b.addr sz =
      setNext (setSize (setNext (setFree (setSize
        (setMagic m (b.addr + 16 + sz) blockMagic)
        (b.addr + 16 + sz) (b.size - sz - 16))
        (b.addr + 16 + sz) 1)
        (b.addr + 16 + sz) (next m b.addr))
        b.addr sz) b.addr (b.addr + 16 + sz) := by
  have hsize := hb.size
  have hrest := split_rest (Nat.lt_of_not_le hlarge) hbound
  unfold Block.fin at hbound
  have hnew : add32 (add32 b.addr blockHeaderSize) sz = b.addr + 16 + sz := by
    unfold add32 blockHeaderSize
    omega
  have hread : size (setMagic m (b.addr + 16 + sz) blockMagic) b.addr = b.size := by
    rw [← hsize]
    exact read32_write32_of_disjoint m blockMagic (by omega)
  have hnext : next (setFree (setSize (setMagic m (b.addr + 16 + sz) blockMagic)
      (b.addr + 16 + sz) (b.size - sz - 16)) (b.addr + 16 + sz) 1) b.addr = next m b.addr := by
    unfold next setFree setSize setMagic
    rw [read32_write32_of_disjoint _ _ (by omega), read32_write32_of_disjoint _ _ (by omega),
      read32_write32_of_disjoint _ _ (by omega)]
  unfold split
  rw [split_threshold hfit hbound, hsize, if_neg hlarge]
  simp only [hnew, hread, hrest, hnext]

/-- What `kmalloc` does to the block it takes. -/
def takeBlock (m : Mem) (blk sz : Nat) : Mem := setFree (split m blk sz) blk 0

/-- Taking a block changes bytes of the block only. -/
theorem takeBlock_frame {m : Mem} {b : Block} {sz a : Nat} (hb : Header m b) (hfit : sz ≤ b.size)
    (hbound : b.fin ≤ 2 ^ 27) (ha : a < b.addr ∨ b.fin ≤ a) :
    takeBlock m b.addr sz a = m a := by
  unfold Block.fin at ha
  unfold takeBlock
  by_cases hsmall : b.size ≤ sz + 24
  · rw [split_of_small hb hfit hbound hsmall]
    exact write32_of_disjoint m 0 (by omega)
  · rw [split_of_large hb hfit hbound hsmall]
    unfold setNext setSize setFree setMagic
    simp (disch := omega) only [write32_of_disjoint]

/-- The headers and links of the blocks that replace the one taken. -/
theorem takeBlock_carve {m : Mem} {b : Block} {sz q : Nat} (hb : Header m b) (hfit : sz ≤ b.size)
    (hbound : b.fin ≤ 2 ^ 27) (hnext : next m b.addr = q) :
    (∀ c ∈ carve b sz, Header (takeBlock m b.addr sz) c) ∧
      Chain (next (takeBlock m b.addr sz)) b.addr ((carve b sz).map Block.addr) q := by
  have hq : q < 2 ^ 32 := by
    rw [← hnext]
    exact read32_lt m _
  have hmagic : read32 m b.addr = blockMagic := hb.magic
  have hsize : read32 m (b.addr + 4) = b.size := hb.size
  have hbm : blockMagic < 2 ^ 32 := by norm_num [blockMagic]
  unfold carve takeBlock
  by_cases hsmall : b.size ≤ sz + 24
  · rw [if_pos hsmall, split_of_small hb hfit hbound hsmall]
    refine ⟨?_, rfl, ?_⟩
    · intro c hc
      rw [List.mem_singleton.mp hc]
      refine ⟨?_, ?_, ?_⟩
      · show read32 (write32 m (b.addr + 8) 0) b.addr = blockMagic
        rw [read32_write32_of_disjoint _ _ (by omega), hmagic]
      · show read32 (write32 m (b.addr + 8) 0) (b.addr + 4) = b.size
        rw [read32_write32_of_disjoint _ _ (by omega), hsize]
      · exact read32_write32_same m (b.addr + 8) (by norm_num)
    · show read32 (write32 m (b.addr + 8) 0) (b.addr + 12) = q
      rw [read32_write32_of_disjoint _ _ (by omega)]
      exact hnext
  · unfold Block.fin at hbound
    rw [if_neg hsmall, split_of_large hb hfit hbound hsmall, hnext]
    refine ⟨?_, ?_⟩
    · intro c hc
      rcases List.mem_cons.mp hc with rfl | hc
      · refine ⟨?_, ?_, ?_⟩
        · simp (disch := omega) only [magic, setNext, setSize, setFree, setMagic,
            read32_write32_of_disjoint, hmagic]
        · simp (disch := omega) only [size, setNext, setSize, setFree, setMagic,
            read32_write32_same, read32_write32_of_disjoint]
        · simp (disch := omega) only [free, setFree, read32_write32_same]
          rfl
      · rw [List.mem_singleton.mp hc]
        refine ⟨?_, ?_, ?_⟩
        · simp (disch := omega) only [magic, setNext, setSize, setFree, setMagic,
            read32_write32_same, read32_write32_of_disjoint]
        · simp (disch := omega) only [size, setNext, setSize, setFree, setMagic,
            read32_write32_same, read32_write32_of_disjoint]
        · simp (disch := omega) only [free, setNext, setSize, setFree, setMagic,
            read32_write32_same, read32_write32_of_disjoint]
          rfl
    · simp only [List.map_cons, List.map_nil, chain_cons, chain_nil]
      unfold next setNext setSize setFree setMagic
      simp (disch := omega) only [read32_write32_same, read32_write32_of_disjoint, and_self]

theorem heapList_takeBlock {m : Mem} {start sz : Nat} {pre post : List Block} {b : Block}
    (h : HeapList m start (pre ++ b :: post)) (hfit : sz ≤ b.size) (hal : sz % 4 = 0) :
    HeapList (takeBlock m b.addr sz) start (pre ++ carve b sz ++ post) := by
  have hmem : b ∈ pre ++ b :: post := by simp
  have hb := h.header b hmem
  have hbound := h.layout.bounded b hmem
  have hcarve := takeBlock_carve hb hfit hbound h.next_eq
  have hsplit : HeapList m start (pre ++ b :: [] ++ post) := by simpa using h
  apply hsplit.replace (layout_allocate h.layout hal) _ hcarve.1 hcarve.2
  intro a ha
  exact takeBlock_frame hb hfit hbound (ha b (by simp))

/-! ## The search -/

/-- How the first-fit loop ends. -/
def SearchEnd (m : Mem) (sz : Nat) (bs : List Block) (r : Mem × Nat) : Prop :=
  (place sz bs = none ∧ r = (m, 0)) ∨
    ∃ pre b post, bs = pre ++ b :: post ∧ b.free = true ∧ sz ≤ b.size ∧
      place sz bs = some (pre ++ carve b sz ++ post, b.payload) ∧
      r = (takeBlock m b.addr sz, b.payload)

/-- The cursor stands behind blocks that do not fit. -/
def Searching (sz : Nat) (bs : List Block) (n cur : Nat) : Prop :=
  ∃ pre post, bs = pre ++ post ∧ n = post.length ∧ cur = (post.map Block.addr).headD 0 ∧
    ∀ c ∈ pre, ¬ (c.free ∧ sz ≤ c.size)

theorem searchTurn_again {m : Mem} {start sz n cur cur' : Nat} {bs : List Block}
    (h : HeapList m start bs) (hinv : Searching sz bs n cur)
    (hturn : searchTurn m sz cur = .again cur') : ∃ n', n' < n ∧ Searching sz bs n' cur' := by
  obtain ⟨pre, post, rfl, hn, hcur, hpre⟩ := hinv
  cases post with
  | nil =>
      rw [hcur] at hturn
      cases hturn
  | cons b post =>
      have hb := h.header b (by simp)
      have hnull := h.layout.nonNull b (by simp)
      have hcur' : cur = b.addr := hcur
      unfold searchTurn at hturn
      rw [hcur', if_pos hnull] at hturn
      by_cases hfit : free m b.addr ≠ 0 ∧ size m b.addr ≥ sz
      · rw [if_pos hfit] at hturn
        cases hturn
      · rw [if_neg hfit] at hturn
        cases hturn
        refine ⟨post.length, by simp [hn], pre ++ [b], post, by simp, rfl, h.next_eq, ?_⟩
        intro c hc
        rcases List.mem_append.mp hc with hc | hc
        · exact hpre c hc
        · rw [List.mem_singleton.mp hc]
          rwa [hb.free_iff, hb.size] at hfit

theorem searchTurn_done {m : Mem} {start sz n cur : Nat} {bs : List Block} {r : Mem × Nat}
    (h : HeapList m start bs) (hinv : Searching sz bs n cur)
    (hturn : searchTurn m sz cur = .done r) : SearchEnd m sz bs r := by
  obtain ⟨pre, post, rfl, hn, hcur, hpre⟩ := hinv
  cases post with
  | nil =>
      rw [hcur] at hturn
      cases hturn
      rw [List.append_nil]
      exact Or.inl ⟨place_eq_none hpre, rfl⟩
  | cons b post =>
      have hb := h.header b (by simp)
      have hnull := h.layout.nonNull b (by simp)
      have hbound := h.layout.bounded b (by simp)
      have hcur' : cur = b.addr := hcur
      unfold searchTurn at hturn
      rw [hcur', if_pos hnull] at hturn
      by_cases hfit : free m b.addr ≠ 0 ∧ size m b.addr ≥ sz
      · rw [if_pos hfit] at hturn
        rw [hb.free_iff, hb.size] at hfit
        have hpay : add32 b.addr blockHeaderSize = b.payload := by
          unfold Block.fin at hbound
          exact add32_of_lt (by unfold blockHeaderSize; omega)
        rw [hpay] at hturn
        cases hturn
        refine Or.inr ⟨pre, b, post, rfl, hfit.1, hfit.2, ?_, rfl⟩
        exact place_eq_some.mpr ⟨pre, b, post, rfl, hpre, hfit.1, hfit.2, rfl, rfl⟩
      · rw [if_neg hfit] at hturn
        cases hturn

theorem search_returns {m : Mem} {start : Nat} {bs : List Block} (h : HeapList m start bs)
    (sz : Nat) :
    ∃ r, loop (searchTurn m sz) turns start = .ok r ∧ SearchEnd m sz bs r := by
  have hstart : Searching sz bs bs.length start :=
    ⟨[], bs, rfl, rfl, h.start_eq, by simp⟩
  apply loop_rule (Searching sz bs) (SearchEnd m sz bs) _ _ hstart h.layout.length_lt
  · intro n cur cur' hinv hturn
    exact searchTurn_again h hinv hturn
  · intro n cur r hinv hturn
    exact searchTurn_done h hinv hturn

/-! ## `kmalloc` -/

/-- First fit on block lists; the pointer is `NULL` when nothing fits. -/
def allocate (sz : Nat) (bs : List Block) : List Block × Nat :=
  if sz = 0 then (bs, 0) else (place (alignSize sz) bs).getD (bs, 0)

theorem alignSize_mod (sz : Nat) : alignSize sz % 4 = 0 := by
  unfold alignSize
  omega

/-- A request is refused and changes nothing, or is served from a free block. -/
theorem allocate_cases (sz : Nat) (bs : List Block) :
    (allocate sz bs = (bs, 0) ∧ (sz = 0 ∨ place (alignSize sz) bs = none)) ∨
      ∃ pre b post, bs = pre ++ b :: post ∧ b.free = true ∧ alignSize sz ≤ b.size ∧
        allocate sz bs = (pre ++ carve b (alignSize sz) ++ post, b.payload) := by
  unfold allocate
  by_cases hzero : sz = 0
  · exact Or.inl ⟨if_pos hzero, Or.inl hzero⟩
  · rw [if_neg hzero]
    cases hplace : place (alignSize sz) bs with
    | none => exact Or.inl ⟨rfl, Or.inr rfl⟩
    | some r =>
        obtain ⟨pre, b, post, hbs, -, hfree, hfit, hr, hp⟩ := place_eq_some.mp hplace
        exact Or.inr ⟨pre, b, post, hbs, hfree, hfit, Prod.ext hr hp⟩

/-- The bytes `kmalloc` may change: those of free blocks. -/
def OnlyFreeChanged (bs : List Block) (m m' : Mem) : Prop :=
  ∀ a, (∀ b ∈ bs, b.free = true → a < b.addr ∨ b.fin ≤ a) → m' a = m a

/-- A call returns: it is refused and leaves the heap as it was, or takes a free
block. -/
theorem kmalloc_cases {h : Heap} {bs : List Block} (hl : HeapList h.mem h.heapStart bs)
    (sz : Nat) :
    (kmalloc h sz = .ok (h, 0) ∧ allocate sz bs = (bs, 0)) ∨
      ∃ pre b post, bs = pre ++ b :: post ∧ sz ≠ 0 ∧ b.free = true ∧ alignSize sz ≤ b.size ∧
        kmalloc h sz =
          .ok ({ h with mem := takeBlock h.mem b.addr (alignSize sz) }, b.payload) ∧
        allocate sz bs = (pre ++ carve b (alignSize sz) ++ post, b.payload) := by
  unfold kmalloc allocate
  by_cases hzero : sz = 0
  · rw [if_pos (Or.inl hzero), if_pos hzero]
    exact Or.inl ⟨rfl, rfl⟩
  · rw [if_neg hzero]
    by_cases hempty : h.heapStart = 0
    · -- without a heap the list is empty and nothing is placed
      have hbs : bs = [] := by
        cases bs with
        | nil => rfl
        | cons b bs =>
            have hstart : h.heapStart = b.addr := hl.start_eq
            exact absurd (hstart.symm.trans hempty) (hl.layout.nonNull b (by simp))
      subst hbs
      rw [if_pos (Or.inr hempty)]
      exact Or.inl ⟨rfl, rfl⟩
    · rw [if_neg (by tauto)]
      obtain ⟨r, hloop, hend⟩ := search_returns hl (alignSize sz)
      rw [hloop]
      rcases hend with ⟨hplace, rfl⟩ | ⟨pre, b, post, rfl, hfree, hfit, hplace, rfl⟩
      · rw [hplace]
        exact Or.inl ⟨rfl, rfl⟩
      · rw [hplace]
        exact Or.inr ⟨pre, b, post, rfl, hzero, hfree, hfit, rfl, rfl⟩

theorem kmalloc_refines {h : Heap} {bs : List Block} (hl : HeapList h.mem h.heapStart bs)
    (sz : Nat) :
    ∃ h', kmalloc h sz = .ok (h', (allocate sz bs).2) ∧ h'.heapStart = h.heapStart ∧
      HeapList h'.mem h'.heapStart (allocate sz bs).1 ∧ OnlyFreeChanged bs h.mem h'.mem := by
  rcases kmalloc_cases hl sz with ⟨hcall, hnone⟩ | ⟨pre, b, post, rfl, -, hfree, hfit, hcall, hsome⟩
  · rw [hnone]
    exact ⟨h, hcall, rfl, hl, fun _ _ => rfl⟩
  · rw [hsome]
    refine ⟨_, hcall, rfl, heapList_takeBlock hl hfit (alignSize_mod sz), ?_⟩
    intro a ha
    have hmem : b ∈ pre ++ b :: post := by simp
    exact takeBlock_frame (hl.header b hmem) hfit (hl.layout.bounded b hmem) (ha b hmem hfree)

/-! ## Coalescing -/

/-- The `size` and `next` words of a header. -/
def Block.inLinks (b : Block) (a : Nat) : Prop :=
  (b.addr + 4 ≤ a ∧ a < b.addr + 8) ∨ (b.addr + 12 ≤ a ∧ a < b.addr + 16)

theorem absorb_frame (m : Mem) (b : Block) {a : Nat} (ha : ¬ b.inLinks a) :
    absorb m b.addr a = m a := by
  unfold Block.inLinks at ha
  unfold absorb setNext setSize
  rw [write32_of_disjoint _ _ (by omega), write32_of_disjoint _ _ (by omega)]

theorem absorb_eq {m : Mem} {start : Nat} {pre post : List Block} {b c : Block}
    (h : HeapList m start (pre ++ b :: c :: post)) :
    absorb m b.addr = setNext (setSize m b.addr (b.size + 16 + c.size)) b.addr
      ((post.map Block.addr).headD 0) := by
  have hb := h.header b (by simp)
  have hc := h.header c (by simp)
  have hlay : Layout (b :: c :: post) := (Layout.append_iff.mp h.layout).2.1
  have hbc : b.fin ≤ c.addr := (Layout.cons_iff.mp hlay).1.2.2.2.2 c (by simp)
  have hcfin := h.layout.bounded c (by simp)
  have hnb : next m b.addr = c.addr := h.next_eq
  have hsplit : HeapList m start ((pre ++ [b]) ++ c :: post) := by simpa using h
  have hnc : next m c.addr = (post.map Block.addr).headD 0 := hsplit.next_eq
  unfold Block.fin at hbc hcfin
  have hsum : add32 b.size (add32 blockHeaderSize c.size) = b.size + 16 + c.size := by
    unfold add32 blockHeaderSize
    omega
  have hkeep : ∀ v x, x = b.addr ∨ x = c.addr → next (setSize m b.addr v) x = next m x := by
    intro v x hx
    exact read32_write32_of_disjoint m v (by omega)
  unfold absorb
  simp only [hb.size, hnb, hc.size, hsum]
  rw [hkeep _ b.addr (Or.inl rfl), hnb, hkeep _ c.addr (Or.inr rfl), hnc]

theorem heapList_absorb {m : Mem} {start : Nat} {pre post : List Block} {b c : Block}
    (h : HeapList m start (pre ++ b :: c :: post)) (htouch : c.addr = b.fin) :
    HeapList (absorb m b.addr) start (pre ++ b.join c :: post) := by
  have hb := h.header b (by simp)
  have hcfin := h.layout.bounded c (by simp)
  have hmagic : read32 m b.addr = blockMagic := hb.magic
  have hfree : read32 m (b.addr + 8) = if b.free then 1 else 0 := hb.free
  have hsplit : HeapList m start (pre ++ b :: [c] ++ post) := by simpa using h
  have hlayout : Layout (pre ++ [b.join c] ++ post) := by simpa using layout_join h.layout htouch
  have hq : (post.map Block.addr).headD 0 < 2 ^ 32 := by
    have hsplit' : HeapList m start ((pre ++ [b]) ++ c :: post) := by simpa using h
    rw [← hsplit'.next_eq]
    exact read32_lt m _
  have hfin := Block.join_fin htouch
  have hjoined : HeapList (absorb m b.addr) start (pre ++ [b.join c] ++ post) := by
    apply hsplit.replace hlayout
    · intro a ha
      apply absorb_frame
      have hab := ha b (by simp)
      unfold Block.inLinks
      unfold Block.fin at hab
      omega
    · intro d hd
      rw [List.mem_singleton.mp hd, absorb_eq h]
      unfold Block.fin at hcfin htouch
      refine ⟨?_, ?_, ?_⟩
      · show read32 (write32 (write32 m (b.addr + 4) _) (b.addr + 12) _) b.addr = blockMagic
        rw [read32_write32_of_disjoint _ _ (by omega), read32_write32_of_disjoint _ _ (by omega),
          hmagic]
      · show read32 (write32 (write32 m (b.addr + 4) _) (b.addr + 12) _) (b.addr + 4) = _
        rw [read32_write32_of_disjoint _ _ (by omega), read32_write32_same _ _ (by omega)]
        rfl
      · show read32 (write32 (write32 m (b.addr + 4) _) (b.addr + 12) _) (b.addr + 8) = _
        rw [read32_write32_of_disjoint _ _ (by omega), read32_write32_of_disjoint _ _ (by omega),
          hfree]
        rfl
    · refine ⟨rfl, ?_⟩
      rw [absorb_eq h]
      exact read32_write32_same _ _ hq
  simpa using hjoined

/-- The bytes `coalesce` may change: sizes and links of blocks that remain. -/
def OnlyLinksChanged (bs : List Block) (m m' : Mem) : Prop :=
  ∀ a, (∀ b ∈ bs, ¬ b.inLinks a) → m' a = m a

/-- The cursor of `coalesce` on `b`: what lies before it is merged already. -/
def Coalescing (m : Mem) (start : Nat) (bs : List Block) (n : Nat) : Mem × Nat → Prop
  | (m', cur) =>
      ∃ pre b post, n = post.length ∧ cur = b.addr ∧ HeapList m' start (pre ++ b :: post) ∧
        pre ++ mergeFrom b post = merge bs ∧ OnlyLinksChanged (merge bs) m m'

theorem coalesceTurn_last {m : Mem} {start : Nat} {pre : List Block} {b : Block}
    (h : HeapList m start (pre ++ [b])) : coalesceTurn (m, b.addr) = .done m := by
  have hnext : next m b.addr = 0 := h.next_eq
  apply if_neg
  rw [hnext]
  simp

theorem coalesceTurn_inner {m : Mem} {start : Nat} {pre post : List Block} {b c : Block}
    (h : HeapList m start (pre ++ b :: c :: post)) :
    coalesceTurn (m, b.addr) =
      if b.free = true ∧ c.free = true ∧ c.addr = b.fin then .again (absorb m b.addr, b.addr)
      else .again (m, c.addr) := by
  have hb := h.header b (by simp)
  have hc := h.header c (by simp)
  have hnull := h.layout.nonNull b (by simp)
  have hcnull := h.layout.nonNull c (by simp)
  have hbfin := h.layout.bounded b (by simp)
  have hnext : next m b.addr = c.addr := h.next_eq
  have hend : add32 (add32 b.addr blockHeaderSize) b.size = b.fin := by
    unfold Block.fin at hbfin ⊢
    unfold add32 blockHeaderSize
    omega
  unfold coalesceTurn
  simp only [hnext, hb.size, hend, hb.free_iff, hc.free_iff]
  rw [if_pos ⟨hnull, hcnull⟩]

theorem coalesceTurn_again {m : Mem} {start n : Nat} {bs : List Block} {s s' : Mem × Nat}
    (hinv : Coalescing m start bs n s) (hturn : coalesceTurn s = .again s') :
    ∃ n', n' < n ∧ Coalescing m start bs n' s' := by
  obtain ⟨m₁, cur⟩ := s
  obtain ⟨pre, b, post, hn, rfl, hl, hmerge, hframe⟩ := hinv
  cases post with
  | nil =>
      rw [coalesceTurn_last hl] at hturn
      cases hturn
  | cons c post =>
      rw [coalesceTurn_inner hl] at hturn
      by_cases hm : b.free = true ∧ c.free = true ∧ c.addr = b.fin
      · rw [if_pos hm] at hturn
        cases hturn
        rw [mergeFrom_touching hm.1 hm.2.1 hm.2.2] at hmerge
        refine ⟨post.length, by simp [hn], pre, b.join c, post, rfl, rfl,
          heapList_absorb hl hm.2.2, hmerge, ?_⟩
        intro a ha
        rw [← hframe a ha]
        apply absorb_frame
        -- the block under the cursor keeps its address to the end
        obtain ⟨d, ds, hd, haddr⟩ := mergeFrom_head (b.join c) post
        have hdlinks := ha d (by rw [← hmerge, hd]; simp)
        unfold Block.inLinks at hdlinks ⊢
        rwa [haddr] at hdlinks
      · rw [if_neg hm] at hturn
        cases hturn
        rw [mergeFrom_apart hm] at hmerge
        exact ⟨post.length, by simp [hn], pre ++ [b], c, post, rfl, rfl, by simpa using hl,
          by simpa using hmerge, hframe⟩

theorem coalesceTurn_done {m m' : Mem} {start n : Nat} {bs : List Block} {s : Mem × Nat}
    (hinv : Coalescing m start bs n s) (hturn : coalesceTurn s = .done m') :
    HeapList m' start (merge bs) ∧ OnlyLinksChanged (merge bs) m m' := by
  obtain ⟨m₁, cur⟩ := s
  obtain ⟨pre, b, post, hn, rfl, hl, hmerge, hframe⟩ := hinv
  cases post with
  | nil =>
      rw [coalesceTurn_last hl] at hturn
      cases hturn
      refine ⟨?_, hframe⟩
      rw [← hmerge]
      exact hl
  | cons c post =>
      rw [coalesceTurn_inner hl] at hturn
      split at hturn <;> cases hturn

theorem coalesce_refines {h : Heap} {bs : List Block} (hl : HeapList h.mem h.heapStart bs) :
    ∃ m', coalesce h = .ok { h with mem := m' } ∧ HeapList m' h.heapStart (merge bs) ∧
      OnlyLinksChanged (merge bs) h.mem m' := by
  have hloop : ∃ m', loop coalesceTurn turns (h.mem, h.heapStart) = .ok m' ∧
      HeapList m' h.heapStart (merge bs) ∧ OnlyLinksChanged (merge bs) h.mem m' := by
    cases bs with
    | nil =>
        have hstart : h.heapStart = 0 := hl.start_eq
        refine ⟨h.mem, ?_, hl, fun _ _ => rfl⟩
        apply loop_of_done
        rw [hstart]
        rfl
    | cons b bs =>
        have hstart : Coalescing h.mem h.heapStart (b :: bs) bs.length (h.mem, h.heapStart) :=
          ⟨[], b, bs, rfl, hl.start_eq, hl, rfl, fun _ _ => rfl⟩
        have hbound : bs.length < turns := by
          have hlen := hl.layout.length_lt
          rw [List.length_cons] at hlen
          omega
        apply loop_rule (Coalescing h.mem h.heapStart (b :: bs)) _ _ _ hstart hbound
        · intro n s s' hinv hturn
          exact coalesceTurn_again hinv hturn
        · intro n s r hinv hturn
          exact coalesceTurn_done hinv hturn
  obtain ⟨m', heq, hpost⟩ := hloop
  refine ⟨m', ?_, hpost⟩
  unfold coalesce
  rw [heq]
  rfl

/-! ## `kfree` -/

/-- Freeing on block lists. -/
def deallocate (p : Nat) (bs : List Block) : List Block := merge (release p bs)

theorem release_split {pre post : List Block} {b : Block} (h : Layout (pre ++ b :: post)) :
    release b.payload (pre ++ b :: post) = pre ++ { b with free := true } :: post := by
  have hne : ∀ c ∈ pre ++ post, c.payload ≠ b.payload := by
    intro c hc heq
    obtain ⟨-, hlay, hbefore⟩ := Layout.append_iff.mp h
    have hbehind := (Layout.cons_iff.mp hlay).1.2.2.2.2
    unfold Block.payload at heq
    rcases List.mem_append.mp hc with hc | hc
    · have hcb := hbefore c hc b (by simp)
      unfold Block.fin at hcb
      omega
    · have hbc := hbehind c hc
      unfold Block.fin at hbc
      omega
  have hsame : ∀ cs : List Block, (∀ c ∈ cs, c ∈ pre ++ post) →
      cs.map (fun c => c.releasedAt b.payload) = cs := by
    intro cs hcs
    rw [List.map_congr_left fun c hc => Block.releasedAt_of_ne (hne c (hcs c hc))]
    exact List.map_id' cs
  unfold release
  rw [List.map_append, List.map_cons, hsame pre (fun c hc => by simp [hc]),
    hsame post (fun c hc => by simp [hc]), Block.releasedAt, if_pos rfl]

theorem heapList_setFree {m : Mem} {start : Nat} {pre post : List Block} {b : Block}
    (h : HeapList m start (pre ++ b :: post)) (v : Bool) :
    HeapList (setFree m b.addr (if v then 1 else 0)) start
      (pre ++ { b with free := v } :: post) := by
  have hb := h.header b (by simp)
  have hlayout : Layout (pre ++ { b with free := v } :: post) :=
    h.layout.resize rfl (le_refl _) (h.layout.aligned b (by simp)).2
  have hv : (if v then 1 else 0) < 2 ^ 32 := by
    split <;> norm_num
  have hsplit : HeapList m start (pre ++ b :: [] ++ post) := by simpa using h
  have hset : HeapList (setFree m b.addr (if v then 1 else 0)) start
      (pre ++ [{ b with free := v }] ++ post) := by
    apply hsplit.replace (by simpa using hlayout)
    · intro a ha
      have hab := ha b (by simp)
      unfold Block.fin at hab
      exact write32_of_disjoint m _ (by omega)
    · intro c hc
      rw [List.mem_singleton.mp hc]
      refine ⟨?_, ?_, ?_⟩
      · show read32 (write32 m (b.addr + 8) _) b.addr = blockMagic
        rw [read32_write32_of_disjoint m _ (by omega)]
        exact hb.magic
      · show read32 (write32 m (b.addr + 8) _) (b.addr + 4) = b.size
        rw [read32_write32_of_disjoint m _ (by omega)]
        exact hb.size
      · exact read32_write32_same m (b.addr + 8) hv
    · refine ⟨rfl, ?_⟩
      show read32 (write32 m (b.addr + 8) _) (b.addr + 12) = (post.map Block.addr).headD 0
      rw [read32_write32_of_disjoint m _ (by omega)]
      exact h.next_eq
  simpa using hset

/-- Marking the block of an allocated pointer free. -/
theorem heapList_release {m : Mem} {start p : Nat} {bs : List Block} (hl : HeapList m start bs)
    (hp : p ∈ used bs) : HeapList (setFree m (p - 16) 1) start (release p bs) := by
  obtain ⟨b, hb, -, rfl⟩ := mem_used.mp hp
  obtain ⟨pre, post, rfl⟩ := List.append_of_mem hb
  have haddr : b.payload - 16 = b.addr := by
    unfold Block.payload
    omega
  rw [release_split hl.layout, haddr]
  exact heapList_setFree hl true

/-- Freeing an allocated pointer returns and changes header bytes only: the
`free` word of its block and the links of the blocks that remain. -/
theorem kfree_refines {h : Heap} {p : Nat} {bs : List Block}
    (hl : HeapList h.mem h.heapStart bs) (hp : p ∈ used bs) :
    ∃ m', kfree h p = .ok { h with mem := m' } ∧
      HeapList m' h.heapStart (deallocate p bs) ∧
      OnlyLinksChanged (deallocate p bs) (setFree h.mem (p - 16) 1) m' := by
  obtain ⟨m', hco, hlist, hframe⟩ :=
    coalesce_refines (h := { h with mem := setFree h.mem (p - 16) 1 }) (heapList_release hl hp)
  refine ⟨m', ?_, hlist, hframe⟩
  obtain ⟨b, hb, hused, rfl⟩ := mem_used.mp hp
  have hhead := hl.header b hb
  have hbound := hl.layout.bounded b hb
  have haddr : b.payload - 16 = b.addr := by
    unfold Block.payload
    omega
  have hblk : sub32 b.payload blockHeaderSize = b.addr := by
    unfold Block.fin at hbound
    unfold Block.payload blockHeaderSize
    rw [sub32_of_le (by omega) (by omega)]
    omega
  have hne : b.payload ≠ 0 := by
    unfold Block.payload
    omega
  have hok : ¬ (magic h.mem b.addr ≠ blockMagic ∨ free h.mem b.addr ≠ 0) := by
    rw [hhead.magic, hhead.free, hused]
    simp
  rw [haddr] at hco
  unfold kfree
  rw [if_neg hne]
  simp only [hblk]
  rw [if_neg hok]
  exact hco

end StakOS.Kmalloc
