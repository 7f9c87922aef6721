import StakOS.Kmalloc.Requests

/-!
# Freeing a pointer twice

After a `kfree` the header below the pointer may be absorbed by a free neighbour
and stay in memory as stale words, which later calls overwrite in part: headers
are made at every multiple of four.  `kfree` trusts those words.  As long as the
clients leave them alone, no mixture of stale words and words of present headers
reads as the header of an allocated block.
-/

namespace StakOS.Kmalloc

open StakOS.Lib.Memory StakOS.Lib.Loop StakOS.Lib.Linked
open Relation (ReflTransGen)

/-! ## The test of `kfree` -/

/-- The words at `x` do not pass for the header of an allocated block. -/
def Guarded (m : Mem) (x : Nat) : Prop := magic m x = blockMagic → free m x ≠ 0

theorem Guarded.congr {m m' : Mem} {x : Nat} (h : Guarded m x)
    (hsame : ∀ a, (x ≤ a ∧ a < x + 4) ∨ (x + 8 ≤ a ∧ a < x + 12) → m' a = m a) :
    Guarded m' x := by
  have hmagic : magic m' x = magic m x := by
    apply read32_congr
    intro a hlo hhi
    exact hsame a (by omega)
  have hfree : free m' x = free m x := by
    apply read32_congr
    intro a hlo hhi
    exact hsame a (by omega)
  unfold Guarded
  rw [hmagic, hfree]
  exact h

/-- The heap as `kfree` leaves it, also when it panics. -/
def kfreeLeaves (h : Heap) (ptr : Nat) : Outcome Unit × Heap :=
  if ptr = 0 then (.ok (), h)
  else
    let blk := sub32 ptr blockHeaderSize
    if magic h.mem blk ≠ blockMagic ∨ free h.mem blk ≠ 0 then
      (.error (.kpanic "kfree: invalid pointer or double-free"), h)
    else
      match coalesce { h with mem := setFree h.mem blk 1 } with
      | .ok h' => (.ok (), h')
      | .error e => (.error e, { h with mem := setFree h.mem blk 1 })

/-- It returns the same heap as `kfree`. -/
theorem kfree_eq_leaves (h : Heap) (ptr : Nat) :
    kfree h ptr = (kfreeLeaves h ptr).1.map fun _ => (kfreeLeaves h ptr).2 := by
  unfold kfree kfreeLeaves
  by_cases hnull : ptr = 0
  · rw [if_pos hnull, if_pos hnull]
    rfl
  · rw [if_neg hnull, if_neg hnull]
    by_cases hbad : magic h.mem (sub32 ptr blockHeaderSize) ≠ blockMagic ∨
        free h.mem (sub32 ptr blockHeaderSize) ≠ 0
    · simp only [if_pos hbad]
      rfl
    · simp only [if_neg hbad]
      cases coalesce { h with mem := setFree h.mem (sub32 ptr blockHeaderSize) 1 } <;> rfl

theorem kfreeLeaves_of_guarded {h : Heap} {x : Nat} (hx : x < 2 ^ 27) (hg : Guarded h.mem x) :
    kfreeLeaves h (x + 16) = (.error (.kpanic "kfree: invalid pointer or double-free"), h) := by
  have hblk : sub32 (x + 16) blockHeaderSize = x := by
    unfold blockHeaderSize
    rw [sub32_of_le (by omega) (by omega)]
    omega
  have hbad : magic h.mem x ≠ blockMagic ∨ free h.mem x ≠ 0 := by
    by_cases hmagic : magic h.mem x = blockMagic
    · exact Or.inr (hg hmagic)
    · exact Or.inl hmagic
  unfold kfreeLeaves
  rw [if_neg (by omega)]
  simp only [hblk, if_pos hbad]

/-! ## Words of present headers -/

/-- Every block has room for at least one word. -/
def Sized (bs : List Block) : Prop := ∀ b ∈ bs, 0 < b.size

theorem HeapList.next_lt {m : Mem} {start : Nat} {bs : List Block} (h : HeapList m start bs)
    {b : Block} (hb : b ∈ bs) : next m b.addr < 2 ^ 27 := by
  obtain ⟨pre, post, rfl⟩ := List.append_of_mem hb
  rw [h.next_eq]
  cases post with
  | nil => norm_num
  | cons c post =>
      have hbound := h.layout.bounded c (by simp)
      unfold Block.fin at hbound
      simp only [List.map_cons, List.headD_cons]
      omega

/-- The header of `c` shares a word with the magic or the free word at `x`. -/
def Block.Overlaps (c : Block) (x : Nat) : Prop := c.inHeader x ∨ c.inHeader (x + 8)

/-- A present header under one of the two words decides the test: its magic and
its size are no zero, its size, its free word and its link are no magic. -/
theorem HeapList.guarded_of_overlaps {m : Mem} {start x : Nat} {bs : List Block} {c : Block}
    (h : HeapList m start bs) (hsized : Sized bs) (hx : x % 4 = 0) (hunused : x + 16 ∉ used bs)
    (hc : c ∈ bs) (hover : c.Overlaps x) : Guarded m x := by
  have hhead := h.header c hc
  have halign := (h.layout.aligned c hc).1
  have hbound := h.layout.bounded c hc
  have hnext := h.next_lt hc
  have hpos := hsized c hc
  have hmagic : read32 m c.addr = blockMagic := hhead.magic
  have hsize : read32 m (c.addr + 4) = c.size := hhead.size
  have hfree : read32 m (c.addr + 8) = if c.free then 1 else 0 := hhead.free
  unfold Block.Overlaps Block.inHeader at hover
  unfold Block.fin at hbound
  unfold next at hnext
  unfold Guarded magic free
  unfold blockMagic at hmagic ⊢
  intro hx0
  have hcases : x = c.addr ∨ x = c.addr + 4 ∨ x = c.addr + 8 ∨ x = c.addr + 12 ∨
      x + 8 = c.addr ∨ x + 8 = c.addr + 4 := by omega
  rcases hcases with rfl | rfl | rfl | rfl | heq | heq
  · -- the block is on the list, so it is free
    apply hhead.free_iff.mpr
    by_contra hne
    exact hunused (mem_used.mpr ⟨c, hc, by simpa using hne, rfl⟩)
  · omega
  · rw [hfree] at hx0
    cases hcf : c.free <;> simp [hcf] at hx0
  · omega
  · rw [heq, hmagic]
    norm_num
  · rw [heq, hsize]
    omega

/-- A call that writes present headers only keeps the test. -/
theorem HeapList.guarded {m m' : Mem} {start x : Nat} {bs : List Block}
    (h : HeapList m' start bs) (hsized : Sized bs) (hx : x % 4 = 0) (hunused : x + 16 ∉ used bs)
    (hsame : ∀ a, (∀ c ∈ bs, ¬ c.inHeader a) → m' a = m a) (hg : Guarded m x) :
    Guarded m' x := by
  by_cases hover : ∃ c ∈ bs, c.Overlaps x
  · obtain ⟨c, hc, hcx⟩ := hover
    exact h.guarded_of_overlaps hsized hx hunused hc hcx
  · push Not at hover
    apply hg.congr
    intro a hword
    apply hsame
    intro c hc hin
    apply hover c hc
    -- headers and words are aligned alike, so a shared byte is a shared word
    have halign := (h.layout.aligned c hc).1
    unfold Block.inHeader at hin
    unfold Block.Overlaps Block.inHeader
    omega

/-- Marking some block free keeps the test. -/
theorem Guarded.setFree {m : Mem} {x y : Nat} (hg : Guarded m x) (hx : x % 4 = 0)
    (hy : y % 4 = 0) : Guarded (setFree m y 1) x := by
  by_cases hmark : y + 8 = x
  · intro hmagic
    unfold magic Kmalloc.setFree at hmagic
    rw [hmark, read32_write32_same m x (by norm_num)] at hmagic
    norm_num [blockMagic] at hmagic
  · by_cases hsame : y = x
    · subst hsame
      intro _
      unfold free Kmalloc.setFree
      rw [read32_write32_same m _ (by norm_num)]
      norm_num
    · apply hg.congr
      intro a hword
      exact write32_of_disjoint m 1 (by omega)

/-! ## What the calls write -/

/-- Taking a block writes the headers of the blocks that replace it. -/
theorem takeBlock_headers {m : Mem} {b : Block} {sz a : Nat} (hb : Header m b)
    (hfit : sz ≤ b.size) (hbound : b.fin ≤ 2 ^ 27) (ha : ∀ c ∈ carve b sz, ¬ c.inHeader a) :
    takeBlock m b.addr sz a = m a := by
  unfold takeBlock
  unfold carve at ha
  by_cases hsmall : b.size ≤ sz + 24
  · rw [if_pos hsmall] at ha
    have hout := ha _ (List.mem_singleton.mpr rfl)
    unfold Block.inHeader at hout
    simp only at hout
    rw [split_of_small hb hfit hbound hsmall]
    exact write32_of_disjoint m 0 (by omega)
  · rw [if_neg hsmall] at ha
    have hfirst := ha _ List.mem_cons_self
    have hrest := ha _ (List.mem_cons_of_mem _ (List.mem_singleton.mpr rfl))
    unfold Block.inHeader at hfirst hrest
    simp only at hfirst hrest
    rw [split_of_large hb hfit hbound hsmall]
    unfold setNext setSize setFree setMagic
    simp (disch := omega) only [write32_of_disjoint]

theorem sized_carve {b : Block} {sz : Nat} (hb : 0 < b.size) (hsz : 0 < sz) :
    Sized (carve b sz) := by
  unfold carve
  by_cases hsmall : b.size ≤ sz + 24
  · rw [if_pos hsmall]
    intro c hc
    rw [List.mem_singleton.mp hc]
    exact hb
  · rw [if_neg hsmall]
    intro c hc
    rcases List.mem_cons.mp hc with rfl | hc
    · exact hsz
    · rw [List.mem_singleton.mp hc]
      show 0 < b.size - sz - 16
      omega

theorem sized_mergeFrom {b : Block} {bs : List Block} (h : Sized (b :: bs)) :
    Sized (mergeFrom b bs) := by
  induction bs generalizing b with
  | nil => exact h
  | cons c bs ih =>
      have hb := h b (by simp)
      have hrest : Sized (c :: bs) := fun d hd => h d (by simp [List.mem_cons.mp hd])
      by_cases hm : b.free ∧ c.free ∧ c.addr = b.fin
      · rw [mergeFrom_touching hm.1 hm.2.1 hm.2.2]
        apply ih
        intro d hd
        rcases List.mem_cons.mp hd with rfl | hd
        · show 0 < b.size + 16 + c.size
          omega
        · exact hrest d (by simp [hd])
      · rw [mergeFrom_apart hm]
        intro d hd
        rcases List.mem_cons.mp hd with rfl | hd
        · exact hb
        · exact ih hrest d hd

theorem sized_deallocate {bs : List Block} (h : Sized bs) (p : Nat) : Sized (deallocate p bs) := by
  have hrel : Sized (release p bs) := by
    intro c hc
    obtain ⟨b, hb, rfl⟩ := List.mem_map.mp hc
    rw [Block.releasedAt_size]
    exact h b hb
  unfold deallocate
  cases hbs : release p bs with
  | nil =>
      intro c hc
      cases hc
  | cons b bs' =>
      rw [hbs] at hrel
      exact sized_mergeFrom hrel

/-! ## Histories of stale pointers -/

/-- A heap with its clients and the pointers that are stale: freed, not handed
out again, and with no byte of the header below written by a client since. -/
structure History where
  client : Client
  stale : List Nat

/-- One event.  Requests are at most `0xFFFFFFFC` bytes, frees are of live
pointers, and a store below a stale pointer ends its being watched. -/
inductive History.Step : History → History → Prop
  | kmalloc {t : History} {h' : Heap} {p : Nat} (sz : Nat) (hsz : sz ≤ 0xFFFFFFFC)
      (hcall : kmalloc t.client.heap sz = .ok (h', p)) :
      Step t ⟨⟨h', if p = 0 then t.client.live else p :: t.client.live⟩,
        t.stale.filter fun q => q ≠ p⟩
  | kfree {t : History} {h' : Heap} {p : Nat} (hp : p ∈ t.client.live)
      (hcall : kfree t.client.heap p = .ok h') :
      Step t ⟨⟨h', t.client.live.erase p⟩, p :: t.stale⟩
  | store {t : History} {p a : Nat} (v : UInt8) (hp : p ∈ t.client.live) (hlow : p ≤ a)
      (hhigh : a < p + size t.client.heap.mem (p - 16)) :
      Step t ⟨⟨{ t.client.heap with mem := write8 t.client.heap.mem a v }, t.client.live⟩,
        t.stale.filter fun q => ¬ (q - 16 ≤ a ∧ a < q)⟩

/-- A stale pointer is not allocated and fails the test of `kfree`. -/
structure Stale (m : Mem) (bs : List Block) (p : Nat) : Prop where
  unused : p ∉ used bs
  header : ∃ x, p = x + 16 ∧ x % 4 = 0 ∧ x < 2 ^ 27 ∧ Guarded m x

/-- What every history keeps. -/
structure Watched (bytes : Set Nat) (t : History) (bs : List Block) : Prop where
  holds : Holds bytes t.client bs
  sized : Sized bs
  stale : ∀ p ∈ t.stale, Stale t.client.heap.mem bs p

theorem Watched.kmalloc {bytes : Set Nat} {t : History} {bs : List Block} {h' : Heap} {sz p : Nat}
    (ht : Watched bytes t bs) (hsz : sz ≤ 0xFFFFFFFC)
    (hcall : kmalloc t.client.heap sz = .ok (h', p)) :
    Watched bytes ⟨⟨h', if p = 0 then t.client.live else p :: t.client.live⟩,
      t.stale.filter fun q => q ≠ p⟩ (allocate sz bs).1 := by
  have hholds := ht.holds.kmalloc hcall
  rcases kmalloc_cases ht.holds.list sz with
    ⟨hret, hnone⟩ | ⟨pre, b, post, rfl, hne, hfree, hfit, hret, hsome⟩
  · rw [hret] at hcall
    cases hcall
    rw [hnone] at hholds ⊢
    refine ⟨hholds, ht.sized, ?_⟩
    intro q hq
    exact ht.stale q (List.mem_filter.mp hq).1
  · rw [hret] at hcall
    cases hcall
    rw [hsome] at hholds ⊢
    have hb : b ∈ pre ++ b :: post := by simp
    have hhead := ht.holds.list.header b hb
    have hbound := ht.holds.list.layout.bounded b hb
    have hpos : 0 < alignSize sz := by
      have hle := le_alignSize hsz
      omega
    have hsized : Sized (pre ++ carve b (alignSize sz) ++ post) := by
      intro c hc
      rcases List.mem_append.mp hc with hc | hc
      · rcases List.mem_append.mp hc with hc | hc
        · exact ht.sized c (by simp [hc])
        · exact sized_carve (ht.sized b hb) hpos c hc
      · exact ht.sized c (by simp [hc])
    refine ⟨hholds, hsized, ?_⟩
    intro q hq
    obtain ⟨hstale, hqp⟩ := List.mem_filter.mp hq
    obtain ⟨hunused, x, rfl, hx, hlt, hg⟩ := ht.stale q hstale
    have hunused' : x + 16 ∉ used (pre ++ carve b (alignSize sz) ++ post) := by
      rw [mem_used_allocate hfree]
      rintro (heq | hmem)
      · exact of_decide_eq_true hqp heq
      · exact hunused hmem
    refine ⟨hunused', x, rfl, hx, hlt, ?_⟩
    apply hholds.list.guarded hsized hx hunused' _ hg
    intro a ha
    apply takeBlock_headers hhead hfit hbound
    intro c hc
    exact ha c (by simp [hc])

theorem Watched.kfree {bytes : Set Nat} {t : History} {bs : List Block} {h' : Heap} {p : Nat}
    (ht : Watched bytes t bs) (hp : p ∈ t.client.live)
    (hcall : kfree t.client.heap p = .ok h') :
    Watched bytes ⟨⟨h', t.client.live.erase p⟩, p :: t.stale⟩ (deallocate p bs) := by
  have hholds := ht.holds.kfree hp hcall
  have hused := (ht.holds.live p).mp hp
  have hsized := sized_deallocate ht.sized p
  obtain ⟨m', hret, -, hframe⟩ := kfree_refines ht.holds.list hused
  rw [hret] at hcall
  cases hcall
  obtain ⟨b, hb, -, rfl⟩ := mem_used.mp hused
  have halign := (ht.holds.list.layout.aligned b hb).1
  have hbound := ht.holds.list.layout.bounded b hb
  unfold Block.fin at hbound
  rw [b.payload_sub] at hframe
  have hgone : ∀ q, q ∈ used (deallocate b.payload bs) → q ∈ used bs ∧ q ≠ b.payload := by
    intro q hq
    unfold deallocate at hq
    rw [used_merge] at hq
    exact mem_used_release.mp hq
  -- the block is marked first, then `coalesce` writes links of blocks that remain
  have hstep : ∀ x, x % 4 = 0 → x + 16 ∉ used (deallocate b.payload bs) →
      Guarded (setFree t.client.heap.mem b.addr 1) x → Guarded m' x := by
    intro x hx hunused hg
    apply hholds.list.guarded hsized hx hunused _ hg
    intro a ha
    apply hframe
    intro c hc hlinks
    apply ha c hc
    unfold Block.inLinks at hlinks
    unfold Block.inHeader
    omega
  refine ⟨hholds, hsized, ?_⟩
  intro q hq
  rcases List.mem_cons.mp hq with rfl | hq
  · have hunused : b.payload ∉ used (deallocate b.payload bs) := fun hmem => (hgone _ hmem).2 rfl
    refine ⟨hunused, b.addr, rfl, halign, by omega, hstep b.addr halign hunused ?_⟩
    intro _
    unfold free setFree
    rw [read32_write32_same _ _ (by norm_num)]
    norm_num
  · obtain ⟨hunused, x, rfl, hx, hlt, hg⟩ := ht.stale q hq
    have hunused' : x + 16 ∉ used (deallocate b.payload bs) := fun hmem =>
      hunused (hgone _ hmem).1
    exact ⟨hunused', x, rfl, hx, hlt, hstep x hx hunused' (hg.setFree hx halign)⟩

theorem Watched.store {bytes : Set Nat} {t : History} {bs : List Block} {p a : Nat}
    (ht : Watched bytes t bs) (v : UInt8) (hp : p ∈ t.client.live) (hlow : p ≤ a)
    (hhigh : a < p + size t.client.heap.mem (p - 16)) :
    Watched bytes ⟨⟨{ t.client.heap with mem := write8 t.client.heap.mem a v }, t.client.live⟩,
      t.stale.filter fun q => ¬ (q - 16 ≤ a ∧ a < q)⟩ bs := by
  refine ⟨ht.holds.store v hp hlow hhigh, ht.sized, ?_⟩
  intro q hq
  obtain ⟨hstale, hoff⟩ := List.mem_filter.mp hq
  obtain ⟨hunused, x, rfl, hx, hlt, hg⟩ := ht.stale q hstale
  have hout : ¬ (x + 16 - 16 ≤ a ∧ a < x + 16) := of_decide_eq_true hoff
  refine ⟨hunused, x, rfl, hx, hlt, ?_⟩
  apply hg.congr
  intro y hword
  exact write8_of_ne _ v (by omega)

theorem History.Step.keeps {bytes : Set Nat} {t t' : History} (hstep : History.Step t t')
    (ht : ∃ bs, Watched bytes t bs) : ∃ bs, Watched bytes t' bs := by
  obtain ⟨bs, ht⟩ := ht
  cases hstep with
  | kmalloc sz hsz hcall => exact ⟨_, ht.kmalloc hsz hcall⟩
  | kfree hp hcall => exact ⟨_, ht.kfree hp hcall⟩
  | store v hp hlow hhigh => exact ⟨_, ht.store v hp hlow hhigh⟩

/-- The history that begins with `kmalloc_init`. -/
def History.start (pages : Nat) (pmm : Pmm.State) (m : Mem) : History :=
  ⟨afterInit pages pmm m, []⟩

theorem history_watched {pages : Nat} {pmm : Pmm.State} {m : Mem} {t : History}
    (hrun : ReflTransGen History.Step (History.start pages pmm m) t) :
    ∃ bs, Watched (frameBytes (heapFrames pages pmm m)) t bs := by
  induction hrun with
  | refl =>
      obtain ⟨bs, hholds, hframes⟩ := afterInit_frameBlocks pages pmm m
      refine ⟨bs, hholds, ?_, by simp [History.start]⟩
      intro b hb
      obtain ⟨f, rfl⟩ := hframes b hb
      show 0 < 4096 - 16
      norm_num
  | tail _ hstep ih => exact hstep.keeps ih

/-- A pointer that was freed and not handed out again, and below which no client
wrote since, is caught when it is freed once more; the heap stays as it is. -/
theorem double_free_panics (pages : Nat) (pmm : Pmm.State) (m : Mem) (t : History)
    (hrun : ReflTransGen History.Step (History.start pages pmm m) t) (p : Nat)
    (hp : p ∈ t.stale) :
    kfree t.client.heap p = .error (.kpanic "kfree: invalid pointer or double-free") ∧
      kfreeLeaves t.client.heap p =
        (.error (.kpanic "kfree: invalid pointer or double-free"), t.client.heap) := by
  obtain ⟨bs, ht⟩ := history_watched hrun
  obtain ⟨-, x, rfl, -, hlt, hg⟩ := ht.stale p hp
  have hleaves := kfreeLeaves_of_guarded hlt hg
  rw [kfree_eq_leaves, hleaves]
  exact ⟨rfl, rfl⟩

/-- One request of 100 bytes, freed twice. -/
theorem double_free_panics_firstRequest :
    ∃ h' : Heap, History.Step ⟨afterInit 2 megabyteUsed fun _ => 0, []⟩ ⟨⟨h', [0x100010]⟩, []⟩ ∧
      ∃ h'', kfree h' 0x100010 = .ok h'' ∧
        kfree h'' 0x100010 = .error (.kpanic "kfree: invalid pointer or double-free") := by
  obtain ⟨h', hcall⟩ := firstRequest_returns
  have hfirst : History.Step (History.start 2 megabyteUsed fun _ => 0)
      ⟨⟨h', [0x100010]⟩, []⟩ := by
    have hstep : History.Step (History.start 2 megabyteUsed fun _ => 0)
      ⟨⟨h', if 0x100010 = 0 then [] else [0x100010]⟩, []⟩ :=
        History.Step.kmalloc 100 (by norm_num) hcall
    exact hstep
  obtain ⟨bs, ht⟩ := history_watched (ReflTransGen.single hfirst)
  obtain ⟨m', hfree, -⟩ := kfree_refines ht.holds.list ((ht.holds.live 0x100010).mp (by simp))
  have hsecond : History.Step ⟨⟨h', [0x100010]⟩, []⟩
      ⟨⟨{ h' with mem := m' }, []⟩, [0x100010]⟩ := History.Step.kfree (by simp) hfree
  refine ⟨h', hfirst, _, hfree, ?_⟩
  exact (double_free_panics 2 megabyteUsed (fun _ => 0) _
    ((ReflTransGen.single hfirst).tail hsecond) 0x100010 (by simp)).1

end StakOS.Kmalloc
