import StakOS.Kmalloc.Statements
import StakOS.Kmalloc.Runs

/-!
# `kmalloc` interrupted by the timer

The timer handler reaps zombies, and `process_free` ends in `kfree`.  Since
`kmalloc` runs with interrupts enabled, such a `kfree` can fall between any two
of its statements.  The heap stays sound as long as no reaping merges the block
under the cursor into the block before it.
-/

namespace StakOS.Kmalloc

open StakOS.Lib.Memory StakOS.Lib.Loop StakOS.Lib.Linked
open Relation (ReflTransGen)

/-! ## Interleavings -/

/-- The heap, the pointers handed out, and the call in progress. -/
structure Sys where
  heap : Heap
  live : List Nat
  call : Option Call

/-- The points of the call at which `cur` is a block the call will use. -/
def Pc.holdsCursor : Pc → Bool
  | .entry | .align | .start | .ret | .done _ => false
  | _ => true

/-- Freeing `z` would merge the block under the cursor into the block before it:
the two touch, and each of them is free or is the one being freed. -/
def CursorAbsorbed (s : Sys) (z : Nat) : Prop :=
  ∃ c xs p ys, s.call = some c ∧ c.pc.holdsCursor ∧
    Chain (next s.heap.mem) s.heap.heapStart (xs ++ p :: c.cur :: ys) 0 ∧
    0 ∉ xs ++ p :: c.cur :: ys ∧ p + 16 + size s.heap.mem p = c.cur ∧
    (free s.heap.mem p ≠ 0 ∨ p + 16 = z) ∧
    (free s.heap.mem c.cur ≠ 0 ∨ c.cur + 16 = z)

/-- One event.  A tick that reaps several zombies is several `reap` events in a
row; `ok` restricts when they may happen. -/
inductive Event (ok : Sys → Nat → Prop) : Sys → Sys → Prop
  | call {s : Sys} (sz : Nat) (hsz : sz < 2 ^ 32) (hidle : s.call = none) :
      Event ok s { s with call := some ⟨.entry, sz, 0, 0⟩ }
  | statement {s : Sys} {c : Call} (hcall : s.call = some c) :
      Event ok s { s with
        heap := (kmallocStep s.heap c).1
        call := some (kmallocStep s.heap c).2 }
  | give {s : Sys} {c : Call} {p : Nat} (hcall : s.call = some c) (hpc : c.pc = .done p) :
      Event ok s ⟨s.heap, if p = 0 then s.live else p :: s.live, none⟩
  | reap {s : Sys} {h' : Heap} {z : Nat} (hz : z ∈ s.live) (hok : ok s z)
      (hfree : kfree s.heap z = .ok h') : Event ok s ⟨h', s.live.erase z, s.call⟩
  | store {s : Sys} {p a : Nat} (v : UInt8) (hp : p ∈ s.live) (hlow : p ≤ a)
      (hhigh : a < p + size s.heap.mem (p - 16)) :
      Event ok s { s with heap := s.heap.setMem (write8 s.heap.mem a v) }

/-! ## What holds at each statement -/

def LiveUsed (live : List Nat) (bs : List Block) : Prop := ∀ p, p ∈ live ↔ p ∈ used bs

/-- The cursor stands on the block `b` of the list. -/
structure Cursor (bs : List Block) (c : Call) (pre post : List Block) (b : Block) : Prop where
  list : bs = pre ++ b :: post
  cur : c.cur = b.addr
  aligned : c.sz % 4 = 0

/-- The header that `split` is writing into the free block `b`. -/
structure NewHeader (m : Mem) (c : Call) (b : Block) : Prop where
  newBlk : c.newBlk = b.addr + 16 + c.sz
  room : c.sz + 24 < b.size
  magic : c.pc ≠ .newMagic → magic m c.newBlk = blockMagic
  size : c.pc = .newFree ∨ c.pc = .newNext →
    size m c.newBlk % 4 = 0 ∧ c.newBlk + 16 + size m c.newBlk ≤ b.fin
  free : c.pc = .newNext → free m c.newBlk = 1

/-- The new block `nb` is complete but not on the list yet.  Its link was read
before: the blocks `absorbed` have been merged into `b` since and will come back
when `b` is cut to its size. -/
structure Pending (m : Mem) (c : Call) (pre post : List Block) (b nb : Block)
    (absorbed : List Block) : Prop where
  newBlk : nb.addr = c.newBlk
  free : nb.free = true
  header : ∀ d ∈ nb :: absorbed, Header m d
  absorbedFree : ∀ d ∈ absorbed, d.free = true
  chain : Chain (next m) (next m nb.addr) ((absorbed ++ post).map Block.addr) 0
  layout : Layout (pre ++ ⟨b.addr, c.sz, true⟩ :: nb :: (absorbed ++ post))
  cut : c.pc = .link → b.size = c.sz

inductive CallInv (m : Mem) (live : List Nat) (bs : List Block) : Option Call → Prop
  | idle (hlive : LiveUsed live bs) : CallInv m live bs none
  | before {c : Call} (hlive : LiveUsed live bs) (hpc : c.pc = .entry ∨ c.pc = .align) :
      CallInv m live bs (some c)
  | start {c : Call} (hlive : LiveUsed live bs) (hpc : c.pc = .start) (hal : c.sz % 4 = 0) :
      CallInv m live bs (some c)
  | ended {c : Call} (hlive : LiveUsed live bs) (hpc : c.pc = .loop) (hcur : c.cur = 0) :
      CallInv m live bs (some c)
  | failed {c : Call} (hlive : LiveUsed live bs) (hpc : c.pc = .done 0) :
      CallInv m live bs (some c)
  | search {c : Call} {pre post : List Block} {b : Block} (hlive : LiveUsed live bs)
      (hpc : c.pc = .loop ∨ c.pc = .test ∨ c.pc = .advance) (hc : Cursor bs c pre post b) :
      CallInv m live bs (some c)
  | chosen {c : Call} {pre post : List Block} {b : Block} (hlive : LiveUsed live bs)
      (hpc : c.pc = .splitTest ∨ c.pc = .carve ∨ c.pc = .take) (hc : Cursor bs c pre post b)
      (hfree : b.free = true) (hfit : c.sz ≤ b.size)
      (hroom : c.pc = .carve → c.sz + 24 < b.size) : CallInv m live bs (some c)
  | fill {c : Call} {pre post : List Block} {b : Block} (hlive : LiveUsed live bs)
      (hpc : c.pc = .newMagic ∨ c.pc = .newSize ∨ c.pc = .newFree ∨ c.pc = .newNext)
      (hc : Cursor bs c pre post b) (hfree : b.free = true) (hnew : NewHeader m c b) :
      CallInv m live bs (some c)
  | split {c : Call} {pre post absorbed : List Block} {b nb : Block} (hlive : LiveUsed live bs)
      (hpc : c.pc = .shrink ∨ c.pc = .link) (hc : Cursor bs c pre post b)
      (hfree : b.free = true) (hnew : Pending m c pre post b nb absorbed) :
      CallInv m live bs (some c)
  | taken {c : Call} {b : Block} (hpc : c.pc = .ret ∨ c.pc = .done b.payload) (hb : b ∈ bs)
      (hcur : c.cur = b.addr) (hused : b.free = false)
      (hlive : ∀ q, q ∈ used bs ↔ q = b.payload ∨ q ∈ live) (hfresh : b.payload ∉ live) :
      CallInv m live bs (some c)

/-- The heap holds some list of blocks that fits the call in progress. -/
structure Sys.Holds (s : Sys) (bs : List Block) : Prop where
  list : HeapList s.heap.mem s.heap.heapStart bs
  nodup : s.live.Nodup
  call : CallInv s.heap.mem s.live bs s.call

theorem CallInv.live_used {m : Mem} {live : List Nat} {bs : List Block} {call : Option Call}
    (h : CallInv m live bs call) {z : Nat} (hz : z ∈ live) : z ∈ used bs := by
  cases h with
  | idle hlive => exact (hlive z).mp hz
  | before hlive => exact (hlive z).mp hz
  | start hlive => exact (hlive z).mp hz
  | ended hlive => exact (hlive z).mp hz
  | failed hlive => exact (hlive z).mp hz
  | search hlive => exact (hlive z).mp hz
  | chosen hlive => exact (hlive z).mp hz
  | fill hlive => exact (hlive z).mp hz
  | split hlive => exact (hlive z).mp hz
  | taken hpc hb hcur hused hlive hfresh => exact (hlive z).mpr (Or.inr hz)

/-! ## The statements keep it -/

/-- A word written inside the payload of a block leaves the list alone. -/
theorem HeapList.write_payload {m : Mem} {start x : Nat} {bs : List Block} {b : Block}
    (h : HeapList m start bs) (hb : b ∈ bs) (hlow : b.payload ≤ x) (hhigh : x + 4 ≤ b.fin)
    (w : Nat) : HeapList (write32 m x w) start bs := by
  apply h.congr
  intro c hc a ha
  by_cases hin : x ≤ a ∧ a < x + 4
  · exact absurd ha (h.layout.payload_apart hb hc (by omega) (by omega))
  · exact write32_of_disjoint m w (by omega)

theorem used_free_cons {b : Block} (bs : List Block) (hfree : b.free = true) :
    used (b :: bs) = used bs := by
  simp [used, hfree]

theorem used_all_free {bs : List Block} (h : ∀ b ∈ bs, b.free = true) : used bs = [] := by
  simp only [used, List.map_eq_nil_iff, List.filter_eq_nil_iff]
  intro b hb
  simp [h b hb]

section Statements

variable {h : Heap} {live : List Nat} {bs : List Block} {c : Call}

theorem statement_start (hl : HeapList h.mem h.heapStart bs) (hlive : LiveUsed live bs)
    (hal : c.sz % 4 = 0) :
    CallInv h.mem live bs (some { c with pc := .loop, cur := h.heapStart }) := by
  cases bs with
  | nil => exact .ended hlive rfl hl.start_eq
  | cons b bs =>
      have hc : Cursor (b :: bs) { c with pc := .loop, cur := h.heapStart } [] bs b :=
        ⟨rfl, hl.start_eq, hal⟩
      exact .search hlive (Or.inl rfl) hc

theorem statement_search {pre post : List Block} {b : Block}
    (hl : HeapList h.mem h.heapStart bs) (hlive : LiveUsed live bs)
    (hpc : c.pc = .loop ∨ c.pc = .test ∨ c.pc = .advance) (hc : Cursor bs c pre post b) :
    (kmallocStep h c).1 = h ∧ CallInv h.mem live bs (some (kmallocStep h c).2) := by
  have hbs := hc.list
  subst hbs
  have hb := hl.header b (by simp)
  have hnull := hl.layout.nonNull b (by simp)
  obtain ⟨pc, sz, cur, newBlk⟩ := c
  have hcur : cur = b.addr := hc.cur
  subst hcur
  rcases hpc with hpc | hpc | hpc
  · cases hpc
    rw [kmallocStep, if_pos hnull]
    exact ⟨rfl, .search hlive (Or.inr (Or.inl rfl)) ⟨rfl, rfl, hc.aligned⟩⟩
  · cases hpc
    by_cases hfit : free h.mem b.addr ≠ 0 ∧ size h.mem b.addr ≥ sz
    · rw [kmallocStep, if_pos hfit]
      rw [hb.free_iff, hb.size] at hfit
      exact ⟨rfl, .chosen hlive (Or.inl rfl) ⟨rfl, rfl, hc.aligned⟩ hfit.1 hfit.2
        (fun hcarve => by cases hcarve)⟩
    · rw [kmallocStep, if_neg hfit]
      exact ⟨rfl, .search hlive (Or.inr (Or.inr rfl)) ⟨rfl, rfl, hc.aligned⟩⟩
  · cases hpc
    refine ⟨rfl, ?_⟩
    have hnext : next h.mem b.addr = (post.map Block.addr).headD 0 := hl.next_eq
    cases post with
    | nil => exact .ended hlive rfl hnext
    | cons d post =>
        have hd : Cursor (pre ++ b :: d :: post)
            ⟨.loop, sz, next h.mem b.addr, newBlk⟩ (pre ++ [b]) post d :=
          ⟨by simp, hnext, hc.aligned⟩
        exact .search hlive (Or.inl rfl) hd

theorem statement_splitTest {pre post : List Block} {b : Block}
    (hl : HeapList h.mem h.heapStart bs) (hlive : LiveUsed live bs) (hpc : c.pc = .splitTest)
    (hc : Cursor bs c pre post b) (hfree : b.free = true) (hfit : c.sz ≤ b.size) :
    (kmallocStep h c).1 = h ∧ CallInv h.mem live bs (some (kmallocStep h c).2) := by
  have hbs := hc.list
  subst hbs
  have hb := hl.header b (by simp)
  have hbound := hl.layout.bounded b (by simp)
  obtain ⟨pc, sz, cur, newBlk⟩ := c
  have hcur : cur = b.addr := hc.cur
  subst hcur
  cases hpc
  have hthreshold := split_threshold hfit hbound
  by_cases hsmall : size h.mem b.addr ≤ add32 (add32 sz blockHeaderSize) minSplitSize
  · rw [kmallocStep, if_pos hsmall]
    exact ⟨rfl, .chosen hlive (Or.inr (Or.inr rfl)) ⟨rfl, rfl, hc.aligned⟩ hfree hfit
      (fun hcarve => by cases hcarve)⟩
  · rw [kmallocStep, if_neg hsmall]
    rw [hthreshold, hb.size] at hsmall
    exact ⟨rfl, .chosen hlive (Or.inr (Or.inl rfl)) ⟨rfl, rfl, hc.aligned⟩ hfree hfit
      (fun _ => Nat.lt_of_not_le hsmall)⟩

theorem statement_carve {pre post : List Block} {b : Block}
    (hl : HeapList h.mem h.heapStart bs) (hlive : LiveUsed live bs) (hpc : c.pc = .carve)
    (hc : Cursor bs c pre post b) (hfree : b.free = true) (hroom : c.sz + 24 < b.size) :
    (kmallocStep h c).1 = h ∧ CallInv h.mem live bs (some (kmallocStep h c).2) := by
  have hbs := hc.list
  subst hbs
  have hbound := hl.layout.bounded b (by simp)
  obtain ⟨pc, sz, cur, newBlk⟩ := c
  have hcur : cur = b.addr := hc.cur
  subst hcur
  cases hpc
  have hnew : add32 (add32 b.addr blockHeaderSize) sz = b.addr + 16 + sz := by
    unfold Block.fin at hbound
    simp only at hroom
    unfold add32 blockHeaderSize
    omega
  refine ⟨rfl, .fill hlive (Or.inl rfl) ⟨rfl, rfl, hc.aligned⟩ hfree ?_⟩
  refine ⟨hnew, hroom, fun hne => absurd rfl hne, ?_, ?_⟩
  · intro hlate
    rcases hlate with hlate | hlate <;> cases hlate
  · intro hlate
    cases hlate

/-- The first three words of the new header. -/
theorem statement_fill {pre post : List Block} {b : Block}
    (hl : HeapList h.mem h.heapStart bs) (hlive : LiveUsed live bs)
    (hpc : c.pc = .newMagic ∨ c.pc = .newSize ∨ c.pc = .newFree)
    (hc : Cursor bs c pre post b) (hfree : b.free = true) (hnew : NewHeader h.mem c b) :
    HeapList (kmallocStep h c).1.mem h.heapStart bs ∧
      CallInv (kmallocStep h c).1.mem live bs (some (kmallocStep h c).2) := by
  have hbs := hc.list
  subst hbs
  have hb := hl.header b (by simp)
  have hbound := hl.layout.bounded b (by simp)
  have hroom := hnew.room
  have hblk := hnew.newBlk
  have hwrite : ∀ k w, k ≤ 12 →
      HeapList (write32 h.mem (c.newBlk + k) w) h.heapStart (pre ++ b :: post) := by
    intro k w hk
    apply hl.write_payload (b := b) (by simp)
    · unfold Block.payload
      omega
    · unfold Block.fin
      omega
  have hcur := hc.cur
  rcases hpc with hpc | hpc | hpc
  · have hstep : kmallocStep h c =
        (h.setMem (setMagic h.mem c.newBlk blockMagic), c.goto .newSize) := by
      rw [kmallocStep, hpc]
    rw [hstep]
    refine ⟨hwrite 0 blockMagic (by omega), .fill hlive (Or.inr (Or.inl rfl))
      ⟨rfl, hcur, hc.aligned⟩ hfree ⟨hblk, hroom, ?_, ?_, ?_⟩⟩
    · intro _
      exact read32_write32_same _ _ (by norm_num [blockMagic])
    · intro hlate
      rcases hlate with hlate | hlate <;> cases hlate
    · intro hlate
      cases hlate
  · have hstep : kmallocStep h c =
        (h.setMem (setSize h.mem c.newBlk
          (sub32 (sub32 (size h.mem c.cur) c.sz) blockHeaderSize)), c.goto .newFree) := by
      rw [kmallocStep, hpc]
    have hrest : sub32 (sub32 (size h.mem c.cur) c.sz) blockHeaderSize = b.size - c.sz - 16 := by
      rw [hcur, hb.size]
      exact split_rest hroom hbound
    have hal := (hl.layout.aligned b (by simp)).2
    have halsz := hc.aligned
    rw [hstep, hrest]
    unfold Block.fin at hbound
    refine ⟨hwrite 4 _ (by omega), .fill hlive (Or.inr (Or.inr (Or.inl rfl)))
      ⟨rfl, hcur, hc.aligned⟩ hfree ⟨hblk, hroom, ?_, ?_, ?_⟩⟩
    · intro _
      have hmagic : read32 h.mem c.newBlk = blockMagic := hnew.magic (by rw [hpc]; simp)
      rw [← hmagic]
      exact read32_write32_of_disjoint h.mem _ (by show c.newBlk + 4 ≤ c.newBlk + _ ∨ _; omega)
    · intro _
      have hread : size (h.setMem (setSize h.mem c.newBlk (b.size - c.sz - 16))).mem c.newBlk =
          b.size - c.sz - 16 := read32_write32_same _ _ (by omega)
      show size (h.setMem _).mem c.newBlk % 4 = 0 ∧
        c.newBlk + 16 + size (h.setMem _).mem c.newBlk ≤ b.fin
      rw [hread]
      unfold Block.fin
      omega
    · intro hlate
      cases hlate
  · have hstep : kmallocStep h c =
        (h.setMem (setFree h.mem c.newBlk 1), c.goto .newNext) := by
      rw [kmallocStep, hpc]
    rw [hstep]
    refine ⟨hwrite 8 1 (by omega), .fill hlive (Or.inr (Or.inr (Or.inr rfl)))
      ⟨rfl, hcur, hc.aligned⟩ hfree ⟨hblk, hroom, ?_, ?_, ?_⟩⟩
    · intro _
      have hmagic : read32 h.mem c.newBlk = blockMagic := hnew.magic (by rw [hpc]; simp)
      rw [← hmagic]
      exact read32_write32_of_disjoint h.mem _ (by show c.newBlk + 4 ≤ c.newBlk + _ ∨ _; omega)
    · intro _
      have hsize := hnew.size (Or.inl hpc)
      have hread : size (h.setMem (setFree h.mem c.newBlk 1)).mem c.newBlk =
          size h.mem c.newBlk := read32_write32_of_disjoint _ _ (by omega)
      show size (h.setMem _).mem c.newBlk % 4 = 0 ∧
        c.newBlk + 16 + size (h.setMem _).mem c.newBlk ≤ b.fin
      rw [hread]
      exact hsize
    · intro _
      exact read32_write32_same _ _ (by norm_num)

/-- Cutting the block into two gives a layout. -/
theorem layout_cut {pre post : List Block} {b nb : Block} {sz : Nat}
    (hl : Layout (pre ++ b :: post)) (hal : sz % 4 = 0) (hnb : nb.addr = b.addr + 16 + sz)
    (hnbal : nb.size % 4 = 0) (hin : nb.fin ≤ b.fin) :
    Layout (pre ++ ⟨b.addr, sz, true⟩ :: nb :: post) := by
  have hmid : Layout (pre ++ [b] ++ post) := by simpa using hl
  have hbal := (hl.aligned b (by simp)).1
  have hnull := hl.nonNull b (by simp)
  have hbound := hl.bounded b (by simp)
  have hpair : Layout [⟨b.addr, sz, true⟩, nb] := by
    unfold Block.fin at hin hbound
    refine Layout.cons_iff.mpr ⟨⟨hbal, hal, hnull, ?_, ?_⟩, ?_⟩
    · show b.addr + 16 + sz ≤ 2 ^ 27
      omega
    · intro d hd
      rw [List.mem_singleton.mp hd, hnb]
      exact le_refl _
    · refine Layout.cons_iff.mpr ⟨⟨?_, hnbal, ?_, ?_, by simp⟩, Layout.nil⟩
      · omega
      · omega
      · unfold Block.fin
        omega
  have hcut := hmid.replace hpair
    (fun d hd => ⟨b, by simp, by
      rcases List.mem_cons.mp hd with rfl | hd
      · exact le_refl _
      · rw [List.mem_singleton.mp hd]
        omega⟩)
    (fun d hd => ⟨b, by simp, by
      rcases List.mem_cons.mp hd with rfl | hd
      · unfold Block.fin at *
        simp only
        omega
      · rw [List.mem_singleton.mp hd]
        exact hin⟩)
  simpa using hcut

theorem statement_newNext {pre post : List Block} {b : Block}
    (hl : HeapList h.mem h.heapStart bs) (hlive : LiveUsed live bs) (hpc : c.pc = .newNext)
    (hc : Cursor bs c pre post b) (hfree : b.free = true) (hnew : NewHeader h.mem c b) :
    HeapList (kmallocStep h c).1.mem h.heapStart bs ∧
      CallInv (kmallocStep h c).1.mem live bs (some (kmallocStep h c).2) := by
  have hbs := hc.list
  subst hbs
  have hroom := hnew.room
  have hblk := hnew.newBlk
  obtain ⟨hszal, hszin⟩ := hnew.size (Or.inr hpc)
  have hnext : next h.mem c.cur = (post.map Block.addr).headD 0 := by
    rw [hc.cur]
    exact hl.next_eq
  have hstep : kmallocStep h c =
      (h.setMem (setNext h.mem c.newBlk ((post.map Block.addr).headD 0)), c.goto .shrink) := by
    rw [kmallocStep, hpc, hnext]
  rw [hstep]
  have hlist : HeapList (setNext h.mem c.newBlk ((post.map Block.addr).headD 0)) h.heapStart
      (pre ++ b :: post) := by
    apply hl.write_payload (b := b) (by simp)
    · unfold Block.payload
      omega
    · unfold Block.fin
      omega
  have hq : (post.map Block.addr).headD 0 < 2 ^ 32 := by
    rw [← hnext]
    exact read32_lt _ _
  suffices hpending : Pending (setNext h.mem c.newBlk ((post.map Block.addr).headD 0))
      (c.goto .shrink) pre post b ⟨c.newBlk, size h.mem c.newBlk, true⟩ [] from
    ⟨hlist, .split hlive (Or.inl rfl) ⟨rfl, hc.cur, hc.aligned⟩ hfree hpending⟩
  refine ⟨rfl, rfl, ?_, by simp, ?_, ?_, fun hlink => by cases hlink⟩
  · intro d hd
    rw [List.mem_singleton.mp hd]
    refine ⟨?_, ?_, ?_⟩
    · have hmagic : read32 h.mem c.newBlk = blockMagic := hnew.magic (by rw [hpc]; simp)
      rw [← hmagic]
      exact read32_write32_of_disjoint h.mem _ (by show c.newBlk + 4 ≤ c.newBlk + 12 ∨ _; omega)
    · exact read32_write32_of_disjoint h.mem _
        (by show c.newBlk + 4 + 4 ≤ c.newBlk + 12 ∨ _; omega)
    · have hone : read32 h.mem (c.newBlk + 8) = 1 := hnew.free hpc
      exact (read32_write32_of_disjoint h.mem _
        (by show c.newBlk + 8 + 4 ≤ c.newBlk + 12 ∨ _; omega)).trans hone
  · have hlink : next (setNext h.mem c.newBlk ((post.map Block.addr).headD 0)) c.newBlk =
        (post.map Block.addr).headD 0 := read32_write32_same _ _ hq
    show Chain _ (next _ c.newBlk) (([] ++ post).map Block.addr) 0
    rw [hlink]
    exact hlist.behind
  · exact layout_cut hl.layout hc.aligned hblk hszal hszin

/-- Bytes of the header of `b` belong to no other block of the layout to come. -/
theorem Pending.header_apart {m : Mem} {pre post absorbed : List Block} {b nb : Block}
    (hp : Pending m c pre post b nb absorbed) {d : Block}
    (hd : d ∈ pre ∨ d ∈ nb :: (absorbed ++ post)) {a : Nat} (ha : d.inHeader a) :
    a < b.addr ∨ b.addr + 16 ≤ a := by
  obtain ⟨-, hrest, hbefore⟩ := Layout.append_iff.mp hp.layout
  have hbehind := (Layout.cons_iff.mp hrest).1.2.2.2.2
  unfold Block.inHeader at ha
  rcases hd with hd | hd
  · have hdb : d.fin ≤ b.addr := hbefore d hd ⟨b.addr, c.sz, true⟩ (by simp)
    unfold Block.fin at hdb
    omega
  · have hbd : b.addr + 16 + c.sz ≤ d.addr := hbehind d hd
    omega

/-- A new value in the header of `b` leaves the pending blocks as they are. -/
theorem Pending.congr {m m' : Mem} {pre post absorbed : List Block} {b nb : Block}
    (hp : Pending m c pre post b nb absorbed)
    (hsame : ∀ a, a < b.addr ∨ b.addr + 16 ≤ a → m' a = m a) :
    (∀ d ∈ nb :: absorbed, Header m' d) ∧
      Chain (next m') nb.addr ((nb :: (absorbed ++ post)).map Block.addr) 0 := by
  have hkeep : ∀ d ∈ nb :: (absorbed ++ post), ∀ a, d.inHeader a → m' a = m a := by
    intro d hd a ha
    exact hsame a (hp.header_apart (Or.inr hd) ha)
  refine ⟨?_, ?_⟩
  · intro d hd
    have hmem : d ∈ nb :: (absorbed ++ post) := by
      rcases List.mem_cons.mp hd with rfl | hd
      · simp
      · simp [hd]
    exact (hp.header d hd).congr (hkeep d hmem)
  · have hchain : Chain (next m) nb.addr ((nb :: (absorbed ++ post)).map Block.addr) 0 :=
      ⟨rfl, hp.chain⟩
    exact chain_congr hchain hkeep

theorem statement_shrink {pre post absorbed : List Block} {b nb : Block}
    (hl : HeapList h.mem h.heapStart bs) (hlive : LiveUsed live bs) (hpc : c.pc = .shrink)
    (hc : Cursor bs c pre post b) (hfree : b.free = true)
    (hp : Pending h.mem c pre post b nb absorbed) :
    ∃ bs', HeapList (kmallocStep h c).1.mem h.heapStart bs' ∧
      CallInv (kmallocStep h c).1.mem live bs' (some (kmallocStep h c).2) := by
  have hbs := hc.list
  subst hbs
  have hb := hl.header b (by simp)
  have hstep : kmallocStep h c = (h.setMem (setSize h.mem c.cur c.sz), c.goto .link) := by
    rw [kmallocStep, hpc]
  rw [hstep, hc.cur]
  have hsz : c.sz < 2 ^ 32 := by
    have hbound := hp.layout.bounded ⟨b.addr, c.sz, true⟩ (by simp)
    unfold Block.fin at hbound
    simp only at hbound
    omega
  have hsame : ∀ a, a < b.addr ∨ b.addr + 16 ≤ a → setSize h.mem b.addr c.sz a = h.mem a := by
    intro a ha
    exact write32_of_disjoint _ _ (by omega)
  have hlayout : Layout (pre ++ [⟨b.addr, c.sz, true⟩] ++ post) := by
    have hsplit : Layout ((pre ++ [⟨b.addr, c.sz, true⟩]) ++ (nb :: absorbed ++ post)) := by
      simpa using hp.layout
    obtain ⟨hpre, hrest, hbetween⟩ := Layout.append_iff.mp hsplit
    exact Layout.append_iff.mpr ⟨hpre, (Layout.append_iff.mp hrest).2.1,
      fun d hd e he => hbetween d hd e (by simp [he])⟩
  have hold : HeapList h.mem h.heapStart (pre ++ b :: [] ++ post) := by simpa using hl
  have hlist : HeapList (setSize h.mem b.addr c.sz) h.heapStart
      (pre ++ [⟨b.addr, c.sz, true⟩] ++ post) := by
    apply hold.replace hlayout
    · intro a ha
      have hab := ha b (by simp)
      unfold Block.fin at hab
      exact hsame a (by omega)
    · intro d hd
      rw [List.mem_singleton.mp hd]
      refine ⟨?_, ?_, ?_⟩
      · show read32 (write32 h.mem (b.addr + 4) c.sz) b.addr = blockMagic
        rw [read32_write32_of_disjoint h.mem c.sz (by omega)]
        exact hb.magic
      · exact read32_write32_same _ _ hsz
      · show read32 (write32 h.mem (b.addr + 4) c.sz) (b.addr + 8) = if true then 1 else 0
        have hone := hb.free
        rw [hfree] at hone
        rw [read32_write32_of_disjoint h.mem c.sz (by omega)]
        exact hone
    · refine ⟨rfl, ?_⟩
      show read32 (write32 h.mem (b.addr + 4) c.sz) (b.addr + 12) = (post.map Block.addr).headD 0
      rw [read32_write32_of_disjoint h.mem c.sz (by omega)]
      exact hl.next_eq
  have hlist' : HeapList (setSize h.mem b.addr c.sz) h.heapStart
      (pre ++ ⟨b.addr, c.sz, true⟩ :: post) := by simpa using hlist
  obtain ⟨hheader, hchain⟩ := hp.congr hsame
  have hpending : Pending (setSize h.mem b.addr c.sz) (c.goto .link) pre post
      ⟨b.addr, c.sz, true⟩ nb absorbed :=
    ⟨hp.newBlk, hp.free, hheader, hp.absorbedFree, hchain.2, hp.layout, fun _ => rfl⟩
  refine ⟨_, hlist', .split ?_ (Or.inr rfl) ⟨rfl, hc.cur, hc.aligned⟩ rfl hpending⟩
  intro q
  rw [hlive q, used_append, used_append, used_free_cons _ hfree, used_free_cons]
  rfl

theorem statement_link {pre post absorbed : List Block} {b nb : Block}
    (hl : HeapList h.mem h.heapStart bs) (hlive : LiveUsed live bs) (hpc : c.pc = .link)
    (hc : Cursor bs c pre post b) (hfree : b.free = true)
    (hp : Pending h.mem c pre post b nb absorbed) :
    ∃ bs', HeapList (kmallocStep h c).1.mem h.heapStart bs' ∧
      CallInv (kmallocStep h c).1.mem live bs' (some (kmallocStep h c).2) := by
  have hbs := hc.list
  subst hbs
  have hsize := hp.cut hpc
  have hb : (⟨b.addr, c.sz, true⟩ : Block) = b := by
    rw [← hsize, ← hfree]
  have hlayout : Layout (pre ++ b :: nb :: (absorbed ++ post)) := by
    rw [← hb]
    exact hp.layout
  have hstep : kmallocStep h c = (h.setMem (setNext h.mem c.cur c.newBlk), c.goto .take) := by
    rw [kmallocStep, hpc]
  rw [hstep, hc.cur, ← hp.newBlk]
  have hnb : nb.addr < 2 ^ 32 := by
    have hbound := hlayout.bounded nb (by simp)
    unfold Block.fin at hbound
    omega
  have hsame : ∀ a, a < b.addr ∨ b.addr + 16 ≤ a → setNext h.mem b.addr nb.addr a = h.mem a := by
    intro a ha
    exact write32_of_disjoint _ _ (by omega)
  obtain ⟨hheader, hchain⟩ := hp.congr hsame
  have hkeep : ∀ d ∈ pre ++ post, ∀ a, d.inHeader a →
      setNext h.mem b.addr nb.addr a = h.mem a := by
    intro d hd a ha
    apply hsame
    rcases List.mem_append.mp hd with hd | hd
    · exact hp.header_apart (Or.inl hd) ha
    · exact hp.header_apart (Or.inr (by simp [hd])) ha
  have hbheader : Header (setNext h.mem b.addr nb.addr) b := by
    have hb := hl.header b (by simp)
    refine ⟨?_, ?_, ?_⟩
    · exact (read32_write32_of_disjoint h.mem _ (by omega)).trans hb.magic
    · exact (read32_write32_of_disjoint h.mem _ (by omega)).trans hb.size
    · exact (read32_write32_of_disjoint h.mem _ (by omega)).trans hb.free
  have hlist : HeapList (setNext h.mem b.addr nb.addr) h.heapStart
      (pre ++ b :: nb :: (absorbed ++ post)) := by
    refine ⟨hlayout, ?_, ?_⟩
    · intro d hd
      rcases List.mem_append.mp hd with hd | hd
      · exact (hl.header d (by simp [hd])).congr (hkeep d (by simp [hd]))
      · rcases List.mem_cons.mp hd with rfl | hd
        · exact hbheader
        · rcases List.mem_cons.mp hd with rfl | hd
          · exact hheader d (by simp)
          · rcases List.mem_append.mp hd with hd | hd
            · exact hheader d (by simp [hd])
            · exact (hl.header d (by simp [hd])).congr (hkeep d (by simp [hd]))
    · have hold := hl.chain
      rw [List.map_append, chain_append] at hold
      obtain ⟨r, hto, hr⟩ := hold
      rw [List.map_append, chain_append]
      refine ⟨r, chain_congr hto fun d hd => hkeep d (by simp [hd]), hr.1, ?_⟩
      have hlink : next (setNext h.mem b.addr nb.addr) b.addr = nb.addr :=
        read32_write32_same _ _ hnb
      rw [hlink]
      exact hchain
  refine ⟨_, hlist, .chosen ?_ (Or.inr (Or.inr rfl)) ⟨rfl, hc.cur, hc.aligned⟩ hfree ?_ ?_⟩
  · intro q
    rw [hlive q, used_append, used_append, used_free_cons _ hfree, used_free_cons _ hfree,
      used_free_cons _ hp.free, used_append, used_all_free hp.absorbedFree]
    rfl
  · exact hsize.ge
  · intro hcarve
    cases hcarve

theorem statement_take {pre post : List Block} {b : Block}
    (hl : HeapList h.mem h.heapStart bs) (hlive : LiveUsed live bs) (hpc : c.pc = .take)
    (hc : Cursor bs c pre post b) (hfree : b.free = true) :
    ∃ bs', HeapList (kmallocStep h c).1.mem h.heapStart bs' ∧
      CallInv (kmallocStep h c).1.mem live bs' (some (kmallocStep h c).2) := by
  have hbs := hc.list
  subst hbs
  have hstep : kmallocStep h c = (h.setMem (setFree h.mem c.cur 0), c.goto .ret) := by
    rw [kmallocStep, hpc]
  have hlist := heapList_setFree hl false
  have hfresh := payload_notMem_used hl.layout (b := b) (by simp) hfree
  rw [hstep, hc.cur]
  refine ⟨_, hlist, .taken (b := { b with free := false }) (Or.inl rfl) (by simp) hc.cur rfl ?_ ?_⟩
  · intro q
    have hone : used [{ b with free := false }] = [b.payload] := rfl
    have hsplit : pre ++ { b with free := false } :: post =
        pre ++ ([{ b with free := false }] ++ post) := rfl
    rw [hsplit, used_append, used_append, hone, hlive q, used_append, used_free_cons _ hfree]
    simp only [List.mem_append, List.mem_singleton]
    show _ ↔ q = b.payload ∨ _
    tauto
  · intro hin
    exact hfresh ((hlive _).mp hin)

/-- Every statement keeps the invariant. -/
theorem statement_keeps (hl : HeapList h.mem h.heapStart bs)
    (hcall : CallInv h.mem live bs (some c)) :
    (kmallocStep h c).1.heapStart = h.heapStart ∧
      ∃ bs', HeapList (kmallocStep h c).1.mem h.heapStart bs' ∧
        CallInv (kmallocStep h c).1.mem live bs' (some (kmallocStep h c).2) := by
  refine ⟨?_, ?_⟩
  · unfold kmallocStep
    split <;> (try split) <;> rfl
  · cases hcall with
    | before hlive hpc =>
        refine ⟨bs, ?_⟩
        rcases hpc with hpc | hpc
        · by_cases hnone : c.sz = 0 ∨ h.heapStart = 0
          · rw [kmallocStep, hpc]
            simp only [if_pos hnone]
            exact ⟨hl, .failed hlive rfl⟩
          · rw [kmallocStep, hpc]
            simp only [if_neg hnone]
            exact ⟨hl, .before hlive (Or.inr rfl)⟩
        · rw [kmallocStep, hpc]
          exact ⟨hl, .start hlive rfl (alignSize_mod c.sz)⟩
    | start hlive hpc hal =>
        rw [kmallocStep, hpc]
        exact ⟨bs, hl, statement_start hl hlive hal⟩
    | ended hlive hpc hcur =>
        rw [kmallocStep, hpc]
        simp only [if_neg (not_not.mpr hcur)]
        exact ⟨bs, hl, .failed hlive rfl⟩
    | failed hlive hpc =>
        rw [kmallocStep, hpc]
        exact ⟨bs, hl, .failed hlive hpc⟩
    | search hlive hpc hc =>
        obtain ⟨hsame, hinv⟩ := statement_search hl hlive hpc hc
        rw [hsame]
        exact ⟨bs, hl, hinv⟩
    | chosen hlive hpc hc hfree hfit hroom =>
        rcases hpc with hpc | hpc | hpc
        · obtain ⟨hsame, hinv⟩ := statement_splitTest hl hlive hpc hc hfree hfit
          rw [hsame]
          exact ⟨bs, hl, hinv⟩
        · obtain ⟨hsame, hinv⟩ := statement_carve hl hlive hpc hc hfree (hroom hpc)
          rw [hsame]
          exact ⟨bs, hl, hinv⟩
        · exact statement_take hl hlive hpc hc hfree
    | fill hlive hpc hc hfree hnew =>
        rcases hpc with hpc | hpc | hpc | hpc
        · exact ⟨bs, statement_fill hl hlive (Or.inl hpc) hc hfree hnew⟩
        · exact ⟨bs, statement_fill hl hlive (Or.inr (Or.inl hpc)) hc hfree hnew⟩
        · exact ⟨bs, statement_fill hl hlive (Or.inr (Or.inr hpc)) hc hfree hnew⟩
        · exact ⟨bs, statement_newNext hl hlive hpc hc hfree hnew⟩
    | split hlive hpc hc hfree hnew =>
        rcases hpc with hpc | hpc
        · exact statement_shrink hl hlive hpc hc hfree hnew
        · exact statement_link hl hlive hpc hc hfree hnew
    | taken hpc hb hcur hused hlive hfresh =>
        rename_i b
        have hbound := hl.layout.bounded b hb
        have hpay : add32 b.addr blockHeaderSize = b.payload := by
          unfold Block.fin at hbound
          exact add32_of_lt (by unfold blockHeaderSize; omega)
        rcases hpc with hpc | hpc
        · rw [kmallocStep, hpc]
          simp only [hcur, hpay]
          exact ⟨bs, hl, .taken (Or.inr rfl) hb hcur hused hlive hfresh⟩
        · rw [kmallocStep, hpc]
          exact ⟨bs, hl, .taken (Or.inr hpc) hb hcur hused hlive hfresh⟩

end Statements

end StakOS.Kmalloc
