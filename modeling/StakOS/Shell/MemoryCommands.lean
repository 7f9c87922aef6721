import StakOS.Drivers.Output
import StakOS.Kmalloc.Restore
import StakOS.Pmm.Calls
import StakOS.Shell.Number

/-!
# Commands on memory

`shell/commands_mem.c`, executed without preemption.  A command is what it prints and what it
does to an allocator; arguments are strings with their NUL.
-/

namespace StakOS.Shell

open StakOS.Lib.Memory StakOS.Lib.Loop StakOS.Lib.CString
open StakOS.Drivers.Output hiding chars
open StakOS.Drivers (Vga.Call Vga.ascii Vga.vgaColorLightGrey)
open Relation (ReflTransGen)

/-! ## `meminfo` and `memtest` -/

/-- `pmm_print_stats` -/
def pmmPrintStats (s : Pmm.State) : List Vga.Call :=
  color vgaColorLightGreen ++ text "[OK] PMM initialized\n" ++
  color Vga.vgaColorLightGrey ++
  text "     Total frames : " ++ int (toInt32 s.totalFrames) ++
  text "  (" ++ int (toInt32 (s.totalFrames * Pmm.pageSize % 2 ^ 32 / 1024)) ++ text " KB)\n" ++
  text "     Free  frames : " ++ int (toInt32 s.freeFrames) ++
  text "  (" ++ int (toInt32 (s.freeFrames * Pmm.pageSize % 2 ^ 32 / 1024)) ++ text " KB)\n"

def cmdMeminfo (s : Pmm.State) : List Vga.Call := pmmPrintStats s

def memtestMaxFrames : Nat := 64

/-- The loop that allocates, with `left` turns to go: the allocator, the frames from `i` on and
what is printed up to `done`. -/
def memtestAlloc : (left i : Nat) → Pmm.State → Pmm.State × List Nat × List Vga.Call
  | 0, _, s =>
      (s, [], color vgaColorLightGreen ++ text "  all allocs OK\n" ++ color Vga.vgaColorLightGrey)
  | left + 1, i, s =>
      let (s, frame) := Pmm.pmmAllocFrame s
      if frame = 0 then
        (s, [], color vgaColorLightRed ++ text "  [FAIL] alloc returned 0 at i=" ++
          int (toInt32 i) ++ text "\n")
      else
        let (s, frames, out) := memtestAlloc left (i + 1) s
        (s, frame :: frames, text "  alloc[" ++ int (toInt32 i) ++ text "] = " ++ hex frame ++
          text "\n" ++ out)

/-- The number of frames asked for. -/
def memtestCount : List (List UInt8) → Option Nat
  | _ :: arg :: _ => shStrtoul arg 10
  | _ => some 8

def cmdMemtest (s : Pmm.State) (argv : List (List UInt8)) :
    Option (Pmm.State × List Vga.Call) :=
  (memtestCount argv).map fun n =>
    if n = 0 ∨ n > memtestMaxFrames then
      (s, color vgaColorLightRed ++ text "memtest: n must be 1-64\n" ++
        color Vga.vgaColorLightGrey)
    else
      let (s', frames, out) := memtestAlloc n 0 s
      (frames.foldl Pmm.pmmFreeFrame s',
        color vgaColorLightCyan ++ text "memtest: allocating " ++ int (toInt32 n) ++
        text " frames\n" ++ color Vga.vgaColorLightGrey ++ out ++
        color vgaColorLightGreen ++ text "  freed " ++ int (toInt32 frames.length) ++
        text " frames - PMM recovered\n" ++ color Vga.vgaColorLightGrey)

/-- What the loop has taken: frames that were free, as many as there are up to `left`. -/
structure Taken (s s' : Pmm.State) (left : Nat) (frames : List Nat) : Prop where
  inStep : Pmm.InStep s s'
  used : Pmm.usedFrames s' = { a | a ∈ frames } ∪ Pmm.usedFrames s
  fresh : ∀ a ∈ frames, a ∉ Pmm.usedFrames s
  count : frames.length = min left (Pmm.budget s)

theorem memtestAlloc_taken (left i : Nat) {s : Pmm.State} (hzero : 0 ∈ Pmm.usedFrames s) :
    Taken s (memtestAlloc left i s).1 left (memtestAlloc left i s).2.1 := by
  induction left generalizing i s with
  | zero => exact ⟨.refl s, by simp [memtestAlloc], by simp [memtestAlloc], by simp [memtestAlloc]⟩
  | succ left ih =>
      obtain ⟨s₁, a, halloc⟩ : ∃ s₁ a, Pmm.pmmAllocFrame s = (s₁, a) := ⟨_, _, rfl⟩
      have hstep : Pmm.InStep s s₁ := by
        have := Pmm.inStep_alloc s
        rwa [halloc] at this
      by_cases ha : a = 0
      · rw [ha] at halloc
        obtain ⟨rfl, hbudget⟩ := Pmm.pmmAllocFrame_none halloc hzero
        simp only [memtestAlloc, halloc, if_true]
        exact ⟨.refl _, by simp, by simp, by simp [hbudget]⟩
      · obtain ⟨hfresh, hused, -, hbudget⟩ := Pmm.pmmAllocFrame_some halloc ha
        have hrest := ih (i + 1) (hused ▸ Set.mem_insert_of_mem a hzero)
        simp only [memtestAlloc, halloc, if_neg ha]
        refine ⟨hstep.trans hrest.inStep, ?_, ?_, ?_⟩
        · rw [hrest.used, hused]
          ext b
          simp only [Set.mem_union, Set.mem_ofPred_eq, Set.mem_insert_iff, List.mem_cons]
          tauto
        · intro b hb
          rcases List.mem_cons.mp hb with rfl | hb
          · exact hfresh
          · intro hmem
            exact hrest.fresh b hb (hused ▸ Set.mem_insert_of_mem a hmem)
        · rw [List.length_cons, hrest.count]
          omega

/-- Giving the frames back undoes the loop. -/
theorem Taken.undone {s s' : Pmm.State} {left : Nat} {frames : List Nat}
    (h : Taken s s' left frames) (hword : s.freeFrames < 2 ^ 32) :
    frames.foldl Pmm.pmmFreeFrame s' = s := by
  have haligned : ∀ a ∈ frames, a % Pmm.pageSize = 0 := by
    intro a ha
    apply Pmm.usedFrames_aligned (s := s')
    rw [h.used]
    exact Or.inl ha
  have hused : Pmm.usedFrames (frames.foldl Pmm.pmmFreeFrame s') = Pmm.usedFrames s := by
    rw [Pmm.usedFrames_foldl_free s' haligned, h.used]
    ext a
    simp only [Set.mem_sdiff, Set.mem_union, Set.mem_ofPred_eq]
    constructor
    · rintro ⟨ha | ha, hnot⟩
      · exact absurd ha hnot
      · exact ha
    · exact fun ha => ⟨Or.inr ha, fun hmem => h.fresh a hmem ha⟩
  exact (h.inStep.foldl_free hword (Pmm.freeSet_eq_iff.mpr hused).subset).eq hused

theorem memtestCount_some {argv : List (List UInt8)} (hargs : ∀ arg ∈ argv, Terminated arg) :
    ∃ n, memtestCount argv = some n := by
  rcases argv with _ | ⟨name, _ | ⟨arg, rest⟩⟩
  · exact ⟨8, rfl⟩
  · exact ⟨8, rfl⟩
  · exact ⟨_, shStrtoul_eq (by decide) (hargs arg (by simp))⟩

/-- `memtest` leaves the allocator as it found it, whether or not there were enough frames, and
says how many it got. -/
theorem memtest_restores {s : Pmm.State} {argv : List (List UInt8)}
    (hzero : 0 ∈ Pmm.usedFrames s) (hword : s.freeFrames < 2 ^ 32)
    (hargs : ∀ arg ∈ argv, Terminated arg) :
    ∃ n calls, memtestCount argv = some n ∧ cmdMemtest s argv = some (s, calls) ∧
      (0 < n → n ≤ memtestMaxFrames →
        Vga.ascii "  freed " ++ Vga.ascii (Nat.repr (min n (Pmm.budget s))) ++
          Vga.ascii " frames - PMM recovered\n" <:+ transcript calls) := by
  obtain ⟨n, hn⟩ := memtestCount_some hargs
  unfold cmdMemtest
  rw [hn, Option.map_some]
  by_cases hrange : n = 0 ∨ n > memtestMaxFrames
  · rw [if_pos hrange]
    exact ⟨n, _, rfl, rfl, fun hpos hle => by omega⟩
  · have htaken := memtestAlloc_taken n 0 hzero
    have hshown : (memtestAlloc n 0 s).2.1.length < 2 ^ 31 := by
      have := htaken.count
      unfold memtestMaxFrames at hrange
      omega
    rw [if_neg hrange]
    simp only [htaken.undone hword]
    refine ⟨n, _, rfl, rfl, fun _ _ => ?_⟩
    rw [← htaken.count, ← transcript_int_toInt32 hshown]
    simp only [transcript_append, transcript_color, transcript_text, List.append_nil,
      List.nil_append, List.append_assoc]
    -- the report is the last of the five things printed
    iterate 4 apply List.suffix_append_of_suffix
    exact List.suffix_rfl

/-- `memtest 3` -/
def memtestThree : List (List UInt8) := [Vga.ascii "memtest" ++ [0], Vga.ascii "3" ++ [0]]

theorem memtest_restores_three :
    ∃ calls, cmdMemtest Kmalloc.megabyteUsed memtestThree = some (Kmalloc.megabyteUsed, calls) := by
  have hzero : 0 ∈ Pmm.usedFrames Kmalloc.megabyteUsed :=
    Pmm.mem_usedFrames.mpr (by decide +kernel)
  obtain ⟨_, calls, -, hcall, -⟩ := memtest_restores hzero (by decide)
    (show ∀ arg ∈ memtestThree, Terminated arg by decide)
  exact ⟨calls, hcall⟩

/-! ## `heapinfo` and `heaptest` -/

def cmdHeapinfo (h : Kmalloc.Heap) : Outcome (List Vga.Call) := Kmalloc.kmallocPrintStats h

/-- The first and the last byte of an allocation that succeeded. -/
def touch (m : Mem) (p last : Nat) (v w : UInt8) : Mem :=
  if p = 0 then m else write8 (write8 m p v) (p + last) w

/-- `ok` -/
def readBack (m : Mem) (a b c d : Nat) : Bool :=
  a ≠ 0 && b ≠ 0 && c ≠ 0 && d ≠ 0 &&
    m a == 0xAB && m (a + 31) == 0xCD && m b == 0x12 && m (b + 127) == 0x34

def heaptestReport (a b c d : Nat) (ok : Bool) : List Vga.Call :=
  color vgaColorLightCyan ++ text "heaptest: allocating chunks\n" ++
  color Vga.vgaColorLightGrey ++
  text "  kmalloc(32)  = " ++ hex a ++ text "\n" ++
  text "  kmalloc(128) = " ++ hex b ++ text "\n" ++
  text "  kmalloc(64)  = " ++ hex c ++ text "\n" ++
  text "  kmalloc(256) = " ++ hex d ++ text "\n" ++
  (if ok then color vgaColorLightGreen ++ text "  read-back OK\n"
    else color vgaColorLightRed ++ text "  [FAIL] read-back mismatch!\n") ++
  color Vga.vgaColorLightGrey ++ text "heaptest: freeing (check coalesce)\n" ++
  color vgaColorLightGreen ++ text "  freed - run heapinfo to confirm coalesced\n" ++
  color Vga.vgaColorLightGrey

def cmdHeaptest (h : Kmalloc.Heap) : Outcome (Kmalloc.Heap × List Vga.Call) := do
  let (h, a) ← Kmalloc.kmalloc h 32
  let (h, b) ← Kmalloc.kmalloc h 128
  let (h, c) ← Kmalloc.kmalloc h 64
  let (h, d) ← Kmalloc.kmalloc h 256
  let m := touch (touch h.mem a 31 0xAB 0xCD) b 127 0x12 0x34
  let ok := readBack m a b c d
  let h ← Kmalloc.kfree { h with mem := m } a
  let h ← Kmalloc.kfree h b
  let h ← Kmalloc.kfree h c
  let h ← Kmalloc.kfree h d
  return (h, heaptestReport a b c d ok)

section Heaptest

open Kmalloc

variable {bytes : Set Nat} {s t : Client} {bs : List Block} {b : Block} {out : List Nat}
  {p last : Nat}

/-- Stores to both ends of a block in hand. -/
theorem touch_step (hs : Session s t out) (ht : Holds bytes t bs)
    (hb : p ≠ 0 → ∃ b ∈ live bs, b.payload = p ∧ last < b.size) (v w : UInt8) :
    Holds bytes ⟨{ t.heap with mem := touch t.heap.mem p last v w }, t.live⟩ bs ∧
      Session s ⟨{ t.heap with mem := touch t.heap.mem p last v w }, t.live⟩ out := by
  unfold touch
  by_cases hp : p = 0
  · rw [if_pos hp]
    exact ⟨ht, hs⟩
  · obtain ⟨b, hmem, rfl, hlast⟩ := hb hp
    obtain ⟨ht', hs'⟩ := hs.store ht hmem (le_refl b.payload) (by omega) v
    rw [if_neg hp]
    exact hs'.store ht' hmem (Nat.le_add_right _ _) (by omega) w

theorem touch_of_outside (m : Mem) {x : Nat} (v w : UInt8) (hx : x ≠ p) (hx' : x ≠ p + last) :
    touch m p last v w x = m x := by
  unfold touch
  split
  · rfl
  · rw [write8_of_ne _ _ hx', write8_of_ne _ _ hx]

theorem touch_first (m : Mem) (v w : UInt8) (hp : p ≠ 0) (hlast : 0 < last) :
    touch m p last v w p = v := by
  unfold touch
  rw [if_neg hp, write8_of_ne _ _ (by omega), write8, Function.update_self]

theorem touch_last (m : Mem) (v w : UInt8) (hp : p ≠ 0) :
    touch m p last v w (p + last) = w := by
  unfold touch
  rw [if_neg hp, write8, Function.update_self]

/-- Two allocations at work do not share their ends. -/
theorem ends_apart {b c : Block} (hl : Layout bs) (hb : b ∈ bs) (hc : c ∈ bs)
    (hne : b.payload ≠ c.payload) {i j : Nat} (hi : i < b.size) (hj : j < c.size) :
    b.payload + i ≠ c.payload + j := by
  rcases hl.eq_or_apart hb hc with rfl | hapart
  · exact absurd rfl hne
  · unfold Block.payload Block.fin at *
    omega

/-- What was stored to both ends of two allocations is there. -/
theorem touch_both {m : Mem} {a b : Nat} (hl : Layout bs) (hne : a ≠ b) (ha0 : a ≠ 0) (hb0 : b ≠ 0)
    (ha : ∃ x ∈ live bs, x.payload = a ∧ 31 < x.size)
    (hb : ∃ x ∈ live bs, x.payload = b ∧ 127 < x.size) (v w v' w' : UInt8) :
    touch (touch m a 31 v w) b 127 v' w' a = v ∧
      touch (touch m a 31 v w) b 127 v' w' (a + 31) = w ∧
      touch (touch m a 31 v w) b 127 v' w' b = v' ∧
      touch (touch m a 31 v w) b 127 v' w' (b + 127) = w' := by
  obtain ⟨x, hx, rfl, hsx⟩ := ha
  obtain ⟨y, hy, rfl, hsy⟩ := hb
  have hapart : ∀ i j : Nat, i ≤ 31 → j ≤ 127 → x.payload + i ≠ y.payload + j :=
    fun i j hi hj => ends_apart hl (mem_live.mp hx).1 (mem_live.mp hy).1 hne (by omega) (by omega)
  refine ⟨?_, ?_, touch_first _ _ _ hb0 (by norm_num), touch_last _ _ _ hb0⟩
  · rw [touch_of_outside _ _ _ hne (hapart 0 127 (by norm_num) (le_refl _))]
    exact touch_first _ _ _ ha0 (by norm_num)
  · have hfirst : x.payload + 31 ≠ y.payload := hapart 31 0 (le_refl _) (by norm_num)
    rw [touch_of_outside _ _ _ hfirst (hapart 31 127 (le_refl _) (le_refl _))]
    exact touch_last _ _ _ ha0

theorem readBack_eq {m : Mem} {a b : Nat} (c d : Nat) (hl : Layout bs) (hne : a = b → a = 0)
    (ha : a ≠ 0 → ∃ x ∈ live bs, x.payload = a ∧ 31 < x.size)
    (hb : b ≠ 0 → ∃ x ∈ live bs, x.payload = b ∧ 127 < x.size) :
    readBack (touch (touch m a 31 0xAB 0xCD) b 127 0x12 0x34) a b c d =
      decide (a ≠ 0 ∧ b ≠ 0 ∧ c ≠ 0 ∧ d ≠ 0) := by
  unfold readBack
  by_cases ha0 : a = 0
  · simp [ha0]
  by_cases hb0 : b = 0
  · simp [hb0]
  obtain ⟨h₁, h₂, h₃, h₄⟩ := touch_both (m := m) hl (fun heq => ha0 (hne heq)) ha0 hb0 (ha ha0)
    (hb hb0) 0xAB 0xCD 0x12 0x34
  rw [h₁, h₂, h₃, h₄]
  simp [ha0, hb0]

theorem cmdHeaptest_eq {h h₁ h₂ h₃ h₄ h₅ h₆ h₇ h₈ : Heap} {m : Mem} {a b c d : Nat}
    (ha : kmalloc h 32 = .ok (h₁, a)) (hb : kmalloc h₁ 128 = .ok (h₂, b))
    (hc : kmalloc h₂ 64 = .ok (h₃, c)) (hd : kmalloc h₃ 256 = .ok (h₄, d))
    (hm : m = touch (touch h₄.mem a 31 0xAB 0xCD) b 127 0x12 0x34)
    (hfreeA : kfree { h₄ with mem := m } a = .ok h₅) (hfreeB : kfree h₅ b = .ok h₆)
    (hfreeC : kfree h₆ c = .ok h₇) (hfreeD : kfree h₇ d = .ok h₈) :
    cmdHeaptest h = .ok (h₈, heaptestReport a b c d (readBack m a b c d)) := by
  subst hm
  simp only [cmdHeaptest, ha, hb, hc, hd, hfreeA, hfreeB, hfreeC, hfreeD, bind_ok]
  rfl

/-- In every state of the heap `heaptest` comes back, leaves the blocks as they were, but for
free neighbours that are merged, and finds its bytes exactly when it got its memory. -/
theorem heaptest_restores {pages : Nat} {pmm : Pmm.State} {m : Mem}
    (hrun : ReflTransGen Step (afterInit pages pmm m) s) :
    ∃ h' a b c d, cmdHeaptest s.heap = .ok (h', heaptestReport a b c d
        (decide (a ≠ 0 ∧ b ≠ 0 ∧ c ≠ 0 ∧ d ≠ 0))) ∧
      ∃ bs, HeapList s.heap.mem s.heap.heapStart bs ∧
        (HeapList h'.mem h'.heapStart bs ∨ HeapList h'.mem h'.heapStart (merge bs)) ∧
        (NoAdjacentFree s.heap → HeapList h'.mem h'.heapStart bs) := by
  obtain ⟨bs, hs⟩ := run_keeps hrun (afterInit_holds pages pmm m)
  obtain ⟨h₁, a, bs₁, hcall₁, ht₁, hs₁, hgot₁⟩ :=
    (Session.refl s).take hs (show 32 ≤ 0xFFFFFFFC by norm_num)
  obtain ⟨h₂, b, bs₂, hcall₂, ht₂, hs₂, hgot₂⟩ := hs₁.take ht₁ (show 128 ≤ 0xFFFFFFFC by norm_num)
  obtain ⟨h₃, c, bs₃, hcall₃, ht₃, hs₃, hgot₃⟩ := hs₂.take ht₂ (show 64 ≤ 0xFFFFFFFC by norm_num)
  obtain ⟨h₄, d, bs₄, hcall₄, ht₄, hs₄, hgot₄⟩ := hs₃.take ht₃ (show 256 ≤ 0xFFFFFFFC by norm_num)
  have hblockB : b ≠ 0 → ∃ x ∈ live bs₄, x.payload = b ∧ 128 ≤ x.size := by
    intro hb
    obtain ⟨x, hx, hpay⟩ := hgot₂.block hb
    exact ⟨x, hgot₄.kept x (hgot₃.kept x hx), hpay⟩
  have hblockA : a ≠ 0 → ∃ x ∈ live bs₄, x.payload = a ∧ 32 ≤ x.size := by
    intro ha
    obtain ⟨x, hx, hpay⟩ := hgot₁.block ha
    exact ⟨x, hgot₄.kept x (hgot₃.kept x (hgot₂.kept x hx)), hpay⟩
  obtain ⟨ht₅, hs₅⟩ := touch_step hs₄ ht₄ hblockA 0xAB 0xCD
  obtain ⟨ht₆, hs₆⟩ := touch_step hs₅ ht₅ hblockB 0x12 0x34
  obtain ⟨h₇, bs₇, hcall₇, ht₇, hs₇⟩ := hs₆.give ht₆
  obtain ⟨h₈, bs₈, hcall₈, ht₈, hs₈⟩ := hs₇.give ht₇
  obtain ⟨h₉, bs₉, hcall₉, ht₉, hs₉⟩ := hs₈.give ht₈
  obtain ⟨h', bs', hcall', ht', hs'⟩ := hs₉.give ht₉
  refine ⟨h', a, b, c, d, ?_, bs, hs.list, run_restored hs hs'.run (hs'.back hs.nodup ht'.nodup)⟩
  have hne : a = b → a = 0 := (List.pairwise_cons.mp hs₂.distinct).1 b (by simp)
  rw [← readBack_eq (m := h₄.mem) c d ht₄.list.layout hne hblockA hblockB]
  exact cmdHeaptest_eq hcall₁ hcall₂ hcall₃ hcall₄ rfl hcall₇ hcall₈ hcall₉ hcall'

/-- On a heap of two pages that nobody has used. -/
theorem heaptest_restores_fresh :
    ∃ h' a b c d, cmdHeaptest (afterInit 2 megabyteUsed fun _ => 0).heap =
      .ok (h', heaptestReport a b c d (decide (a ≠ 0 ∧ b ≠ 0 ∧ c ≠ 0 ∧ d ≠ 0))) := by
  obtain ⟨h', a, b, c, d, hcall, -⟩ := heaptest_restores
    (ReflTransGen.refl (a := afterInit 2 megabyteUsed fun _ => 0))
  exact ⟨h', a, b, c, d, hcall⟩

end Heaptest

end StakOS.Shell
