import StakOS.Lib.Memory
import Mathlib.Data.Finset.Card
import Mathlib.Data.Finset.Range

/-!
# The frame bitmap

`kernel/pmm.c` keeps one bit for each 4 KB physical frame, set when the frame is
used, and a counter of free frames beside it.  The words of `pmm_bitmap` are bit
vectors here; the counters are 32-bit words kept as naturals.
-/

namespace StakOS.Pmm

def pageSize : Nat := 4096

/-- 128 MB of physical memory. -/
def maxFrames : Nat := 32768

structure State where
  bitmap : Nat → BitVec 32
  totalFrames : Nat
  freeFrames : Nat

/-- Assign `free_frames`. -/
def State.setFree (s : State) (n : Nat) : State := { s with freeFrames := n }

def frameSet (s : State) (frame : Nat) : State :=
  { s with
    bitmap := Function.update s.bitmap (frame / 32)
      (s.bitmap (frame / 32) ||| 1#32 <<< (frame % 32)) }

def frameClear (s : State) (frame : Nat) : State :=
  { s with
    bitmap := Function.update s.bitmap (frame / 32)
      (s.bitmap (frame / 32) &&& ~~~(1#32 <<< (frame % 32))) }

def frameTest (s : State) (frame : Nat) : Bool :=
  (s.bitmap (frame / 32) >>> (frame % 32)) &&& 1#32 != 0#32

/-- The inner loop of `pmm_alloc_frame`: the first clear bit of word `i`. -/
def findFreeBit (s : State) (i : Nat) : Option Nat :=
  (List.range 32).findSome? fun bit =>
    let frame := i * 32 + bit
    if frameTest s frame then none else some frame

/-- The outer loop, with its fast path over words that are all ones. -/
def findFreeFrame (s : State) : Option Nat :=
  (List.range (maxFrames / 32)).findSome? fun i =>
    if s.bitmap i = 0xFFFFFFFF#32 then none else findFreeBit s i

def pmmAllocFrame (s : State) : State × Nat :=
  if s.freeFrames = 0 then (s, 0)
  else
    match findFreeFrame s with
    | some frame => ((frameSet s frame).setFree (s.freeFrames - 1), frame * pageSize)
    | none => (s, 0)

def pmmFreeFrame (s : State) (physAddr : Nat) : State :=
  let frame := physAddr / pageSize
  if frame ≥ maxFrames then s
  else if !frameTest s frame then s
  else (frameClear s frame).setFree ((s.freeFrames + 1) % 2 ^ 32)

/-! ## Bits -/

theorem frameSet_bitmap (s : State) (f : Nat) :
    (frameSet s f).bitmap = Function.update s.bitmap (f / 32)
      (s.bitmap (f / 32) ||| 1#32 <<< (f % 32)) := rfl

theorem frameClear_bitmap (s : State) (f : Nat) :
    (frameClear s f).bitmap = Function.update s.bitmap (f / 32)
      (s.bitmap (f / 32) &&& ~~~(1#32 <<< (f % 32))) := rfl

theorem frameTest_eq_getLsbD (s : State) (f : Nat) :
    frameTest s f = (s.bitmap (f / 32)).getLsbD (f % 32) := by
  have hbit : ∀ w : BitVec 32, (w &&& 1#32 != 0#32) = w.getLsbD 0 := by
    intro w
    cases h : w.getLsbD 0
    · have hz : w &&& 1#32 = 0#32 := by
        apply BitVec.eq_of_getLsbD_eq
        intro i hi
        rw [BitVec.getLsbD_and, BitVec.getLsbD_one, BitVec.getLsbD_zero]
        by_cases hi0 : i = 0
        · rw [hi0, h, Bool.false_and]
        · simp [hi0]
      simp [hz]
    · have hne : w &&& 1#32 ≠ 0#32 := by
        intro h0
        have hlow := congrArg (fun v => BitVec.getLsbD v 0) h0
        simp only [BitVec.getLsbD_and, h, BitVec.getLsbD_one, BitVec.getLsbD_zero] at hlow
        simp at hlow
      simpa using hne
  unfold frameTest
  rw [hbit, BitVec.getLsbD_ushiftRight, Nat.add_zero]

@[simp] theorem frameTest_frameSet (s : State) (f g : Nat) :
    frameTest (frameSet s f) g = (frameTest s g || decide (g = f)) := by
  rw [frameTest_eq_getLsbD, frameTest_eq_getLsbD, frameSet_bitmap]
  by_cases hw : g / 32 = f / 32
  · rw [hw, Function.update_self, BitVec.getLsbD_or, BitVec.getLsbD_shiftLeft]
    have hg : g % 32 < 32 := Nat.mod_lt _ (by decide)
    congr 1
    by_cases hb : g % 32 = f % 32
    · have hgf : g = f := by omega
      simp [hgf, Nat.mod_lt]
    · have hne : g ≠ f := by
        rintro rfl
        exact hb rfl
      by_cases hlt : g % 32 < f % 32
      · simp [hne, hlt]
      · have hsub : g % 32 - f % 32 ≠ 0 := by omega
        simp [hne, hsub]
  · rw [Function.update_of_ne hw]
    have hne : g ≠ f := by
      rintro rfl
      exact hw rfl
    simp [hne]

@[simp] theorem frameTest_frameClear (s : State) (f g : Nat) :
    frameTest (frameClear s f) g = (frameTest s g && !decide (g = f)) := by
  have hset := frameTest_frameSet ⟨fun _ => 0#32, 0, 0⟩ f g
  rw [frameTest_eq_getLsbD, frameTest_eq_getLsbD, frameSet_bitmap] at hset
  rw [frameTest_eq_getLsbD, frameTest_eq_getLsbD, frameClear_bitmap]
  by_cases hw : g / 32 = f / 32
  · have hg : g % 32 < 32 := Nat.mod_lt _ (by decide)
    simp only [hw, Function.update_self, BitVec.zero_or, BitVec.getLsbD_zero,
      Bool.false_or] at hset
    rw [hw, Function.update_self, BitVec.getLsbD_and, BitVec.getLsbD_not, hset]
    simp [hg]
  · rw [Function.update_of_ne hw]
    have hne : g ≠ f := by
      rintro rfl
      exact hw rfl
    simp [hne]

@[simp] theorem setFree_freeFrames (s : State) (n : Nat) :
    (s.setFree n).freeFrames = n := rfl

@[simp] theorem frameTest_setFree (s : State) (n f : Nat) :
    frameTest (s.setFree n) f = frameTest s f := rfl

@[simp] theorem frameSet_freeFrames (s : State) (f : Nat) :
    (frameSet s f).freeFrames = s.freeFrames := rfl

@[simp] theorem frameClear_freeFrames (s : State) (f : Nat) :
    (frameClear s f).freeFrames = s.freeFrames := rfl

/-- The bitmap is determined by its bits. -/
theorem bitmap_ext {s t : State} (h : ∀ f, frameTest s f = frameTest t f) :
    s.bitmap = t.bitmap := by
  funext i
  apply BitVec.eq_of_getLsbD_eq
  intro j hj
  have hf := h (32 * i + j)
  rw [frameTest_eq_getLsbD, frameTest_eq_getLsbD] at hf
  have hdiv : (32 * i + j) / 32 = i := by omega
  have hmod : (32 * i + j) % 32 = j := by omega
  rwa [hdiv, hmod] at hf

/-! ## The search for a free frame -/

private theorem findSome?_range_eq_some {n b : Nat} {f : Nat → Option Nat}
    (h : (List.range n).findSome? f = some b) :
    ∃ i, i < n ∧ f i = some b ∧ ∀ j, j < i → f j = none := by
  induction n with
  | zero => simp at h
  | succ n ih =>
      rw [List.range_succ, List.findSome?_append] at h
      cases hprev : (List.range n).findSome? f with
      | none =>
          rw [hprev] at h
          refine ⟨n, by omega, by simpa using h, ?_⟩
          intro j hj
          exact List.findSome?_eq_none_iff.mp hprev j (List.mem_range.mpr hj)
      | some c =>
          rw [hprev] at h
          obtain ⟨i, hi, hfi, hlt⟩ := ih (by rw [hprev]; simpa using h)
          exact ⟨i, by omega, hfi, hlt⟩

theorem frameTest_of_full {s : State} {i f : Nat} (hfull : s.bitmap i = 0xFFFFFFFF#32)
    (hf : f / 32 = i) : frameTest s f = true := by
  rw [frameTest_eq_getLsbD, hf, hfull]
  have hones : (0xFFFFFFFF#32) = BitVec.allOnes 32 := by decide
  rw [hones, BitVec.getLsbD_allOnes]
  simpa using Nat.mod_lt f (by decide : 0 < 32)

theorem findFreeBit_eq_none {s : State} {i f : Nat} (h : findFreeBit s i = none)
    (hf : f / 32 = i) : frameTest s f = true := by
  unfold findFreeBit at h
  have hbit := List.findSome?_eq_none_iff.mp h (f % 32)
    (List.mem_range.mpr (Nat.mod_lt _ (by decide)))
  have hidx : i * 32 + f % 32 = f := by omega
  rw [hidx] at hbit
  by_contra hne
  simp [hne] at hbit

theorem findFreeBit_eq_some {s : State} {i f : Nat} (h : findFreeBit s i = some f) :
    f / 32 = i ∧ frameTest s f = false ∧
      ∀ g, g / 32 = i → g < f → frameTest s g = true := by
  obtain ⟨bit, hbit, hval, hprev⟩ := findSome?_range_eq_some h
  simp only at hval hprev
  split at hval
  · cases hval
  · rename_i htest
    injection hval with hval
    subst hval
    refine ⟨by omega, by simpa using htest, ?_⟩
    intro g hg hlt
    have hidx : i * 32 + g % 32 = g := by omega
    have hnone := hprev (g % 32) (by omega)
    rw [hidx] at hnone
    by_contra hne
    simp [hne] at hnone

theorem findFreeFrame_eq_none {s : State} (h : findFreeFrame s = none) :
    ∀ f, f < maxFrames → frameTest s f = true := by
  intro f hf
  have hword := List.findSome?_eq_none_iff.mp h (f / 32)
    (List.mem_range.mpr (by unfold maxFrames at *; omega))
  split at hword
  · rename_i hfull
    exact frameTest_of_full hfull rfl
  · exact findFreeBit_eq_none hword rfl

/-- The word-skipping scan finds the lowest-numbered free frame. -/
theorem findFreeFrame_eq_some {s : State} {f : Nat} (h : findFreeFrame s = some f) :
    f < maxFrames ∧ frameTest s f = false ∧
      ∀ g, g < f → frameTest s g = true := by
  obtain ⟨i, hi, hval, hprev⟩ := findSome?_range_eq_some h
  split at hval
  · cases hval
  · obtain ⟨hdiv, hfree, hlow⟩ := findFreeBit_eq_some hval
    refine ⟨by unfold maxFrames at *; omega, hfree, ?_⟩
    intro g hg
    by_cases hsame : g / 32 = i
    · exact hlow g hsame hg
    · have hnone := hprev (g / 32) (by omega)
      split at hnone
      · rename_i hfull
        exact frameTest_of_full hfull rfl
      · exact findFreeBit_eq_none hnone rfl

/-! ## Counting free frames -/

/-- The frames whose bit is clear. -/
def freeSet (s : State) : Finset Nat :=
  (Finset.range maxFrames).filter fun f => frameTest s f = false

theorem mem_freeSet {s : State} {f : Nat} :
    f ∈ freeSet s ↔ f < maxFrames ∧ frameTest s f = false := by
  simp [freeSet]

@[simp] theorem freeSet_setFree (s : State) (n : Nat) : freeSet (s.setFree n) = freeSet s := rfl

theorem freeSet_frameSet (s : State) (f : Nat) :
    freeSet (frameSet s f) = (freeSet s).erase f := by
  ext g
  simp only [mem_freeSet, frameTest_frameSet, Finset.mem_erase, Bool.or_eq_false_iff,
    decide_eq_false_iff_not]
  tauto

theorem freeSet_frameClear {s : State} {f : Nat} (hf : f < maxFrames) :
    freeSet (frameClear s f) = insert f (freeSet s) := by
  ext g
  simp only [mem_freeSet, frameTest_frameClear, Finset.mem_insert]
  by_cases hg : g = f
  · subst hg
    simp [hf]
  · simp [hg]

theorem freeSet_card_le (s : State) : (freeSet s).card ≤ maxFrames := by
  have h := Finset.card_filter_le (Finset.range maxFrames) fun f => frameTest s f = false
  rwa [Finset.card_range] at h

/-! ## What one call does -/

/-- Everything `pmm_alloc_frame` can do.  The counter can stop it before the
bitmap is full, so both reasons for a zero result are kept apart here. -/
theorem pmmAllocFrame_cases (s : State) :
    (∃ f, 0 < s.freeFrames ∧ f < maxFrames ∧ frameTest s f = false ∧
      (∀ g, g < f → frameTest s g = true) ∧
      pmmAllocFrame s =
        ((frameSet s f).setFree (s.freeFrames - 1), f * pageSize)) ∨
    ((s.freeFrames = 0 ∨ ∀ f, f < maxFrames → frameTest s f = true) ∧
      pmmAllocFrame s = (s, 0)) := by
  unfold pmmAllocFrame
  by_cases hzero : s.freeFrames = 0
  · right
    exact ⟨Or.inl hzero, by rw [if_pos hzero]⟩
  · rw [if_neg hzero]
    cases hfind : findFreeFrame s with
    | none =>
        right
        exact ⟨Or.inr (findFreeFrame_eq_none hfind), rfl⟩
    | some f =>
        left
        obtain ⟨hlt, hfree, hlow⟩ := findFreeFrame_eq_some hfind
        exact ⟨f, Nat.pos_of_ne_zero hzero, hlt, hfree, hlow, rfl⟩

/-- Freeing an allocated frame clears its bit and counts it. -/
theorem pmmFreeFrame_of_used {s : State} {a : Nat} (hlt : a / pageSize < maxFrames)
    (hused : frameTest s (a / pageSize) = true) :
    pmmFreeFrame s a =
      (frameClear s (a / pageSize)).setFree ((s.freeFrames + 1) % 2 ^ 32) := by
  unfold pmmFreeFrame
  rw [if_neg (by omega), if_neg (by simp [hused])]

/-- Whatever the address, a free clears at most the bit of its own frame. -/
theorem frameTest_pmmFreeFrame (s : State) {a g : Nat} (hg : g < maxFrames) :
    frameTest (pmmFreeFrame s a) g = (frameTest s g && !decide (g = a / pageSize)) := by
  by_cases hlt : a / pageSize < maxFrames
  · cases hused : frameTest s (a / pageSize) with
    | true =>
        rw [pmmFreeFrame_of_used hlt hused]
        rw [frameTest_setFree, frameTest_frameClear]
    | false =>
        unfold pmmFreeFrame
        rw [if_neg (by omega), if_pos (by simp [hused])]
        by_cases hga : g = a / pageSize
        · rw [hga, hused]
          rfl
        · simp [hga]
  · unfold pmmFreeFrame
    rw [if_pos (by omega)]
    have hga : g ≠ a / pageSize := by omega
    simp [hga]

end StakOS.Pmm
