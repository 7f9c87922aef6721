import Mathlib.Data.Set.Insert
import StakOS.Pmm.Bitmap

/-!
# The frames in use

The bitmap read as a set of addresses, and how many allocations can succeed.
-/

namespace StakOS.Pmm

/-- The addresses of the frames that are in use. -/
def usedFrames (s : State) : Set Nat :=
  { a | a % pageSize = 0 ∧ a / pageSize < maxFrames ∧ frameTest s (a / pageSize) = true }

/-- How many allocations in a row succeed: the counter and the bitmap both have
to allow each of them. -/
def budget (s : State) : Nat := min s.freeFrames (freeSet s).card

theorem mem_usedFrames {s : State} {a : Nat} :
    a ∈ usedFrames s ↔
      a % pageSize = 0 ∧ a / pageSize < maxFrames ∧ frameTest s (a / pageSize) = true := Iff.rfl

theorem mul_mem_usedFrames {s : State} {f : Nat} (hf : f < maxFrames) :
    f * pageSize ∈ usedFrames s ↔ frameTest s f = true := by
  rw [mem_usedFrames, Nat.mul_mod_left, Nat.mul_div_cancel f (by decide)]
  simp [hf]

/-- The free frames are determined by the used ones. -/
theorem freeSet_eq_iff {s t : State} : freeSet s = freeSet t ↔ usedFrames s = usedFrames t := by
  constructor
  · intro h
    ext a
    rw [mem_usedFrames, mem_usedFrames]
    have hmem : a / pageSize ∈ freeSet s ↔ a / pageSize ∈ freeSet t := by rw [h]
    rw [mem_freeSet, mem_freeSet] at hmem
    cases hs : frameTest s (a / pageSize) <;> cases ht : frameTest t (a / pageSize) <;>
      simp_all
  · intro h
    ext f
    rw [mem_freeSet, mem_freeSet]
    refine and_congr_right fun hf => ?_
    have hmem : f * pageSize ∈ usedFrames s ↔ f * pageSize ∈ usedFrames t := by rw [h]
    rw [mul_mem_usedFrames hf, mul_mem_usedFrames hf] at hmem
    cases hs : frameTest s f <;> cases ht : frameTest t f <;> simp_all

theorem usedFrames_aligned {s : State} {a : Nat} (h : a ∈ usedFrames s) : a % pageSize = 0 := h.1

theorem usedFrames_lt {s : State} {a : Nat} (h : a ∈ usedFrames s) : a < 2 ^ 27 := by
  obtain ⟨-, hlt, -⟩ := h
  unfold maxFrames pageSize at hlt
  omega

/-- An allocation that succeeds takes a frame that was not in use. -/
theorem pmmAllocFrame_some {s s' : State} {a : Nat} (h : pmmAllocFrame s = (s', a))
    (ha : a ≠ 0) :
    a ∉ usedFrames s ∧ usedFrames s' = insert a (usedFrames s) ∧ a % pageSize = 0 ∧
      budget s = budget s' + 1 := by
  rcases pmmAllocFrame_cases s with ⟨f, hpos, hlt, hfree, -, heq⟩ | ⟨-, heq⟩
  · rw [heq] at h
    cases h
    refine ⟨?_, ?_, Nat.mul_mod_left f pageSize, ?_⟩
    · rw [mul_mem_usedFrames hlt, hfree]
      decide
    · ext b
      rw [Set.mem_insert_iff, mem_usedFrames, mem_usedFrames, frameTest_setFree,
        frameTest_frameSet, Bool.or_eq_true, decide_eq_true_eq]
      unfold pageSize at *
      constructor
      · rintro ⟨hal, hb, hused | hbf⟩
        · exact Or.inr ⟨hal, hb, hused⟩
        · left
          omega
      · rintro (hbf | ⟨hal, hb, hused⟩)
        · exact ⟨by omega, by omega, Or.inr (by omega)⟩
        · exact ⟨hal, hb, Or.inl hused⟩
    · have hmem : f ∈ freeSet s := mem_freeSet.mpr ⟨hlt, hfree⟩
      have hcard : ((freeSet s).erase f).card = (freeSet s).card - 1 := Finset.card_erase_of_mem hmem
      have hone : 0 < (freeSet s).card := Finset.card_pos.mpr ⟨f, hmem⟩
      unfold budget
      rw [freeSet_setFree, freeSet_frameSet, setFree_freeFrames, hcard]
      omega
  · rw [heq] at h
    cases h
    exact absurd rfl ha

theorem pmmAllocFrame_lt {s s' : State} {a : Nat} (h : pmmAllocFrame s = (s', a)) (ha : a ≠ 0) :
    a < 2 ^ 32 := by
  have hmem : a ∈ usedFrames s' := by
    rw [(pmmAllocFrame_some h ha).2.1]
    exact Set.mem_insert a _
  have hlt := usedFrames_lt hmem
  omega

/-- With frame 0 in use, an allocation that fails changes nothing, and nothing
was left. -/
theorem pmmAllocFrame_none {s s' : State} (h : pmmAllocFrame s = (s', 0))
    (hzero : 0 ∈ usedFrames s) : s' = s ∧ budget s = 0 := by
  rcases pmmAllocFrame_cases s with ⟨f, -, hlt, hfree, -, heq⟩ | ⟨hnone, heq⟩
  · rw [heq] at h
    have hf : f * pageSize = 0 := congrArg Prod.snd h
    have hused := hzero.2.2
    have hf0 : f = 0 := by
      unfold pageSize at hf
      omega
    rw [hf0] at hfree
    rw [Nat.zero_div, hfree] at hused
    cases hused
  · rw [heq] at h
    cases h
    refine ⟨rfl, ?_⟩
    unfold budget
    rcases hnone with hcount | hfull
    · rw [hcount, Nat.zero_min]
    · have hempty : freeSet s = ∅ := by
        ext f
        rw [mem_freeSet]
        constructor
        · rintro ⟨hf, hfree⟩
          rw [hfull f hf] at hfree
          cases hfree
        · intro hf
          simp at hf
      rw [hempty, Finset.card_empty, Nat.min_zero]

/-- Freeing a frame takes it out of use. -/
theorem usedFrames_pmmFreeFrame (s : State) {a : Nat} (ha : a % pageSize = 0) :
    usedFrames (pmmFreeFrame s a) = usedFrames s \ {a} := by
  ext b
  rw [Set.mem_sdiff, Set.mem_singleton_iff, mem_usedFrames, mem_usedFrames]
  constructor
  · rintro ⟨hal, hlt, hused⟩
    rw [frameTest_pmmFreeFrame s hlt, Bool.and_eq_true] at hused
    refine ⟨⟨hal, hlt, hused.1⟩, fun hba => ?_⟩
    simp [hba] at hused
  · rintro ⟨⟨hal, hlt, hused⟩, hba⟩
    refine ⟨hal, hlt, ?_⟩
    rw [frameTest_pmmFreeFrame s hlt, hused]
    have hne : b / pageSize ≠ a / pageSize := by
      unfold pageSize at *
      omega
    simp [hne]

theorem usedFrames_foldl_free (s : State) {as : List Nat} (has : ∀ a ∈ as, a % pageSize = 0) :
    usedFrames (as.foldl pmmFreeFrame s) = usedFrames s \ { a | a ∈ as } := by
  induction as generalizing s with
  | nil => simp
  | cons a as ih =>
      rw [List.foldl_cons, ih _ fun b hb => has b (List.mem_cons_of_mem a hb),
        usedFrames_pmmFreeFrame s (has a List.mem_cons_self)]
      ext b
      simp only [Set.mem_sdiff, Set.mem_singleton_iff, Set.mem_ofPred_eq, List.mem_cons, not_or,
        and_assoc]

end StakOS.Pmm
