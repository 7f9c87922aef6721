import Mathlib.Logic.Relation
import StakOS.Pmm.Used

/-!
# Calls of the frame allocator

Whatever the two calls are given, they move the counter with the bitmap.  So a
run of calls that ends with the same frames in use ends in the same state.
-/

namespace StakOS.Pmm

open Relation (ReflTransGen)

/-- One call, whatever it is given. -/
inductive AnyCall : State → State → Prop
  | alloc (s : State) : AnyCall s (pmmAllocFrame s).1
  | free (s : State) (a : Nat) : AnyCall s (pmmFreeFrame s a)

/-- A free clears the bit of a frame in use and counts it, or does nothing. -/
theorem pmmFreeFrame_cases (s : State) (a : Nat) :
    (a / pageSize < maxFrames ∧ frameTest s (a / pageSize) = true ∧ pmmFreeFrame s a =
      (frameClear s (a / pageSize)).setFree ((s.freeFrames + 1) % 2 ^ 32)) ∨
    pmmFreeFrame s a = s := by
  by_cases hlt : a / pageSize < maxFrames
  · cases hused : frameTest s (a / pageSize) with
    | true => exact Or.inl ⟨hlt, rfl, pmmFreeFrame_of_used hlt hused⟩
    | false =>
        right
        unfold pmmFreeFrame
        rw [if_neg (by omega), if_pos (by simp [hused])]
  · right
    unfold pmmFreeFrame
    rw [if_pos (by omega)]

theorem calls_foldl_free (s : State) (as : List Nat) :
    ReflTransGen AnyCall s (as.foldl pmmFreeFrame s) := by
  induction as generalizing s with
  | nil => exact .refl
  | cons a as ih => exact .head (.free s a) (ih (pmmFreeFrame s a))

/-! ## The counter is a word -/

theorem AnyCall.word {s s' : State} (h : AnyCall s s') (hword : s.freeFrames < 2 ^ 32) :
    s'.freeFrames < 2 ^ 32 := by
  cases h with
  | alloc =>
      rcases pmmAllocFrame_cases s with ⟨f, -, -, -, -, heq⟩ | ⟨-, heq⟩
      · rw [heq]
        exact lt_of_le_of_lt (Nat.sub_le s.freeFrames 1) hword
      · rw [heq]
        exact hword
  | free a =>
      rcases pmmFreeFrame_cases s a with ⟨-, -, heq⟩ | heq
      · rw [heq]
        exact Nat.mod_lt _ (by decide)
      · rw [heq]
        exact hword

theorem word_of_calls {s s' : State} (h : ReflTransGen AnyCall s s')
    (hword : s.freeFrames < 2 ^ 32) : s'.freeFrames < 2 ^ 32 := by
  induction h with
  | refl => exact hword
  | tail _ hcall ih => exact hcall.word ih

/-! ## Counter and bitmap -/

/-- From `s` to `s'` the counter has moved with the bitmap, and the bits beyond the
last frame have not moved. -/
structure InStep (s s' : State) : Prop where
  total : s'.totalFrames = s.totalFrames
  above : ∀ f, maxFrames ≤ f → frameTest s' f = frameTest s f
  count : s'.freeFrames + (freeSet s).card = s.freeFrames + (freeSet s').card

theorem InStep.refl (s : State) : InStep s s := ⟨rfl, fun _ _ => rfl, rfl⟩

theorem InStep.trans {s t u : State} (h : InStep s t) (h' : InStep t u) : InStep s u := by
  refine ⟨h'.total.trans h.total, fun f hf => (h'.above f hf).trans (h.above f hf), ?_⟩
  have hcount := h.count
  have hcount' := h'.count
  omega

theorem inStep_alloc (s : State) : InStep s (pmmAllocFrame s).1 := by
  rcases pmmAllocFrame_cases s with ⟨f, hpos, hlt, hfree, -, heq⟩ | ⟨-, heq⟩
  · have hmem : f ∈ freeSet s := mem_freeSet.mpr ⟨hlt, hfree⟩
    rw [heq]
    refine ⟨rfl, fun g hg => ?_, ?_⟩
    · have hne : g ≠ f := by omega
      rw [frameTest_setFree, frameTest_frameSet, decide_eq_false hne, Bool.or_false]
    · show s.freeFrames - 1 + (freeSet s).card = s.freeFrames + ((freeSet (frameSet s f))).card
      have hone : 0 < (freeSet s).card := Finset.card_pos.mpr ⟨f, hmem⟩
      rw [freeSet_frameSet, Finset.card_erase_of_mem hmem]
      omega
  · rw [heq]
    exact .refl s

theorem inStep_free (s : State) (a : Nat)
    (hroom : (freeSet (pmmFreeFrame s a)).card + s.freeFrames < 2 ^ 32 + (freeSet s).card) :
    InStep s (pmmFreeFrame s a) := by
  rcases pmmFreeFrame_cases s a with ⟨hlt, hused, heq⟩ | heq
  · have hout : a / pageSize ∉ freeSet s := by
      rw [mem_freeSet, hused]
      simp
    rw [heq, freeSet_setFree, freeSet_frameClear hlt, Finset.card_insert_of_notMem hout] at hroom
    rw [heq]
    refine ⟨rfl, fun g hg => ?_, ?_⟩
    · have hne : g ≠ a / pageSize := by omega
      rw [frameTest_setFree, frameTest_frameClear, decide_eq_false hne, Bool.not_false,
        Bool.and_true]
    · rw [freeSet_setFree, freeSet_frameClear hlt, Finset.card_insert_of_notMem hout,
        setFree_freeFrames, Nat.mod_eq_of_lt (by omega)]
      omega
  · rw [heq]
    exact .refl s

theorem freeSet_subset_free (s : State) (a : Nat) : freeSet s ⊆ freeSet (pmmFreeFrame s a) := by
  intro f hf
  obtain ⟨hlt, hfree⟩ := mem_freeSet.mp hf
  rw [mem_freeSet, frameTest_pmmFreeFrame s hlt, hfree]
  exact ⟨hlt, rfl⟩

theorem freeSet_subset_foldl_free (s : State) (as : List Nat) :
    freeSet s ⊆ freeSet (as.foldl pmmFreeFrame s) := by
  induction as generalizing s with
  | nil => exact Finset.Subset.refl _
  | cons a as ih => exact (freeSet_subset_free s a).trans (ih (pmmFreeFrame s a))

/-- Giving frames back does not overflow the counter as long as none is given back
that was free at `s`. -/
theorem InStep.foldl_free {s t : State} (h : InStep s t) (hword : s.freeFrames < 2 ^ 32)
    {as : List Nat} (hsub : freeSet (as.foldl pmmFreeFrame t) ⊆ freeSet s) :
    InStep s (as.foldl pmmFreeFrame t) := by
  induction as generalizing t with
  | nil => exact h
  | cons a as ih =>
      apply ih _ hsub
      have hcard : (freeSet (pmmFreeFrame t a)).card ≤ (freeSet s).card :=
        Finset.card_le_card ((freeSet_subset_foldl_free (pmmFreeFrame t a) as).trans hsub)
      have hcount := h.count
      exact h.trans (inStep_free t a (by omega))

/-- The frame an allocation takes is the one that is no longer free. -/
theorem mem_freeSet_sdiff_alloc {s s' : State} {a f : Nat} (h : pmmAllocFrame s = (s', a))
    (ha : a ≠ 0) : f ∈ freeSet s \ freeSet s' ↔ f * pageSize = a := by
  rcases pmmAllocFrame_cases s with ⟨g, -, hlt, hfree, -, heq⟩ | ⟨-, heq⟩
  · rw [heq] at h
    cases h
    have hmem : g ∈ freeSet s := mem_freeSet.mpr ⟨hlt, hfree⟩
    rw [freeSet_setFree, freeSet_frameSet, Finset.mem_sdiff, Finset.mem_erase,
      Nat.mul_left_inj (by decide)]
    constructor
    · rintro ⟨hf, hout⟩
      by_contra hne
      exact hout ⟨hne, hf⟩
    · rintro rfl
      exact ⟨hmem, fun hc => hc.1 rfl⟩
  · rw [heq] at h
    cases h
    exact absurd rfl ha

/-- The same frames in use, the same state. -/
theorem InStep.eq {s t : State} (h : InStep s t) (hused : usedFrames t = usedFrames s) : t = s := by
  have hfree : freeSet t = freeSet s := freeSet_eq_iff.mpr hused
  have hbits : ∀ f, frameTest t f = frameTest s f := by
    intro f
    by_cases hf : f < maxFrames
    · have hmem : f * pageSize ∈ usedFrames t ↔ f * pageSize ∈ usedFrames s := by rw [hused]
      rw [mul_mem_usedFrames hf, mul_mem_usedFrames hf] at hmem
      exact Bool.eq_iff_iff.mpr hmem
    · exact h.above f (Nat.le_of_not_lt hf)
  have hcount := h.count
  rw [hfree] at hcount
  cases s
  cases t
  simp only [State.mk.injEq]
  exact ⟨bitmap_ext hbits, h.total, Nat.add_right_cancel hcount⟩

theorem freeSet_subset_iff {s t : State} : freeSet t ⊆ freeSet s ↔ usedFrames s ⊆ usedFrames t := by
  constructor
  · rintro h a ⟨hal, hlt, hused⟩
    refine ⟨hal, hlt, ?_⟩
    by_contra hfree
    rw [Bool.not_eq_true] at hfree
    have hmem := mem_freeSet.mp (h (mem_freeSet.mpr ⟨hlt, hfree⟩))
    rw [hmem.2] at hused
    cases hused
  · intro h f hf
    obtain ⟨hlt, hfree⟩ := mem_freeSet.mp hf
    refine mem_freeSet.mpr ⟨hlt, ?_⟩
    rw [← Bool.not_eq_true]
    intro hused
    have hmem := h ((mul_mem_usedFrames hlt).mpr hused)
    rw [mul_mem_usedFrames hlt, hfree] at hmem
    cases hmem

theorem usedFrames_subset_alloc (s : State) :
    usedFrames s ⊆ usedFrames (pmmAllocFrame s).1 := by
  apply freeSet_subset_iff.mp
  rcases pmmAllocFrame_cases s with ⟨f, -, -, -, -, heq⟩ | ⟨-, heq⟩
  · rw [heq, freeSet_setFree, freeSet_frameSet]
    exact Finset.erase_subset f _
  · rw [heq]

/-! ## The order of frees -/

theorem pmmFreeFrame_of_idle {s : State} {b : Nat}
    (hb : ¬(b / pageSize < maxFrames ∧ frameTest s (b / pageSize) = true)) :
    pmmFreeFrame s b = s := by
  rcases pmmFreeFrame_cases s b with ⟨hlt, hused, -⟩ | hsame
  · exact absurd ⟨hlt, hused⟩ hb
  · exact hsame

/-- A free that does nothing does nothing behind another one either. -/
theorem free_comm_of_idle {s : State} (a : Nat) {b : Nat}
    (hb : ¬(b / pageSize < maxFrames ∧ frameTest s (b / pageSize) = true)) :
    pmmFreeFrame (pmmFreeFrame s a) b = pmmFreeFrame (pmmFreeFrame s b) a := by
  rw [pmmFreeFrame_of_idle hb]
  apply pmmFreeFrame_of_idle
  rintro ⟨hlt, hused⟩
  rw [frameTest_pmmFreeFrame s hlt, Bool.and_eq_true] at hused
  exact hb ⟨hlt, hused.1⟩

/-- Two frees can be exchanged. -/
theorem pmmFreeFrame_comm (s : State) (a b : Nat) :
    pmmFreeFrame (pmmFreeFrame s a) b = pmmFreeFrame (pmmFreeFrame s b) a := by
  by_cases ha : a / pageSize < maxFrames ∧ frameTest s (a / pageSize) = true
  · by_cases hb : b / pageSize < maxFrames ∧ frameTest s (b / pageSize) = true
    · by_cases hab : a / pageSize = b / pageSize
      · have hsame : ∀ t, pmmFreeFrame t a = pmmFreeFrame t b := by
          intro t
          unfold pmmFreeFrame
          rw [hab]
        rw [hsame s, hsame]
      · have ha' : frameTest (pmmFreeFrame s b) (a / pageSize) = true := by
          rw [frameTest_pmmFreeFrame s ha.1, ha.2]
          simp [hab]
        have hb' : frameTest (pmmFreeFrame s a) (b / pageSize) = true := by
          rw [frameTest_pmmFreeFrame s hb.1, hb.2]
          simp [Ne.symm hab]
        rw [pmmFreeFrame_of_used ha.1 ha', pmmFreeFrame_of_used hb.1 hb',
          pmmFreeFrame_of_used ha.1 ha.2, pmmFreeFrame_of_used hb.1 hb.2]
        simp only [State.setFree, frameClear, State.mk.injEq, and_true]
        apply bitmap_ext (s := frameClear (frameClear s _) _) (t := frameClear (frameClear s _) _)
        intro f
        simp only [frameTest_frameClear]
        rw [Bool.and_assoc, Bool.and_assoc, Bool.and_comm (!decide (f = a / pageSize))]
    · exact free_comm_of_idle a hb
  · exact (free_comm_of_idle b ha).symm

/-- The order in which frames are freed does not matter. -/
theorem foldl_free_perm (s : State) {as bs : List Nat} (h : as.Perm bs) :
    as.foldl pmmFreeFrame s = bs.foldl pmmFreeFrame s :=
  h.foldl_eq' (fun a _ b _ t => pmmFreeFrame_comm t a b) s

end StakOS.Pmm
