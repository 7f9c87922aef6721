import Mathlib.Data.List.Sort
import StakOS.Pmm.Used

/-!
# First fit

`pmm_alloc_frame` takes the lowest free frame: in terms of the list of the free
frames in order, it takes the head.
-/

namespace StakOS.Pmm

/-- The free frames, lowest first. -/
def freeList (s : State) : List Nat := (List.range maxFrames).filter fun f => !frameTest s f

theorem mem_freeList {s : State} {f : Nat} :
    f ∈ freeList s ↔ f < maxFrames ∧ frameTest s f = false := by
  simp [freeList]

theorem freeList_pairwise (s : State) : (freeList s).Pairwise (· < ·) :=
  List.pairwise_lt_range.filter _

theorem freeList_alloc {s s' : State} {a : Nat} (h : pmmAllocFrame s = (s', a)) (ha : a ≠ 0) :
    ∃ f, a = f * pageSize ∧ freeList s = f :: freeList s' := by
  rcases pmmAllocFrame_cases s with ⟨f, -, hlt, hfree, hlow, heq⟩ | ⟨-, heq⟩
  · rw [heq] at h
    cases h
    refine ⟨f, rfl, ?_⟩
    have hmem : ∀ g, g ∈ freeList ((frameSet s f).setFree (s.freeFrames - 1)) ↔
        g ∈ freeList s ∧ g ≠ f := by
      intro g
      rw [mem_freeList, mem_freeList, frameTest_setFree, frameTest_frameSet, Bool.or_eq_false_iff,
        decide_eq_false_iff_not, and_assoc]
    apply (freeList_pairwise s).eq_of_mem_iff
    · rw [List.pairwise_cons]
      refine ⟨fun g hg => ?_, freeList_pairwise _⟩
      -- Every frame below `f` is in use.
      obtain ⟨hg, hne⟩ := (hmem g).mp hg
      by_contra hle
      have hused := hlow g (by omega)
      rw [(mem_freeList.mp hg).2] at hused
      cases hused
    · intro g
      rw [List.mem_cons, hmem]
      constructor
      · intro hg
        by_cases hgf : g = f
        · exact Or.inl hgf
        · exact Or.inr ⟨hg, hgf⟩
      · rintro (rfl | hg)
        · exact mem_freeList.mpr ⟨hlt, hfree⟩
        · exact hg.1
  · rw [heq] at h
    cases h
    exact absurd rfl ha

end StakOS.Pmm
