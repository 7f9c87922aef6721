import Mathlib.Data.Set.Basic
import Mathlib.Tactic.Common

/-!
# Maximal runs in a set of numbers

The maximal stretches of consecutive elements of a set `S`.  Two of them are
equal or lie apart, so they partition the set, and multiplying by a block size
carries the runs of block numbers to the runs of the elements of the blocks.
-/

namespace StakOS.Lib.Interval

variable {S : Set Nat}

/-- The elements `lo, …, hi - 1` belong to `S` and their neighbours do not. -/
structure MaximalRun (S : Set Nat) (lo hi : Nat) : Prop where
  nonempty : lo < hi
  inside : ∀ a, lo ≤ a → a < hi → a ∈ S
  left : ∀ a, a + 1 = lo → a ∉ S
  right : hi ∉ S

namespace MaximalRun

/-- A maximal run contains every run it meets. -/
theorem contains {lo hi lo' hi' a : Nat} (h : MaximalRun S lo hi)
    (hinside : ∀ x, lo' ≤ x → x < hi' → x ∈ S) (hlo : lo ≤ a) (hhi : a < hi) (hlo' : lo' ≤ a)
    (hhi' : a < hi') : lo ≤ lo' ∧ hi' ≤ hi := by
  constructor
  · by_contra hless
    exact h.left (lo - 1) (by omega) (hinside (lo - 1) (by omega) (by omega))
  · by_contra hless
    exact h.right (hinside hi (by omega) (by omega))

/-- Maximal runs that meet are equal. -/
theorem unique {lo hi lo' hi' a : Nat} (h : MaximalRun S lo hi) (h' : MaximalRun S lo' hi')
    (hlo : lo ≤ a) (hhi : a < hi) (hlo' : lo' ≤ a) (hhi' : a < hi') : lo = lo' ∧ hi = hi' := by
  have hsub := h.contains h'.inside hlo hhi hlo' hhi'
  have hsup := h'.contains h.inside hlo' hhi' hlo hhi
  omega

end MaximalRun

/-! ## Blocks of equal size -/

section Blocks

variable {k : Nat} (hk : 0 < k)

include hk

/-- A run of blocks is a run of their elements. -/
theorem MaximalRun.mul {lo hi : Nat} (h : MaximalRun S lo hi) :
    MaximalRun { a | a / k ∈ S } (lo * k) (hi * k) where
  nonempty := Nat.mul_lt_mul_of_pos_right h.nonempty hk
  inside a hlo hhi :=
    h.inside (a / k) ((Nat.le_div_iff_mul_le hk).mpr hlo) ((Nat.div_lt_iff_lt_mul hk).mpr hhi)
  left a ha := by
    intro hmem
    have hlo : lo ≠ 0 := by
      rintro rfl
      omega
    -- the element before the run lies in the block before the first one
    have hblock : a / k + 1 = lo := by
      apply Nat.le_antisymm
      · exact (Nat.div_lt_iff_lt_mul hk).mpr (by omega)
      · have hle : (lo - 1) * k ≤ a := by
          rw [Nat.sub_mul]
          omega
        have hdiv := (Nat.le_div_iff_mul_le hk).mpr hle
        omega
    exact h.left (a / k) hblock hmem
  right := by
    intro hmem
    have hdiv : hi * k / k = hi := Nat.mul_div_cancel hi hk
    rw [Set.mem_ofPred_eq, hdiv] at hmem
    exact h.right hmem

/-- An element and its predecessor share a block unless a block begins there. -/
theorem pred_div_eq {a : Nat} (hpos : a + 1 ≠ (a + 1) / k * k) : a / k = (a + 1) / k := by
  have hlow := Nat.div_mul_le_self (a + 1) k
  apply Nat.le_antisymm
  · exact Nat.div_le_div_right (Nat.le_succ a)
  · exact (Nat.le_div_iff_mul_le hk).mpr (by omega)

/-- A maximal run of elements begins and ends with a block. -/
theorem MaximalRun.eq_mul {lo hi : Nat} (h : MaximalRun { a | a / k ∈ S } lo hi) :
    lo = lo / k * k ∧ hi = hi / k * k := by
  constructor
  · by_contra hne
    cases lo with
    | zero => simp at hne
    | succ a =>
        apply h.left a rfl
        rw [Set.mem_ofPred_eq, pred_div_eq hk hne]
        exact h.inside (a + 1) (le_refl _) h.nonempty
  · by_contra hne
    cases hi with
    | zero => simp at hne
    | succ a =>
        apply h.right
        rw [Set.mem_ofPred_eq, ← pred_div_eq hk hne]
        exact h.inside a (Nat.le_of_lt_succ h.nonempty) (Nat.lt_succ_self a)

theorem maximalRun_blocks_iff {lo hi : Nat} :
    MaximalRun { a | a / k ∈ S } lo hi ↔
      ∃ f g, MaximalRun S f g ∧ lo = f * k ∧ hi = g * k := by
  constructor
  · intro h
    obtain ⟨hlo, hhi⟩ := h.eq_mul hk
    refine ⟨lo / k, hi / k, ⟨?_, ?_, ?_, ?_⟩, hlo, hhi⟩
    · apply Nat.lt_of_mul_lt_mul_right (a := k)
      rw [← hlo, ← hhi]
      exact h.nonempty
    · intro f hf hg
      have hmem := h.inside (f * k)
        (by rw [hlo]; exact Nat.mul_le_mul_right k hf)
        (by rw [hhi]; exact Nat.mul_lt_mul_of_pos_right hg hk)
      rwa [Set.mem_ofPred_eq, Nat.mul_div_cancel f hk] at hmem
    · intro f hf hmem
      have hprev : (f + 1) * k = lo := by
        rw [hf]
        exact hlo.symm
      rw [Nat.succ_mul] at hprev
      apply h.left (lo - 1) (by omega)
      have hdiv : (lo - 1) / k = f := by
        apply Nat.div_eq_of_lt_le
        · omega
        · rw [Nat.succ_mul]
          omega
      rw [Set.mem_ofPred_eq, hdiv]
      exact hmem
    · intro hmem
      exact h.right hmem
  · rintro ⟨f, g, h, rfl, rfl⟩
    exact h.mul hk

end Blocks

end StakOS.Lib.Interval
