import StakOS.Isolation.Spaces
import StakOS.Scheduler.Runs

/-!
# The identity map at boot

`paging_init` builds the identity map, and no process holds a frame yet.
-/

namespace StakOS.Process

open StakOS.Lib.Memory StakOS.Lib.Ownership StakOS.Paging

section IdentityTables

variable {st : Statics} {m : Mem} {t : Nat}

theorem identityPts_ne_kernelPd {i : Nat} (hi : i < identityPtCount) :
    st.identityPts + 4096 * i ≠ st.kernelPd := by
  have hapart := st.apart
  have hal := st.identityPts_aligned
  have hal' := st.kernelPd_aligned
  unfold identityPtCount at hi
  omega

theorem identityPage_lt {i j : Nat} (hi : i < identityPtCount) (hj : j < ptEntries) :
    identityPage i j < 2 ^ 32 := by
  unfold identityPtCount at hi
  unfold ptEntries at hj
  unfold identityPage
  rw [Nat.lor_assoc]
  refine or_flags_lt ?_ (by decide) ?_
  · unfold ptEntries Pmm.pageSize
    omega
  · unfold ptEntries Pmm.pageSize
    omega

theorem identityEntry_lt {i : Nat} (hi : i < identityPtCount) : identityEntry st i < 2 ^ 32 := by
  have hal := st.identityPts_aligned
  have hend := st.identityPts_end
  have hle := st.kernelEnd_le
  unfold identityPtCount at hi
  unfold identityEntry
  rw [Nat.lor_assoc]
  exact or_flags_lt (by omega) (by decide) (by omega)

/-- One window: its table, its entry, and nothing else. -/
theorem identityTable_spec (ht : t < identityPtCount) :
    (∀ j, j < ptEntries → entry (identityTable st m t) (st.identityPts + 4096 * t) j =
      identityPage t j) ∧
    entry (identityTable st m t) st.kernelPd t = identityEntry st t ∧
    (∀ i, i < pdEntries → i ≠ t →
      entry (identityTable st m t) st.kernelPd i = entry m st.kernelPd i) ∧
    ∀ i j, i < identityPtCount → i ≠ t → j < ptEntries →
      entry (identityTable st m t) (st.identityPts + 4096 * i) j =
        entry m (st.identityPts + 4096 * i) j := by
  have hpts : ∀ i, (st.identityPts + 4096 * i) % 4096 = 0 := by
    intro i
    have := st.identityPts_aligned
    omega
  have htlt : t < 1024 := ht.trans (by decide)
  have hwords := writeWords_sameOff m (fun i => identityPage t i) (hpts t)
  have hset := setEntry_sameOff (writeWords m (st.identityPts + 4096 * t)
    (fun i => identityPage t i) 1024) (identityEntry st t) st.kernelPd_aligned htlt
  have hne : st.identityPts + 4096 * t ≠ st.kernelPd := identityPts_ne_kernelPd ht
  unfold identityTable
  refine ⟨fun j hj => ?_, ?_, fun i hi hit => ?_, fun i j hi hit hj => ?_⟩
  · exact (hset.entry_eq (hpts t) hj fun hmem => hne (Set.mem_singleton_iff.mp hmem)).trans
      (entry_writeWords m _ (identityPage_lt ht hj) hj)
  · exact entry_setEntry_same _ _ _ (identityEntry_lt ht)
  · refine (entry_setEntry_other _ _ st.kernelPd_aligned st.kernelPd_aligned htlt hi
      (Or.inr (Ne.symm hit))).trans ?_
    exact hwords.entry_eq st.kernelPd_aligned hi fun hmem => hne (Set.mem_singleton_iff.mp hmem).symm
  · refine (hset.entry_eq (hpts i) hj fun hmem =>
      identityPts_ne_kernelPd hi (Set.mem_singleton_iff.mp hmem)).trans ?_
    refine hwords.entry_eq (hpts i) hj fun hmem => hit ?_
    have heq := Set.mem_singleton_iff.mp hmem
    omega

/-- The windows below `t` are in place and the rest of the directory is as it was. -/
structure Windows (st : Statics) (m m' : Mem) (t : Nat) : Prop where
  directory : ∀ i, i < t → entry m' st.kernelPd i = identityEntry st i
  tables : ∀ i j, i < t → j < ptEntries →
    entry m' (st.identityPts + 4096 * i) j = identityPage i j
  rest : ∀ i, t ≤ i → i < pdEntries → entry m' st.kernelPd i = entry m st.kernelPd i

theorem identityTables_windows (ht : t ≤ identityPtCount) :
    Windows st m (identityTables st m t) t := by
  induction t with
  | zero => exact ⟨fun i hi => absurd hi (Nat.not_lt_zero i),
      fun i j hi => absurd hi (Nat.not_lt_zero i), fun _ _ _ => rfl⟩
  | succ t ih =>
      have h := ih (Nat.le_of_succ_le ht)
      obtain ⟨htable, hself, hdir, hothers⟩ :=
        @identityTable_spec st (identityTables st m t) t ht
      refine ⟨fun i hi => ?_, fun i j hi hj => ?_, fun i hi hlt => ?_⟩
      · by_cases hit : i = t
        · rw [hit]
          exact hself
        · have hlt : i < t := by omega
          have hdirlt : i < pdEntries := (hlt.trans ht).trans (by decide)
          exact (hdir i hdirlt hit).trans (h.directory i hlt)
      · by_cases hit : i = t
        · rw [hit]
          exact htable j hj
        · have hlt : i < t := by omega
          exact (hothers i j (hlt.trans ht) hit hj).trans (h.tables i j hlt hj)
      · exact (hdir i hlt (by omega)).trans (h.rest i (by omega) hlt)

/-- `paging_init` on a directory whose upper entries are zero. -/
theorem pagingInit_identity
    (hzero : ∀ i, identityPtCount ≤ i → i < pdEntries → entry m st.kernelPd i = 0) :
    IdentityMap st (pagingInit st m) := by
  have h : Windows st m (pagingInit st m) identityPtCount :=
    identityTables_windows (Nat.le_refl identityPtCount)
  refine ⟨h.directory, h.tables, fun i => ?_⟩
  cases hat : tableAt (pagingInit st m) st.kernelPd i with
  | none => rfl
  | some pt =>
      obtain ⟨hle, hlt, hpresent, -⟩ := tableAt_eq_some.mp hat
      have hread : entry (pagingInit st m) st.kernelPd i = 0 :=
        (h.rest i hle hlt).trans (hzero i hle hlt)
      rw [hread] at hpresent
      cases hpresent

end IdentityTables

/-- The allocator when the first process can be made. -/
def Boot.pmm₀ {img : Image} (b : Boot img) : Pmm.State := b.bare.ms.pmm

theorem boot_kernelUsed {img : Image} (b : Boot img) : KernelUsed img.toStatics b.pmm₀ := by
  intro a hal hlt
  obtain ⟨bs, prev, hfill⟩ := Kmalloc.kmallocInit_fills b.heapPages b.pmm
    (h := Kmalloc.noHeap b.mem) rfl
  have hle := img.kernelEnd_le
  refine ⟨hal, ?_, hfill.kept _ (b.kernelUsed _ ?_)⟩
  · unfold Pmm.pageSize Pmm.maxFrames
    omega
  · unfold Pmm.pageSize
    omega

theorem boot_leases {img : Image} (b : Boot img) (closed : Prop) (fr : Nat → Frames) :
    Leases closed img.toStatics b.pmm₀ b.kernel.ms [] fr := by
  rw [boot_kernel_eq]
  have hidentity := pagingInit_identity b.pdZero
  refine ⟨boot_kernelUsed b, subset_rfl, ⟨?_, ?_⟩, ⟨hidentity.directory, hidentity.rest, by simp,
    fun _ => ⟨by simp, hidentity.tables⟩⟩, fun i j hi hj huser => ?_⟩
  · rintro ⟨p, sl⟩ a h
    rw [holdings_of_notMem (by simp)] at h
    cases h
  · rintro ⟨p, sl⟩ t a h
    rw [holdings_of_notMem (by simp)] at h
    cases h
  · change hasFlag (entry (pagingInit img.toStatics b.mem) _ j) pteUser = true at huser
    rw [hidentity.tables i j hi hj, (identityPage_flags i j).2.2] at huser
    cases huser

end StakOS.Process
