import StakOS.Paging.Finite

/-!
# One mapping, seen through the walk

What `paging_map_into` does to the walk of its directory at every address, below
the identity window as above it: the page gets the frame and the flags, and every
other page keeps what it had.
-/

namespace StakOS.Paging

open StakOS.Lib.Memory StakOS.Lib.Loop

section Tables

variable {st : Statics} {s : State} {pd i i' : Nat}

/-- A table that is present is the identity table of its window or one of the
directory's own. -/
theorem PdOk.present_cases (h : PdOk st s pd) (hi : i < pdEntries)
    (hpresent : hasFlag (entry s.mem pd i) pdePresent = true) :
    (i < identityPtCount ∧ frameOf (entry s.mem pd i) = st.identityPts + 4096 * i) ∨
      tableAt s.mem pd i = some (frameOf (entry s.mem pd i)) := by
  by_cases hlow : i < identityPtCount
  · exact Or.inl ⟨hlow, h.lowTable i hlow⟩
  · exact Or.inr (tableAt_eq_some.mpr ⟨Nat.le_of_not_lt hlow, hi, hpresent, rfl⟩)

theorem PdOk.present_used (h : PdOk st s pd) (hi : i < pdEntries)
    (hpresent : hasFlag (entry s.mem pd i) pdePresent = true) :
    frameOf (entry s.mem pd i) ∈ Pmm.usedFrames s.pmm ∧ frameOf (entry s.mem pd i) ≠ pd := by
  rcases h.present_cases hi hpresent with ⟨hlow, htable⟩ | htable
  · rw [htable]
    exact ⟨h.lowUsed i hlow, h.lowNe i hlow⟩
  · exact ⟨h.tableUsed i _ htable, h.tableNe i _ htable⟩

/-- Different entries lead to different tables. -/
theorem PdOk.present_inj (h : PdOk st s pd) (hi : i < pdEntries) (hi' : i' < pdEntries)
    (hpresent : hasFlag (entry s.mem pd i) pdePresent = true)
    (hpresent' : hasFlag (entry s.mem pd i') pdePresent = true)
    (heq : frameOf (entry s.mem pd i) = frameOf (entry s.mem pd i')) : i = i' := by
  rcases h.present_cases hi hpresent with ⟨hlow, htable⟩ | htable
  · rcases h.present_cases hi' hpresent' with ⟨hlow', htable'⟩ | htable'
    · rw [htable, htable'] at heq
      omega
    · exact absurd (heq.symm.trans htable) (h.lowNeTable i i' _ hlow htable')
  · rcases h.present_cases hi' hpresent' with ⟨hlow', htable'⟩ | htable'
    · exact absurd (heq.trans htable') (h.lowNeTable i' i _ hlow' htable)
    · rw [heq] at htable
      exact h.tableInj i i' _ htable htable'

end Tables

/-- Whether a page can be written is left to its table entry. -/
def WritableTables (m : Mem) (pd : Nat) : Prop :=
  ∀ i, i < pdEntries → hasFlag (entry m pd i) pdePresent = true →
    hasFlag (entry m pd i) pdeWritable = true

/-- What mapping the frame `a` with `flags` at `virt` does to the walk. -/
structure WalksTo (s s' : State) (pd virt a flags pt : Nat) : Prop where
  index : pdIdx virt < pdEntries
  /-- The table was the directory's or is new. -/
  origin : (hasFlag (entry s.mem pd (pdIdx virt)) pdePresent = true ∧
      frameOf (entry s.mem pd (pdIdx virt)) = pt ∧ s'.pmm = s.pmm) ∨
    (Pmm.pmmAllocFrame s.pmm = (s'.pmm, pt) ∧ pt ≠ 0)
  same : SameOff {pd, pt} s.mem s'.mem
  walk : ∀ va, va < 2 ^ 32 → walk s'.mem pd va =
    if va / 4096 = virt / 4096 then some (a, flags) else walk s.mem pd va
  /-- The directory entry lets ring 3 through if the page asks for it, -/
  user : hasFlag flags pteUser = true → hasFlag (pdeAt s'.mem pd virt) pdeUser = true
  /-- and no entry stops doing so. -/
  keeps : ∀ va, va < 2 ^ 32 → hasFlag (pdeAt s.mem pd va) pdePresent = true →
    hasFlag (pdeAt s.mem pd va) pdeUser = true → hasFlag (pdeAt s'.mem pd va) pdeUser = true
  /-- Entries lead to the table or where they led. -/
  tables : ∀ i, i < pdEntries → hasFlag (entry s'.mem pd i) pdePresent = true →
    frameOf (entry s'.mem pd i) = pt ∨ (hasFlag (entry s.mem pd i) pdePresent = true ∧
      frameOf (entry s'.mem pd i) = frameOf (entry s.mem pd i))
  writable : WritableTables s.mem pd → WritableTables s'.mem pd

theorem page_eq_iff {va virt : Nat} :
    va / 4096 = virt / 4096 ↔ pdIdx va = pdIdx virt ∧ ptIdx va = ptIdx virt := by
  unfold pdIdx ptIdx
  omega

/-- The walk behind a directory entry that is present. -/
theorem walk_of_present {m : Mem} {pd va pt : Nat}
    (hpresent : hasFlag (pdeAt m pd va) pdePresent = true) (htable : frameOf (pdeAt m pd va) = pt) :
    walk m pd va = if hasFlag (entry m pt (ptIdx va)) ptePresent = true then
      some (frameOf (entry m pt (ptIdx va)), entry m pt (ptIdx va) % 4096) else none := by
  have hpde : hasFlag (pdeAt m pd va) ptePresent = true := hpresent
  unfold walk bothHave pteAt
  rw [hpde, htable, Bool.true_and]

theorem walk_of_absent {m : Mem} {pd va : Nat}
    (habsent : hasFlag (pdeAt m pd va) pdePresent = false) : walk m pd va = none := by
  have hpde : hasFlag (pdeAt m pd va) ptePresent = false := habsent
  unfold walk bothHave
  rw [hpde, Bool.false_and, if_neg Bool.false_ne_true]

/-- The walk reads the directory and the table behind the entry. -/
theorem walk_sameOff {m m' : Mem} {fs : Set Nat} {pd va : Nat} (h : SameOff fs m m')
    (hva : va < 2 ^ 32) (hpd : pd % 4096 = 0) (hout : pd ∉ fs)
    (htable : hasFlag (pdeAt m pd va) pdePresent = true → frameOf (pdeAt m pd va) ∉ fs) :
    walk m' pd va = walk m pd va := by
  have hpde : pdeAt m' pd va = pdeAt m pd va := h.entry_eq hpd (pdIdx_lt hva) hout
  by_cases hpresent : hasFlag (pdeAt m pd va) pdePresent = true
  · rw [walk_of_present (hpde ▸ hpresent) (congrArg frameOf hpde), walk_of_present hpresent rfl,
      h.entry_eq (frameOf_aligned _) (ptIdx_lt va) (htable hpresent)]
  · rw [Bool.not_eq_true] at hpresent
    rw [walk_of_absent (hpde ▸ hpresent), walk_of_absent hpresent]

section MapInto

variable {st : Statics} {s s₁ : State} {pd virt a flags pt va : Nat}

/-- The table for `virt` is no frame of another entry. -/
theorem Ensured.apart (hens : Ensured s s₁ pd (pdIdx virt) pt) (hok : PdOk st s pd)
    (hvirt : virt < 2 ^ 32) : pt ≠ pd ∧ ∀ i, i < 1024 → i ≠ pdIdx virt →
      hasFlag (entry s.mem pd i) pdePresent = true → frameOf (entry s.mem pd i) ≠ pt := by
  have hi := pdIdx_lt hvirt
  rcases hens.origin with ⟨hpresent, htable, -, -⟩ | ⟨-, halloc, hpt, -⟩
  · refine ⟨htable ▸ (hok.present_used hi hpresent).2, ?_⟩
    intro i hlt hne hpresent' heq
    exact hne (hok.present_inj hlt hi hpresent' hpresent (heq.trans htable.symm))
  · have hfresh := (Pmm.pmmAllocFrame_some halloc hpt).1
    refine ⟨fun heq => hfresh (heq ▸ hok.used), ?_⟩
    intro i hlt _ hpresent' heq
    exact hfresh (heq ▸ (hok.present_used hlt hpresent').1)

/-- Addresses behind other directory entries are walked as before. -/
theorem Ensured.walk_other (hens : Ensured s s₁ pd (pdIdx virt) pt) (hok : PdOk st s pd)
    (hvirt : virt < 2 ^ 32) (hva : va < 2 ^ 32) (hwin : pdIdx va ≠ pdIdx virt) (e : Nat) :
    walk (setEntry s₁.mem pt (ptIdx virt) e) pd va = walk s.mem pd va := by
  obtain ⟨hne, hothers⟩ := hens.apart hok hvirt
  have hpd : pd % 4096 = 0 := Pmm.usedFrames_aligned hok.used
  have hptal : pt % 4096 = 0 := hens.table ▸ frameOf_aligned _
  have hsame := hens.mem_sameOff (e := e) hptal (ptIdx_lt virt)
  have hlt := pdIdx_lt hva
  have hpde : pdeAt (setEntry s₁.mem pt (ptIdx virt) e) pd va = pdeAt s.mem pd va := by
    unfold pdeAt
    rw [entry_setEntry_ne _ hpd hptal hne (ptIdx_lt virt) hlt, hens.others _ hlt hwin]
  by_cases hpresent : hasFlag (pdeAt s.mem pd va) pdePresent = true
  · rw [walk_of_present (hpde ▸ hpresent) (congrArg frameOf hpde), walk_of_present hpresent rfl]
    have hout : frameOf (pdeAt s.mem pd va) ∉ ({pd, pt} : Set Nat) :=
      notMem_pair (hok.present_used hlt hpresent).2 (hothers _ hlt hwin hpresent)
    rw [hsame.entry_eq (frameOf_aligned _) (ptIdx_lt va) hout]
  · rw [Bool.not_eq_true] at hpresent
    rw [walk_of_absent (hpde ▸ hpresent), walk_of_absent hpresent]

/-- Behind the entry for `virt` the page of `virt` has the new entry, and the other
pages have what they had. -/
theorem Ensured.walk_window (hens : Ensured s s₁ pd (pdIdx virt) pt) (hok : PdOk st s pd)
    (hvirt : virt < 2 ^ 32) (hmapping : Mapping a flags) (hwin : pdIdx va = pdIdx virt) :
    walk (setEntry s₁.mem pt (ptIdx virt) (a ||| flags)) pd va =
      if ptIdx va = ptIdx virt then some (a, flags) else walk s.mem pd va := by
  have hne := (hens.apart hok hvirt).1
  have hpd : pd % 4096 = 0 := Pmm.usedFrames_aligned hok.used
  have hptal : pt % 4096 = 0 := hens.table ▸ frameOf_aligned _
  have hj := ptIdx_lt virt
  have hpde : pdeAt (setEntry s₁.mem pt (ptIdx virt) (a ||| flags)) pd va =
      entry s₁.mem pd (pdIdx virt) := by
    unfold pdeAt
    rw [hwin, entry_setEntry_ne _ hpd hptal hne hj (pdIdx_lt hvirt)]
  have htable : frameOf (pdeAt (setEntry s₁.mem pt (ptIdx virt) (a ||| flags)) pd va) = pt := by
    rw [hpde]
    exact hens.table
  rw [walk_of_present (by rw [hpde]; exact hens.present) htable]
  by_cases hpage : ptIdx va = ptIdx virt
  · have hread : entry (setEntry s₁.mem pt (ptIdx virt) (a ||| flags)) pt (ptIdx va) =
        encode (some (a, flags)) := by
      rw [hpage]
      exact entry_setEntry_same s₁.mem pt (ptIdx virt) hmapping.encode_lt
    rw [if_pos hpage, hread, if_pos hmapping.present_encode, hmapping.frameOf_encode,
      hmapping.mod_encode]
  · rw [if_neg hpage,
      entry_setEntry_other _ _ hptal hptal hj (ptIdx_lt va) (Or.inr (Ne.symm hpage))]
    have hpde₀ : pdeAt s.mem pd va = entry s.mem pd (pdIdx virt) := by
      unfold pdeAt
      rw [hwin]
    rcases hens.origin with ⟨hold, hsame, -, hoff⟩ | ⟨habsent, -, -, hzero⟩
    · have htable₀ : frameOf (pdeAt s.mem pd va) = pt := by
        rw [hpde₀]
        exact hsame
      rw [walk_of_present (by rw [hpde₀]; exact hold) htable₀,
        hoff.entry_eq hptal (ptIdx_lt va) fun hpp => hne (Set.mem_singleton_iff.mp hpp)]
    · rw [walk_of_absent (by rw [hpde₀]; exact habsent), hzero _ (ptIdx_lt va),
        if_neg (by decide)]

end MapInto

theorem pagingMapInto_walk {st : Statics} {s s' : State} {pd virt a flags : Nat}
    (hok : PdOk st s pd) (hvirt : virt < 2 ^ 32) (hmapping : Mapping a flags)
    (hmap : pagingMapInto s pd virt a flags = .ok s') :
    ∃ pt, WalksTo s s' pd virt a flags pt := by
  obtain ⟨pt, s₁, hensure, hens, rfl⟩ := pagingMapInto_eq hok.used hvirt hmap
  rw [frameOf_of_aligned hmapping.aligned]
  have hne := (hens.apart hok hvirt).1
  have hpd : pd % 4096 = 0 := Pmm.usedFrames_aligned hok.used
  have hptal : pt % 4096 = 0 := hens.table ▸ frameOf_aligned _
  have hj := ptIdx_lt virt
  have hslot : ∀ i, i < 1024 →
      entry (setEntry s₁.mem pt (ptIdx virt) (a ||| flags)) pd i = entry s₁.mem pd i :=
    fun i hi => entry_setEntry_ne _ hpd hptal hne hj hi
  have hentry : ∀ va, va < 2 ^ 32 →
      pdeAt (setEntry s₁.mem pt (ptIdx virt) (a ||| flags)) pd va = entry s₁.mem pd (pdIdx va) :=
    fun va hva => hslot _ (pdIdx_lt hva)
  refine ⟨pt, pdIdx_lt hvirt, ?_, hens.mem_sameOff hptal hj, ?_, ?_, ?_, ?_, ?_⟩
  · rcases hens.origin with ⟨hpresent, htable, hpmm, -⟩ | ⟨-, halloc, hpt, -⟩
    · exact Or.inl ⟨hpresent, htable, hpmm⟩
    · exact Or.inr ⟨halloc, hpt⟩
  · intro va hva
    by_cases hwin : pdIdx va = pdIdx virt
    · rw [hens.walk_window hok hvirt hmapping hwin]
      simp only [page_eq_iff, hwin, true_and]
    · rw [hens.walk_other hok hvirt hva hwin, if_neg fun heq => hwin (page_eq_iff.mp heq).1]
  · intro huser
    rw [hentry virt hvirt]
    exact (ensureTable_user hensure).1 huser
  · intro va hva hpresent huser
    rw [hentry va hva]
    by_cases hwin : pdIdx va = pdIdx virt
    · unfold pdeAt at hpresent huser
      rw [hwin] at hpresent huser ⊢
      exact (ensureTable_user hensure).2 hpresent huser
    · rw [hens.others _ (pdIdx_lt hva) hwin]
      exact huser
  · intro i hi hpresent
    rw [hslot i hi] at hpresent ⊢
    by_cases hwin : i = pdIdx virt
    · left
      rw [hwin]
      exact hens.table
    · right
      rw [hens.others i hi hwin] at hpresent ⊢
      exact ⟨hpresent, rfl⟩
  · intro hwritable i hi hpresent
    rw [hslot i hi] at hpresent ⊢
    by_cases hwin : i = pdIdx virt
    · rw [hwin]
      exact ensureTable_writable hensure (hwritable _ (pdIdx_lt hvirt))
    · rw [hens.others i hi hwin] at hpresent ⊢
      exact hwritable i hi hpresent

/-! ## Reading through the walk -/

theorem translate_of_walk {m : Mem} {pd va a flags : Nat} (h : walk m pd va = some (a, flags)) :
    translate m pd va = some (a + va % 4096) := by
  unfold walk at h
  unfold translate
  split at h
  · rename_i hpresent
    rw [if_pos hpresent]
    cases h
    rfl
  · cases h

theorem present_of_walk {m : Mem} {pd va a flags : Nat} (h : walk m pd va = some (a, flags)) :
    hasFlag (pdeAt m pd va) pdePresent = true := by
  by_contra habsent
  rw [walk_of_absent (Bool.not_eq_true _ ▸ habsent)] at h
  cases h

/-- The flags of a page are those its table entry was given. -/
theorem hasFlag_pteAt {m : Mem} {pd va a flags : Nat} (h : walk m pd va = some (a, flags))
    {i : Nat} (hi : i < 12) : hasFlag (pteAt m pd va) (2 ^ i) = flags.testBit i := by
  have hflags : pteAt m pd va % 4096 = flags := by
    unfold walk at h
    split at h
    · cases h
      rfl
    · cases h
  rw [hasFlag_pow, ← hflags, show (4096 : Nat) = 2 ^ 12 from rfl, Nat.testBit_mod_two_pow]
  simp [hi]

theorem walk_eq_none_iff {m : Mem} {pd va : Nat} : walk m pd va = none ↔ translate m pd va = none := by
  unfold walk translate
  split <;> simp

end StakOS.Paging
