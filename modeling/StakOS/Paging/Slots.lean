import StakOS.Paging.Tables
import StakOS.Pmm.Used

/-!
# What a page directory refers to

Above the identity map a directory refers to page tables and these to pages.  The
functions of `paging.c` are described by what they do to these two maps and to the
frames they leave alone.
-/

namespace StakOS.Paging

open StakOS.Lib.Memory StakOS.Lib.Loop

/-! ## Memory outside some frames -/

/-- The bytes of all frames but those in `fs` are the same. -/
def SameOff (fs : Set Nat) (m m' : Mem) : Prop := ∀ x, frameOf x ∉ fs → m' x = m x

namespace SameOff

variable {fs fs' : Set Nat} {m m' m'' : Mem}

theorem refl (m : Mem) : SameOff fs m m := fun _ _ => rfl

theorem mono (h : SameOff fs m m') (hsub : fs ⊆ fs') : SameOff fs' m m' := fun x hx =>
  h x fun hxf => hx (hsub hxf)

theorem trans (h : SameOff fs m m') (h' : SameOff fs m' m'') : SameOff fs m m'' := fun x hx =>
  (h' x hx).trans (h x hx)

theorem entry_eq (h : SameOff fs m m') {base i : Nat} (hb : base % 4096 = 0) (hi : i < 1024)
    (hout : base ∉ fs) : entry m' base i = entry m base i := by
  apply entry_congr hb hi
  intro x hx
  exact h x (by rw [frameOf, hx]; exact hout)

end SameOff

theorem setEntry_sameOff (m : Mem) {base i : Nat} (e : Nat) (hb : base % 4096 = 0)
    (hi : i < 1024) : SameOff {base} m (setEntry m base i e) := fun _ hx =>
  setEntry_of_frame_ne m e hb hi fun hxb => hx hxb

theorem writeWords_sameOff (m : Mem) {base : Nat} (f : Nat → Nat) (hb : base % 4096 = 0) :
    SameOff {base} m (writeWords m base f 1024) := fun _ hx =>
  writeWords_of_frame_ne m f hb fun hxb => hx hxb

/-! ## Tables and pages of a directory -/

/-- The page table behind entry `i` of a directory, above the identity map. -/
def tableAt (m : Mem) (pd i : Nat) : Option Nat :=
  if identityPtCount ≤ i ∧ i < pdEntries ∧ hasFlag (entry m pd i) pdePresent = true then
    some (frameOf (entry m pd i))
  else none

/-- The frame behind entry `j` of that table. -/
def pageAt (m : Mem) (pd i j : Nat) : Option Nat :=
  match tableAt m pd i with
  | some pt =>
      if j < ptEntries ∧ hasFlag (entry m pt j) ptePresent = true then
        some (frameOf (entry m pt j))
      else none
  | none => none

theorem tableAt_eq_some {m : Mem} {pd i pt : Nat} :
    tableAt m pd i = some pt ↔ identityPtCount ≤ i ∧ i < pdEntries ∧
      hasFlag (entry m pd i) pdePresent = true ∧ frameOf (entry m pd i) = pt := by
  unfold tableAt
  by_cases h : identityPtCount ≤ i ∧ i < pdEntries ∧ hasFlag (entry m pd i) pdePresent = true
  · rw [if_pos h, Option.some.injEq]
    tauto
  · rw [if_neg h]
    simp only [reduceCtorEq, false_iff]
    tauto

theorem tableAt_aligned {m : Mem} {pd i pt : Nat} (h : tableAt m pd i = some pt) :
    pt % 4096 = 0 := by
  rw [← (tableAt_eq_some.mp h).2.2.2]
  exact frameOf_aligned _

theorem pageAt_of_table {m : Mem} {pd i j pt : Nat} (h : tableAt m pd i = some pt) :
    pageAt m pd i j = if j < ptEntries ∧ hasFlag (entry m pt j) ptePresent = true then
      some (frameOf (entry m pt j)) else none := by
  unfold pageAt
  rw [h]

theorem pageAt_of_none {m : Mem} {pd i : Nat} (j : Nat) (h : tableAt m pd i = none) :
    pageAt m pd i j = none := by
  unfold pageAt
  rw [h]

theorem pageAt_eq_some {m : Mem} {pd i j a : Nat} :
    pageAt m pd i j = some a ↔ ∃ pt, tableAt m pd i = some pt ∧ j < ptEntries ∧
      hasFlag (entry m pt j) ptePresent = true ∧ frameOf (entry m pt j) = a := by
  unfold pageAt
  cases h : tableAt m pd i with
  | none => simp
  | some pt =>
      simp only [Option.some.injEq]
      by_cases hj : j < ptEntries ∧ hasFlag (entry m pt j) ptePresent = true
      · rw [if_pos hj, Option.some.injEq]
        constructor
        · intro ha
          exact ⟨pt, rfl, hj.1, hj.2, ha⟩
        · rintro ⟨pt', rfl, -, -, ha⟩
          exact ha
      · rw [if_neg hj]
        simp only [reduceCtorEq, false_iff]
        rintro ⟨pt', rfl, hlt, hflag, -⟩
        exact hj ⟨hlt, hflag⟩

theorem pageAt_aligned {m : Mem} {pd i j a : Nat} (h : pageAt m pd i j = some a) :
    a % 4096 = 0 := by
  obtain ⟨pt, -, -, -, rfl⟩ := pageAt_eq_some.mp h
  exact frameOf_aligned _

/-- The tables depend on the frame of the directory only. -/
theorem tableAt_congr {m m' : Mem} {fs : Set Nat} {pd : Nat} (h : SameOff fs m m')
    (hpd : pd % 4096 = 0) (hout : pd ∉ fs) (i : Nat) : tableAt m' pd i = tableAt m pd i := by
  by_cases hi : i < pdEntries
  · unfold tableAt
    rw [h.entry_eq hpd hi hout]
  · unfold tableAt
    rw [if_neg fun hc => hi hc.2.1, if_neg fun hc => hi hc.2.1]

/-- The pages behind an entry depend on the frame of its table only. -/
theorem pageAt_of_table_eq {m m' : Mem} {fs : Set Nat} {pd i : Nat} (h : SameOff fs m m')
    (htable : tableAt m' pd i = tableAt m pd i)
    (hout : ∀ pt, tableAt m pd i = some pt → pt ∉ fs) (j : Nat) :
    pageAt m' pd i j = pageAt m pd i j := by
  cases hpt : tableAt m pd i with
  | none => rw [pageAt_of_none j hpt, pageAt_of_none j (htable.trans hpt)]
  | some pt =>
      rw [pageAt_of_table hpt, pageAt_of_table (htable.trans hpt)]
      by_cases hj : j < ptEntries
      · rw [h.entry_eq (tableAt_aligned hpt) hj (hout pt hpt)]
      · rw [if_neg fun hc => hj hc.1, if_neg fun hc => hj hc.1]

/-- The pages depend on the frames of the directory and of its tables only. -/
theorem pageAt_congr {m m' : Mem} {fs : Set Nat} {pd : Nat} (h : SameOff fs m m')
    (hpd : pd % 4096 = 0) (hout : pd ∉ fs) {i : Nat}
    (htables : ∀ pt, tableAt m pd i = some pt → pt ∉ fs) (j : Nat) :
    pageAt m' pd i j = pageAt m pd i j :=
  pageAt_of_table_eq h (tableAt_congr h hpd hout i) htables j

/-! ## `paging_map_into` -/

/-- The entry for a page is there and leads to the table `pt`, which was there
before or is a new, empty one. -/
structure Ensured (s s' : State) (pd i pt : Nat) : Prop where
  present : hasFlag (entry s'.mem pd i) pdePresent = true
  table : frameOf (entry s'.mem pd i) = pt
  others : ∀ i', i' < 1024 → i' ≠ i → entry s'.mem pd i' = entry s.mem pd i'
  same : SameOff {pd, pt} s.mem s'.mem
  origin : (hasFlag (entry s.mem pd i) pdePresent = true ∧ frameOf (entry s.mem pd i) = pt ∧
      s'.pmm = s.pmm ∧ SameOff {pd} s.mem s'.mem) ∨
    (hasFlag (entry s.mem pd i) pdePresent = false ∧ Pmm.pmmAllocFrame s.pmm = (s'.pmm, pt) ∧
      pt ≠ 0 ∧ ∀ j, j < 1024 → entry s'.mem pt j = 0)

/-- Setting the USER bit of an entry keeps its frame and its other flags. -/
theorem or_user {e : Nat} : frameOf (e ||| pdeUser) = frameOf e ∧
    hasFlag (e ||| pdeUser) pdePresent = hasFlag e pdePresent := by
  constructor
  · have hdiv : (e ||| pdeUser) / 2 ^ 12 = e / 2 ^ 12 := by
      rw [← Nat.shiftRight_eq_div_pow, ← Nat.shiftRight_eq_div_pow, Nat.shiftRight_or_distrib]
      have hzero : pdeUser >>> 12 = 0 := by decide
      rw [hzero, Nat.or_zero]
    unfold frameOf
    exact congrArg (· * 4096) hdiv
  · rw [hasFlag_pdePresent, hasFlag_pdePresent, Nat.testBit_or]
    have hbit : pdeUser.testBit 0 = false := by decide
    rw [hbit, Bool.or_false]

theorem or_user_lt {e : Nat} (he : e < 2 ^ 32) : e ||| pdeUser < 2 ^ 32 :=
  Nat.or_lt_two_pow he (by decide)

theorem ensureTable_spec {s s' : State} {pd virt flags : Nat} (hpd : pd ∈ Pmm.usedFrames s.pmm)
    (hvirt : virt < 2 ^ 32) (h : ensureTable s pd virt flags = .ok s') :
    ∃ pt, Ensured s s' pd (pdIdx virt) pt := by
  have hal : pd % 4096 = 0 := Pmm.usedFrames_aligned hpd
  have hi := pdIdx_lt hvirt
  unfold ensureTable at h
  by_cases hpresent : hasFlag (entry s.mem pd (pdIdx virt)) pdePresent = true
  · simp only [hpresent, Bool.not_true, Bool.false_eq_true, if_false] at h
    refine ⟨frameOf (entry s.mem pd (pdIdx virt)), ?_⟩
    by_cases huser : hasFlag flags pteUser = true
    · rw [if_pos huser] at h
      cases h
      have hsame := entry_setEntry_same s.mem pd (pdIdx virt)
        (or_user_lt (entry_lt s.mem pd (pdIdx virt)))
      have hoff := setEntry_sameOff s.mem (entry s.mem pd (pdIdx virt) ||| pdeUser) hal hi
      refine ⟨?_, ?_, ?_, hoff.mono (by simp), Or.inl ⟨hpresent, rfl, rfl, hoff⟩⟩
      · rw [hsame, or_user.2, hpresent]
      · rw [hsame, or_user.1]
      · intro i' hi' hne
        exact entry_setEntry_other _ _ hal hal hi hi' (Or.inr (Ne.symm hne))
    · rw [if_neg huser] at h
      cases h
      exact ⟨hpresent, rfl, fun _ _ _ => rfl, .refl _, Or.inl ⟨hpresent, rfl, rfl, .refl _⟩⟩
  · rw [Bool.not_eq_true] at hpresent
    simp only [hpresent, Bool.not_false, if_true] at h
    obtain ⟨pmm, pt, halloc⟩ : ∃ pmm pt, Pmm.pmmAllocFrame s.pmm = (pmm, pt) := ⟨_, _, rfl⟩
    rw [halloc] at h
    by_cases hpt : pt = 0
    · simp only [if_pos hpt] at h
      cases h
    · simp only [if_neg hpt] at h
      cases h
      obtain ⟨hfresh, hused, hptal, -⟩ := Pmm.pmmAllocFrame_some halloc hpt
      have hne : pt ≠ pd := fun hpp => hfresh (hpp ▸ hpd)
      have hlt : pt < 2 ^ 32 := by
        have hmem : pt ∈ Pmm.usedFrames pmm := by
          rw [hused]
          exact Set.mem_insert pt _
        have := Pmm.usedFrames_lt hmem
        omega
      set fl := if hasFlag flags pteUser then pdePresent ||| pdeWritable ||| pdeUser
        else pdePresent ||| pdeWritable with hfl
      have hfl_lt : fl < 4096 := by
        rw [hfl]
        split <;> decide
      have hfl_bit : fl.testBit 0 = true := by
        rw [hfl]
        split <;> decide
      have hself := entry_setEntry_same (zeroTable s.mem pt) pd (pdIdx virt)
        (or_flags_lt hptal hfl_lt hlt)
      have hzero := writeWords_sameOff s.mem (fun _ => 0) hptal
      have hset := setEntry_sameOff (zeroTable s.mem pt) (pt ||| fl) hal hi
      have hsame : SameOff {pd, pt} s.mem (setEntry (zeroTable s.mem pt) pd (pdIdx virt) (pt ||| fl)) :=
        (hzero.mono (by simp)).trans (hset.mono (by simp))
      refine ⟨pt, ?_, ?_, ?_, hsame, Or.inr ⟨hpresent, halloc, hpt, ?_⟩⟩
      · rw [hself, hasFlag_pdePresent, testBit_or_flags hptal (by decide), hfl_bit]
      · rw [hself, frameOf_or hptal hfl_lt]
      · intro i' hi' hne'
        rw [entry_setEntry_other _ _ hal hal hi hi' (Or.inr (Ne.symm hne'))]
        exact hzero.entry_eq hal hi' fun hpp => hne (Set.mem_singleton_iff.mp hpp).symm
      · intro j hj
        rw [hset.entry_eq hptal hj fun hpp => hne (Set.mem_singleton_iff.mp hpp)]
        exact entry_writeWords s.mem pt (by decide) hj

theorem pagingMapInto_eq {s s' : State} {pd virt phys flags : Nat}
    (hpd : pd ∈ Pmm.usedFrames s.pmm) (hvirt : virt < 2 ^ 32)
    (h : pagingMapInto s pd virt phys flags = .ok s') :
    ∃ pt s₁, ensureTable s pd virt flags = .ok s₁ ∧ Ensured s s₁ pd (pdIdx virt) pt ∧
      s' = ⟨s₁.pmm, setEntry s₁.mem pt (ptIdx virt) (frameOf phys ||| flags)⟩ := by
  obtain ⟨s₁, hensure, hrest⟩ := bind_eq_ok.mp h
  obtain ⟨pt, hens⟩ := ensureTable_spec hpd hvirt hensure
  refine ⟨pt, s₁, hensure, hens, ?_⟩
  rw [hens.table] at hrest
  cases hrest
  rfl

/-- What the MMU reads depends on the directory and the table behind the entry. -/
theorem walk_congr {m m' : Mem} {fs : Set Nat} {pd va : Nat} (h : SameOff fs m m')
    (hva : va < 2 ^ 32) (hpd : pd % 4096 = 0) (hout : pd ∉ fs)
    (htable : hasFlag (pdeAt m pd va) pdePresent = true → frameOf (pdeAt m pd va) ∉ fs) :
    translate m' pd va = translate m pd va ∧
      userAccessible m' pd va = userAccessible m pd va := by
  have hpde : pdeAt m' pd va = pdeAt m pd va := h.entry_eq hpd (pdIdx_lt hva) hout
  by_cases hpresent : hasFlag (pdeAt m pd va) pdePresent = true
  · have hpte : pteAt m' pd va = pteAt m pd va := by
      unfold pteAt
      rw [hpde]
      exact h.entry_eq (frameOf_aligned _) (ptIdx_lt va) (htable hpresent)
    unfold translate userAccessible bothHave
    rw [hpde, hpte]
    exact ⟨rfl, rfl⟩
  · have habsent : hasFlag (pdeAt m pd va) ptePresent = false := Bool.not_eq_true _ ▸ hpresent
    unfold translate userAccessible bothHave
    rw [hpde, habsent]
    simp only [Bool.false_and, Bool.false_eq_true, if_false, and_self]

/-- Above the identity window `paging_map_into` writes to its directory and to one
table, which was the directory's or is a new frame. -/
theorem pagingMapInto_sameOff {s s' : State} {pd virt phys flags : Nat}
    (hpd : pd ∈ Pmm.usedFrames s.pmm) (hvirt : virt < 2 ^ 32) (hhigh : identityMappedBytes ≤ virt)
    (h : pagingMapInto s pd virt phys flags = .ok s') :
    ∃ pt, SameOff {pd, pt} s.mem s'.mem ∧
      (tableAt s.mem pd (pdIdx virt) = some pt ∨ pt ∉ Pmm.usedFrames s.pmm) := by
  obtain ⟨pt, s₁, -, hens, rfl⟩ := pagingMapInto_eq hpd hvirt h
  have hal : pt % 4096 = 0 := hens.table ▸ frameOf_aligned _
  refine ⟨pt, hens.same.trans ?_, ?_⟩
  · exact (setEntry_sameOff s₁.mem _ hal (ptIdx_lt virt)).mono (by simp)
  · have hidx : identityPtCount ≤ pdIdx virt :=
      Nat.le_of_not_lt fun hlow => Nat.not_le_of_lt (pdIdx_low.mp hlow) hhigh
    rcases hens.origin with ⟨hpresent, htable, -, -⟩ | ⟨-, halloc, hne, -⟩
    · exact Or.inl (tableAt_eq_some.mpr ⟨hidx, pdIdx_lt hvirt, hpresent, htable⟩)
    · exact Or.inr (Pmm.pmmAllocFrame_some halloc hne).1

/-- So it changes nothing of a directory that shares neither of the two. -/
theorem pagingMapInto_other {s s' : State} {pd virt phys flags pd' : Nat}
    (hpd : pd ∈ Pmm.usedFrames s.pmm) (hvirt : virt < 2 ^ 32) (hhigh : identityMappedBytes ≤ virt)
    (h : pagingMapInto s pd virt phys flags = .ok s') (hused : pd' ∈ Pmm.usedFrames s.pmm)
    (hne : pd' ≠ pd) (hnotTable : tableAt s.mem pd (pdIdx virt) ≠ some pd') {va : Nat}
    (hva : va < 2 ^ 32)
    (hwalk : hasFlag (pdeAt s.mem pd' va) pdePresent = true →
      frameOf (pdeAt s.mem pd' va) ∈ Pmm.usedFrames s.pmm ∧ frameOf (pdeAt s.mem pd' va) ≠ pd ∧
        tableAt s.mem pd (pdIdx virt) ≠ some (frameOf (pdeAt s.mem pd' va))) :
    translate s'.mem pd' va = translate s.mem pd' va ∧
      userAccessible s'.mem pd' va = userAccessible s.mem pd' va := by
  obtain ⟨pt, hsame, hpt⟩ := pagingMapInto_sameOff hpd hvirt hhigh h
  have hout : ∀ a, a ∈ Pmm.usedFrames s.pmm → a ≠ pd → tableAt s.mem pd (pdIdx virt) ≠ some a →
      a ∉ ({pd, pt} : Set Nat) := by
    intro a ha hapd hatable
    rintro (rfl | rfl)
    · exact hapd rfl
    · exact hpt.elim hatable fun hnew => hnew ha
  apply walk_congr hsame hva (Pmm.usedFrames_aligned hused) (hout pd' hused hne hnotTable)
  intro hpresent
  obtain ⟨hin, hnepd, hnetable⟩ := hwalk hpresent
  exact hout _ hin hnepd hnetable

/-- A directory made by `paging_create_user_pd`, whatever has been mapped into it:
it and its tables are frames of their own, and its first entries lead to the
tables of the identity map. -/
structure PdOk (st : Statics) (s : State) (pd : Nat) : Prop where
  used : pd ∈ Pmm.usedFrames s.pmm
  tableUsed : ∀ i pt, tableAt s.mem pd i = some pt → pt ∈ Pmm.usedFrames s.pmm
  tableNe : ∀ i pt, tableAt s.mem pd i = some pt → pt ≠ pd
  tableInj : ∀ i i' pt, tableAt s.mem pd i = some pt → tableAt s.mem pd i' = some pt → i = i'
  lowPresent : ∀ i, i < identityPtCount → hasFlag (entry s.mem pd i) pdePresent = true
  lowTable : ∀ i, i < identityPtCount → frameOf (entry s.mem pd i) = st.identityPts + 4096 * i
  lowUsed : ∀ i, i < identityPtCount → st.identityPts + 4096 * i ∈ Pmm.usedFrames s.pmm
  lowNe : ∀ i, i < identityPtCount → st.identityPts + 4096 * i ≠ pd
  lowNeTable : ∀ i i' pt, i < identityPtCount → tableAt s.mem pd i' = some pt →
    pt ≠ st.identityPts + 4096 * i

/-- A directory whose frame and tables are frames of their own. -/
structure Alone (s : State) (pd : Nat) : Prop where
  used : pd ∈ Pmm.usedFrames s.pmm
  tableUsed : ∀ i pt, tableAt s.mem pd i = some pt → pt ∈ Pmm.usedFrames s.pmm
  tableNe : ∀ i pt, tableAt s.mem pd i = some pt → pt ≠ pd
  tableInj : ∀ i i' pt, tableAt s.mem pd i = some pt → tableAt s.mem pd i' = some pt → i = i'

theorem PdOk.alone {st : Statics} {s : State} {pd : Nat} (h : PdOk st s pd) : Alone s pd :=
  ⟨h.used, h.tableUsed, h.tableNe, h.tableInj⟩

/-- What mapping the frame `a` at `virt` does to a directory: below the identity
window it edits a table that all directories share; above it, a table of this
directory, which may be a new one. -/
inductive MapsPage (st : Statics) (s s' : State) (pd virt a : Nat) : Prop
  | low (hlow : pdIdx virt < identityPtCount) (hpmm : s'.pmm = s.pmm)
      (hsame : SameOff {pd, st.identityPts + 4096 * pdIdx virt} s.mem s'.mem)
      (hentry : ∀ i, i < identityPtCount →
        hasFlag (entry s'.mem pd i) pdePresent = hasFlag (entry s.mem pd i) pdePresent ∧
        frameOf (entry s'.mem pd i) = frameOf (entry s.mem pd i))
      (htable : ∀ i, tableAt s'.mem pd i = tableAt s.mem pd i)
      (hpage : ∀ i j, pageAt s'.mem pd i j = pageAt s.mem pd i j)
  | high (pt : Nat) (hhigh : identityPtCount ≤ pdIdx virt)
      (horigin : (tableAt s.mem pd (pdIdx virt) = some pt ∧ s'.pmm = s.pmm) ∨
        (tableAt s.mem pd (pdIdx virt) = none ∧ Pmm.pmmAllocFrame s.pmm = (s'.pmm, pt) ∧ pt ≠ 0))
      (hsame : SameOff {pd, pt} s.mem s'.mem)
      (hentry : ∀ i, i < identityPtCount → entry s'.mem pd i = entry s.mem pd i)
      (htable : ∀ i, tableAt s'.mem pd i =
        if i = pdIdx virt then some pt else tableAt s.mem pd i)
      (hpage : ∀ i j, pageAt s'.mem pd i j =
        if i = pdIdx virt ∧ j = ptIdx virt then some a else pageAt s.mem pd i j)

section MapInto

variable {st : Statics} {s s₁ s' : State} {pd virt pt e : Nat}

/-- Entries of the directory other than the one worked on decide alone whether
there is a table behind them. -/
theorem tableAt_of_entry {m m' : Mem} {i : Nat} (h : i < 1024 → entry m' pd i = entry m pd i) :
    tableAt m' pd i = tableAt m pd i := by
  by_cases hi : i < pdEntries
  · unfold tableAt
    rw [h hi]
  · unfold tableAt
    rw [if_neg fun hc => hi hc.2.1, if_neg fun hc => hi hc.2.1]

/-- Writing into one frame leaves the entries of another. -/
theorem entry_setEntry_ne (m : Mem) {i j : Nat} (hpd : pd % 4096 = 0) (hpt : pt % 4096 = 0)
    (hne : pt ≠ pd) (hj : j < 1024) (hi : i < 1024) :
    entry (setEntry m pt j e) pd i = entry m pd i :=
  entry_setEntry_other m e hpt hpd hj hi (Or.inl hne)

theorem Ensured.mem_sameOff (h : Ensured s s₁ pd (pdIdx virt) pt) (hpt : pt % 4096 = 0) {j : Nat}
    (hj : j < 1024) : SameOff {pd, pt} s.mem (setEntry s₁.mem pt j e) :=
  h.same.trans ((setEntry_sameOff s₁.mem e hpt hj).mono (by simp))

theorem Ensured.low (hok : PdOk st s pd) (h : Ensured s s₁ pd (pdIdx virt) pt)
    (hlow : pdIdx virt < identityPtCount) :
    pt = st.identityPts + 4096 * pdIdx virt ∧ s₁.pmm = s.pmm := by
  rcases h.origin with ⟨-, htable, hpmm, -⟩ | ⟨habsent, -⟩
  · exact ⟨htable.symm.trans (hok.lowTable _ hlow), hpmm⟩
  · rw [hok.lowPresent _ hlow] at habsent
    cases habsent

theorem notMem_pair {a b c : Nat} (hb : a ≠ b) (hc : a ≠ c) : a ∉ ({b, c} : Set Nat) := by
  simp [hb, hc]

theorem mapsPage_low {j : Nat} (hok : PdOk st s pd) (h : Ensured s s₁ pd (pdIdx virt) pt)
    (hlow : pdIdx virt < identityPtCount) (hj : j < 1024) (a : Nat) :
    MapsPage st s ⟨s₁.pmm, setEntry s₁.mem pt j e⟩ pd virt a := by
  obtain ⟨hpt, hpmm⟩ := h.low hok hlow
  have hpd : pd % 4096 = 0 := Pmm.usedFrames_aligned hok.used
  have hptal : pt % 4096 = 0 := by
    have hal := st.identityPts_aligned
    omega
  have hne : pt ≠ pd := hpt ▸ hok.lowNe _ hlow
  have hsame := h.mem_sameOff (e := e) hptal hj
  have htable : ∀ i, tableAt (setEntry s₁.mem pt j e) pd i = tableAt s.mem pd i := by
    intro i
    by_cases hi : i = pdIdx virt
    · unfold tableAt
      rw [if_neg fun hc => by omega, if_neg fun hc => by omega]
    · refine tableAt_of_entry fun hlt => ?_
      rw [entry_setEntry_ne _ hpd hptal hne hj hlt, h.others i hlt hi]
  refine .low hlow hpmm (hpt ▸ hsame) (fun i hi => ?_) htable fun i k => ?_
  · have hlt : i < 1024 := hi.trans (by decide)
    change hasFlag (entry (setEntry s₁.mem pt j e) pd i) _ = _ ∧ _
    rw [entry_setEntry_ne _ hpd hptal hne hj hlt]
    by_cases hidx : i = pdIdx virt
    · rw [hidx, h.present, h.table, hpt, hok.lowPresent _ hlow, hok.lowTable _ hlow]
      exact ⟨rfl, rfl⟩
    · rw [h.others i hlt hidx]
      exact ⟨rfl, rfl⟩
  · refine pageAt_of_table_eq hsame (htable i) (fun pt' hpt' => ?_) k
    exact notMem_pair (hok.tableNe i pt' hpt') (hpt ▸ hok.lowNeTable _ i pt' hlow hpt')

/-- The table a high page goes into. -/
theorem Ensured.high_origin (h : Ensured s s₁ pd (pdIdx virt) pt) (hvirt : virt < 2 ^ 32)
    (hhigh : identityPtCount ≤ pdIdx virt) :
    (tableAt s.mem pd (pdIdx virt) = some pt ∧ s₁.pmm = s.pmm) ∨
      (tableAt s.mem pd (pdIdx virt) = none ∧ Pmm.pmmAllocFrame s.pmm = (s₁.pmm, pt) ∧
        pt ≠ 0) := by
  rcases h.origin with ⟨hpresent, htable, hpmm, -⟩ | ⟨habsent, halloc, hpt, -⟩
  · exact Or.inl ⟨tableAt_eq_some.mpr ⟨hhigh, pdIdx_lt hvirt, hpresent, htable⟩, hpmm⟩
  · refine Or.inr ⟨?_, halloc, hpt⟩
    unfold tableAt
    rw [if_neg fun hc => by rw [habsent] at hc; exact absurd hc.2.2 (by decide)]

/-- A table of this directory that is not the one for `virt` is another frame. -/
theorem Ensured.high_apart (h : Ensured s s₁ pd (pdIdx virt) pt) (halone : Alone s pd)
    (hvirt : virt < 2 ^ 32) (hhigh : identityPtCount ≤ pdIdx virt) :
    pt ≠ pd ∧ ∀ i pt', i ≠ pdIdx virt → tableAt s.mem pd i = some pt' → pt' ≠ pt := by
  rcases h.high_origin hvirt hhigh with ⟨htable, -⟩ | ⟨-, halloc, hpt⟩
  · refine ⟨halone.tableNe _ _ htable, fun i pt' hne hpt' heq => ?_⟩
    exact hne (halone.tableInj i _ pt' hpt' (heq ▸ htable))
  · have hfresh := (Pmm.pmmAllocFrame_some halloc hpt).1
    exact ⟨fun heq => hfresh (heq ▸ halone.used),
      fun i pt' _ hpt' heq => hfresh (heq ▸ halone.tableUsed i pt' hpt')⟩

/-- The tables of the directory once an entry has been written into `pt`. -/
theorem Ensured.high_tables (h : Ensured s s₁ pd (pdIdx virt) pt) (halone : Alone s pd)
    (hvirt : virt < 2 ^ 32) (hhigh : identityPtCount ≤ pdIdx virt) {j : Nat} (hj : j < 1024)
    (i : Nat) :
    tableAt (setEntry s₁.mem pt j e) pd i =
      if i = pdIdx virt then some pt else tableAt s.mem pd i := by
  have hpd : pd % 4096 = 0 := Pmm.usedFrames_aligned halone.used
  have hptal : pt % 4096 = 0 := h.table ▸ frameOf_aligned _
  have hne := (h.high_apart halone hvirt hhigh).1
  by_cases hi : i = pdIdx virt
  · subst hi
    rw [if_pos rfl]
    refine tableAt_eq_some.mpr ⟨hhigh, pdIdx_lt hvirt, ?_, ?_⟩
    · rw [entry_setEntry_ne _ hpd hptal hne hj (pdIdx_lt hvirt), h.present]
    · rw [entry_setEntry_ne _ hpd hptal hne hj (pdIdx_lt hvirt), h.table]
  · rw [if_neg hi]
    refine tableAt_of_entry fun hlt => ?_
    rw [entry_setEntry_ne _ hpd hptal hne hj hlt, h.others i hlt hi]

/-- The other entries of the table: those it had, or none. -/
theorem Ensured.high_entry (h : Ensured s s₁ pd (pdIdx virt) pt) (halone : Alone s pd)
    (hvirt : virt < 2 ^ 32) (hhigh : identityPtCount ≤ pdIdx virt) {j k : Nat} (hj : j < 1024)
    (hk : k < 1024) (hne : k ≠ j) :
    (tableAt s.mem pd (pdIdx virt) = some pt ∧
      entry (setEntry s₁.mem pt j e) pt k = entry s.mem pt k) ∨
    (tableAt s.mem pd (pdIdx virt) = none ∧ entry (setEntry s₁.mem pt j e) pt k = 0) := by
  have hptal : pt % 4096 = 0 := h.table ▸ frameOf_aligned _
  have hptne := (h.high_apart halone hvirt hhigh).1
  rw [entry_setEntry_other _ _ hptal hptal hj hk (Or.inr (Ne.symm hne))]
  rcases h.origin with ⟨hpresent, hold, -, hoff⟩ | ⟨habsent, -, -, hzero⟩
  · left
    refine ⟨tableAt_eq_some.mpr ⟨hhigh, pdIdx_lt hvirt, hpresent, hold⟩, ?_⟩
    exact hoff.entry_eq hptal hk fun hpp => hptne (Set.mem_singleton_iff.mp hpp)
  · right
    refine ⟨?_, hzero k hk⟩
    unfold tableAt
    rw [if_neg fun hc => by rw [habsent] at hc; exact absurd hc.2.2 (by decide)]

theorem mapsPage_high {a flags : Nat} (hok : PdOk st s pd) (hvirt : virt < 2 ^ 32)
    (h : Ensured s s₁ pd (pdIdx virt) pt) (hhigh : identityPtCount ≤ pdIdx virt)
    (ha : a % 4096 = 0) (halt : a < 2 ^ 32) (hflags : flags < 4096)
    (hbit : flags.testBit 0 = true) :
    MapsPage st s ⟨s₁.pmm, setEntry s₁.mem pt (ptIdx virt) (a ||| flags)⟩ pd virt a := by
  have horigin := h.high_origin hvirt hhigh
  have hpd : pd % 4096 = 0 := Pmm.usedFrames_aligned hok.used
  have hptal : pt % 4096 = 0 := h.table ▸ frameOf_aligned _
  have hj := ptIdx_lt virt
  obtain ⟨hne, hothers⟩ := h.high_apart hok.alone hvirt hhigh
  have hsame := h.mem_sameOff (e := a ||| flags) hptal hj
  have htable := h.high_tables (e := a ||| flags) hok.alone hvirt hhigh hj
  have hlowentry : ∀ i, i < identityPtCount →
      entry (setEntry s₁.mem pt (ptIdx virt) (a ||| flags)) pd i = entry s.mem pd i := by
    intro i hi
    have hlt : i < 1024 := hi.trans (by decide)
    rw [entry_setEntry_ne _ hpd hptal hne hj hlt, h.others i hlt (by omega)]
  refine .high pt hhigh horigin hsame hlowentry htable fun i k => ?_
  by_cases hi : i = pdIdx virt
  · subst hi
    have hnew := htable (pdIdx virt)
    rw [if_pos rfl] at hnew
    have hself := entry_setEntry_same s₁.mem pt (ptIdx virt) (or_flags_lt ha hflags halt)
    by_cases hk : k = ptIdx virt
    · subst hk
      rw [if_pos ⟨rfl, rfl⟩, pageAt_of_table hnew, hself, frameOf_or ha hflags]
      rw [hasFlag_present, testBit_or_flags ha (by decide), hbit, if_pos ⟨hj, rfl⟩]
    · rw [if_neg fun hc => hk hc.2, pageAt_of_table hnew]
      by_cases hlt : k < ptEntries
      · rcases h.high_entry (e := a ||| flags) hok.alone hvirt hhigh hj hlt hk with
          ⟨hbefore, hentry⟩ | ⟨hbefore, hentry⟩
        · rw [pageAt_of_table hbefore, hentry]
        · rw [pageAt_of_none k hbefore, hentry, if_neg (by simp)]
      · rw [if_neg fun hc => hlt hc.1]
        cases hpage : pageAt s.mem pd (pdIdx virt) k with
        | none => rfl
        | some b => exact absurd (pageAt_eq_some.mp hpage).choose_spec.2.1 hlt
  · rw [if_neg fun hc => hi hc.1]
    have hsametable := htable i
    rw [if_neg hi] at hsametable
    refine pageAt_of_table_eq hsame hsametable (fun pt' hpt' => ?_) k
    exact notMem_pair (hok.tableNe i pt' hpt') (hothers i pt' hi hpt')

/-- `paging_map_into` with a frame and flags that make the page present. -/
theorem pagingMapInto_spec {a flags : Nat} (hok : PdOk st s pd) (hvirt : virt < 2 ^ 32)
    (ha : a % 4096 = 0) (halt : a < 2 ^ 32) (hflags : flags < 4096)
    (hbit : flags.testBit 0 = true) (h : pagingMapInto s pd virt a flags = .ok s') :
    MapsPage st s s' pd virt a := by
  obtain ⟨pt, s₁, -, hens, rfl⟩ := pagingMapInto_eq hok.used hvirt h
  rw [frameOf_of_aligned ha]
  by_cases hlow : pdIdx virt < identityPtCount
  · exact mapsPage_low hok hens hlow (ptIdx_lt virt) a
  · exact mapsPage_high hok hvirt hens (Nat.le_of_not_lt hlow) ha halt hflags hbit

/-- Mapping a page below the identity window changes one entry of the shared tables. -/
theorem pagingMapInto_shared {a flags : Nat} (hok : PdOk st s pd) (hvirt : virt < 2 ^ 32)
    (hlow : pdIdx virt < identityPtCount) (ha : a % 4096 = 0) (halt : a < 2 ^ 32)
    (hflags : flags < 4096) (h : pagingMapInto s pd virt a flags = .ok s') {i j : Nat}
    (hi : i < identityPtCount) (hj : j < 1024) :
    entry s'.mem (st.identityPts + 4096 * i) j =
      if i = pdIdx virt ∧ j = ptIdx virt then a ||| flags
      else entry s.mem (st.identityPts + 4096 * i) j := by
  obtain ⟨pt, s₁, -, hens, rfl⟩ := pagingMapInto_eq hok.used hvirt h
  rw [frameOf_of_aligned ha]
  have hpt : pt = st.identityPts + 4096 * pdIdx virt := (hens.low hok hlow).1
  have hal : ∀ i, (st.identityPts + 4096 * i) % 4096 = 0 := by
    intro i
    have := st.identityPts_aligned
    omega
  -- the directory may get the USER bit, its tables are read afterwards
  have hsame : SameOff {pd} s.mem s₁.mem := by
    rcases hens.origin with ⟨-, -, -, hsame⟩ | ⟨habsent, -⟩
    · exact hsame
    · rw [hok.lowPresent _ hlow] at habsent
      cases habsent
  have hbefore : entry s₁.mem (st.identityPts + 4096 * i) j =
      entry s.mem (st.identityPts + 4096 * i) j :=
    hsame.entry_eq (hal i) hj fun hmem => hok.lowNe i hi (Set.mem_singleton_iff.mp hmem)
  rw [hpt]
  by_cases hij : i = pdIdx virt ∧ j = ptIdx virt
  · rw [if_pos hij, hij.1, hij.2]
    exact entry_setEntry_same _ _ _ (or_flags_lt ha hflags halt)
  · rw [if_neg hij, ← hbefore]
    apply entry_setEntry_other s₁.mem _ (hal _) (hal i) (ptIdx_lt virt) hj
    by_cases hii : i = pdIdx virt
    · exact Or.inr fun hjj => hij ⟨hii, hjj.symm⟩
    · left
      omega

end MapInto

/-! ## Directories stay in order -/

/-- The set of used frames after a table may have been allocated. -/
theorem usedFrames_subset_of_origin {s s' : State} {pd i pt : Nat}
    (horigin : (tableAt s.mem pd i = some pt ∧ s'.pmm = s.pmm) ∨
      (tableAt s.mem pd i = none ∧ Pmm.pmmAllocFrame s.pmm = (s'.pmm, pt) ∧ pt ≠ 0)) :
    Pmm.usedFrames s.pmm ⊆ Pmm.usedFrames s'.pmm := by
  rcases horigin with ⟨-, hpmm⟩ | ⟨-, halloc, hpt⟩
  · rw [hpmm]
  · rw [(Pmm.pmmAllocFrame_some halloc hpt).2.1]
    exact Set.subset_insert _ _

theorem PdOk.maps {st : Statics} {s s' : State} {pd virt a : Nat} (hok : PdOk st s pd)
    (h : MapsPage st s s' pd virt a) : PdOk st s' pd := by
  cases h with
  | low hlow hpmm hsame hentry htable hpage =>
      refine ⟨?_, ?_, ?_, ?_, ?_, ?_, ?_, hok.lowNe, ?_⟩
      · rw [hpmm]
        exact hok.used
      · intro i pt hpt
        rw [hpmm]
        exact hok.tableUsed i pt (htable i ▸ hpt)
      · exact fun i pt hpt => hok.tableNe i pt (htable i ▸ hpt)
      · exact fun i i' pt hi hi' => hok.tableInj i i' pt (htable i ▸ hi) (htable i' ▸ hi')
      · exact fun i hi => (hentry i hi).1.trans (hok.lowPresent i hi)
      · exact fun i hi => (hentry i hi).2.trans (hok.lowTable i hi)
      · rw [hpmm]
        exact hok.lowUsed
      · exact fun i i' pt hi hpt => hok.lowNeTable i i' pt hi (htable i' ▸ hpt)
  | high pt hhigh horigin hsame hentry htable hpage =>
      have hsub := usedFrames_subset_of_origin horigin
      -- the table for `virt` is this directory's or was not in use
      have hpt : pt ∈ Pmm.usedFrames s'.pmm ∧ pt ≠ pd ∧
          (∀ i, i ≠ pdIdx virt → tableAt s.mem pd i ≠ some pt) ∧
          ∀ i, i < identityPtCount → pt ≠ st.identityPts + 4096 * i := by
        rcases horigin with ⟨hold, hpmm⟩ | ⟨-, halloc, hpt0⟩
        · exact ⟨hsub (hok.tableUsed _ _ hold), hok.tableNe _ _ hold,
            fun i hne hi => hne (hok.tableInj i _ pt hi hold),
            fun i hi => hok.lowNeTable i _ pt hi hold⟩
        · obtain ⟨hfresh, hused, -⟩ := Pmm.pmmAllocFrame_some halloc hpt0
          refine ⟨?_, fun heq => hfresh (heq ▸ hok.used),
            fun i _ hi => hfresh (hok.tableUsed i pt hi),
            fun i hi heq => hfresh (heq ▸ hok.lowUsed i hi)⟩
          rw [hused]
          exact Set.mem_insert pt _
      obtain ⟨hptused, hptne, hptother, hptlow⟩ := hpt
      refine ⟨hsub hok.used, ?_, ?_, ?_, ?_, ?_, fun i hi => hsub (hok.lowUsed i hi), hok.lowNe, ?_⟩
      · intro i pt' hi
        rw [htable] at hi
        split at hi
        · cases hi
          exact hptused
        · exact hsub (hok.tableUsed i pt' hi)
      · intro i pt' hi
        rw [htable] at hi
        split at hi
        · cases hi
          exact hptne
        · exact hok.tableNe i pt' hi
      · intro i i' pt' hi hi'
        rw [htable] at hi hi'
        by_cases heq : i = pdIdx virt
        · rw [if_pos heq] at hi
          cases hi
          by_cases heq' : i' = pdIdx virt
          · rw [heq, heq']
          · rw [if_neg heq'] at hi'
            exact absurd hi' (hptother i' heq')
        · rw [if_neg heq] at hi
          by_cases heq' : i' = pdIdx virt
          · rw [if_pos heq'] at hi'
            cases hi'
            exact absurd hi (hptother i heq)
          · rw [if_neg heq'] at hi'
            exact hok.tableInj i i' pt' hi hi'
      · intro i hi
        rw [hentry i hi]
        exact hok.lowPresent i hi
      · intro i hi
        rw [hentry i hi]
        exact hok.lowTable i hi
      · intro i i' pt' hi hpt'
        rw [htable] at hpt'
        split at hpt'
        · cases hpt'
          exact hptlow i hi
        · exact hok.lowNeTable i i' pt' hi hpt'

/-- A new frame may be written while it is in nobody's hands yet. -/
theorem PdOk.fill {st : Statics} {s : State} {pd a : Nat} {pmm : Pmm.State} {m : Mem}
    (hok : PdOk st s pd) (halloc : Pmm.pmmAllocFrame s.pmm = (pmm, a)) (ha : a ≠ 0)
    (hfill : SameOff {a} s.mem m) :
    PdOk st ⟨pmm, m⟩ pd ∧ (∀ i, tableAt m pd i = tableAt s.mem pd i) ∧
      (∀ i j, pageAt m pd i j = pageAt s.mem pd i j) ∧
      ∀ i, i < identityPtCount → entry m pd i = entry s.mem pd i := by
  obtain ⟨hfresh, hused, -⟩ := Pmm.pmmAllocFrame_some halloc ha
  have hpd : pd % 4096 = 0 := Pmm.usedFrames_aligned hok.used
  have hout : pd ∉ ({a} : Set Nat) := fun hpa =>
    hfresh (Set.mem_singleton_iff.mp hpa ▸ hok.used)
  have htable : ∀ i, tableAt m pd i = tableAt s.mem pd i := tableAt_congr hfill hpd hout
  have hpage : ∀ i j, pageAt m pd i j = pageAt s.mem pd i j := fun i j =>
    pageAt_congr hfill hpd hout (fun pt hpt hpa =>
      hfresh (Set.mem_singleton_iff.mp hpa ▸ hok.tableUsed i pt hpt)) j
  have hentry : ∀ i, i < identityPtCount → entry m pd i = entry s.mem pd i := fun i hi =>
    hfill.entry_eq hpd (hi.trans (by decide)) hout
  have hsub : Pmm.usedFrames s.pmm ⊆ Pmm.usedFrames pmm := by
    rw [hused]
    exact Set.subset_insert _ _
  refine ⟨⟨hsub hok.used, ?_, ?_, ?_, ?_, ?_, fun i hi => hsub (hok.lowUsed i hi), hok.lowNe, ?_⟩,
    htable, hpage, hentry⟩
  · exact fun i pt hpt => hsub (hok.tableUsed i pt (htable i ▸ hpt))
  · exact fun i pt hpt => hok.tableNe i pt (htable i ▸ hpt)
  · exact fun i i' pt hi hi' => hok.tableInj i i' pt (htable i ▸ hi) (htable i' ▸ hi')
  · intro i hi
    change hasFlag (entry m pd i) _ = true
    rw [hentry i hi]
    exact hok.lowPresent i hi
  · intro i hi
    change frameOf (entry m pd i) = _
    rw [hentry i hi]
    exact hok.lowTable i hi
  · exact fun i i' pt hi hpt => hok.lowNeTable i i' pt hi (htable i' ▸ hpt)

/-! ## `paging_free_pd` -/

theorem mem_userEntries {m : Mem} {pd i : Nat} :
    i ∈ userEntries m pd ↔ ∃ pt, tableAt m pd i = some pt := by
  unfold userEntries
  rw [List.mem_filter, List.mem_range, Bool.and_eq_true, decide_eq_true_eq]
  constructor
  · rintro ⟨hlt, hle, hpresent⟩
    exact ⟨_, tableAt_eq_some.mpr ⟨hle, hlt, hpresent, rfl⟩⟩
  · rintro ⟨pt, hpt⟩
    obtain ⟨hle, hlt, hpresent, -⟩ := tableAt_eq_some.mp hpt
    exact ⟨hlt, hle, hpresent⟩

theorem mem_tableFrames {m : Mem} {pt a : Nat} :
    a ∈ tableFrames m pt ↔
      ∃ j, j < ptEntries ∧ hasFlag (entry m pt j) ptePresent = true ∧ frameOf (entry m pt j) = a := by
  unfold tableFrames
  rw [List.mem_map]
  constructor
  · rintro ⟨j, hj, rfl⟩
    rw [List.mem_filter, List.mem_range] at hj
    exact ⟨j, hj.1, hj.2, rfl⟩
  · rintro ⟨j, hlt, hpresent, rfl⟩
    exact ⟨j, List.mem_filter.mpr ⟨List.mem_range.mpr hlt, hpresent⟩, rfl⟩

/-- What is freed: the directory, its tables and their pages. -/
theorem mem_pdFrames {m : Mem} {pd a : Nat} :
    a ∈ pdFrames m pd ↔
      a = pd ∨ (∃ i, tableAt m pd i = some a) ∨ ∃ i j, pageAt m pd i j = some a := by
  unfold pdFrames
  rw [List.mem_append, List.mem_singleton, List.mem_flatMap]
  constructor
  · rintro (⟨i, hi, ha⟩ | rfl)
    · obtain ⟨pt, hpt⟩ := mem_userEntries.mp hi
      have hframe := (tableAt_eq_some.mp hpt).2.2.2
      simp only [hframe] at ha
      rcases List.mem_append.mp ha with ha | ha
      · obtain ⟨j, hj, hpresent, hfr⟩ := mem_tableFrames.mp ha
        exact Or.inr (Or.inr ⟨i, j, pageAt_eq_some.mpr ⟨pt, hpt, hj, hpresent, hfr⟩⟩)
      · rw [List.mem_singleton.mp ha]
        exact Or.inr (Or.inl ⟨i, hpt⟩)
    · exact Or.inl rfl
  · rintro (rfl | ⟨i, hi⟩ | ⟨i, j, hij⟩)
    · exact Or.inr rfl
    · refine Or.inl ⟨i, mem_userEntries.mpr ⟨a, hi⟩, ?_⟩
      simp only [(tableAt_eq_some.mp hi).2.2.2]
      simp
    · obtain ⟨pt, hpt, hj, hpresent, hfr⟩ := pageAt_eq_some.mp hij
      refine Or.inl ⟨i, mem_userEntries.mpr ⟨pt, hpt⟩, ?_⟩
      simp only [(tableAt_eq_some.mp hpt).2.2.2]
      exact List.mem_append_left _ (mem_tableFrames.mpr ⟨j, hj, hpresent, hfr⟩)

theorem pagingFreePd_mem (s : State) (pd : Nat) : (pagingFreePd s pd).mem = s.mem := by
  unfold pagingFreePd
  split <;> rfl

theorem pagingFreePd_pmm {s : State} {pd : Nat} (hpd : pd ≠ 0) :
    (pagingFreePd s pd).pmm = (pdFrames s.mem pd).foldl Pmm.pmmFreeFrame s.pmm := by
  unfold pagingFreePd
  rw [if_neg hpd]

theorem usedFrames_pagingFreePd {s : State} {pd : Nat} (hpd : pd ≠ 0) (hal : pd % 4096 = 0) :
    Pmm.usedFrames (pagingFreePd s pd).pmm =
      Pmm.usedFrames s.pmm \ { a | a ∈ pdFrames s.mem pd } := by
  rw [pagingFreePd_pmm hpd]
  apply Pmm.usedFrames_foldl_free
  intro a ha
  rcases mem_pdFrames.mp ha with rfl | ⟨i, hi⟩ | ⟨i, j, hij⟩
  · exact hal
  · exact tableAt_aligned hi
  · exact pageAt_aligned hij

/-! ## `paging_create_user_pd` -/

/-- A new directory refers to nothing but the identity map. -/
theorem pagingCreateUserPd_spec {st : Statics} {s s' : State} {pd : Nat}
    (h : pagingCreateUserPd st s = (s', pd)) (hpd : pd ≠ 0) :
    Pmm.pmmAllocFrame s.pmm = (s'.pmm, pd) ∧ SameOff {pd} s.mem s'.mem ∧
      (∀ i, i < identityPtCount → entry s'.mem pd i = entry s.mem st.kernelPd i) ∧
      ∀ i, tableAt s'.mem pd i = none := by
  unfold pagingCreateUserPd at h
  obtain ⟨pmm, a, halloc⟩ : ∃ pmm a, Pmm.pmmAllocFrame s.pmm = (pmm, a) := ⟨_, _, rfl⟩
  rw [halloc] at h
  by_cases ha : a = 0
  · simp only [if_pos ha] at h
    cases h
    exact absurd rfl hpd
  · simp only [if_neg ha] at h
    cases h
    have hal := (Pmm.pmmAllocFrame_some halloc ha).2.2.1
    have hword : ∀ i, (if i < identityPtCount then entry s.mem st.kernelPd i else 0) < 2 ^ 32 := by
      intro i
      split
      · exact entry_lt _ _ _
      · decide
    have hread : ∀ i, i < 1024 → entry (writeWords s.mem pd
        (fun i => if i < identityPtCount then entry s.mem st.kernelPd i else 0) pdEntries) pd i =
        if i < identityPtCount then entry s.mem st.kernelPd i else 0 := fun i hi =>
      entry_writeWords s.mem pd (hword i) hi
    refine ⟨halloc, writeWords_sameOff s.mem _ hal, fun i hi => ?_, fun i => ?_⟩
    · rw [hread i (hi.trans (by decide)), if_pos hi]
    · cases hat : tableAt _ pd i with
      | none => rfl
      | some pt =>
          obtain ⟨hle, hlt, hpresent, -⟩ := tableAt_eq_some.mp hat
          rw [hread i hlt, if_neg (Nat.not_lt.mpr hle)] at hpresent
          cases hpresent

theorem pagingCreateUserPd_none {st : Statics} {s s' : State}
    (h : pagingCreateUserPd st s = (s', 0)) (hzero : 0 ∈ Pmm.usedFrames s.pmm) :
    s' = s ∧ Pmm.budget s.pmm = 0 := by
  unfold pagingCreateUserPd at h
  obtain ⟨pmm, a, halloc⟩ : ∃ pmm a, Pmm.pmmAllocFrame s.pmm = (pmm, a) := ⟨_, _, rfl⟩
  rw [halloc] at h
  by_cases ha : a = 0
  · subst ha
    simp only [if_true] at h
    obtain ⟨hpmm, hbudget⟩ := Pmm.pmmAllocFrame_none halloc hzero
    rw [hpmm] at h
    cases h
    exact ⟨rfl, hbudget⟩
  · simp only [if_neg ha] at h
    exact absurd (congrArg Prod.snd h) ha

end StakOS.Paging
