import StakOS.Paging.Release

/-!
# Directories as they are built

Directories made by `paging_create_user_pd` and filled by `paging_map_into`, at any
page and with any flags, while other directories are made, filled and freed.  What
they have in common at every moment: each of their frames is in use and plays one
role, and their entries let through what their tables grant.
-/

namespace StakOS.Paging

open StakOS.Lib.Memory StakOS.Lib.Loop StakOS.Lib.Ownership
open Relation (ReflTransGen)

/-! ## Entries that let the flags of a page through -/

/-- The CPU asks both levels for a flag.  The directory has it wherever a page does. -/
structure Grants (m : Mem) (pd : Nat) : Prop where
  user : ∀ i pt, tableAt m pd i = some pt → ∀ j, j < 1024 →
    hasFlag (entry m pt j) ptePresent = true → hasFlag (entry m pt j) pteUser = true →
    hasFlag (entry m pd i) pdeUser = true
  writable : ∀ i pt, tableAt m pd i = some pt → hasFlag (entry m pd i) pdeWritable = true

/-- The table behind the directory entry of a page above the window. -/
theorem tableAt_pdIdx {m : Mem} {pd va : Nat} (hva : va < 2 ^ 32)
    (hhigh : identityMappedBytes ≤ va) (hpresent : hasFlag (pdeAt m pd va) pdePresent = true) :
    tableAt m pd (pdIdx va) = some (frameOf (pdeAt m pd va)) := by
  have hidx : identityPtCount ≤ pdIdx va :=
    Nat.le_of_not_lt fun hlow => Nat.not_le_of_lt (pdIdx_low.mp hlow) hhigh
  exact tableAt_eq_some.mpr ⟨hidx, pdIdx_lt hva, hpresent, rfl⟩

/-- The flags of an entry are its low bits. -/
theorem testBit_mod_flags {i : Nat} (e : Nat) (hi : i < 12) : (e % 4096).testBit i = e.testBit i := by
  rw [show 4096 = 2 ^ 12 from rfl, Nat.testBit_mod_two_pow, decide_eq_true hi, Bool.true_and]

/-- So what ring 3 may do with a page is what the page's own flags say. -/
theorem Grants.walk_eq {m : Mem} {pd va : Nat} (h : Grants m pd) (hva : va < 2 ^ 32)
    (hhigh : identityMappedBytes ≤ va) :
    userAccessible m pd va = (walk m pd va).any (fun e => hasFlag e.2 pteUser) ∧
      userWritable m pd va =
        (walk m pd va).any (fun e => hasFlag e.2 pteUser && hasFlag e.2 pteWritable) := by
  unfold userWritable userAccessible walk
  by_cases hpresent : bothHave m pd va ptePresent = true
  · have hboth := hpresent
    unfold bothHave at hboth
    rw [Bool.and_eq_true] at hboth
    have htable := tableAt_pdIdx hva hhigh hboth.1
    have huser : bothHave m pd va pteUser = hasFlag (pteAt m pd va % 4096) pteUser := by
      unfold bothHave
      rw [hasFlag_user (_ % _), testBit_mod_flags _ (by decide), ← hasFlag_user]
      cases hflag : hasFlag (pteAt m pd va) pteUser with
      | false => rw [Bool.and_false]
      | true =>
          rw [Bool.and_true]
          exact h.user _ _ htable _ (ptIdx_lt va) hboth.2 hflag
    have hwritable : bothHave m pd va pteWritable =
        hasFlag (pteAt m pd va % 4096) pteWritable := by
      have hpde : hasFlag (pdeAt m pd va) pteWritable = true := h.writable _ _ htable
      unfold bothHave
      rw [hpde, Bool.true_and, hasFlag_writable, hasFlag_writable, testBit_mod_flags _ (by decide)]
    rw [if_pos hpresent, hpresent, huser, hwritable]
    simp only [Option.any_some, Bool.true_and, and_self]
  · have habsent : bothHave m pd va ptePresent = false := Bool.not_eq_true _ ▸ hpresent
    rw [if_neg hpresent, habsent]
    simp only [Option.any_none, Bool.false_and, and_self]

/-- The flags depend on the frame of the directory and the frames of its tables. -/
theorem Grants.congr {m m' : Mem} {fs : Set Nat} {pd : Nat} (h : Grants m pd)
    (hsame : SameOff fs m m') (hpd : pd % 4096 = 0) (hout : pd ∉ fs)
    (htables : ∀ i pt, tableAt m pd i = some pt → pt ∉ fs) : Grants m' pd := by
  have htable : ∀ i, tableAt m' pd i = tableAt m pd i := tableAt_congr hsame hpd hout
  constructor
  · intro i pt hpt j hj hpresent huser
    rw [htable] at hpt
    rw [hsame.entry_eq (tableAt_aligned hpt) hj (htables i pt hpt)] at hpresent huser
    rw [hsame.entry_eq hpd (tableAt_eq_some.mp hpt).2.1 hout]
    exact h.user i pt hpt j hj hpresent huser
  · intro i pt hpt
    rw [htable] at hpt
    rw [hsame.entry_eq hpd (tableAt_eq_some.mp hpt).2.1 hout]
    exact h.writable i pt hpt

/-! ## One page above the window, with any flags -/

/-- `paging_map_into` puts the entry `e` into the table `pt` of a directory. -/
structure Inserts (s s' : State) (pd virt pt e : Nat) : Prop extends
    AddsEntry s s' pd virt pt where
  entries : ∀ i pt' j, tableAt s'.mem pd i = some pt' → j < 1024 →
    (i = pdIdx virt ∧ j = ptIdx virt ∧ entry s'.mem pt' j = e) ∨ entry s'.mem pt' j = 0 ∨
      (tableAt s.mem pd i = some pt' ∧ entry s'.mem pt' j = entry s.mem pt' j)
  others : ∀ i, i < 1024 → i ≠ pdIdx virt → entry s'.mem pd i = entry s.mem pd i
  user : hasFlag e pteUser = true → hasFlag (entry s'.mem pd (pdIdx virt)) pdeUser = true
  keeps : hasFlag (entry s.mem pd (pdIdx virt)) pdePresent = true →
    hasFlag (entry s.mem pd (pdIdx virt)) pdeUser = true →
    hasFlag (entry s'.mem pd (pdIdx virt)) pdeUser = true
  writable : (hasFlag (entry s.mem pd (pdIdx virt)) pdePresent = true →
      hasFlag (entry s.mem pd (pdIdx virt)) pdeWritable = true) →
    hasFlag (entry s'.mem pd (pdIdx virt)) pdeWritable = true

theorem pagingMapInto_inserts {s s' : State} {pd virt a flags : Nat} (halone : Alone s pd)
    (hvirt : virt < 2 ^ 32) (hhigh : identityPtCount ≤ pdIdx virt) (ha : a % 4096 = 0)
    (halt : a < 2 ^ 32) (hflags : flags < 4096)
    (hmap : pagingMapInto s pd virt a flags = .ok s') :
    ∃ pt, Inserts s s' pd virt pt (a ||| flags) := by
  obtain ⟨pt, s₁, hensure, hens, rfl⟩ := pagingMapInto_eq halone.used hvirt hmap
  rw [frameOf_of_aligned ha]
  have hj := ptIdx_lt virt
  have hpd : pd % 4096 = 0 := Pmm.usedFrames_aligned halone.used
  have hptal : pt % 4096 = 0 := hens.table ▸ frameOf_aligned _
  have hsame := hens.mem_sameOff (e := a ||| flags) hptal hj
  have htable := hens.high_tables (e := a ||| flags) halone hvirt hhigh hj
  obtain ⟨hne, hothers⟩ := hens.high_apart halone hvirt hhigh
  have hentry : ∀ i, i < 1024 →
      entry (setEntry s₁.mem pt (ptIdx virt) (a ||| flags)) pd i = entry s₁.mem pd i :=
    fun i hi => entry_setEntry_ne _ hpd hptal hne hj hi
  refine ⟨pt, ⟨hens.high_origin hvirt hhigh, hsame, htable⟩, ?_, ?_, ?_, ?_, ?_⟩
  · intro i pt' k hpt' hk
    rw [htable] at hpt'
    by_cases hi : i = pdIdx virt
    · rw [if_pos hi] at hpt'
      cases hpt'
      by_cases hkj : k = ptIdx virt
      · left
        rw [hkj]
        exact ⟨hi, rfl, entry_setEntry_same s₁.mem pt (ptIdx virt) (or_flags_lt ha hflags halt)⟩
      · right
        rcases hens.high_entry (e := a ||| flags) halone hvirt hhigh hj hk hkj with
          ⟨hold, hread⟩ | ⟨-, hread⟩
        · exact Or.inr ⟨hi ▸ hold, hread⟩
        · exact Or.inl hread
    · rw [if_neg hi] at hpt'
      refine Or.inr (Or.inr ⟨hpt', ?_⟩)
      exact hsame.entry_eq (tableAt_aligned hpt') hk
        (notMem_pair (halone.tableNe i pt' hpt') (hothers i pt' hi hpt'))
  · intro i hi hne'
    exact (hentry i hi).trans (hens.others i hi hne')
  · intro huser
    rw [hasFlag_user, testBit_or_flags ha (by decide), ← hasFlag_user] at huser
    rw [hentry _ (pdIdx_lt hvirt)]
    exact (ensureTable_user hensure).1 huser
  · intro hpresent hold
    rw [hentry _ (pdIdx_lt hvirt)]
    exact (ensureTable_user hensure).2 hpresent hold
  · intro hold
    rw [hentry _ (pdIdx_lt hvirt)]
    exact ensureTable_writable hensure hold

theorem Grants.inserts {s s' : State} {pd virt pt e : Nat} (h : Grants s.mem pd)
    (hins : Inserts s s' pd virt pt e) : Grants s'.mem pd := by
  -- an entry that was there before the call has kept its USER bit
  have hkept : ∀ i pt', tableAt s.mem pd i = some pt' →
      hasFlag (entry s.mem pd i) pdeUser = true → hasFlag (entry s'.mem pd i) pdeUser = true := by
    intro i pt' hpt' huser
    obtain ⟨-, hlt, hpresent, -⟩ := tableAt_eq_some.mp hpt'
    by_cases hi : i = pdIdx virt
    · subst hi
      exact hins.keeps hpresent huser
    · rw [hins.others i hlt hi]
      exact huser
  constructor
  · intro i pt' hpt' j hj hpresent huser
    rcases hins.entries i pt' j hpt' hj with ⟨hi, -, hentry⟩ | hzero | ⟨hold, hentry⟩
    · rw [hentry] at huser
      rw [hi]
      exact hins.user huser
    · rw [hzero] at hpresent
      cases hpresent
    · rw [hentry] at hpresent huser
      exact hkept i pt' hold (h.user i pt' hold j hj hpresent huser)
  · intro i pt' hpt'
    obtain ⟨hidx, hlt, -, -⟩ := tableAt_eq_some.mp hpt'
    by_cases hi : i = pdIdx virt
    · subst hi
      refine hins.writable fun hpresent => ?_
      exact h.writable _ _ (tableAt_eq_some.mpr ⟨hidx, hlt, hpresent, rfl⟩)
    · rw [hins.table, if_neg hi] at hpt'
      rw [hins.others i hlt hi]
      exact h.writable i pt' hpt'

/-- The frame behind a page is the one just mapped or one that was there. -/
theorem Inserts.page {s s' : State} {pd virt pt a flags i j b : Nat}
    (hins : Inserts s s' pd virt pt (a ||| flags)) (ha : a % 4096 = 0) (hflags : flags < 4096)
    (hpage : pageAt s'.mem pd i j = some b) : b = a ∨ pageAt s.mem pd i j = some b := by
  obtain ⟨pt', hpt', hj, hpresent, hframe⟩ := pageAt_eq_some.mp hpage
  rcases hins.entries i pt' j hpt' hj with ⟨-, -, hentry⟩ | hzero | ⟨hold, hentry⟩
  · left
    rw [hentry, frameOf_or ha hflags] at hframe
    exact hframe.symm
  · rw [hzero] at hpresent
    cases hpresent
  · right
    rw [hentry] at hpresent hframe
    exact pageAt_eq_some.mpr ⟨pt', hold, hj, hpresent, hframe⟩

/-! ## Directories side by side -/

theorem KernelTables.grow {st : Statics} {s : State} {pmm : Pmm.State} (h : KernelTables st s)
    (hused : Pmm.usedFrames s.pmm ⊆ Pmm.usedFrames pmm) : KernelTables st ⟨pmm, s.mem⟩ :=
  ⟨hused h.directory, fun i hi => hused (h.tables i hi), h.present, h.frame⟩

/-- What holds of one directory: its first entries lead to the identity map, and the
pages above are backed by the frames handed out. -/
structure Sound (st : Statics) (frames : List Nat) (m : Mem) (pd : Nat) : Prop extends
    Grants m pd where
  low : ∀ i, i < identityPtCount → hasFlag (entry m pd i) pdePresent = true ∧
    frameOf (entry m pd i) = st.identityPts + 4096 * i
  backed : ∀ i j a, pageAt m pd i j = some a → a ∈ frames

theorem Sound.congr {st : Statics} {frames : List Nat} {m m' : Mem} {fs : Set Nat} {pd : Nat}
    (h : Sound st frames m pd) (hsame : SameOff fs m m') (hpd : pd % 4096 = 0) (hout : pd ∉ fs)
    (htables : ∀ i pt, tableAt m pd i = some pt → pt ∉ fs) : Sound st frames m' pd := by
  refine ⟨h.toGrants.congr hsame hpd hout htables, fun i hi => ?_, fun i j a hpage => ?_⟩
  · rw [hsame.entry_eq hpd (hi.trans (by decide)) hout]
    exact h.low i hi
  · rw [pageAt_congr hsame hpd hout (htables i)] at hpage
    exact h.backed i j a hpage

/-- The machine, the directories that live, and the frames handed out for pages. -/
structure Site where
  s : State
  dirs : List Nat
  frames : List Nat

/-- The site without a record of its calls. -/
abbrev Site.pool (t : Site) : Pool := ⟨t.s, t.dirs, t.frames, []⟩

/-- One call of the allocator or of `paging.c`, or a store into the frames handed
out.  A frame is given back when no directory has it, and a directory when no other
one has a page of it. -/
inductive Site.Step (st : Statics) : Site → Site → Prop
  | create {t : Site} {s' : State} {pd : Nat} (hcreate : pagingCreateUserPd st t.s = (s', pd))
      (hpd : pd ≠ 0) : Site.Step st t ⟨s', pd :: t.dirs, t.frames⟩
  | alloc {t : Site} {pmm : Pmm.State} {a : Nat} (halloc : Pmm.pmmAllocFrame t.s.pmm = (pmm, a))
      (ha : a ≠ 0) : Site.Step st t ⟨⟨pmm, t.s.mem⟩, t.dirs, a :: t.frames⟩
  | refused {t : Site} {pmm : Pmm.State} (halloc : Pmm.pmmAllocFrame t.s.pmm = (pmm, 0)) :
      Site.Step st t ⟨⟨pmm, t.s.mem⟩, t.dirs, t.frames⟩
  | store {t : Site} {m : Mem} (hsame : SameOff { a | a ∈ t.frames } t.s.mem m) :
      Site.Step st t ⟨⟨t.s.pmm, m⟩, t.dirs, t.frames⟩
  | map {t : Site} {s' : State} {pd virt a flags : Nat} (hpd : pd ∈ t.dirs) (ha : a ∈ t.frames)
      (hvirt : virt < 2 ^ 32) (hflags : flags < 4096)
      (hmap : pagingMapInto t.s pd virt a flags = .ok s') : Site.Step st t ⟨s', t.dirs, t.frames⟩
  | free {t : Site} {a : Nat} (ha : a ∈ t.frames)
      (hloose : ∀ pd ∈ t.dirs, ∀ i j, pageAt t.s.mem pd i j ≠ some a) :
      Site.Step st t ⟨⟨Pmm.pmmFreeFrame t.s.pmm a, t.s.mem⟩, t.dirs, t.frames.filter (· ≠ a)⟩
  | freePd {t : Site} {pd : Nat} (hpd : pd ∈ t.dirs)
      (hpages : ∀ pd' ∈ t.dirs, pd' ≠ pd → ∀ i j i' j' a, pageAt t.s.mem pd i j = some a →
        pageAt t.s.mem pd' i' j' ≠ some a) :
      Site.Step st t ⟨pagingFreePd t.s pd, t.dirs.filter (· ≠ pd),
        t.frames.filter (· ∉ pdFrames t.s.mem pd)⟩

/-- What holds of a site begun in `s`: every frame plays one role, none that was in use
at the beginning, and every directory is sound. -/
structure Site.Inv (st : Statics) (s : State) (t : Site) : Prop where
  started : KernelTables st s
  tenured : t.pool.Tenured
  grown : Pmm.usedFrames s.pmm ⊆ Pmm.usedFrames t.s.pmm
  fresh : ∀ r a, t.pool.own r = some a → a ∉ Pmm.usedFrames s.pmm
  kernel : KernelTables st t.s
  sound : ∀ pd ∈ t.dirs, Sound st t.frames t.s.mem pd
  nonzero : ∀ pd ∈ t.dirs, pd ≠ 0

namespace Site.Inv

variable {st : Statics} {s s' : State} {t : Site} {pd pd' pt a i j : Nat}

theorem start (h : KernelTables st s) : Site.Inv st s ⟨s, [], []⟩ where
  started := h
  tenured := Pool.Tenured.start
  grown := Set.Subset.refl _
  fresh := by
    intro r a hr
    cases r <;> simp [Pool.own] at hr
  kernel := h
  sound := by simp
  nonzero := by simp

theorem dir_fresh (h : t.Inv st s) (hpd : pd ∈ t.dirs) : pd ∉ Pmm.usedFrames s.pmm :=
  h.fresh (.directory pd) pd (if_pos hpd)

theorem table_fresh (h : t.Inv st s) (hpd : pd ∈ t.dirs) (hpt : tableAt t.s.mem pd i = some pt) :
    pt ∉ Pmm.usedFrames s.pmm :=
  h.fresh (.table pd i) pt ((Pool.Tenured.own_table hpd).trans hpt)

theorem frame_fresh (h : t.Inv st s) (ha : a ∈ t.frames) : a ∉ Pmm.usedFrames s.pmm :=
  h.fresh (.page a) a (if_pos ha)

theorem pdOk (h : t.Inv st s) (hpd : pd ∈ t.dirs) : PdOk st t.s pd where
  used := h.tenured.dir_used hpd
  tableUsed := fun _ _ hpt => h.tenured.table_used hpd hpt
  tableNe := fun _ _ hpt => h.tenured.table_ne_dir hpd hpd hpt
  tableInj := fun _ _ _ hpt hpt' => (h.tenured.table_unique hpd hpd hpt hpt').2
  lowPresent := fun i hi => ((h.sound pd hpd).low i hi).1
  lowTable := fun i hi => ((h.sound pd hpd).low i hi).2
  lowUsed := h.kernel.tables
  lowNe := fun i hi heq => h.dir_fresh hpd (heq ▸ h.started.tables i hi)
  lowNeTable := fun i _ _ hi hpt heq => h.table_fresh hpd hpt (heq ▸ h.started.tables i hi)

/-- The frames of a directory are in use. -/
theorem used (h : t.Inv st s) (hpd : pd ∈ t.dirs) (ha : a ∈ pdFrames t.s.mem pd) :
    a ∈ Pmm.usedFrames t.s.pmm := by
  rcases mem_pdFrames.mp ha with rfl | ⟨i, htable⟩ | ⟨i, j, hpage⟩
  · exact h.tenured.dir_used hpd
  · exact h.tenured.table_used hpd htable
  · exact h.tenured.frame_used ((h.sound pd hpd).backed i j a hpage)

/-- A frame of a directory has come into use since the beginning. -/
theorem new (h : t.Inv st s) (hpd : pd ∈ t.dirs) (ha : a ∈ pdFrames t.s.mem pd) :
    a ∉ Pmm.usedFrames s.pmm := by
  rcases mem_pdFrames.mp ha with rfl | ⟨i, htable⟩ | ⟨i, j, hpage⟩
  · exact h.dir_fresh hpd
  · exact h.table_fresh hpd htable
  · exact h.frame_fresh ((h.sound pd hpd).backed i j a hpage)

/-- New players of the roles are frames that were not in use. -/
theorem fresh_of (h : t.Inv st s) {own : Role → Option Nat}
    (hown : ∀ r a, own r = some a → t.pool.own r = some a ∨ a ∉ Pmm.usedFrames t.s.pmm) :
    ∀ r a, own r = some a → a ∉ Pmm.usedFrames s.pmm := by
  intro r a hr
  rcases hown r a hr with hold | hnew
  · exact h.fresh r a hold
  · exact fun hused => hnew (h.grown hused)

theorem create (h : t.Inv st s) (hcreate : pagingCreateUserPd st t.s = (s', pd)) (hpd : pd ≠ 0) :
    Site.Inv st s ⟨s', pd :: t.dirs, t.frames⟩ := by
  obtain ⟨halloc, hsame, hcopied, hempty⟩ := pagingCreateUserPd_spec hcreate hpd
  obtain ⟨hfresh, hused, -⟩ := Pmm.pmmAllocFrame_some halloc hpd
  have hgrown : Pmm.usedFrames t.s.pmm ⊆ Pmm.usedFrames s'.pmm := by
    rw [hused]
    exact Set.subset_insert pd _
  have hne : ∀ b, b ∈ Pmm.usedFrames t.s.pmm → b ∉ ({pd} : Set Nat) := fun b hb heq =>
    hfresh (Set.mem_singleton_iff.mp heq ▸ hb)
  refine ⟨h.started, h.tenured.create hcreate hpd, h.grown.trans hgrown, h.fresh_of ?_,
    h.kernel.keep hgrown hsame (hne _ h.kernel.directory), ?_, ?_⟩
  · intro r b hr
    cases r with
    | directory pd' =>
        by_cases heq : pd' = pd
        · right
          have hpdb : pd' = b := by simpa [Pool.own, heq] using hr
          rw [← hpdb, heq]
          exact hfresh
        · left
          simpa [Pool.own, heq] using hr
    | table pd' i =>
        left
        by_cases heq : pd' = pd
        · rw [heq] at hr
          simp [Pool.own, hempty] at hr
        · by_cases hmem : pd' ∈ t.dirs
          · rw [Pool.Tenured.own_table hmem,
              ← tableAt_congr hsame (h.tenured.aligned hmem) (hne _ (h.tenured.dir_used hmem)) i]
            simpa [Pool.own, hmem] using hr
          · simp [Pool.own, heq, hmem] at hr
    | page b' => exact Or.inl hr
  · intro pd' hpd'
    rcases List.mem_cons.mp hpd' with rfl | hold
    · refine ⟨⟨?_, ?_⟩, ?_, ?_⟩
      · intro i pt hpt
        rw [hempty i] at hpt
        cases hpt
      · intro i pt hpt
        rw [hempty i] at hpt
        cases hpt
      · intro i hi
        rw [hcopied i hi]
        exact ⟨h.kernel.present i hi, h.kernel.frame i hi⟩
      · intro i j b hpage
        rw [pageAt_of_none j (hempty i)] at hpage
        cases hpage
    · exact (h.sound pd' hold).congr hsame (h.tenured.aligned hold)
        (hne _ (h.tenured.dir_used hold)) fun i pt hpt => hne _ (h.tenured.table_used hold hpt)
  · intro pd' hpd'
    rcases List.mem_cons.mp hpd' with rfl | hold
    · exact hpd
    · exact h.nonzero pd' hold

theorem alloc (h : t.Inv st s) {pmm : Pmm.State} (halloc : Pmm.pmmAllocFrame t.s.pmm = (pmm, a))
    (ha : a ≠ 0) : Site.Inv st s ⟨⟨pmm, t.s.mem⟩, t.dirs, a :: t.frames⟩ := by
  obtain ⟨hfresh, hused, -⟩ := Pmm.pmmAllocFrame_some halloc ha
  have hgrown : Pmm.usedFrames t.s.pmm ⊆ Pmm.usedFrames pmm := by
    rw [hused]
    exact Set.subset_insert a _
  refine ⟨h.started, h.tenured.alloc halloc ha, h.grown.trans hgrown, h.fresh_of ?_,
    h.kernel.grow hgrown, fun pd hpd => ?_, h.nonzero⟩
  · intro r b hr
    cases r with
    | directory pd' => exact Or.inl hr
    | table pd' i => exact Or.inl hr
    | page b' =>
        by_cases heq : b' = a
        · right
          have hab : b' = b := by simpa [Pool.own, heq] using hr
          rw [← hab, heq]
          exact hfresh
        · left
          simpa [Pool.own, heq] using hr
  · have hsound := h.sound pd hpd
    exact ⟨hsound.toGrants, hsound.low, fun i j b hpage =>
      List.mem_cons_of_mem a (hsound.backed i j b hpage)⟩

theorem refused (h : t.Inv st s) {pmm : Pmm.State}
    (halloc : Pmm.pmmAllocFrame t.s.pmm = (pmm, 0)) :
    Site.Inv st s ⟨⟨pmm, t.s.mem⟩, t.dirs, t.frames⟩ := by
  have hgrown := Pmm.usedFrames_subset_alloc t.s.pmm
  rw [halloc] at hgrown
  exact ⟨h.started, h.tenured.keep (fun _ _ _ => rfl) hgrown, h.grown.trans hgrown, h.fresh,
    h.kernel.grow hgrown, h.sound, h.nonzero⟩

theorem store (h : t.Inv st s) {m : Mem} (hsame : SameOff { a | a ∈ t.frames } t.s.mem m) :
    Site.Inv st s ⟨⟨t.s.pmm, m⟩, t.dirs, t.frames⟩ := by
  have htable : ∀ pd ∈ t.dirs, ∀ i, tableAt m pd i = tableAt t.s.mem pd i := fun pd hpd =>
    tableAt_congr hsame (h.tenured.aligned hpd) (h.tenured.dir_notMem_frames hpd)
  have hkernel : st.kernelPd ∉ { a | a ∈ t.frames } := fun hmem =>
    h.frame_fresh hmem h.started.directory
  refine ⟨h.started, h.tenured.keep htable (Set.Subset.refl _), h.grown,
    h.fresh_of fun r b hr => ?_, h.kernel.keep (Set.Subset.refl _) hsame hkernel,
    fun pd hpd => ?_, h.nonzero⟩
  · left
    cases r with
    | directory pd' => exact hr
    | page b' => exact hr
    | table pd' i =>
        by_cases hmem : pd' ∈ t.dirs
        · rw [Pool.Tenured.own_table hmem, ← htable pd' hmem i]
          simpa [Pool.own, hmem] using hr
        · simp [Pool.own, hmem] at hr
  · exact (h.sound pd hpd).congr hsame (h.tenured.aligned hpd) (h.tenured.dir_notMem_frames hpd)
      fun i pt hpt => h.tenured.table_notMem_frames hpd hpt

/-! ### A page -/

/-- A directory that shares no frame with what is written stays as it is. -/
theorem unseen (h : t.Inv st s) {m : Mem} {x : Nat} (hpd : pd ∈ t.dirs)
    (hsame : SameOff {pd, x} t.s.mem m) (hpd' : pd' ∈ t.dirs) (hne : pd' ≠ pd) (hx : x ≠ pd')
    (htables : ∀ i pt, tableAt t.s.mem pd' i = some pt → pt ≠ x) :
    (∀ i, tableAt m pd' i = tableAt t.s.mem pd' i) ∧ Sound st t.frames m pd' := by
  have hal := h.tenured.aligned hpd'
  have hout := notMem_pair hne (Ne.symm hx)
  refine ⟨tableAt_congr hsame hal hout, (h.sound pd' hpd').congr hsame hal hout ?_⟩
  exact fun i pt hpt => notMem_pair (h.tenured.table_ne_dir hpd' hpd hpt) (htables i pt hpt)

/-- Below the window the shared table is edited, which belongs to no directory. -/
theorem mapLow (h : t.Inv st s) {virt flags : Nat} (hpd : pd ∈ t.dirs) (hvirt : virt < 2 ^ 32)
    (hlow : pdIdx virt < identityPtCount)
    (hmap : pagingMapInto t.s pd virt a flags = .ok s') : Site.Inv st s ⟨s', t.dirs, t.frames⟩ := by
  have hok := h.pdOk hpd
  have hmaps : MapsPage st t.s s' pd virt a := by
    obtain ⟨pt, s₁, -, hens, rfl⟩ := pagingMapInto_eq hok.used hvirt hmap
    exact mapsPage_low hok hens hlow (ptIdx_lt virt) a
  cases hmaps with
  | high pt hhigh => exact absurd hlow (Nat.not_lt.mpr hhigh)
  | low _ hpmm hsame hentry htable hpage =>
      have hothers : ∀ pd' ∈ t.dirs, pd' ≠ pd →
          (∀ i, tableAt s'.mem pd' i = tableAt t.s.mem pd' i) ∧ Sound st t.frames s'.mem pd' :=
        fun pd' hpd' hne => h.unseen hpd hsame hpd' hne
          (fun heq => h.dir_fresh hpd' (heq ▸ h.started.tables _ hlow))
          fun i pt hpt heq => h.table_fresh hpd' hpt (heq ▸ h.started.tables _ hlow)
      have htables : ∀ pd' ∈ t.dirs, ∀ i, tableAt s'.mem pd' i = tableAt t.s.mem pd' i := by
        intro pd' hpd'
        by_cases heq : pd' = pd
        · rw [heq]
          exact htable
        · exact (hothers pd' hpd' heq).1
      have hgrown : Pmm.usedFrames t.s.pmm ⊆ Pmm.usedFrames s'.pmm := by rw [hpmm]
      have hkernel : st.kernelPd ∉ ({pd, st.identityPts + 4096 * pdIdx virt} : Set Nat) := by
        have hdir : st.kernelPd ≠ pd := fun heq => h.dir_fresh hpd (heq ▸ h.started.directory)
        apply notMem_pair hdir
        have hapart := st.apart
        unfold identityPtCount at hlow
        omega
      refine ⟨h.started, h.tenured.keep htables hgrown, h.grown.trans hgrown,
        h.fresh_of fun r b hr => ?_, h.kernel.keep hgrown hsame hkernel, fun pd' hpd' => ?_,
        h.nonzero⟩
      · left
        cases r with
        | directory pd' => exact hr
        | page b' => exact hr
        | table pd' i =>
            by_cases hmem : pd' ∈ t.dirs
            · rw [Pool.Tenured.own_table hmem, ← htables pd' hmem i]
              simpa [Pool.own, hmem] using hr
            · simp [Pool.own, hmem] at hr
      · by_cases heq : pd' = pd
        · subst heq
          have hsound := h.sound pd' hpd
          -- above the window the directory and its tables are as before
          have hread : ∀ i pt, tableAt t.s.mem pd' i = some pt →
              entry s'.mem pd' i = entry t.s.mem pd' i ∧
                ∀ j, j < 1024 → entry s'.mem pt j = entry t.s.mem pt j := by
            intro i pt hpt
            obtain ⟨hidx, hlt, -, -⟩ := tableAt_eq_some.mp hpt
            refine ⟨pagingMapInto_entry hok hvirt hlow hmap hlt (by omega), fun j hj => ?_⟩
            exact hsame.entry_eq (tableAt_aligned hpt) hj
              (notMem_pair (hok.tableNe i pt hpt) (hok.lowNeTable _ i pt hlow hpt))
          refine ⟨⟨?_, ?_⟩, fun i hi => ?_, fun i j b hb => ?_⟩
          · intro i pt hpt j hj hpresent huser
            rw [htable] at hpt
            rw [(hread i pt hpt).2 j hj] at hpresent huser
            rw [(hread i pt hpt).1]
            exact hsound.user i pt hpt j hj hpresent huser
          · intro i pt hpt
            rw [htable] at hpt
            rw [(hread i pt hpt).1]
            exact hsound.writable i pt hpt
          · rw [(hentry i hi).1, (hentry i hi).2]
            exact hsound.low i hi
          · rw [hpage] at hb
            exact hsound.backed i j b hb
        · exact (hothers pd' hpd' heq).2

/-- Above it, a table of the directory. -/
theorem mapHigh (h : t.Inv st s) {virt flags : Nat} (hpd : pd ∈ t.dirs) (ha : a ∈ t.frames)
    (hvirt : virt < 2 ^ 32) (hhigh : identityPtCount ≤ pdIdx virt) (hflags : flags < 4096)
    (hmap : pagingMapInto t.s pd virt a flags = .ok s') : Site.Inv st s ⟨s', t.dirs, t.frames⟩ := by
  have hused := h.tenured.frame_used ha
  have hal : a % 4096 = 0 := Pmm.usedFrames_aligned hused
  have halt := Pmm.usedFrames_lt hused
  obtain ⟨pt, hins⟩ := pagingMapInto_inserts (h.tenured.alone hpd) hvirt hhigh hal (by omega)
    hflags hmap
  have hgrown := usedFrames_subset_of_origin hins.origin
  have hothers : ∀ pd' ∈ t.dirs, pd' ≠ pd →
      (∀ i, tableAt s'.mem pd' i = tableAt t.s.mem pd' i) ∧ Sound st t.frames s'.mem pd' := by
    intro pd' hpd' hne
    have hapart := h.tenured.adds_apart hpd hins.toAddsEntry hpd' hne
    exact h.unseen hpd hins.same hpd' hne hapart.1 hapart.2
  -- the table is the directory's or was not in use
  have hpt : pt ≠ st.kernelPd := by
    rcases hins.origin with ⟨hold, -⟩ | ⟨-, halloc, hpt⟩
    · exact fun heq => h.table_fresh hpd hold (heq ▸ h.started.directory)
    · exact fun heq => (Pmm.pmmAllocFrame_some halloc hpt).1 (heq ▸ h.kernel.directory)
  have hdir : st.kernelPd ≠ pd := fun heq => h.dir_fresh hpd (heq ▸ h.started.directory)
  refine ⟨h.started, h.tenured.adds hpd hins.toAddsEntry, h.grown.trans hgrown,
    h.fresh_of fun r b hr => ?_, h.kernel.keep hgrown hins.same (notMem_pair hdir hpt.symm),
    fun pd' hpd' => ?_, h.nonzero⟩
  · cases r with
    | directory pd' => exact Or.inl hr
    | page b' => exact Or.inl hr
    | table pd' i =>
        by_cases hmem : pd' ∈ t.dirs
        · have hafter : tableAt s'.mem pd' i = some b := by simpa [Pool.own, hmem] using hr
          rw [Pool.Tenured.own_table hmem]
          by_cases heq : pd' = pd
          · subst heq
            rw [hins.table] at hafter
            by_cases hi : i = pdIdx virt
            · rw [if_pos hi] at hafter
              cases hafter
              rcases hins.origin with ⟨hold, -⟩ | ⟨-, halloc, hne⟩
              · exact Or.inl (hi ▸ hold)
              · exact Or.inr (Pmm.pmmAllocFrame_some halloc hne).1
            · rw [if_neg hi] at hafter
              exact Or.inl hafter
          · exact Or.inl (((hothers pd' hmem heq).1 i).symm.trans hafter)
        · simp [Pool.own, hmem] at hr
  · by_cases heq : pd' = pd
    · subst heq
      have hsound := h.sound pd' hpd
      refine ⟨hsound.toGrants.inserts hins, fun i hi => ?_, fun i j b hpage => ?_⟩
      · rw [hins.others i (hi.trans (by decide)) (by omega)]
        exact hsound.low i hi
      · rcases hins.page hal hflags hpage with rfl | hold
        · exact ha
        · exact hsound.backed i j b hold
    · exact (hothers pd' hpd' heq).2

/-! ### Frames given back -/

/-- Some directories and frames are given up, with everything that only they have. -/
theorem giveUp (h : t.Inv st s) {pmm : Pmm.State} {dirs frames : List Nat} {gone : Set Nat}
    (hused : Pmm.usedFrames pmm = Pmm.usedFrames t.s.pmm \ gone)
    (hdirs : ∀ pd ∈ dirs, pd ∈ t.dirs ∧ ∀ a ∈ pdFrames t.s.mem pd, a ∉ gone)
    (hframes : ∀ a ∈ frames, a ∈ t.frames ∧ a ∉ gone)
    (hrest : ∀ a ∈ t.frames, a ∉ gone → a ∈ frames)
    (hgone : ∀ a ∈ gone, a ∉ Pmm.usedFrames s.pmm) :
    Site.Inv st s ⟨⟨pmm, t.s.mem⟩, dirs, frames⟩ := by
  have hown : ∀ r a, (⟨⟨pmm, t.s.mem⟩, dirs, frames⟩ : Site).pool.own r = some a →
      t.pool.own r = some a ∧ a ∉ gone := by
    intro r b hr
    cases r with
    | directory pd =>
        by_cases hpd : pd ∈ dirs
        · have hpdb : pd = b := by simpa [Pool.own, hpd] using hr
          subst hpdb
          exact ⟨if_pos (hdirs pd hpd).1, (hdirs pd hpd).2 pd (mem_pdFrames.mpr (Or.inl rfl))⟩
        · simp [Pool.own, hpd] at hr
    | table pd i =>
        by_cases hpd : pd ∈ dirs
        · have htable : tableAt t.s.mem pd i = some b := by simpa [Pool.own, hpd] using hr
          exact ⟨(Pool.Tenured.own_table (hdirs pd hpd).1).trans htable,
            (hdirs pd hpd).2 b (mem_pdFrames.mpr (Or.inr (Or.inl ⟨i, htable⟩)))⟩
        · simp [Pool.own, hpd] at hr
    | page b' =>
        by_cases hb : b' ∈ frames
        · have hbb : b' = b := by simpa [Pool.own, hb] using hr
          subst hbb
          exact ⟨if_pos (hframes b' hb).1, (hframes b' hb).2⟩
        · simp [Pool.own, hb] at hr
  have hstay : ∀ a, a ∈ Pmm.usedFrames t.s.pmm → a ∉ gone → a ∈ Pmm.usedFrames pmm := by
    intro a ha hout
    rw [hused]
    exact ⟨ha, hout⟩
  have hgrown : Pmm.usedFrames s.pmm ⊆ Pmm.usedFrames pmm := fun a ha =>
    hstay a (h.grown ha) fun hin => hgone a hin ha
  refine ⟨h.started, ?_, hgrown, fun r a hr => h.fresh r a (hown r a hr).1, ?_, fun pd hpd => ?_,
    fun pd hpd => h.nonzero pd (hdirs pd hpd).1⟩
  · apply Tenure.mono h.tenured (fun r a hr => (hown r a hr).1)
    exact fun r a hr => hstay a (h.tenured.held r a (hown r a hr).1) (hown r a hr).2
  · exact ⟨hgrown h.started.directory, fun i hi => hgrown (h.started.tables i hi),
      h.kernel.present, h.kernel.frame⟩
  · have hsound := h.sound pd (hdirs pd hpd).1
    refine ⟨hsound.toGrants, hsound.low, fun i j a hpage => ?_⟩
    exact hrest a (hsound.backed i j a hpage)
      ((hdirs pd hpd).2 a (mem_pdFrames.mpr (Or.inr (Or.inr ⟨i, j, hpage⟩))))

theorem free (h : t.Inv st s) (ha : a ∈ t.frames)
    (hloose : ∀ pd ∈ t.dirs, ∀ i j, pageAt t.s.mem pd i j ≠ some a) :
    Site.Inv st s
      ⟨⟨Pmm.pmmFreeFrame t.s.pmm a, t.s.mem⟩, t.dirs, t.frames.filter (· ≠ a)⟩ := by
  have hal := Pmm.usedFrames_aligned (h.tenured.frame_used ha)
  apply h.giveUp (Pmm.usedFrames_pmmFreeFrame t.s.pmm hal)
  · refine fun pd hpd => ⟨hpd, fun b hb heq => ?_⟩
    rw [Set.mem_singleton_iff.mp heq] at hb
    rcases mem_pdFrames.mp hb with rfl | ⟨i, htable⟩ | ⟨i, j, hpage⟩
    · exact h.tenured.dir_notMem_frames hpd ha
    · exact h.tenured.table_notMem_frames hpd htable ha
    · exact hloose pd hpd i j hpage
  · intro b hb
    rw [List.mem_filter, decide_eq_true_eq] at hb
    exact hb
  · intro b hb hne
    rw [List.mem_filter, decide_eq_true_eq]
    exact ⟨hb, hne⟩
  · rintro b rfl
    exact h.frame_fresh ha

theorem freePd (h : t.Inv st s) (hpd : pd ∈ t.dirs)
    (hpages : ∀ pd' ∈ t.dirs, pd' ≠ pd → ∀ i j i' j' a, pageAt t.s.mem pd i j = some a →
      pageAt t.s.mem pd' i' j' ≠ some a) :
    Site.Inv st s ⟨pagingFreePd t.s pd, t.dirs.filter (· ≠ pd),
      t.frames.filter (· ∉ pdFrames t.s.mem pd)⟩ := by
  have hsound := h.sound pd hpd
  rw [show pagingFreePd t.s pd = ⟨(pagingFreePd t.s pd).pmm, t.s.mem⟩ by
    rw [← pagingFreePd_mem t.s pd]]
  apply h.giveUp (usedFrames_pagingFreePd (h.nonzero pd hpd) (h.tenured.aligned hpd))
  · intro pd' hpd'
    rw [List.mem_filter, decide_eq_true_eq] at hpd'
    obtain ⟨hpd', hne⟩ := hpd'
    refine ⟨hpd', fun b hb hgone => ?_⟩
    rw [Set.mem_ofPred_eq] at hgone
    -- a frame of both directories is a page of both
    rcases mem_pdFrames.mp hb with rfl | ⟨i', htable'⟩ | ⟨i', j', hpage'⟩
    · rcases mem_pdFrames.mp hgone with heq | ⟨i, htable⟩ | ⟨i, j, hpage⟩
      · exact hne heq
      · exact h.tenured.table_ne_dir hpd hpd' htable rfl
      · exact h.tenured.dir_notMem_frames hpd' (hsound.backed i j b hpage)
    · rcases mem_pdFrames.mp hgone with rfl | ⟨i, htable⟩ | ⟨i, j, hpage⟩
      · exact h.tenured.table_ne_dir hpd' hpd htable' rfl
      · exact hne (h.tenured.table_unique hpd' hpd htable' htable).1
      · exact h.tenured.table_notMem_frames hpd' htable' (hsound.backed i j b hpage)
    · have hframe := (h.sound pd' hpd').backed i' j' b hpage'
      rcases mem_pdFrames.mp hgone with rfl | ⟨i, htable⟩ | ⟨i, j, hpage⟩
      · exact h.tenured.dir_notMem_frames hpd hframe
      · exact h.tenured.table_notMem_frames hpd htable hframe
      · exact hpages pd' hpd' hne i j i' j' b hpage hpage'
  · intro b hb
    rw [List.mem_filter, decide_eq_true_eq] at hb
    exact hb
  · intro b hb hout
    rw [List.mem_filter, decide_eq_true_eq]
    exact ⟨hb, hout⟩
  · exact fun b hb => h.new hpd hb

theorem step (h : t.Inv st s) {t' : Site} (hstep : Site.Step st t t') : t'.Inv st s := by
  cases hstep with
  | create hcreate hpd => exact h.create hcreate hpd
  | alloc halloc ha => exact h.alloc halloc ha
  | refused halloc => exact h.refused halloc
  | store hsame => exact h.store hsame
  | map hpd ha hvirt hflags hmap =>
      rename_i virt _ _
      by_cases hlow : pdIdx virt < identityPtCount
      · exact h.mapLow hpd hvirt hlow hmap
      · exact h.mapHigh hpd ha hvirt (Nat.le_of_not_lt hlow) hflags hmap
  | free ha hloose => exact h.free ha hloose
  | freePd hpd hpages => exact h.freePd hpd hpages

end Site.Inv

theorem Site.Step.calls {st : Statics} {t t' : Site} (h : Site.Step st t t') :
    ReflTransGen Pmm.AnyCall t.s.pmm t'.s.pmm := by
  have halloc := Pmm.AnyCall.alloc t.s.pmm
  cases h with
  | create hcreate hpd =>
      rw [(pagingCreateUserPd_spec hcreate hpd).1] at halloc
      exact .single halloc
  | alloc hret ha =>
      rw [hret] at halloc
      exact .single halloc
  | refused hret =>
      rw [hret] at halloc
      exact .single halloc
  | store => exact .refl
  | map _ _ _ _ hmap => exact pagingMapInto_calls hmap
  | free => exact .single (.free _ _)
  | freePd => exact pagingFreePd_calls _ _

theorem Site.calls_of_run {st : Statics} {t t' : Site}
    (hrun : ReflTransGen (Site.Step st) t t') : ReflTransGen Pmm.AnyCall t.s.pmm t'.s.pmm := by
  induction hrun with
  | refl => exact .refl
  | tail _ hstep ih => exact ih.trans hstep.calls

/-- Everything that is built from a machine whose kernel tables are in use. -/
theorem Site.inv_of_run {st : Statics} {s : State} {t : Site} (h : KernelTables st s)
    (hrun : ReflTransGen (Site.Step st) ⟨s, [], []⟩ t) : t.Inv st s := by
  induction hrun with
  | refl => exact Site.Inv.start h
  | tail _ hstep ih => exact ih.step hstep

end StakOS.Paging
