import StakOS.Paging.Finite
import StakOS.Pmm.Calls

/-!
# What `paging_free_pd` gives back

The function recovers what a directory owns by walking its tables.  A ledger kept
beside the machine says what was taken for each directory: its frame, the tables
made on demand, and the frames mapped into it.  The walk finds the ledger's frames
and no others, whatever else has been allocated, created and mapped meanwhile.
-/

namespace StakOS.Paging

open StakOS.Lib.Memory StakOS.Lib.Loop StakOS.Lib.Ownership
open Relation (ReflTransGen)

/-! ## Pages below the identity window -/

/-- `paging_map_into` leaves the entries for other windows. -/
theorem pagingMapInto_entry {st : Statics} {s s' : State} {pd virt a flags i : Nat}
    (hok : PdOk st s pd) (hvirt : virt < 2 ^ 32) (hlow : pdIdx virt < identityPtCount)
    (hmap : pagingMapInto s pd virt a flags = .ok s') (hi : i < 1024) (hne : i ≠ pdIdx virt) :
    entry s'.mem pd i = entry s.mem pd i := by
  obtain ⟨pt, s₁, -, hens, rfl⟩ := pagingMapInto_eq hok.used hvirt hmap
  have hpt : pt ≠ pd := by
    rw [(hens.low hok hlow).1]
    exact hok.lowNe _ hlow
  have hptal : pt % 4096 = 0 := hens.table ▸ frameOf_aligned _
  rw [← hens.others i hi hne]
  exact entry_setEntry_ne _ (Pmm.usedFrames_aligned hok.used) hptal hpt (ptIdx_lt virt) hi

/-- A page below the window leaves the map that is stored above it. -/
theorem Stores.mapLow {st : Statics} {s s' : State} {pd virt a flags : Nat}
    {f : Nat → Option (Nat × Nat)} (h : Stores s.mem pd f) (hok : PdOk st s pd)
    (hvirt : virt < 2 ^ 32) (hlow : pdIdx virt < identityPtCount) (hmapping : Mapping a flags)
    (hmap : pagingMapInto s pd virt a flags = .ok s')
    (hsame : SameOff {pd, st.identityPts + 4096 * pdIdx virt} s.mem s'.mem)
    (htable : ∀ i, tableAt s'.mem pd i = tableAt s.mem pd i) :
    Stores s'.mem pd (Function.update f (virt / 4096) (some (a, flags))) := by
  have hkept : ∀ i j, identityPtCount ≤ i → j < 1024 →
      Function.update f (virt / 4096) (some (a, flags)) (pageOf i j) = f (pageOf i j) := by
    intro i j hi hj
    apply Function.update_of_ne
    rw [← pageOf_virt virt]
    intro heq
    have hidx := ((pageOf_inj hj (ptIdx_lt virt)).mp heq).1
    omega
  constructor
  · intro n b fl hn
    by_cases hnv : n = virt / 4096
    · rw [hnv, Function.update_self] at hn
      cases hn
      exact hmapping
    · rw [Function.update_of_ne hnv] at hn
      exact h.mapping n b fl hn
  · intro i hi hlt hnone j hj
    rw [htable] at hnone
    rw [hkept i j hi hj]
    exact h.absent i hi hlt hnone j hj
  · intro i pt hpt j hj
    rw [htable] at hpt
    have hout := notMem_pair (hok.tableNe i pt hpt) (hok.lowNeTable _ i pt hlow hpt)
    rw [hkept i j (tableAt_eq_some.mp hpt).1 hj, hsame.entry_eq (tableAt_aligned hpt) hj hout]
    exact h.entries i pt hpt j hj
  · intro i pt hpt j b fl hj hf huser
    rw [htable] at hpt
    obtain ⟨hi, hlt, -, -⟩ := tableAt_eq_some.mp hpt
    rw [hkept i j hi hj] at hf
    rw [pagingMapInto_entry hok hvirt hlow hmap hlt (by omega)]
    exact h.user i pt hpt j b fl hj hf huser

/-- The frame behind a page above the window is the one the map has there. -/
theorem Stores.pageAt_eq {m : Mem} {pd i j : Nat} {f : Nat → Option (Nat × Nat)}
    (h : Stores m pd f) (hi : identityPtCount ≤ i) (hlt : i < pdEntries) (hj : j < 1024) :
    pageAt m pd i j = (f (pageOf i j)).map Prod.fst := by
  cases htable : tableAt m pd i with
  | none => rw [pageAt_of_none j htable, h.absent i hi hlt htable j hj, Option.map_none]
  | some pt =>
      rw [pageAt_of_table htable, h.entries i pt htable j hj]
      cases hf : f (pageOf i j) with
      | none => rw [if_neg (by simp [encode]), Option.map_none]
      | some e =>
          have hmapping := h.mapping _ e.1 e.2 hf
          rw [if_pos ⟨hj, hmapping.present_encode⟩, hmapping.frameOf_encode, Option.map_some]

/-! ## The allocator is reached through its calls only -/

theorem pagingMapInto_calls {s s' : State} {pd virt phys flags : Nat}
    (h : pagingMapInto s pd virt phys flags = .ok s') :
    ReflTransGen Pmm.AnyCall s.pmm s'.pmm := by
  obtain ⟨s₁, hensure, hrest⟩ := bind_eq_ok.mp h
  cases hrest
  change ReflTransGen Pmm.AnyCall s.pmm s₁.pmm
  unfold ensureTable at hensure
  by_cases hpresent : hasFlag (entry s.mem pd (pdIdx virt)) pdePresent = true
  · simp only [hpresent, Bool.not_true, Bool.false_eq_true, if_false] at hensure
    by_cases huser : hasFlag flags pteUser = true
    · rw [if_pos huser] at hensure
      cases hensure
      exact .refl
    · rw [if_neg huser] at hensure
      cases hensure
      exact .refl
  · rw [Bool.not_eq_true] at hpresent
    simp only [hpresent, Bool.not_false, if_true] at hensure
    by_cases hpt : (Pmm.pmmAllocFrame s.pmm).2 = 0
    · rw [if_pos hpt] at hensure
      cases hensure
    · rw [if_neg hpt] at hensure
      cases hensure
      exact .single (.alloc s.pmm)

theorem pagingFreePd_calls (s : State) (pd : Nat) :
    ReflTransGen Pmm.AnyCall s.pmm (pagingFreePd s pd).pmm := by
  by_cases hpd : pd = 0
  · unfold pagingFreePd
    rw [if_pos hpd]
  · rw [pagingFreePd_pmm hpd]
    exact Pmm.calls_foldl_free _ _

/-! ## The ledger -/

/-- The machine with its directories, and the numbers of the frames that were taken
for each directory. -/
structure Ledger where
  pool : Pool
  taken : Nat → Finset Nat

/-- One call of the allocator or of `paging.c` on any directory and any page, or a
store into the frames allocated.  A frame that the allocator gives out while a page
is mapped is the directory's. -/
inductive Ledger.Step (st : Statics) : Ledger → Ledger → Prop
  | create {l : Ledger} {s' : State} {pd : Nat}
      (hcreate : pagingCreateUserPd st l.pool.s = (s', pd)) (hpd : pd ≠ 0) :
      Ledger.Step st l ⟨⟨s', pd :: l.pool.dirs, l.pool.frames, l.pool.calls⟩,
        Function.update l.taken pd {pd / 4096}⟩
  | alloc {l : Ledger} {pmm : Pmm.State} {a : Nat}
      (halloc : Pmm.pmmAllocFrame l.pool.s.pmm = (pmm, a)) (ha : a ≠ 0) :
      Ledger.Step st l ⟨⟨⟨pmm, l.pool.s.mem⟩, l.pool.dirs, a :: l.pool.frames, l.pool.calls⟩,
        l.taken⟩
  | refused {l : Ledger} {pmm : Pmm.State}
      (halloc : Pmm.pmmAllocFrame l.pool.s.pmm = (pmm, 0)) :
      Ledger.Step st l ⟨⟨⟨pmm, l.pool.s.mem⟩, l.pool.dirs, l.pool.frames, l.pool.calls⟩, l.taken⟩
  | store {l : Ledger} {m : Mem} (hsame : SameOff { a | a ∈ l.pool.frames } l.pool.s.mem m) :
      Ledger.Step st l ⟨⟨⟨l.pool.s.pmm, m⟩, l.pool.dirs, l.pool.frames, l.pool.calls⟩, l.taken⟩
  | map {l : Ledger} {s' : State} {pd virt a flags : Nat} (hpd : pd ∈ l.pool.dirs)
      (ha : a ∈ l.pool.frames) (hvirt : virt < 2 ^ 32) (hflags : flags < 4096)
      (hpresent : hasFlag flags ptePresent = true)
      (hmap : pagingMapInto l.pool.s pd virt a flags = .ok s') :
      Ledger.Step st l
        ⟨⟨s', l.pool.dirs, l.pool.frames, ⟨pd, virt / 4096, a, flags⟩ :: l.pool.calls⟩,
          Function.update l.taken pd (insert (a / 4096)
            (l.taken pd ∪ Pmm.freeSet l.pool.s.pmm \ Pmm.freeSet s'.pmm))⟩

/-- The machine before the first of these calls. -/
def Ledger.start (s : State) : Ledger := ⟨⟨s, [], [], []⟩, fun _ => ∅⟩

/-- The kernel's directory as `paging_init` leaves it, in frames that are in use. -/
structure KernelTables (st : Statics) (s : State) : Prop where
  directory : st.kernelPd ∈ Pmm.usedFrames s.pmm
  tables : ∀ i, i < identityPtCount → st.identityPts + 4096 * i ∈ Pmm.usedFrames s.pmm
  present : ∀ i, i < identityPtCount → hasFlag (entry s.mem st.kernelPd i) pdePresent = true
  frame : ∀ i, i < identityPtCount →
    frameOf (entry s.mem st.kernelPd i) = st.identityPts + 4096 * i

/-- It stays so while its frame is left alone. -/
theorem KernelTables.keep {st : Statics} {s s' : State} {fs : Set Nat} (h : KernelTables st s)
    (hused : Pmm.usedFrames s.pmm ⊆ Pmm.usedFrames s'.pmm) (hsame : SameOff fs s.mem s'.mem)
    (hout : st.kernelPd ∉ fs) : KernelTables st s' := by
  have hentry : ∀ i, i < identityPtCount →
      entry s'.mem st.kernelPd i = entry s.mem st.kernelPd i := fun i hi =>
    hsame.entry_eq (Pmm.usedFrames_aligned h.directory) (hi.trans (by decide)) hout
  refine ⟨hused h.directory, fun i hi => hused (h.tables i hi), fun i hi => ?_, fun i hi => ?_⟩
  · rw [hentry i hi]
    exact h.present i hi
  · rw [hentry i hi]
    exact h.frame i hi

/-- What holds of a ledger started in `s`. -/
structure Ledger.Inv (st : Statics) (s : State) (l : Ledger) : Prop where
  started : KernelTables st s
  pool : l.pool.Inv
  grown : Pmm.usedFrames s.pmm ⊆ Pmm.usedFrames l.pool.s.pmm
  inStep : Pmm.InStep s.pmm l.pool.s.pmm
  fresh : ∀ r a, l.pool.own r = some a → a ∉ Pmm.usedFrames s.pmm
  kernel : KernelTables st l.pool.s
  low : ∀ pd ∈ l.pool.dirs, ∀ i, i < identityPtCount →
    hasFlag (entry l.pool.s.mem pd i) pdePresent = true ∧
      frameOf (entry l.pool.s.mem pd i) = st.identityPts + 4096 * i
  nonzero : ∀ pd ∈ l.pool.dirs, pd ≠ 0
  calls : ∀ c ∈ l.pool.calls, c.frame ∈ l.pool.frames ∧ c.page < 2 ^ 20
  taken : ∀ pd ∈ l.pool.dirs, ∀ f, f ∈ l.taken pd ↔
    f = pd / 4096 ∨ (∃ i, tableAt l.pool.s.mem pd i = some (f * 4096)) ∨
      ∃ c ∈ l.pool.calls, c.pd = pd ∧ c.frame / 4096 = f

/-- A table that `paging_map_into` adds is the frame that is no longer free. -/
theorem MapsPage.table_iff {st : Statics} {s s' : State} {pd virt a : Nat}
    (h : MapsPage st s s' pd virt a) (f : Nat) :
    (∃ i, tableAt s'.mem pd i = some (f * 4096)) ↔
      (∃ i, tableAt s.mem pd i = some (f * 4096)) ∨
        f ∈ Pmm.freeSet s.pmm \ Pmm.freeSet s'.pmm := by
  cases h with
  | low hlow hpmm hsame hentry htable hpage =>
      simp only [htable, hpmm, Finset.sdiff_self, Finset.notMem_empty, or_false]
  | high pt hhigh horigin hsame hentry htable hpage =>
      rcases horigin with ⟨hold, hpmm⟩ | ⟨hnone, halloc, hpt⟩
      · have hall : ∀ i, tableAt s'.mem pd i = tableAt s.mem pd i := by
          intro i
          rw [htable]
          split
          · next hi => rw [hi, hold]
          · rfl
        simp only [hall, hpmm, Finset.sdiff_self, Finset.notMem_empty, or_false]
      · rw [Pmm.mem_freeSet_sdiff_alloc halloc hpt]
        constructor
        · rintro ⟨i, hi⟩
          rw [htable] at hi
          split at hi
          · exact Or.inr (Option.some.inj hi).symm
          · exact Or.inl ⟨i, hi⟩
        · rintro (⟨i, hi⟩ | hf)
          · refine ⟨i, ?_⟩
            rw [htable, if_neg, hi]
            rintro rfl
            rw [hnone] at hi
            cases hi
          · refine ⟨pdIdx virt, ?_⟩
            rw [htable, if_pos rfl]
            exact congrArg some hf.symm

theorem MapsPage.pmm {st : Statics} {s s' : State} {pd virt a : Nat}
    (h : MapsPage st s s' pd virt a) :
    Pmm.usedFrames s.pmm ⊆ Pmm.usedFrames s'.pmm ∧ Pmm.InStep s.pmm s'.pmm := by
  cases h with
  | low hlow hpmm =>
      rw [hpmm]
      exact ⟨Set.Subset.refl _, .refl _⟩
  | high pt hhigh horigin =>
      refine ⟨usedFrames_subset_of_origin horigin, ?_⟩
      rcases horigin with ⟨-, hpmm⟩ | ⟨-, halloc, -⟩
      · rw [hpmm]
        exact .refl _
      · have hstep := Pmm.inStep_alloc s.pmm
        rw [halloc] at hstep
        exact hstep

namespace Ledger.Inv

variable {st : Statics} {s s' : State} {l : Ledger} {pd pd' pt i a : Nat}

theorem start (h : KernelTables st s) : Ledger.Inv st s (Ledger.start s) where
  started := h
  pool := Pool.Inv.start
  grown := Set.Subset.refl _
  inStep := .refl _
  fresh := by
    intro r a hr
    cases r <;> simp [Ledger.start, Pool.own] at hr
  kernel := h
  low := by simp [Ledger.start]
  nonzero := by simp [Ledger.start]
  calls := by simp [Ledger.start]
  taken := by simp [Ledger.start]

theorem dir_fresh (h : l.Inv st s) (hpd : pd ∈ l.pool.dirs) : pd ∉ Pmm.usedFrames s.pmm :=
  h.fresh (.directory pd) pd (if_pos hpd)

theorem table_fresh (h : l.Inv st s) (hpd : pd ∈ l.pool.dirs)
    (hpt : tableAt l.pool.s.mem pd i = some pt) : pt ∉ Pmm.usedFrames s.pmm :=
  h.fresh (.table pd i) pt ((Pool.Inv.own_table hpd).trans hpt)

theorem frame_fresh (h : l.Inv st s) (ha : a ∈ l.pool.frames) : a ∉ Pmm.usedFrames s.pmm :=
  h.fresh (.page a) a (if_pos ha)

theorem pdOk (h : l.Inv st s) (hpd : pd ∈ l.pool.dirs) : PdOk st l.pool.s pd where
  used := h.pool.dir_used hpd
  tableUsed := fun _ _ hpt => h.pool.table_used hpd hpt
  tableNe := fun _ _ hpt => h.pool.table_ne_dir hpd hpd hpt
  tableInj := fun _ _ _ hpt hpt' => (h.pool.table_unique hpd hpd hpt hpt').2
  lowPresent := fun i hi => (h.low pd hpd i hi).1
  lowTable := fun i hi => (h.low pd hpd i hi).2
  lowUsed := h.kernel.tables
  lowNe := fun i hi heq => h.dir_fresh hpd (heq ▸ h.started.tables i hi)
  lowNeTable := fun i _ _ hi hpt heq => h.table_fresh hpd hpt (heq ▸ h.started.tables i hi)

/-- The roles are played by frames that were free at the start as long as new players
come from the free ones. -/
theorem fresh_of (h : l.Inv st s) {own : Role → Option Nat}
    (hown : ∀ r a, own r = some a → l.pool.own r = some a ∨ a ∉ Pmm.usedFrames l.pool.s.pmm) :
    ∀ r a, own r = some a → a ∉ Pmm.usedFrames s.pmm := by
  intro r a hr
  rcases hown r a hr with hold | hnew
  · exact h.fresh r a hold
  · exact fun hused => hnew (h.grown hused)

/-! ### Calls that concern no directory -/

/-- The allocator is called, or the allocated frames are stored into. -/
theorem quiet (h : l.Inv st s) {frames : List Nat}
    (hpool : (⟨s', l.pool.dirs, frames, l.pool.calls⟩ : Pool).Inv)
    (hframes : ∀ a ∈ l.pool.frames, a ∈ frames)
    (hnew : ∀ a ∈ frames, a ∈ l.pool.frames ∨ a ∉ Pmm.usedFrames l.pool.s.pmm)
    (hsame : SameOff { a | a ∈ l.pool.frames } l.pool.s.mem s'.mem)
    (hgrown : Pmm.usedFrames l.pool.s.pmm ⊆ Pmm.usedFrames s'.pmm)
    (hstep : Pmm.InStep l.pool.s.pmm s'.pmm) :
    Ledger.Inv st s ⟨⟨s', l.pool.dirs, frames, l.pool.calls⟩, l.taken⟩ := by
  have htable : ∀ pd ∈ l.pool.dirs, ∀ i, tableAt s'.mem pd i = tableAt l.pool.s.mem pd i :=
    fun pd hpd => (h.pool.unseen hsame hpd (h.pool.dir_notMem_frames hpd)
      fun i pt hpt => h.pool.table_notMem_frames hpd hpt).1
  refine ⟨h.started, hpool, h.grown.trans hgrown, h.inStep.trans hstep, h.fresh_of ?_,
    h.kernel.keep hgrown hsame ?_, ?_, h.nonzero, ?_, ?_⟩
  · intro r a hr
    cases r with
    | directory pd => exact Or.inl hr
    | table pd i =>
        left
        by_cases hpd : pd ∈ l.pool.dirs
        · rw [Pool.Inv.own_table hpd, ← htable pd hpd i]
          simpa [Pool.own, hpd] using hr
        · simp [Pool.own, hpd] at hr
    | page b =>
        by_cases hb : b ∈ frames
        · have hba : b = a := by simpa [Pool.own, hb] using hr
          rw [← hba]
          apply (hnew b hb).imp_left
          intro hin
          exact if_pos hin
        · simp [Pool.own, hb] at hr
  · exact fun hmem => h.frame_fresh hmem h.started.directory
  · intro pd hpd i hi
    have hentry : entry s'.mem pd i = entry l.pool.s.mem pd i :=
      hsame.entry_eq (h.pool.aligned hpd) (hi.trans (by decide)) (h.pool.dir_notMem_frames hpd)
    rw [hentry]
    exact h.low pd hpd i hi
  · exact fun c hc => ⟨hframes _ (h.calls c hc).1, (h.calls c hc).2⟩
  · intro pd hpd f
    rw [h.taken pd hpd f]
    simp only [htable pd hpd]

theorem alloc (h : l.Inv st s) {pmm : Pmm.State}
    (halloc : Pmm.pmmAllocFrame l.pool.s.pmm = (pmm, a)) (ha : a ≠ 0) :
    Ledger.Inv st s
      ⟨⟨⟨pmm, l.pool.s.mem⟩, l.pool.dirs, a :: l.pool.frames, l.pool.calls⟩, l.taken⟩ := by
  obtain ⟨hfresh, hused, -⟩ := Pmm.pmmAllocFrame_some halloc ha
  have hstep := Pmm.inStep_alloc l.pool.s.pmm
  rw [halloc] at hstep
  apply h.quiet (h.pool.alloc halloc ha)
  · exact fun b hb => List.mem_cons_of_mem a hb
  · intro b hb
    rcases List.mem_cons.mp hb with rfl | hold
    · exact Or.inr hfresh
    · exact Or.inl hold
  · exact .refl _
  · rw [hused]
    exact Set.subset_insert a _
  · exact hstep

theorem refused (h : l.Inv st s) {pmm : Pmm.State}
    (halloc : Pmm.pmmAllocFrame l.pool.s.pmm = (pmm, 0)) :
    Ledger.Inv st s
      ⟨⟨⟨pmm, l.pool.s.mem⟩, l.pool.dirs, l.pool.frames, l.pool.calls⟩, l.taken⟩ := by
  have hstep := Pmm.inStep_alloc l.pool.s.pmm
  have hgrown := Pmm.usedFrames_subset_alloc l.pool.s.pmm
  rw [halloc] at hstep hgrown
  have hpool : (⟨⟨pmm, l.pool.s.mem⟩, l.pool.dirs, l.pool.frames, l.pool.calls⟩ : Pool).Inv :=
    ⟨h.pool.tenure.widen hgrown, h.pool.stores, h.pool.known⟩
  apply h.quiet hpool
  · exact fun b hb => hb
  · exact fun b hb => Or.inl hb
  · exact .refl _
  · exact hgrown
  · exact hstep

theorem store (h : l.Inv st s) {m : Mem}
    (hsame : SameOff { a | a ∈ l.pool.frames } l.pool.s.mem m) :
    Ledger.Inv st s
      ⟨⟨⟨l.pool.s.pmm, m⟩, l.pool.dirs, l.pool.frames, l.pool.calls⟩, l.taken⟩ := by
  apply h.quiet (h.pool.store hsame)
  · exact fun b hb => hb
  · exact fun b hb => Or.inl hb
  · exact hsame
  · exact Set.Subset.refl _
  · exact .refl _

/-! ### A new directory -/

theorem create (h : l.Inv st s) (hcreate : pagingCreateUserPd st l.pool.s = (s', pd))
    (hpd : pd ≠ 0) :
    Ledger.Inv st s ⟨⟨s', pd :: l.pool.dirs, l.pool.frames, l.pool.calls⟩,
      Function.update l.taken pd {pd / 4096}⟩ := by
  obtain ⟨halloc, hsame, hcopied, hempty⟩ := pagingCreateUserPd_spec hcreate hpd
  obtain ⟨hfresh, hused, -⟩ := Pmm.pmmAllocFrame_some halloc hpd
  have hnew : pd ∉ l.pool.dirs := fun hmem => hfresh (h.pool.dir_used hmem)
  have hgrown : Pmm.usedFrames l.pool.s.pmm ⊆ Pmm.usedFrames s'.pmm := by
    rw [hused]
    exact Set.subset_insert pd _
  have hstep := Pmm.inStep_alloc l.pool.s.pmm
  rw [halloc] at hstep
  have hother : ∀ pd' ∈ l.pool.dirs, pd' ≠ pd := fun pd' hpd' heq => hnew (heq ▸ hpd')
  refine ⟨h.started, h.pool.create hcreate hpd, h.grown.trans hgrown, h.inStep.trans hstep,
    h.fresh_of ?_, h.kernel.keep hgrown hsame ?_, ?_, ?_, h.calls, ?_⟩
  · intro r a hr
    cases r with
    | directory pd' =>
        by_cases heq : pd' = pd
        · right
          have hpda : pd' = a := by simpa [Pool.own, heq] using hr
          rw [← hpda, heq]
          exact hfresh
        · left
          simpa [Pool.own, heq] using hr
    | table pd' i =>
        left
        by_cases heq : pd' = pd
        · rw [heq] at hr
          simp [Pool.own, hempty] at hr
        · by_cases hmem : pd' ∈ l.pool.dirs
          · rw [Pool.Inv.own_table hmem, ← (h.pool.create_other hcreate hpd hmem).1 i]
            simpa [Pool.own, hmem] using hr
          · simp [Pool.own, heq, hmem] at hr
    | page b => exact Or.inl hr
  · intro hmem
    exact hfresh (Set.mem_singleton_iff.mp hmem ▸ h.grown h.started.directory)
  · intro pd' hpd' i hi
    rcases List.mem_cons.mp hpd' with rfl | hold
    · rw [hcopied i hi]
      exact ⟨h.kernel.present i hi, h.kernel.frame i hi⟩
    · have hentry : entry s'.mem pd' i = entry l.pool.s.mem pd' i :=
        hsame.entry_eq (h.pool.aligned hold) (hi.trans (by decide)) (hother pd' hold)
      rw [hentry]
      exact h.low pd' hold i hi
  · intro pd' hpd'
    rcases List.mem_cons.mp hpd' with rfl | hold
    · exact hpd
    · exact h.nonzero pd' hold
  · intro pd' hpd' f
    rcases List.mem_cons.mp hpd' with rfl | hold
    · have hnone : ¬∃ c ∈ l.pool.calls, c.pd = pd' ∧ c.frame / 4096 = f := by
        rintro ⟨c, hc, hcpd, -⟩
        exact hnew (hcpd ▸ h.pool.known c hc)
      simp only [Function.update_self, Finset.mem_singleton, hempty, hnone, reduceCtorEq,
        exists_false, or_false]
    · simp only [Function.update_of_ne (hother pd' hold), h.taken pd' hold f,
        (h.pool.create_other hcreate hpd hold).1]

/-! ### A page -/

/-- What `paging_map_into` writes to: its directory and a frame that belongs to no
other. -/
theorem writes (h : l.Inv st s) {virt : Nat} (hpd : pd ∈ l.pool.dirs)
    (hmaps : MapsPage st l.pool.s s' pd virt a) :
    ∃ x, SameOff {pd, x} l.pool.s.mem s'.mem ∧ x ≠ st.kernelPd ∧
      ∀ pd' ∈ l.pool.dirs, pd' ≠ pd →
        x ≠ pd' ∧ ∀ i pt, tableAt l.pool.s.mem pd' i = some pt → pt ≠ x := by
  cases hmaps with
  | low hlow hpmm hsame =>
      refine ⟨_, hsame, ?_, fun pd' hpd' _ => ⟨?_, ?_⟩⟩
      · have hapart := st.apart
        unfold identityPtCount at hlow
        omega
      · exact fun heq => h.dir_fresh hpd' (heq ▸ h.started.tables _ hlow)
      · exact fun i pt hpt heq => h.table_fresh hpd' hpt (heq ▸ h.started.tables _ hlow)
  | high pt hhigh horigin hsame =>
      refine ⟨pt, hsame, ?_⟩
      rcases horigin with ⟨hold, -⟩ | ⟨-, halloc, hpt⟩
      · refine ⟨fun heq => h.table_fresh hpd hold (heq ▸ h.started.directory),
          fun pd' hpd' hne => ⟨h.pool.table_ne_dir hpd hpd' hold, fun i pt' hpt' heq => ?_⟩⟩
        rw [heq] at hpt'
        exact hne (h.pool.table_unique hpd' hpd hpt' hold).1
      · have hfresh := (Pmm.pmmAllocFrame_some halloc hpt).1
        exact ⟨fun heq => hfresh (heq ▸ h.kernel.directory), fun pd' hpd' _ =>
          ⟨fun heq => hfresh (heq ▸ h.pool.dir_used hpd'),
            fun i pt' hpt' heq => hfresh (heq ▸ h.pool.table_used hpd' hpt')⟩⟩

/-- The other directories do not see it. -/
theorem maps_other (h : l.Inv st s) {virt : Nat} (hpd : pd ∈ l.pool.dirs)
    (hmaps : MapsPage st l.pool.s s' pd virt a) (hpd' : pd' ∈ l.pool.dirs) (hne : pd' ≠ pd) :
    (∀ i, tableAt s'.mem pd' i = tableAt l.pool.s.mem pd' i) ∧
      Stores s'.mem pd' (lastCall l.pool.calls pd') ∧
      ∀ i, i < 1024 → entry s'.mem pd' i = entry l.pool.s.mem pd' i := by
  obtain ⟨x, hsame, -, hapart⟩ := h.writes hpd hmaps
  have hout := notMem_pair hne (Ne.symm (hapart pd' hpd' hne).1)
  have hseen := h.pool.unseen hsame hpd' hout fun i pt hpt =>
    notMem_pair (h.pool.table_ne_dir hpd' hpd hpt) ((hapart pd' hpd' hne).2 i pt hpt)
  exact ⟨hseen.1, hseen.2, fun i hi => hsame.entry_eq (h.pool.aligned hpd') hi hout⟩

/-- A page below the window keeps every frame in its role. -/
theorem pool_mapLow (h : l.Inv st s) {virt flags : Nat} (hpd : pd ∈ l.pool.dirs)
    (ha : a ∈ l.pool.frames) (hvirt : virt < 2 ^ 32) (hlow : pdIdx virt < identityPtCount)
    (hflags : flags < 4096) (hpresent : hasFlag flags ptePresent = true)
    (hmap : pagingMapInto l.pool.s pd virt a flags = .ok s')
    (hmaps : MapsPage st l.pool.s s' pd virt a) :
    (⟨s', l.pool.dirs, l.pool.frames, ⟨pd, virt / 4096, a, flags⟩ :: l.pool.calls⟩ :
      Pool).Inv := by
  have hother := fun pd' (hpd' : pd' ∈ l.pool.dirs) hne => h.maps_other hpd hmaps hpd' hne
  cases hmaps with
  | high pt hhigh => exact absurd hlow (Nat.not_lt.mpr hhigh)
  | low _ hpmm hsame hentry htable hpage =>
      have htables : ∀ pd' ∈ l.pool.dirs, ∀ i,
          tableAt s'.mem pd' i = tableAt l.pool.s.mem pd' i := by
        intro pd' hpd'
        by_cases heq : pd' = pd
        · rw [heq]
          exact htable
        · exact (hother pd' hpd' heq).1
      refine ⟨h.pool.tenured.keep htables (by rw [hpmm]), ?_, ?_⟩
      · intro pd' hpd'
        rw [lastCall_cons]
        by_cases heq : pd = pd'
        · subst heq
          rw [if_pos rfl]
          exact (h.pool.stores pd hpd).mapLow (h.pdOk hpd) hvirt hlow
            (h.pool.mapping ha hflags hpresent) hmap hsame htable
        · rw [if_neg heq]
          exact (hother pd' hpd' (Ne.symm heq)).2.1
      · intro c hc
        rcases List.mem_cons.mp hc with rfl | hold
        · exact hpd
        · exact h.pool.known c hold

theorem map (h : l.Inv st s) {virt flags : Nat} (hpd : pd ∈ l.pool.dirs)
    (ha : a ∈ l.pool.frames) (hvirt : virt < 2 ^ 32) (hflags : flags < 4096)
    (hpresent : hasFlag flags ptePresent = true)
    (hmap : pagingMapInto l.pool.s pd virt a flags = .ok s') :
    Ledger.Inv st s
      ⟨⟨s', l.pool.dirs, l.pool.frames, ⟨pd, virt / 4096, a, flags⟩ :: l.pool.calls⟩,
        Function.update l.taken pd (insert (a / 4096)
          (l.taken pd ∪ Pmm.freeSet l.pool.s.pmm \ Pmm.freeSet s'.pmm))⟩ := by
  have hmapping := h.pool.mapping ha hflags hpresent
  have hbit : flags.testBit 0 = true := (hasFlag_present flags).symm.trans hpresent
  have hmaps := pagingMapInto_spec (h.pdOk hpd) hvirt hmapping.aligned hmapping.word hflags hbit hmap
  obtain ⟨hgrown, hstep⟩ := hmaps.pmm
  have hother := fun pd' (hpd' : pd' ∈ l.pool.dirs) hne => h.maps_other hpd hmaps hpd' hne
  have hpool : (⟨s', l.pool.dirs, l.pool.frames, ⟨pd, virt / 4096, a, flags⟩ :: l.pool.calls⟩ :
      Pool).Inv := by
    by_cases hlow : pdIdx virt < identityPtCount
    · exact h.pool_mapLow hpd ha hvirt hlow hflags hpresent hmap hmaps
    · rw [pdIdx_low, Nat.not_lt] at hlow
      exact h.pool.map hpd ha hvirt hlow hflags hpresent hmap
  refine ⟨h.started, hpool, h.grown.trans hgrown, h.inStep.trans hstep, h.fresh_of ?_, ?_, ?_,
    h.nonzero, ?_, ?_⟩
  · intro r b hr
    cases r with
    | directory pd' => exact Or.inl hr
    | page b' => exact Or.inl hr
    | table pd' i =>
        by_cases hpd' : pd' ∈ l.pool.dirs
        · have hafter : tableAt s'.mem pd' i = some b := by simpa [Pool.own, hpd'] using hr
          rw [Pool.Inv.own_table hpd']
          by_cases heq : pd' = pd
          · subst heq
            cases hmaps with
            | low _ _ _ _ htable => exact Or.inl ((htable i).symm.trans hafter)
            | high pt _ horigin _ _ htable =>
                rw [htable] at hafter
                by_cases hi : i = pdIdx virt
                · rw [if_pos hi] at hafter
                  cases hafter
                  rcases horigin with ⟨hold, -⟩ | ⟨-, halloc, hpt⟩
                  · exact Or.inl (hi ▸ hold)
                  · exact Or.inr (Pmm.pmmAllocFrame_some halloc hpt).1
                · rw [if_neg hi] at hafter
                  exact Or.inl hafter
          · exact Or.inl (((hother pd' hpd' heq).1 i).symm.trans hafter)
        · simp [Pool.own, hpd'] at hr
  · obtain ⟨x, hsame, hx, -⟩ := h.writes hpd hmaps
    apply h.kernel.keep hgrown hsame
    apply notMem_pair _ hx.symm
    exact fun heq => h.dir_fresh hpd (heq ▸ h.started.directory)
  · intro pd' hpd' i hi
    by_cases heq : pd' = pd
    · subst heq
      cases hmaps with
      | low _ _ _ hentry =>
          rw [(hentry i hi).1, (hentry i hi).2]
          exact h.low pd' hpd i hi
      | high _ _ _ _ hentry =>
          rw [hentry i hi]
          exact h.low pd' hpd i hi
    · rw [(hother pd' hpd' heq).2.2 i (hi.trans (by decide))]
      exact h.low pd' hpd' i hi
  · intro c hc
    rcases List.mem_cons.mp hc with rfl | hold
    · refine ⟨ha, ?_⟩
      show virt / 4096 < 2 ^ 20
      omega
    · exact h.calls c hold
  · intro pd' hpd' f
    show f ∈ Function.update l.taken pd _ pd' ↔ f = pd' / 4096 ∨
      (∃ i, tableAt s'.mem pd' i = some (f * 4096)) ∨
        ∃ c ∈ (⟨pd, virt / 4096, a, flags⟩ : MapCall) :: l.pool.calls,
          c.pd = pd' ∧ c.frame / 4096 = f
    simp only [List.mem_cons, exists_eq_or_imp]
    by_cases heq : pd' = pd
    · subst heq
      rw [Function.update_self, Finset.mem_insert, Finset.mem_union, h.taken pd' hpd f,
        hmaps.table_iff f, eq_comm (a := f) (b := a / 4096)]
      simp only [true_and]
      grind
    · rw [Function.update_of_ne heq, h.taken pd' hpd' f]
      simp only [(hother pd' hpd' heq).1, Ne.symm heq, false_and, false_or]

theorem step (h : l.Inv st s) {l' : Ledger} (hstep : Ledger.Step st l l') : l'.Inv st s := by
  cases hstep with
  | create hcreate hpd => exact h.create hcreate hpd
  | alloc halloc ha => exact h.alloc halloc ha
  | refused halloc => exact h.refused halloc
  | store hsame => exact h.store hsame
  | map hpd ha hvirt hflags hpresent hmap => exact h.map hpd ha hvirt hflags hpresent hmap

end Ledger.Inv

theorem Ledger.inv_of_run {st : Statics} {s : State} {l : Ledger} (h : KernelTables st s)
    (hrun : ReflTransGen (Ledger.Step st) (Ledger.start s) l) : l.Inv st s := by
  induction hrun with
  | refl => exact Ledger.Inv.start h
  | tail _ hstep ih => exact ih.step hstep

/-! ## The walk finds the ledger -/

/-- The calls on one directory. -/
def callsOn (l : Ledger) (pd : Nat) : List MapCall := l.pool.calls.filter fun c => c.pd = pd

theorem mem_callsOn {l : Ledger} {pd : Nat} {c : MapCall} :
    c ∈ callsOn l pd ↔ c ∈ l.pool.calls ∧ c.pd = pd := by
  rw [callsOn, List.mem_filter, decide_eq_true_eq]

theorem lastCall_eq_some {calls : List MapCall} {pd page a flags : Nat}
    (h : lastCall calls pd page = some (a, flags)) :
    ∃ c ∈ calls, c.pd = pd ∧ c.page = page ∧ c.frame = a := by
  unfold lastCall at h
  obtain ⟨c, hfind, hc⟩ := Option.map_eq_some_iff.mp h
  have hcond := List.find?_some hfind
  simp only [Bool.and_eq_true, decide_eq_true_eq] at hcond
  exact ⟨c, List.mem_of_find?_eq_some hfind, hcond.1, hcond.2, congrArg Prod.fst hc⟩

/-- With no page mapped twice, every call is the last one for its page. -/
theorem lastCall_of_nodup {calls : List MapCall} {c : MapCall}
    (hpages : ((calls.filter fun d => d.pd = c.pd).map MapCall.page).Nodup) (hc : c ∈ calls) :
    lastCall calls c.pd c.page = some (c.frame, c.flags) := by
  induction calls with
  | nil => cases hc
  | cons d calls ih =>
      rw [lastCall_cons]
      by_cases hpd : d.pd = c.pd
      · rw [List.filter_cons_of_pos (by simpa using hpd), List.map_cons, List.nodup_cons] at hpages
        rw [if_pos hpd]
        rcases List.mem_cons.mp hc with rfl | hold
        · rw [Function.update_self]
        · have hne : c.page ≠ d.page := by
            intro heq
            apply hpages.1
            rw [← heq]
            exact List.mem_map_of_mem (List.mem_filter.mpr ⟨hold, by simp⟩)
          rw [Function.update_of_ne hne]
          exact ih hpages.2 hold
      · rw [List.filter_cons_of_neg (by simpa using hpd)] at hpages
        rw [if_neg hpd]
        rcases List.mem_cons.mp hc with rfl | hold
        · exact absurd rfl hpd
        · exact ih hpages hold

/-- A directory whose slots refer to different frames is walked without meeting one
twice. -/
theorem pdFrames_nodup {m : Mem} {pd : Nat}
    (hpages : ∀ i j i' j' a, pageAt m pd i j = some a → pageAt m pd i' j' = some a →
      i = i' ∧ j = j')
    (htables : ∀ i i' a, tableAt m pd i = some a → tableAt m pd i' = some a → i = i')
    (hmixed : ∀ i i' j a, tableAt m pd i = some a → pageAt m pd i' j ≠ some a)
    (hpd : (∀ i, tableAt m pd i ≠ some pd) ∧ ∀ i j, pageAt m pd i j ≠ some pd) :
    (pdFrames m pd).Nodup := by
  -- a frame of entry `i`'s part of the walk is its table or one of its pages
  have hpart : ∀ i ∈ userEntries m pd, ∀ a,
      a ∈ tableFrames m (frameOf (entry m pd i)) ++ [frameOf (entry m pd i)] →
      tableAt m pd i = some a ∨ ∃ j, pageAt m pd i j = some a := by
    intro i hi a ha
    obtain ⟨pt, hpt⟩ := mem_userEntries.mp hi
    rw [(tableAt_eq_some.mp hpt).2.2.2] at ha
    rcases List.mem_append.mp ha with hpage | htable
    · obtain ⟨j, hj, hpresent, hframe⟩ := mem_tableFrames.mp hpage
      exact Or.inr ⟨j, pageAt_eq_some.mpr ⟨pt, hpt, hj, hpresent, hframe⟩⟩
    · rw [List.mem_singleton.mp htable]
      exact Or.inl hpt
  have hrange : (userEntries m pd).Nodup := List.nodup_range.filter _
  unfold pdFrames
  rw [List.nodup_append, List.nodup_flatMap]
  refine ⟨⟨fun i hi => ?_, ?_⟩, List.nodup_singleton pd, ?_⟩
  · obtain ⟨pt, hpt⟩ := mem_userEntries.mp hi
    simp only [(tableAt_eq_some.mp hpt).2.2.2]
    rw [List.nodup_append]
    refine ⟨?_, List.nodup_singleton pt, ?_⟩
    · refine List.Nodup.map_on (fun j hj j' hj' heq => ?_) (List.nodup_range.filter _)
      rw [List.mem_filter, List.mem_range] at hj hj'
      exact (hpages i j i j' _ (pageAt_eq_some.mpr ⟨pt, hpt, hj.1, hj.2, rfl⟩)
        (pageAt_eq_some.mpr ⟨pt, hpt, hj'.1, hj'.2, heq.symm⟩)).2
    · rintro a ha b hb rfl
      rw [List.mem_singleton.mp hb] at ha
      obtain ⟨j, hj, hpresent, hframe⟩ := mem_tableFrames.mp ha
      exact hmixed i i j pt hpt (pageAt_eq_some.mpr ⟨pt, hpt, hj, hpresent, hframe⟩)
  · refine hrange.imp_of_mem fun {i i'} hi hi' hne a ha ha' => ?_
    rcases hpart i hi a ha with htable | ⟨j, hpage⟩
    · rcases hpart i' hi' a ha' with htable' | ⟨j', hpage'⟩
      · exact hne (htables i i' a htable htable')
      · exact hmixed i i' j' a htable hpage'
    · rcases hpart i' hi' a ha' with htable' | ⟨j', hpage'⟩
      · exact hmixed i' i j a htable' hpage
      · exact hne (hpages i j i' j' a hpage hpage').1
  · rintro a ha b hb rfl
    rw [List.mem_singleton.mp hb] at ha
    obtain ⟨i, hi, ha⟩ := List.mem_flatMap.mp ha
    rcases hpart i hi pd ha with htable | ⟨j, hpage⟩
    · exact hpd.1 i htable
    · exact hpd.2 i j hpage

namespace Ledger.Inv

variable {st : Statics} {s : State} {l : Ledger} {pd i j a : Nat}

theorem page_call (h : l.Inv st s) (hpd : pd ∈ l.pool.dirs)
    (hpage : pageAt l.pool.s.mem pd i j = some a) :
    ∃ c ∈ callsOn l pd, c.page = pageOf i j ∧ c.frame = a := by
  obtain ⟨pt, htable, hj, -⟩ := pageAt_eq_some.mp hpage
  obtain ⟨hi, hlt, -⟩ := tableAt_eq_some.mp htable
  rw [(h.pool.stores pd hpd).pageAt_eq hi hlt hj] at hpage
  obtain ⟨⟨b, flags⟩, hlast, hb⟩ := Option.map_eq_some_iff.mp hpage
  obtain ⟨c, hc, hcpd, hcpage, hcframe⟩ := lastCall_eq_some hlast
  exact ⟨c, mem_callsOn.mpr ⟨hc, hcpd⟩, hcpage, hcframe.trans hb⟩

theorem page_mem_frames (h : l.Inv st s) (hpd : pd ∈ l.pool.dirs)
    (hpage : pageAt l.pool.s.mem pd i j = some a) : a ∈ l.pool.frames := by
  obtain ⟨c, hc, -, hframe⟩ := h.page_call hpd hpage
  rw [← hframe]
  exact (h.calls c (mem_callsOn.mp hc).1).1

/-- The pages of a directory that were mapped above the window, each once. -/
theorem page_iff (h : l.Inv st s) (hpd : pd ∈ l.pool.dirs)
    (hhigh : ∀ c ∈ callsOn l pd, identityMappedBytes / 4096 ≤ c.page)
    (hpages : ((callsOn l pd).map MapCall.page).Nodup) :
    (∃ i j, pageAt l.pool.s.mem pd i j = some a) ↔ ∃ c ∈ callsOn l pd, c.frame = a := by
  constructor
  · rintro ⟨i, j, hpage⟩
    obtain ⟨c, hc, -, hframe⟩ := h.page_call hpd hpage
    exact ⟨c, hc, hframe⟩
  · rintro ⟨c, hc, hframe⟩
    obtain ⟨hmem, hcpd⟩ := mem_callsOn.mp hc
    have hle := hhigh c hc
    have hlt := (h.calls c hmem).2
    have hsplit : pageOf (c.page / 1024) (c.page % 1024) = c.page := Nat.div_add_mod c.page 1024
    have hwindow : identityPtCount ≤ c.page / 1024 := by
      unfold identityMappedBytes identityPtCount ptEntries Pmm.pageSize at hle
      unfold identityPtCount
      omega
    refine ⟨c.page / 1024, c.page % 1024, ?_⟩
    rw [(h.pool.stores pd hpd).pageAt_eq hwindow (by unfold pdEntries; omega)
      (Nat.mod_lt _ (by decide)), hsplit]
    subst hcpd
    rw [lastCall_of_nodup hpages hmem, Option.map_some, hframe]

/-- `paging_free_pd` walks to the frames of the ledger. -/
theorem mem_pdFrames_iff (h : l.Inv st s) (hpd : pd ∈ l.pool.dirs)
    (hhigh : ∀ c ∈ callsOn l pd, identityMappedBytes / 4096 ≤ c.page)
    (hpages : ((callsOn l pd).map MapCall.page).Nodup) :
    a ∈ pdFrames l.pool.s.mem pd ↔ a % 4096 = 0 ∧ a / 4096 ∈ l.taken pd := by
  have hpdal := h.pool.aligned hpd
  have hframes : ∀ c ∈ callsOn l pd, c.frame % 4096 = 0 := fun c hc =>
    Pmm.usedFrames_aligned (h.pool.tenure.held (.page c.frame) c.frame
      (if_pos (h.calls c (mem_callsOn.mp hc).1).1))
  rw [mem_pdFrames, h.page_iff hpd hhigh hpages, h.taken pd hpd]
  constructor
  · rintro (rfl | ⟨i, hi⟩ | ⟨c, hc, rfl⟩)
    · exact ⟨hpdal, Or.inl rfl⟩
    · have hal := tableAt_aligned hi
      refine ⟨hal, Or.inr (Or.inl ⟨i, ?_⟩)⟩
      rw [Nat.div_mul_cancel (Nat.dvd_of_mod_eq_zero hal)]
      exact hi
    · obtain ⟨hmem, hcpd⟩ := mem_callsOn.mp hc
      exact ⟨hframes c hc, Or.inr (Or.inr ⟨c, hmem, hcpd, rfl⟩)⟩
  · rintro ⟨hal, hf | ⟨i, hi⟩ | ⟨c, hmem, hcpd, hf⟩⟩
    · left
      omega
    · rw [Nat.div_mul_cancel (Nat.dvd_of_mod_eq_zero hal)] at hi
      exact Or.inr (Or.inl ⟨i, hi⟩)
    · have hc := mem_callsOn.mpr ⟨hmem, hcpd⟩
      have hcal := hframes c hc
      refine Or.inr (Or.inr ⟨c, hc, ?_⟩)
      omega

/-- The role of a frame in the ledger: the directory, a table of it, or a page. -/
theorem taken_role (h : l.Inv st s) (hpd : pd ∈ l.pool.dirs) {f : Nat} (hf : f ∈ l.taken pd) :
    ∃ r, l.pool.own r = some (f * 4096) ∧ (r = .directory pd ∨ (∃ i, r = .table pd i) ∨
      (r = .page (f * 4096) ∧ ∃ c ∈ callsOn l pd, c.frame = f * 4096)) := by
  rcases (h.taken pd hpd f).mp hf with rfl | ⟨i, hi⟩ | ⟨c, hc, hcpd, rfl⟩
  · refine ⟨.directory pd, ?_, Or.inl rfl⟩
    rw [Nat.div_mul_cancel (Nat.dvd_of_mod_eq_zero (h.pool.aligned hpd))]
    exact if_pos hpd
  · exact ⟨.table pd i, (Pool.Inv.own_table hpd).trans hi, Or.inr (Or.inl ⟨i, rfl⟩)⟩
  · have hmem := (h.calls c hc).1
    have hal : c.frame % 4096 = 0 :=
      Pmm.usedFrames_aligned (h.pool.tenure.held (.page c.frame) c.frame (if_pos hmem))
    rw [Nat.div_mul_cancel (Nat.dvd_of_mod_eq_zero hal)]
    exact ⟨.page c.frame, if_pos hmem,
      Or.inr (Or.inr ⟨rfl, c, mem_callsOn.mpr ⟨hc, hcpd⟩, rfl⟩)⟩

/-- What is in the ledger is in use and was not at the start. -/
theorem taken_used (h : l.Inv st s) (hpd : pd ∈ l.pool.dirs) {f : Nat} (hf : f ∈ l.taken pd) :
    f * 4096 ∈ Pmm.usedFrames l.pool.s.pmm ∧ f * 4096 ∉ Pmm.usedFrames s.pmm := by
  obtain ⟨r, hr, -⟩ := h.taken_role hpd hf
  exact ⟨h.pool.tenure.held r _ hr, h.fresh r _ hr⟩

theorem taken_bit (h : l.Inv st s) (hpd : pd ∈ l.pool.dirs) {f : Nat} (hf : f ∈ l.taken pd) :
    f < Pmm.maxFrames ∧ Pmm.frameTest l.pool.s.pmm f = true ∧ Pmm.frameTest s.pmm f = false := by
  obtain ⟨⟨-, hlt, hused⟩, hfree⟩ := h.taken_used hpd hf
  rw [show f * 4096 / Pmm.pageSize = f from Nat.mul_div_cancel f (by decide)] at hlt hused
  refine ⟨hlt, hused, ?_⟩
  rw [← Bool.not_eq_true]
  exact fun hbit => hfree ((Pmm.mul_mem_usedFrames hlt).mpr hbit)

/-- Two directories share nothing but frames that were mapped into both. -/
theorem taken_shared (h : l.Inv st s) {pd' : Nat} (hpd : pd ∈ l.pool.dirs)
    (hpd' : pd' ∈ l.pool.dirs) (hne : pd' ≠ pd) {f : Nat} (hf : f ∈ l.taken pd)
    (hf' : f ∈ l.taken pd') :
    (∃ c ∈ callsOn l pd, c.frame = f * 4096) ∧ ∃ c ∈ callsOn l pd', c.frame = f * 4096 := by
  obtain ⟨r, hr, hkind⟩ := h.taken_role hpd hf
  obtain ⟨r', hr', hkind'⟩ := h.taken_role hpd' hf'
  have heq : r = r' := h.pool.tenure.unique r r' _ hr hr'
  subst heq
  rcases hkind with rfl | ⟨i, rfl⟩ | ⟨rfl, hcall⟩
  · rcases hkind' with hdir | ⟨i', htab⟩ | ⟨hpage, -⟩
    · exact absurd (Role.directory.inj hdir).symm hne
    · cases htab
    · cases hpage
  · rcases hkind' with hdir | ⟨i', htab⟩ | ⟨hpage, -⟩
    · cases hdir
    · exact absurd (Role.table.inj htab).1.symm hne
    · cases hpage
  · rcases hkind' with hdir | ⟨i', htab⟩ | ⟨-, hcall'⟩
    · cases hdir
    · cases htab
    · exact ⟨hcall, hcall'⟩

theorem once (h : l.Inv st s) (hpd : pd ∈ l.pool.dirs)
    (hframes : ((callsOn l pd).map MapCall.frame).Nodup) : (pdFrames l.pool.s.mem pd).Nodup := by
  apply pdFrames_nodup
  · intro i j i' j' a hpage hpage'
    obtain ⟨c, hc, hcpage, hcframe⟩ := h.page_call hpd hpage
    obtain ⟨c', hc', hcpage', hcframe'⟩ := h.page_call hpd hpage'
    have heq : c = c' := List.inj_on_of_nodup_map hframes hc hc' (hcframe.trans hcframe'.symm)
    have hj := (pageAt_eq_some.mp hpage).choose_spec.2.1
    have hj' := (pageAt_eq_some.mp hpage').choose_spec.2.1
    rw [heq, hcpage'] at hcpage
    obtain ⟨hi, hjj⟩ := (pageOf_inj hj' hj).mp hcpage
    exact ⟨hi.symm, hjj.symm⟩
  · exact fun i i' a htable htable' => (h.pool.table_unique hpd hpd htable htable').2
  · intro i i' j a htable hpage
    exact h.pool.table_notMem_frames hpd htable (h.page_mem_frames hpd hpage)
  · constructor
    · exact fun i htable => h.pool.table_ne_dir hpd hpd htable rfl
    · exact fun i j hpage => h.pool.dir_notMem_frames hpd (h.page_mem_frames hpd hpage)

/-- A frame allocated for a page and never mapped into the directory is not in its
ledger. -/
theorem spare (h : l.Inv st s) (hpd : pd ∈ l.pool.dirs) (ha : a ∈ l.pool.frames)
    (hcalls : ∀ c ∈ callsOn l pd, c.frame ≠ a) : a / 4096 ∉ l.taken pd := by
  have hal : a % 4096 = 0 := Pmm.usedFrames_aligned (h.pool.tenure.held (.page a) a (if_pos ha))
  intro hf
  obtain ⟨r, hr, hkind⟩ := h.taken_role hpd hf
  rw [Nat.div_mul_cancel (Nat.dvd_of_mod_eq_zero hal)] at hr hkind
  have heq : r = .page a := h.pool.tenure.unique r (.page a) a hr (if_pos ha)
  subst heq
  rcases hkind with hdir | ⟨i, htab⟩ | ⟨-, c, hc, hframe⟩
  · cases hdir
  · cases htab
  · exact hcalls c hc hframe

end Ledger.Inv

/-! ## `paging_free_pd` -/

/-- The directory `pd` of a ledger started in `s` is given back, to `s'`. -/
structure GivesBack (s : State) (l : Ledger) (pd : Nat) (s' : State) : Prop where
  held : ∀ f ∈ l.taken pd, Pmm.frameTest l.pool.s.pmm f = true
  bits : ∀ f, Pmm.frameTest s'.pmm f =
    (Pmm.frameTest l.pool.s.pmm f && decide (f ∉ l.taken pd))
  once : ((callsOn l pd).map MapCall.frame).Nodup → (pdFrames l.pool.s.mem pd).Nodup
  count : s'.pmm.freeFrames = l.pool.s.pmm.freeFrames + (l.taken pd).card
  mem : s'.mem = l.pool.s.mem
  old : ∀ a ∈ Pmm.usedFrames s.pmm, a / 4096 ∉ l.taken pd
  others : ∀ pd' ∈ l.pool.dirs, pd' ≠ pd → ∀ f ∈ l.taken pd', f ∈ l.taken pd →
    (∃ c ∈ callsOn l pd, c.frame = f * 4096) ∧ ∃ c ∈ callsOn l pd', c.frame = f * 4096
  spare : ∀ a ∈ l.pool.frames, (∀ c ∈ callsOn l pd, c.frame ≠ a) → a / 4096 ∉ l.taken pd

namespace Ledger.Inv

variable {st : Statics} {s : State} {l : Ledger} {pd : Nat}

theorem freeSet_after (h : l.Inv st s) (hpd : pd ∈ l.pool.dirs)
    (hhigh : ∀ c ∈ callsOn l pd, identityMappedBytes / 4096 ≤ c.page)
    (hpages : ((callsOn l pd).map MapCall.page).Nodup) :
    Pmm.freeSet (pagingFreePd l.pool.s pd).pmm = Pmm.freeSet l.pool.s.pmm ∪ l.taken pd := by
  have hused := usedFrames_pagingFreePd (s := l.pool.s) (h.nonzero pd hpd) (h.pool.aligned hpd)
  ext f
  rw [Finset.mem_union, Pmm.mem_freeSet, Pmm.mem_freeSet]
  by_cases hlt : f < Pmm.maxFrames
  · have hwalk : f * 4096 ∈ pdFrames l.pool.s.mem pd ↔ f ∈ l.taken pd := by
      rw [h.mem_pdFrames_iff hpd hhigh hpages, Nat.mul_mod_left, Nat.mul_div_cancel f (by decide)]
      simp
    have hbit : Pmm.frameTest (pagingFreePd l.pool.s pd).pmm f = true ↔
        Pmm.frameTest l.pool.s.pmm f = true ∧ f ∉ l.taken pd := by
      rw [← Pmm.mul_mem_usedFrames hlt, hused, Set.mem_sdiff, Pmm.mul_mem_usedFrames hlt,
        Set.mem_ofPred_eq]
      exact and_congr_right fun _ => not_congr hwalk
    rw [← Bool.not_eq_true, hbit, ← Bool.not_eq_true]
    simp only [hlt, true_and]
    rw [not_and, not_not]
    by_cases hb : Pmm.frameTest l.pool.s.pmm f = true
    · simp [hb]
    · simp [hb]
  · constructor
    · exact fun hc => absurd hc.1 hlt
    · rintro (hc | hf)
      · exact absurd hc.1 hlt
      · exact absurd (h.taken_bit hpd hf).1 hlt

theorem givesBack (h : l.Inv st s) (hword : s.pmm.freeFrames < 2 ^ 32) (hpd : pd ∈ l.pool.dirs)
    (hhigh : ∀ c ∈ callsOn l pd, identityMappedBytes / 4096 ≤ c.page)
    (hpages : ((callsOn l pd).map MapCall.page).Nodup) :
    GivesBack s l pd (pagingFreePd l.pool.s pd) := by
  have hfree := h.freeSet_after hpd hhigh hpages
  have hsub : Pmm.freeSet (pagingFreePd l.pool.s pd).pmm ⊆ Pmm.freeSet s.pmm := by
    rw [hfree]
    apply Finset.union_subset (Pmm.freeSet_subset_iff.mpr h.grown)
    intro f hf
    obtain ⟨hlt, -, hstart⟩ := h.taken_bit hpd hf
    exact Pmm.mem_freeSet.mpr ⟨hlt, hstart⟩
  have hafter : Pmm.InStep s.pmm (pagingFreePd l.pool.s pd).pmm := by
    rw [pagingFreePd_pmm (h.nonzero pd hpd)] at hsub ⊢
    exact h.inStep.foldl_free hword hsub
  have hdisjoint : Disjoint (Pmm.freeSet l.pool.s.pmm) (l.taken pd) := by
    rw [Finset.disjoint_right]
    intro f hf hmem
    rw [Pmm.mem_freeSet, (h.taken_bit hpd hf).2.1] at hmem
    cases hmem.2
  refine ⟨fun f hf => (h.taken_bit hpd hf).2.1, fun f => ?_, h.once hpd, ?_,
    pagingFreePd_mem _ _, fun a ha hf => ?_,
    fun pd' hpd' hne f hf' hf => h.taken_shared hpd hpd' hne hf hf',
    fun a ha hcalls => h.spare hpd ha hcalls⟩
  · by_cases hlt : f < Pmm.maxFrames
    · have hmem : f ∈ Pmm.freeSet (pagingFreePd l.pool.s pd).pmm ↔
          f ∈ Pmm.freeSet l.pool.s.pmm ∨ f ∈ l.taken pd := by
        rw [hfree, Finset.mem_union]
      rw [Pmm.mem_freeSet, Pmm.mem_freeSet] at hmem
      simp only [hlt, true_and] at hmem
      cases hb : Pmm.frameTest l.pool.s.pmm f with
      | false => simp [hmem, hb]
      | true =>
          rw [hb] at hmem
          by_cases hf : f ∈ l.taken pd
          · simp [hmem, hf]
          · simpa [hf] using hmem
    · have hout : f ∉ l.taken pd := fun hf => hlt (h.taken_bit hpd hf).1
      rw [hafter.above f (Nat.le_of_not_lt hlt), h.inStep.above f (Nat.le_of_not_lt hlt),
        decide_eq_true hout, Bool.and_true]
  · have hbefore := h.inStep.count
    have hcount := hafter.count
    rw [hfree, Finset.card_union_of_disjoint hdisjoint] at hcount
    omega
  · have hstart := (h.taken_bit hpd hf).2.2
    have hused : Pmm.frameTest s.pmm (a / 4096) = true := ha.2.2
    rw [hused] at hstart
    cases hstart

end Ledger.Inv

/-- The small machine with the first entries of the kernel's directory written. -/
def wiredMachine : State :=
  ⟨smallMachine.pmm, writeWords (fun _ => 0) 0x101000 (fun i => 0x102000 + 4096 * i + 3) 8⟩

/-- Its kernel tables are in use together with the frames below 8 MB. -/
theorem wiredMachine_kernelTables {pmm : Pmm.State}
    (hfull : ∀ w, w < 64 → pmm.bitmap w = 0xFFFFFFFF#32) :
    KernelTables smallStatics ⟨pmm, wiredMachine.mem⟩ := by
  have hused : ∀ f, f < 2048 → Pmm.frameTest pmm f = true := fun f hf =>
    Pmm.frameTest_of_full (hfull (f / 32) (by omega)) rfl
  have hpresent : ∀ i, i < identityPtCount →
      hasFlag (entry wiredMachine.mem smallStatics.kernelPd i) pdePresent = true ∧
      frameOf (entry wiredMachine.mem smallStatics.kernelPd i) =
        smallStatics.identityPts + 4096 * i := by decide +kernel
  refine ⟨⟨by decide, by decide, hused 0x101 (by decide)⟩, fun i hi => ?_,
    fun i hi => (hpresent i hi).1, fun i hi => (hpresent i hi).2⟩
  have hlt : i < 8 := hi
  have hpage : (0x102000 + 4096 * i) / 4096 = 0x102 + i := by omega
  refine ⟨?_, ?_, ?_⟩
  · show (0x102000 + 4096 * i) % 4096 = 0
    omega
  · show (0x102000 + 4096 * i) / 4096 < 32768
    omega
  · show Pmm.frameTest pmm ((0x102000 + 4096 * i) / 4096) = true
    rw [hpage]
    exact hused (0x102 + i) (by omega)

def sharedFirst : State × Nat := pagingCreateUserPd smallStatics wiredMachine

def sharedSecond : State × Nat := pagingCreateUserPd smallStatics sharedFirst.1

def sharedFrame : Pmm.State × Nat := Pmm.pmmAllocFrame sharedSecond.1.pmm

/-- Two directories and a frame that both of them have. -/
def sharedMaps : Outcome (State × State) := do
  let s₃ ← pagingMapInto ⟨sharedFrame.1, sharedSecond.1.mem⟩ 0x801000 0x500000 0x802000 7
  let s₄ ← pagingMapInto s₃ 0x800000 0x8048000 0x802000 7
  return (s₃, s₄)

end StakOS.Paging
