import Mathlib.Algebra.BigOperators.Group.Finset.Piecewise
import Mathlib.Order.Interval.Finset.Nat
import StakOS.Paging.Clone

/-!
# What `paging_clone_user_space` returns

A directory that is returned is a copy of the parent in frames of its own.  Without
one, everything is given back, but for one way to run out of frames in which the
machine stops.
-/

namespace StakOS.Paging

open StakOS.Lib.Memory StakOS.Lib.Loop
open Relation (ReflTransGen)

/-! ## The clone -/

/-- `child` in `s'` is a copy of `parent` in `s`, in frames that were free. -/
structure CloneOf (s s' : State) (parent child : Nat) : Prop where
  pages : ∀ va, va < 2 ^ 32 → identityMappedBytes ≤ va →
    SamePage s.mem s'.mem (walk s.mem parent va) (walk s'.mem child va) ∧
    userAccessible s'.mem child va = userAccessible s.mem parent va ∧
    userWritable s'.mem child va = userWritable s.mem parent va
  fresh : ∀ a ∈ pdFrames s'.mem child,
    a ∈ Pmm.usedFrames s'.pmm ∧ a ∉ Pmm.usedFrames s.pmm
  kept : ∀ x, frameOf x ∈ Pmm.usedFrames s.pmm → s'.mem x = s.mem x

theorem SamePage.any_eq {m m' : Mem} {e e' : Option (Nat × Nat)} (h : SamePage m m' e e')
    (p : Nat → Bool) : (e'.any fun x => p x.2) = e.any fun x => p x.2 := by
  cases e with
  | none =>
      cases e' with
      | none => rfl
      | some x => exact h.elim
  | some x =>
      cases e' with
      | none => exact h.elim
      | some x' => exact congrArg p h.1

/-- The frames of the child are itself, its tables and what it stores. -/
theorem Copying.mem_child {s₀ s : State} {parent child i j a : Nat} {f : Nat → Option (Nat × Nat)}
    (h : Copying s₀ parent child f i j s) (hij : pageOf i j ≤ pageOf pdEntries 0) :
    a ∈ pdFrames s.mem child ↔ a = child ∨ (∃ k, tableAt s.mem child k = some a) ∨
      ∃ n flags, f n = some (a, flags) := by
  rw [mem_pdFrames]
  refine or_congr_right (or_congr_right ⟨?_, ?_⟩)
  · rintro ⟨k, l, hpage⟩
    obtain ⟨pt, htable, hl, -⟩ := pageAt_eq_some.mp hpage
    obtain ⟨hk, hlt, -⟩ := tableAt_eq_some.mp htable
    rw [h.stores.pageAt_eq hk hlt hl] at hpage
    obtain ⟨⟨b, flags⟩, hf, rfl⟩ := Option.map_eq_some_iff.mp hpage
    exact ⟨_, flags, hf⟩
  · rintro ⟨n, flags, hn⟩
    obtain ⟨hlow, hhigh⟩ := h.range n _ hn
    have hsplit : pageOf (n / 1024) (n % 1024) = n := Nat.div_add_mod n 1024
    have hk : identityPtCount ≤ n / 1024 := by
      unfold pageOf at hlow
      omega
    have hlt : n / 1024 < pdEntries := by
      unfold pageOf at hij hhigh
      omega
    refine ⟨n / 1024, n % 1024, ?_⟩
    rw [h.stores.pageAt_eq hk hlt (Nat.mod_lt _ (by decide)), hsplit, hn, Option.map_some]

/-- They have been taken since the call. -/
theorem Copying.child_new {s₀ s : State} {parent child i j a : Nat} {f : Nat → Option (Nat × Nat)}
    (h : Copying s₀ parent child f i j s) (hij : pageOf i j ≤ pageOf pdEntries 0)
    (ha : a ∈ pdFrames s.mem child) : a ∈ Pmm.usedFrames s.pmm ∧ a ∉ Pmm.usedFrames s₀.pmm := by
  rcases (h.mem_child hij).mp ha with rfl | ⟨k, htable⟩ | ⟨n, flags, hn⟩
  · exact ⟨h.alone.used, h.childNew⟩
  · exact ⟨h.alone.tableUsed k a htable, h.tableNew k a htable⟩
  · have hpage := h.pages n a flags hn
    exact ⟨hpage.1, hpage.2.1⟩

theorem At.cloneOf {s₀ s : State} {parent child : Nat} (h : At s₀ parent child pdEntries 0 s)
    (hgrants : Grants s₀.mem parent) : CloneOf s₀ s parent child := by
  obtain ⟨f, h⟩ := h
  refine ⟨fun va hva hhigh => ?_, fun a ha => ?_, fun x hx => h.kept x (not_not.mpr hx)⟩
  · have hlow : pageOf identityPtCount 0 ≤ va / 4096 := by
      unfold identityMappedBytes identityPtCount ptEntries Pmm.pageSize at hhigh
      unfold pageOf identityPtCount
      omega
    have hpages : va / 4096 < pageOf pdEntries 0 := by
      unfold pageOf pdEntries
      omega
    have hsame : SamePage s₀.mem s.mem (walk s₀.mem parent va) (walk s.mem child va) := by
      rw [(h.stores.walk_eq hva hhigh).1, walk_page]
      exact h.copied (va / 4096) hlow hpages
    have hparent := hgrants.walk_eq hva hhigh
    have hchild := h.grants.walk_eq hva hhigh
    refine ⟨hsame, ?_, ?_⟩
    · rw [hchild.1, hparent.1]
      exact hsame.any_eq fun flags => hasFlag flags pteUser
    · rw [hchild.2, hparent.2]
      exact hsame.any_eq fun flags => hasFlag flags pteUser && hasFlag flags pteWritable
  · exact h.child_new (Nat.le_refl _) ha

/-! ### A directory with one page -/

/-- A run of free frames, all of them counted. -/
theorem le_budget {pmm : Pmm.State} {a n : Nat} (hcount : n ≤ pmm.freeFrames)
    (hbits : ∀ k, k < n → Pmm.frameTest pmm (a + k) = false) (hlt : a + n ≤ Pmm.maxFrames) :
    n ≤ Pmm.budget pmm := by
  have hsub : Finset.Ico a (a + n) ⊆ Pmm.freeSet pmm := by
    intro f hf
    rw [Finset.mem_Ico] at hf
    rw [show f = a + (f - a) by omega]
    exact Pmm.mem_freeSet.mpr ⟨by omega, hbits (f - a) (by omega)⟩
  have hcard := Finset.card_le_card hsub
  rw [Nat.card_Ico] at hcard
  exact le_min hcount (by omega)

/-- Three free frames are enough to build one. -/
theorem exists_onePage {st : Statics} {s : State} (virt flags : Nat) (hkernel : KernelTables st s)
    (hzero : 0 ∈ Pmm.usedFrames s.pmm) (hbudget : 3 ≤ Pmm.budget s.pmm) (hvirt : virt < 2 ^ 32)
    (hhigh : identityMappedBytes ≤ virt) (hflags : flags < 4096)
    (hpresent : hasFlag flags ptePresent = true) :
    ∃ t pd a, ReflTransGen (Site.Step st) ⟨s, [], []⟩ t ∧ pd ∈ t.dirs ∧
      Stores t.s.mem pd (Function.update (fun _ => none) (virt / 4096) (some (a, flags))) ∧
      Pmm.budget t.s.pmm + 3 = Pmm.budget s.pmm := by
  cases hcreate : pagingCreateUserPd st s with
  | mk s₁ pd =>
      have hpd : pd ≠ 0 := by
        rintro rfl
        have := (pagingCreateUserPd_none hcreate hzero).2
        omega
      obtain ⟨hfirst, -, -, hempty⟩ := pagingCreateUserPd_spec hcreate hpd
      obtain ⟨-, hused₁, -, hbudget₁⟩ := Pmm.pmmAllocFrame_some hfirst hpd
      have hzero₁ : 0 ∈ Pmm.usedFrames s₁.pmm := by
        rw [hused₁]
        exact Set.mem_insert_of_mem pd hzero
      cases halloc : Pmm.pmmAllocFrame s₁.pmm with
      | mk pmm a =>
          have ha : a ≠ 0 := by
            rintro rfl
            have := (Pmm.pmmAllocFrame_none halloc hzero₁).2
            omega
          obtain ⟨-, hused₂, haal, hbudget₂⟩ := Pmm.pmmAllocFrame_some halloc ha
          have halt := Pmm.pmmAllocFrame_lt halloc ha
          have hzero₂ : 0 ∈ Pmm.usedFrames pmm := by
            rw [hused₂]
            exact Set.mem_insert_of_mem a hzero₁
          have hrun := (ReflTransGen.single (Site.Step.create (t := ⟨s, [], []⟩) hcreate hpd)).tail
            (Site.Step.alloc (t := ⟨s₁, [pd], []⟩) halloc ha)
          have halone : Alone ⟨pmm, s₁.mem⟩ pd :=
            (Site.inv_of_run hkernel hrun).tenured.alone (List.mem_singleton.mpr rfl)
          cases hmap : pagingMapInto ⟨pmm, s₁.mem⟩ pd virt a flags with
          | error e =>
              obtain ⟨-, ⟨pmm', hnone⟩, -⟩ := pagingMapInto_error hmap
              have hleft : Pmm.budget pmm = 0 := (Pmm.pmmAllocFrame_none hnone hzero₂).2
              omega
          | ok s₂ =>
              have hnothing : Stores (State.mem ⟨pmm, s₁.mem⟩) pd fun _ => none :=
                stores_empty hempty
              obtain ⟨pt, hadds, hstores⟩ := hnothing.mapInto halone hvirt hhigh
                ⟨haal, halt, hflags, hpresent⟩ hmap
              have hstep : Site.Step st ⟨⟨pmm, s₁.mem⟩, [pd], [a]⟩ ⟨s₂, [pd], [a]⟩ :=
                .map (by simp) (by simp) hvirt hflags hmap
              refine ⟨_, pd, a, hrun.tail hstep, by simp, hstores, ?_⟩
              rcases hadds.origin with ⟨hold, -⟩ | ⟨-, hnew, hpt⟩
              · rw [hempty] at hold
                cases hold
              · have hbudget₃ : Pmm.budget pmm = Pmm.budget s₂.pmm + 1 :=
                  (Pmm.pmmAllocFrame_some hnew hpt).2.2.2
                show Pmm.budget s₂.pmm + 3 = Pmm.budget s.pmm
                omega

theorem pagesIn_onePage {m : Mem} {pd n a flags i : Nat}
    (h : Stores m pd (Function.update (fun _ => none) n (some (a, flags))))
    (hn : pageOf identityPtCount 0 ≤ n) (hi : i < pdEntries) :
    pagesIn m pd i ptEntries = if i = n / 1024 then 1 else 0 := by
  by_cases hlow : i < identityPtCount
  · rw [pagesIn_low hlow, if_neg]
    unfold pageOf at hn
    omega
  · have hpage : ∀ k, k < 1024 → ((pageAt m pd i k).isSome = true ↔ pageOf i k = n) := by
      intro k hk
      rw [h.pageAt_eq (Nat.le_of_not_lt hlow) hi hk]
      by_cases heq : pageOf i k = n
      · simp [heq]
      · simp [heq]
    unfold pagesIn
    by_cases heq : i = n / 1024
    · rw [if_pos heq, Nat.count_eq_card_filter_range, Finset.card_eq_one]
      refine ⟨n % 1024, ?_⟩
      ext k
      rw [Finset.mem_filter, Finset.mem_range, Finset.mem_singleton]
      constructor
      · rintro ⟨hk, hsome⟩
        have hpk := (hpage k hk).mp hsome
        unfold pageOf at hpk
        unfold ptEntries at hk
        omega
      · rintro rfl
        have hk : n % 1024 < 1024 := Nat.mod_lt _ (by decide)
        refine ⟨hk, (hpage _ hk).mpr ?_⟩
        unfold pageOf
        omega
    · rw [if_neg heq, Nat.count_iff_forall_not]
      intro k hk hsome
      have hpk := (hpage k hk).mp hsome
      unfold pageOf at hpk
      unfold ptEntries at hk
      omega

/-- It takes a page and a table. -/
theorem framesBefore_onePage {m : Mem} {pd n a flags k : Nat}
    (h : Stores m pd (Function.update (fun _ => none) n (some (a, flags))))
    (hn : pageOf identityPtCount 0 ≤ n) (hk : k ≤ pdEntries) :
    framesBefore m pd k = if n / 1024 < k then 2 else 0 := by
  have hterm : ∀ i ∈ Finset.range k,
      framesFor (pagesIn m pd i ptEntries) = if i = n / 1024 then 2 else 0 := by
    intro i hi
    rw [pagesIn_onePage h hn ((Finset.mem_range.mp hi).trans_le hk)]
    split <;> rfl
  unfold framesBefore
  rw [Finset.sum_congr rfl hterm, Finset.sum_ite_eq']
  simp only [Finset.mem_range]

theorem wiredMachine_facts : KernelTables smallStatics wiredMachine ∧
    0 ∈ Pmm.usedFrames wiredMachine.pmm ∧ 6 ≤ Pmm.budget wiredMachine.pmm :=
  ⟨wiredMachine_kernelTables fun _ hw => if_pos hw, ⟨by decide, by decide, by decide +kernel⟩,
    le_budget (a := 2048) (by decide) (by decide +kernel) (by decide)⟩

/-! ## Running out of frames -/

/-- The free frames end between the first page of a window and its table: they are as
many as the directory, everything for the windows before, and that page. -/
def ShortOfTable (m : Mem) (pd free : Nat) : Prop :=
  ∃ i, i < pdEntries ∧ 0 < pagesIn m pd i ptEntries ∧ free = 2 + framesBefore m pd i

/-- The call returns a complete clone, or 0 with the frame allocator as it was. -/
def ReportsCleanly (st : Statics) (s : State) (parent : Nat) : Prop :=
  ∃ s' child, pagingCloneUserSpace st s parent = .ok (s', child) ∧
    (child ≠ 0 → CloneOf s s' parent child) ∧ (child = 0 → s'.pmm = s.pmm)

/-- The child that is freed is everything that was taken. -/
theorem Copying.freed {s₀ s : State} {parent child i j : Nat} {f : Nat → Option (Nat × Nat)}
    (h : Copying s₀ parent child f i j s) (hij : pageOf i j ≤ pageOf pdEntries 0)
    (hchild : child ≠ 0) (hword : s₀.pmm.freeFrames < 2 ^ 32) :
    (pagingFreePd s child).pmm = s₀.pmm := by
  have hused : Pmm.usedFrames (pagingFreePd s child).pmm = Pmm.usedFrames s₀.pmm := by
    rw [usedFrames_pagingFreePd hchild (Pmm.usedFrames_aligned h.alone.used)]
    ext a
    rw [Set.mem_sdiff, Set.mem_ofPred_eq]
    constructor
    · rintro ⟨ha, hout⟩
      rcases h.taken a ha with hold | hnew
      · exact hold
      · exact absurd ((h.mem_child hij).mpr hnew) hout
    · intro ha
      exact ⟨h.grown ha, fun hin => (h.child_new hij hin).2 ha⟩
  apply Pmm.InStep.eq _ hused
  rw [pagingFreePd_pmm hchild] at hused ⊢
  apply h.inStep.foldl_free hword
  rw [Pmm.freeSet_eq_iff.mpr hused]

/-- A page never ends the free frames where a table would. -/
theorem not_shortOfTable {m : Mem} {pd i j : Nat} (hpage : (pageAt m pd i j).isSome = true) :
    ¬ShortOfTable m pd (framesAt m pd i j) := by
  rintro ⟨k, -, hpos, hframes⟩
  have hfor := framesFor_lt (pagesIn_lt hpage)
  have hsucc := framesBefore_succ m pd i
  unfold framesAt at hframes
  rcases Nat.lt_trichotomy i k with hlt | rfl | hlt
  · have hmono := framesBefore_mono m pd (show i + 1 ≤ k from hlt)
    omega
  · unfold framesFor at hframes
    split at hframes <;> omega
  · have hmono := framesBefore_mono m pd (show k + 1 ≤ i from hlt)
    have htwo := two_le_framesFor hpos
    rw [framesBefore_succ] at hmono
    omega

/-- Neither does a complete clone. -/
theorem ShortOfTable.lt_total {m : Mem} {pd free : Nat} (h : ShortOfTable m pd free) :
    0 < free ∧ free < 1 + framesBefore m pd pdEntries := by
  obtain ⟨k, hk, hpos, rfl⟩ := h
  have hmono := framesBefore_mono m pd (show k + 1 ≤ pdEntries from hk)
  have htwo := two_le_framesFor hpos
  rw [framesBefore_succ] at hmono
  omega

section Shortage

variable {s₀ : State} {parent : Nat} (st : Statics)
  (hheld : ∀ a ∈ pdFrames s₀.mem parent, a ∈ Pmm.usedFrames s₀.pmm)
  (hzero : 0 ∈ Pmm.usedFrames s₀.pmm)

include hheld hzero

/-- Without a frame for a table the machine stops. -/
theorem clone_stops (hshort : ShortOfTable s₀.mem parent (Pmm.budget s₀.pmm)) :
    pagingCloneUserSpace st s₀ parent =
      .error (.kpanic "paging_map_into: out of physical memory") := by
  obtain ⟨hpos, htotal⟩ := hshort.lt_total
  generalize hout : pagingCloneUserSpace st s₀ parent = out
  have hends := cloneEnds st hheld
  rw [hout] at hends
  cases hends with
  | noDirectory hcreate =>
      have hnone := (pagingCreateUserPd_none hcreate hzero).2
      omega
  | complete _ hs =>
      obtain ⟨f, hs⟩ := hs
      have hframes := hs.frames
      unfold framesAt at hframes
      omega
  | freed _ hs =>
      obtain ⟨i, j, -, hpage, hframes⟩ := hs.frames hzero
      rw [hframes] at hshort
      exact absurd hshort (not_shortOfTable hpage)
  | stopped hs =>
      cases hs with
      | halted => rfl

/-- In every other case it is reported. -/
theorem clone_reports (hword : s₀.pmm.freeFrames < 2 ^ 32) (hgrants : Grants s₀.mem parent)
    (henough : ¬ShortOfTable s₀.mem parent (Pmm.budget s₀.pmm)) :
    ReportsCleanly st s₀ parent := by
  generalize hout : pagingCloneUserSpace st s₀ parent = out
  have hends := cloneEnds st hheld
  rw [hout] at hends
  cases hends with
  | noDirectory hcreate =>
      obtain ⟨hsame, -⟩ := pagingCreateUserPd_none hcreate hzero
      exact ⟨_, 0, hout, fun hne => absurd rfl hne, fun _ => by rw [hsame]⟩
  | complete hchild hs =>
      exact ⟨_, _, hout, fun _ => hs.cloneOf hgrants, fun hzero => absurd hzero hchild⟩
  | freed hchild hs =>
      refine ⟨_, 0, hout, fun hne => absurd rfl hne, fun _ => ?_⟩
      cases hs with
      | @refused f i j s pmm hs hlt hpage halloc =>
          obtain ⟨hpmm, -⟩ := Pmm.pmmAllocFrame_none halloc (hs.grown hzero)
          obtain ⟨a, ha⟩ := Option.isSome_iff_exists.mp hpage
          obtain ⟨pt, -, hj, -⟩ := pageAt_eq_some.mp ha
          have hij : pageOf i j ≤ pageOf pdEntries 0 := by
            unfold ptEntries at hj
            unfold pageOf
            omega
          rw [hpmm]
          exact hs.freed hij hchild hword
  | stopped hs =>
      obtain ⟨i, j, hlt, hpage, -, hframes⟩ := hs.frames hzero
      exact absurd ⟨i, hlt, Nat.zero_lt_of_lt (pagesIn_lt hpage), hframes⟩ henough

end Shortage

/-- A machine with five free frames. -/
def tightMachine : State :=
  ⟨⟨fun i => if i = 64 then 0xFFFFFFE0#32 else 0xFFFFFFFF#32, 5, 5⟩, wiredMachine.mem⟩

theorem tightMachine_facts : KernelTables smallStatics tightMachine ∧
    0 ∈ Pmm.usedFrames tightMachine.pmm ∧ Pmm.budget tightMachine.pmm = 5 := by
  have hbudget : 5 ≤ Pmm.budget tightMachine.pmm :=
    le_budget (a := 2048) (by decide) (by decide +kernel) (by decide)
  refine ⟨wiredMachine_kernelTables fun _ hw => if_neg (Nat.ne_of_lt hw),
    ⟨by decide, by decide, by decide +kernel⟩, Nat.le_antisymm (Nat.min_le_left _ _) hbudget⟩

end StakOS.Paging
