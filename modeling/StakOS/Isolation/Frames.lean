import StakOS.Lib.Ownership
import StakOS.Paging.Mapping
import StakOS.Scheduler.Create

/-!
# The frames behind a process

Which frames a process holds, in which slot, and how creating, loading and
freeing a process move frames in and out of its slots.
-/

namespace StakOS.Process

open StakOS.Lib.Memory StakOS.Lib.Loop StakOS.Lib.Ownership StakOS.Paging

/-- The places in which a process holds a frame: its page directory, the two frames
of its kernel stack, its page tables and their pages. -/
inductive Slot where
  | pd
  | lo
  | hi
  | table (i : Nat)
  | page (i j : Nat)
deriving DecidableEq

/-- The frame in a slot. -/
def slots (m : Mem) (f : Frames) : Slot → Option Nat
  | .pd => some f.pd
  | .lo => some f.lo
  | .hi => some f.hi
  | .table i => tableAt m f.pd i
  | .page i j => pageAt m f.pd i j

/-- All frames a process holds. -/
def heldFrames (m : Mem) (f : Frames) : Set Nat := { a | ∃ sl, slots m f sl = some a }

theorem mem_heldFrames {m : Mem} {f : Frames} {a : Nat} :
    a ∈ heldFrames m f ↔ a = f.lo ∨ a = f.hi ∨ a ∈ pdFrames m f.pd := by
  rw [mem_pdFrames]
  constructor
  · rintro ⟨sl, hsl⟩
    cases sl with
    | pd => exact Or.inr (Or.inr (Or.inl (Option.some.inj hsl).symm))
    | lo => exact Or.inl (Option.some.inj hsl).symm
    | hi => exact Or.inr (Or.inl (Option.some.inj hsl).symm)
    | table i => exact Or.inr (Or.inr (Or.inr (Or.inl ⟨i, hsl⟩)))
    | page i j => exact Or.inr (Or.inr (Or.inr (Or.inr ⟨i, j, hsl⟩)))
  · rintro (rfl | rfl | rfl | ⟨i, hi⟩ | ⟨i, j, hij⟩)
    · exact ⟨.lo, rfl⟩
    · exact ⟨.hi, rfl⟩
    · exact ⟨.pd, rfl⟩
    · exact ⟨.table i, hi⟩
    · exact ⟨.page i j, hij⟩

/-- The slots depend on the frames of the directory and of its tables only. -/
theorem slots_congr {m m' : Mem} {fs : Set Nat} {f : Frames} (h : SameOff fs m m')
    (hpd : f.pd % 4096 = 0) (hout : f.pd ∉ fs)
    (htables : ∀ i pt, tableAt m f.pd i = some pt → pt ∉ fs) (sl : Slot) :
    slots m' f sl = slots m f sl := by
  cases sl with
  | pd => rfl
  | lo => rfl
  | hi => rfl
  | table i => exact tableAt_congr h hpd hout i
  | page i j => exact pageAt_congr h hpd hout (htables i) j

/-- A page mapped above the identity window takes one slot, and its table another. -/
theorem slots_highPage {ms ms' : Paging.State} {f : Frames} {virt a pt : Nat}
    (h : HighPage ms ms' f.pd virt a pt) :
    slots ms'.mem f = Function.update (Function.update (slots ms.mem f)
      (.table (pdIdx virt)) (some pt)) (.page (pdIdx virt) (ptIdx virt)) (some a) := by
  funext sl
  cases sl with
  | pd => rfl
  | lo => rfl
  | hi => rfl
  | table i =>
      rw [Function.update_of_ne (by simp), Function.update_apply]
      simpa [slots] using h.table i
  | page i j =>
      rw [Function.update_apply, Function.update_of_ne (by simp)]
      simpa [slots] using h.page i j

/-! ## Freeing -/

theorem releaseFrames_mem (ms : Paging.State) (f : Frames) :
    (releaseFrames ms f).mem = ms.mem := pagingFreePd_mem _ _

/-- Freeing a process takes exactly the frames it holds out of use. -/
theorem usedFrames_releaseFrames {ms : Paging.State} {f : Frames} (hpd : f.pd ≠ 0)
    (hpdal : f.pd % 4096 = 0) (hlo : f.lo % 4096 = 0) (hhi : f.hi % 4096 = 0) :
    Pmm.usedFrames (releaseFrames ms f).pmm = Pmm.usedFrames ms.pmm \ heldFrames ms.mem f := by
  unfold releaseFrames
  rw [usedFrames_pagingFreePd hpd hpdal, Pmm.usedFrames_pmmFreeFrame _ hhi,
    Pmm.usedFrames_pmmFreeFrame _ hlo]
  ext a
  simp only [Set.mem_sdiff, Set.mem_singleton_iff, Set.mem_ofPred_eq, mem_heldFrames, not_or,
    and_assoc]

/-! ## Creating -/

theorem pushWords_sameOff (img : Image) (start : Nat) (m : Mem) {hi : Nat} (hal : hi % 4096 = 0) :
    SameOff {hi} m (pushWords m (hi + Pmm.pageSize) (initialStack img start)) := by
  intro x hx
  have hne : frameOf x ≠ hi := fun h => hx h
  have hlen : (initialStack img start).length = 10 := rfl
  unfold frameOf at hne
  rw [pushWords_eq_pushed]
  apply pushed_of_disjoint
  · rw [hlen]
    unfold Pmm.pageSize
    omega
  · rw [hlen]
    unfold Pmm.pageSize
    omega

section Stack

variable {st : Statics} {ms ms₁ : Paging.State} {pmm₁ pmm₂ : Pmm.State} {f : Frames}

/-- The three frames of a new process are new and different. -/
structure NewFrames (used : Set Nat) (f : Frames) : Prop where
  pd : f.pd ∉ used
  lo : f.lo ∉ insert f.pd used
  hi : f.hi ∉ insert f.lo (insert f.pd used)

theorem newFrames (hpd : pagingCreateUserPd st ms = (ms₁, f.pd)) (hpd0 : f.pd ≠ 0)
    (hlo : Pmm.pmmAllocFrame ms₁.pmm = (pmm₁, f.lo))
    (hhi : Pmm.pmmAllocFrame pmm₁ = (pmm₂, f.hi)) (hlo0 : f.lo ≠ 0) (hhi0 : f.hi ≠ 0) :
    NewFrames (Pmm.usedFrames ms.pmm) f ∧
      Pmm.usedFrames pmm₂ = insert f.hi (insert f.lo (insert f.pd (Pmm.usedFrames ms.pmm))) ∧
      Pmm.budget ms.pmm = Pmm.budget pmm₂ + 3 := by
  obtain ⟨halloc, -⟩ := pagingCreateUserPd_spec hpd hpd0
  obtain ⟨hfresh₁, hused₁, -, hbudget₁⟩ := Pmm.pmmAllocFrame_some halloc hpd0
  obtain ⟨hfresh₂, hused₂, -, hbudget₂⟩ := Pmm.pmmAllocFrame_some hlo hlo0
  obtain ⟨hfresh₃, hused₃, -, hbudget₃⟩ := Pmm.pmmAllocFrame_some hhi hhi0
  rw [hused₁] at hfresh₂ hused₂
  rw [hused₂] at hfresh₃ hused₃
  exact ⟨⟨hfresh₁, hfresh₂, hfresh₃⟩, hused₃, by omega⟩

end Stack

/-- There is room for one more process: a control block, a slot in the table and
three frames. -/
def roomForProcess (k : Kernel) : Bool :=
  heapRoom k && slotFree k && decide (3 ≤ Pmm.budget k.ms.pmm)

/-- A new process: its three frames were free and its directory is empty. -/
structure BuiltOk (img : Image) (k : Kernel) (f : Frames) (ms : Paging.State) : Prop where
  room : roomForProcess k = true
  new : NewFrames (Pmm.usedFrames k.ms.pmm) f
  used : Pmm.usedFrames ms.pmm =
    insert f.hi (insert f.lo (insert f.pd (Pmm.usedFrames k.ms.pmm)))
  budget : Pmm.budget k.ms.pmm = Pmm.budget ms.pmm + 3
  same : SameOff {f.pd, f.hi} k.ms.mem ms.mem
  low : ∀ i, i < identityPtCount → entry ms.mem f.pd i = entry k.ms.mem img.kernelPd i
  empty : ∀ i, tableAt ms.mem f.pd i = none

theorem Built.ok {img : Image} {start : Nat} {k : Kernel} {f : Frames} {ms : Paging.State}
    (h : Built img start k (some f) ms) : BuiltOk img k f ms := by
  cases h with
  | made hheap hslot hpd hpd0 hlo hhi hlo0 hhi0 =>
      obtain ⟨hnew, hused, hbudget⟩ := newFrames hpd hpd0 hlo hhi hlo0 hhi0
      obtain ⟨halloc, hsame, hlow, hempty⟩ := pagingCreateUserPd_spec hpd hpd0
      have hpdal : f.pd % 4096 = 0 := (Pmm.pmmAllocFrame_some halloc hpd0).2.2.1
      have hhial : f.hi % 4096 = 0 := (Pmm.pmmAllocFrame_some hhi hhi0).2.2.1
      have hpush := pushWords_sameOff img start (Prod.fst (pagingCreateUserPd img.toStatics k.ms)).mem
        hhial
      rw [hpd] at hpush
      have hne : f.pd ≠ f.hi := by
        intro heq
        apply hnew.hi
        rw [← heq]
        simp
      have hout : f.pd ∉ ({f.hi} : Set Nat) := fun hmem => hne (Set.mem_singleton_iff.mp hmem)
      refine ⟨?_, hnew, hused, hbudget, ?_, fun i hi => ?_, fun i => ?_⟩
      · unfold roomForProcess
        rw [hheap, hslot, Bool.true_and, Bool.true_and, decide_eq_true_eq, hbudget]
        omega
      · exact (hsame.mono (by simp)).trans (hpush.mono (by simp))
      · rw [← hlow i hi]
        exact hpush.entry_eq hpdal (hi.trans (by decide)) hout
      · rw [← hempty i]
        exact tableAt_congr hpush hpdal hout i

/-- The frames of a directory that refers to nothing. -/
theorem heldFrames_empty {m : Mem} {f : Frames} (h : ∀ i, tableAt m f.pd i = none) :
    heldFrames m f = {f.pd, f.lo, f.hi} := by
  ext a
  rw [mem_heldFrames, mem_pdFrames]
  have htable : ¬∃ i, tableAt m f.pd i = some a := by
    rintro ⟨i, hi⟩
    rw [h i] at hi
    cases hi
  have hpage : ¬∃ i j, pageAt m f.pd i j = some a := by
    rintro ⟨i, j, hij⟩
    rw [pageAt_of_none j (h i)] at hij
    cases hij
  simp only [htable, hpage, or_false, Set.mem_insert_iff, Set.mem_singleton_iff]
  tauto

theorem slots_empty {m : Mem} {f : Frames} (h : ∀ i, tableAt m f.pd i = none) {sl : Slot} {a : Nat}
    (hsl : slots m f sl = some a) :
    (sl = .pd ∧ a = f.pd) ∨ (sl = .lo ∧ a = f.lo) ∨ (sl = .hi ∧ a = f.hi) := by
  cases sl with
  | pd => exact Or.inl ⟨rfl, (Option.some.inj hsl).symm⟩
  | lo => exact Or.inr (Or.inl ⟨rfl, (Option.some.inj hsl).symm⟩)
  | hi => exact Or.inr (Or.inr ⟨rfl, (Option.some.inj hsl).symm⟩)
  | table i =>
      have hnone : tableAt m f.pd i = some a := hsl
      rw [h i] at hnone
      cases hnone
  | page i j =>
      have hnone : pageAt m f.pd i j = some a := hsl
      rw [pageAt_of_none j (h i)] at hnone
      cases hnone

/-- In a new process different slots hold different frames. -/
theorem NewFrames.slots_inj {used : Set Nat} {m : Mem} {f : Frames} (hf : NewFrames used f)
    (h : ∀ i, tableAt m f.pd i = none) {sl sl' : Slot} {a : Nat} (hsl : slots m f sl = some a)
    (hsl' : slots m f sl' = some a) : sl = sl' := by
  have hlp : f.lo ≠ f.pd := fun heq => hf.lo (Or.inl heq)
  have hhl : f.hi ≠ f.lo := fun heq => hf.hi (Or.inl heq)
  have hhp : f.hi ≠ f.pd := fun heq => hf.hi (Or.inr (Or.inl heq))
  rcases slots_empty h hsl with ⟨rfl, rfl⟩ | ⟨rfl, rfl⟩ | ⟨rfl, rfl⟩
  · rcases slots_empty h hsl' with ⟨rfl, -⟩ | ⟨-, heq⟩ | ⟨-, heq⟩
    · rfl
    · exact absurd heq.symm hlp
    · exact absurd heq.symm hhp
  · rcases slots_empty h hsl' with ⟨-, heq⟩ | ⟨rfl, -⟩ | ⟨-, heq⟩
    · exact absurd heq hlp
    · rfl
    · exact absurd heq.symm hhl
  · rcases slots_empty h hsl' with ⟨-, heq⟩ | ⟨-, heq⟩ | ⟨rfl, -⟩
    · exact absurd heq hhp
    · exact absurd heq hhl
    · rfl

/-- Taking back what a new process got restores the frames in use. -/
theorem NewFrames.diff {used : Set Nat} {f : Frames} (h : NewFrames used f) :
    insert f.hi (insert f.lo (insert f.pd used)) \ {f.pd, f.lo, f.hi} = used := by
  have hlo : f.lo ∉ used := fun hmem => h.lo (Set.mem_insert_of_mem _ hmem)
  have hhi : f.hi ∉ used := fun hmem =>
    h.hi (Set.mem_insert_of_mem _ (Set.mem_insert_of_mem _ hmem))
  ext a
  simp only [Set.mem_sdiff, Set.mem_insert_iff, Set.mem_singleton_iff, not_or]
  constructor
  · rintro ⟨rfl | rfl | rfl | ha, hpd, hl, hh⟩
    · exact absurd rfl hh
    · exact absurd rfl hl
    · exact absurd rfl hpd
    · exact ha
  · intro ha
    exact ⟨Or.inr (Or.inr (Or.inr ha)), fun heq => h.pd (heq ▸ ha), fun heq => hlo (heq ▸ ha),
      fun heq => hhi (heq ▸ ha)⟩

section NoStack

variable {st : Statics} {ms ms₁ : Paging.State} {pmm₁ pmm₂ : Pmm.State} {f : Frames}

/-- Without a kernel stack everything that was taken is given back. -/
theorem noStack_used (hzero : 0 ∈ Pmm.usedFrames ms.pmm)
    (hpd : pagingCreateUserPd st ms = (ms₁, f.pd)) (hpd0 : f.pd ≠ 0)
    (hlo : Pmm.pmmAllocFrame ms₁.pmm = (pmm₁, f.lo))
    (hhi : Pmm.pmmAllocFrame pmm₁ = (pmm₂, f.hi)) (hfail : f.lo = 0 ∨ f.hi = 0) :
    Pmm.usedFrames (pagingFreePd ⟨freeIf (freeIf pmm₂ f.lo) f.hi, ms₁.mem⟩ f.pd).pmm =
        Pmm.usedFrames ms.pmm ∧
      Pmm.budget ms.pmm < 3 := by
  obtain ⟨halloc, -, -, hempty⟩ := pagingCreateUserPd_spec hpd hpd0
  obtain ⟨hfresh₁, hused₁, hpdal, hbudget₁⟩ := Pmm.pmmAllocFrame_some halloc hpd0
  have hpdframes : { a | a ∈ pdFrames ms₁.mem f.pd } = {f.pd} := by
    ext a
    rw [Set.mem_ofPred_eq, mem_pdFrames, Set.mem_singleton_iff]
    constructor
    · rintro (rfl | ⟨i, hi⟩ | ⟨i, j, hij⟩)
      · rfl
      · rw [hempty i] at hi
        cases hi
      · rw [pageAt_of_none j (hempty i)] at hij
        cases hij
    · exact Or.inl
  have hzero₁ : 0 ∈ Pmm.usedFrames ms₁.pmm := by
    rw [hused₁]
    exact Set.mem_insert_of_mem _ hzero
  have hback : insert f.pd (Pmm.usedFrames ms.pmm) \ {f.pd} = Pmm.usedFrames ms.pmm :=
    Set.insert_sdiff_self_of_notMem hfresh₁
  rw [usedFrames_pagingFreePd hpd0 hpdal, hpdframes]
  by_cases hlo0 : f.lo = 0
  · -- the second allocation fails like the first
    rw [hlo0] at hlo
    obtain ⟨hpmm₁, hnone⟩ := Pmm.pmmAllocFrame_none hlo hzero₁
    have hhi0 : f.hi = 0 := by
      rw [hpmm₁, hlo] at hhi
      exact (congrArg Prod.snd hhi).symm
    rw [hhi0, hpmm₁] at hhi
    obtain ⟨hpmm₂, -⟩ := Pmm.pmmAllocFrame_none hhi hzero₁
    rw [hlo0, hhi0, hpmm₂]
    refine ⟨?_, by omega⟩
    change Pmm.usedFrames ms₁.pmm \ {f.pd} = _
    rw [hused₁, hback]
  · have hhi0 : f.hi = 0 := hfail.resolve_left hlo0
    obtain ⟨hfresh₂, hused₂, hloal, hbudget₂⟩ := Pmm.pmmAllocFrame_some hlo hlo0
    have hzero₂ : 0 ∈ Pmm.usedFrames pmm₁ := by
      rw [hused₂]
      exact Set.mem_insert_of_mem _ hzero₁
    rw [hhi0] at hhi
    obtain ⟨hpmm₂, hnone⟩ := Pmm.pmmAllocFrame_none hhi hzero₂
    rw [hhi0, hpmm₂]
    refine ⟨?_, by omega⟩
    change Pmm.usedFrames (freeIf pmm₁ f.lo) \ {f.pd} = _
    unfold freeIf
    rw [if_neg hlo0, Pmm.usedFrames_pmmFreeFrame _ hloal, hused₂,
      Set.insert_sdiff_self_of_notMem hfresh₂, hused₁, hback]

end NoStack

/-- A creation that fails leaves the frames in use as they were, and it fails only
for want of room. -/
structure BuiltNone (k : Kernel) (ms : Paging.State) : Prop where
  room : roomForProcess k = false
  used : Pmm.usedFrames ms.pmm = Pmm.usedFrames k.ms.pmm
  same : SameOff (Pmm.usedFrames k.ms.pmm)ᶜ k.ms.mem ms.mem

theorem Built.failed {img : Image} {start : Nat} {k : Kernel} {ms : Paging.State}
    (hzero : 0 ∈ Pmm.usedFrames k.ms.pmm) (h : Built img start k none ms) : BuiltNone k ms := by
  have hfew : Pmm.budget k.ms.pmm < 3 → roomForProcess k = false := by
    intro hlt
    unfold roomForProcess
    rw [decide_eq_false (by omega), Bool.and_false]
  cases h with
  | heapFull hheap =>
      refine ⟨?_, rfl, .refl _⟩
      unfold roomForProcess
      rw [hheap, Bool.false_and, Bool.false_and]
  | noDirectory hpd =>
      obtain ⟨rfl, hbudget⟩ := pagingCreateUserPd_none hpd hzero
      exact ⟨hfew (by omega), rfl, .refl _⟩
  | @noStack ms₁ pmm₁ pmm₂ f hpd hpd0 hlo hhi hfail =>
      obtain ⟨hused, hbudget⟩ := noStack_used hzero hpd hpd0 hlo hhi hfail
      obtain ⟨halloc, hsame, -⟩ := pagingCreateUserPd_spec hpd hpd0
      refine ⟨hfew hbudget, hused, ?_⟩
      rw [pagingFreePd_mem]
      apply hsame.mono
      rintro a rfl
      exact (Pmm.pmmAllocFrame_some halloc hpd0).1
  | @tableFull ms₁ pmm₁ pmm₂ f hslot hpd hpd0 hlo hhi hlo0 hhi0 =>
      obtain ⟨hnew, hused, -⟩ := newFrames hpd hpd0 hlo hhi hlo0 hhi0
      obtain ⟨halloc, hsame, -, hempty⟩ := pagingCreateUserPd_spec hpd hpd0
      have hpdal : f.pd % 4096 = 0 := (Pmm.pmmAllocFrame_some halloc hpd0).2.2.1
      have hloal : f.lo % 4096 = 0 := (Pmm.pmmAllocFrame_some hlo hlo0).2.2.1
      have hhial : f.hi % 4096 = 0 := (Pmm.pmmAllocFrame_some hhi hhi0).2.2.1
      have hpush := pushWords_sameOff img start ms₁.mem hhial
      have hout : f.pd ∉ ({f.hi} : Set Nat) := by
        intro hmem
        apply hnew.hi
        rw [← Set.mem_singleton_iff.mp hmem]
        simp
      have hempty' : ∀ i, tableAt (pushWords ms₁.mem (f.hi + Pmm.pageSize)
          (initialStack img start)) f.pd i = none := fun i =>
        (tableAt_congr hpush hpdal hout i).trans (hempty i)
      refine ⟨?_, ?_, ?_⟩
      · unfold roomForProcess
        rw [hslot, Bool.and_false, Bool.false_and]
      · rw [usedFrames_releaseFrames hpd0 hpdal hloal hhial, heldFrames_empty hempty', hused]
        exact hnew.diff
      · rw [releaseFrames_mem]
        refine (hsame.mono ?_).trans (hpush.mono ?_)
        · rintro a rfl
          exact hnew.pd
        · rintro a rfl
          exact fun hmem => hnew.hi (Set.mem_insert_of_mem _ (Set.mem_insert_of_mem _ hmem))

/-! ## Loading -/

theorem segFlags_ok (ph : Elf.Phdr) :
    Elf.segFlags ph < 4096 ∧ (Elf.segFlags ph).testBit 0 = true := by
  unfold Elf.segFlags
  split <;> decide

theorem loadPages_maps {data : Mem} {ph : Elf.Phdr} {pd : Nat} {vas : List Nat}
    {s s' : Paging.State} {ok : Bool} (hvas : ∀ va ∈ vas, va + 4096 < 2 ^ 32)
    (h : Elf.loadPages data ph pd vas s = .ok (s', ok)) : ∃ as, Maps pd s vas as ok s' := by
  induction vas generalizing s with
  | nil =>
      rw [Elf.loadPages] at h
      cases h
      exact ⟨[], .done _⟩
  | cons va vas ih =>
      rcases Elf.loadPages_cases h with ⟨pmm, halloc, rfl, rfl⟩ | ⟨pmm, a, s₁, halloc, ha, hmap, hrest⟩
      · exact ⟨[], .noFrame halloc⟩
      · obtain ⟨as, has⟩ := ih (fun v hv => hvas v (List.mem_cons_of_mem va hv)) hrest
        have hal : a % 4096 = 0 := (Pmm.pmmAllocFrame_some halloc ha).2.2.1
        have hfill : SameOff {a} s.mem (Elf.fillPage data ph va s.mem a) := fun x hx =>
          Elf.fillPage_frame data ph s.mem (hvas va List.mem_cons_self) hal fun hxa => hx hxa
        exact ⟨(va, a) :: as,
          .page halloc ha hfill (segFlags_ok ph).1 (segFlags_ok ph).2 hmap has⟩

theorem loadSegments_maps {data : Mem} {pd : Nat} {phs : List Elf.Phdr} {s s' : Paging.State}
    {ok : Bool} (h : Elf.loadSegments data pd phs s = .ok (s', ok)) :
    ∃ as, Maps pd s (phs.flatMap Elf.segPages) as ok s' := by
  induction phs generalizing s with
  | nil =>
      rw [Elf.loadSegments] at h
      cases h
      exact ⟨[], .done _⟩
  | cons ph phs ih =>
      rw [Elf.loadSegments] at h
      obtain ⟨⟨s₁, ok₁⟩, hpages, hrest⟩ := bind_eq_ok.mp h
      obtain ⟨as, has⟩ := loadPages_maps (fun va hva => (Elf.mem_segPages hva).2) hpages
      rw [List.flatMap_cons]
      cases ok₁ with
      | false =>
          cases hrest
          exact ⟨as, has.stop _⟩
      | true =>
          obtain ⟨bs, hbs⟩ := ih hrest
          exact ⟨as ++ bs, has.append hbs⟩

theorem mapStack_maps {pd : Nat} {vas : List Nat} {s s' : Paging.State} {ok : Bool}
    (h : mapStack pd vas s = .ok (s', ok)) : ∃ as, Maps pd s vas as ok s' := by
  induction vas generalizing s with
  | nil =>
      rw [mapStack] at h
      cases h
      exact ⟨[], .done _⟩
  | cons va vas ih =>
      obtain ⟨pmm, a, halloc⟩ : ∃ pmm a, Pmm.pmmAllocFrame s.pmm = (pmm, a) := ⟨_, _, rfl⟩
      simp only [mapStack, halloc] at h
      by_cases ha : a = 0
      · subst ha
        rw [if_pos rfl] at h
        cases h
        exact ⟨[], .noFrame halloc⟩
      · rw [if_neg ha] at h
        obtain ⟨s₁, hmap, hrest⟩ := bind_eq_ok.mp h
        obtain ⟨as, has⟩ := ih hrest
        exact ⟨(va, a) :: as, .page halloc ha (.refl _) (by decide) (by decide) hmap has⟩

/-- The pages of a program: those of its segments, then its stack. -/
def programPages (data : Mem) (base : Nat) : List Nat :=
  (Elf.loadable data).flatMap Elf.segPages ++ stackPages base

theorem Loads.maps {base : Nat} {data : Mem} {pd : Nat} {ms ms' : Paging.State} {ok : Bool}
    (h : Loads base data pd ms ok ms') : ∃ as, Maps pd ms (programPages data base) as ok ms' := by
  cases h with
  | noImage hload =>
      obtain ⟨as, has⟩ := loadSegments_maps hload
      exact ⟨as, has.stop _⟩
  | noStack hload hstack =>
      obtain ⟨as, has⟩ := loadSegments_maps hload
      obtain ⟨bs, hbs⟩ := mapStack_maps hstack
      exact ⟨as ++ bs, has.append hbs⟩
  | loaded hload hstack =>
      obtain ⟨as, has⟩ := loadSegments_maps hload
      obtain ⟨bs, hbs⟩ := mapStack_maps hstack
      exact ⟨as ++ bs, has.append hbs⟩

/-- The user stack is a run of pages inside the address space. -/
structure StackBase (base : Nat) : Prop where
  aligned : base % 4096 = 0
  fits : base + userStackPages * Pmm.pageSize ≤ 2 ^ 32

theorem userStackBase_ok : StackBase userStackBase := ⟨by decide, by decide⟩

theorem programPages_ok {data : Mem} {base va : Nat} (hbase : StackBase base)
    (h : va ∈ programPages data base) : va % 4096 = 0 ∧ va < 2 ^ 32 := by
  rcases List.mem_append.mp h with h | h
  · obtain ⟨ph, -, hva⟩ := List.mem_flatMap.mp h
    obtain ⟨hal, hlt⟩ := Elf.mem_segPages hva
    exact ⟨hal, by omega⟩
  · obtain ⟨n, hn, rfl⟩ := List.mem_map.mp h
    have hlt := List.mem_range.mp hn
    obtain ⟨hal, hfits⟩ := hbase
    unfold userStackPages Pmm.pageSize at *
    omega

/-- The pages that `process_create_from_elf` maps when it is called in `k`. -/
def pagesMapped (base : Nat) (k : Kernel) (data : Mem) : List Nat :=
  if (Elf.elf32Validate data).isSome && roomForProcess k then
    mappedPages [] (Pmm.budget k.ms.pmm - 3) (programPages data base)
  else []

theorem pagesMapped_sublist (base : Nat) (k : Kernel) (data : Mem) :
    (pagesMapped base k data).Sublist (programPages data base) := by
  unfold pagesMapped
  split
  · exact mappedPages_sublist _ _ _
  · exact List.nil_sublist _

/-- The prediction is right. -/
theorem pagesMapped_eq {img : Image} {base : Nat} {k : Kernel} {data : Mem} {f : Frames}
    {ms ms' : Paging.State} {as : List (Nat × Nat)} {ok : Bool} (hbase : StackBase base)
    (hvalid : (Elf.elf32Validate data).isSome = true) (hb : BuiltOk img k f ms)
    (hok : PdOk img.toStatics ms f.pd) (hzero : 0 ∈ Pmm.usedFrames ms.pmm)
    (hmaps : Maps f.pd ms (programPages data base) as ok ms') :
    as.map Prod.fst = pagesMapped base k data := by
  have hbudget : Pmm.budget ms.pmm = Pmm.budget k.ms.pmm - 3 := by
    have := hb.budget
    omega
  have hseen : ∀ i, i ∈ ([] : List Nat) ↔ tableAt ms.mem f.pd i ≠ none := by
    intro i
    simp [hb.empty i]
  unfold pagesMapped
  rw [hvalid, hb.room, Bool.and_true, if_pos rfl, ← hbudget]
  exact hmaps.mapped hok hzero hseen fun va hva => (programPages_ok hbase hva).2

end StakOS.Process
