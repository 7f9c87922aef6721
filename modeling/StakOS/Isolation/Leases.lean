import StakOS.Isolation.Frames

/-!
# Who holds which frame

The invariant behind both isolation and reclaiming: every frame handed out since
boot is in at most one slot of one process.  A program may get pages below the
identity window; their frames are entered in the shared tables, are held by
nobody, and so are never given back.  `closed` says that no program got one.
-/

namespace StakOS.Process

open StakOS.Lib.Memory StakOS.Lib.Loop StakOS.Lib.Ownership StakOS.Paging

/-- Who holds what: the processes `procs` with their frames `fr`. -/
def holdings (m : Mem) (procs : List Nat) (fr : Nat → Frames) : Nat × Slot → Option Nat
  | (p, sl) => if p ∈ procs then slots m (fr p) sl else none

section Holdings

variable {m m' : Mem} {procs : List Nat} {fr fr' : Nat → Frames} {p : Nat} {sl : Slot} {a : Nat}

theorem holdings_of_mem (hp : p ∈ procs) : holdings m procs fr (p, sl) = slots m (fr p) sl :=
  if_pos hp

theorem holdings_of_notMem (hp : p ∉ procs) : holdings m procs fr (p, sl) = none := if_neg hp

theorem holdings_eq_some : holdings m procs fr (p, sl) = some a ↔
    p ∈ procs ∧ slots m (fr p) sl = some a := by
  by_cases hp : p ∈ procs
  · rw [holdings_of_mem hp]
    simp [hp]
  · rw [holdings_of_notMem hp]
    simp [hp]

end Holdings

/-- The entry of a directory that leads to window `i` of the identity map. -/
def identityEntry (st : Statics) (i : Nat) : Nat :=
  (st.identityPts + 4096 * i) ||| pdePresent ||| pdeWritable

/-- The entry of an identity table for page `j` of window `i`. -/
def identityPage (i j : Nat) : Nat :=
  (i * ptEntries * Pmm.pageSize + j * Pmm.pageSize) ||| ptePresent ||| pteWritable

/-- The frames of the kernel image were in use at boot. -/
def KernelUsed (st : Statics) (pmm₀ : Pmm.State) : Prop :=
  ∀ a, a % 4096 = 0 → a < st.kernelEnd → a ∈ Pmm.usedFrames pmm₀

/-- The frames handed out since boot. -/
def handedOut (pmm₀ pmm : Pmm.State) : Set Nat := Pmm.usedFrames pmm \ Pmm.usedFrames pmm₀

theorem kernelUsed_zero {st : Statics} {pmm₀ : Pmm.State} (h : KernelUsed st pmm₀) :
    0 ∈ Pmm.usedFrames pmm₀ := by
  have hpos := st.kernelPd_pos
  have hend := st.kernelPd_end
  exact h 0 rfl (by omega)

theorem kernelUsed_pd {st : Statics} {pmm₀ : Pmm.State} (h : KernelUsed st pmm₀) :
    st.kernelPd ∈ Pmm.usedFrames pmm₀ := by
  have hend := st.kernelPd_end
  exact h _ st.kernelPd_aligned (by omega)

theorem kernelUsed_pts {st : Statics} {pmm₀ : Pmm.State} (h : KernelUsed st pmm₀) {i : Nat}
    (hi : i < identityPtCount) : st.identityPts + 4096 * i ∈ Pmm.usedFrames pmm₀ := by
  have hend := st.identityPts_end
  have hal := st.identityPts_aligned
  unfold identityPtCount at hi
  exact h _ (by omega) (by omega)

theorem identityPts_aligned (st : Statics) (i : Nat) : (st.identityPts + 4096 * i) % 4096 = 0 := by
  have hal := st.identityPts_aligned
  omega

theorem identityEntry_flags (st : Statics) (i : Nat) :
    hasFlag (identityEntry st i) pdePresent = true ∧
      frameOf (identityEntry st i) = st.identityPts + 4096 * i ∧
      hasFlag (identityEntry st i) pteUser = false := by
  have hal := identityPts_aligned st i
  unfold identityEntry
  rw [Nat.lor_assoc, hasFlag_pdePresent, hasFlag_user, testBit_or_flags hal (by decide),
    testBit_or_flags hal (by decide), frameOf_or hal (by decide)]
  exact ⟨by decide, rfl, by decide⟩

theorem identityPage_flags (i j : Nat) :
    hasFlag (identityPage i j) ptePresent = true ∧
      frameOf (identityPage i j) = i * ptEntries * Pmm.pageSize + j * Pmm.pageSize ∧
      hasFlag (identityPage i j) pteUser = false := by
  have hal : (i * ptEntries * Pmm.pageSize + j * Pmm.pageSize) % 4096 = 0 := by
    unfold ptEntries Pmm.pageSize
    omega
  unfold identityPage
  rw [Nat.lor_assoc, hasFlag_present, hasFlag_user, testBit_or_flags hal (by decide),
    testBit_or_flags hal (by decide), frameOf_or hal (by decide)]
  exact ⟨by decide, rfl, by decide⟩

/-! ## The entries below the identity window -/

/-- The kernel's directory is as `paging_init` left it, and the first entries of every
other directory lead to the shared tables. -/
structure LowEntries (closed : Prop) (st : Statics) (m : Mem) (procs : List Nat)
    (fr : Nat → Frames) : Prop where
  kernel : ∀ i, i < identityPtCount → entry m st.kernelPd i = identityEntry st i
  rest : ∀ i, tableAt m st.kernelPd i = none
  low : ∀ p ∈ procs, ∀ i, i < identityPtCount →
    hasFlag (entry m (fr p).pd i) pdePresent = true ∧
      frameOf (entry m (fr p).pd i) = st.identityPts + 4096 * i
  intact : closed →
    (∀ p ∈ procs, ∀ i, i < identityPtCount → entry m (fr p).pd i = identityEntry st i) ∧
      ∀ i j, i < identityPtCount → j < ptEntries →
        entry m (st.identityPts + 4096 * i) j = identityPage i j

/-- They are kept by whatever keeps the directories and the shared tables. -/
theorem LowEntries.congr {closed : Prop} {st : Statics} {m m' : Mem} {fs : Set Nat}
    {procs procs' : List Nat} {fr : Nat → Frames} (h : LowEntries closed st m procs fr)
    (hsame : SameOff fs m m') (hkernel : st.kernelPd ∉ fs)
    (hpts : ∀ i, i < identityPtCount → st.identityPts + 4096 * i ∉ fs)
    (hsub : ∀ p ∈ procs', p ∈ procs ∧ (fr p).pd % 4096 = 0 ∧ (fr p).pd ∉ fs) :
    LowEntries closed st m' procs' fr := by
  have hentry : ∀ p ∈ procs', ∀ i, i < identityPtCount →
      entry m' (fr p).pd i = entry m (fr p).pd i := fun p hp i hi =>
    hsame.entry_eq (hsub p hp).2.1 (hi.trans (by decide)) (hsub p hp).2.2
  refine ⟨fun i hi => ?_, fun i => ?_, fun p hp i hi => ?_, fun hclosed => ⟨fun p hp i hi => ?_,
    fun i j hi hj => ?_⟩⟩
  · rw [hsame.entry_eq st.kernelPd_aligned (hi.trans (by decide)) hkernel]
    exact h.kernel i hi
  · rw [tableAt_congr hsame st.kernelPd_aligned hkernel]
    exact h.rest i
  · rw [hentry p hp i hi]
    exact h.low p (hsub p hp).1 i hi
  · rw [hentry p hp i hi]
    exact (h.intact hclosed).1 p (hsub p hp).1 i hi
  · rw [hsame.entry_eq (identityPts_aligned st i) hj (hpts i hi)]
    exact (h.intact hclosed).2 i j hi hj

/-! ## The invariant -/

structure Leases (closed : Prop) (st : Statics) (pmm₀ : Pmm.State) (ms : Paging.State)
    (procs : List Nat) (fr : Nat → Frames) : Prop where
  kernel : KernelUsed st pmm₀
  kept : Pmm.usedFrames pmm₀ ⊆ Pmm.usedFrames ms.pmm
  tenure : Tenure (holdings ms.mem procs fr) (handedOut pmm₀ ms.pmm)
  entries : LowEntries closed st ms.mem procs fr
  /-- What ring 3 can reach through the shared tables is in nobody's slots. -/
  shared : ∀ i j, i < identityPtCount → j < ptEntries →
    hasFlag (entry ms.mem (st.identityPts + 4096 * i) j) pteUser = true →
    frameOf (entry ms.mem (st.identityPts + 4096 * i) j) ∈
      lost (holdings ms.mem procs fr) (handedOut pmm₀ ms.pmm)

/-- The frames the MMU or the kernel reads as tables. -/
def wired (st : Statics) (m : Mem) (procs : List Nat) (fr : Nat → Frames) : Set Nat :=
  { a | a = st.kernelPd ∨ (∃ i, i < identityPtCount ∧ a = st.identityPts + 4096 * i) ∨
    ∃ p ∈ procs, a = (fr p).pd ∨ ∃ i, tableAt m (fr p).pd i = some a }

namespace Leases

variable {closed : Prop} {st : Statics} {pmm₀ : Pmm.State} {ms : Paging.State}
variable {procs : List Nat} {fr : Nat → Frames} {p : Nat}

theorem zero_used (h : Leases closed st pmm₀ ms procs fr) : 0 ∈ Pmm.usedFrames ms.pmm :=
  h.kept (kernelUsed_zero h.kernel)

theorem slot_handedOut (h : Leases closed st pmm₀ ms procs fr) (hp : p ∈ procs) {sl : Slot}
    {a : Nat} (hsl : slots ms.mem (fr p) sl = some a) : a ∈ handedOut pmm₀ ms.pmm :=
  h.tenure.held (p, sl) a (holdings_eq_some.mpr ⟨hp, hsl⟩)

theorem slot_unique (h : Leases closed st pmm₀ ms procs fr) {p' : Nat} (hp : p ∈ procs)
    (hp' : p' ∈ procs) {sl sl' : Slot} {a : Nat} (hsl : slots ms.mem (fr p) sl = some a)
    (hsl' : slots ms.mem (fr p') sl' = some a) : p = p' ∧ sl = sl' := by
  have heq := h.tenure.unique (p, sl) (p', sl') a (holdings_eq_some.mpr ⟨hp, hsl⟩)
    (holdings_eq_some.mpr ⟨hp', hsl'⟩)
  exact ⟨congrArg Prod.fst heq, congrArg Prod.snd heq⟩

/-- The frames of a process are none of the kernel's. -/
theorem slot_ne (h : Leases closed st pmm₀ ms procs fr) (hp : p ∈ procs) {sl : Slot} {a b : Nat}
    (hsl : slots ms.mem (fr p) sl = some a) (hb : b ∈ Pmm.usedFrames pmm₀) : a ≠ b := fun hab =>
  (h.slot_handedOut hp hsl).2 (hab ▸ hb)

theorem pdOk (h : Leases closed st pmm₀ ms procs fr) (hp : p ∈ procs) : PdOk st ms (fr p).pd := by
  have hpd : slots ms.mem (fr p) .pd = some (fr p).pd := rfl
  refine ⟨(h.slot_handedOut hp hpd).1, ?_, ?_, ?_, ?_, ?_, ?_, ?_, ?_⟩
  · intro i pt hpt
    have hsl : slots ms.mem (fr p) (.table i) = some pt := hpt
    exact (h.slot_handedOut hp hsl).1
  · intro i pt hpt heq
    subst heq
    have hsl : slots ms.mem (fr p) (.table i) = some (fr p).pd := hpt
    exact Slot.noConfusion (h.slot_unique hp hp hsl hpd).2
  · intro i i' pt hi hi'
    have hsl : slots ms.mem (fr p) (.table i) = some pt := hi
    have hsl' : slots ms.mem (fr p) (.table i') = some pt := hi'
    exact Slot.table.inj (h.slot_unique hp hp hsl hsl').2
  · exact fun i hi => (h.entries.low p hp i hi).1
  · exact fun i hi => (h.entries.low p hp i hi).2
  · exact fun i hi => h.kept (kernelUsed_pts h.kernel hi)
  · exact fun i hi => Ne.symm (h.slot_ne hp hpd (kernelUsed_pts h.kernel hi))
  · intro i i' pt hi hpt
    have hsl : slots ms.mem (fr p) (.table i') = some pt := hpt
    exact h.slot_ne hp hsl (kernelUsed_pts h.kernel hi)

theorem pd_aligned (h : Leases closed st pmm₀ ms procs fr) (hp : p ∈ procs) :
    (fr p).pd % 4096 = 0 := Pmm.usedFrames_aligned (h.pdOk hp).used

theorem wired_used (h : Leases closed st pmm₀ ms procs fr) {a : Nat}
    (ha : a ∈ wired st ms.mem procs fr) : a ∈ Pmm.usedFrames ms.pmm := by
  rcases ha with rfl | ⟨i, hi, rfl⟩ | ⟨p, hp, rfl | ⟨i, hi⟩⟩
  · exact h.kept (kernelUsed_pd h.kernel)
  · exact h.kept (kernelUsed_pts h.kernel hi)
  · exact (h.pdOk hp).used
  · exact (h.pdOk hp).tableUsed i a hi

/-- A frame handed out that is in no slot, or in one for a stack or a page, is not read
as a table. -/
theorem notWired (h : Leases closed st pmm₀ ms procs fr) {a : Nat}
    (ha : a ∈ handedOut pmm₀ ms.pmm)
    (hslot : ∀ p ∈ procs, ∀ sl, slots ms.mem (fr p) sl = some a → sl ≠ .pd ∧ ∀ i, sl ≠ .table i) :
    a ∉ wired st ms.mem procs fr := by
  rintro (rfl | ⟨i, hi, rfl⟩ | ⟨x, hx, rfl | ⟨i, hi⟩⟩)
  · exact ha.2 (kernelUsed_pd h.kernel)
  · exact ha.2 (kernelUsed_pts h.kernel hi)
  · exact (hslot x hx .pd rfl).1 rfl
  · exact (hslot x hx (.table i) hi).2 i rfl

/-- The kernel stack and the pages of a process are not read as tables. -/
theorem slot_notWired (h : Leases closed st pmm₀ ms procs fr) (hp : p ∈ procs) {sl : Slot} {a : Nat}
    (hsl : slots ms.mem (fr p) sl = some a) (hpd : sl ≠ .pd) (htable : ∀ i, sl ≠ .table i) :
    a ∉ wired st ms.mem procs fr := by
  apply h.notWired (h.slot_handedOut hp hsl)
  intro x hx sl' hsl'
  rw [← (h.slot_unique hp hx hsl hsl').2]
  exact ⟨hpd, htable⟩

/-- Neither are the frames that nobody holds. -/
theorem lost_notWired (h : Leases closed st pmm₀ ms procs fr) {a : Nat}
    (ha : a ∈ lost (holdings ms.mem procs fr) (handedOut pmm₀ ms.pmm)) :
    a ∉ wired st ms.mem procs fr := by
  apply h.notWired ha.1
  exact fun x hx sl hsl => absurd (holdings_eq_some.mpr ⟨hx, hsl⟩) (ha.2 (x, sl))

/-! ### Fewer processes -/

/-- Slots may be emptied, as long as what is held stays in use. -/
theorem shrink (h : Leases closed st pmm₀ ms procs fr) {ms' : Paging.State} {procs' : List Nat}
    {fr' : Nat → Frames} (hmem : ms'.mem = ms.mem)
    (hprocs : ∀ x ∈ procs', x ∈ procs ∧ fr' x = fr x)
    (hkept : Pmm.usedFrames pmm₀ ⊆ Pmm.usedFrames ms'.pmm)
    (hheld : ∀ x ∈ procs', ∀ sl a, slots ms.mem (fr x) sl = some a → a ∈ Pmm.usedFrames ms'.pmm)
    (hlost : ∀ a, a ∈ lost (holdings ms.mem procs fr) (handedOut pmm₀ ms.pmm) →
      (∃ i j, i < identityPtCount ∧ j < ptEntries ∧
        frameOf (entry ms.mem (st.identityPts + 4096 * i) j) = a ∧
        hasFlag (entry ms.mem (st.identityPts + 4096 * i) j) pteUser = true) →
      a ∈ Pmm.usedFrames ms'.pmm) : Leases closed st pmm₀ ms' procs' fr' := by
  have hown : ∀ t a, holdings ms'.mem procs' fr' t = some a → holdings ms.mem procs fr t = some a := by
    rintro ⟨x, sl⟩ a hsl
    rw [hmem] at hsl
    obtain ⟨hx, hsl⟩ := holdings_eq_some.mp hsl
    obtain ⟨hin, hfr⟩ := hprocs x hx
    exact holdings_eq_some.mpr ⟨hin, hfr ▸ hsl⟩
  refine ⟨h.kernel, hkept, ?_, ?_, fun i j hi hj huser => ?_⟩
  · refine h.tenure.mono hown ?_
    rintro ⟨x, sl⟩ a hsl
    have hbefore := hown _ _ hsl
    obtain ⟨hx, -⟩ := holdings_eq_some.mp hsl
    obtain ⟨-, hsl'⟩ := holdings_eq_some.mp hbefore
    exact ⟨hheld x hx sl a hsl', (h.tenure.held _ _ hbefore).2⟩
  · rw [hmem]
    refine ⟨h.entries.kernel, h.entries.rest, fun x hx => ?_, fun hclosed => ⟨fun x hx => ?_,
      (h.entries.intact hclosed).2⟩⟩
    · rw [(hprocs x hx).2]
      exact h.entries.low x (hprocs x hx).1
    · rw [(hprocs x hx).2]
      exact (h.entries.intact hclosed).1 x (hprocs x hx).1
  · rw [hmem] at huser ⊢
    have hbefore := h.shared i j hi hj huser
    refine ⟨⟨hlost _ hbefore ⟨i, j, hi, hj, rfl, huser⟩, hbefore.1.2⟩, fun t ht => ?_⟩
    exact hbefore.2 t (hown t _ (hmem ▸ ht))

/-- Only the frames of the processes listed matter. -/
theorem frames_congr (h : Leases closed st pmm₀ ms procs fr) {fr' : Nat → Frames}
    (hfr : ∀ p ∈ procs, fr' p = fr p) : Leases closed st pmm₀ ms procs fr' :=
  h.shrink rfl (fun x hx => ⟨hx, hfr x hx⟩) h.kept (fun _ hx _ _ hsl => (h.slot_handedOut hx hsl).1)
    fun _ ha _ => ha.1.1

/-- Fewer processes. -/
theorem fewer (h : Leases closed st pmm₀ ms procs fr) {procs' : List Nat} (hsub : procs' ⊆ procs) :
    Leases closed st pmm₀ ms procs' fr :=
  h.shrink rfl (fun _ hx => ⟨hsub hx, rfl⟩) h.kept
    (fun _ hx _ _ hsl => (h.slot_handedOut (hsub hx) hsl).1) fun _ ha _ => ha.1.1

/-- A process that is freed takes its frames, and only its own, along. -/
theorem release (h : Leases closed st pmm₀ ms procs fr) (hp : p ∈ procs) {procs' : List Nat}
    (hprocs : ∀ x ∈ procs', x ∈ procs ∧ x ≠ p) :
    Leases closed st pmm₀ (releaseFrames ms (fr p)) procs' fr := by
  have hpdsl : slots ms.mem (fr p) .pd = some (fr p).pd := rfl
  have hlosl : slots ms.mem (fr p) .lo = some (fr p).lo := rfl
  have hhisl : slots ms.mem (fr p) .hi = some (fr p).hi := rfl
  have hpd0 : (fr p).pd ≠ 0 := h.slot_ne hp hpdsl (kernelUsed_zero h.kernel)
  have hused : Pmm.usedFrames (releaseFrames ms (fr p)).pmm =
      Pmm.usedFrames ms.pmm \ heldFrames ms.mem (fr p) :=
    usedFrames_releaseFrames hpd0 (h.pd_aligned hp)
      (Pmm.usedFrames_aligned (h.slot_handedOut hp hlosl).1)
      (Pmm.usedFrames_aligned (h.slot_handedOut hp hhisl).1)
  apply h.shrink (releaseFrames_mem ms (fr p)) fun x hx => ⟨(hprocs x hx).1, rfl⟩
  · intro a ha
    rw [hused]
    refine ⟨h.kept ha, ?_⟩
    rintro ⟨sl, hsl⟩
    exact (h.slot_handedOut hp hsl).2 ha
  · intro x hx sl a hsl
    obtain ⟨hxp, hne⟩ := hprocs x hx
    rw [hused]
    refine ⟨(h.slot_handedOut hxp hsl).1, ?_⟩
    rintro ⟨sl', hsl'⟩
    exact hne (h.slot_unique hxp hp hsl hsl').1
  · intro a ha _
    rw [hused]
    refine ⟨ha.1.1, ?_⟩
    rintro ⟨sl, hsl⟩
    exact ha.2 (p, sl) (holdings_eq_some.mpr ⟨hp, hsl⟩)

/-- Several processes are freed in turn. -/
theorem releaseAll {ps procs' : List Nat} (h : Leases closed st pmm₀ ms procs fr) (hps : ps ⊆ procs)
    (hnodup : ps.Nodup) (hprocs : ∀ x ∈ procs', x ∈ procs ∧ x ∉ ps) :
    Leases closed st pmm₀ (ps.foldl (fun ms p => releaseFrames ms (fr p)) ms) procs' fr := by
  induction ps generalizing ms procs with
  | nil => exact h.fewer fun x hx => (hprocs x hx).1
  | cons p ps ih =>
      obtain ⟨hp, hnodup'⟩ := List.nodup_cons.mp hnodup
      have hin : p ∈ procs := hps List.mem_cons_self
      have hone : Leases closed st pmm₀ (releaseFrames ms (fr p))
          (procs.filter fun x => decide (x ≠ p)) fr := by
        refine h.release hin fun x hx => ?_
        rw [List.mem_filter, decide_eq_true_eq] at hx
        exact hx
      refine ih hone ?_ hnodup' ?_
      · intro x hx
        rw [List.mem_filter, decide_eq_true_eq]
        exact ⟨hps (List.mem_cons_of_mem p hx), fun hxp => hp (hxp ▸ hx)⟩
      · intro x hx
        obtain ⟨hxin, hxout⟩ := hprocs x hx
        rw [List.mem_cons, not_or] at hxout
        rw [List.mem_filter, decide_eq_true_eq]
        exact ⟨⟨hxin, hxout.1⟩, hxout.2⟩

/-! ### Memory off the tables -/

/-- A change to memory off the tables changes no slot. -/
theorem slots_of_sameOff (h : Leases closed st pmm₀ ms procs fr) {m : Mem} {fs : Set Nat}
    (hsame : SameOff fs ms.mem m) (hp : p ∈ procs) (hpd : (fr p).pd ∉ fs)
    (htables : ∀ i pt, tableAt ms.mem (fr p).pd i = some pt → pt ∉ fs) (sl : Slot) :
    slots m (fr p) sl = slots ms.mem (fr p) sl :=
  slots_congr hsame (h.pd_aligned hp) hpd htables sl

/-- Memory off the tables may change, and frames may be taken. -/
theorem rewrite (h : Leases closed st pmm₀ ms procs fr) {m : Mem} {pmm : Pmm.State} {fs : Set Nat}
    (hsame : SameOff fs ms.mem m) (hfs : ∀ a ∈ wired st ms.mem procs fr, a ∉ fs)
    (hgrow : Pmm.usedFrames ms.pmm ⊆ Pmm.usedFrames pmm) :
    Leases closed st pmm₀ ⟨pmm, m⟩ procs fr := by
  have hpd : ∀ p ∈ procs, (fr p).pd ∉ fs := fun p hp =>
    hfs _ (Or.inr (Or.inr ⟨p, hp, Or.inl rfl⟩))
  have hpts : ∀ i, i < identityPtCount → st.identityPts + 4096 * i ∉ fs := fun i hi =>
    hfs _ (Or.inr (Or.inl ⟨i, hi, rfl⟩))
  have hown : holdings m procs fr = holdings ms.mem procs fr := by
    funext ⟨p, sl⟩
    by_cases hp : p ∈ procs
    · rw [holdings_of_mem hp, holdings_of_mem hp]
      exact h.slots_of_sameOff hsame hp (hpd p hp)
        (fun i pt hpt => hfs pt (Or.inr (Or.inr ⟨p, hp, Or.inr ⟨i, hpt⟩⟩))) sl
    · rw [holdings_of_notMem hp, holdings_of_notMem hp]
  have hout : handedOut pmm₀ ms.pmm ⊆ handedOut pmm₀ pmm := fun a ha => ⟨hgrow ha.1, ha.2⟩
  refine ⟨h.kernel, h.kept.trans hgrow, ?_, ?_, fun i j hi hj huser => ?_⟩
  · rw [hown]
    exact h.tenure.widen hout
  · exact h.entries.congr hsame (hfs _ (Or.inl rfl)) hpts fun p hp =>
      ⟨hp, h.pd_aligned hp, hpd p hp⟩
  · change frameOf (entry m _ j) ∈ lost (holdings m procs fr) _
    change hasFlag (entry m _ j) pteUser = true at huser
    rw [hsame.entry_eq (identityPts_aligned st i) hj (hpts i hi)] at huser ⊢
    rw [hown]
    obtain ⟨hin, hnone⟩ := h.shared i j hi hj huser
    exact ⟨hout hin, hnone⟩

/-! ### Pages -/

/-- The frames written when a page of `p` is mapped are none of another process. -/
theorem other_notMem (h : Leases closed st pmm₀ ms procs fr) (hp : p ∈ procs) {a pt : Nat}
    (ha : a ∉ Pmm.usedFrames ms.pmm)
    (hpt : (∃ i, slots ms.mem (fr p) (.table i) = some pt) ∨
      pt ∉ insert a (Pmm.usedFrames ms.pmm) ∨ pt ∈ Pmm.usedFrames pmm₀) {x : Nat} (hx : x ∈ procs)
    (hne : x ≠ p) {sl : Slot} {b : Nat} (hsl : slots ms.mem (fr x) sl = some b) :
    b ∉ ({a, (fr p).pd, pt} : Set Nat) := by
  have hb := (h.slot_handedOut hx hsl).1
  rintro (rfl | rfl | hbpt)
  · exact ha hb
  · have hpdsl : slots ms.mem (fr p) .pd = some (fr p).pd := rfl
    exact hne (h.slot_unique hx hp hsl hpdsl).1
  · rw [Set.mem_singleton_iff] at hbpt
    subst hbpt
    rcases hpt with ⟨i, hsl'⟩ | hnew | hkernel
    · exact hne (h.slot_unique hx hp hsl hsl').1
    · exact hnew (Set.mem_insert_of_mem a hb)
    · exact h.slot_ne hx hsl hkernel rfl

/-- One page above the identity window is mapped into the directory of `p`. -/
theorem page (h : Leases closed st pmm₀ ms procs fr) (hp : p ∈ procs) {ms' : Paging.State}
    {virt a pt : Nat} (ha : a ∉ Pmm.usedFrames ms.pmm)
    (hpage : HighPage ms ms' (fr p).pd virt a pt) : Leases closed st pmm₀ ms' procs fr := by
  have hgrow : Pmm.usedFrames ms.pmm ⊆ Pmm.usedFrames ms'.pmm := by
    rw [hpage.used]
    exact fun x hx => Set.mem_insert_of_mem pt (Set.mem_insert_of_mem a hx)
  have hpdsl : slots ms.mem (fr p) .pd = some (fr p).pd := rfl
  have hptsl : slots ms.mem (fr p) (.table (pdIdx virt)) = some pt ∨
      pt ∉ insert a (Pmm.usedFrames ms.pmm) := hpage.origin.imp id And.right
  have hother : ∀ x ∈ procs, x ≠ p → ∀ sl b, slots ms.mem (fr x) sl = some b →
      b ∉ ({a, (fr p).pd, pt} : Set Nat) := fun x hx hne sl b hsl =>
    h.other_notMem hp ha (hptsl.imp (fun hsl => ⟨_, hsl⟩) Or.inl) hx hne hsl
  have hkernel : ∀ b ∈ Pmm.usedFrames pmm₀, b ∉ ({a, (fr p).pd, pt} : Set Nat) := by
    intro b hb
    rintro (rfl | rfl | hbpt)
    · exact ha (h.kept hb)
    · exact h.slot_ne hp hpdsl hb rfl
    · rw [Set.mem_singleton_iff] at hbpt
      subst hbpt
      rcases hptsl with hsl' | hnew
      · exact h.slot_ne hp hsl' hb rfl
      · exact hnew (Set.mem_insert_of_mem a (h.kept hb))
  have hpts : ∀ i, i < identityPtCount → st.identityPts + 4096 * i ∉ ({a, (fr p).pd, pt} : Set Nat) :=
    fun i hi => hkernel _ (kernelUsed_pts h.kernel hi)
  have hslots : ∀ x ∈ procs, x ≠ p → ∀ sl, slots ms'.mem (fr x) sl = slots ms.mem (fr x) sl :=
    fun x hx hne sl => h.slots_of_sameOff hpage.same hx (hother x hx hne .pd _ rfl)
      (fun i b hb => hother x hx hne (.table i) b hb) sl
  have hown : holdings ms'.mem procs fr = Function.update (Function.update
      (holdings ms.mem procs fr) (p, .table (pdIdx virt)) (some pt))
      (p, .page (pdIdx virt) (ptIdx virt)) (some a) := by
    funext ⟨x, sl⟩
    by_cases hxp : x = p
    · subst hxp
      rw [holdings_of_mem hp, slots_highPage hpage]
      simp only [Function.update_apply, Prod.mk.injEq, true_and, holdings_of_mem hp]
    · rw [Function.update_of_ne (by simp [hxp]), Function.update_of_ne (by simp [hxp])]
      by_cases hx : x ∈ procs
      · rw [holdings_of_mem hx, holdings_of_mem hx]
        exact hslots x hx hxp sl
      · rw [holdings_of_notMem hx, holdings_of_notMem hx]
  have hentry : ∀ x ∈ procs, ∀ i, i < identityPtCount →
      entry ms'.mem (fr x).pd i = entry ms.mem (fr x).pd i := by
    intro x hx i hi
    by_cases hxp : x = p
    · rw [hxp]
      exact hpage.entry i hi
    · exact hpage.same.entry_eq (h.pd_aligned hx) (hi.trans (by decide)) (hother x hx hxp .pd _ rfl)
  refine ⟨h.kernel, h.kept.trans hgrow, ?_, ?_, fun i j hi hj huser => ?_⟩
  · rw [hown]
    refine h.tenure.grant_pair ?_ (fun hin => ha hin.1) (hpage.ne (h.pdOk hp) ha) ?_
    · rcases hptsl with hsl | hnew
      · exact Or.inl (holdings_eq_some.mpr ⟨hp, hsl⟩)
      · exact Or.inr fun hin => hnew (Set.mem_insert_of_mem a hin.1)
    · have hin := hpage.used.ge
      rintro b (rfl | rfl | ⟨hb, hout⟩)
      · exact ⟨hin (Set.mem_insert b _), fun hb => hkernel b hb (by simp)⟩
      · exact ⟨hin (Set.mem_insert_of_mem pt (Set.mem_insert b _)),
          fun hb => hkernel b hb (by simp)⟩
      · exact ⟨hgrow hb, hout⟩
  · have hkeep : LowEntries closed st ms'.mem [] fr :=
      h.entries.congr hpage.same (hkernel _ (kernelUsed_pd h.kernel)) hpts (by simp)
    refine ⟨hkeep.kernel, hkeep.rest, fun x hx i hi => ?_, fun hclosed => ⟨fun x hx i hi => ?_,
      (hkeep.intact hclosed).2⟩⟩
    · rw [hentry x hx i hi]
      exact h.entries.low x hx i hi
    · rw [hentry x hx i hi]
      exact (h.entries.intact hclosed).1 x hx i hi
  · -- a frame of the shared tables was in use, so neither of the two granted
    rw [hpage.same.entry_eq (identityPts_aligned st i) hj (hpts i hi)] at huser ⊢
    obtain ⟨⟨hin, hout⟩, hnone⟩ := h.shared i j hi hj huser
    refine ⟨⟨hgrow hin, hout⟩, fun t ht => ?_⟩
    rw [hown, Function.update_apply] at ht
    split at ht
    · exact ha ((Option.some.inj ht) ▸ hin)
    · rw [Function.update_apply] at ht
      split at ht
      · rcases hptsl with hsl | hnew
        · exact hnone _ (holdings_eq_some.mpr ⟨hp, hsl.trans ht⟩)
        · exact hnew (Set.mem_insert_of_mem a ((Option.some.inj ht) ▸ hin))
      · exact hnone t ht

/-- One page below it: the frame goes into a shared table and into no slot. -/
theorem lowPage (h : Leases closed st pmm₀ ms procs fr) (hp : p ∈ procs) (hopen : ¬closed)
    {ms' : Paging.State} {virt a flags : Nat} (ha : a ∉ Pmm.usedFrames ms.pmm)
    (hal : a % 4096 = 0) (hflags : flags < 4096) (hlow : pdIdx virt < identityPtCount)
    (hpage : LowPage st ms ms' (fr p).pd virt a flags) : Leases closed st pmm₀ ms' procs fr := by
  have hgrow : Pmm.usedFrames ms.pmm ⊆ Pmm.usedFrames ms'.pmm := by
    rw [hpage.used]
    exact Set.subset_insert a _
  have hpt := kernelUsed_pts h.kernel hlow
  have hother : ∀ x ∈ procs, x ≠ p → ∀ sl b, slots ms.mem (fr x) sl = some b →
      b ∉ ({a, (fr p).pd, st.identityPts + 4096 * pdIdx virt} : Set Nat) :=
    fun x hx hne sl b hsl => h.other_notMem hp ha (Or.inr (Or.inr hpt)) hx hne hsl
  have hkernelPd : st.kernelPd ∉ ({a, (fr p).pd, st.identityPts + 4096 * pdIdx virt} : Set Nat) := by
    have hapart := st.apart
    have hpdal := st.kernelPd_aligned
    have hptsal := st.identityPts_aligned
    have hpdsl : slots ms.mem (fr p) .pd = some (fr p).pd := rfl
    rintro (heq | heq | heq)
    · exact ha (heq ▸ h.kept (kernelUsed_pd h.kernel))
    · exact h.slot_ne hp hpdsl (kernelUsed_pd h.kernel) heq.symm
    · rw [Set.mem_singleton_iff] at heq
      unfold identityPtCount at hlow
      omega
  have hown : holdings ms'.mem procs fr = holdings ms.mem procs fr := by
    funext ⟨x, sl⟩
    by_cases hx : x ∈ procs
    · rw [holdings_of_mem hx, holdings_of_mem hx]
      by_cases hxp : x = p
      · subst hxp
        cases sl with
        | pd => rfl
        | lo => rfl
        | hi => rfl
        | table i => exact hpage.table i
        | page i j => exact hpage.page i j
      · exact h.slots_of_sameOff hpage.same hx (hother x hx hxp .pd _ rfl)
          (fun i b hb => hother x hx hxp (.table i) b hb) sl
    · rw [holdings_of_notMem hx, holdings_of_notMem hx]
  have hout : handedOut pmm₀ ms.pmm ⊆ handedOut pmm₀ ms'.pmm := fun b hb => ⟨hgrow hb.1, hb.2⟩
  refine ⟨h.kernel, h.kept.trans hgrow, ?_, ⟨fun i hi => ?_, fun i => ?_, fun x hx i hi => ?_,
    fun hclosed => absurd hclosed hopen⟩, fun i j hi hj huser => ?_⟩
  · rw [hown]
    exact h.tenure.widen hout
  · rw [hpage.same.entry_eq st.kernelPd_aligned (hi.trans (by decide)) hkernelPd]
    exact h.entries.kernel i hi
  · rw [tableAt_congr hpage.same st.kernelPd_aligned hkernelPd]
    exact h.entries.rest i
  · by_cases hxp : x = p
    · rw [hxp, (hpage.entry i hi).1, (hpage.entry i hi).2]
      exact h.entries.low p hp i hi
    · rw [hpage.same.entry_eq (h.pd_aligned hx) (hi.trans (by decide)) (hother x hx hxp .pd _ rfl)]
      exact h.entries.low x hx i hi
  · rw [hpage.shared i j hi hj] at huser ⊢
    rw [hown]
    split at huser
    · -- the new frame is in nobody's slots because it was not in use
      next hij =>
      rw [if_pos hij, frameOf_or hal hflags]
      refine ⟨⟨?_, fun hin => ha (h.kept hin)⟩, fun t ht => ha (h.tenure.held t a ht).1⟩
      rw [hpage.used]
      exact Set.mem_insert a _
    · next hij =>
      rw [if_neg hij]
      obtain ⟨hin, hnone⟩ := h.shared i j hi hj huser
      exact ⟨hout hin, hnone⟩

/-- Mapping page after page. -/
theorem maps (h : Leases closed st pmm₀ ms procs fr) (hp : p ∈ procs) {ms' : Paging.State}
    {vas : List Nat} {as : List (Nat × Nat)} {ok : Bool} (hmaps : Maps (fr p).pd ms vas as ok ms')
    (hvas : ∀ va ∈ vas, va < 2 ^ 32)
    (hhigh : closed → ∀ va ∈ as.map Prod.fst, identityMappedBytes ≤ va) :
    Leases closed st pmm₀ ms' procs fr := by
  generalize hpd : (fr p).pd = pd at hmaps
  induction hmaps with
  | done s => exact h
  | noFrame halloc =>
      rw [(Pmm.pmmAllocFrame_none halloc h.zero_used).1]
      exact h
  | @page s s₁ s' pmm m a flags va vas as ok halloc ha hfill hflags hbit hmap hrest ih =>
      subst hpd
      have hva := hvas va List.mem_cons_self
      have hnext : Leases closed st pmm₀ s₁ procs fr := by
        by_cases hlow : pdIdx va < identityPtCount
        · have hopen : ¬closed := fun hclosed =>
            Nat.not_le_of_lt (pdIdx_low.mp hlow) (hhigh hclosed va (by simp))
          obtain ⟨hfresh, -, hal, -⟩ := Pmm.pmmAllocFrame_some halloc ha
          exact h.lowPage hp hopen hfresh hal hflags hlow
            (Paging.lowPage (h.pdOk hp) hva hlow halloc ha hfill hflags hbit hmap)
        · obtain ⟨hstep, -, hfresh⟩ := pageStep (h.pdOk hp) hva halloc ha hfill hflags hbit hmap
          obtain ⟨pt, hpage⟩ := hstep.high (h.pdOk hp) (Nat.le_of_not_lt hlow)
          exact h.page hp hfresh hpage
      refine ih hnext (fun v hv => hvas v (List.mem_cons_of_mem va hv)) fun hclosed v hv => ?_
      exact hhigh hclosed v (List.mem_cons_of_mem va hv)

/-! ### A new process -/

/-- A new process with three new frames. -/
theorem create {img : Image} {k : Kernel} {f : Frames} {ms' : Paging.State}
    (h : Leases closed img.toStatics pmm₀ k.ms procs fr) (hb : BuiltOk img k f ms') (hp : p ∉ procs) :
    Leases closed img.toStatics pmm₀ ms' (p :: procs) (Function.update fr p f) := by
  have hgrow : Pmm.usedFrames k.ms.pmm ⊆ Pmm.usedFrames ms'.pmm := by
    rw [hb.used]
    exact fun x hx => Set.mem_insert_of_mem _ (Set.mem_insert_of_mem _ (Set.mem_insert_of_mem _ hx))
  have hlo : f.lo ∉ Pmm.usedFrames k.ms.pmm := fun hin => hb.new.lo (Set.mem_insert_of_mem _ hin)
  have hhi : f.hi ∉ Pmm.usedFrames k.ms.pmm := fun hin =>
    hb.new.hi (Set.mem_insert_of_mem _ (Set.mem_insert_of_mem _ hin))
  have hwritten : ∀ a ∈ Pmm.usedFrames k.ms.pmm, a ∉ ({f.pd, f.hi} : Set Nat) := fun a ha =>
    notMem_pair (fun heq => hb.new.pd (heq ▸ ha)) fun heq => hhi (heq ▸ ha)
  have hold : Leases closed img.toStatics pmm₀ ms' procs fr :=
    h.rewrite hb.same (fun a ha => hwritten a (h.wired_used ha)) hgrow
  -- nobody holds the three frames yet
  have hnobody : ∀ t b, holdings ms'.mem procs fr t = some b → b ∈ Pmm.usedFrames k.ms.pmm := by
    rintro ⟨x, sl⟩ b hsl
    obtain ⟨hx, hsl⟩ := holdings_eq_some.mp hsl
    have hsame : slots ms'.mem (fr x) sl = slots k.ms.mem (fr x) sl :=
      h.slots_of_sameOff hb.same hx (hwritten _ (h.pdOk hx).used)
        (fun i pt hpt => hwritten _ ((h.pdOk hx).tableUsed i pt hpt)) sl
    exact (h.slot_handedOut hx (hsame ▸ hsl)).1
  have hnew : ∀ b, b = f.pd ∨ b = f.lo ∨ b = f.hi → b ∈ handedOut pmm₀ ms'.pmm := by
    intro b hb'
    refine ⟨by rw [hb.used]; simp; tauto, fun hin => ?_⟩
    have hin' := h.kept hin
    rcases hb' with rfl | rfl | rfl
    · exact hb.new.pd hin'
    · exact hlo hin'
    · exact hhi hin'
  have hfr : ∀ x ∈ procs, Function.update fr p f x = fr x := by
    intro x hx
    have hxp : x ≠ p := fun hxp => hp (hxp ▸ hx)
    exact Function.update_of_ne hxp _ _
  -- a slot that is filled is one of the new process or one that was filled before
  have hcases : ∀ x sl b, holdings ms'.mem (p :: procs) (Function.update fr p f) (x, sl) = some b →
      (x = p ∧ slots ms'.mem f sl = some b ∧ b ∉ Pmm.usedFrames k.ms.pmm ∧
        b ∈ handedOut pmm₀ ms'.pmm) ∨ (x ∈ procs ∧ holdings ms'.mem procs fr (x, sl) = some b) := by
    intro x sl b hsl
    obtain ⟨hx, hsl⟩ := holdings_eq_some.mp hsl
    rcases List.mem_cons.mp hx with rfl | hx
    · left
      rw [Function.update_self] at hsl
      rcases slots_empty hb.empty hsl with ⟨-, heq⟩ | ⟨-, heq⟩ | ⟨-, heq⟩
      · exact ⟨rfl, hsl, heq ▸ hb.new.pd, hnew b (Or.inl heq)⟩
      · exact ⟨rfl, hsl, heq ▸ hlo, hnew b (Or.inr (Or.inl heq))⟩
      · exact ⟨rfl, hsl, heq ▸ hhi, hnew b (Or.inr (Or.inr heq))⟩
    · right
      rw [hfr x hx] at hsl
      exact ⟨hx, holdings_eq_some.mpr ⟨hx, hsl⟩⟩
  refine ⟨h.kernel, hold.kept, ⟨?_, ?_⟩, ⟨hold.entries.kernel, hold.entries.rest, ?_, ?_⟩, ?_⟩
  · rintro ⟨x, sl⟩ b hsl
    rcases hcases x sl b hsl with ⟨-, -, -, hout⟩ | ⟨-, hsl'⟩
    · exact hout
    · exact hold.tenure.held (x, sl) b hsl'
  · rintro ⟨x, sl⟩ ⟨y, sl'⟩ b hsl hsl'
    rcases hcases x sl b hsl with ⟨rfl, hx, hfresh, -⟩ | ⟨-, hx⟩
    · rcases hcases y sl' b hsl' with ⟨rfl, hy, -⟩ | ⟨-, hy⟩
      · rw [hb.new.slots_inj hb.empty hx hy]
      · exact absurd (hnobody _ b hy) hfresh
    · rcases hcases y sl' b hsl' with ⟨rfl, -, hfresh, -⟩ | ⟨-, hy⟩
      · exact absurd (hnobody _ b hx) hfresh
      · exact hold.tenure.unique (x, sl) (y, sl') b hx hy
  · intro x hx i hi
    rcases List.mem_cons.mp hx with rfl | hx
    · rw [Function.update_self, hb.low i hi, h.entries.kernel i hi]
      exact ⟨(identityEntry_flags _ i).1, (identityEntry_flags _ i).2.1⟩
    · rw [hfr x hx]
      exact hold.entries.low x hx i hi
  · refine fun hclosed => ⟨fun x hx i hi => ?_, (hold.entries.intact hclosed).2⟩
    rcases List.mem_cons.mp hx with rfl | hx
    · rw [Function.update_self, hb.low i hi]
      exact h.entries.kernel i hi
    · rw [hfr x hx]
      exact (hold.entries.intact hclosed).1 x hx i hi
  · intro i j hi hj huser
    obtain ⟨hin, hnone⟩ := hold.shared i j hi hj huser
    refine ⟨hin, ?_⟩
    rintro ⟨x, sl⟩ hsl
    rcases hcases x sl _ hsl with ⟨-, -, hfresh, -⟩ | ⟨-, hsl'⟩
    · -- the shared tables refer to frames that were in use before the call
      apply hfresh
      have hkept : entry ms'.mem (img.identityPts + 4096 * i) j =
          entry k.ms.mem (img.identityPts + 4096 * i) j :=
        hb.same.entry_eq (identityPts_aligned img.toStatics i) hj
          (hwritten _ (h.kept (kernelUsed_pts h.kernel hi)))
      rw [hkept] at huser ⊢
      exact (h.shared i j hi hj huser).1.1
    · exact hnone (x, sl) hsl'

/-! ### What ring 3 can reach -/

/-- Whatever ring 3 can reach through the directory of a process is a page of its, or
in nobody's slots. -/
theorem user_page (h : Leases closed st pmm₀ ms procs fr) (hp : p ∈ procs) {va : Nat}
    (hva : va < 2 ^ 32) (hacc : userAccessible ms.mem (fr p).pd va = true) :
    (∃ i j, slots ms.mem (fr p) (.page i j) = some (frameOf (pteAt ms.mem (fr p).pd va))) ∨
      (¬closed ∧ frameOf (pteAt ms.mem (fr p).pd va) ∈
        lost (holdings ms.mem procs fr) (handedOut pmm₀ ms.pmm)) := by
  unfold userAccessible bothHave at hacc
  simp only [Bool.and_eq_true] at hacc
  obtain ⟨⟨hpde, hpte⟩, huserPde, huserPte⟩ := hacc
  by_cases hlow : pdIdx va < identityPtCount
  · right
    constructor
    · intro hclosed
      have hentry : pdeAt ms.mem (fr p).pd va = identityEntry st (pdIdx va) :=
        (h.entries.intact hclosed).1 p hp _ hlow
      rw [hentry, (identityEntry_flags st _).2.2] at huserPde
      cases huserPde
    · have htable : frameOf (pdeAt ms.mem (fr p).pd va) = st.identityPts + 4096 * pdIdx va :=
        (h.entries.low p hp _ hlow).2
      unfold pteAt at huserPte ⊢
      rw [htable] at huserPte ⊢
      exact h.shared _ _ hlow (ptIdx_lt va) huserPte
  · refine Or.inl ⟨pdIdx va, ptIdx va, ?_⟩
    have htable : tableAt ms.mem (fr p).pd (pdIdx va) = some (frameOf (pdeAt ms.mem (fr p).pd va)) :=
      tableAt_eq_some.mpr ⟨Nat.le_of_not_lt hlow, pdIdx_lt hva, hpde, rfl⟩
    exact pageAt_eq_some.mpr ⟨_, htable, ptIdx_lt va, hpte, rfl⟩

/-- Through the kernel's directory ring 3 reaches nothing. -/
theorem kernel_not_user (h : Leases closed st pmm₀ ms procs fr) {va : Nat} (hva : va < 2 ^ 32) :
    userAccessible ms.mem st.kernelPd va = false := by
  rw [← Bool.not_eq_true]
  intro hacc
  unfold userAccessible bothHave at hacc
  simp only [Bool.and_eq_true] at hacc
  obtain ⟨⟨hpde, -⟩, huser, -⟩ := hacc
  by_cases hlow : pdIdx va < identityPtCount
  · have hentry : pdeAt ms.mem st.kernelPd va = identityEntry st (pdIdx va) := h.entries.kernel _ hlow
    rw [hentry, (identityEntry_flags st _).2.2] at huser
    cases huser
  · have htable := tableAt_eq_some.mpr ⟨Nat.le_of_not_lt hlow, pdIdx_lt hva, hpde, rfl⟩
    rw [h.entries.rest] at htable
    cases htable

end Leases

end StakOS.Process
