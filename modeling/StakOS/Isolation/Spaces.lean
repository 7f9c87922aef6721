import Mathlib.Order.CompletePartialOrder
import StakOS.Isolation.Leases

/-!
# Address spaces that do not meet

When no program got a page below the identity window, the tables of the identity
map are as `paging_init` left them and the directories share nothing else.
-/

namespace StakOS.Process

open StakOS.Lib.Memory StakOS.Lib.Loop StakOS.Lib.Ownership StakOS.Paging

/-- The kernel's directory maps the identity window and nothing else. -/
structure IdentityMap (st : Statics) (m : Mem) : Prop where
  directory : ∀ i, i < identityPtCount → entry m st.kernelPd i = identityEntry st i
  tables : ∀ i j, i < identityPtCount → j < ptEntries →
    entry m (st.identityPts + 4096 * i) j = identityPage i j
  rest : ∀ i, tableAt m st.kernelPd i = none

structure Spaces (st : Statics) (pmm₀ : Pmm.State) (ms : Paging.State) (procs : List Nat)
    (fr : Nat → Frames) : Prop where
  kernel : KernelUsed st pmm₀
  kept : Pmm.usedFrames pmm₀ ⊆ Pmm.usedFrames ms.pmm
  tenure : Tenure (holdings ms.mem procs fr) (handedOut pmm₀ ms.pmm)
  low : ∀ p ∈ procs, ∀ i, i < identityPtCount → entry ms.mem (fr p).pd i = identityEntry st i
  identity : IdentityMap st ms.mem

/-- Address spaces are apart iff every frame has one holder and the window is closed. -/
theorem spaces_iff_leases {st : Statics} {pmm₀ : Pmm.State} {ms : Paging.State} {procs : List Nat}
    {fr : Nat → Frames} : Spaces st pmm₀ ms procs fr ↔ Leases True st pmm₀ ms procs fr := by
  constructor
  · intro h
    refine ⟨h.kernel, h.kept, h.tenure, ⟨h.identity.directory, h.identity.rest, fun p hp i hi => ?_,
      fun _ => ⟨h.low, h.identity.tables⟩⟩, fun i j hi hj huser => ?_⟩
    · rw [h.low p hp i hi]
      exact ⟨(identityEntry_flags st i).1, (identityEntry_flags st i).2.1⟩
    · rw [h.identity.tables i j hi hj, (identityPage_flags i j).2.2] at huser
      cases huser
  · intro h
    obtain ⟨hlow, htables⟩ := h.entries.intact trivial
    exact ⟨h.kernel, h.kept, h.tenure, hlow, h.entries.kernel, htables, h.entries.rest⟩

/-! ## The kernel's own directory -/

/-- Below the identity window an address means itself. -/
theorem IdentityMap.translate_eq {st : Statics} {m : Mem} {va : Nat} (h : IdentityMap st m)
    (hva : va < identityMappedBytes) : translate m st.kernelPd va = some va := by
  have hlow : pdIdx va < identityPtCount := pdIdx_low.mpr hva
  have hpde : pdeAt m st.kernelPd va = identityEntry st (pdIdx va) := h.directory _ hlow
  have hpresent : hasFlag (identityEntry st (pdIdx va)) ptePresent = true :=
    (identityEntry_flags st (pdIdx va)).1
  have hpte : pteAt m st.kernelPd va = identityPage (pdIdx va) (ptIdx va) := by
    unfold pteAt
    rw [hpde, (identityEntry_flags st (pdIdx va)).2.1]
    exact h.tables _ _ hlow (ptIdx_lt va)
  obtain ⟨hpage, hframe, -⟩ := identityPage_flags (pdIdx va) (ptIdx va)
  unfold Paging.translate bothHave
  rw [hpde, hpte, hpresent, hpage, hframe, if_pos (by decide), Option.some.injEq]
  unfold pdIdx ptIdx ptEntries Pmm.pageSize
  omega

/-! ## Directories that share only the identity tables -/

/-- The tables that all directories share. -/
def sharedTables (st : Statics) : Set Nat :=
  { a | ∃ i, i < identityPtCount ∧ a = st.identityPts + 4096 * i }

/-- A directory and its tables are among the frames `own`, but for the shared tables. -/
structure Confined (st : Statics) (ms : Paging.State) (pd : Nat) (own : Set Nat) : Prop where
  used : own ⊆ Pmm.usedFrames ms.pmm
  shared : sharedTables st ⊆ Pmm.usedFrames ms.pmm
  apart : Disjoint own (sharedTables st)
  directory : pd ∈ own
  table : ∀ i pt, tableAt ms.mem pd i = some pt → pt ∈ own
  walk : ∀ va, va < 2 ^ 32 → hasFlag (pdeAt ms.mem pd va) pdePresent = true →
    frameOf (pdeAt ms.mem pd va) ∈ sharedTables st ∪ own

/-- Mapping a page into one of two directories that share only the identity tables
leaves the other alone. -/
theorem Confined.mapInto {st : Statics} {ms ms' : Paging.State} {pd pd' : Nat}
    {own own' : Set Nat} (h : Confined st ms pd own) (h' : Confined st ms pd' own')
    (hdisj : Disjoint own own') {virt phys flags va : Nat} (hvirt : virt < 2 ^ 32)
    (hhigh : identityMappedBytes ≤ virt) (hmap : pagingMapInto ms pd virt phys flags = .ok ms')
    (hva : va < 2 ^ 32) :
    translate ms'.mem pd' va = translate ms.mem pd' va ∧
      userAccessible ms'.mem pd' va = userAccessible ms.mem pd' va := by
  have hforeign : ∀ a, a ∈ sharedTables st ∪ own' → a ∉ own := by
    intro a ha hown
    rcases ha with ha | ha
    · exact Set.disjoint_left.mp h.apart hown ha
    · exact Set.disjoint_left.mp hdisj hown ha
  have hpd' : pd' ∉ own := hforeign pd' (Or.inr h'.directory)
  apply pagingMapInto_other (h.used h.directory) hvirt hhigh hmap (h'.used h'.directory)
  · exact fun heq => hpd' (heq ▸ h.directory)
  · exact fun heq => hpd' (h.table _ _ heq)
  · exact hva
  · intro hpresent
    have hin := h'.walk va hva hpresent
    have hout := hforeign _ hin
    refine ⟨hin.elim (fun hs => h.shared hs) fun hown => h'.used hown, ?_, ?_⟩
    · exact fun heq => hout (heq ▸ h.directory)
    · exact fun heq => hout (h.table _ _ heq)

namespace Leases

variable {closed : Prop} {st : Statics} {pmm₀ : Pmm.State} {ms : Paging.State}
variable {procs : List Nat} {fr : Nat → Frames} {p : Nat}

theorem shared_used (h : Leases closed st pmm₀ ms procs fr) :
    sharedTables st ⊆ Pmm.usedFrames pmm₀ := by
  rintro a ⟨i, hi, rfl⟩
  exact kernelUsed_pts h.kernel hi

/-- The directory of a process is among the frames the process holds. -/
theorem confined (h : Leases closed st pmm₀ ms procs fr) (hp : p ∈ procs) :
    Confined st ms (fr p).pd (heldFrames ms.mem (fr p)) := by
  refine ⟨?_, fun a ha => h.kept (h.shared_used ha), ?_, ⟨.pd, rfl⟩, fun i pt hpt => ⟨.table i, hpt⟩, ?_⟩
  · rintro a ⟨sl, hsl⟩
    exact (h.slot_handedOut hp hsl).1
  · apply Set.disjoint_left.mpr
    rintro a ⟨sl, hsl⟩ ha
    exact h.slot_ne hp hsl (h.shared_used ha) rfl
  · intro va hva hpresent
    by_cases hlow : pdIdx va < identityPtCount
    · exact Or.inl ⟨_, hlow, (h.entries.low p hp _ hlow).2⟩
    · exact Or.inr ⟨.table (pdIdx va),
        tableAt_eq_some.mpr ⟨Nat.le_of_not_lt hlow, pdIdx_lt hva, hpresent, rfl⟩⟩

/-- The kernel's directory has no tables of its own. -/
theorem confined_kernel (h : Leases closed st pmm₀ ms procs fr) :
    Confined st ms st.kernelPd {st.kernelPd} := by
  refine ⟨?_, fun a ha => h.kept (h.shared_used ha), ?_, rfl, ?_, ?_⟩
  · rintro a rfl
    exact h.kept (kernelUsed_pd h.kernel)
  · apply Set.disjoint_left.mpr
    rintro a rfl ⟨i, hi, heq⟩
    have hapart := st.apart
    unfold identityPtCount at hi
    omega
  · intro i pt hpt
    rw [h.entries.rest] at hpt
    cases hpt
  · intro va hva hpresent
    by_cases hlow : pdIdx va < identityPtCount
    · have hentry : pdeAt ms.mem st.kernelPd va = identityEntry st (pdIdx va) :=
        h.entries.kernel _ hlow
      rw [hentry, (identityEntry_flags st _).2.1]
      exact Or.inl ⟨_, hlow, rfl⟩
    · have htable := tableAt_eq_some.mpr ⟨Nat.le_of_not_lt hlow, pdIdx_lt hva, hpresent, rfl⟩
      rw [h.entries.rest] at htable
      cases htable

end Leases

end StakOS.Process
