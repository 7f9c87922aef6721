import StakOS.Isolation.Rollback
import StakOS.Pmm.FirstFit

/-!
# Kernel stacks

`process_create` takes the two frames of a kernel stack with two calls of
`pmm_alloc_frame` and uses them as 8 KB below the end of the second one.  That
is the stack exactly if the frames lie side by side, which depends on which
frames happen to be free.
-/

namespace StakOS.Process

open StakOS.Lib.Memory StakOS.Lib.Loop StakOS.Lib.Ownership StakOS.Paging
open Relation (ReflTransGen)

/-- `STACK_SIZE`. -/
def stackSize : Nat := 8192

/-- The byte is one of the `STACK_SIZE` bytes below the top of the kernel stack. -/
def OnStack (b : Pcb) (x : Nat) : Prop := b.kernelStackTop ≤ x + stackSize ∧ x < b.kernelStackTop

/-- These bytes are the two frames of the stack. -/
def OwnsStack (b : Pcb) : Prop :=
  ∀ x, OnStack b x ↔ frameOf x = b.stackFrameLo ∨ frameOf x = b.stackFrameHi

/-- The stack has its two frames side by side and begins at their end. -/
structure Adjoining (i : Ident) : Prop where
  aligned : i.frames.lo % 4096 = 0
  next : i.frames.hi = i.frames.lo + 4096
  top : i.kernelStackTop = i.frames.lo + 8192

theorem Adjoining.ownsStack {b : Pcb} (h : Adjoining b.ident) : OwnsStack b := by
  have haligned : b.stackFrameLo % 4096 = 0 := h.aligned
  have hnext : b.stackFrameHi = b.stackFrameLo + 4096 := h.next
  have htop : b.kernelStackTop = b.stackFrameLo + 8192 := h.top
  intro x
  unfold OnStack stackSize frameOf
  omega

/-- The second and the third lowest free frame lie side by side.  The lowest one becomes
the page directory. -/
def SideBySide (s : Pmm.State) : Prop := ∃ a b rest, Pmm.freeList s = a :: b :: (b + 1) :: rest

/-! ## One call -/

theorem schedulerEnqueue_pcb {k : Kernel} {p : Nat} (hp : p ≠ 0) :
    (schedulerEnqueue k p).pcb p = { k.pcb p with state := .ready } := by
  unfold schedulerEnqueue
  rw [if_neg hp]
  simp only
  split
  · exact modPcb_pcb_self k p fun b => { b with state := .ready }
  · exact modPcb_pcb_self k p fun b => { b with state := .ready }

theorem procTableAdd_pcb (k : Kernel) (p : Nat) : (procTableAdd k p).1.pcb = k.pcb := by
  unfold procTableAdd
  split <;> rfl

/-- A process that is registered keeps its control block, but for the state. -/
theorem registerProcess_pcb {k k' : Kernel} {p r : Nat} (hp : p ≠ 0)
    (h : registerProcess k p = .ok (k', r)) (hr : r ≠ 0) :
    r = p ∧ k'.pcb p = { k.pcb p with state := .ready } := by
  unfold registerProcess at h
  obtain ⟨k₁, ok, hadd⟩ : ∃ k₁ ok, procTableAdd (schedulerEnqueue k p) p = (k₁, ok) := ⟨_, _, rfl⟩
  simp only [hadd] at h
  cases ok with
  | true =>
      cases h
      have hpcb := procTableAdd_pcb (schedulerEnqueue k p) p
      rw [hadd] at hpcb
      refine ⟨rfl, ?_⟩
      rw [← schedulerEnqueue_pcb hp]
      exact congrFun hpcb p
  | false =>
      obtain ⟨k₂, -, h⟩ := bind_eq_ok.mp h
      obtain ⟨heap, -, h⟩ := bind_eq_ok.mp h
      cases h
      exact absurd rfl hr

/-- Where the stack of a new process comes from: three calls of the frame allocator. -/
structure StackTaken (pmm : Pmm.State) (b : Pcb) (pmm₁ pmm₂ pmm₃ : Pmm.State) (pd : Nat) : Prop where
  directory : Pmm.pmmAllocFrame pmm = (pmm₁, pd)
  lo : Pmm.pmmAllocFrame pmm₁ = (pmm₂, b.stackFrameLo)
  hi : Pmm.pmmAllocFrame pmm₂ = (pmm₃, b.stackFrameHi)
  pd_pos : pd ≠ 0
  lo_pos : b.stackFrameLo ≠ 0
  hi_pos : b.stackFrameHi ≠ 0
  top : b.kernelStackTop = b.stackFrameHi + Pmm.pageSize

theorem buildProcess_stackTaken {img : Image} {k k' : Kernel} {p r start cr3 : Nat} (hp : p ≠ 0)
    (h : buildProcess img k p start cr3 = .ok (k', r)) (hr : r ≠ 0) :
    r = p ∧ ∃ pmm₂ pmm₃, Pmm.pmmAllocFrame k.ms.pmm = (pmm₂, (k'.pcb p).stackFrameLo) ∧
      Pmm.pmmAllocFrame pmm₂ = (pmm₃, (k'.pcb p).stackFrameHi) ∧ (k'.pcb p).stackFrameLo ≠ 0 ∧
      (k'.pcb p).stackFrameHi ≠ 0 ∧
      (k'.pcb p).kernelStackTop = (k'.pcb p).stackFrameHi + Pmm.pageSize := by
  obtain ⟨pmm₂, lo, hlo⟩ : ∃ pmm₂ lo, Pmm.pmmAllocFrame k.ms.pmm = (pmm₂, lo) := ⟨_, _, rfl⟩
  obtain ⟨pmm₃, hi, hhi⟩ : ∃ pmm₃ hi, Pmm.pmmAllocFrame pmm₂ = (pmm₃, hi) := ⟨_, _, rfl⟩
  unfold buildProcess at h
  simp only [hlo, hhi] at h
  by_cases hfail : lo = 0 ∨ hi = 0
  · rw [if_pos hfail] at h
    obtain ⟨heap, -, h⟩ := bind_eq_ok.mp h
    cases h
    exact absurd rfl hr
  · rw [if_neg hfail] at h
    obtain ⟨hlo0, hhi0⟩ := not_or.mp hfail
    obtain ⟨rfl, hpcb⟩ := registerProcess_pcb hp h hr
    have hgiven : (giveStack img { k with ms := ⟨pmm₃, k.ms.mem⟩ } r start lo hi).pcb r =
        { k.pcb r with
          stackFrameLo := lo
          stackFrameHi := hi
          kernelStackTop := hi + Pmm.pageSize
          esp := hi + Pmm.pageSize - 40 } := Function.update_self ..
    rw [hgiven] at hpcb
    rw [hpcb]
    exact ⟨rfl, pmm₂, pmm₃, hlo, hhi, hlo0, hhi0, rfl⟩

theorem processCreate_stackTaken {img : Image} {k k' : Kernel} {name : List UInt8}
    {start priority p : Nat} (h : processCreate img k name start priority = .ok (k', p))
    (hp : p ≠ 0) : ∃ pmm₁ pmm₂ pmm₃ pd, StackTaken k.ms.pmm (k'.pcb p) pmm₁ pmm₂ pmm₃ pd := by
  unfold processCreate at h
  obtain ⟨⟨heap, proc⟩, hret, h⟩ := bind_eq_ok.mp h
  simp only at h
  by_cases hproc : proc = 0
  · rw [if_pos hproc] at h
    cases h
    exact absurd rfl hp
  · rw [if_neg hproc] at h
    obtain ⟨ms, cr3, hpd⟩ : ∃ ms cr3, pagingCreateUserPd img.toStatics k.ms = (ms, cr3) :=
      ⟨_, _, rfl⟩
    simp only [setNext_ms, modPcb_ms, hpd] at h
    by_cases hcr3 : cr3 = 0
    · rw [if_pos hcr3] at h
      obtain ⟨heap', -, h⟩ := bind_eq_ok.mp h
      cases h
      exact absurd rfl hp
    · rw [if_neg hcr3] at h
      obtain ⟨halloc, -⟩ := pagingCreateUserPd_spec hpd hcr3
      obtain ⟨rfl, pmm₂, pmm₃, hlo, hhi, hlo0, hhi0, htop⟩ := buildProcess_stackTaken hproc h hp
      exact ⟨ms.pmm, pmm₂, pmm₃, cr3, halloc, hlo, hhi, hcr3, hlo0, hhi0, htop⟩

namespace StackTaken

variable {pmm pmm₁ pmm₂ pmm₃ : Pmm.State} {b : Pcb} {pd : Nat}

/-- The frames of the stack are the second and the third lowest free frame. -/
theorem freeList (h : StackTaken pmm b pmm₁ pmm₂ pmm₃ pd) :
    ∃ a lo hi, b.stackFrameLo = lo * 4096 ∧ b.stackFrameHi = hi * 4096 ∧ lo < hi ∧
      Pmm.freeList pmm = a :: lo :: hi :: Pmm.freeList pmm₃ := by
  obtain ⟨a, -, hpd⟩ := Pmm.freeList_alloc h.directory h.pd_pos
  obtain ⟨lo, hlo, hlist⟩ := Pmm.freeList_alloc h.lo h.lo_pos
  obtain ⟨hi, hhi, hlist'⟩ := Pmm.freeList_alloc h.hi h.hi_pos
  rw [hlist, hlist'] at hpd
  have hsorted := Pmm.freeList_pairwise pmm
  rw [hpd] at hsorted
  have hlt : lo < hi := List.rel_of_pairwise_cons (List.pairwise_cons.mp hsorted).2 (by simp)
  exact ⟨a, lo, hi, hlo, hhi, hlt, hpd⟩

theorem stacked (h : StackTaken pmm b pmm₁ pmm₂ pmm₃ pd) (hside : SideBySide pmm) :
    Adjoining b.ident := by
  obtain ⟨a, lo, hi, hlo, hhi, -, hlist⟩ := h.freeList
  obtain ⟨a', lo', rest, hlist'⟩ := hside
  rw [hlist] at hlist'
  obtain ⟨-, hlist'⟩ := List.cons_eq_cons.mp hlist'
  obtain ⟨rfl, hlist'⟩ := List.cons_eq_cons.mp hlist'
  obtain ⟨rfl, -⟩ := List.cons_eq_cons.mp hlist'
  have htop := h.top
  unfold Pmm.pageSize at htop
  constructor
  · change b.stackFrameLo % 4096 = 0
    omega
  · change b.stackFrameHi = b.stackFrameLo + 4096
    omega
  · change b.kernelStackTop = b.stackFrameLo + 8192
    omega

theorem ownsStack_iff (h : StackTaken pmm b pmm₁ pmm₂ pmm₃ pd) :
    OwnsStack b ↔ SideBySide pmm := by
  constructor
  · intro howns
    obtain ⟨a, lo, hi, hlo, hhi, hlt, hlist⟩ := h.freeList
    have htop := h.top
    unfold Pmm.pageSize at htop
    have hin := (howns b.stackFrameLo).mpr (Or.inl (by unfold frameOf; omega))
    unfold OnStack stackSize at hin
    have hnext : hi = lo + 1 := by omega
    exact ⟨a, lo, Pmm.freeList pmm₃, by rw [hlist, hnext]⟩
  · exact fun hside => (h.stacked hside).ownsStack

end StackTaken

/-! ## Runs -/

/-- The process that a call of `process_create_from_elf` adds is made by `process_create`. -/
theorem createFromElfAt_made {img : Image} {base priority r p : Nat} {k k' : Kernel}
    {q zs : List Nat} {name : List UInt8} {data : Mem} (h : Inv img k q zs)
    (hret : createFromElfAt img base k name data priority = .ok (k', r))
    (hp : p ∈ procsIn img k') (hnew : p ∉ procsIn img k) :
    ∃ k₁, processCreate img k name img.userModeTrampoline priority = .ok (k₁, p) ∧ p ≠ 0 ∧
      (k'.pcb p).ident = (k₁.pcb p).ident := by
  unfold createFromElfAt at hret
  cases hvalid : Elf.elf32Validate data with
  | none =>
      rw [hvalid] at hret
      cases hret
      exact absurd hp hnew
  | some entry =>
      rw [hvalid] at hret
      obtain ⟨k₁, p₁, hcall, hcreate⟩ := processCreate_inv h name img.userModeTrampoline priority
      simp only [hcall, bind_ok] at hret
      cases hcreate with
      | failed _ _ hinv =>
          rw [if_pos rfl] at hret
          cases hret
          rw [mem_procsIn hinv.toLists, ← mem_procsIn h.toLists] at hp
          exact absurd hp hnew
      | made hp₁ hidle hout hspares hinv =>
          rw [if_neg hp₁] at hret
          have hcur : k₁.current ≠ p₁ := by
            rw [hspares.current]
            exact fun hcp => hout (hcp ▸ List.mem_append_left zs h.current)
          obtain ⟨hload, -, -, hident⟩ := loadProcess_inv hinv (Ne.symm hidle) hcur hret
          have hmem : ∀ x, x ∈ procsIn img k' → x = p₁ ∨ x ∈ procsIn img k := by
            intro x hx
            rw [mem_procsIn h.toLists]
            cases hload with
            | loaded hinv' =>
                obtain ⟨hx, hxi⟩ := (mem_procsIn hinv'.toLists).mp hx
                simp only [List.mem_append, List.mem_singleton] at hx ⊢
                tauto
            | abandoned hinv' =>
                obtain ⟨hx, hxi⟩ := (mem_procsIn hinv'.toLists).mp hx
                simp only [List.mem_append, List.mem_cons] at hx ⊢
                tauto
          cases (hmem p hp).resolve_right hnew
          exact ⟨k₁, hcall, hp₁, hident⟩

section Ends

variable {img : Image} {base : Nat} {k k' : Kernel} {q zs : List Nat} {e : Event} {p : Nat}

/-- Fewer processes: none is new. -/
theorem procsIn_of_subset {q' zs' : List Nat} (h : Lists img k q zs) (h' : Lists img k' q' zs')
    (hsub : q' ++ zs' ⊆ q ++ zs) (hp : p ∈ procsIn img k') : p ∈ procsIn img k := by
  obtain ⟨hp, hidle⟩ := (mem_procsIn h').mp hp
  exact (mem_procsIn h).mpr ⟨hsub hp, hidle⟩

/-- A new process was made by `process_create`, on the memory at the start of the event. -/
theorem Event.Ends.new (hends : e.Ends img base k q zs k') (h : Inv img k q zs)
    (hp : p ∈ procsIn img k') (hnew : p ∉ procsIn img k) :
    ∃ k₁ name start priority, processCreate img k name start priority = .ok (k₁, p) ∧ p ≠ 0 ∧
      (k'.pcb p).ident = (k₁.pcb p).ident := by
  cases hends with
  | @create _ name start priority r hret hcreate =>
      cases hcreate with
      | failed _ _ hinv =>
          exact absurd (procsIn_of_subset h.toLists hinv.toLists (List.Subset.refl _) hp) hnew
      | made hr hidle hout hspares hinv =>
          obtain ⟨hmem, hpi⟩ := (mem_procsIn hinv.toLists).mp hp
          have hpr : p = r := by
            by_contra hne
            apply hnew
            rw [mem_procsIn h.toLists]
            simp only [List.mem_append, List.mem_singleton] at hmem ⊢
            tauto
          cases hpr
          exact ⟨k', name, start, priority, hret, hr, rfl⟩
  | @createElf _ name data priority r hret hcreate =>
      obtain ⟨k₁, hcall, hp0, hident⟩ := createFromElfAt_made h hret hp hnew
      exact ⟨k₁, name, img.userModeTrampoline, priority, hcall, hp0, hident⟩
  | @tick k₁ _ q' zs' ps _ hzs hq hreaped hmoves hinv =>
      apply absurd (procsIn_of_subset h.toLists hinv.toLists _ hp) hnew
      apply List.append_subset.mpr
      exact ⟨fun x hx => List.mem_append_left zs (hq.subset hx),
        fun x hx => List.mem_append_right q (hzs.symm.subset (List.mem_append_right ps hx))⟩
  | yield hinv hq hmoves =>
      exact absurd (procsIn_of_subset h.toLists hinv.toLists (hq.append_right zs).subset hp) hnew
  | exit hinv hprocs hmoves =>
      exact absurd (procsIn_of_subset h.toLists hinv.toLists hprocs.subset hp) hnew
  | work mem => exact absurd hp hnew

/-- The other processes keep their stacks. -/
theorem Event.Ends.ident (hends : e.Ends img base k q zs k') (h : Inv img k q zs)
    (hp : p ∈ procsIn img k) : (k'.pcb p).ident = (k.pcb p).ident := by
  obtain ⟨hmem, -⟩ := (mem_procsIn h.toLists).mp hp
  have hspared : ∀ {p₀ : Nat} {k₁ : Kernel}, p₀ ∉ q ++ zs → Spares p₀ k k₁ →
      (k₁.pcb p).ident = (k.pcb p).ident := by
    intro p₀ k₁ hout hspares
    rw [hspares.pcb p fun heq => hout (heq ▸ hmem)]
  cases hends with
  | create hret hcreate =>
      cases hcreate with
      | failed hout hspares => exact hspared hout hspares
      | made _ _ hout hspares => exact hspared hout hspares
  | createElf hret hcreate =>
      cases hcreate with
      | invalid => rfl
      | notCreated hcreate =>
          cases hcreate with
          | failed hout hspares => exact hspared hout hspares
          | made _ _ hout hspares => exact hspared hout hspares
      | created _ hp₀ hcreate hload hspares =>
          cases hcreate with
          | failed => exact absurd rfl hp₀
          | made _ _ hout hspares₁ => exact hspared hout (hspares₁.trans hspares)
  | tick hzs hq hreaped hmoves hinv => exact (hreaped.keeps.trans hmoves.toKeeps).ident p
  | yield hinv hq hmoves => exact hmoves.ident p
  | exit hinv hprocs hmoves => exact hmoves.ident p
  | work mem => rfl

end Ends

/-- Every process has a stack of two frames side by side. -/
def AllAdjoining (img : Image) (k : Kernel) : Prop := ∀ p ∈ procsIn img k, Adjoining (k.pcb p).ident

/-- A step of the kernel; if it makes a process, the frames for the stack lie side by
side. -/
structure Fitting (img : Image) (pmm₀ : Pmm.State) (s s' : Machine) : Prop where
  activity : Activity img pmm₀ s s'
  fits : (∃ p ∈ procsIn img s'.kernel, p ∉ procsIn img s.kernel) → SideBySide s.kernel.ms.pmm

theorem Fitting.allAdjoining {img : Image} {pmm₀ : Pmm.State} {s s' : Machine} {q zs : List Nat}
    (hstep : Fitting img pmm₀ s s') (h : MachineInv img s q zs)
    (hadjoining : AllAdjoining img s.kernel) : AllAdjoining img s'.kernel := by
  intro p hp
  cases hstep.activity with
  | event hact =>
      obtain ⟨e, -, henabled, hrun⟩ := hact
      have hends := Event.ends h.inv h.idlePid henabled hrun
      by_cases hold : p ∈ procsIn img s.kernel
      · have hident := hends.ident h.inv hold
        exact hident ▸ hadjoining p hold
      · obtain ⟨k₁, name, start, priority, hcall, hp0, hident⟩ := hends.new h.inv hp hold
        obtain ⟨pmm₁, pmm₂, pmm₃, pd, htaken⟩ := processCreate_stackTaken hcall hp0
        exact hident ▸ htaken.stacked (hstep.fits ⟨p, hp, hold⟩)
  | kmalloc => exact hadjoining p hp
  | kfree => exact hadjoining p hp
  | allocFrame => exact hadjoining p hp
  | freeFrame => exact hadjoining p hp

theorem run_fitting {img : Image} (b : Boot img) {s : Machine}
    (hrun : ReflTransGen (Fitting img b.pmm₀) b.machine s) :
    (∃ q zs, MachineInv img s q zs) ∧ LeaseInv False img b.pmm₀ s.kernel ∧
      AllAdjoining img s.kernel := by
  induction hrun with
  | refl =>
      refine ⟨⟨_, _, boot_machineInv b⟩, boot_leaseInv b False, fun p hp => ?_⟩
      obtain ⟨hmem, hidle⟩ := (mem_procsIn (boot_inv b).toLists).mp hp
      exact absurd (List.mem_singleton.mp (by simpa using hmem)) hidle
  | tail _ hstep ih =>
      obtain ⟨⟨q, zs, hinv⟩, hleases, hadjoining⟩ := ih
      obtain ⟨hinv', hleases'⟩ := hstep.activity.keeps hinv hleases
      exact ⟨hinv', hleases', hstep.allAdjoining hinv hadjoining⟩

/-- The stack of `p` is its two frames, and nobody else has a byte of it: no other stack, no
frame of another process, none that was in use at boot, none that the kernel took for
itself. -/
structure OwnStack (img : Image) (pmm₀ : Pmm.State) (k : Kernel) (p : Nat) : Prop where
  owns : OwnsStack (k.pcb p)
  apart : ∀ p' ∈ procsIn img k, p' ≠ p → ∀ x, OnStack (k.pcb p) x → ¬OnStack (k.pcb p') x
  notHeld : ∀ p' ∈ procsIn img k, p' ≠ p → ∀ x, OnStack (k.pcb p) x →
    frameOf x ∉ heldFrames k.ms.mem (framesOf k p')
  notBoot : ∀ x, OnStack (k.pcb p) x → frameOf x ∉ Pmm.usedFrames pmm₀
  notLoose : ∀ x, OnStack (k.pcb p) x → ¬Loose img pmm₀ k (frameOf x)

theorem AllAdjoining.ownStack {img : Image} {pmm₀ : Pmm.State} {k : Kernel} {p : Nat}
    (h : AllAdjoining img k) (hleases : LeaseInv False img pmm₀ k) (hp : p ∈ procsIn img k) :
    OwnStack img pmm₀ k p := by
  have howns := (h p hp).ownsStack
  -- A byte of the stack lies in a frame that `p` holds.
  have hslot : ∀ x, OnStack (k.pcb p) x → ∃ sl, slots k.ms.mem (framesOf k p) sl =
      some (frameOf x) := by
    intro x hx
    rcases (howns x).mp hx with hlo | hhi
    · exact ⟨.lo, congrArg some hlo.symm⟩
    · exact ⟨.hi, congrArg some hhi.symm⟩
  have hheld : ∀ p' ∈ procsIn img k, p' ≠ p → ∀ x, OnStack (k.pcb p) x →
      frameOf x ∉ heldFrames k.ms.mem (framesOf k p') := by
    rintro p' hp' hne x hx ⟨sl', hsl'⟩
    obtain ⟨sl, hsl⟩ := hslot x hx
    exact hne (hleases.leases.slot_unique hp' hp hsl' hsl).1
  refine ⟨howns, fun p' hp' hne x hx hx' => ?_, hheld, fun x hx hboot => ?_, fun x hx hloose => ?_⟩
  · apply hheld p' hp' hne x hx
    rcases ((h p' hp').ownsStack x).mp hx' with hlo | hhi
    · exact ⟨.lo, congrArg some hlo.symm⟩
    · exact ⟨.hi, congrArg some hhi.symm⟩
  · obtain ⟨sl, hsl⟩ := hslot x hx
    exact (hleases.leases.slot_handedOut hp hsl).2 hboot
  · exact hloose.notHeld p hp (hslot x hx)

/-- A call of `process_create` that succeeds gives the process the 8 KB below its stack
pointer exactly if the second and third lowest free frames lie side by side; if all calls
find them so, every process owns its stack at all times. -/
theorem kernel_stack_owned_iff (img : Image) :
    (∀ k k' name start priority p, processCreate img k name start priority = .ok (k', p) →
      p ≠ 0 → (OwnsStack (k'.pcb p) ↔ SideBySide k.ms.pmm)) ∧
    ∀ (b : Boot img) s, ReflTransGen (Fitting img b.pmm₀) b.machine s →
      ∀ p ∈ procsIn img s.kernel, OwnStack img b.pmm₀ s.kernel p := by
  constructor
  · intro k k' name start priority p hcall hp
    obtain ⟨pmm₁, pmm₂, pmm₃, pd, htaken⟩ := processCreate_stackTaken hcall hp
    exact htaken.ownsStack_iff
  · intro b s hrun p hp
    obtain ⟨-, hleases, hadjoining⟩ := run_fitting b hrun
    exact hadjoining.ownStack hleases hp

theorem kernel_stack_owned_iff_first :
    ∃ k' p, processCreate sampleImage sampleBoot.kernel [] 0x103000 1 = .ok (k', p) ∧
      OwnStack sampleImage sampleBoot.pmm₀ k' p := by
  have heval : returnsWith (processCreate sampleImage sampleBoot.kernel [] 0x103000 1) (fun r =>
      decide (r.2 ≠ 0 ∧ (r.1.pcb r.2).stackFrameLo % 4096 = 0 ∧
        (r.1.pcb r.2).stackFrameHi = (r.1.pcb r.2).stackFrameLo + 4096 ∧
        (r.1.pcb r.2).kernelStackTop = (r.1.pcb r.2).stackFrameLo + 8192)) = true := by
    decide +kernel
  obtain ⟨k', p, hcall, hcreate⟩ := processCreate_inv (boot_inv sampleBoot) [] 0x103000 1
  rw [hcall] at heval
  obtain ⟨hp0, haligned, hnext, htop⟩ := of_decide_eq_true heval
  have howns : OwnsStack (k'.pcb p) := Adjoining.ownsStack ⟨haligned, hnext, htop⟩
  have hside := ((kernel_stack_owned_iff sampleImage).1 _ _ _ _ _ _ hcall hp0).mp howns
  have hrun : (Event.create [] 0x103000 1).run sampleImage userStackBase sampleBoot.kernel =
      .ok k' := by
    simp only [Event.run, hcall]
    rfl
  have hstep : Fitting sampleImage sampleBoot.pmm₀ sampleBoot.machine
      (sampleBoot.machine.after (.create [] 0x103000 1) k') :=
    ⟨.event (.mk (.create [] 0x103000 1) trivial trivial hrun), fun _ => hside⟩
  cases hcreate with
  | failed => exact absurd rfl hp0
  | made hp hidle hnew hspares hinv =>
      have hmem : p ∈ procsIn sampleImage k' :=
        (mem_procsIn hinv.toLists).mpr ⟨by simp, hidle⟩
      exact ⟨k', p, hcall, (kernel_stack_owned_iff sampleImage).2 sampleBoot _ (.single hstep) p hmem⟩

/-- All frames from 4 MB on are free but for one page of a memory hole. -/
def holeBoot : Boot sampleImage where
  pmm := ⟨fun w => if w < 32 then 0xFFFFFFFF#32 else if w = 32 then 0x8#32 else 0#32, 32768, 31743⟩
  mem := fun _ => 0
  pcb := fun _ => Pcb.zero
  next := fun _ => 0
  heapPages := 1
  kernelUsed := sampleImage_used fun _ hw => if_pos hw
  pdZero := blank_pdZero

/-- The heap has the first free frame and the page directory the second.  The stack gets the
frames on both sides of the hole, and its lower half is the hole. -/
theorem stack_over_a_hole :
    ∃ k' p, processCreate sampleImage holeBoot.kernel [] 0x103000 1 = .ok (k', p) ∧ p ≠ 0 ∧
      OnStack (k'.pcb p) 0x403000 ∧ frameOf 0x403000 ≠ (k'.pcb p).stackFrameLo ∧
      frameOf 0x403000 ≠ (k'.pcb p).stackFrameHi ∧
      Pmm.frameTest holeBoot.kernel.ms.pmm (0x403000 / 4096) = true := by
  have heval : returnsWith (processCreate sampleImage holeBoot.kernel [] 0x103000 1) (fun r =>
      decide (r.2 ≠ 0 ∧ (r.1.pcb r.2).stackFrameLo = 0x402000 ∧
        (r.1.pcb r.2).stackFrameHi = 0x404000 ∧ (r.1.pcb r.2).kernelStackTop = 0x405000 ∧
        Pmm.frameTest holeBoot.kernel.ms.pmm (0x403000 / 4096) = true)) = true := by decide +kernel
  obtain ⟨⟨k', p⟩, hcall, htest⟩ := returnsWith_iff.mp heval
  obtain ⟨hp, hlo, hhi, htop, hused⟩ := of_decide_eq_true htest
  dsimp only at hlo hhi htop
  refine ⟨k', p, hcall, hp, ?_, ?_, ?_, hused⟩
  · unfold OnStack stackSize
    rw [htop]
    decide
  · rw [hlo]
    decide
  · rw [hhi]
    decide

end StakOS.Process
