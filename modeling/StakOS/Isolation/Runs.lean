import StakOS.Isolation.Boot

/-!
# Isolation over whole runs

In every run each frame keeps to one holder.  As long as nothing is mapped below
the identity window, the address spaces of the processes stay apart and the
identity map stays as it was.
-/

namespace StakOS.Process

open StakOS.Lib.Memory StakOS.Lib.Loop StakOS.Lib.Ownership StakOS.Paging
open Relation (ReflTransGen)

/-! ## Processes and what they may write -/

/-- The processes in the table other than idle. -/
def procsIn (img : Image) (k : Kernel) : List Nat :=
  ((List.range maxProcesses).map k.procTable).filter fun p =>
    decide (p ≠ 0) && decide (p ≠ img.idlePcb)

def framesOf (k : Kernel) (p : Nat) : Frames := (k.pcb p).frames

theorem mem_procsIn {img : Image} {k : Kernel} {q zs : List Nat} (h : Lists img k q zs) {p : Nat} :
    p ∈ procsIn img k ↔ p ∈ q ++ zs ∧ p ≠ img.idlePcb := by
  unfold procsIn
  rw [List.mem_filter, List.mem_map, Bool.and_eq_true, decide_eq_true_eq, decide_eq_true_eq]
  constructor
  · rintro ⟨⟨i, hi, hip⟩, hp, hidle⟩
    exact ⟨(h.table p hp).mp ⟨i, List.mem_range.mp hi, hip⟩, hidle⟩
  · rintro ⟨hp, hidle⟩
    have hne : p ≠ 0 := fun h0 => h.zero_notMem (h0 ▸ hp)
    obtain ⟨i, hi, hip⟩ := (h.table p hne).mpr hp
    exact ⟨⟨i, List.mem_range.mpr hi, hip⟩, hne, hidle⟩

/-- The running process may change a byte: ring 3 can write it through the loaded
directory, it lies on the process's kernel stack, or it is kernel data other than
the tables of the identity map. -/
def MayWrite (img : Image) (k : Kernel) (x : Nat) : Prop :=
  (∃ va, va < 2 ^ 32 ∧ userWritable k.ms.mem k.cr3 va = true ∧
    frameOf (pteAt k.ms.mem k.cr3 va) = frameOf x) ∨
  frameOf x = (k.pcb k.current).stackFrameLo ∨ frameOf x = (k.pcb k.current).stackFrameHi ∨
  (x < img.kernelEnd ∧ frameOf x ≠ img.kernelPd ∧
    ∀ i, i < identityPtCount → frameOf x ≠ img.identityPts + 4096 * i)

/-- The events of a machine whose loader keeps out of the identity window. -/
def Contained (img : Image) (base : Nat) (k : Kernel) : Event → Prop
  | .createElf _ data _ => ∀ va ∈ pagesMapped base k data, identityMappedBytes ≤ va
  | .work mem => ∀ x, mem x ≠ k.ms.mem x → MayWrite img k x
  | _ => True

/-- The events of any machine: processes run within their rights.  With a closed window
the loader keeps out of it. -/
def Permitted (closed : Prop) (img : Image) (base : Nat) (k : Kernel) : Event → Prop
  | .createElf _ data _ => closed → ∀ va ∈ pagesMapped base k data, identityMappedBytes ≤ va
  | .work mem => ∀ x, mem x ≠ k.ms.mem x → MayWrite img k x
  | _ => True

theorem Contained.permitted {img : Image} {base : Nat} {k : Kernel} {e : Event}
    (h : Contained img base k e) : Permitted True img base k e := by
  cases e with
  | createElf name data priority => exact fun _ => h
  | work mem => exact h
  | _ => trivial

/-! ## The invariant -/

/-- Every frame has one holder, and idle has none but the kernel's directory. -/
structure LeaseInv (closed : Prop) (img : Image) (pmm₀ : Pmm.State) (k : Kernel) : Prop where
  leases : Leases closed img.toStatics pmm₀ k.ms (procsIn img k) (framesOf k)
  idleFrames : (k.pcb img.idlePcb).frames = ⟨img.kernelPd, 0, 0⟩

theorem boot_leaseInv {img : Image} (b : Boot img) (closed : Prop) :
    LeaseInv closed img b.pmm₀ b.kernel := by
  constructor
  · refine (boot_leases b closed (framesOf b.kernel)).fewer ?_
    intro p hp
    have hin := (mem_procsIn (boot_inv b).toLists).mp hp
    simp [hin.2] at hin
  · rw [boot_kernel_eq]
    simp only [Function.update_self]
    unfold Pcb.frames idleControlBlock Boot.bare
    simp only [Function.update_self]
    rfl

section Steps

variable {closed : Prop} {img : Image} {pmm₀ : Pmm.State} {k k' : Kernel}
variable {q zs q' zs' : List Nat}

/-- Nothing but the order of the lists changed. -/
theorem LeaseInv.keeps (h : LeaseInv closed img pmm₀ k) (hinv : Lists img k q zs)
    (hinv' : Lists img k' q' zs') (hsub : q' ++ zs' ⊆ q ++ zs) (hkeeps : Keeps k k')
    (hms : k'.ms = k.ms) : LeaseInv closed img pmm₀ k' := by
  have hframes : ∀ p, framesOf k' p = framesOf k p := fun p =>
    congrArg Ident.frames (hkeeps.ident p)
  refine ⟨?_, (hframes _).trans h.idleFrames⟩
  rw [hms]
  refine (h.leases.fewer fun p hp => ?_).frames_congr fun p _ => hframes p
  obtain ⟨hin, hidle⟩ := (mem_procsIn hinv').mp hp
  exact (mem_procsIn hinv).mpr ⟨hsub hin, hidle⟩

theorem LeaseInv.reaped {k₁ : Kernel} {ps : List Nat} (h : LeaseInv closed img pmm₀ k)
    (hinv : Inv img k q zs) (hzs : zs.Perm (ps ++ zs')) (hq : q'.Perm q)
    (hreaped : Reaped k ps k₁) (hmoves : Moves k₁ k') (hinv' : Inv img k' q' zs') :
    LeaseInv closed img pmm₀ k' := by
  have hframes : ∀ p, framesOf k' p = framesOf k p := fun p => by
    have hident := (hreaped.keeps.trans hmoves.toKeeps).ident p
    exact congrArg Ident.frames hident
  have hnodup : (ps ++ zs').Nodup := hzs.nodup_iff.mp (List.nodup_append.mp hinv.nodup).2.1
  have hzombie : ∀ p ∈ ps, p ∈ zs := fun p hp => hzs.symm.subset (List.mem_append_left zs' hp)
  have hidle : ∀ p ∈ zs, p ≠ img.idlePcb := fun p hp hpi =>
    hinv.notMem_zombies hinv.idle (hpi ▸ hp)
  refine ⟨?_, (hframes _).trans h.idleFrames⟩
  rw [hmoves.ms, hreaped.ms]
  refine Leases.frames_congr ?_ fun p _ => hframes p
  refine h.leases.releaseAll ?_ (List.nodup_append.mp hnodup).1 ?_
  · intro p hp
    have hpz := hzombie p hp
    exact (mem_procsIn hinv.toLists).mpr ⟨List.mem_append_right q hpz, hidle p hpz⟩
  · intro p hp
    obtain ⟨hin, hpi⟩ := (mem_procsIn hinv'.toLists).mp hp
    rcases List.mem_append.mp hin with hpq | hpz
    · have hpq' := hq.subset hpq
      refine ⟨(mem_procsIn hinv.toLists).mpr ⟨List.mem_append_left zs hpq', hpi⟩, fun hps => ?_⟩
      exact hinv.notMem_zombies hpq' (hzombie p hps)
    · have hpz' : p ∈ zs := hzs.symm.subset (List.mem_append_right ps hpz)
      refine ⟨(mem_procsIn hinv.toLists).mpr ⟨List.mem_append_right q hpz', hpi⟩, fun hps => ?_⟩
      exact (List.nodup_append.mp hnodup).2.2 p hps p hpz rfl

/-- A creation that failed. -/
theorem LeaseInv.notMade {p start : Nat} (h : LeaseInv closed img pmm₀ k) (hinv : Lists img k q zs)
    (hinv' : Lists img k' q zs) (hnew : p ∉ q ++ zs) (hspares : Spares p k k')
    (hbuilt : Built img start k none k'.ms) : LeaseInv closed img pmm₀ k' := by
  have hb := hbuilt.failed h.leases.zero_used
  have hidle : img.idlePcb ≠ p := fun hip => hnew (hip ▸ List.mem_append_left zs hinv.idle)
  have hsame : Leases closed img.toStatics pmm₀ k'.ms (procsIn img k) (framesOf k) :=
    h.leases.rewrite hb.same (fun a ha hout => hout (h.leases.wired_used ha)) hb.used.ge
  constructor
  · refine (hsame.fewer fun x hx => ?_).frames_congr fun x hx => ?_
    · exact (mem_procsIn hinv).mpr ((mem_procsIn hinv').mp hx)
    · have hin := ((mem_procsIn hinv').mp hx).1
      exact congrArg Pcb.frames (hspares.pcb x fun hxp => hnew (hxp ▸ hin))
  · rw [hspares.pcb _ hidle]
    exact h.idleFrames

/-- A creation that succeeded. -/
theorem LeaseInv.made {p start : Nat} (h : LeaseInv closed img pmm₀ k) (hinv : Lists img k q zs)
    (hinv' : Lists img k' (q ++ [p]) zs) (hnew : p ∉ q ++ zs) (hspares : Spares p k k')
    (hbuilt : Built img start k (some (k'.pcb p).frames) k'.ms) : LeaseInv closed img pmm₀ k' := by
  have hidle : img.idlePcb ≠ p := fun hip => hnew (hip ▸ List.mem_append_left zs hinv.idle)
  have hout : p ∉ procsIn img k := fun hin => hnew ((mem_procsIn hinv).mp hin).1
  constructor
  · refine ((h.leases.create hbuilt.ok hout).fewer fun x hx => ?_).frames_congr fun x _ => ?_
    · obtain ⟨hin, hxi⟩ := (mem_procsIn hinv').mp hx
      by_cases hxp : x = p
      · rw [hxp]
        exact List.mem_cons_self
      · refine List.mem_cons_of_mem p ((mem_procsIn hinv).mpr ⟨?_, hxi⟩)
        simpa [hxp] using hin
    · by_cases hxp : x = p
      · rw [hxp, Function.update_self]
        rfl
      · rw [Function.update_of_ne hxp]
        exact congrArg Pcb.frames (hspares.pcb x hxp)
  · rw [hspares.pcb _ hidle]
    exact h.idleFrames

/-- The frames behind the bytes that a process changed are not read as tables. -/
theorem LeaseInv.mayWrite (h : LeaseInv closed img pmm₀ k) (hinv : SchedInv img k q zs) {x : Nat}
    (hx : MayWrite img k x) : frameOf x ∉ wired img.toStatics k.ms.mem (procsIn img k) (framesOf k) := by
  have hleases := h.leases
  have hcr3 := hinv.cr3
  have hkernel : frameOf x ∈ Pmm.usedFrames pmm₀ → frameOf x ≠ img.kernelPd →
      (∀ i, i < identityPtCount → frameOf x ≠ img.identityPts + 4096 * i) →
      frameOf x ∉ wired img.toStatics k.ms.mem (procsIn img k) (framesOf k) := by
    intro hused hpd hpts
    rintro (heq | ⟨i, hi, heq⟩ | ⟨p, hp, heq | ⟨i, hi⟩⟩)
    · exact hpd heq
    · exact hpts i hi heq
    · have hsl : slots k.ms.mem (framesOf k p) .pd = some (framesOf k p).pd := rfl
      exact hleases.slot_ne hp hsl hused heq.symm
    · have hsl : slots k.ms.mem (framesOf k p) (.table i) = some (frameOf x) := hi
      exact hleases.slot_ne hp hsl hused rfl
  by_cases hidle : k.current = img.idlePcb
  · -- idle has no page of its own, and its stack is in the kernel image
    have hframes := h.idleFrames
    rw [← hidle] at hframes
    have hkpd : k.cr3 = img.kernelPd := hcr3.trans (congrArg Frames.pd hframes)
    have hzero : frameOf x = 0 →
        frameOf x ∉ wired img.toStatics k.ms.mem (procsIn img k) (framesOf k) := by
      intro h0
      have hpd := img.kernelPd_pos
      have hpts := img.identityPts_pos
      rw [h0] at hkernel ⊢
      exact hkernel (kernelUsed_zero hleases.kernel) (by omega) fun i _ => by omega
    rcases hx with ⟨va, hva, hacc, -⟩ | hlo | hhi | ⟨hlt, hpd, hpts⟩
    · unfold userWritable at hacc
      rw [hkpd, hleases.kernel_not_user hva, Bool.false_and] at hacc
      cases hacc
    · exact hzero (hlo.trans (congrArg Frames.lo hframes))
    · exact hzero (hhi.trans (congrArg Frames.hi hframes))
    · exact hkernel (hleases.kernel _ (frameOf_aligned x) ((frameOf_le x).trans_lt hlt)) hpd hpts
  · have hp : k.current ∈ procsIn img k :=
      (mem_procsIn hinv.toLists).mpr ⟨List.mem_append_left zs hinv.current, hidle⟩
    rcases hx with ⟨va, hva, hacc, hframe⟩ | hlo | hhi | ⟨hlt, hpd, hpts⟩
    · unfold userWritable at hacc
      rw [hcr3, Bool.and_eq_true] at hacc
      rw [← hframe, hcr3]
      rcases hleases.user_page hp hva hacc.1 with ⟨i, j, hsl⟩ | ⟨-, hlost⟩
      · exact hleases.slot_notWired hp hsl (by simp) (by simp)
      · exact hleases.lost_notWired hlost
    · have hsl : slots k.ms.mem (framesOf k k.current) .lo = some (frameOf x) := congrArg some hlo.symm
      exact hleases.slot_notWired hp hsl (by simp) (by simp)
    · have hsl : slots k.ms.mem (framesOf k k.current) .hi = some (frameOf x) := congrArg some hhi.symm
      exact hleases.slot_notWired hp hsl (by simp) (by simp)
    · exact hkernel (hleases.kernel _ (frameOf_aligned x) ((frameOf_le x).trans_lt hlt)) hpd hpts

/-- A process ran. -/
theorem LeaseInv.work {mem : Mem} (h : LeaseInv closed img pmm₀ k) (hinv : SchedInv img k q zs)
    (hconfined : ∀ x, mem x ≠ k.ms.mem x → MayWrite img k x) :
    LeaseInv closed img pmm₀ { k with ms := ⟨k.ms.pmm, mem⟩ } := by
  refine ⟨?_, h.idleFrames⟩
  have hsame : SameOff { a | ∃ x, frameOf x = a ∧ mem x ≠ k.ms.mem x } k.ms.mem mem := by
    intro x hx
    by_contra hne
    exact hx ⟨x, rfl, hne⟩
  refine h.leases.rewrite hsame ?_ subset_rfl
  rintro a ha ⟨x, rfl, hne⟩
  exact h.mayWrite hinv (hconfined x hne) ha

theorem LeaseInv.creates {start r : Nat} (h : LeaseInv closed img pmm₀ k) (hinv : Inv img k q zs)
    (hcreate : Creates img start k q zs k' r) : LeaseInv closed img pmm₀ k' := by
  cases hcreate with
  | failed hnew hspares hinv' _ hbuilt => exact h.notMade hinv.toLists hinv'.toLists hnew hspares hbuilt
  | made _ _ hnew hspares hinv' _ _ hbuilt =>
      exact h.made hinv.toLists hinv'.toLists hnew hspares hbuilt

/-- A program was loaded, with a closed window above it. -/
theorem LeaseInv.createsElf {base r : Nat} {data : Mem} (hbase : StackBase base)
    (h : LeaseInv closed img pmm₀ k) (hinv : Inv img k q zs)
    (hhigh : closed → ∀ va ∈ pagesMapped base k data, identityMappedBytes ≤ va)
    (hcreate : CreatesElf img base data k q zs k' r) : LeaseInv closed img pmm₀ k' := by
  cases hcreate with
  | invalid => exact h
  | notCreated hcreate => exact h.creates hinv hcreate
  | @created k₁ k' p r hvalid hp hcreate hload hspares hpid hident =>
      cases hcreate with
      | failed => exact absurd rfl hp
      | made _ hidle hnew hspares₁ hinv₁ _ _ hbuilt =>
          have h₁ : LeaseInv closed img pmm₀ k₁ :=
            h.made hinv.toLists hinv₁.toLists hnew hspares₁ hbuilt
          have hp₁ : p ∈ procsIn img k₁ := (mem_procsIn hinv₁.toLists).mpr ⟨by simp, hidle⟩
          obtain ⟨ok, hloads, -⟩ := hload.loads
          obtain ⟨as, hmaps⟩ := hloads.maps
          have hpages := pagesMapped_eq hbase hvalid hbuilt.ok (h₁.leases.pdOk hp₁)
            h₁.leases.zero_used hmaps
          have hleases : Leases closed img.toStatics pmm₀ k'.ms (procsIn img k₁) (framesOf k₁) :=
            h₁.leases.maps hp₁ hmaps (fun va hva => (programPages_ok hbase hva).2) (hpages ▸ hhigh)
          have hframes : ∀ x, framesOf k' x = framesOf k₁ x := by
            intro x
            by_cases hxp : x = p
            · rw [hxp]
              exact congrArg Ident.frames hident
            · exact congrArg Pcb.frames (hspares.pcb x hxp)
          refine ⟨(hleases.fewer fun x hx => ?_).frames_congr fun x _ => hframes x,
            (hframes _).trans h₁.idleFrames⟩
          cases hload with
          | loaded hinv' _ => exact (mem_procsIn hinv₁.toLists).mpr ((mem_procsIn hinv'.toLists).mp hx)
          | abandoned hinv' _ =>
              obtain ⟨hin, hxi⟩ := (mem_procsIn hinv'.toLists).mp hx
              refine (mem_procsIn hinv₁.toLists).mpr ⟨?_, hxi⟩
              simpa using hin

end Steps

/-- Every step keeps every frame with its holder. -/
theorem Step.leases {closed : Prop} {img : Image} {base : Nat} {pmm₀ : Pmm.State} {s s' : Machine}
    {q zs : List Nat} (hbase : StackBase base)
    (hstep : Step img base (Permitted closed img base) s s') (h : MachineInv img s q zs)
    (hleases : LeaseInv closed img pmm₀ s.kernel) : LeaseInv closed img pmm₀ s'.kernel := by
  obtain ⟨e, hguard, henabled, hrun⟩ := hstep
  cases Event.ends h.inv h.idlePid henabled hrun with
  | create hret hcreate => exact hleases.creates h.inv hcreate
  | createElf hret hcreate => exact hleases.createsElf hbase h.inv hguard hcreate
  | tick hzs hq hreaped hmoves hinv => exact hleases.reaped h.inv hzs hq hreaped hmoves hinv
  | yield hinv hq hmoves =>
      exact hleases.keeps h.inv.toLists hinv.toLists (hq.append_right zs).subset hmoves.toKeeps
        hmoves.ms
  | exit hinv hprocs hmoves =>
      exact hleases.keeps h.inv.toLists hinv.toLists hprocs.subset hmoves.toKeeps hmoves.ms
  | work mem => exact hleases.work h.inv.toSchedInv hguard

theorem run_leases {closed : Prop} {img : Image} {base : Nat} (b : Boot img) {s : Machine}
    (hbase : StackBase base)
    (hrun : ReflTransGen (Step img base (Permitted closed img base)) b.machine s) :
    (∃ q zs, MachineInv img s q zs) ∧ LeaseInv closed img b.pmm₀ s.kernel := by
  induction hrun with
  | refl => exact ⟨⟨_, _, boot_machineInv b⟩, boot_leaseInv b closed⟩
  | tail _ hstep ih =>
      obtain ⟨⟨q, zs, hinv⟩, hleases⟩ := ih
      exact ⟨hstep.keeps hinv, hstep.leases hbase hinv hleases⟩

structure SpacesInv (img : Image) (pmm₀ : Pmm.State) (k : Kernel) : Prop where
  spaces : Spaces img.toStatics pmm₀ k.ms (procsIn img k) (framesOf k)
  idleFrames : (k.pcb img.idlePcb).frames = ⟨img.kernelPd, 0, 0⟩

theorem SpacesInv.leases {img : Image} {pmm₀ : Pmm.State} {k : Kernel} (h : SpacesInv img pmm₀ k) :
    Leases True img.toStatics pmm₀ k.ms (procsIn img k) (framesOf k) :=
  spaces_iff_leases.mp h.spaces

theorem run_spaces {img : Image} {base : Nat} (b : Boot img) {s : Machine} (hbase : StackBase base)
    (hrun : ReflTransGen (Step img base (Contained img base)) b.machine s) :
    (∃ q zs, MachineInv img s q zs) ∧ SpacesInv img b.pmm₀ s.kernel := by
  have hpermitted : ReflTransGen (Step img base (Permitted True img base)) b.machine s := by
    refine ReflTransGen.mono ?_ _ _ hrun
    rintro s s' ⟨e, hguard, henabled, hstep⟩
    exact .mk e hguard.permitted henabled hstep
  obtain ⟨hinv, hleases⟩ := run_leases b hbase hpermitted
  exact ⟨hinv, spaces_iff_leases.mpr hleases.leases, hleases.idleFrames⟩

/-! ## Isolation -/

/-- The kernel's identity map is intact, no frame is open to two processes, and
mapping a page for one process changes no address of another. -/
structure Isolated (img : Image) (k : Kernel) : Prop where
  identity : ∀ va, va < identityMappedBytes → translate k.ms.mem img.kernelPd va = some va ∧
    userAccessible k.ms.mem img.kernelPd va = false
  apart : ∀ p p', InTable k p → InTable k p' → p ≠ p' → ∀ va va', va < 2 ^ 32 → va' < 2 ^ 32 →
    userAccessible k.ms.mem (k.pcb p).cr3 va = true →
    userAccessible k.ms.mem (k.pcb p').cr3 va' = true →
    frameOf (pteAt k.ms.mem (k.pcb p).cr3 va) ≠ frameOf (pteAt k.ms.mem (k.pcb p').cr3 va')
  mapInto : ∀ p p', InTable k p → InTable k p' → p ≠ p' → ∀ virt phys flags ms',
    virt < 2 ^ 32 → identityMappedBytes ≤ virt →
    pagingMapInto k.ms (k.pcb p).cr3 virt phys flags = .ok ms' → ∀ va, va < 2 ^ 32 →
    translate ms'.mem (k.pcb p').cr3 va = translate k.ms.mem (k.pcb p').cr3 va ∧
      userAccessible ms'.mem (k.pcb p').cr3 va = userAccessible k.ms.mem (k.pcb p').cr3 va

/-- The frames that belong to a process and to no other. -/
def ownFrames (img : Image) (k : Kernel) (p : Nat) : Set Nat :=
  if p = img.idlePcb then {img.kernelPd} else heldFrames k.ms.mem (framesOf k p)

namespace SpacesInv

variable {img : Image} {pmm₀ : Pmm.State} {k : Kernel} {p p' : Nat}

theorem mem_of_ne (hp : InTable k p) (hidle : p ≠ img.idlePcb) : p ∈ procsIn img k := by
  obtain ⟨hp0, i, hi, hip⟩ := hp
  unfold procsIn
  rw [List.mem_filter, List.mem_map, Bool.and_eq_true, decide_eq_true_eq, decide_eq_true_eq]
  exact ⟨⟨i, List.mem_range.mpr hi, hip⟩, hp0, hidle⟩

theorem idle_cr3 (h : SpacesInv img pmm₀ k) : (k.pcb img.idlePcb).cr3 = img.kernelPd :=
  congrArg Frames.pd h.idleFrames

theorem confined (h : SpacesInv img pmm₀ k) (hp : InTable k p) :
    Confined img.toStatics k.ms (k.pcb p).cr3 (ownFrames img k p) := by
  unfold ownFrames
  by_cases hidle : p = img.idlePcb
  · rw [if_pos hidle, hidle, h.idle_cr3]
    exact h.leases.confined_kernel
  · rw [if_neg hidle]
    exact h.leases.confined (mem_of_ne hp hidle)

theorem notMem_held (h : SpacesInv img pmm₀ k) (hp : InTable k p) (hidle : p ≠ img.idlePcb) :
    img.kernelPd ∉ heldFrames k.ms.mem (framesOf k p) := by
  rintro ⟨sl, hsl⟩
  exact h.leases.slot_ne (mem_of_ne hp hidle) hsl (kernelUsed_pd h.leases.kernel) rfl

theorem own_disjoint (h : SpacesInv img pmm₀ k) (hp : InTable k p) (hp' : InTable k p')
    (hne : p ≠ p') : Disjoint (ownFrames img k p) (ownFrames img k p') := by
  apply Set.disjoint_left.mpr
  intro a ha ha'
  unfold ownFrames at ha ha'
  by_cases hidle : p = img.idlePcb
  · have hidle' : p' ≠ img.idlePcb := fun hi => hne (hidle.trans hi.symm)
    rw [if_pos hidle] at ha
    rw [if_neg hidle'] at ha'
    exact h.notMem_held hp' hidle' (Set.mem_singleton_iff.mp ha ▸ ha')
  · rw [if_neg hidle] at ha
    by_cases hidle' : p' = img.idlePcb
    · rw [if_pos hidle'] at ha'
      exact h.notMem_held hp hidle (Set.mem_singleton_iff.mp ha' ▸ ha)
    · rw [if_neg hidle'] at ha'
      obtain ⟨sl, hsl⟩ := ha
      obtain ⟨sl', hsl'⟩ := ha'
      exact hne (h.leases.slot_unique (mem_of_ne hp hidle) (mem_of_ne hp' hidle') hsl hsl').1

/-- What ring 3 can reach through a directory in the table belongs to its process. -/
theorem user_own (h : SpacesInv img pmm₀ k) (hp : InTable k p) {va : Nat} (hva : va < 2 ^ 32)
    (hacc : userAccessible k.ms.mem (k.pcb p).cr3 va = true) :
    frameOf (pteAt k.ms.mem (k.pcb p).cr3 va) ∈ ownFrames img k p := by
  have hidle : p ≠ img.idlePcb := by
    rintro rfl
    rw [h.idle_cr3, h.leases.kernel_not_user hva] at hacc
    cases hacc
  unfold ownFrames
  rw [if_neg hidle]
  rcases h.leases.user_page (mem_of_ne hp hidle) hva hacc with ⟨i, j, hpage⟩ | ⟨hopen, -⟩
  · exact ⟨_, hpage⟩
  · exact absurd trivial hopen

theorem isolated (h : SpacesInv img pmm₀ k) : Isolated img k where
  identity va hva := by
    have hlt : va < 2 ^ 32 := lt_trans hva (by decide)
    exact ⟨h.spaces.identity.translate_eq hva, h.leases.kernel_not_user hlt⟩
  apart p p' hp hp' hne va va' hva hva' hacc hacc' heq := by
    have hin := h.user_own hp hva hacc
    rw [heq] at hin
    exact Set.disjoint_left.mp (h.own_disjoint hp hp' hne) hin (h.user_own hp' hva' hacc')
  mapInto p p' hp hp' hne virt phys flags ms' hvirt hhigh hmap va hva :=
    (h.confined hp).mapInto (h.confined hp') (h.own_disjoint hp hp' hne) hvirt hhigh hmap hva

end SpacesInv

/-- In every run in which no program gets a page below the identity window, address
spaces stay isolated. -/
theorem address_spaces_isolated {img : Image} {base : Nat} (b : Boot img) {s : Machine}
    (hbase : StackBase base)
    (hrun : ReflTransGen (Step img base (Contained img base)) b.machine s) :
    Isolated img s.kernel :=
  (run_spaces b hbase hrun).2.isolated

/-- An executable whose only program header loads nothing. -/
def bareProgram : Mem
  | 0 => 0x7F
  | 1 => 0x45
  | 2 => 0x4C
  | 3 => 0x46
  | 4 => 1
  | 5 => 1
  | 16 => 2
  | 18 => 3
  | 42 => 32
  | 44 => 1
  | _ => 0

theorem address_spaces_isolated_bareProgram :
    ∃ s, ReflTransGen (Step sampleImage 0x40000000 (Contained sampleImage 0x40000000))
        sampleBoot.machine s ∧ s.kernel.queueSize = 2 ∧ Isolated sampleImage s.kernel := by
  have heval : returnsWith ((Event.createElf [] bareProgram 1).run sampleImage 0x40000000
      sampleBoot.kernel) (fun k => decide (k.queueSize = 2)) = true := by decide +kernel
  have hhigh : ∀ va ∈ programPages bareProgram 0x40000000, identityMappedBytes ≤ va := by
    decide +kernel
  obtain ⟨k, hcall, htest⟩ := returnsWith_iff.mp heval
  have hguard : Contained sampleImage 0x40000000 sampleBoot.kernel
      (.createElf [] bareProgram 1) := fun va hva =>
    hhigh va ((pagesMapped_sublist 0x40000000 sampleBoot.kernel bareProgram).subset hva)
  have hstep : Step sampleImage 0x40000000 (Contained sampleImage 0x40000000) sampleBoot.machine
      (sampleBoot.machine.after (.createElf [] bareProgram 1) k) := Step.mk _ hguard trivial hcall
  have hrun := ReflTransGen.single hstep
  exact ⟨_, hrun, of_decide_eq_true htest,
    address_spaces_isolated sampleBoot ⟨by decide, by decide⟩ hrun⟩

/-- With the stack where the kernel puts it, one program is enough: its first stack
page replaces the kernel's own mapping of that address. -/
theorem identity_map_overwritten :
    ∃ s, ReflTransGen (Step sampleImage userStackBase fun _ _ => True) sampleBoot.machine s ∧
      translate s.kernel.ms.mem sampleImage.kernelPd userStackBase = some 0x404000 ∧
      ¬ Isolated sampleImage s.kernel := by
  have heval : returnsWith ((Event.createElf [] bareProgram 1).run sampleImage userStackBase
      sampleBoot.kernel) (fun k =>
        decide (translate k.ms.mem sampleImage.kernelPd userStackBase = some 0x404000)) = true := by
    decide +kernel
  obtain ⟨k, hcall, htest⟩ := returnsWith_iff.mp heval
  have hmoved := of_decide_eq_true htest
  have hstep : Step sampleImage userStackBase (fun _ _ => True) sampleBoot.machine
      (sampleBoot.machine.after (.createElf [] bareProgram 1) k) :=
    Step.mk _ trivial trivial hcall
  refine ⟨_, ReflTransGen.single hstep, hmoved, fun hisolated => ?_⟩
  have hsame : translate k.ms.mem sampleImage.kernelPd userStackBase = some userStackBase :=
    (hisolated.identity userStackBase (by decide)).1
  rw [hmoved] at hsame
  cases hsame

end StakOS.Process
