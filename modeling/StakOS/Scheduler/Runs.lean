import Mathlib.Logic.Relation
import StakOS.Pmm.Init
import StakOS.Scheduler.Create

/-!
# The scheduler over whole runs

The kernel from boot on, as a transition system: processes are made, the timer
ticks, processes yield and exit, and in between whatever runs changes memory.
-/

namespace StakOS.Process

open StakOS.Lib.Memory StakOS.Lib.Loop StakOS.Lib.Linked StakOS.Lib.Queue StakOS.Paging
open Relation (ReflTransGen)

/-! ## Boot -/

/-- What is open when the kernel starts: the physical allocator behind `pmm_init`,
the contents of memory outside the zeroed statics, and the size of the heap. -/
structure Boot (img : Image) where
  pmm : Pmm.State
  mem : Mem
  pcb : Nat → Pcb
  next : Nat → Nat
  heapPages : Nat
  kernelUsed : ∀ f, f * Pmm.pageSize < img.kernelEnd → Pmm.frameTest pmm f = true
  pdZero : ∀ i, identityPtCount ≤ i → i < pdEntries → entry mem img.kernelPd i = 0

/-- Any memory map will do. -/
def Boot.ofPmmInit {img : Image} {m : Mem} {mbootPtr : Nat} {pmm : Pmm.State}
    (h : Pmm.pmmInit m mbootPtr img.kernelEnd = some pmm)
    (hzero : ∀ i, identityPtCount ≤ i → i < pdEntries → entry m img.kernelPd i = 0)
    (pcb : Nat → Pcb) (next : Nat → Nat) (heapPages : Nat) : Boot img where
  pmm := pmm
  mem := m
  pcb := pcb
  next := next
  heapPages := heapPages
  kernelUsed := fun f hf => Pmm.pmmInit_kernel h
    (img.kernelEnd_le.trans (by norm_num [Pmm.maxFrames, Pmm.pageSize])) hf
  pdZero := hzero

/-- The kernel behind `paging_init` and `kmalloc_init`. -/
def Boot.bare {img : Image} (b : Boot img) : Kernel where
  ms := ⟨(Kmalloc.kmallocInit b.heapPages b.pmm (Kmalloc.noHeap b.mem)).1,
    pagingInit img.toStatics b.mem⟩
  heap := (Kmalloc.kmallocInit b.heapPages b.pmm (Kmalloc.noHeap b.mem)).2
  pcb := Function.update b.pcb img.idlePcb Pcb.zero
  next := b.next
  nextPid := 0
  current := 0
  procTable := fun _ => 0
  queueHead := 0
  queueTail := 0
  queueSize := 0
  zombieHead := 0
  tssEsp0 := 0
  cr3 := img.kernelPd

/-- The kernel behind `process_init` and `scheduler_init`. -/
def Boot.kernel {img : Image} (b : Boot img) : Kernel := schedulerInit (processInit img b.bare)

theorem procTableAdd_empty {k : Kernel} (p : Nat) (h : k.procTable = fun _ => 0) :
    procTableAdd k p = ({ k with procTable := Function.update k.procTable 0 p }, true) := by
  unfold procTableAdd
  have hfind : ((List.range maxProcesses).find? fun i => decide (k.procTable i = 0)) = some 0 := by
    rw [h]
    decide
  rw [hfind]

/-- Only idle exists after boot, and it runs. -/
theorem boot_kernel_eq {img : Image} (b : Boot img) :
    b.kernel = { b.bare with
      pcb := Function.update b.pcb img.idlePcb (idleControlBlock img b.bare)
      next := Function.update b.next img.idlePcb 0
      nextPid := 1
      current := img.idlePcb
      procTable := Function.update (fun _ => 0) 0 img.idlePcb
      queueHead := img.idlePcb
      queueTail := img.idlePcb
      queueSize := 1 } := by
  have hidle : img.idlePcb ≠ 0 := Nat.pos_iff_ne_zero.mp img.idlePcb_pos
  unfold Boot.kernel processInit
  simp only
  rw [procTableAdd_empty _ rfl]
  unfold schedulerInit schedulerEnqueue Kernel.setState Kernel.setNext Kernel.modPcb
  simp only [if_neg hidle, if_true, Function.update_self, Function.update_idem]
  unfold Boot.bare
  simp only [Function.update_idem]
  rfl

theorem boot_heapOk {img : Image} (b : Boot img) : HeapOk img b.kernel.heap [img.idlePcb] := by
  obtain ⟨bs, hholds⟩ := Kmalloc.afterInit_holds b.heapPages b.pmm b.mem
  rw [boot_kernel_eq]
  refine ⟨Kmalloc.frameBytes (Kmalloc.heapFrames b.heapPages b.pmm b.mem), [], bs, hholds, ?_, ?_⟩
  · intro a ha
    by_contra hlow
    have hframe : a / Pmm.pageSize * Pmm.pageSize < img.kernelEnd := by
      have hdiv := Nat.div_mul_le_self a Pmm.pageSize
      omega
    have hused := b.kernelUsed _ hframe
    obtain ⟨-, hfree, -⟩ := ha
    rw [hfree] at hused
    cases hused
  · intro p hp hidle
    exact absurd (List.mem_singleton.mp hp) hidle

theorem boot_inv {img : Image} (b : Boot img) : Inv img b.kernel [img.idlePcb] [] := by
  have hidle : img.idlePcb ≠ 0 := Nat.pos_iff_ne_zero.mp img.idlePcb_pos
  refine ⟨?_, boot_heapOk b⟩
  rw [boot_kernel_eq]
  refine ⟨⟨⟨IsQueue.singleton hidle, rfl⟩, rfl, by simp, by simp, ?_, ?_,
    ?_, by simp, by simp⟩, List.mem_singleton.mpr rfl, ?_, ?_⟩
  · have hnone : ∀ x, x ≠ 0 →
        ((∃ j, j < maxProcesses ∧ (fun _ => 0 : Nat → Nat) j = x) ↔ x ∈ ([] : List Nat)) := by
      intro x hx
      simp [Ne.symm hx]
    exact table_insert hnone (by decide) rfl fun x => by simp
  · exact tableInj_insert (fun _ _ _ _ _ hne => absurd rfl hne) fun _ _ => Ne.symm hidle
  · intro p hp hne
    exact absurd (List.mem_singleton.mp hp) hne
  · simp only [Function.update_self]
    rfl
  · simp only [Function.update_self]
    rfl

/-! ## Steps -/

/-- What can happen next.  `esp` is the stack pointer of a process that is left;
`work` is anything a process does to memory between the others. -/
inductive Event where
  | create (name : List UInt8) (start priority : Nat)
  | createElf (name : List UInt8) (data : Mem) (priority : Nat)
  | tick (esp : Nat)
  | yield (esp : Nat)
  | exit (code : Int) (esp : Nat)
  | work (mem : Mem)

/-- The user stack of loaded programs begins at `base`. -/
def Event.run (img : Image) (base : Nat) (k : Kernel) : Event → Outcome Kernel
  | .create name start priority => Prod.fst <$> processCreate img k name start priority
  | .createElf name data priority => Prod.fst <$> createFromElfAt img base k name data priority
  | .tick esp => schedulerTick k esp
  | .yield esp => schedulerYield k esp
  | .exit code esp => processExit k code esp
  | .work mem => .ok { k with ms := ⟨k.ms.pmm, mem⟩ }

/-- Only a process other than pid 0 exits. -/
def Event.Enabled (k : Kernel) : Event → Prop
  | .exit _ _ => (k.pcb k.current).pid ≠ 0
  | _ => True

/-- The calls of `process_create` in an event. -/
def Event.creates : Event → Nat
  | .create _ _ _ => 1
  | .createElf _ _ _ => 1
  | _ => 0

/-- The kernel, with the number of `process_create` calls so far and whether the
processor has ever switched. -/
structure Machine where
  kernel : Kernel
  creates : Nat
  switched : Bool

def Machine.after (s : Machine) (e : Event) (k : Kernel) : Machine :=
  ⟨k, s.creates + e.creates, s.switched || decide (k.current ≠ s.kernel.current)⟩

/-- A step by an event that satisfies `guard`. -/
inductive Step (img : Image) (base : Nat) (guard : Kernel → Event → Prop) :
    Machine → Machine → Prop
  | mk {s : Machine} {k : Kernel} (e : Event) (hguard : guard s.kernel e)
      (henabled : e.Enabled s.kernel) (hrun : e.run img base s.kernel = .ok k) :
      Step img base guard s (s.after e k)

def Boot.machine {img : Image} (b : Boot img) : Machine := ⟨b.kernel, 0, false⟩

/-! ## What every step keeps -/

/-- The pids in use are distinct and have all been handed out, `c` of them by
`process_create`. -/
def Pids (k : Kernel) (procs : List Nat) (n : Nat) : Prop :=
  ∃ c, c ≤ n ∧ k.nextPid = (c + 1) % 2 ^ 32 ∧ (∀ p ∈ procs, (k.pcb p).pid ≤ c) ∧
    ∀ p ∈ procs, ∀ p' ∈ procs, (k.pcb p).pid = (k.pcb p').pid → p = p'

theorem Pids.shrink {k k' : Kernel} {procs procs' : List Nat} {n n' : Nat}
    (h : Pids k procs n) (hsub : procs' ⊆ procs) (hn : n ≤ n') (hnext : k'.nextPid = k.nextPid)
    (hpid : ∀ p ∈ procs', (k'.pcb p).pid = (k.pcb p).pid) : Pids k' procs' n' := by
  obtain ⟨c, hc, hnp, hle, hinj⟩ := h
  refine ⟨c, hc.trans hn, hnext.trans hnp, fun p hp => ?_, fun p hp p' hp' heq => ?_⟩
  · rw [hpid p hp]
    exact hle p (hsub hp)
  · rw [hpid p hp, hpid p' hp'] at heq
    exact hinj p (hsub hp) p' (hsub hp') heq

/-- A pid was handed out; `p`, if it is among the processes at all, has it. -/
theorem Pids.grow {k k' : Kernel} {procs procs' : List Nat} {n p : Nat} (h : Pids k procs n)
    (hn : n + 1 < 2 ^ 32) (hsub : procs' ⊆ p :: procs) (hnext : k'.nextPid = add32 k.nextPid 1)
    (hpid : ∀ x ∈ procs', x ≠ p → (k'.pcb x).pid = (k.pcb x).pid)
    (hown : p ∈ procs' → (k'.pcb p).pid = k.nextPid) : Pids k' procs' (n + 1) := by
  obtain ⟨c, hc, hnp, hle, hinj⟩ := h
  have hnp' : k.nextPid = c + 1 := by
    rw [hnp]
    exact Nat.mod_eq_of_lt (by omega)
  have hold : ∀ x ∈ procs', x ≠ p → x ∈ procs := fun x hx hne =>
    (List.mem_cons.mp (hsub hx)).resolve_left hne
  have hbelow : ∀ x ∈ procs', x ≠ p → (k'.pcb x).pid ≤ c := by
    intro x hx hne
    rw [hpid x hx hne]
    exact hle x (hold x hx hne)
  refine ⟨c + 1, by omega, ?_, fun x hx => ?_, fun x hx y hy heq => ?_⟩
  · rw [hnext, hnp']
    rfl
  · by_cases hxp : x = p
    · subst hxp
      rw [hown hx, hnp']
    · exact (hbelow x hx hxp).trans (Nat.le_succ c)
  · by_cases hxp : x = p
    · by_cases hyp : y = p
      · rw [hxp, hyp]
      · have hy' := hbelow y hy hyp
        subst hxp
        rw [← heq, hown hx, hnp'] at hy'
        omega
    · by_cases hyp : y = p
      · have hx' := hbelow x hx hxp
        subst hyp
        rw [heq, hown hy, hnp'] at hx'
        omega
      · rw [hpid x hx hxp, hpid y hy hyp] at heq
        exact hinj x (hold x hx hxp) y (hold y hy hyp) heq

structure MachineInv (img : Image) (s : Machine) (q zs : List Nat) : Prop where
  inv : Inv img s.kernel q zs
  idlePid : (s.kernel.pcb img.idlePcb).pid = 0
  esp0 : s.switched = true →
    s.kernel.tssEsp0 = (s.kernel.pcb s.kernel.current).kernelStackTop
  pids : s.creates < 2 ^ 32 → Pids s.kernel (q ++ zs) s.creates

theorem boot_machineInv {img : Image} (b : Boot img) :
    MachineInv img b.machine [img.idlePcb] [] := by
  have hpid : (b.kernel.pcb img.idlePcb).pid = 0 := by
    rw [boot_kernel_eq]
    simp only [Function.update_self]
    rfl
  refine ⟨boot_inv b, hpid, fun h => (by cases h), fun _ => ⟨0, le_rfl, ?_, ?_, ?_⟩⟩
  · change b.kernel.nextPid = _
    rw [boot_kernel_eq]
    rfl
  · intro p hp
    rw [List.append_nil, List.mem_singleton] at hp
    rw [hp]
    exact hpid.le
  · intro p hp p' hp' _
    rw [List.append_nil, List.mem_singleton] at hp hp'
    rw [hp, hp']

namespace MachineInv

variable {img : Image} {s : Machine} {q zs q' zs' : List Nat} {k : Kernel}

theorem keeps (h : MachineInv img s q zs) (e : Event) (hinv : Inv img k q' zs')
    (hsub : q' ++ zs' ⊆ q ++ zs) (hkeeps : Keeps s.kernel k) :
    MachineInv img (s.after e k) q' zs' := by
  have hpid : ∀ p, (k.pcb p).pid = (s.kernel.pcb p).pid := fun p =>
    congrArg Ident.pid (hkeeps.ident p)
  refine ⟨hinv, (hpid _).trans h.idlePid, ?_, ?_⟩
  · intro hswitched
    rcases hkeeps.esp0 with ⟨hcur, htss⟩ | htss
    · have hbefore : s.switched = true := by
        simpa [Machine.after, hcur] using hswitched
      change k.tssEsp0 = (k.pcb k.current).kernelStackTop
      rw [htss, hcur, hkeeps.kernelStackTop]
      exact h.esp0 hbefore
    · exact htss
  · intro hn
    have hle : s.creates ≤ (s.after e k).creates := Nat.le_add_right ..
    exact (h.pids (hle.trans_lt hn)).shrink hsub hle hkeeps.nextPid fun p _ => hpid p

/-- A control block outside the lists was worked on, and perhaps listed. -/
theorem spares {p : Nat} (h : MachineInv img s q zs) (e : Event) (hcount : e.creates = 1)
    (hinv : Inv img k q' zs') (hsub : q' ++ zs' ⊆ p :: (q ++ zs)) (hnew : p ∉ q ++ zs)
    (hspares : Spares p s.kernel k)
    (hnext : k.nextPid = s.kernel.nextPid ∧ p ∉ q' ++ zs' ∨
      k.nextPid = add32 s.kernel.nextPid 1 ∧ (p ∈ q' ++ zs' → (k.pcb p).pid = s.kernel.nextPid)) :
    MachineInv img (s.after e k) q' zs' := by
  have hcur : k.pcb k.current = s.kernel.pcb s.kernel.current := by
    rw [hspares.current]
    exact hspares.pcb _ fun hcp => hnew (hcp ▸ List.mem_append_left zs h.inv.current)
  have hidle : img.idlePcb ≠ p := fun hip => hnew (hip ▸ List.mem_append_left zs h.inv.idle)
  refine ⟨hinv, ?_, ?_, ?_⟩
  · change (k.pcb img.idlePcb).pid = 0
    rw [hspares.pcb _ hidle]
    exact h.idlePid
  · intro hswitched
    have hbefore : s.switched = true := by
      simpa [Machine.after, hspares.current] using hswitched
    change k.tssEsp0 = (k.pcb k.current).kernelStackTop
    rw [hspares.tssEsp0, hcur]
    exact h.esp0 hbefore
  · intro hn
    change s.creates + e.creates < 2 ^ 32 at hn
    change Pids k (q' ++ zs') (s.creates + e.creates)
    rw [hcount] at hn ⊢
    have hpids := h.pids (by omega)
    rcases hnext with ⟨hnp, hout⟩ | ⟨hnp, hown⟩
    · have hne : ∀ x ∈ q' ++ zs', x ≠ p := fun x hx hxp => hout (hxp ▸ hx)
      refine hpids.shrink ?_ (Nat.le_succ _) hnp fun x hx => by rw [hspares.pcb x (hne x hx)]
      exact fun x hx => (List.mem_cons.mp (hsub hx)).resolve_left (hne x hx)
    · exact hpids.grow hn hsub hnp (fun x _ hne => by rw [hspares.pcb x hne]) hown

theorem creates {r start : Nat} (h : MachineInv img s q zs) (e : Event) (hcount : e.creates = 1)
    (hcreate : Creates img start s.kernel q zs k r) :
    ∃ q' zs', MachineInv img (s.after e k) q' zs' := by
  cases hcreate with
  | failed hnew hspares hinv hpid hbuilt =>
      refine ⟨q, zs, h.spares e hcount hinv (List.subset_cons_self _ _) hnew hspares ?_⟩
      rcases hpid with hpid | hpid
      · exact Or.inl ⟨hpid, hnew⟩
      · exact Or.inr ⟨hpid, fun hp => absurd hp hnew⟩
  | made hp hidle hnew hspares hinv hpid hown hbuilt =>
      refine ⟨q ++ [r], zs, h.spares e hcount hinv ?_ hnew hspares (Or.inr ⟨hpid, fun _ => hown⟩)⟩
      intro x hx
      simpa [or_comm, or_left_comm, or_assoc] using hx

theorem createsElf {base r : Nat} {data : Mem} (h : MachineInv img s q zs) (e : Event)
    (hcount : e.creates = 1) (hcreate : CreatesElf img base data s.kernel q zs k r) :
    ∃ q' zs', MachineInv img (s.after e k) q' zs' := by
  cases hcreate with
  | invalid hinv =>
      exact ⟨q, zs, h.keeps e hinv (List.Subset.refl _) (Moves.refl _).toKeeps⟩
  | notCreated hcreate => exact h.creates e hcount hcreate
  | @created k₁ k p r _ hp hcreate hload hspares hpid hident =>
      cases hcreate with
      | failed => exact absurd rfl hp
      | made hp hidle hnew hspares₁ hinv hpid₁ hown hbuilt =>
          have hown' : (k.pcb p).pid = s.kernel.nextPid :=
            (congrArg Ident.pid hident).trans hown
          have hnext : k.nextPid = add32 s.kernel.nextPid 1 := hpid.trans hpid₁
          cases hload with
          | loaded hinv' hloads =>
              refine ⟨q ++ [r], zs, h.spares e hcount hinv' ?_ hnew (hspares₁.trans hspares)
                (Or.inr ⟨hnext, fun _ => hown'⟩)⟩
              intro x hx
              simpa [or_comm, or_left_comm, or_assoc] using hx
          | abandoned hinv' hloads =>
              refine ⟨q, p :: zs, h.spares e hcount hinv' ?_ hnew (hspares₁.trans hspares)
                (Or.inr ⟨hnext, fun _ => hown'⟩)⟩
              intro x hx
              simpa [or_comm, or_left_comm, or_assoc] using hx

end MachineInv

/-- Everything an event may do to a kernel with the lists `q` and `zs`. -/
inductive Event.Ends (img : Image) (base : Nat) (k : Kernel) (q zs : List Nat) :
    Event → Kernel → Prop
  | create {k' : Kernel} {name : List UInt8} {start priority r : Nat}
      (hret : processCreate img k name start priority = .ok (k', r))
      (hcreate : Creates img start k q zs k' r) : Ends img base k q zs (.create name start priority) k'
  | createElf {k' : Kernel} {name : List UInt8} {data : Mem} {priority r : Nat}
      (hret : createFromElfAt img base k name data priority = .ok (k', r))
      (hcreate : CreatesElf img base data k q zs k' r) :
      Ends img base k q zs (.createElf name data priority) k'
  | tick {k₁ k' : Kernel} {q' zs' ps : List Nat} {esp : Nat} (hzs : zs.Perm (ps ++ zs'))
      (hq : q'.Perm q) (hreaped : Reaped k ps k₁) (hmoves : Moves k₁ k')
      (hinv : Inv img k' q' zs') : Ends img base k q zs (.tick esp) k'
  | yield {k' : Kernel} {q' : List Nat} {esp : Nat} (hinv : SchedInv img k' q' zs)
      (hq : q'.Perm q) (hmoves : Moves k k') : Ends img base k q zs (.yield esp) k'
  | exit {k' : Kernel} {q' : List Nat} {code : Int} {esp : Nat}
      (hinv : SchedInv img k' q' (k.current :: zs)) (hprocs : (q' ++ k.current :: zs).Perm (q ++ zs))
      (hmoves : Moves k k') : Ends img base k q zs (.exit code esp) k'
  | work (mem : Mem) : Ends img base k q zs (.work mem) { k with ms := ⟨k.ms.pmm, mem⟩ }

theorem Event.ends {img : Image} {base : Nat} {k k' : Kernel} {q zs : List Nat} {e : Event}
    (h : Inv img k q zs) (hpid : (k.pcb img.idlePcb).pid = 0) (henabled : e.Enabled k)
    (hrun : e.run img base k = .ok k') : e.Ends img base k q zs k' := by
  cases e with
  | create name start priority =>
      obtain ⟨k₁, r, hret, hcreate⟩ := processCreate_inv h name start priority
      simp only [Event.run, hret] at hrun
      cases hrun
      exact .create hret hcreate
  | createElf name data priority =>
      simp only [Event.run] at hrun
      cases hret : createFromElfAt img base k name data priority with
      | error stop =>
          rw [hret] at hrun
          cases hrun
      | ok kr =>
          rw [hret] at hrun
          cases hrun
          exact .createElf hret (createFromElfAt_inv h hret)
  | tick esp =>
      obtain ⟨k₁, k₂, q', zs', ps, hret, hzs, hq, hreaped, hmoves, hinv⟩ := schedulerTick_inv esp h
      rw [Event.run, hret] at hrun
      cases hrun
      exact .tick hzs hq hreaped hmoves hinv
  | yield esp =>
      obtain ⟨k₁, q', hret, hinv, hq, hmoves⟩ := schedulerYield_inv esp h.toSchedInv
      rw [Event.run, hret] at hrun
      cases hrun
      exact .yield hinv hq hmoves
  | exit code esp =>
      have hidle : img.idlePcb ≠ k.current := fun hic => henabled (hic ▸ hpid)
      obtain ⟨k₁, q', hret, hinv, hq, hmoves⟩ := processExit_inv code esp h.toSchedInv hidle
      rw [Event.run, hret] at hrun
      cases hrun
      exact .exit hinv (List.perm_middle.trans (hq.symm.append_right zs)) hmoves
  | work mem =>
      cases hrun
      exact .work mem

/-- The invariant survives every step. -/
theorem Step.keeps {img : Image} {base : Nat} {guard : Kernel → Event → Prop} {s s' : Machine}
    {q zs : List Nat} (hstep : Step img base guard s s') (h : MachineInv img s q zs) :
    ∃ q' zs', MachineInv img s' q' zs' := by
  obtain ⟨e, -, henabled, hrun⟩ := hstep
  cases Event.ends h.inv h.idlePid henabled hrun with
  | create hret hcreate => exact h.creates _ rfl hcreate
  | createElf hret hcreate => exact h.createsElf _ rfl hcreate
  | @tick k₁ k' q' zs' ps esp hzs hq hreaped hmoves hinv =>
      refine ⟨q', zs', h.keeps _ hinv ?_ (hreaped.keeps.trans hmoves.toKeeps)⟩
      apply List.append_subset.mpr
      exact ⟨fun x hx => List.mem_append_left zs (hq.subset hx),
        fun x hx => List.mem_append_right q (hzs.symm.subset (List.mem_append_right ps hx))⟩
  | @yield k' q' esp hinv hq hmoves =>
      have hsub : q' ++ zs ⊆ q ++ zs := (hq.append_right zs).subset
      refine ⟨q', zs, h.keeps _ ⟨hinv, ?_⟩ hsub hmoves.toKeeps⟩
      rw [hmoves.heap]
      exact h.inv.heap.mono hsub
  | @exit k' q' code esp hinv hprocs hmoves =>
      refine ⟨q', _, h.keeps _ ⟨hinv, ?_⟩ hprocs.subset hmoves.toKeeps⟩
      rw [hmoves.heap]
      exact h.inv.heap.mono hprocs.subset
  | work mem =>
      exact ⟨q, zs, h.keeps _ (h.inv.withMs _) (List.Subset.refl _)
        ⟨fun _ => rfl, rfl, Or.inl ⟨rfl, rfl⟩⟩⟩

theorem run_machineInv {img : Image} {base : Nat} {guard : Kernel → Event → Prop} {s s' : Machine}
    (hrun : ReflTransGen (Step img base guard) s s') (h : ∃ q zs, MachineInv img s q zs) :
    ∃ q zs, MachineInv img s' q zs := by
  induction hrun with
  | refl => exact h
  | tail _ hstep ih =>
      obtain ⟨q, zs, hinv⟩ := ih
      exact hstep.keeps hinv

/-! ## The invariant, read off the kernel's variables -/

/-- The scheduler's variables are consistent: `q` is the run queue and `zs` the
zombie list. -/
structure Consistent (img : Image) (s : Machine) (q zs : List Nat) : Prop where
  queue : Chain s.kernel.next s.kernel.queueHead q 0
  queueDistinct : q.Nodup ∧ 0 ∉ q
  tail : s.kernel.queueTail = q.getLastD 0
  size : s.kernel.queueSize = q.length
  together : s.kernel.queueHead = 0 ↔ s.kernel.queueTail = 0
  zombies : Chain s.kernel.next s.kernel.zombieHead zs 0
  zombiesDistinct : zs.Nodup ∧ 0 ∉ zs
  disjoint : q.Disjoint zs
  table : ∀ p, p ≠ 0 → ((∃ i, i < maxProcesses ∧ s.kernel.procTable i = p) ↔ p ∈ q ∨ p ∈ zs)
  once : ∀ i j, i < maxProcesses → j < maxProcesses →
    s.kernel.procTable i = s.kernel.procTable j → s.kernel.procTable i ≠ 0 → i = j
  current : s.kernel.current ∈ q
  running : ∀ p, p ∈ q ∨ p ∈ zs → ((s.kernel.pcb p).state = .running ↔ p = s.kernel.current)
  ready : ∀ p ∈ q, p ≠ s.kernel.current → (s.kernel.pcb p).state = .ready
  zombie : ∀ p ∈ zs, (s.kernel.pcb p).state = .zombie
  idle : img.idlePcb ∈ q ∧ (s.kernel.pcb img.idlePcb).pid = 0
  cr3 : s.kernel.cr3 = (s.kernel.pcb s.kernel.current).cr3
  esp0 : s.switched = true →
    s.kernel.tssEsp0 = (s.kernel.pcb s.kernel.current).kernelStackTop
  pids : s.creates < 2 ^ 32 → ∀ p p', p ∈ q ∨ p ∈ zs → p' ∈ q ∨ p' ∈ zs →
    (s.kernel.pcb p).pid = (s.kernel.pcb p').pid → p = p'

theorem MachineInv.consistent {img : Image} {s : Machine} {q zs : List Nat}
    (h : MachineInv img s q zs) : Consistent img s q zs := by
  have hinv := h.inv
  obtain ⟨hq, hz, hdisj⟩ := List.nodup_append.mp hinv.nodup
  have hdisjoint : q.Disjoint zs := fun p hp hpz => hdisj p hp p hpz rfl
  have htable := hinv.table
  simp only [List.mem_append] at htable
  refine ⟨hinv.queue.queue.chain, ⟨hq, hinv.queue.queue.nonNull⟩, hinv.queue.queue.tail_eq,
    hinv.queue.size, ?_, hinv.zombies, ⟨hz, hinv.nonNull⟩, hdisjoint, htable, hinv.tableInj,
    hinv.current, ?_, hinv.ready, hinv.zombie, ⟨hinv.idle, h.idlePid⟩, hinv.cr3, h.esp0, ?_⟩
  · have hne : q ≠ [] := List.ne_nil_of_mem hinv.current
    constructor
    · intro hhead
      exact absurd (hinv.queue.queue.head_eq_null_iff.mp hhead) hne
    · intro htail
      exact absurd (htail ▸ hinv.queue.queue.tail_mem hne) hinv.queue.queue.nonNull
  · intro p hp
    constructor
    · intro hrun
      by_contra hne
      rcases hp with hp | hp
      · rw [hinv.ready p hp hne] at hrun
        cases hrun
      · rw [hinv.zombie p hp] at hrun
        cases hrun
    · rintro rfl
      exact hinv.running
  · intro hn p p' hp hp' heq
    obtain ⟨c, -, -, -, hinj⟩ := h.pids hn
    exact hinj p (List.mem_append.mpr hp) p' (List.mem_append.mpr hp') heq

/-- No scheduling call stops the machine. -/
structure Responds (img : Image) (k : Kernel) : Prop where
  create : ∀ name start priority, ∃ k', (Event.create name start priority).run img userStackBase k =
    .ok k'
  tick : ∀ esp, ∃ k', schedulerTick k esp = .ok k'
  yield : ∀ esp, ∃ k', schedulerYield k esp = .ok k'
  exit : (k.pcb k.current).pid ≠ 0 → ∀ code esp, ∃ k', processExit k code esp = .ok k'

theorem MachineInv.responds {img : Image} {s : Machine} {q zs : List Nat}
    (h : MachineInv img s q zs) : Responds img s.kernel := by
  refine ⟨fun name start priority => ?_, fun esp => ?_, fun esp => ?_, fun hpid code esp => ?_⟩
  · obtain ⟨k', r, hret, -⟩ := processCreate_inv h.inv name start priority
    refine ⟨k', ?_⟩
    rw [Event.run, hret]
    rfl
  · obtain ⟨-, k', -, -, -, hret, -⟩ := schedulerTick_inv esp h.inv
    exact ⟨k', hret⟩
  · obtain ⟨k', -, hret, -⟩ := schedulerYield_inv esp h.inv.toSchedInv
    exact ⟨k', hret⟩
  · have hidle : img.idlePcb ≠ s.kernel.current := fun hic => hpid (hic ▸ h.idlePid)
    obtain ⟨k', -, hret, -⟩ := processExit_inv code esp h.inv.toSchedInv hidle
    exact ⟨k', hret⟩

/-- From boot on, whatever is created, ticks, yields and exits, the scheduler's
variables stay consistent and its calls return. -/
theorem scheduler_invariant {img : Image} (b : Boot img) {s : Machine}
    (hrun : ReflTransGen (Step img userStackBase fun _ _ => True) b.machine s) :
    (∃ q zs, Consistent img s q zs) ∧ Responds img s.kernel := by
  obtain ⟨q, zs, h⟩ := run_machineInv hrun ⟨_, _, boot_machineInv b⟩
  exact ⟨⟨q, zs, h.consistent⟩, h.responds⟩

/-- A kernel image of one megabyte at 1 MB. -/
def sampleImage : Image where
  kernelEnd := 0x200000
  kernelPd := 0x180000
  identityPts := 0x181000
  idlePcb := 0x190000
  stackTop := 0x1a0000
  processExit := 0x101000
  userModeTrampoline := 0x102000
  kernelPd_aligned := by decide
  identityPts_aligned := by decide
  kernelPd_pos := by decide
  identityPts_pos := by decide
  kernelPd_end := by decide
  identityPts_end := by decide
  apart := by decide
  kernelEnd_le := by decide
  idlePcb_pos := by decide
  idlePcb_end := by decide

/-- A bitmap whose first 32 words are full keeps the frames of the kernel. -/
theorem sampleImage_used {pmm : Pmm.State} (hfull : ∀ w, w < 32 → pmm.bitmap w = 0xFFFFFFFF#32)
    (f : Nat) (hf : f * Pmm.pageSize < sampleImage.kernelEnd) : Pmm.frameTest pmm f = true := by
  have hword : f / 32 < 32 := by
    change f * 4096 < 0x200000 at hf
    omega
  exact Pmm.frameTest_of_full (hfull (f / 32) hword) rfl

/-- A memory of zeros has an empty directory. -/
theorem blank_pdZero (i : Nat) (_hlow : identityPtCount ≤ i) (_hi : i < pdEntries) :
    entry (fun _ => 0) sampleImage.kernelPd i = 0 := rfl

/-- Every frame from 4 MB on is free, and the heap has one page. -/
def sampleBoot : Boot sampleImage where
  pmm := ⟨fun w => if w < 32 then 0xFFFFFFFF#32 else 0#32, 32768, 31744⟩
  mem := fun _ => 0
  pcb := fun _ => Pcb.zero
  next := fun _ => 0
  heapPages := 1
  kernelUsed := sampleImage_used fun _ hw => if_pos hw
  pdZero := blank_pdZero

/-- A process is created, and at the next tick it runs. -/
def firstSwitch : Outcome (Kernel × Kernel) := do
  let k₁ ← (Event.create [] 0x103000 1).run sampleImage userStackBase sampleBoot.kernel
  let k₂ ← (Event.tick 0x19fff0).run sampleImage userStackBase k₁
  return (k₁, k₂)

theorem scheduler_invariant_firstSwitch :
    ∃ s, ReflTransGen (Step sampleImage userStackBase fun _ _ => True) sampleBoot.machine s ∧
      s.switched = true ∧ s.kernel.queueSize = 2 ∧
      (∃ q zs, Consistent sampleImage s q zs) ∧ Responds sampleImage s.kernel := by
  have heval : returnsWith firstSwitch (fun ks =>
      decide (ks.2.current ≠ ks.1.current ∧ ks.2.queueSize = 2)) = true := by decide +kernel
  obtain ⟨⟨k₁, k₂⟩, hcalls, htest⟩ := returnsWith_iff.mp heval
  obtain ⟨hcur, hsize⟩ := of_decide_eq_true htest
  obtain ⟨k, hcreate, hrest⟩ := bind_eq_ok.mp hcalls
  obtain ⟨k', htick, hend⟩ := bind_eq_ok.mp hrest
  cases hend
  let s₁ := sampleBoot.machine.after (.create [] 0x103000 1) k₁
  have hfirst : Step sampleImage userStackBase (fun _ _ => True) sampleBoot.machine s₁ :=
    Step.mk (.create [] 0x103000 1) trivial trivial hcreate
  have hsecond : Step sampleImage userStackBase (fun _ _ => True) s₁
      (s₁.after (.tick 0x19fff0) k₂) :=
    Step.mk (.tick 0x19fff0) trivial trivial htick
  have hrun := (ReflTransGen.single hfirst).tail hsecond
  refine ⟨_, hrun, ?_, hsize, scheduler_invariant sampleBoot hrun⟩
  change (s₁.switched || decide (k₂.current ≠ k₁.current)) = true
  rw [decide_eq_true hcur, Bool.or_true]

end StakOS.Process
