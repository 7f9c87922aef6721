import StakOS.Process.Create
import StakOS.Scheduler.Reap

/-!
# Creation and the invariant

`process_create` and `process_create_from_elf` keep the scheduler's invariant
whether they succeed or fail.  What they do to memory is recorded case by case.
-/

namespace StakOS.Process

open StakOS.Lib.Memory StakOS.Lib.Loop StakOS.Lib.Linked StakOS.Lib.Queue StakOS.Paging

/-! ## A process enters the table -/

/-- The table has a free slot. -/
def slotFree (k : Kernel) : Bool :=
  (List.range maxProcesses).any fun i => decide (k.procTable i = 0)

theorem procTableAdd_spec (k : Kernel) (p : Nat) :
    (slotFree k = true ∧ ∃ i, i < maxProcesses ∧ k.procTable i = 0 ∧
      procTableAdd k p = ({ k with procTable := Function.update k.procTable i p }, true)) ∨
    (slotFree k = false ∧ procTableAdd k p = (k, false)) := by
  unfold procTableAdd slotFree
  cases hfind : (List.range maxProcesses).find? fun i => decide (k.procTable i = 0) with
  | none =>
      right
      refine ⟨?_, rfl⟩
      rw [List.any_eq_false]
      exact List.find?_eq_none.mp hfind
  | some i =>
      left
      have hmem := List.mem_of_find?_eq_some hfind
      have hzero := List.find?_some hfind
      refine ⟨List.any_eq_true.mpr ⟨i, hmem, hzero⟩, i, List.mem_range.mp hmem, ?_, rfl⟩
      simpa using hzero

theorem table_insert {table : Nat → Nat} {procs procs' : List Nat} {i p : Nat}
    (htable : ∀ x, x ≠ 0 → ((∃ j, j < maxProcesses ∧ table j = x) ↔ x ∈ procs))
    (hi : i < maxProcesses) (hfree : table i = 0)
    (hprocs : ∀ x, x ∈ procs' ↔ x ∈ procs ∨ x = p) (x : Nat) (hx : x ≠ 0) :
    (∃ j, j < maxProcesses ∧ Function.update table i p j = x) ↔ x ∈ procs' := by
  rw [hprocs, ← htable x hx]
  constructor
  · rintro ⟨j, hj, hjx⟩
    by_cases hji : j = i
    · rw [hji, Function.update_self] at hjx
      exact Or.inr hjx.symm
    · rw [Function.update_of_ne hji] at hjx
      exact Or.inl ⟨j, hj, hjx⟩
  · rintro (⟨j, hj, hjx⟩ | rfl)
    · have hji : j ≠ i := fun hji => hx (by rw [← hjx, hji, hfree])
      exact ⟨j, hj, by rw [Function.update_of_ne hji, hjx]⟩
    · exact ⟨i, hi, Function.update_self ..⟩

theorem tableInj_insert {table : Nat → Nat} {i p : Nat}
    (hinj : ∀ a b, a < maxProcesses → b < maxProcesses → table a = table b → table a ≠ 0 → a = b)
    (hnew : ∀ j, j < maxProcesses → table j ≠ p)
    (a b : Nat) (ha : a < maxProcesses) (hb : b < maxProcesses)
    (heq : Function.update table i p a = Function.update table i p b)
    (hne : Function.update table i p a ≠ 0) : a = b := by
  by_cases hai : a = i
  · by_cases hbi : b = i
    · rw [hai, hbi]
    · rw [hai, Function.update_self, Function.update_of_ne hbi] at heq
      exact absurd heq.symm (hnew b hb)
  · rw [Function.update_of_ne hai] at heq hne
    by_cases hbi : b = i
    · rw [hbi, Function.update_self] at heq
      exact absurd heq (hnew a ha)
    · rw [Function.update_of_ne hbi] at heq
      exact hinj a b ha hb heq hne

/-- A process that is on no list is put at the end of the queue and into a free
slot of the table. -/
theorem SchedInv.insert {img : Image} {k : Kernel} {q zs : List Nat} {p i : Nat}
    {n : Nat → Nat} {hd : Nat} (h : SchedInv img k q zs) (hp : p ≠ 0) (hnew : p ∉ q ++ zs)
    (hqueue : IsQueue 0 n hd p (q ++ [p])) (hnext : ∀ x, x ∉ q → x ≠ p → n x = k.next x)
    (hi : i < maxProcesses) (hfree : k.procTable i = 0) :
    SchedInv img
      { (k.setState p .ready).withQueue n hd p (q.length + 1) with
        procTable := Function.update k.procTable i p } (q ++ [p]) zs := by
  have hpcb : ∀ x, x ∈ q ++ zs → Function.update k.pcb p { k.pcb p with state := .ready } x =
      k.pcb x := by
    intro x hx
    have hxp : x ≠ p := fun hxp => hnew (hxp ▸ hx)
    exact Function.update_of_ne hxp _ _
  have hperm : (q ++ [p] ++ zs).Perm (p :: (q ++ zs)) := by
    rw [List.append_assoc]
    exact List.perm_middle
  have hcur : k.current ∈ q ++ zs := List.mem_append_left zs h.current
  refine ⟨⟨⟨hqueue, by simp⟩, ?_, ?_, h.nonNull, ?_, ?_, ?_, ?_, ?_⟩, ?_, ?_, ?_⟩
  · apply h.zombies.congr
    intro x hx
    exact hnext x (fun hxq => h.notMem_zombies hxq hx)
      fun hxp => hnew (hxp ▸ List.mem_append_right q hx)
  · exact hperm.nodup_iff.mpr (List.nodup_cons.mpr ⟨hnew, h.nodup⟩)
  · refine table_insert h.table hi hfree fun x => ?_
    rw [hperm.mem_iff, List.mem_cons, or_comm]
  · refine tableInj_insert h.tableInj fun j hj hjp => ?_
    exact hnew ((h.table p hp).mp ⟨j, hj, hjp⟩)
  · intro x hx hne
    change (Function.update k.pcb p { k.pcb p with state := .ready } x).state = .ready
    rcases List.mem_append.mp hx with hx | hx
    · rw [hpcb x (List.mem_append_left zs hx)]
      exact h.ready x hx hne
    · rw [List.mem_singleton.mp hx, Function.update_self]
  · intro x hx
    change (Function.update k.pcb p { k.pcb p with state := .ready } x).state = .zombie
    rw [hpcb x (List.mem_append_right q hx)]
    exact h.zombie x hx
  · exact List.mem_append_left _ h.idle
  · exact List.mem_append_left _ h.current
  · change (Function.update k.pcb p { k.pcb p with state := .ready } k.current).state = .running
    rw [hpcb _ hcur]
    exact h.running
  · change _ = (Function.update k.pcb p { k.pcb p with state := .ready } k.current).cr3
    rw [hpcb _ hcur]
    exact h.cr3

/-- Only one control block, and nothing of the processor, was touched. -/
structure Spares (p : Nat) (k k' : Kernel) : Prop where
  pcb : ∀ x, x ≠ p → k'.pcb x = k.pcb x
  current : k'.current = k.current
  cr3 : k'.cr3 = k.cr3
  tssEsp0 : k'.tssEsp0 = k.tssEsp0

theorem Spares.trans {p : Nat} {k k' k'' : Kernel} (h : Spares p k k') (h' : Spares p k' k'') :
    Spares p k k'' :=
  ⟨fun x hx => (h'.pcb x hx).trans (h.pcb x hx), h'.current.trans h.current,
    h'.cr3.trans h.cr3, h'.tssEsp0.trans h.tssEsp0⟩

theorem modPcb_spares (k : Kernel) (p : Nat) (f : Pcb → Pcb) : Spares p k (k.modPcb p f) :=
  ⟨fun _ hx => Function.update_of_ne hx _ _, rfl, rfl, rfl⟩

/-- What happens outside the lists does not matter to the invariant. -/
theorem SchedInv.spare {img : Image} {k k' : Kernel} {q zs : List Nat} {p : Nat}
    (h : SchedInv img k q zs) (hspares : Spares p k k') (hp : p ∉ q ++ zs)
    (hlinks : k'.links = k.links) (hnext : ∀ x, x ≠ p → k'.next x = k.next x) :
    SchedInv img k' q zs := by
  have hne : ∀ x, x ∈ q ++ zs → x ≠ p := fun x hx hxp => hp (hxp ▸ hx)
  have hcur := hspares.pcb _ (hne _ (List.mem_append_left zs h.current))
  refine ⟨h.toLists.congr hlinks (fun x hx => hnext x (hne x hx)) fun x hx => ?_, ?_, ?_, ?_⟩
  · rw [hspares.pcb x (hne x hx)]
  · rw [hspares.current]
    exact h.current
  · rw [hspares.current, hcur]
    exact h.running
  · rw [hspares.cr3, hspares.current, hcur]
    exact h.cr3

theorem registerProcess_added {k k₁ k₂ : Kernel} {p : Nat} (henq : schedulerEnqueue k p = k₁)
    (hadd : procTableAdd k₁ p = (k₂, true)) : registerProcess k p = .ok (k₂, p) := by
  unfold registerProcess
  simp only [henq, hadd]

/-- The kernel after a process has given back its frames and its control block. -/
def Kernel.withdraw (k : Kernel) (p : Nat) (heap : Kmalloc.Heap) : Kernel :=
  { k with ms := releaseFrames k.ms (k.pcb p).frames, heap := heap }

theorem registerProcess_full {k k₁ k₂ : Kernel} {p : Nat} {heap : Kmalloc.Heap}
    (henq : schedulerEnqueue k p = k₁) (hfull : procTableAdd k₁ p = (k₁, false))
    (hdeq : schedulerDequeue k₁ p = .ok k₂) (hfree : Kmalloc.kfree k₂.heap p = .ok heap) :
    registerProcess k p = .ok (k₂.withdraw p heap, 0) := by
  unfold registerProcess
  simp only [henq, hfull, hdeq, bind_ok, hfree]
  rfl

/-- Registering a process puts it at the end of the queue, or, when the table is
full, gives back all it has. -/
theorem registerProcess_inv {img : Image} {k : Kernel} {q zs : List Nat} {p : Nat}
    (h : SchedInv img k q zs) (hp : p ≠ 0) (hnew : p ∉ q ++ zs) (hidle : p ≠ img.idlePcb)
    (hheap : HeapOk img k.heap (p :: (q ++ zs))) :
    ∃ k' r, registerProcess k p = .ok (k', r) ∧ Spares p k k' ∧ k'.nextPid = k.nextPid ∧
      (k'.pcb p).ident = (k.pcb p).ident ∧
      (slotFree k = true ∧ r = p ∧ Inv img k' (q ++ [p]) zs ∧ k'.ms = k.ms ∧
          (∃ i, i < maxProcesses ∧ k.procTable i = 0 ∧
            k'.procTable = Function.update k.procTable i p) ∨
        slotFree k = false ∧ r = 0 ∧ Inv img k' q zs ∧
          k'.ms = releaseFrames k.ms (k.pcb p).frames ∧ k'.procTable = k.procTable ∧
          Kmalloc.kfree k.heap p = .ok k'.heap) := by
  have hpq : p ∉ q := fun hpq => hnew (List.mem_append_left zs hpq)
  have hbound := h.queue_bound
  unfold turns at hbound
  obtain ⟨n, hd, henq, hqueue, hnext⟩ := schedulerEnqueue_spec h.queue hbound hp hpq
  have hident : ((k.setState p .ready).pcb p).ident = (k.pcb p).ident := by
    change (Function.update k.pcb p _ p).ident = _
    rw [Function.update_self]
    rfl
  have hspares := modPcb_spares k p fun b => { b with state := .ready }
  rcases procTableAdd_spec ((k.setState p .ready).withQueue n hd p (q.length + 1)) p with
    ⟨hslot, i, hi, hfree, hadd⟩ | ⟨hslot, hfull⟩
  · refine ⟨_, p, registerProcess_added henq hadd, ⟨hspares.pcb, rfl, rfl, rfl⟩, rfl, hident,
      Or.inl ⟨hslot, rfl, ?_, rfl, i, hi, hfree, rfl⟩⟩
    refine ⟨h.insert hp hnew hqueue hnext hi hfree, hheap.mono ?_⟩
    intro x hx
    simpa [or_comm, or_left_comm, or_assoc] using hx
  · have hq : QueueIs ((k.setState p .ready).withQueue n hd p (q.length + 1)) (q ++ [p]) :=
      ⟨hqueue, by simp⟩
    obtain ⟨n', hd', tl', hdeq, hqueue', -, hnext'⟩ := schedulerDequeue_spec hq
      (by rw [List.length_append]; exact hbound)
    rw [List.append_nil] at hqueue' hdeq
    have hsub : ∀ x ∈ q ++ zs, x ∈ p :: (q ++ zs) ∧ x ≠ p := fun x hx =>
      ⟨List.mem_cons_of_mem p hx, fun hxp => hnew (hxp ▸ hx)⟩
    obtain ⟨heap', hkfree, hheap'⟩ := hheap.kfree List.mem_cons_self hidle hsub
    have hready : SchedInv img (k.setState p .ready) q zs :=
      h.spare hspares hnew rfl fun _ _ => rfl
    have hzs : ∀ y ∈ zs, n' y = k.next y := by
      intro y hy
      have hyp : y ≠ p := fun hyp => hnew (hyp ▸ List.mem_append_right q hy)
      have hyq : y ∉ q := fun hyq => h.notMem_zombies hyq hy
      have hyout : y ∉ q ++ [p] := by simp [hyq, hyp]
      exact (hnext' y hyout).trans (hnext y hyq hyp)
    have hlists := hready.toLists.requeue (List.Perm.refl q) hqueue' hzs
    have hsize : (k.setState p .ready).queueSize = q.length := h.queue.size
    rw [hsize] at hlists
    refine ⟨_, 0, registerProcess_full henq hfull hdeq hkfree, ⟨hspares.pcb, rfl, rfl, rfl⟩, rfl,
      hident, Or.inr ⟨hslot, rfl, ⟨?_, hheap'⟩, ?_, rfl, hkfree⟩⟩
    · exact ⟨hlists.congr rfl (fun _ _ => rfl) fun _ _ => rfl, hready.current, hready.running,
        hready.cr3⟩
    · exact congrArg (releaseFrames k.ms) (congrArg Ident.frames hident)

/-! ## `process_create` -/

/-- The heap has room for a control block. -/
def heapRoom (k : Kernel) : Bool :=
  match Kmalloc.kmalloc k.heap pcbBytes with
  | .ok (_, p) => decide (p ≠ 0)
  | .error _ => false

/-- What `process_create` does to memory, by the point where it ends.  The frames
are those of the new process, if there is one. -/
inductive Built (img : Image) (start : Nat) (k : Kernel) : Option Frames → Paging.State → Prop
  | heapFull (hheap : heapRoom k = false) : Built img start k none k.ms
  | noDirectory {ms₁ : Paging.State} (hpd : pagingCreateUserPd img.toStatics k.ms = (ms₁, 0)) :
      Built img start k none ms₁
  | noStack {ms₁ : Paging.State} {pmm₁ pmm₂ : Pmm.State} {f : Frames}
      (hpd : pagingCreateUserPd img.toStatics k.ms = (ms₁, f.pd)) (hpd0 : f.pd ≠ 0)
      (hlo : Pmm.pmmAllocFrame ms₁.pmm = (pmm₁, f.lo))
      (hhi : Pmm.pmmAllocFrame pmm₁ = (pmm₂, f.hi)) (hfail : f.lo = 0 ∨ f.hi = 0) :
      Built img start k none (pagingFreePd ⟨freeIf (freeIf pmm₂ f.lo) f.hi, ms₁.mem⟩ f.pd)
  | tableFull {ms₁ : Paging.State} {pmm₁ pmm₂ : Pmm.State} {f : Frames}
      (hslot : slotFree k = false)
      (hpd : pagingCreateUserPd img.toStatics k.ms = (ms₁, f.pd)) (hpd0 : f.pd ≠ 0)
      (hlo : Pmm.pmmAllocFrame ms₁.pmm = (pmm₁, f.lo))
      (hhi : Pmm.pmmAllocFrame pmm₁ = (pmm₂, f.hi)) (hlo0 : f.lo ≠ 0) (hhi0 : f.hi ≠ 0) :
      Built img start k none (releaseFrames
        ⟨pmm₂, pushWords ms₁.mem (f.hi + Pmm.pageSize) (initialStack img start)⟩ f)
  | made {ms₁ : Paging.State} {pmm₁ pmm₂ : Pmm.State} {f : Frames}
      (hheap : heapRoom k = true) (hslot : slotFree k = true)
      (hpd : pagingCreateUserPd img.toStatics k.ms = (ms₁, f.pd)) (hpd0 : f.pd ≠ 0)
      (hlo : Pmm.pmmAllocFrame ms₁.pmm = (pmm₁, f.lo))
      (hhi : Pmm.pmmAllocFrame pmm₁ = (pmm₂, f.hi)) (hlo0 : f.lo ≠ 0) (hhi0 : f.hi ≠ 0) :
      Built img start k (some f)
        ⟨pmm₂, pushWords ms₁.mem (f.hi + Pmm.pageSize) (initialStack img start)⟩

/-- How `process_create` may end: with everything taken back, or with a new process
at the end of the queue. -/
inductive Creates (img : Image) (start : Nat) (k : Kernel) (q zs : List Nat) :
    Kernel → Nat → Prop
  | failed {k' : Kernel} {p : Nat} (hnew : p ∉ q ++ zs) (hspares : Spares p k k')
      (hinv : Inv img k' q zs)
      (hpid : k'.nextPid = k.nextPid ∨ k'.nextPid = add32 k.nextPid 1)
      (hbuilt : Built img start k none k'.ms) : Creates img start k q zs k' 0
  | made {k' : Kernel} {p : Nat} (hp : p ≠ 0) (hidle : p ≠ img.idlePcb) (hnew : p ∉ q ++ zs)
      (hspares : Spares p k k') (hinv : Inv img k' (q ++ [p]) zs)
      (hpid : k'.nextPid = add32 k.nextPid 1) (hown : (k'.pcb p).pid = k.nextPid)
      (hbuilt : Built img start k (some (k'.pcb p).frames) k'.ms) :
      Creates img start k q zs k' p

section Build

variable {img : Image} {k : Kernel} {p start : Nat} {pmm₁ pmm₂ : Pmm.State} {f : Frames}
variable {heap : Kmalloc.Heap}

theorem buildProcess_noStack (hlo : Pmm.pmmAllocFrame k.ms.pmm = (pmm₁, f.lo))
    (hhi : Pmm.pmmAllocFrame pmm₁ = (pmm₂, f.hi)) (hfail : f.lo = 0 ∨ f.hi = 0)
    (hfree : Kmalloc.kfree k.heap p = .ok heap) :
    buildProcess img k p start f.pd = .ok ({ k with
      ms := pagingFreePd ⟨freeIf (freeIf pmm₂ f.lo) f.hi, k.ms.mem⟩ f.pd
      heap := heap }, 0) := by
  unfold buildProcess
  simp only [hlo, hhi, if_pos hfail, hfree]
  rfl

theorem buildProcess_stack (hlo : Pmm.pmmAllocFrame k.ms.pmm = (pmm₁, f.lo))
    (hhi : Pmm.pmmAllocFrame pmm₁ = (pmm₂, f.hi)) (hlo0 : f.lo ≠ 0) (hhi0 : f.hi ≠ 0) :
    buildProcess img k p start f.pd = registerProcess
      (giveStack img { k with ms := ⟨pmm₂, k.ms.mem⟩ } p start f.lo f.hi) p := by
  unfold buildProcess
  simp only [hlo, hhi]
  rw [if_neg (not_or.mpr ⟨hlo0, hhi0⟩)]

end Build

/-- The kernel with a zeroed control block at `p`. -/
def Kernel.blank (k : Kernel) (heap : Kmalloc.Heap) (p : Nat) : Kernel :=
  ({ k with heap := heap }.modPcb p fun _ => Pcb.zero).setNext p 0

/-- The kernel once the control block at `p` has its pid and page directory. -/
def Kernel.named (k : Kernel) (heap : Kmalloc.Heap) (p : Nat) (ms : Paging.State)
    (name : List UInt8) (priority pd : Nat) : Kernel :=
  let k := { k.blank heap p with ms := ms }
  { k.modPcb p fun _ => newControlBlock k name priority pd with nextPid := add32 k.nextPid 1 }

theorem named_pcb (k : Kernel) (heap : Kmalloc.Heap) (p : Nat) (ms : Paging.State)
    (name : List UInt8) (priority pd : Nat) :
    ((k.named heap p ms name priority pd).pcb p).pid = k.nextPid ∧
      ((k.named heap p ms name priority pd).pcb p).cr3 = pd := by
  unfold Kernel.named Kernel.modPcb
  simp only [Function.update_self]
  exact ⟨rfl, rfl⟩

section Equations

variable {img : Image} {k : Kernel} {p start pd : Nat} {heap heap' : Kmalloc.Heap}
variable {ms : Paging.State}
variable (name : List UInt8) (priority : Nat)

theorem processCreate_noBlock (hret : Kmalloc.kmalloc k.heap pcbBytes = .ok (heap, 0)) :
    processCreate img k name start priority = .ok ({ k with heap := heap }, 0) := by
  unfold processCreate
  rw [hret]
  rfl

theorem processCreate_noDirectory (hret : Kmalloc.kmalloc k.heap pcbBytes = .ok (heap, p))
    (hp : p ≠ 0) (hpd : pagingCreateUserPd img.toStatics k.ms = (ms, 0))
    (hfree : Kmalloc.kfree heap p = .ok heap') :
    processCreate img k name start priority =
      .ok ({ k.blank heap p with ms := ms, heap := heap' }, 0) := by
  unfold processCreate
  rw [hret, bind_ok]
  simp only [if_neg hp, setNext_ms, modPcb_ms, hpd, setNext_heap, modPcb_heap, if_true, hfree]
  rfl

theorem processCreate_directory (hret : Kmalloc.kmalloc k.heap pcbBytes = .ok (heap, p))
    (hp : p ≠ 0) (hpd : pagingCreateUserPd img.toStatics k.ms = (ms, pd)) (hpd0 : pd ≠ 0) :
    processCreate img k name start priority =
      buildProcess img (k.named heap p ms name priority pd) p start pd := by
  unfold processCreate
  rw [hret, bind_ok]
  simp only [if_neg hp, setNext_ms, modPcb_ms, hpd, if_neg hpd0]
  rfl

end Equations

/-- What a failed call did to the heap: the request was refused, or the block was given
back. -/
inductive BlockReturned (heap : Kmalloc.Heap) : Kmalloc.Heap → Prop
  | refused {heap' : Kmalloc.Heap} (hret : Kmalloc.kmalloc heap pcbBytes = .ok (heap', 0)) :
      BlockReturned heap heap'
  | freed {heap₁ heap' : Kmalloc.Heap} {p : Nat}
      (hret : Kmalloc.kmalloc heap pcbBytes = .ok (heap₁, p)) (hp : p ≠ 0)
      (hfree : Kmalloc.kfree heap₁ p = .ok heap') : BlockReturned heap heap'

/-- `process_create` returns and keeps the invariant; when it fails the table is as it
was and the control block is given back.  A pid is taken once there is a directory. -/
theorem processCreate_ends {img : Image} {k : Kernel} {q zs : List Nat} (h : Inv img k q zs)
    (name : List UInt8) (start priority : Nat) :
    ∃ k' r, processCreate img k name start priority = .ok (k', r) ∧
      Creates img start k q zs k' r ∧
      (r = 0 → k'.procTable = k.procTable ∧ BlockReturned k.heap k'.heap) ∧
      (r ≠ 0 → ∃ i, i < maxProcesses ∧ k.procTable i = 0 ∧
        k'.procTable = Function.update k.procTable i r) ∧
      (heapRoom k = true → (pagingCreateUserPd img.toStatics k.ms).2 ≠ 0 →
        k'.nextPid = add32 k.nextPid 1) := by
  obtain ⟨heap, p, hret, hheap, hblock⟩ := h.heap.kmalloc pcbBytes
  have h₀ : SchedInv img { k with heap := heap } q zs :=
    h.toSchedInv.spare (p := 0) ⟨fun _ _ => rfl, rfl, rfl, rfl⟩ h.zero_notMem rfl fun _ _ => rfl
  have hroom : heapRoom k = decide (p ≠ 0) := by
    unfold heapRoom
    rw [hret]
  by_cases hp : p = 0
  · subst hp
    exact ⟨_, 0, processCreate_noBlock name priority hret, .failed h.zero_notMem
      ⟨fun _ _ => rfl, rfl, rfl, rfl⟩ ⟨h₀, hheap⟩ (Or.inl rfl) (.heapFull hroom),
      fun _ => ⟨rfl, .refused hret⟩, fun h0 => absurd rfl h0,
      fun hsome => absurd (hroom.symm.trans hsome) (by simp)⟩
  rw [decide_eq_true hp] at hroom
  obtain ⟨hidle, hnew, hmore⟩ := hblock hp
  have hsub : ∀ x ∈ q ++ zs, x ∈ p :: (q ++ zs) ∧ x ≠ p := fun x hx =>
    ⟨List.mem_cons_of_mem p hx, fun hxp => hnew (hxp ▸ hx)⟩
  obtain ⟨heap', hfree, hheap'⟩ := hmore.kfree List.mem_cons_self hidle hsub
  have hpcb : ∀ x, x ≠ p → (k.blank heap p).pcb x = k.pcb x := fun x hx =>
    Function.update_of_ne hx _ _
  have hnext : ∀ x, x ≠ p → (k.blank heap p).next x = k.next x := fun x hx =>
    Function.update_of_ne hx _ _
  obtain ⟨ms₁, pd, hpd⟩ : ∃ ms₁ pd, pagingCreateUserPd img.toStatics k.ms = (ms₁, pd) :=
    ⟨_, _, rfl⟩
  by_cases hpd0 : pd = 0
  · subst hpd0
    refine ⟨_, 0, processCreate_noDirectory name priority hret hp hpd hfree, .failed hnew
      ⟨hpcb, rfl, rfl, rfl⟩ ⟨?_, hheap'⟩ (Or.inl rfl) (.noDirectory hpd),
      fun _ => ⟨rfl, .freed hret hp hfree⟩, fun h0 => absurd rfl h0,
      fun _ hne => absurd (congrArg Prod.snd hpd) hne⟩
    exact h.toSchedInv.spare ⟨hpcb, rfl, rfl, rfl⟩ hnew rfl hnext
  rw [processCreate_directory name priority hret hp hpd hpd0]
  set k₁ := k.named heap p ms₁ name priority pd with hk₁
  obtain ⟨hpid₁, hcr3₁⟩ := named_pcb k heap p ms₁ name priority pd
  have hspares₁ : Spares p k k₁ :=
    ⟨fun x hx => (Function.update_of_ne hx _ _).trans (hpcb x hx), rfl, rfl, rfl⟩
  obtain ⟨pmm₁, lo, hlo⟩ : ∃ pmm₁ lo, Pmm.pmmAllocFrame ms₁.pmm = (pmm₁, lo) := ⟨_, _, rfl⟩
  obtain ⟨pmm₂, hi, hhi⟩ : ∃ pmm₂ hi, Pmm.pmmAllocFrame pmm₁ = (pmm₂, hi) := ⟨_, _, rfl⟩
  let f : Frames := ⟨pd, lo, hi⟩
  by_cases hfail : f.lo = 0 ∨ f.hi = 0
  · refine ⟨_, 0, buildProcess_noStack (f := f) hlo hhi hfail hfree, .failed hnew
      ⟨hspares₁.pcb, rfl, rfl, rfl⟩ ⟨?_, hheap'⟩ (Or.inr rfl) (.noStack hpd hpd0 hlo hhi hfail),
      fun _ => ⟨rfl, .freed hret hp hfree⟩, fun h0 => absurd rfl h0, fun _ _ => rfl⟩
    exact h.toSchedInv.spare ⟨hspares₁.pcb, rfl, rfl, rfl⟩ hnew rfl hnext
  obtain ⟨hlo0, hhi0⟩ := not_or.mp hfail
  rw [show buildProcess img k₁ p start pd = _ from buildProcess_stack (f := f) hlo hhi hlo0 hhi0]
  set k₂ := giveStack img { k₁ with ms := ⟨pmm₂, k₁.ms.mem⟩ } p start f.lo f.hi with hk₂
  have hspares₂ : Spares p k k₂ :=
    ⟨fun x hx => (Function.update_of_ne hx _ _).trans (hspares₁.pcb x hx), rfl, rfl, rfl⟩
  have hpcb₂ : k₂.pcb p = { k₁.pcb p with
      stackFrameLo := lo
      stackFrameHi := hi
      kernelStackTop := hi + Pmm.pageSize
      esp := hi + Pmm.pageSize - 40 } := Function.update_self ..
  have hframes : (k₂.pcb p).frames = f := by
    rw [hpcb₂]
    exact congrArg (fun cr3 => Frames.mk cr3 lo hi) hcr3₁
  have h₂ : SchedInv img k₂ q zs := h.toSchedInv.spare hspares₂ hnew rfl hnext
  obtain ⟨k', r, hreg, hspares', hnp, hident, hend⟩ :=
    registerProcess_inv h₂ hp hnew hidle hmore
  have hframes' : (k'.pcb p).frames = f := (congrArg Ident.frames hident).trans hframes
  have hms₂ : k₂.ms =
      ⟨pmm₂, pushWords ms₁.mem (f.hi + Pmm.pageSize) (initialStack img start)⟩ := rfl
  rcases hend with ⟨hslot, rfl, hinv, hms, hadded⟩ | ⟨hslot, rfl, hinv, hms, htable, hback⟩
  · refine ⟨k', r, hreg, .made hp hidle hnew (hspares₂.trans hspares') hinv hnp ?_ ?_,
      fun h0 => absurd h0 hp, fun _ => hadded, fun _ _ => hnp⟩
    · have hpid' : (k'.pcb r).pid = (k₂.pcb r).pid := congrArg Ident.pid hident
      rw [hpid', hpcb₂]
      exact hpid₁
    · rw [hms, hms₂, hframes']
      exact .made hroom hslot hpd hpd0 hlo hhi hlo0 hhi0
  · refine ⟨k', 0, hreg, .failed hnew (hspares₂.trans hspares') hinv (Or.inr hnp) ?_,
      fun _ => ⟨htable, .freed hret hp hback⟩, fun h0 => absurd rfl h0, fun _ _ => hnp⟩
    rw [hms, hms₂, hframes]
    exact .tableFull hslot hpd hpd0 hlo hhi hlo0 hhi0

/-- `process_create` returns and keeps the invariant. -/
theorem processCreate_inv {img : Image} {k : Kernel} {q zs : List Nat} (h : Inv img k q zs)
    (name : List UInt8) (start priority : Nat) :
    ∃ k' r, processCreate img k name start priority = .ok (k', r) ∧
      Creates img start k q zs k' r := by
  obtain ⟨k', r, hret, hcreate, -⟩ := processCreate_ends h name start priority
  exact ⟨k', r, hret, hcreate⟩

/-! ## `process_create_from_elf` -/

/-- What loading an image does to memory; the flag says whether it succeeded. -/
inductive Loads (base : Nat) (data : Mem) (pd : Nat) (ms : Paging.State) :
    Bool → Paging.State → Prop
  | noImage {ms₁ : Paging.State} (hload : Elf.elf32Load data ms pd = .ok (ms₁, false)) :
      Loads base data pd ms false ms₁
  | noStack {ms₁ ms₂ : Paging.State} (hload : Elf.elf32Load data ms pd = .ok (ms₁, true))
      (hstack : mapStack pd (stackPages base) ms₁ = .ok (ms₂, false)) :
      Loads base data pd ms false ms₂
  | loaded {ms₁ ms₂ : Paging.State} (hload : Elf.elf32Load data ms pd = .ok (ms₁, true))
      (hstack : mapStack pd (stackPages base) ms₁ = .ok (ms₂, true)) :
      Loads base data pd ms true ms₂

/-- The process `p`, last on the queue, ends up loaded or on the zombie list. -/
inductive LoadEnd (img : Image) (base : Nat) (data : Mem) (k : Kernel) (q zs : List Nat) (p : Nat) :
    Kernel → Nat → Prop
  | loaded {k' : Kernel} (hinv : Inv img k' (q ++ [p]) zs)
      (hloads : Loads base data (k.pcb p).cr3 k.ms true k'.ms) :
      LoadEnd img base data k q zs p k' p
  | abandoned {k' : Kernel} (hinv : Inv img k' q (p :: zs))
      (hloads : Loads base data (k.pcb p).cr3 k.ms false k'.ms) :
      LoadEnd img base data k q zs p k' 0

/-- What was loaded in either case. -/
theorem LoadEnd.loads {img : Image} {base p r : Nat} {data : Mem} {k k' : Kernel}
    {q zs : List Nat} (h : LoadEnd img base data k q zs p k' r) :
    ∃ ok, Loads base data (k.pcb p).cr3 k.ms ok k'.ms ∧ (r ≠ 0 → ok = true) := by
  cases h with
  | loaded _ hloads => exact ⟨true, hloads, fun _ => rfl⟩
  | abandoned _ hloads => exact ⟨false, hloads, fun h0 => absurd rfl h0⟩

/-- Memory is not part of the invariant. -/
theorem Inv.withMs {img : Image} {k : Kernel} {q zs : List Nat} (h : Inv img k q zs)
    (ms : Paging.State) : Inv img { k with ms := ms } q zs :=
  ⟨⟨h.toLists.congr rfl (fun _ _ => rfl) fun _ _ => rfl, h.current, h.running, h.cr3⟩, h.heap⟩

section Load

variable {img : Image} {k : Kernel} {q zs : List Nat} {p : Nat}

theorem abandon_inv (h : Inv img k (q ++ [p]) zs) (hidle : img.idlePcb ≠ p)
    (hcur : k.current ≠ p) :
    ∃ k', abandon k p = .ok (k', 0) ∧ Inv img k' q (p :: zs) ∧ Spares p k k' ∧
      k'.nextPid = k.nextPid ∧ (k'.pcb p).ident = (k.pcb p).ident ∧ k'.ms = k.ms := by
  let f : Pcb → Pcb := fun b => { b with state := .zombie }
  obtain ⟨n, hd, tl, size, hret, hlists⟩ := h.toLists.bury (f := f) hidle rfl
  rw [List.append_nil] at hlists
  have hspares := modPcb_spares k p f
  have hcurq : k.current ∈ q := by
    have hmem := h.current
    rw [List.mem_append, List.mem_singleton] at hmem
    exact hmem.resolve_right hcur
  have hkeep : (k.modPcb p f).pcb k.current = k.pcb k.current := hspares.pcb _ hcur
  have hmark : abandon k p =
      .ok ({ (k.modPcb p f).withQueue n hd tl size with zombieHead := p }, 0) := by
    unfold abandon Kernel.setState
    rw [hret]
    rfl
  refine ⟨_, hmark, ⟨⟨hlists, hcurq, ?_, ?_⟩, h.heap.mono ?_⟩, ⟨hspares.pcb, rfl, rfl, rfl⟩, rfl, ?_, rfl⟩
  · exact (congrArg Pcb.state hkeep).trans h.running
  · exact h.cr3.trans (congrArg Pcb.cr3 hkeep).symm
  · intro x hx
    simpa using hx
  · change (Function.update k.pcb p (f (k.pcb p)) p).ident = _
    rw [Function.update_self]
    rfl

theorem loadProcess_inv {base entry r : Nat} {data : Mem} {k' : Kernel}
    (h : Inv img k (q ++ [p]) zs) (hidle : img.idlePcb ≠ p) (hcur : k.current ≠ p)
    (hret : loadProcess base k p entry data = .ok (k', r)) :
    LoadEnd img base data k q zs p k' r ∧ Spares p k k' ∧ k'.nextPid = k.nextPid ∧
      (k'.pcb p).ident = (k.pcb p).ident := by
  unfold loadProcess at hret
  obtain ⟨⟨ms₁, ok⟩, hload, hret⟩ := bind_eq_ok.mp hret
  cases ok with
  | false =>
      simp only [Bool.not_false, if_true] at hret
      obtain ⟨k₁, habandon, hinv, hspares, hnp, hident, hms⟩ :=
        abandon_inv (h.withMs ms₁) hidle hcur
      rw [habandon] at hret
      cases hret
      refine ⟨.abandoned hinv ?_, ⟨hspares.pcb, hspares.current, hspares.cr3, hspares.tssEsp0⟩,
        hnp, hident⟩
      rw [hms]
      exact .noImage hload
  | true =>
      simp only [Bool.not_true, Bool.false_eq_true, if_false] at hret
      obtain ⟨⟨ms₂, ok⟩, hstack, hret⟩ := bind_eq_ok.mp hret
      cases ok with
      | false =>
          simp only [Bool.not_false, if_true] at hret
          obtain ⟨k₁, habandon, hinv, hspares, hnp, hident, hms⟩ :=
            abandon_inv (h.withMs ms₂) hidle hcur
          rw [habandon] at hret
          cases hret
          refine ⟨.abandoned hinv ?_,
            ⟨hspares.pcb, hspares.current, hspares.cr3, hspares.tssEsp0⟩, hnp, hident⟩
          rw [hms]
          exact .noStack hload hstack
      | true =>
          simp only [Bool.not_true, Bool.false_eq_true, if_false] at hret
          cases hret
          set f : Pcb → Pcb := fun b =>
            { b with
              userEntry := entry
              userStackTop := base + userStackPages * Pmm.pageSize } with hf
          have hclock : Clocked f := ⟨fun _ => rfl, fun _ => rfl⟩
          have hinv := h.withMs ms₂
          exact ⟨.loaded ⟨hinv.toSchedInv.clock hclock p, hinv.heap⟩ (.loaded hload hstack),
            ⟨(modPcb_spares _ p f).pcb, rfl, rfl, rfl⟩, rfl,
            hclock.pcb_ident (k := { k with ms := ms₂ }) (p := p) p⟩

end Load

/-- How `process_create_from_elf` may end when it returns. -/
inductive CreatesElf (img : Image) (base : Nat) (data : Mem) (k : Kernel) (q zs : List Nat) :
    Kernel → Nat → Prop
  | invalid (h : Inv img k q zs) (hvalid : (Elf.elf32Validate data).isSome = false) :
      CreatesElf img base data k q zs k 0
  | notCreated {k' : Kernel} (hcreate : Creates img img.userModeTrampoline k q zs k' 0) :
      CreatesElf img base data k q zs k' 0
  | created {k₁ k' : Kernel} {p r : Nat} (hvalid : (Elf.elf32Validate data).isSome = true)
      (hp : p ≠ 0)
      (hcreate : Creates img img.userModeTrampoline k q zs k₁ p)
      (hload : LoadEnd img base data k₁ q zs p k' r) (hspares : Spares p k₁ k')
      (hpid : k'.nextPid = k₁.nextPid) (hident : (k'.pcb p).ident = (k₁.pcb p).ident) :
      CreatesElf img base data k q zs k' r

theorem createFromElfAt_inv {img : Image} {base priority r : Nat} {k k' : Kernel}
    {q zs : List Nat} {name : List UInt8} {data : Mem} (h : Inv img k q zs)
    (hret : createFromElfAt img base k name data priority = .ok (k', r)) :
    CreatesElf img base data k q zs k' r := by
  unfold createFromElfAt at hret
  cases hvalid : Elf.elf32Validate data with
  | none =>
      rw [hvalid] at hret
      cases hret
      exact .invalid h (by rw [hvalid]; rfl)
  | some entry =>
      rw [hvalid] at hret
      obtain ⟨k₁, p, hcall, hcreate⟩ := processCreate_inv h name img.userModeTrampoline priority
      simp only [hcall, bind_ok] at hret
      by_cases hp : p = 0
      · subst hp
        rw [if_pos rfl] at hret
        cases hret
        exact .notCreated hcreate
      · rw [if_neg hp] at hret
        cases hcreate with
        | failed => exact absurd rfl hp
        | made hp hidle hnew hspares hinv hpid hown hbuilt =>
            have hcur : k₁.current ≠ p := by
              rw [hspares.current]
              exact fun hcp => hnew (hcp ▸ List.mem_append_left zs h.current)
            obtain ⟨hload, hspares', hpid', hident⟩ :=
              loadProcess_inv hinv (Ne.symm hidle) hcur hret
            exact .created (by rw [hvalid]; rfl) hp (.made hp hidle hnew hspares hinv hpid hown hbuilt) hload hspares'
              hpid' hident

end StakOS.Process
