import StakOS.Isolation.Runs
import StakOS.Kmalloc.Coalesced
import StakOS.Paging.Release

/-!
# A creation that fails

`process_create` takes a heap block, a page directory and two stack frames, and
enters the process in the queue and the table.  Whichever of these fails, the
call takes back what it has: the kernel is as it was, but for the next pid and
the free blocks of the heap.
-/

namespace StakOS.Process

open StakOS.Lib.Memory StakOS.Lib.Loop StakOS.Lib.Linked StakOS.Lib.Ownership StakOS.Paging
open Relation (ReflTransGen)

/-! ## Frames -/

theorem pagingCreateUserPd_pmm (st : Statics) (s : Paging.State) :
    (pagingCreateUserPd st s).1.pmm = (Pmm.pmmAllocFrame s.pmm).1 := by
  unfold pagingCreateUserPd
  by_cases hpd : (Pmm.pmmAllocFrame s.pmm).2 = 0
  · simp only [if_pos hpd]
  · simp only [if_neg hpd]

/-- `freeIf` frees one frame or none. -/
theorem freeIf_eq_foldl (pmm : Pmm.State) (a : Nat) :
    ∃ as : List Nat, freeIf pmm a = as.foldl Pmm.pmmFreeFrame pmm := by
  unfold freeIf
  by_cases ha : a = 0
  · exact ⟨[], if_pos ha⟩
  · exact ⟨[a], if_neg ha⟩

section Taken

variable {st : Statics} {s ms₁ : Paging.State} {pmm₁ pmm₂ : Pmm.State} {pd lo hi : Nat}

/-- The allocator after the directory and the stack have been asked for. -/
theorem taken_pmm (hpd : pagingCreateUserPd st s = (ms₁, pd))
    (hlo : Pmm.pmmAllocFrame ms₁.pmm = (pmm₁, lo)) (hhi : Pmm.pmmAllocFrame pmm₁ = (pmm₂, hi)) :
    pmm₂ = (Pmm.pmmAllocFrame (Pmm.pmmAllocFrame (Pmm.pmmAllocFrame s.pmm).1).1).1 := by
  rw [← pagingCreateUserPd_pmm st s, hpd, hlo, hhi]

theorem taken_inStep (hpd : pagingCreateUserPd st s = (ms₁, pd))
    (hlo : Pmm.pmmAllocFrame ms₁.pmm = (pmm₁, lo)) (hhi : Pmm.pmmAllocFrame pmm₁ = (pmm₂, hi)) :
    Pmm.InStep s.pmm pmm₂ := by
  rw [taken_pmm hpd hlo hhi]
  exact ((Pmm.inStep_alloc _).trans (Pmm.inStep_alloc _)).trans (Pmm.inStep_alloc _)

theorem taken_calls (hpd : pagingCreateUserPd st s = (ms₁, pd))
    (hlo : Pmm.pmmAllocFrame ms₁.pmm = (pmm₁, lo)) (hhi : Pmm.pmmAllocFrame pmm₁ = (pmm₂, hi)) :
    ReflTransGen Pmm.AnyCall s.pmm pmm₂ := by
  rw [taken_pmm hpd hlo hhi]
  exact ((ReflTransGen.single (.alloc _)).tail (.alloc _)).tail (.alloc _)

end Taken

/-- A failed call takes up to three frames and then only gives frames back. -/
theorem Built.taken_back {img : Image} {start : Nat} {k : Kernel} {ms : Paging.State}
    (h : Built img start k none ms) :
    ∃ (pmm : Pmm.State) (as : List Nat), Pmm.InStep k.ms.pmm pmm ∧
      ms.pmm = as.foldl Pmm.pmmFreeFrame pmm := by
  cases h with
  | heapFull => exact ⟨k.ms.pmm, [], .refl _, rfl⟩
  | noDirectory hpd =>
      have hpmm := pagingCreateUserPd_pmm img.toStatics k.ms
      rw [hpd] at hpmm
      exact ⟨_, [], hpmm ▸ Pmm.inStep_alloc k.ms.pmm, rfl⟩
  | @noStack ms₁ pmm₁ pmm₂ f hpd hpd0 hlo hhi hfail =>
      obtain ⟨as, has⟩ := freeIf_eq_foldl pmm₂ f.lo
      obtain ⟨bs, hbs⟩ := freeIf_eq_foldl (freeIf pmm₂ f.lo) f.hi
      refine ⟨pmm₂, as ++ bs ++ pdFrames ms₁.mem f.pd, taken_inStep hpd hlo hhi, ?_⟩
      rw [pagingFreePd_pmm hpd0, List.foldl_append, List.foldl_append, ← has, ← hbs]
  | @tableFull ms₁ pmm₁ pmm₂ f hslot hpd hpd0 hlo hhi hlo0 hhi0 =>
      refine ⟨pmm₂, [f.lo, f.hi] ++ pdFrames (pushWords ms₁.mem (f.hi + Pmm.pageSize)
        (initialStack img start)) f.pd, taken_inStep hpd hlo hhi, ?_⟩
      unfold releaseFrames
      rw [pagingFreePd_pmm hpd0, List.foldl_append]
      rfl

/-- The frame allocator ends in the state it started in. -/
theorem Built.pmm_eq {img : Image} {start : Nat} {k : Kernel} {ms : Paging.State}
    (hzero : 0 ∈ Pmm.usedFrames k.ms.pmm) (hword : k.ms.pmm.freeFrames < 2 ^ 32)
    (h : Built img start k none ms) : ms.pmm = k.ms.pmm := by
  have hused := (h.failed hzero).used
  obtain ⟨pmm, as, hstep, hpmm⟩ := h.taken_back
  rw [hpmm] at hused ⊢
  apply Pmm.InStep.eq _ hused
  apply hstep.foldl_free hword
  apply Pmm.freeSet_subset_iff.mpr
  exact hused.ge

/-! ## The heap -/

/-- The blocks handed out are the same, wherever the free ones begin and end. -/
theorem BlockReturned.live {heap heap' : Kmalloc.Heap} {bs : List Kmalloc.Block}
    (hl : Kmalloc.HeapList heap.mem heap.heapStart bs) (h : BlockReturned heap heap') (x n : Nat) :
    Kmalloc.LiveBlock heap' x n ↔ Kmalloc.LiveBlock heap x n := by
  cases h with
  | freed hret hp hfree => exact Kmalloc.kmalloc_kfree_live hl hret hp hfree
  | refused hret =>
      rcases Kmalloc.kmalloc_cases hl pcbBytes with ⟨hsame, -⟩ | ⟨pre, b, post, -, -, -, -, hsome, -⟩
      · rw [hret] at hsame
        cases hsame
        rfl
      · rw [hret] at hsome
        have hnull : 0 = b.payload := congrArg Prod.snd (Except.ok.inj hsome)
        unfold Kmalloc.Block.payload at hnull
        omega

/-! ## The whole kernel -/

/-- What a call left as it was.  Blocks are named by their headers and sizes, lists by
the processes they visit; memory has changed in frames that are not in use only. -/
structure Unchanged (k k' : Kernel) : Prop where
  bitmap : k'.ms.pmm.bitmap = k.ms.pmm.bitmap
  freeFrames : k'.ms.pmm.freeFrames = k.ms.pmm.freeFrames
  memory : ∀ x, frameOf x ∈ Pmm.usedFrames k.ms.pmm → k'.ms.mem x = k.ms.mem x
  blocks : ∀ x n, Kmalloc.LiveBlock k'.heap x n ↔ Kmalloc.LiveBlock k.heap x n
  table : k'.procTable = k.procTable
  pcb : ∀ p, InTable k p → k'.pcb p = k.pcb p
  current : k'.current = k.current
  cr3 : k'.cr3 = k.cr3
  tssEsp0 : k'.tssEsp0 = k.tssEsp0
  zombies : ∀ ps, 0 ∉ ps → (Chain k'.next k'.zombieHead ps 0 ↔ Chain k.next k.zombieHead ps 0)
  queue : ∀ ps, 0 ∉ ps → (Chain k'.next k'.queueHead ps 0 ↔ Chain k.next k.queueHead ps 0)
  queueTail : k'.queueTail = k.queueTail
  queueSize : k'.queueSize = k.queueSize
  nextPid : k'.nextPid = k.nextPid ∨ k'.nextPid = add32 k.nextPid 1

/-- Two lists that visit the same processes are visited by the same lists. -/
theorem chain_iff_of_chain {n n' : Nat → Nat} {p p' : Nat} {xs : List Nat} (h : Chain n p xs 0)
    (h' : Chain n' p' xs 0) (hxs : 0 ∉ xs) {ps : List Nat} (hps : 0 ∉ ps) :
    Chain n' p' ps 0 ↔ Chain n p ps 0 := by
  constructor
  · intro hchain
    rw [hchain.unique h' hps hxs]
    exact h
  · intro hchain
    rw [hchain.unique h hps hxs]
    exact h'

theorem unchanged_of_failed {img : Image} {k k' : Kernel} {q zs : List Nat} {name : List UInt8}
    {start priority : Nat} (h : Inv img k q zs) (hzero : 0 ∈ Pmm.usedFrames k.ms.pmm)
    (hword : k.ms.pmm.freeFrames < 2 ^ 32)
    (hfail : processCreate img k name start priority = .ok (k', 0)) : Unchanged k k' := by
  obtain ⟨k₁, r, hret, hcreate, hback, -⟩ := processCreate_ends h name start priority
  rw [hfail] at hret
  cases hret
  obtain ⟨htable, hblock⟩ := hback rfl
  cases hcreate with
  | made hp => exact absurd rfl hp
  | failed hnew hspares hinv hpid hbuilt =>
      have hpmm := hbuilt.pmm_eq hzero hword
      obtain ⟨bytes, live, bs, hholds, -⟩ := h.heap
      have hq : 0 ∉ q := h.queue.queue.nonNull
      exact {
        bitmap := congrArg Pmm.State.bitmap hpmm
        freeFrames := congrArg Pmm.State.freeFrames hpmm
        memory := fun x hx => (hbuilt.failed hzero).same x fun hout => hout hx
        blocks := hblock.live hholds.list
        table := htable
        pcb := fun p hp => hspares.pcb p fun hpn => hnew (hpn ▸ h.inTable_iff.mp hp)
        current := hspares.current
        cr3 := hspares.cr3
        tssEsp0 := hspares.tssEsp0
        zombies := fun ps hps => chain_iff_of_chain h.zombies hinv.zombies h.nonNull hps
        queue := fun ps hps =>
          chain_iff_of_chain h.queue.queue.chain hinv.queue.queue.chain hq hps
        queueTail := hinv.queue.queue.tail_eq.trans h.queue.queue.tail_eq.symm
        queueSize := hinv.queue.size.trans h.queue.size.symm
        nextPid := hpid }

/-! ## Reachable kernels -/

/-- A frame that a part of the kernel took for itself: handed out, in no slot of a
process, and not entered in a shared table. -/
structure Loose (img : Image) (pmm₀ : Pmm.State) (k : Kernel) (a : Nat) : Prop where
  out : a ∈ handedOut pmm₀ k.ms.pmm
  notHeld : ∀ p ∈ procsIn img k, a ∉ heldFrames k.ms.mem (framesOf k p)
  notShared : ∀ i j, i < identityPtCount → j < ptEntries →
    hasFlag (entry k.ms.mem (img.identityPts + 4096 * i) j) pteUser = true →
    frameOf (entry k.ms.mem (img.identityPts + 4096 * i) j) ≠ a

/-- The kernel at work: processes are made, run, are switched and end, and other parts
of the kernel use the heap and the frame allocator for themselves. -/
inductive Activity (img : Image) (pmm₀ : Pmm.State) : Machine → Machine → Prop
  | event {s s' : Machine}
      (hstep : Step img userStackBase (Permitted False img userStackBase) s s') :
      Activity img pmm₀ s s'
  | kmalloc {s : Machine} {heap : Kmalloc.Heap} {sz p : Nat}
      (hret : Kmalloc.kmalloc s.kernel.heap sz = .ok (heap, p)) :
      Activity img pmm₀ s { s with kernel := { s.kernel with heap := heap } }
  | kfree {s : Machine} {heap : Kmalloc.Heap} {x n : Nat}
      (hlive : Kmalloc.LiveBlock s.kernel.heap x n) (hown : ¬InTable s.kernel (x + 16))
      (hret : Kmalloc.kfree s.kernel.heap (x + 16) = .ok heap) :
      Activity img pmm₀ s { s with kernel := { s.kernel with heap := heap } }
  | allocFrame (s : Machine) :
      Activity img pmm₀ s { s with kernel := { s.kernel with
        ms := ⟨(Pmm.pmmAllocFrame s.kernel.ms.pmm).1, s.kernel.ms.mem⟩ } }
  | freeFrame {s : Machine} {a : Nat} (hloose : Loose img pmm₀ s.kernel a) :
      Activity img pmm₀ s { s with kernel := { s.kernel with
        ms := ⟨Pmm.pmmFreeFrame s.kernel.ms.pmm a, s.kernel.ms.mem⟩ } }

section Keeps

variable {img : Image} {pmm₀ : Pmm.State} {s : Machine} {q zs : List Nat} {heap : Kmalloc.Heap}

theorem Inv.withHeap {k : Kernel} (h : Inv img k q zs) (hheap : HeapOk img heap (q ++ zs)) :
    Inv img { k with heap := heap } q zs := by
  refine ⟨?_, hheap⟩
  exact h.toSchedInv.spare (p := 0) ⟨fun _ _ => rfl, rfl, rfl, rfl⟩ h.zero_notMem rfl fun _ _ => rfl

theorem MachineInv.withHeap (h : MachineInv img s q zs) (hheap : HeapOk img heap (q ++ zs)) :
    MachineInv img { s with kernel := { s.kernel with heap := heap } } q zs :=
  ⟨h.inv.withHeap hheap, h.idlePid, h.esp0, h.pids⟩

theorem MachineInv.withMs (h : MachineInv img s q zs) (ms : Paging.State) :
    MachineInv img { s with kernel := { s.kernel with ms := ms } } q zs :=
  ⟨h.inv.withMs ms, h.idlePid, h.esp0, h.pids⟩

/-- A live block that is no control block can be given back. -/
theorem HeapOk.kfree_other {procs : List Nat} {x n : Nat} {heap' : Kmalloc.Heap}
    (h : HeapOk img heap procs) (hlive : Kmalloc.LiveBlock heap x n) (hidle : x + 16 ≠ img.idlePcb)
    (hnot : x + 16 ∉ procs) (hret : Kmalloc.kfree heap (x + 16) = .ok heap') :
    HeapOk img heap' procs := by
  have hmore : HeapOk img heap ((x + 16) :: procs) := by
    obtain ⟨bytes, live, bs, hholds, hbytes, hprocs⟩ := h
    refine ⟨bytes, live, bs, hholds, hbytes, fun p hp hpi => ?_⟩
    rcases List.mem_cons.mp hp with rfl | hp
    · obtain ⟨b, hb, rfl, -⟩ := (hholds.list.liveBlock_iff).mp hlive
      obtain ⟨hb, hfree⟩ := Kmalloc.mem_live.mp hb
      exact (hholds.live _).mpr (Kmalloc.mem_used.mpr ⟨b, hb, hfree, rfl⟩)
    · exact hprocs p hp hpi
  obtain ⟨heap₁, hret₁, hheap⟩ := hmore.kfree List.mem_cons_self hidle fun p hp =>
    ⟨List.mem_cons_of_mem _ hp, fun heq => hnot (heq ▸ hp)⟩
  rw [hret] at hret₁
  cases hret₁
  exact hheap

end Keeps

theorem Loose.leases {img : Image} {pmm₀ : Pmm.State} {k : Kernel} {a : Nat}
    (ha : Loose img pmm₀ k a) (h : LeaseInv False img pmm₀ k) :
    LeaseInv False img pmm₀ { k with ms := ⟨Pmm.pmmFreeFrame k.ms.pmm a, k.ms.mem⟩ } := by
  have hused : Pmm.usedFrames (Pmm.pmmFreeFrame k.ms.pmm a) = Pmm.usedFrames k.ms.pmm \ {a} :=
    Pmm.usedFrames_pmmFreeFrame _ (Pmm.usedFrames_aligned ha.out.1)
  refine ⟨h.leases.shrink rfl (fun p hp => ⟨hp, rfl⟩) ?_ ?_ ?_, h.idleFrames⟩
  · intro b hb
    rw [hused]
    exact ⟨h.leases.kept hb, fun hba => ha.out.2 (Set.mem_singleton_iff.mp hba ▸ hb)⟩
  · intro p hp sl b hsl
    rw [hused]
    refine ⟨(h.leases.slot_handedOut hp hsl).1, fun hba => ha.notHeld p hp ⟨sl, ?_⟩⟩
    rw [← Set.mem_singleton_iff.mp hba]
    exact hsl
  · rintro b hb ⟨i, j, hi, hj, rfl, huser⟩
    rw [hused]
    exact ⟨hb.1.1, fun hba => ha.notShared i j hi hj huser (Set.mem_singleton_iff.mp hba)⟩

/-- Whatever the kernel does, its lists and its frames stay in order. -/
theorem Activity.keeps {img : Image} {pmm₀ : Pmm.State} {s s' : Machine} {q zs : List Nat}
    (hact : Activity img pmm₀ s s') (h : MachineInv img s q zs)
    (hleases : LeaseInv False img pmm₀ s.kernel) :
    (∃ q' zs', MachineInv img s' q' zs') ∧ LeaseInv False img pmm₀ s'.kernel := by
  cases hact with
  | event hstep => exact ⟨hstep.keeps h, hstep.leases userStackBase_ok h hleases⟩
  | @kmalloc heap sz p hret =>
      obtain ⟨heap₁, p₁, hret₁, hheap, -⟩ := h.inv.heap.kmalloc sz
      rw [hret] at hret₁
      cases hret₁
      exact ⟨⟨q, zs, h.withHeap hheap⟩, hleases.leases, hleases.idleFrames⟩
  | @kfree heap x n hlive hown hret =>
      have hlists := h.inv.toLists
      have hnot : x + 16 ∉ q ++ zs := fun hin => hown (hlists.inTable_iff.mpr hin)
      have hidle : x + 16 ≠ img.idlePcb := fun heq =>
        hnot (heq ▸ List.mem_append_left zs hlists.idle)
      have hheap := h.inv.heap.kfree_other hlive hidle hnot hret
      exact ⟨⟨q, zs, h.withHeap hheap⟩, hleases.leases, hleases.idleFrames⟩
  | allocFrame =>
      have hsame : SameOff ∅ s.kernel.ms.mem s.kernel.ms.mem := .refl _
      refine ⟨⟨q, zs, h.withMs _⟩, hleases.leases.rewrite hsame ?_ ?_,
        hleases.idleFrames⟩
      · exact fun a _ hin => hin
      · exact Pmm.usedFrames_subset_alloc _
  | freeFrame hloose => exact ⟨⟨q, zs, h.withMs _⟩, hloose.leases hleases⟩

/-! ### The allocator is reached through its calls only -/

theorem Maps.calls {pd : Nat} {s s' : Paging.State} {vas : List Nat} {as : List (Nat × Nat)}
    {ok : Bool} (h : Maps pd s vas as ok s') : ReflTransGen Pmm.AnyCall s.pmm s'.pmm := by
  induction h with
  | done s => exact .refl
  | @noFrame s pmm va vas halloc =>
      have hcall := Pmm.AnyCall.alloc s.pmm
      rw [halloc] at hcall
      exact .single hcall
  | @page s s₁ s' pmm m a flags va vas as ok halloc ha hfill hflags hbit hmap hrest ih =>
      have hcall := Pmm.AnyCall.alloc s.pmm
      rw [halloc] at hcall
      exact .head hcall ((pagingMapInto_calls hmap).trans ih)

theorem releaseFrames_calls (ms : Paging.State) (f : Frames) :
    ReflTransGen Pmm.AnyCall ms.pmm (releaseFrames ms f).pmm := by
  have htwo : ReflTransGen Pmm.AnyCall ms.pmm
      (Pmm.pmmFreeFrame (Pmm.pmmFreeFrame ms.pmm f.lo) f.hi) :=
    (ReflTransGen.single (.free _ _)).tail (.free _ _)
  exact htwo.trans (pagingFreePd_calls ⟨_, ms.mem⟩ f.pd)

theorem Built.calls {img : Image} {start : Nat} {k : Kernel} {fs : Option Frames}
    {ms : Paging.State} (h : Built img start k fs ms) :
    ReflTransGen Pmm.AnyCall k.ms.pmm ms.pmm := by
  cases h with
  | heapFull => exact .refl
  | noDirectory hpd =>
      have hpmm := pagingCreateUserPd_pmm img.toStatics k.ms
      rw [hpd] at hpmm
      rw [hpmm]
      exact .single (.alloc k.ms.pmm)
  | @noStack ms₁ pmm₁ pmm₂ f hpd hpd0 hlo hhi hfail =>
      obtain ⟨as, has⟩ := freeIf_eq_foldl pmm₂ f.lo
      obtain ⟨bs, hbs⟩ := freeIf_eq_foldl (freeIf pmm₂ f.lo) f.hi
      rw [pagingFreePd_pmm hpd0, hbs, has, ← List.foldl_append, ← List.foldl_append]
      exact (taken_calls hpd hlo hhi).trans (Pmm.calls_foldl_free _ _)
  | @tableFull ms₁ pmm₁ pmm₂ f hslot hpd hpd0 hlo hhi hlo0 hhi0 =>
      have hback := releaseFrames_calls ⟨pmm₂, pushWords ms₁.mem (f.hi + Pmm.pageSize)
        (initialStack img start)⟩ f
      exact (taken_calls hpd hlo hhi).trans hback
  | made hheap hslot hpd hpd0 hlo hhi hlo0 hhi0 => exact taken_calls hpd hlo hhi

theorem Creates.calls {img : Image} {start r : Nat} {k k' : Kernel} {q zs : List Nat}
    (h : Creates img start k q zs k' r) : ReflTransGen Pmm.AnyCall k.ms.pmm k'.ms.pmm := by
  cases h with
  | failed _ _ _ _ hbuilt => exact hbuilt.calls
  | made _ _ _ _ _ _ _ hbuilt => exact hbuilt.calls

theorem CreatesElf.calls {img : Image} {base r : Nat} {data : Mem} {k k' : Kernel}
    {q zs : List Nat} (h : CreatesElf img base data k q zs k' r) :
    ReflTransGen Pmm.AnyCall k.ms.pmm k'.ms.pmm := by
  cases h with
  | invalid => exact .refl
  | notCreated hcreate => exact hcreate.calls
  | created _ _ hcreate hload =>
      obtain ⟨ok, hloads, -⟩ := hload.loads
      obtain ⟨as, hmaps⟩ := hloads.maps
      exact hcreate.calls.trans (Maps.calls hmaps)

theorem releaseAll_calls (fr : Nat → Frames) (ps : List Nat) (ms : Paging.State) :
    ReflTransGen Pmm.AnyCall ms.pmm
      (ps.foldl (fun ms p => releaseFrames ms (fr p)) ms).pmm := by
  induction ps generalizing ms with
  | nil => exact .refl
  | cons p ps ih => exact (releaseFrames_calls ms (fr p)).trans (ih (releaseFrames ms (fr p)))

theorem Step.calls {img : Image} {base : Nat} {guard : Kernel → Event → Prop} {s s' : Machine}
    {q zs : List Nat} (hstep : Step img base guard s s') (h : MachineInv img s q zs) :
    ReflTransGen Pmm.AnyCall s.kernel.ms.pmm s'.kernel.ms.pmm := by
  obtain ⟨e, -, henabled, hrun⟩ := hstep
  cases Event.ends h.inv h.idlePid henabled hrun with
  | create hret hcreate => exact hcreate.calls
  | createElf hret hcreate => exact hcreate.calls
  | @tick k₁ _ _ _ ps _ hzs hq hreaped hmoves hinv =>
      simp only [Machine.after, hmoves.ms, hreaped.ms]
      exact releaseAll_calls (fun p => (s.kernel.pcb p).frames) ps s.kernel.ms
  | yield hinv hq hmoves =>
      simp only [Machine.after, hmoves.ms]
      exact .refl
  | exit hinv hprocs hmoves =>
      simp only [Machine.after, hmoves.ms]
      exact .refl
  | work mem => exact .refl

theorem Activity.calls {img : Image} {pmm₀ : Pmm.State} {s s' : Machine} {q zs : List Nat}
    (hact : Activity img pmm₀ s s') (h : MachineInv img s q zs) :
    ReflTransGen Pmm.AnyCall s.kernel.ms.pmm s'.kernel.ms.pmm := by
  cases hact with
  | event hstep => exact hstep.calls h
  | kmalloc => exact .refl
  | kfree => exact .refl
  | allocFrame => exact .single (.alloc _)
  | @freeFrame a hloose => exact .single (.free _ a)

theorem initLoop_calls (n prev : Nat) (pmm : Pmm.State) (h : Kmalloc.Heap) :
    ReflTransGen Pmm.AnyCall pmm (Kmalloc.initLoop n prev pmm h).1 := by
  induction n generalizing prev pmm h with
  | zero => exact .refl
  | succ n ih =>
      rw [Kmalloc.initLoop]
      by_cases hphys : (Pmm.pmmAllocFrame pmm).2 = 0
      · simp only [if_pos hphys]
        exact .single (.alloc pmm)
      · simp only [if_neg hphys]
        exact .head (.alloc pmm) (ih _ _ _)

theorem boot_calls {img : Image} (b : Boot img) :
    ReflTransGen Pmm.AnyCall b.pmm b.kernel.ms.pmm := by
  rw [boot_kernel_eq]
  change ReflTransGen Pmm.AnyCall b.pmm (Kmalloc.kmallocInit _ _ _).1
  unfold Kmalloc.kmallocInit
  split
  · exact .refl
  · exact initLoop_calls _ _ _ _

/-- From boot on, whatever the kernel does, its lists and its frames are in order. -/
theorem run_activity_inv {img : Image} (b : Boot img) {s : Machine}
    (hrun : ReflTransGen (Activity img b.pmm₀) b.machine s) :
    (∃ q zs, MachineInv img s q zs) ∧ LeaseInv False img b.pmm₀ s.kernel := by
  induction hrun with
  | refl => exact ⟨⟨_, _, boot_machineInv b⟩, boot_leaseInv b False⟩
  | tail _ hact ih =>
      obtain ⟨⟨q, zs, hinv⟩, hleases⟩ := ih
      exact hact.keeps hinv hleases

/-- The frame allocator has seen nothing but calls. -/
theorem run_calls {img : Image} (b : Boot img) {s : Machine}
    (hrun : ReflTransGen (Activity img b.pmm₀) b.machine s) :
    ReflTransGen Pmm.AnyCall b.pmm s.kernel.ms.pmm := by
  induction hrun with
  | refl => exact boot_calls b
  | tail hbefore hact ih =>
      obtain ⟨⟨q, zs, hinv⟩, -⟩ := run_activity_inv b hbefore
      exact ih.trans (hact.calls hinv)

/-- In every reachable kernel a call of `process_create` that returns NULL leaves
everything as it was. -/
theorem process_create_atomic {img : Image} (b : Boot img) {s : Machine} {k' : Kernel}
    (hword : b.pmm.freeFrames < 2 ^ 32)
    (hrun : ReflTransGen (Activity img b.pmm₀) b.machine s) (name : List UInt8)
    (start priority : Nat)
    (hfail : processCreate img s.kernel name start priority = .ok (k', 0)) :
    Unchanged s.kernel k' := by
  obtain ⟨⟨q, zs, hinv⟩, hleases⟩ := run_activity_inv b hrun
  have hcount := Pmm.word_of_calls (run_calls b hrun) hword
  exact unchanged_of_failed hinv.inv hleases.leases.zero_used hcount hfail

/-- Three frames are free: one becomes the heap, one a directory and one half a stack. -/
def tightBoot : Boot sampleImage where
  pmm := ⟨fun w => if w = 32 then 0xFFFFFFF8#32 else 0xFFFFFFFF#32, 32768, 3⟩
  mem := fun _ => 0
  pcb := fun _ => Pcb.zero
  next := fun _ => 0
  heapPages := 1
  kernelUsed := sampleImage_used fun _ hw => if_neg (Nat.ne_of_lt hw)
  pdZero := blank_pdZero

theorem process_create_atomic_tightBoot :
    ∃ k', processCreate sampleImage tightBoot.kernel [] 0x103000 1 = .ok (k', 0) ∧
      k'.nextPid = 2 ∧ Unchanged tightBoot.kernel k' := by
  have heval : returnsWith (processCreate sampleImage tightBoot.kernel [] 0x103000 1) (fun r =>
      decide (r.2 = 0 ∧ r.1.nextPid = 2)) = true := by decide +kernel
  obtain ⟨⟨k', r⟩, hcall, htest⟩ := returnsWith_iff.mp heval
  obtain ⟨rfl, hpid⟩ := of_decide_eq_true htest
  have hword : tightBoot.pmm.freeFrames < 2 ^ 32 := by
    change 3 < 2 ^ 32
    norm_num
  have hfail : processCreate sampleImage tightBoot.machine.kernel [] 0x103000 1 = .ok (k', 0) :=
    hcall
  have hsame := process_create_atomic tightBoot hword ReflTransGen.refl [] 0x103000 1 hfail
  exact ⟨k', hcall, hpid, hsame⟩

end StakOS.Process
