import Mathlib.Order.Interval.Finset.Nat
import StakOS.Lib.Reaches
import StakOS.Pmm.Counter
import StakOS.Scheduler.Blocks
import StakOS.Isolation.Reaper

/-!
# A pid that is given again

`process_create` takes the next pid without asking whether a process has it.  A run
in which creations keep failing for want of frames brings the counter round to the
pid of a process that still exists; the next creation that succeeds gives this pid a
second time.  When the first owner exits, one call of the reaper frees it and then
takes the second owner for the parent of the first one's children.
-/

namespace StakOS.Process

open StakOS.Lib StakOS.Lib.Memory StakOS.Lib.Loop StakOS.Lib.Linked StakOS.Lib.Sweep StakOS.Paging
open Relation (ReflTransGen)

/-! ## Room for a process -/

/-- Whether the heap has room depends on its blocks. -/
theorem heapRoom_iff {k : Kernel} {bs : List Kmalloc.Block}
    (hl : Kmalloc.HeapList k.heap.mem k.heap.heapStart bs) :
    heapRoom k = true ↔ Kmalloc.Fits pcbBytes bs := by
  obtain ⟨heap, hret, -⟩ := Kmalloc.kmalloc_refines hl pcbBytes
  unfold heapRoom
  rw [hret, decide_eq_true_eq]
  constructor
  · exact Kmalloc.fits_of_kmalloc hl hret
  · intro hfits
    exact Kmalloc.kmalloc_of_fits hl (by decide) hfits hret

theorem BlockReturned.heapRoom {k k' : Kernel} {bs : List Kmalloc.Block}
    (hl : Kmalloc.HeapList k.heap.mem k.heap.heapStart bs) (h : BlockReturned k.heap k'.heap)
    (hroom : heapRoom k = true) : Process.heapRoom k' = true := by
  cases h with
  | refused hret =>
      unfold Process.heapRoom at hroom
      rw [hret] at hroom
      cases hroom
  | freed hret hp hfree =>
      obtain ⟨bs', hl', hfits⟩ := Kmalloc.kmalloc_kfree_fits hl hret hp hfree
      exact (heapRoom_iff hl').mpr hfits

theorem Swept.heapRoom {img : Image} {k k' : Kernel} {q zs gone : List Nat} (h : Swept k gone k')
    (hinv : Inv img k q zs) (hgone : gone ⊆ zs) (hnodup : gone.Nodup)
    (hroom : Process.heapRoom k = true) : Process.heapRoom k' = true := by
  obtain ⟨bytes, live, bs, hholds, -, hlive⟩ := hinv.heap
  have hfits := (heapRoom_iff hholds.list).mp hroom
  exact (heapRoom_iff (h.heapList hinv hholds hlive hgone hnodup)).mpr (hfits.deallocateAll gone)

/-- Freeing a process that has a frame in use makes room for one more frame. -/
theorem budget_releaseFrames {ms : Paging.State} {f : Frames} (hexact : Pmm.Exact ms.pmm)
    (hlo : f.lo ∈ Pmm.usedFrames ms.pmm) :
    Pmm.budget ms.pmm < Pmm.budget (releaseFrames ms f).pmm := by
  have hbudget : ∀ s : Pmm.State, Pmm.Exact s → Pmm.budget s = (Pmm.freeSet s).card := by
    intro s hs
    unfold Pmm.budget
    rw [show s.freeFrames = _ from hs, min_self]
  rw [hbudget _ hexact, hbudget _ (Pmm.exact_of_calls (releaseFrames_calls ms f) hexact),
    releaseFrames_eq]
  have hfreed : f.lo / Pmm.pageSize ∈ Pmm.freeSet (Pmm.pmmFreeFrame ms.pmm f.lo) := by
    rw [Pmm.mem_freeSet, Pmm.frameTest_pmmFreeFrame ms.pmm hlo.2.1]
    exact ⟨hlo.2.1, by simp⟩
  have hused : f.lo / Pmm.pageSize ∉ Pmm.freeSet ms.pmm := by
    rw [Pmm.mem_freeSet, hlo.2.2]
    simp
  have hmore : Pmm.freeSet (Pmm.pmmFreeFrame ms.pmm f.lo) ⊆
      Pmm.freeSet ((returned ms.mem f).foldl Pmm.pmmFreeFrame ms.pmm) :=
    Pmm.freeSet_subset_foldl_free (Pmm.pmmFreeFrame ms.pmm f.lo) _
  apply Finset.card_lt_card
  apply (Finset.ssubset_iff_of_subset (Pmm.freeSet_subset_foldl_free _ _)).mpr
  exact ⟨_, hmore hfreed, hused⟩

/-! ## The run -/

section Run

variable {img : Image} (b : Boot img) (A C : Nat)

/-- The process `A`, with pid 1, has the child `C`. -/
structure Family (q zs : List Nat) (pid : Nat) (s : Machine) : Prop where
  run : ReflTransGen (Activity img b.pmm₀) b.machine s
  inv : Inv img s.kernel q zs
  idleSlot : s.kernel.procTable 0 = img.idlePcb
  parentSlot : s.kernel.procTable 1 = A
  parentPid : (s.kernel.pcb A).pid = 1
  grandparent : (s.kernel.pcb A).parentPid = 0
  childPid : (s.kernel.pcb C).pid = 3
  childOf : (s.kernel.pcb C).parentPid = 1
  nextPid : s.kernel.nextPid = pid

/-- The process `E`, with pid 2, runs, and two frames are left. -/
structure Busy (E pid : Nat) (s : Machine) : Prop extends
    Family b A C [A, img.idlePcb, E] [C] pid s where
  current : s.kernel.current = E
  busyPid : (s.kernel.pcb E).pid = 2
  busyOf : (s.kernel.pcb E).parentPid = 0
  priority : (s.kernel.pcb A).priority = 2
  heap : heapRoom s.kernel = true
  budget : Pmm.budget s.kernel.ms.pmm = 2

variable {b A C} {E pid : Nat}

namespace Family

variable {q zs q' zs' : List Nat} {s s' : Machine}

theorem next {pid' : Nat} (h : Family b A C q zs pid s) (hact : Activity img b.pmm₀ s s')
    (hinv : Inv img s'.kernel q' zs')
    (htable : ∀ i, i < 2 → s'.kernel.procTable i = s.kernel.procTable i)
    (hA : (s'.kernel.pcb A).birth = (s.kernel.pcb A).birth)
    (hC : (s'.kernel.pcb C).birth = (s.kernel.pcb C).birth)
    (hpid : s'.kernel.nextPid = pid') : Family b A C q' zs' pid' s' where
  run := h.run.tail hact
  inv := hinv
  idleSlot := (htable 0 (by decide)).trans h.idleSlot
  parentSlot := (htable 1 (by decide)).trans h.parentSlot
  parentPid := (congrArg Birth.pid hA).trans h.parentPid
  grandparent := (congrArg Birth.parentPid hA).trans h.grandparent
  childPid := (congrArg Birth.pid hC).trans h.childPid
  childOf := (congrArg Birth.parentPid hC).trans h.childOf
  nextPid := hpid

theorem zero_used (h : Family b A C q zs pid s) : 0 ∈ Pmm.usedFrames s.kernel.ms.pmm :=
  (run_activity_inv b h.run).2.leases.zero_used

theorem idlePid (h : Family b A C q zs pid s) : (s.kernel.pcb img.idlePcb).pid = 0 := by
  obtain ⟨⟨q, zs, hinv⟩, -⟩ := run_activity_inv b h.run
  exact hinv.idlePid

end Family

/-- An event of the run. -/
theorem activity_of_run {s : Machine} {k' : Kernel} (e : Event)
    (hguard : Permitted False img userStackBase s.kernel e) (henabled : e.Enabled s.kernel)
    (hrun : e.run img userStackBase s.kernel = .ok k') :
    Activity img b.pmm₀ s (s.after e k') :=
  .event (.mk e hguard henabled hrun)

/-- A creation that fails for want of frames takes a pid. -/
theorem Busy.fails (hword : b.pmm.freeFrames < 2 ^ 32) (pid : Nat) :
    Reaches (Activity img b.pmm₀) (Busy b A C E pid) (Busy b A C E (add32 pid 1)) := by
  apply Reaches.single
  intro s h
  have hzero := h.zero_used
  have hcount := Pmm.word_of_calls (run_calls b h.run) hword
  obtain ⟨k', r, hret, hcreate, hback, -, hpid⟩ := processCreate_ends h.inv [] 0x103000 1
  have hr : r = 0 := by
    cases hcreate with
    | failed => rfl
    | made _ _ _ _ _ _ _ hbuilt =>
        have hbudget := hbuilt.ok.budget
        have htwo := h.budget
        omega
  subst hr
  obtain ⟨htable, hblock⟩ := hback rfl
  have hdirectory : (pagingCreateUserPd img.toStatics s.kernel.ms).2 ≠ 0 := by
    intro hnone
    have hpair : pagingCreateUserPd img.toStatics s.kernel.ms = (_, 0) := Prod.ext rfl hnone
    have hbudget := (pagingCreateUserPd_none hpair hzero).2
    have htwo := h.budget
    omega
  cases hcreate with
  | made hp => exact absurd rfl hp
  | failed hnew hspares hinv _ hbuilt =>
      have hsame : ∀ x ∈ [A, img.idlePcb, E] ++ [C], k'.pcb x = s.kernel.pcb x := fun x hx =>
        hspares.pcb x fun hxp => hnew (hxp ▸ hx)
      have hA := hsame A (by simp)
      have hC := hsame C (by simp)
      have hE := hsame E (by simp)
      have hact : Activity img b.pmm₀ s (s.after (.create [] 0x103000 1) k') := by
        apply activity_of_run (.create [] 0x103000 1) trivial trivial
        rw [Event.run, hret]
        rfl
      obtain ⟨bytes, live, bs, hholds, -⟩ := h.inv.heap
      have hnext := (hpid h.heap hdirectory).trans (congrArg (add32 · 1) h.nextPid)
      refine ⟨_, hact, h.toFamily.next hact hinv (fun i _ => congrFun htable i)
        (congrArg Pcb.birth hA) (congrArg Pcb.birth hC) hnext, ?_, ?_, ?_, ?_, ?_, ?_⟩
      · exact hspares.current.trans h.current
      · exact (congrArg Pcb.pid hE).trans h.busyPid
      · exact (congrArg Pcb.parentPid hE).trans h.busyOf
      · exact (congrArg Pcb.priority hA).trans h.priority
      · exact hblock.heapRoom hholds.list h.heap
      · exact (congrArg Pmm.budget (hbuilt.pmm_eq hzero hcount)).trans h.budget

/-- So the counter comes round. -/
theorem Busy.wraps (hword : b.pmm.freeFrames < 2 ^ 32) :
    Reaches (Activity img b.pmm₀) (Busy b A C E 4) (Busy b A C E 1) := by
  have hstep : ∀ i, Reaches (Activity img b.pmm₀) (Busy b A C E ((4 + i) % 2 ^ 32))
      (Busy b A C E ((4 + (i + 1)) % 2 ^ 32)) := by
    intro i
    have hadd : add32 ((4 + i) % 2 ^ 32) 1 = (4 + (i + 1)) % 2 ^ 32 := by
      unfold add32
      omega
    rw [← hadd]
    exact Busy.fails hword _
  have hmany := Reaches.iterate hstep (2 ^ 32 - 3)
  norm_num at hmany
  exact hmany

/-! ### The slot of `E` -/

/-- `E` has exited, and `A` runs. -/
structure Left (b : Boot img) (A C E : Nat) (s : Machine) : Prop extends
    Family b A C [img.idlePcb, A] [E, C] 1 s where
  current : s.kernel.current = A
  leftPid : (s.kernel.pcb E).pid = 2
  leftOf : (s.kernel.pcb E).parentPid = 0
  ticks : (s.kernel.pcb A).ticksRemaining = 2
  heap : heapRoom s.kernel = true
  budget : Pmm.budget s.kernel.ms.pmm = 2

theorem heapRoom_congr {k k' : Kernel} (h : k'.heap = k.heap) : heapRoom k' = heapRoom k := by
  unfold heapRoom
  rw [h]

theorem ExitsTo.kin {k k' : Kernel} {code : Int} {esp r : Nat} (h : ExitsTo k code esp r k') :
    Kin k k' := by
  intro x
  by_cases hc : x = k.current
  · rw [hc, h.left]
    rfl
  by_cases hr : x = r
  · rw [hr, h.next]
    rfl
  · rw [h.others x hc hr]

theorem Family.exit {xs ys rest zs : List Nat} {r : Nat} {s : Machine}
    (h : Family b A C (xs ++ s.kernel.current :: ys) zs pid s)
    (hpid : (s.kernel.pcb s.kernel.current).pid ≠ 0) (hnext : xs ++ ys = r :: rest) :
    ∃ s', Activity img b.pmm₀ s s' ∧ Family b A C (rest ++ [r]) (s.kernel.current :: zs) pid s' ∧
      Moves s.kernel s'.kernel ∧ ExitsTo s.kernel 0 0 r s'.kernel := by
  have hidle : img.idlePcb ≠ s.kernel.current := fun hic => hpid (hic ▸ h.idlePid)
  obtain ⟨k', hret, hinv, hmoves, hexit⟩ := processExit_next 0 0 h.inv.toSchedInv hidle hnext
  have hact := activity_of_run (b := b) (.exit 0 0) trivial hpid hret
  have hheap : HeapOk img k'.heap ((rest ++ [r]) ++ s.kernel.current :: zs) := by
    rw [hmoves.heap]
    apply h.inv.heap.mono
    intro x hx
    have hothers : x ∈ xs ++ ys ↔ x ∈ r :: rest := by rw [hnext]
    simp only [List.mem_append, List.mem_cons, List.not_mem_nil, or_false] at hx hothers ⊢
    tauto
  exact ⟨_, hact, h.next hact ⟨hinv, hheap⟩ (fun i _ => congrFun hexit.table i) (hexit.kin A)
    (hexit.kin C) (hmoves.nextPid.trans h.nextPid), hmoves, hexit⟩

theorem Busy.exits : Reaches (Activity img b.pmm₀) (Busy b A C E 1) (Left b A C E) := by
  apply Reaches.single
  intro s h
  have hcur := h.current
  have hfamily : Family b A C ([A, img.idlePcb] ++ s.kernel.current :: []) [C] 1 s := by
    rw [hcur]
    exact h.toFamily
  have hpid : (s.kernel.pcb s.kernel.current).pid ≠ 0 := by
    rw [hcur, h.busyPid]
    decide
  obtain ⟨s', hact, hfamily', hmoves, hexit⟩ := hfamily.exit hpid rfl
  rw [hcur] at hfamily'
  refine ⟨s', hact, hfamily', hexit.current, ?_, ?_, ?_, ?_, ?_⟩
  · exact (hexit.kin.pid E).trans h.busyPid
  · exact (hexit.kin.parent E).trans h.busyOf
  · exact (congrArg Pcb.ticksRemaining hexit.next).trans h.priority
  · exact (heapRoom_congr hmoves.heap).trans h.heap
  · exact (congrArg (fun ms => Pmm.budget ms.pmm) hmoves.ms).trans h.budget

/-- There is room for a process again, and the next pid is that of `A`. -/
structure Vacant (b : Boot img) (A C : Nat) (s : Machine) : Prop extends
    Family b A C [img.idlePcb, A] [C] 1 s where
  current : s.kernel.current = A
  room : roomForProcess s.kernel = true

/-- The children of `A` have a live parent while all that is left of the others has
another pid. -/
theorem Family.claimed {q zs gone : List Nat} {p : Nat} {s : Machine}
    (h : Family b A C q zs pid s) (hp : p ∈ residents s.kernel) (hout : p ∉ gone)
    (hpid : (s.kernel.pcb p).pid = 1) (halive : Alive s.kernel p)
    (hother : ∀ x ∈ q ++ zs, x ∉ gone → x ≠ p → (s.kernel.pcb x).pid ≠ 1) :
    (registry s.kernel).claimed gone C = true := by
  apply Registry.claimed_of_forall
  · exact ⟨p, hp, hout, answers_iff.mpr ⟨by rw [h.childOf]; decide, by rw [h.childOf, hpid]⟩⟩
  · intro x hx hxout hans
    have hxpid := (answers_iff.mp hans).2
    rw [h.childOf] at hxpid
    obtain ⟨hx0, hslot⟩ := mem_residents.mp hx
    have hxp : x = p := by
      by_contra hne
      exact hother x ((h.inv.table x hx0).mp hslot) hxout hne hxpid
    rw [hxp]
    exact decide_eq_true halive

section Left

variable {s : Machine} {k : Kernel}

theorem Left.distinct (h : Left b A C E s) : E ≠ A ∧ E ≠ img.idlePcb := by
  have hnodup := h.inv.nodup
  constructor
  · rintro rfl
    simp at hnodup
  · rintro rfl
    simp at hnodup

/-- The reaper takes `E` and leaves `C`. -/
theorem Left.sweep (h : Left b A C E s) : (registry s.kernel).sweep [] [E, C] = ([E], [C]) := by
  have hA0 : A ≠ 0 := fun h0 => h.inv.zero_notMem (by simp [h0])
  have hAres : A ∈ residents s.kernel := mem_residents.mpr ⟨hA0, (h.inv.table A hA0).mpr (by simp)⟩
  have hE : (registry s.kernel).claimed [] E = false := orphan_iff.mp (Or.inl h.leftOf)
  have hC : (registry s.kernel).claimed [E] C = true := by
    apply h.toFamily.claimed hAres (by simpa using h.distinct.1.symm) h.parentPid
      (h.inv.alive (by simp))
    intro x hx hxE hxA
    simp only [List.cons_append, List.nil_append, List.mem_cons, List.not_mem_nil, or_false] at hx hxE
    rcases hx with rfl | rfl | rfl | rfl
    · rw [h.idlePid]
      decide
    · exact absurd rfl hxA
    · exact absurd rfl hxE
    · rw [h.childPid]
      decide
  simp [Registry.sweep, hE, hC]

theorem Left.slots (h : Left b A C E s) (hswept : Swept s.kernel [E] k) :
    (∀ i, i < 2 → k.procTable i = s.kernel.procTable i) ∧ slotFree k = true := by
  constructor
  · intro i hi
    rw [hswept.table i (hi.trans (by decide)), if_neg]
    rw [List.mem_singleton]
    intro hiE
    have hcases : i = 0 ∨ i = 1 := by omega
    rcases hcases with rfl | rfl
    · exact h.distinct.2 (hiE.symm.trans h.idleSlot)
    · exact h.distinct.1 (hiE.symm.trans h.parentSlot)
  · have hE0 : E ≠ 0 := fun h0 => h.inv.zero_notMem (by simp [h0])
    obtain ⟨i, hi, hiE⟩ := (h.inv.table E hE0).mpr (by simp)
    refine List.any_eq_true.mpr ⟨i, List.mem_range.mpr hi, ?_⟩
    rw [hswept.table i hi, hiE]
    simp

/-- The frames of `E` are enough for the third one that was missing. -/
theorem Left.budget_swept (hexact : Pmm.Exact b.pmm) (h : Left b A C E s)
    (hswept : Swept s.kernel [E] k) : 3 ≤ Pmm.budget k.ms.pmm := by
  have hlo : (framesOf s.kernel E).lo ∈ Pmm.usedFrames s.kernel.ms.pmm := by
    have hleases := (run_activity_inv b h.run).2.leases
    have hEp : E ∈ procsIn img s.kernel :=
      (mem_procsIn h.inv.toLists).mpr ⟨by simp, h.distinct.2⟩
    have hsl : Process.slots s.kernel.ms.mem (framesOf s.kernel E) .lo =
        some (framesOf s.kernel E).lo := rfl
    exact (hleases.slot_handedOut hEp hsl).1
  have hmore := budget_releaseFrames (Pmm.exact_of_calls (run_calls b h.run) hexact) hlo
  rw [hswept.ms]
  change 3 ≤ Pmm.budget (releaseFrames s.kernel.ms (framesOf s.kernel E)).pmm
  have htwo := h.budget
  omega

end Left

theorem Left.ticks_away (hexact : Pmm.Exact b.pmm) :
    Reaches (Activity img b.pmm₀) (Left b A C E) (Vacant b A C) := by
  apply Reaches.single
  intro s h
  have hcur := h.current
  obtain ⟨k, hreap, hinv, hswept⟩ := schedulerReapZombies_sweep h.inv
  rw [h.sweep] at hinv hswept
  have hticks : ((tickDown k).pcb k.current).ticksRemaining = 1 := by
    rw [tickDown_ticks, hswept.pcb, hswept.current, hcur, h.ticks]
  obtain ⟨hdown, hmoves, hcur'⟩ := tickDown_inv hinv.toSchedInv
  have hact : Activity img b.pmm₀ s (s.after (.tick 0) (tickDown k)) := by
    apply activity_of_run (.tick 0) trivial trivial
    rw [Event.run, schedulerTick_of_reap 0 h.inv.current_pos hreap hinv hswept.current]
    exact countDown_of_left 0 fun hexpired => absurd (hticks.symm.trans hexpired.1) (by decide)
  have hinv' : Inv img (tickDown k) [img.idlePcb, A] [C] := by
    refine ⟨hdown, ?_⟩
    rw [hmoves.heap]
    exact hinv.heap
  have hkin : Kin s.kernel (tickDown k) := (Kin.of_pcb hswept.pcb).trans (tickDown_stays k).2
  obtain ⟨hslots, hslot⟩ := h.slots hswept
  have htable := congrArg Threading.procTable (tickDown_threading k)
  refine ⟨_, hact, h.toFamily.next hact hinv' (fun i hi => (congrFun htable i).trans (hslots i hi))
    (hkin A) (hkin C) ((hmoves.nextPid.trans hswept.nextPid).trans h.nextPid), ?_, ?_⟩
  · exact (hcur'.trans hswept.current).trans hcur
  · have hheap : heapRoom (tickDown k) = true := by
      rw [heapRoom_congr hmoves.heap]
      exact hswept.heapRoom h.inv (by simp) (by simp) h.heap
    have hbudget : 3 ≤ Pmm.budget (tickDown k).ms.pmm := by
      rw [hmoves.ms]
      exact h.budget_swept hexact hswept
    have hslot' : slotFree (tickDown k) = true := by
      unfold slotFree
      rw [show (tickDown k).procTable = k.procTable from htable]
      exact hslot
    change roomForProcess (tickDown k) = true
    unfold roomForProcess
    rw [hheap, hslot', decide_eq_true hbudget]
    rfl

/-! ### The second owner of the pid -/

/-- `B` has the pid of `A`, which runs. -/
structure Twice (b : Boot img) (A C : Nat) (s : Machine) (B : Nat) : Prop extends
    Family b A C [img.idlePcb, A, B] [C] 2 s where
  current : s.kernel.current = A
  secondPid : (s.kernel.pcb B).pid = 1

theorem Vacant.creates :
    Reaches (Activity img b.pmm₀) (Vacant b A C) (fun s => ∃ B, Twice b A C s B) := by
  apply Reaches.single
  intro s h
  obtain ⟨k', B, hret, hcreate, -, htable, -⟩ := processCreate_ends h.inv [] 0x103000 1
  cases hcreate with
  | failed _ _ _ _ hbuilt =>
      have hroom := (hbuilt.failed h.zero_used).room
      rw [h.room] at hroom
      cases hroom
  | made hB _ hnew hspares hinv hpid hown _ =>
      have hact : Activity img b.pmm₀ s (s.after (.create [] 0x103000 1) k') := by
        apply activity_of_run (.create [] 0x103000 1) trivial trivial
        rw [Event.run, hret]
        rfl
      have hsame : ∀ x ∈ [img.idlePcb, A] ++ [C], k'.pcb x = s.kernel.pcb x := fun x hx =>
        hspares.pcb x fun hxB => hnew (hxB ▸ hx)
      have hslots : ∀ i, i < 2 → k'.procTable i = s.kernel.procTable i := by
        intro i hi
        obtain ⟨j, -, hj0, htable⟩ := htable hB
        rw [htable]
        apply Function.update_of_ne
        rintro rfl
        have hcases : i = 0 ∨ i = 1 := by omega
        rcases hcases with rfl | rfl
        · rw [h.idleSlot] at hj0
          exact h.inv.zero_notMem (by simp [hj0])
        · rw [h.parentSlot] at hj0
          exact h.inv.zero_notMem (by simp [hj0])
      have hnext : k'.nextPid = 2 := by
        rw [hpid, h.nextPid]
        decide
      refine ⟨_, hact, B, h.toFamily.next hact hinv hslots
        (congrArg Pcb.birth (hsame A (by simp))) (congrArg Pcb.birth (hsame C (by simp))) hnext, ?_, ?_⟩
      · exact hspares.current.trans h.current
      · exact hown.trans h.nextPid

/-- `A` has exited before its child `C` was freed. -/
structure Bereft (b : Boot img) (A C : Nat) (s : Machine) (B : Nat) : Prop extends
    Family b A C [B, img.idlePcb] [A, C] 2 s where
  secondPid : (s.kernel.pcb B).pid = 1

theorem Twice.exits : Reaches (Activity img b.pmm₀) (fun s => ∃ B, Twice b A C s B)
    (fun s => ∃ B, Bereft b A C s B) := by
  apply Reaches.single
  rintro s ⟨B, h⟩
  have hcur := h.current
  have hfamily : Family b A C ([img.idlePcb] ++ s.kernel.current :: [B]) [C] 2 s := by
    rw [hcur]
    exact h.toFamily
  have hpid : (s.kernel.pcb s.kernel.current).pid ≠ 0 := by
    rw [hcur, h.parentPid]
    decide
  obtain ⟨s', hact, hfamily', -, hexit⟩ := hfamily.exit hpid rfl
  rw [hcur] at hfamily'
  exact ⟨s', hact, B, hfamily', (hexit.kin.pid B).trans h.secondPid⟩

/-- A lookup finds `A`, which comes first in the table. -/
theorem Bereft.orphan {B : Nat} {s : Machine} (h : Bereft b A C s B) : Orphan s.kernel C := by
  have hlookup : processLookup s.kernel 1 = A := by
    have hfind : (List.range maxProcesses).find? (fun i =>
        decide (s.kernel.procTable i ≠ 0) && decide ((s.kernel.pcb (s.kernel.procTable i)).pid = 1)) =
        some 1 := by
      have hA0 : A ≠ 0 := fun h0 => h.inv.zero_notMem (by simp [h0])
      refine List.find?_eq_some_iff_append.mpr ⟨?_, [0], (List.range maxProcesses).drop 2, by decide,
        ?_⟩
      · simp [h.parentSlot, h.parentPid, hA0]
      · simp [h.idleSlot, h.idlePid]
    unfold processLookup
    rw [hfind]
    exact h.parentSlot
  refine Or.inr (Or.inr ?_)
  rw [h.childOf, hlookup]
  exact fun halive => halive.1 (h.inv.zombie A (by simp))

/-- The reaper frees `A`, and from then on a lookup finds `B`. -/
theorem Bereft.sweep {B : Nat} {s : Machine} (h : Bereft b A C s B) :
    (registry s.kernel).sweep [] [A, C] = ([A], [C]) := by
  have hnodup := h.inv.nodup
  have hB0 : B ≠ 0 := fun h0 => h.inv.zero_notMem (by simp [h0])
  have hBres : B ∈ residents s.kernel := mem_residents.mpr ⟨hB0, (h.inv.table B hB0).mpr (by simp)⟩
  have hBA : B ≠ A := by
    rintro rfl
    simp at hnodup
  have hA : (registry s.kernel).claimed [] A = false := orphan_iff.mp (Or.inl h.grandparent)
  have hC : (registry s.kernel).claimed [A] C = true := by
    apply h.toFamily.claimed hBres (by simpa using hBA) h.secondPid (h.inv.alive (by simp))
    intro x hx hxA hxB
    simp only [List.cons_append, List.nil_append, List.mem_cons, List.not_mem_nil, or_false] at hx hxA
    rcases hx with rfl | rfl | rfl | rfl
    · exact absurd rfl hxB
    · rw [h.idlePid]
      decide
    · exact absurd rfl hxA
    · rw [h.childPid]
      decide
  simp [Registry.sweep, hA, hC]

/-- So the orphan `C` stays in the list. -/
theorem Bereft.not_reapsExactly {B : Nat} {s : Machine} (h : Bereft b A C s B) :
    (∃ k', schedulerReapZombies s.kernel = .ok k' ∧ Chain k'.next k'.zombieHead [C] 0) ∧
      ¬ReapsExactly s.kernel [A, C] := by
  obtain ⟨k', hret, hinv, -⟩ := schedulerReapZombies_sweep h.inv
  rw [h.sweep] at hinv
  refine ⟨⟨k', hret, hinv.zombies⟩, ?_⟩
  rintro ⟨k₁, hret₁, hfrees, -⟩
  rw [hret] at hret₁
  cases hret₁
  have hlist : [C] = wanted s.kernel [A, C] :=
    hinv.zombies.unique hfrees.list hinv.nonNull fun h0 =>
      h.inv.nonNull (List.filter_subset_self _ h0)
  have hmem : C ∈ wanted s.kernel [A, C] := hlist ▸ List.mem_singleton_self C
  exact of_decide_eq_true (List.mem_filter.mp hmem).2 h.orphan

theorem Busy.bereft (hexact : Pmm.Exact b.pmm) (hword : b.pmm.freeFrames < 2 ^ 32) :
    Reaches (Activity img b.pmm₀) (Busy b A C E 4) (fun s => ∃ B, Bereft b A C s B) :=
  (Busy.wraps hword).trans (Busy.exits.trans ((Left.ticks_away hexact).trans
    (Vacant.creates.trans Twice.exits)))

end Run

/-! ## From boot to the reaper -/

/-- While pids are distinct nobody can take the place of a parent. -/
theorem not_supplanted_of_distinct {img : Image} {k : Kernel} {q zs : List Nat}
    (hinv : Inv img k q zs)
    (hinj : ∀ p ∈ q ++ zs, ∀ p' ∈ q ++ zs, (k.pcb p).pid = (k.pcb p').pid → p = p') (z : Nat) :
    ¬Supplanted k z := by
  rintro ⟨-, pre, p, post, hsplit, hpid, -, ⟨e, he, hepid⟩, -⟩
  have hlisted : ∀ x ∈ residents k, x ∈ q ++ zs := by
    intro x hx
    obtain ⟨hx0, hslot⟩ := mem_residents.mp hx
    exact (hinv.table x hx0).mp hslot
  have hnodup := hinv.residents_nodup
  rw [hsplit] at hlisted hnodup
  have hep : e = p := hinj e (hlisted e (by simp [he])) p (hlisted p (by simp)) (hepid.trans hpid.symm)
  exact (List.nodup_append.mp hnodup).2.2 e he p (by simp) hep

/-- In a reachable kernel one call of the reaper frees exactly the orphans, in whatever
order the zombies are listed, unless a pid has been given again to a live process that
takes the place of an exited parent.  That needs 2^32 calls of `process_create`. -/
theorem reaper_frees_orphans_iff {img : Image} (b : Boot img) {s : Machine}
    (hrun : ReflTransGen (Activity img b.pmm₀) b.machine s) :
    ∃ zs, Chain s.kernel.next s.kernel.zombieHead zs 0 ∧ 0 ∉ zs ∧
      (ReapsExactly s.kernel zs ↔ ∀ z ∈ zs, ¬Supplanted s.kernel z) ∧
      (s.creates < 2 ^ 32 → ReapsExactly s.kernel zs) := by
  obtain ⟨⟨q, zs, hinv⟩, hleases⟩ := run_activity_inv b hrun
  refine ⟨zs, hinv.inv.zombies, hinv.inv.nonNull, ⟨?_, ?_⟩, ?_⟩
  · exact not_supplanted_of_reapsExactly hinv.inv
  · exact reapsExactly_of hinv.inv hleases
  · intro hfew
    obtain ⟨c, -, -, -, hinj⟩ := hinv.pids hfew
    exact reapsExactly_of hinv.inv hleases fun z _ => not_supplanted_of_distinct hinv.inv hinj z

/-- Creations, switches and exits, one after the other. -/
def play (img : Image) (k : Kernel) : List Event → Option Kernel
  | [] => some k
  | e :: es =>
      let allowed := match e with
        | .create _ _ _ | .yield _ => true
        | .exit _ _ => decide ((k.pcb k.current).pid ≠ 0)
        | _ => false
      match e.run img userStackBase k with
      | .ok k' => if allowed then play img k' es else none
      | .error _ => none

theorem reachable_of_play {img : Image} {b : Boot img} {es : List Event} {s : Machine} {k : Kernel}
    (hrun : ReflTransGen (Activity img b.pmm₀) b.machine s)
    (hplay : play img s.kernel es = some k) :
    ∃ s', ReflTransGen (Activity img b.pmm₀) b.machine s' ∧ s'.kernel = k := by
  induction es generalizing s with
  | nil => exact ⟨s, hrun, Option.some.inj hplay⟩
  | cons e es ih =>
      unfold play at hplay
      simp only at hplay
      cases hret : e.run img userStackBase s.kernel with
      | error stop =>
          rw [hret] at hplay
          cases hplay
      | ok k' =>
          rw [hret] at hplay
          simp only [Option.ite_none_right_eq_some] at hplay
          have hact : Activity img b.pmm₀ s (s.after e k') := by
            apply activity_of_run e _ _ hret
            · cases e with
              | createElf | work => cases hplay.1
              | _ => trivial
            · cases e with
              | exit =>
                  change (s.kernel.pcb s.kernel.current).pid ≠ 0
                  exact of_decide_eq_true hplay.1
              | _ => trivial
          exact ih (hrun.tail hact) hplay.2

/-- Twelve frames are free: one for the heap, three for each of three processes, and
two are left. -/
def wornBoot : Boot sampleImage where
  pmm := ⟨fun w => if w = 32 then 0xFFFFF000#32 else 0xFFFFFFFF#32, 32768, 12⟩
  mem := fun _ => 0
  pcb := fun _ => Pcb.zero
  next := fun _ => 0
  heapPages := 1
  kernelUsed := sampleImage_used fun _ hw => if_neg (Nat.ne_of_lt hw)
  pdZero := blank_pdZero

theorem wornBoot_exact : Pmm.Exact wornBoot.pmm := by
  have hfree : Pmm.freeSet wornBoot.pmm = Finset.Ico 1024 1036 := by
    ext f
    rw [Pmm.mem_freeSet, Finset.mem_Ico]
    by_cases hword : f / 32 = 32
    · have hbits : ∀ i : Fin 32, (0xFFFFF000#32).getLsbD i = decide (12 ≤ i.val) := by decide
      have htest : Pmm.frameTest wornBoot.pmm f = decide (12 ≤ f % 32) := by
        rw [Pmm.frameTest_eq_getLsbD, hword]
        exact hbits ⟨f % 32, Nat.mod_lt f (by decide)⟩
      rw [htest, decide_eq_false_iff_not]
      change f < 32768 ∧ _ ↔ _
      omega
    · rw [Pmm.frameTest_of_full (s := wornBoot.pmm) (if_neg hword) rfl]
      simp only [Bool.true_eq_false, and_false, false_iff]
      omega
  unfold Pmm.Exact
  rw [hfree, Nat.card_Ico]
  rfl

/-- Idle makes `A` and `E`; `A` makes `C`, which exits. -/
def early : List Event :=
  [.create [] 0x103000 2, .yield 0, .yield 0, .create [] 0x103000 2, .yield 0,
   .create [] 0x103000 2, .yield 0, .yield 0, .yield 0, .yield 0, .exit 0 0, .yield 0]

/-- What `early` leads to. -/
def AfterEarly (k : Kernel) : Prop :=
  Chain k.next k.queueHead [0x400010, sampleImage.idlePcb, 0x4000DC] 0 ∧
  Chain k.next k.zombieHead [0x4001A8] 0 ∧
  k.procTable 0 = sampleImage.idlePcb ∧ k.procTable 1 = 0x400010 ∧
  (k.pcb 0x400010).pid = 1 ∧ (k.pcb 0x400010).parentPid = 0 ∧
  (k.pcb 0x4001A8).pid = 3 ∧ (k.pcb 0x4001A8).parentPid = 1 ∧ k.nextPid = 4 ∧
  k.current = 0x4000DC ∧ (k.pcb 0x4000DC).pid = 2 ∧ (k.pcb 0x4000DC).parentPid = 0 ∧
  (k.pcb 0x400010).priority = 2 ∧ heapRoom k = true ∧ k.ms.pmm.freeFrames = 2

instance (k : Kernel) : Decidable (AfterEarly k) := by
  unfold AfterEarly
  infer_instance

theorem wornBoot_busy : ∃ s, Busy wornBoot 0x400010 0x4001A8 0x4000DC 4 s := by
  have heval : (play sampleImage wornBoot.machine.kernel early).any (fun k => decide (AfterEarly k)) =
      true := by decide +kernel
  obtain ⟨k, hplay, hsettled⟩ := (Option.any_eq_true ..).mp heval
  obtain ⟨s, hrun, rfl⟩ := reachable_of_play .refl hplay
  obtain ⟨hqueue, hzombies, h0, h1, hA, hA', hC, hC', hnext, hcur, hE, hE', hprio, hheap, hfree⟩ :=
    of_decide_eq_true hsettled
  obtain ⟨⟨q, zs, hinv⟩, -⟩ := run_activity_inv wornBoot hrun
  have hq : q = [0x400010, sampleImage.idlePcb, 0x4000DC] :=
    hinv.inv.queue.queue.chain.unique hqueue hinv.inv.queue.queue.nonNull (by decide)
  have hzs : zs = [0x4001A8] := hinv.inv.zombies.unique hzombies hinv.inv.nonNull (by decide)
  subst hq hzs
  have hexact := Pmm.exact_of_calls (run_calls wornBoot hrun) wornBoot_exact
  have hbudget : Pmm.budget s.kernel.ms.pmm = 2 := by
    unfold Pmm.budget
    rw [← show s.kernel.ms.pmm.freeFrames = _ from hexact, hfree]
    rfl
  exact ⟨s, ⟨hrun, hinv.inv, h0, h1, hA, hA', hC, hC', hnext⟩, hcur, hE, hE', hprio, hheap, hbudget⟩

/-- The parent of the zombie runs, so the reaper keeps it. -/
theorem reaper_frees_orphans_wornBoot :
    ∃ s, ReflTransGen (Activity sampleImage wornBoot.pmm₀) wornBoot.machine s ∧
      ReapsExactly s.kernel [0x4001A8] := by
  obtain ⟨s, h⟩ := wornBoot_busy
  obtain ⟨zs, hchain, hnull, hiff, -⟩ := reaper_frees_orphans_iff wornBoot h.run
  have hzs : zs = [0x4001A8] := hchain.unique h.inv.zombies hnull h.inv.nonNull
  subst hzs
  have hpids : (([0x400010, sampleImage.idlePcb, 0x4000DC] ++ [0x4001A8]).map
      fun p => (s.kernel.pcb p).pid).Nodup := by
    simp [h.parentPid, h.idlePid, h.busyPid, h.childPid]
  exact ⟨s, h.run, hiff.mpr fun z _ => not_supplanted_of_distinct h.inv
    (fun p hp p' hp' => List.inj_on_of_nodup_map hpids hp hp') z⟩

/-- After 2^32 - 3 creations that fail, one that succeeds has the pid of a process that
still exists.  Once this process exits, the reaper keeps its child. -/
theorem reaper_keeps_orphan :
    ∃ s, ReflTransGen (Activity sampleImage wornBoot.pmm₀) wornBoot.machine s ∧
      Chain s.kernel.next s.kernel.zombieHead [0x400010, 0x4001A8] 0 ∧
      (s.kernel.pcb 0x4001A8).parentPid = (s.kernel.pcb 0x400010).pid ∧
      (s.kernel.pcb 0x400010).state = .zombie ∧ Orphan s.kernel 0x4001A8 ∧
      (∃ k', schedulerReapZombies s.kernel = .ok k' ∧
        Chain k'.next k'.zombieHead [0x4001A8] 0) ∧
      ¬ReapsExactly s.kernel [0x400010, 0x4001A8] := by
  obtain ⟨s₀, h₀⟩ := wornBoot_busy
  have hword : wornBoot.pmm.freeFrames < 2 ^ 32 := by
    change 12 < 2 ^ 32
    norm_num
  obtain ⟨s, -, B, h⟩ := Busy.bereft wornBoot_exact hword s₀ h₀
  obtain ⟨hreap, hnot⟩ := h.not_reapsExactly
  exact ⟨s, h.run, h.inv.zombies, h.childOf.trans h.parentPid.symm, h.inv.zombie _ (by simp),
    h.orphan, hreap, hnot⟩

end StakOS.Process
