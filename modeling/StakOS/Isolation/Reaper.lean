import StakOS.Scheduler.Orphans
import StakOS.Isolation.Rollback

/-!
# Exactly the orphans

One call of the reaper frees the zombies whose parent cannot claim them and keeps
the others as they are, in whatever order the zombies are listed.  This rests on the
pids: it fails when a live process has the pid of an exited parent that the same call
frees, which takes a wrap-around of `next_pid`.
-/

namespace StakOS.Process

open StakOS.Lib.Memory StakOS.Lib.Loop StakOS.Lib.Linked StakOS.Lib.Sweep StakOS.Paging
open Relation (ReflTransGen)

/-! ## Orphans -/

/-- The parent of `z` has pid 0, or no process in the table has its pid, or the one
that a lookup finds is a zombie or dead. -/
def Orphan (k : Kernel) (z : Nat) : Prop :=
  (k.pcb z).parentPid = 0 ∨ (∀ p ∈ residents k, (k.pcb p).pid ≠ (k.pcb z).parentPid) ∨
    ¬Alive k (processLookup k (k.pcb z).parentPid)

instance (k : Kernel) (z : Nat) : Decidable (Orphan k z) := inferInstanceAs (Decidable (_ ∨ _ ∨ _))

/-- The pid of `z`'s parent has been given again: a live process has it, and the
processes with this pid in earlier slots, one at least, are orphans other than `z`. -/
def Supplanted (k : Kernel) (z : Nat) : Prop :=
  (k.pcb z).parentPid ≠ 0 ∧ ∃ pre p post, residents k = pre ++ p :: post ∧
    (k.pcb p).pid = (k.pcb z).parentPid ∧ Alive k p ∧
    (∃ e ∈ pre, (k.pcb e).pid = (k.pcb z).parentPid) ∧
    ∀ e ∈ pre, (k.pcb e).pid = (k.pcb z).parentPid → ¬Alive k e ∧ Orphan k e ∧ e ≠ z

section Registry

variable {k : Kernel} {z : Nat}

theorem orphan_iff : Orphan k z ↔ (registry k).claimed [] z = false := by
  rw [← isPidAlive_eq (.refl k) rfl z]
  unfold Orphan isPidAlive
  rw [← processLookup_eq_zero]
  by_cases hppid : (k.pcb z).parentPid = 0
  · simp [hppid]
  · by_cases hnone : processLookup k (k.pcb z).parentPid = 0
    · simp [hnone]
    · simp [hppid, hnone, Alive]

theorem answers_iff {p : Nat} : (registry k).answers z p = true ↔
    (k.pcb z).parentPid ≠ 0 ∧ (k.pcb p).pid = (k.pcb z).parentPid := by
  simp [registry]

theorem supplanted_iff : Supplanted k z ↔ (registry k).Supplanted z := by
  have halive : ∀ p, (registry k).alive p = decide (Alive k p) := fun _ => rfl
  unfold Supplanted Registry.Supplanted
  simp only [answers_iff, halive, decide_eq_true_eq, decide_eq_false_iff_not, ← orphan_iff]
  constructor
  · rintro ⟨hppid, pre, p, post, hsplit, hpid, hp, ⟨e, he, hepid⟩, hpre⟩
    exact ⟨pre, p, post, hsplit, ⟨hppid, hpid⟩, hp, ⟨e, he, hppid, hepid⟩,
      fun e he hpid => hpre e he hpid.2⟩
  · rintro ⟨pre, p, post, hsplit, ⟨hppid, hpid⟩, hp, ⟨e, he, -, hepid⟩, hpre⟩
    exact ⟨hppid, pre, p, post, hsplit, hpid, hp, ⟨e, he, hepid⟩,
      fun e he hpid => hpre e he ⟨hppid, hpid⟩⟩

end Registry

/-- The orphans among the zombies `zs`, in the order of the list. -/
def orphans (k : Kernel) (zs : List Nat) : List Nat := zs.filter fun z => decide (Orphan k z)

/-- The zombies whose parent may still claim them. -/
def wanted (k : Kernel) (zs : List Nat) : List Nat := zs.filter fun z => decide (¬Orphan k z)

theorem sweep_orphans {img : Image} {k : Kernel} {q zs : List Nat} (h : Inv img k q zs)
    (hsup : ∀ z ∈ zs, ¬Supplanted k z) :
    (registry k).sweep [] zs = (orphans k zs, wanted k zs) := by
  have hdead : ∀ z ∈ zs, (registry k).alive z = false := by
    intro z hz
    apply decide_eq_false
    rintro ⟨hzombie, -⟩
    exact hzombie (h.zombie z hz)
  have hnodup := (List.nodup_append.mp h.nodup).2.1
  rw [Registry.sweep_eq_filter hdead (by simp) (by simpa using hnodup) fun z hz hs =>
    hsup z hz (supplanted_iff.mpr hs)]
  unfold orphans wanted
  have hclaimed : (registry k).claimed [] = fun z => decide (¬Orphan k z) := by
    funext z
    rw [Bool.eq_iff_iff, decide_eq_true_eq, orphan_iff, Bool.not_eq_false]
  rw [hclaimed]
  simp only [List.nil_append, decide_not, Bool.not_not]

/-! ## Another order of the zombies -/

/-- The kernel with its zombies listed in the order `zs`. -/
def relisted (k : Kernel) (zs : List Nat) : Kernel :=
  { k with next := thread k.next 0 zs, zombieHead := zs.headD 0 }

theorem Inv.relisted {img : Image} {k : Kernel} {q zs zs' : List Nat} (h : Inv img k q zs)
    (hperm : zs'.Perm zs) : Inv img (relisted k zs') q zs' := by
  have hall : (q ++ zs').Perm (q ++ zs) := hperm.append_left q
  have hnodup := hall.nodup_iff.mpr h.nodup
  refine ⟨⟨⟨⟨?_, h.queue.size⟩, chain_thread _ _ (List.nodup_append.mp hnodup).2.1, hnodup, ?_, ?_,
    h.tableInj, h.ready, ?_, h.idle⟩, h.current, h.running, h.cr3⟩, h.heap.mono hall.subset⟩
  · apply h.queue.queue.congr
    intro x hx
    exact thread_of_notMem fun hxz => h.notMem_zombies hx (hperm.subset hxz)
  · exact fun h0 => h.nonNull (hperm.subset h0)
  · intro p hp
    rw [hall.mem_iff]
    exact h.table p hp
  · exact fun p hp => h.zombie p (hperm.subset hp)

/-- Two kernels that differ at most in links of zombies and in how the free heap
blocks came about. -/
structure SameOutcome (k k' : Kernel) : Prop where
  table : ∀ i, i < maxProcesses → k'.procTable i = k.procTable i
  pcb : k'.pcb = k.pcb
  ms : k'.ms = k.ms
  heap : ∃ bs, Kmalloc.HeapList k.heap.mem k.heap.heapStart bs ∧
    Kmalloc.HeapList k'.heap.mem k'.heap.heapStart bs
  queue : ∀ ps, 0 ∉ ps → (Chain k'.next k'.queueHead ps 0 ↔ Chain k.next k.queueHead ps 0)
  current : k'.current = k.current
  zombies : ∀ zs zs', Chain k.next k.zombieHead zs 0 → Chain k'.next k'.zombieHead zs' 0 →
    0 ∉ zs → 0 ∉ zs' → zs'.Perm zs

/-! ### Frames -/

/-- The frames that `process_free` gives back, in its order. -/
def returned (m : Mem) (f : Frames) : List Nat :=
  [f.lo, f.hi] ++ if f.pd = 0 then [] else pdFrames m f.pd

theorem releaseFrames_eq (ms : Paging.State) (f : Frames) :
    releaseFrames ms f = ⟨(returned ms.mem f).foldl Pmm.pmmFreeFrame ms.pmm, ms.mem⟩ := by
  unfold releaseFrames pagingFreePd returned
  by_cases hpd : f.pd = 0
  · simp [hpd]
  · simp [hpd]

theorem releaseAll_eq (fr : Nat → Frames) (ps : List Nat) (ms : Paging.State) :
    ps.foldl (fun ms p => releaseFrames ms (fr p)) ms =
      ⟨(ps.flatMap fun p => returned ms.mem (fr p)).foldl Pmm.pmmFreeFrame ms.pmm, ms.mem⟩ := by
  induction ps generalizing ms with
  | nil => rfl
  | cons p ps ih =>
      rw [List.foldl_cons, ih, releaseFrames_eq, List.flatMap_cons, List.foldl_append]

/-! ### The heap -/

theorem foldlM_kfree {k k' : Kernel} {ps : List Nat} (hnull : 0 ∉ ps)
    (h : ps.foldlM processFree k = .ok k') : ps.foldlM Kmalloc.kfree k.heap = .ok k'.heap := by
  induction ps generalizing k with
  | nil =>
      cases h
      rfl
  | cons p ps ih =>
      rw [List.mem_cons, not_or] at hnull
      rw [List.foldlM_cons] at h ⊢
      obtain ⟨k₁, hone, hrest⟩ := bind_eq_ok.mp h
      unfold processFree at hone
      rw [if_neg (Ne.symm hnull.1)] at hone
      obtain ⟨heap, hfree, hend⟩ := bind_eq_ok.mp hone
      cases hend
      have hheap : (procTableRemove k p).heap = k.heap := by
        unfold procTableRemove
        split <;> rfl
      rw [hheap] at hfree
      rw [hfree, bind_ok]
      exact ih hnull.2 hrest

theorem foldlM_kfree_holds {bytes : Set Nat} {heap heap' : Kmalloc.Heap} {live ps : List Nat}
    {bs : List Kmalloc.Block} (hholds : Kmalloc.Holds bytes ⟨heap, live⟩ bs) (hsub : ps ⊆ live)
    (hnodup : ps.Nodup) (h : ps.foldlM Kmalloc.kfree heap = .ok heap') :
    Kmalloc.HeapList heap'.mem heap'.heapStart
      (ps.foldl (fun bs p => Kmalloc.deallocate p bs) bs) := by
  induction ps generalizing heap live bs with
  | nil =>
      cases h
      exact hholds.list
  | cons p ps ih =>
      obtain ⟨hp, hps⟩ := List.nodup_cons.mp hnodup
      rw [List.foldlM_cons] at h
      obtain ⟨heap₁, hone, hrest⟩ := bind_eq_ok.mp h
      refine ih (hholds.kfree (hsub List.mem_cons_self) hone) (fun x hx => ?_) hps hrest
      have hne : x ≠ p := fun hxp => hp (hxp ▸ hx)
      exact (List.mem_erase_of_ne hne).mpr (hsub (List.mem_cons_of_mem p hx))

theorem mem_live_deallocateAll {ps : List Nat} {bs : List Kmalloc.Block} {b : Kmalloc.Block} :
    b ∈ Kmalloc.live (ps.foldl (fun bs p => Kmalloc.deallocate p bs) bs) ↔
      b ∈ Kmalloc.live bs ∧ b.payload ∉ ps := by
  induction ps generalizing bs with
  | nil => simp
  | cons p ps ih =>
      rw [List.foldl_cons, ih, Kmalloc.mem_live_deallocate, List.mem_cons, not_or, and_assoc]

/-- The heap behind a sweep: the control blocks of `gone` are free. -/
theorem Swept.heapList {img : Image} {k k' : Kernel} {q zs gone live : List Nat} {bytes : Set Nat}
    {bs : List Kmalloc.Block} (h : Swept k gone k') (hinv : Inv img k q zs)
    (hholds : Kmalloc.Holds bytes ⟨k.heap, live⟩ bs)
    (hlive : ∀ p ∈ q ++ zs, p ≠ img.idlePcb → p ∈ live) (hgone : gone ⊆ zs) (hnodup : gone.Nodup) :
    Kmalloc.HeapList k'.heap.mem k'.heap.heapStart
      (gone.foldl (fun bs p => Kmalloc.deallocate p bs) bs) := by
  obtain ⟨k₁, hfold, hk'⟩ := h.frees
  have hheap : k'.heap = k₁.heap := by rw [hk']
  have hnull : 0 ∉ gone := fun h0 => hinv.nonNull (hgone h0)
  rw [hheap]
  refine foldlM_kfree_holds hholds (fun p hp => ?_) hnodup (foldlM_kfree hnull hfold)
  refine hlive p (List.mem_append_right q (hgone hp)) fun hidle => ?_
  exact hinv.notMem_zombies hinv.idle (hidle ▸ hgone hp)

/-! ## One call -/

/-- The call that took `k` to `k'` called `process_free` once for each orphan among the
zombies `zs`, in the order of the list, and left the others in the list as they were. -/
structure FreesOrphans (k : Kernel) (zs : List Nat) (k' : Kernel) : Prop where
  once : (orphans k zs).Nodup
  frees : ∃ k₁, (orphans k zs).foldlM processFree k = .ok k₁ ∧
    k' = { k₁ with next := k'.next, zombieHead := k'.zombieHead }
  list : Chain k'.next k'.zombieHead (wanted k zs) 0
  pcb : ∀ z ∈ wanted k zs, k'.pcb z = k.pcb z
  slot : ∀ z ∈ wanted k zs, ∀ i, i < maxProcesses → k.procTable i = z → k'.procTable i = z
  blocks : ∀ x n, Kmalloc.LiveBlock k'.heap x n ↔
    Kmalloc.LiveBlock k.heap x n ∧ x + 16 ∉ orphans k zs
  frames : ∀ z ∈ wanted k zs, ∀ a ∈ heldFrames k.ms.mem (framesOf k z),
    a ∈ Pmm.usedFrames k'.ms.pmm ∧ ∀ x, frameOf x = a → k'.ms.mem x = k.ms.mem x

/-- The reaper frees exactly the orphans among the zombies `zs`, and the outcome is the
same in whatever order they are listed. -/
def ReapsExactly (k : Kernel) (zs : List Nat) : Prop :=
  ∃ k', schedulerReapZombies k = .ok k' ∧ FreesOrphans k zs k' ∧
    ∀ zs', zs'.Perm zs → ∃ k'', schedulerReapZombies (relisted k zs') = .ok k'' ∧
      SameOutcome k' k''

section Call

variable {img : Image} {pmm₀ : Pmm.State} {k k' k'' : Kernel} {q zs zs' : List Nat}

theorem orphans_perm_wanted (k : Kernel) (zs : List Nat) :
    zs.Perm (orphans k zs ++ wanted k zs) := by
  have hsplit := List.filter_append_perm (fun z => decide (Orphan k z)) zs
  simp only [← decide_not] at hsplit
  exact hsplit.symm

theorem Swept.freesOrphans (h : Swept k (orphans k zs) k') (hinv : Inv img k q zs)
    (hinv' : Inv img k' q (wanted k zs)) (hleases : LeaseInv False img pmm₀ k) :
    FreesOrphans k zs k' := by
  have hnodup : zs.Nodup := (List.nodup_append.mp hinv.nodup).2.1
  have hsub : wanted k zs ⊆ zs := List.filter_subset_self _
  have hout : ∀ z ∈ wanted k zs, z ∉ orphans k zs := by
    intro z hz ho
    exact of_decide_eq_true (List.mem_filter.mp hz).2 (of_decide_eq_true (List.mem_filter.mp ho).2)
  have hleases' : LeaseInv False img pmm₀ k' :=
    hleases.reaped hinv (orphans_perm_wanted k zs) (List.Perm.refl q) h.toReaped (Moves.refl k') hinv'
  have hmem : k'.ms.mem = k.ms.mem := by rw [h.ms, releaseAll_eq]
  refine ⟨hnodup.filter _, h.frees, hinv'.zombies, fun z _ => by rw [h.pcb], ?_, ?_, ?_⟩
  · intro z hz i hi hiz
    rw [h.table i hi, if_neg (hiz ▸ hout z hz), hiz]
  · intro x n
    obtain ⟨bytes, live, bs, hholds, -, hlive⟩ := hinv.heap
    have hlist := h.heapList hinv hholds hlive (List.filter_subset_self _) (hnodup.filter _)
    rw [hholds.list.liveBlock_iff, hlist.liveBlock_iff]
    simp only [mem_live_deallocateAll]
    constructor
    · rintro ⟨b, ⟨hb, hpay⟩, rfl, rfl⟩
      exact ⟨⟨b, hb, rfl, rfl⟩, hpay⟩
    · rintro ⟨⟨b, hb, rfl, rfl⟩, hpay⟩
      exact ⟨b, ⟨hb, hpay⟩, rfl, rfl⟩
  · rintro z hz a ⟨sl, hsl⟩
    refine ⟨?_, fun x _ => by rw [hmem]⟩
    have hidle : z ≠ img.idlePcb := fun hzi => hinv.notMem_zombies hinv.idle (hzi ▸ hsub hz)
    have hp : z ∈ procsIn img k' :=
      (mem_procsIn hinv'.toLists).mpr ⟨List.mem_append_right q hz, hidle⟩
    have hframes : framesOf k' z = framesOf k z := by
      unfold framesOf
      rw [h.pcb]
    rw [← hmem, ← hframes] at hsl
    exact (hleases'.leases.slot_handedOut hp hsl).1

theorem frees_orphans (hinv : Inv img k q zs) (hleases : LeaseInv False img pmm₀ k)
    (hsup : ∀ z ∈ zs, ¬Supplanted k z) :
    ∃ k', schedulerReapZombies k = .ok k' ∧ Inv img k' q (wanted k zs) ∧
      Swept k (orphans k zs) k' ∧ FreesOrphans k zs k' := by
  obtain ⟨k', hret, hinv', hswept⟩ := schedulerReapZombies_sweep hinv
  rw [sweep_orphans hinv hsup] at hinv' hswept
  exact ⟨k', hret, hinv', hswept, hswept.freesOrphans hinv hinv' hleases⟩

theorem sameOutcome (hinv : Inv img k q zs) (hperm : zs'.Perm zs)
    (hinv' : Inv img k' q (wanted k zs)) (hinv'' : Inv img k'' q (wanted k zs'))
    (h : Swept k (orphans k zs) k') (h' : Swept (relisted k zs') (orphans k zs') k'') :
    SameOutcome k' k'' := by
  have horphans : (orphans k zs').Perm (orphans k zs) := hperm.filter _
  have hnodup : zs.Nodup := (List.nodup_append.mp hinv.nodup).2.1
  refine ⟨?_, h'.pcb.trans h.pcb.symm, ?_, ?_, ?_, h'.current.trans h.current.symm, ?_⟩
  · intro i hi
    rw [h.table i hi, h'.table i hi]
    simp only [horphans.mem_iff]
    rfl
  · rw [h.ms, h'.ms, releaseAll_eq, releaseAll_eq]
    change (⟨_, k.ms.mem⟩ : Paging.State) = _
    congr 1
    exact Pmm.foldl_free_perm k.ms.pmm (horphans.flatMap_right _)
  · obtain ⟨bytes, live, bs, hholds, -, hlive⟩ := hinv.heap
    have hlist := h.heapList hinv hholds hlive (List.filter_subset_self _) (hnodup.filter _)
    have hlist' := h'.heapList (hinv.relisted hperm) hholds
      (fun p hp => hlive p ((hperm.append_left q).subset hp)) (List.filter_subset_self _)
      ((hperm.nodup_iff.mpr hnodup).filter _)
    rw [Kmalloc.deallocate_perm hholds.list.layout horphans] at hlist'
    exact ⟨_, hlist, hlist'⟩
  · intro ps hps
    exact chain_iff_of_chain hinv'.queue.queue.chain hinv''.queue.queue.chain
      hinv'.queue.queue.nonNull hps
  · intro ws ws' hws hws' hnull hnull'
    rw [hws.unique hinv'.zombies hnull hinv'.nonNull,
      hws'.unique hinv''.zombies hnull' hinv''.nonNull]
    exact hperm.filter _

/-- Where no zombie is supplanted the reaper is exact. -/
theorem reapsExactly_of (hinv : Inv img k q zs) (hleases : LeaseInv False img pmm₀ k)
    (hsup : ∀ z ∈ zs, ¬Supplanted k z) : ReapsExactly k zs := by
  obtain ⟨k', hret, hinv', hswept, hfrees⟩ := frees_orphans hinv hleases hsup
  refine ⟨k', hret, hfrees, fun zs' hperm => ?_⟩
  have hrelisted : LeaseInv False img pmm₀ (relisted k zs') := ⟨hleases.leases, hleases.idleFrames⟩
  obtain ⟨k'', hret', hinv'', hswept', -⟩ := frees_orphans (hinv.relisted hperm) hrelisted
    fun z hz => hsup z (hperm.subset hz)
  exact ⟨k'', hret', sameOutcome hinv hperm hinv' hinv'' hswept hswept'⟩

/-- A supplanted zombie shows in some order of the list. -/
theorem not_supplanted_of_reapsExactly (hinv : Inv img k q zs) (h : ReapsExactly k zs) :
    ∀ z ∈ zs, ¬Supplanted k z := by
  intro z hz hsup
  obtain ⟨k', hret, hfrees, horders⟩ := h
  obtain ⟨zs', hperm, x, hx, hclaimed⟩ := Registry.exists_order_keeping hz (supplanted_iff.mp hsup)
    hinv.residents_nodup fun y hy hdead => hinv.mem_zombies hy (of_decide_eq_false hdead)
  obtain ⟨k'', hret', hsame⟩ := horders zs' hperm
  obtain ⟨k₁, hret₁, hinv₁, hswept₁⟩ := schedulerReapZombies_sweep hinv
  obtain ⟨k₂, hret₂, hinv₂, hswept₂⟩ := schedulerReapZombies_sweep (hinv.relisted hperm)
  rw [hret] at hret₁
  rw [hret'] at hret₂
  cases hret₁
  cases hret₂
  -- the orphan `x` lost its slot in the order of `zs` and has it in that of `zs'`
  have hkept : ((registry k).sweep [] zs).2 = wanted k zs :=
    hinv₁.zombies.unique hfrees.list hinv₁.nonNull fun h0 =>
      hinv.nonNull (List.filter_subset_self _ h0)
  obtain ⟨freed, hfst, hsplit⟩ := Registry.sweep_split (r := registry k) [] zs
  obtain ⟨freed', -, hsplit'⟩ := Registry.sweep_split (r := registry k) [] zs'
  have hxz : x ∈ zs := hperm.subset (hsplit'.symm.subset (List.mem_append_right _ hx))
  have hgone : x ∈ ((registry k).sweep [] zs).1 := by
    rw [hfst, List.nil_append]
    refine (List.mem_append.mp (hsplit.subset hxz)).resolve_right fun hxw => ?_
    rw [hkept] at hxw
    exact of_decide_eq_true (List.mem_filter.mp hxw).2 (orphan_iff.mpr hclaimed)
  have hx0 : x ≠ 0 := fun h0 => hinv.nonNull (h0 ▸ hxz)
  obtain ⟨i, hi, hix⟩ := (hinv₂.table x hx0).mpr (List.mem_append_right q hx)
  have hslot : k.procTable i = x := by
    rw [← hix]
    exact hswept₂.table.slot hi (hix.symm ▸ hx0)
  rw [hsame.table i hi, hswept₁.table i hi, if_pos (hslot ▸ hgone)] at hix
  exact hx0 hix.symm

end Call

end StakOS.Process
