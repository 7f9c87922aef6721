import StakOS.Scheduler.Create

/-!
# Control blocks between two statements

When the timer may come between any two statements, a process can be on the run
queue though it is not ready, on neither list, or not yet in the process table.
`Blocks` is what still holds then: the two lists are well formed and disjoint,
and every control block in use is a live allocation.  It is kept by each queue
operation, by the reaper, and by the tick.
-/

namespace StakOS.Process

open StakOS.Lib.Memory StakOS.Lib.Loop StakOS.Lib.Linked StakOS.Lib.Queue StakOS.Paging

/-- The control blocks in use are those on the run queue `q`, those on the zombie
list `zs`, and those `held` by a call in progress.  All but `u` are in the process
table. -/
structure Blocks (img : Image) (k : Kernel) (held q zs : List Nat) (u : Nat) : Prop where
  queue : QueueIs k q
  zombies : Chain k.next k.zombieHead zs 0
  nodup : (q ++ zs).Nodup
  nonNull : 0 ∉ held ++ zs
  apart : ∀ p ∈ held, p ∉ q ++ zs
  listed : ∀ p ∈ held ++ (q ++ zs), p ≠ u → ∃ i, i < maxProcesses ∧ k.procTable i = p
  awake : ∀ p ∈ q, (k.pcb p).state ≠ .blocked
  idle : img.idlePcb ∈ q
  heap : HeapOk img k.heap (held ++ (q ++ zs))

/-- The variables that hold the lists, the table and the heap. -/
structure Threading where
  next : Nat → Nat
  queueHead : Nat
  queueTail : Nat
  queueSize : Nat
  zombieHead : Nat
  procTable : Nat → Nat
  heap : Kmalloc.Heap

def Kernel.threading (k : Kernel) : Threading :=
  ⟨k.next, k.queueHead, k.queueTail, k.queueSize, k.zombieHead, k.procTable, k.heap⟩

/-- The first process on the queue that is ready. -/
def firstReady (k : Kernel) : Option Nat :=
  (List.iterate k.next k.queueHead k.queueSize).find? fun p => decide ((k.pcb p).state = .ready)

theorem find?_ready_congr {k k' : Kernel} {l : List Nat}
    (h : ∀ x ∈ l, (k'.pcb x).state = (k.pcb x).state) :
    (l.find? fun p => decide ((k'.pcb p).state = .ready)) =
      l.find? fun p => decide ((k.pcb p).state = .ready) := by
  induction l with
  | nil => rfl
  | cons x l ih =>
      rw [List.find?_cons, List.find?_cons, h x List.mem_cons_self,
        ih fun y hy => h y (List.mem_cons_of_mem x hy)]

namespace Blocks

variable {img : Image} {k k' : Kernel} {held held' q zs : List Nat} {u p : Nat}

theorem notMem_zombies (h : Blocks img k held q zs u) (hp : p ∈ q) : p ∉ zs := fun hz =>
  (List.nodup_append.mp h.nodup).2.2 p hp p hz rfl

theorem zero_notMem (h : Blocks img k held q zs u) : 0 ∉ held ++ (q ++ zs) := by
  have hnull := h.nonNull
  have hq := h.queue.queue.nonNull
  simp only [List.mem_append, not_or] at hnull ⊢
  exact ⟨hnull.1, hq, hnull.2⟩

theorem length_le (h : Blocks img k held q zs u) : (q ++ zs).length ≤ maxProcesses + 1 := by
  have hsub : q ++ zs ⊆ u :: (List.range maxProcesses).map k.procTable := by
    intro p hp
    by_cases hpu : p = u
    · exact List.mem_cons.mpr (Or.inl hpu)
    · obtain ⟨i, hi, rfl⟩ := h.listed p (List.mem_append_right held hp) hpu
      exact List.mem_cons_of_mem _ (List.mem_map.mpr ⟨i, List.mem_range.mpr hi, rfl⟩)
  have hle := (h.nodup.subperm hsub).length_le
  simpa using hle

theorem bound (h : Blocks img k held q zs u) : q.length + 1 < turns ∧ zs.length < turns := by
  have hle := h.length_le
  rw [List.length_append] at hle
  unfold maxProcesses at hle
  unfold turns
  omega

theorem firstReady_eq (h : Blocks img k held q zs u) :
    firstReady k = q.find? fun p => decide ((k.pcb p).state = .ready) := by
  unfold firstReady
  rw [h.queue.size, h.queue.queue.chain.iterate]

/-- Control blocks, memory and the processor may change under the lists. -/
theorem congr (h : Blocks img k held q zs u) (hsame : k'.threading = k.threading)
    (hawake : ∀ p ∈ q, (k'.pcb p).state ≠ .blocked) : Blocks img k' held q zs u := by
  injection hsame with hnext hhead htail hsize hzombie htable hheap
  refine ⟨⟨?_, ?_⟩, ?_, h.nodup, h.nonNull, h.apart, ?_, hawake, h.idle, ?_⟩
  · rw [hnext, hhead, htail]
    exact h.queue.queue
  · rw [hsize]
    exact h.queue.size
  · rw [hnext, hzombie]
    exact h.zombies
  · rw [htable]
    exact h.listed
  · rw [hheap]
    exact h.heap

/-- A block on no list is free to change. -/
theorem touch (h : Blocks img k held q zs u) (hp : p ∈ held) (hsame : k'.threading = k.threading)
    (hpcb : ∀ x, x ≠ p → k'.pcb x = k.pcb x) : Blocks img k' held q zs u := by
  refine h.congr hsame fun x hx => ?_
  have hxp : x ≠ p := fun hxp => h.apart p hp (hxp ▸ List.mem_append_left zs hx)
  rw [hpcb x hxp]
  exact h.awake x hx

/-- A block may be let go of without being freed. -/
theorem forget (h : Blocks img k held q zs u) (hsub : held' ⊆ held) :
    Blocks img k held' q zs u := by
  have hall : held' ++ (q ++ zs) ⊆ held ++ (q ++ zs) := fun x hx =>
    (List.mem_append.mp hx).elim (fun hx => List.mem_append_left _ (hsub hx))
      (List.mem_append_right held)
  refine ⟨h.queue, h.zombies, h.nodup, ?_, fun x hx => h.apart x (hsub hx),
    fun x hx => h.listed x (hall hx), h.awake, h.idle, h.heap.mono hall⟩
  intro h0
  refine h.nonNull ?_
  exact (List.mem_append.mp h0).elim (fun h0 => List.mem_append_left _ (hsub h0))
    (List.mem_append_right held)

theorem requeue {q' : List Nat} {n : Nat → Nat} {hd tl : Nat} (h : Blocks img k held q zs u)
    (hperm : q'.Perm q) (hq : IsQueue 0 n hd tl q') (hout : ∀ y ∈ zs, n y = k.next y) :
    Blocks img (k.withQueue n hd tl k.queueSize) held q' zs u := by
  have hall : (q' ++ zs).Perm (q ++ zs) := hperm.append_right zs
  have hin : ∀ x, x ∈ held ++ (q' ++ zs) ↔ x ∈ held ++ (q ++ zs) := fun x =>
    (hall.append_left held).mem_iff
  refine ⟨⟨hq, ?_⟩, h.zombies.congr hout, hall.nodup_iff.mpr h.nodup, h.nonNull, ?_, ?_, ?_,
    hperm.mem_iff.mpr h.idle, h.heap.mono fun x hx => (hin x).mp hx⟩
  · rw [hperm.length_eq]
    exact h.queue.size
  · intro x hx
    rw [hall.mem_iff]
    exact h.apart x hx
  · intro x hx
    exact h.listed x ((hin x).mp hx)
  · intro x hx
    exact h.awake x (hperm.mem_iff.mp hx)

/-! ## A block changes lists -/

theorem mem_rest {xs ys : List Nat} (h : Blocks img k held (xs ++ p :: ys) zs u) (x : Nat) :
    x ∈ xs ++ ys ↔ x ∈ xs ++ p :: ys ∧ x ≠ p := by
  have hcons := List.nodup_middle.mp (List.nodup_append.mp h.nodup).1
  constructor
  · intro hx
    refine ⟨?_, fun hxp => (List.nodup_cons.mp hcons).1 (hxp ▸ hx)⟩
    simp only [List.mem_append, List.mem_cons] at hx ⊢
    exact hx.imp_right Or.inr
  · rintro ⟨hx, hxp⟩
    simpa [hxp] using hx

/-- Off the queue, into the hands of the caller. -/
theorem dequeue {xs ys : List Nat} (h : Blocks img k held (xs ++ p :: ys) zs u)
    (hidle : img.idlePcb ≠ p) :
    ∃ n hd tl size, schedulerDequeue k p = .ok (k.withQueue n hd tl size) ∧
      Blocks img (k.withQueue n hd tl size) (p :: held) (xs ++ ys) zs u := by
  have hlen : (xs ++ p :: ys).length < 2 ^ 32 := by
    have hbound := h.bound.1
    unfold turns at hbound
    omega
  obtain ⟨n, hd, tl, hret, hqueue, -, hout⟩ := schedulerDequeue_spec h.queue hlen
  have hcons : (p :: (xs ++ ys ++ zs)).Nodup := by
    have hmiddle : (xs ++ p :: ys ++ zs).Perm (p :: (xs ++ ys ++ zs)) := by simp
    exact hmiddle.nodup_iff.mp h.nodup
  have hback : ∀ x, x ∈ (p :: held) ++ (xs ++ ys ++ zs) → x ∈ held ++ (xs ++ p :: ys ++ zs) := by
    intro x hx
    simp only [List.cons_append, List.mem_cons, List.mem_append] at hx ⊢
    tauto
  refine ⟨n, hd, tl, _, hret, ⟨hqueue, rfl⟩, ?_, (List.nodup_cons.mp hcons).2, ?_, ?_,
    fun x hx => h.listed x (hback x hx), ?_, (h.mem_rest _).mpr ⟨h.idle, hidle⟩, h.heap.mono hback⟩
  · exact h.zombies.congr fun x hx => hout x fun hxq => h.notMem_zombies hxq hx
  · intro h0
    refine h.zero_notMem (hback 0 ?_)
    simp only [List.cons_append, List.mem_cons, List.mem_append] at h0 ⊢
    tauto
  · intro x hx hin
    rcases List.mem_cons.mp hx with rfl | hx
    · exact (List.nodup_cons.mp hcons).1 hin
    · refine h.apart x hx ?_
      simp only [List.mem_append, List.mem_cons] at hin ⊢
      tauto
  · intro x hx
    exact h.awake x ((h.mem_rest x).mp hx).1

/-- From the hands of the caller onto the zombie list. -/
theorem bury (h : Blocks img k held q zs u) (hp : p ∈ held)
    (hheld : ∀ x ∈ held', x ∈ held ∧ x ≠ p) :
    Blocks img { k.setNext p k.zombieHead with zombieHead := p } held' q (p :: zs) u := by
  have hout := h.apart p hp
  rw [List.mem_append, not_or] at hout
  have hback : ∀ x, x ∈ held' ++ (q ++ p :: zs) → x ∈ held ++ (q ++ zs) := by
    intro x hx
    simp only [List.mem_append, List.mem_cons] at hx ⊢
    rcases hx with hx | hx | rfl | hx
    · exact Or.inl (hheld x hx).1
    · exact Or.inr (Or.inl hx)
    · exact Or.inl hp
    · exact Or.inr (Or.inr hx)
  refine ⟨⟨?_, h.queue.size⟩, ⟨rfl, ?_⟩, ?_, ?_, ?_, fun x hx => h.listed x (hback x hx), h.awake,
    h.idle, h.heap.mono hback⟩
  · exact h.queue.queue.update_of_notMem hout.1 _
  · change Chain (Function.update k.next p k.zombieHead)
      (Function.update k.next p k.zombieHead p) zs 0
    rw [Function.update_self]
    refine h.zombies.congr fun x hx => ?_
    have hxp : x ≠ p := fun hxp => hout.2 (hxp ▸ hx)
    exact Function.update_of_ne hxp _ _
  · rw [List.nodup_middle, List.nodup_cons, List.mem_append, not_or]
    exact ⟨hout, h.nodup⟩
  · intro h0
    refine h.zero_notMem (hback 0 ?_)
    simp only [List.mem_append, List.mem_cons] at h0 ⊢
    tauto
  · intro x hx hin
    obtain ⟨hxh, hxp⟩ := hheld x hx
    refine h.apart x hxh ?_
    simp only [List.mem_append, List.mem_cons] at hin ⊢
    tauto

/-- From the hands of the caller to the end of the queue. -/
theorem enqueue (h : Blocks img k held q zs u) (hp : p ∈ held)
    (hheld : ∀ x ∈ held', x ∈ held ∧ x ≠ p) :
    Blocks img (schedulerEnqueue k p) held' (q ++ [p]) zs u ∧
      (schedulerEnqueue k p).pcb = (k.setState p .ready).pcb ∧
      (schedulerEnqueue k p).current = k.current := by
  have hout := h.apart p hp
  rw [List.mem_append, not_or] at hout
  have hnull : p ≠ 0 := fun h0 => h.zero_notMem (List.mem_append_left _ (h0 ▸ hp))
  have hlen : q.length + 1 < 2 ^ 32 := by
    have hbound := h.bound.1
    unfold turns at hbound
    exact hbound
  obtain ⟨n, hd, henq, hqueue, hsame⟩ := schedulerEnqueue_spec h.queue hlen hnull hout.1
  have hback : ∀ x, x ∈ held' ++ (q ++ [p] ++ zs) → x ∈ held ++ (q ++ zs) := by
    intro x hx
    simp only [List.mem_append, List.mem_singleton] at hx ⊢
    rcases hx with hx | (hx | rfl) | hx
    · exact Or.inl (hheld x hx).1
    · exact Or.inr (Or.inl hx)
    · exact Or.inl hp
    · exact Or.inr (Or.inr hx)
  rw [henq]
  refine ⟨⟨⟨hqueue, by simp⟩, ?_, ?_, ?_, ?_, fun x hx => h.listed x (hback x hx), ?_,
    List.mem_append_left _ h.idle, h.heap.mono hback⟩, rfl, rfl⟩
  · refine h.zombies.congr fun x hx => hsame x (fun hxq => h.notMem_zombies hxq hx) ?_
    exact fun hxp => hout.2 (hxp ▸ hx)
  · rw [List.append_assoc, List.singleton_append, List.nodup_middle, List.nodup_cons,
      List.mem_append, not_or]
    exact ⟨hout, h.nodup⟩
  · intro h0
    refine h.zero_notMem (hback 0 ?_)
    simp only [List.mem_append] at h0 ⊢
    tauto
  · intro x hx hin
    obtain ⟨hxh, hxp⟩ := hheld x hx
    refine h.apart x hxh ?_
    simp only [List.mem_append, List.mem_singleton] at hin ⊢
    tauto
  · intro x hx
    change (Function.update k.pcb p { k.pcb p with state := .ready } x).state ≠ .blocked
    by_cases hxp : x = p
    · rw [hxp, Function.update_self]
      simp
    · rw [Function.update_of_ne hxp]
      refine h.awake x ?_
      simpa [hxp] using hx

/-- A new block is in no list and in the hands of the caller. -/
theorem kmalloc (h : Blocks img k held q zs 0) (sz : Nat) :
    ∃ heap p, Kmalloc.kmalloc k.heap sz = .ok (heap, p) ∧
      Blocks img { k with heap := heap } held q zs 0 ∧
      (p ≠ 0 → p ≠ img.idlePcb ∧ p ∉ held ++ (q ++ zs) ∧
        Blocks img { k with heap := heap } (p :: held) q zs p) := by
  obtain ⟨heap, p, hret, hheap, hblock⟩ := h.heap.kmalloc sz
  refine ⟨heap, p, hret, ⟨⟨h.queue.queue, h.queue.size⟩, h.zombies, h.nodup, h.nonNull, h.apart,
    h.listed, h.awake, h.idle, hheap⟩, fun hp => ?_⟩
  obtain ⟨hidle, hnew, hmore⟩ := hblock hp
  refine ⟨hidle, hnew, ⟨h.queue.queue, h.queue.size⟩, h.zombies, h.nodup, ?_, ?_, ?_,
    h.awake, h.idle, hmore⟩
  · rw [List.cons_append, List.mem_cons, not_or]
    exact ⟨Ne.symm hp, h.nonNull⟩
  · intro x hx
    rcases List.mem_cons.mp hx with rfl | hx
    · exact fun hin => hnew (List.mem_append_right held hin)
    · exact h.apart x hx
  · intro x hx hxp
    have hx := (List.mem_cons.mp hx).resolve_left hxp
    exact h.listed x hx fun hx0 => h.zero_notMem (hx0 ▸ hx)

/-- A block that never entered the table is given back. -/
theorem kfree (h : Blocks img k held q zs p) (hp : p ∈ held) (hidle : p ≠ img.idlePcb)
    (hheld : ∀ x ∈ held', x ∈ held ∧ x ≠ p) :
    ∃ heap, Kmalloc.kfree k.heap p = .ok heap ∧
      Blocks img { k with heap := heap } held' q zs 0 := by
  have hback : ∀ x ∈ held' ++ (q ++ zs), x ∈ held ++ (q ++ zs) ∧ x ≠ p := by
    intro x hx
    rcases List.mem_append.mp hx with hx | hx
    · exact ⟨List.mem_append_left _ (hheld x hx).1, (hheld x hx).2⟩
    · exact ⟨List.mem_append_right _ hx, fun hxp => h.apart p hp (hxp ▸ hx)⟩
  obtain ⟨heap, hret, hheap⟩ := h.heap.kfree (List.mem_append_left _ hp) hidle hback
  have hless := h.forget fun x hx => (hheld x hx).1
  refine ⟨heap, hret, ⟨h.queue.queue, h.queue.size⟩, h.zombies, h.nodup, hless.nonNull,
    hless.apart, ?_, h.awake, h.idle, hheap⟩
  intro x hx _
  exact h.listed x (hback x hx).1 (hback x hx).2

/-- The block that was not in the table is entered, if there is room. -/
theorem register (h : Blocks img k held q zs p) :
    (∃ k', procTableAdd k p = (k', true) ∧ Blocks img k' held q zs 0 ∧ k'.pcb = k.pcb ∧
      k'.current = k.current) ∨
    procTableAdd k p = (k, false) := by
  rcases procTableAdd_spec k p with ⟨-, i, hi, hfree, hadd⟩ | ⟨-, hfull⟩
  · left
    refine ⟨_, hadd, ⟨⟨h.queue.queue, h.queue.size⟩, h.zombies, h.nodup, h.nonNull, h.apart, ?_,
      h.awake, h.idle, h.heap⟩, rfl, rfl⟩
    intro x hx _
    by_cases hxp : x = p
    · exact ⟨i, hi, by rw [hxp]; exact Function.update_self ..⟩
    · obtain ⟨j, hj, rfl⟩ := h.listed x hx hxp
      have hji : j ≠ i := by
        rintro rfl
        exact h.zero_notMem (hfree ▸ hx)
      exact ⟨j, hj, Function.update_of_ne hji _ _⟩
  · exact Or.inr hfull

/-- The link of a block on no list is free to change. -/
theorem setNext (h : Blocks img k held q zs u) (hp : p ∈ held) (nxt : Nat) :
    Blocks img (k.setNext p nxt) held q zs u := by
  have hout := h.apart p hp
  rw [List.mem_append, not_or] at hout
  refine ⟨⟨h.queue.queue.update_of_notMem hout.1 _, h.queue.size⟩, ?_, h.nodup, h.nonNull, h.apart,
    h.listed, h.awake, h.idle, h.heap⟩
  refine h.zombies.congr fun x hx => ?_
  have hxp : x ≠ p := fun hxp => hout.2 (hxp ▸ hx)
  exact Function.update_of_ne hxp _ _

/-! ## The reaper -/

/-- Taking a process out of the table leaves the others in it. -/
theorem procTableRemove_others (k : Kernel) (p : Nat) :
    ∃ t, procTableRemove k p = { k with procTable := t } ∧
      ∀ x, x ≠ p → (∃ i, i < maxProcesses ∧ k.procTable i = x) →
        ∃ i, i < maxProcesses ∧ t i = x := by
  unfold procTableRemove
  cases hfind : (List.range maxProcesses).find? fun i => decide (k.procTable i = p) with
  | none => exact ⟨k.procTable, rfl, fun _ _ hx => hx⟩
  | some i =>
      have hip : k.procTable i = p := by simpa using List.find?_some hfind
      refine ⟨_, rfl, ?_⟩
      rintro x hxp ⟨j, hj, rfl⟩
      have hji : j ≠ i := fun hji => hxp (hji ▸ hip)
      exact ⟨j, hj, Function.update_of_ne hji _ _⟩

theorem reap {pre rest : List Nat} (h : Blocks img k held q (pre ++ p :: rest) u) :
    ∃ k', processFree (unlinkZombie k (pre.getLastD 0) p) p = .ok k' ∧
      Blocks img k' held q (pre ++ rest) u ∧ Reaped k [p] k' := by
  have hmem : p ∈ pre ++ p :: rest := by simp
  have hall : p ∈ held ++ (q ++ (pre ++ p :: rest)) := by simp
  have hp : p ≠ 0 := fun h0 => h.zero_notMem (h0 ▸ hall)
  have hidle : p ≠ img.idlePcb := fun hpi => h.notMem_zombies h.idle (hpi ▸ hmem)
  have hcons : (p :: (q ++ (pre ++ rest))).Nodup := by
    have hmiddle : (q ++ (pre ++ p :: rest)).Perm (p :: (q ++ (pre ++ rest))) := by
      rw [← List.append_assoc, ← List.append_assoc]
      exact List.perm_middle
    exact hmiddle.nodup_iff.mp h.nodup
  have hback : ∀ x ∈ held ++ (q ++ (pre ++ rest)), x ∈ held ++ (q ++ (pre ++ p :: rest)) ∧ x ≠ p := by
    intro x hx
    refine ⟨?_, ?_⟩
    · simp only [List.mem_append, List.mem_cons] at hx ⊢
      tauto
    · rintro rfl
      rcases List.mem_append.mp hx with hx | hx
      · exact h.apart x hx (List.mem_append_right q hmem)
      · exact (List.nodup_cons.mp hcons).1 hx
  have hnull : 0 ∉ pre ++ p :: rest := fun h0 => h.nonNull (List.mem_append_right held h0)
  obtain ⟨n, z, hunlink, hchain, hnext⟩ :=
    unlinkZombie_spec h.zombies (List.nodup_append.mp h.nodup).2.1 hnull
  obtain ⟨t, hremove, hothers⟩ := procTableRemove_others { k with next := n, zombieHead := z } p
  obtain ⟨heap, hfree, hheap⟩ := h.heap.kfree hall hidle hback
  rw [hunlink]
  refine ⟨_, processFree_eq hp hremove hfree, ?_, ⟨rfl, rfl, rfl, rfl, rfl, rfl⟩⟩
  refine ⟨⟨?_, h.queue.size⟩, hchain, (List.nodup_cons.mp hcons).2, ?_, ?_, ?_, h.awake, h.idle,
    hheap⟩
  · exact h.queue.queue.congr fun x hx => hnext x fun hxp =>
      h.notMem_zombies hx (List.mem_append_left _ hxp)
  · intro h0
    refine h.nonNull ?_
    simp only [List.mem_append, List.mem_cons] at h0 ⊢
    tauto
  · intro x hx hin
    refine h.apart x hx ?_
    simp only [List.mem_append, List.mem_cons] at hin ⊢
    tauto
  · intro x hx hxu
    exact hothers x (hback x hx).2 (h.listed x (hback x hx).1 hxu)

end Blocks

/-- The reaper's turns from `k` on: the kernel, the last zombie it kept and the
zombie it looks at. -/
inductive Visits (k : Kernel) : Kernel × Nat × Nat → Prop
  | start : Visits k (k, 0, k.zombieHead)
  | turn {s s' : Kernel × Nat × Nat} (hs : Visits k s) (hturn : reapTurn s = .again s') :
      Visits k s'

/-- `scheduler_reap_zombies` calls `process_free` on `p`. -/
def Frees (k : Kernel) (p : Nat) : Prop :=
  ∃ k' prev, Visits k (k', prev, p) ∧ p ≠ 0 ∧ isPidAlive k' (k'.pcb p).parentPid = false

section Reaper

variable {img : Image} {k : Kernel} {held q zs : List Nat} {u : Nat}

/-- The reaper stands behind the zombies `pre` it has kept. -/
def StandsAt (img : Image) (k : Kernel) (held q zs : List Nat) (u n : Nat) :
    Kernel × Nat × Nat → Prop
  | (k', prev, cur) => ∃ pre rest ps, n = rest.length ∧ prev = pre.getLastD 0 ∧
      cur = rest.headD 0 ∧ pre ++ rest ⊆ zs ∧ Blocks img k' held q (pre ++ rest) u ∧ Reaped k ps k'

theorem Blocks.reapTurn {n : Nat} {s : Kernel × Nat × Nat}
    (h : StandsAt img k held q zs u n s) :
    (∃ s' n', reapTurn s = .again s' ∧ n' < n ∧ StandsAt img k held q zs u n' s') ∨
      ∃ k' zs' ps, reapTurn s = .done (.ok k') ∧ zs' ⊆ zs ∧ Blocks img k' held q zs' u ∧
        Reaped k ps k' := by
  obtain ⟨k', prev, cur⟩ := s
  obtain ⟨pre, rest, ps, rfl, rfl, rfl, hsub, hblocks, hreaped⟩ := h
  cases rest with
  | nil =>
      right
      rw [List.append_nil] at hsub hblocks
      exact ⟨k', pre, ps, reapTurn_null .., hsub, hblocks, hreaped⟩
  | cons p rest =>
      left
      obtain ⟨k'', hfree, hblocks', hone⟩ := hblocks.reap
      have hnull : 0 ∉ pre ++ p :: rest := fun h0 =>
        hblocks.nonNull (List.mem_append_right held h0)
      rcases reapTurn_cases hblocks.zombies hnull hfree with hkept | hfreed
      · refine ⟨_, rest.length, hkept, by simp, pre ++ [p], rest, ps, rfl, rfl, rfl, ?_, ?_, hreaped⟩
        · simpa using hsub
        · simpa using hblocks
      · refine ⟨_, rest.length, hfreed, by simp, pre, rest, ps ++ [p], rfl, rfl, rfl, ?_, hblocks',
          hreaped.snoc hone⟩
        intro x hx
        apply hsub
        simp only [List.mem_append, List.mem_cons] at hx ⊢
        tauto

theorem Blocks.standsAt_start (h : Blocks img k held q zs u) :
    StandsAt img k held q zs u zs.length (k, 0, k.zombieHead) :=
  ⟨[], zs, [], rfl, rfl, h.zombies.start, List.Subset.refl _, h, ⟨rfl, rfl, rfl, rfl, rfl, rfl⟩⟩

/-- The reaper returns. -/
theorem Blocks.reapZombies (h : Blocks img k held q zs u) :
    ∃ k' zs' ps, schedulerReapZombies k = .ok k' ∧ zs' ⊆ zs ∧ Blocks img k' held q zs' u ∧
      Reaped k ps k' := by
  obtain ⟨r, hloop, k', zs', ps, rfl, hpost⟩ :=
    loop_rule_cases (StandsAt img k held q zs u)
      (fun r : Outcome Kernel => ∃ k' zs' ps, r = .ok k' ∧ zs' ⊆ zs ∧ Blocks img k' held q zs' u ∧ Reaped k ps k')
      (fun n s hs => by
        rcases Blocks.reapTurn hs with hagain | ⟨k', zs', ps, hdone, hpost⟩
        · exact Or.inl hagain
        · exact Or.inr ⟨_, hdone, k', zs', ps, rfl, hpost⟩)
      h.standsAt_start h.bound.2
  refine ⟨k', zs', ps, ?_, hpost⟩
  unfold schedulerReapZombies
  rw [hloop]
  rfl

/-- It frees zombies only. -/
theorem Blocks.frees (h : Blocks img k held q zs u) {p : Nat} (hfrees : Frees k p) : p ∈ zs := by
  obtain ⟨k', prev, hvisits, hp, -⟩ := hfrees
  have hstands : ∀ s, Visits k s → ∃ n, StandsAt img k held q zs u n s := by
    intro s hs
    induction hs with
    | start => exact ⟨_, h.standsAt_start⟩
    | turn _ hturn ih =>
        obtain ⟨n, hn⟩ := ih
        rcases Blocks.reapTurn hn with ⟨s', n', hagain, -, hs'⟩ | ⟨k', zs', ps, hdone, -⟩
        · rw [hagain] at hturn
          cases hturn
          exact ⟨n', hs'⟩
        · rw [hdone] at hturn
          cases hturn
  obtain ⟨-, pre, rest, -, -, -, rfl, hsub, -⟩ := hstands _ hvisits
  cases rest with
  | nil => exact absurd rfl hp
  | cons p rest => exact hsub (by simp)

/-- A zombie at the front of the list whose parent is pid 0 is freed. -/
theorem frees_head {p : Nat} (hhead : k.zombieHead = p) (hp : p ≠ 0)
    (hparent : (k.pcb p).parentPid = 0) : Frees k p := by
  refine ⟨k, 0, hhead ▸ .start, hp, ?_⟩
  rw [hparent]
  rfl

end Reaper

/-! ## Switching -/

/-- What scheduling never assigns in a control block. -/
structure Birth where
  pid : Nat
  parentPid : Nat
  userEntry : Nat

def Pcb.birth (b : Pcb) : Birth := ⟨b.pid, b.parentPid, b.userEntry⟩

/-- Nobody's pid, parent or entry point changes. -/
def Kin (k k' : Kernel) : Prop := ∀ x, (k'.pcb x).birth = (k.pcb x).birth

theorem Kin.of_pcb {k k' : Kernel} (h : k'.pcb = k.pcb) : Kin k k' := fun x => by rw [h]

theorem Kin.trans {k k' k'' : Kernel} (h : Kin k k') (h' : Kin k' k'') : Kin k k'' := fun x =>
  (h' x).trans (h x)

theorem Kin.pid {k k' : Kernel} (h : Kin k k') (x : Nat) : (k'.pcb x).pid = (k.pcb x).pid :=
  congrArg Birth.pid (h x)

theorem Kin.parent {k k' : Kernel} (h : Kin k k') (x : Nat) :
    (k'.pcb x).parentPid = (k.pcb x).parentPid := congrArg Birth.parentPid (h x)

theorem Kin.userEntry {k k' : Kernel} (h : Kin k k') (x : Nat) :
    (k'.pcb x).userEntry = (k.pcb x).userEntry := congrArg Birth.userEntry (h x)

theorem Kin.modPcb (k : Kernel) (p : Nat) {f : Pcb → Pcb} (hf : ∀ b, (f b).birth = b.birth) :
    Kin k (k.modPcb p f) := by
  intro x
  change (Function.update k.pcb p (f (k.pcb p)) x).birth = _
  by_cases hx : x = p
  · rw [hx, Function.update_self, hf]
  · rw [Function.update_of_ne hx]

/-- The same process runs on and all states are as before. -/
structure Stays (k k' : Kernel) : Prop where
  current : k'.current = k.current
  states : ∀ x, (k'.pcb x).state = (k.pcb x).state

/-- The processor goes over to `r`. -/
structure Goes (k k' : Kernel) (r : Nat) : Prop where
  current : k'.current = r
  running : (k'.pcb r).state = .running
  left : (k'.pcb k.current).state =
    if (k.pcb k.current).state = .running then .ready else (k.pcb k.current).state
  others : ∀ x, x ≠ r → x ≠ k.current → (k'.pcb x).state = (k.pcb x).state

/-- What a call of the scheduler does that finds `r` to run, or nobody. -/
def Dispatches (k k' : Kernel) : Option Nat → Prop
  | none => Stays k k'
  | some r => r ≠ k.current ∧ Goes k k' r

theorem Stays.goes {k k₁ k' : Kernel} {r : Nat} (h : Stays k k₁) (h' : Goes k₁ k' r) :
    Goes k k' r := by
  refine ⟨h'.current, h'.running, ?_, ?_⟩
  · have hleft := h'.left
    rw [h.current, h.states] at hleft
    exact hleft
  · intro x hxr hxc
    rw [← h.current] at hxc
    rw [h'.others x hxr hxc, h.states]

theorem Stays.trans {k k₁ k' : Kernel} (h : Stays k k₁) (h' : Stays k₁ k') : Stays k k' :=
  ⟨h'.current.trans h.current, fun x => (h'.states x).trans (h.states x)⟩

theorem Stays.dispatches {k k₁ k' : Kernel} {r : Option Nat} (h : Stays k k₁)
    (h' : Dispatches k₁ k' r) : Dispatches k k' r := by
  cases r with
  | none => exact h.trans h'
  | some r => exact ⟨h.current ▸ h'.1, h.goes h'.2⟩

theorem doSwitch_goes {k : Kernel} {r : Nat} (esp : Nat) (hne : k.current ≠ r) :
    Goes k (doSwitch k r esp) r ∧ Kin k (doSwitch k r esp) := by
  rw [doSwitch_eq esp hne]
  refine ⟨⟨rfl, ?_, ?_, ?_⟩, ?_⟩
  · change (k.switchPcb r esp r).state = .running
    rw [switchPcb_next k esp hne]
    rfl
  · change (k.switchPcb r esp k.current).state = _
    rw [switchPcb_current]
    rfl
  · intro x hxr hxc
    change (k.switchPcb r esp x).state = _
    rw [switchPcb_of_ne k esp hxc hxr]
  · intro x
    change (k.switchPcb r esp x).birth = _
    by_cases hxc : x = k.current
    · rw [hxc, switchPcb_current]
      rfl
    · by_cases hxr : x = r
      · rw [hxr, switchPcb_next k esp hne]
        rfl
      · rw [switchPcb_of_ne k esp hxc hxr]

namespace Blocks

variable {img : Image} {k k' : Kernel} {held q zs : List Nat} {u : Nat}

theorem doSwitch (h : Blocks img k held q zs u) {r : Nat} (esp : Nat) (hne : k.current ≠ r) :
    Blocks img (doSwitch k r esp) held q zs u := by
  obtain ⟨hgoes, -⟩ := doSwitch_goes esp hne
  refine h.congr ?_ fun p hp => ?_
  · rw [doSwitch_eq esp hne]
    rfl
  · by_cases hpr : p = r
    · rw [hpr, hgoes.running]
      decide
    · by_cases hpc : p = k.current
      · rw [hpc, hgoes.left]
        split
        · decide
        · exact h.awake _ (hpc ▸ hp)
      · rw [hgoes.others p hpr hpc]
        exact h.awake p hp

/-- `pick_next` takes the first ready process. -/
theorem pickNext (h : Blocks img k held q zs u) :
    ∃ k' q' r, pickNext k = .ok (k', r) ∧ q'.Perm q ∧ Blocks img k' held q' zs u ∧
      k'.pcb = k.pcb ∧ k'.current = k.current ∧ k'.zombieHead = k.zombieHead ∧
      (firstReady k = none ∧ r = 0 ∨ firstReady k = some r ∧ r ≠ 0) := by
  obtain ⟨n, hd, tl, q', r, hret, hqueue, hout, hpicked⟩ :=
    pickNext_spec h.queue (Nat.lt_of_succ_lt h.bound.1)
  have hzs : ∀ y ∈ zs, n y = k.next y := fun y hy =>
    hout y fun hyq => h.notMem_zombies hyq hy
  refine ⟨_, q', r, hret, hpicked.perm, h.requeue hpicked.perm hqueue hzs, rfl, rfl, rfl, ?_⟩
  rw [h.firstReady_eq]
  cases hpicked with
  | none hnone =>
      left
      refine ⟨List.find?_eq_none.mpr fun x hx => ?_, rfl⟩
      simpa using hnone x hx
  | @found xs ys r hq hready hpassed =>
      right
      have hr : r ∈ q := by
        rw [hq]
        simp
      refine ⟨?_, fun h0 => h.queue.queue.nonNull (h0 ▸ hr)⟩
      rw [hq, List.find?_append]
      have hxs : (xs.find? fun p => decide ((k.pcb p).state = .ready)) = none :=
        List.find?_eq_none.mpr fun x hx => by simpa using hpassed x hx
      rw [hxs, Option.none_or, List.find?_cons_of_pos (by simpa using hready)]

theorem firstReady_congr (h : Blocks img k held q zs u) {held' zs' : List Nat} {u' : Nat}
    (h' : Blocks img k' held' q zs' u') (hstates : ∀ x, (k'.pcb x).state = (k.pcb x).state) :
    firstReady k' = firstReady k := by
  rw [h.firstReady_eq, h'.firstReady_eq, find?_ready_congr fun x _ => hstates x]

theorem firstReady_mem (h : Blocks img k held q zs u) {r : Nat} (hr : firstReady k = some r) :
    r ∈ q ∧ (k.pcb r).state = .ready := by
  rw [h.firstReady_eq] at hr
  exact ⟨List.mem_of_find?_eq_some hr, by simpa using List.find?_some hr⟩

theorem firstReady_ne_current (h : Blocks img k held q zs u) {r : Nat}
    (hr : firstReady k = some r) (hcur : (k.pcb k.current).state ≠ .ready) : k.current ≠ r := by
  rintro rfl
  exact hcur (h.firstReady_mem hr).2

/-- Giving way. -/
theorem yield (h : Blocks img k held q zs u) (hcur : (k.pcb k.current).state ≠ .ready)
    (esp : Nat) :
    ∃ k' q', schedulerYield k esp = .ok k' ∧ q'.Perm q ∧ Blocks img k' held q' zs u ∧ Kin k k' ∧
      Dispatches k k' (firstReady k) := by
  obtain ⟨k₁, q', r, hret, hperm, hblocks, hpcb, hcurrent, -, hchoice⟩ := h.pickNext
  have hstays : Stays k k₁ := ⟨hcurrent, fun x => by rw [hpcb]⟩
  rw [schedulerYield_of_pick esp hret]
  rcases hchoice with ⟨hnone, rfl⟩ | ⟨hsome, hr⟩
  · rw [if_pos (Or.inl rfl), hnone]
    exact ⟨k₁, q', rfl, hperm, hblocks, Kin.of_pcb hpcb, hstays⟩
  · have hne := h.firstReady_ne_current hsome hcur
    have hne₁ : k₁.current ≠ r := by
      rw [hcurrent]
      exact hne
    obtain ⟨hgoes, hkin⟩ := doSwitch_goes esp hne₁
    rw [if_neg (not_or.mpr ⟨hr, Ne.symm hne⟩), hsome]
    exact ⟨_, q', rfl, hperm, hblocks.doSwitch esp hne₁, (Kin.of_pcb hpcb).trans hkin,
      Ne.symm hne, hstays.goes hgoes⟩

end Blocks

/-! ## The timer tick -/

/-- The next tick uses up the time of the running process. -/
def Expired (k : Kernel) : Prop := (k.pcb k.current).ticksRemaining ≤ 1

instance (k : Kernel) : Decidable (Expired k) := inferInstanceAs (Decidable (_ ≤ _))

theorem setTicks_stays (k : Kernel) (p : Nat) (t : Pcb → Nat) :
    Stays k (k.modPcb p fun b => { b with ticksRemaining := t b }) ∧
      Kin k (k.modPcb p fun b => { b with ticksRemaining := t b }) :=
  ⟨⟨rfl, (Clocked.setTicks t).pcb_state⟩, Kin.modPcb k p fun _ => rfl⟩

theorem tickDown_stays (k : Kernel) : Stays k (tickDown k) ∧ Kin k (tickDown k) := by
  unfold tickDown
  split
  · exact setTicks_stays k _ fun b => b.ticksRemaining - 1
  · exact ⟨⟨rfl, fun _ => rfl⟩, Kin.of_pcb rfl⟩

theorem tickDown_threading (k : Kernel) : (tickDown k).threading = k.threading := by
  unfold tickDown
  split
  · rfl
  · rfl

namespace Blocks

variable {img : Image} {k k' : Kernel} {held q zs : List Nat} {u : Nat}

theorem stays (h : Blocks img k held q zs u) (hsame : k'.threading = k.threading)
    (hstays : Stays k k') : Blocks img k' held q zs u :=
  h.congr hsame fun p hp => by
    rw [hstays.states]
    exact h.awake p hp

theorem countDown (h : Blocks img k held q zs u) (hcur : (k.pcb k.current).state ≠ .ready)
    (esp : Nat) :
    ∃ k' q', countDown k esp = .ok k' ∧ q'.Perm q ∧ Blocks img k' held q' zs u ∧ Kin k k' ∧
      Dispatches k k' (if Expired k then firstReady k else none) := by
  obtain ⟨hstays, hkin⟩ := tickDown_stays k
  have h₁ := h.stays (tickDown_threading k) hstays
  have hsize : (tickDown k).queueSize > 0 := by
    rw [h₁.queue.size]
    exact List.length_pos_of_mem h.idle
  have hticks := tickDown_ticks k
  by_cases hexp : Expired k
  · have hexpired :
        ((tickDown k).pcb k.current).ticksRemaining = 0 ∧ (tickDown k).queueSize > 0 := by
      unfold Expired at hexp
      exact ⟨by omega, hsize⟩
    obtain ⟨k₂, q', r, hret, hperm, hblocks, hpcb, hcurrent, -, hchoice⟩ := h₁.pickNext
    have hready := h.firstReady_congr h₁ hstays.states
    have hstays₂ : Stays k k₂ := hstays.trans ⟨hcurrent, fun x => by rw [hpcb]⟩
    have hkin₂ : Kin k k₂ := hkin.trans (Kin.of_pcb hpcb)
    rw [hready] at hchoice
    rw [if_pos hexp, countDown_of_pick esp hexpired hret]
    rcases hchoice with ⟨hnone, rfl⟩ | ⟨hsome, hr⟩
    · obtain ⟨hreset, hkin₃⟩ := setTicks_stays k₂ k.current fun b => b.priority
      rw [if_neg (by simp), hnone]
      exact ⟨_, q', rfl, hperm, hblocks.stays rfl hreset, hkin₂.trans hkin₃,
        hstays₂.trans hreset⟩
    · have hne := h.firstReady_ne_current hsome hcur
      have hne₂ : k₂.current ≠ r := by
        rw [hstays₂.current]
        exact hne
      obtain ⟨hgoes, hkin₃⟩ := doSwitch_goes esp hne₂
      rw [if_pos ⟨hr, Ne.symm hne⟩, hsome]
      exact ⟨_, q', rfl, hperm, hblocks.doSwitch esp hne₂, hkin₂.trans hkin₃, Ne.symm hne,
        hstays₂.goes hgoes⟩
  · have hleft : ¬(((tickDown k).pcb k.current).ticksRemaining = 0 ∧
        (tickDown k).queueSize > 0) := by
      unfold Expired at hexp
      omega
    rw [if_neg hexp]
    exact ⟨Process.tickDown k, q, countDown_of_left esp hleft, List.Perm.refl _, h₁, hkin, hstays⟩

/-- The tick reaps, and switches if the running process has had its time. -/
theorem tick (h : Blocks img k held q zs u) (hcur0 : k.current ≠ 0)
    (hcur : (k.pcb k.current).state ≠ .ready) (esp : Nat) :
    ∃ k' q' zs', schedulerTick k esp = .ok k' ∧ q'.Perm q ∧ zs' ⊆ zs ∧
      Blocks img k' held q' zs' u ∧ Kin k k' ∧
      Dispatches k k' (if Expired k then firstReady k else none) := by
  obtain ⟨k₁, zs', ps, hreap, hsub, h₁, hreaped⟩ := h.reapZombies
  have hwake := wake_loop h₁.queue.queue.chain h₁.queue.queue.nonNull h₁.awake
    (Nat.lt_of_succ_lt h₁.bound.1)
  have hstays : Stays k k₁ := ⟨hreaped.current, fun x => by rw [hreaped.pcb]⟩
  have htick : schedulerTick k esp = Process.countDown k₁ esp := by
    unfold schedulerTick
    simp only
    rw [if_neg hcur0, hreap, bind_ok, hwake, bind_ok, ← hreaped.current]
    rfl
  have hcur₁ : (k₁.pcb k₁.current).state ≠ .ready := by
    rw [hstays.states, hstays.current]
    exact hcur
  obtain ⟨k', q', hret, hperm, hblocks, hkin, hdispatch⟩ := h₁.countDown hcur₁ esp
  have hexpired : Expired k₁ ↔ Expired k := by
    unfold Expired
    rw [hreaped.pcb, hreaped.current]
  rw [h.firstReady_congr h₁ hstays.states] at hdispatch
  simp only [hexpired] at hdispatch
  exact ⟨k', q', zs', htick.trans hret, hperm, hsub, hblocks,
    (Kin.of_pcb hreaped.pcb).trans hkin, hstays.dispatches hdispatch⟩

/-- The running process exits in one step: it goes to the front of the zombie list and
the first ready process runs. -/
theorem exit (h : Blocks img k held q zs u) (hcur : k.current ∈ q)
    (hidle : img.idlePcb ≠ k.current) (hrun : (k.pcb k.current).state = .running) {code : Int}
    {esp : Nat} (hret : processExit k code esp = .ok k') :
    ∃ r q', firstReady k = some r ∧ r ≠ k.current ∧ (∀ x, x ∈ q' ↔ x ∈ q ∧ x ≠ k.current) ∧
      Blocks img k' held q' (k.current :: zs) u ∧ Kin k k' ∧ k'.current = r ∧
      (k'.pcb r).state = .running ∧
      ∀ x, x ≠ r → x ≠ k.current → (k'.pcb x).state = (k.pcb x).state := by
  set cur := k.current with hcurdef
  set f : Pcb → Pcb := fun p => { p with exitCode := code, state := .zombie } with hf
  have hpcb : ∀ x, x ≠ cur → (k.modPcb cur f).pcb x = k.pcb x := fun x hx =>
    Function.update_of_ne hx _ _
  have hself : (k.modPcb cur f).pcb cur = f (k.pcb cur) := Function.update_self ..
  have h₀ : Blocks img (k.modPcb cur f) held q zs u := by
    refine h.congr rfl fun x hx => ?_
    by_cases hxc : x = cur
    · rw [hxc, hself]
      simp [hf]
    · rw [hpcb x hxc]
      exact h.awake x hx
  obtain ⟨xs, ys, rfl⟩ := List.append_of_mem hcur
  obtain ⟨n, hd, tl, size, hdeq, h₁⟩ := h₀.dequeue hidle
  have hheld : ∀ x ∈ held, x ∈ cur :: held ∧ x ≠ cur := fun x hx =>
    ⟨List.mem_cons_of_mem cur hx, fun hxc =>
      h.apart x hx (hxc.symm ▸ List.mem_append_left zs hcur)⟩
  have h₂ := h₁.bury List.mem_cons_self hheld
  set k₂ := { ((k.modPcb cur f).withQueue n hd tl size).setNext cur
      ((k.modPcb cur f).withQueue n hd tl size).zombieHead with zombieHead := cur } with hk₂
  have hstates : ∀ x, x ≠ cur → (k₂.pcb x).state = (k.pcb x).state := fun x hx =>
    congrArg Pcb.state (hpcb x hx)
  have hzombie : (k₂.pcb cur).state = .zombie := congrArg Pcb.state hself
  have hleft : (k₂.pcb k₂.current).state ≠ .ready := by
    change (k₂.pcb cur).state ≠ .ready
    rw [hzombie]
    decide
  obtain ⟨k₃, q', hyield, hperm, h₃, hkin, hdispatch⟩ := h₂.yield hleft esp
  have hready : firstReady k₂ = firstReady k := by
    rw [h₂.firstReady_eq, h.firstReady_eq, List.find?_append, List.find?_append,
      List.find?_cons_of_neg (by simp [hrun])]
    have hrest : ∀ x ∈ xs ++ ys, (k₂.pcb x).state = (k.pcb x).state := fun x hx =>
      hstates x ((h.mem_rest x).mp hx).2
    rw [find?_ready_congr fun x hx => hrest x (List.mem_append_left ys hx),
      find?_ready_congr fun x hx => hrest x (List.mem_append_right xs hx)]
  have hmark : schedulerMarkZombie (k.modPcb cur f) cur = .ok k₂ := by
    have hnull : cur ≠ 0 := fun h0 => h.queue.queue.nonNull (h0 ▸ hcur)
    unfold schedulerMarkZombie
    rw [if_neg hnull, hdeq]
    rfl
  have hrest : (if k₃.current = cur then (.error .halts : Outcome Kernel) else .ok k₃) = .ok k' := by
    rw [← hret]
    unfold processExit
    simp only [← hcurdef, ← hf]
    rw [hmark, bind_ok, hyield]
    rfl
  rw [hready] at hdispatch
  cases hsome : firstReady k with
  | none =>
      rw [hsome] at hdispatch
      have hstill : k₃.current = cur := hdispatch.current
      rw [if_pos hstill] at hrest
      cases hrest
  | some r =>
      rw [hsome] at hdispatch
      obtain ⟨hne, hgoes⟩ := hdispatch
      rw [if_neg (by rw [hgoes.current]; exact hne)] at hrest
      cases hrest
      refine ⟨r, q', rfl, hne, fun x => ?_, h₃, ?_, hgoes.current, hgoes.running, ?_⟩
      · rw [hperm.mem_iff]
        exact h.mem_rest x
      · have hkin₂ : Kin k k₂ :=
          (Kin.modPcb k cur (f := f) fun _ => rfl).trans (Kin.of_pcb rfl)
        exact hkin₂.trans hkin
      · intro x hxr hxc
        rw [hgoes.others x hxr hxc]
        exact hstates x hxc

end Blocks

end StakOS.Process
