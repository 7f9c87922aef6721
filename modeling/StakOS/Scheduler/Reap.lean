import StakOS.Scheduler.Invariant

/-!
# Reaping and the timer

`process_free` takes a zombie's control block and frames back; the timer tick
reaps, counts the running process down and switches when its time is used up.
-/

namespace StakOS.Process

open StakOS.Lib.Memory StakOS.Lib.Loop StakOS.Lib.Linked StakOS.Lib.Queue StakOS.Paging

/-! ## Control blocks live on the heap -/

/-- The heap is in order, it lies above the kernel image, and the control blocks of
all processes but idle are live allocations in it. -/
def HeapOk (img : Image) (heap : Kmalloc.Heap) (procs : List Nat) : Prop :=
  ∃ bytes live bs, Kmalloc.Holds bytes ⟨heap, live⟩ bs ∧ (∀ a ∈ bytes, img.kernelEnd ≤ a) ∧
    ∀ p ∈ procs, p ≠ img.idlePcb → p ∈ live

namespace HeapOk

variable {img : Image} {heap : Kmalloc.Heap} {procs procs' : List Nat}

theorem mono (h : HeapOk img heap procs) (hsub : procs' ⊆ procs) : HeapOk img heap procs' := by
  obtain ⟨bytes, live, bs, hholds, hbytes, hlive⟩ := h
  exact ⟨bytes, live, bs, hholds, hbytes, fun p hp hidle => hlive p (hsub hp) hidle⟩

/-- A new control block is none of those in use. -/
theorem kmalloc (h : HeapOk img heap procs) (sz : Nat) :
    ∃ heap' p, Kmalloc.kmalloc heap sz = .ok (heap', p) ∧ HeapOk img heap' procs ∧
      (p ≠ 0 → p ≠ img.idlePcb ∧ p ∉ procs ∧ HeapOk img heap' (p :: procs)) := by
  obtain ⟨bytes, live, bs, hholds, hbytes, hlive⟩ := h
  obtain ⟨heap', hret, -⟩ := Kmalloc.kmalloc_refines hholds.list sz
  have hnew := hholds.kmalloc hret
  set p := (Kmalloc.allocate sz bs).2
  refine ⟨heap', p, hret, ?_, ?_⟩
  · refine ⟨bytes, _, _, hnew, hbytes, fun x hx hidle => ?_⟩
    by_cases hp : p = 0
    · rw [if_pos hp]
      exact hlive x hx hidle
    · rw [if_neg hp]
      exact List.mem_cons_of_mem p (hlive x hx hidle)
  · intro hp
    rw [if_neg hp] at hnew
    obtain ⟨b, hb, haddr, -⟩ := hnew.size_eq List.mem_cons_self
    have habove : img.kernelEnd ≤ b.addr := by
      apply hbytes
      rw [← hnew.bytes]
      exact ⟨b, hb, le_rfl, by unfold Kmalloc.Block.fin; omega⟩
    have hidle : p ≠ img.idlePcb := by
      have hend := img.idlePcb_end
      unfold pcbBytes at hend
      omega
    refine ⟨hidle, ?_, bytes, _, _, hnew, hbytes, ?_⟩
    · intro hmem
      exact absurd (hlive p hmem hidle) (List.nodup_cons.mp hnew.nodup).1
    · intro x hx hxi
      rcases List.mem_cons.mp hx with rfl | hx
      · exact List.mem_cons_self
      · exact List.mem_cons_of_mem p (hlive x hx hxi)

theorem kfree (h : HeapOk img heap procs) {p : Nat} (hp : p ∈ procs) (hidle : p ≠ img.idlePcb)
    (hsub : ∀ x ∈ procs', x ∈ procs ∧ x ≠ p) :
    ∃ heap', Kmalloc.kfree heap p = .ok heap' ∧ HeapOk img heap' procs' := by
  obtain ⟨bytes, live, bs, hholds, hbytes, hlive⟩ := h
  have hpl := hlive p hp hidle
  obtain ⟨m', hret, -⟩ := Kmalloc.kfree_refines hholds.list ((hholds.live p).mp hpl)
  refine ⟨_, hret, bytes, _, _, hholds.kfree hpl hret, hbytes, fun x hx hxi => ?_⟩
  obtain ⟨hxp, hne⟩ := hsub x hx
  exact (List.mem_erase_of_ne hne).mpr (hlive x hxp hxi)

end HeapOk

/-- The whole invariant: the lists, the processor and the heap. -/
structure Inv (img : Image) (k : Kernel) (q zs : List Nat) : Prop extends
    SchedInv img k q zs where
  heap : HeapOk img k.heap (q ++ zs)

/-! ## The process table -/

theorem procTableRemove_spec {k : Kernel} {p : Nat}
    (hp : ∃ i, i < maxProcesses ∧ k.procTable i = p) :
    ∃ i, i < maxProcesses ∧ k.procTable i = p ∧
      procTableRemove k p = { k with procTable := Function.update k.procTable i 0 } := by
  unfold procTableRemove
  cases hfind : (List.range maxProcesses).find? fun i => decide (k.procTable i = p) with
  | none =>
      obtain ⟨i, hi, hip⟩ := hp
      have hnot := List.find?_eq_none.mp hfind i (List.mem_range.mpr hi)
      exact absurd (decide_eq_true hip) hnot
  | some i =>
      refine ⟨i, List.mem_range.mp (List.mem_of_find?_eq_some hfind), ?_, rfl⟩
      simpa using List.find?_some hfind

/-! ## Freeing a process -/

/-- The frames of a process go back to the allocator: its kernel stack and
everything its page directory owns. -/
def releaseFrames (ms : Paging.State) (f : Frames) : Paging.State :=
  pagingFreePd ⟨Pmm.pmmFreeFrame (Pmm.pmmFreeFrame ms.pmm f.lo) f.hi, ms.mem⟩ f.pd

/-- Take the zombie behind `prev` off the zombie list. -/
def unlinkZombie (k : Kernel) (prev cur : Nat) : Kernel :=
  if prev ≠ 0 then k.setNext prev (k.next cur) else { k with zombieHead := k.next cur }

/-- The zombie list without one zombie; the control blocks on no list are not
touched. -/
theorem unlinkZombie_spec {k : Kernel} {pre rest : List Nat} {p : Nat}
    (hchain : Chain k.next k.zombieHead (pre ++ p :: rest) 0)
    (hnodup : (pre ++ p :: rest).Nodup) (hnull : 0 ∉ pre ++ p :: rest) :
    ∃ n z, unlinkZombie k (pre.getLastD 0) p = { k with next := n, zombieHead := z } ∧
      Chain n z (pre ++ rest) 0 ∧ ∀ x, x ∉ pre → n x = k.next x := by
  unfold unlinkZombie
  rcases List.eq_nil_or_concat pre with rfl | ⟨pre, prev, rfl⟩
  · rw [if_neg (by simp)]
    exact ⟨k.next, k.next p, rfl, hchain.2, fun _ _ => rfl⟩
  · rw [List.concat_eq_append] at hchain hnodup hnull ⊢
    have hprev : prev ≠ 0 := fun h0 => hnull (by simp [h0])
    have hlast : (pre ++ [prev]).getLastD 0 = prev := by simp
    have hsplit : pre ++ [prev] ++ p :: rest = pre ++ prev :: p :: rest := by simp
    rw [hsplit] at hchain hnodup
    have hout := (List.nodup_cons.mp (List.nodup_middle.mp hnodup)).1
    rw [hlast, if_pos hprev]
    refine ⟨Function.update k.next prev (k.next p), k.zombieHead, rfl, ?_, ?_⟩
    · obtain ⟨r, -, hr⟩ := chain_append.mp hchain
      have hlink := hchain.relink (fun h => hout (by simp [h])) hr.2.2 (fun h => hout (by simp [h]))
      simpa using hlink
    · intro x hx
      exact Function.update_of_ne (fun hxp => hx (by simp [hxp])) _ _

/-- What reaping `ps` in turn leaves alone, and what becomes of memory. -/
structure Reaped (k : Kernel) (ps : List Nat) (k' : Kernel) : Prop where
  pcb : k'.pcb = k.pcb
  nextPid : k'.nextPid = k.nextPid
  current : k'.current = k.current
  cr3 : k'.cr3 = k.cr3
  tssEsp0 : k'.tssEsp0 = k.tssEsp0
  ms : k'.ms = ps.foldl (fun ms p => releaseFrames ms (k.pcb p).frames) k.ms

theorem Reaped.snoc {k k' k'' : Kernel} {ps : List Nat} {p : Nat} (h : Reaped k ps k')
    (h' : Reaped k' [p] k'') : Reaped k (ps ++ [p]) k'' := by
  refine ⟨h'.pcb.trans h.pcb, h'.nextPid.trans h.nextPid, h'.current.trans h.current,
    h'.cr3.trans h.cr3, h'.tssEsp0.trans h.tssEsp0, ?_⟩
  rw [h'.ms, List.foldl_append, ← h.ms, h.pcb]

theorem Reaped.keeps {k k' : Kernel} {ps : List Nat} (h : Reaped k ps k') : Keeps k k' :=
  ⟨fun x => by rw [h.pcb], h.nextPid, Or.inl ⟨h.current, h.tssEsp0⟩⟩

/-- The table without the process at `i`. -/
theorem table_erase {table : Nat → Nat} {procs procs' : List Nat} {i p : Nat}
    (htable : ∀ x, x ≠ 0 → ((∃ j, j < maxProcesses ∧ table j = x) ↔ x ∈ procs))
    (hinj : ∀ a b, a < maxProcesses → b < maxProcesses → table a = table b → table a ≠ 0 → a = b)
    (hi : i < maxProcesses) (hip : table i = p)
    (hprocs : ∀ x, x ∈ procs' ↔ x ∈ procs ∧ x ≠ p) (x : Nat) (hx : x ≠ 0) :
    (∃ j, j < maxProcesses ∧ Function.update table i 0 j = x) ↔ x ∈ procs' := by
  rw [hprocs, ← htable x hx]
  constructor
  · rintro ⟨j, hj, hjx⟩
    have hji : j ≠ i := by
      intro hji
      rw [hji, Function.update_self] at hjx
      exact hx hjx.symm
    rw [Function.update_of_ne hji] at hjx
    refine ⟨⟨j, hj, hjx⟩, fun hxp => hji ?_⟩
    exact hinj j i hj hi (by rw [hjx, hip, hxp]) (by rw [hjx]; exact hx)
  · rintro ⟨⟨j, hj, hjx⟩, hxp⟩
    have hji : j ≠ i := by
      intro hji
      rw [hji, hip] at hjx
      exact hxp hjx.symm
    exact ⟨j, hj, by rw [Function.update_of_ne hji, hjx]⟩

theorem tableInj_erase {table : Nat → Nat} {i : Nat}
    (hinj : ∀ a b, a < maxProcesses → b < maxProcesses → table a = table b → table a ≠ 0 → a = b)
    (a b : Nat) (ha : a < maxProcesses) (hb : b < maxProcesses)
    (heq : Function.update table i 0 a = Function.update table i 0 b)
    (hne : Function.update table i 0 a ≠ 0) : a = b := by
  have hai : a ≠ i := by
    intro hai
    rw [hai, Function.update_self] at hne
    exact hne rfl
  have hbi : b ≠ i := by
    intro hbi
    rw [heq, hbi, Function.update_self] at hne
    exact hne rfl
  rw [Function.update_of_ne hai] at heq hne
  rw [Function.update_of_ne hbi] at heq
  exact hinj a b ha hb heq hne

theorem processFree_eq {k : Kernel} {p : Nat} {table : Nat → Nat} {heap : Kmalloc.Heap} (hp : p ≠ 0)
    (hremove : procTableRemove k p = { k with procTable := table })
    (hfree : Kmalloc.kfree k.heap p = .ok heap) :
    processFree k p = .ok { k with
      procTable := table
      ms := releaseFrames k.ms (k.pcb p).frames
      heap := heap } := by
  unfold processFree
  rw [if_neg hp, hremove]
  simp only [hfree]
  rfl

/-- One zombie is taken off the list and freed. -/
theorem Inv.reap {img : Image} {k : Kernel} {q pre rest : List Nat} {p : Nat}
    (h : Inv img k q (pre ++ p :: rest)) :
    ∃ k', processFree (unlinkZombie k (pre.getLastD 0) p) p = .ok k' ∧
      Inv img k' q (pre ++ rest) ∧ Reaped k [p] k' := by
  have hmem : p ∈ pre ++ p :: rest := by simp
  have hall : p ∈ q ++ (pre ++ p :: rest) := List.mem_append_right q hmem
  have hp : p ≠ 0 := fun h0 => h.nonNull (h0 ▸ hmem)
  have hpq : p ∉ q := fun hpq => h.notMem_zombies hpq hmem
  have hidle : p ≠ img.idlePcb := fun hpi => hpq (hpi ▸ h.idle)
  have hnodup := (List.nodup_append.mp h.nodup).2.1
  have hperm : (q ++ (pre ++ p :: rest)).Perm (p :: (q ++ (pre ++ rest))) := by
    rw [← List.append_assoc, ← List.append_assoc]
    exact List.perm_middle
  have hnew := hperm.nodup_iff.mp h.nodup
  have hprocs : ∀ x, x ∈ q ++ (pre ++ rest) ↔ x ∈ q ++ (pre ++ p :: rest) ∧ x ≠ p := by
    intro x
    rw [hperm.mem_iff, List.mem_cons]
    constructor
    · intro hx
      exact ⟨Or.inr hx, fun hxp => (List.nodup_cons.mp hnew).1 (hxp ▸ hx)⟩
    · rintro ⟨hx, hxp⟩
      exact hx.resolve_left hxp
  obtain ⟨n, z, hunlink, hchain, hnext⟩ := unlinkZombie_spec h.zombies hnodup h.nonNull
  obtain ⟨i, hi, hip, hremove⟩ := procTableRemove_spec
    (k := { k with next := n, zombieHead := z }) ((h.table p hp).mpr hall)
  obtain ⟨heap, hfree, hheap⟩ := h.heap.kfree hall hidle fun x hx => (hprocs x).mp hx
  rw [hunlink]
  refine ⟨_, processFree_eq hp hremove hfree, ?_, ⟨rfl, rfl, rfl, rfl, rfl, rfl⟩⟩
  refine ⟨⟨⟨⟨?_, h.queue.size⟩, hchain, (List.nodup_cons.mp hnew).2, ?_, ?_, ?_, h.ready, ?_,
    h.idle⟩, h.current, h.running, h.cr3⟩, hheap⟩
  · apply h.queue.queue.congr
    intro x hx
    exact hnext x fun hxp => h.notMem_zombies hx (List.mem_append_left _ hxp)
  · intro h0
    exact h.zero_notMem ((hprocs 0).mp (List.mem_append_right q h0)).1
  · exact table_erase h.table h.tableInj hi hip hprocs
  · exact tableInj_erase h.tableInj
  · intro x hx
    refine h.zombie x ?_
    have hxall := ((hprocs x).mp (List.mem_append_right q hx)).1
    refine (List.mem_append.mp hxall).resolve_left fun hxq => ?_
    exact (List.nodup_append.mp (List.nodup_cons.mp hnew).2).2.2 x hxq x hx rfl

/-! ## The reaper -/

theorem reapTurn_null (k : Kernel) (prev : Nat) : reapTurn (k, prev, 0) = .done (.ok k) := rfl

theorem reapTurn_alive {k : Kernel} {cur : Nat} (prev : Nat) (hcur : cur ≠ 0)
    (halive : isPidAlive k (k.pcb cur).parentPid = true) :
    reapTurn (k, prev, cur) = .again (k, cur, k.next cur) := by
  simp [reapTurn, hcur, halive]

theorem reapTurn_orphan {k k' : Kernel} {prev cur : Nat} (hcur : cur ≠ 0)
    (halive : isPidAlive k (k.pcb cur).parentPid = false)
    (hfree : processFree (unlinkZombie k prev cur) cur = .ok k') :
    reapTurn (k, prev, cur) = .again (k', prev, k.next cur) := by
  unfold unlinkZombie at hfree
  simp only [reapTurn, halive]
  rw [if_pos hcur]
  simp only [Bool.not_false, if_true]
  rw [hfree]

/-- The turn at the zombie `p`, behind the zombies `pre` that are kept: it is kept too, or
freed, and the cursor moves on. -/
theorem reapTurn_cases {k k' : Kernel} {pre rest : List Nat} {p : Nat}
    (hchain : Chain k.next k.zombieHead (pre ++ p :: rest) 0) (hnull : 0 ∉ pre ++ p :: rest)
    (hfree : processFree (unlinkZombie k (pre.getLastD 0) p) p = .ok k') :
    reapTurn (k, pre.getLastD 0, p) = .again (k, (pre ++ [p]).getLastD 0, rest.headD 0) ∨
      reapTurn (k, pre.getLastD 0, p) = .again (k', pre.getLastD 0, rest.headD 0) := by
  have hp : p ≠ 0 := fun h0 => hnull (by simp [h0])
  have hnext : k.next p = rest.headD 0 := hchain.next_eq
  cases halive : isPidAlive k (k.pcb p).parentPid with
  | true =>
      left
      rw [reapTurn_alive _ hp halive, hnext]
      simp
  | false =>
      right
      rw [reapTurn_orphan hp halive hfree, hnext]

/-- The reaper stands behind the zombies `pre` it has kept and before those it has
not looked at; it has freed `ps`. -/
def ReapsAt (img : Image) (k : Kernel) (q zs : List Nat) (n : Nat) : Kernel × Nat × Nat → Prop
  | (k', prev, cur) => ∃ pre rest ps, n = rest.length ∧ prev = pre.getLastD 0 ∧
      cur = rest.headD 0 ∧ zs.Perm (ps ++ (pre ++ rest)) ∧ Inv img k' q (pre ++ rest) ∧
      Reaped k ps k'

/-- How the reaper leaves the kernel: it has freed `ps` and kept the other zombies. -/
def ReapsAll (img : Image) (k : Kernel) (q zs : List Nat) (r : Outcome Kernel) : Prop :=
  ∃ k' zs' ps, r = .ok k' ∧ zs.Perm (ps ++ zs') ∧ Inv img k' q zs' ∧ Reaped k ps k'

theorem reapTurn_keeps {img : Image} {k : Kernel} {q zs : List Nat} (n : Nat)
    (s : Kernel × Nat × Nat) (h : ReapsAt img k q zs n s) :
    (∃ s' n', reapTurn s = .again s' ∧ n' < n ∧ ReapsAt img k q zs n' s') ∨
      ∃ r, reapTurn s = .done r ∧ ReapsAll img k q zs r := by
  obtain ⟨k', prev, cur⟩ := s
  obtain ⟨pre, rest, ps, rfl, rfl, rfl, hperm, hinv, hreaped⟩ := h
  cases rest with
  | nil =>
      right
      rw [List.append_nil] at hperm hinv
      exact ⟨.ok k', reapTurn_null .., k', pre, ps, rfl, hperm, hinv, hreaped⟩
  | cons p rest =>
      left
      obtain ⟨k'', hfree, hinv', hone⟩ := hinv.reap
      rcases reapTurn_cases hinv.zombies hinv.nonNull hfree with hkept | hfreed
      · refine ⟨_, rest.length, hkept, by simp, pre ++ [p], rest, ps, rfl, rfl, rfl, ?_, ?_, hreaped⟩
        · simpa using hperm
        · simpa using hinv
      · refine ⟨_, rest.length, hfreed, by simp, pre, rest, ps ++ [p], rfl, rfl, rfl, ?_, hinv',
          hreaped.snoc hone⟩
        have hmove : (pre ++ p :: rest).Perm ([p] ++ (pre ++ rest)) := List.perm_middle
        have hfront := hmove.append_left ps
        rw [← List.append_assoc ps [p]] at hfront
        exact hperm.trans hfront

/-- Reaping returns, keeps the invariant, and frees zombies only. -/
theorem schedulerReapZombies_inv {img : Image} {k : Kernel} {q zs : List Nat}
    (h : Inv img k q zs) :
    ∃ k' zs' ps, schedulerReapZombies k = .ok k' ∧ zs.Perm (ps ++ zs') ∧ Inv img k' q zs' ∧
      Reaped k ps k' := by
  have hstart : ReapsAt img k q zs zs.length (k, 0, k.zombieHead) :=
    ⟨[], zs, [], rfl, rfl, h.zombies.start, List.Perm.refl _, h, ⟨rfl, rfl, rfl, rfl, rfl, rfl⟩⟩
  have hbound : zs.length < turns := by
    have hle := h.length_le
    rw [List.length_append] at hle
    unfold maxProcesses at hle
    unfold turns
    omega
  obtain ⟨r, hloop, k', zs', ps, rfl, hpost⟩ :=
    loop_rule_cases (ReapsAt img k q zs) (ReapsAll img k q zs) reapTurn_keeps hstart hbound
  refine ⟨k', zs', ps, ?_, hpost⟩
  unfold schedulerReapZombies
  rw [hloop]
  rfl

/-! ## The timer tick -/

theorem modPcb_same {k : Kernel} {p : Nat} {f : Pcb → Pcb} (h : f (k.pcb p) = k.pcb p) :
    k.modPcb p f = k := by
  unfold Kernel.modPcb
  rw [h, Function.update_eq_self]

/-- Nobody on the queue is blocked, so nobody is woken. -/
theorem wake_loop {k : Kernel} {cur bound : Nat} {q : List Nat} (hchain : Chain k.next cur q 0)
    (hnull : 0 ∉ q) (hawake : ∀ p ∈ q, (k.pcb p).state ≠ .blocked) (hbound : q.length < bound) :
    loop wakeTurn bound (k, cur) = .ok k := by
  induction q generalizing cur bound with
  | nil =>
      obtain ⟨n, rfl⟩ : ∃ n, bound = n + 1 := Nat.exists_eq_add_one.mpr hbound
      have hcur : cur = 0 := hchain
      subst hcur
      exact loop_of_done rfl
  | cons p q ih =>
      obtain ⟨n, rfl⟩ : ∃ n, bound = n + 1 := Nat.exists_eq_add_one.mpr (by omega)
      obtain ⟨rfl, hrest⟩ := hchain
      have hp : cur ≠ 0 := fun h0 => hnull (by simp [h0])
      have hsame : k.modPcb cur wake = k := by
        apply modPcb_same
        unfold wake
        rw [if_neg fun hb => hawake cur List.mem_cons_self hb.1]
      have hturn : wakeTurn (k, cur) = .again (k, k.next cur) := by
        simp only [wakeTurn, if_pos hp, hsame]
      rw [loop_of_again hturn]
      apply ih hrest
      · exact fun h0 => hnull (List.mem_cons_of_mem cur h0)
      · exact fun x hx => hawake x (List.mem_cons_of_mem cur hx)
      · rw [List.length_cons] at hbound
        omega

/-- One tick less for the running process. -/
def tickDown (k : Kernel) : Kernel :=
  if (k.pcb k.current).ticksRemaining > 0 then
    k.modPcb k.current fun p => { p with ticksRemaining := p.ticksRemaining - 1 }
  else k

/-- The tick behind the reaper and the sleepers. -/
def countDown (k : Kernel) (esp : Nat) : Outcome Kernel :=
  let cur := k.current
  let k := tickDown k
  if (k.pcb cur).ticksRemaining = 0 ∧ k.queueSize > 0 then do
    let (k, nxt) ← pickNext k
    if nxt ≠ 0 ∧ nxt ≠ cur then return doSwitch k nxt esp
    else return k.modPcb cur fun p => { p with ticksRemaining := p.priority }
  else return k

/-- Nobody waits, so the tick reaps and counts down. -/
theorem schedulerTick_of_reap {img : Image} {k k' : Kernel} {q zs : List Nat} (esp : Nat)
    (hpos : k.current ≠ 0) (hret : schedulerReapZombies k = .ok k') (hinv : Inv img k' q zs)
    (hcur : k'.current = k.current) : schedulerTick k esp = countDown k' esp := by
  have hbound := hinv.queue_bound
  have hawake : ∀ p ∈ q, (k'.pcb p).state ≠ .blocked := by
    intro p hp
    by_cases hpc : p = k'.current
    · rw [hpc, hinv.running]
      decide
    · rw [hinv.ready p hp hpc]
      decide
  have hwake := wake_loop hinv.queue.queue.chain hinv.queue.queue.nonNull hawake
    (by omega : q.length < turns)
  unfold schedulerTick
  simp only
  rw [if_neg hpos, hret, bind_ok, hwake, bind_ok, ← hcur]
  rfl

theorem schedulerTick_eq {img : Image} {k : Kernel} {q zs : List Nat} (esp : Nat)
    (h : Inv img k q zs) :
    ∃ k' zs' ps, schedulerTick k esp = countDown k' esp ∧ zs.Perm (ps ++ zs') ∧
      Inv img k' q zs' ∧ Reaped k ps k' := by
  obtain ⟨k', zs', ps, hret, hperm, hinv, hreaped⟩ := schedulerReapZombies_inv h
  exact ⟨k', zs', ps, schedulerTick_of_reap esp h.current_pos hret hinv hreaped.current, hperm, hinv,
    hreaped⟩

/-- A change to the clock of a process. -/
structure Clocked (f : Pcb → Pcb) : Prop where
  state : ∀ b, (f b).state = b.state
  ident : ∀ b, (f b).ident = b.ident

theorem Clocked.setTicks (t : Pcb → Nat) :
    Clocked fun b => { b with ticksRemaining := t b } :=
  ⟨fun _ => rfl, fun _ => rfl⟩

section Clock

variable {img : Image} {k : Kernel} {q zs : List Nat} {f : Pcb → Pcb} {p : Nat}

theorem Clocked.pcb_state (hf : Clocked f) (x : Nat) :
    ((k.modPcb p f).pcb x).state = (k.pcb x).state := by
  change (Function.update k.pcb p (f (k.pcb p)) x).state = _
  by_cases hx : x = p
  · rw [hx, Function.update_self, hf.state]
  · rw [Function.update_of_ne hx]

theorem Clocked.pcb_ident (hf : Clocked f) (x : Nat) :
    ((k.modPcb p f).pcb x).ident = (k.pcb x).ident := by
  change (Function.update k.pcb p (f (k.pcb p)) x).ident = _
  by_cases hx : x = p
  · rw [hx, Function.update_self, hf.ident]
  · rw [Function.update_of_ne hx]

theorem SchedInv.clock (h : SchedInv img k q zs) (hf : Clocked f) (p : Nat) :
    SchedInv img (k.modPcb p f) q zs := by
  refine ⟨h.toLists.congr rfl (fun _ _ => rfl) fun x _ => hf.pcb_state x, h.current, ?_, ?_⟩
  · exact (hf.pcb_state k.current).trans h.running
  · have hcr3 := congrArg (fun i => i.frames.pd) (hf.pcb_ident (k := k) (p := p) k.current)
    exact h.cr3.trans hcr3.symm

theorem Clocked.moves (hf : Clocked f) (p : Nat) : Moves k (k.modPcb p f) :=
  ⟨⟨hf.pcb_ident, rfl, Or.inl ⟨rfl, rfl⟩⟩, rfl, rfl⟩

end Clock

theorem tickDown_inv {img : Image} {k : Kernel} {q zs : List Nat} (h : SchedInv img k q zs) :
    SchedInv img (tickDown k) q zs ∧ Moves k (tickDown k) ∧ (tickDown k).current = k.current := by
  unfold tickDown
  by_cases hticks : (k.pcb k.current).ticksRemaining > 0
  · rw [if_pos hticks]
    have hf := Clocked.setTicks fun b => b.ticksRemaining - 1
    exact ⟨h.clock hf _, hf.moves _, rfl⟩
  · rw [if_neg hticks]
    exact ⟨h, Moves.refl k, rfl⟩

theorem countDown_of_pick {k k₁ : Kernel} {r : Nat} (esp : Nat)
    (hexpired : ((tickDown k).pcb k.current).ticksRemaining = 0 ∧ (tickDown k).queueSize > 0)
    (hret : pickNext (tickDown k) = .ok (k₁, r)) :
    countDown k esp = if r ≠ 0 ∧ r ≠ k.current then .ok (doSwitch k₁ r esp)
      else .ok (k₁.modPcb k.current fun p => { p with ticksRemaining := p.priority }) := by
  unfold countDown
  simp only
  rw [if_pos hexpired, hret]
  rfl

theorem countDown_of_left {k : Kernel} (esp : Nat)
    (hleft : ¬(((tickDown k).pcb k.current).ticksRemaining = 0 ∧ (tickDown k).queueSize > 0)) :
    countDown k esp = .ok (tickDown k) := by
  unfold countDown
  simp only
  rw [if_neg hleft]
  rfl

theorem tickDown_ticks (k : Kernel) :
    ((tickDown k).pcb k.current).ticksRemaining = (k.pcb k.current).ticksRemaining - 1 := by
  unfold tickDown
  by_cases hticks : (k.pcb k.current).ticksRemaining > 0
  · rw [if_pos hticks]
    change (Function.update k.pcb k.current _ k.current).ticksRemaining = _
    rw [Function.update_self]
  · rw [if_neg hticks]
    omega

theorem countDown_inv {img : Image} {k : Kernel} {q zs : List Nat} (esp : Nat)
    (h : SchedInv img k q zs) :
    ∃ k' q', countDown k esp = .ok k' ∧ SchedInv img k' q' zs ∧ q'.Perm q ∧ Moves k k' := by
  obtain ⟨h₁, hmoves, hcur₁⟩ := tickDown_inv h
  by_cases hexpired :
      ((tickDown k).pcb k.current).ticksRemaining = 0 ∧ (tickDown k).queueSize > 0
  · obtain ⟨k₂, q', r, hret, hlists, hperm, hmoves₂, hpcb, hcur₂, hcr3, hchoice⟩ :=
      pickNext_inv h₁.toLists (Or.inl ⟨h₁.current, h₁.running⟩)
    have hcur : k₂.current = k.current := hcur₂.trans hcur₁
    have hmem : k₂.current ∈ q' := by
      rw [hcur₂]
      exact hperm.mem_iff.mpr h₁.current
    have hrun : (k₂.pcb k₂.current).state = .running := by
      rw [hpcb, hcur₂]
      exact h₁.running
    rw [countDown_of_pick esp hexpired hret]
    rcases hchoice with ⟨rfl, -⟩ | ⟨hr0, hr, hne⟩
    · rw [if_neg (by simp)]
      have h₂ : SchedInv img k₂ q' zs := by
        refine ⟨hlists, hmem, hrun, ?_⟩
        rw [hcr3, hpcb, hcur₂]
        exact h₁.cr3
      have hf := Clocked.setTicks fun b => b.priority
      exact ⟨_, q', rfl, h₂.clock hf _, hperm, (hmoves.trans hmoves₂).trans (hf.moves _)⟩
    · rw [hcur₁] at hne
      have hne₂ : k₂.current ≠ r := by
        rw [hcur]
        exact hne
      rw [if_pos ⟨hr0, Ne.symm hne⟩]
      exact ⟨_, q', rfl, doSwitch_inv esp hlists (Or.inl ⟨hmem, hrun⟩) hr hne₂, hperm,
        (hmoves.trans hmoves₂).trans (doSwitch_moves esp hne₂)⟩
  · exact ⟨tickDown k, q, countDown_of_left esp hexpired, h₁, List.Perm.refl _, hmoves⟩

/-- The tick reaps, then schedules. -/
theorem schedulerTick_inv {img : Image} {k : Kernel} {q zs : List Nat} (esp : Nat)
    (h : Inv img k q zs) :
    ∃ k₁ k' q' zs' ps, schedulerTick k esp = .ok k' ∧ zs.Perm (ps ++ zs') ∧ q'.Perm q ∧
      Reaped k ps k₁ ∧ Moves k₁ k' ∧ Inv img k' q' zs' := by
  obtain ⟨k₁, zs', ps, htick, hzs, hinv, hreaped⟩ := schedulerTick_eq esp h
  obtain ⟨k', q', hret, hinv', hq, hmoves⟩ := countDown_inv esp hinv.toSchedInv
  refine ⟨k₁, k', q', zs', ps, htick.trans hret, hzs, hq, hreaped, hmoves, hinv', ?_⟩
  rw [hmoves.heap]
  exact hinv.heap.mono ((hq.append_right zs').subset)

end StakOS.Process
