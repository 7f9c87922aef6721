import StakOS.Lib.Sweep
import StakOS.Scheduler.Reap

/-!
# What the reaper frees

The zombie list is swept against the process table: a zombie whose parent's pid
finds no live process is freed, and its slot is empty when the next one is looked
at.  The loop over the linked list refines the sweep of the list of zombies.
-/

namespace StakOS.Process

open StakOS.Lib.Loop StakOS.Lib.Linked StakOS.Lib.Sweep

/-! ## Looking up a pid -/

/-- The processes in the table, in the order of their slots. -/
def residents (k : Kernel) : List Nat :=
  ((List.range maxProcesses).map k.procTable).filter fun p => decide (p ≠ 0)

/-- Neither a zombie nor dead. -/
def Alive (k : Kernel) (p : Nat) : Prop := (k.pcb p).state ≠ .zombie ∧ (k.pcb p).state ≠ .dead

instance (k : Kernel) (p : Nat) : Decidable (Alive k p) := inferInstanceAs (Decidable (_ ∧ _))

/-- A zombie asks for the processes that have the pid of its parent; nobody asks for
pid 0. -/
def registry (k : Kernel) : Registry Nat where
  table := residents k
  answers z p := decide ((k.pcb z).parentPid ≠ 0) && decide ((k.pcb p).pid = (k.pcb z).parentPid)
  alive p := decide (Alive k p)

/-- The table of `k'` is that of `k` without `gone`. -/
def TableWithout (k : Kernel) (gone : List Nat) (k' : Kernel) : Prop :=
  ∀ i, i < maxProcesses → k'.procTable i = if k.procTable i ∈ gone then 0 else k.procTable i

section Lookup

variable {k k' : Kernel} {gone : List Nat}

theorem TableWithout.refl (k : Kernel) : TableWithout k [] k := fun _ _ => by simp

/-- A slot that is not empty is as it was. -/
theorem TableWithout.slot (h : TableWithout k gone k') {i : Nat} (hi : i < maxProcesses)
    (hne : k'.procTable i ≠ 0) : k.procTable i = k'.procTable i := by
  rw [h i hi] at hne ⊢
  by_cases hin : k.procTable i ∈ gone
  · rw [if_pos hin] at hne
    exact absurd rfl hne
  · rw [if_neg hin]

/-- The first process with a pid, once `gone` have left the table. -/
theorem processLookup_without (htable : TableWithout k gone k') (hpcb : k'.pcb = k.pcb)
    (pid : Nat) :
    processLookup k' pid = ((residents k).find? fun p =>
      decide (p ∉ gone) && decide ((k.pcb p).pid = pid)).getD 0 := by
  have hpred : ∀ i ∈ List.range maxProcesses,
      (decide (k'.procTable i ≠ 0) && decide ((k'.pcb (k'.procTable i)).pid = pid)) =
        (decide (k.procTable i ≠ 0) && (decide (k.procTable i ∉ gone) &&
          decide ((k.pcb (k.procTable i)).pid = pid))) := by
    intro i hi
    rw [htable i (List.mem_range.mp hi), hpcb]
    by_cases hin : k.procTable i ∈ gone <;> simp [hin]
  unfold processLookup residents
  rw [List.find?_filter, List.find?_map, ← List.head?_filter, List.filter_congr hpred,
    List.head?_filter]
  simp only [Function.comp_def, Bool.decide_and, Bool.decide_eq_true]
  cases hfind : (List.range maxProcesses).find? _ with
  | none => rfl
  | some i =>
      have hi := List.mem_range.mp (List.mem_of_find?_eq_some hfind)
      have hout : k.procTable i ∉ gone := by
        have hsome := List.find?_some hfind
        simp only [Bool.and_eq_true, decide_eq_true_eq] at hsome
        exact hsome.2.1
      exact (htable i hi).trans (if_neg hout)

theorem mem_residents {p : Nat} :
    p ∈ residents k ↔ p ≠ 0 ∧ ∃ i, i < maxProcesses ∧ k.procTable i = p := by
  unfold residents
  rw [List.mem_filter, List.mem_map, decide_eq_true_eq, and_comm]
  simp only [List.mem_range]

theorem processLookup_eq_zero {pid : Nat} :
    processLookup k pid = 0 ↔ ∀ p ∈ residents k, (k.pcb p).pid ≠ pid := by
  rw [processLookup_without (.refl k) rfl]
  cases hfind : (residents k).find? fun p => decide (p ∉ []) && decide ((k.pcb p).pid = pid) with
  | none =>
      refine ⟨fun _ p hp hpid => ?_, fun _ => rfl⟩
      exact List.find?_eq_none.mp hfind p hp (by simp [hpid])
  | some p =>
      have hp := List.mem_of_find?_eq_some hfind
      have hpid := List.find?_some hfind
      simp only [List.not_mem_nil, not_false_eq_true, decide_true, Bool.true_and,
        decide_eq_true_eq] at hpid
      exact ⟨fun h0 => absurd h0 (mem_residents.mp hp).1, fun hnone => absurd hpid (hnone p hp)⟩

/-- `is_pid_alive` on the parent of `z` asks whether `z` is claimed. -/
theorem isPidAlive_eq (htable : TableWithout k gone k') (hpcb : k'.pcb = k.pcb) (z : Nat) :
    isPidAlive k' (k'.pcb z).parentPid = (registry k).claimed gone z := by
  unfold isPidAlive Registry.claimed registry
  rw [processLookup_without htable hpcb, hpcb]
  by_cases hppid : (k.pcb z).parentPid = 0
  · rw [if_pos hppid, List.find?_eq_none.mpr (by simp [hppid])]
    rfl
  · simp only [hppid, if_false, ne_eq, not_false_eq_true, decide_true, Bool.true_and]
    cases hfind : (residents k).find? fun p =>
        decide (p ∉ gone) && decide ((k.pcb p).pid = (k.pcb z).parentPid) with
    | none => simp
    | some p =>
        have hp : p ≠ 0 := (mem_residents.mp (List.mem_of_find?_eq_some hfind)).1
        rw [Bool.eq_iff_iff]
        simp only [Option.getD_some, hp, if_false, Option.any_some, Bool.and_eq_true,
          decide_eq_true_eq]
        rfl

end Lookup

section Residents

variable {img : Image} {k : Kernel} {q zs : List Nat}

theorem Lists.residents_nodup (h : Lists img k q zs) : (residents k).Nodup := by
  unfold residents
  rw [List.filter_map]
  refine List.Nodup.map_on ?_ (List.nodup_range.filter _)
  intro i hi j hj heq
  rw [List.mem_filter, List.mem_range] at hi hj
  exact h.tableInj i j hi.1 hj.1 heq (of_decide_eq_true hi.2)

theorem SchedInv.alive (h : SchedInv img k q zs) {p : Nat} (hp : p ∈ q) : Alive k p := by
  unfold Alive
  by_cases hcur : p = k.current
  · rw [hcur, h.running]
    decide
  · rw [h.ready p hp hcur]
    decide

/-- What is in the table and not alive is on the zombie list. -/
theorem SchedInv.mem_zombies (h : SchedInv img k q zs) {p : Nat} (hp : p ∈ residents k)
    (hdead : ¬Alive k p) : p ∈ zs := by
  obtain ⟨hp0, hslot⟩ := mem_residents.mp hp
  rcases List.mem_append.mp ((h.table p hp0).mp hslot) with hq | hz
  · exact absurd (h.alive hq) hdead
  · exact hz

end Residents

/-! ## The sweep -/

/-- `process_free` does not look at the links of the zombie list. -/
theorem processFree_relinked {k k' : Kernel} {n : Nat → Nat} {z p : Nat}
    (h : processFree { k with next := n, zombieHead := z } p = .ok k') :
    ∃ k₁, processFree k p = .ok k₁ ∧ k' = { k₁ with next := n, zombieHead := z } := by
  have heq : processFree { k with next := n, zombieHead := z } p =
      (processFree k p).map fun k₁ => { k₁ with next := n, zombieHead := z } := by
    unfold processFree procTableRemove
    by_cases hp : p = 0
    · rw [if_pos hp, if_pos hp]
      rfl
    · rw [if_neg hp, if_neg hp]
      cases (List.range maxProcesses).find? fun i => decide (k.procTable i = p) with
      | none => cases hfree : Kmalloc.kfree k.heap p <;> simp only [hfree] <;> rfl
      | some i => cases hfree : Kmalloc.kfree k.heap p <;> simp only [hfree] <;> rfl
  rw [heq] at h
  cases hone : processFree k p with
  | error stop =>
      rw [hone] at h
      cases h
  | ok k₁ =>
      rw [hone] at h
      cases h
      exact ⟨k₁, rfl, rfl⟩

/-- Behind `process_free` calls for `gone`, in this order, and changes to the links of
the zombie list. -/
structure Swept (k : Kernel) (gone : List Nat) (k' : Kernel) : Prop extends Reaped k gone k' where
  frees : ∃ k₁, gone.foldlM processFree k = .ok k₁ ∧
    k' = { k₁ with next := k'.next, zombieHead := k'.zombieHead }
  table : TableWithout k gone k'

theorem Swept.refl (k : Kernel) : Swept k [] k :=
  ⟨⟨rfl, rfl, rfl, rfl, rfl, rfl⟩, ⟨k, rfl, rfl⟩, .refl k⟩

theorem processFree_table {img : Image} {k k' : Kernel} {q zs : List Nat} {p : Nat}
    (h : Lists img k q zs) (hp : p ∈ q ++ zs) (hfree : processFree k p = .ok k') :
    TableWithout k [p] k' := by
  have hp0 : p ≠ 0 := fun h0 => h.zero_notMem (h0 ▸ hp)
  obtain ⟨i, hi, hip, hremove⟩ := procTableRemove_spec ((h.table p hp0).mpr hp)
  unfold processFree at hfree
  rw [if_neg hp0, hremove] at hfree
  obtain ⟨heap, -, hend⟩ := bind_eq_ok.mp hfree
  cases hend
  intro j hj
  change Function.update k.procTable i 0 j = _
  simp only [List.mem_singleton]
  by_cases hji : j = i
  · rw [hji, Function.update_self, if_pos hip]
  · rw [Function.update_of_ne hji, if_neg]
    intro hjp
    exact hji (h.tableInj j i hj hi (hjp.trans hip.symm) (hjp.symm ▸ hp0))

theorem TableWithout.snoc {k k' k'' : Kernel} {gone : List Nat} {p : Nat}
    (h : TableWithout k gone k') (h' : TableWithout k' [p] k'') :
    TableWithout k (gone ++ [p]) k'' := by
  intro i hi
  rw [h' i hi, h i hi]
  by_cases hin : k.procTable i ∈ gone <;> simp [hin]

theorem Swept.snoc {img : Image} {k k' k'' : Kernel} {q pre rest gone : List Nat} {p : Nat}
    (h : Swept k gone k') (hinv : Inv img k' q (pre ++ p :: rest))
    (hfree : processFree (unlinkZombie k' (pre.getLastD 0) p) p = .ok k'')
    (hreaped : Reaped k' [p] k'') : Swept k (gone ++ [p]) k'' := by
  obtain ⟨n, z, hunlink, -, -⟩ := unlinkZombie_spec hinv.zombies
    (List.nodup_append.mp hinv.nodup).2.1 hinv.nonNull
  rw [hunlink] at hfree
  refine ⟨h.toReaped.snoc hreaped, ?_, h.table.snoc ?_⟩
  · obtain ⟨k₁, hfold, hk'⟩ := h.frees
    have hsame : { k' with next := n, zombieHead := z } =
        { k₁ with next := n, zombieHead := z } := by rw [hk']
    rw [hsame] at hfree
    obtain ⟨k₂, hone, rfl⟩ := processFree_relinked hfree
    refine ⟨k₂, ?_, rfl⟩
    rw [List.foldlM_append, hfold, bind_ok, List.foldlM_cons, hone, bind_ok]
    rfl
  · obtain ⟨k₂, hone, rfl⟩ := processFree_relinked hfree
    have htable := processFree_table hinv.toLists (List.mem_append_right q (by simp)) hone
    exact htable

/-- The loop, with the cursor behind the zombies `pre` that it has kept. -/
theorem reap_loop {img : Image} {k k' : Kernel} {q pre rest gone : List Nat} {bound : Nat}
    (hinv : Inv img k' q (pre ++ rest)) (hswept : Swept k gone k') (hbound : rest.length < bound) :
    ∃ k'', loop reapTurn bound (k', pre.getLastD 0, rest.headD 0) = .ok (.ok k'') ∧
      Inv img k'' q (pre ++ ((registry k).sweep gone rest).2) ∧
      Swept k ((registry k).sweep gone rest).1 k'' := by
  induction rest generalizing k' pre gone bound with
  | nil =>
      obtain ⟨n, rfl⟩ : ∃ n, bound = n + 1 := Nat.exists_eq_add_one.mpr hbound
      exact ⟨k', loop_of_done (reapTurn_null ..), hinv, hswept⟩
  | cons p rest ih =>
      obtain ⟨n, rfl⟩ : ∃ n, bound = n + 1 := Nat.exists_eq_add_one.mpr (by omega)
      have hlength : rest.length < n := by
        rw [List.length_cons] at hbound
        omega
      have hp : p ≠ 0 := fun h0 => hinv.nonNull (by simp [h0])
      have hnext : k'.next p = rest.headD 0 := hinv.zombies.next_eq
      have halive := isPidAlive_eq hswept.table hswept.pcb p
      change ∃ k'', loop reapTurn (n + 1) (k', pre.getLastD 0, p) = _ ∧ _ ∧ _
      cases hclaimed : (registry k).claimed gone p with
      | true =>
          rw [hclaimed] at halive
          have hkept : Inv img k' q (pre ++ [p] ++ rest) := by simpa using hinv
          obtain ⟨k'', hloop, hinv'', hswept''⟩ := ih hkept hswept hlength
          refine ⟨k'', ?_, ?_, ?_⟩
          · rw [loop_of_again (reapTurn_alive _ hp halive), hnext]
            simpa using hloop
          · simpa [Registry.sweep, hclaimed] using hinv''
          · simpa [Registry.sweep, hclaimed] using hswept''
      | false =>
          rw [hclaimed] at halive
          obtain ⟨k₁, hfree, hinv₁, hreaped⟩ := hinv.reap
          obtain ⟨k'', hloop, hinv'', hswept''⟩ :=
            ih hinv₁ (hswept.snoc hinv hfree hreaped) hlength
          refine ⟨k'', ?_, ?_, ?_⟩
          · rw [loop_of_again (reapTurn_orphan hp halive hfree), hnext]
            exact hloop
          · simpa [Registry.sweep, hclaimed] using hinv''
          · simpa [Registry.sweep, hclaimed] using hswept''

/-- One call of the reaper sweeps the zombie list. -/
theorem schedulerReapZombies_sweep {img : Image} {k : Kernel} {q zs : List Nat}
    (h : Inv img k q zs) :
    ∃ k', schedulerReapZombies k = .ok k' ∧ Inv img k' q ((registry k).sweep [] zs).2 ∧
      Swept k ((registry k).sweep [] zs).1 k' := by
  have hbound : zs.length < turns := by
    have hle := h.length_le
    rw [List.length_append] at hle
    unfold maxProcesses at hle
    unfold turns
    omega
  have hstart : Inv img k q ([] ++ zs) := h
  obtain ⟨k', hloop, hinv, hswept⟩ := reap_loop hstart (.refl k) hbound
  refine ⟨k', ?_, hinv, hswept⟩
  unfold schedulerReapZombies
  rw [h.zombies.start]
  rw [show loop reapTurn turns (k, 0, zs.headD 0) = _ from hloop]
  rfl

end StakOS.Process
