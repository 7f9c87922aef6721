import StakOS.Lib.Budget
import StakOS.Scheduler.Runs
import StakOS.Scheduler.Slice

/-!
# How long a process waits for the processor

`scheduler_tick` takes the processor from a process when its ticks are used up, and gives the
one it picks as many ticks as that has priority.  A process on the run queue is therefore due
after the ticks the running one has left and the slices of those ahead of it.  No event makes
it due later, and every tick makes it due earlier, so it runs by then, whatever is created,
yields and exits meanwhile.
-/

namespace StakOS.Process

open StakOS.Lib.Memory StakOS.Lib.Loop StakOS.Lib.Linked StakOS.Lib.Queue StakOS.Lib.Budget
open Relation (ReflTransGen)

/-- The ticks a process runs for when it is dispatched.  A process of priority 0 is left at the
first tick, as is one of priority 1. -/
def Pcb.slice (b : Pcb) : Nat := max 1 b.priority

/-- The ticks until the running process is left. -/
def Kernel.ticksLeft (k : Kernel) : Nat := max 1 (k.pcb k.current).ticksRemaining

/-- The ticks after which `p` runs, when the queue is `q`. -/
def Kernel.due (k : Kernel) (q : List Nat) (p : Nat) : Nat :=
  k.ticksLeft + load (fun x => (k.pcb x).slice) p q

theorem ticksLeft_pos (k : Kernel) : 0 < k.ticksLeft :=
  Nat.lt_of_lt_of_le Nat.zero_lt_one (Nat.le_max_left ..)

/-- The ticks in an event. -/
def Event.ticks : Event → Nat
  | .tick _ => 1
  | _ => 0

/-- `p` still waits, and is due earlier by the `c` ticks that have passed. -/
structure Nearer (p : Nat) (k : Kernel) (q : List Nat) (c : Nat) (k' : Kernel) (q' : List Nat) :
    Prop where
  queue : QueueIs k' q'
  mem : p ∈ q'
  due : k'.due q' p + c ≤ k.due q p

/-- Nothing that matters to `p` has changed. -/
theorem due_congr {k k' : Kernel} {q : List Nat} (p : Nat) (hcur : k'.current = k.current)
    (hmem : k.current ∈ q) (hpcb : ∀ x ∈ q, k'.pcb x = k.pcb x) : k'.due q p = k.due q p := by
  have hload : load (fun x => (k'.pcb x).slice) p q = load (fun x => (k.pcb x).slice) p q :=
    load_congr fun x hx => congrArg Pcb.slice (hpcb x hx)
  unfold Kernel.due Kernel.ticksLeft
  rw [hload, hcur, hpcb _ hmem]

/-- A process joins at the end of the queue. -/
theorem due_join {k : Kernel} {q : List Nat} {p : Nat} (hp : p ∈ q) (x : Nat) :
    k.due (q ++ [x]) p = k.due q p := by
  unfold Kernel.due
  rw [load_append_of_mem hp]

/-! ## Dispatching another process -/

section Dispatch

variable {img : Image} {k k' : Kernel} {q zs : List Nat} {p r : Nat}

/-- Another process is dispatched and goes to the end of the queue: its slice runs now, and
was ahead of `p` before. -/
theorem due_dispatch {xs ys : List Nat} (hcur : k'.current = r)
    (hr : k'.pcb r = (k.pcb r).dispatched)
    (hprio : ∀ x ∈ ys ++ xs ++ [r], (k'.pcb x).priority = (k.pcb x).priority)
    (hxs : p ∉ xs) (hrp : r ≠ p) (hys : p ∈ ys) :
    k'.due (ys ++ xs ++ [r]) p ≤ load (fun x => (k.pcb x).slice) p (xs ++ r :: ys) := by
  have hload : load (fun x => (k'.pcb x).slice) p (ys ++ xs ++ [r]) =
      load (fun x => (k.pcb x).slice) p (ys ++ xs ++ [r]) :=
    load_congr fun x hx => congrArg (max 1) (hprio x hx)
  have hticks : k'.ticksLeft = (k.pcb r).slice := by
    unfold Kernel.ticksLeft
    rw [hcur, hr]
    rfl
  have hserve := load_serve (w := fun x => (k.pcb x).slice) hxs hrp hys
  unfold Kernel.due
  rw [hload, hticks]
  omega

theorem switchPcb_priority (k : Kernel) (nxt esp x : Nat) :
    (k.switchPcb nxt esp x).priority = (k.pcb x).priority := by
  by_cases hcur : x = k.current
  · rw [hcur, switchPcb_current]
    rfl
  · by_cases hnxt : x = nxt
    · subst hnxt
      rw [switchPcb_next k esp (Ne.symm hcur)]
      rfl
    · rw [switchPcb_of_ne k esp hcur hnxt]

/-- While `p` waits there is a process to pick.  Unless it is `p`, the switch to it leaves
`p` no more than the load that was ahead of it. -/
theorem pick_nearer (esp : Nat) (h : SchedInv img k q zs) (hp : p ∈ q) (hne : k.current ≠ p) :
    ∃ k₁ r, pickNext k = .ok (k₁, r) ∧ r ≠ 0 ∧ r ≠ k.current ∧
      (doSwitch k₁ r esp).current = r ∧
      (r ≠ p → ∃ q', QueueIs (doSwitch k₁ r esp) q' ∧ p ∈ q' ∧
        (doSwitch k₁ r esp).due q' p ≤ load (fun x => (k.pcb x).slice) p q) := by
  have hbound := h.queue_bound
  have hready : (k.pcb p).state = .ready := h.ready p hp (Ne.symm hne)
  obtain ⟨n, hd, tl, q', r, hret, hqueue, -, hpicked⟩ := pickNext_spec h.queue (by omega)
  cases hpicked with
  | none hnone => exact absurd hready (hnone p hp)
  | @found xs ys r hq hr hpassed =>
      have hrq : r ∈ q := by
        rw [hq]
        simp
      have hrc : r ≠ k.current := by
        intro hrc
        rw [hrc, h.running] at hr
        cases hr
      set k₁ := k.withQueue n hd tl k.queueSize
      have hsw := doSwitch_eq (k := k₁) esp (Ne.symm hrc)
      refine ⟨k₁, r, hret, fun h0 => h.queue.queue.nonNull (h0 ▸ hrq), hrc, ?_, fun hrp => ?_⟩
      · rw [hsw]
      · have hxs : p ∉ xs := fun hpx => hpassed p hpx hready
        have hys : p ∈ ys := by
          rw [hq] at hp
          have hp' := (List.mem_append.mp hp).resolve_left hxs
          exact List.mem_of_ne_of_mem (Ne.symm hrp) hp'
        refine ⟨ys ++ xs ++ [r], ?_, by simp [hys], ?_⟩
        · rw [hsw]
          refine ⟨hqueue, ?_⟩
          change k.queueSize = _
          rw [h.queue.size, hq]
          simp only [List.length_append, List.length_cons, List.length_nil]
          omega
        · rw [hsw, hq]
          exact due_dispatch rfl (switchPcb_next k₁ esp (Ne.symm hrc))
            (fun x _ => switchPcb_priority k₁ r esp x) hxs hrp hys

end Dispatch

/-! ## One lemma for each event -/

section Events

variable {img : Image} {k k' : Kernel} {q zs : List Nat} {p : Nat}

theorem create_nearer {start r : Nat} (h : Inv img k q zs) (hp : p ∈ q)
    (hcreate : Creates img start k q zs k' r) : ∃ q', Nearer p k q 0 k' q' := by
  cases hcreate with
  | failed hnew hspares hinv =>
      have hpcb : ∀ y ∈ q, k'.pcb y = k.pcb y := fun y hy =>
        hspares.pcb y fun hyx => hnew (hyx ▸ List.mem_append_left zs hy)
      exact ⟨q, hinv.queue, hp, (due_congr p hspares.current h.current hpcb).le⟩
  | made _ _ hnew hspares hinv =>
      have hpcb : ∀ y ∈ q, k'.pcb y = k.pcb y := fun y hy =>
        hspares.pcb y fun hyx => hnew (hyx ▸ List.mem_append_left zs hy)
      refine ⟨q ++ [r], hinv.queue, List.mem_append_left _ hp, ?_⟩
      rw [due_join hp]
      exact (due_congr p hspares.current h.current hpcb).le

theorem createElf_nearer {base r : Nat} {data : Mem} (h : Inv img k q zs) (hp : p ∈ q)
    (hcreate : CreatesElf img base data k q zs k' r) : ∃ q', Nearer p k q 0 k' q' := by
  cases hcreate with
  | invalid => exact ⟨q, h.queue, hp, le_rfl⟩
  | notCreated hcreate => exact create_nearer h hp hcreate
  | @created k₁ _ x _ _ hx hcreate hload hspares =>
      cases hcreate with
      | failed => exact absurd rfl hx
      | made _ _ hnew hspares₁ =>
          have hboth := hspares₁.trans hspares
          have hpcb : ∀ y ∈ q, k'.pcb y = k.pcb y := fun y hy =>
            hboth.pcb y fun hyx => hnew (hyx ▸ List.mem_append_left zs hy)
          have hdue := (due_congr p hboth.current h.current hpcb).le
          cases hload with
          | loaded hinv =>
              refine ⟨q ++ [r], hinv.queue, List.mem_append_left _ hp, ?_⟩
              rw [due_join hp]
              exact hdue
          | abandoned hinv => exact ⟨q, hinv.queue, hp, hdue⟩

theorem yield_nearer {esp : Nat} (h : SchedInv img k q zs) (hp : p ∈ q) (hne : k.current ≠ p)
    (hrun : schedulerYield k esp = .ok k') (hne' : k'.current ≠ p) :
    ∃ q', Nearer p k q 0 k' q' := by
  obtain ⟨k₁, r, hret, hr0, hrc, hcur, hnearer⟩ := pick_nearer esp h hp hne
  rw [schedulerYield_of_pick esp hret, if_neg (not_or.mpr ⟨hr0, hrc⟩)] at hrun
  cases hrun
  rw [hcur] at hne'
  obtain ⟨q', hqueue, hmem, hdue⟩ := hnearer hne'
  exact ⟨q', hqueue, hmem, hdue.trans (Nat.le_add_left ..)⟩

theorem tickDown_priority (k : Kernel) (x : Nat) :
    ((tickDown k).pcb x).priority = (k.pcb x).priority := by
  unfold tickDown
  split
  · change (Function.update k.pcb k.current _ x).priority = _
    by_cases hx : x = k.current
    · rw [hx, Function.update_self]
    · rw [Function.update_of_ne hx]
  · rfl

theorem tick_nearer {esp : Nat} (h : Inv img k q zs) (hp : p ∈ q) (hne : k.current ≠ p)
    (hrun : schedulerTick k esp = .ok k') (hne' : k'.current ≠ p) :
    ∃ q', Nearer p k q 1 k' q' := by
  obtain ⟨k₁, zs', ps, htick, -, hinv, hreaped⟩ := schedulerTick_eq esp h
  rw [htick] at hrun
  have hdue₁ : k₁.due q p = k.due q p :=
    due_congr p hreaped.current h.current fun x _ => congrFun hreaped.pcb x
  rw [← hreaped.current] at hne
  obtain ⟨hinv₂, -, hcur₂⟩ := tickDown_inv hinv.toSchedInv
  have hticks := tickDown_ticks k₁
  have hload : load (fun x => ((tickDown k₁).pcb x).slice) p q =
      load (fun x => (k₁.pcb x).slice) p q :=
    load_congr fun x _ => congrArg (max 1) (tickDown_priority k₁ x)
  by_cases hexpired : ((tickDown k₁).pcb k₁.current).ticksRemaining = 0 ∧
      (tickDown k₁).queueSize > 0
  · -- The slice is used up, so the budget falls to the load ahead of `p`.
    obtain ⟨k₂, r, hret, hr0, hrc, hcur, hnearer⟩ :=
      pick_nearer esp hinv₂ hp (hcur₂ ▸ hne)
    rw [hcur₂] at hrc
    rw [countDown_of_pick esp hexpired hret, if_pos ⟨hr0, hrc⟩] at hrun
    cases hrun
    rw [hcur] at hne'
    obtain ⟨q', hqueue, hmem, hdue⟩ := hnearer hne'
    have hpos := ticksLeft_pos k₁
    refine ⟨q', hqueue, hmem, ?_⟩
    rw [hload] at hdue
    calc (doSwitch k₂ r esp).due q' p + 1
        ≤ load (fun x => (k₁.pcb x).slice) p q + k₁.ticksLeft := Nat.add_le_add hdue hpos
      _ = k₁.due q p := Nat.add_comm ..
      _ = k.due q p := hdue₁
  · rw [countDown_of_left esp hexpired] at hrun
    cases hrun
    have hsize : (tickDown k₁).queueSize > 0 := by
      rw [hinv₂.queue.size]
      exact List.length_pos_of_mem hp
    have hmore : (k₁.pcb k₁.current).ticksRemaining - 1 ≠ 0 := fun h0 =>
      hexpired ⟨hticks.trans h0, hsize⟩
    refine ⟨q, hinv₂.queue, hp, ?_⟩
    rw [← hdue₁, Kernel.due, Kernel.due, hload, Kernel.ticksLeft, Kernel.ticksLeft, hcur₂, hticks]
    omega

theorem exit_nearer {code : Int} {esp : Nat} (h : SchedInv img k q zs) (hp : p ∈ q)
    (hidle : img.idlePcb ≠ k.current) (hne : k.current ≠ p)
    (hrun : processExit k code esp = .ok k') (hne' : k'.current ≠ p) :
    ∃ q', Nearer p k q 0 k' q' := by
  obtain ⟨xs, ys, rfl⟩ := List.append_of_mem h.current
  have hothers : p ∈ xs ++ ys :=
    (List.mem_cons.mp (List.perm_middle.mem_iff.mp hp)).resolve_left (Ne.symm hne)
  obtain ⟨r, rest, hnext⟩ := List.exists_cons_of_ne_nil (List.ne_nil_of_mem hothers)
  obtain ⟨k₁, hret, hinv, -, hexits⟩ := processExit_next code esp h hidle hnext
  rw [hret] at hrun
  cases hrun
  have hrp : r ≠ p := hexits.current ▸ hne'
  rw [hnext] at hothers
  have hrest : p ∈ rest := List.mem_of_ne_of_mem (Ne.symm hrp) hothers
  have hprio : ∀ x ∈ rest ++ [] ++ [r], (k'.pcb x).priority = (k.pcb x).priority := by
    intro x hx
    rw [List.append_nil] at hx
    by_cases hxr : x = r
    · rw [hxr, hexits.next]
      rfl
    · have hxc : x ≠ k.current := fun hxc =>
        hinv.notMem_zombies hx (hxc ▸ List.mem_cons_self)
      rw [hexits.others x hxc hxr]
  have hdispatch : k'.due (rest ++ [] ++ [r]) p ≤
      load (fun x => (k.pcb x).slice) p ([] ++ r :: rest) :=
    due_dispatch hexits.current hexits.next hprio List.not_mem_nil hrp hrest
  rw [List.append_nil, List.nil_append, ← hnext] at hdispatch
  refine ⟨rest ++ [r], hinv.queue, List.mem_append_left _ hrest, ?_⟩
  calc k'.due (rest ++ [r]) p
      ≤ load (fun x => (k.pcb x).slice) p (xs ++ ys) := hdispatch
    _ ≤ load (fun x => (k.pcb x).slice) p (xs ++ k.current :: ys) := load_leave hne
    _ ≤ k.due (xs ++ k.current :: ys) p := Nat.le_add_left ..

/-- No event makes a waiting process due later, and a tick makes it due earlier. -/
theorem Event.nearer {base : Nat} {e : Event} (h : Inv img k q zs)
    (hpid : (k.pcb img.idlePcb).pid = 0) (hp : p ∈ q) (hne : k.current ≠ p)
    (henabled : e.Enabled k) (hrun : e.run img base k = .ok k') (hne' : k'.current ≠ p) :
    ∃ q', Nearer p k q e.ticks k' q' := by
  cases e with
  | tick esp => exact tick_nearer h hp hne hrun hne'
  | yield esp => exact yield_nearer h.toSchedInv hp hne hrun hne'
  | exit code esp =>
      have hidle : img.idlePcb ≠ k.current := fun hic => henabled (hic ▸ hpid)
      exact exit_nearer h.toSchedInv hp hidle hne hrun hne'
  | create name start priority =>
      cases Event.ends h hpid henabled hrun with
      | create hret hcreate => exact create_nearer h hp hcreate
  | createElf name data priority =>
      cases Event.ends h hpid henabled hrun with
      | createElf hret hcreate => exact createElf_nearer h hp hcreate
  | work mem =>
      cases hrun
      exact ⟨q, (h.withMs _).queue, hp, le_rfl⟩

end Events

/-! ## Whole runs -/

/-- An event after which `p` still does not run, with its ticks. -/
inductive Passes (img : Image) (base p : Nat) : Machine → Nat → Machine → Prop
  | mk {s : Machine} {k : Kernel} (e : Event) (henabled : e.Enabled s.kernel)
      (hrun : e.run img base s.kernel = .ok k) (hpassed : k.current ≠ p) :
      Passes img base p s e.ticks (s.after e k)

/-- `p` waits and is due in `n` ticks. -/
def DueIn (img : Image) (p n : Nat) (s : Machine) : Prop :=
  ∃ q zs, MachineInv img s q zs ∧ p ∈ q ∧ s.kernel.current ≠ p ∧ s.kernel.due q p = n

theorem Passes.paid {img : Image} {base p n c : Nat} {s s' : Machine} (hdue : DueIn img p n s)
    (hpass : Passes img base p s c s') : ∃ n', DueIn img p n' s' ∧ n' + c ≤ n := by
  obtain ⟨q, zs, hinv, hp, hne, rfl⟩ := hdue
  obtain ⟨e, henabled, hrun, hpassed⟩ := hpass
  obtain ⟨q₁, hnearer⟩ := Event.nearer hinv.inv hinv.idlePid hp hne henabled hrun hpassed
  have hstep : Step img base (fun _ _ => True) s _ := Step.mk e trivial henabled hrun
  obtain ⟨q', zs', hinv'⟩ := hstep.keeps hinv
  have hsame : q' = q₁ := hnearer.queue.unique hinv'.inv.queue
  subst hsame
  exact ⟨_, ⟨q', zs', hinv', hnearer.mem, hpassed, rfl⟩, hnearer.due⟩

/-- A process on the run queue waits for fewer ticks than the running process has left and the
slices of those ahead of it come to, in whatever order processes are created, tick, yield and
exit meanwhile. -/
theorem dispatch_latency {img : Image} (b : Boot img) {s s' : Machine} {p n : Nat}
    {ahead behind : List Nat}
    (hreach : ReflTransGen (Step img userStackBase fun _ _ => True) b.machine s)
    (hqueue : QueueIs s.kernel (ahead ++ p :: behind))
    (hcurrent : s.kernel.current ≠ p)
    (hwaits : Spends (Passes img userStackBase p) s n s') :
    n < max 1 (s.kernel.pcb s.kernel.current).ticksRemaining +
      (ahead.map fun x => max 1 (s.kernel.pcb x).priority).sum := by
  obtain ⟨q, zs, hinv⟩ := run_machineInv hreach ⟨_, _, boot_machineInv b⟩
  have hq : q = ahead ++ p :: behind := hqueue.unique hinv.inv.queue
  subst hq
  have hahead : p ∉ ahead := fun hp =>
    (List.nodup_append.mp hinv.inv.queue.queue.nodup).2.2 p hp p List.mem_cons_self rfl
  have hdue : DueIn img p (s.kernel.due (ahead ++ p :: behind) p) s :=
    ⟨_, zs, hinv, by simp, hcurrent, rfl⟩
  have hpaid : ∀ b s c t, DueIn img p b s → Passes img userStackBase p s c t →
      ∃ b', DueIn img p b' t ∧ b' + c ≤ b := fun _ _ _ _ => Passes.paid
  obtain ⟨n', ⟨q', -, -, -, -, rfl⟩, hle⟩ := hwaits.within hpaid hdue
  have hpos := ticksLeft_pos s'.kernel
  rw [Kernel.due, Kernel.due, load_split hahead] at hle
  change n < s.kernel.ticksLeft + (ahead.map fun x => (s.kernel.pcb x).slice).sum
  omega

/-- Two processes are made, and at the next tick the first of them runs. -/
def secondWaits : Outcome (Kernel × Kernel × Kernel) := do
  let k₁ ← (Event.create [] 0x103000 2).run sampleImage userStackBase sampleBoot.kernel
  let k₂ ← (Event.create [] 0x104000 1).run sampleImage userStackBase k₁
  let k₃ ← (Event.tick 0x19fff0).run sampleImage userStackBase k₂
  return (k₁, k₂, k₃)

/-- The second of two processes waits for a tick, and for no more than its due time. -/
theorem dispatch_latency_secondWaits :
    ∃ s s' p ahead behind,
      ReflTransGen (Step sampleImage userStackBase fun _ _ => True) sampleBoot.machine s ∧
      QueueIs s.kernel (ahead ++ p :: behind) ∧ s.kernel.current ≠ p ∧
      Spends (Passes sampleImage userStackBase p) s 1 s' ∧
      1 < max 1 (s.kernel.pcb s.kernel.current).ticksRemaining +
        (ahead.map fun x => max 1 (s.kernel.pcb x).priority).sum := by
  have heval : returnsWith secondWaits (fun ks =>
      decide (ks.2.1.current ≠ ks.2.1.queueTail ∧ ks.2.2.current ≠ ks.2.1.queueTail)) = true := by
    decide +kernel
  obtain ⟨⟨k₁, k₂, k₃⟩, hcalls, htest⟩ := returnsWith_iff.mp heval
  obtain ⟨hcur₂, hcur₃⟩ := of_decide_eq_true htest
  obtain ⟨_, hfirst, hrest⟩ := bind_eq_ok.mp hcalls
  obtain ⟨_, hsecond, hrest⟩ := bind_eq_ok.mp hrest
  obtain ⟨_, htick, hend⟩ := bind_eq_ok.mp hrest
  cases hend
  let s₁ := sampleBoot.machine.after (.create [] 0x103000 2) k₁
  let s₂ := s₁.after (.create [] 0x104000 1) k₂
  have hstep₁ : Step sampleImage userStackBase (fun _ _ => True) sampleBoot.machine s₁ :=
    Step.mk (.create [] 0x103000 2) trivial trivial hfirst
  have hstep₂ : Step sampleImage userStackBase (fun _ _ => True) s₁ s₂ :=
    Step.mk (.create [] 0x104000 1) trivial trivial hsecond
  have hreach := (ReflTransGen.single hstep₁).tail hstep₂
  obtain ⟨q, zs, hinv⟩ := run_machineInv hreach ⟨_, _, boot_machineInv sampleBoot⟩
  have htail : k₂.queueTail ∈ q :=
    hinv.inv.queue.queue.tail_mem (List.ne_nil_of_mem hinv.inv.current)
  obtain ⟨ahead, behind, rfl⟩ := List.append_of_mem htail
  have hwaits : Spends (Passes sampleImage userStackBase k₂.queueTail) s₂ (0 + 1)
      (s₂.after (.tick 0x19fff0) k₃) :=
    Spends.refl.tail (Passes.mk (.tick 0x19fff0) trivial htick hcur₃)
  exact ⟨s₂, _, k₂.queueTail, ahead, behind, hreach, hinv.inv.queue, hcur₂, hwaits,
    dispatch_latency sampleBoot hreach hinv.inv.queue hcur₂ hwaits⟩

end StakOS.Process
