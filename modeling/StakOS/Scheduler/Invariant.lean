import StakOS.Kmalloc.Runs
import StakOS.Scheduler.Queue

/-!
# The scheduler's invariant

One conjunction over the run queue, the zombie list, the process table, the
states of the processes and the processor registers, and what yielding, exiting
and abandoning a process do to it.
-/

namespace StakOS.Process

open StakOS.Lib.Memory StakOS.Lib.Loop StakOS.Lib.Linked StakOS.Lib.Queue

/-- The run queue `q`, the zombie list `zs` and the process table agree with each
other and with the states of the processes that wait. -/
structure Lists (img : Image) (k : Kernel) (q zs : List Nat) : Prop where
  queue : QueueIs k q
  zombies : Chain k.next k.zombieHead zs 0
  nodup : (q ++ zs).Nodup
  nonNull : 0 ∉ zs
  table : ∀ p, p ≠ 0 → ((∃ i, i < maxProcesses ∧ k.procTable i = p) ↔ p ∈ q ++ zs)
  tableInj : ∀ i j, i < maxProcesses → j < maxProcesses → k.procTable i = k.procTable j →
    k.procTable i ≠ 0 → i = j
  ready : ∀ p ∈ q, p ≠ k.current → (k.pcb p).state = .ready
  zombie : ∀ p ∈ zs, (k.pcb p).state = .zombie
  idle : img.idlePcb ∈ q

/-- A process in the table, idle included. -/
def InTable (k : Kernel) (p : Nat) : Prop := p ≠ 0 ∧ ∃ i, i < maxProcesses ∧ k.procTable i = p

/-- The lists agree and the processor runs a process of the queue. -/
structure SchedInv (img : Image) (k : Kernel) (q zs : List Nat) : Prop extends
    Lists img k q zs where
  current : k.current ∈ q
  running : (k.pcb k.current).state = .running
  cr3 : k.cr3 = (k.pcb k.current).cr3

/-- The frames a control block names. -/
structure Frames where
  pd : Nat
  lo : Nat
  hi : Nat

def Pcb.frames (b : Pcb) : Frames := ⟨b.cr3, b.stackFrameLo, b.stackFrameHi⟩

/-- The fields of a control block that only its creation assigns. -/
structure Ident where
  pid : Nat
  kernelStackTop : Nat
  frames : Frames

def Pcb.ident (b : Pcb) : Ident := ⟨b.pid, b.kernelStackTop, b.frames⟩

/-- The fields of the kernel that hold the lists together. -/
structure Links where
  queueHead : Nat
  queueTail : Nat
  queueSize : Nat
  zombieHead : Nat
  procTable : Nat → Nat
  current : Nat

def Kernel.links (k : Kernel) : Links :=
  ⟨k.queueHead, k.queueTail, k.queueSize, k.zombieHead, k.procTable, k.current⟩

namespace Lists

variable {img : Image} {k k' : Kernel} {q zs : List Nat}

theorem zero_notMem (h : Lists img k q zs) : 0 ∉ q ++ zs := by
  intro hmem
  rcases List.mem_append.mp hmem with hmem | hmem
  · exact h.queue.queue.nonNull hmem
  · exact h.nonNull hmem

theorem inTable_iff (h : Lists img k q zs) {p : Nat} : InTable k p ↔ p ∈ q ++ zs := by
  constructor
  · rintro ⟨hp, hi⟩
    exact (h.table p hp).mp hi
  · intro hp
    have hne : p ≠ 0 := fun h0 => h.zero_notMem (h0 ▸ hp)
    exact ⟨hne, (h.table p hne).mpr hp⟩

theorem length_le (h : Lists img k q zs) : (q ++ zs).length ≤ maxProcesses := by
  have hsub : q ++ zs ⊆ (List.range maxProcesses).map k.procTable := by
    intro p hp
    obtain ⟨-, i, hi, rfl⟩ := h.inTable_iff.mpr hp
    exact List.mem_map.mpr ⟨i, List.mem_range.mpr hi, rfl⟩
  have hle := (h.nodup.subperm hsub).length_le
  simpa using hle

theorem queue_bound (h : Lists img k q zs) : q.length + 1 < turns := by
  have hle := h.length_le
  rw [List.length_append] at hle
  unfold maxProcesses at hle
  unfold turns
  omega

theorem notMem_zombies (h : Lists img k q zs) {p : Nat} (hp : p ∈ q) : p ∉ zs := fun hz =>
  (List.nodup_append.mp h.nodup).2.2 p hp p hz rfl

/-- Only the links and states of the listed processes matter. -/
theorem congr (h : Lists img k q zs) (hlinks : k'.links = k.links)
    (hnext : ∀ x ∈ q ++ zs, k'.next x = k.next x)
    (hstate : ∀ x ∈ q ++ zs, (k'.pcb x).state = (k.pcb x).state) : Lists img k' q zs := by
  injection hlinks with hhead htail hsize hzombie htable hcurrent
  have hq : ∀ x ∈ q, x ∈ q ++ zs := fun x hx => List.mem_append_left zs hx
  have hz : ∀ x ∈ zs, x ∈ q ++ zs := fun x hx => List.mem_append_right q hx
  refine ⟨⟨?_, ?_⟩, ?_, h.nodup, h.nonNull, ?_, ?_, ?_, ?_, h.idle⟩
  · rw [hhead, htail]
    exact h.queue.queue.congr fun x hx => hnext x (hq x hx)
  · rw [hsize]
    exact h.queue.size
  · rw [hzombie]
    exact h.zombies.congr fun x hx => hnext x (hz x hx)
  · rw [htable]
    exact h.table
  · rw [htable]
    exact h.tableInj
  · intro p hp hne
    rw [hstate p (hq p hp)]
    exact h.ready p hp (hcurrent ▸ hne)
  · intro p hp
    rw [hstate p (hz p hp)]
    exact h.zombie p hp

/-- The queue may be put in another order. -/
theorem requeue (h : Lists img k q zs) {q' : List Nat} {n : Nat → Nat} {hd tl : Nat}
    (hperm : q'.Perm q) (hq : IsQueue 0 n hd tl q') (hout : ∀ y ∈ zs, n y = k.next y) :
    Lists img (k.withQueue n hd tl k.queueSize) q' zs := by
  have hall : (q' ++ zs).Perm (q ++ zs) := hperm.append_right zs
  refine ⟨⟨hq, ?_⟩, ?_, hall.nodup_iff.mpr h.nodup, h.nonNull, ?_, h.tableInj, ?_, h.zombie, ?_⟩
  · rw [hperm.length_eq]
    exact h.queue.size
  · exact h.zombies.congr hout
  · intro p hp
    rw [hall.mem_iff]
    exact h.table p hp
  · intro p hp hne
    exact h.ready p (hperm.mem_iff.mp hp) hne
  · exact hperm.mem_iff.mpr h.idle

end Lists

theorem SchedInv.current_pos {img : Image} {k : Kernel} {q zs : List Nat}
    (h : SchedInv img k q zs) : k.current ≠ 0 := fun h0 =>
  h.zero_notMem (List.mem_append_left zs (h0 ▸ h.current))

/-! ## Switching -/

def Pcb.dispatched (p : Pcb) : Pcb := { p with state := .running, ticksRemaining := p.priority }

def Pcb.suspended (p : Pcb) (esp : Nat) : Pcb :=
  { p with
    state := if p.state = .running then .ready else p.state
    esp := esp }

@[simp] theorem dispatched_ident (p : Pcb) : p.dispatched.ident = p.ident := rfl
@[simp] theorem suspended_ident (p : Pcb) (esp : Nat) : (p.suspended esp).ident = p.ident := rfl

/-- The control blocks after a switch to `nxt`. -/
def Kernel.switchPcb (k : Kernel) (nxt esp : Nat) : Nat → Pcb :=
  Function.update (Function.update k.pcb nxt (k.pcb nxt).dispatched) k.current
    ((k.pcb k.current).suspended esp)

section SwitchPcb

variable (k : Kernel) {nxt x : Nat} (esp : Nat)

theorem switchPcb_current : k.switchPcb nxt esp k.current = (k.pcb k.current).suspended esp :=
  Function.update_self ..

theorem switchPcb_next (hne : k.current ≠ nxt) :
    k.switchPcb nxt esp nxt = (k.pcb nxt).dispatched := by
  rw [Kernel.switchPcb, Function.update_of_ne (Ne.symm hne), Function.update_self]

theorem switchPcb_of_ne (hcur : x ≠ k.current) (hnxt : x ≠ nxt) :
    k.switchPcb nxt esp x = k.pcb x := by
  rw [Kernel.switchPcb, Function.update_of_ne hcur, Function.update_of_ne hnxt]

theorem switchPcb_ident : (k.switchPcb nxt esp x).ident = (k.pcb x).ident := by
  by_cases hcur : x = k.current
  · rw [hcur, switchPcb_current, suspended_ident]
  · by_cases hnxt : x = nxt
    · subst hnxt
      rw [switchPcb_next k esp (Ne.symm hcur), dispatched_ident]
    · rw [switchPcb_of_ne k esp hcur hnxt]

end SwitchPcb

/-- Everything a switch does. -/
theorem doSwitch_eq {k : Kernel} {nxt : Nat} (esp : Nat) (hne : k.current ≠ nxt) :
    doSwitch k nxt esp =
      { k with
        pcb := k.switchPcb nxt esp
        tssEsp0 := (k.pcb nxt).kernelStackTop
        current := nxt
        cr3 := (k.pcb nxt).cr3 } := by
  have hne' : nxt ≠ k.current := fun h => hne h.symm
  unfold doSwitch contextSwitch Kernel.setState Kernel.modPcb
  rw [if_neg hne]
  by_cases hrun : (k.pcb k.current).state = .running
  · simp only [if_pos hrun, Function.update_self, Function.update_of_ne hne',
      Function.update_of_ne hne]
    congr 1
    funext x
    by_cases hcur : x = k.current
    · rw [hcur, switchPcb_current, Function.update_self, Pcb.suspended, if_pos hrun]
    · by_cases hnxt : x = nxt
      · rw [hnxt, switchPcb_next k esp hne, Function.update_of_ne hne', Function.update_self]
        rfl
      · simp only [switchPcb_of_ne k esp hcur hnxt, Function.update_of_ne hcur,
          Function.update_of_ne hnxt]
  · simp only [if_neg hrun, Function.update_self, Function.update_of_ne hne',
      Function.update_of_ne hne]
    congr 1
    funext x
    by_cases hcur : x = k.current
    · rw [hcur, switchPcb_current, Function.update_self, Pcb.suspended, if_neg hrun]
    · by_cases hnxt : x = nxt
      · rw [hnxt, switchPcb_next k esp hne, Function.update_of_ne hne', Function.update_self]
        rfl
      · simp only [switchPcb_of_ne k esp hcur hnxt, Function.update_of_ne hcur,
          Function.update_of_ne hnxt]

/-- The process that is left is on the queue and running, or already a zombie. -/
def Leaving (k : Kernel) (q zs : List Nat) : Prop :=
  (k.current ∈ q ∧ (k.pcb k.current).state = .running) ∨ k.current ∈ zs

theorem doSwitch_inv {img : Image} {k : Kernel} {q zs : List Nat} {nxt : Nat} (esp : Nat)
    (h : Lists img k q zs) (hleft : Leaving k q zs) (hnxt : nxt ∈ q) (hne : k.current ≠ nxt) :
    SchedInv img (doSwitch k nxt esp) q zs := by
  rw [doSwitch_eq esp hne]
  have hnz : nxt ∉ zs := h.notMem_zombies hnxt
  refine ⟨⟨⟨h.queue.queue, h.queue.size⟩, h.zombies, h.nodup, h.nonNull, h.table, h.tableInj,
    ?_, ?_, h.idle⟩, hnxt, ?_, ?_⟩
  · intro p hp hpn
    change (k.switchPcb nxt esp p).state = .ready
    by_cases hpc : p = k.current
    · subst hpc
      have hrun : (k.pcb k.current).state = .running := by
        rcases hleft with hleft | hleft
        · exact hleft.2
        · exact absurd hleft (h.notMem_zombies hp)
      rw [switchPcb_current, Pcb.suspended, if_pos hrun]
    · rw [switchPcb_of_ne k esp hpc hpn]
      exact h.ready p hp hpc
  · intro p hp
    change (k.switchPcb nxt esp p).state = .zombie
    have hpn : p ≠ nxt := fun hpn => hnz (hpn ▸ hp)
    have hz := h.zombie p hp
    by_cases hpc : p = k.current
    · subst hpc
      rw [switchPcb_current, Pcb.suspended, hz]
      rfl
    · rw [switchPcb_of_ne k esp hpc hpn]
      exact hz
  · change (k.switchPcb nxt esp nxt).state = .running
    rw [switchPcb_next k esp hne]
    rfl
  · change _ = (k.switchPcb nxt esp nxt).cr3
    rw [switchPcb_next k esp hne]
    rfl

/-- The control blocks keep their identity, no pid is handed out, and the processor
takes its ring-0 stack from the process it runs. -/
structure Keeps (k k' : Kernel) : Prop where
  ident : ∀ x, (k'.pcb x).ident = (k.pcb x).ident
  nextPid : k'.nextPid = k.nextPid
  esp0 : (k'.current = k.current ∧ k'.tssEsp0 = k.tssEsp0) ∨
    k'.tssEsp0 = (k'.pcb k'.current).kernelStackTop

/-- What scheduling leaves alone, memory included. -/
structure Moves (k k' : Kernel) : Prop extends Keeps k k' where
  ms : k'.ms = k.ms
  heap : k'.heap = k.heap

theorem Keeps.kernelStackTop {k k' : Kernel} (h : Keeps k k') (x : Nat) :
    (k'.pcb x).kernelStackTop = (k.pcb x).kernelStackTop :=
  congrArg Ident.kernelStackTop (h.ident x)

theorem Keeps.trans {k k' k'' : Kernel} (h : Keeps k k') (h' : Keeps k' k'') : Keeps k k'' := by
  refine ⟨fun x => (h'.ident x).trans (h.ident x), h'.nextPid.trans h.nextPid, ?_⟩
  rcases h'.esp0 with ⟨hcur', htss'⟩ | htss'
  · rcases h.esp0 with ⟨hcur, htss⟩ | htss
    · exact Or.inl ⟨hcur'.trans hcur, htss'.trans htss⟩
    · right
      rw [htss', htss, hcur', h'.kernelStackTop]
  · exact Or.inr htss'

theorem Moves.refl (k : Kernel) : Moves k k :=
  ⟨⟨fun _ => rfl, rfl, Or.inl ⟨rfl, rfl⟩⟩, rfl, rfl⟩

theorem Moves.trans {k k' k'' : Kernel} (h : Moves k k') (h' : Moves k' k'') : Moves k k'' :=
  ⟨h.toKeeps.trans h'.toKeeps, h'.ms.trans h.ms, h'.heap.trans h.heap⟩

theorem withQueue_moves (k : Kernel) (n : Nat → Nat) (hd tl size : Nat) :
    Moves k (k.withQueue n hd tl size) :=
  ⟨⟨fun _ => rfl, rfl, Or.inl ⟨rfl, rfl⟩⟩, rfl, rfl⟩

theorem doSwitch_moves {k : Kernel} {nxt : Nat} (esp : Nat) (hne : k.current ≠ nxt) :
    Moves k (doSwitch k nxt esp) := by
  rw [doSwitch_eq esp hne]
  refine ⟨⟨fun x => switchPcb_ident k esp, rfl, Or.inr ?_⟩, rfl, rfl⟩
  change _ = (k.switchPcb nxt esp nxt).kernelStackTop
  rw [switchPcb_next k esp hne]
  rfl

theorem Picked.perm {k : Kernel} {q q' : List Nat} {r : Nat} (h : Picked k q q' r) :
    q'.Perm q := by
  cases h with
  | none => exact List.Perm.refl _
  | @found xs ys r hq =>
      subst hq
      rw [List.append_assoc]
      have hmiddle : (xs ++ [r] ++ ys).Perm (xs ++ r :: ys) := by simp
      exact List.perm_append_comm.trans hmiddle

section Yield

variable {img : Image} {k : Kernel} {q zs : List Nat}

/-- Choosing the next process reorders the queue; the choice is a process of the
queue other than the one that is left, if there is any. -/
theorem pickNext_inv (h : Lists img k q zs) (hleft : Leaving k q zs) :
    ∃ k' q' r, pickNext k = .ok (k', r) ∧ Lists img k' q' zs ∧ q'.Perm q ∧ Moves k k' ∧
      k'.pcb = k.pcb ∧ k'.current = k.current ∧ k'.cr3 = k.cr3 ∧
      (r = 0 ∧ (∀ p ∈ q, p = k.current) ∨ r ≠ 0 ∧ r ∈ q' ∧ k.current ≠ r) := by
  have hbound := h.queue_bound
  obtain ⟨n, hd, tl, q', r, hret, hqueue, hout, hpicked⟩ :=
    pickNext_spec h.queue (by omega)
  have hzs : ∀ y ∈ zs, n y = k.next y := fun y hy =>
    hout y fun hyq => h.notMem_zombies hyq hy
  refine ⟨_, q', r, hret, h.requeue hpicked.perm hqueue hzs, hpicked.perm,
    withQueue_moves .., rfl, rfl, rfl, ?_⟩
  cases hpicked with
  | none hnone =>
      left
      refine ⟨rfl, fun p hp => ?_⟩
      by_contra hne
      exact hnone p hp (h.ready p hp hne)
  | @found xs ys r hq hready =>
      right
      have hr : r ∈ q := by
        rw [hq]
        simp
      refine ⟨fun h0 => h.queue.queue.nonNull (h0 ▸ hr), by simp, ?_⟩
      intro hcur
      rcases hleft with ⟨-, hrun⟩ | hz
      · rw [hcur, hready] at hrun
        exact absurd hrun (by decide)
      · exact h.notMem_zombies hr (hcur ▸ hz)

theorem schedulerYield_of_pick {k₁ : Kernel} {r : Nat} (esp : Nat)
    (hret : pickNext k = .ok (k₁, r)) :
    schedulerYield k esp =
      if r = 0 ∨ r = k.current then .ok k₁ else .ok (doSwitch k₁ r esp) := by
  unfold schedulerYield
  rw [hret]
  rfl

theorem schedulerYield_inv (esp : Nat) (h : SchedInv img k q zs) :
    ∃ k' q', schedulerYield k esp = .ok k' ∧ SchedInv img k' q' zs ∧ q'.Perm q ∧
      Moves k k' := by
  have hleft : Leaving k q zs := Or.inl ⟨h.current, h.running⟩
  obtain ⟨k₁, q', r, hret, hlists, hperm, hmoves, hpcb, hcur, hcr3, hchoice⟩ :=
    pickNext_inv h.toLists hleft
  rw [schedulerYield_of_pick esp hret]
  rcases hchoice with ⟨rfl, -⟩ | ⟨hr0, hr, hne⟩
  · rw [if_pos (Or.inl rfl)]
    refine ⟨k₁, q', rfl, ⟨hlists, ?_, ?_, ?_⟩, hperm, hmoves⟩
    · rw [hcur]
      exact hperm.mem_iff.mpr h.current
    · rw [hpcb, hcur]
      exact h.running
    · rw [hpcb, hcur, hcr3]
      exact h.cr3
  · have hleft₁ : Leaving k₁ q' zs := by
      left
      rw [hcur, hpcb]
      exact ⟨hperm.mem_iff.mpr h.current, h.running⟩
    have hne₁ : k₁.current ≠ r := by
      rw [hcur]
      exact hne
    rw [if_neg (not_or.mpr ⟨hr0, Ne.symm hne⟩)]
    exact ⟨_, q', rfl, doSwitch_inv esp hlists hleft₁ hr hne₁, hperm,
      hmoves.trans (doSwitch_moves esp hne₁)⟩

end Yield

/-! ## Becoming a zombie -/

theorem schedulerMarkZombie_spec {k : Kernel} {p : Nat} {xs ys : List Nat}
    (hq : QueueIs k (xs ++ p :: ys)) (hlen : (xs ++ p :: ys).length < 2 ^ 32) :
    ∃ n hd tl, schedulerMarkZombie k p =
        .ok { k.withQueue n hd tl (xs ++ ys).length with zombieHead := p } ∧
      IsQueue 0 n hd tl (xs ++ ys) ∧ n p = k.zombieHead ∧
      ∀ x, x ∉ xs ++ p :: ys → n x = k.next x := by
  have hp : p ≠ 0 := fun hp => hq.queue.nonNull (by simp [hp])
  have hout : p ∉ xs ++ ys := (List.nodup_middle.mp hq.queue.nodup |> List.nodup_cons.mp).1
  obtain ⟨n, hd, tl, hret, hqueue, -, hsame⟩ := schedulerDequeue_spec hq hlen
  refine ⟨Function.update n p k.zombieHead, hd, tl, ?_, hqueue.update_of_notMem hout _, ?_, ?_⟩
  · unfold schedulerMarkZombie
    rw [if_neg hp, hret]
    rfl
  · exact Function.update_self ..
  · intro x hx
    have hxp : x ≠ p := fun hxp => hx (by simp [hxp])
    rw [Function.update_of_ne hxp, hsame x hx]

/-- A queued process other than idle whose state is set to ZOMBIE moves from the
queue to the front of the zombie list. -/
theorem Lists.bury {img : Image} {k : Kernel} {xs ys zs : List Nat} {p : Nat} {f : Pcb → Pcb}
    (h : Lists img k (xs ++ p :: ys) zs) (hidle : img.idlePcb ≠ p)
    (hf : (f (k.pcb p)).state = .zombie) :
    ∃ n hd tl size, schedulerMarkZombie (k.modPcb p f) p =
        .ok { (k.modPcb p f).withQueue n hd tl size with zombieHead := p } ∧
      Lists img { (k.modPcb p f).withQueue n hd tl size with zombieHead := p } (xs ++ ys)
        (p :: zs) := by
  have hbound := h.queue_bound
  unfold turns at hbound
  have hmem : p ∈ xs ++ p :: ys := by simp
  have hp : p ≠ 0 := fun h0 => h.queue.queue.nonNull (h0 ▸ hmem)
  have hq : QueueIs (k.modPcb p f) (xs ++ p :: ys) := ⟨h.queue.queue, h.queue.size⟩
  obtain ⟨n, hd, tl, hret, hqueue, hnp, hsame⟩ := schedulerMarkZombie_spec hq (by omega)
  have hperm : (xs ++ ys ++ p :: zs).Perm (xs ++ p :: ys ++ zs) := by
    simpa using (List.perm_middle.append_left xs : (xs ++ (ys ++ p :: zs)).Perm _)
  have hnodup := hperm.nodup_iff.mpr h.nodup
  have hpz : p ∉ zs := h.notMem_zombies hmem
  have hpq : p ∉ xs ++ ys := fun hpq =>
    (List.nodup_append.mp hnodup).2.2 p hpq p List.mem_cons_self rfl
  have hof : ∀ x, x ∈ xs ++ ys → x ∈ xs ++ p :: ys := by
    intro x hx
    rcases List.mem_append.mp hx with hx | hx
    · exact List.mem_append_left _ hx
    · exact List.mem_append_right _ (List.mem_cons_of_mem p hx)
  refine ⟨n, hd, tl, _, hret, ⟨hqueue, rfl⟩, ?_, hnodup, ?_, ?_, h.tableInj, ?_, ?_, ?_⟩
  · refine ⟨rfl, ?_⟩
    change Chain n (n p) zs 0
    rw [hnp]
    exact h.zombies.congr fun x hx => hsame x fun hxq => h.notMem_zombies hxq hx
  · rw [List.mem_cons, not_or]
    exact ⟨Ne.symm hp, h.nonNull⟩
  · intro x hx
    rw [hperm.mem_iff]
    exact h.table x hx
  · intro x hx hne
    change (Function.update k.pcb p (f (k.pcb p)) x).state = .ready
    have hxp : x ≠ p := fun hxp => hpq (hxp ▸ hx)
    rw [Function.update_of_ne hxp]
    exact h.ready x (hof x hx) hne
  · intro x hx
    change (Function.update k.pcb p (f (k.pcb p)) x).state = .zombie
    rcases List.mem_cons.mp hx with rfl | hx
    · rw [Function.update_self]
      exact hf
    · have hxp : x ≠ p := fun hxp => hpz (hxp ▸ hx)
      rw [Function.update_of_ne hxp]
      exact h.zombie x hx
  · have hi := List.perm_middle.mem_iff.mp h.idle
    exact (List.mem_cons.mp hi).resolve_left hidle

/-- What an exit does to the control blocks when `r` runs next. -/
structure ExitsTo (k : Kernel) (code : Int) (esp r : Nat) (k' : Kernel) : Prop where
  current : k'.current = r
  table : k'.procTable = k.procTable
  left : k'.pcb k.current =
    Pcb.suspended { k.pcb k.current with exitCode := code, state := .zombie } esp
  next : k'.pcb r = (k.pcb r).dispatched
  others : ∀ x, x ≠ k.current → x ≠ r → k'.pcb x = k.pcb x

/-- A process other than idle exits: it becomes a zombie, and the first of the others
on the queue runs. -/
theorem processExit_next {img : Image} {k : Kernel} {xs ys rest zs : List Nat} {r : Nat}
    (code : Int) (esp : Nat) (h : SchedInv img k (xs ++ k.current :: ys) zs)
    (hidle : img.idlePcb ≠ k.current) (hnext : xs ++ ys = r :: rest) :
    ∃ k', processExit k code esp = .ok k' ∧ SchedInv img k' (rest ++ [r]) (k.current :: zs) ∧
      Moves k k' ∧ ExitsTo k code esp r k' := by
  let f : Pcb → Pcb := fun p => { p with exitCode := code, state := .zombie }
  obtain ⟨n, hd, tl, size, hret, hlists⟩ := h.toLists.bury (f := f) hidle rfl
  set k₁ := { (k.modPcb k.current f).withQueue n hd tl size with zombieHead := k.current }
    with hk₁
  rw [hnext] at hlists
  have hident : ∀ x, (k₁.pcb x).ident = (k.pcb x).ident := by
    intro x
    change (Function.update k.pcb k.current (f (k.pcb k.current)) x).ident = _
    by_cases hx : x = k.current
    · rw [hx, Function.update_self]
      rfl
    · rw [Function.update_of_ne hx]
  have hmoves : Moves k k₁ := ⟨⟨hident, rfl, Or.inl ⟨rfl, rfl⟩⟩, rfl, rfl⟩
  have hr : r ∈ r :: rest := List.mem_cons_self
  have hne : r ≠ k.current := fun hrc => hlists.notMem_zombies hr (hrc ▸ List.mem_cons_self)
  have hpcb : k₁.pcb r = k.pcb r := Function.update_of_ne hne _ _
  have hr0 : r ≠ 0 := fun h0 => hlists.zero_notMem (h0 ▸ List.mem_append_left _ hr)
  have hbound := hlists.queue_bound
  obtain ⟨n', hd', tl', q', r', hpick, hqueue, hout, hpicked⟩ :=
    pickNext_spec hlists.queue (by omega)
  have hready : (k₁.pcb r).state = .ready := hlists.ready r hr hne
  obtain ⟨rfl, rfl⟩ : r' = r ∧ q' = rest ++ [r] := by
    cases hpicked with
    | none hnone => exact absurd hready (hnone r hr)
    | @found xs' ys' r' hsplit hready' hpassed =>
        cases xs' with
        | nil =>
            cases hsplit
            exact ⟨rfl, by simp⟩
        | cons x xs' =>
            cases hsplit
            exact absurd hready (hpassed r List.mem_cons_self)
  set k₂ := k₁.withQueue n' hd' tl' k₁.queueSize with hk₂
  have hlists₂ : Lists img k₂ (rest ++ [r']) (k.current :: zs) :=
    hlists.requeue hpicked.perm hqueue fun y hy => hout y fun hyq => hlists.notMem_zombies hyq hy
  have hcur₂ : k₂.current ≠ r' := Ne.symm hne
  have hleft₂ : Leaving k₂ (rest ++ [r']) (k.current :: zs) := Or.inr List.mem_cons_self
  refine ⟨doSwitch k₂ r' esp, ?_, doSwitch_inv esp hlists₂ hleft₂ (by simp) hcur₂,
    (hmoves.trans (withQueue_moves ..)).trans (doSwitch_moves esp hcur₂), ?_⟩
  · have hyield : schedulerYield k₁ esp = .ok (doSwitch k₂ r' esp) :=
      (schedulerYield_of_pick esp hpick).trans (if_neg (not_or.mpr ⟨hr0, hne⟩))
    have hswitched : (doSwitch k₂ r' esp).current ≠ k.current := by
      rw [doSwitch_eq esp hcur₂]
      exact hne
    unfold processExit
    simp only
    rw [hret, bind_ok, hyield, bind_ok, if_neg hswitched]
    rfl
  · rw [doSwitch_eq esp hcur₂]
    refine ⟨rfl, rfl, ?_, ?_, fun x hx hxr => ?_⟩
    · change k₂.switchPcb r' esp k₂.current = _
      rw [switchPcb_current]
      change Pcb.suspended (Function.update k.pcb k.current (f (k.pcb k.current)) k.current) esp = _
      rw [Function.update_self]
    · exact (switchPcb_next k₂ esp hcur₂).trans (congrArg Pcb.dispatched hpcb)
    · exact (switchPcb_of_ne k₂ esp hx hxr).trans (Function.update_of_ne hx _ _)

/-- A process other than idle exits: another one runs and it is a zombie. -/
theorem processExit_inv {img : Image} {k : Kernel} {q zs : List Nat} (code : Int) (esp : Nat)
    (h : SchedInv img k q zs) (hidle : img.idlePcb ≠ k.current) :
    ∃ k' q', processExit k code esp = .ok k' ∧ SchedInv img k' q' (k.current :: zs) ∧
      q.Perm (k.current :: q') ∧ Moves k k' := by
  obtain ⟨xs, ys, rfl⟩ := List.append_of_mem h.current
  have hothers : img.idlePcb ∈ xs ++ ys :=
    (List.mem_cons.mp (List.perm_middle.mem_iff.mp h.idle)).resolve_left hidle
  obtain ⟨r, rest, hnext⟩ := List.exists_cons_of_ne_nil (List.ne_nil_of_mem hothers)
  obtain ⟨k', hret, hinv, hmoves, -⟩ := processExit_next code esp h hidle hnext
  refine ⟨k', rest ++ [r], hret, hinv, ?_, hmoves⟩
  calc (xs ++ k.current :: ys).Perm (k.current :: (xs ++ ys)) := List.perm_middle
    _ = k.current :: r :: rest := by rw [hnext]
    _ |>.Perm (k.current :: (rest ++ [r])) :=
      (List.perm_append_singleton r rest).symm.cons k.current

end StakOS.Process
