import StakOS.Scheduler.Runs

/-!
# Time slices

A process that `do_switch` has dispatched keeps the processor for as many ticks
as its priority says.  The run queue may hold processes in any state, and the
kernel may do anything to the others between two ticks, as long as the lists
stay in order.
-/

namespace StakOS.Process

open StakOS.Lib.Memory StakOS.Lib.Loop StakOS.Lib.Linked StakOS.Lib.Queue

/-- The lists are in order, whatever the states of the processes on them. -/
structure Settled (img : Image) (k : Kernel) (q zs : List Nat) : Prop where
  queue : QueueIs k q
  zombies : Chain k.next k.zombieHead zs 0
  nodup : (q ++ zs).Nodup
  nonNull : 0 ∉ zs
  bound : (q ++ zs).length < turns
  idle : img.idlePcb ∉ zs
  heap : HeapOk img k.heap zs

theorem Inv.settled {img : Image} {k : Kernel} {q zs : List Nat} (h : Inv img k q zs) :
    Settled img k q zs where
  queue := h.queue
  zombies := h.zombies
  nodup := h.nodup
  nonNull := h.nonNull
  bound := by
    apply lt_of_le_of_lt h.length_le
    decide
  idle := h.notMem_zombies h.idle
  heap := h.heap.mono (List.subset_append_right q zs)

/-! ## The reaper does not touch the queue -/

theorem procTableRemove_eq (k : Kernel) (p : Nat) :
    ∃ table, procTableRemove k p = { k with procTable := table } := by
  unfold procTableRemove
  split
  · exact ⟨_, rfl⟩
  · exact ⟨k.procTable, rfl⟩

namespace Settled

variable {img : Image} {k : Kernel} {q zs pre rest : List Nat} {p : Nat}

theorem reap (h : Settled img k q (pre ++ p :: rest)) :
    ∃ k', processFree (unlinkZombie k (pre.getLastD 0) p) p = .ok k' ∧
      Settled img k' q (pre ++ rest) ∧ k'.pcb = k.pcb ∧ k'.current = k.current := by
  have hmem : p ∈ pre ++ p :: rest := by simp
  have hp : p ≠ 0 := fun h0 => h.nonNull (h0 ▸ hmem)
  have hzs := (List.nodup_append.mp h.nodup).2.1
  have hsub : (pre ++ rest).Sublist (pre ++ p :: rest) :=
    List.Sublist.append_left (List.sublist_cons_self p rest) pre
  have hout : p ∉ pre ++ rest := (List.nodup_cons.mp (List.nodup_middle.mp hzs)).1
  obtain ⟨n, z, hunlink, hchain, hnext⟩ := unlinkZombie_spec h.zombies hzs h.nonNull
  obtain ⟨table, hremove⟩ := procTableRemove_eq { k with next := n, zombieHead := z } p
  have hrest : ∀ x ∈ pre ++ rest, x ∈ pre ++ p :: rest ∧ x ≠ p := fun x hx =>
    ⟨hsub.subset hx, fun hxp => hout (hxp ▸ hx)⟩
  obtain ⟨heap, hfree, hheap⟩ := h.heap.kfree hmem (fun hpi => h.idle (hpi ▸ hmem)) hrest
  rw [hunlink]
  refine ⟨_, processFree_eq hp hremove hfree, ⟨⟨?_, h.queue.size⟩, hchain, ?_, ?_, ?_, ?_, hheap⟩, rfl, rfl⟩
  · apply h.queue.queue.congr
    intro x hx
    apply hnext
    intro hxp
    exact (List.nodup_append.mp h.nodup).2.2 x hx x (List.mem_append_left _ hxp) rfl
  · exact (List.Sublist.append_left hsub q).nodup h.nodup
  · exact fun h0 => h.nonNull (hsub.subset h0)
  · exact lt_of_le_of_lt (List.Sublist.append_left hsub q).length_le h.bound
  · exact fun hi => h.idle (hsub.subset hi)

/-- The reaper with its cursor behind the zombies it has kept. -/
def At (img : Image) (k : Kernel) (q : List Nat) (n : Nat) : Kernel × Nat × Nat → Prop
  | (k', prev, cur) => ∃ pre rest, n = rest.length ∧ prev = pre.getLastD 0 ∧
      cur = rest.headD 0 ∧ Settled img k' q (pre ++ rest) ∧ k'.pcb = k.pcb ∧
      k'.current = k.current

theorem reapTurn (n : Nat) (s : Kernel × Nat × Nat) (h : At img k q n s) :
    (∃ s' n', Process.reapTurn s = .again s' ∧ n' < n ∧ At img k q n' s') ∨
      ∃ r, Process.reapTurn s = .done r ∧ ∃ k' zs', r = .ok k' ∧ Settled img k' q zs' ∧
        k'.pcb = k.pcb ∧ k'.current = k.current := by
  obtain ⟨k', prev, cur⟩ := s
  obtain ⟨pre, rest, rfl, rfl, rfl, hsettled, hpcb, hcur⟩ := h
  cases rest with
  | nil =>
      right
      rw [List.append_nil] at hsettled
      exact ⟨.ok k', reapTurn_null .., k', pre, rfl, hsettled, hpcb, hcur⟩
  | cons p rest =>
      left
      obtain ⟨k'', hfree, hsettled', hpcb', hcur'⟩ := hsettled.reap
      rcases reapTurn_cases hsettled.zombies hsettled.nonNull hfree with hkept | hfreed
      · refine ⟨_, rest.length, hkept, by simp, pre ++ [p], rest, rfl, rfl, rfl, ?_, hpcb, hcur⟩
        simpa using hsettled
      · exact ⟨_, rest.length, hfreed, by simp, pre, rest, rfl, rfl, rfl, hsettled',
          hpcb'.trans hpcb, hcur'.trans hcur⟩

theorem reapZombies (h : Settled img k q zs) :
    ∃ k' zs', schedulerReapZombies k = .ok k' ∧ Settled img k' q zs' ∧ k'.pcb = k.pcb ∧
      k'.current = k.current := by
  have hstart : At img k q zs.length (k, 0, k.zombieHead) :=
    ⟨[], zs, rfl, rfl, h.zombies.start, h, rfl, rfl⟩
  have hbound : zs.length < turns := by
    have hle := h.bound
    rw [List.length_append] at hle
    omega
  obtain ⟨r, hloop, k', zs', rfl, hpost⟩ := loop_rule_cases (At img k q) _ reapTurn hstart hbound
  refine ⟨k', zs', ?_, hpost⟩
  unfold schedulerReapZombies
  rw [hloop]
  rfl

end Settled

/-! ## Waking -/

/-- Every process of `q` is woken if its time has come. -/
def awake (k : Kernel) (q : List Nat) : Kernel :=
  { k with pcb := fun x => if x ∈ q then wake (k.pcb x) else k.pcb x }

theorem wake_loop_awake {k : Kernel} {cur bound : Nat} {q : List Nat}
    (hchain : Chain k.next cur q 0) (hnodup : q.Nodup) (hnull : 0 ∉ q) (hbound : q.length < bound) :
    loop wakeTurn bound (k, cur) = .ok (awake k q) := by
  induction q generalizing k cur bound with
  | nil =>
      obtain ⟨n, rfl⟩ : ∃ n, bound = n + 1 := Nat.exists_eq_add_one.mpr hbound
      have hcur : cur = 0 := hchain
      subst hcur
      exact loop_of_done rfl
  | cons p q ih =>
      obtain ⟨n, rfl⟩ : ∃ n, bound = n + 1 := Nat.exists_eq_add_one.mpr (by omega)
      obtain ⟨rfl, hrest⟩ := hchain
      obtain ⟨hout, hq⟩ := List.nodup_cons.mp hnodup
      have hp : cur ≠ 0 := fun h0 => hnull (by simp [h0])
      have hturn : wakeTurn (k, cur) = .again (k.modPcb cur wake, k.next cur) := by
        simp only [wakeTurn, if_pos hp]
      rw [List.length_cons] at hbound
      rw [loop_of_again hturn, ih (k := k.modPcb cur wake) hrest hq
        (fun h0 => hnull (List.mem_cons_of_mem cur h0)) (by omega)]
      unfold awake Kernel.modPcb
      congr 2
      funext x
      by_cases hx : x = cur
      · subst hx
        simp only [if_neg hout, Function.update_self, List.mem_cons_self, if_true]
      · simp only [Function.update_of_ne hx, List.mem_cons, hx, false_or]

theorem wake_running {b : Pcb} (h : b.state = .running) : wake b = b := by
  unfold wake
  rw [if_neg fun hb => by rw [h] at hb; cases hb.1]

/-- The tick reaps, wakes the sleepers and counts down. -/
theorem Settled.tick_eq {img : Image} {k : Kernel} {q zs : List Nat} (h : Settled img k q zs)
    (hcur : k.current ∈ q) (esp : Nat) :
    ∃ k₁ zs', schedulerTick k esp = countDown (awake k₁ q) esp ∧ Settled img k₁ q zs' ∧
      k₁.pcb = k.pcb ∧ k₁.current = k.current := by
  obtain ⟨k₁, zs', hreap, hsettled, hpcb, hcur₁⟩ := h.reapZombies
  refine ⟨k₁, zs', ?_, hsettled, hpcb, hcur₁⟩
  have hcur0 : k.current ≠ 0 := fun h0 => h.queue.queue.nonNull (h0 ▸ hcur)
  have hbound : q.length < turns := by
    have hle := h.bound
    rw [List.length_append] at hle
    omega
  have hwake := wake_loop_awake hsettled.queue.queue.chain hsettled.queue.queue.nodup
    hsettled.queue.queue.nonNull hbound
  unfold schedulerTick
  simp only
  rw [if_neg hcur0, hreap, bind_ok, hwake, bind_ok, ← hcur₁]
  rfl

/-! ## One tick of a slice -/

/-- `p` runs, with `left` ticks of its slice of `n` to go. -/
structure OnCpu (img : Image) (k : Kernel) (p n left : Nat) : Prop where
  lists : ∃ q zs, Settled img k q zs ∧ p ∈ q
  current : k.current = p
  state : (k.pcb p).state = .running
  priority : (k.pcb p).priority = n
  ticks : (k.pcb p).ticksRemaining = left

/-- Another process of the queue is ready when the tick has woken the sleepers. -/
def Rival (k : Kernel) (p : Nat) : Prop :=
  ∃ q, QueueIs k q ∧ ∃ x ∈ q, x ≠ p ∧ (wake (k.pcb x)).state = .ready

theorem QueueIs.unique {k : Kernel} {q q' : List Nat} (h : QueueIs k q) (h' : QueueIs k q') :
    q' = q :=
  h'.queue.chain.unique h.queue.chain h'.queue.nonNull h.queue.nonNull

theorem Settled.withPcb {img : Image} {k k' : Kernel} {q zs : List Nat} (h : Settled img k q zs)
    (hlinks : k'.links = k.links) (hnext : k'.next = k.next) (hheap : k'.heap = k.heap) :
    Settled img k' q zs := by
  injection hlinks with hhead htail hsize hzombie
  refine ⟨⟨?_, ?_⟩, ?_, h.nodup, h.nonNull, h.bound, h.idle, ?_⟩
  · rw [hnext, hhead, htail]
    exact h.queue.queue
  · rw [hsize]
    exact h.queue.size
  · rw [hnext, hzombie]
    exact h.zombies
  · rw [hheap]
    exact h.heap

section Tick

variable {img : Image} {k : Kernel} {p n left : Nat}

theorem OnCpu.tickDown_eq (h : OnCpu img k p n left) (hleft : 0 < left) :
    tickDown k = k.modPcb p fun b => { b with ticksRemaining := b.ticksRemaining - 1 } := by
  unfold tickDown
  rw [h.current, h.ticks, if_pos hleft]

theorem OnCpu.tickDown_self (h : OnCpu img k p n left) (hleft : 0 < left) :
    (tickDown k).pcb p = { k.pcb p with ticksRemaining := (k.pcb p).ticksRemaining - 1 } := by
  rw [h.tickDown_eq hleft]
  exact modPcb_pcb_self k p _

/-- Within the slice nothing but the clock changes. -/
theorem OnCpu.countDown_within (h : OnCpu img k p n left) (hleft : 1 < left) (esp : Nat) :
    ∃ k', countDown k esp = .ok k' ∧ OnCpu img k' p n (left - 1) := by
  have hdown := h.tickDown_eq (Nat.zero_lt_of_lt hleft)
  have hself := h.tickDown_self (Nat.zero_lt_of_lt hleft)
  refine ⟨tickDown k, countDown_of_left esp ?_, ?_⟩
  · rintro ⟨h0, -⟩
    rw [tickDown_ticks, h.current, h.ticks] at h0
    omega
  · obtain ⟨q, zs, hsettled, hp⟩ := h.lists
    refine ⟨⟨q, zs, hsettled.withPcb ?_ ?_ ?_, hp⟩, ?_, ?_, ?_, ?_⟩
    · rw [hdown]
      rfl
    · rw [hdown]
      rfl
    · rw [hdown]
      rfl
    · rw [hdown]
      exact h.current
    · rw [hself]
      exact h.state
    · rw [hself]
      exact h.priority
    · rw [hself]
      exact congrArg (· - 1) h.ticks

/-- The queue has gone round once, and the clock of `p` is set again. -/
theorem OnCpu.restart {q zs : List Nat} {nx : Nat → Nat} {hd tl : Nat} (h : OnCpu img k p n 1)
    (hsettled : Settled img k q zs) (hp : p ∈ q) (hqueue : IsQueue 0 nx hd tl q)
    (hrest : ∀ y, y ∉ q → nx y = k.next y) :
    OnCpu img (((tickDown k).withQueue nx hd tl k.queueSize).modPcb p
      fun b => { b with ticksRemaining := b.priority }) p n n := by
  have hself : ((((tickDown k).withQueue nx hd tl k.queueSize).modPcb p
      fun b => { b with ticksRemaining := b.priority })).pcb p =
      { k.pcb p with ticksRemaining := (k.pcb p).priority } := by
    rw [modPcb_pcb_self, withQueue_pcb, h.tickDown_self Nat.one_pos]
  have hzombies : Chain nx k.zombieHead zs 0 := by
    apply hsettled.zombies.congr
    intro y hy
    exact hrest y fun hyq => (List.nodup_append.mp hsettled.nodup).2.2 y hyq y hy rfl
  refine ⟨⟨q, zs, ⟨⟨hqueue, hsettled.queue.size⟩, ?_, hsettled.nodup, hsettled.nonNull,
    hsettled.bound, hsettled.idle, ?_⟩, hp⟩, ?_, ?_, ?_, ?_⟩
  · rw [h.tickDown_eq Nat.one_pos]
    exact hzombies
  · rw [h.tickDown_eq Nat.one_pos]
    exact hsettled.heap
  · rw [h.tickDown_eq Nat.one_pos]
    exact h.current
  · rw [hself]
    exact h.state
  · rw [hself]
    exact h.priority
  · rw [hself]
    exact h.priority

/-- At the end of the slice a ready process takes over, and without one the slice begins
anew. -/
theorem OnCpu.countDown_end {q : List Nat} (h : OnCpu img k p n 1) (hq : QueueIs k q) (esp : Nat) :
    ∃ k', countDown k esp = .ok k' ∧
      ((∃ x ∈ q, x ≠ p ∧ (k.pcb x).state = .ready) → k'.current ≠ p) ∧
      ((∀ x ∈ q, x ≠ p → (k.pcb x).state ≠ .ready) → OnCpu img k' p n n) := by
  obtain ⟨q', zs, hsettled, hp⟩ := h.lists
  cases hq.unique hsettled.queue
  have hdown := h.tickDown_eq Nat.one_pos
  have hother : ∀ x, x ≠ p → (tickDown k).pcb x = k.pcb x := by
    intro x hx
    rw [hdown]
    exact Function.update_of_ne hx _ _
  have hcurrent : (tickDown k).current = p := by
    rw [hdown]
    exact h.current
  have hsize : (tickDown k).queueSize = k.queueSize := by
    rw [hdown]
    rfl
  have hnext : (tickDown k).next = k.next := by
    rw [hdown]
    rfl
  have hq₁ : QueueIs (tickDown k) q := by
    rw [hdown]
    exact ⟨hq.queue, hq.size⟩
  have hbound : q.length < turns := by
    have hle := hsettled.bound
    rw [List.length_append] at hle
    omega
  have hexpired : ((tickDown k).pcb k.current).ticksRemaining = 0 ∧
      (tickDown k).queueSize > 0 := by
    rw [tickDown_ticks, h.current, h.ticks, hq₁.size]
    exact ⟨rfl, List.length_pos_of_mem hp⟩
  obtain ⟨nx, hd, tl, q', r, hpick, hqueue, hrest, hpicked⟩ := pickNext_spec hq₁ hbound
  rw [hsize] at hpick
  rw [hnext] at hrest
  rw [countDown_of_pick esp hexpired hpick, h.current]
  cases hpicked with
  | @found xs ys r hsplit hready hpassed =>
      have hr : r ∈ q := by
        rw [hsplit]
        simp
      have hr0 : r ≠ 0 := fun h0 => hq.queue.nonNull (h0 ▸ hr)
      have hrp : r ≠ p := by
        rintro rfl
        rw [h.tickDown_self Nat.one_pos] at hready
        exact absurd (h.state.symm.trans hready) (by decide)
      have hcur₁ : ((tickDown k).withQueue nx hd tl k.queueSize).current ≠ r := by
        rw [withQueue_current, hcurrent]
        exact Ne.symm hrp
      rw [if_pos ⟨hr0, hrp⟩, doSwitch_eq esp hcur₁]
      refine ⟨_, rfl, fun _ => hrp, fun hnone => ?_⟩
      rw [hother r hrp] at hready
      exact absurd hready (hnone r hr hrp)
  | none hnone =>
      rw [if_neg (by simp)]
      refine ⟨_, rfl, ?_, fun _ => h.restart hsettled hp hqueue hrest⟩
      rintro ⟨x, hx, hxp, hready⟩
      rw [← hother x hxp] at hready
      exact absurd hready (hnone x hx)

theorem OnCpu.tick (h : OnCpu img k p n left) (hleft : 0 < left) (esp : Nat) :
    ∃ k', schedulerTick k esp = .ok k' ∧ (1 < left → OnCpu img k' p n (left - 1)) ∧
      (left = 1 → (Rival k p → k'.current ≠ p) ∧ (¬Rival k p → OnCpu img k' p n n)) := by
  obtain ⟨q, zs, hsettled, hp⟩ := h.lists
  obtain ⟨k₁, zs', htick, hsettled₁, hpcb, hcur⟩ :=
    hsettled.tick_eq (h.current.symm ▸ hp) esp
  have hself : (awake k₁ q).pcb p = k.pcb p := by
    change (if p ∈ q then wake (k₁.pcb p) else k₁.pcb p) = _
    rw [if_pos hp, hpcb, wake_running h.state]
  have hwoken : ∀ x ∈ q, (awake k₁ q).pcb x = wake (k.pcb x) := by
    intro x hx
    change (if x ∈ q then wake (k₁.pcb x) else k₁.pcb x) = _
    rw [if_pos hx, hpcb]
  have hon : OnCpu img (awake k₁ q) p n left := by
    refine ⟨⟨q, zs', hsettled₁.withPcb rfl rfl rfl, hp⟩, hcur.trans h.current, ?_, ?_, ?_⟩
    · rw [hself]
      exact h.state
    · rw [hself]
      exact h.priority
    · rw [hself]
      exact h.ticks
  have hrival : Rival k p ↔ ∃ x ∈ q, x ≠ p ∧ ((awake k₁ q).pcb x).state = .ready := by
    constructor
    · rintro ⟨q', hq', x, hx, hxp, hready⟩
      cases hq'.unique hsettled.queue
      exact ⟨x, hx, hxp, by rw [hwoken x hx]; exact hready⟩
    · rintro ⟨x, hx, hxp, hready⟩
      rw [hwoken x hx] at hready
      exact ⟨q, hsettled.queue, x, hx, hxp, hready⟩
  rw [htick]
  rcases Nat.lt_or_eq_of_le hleft with hmore | hlast
  · obtain ⟨k', hdown, hon'⟩ := hon.countDown_within hmore esp
    exact ⟨k', hdown, fun _ => hon', fun h1 => absurd h1 (Nat.ne_of_gt hmore)⟩
  · cases hlast
    obtain ⟨k', hdown, hswitch, hstay⟩ := hon.countDown_end ⟨hsettled₁.queue.queue,
      hsettled₁.queue.size⟩ esp
    refine ⟨k', hdown, fun h1 => absurd h1 (Nat.lt_irrefl 1), fun _ => ⟨fun hr => ?_, fun hr => ?_⟩⟩
    · exact hswitch (hrival.mp hr)
    · apply hstay
      intro x hx hxp hready
      exact hr (hrival.mpr ⟨x, hx, hxp, hready⟩)

end Tick

/-! ## Runs -/

/-- Anything but a tick, a yield or an exit of the running process `p`: the lists stay in
order, `p` stays where it is, and its clock does not move. -/
structure Others (img : Image) (p : Nat) (k k' : Kernel) : Prop where
  lists : ∃ q zs, Settled img k' q zs ∧ p ∈ q
  current : k'.current = k.current
  state : (k'.pcb p).state = (k.pcb p).state
  priority : (k'.pcb p).priority = (k.pcb p).priority
  ticks : (k'.pcb p).ticksRemaining = (k.pcb p).ticksRemaining

/-- The kernel after `t` ticks, as long as `p` runs; the last of them may switch. -/
inductive SliceRun (img : Image) (p : Nat) (k₀ : Kernel) : Nat → Kernel → Prop
  | start : SliceRun img p k₀ 0 k₀
  | others {t : Nat} {k k' : Kernel} (hrun : SliceRun img p k₀ t k) (hcur : k.current = p)
      (hothers : Others img p k k') : SliceRun img p k₀ t k'
  | tick {t esp : Nat} {k k' : Kernel} (hrun : SliceRun img p k₀ t k) (hcur : k.current = p)
      (htick : schedulerTick k esp = .ok k') : SliceRun img p k₀ (t + 1) k'

theorem doSwitch_onCpu {img : Image} {k : Kernel} {q zs : List Nat} {p : Nat}
    (h : Settled img k q zs) (hp : p ∈ q) (hne : k.current ≠ p) (esp : Nat) :
    OnCpu img (doSwitch k p esp) p (k.pcb p).priority (k.pcb p).priority := by
  rw [doSwitch_eq esp hne]
  have hself : k.switchPcb p esp p = (k.pcb p).dispatched := switchPcb_next k esp hne
  refine ⟨⟨q, zs, ⟨⟨h.queue.queue, h.queue.size⟩, h.zombies, h.nodup, h.nonNull, h.bound, h.idle,
    h.heap⟩, hp⟩, rfl, ?_, ?_, ?_⟩
  · exact congrArg Pcb.state hself
  · change (k.switchPcb p esp p).priority = _
    rw [hself]
    rfl
  · exact congrArg Pcb.ticksRemaining hself

theorem OnCpu.others {img : Image} {k k' : Kernel} {p n left : Nat} (h : OnCpu img k p n left)
    (ho : Others img p k k') : OnCpu img k' p n left where
  lists := ho.lists
  current := ho.current.trans h.current
  state := ho.state.trans h.state
  priority := ho.priority.trans h.priority
  ticks := ho.ticks.trans h.ticks

/-- The ticks of a slice are counted from its start. -/
theorem succ_mod (t : Nat) {n : Nat} (hn : 0 < n) :
    (t + 1) % n = if t % n + 1 = n then 0 else t % n + 1 := by
  have hsplit : t + 1 = n * (t / n) + (t % n + 1) := by
    have ht := Nat.div_add_mod t n
    omega
  have hlt : t % n < n := Nat.mod_lt t hn
  by_cases hlast : t % n + 1 = n
  · rw [if_pos hlast]
    calc (t + 1) % n = (n * (t / n) + (t % n + 1)) % n := congrArg (· % n) hsplit
      _ = (t % n + 1) % n := Nat.mul_add_mod ..
      _ = n % n := congrArg (· % n) hlast
      _ = 0 := Nat.mod_self n
  · rw [if_neg hlast]
    calc (t + 1) % n = (n * (t / n) + (t % n + 1)) % n := congrArg (· % n) hsplit
      _ = (t % n + 1) % n := Nat.mul_add_mod ..
      _ = t % n + 1 := Nat.mod_eq_of_lt (by omega)

/-- As long as `p` runs, its clock shows how far the slice has got. -/
theorem SliceRun.onCpu {img : Image} {p n t : Nat} {k₀ k : Kernel} (hn : 0 < n)
    (h₀ : OnCpu img k₀ p n n) (hrun : SliceRun img p k₀ t k) :
    (k.current = p → OnCpu img k p n (n - t % n)) ∧ (k.current ≠ p → 0 < t ∧ n ∣ t) := by
  induction hrun with
  | start =>
      rw [Nat.zero_mod, Nat.sub_zero]
      exact ⟨fun _ => h₀, fun hne => absurd h₀.current hne⟩
  | others hrun hcur hothers ih =>
      have hon := (ih.1 hcur).others hothers
      exact ⟨fun _ => hon, fun hne => absurd hon.current hne⟩
  | @tick t esp k k' hrun hcur htick ih =>
      have hlt : t % n < n := Nat.mod_lt t hn
      obtain ⟨k₁, htick₁, hwithin, hend⟩ := (ih.1 hcur).tick (by omega) esp
      rw [htick] at htick₁
      cases htick₁
      have hmod := succ_mod t hn
      by_cases hlast : t % n + 1 = n
      · rw [if_pos hlast] at hmod
        have hdvd : n ∣ t + 1 := Nat.dvd_of_mod_eq_zero hmod
        obtain ⟨hswitch, hstay⟩ := hend (by omega)
        rw [hmod, Nat.sub_zero]
        refine ⟨fun hcur' => hstay fun hr => hswitch hr hcur', fun _ => ⟨Nat.succ_pos t, hdvd⟩⟩
      · rw [if_neg hlast] at hmod
        have hon := hwithin (by omega)
        rw [hmod]
        have hleft : n - (t % n + 1) = n - t % n - 1 := by omega
        rw [hleft]
        exact ⟨fun _ => hon, fun hne => absurd hon.current hne⟩

/-! ## The kernel's own steps -/

/-- Neither a tick nor a call by which the running process gives up the processor. -/
def Event.Quiet : Event → Prop
  | .create _ _ _ => True
  | .createElf _ _ _ => True
  | .work _ => True
  | _ => False

theorem Spares.others {img : Image} {k k' : Kernel} {q zs q' zs' : List Nat} {p : Nat}
    (hspares : Spares p k k') (hcur : k.current ∈ q) (hnew : p ∉ q ++ zs)
    (h' : Inv img k' q' zs') : Others img k.current k k' := by
  have hsame : k'.pcb k.current = k.pcb k.current :=
    hspares.pcb _ fun heq => hnew (heq ▸ List.mem_append_left zs hcur)
  refine ⟨⟨q', zs', h'.settled, hspares.current ▸ h'.current⟩, hspares.current, ?_, ?_, ?_⟩
  · rw [hsame]
  · rw [hsame]
  · rw [hsame]

theorem Creates.others {img : Image} {start r : Nat} {k k' : Kernel} {q zs : List Nat}
    (h : Inv img k q zs) (hcreate : Creates img start k q zs k' r) :
    Others img k.current k k' := by
  cases hcreate with
  | failed hnew hspares hinv => exact hspares.others h.current hnew hinv
  | made hp hidle hnew hspares hinv => exact hspares.others h.current hnew hinv

/-- Whatever the running process does but yield and exit is among the runs above. -/
theorem Event.others {img : Image} {base : Nat} {k k' : Kernel} {q zs : List Nat} {e : Event}
    (h : Inv img k q zs) (hquiet : e.Quiet) (hrun : e.run img base k = .ok k') :
    Others img k.current k k' := by
  cases e with
  | create name start priority =>
      obtain ⟨k₁, r, hret, hcreate⟩ := processCreate_inv h name start priority
      simp only [Event.run, hret] at hrun
      cases hrun
      exact hcreate.others h
  | createElf name data priority =>
      simp only [Event.run] at hrun
      cases hret : createFromElfAt img base k name data priority with
      | error stop =>
          rw [hret] at hrun
          cases hrun
      | ok kr =>
          obtain ⟨k₁, r⟩ := kr
          rw [hret] at hrun
          cases hrun
          cases createFromElfAt_inv h hret with
          | invalid hinv => exact ⟨⟨q, zs, hinv.settled, hinv.current⟩, rfl, rfl, rfl, rfl⟩
          | notCreated hcreate => exact hcreate.others h
          | @created k₁ _ p r _ hp hcreate hload hspares =>
              cases hcreate with
              | failed => exact absurd rfl hp
              | made hp hidle hnew hspares₁ =>
                  cases hload with
                  | loaded hinv => exact (hspares₁.trans hspares).others h.current hnew hinv
                  | abandoned hinv => exact (hspares₁.trans hspares).others h.current hnew hinv
  | work mem =>
      cases hrun
      exact ⟨⟨q, zs, (h.withMs _).settled, h.current⟩, rfl, rfl, rfl, rfl⟩
  | tick esp => cases hquiet
  | yield esp => cases hquiet
  | exit code esp => cases hquiet

/-- A dispatched process loses the processor only at a multiple of its priority, counted in
ticks, and there exactly if another queued process is ready. -/
theorem priority_is_slice {img : Image} {k k₁ : Kernel} {q zs : List Nat} {p n t : Nat}
    (hk : Settled img k q zs) (hp : p ∈ q) (hne : k.current ≠ p) (hn : 0 < n)
    (hpriority : (k.pcb p).priority = n) (esp : Nat)
    (hrun : SliceRun img p (doSwitch k p esp) t k₁) :
    (k₁.current ≠ p → 0 < t ∧ n ∣ t) ∧
    (k₁.current = p → ∀ esp, ∃ k₂, schedulerTick k₁ esp = .ok k₂ ∧
      (¬n ∣ t + 1 → k₂.current = p) ∧ (n ∣ t + 1 → (k₂.current ≠ p ↔ Rival k₁ p))) := by
  have hdispatch := doSwitch_onCpu hk hp hne esp
  rw [hpriority] at hdispatch
  obtain ⟨hon, hlost⟩ := hrun.onCpu hn hdispatch
  refine ⟨hlost, fun hcur esp' => ?_⟩
  have hlt : t % n < n := Nat.mod_lt t hn
  obtain ⟨k₂, htick, -, hend⟩ := (hon hcur).tick (by omega) esp'
  refine ⟨k₂, htick, fun hdvd => ?_, fun hdvd => ?_⟩
  · by_contra hout
    exact hdvd ((SliceRun.tick hrun hcur htick).onCpu hn hdispatch |>.2 hout).2
  · have hlast : n - t % n = 1 := by
      have hmod := succ_mod t hn
      rw [Nat.mod_eq_zero_of_dvd hdvd] at hmod
      split at hmod
      · omega
      · omega
    obtain ⟨hswitch, hstay⟩ := hend hlast
    constructor
    · intro hout
      by_contra hr
      exact hout (hstay hr).current
    · exact hswitch

/-- A process of priority 2 is still there after the first tick. -/
theorem priority_is_slice_two :
    ∃ k p k₂, processCreate sampleImage sampleBoot.kernel [] 0x103000 2 = .ok (k, p) ∧
      schedulerTick (doSwitch k p 0x19fff0) 0 = .ok k₂ ∧ k₂.current = p := by
  have heval : returnsWith (processCreate sampleImage sampleBoot.kernel [] 0x103000 2) (fun r =>
      decide (r.2 ≠ 0 ∧ (r.1.pcb r.2).priority = 2)) = true := by decide +kernel
  obtain ⟨k, p, hcall, hcreate⟩ := processCreate_inv (boot_inv sampleBoot) [] 0x103000 2
  rw [hcall] at heval
  obtain ⟨hp0, hpriority⟩ := of_decide_eq_true heval
  cases hcreate with
  | failed => exact absurd rfl hp0
  | made hp hidle hnew hspares hinv =>
      have hne : k.current ≠ p := by
        rw [hspares.current]
        exact fun heq => hnew (heq ▸ List.mem_append_left [] (boot_inv sampleBoot).current)
      have hslice := priority_is_slice hinv.settled (List.mem_append_right _ (by simp)) hne
        Nat.two_pos hpriority 0x19fff0 .start
      have hcur : (doSwitch k p 0x19fff0).current = p := by
        rw [doSwitch_eq _ hne]
      obtain ⟨k₂, htick, hstay, -⟩ := hslice.2 hcur 0
      exact ⟨k, p, k₂, hcall, htick, hstay (by decide)⟩

end StakOS.Process
