import Mathlib.Data.List.Perm.Subperm
import Mathlib.Data.List.Rotate
import StakOS.Lib.Rotation
import StakOS.Scheduler.Queue

/-!
# Round robin

`pick_next` serves the run queue in turn.  A process that stays in it and stays
`READY` is picked after at most as many picks as there were processes ahead of
it, whatever else is done to the queue meanwhile.
-/

namespace StakOS.Process

open StakOS.Lib.Memory StakOS.Lib.Loop StakOS.Lib.Linked StakOS.Lib.Queue StakOS.Lib

/-- The run queue holds the processes `q`, which are 32-bit addresses. -/
structure RunQueue (k : Kernel) (q : List Nat) : Prop extends QueueIs k q where
  addresses : ∀ x ∈ q, x < 2 ^ 32

/-- There are fewer than 2^32 addresses other than 0. -/
theorem length_lt_of_addresses {q : List Nat} (hnodup : q.Nodup) (hnull : 0 ∉ q)
    (haddr : ∀ x ∈ q, x < 2 ^ 32) : q.length < 2 ^ 32 := by
  have hsub : 0 :: q ⊆ List.range (2 ^ 32) := by
    intro x hx
    rcases List.mem_cons.mp hx with rfl | hx
    · exact List.mem_range.mpr (by decide)
    · exact List.mem_range.mpr (haddr x hx)
  have hle := ((List.nodup_cons.mpr ⟨hnull, hnodup⟩).subperm hsub).length_le
  rwa [List.length_cons, List.length_range] at hle

theorem RunQueue.length_lt {k : Kernel} {q : List Nat} (h : RunQueue k q) :
    q.length < 2 ^ 32 :=
  length_lt_of_addresses h.queue.nodup h.queue.nonNull h.addresses

/-! ## One pick -/

/-- What `pick_next` makes of the queue `q`: the first ready process is returned and the
queue rotated until it is last, or no process is ready and nothing changes. -/
inductive Turned (k : Kernel) (q : List Nat) : Kernel → List Nat → Nat → Prop
  | found {k' : Kernel} {xs ys : List Nat} {r : Nat} (hq : q = xs ++ r :: ys)
      (hready : (k.pcb r).state = .ready) (hpassed : ∀ x ∈ xs, (k.pcb x).state ≠ .ready)
      (hk : k' = k.withQueue k'.next k'.queueHead k'.queueTail k.queueSize)
      (hrest : ∀ x ∉ q, k'.next x = k.next x) :
      Turned k q k' (q.rotate (xs.length + 1)) r
  | none (hnone : ∀ x ∈ q, (k.pcb x).state ≠ .ready) : Turned k q k q 0

theorem rotate_behind (xs ys : List Nat) (r : Nat) :
    (xs ++ r :: ys).rotate (xs.length + 1) = ys ++ xs ++ [r] := by
  calc (xs ++ r :: ys).rotate (xs.length + 1)
      = ((xs ++ [r]) ++ ys).rotate (xs ++ [r]).length := by simp
    _ = ys ++ (xs ++ [r]) := List.rotate_append_length_eq (xs ++ [r]) ys
    _ = ys ++ xs ++ [r] := by rw [List.append_assoc]

/-- A rotation all the way round sets every link to what it was. -/
theorem withQueue_eq_self {k : Kernel} {q : List Nat} {n : Nat → Nat} {h t : Nat}
    (hq : QueueIs k q) (hqueue : IsQueue 0 n h t q) (hrest : ∀ y, y ∉ q → n y = k.next y) :
    k.withQueue n h t k.queueSize = k := by
  have hnext : n = k.next := by
    funext y
    by_cases hy : y ∈ q
    · exact hq.queue.chain.agree hqueue.chain y hy
    · exact hrest y hy
  have hhead : h = k.queueHead := hqueue.head_eq.trans hq.queue.head_eq.symm
  have htail : t = k.queueTail := hqueue.tail_eq.trans hq.queue.tail_eq.symm
  rw [hnext, hhead, htail]
  rfl

theorem pickNext_turned {k : Kernel} {q : List Nat} (hq : RunQueue k q) :
    ∃ k' q' r, pickNext k = .ok (k', r) ∧ RunQueue k' q' ∧ Turned k q k' q' r := by
  obtain ⟨n, h, t, q', r, hpick, hqueue, hrest, hpicked⟩ :=
    pickNext_spec hq.toQueueIs hq.length_lt
  cases hpicked with
  | @found xs ys r hsplit hready hpassed =>
      refine ⟨_, _, r, hpick, ?_, .found hsplit hready hpassed rfl hrest⟩
      rw [hsplit, rotate_behind]
      constructor
      · constructor
        · exact hqueue
        · rw [withQueue_queueSize, hq.size, hsplit]
          simp only [List.length_append, List.length_cons, List.length_nil]
          omega
      · intro x hx
        apply hq.addresses
        rw [hsplit]
        simp only [List.mem_append, List.mem_cons, List.not_mem_nil, or_false] at hx ⊢
        tauto
  | none hnone =>
      rw [withQueue_eq_self hq.toQueueIs hqueue hrest] at hpick
      exact ⟨k, q, 0, hpick, hq, .none hnone⟩

/-- The result is `NULL` exactly if no process of the queue is ready. -/
theorem Turned.null_iff {k k' : Kernel} {q q' : List Nat} {r : Nat} (h : Turned k q k' q' r)
    (hq : RunQueue k q) : r = 0 ↔ ∀ x ∈ q, (k.pcb x).state ≠ .ready := by
  cases h with
  | @found _ xs ys _ hsplit hready hpassed hk hrest =>
      have hmem : r ∈ q := by
        rw [hsplit]
        simp
      constructor
      · intro hr
        exact absurd (hr ▸ hmem) hq.queue.nonNull
      · intro hnone
        exact absurd hready (hnone r hmem)
  | none hnone => exact ⟨fun _ => hnone, fun _ => rfl⟩

/-! ## Dequeueing a process that is not queued -/

theorem dequeue_loop_absent {k : Kernel} {p : Nat} {xs : List Nat} {prev cur bound : Nat}
    (hchain : Chain k.next cur xs 0) (hnull : 0 ∉ xs) (hp : p ∉ xs) (hbound : xs.length < bound) :
    loop (dequeueTurn k p) bound (prev, cur) = .ok k := by
  induction xs generalizing prev cur bound with
  | nil =>
      obtain ⟨n, rfl⟩ : ∃ n, bound = n + 1 := Nat.exists_eq_add_one.mpr hbound
      apply loop_of_done
      show (if cur ≠ 0 then _ else _) = _
      have hcur : cur = 0 := hchain
      rw [if_neg (not_not.mpr hcur)]
  | cons x xs ih =>
      obtain ⟨n, rfl⟩ : ∃ n, bound = n + 1 := Nat.exists_eq_add_one.mpr (Nat.zero_lt_of_lt hbound)
      have hcur : cur = x := hchain.1
      have hturn : dequeueTurn k p (prev, cur) = .again (x, k.next x) := by
        rw [hcur]
        show (if x ≠ 0 then _ else _) = _
        rw [if_pos fun hx => hnull (by simp [hx]), if_neg fun hx => hp (by simp [hx])]
      rw [loop_of_again hturn]
      exact ih hchain.2 (fun h => hnull (List.mem_cons_of_mem x h))
        (fun h => hp (List.mem_cons_of_mem x h)) (by simpa using hbound)

theorem schedulerDequeue_absent {k : Kernel} {q : List Nat} {p : Nat} (hq : RunQueue k q)
    (hp : p ∉ q) : schedulerDequeue k p = .ok k := by
  unfold schedulerDequeue
  by_cases hnone : p = 0 ∨ k.queueHead = 0
  · rw [if_pos hnone]
  · rw [if_neg hnone]
    exact dequeue_loop_absent hq.queue.chain hq.queue.nonNull hp hq.length_lt

/-- `scheduler_dequeue` takes the process out of the queue, if it is there. -/
theorem schedulerDequeue_erase {k : Kernel} {q : List Nat} (hq : RunQueue k q) (x : Nat) :
    ∃ k', schedulerDequeue k x = .ok k' ∧ RunQueue k' (q.erase x) ∧ k'.pcb = k.pcb := by
  by_cases hx : x ∈ q
  · obtain ⟨xs, ys, rfl⟩ := List.append_of_mem hx
    obtain ⟨n, h, t, hdequeue, hqueue, -, -⟩ := schedulerDequeue_spec hq.toQueueIs hq.length_lt
    have hxs : x ∉ xs := fun hmem =>
      (List.nodup_append.mp hq.queue.nodup).2.2 x hmem x List.mem_cons_self rfl
    have herase : (xs ++ x :: ys).erase x = xs ++ ys := by
      rw [List.erase_append_right _ hxs, List.erase_cons_head]
    refine ⟨_, hdequeue, ?_, rfl⟩
    rw [herase]
    refine ⟨⟨hqueue, rfl⟩, ?_⟩
    intro y hy
    apply hq.addresses
    simp only [List.mem_append, List.mem_cons] at hy ⊢
    tauto
  · rw [List.erase_of_not_mem hx]
    exact ⟨k, schedulerDequeue_absent hq hx, hq, rfl⟩

/-! ## Bounded waiting -/

/-- One operation on the run queue or on the control blocks while `p` stays queued and `READY`,
with what `pick_next` returned. -/
inductive QueueStep (p : Nat) : Kernel → List Nat → Kernel → Prop
  | pick {k k' : Kernel} {r : Nat} (h : pickNext k = .ok (k', r)) : QueueStep p k [r] k'
  | enqueue {k : Kernel} {x : Nat} (hx : x ≠ 0) (haddr : x < 2 ^ 32)
      (hnew : ∀ q, QueueIs k q → x ∉ q) : QueueStep p k [] (schedulerEnqueue k x)
  | dequeue {k k' : Kernel} {x : Nat} (hx : x ≠ p) (h : schedulerDequeue k x = .ok k') :
      QueueStep p k [] k'
  | change {k : Kernel} {pcb : Nat → Pcb} (hp : (pcb p).state = (k.pcb p).state) :
      QueueStep p k [] { k with pcb := pcb }

inductive QueueRun (p : Nat) : Kernel → List Nat → Kernel → Prop
  | refl (k : Kernel) : QueueRun p k [] k
  | step {k k' k'' : Kernel} {out outs : List Nat} (hstep : QueueStep p k out k')
      (hrun : QueueRun p k' outs k'') : QueueRun p k (out ++ outs) k''

/-- Each operation of the kernel is one of the abstract queue. -/
theorem QueueStep.rotation {p : Nat} {k k' : Kernel} {out q : List Nat}
    (h : QueueStep p k out k') (hq : RunQueue k q) (hp : p ∈ q)
    (hready : (k.pcb p).state = .ready) :
    ∃ q', RunQueue k' q' ∧ (k'.pcb p).state = .ready ∧ Rotation.Step p q out q' := by
  cases h with
  | @pick _ r hpick =>
      obtain ⟨k₁, q', r₁, hpick₁, hq', hturned⟩ := pickNext_turned hq
      rw [hpick] at hpick₁
      cases hpick₁
      cases hturned with
      | @found _ xs ys _ hsplit hr hpassed hk hrest =>
          refine ⟨_, hq', ?_, ?_⟩
          · rw [hk]
            exact hready
          · rw [hsplit, rotate_behind]
            exact .serve fun hmem => hpassed p hmem hready
      | none hnone => exact absurd hready (hnone p hp)
  | @enqueue x hx haddr hnew =>
      have hxq := hnew q hq.toQueueIs
      have haddresses : ∀ y ∈ q ++ [x], y < 2 ^ 32 := by
        intro y hy
        rcases List.mem_append.mp hy with hy | hy
        · exact hq.addresses y hy
        · rw [List.mem_singleton.mp hy]
          exact haddr
      have hnodup : (q ++ [x]).Nodup := List.nodup_append.mpr ⟨hq.queue.nodup,
        List.nodup_singleton x, fun a ha b hb hab => hxq (by
          rw [← List.mem_singleton.mp hb, ← hab]
          exact ha)⟩
      have hnull : 0 ∉ q ++ [x] := by
        simp only [List.mem_append, List.mem_singleton, not_or]
        exact ⟨hq.queue.nonNull, Ne.symm hx⟩
      -- The counter cannot overflow: the longer queue consists of addresses too.
      have hlen : q.length + 1 < 2 ^ 32 := by
        simpa using length_lt_of_addresses hnodup hnull haddresses
      obtain ⟨n, h, henqueue, hqueue, -⟩ := schedulerEnqueue_spec hq.toQueueIs hlen hx hxq
      refine ⟨q ++ [x], ?_, ?_, .join q x⟩
      · rw [henqueue]
        exact ⟨⟨hqueue, by simp⟩, haddresses⟩
      · have hpx : p ≠ x := fun hpx => hxq (hpx ▸ hp)
        rw [henqueue, withQueue_pcb]
        show (Function.update k.pcb x _ p).state = _
        rw [Function.update_of_ne hpx]
        exact hready
  | @dequeue _ x hx hdequeue =>
      obtain ⟨k₁, hdequeue₁, hq', hpcb⟩ := schedulerDequeue_erase hq x
      rw [hdequeue] at hdequeue₁
      cases hdequeue₁
      refine ⟨q.erase x, hq', ?_, .leave q hx⟩
      rw [hpcb]
      exact hready
  | @change pcb hstate =>
      exact ⟨q, ⟨⟨hq.queue, hq.size⟩, hq.addresses⟩, hstate.trans hready, .stay q⟩

theorem QueueRun.rotation {p : Nat} {k k' : Kernel} {outs q : List Nat}
    (h : QueueRun p k outs k') (hq : RunQueue k q) (hp : p ∈ q)
    (hready : (k.pcb p).state = .ready) : ∃ q', Rotation.Run p q outs q' := by
  induction h generalizing q with
  | refl k => exact ⟨q, .refl q⟩
  | step hstep hrun ih =>
      obtain ⟨q₁, hq₁, hready₁, hrot⟩ := hstep.rotation hq hp hready
      obtain ⟨q₂, hrun₂⟩ := ih hq₁ (hrot.nearer hp).1 hready₁
      exact ⟨q₂, .step hrot hrun₂⟩

/-- `pick_next` rotates the queue to the first ready process and returns it, or returns `NULL`
and changes nothing exactly if none is ready.  A process that stays queued and ready is
returned by one of the next picks, one more than there are processes ahead of it. -/
theorem pickNext_round_robin {k : Kernel} {q : List Nat} (hq : RunQueue k q) :
    (∃ k' q' r, pickNext k = .ok (k', r) ∧ RunQueue k' q' ∧ Turned k q k' q' r ∧
      (r = 0 ↔ ∀ x ∈ q, (k.pcb x).state ≠ .ready)) ∧
    ∀ ahead p behind, q = ahead ++ p :: behind → (k.pcb p).state = .ready →
      ∀ outs k', QueueRun p k outs k' → ahead.length < outs.length →
        p ∈ outs.take (ahead.length + 1) := by
  constructor
  · obtain ⟨k', q', r, hpick, hq', hturned⟩ := pickNext_turned hq
    exact ⟨k', q', r, hpick, hq', hturned, hturned.null_iff hq⟩
  · intro ahead p behind hsplit hready outs k' hrun hlong
    have hp : p ∈ q := by
      rw [hsplit]
      simp
    have hindex : q.idxOf p = ahead.length := by
      have hnodup := hq.queue.nodup
      rw [hsplit] at hnodup ⊢
      have hahead : p ∉ ahead := fun hmem =>
        (List.nodup_append.mp hnodup).2.2 p hmem p List.mem_cons_self rfl
      rw [List.idxOf_append_of_notMem hahead, List.idxOf_cons_self, Nat.add_zero]
    obtain ⟨q', hrotation⟩ := hrun.rotation hq hp hready
    rw [← hindex] at hlong ⊢
    exact hrotation.served hp hlong

/-- A blocked process is queued ahead of a ready one. -/
def blockedAhead : Kernel where
  ms := ⟨⟨fun _ => 0, 0, 0⟩, fun _ => 0⟩
  heap := ⟨fun _ => 0, 0, 0⟩
  pcb := fun p => if p = 0x1000 then { Pcb.zero with state := .blocked } else Pcb.zero
  next := fun p => if p = 0x1000 then 0x2000 else 0
  nextPid := 3
  current := 0
  procTable := fun _ => 0
  queueHead := 0x1000
  queueTail := 0x2000
  queueSize := 2
  zombieHead := 0
  tssEsp0 := 0
  cr3 := 0

theorem pickNext_round_robin_blockedAhead :
    ∃ outs k', QueueRun 0x2000 blockedAhead outs k' ∧ outs.length = 2 ∧ 0x2000 ∈ outs := by
  have hq : RunQueue blockedAhead [0x1000, 0x2000] :=
    ⟨⟨⟨⟨rfl, rfl, rfl⟩, rfl, by decide, by decide⟩, rfl⟩, by decide⟩
  obtain ⟨k₁, q₁, r₁, hpick₁, hq₁, -⟩ := pickNext_turned hq
  obtain ⟨k₂, q₂, r₂, hpick₂, -, -⟩ := pickNext_turned hq₁
  have hrun : QueueRun 0x2000 blockedAhead [r₁, r₂] k₂ :=
    .step (.pick hpick₁) (.step (.pick hpick₂) (.refl k₂))
  exact ⟨[r₁, r₂], k₂, hrun, rfl,
    (pickNext_round_robin hq).2 [0x1000] 0x2000 [] rfl rfl [r₁, r₂] k₂ hrun (by simp)⟩

end StakOS.Process
