import StakOS.Lib.Queue
import StakOS.Process.Create

/-!
# The run queue

What the queue operations of `scheduler.c` do to the list of queued processes.
Each lemma gives the whole new state: the operations assign links, the queue
pointers and the size, and nothing else.
-/

namespace StakOS.Process

open StakOS.Lib.Memory StakOS.Lib.Loop StakOS.Lib.Linked StakOS.Lib.Queue

/-- Assign the links and the variables of the run queue. -/
def Kernel.withQueue (k : Kernel) (next : Nat → Nat) (head tail size : Nat) : Kernel :=
  { k with next := next, queueHead := head, queueTail := tail, queueSize := size }

section Fields

variable (k : Kernel) (next : Nat → Nat) (head tail size : Nat)

@[simp] theorem withQueue_ms : (k.withQueue next head tail size).ms = k.ms := rfl
@[simp] theorem withQueue_heap : (k.withQueue next head tail size).heap = k.heap := rfl
@[simp] theorem withQueue_pcb : (k.withQueue next head tail size).pcb = k.pcb := rfl
@[simp] theorem withQueue_next : (k.withQueue next head tail size).next = next := rfl
@[simp] theorem withQueue_nextPid : (k.withQueue next head tail size).nextPid = k.nextPid := rfl
@[simp] theorem withQueue_current : (k.withQueue next head tail size).current = k.current := rfl
@[simp] theorem withQueue_procTable :
    (k.withQueue next head tail size).procTable = k.procTable := rfl
@[simp] theorem withQueue_queueHead : (k.withQueue next head tail size).queueHead = head := rfl
@[simp] theorem withQueue_queueTail : (k.withQueue next head tail size).queueTail = tail := rfl
@[simp] theorem withQueue_queueSize : (k.withQueue next head tail size).queueSize = size := rfl
@[simp] theorem withQueue_zombieHead :
    (k.withQueue next head tail size).zombieHead = k.zombieHead := rfl
@[simp] theorem withQueue_tssEsp0 : (k.withQueue next head tail size).tssEsp0 = k.tssEsp0 := rfl
@[simp] theorem withQueue_cr3 : (k.withQueue next head tail size).cr3 = k.cr3 := rfl

@[simp] theorem withQueue_withQueue (next' : Nat → Nat) (head' tail' size' : Nat) :
    (k.withQueue next head tail size).withQueue next' head' tail' size' =
      k.withQueue next' head' tail' size' := rfl

end Fields

/-- The run queue holds the processes `q`. -/
structure QueueIs (k : Kernel) (q : List Nat) : Prop where
  queue : IsQueue 0 k.next k.queueHead k.queueTail q
  size : k.queueSize = q.length

/-! ## Enqueueing -/

theorem schedulerEnqueue_spec {k : Kernel} {q : List Nat} {p : Nat} (hq : QueueIs k q)
    (hlen : q.length + 1 < 2 ^ 32) (hp : p ≠ 0) (hnew : p ∉ q) :
    ∃ n h, schedulerEnqueue k p = (k.setState p .ready).withQueue n h p (q.length + 1) ∧
      IsQueue 0 n h p (q ++ [p]) ∧ ∀ x, x ∉ q → x ≠ p → n x = k.next x := by
  have hsize : add32 k.queueSize 1 = q.length + 1 := by
    rw [hq.size]
    exact add32_of_lt hlen
  unfold schedulerEnqueue
  rw [if_neg hp]
  by_cases hempty : k.queueHead = 0
  · have hnil := hq.queue.head_eq_null_iff.mp hempty
    subst hnil
    refine ⟨Function.update k.next p 0, p, ?_, IsQueue.singleton hp, ?_⟩
    · show (if k.queueHead = 0 then _ else _) = _
      rw [if_pos hempty]
      show Kernel.withQueue _ _ _ _ (add32 k.queueSize 1) = _
      rw [hsize]
      rfl
    · intro x _ hx
      exact Function.update_of_ne hx 0 k.next
  · have hne : q ≠ [] := fun hnil => hempty (hq.queue.head_eq_null_iff.mpr hnil)
    have hcut := hq.queue.update_of_notMem hnew 0
    refine ⟨Function.update (Function.update k.next p 0) k.queueTail p, k.queueHead, ?_,
      hcut.snoc hne hnew hp (Function.update_self p 0 k.next), ?_⟩
    · show (if k.queueHead = 0 then _ else _) = _
      rw [if_neg hempty]
      show Kernel.withQueue _ _ _ _ (add32 k.queueSize 1) = _
      rw [hsize]
      rfl
    · intro x hx hxp
      have hxt : x ≠ k.queueTail := by
        intro hxt
        apply hx
        rw [hxt]
        exact hq.queue.tail_mem hne
      rw [Function.update_of_ne hxt, Function.update_of_ne hxp]

/-! ## Dequeueing -/

/-- The search of `scheduler_dequeue` reaches the process, `pre` being the
processes it has passed. -/
theorem dequeue_loop {k : Kernel} {p : Nat} (pre : List Nat) {xs ys : List Nat} {cur bound : Nat}
    (hchain : Chain k.next cur (xs ++ p :: ys) 0) (hnodup : (xs ++ p :: ys).Nodup)
    (hnull : 0 ∉ xs ++ p :: ys) (hbound : xs.length < bound) :
    loop (dequeueTurn k p) bound (pre.getLastD 0, cur) =
      .ok (unlink k ((pre ++ xs).getLastD 0) p) := by
  induction xs generalizing pre cur bound with
  | nil =>
      obtain ⟨n, rfl⟩ : ∃ n, bound = n + 1 := Nat.exists_eq_add_one.mpr hbound
      have hcur : cur = p := hchain.1
      have hne : p ≠ 0 := fun hp => hnull (by simp [hp])
      apply loop_of_done
      rw [hcur, List.append_nil]
      show (if p ≠ 0 then _ else _) = _
      rw [if_pos hne, if_pos rfl]
  | cons x xs ih =>
      obtain ⟨n, rfl⟩ : ∃ n, bound = n + 1 := Nat.exists_eq_add_one.mpr (Nat.zero_lt_of_lt hbound)
      have hcur : cur = x := hchain.1
      have hne : x ≠ 0 := fun hx => hnull (by simp [hx])
      have hsplit := List.nodup_cons.mp hnodup
      have hxp : x ≠ p := fun hxp => hsplit.1 (by simp [hxp])
      have hturn : dequeueTurn k p (pre.getLastD 0, cur) = .again (x, k.next x) := by
        rw [hcur]
        show (if x ≠ 0 then _ else _) = _
        rw [if_pos hne, if_neg hxp]
      have hlast : x = (pre ++ [x]).getLastD 0 := by simp
      rw [loop_of_again hturn]
      nth_rewrite 1 [hlast]
      rw [ih (pre ++ [x]) hchain.2 hsplit.2 (fun h => hnull (List.mem_cons_of_mem x h))
        (by simpa using hbound)]
      simp

theorem unlink_head (k : Kernel) (p : Nat) :
    unlink k 0 p = k.withQueue (Function.update k.next p 0) (k.next p)
      (if p = k.queueTail then 0 else k.queueTail) (sub32 k.queueSize 1) := by
  unfold unlink
  rw [if_neg (by simp)]
  by_cases htail : p = k.queueTail
  · simp only [if_pos htail]
    rfl
  · simp only [if_neg htail]
    rfl

theorem unlink_inner {k : Kernel} {prev p : Nat} (hprev : prev ≠ 0) :
    unlink k prev p = k.withQueue
      (Function.update (Function.update k.next prev (k.next p)) p 0) k.queueHead
      (if p = k.queueTail then prev else k.queueTail) (sub32 k.queueSize 1) := by
  have htails : (k.setNext prev (k.next p)).queueTail = k.queueTail := rfl
  unfold unlink
  rw [if_pos hprev]
  by_cases htail : p = k.queueTail
  · simp only [htails, if_pos htail]
    rfl
  · simp only [htails, if_neg htail]
    rfl

theorem schedulerDequeue_spec {k : Kernel} {p : Nat} {xs ys : List Nat}
    (hq : QueueIs k (xs ++ p :: ys)) (hlen : (xs ++ p :: ys).length < 2 ^ 32) :
    ∃ n h t, schedulerDequeue k p = .ok (k.withQueue n h t (xs ++ ys).length) ∧
      IsQueue 0 n h t (xs ++ ys) ∧ n p = 0 ∧ ∀ x, x ∉ xs ++ p :: ys → n x = k.next x := by
  have hp : p ≠ 0 := fun hp => hq.queue.nonNull (by simp [hp])
  have hhead : k.queueHead ≠ 0 := fun h => by simpa using hq.queue.head_eq_null_iff.mp h
  have hsize : sub32 k.queueSize 1 = (xs ++ ys).length := by
    rw [hq.size, sub32_of_le (by simp; omega) hlen]
    simp
  have hbound : xs.length < turns := by
    rw [List.length_append, List.length_cons] at hlen
    unfold turns
    omega
  have hloop := dequeue_loop [] hq.queue.chain hq.queue.nodup hq.queue.nonNull hbound
  rw [List.getLastD_nil, List.nil_append] at hloop
  unfold schedulerDequeue
  rw [if_neg (not_or.mpr ⟨hp, hhead⟩), hloop]
  rcases List.eq_nil_or_concat xs with rfl | ⟨zs, z, rfl⟩
  · refine ⟨Function.update k.next p 0, k.next p, if p = k.queueTail then 0 else k.queueTail, ?_,
      ?_, Function.update_self p 0 k.next, ?_⟩
    · show Except.ok (unlink k 0 p) = _
      rw [unlink_head, hsize]
    · exact hq.queue.pop.update_of_notMem (List.nodup_cons.mp hq.queue.nodup).1 0
    · intro x hx
      exact Function.update_of_ne (fun h => hx (by simp [h])) 0 k.next
  · rw [List.concat_eq_append] at hq hsize ⊢
    have hz : z ≠ 0 := fun hz => hq.queue.nonNull (by simp [hz])
    have hqueue : IsQueue 0 k.next k.queueHead k.queueTail (zs ++ z :: p :: ys) := by
      simpa using hq.queue
    have hunlinked := hqueue.unlink_inner
    refine ⟨Function.update (Function.update k.next z (k.next p)) p 0, k.queueHead,
      if p = k.queueTail then z else k.queueTail, ?_, by simpa using hunlinked,
      Function.update_self p 0 _, ?_⟩
    · have hlast : (zs ++ [z]).getLastD 0 = z := by simp
      rw [hlast, unlink_inner hz, hsize]
    · intro x hx
      have hxp : x ≠ p := fun h => hx (by simp [h])
      have hxz : x ≠ z := fun h => hx (by simp [h])
      rw [Function.update_of_ne hxp, Function.update_of_ne hxz]

/-! ## Picking the next process -/

theorem rotate_spec {k : Kernel} {x : Nat} {xs : List Nat} (hq : QueueIs k (x :: xs)) :
    ∃ n h t, rotate k = k.withQueue n h t k.queueSize ∧ IsQueue 0 n h t (xs ++ [x]) ∧
      ∀ y, y ∉ x :: xs → n y = k.next y := by
  have hhead : k.queueHead = x := hq.queue.head_eq
  have hx : x ≠ 0 := fun hx => hq.queue.nonNull (by simp [hx])
  have hxs : x ∉ xs := (List.nodup_cons.mp hq.queue.nodup).1
  unfold rotate
  rw [hhead]
  by_cases hlast : k.next x = 0
  · have hnil := hq.queue.next_eq_null_iff.mp hlast
    subst hnil
    refine ⟨Function.update k.next x 0, x, x, ?_, IsQueue.singleton hx, ?_⟩
    · simp only [hlast]
      rfl
    · intro y hy
      exact Function.update_of_ne (fun h => hy (by simp [h])) 0 k.next
  · have hne : xs ≠ [] := fun hnil => hlast (hq.queue.next_eq_null_iff.mpr hnil)
    have htail : x ≠ k.queueTail := fun h => hne (hq.queue.head_eq_tail_iff.mp h)
    have hpop := hq.queue.pop.update_of_notMem hxs 0
    rw [if_neg htail] at hpop
    refine ⟨Function.update (Function.update k.next x 0) k.queueTail x, k.next x, x, ?_,
      hpop.snoc hne hxs hx (Function.update_self x 0 k.next), ?_⟩
    · simp only [if_neg hlast]
      show (if k.next x = 0 then _ else _) = _
      rw [if_neg hlast]
      rfl
    · intro y hy
      have hyx : y ≠ x := fun h => hy (by simp [h])
      have hyt : y ≠ k.queueTail := fun h => hy (h ▸ hq.queue.tail_mem (by simp))
      rw [Function.update_of_ne hyt, Function.update_of_ne hyx]

/-- How `pick_next` ends on a queue `q`: the first ready process goes to the
tail, behind the ones passed over, or there is none. -/
inductive Picked (k : Kernel) (q : List Nat) : List Nat → Nat → Prop
  | found {xs ys : List Nat} {r : Nat} (hq : q = xs ++ r :: ys)
      (hready : (k.pcb r).state = .ready) (hpassed : ∀ x ∈ xs, (k.pcb x).state ≠ .ready) :
      Picked k q (ys ++ xs ++ [r]) r
  | none (hnone : ∀ x ∈ q, (k.pcb x).state ≠ .ready) : Picked k q q 0

theorem pick_loop {k₀ k : Kernel} {q ys xs : List Nat} {bound : Nat}
    (hk : ∃ n h t, k = k₀.withQueue n h t k₀.queueSize ∧ IsQueue 0 n h t (ys ++ xs) ∧
      ∀ y, y ∉ q → n y = k₀.next y)
    (hq : q = xs ++ ys) (hsize : k₀.queueSize = q.length)
    (hpassed : ∀ x ∈ xs, (k₀.pcb x).state ≠ .ready) (hbound : ys.length < bound) :
    ∃ n h t q' r, loop pickTurn bound (k, xs.length) =
        .ok (k₀.withQueue n h t k₀.queueSize, r) ∧
      IsQueue 0 n h t q' ∧ (∀ y, y ∉ q → n y = k₀.next y) ∧ Picked k₀ q q' r := by
  induction ys generalizing k xs bound with
  | nil =>
      obtain ⟨n, h, t, rfl, hqueue, hsame⟩ := hk
      obtain ⟨b, rfl⟩ : ∃ b, bound = b + 1 := Nat.exists_eq_add_one.mpr hbound
      rw [List.append_nil] at hq
      refine ⟨n, h, t, q, 0, ?_, by rw [hq]; exact hqueue, hsame, .none ?_⟩
      · apply loop_of_done
        show (if xs.length < k₀.queueSize then _ else _) = _
        rw [if_neg (by rw [hsize, hq]; exact Nat.lt_irrefl _)]
      · rw [hq]
        exact hpassed
  | cons y ys ih =>
      obtain ⟨n, h, t, rfl, hqueue, hsame⟩ := hk
      obtain ⟨b, rfl⟩ : ∃ b, bound = b + 1 :=
        Nat.exists_eq_add_one.mpr (Nat.zero_lt_of_lt hbound)
      have hmem : ∀ z, z ∈ y :: (ys ++ xs) ↔ z ∈ q := by
        intro z
        rw [hq]
        simp only [List.mem_cons, List.mem_append]
        tauto
      have hlen : (y :: (ys ++ xs)).length = k₀.queueSize := by
        rw [hsize, hq]
        simp only [List.length_cons, List.length_append]
        omega
      obtain ⟨n', h', t', hrot, hqueue', hsame'⟩ :=
        rotate_spec (k := k₀.withQueue n h t k₀.queueSize) ⟨hqueue, hlen.symm⟩
      have hhead : h = y := hqueue.head_eq
      subst hhead
      have hlt : xs.length < k₀.queueSize := by
        rw [hsize, hq]
        simp
      have hkeep : ∀ z, z ∉ q → n' z = k₀.next z := by
        intro z hz
        rw [hsame' z (fun hin => hz ((hmem z).mp hin))]
        exact hsame z hz
      have hturn : pickTurn (k₀.withQueue n h t k₀.queueSize, xs.length) =
          if (k₀.pcb h).state = .ready then .done (k₀.withQueue n' h' t' k₀.queueSize, h)
          else .again (k₀.withQueue n' h' t' k₀.queueSize, xs.length + 1) := by
        show (if xs.length < k₀.queueSize then _ else _) = _
        rw [if_pos hlt]
        simp only [hrot, withQueue_queueHead, withQueue_pcb, withQueue_withQueue,
          withQueue_queueSize]
      by_cases hready : (k₀.pcb h).state = .ready
      · rw [if_pos hready] at hturn
        exact ⟨n', h', t', _, h, loop_of_done hturn, hqueue', hkeep, .found hq hready hpassed⟩
      · rw [if_neg hready] at hturn
        have hpassed' : ∀ z ∈ xs ++ [h], (k₀.pcb z).state ≠ .ready := by
          intro z hz
          rcases List.mem_append.mp hz with hz | hz
          · exact hpassed z hz
          · rw [List.mem_singleton.mp hz]
            exact hready
        have hstep := @ih (k₀.withQueue n' h' t' k₀.queueSize) (xs ++ [h]) b
          ⟨n', h', t', rfl, by simpa using hqueue', hkeep⟩ (by simp [hq]) hpassed'
          (by simpa using hbound)
        rw [loop_of_again hturn]
        simpa using hstep

theorem pickNext_spec {k : Kernel} {q : List Nat} (hq : QueueIs k q) (hlen : q.length < turns) :
    ∃ n h t q' r, pickNext k = .ok (k.withQueue n h t k.queueSize, r) ∧
      IsQueue 0 n h t q' ∧ (∀ y, y ∉ q → n y = k.next y) ∧ Picked k q q' r := by
  unfold pickNext
  by_cases hempty : k.queueHead = 0
  · have hnil := hq.queue.head_eq_null_iff.mp hempty
    subst hnil
    rw [if_pos hempty]
    exact ⟨k.next, k.queueHead, k.queueTail, [], 0, rfl, hq.queue, fun _ _ => rfl, .none (by simp)⟩
  · rw [if_neg hempty]
    have hstart : ∃ n h t, k = k.withQueue n h t k.queueSize ∧ IsQueue 0 n h t (q ++ []) ∧
        ∀ y, y ∉ q → n y = k.next y :=
      ⟨k.next, k.queueHead, k.queueTail, rfl, by simpa using hq.queue, fun _ _ => rfl⟩
    exact pick_loop hstart rfl hq.size (by simp) hlen

end StakOS.Process
