import Mathlib.Logic.Relation
import StakOS.Kmalloc.Refine

/-!
# `kmalloc` statement by statement

The body of `kmalloc`, with `split` inlined at its only call, as a machine that
executes one C statement at a time.  Interrupts are enabled during the call, so
these are the points at which the timer handler can run.  Left alone, the
machine computes `kmalloc`.
-/

namespace StakOS.Kmalloc

open StakOS.Lib.Memory StakOS.Lib.Loop
open Relation (ReflTransGen)

/-- The next statement of the call. -/
inductive Pc where
  /-- `if (size == 0 || !heap_start) return NULL` -/
  | entry
  /-- `size = (size + 3) & ~3` -/
  | align
  /-- `cur = heap_start` -/
  | start
  /-- `while (cur)` -/
  | loop
  /-- `if (cur->free && cur->size >= size)` -/
  | test
  /-- `cur = cur->next` -/
  | advance
  /-- `if (blk->size <= size + BLOCK_HEADER_SIZE + MIN_SPLIT_SIZE) return` -/
  | splitTest
  /-- `new_blk = (uint8_t *)blk + BLOCK_HEADER_SIZE + size` -/
  | carve
  /-- `new_blk->magic = BLOCK_MAGIC` -/
  | newMagic
  /-- `new_blk->size = blk->size - size - BLOCK_HEADER_SIZE` -/
  | newSize
  /-- `new_blk->free = 1` -/
  | newFree
  /-- `new_blk->next = blk->next` -/
  | newNext
  /-- `blk->size = size` -/
  | shrink
  /-- `blk->next = new_blk` -/
  | link
  /-- `cur->free = 0` -/
  | take
  /-- `return (uint8_t *)cur + BLOCK_HEADER_SIZE` -/
  | ret
  /-- The call has returned. -/
  | done (p : Nat)
deriving DecidableEq

/-- The local variables of a call in progress. -/
structure Call where
  pc : Pc
  sz : Nat
  cur : Nat
  newBlk : Nat

def Call.goto (c : Call) (pc : Pc) : Call := { c with pc := pc }

def Heap.setMem (h : Heap) (m : Mem) : Heap := { h with mem := m }

@[simp] theorem Heap.setMem_mem (h : Heap) (m : Mem) : (h.setMem m).mem = m := rfl
@[simp] theorem Heap.setMem_heapStart (h : Heap) (m : Mem) :
    (h.setMem m).heapStart = h.heapStart := rfl

/-- Execute one statement. -/
def kmallocStep (h : Heap) (c : Call) : Heap × Call :=
  match c.pc with
  | .entry =>
      if c.sz = 0 ∨ h.heapStart = 0 then (h, c.goto (.done 0)) else (h, c.goto .align)
  | .align => (h, { c with pc := .start, sz := alignSize c.sz })
  | .start => (h, { c with pc := .loop, cur := h.heapStart })
  | .loop => if c.cur ≠ 0 then (h, c.goto .test) else (h, c.goto (.done 0))
  | .test =>
      if free h.mem c.cur ≠ 0 ∧ size h.mem c.cur ≥ c.sz then (h, c.goto .splitTest)
      else (h, c.goto .advance)
  | .advance => (h, { c with pc := .loop, cur := next h.mem c.cur })
  | .splitTest =>
      if size h.mem c.cur ≤ add32 (add32 c.sz blockHeaderSize) minSplitSize then
        (h, c.goto .take)
      else (h, c.goto .carve)
  | .carve => (h, { c with pc := .newMagic, newBlk := add32 (add32 c.cur blockHeaderSize) c.sz })
  | .newMagic => (h.setMem (setMagic h.mem c.newBlk blockMagic), c.goto .newSize)
  | .newSize =>
      (h.setMem (setSize h.mem c.newBlk
        (sub32 (sub32 (size h.mem c.cur) c.sz) blockHeaderSize)), c.goto .newFree)
  | .newFree => (h.setMem (setFree h.mem c.newBlk 1), c.goto .newNext)
  | .newNext => (h.setMem (setNext h.mem c.newBlk (next h.mem c.cur)), c.goto .shrink)
  | .shrink => (h.setMem (setSize h.mem c.cur c.sz), c.goto .link)
  | .link => (h.setMem (setNext h.mem c.cur c.newBlk), c.goto .take)
  | .take => (h.setMem (setFree h.mem c.cur 0), c.goto .ret)
  | .ret => (h, c.goto (.done (add32 c.cur blockHeaderSize)))
  | .done _ => (h, c)

/-! ## Without interrupts the machine computes `kmalloc` -/

/-- One statement as a relation on the heap and the call. -/
def Statement (s s' : Heap × Call) : Prop := s' = kmallocStep s.1 s.2

theorem Statement.step (h : Heap) (c : Call) : ReflTransGen Statement (h, c) (kmallocStep h c) :=
  ReflTransGen.single rfl

/-- The statements of `split` and the two behind it. -/
theorem split_statements (h : Heap) (c : Call) (hpc : c.pc = .splitTest) :
    ∃ c', ReflTransGen Statement (h, c)
      (h.setMem (setFree (split h.mem c.cur c.sz) c.cur 0), c') ∧
      c'.pc = .done (add32 c.cur blockHeaderSize) := by
  obtain ⟨pc, sz, cur, newBlk⟩ := c
  cases hpc
  by_cases hsmall : size h.mem cur ≤ add32 (add32 sz blockHeaderSize) minSplitSize
  · have hfirst := Statement.step h ⟨.splitTest, sz, cur, newBlk⟩
    rw [kmallocStep, if_pos hsmall] at hfirst
    have htake := Statement.step h ⟨.take, sz, cur, newBlk⟩
    have hsplit : split h.mem cur sz = h.mem := if_pos hsmall
    refine ⟨⟨.done (add32 cur blockHeaderSize), sz, cur, newBlk⟩, ?_, rfl⟩
    rw [hsplit]
    exact hfirst.trans (htake.trans (Statement.step _ _))
  · have hfirst := Statement.step h ⟨.splitTest, sz, cur, newBlk⟩
    rw [kmallocStep, if_neg hsmall] at hfirst
    have hsplit : split h.mem cur sz = _ := if_neg hsmall
    refine ⟨⟨.done (add32 cur blockHeaderSize), sz, cur,
      add32 (add32 cur blockHeaderSize) sz⟩, ?_, rfl⟩
    rw [hsplit]
    refine hfirst.trans ?_
    -- the statements from `carve` to `ret`
    refine (Statement.step h ⟨.carve, sz, cur, newBlk⟩).trans ?_
    refine (Statement.step _ _).trans ((Statement.step _ _).trans ?_)
    refine (Statement.step _ _).trans ((Statement.step _ _).trans ?_)
    refine (Statement.step _ _).trans ((Statement.step _ _).trans ?_)
    exact (Statement.step _ _).trans (Statement.step _ _)

/-- The loop of `kmalloc`, turn by turn. -/
theorem search_statements (h : Heap) (sz newBlk : Nat) {bound cur : Nat} {r : Mem × Nat}
    (hloop : loop (searchTurn h.mem sz) bound cur = .ok r) :
    ∃ c', ReflTransGen Statement (h, ⟨.loop, sz, cur, newBlk⟩) (h.setMem r.1, c') ∧
      c'.pc = .done r.2 := by
  induction bound generalizing cur with
  | zero => cases hloop
  | succ bound ih =>
      have hhead := Statement.step h ⟨.loop, sz, cur, newBlk⟩
      by_cases hcur : cur ≠ 0
      · rw [kmallocStep, if_pos hcur] at hhead
        have htest := Statement.step h ⟨.test, sz, cur, newBlk⟩
        by_cases hfit : free h.mem cur ≠ 0 ∧ size h.mem cur ≥ sz
        · have hturn : searchTurn h.mem sz cur =
              .done (setFree (split h.mem cur sz) cur 0, add32 cur blockHeaderSize) := by
            unfold searchTurn
            rw [if_pos hcur, if_pos hfit]
          rw [loop_of_done hturn] at hloop
          cases hloop
          rw [kmallocStep, if_pos hfit] at htest
          obtain ⟨c', hsplit, hpc⟩ := split_statements h ⟨.splitTest, sz, cur, newBlk⟩ rfl
          exact ⟨c', hhead.trans (htest.trans hsplit), hpc⟩
        · have hturn : searchTurn h.mem sz cur = .again (next h.mem cur) := by
            unfold searchTurn
            rw [if_pos hcur, if_neg hfit]
          rw [loop_of_again hturn] at hloop
          rw [kmallocStep, if_neg hfit] at htest
          have hadv := Statement.step h ⟨.advance, sz, cur, newBlk⟩
          obtain ⟨c', hrest, hpc⟩ := ih hloop
          exact ⟨c', hhead.trans (htest.trans (hadv.trans hrest)), hpc⟩
      · have hturn : searchTurn h.mem sz cur = .done (h.mem, 0) := if_neg hcur
        rw [loop_of_done hturn] at hloop
        cases hloop
        rw [kmallocStep, if_neg hcur] at hhead
        exact ⟨⟨.done 0, sz, cur, newBlk⟩, hhead, rfl⟩

/-- What a call of `kmalloc` returns, its statements reach. -/
theorem kmalloc_statements {h h' : Heap} {sz p : Nat} (hcall : kmalloc h sz = .ok (h', p)) :
    ∃ c', ReflTransGen Statement (h, ⟨.entry, sz, 0, 0⟩) (h', c') ∧ c'.pc = .done p := by
  have hentry := Statement.step h ⟨.entry, sz, 0, 0⟩
  by_cases hnone : sz = 0 ∨ h.heapStart = 0
  · rw [kmalloc, if_pos hnone] at hcall
    cases hcall
    rw [kmallocStep, if_pos hnone] at hentry
    exact ⟨⟨.done 0, sz, 0, 0⟩, hentry, rfl⟩
  · rw [kmalloc, if_neg hnone] at hcall
    obtain ⟨r, hloop, hret⟩ := bind_eq_ok.mp hcall
    cases hret
    rw [kmallocStep, if_neg hnone] at hentry
    obtain ⟨c', hsearch, hpc⟩ := search_statements h (alignSize sz) 0 hloop
    refine ⟨c', hentry.trans ?_, hpc⟩
    refine (Statement.step h ⟨.align, sz, 0, 0⟩).trans ?_
    exact (Statement.step h ⟨.start, alignSize sz, 0, 0⟩).trans hsearch

end StakOS.Kmalloc
