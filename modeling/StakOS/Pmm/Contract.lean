import StakOS.Pmm.Init
import Mathlib.Data.List.Dedup
import Mathlib.Logic.Relation

/-!
# The allocator against the set of free frames

Over any history of allocations and frees the bitmap is the bitmap `pmm_init`
left behind plus the frames handed out since, and the counter is low by exactly
their number.  The early exit on the counter and the scan of the bitmap then
agree with the plain reading: hand out the lowest free frame if there is one.
-/

namespace StakOS.Pmm

open StakOS.Lib.Memory

/-! ## Memory maps -/

/-- A memory map without overlaps, as the boot loader hands it over: no frame
lies in two of its available entries. -/
def NonOverlapping (es : List MmapEntry) : Prop :=
  es.Pairwise fun e f => (entryFrames e).Disjoint (entryFrames f)

/-- On a map without overlaps the counter cannot wrap during the walk: no frame
is counted twice. -/
theorem sum_released_lt {es : List MmapEntry} (h : NonOverlapping es) :
    (es.map fun e => (entryFrames e).length).sum < 2 ^ 32 := by
  have hnodup : (es.flatMap entryFrames).Nodup :=
    List.nodup_flatMap.mpr ⟨fun e _ => entryFrames_nodup e, h⟩
  have hsub : es.flatMap entryFrames ⊆ List.range maxFrames := by
    intro f hf
    rw [List.mem_flatMap] at hf
    obtain ⟨e, -, hfe⟩ := hf
    exact List.mem_range.mpr (entryFrames_lt hfe)
  have hlen := (hnodup.subperm hsub).length_le
  rw [List.length_flatMap, List.length_range] at hlen
  calc (es.map fun e => (entryFrames e).length).sum ≤ maxFrames := hlen
    _ < 2 ^ 32 := by decide

/-! ## Histories -/

/-- An allocator together with the addresses it has handed out and not taken
back. -/
structure History where
  pmm : State
  out : List Nat

/-- One call.  Only an address that was handed out and not freed since may be
freed. -/
inductive Call : History → History → Prop
  | alloc (h : History) :
      Call h ⟨(pmmAllocFrame h.pmm).1,
        if (pmmAllocFrame h.pmm).2 = 0 then h.out else (pmmAllocFrame h.pmm).2 :: h.out⟩
  | free (h : History) (a : Nat) (ha : a ∈ h.out) :
      Call h ⟨pmmFreeFrame h.pmm a, h.out.erase a⟩

/-- What a history started at `s₀` has handed out: the bitmap is the one of `s₀`
with those frames set, and the counter is low by their number. -/
structure HandedOut (s₀ : State) (h : History) : Prop where
  nodup : h.out.Nodup
  handed : ∀ a ∈ h.out, ∃ f, a = f * pageSize ∧ f < maxFrames ∧ frameTest s₀ f = false
  bits : ∀ f, frameTest h.pmm f = (frameTest s₀ f || decide (f * pageSize ∈ h.out))
  counter : h.pmm.freeFrames + h.out.length = s₀.freeFrames

/-- How a history started at `s₀` stands to it. -/
structure Ledger (s₀ : State) (h : History) : Prop where
  nodup : h.out.Nodup
  handed : ∀ a ∈ h.out, ∃ f, a = f * pageSize ∧ f < maxFrames ∧ frameTest s₀ f = false
  bits : ∀ f, frameTest h.pmm f = (frameTest s₀ f || decide (f * pageSize ∈ h.out))
  counter : h.pmm.freeFrames + h.out.length = s₀.freeFrames
  covers : (freeSet h.pmm).card ≤ h.pmm.freeFrames

theorem Ledger.handedOut {s₀ : State} {h : History} (hl : Ledger s₀ h) : HandedOut s₀ h :=
  ⟨hl.nodup, hl.handed, hl.bits, hl.counter⟩

theorem HandedOut.ledger {s₀ : State} {h : History} (hh : HandedOut s₀ h)
    (hcovers : (freeSet h.pmm).card ≤ h.pmm.freeFrames) : Ledger s₀ h :=
  ⟨hh.nodup, hh.handed, hh.bits, hh.counter, hcovers⟩

theorem handedOut_start (s₀ : State) : HandedOut s₀ ⟨s₀, []⟩ where
  nodup := List.nodup_nil
  handed := by simp
  bits := by simp
  counter := by simp

theorem ledger_start {s₀ : State} (h : (freeSet s₀).card ≤ s₀.freeFrames) :
    Ledger s₀ ⟨s₀, []⟩ :=
  (handedOut_start s₀).ledger h

theorem mul_pageSize_inj {f g : Nat} : f * pageSize = g * pageSize ↔ f = g := by
  unfold pageSize
  omega

/-- A frame that is free now was free at the start and is not handed out. -/
theorem HandedOut.free_iff {s₀ : State} {h : History} (hh : HandedOut s₀ h) {f : Nat} :
    frameTest h.pmm f = false ↔ frameTest s₀ f = false ∧ f * pageSize ∉ h.out := by
  rw [hh.bits f]
  simp

theorem HandedOut.ne_zero {s₀ : State} {h : History} (hh : HandedOut s₀ h)
    (hzero : frameTest s₀ 0 = true) {f : Nat} (hf : frameTest h.pmm f = false) :
    f * pageSize ≠ 0 := by
  have hfree := (hh.free_iff.mp hf).1
  have hf0 : f ≠ 0 := by
    intro heq
    rw [heq, hzero] at hfree
    exact absurd hfree (by decide)
  unfold pageSize
  omega

/-- The early exit on the counter never hides a free frame. -/
theorem Ledger.alloc_cases {s₀ : State} {h : History} (hl : Ledger s₀ h)
    (hzero : frameTest s₀ 0 = true) :
    (∃ f, 0 < h.pmm.freeFrames ∧ 0 < f ∧ f < maxFrames ∧ frameTest h.pmm f = false ∧
      frameTest s₀ f = false ∧ f * pageSize ∉ h.out ∧
      (∀ g, g < f → frameTest h.pmm g = true) ∧
      pmmAllocFrame h.pmm =
        ((frameSet h.pmm f).setFree (h.pmm.freeFrames - 1), f * pageSize)) ∨
    ((∀ f, f < maxFrames → frameTest h.pmm f = true) ∧ pmmAllocFrame h.pmm = (h.pmm, 0)) := by
  rcases pmmAllocFrame_cases h.pmm with ⟨f, hpos, hlt, hfree, hlow, heq⟩ | ⟨hwhy, heq⟩
  · left
    have hsplit := hl.handedOut.free_iff.mp hfree
    have hne := hl.handedOut.ne_zero hzero hfree
    have hf0 : 0 < f := Nat.pos_of_mul_pos_right (Nat.pos_of_ne_zero hne)
    exact ⟨f, hpos, hf0, hlt, hfree, hsplit.1, hsplit.2, hlow, heq⟩
  · right
    refine ⟨?_, heq⟩
    rcases hwhy with hempty | hfull
    · have hnone : (freeSet h.pmm).card = 0 := by
        have := hl.covers
        omega
      rw [Finset.card_eq_zero] at hnone
      intro f hf
      by_contra hne
      have hmem : f ∈ freeSet h.pmm := mem_freeSet.mpr ⟨hf, by simpa using hne⟩
      rw [hnone] at hmem
      exact absurd hmem (Finset.notMem_empty f)
    · exact hfull

theorem HandedOut.alloc {s₀ : State} {h : History} (hh : HandedOut s₀ h)
    (hzero : frameTest s₀ 0 = true) :
    HandedOut s₀ ⟨(pmmAllocFrame h.pmm).1,
      if (pmmAllocFrame h.pmm).2 = 0 then h.out else (pmmAllocFrame h.pmm).2 :: h.out⟩ := by
  rcases pmmAllocFrame_cases h.pmm with ⟨f, hpos, hlt, hfree, -, heq⟩ | ⟨-, heq⟩
  · have hne := hh.ne_zero hzero hfree
    obtain ⟨hfree₀, hnew⟩ := hh.free_iff.mp hfree
    rw [heq, if_neg hne]
    constructor
    · exact List.nodup_cons.mpr ⟨hnew, hh.nodup⟩
    · intro a ha
      rcases List.mem_cons.mp ha with rfl | ha
      · exact ⟨f, rfl, hlt, hfree₀⟩
      · exact hh.handed a ha
    · intro g
      rw [frameTest_setFree, frameTest_frameSet, hh.bits g]
      by_cases hgf : g = f
      · simp [hgf]
      · have hother : g * pageSize ≠ f * pageSize := fun h => hgf (mul_pageSize_inj.mp h)
        simp only [hgf, decide_false, Bool.or_false, List.mem_cons, hother, false_or]
    · have hcounter := hh.counter
      simp only [setFree_freeFrames, List.length_cons]
      omega
  · rw [heq, if_pos rfl]
    exact hh

theorem Ledger.alloc {s₀ : State} {h : History} (hl : Ledger s₀ h)
    (hzero : frameTest s₀ 0 = true) :
    Ledger s₀ ⟨(pmmAllocFrame h.pmm).1,
      if (pmmAllocFrame h.pmm).2 = 0 then h.out else (pmmAllocFrame h.pmm).2 :: h.out⟩ := by
  apply (hl.handedOut.alloc hzero).ledger
  have hcovers := hl.covers
  rcases hl.alloc_cases hzero with ⟨f, hpos, -, hlt, hfree, -, -, -, heq⟩ | ⟨-, heq⟩
  · have hmem : f ∈ freeSet h.pmm := mem_freeSet.mpr ⟨hlt, hfree⟩
    rw [heq, freeSet_setFree, freeSet_frameSet, Finset.card_erase_of_mem hmem,
      setFree_freeFrames]
    omega
  · rw [heq]
    exact hcovers

/-- What freeing an outstanding frame does. -/
theorem HandedOut.free_eq {s₀ : State} {h : History} (hh : HandedOut s₀ h)
    (hword : s₀.freeFrames < 2 ^ 32) {f : Nat} (ha : f * pageSize ∈ h.out) (hlt : f < maxFrames) :
    pmmFreeFrame h.pmm (f * pageSize) =
      (frameClear h.pmm f).setFree (h.pmm.freeFrames + 1) := by
  have hframe : f * pageSize / pageSize = f := Nat.mul_div_cancel f (by decide)
  have hused : frameTest h.pmm f = true := by
    rw [hh.bits f]
    simp [ha]
  have hlen : 0 < h.out.length := List.length_pos_of_mem ha
  have hcounter := hh.counter
  have hcount : (h.pmm.freeFrames + 1) % 2 ^ 32 = h.pmm.freeFrames + 1 :=
    Nat.mod_eq_of_lt (by omega)
  have heq := pmmFreeFrame_of_used (s := h.pmm) (a := f * pageSize)
    (by rw [hframe]; exact hlt) (by rw [hframe]; exact hused)
  rwa [hframe, hcount] at heq

theorem HandedOut.free {s₀ : State} {h : History} (hh : HandedOut s₀ h)
    (hword : s₀.freeFrames < 2 ^ 32) {a : Nat} (ha : a ∈ h.out) :
    HandedOut s₀ ⟨pmmFreeFrame h.pmm a, h.out.erase a⟩ := by
  obtain ⟨f, rfl, hlt, hfree₀⟩ := hh.handed a ha
  have hlen : 0 < h.out.length := List.length_pos_of_mem ha
  have hcounter := hh.counter
  rw [hh.free_eq hword ha hlt]
  constructor
  · exact hh.nodup.erase _
  · intro b hb
    exact hh.handed b (List.mem_of_mem_erase hb)
  · intro g
    rw [frameTest_setFree, frameTest_frameClear, hh.bits g]
    by_cases hgf : g = f
    · have hgone : f * pageSize ∉ h.out.erase (f * pageSize) := hh.nodup.not_mem_erase
      simp [hgf, hgone, hfree₀]
    · have hother : g * pageSize ≠ f * pageSize := fun h => hgf (mul_pageSize_inj.mp h)
      simp [hgf, List.mem_erase_of_ne hother]
  · rw [setFree_freeFrames, List.length_erase_of_mem ha]
    omega

theorem Ledger.free {s₀ : State} {h : History} (hl : Ledger s₀ h)
    (hword : s₀.freeFrames < 2 ^ 32) {a : Nat} (ha : a ∈ h.out) :
    Ledger s₀ ⟨pmmFreeFrame h.pmm a, h.out.erase a⟩ := by
  apply (hl.handedOut.free hword ha).ledger
  obtain ⟨f, rfl, hlt, -⟩ := hl.handed a ha
  have hcard : (freeSet (frameClear h.pmm f)).card ≤ (freeSet h.pmm).card + 1 := by
    rw [freeSet_frameClear hlt]
    exact Finset.card_insert_le f _
  have hcovers := hl.covers
  rw [hl.handedOut.free_eq hword ha hlt, freeSet_setFree, setFree_freeFrames]
  omega

theorem handedOut_of_calls {s₀ : State} (hzero : frameTest s₀ 0 = true)
    (hword : s₀.freeFrames < 2 ^ 32) {h : History}
    (hrun : Relation.ReflTransGen Call ⟨s₀, []⟩ h) : HandedOut s₀ h := by
  induction hrun with
  | refl => exact handedOut_start s₀
  | tail _ hcall ih =>
      cases hcall with
      | alloc => exact ih.alloc hzero
      | free a ha => exact ih.free hword ha

theorem ledger_of_calls {s₀ : State} (hzero : frameTest s₀ 0 = true)
    (hcovers : CounterCovers s₀) {h : History}
    (hrun : Relation.ReflTransGen Call ⟨s₀, []⟩ h) : Ledger s₀ h := by
  induction hrun with
  | refl => exact ledger_start hcovers.1
  | tail _ hcall ih =>
      cases hcall with
      | alloc => exact ih.alloc hzero
      | free a ha => exact ih.free hcovers.2 ha

/-- Taking everything back, in whatever order, closes the ledger. -/
theorem Ledger.free_all {s₀ : State} (hword : s₀.freeFrames < 2 ^ 32) (l : List Nat)
    {h : History} (hl : Ledger s₀ h) (hperm : l.Perm h.out) :
    Ledger s₀ ⟨l.foldl pmmFreeFrame h.pmm, []⟩ := by
  induction l generalizing h with
  | nil =>
      have hnil : h.out = [] := List.nil_perm.mp hperm
      have hh : h = ⟨h.pmm, []⟩ := by
        cases h
        simpa using hnil
      rw [List.foldl_nil, ← hh]
      exact hl
  | cons a l ih =>
      have ha : a ∈ h.out := hperm.subset (by simp)
      have hrest : l.Perm (h.out.erase a) := by
        have := hperm.erase a
        rwa [List.erase_cons_head] at this
      exact ih (hl.free hword ha) hrest

/-! ## The contract -/

/-- What an allocation does in a history that started at `s₀`: it returns the
page-aligned address of the lowest free frame, a frame that is neither handed
out nor taken since boot, and sets its bit; or it returns 0 because no bit is
clear. -/
def AllocContract (s₀ : State) (h : History) : Prop :=
  ((pmmAllocFrame h.pmm).2 = 0 ↔ ∀ f, f < maxFrames → frameTest h.pmm f = true) ∧
  ((pmmAllocFrame h.pmm).2 = 0 → (pmmAllocFrame h.pmm).1 = h.pmm) ∧
  ((pmmAllocFrame h.pmm).2 ≠ 0 → ∃ f,
    (pmmAllocFrame h.pmm).2 = f * pageSize ∧ f * pageSize < 128 * 1024 * 1024 ∧
    frameTest h.pmm f = false ∧ (∀ g, g < f → frameTest h.pmm g = true) ∧
    f * pageSize ∉ h.out ∧ frameTest s₀ f = false ∧
    ∀ g, frameTest (pmmAllocFrame h.pmm).1 g = (frameTest h.pmm g || decide (g = f)))

/-- Freeing an outstanding frame clears its bit and no other. -/
def FreeContract (h : History) : Prop :=
  ∀ a ∈ h.out, ∀ g,
    frameTest (pmmFreeFrame h.pmm a) g = (frameTest h.pmm g && !decide (g * pageSize = a))

/-- Freeing all outstanding frames, in any order, restores bitmap and counter. -/
def RestoreContract (s₀ : State) (h : History) : Prop :=
  ∀ l : List Nat, l.Perm h.out →
    (l.foldl pmmFreeFrame h.pmm).bitmap = s₀.bitmap ∧
      (l.foldl pmmFreeFrame h.pmm).freeFrames = s₀.freeFrames

theorem Ledger.allocContract {s₀ : State} {h : History} (hl : Ledger s₀ h)
    (hzero : frameTest s₀ 0 = true) : AllocContract s₀ h := by
  unfold AllocContract
  rcases hl.alloc_cases hzero with
    ⟨f, -, hf0, hlt, hfree, hfree₀, hnew, hlow, heq⟩ | ⟨hfull, heq⟩
  · have hne : f * pageSize ≠ 0 := by
      unfold pageSize
      omega
    rw [heq]
    refine ⟨⟨fun h => absurd h hne, fun hall => ?_⟩, fun h => absurd h hne, fun _ => ?_⟩
    · rw [hall f hlt] at hfree
      exact absurd hfree (by decide)
    · refine ⟨f, rfl, ?_, hfree, hlow, hnew, hfree₀, fun g => ?_⟩
      · unfold pageSize maxFrames at *
        omega
      · rw [frameTest_setFree, frameTest_frameSet]
  · rw [heq]
    exact ⟨⟨fun _ => hfull, fun _ => rfl⟩, fun _ => rfl, fun h => absurd rfl h⟩

theorem Ledger.freeContract {s₀ : State} {h : History} (hl : Ledger s₀ h) :
    FreeContract h := by
  intro a ha g
  obtain ⟨f, rfl, hlt, -⟩ := hl.handed a ha
  have hframe : f * pageSize / pageSize = f := Nat.mul_div_cancel f (by decide)
  have hused : frameTest h.pmm f = true := by
    rw [hl.bits f]
    simp [ha]
  rw [pmmFreeFrame_of_used (by rw [hframe]; exact hlt) (by rw [hframe]; exact hused),
    frameTest_setFree, hframe, frameTest_frameClear]
  simp only [mul_pageSize_inj]

theorem Ledger.restoreContract {s₀ : State} {h : History} (hl : Ledger s₀ h)
    (hword : s₀.freeFrames < 2 ^ 32) : RestoreContract s₀ h := by
  intro l hperm
  have hclosed := hl.free_all hword l hperm
  refine ⟨bitmap_ext fun f => ?_, ?_⟩
  · simpa using hclosed.bits f
  · simpa using hclosed.counter

/-- **The physical allocator's contract**, from any state `pmm_init` produces on
a memory map without overlaps and over any history of calls. -/
theorem pmm_contract {m : Mem} {mbootPtr kernelEnd : Nat} {s₀ : State}
    (hinit : pmmInit m mbootPtr kernelEnd = some s₀)
    (hmap : ∀ es, memoryMap m mbootPtr = some es → NonOverlapping es)
    {h : History} (hrun : Relation.ReflTransGen Call ⟨s₀, []⟩ h) :
    AllocContract s₀ h ∧ FreeContract h ∧ RestoreContract s₀ h := by
  obtain ⟨es, hes, -⟩ := pmmInit_eq_foldl hinit
  have hcovers := pmmInit_counterCovers hinit hes (sum_released_lt (hmap es hes))
  have hzero := pmmInit_frame_zero hinit
  have hl := ledger_of_calls hzero hcovers hrun
  exact ⟨hl.allocContract hzero, hl.freeContract, hl.restoreContract hcovers.2⟩

/-- A boot information block at `0x9000` with one memory-map tag and, in it, one
available entry of three frames at 4 MB. -/
def bootBlock : Mem :=
  [(0x9008, 6), (0x900C, 40), (0x9010, 24), (0x9018, 0x400000), (0x9020, 0x3000),
    (0x9028, 1)].foldl (fun m p => write32 m p.1 p.2) fun _ => 0

theorem pmm_contract_bootBlock :
    ∃ s₀ h, pmmInit bootBlock 0x9000 0x3000 = some s₀ ∧ h.out = [0x400000] ∧
      AllocContract s₀ h ∧ FreeContract h ∧ RestoreContract s₀ h := by
  have hmap : memoryMap bootBlock 0x9000 = some [⟨0x400000, 0x3000, 1⟩] := by decide +kernel
  have hfirst : (pmmInit bootBlock 0x9000 0x3000).map (fun s => (pmmAllocFrame s).2) =
      some 0x400000 := by decide +kernel
  obtain ⟨s₀, hinit, haddr⟩ := Option.map_eq_some_iff.mp hfirst
  refine ⟨s₀, _, hinit, ?_,
    pmm_contract hinit ?_ (Relation.ReflTransGen.single (Call.alloc _))⟩
  · rw [haddr]
    rfl
  · intro es hes
    rw [hmap] at hes
    cases hes
    exact List.pairwise_singleton _ _

end StakOS.Pmm
