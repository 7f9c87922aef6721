import Mathlib.Algebra.Order.BigOperators.Group.Finset
import Mathlib.Data.Nat.Count
import StakOS.Paging.Built

/-!
# Cloning a directory

`paging_clone_user_space` copies every page above the identity window into a frame
of its own and maps it into a new directory.  At every point of its two loops the
child stores a copy of the pages passed so far and has nothing else, all frames that
were in use before the call are as they were, and the frames taken since are the
child's.
-/

namespace StakOS.Paging

open StakOS.Lib.Memory StakOS.Lib.Loop StakOS.Lib.Ownership
open Relation (ReflTransGen)

/-! ## `paging_clone_user_space` -/

/-- The body of the inner loop.  Without a frame for the page the function frees the
child and returns. -/
def clonePage (childPd parentPt pdIdx ptIdx : Nat) (s : State) : Outcome (Turn State State) :=
  let pte := entry s.mem parentPt ptIdx
  if !hasFlag pte ptePresent then .ok (.again s)
  else
    let parentFrame := frameOf pte
    let flags := pte % 4096
    match Pmm.pmmAllocFrame s.pmm with
    | (pmm, childFrame) =>
        if childFrame = 0 then .ok (.done (pagingFreePd ⟨pmm, s.mem⟩ childPd))
        else do
          let m := copyBytes s.mem childFrame parentFrame Pmm.pageSize
          let virt := pdIdx <<< 22 ||| ptIdx <<< 12
          let s ← pagingMapInto ⟨pmm, m⟩ childPd virt childFrame flags
          return .again s

/-- The body of the outer loop. -/
def cloneTable (parentPd childPd pdIdx : Nat) (s : State) : Outcome (Turn State State) :=
  let pde := entry s.mem parentPd pdIdx
  if !hasFlag pde pdePresent then .ok (.again s)
  else forRange (clonePage childPd (frameOf pde) pdIdx) 0 ptEntries s

def pagingCloneUserSpace (st : Statics) (s : State) (parentPd : Nat) : Outcome (State × Nat) :=
  match pagingCreateUserPd st s with
  | (s, childPd) =>
      if childPd = 0 then .ok (s, 0)
      else do
        match ← forRange (cloneTable parentPd childPd) identityPtCount
            (pdEntries - identityPtCount) s with
        | .again s => return (s, childPd)
        | .done s => return (s, 0)

/-! ## Pages by their number -/

theorem virt_eq {i j : Nat} (hj : j < 1024) : i <<< 22 ||| j <<< 12 = 4096 * pageOf i j := by
  rw [Nat.shiftLeft_eq, Nat.shiftLeft_eq, Nat.mul_comm i,
    ← Nat.two_pow_add_eq_or_of_lt (by omega : j * 2 ^ 12 < 2 ^ 22)]
  unfold pageOf
  omega

theorem pdIdx_pageOf {i j : Nat} (hj : j < 1024) : pdIdx (4096 * pageOf i j) = i := by
  unfold pdIdx pageOf
  omega

theorem ptIdx_pageOf {i j : Nat} (hj : j < 1024) : ptIdx (4096 * pageOf i j) = j := by
  unfold ptIdx pageOf
  omega

/-- The walk sees the page of an address. -/
theorem walk_page (m : Mem) (pd va : Nat) : walk m pd va = walk m pd (4096 * (va / 4096)) := by
  have hpd : pdIdx (4096 * (va / 4096)) = pdIdx va := by
    unfold pdIdx
    omega
  have hpt : ptIdx (4096 * (va / 4096)) = ptIdx va := by
    unfold ptIdx
    omega
  unfold walk bothHave pteAt pdeAt
  rw [hpd, hpt]

theorem walk_of_none {m : Mem} {pd i j : Nat} (hi : identityPtCount ≤ i) (hlt : i < pdEntries)
    (hj : j < 1024) (h : tableAt m pd i = none) : walk m pd (4096 * pageOf i j) = none := by
  unfold walk bothHave pdeAt
  rw [pdIdx_pageOf hj, if_neg]
  intro hboth
  rw [Bool.and_eq_true] at hboth
  have hsome := tableAt_eq_some.mpr ⟨hi, hlt, hboth.1, rfl⟩
  rw [h] at hsome
  cases hsome

theorem walk_of_table {m : Mem} {pd i j pt : Nat} (hj : j < 1024)
    (h : tableAt m pd i = some pt) :
    walk m pd (4096 * pageOf i j) = if hasFlag (entry m pt j) ptePresent then
      some (frameOf (entry m pt j), entry m pt j % 4096) else none := by
  obtain ⟨-, -, hpresent, hframe⟩ := tableAt_eq_some.mp h
  have hpde : hasFlag (entry m pd i) ptePresent = true := hpresent
  unfold walk bothHave pteAt pdeAt
  rw [pdIdx_pageOf hj, ptIdx_pageOf hj, hframe, hpde, Bool.true_and]

theorem pageAt_eq_walk {m : Mem} {pd i j : Nat} (hi : identityPtCount ≤ i) (hlt : i < pdEntries)
    (hj : j < 1024) : pageAt m pd i j = (walk m pd (4096 * pageOf i j)).map Prod.fst := by
  cases htable : tableAt m pd i with
  | none => rw [pageAt_of_none j htable, walk_of_none hi hlt hj htable, Option.map_none]
  | some pt =>
      rw [pageAt_of_table htable, walk_of_table hj htable]
      by_cases hpresent : hasFlag (entry m pt j) ptePresent = true
      · rw [if_pos ⟨hj, hpresent⟩, if_pos hpresent, Option.map_some]
      · rw [if_neg fun hc => hpresent hc.2, if_neg hpresent, Option.map_none]

/-- The bytes of a frame. -/
theorem frameOf_add {a k : Nat} (ha : a % 4096 = 0) (hk : k < 4096) : frameOf (a + k) = a := by
  unfold frameOf
  omega

theorem copyBytes_sameOff (m : Mem) {dst : Nat} (src : Nat) (hdst : dst % 4096 = 0) :
    SameOff {dst} m (copyBytes m dst src Pmm.pageSize) := by
  intro x hx
  have hne : frameOf x ≠ dst := hx
  apply copyBytes_of_disjoint
  unfold frameOf at hne
  unfold Pmm.pageSize
  omega

theorem copyBytes_read (m : Mem) {dst src k : Nat} (hdst : dst % 4096 = 0)
    (hsrc : src % 4096 = 0) (hne : src ≠ dst) (hk : k < 4096) :
    copyBytes m dst src Pmm.pageSize (dst + k) = m (src + k) := by
  apply copyBytes_of_lt m _ hk
  omega

/-- A directory keeps its frames while its tables stay where they are. -/
theorem Alone.congr {s : State} {pmm : Pmm.State} {m : Mem} {pd : Nat} (h : Alone s pd)
    (hused : Pmm.usedFrames s.pmm ⊆ Pmm.usedFrames pmm)
    (htable : ∀ i, tableAt m pd i = tableAt s.mem pd i) : Alone ⟨pmm, m⟩ pd where
  used := hused h.used
  tableUsed := fun i pt hpt => hused (h.tableUsed i pt ((htable i).symm.trans hpt))
  tableNe := fun i pt hpt => h.tableNe i pt ((htable i).symm.trans hpt)
  tableInj := fun i i' pt hpt hpt' =>
    h.tableInj i i' pt ((htable i).symm.trans hpt) ((htable i').symm.trans hpt')

/-- A new table is a frame of its own. -/
theorem Alone.adds {s s' : State} {pd virt pt : Nat} (h : Alone s pd)
    (hadds : AddsEntry s s' pd virt pt) : Alone s' pd := by
  have hsub := usedFrames_subset_of_origin hadds.origin
  have hpt : pt ∈ Pmm.usedFrames s'.pmm ∧ pt ≠ pd ∧
      ∀ i, i ≠ pdIdx virt → tableAt s.mem pd i ≠ some pt := by
    rcases hadds.origin with ⟨hold, -⟩ | ⟨-, halloc, hne⟩
    · exact ⟨hsub (h.tableUsed _ pt hold), h.tableNe _ pt hold,
        fun i hi hpt => hi (h.tableInj i _ pt hpt hold)⟩
    · obtain ⟨hfresh, hused, -⟩ := Pmm.pmmAllocFrame_some halloc hne
      refine ⟨?_, fun heq => hfresh (heq ▸ h.used), fun i _ hi => hfresh (h.tableUsed i pt hi)⟩
      rw [hused]
      exact Set.mem_insert pt _
  obtain ⟨hptused, hptne, hptother⟩ := hpt
  have hcases : ∀ i pt', tableAt s'.mem pd i = some pt' →
      (i = pdIdx virt ∧ pt' = pt) ∨ (i ≠ pdIdx virt ∧ tableAt s.mem pd i = some pt') :=
    fun _ _ => tableAt_cases hadds.table
  refine ⟨hsub h.used, fun i pt' hi => ?_, fun i pt' hi => ?_, fun i i' pt' hi hi' => ?_⟩
  · rcases hcases i pt' hi with ⟨-, rfl⟩ | ⟨-, hold⟩
    · exact hptused
    · exact hsub (h.tableUsed i pt' hold)
  · rcases hcases i pt' hi with ⟨-, rfl⟩ | ⟨-, hold⟩
    · exact hptne
    · exact h.tableNe i pt' hold
  · rcases hcases i pt' hi with ⟨heq, rfl⟩ | ⟨hne, hold⟩
    · rcases hcases i' pt' hi' with ⟨heq', -⟩ | ⟨hne', hold'⟩
      · rw [heq, heq']
      · exact absurd hold' (hptother i' hne')
    · rcases hcases i' pt' hi' with ⟨heq', rfl⟩ | ⟨hne', hold'⟩
      · exact absurd hold (hptother i hne)
      · exact h.tableInj i i' pt' hold hold'

/-- A page was copied into the new frame `b` and mapped into window `i` of `child`,
through the table `pt`. -/
structure CopiesPage (s s' : State) (child i a b pt : Nat) (pmm : Pmm.State) : Prop where
  origin : (tableAt s.mem child i = some pt ∧ s'.pmm = pmm) ∨
    (tableAt s.mem child i = none ∧ Pmm.pmmAllocFrame pmm = (s'.pmm, pt) ∧ pt ≠ 0)
  table : ∀ k, tableAt s'.mem child k = if k = i then some pt else tableAt s.mem child k
  read : ∀ x, frameOf x ≠ b → frameOf x ≠ child → frameOf x ≠ pt → s'.mem x = s.mem x
  content : b ≠ child → b ≠ pt → ∀ k, k < 4096 → s'.mem (b + k) = s.mem (a + k)

namespace CopiesPage

variable {s s' : State} {child i a b pt : Nat} {pmm : Pmm.State}

theorem grown (h : CopiesPage s s' child i a b pt pmm) :
    Pmm.usedFrames pmm ⊆ Pmm.usedFrames s'.pmm := by
  rcases h.origin with ⟨-, hpmm⟩ | ⟨-, hnew, hpt⟩
  · rw [hpmm]
  · rw [(Pmm.pmmAllocFrame_some hnew hpt).2.1]
    exact Set.subset_insert pt _

/-- Whatever is in use afterwards was so before, is the page, or is its table. -/
theorem used_cases (h : CopiesPage s s' child i a b pt pmm)
    (halloc : Pmm.pmmAllocFrame s.pmm = (pmm, b)) (hb : b ≠ 0) {x : Nat}
    (hx : x ∈ Pmm.usedFrames s'.pmm) : x = pt ∨ x = b ∨ x ∈ Pmm.usedFrames s.pmm := by
  have hpmm : x = pt ∨ x ∈ Pmm.usedFrames pmm := by
    rcases h.origin with ⟨-, hpmm⟩ | ⟨-, hnew, hne⟩
    · rw [hpmm] at hx
      exact Or.inr hx
    · rw [(Pmm.pmmAllocFrame_some hnew hne).2.1] at hx
      exact hx
  rw [(Pmm.pmmAllocFrame_some halloc hb).2.1] at hpmm
  exact hpmm

/-- No table goes away. -/
theorem table_kept (h : CopiesPage s s' child i a b pt pmm) {k pt' : Nat}
    (hk : tableAt s.mem child k = some pt') : tableAt s'.mem child k = some pt' := by
  rw [h.table]
  split
  · next heq =>
      rw [heq] at hk
      rcases h.origin with ⟨hold, -⟩ | ⟨hnone, -⟩
      · exact hold.symm.trans hk
      · rw [hnone] at hk
        cases hk
  · exact hk

theorem inStep (h : CopiesPage s s' child i a b pt pmm)
    (halloc : Pmm.pmmAllocFrame s.pmm = (pmm, b)) : Pmm.InStep s.pmm s'.pmm := by
  have hone := Pmm.inStep_alloc s.pmm
  rw [halloc] at hone
  rcases h.origin with ⟨-, hpmm⟩ | ⟨-, hnew, -⟩
  · rw [hpmm]
    exact hone
  · have htwo := Pmm.inStep_alloc pmm
    rw [hnew] at htwo
    exact hone.trans htwo

end CopiesPage

theorem pageOf_lt {i j : Nat} (hi : i < pdEntries) (hj : j < 1024) : 4096 * pageOf i j < 2 ^ 32 := by
  unfold pdEntries at hi
  unfold pageOf
  omega

theorem pageOf_high {i j : Nat} (hi : identityPtCount ≤ i) :
    identityMappedBytes ≤ 4096 * pageOf i j := by
  unfold identityPtCount at hi
  unfold identityMappedBytes identityPtCount ptEntries Pmm.pageSize pageOf
  omega

theorem copiesPage {s s' : State} {child i j a b flags : Nat} {f : Nat → Option (Nat × Nat)}
    {pmm : Pmm.State} (halone : Alone s child) (hstores : Stores s.mem child f)
    (hgrants : Grants s.mem child) (hi : identityPtCount ≤ i) (hlt : i < pdEntries) (hj : j < 1024)
    (ha : a ∈ Pmm.usedFrames s.pmm) (hflags : flags < 4096)
    (hpresent : hasFlag flags ptePresent = true)
    (halloc : Pmm.pmmAllocFrame s.pmm = (pmm, b)) (hb : b ≠ 0)
    (hmap : pagingMapInto ⟨pmm, copyBytes s.mem b a Pmm.pageSize⟩ child (4096 * pageOf i j) b flags =
      .ok s') :
    ∃ pt, CopiesPage s s' child i a b pt pmm ∧ Alone s' child ∧
      Stores s'.mem child (Function.update f (pageOf i j) (some (b, flags))) ∧
      Grants s'.mem child := by
  obtain ⟨hfresh, hused, hbal, -⟩ := Pmm.pmmAllocFrame_some halloc hb
  have hblt := Pmm.pmmAllocFrame_lt halloc hb
  have hpage : 4096 * pageOf i j / 4096 = pageOf i j := Nat.mul_div_cancel_left _ (by decide)
  -- the frame is filled while nobody has it
  have hsame := copyBytes_sameOff s.mem a hbal
  have hout : ∀ x ∈ Pmm.usedFrames s.pmm, x ∉ ({b} : Set Nat) := fun x hx heq =>
    hfresh (Set.mem_singleton_iff.mp heq ▸ hx)
  have hsub : Pmm.usedFrames s.pmm ⊆ Pmm.usedFrames pmm := by
    rw [hused]
    exact Set.subset_insert b _
  have hchildal := Pmm.usedFrames_aligned halone.used
  have hchild := hout child halone.used
  have htable₁ := tableAt_congr hsame hchildal hchild
  have htables : ∀ i pt, tableAt s.mem child i = some pt → pt ∉ ({b} : Set Nat) := fun i pt hpt =>
    hout pt (halone.tableUsed i pt hpt)
  have halone₁ : Alone ⟨pmm, copyBytes s.mem b a Pmm.pageSize⟩ child := halone.congr hsub htable₁
  have hstores₁ := hstores.congr hsame hchildal hchild htables
  have hgrants₁ := hgrants.congr hsame hchildal hchild htables
  -- then it is mapped
  obtain ⟨pt, hadds, hstores'⟩ := hstores₁.mapInto halone₁ (pageOf_lt hlt hj) (pageOf_high hi)
    ⟨hbal, hblt, hflags, hpresent⟩ hmap
  obtain ⟨pt', hins⟩ := pagingMapInto_inserts halone₁ (pageOf_lt hlt hj)
    (by rw [pdIdx_pageOf hj]; exact hi) hbal hblt hflags hmap
  rw [hpage] at hstores'
  refine ⟨pt, ⟨?_, ?_, ?_, ?_⟩, halone₁.adds hadds, hstores', hgrants₁.inserts hins⟩
  · have horigin := hadds.origin
    rw [pdIdx_pageOf hj] at horigin
    simp only [htable₁] at horigin
    exact horigin
  · intro k
    rw [hadds.table, pdIdx_pageOf hj]
    simp only [htable₁]
  · intro x hxb hxchild hxpt
    exact (hadds.same x (notMem_pair hxchild hxpt)).trans (hsame x hxb)
  · intro hbchild hbpt k hk
    have hab : a ≠ b := fun hc => hfresh (hc ▸ ha)
    rw [hadds.same (b + k) (by rw [frameOf_add hbal hk]; exact notMem_pair hbchild hbpt)]
    exact copyBytes_read s.mem hbal (Pmm.usedFrames_aligned ha) hab hk

/-! ## What the clone costs -/

/-- The pages of window `i` before entry `j`. -/
def pagesIn (m : Mem) (pd i j : Nat) : Nat := Nat.count (fun k => (pageAt m pd i k).isSome = true) j

/-- Frames for `n` pages of one window: a table as soon as there is one page. -/
def framesFor (n : Nat) : Nat := if n = 0 then 0 else n + 1

/-- Frames for all windows before `i`. -/
def framesBefore (m : Mem) (pd i : Nat) : Nat :=
  ∑ k ∈ Finset.range i, framesFor (pagesIn m pd k ptEntries)

/-- Frames taken when the loops stand at entry `j` of window `i`, the directory
included. -/
def framesAt (m : Mem) (pd i j : Nat) : Nat :=
  1 + framesBefore m pd i + framesFor (pagesIn m pd i j)

theorem pagesIn_zero (m : Mem) (pd i : Nat) : pagesIn m pd i 0 = 0 := Nat.count_zero _

theorem pagesIn_succ (m : Mem) (pd i j : Nat) :
    pagesIn m pd i (j + 1) = pagesIn m pd i j + if (pageAt m pd i j).isSome then 1 else 0 :=
  Nat.count_succ _ j

theorem pagesIn_low {m : Mem} {pd i : Nat} (hi : i < identityPtCount) (j : Nat) :
    pagesIn m pd i j = 0 := by
  have hnone : tableAt m pd i = none := by
    unfold tableAt
    rw [if_neg fun hc => Nat.not_le_of_lt hi hc.1]
  induction j with
  | zero => exact pagesIn_zero m pd i
  | succ j ih => rw [pagesIn_succ, ih, pageAt_of_none j hnone, Option.isSome_none, if_neg (by simp)]

theorem framesBefore_succ (m : Mem) (pd i : Nat) :
    framesBefore m pd (i + 1) = framesBefore m pd i + framesFor (pagesIn m pd i ptEntries) :=
  Finset.sum_range_succ _ i

/-- At the end of a window the loops stand at the start of the next. -/
theorem framesAt_next (m : Mem) (pd i : Nat) :
    framesAt m pd i ptEntries = framesAt m pd (i + 1) 0 := by
  unfold framesAt
  rw [framesBefore_succ, pagesIn_zero]
  simp only [framesFor, if_true]
  omega

theorem framesAt_start (m : Mem) (pd : Nat) : framesAt m pd identityPtCount 0 = 1 := by
  have hzero : framesBefore m pd identityPtCount = 0 := by
    apply Finset.sum_eq_zero
    intro k hk
    rw [pagesIn_low (Finset.mem_range.mp hk)]
    rfl
  unfold framesAt
  rw [hzero, pagesIn_zero]
  rfl

theorem two_le_framesFor {n : Nat} (h : 0 < n) : 2 ≤ framesFor n := by
  unfold framesFor
  rw [if_neg (by omega)]
  omega

theorem framesFor_lt {n n' : Nat} (h : n < n') : framesFor n < framesFor n' := by
  unfold framesFor
  rw [if_neg (by omega : ¬n' = 0)]
  split <;> omega

theorem framesBefore_mono (m : Mem) (pd : Nat) {i i' : Nat} (h : i ≤ i') :
    framesBefore m pd i ≤ framesBefore m pd i' :=
  Finset.sum_le_sum_of_subset (Finset.range_mono h)

theorem pagesIn_lt {m : Mem} {pd i j : Nat} (hpage : (pageAt m pd i j).isSome = true) :
    pagesIn m pd i j < pagesIn m pd i ptEntries := by
  obtain ⟨a, ha⟩ := Option.isSome_iff_exists.mp hpage
  obtain ⟨pt, -, hj, -⟩ := pageAt_eq_some.mp ha
  exact Nat.count_strict_mono hpage hj

/-- A page still to come costs a frame. -/
theorem framesAt_lt {m : Mem} {pd i j : Nat} (hi : i < pdEntries)
    (hpage : (pageAt m pd i j).isSome = true) :
    framesAt m pd i j < 1 + framesBefore m pd pdEntries := by
  have hfor := framesFor_lt (pagesIn_lt hpage)
  have hmono := framesBefore_mono m pd (show i + 1 ≤ pdEntries from hi)
  rw [framesBefore_succ] at hmono
  unfold framesAt
  omega

/-! ## Where the loops stand -/

/-- The second page is a copy of the first, with the same flags. -/
def SamePage (m m' : Mem) : Option (Nat × Nat) → Option (Nat × Nat) → Prop
  | none, none => True
  | some (a, flags), some (b, flags') => flags' = flags ∧ ∀ k, k < 4096 → m' (b + k) = m (a + k)
  | _, _ => False

theorem SamePage.congr {m m' m'' : Mem} {e e' : Option (Nat × Nat)} (h : SamePage m m' e e')
    (hread : ∀ b flags, e' = some (b, flags) → ∀ k, k < 4096 → m'' (b + k) = m' (b + k)) :
    SamePage m m'' e e' := by
  cases e with
  | none =>
      cases e' with
      | none => trivial
      | some p => exact h.elim
  | some p =>
      cases e' with
      | none => exact h.elim
      | some p' => exact ⟨h.1, fun k hk => (hread p'.1 p'.2 rfl k hk).trans (h.2 k hk)⟩

/-- The clone of `parent` that was begun in `s₀` has come to entry `j` of window `i`.
The child stores the map `f`. -/
structure Copying (s₀ : State) (parent child : Nat) (f : Nat → Option (Nat × Nat)) (i j : Nat)
    (s : State) : Prop where
  kept : SameOff { a | a ∉ Pmm.usedFrames s₀.pmm } s₀.mem s.mem
  grown : Pmm.usedFrames s₀.pmm ⊆ Pmm.usedFrames s.pmm
  inStep : Pmm.InStep s₀.pmm s.pmm
  alone : Alone s child
  stores : Stores s.mem child f
  grants : Grants s.mem child
  childNew : child ∉ Pmm.usedFrames s₀.pmm
  tableNew : ∀ i pt, tableAt s.mem child i = some pt → pt ∉ Pmm.usedFrames s₀.pmm
  pages : ∀ n b flags, f n = some (b, flags) → b ∈ Pmm.usedFrames s.pmm ∧
    b ∉ Pmm.usedFrames s₀.pmm ∧ b ≠ child ∧ ∀ i, tableAt s.mem child i ≠ some b
  taken : ∀ a ∈ Pmm.usedFrames s.pmm, a ∈ Pmm.usedFrames s₀.pmm ∨ a = child ∨
    (∃ i, tableAt s.mem child i = some a) ∨ ∃ n flags, f n = some (a, flags)
  copied : ∀ n, pageOf identityPtCount 0 ≤ n → n < pageOf i j →
    SamePage s₀.mem s.mem (walk s₀.mem parent (4096 * n)) (f n)
  range : ∀ n e, f n = some e → pageOf identityPtCount 0 ≤ n ∧ n < pageOf i j
  tabled : ∀ i pt, tableAt s.mem child i = some pt → ∃ j, j < 1024 ∧ f (pageOf i j) ≠ none
  frames : Pmm.budget s.pmm + framesAt s₀.mem parent i j = Pmm.budget s₀.pmm

namespace Copying

variable {st : Statics} {s₀ s s' : State} {parent child i j : Nat} {f : Nat → Option (Nat × Nat)}

/-- The new directory is empty. -/
theorem start (hcreate : pagingCreateUserPd st s₀ = (s, child)) (hchild : child ≠ 0) :
    Copying s₀ parent child (fun _ => none) identityPtCount 0 s := by
  obtain ⟨halloc, hsame, -, hempty⟩ := pagingCreateUserPd_spec hcreate hchild
  obtain ⟨hfresh, hused, -, hbudget⟩ := Pmm.pmmAllocFrame_some halloc hchild
  have hnoTable : ∀ i pt, tableAt s.mem child i ≠ some pt := by
    intro i pt hpt
    rw [hempty i] at hpt
    cases hpt
  have hstep := Pmm.inStep_alloc s₀.pmm
  rw [halloc] at hstep
  constructor
  · refine hsame.mono fun a ha => ?_
    rw [Set.mem_singleton_iff.mp ha]
    exact hfresh
  · rw [hused]
    exact Set.subset_insert child _
  · exact hstep
  · refine ⟨?_, fun i pt hpt => absurd hpt (hnoTable i pt), fun i pt hpt => absurd hpt (hnoTable i pt),
      fun i i' pt hpt => absurd hpt (hnoTable i pt)⟩
    rw [hused]
    exact Set.mem_insert child _
  · exact stores_empty hempty
  · exact ⟨fun i pt hpt => absurd hpt (hnoTable i pt), fun i pt hpt => absurd hpt (hnoTable i pt)⟩
  · exact hfresh
  · exact fun i pt hpt => absurd hpt (hnoTable i pt)
  · intro n b flags hn
    cases hn
  · intro a ha
    rw [hused] at ha
    rcases ha with rfl | hold
    · exact Or.inr (Or.inl rfl)
    · exact Or.inl hold
  · intro n hle hlt
    omega
  · intro n e hn
    cases hn
  · exact fun i pt hpt => absurd hpt (hnoTable i pt)
  · rw [framesAt_start]
    exact hbudget.symm

/-- An entry without a page is passed. -/
theorem skip (h : Copying s₀ parent child f i j s) (hi : identityPtCount ≤ i) (hlt : i < pdEntries)
    (hj : j < 1024) (hpage : pageAt s₀.mem parent i j = none) :
    Copying s₀ parent child f i (j + 1) s := by
  have hnext : pageOf i (j + 1) = pageOf i j + 1 := rfl
  refine ⟨h.kept, h.grown, h.inStep, h.alone, h.stores, h.grants, h.childNew, h.tableNew, h.pages,
    h.taken, fun n hle hn => ?_, fun n e hn => ?_, h.tabled, ?_⟩
  · by_cases heq : n = pageOf i j
    · have hwalk : walk s₀.mem parent (4096 * n) = none := by
        rw [pageAt_eq_walk hi hlt hj, Option.map_eq_none_iff] at hpage
        rw [heq]
        exact hpage
      have hf : f n = none := by
        cases hf : f n with
        | none => rfl
        | some e =>
            have := (h.range n e hf).2
            omega
      rw [hwalk, hf]
      trivial
    · exact h.copied n hle (by omega)
  · have hbounds := h.range n e hn
    exact ⟨hbounds.1, by omega⟩
  · have hframes := h.frames
    unfold framesAt at hframes ⊢
    rw [pagesIn_succ, hpage, Option.isSome_none, if_neg (by simp), Nat.add_zero]
    exact hframes

/-- The window is done. -/
theorem nextWindow (h : Copying s₀ parent child f i ptEntries s) :
    Copying s₀ parent child f (i + 1) 0 s := by
  have hnext : pageOf (i + 1) 0 = pageOf i ptEntries := by
    unfold pageOf ptEntries
    omega
  refine ⟨h.kept, h.grown, h.inStep, h.alone, h.stores, h.grants, h.childNew, h.tableNew, h.pages,
    h.taken, ?_, ?_, h.tabled, ?_⟩
  · rw [hnext]
    exact h.copied
  · rw [hnext]
    exact h.range
  · rw [← framesAt_next]
    exact h.frames

/-- A window without a table is passed. -/
theorem skipWindow (h : Copying s₀ parent child f i 0 s) (hi : identityPtCount ≤ i)
    (hlt : i < pdEntries) (htable : tableAt s₀.mem parent i = none) :
    Copying s₀ parent child f (i + 1) 0 s := by
  have hall : ∀ j, j ≤ 1024 → Copying s₀ parent child f i j s := by
    intro j
    induction j with
    | zero => exact fun _ => h
    | succ j ih => exact fun hj => (ih (by omega)).skip hi hlt (by omega) (pageAt_of_none j htable)
  exact (hall 1024 (Nat.le_refl _)).nextWindow

/-- The parent is read as it was. -/
theorem entry_eq (h : Copying s₀ parent child f i j s) {base k : Nat}
    (hbase : base ∈ Pmm.usedFrames s₀.pmm) (hk : k < 1024) :
    entry s.mem base k = entry s₀.mem base k :=
  h.kept.entry_eq (Pmm.usedFrames_aligned hbase) hk fun hout => hout hbase

/-- The child has a table for the window from its first page on. -/
theorem table_none_iff (h : Copying s₀ parent child f i j s) (hi : identityPtCount ≤ i)
    (hlt : i < pdEntries) (hj : j < 1024) :
    tableAt s.mem child i = none ↔ pagesIn s₀.mem parent i j = 0 := by
  have hpage : ∀ k, k < j → ((pageAt s₀.mem parent i k).isSome = true ↔ f (pageOf i k) ≠ none) := by
    intro k hk
    have hsame := h.copied (pageOf i k) (by unfold pageOf; omega) (by unfold pageOf; omega)
    rw [pageAt_eq_walk hi hlt (by omega)]
    cases hwalk : walk s₀.mem parent (4096 * pageOf i k) with
    | none =>
        rw [hwalk] at hsame
        cases hf : f (pageOf i k) with
        | none => simp
        | some e =>
            rw [hf] at hsame
            exact hsame.elim
    | some e =>
        rw [hwalk] at hsame
        cases hf : f (pageOf i k) with
        | none =>
            rw [hf] at hsame
            exact hsame.elim
        | some e' => simp
  unfold pagesIn
  rw [Nat.count_iff_forall_not]
  constructor
  · intro hnone k hk hsome
    exact (hpage k hk).mp hsome (h.stores.absent i hi hlt hnone k (by omega))
  · intro hno
    cases htable : tableAt s.mem child i with
    | none => rfl
    | some pt =>
        obtain ⟨k, -, hf⟩ := h.tabled i pt htable
        obtain ⟨e, he⟩ := Option.ne_none_iff_exists'.mp hf
        have hkj : k < j := by
          have := (h.range _ e he).2
          unfold pageOf at this
          omega
        exact absurd ((hpage k hkj).mpr hf) (hno k hkj)

section Copy

variable {a b flags pt : Nat} {pmm : Pmm.State}

theorem newPage (h : Copying s₀ parent child f i j s) : f (pageOf i j) = none := by
  cases hf : f (pageOf i j) with
  | none => rfl
  | some e => exact absurd (h.range _ e hf).2 (Nat.lt_irrefl _)

/-- The table of the page is a frame that nothing else of the clone has. -/
theorem tableFrame (h : Copying s₀ parent child f i j s)
    (hcopies : CopiesPage s s' child i a b pt pmm)
    (halloc : Pmm.pmmAllocFrame s.pmm = (pmm, b)) (hb : b ≠ 0) :
    pt ∉ Pmm.usedFrames s₀.pmm ∧ pt ≠ b ∧ pt ≠ child ∧
      ∀ n b' flags', f n = some (b', flags') → b' ≠ pt := by
  obtain ⟨hfresh, hused, -⟩ := Pmm.pmmAllocFrame_some halloc hb
  rcases hcopies.origin with ⟨hold, -⟩ | ⟨-, hnew, hpt⟩
  · refine ⟨h.tableNew i pt hold, fun heq => hfresh (heq ▸ h.alone.tableUsed i pt hold),
      h.alone.tableNe i pt hold, fun n b' flags' hn heq => ?_⟩
    exact (h.pages n b' flags' hn).2.2.2 i (heq ▸ hold)
  · have hptfresh := (Pmm.pmmAllocFrame_some hnew hpt).1
    rw [hused] at hptfresh
    have hold : pt ∉ Pmm.usedFrames s.pmm := fun hin => hptfresh (Set.mem_insert_of_mem b hin)
    exact ⟨fun hin => hold (h.grown hin), fun heq => hptfresh (Set.mem_insert_iff.mpr (Or.inl heq)),
      fun heq => hold (heq ▸ h.alone.used),
      fun n b' flags' hn heq => hold (heq ▸ (h.pages n b' flags' hn).1)⟩

/-- The pages of the clone are frames of their own. -/
theorem pages_copy (h : Copying s₀ parent child f i j s)
    (hcopies : CopiesPage s s' child i a b pt pmm)
    (halloc : Pmm.pmmAllocFrame s.pmm = (pmm, b)) (hb : b ≠ 0) (n b' flags' : Nat)
    (hn : Function.update f (pageOf i j) (some (b, flags)) n = some (b', flags')) :
    b' ∈ Pmm.usedFrames s'.pmm ∧ b' ∉ Pmm.usedFrames s₀.pmm ∧ b' ≠ child ∧
      ∀ k, tableAt s'.mem child k ≠ some b' := by
  obtain ⟨hfresh, hused, -⟩ := Pmm.pmmAllocFrame_some halloc hb
  obtain ⟨-, hptb, -, hptpages⟩ := h.tableFrame hcopies halloc hb
  by_cases heq : n = pageOf i j
  · rw [heq, Function.update_self] at hn
    cases hn
    have hbused : b ∈ Pmm.usedFrames pmm := by
      rw [hused]
      exact Set.mem_insert b _
    refine ⟨hcopies.grown hbused, fun hin => hfresh (h.grown hin),
      fun hc => hfresh (hc ▸ h.alone.used), fun k hk => ?_⟩
    rcases tableAt_cases hcopies.table hk with ⟨-, hbpt⟩ | ⟨-, hold⟩
    · exact hptb hbpt.symm
    · exact hfresh (h.alone.tableUsed k b hold)
  · rw [Function.update_of_ne heq] at hn
    obtain ⟨hin, hstart, hchild, hnotTable⟩ := h.pages n b' flags' hn
    have hin' : b' ∈ Pmm.usedFrames pmm := by
      rw [hused]
      exact Set.mem_insert_of_mem b hin
    refine ⟨hcopies.grown hin', hstart, hchild, fun k hk => ?_⟩
    rcases tableAt_cases hcopies.table hk with ⟨-, hbpt⟩ | ⟨-, hold⟩
    · exact hptpages n b' flags' hn hbpt
    · exact hnotTable k hold

/-- Whatever is in use was so at the start or is part of the clone. -/
theorem taken_copy (h : Copying s₀ parent child f i j s)
    (hcopies : CopiesPage s s' child i a b pt pmm)
    (halloc : Pmm.pmmAllocFrame s.pmm = (pmm, b)) (hb : b ≠ 0) (x : Nat)
    (hx : x ∈ Pmm.usedFrames s'.pmm) :
    x ∈ Pmm.usedFrames s₀.pmm ∨ x = child ∨ (∃ k, tableAt s'.mem child k = some x) ∨
      ∃ n flags', Function.update f (pageOf i j) (some (b, flags)) n = some (x, flags') := by
  rcases hcopies.used_cases halloc hb hx with rfl | rfl | hold
  · exact Or.inr (Or.inr (Or.inl ⟨i, by rw [hcopies.table, if_pos rfl]⟩))
  · exact Or.inr (Or.inr (Or.inr ⟨pageOf i j, flags, Function.update_self ..⟩))
  · rcases h.taken x hold with hstart | hchild | ⟨k, hk⟩ | ⟨n, flags', hn⟩
    · exact Or.inl hstart
    · exact Or.inr (Or.inl hchild)
    · exact Or.inr (Or.inr (Or.inl ⟨k, hcopies.table_kept hk⟩))
    · refine Or.inr (Or.inr (Or.inr ⟨n, flags', ?_⟩))
      rw [Function.update_of_ne, hn]
      rintro rfl
      rw [h.newPage] at hn
      cases hn

/-- The pages so far have the contents of those of the parent. -/
theorem copied_copy (h : Copying s₀ parent child f i j s)
    (hcopies : CopiesPage s s' child i a b pt pmm)
    (halloc : Pmm.pmmAllocFrame s.pmm = (pmm, b)) (hb : b ≠ 0)
    (hwalk : walk s₀.mem parent (4096 * pageOf i j) = some (a, flags))
    (ha : a ∈ Pmm.usedFrames s₀.pmm) (n : Nat)
    (hle : pageOf identityPtCount 0 ≤ n) (hn : n < pageOf i (j + 1)) :
    SamePage s₀.mem s'.mem (walk s₀.mem parent (4096 * n))
      (Function.update f (pageOf i j) (some (b, flags)) n) := by
  obtain ⟨hfresh, -⟩ := Pmm.pmmAllocFrame_some halloc hb
  obtain ⟨-, hptb, -, hptpages⟩ := h.tableFrame hcopies halloc hb
  have hnext : pageOf i (j + 1) = pageOf i j + 1 := rfl
  by_cases heq : n = pageOf i j
  · rw [heq, hwalk, Function.update_self]
    have haal := Pmm.usedFrames_aligned ha
    have hbchild : b ≠ child := fun hc => hfresh (hc ▸ h.alone.used)
    refine ⟨rfl, fun k hk => (hcopies.content hbchild (Ne.symm hptb) k hk).trans ?_⟩
    exact h.kept (a + k) (by rw [frameOf_add haal hk]; exact not_not.mpr ha)
  · rw [Function.update_of_ne heq]
    apply (h.copied n hle (by omega)).congr
    intro b' flags' hn' k hk
    obtain ⟨hin, -, hchild, -⟩ := h.pages n b' flags' hn'
    have hframe := frameOf_add (Pmm.usedFrames_aligned hin) hk
    apply hcopies.read
    · rw [hframe]
      exact fun hc => hfresh (hc ▸ hin)
    · rw [hframe]
      exact hchild
    · rw [hframe]
      exact hptpages n b' flags' hn'

/-- One frame for the page and, if it is the first of its window, one for the table. -/
theorem frames_copy (h : Copying s₀ parent child f i j s)
    (hcopies : CopiesPage s s' child i a b pt pmm)
    (halloc : Pmm.pmmAllocFrame s.pmm = (pmm, b)) (hb : b ≠ 0) (hi : identityPtCount ≤ i)
    (hlt : i < pdEntries) (hj : j < 1024)
    (hwalk : walk s₀.mem parent (4096 * pageOf i j) = some (a, flags)) :
    Pmm.budget s'.pmm + framesAt s₀.mem parent i (j + 1) = Pmm.budget s₀.pmm := by
  have hframes := h.frames
  have hiff := h.table_none_iff hi hlt hj
  have hbudget := (Pmm.pmmAllocFrame_some halloc hb).2.2.2
  have hsome : (pageAt s₀.mem parent i j).isSome = true := by
    rw [pageAt_eq_walk hi hlt hj, hwalk]
    rfl
  unfold framesAt framesFor at hframes ⊢
  rw [pagesIn_succ, if_pos hsome]
  rcases hcopies.origin with ⟨hold, hpmm⟩ | ⟨hnone, hnew, hne⟩
  · have hpos : pagesIn s₀.mem parent i j ≠ 0 := by
      intro hzero
      rw [hiff.mpr hzero] at hold
      cases hold
    rw [if_neg hpos] at hframes
    rw [if_neg (Nat.succ_ne_zero _), hpmm]
    omega
  · have hzero := hiff.mp hnone
    have hbudget' := (Pmm.pmmAllocFrame_some hnew hne).2.2.2
    rw [if_pos hzero] at hframes
    rw [if_neg (Nat.succ_ne_zero _)]
    omega

/-- A page is copied into the frame `b` and mapped. -/
theorem copy (h : Copying s₀ parent child f i j s) (hi : identityPtCount ≤ i) (hlt : i < pdEntries)
    (hj : j < 1024) (hwalk : walk s₀.mem parent (4096 * pageOf i j) = some (a, flags))
    (ha : a ∈ Pmm.usedFrames s₀.pmm) (hflags : flags < 4096)
    (hpresent : hasFlag flags ptePresent = true)
    (halloc : Pmm.pmmAllocFrame s.pmm = (pmm, b)) (hb : b ≠ 0)
    (hmap : pagingMapInto ⟨pmm, copyBytes s.mem b a Pmm.pageSize⟩ child (4096 * pageOf i j) b flags =
      .ok s') :
    Copying s₀ parent child (Function.update f (pageOf i j) (some (b, flags))) i (j + 1) s' := by
  obtain ⟨pt, hcopies, halone, hstores, hgrants⟩ := copiesPage h.alone h.stores h.grants hi hlt hj
    (h.grown ha) hflags hpresent halloc hb hmap
  obtain ⟨hfresh, hused, -⟩ := Pmm.pmmAllocFrame_some halloc hb
  obtain ⟨hptStart, -⟩ := h.tableFrame hcopies halloc hb
  have hnext : pageOf i (j + 1) = pageOf i j + 1 := rfl
  have hsub : Pmm.usedFrames s.pmm ⊆ Pmm.usedFrames pmm := by
    rw [hused]
    exact Set.subset_insert b _
  constructor
  · intro y hy
    have hin : frameOf y ∈ Pmm.usedFrames s₀.pmm := not_not.mp hy
    rw [hcopies.read y (fun heq => hfresh (h.grown (heq ▸ hin)))
      (fun heq => h.childNew (heq ▸ hin)) (fun heq => hptStart (heq ▸ hin))]
    exact h.kept y hy
  · exact (h.grown.trans hsub).trans hcopies.grown
  · exact h.inStep.trans (hcopies.inStep halloc)
  · exact halone
  · exact hstores
  · exact hgrants
  · exact h.childNew
  · intro i' pt' hpt'
    rcases tableAt_cases hcopies.table hpt' with ⟨-, rfl⟩ | ⟨-, hold⟩
    · exact hptStart
    · exact h.tableNew i' pt' hold
  · exact h.pages_copy hcopies halloc hb
  · exact h.taken_copy hcopies halloc hb
  · exact h.copied_copy hcopies halloc hb hwalk ha
  · intro n e hn
    by_cases heq : n = pageOf i j
    · rw [heq]
      refine ⟨?_, by omega⟩
      unfold pageOf
      omega
    · rw [Function.update_of_ne heq] at hn
      have hbounds := h.range n e hn
      exact ⟨hbounds.1, by omega⟩
  · intro i' pt' hpt'
    rcases tableAt_cases hcopies.table hpt' with ⟨heq, -⟩ | ⟨-, hold⟩
    · refine ⟨j, hj, ?_⟩
      rw [heq, Function.update_self]
      simp
    · obtain ⟨j', hj', hf⟩ := h.tabled i' pt' hold
      refine ⟨j', hj', ?_⟩
      by_cases heq : pageOf i' j' = pageOf i j
      · rw [heq, Function.update_self]
        simp
      · rw [Function.update_of_ne heq]
        exact hf
  · exact h.frames_copy hcopies halloc hb hi hlt hj hwalk

end Copy

end Copying

/-! ## The loops -/

/-- The two ways to leave the loops early.  Without a frame for a page the child is
freed; without a frame for the table of a window's first page the machine stops. -/
inductive Leaves (s₀ : State) (parent child : Nat) : Outcome State → Prop
  | refused {f : Nat → Option (Nat × Nat)} {i j : Nat} {s : State} {pmm : Pmm.State}
      (h : Copying s₀ parent child f i j s) (hlt : i < pdEntries)
      (hpage : (pageAt s₀.mem parent i j).isSome = true)
      (halloc : Pmm.pmmAllocFrame s.pmm = (pmm, 0)) :
      Leaves s₀ parent child (.ok (pagingFreePd ⟨pmm, s.mem⟩ child))
  | halted {f : Nat → Option (Nat × Nat)} {i j b : Nat} {s : State} {pmm pmm' : Pmm.State}
      (h : Copying s₀ parent child f i j s) (hlt : i < pdEntries)
      (hpage : (pageAt s₀.mem parent i j).isSome = true) (hfirst : pagesIn s₀.mem parent i j = 0)
      (halloc : Pmm.pmmAllocFrame s.pmm = (pmm, b)) (hb : b ≠ 0)
      (hnone : Pmm.pmmAllocFrame pmm = (pmm', 0)) :
      Leaves s₀ parent child (.error (.kpanic "paging_map_into: out of physical memory"))

/-- `paging_map_into` stops the machine when it has no frame for a table. -/
theorem pagingMapInto_error {s : State} {pd virt a flags : Nat} {e : Stop}
    (h : pagingMapInto s pd virt a flags = .error e) :
    hasFlag (entry s.mem pd (pdIdx virt)) pdePresent = false ∧
      (∃ pmm, Pmm.pmmAllocFrame s.pmm = (pmm, 0)) ∧
      e = .kpanic "paging_map_into: out of physical memory" := by
  unfold pagingMapInto at h
  cases hensure : ensureTable s pd virt flags with
  | ok s₁ =>
      rw [hensure] at h
      cases h
  | error e' =>
      rw [hensure] at h
      cases h
      unfold ensureTable at hensure
      by_cases hpresent : hasFlag (entry s.mem pd (pdIdx virt)) pdePresent = true
      · simp only [hpresent, Bool.not_true, Bool.false_eq_true, if_false] at hensure
        split at hensure
        · cases hensure
        · cases hensure
      · rw [Bool.not_eq_true] at hpresent
        simp only [hpresent, Bool.not_false, if_true] at hensure
        cases halloc : Pmm.pmmAllocFrame s.pmm with
        | mk pmm pt =>
            rw [halloc] at hensure
            by_cases hpt : pt = 0
            · simp only [if_pos hpt] at hensure
              cases hensure
              exact ⟨hpresent, ⟨pmm, by rw [hpt]⟩, rfl⟩
            · simp only [if_neg hpt] at hensure
              cases hensure

section Loops

variable {st : Statics} {s₀ s : State} {parent child i : Nat}

/-- The loops of the clone have come to entry `j` of window `i`. -/
def At (s₀ : State) (parent child i j : Nat) (s : State) : Prop :=
  ∃ f, Copying s₀ parent child f i j s

theorem clonePage_meets {j pt : Nat}
    (hheld : ∀ a ∈ pdFrames s₀.mem parent, a ∈ Pmm.usedFrames s₀.pmm)
    (hpt : tableAt s₀.mem parent i = some pt) (hj : j < 1024) (h : At s₀ parent child i j s) :
    Meets (At s₀ parent child i (j + 1)) (Leaves s₀ parent child) (clonePage child pt i j s) := by
  obtain ⟨f, h⟩ := h
  obtain ⟨hi, hlt, -, -⟩ := tableAt_eq_some.mp hpt
  have hentry : entry s.mem pt j = entry s₀.mem pt j :=
    h.entry_eq (hheld pt (mem_pdFrames.mpr (Or.inr (Or.inl ⟨i, hpt⟩)))) hj
  have hwalk := walk_of_table hj hpt
  unfold clonePage
  rw [hentry]
  by_cases hpresent : hasFlag (entry s₀.mem pt j) ptePresent = true
  · rw [if_pos hpresent] at hwalk
    have hpage := pageAt_eq_some.mpr ⟨pt, hpt, hj, hpresent, rfl⟩
    have hsome : (pageAt s₀.mem parent i j).isSome = true := by
      rw [hpage]
      rfl
    have hflag : hasFlag (entry s₀.mem pt j % 4096) ptePresent = true := by
      rw [hasFlag_present, testBit_mod_flags _ (by decide), ← hasFlag_present]
      exact hpresent
    simp only [hpresent, Bool.not_true, Bool.false_eq_true, if_false, virt_eq hj]
    cases halloc : Pmm.pmmAllocFrame s.pmm with
    | mk pmm b =>
        by_cases hb : b = 0
        · subst hb
          exact .refused h hlt hsome halloc
        · simp only [if_neg hb]
          cases hmap : pagingMapInto ⟨pmm, copyBytes s.mem b (frameOf (entry s₀.mem pt j))
              Pmm.pageSize⟩ child (4096 * pageOf i j) b (entry s₀.mem pt j % 4096) with
          | ok s' =>
              exact ⟨_, h.copy hi hlt hj hwalk
                (hheld _ (mem_pdFrames.mpr (Or.inr (Or.inr ⟨i, j, hpage⟩))))
                (Nat.mod_lt _ (by decide)) hflag halloc hb hmap⟩
          | error e =>
              obtain ⟨habsent, ⟨pmm', hnone⟩, rfl⟩ := pagingMapInto_error hmap
              -- the new frame is not the child, which is read as before
              obtain ⟨hfresh, -, hbal, -⟩ := Pmm.pmmAllocFrame_some halloc hb
              have hchild : child ∉ ({b} : Set Nat) := fun heq =>
                hfresh (Set.mem_singleton_iff.mp heq ▸ h.alone.used)
              rw [pdIdx_pageOf hj, (copyBytes_sameOff s.mem _ hbal).entry_eq
                (Pmm.usedFrames_aligned h.alone.used) hlt hchild] at habsent
              have hnoTable : tableAt s.mem child i = none := by
                unfold tableAt
                rw [if_neg fun hc => by rw [habsent] at hc; exact absurd hc.2.2 (by decide)]
              exact .halted h hlt hsome ((h.table_none_iff hi hlt hj).mp hnoTable) halloc hb hnone
  · rw [Bool.not_eq_true] at hpresent
    simp only [hpresent, Bool.not_false, if_true]
    refine ⟨f, h.skip hi hlt hj ?_⟩
    rw [pageAt_of_table hpt, hpresent, if_neg (by simp)]

theorem cloneTable_meets (hheld : ∀ a ∈ pdFrames s₀.mem parent, a ∈ Pmm.usedFrames s₀.pmm)
    (hi : identityPtCount ≤ i) (hlt : i < pdEntries) (h : At s₀ parent child i 0 s) :
    Meets (At s₀ parent child (i + 1) 0) (Leaves s₀ parent child)
      (cloneTable parent child i s) := by
  have hentry : entry s.mem parent i = entry s₀.mem parent i := by
    obtain ⟨f, h⟩ := h
    exact h.entry_eq (hheld parent (mem_pdFrames.mpr (Or.inl rfl))) hlt
  unfold cloneTable
  rw [hentry]
  by_cases hpresent : hasFlag (entry s₀.mem parent i) pdePresent = true
  · have hpt := tableAt_eq_some.mpr ⟨hi, hlt, hpresent, rfl⟩
    simp only [hpresent, Bool.not_true, Bool.false_eq_true, if_false]
    have hloop : Meets (At s₀ parent child i (0 + ptEntries)) (Leaves s₀ parent child)
        (forRange (clonePage child (frameOf (entry s₀.mem parent i)) i) 0 ptEntries s) := by
      apply forRange_rule (At s₀ parent child i) (Leaves s₀ parent child) _ h
      intro j s _ hj hs
      unfold ptEntries at hj
      exact clonePage_meets hheld hpt (by omega) hs
    apply hloop.imp
    rintro s' ⟨f, hs'⟩
    rw [Nat.zero_add] at hs'
    exact ⟨f, hs'.nextWindow⟩
  · rw [Bool.not_eq_true] at hpresent
    simp only [hpresent, Bool.not_false, if_true]
    obtain ⟨f, h⟩ := h
    refine ⟨f, h.skipWindow hi hlt ?_⟩
    unfold tableAt
    rw [if_neg fun hc => by rw [hpresent] at hc; exact absurd hc.2.2 (by decide)]

/-- How `paging_clone_user_space` ends. -/
inductive CloneEnds (st : Statics) (s₀ : State) (parent : Nat) : Outcome (State × Nat) → Prop
  | noDirectory {s : State} (hcreate : pagingCreateUserPd st s₀ = (s, 0)) :
      CloneEnds st s₀ parent (.ok (s, 0))
  | complete {s : State} {child : Nat} (hchild : child ≠ 0)
      (hs : At s₀ parent child pdEntries 0 s) : CloneEnds st s₀ parent (.ok (s, child))
  | freed {s : State} {child : Nat} (hchild : child ≠ 0) (hs : Leaves s₀ parent child (.ok s)) :
      CloneEnds st s₀ parent (.ok (s, 0))
  | stopped {child : Nat} {e : Stop} (hs : Leaves s₀ parent child (.error e)) :
      CloneEnds st s₀ parent (.error e)

theorem cloneEnds (st : Statics)
    (hheld : ∀ a ∈ pdFrames s₀.mem parent, a ∈ Pmm.usedFrames s₀.pmm) :
    CloneEnds st s₀ parent (pagingCloneUserSpace st s₀ parent) := by
  unfold pagingCloneUserSpace
  cases hcreate : pagingCreateUserPd st s₀ with
  | mk s child =>
      by_cases hchild : child = 0
      · subst hchild
        exact .noDirectory hcreate
      · simp only [if_neg hchild]
        have hloop : Meets (At s₀ parent child (identityPtCount + (pdEntries - identityPtCount)) 0)
            (Leaves s₀ parent child) (forRange (cloneTable parent child) identityPtCount
              (pdEntries - identityPtCount) s) := by
          apply forRange_rule (fun i => At s₀ parent child i 0) (Leaves s₀ parent child)
          · intro i s hi hlt hs
            exact cloneTable_meets hheld hi hlt hs
          · exact ⟨_, Copying.start hcreate hchild⟩
        cases hout : forRange (cloneTable parent child) identityPtCount
            (pdEntries - identityPtCount) s with
        | error e =>
            rw [hout] at hloop
            exact .stopped hloop
        | ok next =>
            rw [hout] at hloop
            cases next with
            | again s' => exact .complete hchild hloop
            | done r => exact .freed hchild hloop

/-- An early end of the loops in terms of the free frames. -/
theorem Leaves.frames {out : Outcome State} (h : Leaves s₀ parent child out)
    (hzero : 0 ∈ Pmm.usedFrames s₀.pmm) :
    ∃ i j, i < pdEntries ∧ (pageAt s₀.mem parent i j).isSome = true ∧
      match out with
      | .ok _ => Pmm.budget s₀.pmm = framesAt s₀.mem parent i j
      | .error _ => pagesIn s₀.mem parent i j = 0 ∧
          Pmm.budget s₀.pmm = 2 + framesBefore s₀.mem parent i := by
  cases h with
  | @refused f i j s pmm hs hlt hpage halloc =>
      have hbudget := (Pmm.pmmAllocFrame_none halloc (hs.grown hzero)).2
      have hframes := hs.frames
      exact ⟨i, j, hlt, hpage, by simp only; omega⟩
  | @halted f i j b s pmm pmm' hs hlt hpage hfirst halloc hb hnone =>
      obtain ⟨-, hused, -, hbudget⟩ := Pmm.pmmAllocFrame_some halloc hb
      have hzero' : 0 ∈ Pmm.usedFrames pmm := by
        rw [hused]
        exact Set.mem_insert_of_mem b (hs.grown hzero)
      have hbudget' := (Pmm.pmmAllocFrame_none hnone hzero').2
      have hframes := hs.frames
      unfold framesAt at hframes
      rw [hfirst] at hframes
      simp only [framesFor, if_true] at hframes
      exact ⟨i, j, hlt, hpage, hfirst, by omega⟩

theorem Leaves.short {out : Outcome State} (h : Leaves s₀ parent child out)
    (hzero : 0 ∈ Pmm.usedFrames s₀.pmm) :
    Pmm.budget s₀.pmm < 1 + framesBefore s₀.mem parent pdEntries := by
  obtain ⟨i, j, hlt, hpage, hframes⟩ := h.frames hzero
  cases out with
  | ok r =>
      rw [hframes]
      exact framesAt_lt hlt hpage
  | error e =>
      have hfor := two_le_framesFor (Nat.zero_lt_of_lt (pagesIn_lt hpage))
      have hmono := framesBefore_mono s₀.mem parent (show i + 1 ≤ pdEntries from hlt)
      rw [framesBefore_succ] at hmono
      have hbudget := hframes.2
      omega

/-- With frames for everything the clone is returned. -/
theorem clone_returns (st : Statics)
    (hheld : ∀ a ∈ pdFrames s₀.mem parent, a ∈ Pmm.usedFrames s₀.pmm)
    (hzero : 0 ∈ Pmm.usedFrames s₀.pmm)
    (hbudget : 1 + framesBefore s₀.mem parent pdEntries ≤ Pmm.budget s₀.pmm) :
    ∃ s child, pagingCloneUserSpace st s₀ parent = .ok (s, child) ∧ child ≠ 0 ∧
      At s₀ parent child pdEntries 0 s := by
  generalize hout : pagingCloneUserSpace st s₀ parent = out
  have hends := cloneEnds st hheld
  rw [hout] at hends
  cases hends with
  | noDirectory hcreate =>
      have hnone := (pagingCreateUserPd_none hcreate hzero).2
      omega
  | complete hchild hs => exact ⟨_, _, rfl, hchild, hs⟩
  | freed _ hs => exact absurd (hs.short hzero) (Nat.not_lt.mpr hbudget)
  | stopped hs => exact absurd (hs.short hzero) (Nat.not_lt.mpr hbudget)

end Loops

end StakOS.Paging
