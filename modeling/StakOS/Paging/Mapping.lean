import StakOS.Paging.Slots

/-!
# Mapping page after page

The loader and the user stack are mapped by the same loop: take a frame, perhaps
fill it, map it.  `Maps` is that loop; `mappedPages` says in advance, from the
number of free frames, which pages it gets to.
-/

namespace StakOS.Paging

open StakOS.Lib.Memory StakOS.Lib.Loop

/-! ## One page -/

/-- What taking the frame `a` and mapping it at `virt` does. -/
inductive PageStep (st : Statics) (s s' : State) (pd virt a : Nat) : Prop
  | low (hlow : pdIdx virt < identityPtCount)
      (hused : Pmm.usedFrames s'.pmm = insert a (Pmm.usedFrames s.pmm))
      (hbudget : Pmm.budget s.pmm = Pmm.budget s'.pmm + 1)
      (htable : ∀ i, tableAt s'.mem pd i = tableAt s.mem pd i)
      (hpage : ∀ i j, pageAt s'.mem pd i j = pageAt s.mem pd i j)
  | old (pt : Nat) (hhigh : identityPtCount ≤ pdIdx virt)
      (hold : tableAt s.mem pd (pdIdx virt) = some pt)
      (hused : Pmm.usedFrames s'.pmm = insert a (Pmm.usedFrames s.pmm))
      (hbudget : Pmm.budget s.pmm = Pmm.budget s'.pmm + 1)
      (hsame : SameOff {a, pd, pt} s.mem s'.mem)
      (hentry : ∀ i, i < identityPtCount → entry s'.mem pd i = entry s.mem pd i)
      (htable : ∀ i, tableAt s'.mem pd i = tableAt s.mem pd i)
      (hpage : ∀ i j, pageAt s'.mem pd i j =
        if i = pdIdx virt ∧ j = ptIdx virt then some a else pageAt s.mem pd i j)
  | new (pt : Nat) (hhigh : identityPtCount ≤ pdIdx virt)
      (hnone : tableAt s.mem pd (pdIdx virt) = none)
      (hfresh : pt ∉ insert a (Pmm.usedFrames s.pmm))
      (hused : Pmm.usedFrames s'.pmm = insert pt (insert a (Pmm.usedFrames s.pmm)))
      (hbudget : Pmm.budget s.pmm = Pmm.budget s'.pmm + 2)
      (hsame : SameOff {a, pd, pt} s.mem s'.mem)
      (hentry : ∀ i, i < identityPtCount → entry s'.mem pd i = entry s.mem pd i)
      (htable : ∀ i, tableAt s'.mem pd i =
        if i = pdIdx virt then some pt else tableAt s.mem pd i)
      (hpage : ∀ i j, pageAt s'.mem pd i j =
        if i = pdIdx virt ∧ j = ptIdx virt then some a else pageAt s.mem pd i j)

theorem pageStep {st : Statics} {s s' : State} {pd virt a flags : Nat} {pmm : Pmm.State} {m : Mem}
    (hok : PdOk st s pd) (hvirt : virt < 2 ^ 32) (halloc : Pmm.pmmAllocFrame s.pmm = (pmm, a))
    (ha : a ≠ 0) (hfill : SameOff {a} s.mem m) (hflags : flags < 4096)
    (hbit : flags.testBit 0 = true) (hmap : pagingMapInto ⟨pmm, m⟩ pd virt a flags = .ok s') :
    PageStep st s s' pd virt a ∧ PdOk st s' pd ∧ a ∉ Pmm.usedFrames s.pmm := by
  obtain ⟨hfresh, hused, hal, hbudget⟩ := Pmm.pmmAllocFrame_some halloc ha
  have halt := Pmm.pmmAllocFrame_lt halloc ha
  obtain ⟨hok₁, htable₁, hpage₁, hentry₁⟩ := hok.fill halloc ha hfill
  have hmaps := pagingMapInto_spec hok₁ hvirt hal halt hflags hbit hmap
  refine ⟨?_, hok₁.maps hmaps, hfresh⟩
  cases hmaps with
  | low hlow hpmm hsame hentry htable hpage =>
      have hpmm' : s'.pmm = pmm := hpmm
      refine .low hlow ?_ ?_ (fun i => (htable i).trans (htable₁ i))
        fun i j => (hpage i j).trans (hpage₁ i j)
      · rw [hpmm', hused]
      · rw [hpmm', hbudget]
  | high pt hhigh horigin hsame hentry htable hpage =>
      have hoff : SameOff {a, pd, pt} s.mem s'.mem := by
        refine (hfill.mono ?_).trans (hsame.mono ?_)
        · simp
        · intro x hx
          exact Or.inr hx
      have hpage' : ∀ i j, pageAt s'.mem pd i j =
          if i = pdIdx virt ∧ j = ptIdx virt then some a else pageAt s.mem pd i j := by
        intro i j
        rw [hpage i j, hpage₁ i j]
      have hentry' : ∀ i, i < identityPtCount → entry s'.mem pd i = entry s.mem pd i :=
        fun i hi => (hentry i hi).trans (hentry₁ i hi)
      have htable' : ∀ i, tableAt s'.mem pd i =
          if i = pdIdx virt then some pt else tableAt s.mem pd i := by
        intro i
        rw [htable i, htable₁ i]
      rcases horigin with ⟨hold, hpmm⟩ | ⟨hnone, hallocPt, hpt⟩
      · have hpmm' : s'.pmm = pmm := hpmm
        have hold' : tableAt s.mem pd (pdIdx virt) = some pt := (htable₁ _).symm.trans hold
        refine .old pt hhigh hold' ?_ ?_ hoff hentry' (fun i => ?_) hpage'
        · rw [hpmm', hused]
        · rw [hpmm', hbudget]
        · rw [htable' i]
          split
          · next hi => rw [hi, hold']
          · rfl
      · obtain ⟨hfreshPt, husedPt, -, hbudgetPt⟩ := Pmm.pmmAllocFrame_some hallocPt hpt
        have hpmm' : Pmm.usedFrames pmm = insert a (Pmm.usedFrames s.pmm) := hused
        refine .new pt hhigh ((htable₁ _).symm.trans hnone) ?_ ?_ ?_ hoff hentry' htable' hpage'
        · rw [← hpmm']
          exact hfreshPt
        · rw [husedPt, ← hpmm']
        · change Pmm.budget pmm = _ at hbudgetPt
          omega

/-- A frame `a` mapped above the identity window, behind the table `pt`, which was
the directory's or is new as well. -/
structure HighPage (s s' : State) (pd virt a pt : Nat) : Prop where
  origin : tableAt s.mem pd (pdIdx virt) = some pt ∨
    (tableAt s.mem pd (pdIdx virt) = none ∧ pt ∉ insert a (Pmm.usedFrames s.pmm))
  used : Pmm.usedFrames s'.pmm = insert pt (insert a (Pmm.usedFrames s.pmm))
  same : SameOff {a, pd, pt} s.mem s'.mem
  entry : ∀ i, i < identityPtCount → entry s'.mem pd i = entry s.mem pd i
  table : ∀ i, tableAt s'.mem pd i = if i = pdIdx virt then some pt else tableAt s.mem pd i
  page : ∀ i j, pageAt s'.mem pd i j =
    if i = pdIdx virt ∧ j = ptIdx virt then some a else pageAt s.mem pd i j

theorem PageStep.high {st : Statics} {s s' : State} {pd virt a : Nat} (hok : PdOk st s pd)
    (h : PageStep st s s' pd virt a) (hhigh : identityPtCount ≤ pdIdx virt) :
    ∃ pt, HighPage s s' pd virt a pt := by
  cases h with
  | low hlow => exact absurd hlow (Nat.not_lt.mpr hhigh)
  | old pt _ hold hused _ hsame hentry htable hpage =>
      have hin : pt ∈ insert a (Pmm.usedFrames s.pmm) :=
        Set.mem_insert_of_mem a (hok.tableUsed _ pt hold)
      refine ⟨pt, Or.inl hold, ?_, hsame, hentry, fun i => ?_, hpage⟩
      · rw [hused, Set.insert_eq_of_mem hin]
      · rw [htable i]
        split
        · next hi => rw [hi, hold]
        · rfl
  | new pt _ hnone hfresh hused _ hsame hentry htable hpage =>
      exact ⟨pt, Or.inr ⟨hnone, hfresh⟩, hused, hsame, hentry, htable, hpage⟩

/-- A new page is not its own table. -/
theorem HighPage.ne {st : Statics} {s s' : State} {pd virt a pt : Nat} (hok : PdOk st s pd)
    (h : HighPage s s' pd virt a pt) (ha : a ∉ Pmm.usedFrames s.pmm) : a ≠ pt := by
  rintro rfl
  rcases h.origin with hold | ⟨-, hnew⟩
  · exact ha (hok.tableUsed _ a hold)
  · exact hnew (Set.mem_insert a _)

/-- A frame `a` mapped below the identity window: the shared table refers to it, the
directory keeps its tables and pages. -/
structure LowPage (st : Statics) (s s' : State) (pd virt a flags : Nat) : Prop where
  used : Pmm.usedFrames s'.pmm = insert a (Pmm.usedFrames s.pmm)
  same : SameOff {a, pd, st.identityPts + 4096 * pdIdx virt} s.mem s'.mem
  entry : ∀ i, i < identityPtCount →
    hasFlag (entry s'.mem pd i) pdePresent = hasFlag (entry s.mem pd i) pdePresent ∧
      frameOf (entry s'.mem pd i) = frameOf (entry s.mem pd i)
  table : ∀ i, tableAt s'.mem pd i = tableAt s.mem pd i
  page : ∀ i j, pageAt s'.mem pd i j = pageAt s.mem pd i j
  shared : ∀ i j, i < identityPtCount → j < 1024 →
    Paging.entry s'.mem (st.identityPts + 4096 * i) j =
      if i = pdIdx virt ∧ j = ptIdx virt then a ||| flags
      else Paging.entry s.mem (st.identityPts + 4096 * i) j

theorem lowPage {st : Statics} {s s' : State} {pd virt a flags : Nat} {pmm : Pmm.State} {m : Mem}
    (hok : PdOk st s pd) (hvirt : virt < 2 ^ 32) (hlow : pdIdx virt < identityPtCount)
    (halloc : Pmm.pmmAllocFrame s.pmm = (pmm, a)) (ha : a ≠ 0) (hfill : SameOff {a} s.mem m)
    (hflags : flags < 4096) (hbit : flags.testBit 0 = true)
    (hmap : pagingMapInto ⟨pmm, m⟩ pd virt a flags = .ok s') : LowPage st s s' pd virt a flags := by
  obtain ⟨hfresh, hused, hal, -⟩ := Pmm.pmmAllocFrame_some halloc ha
  have halt := Pmm.pmmAllocFrame_lt halloc ha
  obtain ⟨hok₁, htable₁, hpage₁, hentry₁⟩ := hok.fill halloc ha hfill
  cases pagingMapInto_spec hok₁ hvirt hal halt hflags hbit hmap with
  | high pt hhigh => exact absurd hlow (Nat.not_lt.mpr hhigh)
  | low _ hpmm hsame hentry htable hpage =>
      have hpmm' : s'.pmm = pmm := hpmm
      refine ⟨?_, ?_, fun i hi => ?_, fun i => (htable i).trans (htable₁ i),
        fun i j => (hpage i j).trans (hpage₁ i j), fun i j hi hj => ?_⟩
      · rw [hpmm', hused]
      · refine (hfill.mono ?_).trans (hsame.mono ?_)
        · simp
        · exact fun x hx => Or.inr hx
      · obtain ⟨hpresent, hframe⟩ := hentry i hi
        rw [hpresent, hframe, hentry₁ i hi]
        exact ⟨rfl, rfl⟩
      · rw [pagingMapInto_shared hok₁ hvirt hlow hal halt hflags hmap hi hj]
        have hkept : Paging.entry m (st.identityPts + 4096 * i) j =
            Paging.entry s.mem (st.identityPts + 4096 * i) j := by
          apply hfill.entry_eq (Pmm.usedFrames_aligned (hok.lowUsed i hi)) hj
          exact fun hmem => hfresh (Set.mem_singleton_iff.mp hmem ▸ hok.lowUsed i hi)
        rw [hkept]

/-! ## The loop -/

/-- Pages `vas` are mapped in turn into `pd`.  The pairs are the pages that were
mapped, with their frames; the flag says that no page was missed. -/
inductive Maps (pd : Nat) : State → List Nat → List (Nat × Nat) → Bool → State → Prop
  | done (s : State) : Maps pd s [] [] true s
  | noFrame {s : State} {pmm : Pmm.State} {va : Nat} {vas : List Nat}
      (halloc : Pmm.pmmAllocFrame s.pmm = (pmm, 0)) :
      Maps pd s (va :: vas) [] false ⟨pmm, s.mem⟩
  | page {s s₁ s' : State} {pmm : Pmm.State} {m : Mem} {a flags va : Nat} {vas : List Nat}
      {as : List (Nat × Nat)} {ok : Bool}
      (halloc : Pmm.pmmAllocFrame s.pmm = (pmm, a)) (ha : a ≠ 0) (hfill : SameOff {a} s.mem m)
      (hflags : flags < 4096) (hbit : flags.testBit 0 = true)
      (hmap : pagingMapInto ⟨pmm, m⟩ pd va a flags = .ok s₁) (hrest : Maps pd s₁ vas as ok s') :
      Maps pd s (va :: vas) ((va, a) :: as) ok s'

theorem Maps.append {pd : Nat} {s s₁ s₂ : State} {xs ys : List Nat} {as bs : List (Nat × Nat)}
    {ok : Bool} (h : Maps pd s xs as true s₁) (h' : Maps pd s₁ ys bs ok s₂) :
    Maps pd s (xs ++ ys) (as ++ bs) ok s₂ := by
  generalize hok : true = b at h
  induction h with
  | done s => exact h'
  | noFrame => cases hok
  | page halloc ha hfill hflags hbit hmap _ ih =>
      exact .page halloc ha hfill hflags hbit hmap (ih h' hok)

theorem Maps.stop {pd : Nat} {s s₁ : State} {xs : List Nat} {as : List (Nat × Nat)}
    (h : Maps pd s xs as false s₁) (ys : List Nat) : Maps pd s (xs ++ ys) as false s₁ := by
  generalize hok : false = b at h
  induction h with
  | done s => cases hok
  | noFrame halloc => exact .noFrame halloc
  | page halloc ha hfill hflags hbit hmap _ ih =>
      exact .page halloc ha hfill hflags hbit hmap (ih hok)

/-- A loop that misses no page maps them all. -/
theorem Maps.all {pd : Nat} {s s' : State} {vas : List Nat} {as : List (Nat × Nat)}
    (h : Maps pd s vas as true s') : as.map Prod.fst = vas := by
  generalize hok : true = b at h
  induction h with
  | done s => rfl
  | noFrame => cases hok
  | page _ _ _ _ _ _ _ ih => rw [List.map_cons, ih hok]

/-- The pages the loop gets to with `n` free frames: a page takes a frame, and the
first page behind a directory entry above the identity map one more for its table.
Without a frame for a page the loop ends; without one for a table the kernel
panics. -/
def mappedPages : List Nat → Nat → List Nat → List Nat
  | _, _, [] => []
  | _, 0, _ :: _ => []
  | seen, n + 1, va :: vas =>
      if pdIdx va < identityPtCount ∨ pdIdx va ∈ seen then va :: mappedPages seen n vas
      else
        match n with
        | 0 => []
        | n + 1 => va :: mappedPages (pdIdx va :: seen) n vas

theorem mappedPages_shared {seen vas : List Nat} {n va : Nat}
    (h : pdIdx va < identityPtCount ∨ pdIdx va ∈ seen) :
    mappedPages seen (n + 1) (va :: vas) = va :: mappedPages seen n vas := by
  cases n with
  | zero => rw [mappedPages, if_pos h]
  | succ n => rw [mappedPages, if_pos h]

theorem mappedPages_new {seen vas : List Nat} {n va : Nat}
    (h : ¬(pdIdx va < identityPtCount ∨ pdIdx va ∈ seen)) :
    mappedPages seen (n + 2) (va :: vas) = va :: mappedPages (pdIdx va :: seen) n vas := by
  rw [mappedPages, if_neg h]

theorem mappedPages_sublist (seen : List Nat) (n : Nat) (vas : List Nat) :
    (mappedPages seen n vas).Sublist vas := by
  fun_induction mappedPages seen n vas with
  | case1 => exact List.Sublist.refl _
  | case2 => exact List.nil_sublist _
  | case3 _ _ _ _ _ ih => exact ih.cons_cons _
  | case4 => exact List.nil_sublist _
  | case5 _ _ _ _ _ ih => exact ih.cons_cons _

/-- The loop maps the pages it was predicted to map. -/
theorem Maps.mapped {st : Statics} {pd : Nat} {s s' : State} {vas : List Nat}
    {as : List (Nat × Nat)} {ok : Bool} (h : Maps pd s vas as ok s') (hok : PdOk st s pd)
    (hzero : 0 ∈ Pmm.usedFrames s.pmm) {seen : List Nat}
    (hseen : ∀ i, i ∈ seen ↔ tableAt s.mem pd i ≠ none) (hvas : ∀ va ∈ vas, va < 2 ^ 32) :
    as.map Prod.fst = mappedPages seen (Pmm.budget s.pmm) vas := by
  induction h generalizing seen with
  | done s => rw [List.map_nil, mappedPages]
  | noFrame halloc => rw [(Pmm.pmmAllocFrame_none halloc hzero).2, List.map_nil, mappedPages]
  | @page s s₁ s' pmm m a flags va vas as ok halloc ha hfill hflags hbit hmap hrest ih =>
      have hva := hvas va List.mem_cons_self
      have hvas' : ∀ v ∈ vas, v < 2 ^ 32 := fun v hv => hvas v (List.mem_cons_of_mem va hv)
      obtain ⟨hstep, hok₁, hfresh⟩ := pageStep hok hva halloc ha hfill hflags hbit hmap
      cases hstep with
      | low hlow hused hbudget htable hpage =>
          have hzero₁ : 0 ∈ Pmm.usedFrames s₁.pmm := by
            rw [hused]
            exact Set.mem_insert_of_mem a hzero
          rw [hbudget, mappedPages_shared (Or.inl hlow), List.map_cons,
            ih hok₁ hzero₁ (fun i => by rw [hseen, htable]) hvas']
      | old pt hhigh hold hused hbudget hsame hentry htable hpage =>
          have hzero₁ : 0 ∈ Pmm.usedFrames s₁.pmm := by
            rw [hused]
            exact Set.mem_insert_of_mem a hzero
          have hin : pdIdx va ∈ seen := (hseen _).mpr (by rw [hold]; exact Option.some_ne_none pt)
          rw [hbudget, mappedPages_shared (Or.inr hin), List.map_cons,
            ih hok₁ hzero₁ (fun i => by rw [hseen, htable]) hvas']
      | new pt hhigh hnone hfreshPt hused hbudget hsame hentry htable hpage =>
          have hzero₁ : 0 ∈ Pmm.usedFrames s₁.pmm := by
            rw [hused]
            exact Set.mem_insert_of_mem pt (Set.mem_insert_of_mem a hzero)
          have hout : ¬(pdIdx va < identityPtCount ∨ pdIdx va ∈ seen) := by
            rw [not_or, hseen, hnone]
            exact ⟨Nat.not_lt.mpr hhigh, fun hne => hne rfl⟩
          have hseen₁ : ∀ i, i ∈ pdIdx va :: seen ↔ tableAt s₁.mem pd i ≠ none := by
            intro i
            rw [List.mem_cons, hseen, htable]
            split
            · next hi => simp [hi]
            · next hi => simp [hi]
          rw [hbudget, mappedPages_new hout, List.map_cons, ih hok₁ hzero₁ hseen₁ hvas']

end StakOS.Paging
