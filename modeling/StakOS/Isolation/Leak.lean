import StakOS.Isolation.Runs

/-!
# Frames over the life of a process

`process_free` gives back what the directory of a process refers to.  A frame that
was taken for the process and that its directory does not refer to is lost: one
mapped below the identity window, whose entry stands in a shared table, and one
whose entry a later mapping of the same page replaced.
-/

namespace StakOS.Process

open StakOS.Lib.Memory StakOS.Lib.Loop StakOS.Lib.Ownership StakOS.Paging

/-! ## One page -/

/-- The frames taken for a process since `used₀`, when the pages `mapped` have been
mapped for it. -/
structure Account (st : Statics) (used₀ : Set Nat) (f : Frames) (s : Paging.State)
    (mapped : List Nat) : Prop where
  dir : PdOk st s f.pd
  zero : 0 ∈ Pmm.usedFrames s.pmm
  kept : used₀ ⊆ Pmm.usedFrames s.pmm
  tenure : Tenure (slots s.mem f) (Pmm.usedFrames s.pmm \ used₀)
  pages : ∀ i j, pageAt s.mem f.pd i j ≠ none ↔
    ∃ va ∈ mapped, identityPtCount ≤ pdIdx va ∧ pdIdx va = i ∧ ptIdx va = j

/-- The frames taken for a process that its directory does not refer to. -/
def lostFrames (used₀ : Set Nat) (f : Frames) (s : Paging.State) : Set Nat :=
  lost (slots s.mem f) (Pmm.usedFrames s.pmm \ used₀)

/-- The two indices of a page-aligned address determine it. -/
theorem eq_of_indices {va va' : Nat} (h : va % 4096 = 0) (h' : va' % 4096 = 0)
    (hpd : pdIdx va = pdIdx va') (hpt : ptIdx va = ptIdx va') : va = va' := by
  unfold pdIdx at hpd
  unfold ptIdx at hpt
  omega

theorem insert_diff_fresh {used used₀ : Set Nat} {a : Nat} (ha : a ∉ used) (hsub : used₀ ⊆ used) :
    insert a used \ used₀ = insert a (used \ used₀) :=
  Set.insert_sdiff_of_notMem used fun hin => ha (hsub hin)

namespace Account

variable {st : Statics} {used₀ : Set Nat} {f : Frames} {s s' : Paging.State} {mapped : List Nat}
variable {va a pt : Nat}

/-- A page in the identity window: the shared table refers to its frame, the
directory does not. -/
theorem low (h : Account st used₀ f s mapped) (hok : PdOk st s' f.pd)
    (ha : a ∉ Pmm.usedFrames s.pmm) (hlow : pdIdx va < identityPtCount)
    (hused : Pmm.usedFrames s'.pmm = insert a (Pmm.usedFrames s.pmm))
    (htable : ∀ i, tableAt s'.mem f.pd i = tableAt s.mem f.pd i)
    (hpage : ∀ i j, pageAt s'.mem f.pd i j = pageAt s.mem f.pd i j) :
    Account st used₀ f s' (va :: mapped) ∧ lostFrames used₀ f s' ≠ ∅ := by
  have hslots : slots s'.mem f = slots s.mem f := by
    funext sl
    cases sl with
    | pd => rfl
    | lo => rfl
    | hi => rfl
    | table i => exact htable i
    | page i j => exact hpage i j
  have hnew : Pmm.usedFrames s'.pmm \ used₀ = insert a (Pmm.usedFrames s.pmm \ used₀) := by
    rw [hused, insert_diff_fresh ha h.kept]
  have hgrow : Pmm.usedFrames s.pmm ⊆ Pmm.usedFrames s'.pmm := hused ▸ Set.subset_insert a _
  refine ⟨⟨hok, hgrow h.zero, h.kept.trans hgrow, ?_, fun i j => ?_⟩, ?_⟩
  · rw [hslots, hnew]
    exact h.tenure.widen (Set.subset_insert a _)
  · rw [hpage i j, h.pages i j]
    simp only [List.mem_cons, exists_eq_or_imp]
    exact ⟨Or.inr, fun hin => hin.resolve_left fun hva => Nat.not_le_of_lt hlow hva.1⟩
  · unfold lostFrames
    rw [hslots, hnew]
    exact h.tenure.lost_insert fun hin => ha hin.1

/-- A page above it: nothing is lost unless the page was mapped already. -/
theorem high (h : Account st used₀ f s mapped) (hok : PdOk st s' f.pd)
    (ha : a ∉ Pmm.usedFrames s.pmm) (hal : va % 4096 = 0) (hmapped : ∀ v ∈ mapped, v % 4096 = 0)
    (hhigh : identityPtCount ≤ pdIdx va) (hpage : HighPage s s' f.pd va a pt) :
    Account st used₀ f s' (va :: mapped) ∧
      (lostFrames used₀ f s' = ∅ ↔ lostFrames used₀ f s = ∅ ∧ va ∉ mapped) := by
  have hne := hpage.ne h.dir ha
  have hpt : pt ∉ used₀ := by
    intro hin
    rcases hpage.origin with hold | ⟨-, hnew⟩
    · have hsl : slots s.mem f (.table (pdIdx va)) = some pt := hold
      exact (h.tenure.held _ _ hsl).2 hin
    · exact hnew (Set.mem_insert_of_mem a (h.kept hin))
  have hnew : Pmm.usedFrames s'.pmm \ used₀ =
      insert pt (insert a (Pmm.usedFrames s.pmm \ used₀)) := by
    rw [hpage.used, Set.insert_sdiff_of_notMem _ hpt, insert_diff_fresh ha h.kept]
  have hgrow : Pmm.usedFrames s.pmm ⊆ Pmm.usedFrames s'.pmm := by
    rw [hpage.used]
    exact fun x hx => Set.mem_insert_of_mem pt (Set.mem_insert_of_mem a hx)
  have ha' : a ∉ Pmm.usedFrames s.pmm \ used₀ := fun hin => ha hin.1
  have horigin : slots s.mem f (.table (pdIdx va)) = some pt ∨
      (slots s.mem f (.table (pdIdx va)) = none ∧
        pt ∉ insert a (Pmm.usedFrames s.pmm \ used₀)) := by
    rcases hpage.origin with hold | ⟨hnone, hfresh⟩
    · exact Or.inl hold
    · exact Or.inr ⟨hnone, fun hin => hfresh (hin.imp id And.left)⟩
  refine ⟨⟨hok, hgrow h.zero, h.kept.trans hgrow, ?_, fun i j => ?_⟩, ?_⟩
  · rw [slots_highPage hpage, hnew]
    refine h.tenure.grant_pair (horigin.imp id fun hor hin => hor.2 ?_) ha' hne le_rfl
    exact Set.mem_insert_of_mem a hin
  · rw [hpage.page i j]
    simp only [List.mem_cons, exists_eq_or_imp]
    by_cases hij : i = pdIdx va ∧ j = ptIdx va
    · rw [if_pos hij]
      simp [hij, hhigh]
    · rw [if_neg hij, h.pages i j]
      exact ⟨Or.inr, fun hin => hin.resolve_left fun hva => hij ⟨hva.2.1.symm, hva.2.2.symm⟩⟩
  · -- the slot is empty iff the page was not mapped
    have hslot : slots s.mem f (.page (pdIdx va) (ptIdx va)) = none ↔ va ∉ mapped := by
      have hpages := h.pages (pdIdx va) (ptIdx va)
      rw [← not_iff_not, not_not]
      refine hpages.trans ⟨?_, fun hin => ⟨va, hin, hhigh, rfl, rfl⟩⟩
      rintro ⟨v, hv, -, hpd, hptIdx⟩
      exact eq_of_indices (hmapped v hv) hal hpd hptIdx ▸ hv
    unfold lostFrames
    rw [slots_highPage hpage, hnew, h.tenure.lost_grant_pair horigin ha' (by simp), hslot]

/-- Page after page: nothing is lost iff every page lies above the identity window
and is mapped once. -/
theorem maps {vas : List Nat} {as : List (Nat × Nat)} {ok : Bool}
    (h : Account st used₀ f s mapped) (hmaps : Maps f.pd s vas as ok s')
    (hvas : ∀ v ∈ vas, v % 4096 = 0 ∧ v < 2 ^ 32) (hmapped : ∀ v ∈ mapped, v % 4096 = 0) :
    (∃ mapped', Account st used₀ f s' mapped') ∧
      (lostFrames used₀ f s' = ∅ ↔ lostFrames used₀ f s = ∅ ∧
        (∀ v ∈ as.map Prod.fst, identityMappedBytes ≤ v ∧ v ∉ mapped) ∧
        (as.map Prod.fst).Nodup) := by
  generalize hpd : f.pd = pd at hmaps
  induction hmaps generalizing mapped with
  | done s => exact ⟨⟨mapped, h⟩, by simp⟩
  | noFrame halloc =>
      rw [(Pmm.pmmAllocFrame_none halloc h.zero).1]
      exact ⟨⟨mapped, h⟩, by simp⟩
  | @page s s₁ s' pmm m a flags va vas as ok halloc ha hfill hflags hbit hmap hrest ih =>
      subst hpd
      obtain ⟨hal, hva⟩ := hvas va List.mem_cons_self
      have hvas' : ∀ v ∈ vas, v % 4096 = 0 ∧ v < 2 ^ 32 := fun v hv =>
        hvas v (List.mem_cons_of_mem va hv)
      have hmapped' : ∀ v ∈ va :: mapped, v % 4096 = 0 := by
        intro v hv
        rcases List.mem_cons.mp hv with rfl | hv
        · exact hal
        · exact hmapped v hv
      obtain ⟨hstep, hok₁, hfresh⟩ := pageStep h.dir hva halloc ha hfill hflags hbit hmap
      have hsplit : Account st used₀ f s₁ (va :: mapped) ∧
          (lostFrames used₀ f s₁ = ∅ ↔ lostFrames used₀ f s = ∅ ∧
            identityMappedBytes ≤ va ∧ va ∉ mapped) := by
        by_cases hlow : pdIdx va < identityPtCount
        · cases hstep with
          | low _ hused _ htable hpage =>
              obtain ⟨hacc, hlost⟩ := h.low hok₁ hfresh hlow hused htable hpage
              refine ⟨hacc, iff_of_false hlost ?_⟩
              rintro ⟨-, hhigh, -⟩
              exact Nat.not_le_of_lt (pdIdx_low.mp hlow) hhigh
          | old pt hhigh => exact absurd hlow (Nat.not_lt.mpr hhigh)
          | new pt hhigh => exact absurd hlow (Nat.not_lt.mpr hhigh)
        · have hhigh : identityPtCount ≤ pdIdx va := Nat.le_of_not_lt hlow
          have hbytes : identityMappedBytes ≤ va :=
            Nat.le_of_not_lt fun hlt => hlow (pdIdx_low.mpr hlt)
          obtain ⟨pt, hpage⟩ := hstep.high h.dir hhigh
          obtain ⟨hacc, hlost⟩ := h.high hok₁ hfresh hal hmapped hhigh hpage
          exact ⟨hacc, hlost.trans (and_congr_right' (by simp [hbytes]))⟩
      obtain ⟨hacc, hlost⟩ := hsplit
      obtain ⟨hacc', hlost'⟩ := ih hacc hvas' hmapped'
      refine ⟨hacc', hlost'.trans ?_⟩
      rw [hlost, List.map_cons, List.forall_mem_cons, List.nodup_cons]
      simp only [List.mem_cons, not_or]
      constructor
      · rintro ⟨⟨hs, hva⟩, hall, hnodup⟩
        exact ⟨hs, ⟨hva, fun v hv => ⟨(hall v hv).1, (hall v hv).2.2⟩⟩,
          fun hin => (hall va hin).2.1 rfl, hnodup⟩
      · rintro ⟨hs, ⟨hva, hall⟩, hnot, hnodup⟩
        exact ⟨⟨hs, hva⟩, fun v hv => ⟨(hall v hv).1, fun heq => hnot (heq ▸ hv), (hall v hv).2⟩,
          hnodup⟩

end Account

/-! ## A new process -/

/-- What the kernel promises when `process_create_from_elf` is called: consistent
lists, a kernel image that is in use, and the directory entries of `paging_init`. -/
structure Ready (img : Image) (k : Kernel) (q zs : List Nat) : Prop where
  inv : Inv img k q zs
  kernelUsed : KernelUsed img.toStatics k.ms.pmm
  directory : ∀ i, i < identityPtCount →
    entry k.ms.mem img.kernelPd i = identityEntry img.toStatics i

/-- In every state of a run. -/
theorem LeaseInv.ready {closed : Prop} {img : Image} {pmm₀ : Pmm.State} {k : Kernel}
    {q zs : List Nat} (h : LeaseInv closed img pmm₀ k) (hinv : Inv img k q zs) : Ready img k q zs :=
  ⟨hinv, fun a hal ha => h.leases.kept (h.leases.kernel a hal ha), h.leases.entries.kernel⟩

section New

variable {img : Image} {k : Kernel} {q zs : List Nat} {f : Frames} {ms : Paging.State}

theorem Ready.zero_used (h : Ready img k q zs) : 0 ∈ Pmm.usedFrames k.ms.pmm := by
  have hpos := img.kernelPd_pos
  have hend := img.kernelPd_end
  exact h.kernelUsed 0 rfl (by omega)

theorem Ready.pdOk (h : Ready img k q zs) (hb : BuiltOk img k f ms) : PdOk img.toStatics ms f.pd := by
  have hgrow : ∀ a, a ∈ Pmm.usedFrames k.ms.pmm → a ∈ Pmm.usedFrames ms.pmm := by
    intro a ha
    rw [hb.used]
    exact Or.inr (Or.inr (Or.inr ha))
  have hnone : ∀ i pt, tableAt ms.mem f.pd i ≠ some pt := by
    intro i pt
    rw [hb.empty i]
    exact Option.some_ne_none pt ∘ Eq.symm
  have hlow : ∀ i, i < identityPtCount → entry ms.mem f.pd i = identityEntry img.toStatics i :=
    fun i hi => (hb.low i hi).trans (h.directory i hi)
  refine ⟨?_, fun i pt hpt => absurd hpt (hnone i pt), fun i pt hpt => absurd hpt (hnone i pt),
    fun i i' pt hpt => absurd hpt (hnone i pt), fun i hi => ?_, fun i hi => ?_, fun i hi => ?_,
    fun i hi => ?_, fun i i' pt _ hpt => absurd hpt (hnone i' pt)⟩
  · rw [hb.used]
    exact Or.inr (Or.inr (Or.inl rfl))
  · rw [hlow i hi]
    exact (identityEntry_flags img.toStatics i).1
  · rw [hlow i hi]
    exact (identityEntry_flags img.toStatics i).2.1
  · exact hgrow _ (kernelUsed_pts h.kernelUsed hi)
  · exact fun heq => hb.new.pd (heq ▸ kernelUsed_pts h.kernelUsed hi)

/-- A new process holds all that was taken for it. -/
theorem Ready.account (h : Ready img k q zs) (hb : BuiltOk img k f ms) :
    Account img.toStatics (Pmm.usedFrames k.ms.pmm) f ms [] ∧
      lostFrames (Pmm.usedFrames k.ms.pmm) f ms = ∅ := by
  have hkept : Pmm.usedFrames k.ms.pmm ⊆ Pmm.usedFrames ms.pmm := by
    rw [hb.used]
    exact fun a ha => Or.inr (Or.inr (Or.inr ha))
  have htenure : Tenure (slots ms.mem f) (Pmm.usedFrames ms.pmm \ Pmm.usedFrames k.ms.pmm) := by
    refine ⟨fun sl a hsl => ?_, fun sl sl' a hsl hsl' => hb.new.slots_inj hb.empty hsl hsl'⟩
    rw [hb.used]
    rcases slots_empty hb.empty hsl with ⟨-, rfl⟩ | ⟨-, rfl⟩ | ⟨-, rfl⟩
    · exact ⟨Or.inr (Or.inr (Or.inl rfl)), hb.new.pd⟩
    · exact ⟨Or.inr (Or.inl rfl), fun hin => hb.new.lo (Or.inr hin)⟩
    · exact ⟨Or.inl rfl, fun hin => hb.new.hi (Or.inr (Or.inr hin))⟩
  refine ⟨⟨h.pdOk hb, hkept h.zero_used, hkept, htenure, fun i j => ?_⟩, ?_⟩
  · rw [pageAt_of_none j (hb.empty i)]
    simp
  · apply (diff_held_eq_iff hkept htenure).mp
    change Pmm.usedFrames ms.pmm \ heldFrames ms.mem f = _
    rw [heldFrames_empty hb.empty, hb.used]
    exact hb.new.diff

end New

/-! ## Exit and reaping -/

/-- The pages that a call maps lie above the identity window, each mapped once. -/
def MapsCleanly (base : Nat) (k : Kernel) (data : Mem) : Prop :=
  (∀ va ∈ pagesMapped base k data, identityMappedBytes ≤ va) ∧ (pagesMapped base k data).Nodup

/-- The frames a directory is made of: itself and its tables. -/
def treeFrames (m : Mem) (pd : Nat) : Set Nat := { a | a = pd ∨ ∃ i, tableAt m pd i = some a }

/-- A state `k` in which process `p` of `k'` is dead, behind the zombies `pre`: no
frame has been taken or given back since, and nobody has written to the directory
and the tables of `p`. -/
structure Exited (img : Image) (k' k : Kernel) (p : Nat) (q pre rest : List Nat) : Prop where
  inv : Inv img k q (pre ++ p :: rest)
  frames : (k.pcb p).frames = (k'.pcb p).frames
  pmm : k.ms.pmm = k'.ms.pmm
  mem : SameOff (treeFrames k'.ms.mem (k'.pcb p).cr3)ᶜ k'.ms.mem k.ms.mem

/-- The directory and the tables are still there. -/
theorem Exited.slots_eq {img : Image} {k k' : Kernel} {p : Nat} {q pre rest : List Nat}
    (h : Exited img k' k p q pre rest) (hpd : (k'.pcb p).cr3 % 4096 = 0) :
    slots k.ms.mem (k.pcb p).frames = slots k'.ms.mem (k'.pcb p).frames := by
  rw [h.frames]
  funext sl
  apply slots_congr h.mem hpd
  · exact fun hout => hout (Or.inl rfl)
  · exact fun i pt hpt hout => hout (Or.inr ⟨i, hpt⟩)

/-- Freeing the process restores the frames that were free before iff none was lost. -/
theorem Account.reaped {img : Image} {k₀ k k' : Kernel} {p : Nat} {q pre rest mapped : List Nat}
    (h : Account img.toStatics (Pmm.usedFrames k₀.ms.pmm) (k'.pcb p).frames k'.ms mapped)
    (hzero : 0 ∈ Pmm.usedFrames k₀.ms.pmm) (hexit : Exited img k' k p q pre rest) :
    ∃ k'', processFree (unlinkZombie k (pre.getLastD 0) p) p = .ok k'' ∧
      (Pmm.freeSet k''.ms.pmm = Pmm.freeSet k₀.ms.pmm ↔
        lostFrames (Pmm.usedFrames k₀.ms.pmm) (k'.pcb p).frames k'.ms = ∅) := by
  obtain ⟨k'', hret, -, hreaped⟩ := hexit.inv.reap
  refine ⟨k'', hret, ?_⟩
  have hheld : ∀ sl a, slots k'.ms.mem (k'.pcb p).frames sl = some a → a % 4096 = 0 :=
    fun sl a hsl => Pmm.usedFrames_aligned (h.tenure.held sl a hsl).1
  have hpd : (k'.pcb p).cr3 % 4096 = 0 := hheld .pd _ rfl
  have hpd0 : (k'.pcb p).cr3 ≠ 0 := by
    intro h0
    have hsl : slots k'.ms.mem (k'.pcb p).frames .pd = some 0 := congrArg some h0
    exact (h.tenure.held _ _ hsl).2 hzero
  have hused : Pmm.usedFrames k''.ms.pmm = Pmm.usedFrames k'.ms.pmm \
      { a | ∃ sl, slots k'.ms.mem (k'.pcb p).frames sl = some a } := by
    rw [hreaped.ms, ← hexit.slots_eq hpd, ← hexit.pmm]
    have hframes := hexit.frames
    apply usedFrames_releaseFrames
    · rw [hframes]
      exact hpd0
    · rw [hframes]
      exact hpd
    · rw [hframes]
      exact hheld .lo _ rfl
    · rw [hframes]
      exact hheld .hi _ rfl
  rw [Pmm.freeSet_eq_iff, hused]
  exact diff_held_eq_iff h.kept h.tenure

section Created

variable {img : Image} {base r p : Nat} {k k' : Kernel} {q zs : List Nat} {data : Mem}

/-- The account of a process that the call leaves behind. -/
theorem CreatesElf.account (hcreate : CreatesElf img base data k q zs k' r) (hbase : StackBase base)
    (h : Ready img k q zs) (hp : InTable k' p) (hpnew : ¬InTable k p) :
    (∃ mapped, Account img.toStatics (Pmm.usedFrames k.ms.pmm) (k'.pcb p).frames k'.ms mapped) ∧
      (lostFrames (Pmm.usedFrames k.ms.pmm) (k'.pcb p).frames k'.ms = ∅ ↔
        MapsCleanly base k data) := by
  cases hcreate with
  | invalid => exact absurd hp hpnew
  | notCreated hcreate =>
      cases hcreate with
      | made hp => exact absurd rfl hp
      | failed _ _ hinv =>
          exact absurd (h.inv.inTable_iff.mpr (hinv.inTable_iff.mp hp)) hpnew
  | @created k₁ _ x _ hvalid hx hcreate hload hspares hpid hident =>
      cases hcreate with
      | failed => exact absurd rfl hx
      | made _ _ hnew _ hinv₁ _ _ hbuilt =>
          have hin : p = x ∨ InTable k p := by
            rw [h.inv.inTable_iff]
            cases hload with
            | loaded hinv => simpa [or_comm, or_left_comm, or_assoc] using hinv.inTable_iff.mp hp
            | abandoned hinv => simpa [or_left_comm] using hinv.inTable_iff.mp hp
          obtain rfl : p = x := hin.resolve_right hpnew
          obtain ⟨ok, hloads, -⟩ := hload.loads
          obtain ⟨as, hmaps⟩ := hloads.maps
          have hb := hbuilt.ok
          obtain ⟨hacc, hlost⟩ := h.account hb
          have hpages := pagesMapped_eq hbase hvalid hb hacc.dir hacc.zero hmaps
          obtain ⟨hacc', hlost'⟩ :=
            hacc.maps hmaps (fun v hv => programPages_ok hbase hv) (by simp)
          have hframes : (k'.pcb p).frames = (k₁.pcb p).frames := congrArg Ident.frames hident
          rw [hframes]
          refine ⟨hacc', hlost'.trans ?_⟩
          rw [hpages]
          unfold MapsCleanly
          simp [hlost]

/-- A call that leaves no process behind has taken no frames. -/
theorem CreatesElf.nothing (hcreate : CreatesElf img base data k q zs k' r)
    (h : Ready img k q zs) (hnone : ∀ p, InTable k' p → InTable k p) :
    Pmm.freeSet k'.ms.pmm = Pmm.freeSet k.ms.pmm ∧ pagesMapped base k data = [] := by
  cases hcreate with
  | invalid _ hinvalid =>
      refine ⟨rfl, ?_⟩
      unfold pagesMapped
      rw [hinvalid]
      rfl
  | notCreated hcreate =>
      cases hcreate with
      | made hp => exact absurd rfl hp
      | failed _ _ hinv _ hbuilt =>
          have hb := hbuilt.failed h.zero_used
          refine ⟨Pmm.freeSet_eq_iff.mpr hb.used, ?_⟩
          unfold pagesMapped
          rw [hb.room, Bool.and_false]
          rfl
  | @created k₁ _ x _ hvalid hx hcreate hload hspares hpid hident =>
      cases hcreate with
      | failed => exact absurd rfl hx
      | made _ _ hnew =>
          have hin : InTable k' x := by
            cases hload with
            | loaded hinv => exact hinv.inTable_iff.mpr (by simp)
            | abandoned hinv => exact hinv.inTable_iff.mpr (by simp)
          exact absurd (h.inv.inTable_iff.mp (hnone x hin)) hnew

/-- A call that succeeds queues a new process and maps all pages of the program. -/
theorem CreatesElf.succeeded (hcreate : CreatesElf img base data k q zs k' r)
    (hbase : StackBase base) (h : Ready img k q zs) (hr : r ≠ 0) :
    Inv img k' (q ++ [r]) zs ∧ r ∉ q ++ zs ∧ pagesMapped base k data = programPages data base := by
  cases hcreate with
  | invalid => exact absurd rfl hr
  | notCreated => exact absurd rfl hr
  | created hvalid hx hcreate hload =>
      cases hload with
      | abandoned => exact absurd rfl hr
      | loaded hinv hloads =>
          cases hcreate with
          | failed => exact absurd rfl hx
          | made _ _ hnew _ _ _ _ hbuilt =>
              obtain ⟨as, hmaps⟩ := hloads.maps
              obtain ⟨hacc, -⟩ := h.account hbuilt.ok
              refine ⟨hinv, hnew, ?_⟩
              rw [← hmaps.all]
              exact (pagesMapped_eq hbase hvalid hbuilt.ok hacc.dir hacc.zero hmaps).symm

end Created

/-- The frames over the life of a process made by `process_create_from_elf`.  If the
call leaves no process behind, the free frames are those from before; if it does, and
the process has exited, the reaper restores them iff the call mapped its pages
cleanly. -/
theorem frames_restored_iff {img : Image} {base priority r : Nat} {k k' : Kernel}
    {q zs : List Nat} {name : List UInt8} {data : Mem} (hbase : StackBase base)
    (h : Ready img k q zs) (hret : createFromElfAt img base k name data priority = .ok (k', r)) :
    ((∀ p, InTable k' p → InTable k p) →
      Pmm.freeSet k'.ms.pmm = Pmm.freeSet k.ms.pmm ∧ MapsCleanly base k data) ∧
    ∀ p, InTable k' p → ¬InTable k p → ∀ k₁ q₁ pre rest, Exited img k' k₁ p q₁ pre rest →
      ∃ k₂, processFree (unlinkZombie k₁ (pre.getLastD 0) p) p = .ok k₂ ∧
        (Pmm.freeSet k₂.ms.pmm = Pmm.freeSet k.ms.pmm ↔ MapsCleanly base k data) := by
  have hcreate := createFromElfAt_inv h.inv hret
  constructor
  · intro hnone
    obtain ⟨hfree, hpages⟩ := hcreate.nothing h hnone
    refine ⟨hfree, ?_⟩
    unfold MapsCleanly
    rw [hpages]
    simp
  · intro p hp hpnew k₁ q₁ pre rest hexit
    obtain ⟨⟨mapped, hacc⟩, hlost⟩ := hcreate.account hbase h hp hpnew
    obtain ⟨k₂, hfree, hiff⟩ := hacc.reaped h.zero_used hexit
    exact ⟨k₂, hfree, hiff.trans hlost⟩

/-- The bare program is loaded with its stack at `base`, runs from the next tick on,
and exits. -/
def bareLife (base : Nat) : Outcome (Kernel × Nat × Kernel × Kernel) := do
  let (k₁, p) ← createFromElfAt sampleImage base sampleBoot.kernel [] bareProgram 1
  let k₂ ← schedulerTick k₁ 0x19fff0
  let k₃ ← processExit k₂ 0 0x403fd0
  return (k₁, p, k₂, k₃)

/-- It went through all of this. -/
def bareLifeRuns (base : Nat) : Bool :=
  match bareLife base with
  | .ok (_, p, k₂, _) => decide (p ≠ 0 ∧ p ≠ sampleImage.idlePcb ∧ k₂.current = p)
  | .error _ => false

theorem sampleBoot_ready : Ready sampleImage sampleBoot.kernel [sampleImage.idlePcb] [] :=
  (boot_leaseInv sampleBoot False).ready (boot_inv sampleBoot)

theorem bareLife_exited {base : Nat} (hbase : StackBase base) (hruns : bareLifeRuns base = true) :
    ∃ k₁ p k₂ q, createFromElfAt sampleImage base sampleBoot.kernel [] bareProgram 1 = .ok (k₁, p) ∧
      p ≠ 0 ∧ InTable k₁ p ∧ ¬InTable sampleBoot.kernel p ∧
      Exited sampleImage k₁ k₂ p q [] [] := by
  unfold bareLifeRuns at hruns
  cases hlife : bareLife base with
  | error stop =>
      rw [hlife] at hruns
      cases hruns
  | ok ks =>
      obtain ⟨k₁, p, k₂, k₃⟩ := ks
      rw [hlife] at hruns
      obtain ⟨hp, hidle, hcur⟩ := of_decide_eq_true hruns
      obtain ⟨⟨k, r⟩, hcreate, hrest⟩ := bind_eq_ok.mp hlife
      obtain ⟨k', htick, hrest⟩ := bind_eq_ok.mp hrest
      obtain ⟨k'', hexit, hend⟩ := bind_eq_ok.mp hrest
      cases hend
      obtain ⟨hinv₁, hnew, -⟩ :=
        (createFromElfAt_inv sampleBoot_ready.inv hcreate).succeeded hbase sampleBoot_ready hp
      -- the tick has nobody to reap, so it only moves the queue
      obtain ⟨k₀, k₂', q₂, zs₂, ps, htick', hzs, -, hreaped, hmoves, hinv₂⟩ :=
        schedulerTick_inv 0x19fff0 hinv₁
      obtain rfl : k₂ = k₂' := Except.ok.inj (htick.symm.trans htick')
      obtain ⟨rfl, rfl⟩ := List.append_eq_nil_iff.mp hzs.nil_eq.symm
      obtain ⟨k₃', q₃, hexit', hinv₃, hperm, hmoves'⟩ :=
        processExit_inv 0 0x403fd0 hinv₂.toSchedInv (hcur ▸ Ne.symm hidle)
      obtain rfl : k₃ = k₃' := Except.ok.inj (hexit.symm.trans hexit')
      have hkeeps : Keeps k₁ k₃ := (hreaped.keeps.trans hmoves.toKeeps).trans hmoves'.toKeeps
      have hms : k₃.ms = k₁.ms := (hmoves'.ms.trans hmoves.ms).trans hreaped.ms
      rw [hcur] at hinv₃ hperm
      have hheap : HeapOk sampleImage k₃.heap (q₃ ++ [p]) := by
        rw [hmoves'.heap]
        refine hinv₂.heap.mono fun x hx => ?_
        rw [List.append_nil]
        exact hperm.symm.subset (by simpa [or_comm] using hx)
      refine ⟨k₁, p, k₃, q₃, hcreate, hp, hinv₁.inTable_iff.mpr (by simp),
        fun hin => hnew (sampleBoot_ready.inv.inTable_iff.mp hin), ⟨hinv₃, hheap⟩,
        congrArg Ident.frames (hkeeps.ident p), by rw [hms], ?_⟩
      rw [hms]
      exact .refl _

theorem frames_restored_iff_bareLife :
    ∃ k₁ p k₂ k₃, createFromElfAt sampleImage 0x40000000 sampleBoot.kernel [] bareProgram 1 =
        .ok (k₁, p) ∧ p ≠ 0 ∧ processFree (unlinkZombie k₂ 0 p) p = .ok k₃ ∧
      Pmm.freeSet k₃.ms.pmm = Pmm.freeSet sampleBoot.kernel.ms.pmm := by
  have hbase : StackBase 0x40000000 := ⟨by decide, by decide⟩
  obtain ⟨k₁, p, k₂, q, hcreate, hp, hin, hnew, hexit⟩ :=
    bareLife_exited hbase (by decide +kernel)
  obtain ⟨k₃, hfree, hiff⟩ :=
    (frames_restored_iff hbase sampleBoot_ready hcreate).2 p hin hnew k₂ q [] [] hexit
  refine ⟨k₁, p, k₂, k₃, hcreate, hp, hfree, hiff.mpr ?_⟩
  have hsub := pagesMapped_sublist 0x40000000 sampleBoot.kernel bareProgram
  have hhigh : ∀ va ∈ programPages bareProgram 0x40000000, identityMappedBytes ≤ va := by
    decide +kernel
  have hnodup : (programPages bareProgram 0x40000000).Nodup := by decide +kernel
  exact ⟨fun va hva => hhigh va (hsub.subset hva), hnodup.sublist hsub⟩

/-- With the stack where the kernel puts it, a program that was loaded has lost
frames. -/
theorem stack_frames_leaked :
    ∃ k₁ p k₂ q k₃, processCreateFromElf sampleImage sampleBoot.kernel [] bareProgram 1 =
        .ok (k₁, p) ∧ p ≠ 0 ∧ Exited sampleImage k₁ k₂ p q [] [] ∧
      processFree (unlinkZombie k₂ 0 p) p = .ok k₃ ∧
      Pmm.freeSet k₃.ms.pmm ≠ Pmm.freeSet sampleBoot.kernel.ms.pmm := by
  obtain ⟨k₁, p, k₂, q, hcreate, hp, hin, hnew, hexit⟩ :=
    bareLife_exited userStackBase_ok (by decide +kernel)
  have helf := createFromElfAt_inv sampleBoot_ready.inv hcreate
  obtain ⟨⟨mapped, hacc⟩, hlost⟩ := helf.account userStackBase_ok sampleBoot_ready hin hnew
  obtain ⟨k₃, hfree, hiff⟩ := hacc.reaped sampleBoot_ready.zero_used hexit
  refine ⟨k₁, p, k₂, q, k₃, hcreate, hp, hexit, hfree, fun hsame => ?_⟩
  have hclean := (hlost.mp (hiff.mp hsame)).1 userStackBase
  rw [(helf.succeeded userStackBase_ok sampleBoot_ready hp).2.2] at hclean
  have hstack : userStackBase ∈ programPages bareProgram userStackBase :=
    List.mem_append_right _ (by decide)
  exact absurd (hclean hstack) (by decide)

end StakOS.Process
