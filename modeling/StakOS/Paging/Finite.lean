import Mathlib.Logic.Relation
import StakOS.Lib.Ownership
import StakOS.Paging.Slots

/-!
# Page directories as finite maps

Above the identity map a directory is a finite map from pages to frames and
flags, and `paging_map_into` adds one entry to it.  The map is spread over page
tables that come from the same pool as the directories and the pages, so what
keeps two directories apart is that every frame of the pool plays one role.
-/

namespace StakOS.Paging

open StakOS.Lib.Memory StakOS.Lib.Loop StakOS.Lib.Ownership

/-! ## The walk with its flags -/

/-- The frame and the flags that the two-level walk ends in, if the page is
present. -/
def walk (m : Mem) (pd virt : Nat) : Option (Nat × Nat) :=
  if bothHave m pd virt ptePresent then
    some (frameOf (pteAt m pd virt), pteAt m pd virt % 4096)
  else none

/-- Page `j` of window `i`. -/
def pageOf (i j : Nat) : Nat := 1024 * i + j

theorem pageOf_virt (virt : Nat) : pageOf (pdIdx virt) (ptIdx virt) = virt / 4096 := by
  unfold pageOf pdIdx ptIdx
  omega

theorem pageOf_inj {i i' j j' : Nat} (hj : j < 1024) (hj' : j' < 1024) :
    pageOf i j = pageOf i' j' ↔ i = i' ∧ j = j' := by
  unfold pageOf
  omega

/-- A page table entry for what a finite map has at a page. -/
def encode : Option (Nat × Nat) → Nat
  | some (a, flags) => a ||| flags
  | none => 0

/-- A mapping that `paging_map_into` may be asked for. -/
structure Mapping (a flags : Nat) : Prop where
  aligned : a % 4096 = 0
  word : a < 2 ^ 32
  small : flags < 4096
  present : hasFlag flags ptePresent = true

theorem Mapping.encode_lt {a flags : Nat} (h : Mapping a flags) : encode (some (a, flags)) < 2 ^ 32 :=
  or_flags_lt h.aligned h.small h.word

theorem Mapping.frameOf_encode {a flags : Nat} (h : Mapping a flags) :
    frameOf (encode (some (a, flags))) = a := frameOf_or h.aligned h.small

theorem Mapping.mod_encode {a flags : Nat} (h : Mapping a flags) :
    encode (some (a, flags)) % 4096 = flags := by
  have haligned := h.aligned
  have hsmall := h.small
  rw [encode, or_flags haligned hsmall]
  omega

theorem Mapping.present_encode {a flags : Nat} (h : Mapping a flags) :
    hasFlag (encode (some (a, flags))) ptePresent = true := by
  have hpresent := h.present
  rw [hasFlag_present] at hpresent ⊢
  rw [encode, testBit_or_flags h.aligned (by decide), hpresent]

theorem Mapping.user_encode {a flags : Nat} (h : Mapping a flags) :
    hasFlag (encode (some (a, flags))) pteUser = hasFlag flags pteUser := by
  rw [hasFlag_user, hasFlag_user, encode, testBit_or_flags h.aligned (by decide)]

/-- The directory `pd` stores the finite map `f` above the identity window. -/
structure Stores (m : Mem) (pd : Nat) (f : Nat → Option (Nat × Nat)) : Prop where
  mapping : ∀ n a flags, f n = some (a, flags) → Mapping a flags
  absent : ∀ i, identityPtCount ≤ i → i < pdEntries → tableAt m pd i = none →
    ∀ j, j < 1024 → f (pageOf i j) = none
  entries : ∀ i pt, tableAt m pd i = some pt → ∀ j, j < 1024 →
    entry m pt j = encode (f (pageOf i j))
  user : ∀ i pt, tableAt m pd i = some pt → ∀ j a flags, j < 1024 →
    f (pageOf i j) = some (a, flags) → hasFlag flags pteUser = true →
    hasFlag (entry m pd i) pdeUser = true

/-- The walk reads the map. -/
theorem Stores.walk_eq {m : Mem} {pd : Nat} {f : Nat → Option (Nat × Nat)} (h : Stores m pd f)
    {va : Nat} (hva : va < 2 ^ 32) (hhigh : identityMappedBytes ≤ va) :
    walk m pd va = f (va / 4096) ∧
      userAccessible m pd va = (f (va / 4096)).any fun e => hasFlag e.2 pteUser := by
  have hidx : identityPtCount ≤ pdIdx va :=
    Nat.le_of_not_lt fun hlow => Nat.not_le_of_lt (pdIdx_low.mp hlow) hhigh
  have hj := ptIdx_lt va
  rw [← pageOf_virt va]
  unfold userAccessible walk bothHave
  cases htable : tableAt m pd (pdIdx va) with
  | none =>
      have habsent : hasFlag (pdeAt m pd va) ptePresent = false := by
        rw [← Bool.not_eq_true]
        intro hpresent
        have hsome := tableAt_eq_some.mpr ⟨hidx, pdIdx_lt hva, hpresent, rfl⟩
        rw [htable] at hsome
        cases hsome
      rw [h.absent _ hidx (pdIdx_lt hva) htable _ hj, habsent]
      simp
  | some pt =>
      obtain ⟨-, -, hpresent, hframe⟩ := tableAt_eq_some.mp htable
      have hpde : hasFlag (pdeAt m pd va) ptePresent = true := hpresent
      have hpte : pteAt m pd va = encode (f (pageOf (pdIdx va) (ptIdx va))) := by
        rw [← h.entries _ pt htable _ hj, ← hframe]
        rfl
      rw [hpte, hpde]
      cases hf : f (pageOf (pdIdx va) (ptIdx va)) with
      | none => simp [encode]
      | some e =>
          obtain ⟨a, flags⟩ := e
          have hmap := h.mapping _ a flags hf
          rw [hmap.present_encode, hmap.frameOf_encode, hmap.mod_encode, hmap.user_encode]
          refine ⟨rfl, ?_⟩
          cases huser : hasFlag flags pteUser with
          | false => rw [Option.any_some, huser, Bool.and_false, Bool.and_false]
          | true =>
              have hpdeUser : hasFlag (pdeAt m pd va) pteUser = true :=
                h.user _ pt htable _ a flags hj hf huser
              rw [Option.any_some, huser, hpdeUser]
              rfl

/-- A directory without tables stores the empty map. -/
theorem stores_empty {m : Mem} {pd : Nat} (h : ∀ i, tableAt m pd i = none) :
    Stores m pd fun _ => none where
  mapping := by
    intro n a flags hn
    cases hn
  absent := fun _ _ _ _ _ _ => rfl
  entries := by
    intro i pt hpt
    rw [h i] at hpt
    cases hpt
  user := by
    intro i pt hpt
    rw [h i] at hpt
    cases hpt

/-- What a directory stores depends on its frame and the frames of its tables. -/
theorem Stores.congr {m m' : Mem} {fs : Set Nat} {pd : Nat} {f : Nat → Option (Nat × Nat)}
    (h : Stores m pd f) (hsame : SameOff fs m m') (hpd : pd % 4096 = 0) (hout : pd ∉ fs)
    (htables : ∀ i pt, tableAt m pd i = some pt → pt ∉ fs) : Stores m' pd f := by
  have htable : ∀ i, tableAt m' pd i = tableAt m pd i := tableAt_congr hsame hpd hout
  refine ⟨h.mapping, ?_, ?_, ?_⟩
  · intro i hi hlt hnone
    rw [htable] at hnone
    exact h.absent i hi hlt hnone
  · intro i pt hpt j hj
    rw [htable] at hpt
    rw [hsame.entry_eq (tableAt_aligned hpt) hj (htables i pt hpt)]
    exact h.entries i pt hpt j hj
  · intro i pt hpt j a flags hj hf huser
    rw [htable] at hpt
    rw [hsame.entry_eq hpd (tableAt_eq_some.mp hpt).2.1 hout]
    exact h.user i pt hpt j a flags hj hf huser

/-! ## Adding an entry -/

/-- The directory entry is the one that was there or leads to a new table, with the
USER bit added when the page asks for it. -/
theorem ensureTable_entry {s s' : State} {pd virt flags : Nat}
    (h : ensureTable s pd virt flags = .ok s') :
    ∃ e, entry s'.mem pd (pdIdx virt) = (if hasFlag flags pteUser then e ||| pdeUser else e) ∧
      ((hasFlag (entry s.mem pd (pdIdx virt)) pdePresent = true ∧
          e = entry s.mem pd (pdIdx virt)) ∨
        (hasFlag (entry s.mem pd (pdIdx virt)) pdePresent = false ∧
          ∃ pt, pt % 4096 = 0 ∧ e = pt ||| (pdePresent ||| pdeWritable))) := by
  unfold ensureTable at h
  by_cases hpresent : hasFlag (entry s.mem pd (pdIdx virt)) pdePresent = true
  · simp only [hpresent, Bool.not_true, Bool.false_eq_true, if_false] at h
    refine ⟨entry s.mem pd (pdIdx virt), ?_, Or.inl ⟨hpresent, rfl⟩⟩
    by_cases huser : hasFlag flags pteUser = true
    · rw [if_pos huser] at h ⊢
      cases h
      exact entry_setEntry_same s.mem pd (pdIdx virt) (or_user_lt (entry_lt s.mem pd (pdIdx virt)))
    · rw [if_neg huser] at h ⊢
      cases h
      rfl
  · rw [Bool.not_eq_true] at hpresent
    simp only [hpresent, Bool.not_false, if_true] at h
    obtain ⟨pmm, pt, halloc⟩ : ∃ pmm pt, Pmm.pmmAllocFrame s.pmm = (pmm, pt) := ⟨_, _, rfl⟩
    rw [halloc] at h
    by_cases hpt : pt = 0
    · simp only [if_pos hpt] at h
      cases h
    · simp only [if_neg hpt] at h
      cases h
      have hal : pt % 4096 = 0 := (Pmm.pmmAllocFrame_some halloc hpt).2.2.1
      have hlt := Pmm.pmmAllocFrame_lt halloc hpt
      refine ⟨pt ||| (pdePresent ||| pdeWritable), ?_, Or.inr ⟨hpresent, pt, hal, rfl⟩⟩
      by_cases huser : hasFlag flags pteUser = true
      · rw [if_pos huser, if_pos huser, Nat.lor_assoc pt]
        exact entry_setEntry_same _ pd (pdIdx virt) (or_flags_lt hal (by decide) hlt)
      · rw [if_neg huser, if_neg huser]
        exact entry_setEntry_same _ pd (pdIdx virt) (or_flags_lt hal (by decide) hlt)

theorem hasFlag_or_user (e : Nat) : hasFlag (e ||| pdeUser) pdeUser = true := by
  rw [show pdeUser = pteUser from rfl, hasFlag_user, Nat.testBit_or]
  have hbit : pteUser.testBit 2 = true := by decide
  rw [hbit, Bool.or_true]

/-- The directory entry gets the USER bit when the page asks for it, and keeps it. -/
theorem ensureTable_user {s s' : State} {pd virt flags : Nat}
    (h : ensureTable s pd virt flags = .ok s') :
    (hasFlag flags pteUser = true → hasFlag (entry s'.mem pd (pdIdx virt)) pdeUser = true) ∧
    (hasFlag (entry s.mem pd (pdIdx virt)) pdePresent = true →
      hasFlag (entry s.mem pd (pdIdx virt)) pdeUser = true →
      hasFlag (entry s'.mem pd (pdIdx virt)) pdeUser = true) := by
  obtain ⟨e, hentry, horigin⟩ := ensureTable_entry h
  rw [hentry]
  by_cases huser : hasFlag flags pteUser = true
  · rw [if_pos huser]
    exact ⟨fun _ => hasFlag_or_user e, fun _ _ => hasFlag_or_user e⟩
  · rw [if_neg huser]
    refine ⟨fun hyes => absurd hyes huser, fun hpresent hold => ?_⟩
    rcases horigin with ⟨-, he⟩ | ⟨habsent, -⟩
    · rw [he]
      exact hold
    · rw [habsent] at hpresent
      cases hpresent

/-- It stays writable, and a new one is. -/
theorem ensureTable_writable {s s' : State} {pd virt flags : Nat}
    (h : ensureTable s pd virt flags = .ok s')
    (hold : hasFlag (entry s.mem pd (pdIdx virt)) pdePresent = true →
      hasFlag (entry s.mem pd (pdIdx virt)) pdeWritable = true) :
    hasFlag (entry s'.mem pd (pdIdx virt)) pdeWritable = true := by
  obtain ⟨e, hentry, horigin⟩ := ensureTable_entry h
  have hwritable : e.testBit 1 = true := by
    rcases horigin with ⟨hpresent, he⟩ | ⟨-, pt, hal, he⟩
    · rw [he]
      exact (hasFlag_writable _).symm.trans (hold hpresent)
    · rw [he, testBit_or_flags hal (by decide)]
      decide
  rw [hentry, show pdeWritable = pteWritable from rfl, hasFlag_writable]
  split
  · rw [Nat.testBit_or, hwritable, Bool.true_or]
  · exact hwritable

/-- What `paging_map_into` does above the identity window: it works in the table
`pt`, which is the directory's or new. -/
structure AddsEntry (s s' : State) (pd virt pt : Nat) : Prop where
  origin : (tableAt s.mem pd (pdIdx virt) = some pt ∧ s'.pmm = s.pmm) ∨
    (tableAt s.mem pd (pdIdx virt) = none ∧ Pmm.pmmAllocFrame s.pmm = (s'.pmm, pt) ∧ pt ≠ 0)
  same : SameOff {pd, pt} s.mem s'.mem
  table : ∀ i, tableAt s'.mem pd i = if i = pdIdx virt then some pt else tableAt s.mem pd i

/-- With `pt` as the table of window `i`, a table is this one or was there before. -/
theorem tableAt_cases {m m' : Mem} {pd i k pt pt' : Nat}
    (htable : ∀ k, tableAt m' pd k = if k = i then some pt else tableAt m pd k)
    (hk : tableAt m' pd k = some pt') :
    (k = i ∧ pt' = pt) ∨ (k ≠ i ∧ tableAt m pd k = some pt') := by
  rw [htable] at hk
  by_cases heq : k = i
  · rw [if_pos heq] at hk
    exact Or.inl ⟨heq, (Option.some.inj hk).symm⟩
  · rw [if_neg heq] at hk
    exact Or.inr ⟨heq, hk⟩

section Update

variable {f : Nat → Option (Nat × Nat)} {e : Option (Nat × Nat)} {virt : Nat}

/-- The page of `virt` is the only one that gets another entry. -/
theorem update_page_of_ne {i j : Nat} (hj : j < 1024) (hne : i ≠ pdIdx virt ∨ j ≠ ptIdx virt) :
    Function.update f (virt / 4096) e (pageOf i j) = f (pageOf i j) := by
  apply Function.update_of_ne
  rw [← pageOf_virt virt]
  intro heq
  have hij := (pageOf_inj hj (ptIdx_lt virt)).mp heq
  tauto

theorem update_page_self : Function.update f (virt / 4096) e (pageOf (pdIdx virt) (ptIdx virt)) = e := by
  rw [pageOf_virt, Function.update_self]

end Update

/-- Mapping a page adds its entry to the map the directory stores. -/
theorem Stores.mapInto {s s' : State} {pd virt a flags : Nat} {f : Nat → Option (Nat × Nat)}
    (h : Stores s.mem pd f) (halone : Alone s pd) (hvirt : virt < 2 ^ 32)
    (hhigh : identityMappedBytes ≤ virt) (hmapping : Mapping a flags)
    (hmap : pagingMapInto s pd virt a flags = .ok s') :
    ∃ pt, AddsEntry s s' pd virt pt ∧
      Stores s'.mem pd (Function.update f (virt / 4096) (some (a, flags))) := by
  obtain ⟨pt, s₁, hensure, hens, rfl⟩ := pagingMapInto_eq halone.used hvirt hmap
  rw [frameOf_of_aligned hmapping.aligned]
  have hidx : identityPtCount ≤ pdIdx virt :=
    Nat.le_of_not_lt fun hlow => Nat.not_le_of_lt (pdIdx_low.mp hlow) hhigh
  have hj := ptIdx_lt virt
  have hpd : pd % 4096 = 0 := Pmm.usedFrames_aligned halone.used
  have hptal : pt % 4096 = 0 := hens.table ▸ frameOf_aligned _
  have hsame := hens.mem_sameOff (e := a ||| flags) hptal hj
  have htable := hens.high_tables (e := a ||| flags) halone hvirt hidx hj
  obtain ⟨hne, hothers⟩ := hens.high_apart halone hvirt hidx
  refine ⟨pt, ⟨hens.high_origin hvirt hidx, hsame, htable⟩, ?_⟩
  have hentry : ∀ i, i < 1024 →
      entry (setEntry s₁.mem pt (ptIdx virt) (a ||| flags)) pd i = entry s₁.mem pd i :=
    fun i hi => entry_setEntry_ne _ hpd hptal hne hj hi
  constructor
  · intro n b fl hn
    by_cases hnv : n = virt / 4096
    · rw [hnv, Function.update_self] at hn
      cases hn
      exact hmapping
    · rw [Function.update_of_ne hnv] at hn
      exact h.mapping n b fl hn
  · intro i hi hlt hnone j hjlt
    rw [htable] at hnone
    by_cases hiv : i = pdIdx virt
    · rw [if_pos hiv] at hnone
      cases hnone
    · rw [if_neg hiv] at hnone
      rw [update_page_of_ne hjlt (Or.inl hiv)]
      exact h.absent i hi hlt hnone j hjlt
  · intro i pt' hpt' j hjlt
    rcases tableAt_cases htable hpt' with ⟨rfl, rfl⟩ | ⟨hiv, hold⟩
    · by_cases hjv : j = ptIdx virt
      · subst hjv
        rw [update_page_self]
        exact entry_setEntry_same s₁.mem pt' (ptIdx virt) hmapping.encode_lt
      · rw [update_page_of_ne hjlt (Or.inr hjv)]
        rcases hens.high_entry (e := a ||| flags) halone hvirt hidx hj hjlt hjv with
          ⟨hbefore, hread⟩ | ⟨hbefore, hread⟩
        · exact hread.trans (h.entries _ pt' hbefore j hjlt)
        · rw [h.absent _ hidx (pdIdx_lt hvirt) hbefore j hjlt]
          exact hread
    · rw [update_page_of_ne hjlt (Or.inl hiv)]
      rw [hsame.entry_eq (tableAt_aligned hold) hjlt
        (notMem_pair (halone.tableNe i pt' hold) (hothers i pt' hiv hold))]
      exact h.entries i pt' hold j hjlt
  · intro i pt' hpt' j b fl hjlt hf huser
    rcases tableAt_cases htable hpt' with ⟨rfl, rfl⟩ | ⟨hiv, hold⟩
    · show hasFlag (entry (setEntry s₁.mem pt' (ptIdx virt) (a ||| flags)) pd (pdIdx virt)) _ = true
      rw [hentry _ (pdIdx_lt hvirt)]
      by_cases hjv : j = ptIdx virt
      · subst hjv
        rw [update_page_self] at hf
        cases hf
        exact (ensureTable_user hensure).1 huser
      · rw [update_page_of_ne hjlt (Or.inr hjv)] at hf
        cases hbefore : tableAt s.mem pd (pdIdx virt) with
        | none =>
            rw [h.absent _ hidx (pdIdx_lt hvirt) hbefore j hjlt] at hf
            cases hf
        | some old =>
            have hpresent := (tableAt_eq_some.mp hbefore).2.2.1
            exact (ensureTable_user hensure).2 hpresent
              (h.user _ old hbefore j b fl hjlt hf huser)
    · rw [update_page_of_ne hjlt (Or.inl hiv)] at hf
      have hlt := (tableAt_eq_some.mp hold).2.1
      show hasFlag (entry (setEntry s₁.mem pt (ptIdx virt) (a ||| flags)) pd i) _ = true
      rw [hentry i hlt, hens.others i hlt hiv]
      exact h.user i pt' hold j b fl hjlt hf huser

/-! ## Any number of directories -/

/-- A call of `paging_map_into`. -/
structure MapCall where
  pd : Nat
  page : Nat
  frame : Nat
  flags : Nat

/-- The frame and flags of the last call for a page of a directory; the calls are
listed newest first. -/
def lastCall (calls : List MapCall) (pd page : Nat) : Option (Nat × Nat) :=
  (calls.find? fun c => c.pd = pd && c.page = page).map fun c => (c.frame, c.flags)

/-- The machine, the directories created, the frames allocated for pages, and the
calls made so far. -/
structure Pool where
  s : State
  dirs : List Nat
  frames : List Nat
  calls : List MapCall

/-- One call that does not run out of memory, or a store of the caller into the
frames it has allocated. -/
inductive Pool.Step (st : Statics) : Pool → Pool → Prop
  | create {t : Pool} {s' : State} {pd : Nat} (hcreate : pagingCreateUserPd st t.s = (s', pd))
      (hpd : pd ≠ 0) : Pool.Step st t ⟨s', pd :: t.dirs, t.frames, t.calls⟩
  | alloc {t : Pool} {pmm : Pmm.State} {a : Nat} (halloc : Pmm.pmmAllocFrame t.s.pmm = (pmm, a))
      (ha : a ≠ 0) : Pool.Step st t ⟨⟨pmm, t.s.mem⟩, t.dirs, a :: t.frames, t.calls⟩
  | store {t : Pool} {m : Mem} (hsame : SameOff { a | a ∈ t.frames } t.s.mem m) :
      Pool.Step st t ⟨⟨t.s.pmm, m⟩, t.dirs, t.frames, t.calls⟩
  | map {t : Pool} {s' : State} {pd virt a flags : Nat} (hpd : pd ∈ t.dirs) (ha : a ∈ t.frames)
      (hvirt : virt < 2 ^ 32) (hhigh : identityMappedBytes ≤ virt) (hflags : flags < 4096)
      (hpresent : hasFlag flags ptePresent = true)
      (hmap : pagingMapInto t.s pd virt a flags = .ok s') :
      Pool.Step st t ⟨s', t.dirs, t.frames, ⟨pd, virt / 4096, a, flags⟩ :: t.calls⟩

/-- The roles a frame of the pool can play. -/
inductive Role where
  | directory (pd : Nat)
  | table (pd i : Nat)
  | page (a : Nat)
deriving DecidableEq

/-- Which frame plays a role. -/
def Pool.own (t : Pool) : Role → Option Nat
  | .directory pd => if pd ∈ t.dirs then some pd else none
  | .table pd i => if pd ∈ t.dirs then tableAt t.s.mem pd i else none
  | .page a => if a ∈ t.frames then some a else none

/-- The invariant: every frame plays one role, and every directory stores the last
calls on it. -/
structure Pool.Inv (t : Pool) : Prop where
  tenure : Tenure t.own (Pmm.usedFrames t.s.pmm)
  stores : ∀ pd ∈ t.dirs, Stores t.s.mem pd (lastCall t.calls pd)
  known : ∀ c ∈ t.calls, c.pd ∈ t.dirs

theorem lastCall_cons (c : MapCall) (calls : List MapCall) (pd : Nat) :
    lastCall (c :: calls) pd = if c.pd = pd then
      Function.update (lastCall calls pd) c.page (some (c.frame, c.flags))
    else lastCall calls pd := by
  funext page
  unfold lastCall
  rw [List.find?_cons]
  by_cases hpd : c.pd = pd
  · rw [if_pos hpd]
    by_cases hpage : page = c.page
    · simp [hpd, hpage]
    · rw [Function.update_of_ne hpage]
      simp [hpd, Ne.symm hpage]
  · simp [hpd]

theorem lastCall_of_unknown {calls : List MapCall} {pd : Nat} (h : ∀ c ∈ calls, c.pd ≠ pd) :
    lastCall calls pd = fun _ => none := by
  funext page
  unfold lastCall
  rw [Option.map_eq_none_iff, List.find?_eq_none]
  intro c hc
  simp [h c hc]

/-! ### Frames in their roles -/

/-- Every frame of the pool plays one role. -/
def Pool.Tenured (t : Pool) : Prop := Tenure t.own (Pmm.usedFrames t.s.pmm)

namespace Pool.Tenured

variable {st : Statics} {t : Pool} {s' : State} {calls : List MapCall} {pd pd' i i' pt a : Nat}

theorem dir_used (h : t.Tenured) (hpd : pd ∈ t.dirs) : pd ∈ Pmm.usedFrames t.s.pmm :=
  h.held (.directory pd) pd (if_pos hpd)

theorem own_table (hpd : pd ∈ t.dirs) : t.own (.table pd i) = tableAt t.s.mem pd i := if_pos hpd

theorem table_used (h : t.Tenured) (hpd : pd ∈ t.dirs) (hpt : tableAt t.s.mem pd i = some pt) :
    pt ∈ Pmm.usedFrames t.s.pmm :=
  h.held (.table pd i) pt ((own_table hpd).trans hpt)

theorem frame_used (h : t.Tenured) (ha : a ∈ t.frames) : a ∈ Pmm.usedFrames t.s.pmm :=
  h.held (.page a) a (if_pos ha)

theorem table_ne_dir (h : t.Tenured) (hpd : pd ∈ t.dirs) (hpd' : pd' ∈ t.dirs)
    (hpt : tableAt t.s.mem pd i = some pt) : pt ≠ pd' := by
  intro heq
  have hrole := h.unique (.table pd i) (.directory pd') pt ((own_table hpd).trans hpt)
    (by rw [heq]; exact if_pos hpd')
  cases hrole

theorem table_unique (h : t.Tenured) (hpd : pd ∈ t.dirs) (hpd' : pd' ∈ t.dirs)
    (hpt : tableAt t.s.mem pd i = some pt) (hpt' : tableAt t.s.mem pd' i' = some pt) :
    pd = pd' ∧ i = i' := by
  have hrole := h.unique (.table pd i) (.table pd' i') pt ((own_table hpd).trans hpt)
    ((own_table hpd').trans hpt')
  exact ⟨(Role.table.inj hrole).1, (Role.table.inj hrole).2⟩

theorem dir_notMem_frames (h : t.Tenured) (hpd : pd ∈ t.dirs) : pd ∉ t.frames := by
  intro hmem
  have hrole := h.unique (.directory pd) (.page pd) pd (if_pos hpd) (if_pos hmem)
  cases hrole

theorem table_notMem_frames (h : t.Tenured) (hpd : pd ∈ t.dirs)
    (hpt : tableAt t.s.mem pd i = some pt) : pt ∉ t.frames := by
  intro hmem
  have hrole := h.unique (.table pd i) (.page pt) pt ((own_table hpd).trans hpt)
    (if_pos hmem)
  cases hrole

theorem alone (h : t.Tenured) (hpd : pd ∈ t.dirs) : Alone t.s pd where
  used := h.dir_used hpd
  tableUsed := fun _ _ hpt => h.table_used hpd hpt
  tableNe := fun _ _ hpt => h.table_ne_dir hpd hpd hpt
  tableInj := fun _ _ _ hpt hpt' => (h.table_unique hpd hpd hpt hpt').2

theorem aligned (h : t.Tenured) (hpd : pd ∈ t.dirs) : pd % 4096 = 0 :=
  Pmm.usedFrames_aligned (h.dir_used hpd)

theorem start {s : State} : (⟨s, [], [], []⟩ : Pool).Tenured := by
  constructor
  · intro r b hr
    cases r <;> simp [Pool.own] at hr
  · intro r r' b hr
    cases r <;> simp [Pool.own] at hr

/-- A frame that was not in use becomes a directory without tables. -/
theorem create (h : t.Tenured) (hcreate : pagingCreateUserPd st t.s = (s', pd)) (hpd : pd ≠ 0) :
    (⟨s', pd :: t.dirs, t.frames, t.calls⟩ : Pool).Tenured := by
  obtain ⟨halloc, hsame, -, hempty⟩ := pagingCreateUserPd_spec hcreate hpd
  obtain ⟨hfresh, hused, -⟩ := Pmm.pmmAllocFrame_some halloc hpd
  have hgrant : Tenure (Function.update t.own (.directory pd) (some pd))
      (Pmm.usedFrames s'.pmm) := by
    rw [hused]
    apply (h.widen (Set.subset_insert pd _)).grant (Set.mem_insert pd _)
    exact fun r hr => hfresh (h.held r pd hr)
  refine hgrant.shrink fun r b hr => ?_
  cases r with
  | directory pd' =>
      by_cases heq : pd' = pd
      · rw [heq, Function.update_self]
        rw [heq] at hr
        simpa [Pool.own] using hr
      · rw [Function.update_of_ne (by simp [heq])]
        simpa [Pool.own, heq] using hr
  | table pd' i =>
      rw [Function.update_of_ne (by simp)]
      by_cases heq : pd' = pd
      · rw [heq] at hr
        simp [Pool.own, hempty] at hr
      · by_cases hmem : pd' ∈ t.dirs
        · rw [own_table hmem, ← tableAt_congr hsame (h.aligned hmem) heq i]
          simpa [Pool.own, hmem] using hr
        · simp [Pool.own, heq, hmem] at hr
  | page b' =>
      rw [Function.update_of_ne (by simp)]
      exact hr

/-- A frame that was not in use is handed out for a page. -/
theorem alloc (h : t.Tenured) {pmm : Pmm.State} (halloc : Pmm.pmmAllocFrame t.s.pmm = (pmm, a))
    (ha : a ≠ 0) : (⟨⟨pmm, t.s.mem⟩, t.dirs, a :: t.frames, t.calls⟩ : Pool).Tenured := by
  obtain ⟨hfresh, hused, -⟩ := Pmm.pmmAllocFrame_some halloc ha
  have hgrant : Tenure (Function.update t.own (.page a) (some a)) (Pmm.usedFrames pmm) := by
    rw [hused]
    apply (h.widen (Set.subset_insert a _)).grant (Set.mem_insert a _)
    exact fun r hr => hfresh (h.held r a hr)
  refine hgrant.shrink fun r b hr => ?_
  cases r with
  | directory pd' =>
      rw [Function.update_of_ne (by simp)]
      exact hr
  | table pd' i =>
      rw [Function.update_of_ne (by simp)]
      exact hr
  | page b' =>
      by_cases heq : b' = a
      · rw [heq, Function.update_self]
        rw [heq] at hr
        simpa [Pool.own] using hr
      · rw [Function.update_of_ne (by simp [heq])]
        simpa [Pool.own, heq] using hr

/-- The tables stay where they are. -/
theorem keep (h : t.Tenured)
    (htable : ∀ pd ∈ t.dirs, ∀ i, tableAt s'.mem pd i = tableAt t.s.mem pd i)
    (hused : Pmm.usedFrames t.s.pmm ⊆ Pmm.usedFrames s'.pmm) :
    (⟨s', t.dirs, t.frames, calls⟩ : Pool).Tenured := by
  refine (h.widen hused).shrink fun r b hr => ?_
  cases r with
  | directory pd' => exact hr
  | page b' => exact hr
  | table pd' i =>
      by_cases hmem : pd' ∈ t.dirs
      · rw [own_table hmem, ← htable pd' hmem i]
        simpa [Pool.own, hmem] using hr
      · simp [Pool.own, hmem] at hr

/-- The table that an entry is added to is no frame of another directory. -/
theorem adds_apart (h : t.Tenured) {virt : Nat} (hpd : pd ∈ t.dirs)
    (hadds : AddsEntry t.s s' pd virt pt) (hpd' : pd' ∈ t.dirs) (hne : pd' ≠ pd) :
    pt ≠ pd' ∧ ∀ i pt', tableAt t.s.mem pd' i = some pt' → pt' ≠ pt := by
  rcases hadds.origin with ⟨htable, -⟩ | ⟨-, halloc, hpt⟩
  · refine ⟨h.table_ne_dir hpd hpd' htable, fun i pt' hpt' heq => ?_⟩
    rw [heq] at hpt'
    exact hne (h.table_unique hpd' hpd hpt' htable).1
  · have hfresh := (Pmm.pmmAllocFrame_some halloc hpt).1
    exact ⟨fun heq => hfresh (heq ▸ h.dir_used hpd'),
      fun i pt' hpt' heq => hfresh (heq ▸ h.table_used hpd' hpt')⟩

/-- A page goes into a table of its directory, which may be a frame that was not in
use. -/
theorem adds (h : t.Tenured) {virt : Nat} (hpd : pd ∈ t.dirs)
    (hadds : AddsEntry t.s s' pd virt pt) :
    (⟨s', t.dirs, t.frames, calls⟩ : Pool).Tenured := by
  have hgrant : Tenure (Function.update t.own (.table pd (pdIdx virt)) (some pt))
      (Pmm.usedFrames s'.pmm) := by
    rcases hadds.origin with ⟨htable, hpmm⟩ | ⟨-, halloc, hpt⟩
    · rw [hpmm, ← htable, ← own_table hpd, Function.update_eq_self]
      exact h
    · obtain ⟨hfresh, hused, -⟩ := Pmm.pmmAllocFrame_some halloc hpt
      rw [hused]
      apply (h.widen (Set.subset_insert pt _)).grant (Set.mem_insert pt _)
      exact fun r hr => hfresh (h.held r pt hr)
  refine hgrant.shrink fun r b hr => ?_
  cases r with
  | directory pd' =>
      rw [Function.update_of_ne (by simp)]
      exact hr
  | page b' =>
      rw [Function.update_of_ne (by simp)]
      exact hr
  | table pd' i =>
      by_cases hmem : pd' ∈ t.dirs
      · have hown : tableAt s'.mem pd' i = some b := by simpa [Pool.own, hmem] using hr
        by_cases heq : pd' = pd
        · subst heq
          rw [hadds.table] at hown
          by_cases hi : i = pdIdx virt
          · rw [if_pos hi] at hown
            rw [hi, Function.update_self, hown]
          · rw [if_neg hi] at hown
            rw [Function.update_of_ne (by simp [hi]), own_table hmem]
            exact hown
        · have hout := notMem_pair heq (Ne.symm (h.adds_apart hpd hadds hmem heq).1)
          rw [Function.update_of_ne (by simp [heq]), own_table hmem,
            ← tableAt_congr hadds.same (h.aligned hmem) hout i]
          exact hown
      · simp [Pool.own, hmem] at hr

end Pool.Tenured

namespace Pool.Inv

variable {st : Statics} {t : Pool} {pd i pt a : Nat}

theorem tenured (h : t.Inv) : t.Tenured := h.tenure

theorem dir_used (h : t.Inv) (hpd : pd ∈ t.dirs) : pd ∈ Pmm.usedFrames t.s.pmm :=
  h.tenured.dir_used hpd

theorem own_table (hpd : pd ∈ t.dirs) : t.own (.table pd i) = tableAt t.s.mem pd i := if_pos hpd

theorem table_used (h : t.Inv) (hpd : pd ∈ t.dirs) (hpt : tableAt t.s.mem pd i = some pt) :
    pt ∈ Pmm.usedFrames t.s.pmm :=
  h.tenured.table_used hpd hpt

theorem table_ne_dir (h : t.Inv) {pd' : Nat} (hpd : pd ∈ t.dirs) (hpd' : pd' ∈ t.dirs)
    (hpt : tableAt t.s.mem pd i = some pt) : pt ≠ pd' :=
  h.tenured.table_ne_dir hpd hpd' hpt

theorem table_unique (h : t.Inv) {pd' i' : Nat} (hpd : pd ∈ t.dirs) (hpd' : pd' ∈ t.dirs)
    (hpt : tableAt t.s.mem pd i = some pt) (hpt' : tableAt t.s.mem pd' i' = some pt) :
    pd = pd' ∧ i = i' :=
  h.tenured.table_unique hpd hpd' hpt hpt'

theorem dir_notMem_frames (h : t.Inv) (hpd : pd ∈ t.dirs) : pd ∉ t.frames :=
  h.tenured.dir_notMem_frames hpd

theorem table_notMem_frames (h : t.Inv) (hpd : pd ∈ t.dirs)
    (hpt : tableAt t.s.mem pd i = some pt) : pt ∉ t.frames :=
  h.tenured.table_notMem_frames hpd hpt

theorem alone (h : t.Inv) (hpd : pd ∈ t.dirs) : Alone t.s pd := h.tenured.alone hpd

theorem aligned (h : t.Inv) (hpd : pd ∈ t.dirs) : pd % 4096 = 0 := h.tenured.aligned hpd

theorem start {s : State} : (⟨s, [], [], []⟩ : Pool).Inv where
  tenure := Pool.Tenured.start
  stores := by simp
  known := by simp

/-- A change outside the frames of the directories and tables is not seen by
them. -/
theorem unseen (h : t.Inv) {fs : Set Nat} {m : Mem} (hsame : SameOff fs t.s.mem m)
    (hpd : pd ∈ t.dirs) (hdir : pd ∉ fs)
    (htab : ∀ i pt, tableAt t.s.mem pd i = some pt → pt ∉ fs) :
    (∀ i, tableAt m pd i = tableAt t.s.mem pd i) ∧ Stores m pd (lastCall t.calls pd) :=
  ⟨tableAt_congr hsame (h.aligned hpd) hdir,
    (h.stores pd hpd).congr hsame (h.aligned hpd) hdir htab⟩

/-- A new directory is seen by none of the others. -/
theorem create_other (h : t.Inv) {s' : State} {pd' : Nat}
    (hcreate : pagingCreateUserPd st t.s = (s', pd)) (hpd : pd ≠ 0) (hpd' : pd' ∈ t.dirs) :
    (∀ i, tableAt s'.mem pd' i = tableAt t.s.mem pd' i) ∧
      Stores s'.mem pd' (lastCall t.calls pd') := by
  obtain ⟨halloc, hsame, -, -⟩ := pagingCreateUserPd_spec hcreate hpd
  have hfresh := (Pmm.pmmAllocFrame_some halloc hpd).1
  apply h.unseen hsame hpd'
  · intro heq
    exact hfresh (Set.mem_singleton_iff.mp heq ▸ h.dir_used hpd')
  · intro i pt hpt heq
    exact hfresh (Set.mem_singleton_iff.mp heq ▸ h.table_used hpd' hpt)

theorem create (h : t.Inv) {s' : State} (hcreate : pagingCreateUserPd st t.s = (s', pd))
    (hpd : pd ≠ 0) : (⟨s', pd :: t.dirs, t.frames, t.calls⟩ : Pool).Inv := by
  obtain ⟨halloc, -, -, hempty⟩ := pagingCreateUserPd_spec hcreate hpd
  have hfresh := (Pmm.pmmAllocFrame_some halloc hpd).1
  have hnew : pd ∉ t.dirs := fun hmem => hfresh (h.dir_used hmem)
  refine ⟨h.tenured.create hcreate hpd, fun pd' hpd' => ?_, fun c hc => ?_⟩
  · rcases List.mem_cons.mp hpd' with heq | hmem
    · have hunknown : ∀ c ∈ t.calls, c.pd ≠ pd' := by
        intro c hc hcpd
        rw [heq] at hcpd
        exact hnew (hcpd ▸ h.known c hc)
      rw [lastCall_of_unknown hunknown, heq]
      exact stores_empty hempty
    · exact (h.create_other hcreate hpd hmem).2
  · exact List.mem_cons_of_mem pd (h.known c hc)

theorem alloc (h : t.Inv) {pmm : Pmm.State} (halloc : Pmm.pmmAllocFrame t.s.pmm = (pmm, a))
    (ha : a ≠ 0) : (⟨⟨pmm, t.s.mem⟩, t.dirs, a :: t.frames, t.calls⟩ : Pool).Inv :=
  ⟨h.tenured.alloc halloc ha, h.stores, h.known⟩

theorem store (h : t.Inv) {m : Mem} (hsame : SameOff { a | a ∈ t.frames } t.s.mem m) :
    (⟨⟨t.s.pmm, m⟩, t.dirs, t.frames, t.calls⟩ : Pool).Inv := by
  have hseen : ∀ pd' ∈ t.dirs, (∀ i, tableAt m pd' i = tableAt t.s.mem pd' i) ∧
      Stores m pd' (lastCall t.calls pd') := by
    intro pd' hpd'
    apply h.unseen hsame hpd' (h.dir_notMem_frames hpd')
    exact fun i pt hpt => h.table_notMem_frames hpd' hpt
  refine ⟨h.tenured.keep (fun pd' hpd' => (hseen pd' hpd').1) (Set.Subset.refl _),
    fun pd' hpd' => (hseen pd' hpd').2, h.known⟩

/-- Mapping into one directory leaves the others alone. -/
theorem map_other (h : t.Inv) {s' : State} {virt pd' : Nat} (hpd : pd ∈ t.dirs)
    (hadds : AddsEntry t.s s' pd virt pt) (hpd' : pd' ∈ t.dirs) (hne : pd' ≠ pd) :
    (∀ i, tableAt s'.mem pd' i = tableAt t.s.mem pd' i) ∧
      Stores s'.mem pd' (lastCall t.calls pd') := by
  have hout := h.tenured.adds_apart hpd hadds hpd' hne
  apply h.unseen hadds.same hpd' (notMem_pair hne (Ne.symm hout.1))
  exact fun i pt' hpt' => notMem_pair (h.table_ne_dir hpd' hpd hpt') (hout.2 i pt' hpt')

theorem mapping (h : t.Inv) {flags : Nat} (ha : a ∈ t.frames) (hflags : flags < 4096)
    (hpresent : hasFlag flags ptePresent = true) : Mapping a flags := by
  have hused := h.tenured.frame_used ha
  have hlt := Pmm.usedFrames_lt hused
  exact ⟨Pmm.usedFrames_aligned hused, by omega, hflags, hpresent⟩

theorem map (h : t.Inv) {s' : State} {virt flags : Nat} (hpd : pd ∈ t.dirs)
    (ha : a ∈ t.frames) (hvirt : virt < 2 ^ 32) (hhigh : identityMappedBytes ≤ virt)
    (hflags : flags < 4096) (hpresent : hasFlag flags ptePresent = true)
    (hmap : pagingMapInto t.s pd virt a flags = .ok s') :
    (⟨s', t.dirs, t.frames, ⟨pd, virt / 4096, a, flags⟩ :: t.calls⟩ : Pool).Inv := by
  obtain ⟨pt, hadds, hstores⟩ := (h.stores pd hpd).mapInto (h.alone hpd) hvirt hhigh
    (h.mapping ha hflags hpresent) hmap
  refine ⟨h.tenured.adds hpd hadds, fun pd' hpd' => ?_, fun c hc => ?_⟩
  · rw [lastCall_cons]
    by_cases heq : pd = pd'
    · subst heq
      rw [if_pos rfl]
      exact hstores
    · rw [if_neg heq]
      exact (h.map_other hpd hadds hpd' (Ne.symm heq)).2
  · rcases List.mem_cons.mp hc with hnew | hold
    · rw [hnew]
      exact hpd
    · exact h.known c hold

theorem step (h : t.Inv) {t' : Pool} (hstep : Pool.Step st t t') : t'.Inv := by
  cases hstep with
  | create hcreate hpd => exact h.create hcreate hpd
  | alloc halloc ha => exact h.alloc halloc ha
  | store hsame => exact h.store hsame
  | map hpd ha hvirt hhigh hflags hpresent hmap =>
      exact h.map hpd ha hvirt hhigh hflags hpresent hmap

end Pool.Inv

theorem Pool.inv_of_run {st : Statics} {s : State} {t : Pool}
    (hrun : Relation.ReflTransGen (Pool.Step st) ⟨s, [], [], []⟩ t) : t.Inv := by
  induction hrun with
  | refl => exact Pool.Inv.start
  | tail _ hstep ih => exact ih.step hstep

/-- **Page directories refine finite maps** above the identity window, for any
number of directories and any interleaving of calls on them: the walk reads the
last call for the page, the page is accessible to ring 3 exactly if that call said
so, and a call on one directory does not change the walk of another. -/
theorem directories_refine_maps {st : Statics} {s : State} {t : Pool}
    (hrun : Relation.ReflTransGen (Pool.Step st) ⟨s, [], [], []⟩ t) :
    (∀ pd ∈ t.dirs, ∀ va, va < 2 ^ 32 → identityMappedBytes ≤ va →
      walk t.s.mem pd va = lastCall t.calls pd (va / 4096) ∧
      userAccessible t.s.mem pd va =
        (lastCall t.calls pd (va / 4096)).any fun e => hasFlag e.2 pteUser) ∧
    (∀ pd ∈ t.dirs, ∀ virt a flags s', virt < 2 ^ 32 → identityMappedBytes ≤ virt →
      a ∈ t.frames → flags < 4096 → hasFlag flags ptePresent = true →
      pagingMapInto t.s pd virt a flags = .ok s' →
      ∀ pd' ∈ t.dirs, pd' ≠ pd → ∀ va, va < 2 ^ 32 → identityMappedBytes ≤ va →
        walk s'.mem pd' va = walk t.s.mem pd' va ∧
        userAccessible s'.mem pd' va = userAccessible t.s.mem pd' va) := by
  have h := Pool.inv_of_run hrun
  constructor
  · intro pd hpd va hva hhigh
    exact (h.stores pd hpd).walk_eq hva hhigh
  · intro pd hpd virt a flags s' hvirt hhigh ha hflags hpresent hmap pd' hpd' hne va hva hva'
    obtain ⟨pt, hadds, -⟩ := (h.stores pd hpd).mapInto (h.alone hpd) hvirt hhigh
      (h.mapping ha hflags hpresent) hmap
    have hafter := (h.map_other hpd hadds hpd' hne).2.walk_eq hva hva'
    have hbefore := (h.stores pd' hpd').walk_eq hva hva'
    exact ⟨hafter.1.trans hbefore.1.symm, hafter.2.trans hbefore.2.symm⟩

/-- A kernel image of ten pages at 1 MB. -/
def smallStatics : Statics :=
  ⟨0x10A000, 0x101000, 0x102000, rfl, rfl, by decide, by decide, by decide, by decide, by decide,
    by decide⟩

/-- A machine whose frames below 8 MB are in use. -/
def smallMachine : State := ⟨⟨fun i => if i < 64 then 0xFFFFFFFF#32 else 0#32, 100, 100⟩, fun _ => 0⟩

/-- One directory, one frame, and one page mapped for ring 3. -/
theorem directories_refine_maps_single :
    ∃ t, Relation.ReflTransGen (Pool.Step smallStatics) ⟨smallMachine, [], [], []⟩ t ∧
      t.dirs = [0x800000] ∧ walk t.s.mem 0x800000 0x8048000 = some (0x801000, 5) ∧
      userAccessible t.s.mem 0x800000 0x8048000 = true := by
  have hpd : (pagingCreateUserPd smallStatics smallMachine).2 = 0x800000 := by decide +kernel
  have ha : (Pmm.pmmAllocFrame (pagingCreateUserPd smallStatics smallMachine).1.pmm).2 =
      0x801000 := by decide +kernel
  have hmapped : (pagingMapInto
      ⟨(Pmm.pmmAllocFrame (pagingCreateUserPd smallStatics smallMachine).1.pmm).1,
        (pagingCreateUserPd smallStatics smallMachine).1.mem⟩
      0x800000 0x8048000 0x801000 5).toBool = true := by decide +kernel
  generalize hcreate : pagingCreateUserPd smallStatics smallMachine = r at hpd ha hmapped
  obtain ⟨s₁, pd⟩ := r
  simp only at hpd ha hmapped
  subst hpd
  generalize halloc : Pmm.pmmAllocFrame s₁.pmm = q at ha hmapped
  obtain ⟨pmm, a⟩ := q
  simp only at ha hmapped
  subst ha
  cases hmap : pagingMapInto ⟨pmm, s₁.mem⟩ 0x800000 0x8048000 0x801000 5 with
  | error e =>
      rw [hmap] at hmapped
      cases hmapped
  | ok s₂ =>
      have hone := Relation.ReflTransGen.single
        (Pool.Step.create (t := ⟨smallMachine, [], [], []⟩) hcreate (by decide))
      have htwo := hone.tail (Pool.Step.alloc (t := ⟨s₁, [0x800000], [], []⟩) halloc (by decide))
      have hdir : 0x800000 ∈ [0x800000] := List.mem_singleton.mpr rfl
      have hthree := htwo.tail (Pool.Step.map
        (t := ⟨⟨pmm, s₁.mem⟩, [0x800000], [0x801000], []⟩) hdir (by simp)
        (by decide) (by decide) (by decide) (by decide) hmap)
      have hwalk := (directories_refine_maps hthree).1 0x800000 (by simp) 0x8048000 (by decide)
        (by decide)
      exact ⟨_, hthree, rfl, hwalk.1, hwalk.2⟩

end StakOS.Paging
