import StakOS.Kmalloc.Requests
import StakOS.Kmalloc.Stats

/-!
# Giving back what was taken

A client that frees all it has allocated, in whatever order and with whatever other requests in
between, leaves the list of blocks as it found it, except that free blocks which touched before
are merged.
-/

namespace StakOS.Kmalloc

open StakOS.Lib.Memory StakOS.Lib.Loop StakOS.Lib.Linked
open Relation (ReflTransGen)

/-- A step after which the pointers in `held` are still allocated. -/
def Borrow (held : List Nat) (s s' : Client) : Prop := Step s s' ∧ ∀ p ∈ held, p ∈ s'.live

/-- How the blocks `bs` of a heap with the pointers `held` become `bs'` while `held` stay
allocated and `n` pointers are. -/
structure Borrowed (held : List Nat) (bs bs' : List Block) (n : Nat) : Prop where
  kept : ∀ c, c ∈ live bs' ∧ c.payload ∈ held ↔ c ∈ live bs
  /-- Something has been freed, or nothing has been taken, or all that was taken is still out. -/
  freed : Merged bs' ∨ (bs' = bs ∧ n = held.length) ∨ held.length < n

section Borrowing

variable {held : List Nat} {bs bs' : List Block} {bytes : Set Nat} {s s' : Client} {n : Nat}

theorem Borrowed.refl (hused : ∀ c ∈ live bs, c.payload ∈ held) :
    Borrowed held bs bs held.length where
  kept c := ⟨fun hc => hc.1, fun hc => ⟨hc, hused c hc⟩⟩
  freed := Or.inr (Or.inl ⟨rfl, rfl⟩)

/-- Nothing of a block that is handed out changes when another one is. -/
theorem Borrowed.allocate {sz : Nat} (h : Borrowed held bs bs' n) (hlayout : Layout bs')
    (hheld : ∀ p ∈ held, p ∈ used bs') :
    Borrowed held bs (allocate sz bs').1 (if (allocate sz bs').2 = 0 then n else n + 1) := by
  rcases allocate_cases sz bs' with ⟨hnone, -⟩ | ⟨pre, b, post, rfl, hfree, -, hsome⟩
  · rw [hnone]
    exact h
  · have hne : b.payload ≠ 0 := by
      unfold Block.payload
      omega
    have hfresh : b.payload ∉ held := fun hb =>
      payload_notMem_used hlayout (b := b) (by simp) hfree (hheld _ hb)
    rw [hsome]
    refine ⟨fun c => ?_, ?_⟩
    · rw [← h.kept c, ← mem_live_carve hfree hlayout]
      constructor
      · rintro ⟨hc, hp⟩
        exact ⟨⟨hc, fun heq => hfresh (heq ▸ hp)⟩, hp⟩
      · rintro ⟨⟨hc, -⟩, hp⟩
        exact ⟨hc, hp⟩
    · rw [if_neg hne]
      rcases h.freed with hmerged | ⟨-, hn⟩ | hn
      · exact Or.inl (merged_carve hlayout hfree hmerged)
      · exact Or.inr (Or.inr (by omega))
      · exact Or.inr (Or.inr (by omega))

/-- A block that is freed is none of those held. -/
theorem Borrowed.deallocate {p k : Nat} (h : Borrowed held bs bs' n) (hlayout : Layout bs')
    (hp : p ∉ held) : Borrowed held bs (deallocate p bs') k where
  kept c := by
    rw [← h.kept c, mem_live_deallocate]
    constructor
    · rintro ⟨⟨hc, -⟩, hheld⟩
      exact ⟨hc, hheld⟩
    · rintro ⟨hc, hheld⟩
      exact ⟨⟨hc, fun heq => hp (heq ▸ hheld)⟩, hheld⟩
  freed := Or.inl (merged_deallocate hlayout p)

theorem Borrow.keeps (hstep : Borrow held s s') (hs : Holds bytes s bs')
    (hheld : ∀ p ∈ held, p ∈ s.live) (h : Borrowed held bs bs' s.live.length) :
    ∃ cs, Holds bytes s' cs ∧ Borrowed held bs cs s'.live.length := by
  obtain ⟨hstep, hstill⟩ := hstep
  cases hstep with
  | @kmalloc _ p sz hsz hcall =>
      obtain ⟨h₁, hret, -, -, -⟩ := kmalloc_refines hs.list sz
      have hp : (Kmalloc.allocate sz bs').2 = p := by
        rw [hcall] at hret
        cases hret
        rfl
      refine ⟨_, hs.kmalloc hcall, ?_⟩
      have hborrowed : Borrowed held bs (Kmalloc.allocate sz bs').1
          (if (Kmalloc.allocate sz bs').2 = 0 then s.live.length else s.live.length + 1) :=
        h.allocate hs.list.layout fun q hq => (hs.live q).mp (hheld q hq)
      rw [hp] at hborrowed
      by_cases hzero : p = 0
      · rw [if_pos hzero] at hborrowed ⊢
        exact hborrowed
      · rw [if_neg hzero] at hborrowed ⊢
        exact hborrowed
  | @kfree _ p hp hcall =>
      refine ⟨_, hs.kfree hp hcall, h.deallocate hs.list.layout fun hmem => ?_⟩
      exact hs.nodup.not_mem_erase (hstill p hmem)
  | store v hp hlow hhigh => exact ⟨bs', hs.store v hp hlow hhigh, h⟩

theorem run_borrowed (hrun : ReflTransGen (Borrow s.live) s s') (hs : Holds bytes s bs) :
    ∃ cs, Holds bytes s' cs ∧ (∀ p ∈ s.live, p ∈ s'.live) ∧
      Borrowed s.live bs cs s'.live.length := by
  induction hrun with
  | refl =>
      refine ⟨bs, hs, fun p hp => hp, Borrowed.refl fun c hc => ?_⟩
      rw [hs.live, mem_used]
      exact ⟨c, (mem_live.mp hc).1, (mem_live.mp hc).2, rfl⟩
  | tail _ hstep ih =>
      obtain ⟨cs, hs', hheld, hborrowed⟩ := ih
      obtain ⟨ds, hds, hborrowed'⟩ := hstep.keeps hs' hheld hborrowed
      exact ⟨ds, hds, hstep.2, hborrowed'⟩

/-- With everything back, the blocks are those of before. -/
theorem Borrowed.restored (h : Borrowed s.live bs bs' s'.live.length) (hs : Holds bytes s bs)
    (hs' : Holds bytes s' bs') (hback : s'.live.Perm s.live) : bs' = bs ∨ bs' = merge bs := by
  have hlive : ∀ c, c ∈ live bs' ↔ c ∈ live bs := by
    intro c
    rw [← h.kept c]
    refine ⟨fun hc => ⟨hc, ?_⟩, fun hc => hc.1⟩
    rw [← hback.mem_iff, hs'.live, mem_used]
    exact ⟨c, (mem_live.mp hc).1, (mem_live.mp hc).2, rfl⟩
  rcases h.freed with hmerged | ⟨hsame, -⟩ | hmore
  · right
    apply Merged.ext hs'.list.layout (layout_merge hs.list.layout) hmerged
      (merged_merge hs.list.layout)
    · rw [covered_merge, hs.bytes, hs'.bytes]
    · intro c
      rw [live_merge]
      exact hlive c
  · exact Or.inl hsame
  · rw [hback.length_eq] at hmore
    exact absurd hmore (Nat.lt_irrefl _)

end Borrowing

/-! ## Calls of a client, one at a time -/

/-- The pointers of a client that was given `p`. -/
def hold (p : Nat) (live : List Nat) : List Nat := if p = 0 then live else p :: live

theorem mem_hold {p q : Nat} {live : List Nat} : q ∈ hold p live ↔ (p ≠ 0 ∧ q = p) ∨ q ∈ live := by
  unfold hold
  by_cases hp : p = 0
  · simp [hp]
  · simp [hp]

section Calls

variable {bytes : Set Nat} {s : Client} {bs : List Block} {p sz : Nat}

theorem Holds.zero_notMem (hs : Holds bytes s bs) : 0 ∉ s.live := by
  rw [hs.live, mem_used]
  rintro ⟨b, -, -, hpay⟩
  unfold Block.payload at hpay
  omega

/-- What a client gets: nothing, or a block of its own that is large enough. -/
structure Got (s : Client) (sz : Nat) (h' : Heap) (p : Nat) (bs bs' : List Block) : Prop where
  step : Step s ⟨h', hold p s.live⟩
  new : p ∉ s.live
  kept : ∀ c ∈ Kmalloc.live bs, c ∈ Kmalloc.live bs'
  block : p ≠ 0 → ∃ b ∈ live bs', b.payload = p ∧ sz ≤ b.size

theorem Holds.take (hs : Holds bytes s bs) (hsz : sz ≤ 0xFFFFFFFC) :
    ∃ h' p bs', Kmalloc.kmalloc s.heap sz = .ok (h', p) ∧ Holds bytes ⟨h', hold p s.live⟩ bs' ∧
      Got s sz h' p bs bs' := by
  rcases kmalloc_cases hs.list sz with ⟨hcall, hnone⟩ | ⟨pre, b, post, rfl, -, hfree, hfit, hcall, hsome⟩
  · have hholds := hs.kmalloc hcall
    rw [hnone] at hholds
    exact ⟨s.heap, 0, bs, hcall, hholds, Step.kmalloc sz (by omega) hcall, hs.zero_notMem,
      fun c hc => hc, fun hp => absurd rfl hp⟩
  · have hholds := hs.kmalloc hcall
    rw [hsome] at hholds
    refine ⟨_, b.payload, _, hcall, hholds, Step.kmalloc sz (by omega) hcall, ?_, ?_, fun _ => ?_⟩
    · rw [hs.live]
      exact payload_notMem_used hs.list.layout (b := b) (by simp) hfree
    · intro c hc
      exact ((mem_live_carve hfree hs.list.layout).mpr hc).1
    · obtain ⟨c, hc, hpay, hsize⟩ : ∃ c ∈ Kmalloc.live (carve b (alignSize sz)),
          c.payload = b.payload ∧ alignSize sz ≤ c.size := by
        unfold carve
        split
        · exact ⟨_, mem_live.mpr ⟨List.mem_cons_self, rfl⟩, rfl, hfit⟩
        · exact ⟨_, mem_live.mpr ⟨List.mem_cons_self, rfl⟩, rfl, le_refl _⟩
      refine ⟨c, ?_, hpay, (le_alignSize hsz).trans hsize⟩
      rw [live_append, live_append]
      simp [hc]

/-- Freeing a pointer of the client, or `NULL`. -/
theorem Holds.give (hs : Holds bytes s bs) (hp : p = 0 ∨ p ∈ s.live) :
    ∃ h' bs', Kmalloc.kfree s.heap p = .ok h' ∧ Holds bytes ⟨h', s.live.erase p⟩ bs' ∧
      (p = 0 ∧ h' = s.heap ∨ Step s ⟨h', s.live.erase p⟩) := by
  rcases hp with rfl | hp
  · have hnone : s.live.erase 0 = s.live := List.erase_of_not_mem hs.zero_notMem
    rw [hnone]
    exact ⟨s.heap, bs, rfl, hs, Or.inl ⟨rfl, rfl⟩⟩
  · obtain ⟨m', hcall, -, -⟩ := kfree_refines hs.list ((hs.live p).mp hp)
    exact ⟨_, _, hcall, hs.kfree hp hcall, Or.inr (Step.kfree hp hcall)⟩

end Calls

/-- A client at work: from `s` on it kept the pointers it had, and `out` are those it was given
and has not freed, in the order it got them and with the `NULL`s. -/
structure Session (s t : Client) (out : List Nat) : Prop where
  run : ReflTransGen (Borrow s.live) s t
  live : ∀ q, q ∈ t.live ↔ (q ≠ 0 ∧ q ∈ out) ∨ q ∈ s.live
  fresh : ∀ q ∈ out, q ∉ s.live
  distinct : out.Pairwise fun q r => q = r → q = 0

namespace Session

variable {bytes : Set Nat} {s t : Client} {bs : List Block} {out : List Nat} {p sz : Nat}

theorem refl (s : Client) : Session s s [] :=
  ⟨ReflTransGen.refl, by simp, by simp, List.Pairwise.nil⟩

theorem take (h : Session s t out) (ht : Holds bytes t bs) (hsz : sz ≤ 0xFFFFFFFC) :
    ∃ h' p bs', Kmalloc.kmalloc t.heap sz = .ok (h', p) ∧ Holds bytes ⟨h', hold p t.live⟩ bs' ∧
      Session s ⟨h', hold p t.live⟩ (out ++ [p]) ∧ Got t sz h' p bs bs' := by
  obtain ⟨h', p, bs', hcall, hholds, hgot⟩ := ht.take hsz
  have hkept : ∀ q ∈ s.live, q ∈ t.live := fun q hq => (h.live q).mpr (Or.inr hq)
  refine ⟨h', p, bs', hcall, hholds, ⟨h.run.tail ⟨hgot.step, ?_⟩, ?_, ?_, ?_⟩, hgot⟩
  · exact fun q hq => mem_hold.mpr (Or.inr (hkept q hq))
  · intro q
    rw [mem_hold, h.live, List.mem_append, List.mem_singleton]
    by_cases hq : q = p
    · subst hq
      tauto
    · simp only [hq, and_false, false_or, or_false]
  · intro q hq
    rcases List.mem_append.mp hq with hq | hq
    · exact h.fresh q hq
    · rw [List.mem_singleton.mp hq]
      exact fun hmem => hgot.new (hkept p hmem)
  · refine List.pairwise_append.mpr ⟨h.distinct, List.pairwise_singleton _ _, ?_⟩
    intro q hq r hr heq
    rw [List.mem_singleton.mp hr] at heq
    by_contra hne
    exact hgot.new (heq ▸ (h.live q).mpr (Or.inl ⟨hne, hq⟩))

theorem store {b : Block} {a : Nat} (h : Session s t out) (ht : Holds bytes t bs)
    (hb : b ∈ Kmalloc.live bs) (hlow : b.payload ≤ a) (hhigh : a < b.payload + b.size) (v : UInt8) :
    Holds bytes ⟨{ t.heap with mem := write8 t.heap.mem a v }, t.live⟩ bs ∧
      Session s ⟨{ t.heap with mem := write8 t.heap.mem a v }, t.live⟩ out := by
  obtain ⟨hmem, hused⟩ := mem_live.mp hb
  have hlive : b.payload ∈ t.live := (ht.live _).mpr (mem_used.mpr ⟨b, hmem, hused, rfl⟩)
  have hsize : size t.heap.mem (b.payload - 16) = b.size := (ht.list.header b hmem).size
  rw [← hsize] at hhigh
  exact ⟨ht.store v hlive hlow hhigh,
    h.run.tail ⟨Step.store v hlive hlow hhigh, fun q hq => (h.live q).mpr (Or.inr hq)⟩,
    h.live, h.fresh, h.distinct⟩

/-- The first of the pointers in hand is freed. -/
theorem give (h : Session s t (p :: out)) (ht : Holds bytes t bs) :
    ∃ h' bs', Kmalloc.kfree t.heap p = .ok h' ∧ Holds bytes ⟨h', t.live.erase p⟩ bs' ∧
      Session s ⟨h', t.live.erase p⟩ out := by
  obtain ⟨hfirst, hdistinct⟩ := List.pairwise_cons.mp h.distinct
  have howned : p = 0 ∨ p ∈ t.live := by
    rw [h.live]
    have := List.mem_cons_self (a := p) (l := out)
    tauto
  obtain ⟨h', bs', hcall, hholds, hstep⟩ := ht.give howned
  have hlive : ∀ q, q ∈ t.live.erase p ↔ (q ≠ 0 ∧ q ∈ out) ∨ q ∈ s.live := by
    intro q
    rw [ht.nodup.mem_erase_iff, h.live, List.mem_cons]
    have hheld : q ∈ s.live → q ≠ p := fun hq heq => h.fresh p List.mem_cons_self (heq ▸ hq)
    have hnew : q ∈ out → q = p → q = 0 := fun hq heq => heq ▸ hfirst q hq heq.symm
    tauto
  refine ⟨h', bs', hcall, hholds, ?_, hlive, fun q hq => h.fresh q (List.mem_cons_of_mem p hq),
    hdistinct⟩
  rcases hstep with ⟨rfl, rfl⟩ | hstep
  · rw [List.erase_of_not_mem ht.zero_notMem]
    exact h.run
  · exact h.run.tail ⟨hstep, fun q hq => (hlive q).mpr (Or.inr hq)⟩

/-- With nothing left in hand, the client has the pointers it started with. -/
theorem back (h : Session s t []) (hs : s.live.Nodup) (ht : t.live.Nodup) :
    t.live.Perm s.live :=
  (List.perm_ext_iff_of_nodup ht hs).mpr fun q => by simp [h.live q]

end Session

/-- An arena whose free blocks do not touch is its own merger. -/
theorem merge_of_merged {bs : List Block} (h : Layout bs) (hmerged : Merged bs) : merge bs = bs := by
  apply Merged.ext (layout_merge h) h (merged_merge h) hmerged (covered_merge bs)
  intro c
  rw [live_merge]

/-- The blocks of a heap whose client gave everything back. -/
theorem run_restored {bytes : Set Nat} {s s' : Client} {bs : List Block} (hs : Holds bytes s bs)
    (hborrow : ReflTransGen (Borrow s.live) s s') (hback : s'.live.Perm s.live) :
    (HeapList s'.heap.mem s'.heap.heapStart bs ∨
      HeapList s'.heap.mem s'.heap.heapStart (merge bs)) ∧
    (NoAdjacentFree s.heap → HeapList s'.heap.mem s'.heap.heapStart bs) := by
  obtain ⟨bs', hs', -, hborrowed⟩ := run_borrowed hborrow hs
  rcases hborrowed.restored hs hs' hback with rfl | rfl
  · exact ⟨Or.inl hs'.list, fun _ => hs'.list⟩
  · refine ⟨Or.inr hs'.list, fun hno => ?_⟩
    have hlist := hs'.list
    rwa [merge_of_merged hs.list.layout (hs.list.noAdjacentFree_iff.mp hno)] at hlist

/-- In every history, whoever gives back what they took leaves the blocks of the heap as they
were, but for free neighbours that are merged. -/
theorem heap_restored {pages : Nat} {pmm : Pmm.State} {m : Mem} {s s' : Client}
    (hrun : ReflTransGen Step (afterInit pages pmm m) s)
    (hborrow : ReflTransGen (Borrow s.live) s s') (hback : s'.live.Perm s.live) :
    ∃ bs, HeapList s.heap.mem s.heap.heapStart bs ∧
      (HeapList s'.heap.mem s'.heap.heapStart bs ∨
        HeapList s'.heap.mem s'.heap.heapStart (merge bs)) ∧
      (NoAdjacentFree s.heap → HeapList s'.heap.mem s'.heap.heapStart bs) := by
  obtain ⟨bs, hs⟩ := run_keeps hrun (afterInit_holds pages pmm m)
  exact ⟨bs, hs.list, run_restored hs hborrow hback⟩

/-- The first client of a heap of two pages asks for 100 bytes and frees them. -/
theorem heap_restored_firstRequest :
    ∃ h h', kmalloc (afterInit 2 megabyteUsed fun _ => 0).heap 100 = .ok (h, 0x100010) ∧
      kfree h 0x100010 = .ok h' ∧
      ∃ bs, HeapList (afterInit 2 megabyteUsed fun _ => 0).heap.mem
          (afterInit 2 megabyteUsed fun _ => 0).heap.heapStart bs ∧
        (HeapList h'.mem h'.heapStart bs ∨ HeapList h'.mem h'.heapStart (merge bs)) := by
  obtain ⟨h, hcall⟩ := firstRequest_returns
  have htake : Step (afterInit 2 megabyteUsed fun _ => 0) ⟨h, [0x100010]⟩ :=
    Step.kmalloc 100 (by norm_num) hcall
  obtain ⟨bs, hs⟩ := htake.keeps (afterInit_holds 2 megabyteUsed fun _ => 0)
  obtain ⟨m', hfree, -⟩ := kfree_refines hs.list ((hs.live 0x100010).mp (by simp))
  have hgive : Step ⟨h, [0x100010]⟩ ⟨{ h with mem := m' }, []⟩ :=
    Step.kfree List.mem_cons_self hfree
  have hborrow : ReflTransGen (Borrow []) (afterInit 2 megabyteUsed fun _ => 0)
      ⟨{ h with mem := m' }, []⟩ :=
    (ReflTransGen.single ⟨htake, by simp⟩).tail ⟨hgive, by simp⟩
  obtain ⟨cs, hbefore, hafter, -⟩ := heap_restored ReflTransGen.refl hborrow (List.Perm.refl [])
  exact ⟨h, _, hcall, hfree, cs, hbefore, hafter⟩

end StakOS.Kmalloc
