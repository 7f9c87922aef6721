import StakOS.Kmalloc.Interrupts

/-!
# Reaping during a call of `kmalloc`

What a `kfree` from the timer handler does to a call in progress, and the result
over whole runs: if no reaping absorbs the block under the cursor, the pointer
that `kmalloc` returns is a block of the list that overlaps nothing else.  An
absorbed cursor block makes `kmalloc` hand out memory that the list holds as
free.
-/

namespace StakOS.Kmalloc

open StakOS.Lib.Memory StakOS.Lib.Loop StakOS.Lib.Linked
open Relation (ReflTransGen)

/-! ## One `kfree` seen from a block of the list -/

/-- `kfree` writes to headers of the list only. -/
theorem kfree_frame {m m' : Mem} {z : Nat} {bs : List Block}
    (hz : z ∈ used bs) (hframe : OnlyLinksChanged (deallocate z bs) (setFree m (z - 16) 1) m')
    {a : Nat} (ha : ∀ d ∈ bs, ¬ d.inHeader a) : m' a = m a := by
  have hlinks : ∀ e ∈ deallocate z bs, ¬ e.inLinks a := by
    intro e he hin
    obtain ⟨⟨d', hd', haddr'⟩, -⟩ := mem_merge he
    obtain ⟨d, hd, rfl⟩ := List.mem_map.mp hd'
    rw [Block.releasedAt_addr] at haddr'
    apply ha d hd
    unfold Block.inLinks at hin
    unfold Block.inHeader
    omega
  obtain ⟨d, hd, -, rfl⟩ := mem_used.mp hz
  have hdne := ha d hd
  rw [hframe a hlinks]
  unfold Block.inHeader at hdne
  unfold Block.payload
  exact write32_of_disjoint m 1 (by omega)

/-- A list after `kfree`, split at the block `b` that was not absorbed. -/
structure Reaped (z : Nat) (pre post : List Block) (b : Block) (absorbed rest : List Block)
    (b' : Block) : Prop where
  behind : release z post = absorbed ++ rest
  list : deallocate z (pre ++ b :: post) = merge (release z pre) ++ b' :: merge rest
  swallowed : ∀ d ∈ absorbed, d.free = true ∧ d.fin ≤ b'.fin
  addr : b'.addr = b.addr
  free : b'.free = (b.releasedAt z).free
  grown : b.fin ≤ b'.fin
  alone : (∀ d ∈ post, d.addr ≠ b.fin) → absorbed = [] ∧ b' = b.releasedAt z

theorem exists_reaped {z : Nat} {pre post : List Block} {b : Block}
    (hno : ∀ p, pre.getLast? = some p → ¬ (p.releasedAt z).Absorbs (b.releasedAt z)) :
    ∃ absorbed rest b', Reaped z pre post b absorbed rest b' := by
  obtain ⟨absorbed, rest, b', hpost, hmerge, habs, haddr, hfree, hfin, halone⟩ :=
    mergeFrom_split (b.releasedAt z) (release z post)
  have hlast : ∀ p, (release z pre).getLast? = some p → ¬ p.Absorbs (b.releasedAt z) := by
    intro p hp
    unfold release at hp
    rw [List.getLast?_map] at hp
    obtain ⟨q, hq, rfl⟩ := Option.map_eq_some_iff.mp hp
    exact hno q hq
  refine ⟨absorbed, rest, b', hpost, ?_, habs, ?_, hfree, ?_, ?_⟩
  · have hsplit : release z (pre ++ b :: post) =
        release z pre ++ b.releasedAt z :: release z post := by simp [release]
    rw [deallocate, hsplit, merge_append hlast, hmerge]
  · rw [haddr, Block.releasedAt_addr]
  · rwa [Block.releasedAt_fin] at hfin
  · intro hapart
    apply halone
    intro d hd
    obtain ⟨e, he, rfl⟩ := List.mem_map.mp hd
    rw [Block.releasedAt_addr, Block.releasedAt_fin]
    exact hapart e he

/-- The guard of a reaping, in terms of blocks. -/
theorem not_absorbs_of_guard {s : Sys} {c : Call} {z : Nat} {bs pre post : List Block} {b : Block}
    (hl : HeapList s.heap.mem s.heap.heapStart bs) (hcall : s.call = some c)
    (hpc : c.pc.holdsCursor = true) (hc : Cursor bs c pre post b) (hok : ¬ CursorAbsorbed s z) :
    ∀ p, pre.getLast? = some p → ¬ (p.releasedAt z).Absorbs (b.releasedAt z) := by
  intro p hp habs
  obtain ⟨init, rfl⟩ : ∃ init, pre = init ++ [p] := by
    obtain ⟨init, hinit⟩ := List.getLast?_eq_some_iff.mp hp
    exact ⟨init, hinit⟩
  have hbs : bs = init ++ p :: b :: post := by
    rw [hc.list]
    simp
  subst hbs
  have hph := hl.header p (by simp)
  have hbh := hl.header b (by simp)
  have hfree : ∀ d : Block, Header s.heap.mem d → (d.releasedAt z).free = true →
      free s.heap.mem d.addr ≠ 0 ∨ d.addr + 16 = z := by
    intro d hd hdfree
    by_cases hdz : d.payload = z
    · exact Or.inr hdz
    · rw [Block.releasedAt_of_ne hdz] at hdfree
      exact Or.inl (hd.free_iff.mpr hdfree)
  obtain ⟨hpf, hbf, htouch⟩ := habs
  rw [Block.releasedAt_addr, Block.releasedAt_fin] at htouch
  apply hok
  refine ⟨c, init.map Block.addr, p.addr, post.map Block.addr, hcall, hpc, ?_, ?_, ?_, ?_, ?_⟩
  · have hchain := hl.chain
    rw [List.map_append, List.map_cons, List.map_cons, ← hc.cur] at hchain
    exact hchain
  · have hzero := hl.layout.zero_notMem
    rw [List.map_append, List.map_cons, List.map_cons, ← hc.cur] at hzero
    exact hzero
  · rw [hph.size, hc.cur, htouch]
    rfl
  · exact hfree p hph hpf
  · rw [hc.cur]
    exact hfree b hbh hbf

/-! ## The call in progress -/

theorem liveUsed_reap {live : List Nat} {bs : List Block} {z : Nat} (hlive : LiveUsed live bs)
    (hnodup : live.Nodup) : LiveUsed (live.erase z) (deallocate z bs) := by
  intro q
  rw [deallocate, used_merge, mem_used_release, hnodup.mem_erase_iff, hlive q]
  tauto

/-- A free block is not the one being freed. -/
theorem releasedAt_free {bs : List Block} {b : Block} {z : Nat} (hl : Layout bs) (hb : b ∈ bs)
    (hfree : b.free = true) (hz : z ∈ used bs) : b.releasedAt z = b := by
  apply Block.releasedAt_of_ne
  intro hbz
  exact payload_notMem_used hl hb hfree (hbz ▸ hz)

section Reap

variable {m m' : Mem} {start z : Nat} {bs pre post absorbed rest : List Block} {b b' : Block}
  {c : Call}

theorem Reaped.size_le (hr : Reaped z pre post b absorbed rest b') : b.size ≤ b'.size := by
  have hgrown := hr.grown
  have haddr := hr.addr
  unfold Block.fin at hgrown
  omega

theorem Reaped.cursor (hr : Reaped z pre post b absorbed rest b') (hc : Cursor bs c pre post b) :
    Cursor (deallocate z bs) c (merge (release z pre)) (merge rest) b' :=
  ⟨by rw [hc.list]; exact hr.list, by rw [hc.cur, hr.addr], hc.aligned⟩

/-- The half-written header lies in the payload of a free block. -/
theorem Reaped.newHeader (hr : Reaped z pre post b absorbed rest b')
    (hl : HeapList m start bs) (hc : Cursor bs c pre post b) (hz : z ∈ used bs)
    (hframe : OnlyLinksChanged (deallocate z bs) (setFree m (z - 16) 1) m')
    (hnew : NewHeader m c b) : NewHeader m' c b' := by
  have hroom := hnew.room
  have hblk := hnew.newBlk
  have hbmem : b ∈ bs := by
    rw [hc.list]
    simp
  have hread : ∀ k, k ≤ 12 → read32 m' (c.newBlk + k) = read32 m (c.newBlk + k) := by
    intro k hk
    apply read32_congr
    intro x hx hx'
    apply kfree_frame hz hframe
    intro d hd
    apply hl.layout.payload_apart hbmem hd
    · unfold Block.payload
      omega
    · unfold Block.fin
      omega
  have hsize : size m' c.newBlk = size m c.newBlk := hread 4 (by omega)
  refine ⟨by rw [hblk, hr.addr], hroom.trans_le hr.size_le, ?_, ?_, ?_⟩
  · intro hpc
    exact (hread 0 (by omega)).trans (hnew.magic hpc)
  · intro hpc
    obtain ⟨hal, hin⟩ := hnew.size hpc
    rw [hsize]
    exact ⟨hal, hin.trans hr.grown⟩
  · intro hpc
    exact (hread 8 (by omega)).trans (hnew.free hpc)

/-- Pending blocks share no header byte with the blocks on the list. -/
theorem Pending.apart {nb : Block} {old : List Block} (hp : Pending m c pre post b nb old)
    {d e : Block} (hd : d ∈ nb :: old) (he : e ∈ pre ++ b :: post) {a : Nat}
    (ha : d.inHeader a) : ¬ e.inHeader a := by
  have hsplit : Layout ((pre ++ ⟨b.addr, c.sz, true⟩ :: nb :: old) ++ post) := by
    simpa using hp.layout
  obtain ⟨hfront, -, hbehind⟩ := Layout.append_iff.mp hsplit
  obtain ⟨-, hmid, hbefore⟩ := Layout.append_iff.mp hfront
  have hb := (Layout.cons_iff.mp hmid).1.2.2.2.2 d hd
  have hdall : d ∈ (⟨b.addr, c.sz, true⟩ : Block) :: nb :: old := List.mem_cons_of_mem _ hd
  intro hea
  unfold Block.inHeader at ha hea
  rcases List.mem_append.mp he with he | he
  · have hed := hbefore e he d hdall
    unfold Block.fin at hed
    omega
  · rcases List.mem_cons.mp he with rfl | he
    · have hbd : e.addr + 16 + c.sz ≤ d.addr := hb
      omega
    · have hde := hbehind d (List.mem_append_right _ hdall) e he
      unfold Block.fin at hde
      omega

/-- Headers of blocks absorbed by this `kfree` stay as they were. -/
theorem Reaped.absorbed_same (hr : Reaped z pre post b absorbed rest b')
    (hl : HeapList m start (pre ++ b :: post)) (hlist : HeapList m' start (deallocate z (pre ++ b :: post)))
    (hframe : OnlyLinksChanged (deallocate z (pre ++ b :: post)) (setFree m (z - 16) 1) m')
    {d : Block} (hd : d ∈ absorbed) {a : Nat} (ha : d.inHeader a) :
    m' a = setFree m (z - 16) 1 a := by
  apply hframe
  have hfin := (hr.swallowed d hd).2
  have haddr := hr.addr
  have hbd : b.fin ≤ d.addr := by
    obtain ⟨e, he, hea, -⟩ := mem_release (by rw [hr.behind]; simp [hd] : d ∈ release z post)
    rw [← hea]
    obtain ⟨-, hrest, -⟩ := Layout.append_iff.mp hl.layout
    exact (Layout.cons_iff.mp hrest).1.2.2.2.2 e he
  have hlay := hlist.layout
  rw [hr.list] at hlay
  obtain ⟨-, hrest, hbefore⟩ := Layout.append_iff.mp hlay
  have hbehind := (Layout.cons_iff.mp hrest).1.2.2.2.2
  intro e he hin
  unfold Block.inHeader at ha
  unfold Block.inLinks at hin
  unfold Block.fin at hbd hfin
  rw [hr.list] at he
  rcases List.mem_append.mp he with he | he
  · have heb := hbefore e he b' (by simp)
    unfold Block.fin at heb
    omega
  · rcases List.mem_cons.mp he with rfl | he
    · omega
    · have hbe := hbehind e he
      unfold Block.fin at hbe
      omega

theorem Reaped.layout {nb : Block} {old : List Block} (hr : Reaped z pre post b absorbed rest b')
    (hp : Pending m c pre post b nb old) :
    Layout (merge (release z pre) ++ ⟨b'.addr, c.sz, true⟩ :: nb ::
      ((old ++ absorbed) ++ merge rest)) := by
  rw [hr.addr]
  have hwithin : ∀ bs : List Block, ∀ d ∈ merge (release z bs),
      (∃ e ∈ bs, e.addr ≤ d.addr) ∧ ∃ e ∈ bs, d.fin ≤ e.fin := by
    intro bs d hd
    obtain ⟨⟨e, he, hea⟩, f, hf, hff⟩ := mem_merge hd
    obtain ⟨e', he', hea', -⟩ := mem_release he
    obtain ⟨f', hf', -, hff'⟩ := mem_release hf
    exact ⟨⟨e', he', by omega⟩, f', hf', by omega⟩
  have hfront : Layout ([] ++ pre ++ (⟨b.addr, c.sz, true⟩ :: nb :: (old ++ post))) := hp.layout
  have hpre : Layout (merge (release z pre)) :=
    layout_merge (layout_release z (Layout.append_iff.mp hp.layout).1)
  have hstep := hfront.replace hpre (fun d hd => (hwithin pre d hd).1)
    (fun d hd => (hwithin pre d hd).2)
  have hback : Layout ((merge (release z pre) ++ ⟨b.addr, c.sz, true⟩ :: nb :: old) ++ post
      ++ []) := by simpa using hstep
  have hpost : Layout post :=
    (Layout.append_iff.mp (Layout.append_iff.mp hback).1).2.1
  have hnew : Layout (absorbed ++ merge rest) := by
    have hrel := layout_release z hpost
    rw [hr.behind] at hrel
    exact layout_append_merge hrel
  have hnewWithin : ∀ d ∈ absorbed ++ merge rest,
      (∃ e ∈ post, e.addr ≤ d.addr) ∧ ∃ e ∈ post, d.fin ≤ e.fin := by
    intro d hd
    rcases List.mem_append.mp hd with hd | hd
    · obtain ⟨e, he, hea, hef⟩ := mem_release (by rw [hr.behind]; simp [hd] : d ∈ release z post)
      exact ⟨⟨e, he, hea.le⟩, e, he, hef.ge⟩
    · obtain ⟨⟨e, he, hea⟩, f, hf, hff⟩ := mem_merge hd
      obtain ⟨e', he', hea', -⟩ :=
        mem_release (by rw [hr.behind]; simp [he] : e ∈ release z post)
      obtain ⟨f', hf', -, hff'⟩ :=
        mem_release (by rw [hr.behind]; simp [hf] : f ∈ release z post)
      exact ⟨⟨e', he', by omega⟩, f', hf', by omega⟩
  have hdone := hback.replace hnew (fun d hd => (hnewWithin d hd).1)
    (fun d hd => (hnewWithin d hd).2)
  simpa using hdone

theorem Reaped.chain {nb : Block} {old : List Block} (hr : Reaped z pre post b absorbed rest b')
    (hl : HeapList m start (pre ++ b :: post)) (hz : z ∈ used (pre ++ b :: post))
    (hlist : HeapList m' start (deallocate z (pre ++ b :: post)))
    (hframe : OnlyLinksChanged (deallocate z (pre ++ b :: post)) (setFree m (z - 16) 1) m')
    (hp : Pending m c pre post b nb old)
    (hsame : ∀ d ∈ nb :: old, ∀ a, d.inHeader a → m' a = m a) :
    Chain (next m') (next m' nb.addr) (((old ++ absorbed) ++ merge rest).map Block.addr) 0 := by
  have hnext : next m' nb.addr = next m nb.addr := next_congr (hsame nb (by simp))
  -- the old pending blocks up to the first block behind `b`
  have hold := hp.chain
  rw [List.map_append, chain_append] at hold
  obtain ⟨r, hto, hfrom⟩ := hold
  have hr' : r = ((absorbed ++ rest).map Block.addr).headD 0 := by
    rw [hfrom.start, ← hr.behind, release_map_addr]
  -- the blocks absorbed now, still linked as before
  have hset := heapList_release hl hz
  have hrel : release z (pre ++ b :: post) =
      release z pre ++ b.releasedAt z :: (absorbed ++ rest) := by
    rw [← hr.behind]
    simp [release]
  rw [hrel] at hset
  have hbehind := hset.behind
  rw [← hr', List.map_append, chain_append] at hbehind
  obtain ⟨q, habs, hrest⟩ := hbehind
  have hq : q = ((merge rest).map Block.addr).headD 0 := by
    rw [hrest.start, merge_head]
  -- the rest of the list
  have hlist' := hlist
  rw [hr.list] at hlist'
  have htail := hlist'.behind
  rw [← hq] at htail
  rw [hnext, List.map_append, List.map_append, chain_append]
  refine ⟨q, chain_append.mpr ⟨r, ?_, ?_⟩, htail⟩
  · exact chain_congr hto fun d hd => hsame d (by simp [hd])
  · exact chain_congr habs fun d hd a ha => hr.absorbed_same hl hlist hframe hd ha

theorem Reaped.pending {nb : Block} {old : List Block} (hr : Reaped z pre post b absorbed rest b')
    (hl : HeapList m start (pre ++ b :: post)) (hz : z ∈ used (pre ++ b :: post))
    (hlist : HeapList m' start (deallocate z (pre ++ b :: post)))
    (hframe : OnlyLinksChanged (deallocate z (pre ++ b :: post)) (setFree m (z - 16) 1) m')
    (hfree : b.free = true) (hp : Pending m c pre post b nb old) :
    Pending m' c (merge (release z pre)) (merge rest) b' nb (old ++ absorbed) := by
  have hsame : ∀ d ∈ nb :: old, ∀ a, d.inHeader a → m' a = m a := by
    intro d hd a ha
    apply kfree_frame hz hframe
    intro e he
    exact hp.apart hd he ha
  refine ⟨hp.newBlk, hp.free, ?_, ?_, hr.chain hl hz hlist hframe hp hsame, hr.layout hp, ?_⟩
  · intro d hd
    have hset := heapList_release hl hz
    have hcases : d ∈ nb :: old ∨ d ∈ absorbed := by
      simp only [List.mem_cons, List.mem_append] at hd ⊢
      tauto
    rcases hcases with hd | hd
    · exact (hp.header d hd).congr (hsame d hd)
    · have hmem : d ∈ release z (pre ++ b :: post) := by
        have hpost : d ∈ release z post := by
          rw [hr.behind]
          simp [hd]
        simp only [release, List.map_append, List.map_cons, List.mem_append, List.mem_cons]
        exact Or.inr (Or.inr hpost)
      exact (hset.header d hmem).congr fun a ha => hr.absorbed_same hl hlist hframe hd ha
  · intro d hd
    rcases List.mem_append.mp hd with hd | hd
    · exact hp.absorbedFree d hd
    · exact (hr.swallowed d hd).1
  · intro hlink
    have hsize := hp.cut hlink
    have hapart : ∀ d ∈ post, d.addr ≠ b.fin := by
      intro d hd
      obtain ⟨-, hrest, -⟩ := Layout.append_iff.mp hp.layout
      obtain ⟨hb, hrest'⟩ := Layout.cons_iff.mp hrest
      have hbn : b.addr + 16 + c.sz ≤ nb.addr := hb.2.2.2.2 nb (by simp)
      have hnd := (Layout.cons_iff.mp hrest').1.2.2.2.2 d (by simp [hd])
      unfold Block.fin at hnd ⊢
      omega
    rw [(hr.alone hapart).2, releasedAt_free hl.layout (by simp) hfree hz]
    exact hsize

end Reap

/-- A reaping that does not absorb the block under the cursor keeps the
invariant of the call. -/
theorem reap_keeps {s : Sys} {bs : List Block} {z : Nat} {m' : Mem}
    (hs : s.Holds bs) (hz : z ∈ s.live) (hok : ¬ CursorAbsorbed s z)
    (hlist : HeapList m' s.heap.heapStart (deallocate z bs))
    (hframe : OnlyLinksChanged (deallocate z bs) (setFree s.heap.mem (z - 16) 1) m') :
    CallInv m' (s.live.erase z) (deallocate z bs) s.call := by
  have hl := hs.list
  have hnodup := hs.nodup
  have hcall := hs.call
  have hzused := hcall.live_used hz
  cases hinv : s.call with
  | none =>
      rw [hinv] at hcall
      cases hcall with
      | idle hlive => exact .idle (liveUsed_reap hlive hnodup)
  | some c =>
      have hguard := fun {pre post : List Block} {b : Block} (hpc : c.pc.holdsCursor = true)
        (hc : Cursor bs c pre post b) => not_absorbs_of_guard hl hinv hpc hc hok
      rw [hinv] at hcall
      cases hcall with
      | before hlive hpc => exact .before (liveUsed_reap hlive hnodup) hpc
      | start hlive hpc hal => exact .start (liveUsed_reap hlive hnodup) hpc hal
      | ended hlive hpc hcur => exact .ended (liveUsed_reap hlive hnodup) hpc hcur
      | failed hlive hpc => exact .failed (liveUsed_reap hlive hnodup) hpc
      | search hlive hpc hc =>
          have hholds : c.pc.holdsCursor = true := by
            rcases hpc with hpc | hpc | hpc <;> rw [hpc] <;> rfl
          obtain ⟨absorbed, rest, b', hr⟩ := exists_reaped (hguard hholds hc)
          exact .search (liveUsed_reap hlive hnodup) hpc (hr.cursor hc)
      | chosen hlive hpc hc hfree hfit hroom =>
          have hholds : c.pc.holdsCursor = true := by
            rcases hpc with hpc | hpc | hpc <;> rw [hpc] <;> rfl
          obtain ⟨absorbed, rest, b', hr⟩ := exists_reaped (hguard hholds hc)
          have hbs := hc.list
          subst hbs
          have hfree' := hr.free
          rw [releasedAt_free hl.layout (by simp) hfree hzused, hfree] at hfree'
          exact .chosen (liveUsed_reap hlive hnodup) hpc (hr.cursor hc) hfree'
            (hfit.trans hr.size_le) fun hcarve => (hroom hcarve).trans_le hr.size_le
      | fill hlive hpc hc hfree hnew =>
          have hholds : c.pc.holdsCursor = true := by
            rcases hpc with hpc | hpc | hpc | hpc <;> rw [hpc] <;> rfl
          obtain ⟨absorbed, rest, b', hr⟩ := exists_reaped (hguard hholds hc)
          have hnew' := hr.newHeader hl hc hzused hframe hnew
          have hbs := hc.list
          subst hbs
          have hfree' := hr.free
          rw [releasedAt_free hl.layout (by simp) hfree hzused, hfree] at hfree'
          exact .fill (liveUsed_reap hlive hnodup) hpc (hr.cursor hc) hfree' hnew'
      | split hlive hpc hc hfree hnew =>
          have hholds : c.pc.holdsCursor = true := by
            rcases hpc with hpc | hpc <;> rw [hpc] <;> rfl
          obtain ⟨absorbed, rest, b', hr⟩ := exists_reaped (hguard hholds hc)
          have hcursor := hr.cursor hc
          have hbs := hc.list
          subst hbs
          have hfree' := hr.free
          rw [releasedAt_free hl.layout (by simp) hfree hzused, hfree] at hfree'
          exact .split (liveUsed_reap hlive hnodup) hpc hcursor hfree'
            (hr.pending hl hzused hlist hframe hfree hnew)
      | taken hpc hb hcur hused hlive hfresh =>
          rename_i b
          have hbz : b.payload ≠ z := fun h => hfresh (h ▸ hz)
          have hstill : b.payload ∈ used (deallocate z bs) := by
            rw [deallocate, used_merge, mem_used_release]
            exact ⟨(hlive _).mpr (Or.inl rfl), hbz⟩
          obtain ⟨b', hb', hused', hpay⟩ := mem_used.mp hstill
          have haddr : b'.addr = b.addr := by
            unfold Block.payload at hpay
            omega
          refine .taken (b := b') (by rw [hpay]; exact hpc) hb' (by rw [hcur, haddr]) hused' ?_ ?_
          · intro q
            rw [deallocate, used_merge, mem_used_release, hlive q, hnodup.mem_erase_iff, hpay]
            constructor
            · rintro ⟨hq | hq, hqz⟩
              · exact Or.inl hq
              · exact Or.inr ⟨hqz, hq⟩
            · rintro (hq | ⟨hqz, hq⟩)
              · exact ⟨Or.inl hq, by rw [hq]; exact hbz⟩
              · exact ⟨Or.inr hq, hqz⟩
          · rw [hpay]
            exact fun h => hfresh (List.mem_of_mem_erase h)

/-- Stores into payloads of live pointers do not reach the call's data. -/
theorem store_keeps {m m' : Mem} {live : List Nat} {bs : List Block} {call : Option Call}
    {start a : Nat} {d : Block} (hl : HeapList m start bs) (hd : d ∈ bs) (hused : d.free = false)
    (hlow : d.payload ≤ a) (hhigh : a < d.fin) (hsame : ∀ x, x ≠ a → m' x = m x)
    (hcall : CallInv m live bs call) : CallInv m' live bs call := by
  unfold Block.payload at hlow
  cases hcall with
  | idle hlive => exact .idle hlive
  | before hlive hpc => exact .before hlive hpc
  | start hlive hpc hal => exact .start hlive hpc hal
  | ended hlive hpc hcur => exact .ended hlive hpc hcur
  | failed hlive hpc => exact .failed hlive hpc
  | search hlive hpc hc => exact .search hlive hpc hc
  | chosen hlive hpc hc hfree hfit hroom => exact .chosen hlive hpc hc hfree hfit hroom
  | taken hpc hb hcur hused hlive hfresh => exact .taken hpc hb hcur hused hlive hfresh
  | fill hlive hpc hc hfree hnew =>
      rename_i c pre post b
      have hb : b ∈ bs := by
        rw [hc.list]
        simp
      have hroom := hnew.room
      have hblk := hnew.newBlk
      have hread : ∀ k, k ≤ 12 → read32 m' (c.newBlk + k) = read32 m (c.newBlk + k) := by
        intro k hk
        apply read32_congr
        intro x hx hx'
        apply hsame
        rcases hl.layout.eq_or_apart hb hd with rfl | hapart
        · rw [hfree] at hused
          cases hused
        · unfold Block.fin at hapart hhigh
          omega
      have hsize : size m' c.newBlk = size m c.newBlk := hread 4 (by omega)
      refine .fill hlive hpc hc hfree ⟨hblk, hroom, ?_, ?_, ?_⟩
      · intro hmagic
        exact (hread 0 (by omega)).trans (hnew.magic hmagic)
      · intro hlate
        rw [hsize]
        exact hnew.size hlate
      · intro hlate
        exact (hread 8 (by omega)).trans (hnew.free hlate)
  | split hlive hpc hc hfree hnew =>
      rename_i c pre post absorbed b nb
      have hbs := hc.list
      subst hbs
      have hdb : d ∈ pre ∨ d ∈ post := by
        rcases List.mem_append.mp hd with hd | hd
        · exact Or.inl hd
        · rcases List.mem_cons.mp hd with rfl | hd
          · rw [hfree] at hused
            cases hused
          · exact Or.inr hd
      have hpostHeader : ∀ e ∈ nb :: (absorbed ++ post), ∀ x, e.inHeader x → m' x = m x := by
        intro e he x hx
        apply hsame
        have hemem : e ∈ pre ++ ⟨b.addr, c.sz, true⟩ :: nb :: (absorbed ++ post) :=
          List.mem_append_right _ (List.mem_cons_of_mem _ he)
        have hdmem : d ∈ pre ++ ⟨b.addr, c.sz, true⟩ :: nb :: (absorbed ++ post) := by
          rcases hdb with hdb | hdb
          · simp [hdb]
          · simp [hdb]
        intro hxa
        exact hnew.layout.payload_apart hdmem hemem hlow hhigh (hxa ▸ hx)
      refine .split hlive hpc hc hfree ⟨hnew.newBlk, hnew.free, ?_, hnew.absorbedFree, ?_,
        hnew.layout, hnew.cut⟩
      · intro e he
        refine (hnew.header e he).congr (hpostHeader e ?_)
        rcases List.mem_cons.mp he with rfl | he
        · simp
        · simp [he]
      · have hchain : Chain (next m) nb.addr ((nb :: (absorbed ++ post)).map Block.addr) 0 :=
          ⟨rfl, hnew.chain⟩
        exact (chain_congr hchain hpostHeader).2

/-! ## Runs -/

/-- A call that has returned failed or took a block of the list. -/
theorem CallInv.done_cases {m : Mem} {live : List Nat} {bs : List Block} {c : Call} {p : Nat}
    (h : CallInv m live bs (some c)) (hpc : c.pc = .done p) :
    (p = 0 ∧ LiveUsed live bs) ∨
      ∃ b ∈ bs, p = b.payload ∧ b.free = false ∧
        (∀ q, q ∈ used bs ↔ q = b.payload ∨ q ∈ live) ∧ b.payload ∉ live := by
  cases h with
  | failed hlive hpc' =>
      rw [hpc] at hpc'
      cases hpc'
      exact Or.inl ⟨rfl, hlive⟩
  | taken hpc' hb hcur hused hlive hfresh =>
      rcases hpc' with hpc' | hpc'
      · rw [hpc] at hpc'
        cases hpc'
      · rw [hpc] at hpc'
        cases hpc'
        exact Or.inr ⟨_, hb, rfl, hused, hlive, hfresh⟩
  | before hlive hpc' => rcases hpc' with h | h <;> rw [hpc] at h <;> cases h
  | start hlive hpc' => rw [hpc] at hpc'; cases hpc'
  | ended hlive hpc' => rw [hpc] at hpc'; cases hpc'
  | search hlive hpc' => rcases hpc' with h | h | h <;> rw [hpc] at h <;> cases h
  | chosen hlive hpc' => rcases hpc' with h | h | h <;> rw [hpc] at h <;> cases h
  | fill hlive hpc' => rcases hpc' with h | h | h | h <;> rw [hpc] at h <;> cases h
  | split hlive hpc' => rcases hpc' with h | h <;> rw [hpc] at h <;> cases h

theorem Event.keeps {s s' : Sys} (hstep : Event (fun s z => ¬ CursorAbsorbed s z) s s')
    (hs : ∃ bs, s.Holds bs) : ∃ bs, s'.Holds bs := by
  obtain ⟨bs, hs⟩ := hs
  have hcall := hs.call
  cases hstep with
  | call sz hsz hidle =>
      rw [hidle] at hcall
      cases hcall with
      | idle hlive => exact ⟨bs, hs.list, hs.nodup, .before hlive (Or.inl rfl)⟩
  | statement hc =>
      rw [hc] at hcall
      obtain ⟨hstart, bs', hlist, hinv⟩ := statement_keeps hs.list hcall
      refine ⟨bs', ?_, hs.nodup, hinv⟩
      rw [hstart]
      exact hlist
  | give hc hpc =>
      rename_i c p
      rw [hc] at hcall
      rcases hcall.done_cases hpc with ⟨rfl, hlive⟩ | ⟨b, hb, rfl, hused, hlive, hfresh⟩
      · exact ⟨bs, hs.list, hs.nodup, .idle hlive⟩
      · have hne : b.payload ≠ 0 := by
          unfold Block.payload
          omega
        rw [if_neg hne]
        refine ⟨bs, hs.list, List.nodup_cons.mpr ⟨hfresh, hs.nodup⟩, .idle ?_⟩
        intro q
        rw [List.mem_cons, hlive q]
  | reap hz hok hfree =>
      obtain ⟨m', hret, hlist, hframe⟩ := kfree_refines hs.list (hcall.live_used hz)
      rw [hret] at hfree
      cases hfree
      exact ⟨_, hlist, hs.nodup.erase _, reap_keeps hs hz hok hlist hframe⟩
  | store v hp hlow hhigh =>
      rename_i p a
      obtain ⟨d, hd, hused, rfl⟩ := mem_used.mp (hcall.live_used hp)
      have haddr : d.payload - 16 = d.addr := by
        unfold Block.payload
        omega
      rw [haddr, (hs.list.header d hd).size] at hhigh
      have hfin : a < d.fin := by
        unfold Block.payload at hhigh
        unfold Block.fin
        omega
      have hsame : ∀ x, x ≠ a → write8 s.heap.mem a v x = s.heap.mem x := fun x hx =>
        write8_of_ne s.heap.mem v hx
      exact ⟨bs, hs.list.store hd hlow hfin v, hs.nodup,
        store_keeps hs.list hd hused hlow hfin hsame hcall⟩

/-- The system after `kmalloc_init`, with no call in progress. -/
def bootSys (pages : Nat) (pmm : Pmm.State) (m : Mem) : Sys :=
  ⟨(afterInit pages pmm m).heap, [], none⟩

theorem run_holds {pages : Nat} {pmm : Pmm.State} {m : Mem} {s : Sys}
    (hrun : ReflTransGen (Event fun s z => ¬ CursorAbsorbed s z) (bootSys pages pmm m) s) :
    ∃ bs, s.Holds bs := by
  induction hrun with
  | refl =>
      obtain ⟨bs, hs⟩ := afterInit_holds pages pmm m
      exact ⟨bs, hs.list, hs.nodup, .idle hs.live⟩
  | tail _ hstep ih => exact hstep.keeps ih

/-- What the caller of `kmalloc` may rely on when it gets the pointer `p`: its
block is on the list and marked used, and its payload overlaps neither another
live allocation nor a block that is marked free. -/
def ReturnedSound (s : Sys) (p : Nat) : Prop :=
  ∃ blocks, Chain (next s.heap.mem) s.heap.heapStart blocks 0 ∧ 0 ∉ blocks ∧ p - 16 ∈ blocks ∧
    free s.heap.mem (p - 16) = 0 ∧
    (∀ q ∈ s.live, p + size s.heap.mem (p - 16) ≤ q ∨ q + size s.heap.mem (q - 16) ≤ p) ∧
    ∀ b ∈ blocks, free s.heap.mem b ≠ 0 →
      p + size s.heap.mem (p - 16) ≤ b ∨ b + 16 + size s.heap.mem b ≤ p

theorem Sys.Holds.returnedSound {s : Sys} {bs : List Block} {c : Call} {p : Nat} (hs : s.Holds bs)
    (hc : s.call = some c) (hpc : c.pc = .done p) (hp : p ≠ 0) : ReturnedSound s p := by
  have hcall := hs.call
  rw [hc] at hcall
  have hlay := hs.list.layout
  rcases hcall.done_cases hpc with ⟨hzero, -⟩ | ⟨b, hb, hpb, hused, hlive, hfresh⟩
  · exact absurd hzero hp
  · have haddr : p - 16 = b.addr := by
      rw [hpb]
      unfold Block.payload
      omega
    have hbh := hs.list.header b hb
    refine ⟨bs.map Block.addr, hs.list.chain, hlay.zero_notMem, ?_, ?_, ?_, ?_⟩
    · rw [haddr]
      exact List.mem_map.mpr ⟨b, hb, rfl⟩
    · rw [haddr, hbh.free, hused]
      rfl
    · intro q hq
      obtain ⟨d, hd, -, rfl⟩ := mem_used.mp ((hlive q).mpr (Or.inr hq))
      have hdaddr : d.payload - 16 = d.addr := by
        unfold Block.payload
        omega
      rw [haddr, hdaddr, hbh.size, (hs.list.header d hd).size, hpb]
      rcases hlay.eq_or_apart hb hd with rfl | hapart
      · exact absurd hq hfresh
      · unfold Block.payload Block.fin at *
        omega
    · intro x hx hxfree
      obtain ⟨d, hd, rfl⟩ := List.mem_map.mp hx
      have hdh := hs.list.header d hd
      rw [hdh.free_iff] at hxfree
      rw [haddr, hbh.size, hdh.size, hpb]
      rcases hlay.eq_or_apart hb hd with rfl | hapart
      · rw [hused] at hxfree
        cases hxfree
      · unfold Block.payload Block.fin at *
        omega

/-- In every run in which no reaping absorbs the block under the cursor of a
call in progress, every pointer `kmalloc` returns is sound, and every `kfree`
of the reaper returns. -/
theorem kmalloc_interrupted_sound (pages : Nat) (pmm : Pmm.State) (m : Mem) (s : Sys)
    (hrun : ReflTransGen (Event fun s z => ¬ CursorAbsorbed s z) (bootSys pages pmm m) s) :
    (∀ c p, s.call = some c → c.pc = .done p → p ≠ 0 → ReturnedSound s p) ∧
      ∀ z ∈ s.live, ∃ h', kfree s.heap z = .ok h' := by
  obtain ⟨bs, hs⟩ := run_holds hrun
  refine ⟨fun c p hc hpc hp => hs.returnedSound hc hpc hp, ?_⟩
  intro z hz
  obtain ⟨m', hret, -⟩ := kfree_refines hs.list (hs.call.live_used hz)
  exact ⟨_, hret⟩

/-! ## Executing runs -/

namespace Sys

def request (s : Sys) (sz : Nat) : Sys := { s with call := some ⟨.entry, sz, 0, 0⟩ }

def statement (s : Sys) : Sys :=
  match s.call with
  | none => s
  | some c => { s with heap := (kmallocStep s.heap c).1, call := some (kmallocStep s.heap c).2 }

def statements : Nat → Sys → Sys
  | 0, s => s
  | n + 1, s => statements n s.statement

def accept (s : Sys) (p : Nat) : Sys := ⟨s.heap, p :: s.live, none⟩

/-- The pointer the call has returned, 0 while it is running. -/
def returned (s : Sys) : Nat :=
  match s.call with
  | some ⟨.done p, _, _, _⟩ => p
  | _ => 0

def reap (s : Sys) (z : Nat) : Sys :=
  match kfree s.heap z with
  | .ok h' => ⟨h', s.live.erase z, s.call⟩
  | .error _ => s

theorem returned_eq {s : Sys} {p : Nat} (h : s.returned = p) (hp : p ≠ 0) :
    ∃ c, s.call = some c ∧ c.pc = .done p := by
  unfold returned at h
  split at h
  · rename_i q sz cur newBlk hcall
    exact ⟨_, hcall, by rw [h]⟩
  · exact absurd h.symm hp

variable {ok : Sys → Nat → Prop}

theorem run_request {s : Sys} {sz : Nat} (hsz : sz < 2 ^ 32) (hidle : s.call = none) :
    ReflTransGen (Event ok) s (s.request sz) :=
  ReflTransGen.single (Event.call sz hsz hidle)

theorem run_statement (s : Sys) : ReflTransGen (Event ok) s s.statement := by
  unfold statement
  split
  · exact ReflTransGen.refl
  · rename_i c hcall
    exact ReflTransGen.single (Event.statement hcall)

theorem run_statements (n : Nat) (s : Sys) : ReflTransGen (Event ok) s (s.statements n) := by
  induction n generalizing s with
  | zero => exact ReflTransGen.refl
  | succ n ih => exact (run_statement s).trans (ih s.statement)

theorem run_accept {s : Sys} {p : Nat} (h : s.returned = p) (hp : p ≠ 0) :
    ReflTransGen (Event ok) s (s.accept p) := by
  obtain ⟨c, hcall, hpc⟩ := returned_eq h hp
  have hstep : Event ok s ⟨s.heap, if p = 0 then s.live else p :: s.live, none⟩ :=
    Event.give hcall hpc
  rw [if_neg hp] at hstep
  exact ReflTransGen.single hstep

theorem run_reap {s : Sys} {z : Nat} (hz : z ∈ s.live) (hok : ok s z) :
    ReflTransGen (Event ok) s (s.reap z) := by
  unfold reap
  split
  · rename_i h' hfree
    exact ReflTransGen.single (Event.reap hz hok hfree)
  · exact ReflTransGen.refl

end Sys

/-- `sizeof(process_t)`. -/
def pcbSize : Nat := 188

/-- A heap of one page from which the control block of one process is taken. -/
def oneProcess : Sys :=
  (((bootSys 1 megabyteUsed fun _ => 0).request pcbSize).statements 15).accept 0x100010

/-- The next process is being created: `kmalloc` has found the free block behind
the first control block and is about to split it. -/
def aboutToSplit : Sys := (oneProcess.request pcbSize).statements 8

/-- The timer reaps the first process, then `kmalloc` goes on to its end. -/
def racedReturn : Sys := (aboutToSplit.reap 0x100010).statements 10

theorem run_aboutToSplit {ok : Sys → Nat → Prop} :
    ReflTransGen (Event ok) (bootSys 1 megabyteUsed fun _ => 0) aboutToSplit := by
  have hfirst : ReflTransGen (Event ok) (bootSys 1 megabyteUsed fun _ => 0) oneProcess :=
    ((Sys.run_request (by decide) rfl).trans (Sys.run_statements 15 _)).trans
      (Sys.run_accept (by decide +kernel) (by decide))
  exact hfirst.trans ((Sys.run_request (by decide) rfl).trans (Sys.run_statements 8 _))

/-- The reaped block absorbs the block under the cursor: `kmalloc` returns a
pointer into a block that the list holds as free. -/
theorem racedReturn_unsound :
    ReflTransGen (Event fun _ _ => True) (bootSys 1 megabyteUsed fun _ => 0) racedReturn ∧
      (∃ c, racedReturn.call = some c ∧ c.pc = .done 0x1000dc) ∧
      ¬ ReturnedSound racedReturn 0x1000dc := by
  refine ⟨?_, Sys.returned_eq (by decide +kernel) (by decide), ?_⟩
  · refine run_aboutToSplit.trans ((Sys.run_reap ?_ trivial).trans (Sys.run_statements 10 _))
    decide +kernel
  · rintro ⟨blocks, hchain, hzero, hmem, -⟩
    have hlist : Chain (next racedReturn.heap.mem) racedReturn.heap.heapStart [0x100000] 0 :=
      by decide +kernel
    rw [hchain.unique hlist hzero (by decide)] at hmem
    revert hmem
    decide

/-- Two control blocks are taken, and a third request has found the free block
behind them: reaping the first process does not touch it. -/
def thirdSplit : Sys :=
  ((((oneProcess.request pcbSize).statements 18).accept 0x1000dc).request pcbSize).statements 11

theorem thirdSplit_guarded : ¬ CursorAbsorbed thirdSplit 0x100010 := by
  rintro ⟨c, xs, p, ys, hcall, -, hchain, hzero, -, hpfree, -⟩
  have hlist : Chain (next thirdSplit.heap.mem) thirdSplit.heap.heapStart
      [0x100000, 0x1000cc, 0x100198] 0 := by decide +kernel
  have hsame := hchain.unique hlist hzero (by decide)
  have hcur : c.cur = 0x100198 := by
    have hmap : thirdSplit.call.map Call.cur = some 0x100198 := by decide +kernel
    rw [hcall] at hmap
    exact Option.some_inj.mp hmap
  rw [hcur] at hsame
  have hp : p = 0x1000cc := by
    rcases xs with _ | ⟨x, _ | ⟨y, _ | ⟨z, xs⟩⟩⟩ <;> simp at hsame
    · exact hsame.2.1
  subst hp
  rcases hpfree with hpfree | hpfree
  · revert hpfree
    decide +kernel
  · revert hpfree
    decide

theorem kmalloc_interrupted_sound_thirdSplit :
    ReturnedSound ((thirdSplit.reap 0x100010).statements 10) 0x1001a8 := by
  have hrun : ReflTransGen (Event fun s z => ¬ CursorAbsorbed s z)
      (bootSys 1 megabyteUsed fun _ => 0) ((thirdSplit.reap 0x100010).statements 10) := by
    have hsecond : ReflTransGen (Event fun s z => ¬ CursorAbsorbed s z)
        (bootSys 1 megabyteUsed fun _ => 0) ((oneProcess.request pcbSize).statements 18) :=
      run_aboutToSplit.trans (Sys.run_statements 10 aboutToSplit)
    have hthird : ReflTransGen (Event fun s z => ¬ CursorAbsorbed s z)
        (bootSys 1 megabyteUsed fun _ => 0) thirdSplit :=
      (hsecond.trans (Sys.run_accept (by decide +kernel) (by decide))).trans
        ((Sys.run_request (by decide) rfl).trans (Sys.run_statements 11 _))
    exact hthird.trans ((Sys.run_reap (by decide +kernel) thirdSplit_guarded).trans
      (Sys.run_statements 10 _))
  obtain ⟨c, hcall, hpc⟩ : ∃ c, ((thirdSplit.reap 0x100010).statements 10).call = some c ∧
      c.pc = .done 0x1001a8 := Sys.returned_eq (by decide +kernel) (by decide)
  exact (kmalloc_interrupted_sound 1 megabyteUsed (fun _ => 0) _ hrun).1 c 0x1001a8 hcall hpc
    (by decide)

end StakOS.Kmalloc
