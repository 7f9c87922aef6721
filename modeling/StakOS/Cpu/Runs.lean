import Mathlib.Data.Set.Pairwise.Lattice
import StakOS.Cpu.Machine

/-!
# The invariant of the runs

Every pending interrupt has its frame in the stack of its process, the frames of one stack
lie one below the other, and the control block of every suspended process leads to its
registers.  Each step is shown to keep this.
-/

namespace StakOS.Cpu

open StakOS.Lib.Memory StakOS.Lib.X86

/-- The frame is in memory and in the stack. -/
structure Trap.Held (t : Trap) (lbl : Labels) (m : Mem) (st : KStack) : Prop where
  frame : FrameHeld lbl t.gate t.esp0 t.before m
  wf : t.before.Wf
  room : frameBytes t.before ≤ t.top
  inside : ∀ x, t.base ≤ x → x < t.top → x ∈ st.bytes

/-- A suspended process: the stack pointer in its control block leads to its registers. -/
structure Suspended (m : Mem) (p : Nat) (k : Context) (st : KStack) (ts : List Trap) : Prop where
  esp : read32 m (p + PcbField.esp.offset) + 36 = k.reg .esp
  words : Words m (read32 m (p + PcbField.esp.offset)) k.words
  inside : ∀ x, read32 m (p + PcbField.esp.offset) ≤ x →
    x < read32 m (p + PcbField.esp.offset) + 4 * k.words.length → x ∈ st.bytes
  low : ∀ t ∈ ts, k.reg .esp ≤ t.base

/-- The inner of two frames of one stack comes from ring 0 and lies below the outer one. -/
def Nested (ts : List Trap) : Prop :=
  ts.Pairwise fun t u => t.before.user = false ∧ t.top ≤ u.base

structure Inv (lbl : Labels) (M : Machine) : Prop where
  wf : M.cpu.Wf
  alive : M.current ∈ M.live
  disjoint : M.live.PairwiseDisjoint fun p => (M.stack p).bytes
  slots : M.live.PairwiseDisjoint slot
  slot_stack : ∀ p ∈ M.live, ∀ q ∈ M.live, Disjoint (slot p) (M.stack q).bytes
  ring : M.traps M.current ≠ [] → M.cpu.user = false
  low : ∀ t ∈ M.traps M.current, M.cpu.reg .esp ≤ t.base
  tss : M.cpu.user = true ∨ (∃ t ∈ M.traps M.current, t.before.user = true) →
    M.esp0 = (M.stack M.current).top
  held : ∀ p ∈ M.live, ∀ t ∈ M.traps p, t.Held lbl M.cpu.mem (M.stack p)
  nested : ∀ p ∈ M.live, Nested (M.traps p)
  asleep : ∀ p ∈ M.live, p ≠ M.current →
    Suspended M.cpu.mem p (M.context p) (M.stack p) (M.traps p)

/-! ### Memory that is left alone -/

theorem Trap.Held.base_add {lbl : Labels} {t : Trap} {m : Mem} {st : KStack} (h : t.Held lbl m st) :
    t.base + frameBytes t.before = t.top := Nat.sub_add_cancel h.room

theorem Trap.Held.congr {lbl : Labels} {t : Trap} {m m' : Mem} {st : KStack} (h : t.Held lbl m st)
    (hsame : ∀ x ∈ t.guarded, m' x = m x) : t.Held lbl m' st := by
  have hlen := trapFrame_length t.gate t.esp0 t.before
  have hbase := h.base_add
  refine ⟨⟨?_, ?_⟩, h.wf, h.room, h.inside⟩
  · rw [← h.frame.resume]
    exact read32_congr fun x hx hx' => hsame x (Or.inl ⟨hx, hx'⟩)
  · apply h.frame.frame.congr
    intro x hx hx'
    exact hsame x (Or.inr ⟨hx, by unfold Trap.base at hbase; omega⟩)

/-- The guarded bytes lie in the stack. -/
theorem Trap.Held.guarded_subset {lbl : Labels} {t : Trap} {m : Mem} {st : KStack}
    (h : t.Held lbl m st) : t.guarded ⊆ st.bytes := by
  have hbytes := le_frameBytes t.before
  have hbase := h.base_add
  intro x hx
  rcases hx with hx | hx
  · exact h.inside x hx.1 (by omega)
  · exact h.inside x (by omega) hx.2

theorem Suspended.congr {m m' : Mem} {p : Nat} {k : Context} {st : KStack} {ts : List Trap}
    (h : Suspended m p k st ts) (hslot : ∀ x ∈ slot p, m' x = m x)
    (hstack : ∀ x ∈ st.bytes, m' x = m x) : Suspended m' p k st ts := by
  have hesp : read32 m' (p + PcbField.esp.offset) = read32 m (p + PcbField.esp.offset) :=
    read32_congr fun x hx hx' => hslot x (mem_slot.2 ⟨hx, Nat.lt_add_right 4 hx'⟩)
  refine ⟨?_, ?_, ?_, h.low⟩
  · rw [hesp]
    exact h.esp
  · rw [hesp]
    exact h.words.congr fun x hx hx' => hstack x (h.inside x hx hx')
  · rw [hesp]
    exact h.inside

section Preservation

variable (alu : Alu) {lbl : Labels} {img : Process.Image} {M : Machine}

/-- A memory in which everything that belongs to the processes is as before. -/
theorem Inv.code (hinv : Inv lbl M) {c : Cpu} {esp0 : Nat} (h : M.Code c esp0) :
    Inv lbl { M with cpu := c, esp0 := esp0 } where
  wf := h.wf
  alive := hinv.alive
  disjoint := hinv.disjoint
  slots := hinv.slots
  slot_stack := hinv.slot_stack
  ring := h.ring
  low := h.low
  tss huser := by
    rcases huser with huser | htrap
    · exact h.tss_user huser
    · rcases h.tss with hsame | htop
      · exact hsame.trans (hinv.tss (Or.inr htrap))
      · exact htop
  held p hp t ht := by
    apply (hinv.held p hp t ht).congr
    intro x hx
    by_cases hcur : p = M.current
    · exact h.frames t (hcur ▸ ht) x hx
    · exact h.others p hp hcur x ((hinv.held p hp t ht).guarded_subset hx)
  nested := hinv.nested
  asleep p hp hne := (hinv.asleep p hp hne).congr (h.slots p hp) (h.others p hp hne)

theorem Inv.reap (hinv : Inv lbl M) {p : Nat} (hp : p ≠ M.current) : Inv lbl (M.reap p) where
  wf := hinv.wf
  alive := ⟨hinv.alive, fun h => hp (Set.mem_singleton_iff.1 h).symm⟩
  disjoint := hinv.disjoint.subset Set.sdiff_subset
  slots := hinv.slots.subset Set.sdiff_subset
  slot_stack q hq r hr := hinv.slot_stack q hq.1 r hr.1
  ring := hinv.ring
  low := hinv.low
  tss := hinv.tss
  held q hq := hinv.held q hq.1
  nested q hq := hinv.nested q hq.1
  asleep q hq := hinv.asleep q hq.1

/-! ### Writing to what the current process owns -/

/-- The stack and the saved pointers of the current process. -/
def Machine.own (M : Machine) : Set Nat := (M.stack M.current).bytes ∪ slot M.current

section Own

variable {m' : Mem} {p : Nat}

theorem Inv.stack_kept (hinv : Inv lbl M) (hout : ∀ x ∉ M.own, m' x = M.cpu.mem x)
    (hp : p ∈ M.live) (hne : p ≠ M.current) : ∀ x ∈ (M.stack p).bytes, m' x = M.cpu.mem x := by
  intro x hx
  apply hout
  rintro (hown | hown)
  · exact Set.disjoint_left.1 (hinv.disjoint hp hinv.alive hne) hx hown
  · exact Set.disjoint_left.1 (hinv.slot_stack _ hinv.alive p hp) hown hx

theorem Inv.slot_kept (hinv : Inv lbl M) (hout : ∀ x ∉ M.own, m' x = M.cpu.mem x)
    (hp : p ∈ M.live) (hne : p ≠ M.current) : ∀ x ∈ slot p, m' x = M.cpu.mem x := by
  intro x hx
  apply hout
  rintro (hown | hown)
  · exact Set.disjoint_left.1 (hinv.slot_stack p hp _ hinv.alive) hx hown
  · exact Set.disjoint_left.1 (hinv.slots hp hinv.alive hne) hx hown

theorem Inv.held_other (hinv : Inv lbl M) (hout : ∀ x ∉ M.own, m' x = M.cpu.mem x)
    (hp : p ∈ M.live) (hne : p ≠ M.current) {t : Trap} (ht : t ∈ M.traps p) :
    t.Held lbl m' (M.stack p) := by
  have hold := hinv.held p hp t ht
  exact hold.congr fun x hx => hinv.stack_kept hout hp hne x (hold.guarded_subset hx)

theorem Inv.asleep_other (hinv : Inv lbl M) (hout : ∀ x ∉ M.own, m' x = M.cpu.mem x)
    (hp : p ∈ M.live) (hne : p ≠ M.current) :
    Suspended m' p (M.context p) (M.stack p) (M.traps p) :=
  (hinv.asleep p hp hne).congr (hinv.slot_kept hout hp hne) (hinv.stack_kept hout hp hne)

end Own

/-! ### Interrupts -/

/-- The frame of the interrupt that comes now. -/
theorem Inv.frame_inside (hinv : Inv lbl M) (hroom : M.Room) :
    frameBytes M.cpu ≤ frameTop M.esp0 M.cpu ∧ frameTop M.esp0 M.cpu < 2 ^ 32 ∧
      ∀ x, frameBase M.esp0 M.cpu ≤ x → x < frameTop M.esp0 M.cpu →
        x ∈ (M.stack M.current).bytes := by
  unfold frameBase
  cases huser : M.cpu.user with
  | true =>
      have hpage := (M.stack M.current).page_le
      simp only [frameTop, frameBytes, huser, if_true, hinv.tss (Or.inl huser)]
      exact ⟨by omega, (M.stack M.current).top_lt,
        fun x hx hx' => (M.stack M.current).page x (by omega) hx'⟩
  | false =>
      have hfits := hroom huser
      simp only [frameTop, frameBytes, huser, Bool.false_eq_true, if_false]
      exact ⟨hfits.1, hinv.wf.reg .esp, hfits.2⟩

/-- It is pushed below the frames that are there. -/
theorem Inv.frameTop_le (hinv : Inv lbl M) {t : Trap} (ht : t ∈ M.traps M.current) :
    frameTop M.esp0 M.cpu ≤ t.base := by
  have huser := hinv.ring (List.ne_nil_of_mem ht)
  simp only [frameTop, huser, Bool.false_eq_true, if_false]
  exact hinv.low t ht

/-- The interrupt writes its frame and nothing else. -/
theorem enter_frame (lbl : Labels) (g : Gate) {esp0 : Nat} {c : Cpu} (hc : c.Wf)
    (hroom : frameBytes c ≤ frameTop esp0 c) (htop : frameTop esp0 c < 2 ^ 32) :
    FrameHeld lbl g esp0 c (enter alu lbl g esp0 c).mem ∧
      ∀ x, x < frameBase esp0 c ∨ frameTop esp0 c ≤ x →
        (enter alu lbl g esp0 c).mem x = c.mem x := by
  have hlen : 4 * (lbl.resume g :: (frameBase esp0 c + 8) :: trapFrame g esp0 c).reverse.length =
      frameBytes c := by
    rw [List.length_reverse, List.length_cons, List.length_cons, ← trapFrame_length g esp0 c]
    omega
  have hlt : ∀ w ∈ (lbl.resume g :: (frameBase esp0 c + 8) :: trapFrame g esp0 c).reverse,
      w < 2 ^ 32 := by
    intro w hw
    rw [List.mem_reverse, List.mem_cons, List.mem_cons] at hw
    rcases hw with rfl | rfl | hw
    · exact lbl.resume_lt g
    · have := trapFrame_length g esp0 c
      unfold frameBase
      omega
    · exact trapFrame_lt g hc htop hroom w hw
  have hwords := words_pushed c.mem hlt (hlen.trans_le hroom)
  rw [List.reverse_reverse, hlen, ← enter_mem alu lbl g hroom] at hwords
  refine ⟨⟨hwords.1, hwords.2.2⟩, fun x hx => ?_⟩
  rw [enter_mem alu lbl g hroom]
  apply pushed_of_disjoint
  · rw [hlen]
    exact hroom
  · rw [hlen]
    exact hx

theorem Inv.interrupt (hinv : Inv lbl M) (hroom : M.Room) (g : Gate) :
    Inv lbl (M.interrupt alu lbl g) := by
  obtain ⟨hfits, htop, hinside⟩ := hinv.frame_inside hroom
  obtain ⟨hheld, hsame⟩ := enter_frame alu lbl g hinv.wf hfits htop
  have hout : ∀ x ∉ M.own, (enter alu lbl g M.esp0 M.cpu).mem x = M.cpu.mem x := by
    intro x hx
    apply hsame
    by_contra hcon
    exact hx (Or.inl (hinside x (by omega) (by omega)))
  have hnew : Trap.Held ⟨g, M.esp0, M.cpu⟩ lbl (enter alu lbl g M.esp0 M.cpu).mem
      (M.stack M.current) := ⟨hheld, hinv.wf, hfits, hinside⟩
  have htraps : (M.interrupt alu lbl g).traps M.current =
      ⟨g, M.esp0, M.cpu⟩ :: M.traps M.current := Function.update_self _ _ _
  have hothers : ∀ p, p ≠ M.current → (M.interrupt alu lbl g).traps p = M.traps p :=
    fun p hp => Function.update_of_ne hp _ _
  constructor
  case wf => exact enter_wf alu lbl g hinv.wf htop hfits
  case alive => exact hinv.alive
  case disjoint => exact hinv.disjoint
  case slots => exact hinv.slots
  case slot_stack => exact hinv.slot_stack
  case ring => exact fun _ => enter_user alu lbl g
  case low =>
    intro t ht
    have hesp : (M.interrupt alu lbl g).cpu.reg .esp = frameBase M.esp0 M.cpu :=
      enter_esp alu lbl g hfits
    rw [hesp]
    rcases List.mem_cons.1 (htraps ▸ ht) with rfl | ht
    · exact le_rfl
    · exact (Nat.sub_le _ _).trans (hinv.frameTop_le ht)
  case tss =>
    intro huser
    apply hinv.tss
    rcases huser with huser | ⟨t, ht, huser⟩
    · exact absurd huser (by rw [show (M.interrupt alu lbl g).cpu.user = false from
        enter_user alu lbl g]; decide)
    · rcases List.mem_cons.1 (htraps ▸ ht) with rfl | ht
      · exact Or.inl huser
      · exact Or.inr ⟨t, ht, huser⟩
  case held =>
    intro p hp t ht
    by_cases hcur : p = M.current
    · subst hcur
      rcases List.mem_cons.1 (htraps ▸ ht) with rfl | ht
      · exact hnew
      · apply (hinv.held _ hp t ht).congr
        intro x hx
        apply hsame
        have hle := hinv.frameTop_le ht
        rcases hx with hx | hx
        · omega
        · omega
    · rw [hothers p hcur] at ht
      exact hinv.held_other hout hp hcur ht
  case nested =>
    intro p hp
    by_cases hcur : p = M.current
    · subst hcur
      rw [htraps]
      refine List.pairwise_cons.2 ⟨fun u hu => ?_, hinv.nested _ hp⟩
      exact ⟨hinv.ring (List.ne_nil_of_mem hu), hinv.frameTop_le hu⟩
    · rw [hothers p hcur]
      exact hinv.nested p hp
  case asleep =>
    intro p hp hne
    rw [hothers p hne]
    exact hinv.asleep_other hout hp hne

/-- The stub that called the handler goes on, and gives the registers back. -/
theorem Inv.handlerReturns (hinv : Inv lbl M) {t : Trap} {ts : List Trap} (hat : M.AtReturn t ts) :
    ∃ c, Cpu.handlerReturns alu lbl M.cpu = some c ∧
      Resumed t.before (t.gate.result (t.before.reg .eax) (M.cpu.reg .eax)) c ∧ c.Wf ∧
      ∀ x, x < t.base ∨ t.top ≤ x → c.mem x = M.cpu.mem x := by
  have hmem : t ∈ M.traps M.current := hat.traps ▸ List.mem_cons_self
  have hheld := hinv.held _ hinv.alive t hmem
  have heax := hinv.wf.reg .eax
  have hring := hinv.ring (List.ne_nil_of_mem hmem)
  have hret : M.cpu.word 0 = lbl.resume t.gate := by
    unfold Cpu.word
    rw [hat.esp]
    exact hheld.frame.resume
  have hres := exitStub_resumed alu hheld.frame hat.esp hring heax hheld.room
  refine ⟨_, handlerReturns_eq alu hret, hres, ?_, ?_⟩
  · constructor
    case reg =>
      intro r
      by_cases hr : r = .eax
      · subst hr
        rw [hres.eax]
        cases t.gate with
        | irq n => exact hheld.wf.reg .eax
        | isr128 => exact heax
      · rw [hres.reg r hr]
        exact hheld.wf.reg r
    case seg =>
      intro s
      rw [Cpu.iret_seg]
      exact exitStub_seg alu t.gate s
    case cs => exact hres.cs ▸ hheld.wf.cs
    case ss =>
      rw [Cpu.iret_ss]
      split
      · rw [exitStub_ss]
        exact hinv.wf.ss
      · exact read32_lt _ _
    case eip => exact hres.eip ▸ hheld.wf.eip
    case eflags => exact hres.eflags ▸ hheld.wf.eflags
  · intro x hx
    have hbytes := le_frameBytes t.before
    have hbase := hheld.base_add
    have hesp : (exec alu M.cpu .ret).reg .esp = t.base + 4 := by
      simp only [exec, Cpu.drop, Cpu.set, Function.update_self, hat.esp]
    rw [Cpu.iret_mem, exitStub_mem alu t.gate (by omega)]
    rfl

theorem Inv.resume (hinv : Inv lbl M) {t : Trap} {ts : List Trap} (hat : M.AtReturn t ts)
    {c : Cpu} (hret : Cpu.handlerReturns alu lbl M.cpu = some c) : Inv lbl (M.resume c) := by
  obtain ⟨c', hc', hres, hwf, hsame⟩ := hinv.handlerReturns alu hat
  obtain rfl : c' = c := Option.some.inj (hc'.symm.trans hret)
  have hmem : t ∈ M.traps M.current := hat.traps ▸ List.mem_cons_self
  have hheld := hinv.held _ hinv.alive t hmem
  have hnest : (∀ u ∈ ts, t.before.user = false ∧ t.top ≤ u.base) ∧ Nested ts :=
    List.pairwise_cons.1 (hat.traps ▸ hinv.nested _ hinv.alive)
  have huser : c'.user = t.before.user := by
    unfold Cpu.user
    rw [hres.cs]
  have htraps : (M.resume c').traps M.current = ts := by
    simp only [Machine.resume, Function.update_self, hat.traps, List.tail_cons]
  have hothers : ∀ p, p ≠ M.current → (M.resume c').traps p = M.traps p :=
    fun p hp => Function.update_of_ne hp _ _
  have hout : ∀ x ∉ M.own, c'.mem x = M.cpu.mem x := by
    intro x hx
    apply hsame
    by_contra hcon
    exact hx (Or.inl (hheld.inside x (by omega) (by omega)))
  constructor
  case wf => exact hwf
  case alive => exact hinv.alive
  case disjoint => exact hinv.disjoint
  case slots => exact hinv.slots
  case slot_stack => exact hinv.slot_stack
  case ring =>
    intro hne
    obtain ⟨u, hu⟩ := List.exists_mem_of_ne_nil _ (htraps ▸ hne)
    exact huser.trans (hnest.1 u hu).1
  case low =>
    intro u hu
    obtain ⟨hkernel, hle⟩ := hnest.1 u (htraps ▸ hu)
    have hesp : c'.reg .esp = t.top := by
      rw [hres.reg .esp (by decide)]
      simp only [Trap.top, frameTop, hkernel, Bool.false_eq_true, if_false]
    exact hesp.trans_le hle
  case tss =>
    intro h
    apply hinv.tss
    right
    rcases h with h | ⟨u, hu, h⟩
    · exact ⟨t, hmem, huser ▸ h⟩
    · exact ⟨u, hat.traps ▸ List.mem_cons_of_mem t (htraps ▸ hu), h⟩
  case held =>
    intro p hp u hu
    by_cases hcur : p = M.current
    · subst hcur
      rw [htraps] at hu
      apply (hinv.held _ hp u (hat.traps ▸ List.mem_cons_of_mem t hu)).congr
      intro x hx
      apply hsame
      have hle := (hnest.1 u hu).2
      rcases hx with hx | hx
      · omega
      · omega
    · rw [hothers p hcur] at hu
      exact hinv.held_other hout hp hcur hu
  case nested =>
    intro p hp
    by_cases hcur : p = M.current
    · subst hcur
      rw [htraps]
      exact hnest.2
    · rw [hothers p hcur]
      exact hinv.nested p hp
  case asleep =>
    intro p hp hne
    rw [hothers p hne]
    exact hinv.asleep_other hout hp hne

/-! ### Switches -/

theorem callerContext_words (c : Cpu) :
    (callerContext c).words = (contextWords c).reverse ++ [c.word 0] := rfl

/-- The switch writes the registers of the old process below its stack pointer, and the
stack pointer into its control block. -/
theorem suspend_of_disjoint {c : Cpu} (hroom : 32 ≤ c.reg .esp) {old x : Nat}
    (hx : x < c.reg .esp - 32 ∨ c.reg .esp ≤ x) (hslot : x ∉ slot old) :
    suspend c old x = c.mem x := by
  have hoff : PcbField.esp.offset = 40 := rfl
  rw [mem_slot] at hslot
  rw [suspend, write32_of_disjoint _ _ (by omega)]
  exact pushContext_of_disjoint hroom hx

theorem suspended_suspend {c : Cpu} (hwf : c.Wf) {old : Nat} {st : KStack} {ts : List Trap}
    (hroom : 32 ≤ c.reg .esp)
    (hinside : ∀ x, c.reg .esp - 32 ≤ x → x < c.reg .esp + 12 → x ∈ st.bytes)
    (hslot : Disjoint (slot old) st.bytes) (hlow : ∀ t ∈ ts, c.reg .esp + 12 ≤ t.base) :
    Suspended (suspend c old) old (callerContext c) st ts := by
  have hesp := hwf.reg .esp
  have hbase : read32 (suspend c old) (old + PcbField.esp.offset) = c.reg .esp - 32 :=
    read32_write32_same _ _ (by omega)
  have hlt : ∀ w ∈ contextWords c, w < 2 ^ 32 := by
    have hflags : pushfdImage c.eflags < 2 ^ 32 := lt_of_le_of_lt Nat.and_le_left hwf.eflags
    simp only [contextWords, List.forall_mem_cons]
    exact ⟨hflags, hwf.reg _, hwf.reg _, hwf.reg _, hwf.reg _, hwf.reg _, hwf.reg _, hwf.reg _,
      by simp⟩
  have hpushed : Words (pushed c.mem (c.reg .esp) (contextWords c)) (c.reg .esp - 32)
      (contextWords c).reverse := words_pushed c.mem hlt hroom
  have hframe : ∀ x, c.reg .esp - 32 ≤ x → x < c.reg .esp + 12 →
      suspend c old x = pushed c.mem (c.reg .esp) (contextWords c) x := by
    intro x hx hx'
    have hoff : PcbField.esp.offset = 40 := rfl
    have hno : x ∉ slot old := fun h => Set.disjoint_left.1 hslot h (hinside x hx hx')
    rw [mem_slot] at hno
    exact write32_of_disjoint _ _ (by omega)
  refine ⟨?_, ?_, ?_, ?_⟩
  · rw [hbase]
    simp only [callerContext, Function.update_self]
    omega
  · rw [hbase, callerContext_words, words_append]
    constructor
    · apply hpushed.congr
      intro x hx hx'
      change x < c.reg .esp - 32 + 32 at hx'
      exact hframe x hx (by omega)
    · -- the return address has been there before
      refine ⟨?_, trivial⟩
      have haddr : c.reg .esp - 32 + 4 * (contextWords c).reverse.length = c.reg .esp := by
        rw [List.length_reverse]
        exact Nat.sub_add_cancel hroom
      rw [haddr]
      apply read32_congr
      intro x hx hx'
      rw [hframe x (by omega) (by omega)]
      exact pushContext_of_disjoint hroom (Or.inr hx)
  · rw [hbase]
    intro x hx hx'
    change x < c.reg .esp - 32 + 36 at hx'
    exact hinside x hx (by omega)
  · intro t ht
    have := hlow t ht
    simp only [callerContext, Function.update_self]
    omega

/-- The processor runs a process in its context. -/
structure Loaded (k : Context) (c : Cpu) : Prop where
  reg : c.reg = k.reg
  eip : c.eip = k.eip
  eflags : c.eflags = k.eflags
  above : Words c.mem (c.reg .esp) k.above

theorem Suspended.loaded {m : Mem} {p : Nat} {k : Context} {st : KStack} {ts : List Trap}
    (h : Suspended m p k st ts) (c : Cpu) (cr3 : Nat) :
    Loaded k (popContext c m (read32 m (p + PcbField.esp.offset)) cr3) := by
  have hget : ∀ {i w : Nat}, k.words[i]? = some w →
      read32 m (read32 m (p + PcbField.esp.offset) + 4 * i) = w := fun hi => h.words.get hi
  refine ⟨funext fun r => ?_, hget (i := 8) rfl, hget (i := 7) rfl, ?_⟩
  · cases r with
    | edi => exact hget (i := 0) rfl
    | esi => exact hget (i := 1) rfl
    | ebp => exact hget (i := 2) rfl
    | ebx => exact hget (i := 3) rfl
    | edx => exact hget (i := 4) rfl
    | ecx => exact hget (i := 5) rfl
    | eax => exact hget (i := 6) rfl
    | esp => exact h.esp
  · exact (words_append.1 h.words).2

section Switch

variable {new : Nat}

theorem Inv.switch_cpu (hinv : Inv lbl M) (h : M.CanSwitch new) :
    (M.switch alu new).cpu = popContext M.cpu (suspend M.cpu M.current)
      (read32 (suspend M.cpu M.current) (new + PcbField.esp.offset))
      (read32 (suspend M.cpu M.current) (new + PcbField.cr3.offset)) := by
  simp only [Machine.switch]
  apply run_contextSwitch alu h.room h.old_arg h.new_arg
  by_contra hcon
  have hslot : max (M.current + 40) (M.cpu.reg .esp + 8) ∈ slot M.current :=
    mem_slot.2 ⟨le_max_left _ _, by omega⟩
  exact Set.disjoint_left.1 (hinv.slot_stack _ hinv.alive _ hinv.alive) hslot
    (h.inside _ (by omega) (by omega))

theorem Inv.switch_user (hinv : Inv lbl M) (h : M.CanSwitch new) :
    (M.switch alu new).cpu.user = false := by
  rw [hinv.switch_cpu alu h]
  exact h.ring

/-- Nothing is written that another process owns. -/
theorem Inv.suspend_other (h : M.CanSwitch new) :
    ∀ x ∉ M.own, suspend M.cpu M.current x = M.cpu.mem x := by
  intro x hx
  apply suspend_of_disjoint h.room
  · by_contra hcon
    exact hx (Or.inl (h.inside x (by omega) (by omega)))
  · exact fun hslot => hx (Or.inr hslot)

theorem Inv.loaded (hinv : Inv lbl M) (h : M.CanSwitch new) :
    Loaded (M.context new) (M.switch alu new).cpu := by
  have hasleep := hinv.asleep_other (Inv.suspend_other h) h.live h.ne
  rw [hinv.switch_cpu alu h]
  exact hasleep.loaded _ _

theorem Inv.switch (hinv : Inv lbl M) (h : M.CanSwitch new) : Inv lbl (M.switch alu new) := by
  have hasleep := hinv.asleep_other (Inv.suspend_other h) h.live h.ne
  have hcpu := hinv.switch_cpu alu h
  have hload := hinv.loaded alu h
  have hmem : (M.switch alu new).cpu.mem = suspend M.cpu M.current := by
    rw [hcpu]
    rfl
  have hstay : ∀ p, p ≠ M.current → (M.switch alu new).context p = M.context p :=
    fun p hp => Function.update_of_ne hp _ _
  have hesp : (M.switch alu new).cpu.reg .esp = (M.context new).reg .esp := by rw [hload.reg]
  constructor
  case wf =>
    rw [hcpu]
    constructor
    case reg =>
      intro r
      cases r with
      | esp =>
          have hlast := (M.stack new).lt _ (hasleep.inside
            (read32 (suspend M.cpu M.current) (new + PcbField.esp.offset) + 35) (by omega) (by
              have : 9 ≤ (M.context new).words.length := by simp [Context.words]
              omega))
          exact hlast
      | _ => exact read32_lt _ _
    case seg => exact hinv.wf.seg
    case cs => exact hinv.wf.cs
    case ss => exact hinv.wf.ss
    case eip => exact read32_lt _ _
    case eflags => exact read32_lt _ _
  case alive => exact h.live
  case disjoint => exact hinv.disjoint
  case slots => exact hinv.slots
  case slot_stack => exact hinv.slot_stack
  case ring => exact fun _ => hinv.switch_user alu h
  case low =>
    intro t ht
    rw [hesp]
    exact hasleep.low t ht
  case tss => exact fun _ => rfl
  case held =>
    intro p hp t ht
    rw [hmem]
    by_cases hcur : p = M.current
    · subst hcur
      have hold := hinv.held _ hp t ht
      apply hold.congr
      intro x hx
      apply suspend_of_disjoint h.room
      · have := h.low t ht
        rcases hx with hx | hx
        · omega
        · omega
      · intro hslot
        exact Set.disjoint_left.1 (hinv.slot_stack _ hp _ hp) hslot (hold.guarded_subset hx)
    · exact hinv.held_other (Inv.suspend_other h) hp hcur ht
  case nested => exact hinv.nested
  case asleep =>
    intro p hp hne
    rw [hmem]
    by_cases hcur : p = M.current
    · subst hcur
      have hcontext : (M.switch alu new).context M.current = callerContext M.cpu :=
        Function.update_self _ _ _
      rw [hcontext]
      exact suspended_suspend hinv.wf h.room h.inside
        (hinv.slot_stack _ hinv.alive _ hinv.alive) h.low
    · rw [hstay p hcur]
      exact hinv.asleep_other (Inv.suspend_other h) hp hcur

end Switch

/-! ### New processes -/

section Create

variable {p start cr3 : Nat} {st : KStack}

/-- Only the new stack and the new control block are written. -/
theorem create_mem (hlen : 40 ≤ st.top) {x : Nat} (hstack : x ∉ st.bytes) (hslot : x ∉ slot p) :
    (M.create img p st start cr3).cpu.mem x = M.cpu.mem x := by
  have hesp : PcbField.esp.offset = 40 := rfl
  have hcr3 : PcbField.cr3.offset = 44 := rfl
  have hpage : x < st.top - 4 * (Process.initialStack img start).length ∨ st.top ≤ x := by
    have hten : (Process.initialStack img start).length = 10 := rfl
    by_contra hcon
    exact hstack (st.page x (by omega) (by omega))
  rw [mem_slot] at hslot
  simp only [Machine.create, Process.pushWords_eq_pushed]
  rw [write32_of_disjoint _ _ (by omega), pushed_of_disjoint _ hlen hpage,
    write32_of_disjoint _ _ (by omega)]

theorem create_suspended (h : M.Fresh img p st start) :
    Suspended (M.create img p st start cr3).cpu.mem p (firstContext img start st.top) st [] := by
  have hpage := st.page_le
  have htop := st.top_lt
  have hesp : read32 (M.create img p st start cr3).cpu.mem (p + PcbField.esp.offset) =
      st.top - 40 := read32_write32_same _ _ (by omega)
  have hlt : ∀ w ∈ Process.initialStack img start, w < 2 ^ 32 := by
    simpa [Process.initialStack] using ⟨h.exit_lt, h.start_lt⟩
  have hpushed := words_pushed (write32 M.cpu.mem (p + PcbField.cr3.offset) cr3) hlt
    (a := st.top) (by change 40 ≤ st.top; omega)
  refine ⟨?_, ?_, ?_, ?_⟩
  · rw [hesp]
    simp only [firstContext, Function.update_self]
    omega
  · rw [hesp]
    apply Words.congr hpushed
    intro x hx hx'
    change st.top - 40 ≤ x at hx
    change x < st.top - 40 + 40 at hx'
    have hoff : PcbField.esp.offset = 40 := rfl
    have hno : x ∉ slot p := fun hslot =>
      Set.disjoint_left.1 h.own hslot (st.page x (by omega) (by omega))
    rw [mem_slot] at hno
    simp only [Machine.create, Process.pushWords_eq_pushed]
    exact write32_of_disjoint _ _ (by omega)
  · rw [hesp]
    intro x hx hx'
    change x < st.top - 40 + 40 at hx'
    exact st.page x (by omega) (by omega)
  · simp

theorem Inv.create (hinv : Inv lbl M) (h : M.Fresh img p st start) :
    Inv lbl (M.create img p st start cr3) := by
  have hsame : ∀ {x : Nat}, x ∉ st.bytes → x ∉ slot p →
      (M.create img p st start cr3).cpu.mem x = M.cpu.mem x :=
    fun hstack hslot => create_mem (by have := st.page_le; omega) hstack hslot
  have hne : ∀ {q : Nat}, q ∈ M.live → q ≠ p := fun hq hqp => h.dead (hqp ▸ hq)
  have hstack : ∀ {q : Nat}, q ∈ M.live → (M.create img p st start cr3).stack q = M.stack q :=
    fun hq => Function.update_of_ne (hne hq) _ _
  have htraps : ∀ {q : Nat}, q ∈ M.live → (M.create img p st start cr3).traps q = M.traps q :=
    fun hq => Function.update_of_ne (hne hq) _ _
  have hcontext : ∀ {q : Nat}, q ∈ M.live →
      (M.create img p st start cr3).context q = M.context q :=
    fun hq => Function.update_of_ne (hne hq) _ _
  have hnew : (M.create img p st start cr3).stack p = st := Function.update_self _ _ _
  have hnone : (M.create img p st start cr3).traps p = [] := Function.update_self _ _ _
  have hfirst : (M.create img p st start cr3).context p = firstContext img start st.top :=
    Function.update_self _ _ _
  -- what belongs to an older process is not touched
  have hstackSame : ∀ {q : Nat}, q ∈ M.live → ∀ x ∈ (M.stack q).bytes,
      (M.create img p st start cr3).cpu.mem x = M.cpu.mem x := fun hq x hx =>
    hsame (fun hx' => Set.disjoint_left.1 (h.stack _ hq) hx' hx)
      (fun hx' => Set.disjoint_left.1 (h.slot_stack _ hq) hx' hx)
  have hslotSame : ∀ {q : Nat}, q ∈ M.live → ∀ x ∈ slot q,
      (M.create img p st start cr3).cpu.mem x = M.cpu.mem x := fun hq x hx =>
    hsame (fun hx' => Set.disjoint_left.1 (h.stack_slot _ hq) hx hx')
      (fun hx' => Set.disjoint_left.1 (h.slots _ hq) hx' hx)
  constructor
  case wf => exact ⟨hinv.wf.reg, hinv.wf.seg, hinv.wf.cs, hinv.wf.ss, hinv.wf.eip, hinv.wf.eflags⟩
  case alive => exact Or.inr hinv.alive
  case disjoint =>
    refine Set.pairwiseDisjoint_insert_of_notMem h.dead |>.2 ⟨?_, ?_⟩
    · intro q hq r hr hqr
      simpa only [Function.onFun, hstack hq, hstack hr] using hinv.disjoint hq hr hqr
    · intro q hq
      simpa only [hnew, hstack hq] using h.stack q hq
  case slots => exact (Set.pairwiseDisjoint_insert_of_notMem h.dead).2 ⟨hinv.slots, h.slots⟩
  case slot_stack =>
    intro q hq r hr
    rcases hq with rfl | hq
    · rcases hr with rfl | hr
      · rw [hnew]
        exact h.own
      · rw [hstack hr]
        exact h.slot_stack r hr
    · rcases hr with rfl | hr
      · rw [hnew]
        exact h.stack_slot q hq
      · rw [hstack hr]
        exact hinv.slot_stack q hq r hr
  case ring =>
    intro hpending
    exact hinv.ring (htraps hinv.alive ▸ hpending)
  case low =>
    intro t ht
    exact hinv.low t (htraps hinv.alive ▸ ht)
  case tss =>
    intro huser
    change M.esp0 = ((M.create img p st start cr3).stack M.current).top
    rw [hstack hinv.alive]
    apply hinv.tss
    rwa [show (M.create img p st start cr3).traps (M.create img p st start cr3).current =
      M.traps M.current from htraps hinv.alive] at huser
  case held =>
    intro q hq t ht
    rcases hq with rfl | hq
    · rw [hnone] at ht
      exact absurd ht List.not_mem_nil
    · rw [htraps hq] at ht
      have hold := hinv.held q hq t ht
      rw [hstack hq]
      exact hold.congr fun x hx => hstackSame hq x (hold.guarded_subset hx)
  case nested =>
    intro q hq
    rcases hq with rfl | hq
    · rw [hnone]
      exact List.Pairwise.nil
    · rw [htraps hq]
      exact hinv.nested q hq
  case asleep =>
    intro q hq hcur
    rcases hq with rfl | hq
    · rw [hnew, hnone, hfirst]
      exact create_suspended h
    · rw [hstack hq, htraps hq, hcontext hq]
      exact (hinv.asleep q hq hcur).congr (hslotSame hq) (hstackSame hq)

end Create

theorem Inv.step (hinv : Inv lbl M) {M' : Machine} (h : Step alu lbl img M M') : Inv lbl M' := by
  cases h with
  | code h => exact hinv.code h
  | interrupt g h => exact hinv.interrupt alu h g
  | returns hat hret => exact hinv.resume alu hat hret
  | switch h => exact hinv.switch alu h
  | create h => exact hinv.create h
  | reap h => exact hinv.reap h

end Preservation

theorem Start.inv {M : Machine} (h : Start M) (lbl : Labels) : Inv lbl M := by
  have honly : ∀ {p : Nat}, p ∈ M.live → p = M.current := fun hp =>
    Set.mem_singleton_iff.1 (h.live ▸ hp)
  constructor
  case wf => exact h.wf
  case alive => exact h.live ▸ Set.mem_singleton _
  case disjoint => exact h.live ▸ Set.pairwiseDisjoint_singleton _ _
  case slots => exact h.live ▸ Set.pairwiseDisjoint_singleton _ _
  case slot_stack =>
    intro p hp q hq
    rw [honly hp, honly hq]
    exact h.slot
  case ring => exact fun hne => absurd h.traps hne
  case low => simp [h.traps]
  case tss => simp [h.traps, h.ring]
  case held =>
    intro p hp
    rw [honly hp, h.traps]
    simp
  case nested =>
    intro p hp
    rw [honly hp, h.traps]
    exact List.Pairwise.nil
  case asleep => exact fun p hp hne => absurd (honly hp) hne

theorem Inv.run {alu : Alu} {lbl : Labels} {img : Process.Image} {P : Machine → Prop}
    {M M' : Machine} (hinv : Inv lbl M) (h : RunIn alu lbl img P M M') : Inv lbl M' := by
  induction h with
  | refl => exact hinv
  | tail _ hstep ih => exact ih.step alu hstep.1

end StakOS.Cpu
