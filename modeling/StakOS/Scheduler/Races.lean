import StakOS.Elf.Fidelity
import StakOS.Scheduler.Leaving

/-!
# The races of creation and exit

Over whole runs from boot, with ticks between any two statements: when a process can
be dispatched before it is fully made, and when the reaper can free the process that
is running.
-/

namespace StakOS.Threads

open StakOS.Lib.Memory StakOS.Lib.Loop StakOS.Paging StakOS.Process
open Relation (ReflTransGen)

/-! ## What a step must not do -/

/-- The process that an event is going to make current. -/
def Cpu.chosen (s : Cpu) : Event → Option Nat
  | .tick _ => if Expired s.kernel then firstReady s.kernel else none
  | .yield _ => firstReady s.kernel
  | .exit _ _ => firstReady s.kernel
  | .stmt _ =>
      match s.pc s.stack with
      | .exit (.setCurrent r) => some r
      | _ => none
  | _ => none

/-- The process in the making does not become current. -/
def Whole (img : Image) (s : Cpu) (e : Event) : Prop :=
  ∀ p, s.making img = some p → s.chosen e ≠ some p

/-- No tick comes while the process on the stack in use is on the zombie list. -/
def Quiet (s : Cpu) : Event → Prop
  | .tick _ => (s.pc s.stack).buried = false
  | _ => True

/-- A step that chooses no process in the making, and no tick while the process on the
stack in use is on the zombie list. -/
def Careful (img : Image) (s : Cpu) (e : Event) : Prop := Whole img s e ∧ Quiet s e

instance (img : Image) (s : Cpu) (e : Event) : Decidable (Whole img s e) :=
  decidable_of_iff (∀ p ∈ s.making img, s.chosen e ≠ some p) Iff.rfl

instance (s : Cpu) : (e : Event) → Decidable (Quiet s e)
  | .tick _ => inferInstanceAs (Decidable ((s.pc s.stack).buried = false))
  | .create _ _ _ | .createElf _ _ _ | .ret _ | .stmt _ | .yield _ | .exit _ _ | .work _ =>
      isTrue trivial

instance (img : Image) (s : Cpu) (e : Event) : Decidable (Careful img s e) :=
  inferInstanceAs (Decidable (Whole img s e ∧ Quiet s e))

/-! ## Every step keeps the invariant -/

theorem isFree_eq {pc : Pc} (h : pc.isFree = true) : pc = .free := by
  cases pc with
  | free => rfl
  | _ => cases h

theorem resume_same {s : Cpu} {k : Kernel} (h : k.current = s.kernel.current) :
    s.resume k = { s with kernel := k } := if_pos h

section Step

variable {img : Image} {s s' : Cpu} {held q zs : List Nat} {base : Nat} {e : Event}

theorem Good.begin_step (h : Good img s held q zs) (hfree : (s.pc s.stack).isFree = true)
    (hstack : s.stack = img.idlePcb) (c : Call) (f : Option Program) :
    Good img (s.goto s.kernel (.build c f .kmalloc)) held q zs := by
  have hpc := isFree_eq hfree
  have hblocks := h.blocks
  rw [← hstack, hpc] at hblocks
  exact h.advance hstack (by rw [hpc]; rfl) rfl hblocks rfl rfl h.parents
    (fun _ hx => Or.inl ⟨hx, rfl⟩) nofun nofun

theorem Good.ret_step (h : Good img s held q zs) (hfree : (s.pc s.stack).isFree = true)
    (hstack : s.stack ≠ img.idlePcb) (code : Int) :
    Good img (s.goto s.kernel (.exit (.exitCode code))) held q zs := by
  have hwork := h.atWork (by rw [isFree_eq hfree]; rfl)
  exact h.exit_advance hstack rfl (Kin.of_pcb rfl) h.blocks h.parents (fun _ hp _ => hp)
    (fun _ hp _ => hp) (fun p hp => (h.made p hp).notCurrent) h.waits
    ⟨hwork.current, hwork.queued, hwork.state⟩

theorem Good.stmt_step {esp : Nat} (h : Good img s held q zs)
    (hhalt : (s.pc s.stack).isHalted = false) (hwhole : Whole img s (.stmt esp))
    (hstmt : s.stmt img base esp = .ok s') : ∃ held' q' zs', Good img s' held' q' zs' := by
  cases hpc : s.pc s.stack with
  | free =>
      unfold Cpu.stmt at hstmt
      rw [hpc] at hstmt
      cases hstmt
      exact ⟨held, q, zs, h⟩
  | build c f b =>
      unfold Cpu.stmt at hstmt
      rw [hpc] at hstmt
      obtain ⟨⟨k', pc'⟩, hb, hrest⟩ := bind_eq_ok.mp hstmt
      cases hrest
      exact h.build_step hpc hb
  | load f l =>
      unfold Cpu.stmt at hstmt
      rw [hpc] at hstmt
      obtain ⟨⟨k', pc'⟩, hl, hrest⟩ := bind_eq_ok.mp hstmt
      cases hrest
      exact h.load_step hpc hl
  | exit e =>
      refine h.exit_step hpc hhalt (fun r hset hmaking => ?_) hstmt
      apply hwhole r hmaking
      unfold Cpu.chosen
      rw [hpc, hset]

theorem Good.tick_step {esp : Nat} (h : Good img s held q zs)
    (hhalt : (s.pc s.stack).isHalted = false) (hwhole : Whole img s (.tick esp))
    (hquiet : (s.pc s.stack).buried = false) :
    ∃ k' q' zs', schedulerTick s.kernel esp = .ok k' ∧
      Dispatches s.kernel k' (s.chosen (.tick esp)) ∧ Good img (s.resume k') held q' zs' := by
  obtain ⟨hcur, -, hnull, hnot, -⟩ := h.unburied hquiet hhalt
  rw [← hcur] at hnull hnot
  obtain ⟨k', q', zs', hret, hq, hzs, hb, hkin, hdispatch⟩ := h.blocks.tick hnull hnot esp
  refine ⟨k', q', zs', hret, hdispatch, h.dispatch_step hq hzs hb hkin hdispatch ?_ ?_ hquiet hhalt⟩
  · intro r hr
    by_cases hexp : Expired s.kernel
    · rw [if_pos hexp] at hr
      exact hr
    · rw [if_neg hexp] at hr
      cases hr
  · intro r hr hmaking
    exact hwhole r hmaking hr

theorem Good.yield_step {esp : Nat} (h : Good img s held q zs)
    (hfree : (s.pc s.stack).isFree = true) (hwhole : Whole img s (.yield esp)) :
    ∃ k' q', schedulerYield s.kernel esp = .ok k' ∧
      Dispatches s.kernel k' (s.chosen (.yield esp)) ∧ Good img (s.resume k') held q' zs := by
  have hpc := isFree_eq hfree
  have hquiet : (s.pc s.stack).buried = false := by
    rw [hpc]
    rfl
  have hhalt : (s.pc s.stack).isHalted = false := by
    rw [hpc]
    rfl
  obtain ⟨hcur, -, -, hnot, -⟩ := h.unburied hquiet hhalt
  rw [← hcur] at hnot
  obtain ⟨k', q', hret, hq, hb, hkin, hdispatch⟩ := h.blocks.yield hnot esp
  exact ⟨k', q', hret, hdispatch, h.dispatch_step hq (List.Subset.refl _) hb hkin hdispatch
    (fun _ hr => hr) (fun r hr hmaking => hwhole r hmaking hr) hquiet hhalt⟩

theorem Good.act (h : Good img s held q zs) (henabled : s.enabled img e = true)
    (hwhole : Whole img s e) (hquiet : Quiet s e) (hact : s.act img base e = .ok s') :
    ∃ held' q' zs', Good img s' held' q' zs' := by
  cases e with
  | create name start priority =>
      obtain ⟨hfree, hstack⟩ := (Bool.and_eq_true _ _).mp henabled
      cases hact
      exact ⟨held, q, zs, h.begin_step hfree (of_decide_eq_true hstack) _ _⟩
  | createElf name data priority =>
      obtain ⟨hfree, hstack⟩ := (Bool.and_eq_true _ _).mp henabled
      unfold Cpu.act at hact
      cases hvalid : Elf.elf32Validate data with
      | none =>
          simp only [hvalid] at hact
          cases hact
          exact ⟨held, q, zs, h⟩
      | some entry =>
          simp only [hvalid] at hact
          cases hact
          exact ⟨held, q, zs, h.begin_step hfree (of_decide_eq_true hstack) _ _⟩
  | ret code =>
      obtain ⟨hfree, hstack⟩ := (Bool.and_eq_true _ _).mp henabled
      cases hact
      exact ⟨held, q, zs, h.ret_step hfree (of_decide_eq_true hstack) _⟩
  | stmt esp =>
      obtain ⟨-, hhalt⟩ := (Bool.and_eq_true _ _).mp henabled
      exact h.stmt_step (by simpa using hhalt) hwhole hact
  | tick esp =>
      have hhalt : (s.pc s.stack).isHalted = false := by simpa [Cpu.enabled] using henabled
      obtain ⟨k', q', zs', hret, -, hgood⟩ := h.tick_step hhalt hwhole hquiet
      simp only [Cpu.act, hret] at hact
      cases hact
      exact ⟨held, q', zs', hgood⟩
  | yield esp =>
      obtain ⟨k', q', hret, -, hgood⟩ := h.yield_step henabled hwhole
      simp only [Cpu.act, hret] at hact
      cases hact
      exact ⟨held, q', zs, hgood⟩
  | exit code esp =>
      obtain ⟨hfree, hstack⟩ := (Bool.and_eq_true _ _).mp henabled
      obtain ⟨k', hret, rfl⟩ := map_eq_ok.mp hact
      obtain ⟨q', hgood⟩ := h.sysExit_step (isFree_eq hfree) (of_decide_eq_true hstack)
        (fun r hr hmaking => hwhole r hmaking hr) hret
      exact ⟨held, q', _, hgood⟩
  | work mem =>
      have hpc := isFree_eq henabled
      cases hact
      set k' : Kernel := { s.kernel with ms := ⟨s.kernel.ms.pmm, mem⟩ }
      have hb : Blocks img k' held q zs (s.pc img.idlePcb).unlisted :=
        h.blocks.congr rfl h.blocks.awake
      have hgood := Good.stays_step h (List.Perm.refl q) (List.Subset.refl zs) hb (Kin.of_pcb rfl)
        ⟨rfl, fun _ => rfl⟩ (by rw [hpc]; rfl)
      rw [resume_same (k := k') rfl] at hgood
      exact ⟨held, q, zs, hgood⟩

end Step

theorem run_good {img : Image} {base : Nat} {guard : Cpu → Event → Prop} {s s' : Cpu}
    (hguard : ∀ s e, guard s e → Whole img s e ∧ Quiet s e)
    (hrun : ReflTransGen (Step img base guard) s s') (h : ∃ held q zs, Good img s held q zs) :
    ∃ held q zs, Good img s' held q zs := by
  induction hrun with
  | refl => exact h
  | tail _ hstep ih =>
      obtain ⟨held, q, zs, hgood⟩ := ih
      obtain ⟨e, hg, henabled, hact⟩ := hstep
      exact hgood.act henabled (hguard _ e hg).1 (hguard _ e hg).2 hact

/-! ## Runs by evaluation -/

/-- Perform the events in turn, each of which must be enabled and satisfy the test. -/
def play (img : Image) (base : Nat) (test : Cpu → Event → Bool) : List Event → Cpu → Option Cpu
  | [], s => some s
  | e :: es, s =>
      if s.enabled img e && test s e then
        match s.act img base e with
        | .ok s' => play img base test es s'
        | .error _ => none
      else none

theorem play_reaches {img : Image} {base : Nat} {test : Cpu → Event → Bool}
    {guard : Cpu → Event → Prop} (htest : ∀ s e, test s e = true → guard s e) {es : List Event}
    {s s' : Cpu} (h : play img base test es s = some s') :
    ReflTransGen (Step img base guard) s s' := by
  induction es generalizing s with
  | nil =>
      cases h
      exact .refl
  | cons e es ih =>
      rw [play] at h
      split at h
      · next hok =>
        obtain ⟨henabled, hpassed⟩ := (Bool.and_eq_true _ _).mp hok
        cases hact : s.act img base e with
        | error stop =>
            rw [hact] at h
            cases h
        | ok t =>
            rw [hact] at h
            exact .head (.mk e (htest s e hpassed) henabled hact) (ih h)
      · cases h

/-- A run by evaluation in which every step is careful. -/
def playCareful (es : List Event) : Option Cpu :=
  play sampleImage userStackBase (fun s e => decide (Careful sampleImage s e)) es (boot sampleBoot)

theorem playCareful_reaches {es : List Event} {s : Cpu} (h : playCareful es = some s) :
    ReflTransGen (Step sampleImage userStackBase (Careful sampleImage)) (boot sampleBoot) s :=
  play_reaches (fun _ _ => of_decide_eq_true) h

/-! ## The running process and the reaper -/

section Reaper

variable {img : Image} {s : Cpu} {held q zs : List Nat}

theorem Good.dead (h : Good img s held q zs) (hburied : (s.pc s.stack).buried = true) :
    Dead s zs := by
  have hruns := h.runs
  cases hpc : s.pc s.stack with
  | exit e =>
      rw [hpc] at hruns hburied
      cases e with
      | pick => exact hruns.2
      | leave r => exact hruns.2.1
      | run r => exact hruns.2.1
      | quantum r => exact hruns.2.1
      | esp0 r => exact hruns.2.1
      | setCurrent r => exact hruns.2.1
      | load old r => exact hruns.2.2.1
      | _ => cases hburied
  | _ =>
      rw [hpc] at hburied
      cases hburied

/-- Every parent is pid 0, which counts as dead, so a tick frees whoever is at the front
of the zombie list. -/
theorem Good.frees_stack (h : Good img s held q zs) (hburied : (s.pc s.stack).buried = true) :
    Frees s.kernel s.stack := by
  have hdead := h.dead hburied
  refine frees_head hdead.first ?_ (h.parents _ (List.mem_append_right q hdead.zombie))
  intro h0
  exact h.blocks.nonNull (List.mem_append_right held (h0 ▸ hdead.zombie))

end Reaper

/-- In every run in which no process in the making is dispatched and no tick comes while
the process on the stack in use is on the zombie list, a tick would call `process_free`
on the current process, or on the one whose kernel stack and page directory are in use,
exactly when it came at such a moment. -/
theorem running_process_not_reaped {img : Image} (b : Boot img) {s : Cpu}
    (hrun : ReflTransGen (Step img userStackBase (Careful img)) (boot b) s) {esp : Nat}
    (htick : s.enabled img (.tick esp) = true) :
    (∀ p, Frees s.kernel p → p ≠ s.kernel.current ∧ p ≠ s.stack) ↔ Quiet s (.tick esp) := by
  obtain ⟨held, q, zs, h⟩ := run_good (fun _ _ hg => hg) hrun ⟨_, _, _, boot_good b⟩
  constructor
  · intro hspared
    change (s.pc s.stack).buried = false
    by_contra hburied
    rw [Bool.not_eq_false] at hburied
    exact (hspared _ (h.frees_stack hburied)).2 rfl
  · intro hquiet p hfrees
    have hhalt : (s.pc s.stack).isHalted = false := by simpa [Cpu.enabled] using htick
    obtain ⟨hcur, hnot, -⟩ := h.unburied hquiet hhalt
    have hp := h.blocks.frees hfrees
    have hne : p ≠ s.stack := fun hps => hnot (hps ▸ hp)
    rw [hcur]
    exact ⟨hne, hne⟩

/-- A process is made, gets the processor, returns from its entry function and is put on
the zombie list. -/
def returning : List Event :=
  .create [] 0x103000 1 :: List.replicate 9 (.stmt 0) ++
    .tick 0 :: .ret 0 :: List.replicate 4 (.stmt 0)

theorem running_process_not_reaped_afterSwitch :
    ∃ s, ReflTransGen (Step sampleImage userStackBase (Careful sampleImage)) (boot sampleBoot) s ∧
      s.kernel.zombieHead ≠ 0 ∧ s.enabled sampleImage (.tick 0) = true ∧
      ((∀ p, Frees s.kernel p → p ≠ s.kernel.current ∧ p ≠ s.stack) ↔ Quiet s (.tick 0)) := by
  have heval : (playCareful (returning ++ List.replicate 7 (.stmt 0))).any (fun s =>
      decide (s.kernel.zombieHead ≠ 0 ∧ s.enabled sampleImage (.tick 0) = true)) = true := by
    decide +kernel
  obtain ⟨s, hplay, htest⟩ := (Option.any_eq_true ..).mp heval
  obtain ⟨hzombie, htick⟩ := of_decide_eq_true htest
  have hrun := playCareful_reaches hplay
  exact ⟨s, hrun, hzombie, htick, running_process_not_reaped sampleBoot hrun htick⟩

/-- A tick behind the push on the zombie list frees the process that is running. -/
theorem running_process_reaped :
    ∃ s, ReflTransGen (Step sampleImage userStackBase (Careful sampleImage)) (boot sampleBoot) s ∧
      s.enabled sampleImage (.tick 0) = true ∧ s.stack = s.kernel.current ∧
      Frees s.kernel s.kernel.current := by
  have heval : (playCareful returning).any (fun s =>
      decide (s.enabled sampleImage (.tick 0) = true ∧ s.stack = s.kernel.current ∧
        s.kernel.zombieHead = s.kernel.current ∧ s.kernel.current ≠ 0 ∧
        (s.kernel.pcb s.kernel.current).parentPid = 0)) = true := by decide +kernel
  obtain ⟨s, hplay, htest⟩ := (Option.any_eq_true ..).mp heval
  obtain ⟨htick, hstack, hhead, hnull, hparent⟩ := of_decide_eq_true htest
  exact ⟨s, playCareful_reaches hplay, htick, hstack, frees_head hhead hnull hparent⟩

/-! ## The process in the making and the scheduler -/

/-- The program that the process in the making is made for. -/
def Pc.program : Pc → Option Program
  | .build _ f _ => f
  | .load f _ => some f
  | _ => none

/-- What `process_create_from_elf` leaves behind on its way out. -/
structure Complete (base : Nat) (f : Program) (k : Kernel) (p : Nat) : Prop where
  entry : (k.pcb p).userEntry = f.entry
  stackTop : (k.pcb p).userStackTop = base + userStackPages * Pmm.pageSize
  listed : ∃ i, i < maxProcesses ∧ k.procTable i = p

theorem Build.place_ite {c : Call} {f : Option Program} {C : Prop} [Decidable C] {a b : Build}
    {p : Nat} (ha : a.place.proc = some p) (hb : b.place.proc = some p) :
    (Pc.build c f (if C then a else b)).place.proc = some p := by
  split
  · exact ha
  · exact hb

theorem Load.place_ite {f : Program} {C : Prop} [Decidable C] {a b : Load} {p : Nat}
    (ha : a.place.proc = some p) (hb : b.place.proc = some p) :
    (Pc.load f (if C then a else b)).place.proc = some p := by
  split
  · exact ha
  · exact hb

theorem Build.stmt_place {img : Image} {c : Call} {f : Option Program} {k k' : Kernel} {b : Build}
    {pc' : Pc} {p : Nat} (hp : b.place.proc = some p) (h : b.stmt img c f k = .ok (k', pc')) :
    pc'.place.proc = some p ∨ b = .free p ∨ f = none := by
  cases b with
  | kmalloc => cases hp
  | directory x =>
      cases h
      exact Or.inl (Build.place_ite hp hp)
  | stackHi x lo =>
      cases h
      exact Or.inl (Build.place_ite hp hp)
  | register x =>
      simp only [Build.stmt] at h
      split at h
      · cases h
        cases f with
        | none => exact Or.inr (Or.inr rfl)
        | some f => exact Or.inl hp
      · cases h
        exact Or.inl hp
  | dequeue x =>
      obtain ⟨k₁, -, hrest⟩ := bind_eq_ok.mp h
      cases hrest
      exact Or.inl hp
  | free x =>
      right; left
      cases hp
      rfl
  | _ =>
      cases h
      exact Or.inl hp

theorem Load.stmt_place {base : Nat} {f : Program} {k k' : Kernel} {l : Load} {pc' : Pc} {p : Nat}
    (hp : l.place.proc = some p) (h : l.stmt base f k = .ok (k', pc')) :
    pc'.place.proc = some p ∨ l = .bury p ∨ l = .userStackTop p := by
  cases l with
  | segments x phs =>
      cases phs <;> (cases h; exact Or.inl hp)
  | page x ph vas phs =>
      cases vas with
      | nil =>
          cases h
          exact Or.inl hp
      | cons va vas =>
          cases h
          exact Or.inl (Load.place_ite hp hp)
  | stackPage x vas =>
      cases vas with
      | nil =>
          cases h
          exact Or.inl hp
      | cons va vas =>
          cases h
          exact Or.inl (Load.place_ite hp hp)
  | map x ph va frame vas phs =>
      obtain ⟨ms, -, hrest⟩ := bind_eq_ok.mp h
      cases hrest
      exact Or.inl hp
  | stackMap x va frame vas =>
      obtain ⟨ms, -, hrest⟩ := bind_eq_ok.mp h
      cases hrest
      exact Or.inl hp
  | dequeue x =>
      obtain ⟨k₁, -, hrest⟩ := bind_eq_ok.mp h
      cases hrest
      exact Or.inl hp
  | bury x =>
      cases hp
      exact Or.inr (Or.inl rfl)
  | userStackTop x =>
      cases hp
      exact Or.inr (Or.inr rfl)
  | _ =>
      cases h
      exact Or.inl hp

section Making

variable {img : Image} {s s' : Cpu} {held q zs : List Nat} {base p : Nat} {e : Event}

theorem making_resume (k : Kernel) : (s.resume k).making img = s.making img := by
  unfold Cpu.resume
  split
  · rfl
  · rfl

theorem resume_kernel (k : Kernel) : (s.resume k).kernel = k := by
  unfold Cpu.resume
  split
  · rfl
  · rfl

/-- A process in the making that is chosen becomes current while it is being made. -/
theorem Good.current_of_chosen (h : Good img s held q zs) (henabled : s.enabled img e = true)
    (hquiet : Quiet s e) (hact : s.act img base e = .ok s') (hmaking : s.making img = some p)
    (hchosen : s.chosen e = some p) : s'.making img = some p ∧ s'.kernel.current = p := by
  cases e with
  | tick esp =>
      have hhalt : (s.pc s.stack).isHalted = false := by simpa [Cpu.enabled] using henabled
      obtain ⟨hcur, -, hnull, hnot, -⟩ := h.unburied hquiet hhalt
      rw [← hcur] at hnull hnot
      obtain ⟨k', q', zs', hret, -, -, -, -, hdispatch⟩ := h.blocks.tick hnull hnot esp
      rw [show (if Expired s.kernel then firstReady s.kernel else none) = some p from hchosen]
        at hdispatch
      simp only [Cpu.act, hret] at hact
      cases hact
      rw [making_resume, resume_kernel]
      exact ⟨hmaking, hdispatch.2.current⟩
  | yield esp =>
      have hpc := isFree_eq henabled
      obtain ⟨hcur, -, -, hnot, -⟩ := h.unburied (by rw [hpc]; rfl) (by rw [hpc]; rfl)
      rw [← hcur] at hnot
      obtain ⟨k', q', hret, -, -, -, hdispatch⟩ := h.blocks.yield hnot esp
      rw [show firstReady s.kernel = some p from hchosen] at hdispatch
      simp only [Cpu.act, hret] at hact
      cases hact
      rw [making_resume, resume_kernel]
      exact ⟨hmaking, hdispatch.2.current⟩
  | exit code esp =>
      obtain ⟨hfree, hstack⟩ := (Bool.and_eq_true _ _).mp henabled
      have hwork := h.atWork (by rw [isFree_eq hfree]; rfl)
      have hcur := hwork.current
      obtain ⟨k', hret, rfl⟩ := map_eq_ok.mp hact
      obtain ⟨r, q', hready, -, -, -, -, hto, -⟩ := h.blocks.exit (hcur ▸ hwork.queued)
        (hcur ▸ Ne.symm (of_decide_eq_true hstack)) (hcur ▸ hwork.state) hret
      rw [show firstReady s.kernel = some p from hchosen] at hready
      cases hready
      rw [making_resume, resume_kernel]
      exact ⟨hmaking, hto⟩
  | stmt esp =>
      cases hpc : s.pc s.stack with
      | exit x =>
          simp only [Cpu.chosen, hpc] at hchosen
          cases x with
          | setCurrent r =>
              cases hchosen
              have hidle := h.exits s.stack (by rw [hpc]; rfl)
              simp only [Cpu.act, Cpu.stmt, hpc, Exit.stmt, bind_ok] at hact
              cases hact
              rw [making_goto hidle]
              exact ⟨hmaking, rfl⟩
          | _ => cases hchosen
      | _ =>
          simp only [Cpu.chosen, hpc] at hchosen
          cases hchosen
  | _ => cases hchosen
/-- The process is still being made, or is not on the run queue, or is complete. -/
def Settled (img : Image) (base : Nat) (f : Program) (p : Nat) (s : Cpu) : Prop :=
  s.making img = some p ∨ (∃ q, QueueIs s.kernel q ∧ p ∉ q) ∨ Complete base f s.kernel p

theorem Good.build_settled {c : Call} {f : Program} {b : Build} {k' : Kernel} {pc' : Pc}
    (h : Good img s held q zs) (hpc : s.pc s.stack = .build c (some f) b)
    (hp : b.place.proc = some p) (hstmt : b.stmt img c (some f) s.kernel = .ok (k', pc')) :
    Settled img base f p ((s.goto k' pc').enroll pc') := by
  obtain ⟨hstack, -, hmade⟩ := h.made_of_pc hpc rfl hp
  rcases Build.stmt_place hp hstmt with hplace | hfree | hnone
  · left
    have hself : (s.goto k' pc').making img = some p := by
      change (Function.update s.pc s.stack pc' img.idlePcb).place.proc = some p
      rw [hstack, Function.update_self]
      exact hplace
    unfold Cpu.enroll
    split
    · next x =>
      have hx : x = p := by
        cases hplace
        rfl
      subst hx
      change (Function.update (s.goto k' (.build _ _ (.zero x))).pc x Pc.free
        img.idlePcb).place.proc = some x
      rw [Function.update_of_ne (Ne.symm hmade.notIdle)]
      exact hself
    · exact hself
  · subst hfree
    obtain ⟨hgood, rfl⟩ := h.free_step hpc hstmt
    obtain ⟨-, -, hheld, -⟩ := h.blocks_of_build hpc (p := p) rfl
    refine Or.inr (Or.inl ⟨q, hgood.blocks.queue, fun hin => ?_⟩)
    exact h.blocks.apart p (hheld rfl) (List.mem_append_left zs hin)
  · cases hnone

theorem Good.load_settled {f : Program} {l : Load} {k' : Kernel} {pc' : Pc}
    (h : Good img s held q zs) (hpc : s.pc s.stack = .load f l) (hp : l.place.proc = some p)
    (hstmt : l.stmt base f s.kernel = .ok (k', pc')) : Settled img base f p (s.goto k' pc') := by
  obtain ⟨hstack, hidlepc, hmade⟩ := h.made_of_pc hpc rfl hp
  rcases Load.stmt_place hp hstmt with hplace | hbury | htop
  · left
    change (Function.update s.pc s.stack pc' img.idlePcb).place.proc = some p
    rw [hstack, Function.update_self]
    exact hplace
  · subst hbury
    cases hstmt
    have hgood := h.bury_step hpc
    refine Or.inr (Or.inl ⟨q, hgood.blocks.queue, fun hin => ?_⟩)
    exact hgood.blocks.notMem_zombies hin List.mem_cons_self
  · subst htop
    cases hstmt
    have hin : p ∈ q := hmade.queued (by rw [hidlepc]; rfl)
    have hp0 : p ≠ 0 := fun h0 => h.blocks.queue.queue.nonNull (h0 ▸ hin)
    have hlisted := h.blocks.listed p (List.mem_append_right held (List.mem_append_left zs hin))
    rw [hidlepc] at hlisted
    refine Or.inr (Or.inr ⟨?_, ?_, hlisted hp0⟩)
    · change (Function.update s.kernel.pcb p _ p).userEntry = f.entry
      rw [Function.update_self]
      exact h.entry f p hidlepc
    · change (Function.update s.kernel.pcb p _ p).userStackTop = _
      rw [Function.update_self]

theorem Good.settled {f : Program} (h : Good img s held q zs) (henabled : s.enabled img e = true)
    (hact : s.act img base e = .ok s') (hprogram : (s.pc img.idlePcb).program = some f)
    (hmaking : s.making img = some p) : Settled img base f p s' := by
  have hbusy : ¬ ((s.pc s.stack).isFree = true ∧ s.stack = img.idlePcb) := by
    intro hfree
    have hpc := isFree_eq hfree.1
    rw [hfree.2] at hpc
    rw [hpc] at hprogram
    cases hprogram
  cases e with
  | create name start priority =>
      obtain ⟨hfree, hstack⟩ := (Bool.and_eq_true _ _).mp henabled
      exact absurd ⟨hfree, of_decide_eq_true hstack⟩ hbusy
  | createElf name data priority =>
      obtain ⟨hfree, hstack⟩ := (Bool.and_eq_true _ _).mp henabled
      exact absurd ⟨hfree, of_decide_eq_true hstack⟩ hbusy
  | ret code =>
      obtain ⟨-, hstack⟩ := (Bool.and_eq_true _ _).mp henabled
      cases hact
      left
      rw [making_goto (of_decide_eq_true hstack)]
      exact hmaking
  | stmt esp =>
      cases hpc : s.pc s.stack with
      | free =>
          simp [Cpu.enabled, hpc, Pc.isFree] at henabled
      | build c g b =>
          have hstack := h.stack_eq (by rw [hpc]; rfl)
          rw [Cpu.making, ← hstack, hpc] at hmaking
          rw [← hstack, hpc] at hprogram
          cases hprogram
          simp only [Cpu.act, Cpu.stmt, hpc] at hact
          obtain ⟨⟨k', pc'⟩, hb, hrest⟩ := bind_eq_ok.mp hact
          cases hrest
          exact h.build_settled hpc hmaking hb
      | load g l =>
          have hstack := h.stack_eq (by rw [hpc]; rfl)
          rw [Cpu.making, ← hstack, hpc] at hmaking
          rw [← hstack, hpc] at hprogram
          cases hprogram
          simp only [Cpu.act, Cpu.stmt, hpc] at hact
          obtain ⟨⟨k', pc'⟩, hl, hrest⟩ := bind_eq_ok.mp hact
          cases hrest
          exact h.load_settled hpc hmaking hl
      | exit x =>
          have hidle := h.exits s.stack (by rw [hpc]; rfl)
          simp only [Cpu.act, Cpu.stmt, hpc] at hact
          obtain ⟨⟨k', pc'⟩, -, hrest⟩ := bind_eq_ok.mp hact
          have hkeep : (s.goto k' pc').making img = some p := by
            rw [making_goto hidle]
            exact hmaking
          left
          split at hrest
          · cases hrest
            exact hkeep
          · cases hrest
            exact hkeep
  | tick esp =>
      obtain ⟨k', -, rfl⟩ := map_eq_ok.mp hact
      exact Or.inl ((making_resume k').trans hmaking)
  | yield esp =>
      obtain ⟨k', -, rfl⟩ := map_eq_ok.mp hact
      exact Or.inl ((making_resume k').trans hmaking)
  | exit code esp =>
      obtain ⟨k', -, rfl⟩ := map_eq_ok.mp hact
      exact Or.inl ((making_resume k').trans hmaking)
  | work mem =>
      cases hact
      exact Or.inl hmaking

end Making

/-- In every run in which no tick comes while a process runs that is on the zombie
list, a step makes a process current that is still in the making exactly when it is
one that was about to be chosen. -/
theorem created_not_dispatched {img : Image} (b : Boot img) {s s' : Cpu} {e : Event}
    (hrun : ReflTransGen (Step img userStackBase (Careful img)) (boot b) s)
    (hquiet : Quiet s e) (henabled : s.enabled img e = true)
    (hact : s.act img userStackBase e = .ok s') :
    ((∀ p, s'.making img = some p → s'.kernel.current ≠ p) ↔ Whole img s e) ∧
      ∀ f p, (s.pc img.idlePcb).program = some f → s.making img = some p →
        Settled img userStackBase f p s' := by
  obtain ⟨held, q, zs, h⟩ := run_good (fun _ _ hg => hg) hrun ⟨_, _, _, boot_good b⟩
  refine ⟨⟨?_, ?_⟩, fun f p hprogram hmaking => h.settled henabled hact hprogram hmaking⟩
  · intro hcurrent p hmaking hchosen
    obtain ⟨hmaking', hcur⟩ := h.current_of_chosen henabled hquiet hact hmaking hchosen
    exact hcurrent p hmaking' hcur
  · intro hwhole p hmaking
    obtain ⟨held', q', zs', h'⟩ := h.act henabled hwhole hquiet hact
    exact (h'.made p hmaking).notCurrent

/-- A process is made up to the call of `scheduler_enqueue`. -/
def enqueueing : List Event :=
  .createElf [] Elf.textProgram 5 :: List.replicate 7 (.stmt 0)

theorem created_not_dispatched_beforeEnqueue :
    ∃ s s', ReflTransGen (Step sampleImage userStackBase (Careful sampleImage)) (boot sampleBoot) s ∧
      s.act sampleImage userStackBase (.tick 0) = .ok s' ∧ (s'.making sampleImage).isSome = true ∧
      ((∀ p, s'.making sampleImage = some p → s'.kernel.current ≠ p) ↔
        Whole sampleImage s (.tick 0)) ∧
      ∀ f p, (s.pc sampleImage.idlePcb).program = some f → s.making sampleImage = some p →
        Settled sampleImage userStackBase f p s' := by
  have heval : (playCareful enqueueing).any (fun s =>
      decide (Quiet s (.tick 0) ∧ s.enabled sampleImage (.tick 0) = true) &&
        returnsWith (s.act sampleImage userStackBase (.tick 0)) fun s' =>
          (s'.making sampleImage).isSome) = true := by decide +kernel
  obtain ⟨s, hplay, htest⟩ := (Option.any_eq_true ..).mp heval
  obtain ⟨hready, hreturns⟩ := (Bool.and_eq_true _ _).mp htest
  obtain ⟨hquiet, henabled⟩ := of_decide_eq_true hready
  obtain ⟨s', hact, hmaking⟩ := returnsWith_iff.mp hreturns
  have hrun := playCareful_reaches hplay
  exact ⟨s, s', hrun, hact, hmaking,
    created_not_dispatched sampleBoot hrun hquiet henabled hact⟩

/-- A tick right behind `scheduler_enqueue` dispatches a process that is neither loaded
nor in the process table. -/
theorem half_made_process_dispatched :
    ∃ s s', ReflTransGen (Step sampleImage userStackBase (Careful sampleImage)) (boot sampleBoot) s ∧
      s.enabled sampleImage (.tick 0) = true ∧
      s.act sampleImage userStackBase (.tick 0) = .ok s' ∧
      (s'.pc sampleImage.idlePcb).program.isSome = true ∧
      s'.making sampleImage = some s'.kernel.current ∧
      (s'.kernel.pcb s'.kernel.current).userEntry = 0 ∧
      (∀ i, i < maxProcesses → s'.kernel.procTable i ≠ s'.kernel.current) := by
  have heval : (playCareful (enqueueing ++ [.stmt 0])).any (fun s =>
      decide (s.enabled sampleImage (.tick 0) = true) &&
        returnsWith (s.act sampleImage userStackBase (.tick 0)) fun s' =>
          decide ((s'.pc sampleImage.idlePcb).program.isSome = true ∧
            s'.making sampleImage = some s'.kernel.current ∧
            (s'.kernel.pcb s'.kernel.current).userEntry = 0 ∧
            ∀ i, i < maxProcesses → s'.kernel.procTable i ≠ s'.kernel.current)) = true := by
    decide +kernel
  obtain ⟨s, hplay, htest⟩ := (Option.any_eq_true ..).mp heval
  obtain ⟨henabled, hreturns⟩ := (Bool.and_eq_true _ _).mp htest
  obtain ⟨s', hact, hafter⟩ := returnsWith_iff.mp hreturns
  exact ⟨s, s', playCareful_reaches hplay, of_decide_eq_true henabled, hact,
    of_decide_eq_true hafter⟩

end StakOS.Threads
