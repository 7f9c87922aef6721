import StakOS.Scheduler.Making

/-!
# Scheduling and leaving

The timer tick, the system calls that switch, and the statements of `process_exit`
keep the invariant, as long as nobody switches to a process in the making and no
tick comes while the running process is on the zombie list.
-/

namespace StakOS.Threads

open StakOS.Lib.Memory StakOS.Lib.Loop StakOS.Paging StakOS.Process

namespace Good

variable {img : Image} {s : Cpu} {held held' q q' zs zs' : List Nat} {k' : Kernel} {pc' : Pc}

/-! ### The scheduler -/

/-- The program counter of a process that can be switched to. -/
theorem running_of_alive {pc : Pc} (hwork : AtWork s q) (halive : pc.alive = true) :
    Running s held q zs pc := by
  cases pc with
  | free => exact hwork
  | build c f b => exact hwork
  | load f l => exact hwork
  | exit e =>
      cases e with
      | exitCode code => exact hwork
      | state => exact hwork
      | _ => cases halive

theorem atWork_unburied (h : Good img s held q zs) (hwork : AtWork s q)
    (halive : (s.pc s.stack).alive = true) : Unburied s zs := by
  refine ⟨hwork.current, h.blocks.notMem_zombies hwork.queued, ?_, ?_, fun _ => halive⟩
  · exact fun h0 => h.blocks.queue.queue.nonNull (h0 ▸ hwork.queued)
  · rw [hwork.state]
    decide

theorem unburied (h : Good img s held q zs) (hpc : (s.pc s.stack).buried = false)
    (hhalt : (s.pc s.stack).isHalted = false) : Unburied s zs := by
  have hruns := h.runs
  have hworks := h.atWork_unburied
  cases hcase : s.pc s.stack with
  | free =>
      rw [hcase] at hruns hworks
      exact hworks hruns rfl
  | build c f b =>
      rw [hcase] at hruns hworks
      exact hworks hruns rfl
  | load f l =>
      rw [hcase] at hruns hworks
      exact hworks hruns rfl
  | exit e =>
      rw [hcase] at hruns hworks hpc hhalt
      have hzombie : (s.kernel.pcb s.stack).state = .zombie →
          (s.kernel.pcb s.stack).state ≠ .ready ∧
          ((s.kernel.pcb s.stack).state = .running → (s.pc s.stack).alive = true) := by
        intro hstate
        rw [hstate]
        exact ⟨by decide, nofun⟩
      cases e with
      | exitCode code => exact hworks hruns rfl
      | state => exact hworks hruns rfl
      | dequeue =>
          obtain ⟨hcur, hq, hstate⟩ := hruns
          obtain ⟨hnot, hleft⟩ := hzombie hstate
          exact ⟨hcur, h.blocks.notMem_zombies hq,
            fun h0 => h.blocks.queue.queue.nonNull (h0 ▸ hq), hnot, hleft⟩
      | bury p =>
          obtain ⟨hcur, -, hheld, hstate, -⟩ := hruns
          obtain ⟨hnot, hleft⟩ := hzombie hstate
          exact ⟨hcur, fun hz => h.blocks.apart _ hheld (List.mem_append_right q hz),
            fun h0 => h.blocks.zero_notMem (List.mem_append_left _ (h0 ▸ hheld)), hnot, hleft⟩
      | halt => cases hhalt
      | _ => cases hpc

section Schedule

variable (h : Good img s held q zs) (hq : q'.Perm q) (hzs : zs' ⊆ zs)
  (hb : Blocks img k' held q' zs' (s.pc img.idlePcb).unlisted) (hkin : Kin s.kernel k')

include h hq hzs hkin

theorem parents_of_kin : ∀ p ∈ q' ++ zs', (k'.pcb p).parentPid = 0 := by
  intro p hp
  rw [hkin.parent]
  apply h.parents
  rcases List.mem_append.mp hp with hp | hp
  · exact List.mem_append_left zs (hq.mem_iff.mp hp)
  · exact List.mem_append_right q (hzs hp)

include hb

/-- The scheduler was called and nobody else runs. -/
theorem stays_step (hstays : Stays s.kernel k') (hpc : (s.pc s.stack).buried = false) :
    Good img (s.resume k') held q' zs' := by
  have hresume : s.resume k' = { s with kernel := k' } := if_pos hstays.current
  rw [hresume]
  have hwork : AtWork s q → AtWork { s with kernel := k' } q' := fun hwork =>
    ⟨hstays.current.trans hwork.current, hq.mem_iff.mpr hwork.queued,
      (hstays.states _).trans hwork.state⟩
  refine ⟨hb, h.home, ?_, parents_of_kin h hq hzs hkin, h.makes, h.exits, ?_, ?_, ?_, ?_⟩
  · exact (hkin.pid _).trans h.idlePid
  · intro p hp
    have hmade := h.made p hp
    exact ⟨hmade.held, fun hplace => hq.mem_iff.mpr (hmade.queued hplace), hmade.notIdle,
      hstays.current ▸ hmade.notCurrent, hmade.notStack, hmade.free, fun hz =>
      (hkin.parent p).trans (hmade.parent hz)⟩
  · intro f p hp
    exact (hkin.userEntry p).trans (h.entry f p hp)
  · intro p hp hps hready
    exact h.waits p (hq.mem_iff.mp hp) hps ((hstays.states p).symm.trans hready)
  · change Running { s with kernel := k' } held q' zs' (s.pc s.stack)
    have hruns := h.runs
    cases hcase : s.pc s.stack with
    | free =>
        rw [hcase] at hruns
        exact hwork hruns
    | build c f b =>
        rw [hcase] at hruns
        exact hwork hruns
    | load f l =>
        rw [hcase] at hruns
        exact hwork hruns
    | exit e =>
        rw [hcase] at hruns hpc
        cases e with
        | exitCode code => exact hwork hruns
        | state => exact hwork hruns
        | dequeue =>
            obtain ⟨hcur, hsq, hstate⟩ := hruns
            exact ⟨hstays.current.trans hcur, hq.mem_iff.mpr hsq,
              (hstays.states _).trans hstate⟩
        | bury p =>
            obtain ⟨hcur, hp, hheld, hstate, hparent⟩ := hruns
            exact ⟨hstays.current.trans hcur, hp, hheld, (hstays.states _).trans hstate,
              (hkin.parent _).trans hparent⟩
        | halt => trivial
        | _ => cases hpc

/-- The scheduler was called and switches to a process that is ready and not in the
making. -/
theorem goes_step {r : Nat} (hgoes : Goes s.kernel k' r) (hne : r ≠ s.kernel.current)
    (hr : r ∈ q) (hready : (s.kernel.pcb r).state = .ready) (hwhole : s.making img ≠ some r)
    (hpc : (s.pc s.stack).buried = false) (hhalt : (s.pc s.stack).isHalted = false) :
    Good img (s.resume k') held q' zs' := by
  obtain ⟨hcur, -, -, hnot, hleft⟩ := h.unburied hpc hhalt
  have hresume : s.resume k' = s.switch k' s.kernel.current k'.current := by
    unfold Cpu.resume
    rw [if_neg]
    rw [hgoes.current]
    exact hne
  have hstack : (s.switch k' s.kernel.current k'.current).stack = r := by
    change s.home k'.current = r
    rw [h.home, hgoes.current]
  rw [hresume]
  refine ⟨hb, ?_, (hkin.pid _).trans h.idlePid, parents_of_kin h hq hzs hkin, h.makes,
    h.exits, ?_, ?_, ?_, ?_⟩
  · intro p
    change Function.update s.home s.kernel.current s.stack p = p
    by_cases hp : p = s.kernel.current
    · rw [hp, Function.update_self, hcur]
    · rw [Function.update_of_ne hp, h.home]
  · intro p hp
    have hmade := h.made p hp
    have hrp : r ≠ p := fun hrp => hwhole (hrp ▸ hp)
    refine ⟨hmade.held, fun hplace => hq.mem_iff.mpr (hmade.queued hplace), hmade.notIdle, ?_, ?_,
      hmade.free, fun hz => (hkin.parent p).trans (hmade.parent hz)⟩
    · change k'.current ≠ p
      rw [hgoes.current]
      exact hrp
    · rw [hstack]
      exact hrp
  · intro f p hp
    exact (hkin.userEntry p).trans (h.entry f p hp)
  · intro p hp hps hpready
    rw [hstack] at hps
    change (k'.pcb p).state = .ready at hpready
    change (s.pc p).alive = true
    by_cases hpc' : p = s.kernel.current
    · rw [hpc', hgoes.left, hcur] at hpready
      rw [hpc', hcur]
      by_cases hrun : (s.kernel.pcb s.stack).state = .running
      · exact hleft hrun
      · rw [if_neg hrun] at hpready
        exact absurd hpready hnot
    · rw [hgoes.others p hps hpc'] at hpready
      exact h.waits p (hq.mem_iff.mp hp) (hcur ▸ hpc') hpready
  · have halive : (s.pc r).alive = true := h.waits r hr (hcur ▸ hne) hready
    change Running _ held q' zs' (s.pc (s.switch k' s.kernel.current k'.current).stack)
    rw [hstack]
    refine running_of_alive ⟨?_, ?_, ?_⟩ halive
    · exact hgoes.current.trans hstack.symm
    · rw [hstack]
      exact hq.mem_iff.mpr hr
    · rw [hstack]
      exact hgoes.running

end Schedule

/-- Any call of the scheduler that does not choose a process in the making. -/
theorem dispatch_step {ro : Option Nat} (h : Good img s held q zs) (hq : q'.Perm q)
    (hzs : zs' ⊆ zs) (hb : Blocks img k' held q' zs' (s.pc img.idlePcb).unlisted)
    (hkin : Kin s.kernel k') (hdispatch : Dispatches s.kernel k' ro)
    (hro : ∀ r, ro = some r → firstReady s.kernel = some r) (hwhole : ∀ r, ro = some r →
      s.making img ≠ some r) (hpc : (s.pc s.stack).buried = false)
    (hhalt : (s.pc s.stack).isHalted = false) : Good img (s.resume k') held q' zs' := by
  cases ro with
  | none => exact stays_step h hq hzs hb hkin hdispatch hpc
  | some r =>
      obtain ⟨hr, hready⟩ := h.blocks.firstReady_mem (hro r rfl)
      exact goes_step h hq hzs hb hkin hdispatch.2 hdispatch.1 hr hready (hwhole r rfl) hpc hhalt

/-- `SYS_EXIT`, with interrupts off. -/
theorem sysExit_step {code : Int} {esp : Nat} (h : Good img s held q zs)
    (hfree : s.pc s.stack = .free) (hidle : s.stack ≠ img.idlePcb)
    (hwhole : ∀ r, firstReady s.kernel = some r → s.making img ≠ some r)
    (hret : processExit s.kernel code esp = .ok k') :
    ∃ q', Good img (s.resume k') held q' (s.stack :: zs) := by
  have hwork := h.atWork (by rw [hfree]; rfl)
  have hcur := hwork.current
  obtain ⟨r, q', hready, hne, hmem, hb, hkin, hto, hrun, hothers⟩ :=
    h.blocks.exit (hcur ▸ hwork.queued) (hcur ▸ Ne.symm hidle) (hcur ▸ hwork.state) hret
  obtain ⟨hr, hstate⟩ := h.blocks.firstReady_mem hready
  have hresume : s.resume k' = s.switch k' s.kernel.current k'.current := by
    unfold Cpu.resume
    rw [if_neg]
    rw [hto]
    exact hne
  have hstack : (s.switch k' s.kernel.current k'.current).stack = r := by
    change s.home k'.current = r
    rw [h.home, hto]
  rw [hresume]
  rw [hcur] at hb hmem hne hothers
  refine ⟨q', hb, ?_, (hkin.pid _).trans h.idlePid, ?_, h.makes, h.exits, ?_, ?_, ?_, ?_⟩
  · intro p
    change Function.update s.home s.kernel.current s.stack p = p
    by_cases hp : p = s.kernel.current
    · rw [hp, Function.update_self, hcur]
    · rw [Function.update_of_ne hp, h.home]
  · intro p hp
    change (k'.pcb p).parentPid = 0
    rw [hkin.parent]
    apply h.parents
    rw [List.mem_append, List.mem_cons] at hp
    rcases hp with hp | rfl | hp
    · exact List.mem_append_left zs ((hmem p).mp hp).1
    · exact List.mem_append_left zs hwork.queued
    · exact List.mem_append_right q hp
  · intro p hp
    have hmade := h.made p hp
    have hrp : r ≠ p := fun hrp => hwhole r hready (hrp ▸ hp)
    refine ⟨hmade.held, fun hplace => (hmem p).mpr ⟨hmade.queued hplace, Ne.symm hmade.notStack⟩,
      hmade.notIdle, ?_, ?_, hmade.free, fun hz => (hkin.parent p).trans (hmade.parent hz)⟩
    · change k'.current ≠ p
      rw [hto]
      exact hrp
    · rw [hstack]
      exact hrp
  · intro f p hp
    exact (hkin.userEntry p).trans (h.entry f p hp)
  · intro p hp hps hpready
    rw [hstack] at hps
    obtain ⟨hpq, hpc⟩ := (hmem p).mp hp
    exact h.waits p hpq hpc ((hothers p hps hpc).symm.trans hpready)
  · have halive : (s.pc r).alive = true := h.waits r hr hne hstate
    change Running _ held q' _ (s.pc (s.switch k' s.kernel.current k'.current).stack)
    rw [hstack]
    refine running_of_alive ⟨?_, ?_, ?_⟩ halive
    · exact hto.trans hstack.symm
    · rw [hstack]
      exact (hmem r).mpr ⟨hr, hne⟩
    · rw [hstack]
      exact hrun

/-! ### `process_exit` with interrupts on -/

/-- A process gets on with `process_exit`. -/
theorem exit_advance (h : Good img s held q zs) (hstack : s.stack ≠ img.idlePcb)
    (hpc' : pc'.isExit = true) (hkin : Kin s.kernel k')
    (hb : Blocks img k' held' q' zs' (s.pc img.idlePcb).unlisted)
    (hparents : ∀ p ∈ q' ++ zs', (s.kernel.pcb p).parentPid = 0)
    (hheld : ∀ p ∈ held, p ≠ s.stack → p ∈ held') (hqueued : ∀ p ∈ q, p ≠ s.stack → p ∈ q')
    (hcur : ∀ p, s.making img = some p → k'.current ≠ p)
    (hwaits : ∀ p ∈ q', p ≠ s.stack → (k'.pcb p).state = .ready → (s.pc p).alive = true)
    (hruns : Running (s.goto k' pc') held' q' zs' pc') :
    Good img (s.goto k' pc') held' q' zs' := by
  have hidle : (s.goto k' pc').pc img.idlePcb = s.pc img.idlePcb :=
    Function.update_of_ne (Ne.symm hstack) _ _
  have hother : ∀ p, p ≠ s.stack → (s.goto k' pc').pc p = s.pc p := fun p hp =>
    Function.update_of_ne hp _ _
  have hself : (s.goto k' pc').pc s.stack = pc' := Function.update_self ..
  refine ⟨?_, h.home, (hkin.pid _).trans h.idlePid, fun p hp => (hkin.parent p).trans (hparents p hp),
    ?_, ?_, ?_, ?_, ?_, ?_⟩
  · rw [hidle]
    exact hb
  · intro p hp
    by_cases hps : p = s.stack
    · rw [hps, hself] at hp
      cases pc' with
      | exit e => cases hp
      | _ => cases hpc'
    · rw [hother p hps] at hp
      exact h.makes p hp
  · intro p hp
    by_cases hps : p = s.stack
    · rw [hps]
      exact hstack
    · rw [hother p hps] at hp
      exact h.exits p hp
  · intro p hp
    unfold Cpu.making at hp
    rw [hidle] at hp
    have hmade := h.made p hp
    have hps := Ne.symm hmade.notStack
    refine ⟨?_, ?_, hmade.notIdle, hcur p hp, hmade.notStack, ?_, ?_⟩
    · rw [hidle]
      exact fun hplace => hheld p (hmade.held hplace) hps
    · rw [hidle]
      exact fun hplace => hqueued p (hmade.queued hplace) hps
    · rw [hother p hps]
      exact hmade.free
    · rw [hidle]
      exact fun hz => (hkin.parent p).trans (hmade.parent hz)
  · intro f p hp
    rw [hidle] at hp
    exact (hkin.userEntry p).trans (h.entry f p hp)
  · intro p hp hps hready
    rw [hother p hps]
    exact hwaits p hp hps hready
  · change Running _ held' q' zs' ((s.goto k' pc').pc s.stack)
    rw [hself]
    exact hruns

section Exit

variable {e : Exit} {esp r : Nat}

theorem making_goto (hidle : s.stack ≠ img.idlePcb) (k : Kernel) (pc : Pc) :
    (s.goto k pc).making img = s.making img := by
  change (Function.update s.pc s.stack pc img.idlePcb).place.proc = _
  rw [Function.update_of_ne (Ne.symm hidle)]
  rfl

theorem state_of_ne {k : Kernel} {p x : Nat} {g : Pcb → Pcb} (hx : x ≠ p) :
    ((k.modPcb p g).pcb x).state = (k.pcb x).state := by
  change (Function.update k.pcb p _ x).state = _
  rw [Function.update_of_ne hx]

/-- A statement that changes no list, before the process is on the zombie list. -/
theorem leaving_step (h : Good img s held q zs) (hpc : (s.pc s.stack).isExit = true)
    (hpc' : pc'.isExit = true) {g : Pcb → Pcb}
    (hg : ∀ b, (g b).birth = b.birth) (hawake : (g (s.kernel.pcb s.stack)).state ≠ .blocked)
    (hruns : Running (s.goto (s.kernel.modPcb s.stack g) pc') held q zs pc') :
    Good img (s.goto (s.kernel.modPcb s.stack g) pc') held q zs := by
  refine h.exit_advance (h.exits _ hpc) hpc' (Kin.modPcb _ _ hg) ?_ h.parents (fun _ hp _ => hp)
    (fun _ hp _ => hp) (fun p hp => (h.made p hp).notCurrent) ?_ hruns
  · refine h.blocks.congr rfl fun p hp => ?_
    by_cases hps : p = s.stack
    · rw [hps]
      change (Function.update s.kernel.pcb s.stack _ s.stack).state ≠ .blocked
      rw [Function.update_self]
      exact hawake
    · rw [state_of_ne hps]
      exact h.blocks.awake p hp
  · intro p hp hps hready
    rw [state_of_ne hps] at hready
    exact h.waits p hp hps hready

theorem dequeueSelf_step (h : Good img s held q zs) (hpc : s.pc s.stack = .exit .dequeue)
    (hstmt : Exit.dequeue.stmt s.kernel esp = .ok (k', pc')) :
    ∃ q', Good img (s.goto k' pc') (s.stack :: held) q' zs := by
  have hruns := h.runs
  rw [hpc] at hruns
  obtain ⟨hcur, hin, hstate⟩ := hruns
  have hexit : (s.pc s.stack).isExit = true := by
    rw [hpc]
    rfl
  have hidle := Ne.symm (h.exits _ hexit)
  have hparent := h.parents _ (List.mem_append_left zs hin)
  have hblocks := h.blocks
  obtain ⟨xs, ys, hsplit⟩ := List.append_of_mem hin
  rw [hsplit] at hblocks
  obtain ⟨n, hd, tl, size, hret, hoff⟩ := hblocks.dequeue hidle
  have hmem : ∀ x, x ∈ xs ++ ys ↔ x ∈ q ∧ x ≠ s.stack := by
    rw [hsplit]
    exact hblocks.mem_rest
  simp only [Exit.stmt, hcur, hret, bind_ok] at hstmt
  cases hstmt
  refine ⟨xs ++ ys, h.exit_advance (h.exits _ hexit) rfl (Kin.of_pcb rfl) hoff ?_
    (fun _ hp _ => List.mem_cons_of_mem _ hp) (fun x hx hxs => (hmem x).mpr ⟨hx, hxs⟩)
    (fun p hp => (h.made p hp).notCurrent) ?_ ⟨hcur, rfl, List.mem_cons_self, hstate, hparent⟩⟩
  · intro x hx
    apply h.parents
    rcases List.mem_append.mp hx with hx | hx
    · exact List.mem_append_left zs ((hmem x).mp hx).1
    · exact List.mem_append_right q hx
  · intro x hx hxs hready
    exact h.waits x ((hmem x).mp hx).1 hxs hready

theorem burySelf_step {p : Nat} (h : Good img s held q zs)
    (hpc : s.pc s.stack = .exit (.bury p)) :
    Good img (s.goto { s.kernel.setNext p s.kernel.zombieHead with zombieHead := p }
      (.exit .pick)) (held.filter (· ≠ s.stack)) q (s.stack :: zs) := by
  have hruns := h.runs
  rw [hpc] at hruns
  obtain ⟨hcur, rfl, hin, -, hparent⟩ := hruns
  have hexit : (s.pc s.stack).isExit = true := by
    rw [hpc]
    rfl
  refine h.exit_advance (h.exits _ hexit) rfl (Kin.of_pcb rfl) (h.blocks.bury hin (filter_ne s.stack)) ?_ ?_
    (fun _ hp _ => hp) (fun p hp => (h.made p hp).notCurrent) h.waits
    ⟨hcur, List.mem_cons_self, rfl⟩
  · intro x hx
    rw [List.mem_append, List.mem_cons] at hx
    rcases hx with hx | rfl | hx
    · exact h.parents x (List.mem_append_left zs hx)
    · exact hparent
    · exact h.parents x (List.mem_append_right q hx)
  · intro x hx hxs
    exact List.mem_filter.mpr ⟨hx, by simpa using hxs⟩

theorem pick_step (h : Good img s held q zs) (hpc : s.pc s.stack = .exit .pick)
    (hstmt : Exit.pick.stmt s.kernel esp = .ok (k', pc')) :
    ∃ q', Good img (s.goto k' pc') held q' zs := by
  have hruns := h.runs
  rw [hpc] at hruns
  obtain ⟨hcur, hdead⟩ := hruns
  have hexit : (s.pc s.stack).isExit = true := by
    rw [hpc]
    rfl
  obtain ⟨k₁, q', r, hret, hq, hb, hpcb, hcur₁, hfirst, hchoice⟩ := h.blocks.pickNext
  have hnext : firstReady s.kernel = some r → Next (s.goto k₁ (.exit (.leave r))) q' r := by
    intro hsome
    obtain ⟨hr, hready⟩ := h.blocks.firstReady_mem hsome
    have hrs : r ≠ s.stack := fun hrs => h.blocks.notMem_zombies hr (hrs ▸ hdead.zombie)
    refine ⟨hq.mem_iff.mpr hr, ?_⟩
    change (Function.update s.pc s.stack _ r).alive = true
    rw [Function.update_of_ne hrs]
    exact h.waits r hr hrs hready
  have hall : ∀ pc'', pc''.isExit = true → Running (s.goto k₁ pc'') held q' zs pc'' →
      Good img (s.goto k₁ pc'') held q' zs := by
    intro pc'' hpc'' hruns
    refine h.exit_advance (h.exits _ hexit) hpc'' (Kin.of_pcb hpcb) hb ?_ (fun _ hp _ => hp)
      (fun _ hp _ => hq.mem_iff.mpr hp) ?_ ?_ hruns
    · intro x hx
      exact h.parents x (((hq.append_right zs).mem_iff).mp hx)
    · intro p hp
      rw [hcur₁]
      exact (h.made p hp).notCurrent
    · intro x hx hxs hready
      rw [hpcb] at hready
      exact h.waits x (hq.mem_iff.mp hx) hxs hready
  simp only [Exit.stmt, hret, bind_ok] at hstmt
  cases hstmt
  refine ⟨q', ?_⟩
  split
  · exact hall _ rfl trivial
  · next hnot =>
    rcases hchoice with ⟨-, hzero⟩ | ⟨hsome, -⟩
    · exact absurd (Or.inl hzero) hnot
    · refine hall _ rfl ⟨hcur₁.trans hcur, ⟨hdead.zombie, ?_⟩, hnext hsome⟩
      exact hfirst.trans hdead.first

/-- A statement of `do_switch` behind the choice of `r`. -/
theorem switching_step (h : Good img s held q zs) (hpc : (s.pc s.stack).isExit = true)
    (hpc' : pc'.isExit = true) (hkin : Kin s.kernel k')
    (hthread : k'.threading = s.kernel.threading)
    (hothers : ∀ x ∈ q, x ≠ r → (k'.pcb x).state = (s.kernel.pcb x).state)
    (hr : (k'.pcb r).state = (s.kernel.pcb r).state ∨ (k'.pcb r).state = .running)
    (hcur : ∀ p, s.making img = some p → k'.current ≠ p)
    (hruns : Running (s.goto k' pc') held q zs pc') :
    Good img (s.goto k' pc') held q zs := by
  refine h.exit_advance (h.exits _ hpc) hpc' hkin ?_ h.parents (fun _ hp _ => hp) (fun _ hp _ => hp) hcur ?_
    hruns
  · refine h.blocks.congr hthread fun x hx => ?_
    by_cases hxr : x = r
    · rw [hxr]
      rcases hr with hr | hr
      · rw [hr, ← hxr]
        exact h.blocks.awake x hx
      · rw [hr]
        decide
    · rw [hothers x hx hxr]
      exact h.blocks.awake x hx
  · intro x hx hxs hready
    by_cases hxr : x = r
    · rw [hxr] at hready
      rcases hr with hr | hr
      · rw [hr, ← hxr] at hready
        exact h.waits x hx hxs hready
      · rw [hr] at hready
        cases hready
    · rw [hothers x hx hxr] at hready
      exact h.waits x hx hxs hready

/-- The processor arrives on the stack of `r`. -/
theorem arrive_step (h : Good img s held q zs) (hr : r ∈ q) (hrs : s.stack ∉ q)
    (halive : (s.pc r).alive = true) (hcur : s.kernel.current = r) (hstate : (s.kernel.pcb r).state = .running)
    (hwhole : s.making img ≠ some r) : Good img (s.switch s.kernel s.stack r) held q zs := by
  have hstack : (s.switch s.kernel s.stack r).stack = r := h.home r
  refine ⟨h.blocks, ?_, h.idlePid, h.parents, h.makes, h.exits, ?_, h.entry, ?_, ?_⟩
  · intro p
    change Function.update s.home s.stack s.stack p = p
    by_cases hp : p = s.stack
    · rw [hp, Function.update_self]
    · rw [Function.update_of_ne hp, h.home]
  · intro p hp
    have hmade := h.made p hp
    refine ⟨hmade.held, hmade.queued, hmade.notIdle, hmade.notCurrent, ?_, hmade.free,
      hmade.parent⟩
    rw [hstack]
    exact fun hrp => hwhole (hrp ▸ hp)
  · intro p hp _ hready
    exact h.waits p hp (fun hps => hrs (hps ▸ hp)) hready
  · change Running _ held q zs (s.pc (s.switch s.kernel s.stack r).stack)
    rw [hstack]
    refine running_of_alive ⟨?_, ?_, ?_⟩ halive
    · exact hcur.trans hstack.symm
    · rw [hstack]
      exact hr
    · rw [hstack]
      exact hstate

theorem next_goto (hr : r ≠ s.stack) (hnext : Next s q r) (k : Kernel) (pc : Pc) :
    Next (s.goto k pc) q r := by
  refine ⟨hnext.queued, ?_⟩
  change (Function.update s.pc s.stack pc r).alive = true
  rw [Function.update_of_ne hr]
  exact hnext.alive

theorem load_switch {old : Nat} (h : Good img s held q zs)
    (hpc : s.pc s.stack = .exit (.load old r)) :
    Good img ((s.goto (contextSwitch s.kernel old r esp) (.exit .halt)).switch
      (contextSwitch s.kernel old r esp) old r) held q zs := by
  have hexit : (s.pc s.stack).isExit = true := by
    rw [hpc]
    rfl
  have hruns := h.runs
  rw [hpc] at hruns
  obtain ⟨hcur, rfl, hdead, hnext, hstate⟩ := hruns
  have hrs : r ≠ s.stack := fun hrs => h.blocks.notMem_zombies hnext.queued (hrs ▸ hdead.zombie)
  have hsame : ∀ x, ((contextSwitch s.kernel s.stack r esp).pcb x).state =
      (s.kernel.pcb x).state := by
    intro x
    by_cases hx : x = s.stack
    · rw [hx]
      change (Function.update s.kernel.pcb s.stack _ s.stack).state = _
      rw [Function.update_self]
    · change (Function.update s.kernel.pcb s.stack _ x).state = _
      rw [Function.update_of_ne hx]
  have hkin : Kin s.kernel (contextSwitch s.kernel s.stack r esp) :=
    Kin.trans (Kin.modPcb s.kernel s.stack (f := fun p => { p with esp := esp }) fun _ => rfl)
      (Kin.of_pcb rfl)
  have hgood : Good img (s.goto (contextSwitch s.kernel s.stack r esp) (.exit .halt)) held q zs :=
    h.switching_step (r := r) hexit rfl hkin rfl (fun x _ _ => hsame x) (Or.inl (hsame r))
      (fun p hp => (h.made p hp).notCurrent) trivial
  have hnext' := next_goto hrs hnext (contextSwitch s.kernel s.stack r esp) (.exit .halt)
  exact hgood.arrive_step hnext.queued (fun hq => h.blocks.notMem_zombies hq hdead.zombie)
    hnext'.alive hcur ((hsame r).trans hstate) fun hmaking => (hgood.made r hmaking).notCurrent hcur

/-- Every statement of `process_exit`. -/
theorem exit_step {s' : Cpu} {base : Nat} (h : Good img s held q zs)
    (hpc : s.pc s.stack = .exit e) (hhalt : (s.pc s.stack).isHalted = false)
    (hwhole : ∀ r, e = .setCurrent r → s.making img ≠ some r)
    (hstmt : s.stmt img base esp = .ok s') : ∃ held' q' zs', Good img s' held' q' zs' := by
  have hexit : (s.pc s.stack).isExit = true := by
    rw [hpc]
    rfl
  have hidle := h.exits _ hexit
  have hruns := h.runs
  rw [hpc] at hruns hhalt
  have hself : ∀ (g : Pcb → Pcb), (s.kernel.modPcb s.stack g).pcb s.stack =
      g (s.kernel.pcb s.stack) := fun g => Function.update_self ..
  have hrs : ∀ {r : Nat}, Dead s zs → Next s q r → r ≠ s.stack := fun hdead hnext hrs =>
    h.blocks.notMem_zombies hnext.queued (hrs ▸ hdead.zombie)
  have hout : ∀ x ∈ q, Dead s zs → x ≠ s.stack := fun x hx hdead hxs =>
    h.blocks.notMem_zombies hx (hxs ▸ hdead.zombie)
  unfold Cpu.stmt at hstmt
  rw [hpc] at hstmt
  cases e with
  | exitCode code =>
      cases hstmt
      have hwork : AtWork s q := hruns
      rw [hwork.current]
      refine ⟨held, q, zs, h.leaving_step hexit rfl (fun _ => rfl) ?_ ⟨hwork.current, hwork.queued, ?_⟩⟩
      · rw [show _ = PState.running from hwork.state]
        decide
      · exact (congrArg Pcb.state (hself fun p => { p with exitCode := code })).trans hwork.state
  | state =>
      cases hstmt
      have hwork : AtWork s q := hruns
      rw [hwork.current]
      exact ⟨held, q, zs, h.leaving_step hexit rfl (fun _ => rfl) nofun
        ⟨hwork.current, hwork.queued,
          congrArg Pcb.state (hself fun p => { p with state := .zombie })⟩⟩
  | dequeue =>
      obtain ⟨⟨k', pc'⟩, hdeq, hrest⟩ := bind_eq_ok.mp hstmt
      cases hrest
      obtain ⟨q', hgood⟩ := h.dequeueSelf_step hpc hdeq
      exact ⟨_, q', zs, hgood⟩
  | bury p =>
      cases hstmt
      exact ⟨_, q, _, h.burySelf_step hpc⟩
  | pick =>
      obtain ⟨⟨k', pc'⟩, hpick, hrest⟩ := bind_eq_ok.mp hstmt
      cases hrest
      obtain ⟨q', hgood⟩ := h.pick_step hpc hpick
      exact ⟨held, q', zs, hgood⟩
  | leave r =>
      cases hstmt
      obtain ⟨hcur, hdead, hnext⟩ := hruns
      have hnot := hrs hdead hnext
      rw [hcur]
      split
      · have hkin : Kin s.kernel (s.kernel.setState s.stack .ready) := Kin.modPcb _ _ fun _ => rfl
        exact ⟨held, q, zs, h.switching_step (r := r) hexit rfl hkin rfl
          (fun x hx _ => state_of_ne (hout x hx hdead)) (Or.inl (state_of_ne hnot))
          (fun p hp => (h.made p hp).notCurrent)
          ⟨hcur, ⟨hdead.zombie, hdead.first⟩, next_goto hnot hnext _ _⟩⟩
      · exact ⟨held, q, zs, h.switching_step (r := r) hexit rfl (Kin.of_pcb rfl) rfl
          (fun _ _ _ => rfl) (Or.inl rfl) (fun p hp => (h.made p hp).notCurrent)
          ⟨hcur, ⟨hdead.zombie, hdead.first⟩, next_goto hnot hnext _ _⟩⟩
  | run r =>
      cases hstmt
      obtain ⟨hcur, hdead, hnext⟩ := hruns
      have hrun : ((s.kernel.setState r .running).pcb r).state = .running := by
        change (Function.update s.kernel.pcb r _ r).state = .running
        rw [Function.update_self]
      exact ⟨held, q, zs, h.switching_step (r := r) hexit rfl (Kin.modPcb _ _ fun _ => rfl) rfl
        (fun x _ hx => state_of_ne hx) (Or.inr hrun) (fun p hp => (h.made p hp).notCurrent)
        ⟨hcur, ⟨hdead.zombie, hdead.first⟩, next_goto (hrs hdead hnext) hnext _ _, hrun⟩⟩
  | quantum r =>
      cases hstmt
      obtain ⟨hcur, hdead, hnext, hstate⟩ := hruns
      obtain ⟨hstays, hkin⟩ := setTicks_stays s.kernel r fun b => b.priority
      exact ⟨held, q, zs, h.switching_step (r := r) hexit rfl hkin rfl
        (fun x _ _ => hstays.states x) (Or.inl (hstays.states r))
        (fun p hp => (h.made p hp).notCurrent)
        ⟨hcur, ⟨hdead.zombie, hdead.first⟩, next_goto (hrs hdead hnext) hnext _ _,
          (hstays.states r).trans hstate⟩⟩
  | esp0 r =>
      cases hstmt
      obtain ⟨hcur, hdead, hnext, hstate⟩ := hruns
      exact ⟨held, q, zs, h.switching_step (r := r) hexit rfl (Kin.of_pcb rfl) rfl
        (fun _ _ _ => rfl) (Or.inl rfl) (fun p hp => (h.made p hp).notCurrent)
        ⟨hcur, ⟨hdead.zombie, hdead.first⟩, next_goto (hrs hdead hnext) hnext _ _, hstate⟩⟩
  | setCurrent r =>
      cases hstmt
      obtain ⟨hcur, hdead, hnext, hstate⟩ := hruns
      exact ⟨held, q, zs, h.switching_step (r := r) hexit rfl (Kin.of_pcb rfl) rfl
        (fun _ _ _ => rfl) (Or.inl rfl) (fun p hp hrp => hwhole r rfl ((show r = p from hrp) ▸ hp))
        ⟨rfl, hcur, ⟨hdead.zombie, hdead.first⟩, next_goto (hrs hdead hnext) hnext _ _,
          hstate⟩⟩
  | load old r =>
      cases hstmt
      exact ⟨held, q, zs, h.load_switch hpc⟩
  | halt => cases hhalt

end Exit

end Good

end StakOS.Threads
