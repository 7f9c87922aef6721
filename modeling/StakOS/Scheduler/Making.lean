import StakOS.Scheduler.Threads

/-!
# The invariant of the interrupted calls

Where the control block of a process in the making is at each statement, what holds
of the process on whose stack the processor is, and that the statements of
`process_create` and `process_create_from_elf` keep the invariant.
-/

namespace StakOS.Threads

open StakOS.Lib.Memory StakOS.Lib.Loop StakOS.Paging StakOS.Process
open Elf (Phdr)
open Relation (ReflTransGen)

/-! ## The process in the making -/

/-- Where the control block of a process in the making is. -/
inductive Place where
  | nowhere
  | held (p : Nat)
  | queued (p : Nat)

def Place.proc : Place → Option Nat
  | .nowhere => none
  | .held p => some p
  | .queued p => some p

def Build.place : Build → Place
  | .kmalloc => .nowhere
  | .zero p => .held p
  | .directory p => .held p
  | .fields p => .held p
  | .stackLo p => .held p
  | .stackHi p _ => .held p
  | .noStack p _ _ => .held p
  | .stack p _ _ => .held p
  | .enqueue p => .held p
  | .register p => .queued p
  | .dequeue p => .queued p
  | .release p => .held p
  | .free p => .held p

def Load.place : Load → Place
  | .segments p _ => .queued p
  | .page p _ _ _ => .queued p
  | .fill p _ _ _ _ _ => .queued p
  | .map p _ _ _ _ _ => .queued p
  | .stackPage p _ => .queued p
  | .stackMap p _ _ _ => .queued p
  | .userEntry p => .queued p
  | .userStackTop p => .queued p
  | .zombie p => .queued p
  | .dequeue p => .queued p
  | .bury p => .held p

def Pc.place : Pc → Place
  | .build _ _ b => b.place
  | .load _ l => l.place
  | _ => .nowhere

/-- The process that is not yet in the process table, or 0. -/
def Pc.unlisted : Pc → Nat
  | .build _ _ b => b.place.proc.getD 0
  | _ => 0

/-- The control block has been zeroed. -/
def Pc.zeroed : Pc → Bool
  | .build _ _ (.zero _) => false
  | _ => true

def Pc.isExit : Pc → Bool
  | .exit _ => true
  | _ => false

def Pc.isMaking : Pc → Bool
  | .build _ _ _ => true
  | .load _ _ => true
  | _ => false

/-- The code has not begun to take its own process off the queue. -/
def Pc.alive : Pc → Bool
  | .exit (.exitCode _) => true
  | .exit .state => true
  | .exit _ => false
  | _ => true

/-- The process on the stack in use is on the zombie list and still runs. -/
def Pc.buried : Pc → Bool
  | .exit .pick => true
  | .exit (.leave _) => true
  | .exit (.run _) => true
  | .exit (.quantum _) => true
  | .exit (.esp0 _) => true
  | .exit (.setCurrent _) => true
  | .exit (.load _ _) => true
  | _ => false

/-- The process that the shell is making. -/
def Cpu.making (img : Image) (s : Cpu) : Option Nat := (s.pc img.idlePcb).place.proc

/-! ## The invariant -/

/-- The process on whose stack the processor is has not left the queue. -/
structure AtWork (s : Cpu) (q : List Nat) : Prop where
  current : s.kernel.current = s.stack
  queued : s.stack ∈ q
  state : (s.kernel.pcb s.stack).state = .running

/-- It is at the front of the zombie list. -/
structure Dead (s : Cpu) (zs : List Nat) : Prop where
  zombie : s.stack ∈ zs
  first : s.kernel.zombieHead = s.stack

/-- It will switch to `r`. -/
structure Next (s : Cpu) (q : List Nat) (r : Nat) : Prop where
  queued : r ∈ q
  alive : (s.pc r).alive = true

/-- It is the current process and not on the zombie list, and if it is still running
it has not begun to leave. -/
structure Unburied (s : Cpu) (zs : List Nat) : Prop where
  current : s.kernel.current = s.stack
  notZombie : s.stack ∉ zs
  nonNull : s.stack ≠ 0
  notReady : (s.kernel.pcb s.stack).state ≠ .ready
  alive : (s.kernel.pcb s.stack).state = .running → (s.pc s.stack).alive = true

/-- What holds of the process on whose stack the processor is when the code there has
got to a program counter. -/
def Running (s : Cpu) (held q zs : List Nat) : Pc → Prop
  | .exit .dequeue => s.kernel.current = s.stack ∧ s.stack ∈ q ∧
      (s.kernel.pcb s.stack).state = .zombie
  | .exit (.bury p) => s.kernel.current = s.stack ∧ p = s.stack ∧ s.stack ∈ held ∧
      (s.kernel.pcb s.stack).state = .zombie ∧ (s.kernel.pcb s.stack).parentPid = 0
  | .exit .pick => s.kernel.current = s.stack ∧ Dead s zs
  | .exit (.leave r) => s.kernel.current = s.stack ∧ Dead s zs ∧ Next s q r
  | .exit (.run r) => s.kernel.current = s.stack ∧ Dead s zs ∧ Next s q r
  | .exit (.quantum r) => s.kernel.current = s.stack ∧ Dead s zs ∧ Next s q r ∧
      (s.kernel.pcb r).state = .running
  | .exit (.esp0 r) => s.kernel.current = s.stack ∧ Dead s zs ∧ Next s q r ∧
      (s.kernel.pcb r).state = .running
  | .exit (.setCurrent r) => s.kernel.current = s.stack ∧ Dead s zs ∧ Next s q r ∧
      (s.kernel.pcb r).state = .running
  | .exit (.load old r) => s.kernel.current = r ∧ old = s.stack ∧ Dead s zs ∧ Next s q r ∧
      (s.kernel.pcb r).state = .running
  | .exit .halt => True
  | _ => AtWork s q

/-- The process `p` is being made by the shell and has never run. -/
structure Made (img : Image) (s : Cpu) (held q : List Nat) (p : Nat) : Prop where
  held : (s.pc img.idlePcb).place = .held p → p ∈ held
  queued : (s.pc img.idlePcb).place = .queued p → p ∈ q
  notIdle : p ≠ img.idlePcb
  notCurrent : s.kernel.current ≠ p
  notStack : s.stack ≠ p
  free : s.pc p = .free
  parent : (s.pc img.idlePcb).zeroed = true → (s.kernel.pcb p).parentPid = 0

structure Good (img : Image) (s : Cpu) (held q zs : List Nat) : Prop where
  blocks : Blocks img s.kernel held q zs (s.pc img.idlePcb).unlisted
  home : ∀ p, s.home p = p
  idlePid : (s.kernel.pcb img.idlePcb).pid = 0
  parents : ∀ p ∈ q ++ zs, (s.kernel.pcb p).parentPid = 0
  makes : ∀ p, (s.pc p).isMaking = true → p = img.idlePcb
  exits : ∀ p, (s.pc p).isExit = true → p ≠ img.idlePcb
  made : ∀ p, s.making img = some p → Made img s held q p
  entry : ∀ f p, s.pc img.idlePcb = .load f (.userStackTop p) →
    (s.kernel.pcb p).userEntry = f.entry
  waits : ∀ p ∈ q, p ≠ s.stack → (s.kernel.pcb p).state = .ready → (s.pc p).alive = true
  runs : Running s held q zs (s.pc s.stack)

theorem boot_good {img : Image} (b : Boot img) : Good img (boot b) [] [img.idlePcb] [] := by
  have hinv := boot_machineInv b
  have hlists := hinv.inv
  refine ⟨⟨hlists.queue, hlists.zombies, hlists.nodup, hlists.nonNull, by simp, ?_, ?_,
    hlists.idle, hlists.heap⟩, fun _ => rfl, hinv.idlePid, ?_, ?_, ?_, ?_, ?_, fun _ _ _ _ => rfl,
    ?_⟩
  · intro p hp _
    have hp0 : p ≠ 0 := fun h0 => hlists.zero_notMem (h0 ▸ hp)
    exact (hlists.table p hp0).mpr hp
  · intro p hp
    rw [List.mem_singleton.mp hp]
    change (b.kernel.pcb img.idlePcb).state ≠ .blocked
    rw [boot_kernel_eq]
    simp [idleControlBlock]
  · intro p hp
    rw [List.append_nil, List.mem_singleton] at hp
    rw [hp]
    change (b.kernel.pcb img.idlePcb).parentPid = 0
    rw [boot_kernel_eq]
    simp [idleControlBlock]
  · intro p hp
    cases hp
  · intro p hp
    cases hp
  · intro p hp
    cases hp
  · intro f p hp
    cases hp
  · have hcur : b.kernel.current = img.idlePcb := by rw [boot_kernel_eq]
    refine ⟨hcur, List.mem_singleton.mpr rfl, ?_⟩
    change (b.kernel.pcb img.idlePcb).state = .running
    rw [← hcur]
    exact hlists.running

namespace Good

variable {img : Image} {s : Cpu} {held held' q q' zs zs' : List Nat} {k' : Kernel} {pc' : Pc}

theorem atWork (h : Good img s held q zs) (hpc : (s.pc s.stack).isExit = false) :
    AtWork s q := by
  have hruns := h.runs
  cases hcase : s.pc s.stack with
  | exit e =>
      rw [hcase] at hpc
      cases hpc
  | free =>
      rw [hcase] at hruns
      exact hruns
  | build c f b =>
      rw [hcase] at hruns
      exact hruns
  | load f l =>
      rw [hcase] at hruns
      exact hruns

/-- The shell gets on with a call. -/
theorem advance (h : Good img s held q zs) (hstack : s.stack = img.idlePcb)
    (hpc : (s.pc s.stack).isExit = false) (hpc' : pc'.isExit = false)
    (hb : Blocks img k' held' q' zs' pc'.unlisted) (hcur : k'.current = s.kernel.current)
    (hidle : k'.pcb img.idlePcb = s.kernel.pcb img.idlePcb)
    (hparents : ∀ p ∈ q' ++ zs', (k'.pcb p).parentPid = 0)
    (hq : ∀ x ∈ q', x ∈ q ∧ (k'.pcb x).state = (s.kernel.pcb x).state ∨ s.pc x = .free)
    (hmade : ∀ p, pc'.place.proc = some p → Made img (s.goto k' pc') held' q' p)
    (hentry : ∀ f p, pc' = .load f (.userStackTop p) → (k'.pcb p).userEntry = f.entry) :
    Good img (s.goto k' pc') held' q' zs' := by
  have hself : (s.goto k' pc').pc img.idlePcb = pc' := by
    rw [← hstack]
    exact Function.update_self ..
  have hother : ∀ p, p ≠ s.stack → (s.goto k' pc').pc p = s.pc p := fun p hp =>
    Function.update_of_ne hp _ _
  have hwork := h.atWork hpc
  refine ⟨?_, h.home, ?_, hparents, ?_, ?_, ?_, ?_, ?_, ?_⟩
  · rw [hself]
    exact hb
  · change (k'.pcb img.idlePcb).pid = 0
    rw [hidle]
    exact h.idlePid
  · intro p hp
    by_cases hps : p = s.stack
    · exact hps.trans hstack
    · rw [hother p hps] at hp
      exact h.makes p hp
  · intro p hp
    by_cases hps : p = s.stack
    · have hpc'' : (s.goto k' pc').pc p = pc' := by
        rw [hps]
        exact Function.update_self ..
      rw [hpc'', hpc'] at hp
      cases hp
    · rw [hother p hps] at hp
      exact h.exits p hp
  · intro p hp
    apply hmade p
    unfold Cpu.making at hp
    rw [hself] at hp
    exact hp
  · intro f p hp
    rw [hself] at hp
    exact hentry f p hp
  · intro p hp hps hready
    rw [hother p hps]
    rcases hq p hp with ⟨hpq, hstate⟩ | hfree
    · exact h.waits p hpq hps (hstate ▸ hready)
    · rw [hfree]
      rfl
  · have hatWork : AtWork (s.goto k' pc') q' := by
      refine ⟨hcur.trans hwork.current, ?_, ?_⟩
      · change s.stack ∈ q'
        rw [hstack]
        exact hb.idle
      · change (k'.pcb s.stack).state = .running
        rw [hstack, hidle, ← hstack]
        exact hwork.state
    change Running _ held' q' zs' ((s.goto k' pc').pc s.stack)
    rw [hstack, hself]
    cases pc' with
    | exit e => cases hpc'
    | free => exact hatWork
    | build c f b => exact hatWork
    | load f l => exact hatWork

/-! ### `process_create` -/

theorem stack_eq (h : Good img s held q zs) (hpc : (s.pc s.stack).isMaking = true) :
    s.stack = img.idlePcb := h.makes _ hpc

/-- The process that the shell is making, while the shell runs. -/
theorem made_of_pc {pc : Pc} {p : Nat} (h : Good img s held q zs) (hpc : s.pc s.stack = pc)
    (hmaking : pc.isMaking = true) (hp : pc.place.proc = some p) :
    s.stack = img.idlePcb ∧ s.pc img.idlePcb = pc ∧ Made img s held q p := by
  have hstack := h.stack_eq (by rw [hpc]; exact hmaking)
  rw [hstack] at hpc
  refine ⟨hstack, hpc, h.made p ?_⟩
  unfold Cpu.making
  rw [hpc]
  exact hp

/-- A statement that touches the new process and memory only. -/
theorem makes_on {pc : Pc} {p : Nat} (h : Good img s held q zs) (hpc : s.pc s.stack = pc)
    (hmaking : pc.isMaking = true) (hp : pc.place.proc = some p) (hpc' : pc'.isExit = false)
    (hp' : ∀ p', pc'.place.proc = some p' → p' = p) (hheld : pc'.place = .held p → p ∈ held')
    (hqueued : pc'.place = .queued p → p ∈ q') (hb : Blocks img k' held' q' zs' pc'.unlisted)
    (hcur : k'.current = s.kernel.current) (hpcb : ∀ x, x ≠ p → k'.pcb x = s.kernel.pcb x)
    (hparent : (k'.pcb p).parentPid = 0) (hq : ∀ x ∈ q', x ∈ q ∨ x = p)
    (hzs : ∀ x ∈ zs', x ∈ zs ∨ x = p)
    (hentry : ∀ f p, pc' = .load f (.userStackTop p) → (k'.pcb p).userEntry = f.entry) :
    Good img (s.goto k' pc') held' q' zs' := by
  obtain ⟨hstack, -, hmade⟩ := h.made_of_pc hpc hmaking hp
  have hexit : (s.pc s.stack).isExit = false := by
    rw [hpc]
    cases pc with
    | exit e => cases hmaking
    | free => rfl
    | build c f b => rfl
    | load f l => rfl
  have hself : (s.goto k' pc').pc img.idlePcb = pc' := by
    rw [← hstack]
    exact Function.update_self ..
  refine h.advance hstack hexit hpc' hb hcur (hpcb _ (Ne.symm hmade.notIdle)) ?_ ?_ ?_ hentry
  · intro x hx
    by_cases hxp : x = p
    · rw [hxp]
      exact hparent
    · rw [hpcb x hxp]
      refine h.parents x ?_
      rcases List.mem_append.mp hx with hx | hx
      · exact List.mem_append_left zs ((hq x hx).resolve_right hxp)
      · exact List.mem_append_right q ((hzs x hx).resolve_right hxp)
  · intro x hx
    by_cases hxp : x = p
    · right
      rw [hxp]
      exact hmade.free
    · left
      exact ⟨(hq x hx).resolve_right hxp, by rw [hpcb x hxp]⟩
  · intro p' hp''
    obtain rfl := hp' p' hp''
    refine ⟨?_, ?_, hmade.notIdle, ?_, hmade.notStack, ?_, fun _ => hparent⟩
    · rw [hself]
      exact hheld
    · rw [hself]
      exact hqueued
    · change k'.current ≠ p'
      rw [hcur]
      exact hmade.notCurrent
    · change Function.update s.pc s.stack _ p' = .free
      rw [Function.update_of_ne (Ne.symm hmade.notStack)]
      exact hmade.free

section Build

variable {c : Call} {f : Option Program} {b b' : Build} {p : Nat}

theorem unlisted_of_place (hplace : b.place.proc = some p) : (Pc.build c f b).unlisted = p := by
  change b.place.proc.getD 0 = p
  rw [hplace]
  rfl

/-- The new control block while it is not in the table. -/
theorem blocks_of_build (h : Good img s held q zs) (hpc : s.pc s.stack = .build c f b)
    (hp : b.place.proc = some p) :
    Blocks img s.kernel held q zs p ∧ Made img s held q p ∧
      (b.place = .held p → p ∈ held) ∧ (b.place = .queued p → p ∈ q) := by
  obtain ⟨-, hidlepc, hmade⟩ := h.made_of_pc hpc rfl hp
  have hblocks := h.blocks
  rw [hidlepc, unlisted_of_place hp] at hblocks
  refine ⟨hblocks, hmade, fun hplace => hmade.held ?_, fun hplace => hmade.queued ?_⟩
  · rw [hidlepc]
    exact hplace
  · rw [hidlepc]
    exact hplace

/-- A statement on the new control block while it is on no list. -/
theorem private_step (h : Good img s held q zs) (hpc : s.pc s.stack = .build c f b)
    (hplace : b.place = .held p) (hplace' : b'.place = .held p)
    (hb : Blocks img s.kernel held q zs p → p ∈ held → Blocks img k' held q zs p)
    (hcur : k'.current = s.kernel.current)
    (hpcb : ∀ x, x ≠ p → k'.pcb x = s.kernel.pcb x) (hparent : (k'.pcb p).parentPid = 0) :
    Good img (s.goto k' (.build c f b')) held q zs := by
  have hp : b.place.proc = some p := by
    rw [hplace]
    rfl
  obtain ⟨hblocks, hmade, hheld, -⟩ := h.blocks_of_build hpc hp
  have hin := hheld hplace
  refine h.makes_on hpc rfl hp rfl ?_ (fun _ => hin) ?_ ?_ hcur hpcb hparent
    (fun _ hx => Or.inl hx) (fun _ hx => Or.inl hx) fun _ _ hload => by cases hload
  · intro p' hp'
    change b'.place.proc = some p' at hp'
    rw [hplace'] at hp'
    exact (Option.some.inj hp').symm
  · intro hqueued
    change b'.place = .queued p at hqueued
    rw [hplace'] at hqueued
    cases hqueued
  · rw [unlisted_of_place (by rw [hplace']; rfl)]
    exact hb hblocks hin

theorem parent_of_held (h : Good img s held q zs) (hpc : s.pc s.stack = .build c f b)
    (hplace : b.place = .held p) (hzeroed : (Pc.build c f b).zeroed = true) :
    (s.kernel.pcb p).parentPid = 0 := by
  have hp : b.place.proc = some p := by
    rw [hplace]
    rfl
  obtain ⟨-, hidlepc, hmade⟩ := h.made_of_pc hpc rfl hp
  apply hmade.parent
  rw [hidlepc]
  exact hzeroed

/-- It leaves the lists alone and the parent as it is. -/
theorem touch_step {b₀ : Pcb} (h : Good img s held q zs) (hpc : s.pc s.stack = .build c f b)
    (hplace : b.place = .held p) (hzeroed : (Pc.build c f b).zeroed = true)
    (hplace' : b'.place = .held p) (hthread : k'.threading = s.kernel.threading)
    (hcur : k'.current = s.kernel.current) (hpcb : k'.pcb = Function.update s.kernel.pcb p b₀)
    (hkeep : b₀.parentPid = (s.kernel.pcb p).parentPid) :
    Good img (s.goto k' (.build c f b')) held q zs := by
  have hothers : ∀ x, x ≠ p → k'.pcb x = s.kernel.pcb x := fun x hx => by
    rw [hpcb, Function.update_of_ne hx]
  refine h.private_step hpc hplace hplace' (fun hblocks hin => hblocks.touch hin hthread hothers)
    hcur hothers ?_
  rw [hpcb, Function.update_self, hkeep]
  exact h.parent_of_held hpc hplace hzeroed

/-- It is about memory alone. -/
theorem memory_step (h : Good img s held q zs) (hpc : s.pc s.stack = .build c f b)
    (hplace : b.place = .held p) (hzeroed : (Pc.build c f b).zeroed = true)
    (hplace' : b'.place = .held p) (ms : Paging.State) :
    Good img (s.goto { s.kernel with ms := ms } (.build c f b')) held q zs :=
  h.touch_step hpc hplace hzeroed hplace' rfl rfl (Function.update_eq_self p s.kernel.pcb).symm rfl

/-- The block that `kmalloc` returns has run nowhere: its program counter is reset. -/
theorem reset_pc (h : Good img s held q zs) (hpc : s.pc s.stack = .build c f .kmalloc)
    (hidle : p ≠ img.idlePcb) (hqp : ∀ x ∈ q, x ≠ p) :
    Good img { s with home := Function.update s.home p p,
                      pc := Function.update s.pc p .free } held q zs := by
  have hstack := h.stack_eq (by rw [hpc]; rfl)
  have hidlepc := hpc
  rw [hstack] at hidlepc
  have hwork := h.atWork (by rw [hpc]; rfl)
  set s₀ : Cpu := { s with home := Function.update s.home p p,
                           pc := Function.update s.pc p .free }
  have hpc₀ : ∀ x, x ≠ p → s₀.pc x = s.pc x := fun x hx => Function.update_of_ne hx _ _
  have hkept : ∀ x, s₀.pc x ≠ .free → s₀.pc x = s.pc x := by
    intro x hx
    apply hpc₀
    rintro rfl
    exact hx (Function.update_self ..)
  refine ⟨?_, ?_, h.idlePid, h.parents, ?_, ?_, ?_, ?_, ?_, ?_⟩
  · rw [hpc₀ _ (Ne.symm hidle)]
    exact h.blocks
  · intro x
    change Function.update s.home p p x = x
    by_cases hx : x = p
    · rw [hx, Function.update_self]
    · rw [Function.update_of_ne hx]
      exact h.home x
  · intro x hx
    rw [hkept x fun hfree => by rw [hfree] at hx; cases hx] at hx
    exact h.makes x hx
  · intro x hx
    rw [hkept x fun hfree => by rw [hfree] at hx; cases hx] at hx
    exact h.exits x hx
  · intro x hx
    unfold Cpu.making at hx
    rw [hpc₀ _ (Ne.symm hidle), hidlepc] at hx
    cases hx
  · intro f' x hx
    rw [hpc₀ _ (Ne.symm hidle), hidlepc] at hx
    cases hx
  · intro x hx hxs hready
    rw [hpc₀ x (hqp x hx)]
    exact h.waits x hx hxs hready
  · have hstackp : s.stack ≠ p := by
      rw [hstack]
      exact Ne.symm hidle
    change Running s₀ held q zs (s₀.pc s.stack)
    rw [hpc₀ _ hstackp, hpc]
    exact ⟨hwork.current, hwork.queued, hwork.state⟩

/-- `kmalloc` gives the shell a new control block, or it gives up. -/
theorem kmalloc_step (h : Good img s held q zs) (hpc : s.pc s.stack = .build c f .kmalloc)
    (hstmt : Build.kmalloc.stmt img c f s.kernel = .ok (k', pc')) :
    ∃ held', Good img ((s.goto k' pc').enroll pc') held' q zs := by
  have hstack := h.stack_eq (by rw [hpc]; rfl)
  have hidlepc := hpc
  rw [hstack] at hidlepc
  have hexit : (s.pc s.stack).isExit = false := by
    rw [hpc]
    rfl
  have hwork := h.atWork hexit
  have hblocks := h.blocks
  rw [hidlepc] at hblocks
  obtain ⟨heap, p, hret, hsame, hnew⟩ := hblocks.kmalloc pcbBytes
  unfold Build.stmt at hstmt
  rw [hret] at hstmt
  cases hstmt
  by_cases hp : p = 0
  · rw [if_pos hp]
    refine ⟨held, h.advance hstack hexit rfl hsame rfl rfl h.parents (fun x hx => Or.inl ⟨hx, rfl⟩)
      (fun _ hp => by cases hp) fun _ _ hp => by cases hp⟩
  · rw [if_neg hp]
    obtain ⟨hidle, hout, hmore⟩ := hnew hp
    have hstackp : s.stack ≠ p := by
      rw [hstack]
      exact Ne.symm hidle
    have hqp : ∀ x ∈ q, x ≠ p := fun x hx hxp =>
      hout (hxp ▸ List.mem_append_right held (List.mem_append_left zs hx))
    have h₀ := h.reset_pc hpc hidle hqp
    set s₀ : Cpu := { s with home := Function.update s.home p p,
                             pc := Function.update s.pc p .free } with hs₀
    have hfree₀ : s₀.pc p = .free := Function.update_self ..
    have hgoto : (s.goto { s.kernel with heap := heap } (.build c f (.zero p))).enroll
        (.build c f (.zero p)) =
        s₀.goto { s.kernel with heap := heap } (.build c f (.zero p)) := by
      unfold Cpu.goto Cpu.enroll
      simp only [hs₀]
      rw [Function.update_comm hstackp]
    rw [hgoto]
    have hstack₀ : s₀.stack = img.idlePcb := hstack
    have hexit₀ : (s₀.pc s₀.stack).isExit = false := by
      change (Function.update s.pc p .free s.stack).isExit = false
      rw [Function.update_of_ne hstackp]
      exact hexit
    refine ⟨p :: held, h₀.advance hstack₀ hexit₀ rfl hmore rfl rfl h.parents
      (fun x hx => Or.inl ⟨hx, rfl⟩) ?_ fun _ _ hp => by cases hp⟩
    intro p' hp'
    cases hp'
    have hself : (s₀.goto { s.kernel with heap := heap } (.build c f (.zero p))).pc
        img.idlePcb = .build c f (.zero p) := by
      rw [← hstack₀]
      exact Function.update_self ..
    refine ⟨fun _ => List.mem_cons_self, ?_, hidle, ?_, hstackp, ?_, ?_⟩
    · rw [hself]
      intro hq
      cases hq
    · change s.kernel.current ≠ p
      rw [hwork.current]
      exact hstackp
    · change Function.update s₀.pc s.stack _ p = .free
      rw [Function.update_of_ne (Ne.symm hstackp)]
      exact hfree₀
    · rw [hself]
      intro hz
      cases hz

/-- Everything but the one block. -/
theorem filter_ne (p : Nat) : ∀ x ∈ held.filter (· ≠ p), x ∈ held ∧ x ≠ p := fun x hx => by
  simpa using List.mem_filter.mp hx

/-- The parent of every process is the shell, which is pid 0. -/
theorem newControlBlock_parent (h : Good img s held q zs) (hpc : s.pc s.stack = .build c f b)
    (name : List UInt8) (priority cr3 : Nat) :
    (newControlBlock s.kernel name priority cr3).parentPid = 0 := by
  have hstack := h.stack_eq (by rw [hpc]; rfl)
  have hwork := h.atWork (by rw [hpc]; rfl)
  unfold newControlBlock
  simp only [hwork.current, hstack, h.idlePid, ite_self]

theorem enqueue_step (h : Good img s held q zs) (hpc : s.pc s.stack = .build c f (.enqueue p)) :
    Good img (s.goto (schedulerEnqueue s.kernel p) (.build c f (.register p)))
      (held.filter (· ≠ p)) (q ++ [p]) zs := by
  obtain ⟨hblocks, -, hheld, -⟩ := h.blocks_of_build hpc (p := p) rfl
  obtain ⟨hqueue, hpcb, hcur⟩ := hblocks.enqueue (hheld rfl) (filter_ne p)
  refine h.makes_on hpc rfl rfl rfl (fun _ hp => (Option.some.inj hp).symm) nofun (fun _ => by simp)
    hqueue hcur ?_ ?_ (fun _ hx => by simpa using hx) (fun _ hx => Or.inl hx) nofun
  · intro x hx
    rw [hpcb]
    exact Function.update_of_ne hx _ _
  · rw [hpcb]
    change (Function.update s.kernel.pcb p _ p).parentPid = 0
    rw [Function.update_self]
    exact h.parent_of_held hpc rfl rfl

theorem register_step (h : Good img s held q zs) (hpc : s.pc s.stack = .build c f (.register p))
    (hstmt : (Build.register p).stmt img c f s.kernel = .ok (k', pc')) :
    Good img (s.goto k' pc') held q zs := by
  obtain ⟨hblocks, -, -, hqueued⟩ := h.blocks_of_build hpc (p := p) rfl
  have hin := hqueued rfl
  have hparent : (s.kernel.pcb p).parentPid = 0 := h.parents p (List.mem_append_left zs hin)
  rcases hblocks.register with ⟨k₁, hadd, hlisted, hpcb, hcur⟩ | hfull
  · have hothers : ∀ x, x ≠ p → k₁.pcb x = s.kernel.pcb x := fun x _ => by rw [hpcb]
    have hparent₁ : (k₁.pcb p).parentPid = 0 := by
      rw [hpcb]
      exact hparent
    simp only [Build.stmt, hadd] at hstmt
    cases f with
    | none =>
        cases hstmt
        exact h.makes_on hpc rfl rfl rfl nofun nofun nofun hlisted hcur hothers hparent₁
          (fun _ hx => Or.inl hx) (fun _ hx => Or.inl hx) nofun
    | some f =>
        cases hstmt
        exact h.makes_on hpc rfl rfl rfl (fun _ hp => (Option.some.inj hp).symm) nofun
          (fun _ => hin) hlisted hcur hothers hparent₁ (fun _ hx => Or.inl hx)
          (fun _ hx => Or.inl hx) nofun
  · simp only [Build.stmt, hfull] at hstmt
    cases hstmt
    exact h.makes_on hpc rfl rfl rfl (fun _ hp => (Option.some.inj hp).symm) nofun (fun _ => hin)
      hblocks rfl (fun _ _ => rfl) hparent (fun _ hx => Or.inl hx) (fun _ hx => Or.inl hx) nofun

theorem dequeue_step (h : Good img s held q zs) (hpc : s.pc s.stack = .build c f (.dequeue p))
    (hstmt : (Build.dequeue p).stmt img c f s.kernel = .ok (k', pc')) :
    ∃ q', Good img (s.goto k' pc') (p :: held) q' zs ∧ pc' = .build c f (.release p) := by
  obtain ⟨hblocks, hmade, -, hqueued⟩ := h.blocks_of_build hpc (p := p) rfl
  have hin := hqueued rfl
  have hparent : (s.kernel.pcb p).parentPid = 0 := h.parents p (List.mem_append_left zs hin)
  obtain ⟨xs, ys, rfl⟩ := List.append_of_mem hin
  obtain ⟨n, hd, tl, size, hret, hoff⟩ := hblocks.dequeue (Ne.symm hmade.notIdle)
  simp only [Build.stmt, hret, bind_ok] at hstmt
  cases hstmt
  refine ⟨xs ++ ys, h.makes_on hpc rfl rfl rfl (fun _ hp => (Option.some.inj hp).symm)
    (fun _ => List.mem_cons_self) nofun hoff rfl (fun _ _ => rfl) hparent (fun x hx => ?_)
    (fun _ hx => Or.inl hx) nofun, rfl⟩
  exact Or.inl ((hblocks.mem_rest x).mp hx).1

theorem free_step (h : Good img s held q zs) (hpc : s.pc s.stack = .build c f (.free p))
    (hstmt : (Build.free p).stmt img c f s.kernel = .ok (k', pc')) :
    Good img (s.goto k' pc') (held.filter (· ≠ p)) q zs ∧ pc' = .free := by
  obtain ⟨hblocks, hmade, hheld, -⟩ := h.blocks_of_build hpc (p := p) rfl
  obtain ⟨heap, hret, hfreed⟩ := hblocks.kfree (hheld rfl) hmade.notIdle (filter_ne p)
  simp only [Build.stmt, hret, bind_ok] at hstmt
  cases hstmt
  exact ⟨h.makes_on hpc rfl rfl rfl nofun nofun nofun hfreed rfl (fun _ _ => rfl)
    (h.parent_of_held hpc rfl rfl) (fun _ hx => Or.inl hx) (fun _ hx => Or.inl hx) nofun, rfl⟩

/-- Every statement of `process_create`. -/
theorem build_step (h : Good img s held q zs) (hpc : s.pc s.stack = .build c f b)
    (hstmt : b.stmt img c f s.kernel = .ok (k', pc')) :
    ∃ held' q' zs', Good img ((s.goto k' pc').enroll pc') held' q' zs' := by
  cases b with
  | kmalloc =>
      obtain ⟨held', hgood⟩ := h.kmalloc_step hpc hstmt
      exact ⟨held', q, zs, hgood⟩
  | zero p =>
      cases hstmt
      have hothers : ∀ x, x ≠ p → (s.kernel.modPcb p fun _ => Pcb.zero).pcb x = s.kernel.pcb x :=
        fun x hx => Function.update_of_ne hx _ _
      refine ⟨held, q, zs, h.private_step hpc rfl rfl (fun hblocks hin => ?_) rfl hothers ?_⟩
      · have hzero : Blocks img (s.kernel.modPcb p fun _ => Pcb.zero) held q zs p :=
          hblocks.touch hin rfl hothers
        exact hzero.setNext hin 0
      · change (Function.update s.kernel.pcb p Pcb.zero p).parentPid = 0
        rw [Function.update_self]
        rfl
  | directory p =>
      simp only [Build.stmt] at hstmt
      cases hstmt
      split
      · exact ⟨held, q, zs, h.touch_step hpc rfl rfl rfl rfl rfl rfl rfl⟩
      · exact ⟨held, q, zs, h.touch_step hpc rfl rfl rfl rfl rfl rfl rfl⟩
  | fields p =>
      cases hstmt
      refine ⟨held, q, zs, h.touch_step hpc rfl rfl rfl rfl rfl rfl ?_⟩
      rw [h.newControlBlock_parent hpc, h.parent_of_held hpc rfl rfl]
  | stackLo p =>
      cases hstmt
      exact ⟨held, q, zs, h.memory_step hpc rfl rfl rfl _⟩
  | stackHi p lo =>
      simp only [Build.stmt] at hstmt
      cases hstmt
      split
      · exact ⟨held, q, zs, h.memory_step hpc rfl rfl rfl _⟩
      · exact ⟨held, q, zs, h.memory_step hpc rfl rfl rfl _⟩
  | noStack p lo hi =>
      cases hstmt
      exact ⟨held, q, zs, h.memory_step hpc rfl rfl rfl _⟩
  | stack p lo hi =>
      cases hstmt
      exact ⟨held, q, zs, h.touch_step hpc rfl rfl rfl rfl rfl rfl rfl⟩
  | enqueue p =>
      cases hstmt
      exact ⟨_, _, zs, h.enqueue_step hpc⟩
  | register p =>
      have hgood := h.register_step hpc hstmt
      refine ⟨held, q, zs, ?_⟩
      cases pc' with
      | build c' f' b' =>
          cases b' with
          | zero p' =>
              simp only [Build.stmt] at hstmt
              split at hstmt <;> cases f <;> cases hstmt
          | _ => exact hgood
      | _ => exact hgood
  | dequeue p =>
      obtain ⟨q', hgood, rfl⟩ := h.dequeue_step hpc hstmt
      exact ⟨_, q', zs, hgood⟩
  | release p =>
      cases hstmt
      exact ⟨held, q, zs, h.memory_step hpc rfl rfl rfl _⟩
  | free p =>
      obtain ⟨hgood, rfl⟩ := h.free_step hpc hstmt
      exact ⟨_, q, zs, hgood⟩

end Build

/-! ### `process_create_from_elf` -/

section Load

variable {f : Program} {l : Load} {p base : Nat}

/-- The new process once it is in the table. -/
theorem blocks_of_load (h : Good img s held q zs) (hpc : s.pc s.stack = .load f l)
    (hp : l.place.proc = some p) :
    Blocks img s.kernel held q zs 0 ∧ Made img s held q p ∧ (l.place = .held p → p ∈ held) ∧
      (l.place = .queued p → p ∈ q) := by
  obtain ⟨-, hidlepc, hmade⟩ := h.made_of_pc hpc rfl hp
  have hblocks := h.blocks
  rw [hidlepc] at hblocks
  refine ⟨hblocks, hmade, fun hplace => hmade.held ?_, fun hplace => hmade.queued ?_⟩
  · rw [hidlepc]
    exact hplace
  · rw [hidlepc]
    exact hplace

/-- A statement on the new process while it is on the queue. -/
theorem queued_step {b₀ : Pcb} (h : Good img s held q zs) (hpc : s.pc s.stack = .load f l)
    (hplace : l.place = .queued p) (hpc' : pc'.isExit = false) (hlisted : pc'.unlisted = 0)
    (hplace' : pc'.place = .queued p ∨ pc'.place = .nowhere)
    (hthread : k'.threading = s.kernel.threading) (hcur : k'.current = s.kernel.current)
    (hpcb : k'.pcb = Function.update s.kernel.pcb p b₀) (hawake : b₀.state ≠ .blocked)
    (hkeep : b₀.parentPid = (s.kernel.pcb p).parentPid)
    (hentry : ∀ f' p', pc' = .load f' (.userStackTop p') → (k'.pcb p').userEntry = f'.entry) :
    Good img (s.goto k' pc') held q zs := by
  have hp : l.place.proc = some p := by
    rw [hplace]
    rfl
  obtain ⟨hblocks, -, -, hqueued⟩ := h.blocks_of_load hpc hp
  have hin := hqueued hplace
  have hothers : ∀ x, x ≠ p → k'.pcb x = s.kernel.pcb x := fun x hx => by
    rw [hpcb, Function.update_of_ne hx]
  refine h.makes_on hpc rfl hp hpc' ?_ ?_ (fun _ => hin) ?_ hcur hothers ?_
    (fun _ hx => Or.inl hx) (fun _ hx => Or.inl hx) hentry
  · intro p' hp'
    rcases hplace' with hplace' | hplace'
    · rw [hplace'] at hp'
      exact (Option.some.inj hp').symm
    · rw [hplace'] at hp'
      cases hp'
  · intro hheld
    rcases hplace' with hplace' | hplace'
    · rw [hplace'] at hheld
      cases hheld
    · rw [hplace'] at hheld
      cases hheld
  · rw [hlisted]
    refine hblocks.congr hthread fun x hx => ?_
    by_cases hxp : x = p
    · rw [hxp, hpcb, Function.update_self]
      exact hawake
    · rw [hothers x hxp]
      exact hblocks.awake x hx
  · rw [hpcb, Function.update_self, hkeep]
    exact h.parents p (List.mem_append_left zs hin)

/-- It is about memory alone. -/
theorem loading_step {l' : Load} (h : Good img s held q zs) (hpc : s.pc s.stack = .load f l)
    (hplace : l.place = .queued p) (hplace' : l'.place = .queued p)
    (hnot : ∀ p', l' ≠ .userStackTop p') (ms : Paging.State) :
    Good img (s.goto { s.kernel with ms := ms } (.load f l')) held q zs := by
  have hp : l.place.proc = some p := by
    rw [hplace]
    rfl
  obtain ⟨hblocks, -, -, hqueued⟩ := h.blocks_of_load hpc hp
  refine h.queued_step hpc hplace rfl rfl (Or.inl hplace') rfl rfl
    (Function.update_eq_self p s.kernel.pcb).symm (hblocks.awake p (hqueued hplace)) rfl ?_
  intro f' p' hload
  injection hload with hf hl
  exact absurd hl (hnot p')

theorem unqueue_step (h : Good img s held q zs) (hpc : s.pc s.stack = .load f (.dequeue p))
    (hstmt : (Load.dequeue p).stmt base f s.kernel = .ok (k', pc')) :
    ∃ q', Good img (s.goto k' pc') (p :: held) q' zs := by
  obtain ⟨hblocks, hmade, -, hqueued⟩ := h.blocks_of_load hpc (p := p) rfl
  have hin := hqueued rfl
  have hparent : (s.kernel.pcb p).parentPid = 0 := h.parents p (List.mem_append_left zs hin)
  obtain ⟨xs, ys, rfl⟩ := List.append_of_mem hin
  obtain ⟨n, hd, tl, size, hret, hoff⟩ := hblocks.dequeue (Ne.symm hmade.notIdle)
  simp only [Load.stmt, hret, bind_ok] at hstmt
  cases hstmt
  refine ⟨xs ++ ys, h.makes_on hpc rfl rfl rfl (fun _ hp => (Option.some.inj hp).symm)
    (fun _ => List.mem_cons_self) nofun hoff rfl (fun _ _ => rfl) hparent (fun x hx => ?_)
    (fun _ hx => Or.inl hx) nofun⟩
  exact Or.inl ((hblocks.mem_rest x).mp hx).1

theorem bury_step (h : Good img s held q zs) (hpc : s.pc s.stack = .load f (.bury p)) :
    Good img (s.goto { s.kernel.setNext p s.kernel.zombieHead with zombieHead := p } .free)
      (held.filter (· ≠ p)) q (p :: zs) := by
  obtain ⟨hblocks, hmade, hheld, -⟩ := h.blocks_of_load hpc (p := p) rfl
  obtain ⟨-, hidlepc, -⟩ := h.made_of_pc hpc rfl (p := p) rfl
  have hparent := hmade.parent (by rw [hidlepc]; rfl)
  exact h.makes_on hpc rfl rfl rfl nofun nofun nofun (hblocks.bury (hheld rfl) (filter_ne p)) rfl
    (fun _ _ => rfl) hparent (fun _ hx => Or.inl hx) (fun _ hx => (List.mem_cons.mp hx).symm) nofun

/-- Every statement of `process_create_from_elf` behind the call of `process_create`. -/
theorem load_step (h : Good img s held q zs) (hpc : s.pc s.stack = .load f l)
    (hstmt : l.stmt base f s.kernel = .ok (k', pc')) :
    ∃ held' q' zs', Good img (s.goto k' pc') held' q' zs' := by
  cases l with
  | segments p phs =>
      cases phs with
      | nil =>
          cases hstmt
          exact ⟨held, q, zs, h.loading_step hpc rfl rfl (by nofun) s.kernel.ms⟩
      | cons ph phs =>
          cases hstmt
          exact ⟨held, q, zs, h.loading_step hpc rfl rfl (by nofun) s.kernel.ms⟩
  | page p ph vas phs =>
      cases vas with
      | nil =>
          cases hstmt
          exact ⟨held, q, zs, h.loading_step hpc rfl rfl (by nofun) s.kernel.ms⟩
      | cons va vas =>
          simp only [Load.stmt] at hstmt
          cases hstmt
          split
          · exact ⟨held, q, zs, h.loading_step hpc rfl rfl (by nofun) _⟩
          · exact ⟨held, q, zs, h.loading_step hpc rfl rfl (by nofun) _⟩
  | fill p ph va frame vas phs =>
      cases hstmt
      exact ⟨held, q, zs, h.loading_step hpc rfl rfl (by nofun) _⟩
  | map p ph va frame vas phs =>
      obtain ⟨ms, -, hrest⟩ := bind_eq_ok.mp hstmt
      cases hrest
      exact ⟨held, q, zs, h.loading_step hpc rfl rfl (by nofun) _⟩
  | stackPage p vas =>
      cases vas with
      | nil =>
          cases hstmt
          exact ⟨held, q, zs, h.loading_step hpc rfl rfl (by nofun) s.kernel.ms⟩
      | cons va vas =>
          simp only [Load.stmt] at hstmt
          cases hstmt
          split
          · exact ⟨held, q, zs, h.loading_step hpc rfl rfl (by nofun) _⟩
          · exact ⟨held, q, zs, h.loading_step hpc rfl rfl (by nofun) _⟩
  | stackMap p va frame vas =>
      obtain ⟨ms, -, hrest⟩ := bind_eq_ok.mp hstmt
      cases hrest
      exact ⟨held, q, zs, h.loading_step hpc rfl rfl (by nofun) _⟩
  | userEntry p =>
      cases hstmt
      obtain ⟨hblocks, -, -, hqueued⟩ := h.blocks_of_load hpc (p := p) rfl
      refine ⟨held, q, zs, h.queued_step hpc rfl rfl rfl (Or.inl rfl) rfl rfl rfl
        (hblocks.awake p (hqueued rfl)) rfl ?_⟩
      intro f' p' hload
      injection hload with hf hl
      injection hl with hl
      subst hf hl
      change (Function.update s.kernel.pcb p _ p).userEntry = f.entry
      rw [Function.update_self]
  | userStackTop p =>
      cases hstmt
      obtain ⟨hblocks, -, -, hqueued⟩ := h.blocks_of_load hpc (p := p) rfl
      exact ⟨held, q, zs, h.queued_step hpc rfl rfl rfl (Or.inr rfl) rfl rfl rfl
        (hblocks.awake p (hqueued rfl)) rfl nofun⟩
  | zombie p =>
      cases hstmt
      exact ⟨held, q, zs, h.queued_step hpc rfl rfl rfl (Or.inl rfl) rfl rfl rfl nofun rfl nofun⟩
  | dequeue p =>
      obtain ⟨q', hgood⟩ := h.unqueue_step hpc hstmt
      exact ⟨_, q', zs, hgood⟩
  | bury p =>
      cases hstmt
      exact ⟨_, q, _, h.bury_step hpc⟩

end Load

end Good

end StakOS.Threads
