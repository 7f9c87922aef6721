import Mathlib.Logic.Relation
import StakOS.Lib.Memory
import StakOS.Lib.Pic

/-!
# Interrupt requests

`pic_remap`, `irq_register` and `irq_handler` of `idt.c`, with the two controllers they drive.
Devices raise and drop their lines at any time, also between two statements of `irq_handler`
and between the processor's two acknowledge pulses.

`irq_handler` ends the interrupt before it calls the handler, which may switch to another
process and come back much later or not at all.  So nothing is ever in service while code
other than those two statements runs, and no request is lost or served twice.
-/

namespace StakOS.Drivers.Interrupts

open StakOS.Lib.Memory StakOS.Lib.Pic
open Relation (ReflTransGen)

/-! ## Ports -/

def pic1Cmd : Nat := 0x20
def pic1Data : Nat := 0x21
def pic2Cmd : Nat := 0xA0
def pic2Data : Nat := 0xA1

def outb (p : Pair) (port : Nat) (v : BitVec 8) : Option Pair :=
  if port = pic1Cmd then (p.master.writeCmd v).map fun c => { p with master := c }
  else if port = pic1Data then some { p with master := p.master.writeData v }
  else if port = pic2Cmd then (p.slave.writeCmd v).map fun c => { p with slave := c }
  else if port = pic2Data then some { p with slave := p.slave.writeData v }
  else none

def picRemap (p : Pair) : Option Pair := do
  let m1 := p.master.imr
  let m2 := p.slave.imr
  let p ← outb p pic1Cmd 0x11
  let p ← outb p pic2Cmd 0x11
  let p ← outb p pic1Data 0x20
  let p ← outb p pic2Data 0x28
  let p ← outb p pic1Data 0x04
  let p ← outb p pic2Data 0x02
  let p ← outb p pic1Data 0x01
  let p ← outb p pic2Data 0x01
  let p ← outb p pic1Data m1
  outb p pic2Data m2

/-- The chips as `pic_remap` leaves them, but for the requests. -/
structure Remapped (m1 m2 : BitVec 8) (p : Pair) : Prop where
  master : p.master.setup = ⟨m1, 32, 0x04, 0x01, .ready⟩
  slave : p.slave.setup = ⟨m2, 40, 0x02, 0x01, .ready⟩

/-- Whatever state the chips are in, `pic_remap` sets them up and keeps their masks. -/
theorem picRemap_spec (p : Pair) :
    ∃ p', picRemap p = some p' ∧ Remapped p.master.imr p.slave.imr p' ∧ p'.master.Idle ∧
      p'.slave.Idle ∧ ∀ l, p'.pending l = false := by
  refine ⟨_, rfl, ⟨rfl, rfl⟩, fun _ => rfl, fun _ => rfl, fun l => ?_⟩
  cases l <;> rfl

/-! ## Dispatching -/

section Dispatch

variable {H : Type}

/-- `irq_handlers` with an entry set. -/
def irqRegister (handlers : Nat → Option H) (irq : BitVec 8) (handler : H) : Nat → Option H :=
  if irq.toNat < 16 then Function.update handlers irq.toNat (some handler) else handlers

/-! `irq_handler`, statement by statement. -/

/-- `if (r->int_no >= 40) outb(PIC2_CMD, 0x20);` -/
def irqHandlerSlave (p : Pair) (intNo : Nat) : Option Pair :=
  if 40 ≤ intNo then outb p pic2Cmd 0x20 else some p

/-- `outb(PIC1_CMD, 0x20);` -/
def irqHandlerMaster (p : Pair) : Option Pair := outb p pic1Cmd 0x20

/-- `uint8_t irq = r->int_no - 32;` -/
def irqNumber (intNo : Nat) : Nat := sub32 intNo 32 % 256

/-- The handler that is called, if any. -/
def irqHandlerCall (handlers : Nat → Option H) (intNo : Nat) : Option H :=
  if irqNumber intNo < 16 then handlers (irqNumber intNo) else none

/-- Where the processor is: in code that may be interrupted, which handlers are too; between
the request and the acknowledge pulses; or before one of the statements of `irq_handler`. -/
inductive Pc where
  | running
  | sampled
  | pulsed (n : Fin 8)
  | endSlave (intNo : Nat)
  | endMaster (intNo : Nat)
  | dispatch (intNo : Nat)

/-- The system, with what the devices and `irq_handler` have done so far. -/
structure System (H : Type) where
  pics : Pair
  handlers : Nat → Option H
  intFlag : Bool
  pc : Pc
  raised : Line → Nat
  dropped : Line → Nat
  /-- The lines that were dispatched, with the handlers that were called. -/
  log : List (Nat × Option H)

/-- What devices do. -/
inductive DeviceStep : System H → System H → Prop
  | raise {s : System H} (l : Line) (hdevice : l ≠ .master cascade) (hlow : s.pics.pending l = false) :
      DeviceStep s { s with
        pics := s.pics.setLine true l
        raised := Function.update s.raised l (s.raised l + 1) }
  | drop {s : System H} (l : Line) (hdevice : l ≠ .master cascade) (hhigh : s.pics.pending l = true) :
      DeviceStep s { s with
        pics := s.pics.setLine false l
        dropped := Function.update s.dropped l (s.dropped l + 1) }

/-- What the processor does: code outside of `irq_handler`, the pulses, and the statements of
`irq_handler` one by one.  Interrupts are off from the request on, since the gate is an
interrupt gate, and stay off when a handler begins. -/
inductive CpuStep : System H → System H → Prop
  | setFlag {s : System H} (b : Bool) (hpc : s.pc = .running) : CpuStep s { s with intFlag := b }
  | register {s : System H} (irq : BitVec 8) (h : H) (hpc : s.pc = .running) :
      CpuStep s { s with handlers := irqRegister s.handlers irq h }
  | sample {s : System H} (hpc : s.pc = .running) (hflag : s.intFlag = true)
      (hint : s.pics.int = true) : CpuStep s { s with pc := .sampled, intFlag := false }
  | pulse1 {s : System H} (hpc : s.pc = .sampled) :
      CpuStep s { s with pics := s.pics.inta1.1, pc := .pulsed s.pics.inta1.2 }
  | pulse2 {s : System H} {n : Fin 8} {p : Pair} {v : Nat} (hpc : s.pc = .pulsed n)
      (hret : s.pics.inta2 n = some (p, v)) : CpuStep s { s with pics := p, pc := .endSlave v }
  | endSlave {s : System H} {v : Nat} {p : Pair} (hpc : s.pc = .endSlave v)
      (hret : irqHandlerSlave s.pics v = some p) :
      CpuStep s { s with pics := p, pc := .endMaster v }
  | endMaster {s : System H} {v : Nat} {p : Pair} (hpc : s.pc = .endMaster v)
      (hret : irqHandlerMaster s.pics = some p) :
      CpuStep s { s with pics := p, pc := .dispatch v }
  | dispatch {s : System H} {v : Nat} (hpc : s.pc = .dispatch v) :
      CpuStep s { s with
        pc := .running
        log := s.log ++ [(irqNumber v, irqHandlerCall s.handlers v)] }

inductive Step : System H → System H → Prop
  | device {s s' : System H} (h : DeviceStep s s') : Step s s'
  | cpu {s s' : System H} (h : CpuStep s s') : Step s s'

/-- Behind `pic_remap`: nothing is registered and interrupts are off. -/
def start (p : Pair) : System H :=
  ⟨p, fun _ => none, false, .running, fun _ => 0, fun _ => 0, []⟩

/-! ## What is in service -/

/-- A vector of the pair, and the lines that may be in service while it is handled. -/
def Handling (p : Pair) (v : Nat) : Prop :=
  (∃ n : Fin 8, n ≠ cascade ∧ v = 32 + (Line.master n).irq ∧ p.master.Serves n ∧ p.slave.Idle) ∨
    ∃ n : Fin 8, v = 32 + (Line.slave n).irq ∧ p.master.Serves cascade ∧ p.slave.Serves n

/-- What may be in service, for each place the processor can be at. -/
def Pc.InService (p : Pair) : Pc → Prop
  | .running => p.master.Idle ∧ p.slave.Idle
  | .sampled => p.master.Idle ∧ p.slave.Idle
  | .pulsed n => p.master.Serves n ∧ p.slave.Idle
  | .endSlave v => Handling p v
  | .endMaster v => (∃ l : Line, v = 32 + l.irq) ∧ (∃ n, p.master.Serves n) ∧ p.slave.Idle
  | .dispatch v => (∃ l : Line, v = 32 + l.irq) ∧ p.master.Idle ∧ p.slave.Idle

/-- The line whose request was taken but not dispatched yet. -/
def Pc.holds (l : Line) : Pc → Bool
  | .running => false
  | .sampled => false
  | .pulsed n => decide (l = .master n)
  | .endSlave v => decide (v = 32 + l.irq)
  | .endMaster v => decide (v = 32 + l.irq)
  | .dispatch v => decide (v = 32 + l.irq)

/-- A device's line, other than the two that stand for requests that went away. -/
def Line.Counted (l : Line) : Prop :=
  l ≠ .master cascade ∧ l ≠ .master spurious ∧ l ≠ .slave spurious

/-- How often `irq_handler` has dispatched a line. -/
def System.served (s : System H) (l : Line) : Nat := s.log.countP fun e => decide (e.1 = l.irq)

/-- Every request that a device has made was served, was withdrawn, is being served or still
waits. -/
def Conserved (s : System H) : Prop :=
  ∀ l : Line, Line.Counted l → s.raised l =
    s.served l + s.dropped l + (s.pics.pending l).toNat + (s.pc.holds l).toNat

structure Inv (m1 m2 : BitVec 8) (s : System H) : Prop where
  remapped : Remapped m1 m2 s.pics
  inService : s.pc.InService s.pics
  conserved : Conserved s

section Keeps

variable {m1 m2 : BitVec 8} {s s' : System H} {p p' : Pair} {pc : Pc} {n : Fin 8} {v : Nat}

theorem Inv.service (h : Inv m1 m2 s) (hpc : s.pc = pc) : pc.InService s.pics := hpc ▸ h.inService

/-! ## What each step keeps -/

theorem Remapped.congr (h : Remapped m1 m2 p) (hm : p'.master.setup = p.master.setup)
    (hs : p'.slave.setup = p.slave.setup) : Remapped m1 m2 p' :=
  ⟨hm.trans h.master, hs.trans h.slave⟩

/-- Only what is in service matters, not what is requested. -/
theorem Pc.InService.congr (h : pc.InService p) (hm : p'.master.isr = p.master.isr)
    (hs : p'.slave.isr = p.slave.isr) : pc.InService p' := by
  cases pc <;>
    simpa only [Pc.InService, Handling, Chip.Idle, Chip.Serves, hm, hs] using h

/-- A device moves its line, and the counts follow. -/
theorem Inv.setLine (h : Inv m1 m2 s) (b : Bool) (l : Line) {raised dropped : Line → Nat}
    (hcounts : ∀ l', raised l' + s.dropped l' + (s.pics.pending l').toNat =
      s.raised l' + dropped l' + (if l' = l then b else s.pics.pending l').toNat) :
    Inv m1 m2 { s with pics := s.pics.setLine b l, raised := raised, dropped := dropped } := by
  refine ⟨h.remapped.congr ?_ ?_, h.inService.congr ?_ ?_, fun l' hl' => ?_⟩
  iterate 4 cases l <;> rfl
  have hbefore := h.conserved l' hl'
  have hcount := hcounts l'
  rw [← Pair.setLine_pending] at hcount
  change raised l' = s.served l' + dropped l' + ((s.pics.setLine b l).pending l').toNat +
    (s.pc.holds l').toNat
  omega

theorem DeviceStep.keeps (hstep : DeviceStep s s') (h : Inv m1 m2 s) : Inv m1 m2 s' := by
  cases hstep with
  | raise l hdevice hlow =>
      refine h.setLine true l fun l' => ?_
      by_cases hl : l' = l
      · subst hl
        rw [Function.update_self, if_pos rfl, hlow, Bool.toNat_false, Bool.toNat_true]
        omega
      · rw [Function.update_of_ne hl, if_neg hl]
  | drop l hdevice hhigh =>
      refine h.setLine false l fun l' => ?_
      by_cases hl : l' = l
      · subst hl
        rw [Function.update_self, if_pos rfl, hhigh, Bool.toNat_false, Bool.toNat_true]
        omega
      · rw [Function.update_of_ne hl, if_neg hl]

/-- A step of the processor moves a request from one place to the next. -/
theorem Conserved.moves (h : Conserved s)
    (hmoves : ∀ l, Line.Counted l → (s.pics.pending l).toNat + (s.pc.holds l).toNat =
      (p.pending l).toNat + (pc.holds l).toNat) : Conserved { s with pics := p, pc := pc } := by
  intro l hl
  have hbefore := h l hl
  have hmove := hmoves l hl
  change s.raised l = s.served l + s.dropped l + (p.pending l).toNat + (pc.holds l).toNat
  omega

/-- The first pulse takes a request of the master, or the cascade's. -/
theorem inta1_pending {l : Line} (hl : Line.Counted l) :
    (p.pending l).toNat = (p.inta1.1.pending l).toNat + ((Pc.pulsed p.inta1.2).holds l).toNat := by
  obtain ⟨hcascade, hspurious, -⟩ := hl
  cases l with
  | slave m => simp [Pair.pending, Pair.inta1, Pc.holds]
  | master m =>
      have hm : m ≠ cascade := fun hm => hcascade (hm ▸ rfl)
      have hack := Chip.acknowledge_irr (c := p.wired) fun hm => hspurious (hm ▸ rfl)
      have hirr : p.wired.irr m = p.master.irr m := Function.update_of_ne hm ..
      rw [hirr] at hack
      simpa [Pair.pending, Pair.inta1, Pc.holds] using hack

/-- The second pulse asks the slave exactly for the cascade. -/
theorem Remapped.behind_iff (h : Remapped m1 m2 p) :
    (p.master.icw3.getLsbD n = true ∧ p.slave.icw3.toNat = n) ↔ n = cascade := by
  have hm : p.master.icw3 = 0x04 := congrArg Setup.icw3 h.master
  have hs : p.slave.icw3 = 0x02 := congrArg Setup.icw3 h.slave
  rw [hm, hs]
  revert n
  decide

theorem Remapped.vectors (h : Remapped m1 m2 p) :
    p.master.vector n = some (32 + (n : Nat)) ∧ p.slave.vector n = some (40 + (n : Nat)) := by
  have hm4 : p.master.icw4 = 0x01 := congrArg Setup.icw4 h.master
  have hs4 : p.slave.icw4 = 0x01 := congrArg Setup.icw4 h.slave
  have hm : p.master.base = 32 := congrArg Setup.base h.master
  have hs : p.slave.base = 40 := congrArg Setup.base h.slave
  unfold Chip.vector
  rw [hm4, hs4, hm, hs]
  exact ⟨rfl, rfl⟩

/-- What the second pulse returns. -/
theorem Remapped.inta2_eq (h : Remapped m1 m2 p) (n : Fin 8) :
    p.inta2 n = if n = cascade
      then some ({ p with slave := p.slave.acknowledge.1 },
        32 + (Line.slave p.slave.acknowledge.2).irq)
      else some (p, 32 + (Line.master n).irq) := by
  unfold Pair.inta2
  simp only [h.behind_iff]
  by_cases hn : n = cascade
  · rw [if_pos hn, if_pos hn, h.vectors.2]
    simp only [Option.map_some, Line.irq]
    rw [← Nat.add_assoc]
  · rw [if_neg hn, if_neg hn, h.vectors.1]
    rfl

theorem holds_irq (l l' : Line) : (Pc.endSlave (32 + l'.irq)).holds l = decide (l = l') := by
  apply decide_eq_decide.mpr
  constructor
  · intro h
    exact (Line.irq_injective (Nat.add_left_cancel h)).symm
  · rintro rfl
    rfl

/-- The slave is ready for the end of an interrupt, as is the master. -/
theorem Remapped.outb_eoi (h : Remapped m1 m2 p) :
    outb p pic2Cmd 0x20 = some { p with slave := p.slave.eoi } ∧
      outb p pic1Cmd 0x20 = some { p with master := p.master.eoi } := by
  have hs := Chip.writeCmd_eoi (congrArg Setup.stage h.slave)
  have hm := Chip.writeCmd_eoi (congrArg Setup.stage h.master)
  constructor
  · change (p.slave.writeCmd 0x20).map _ = _
    rw [hs]
    rfl
  · change (p.master.writeCmd 0x20).map _ = _
    rw [hm]
    rfl

theorem pulse2_keeps (hpc : s.pc = .pulsed n) (hret : s.pics.inta2 n = some (p, v))
    (h : Inv m1 m2 s) : Inv m1 m2 { s with pics := p, pc := .endSlave v } := by
  obtain ⟨hmaster, hslave⟩ := h.service hpc
  rw [h.remapped.inta2_eq] at hret
  by_cases hn : n = cascade
  · rw [if_pos hn] at hret
    cases hret
    refine ⟨h.remapped.congr rfl (acknowledge_setup _), ?_, h.conserved.moves fun l hl => ?_⟩
    · exact Or.inr ⟨_, rfl, hn ▸ hmaster, hslave.acknowledge⟩
    · obtain ⟨hcascade, -, hspurious⟩ := hl
      rw [hpc, holds_irq]
      cases l with
      | master m => simp [Pair.pending, Pc.holds, hn, hcascade]
      | slave m =>
          have hack := Chip.acknowledge_irr (c := s.pics.slave) fun hm => hspurious (hm ▸ rfl)
          simpa [Pair.pending, Pc.holds] using hack
  · rw [if_neg hn] at hret
    cases hret
    refine ⟨h.remapped, Or.inl ⟨n, hn, rfl, hmaster, hslave⟩, h.conserved.moves fun l _ => ?_⟩
    rw [hpc, holds_irq]
    rfl

theorem endSlave_keeps (hpc : s.pc = .endSlave v)
    (hret : irqHandlerSlave s.pics v = some p) (h : Inv m1 m2 s) :
    Inv m1 m2 { s with pics := p, pc := .endMaster v } := by
  unfold irqHandlerSlave at hret
  rcases h.service hpc with ⟨n, -, hv, hmaster, hslave⟩ | ⟨n, hv, hmaster, hslave⟩
  · have hlow : ¬40 ≤ v := by
      have hn := n.isLt
      rw [hv, Line.irq]
      omega
    rw [if_neg hlow] at hret
    cases hret
    refine ⟨h.remapped, ⟨⟨_, hv⟩, ⟨n, hmaster⟩, hslave⟩, h.conserved.moves fun l _ => ?_⟩
    rw [hpc]
    rfl
  · have hhigh : 40 ≤ v := by
      rw [hv, Line.irq]
      omega
    rw [if_pos hhigh, h.remapped.outb_eoi.1] at hret
    cases hret
    refine ⟨h.remapped.congr rfl (eoi_setup _), ⟨⟨_, hv⟩, ⟨_, hmaster⟩, hslave.eoi⟩,
      h.conserved.moves fun l _ => ?_⟩
    rw [hpc]
    cases l <;> simp [Pair.pending, Pc.holds]

theorem endMaster_keeps (hpc : s.pc = .endMaster v)
    (hret : irqHandlerMaster s.pics = some p) (h : Inv m1 m2 s) :
    Inv m1 m2 { s with pics := p, pc := .dispatch v } := by
  obtain ⟨hv, ⟨n, hmaster⟩, hslave⟩ := h.service hpc
  rw [irqHandlerMaster, h.remapped.outb_eoi.2] at hret
  cases hret
  refine ⟨h.remapped.congr (eoi_setup _) rfl, ⟨hv, hmaster.eoi, hslave⟩,
    h.conserved.moves fun l _ => ?_⟩
  rw [hpc]
  cases l <;> simp [Pair.pending, Pc.holds]

/-- The index into `irq_handlers` is the number of the line. -/
theorem irqNumber_line (l : Line) : irqNumber (32 + l.irq) = l.irq := by
  have hirq : l.irq < 16 := by
    cases l with
    | master n => exact n.isLt.trans (by decide)
    | slave n => exact Nat.add_lt_add_left n.isLt 8
  unfold irqNumber sub32
  omega

theorem dispatch_keeps (hpc : s.pc = .dispatch v) (h : Inv m1 m2 s) :
    Inv m1 m2 { s with
      pc := .running
      log := s.log ++ [(irqNumber v, irqHandlerCall s.handlers v)] } := by
  obtain ⟨⟨l', hv⟩, hidle⟩ := h.service hpc
  refine ⟨h.remapped, hidle, fun l hl => ?_⟩
  have hbefore := h.conserved l hl
  have hholds : (s.pc.holds l).toNat = (if irqNumber v = l.irq then 1 else 0) := by
    rw [hpc, hv, irqNumber_line]
    simp [Pc.holds, Bool.toNat, Bool.cond_decide]
  change s.raised l = (s.log ++ [(irqNumber v, irqHandlerCall s.handlers v)]).countP _ + s.dropped l +
    (s.pics.pending l).toNat + 0
  rw [List.countP_append, List.countP_singleton]
  unfold System.served at hbefore
  simp only [decide_eq_true_eq]
  omega

theorem CpuStep.keeps (hstep : CpuStep s s') (h : Inv m1 m2 s) : Inv m1 m2 s' := by
  cases hstep with
  | setFlag b hpc => exact ⟨h.remapped, h.inService, h.conserved⟩
  | register irq handler hpc => exact ⟨h.remapped, h.inService, h.conserved⟩
  | sample hpc hflag hint =>
      have hservice : Pc.running.InService s.pics := h.service hpc
      refine ⟨h.remapped, hservice, fun l hl => ?_⟩
      have hbefore := h.conserved l hl
      rw [hpc] at hbefore
      exact hbefore
  | pulse1 hpc =>
      obtain ⟨hmaster, hslave⟩ := h.service hpc
      have hidle : s.pics.wired.Idle := hmaster
      refine ⟨h.remapped.congr (acknowledge_setup s.pics.wired) rfl, ⟨hidle.acknowledge, hslave⟩,
        h.conserved.moves fun l hl => ?_⟩
      rw [hpc]
      exact inta1_pending hl
  | pulse2 hpc hret => exact pulse2_keeps hpc hret h
  | endSlave hpc hret => exact endSlave_keeps hpc hret h
  | endMaster hpc hret => exact endMaster_keeps hpc hret h
  | dispatch hpc => exact dispatch_keeps hpc h

/-- An interrupt that was requested is brought to its end. -/
theorem Inv.responds (h : Inv m1 m2 s) (hpc : s.pc ≠ .running) : ∃ s', CpuStep s s' := by
  cases hat : s.pc with
  | running => exact absurd hat hpc
  | sampled => exact ⟨_, .pulse1 hat⟩
  | pulsed n =>
      have hret := h.remapped.inta2_eq n
      by_cases hn : n = cascade
      · rw [if_pos hn] at hret
        exact ⟨_, .pulse2 hat hret⟩
      · rw [if_neg hn] at hret
        exact ⟨_, .pulse2 hat hret⟩
  | endSlave v =>
      by_cases hv : 40 ≤ v
      · exact ⟨_, .endSlave hat ((if_pos hv).trans h.remapped.outb_eoi.1)⟩
      · exact ⟨_, .endSlave hat (if_neg hv)⟩
  | endMaster v => exact ⟨_, .endMaster hat h.remapped.outb_eoi.2⟩
  | dispatch v => exact ⟨_, .dispatch hat⟩

theorem start_inv {p₀ : Pair} (hremap : picRemap p₀ = some p) :
    Inv p₀.master.imr p₀.slave.imr (start (H := H) p) := by
  obtain ⟨p', hret, hremapped, hmaster, hslave, hpending⟩ := picRemap_spec p₀
  rw [hremap] at hret
  cases hret
  refine ⟨hremapped, ⟨hmaster, hslave⟩, fun l _ => ?_⟩
  change 0 = 0 + 0 + (p.pending l).toNat + 0
  rw [hpending]
  rfl

theorem run_inv (hrun : ReflTransGen Step s s') (h : Inv m1 m2 s) : Inv m1 m2 s' := by
  induction hrun with
  | refl => exact h
  | tail _ hstep ih =>
      cases hstep with
      | device hstep => exact hstep.keeps ih
      | cpu hstep => exact hstep.keeps ih

end Keeps

end Dispatch

/-- Two chips with nothing masked, as they are before anyone has set them up. -/
def unmasked : Pair :=
  let chip : Chip := ⟨fun _ => false, fun _ => false, 0, 0, 0, 0, false, false, .ready⟩
  ⟨chip, chip⟩

end StakOS.Drivers.Interrupts
