import StakOS.Drivers.Output
import StakOS.Scheduler.Runs
import StakOS.Shell.Number

/-!
# The timer and `sleep`

`pit.c`, and `cmd_sleep` of `commands_proc.c`.  `sleep` compares `tick_count`, which wraps, and
halts the processor between two comparisons.  A tick may give the processor to other processes,
and one that comes between a comparison and the `hlt` behind it does not wake the sleeper.
-/

namespace StakOS.Drivers.Timer

open StakOS.Lib.Memory StakOS.Lib.Loop StakOS.Drivers.Output StakOS.Process
open Relation (ReflTransGen)

/-! ## pit.c -/

def pitBaseFreq : Nat := 1193182
def pitCmd : Nat := 0x43
def pitChannel0 : Nat := 0x40

/-- Channel 0 of the timer chip, in the mode that command `0x36` selects: counts are written low
byte first. -/
structure Channel where
  low : Option UInt8
  count : Nat

def Channel.outb (c : Channel) (port : Nat) (v : UInt8) : Option Channel :=
  if port = pitCmd then if v = 0x36 then some { c with low := none } else none
  else if port = pitChannel0 then
    match c.low with
    | none => some { c with low := some v }
    | some low => some ⟨none, low.toNat + 256 * v.toNat⟩
  else none

/-- The counts between two interrupts; 0 stands for the largest number. -/
def Channel.period (c : Channel) : Nat := if c.count = 0 then 0x10000 else c.count

/-- The ports of `pit_init`, which faults for 0 Hz. -/
def pitInit (c : Channel) (hz : Nat) : Option Channel := do
  if hz = 0 then none
  else
    let divisor := pitBaseFreq / hz
    let c ← c.outb pitCmd 0x36
    let c ← c.outb pitChannel0 (UInt8.ofNat (divisor % 256))
    c.outb pitChannel0 (UInt8.ofNat (divisor / 256 % 256))

/-- From 19 Hz on, interrupts come as often as asked for, and not a count too early. -/
theorem pitInit_period (c : Channel) {hz : Nat} (hlow : 19 ≤ hz) (hhigh : hz ≤ pitBaseFreq) :
    ∃ c', pitInit c hz = some c' ∧ c'.period * hz ≤ pitBaseFreq ∧
      pitBaseFreq < (c'.period + 1) * hz := by
  have hpos : 0 < pitBaseFreq / hz := Nat.div_pos hhigh (by omega)
  have hfits : pitBaseFreq / hz < 0x10000 := by
    apply Nat.div_lt_of_lt_mul
    unfold pitBaseFreq
    omega
  have hinit : pitInit c hz = some ⟨none, (UInt8.ofNat (pitBaseFreq / hz % 256)).toNat +
      256 * (UInt8.ofNat (pitBaseFreq / hz / 256 % 256)).toNat⟩ := by
    unfold pitInit
    rw [if_neg (by omega)]
    rfl
  have hcount : pitBaseFreq / hz % 256 % 2 ^ 8 + 256 * (pitBaseFreq / hz / 256 % 256 % 2 ^ 8) =
      pitBaseFreq / hz := by omega
  simp only [UInt8.toNat_ofNat', hcount] at hinit
  have hperiod : (Channel.mk none (pitBaseFreq / hz)).period = pitBaseFreq / hz :=
    if_neg (Nat.pos_iff_ne_zero.mp hpos)
  refine ⟨_, hinit, ?_, ?_⟩
  · rw [hperiod]
    exact Nat.div_mul_le_self _ _
  · rw [hperiod, Nat.mul_comm]
    exact Nat.lt_mul_div_succ _ (by omega)

def pitHandler (tickCount : Nat) (k : Kernel) (esp : Nat) : Outcome (Nat × Kernel) := do
  let k ← schedulerTick k esp
  return (add32 tickCount 1, k)

/-! ## `sleep` -/

/-- Before the test of the loop, before its body, in the body, or behind the loop. -/
inductive SleepPc where
  | test | hlt | halted | done

/-- The shell in `cmd_sleep`, among the other processes. -/
structure Sleep where
  machine : Machine
  tickCount : Nat
  ticks : Nat
  start : Nat
  pc : SleepPc
  out : List Vga.Call
  /-- The ticks since `start` was read. -/
  elapsed : Nat
  /-- How often the processor was halted when the time was up. -/
  late : Nat

def sleepUsage : List Vga.Call :=
  color vgaColorLightRed ++ text "usage: sleep <ticks>\n" ++ color Vga.vgaColorLightGrey

def sleepReport (ticks : Nat) : List Vga.Call :=
  color vgaColorLightGreen ++ text "slept " ++ int (toInt32 ticks) ++ text " ticks\n" ++
  color Vga.vgaColorLightGrey

/-- `cmd_sleep` up to the loop. -/
def cmdSleep (m : Machine) (tickCount : Nat) : List (List UInt8) → Option Sleep
  | _ :: arg :: _ => (Shell.shStrtoul arg 10).map fun ticks =>
      ⟨m, tickCount, ticks, tickCount, .test, [], 0, 0⟩
  | _ => some ⟨m, tickCount, 0, tickCount, .done, sleepUsage, 0, 0⟩

/-- An interrupt ends the `hlt`. -/
def SleepPc.wake : SleepPc → SleepPc
  | .halted => .test
  | pc => pc

/-- The steps of the loop, which the shell takes when it has the processor; interrupts; and what
other processes do when they have it. -/
inductive Sleep.Step (img : Image) (base : Nat) : Sleep → Sleep → Prop
  | again {s : Sleep} (hcur : s.machine.kernel.current = img.idlePcb) (hpc : s.pc = .test)
      (hless : sub32 s.tickCount s.start < s.ticks) : Sleep.Step img base s { s with pc := .hlt }
  | finish {s : Sleep} (hcur : s.machine.kernel.current = img.idlePcb) (hpc : s.pc = .test)
      (hup : ¬sub32 s.tickCount s.start < s.ticks) :
      Sleep.Step img base s { s with pc := .done, out := sleepReport s.ticks }
  | hlt {s : Sleep} (hcur : s.machine.kernel.current = img.idlePcb) (hpc : s.pc = .hlt) :
      Sleep.Step img base s { s with
        pc := .halted
        late := if s.ticks ≤ s.elapsed then s.late + 1 else s.late }
  | tick {s : Sleep} {esp n : Nat} {k : Kernel}
      (hret : pitHandler s.tickCount s.machine.kernel esp = .ok (n, k)) :
      Sleep.Step img base s { s with
        machine := s.machine.after (.tick esp) k
        tickCount := n
        pc := s.pc.wake
        elapsed := s.elapsed + 1 }
  | irq {s : Sleep} : Sleep.Step img base s { s with pc := s.pc.wake }
  | other {s : Sleep} {k : Kernel} (e : Event) (hcur : s.machine.kernel.current ≠ img.idlePcb)
      (hkind : ∀ esp, e ≠ .tick esp) (henabled : e.Enabled s.machine.kernel)
      (hrun : e.run img base s.machine.kernel = .ok k) :
      Sleep.Step img base s { s with machine := s.machine.after e k }

/-- The loop reads the ticks off the counter, up to its wrap.  If it has halted too late once, it
tests next. -/
structure Sleep.Timed (s : Sleep) : Prop where
  passed : sub32 s.tickCount s.start = s.elapsed % 2 ^ 32
  done : s.pc = .done → s.ticks ≤ s.elapsed
  late : s.elapsed < 2 ^ 32 → s.late ≤ 1 ∧ (0 < s.late → s.ticks ≤ s.elapsed) ∧
    (s.pc = .hlt → s.late = 0)

theorem wake_eq_done {pc : SleepPc} : pc.wake = .done ↔ pc = .done := by
  cases pc <;> simp [SleepPc.wake]

theorem wake_eq_hlt {pc : SleepPc} : pc.wake = .hlt ↔ pc = .hlt := by
  cases pc <;> simp [SleepPc.wake]

theorem cmdSleep_timed {m : Machine} {n : Nat} {argv : List (List UInt8)} {s : Sleep}
    (h : cmdSleep m n argv = some s) : s.Timed := by
  have hzero : sub32 n n = 0 % 2 ^ 32 := by
    unfold sub32
    omega
  rcases argv with _ | ⟨name, _ | ⟨arg, rest⟩⟩
  · cases h
    exact ⟨hzero, fun _ => le_rfl, fun _ => ⟨by simp, by simp, by simp⟩⟩
  · cases h
    exact ⟨hzero, fun _ => le_rfl, fun _ => ⟨by simp, by simp, by simp⟩⟩
  · obtain ⟨ticks, -, rfl⟩ := Option.map_eq_some_iff.mp h
    exact ⟨hzero, by simp, fun _ => ⟨by simp, by simp, by simp⟩⟩

theorem Sleep.Step.timed {img : Image} {base : Nat} {s s' : Sleep} (hstep : Sleep.Step img base s s')
    (h : s.Timed) : s'.Timed := by
  have hpassed := h.passed
  cases hstep with
  | again hcur hpc hless =>
      refine ⟨hpassed, by simp, fun hlt => ?_⟩
      obtain ⟨hle, hdue, -⟩ := h.late hlt
      refine ⟨hle, hdue, fun _ => ?_⟩
      by_contra hlate
      have hup := hdue (Nat.pos_iff_ne_zero.mpr hlate)
      rw [hpassed, Nat.mod_eq_of_lt hlt] at hless
      exact absurd hless (Nat.not_lt.mpr hup)
  | finish hcur hpc hup =>
      rw [hpassed, Nat.not_lt] at hup
      refine ⟨hpassed, fun _ => hup.trans (Nat.mod_le _ _), fun hlt => ?_⟩
      obtain ⟨hle, hdue, -⟩ := h.late hlt
      exact ⟨hle, hdue, by simp⟩
  | hlt hcur hpc =>
      refine ⟨hpassed, by simp, fun hlt => ?_⟩
      have hfirst := (h.late hlt).2.2 hpc
      dsimp only
      rw [hfirst]
      split <;> simp [*]
  | tick hret =>
      obtain ⟨k', -, hend⟩ := bind_eq_ok.mp hret
      cases hend
      refine ⟨?_, fun hdone => ?_, fun hlt => ?_⟩
      · change sub32 (add32 s.tickCount 1) s.start = (s.elapsed + 1) % 2 ^ 32
        unfold sub32 add32 at *
        omega
      · exact Nat.le_succ_of_le (h.done (wake_eq_done.mp hdone))
      · obtain ⟨hle, hdue, hhlt⟩ := h.late (Nat.lt_of_succ_lt hlt)
        exact ⟨hle, fun hpos => Nat.le_succ_of_le (hdue hpos), fun hpc => hhlt (wake_eq_hlt.mp hpc)⟩
  | irq =>
      refine ⟨hpassed, fun hdone => h.done (wake_eq_done.mp hdone), fun hlt => ?_⟩
      obtain ⟨hle, hdue, hhlt⟩ := h.late hlt
      exact ⟨hle, hdue, fun hpc => hhlt (wake_eq_hlt.mp hpc)⟩
  | other e hcur hkind henabled hrun => exact ⟨hpassed, h.done, h.late⟩

/-- `sleep` never returns before the ticks it was asked to wait for have passed.  In whatever
order ticks, other interrupts and other processes come between its steps, it halts the processor
at most once when they have passed, if the counter has not gone all the way round; and its next
test is then the last. -/
theorem sleep_punctual {img : Image} {base n : Nat} {m : Machine} {argv : List (List UInt8)}
    {s₀ s : Sleep} (hcall : cmdSleep m n argv = some s₀)
    (hrun : ReflTransGen (Sleep.Step img base) s₀ s) :
    (s.pc = .done → s.ticks ≤ s.elapsed) ∧
    (s.elapsed < 2 ^ 32 → s.late ≤ 1 ∧
      (s.pc = .test → s.machine.kernel.current = img.idlePcb → s.ticks ≤ s.elapsed →
        Sleep.Step img base s { s with pc := .done, out := sleepReport s.ticks })) := by
  have h : s.Timed := by
    induction hrun with
    | refl => exact cmdSleep_timed hcall
    | tail _ hstep ih => exact hstep.timed ih
  refine ⟨h.done, fun hlt => ⟨(h.late hlt).1, fun hpc hcur hup => .finish hcur hpc ?_⟩⟩
  rw [h.passed, Nat.mod_eq_of_lt hlt]
  exact Nat.not_lt.mpr hup

/-- The only tick comes between the test and the `hlt`; a key wakes the shell. -/
theorem sleep_punctual_lostWakeup :
    ∃ s₀ s, cmdSleep sampleBoot.machine 0 [Vga.ascii "sleep" ++ [0], Vga.ascii "1" ++ [0]] = some s₀ ∧
      ReflTransGen (Sleep.Step sampleImage userStackBase) s₀ s ∧ s.pc = .done ∧ s.late = 1 ∧
      s.ticks ≤ s.elapsed := by
  let s₀ : Sleep := ⟨sampleBoot.machine, 0, 1, 0, .test, [], 0, 0⟩
  have hcall : cmdSleep sampleBoot.machine 0 [Vga.ascii "sleep" ++ [0], Vga.ascii "1" ++ [0]] =
      some s₀ := rfl
  have heval : returnsWith (pitHandler 0 sampleBoot.kernel 0x19fff0)
      (fun r => decide (r.1 = 1 ∧ r.2.current = sampleImage.idlePcb)) = true := by
    decide +kernel
  obtain ⟨⟨n, k⟩, hret, htest⟩ := returnsWith_iff.mp heval
  obtain ⟨rfl, hcur⟩ : n = 1 ∧ k.current = sampleImage.idlePcb := of_decide_eq_true htest
  have htested : Sleep.Step sampleImage userStackBase s₀ { s₀ with pc := .hlt } :=
    .again rfl rfl (by decide)
  have hhalted := ((ReflTransGen.single htested).tail (.tick hret)).tail (.hlt hcur rfl)
  have hup : ¬sub32 1 0 < 1 := by decide
  have hdone := (hhalted.tail .irq).tail (.finish hcur rfl hup)
  exact ⟨s₀, _, hcall, hdone, rfl, rfl, (sleep_punctual hcall hdone).1 rfl⟩

end StakOS.Drivers.Timer
