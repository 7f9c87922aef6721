import StakOS.Drivers.Output
import StakOS.Isolation.Runs
import StakOS.Lib.Walk

/-!
# `ps` and `vminfo`

`process_list` of `process.c` and `cmd_vminfo` of `commands_proc.c`, executed without
preemption: the row of the running process and then the rows of the run queue.
-/

namespace StakOS.Shell

open StakOS.Lib.Memory StakOS.Lib.Loop StakOS.Lib.Linked StakOS.Lib.Walk
open StakOS.Drivers StakOS.Drivers.Output StakOS.Process
open Relation (ReflTransGen)

/-! ## The functions -/

def stateName : PState → String
  | .ready => "READY  "
  | .running => "RUNNING"
  | .blocked => "BLOCKED"
  | .zombie => "ZOMBIE "
  | .dead => "DEAD   "

def printProcRow (b : Pcb) (highlight : Bool) : List Vga.Call :=
  color (if highlight then vgaColorWhite else Vga.vgaColorLightGrey) ++
  int (toInt32 b.pid) ++ text "    " ++ text (stateName b.state) ++ text "  " ++
  int (toInt32 b.priority) ++ text "    " ++ chars b.name ++ text "\n"

/-- One turn of the loop over the queue: `cur` has its row already. -/
def queueRow (row : Pcb → List Vga.Call) (k : Kernel) (cur : Nat) (out : List Vga.Call) (p : Nat) :
    List Vga.Call := if p ≠ cur then out ++ row (k.pcb p) else out

def queueRows (row : Pcb → List Vga.Call) (k : Kernel) (cur : Nat) : Outcome (List Vga.Call) :=
  walk 0 k.next (queueRow row k cur) k.queueHead []

def psHeader : List Vga.Call :=
  color vgaColorLightCyan ++ text "PID  STATE    PRI  NAME\n" ++
  text "---  -------  ---  ----------------\n"

def processList (k : Kernel) : Outcome (List Vga.Call) := do
  let first := if k.current ≠ 0 then printProcRow (k.pcb k.current) true else []
  let rows ← queueRows (printProcRow · false) k k.current
  return psHeader ++ first ++ rows ++ color Vga.vgaColorLightGrey

def cmdPs (k : Kernel) : Outcome (List Vga.Call) := processList k

def pdNote (kernelPd live cr3 : Nat) : String :=
  if cr3 = live then "<-- live" else if cr3 = kernelPd then "(kernel PD)" else "(own PD)"

def vminfoPrintProc (kernelPd live : Nat) (b : Pcb) : List Vga.Call :=
  int (toInt32 b.pid) ++ text "  " ++ chars b.name ++ chars (List.replicate (16 - b.name.length) 32) ++
  hex b.cr3 ++ text "  " ++ text (pdNote kernelPd live b.cr3) ++ text "\n"

def vminfoHeader (kernelPd live : Nat) : List Vga.Call :=
  color vgaColorLightCyan ++ text "Virtual memory\n" ++ color Vga.vgaColorLightGrey ++
  text "  kernel_pd_phys : " ++ hex kernelPd ++ text "\n" ++
  text "  live CR3       : " ++ hex live ++ text "\n\n" ++
  color vgaColorLightCyan ++ text "PID  NAME              CR3         NOTE\n" ++
  text "---  ----------------  ----------  -----------\n" ++ color vgaColorWhite

def cmdVminfo (img : Image) (k : Kernel) : Outcome (List Vga.Call) := do
  let live := k.cr3
  let first := if k.current ≠ 0 then vminfoPrintProc img.kernelPd live (k.pcb k.current) else []
  let rows ← queueRows (vminfoPrintProc img.kernelPd live) k k.current
  return vminfoHeader img.kernelPd live ++ first ++ color Vga.vgaColorLightGrey ++ rows

/-! ## What is printed -/

/-- The rows of the processes `q`, but for `cur`. -/
def rowsOf (row : Pcb → List Vga.Call) (k : Kernel) (cur : Nat) (q : List Nat) : List Vga.Call :=
  (q.filter (· ≠ cur)).flatMap fun p => row (k.pcb p)

theorem foldl_queueRow (row : Pcb → List Vga.Call) (k : Kernel) (cur : Nat) (q : List Nat)
    (out : List Vga.Call) : q.foldl (queueRow row k cur) out = out ++ rowsOf row k cur q := by
  induction q generalizing out with
  | nil => exact (List.append_nil out).symm
  | cons p q ih =>
      rw [List.foldl_cons, ih, queueRow, rowsOf, rowsOf]
      by_cases hp : p = cur
      · rw [if_neg (not_not.mpr hp), List.filter_cons_of_neg (by simp [hp])]
      · rw [if_pos hp, List.filter_cons_of_pos (by simp [hp]), List.flatMap_cons,
          List.append_assoc]

theorem queueRows_eq {img : Image} {k : Kernel} {q zs : List Nat} (h : Lists img k q zs)
    (row : Pcb → List Vga.Call) (cur : Nat) : queueRows row k cur = .ok (rowsOf row k cur q) := by
  have hbound := h.queue_bound
  have hwalk : queueRows row k cur = .ok (q.foldl (queueRow row k cur) []) :=
    walk_eq_foldl h.queue.queue.chain h.queue.queue.nonNull (by omega) []
  rw [hwalk, foldl_queueRow, List.nil_append]

/-- A line of `ps`. -/
def psLine (b : Pcb) (state : String) : List UInt8 :=
  intChars (toInt32 b.pid) ++ Vga.ascii "    " ++ Vga.ascii state ++ Vga.ascii "  " ++
  intChars (toInt32 b.priority) ++ Vga.ascii "    " ++ b.name ++ Vga.ascii "\n"

def psText (k : Kernel) (q : List Nat) : List UInt8 :=
  Vga.ascii "PID  STATE    PRI  NAME\n" ++ Vga.ascii "---  -------  ---  ----------------\n" ++
  psLine (k.pcb k.current) "RUNNING" ++
  (q.filter (· ≠ k.current)).flatMap fun p => psLine (k.pcb p) "READY  "

theorem transcript_printProcRow (b : Pcb) (highlight : Bool) :
    transcript (printProcRow b highlight) = psLine b (stateName b.state) := by
  simp only [printProcRow, psLine, transcript_append, transcript_color, transcript_text,
    transcript_chars, int, List.nil_append, List.append_assoc]

theorem transcript_rowsOf (k : Kernel) (cur : Nat) (q : List Nat) :
    transcript (rowsOf (printProcRow · false) k cur q) =
      (q.filter (· ≠ cur)).flatMap fun p => psLine (k.pcb p) (stateName (k.pcb p).state) := by
  rw [rowsOf, List.flatMap, transcript_flatten, List.map_map, List.flatMap]
  simp only [Function.comp_def, transcript_printProcRow]

/-- In every state of every run `ps` comes to an end.  It shows each process of the run queue
once: the one that runs first, and the others as ready, in the order of the queue. -/
theorem process_list_shows {img : Image} {base : Nat} {guard : Kernel → Process.Event → Prop}
    (b : Boot img) {s : Machine} (hreach : ReflTransGen (Process.Step img base guard) b.machine s) :
    ∃ q calls, QueueIs s.kernel q ∧ q.Nodup ∧ s.kernel.current ∈ q ∧
      cmdPs s.kernel = .ok calls ∧ transcript calls = psText s.kernel q := by
  obtain ⟨q, zs, hinv⟩ := run_machineInv hreach ⟨_, _, boot_machineInv b⟩
  have h := hinv.inv
  have hret : cmdPs s.kernel = .ok (psHeader ++ printProcRow (s.kernel.pcb s.kernel.current) true ++
      rowsOf (printProcRow · false) s.kernel s.kernel.current q ++ color Vga.vgaColorLightGrey) := by
    unfold cmdPs processList
    rw [queueRows_eq h.toLists, if_pos h.current_pos]
    rfl
  have hready : ∀ p ∈ q.filter (· ≠ s.kernel.current),
      psLine (s.kernel.pcb p) (stateName (s.kernel.pcb p).state) =
        psLine (s.kernel.pcb p) "READY  " := by
    intro p hp
    obtain ⟨hp, hne⟩ := List.mem_filter.mp hp
    rw [h.ready p hp (of_decide_eq_true hne)]
    rfl
  have hrunning : stateName (s.kernel.pcb s.kernel.current).state = "RUNNING" := by
    rw [h.running]
    rfl
  refine ⟨q, _, h.queue, h.queue.queue.nodup, h.current, hret, ?_⟩
  simp only [psHeader, psText, transcript_append, transcript_color, transcript_text,
    transcript_printProcRow, transcript_rowsOf, hrunning, List.flatMap_congr hready,
    List.nil_append, List.append_nil]

/-- Directories of processes on the queue are frames of their own. -/
theorem directories_differ {closed : Prop} {img : Image} {pmm₀ : Pmm.State} {k : Kernel}
    {q zs : List Nat} (h : LeaseInv closed img pmm₀ k) (hinv : Process.Lists img k q zs) {p p' : Nat}
    (hp : p ∈ q) (hp' : p' ∈ q) (hne : p ≠ p') : (k.pcb p).cr3 ≠ (k.pcb p').cr3 := by
  have hkernel : (k.pcb img.idlePcb).cr3 = img.kernelPd := congrArg Frames.pd h.idleFrames
  have hown : ∀ x ∈ q, x ≠ img.idlePcb → x ∈ procsIn img k := fun x hx hxi =>
    (mem_procsIn hinv).mpr ⟨List.mem_append_left zs hx, hxi⟩
  have hslot : ∀ x, slots k.ms.mem (framesOf k x) .pd = some (k.pcb x).cr3 := fun _ => rfl
  have hapart : ∀ x ∈ q, x ≠ img.idlePcb → (k.pcb x).cr3 ≠ img.kernelPd := fun x hx hxi =>
    h.leases.slot_ne (hown x hx hxi) (hslot x) (kernelUsed_pd h.leases.kernel)
  by_cases hidle : p = img.idlePcb
  · rw [hidle, hkernel]
    exact Ne.symm (hapart p' hp' fun hpi => hne (hidle.trans hpi.symm))
  · by_cases hidle' : p' = img.idlePcb
    · rw [hidle', hkernel]
      exact hapart p hp hidle
    · intro heq
      have hsame := hslot p'
      rw [← heq] at hsame
      exact hne (h.leases.slot_unique (hown p hp hidle) (hown p' hp' hidle') (hslot p) hsame).1

/-- In every state of every run `vminfo` shows the same processes, each with a directory that
no other has: the live one is that of the running process, the idle process has the kernel's,
and every other one is the process's own. -/
theorem vminfo_shows {img : Image} {base : Nat} (b : Boot img) {s : Machine} (hbase : StackBase base)
    (hreach : ReflTransGen (Process.Step img base (Permitted False img base)) b.machine s) :
    ∃ q, QueueIs s.kernel q ∧
      cmdVminfo img s.kernel = .ok (vminfoHeader img.kernelPd s.kernel.cr3 ++
        vminfoPrintProc img.kernelPd s.kernel.cr3 (s.kernel.pcb s.kernel.current) ++
        color Vga.vgaColorLightGrey ++
        rowsOf (vminfoPrintProc img.kernelPd s.kernel.cr3) s.kernel s.kernel.current q) ∧
      (q.map fun p => (s.kernel.pcb p).cr3).Nodup ∧
      ∀ p ∈ q, pdNote img.kernelPd s.kernel.cr3 (s.kernel.pcb p).cr3 =
        if p = s.kernel.current then "<-- live"
        else if p = img.idlePcb then "(kernel PD)" else "(own PD)" := by
  obtain ⟨⟨q, zs, hinv⟩, hleases⟩ := run_leases b hbase hreach
  have h := hinv.inv
  have hdiffer : ∀ p ∈ q, ∀ p' ∈ q, ((s.kernel.pcb p).cr3 = (s.kernel.pcb p').cr3 ↔ p = p') := by
    intro p hp p' hp'
    refine ⟨fun heq => ?_, fun heq => heq ▸ rfl⟩
    by_contra hne
    exact directories_differ hleases h.toLists hp hp' hne heq
  have hkernel : (s.kernel.pcb img.idlePcb).cr3 = img.kernelPd :=
    congrArg Frames.pd hleases.idleFrames
  refine ⟨q, h.queue, ?_, ?_, fun p hp => ?_⟩
  · unfold cmdVminfo
    simp only [queueRows_eq h.toLists, if_pos h.current_pos]
    rfl
  · exact h.queue.queue.nodup.map_on fun p hp p' hp' => (hdiffer p hp p' hp').mp
  · unfold pdNote
    rw [← hkernel, h.cr3]
    simp only [hdiffer p hp _ h.current, hdiffer p hp _ h.idle]

/-- A process is made at boot. -/
theorem firstProcess_made : ∃ s, ReflTransGen (Process.Step sampleImage userStackBase
      (Permitted False sampleImage userStackBase)) sampleBoot.machine s ∧
    s.kernel.queueSize = 2 := by
  have heval : returnsWith ((Process.Event.create [] 0x103000 1).run sampleImage userStackBase
      sampleBoot.kernel) (fun k => decide (k.queueSize = 2)) = true := by
    decide +kernel
  obtain ⟨k, hcall, htest⟩ := returnsWith_iff.mp heval
  exact ⟨_, .single (.mk (.create [] 0x103000 1) trivial trivial hcall), of_decide_eq_true htest⟩

theorem process_list_shows_firstProcess :
    ∃ (s : Machine) (q : List Nat) (calls : List Vga.Call), QueueIs s.kernel q ∧
      s.kernel.queueSize = 2 ∧ cmdPs s.kernel = .ok calls ∧
      transcript calls = psText s.kernel q := by
  obtain ⟨s, hreach, hsize⟩ := firstProcess_made
  obtain ⟨q, calls, hqueue, -, -, hcall, htext⟩ := process_list_shows sampleBoot hreach
  exact ⟨s, q, calls, hqueue, hsize, hcall, htext⟩

theorem vminfo_shows_firstProcess :
    ∃ (s : Machine) (q : List Nat), QueueIs s.kernel q ∧ s.kernel.queueSize = 2 ∧
      (q.map fun p => (s.kernel.pcb p).cr3).Nodup := by
  obtain ⟨s, hreach, hsize⟩ := firstProcess_made
  obtain ⟨q, hqueue, -, hdiffer, -⟩ := vminfo_shows sampleBoot userStackBase_ok hreach
  exact ⟨s, q, hqueue, hsize, hdiffer⟩

end StakOS.Shell
