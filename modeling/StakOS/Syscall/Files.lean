import Mathlib.Logic.Relation
import StakOS.Scheduler.Runs
import StakOS.Syscall.Handler

/-!
# File descriptors stream files

The descriptors of all processes, over any interleaving of `SYS_OPEN`, `SYS_READ` and
`SYS_CLOSE`.  Kernel memory is a set of physical bytes that holds the contents of the
files and the page structures; a buffer that does not overlap it can be filled without
changing either.
-/

namespace StakOS.Syscall

open StakOS.Lib.Memory StakOS.Lib.Loop StakOS.Paging StakOS.Process StakOS.Ramfs
open Relation (ReflTransGen)

/-! ## Kernel memory -/

def AgreeOn (K : Set Nat) (m m' : Mem) : Prop := ∀ a ∈ K, m' a = m a

/-- The walk through the page directory reads kernel memory only. -/
def Sealed (K : Set Nat) (m : Mem) (cr3 : Nat) : Prop :=
  ∀ m', AgreeOn K m m' → ∀ va, va < 2 ^ 32 → translate m' cr3 va = translate m cr3 va

/-- The bytes stand in kernel memory from the address `data` on. -/
def Stored (K : Set Nat) (m : Mem) (cr3 data : Nat) (bytes : List UInt8) : Prop :=
  ∀ j (hj : j < bytes.length), ∃ a ∈ K, translate m cr3 (add32 data j) = some a ∧ m a = bytes[j]

/-- A buffer of `n` bytes that does not overlap kernel memory. -/
def Buffer (K : Set Nat) (m : Mem) (cr3 buf n : Nat) : Prop :=
  ∀ j, j < n → ∃ a, a ∉ K ∧ translate m cr3 (add32 buf j) = some a

section Agree

variable {K : Set Nat} {m m' : Mem} {cr3 data : Nat} {bytes : List UInt8}

theorem AgreeOn.refl (K : Set Nat) (m : Mem) : AgreeOn K m m := fun _ _ => rfl

theorem AgreeOn.trans {m'' : Mem} (h : AgreeOn K m m') (h' : AgreeOn K m' m'') :
    AgreeOn K m m'' := fun a ha => (h' a ha).trans (h a ha)

theorem agreeOn_write8 {a : Nat} (ha : a ∉ K) (b : UInt8) : AgreeOn K m (write8 m a b) := by
  intro x hx
  apply write8_of_ne
  intro hxa
  exact ha (hxa ▸ hx)

theorem Sealed.of_agree (h : Sealed K m cr3) (hagree : AgreeOn K m m') : Sealed K m' cr3 := by
  intro m'' hagree' va hva
  rw [h m'' (hagree.trans hagree') va hva, h m' hagree va hva]

/-- It is enough that the directory and every table it names are kernel memory. -/
theorem sealed_of_pages (hpd : ∀ a, cr3 ≤ a → a < cr3 + 4096 → a ∈ K)
    (hpt : ∀ va, va < 2 ^ 32 → ∀ a, frameOf (pdeAt m cr3 va) ≤ a →
      a < frameOf (pdeAt m cr3 va) + 4096 → a ∈ K) : Sealed K m cr3 := by
  intro m' hagree va hva
  have hpde : pdeAt m' cr3 va = pdeAt m cr3 va := by
    have hidx := pdIdx_lt hva
    apply read32_congr
    intro x hx hx'
    exact hagree x (hpd x (by omega) (by omega))
  have hpte : pteAt m' cr3 va = pteAt m cr3 va := by
    have hidx := ptIdx_lt va
    unfold pteAt
    rw [hpde]
    apply read32_congr
    intro x hx hx'
    exact hagree x (hpt va hva x (by omega) (by omega))
  unfold Paging.translate bothHave
  rw [hpde, hpte]

theorem Stored.of_agree (h : Stored K m cr3 data bytes) (hsealed : Sealed K m cr3)
    (hagree : AgreeOn K m m') : Stored K m' cr3 data bytes := by
  intro j hj
  obtain ⟨a, ha, htranslate, hbyte⟩ := h j hj
  refine ⟨a, ha, ?_, ?_⟩
  · rw [hsealed m' hagree _ (add32_lt ..)]
    exact htranslate
  · rw [hagree a ha]
    exact hbyte

end Agree

/-! ## The copy loop -/

/-- The stores of some bytes to `buf[i]`, `buf[i + 1]` and on. -/
def storesAt (buf : Nat) : Nat → List UInt8 → List Access
  | _, [] => []
  | i, b :: bs => .store (add32 buf i) b :: storesAt buf (i + 1) bs

/-- The bytes stored, in order. -/
def storedBytes (touched : List Access) : List UInt8 :=
  touched.filterMap fun
    | .store _ b => some b
    | .load _ => none

theorem storedBytes_storesAt (buf i : Nat) (bs : List UInt8) :
    storedBytes (storesAt buf i bs) = bs := by
  induction bs generalizing i with
  | nil => rfl
  | cons b bs ih => exact congrArg (b :: ·) (ih (i + 1))

/-- The loop copies the next `n` bytes of the file and changes no kernel memory. -/
theorem copyBytes_eq {K : Set Nat} (data offset buf : Nat) {bytes : List UInt8}
    (hlen : bytes.length < 2 ^ 32) {n i : Nat} {k : Kernel}
    (hsealed : Sealed K k.ms.mem k.cr3) (hstored : Stored K k.ms.mem k.cr3 data bytes)
    (hfit : offset + i + n ≤ bytes.length)
    (hclear : ∀ j, i ≤ j → j < i + n →
      ∃ a, a ∉ K ∧ translate k.ms.mem k.cr3 (add32 buf j) = some a) :
    ∃ m', AgreeOn K k.ms.mem m' ∧ copyBytes data offset buf n i k =
      .ok ({ k with ms := ⟨k.ms.pmm, m'⟩ }, storesAt buf i ((bytes.drop (offset + i)).take n)) := by
  induction n generalizing i k with
  | zero => exact ⟨k.ms.mem, .refl K _, by simp [copyBytes, storesAt]⟩
  | succ n ih =>
      have hi : offset + i < bytes.length := by omega
      have hoffset : add32 offset i = offset + i := add32_of_lt (by omega)
      obtain ⟨a, -, hread, hbyte⟩ := hstored (offset + i) hi
      obtain ⟨c, hc, hwrite⟩ := hclear i (Nat.le_refl i) (by omega)
      have hagree := agreeOn_write8 (m := k.ms.mem) hc bytes[offset + i]
      have hrest := ih (i := i + 1)
        (k := { k with ms := ⟨k.ms.pmm, write8 k.ms.mem c bytes[offset + i]⟩ })
        (hsealed.of_agree hagree) (hstored.of_agree hsealed hagree) (by omega) ?_
      · obtain ⟨m', hagree', hcopy⟩ := hrest
        refine ⟨m', hagree.trans hagree', ?_⟩
        have hload : load k (add32 data (add32 offset i)) = .ok bytes[offset + i] := by
          rw [load, hoffset, hread, ← hbyte]
        have hstore : store k (add32 buf i) bytes[offset + i] =
            .ok { k with ms := ⟨k.ms.pmm, write8 k.ms.mem c bytes[offset + i]⟩ } := by
          rw [store, hwrite]
        rw [copyBytes, hload, bind_ok, hstore, bind_ok, hcopy, bind_ok,
          List.drop_eq_getElem_cons hi, List.take_succ_cons, storesAt]
        rfl
      · intro j hij hj
        obtain ⟨d, hd, htranslate⟩ := hclear j (by omega) (by omega)
        refine ⟨d, hd, ?_⟩
        rw [← htranslate]
        exact hsealed _ hagree _ (add32_lt ..)

/-! ## Descriptors -/

def System.fd (s : System) (p fd : Nat) : FdEntry := (s.kernel.pcb p).fds fd

theorem fd_setFd (s : System) (fd : Nat) (e : FdEntry) (p x : Nat) :
    (setFd s fd e).fd p x = if p = s.kernel.current ∧ x = fd then e else s.fd p x := by
  change (Function.update s.kernel.pcb s.kernel.current _ p).fds x = _
  by_cases hp : p = s.kernel.current
  · rw [hp, Function.update_self]
    by_cases hx : x = fd
    · rw [hx, if_pos ⟨rfl, rfl⟩]
      exact Function.update_self ..
    · rw [if_neg fun h => hx h.2]
      exact Function.update_of_ne hx _ _
  · rw [if_neg fun h => hp h.1, Function.update_of_ne hp]
    rfl

theorem fd_setFd_self (s : System) (fd : Nat) (e : FdEntry) :
    (setFd s fd e).fd s.kernel.current fd = e := by
  rw [fd_setFd, if_pos ⟨rfl, rfl⟩]

theorem fd_setFd_of_ne (s : System) {fd : Nat} {e : FdEntry} {p x : Nat}
    (h : ¬(p = s.kernel.current ∧ x = fd)) : (setFd s fd e).fd p x = s.fd p x := by
  rw [fd_setFd, if_neg h]

@[simp] theorem setFd_files (s : System) (fd : Nat) (e : FdEntry) : (setFd s fd e).files = s.files := rfl

theorem allocFd_spec {fds : Nat → FdEntry} {fd : Nat} (h : allocFd fds = some fd) :
    3 ≤ fd ∧ fd < maxFdsPerProcess ∧ (fds fd).inUse = false := by
  have hmem := List.mem_of_find?_eq_some h
  have hfree := List.find?_some h
  rw [List.mem_range'_1] at hmem
  unfold maxFdsPerProcess at *
  exact ⟨hmem.1, by omega, by simpa using hfree⟩

/-- What `ramfs_lookup` finds, `ramfs_get` returns. -/
theorem lookupIn_get {files : Table} {name : List UInt8} {is : List (Fin ramfsMaxFiles)} {i : Int}
    (h : lookupIn files name is = some i) (hi : 0 ≤ i) : ∃ file, ramfsGet files i = some file := by
  induction is with
  | nil =>
      rw [lookupIn, Option.some.injEq] at h
      omega
  | cons j js ih =>
      rw [lookupIn] at h
      by_cases huse : files[j].inUse = true
      · rw [if_pos huse] at h
        obtain ⟨eq, -, hrest⟩ := Option.bind_eq_some_iff.mp h
        by_cases heq : eq = true
        · rw [if_pos heq, Option.some.injEq] at hrest
          refine ⟨files[j], ?_⟩
          rw [← hrest]
          have hj := j.isLt
          unfold ramfsGet
          rw [if_neg (by omega), Int.toNat_natCast, Vector.getElem?_eq_getElem hj]
          simpa using huse
        · rw [if_neg heq] at hrest
          exact ih hrest
      · rw [if_neg huse] at h
        exact ih h

/-! ## One call -/

/-- `bytes` are the contents of the files, by index. -/
def Contents (files : Table) (bytes : Int → List UInt8) : Prop :=
  ∀ i file, ramfsGet files i = some file →
    (bytes i).length = file.size ∧ file.size < 2 ^ 32 - 1

/-- The descriptor names a file and is not past its end. -/
def Within (files : Table) (e : FdEntry) : Prop :=
  ∃ file, ramfsGet files e.fileIdx = some file ∧ e.offset ≤ file.size

/-- What a caller has to observe: the files are in kernel memory, a path is a readable
string, and the part of a read buffer that will be filled does not overlap kernel
memory. -/
structure Fits (K : Set Nat) (bytes : Int → List UInt8) (s : System) (r : Registers) : Prop where
  number : r.eax = Nr.sysOpen ∨ r.eax = Nr.sysRead ∨ r.eax = Nr.sysClose
  tables : Sealed K s.kernel.ms.mem s.kernel.cr3
  stored : ∀ i file, ramfsGet s.files i = some file →
    Stored K s.kernel.ms.mem s.kernel.cr3 file.data (bytes i)
  path : r.eax = Nr.sysOpen → r.ebx ≠ 0 →
    (ramfsLookup s.files (userString s.kernel r.ebx)).isSome = true
  buffer : r.eax = Nr.sysRead → ∀ file,
    ramfsGet s.files (entryOf s (int32 r.ebx).toNat).fileIdx = some file →
    Buffer K s.kernel.ms.mem s.kernel.cr3 r.ecx
      (min r.edx (file.size - (entryOf s (int32 r.ebx).toNat).offset))

/-- The descriptor that a call is about. -/
def target (r : Registers) (eax : Nat) : Nat :=
  if r.eax = Nr.sysOpen then eax else (int32 r.ebx).toNat

/-- What a call that fits does to the descriptors. -/
structure Serves (K : Set Nat) (bytes : Int → List UInt8) (s : System) (r : Registers)
    (reply : Reply) : Prop where
  files : reply.system.files = s.files
  memory : AgreeOn K s.kernel.ms.mem reply.system.kernel.ms.mem
  others : ∀ p fd, ¬(p = s.kernel.current ∧ fd = target r reply.eax) →
    reply.system.fd p fd = s.fd p fd
  refused : reply.eax = minusOne → ∀ p fd, reply.system.fd p fd = s.fd p fd
  opened : r.eax = Nr.sysOpen → reply.eax ≠ minusOne →
    3 ≤ reply.eax ∧ reply.eax < maxFdsPerProcess ∧ (entryOf s reply.eax).inUse = false ∧
      ∃ i file, ramfsGet s.files i = some file ∧
        reply.system.fd s.kernel.current reply.eax = ⟨true, i, 0⟩
  read : r.eax = Nr.sysRead → reply.eax ≠ minusOne →
    let e := entryOf s (int32 r.ebx).toNat
    e.inUse = true ∧ reply.eax = min r.edx ((bytes e.fileIdx).length - e.offset) ∧
      reply.touched = storesAt r.ecx 0 (((bytes e.fileIdx).drop e.offset).take reply.eax) ∧
      reply.system.fd s.kernel.current (int32 r.ebx).toNat =
        { e with offset := e.offset + reply.eax }
  closed : r.eax = Nr.sysClose → reply.eax ≠ minusOne →
    (reply.system.fd s.kernel.current (int32 r.ebx).toNat).inUse = false

section Call

variable {K : Set Nat} {bytes : Int → List UInt8} {s : System} {r : Registers}

theorem serves_refuse (touched : List Access) :
    Serves K bytes s r { refuse s with touched := touched } where
  files := rfl
  memory := .refl K _
  others := fun _ _ _ => rfl
  refused := fun _ _ _ => rfl
  opened := fun _ h => absurd rfl h
  read := fun _ h => absurd rfl h
  closed := fun _ h => absurd rfl h

theorem sysOpen_serves (hr : r.eax = Nr.sysOpen) (hpath : r.ebx ≠ 0 →
    (ramfsLookup s.files (userString s.kernel r.ebx)).isSome = true) :
    ∃ reply, sysOpen s r.ebx = .ok reply ∧ Serves K bytes s r reply := by
  unfold sysOpen
  by_cases h0 : r.ebx = 0
  · rw [if_pos h0]
    exact ⟨_, rfl, serves_refuse []⟩
  · rw [if_neg h0]
    obtain ⟨i, hi⟩ := Option.isSome_iff_exists.mp (hpath h0)
    simp only [hi]
    by_cases hneg : i < 0
    · rw [if_pos hneg]
      exact ⟨_, rfl, serves_refuse _⟩
    · rw [if_neg hneg]
      cases hfd : allocFd (s.kernel.pcb s.kernel.current).fds with
      | none => exact ⟨_, rfl, serves_refuse _⟩
      | some fd =>
          obtain ⟨hlow, hhigh, hfree⟩ := allocFd_spec hfd
          obtain ⟨file, hfile⟩ := lookupIn_get hi (by omega)
          have hne : fd ≠ minusOne := by
            unfold maxFdsPerProcess at hhigh
            unfold minusOne
            omega
          refine ⟨_, rfl, ⟨rfl, .refl K _, ?_, fun h => absurd h hne, ?_, ?_, ?_⟩⟩
          · intro p x hx
            apply fd_setFd_of_ne
            rw [target, if_pos hr] at hx
            exact hx
          · intro _ _
            exact ⟨hlow, hhigh, hfree, i, file, hfile, fd_setFd_self ..⟩
          · intro hread
            rw [hr] at hread
            cases hread
          · intro hclose
            rw [hr] at hclose
            cases hclose

theorem sysClose_serves (hr : r.eax = Nr.sysClose) :
    ∃ reply, sysClose s (int32 r.ebx) = .ok reply ∧ Serves K bytes s r reply := by
  unfold sysClose
  by_cases hbad : badFd (int32 r.ebx) = true
  · rw [if_pos hbad]
    exact ⟨_, rfl, serves_refuse []⟩
  · rw [if_neg hbad]
    by_cases huse : (!(entryOf s (int32 r.ebx).toNat).inUse) = true
    · rw [if_pos huse]
      exact ⟨_, rfl, serves_refuse []⟩
    · rw [if_neg huse]
      refine ⟨_, rfl, ⟨rfl, .refl K _, ?_, nofun, ?_, ?_, ?_⟩⟩
      · intro p x hx
        apply fd_setFd_of_ne
        rw [target, if_neg (by rw [hr]; decide)] at hx
        exact hx
      · intro hopen
        rw [hr] at hopen
        cases hopen
      · intro hread
        rw [hr] at hread
        cases hread
      · intro _ _
        rw [fd_setFd_self]

theorem toCopy_eq {file : RamfsFile} {e : FdEntry} (hsize : file.size < 2 ^ 32)
    (hoffset : e.offset ≤ file.size) (len : Nat) :
    toCopy file e len = min len (file.size - e.offset) := by
  unfold toCopy
  rw [sub32_of_le hoffset hsize]
  by_cases hlt : len < file.size - e.offset
  · rw [if_pos hlt, Nat.min_eq_left (by omega)]
  · rw [if_neg hlt, Nat.min_eq_right (by omega)]

theorem sysRead_serves (hr : r.eax = Nr.sysRead) (hcontents : Contents s.files bytes)
    (hwithin : ∀ fd, (entryOf s fd).inUse = true → Within s.files (entryOf s fd))
    (hfits : Fits K bytes s r) :
    ∃ reply, sysRead s (int32 r.ebx) r.ecx r.edx = .ok reply ∧ Serves K bytes s r reply := by
  unfold sysRead
  by_cases h0 : r.ecx = 0
  · rw [if_pos h0]
    exact ⟨_, rfl, serves_refuse []⟩
  · rw [if_neg h0]
    by_cases hbad : badFd (int32 r.ebx) = true
    · rw [if_pos hbad]
      exact ⟨_, rfl, serves_refuse []⟩
    · rw [if_neg hbad]
      set e := entryOf s (int32 r.ebx).toNat with he
      by_cases huse : (!e.inUse) = true
      · rw [if_pos huse]
        exact ⟨_, rfl, serves_refuse []⟩
      · rw [if_neg huse]
        have hinUse : e.inUse = true := by simpa using huse
        obtain ⟨file, hfile, hoffset⟩ : Within s.files e := hwithin _ hinUse
        obtain ⟨hlength, hsize⟩ := hcontents _ _ hfile
        have hn := toCopy_eq (e := e) (by omega) hoffset r.edx
        have hbuffer := hfits.buffer hr file hfile
        simp only [hfile]
        rw [hn]
        set n := min r.edx (file.size - e.offset) with hdef
        obtain ⟨m', hagree, hcopy⟩ := copyBytes_eq file.data e.offset r.ecx
          (by omega) (n := n) (i := 0) hfits.tables (hfits.stored _ _ hfile) (by omega)
          (fun j _ hj => hbuffer j (by omega))
        rw [hcopy, bind_ok, add32_of_lt (by omega)]
        have hne : n ≠ minusOne := by
          unfold minusOne
          omega
        refine ⟨_, rfl, ⟨rfl, hagree, ?_, fun h => absurd h hne, ?_, ?_, ?_⟩⟩
        · intro p x hx
          rw [target, if_neg (by rw [hr]; decide)] at hx
          exact fd_setFd_of_ne { s with kernel := { s.kernel with ms := _ } } hx
        · intro hopen
          rw [hr] at hopen
          cases hopen
        · intro _ _
          refine ⟨hinUse, ?_, ?_, ?_⟩
          · rw [hlength]
          · rfl
          · exact fd_setFd_self { s with kernel := { s.kernel with ms := _ } } _ _
        · intro hclose
          rw [hr] at hclose
          cases hclose

/-- A call that fits returns, and does to the descriptors what it should. -/
theorem syscallHandler_serves (hcontents : Contents s.files bytes)
    (hwithin : ∀ fd, (entryOf s fd).inUse = true → Within s.files (entryOf s fd))
    (hfits : Fits K bytes s r) (esp : Nat) :
    ∃ reply, syscallHandler s r esp = .ok reply ∧ Serves K bytes s r reply := by
  rcases hfits.number with hr | hr | hr
  · have hhandler : syscallHandler s r esp = sysOpen s r.ebx := by
      simp [syscallHandler, hr, Nr.sysWrite, Nr.sysExit, Nr.sysYield, Nr.sysOpen]
    rw [hhandler]
    exact sysOpen_serves hr (hfits.path hr)
  · have hhandler : syscallHandler s r esp = sysRead s (int32 r.ebx) r.ecx r.edx := by
      simp [syscallHandler, hr, Nr.sysWrite, Nr.sysExit, Nr.sysYield, Nr.sysOpen, Nr.sysRead]
    rw [hhandler]
    exact sysRead_serves hr hcontents hwithin hfits
  · have hhandler : syscallHandler s r esp = sysClose s (int32 r.ebx) := by
      simp [syscallHandler, hr, Nr.sysWrite, Nr.sysExit, Nr.sysYield, Nr.sysOpen, Nr.sysRead,
        Nr.sysClose]
    rw [hhandler]
    exact sysClose_serves hr

end Call

/-! ## Whole runs -/

/-- What has been asked of a descriptor since it was opened, and what was delivered. -/
structure Session where
  requested : Nat
  delivered : List UInt8

/-- The processes that exist are `live`. -/
structure Machine where
  system : System
  live : List Nat
  history : Nat → Nat → Session

/-- The process `p` traps into the kernel, the memory being `m` by then. -/
def System.enter (s : System) (p : Nat) (m : Mem) : System :=
  { s with kernel := { s.kernel with
      ms := ⟨s.kernel.ms.pmm, m⟩
      current := p
      cr3 := (s.kernel.pcb p).cr3 } }

/-- The control block `p` becomes `b`. -/
def System.putPcb (s : System) (p : Nat) (b : Pcb) : System :=
  { s with kernel := s.kernel.modPcb p fun _ => b }

/-- The history after a call that returned. -/
def recorded (h : Nat → Nat → Session) (p : Nat) (r : Registers) (reply : Reply) :
    Nat → Nat → Session := fun p' fd =>
  if p' = p ∧ fd = target r reply.eax ∧ reply.eax ≠ minusOne then
    if r.eax = Nr.sysOpen then ⟨0, []⟩
    else if r.eax = Nr.sysRead then
      ⟨(h p' fd).requested + r.edx, (h p' fd).delivered ++ storedBytes reply.touched⟩
    else h p' fd
  else h p' fd

/-- Any process may call at any time.  `process_create` makes a process in a control
block that no process has, and the block of a process that is freed may be put to any
use. -/
inductive Step (K : Set Nat) (bytes : Int → List UInt8) : Machine → Machine → Prop
  | call {s : Machine} {p : Nat} {m : Mem} {r : Registers} {esp : Nat} {reply : Reply}
      (hp : p ∈ s.live) (hfits : Fits K bytes (s.system.enter p m) r)
      (hret : syscallHandler (s.system.enter p m) r esp = .ok reply) :
      Step K bytes s ⟨reply.system, s.live, recorded s.history p r reply⟩
  | create {s : Machine} {p : Nat} (name : List UInt8) (priority cr3 : Nat) (hp : p ∉ s.live) :
      Step K bytes s ⟨s.system.putPcb p (newControlBlock s.system.kernel name priority cr3),
        p :: s.live, s.history⟩
  | free {s : Machine} {p : Nat} (b : Pcb) :
      Step K bytes s ⟨s.system.putPcb p b, s.live.filter (· ≠ p), s.history⟩

/-- The position of every open descriptor, and the bytes it has delivered. -/
def Streaming (bytes : Int → List UInt8) (s : Machine) : Prop :=
  ∀ p ∈ s.live, ∀ fd, (s.system.fd p fd).inUse = true →
    ∃ file, ramfsGet s.system.files (s.system.fd p fd).fileIdx = some file ∧
      (s.system.fd p fd).offset = min (s.history p fd).requested file.size ∧
      (s.history p fd).delivered =
        (bytes (s.system.fd p fd).fileIdx).take (min (s.history p fd).requested file.size)

section Run

variable {K : Set Nat} {bytes : Int → List UInt8} {s s' : Machine}

theorem Streaming.within (h : Streaming bytes s) {p : Nat} (hp : p ∈ s.live) (m : Mem) (fd : Nat)
    (huse : (entryOf (s.system.enter p m) fd).inUse = true) :
    Within s.system.files (entryOf (s.system.enter p m) fd) := by
  obtain ⟨file, hfile, hoffset, -⟩ := h p hp fd huse
  refine ⟨file, hfile, ?_⟩
  calc (s.system.fd p fd).offset = min (s.history p fd).requested file.size := hoffset
    _ ≤ file.size := Nat.min_le_right _ _

/-- The next bytes of the file continue what was delivered. -/
theorem Streaming.read {e : FdEntry} {x : Session} {bs : List UInt8} {size len n : Nat}
    (hlength : bs.length = size) (hoffset : e.offset = min x.requested size)
    (hdelivered : x.delivered = bs.take (min x.requested size))
    (hn : n = min len (bs.length - e.offset)) :
    e.offset + n = min (x.requested + len) size ∧
      x.delivered ++ (bs.drop e.offset).take n = bs.take (min (x.requested + len) size) := by
  have hsum : e.offset + n = min (x.requested + len) size := by omega
  refine ⟨hsum, ?_⟩
  calc x.delivered ++ (bs.drop e.offset).take n
      = bs.take e.offset ++ (bs.drop e.offset).take n := by rw [hdelivered, hoffset]
    _ = bs.take (e.offset + n) := (List.take_add ..).symm
    _ = bs.take (min (x.requested + len) size) := by rw [hsum]

theorem Streaming.call (h : Streaming bytes s) (hcontents : Contents s.system.files bytes)
    {p : Nat} {m : Mem} {r : Registers} {reply : Reply}
    (hnumber : r.eax = Nr.sysOpen ∨ r.eax = Nr.sysRead ∨ r.eax = Nr.sysClose)
    (hserves : Serves K bytes (s.system.enter p m) r reply) :
    Streaming bytes ⟨reply.system, s.live, recorded s.history p r reply⟩ := by
  intro p' hp' fd huse
  change (reply.system.fd p' fd).inUse = true at huse
  simp only
  rw [hserves.files]
  by_cases hhit : p' = p ∧ fd = target r reply.eax ∧ reply.eax ≠ minusOne
  · obtain ⟨rfl, rfl, hdone⟩ := hhit
    unfold recorded
    rw [if_pos ⟨rfl, rfl, hdone⟩]
    rcases hnumber with hr | hr | hr
    · obtain ⟨-, -, -, i, file, hfile, hentry⟩ := hserves.opened hr hdone
      change reply.system.fd p' reply.eax = _ at hentry
      have htarget : target r reply.eax = reply.eax := if_pos hr
      rw [htarget, hentry, if_pos hr]
      exact ⟨file, hfile, (Nat.zero_min _).symm, by simp⟩
    · obtain ⟨hopen, heax, htouched, hentry⟩ := hserves.read hr hdone
      have htarget : target r reply.eax = (int32 r.ebx).toNat := if_neg (by rw [hr]; decide)
      obtain ⟨file, hfile, hoffset, hdelivered⟩ := h p' hp' _ hopen
      change reply.system.fd p' (int32 r.ebx).toNat = _ at hentry
      obtain ⟨hlength, -⟩ := hcontents _ _ hfile
      obtain ⟨hsum, hbytes⟩ := Streaming.read hlength hoffset hdelivered heax
      rw [htarget, hentry, if_neg (by rw [hr]; decide), if_pos hr, htouched, storedBytes_storesAt]
      exact ⟨file, hfile, hsum, hbytes⟩
    · have htarget : target r reply.eax = (int32 r.ebx).toNat := if_neg (by rw [hr]; decide)
      have hclosed := hserves.closed hr hdone
      rw [htarget] at huse
      change (reply.system.fd p' (int32 r.ebx).toNat).inUse = false at hclosed
      rw [huse] at hclosed
      cases hclosed
  · have hsame : reply.system.fd p' fd = s.system.fd p' fd := by
      by_cases hdone : reply.eax = minusOne
      · exact hserves.refused hdone p' fd
      · apply hserves.others p' fd
        intro hself
        exact hhit ⟨hself.1, hself.2, hdone⟩
    unfold recorded
    rw [if_neg hhit, hsame]
    rw [hsame] at huse
    exact h p' hp' fd huse

theorem fd_putPcb_self (s : System) (p : Nat) (b : Pcb) (fd : Nat) :
    (s.putPcb p b).fd p fd = b.fds fd := by
  change (Function.update s.kernel.pcb p b p).fds fd = _
  rw [Function.update_self]

theorem fd_putPcb_of_ne (s : System) {p p' : Nat} (hp : p' ≠ p) (b : Pcb) (fd : Nat) :
    (s.putPcb p b).fd p' fd = s.fd p' fd := by
  change (Function.update s.kernel.pcb p b p').fds fd = _
  rw [Function.update_of_ne hp]
  rfl

theorem Streaming.step (hcontents : Contents s.system.files bytes) (h : Streaming bytes s)
    (hstep : Step K bytes s s') : s'.system.files = s.system.files ∧ Streaming bytes s' := by
  cases hstep with
  | @call p m r esp reply hp hfits hret =>
      obtain ⟨reply', hret', hserves⟩ := syscallHandler_serves (s := s.system.enter p m)
        hcontents (h.within hp m) hfits esp
      rw [hret] at hret'
      cases hret'
      exact ⟨hserves.files, h.call hcontents hfits.number hserves⟩
  | @create p name priority cr3 hp =>
      refine ⟨rfl, ?_⟩
      intro p' hp' fd huse
      by_cases hpp : p' = p
      · -- the fields behind the zeroing leave the descriptors alone
        subst hpp
        rw [fd_putPcb_self] at huse
        cases huse
      · simp only [fd_putPcb_of_ne _ hpp] at huse ⊢
        exact h p' ((List.mem_cons.mp hp').resolve_left hpp) fd huse
  | @free p b =>
      refine ⟨rfl, ?_⟩
      intro p' hp' fd huse
      obtain ⟨hlive, hpp⟩ := List.mem_filter.mp hp'
      simp only [fd_putPcb_of_ne _ (of_decide_eq_true hpp)] at huse ⊢
      exact h p' hlive fd huse

end Run

/-- The first 4 MB mapped one to one and open to ring 3, the directory at 0x1000 and the
table at 0x2000; a file of three bytes at 0x3000 and its name at 0x5000. -/
def sampleMem : Mem := fun x =>
  if 0x1000 ≤ x ∧ x < 0x1004 then byteOf 0x2007 (x - 0x1000)
  else if 0x2000 ≤ x ∧ x < 0x3000 then byteOf (4096 * ((x - 0x2000) / 4) + 7) ((x - 0x2000) % 4)
  else if x = 0x3000 ∨ x = 0x3001 ∨ x = 0x3002 then 104
  else if x = 0x5000 then 97
  else 0

def sampleKernelMemory : Set Nat := { a | a < 0x4000 }

def sampleFiles : Table :=
  (Vector.replicate ramfsMaxFiles ⟨Vector.replicate ramfsMaxNameLen 0, 0, 0, false⟩).set 0
    ⟨(Vector.replicate ramfsMaxNameLen 0).set 0 97, 0x3000, 3, true⟩

def sampleBytes (i : Int) : List UInt8 := if i = 0 then [104, 104, 104] else []

def sampleMachine : Machine where
  system := ⟨sampleBoot.kernel.modPcb 0x190000 fun b => { b with cr3 := 0x1000 }, sampleFiles,
    Drivers.Vga.vgaInit fun _ => 0⟩
  live := [0x190000]
  history := fun _ _ => ⟨0, []⟩

theorem sampleFiles_get {i : Int} {file : RamfsFile} (h : ramfsGet sampleFiles i = some file) :
    i = 0 ∧ file.data = 0x3000 ∧ file.size = 3 := by
  have hall : ∀ n : Fin ramfsMaxFiles, (ramfsGet sampleFiles (n.val : Int)).all (fun file =>
      decide (n.val = 0 ∧ file.data = 0x3000 ∧ file.size = 3)) = true := by decide +kernel
  have hbound : 0 ≤ i ∧ i < ramfsMaxFiles := by
    unfold ramfsGet at h
    by_contra hout
    rw [if_pos (by omega)] at h
    cases h
  obtain ⟨n, rfl⟩ := Int.eq_ofNat_of_zero_le hbound.1
  have hn := hall ⟨n, by omega⟩
  rw [h] at hn
  obtain ⟨hzero, hdata, hsize⟩ := of_decide_eq_true hn
  change n = 0 at hzero
  exact ⟨by omega, hdata, hsize⟩

theorem sampleMem_sealed : Sealed sampleKernelMemory sampleMem 0x1000 := by
  apply sealed_of_pages
  · intro a _ ha
    change a < 0x4000
    omega
  · intro va hva a _ ha
    have hall : ∀ n, n < 1024 → frameOf (entry sampleMem 0x1000 n) ≤ 0x2000 := by decide +kernel
    have hframe := hall (pdIdx va) (pdIdx_lt hva)
    unfold pdeAt at ha
    change a < 0x4000
    omega

/-- `SYS_OPEN` on the name at 0x5000. -/
def openCall : Registers := ⟨Nr.sysOpen, 0x5000, 0, 0⟩

theorem openCall_fits :
    Fits sampleKernelMemory sampleBytes (sampleMachine.system.enter 0x190000 sampleMem) openCall where
  number := Or.inl rfl
  tables := sampleMem_sealed
  stored := by
    intro i file hfile
    obtain ⟨rfl, hdata, -⟩ := sampleFiles_get hfile
    intro j hj
    rw [hdata]
    have hall : ∀ j (hj : j < 3), 0x3000 + j < 0x4000 ∧
        translate sampleMem 0x1000 (add32 0x3000 j) = some (0x3000 + j) ∧
        sampleMem (0x3000 + j) = (sampleBytes 0).get ⟨j, hj⟩ := by decide +kernel
    obtain ⟨hlt, htranslate, hbyte⟩ := hall j hj
    exact ⟨0x3000 + j, hlt, htranslate, hbyte⟩
  path := fun _ _ => by decide +kernel
  buffer := nofun

end StakOS.Syscall
