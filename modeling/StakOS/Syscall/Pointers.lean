import StakOS.Syscall.Files

/-!
# The pointers of the caller

What the handler reads and stores through the pointers it is given, for any caller and
any page directory.  It compares a pointer with null and nothing else: the accesses are
those the caller names, whether or not ring 3 could make them itself.
-/

namespace StakOS.Syscall

open StakOS.Lib.Memory StakOS.Lib.Loop StakOS.Paging StakOS.Process StakOS.Ramfs
open Drivers.Vga (Screen)

/-- The loads of `n` bytes from `buf` on. -/
def loadsAt (buf n : Nat) : List Access := (List.range n).map fun i => .load (add32 buf i)

/-- An access to a byte that the registers name: a byte of the buffer, or a byte of the
path that no NUL precedes. -/
inductive Named (s : System) (r : Registers) : Access → Prop
  | write {i : Nat} (hr : r.eax = Nr.sysWrite) (hi : i < r.edx) :
      Named s r (.load (add32 r.ecx i))
  | path {j : Nat} (hr : r.eax = Nr.sysOpen) (hj : j < (userString s.kernel r.ebx).length)
      (hbefore : 0 ∉ (userString s.kernel r.ebx).take j) : Named s r (.load (add32 r.ebx j))
  | read {i : Nat} {b : UInt8} (hr : r.eax = Nr.sysRead) (hi : i < r.edx) :
      Named s r (.store (add32 r.ecx i) b)

/-- Make the stores of a list of accesses, in order. -/
def perform (k : Kernel) : List Access → Outcome Kernel
  | [] => .ok k
  | .load _ :: rest => perform k rest
  | .store va b :: rest => do
      let k ← store k va b
      perform k rest

/-- The handler has a reason to refuse the call. -/
def Refused (s : System) (r : Registers) : Prop :=
  if r.eax = Nr.sysWrite then int32 r.ebx ≠ 1 ∨ r.ecx = 0
  else if r.eax = Nr.sysOpen then r.ebx = 0 ∨
    (∃ i, ramfsLookup s.files (userString s.kernel r.ebx) = some i ∧
      (i < 0 ∨ allocFd (s.kernel.pcb s.kernel.current).fds = none))
  else if r.eax = Nr.sysRead then r.ecx = 0 ∨ badFd (int32 r.ebx) = true ∨
    (entryOf s (int32 r.ebx).toNat).inUse = false ∨
    ramfsGet s.files (entryOf s (int32 r.ebx).toNat).fileIdx = none
  else if r.eax = Nr.sysClose then badFd (int32 r.ebx) = true ∨
    (entryOf s (int32 r.ebx).toNat).inUse = false
  else True

/-- The handler has followed the pointers as they are. -/
structure Follows (s : System) (r : Registers) (reply : Reply) : Prop where
  named : ∀ a ∈ reply.touched, Named s r a
  performed : ∃ k, perform s.kernel reply.touched = .ok k ∧ k.ms = reply.system.kernel.ms
  written : r.eax = Nr.sysWrite → ¬Refused s r →
    reply.eax = r.edx ∧ reply.touched = loadsAt r.ecx r.edx
  read : r.eax = Nr.sysRead → ¬Refused s r → ∃ file bs,
    ramfsGet s.files (entryOf s (int32 r.ebx).toNat).fileIdx = some file ∧
    reply.eax = toCopy file (entryOf s (int32 r.ebx).toNat) r.edx ∧ bs.length = reply.eax ∧
    reply.touched = storesAt r.ecx 0 bs
  refused : Refused s r → reply.eax = minusOne ∧ reply.system.kernel = s.kernel ∧
    reply.system.files = s.files ∧ (r.eax ≤ Nr.sysClose → reply.system.screen = s.screen)

/-! ## The loops -/

theorem putBytes_error {k : Kernel} {buf n i : Nat} {v : Screen} {stop : Stop}
    (h : putBytes k buf n i v = .error stop) : stop = pageFault := by
  induction n generalizing i v with
  | zero => cases h
  | succ n ih =>
      rw [putBytes] at h
      unfold load at h
      cases htranslate : translate k.ms.mem k.cr3 (add32 buf i) with
      | none =>
          rw [htranslate] at h
          cases h
          rfl
      | some a =>
          rw [htranslate] at h
          exact ih h

/-- The copy loop makes `n` stores, from `buf[i]` on, or stops at a page fault. -/
theorem copyBytes_cases (data offset buf n i : Nat) (k : Kernel) :
    copyBytes data offset buf n i k = .error pageFault ∨
      ∃ k' bs, copyBytes data offset buf n i k = .ok (k', storesAt buf i bs) ∧ bs.length = n ∧
        perform k (storesAt buf i bs) = .ok k' := by
  induction n generalizing i k with
  | zero => exact Or.inr ⟨k, [], rfl, rfl, rfl⟩
  | succ n ih =>
      rw [copyBytes]
      cases hload : load k (add32 data (add32 offset i)) with
      | error stop =>
          left
          unfold load at hload
          split at hload
          · cases hload
          · cases hload
            rfl
      | ok b =>
          rw [bind_ok]
          cases hstore : store k (add32 buf i) b with
          | error stop =>
              left
              unfold store at hstore
              split at hstore
              · cases hstore
              · cases hstore
                rfl
          | ok k₁ =>
              rw [bind_ok]
              rcases ih (i + 1) k₁ with hfault | ⟨k', bs, hcopy, hlen, hperform⟩
              · rw [hfault]
                exact Or.inl rfl
              · right
                refine ⟨k', b :: bs, ?_, ?_, ?_⟩
                · rw [hcopy, bind_ok]
                  rfl
                · rw [List.length_cons, hlen]
                · rw [storesAt, perform, hstore, bind_ok]
                  exact hperform

theorem mem_storesAt {buf i : Nat} {bs : List UInt8} {a : Access} (h : a ∈ storesAt buf i bs) :
    ∃ j b, i ≤ j ∧ j < i + bs.length ∧ a = .store (add32 buf j) b := by
  induction bs generalizing i with
  | nil => cases h
  | cons b bs ih =>
      rcases List.mem_cons.mp h with rfl | h
      · exact ⟨i, b, Nat.le_refl i, by simp, rfl⟩
      · obtain ⟨j, c, hij, hj, rfl⟩ := ih h
        rw [List.length_cons]
        exact ⟨j, c, by omega, by omega, rfl⟩

theorem perform_loads {k : Kernel} {touched : List Access}
    (h : ∀ a ∈ touched, ∃ va, a = .load va) : perform k touched = .ok k := by
  induction touched with
  | nil => rfl
  | cons a rest ih =>
      obtain ⟨va, rfl⟩ := h a List.mem_cons_self
      exact ih fun b hb => h b (List.mem_cons_of_mem _ hb)

/-- `str_eq` does not look past the end of the name. -/
theorem lt_strEqReads {a name : List UInt8} {j : Nat} (h : j < strEqReads a name) :
    j < name.length ∧ 0 ∉ name.take j := by
  induction a generalizing name j with
  | nil => exact absurd h (Nat.not_lt_zero j)
  | cons x a ih =>
      cases name with
      | nil => exact absurd h (Nat.not_lt_zero j)
      | cons y name =>
          cases j with
          | zero => simp
          | succ j =>
              rw [strEqReads] at h
              by_cases hgo : x ≠ 0 ∧ y ≠ 0 ∧ x = y
              · rw [if_pos hgo] at h
                obtain ⟨hlt, hbefore⟩ := ih (Nat.lt_of_succ_lt_succ h)
                refine ⟨Nat.succ_lt_succ hlt, ?_⟩
                rw [List.take_succ_cons, List.mem_cons, not_or]
                exact ⟨Ne.symm hgo.2.1, hbefore⟩
              · rw [if_neg hgo] at h
                omega

theorem mem_lookupReads {files : Table} {name : List UInt8} {is : List (Fin ramfsMaxFiles)} {n : Nat}
    (h : n ∈ lookupReads files name is) : ∃ a, n = strEqReads a name := by
  induction is with
  | nil => cases h
  | cons i is ih =>
      change n ∈ (if files[i].inUse then strEqReads files[i].name.toList name ::
        (if strEq files[i].name.toList name = some true then [] else lookupReads files name is)
        else lookupReads files name is) at h
      split at h
      · rcases List.mem_cons.mp h with rfl | h
        · exact ⟨_, rfl⟩
        · split at h
          · cases h
          · exact ih h
      · exact ih h

theorem mem_pathReads {s : System} {path : Nat} {a : Access} (h : a ∈ pathReads s path) :
    ∃ j, a = .load (add32 path j) ∧ j < (userString s.kernel path).length ∧
      0 ∉ (userString s.kernel path).take j := by
  obtain ⟨n, hn, ha⟩ := List.mem_flatMap.mp h
  obtain ⟨j, hj, rfl⟩ := List.mem_map.mp ha
  obtain ⟨name, rfl⟩ := mem_lookupReads hn
  exact ⟨j, rfl, lt_strEqReads (List.mem_range.mp hj)⟩

/-! ## The calls -/

/-- The call stops at a page that is not present, or returns having followed the
pointers. -/
def FollowsOrFaults (s : System) (r : Registers) (outcome : Outcome Reply) : Prop :=
  outcome = .error pageFault ∨ ∃ reply, outcome = .ok reply ∧ Follows s r reply

section Call

variable {s : System} {r : Registers}

/-- A reply that refuses, having at most looked at the path. -/
theorem follows_refuse {touched : List Access} (hrefused : Refused s r)
    (hnamed : ∀ a ∈ touched, Named s r a) (hloads : ∀ a ∈ touched, ∃ va, a = .load va) :
    Follows s r { refuse s with touched := touched } where
  named := hnamed
  performed := ⟨s.kernel, perform_loads hloads, rfl⟩
  written := fun _ h => absurd hrefused h
  read := fun _ h => absurd hrefused h
  refused := fun _ => ⟨rfl, rfl, rfl, fun _ => rfl⟩

theorem follows_refuse_nil (hrefused : Refused s r) : Follows s r (refuse s) :=
  follows_refuse hrefused nofun nofun

theorem sysWrite_follows (hr : r.eax = Nr.sysWrite) :
    FollowsOrFaults s r (sysWrite s (int32 r.ebx) r.ecx r.edx) := by
  have hiff : Refused s r ↔ int32 r.ebx ≠ 1 ∨ r.ecx = 0 := by
    unfold Refused
    rw [if_pos hr]
  unfold sysWrite
  by_cases hbad : int32 r.ebx ≠ 1 ∨ r.ecx = 0
  · rw [if_pos hbad]
    exact Or.inr ⟨_, rfl, follows_refuse_nil (hiff.mpr hbad)⟩
  · rw [if_neg hbad]
    cases hput : putBytes s.kernel r.ecx r.edx 0 s.screen with
    | error stop =>
        rw [putBytes_error hput]
        exact Or.inl rfl
    | ok screen =>
        rw [bind_ok]
        refine Or.inr ⟨_, rfl, ⟨?_, ?_, fun _ _ => ⟨rfl, rfl⟩, ?_, ?_⟩⟩
        · intro a ha
          obtain ⟨i, hi, rfl⟩ := List.mem_map.mp ha
          exact .write hr (List.mem_range.mp hi)
        · refine ⟨s.kernel, perform_loads fun a ha => ?_, rfl⟩
          obtain ⟨i, -, rfl⟩ := List.mem_map.mp ha
          exact ⟨_, rfl⟩
        · intro hread
          rw [hr] at hread
          cases hread
        · intro hrefused
          exact absurd (hiff.mp hrefused) hbad

theorem sysOpen_follows (hr : r.eax = Nr.sysOpen) :
    FollowsOrFaults s r (sysOpen s r.ebx) := by
  have hiff : Refused s r ↔ r.ebx = 0 ∨
      (∃ i, ramfsLookup s.files (userString s.kernel r.ebx) = some i ∧
        (i < 0 ∨ allocFd (s.kernel.pcb s.kernel.current).fds = none)) := by
    unfold Refused
    rw [if_neg (by rw [hr]; decide), if_pos hr]
  have hnamed : ∀ a ∈ pathReads s r.ebx, Named s r a := by
    intro a ha
    obtain ⟨j, rfl, hj, hbefore⟩ := mem_pathReads ha
    exact .path hr hj hbefore
  have hloads : ∀ a ∈ pathReads s r.ebx, ∃ va, a = .load va := by
    intro a ha
    obtain ⟨j, rfl, -⟩ := mem_pathReads ha
    exact ⟨_, rfl⟩
  unfold sysOpen
  by_cases h0 : r.ebx = 0
  · rw [if_pos h0]
    exact Or.inr ⟨_, rfl, follows_refuse_nil (hiff.mpr (Or.inl h0))⟩
  · rw [if_neg h0]
    cases hlookup : ramfsLookup s.files (userString s.kernel r.ebx) with
    | none => exact Or.inl rfl
    | some i =>
        right
        simp only
        by_cases hneg : i < 0
        · rw [if_pos hneg]
          exact ⟨_, rfl, follows_refuse (hiff.mpr (Or.inr ⟨i, hlookup, Or.inl hneg⟩)) hnamed hloads⟩
        · rw [if_neg hneg]
          cases hfd : allocFd (s.kernel.pcb s.kernel.current).fds with
          | none =>
              exact ⟨_, rfl, follows_refuse (hiff.mpr (Or.inr ⟨i, hlookup, Or.inr hfd⟩)) hnamed hloads⟩
          | some fd =>
              refine ⟨_, rfl, ⟨hnamed, ⟨s.kernel, perform_loads hloads, rfl⟩, ?_, ?_, ?_⟩⟩
              · intro hwrite
                rw [hr] at hwrite
                cases hwrite
              · intro hread
                rw [hr] at hread
                cases hread
              · intro hrefused
                rcases hiff.mp hrefused with hzero | ⟨j, hj, hbad⟩
                · exact absurd hzero h0
                · rw [hlookup] at hj
                  cases hj
                  rw [hfd] at hbad
                  exact absurd (hbad.resolve_right nofun) hneg

theorem toCopy_le (file : RamfsFile) (e : FdEntry) (len : Nat) : toCopy file e len ≤ len := by
  unfold toCopy
  simp only
  split <;> omega

theorem sysRead_follows (hr : r.eax = Nr.sysRead) :
    FollowsOrFaults s r (sysRead s (int32 r.ebx) r.ecx r.edx) := by
  have hiff : Refused s r ↔ r.ecx = 0 ∨ badFd (int32 r.ebx) = true ∨
      (entryOf s (int32 r.ebx).toNat).inUse = false ∨
      ramfsGet s.files (entryOf s (int32 r.ebx).toNat).fileIdx = none := by
    unfold Refused
    rw [if_neg (by rw [hr]; decide), if_neg (by rw [hr]; decide), if_pos hr]
  unfold sysRead
  by_cases h0 : r.ecx = 0
  · rw [if_pos h0]
    exact Or.inr ⟨_, rfl, follows_refuse_nil (hiff.mpr (Or.inl h0))⟩
  rw [if_neg h0]
  by_cases hbad : badFd (int32 r.ebx) = true
  · rw [if_pos hbad]
    exact Or.inr ⟨_, rfl, follows_refuse_nil (hiff.mpr (Or.inr (Or.inl hbad)))⟩
  rw [if_neg hbad]
  set e := entryOf s (int32 r.ebx).toNat
  by_cases huse : e.inUse = true
  swap
  · rw [Bool.not_eq_true] at huse
    rw [if_pos (by rw [huse]; rfl)]
    exact Or.inr ⟨_, rfl, follows_refuse_nil (hiff.mpr (Or.inr (Or.inr (Or.inl huse))))⟩
  rw [if_neg (by rw [huse]; nofun)]
  cases hfile : ramfsGet s.files e.fileIdx with
  | none => exact Or.inr ⟨_, rfl, follows_refuse_nil (hiff.mpr (Or.inr (Or.inr (Or.inr hfile))))⟩
  | some file =>
      simp only
      rcases copyBytes_cases file.data e.offset r.ecx (toCopy file e r.edx) 0 s.kernel with
        hfault | ⟨k', bs, hcopy, hlen, hperform⟩
      · rw [hfault]
        exact Or.inl rfl
      · rw [hcopy, bind_ok]
        refine Or.inr ⟨_, rfl, ⟨?_, ⟨k', hperform, rfl⟩, ?_, ?_, ?_⟩⟩
        · intro a ha
          obtain ⟨j, b, -, hj, rfl⟩ := mem_storesAt ha
          have hle := toCopy_le file e r.edx
          exact .read hr (by omega)
        · intro hwrite
          rw [hr] at hwrite
          cases hwrite
        · intro _ _
          exact ⟨file, bs, hfile, rfl, hlen, rfl⟩
        · intro hrefused
          rcases hiff.mp hrefused with hzero | hbad' | hunused | hnone
          · exact absurd hzero h0
          · exact absurd hbad' hbad
          · rw [huse] at hunused
            cases hunused
          · have hsome := hfile.symm.trans hnone
            cases hsome

theorem sysClose_follows (hr : r.eax = Nr.sysClose) :
    FollowsOrFaults s r (sysClose s (int32 r.ebx)) := by
  have hiff : Refused s r ↔ badFd (int32 r.ebx) = true ∨
      (entryOf s (int32 r.ebx).toNat).inUse = false := by
    unfold Refused
    rw [if_neg (by rw [hr]; decide), if_neg (by rw [hr]; decide), if_neg (by rw [hr]; decide),
      if_pos hr]
  right
  unfold sysClose
  by_cases hbad : badFd (int32 r.ebx) = true
  · rw [if_pos hbad]
    exact ⟨_, rfl, follows_refuse_nil (hiff.mpr (Or.inl hbad))⟩
  rw [if_neg hbad]
  by_cases huse : (entryOf s (int32 r.ebx).toNat).inUse = true
  swap
  · rw [Bool.not_eq_true] at huse
    rw [if_pos (by rw [huse]; rfl)]
    exact ⟨_, rfl, follows_refuse_nil (hiff.mpr (Or.inr huse))⟩
  rw [if_neg (by rw [huse]; nofun)]
  refine ⟨_, rfl, ⟨nofun, ⟨s.kernel, rfl, rfl⟩, ?_, ?_, ?_⟩⟩
  · intro hwrite
    rw [hr] at hwrite
    cases hwrite
  · intro hread
    rw [hr] at hread
    cases hread
  · intro hrefused
    rcases hiff.mp hrefused with hbad' | hunused
    · exact absurd hbad' hbad
    · rw [huse] at hunused
      cases hunused

theorem unknown_follows (hr : Nr.sysClose < r.eax) (screen : Screen) :
    Follows s r (refuse { s with screen := screen }) where
  named := nofun
  performed := ⟨s.kernel, rfl, rfl⟩
  written := fun hwrite => absurd (hwrite ▸ hr) (by decide)
  read := fun hread => absurd (hread ▸ hr) (by decide)
  refused := fun _ => ⟨rfl, rfl, rfl, fun hle => absurd hr (Nat.not_lt.mpr hle)⟩

end Call

/-- The sample memory with the page at 0x6000 closed to ring 3, and a process that has
the file open as descriptor 3. -/
def closedPage : System :=
  setFd (sampleMachine.system.enter 0x190000 (write32 sampleMem 0x2018 0x6003)) 3 ⟨true, 0, 0⟩

/-- `SYS_READ` into that page. -/
def readClosed : Registers := ⟨Nr.sysRead, 3, 0x6000, 3⟩

end StakOS.Syscall
