import Mathlib.Data.List.Nodup
import StakOS.Lib.CString

/-!
# The file table

`kernel/ramfs.c`: a table of sixteen files with names of at most 31 characters.
Names are C strings, given as the bytes of their array from the pointer on; a
read or store outside an array is the result `none`.

Registration fills the table from the front, so the table is the list of the
successful registrations, and the comparison with what is stored is a comparison
of names, whatever stale bytes follow them.
-/

namespace StakOS.Ramfs

open StakOS.Lib.CString

def ramfsMaxFiles : Nat := 16
def ramfsMaxNameLen : Nat := 32

structure RamfsFile where
  name : Vector UInt8 ramfsMaxNameLen
  data : Nat
  size : Nat
  inUse : Bool

abbrev Table := Vector RamfsFile ramfsMaxFiles

/-! ## The functions of `ramfs.c` -/

def strEq : List UInt8 → List UInt8 → Option Bool
  | a :: as, b :: bs =>
      if a ≠ 0 ∧ b ≠ 0 then
        if a ≠ b then some false else strEq as bs
      else some (a = b)
  | _, _ => none

/-- The loop of `str_len`, with `n` characters counted. -/
def strLenFrom : List UInt8 → Nat → Option Nat
  | c :: s, n => if c ≠ 0 ∧ n < ramfsMaxNameLen - 1 then strLenFrom s (n + 1) else some n
  | [], _ => none

def strLen (s : List UInt8) : Option Nat := strLenFrom s 0

def ramfsInit (files : Table) : Table := files.map fun f => { f with inUse := false }

/-- The loop of `ramfs_lookup` over the slots `is`. -/
def lookupIn (files : Table) (name : List UInt8) : List (Fin ramfsMaxFiles) → Option Int
  | [] => some (-1)
  | i :: is =>
      if files[i].inUse then
        (strEq files[i].name.toList name).bind fun eq =>
          if eq then some i.val else lookupIn files name is
      else lookupIn files name is

def ramfsLookup (files : Table) (name : List UInt8) : Option Int :=
  lookupIn files name (List.finRange ramfsMaxFiles)

/-- The loop that copies the name: the bytes `0 .. n - 1` of `src`. -/
def copyName (dst : Vector UInt8 ramfsMaxNameLen) (src : List UInt8) :
    Nat → Option (Vector UInt8 ramfsMaxNameLen)
  | 0 => some dst
  | j + 1 =>
      (copyName dst src j).bind fun dst => src[j]?.bind fun c =>
        if h : j < ramfsMaxNameLen then some (dst.set j c h) else none

/-- The loop of `ramfs_register` over the slots `is`. -/
def registerIn (files : Table) (name : List UInt8) (len data size : Nat) :
    List (Fin ramfsMaxFiles) → Option (Table × Int)
  | [] => some (files, -1)
  | i :: is =>
      if !files[i].inUse then
        (copyName files[i].name name (len + 1)).map fun stored =>
          (files.set i ⟨stored, data, size, true⟩, i.val)
      else registerIn files name len data size is

def ramfsRegister (files : Table) (name : List UInt8) (data size : Nat) :
    Option (Table × Int) :=
  (strLen name).bind fun len => name[len]?.bind fun c =>
    if len = 0 ∨ c ≠ 0 then some (files, -1)
    else (ramfsLookup files name).bind fun found =>
      if found ≥ 0 then some (files, -1)
      else registerIn files name len data size (List.finRange ramfsMaxFiles)

/-- `ramfs_get`; `none` is the null pointer. -/
def ramfsGet (files : Table) (index : Int) : Option RamfsFile :=
  if index < 0 ∨ index ≥ ramfsMaxFiles then none
  else files[index.toNat]?.bind fun f => if !f.inUse then none else some f

/-! ## Strings -/

/-- `str_eq` decides equality of the two strings. -/
theorem strEq_eq {a b : List UInt8} (ha : Terminated a) (hb : Terminated b) :
    strEq a b = some (decide (chars a = chars b)) := by
  induction a generalizing b with
  | nil => exact absurd ha not_terminated_nil
  | cons x a ih =>
      cases b with
      | nil => exact absurd hb not_terminated_nil
      | cons y b =>
          rw [strEq]
          by_cases hx : x = 0
          · rw [if_neg (by simp [hx]), hx]
            by_cases hy : y = 0
            · simp [hy]
            · simp [chars_cons hy, Ne.symm hy]
          · by_cases hy : y = 0
            · rw [if_neg (by simp [hy]), hy]
              simp [chars_cons hx, hx]
            · rw [if_pos ⟨hx, hy⟩, chars_cons hx, chars_cons hy]
              by_cases hxy : x = y
              · rw [if_neg (not_not.mpr hxy), ih (ha.tail hx) (hb.tail hy), hxy]
                simp
              · rw [if_pos hxy]
                simp [hxy]

/-- `str_len` stops at the NUL or at the 31st character, whichever is first. -/
theorem strLenFrom_eq {s : List UInt8} (hs : Terminated s) {n : Nat} (hn : n ≤ 31) :
    strLenFrom s n = some (min (n + (chars s).length) 31) := by
  induction s generalizing n with
  | nil => exact absurd hs not_terminated_nil
  | cons c s ih =>
      rw [strLenFrom]
      unfold ramfsMaxNameLen
      by_cases hc : c = 0
      · rw [if_neg (by simp [hc]), hc, chars_zero, List.length_nil]
        congr 1
        omega
      · rw [chars_cons hc, List.length_cons]
        by_cases hroom : n < 31
        · rw [if_pos ⟨hc, hroom⟩, ih (hs.tail hc) (by omega)]
          congr 1
          omega
        · rw [if_neg (by tauto)]
          congr 1
          omega

/-- The byte at the length `str_len` reports, and when it is the NUL. -/
theorem getElem?_strLen {s : List UInt8} (hs : Terminated s) :
    ∃ c, s[min (chars s).length 31]? = some c ∧ (c = 0 ↔ (chars s).length ≤ 31) := by
  by_cases hshort : (chars s).length ≤ 31
  · refine ⟨0, ?_, by simp [hshort]⟩
    rw [Nat.min_eq_left hshort]
    exact hs.getElem?_length
  · have hlt : 31 < (chars s).length := by omega
    have hne := chars_ne_zero (List.getElem_mem hlt)
    refine ⟨(chars s)[31], ?_, by simp [hne, hshort]⟩
    rw [Nat.min_eq_right (by omega)]
    exact getElem?_of_lt hlt

/-- The copy replaces the first `n` bytes and keeps the others. -/
theorem copyName_eq (dst : Vector UInt8 ramfsMaxNameLen) {src : List UInt8} {n : Nat}
    (hsrc : n ≤ src.length) (hn : n ≤ ramfsMaxNameLen) :
    ∃ v, copyName dst src n = some v ∧ v.toList = src.take n ++ dst.toList.drop n := by
  induction n with
  | zero => exact ⟨dst, rfl, by simp⟩
  | succ j ih =>
      obtain ⟨v, hv, hlist⟩ := ih (by omega) (by omega)
      have hj : j < ramfsMaxNameLen := by omega
      have hsj : j < src.length := by omega
      refine ⟨v.set j src[j] hj, ?_, ?_⟩
      · rw [copyName, hv, Option.bind_some, List.getElem?_eq_getElem hsj, Option.bind_some,
          dif_pos hj]
      · have hlen : (src.take j).length = j := List.length_take_of_le (by omega)
        have hdst : j < dst.toList.length := by
          rw [Vector.length_toList]
          exact hj
        rw [Vector.toList_set, hlist, List.set_append_right _ _ (by omega), hlen, Nat.sub_self,
          List.drop_eq_getElem_cons hdst, List.set_cons_zero, List.take_succ_eq_append_getElem hsj,
          List.append_assoc, List.singleton_append]

/-- A copied name is the name, whatever the slot held before. -/
theorem copyName_chars (dst : Vector UInt8 ramfsMaxNameLen) {src : List UInt8}
    (hsrc : Terminated src) (hshort : (chars src).length ≤ 31) :
    ∃ v, copyName dst src ((chars src).length + 1) = some v ∧ Terminated v.toList ∧
      chars v.toList = chars src := by
  have hlen : (chars src).length + 1 ≤ src.length := by
    have hlt := (List.getElem?_eq_some_iff.mp hsrc.getElem?_length).1
    omega
  obtain ⟨v, hv, hlist⟩ := copyName_eq dst hlen (by unfold ramfsMaxNameLen; omega)
  rw [hsrc.take_length, List.append_assoc, List.singleton_append] at hlist
  refine ⟨v, hv, ?_, ?_⟩
  · rw [hlist]
    exact terminated_append_zero _ _
  · rw [hlist]
    exact chars_append_zero (fun hzero => chars_ne_zero hzero rfl) _

/-! ## The table as a list of registrations -/

/-- A successful registration. -/
structure Registration where
  name : List UInt8
  data : Nat
  size : Nat

/-- A slot that holds a registration. -/
structure Stored (f : RamfsFile) (r : Registration) : Prop where
  terminated : Terminated f.name.toList
  name : chars f.name.toList = r.name
  data : f.data = r.data
  size : f.size = r.size

/-- The table holds the registrations `regs`, in order and from the front. -/
structure Holds (files : Table) (regs : List Registration) : Prop where
  length_le : regs.length ≤ ramfsMaxFiles
  nodup : (regs.map Registration.name).Nodup
  inUse : ∀ i : Fin ramfsMaxFiles, files[i].inUse = decide (i.val < regs.length)
  stored : ∀ (i : Fin ramfsMaxFiles) (hi : i.val < regs.length), Stored files[i] regs[i.val]

theorem holds_init (files : Table) : Holds (ramfsInit files) [] where
  length_le := Nat.zero_le _
  nodup := List.nodup_nil
  inUse := by
    intro i
    simp [ramfsInit]
  stored := by
    intro i hi
    exact absurd hi (Nat.not_lt_zero _)

/-- The slot a lookup loop stops at. -/
theorem lookupIn_eq {files : Table} {regs : List Registration} (h : Holds files regs)
    {name : List UInt8} (hname : Terminated name) (is : List (Fin ramfsMaxFiles)) :
    lookupIn files name is = some (match is.find? fun i =>
      decide (regs[i.val]?.map Registration.name = some (chars name)) with
      | some i => (i.val : Int)
      | none => -1) := by
  induction is with
  | nil => rfl
  | cons i is ih =>
      rw [lookupIn, h.inUse i]
      by_cases hi : i.val < regs.length
      · have hst := h.stored i hi
        rw [if_pos (by simp [hi]), strEq_eq hst.terminated hname, Option.bind_some, hst.name,
          List.find?_cons, List.getElem?_eq_getElem hi, Option.map_some]
        by_cases heq : regs[i.val].name = chars name
        · rw [if_pos (by simp [heq])]
          simp [heq]
        · rw [if_neg (by simp [heq]), ih]
          simp [heq]
      · rw [if_neg (by simp [hi]), ih, List.find?_cons,
          List.getElem?_eq_none (by omega : regs.length ≤ i.val)]
        simp

/-- A lookup finds the registration of that name, or there is none. -/
theorem Holds.lookup_cases {files : Table} {regs : List Registration} (h : Holds files regs)
    {name : List UInt8} (hname : Terminated name) :
    (∃ (i : Nat) (r : Registration), regs[i]? = some r ∧ r.name = chars name ∧
      ramfsLookup files name = some (i : Int)) ∨
    ((∀ r ∈ regs, r.name ≠ chars name) ∧ ramfsLookup files name = some (-1)) := by
  have hloop := lookupIn_eq h hname (List.finRange ramfsMaxFiles)
  unfold ramfsLookup
  cases hfind : (List.finRange ramfsMaxFiles).find? fun i =>
      decide (regs[i.val]?.map Registration.name = some (chars name)) with
  | some i =>
      left
      rw [hfind] at hloop
      have hp := List.find?_some hfind
      rw [decide_eq_true_eq, Option.map_eq_some_iff] at hp
      obtain ⟨r, hr, hrname⟩ := hp
      exact ⟨i.val, r, hr, hrname, hloop⟩
  | none =>
      right
      rw [hfind] at hloop
      refine ⟨?_, hloop⟩
      intro r hr hrname
      obtain ⟨i, hi⟩ := List.mem_iff_getElem?.mp hr
      have hlt : i < ramfsMaxFiles := by
        have hlen := (List.getElem?_eq_some_iff.mp hi).1
        have hle := h.length_le
        omega
      have hnot := List.find?_eq_none.mp hfind ⟨i, hlt⟩ (List.mem_finRange _)
      simp [hi, hrname] at hnot

/-- Two registrations with one name are one. -/
theorem Holds.index_unique {files : Table} {regs : List Registration} (h : Holds files regs)
    {i j : Nat} {r q : Registration} (hi : regs[i]? = some r) (hj : regs[j]? = some q)
    (hname : r.name = q.name) : i = j := by
  obtain ⟨hil, hir⟩ := List.getElem?_eq_some_iff.mp hi
  obtain ⟨hjl, hjq⟩ := List.getElem?_eq_some_iff.mp hj
  have hi' : i < (regs.map Registration.name).length := by simpa using hil
  have hj' : j < (regs.map Registration.name).length := by simpa using hjl
  have hinj : (regs.map Registration.name)[i] = (regs.map Registration.name)[j] ↔ i = j :=
    h.nodup.getElem_inj_iff
  rw [List.getElem_map, List.getElem_map, hir, hjq] at hinj
  exact hinj.mp hname

theorem Holds.lookup_iff {files : Table} {regs : List Registration} (h : Holds files regs)
    {name : List UInt8} (hname : Terminated name) (i : Nat) :
    ramfsLookup files name = some (i : Int) ↔ ∃ r, regs[i]? = some r ∧ r.name = chars name := by
  rcases h.lookup_cases hname with ⟨j, q, hj, hqname, hlook⟩ | ⟨hnone, hlook⟩
  · rw [hlook, Option.some.injEq, Int.ofNat_inj]
    constructor
    · intro hji
      rw [← hji]
      exact ⟨q, hj, hqname⟩
    · intro hex
      obtain ⟨r, hr, hrname⟩ := hex
      exact h.index_unique hj hr (hqname.trans hrname.symm)
  · rw [hlook]
    constructor
    · intro heq
      have hneg := Option.some.inj heq
      omega
    · intro hex
      obtain ⟨r, hr, hrname⟩ := hex
      exact absurd hrname (hnone r (List.mem_of_getElem? hr))

theorem Holds.lookup_none_iff {files : Table} {regs : List Registration} (h : Holds files regs)
    {name : List UInt8} (hname : Terminated name) :
    ramfsLookup files name = some (-1) ↔ ∀ r ∈ regs, r.name ≠ chars name := by
  rcases h.lookup_cases hname with ⟨j, q, hj, hqname, hlook⟩ | ⟨hnone, hlook⟩
  · rw [hlook]
    constructor
    · intro heq
      have hneg := Option.some.inj heq
      omega
    · intro hnone
      exact absurd hqname (hnone q (List.mem_of_getElem? hj))
  · exact ⟨fun _ => hnone, fun _ => hlook⟩

theorem Holds.get {files : Table} {regs : List Registration} (h : Holds files regs) {i : Nat}
    {r : Registration} (hi : regs[i]? = some r) :
    ∃ f, ramfsGet files i = some f ∧ Stored f r := by
  obtain ⟨hlen, hr⟩ := List.getElem?_eq_some_iff.mp hi
  have hlt : i < ramfsMaxFiles := Nat.lt_of_lt_of_le hlen h.length_le
  have hused := h.inUse ⟨i, hlt⟩
  have hst := h.stored ⟨i, hlt⟩ hlen
  refine ⟨files[i], ?_, hr ▸ hst⟩
  unfold ramfsGet
  rw [if_neg (by omega), Int.toNat_natCast, Vector.getElem?_eq_getElem hlt, Option.bind_some]
  have htrue : files[i].inUse = true := hused.trans (decide_eq_true hlen)
  rw [htrue]
  rfl

/-! ## Registration -/

/-- The first slot that is not in use. -/
theorem find_free {regs : List Registration} (hlt : regs.length < ramfsMaxFiles) :
    (List.finRange ramfsMaxFiles).find? (fun i => decide (regs.length ≤ i.val)) =
      some ⟨regs.length, hlt⟩ := by
  rw [List.find?_eq_some_iff_getElem]
  refine ⟨by simp, regs.length, by simpa using hlt, by simp, ?_⟩
  intro j hj
  simpa using hj

theorem registerIn_eq {files : Table} {regs : List Registration} (h : Holds files regs)
    (name : List UInt8) (len data size : Nat) (is : List (Fin ramfsMaxFiles)) :
    registerIn files name len data size is =
      match is.find? fun i => decide (regs.length ≤ i.val) with
      | some i => (copyName files[i].name name (len + 1)).map fun stored =>
          (files.set i ⟨stored, data, size, true⟩, (i.val : Int))
      | none => some (files, -1) := by
  induction is with
  | nil => rfl
  | cons i is ih =>
      rw [registerIn, h.inUse i, List.find?_cons]
      by_cases hi : i.val < regs.length
      · rw [if_neg (by simp [hi]), ih]
        simp [Nat.not_le.mpr hi]
      · rw [if_pos (by simp [hi])]
        simp [Nat.not_lt.mp hi]

theorem Holds.append {files : Table} {regs : List Registration} (h : Holds files regs)
    (hlt : regs.length < ramfsMaxFiles) {f : RamfsFile} {r : Registration} (hst : Stored f r)
    (huse : f.inUse = true) (hnew : ∀ q ∈ regs, q.name ≠ r.name) :
    Holds (files.set regs.length f hlt) (regs ++ [r]) where
  length_le := by
    rw [List.length_append, List.length_singleton]
    omega
  nodup := by
    rw [List.map_append, List.nodup_append]
    refine ⟨h.nodup, List.nodup_singleton _, ?_⟩
    intro n hn m hm heq
    obtain ⟨q, hq, hqn⟩ := List.mem_map.mp hn
    rw [List.map_singleton, List.mem_singleton] at hm
    exact hnew q hq (hqn.trans (heq.trans hm))
  inUse := by
    intro i
    have hold := h.inUse i
    rw [List.length_append, List.length_singleton]
    by_cases hi : i.val = regs.length
    · simp [Fin.getElem_fin, hi, huse]
    · simp only [Fin.getElem_fin, Vector.getElem_set, Ne.symm hi, if_false] at hold ⊢
      rw [hold]
      congr 1
      simp only [eq_iff_iff]
      omega
  stored := by
    intro i hi
    rw [List.length_append, List.length_singleton] at hi
    by_cases heq : i.val = regs.length
    · simpa [Fin.getElem_fin, heq] using hst
    · have hlt : i.val < regs.length := by omega
      have hold := h.stored i hlt
      simp only [Fin.getElem_fin, Vector.getElem_set, Ne.symm heq, if_false,
        List.getElem_append_left hlt] at hold ⊢
      exact hold

/-- The registrations that are turned down. -/
def Refused (regs : List Registration) (name : List UInt8) : Prop :=
  chars name = [] ∨ 31 < (chars name).length ∨ (∃ r ∈ regs, r.name = chars name) ∨
    regs.length = ramfsMaxFiles

/-- Everything `ramfs_register` can do. -/
theorem Holds.register_cases {files : Table} {regs : List Registration} (h : Holds files regs)
    {name : List UInt8} (hname : Terminated name) (data size : Nat) :
    (Refused regs name ∧ ramfsRegister files name data size = some (files, -1)) ∨
    (¬Refused regs name ∧ ∃ files',
      ramfsRegister files name data size = some (files', (regs.length : Int)) ∧
      Holds files' (regs ++ [⟨chars name, data, size⟩])) := by
  have hlen : strLen name = some (min (chars name).length 31) := by
    unfold strLen
    rw [strLenFrom_eq hname (Nat.zero_le _), Nat.zero_add]
  obtain ⟨c, hc, hczero⟩ := getElem?_strLen hname
  unfold ramfsRegister
  rw [hlen, Option.bind_some, hc, Option.bind_some]
  by_cases hempty : chars name = []
  · left
    exact ⟨Or.inl hempty, if_pos (Or.inl (by rw [hempty]; rfl))⟩
  have hpos : 0 < (chars name).length := List.length_pos_of_ne_nil hempty
  by_cases hlong : 31 < (chars name).length
  · left
    have hcne : c ≠ 0 := fun hzero => absurd (hczero.mp hzero) (by omega)
    exact ⟨Or.inr (Or.inl hlong), if_pos (Or.inr hcne)⟩
  have hshort : (chars name).length ≤ 31 := by omega
  have hpass : ¬(min (chars name).length 31 = 0 ∨ c ≠ 0) := by
    rw [hczero.mpr hshort, not_or]
    exact ⟨by omega, by simp⟩
  rw [if_neg hpass, Nat.min_eq_left hshort]
  rcases h.lookup_cases hname with ⟨i, r, hi, hrname, hlook⟩ | ⟨hnew, hlook⟩
  · left
    refine ⟨Or.inr (Or.inr (Or.inl ⟨r, List.mem_of_getElem? hi, hrname⟩)), ?_⟩
    rw [hlook, Option.bind_some, if_pos (by omega)]
  rw [hlook, Option.bind_some, if_neg (by omega), registerIn_eq h]
  by_cases hfull : regs.length = ramfsMaxFiles
  · left
    have hnone : (List.finRange ramfsMaxFiles).find?
        (fun i => decide (regs.length ≤ i.val)) = none := by
      rw [List.find?_eq_none]
      intro i _
      have hi := i.isLt
      simp only [decide_eq_true_eq]
      omega
    rw [hnone]
    exact ⟨Or.inr (Or.inr (Or.inr hfull)), rfl⟩
  · right
    have hlt : regs.length < ramfsMaxFiles := Nat.lt_of_le_of_ne h.length_le hfull
    obtain ⟨v, hv, hterm, hchars⟩ := copyName_chars (files[regs.length].name) hname hshort
    rw [find_free hlt]
    refine ⟨?_, files.set regs.length ⟨v, data, size, true⟩ hlt, ?_, ?_⟩
    · intro hrefused
      rcases hrefused with hc | hc | ⟨r, hr, hrname⟩ | hc
      · exact hempty hc
      · exact hlong hc
      · exact hnew r hr hrname
      · exact hfull hc
    · show (copyName files[regs.length].name name _).map _ = _
      rw [hv]
      rfl
    · exact h.append hlt ⟨hterm, hchars, rfl, rfl⟩ rfl hnew

/-! ## Every history of registrations -/

/-- The tables that calls of `ramfs_register` after `ramfs_init` lead to, each
with the successful registrations in order. -/
inductive Registered : Table → List Registration → Prop
  | init (files : Table) : Registered (ramfsInit files) []
  | register {files files' : Table} {regs : List Registration} {name : List UInt8}
      {data size : Nat} {result : Int} (before : Registered files regs)
      (hname : Terminated name)
      (hcall : ramfsRegister files name data size = some (files', result)) :
      Registered files' (if result = -1 then regs else regs ++ [⟨chars name, data, size⟩])

theorem Registered.holds {files : Table} {regs : List Registration}
    (h : Registered files regs) : Holds files regs := by
  induction h with
  | init files => exact holds_init files
  | @register files files' regs name data size result before hname hcall ih =>
      rcases ih.register_cases hname data size with ⟨-, heq⟩ | ⟨-, files'', heq, hholds⟩
      · rw [heq] at hcall
        cases hcall
        rw [if_pos rfl]
        exact ih
      · rw [heq] at hcall
        cases hcall
        rw [if_neg (by omega)]
        exact hholds

/-- **ramfs is an exact finite map.**  After any history of registrations a
further one is refused exactly for the four reasons, without a change, and
otherwise returns the number of files before it; lookup and get are exact. -/
theorem ramfs_exact_map {files : Table} {regs : List Registration}
    (h : Registered files regs) :
    (∀ name data size, Terminated name →
      ∃ files' result, ramfsRegister files name data size = some (files', result) ∧
        (result = -1 ↔ Refused regs name) ∧ (result = -1 → files' = files) ∧
        (result ≠ -1 → result = regs.length)) ∧
    (∀ s, Terminated s →
      (∀ i : Nat, ramfsLookup files s = some (i : Int) ↔
        ∃ r, regs[i]? = some r ∧ r.name = chars s) ∧
      (ramfsLookup files s = some (-1) ↔ ∀ r ∈ regs, r.name ≠ chars s)) ∧
    (∀ (i : Nat) (r : Registration), regs[i]? = some r →
      ∃ f, ramfsGet files i = some f ∧ Stored f r) := by
  have hholds := h.holds
  refine ⟨fun name data size hname => ?_, fun s hs => ?_, fun i r hi => hholds.get hi⟩
  · rcases hholds.register_cases hname data size with ⟨href, heq⟩ | ⟨hnot, files', heq, -⟩
    · exact ⟨files, -1, heq, iff_of_true rfl href, fun _ => rfl, fun hne => absurd rfl hne⟩
    · refine ⟨files', regs.length, heq, iff_of_false (by omega) hnot, ?_, fun _ => rfl⟩
      intro hneg
      omega
  · exact ⟨fun i => hholds.lookup_iff hs i, hholds.lookup_none_iff hs⟩

/-- One file registered in an empty table, and found again. -/
theorem ramfs_exact_map_single :
    ∃ files, Registered files [⟨[97], 0x100000, 52⟩] ∧ ramfsLookup files [97, 0] = some 0 := by
  have hstart := Registered.init
    (Vector.replicate ramfsMaxFiles ⟨Vector.replicate ramfsMaxNameLen 0, 0, 0, false⟩)
  have hname : Terminated [97, 0] := by simp [Terminated]
  have hchars : chars [97, 0] = [97] := by decide
  obtain ⟨files, result, hcall, hrefused, -, -⟩ :=
    (ramfs_exact_map hstart).1 [97, 0] 0x100000 52 hname
  have hok : result ≠ -1 := by
    rw [Ne, hrefused]
    simp [Refused, hchars, ramfsMaxFiles]
  have hone := hstart.register hname hcall
  rw [if_neg hok, List.nil_append, hchars] at hone
  refine ⟨files, hone, ?_⟩
  have hfound := ((ramfs_exact_map hone).2.1 [97, 0] hname).1 0
  exact hfound.mpr ⟨_, rfl, hchars.symm⟩

end StakOS.Ramfs
