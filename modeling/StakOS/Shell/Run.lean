import Mathlib.Data.List.Forall2
import Mathlib.Data.List.Nodup
import StakOS.Shell.Parse

/-!
# The shell's line discipline

`shell_run` edits a line in the input buffer, character by character, and
dispatches it at each newline.  Between newlines the buffer holds the edited line
followed by whatever earlier lines left behind; only the bytes before `buf_len`
matter, so a shorter line never sees the end of a longer one.
-/

namespace StakOS.Shell

open StakOS.Lib.CString

/-- The functions of the command table. -/
inductive CmdFn where
  | help | clear | echo | meminfo | memtest | hexdump | heapinfo | heaptest | ps | sleep | uptime
  | vminfo | synctest | elftest | fstest | ls | run | shutdown
deriving DecidableEq

/-- `commands`, without the help texts and the sentinel. -/
def commands : List (String × CmdFn) :=
  [("help", .help), ("clear", .clear), ("echo", .echo), ("meminfo", .meminfo),
    ("memtest", .memtest), ("hexdump", .hexdump), ("heapinfo", .heapinfo),
    ("heaptest", .heaptest), ("ps", .ps), ("sleep", .sleep), ("uptime", .uptime),
    ("vminfo", .vminfo), ("synctest", .synctest), ("elftest", .elftest), ("fstest", .fstest),
    ("ls", .ls), ("run", .run), ("shutdown", .shutdown)]

/-- The bytes of a string literal, without its NUL. -/
def bytes (s : String) : List UInt8 := s.toList.map fun c => UInt8.ofNat c.toNat

/-! ## The functions of `shell.c` -/

def shStrcmp : List UInt8 → List UInt8 → Option Int
  | a :: as, b :: bs =>
      if a ≠ 0 ∧ b ≠ 0 ∧ a = b then shStrcmp as bs else some ((a.toNat : Int) - b.toNat)
  | _, _ => none

/-- What `dispatch` does with the arguments it has parsed. -/
inductive Action where
  | nothing
  | run (fn : CmdFn) (argv : List Nat)
  | unknown (arg0 : Nat)
deriving DecidableEq

/-- A dispatched line: the buffer, the arguments as positions in it, and what
was done. -/
structure Dispatch where
  buf : Buf
  argv : List Nat
  action : Action

/-- The loop over the command table. -/
def findCommand (arg0 : List UInt8) : List (String × CmdFn) → Option (Option CmdFn)
  | [] => some none
  | (name, fn) :: rest =>
      (shStrcmp arg0 (bytes name ++ [0])).bind fun d =>
        if d = 0 then some (some fn) else findCommand arg0 rest

def dispatch (line : Buf) : Option Dispatch :=
  (parse line argvMax).bind fun (buf, argv) =>
    match argv with
    | [] => some ⟨buf, [], .nothing⟩
    | arg0 :: _ => (findCommand (buf.toList.drop arg0) commands).map fun found =>
        match found with
        | some fn => ⟨buf, argv, .run fn argv⟩
        | none => ⟨buf, argv, .unknown arg0⟩

/-- `buf` and `buf_len`. -/
structure State where
  buf : Buf
  bufLen : Nat

/-- What the shell does to the outside: characters echoed, lines dispatched, the
prompt. -/
inductive Output where
  | putchar (c : UInt8)
  | dispatched (d : Dispatch)
  | prompt

/-- The body of the loop of `shell_run`, given what `keyboard_getchar` returned. -/
def shellStep (s : State) (c : UInt8) : Option (State × List Output) :=
  if c = 0 then some (s, [])
  else if c = 8 then
    if 0 < s.bufLen then some (⟨s.buf, s.bufLen - 1⟩, [.putchar 8]) else some (s, [])
  else if c = 10 then
    (s.buf.store s.bufLen 0).bind fun buf => (dispatch buf).map fun d =>
      (⟨d.buf, 0⟩, [.putchar 10, .dispatched d, .prompt])
  else if s.bufLen < inputMax - 1 then
    (s.buf.store s.bufLen c).map fun buf => (⟨buf, s.bufLen + 1⟩, [.putchar c])
  else some (s, [])

def shellRun (s : State) : List UInt8 → Option (State × List Output)
  | [] => some (s, [])
  | c :: cs =>
      (shellStep s c).bind fun (s, out) => (shellRun s cs).map fun (s, outs) => (s, out ++ outs)

/-! ## What the user typed -/

/-- The effect of one character on the line being edited. -/
def edit (line : List UInt8) (c : UInt8) : List UInt8 :=
  if c = 0 then line
  else if c = 8 then line.dropLast
  else if line.length < 255 then line ++ [c]
  else line

/-- The edited lines that the characters complete, after `line`. -/
def editedLines (line : List UInt8) : List UInt8 → List (List UInt8)
  | [] => []
  | c :: cs => if c = 10 then line :: editedLines [] cs else editedLines (edit line c) cs

/-- The lines dispatched among the outputs. -/
def dispatches (outs : List Output) : List Dispatch :=
  outs.filterMap fun o => match o with
    | .dispatched d => some d
    | _ => none

/-- A dispatch that does what the line asks for. -/
structure Follows (d : Dispatch) (line : List UInt8) : Prop where
  /-- The arguments are the first sixteen words of the line. -/
  argv : d.argv.map (fun a => chars (d.buf.toList.drop a)) = (words line).take argvMax
  /-- Each ends inside the buffer. -/
  terminated : ∀ a ∈ d.argv, Terminated (d.buf.toList.drop a)
  /-- A blank line does nothing. -/
  blank : d.action = .nothing ↔ words line = []
  /-- A command runs, on these arguments, exactly when its name is the first word. -/
  command : ∀ fn argv, d.action = .run fn argv ↔
    argv = d.argv ∧ ∃ name, (name, fn) ∈ commands ∧ (words line).head? = some (bytes name)
  /-- Any other word is reported. -/
  unknown : (∃ arg0, d.action = .unknown arg0) ↔
    ∃ w, (words line).head? = some w ∧ ∀ name fn, (name, fn) ∈ commands → w ≠ bytes name

/-! ## The command table -/

theorem shStrcmp_spec {a b : List UInt8} (ha : Terminated a) (hb : Terminated b) :
    ∃ d, shStrcmp a b = some d ∧ (d = 0 ↔ chars a = chars b) := by
  induction a generalizing b with
  | nil => exact absurd ha not_terminated_nil
  | cons x a ih =>
      cases b with
      | nil => exact absurd hb not_terminated_nil
      | cons y b =>
          by_cases hgo : x ≠ 0 ∧ y ≠ 0 ∧ x = y
          · obtain ⟨hx, hy, hxy⟩ := hgo
            obtain ⟨d, hd, hiff⟩ := ih (ha.tail hx) (hb.tail hy)
            refine ⟨d, by rw [shStrcmp, if_pos ⟨hx, hy, hxy⟩]; exact hd, ?_⟩
            rw [chars_cons hx, chars_cons hy, hxy, hiff, List.cons.injEq]
            simp
          · refine ⟨(x.toNat : Int) - y.toNat, by rw [shStrcmp, if_neg hgo], ?_⟩
            have hsub : ((x.toNat : Int) - y.toNat = 0) ↔ x = y := by
              rw [← UInt8.toNat_inj]
              omega
            rw [hsub]
            by_cases hx : x = 0
            · by_cases hy : y = 0
              · simp [hx, hy]
              · simp [hx, chars_cons hy, Ne.symm hy]
            · by_cases hy : y = 0
              · simp [hy, chars_cons hx, hx]
              · have hxy : x ≠ y := fun heq => hgo ⟨hx, hy, heq⟩
                simp [chars_cons hx, chars_cons hy, hxy]

/-- No name of the table contains a NUL. -/
theorem commands_no_nul : ∀ e ∈ commands, 0 ∉ bytes e.1 := by decide

/-- The names of the table are distinct. -/
theorem commands_nodup : (commands.map fun e => bytes e.1).Nodup := by decide

/-- The loop over the table finds the entry with the name, or there is none. -/
theorem findCommand_spec {arg0 : List UInt8} (harg : Terminated arg0)
    (table : List (String × CmdFn)) (hnul : ∀ e ∈ table, 0 ∉ bytes e.1) :
    (∃ name fn, (name, fn) ∈ table ∧ chars arg0 = bytes name ∧
      findCommand arg0 table = some (some fn)) ∨
    ((∀ name fn, (name, fn) ∈ table → chars arg0 ≠ bytes name) ∧
      findCommand arg0 table = some none) := by
  induction table with
  | nil => exact Or.inr ⟨by simp, rfl⟩
  | cons e table ih =>
      obtain ⟨name, fn⟩ := e
      have hname : 0 ∉ bytes name := hnul (name, fn) (by simp)
      obtain ⟨d, hd, hiff⟩ := shStrcmp_spec harg (terminated_append_zero (bytes name) [])
      rw [chars_append_zero hname] at hiff
      rw [findCommand, hd, Option.bind_some]
      by_cases hzero : d = 0
      · left
        exact ⟨name, fn, by simp, hiff.mp hzero, if_pos hzero⟩
      · rw [if_neg hzero]
        rcases ih fun e he => hnul e (by simp [he]) with
          ⟨n, f, hmem, hchars, hfind⟩ | ⟨hnone, hfind⟩
        · exact Or.inl ⟨n, f, by simp [hmem], hchars, hfind⟩
        · refine Or.inr ⟨?_, hfind⟩
          intro n f hmem
          rcases List.mem_cons.mp hmem with hhead | htail
          · cases hhead
            exact fun heq => hzero (hiff.mpr heq)
          · exact hnone n f htail

theorem command_unique {name name' : String} {fn fn' : CmdFn} (h : (name, fn) ∈ commands)
    (h' : (name', fn') ∈ commands) (heq : bytes name = bytes name') : fn = fn' := by
  have hinj := List.inj_on_of_nodup_map commands_nodup h h' heq
  exact congrArg Prod.snd hinj

/-- Dispatching a buffer that holds a line follows the line. -/
theorem dispatch_spec {buf : Buf} {line junk : List UInt8}
    (hbuf : buf.toList = line ++ 0 :: junk) (hline : 0 ∉ line) :
    ∃ d, dispatch buf = some d ∧ Follows d line := by
  obtain ⟨buf', argv, hparse, hargs, hterm⟩ := parse_spec argvMax hbuf hline
  unfold dispatch
  rw [hparse, Option.bind_some]
  cases argv with
  | nil =>
      have hwords : words line = [] := by
        rw [List.map_nil, eq_comm, List.take_eq_nil_iff] at hargs
        exact hargs.resolve_left (by decide)
      refine ⟨_, rfl, hargs, hterm, ?_, ?_, ?_⟩
      · simp [hwords]
      · simp [hwords]
      · simp [hwords]
  | cons arg0 rest =>
      have hfirst : (words line).head? = some (chars (buf'.toList.drop arg0)) := by
        cases hw : words line with
        | nil => rw [hw] at hargs; simp at hargs
        | cons w ws =>
            rw [hw, argvMax, List.take_succ_cons, List.map_cons, List.cons.injEq] at hargs
            rw [List.head?_cons, hargs.1]
      have hne : words line ≠ [] := by
        intro hnil
        rw [hnil] at hfirst
        cases hfirst
      rcases findCommand_spec (hterm arg0 (by simp)) commands commands_no_nul with
        ⟨name, fn, hmem, hchars, hfind⟩ | ⟨hnone, hfind⟩
      · simp only [hfind, Option.map_some]
        refine ⟨_, rfl, hargs, hterm, ?_, ?_, ?_⟩
        · simp [hne]
        · intro fn' argv'
          rw [hfirst]
          constructor
          · intro hrun
            cases hrun
            exact ⟨rfl, name, hmem, congrArg some hchars⟩
          · intro hrun
            obtain ⟨hargv, name', hmem', hname'⟩ := hrun
            have heq : bytes name = bytes name' := hchars.symm.trans (Option.some.inj hname')
            rw [hargv, command_unique hmem hmem' heq]
        · rw [hfirst]
          constructor
          · intro hunk
            obtain ⟨a, ha⟩ := hunk
            cases ha
          · intro hunk
            obtain ⟨w, hw, hall⟩ := hunk
            rw [← Option.some.inj hw] at hall
            exact absurd hchars (hall name fn hmem)
      · simp only [hfind, Option.map_some]
        refine ⟨_, rfl, hargs, hterm, ?_, ?_, ?_⟩
        · simp [hne]
        · intro fn' argv'
          rw [hfirst]
          constructor
          · intro hrun
            cases hrun
          · intro hrun
            obtain ⟨-, name', hmem', hname'⟩ := hrun
            exact absurd (Option.some.inj hname') (hnone name' fn' hmem')
        · rw [hfirst]
          exact iff_of_true ⟨arg0, rfl⟩ ⟨_, rfl, hnone⟩

/-! ## Editing -/

/-- The buffer holds the edited line in front. -/
structure HoldsLine (s : State) (line : List UInt8) : Prop where
  bufLen : s.bufLen = line.length
  room : line.length ≤ 255
  text : ∃ rest, s.buf.toList = line ++ rest
  noNul : 0 ∉ line

/-- There is always room for one more byte behind the line. -/
theorem HoldsLine.store {s : State} {line : List UInt8} (h : HoldsLine s line) (c : UInt8) :
    ∃ buf junk, s.buf.store s.bufLen c = some buf ∧ buf.toList = line ++ c :: junk := by
  obtain ⟨rest, hrest⟩ := h.text
  have hlen := s.buf.length_toList
  rw [hrest, List.length_append] at hlen
  have hroom := h.room
  cases rest with
  | nil =>
      rw [List.length_nil] at hlen
      unfold inputMax at hlen
      omega
  | cons b junk =>
      obtain ⟨buf, hstore, hbuf⟩ := store_of_append hrest c
      rw [h.bufLen]
      exact ⟨buf, junk, hstore, hbuf⟩

/-- A newline dispatches the line and empties it. -/
theorem HoldsLine.newline {s : State} {line : List UInt8} (h : HoldsLine s line) :
    ∃ s' d, shellStep s 10 = some (s', [.putchar 10, .dispatched d, .prompt]) ∧ Follows d line ∧
      HoldsLine s' [] := by
  obtain ⟨buf, junk, hstore, hbuf⟩ := h.store 0
  obtain ⟨d, hd, hfollows⟩ := dispatch_spec hbuf h.noNul
  refine ⟨⟨d.buf, 0⟩, d, ?_, hfollows, ⟨rfl, by simp, ⟨_, rfl⟩, by simp⟩⟩
  unfold shellStep
  rw [if_neg (by decide), if_neg (by decide), if_pos rfl, hstore, Option.bind_some, hd]
  rfl

/-- Any other character edits the line and dispatches nothing. -/
theorem HoldsLine.edit {s : State} {line : List UInt8} (h : HoldsLine s line) {c : UInt8}
    (hc : c ≠ 10) :
    ∃ s' out, shellStep s c = some (s', out) ∧ dispatches out = [] ∧
      HoldsLine s' (Shell.edit line c) := by
  unfold shellStep Shell.edit
  by_cases hzero : c = 0
  · rw [if_pos hzero, if_pos hzero]
    exact ⟨s, [], rfl, rfl, h⟩
  rw [if_neg hzero, if_neg hzero]
  by_cases hback : c = 8
  · rw [if_pos hback, if_pos hback]
    by_cases hlen : 0 < s.bufLen
    · rw [if_pos hlen]
      refine ⟨_, _, rfl, rfl, ?_⟩
      obtain ⟨rest, hrest⟩ := h.text
      have hne : line ≠ [] := by
        rw [h.bufLen] at hlen
        exact List.length_pos_iff.mp hlen
      constructor
      · rw [List.length_dropLast]
        exact congrArg (· - 1) h.bufLen
      · have hroom := h.room
        rw [List.length_dropLast]
        omega
      · refine ⟨line.getLast hne :: rest, ?_⟩
        show s.buf.toList = _
        calc s.buf.toList = line ++ rest := hrest
          _ = line.dropLast ++ [line.getLast hne] ++ rest := by
              rw [List.dropLast_append_getLast hne]
          _ = line.dropLast ++ line.getLast hne :: rest := by
              rw [List.append_assoc, List.singleton_append]
      · exact fun hmem => h.noNul ((List.dropLast_sublist line).subset hmem)
    · rw [if_neg hlen]
      have hnil : line = [] := by
        rw [h.bufLen] at hlen
        exact List.length_eq_zero_iff.mp (by omega)
      refine ⟨s, [], rfl, rfl, ?_⟩
      rw [hnil] at h ⊢
      exact h
  rw [if_neg hback, if_neg hback, if_neg hc]
  by_cases hroom : line.length < 255
  · rw [if_pos (by rw [h.bufLen]; exact hroom), if_pos hroom]
    obtain ⟨buf, junk, hstore, hbuf⟩ := h.store c
    rw [hstore]
    refine ⟨_, _, rfl, rfl, ?_, ?_, ⟨junk, ?_⟩, ?_⟩
    · rw [List.length_append, List.length_singleton]
      exact congrArg (· + 1) h.bufLen
    · rw [List.length_append, List.length_singleton]
      omega
    · show buf.toList = _
      rw [hbuf, List.append_assoc, List.singleton_append]
    · rw [List.mem_append, List.mem_singleton, not_or]
      exact ⟨h.noNul, Ne.symm hzero⟩
  · rw [if_neg (by rw [h.bufLen]; exact hroom), if_neg hroom]
    exact ⟨s, [], rfl, rfl, h⟩

theorem dispatches_append (outs outs' : List Output) :
    dispatches (outs ++ outs') = dispatches outs ++ dispatches outs' :=
  List.filterMap_append

theorem shellRun_cons {s s' s'' : State} {c : UInt8} {cs : List UInt8} {out outs : List Output}
    (hstep : shellStep s c = some (s', out)) (hrest : shellRun s' cs = some (s'', outs)) :
    shellRun s (c :: cs) = some (s'', out ++ outs) := by
  rw [shellRun, hstep, Option.bind_some]
  simp only [hrest, Option.map_some]

/-- From a buffer that holds `line`, the dispatches follow the lines that the
characters complete. -/
theorem HoldsLine.run {s : State} {line : List UInt8} (h : HoldsLine s line)
    (typed : List UInt8) :
    ∃ s' outs, shellRun s typed = some (s', outs) ∧
      List.Forall₂ Follows (dispatches outs) (editedLines line typed) := by
  induction typed generalizing s line with
  | nil => exact ⟨s, [], rfl, List.Forall₂.nil⟩
  | cons c typed ih =>
      by_cases hc : c = 10
      · obtain ⟨s', d, hstep, hfollows, hempty⟩ := h.newline
        obtain ⟨s'', outs, hrest, hall⟩ := ih hempty
        rw [← hc] at hstep
        refine ⟨s'', _, shellRun_cons hstep hrest, ?_⟩
        rw [dispatches_append, editedLines, if_pos hc]
        exact List.Forall₂.cons hfollows hall
      · obtain ⟨s', out, hstep, hnone, hedit⟩ := h.edit hc
        obtain ⟨s'', outs, hrest, hall⟩ := ih hedit
        refine ⟨s'', _, shellRun_cons hstep hrest, ?_⟩
        rw [dispatches_append, hnone, List.nil_append, editedLines, if_neg hc]
        exact hall

/-- **The shell's line discipline**: whatever is typed, the shell never leaves its
buffer, and its dispatches follow the edited lines one by one. -/
theorem line_discipline (buf : Buf) (typed : List UInt8) :
    ∃ s outs, shellRun ⟨buf, 0⟩ typed = some (s, outs) ∧
      List.Forall₂ Follows (dispatches outs) (editedLines [] typed) := by
  have hstart : HoldsLine ⟨buf, 0⟩ [] := ⟨rfl, by simp, ⟨_, rfl⟩, by simp⟩
  exact hstart.run typed

end StakOS.Shell
