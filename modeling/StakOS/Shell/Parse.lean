import Mathlib.Data.List.TakeWhile
import StakOS.Lib.CString

/-!
# Splitting a line in place

`parse` of `shell/shell.c` walks over the input buffer, collects pointers to the
words and overwrites the blank behind each word with a NUL.  A load or store
outside the buffer is the result `none`.

What it leaves in front of its cursor is final, so the walk is an induction on
the number of words it may still take.
-/

namespace StakOS.Shell

open StakOS.Lib.CString

def inputMax : Nat := 256
def argvMax : Nat := 16

abbrev Buf := Vector UInt8 inputMax

/-- `' '` or `'\t'`. -/
def isBlank (c : UInt8) : Bool := c = 32 || c = 9

def Buf.store (buf : Buf) (p : Nat) (c : UInt8) : Option Buf :=
  if h : p < inputMax then some (buf.set p c h) else none

/-! ## The functions of `shell.c` -/

/-- `while (*p == ' ' || *p == '\t') p++`, on the bytes from `p` on. -/
def skipBlanks : List UInt8 → Nat → Option Nat
  | c :: s, p => if isBlank c then skipBlanks s (p + 1) else some p
  | [], _ => none

/-- `while (*p && *p != ' ' && *p != '\t') p++`. -/
def skipWord : List UInt8 → Nat → Option Nat
  | c :: s, p => if c ≠ 0 ∧ !isBlank c then skipWord s (p + 1) else some p
  | [], _ => none

/-- The loop of `parse` with room for `room` more arguments. -/
def parseFrom (buf : Buf) (p : Nat) (argv : List Nat) : Nat → Option (Buf × List Nat)
  | 0 => buf[p]?.map fun _ => (buf, argv)
  | room + 1 =>
      buf[p]?.bind fun c =>
        if c = 0 then some (buf, argv)
        else (skipBlanks (buf.toList.drop p) p).bind fun q => buf[q]?.bind fun c =>
          if c = 0 then some (buf, argv)
          else (skipWord (buf.toList.drop q) q).bind fun e => buf[e]?.bind fun c =>
            if c ≠ 0 then
              (buf.store e 0).bind fun buf => parseFrom buf (e + 1) (argv ++ [q]) room
            else parseFrom buf e (argv ++ [q]) room

/-- `parse`: the buffer afterwards and the arguments, as positions in it. -/
def parse (buf : Buf) (maxArgs : Nat) : Option (Buf × List Nat) := parseFrom buf 0 [] maxArgs

/-! ## Words -/

/-- The maximal runs of characters other than blanks. -/
def words (line : List UInt8) : List (List UInt8) :=
  (line.splitOnP isBlank).filter (· ≠ [])

theorem words_append_blank (front rest : List UInt8) {b : UInt8} (hb : isBlank b = true) :
    words (front ++ b :: rest) = words front ++ words rest := by
  unfold words
  rw [List.splitOnP_append_cons _ _ hb, List.filter_append]

theorem words_blank_cons {b : UInt8} (hb : isBlank b = true) (rest : List UInt8) :
    words (b :: rest) = words rest := words_append_blank [] rest hb

theorem words_blanks {blanks : List UInt8} (h : ∀ b ∈ blanks, isBlank b = true)
    (rest : List UInt8) : words (blanks ++ rest) = words rest := by
  induction blanks with
  | nil => rfl
  | cons b blanks ih =>
      rw [List.cons_append, words_blank_cons (h b (by simp)), ih fun x hx => h x (by simp [hx])]

theorem words_word {w : List UInt8} (hw : ∀ c ∈ w, isBlank c = false) (hne : w ≠ []) :
    words w = [w] := by
  unfold words
  rw [List.splitOnP_eq_singleton hw]
  simp [hne]

/-! ## The two inner loops -/

/-- The blanks a text starts with, and what follows them. -/
theorem skipBlanks_append {blanks : List UInt8} (h : ∀ b ∈ blanks, isBlank b = true)
    {c : UInt8} (hc : isBlank c = false) (rest : List UInt8) (p : Nat) :
    skipBlanks (blanks ++ c :: rest) p = some (p + blanks.length) := by
  induction blanks generalizing p with
  | nil =>
      rw [List.nil_append, skipBlanks, if_neg (by simp [hc])]
      rfl
  | cons b blanks ih =>
      rw [List.cons_append, skipBlanks, if_pos (h b (by simp)), ih fun x hx => h x (by simp [hx]),
        List.length_cons]
      congr 1
      omega

theorem skipWord_append {w : List UInt8} (hw : ∀ c ∈ w, c ≠ 0 ∧ isBlank c = false) {c : UInt8}
    (hc : c = 0 ∨ isBlank c = true) (rest : List UInt8) (p : Nat) :
    skipWord (w ++ c :: rest) p = some (p + w.length) := by
  induction w generalizing p with
  | nil =>
      have hstop : ¬(c ≠ 0 ∧ (!isBlank c) = true) := by
        rcases hc with hzero | hblank
        · simp [hzero]
        · simp [hblank]
      rw [List.nil_append, skipWord, if_neg hstop]
      rfl
  | cons d w ih =>
      have hd := hw d (by simp)
      rw [List.cons_append, skipWord, if_pos (by simp [hd.1, hd.2]),
        ih fun x hx => hw x (by simp [hx]), List.length_cons]
      congr 1
      omega

/-- A text is its blanks, its first word, and the rest, which is empty or starts
with a blank. -/
theorem split_first_word (text : List UInt8) :
    ∃ blanks w rest, text = blanks ++ (w ++ rest) ∧ (∀ b ∈ blanks, isBlank b = true) ∧
      (∀ c ∈ w, isBlank c = false) ∧ (w = [] → rest = []) ∧
      (rest = [] ∨ ∃ b more, rest = b :: more ∧ isBlank b = true) := by
  have hsplit : text = text.takeWhile isBlank ++ text.dropWhile isBlank :=
    (List.takeWhile_append_dropWhile).symm
  have hword : text.dropWhile isBlank =
      (text.dropWhile isBlank).takeWhile (fun c => !isBlank c) ++
        (text.dropWhile isBlank).dropWhile (fun c => !isBlank c) :=
    (List.takeWhile_append_dropWhile).symm
  refine ⟨text.takeWhile isBlank, (text.dropWhile isBlank).takeWhile fun c => !isBlank c,
    (text.dropWhile isBlank).dropWhile fun c => !isBlank c, ?_, ?_, ?_, ?_, ?_⟩
  · rw [← hword, ← hsplit]
  · intro b hb
    exact List.mem_takeWhile_imp hb
  · intro c hc
    simpa using List.mem_takeWhile_imp hc
  · intro hnil
    -- the first character behind the blanks is none, so a word starts with it
    cases hrest : text.dropWhile isBlank with
    | nil => rfl
    | cons c more =>
        have hc : isBlank c = false := by
          have hhead := List.head?_dropWhile_not isBlank text
          rw [hrest] at hhead
          simpa using hhead
        rw [hrest, List.takeWhile_cons, if_pos (by simp [hc])] at hnil
        exact absurd hnil (List.cons_ne_nil _ _)
  · cases hrest : (text.dropWhile isBlank).dropWhile (fun c => !isBlank c) with
    | nil => exact Or.inl rfl
    | cons b more =>
        right
        refine ⟨b, more, rfl, ?_⟩
        have hhead := List.head?_dropWhile_not (fun c => !isBlank c) (text.dropWhile isBlank)
        rw [hrest] at hhead
        simpa using hhead

/-! ## The walk -/

section Access

variable {buf : Buf} {front back : List UInt8} {c : UInt8}

theorem getElem?_of_append (h : buf.toList = front ++ c :: back) :
    buf[front.length]? = some c := by
  rw [← Vector.getElem?_toList, h, List.getElem?_append_right (Nat.le_refl _), Nat.sub_self,
    List.getElem?_cons_zero]

theorem length_lt_of_append (h : buf.toList = front ++ c :: back) : front.length < inputMax := by
  have hlen := buf.length_toList
  rw [h, List.length_append, List.length_cons] at hlen
  omega

theorem store_of_append (h : buf.toList = front ++ c :: back) (d : UInt8) :
    ∃ buf', buf.store front.length d = some buf' ∧ buf'.toList = front ++ d :: back := by
  have hlt := length_lt_of_append h
  refine ⟨buf.set front.length d hlt, dif_pos hlt, ?_⟩
  rw [Vector.toList_set, h, List.set_append_right _ _ (Nat.le_refl _), Nat.sub_self,
    List.set_cons_zero]

end Access

/-- With nothing but blanks before the NUL the walk ends. -/
theorem parseFrom_blanks {buf : Buf} {pre : List UInt8} (blanks : List UInt8) {junk : List UInt8}
    (argv : List Nat) (room : Nat)
    (hbuf : buf.toList = pre ++ (blanks ++ 0 :: junk))
    (hblanks : ∀ b ∈ blanks, isBlank b = true) :
    parseFrom buf pre.length argv (room + 1) = some (buf, argv) := by
  rw [parseFrom]
  cases hcase : blanks with
  | nil =>
      rw [hcase, List.nil_append] at hbuf
      rw [getElem?_of_append hbuf, Option.bind_some, if_pos rfl]
  | cons b more =>
      have hb : b ≠ 0 := by
        intro hzero
        have hblank := hblanks b (by simp [hcase])
        rw [hzero] at hblank
        exact absurd hblank (by decide)
      have hend : buf.toList = (pre ++ blanks) ++ 0 :: junk := by
        rw [hbuf, List.append_assoc]
      have hfirst : buf.toList = pre ++ b :: (more ++ 0 :: junk) := by
        rw [hbuf, hcase, List.cons_append]
      have hskip : skipBlanks (buf.toList.drop pre.length) pre.length =
          some (pre ++ blanks).length := by
        rw [hbuf, List.drop_left, skipBlanks_append hblanks (by decide), List.length_append]
      rw [getElem?_of_append hfirst, Option.bind_some, if_neg hb, hskip, Option.bind_some,
        getElem?_of_append hend, Option.bind_some, if_pos rfl]

/-- At the NUL the walk ends, whatever room is left. -/
theorem parseFrom_nul {buf : Buf} {pre junk : List UInt8} (argv : List Nat) (room : Nat)
    (hbuf : buf.toList = pre ++ 0 :: junk) :
    parseFrom buf pre.length argv room = some (buf, argv) := by
  cases room with
  | zero =>
      rw [parseFrom, getElem?_of_append hbuf]
      rfl
  | succ room => exact parseFrom_blanks [] argv room hbuf (by simp)

/-- One turn of the walk over blanks, a word and the character behind it. -/
theorem parseFrom_word {buf : Buf} {pre blanks w back : List UInt8} {c : UInt8} (argv : List Nat)
    (room : Nat) (hbuf : buf.toList = pre ++ (blanks ++ (w ++ c :: back)))
    (hblanks : ∀ b ∈ blanks, isBlank b = true) (hw : ∀ c ∈ w, c ≠ 0 ∧ isBlank c = false)
    (hne : w ≠ []) (hc : c = 0 ∨ isBlank c = true) :
    parseFrom buf pre.length argv (room + 1) =
      if c ≠ 0 then
        (buf.store (pre ++ blanks ++ w).length 0).bind fun buf =>
          parseFrom buf ((pre ++ blanks ++ w).length + 1) (argv ++ [(pre ++ blanks).length]) room
      else parseFrom buf (pre ++ blanks ++ w).length (argv ++ [(pre ++ blanks).length]) room := by
  obtain ⟨d, more, hcase⟩ := List.exists_cons_of_ne_nil hne
  have hd : d ≠ 0 ∧ isBlank d = false := hw d (by simp [hcase])
  have hstart : buf.toList = (pre ++ blanks) ++ d :: (more ++ c :: back) := by
    rw [hbuf, hcase, List.append_assoc, List.cons_append]
  have hend : buf.toList = (pre ++ blanks ++ w) ++ c :: back := by
    rw [hbuf]
    simp only [List.append_assoc]
  have hfirst : ∃ f, f ≠ 0 ∧ buf[pre.length]? = some f := by
    cases hb : blanks with
    | nil =>
        rw [hb, List.append_nil] at hstart
        exact ⟨d, hd.1, getElem?_of_append hstart⟩
    | cons b bs =>
        have hblank := hblanks b (by simp [hb])
        rw [hb, List.cons_append] at hbuf
        refine ⟨b, fun hzero => ?_, getElem?_of_append hbuf⟩
        rw [hzero] at hblank
        exact absurd hblank (by decide)
  obtain ⟨f, hf, hread⟩ := hfirst
  have hskip : skipBlanks (buf.toList.drop pre.length) pre.length =
      some (pre ++ blanks).length := by
    rw [hbuf, List.drop_left, hcase, List.cons_append, skipBlanks_append hblanks hd.2,
      List.length_append]
  have hword : skipWord (buf.toList.drop (pre ++ blanks).length) (pre ++ blanks).length =
      some (pre ++ blanks ++ w).length := by
    have hlength : (pre ++ blanks ++ w).length = (pre ++ blanks).length + w.length :=
      List.length_append
    rw [hbuf, ← List.append_assoc, List.drop_left, skipWord_append hw hc, hlength]
  rw [parseFrom, hread, Option.bind_some, if_neg hf, hskip, Option.bind_some,
    getElem?_of_append hstart, Option.bind_some, if_neg hd.1, hword, Option.bind_some,
    getElem?_of_append hend, Option.bind_some]

/-- A word with a NUL behind it, read back from its position. -/
theorem chars_drop_word (front back : List UInt8) {w : List UInt8}
    (hw : ∀ c ∈ w, c ≠ 0 ∧ isBlank c = false) :
    chars ((front ++ (w ++ 0 :: back)).drop front.length) = w ∧
      Terminated ((front ++ (w ++ 0 :: back)).drop front.length) := by
  rw [List.drop_left]
  exact ⟨chars_append_zero (fun hzero => (hw 0 hzero).1 rfl) back, terminated_append_zero w back⟩

/-- The walk from behind `pre` over `text` stays in the buffer, leaves `pre` alone, and
takes the first `room` words, each of them NUL-terminated in the buffer it leaves. -/
def Takes (buf : Buf) (argv : List Nat) (room : Nat) (pre text : List UInt8) : Prop :=
  ∃ buf' args suffix, parseFrom buf pre.length argv room = some (buf', argv ++ args) ∧
    buf'.toList = pre ++ suffix ∧
    args.map (fun a => chars (buf'.toList.drop a)) = (words text).take room ∧
    ∀ a ∈ args, Terminated (buf'.toList.drop a)

section Word

variable {buf : Buf} {pre blanks w : List UInt8} {argv : List Nat} {room : Nat}

/-- Nothing is left but blanks. -/
theorem takes_blanks {junk : List UInt8} (hbuf : buf.toList = pre ++ (blanks ++ 0 :: junk))
    (hblanks : ∀ b ∈ blanks, isBlank b = true) : Takes buf argv (room + 1) pre blanks := by
  have hwords : words blanks = [] := by
    rw [← List.append_nil blanks, words_blanks hblanks]
    rfl
  refine ⟨buf, [], _, ?_, hbuf, by rw [hwords]; rfl, by simp⟩
  rw [parseFrom_blanks _ argv room hbuf hblanks, List.append_nil]

/-- The word ends at the NUL. -/
theorem takes_lastWord {junk : List UInt8}
    (hbuf : buf.toList = pre ++ (blanks ++ (w ++ 0 :: junk)))
    (hblanks : ∀ b ∈ blanks, isBlank b = true) (hw : ∀ c ∈ w, c ≠ 0 ∧ isBlank c = false)
    (hne : w ≠ []) : Takes buf argv (room + 1) pre (blanks ++ w) := by
  have hturn := parseFrom_word argv room hbuf hblanks hw hne (Or.inl rfl)
  have hend : buf.toList = (pre ++ blanks ++ w) ++ 0 :: junk := by
    rw [hbuf]
    simp only [List.append_assoc]
  rw [if_neg (not_not.mpr rfl), parseFrom_nul _ _ hend] at hturn
  have hread := chars_drop_word (pre ++ blanks) junk hw
  rw [List.append_assoc pre, ← hbuf] at hread
  refine ⟨buf, [(pre ++ blanks).length], _, hturn, hbuf, ?_, ?_⟩
  · rw [List.map_singleton, hread.1, words_blanks hblanks, words_word (fun c hc => (hw c hc).2) hne]
    simp
  · intro a ha
    rw [List.mem_singleton.mp ha]
    exact hread.2

/-- A blank follows the word and becomes its NUL; the walk goes on behind it. -/
theorem takes_word {buf₂ : Buf} {b : UInt8} {more back : List UInt8}
    (hbuf : buf.toList = pre ++ (blanks ++ (w ++ b :: back)))
    (hblanks : ∀ b ∈ blanks, isBlank b = true) (hw : ∀ c ∈ w, c ≠ 0 ∧ isBlank c = false)
    (hne : w ≠ []) (hb : isBlank b = true)
    (hstore : buf.store (pre ++ blanks ++ w).length 0 = some buf₂)
    (hrest : Takes buf₂ (argv ++ [(pre ++ blanks).length]) room (pre ++ blanks ++ w ++ [0]) more) :
    Takes buf argv (room + 1) pre (blanks ++ (w ++ b :: more)) := by
  have hbne : b ≠ 0 := by
    intro hzero
    rw [hzero] at hb
    exact absurd hb (by decide)
  have hturn := parseFrom_word argv room hbuf hblanks hw hne (Or.inr hb)
  obtain ⟨buf', args, suffix, hparse, hout, hargs, hterm⟩ := hrest
  have hlength : (pre ++ blanks ++ w ++ [0]).length = (pre ++ blanks ++ w).length + 1 :=
    List.length_append
  rw [hlength] at hparse
  rw [if_pos hbne, hstore, Option.bind_some, hparse, List.append_assoc argv] at hturn
  have hread := chars_drop_word (pre ++ blanks) suffix hw
  have hfinal : buf'.toList = pre ++ blanks ++ (w ++ 0 :: suffix) := by
    rw [hout]
    simp only [List.append_assoc, List.singleton_append]
  rw [← hfinal] at hread
  refine ⟨buf', (pre ++ blanks).length :: args, blanks ++ (w ++ 0 :: suffix), hturn, ?_, ?_, ?_⟩
  · rw [hfinal, List.append_assoc]
  · rw [List.map_cons, hread.1, hargs, words_blanks hblanks, words_append_blank _ _ hb,
      words_word (fun c hc => (hw c hc).2) hne]
    rfl
  · intro a ha
    rcases List.mem_cons.mp ha with hhead | htail
    · rw [hhead]
      exact hread.2
    · exact hterm a htail

end Word

theorem parseFrom_spec (room : Nat) {buf : Buf} {pre text junk : List UInt8} (argv : List Nat)
    (hbuf : buf.toList = pre ++ (text ++ 0 :: junk)) (htext : 0 ∉ text) :
    Takes buf argv room pre text := by
  induction room generalizing buf pre text argv with
  | zero =>
      -- the loop condition still reads the byte under the cursor
      have hread : ∃ c, buf[pre.length]? = some c := by
        cases text with
        | nil => exact ⟨0, getElem?_of_append hbuf⟩
        | cons c text => exact ⟨c, getElem?_of_append hbuf⟩
      obtain ⟨c, hc⟩ := hread
      refine ⟨buf, [], _, ?_, hbuf, by simp, by simp⟩
      rw [parseFrom, hc, List.append_nil]
      rfl
  | succ room ih =>
      obtain ⟨blanks, w, rest, rfl, hblanks, hw, hwnil, hrest⟩ := split_first_word text
      have hwz : ∀ c ∈ w, c ≠ 0 ∧ isBlank c = false := by
        intro c hc
        refine ⟨fun hzero => htext ?_, hw c hc⟩
        rw [← hzero]
        simp [hc]
      by_cases hne : w = []
      · have hnil := hwnil hne
        rw [hne, hnil, List.append_nil, List.append_nil] at hbuf ⊢
        exact takes_blanks hbuf hblanks
      · rcases hrest with hnil | ⟨b, more, hcons, hb⟩
        · rw [hnil, List.append_nil] at hbuf ⊢
          rw [List.append_assoc] at hbuf
          exact takes_lastWord hbuf hblanks hwz hne
        · have hline : buf.toList = pre ++ (blanks ++ (w ++ b :: (more ++ 0 :: junk))) := by
            rw [hbuf, hcons]
            simp only [List.append_assoc, List.cons_append]
          have hat : buf.toList = (pre ++ blanks ++ w) ++ b :: (more ++ 0 :: junk) := by
            rw [hline]
            simp only [List.append_assoc]
          obtain ⟨buf₂, hstore, hbuf₂⟩ := store_of_append hat 0
          have hnext : buf₂.toList = (pre ++ blanks ++ w ++ [0]) ++ (more ++ 0 :: junk) := by
            rw [hbuf₂]
            simp only [List.append_assoc, List.singleton_append]
          have hmore : 0 ∉ more := by
            intro hzero
            apply htext
            rw [hcons]
            simp [hzero]
          rw [hcons]
          exact takes_word hline hblanks hwz hne hb hstore (ih _ hnext hmore)

/-- **`parse`** on a buffer that holds a line: the words of the line, up to the
limit, as strings inside the buffer. -/
theorem parse_spec {buf : Buf} {line junk : List UInt8} (maxArgs : Nat)
    (hbuf : buf.toList = line ++ 0 :: junk) (hline : 0 ∉ line) :
    ∃ buf' argv, parse buf maxArgs = some (buf', argv) ∧
      argv.map (fun a => chars (buf'.toList.drop a)) = (words line).take maxArgs ∧
      ∀ a ∈ argv, Terminated (buf'.toList.drop a) := by
  have hfront : buf.toList = [] ++ (line ++ 0 :: junk) := hbuf
  obtain ⟨buf', argv, -, hparse, -, hargs, hterm⟩ := parseFrom_spec maxArgs [] hfront hline
  exact ⟨buf', argv, hparse, hargs, hterm⟩

end StakOS.Shell
