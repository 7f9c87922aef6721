import Mathlib.Data.Finset.Erase
import Mathlib.Data.Finset.Insert
import StakOS.Drivers.Keyboard

/-!
# The shift keys

Two keys drive the one `shift` flag of `keyboard_handler`.  The flag says whether the last
of their events was a press, which is not whether one of them is held: the release of one
key clears it while the other is still down.
-/

namespace StakOS.Drivers.Keyboard

/-! ## Keys -/

/-- A key goes down, or repeats while it is down, or comes up.  The codes of keys that are
not extended have seven bits. -/
inductive KeyEvent where
  | press (key : Fin 128)
  | release (key : Fin 128)

namespace KeyEvent

/-- The make or break code. -/
def scancode : KeyEvent → UInt8
  | press key => UInt8.ofNat key
  | release key => UInt8.ofNat (key + 128)

/-- The keys that are down after the event. -/
def after (down : Finset (Fin 128)) : KeyEvent → Finset (Fin 128)
  | press key => insert key down
  | release key => down.erase key

/-- Only a key that is down comes up. -/
def Possible (down : Finset (Fin 128)) : KeyEvent → Prop
  | press _ => True
  | release key => key ∈ down

end KeyEvent

def Typed : Finset (Fin 128) → List KeyEvent → Prop
  | _, [] => True
  | down, e :: es => e.Possible down ∧ Typed (e.after down) es

def IsShift (key : Fin 128) : Prop := key = 0x2A ∨ key = 0x36

instance : DecidablePred IsShift := fun key => inferInstanceAs (Decidable (key = 0x2A ∨ key = 0x36))

def ShiftHeld (down : Finset (Fin 128)) : Prop := ∃ key ∈ down, IsShift key

instance : DecidablePred ShiftHeld := fun down =>
  inferInstanceAs (Decidable (∃ key ∈ down, IsShift key))

/-- What a key stands for; 0 is no character. -/
def translation (shifted : Bool) (key : Fin 128) : UInt8 :=
  if shifted then scAsciiShift.getD key 0 else scAscii.getD key 0

/-- The two tables have the same keys. -/
theorem translation_eq_zero : ∀ key : Fin 128,
    translation true key = 0 ↔ translation false key = 0 := by decide

theorem translation_of_isShift {key : Fin 128} (h : IsShift key) (shifted : Bool) :
    translation shifted key = 0 := by
  revert shifted
  rcases h with rfl | rfl
  · decide
  · decide

theorem translation_of_length_le {key : Fin 128} (h : scAscii.length ≤ key) (shifted : Bool) :
    translation shifted key = 0 := by
  have hlen : scAsciiShift.length = scAscii.length := by decide
  unfold translation
  rw [List.getD_eq_getElem?_getD, List.getD_eq_getElem?_getD, List.getElem?_eq_none h,
    List.getElem?_eq_none (hlen.trans_le h), ite_self, Option.getD_none]

/-! ## What the handler does with a key -/

/-- The character that `keyboard_handler` gives to `kb_buf_push`. -/
def offered (s : State) (sc : UInt8) : Option UInt8 :=
  if sc &&& 0x80 ≠ 0 then none
  else if sc = 0x2A ∨ sc = 0x36 then none
  else if sc.toNat < scAscii.length then
    let c := if s.shift ≠ 0 then scAsciiShift.getD sc.toNat 0 else scAscii.getD sc.toNat 0
    if c ≠ 0 then some c else none
  else none

theorem keyboardHandler_offered (s : State) (sc : UInt8) :
    (keyboardHandler s sc).ring = match offered s sc with
      | some c => kbBufPush s.ring c
      | none => s.ring := by
  unfold keyboardHandler offered
  by_cases hbreak : sc &&& 0x80 ≠ 0
  · rw [if_pos hbreak, if_pos hbreak]
    simp only
    split <;> rfl
  · rw [if_neg hbreak, if_neg hbreak]
    by_cases hshift : sc = 0x2A ∨ sc = 0x36
    · rw [if_pos hshift, if_pos hshift]
    · rw [if_neg hshift, if_neg hshift]
      by_cases htable : sc.toNat < scAscii.length
      · rw [if_pos htable, if_pos htable]
        simp only
        generalize (if s.shift ≠ 0 then scAsciiShift.getD sc.toNat 0
          else scAscii.getD sc.toNat 0) = c
        by_cases hc : c ≠ 0
        · rw [if_pos hc, if_pos hc]
        · rw [if_neg hc, if_neg hc]
      · rw [if_neg htable, if_neg htable]

theorem scancode_press : ∀ key : Fin 128, (KeyEvent.press key).scancode &&& 0x80 = 0 ∧
    (KeyEvent.press key).scancode.toNat = key ∧
    ((KeyEvent.press key).scancode = 0x2A ∨ (KeyEvent.press key).scancode = 0x36 ↔
      IsShift key) := by decide

theorem scancode_release : ∀ key : Fin 128, (KeyEvent.release key).scancode &&& 0x80 ≠ 0 ∧
    ((KeyEvent.release key).scancode &&& 0x7F = 0x2A ∨
      (KeyEvent.release key).scancode &&& 0x7F = 0x36 ↔ IsShift key) := by decide

theorem offered_release (s : State) (key : Fin 128) :
    offered s (KeyEvent.release key).scancode = none := by
  unfold offered
  rw [if_pos (scancode_release key).1]

/-- A make code is offered as the flag says, if the key has a character. -/
theorem offered_press (s : State) (key : Fin 128) :
    offered s (KeyEvent.press key).scancode =
      if translation (decide (s.shift ≠ 0)) key = 0 then none
      else some (translation (decide (s.shift ≠ 0)) key) := by
  obtain ⟨hmake, hcode, hkey⟩ := scancode_press key
  unfold offered
  rw [if_neg (not_not.2 hmake), hcode]
  have htranslation : (if s.shift ≠ 0 then scAsciiShift.getD key 0 else scAscii.getD key 0) =
      translation (decide (s.shift ≠ 0)) key := by
    unfold translation
    simp only [decide_eq_true_eq]
  by_cases hshift : IsShift key
  · rw [if_pos (hkey.2 hshift), if_pos (translation_of_isShift hshift _)]
  · rw [if_neg fun h => hshift (hkey.1 h)]
    by_cases htable : (key : Nat) < scAscii.length
    · rw [if_pos htable]
      simp only [htranslation, ite_not]
    · rw [if_neg htable, if_pos (translation_of_length_le (not_lt.1 htable) _)]

theorem shift_press (s : State) (key : Fin 128) :
    (keyboardHandler s (KeyEvent.press key).scancode).shift =
      if IsShift key then 1 else s.shift := by
  obtain ⟨hmake, -, hkey⟩ := scancode_press key
  unfold keyboardHandler
  rw [if_neg (not_not.2 hmake)]
  by_cases hshift : IsShift key
  · rw [if_pos (hkey.2 hshift), if_pos hshift]
  · rw [if_neg (fun h => hshift (hkey.1 h)), if_neg hshift]
    simp only
    generalize (if s.shift ≠ 0 then scAsciiShift.getD (KeyEvent.press key).scancode.toNat 0
      else scAscii.getD (KeyEvent.press key).scancode.toNat 0) = c
    split
    · split <;> rfl
    · rfl

theorem shift_release (s : State) (key : Fin 128) :
    (keyboardHandler s (KeyEvent.release key).scancode).shift =
      if IsShift key then 0 else s.shift := by
  obtain ⟨hbreak, hkey⟩ := scancode_release key
  unfold keyboardHandler
  rw [if_pos hbreak]
  by_cases hshift : IsShift key
  · simp only
    rw [if_pos (hkey.2 hshift), if_pos hshift]
  · simp only
    rw [if_neg (fun h => hshift (hkey.1 h)), if_neg hshift]

/-! ## Histories -/

/-- The character offered for the event, if there is one, is that of the key which went
down, shifted exactly if a shift key is held. -/
def Right (s : State) (down : Finset (Fin 128)) (e : KeyEvent) : Prop :=
  ∀ c ∈ offered s e.scancode,
    ∃ key, e = .press key ∧ c = translation (decide (ShiftHeld down)) key

/-- `keyboard_handler` runs once for each event. -/
def AllRight : State → Finset (Fin 128) → List KeyEvent → Prop
  | _, _, [] => True
  | s, down, e :: es => Right s down e ∧ AllRight (keyboardHandler s e.scancode) (e.after down) es

/-- Whether the last event of a shift key was a press. -/
def KeyEvent.lastPress (last : Bool) : KeyEvent → Bool
  | press key => if IsShift key then true else last
  | release key => if IsShift key then false else last

/-- No key that shift changes is pressed in the time between the release of one shift key and
the release of the other. -/
def NoneBetween : Bool → Finset (Fin 128) → List KeyEvent → Prop
  | _, _, [] => True
  | last, down, e :: es =>
    (∀ key, e = .press key → translation true key ≠ translation false key →
      ShiftHeld down → last = true) ∧
    NoneBetween (e.lastPress last) (e.after down) es

/-- The flag is the last event of a shift key, and after a press a shift key is held. -/
structure Tracks (s : State) (last : Bool) (down : Finset (Fin 128)) : Prop where
  flag : s.shift ≠ 0 ↔ last = true
  held : last = true → ShiftHeld down

theorem ShiftHeld.insert {down : Finset (Fin 128)} (h : ShiftHeld down) (key : Fin 128) :
    ShiftHeld (insert key down) := by
  obtain ⟨shift, hmem, hshift⟩ := h
  exact ⟨shift, Finset.mem_insert_of_mem hmem, hshift⟩

theorem ShiftHeld.erase {down : Finset (Fin 128)} (h : ShiftHeld down) {key : Fin 128}
    (hkey : ¬IsShift key) : ShiftHeld (down.erase key) := by
  obtain ⟨shift, hmem, hshift⟩ := h
  have hne : shift ≠ key := fun heq => hkey (heq ▸ hshift)
  exact ⟨shift, Finset.mem_erase.2 ⟨hne, hmem⟩, hshift⟩

theorem Tracks.step {s : State} {last : Bool} {down : Finset (Fin 128)} (h : Tracks s last down)
    (e : KeyEvent) :
    Tracks (keyboardHandler s e.scancode) (e.lastPress last) (e.after down) := by
  cases e with
  | press key =>
    by_cases hshift : IsShift key
    · constructor
      · simp [shift_press, KeyEvent.lastPress, hshift]
      · intro _
        exact ⟨key, Finset.mem_insert_self key down, hshift⟩
    · constructor
      · simpa [shift_press, KeyEvent.lastPress, hshift] using h.flag
      · intro hlast
        rw [KeyEvent.lastPress, if_neg hshift] at hlast
        exact (h.held hlast).insert key
  | release key =>
    by_cases hshift : IsShift key
    · constructor
      · simp [shift_release, KeyEvent.lastPress, hshift]
      · intro hlast
        rw [KeyEvent.lastPress, if_pos hshift] at hlast
        exact absurd hlast Bool.false_ne_true
    · constructor
      · simpa [shift_release, KeyEvent.lastPress, hshift] using h.flag
      · intro hlast
        rw [KeyEvent.lastPress, if_neg hshift] at hlast
        exact (h.held hlast).erase hshift

/-- One event: the character is wrong only if a shift key is held, the last event of a shift
key was a release, and the key has two translations. -/
theorem Tracks.right_iff {s : State} {last : Bool} {down : Finset (Fin 128)}
    (h : Tracks s last down) (e : KeyEvent) :
    Right s down e ↔ ∀ key, e = .press key → translation true key ≠ translation false key →
      ShiftHeld down → last = true := by
  have hflag : decide (s.shift ≠ 0) = last := by
    rw [Bool.eq_iff_iff, decide_eq_true_eq]
    exact h.flag
  cases e with
  | release key =>
    unfold Right
    rw [offered_release]
    simp
  | press key =>
    unfold Right
    rw [offered_press, hflag]
    constructor
    · rintro hright _ ⟨⟩ hne hheld
      by_contra hlast
      rw [Bool.not_eq_true] at hlast
      rw [hlast, decide_eq_true hheld] at hright
      -- The two tables have the same holes, so a key with two translations is offered.
      have hchar : translation false key ≠ 0 := fun h0 =>
        hne (((translation_eq_zero key).2 h0).trans h0.symm)
      rw [if_neg hchar] at hright
      obtain ⟨_, ⟨⟩, heq⟩ := hright _ rfl
      exact hne heq.symm
    · intro hcond c hc
      refine ⟨key, rfl, ?_⟩
      have hoffered : c = translation last key := by
        by_cases h0 : translation last key = 0
        · simp [h0] at hc
        · rw [if_neg h0, Option.mem_some_iff] at hc
          exact hc.symm
      rw [hoffered]
      by_cases hheld : ShiftHeld down
      · rw [decide_eq_true hheld]
        by_cases hne : translation true key = translation false key
        · cases last
          · exact hne.symm
          · rfl
        · rw [hcond key rfl hne hheld]
      · have hlast : last = false := Bool.eq_false_iff.2 fun hlast => hheld (h.held hlast)
        rw [hlast, decide_eq_false hheld]

theorem Tracks.allRight_iff {s : State} {last : Bool} {down : Finset (Fin 128)}
    (h : Tracks s last down) (es : List KeyEvent) :
    AllRight s down es ↔ NoneBetween last down es := by
  induction es generalizing s last down with
  | nil => exact Iff.rfl
  | cons e es ih => exact and_congr (h.right_iff e) (ih (h.step e))

/-- From boot on, whatever the ring holds: every character offered is the translation of its
key for the shift keys held, exactly if no key that shift changes is pressed between the
release of one shift key and the release of the other. -/
theorem keyboardHandler_shift_iff (ring : Ring) (es : List KeyEvent) :
    AllRight ⟨ring, 0⟩ ∅ es ↔ NoneBetween false ∅ es := by
  have hstart : Tracks ⟨ring, 0⟩ false ∅ := by
    constructor
    · simp
    · simp
  exact hstart.allRight_iff es

/-- Both shift keys go down, the right one comes up, and `a` is pressed with the left one
still held: the handler offers `a`. -/
theorem lower_case_while_shift_held :
    Typed ∅ [.press 0x2A, .press 0x36, .release 0x36, .press 0x1E] ∧
      ∀ ring, ¬AllRight ⟨ring, 0⟩ ∅
        [.press 0x2A, .press 0x36, .release 0x36, .press 0x1E] := by
  constructor
  · have hdown : (0x36 : Fin 128) ∈ insert 0x36 (insert 0x2A (∅ : Finset (Fin 128))) := by
      decide
    exact ⟨trivial, trivial, hdown, trivial, trivial⟩
  · intro ring h
    obtain ⟨-, -, -, hright, -⟩ := h
    obtain ⟨_, ⟨⟩, heq⟩ := hright 97 rfl
    have hleft : (0x2A : Fin 128) ∈
        (insert 0x36 (insert 0x2A (∅ : Finset (Fin 128)))).erase 0x36 := by
      decide
    rw [decide_eq_true ⟨0x2A, hleft, Or.inl rfl⟩] at heq
    exact absurd heq (by decide)

end StakOS.Drivers.Keyboard
