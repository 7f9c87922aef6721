import Mathlib.Algebra.Group.Nat.Defs
import Mathlib.Tactic.Common

/-!
# Outcomes of C functions

A C function returns a value, stops the machine, with a panic text or by halting
it, or never returns.  A `while` loop is a step function iterated with a bound on
the number of iterations; running out of it is divergence, so a result about a loop
always comes with a measure that shows the bound is not reached.
-/

namespace StakOS.Lib.Loop

/-- Why a call does not return. -/
inductive Stop where
  | kpanic (reason : String)
  | halts
  | diverges
deriving DecidableEq

abbrev Outcome (α : Type) := Except Stop α

theorem bind_eq_ok {α β : Type} {x : Outcome α} {f : α → Outcome β} {b : β} :
    x >>= f = .ok b ↔ ∃ a, x = .ok a ∧ f a = .ok b := by
  cases x with
  | error e =>
      constructor
      · intro h
        cases h
      · rintro ⟨a, h, -⟩
        cases h
  | ok a =>
      constructor
      · intro h
        exact ⟨a, rfl, h⟩
      · rintro ⟨a', h, hf⟩
        cases h
        exact hf

theorem map_eq_ok {α β : Type} {x : Outcome α} {f : α → β} {b : β} :
    f <$> x = .ok b ↔ ∃ a, x = .ok a ∧ f a = b := by
  cases x with
  | error e =>
      constructor
      · intro h
        cases h
      · rintro ⟨a, h, -⟩
        cases h
  | ok a =>
      constructor
      · intro h
        cases h
        exact ⟨a, rfl, rfl⟩
      · rintro ⟨a', h, rfl⟩
        cases h
        rfl

theorem bind_ok {α β : Type} (a : α) (f : α → Outcome β) :
    (Except.ok a : Outcome α) >>= f = f a := rfl

/-- Whether a call returns a value that passes the test. -/
def returnsWith {α : Type} (x : Outcome α) (test : α → Bool) : Bool :=
  match x with
  | .ok a => test a
  | .error _ => false

theorem returnsWith_iff {α : Type} {x : Outcome α} {test : α → Bool} :
    returnsWith x test = true ↔ ∃ a, x = .ok a ∧ test a = true := by
  cases x with
  | error e =>
      constructor
      · intro h
        cases h
      · rintro ⟨a, h, -⟩
        cases h
  | ok a =>
      constructor
      · intro h
        exact ⟨a, rfl, h⟩
      · rintro ⟨a', h, htest⟩
        cases h
        exact htest

variable {σ ρ : Type}

/-- What one turn of a loop does: go on with a new state or leave with a result. -/
inductive Turn (σ ρ : Type) where
  | again (s : σ)
  | done (r : ρ)

/-- Run a loop for at most `bound` turns. -/
def loop (turn : σ → Turn σ ρ) : Nat → σ → Outcome ρ
  | 0, _ => .error .diverges
  | bound + 1, s =>
      match turn s with
      | .again s' => loop turn bound s'
      | .done r => .ok r

/-- Loops over 32-bit pointers and counters are cut off after this many turns. -/
def turns : Nat := 2 ^ 32

theorem loop_of_done {turn : σ → Turn σ ρ} {bound : Nat} {s : σ} {r : ρ}
    (h : turn s = .done r) : loop turn (bound + 1) s = .ok r := by
  rw [loop, h]

theorem loop_of_again {turn : σ → Turn σ ρ} {bound : Nat} {s s' : σ}
    (h : turn s = .again s') : loop turn (bound + 1) s = loop turn bound s' := by
  rw [loop, h]

/-- The rule for loops.  The invariant is indexed by a bound on the turns that
are left; every turn keeps it with a smaller index, and it gives the
postcondition when the loop is left. -/
theorem loop_rule {turn : σ → Turn σ ρ} (inv : Nat → σ → Prop) (post : ρ → Prop)
    (again : ∀ n s s', inv n s → turn s = .again s' → ∃ n', n' < n ∧ inv n' s')
    (done : ∀ n s r, inv n s → turn s = .done r → post r)
    {n bound : Nat} {s : σ} (hs : inv n s) (hbound : n < bound) :
    ∃ r, loop turn bound s = .ok r ∧ post r := by
  induction bound generalizing n s with
  | zero => omega
  | succ bound ih =>
      cases hturn : turn s with
      | again s' =>
          obtain ⟨n', hless, hs'⟩ := again n s s' hs hturn
          rw [loop_of_again hturn]
          exact ih hs' (by omega)
      | done r => exact ⟨r, loop_of_done hturn, done n s r hs hturn⟩

/-- The rule for loops, with a turn described by its two ways to end. -/
theorem loop_rule_cases {turn : σ → Turn σ ρ} (inv : Nat → σ → Prop) (post : ρ → Prop)
    (step : ∀ n s, inv n s →
      (∃ s' n', turn s = .again s' ∧ n' < n ∧ inv n' s') ∨ ∃ r, turn s = .done r ∧ post r)
    {n bound : Nat} {s : σ} (hs : inv n s) (hbound : n < bound) :
    ∃ r, loop turn bound s = .ok r ∧ post r := by
  apply loop_rule inv post _ _ hs hbound
  · intro n s s' hs hturn
    rcases step n s hs with ⟨s'', n', hagain, hless, hs''⟩ | ⟨r, hdone, -⟩
    · rw [hagain] at hturn
      cases hturn
      exact ⟨n', hless, hs''⟩
    · rw [hdone] at hturn
      cases hturn
  · intro n s r hs hturn
    rcases step n s hs with ⟨s'', n', hagain, -⟩ | ⟨r', hdone, hpost⟩
    · rw [hagain] at hturn
      cases hturn
    · rw [hdone] at hturn
      cases hturn
      exact hpost

/-! ## Counting loops -/

/-- `for (i = first; i < first + n; i++)`, with a body that goes on to the next turn or
returns from the function around the loop. -/
def forRange (body : Nat → σ → Outcome (Turn σ ρ)) : Nat → Nat → σ → Outcome (Turn σ ρ)
  | _, 0, s => .ok (.again s)
  | i, n + 1, s =>
      match body i s with
      | .ok (.again s') => forRange body (i + 1) n s'
      | left => left

/-- A turn goes on in a state with `inv`, or ends the function with an outcome that
meets `leave`. -/
def Meets (inv : σ → Prop) (leave : Outcome ρ → Prop) : Outcome (Turn σ ρ) → Prop
  | .ok (.again s) => inv s
  | .ok (.done r) => leave (.ok r)
  | .error e => leave (.error e)

theorem Meets.imp {inv inv' : σ → Prop} {leave : Outcome ρ → Prop} {out : Outcome (Turn σ ρ)}
    (h : Meets inv leave out) (himp : ∀ s, inv s → inv' s) : Meets inv' leave out := by
  cases out with
  | error e => exact h
  | ok next =>
      cases next with
      | again s => exact himp s h
      | done r => exact h

/-- The rule for counting loops: every turn takes the invariant to the next index. -/
theorem forRange_rule {body : Nat → σ → Outcome (Turn σ ρ)} (inv : Nat → σ → Prop)
    (leave : Outcome ρ → Prop) {first n : Nat} {s : σ}
    (turn : ∀ i s, first ≤ i → i < first + n → inv i s → Meets (inv (i + 1)) leave (body i s))
    (hs : inv first s) : Meets (inv (first + n)) leave (forRange body first n s) := by
  induction n generalizing first s with
  | zero => exact hs
  | succ n ih =>
      have hturn := turn first s (Nat.le_refl first) (by omega) hs
      rw [forRange]
      cases hbody : body first s with
      | error e =>
          rw [hbody] at hturn
          exact hturn
      | ok next =>
          rw [hbody] at hturn
          cases next with
          | done r => exact hturn
          | again s' =>
              have hrest : Meets (inv (first + 1 + n)) leave (forRange body (first + 1) n s') :=
                ih (fun i s hle hlt => turn i s (by omega) (by omega)) hturn
              rw [show first + 1 + n = first + (n + 1) by omega] at hrest
              exact hrest

end StakOS.Lib.Loop
