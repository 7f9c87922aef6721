import Mathlib.Tactic.Common

/-!
# Computations that look things up

A computation that gets its input by looking values up under keys, with the keys it
uses recorded in order.  What it returns depends on nothing else, so the record is
a bound on what it can know.
-/

namespace StakOS.Lib

variable {K V α β : Type}

/-- A value together with the keys that were looked up for it. -/
def Lookup (K V α : Type) : Type := (K → V) → List K × α

namespace Lookup

/-- The keys that are looked up in `m`, in order. -/
def keys (x : Lookup K V α) (m : K → V) : List K := (x m).1

def value (x : Lookup K V α) (m : K → V) : α := (x m).2

instance : Monad (Lookup K V) where
  pure a := fun _ => ([], a)
  bind x f := fun m => (x.keys m ++ (f (x.value m)).keys m, (f (x.value m)).value m)

def look (k : K) : Lookup K V V := fun m => ([k], m k)

/-- Look up several keys in order. -/
def lookAll : List K → Lookup K V (List V)
  | [] => pure []
  | k :: ks => do
      let v ← look k
      let vs ← lookAll ks
      return v :: vs

/-- Go on only if the value passes the check. -/
def require (x : Lookup K V β) (check : β → Bool) (rest : Lookup K V (Option α)) :
    Lookup K V (Option α) := do
  let v ← x
  if check v then rest else return none

@[simp] theorem keys_pure (a : α) (m : K → V) : (pure a : Lookup K V α).keys m = [] := rfl

@[simp] theorem value_pure (a : α) (m : K → V) : (pure a : Lookup K V α).value m = a := rfl

@[simp] theorem keys_bind (x : Lookup K V α) (f : α → Lookup K V β) (m : K → V) :
    (x >>= f).keys m = x.keys m ++ (f (x.value m)).keys m := rfl

@[simp] theorem value_bind (x : Lookup K V α) (f : α → Lookup K V β) (m : K → V) :
    (x >>= f).value m = (f (x.value m)).value m := rfl

@[simp] theorem keys_look (k : K) (m : K → V) : (look k).keys m = [k] := rfl

@[simp] theorem value_look (k : K) (m : K → V) : (look k).value m = m k := rfl

@[simp] theorem keys_lookAll (ks : List K) (m : K → V) : (lookAll ks).keys m = ks := by
  induction ks with
  | nil => rfl
  | cons k ks ih =>
      rw [lookAll, keys_bind, keys_bind, ih]
      simp

@[simp] theorem value_lookAll (ks : List K) (m : K → V) : (lookAll ks).value m = ks.map m := by
  induction ks with
  | nil => rfl
  | cons k ks ih =>
      rw [lookAll, value_bind, value_bind, ih]
      rfl

theorem value_require (x : Lookup K V β) (check : β → Bool) (rest : Lookup K V (Option α))
    (m : K → V) :
    (require x check rest).value m = if check (x.value m) then rest.value m else none := by
  rw [require, value_bind]
  split <;> rfl

/-! ## Where the keys lie -/

/-- Every key that is looked up has the property. -/
def Within (P : K → Prop) (x : Lookup K V α) (m : K → V) : Prop := ∀ k ∈ x.keys m, P k

variable {P : K → Prop} {m : K → V}

@[simp] theorem within_pure (a : α) : Within P (pure a : Lookup K V α) m := fun _ h => nomatch h

@[simp] theorem within_look (k : K) : Within P (look k : Lookup K V V) m ↔ P k := by
  simp [Within]

@[simp] theorem within_lookAll (ks : List K) :
    Within P (lookAll ks : Lookup K V (List V)) m ↔ ∀ k ∈ ks, P k := by
  simp [Within]

@[simp] theorem within_bind (x : Lookup K V α) (f : α → Lookup K V β) :
    Within P (x >>= f) m ↔ Within P x m ∧ Within P (f (x.value m)) m := by
  simp only [Within, keys_bind, List.mem_append, or_imp, forall_and]

theorem within_require (x : Lookup K V β) (check : β → Bool) (rest : Lookup K V (Option α)) :
    Within P (require x check rest) m ↔
      Within P x m ∧ (check (x.value m) = true → Within P rest m) := by
  rw [require, within_bind]
  cases h : check (x.value m) <;> simp

/-- A computation that does not give up has passed its first check. -/
theorem Within.passed {x : Lookup K V β} {check : β → Bool} {rest : Lookup K V (Option α)}
    (h : Within P (require x check rest) m) (hvalue : (require x check rest).value m ≠ none) :
    Within P rest m ∧ rest.value m ≠ none := by
  rw [value_require] at hvalue
  rw [within_require] at h
  split at hvalue
  · rename_i hcheck
    exact ⟨h.2 hcheck, hvalue⟩
  · exact absurd rfl hvalue

/-! ## The record is complete -/

/-- The computation runs the same in every store that agrees on the recorded keys. -/
def Local (x : Lookup K V α) : Prop :=
  ∀ m m' : K → V, (∀ k ∈ x.keys m, m' k = m k) → x m' = x m

namespace Local

theorem pure (a : α) : Local (Pure.pure a : Lookup K V α) := fun _ _ _ => rfl

theorem look (k : K) : Local (Lookup.look k : Lookup K V V) := by
  intro m m' h
  have hk : m' k = m k := h k (by simp)
  change ([k], m' k) = ([k], m k)
  rw [hk]

theorem bind {x : Lookup K V α} {f : α → Lookup K V β} (hx : Local x) (hf : ∀ a, Local (f a)) :
    Local (x >>= f) := by
  intro m m' h
  have hfirst : x m' = x m := by
    apply hx m m'
    intro k hk
    exact h k (by rw [keys_bind]; exact List.mem_append_left _ hk)
  have hkeys : x.keys m' = x.keys m := congrArg Prod.fst hfirst
  have hvalue : x.value m' = x.value m := congrArg Prod.snd hfirst
  have hsecond : f (x.value m) m' = f (x.value m) m := by
    apply hf _ m m'
    intro k hk
    exact h k (by rw [keys_bind]; exact List.mem_append_right _ hk)
  change (x.keys m' ++ (f (x.value m') m').1, (f (x.value m') m').2) =
    (x.keys m ++ (f (x.value m) m).1, (f (x.value m) m).2)
  rw [hkeys, hvalue, hsecond]

theorem lookAll (ks : List K) : Local (Lookup.lookAll ks : Lookup K V (List V)) := by
  induction ks with
  | nil => exact pure []
  | cons k ks ih => exact (look k).bind fun _ => ih.bind fun _ => pure _

theorem require {x : Lookup K V β} {check : β → Bool} {rest : Lookup K V (Option α)}
    (hx : Local x) (hrest : Local rest) : Local (Lookup.require x check rest) := by
  apply hx.bind
  intro v
  split
  · exact hrest
  · exact pure none

end Local

end Lookup

end StakOS.Lib
