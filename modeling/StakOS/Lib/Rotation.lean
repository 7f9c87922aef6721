import Mathlib.Data.List.Basic

/-!
# Waiting in a queue that is rotated

A server takes one node out of a queue and puts it last, behind the nodes it has
passed over.  Nodes join at the end and leave from anywhere.  A node that stays,
and that the server never passes over, is served after at most as many others as
were ahead of it: its index never grows, and each service of another node makes
it smaller.
-/

namespace StakOS.Lib.Rotation

variable {α : Type} [DecidableEq α]

/-- One change of the queue, with the nodes it serves, as far as it may concern `p`. -/
inductive Step (p : α) : List α → List α → List α → Prop
  | serve {xs ys : List α} {x : α} (hpassed : p ∉ xs) :
      Step p (xs ++ x :: ys) [x] (ys ++ xs ++ [x])
  | join (q : List α) (x : α) : Step p q [] (q ++ [x])
  | leave (q : List α) {x : α} (hx : x ≠ p) : Step p q [] (q.erase x)
  | stay (q : List α) : Step p q [] q

inductive Run (p : α) : List α → List α → List α → Prop
  | refl (q : List α) : Run p q [] q
  | step {q q' q'' out outs : List α} (hstep : Step p q out q') (hrun : Run p q' outs q'') :
      Run p q (out ++ outs) q''

theorem idxOf_erase_le {x p : α} (hx : x ≠ p) (q : List α) :
    (q.erase x).idxOf p ≤ q.idxOf p := by
  induction q with
  | nil => simp
  | cons y ys ih =>
      by_cases hyx : y = x
      · subst hyx
        rw [List.erase_cons_head, List.idxOf_cons_ne _ hx]
        exact Nat.le_succ _
      · rw [List.erase_cons_tail (by simpa using hyx)]
        by_cases hyp : y = p
        · subst hyp
          rw [List.idxOf_cons_self]
          exact Nat.zero_le _
        · rw [List.idxOf_cons_ne _ hyp, List.idxOf_cons_ne _ hyp]
          exact Nat.succ_le_succ ih

/-- A node stays in the queue, and comes nearer to its head by the number of the
others that are served. -/
theorem Step.nearer {p : α} {q out q' : List α} (h : Step p q out q') (hp : p ∈ q) :
    p ∈ q' ∧ (out = [p] ∨ q'.idxOf p + out.length ≤ q.idxOf p) := by
  cases h with
  | @serve xs ys x hpassed =>
      by_cases hx : x = p
      · subst hx
        exact ⟨by simp, Or.inl rfl⟩
      · have hys : p ∈ ys := by
          rcases List.mem_append.mp hp with hxs | hys
          · exact absurd hxs hpassed
          · exact List.mem_of_ne_of_mem (Ne.symm hx) hys
        constructor
        · simp [hys]
        · right
          rw [List.append_assoc, List.idxOf_append_of_mem hys, List.idxOf_append_of_notMem hpassed,
            List.idxOf_cons_ne _ hx, List.length_singleton]
          omega
  | join q x =>
      constructor
      · exact List.mem_append_left [x] hp
      · right
        exact Nat.le_of_eq (List.idxOf_append_of_mem hp)
  | leave q hx =>
      constructor
      · exact (List.mem_erase_of_ne (Ne.symm hx)).mpr hp
      · right
        rw [List.length_nil, Nat.add_zero]
        exact idxOf_erase_le hx q
  | stay q => exact ⟨hp, Or.inr (Nat.le_refl _)⟩

/-- Bounded waiting. -/
theorem Run.served {p : α} {q outs q' : List α} (h : Run p q outs q') (hp : p ∈ q)
    (hlong : q.idxOf p < outs.length) : p ∈ outs.take (q.idxOf p + 1) := by
  induction h with
  | refl q => exact absurd hlong (Nat.not_lt_zero _)
  | @step q q₁ q₂ out outs hstep hrun ih =>
      obtain ⟨hp₁, hserved | hnearer⟩ := hstep.nearer hp
      · rw [hserved]
        simp
      · rw [List.length_append] at hlong
        have htake := ih hp₁ (by omega)
        have hle : q₁.idxOf p + 1 ≤ q.idxOf p + 1 - out.length := by omega
        rw [List.take_append]
        exact List.mem_append_right _ ((List.take_subset_take_left outs hle) htake)

end StakOS.Lib.Rotation
