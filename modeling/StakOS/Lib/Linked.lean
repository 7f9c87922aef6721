import Mathlib.Logic.Function.Basic
import Mathlib.Data.List.Basic
import Mathlib.Data.List.Iterate
import Mathlib.Data.List.Nodup

/-!
# Intrusive singly linked lists

A list threaded through a `next` field is described by the nodes it visits:
`Chain next p xs q` says that following `next` from `p` passes through exactly
`xs` and arrives at `q`, the null pointer for a whole list.  Every operation on
such a list changes the field at one or two nodes, so the interface is how a
chain splits, what it does not depend on, and how it is relinked.
-/

namespace StakOS.Lib.Linked

variable {α : Type}

/-- Following `next` from `p` visits the nodes `xs` and arrives at `q`. -/
def Chain (next : α → α) : α → List α → α → Prop
  | p, [], q => p = q
  | p, x :: xs, q => p = x ∧ Chain next (next x) xs q

@[simp] theorem chain_nil {next : α → α} {p q : α} : Chain next p [] q ↔ p = q := Iff.rfl

@[simp] theorem chain_cons {next : α → α} {p q x : α} {xs : List α} :
    Chain next p (x :: xs) q ↔ p = x ∧ Chain next (next x) xs q := Iff.rfl

instance decidableChain [DecidableEq α] (next : α → α) :
    (p : α) → (xs : List α) → (q : α) → Decidable (Chain next p xs q)
  | p, [], q => inferInstanceAs (Decidable (p = q))
  | p, x :: xs, q =>
      have := decidableChain next (next x) xs q
      inferInstanceAs (Decidable (p = x ∧ Chain next (next x) xs q))

theorem chain_append {next : α → α} {p q : α} {xs ys : List α} :
    Chain next p (xs ++ ys) q ↔ ∃ r, Chain next p xs r ∧ Chain next r ys q := by
  induction xs generalizing p with
  | nil => simp
  | cons x xs ih =>
      rw [List.cons_append, chain_cons, ih]
      constructor
      · rintro ⟨hp, r, hxs, hys⟩
        exact ⟨r, ⟨hp, hxs⟩, hys⟩
      · rintro ⟨r, ⟨hp, hxs⟩, hys⟩
        exact ⟨hp, r, hxs, hys⟩

/-- A chain reads the field of its own nodes only. -/
theorem Chain.congr {next next' : α → α} {p q : α} {xs : List α}
    (h : Chain next p xs q) (hsame : ∀ x ∈ xs, next' x = next x) : Chain next' p xs q := by
  induction xs generalizing p with
  | nil => exact h
  | cons x xs ih =>
      rw [chain_cons] at h ⊢
      refine ⟨h.1, ?_⟩
      rw [hsame x (by simp)]
      exact ih h.2 fun y hy => hsame y (by simp [hy])

/-- A chain starts at its first node. -/
theorem Chain.start {next : α → α} {p q : α} {xs : List α} (h : Chain next p xs q) :
    p = xs.headD q := by
  cases xs with
  | nil => exact h
  | cons x xs => exact h.1

/-- Following the field from the start lists the nodes. -/
theorem Chain.iterate {next : α → α} {p q : α} {xs : List α} (h : Chain next p xs q) :
    List.iterate next p xs.length = xs := by
  induction xs generalizing p with
  | nil => rfl
  | cons x xs ih =>
      obtain ⟨rfl, hrest⟩ := h
      rw [List.length_cons, List.iterate, ih hrest]

/-- The field of an inner node points to the node behind it. -/
theorem Chain.next_eq {next : α → α} {p q x : α} {xs ys : List α}
    (h : Chain next p (xs ++ x :: ys) q) : next x = ys.headD q := by
  obtain ⟨r, -, hr⟩ := chain_append.mp h
  exact hr.2.start

/-- The part of a chain behind a prefix. -/
theorem Chain.suffix {next : α → α} {p q : α} {xs ys : List α}
    (h : Chain next p (xs ++ ys) q) : Chain next (ys.headD q) ys q := by
  obtain ⟨r, -, hr⟩ := chain_append.mp h
  rw [← hr.start]
  exact hr

/-- Splitting before a node and putting the two parts together again. -/
theorem Chain.join {next : α → α} {p q : α} {xs ys : List α}
    (hxs : Chain next p xs (ys.headD q)) (hys : Chain next (ys.headD q) ys q) :
    Chain next p (xs ++ ys) q :=
  chain_append.mpr ⟨_, hxs, hys⟩

/-- Two chains over the same fields from the same node to a node neither of
them passes are equal. -/
theorem Chain.unique {next : α → α} {p q : α} {xs ys : List α}
    (hxs : Chain next p xs q) (hys : Chain next p ys q) (hqx : q ∉ xs) (hqy : q ∉ ys) :
    xs = ys := by
  induction xs generalizing p ys with
  | nil =>
      cases ys with
      | nil => rfl
      | cons y ys =>
          have hq : q = y := by
            rw [← hys.1]
            exact hxs.symm
          exact absurd hq fun h => hqy (by simp [h])
  | cons x xs ih =>
      cases ys with
      | nil =>
          have hq : q = x := by
            rw [← hxs.1]
            exact hys.symm
          exact absurd hq fun h => hqx (by simp [h])
      | cons y ys =>
          have hxy : x = y := hxs.1.symm.trans hys.1
          subst hxy
          rw [ih hxs.2 hys.2 (fun h => hqx (by simp [h])) (fun h => hqy (by simp [h]))]

/-- Two fields that link the same nodes to the same end agree on them. -/
theorem Chain.agree {next next' : α → α} {p p' q : α} {xs : List α}
    (h : Chain next p xs q) (h' : Chain next' p' xs q) : ∀ x ∈ xs, next' x = next x := by
  induction xs generalizing p p' with
  | nil => simp
  | cons y ys ih =>
      intro x hx
      rcases List.mem_cons.mp hx with rfl | hx
      · exact h'.2.start.trans h.2.start.symm
      · exact ih h.2 h'.2 x hx

section Update

variable [DecidableEq α]

theorem Chain.update_of_notMem {next : α → α} {p q x v : α} {xs : List α}
    (h : Chain next p xs q) (hx : x ∉ xs) : Chain (Function.update next x v) p xs q := by
  apply h.congr
  intro y hy
  have hne : y ≠ x := fun hyx => hx (hyx ▸ hy)
  exact Function.update_of_ne hne v next

/-- Assigning the field of one node replaces everything behind it. -/
theorem Chain.relink {next : α → α} {p q x v : α} {xs ys zs : List α}
    (h : Chain next p (xs ++ x :: ys) q) (hx : x ∉ xs) (hzs : Chain next v zs q)
    (hxz : x ∉ zs) : Chain (Function.update next x v) p (xs ++ x :: zs) q := by
  obtain ⟨r, hxs, hr⟩ := chain_append.mp h
  refine chain_append.mpr ⟨r, hxs.update_of_notMem hx, hr.1, ?_⟩
  rw [Function.update_self]
  exact hzs.update_of_notMem hxz

/-- The field once the nodes of a list have been linked in its order. -/
def thread (next : α → α) (null : α) : List α → α → α
  | [] => next
  | x :: xs => Function.update (thread next null xs) x (xs.headD null)

theorem thread_of_notMem {next : α → α} {null x : α} {xs : List α} (hx : x ∉ xs) :
    thread next null xs x = next x := by
  induction xs with
  | nil => rfl
  | cons y ys ih =>
      rw [List.mem_cons, not_or] at hx
      rw [thread, Function.update_of_ne hx.1, ih hx.2]

theorem chain_thread (next : α → α) (null : α) {xs : List α} (hnodup : xs.Nodup) :
    Chain (thread next null xs) (xs.headD null) xs null := by
  induction xs with
  | nil => rfl
  | cons x xs ih =>
      obtain ⟨hx, hxs⟩ := List.nodup_cons.mp hnodup
      refine ⟨rfl, ?_⟩
      rw [thread, Function.update_self]
      exact (ih hxs).update_of_notMem hx

end Update

end StakOS.Lib.Linked
