import StakOS.Lib.Linked

/-!
# Intrusive queues with a tail pointer

A queue threaded through a `next` field, with pointers to its first and its last
node, both null when it is empty.  The lemmas say what the assignments of the
usual operations do to the list of nodes: append at the tail, pop the head,
unlink an inner node.
-/

namespace StakOS.Lib.Queue

open StakOS.Lib.Linked

variable {α : Type} {null : α}

/-- The queue from `head` to `tail` holds the nodes `xs` in order. -/
structure IsQueue (null : α) (next : α → α) (head tail : α) (xs : List α) : Prop where
  chain : Chain next head xs null
  tail_eq : tail = xs.getLastD null
  nodup : xs.Nodup
  nonNull : null ∉ xs

theorem getLastD_append_cons (xs : List α) (y : α) (ys : List α) (d : α) :
    (xs ++ y :: ys).getLastD d = (y :: ys).getLast (by simp) := by
  have hlast : (y :: ys).getLast? = some ((y :: ys).getLast (by simp)) :=
    List.getLast?_eq_some_getLast (by simp)
  rw [List.getLastD_eq_getLast?, List.getLast?_append, hlast]
  rfl

namespace IsQueue

variable {next : α → α} {head tail x : α} {xs ys : List α}

theorem head_eq (h : IsQueue null next head tail xs) : head = xs.headD null := h.chain.start

theorem head_eq_null_iff (h : IsQueue null next head tail xs) : head = null ↔ xs = [] := by
  rw [h.head_eq]
  cases xs with
  | nil => simp
  | cons x xs =>
      constructor
      · intro hx
        exact absurd (hx ▸ List.mem_cons_self) h.nonNull
      · intro hx
        cases hx

theorem next_head (h : IsQueue null next head tail (x :: xs)) : next x = xs.headD null :=
  h.chain.2.start

theorem next_eq_null_iff (h : IsQueue null next head tail (x :: xs)) :
    next x = null ↔ xs = [] := by
  rw [h.next_head]
  cases xs with
  | nil => simp
  | cons y ys =>
      constructor
      · intro hy
        have hnull : y = null := hy
        exact absurd (by rw [hnull]; simp) h.nonNull
      · intro hys
        cases hys

theorem head_eq_tail_iff (h : IsQueue null next head tail (x :: xs)) : x = tail ↔ xs = [] := by
  rw [h.tail_eq]
  cases xs with
  | nil => simp
  | cons y ys =>
      have hlast := getLastD_append_cons [x] y ys null
      rw [List.singleton_append] at hlast
      rw [hlast]
      constructor
      · intro hx
        exact absurd (hx ▸ List.getLast_mem (by simp)) (List.nodup_cons.mp h.nodup).1
      · intro hys
        cases hys

theorem tail_mem (h : IsQueue null next head tail xs) (hne : xs ≠ []) : tail ∈ xs := by
  obtain ⟨y, ys, rfl⟩ := List.exists_cons_of_ne_nil hne
  rw [h.tail_eq, ← List.nil_append (y :: ys), getLastD_append_cons]
  exact List.getLast_mem (by simp)

/-- A queue depends on the field of its own nodes only. -/
theorem congr {next' : α → α} (h : IsQueue null next head tail xs)
    (hsame : ∀ x ∈ xs, next' x = next x) : IsQueue null next' head tail xs :=
  ⟨h.chain.congr hsame, h.tail_eq, h.nodup, h.nonNull⟩

variable [DecidableEq α]

theorem update_of_notMem (h : IsQueue null next head tail xs) (hx : x ∉ xs) (v : α) :
    IsQueue null (Function.update next x v) head tail xs :=
  ⟨h.chain.update_of_notMem hx, h.tail_eq, h.nodup, h.nonNull⟩

/-- Appending to an empty queue. -/
theorem singleton (hx : x ≠ null) : IsQueue null (Function.update next x null) x x [x] := by
  refine ⟨⟨rfl, ?_⟩, rfl, List.nodup_singleton x, ?_⟩
  · exact Function.update_self x null next
  · rw [List.mem_singleton]
    exact fun hnull => hx hnull.symm

/-- Appending behind the last node. -/
theorem snoc (h : IsQueue null next head tail xs) (hne : xs ≠ []) (hx : x ∉ xs)
    (hnull : x ≠ null) (hend : next x = null) :
    IsQueue null (Function.update next tail x) head x (xs ++ [x]) := by
  obtain ⟨ys, y, rfl⟩ : ∃ ys y, xs = ys ++ [y] := by
    rcases List.eq_nil_or_concat xs with hxs | ⟨ys, y, hxs⟩
    · exact absurd hxs hne
    · exact ⟨ys, y, by rw [hxs, List.concat_eq_append]⟩
  have htail : tail = y := by
    rw [h.tail_eq]
    simp
  subst htail
  have hy : tail ∉ ys := by
    intro hmem
    exact (List.nodup_append.mp h.nodup).2.2 tail hmem tail (by simp) rfl
  have hyx : tail ≠ x := fun htx => hx (by simp [htx])
  refine ⟨?_, by simp, ?_, ?_⟩
  · rw [List.append_assoc]
    exact h.chain.relink hy ⟨rfl, hend⟩ (by simpa using hyx)
  · refine List.nodup_append.mpr ⟨h.nodup, List.nodup_singleton x, ?_⟩
    intro a ha b hb hab
    rw [List.mem_singleton.mp hb] at hab
    exact hx (hab ▸ ha)
  · intro hmem
    rcases List.mem_append.mp hmem with hmem | hmem
    · exact h.nonNull hmem
    · exact hnull (List.mem_singleton.mp hmem).symm

/-- Dropping the first node. -/
theorem pop (h : IsQueue null next head tail (x :: xs)) :
    IsQueue null next (next x) (if x = tail then null else tail) xs := by
  have hnodup := List.nodup_cons.mp h.nodup
  refine ⟨h.chain.2, ?_, hnodup.2, fun hmem => h.nonNull (List.mem_cons_of_mem x hmem)⟩
  cases xs with
  | nil =>
      rw [if_pos (h.head_eq_tail_iff.mpr rfl)]
      rfl
  | cons y ys =>
      rw [if_neg fun hx => by simpa using h.head_eq_tail_iff.mp hx, h.tail_eq]
      simp

/-- Unlinking a node behind the first one. -/
theorem unlink_inner {p : α} (h : IsQueue null next head tail (xs ++ p :: x :: ys)) :
    IsQueue null (Function.update (Function.update next p (next x)) x null) head
      (if x = tail then p else tail) (xs ++ p :: ys) := by
  have hnodup := h.nodup
  have hxp : x ≠ p ∧ x ∉ xs ∧ x ∉ ys ∧ p ∉ xs ∧ p ∉ ys := by
    simp only [List.nodup_append, List.nodup_cons, List.mem_cons, not_or] at hnodup
    refine ⟨fun hx => hnodup.2.1.1.1 hx.symm, ?_, hnodup.2.1.2.1, ?_, hnodup.2.1.1.2⟩
    · exact fun hx => hnodup.2.2 x hx x (Or.inr (Or.inl rfl)) rfl
    · exact fun hp => hnodup.2.2 p hp p (Or.inl rfl) rfl
  obtain ⟨hne, hxxs, hxys, hpxs, hpys⟩ := hxp
  have hnx : next x = ys.headD null := by
    have hchain : Chain next head ((xs ++ [p]) ++ x :: ys) null := by simpa using h.chain
    exact hchain.next_eq
  have hys : Chain next (next x) ys null := by
    have hchain : Chain next head ((xs ++ [p, x]) ++ ys) null := by simpa using h.chain
    rw [hnx]
    exact hchain.suffix
  have hrelinked : Chain (Function.update next p (next x)) head (xs ++ p :: ys) null :=
    h.chain.relink hpxs hys hpys
  refine ⟨?_, ?_, ?_, ?_⟩
  · apply hrelinked.update_of_notMem
    simp only [List.mem_append, List.mem_cons, not_or]
    exact ⟨hxxs, hne, hxys⟩
  · cases ys with
    | nil =>
        have htail : tail = x := by
          rw [h.tail_eq]
          simp
        rw [if_pos htail.symm]
        simp
    | cons y ys =>
        have htail : tail = (y :: ys).getLast (by simp) := by
          rw [h.tail_eq, ← getLastD_append_cons (xs ++ [p, x]) y ys null]
          simp
        have hne : x ≠ tail := by
          rw [htail]
          exact fun hx => hxys (hx ▸ List.getLast_mem (by simp))
        rw [if_neg hne, htail, ← getLastD_append_cons (xs ++ [p]) y ys null]
        simp
  · have hsub : (xs ++ p :: ys).Sublist (xs ++ p :: x :: ys) :=
      List.Sublist.append_left (List.Sublist.cons_cons p (List.sublist_cons_self x ys)) xs
    exact hsub.nodup hnodup
  · intro hmem
    apply h.nonNull
    simp only [List.mem_append, List.mem_cons] at hmem ⊢
    tauto

end IsQueue

end StakOS.Lib.Queue
