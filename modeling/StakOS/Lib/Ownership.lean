import Mathlib.Data.Set.Insert
import Mathlib.Logic.Function.Basic

/-!
# Tenure

Resources handed out to slots.  Every slot holds at most one resource, no resource
is held by two slots, and what is held has been handed out.
-/

namespace StakOS.Lib.Ownership

variable {σ α : Type}

/-- `own` says what each slot holds and `used` what has been handed out. -/
structure Tenure (own : σ → Option α) (used : Set α) : Prop where
  held : ∀ s a, own s = some a → a ∈ used
  unique : ∀ s t a, own s = some a → own t = some a → s = t

namespace Tenure

variable {own own' : σ → Option α} {used used' : Set α} {s : σ} {a : α}

/-- Slots may be emptied and resources may move between the free ones and those
handed out, as long as what is held stays handed out. -/
theorem mono (h : Tenure own used) (hown : ∀ s a, own' s = some a → own s = some a)
    (hused : ∀ s a, own' s = some a → a ∈ used') : Tenure own' used' :=
  ⟨hused, fun s t a hs ht => h.unique s t a (hown s a hs) (hown t a ht)⟩

theorem widen (h : Tenure own used) (hsub : used ⊆ used') : Tenure own used' :=
  h.mono (fun _ _ hs => hs) fun s a hs => hsub (h.held s a hs)

theorem shrink (h : Tenure own used) (hown : ∀ s a, own' s = some a → own s = some a) :
    Tenure own' used :=
  h.mono hown fun s a hs => h.held s a (hown s a hs)

/-- A resource that nobody holds goes into a slot. -/
theorem grant [DecidableEq σ] (h : Tenure own used) (ha : a ∈ used)
    (hfree : ∀ t, own t ≠ some a) : Tenure (Function.update own s (some a)) used := by
  constructor
  · intro t b ht
    by_cases hts : t = s
    · rw [hts, Function.update_self] at ht
      cases ht
      exact ha
    · rw [Function.update_of_ne hts] at ht
      exact h.held t b ht
  · intro t u b ht hu
    by_cases hts : t = s
    · by_cases hus : u = s
      · rw [hts, hus]
      · rw [hts, Function.update_self] at ht
        rw [Function.update_of_ne hus] at hu
        cases ht
        exact absurd hu (hfree u)
    · rw [Function.update_of_ne hts] at ht
      by_cases hus : u = s
      · rw [hus, Function.update_self] at hu
        cases hu
        exact absurd ht (hfree t)
      · rw [Function.update_of_ne hus] at hu
        exact h.unique t u b ht hu

/-- Two resources are granted at once: `b`, which the slot `t` may hold already, and
the new `a`. -/
theorem grant_pair [DecidableEq σ] {t u : σ} {b : α} (h : Tenure own used)
    (ht : own t = some b ∨ b ∉ used) (ha : a ∉ used) (hab : a ≠ b)
    (hsub : insert b (insert a used) ⊆ used') :
    Tenure (Function.update (Function.update own t (some b)) u (some a)) used' := by
  have hfree : ∀ s, own s ≠ some a := fun s hs => ha (h.held s a hs)
  have hb : b ∈ used' := hsub (Set.mem_insert b _)
  have hwide : Tenure own used' :=
    h.widen fun x hx => hsub (Set.mem_insert_of_mem b (Set.mem_insert_of_mem a hx))
  have hone : Tenure (Function.update own t (some b)) used' := by
    rcases ht with ht | hnew
    · rw [← ht, Function.update_eq_self]
      exact hwide
    · exact hwide.grant hb fun s hs => hnew (h.held s b hs)
  refine hone.grant (hsub (Set.mem_insert_of_mem b (Set.mem_insert a _))) fun s hs => ?_
  by_cases hst : s = t
  · rw [hst, Function.update_self] at hs
    exact hab (Option.some.inj hs).symm
  · rw [Function.update_of_ne hst] at hs
    exact hfree s hs

end Tenure

/-! ## Resources that nobody can give back -/

/-- What has been handed out and is held by nobody. -/
def lost (own : σ → Option α) (used : Set α) : Set α := { a | a ∈ used ∧ ∀ s, own s ≠ some a }

/-- Without losses, taking back what is held takes everything back. -/
theorem diff_held_eq_iff {own : σ → Option α} {used base : Set α} (hbase : base ⊆ used)
    (h : Tenure own (used \ base)) :
    used \ { a | ∃ s, own s = some a } = base ↔ lost own (used \ base) = ∅ := by
  constructor
  · intro heq
    apply Set.eq_empty_of_forall_notMem
    rintro a ⟨⟨ha, hout⟩, hnone⟩
    apply hout
    rw [← heq]
    exact ⟨ha, fun hheld => hheld.elim fun s hs => hnone s hs⟩
  · intro hlost
    ext a
    constructor
    · rintro ⟨ha, hheld⟩
      by_contra hout
      have hin : a ∈ lost own (used \ base) := ⟨⟨ha, hout⟩, fun s hs => hheld ⟨s, hs⟩⟩
      rw [hlost] at hin
      exact hin
    · intro ha
      refine ⟨hbase ha, ?_⟩
      rintro ⟨s, hs⟩
      exact (h.held s a hs).2 ha

/-- A resource handed out to no slot is lost, and stays so. -/
theorem Tenure.lost_insert {own : σ → Option α} {used : Set α} {a : α} (h : Tenure own used)
    (ha : a ∉ used) : lost own (insert a used) ≠ ∅ := by
  have hin : a ∈ lost own (insert a used) :=
    ⟨Set.mem_insert a used, fun s hs => ha (h.held s a hs)⟩
  exact fun hempty => (hempty ▸ hin : a ∈ (∅ : Set α))

/-- Granting `b` to the slot `t` and the new `a` to the slot `u` loses what `u` held. -/
theorem Tenure.lost_grant_pair [DecidableEq σ] {own : σ → Option α} {used : Set α} {t u : σ}
    {a b : α} (h : Tenure own used) (ht : own t = some b ∨ (own t = none ∧ b ∉ insert a used))
    (ha : a ∉ used) (htu : t ≠ u) :
    lost (Function.update (Function.update own t (some b)) u (some a))
        (insert b (insert a used)) = ∅ ↔ lost own used = ∅ ∧ own u = none := by
  have hold : ∀ c, c ∈ used → (∀ s, s ≠ u → own s ≠ some c) →
      c ∈ lost (Function.update (Function.update own t (some b)) u (some a))
        (insert b (insert a used)) := by
    intro c hc hnone
    refine ⟨Set.mem_insert_of_mem b (Set.mem_insert_of_mem a hc), fun s => ?_⟩
    by_cases hsu : s = u
    · rw [hsu, Function.update_self]
      rintro ⟨⟩
      exact ha hc
    · rw [Function.update_of_ne hsu]
      by_cases hst : s = t
      · rw [hst, Function.update_self]
        rintro ⟨⟩
        rcases ht with ht | ⟨-, hnew⟩
        · exact hnone t htu ht
        · exact hnew (Set.mem_insert_of_mem a hc)
      · rw [Function.update_of_ne hst]
        exact hnone s hsu
  constructor
  · intro hempty
    constructor
    · apply Set.eq_empty_of_forall_notMem
      rintro c ⟨hc, hnone⟩
      have hin := hold c hc fun s _ => hnone s
      rw [hempty] at hin
      exact hin
    · cases hu : own u with
      | none => rfl
      | some c =>
          have hin := hold c (h.held u c hu) fun s hsu hs => hsu (h.unique s u c hs hu)
          rw [hempty] at hin
          exact hin.elim
  · rintro ⟨hempty, hu⟩
    apply Set.eq_empty_of_forall_notMem
    rintro c ⟨hc, hnone⟩
    have hta := hnone t
    rw [Function.update_of_ne htu, Function.update_self] at hta
    have hua := hnone u
    rw [Function.update_self] at hua
    rcases hc with rfl | rfl | hc
    · exact hta rfl
    · exact hua rfl
    · have hin : c ∈ lost own used := by
        refine ⟨hc, fun s hs => ?_⟩
        have hsu : s ≠ u := by
          rintro rfl
          rw [hu] at hs
          cases hs
        by_cases hst : s = t
        · rw [hst] at hs
          rcases ht with ht | ⟨ht, -⟩
          · exact hta (ht.symm.trans hs)
          · rw [ht] at hs
            cases hs
        · have hsc := hnone s
          rw [Function.update_of_ne hsu, Function.update_of_ne hst] at hsc
          exact hsc hs
      rw [hempty] at hin
      exact hin

end StakOS.Lib.Ownership
