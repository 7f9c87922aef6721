import Mathlib.Data.List.Basic
import Mathlib.Data.List.Perm.Subperm
import Mathlib.Data.List.Nodup

/-!
# Sweeping a list against a table that shrinks

Each element asks for a claimant: the first one left in a table that answers to it.
A sweep goes through a list once.  An element with no claimant alive is taken away,
out of the table as well, before the next element is looked at.  If nobody alive
can step into the place of those that go, the sweep is a filter, in whatever order
the list is; otherwise some order shows the difference.
-/

namespace StakOS.Lib.Sweep

/-- Who is listed, who answers to whom, and who is alive. -/
structure Registry (α : Type) where
  table : List α
  /-- `answers z p`: the element `z` asks for `p`. -/
  answers : α → α → Bool
  alive : α → Bool

namespace Registry

variable {α : Type} [DecidableEq α] (r : Registry α)

/-- Without those who are gone, the first one that `z` asks for is alive. -/
def claimed (gone : List α) (z : α) : Bool :=
  (r.table.find? fun p => decide (p ∉ gone) && r.answers z p).any r.alive

/-- The elements taken away so far and those kept, after going through a list. -/
def sweep : List α → List α → List α × List α
  | gone, [] => (gone, [])
  | gone, z :: zs =>
      if r.claimed gone z then ((sweep gone zs).1, z :: (sweep gone zs).2)
      else sweep (gone ++ [z]) zs

/-- Someone alive answers to `z` behind others that all go, and `z` is none of them. -/
def Supplanted (z : α) : Prop :=
  ∃ pre p post, r.table = pre ++ p :: post ∧ r.answers z p = true ∧ r.alive p = true ∧
    (∃ e ∈ pre, r.answers z e = true) ∧
    ∀ e ∈ pre, r.answers z e = true → r.alive e = false ∧ r.claimed [] e = false ∧ e ≠ z

variable {r} {gone zs : List α} {z : α}

/-! ## Claims -/

theorem claimed_iff : r.claimed gone z = true ↔
    ∃ pre p post, r.table = pre ++ p :: post ∧ p ∉ gone ∧ r.answers z p = true ∧
      r.alive p = true ∧ ∀ e ∈ pre, r.answers z e = true → e ∈ gone := by
  unfold claimed
  constructor
  · intro h
    cases hp : r.table.find? fun p => decide (p ∉ gone) && r.answers z p with
    | none =>
        rw [hp] at h
        cases h
    | some p =>
        rw [hp] at h
        obtain ⟨hcall, pre, post, htable, hpre⟩ := List.find?_eq_some_iff_append.mp hp
        rw [Bool.and_eq_true, decide_eq_true_eq] at hcall
        refine ⟨pre, p, post, htable, hcall.1, hcall.2, h, fun e he hans => ?_⟩
        by_contra hout
        simpa [hans, hout] using hpre e he
  · rintro ⟨pre, p, post, htable, hout, hans, halive, hpre⟩
    have hp : (r.table.find? fun p => decide (p ∉ gone) && r.answers z p) = some p := by
      refine List.find?_eq_some_iff_append.mpr ⟨by simp [hout, hans], pre, post, htable, ?_⟩
      intro e he
      by_cases he' : r.answers z e = true
      · simp [hpre e he he']
      · simp [he']
    rw [hp]
    exact halive

/-- Whoever is left to answer is alive. -/
theorem claimed_of_forall (hsome : ∃ p ∈ r.table, p ∉ gone ∧ r.answers z p = true)
    (hall : ∀ p ∈ r.table, p ∉ gone → r.answers z p = true → r.alive p = true) :
    r.claimed gone z = true := by
  obtain ⟨d, hd, hout, hans⟩ := hsome
  have hfound : (r.table.find? fun p => decide (p ∉ gone) && r.answers z p).isSome = true :=
    List.find?_isSome.mpr ⟨d, hd, by simp [hout, hans]⟩
  obtain ⟨p, hp⟩ := Option.isSome_iff_exists.mp hfound
  have hcall := List.find?_some hp
  rw [Bool.and_eq_true, decide_eq_true_eq] at hcall
  unfold claimed
  rw [hp]
  exact hall p (List.mem_of_find?_eq_some hp) hcall.1 hcall.2

/-- One that is alive is not taken away, so its claims stand. -/
theorem claimed_of_start (h : r.claimed [] z = true) (hgone : ∀ x ∈ gone, r.alive x = false) :
    r.claimed gone z = true := by
  obtain ⟨pre, p, post, htable, -, hans, halive, hpre⟩ := claimed_iff.mp h
  refine claimed_iff.mpr ⟨pre, p, post, htable, fun hp => ?_, hans, halive, fun e he hans' => ?_⟩
  · rw [hgone p hp] at halive
    cases halive
  · cases hpre e he hans'

/-- Only someone who steps into the place of those who went can raise a new claim. -/
theorem supplanted_of_claimed (hstart : r.claimed [] z = false) (h : r.claimed gone z = true)
    (hgone : ∀ x ∈ gone, r.alive x = false ∧ r.claimed [] x = false ∧ x ≠ z) :
    r.Supplanted z := by
  obtain ⟨pre, p, post, htable, -, hans, halive, hpre⟩ := claimed_iff.mp h
  refine ⟨pre, p, post, htable, hans, halive, ?_, fun e he hans' => hgone e (hpre e he hans')⟩
  by_contra hnone
  have hclaimed : r.claimed [] z = true := by
    refine claimed_iff.mpr ⟨pre, p, post, htable, List.not_mem_nil, hans, halive, ?_⟩
    intro e he hans'
    exact absurd ⟨e, he, hans'⟩ hnone
  rw [hstart] at hclaimed
  cases hclaimed

theorem Supplanted.not_claimed (h : r.Supplanted z) : r.claimed [] z = false := by
  obtain ⟨pre, p, post, htable, hans, halive, ⟨e, he, hans'⟩, hpre⟩ := h
  have hfirst : (pre.find? fun p => decide (p ∉ []) && r.answers z p).isSome = true := by
    apply List.find?_isSome.mpr
    exact ⟨e, he, by simp [hans']⟩
  obtain ⟨d, hd⟩ := Option.isSome_iff_exists.mp hfirst
  have hcall := List.find?_some hd
  rw [Bool.and_eq_true] at hcall
  unfold claimed
  rw [htable, List.find?_append, hd]
  exact (hpre d (List.mem_of_find?_eq_some hd) hcall.2).1

/-! ## The sweep -/

theorem sweep_append (gone xs ys : List α) :
    r.sweep gone (xs ++ ys) = ((r.sweep (r.sweep gone xs).1 ys).1,
      (r.sweep gone xs).2 ++ (r.sweep (r.sweep gone xs).1 ys).2) := by
  induction xs generalizing gone with
  | nil => rfl
  | cons x xs ih =>
      simp only [List.cons_append, sweep]
      by_cases hx : r.claimed gone x = true
      · simp only [if_pos hx, ih, List.cons_append]
      · simp only [if_neg hx, ih]

/-- Every element is taken away or kept. -/
theorem sweep_split (gone zs : List α) :
    ∃ freed, (r.sweep gone zs).1 = gone ++ freed ∧ zs.Perm (freed ++ (r.sweep gone zs).2) := by
  induction zs generalizing gone with
  | nil => exact ⟨[], by simp [sweep], List.Perm.refl _⟩
  | cons z zs ih =>
      by_cases hz : r.claimed gone z = true
      · obtain ⟨freed, hfst, hperm⟩ := ih gone
        refine ⟨freed, by simpa only [sweep, if_pos hz] using hfst, ?_⟩
        simp only [sweep, if_pos hz]
        exact (hperm.cons z).trans List.perm_middle.symm
      · obtain ⟨freed, hfst, hperm⟩ := ih (gone ++ [z])
        simp only [sweep, if_neg hz]
        exact ⟨z :: freed, by simpa using hfst, hperm.cons z⟩

/-- Where nobody is supplanted, exactly the unclaimed go. -/
theorem sweep_eq_filter (hdead : ∀ z ∈ zs, r.alive z = false)
    (hgone : ∀ x ∈ gone, r.alive x = false ∧ r.claimed [] x = false) (hnodup : (gone ++ zs).Nodup)
    (hsup : ∀ z ∈ zs, ¬ r.Supplanted z) :
    r.sweep gone zs = (gone ++ zs.filter fun z => !r.claimed [] z, zs.filter (r.claimed [])) := by
  induction zs generalizing gone with
  | nil => simp [sweep]
  | cons z zs ih =>
      have hnew : z ∉ gone := fun hz =>
        (List.nodup_append.mp hnodup).2.2 z hz z List.mem_cons_self rfl
      have hdead' : ∀ x ∈ zs, r.alive x = false := fun x hx => hdead x (List.mem_cons_of_mem z hx)
      have hsup' : ∀ x ∈ zs, ¬ r.Supplanted x := fun x hx => hsup x (List.mem_cons_of_mem z hx)
      cases hstart : r.claimed [] z with
      | true =>
          have hz := claimed_of_start hstart fun x hx => (hgone x hx).1
          have hrest : (gone ++ zs).Nodup :=
            hnodup.sublist ((List.Sublist.refl gone).append (List.sublist_cons_self z zs))
          simp [sweep, hz, hstart, ih hdead' hgone hrest hsup']
      | false =>
          have hz : r.claimed gone z = false := by
            by_contra hclaimed
            refine hsup z List.mem_cons_self (supplanted_of_claimed hstart
              (Bool.not_eq_false _ ▸ hclaimed) fun x hx => ⟨(hgone x hx).1, (hgone x hx).2, ?_⟩)
            exact fun hxz => hnew (hxz ▸ hx)
          have hgone' : ∀ x ∈ gone ++ [z], r.alive x = false ∧ r.claimed [] x = false := by
            intro x hx
            rcases List.mem_append.mp hx with hx | hx
            · exact hgone x hx
            · rw [List.mem_singleton.mp hx]
              exact ⟨hdead z List.mem_cons_self, hstart⟩
          have hrest : (gone ++ [z] ++ zs).Nodup := by simpa using hnodup
          simp [sweep, hz, hstart, ih hdead' hgone' hrest hsup']

/-- Where someone is supplanted, some order of the list keeps an element without a claim:
those before the supplanter first, then the one that asked for them. -/
theorem exists_order_keeping (hz : z ∈ zs) (hsup : r.Supplanted z) (htable : r.table.Nodup)
    (hin : ∀ x ∈ r.table, r.alive x = false → x ∈ zs) :
    ∃ zs', zs'.Perm zs ∧ ∃ x ∈ (r.sweep [] zs').2, r.claimed [] x = false := by
  have hstart := hsup.not_claimed
  obtain ⟨pre, p, post, hsplit, hans, halive, -, hpre⟩ := hsup
  have hes : ∀ e ∈ pre.filter (r.answers z), r.alive e = false ∧ r.claimed [] e = false ∧
      e ≠ z ∧ e ∈ zs := by
    intro e he
    obtain ⟨he, hans'⟩ := List.mem_filter.mp he
    obtain ⟨hdead, hun, hne⟩ := hpre e he hans'
    exact ⟨hdead, hun, hne, hin e (by simp [hsplit, he]) hdead⟩
  set es := pre.filter (r.answers z) with hesdef
  have hnodup : (es ++ [z]).Nodup := by
    rw [hsplit] at htable
    refine List.nodup_append.mpr ⟨(List.nodup_append.mp htable).1.filter _,
      List.nodup_singleton z, ?_⟩
    intro e he x hx hex
    exact (hes e he).2.2.1 (hex.trans (List.mem_singleton.mp hx))
  have hsub : es ++ [z] ⊆ zs := by
    intro x hx
    rcases List.mem_append.mp hx with hx | hx
    · exact (hes x hx).2.2.2
    · rw [List.mem_singleton.mp hx]
      exact hz
  have hcount := List.subperm_ext_iff.mp (hnodup.subperm hsub)
  refine ⟨es ++ [z] ++ zs.diff (es ++ [z]), List.subperm_append_diff_self_of_count_le hcount, ?_⟩
  rw [sweep_append, sweep_append]
  cases hkept : (r.sweep [] es).2 with
  | cons x xs =>
      obtain ⟨freed, -, hfreed⟩ := sweep_split (r := r) [] es
      have hx : x ∈ es := hfreed.symm.subset (by simp [hkept])
      exact ⟨x, by simp, (hes x hx).2.1⟩
  | nil =>
      -- all of them went, so the one behind them answers to `z`
      obtain ⟨freed, hfst, hfreed⟩ := sweep_split (r := r) [] es
      rw [hkept, List.append_nil] at hfreed
      have hclaimed : r.claimed (r.sweep [] es).1 z = true := by
        rw [hfst, List.nil_append]
        refine claimed_iff.mpr ⟨pre, p, post, hsplit, fun hp => ?_, hans, halive, ?_⟩
        · have hdead := (hes p (hfreed.symm.subset hp)).1
          rw [halive] at hdead
          cases hdead
        · intro e he hans'
          exact hfreed.subset (List.mem_filter.mpr ⟨he, hans'⟩)
      refine ⟨z, ?_, hstart⟩
      simp [sweep, hclaimed]

end Registry

end StakOS.Lib.Sweep
