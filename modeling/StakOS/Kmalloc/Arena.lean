import StakOS.Lib.Loop
import Mathlib.Data.Set.Basic
import Mathlib.Tactic.NormNum

/-!
# The heap as a list of blocks

What `mm/kmalloc.c` is for, without memory: an arena is a list of blocks in
address order.  Allocation takes the first free block that is large enough and
splits off what is left over, freeing marks a block and merges free neighbours
that touch.  The raw heap of headers and pointers refines this list.
-/

namespace StakOS.Kmalloc

open StakOS.Lib.Loop

/-- `sizeof(block_t)`. -/
def blockHeaderSize : Nat := 16

def minSplitSize : Nat := 8

structure Block where
  addr : Nat
  size : Nat
  free : Bool
deriving DecidableEq

namespace Block

/-- What `kmalloc` returns for the block. -/
def payload (b : Block) : Nat := b.addr + 16

/-- The first byte behind the block. -/
def fin (b : Block) : Nat := b.addr + 16 + b.size

/-- The block with `free` set when its payload is at `p`. -/
def releasedAt (b : Block) (p : Nat) : Block :=
  if b.payload = p then { b with free := true } else b

@[simp] theorem releasedAt_addr (b : Block) (p : Nat) : (b.releasedAt p).addr = b.addr := by
  unfold releasedAt
  split <;> rfl

@[simp] theorem releasedAt_size (b : Block) (p : Nat) : (b.releasedAt p).size = b.size := by
  unfold releasedAt
  split <;> rfl

@[simp] theorem releasedAt_fin (b : Block) (p : Nat) : (b.releasedAt p).fin = b.fin := by
  simp [fin]

theorem releasedAt_of_ne {b : Block} {p : Nat} (h : b.payload ≠ p) : b.releasedAt p = b :=
  if_neg h

end Block

/-- The two blocks a block is split into, or the block itself when the rest
would be too small. -/
def carve (b : Block) (size : Nat) : List Block :=
  if b.size ≤ size + 24 then [{ b with free := false }]
  else [⟨b.addr, size, false⟩, ⟨b.addr + 16 + size, b.size - size - 16, true⟩]

/-- First fit. -/
def place (size : Nat) : List Block → Option (List Block × Nat)
  | [] => none
  | b :: bs =>
      if b.free ∧ size ≤ b.size then some (carve b size ++ bs, b.payload)
      else (place size bs).map fun r => (b :: r.1, r.2)

/-- Merge free blocks that touch, in one pass with the cursor on `cur`. -/
def mergeFrom (cur : Block) : List Block → List Block
  | [] => [cur]
  | b :: bs =>
      if cur.free ∧ b.free ∧ b.addr = cur.fin then
        mergeFrom { cur with size := cur.size + 16 + b.size } bs
      else cur :: mergeFrom b bs

def merge : List Block → List Block
  | [] => []
  | b :: bs => mergeFrom b bs

/-- Mark the block with payload `p` free. -/
def release (p : Nat) (bs : List Block) : List Block :=
  bs.map fun b => b.releasedAt p

/-! ## Well-formed arenas -/

/-- Blocks in address order that do not overlap, aligned to words, inside the
128 MB of physical memory that the frame allocator manages. -/
structure Layout (bs : List Block) : Prop where
  aligned : ∀ b ∈ bs, b.addr % 4 = 0 ∧ b.size % 4 = 0
  nonNull : ∀ b ∈ bs, b.addr ≠ 0
  sorted : bs.Pairwise fun b c => b.fin ≤ c.addr
  bounded : ∀ b ∈ bs, b.fin ≤ 2 ^ 27

/-- The bytes of an arena. -/
def covered (bs : List Block) : Set Nat := { a | ∃ b ∈ bs, b.addr ≤ a ∧ a < b.fin }

/-- The pointers that are allocated. -/
def used (bs : List Block) : List Nat := (bs.filter fun b => !b.free).map Block.payload

/-- The blocks that are handed out. -/
def live (bs : List Block) : List Block := bs.filter fun b => !b.free

theorem mem_live {bs : List Block} {b : Block} : b ∈ live bs ↔ b ∈ bs ∧ b.free = false := by
  simp [live]

theorem live_append (bs cs : List Block) : live (bs ++ cs) = live bs ++ live cs :=
  List.filter_append ..

theorem mem_used {bs : List Block} {p : Nat} :
    p ∈ used bs ↔ ∃ b ∈ bs, b.free = false ∧ b.payload = p := by
  simp [used, and_assoc]

theorem covered_append (bs cs : List Block) : covered (bs ++ cs) = covered bs ∪ covered cs := by
  ext a
  simp only [covered, List.mem_append, Set.mem_ofPred_eq, Set.mem_union]
  constructor
  · rintro ⟨b, hb | hb, hab⟩
    · exact Or.inl ⟨b, hb, hab⟩
    · exact Or.inr ⟨b, hb, hab⟩
  · rintro (⟨b, hb, hab⟩ | ⟨b, hb, hab⟩)
    · exact ⟨b, Or.inl hb, hab⟩
    · exact ⟨b, Or.inr hb, hab⟩

theorem covered_cons (b : Block) (bs : List Block) :
    covered (b :: bs) = covered [b] ∪ covered bs := covered_append [b] bs

theorem mem_covered_singleton {b : Block} {a : Nat} :
    a ∈ covered [b] ↔ b.addr ≤ a ∧ a < b.fin := by
  simp [covered]

namespace Layout

theorem nil : Layout [] where
  aligned := by simp
  nonNull := by simp
  sorted := List.Pairwise.nil
  bounded := by simp

theorem cons_iff {b : Block} {bs : List Block} :
    Layout (b :: bs) ↔
      (b.addr % 4 = 0 ∧ b.size % 4 = 0 ∧ b.addr ≠ 0 ∧ b.fin ≤ 2 ^ 27 ∧
        ∀ c ∈ bs, b.fin ≤ c.addr) ∧ Layout bs := by
  constructor
  · intro h
    have hsort := List.pairwise_cons.mp h.sorted
    have hb := h.aligned b (by simp)
    refine ⟨⟨hb.1, hb.2, h.nonNull b (by simp), h.bounded b (by simp), hsort.1⟩, ?_⟩
    exact ⟨fun c hc => h.aligned c (by simp [hc]), fun c hc => h.nonNull c (by simp [hc]),
      hsort.2, fun c hc => h.bounded c (by simp [hc])⟩
  · rintro ⟨⟨haddr, hsize, hnull, hfin, hbefore⟩, h⟩
    refine ⟨?_, ?_, List.pairwise_cons.mpr ⟨hbefore, h.sorted⟩, ?_⟩
    · intro c hc
      rcases List.mem_cons.mp hc with rfl | hc
      · exact ⟨haddr, hsize⟩
      · exact h.aligned c hc
    · intro c hc
      rcases List.mem_cons.mp hc with rfl | hc
      · exact hnull
      · exact h.nonNull c hc
    · intro c hc
      rcases List.mem_cons.mp hc with rfl | hc
      · exact hfin
      · exact h.bounded c hc

theorem append_iff {bs cs : List Block} :
    Layout (bs ++ cs) ↔ Layout bs ∧ Layout cs ∧ ∀ b ∈ bs, ∀ c ∈ cs, b.fin ≤ c.addr := by
  constructor
  · intro h
    obtain ⟨hb, hc, hbc⟩ := List.pairwise_append.mp h.sorted
    refine ⟨⟨fun b hb => h.aligned b (by simp [hb]), fun b hb => h.nonNull b (by simp [hb]), hb,
      fun b hb => h.bounded b (by simp [hb])⟩,
      ⟨fun b hb => h.aligned b (by simp [hb]), fun b hb => h.nonNull b (by simp [hb]), hc,
      fun b hb => h.bounded b (by simp [hb])⟩, hbc⟩
  · rintro ⟨hb, hc, hbc⟩
    refine ⟨?_, ?_, List.pairwise_append.mpr ⟨hb.sorted, hc.sorted, hbc⟩, ?_⟩
    · intro b hmem
      rcases List.mem_append.mp hmem with hmem | hmem
      · exact hb.aligned b hmem
      · exact hc.aligned b hmem
    · intro b hmem
      rcases List.mem_append.mp hmem with hmem | hmem
      · exact hb.nonNull b hmem
      · exact hc.nonNull b hmem
    · intro b hmem
      rcases List.mem_append.mp hmem with hmem | hmem
      · exact hb.bounded b hmem
      · exact hc.bounded b hmem

/-- Two blocks of an arena are the same block or lie apart. -/
theorem eq_or_apart {bs : List Block} (h : Layout bs) {b c : Block} (hb : b ∈ bs)
    (hc : c ∈ bs) : b = c ∨ b.fin ≤ c.addr ∨ c.fin ≤ b.addr := by
  induction bs with
  | nil => cases hb
  | cons d bs ih =>
      obtain ⟨⟨-, -, -, -, hbefore⟩, hrest⟩ := cons_iff.mp h
      rcases List.mem_cons.mp hb with hbd | hb'
      · rcases List.mem_cons.mp hc with hcd | hc'
        · exact Or.inl (hbd.trans hcd.symm)
        · exact Or.inr (Or.inl (hbd ▸ hbefore c hc'))
      · rcases List.mem_cons.mp hc with hcd | hc'
        · exact Or.inr (Or.inr (hcd ▸ hbefore b hb'))
        · exact ih hrest hb' hc'

/-- The address of a block identifies it. -/
theorem eq_of_addr {bs : List Block} (h : Layout bs) {b c : Block} (hb : b ∈ bs)
    (hc : c ∈ bs) (haddr : b.addr = c.addr) : b = c := by
  rcases h.eq_or_apart hb hc with heq | hapart
  · exact heq
  · unfold Block.fin at hapart
    omega

/-- No block is at the null pointer, so it ends the list. -/
theorem zero_notMem {bs : List Block} (h : Layout bs) : 0 ∉ bs.map Block.addr := by
  intro hmem
  obtain ⟨b, hb, haddr⟩ := List.mem_map.mp hmem
  exact h.nonNull b hb haddr

/-- A walk over the blocks stays within the number of turns a loop may take. -/
theorem length_lt {bs : List Block} (h : Layout bs) : bs.length < turns := by
  have hstep : ∀ (cs : List Block) (lo : Nat), Layout cs → (∀ c ∈ cs, lo ≤ c.addr) →
      lo ≤ 2 ^ 27 → lo + cs.length ≤ 2 ^ 27 := by
    intro cs
    induction cs with
    | nil =>
        intro lo _ _ hlo
        simpa using hlo
    | cons c cs ih =>
        intro lo hcs hlow _
        obtain ⟨⟨-, -, -, hfin, hbefore⟩, hrest⟩ := cons_iff.mp hcs
        have hc := hlow c (by simp)
        have htail := ih c.fin hrest hbefore hfin
        rw [List.length_cons]
        unfold Block.fin at htail
        omega
  have hall := hstep bs 0 h (fun _ _ => Nat.zero_le _) (by norm_num)
  unfold turns
  omega

end Layout

/-! ## Replacing a stretch of blocks

Both splitting and merging replace neighbouring blocks by blocks on the same
bytes.
-/

theorem Layout.replace {pre mid new post : List Block} (h : Layout (pre ++ mid ++ post))
    (hnew : Layout new) (hlow : ∀ c ∈ new, ∃ b ∈ mid, b.addr ≤ c.addr)
    (hhigh : ∀ c ∈ new, ∃ b ∈ mid, c.fin ≤ b.fin) : Layout (pre ++ new ++ post) := by
  obtain ⟨hpm, hpost, hbehind⟩ := Layout.append_iff.mp h
  obtain ⟨hpre, -, hbefore⟩ := Layout.append_iff.mp hpm
  refine Layout.append_iff.mpr ⟨Layout.append_iff.mpr ⟨hpre, hnew, ?_⟩, hpost, ?_⟩
  · intro a ha c hc
    obtain ⟨b, hb, hbc⟩ := hlow c hc
    exact (hbefore a ha b hb).trans hbc
  · intro c hc d hd
    rcases List.mem_append.mp hc with hc | hc
    · exact hbehind c (by simp [hc]) d hd
    · obtain ⟨b, hb, hcb⟩ := hhigh c hc
      exact hcb.trans (hbehind b (by simp [hb]) d hd)

/-- Only addresses and sizes count for the layout. -/
theorem Layout.resize {pre post : List Block} {b c : Block} (h : Layout (pre ++ b :: post))
    (haddr : c.addr = b.addr) (hsize : c.size ≤ b.size) (hal : c.size % 4 = 0) :
    Layout (pre ++ c :: post) := by
  have hmid : Layout (pre ++ [b] ++ post) := by simpa using h
  have hfin : c.fin ≤ b.fin := by
    unfold Block.fin
    omega
  have hc : Layout [c] := by
    refine Layout.cons_iff.mpr ⟨⟨?_, hal, ?_, ?_, by simp⟩, Layout.nil⟩
    · rw [haddr]
      exact (h.aligned b (by simp)).1
    · rw [haddr]
      exact h.nonNull b (by simp)
    · exact hfin.trans (h.bounded b (by simp))
  have hnew := hmid.replace hc
    (fun d hd => ⟨b, by simp, by rw [List.mem_singleton.mp hd, haddr]⟩)
    (fun d hd => ⟨b, by simp, by rw [List.mem_singleton.mp hd]; exact hfin⟩)
  simpa using hnew

theorem covered_replace {pre mid new post : List Block} (h : covered new = covered mid) :
    covered (pre ++ new ++ post) = covered (pre ++ mid ++ post) := by
  simp only [covered_append, h]

theorem used_append (bs cs : List Block) : used (bs ++ cs) = used bs ++ used cs := by
  simp [used]

/-! ## Splitting -/

theorem layout_carve {b : Block} {size : Nat} (hb : Layout [b]) (hsize : size % 4 = 0) :
    Layout (carve b size) := by
  have hal := hb.aligned b (by simp)
  have hnull := hb.nonNull b (by simp)
  have hfin := hb.bounded b (by simp)
  unfold Block.fin at hfin
  unfold carve
  by_cases hsmall : b.size ≤ size + 24
  · rw [if_pos hsmall]
    exact Layout.cons_iff.mpr ⟨⟨hal.1, hal.2, hnull, hfin, by simp⟩, Layout.nil⟩
  · rw [if_neg hsmall]
    refine Layout.cons_iff.mpr ⟨⟨hal.1, hsize, hnull, ?_, ?_⟩, ?_⟩
    · show b.addr + 16 + size ≤ 2 ^ 27
      omega
    · simp [Block.fin]
    · refine Layout.cons_iff.mpr ⟨⟨?_, ?_, ?_, ?_, by simp⟩, Layout.nil⟩
      · show (b.addr + 16 + size) % 4 = 0
        omega
      · show (b.size - size - 16) % 4 = 0
        omega
      · show b.addr + 16 + size ≠ 0
        omega
      · show b.addr + 16 + size + 16 + (b.size - size - 16) ≤ 2 ^ 27
        omega

theorem carve_within {b c : Block} {size : Nat} (hc : c ∈ carve b size) :
    b.addr ≤ c.addr ∧ c.fin ≤ b.fin := by
  unfold carve at hc
  by_cases hsmall : b.size ≤ size + 24
  · rw [if_pos hsmall, List.mem_singleton] at hc
    subst hc
    exact ⟨le_refl _, le_refl _⟩
  · rw [if_neg hsmall] at hc
    rcases List.mem_cons.mp hc with rfl | hc
    · simp only [Block.fin]
      omega
    · rw [List.mem_singleton] at hc
      subst hc
      simp only [Block.fin]
      omega

theorem covered_carve (b : Block) (size : Nat) : covered (carve b size) = covered [b] := by
  ext a
  unfold carve
  by_cases hsmall : b.size ≤ size + 24
  · rw [if_pos hsmall, mem_covered_singleton, mem_covered_singleton]
    rfl
  · rw [if_neg hsmall, covered_cons, Set.mem_union]
    simp only [mem_covered_singleton, Block.fin]
    omega

theorem used_carve (b : Block) (size : Nat) : used (carve b size) = [b.payload] := by
  unfold carve
  by_cases hsmall : b.size ≤ size + 24
  · rw [if_pos hsmall]
    rfl
  · rw [if_neg hsmall]
    rfl

/-- An arena after one allocation, seen from the block that served it. -/
theorem layout_allocate {pre post : List Block} {b : Block} {size : Nat}
    (h : Layout (pre ++ b :: post)) (hsize : size % 4 = 0) :
    Layout (pre ++ carve b size ++ post) := by
  have hmid : Layout (pre ++ [b] ++ post) := by simpa using h
  have hb : Layout [b] := (Layout.append_iff.mp (Layout.append_iff.mp hmid).1).2.1
  apply hmid.replace (layout_carve hb hsize)
  · intro c hc
    exact ⟨b, by simp, (carve_within hc).1⟩
  · intro c hc
    exact ⟨b, by simp, (carve_within hc).2⟩

theorem covered_allocate (pre post : List Block) (b : Block) (size : Nat) :
    covered (pre ++ carve b size ++ post) = covered (pre ++ b :: post) := by
  rw [covered_replace (covered_carve b size)]
  simp

theorem mem_used_allocate {pre post : List Block} {b : Block} {size p : Nat}
    (hfree : b.free = true) :
    p ∈ used (pre ++ carve b size ++ post) ↔ p = b.payload ∨ p ∈ used (pre ++ b :: post) := by
  have hb : used [b] = [] := by simp [used, hfree]
  have hsplit : pre ++ b :: post = pre ++ [b] ++ post := by simp
  rw [hsplit]
  simp only [used_append, used_carve, hb, List.mem_append, List.mem_singleton, List.not_mem_nil]
  tauto

/-- The pointer handed out was not handed out before. -/
theorem payload_notMem_used {bs : List Block} (h : Layout bs) {b : Block} (hb : b ∈ bs)
    (hfree : b.free = true) : b.payload ∉ used bs := by
  intro hused
  obtain ⟨c, hc, hcused, hpay⟩ := mem_used.mp hused
  have haddr : c.addr = b.addr := by
    unfold Block.payload at hpay
    omega
  rw [h.eq_of_addr hc hb haddr, hfree] at hcused
  cases hcused

/-- First fit, described by the block it finds. -/
theorem place_eq_some {size p : Nat} {bs bs' : List Block} :
    place size bs = some (bs', p) ↔
      ∃ pre b post, bs = pre ++ b :: post ∧ (∀ c ∈ pre, ¬ (c.free ∧ size ≤ c.size)) ∧
        b.free ∧ size ≤ b.size ∧ bs' = pre ++ carve b size ++ post ∧ p = b.payload := by
  induction bs generalizing bs' with
  | nil => simp [place]
  | cons a bs ih =>
      by_cases hfit : a.free ∧ size ≤ a.size
      · rw [place, if_pos hfit]
        constructor
        · intro h
          cases h
          exact ⟨[], a, bs, rfl, by simp, hfit.1, hfit.2, rfl, rfl⟩
        · rintro ⟨pre, b, post, hbs, hpre, -, -, hbs', hp⟩
          cases pre with
          | nil =>
              cases hbs
              rw [hbs', hp]
              rfl
          | cons c pre =>
              cases hbs
              exact absurd hfit (hpre a (by simp))
      · rw [place, if_neg hfit]
        constructor
        · intro h
          obtain ⟨⟨cs, q⟩, hcs, heq⟩ := Option.map_eq_some_iff.mp h
          cases heq
          obtain ⟨pre, b, post, hbs, hpre, hbfree, hbsize, hcs', hq⟩ := ih.mp hcs
          refine ⟨a :: pre, b, post, by rw [hbs]; rfl, ?_, hbfree, hbsize, by rw [hcs']; rfl, hq⟩
          intro c hc
          rcases List.mem_cons.mp hc with rfl | hc
          · exact hfit
          · exact hpre c hc
        · rintro ⟨pre, b, post, hbs, hpre, hbfree, hbsize, hbs', hp⟩
          cases pre with
          | nil =>
              cases hbs
              exact absurd ⟨hbfree, hbsize⟩ hfit
          | cons c pre =>
              cases hbs
              refine Option.map_eq_some_iff.mpr ⟨(pre ++ carve b size ++ post, p), ?_, ?_⟩
              · exact ih.mpr ⟨pre, b, post, rfl, fun d hd => hpre d (by simp [hd]), hbfree,
                  hbsize, rfl, hp⟩
              · rw [hbs']
                rfl

theorem place_eq_none {size : Nat} {bs : List Block}
    (h : ∀ c ∈ bs, ¬ (c.free ∧ size ≤ c.size)) : place size bs = none := by
  cases hplace : place size bs with
  | none => rfl
  | some r =>
      obtain ⟨pre, b, post, hbs, -, hfree, hfit, -, -⟩ := place_eq_some.mp hplace
      exact absurd ⟨hfree, hfit⟩ (h b (by simp [hbs]))

/-- A search that finds nothing has seen every block. -/
theorem not_fits_of_place_eq_none {size : Nat} {bs : List Block} (h : place size bs = none) :
    ∀ c ∈ bs, ¬ (c.free ∧ size ≤ c.size) := by
  induction bs with
  | nil => simp
  | cons b bs ih =>
      by_cases hfit : b.free ∧ size ≤ b.size
      · rw [place, if_pos hfit] at h
        cases h
      · rw [place, if_neg hfit, Option.map_eq_none_iff] at h
        intro c hc
        rcases List.mem_cons.mp hc with rfl | hc
        · exact hfit
        · exact ih h c hc

/-! ## Merging -/

/-- What `coalesce` makes of two free blocks that touch. -/
def Block.join (b c : Block) : Block := { b with size := b.size + 16 + c.size }

theorem Block.join_fin {b c : Block} (htouch : c.addr = b.fin) : (b.join c).fin = c.fin := by
  unfold Block.join Block.fin at *
  simp only
  omega

theorem mergeFrom_touching {b c : Block} {bs : List Block} (hb : b.free) (hc : c.free)
    (htouch : c.addr = b.fin) : mergeFrom b (c :: bs) = mergeFrom (b.join c) bs := by
  rw [mergeFrom, if_pos ⟨hb, hc, htouch⟩]
  rfl

theorem mergeFrom_apart {b c : Block} {bs : List Block}
    (h : ¬ (b.free ∧ c.free ∧ c.addr = b.fin)) : mergeFrom b (c :: bs) = b :: mergeFrom c bs := by
  rw [mergeFrom, if_neg h]

theorem layout_join {pre post : List Block} {b c : Block} (h : Layout (pre ++ b :: c :: post))
    (htouch : c.addr = b.fin) : Layout (pre ++ b.join c :: post) := by
  have hmid : Layout (pre ++ [b, c] ++ post) := by simpa using h
  have hbc : Layout [b, c] := (Layout.append_iff.mp (Layout.append_iff.mp hmid).1).2.1
  have hb := hbc.aligned b (by simp)
  have hc := hbc.aligned c (by simp)
  have hfin := Block.join_fin htouch
  have hjoin : Layout [b.join c] := by
    refine Layout.cons_iff.mpr ⟨⟨hb.1, ?_, hbc.nonNull b (by simp), ?_, by simp⟩, Layout.nil⟩
    · show (b.size + 16 + c.size) % 4 = 0
      omega
    · rw [hfin]
      exact hbc.bounded c (by simp)
  have hreplaced := hmid.replace hjoin
    (fun d hd => ⟨b, by simp, by rw [List.mem_singleton.mp hd]; exact le_refl _⟩)
    (fun d hd => ⟨c, by simp, by rw [List.mem_singleton.mp hd, hfin]⟩)
  simpa using hreplaced

theorem covered_join {b c : Block} (htouch : c.addr = b.fin) :
    covered [b.join c] = covered [b, c] := by
  ext a
  rw [covered_cons b, Set.mem_union]
  simp only [mem_covered_singleton, Block.join_fin htouch]
  unfold Block.join Block.fin at *
  simp only
  omega

theorem live_join {b c : Block} {bs : List Block} (hb : b.free) (hc : c.free) :
    live (b.join c :: bs) = live (b :: c :: bs) := by
  have hj : (b.join c).free = true := hb
  simp [live, hb, hc, hj]

/-- The cursor's block stays, possibly enlarged. -/
theorem mergeFrom_head (b : Block) (bs : List Block) :
    ∃ c cs, mergeFrom b bs = c :: cs ∧ c.addr = b.addr := by
  induction bs generalizing b with
  | nil => exact ⟨b, [], rfl, rfl⟩
  | cons c bs ih =>
      by_cases hm : b.free ∧ c.free ∧ c.addr = b.fin
      · rw [mergeFrom_touching hm.1 hm.2.1 hm.2.2]
        exact ih (b.join c)
      · exact ⟨b, mergeFrom c bs, mergeFrom_apart hm, rfl⟩

theorem layout_mergeFrom {pre bs : List Block} {b : Block} (h : Layout (pre ++ b :: bs)) :
    Layout (pre ++ mergeFrom b bs) := by
  induction bs generalizing pre b with
  | nil => exact h
  | cons c bs ih =>
      by_cases hm : b.free ∧ c.free ∧ c.addr = b.fin
      · rw [mergeFrom_touching hm.1 hm.2.1 hm.2.2]
        exact ih (layout_join h hm.2.2)
      · rw [mergeFrom_apart hm]
        have hmoved : Layout ((pre ++ [b]) ++ c :: bs) := by simpa using h
        simpa using ih hmoved

theorem covered_mergeFrom (b : Block) (bs : List Block) :
    covered (mergeFrom b bs) = covered (b :: bs) := by
  induction bs generalizing b with
  | nil => rfl
  | cons c bs ih =>
      by_cases hm : b.free ∧ c.free ∧ c.addr = b.fin
      · rw [mergeFrom_touching hm.1 hm.2.1 hm.2.2, ih, covered_cons, covered_join hm.2.2,
          ← covered_append]
        rfl
      · rw [mergeFrom_apart hm, covered_cons, ih, ← covered_cons]

theorem live_mergeFrom (b : Block) (bs : List Block) :
    live (mergeFrom b bs) = live (b :: bs) := by
  induction bs generalizing b with
  | nil => rfl
  | cons c bs ih =>
      by_cases hm : b.free ∧ c.free ∧ c.addr = b.fin
      · rw [mergeFrom_touching hm.1 hm.2.1 hm.2.2, ih, live_join hm.1 hm.2.1]
      · rw [mergeFrom_apart hm]
        have happ := live_append [b] (mergeFrom c bs)
        rw [List.singleton_append] at happ
        rw [happ, ih, ← live_append]
        rfl

theorem layout_append_merge {pre bs : List Block} (h : Layout (pre ++ bs)) :
    Layout (pre ++ merge bs) := by
  cases bs with
  | nil => exact h
  | cons b bs => exact layout_mergeFrom h

theorem layout_merge {bs : List Block} (h : Layout bs) : Layout (merge bs) := by
  have hmerged : Layout ([] ++ merge bs) := layout_append_merge h
  exact hmerged

theorem covered_merge (bs : List Block) : covered (merge bs) = covered bs := by
  cases bs with
  | nil => rfl
  | cons b bs => exact covered_mergeFrom b bs

theorem live_merge (bs : List Block) : live (merge bs) = live bs := by
  cases bs with
  | nil => rfl
  | cons b bs => exact live_mergeFrom b bs

theorem used_merge (bs : List Block) : used (merge bs) = used bs :=
  congrArg (List.map Block.payload) (live_merge bs)

/-! ## Merging around one block

A pass of merging seen from a block that is not absorbed by the one before it:
the blocks before it and the blocks behind those it absorbs are merged on their
own.
-/

/-- The block `b` is absorbed by `p` when it directly follows it. -/
def Block.Absorbs (p b : Block) : Prop := p.free = true ∧ b.free = true ∧ b.addr = p.fin

theorem mergeFrom_append {a b : Block} {pre post : List Block}
    (h : ∀ p, (a :: pre).getLast? = some p → ¬ p.Absorbs b) :
    mergeFrom a (pre ++ b :: post) = mergeFrom a pre ++ mergeFrom b post := by
  induction pre generalizing a with
  | nil =>
      rw [List.nil_append, mergeFrom_apart (h a rfl)]
      rfl
  | cons c pre ih =>
      rw [List.cons_append]
      by_cases hm : a.free ∧ c.free ∧ c.addr = a.fin
      · rw [mergeFrom_touching hm.1 hm.2.1 hm.2.2, mergeFrom_touching hm.1 hm.2.1 hm.2.2]
        apply ih
        intro p hp habs
        cases pre with
        | nil =>
            -- the joined block ends where `c` ends
            rw [List.getLast?_singleton, Option.some_inj] at hp
            subst hp
            refine h c rfl ⟨hm.2.1, habs.2.1, ?_⟩
            rw [habs.2.2, Block.join_fin hm.2.2]
        | cons d pre => exact h p hp habs
      · rw [mergeFrom_apart hm, mergeFrom_apart hm, List.cons_append]
        congr 1
        apply ih
        intro p hp
        exact h p hp

theorem merge_append {b : Block} {pre post : List Block}
    (h : ∀ p, pre.getLast? = some p → ¬ p.Absorbs b) :
    merge (pre ++ b :: post) = merge pre ++ mergeFrom b post := by
  cases pre with
  | nil => rfl
  | cons a pre => exact mergeFrom_append h

/-- What the block absorbs is a stretch of free blocks right behind it; a block
that no other touches absorbs nothing. -/
theorem mergeFrom_split (b : Block) (bs : List Block) :
    ∃ absorbed rest b', bs = absorbed ++ rest ∧ mergeFrom b bs = b' :: merge rest ∧
      (∀ c ∈ absorbed, c.free = true ∧ c.fin ≤ b'.fin) ∧
      b'.addr = b.addr ∧ b'.free = b.free ∧ b.fin ≤ b'.fin ∧
      ((∀ c ∈ bs, c.addr ≠ b.fin) → absorbed = [] ∧ b' = b) := by
  induction bs generalizing b with
  | nil => exact ⟨[], [], b, rfl, rfl, by simp, rfl, rfl, le_refl _, fun _ => ⟨rfl, rfl⟩⟩
  | cons c bs ih =>
      by_cases hm : b.free ∧ c.free ∧ c.addr = b.fin
      · rw [mergeFrom_touching hm.1 hm.2.1 hm.2.2]
        obtain ⟨absorbed, rest, b', hbs, hmerge, habs, haddr, hfree, hfin, -⟩ := ih (b.join c)
        rw [Block.join_fin hm.2.2] at hfin
        have hbc : b.fin ≤ c.fin := by
          rw [← hm.2.2]
          unfold Block.fin
          omega
        refine ⟨c :: absorbed, rest, b', by rw [hbs]; rfl, hmerge, ?_, haddr, hfree,
          hbc.trans hfin, fun hapart => absurd hm.2.2 (hapart c (by simp))⟩
        intro d hd
        rcases List.mem_cons.mp hd with rfl | hd
        · exact ⟨hm.2.1, hfin⟩
        · exact habs d hd
      · rw [mergeFrom_apart hm]
        exact ⟨[], c :: bs, b, rfl, rfl, by simp, rfl, rfl, le_refl _, fun _ => ⟨rfl, rfl⟩⟩

/-- Merging neither invents addresses nor reaches beyond the blocks it had. -/
theorem mem_mergeFrom {b c : Block} {bs : List Block} (h : c ∈ mergeFrom b bs) :
    (∃ d ∈ b :: bs, d.addr = c.addr) ∧ ∃ d ∈ b :: bs, c.fin ≤ d.fin := by
  induction bs generalizing b with
  | nil =>
      rw [List.mem_singleton.mp h]
      exact ⟨⟨b, by simp, rfl⟩, b, by simp, le_refl _⟩
  | cons e bs ih =>
      by_cases hm : b.free ∧ e.free ∧ e.addr = b.fin
      · rw [mergeFrom_touching hm.1 hm.2.1 hm.2.2] at h
        obtain ⟨⟨d, hd, hdaddr⟩, d', hd', hdfin⟩ := ih h
        refine ⟨?_, ?_⟩
        · rcases List.mem_cons.mp hd with rfl | hd
          · exact ⟨b, by simp, hdaddr⟩
          · exact ⟨d, by simp [hd], hdaddr⟩
        · rcases List.mem_cons.mp hd' with rfl | hd'
          · rw [Block.join_fin hm.2.2] at hdfin
            exact ⟨e, by simp, hdfin⟩
          · exact ⟨d', by simp [hd'], hdfin⟩
      · rw [mergeFrom_apart hm] at h
        rcases List.mem_cons.mp h with rfl | h
        · exact ⟨⟨c, by simp, rfl⟩, c, by simp, le_refl _⟩
        · obtain ⟨⟨d, hd, hdaddr⟩, d', hd', hdfin⟩ := ih h
          exact ⟨⟨d, by simp [List.mem_cons.mp hd], hdaddr⟩, d',
            by simp [List.mem_cons.mp hd'], hdfin⟩

theorem mem_merge {c : Block} {bs : List Block} (h : c ∈ merge bs) :
    (∃ d ∈ bs, d.addr = c.addr) ∧ ∃ d ∈ bs, c.fin ≤ d.fin := by
  cases bs with
  | nil => cases h
  | cons b bs => exact mem_mergeFrom h

theorem merge_head (bs : List Block) :
    ((merge bs).map Block.addr).headD 0 = (bs.map Block.addr).headD 0 := by
  cases bs with
  | nil => rfl
  | cons b bs =>
      obtain ⟨c, cs, hmerge, haddr⟩ := mergeFrom_head b bs
      rw [merge, hmerge]
      exact haddr

/-! ## Releasing -/

@[simp] theorem release_map_addr (p : Nat) (bs : List Block) :
    (release p bs).map Block.addr = bs.map Block.addr := by
  simp [release]

theorem mem_release {p : Nat} {bs : List Block} {c : Block} (h : c ∈ release p bs) :
    ∃ d ∈ bs, d.addr = c.addr ∧ d.fin = c.fin := by
  obtain ⟨d, hd, rfl⟩ := List.mem_map.mp h
  exact ⟨d, hd, by simp, by simp⟩

theorem layout_release {bs : List Block} (p : Nat) (h : Layout bs) : Layout (release p bs) := by
  refine ⟨?_, ?_, ?_, ?_⟩
  · intro c hc
    obtain ⟨b, hb, rfl⟩ := List.mem_map.mp hc
    simpa using h.aligned b hb
  · intro c hc
    obtain ⟨b, hb, rfl⟩ := List.mem_map.mp hc
    simpa using h.nonNull b hb
  · apply List.pairwise_map.mpr
    apply h.sorted.imp
    intro b c hbc
    simpa using hbc
  · intro c hc
    obtain ⟨b, hb, rfl⟩ := List.mem_map.mp hc
    simpa using h.bounded b hb

theorem covered_release (p : Nat) (bs : List Block) : covered (release p bs) = covered bs := by
  ext a
  simp [covered, release]

theorem mem_live_release {bs : List Block} {p : Nat} {b : Block} :
    b ∈ live (release p bs) ↔ b ∈ live bs ∧ b.payload ≠ p := by
  rw [mem_live, mem_live]
  constructor
  · rintro ⟨hb, hfree⟩
    obtain ⟨c, hc, rfl⟩ := List.mem_map.mp hb
    by_cases hcp : c.payload = p
    · rw [Block.releasedAt, if_pos hcp] at hfree
      cases hfree
    · rw [Block.releasedAt_of_ne hcp] at hfree ⊢
      exact ⟨⟨hc, hfree⟩, hcp⟩
  · rintro ⟨⟨hb, hfree⟩, hbp⟩
    exact ⟨List.mem_map.mpr ⟨b, hb, Block.releasedAt_of_ne hbp⟩, hfree⟩

theorem mem_used_release {bs : List Block} {p q : Nat} :
    q ∈ used (release p bs) ↔ q ∈ used bs ∧ q ≠ p := by
  have hlive : ∀ cs : List Block, q ∈ used cs ↔ ∃ b ∈ live cs, b.payload = q := fun _ =>
    List.mem_map
  rw [hlive, hlive]
  simp only [mem_live_release]
  constructor
  · rintro ⟨b, ⟨hb, hbp⟩, rfl⟩
    exact ⟨⟨b, hb, rfl⟩, hbp⟩
  · rintro ⟨⟨b, hb, rfl⟩, hbp⟩
    exact ⟨b, ⟨hb, hbp⟩, rfl⟩

end StakOS.Kmalloc
