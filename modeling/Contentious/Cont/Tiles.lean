import Contentious.Cont.Blocks
import Mathlib.Algebra.BigOperators.Group.List.Basic
import Mathlib.Order.CompletePartialOrder
import Mathlib.Order.Interval.Set.Disjoint

/-!
# Cont — blocks that tile

`partition` rounds the length of a block up and cuts the ends of the blocks
off at the size, but not their starts. The blocks never overlap and always
cover the vector. But the last ones may start past the end, and end before
they start; they do unless all blocks but one fit (`tiles_iff`). Where they
do fit, what the blocks hold is the vector, one block after another
(`flatMap_blocks`).
-/

namespace Contentious.Cont

variable {hwconc sz p q n t : ℕ} {T : Type}

/-- `chunk_sz` of `partition` -/
def chunkSz (hwconc sz : ℕ) : ℕ := (sz + hwconc - 1) / hwconc

theorem partition_eq (hwconc p sz : ℕ) :
    partition hwconc p sz =
      (chunkSz hwconc sz * p, min (chunkSz hwconc sz * (p + 1)) sz) := rfl

/-- **The blocks tile the vector**: each ends where it starts or after, and
in the vector; they are disjoint, and cover it. -/
structure Tiles (hwconc sz : ℕ) : Prop where
  ordered : ∀ p < hwconc, (partition hwconc p sz).1 ≤ (partition hwconc p sz).2 ∧
    (partition hwconc p sz).2 ≤ sz
  disjoint : ∀ p < hwconc, ∀ q < hwconc, p ≠ q →
    Disjoint (Set.Ico (partition hwconc p sz).1 (partition hwconc p sz).2)
      (Set.Ico (partition hwconc q sz).1 (partition hwconc q sz).2)
  covers : ∀ t < sz, ∃ p < hwconc,
    t ∈ Set.Ico (partition hwconc p sz).1 (partition hwconc p sz).2

/-- All blocks but one fit. -/
def AllButOneFit (hwconc sz : ℕ) : Prop := (hwconc - 1) * chunkSz hwconc sz ≤ sz

instance (hwconc sz : ℕ) : Decidable (AllButOneFit hwconc sz) := inferInstanceAs (Decidable (_ ≤ _))

theorem le_chunkSz_mul (h : 0 < hwconc) : sz ≤ chunkSz hwconc sz * hwconc := by
  have hdiv := Nat.div_add_mod (sz + hwconc - 1) hwconc
  have hmod := Nat.mod_lt (sz + hwconc - 1) h
  rw [chunkSz, Nat.mul_comm]
  omega

theorem partition_snd_le (hwconc p sz : ℕ) : (partition hwconc p sz).2 ≤ sz := min_le_right _ _

/-- The blocks never overlap, -/
theorem partition_disjoint (hpq : p < q) :
    Disjoint (Set.Ico (partition hwconc p sz).1 (partition hwconc p sz).2)
      (Set.Ico (partition hwconc q sz).1 (partition hwconc q sz).2) := by
  refine Set.disjoint_left.2 fun t hp hq => ?_
  have h1 : t < chunkSz hwconc sz * (p + 1) := lt_of_lt_of_le hp.2 (min_le_left _ _)
  have h2 : chunkSz hwconc sz * q ≤ t := hq.1
  have h3 : chunkSz hwconc sz * (p + 1) ≤ chunkSz hwconc sz * q := Nat.mul_le_mul_left _ hpq
  omega

/-- and cover the vector. -/
theorem partition_covers (h : 0 < hwconc) (ht : t < sz) :
    ∃ p < hwconc, t ∈ Set.Ico (partition hwconc p sz).1 (partition hwconc p sz).2 := by
  have hle : sz ≤ chunkSz hwconc sz * hwconc := le_chunkSz_mul h
  have hpos : 0 < chunkSz hwconc sz := Nat.pos_of_ne_zero fun h0 => by
    rw [h0, Nat.zero_mul] at hle
    omega
  refine ⟨t / chunkSz hwconc sz, ?_, ?_, ?_⟩
  · rw [Nat.div_lt_iff_lt_mul hpos, Nat.mul_comm]
    omega
  · exact Nat.mul_div_le t _
  · exact lt_min (Nat.lt_mul_div_succ t hpos) ht

/-- A block that starts in the vector, or at its end, is in order. -/
theorem partition_ordered (hfits : AllButOneFit hwconc sz) (hp : p < hwconc) :
    (partition hwconc p sz).1 ≤ (partition hwconc p sz).2 := by
  have h1 : chunkSz hwconc sz * p ≤ chunkSz hwconc sz * (hwconc - 1) :=
    Nat.mul_le_mul_left _ (by omega)
  rw [AllButOneFit, Nat.mul_comm] at hfits
  exact le_min (Nat.mul_le_mul_left _ (Nat.le_succ p)) (h1.trans hfits)

/-- **The blocks tile** just when all but one fit. -/
theorem tiles_iff (h : 0 < hwconc) : Tiles hwconc sz ↔ AllButOneFit hwconc sz := by
  constructor
  · intro ht
    have hlast := (ht.ordered (hwconc - 1) (by omega)).1.trans (partition_snd_le ..)
    rw [AllButOneFit, Nat.mul_comm]
    exact hlast
  · intro hfits
    refine ⟨fun p hp => ⟨partition_ordered hfits hp, partition_snd_le ..⟩, fun p _ q _ hpq => ?_,
      fun t => partition_covers h⟩
    rcases Nat.lt_or_gt_of_ne hpq with hlt | hgt
    · exact partition_disjoint hlt
    · exact (partition_disjoint hgt).symm

/-! ## What the blocks hold -/

/-- The elements of the block of `p`. -/
def block (hwconc : ℕ) (L : List T) (p : ℕ) : List T :=
  let (a, b) := partition hwconc p L.length
  (L.drop a).take (b - a)

/-- The first blocks hold the first elements. -/
theorem flatMap_take (L : List T) (hfits : AllButOneFit hwconc L.length) (hn : n ≤ hwconc) :
    (List.range n).flatMap (block hwconc L) =
      L.take (min (chunkSz hwconc L.length * n) L.length) := by
  induction n with
  | zero => simp
  | succ n ih =>
    have hstart : chunkSz hwconc L.length * n ≤ L.length :=
      (partition_ordered hfits hn).trans (partition_snd_le ..)
    rw [List.range_succ, List.flatMap_append, ih (by omega), List.flatMap_singleton, block,
      partition_eq, min_eq_left hstart]
    have hle : chunkSz hwconc L.length * n ≤
        min (chunkSz hwconc L.length * (n + 1)) L.length :=
      le_min (Nat.mul_le_mul_left _ (Nat.le_succ n)) hstart
    dsimp only
    rw [← List.take_add, Nat.add_sub_cancel' hle]

/-- **The blocks hold the vector**, one after another. -/
theorem flatMap_blocks (h : 0 < hwconc) (L : List T) (hfits : AllButOneFit hwconc L.length) :
    (List.range hwconc).flatMap (block hwconc L) = L := by
  rw [flatMap_take L hfits le_rfl, min_eq_right (le_chunkSz_mul h), List.take_length]

/-- Their sums, in any order, add up to its sum. -/
theorem sum_map_blocks [AddCommMonoid T] (h : 0 < hwconc) (L : List T)
    (hfits : AllButOneFit hwconc L.length)
    {order : List ℕ} (horder : order.Perm (List.range hwconc)) :
    (order.map fun p => (block hwconc L p).sum).sum = L.sum := by
  rw [(horder.map _).sum_eq]
  conv_rhs => rw [← flatMap_blocks h L hfits, List.flatMap_def, List.sum_flatten, List.map_map]
  rfl

/-- Three blocks of one element, the last of which starts at two. -/
example : ¬ AllButOneFit 3 1 ∧ partition 3 2 1 = (2, 1) := by decide

end Contentious.Cont
