import Mathlib.Algebra.Order.Ring.Nat
import Mathlib.Tactic.Ring

/-!
# Radix — the digits of an index

The index arithmetic of a radix tree, and nothing about any tree. At
width `W` the index `i` has a digit at every level, and `pos W i n` is
the place, counted from the left, of the level-`n` range of `W ^ (n + 1)`
indices that holds `i`. Descending one level multiplies the place by `W`
and adds a digit (`pos_eq`), so a place fixes every place above it
(`pos_congr`) and the index is what the lowest place and digit say
(`eq_of_pos_zero`). The bit operations of a power-of-two width are these
digits (`shiftRight_and_mask`).
-/

namespace Radix

variable {W i j n m : ℕ}

/-- The place, among the ranges of `W ^ (n + 1)` indices, of the one that
holds `i`. -/
def pos (W i n : ℕ) : ℕ := i / W ^ (n + 1)

/-- The digit of `i` that selects a child of a level-`n` node. -/
def digit (W i n : ℕ) : ℕ := i / W ^ n % W

/-- **One level down is one digit more.** -/
theorem pos_eq (W i n : ℕ) : pos W i n = pos W i (n + 1) * W + digit W i (n + 1) := by
  have h : i / W ^ (n + 1 + 1) = i / W ^ (n + 1) / W := by
    rw [Nat.div_div_eq_div_mul, ← pow_succ]
  simp only [pos, digit, h]
  rw [Nat.mul_comm]
  exact (Nat.div_add_mod _ _).symm

theorem eq_pos_zero (W i : ℕ) : i = pos W i 0 * W + digit W i 0 := by
  simp only [pos, digit, pow_zero, zero_add, pow_one, Nat.div_one]
  rw [Nat.mul_comm]
  exact (Nat.div_add_mod _ _).symm

/-- The whole tree is the single range at place zero. -/
theorem pos_eq_zero (h : i < W ^ (n + 1)) : pos W i n = 0 := Nat.div_eq_of_lt h

/-- A place fixes the place one level up, -/
theorem pos_succ (W i n : ℕ) : pos W i (n + 1) = pos W i n / W := by
  simp only [pos]
  rw [Nat.div_div_eq_div_mul, ← pow_succ]

/-- and so every place above it. -/
theorem pos_congr (h : pos W i n = pos W j n) (hnm : n ≤ m) : pos W i m = pos W j m := by
  induction m, hnm using Nat.le_induction with
  | base => exact h
  | succ m _ ih => rw [pos_succ, pos_succ, ih]

/-- An index with the place of one that fits does. -/
theorem lt_of_pos_eq (hW : 0 < W) (h : pos W i n = pos W j n) (hnm : n ≤ m)
    (hj : j < W ^ (m + 1)) : i < W ^ (m + 1) := by
  have hm := pos_congr h hnm
  rw [pos_eq_zero hj, pos, Nat.div_eq_zero_iff] at hm
  exact hm.resolve_left (Nat.pow_pos hW).ne'

/-- It fixes the digit that led to it. -/
theorem digit_congr (h : pos W i n = pos W j n) : digit W i (n + 1) = digit W j (n + 1) := by
  simp only [pos, digit] at h ⊢
  rw [h]

/-- **The lowest place and digit are the index.** -/
theorem eq_of_pos_zero (hp : pos W i 0 = pos W j 0) (hd : digit W i 0 = digit W j 0) : i = j := by
  rw [eq_pos_zero W i, eq_pos_zero W j, hp, hd]

/-! ## Multiples -/

/-- An index below a multiple of a range's width sits in an earlier range. -/
theorem pos_ne_of_dvd (hW : 0 < W) (hd : W ^ (n + 1) ∣ j) (h : i < j) :
    pos W i n ≠ pos W j n := by
  obtain ⟨c, rfl⟩ := hd
  simp only [pos]
  rw [Nat.mul_div_cancel_left _ (Nat.pow_pos hW)]
  have : i / W ^ (n + 1) < c := Nat.div_lt_of_lt_mul h
  omega

/-- A multiple whose digit is not zero shares its place with the range
just below it. -/
theorem pos_sub_of_dvd (hW : 1 < W) (hd : W ^ n ∣ i) (hn : ¬ W ^ (n + 1) ∣ i) :
    pos W (i - W ^ n) n = pos W i n := by
  obtain ⟨c, rfl⟩ := hd
  have hWn : 0 < W ^ n := Nat.pow_pos (by omega)
  have hc : c % W ≠ 0 := by
    intro h
    obtain ⟨e, rfl⟩ := Nat.dvd_of_mod_eq_zero h
    exact hn ⟨e, by rw [pow_succ, Nat.mul_assoc]⟩
  have hsub : W ^ n * c - W ^ n = W ^ n * (c - 1) := by rw [Nat.mul_sub, Nat.mul_one]
  simp only [pos, hsub, pow_succ]
  rw [Nat.mul_div_mul_left _ _ hWn, Nat.mul_div_mul_left _ _ hWn]
  have hc0 : c ≠ 0 := by rintro rfl; simp at hc
  obtain ⟨e, rfl⟩ := Nat.exists_eq_succ_of_ne_zero hc0
  rw [Nat.succ_sub_one, Nat.succ_div_of_not_dvd]
  exact fun h => hc (Nat.mod_eq_zero_of_dvd h)

/-! ## Rounding

`up m i` is the first multiple of `m` from `i` on, `down m i` the last one
up to `i`. -/

/-- The first multiple of `m` that is not below `i`. -/
def up (m i : ℕ) : ℕ := (i + m - 1) / m * m

/-- The last multiple of `m` that is not above `i`. -/
def down (m i : ℕ) : ℕ := i / m * m

section

variable {q : ℕ}

theorem dvd_up (m i : ℕ) : m ∣ up m i := Nat.dvd_mul_left m _

theorem dvd_down (m i : ℕ) : m ∣ down m i := Nat.dvd_mul_left m _

theorem down_le (m i : ℕ) : down m i ≤ i := Nat.div_mul_le_self i m

theorem lt_down_add (hm : 0 < m) (i : ℕ) : i < down m i + m := by
  have h := Nat.div_add_mod i m
  have hr := Nat.mod_lt i hm
  rw [Nat.mul_comm] at h
  rw [down]
  omega

theorem le_up (hm : 0 < m) (i : ℕ) : i ≤ up m i := by
  have h := Nat.div_add_mod (i + m - 1) m
  have hr := Nat.mod_lt (i + m - 1) hm
  rw [Nat.mul_comm] at h
  rw [up]
  omega

theorem up_lt (hm : 0 < m) (i : ℕ) : up m i < i + m := by
  have h := Nat.div_mul_le_self (i + m - 1) m
  rw [up]
  omega

/-- It is the first one, -/
theorem up_le (hm : 0 < m) (hq : m ∣ q) (h : i ≤ q) : up m i ≤ q := by
  obtain ⟨c, rfl⟩ := hq
  rw [up, Nat.mul_comm m c]
  refine Nat.mul_le_mul_right m (Nat.lt_succ_iff.1 ((Nat.div_lt_iff_lt_mul hm).2 ?_))
  rw [Nat.succ_mul, Nat.mul_comm c m]
  omega

/-- and the last one. -/
theorem le_down (hm : 0 < m) (hq : m ∣ q) (h : q ≤ i) : q ≤ down m i := by
  obtain ⟨c, rfl⟩ := hq
  rw [down, Nat.mul_comm m c]
  refine Nat.mul_le_mul_right m ((Nat.le_div_iff_mul_le hm).2 ?_)
  rw [Nat.mul_comm]
  exact h

theorem up_of_dvd (hm : 0 < m) (h : m ∣ i) : up m i = i :=
  le_antisymm (up_le hm h le_rfl) (le_up hm i)

theorem down_of_dvd (hm : 0 < m) (h : m ∣ i) : down m i = i :=
  le_antisymm (down_le m i) (le_down hm h le_rfl)

/-- Between two multiples, one is the width above the other. -/
theorem up_of_not_dvd (hm : 0 < m) (h : ¬ m ∣ i) : up m i = down m i + m := by
  have hne : down m i ≠ i := fun he => h (he ▸ dvd_down m i)
  have hle := down_le m i
  have hd : m ∣ down m i + m := Nat.dvd_add (dvd_down m i) (Nat.dvd_refl m)
  refine le_antisymm (up_le hm hd (lt_down_add hm i).le) ?_
  obtain ⟨c, hc⟩ := dvd_up m i
  obtain ⟨e, he⟩ := dvd_down m i
  have hlt : e < c := by
    by_contra hge
    have := Nat.mul_le_mul_left m (Nat.le_of_not_lt hge)
    have := le_up hm i
    omega
  calc down m i + m = m * (e + 1) := by rw [he, Nat.mul_succ]
    _ ≤ m * c := Nat.mul_le_mul_left m hlt
    _ = up m i := hc.symm

/-- Rounding to a coarser multiple later is rounding to it at once. -/
theorem up_up (hm : 0 < m) (hq : 0 < q) (h : m ∣ q) : up q (up m i) = up q i :=
  le_antisymm
    (up_le hq (dvd_up q i) (up_le hm (h.trans (dvd_up q i)) (le_up hq i)))
    (up_le hq (dvd_up q _) ((le_up hm i).trans (le_up hq _)))

theorem down_le_down (hm : 0 < m) (hq : m ∣ q) (i : ℕ) : down q i ≤ down m i :=
  le_down hm (hq.trans (dvd_down q i)) (down_le q i)

end

/-! ## The digits of a multiple -/

/-- An index is its place, its digit and the rest. -/
theorem eq_pos_digit (W i n : ℕ) :
    i = pos W i n * W ^ (n + 1) + digit W i n * W ^ n + i % W ^ n := by
  have h1 := Nat.div_add_mod i (W ^ n)
  have h2 := Nat.div_add_mod (i / W ^ n) W
  have h3 : i / W ^ n / W = i / W ^ (n + 1) := by rw [Nat.div_div_eq_div_mul, ← pow_succ]
  rw [h3] at h2
  calc i = W ^ n * (i / W ^ n) + i % W ^ n := h1.symm
    _ = W ^ n * (W * (i / W ^ (n + 1)) + i / W ^ n % W) + i % W ^ n := by rw [h2]
    _ = pos W i n * W ^ (n + 1) + digit W i n * W ^ n + i % W ^ n := by
      rw [pos, digit, pow_succ]
      ring

/-- **The indices under the slots from `lo` up to `hi`** of one node. -/
theorem mem_slots {hi : ℕ} (k p lo : ℕ) (hW : 0 < W) (hhi : hi ≤ W) :
    p * W ^ (n + 1) + lo * W ^ n ≤ k ∧ k < p * W ^ (n + 1) + hi * W ^ n ↔
      pos W k n = p ∧ lo ≤ digit W k n ∧ digit W k n < hi := by
  have hWn : 0 < W ^ n := Nat.pow_pos hW
  have hk := eq_pos_digit W k n
  have hr := Nat.mod_lt k hWn
  have hd : digit W k n < W := Nat.mod_lt _ hW
  have hpow : W ^ (n + 1) = W * W ^ n := by rw [pow_succ, Nat.mul_comm]
  -- in units of a slot
  have hunit : ∀ c, p * W ^ (n + 1) + c * W ^ n = (p * W + c) * W ^ n := fun c => by
    rw [hpow]; ring
  have hku : k / W ^ n = pos W k n * W + digit W k n := by
    have h2 := Nat.div_add_mod (k / W ^ n) W
    rw [Nat.div_div_eq_div_mul, ← pow_succ, Nat.mul_comm] at h2
    exact h2.symm
  rw [hunit, hunit, ← Nat.le_div_iff_mul_le hWn, ← Nat.div_lt_iff_lt_mul hWn, hku]
  constructor
  · rintro ⟨h1, h2⟩
    have hp : pos W k n = p := by
      rcases Nat.lt_trichotomy (pos W k n) p with hlt | heq | hgt
      · have := Nat.mul_le_mul_right W hlt
        rw [Nat.succ_mul] at this
        omega
      · exact heq
      · have := Nat.mul_le_mul_right W hgt
        rw [Nat.succ_mul] at this
        omega
    rw [hp] at h1 h2
    exact ⟨hp, by omega, by omega⟩
  · rintro ⟨rfl, h1, h2⟩
    exact ⟨by omega, by omega⟩

theorem digit_lt (hW : 0 < W) (i n : ℕ) : digit W i n < W := Nat.mod_lt _ hW

/-- A multiple of a slot's width has nothing past its digit, -/
theorem eq_of_dvd (hd : W ^ n ∣ i) : i = pos W i n * W ^ (n + 1) + digit W i n * W ^ n := by
  have h := eq_pos_digit W i n
  rwa [Nat.mod_eq_zero_of_dvd hd, Nat.add_zero] at h

/-- and one of a node's width has no digit. -/
theorem digit_of_dvd (hW : 0 < W) (hd : W ^ (n + 1) ∣ i) : digit W i n = 0 := by
  obtain ⟨c, rfl⟩ := hd
  rw [digit, pow_succ, Nat.mul_assoc, Nat.mul_div_cancel_left _ (Nat.pow_pos hW),
    Nat.mul_mod_right]

theorem dvd_of_digit (hd : W ^ n ∣ i) (h0 : digit W i n = 0) : W ^ (n + 1) ∣ i := by
  have h := eq_of_dvd hd
  rw [h0, Nat.zero_mul, Nat.add_zero] at h
  exact ⟨_, by rw [Nat.mul_comm]; exact h⟩

/-- **The slots from a multiple to the end of its node** lead to the next
multiple of the node's width. -/
theorem up_eq (hW : 0 < W) (hnd : ¬ W ^ (n + 1) ∣ i) :
    up (W ^ (n + 1)) i = pos W i n * W ^ (n + 1) + W * W ^ n := by
  rw [up_of_not_dvd (Nat.pow_pos hW) hnd, down, pos, ← pow_succ']

/-- The slots before the digit of an index lead up to a multiple of their
width. -/
theorem down_eq (W i n : ℕ) : down (W ^ n) i = pos W i n * W ^ (n + 1) + digit W i n * W ^ n := by
  have h1 := eq_pos_digit W i n
  have h2 := Nat.div_add_mod i (W ^ n)
  rw [Nat.mul_comm] at h2
  rw [down]
  omega

/-- Indices between two of one place have it. -/
theorem pos_between {l : ℕ} (hij : pos W i n = pos W j n) (h1 : i ≤ l) (h2 : l ≤ j) :
    pos W l n = pos W i n :=
  le_antisymm (hij ▸ Nat.div_le_div_right h2) (Nat.div_le_div_right h1)

/-- Rounding stays between ends of different places. -/
theorem up_le_down (hW : 0 < W) (h : pos W i n < pos W j n) :
    up (W ^ (n + 1)) i ≤ down (W ^ (n + 1)) j := by
  have hWn : 0 < W ^ (n + 1) := Nat.pow_pos hW
  refine up_le hWn (dvd_down _ _) ?_
  have h1 := lt_down_add hWn i
  have h2 := Nat.mul_le_mul_right (W ^ (n + 1)) h
  rw [Nat.succ_mul] at h2
  change down (W ^ (n + 1)) i + W ^ (n + 1) ≤ down (W ^ (n + 1)) j at h2
  omega

/-! ## Bits -/

/-- **Shifting and masking reads a digit** of a power-of-two width. -/
theorem shiftRight_and_mask (b i n : ℕ) :
    (i >>> (n * b)) &&& (2 ^ b - 1) = digit (2 ^ b) i n := by
  rw [Nat.and_two_pow_sub_one_eq_mod, Nat.shiftRight_eq_div_pow, digit, Nat.mul_comm, pow_mul]

/-- Masking with one less than a power of the width keeps the remainder. -/
theorem and_pow_sub_one (b i n : ℕ) : i &&& ((2 ^ b) ^ n - 1) = i % (2 ^ b) ^ n := by
  rw [← pow_mul, Nat.and_two_pow_sub_one_eq_mod]

/-- Masking off the low bits of a `w`-bit number rounds it down. -/
theorem and_not_mask {w k x : ℕ} (hx : x < 2 ^ w) (hk : k ≤ w) :
    (BitVec.ofNat w x &&& ~~~BitVec.ofNat w (2 ^ k - 1)).toNat = down (2 ^ k) x := by
  have hle : 2 ^ k ≤ 2 ^ w := Nat.pow_le_pow_right (by omega) hk
  have hpos := Nat.two_pow_pos k
  have hmask : 2 ^ k - 1 < 2 ^ w := by omega
  have hflip : 2 ^ w - 1 - (2 ^ k - 1) = 2 ^ w - (2 ^ k - 1 + 1) := by omega
  rw [BitVec.toNat_and, BitVec.toNat_not, BitVec.toNat_ofNat, BitVec.toNat_ofNat,
    Nat.mod_eq_of_lt hx, Nat.mod_eq_of_lt hmask, hflip, down]
  apply Nat.eq_of_testBit_eq
  intro i
  rw [Nat.testBit_and, Nat.testBit_two_pow_sub_succ hmask, Nat.testBit_two_pow_sub_one,
    Nat.testBit_mul_two_pow, Nat.testBit_div_two_pow]
  by_cases hik : i < k
  · simp [hik, Nat.not_le.2 hik]
  · have hki := Nat.le_of_not_lt hik
    by_cases hi : i < w
    · simp [hik, hi, hki]
    · have hout : x.testBit i = false := Nat.testBit_lt_two_pow
        (lt_of_lt_of_le hx (Nat.pow_le_pow_right (by omega) (Nat.le_of_not_lt hi)))
      simp [hik, hi, hki, hout]

end Radix
