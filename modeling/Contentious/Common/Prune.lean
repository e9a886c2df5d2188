import Contentious.Common.Radix

/-!
# Prune — scans that jump over blocks

A scan in steps of one that may jump over a whole block of `W ^ (n + 1)`
indices, when all of it can be skipped, adds the block's width to the
index it is at. That is the next block's first index only if the index was
its own block's first. `Aligned` is the invariant: whichever block at hand
can be skipped, the index is the first of it. Jumps over blocks and steps
of one both keep it, as long as nothing larger could have been skipped.

A scan that starts elsewhere (`Stops`) keeps its distance from the first
index of the block it is in, and steps over the heads of the blocks that
follow. It finds the next index that cannot be skipped (`First`) just when
narrow blocks have taken up that distance by then (`Lands`,
`Stops.first_iff`).
-/

namespace Prune

variable {B W c d i j l k m n r : ℕ} {same : ℕ → ℕ → Prop}

/-- `same i l`, that the block of level `l` around `i` can be skipped, says
so of the block. -/
def OfBlock (W : ℕ) (same : ℕ → ℕ → Prop) : Prop :=
  ∀ i j l, Radix.pos W i l = Radix.pos W j l → same i l → same j l

/-- The index is the first of every block around it that can be skipped. -/
def Aligned (W : ℕ) (same : ℕ → ℕ → Prop) (i : ℕ) : Prop := ∀ l, same i l → W ^ (l + 1) ∣ i

theorem aligned_zero : Aligned W same 0 := fun _ _ => dvd_zero _

/-- **A step of a block's width** from its first index leaves the scan
aligned, where no larger block could have been skipped. -/
theorem aligned_add (hW : 0 < W) (hb : OfBlock W same) (hk : W ^ k ∣ i)
    (hno : ∀ l, k ≤ l → ¬ same i l) : Aligned W same (i + W ^ k) := by
  intro l hl
  rcases Nat.lt_or_ge l k with hlk | hkl
  · -- a smaller block starts with the step
    exact (pow_dvd_pow W hlk).trans (Nat.dvd_add hk (Nat.dvd_refl _))
  · -- a larger one was there before, unless it starts here
    by_contra hnd
    refine hno l hkl (hb _ _ l ?_ hl)
    obtain ⟨c, hc⟩ := hk
    obtain ⟨e, he⟩ := pow_dvd_pow W (show k ≤ l + 1 by omega)
    have hWk : 0 < W ^ k := Nat.pow_pos hW
    have hdiv : ∀ x, W ^ k * x / W ^ (l + 1) = x / e := fun x => by
      rw [he]
      exact Nat.mul_div_mul_left x e hWk
    have hsucc : i + W ^ k = W ^ k * (c + 1) := by rw [hc, Nat.mul_succ]
    have hne : ¬ e ∣ c + 1 := fun hd => hnd (by
      rw [hsucc, he]
      exact Nat.mul_dvd_mul_left _ hd)
    rw [Radix.pos, Radix.pos, hsucc, hc, hdiv, hdiv]
    exact Nat.succ_div_of_not_dvd hne

/-- What a jump passes lies in the block. -/
theorem OfBlock.passed (hW : 0 < W) (hb : OfBlock W same) (ha : Aligned W same i)
    (hl : same i l) (hi : i ≤ c) (hc : c < i + W ^ (l + 1)) : same c l := by
  refine hb i c l ?_ hl
  obtain ⟨e, rfl⟩ := ha l hl
  have hWl : 0 < W ^ (l + 1) := Nat.pow_pos hW
  rw [Radix.pos, Radix.pos, Nat.mul_div_cancel_left _ hWl]
  refine (Nat.div_eq_of_lt_le ?_ ?_).symm
  · rw [Nat.mul_comm]
    exact hi
  · rw [Nat.mul_comm, Nat.mul_succ]
    exact hc

/-! ## From any start -/

/-- The widest block around `i` that can be skipped is that of level `l`. -/
def Widest (same : ℕ → ℕ → Prop) (i l : ℕ) : Prop := same i l ∧ ∀ m, l < m → ¬ same i m

/-- Where a scan below `n` stops that starts at `i` and jumps by the width
of the widest block that can be skipped. -/
inductive Stops (W : ℕ) (same : ℕ → ℕ → Prop) (n : ℕ) : ℕ → ℕ → Prop
  | past {i : ℕ} (h : n ≤ i) : Stops W same n i n
  | here {i : ℕ} (h : i < n) (hno : ∀ l, ¬ same i l) : Stops W same n i i
  | jump {i l r : ℕ} (h : i < n) (hl : Widest same i l) (hr : Stops W same n (i + W ^ (l + 1)) r) :
      Stops W same n i r

/-- The next index from `i` on that cannot be skipped, which is `n` where
there is none below. -/
def First (same : ℕ → ℕ → Prop) (n i r : ℕ) : Prop :=
  IsLeast {j | i ≤ j ∧ j < n ∧ ∀ l, ¬ same j l} r ∨ r = n ∧ ∀ j, i ≤ j → j < n → ∃ l, same j l

/-- From `i` on, the first index of a block, a distance of `d` is taken up.
A block as wide as what is left of it, or narrower, takes off its width; a
wider one takes nothing; at the next index that cannot be skipped nothing
may be left. -/
inductive UsedUp (W : ℕ) (same : ℕ → ℕ → Prop) (n : ℕ) : ℕ → ℕ → Prop
  | past {i d : ℕ} (h : n ≤ i) : UsedUp W same n i d
  | differs {i : ℕ} (hno : ∀ l, ¬ same i l) : UsedUp W same n i 0
  | narrow {i d l : ℕ} (hl : Widest same i l) (hd : W ^ (l + 1) ≤ d)
      (hu : UsedUp W same n (i + W ^ (l + 1)) (d - W ^ (l + 1))) : UsedUp W same n i d
  | wide {i d l : ℕ} (hl : Widest same i l) (hd : d < W ^ (l + 1))
      (hu : UsedUp W same n (i + W ^ (l + 1)) d) : UsedUp W same n i d

/-- The distance of `i` from the first index of the widest block around it
that can be skipped is taken up by the blocks from there on. -/
def Lands (W : ℕ) (same : ℕ → ℕ → Prop) (n i : ℕ) : Prop :=
  i < n → ∀ l, Widest same i l → UsedUp W same n (Radix.down (W ^ (l + 1)) i) (i % W ^ (l + 1))

theorem Widest.unique (hl : Widest same i l) (hm : Widest same i m) : l = m := by
  rcases Nat.lt_trichotomy l m with h | h | h
  · exact absurd hm.1 (hl.2 m h)
  · exact h
  · exact absurd hl.1 (hm.2 l h)

/-- Levels have a bound, so there is a widest one. -/
theorem exists_widest (hB : ∀ i l, same i l → l ≤ B) (hl : same i l) : ∃ m, Widest same i m := by
  classical
  refine ⟨Nat.findGreatest (same i) B, Nat.findGreatest_spec (hB i l hl) hl, fun m hm hs => ?_⟩
  exact Nat.findGreatest_is_greatest hm (hB i m hs) hs

/-- It is the widest around all that it holds. -/
theorem Widest.ofBlock (hb : OfBlock W same) (hl : Widest same i l)
    (hpos : Radix.pos W i l = Radix.pos W j l) : Widest same j l :=
  ⟨hb i j l hpos hl.1, fun m hm hs => hl.2 m hm (hb j i m (Radix.pos_congr hpos hm.le).symm hs)⟩

/-- An index within the width of a block's first is in the block. -/
theorem pos_add_of_lt (hd : W ^ (l + 1) ∣ i) (hc : c < W ^ (l + 1)) :
    Radix.pos W i l = Radix.pos W (i + c) l := by
  obtain ⟨e, rfl⟩ := hd
  have hWl : 0 < W ^ (l + 1) := by omega
  rw [Radix.pos, Radix.pos, Nat.mul_add_div hWl, Nat.div_eq_of_lt hc,
    Nat.mul_div_cancel_left _ hWl, Nat.add_zero]

/-- The first index of the widest block is aligned. -/
theorem Widest.aligned (hl : Widest same i l) (hd : W ^ (l + 1) ∣ i) : Aligned W same i := by
  intro m hm
  rcases Nat.lt_or_ge l m with hlm | hml
  · exact absurd hm (hl.2 m hlm)
  · exact (pow_dvd_pow W (Nat.succ_le_succ hml)).trans hd

/-- What comes before the next that cannot be skipped can be. -/
theorem First.skips (hf : First same n i r) (hr : r ≤ n) (h1 : i ≤ c) (h2 : c < r) :
    ∃ l, same c l := by
  rcases hf with ⟨-, hleast⟩ | ⟨rfl, hall⟩
  · by_contra hno
    exact absurd (hleast ⟨h1, by omega, fun l hl => hno ⟨l, hl⟩⟩) (Nat.not_le.2 h2)
  · exact hall c h1 h2

theorem Stops.le (hs : Stops W same n i r) : r ≤ n := by
  induction hs with
  | past => exact le_rfl
  | here h => exact h.le
  | jump _ _ _ ih => exact ih

/-- A scan stops where nothing can be skipped, or at the end. -/
theorem Stops.stands (hs : Stops W same n i r) :
    r = n ∨ i ≤ r ∧ r < n ∧ ∀ l, ¬ same r l := by
  induction hs with
  | past => exact .inl rfl
  | here h hno => exact .inr ⟨le_rfl, h, hno⟩
  | jump _ _ _ ih => exact ih.imp_right fun ⟨hle, h⟩ => ⟨by omega, h⟩

theorem UsedUp.zero (hW : 0 < W) (hb : OfBlock W same) (hB : ∀ i l, same i l → l ≤ B)
    (ha : Aligned W same i) : UsedUp W same n i 0 := by
  induction hn : n - i using Nat.strong_induction_on generalizing i with
  | _ left ih =>
    rcases Nat.lt_or_ge i n with hi | hi
    · by_cases hs : ∃ l, same i l
      · obtain ⟨l, hl⟩ := exists_widest hB hs.choose_spec
        have hWl : 0 < W ^ (l + 1) := Nat.pow_pos hW
        exact .wide hl hWl (ih _ (by omega) (aligned_add hW hb (ha l hl.1) hl.2) rfl)
      · exact .differs fun l hl => hs ⟨l, hl⟩
    · exact .past hi

/-- **The distance decides.** A scan that is `d` past the first index of a
block passes only what can be skipped just when `d` is taken up. -/
theorem Stops.skips_iff (hW : 0 < W) (hb : OfBlock W same) (hB : ∀ i l, same i l → l ≤ B)
    (ha : Aligned W same i) (hs : Stops W same n (i + d) r) :
    (∀ c, i ≤ c → c < r → ∃ l, same c l) ↔ UsedUp W same n i d := by
  induction hn : n - i using Nat.strong_induction_on generalizing i d with
  | _ left ih =>
    have hle := hs.le
    rcases Nat.lt_or_ge i n with hi | hi
    · by_cases hsame : ∃ l, same i l
      · obtain ⟨l, hl⟩ := exists_widest hB hsame.choose_spec
        have hWl : 0 < W ^ (l + 1) := Nat.pow_pos hW
        have hpass : ∀ c, i ≤ c → c < i + W ^ (l + 1) → same c l :=
          fun c => hb.passed hW ha hl.1
        have hnext := aligned_add hW hb (ha l hl.1) hl.2
        -- what the block holds is passed, so it is the rest that counts
        have hrest : (∀ c, i ≤ c → c < r → ∃ l, same c l) ↔
            ∀ c, i + W ^ (l + 1) ≤ c → c < r → ∃ l, same c l := by
          refine ⟨fun h c hc => h c (by omega), fun h c h1 h2 => ?_⟩
          rcases Nat.lt_or_ge c (i + W ^ (l + 1)) with hc | hc
          · exact ⟨l, hpass c h1 hc⟩
          · exact h c hc h2
        rw [hrest]
        rcases Nat.lt_or_ge d (W ^ (l + 1)) with hd | hd
        · -- the scan jumps over a wide block and keeps its distance
          have hwidest : Widest same (i + d) l := hl.ofBlock hb (pos_add_of_lt (ha l hl.1) hd)
          have hs' : Stops W same n (i + W ^ (l + 1) + d) r := by
            rw [Nat.add_right_comm]
            cases hs with
            | past h => exact .past (by omega)
            | here h hno => exact absurd hwidest.1 (hno l)
            | jump h hm hr => rwa [hwidest.unique hm]
          rw [ih _ (by omega) hnext hs' rfl]
          refine ⟨.wide hl hd, fun hu => ?_⟩
          cases hu with
          | past h => omega
          | differs hno => exact absurd hl.1 (hno l)
          | narrow hm hdm _ =>
            rw [← hl.unique hm] at hdm
            omega
          | wide hm _ hu => rwa [hl.unique hm]
        · -- it is past a narrow one
          have hs' : Stops W same n (i + W ^ (l + 1) + (d - W ^ (l + 1))) r := by
            rwa [Nat.add_assoc, Nat.add_sub_cancel' hd]
          rw [ih _ (by omega) hnext hs' rfl]
          refine ⟨.narrow hl hd, fun hu => ?_⟩
          cases hu with
          | past h => omega
          | differs hno => exact absurd hl.1 (hno l)
          | narrow hm _ hu => rwa [hl.unique hm]
          | wide hm hdm _ =>
            rw [← hl.unique hm] at hdm
            omega
      · have hno : ∀ l, ¬ same i l := fun l hl => hsame ⟨l, hl⟩
        rcases Nat.eq_zero_or_pos d with rfl | hd
        · refine iff_of_true (fun c h1 h2 => ?_) (.differs hno)
          cases hs with
          | past h => omega
          | here h _ => omega
          | jump _ hl _ => exact absurd hl.1 (hno _)
        · -- the scan starts beyond an index that it should stop at
          have hr : i < r := by
            rcases hs.stands with h | h
            · omega
            · omega
          refine iff_of_false (fun h => hsame (h i le_rfl hr)) fun hu => ?_
          cases hu with
          | past h => omega
          | differs => exact absurd hd (Nat.lt_irrefl 0)
          | narrow hl _ _ => exact hno _ hl.1
          | wide hl _ _ => exact hno _ hl.1
    · exact iff_of_true (fun c h1 h2 => by omega) (.past hi)

/-- **From the first index of a block**, only what can be skipped is passed. -/
theorem Stops.skips (hW : 0 < W) (hb : OfBlock W same) (hB : ∀ i l, same i l → l ≤ B)
    (ha : Aligned W same i) (hs : Stops W same n i r) (h1 : i ≤ c) (h2 : c < r) : ∃ l, same c l :=
  (skips_iff (d := 0) hW hb hB ha hs).2 (.zero hW hb hB ha) c h1 h2

/-- **From any index**, the scan finds the next that cannot be skipped just
when it lands. -/
theorem Stops.first_iff (hW : 0 < W) (hb : OfBlock W same) (hB : ∀ i l, same i l → l ≤ B)
    (hs : Stops W same n i r) : First same n i r ↔ Lands W same n i := by
  have hle := hs.le
  have hskips : First same n i r ↔ ∀ c, i ≤ c → c < r → ∃ l, same c l := by
    refine ⟨fun hf c => hf.skips hle, fun hall => ?_⟩
    rcases hs.stands with rfl | ⟨hir, hr, hno⟩
    · exact .inr ⟨rfl, hall⟩
    · refine .inl ⟨⟨hir, hr, hno⟩, fun j ⟨h1, _, hj⟩ => ?_⟩
      by_contra hlt
      obtain ⟨l, hl⟩ := hall j h1 (Nat.lt_of_not_le hlt)
      exact hj l hl
  rw [hskips]
  rcases Nat.lt_or_ge i n with hi | hi
  · by_cases hsame : ∃ l, same i l
    · obtain ⟨l, hl⟩ := exists_widest hB hsame.choose_spec
      have hWl : 0 < W ^ (l + 1) := Nat.pow_pos hW
      have hmod := Nat.mod_lt i hWl
      have hdown : Radix.down (W ^ (l + 1)) i + i % W ^ (l + 1) = i := by
        rw [Radix.down, Nat.mul_comm]
        exact Nat.div_add_mod i _
      have hd := Radix.dvd_down (W ^ (l + 1)) i
      have hpos := pos_add_of_lt hd hmod
      rw [hdown] at hpos
      have hstart : Widest same (Radix.down (W ^ (l + 1)) i) l := hl.ofBlock hb hpos.symm
      have ha := hstart.aligned hd
      have hiff := skips_iff (d := i % W ^ (l + 1)) hW hb hB ha (by rwa [hdown])
      constructor
      · intro hall _ m hm
        rw [← hl.unique hm, ← hiff]
        intro c h1 h2
        rcases Nat.lt_or_ge c i with hc | hc
        · exact ⟨l, hb.passed hW ha hstart.1 h1 (by omega)⟩
        · exact hall c hc h2
      · intro hlands c h1 h2
        exact hiff.2 (hlands hi l hl) c ((Radix.down_le _ i).trans h1) h2
    · -- it stops at once
      refine iff_of_true (fun c h1 h2 => ?_) fun _ l hl => absurd ⟨l, hl.1⟩ hsame
      cases hs with
      | past h => omega
      | here h _ => omega
      | jump _ hl _ => exact absurd ⟨_, hl.1⟩ hsame
  · exact iff_of_true (fun c h1 h2 => by omega) fun h => absurd h (Nat.not_lt.2 hi)

/-- The first index of the widest block lands. -/
theorem Aligned.lands (hW : 0 < W) (hb : OfBlock W same) (hB : ∀ i l, same i l → l ≤ B)
    (ha : Aligned W same i) : Lands W same n i := by
  intro _ l hl
  have hd := ha l hl.1
  rw [Radix.down_of_dvd (Nat.pow_pos hW) hd, Nat.mod_eq_zero_of_dvd hd]
  exact .zero hW hb hB ha

end Prune
