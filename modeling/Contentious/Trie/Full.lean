import Mathlib.Data.Nat.Log
import Contentious.Trie.Ids
import Contentious.Trie.Span

/-!
# Trie — copying to the end of a full trie

On a full trie the end of the vector is the capacity, and all its digits
are zero: on the way down it looks like index zero. `contained_at_shift`
then tells the digits of `a` from zeros, and finds the level of the
highest that is not one (`spanLevel`), however far the end may be. Where
that is the level of the root, the offset that is corrected for the end of
the vector makes up for it; where it is lower, the copy ends with the one
node at that level, and is a fault where the rounded start has left that
node already. A trie that is one leaf has no branches to copy at all.
-/

namespace Contentious

open BpVector

variable [K : BpBits] {T : Type}
variable {h h' : Heap T} {Ψ : Addr → Place} {r : Addr} {a b depth i j k n m rounds : ℕ}
variable {cp : Id → Bool} {id : Id} {v o : BpVector} {L M : List T} {g : Grafting T}

/-- The level where the digits of `a` part from those of an end whose
digits are zero, which is at least that of the leaves' parents. -/
def spanLevel (a : ℕ) : ℕ := max 1 (Nat.log bpWidth a)

/-- **The copies to the end that are exact**, on a full trie. -/
def FullCopies (h : Heap T) (v o : BpVector) (a : ℕ) : Prop :=
  (v.sz < 2 ^ 63 ∨ a + bpWidth ≤ v.sz) ∧
    if v.levels = 0 then 0 < a
    else spanLevel a = v.levels ∨
      a ≤ (bpWidth - 1) * bpWidth ^ spanLevel a ∧
        ∀ i, bpWidth ^ (spanLevel a + 1) ≤ i → i < v.sz → v.at' h i = o.at' h i

/-! ## An end that looks like zero -/

/-- The walks of `get_branch` look at slots only. -/
theorem branchFrom_congr (hslot : ∀ l, 1 ≤ l → l ≤ n → slot i (l * bpBits) = slot j (l * bpBits)) :
    branchFrom cp id i n depth h r = branchFrom cp id j n depth h r := by
  induction n generalizing depth h r with
  | zero => rfl
  | succ n ih =>
    rw [branchFrom, branchFrom, hslot (n + 1) (by omega) le_rfl]
    dsimp only
    split
    · rfl
    · congr 1
      funext p
      exact ih fun l h1 h2 => hslot l h1 (by omega)

/-- The capacity has the slots of zero, -/
theorem slot_capacity {l : ℕ} (hl : l ≤ n) :
    slot (bpWidth ^ (n + 1)) (l * bpBits) = slot 0 (l * bpBits) := by
  apply Fin.ext
  rw [slot_val, slot_val, Radix.digit_of_dvd bpWidth_pos (pow_dvd_pow _ (by omega)), Radix.digit,
    Nat.zero_div, Nat.zero_mod]

/-- so a branch that is looked for there is the first one. -/
theorem getBranchConst_capacity (h : Heap T) (o : BpVector) (d : ℕ) :
    getBranchConst h o d (bpWidth ^ (o.levels + 1)) = getBranchConst h o d 0 := by
  rw [getBranchConst, getBranchConst, branchWith, branchWith]
  dsimp only
  rw [branchFrom_congr (j := 0) fun l _ hl => slot_capacity hl]

theorem graft_capacity {D : Der} {d lo hi : ℕ} :
    graft D h v o d i (bpWidth ^ (o.levels + 1)) lo hi = graft D h v o d i 0 lo hi := by
  rw [graft, graft, getBranchConst_capacity]

theorem lt_pow_spanLevel (a : ℕ) : a < bpWidth ^ (spanLevel a + 1) :=
  lt_of_lt_of_le (Nat.lt_pow_succ_log_self one_lt_bpWidth a)
    (Nat.pow_le_pow_right bpWidth_pos (Nat.succ_le_succ (le_max_right _ _)))

theorem spanLevel_le (ha : a < bpWidth ^ (n + 1)) (hn : 1 ≤ n) : spanLevel a ≤ n := by
  refine max_le hn (Nat.lt_succ_iff.1 ?_)
  exact Nat.log_lt_of_lt_pow' (Nat.succ_ne_zero n) ha

/-- **`contained_at_shift`** of such an end finds the highest digit. -/
theorem containedAtShift_capacity (hP : Placed h Ψ) (hv : Holds h Ψ v L)
    (hfull : v.sz = bpWidth ^ (v.levels + 1)) (ha : a < v.sz) :
    containedAtShift h v a v.sz = .ok (spanLevel a - 1) := by
  have haL : a < L.length := by rw [← hv.size]; exact ha
  have hlog : Nat.log bpWidth a ≤ v.levels :=
    Nat.lt_succ_iff.1 (Nat.log_lt_of_lt_pow' (Nat.succ_ne_zero _) (hfull ▸ ha))
  have hzero : ∀ m ≤ v.levels, Radix.digit bpWidth v.sz m = 0 := fun m hm => by
    rw [hfull]
    exact Radix.digit_of_dvd bpWidth_pos (pow_dvd_pow _ (by omega))
  have hspan : spanLevel a - 1 = Nat.log bpWidth a - 1 := by
    rw [spanLevel]
    omega
  rw [containedAtShift, if_pos ha, hspan]
  refine containedFrom_eq hP hv.root_lt (hv.root_onPath (hfull ▸ ha)) (hv.read a haL) hlog
    (fun m h1 h2 => ?_) ?_
  · have hlt : a < bpWidth ^ m := lt_of_lt_of_le (Nat.lt_pow_succ_log_self one_lt_bpWidth a)
      (Nat.pow_le_pow_right bpWidth_pos h1)
    rw [hzero m h2, Radix.digit, Nat.div_eq_of_lt hlt, Nat.zero_mod]
  · by_cases h0 : Nat.log bpWidth a = 0
    · exact .inl h0
    · refine .inr ?_
      have ha0 : a ≠ 0 := by
        rintro rfl
        exact h0 (Nat.log_zero_right _)
      have h1 := Nat.pow_log_le_self bpWidth ha0
      have h2 := Nat.lt_pow_succ_log_self one_lt_bpWidth a
      rw [hzero _ hlog, Radix.digit]
      have h3 : a / bpWidth ^ Nat.log bpWidth a < bpWidth := by
        rw [Nat.div_lt_iff_lt_mul (Nat.pow_pos bpWidth_pos), ← pow_succ']
        exact h2
      have h4 := Nat.div_pos h1 (Nat.pow_pos bpWidth_pos)
      rw [Nat.mod_eq_of_lt h3]
      omega

/-- The way down from a multiple finds nothing to do. -/
theorem fall_idle (hb : bpWidth ^ (m + 1) ∣ b) (hW : bpWidth ^ (m + 1) ≤ 2 ^ 63) (hb' : b ≤ 2 ^ 63)
    (hrounds : m ≤ rounds) :
    loop .rounds (fun g => g.interval != bpWidth) (graftDown .tr o b) rounds
      ⟨h, v, bpWidth ^ (m + 1), b, m + 1⟩ = .ok ⟨h, v, bpWidth, b, 1⟩ := by
  obtain ⟨g, k, hloop, ⟨hk, rfl⟩, hdone⟩ := loop_counts Fault.rounds
    (fun g => g.interval != bpWidth) (graftDown .tr o b) (n := m)
    (I := fun k g => k ≤ m ∧ g = (⟨h, v, bpWidth ^ (k + 1), b, k + 1⟩ : Grafting T))
    (fun k g ⟨hk, hg⟩ hgo => by
      subst hg
      have hk0 : k ≠ 0 := by
        rintro rfl
        simp at hgo
      obtain ⟨l, rfl⟩ := Nat.exists_eq_succ_of_ne_zero hk0
      have hdvd : bpWidth ^ (l + 1) ∣ b := (pow_dvd_pow _ (by omega)).trans hb
      have hWl : bpWidth ^ (l + 1) ≤ 2 ^ 63 :=
        le_trans (Nat.pow_le_pow_right bpWidth_pos (by omega)) hW
      have hup := Radix.up_of_dvd (Nat.pow_pos bpWidth_pos) hdvd
      refine ⟨⟨h, v, bpWidth ^ (l + 1), b, l + 1⟩, l, ?_, ⟨by omega, rfl⟩, Nat.lt_succ_self l⟩
      rw [graftDown, shiftRight_pow, nextMultiple_eq hWl hb', Exec.ok_bind, hup]
      dsimp only
      rw [if_neg (not_not.2 rfl), if_pos rfl, Nat.add_sub_cancel])
    ⟨le_rfl, rfl⟩ hrounds
  have hk0 : k = 0 := by
    have heq : bpWidth ^ (k + 1) = bpWidth ^ 1 := by simpa using hdone
    have := Nat.pow_right_injective one_lt_bpWidth heq
    omega
  subst hk0
  rw [hloop, Nat.zero_add, pow_one]

/-! ## The copy -/

namespace Beside

/-- **Under the node where the digits part**, the branches up to its end are
grafted; where the start has left it, the ends are not in one node. -/
theorem across_full {ai : ℕ} (hB : Beside g.heap Ψ g.self L o M)
    (hcap : bpWidth ^ (g.self.levels + 1) < 2 ^ 64)
    (hfull : g.self.sz = bpWidth ^ (g.self.levels + 1)) (hm : 1 ≤ m) (hml : m ≤ g.self.levels)
    (hai : bpWidth ^ m ∣ ai) (hle : ai ≤ bpWidth ^ (m + 1)) :
    (m = g.self.levels ∨ ai < bpWidth ^ (m + 1) →
      ∃ h' r' Ψ', graftAcross .tr o g ai g.self.sz m = .ok (h', { g.self with root := r' }) ∧
        Beside h' Ψ' { g.self with root := r' } (splice L M ai (bpWidth ^ (m + 1))) o M) ∧
      (m < g.self.levels → ai = bpWidth ^ (m + 1) →
        graftAcross .tr o g ai g.self.sz m = .error .outOfBounds) := by
  have hlev := levels_lt hcap
  have hW : 0 < bpWidth ^ (m + 1) := Nat.pow_pos bpWidth_pos
  have hWle : bpWidth ^ (m + 1) ≤ g.self.sz := by
    rw [hfull]
    exact Nat.pow_le_pow_right bpWidth_pos (by omega)
  have hsz_o : g.self.sz = bpWidth ^ (o.levels + 1) := by rw [hfull, hB.levels_eq]
  have hend : endOff g.self g.self.sz m = bpWidth := by
    rw [endOff, slot_val]
    refine if_pos ⟨?_, rfl⟩
    rw [hfull]
    exact Radix.digit_of_dvd bpWidth_pos (pow_dvd_pow _ (by omega))
  have hdepth := depthLess_eq (v := g.self) (s := m) hml (by omega)
  constructor
  · intro hgo
    rw [graftAcross]
    split
    · next hne =>
      have hlt : ai < bpWidth ^ (m + 1) := by
        rcases hgo with rfl | hlt
        · omega
        · exact hlt
      have hpos := Radix.pos_eq_zero hlt
      have hstart := Radix.eq_of_dvd hai
      have hoff : endOff g.self ai m = Radix.digit bpWidth ai m := by
        rw [endOff, slot_val]
        exact if_neg fun h => hne h.2
      obtain ⟨h', r', Ψ', hg, hB'⟩ := hB.graft (i := ai) (j := 0) (e := ai) (s := m)
        hm hml (by omega) (by omega) rfl (by rw [hpos, Radix.pos, Nat.zero_div])
        (show Radix.digit bpWidth ai m ≤ bpWidth from (Radix.digit_lt bpWidth_pos _ _).le) le_rfl
      rw [← hstart, hpos, Nat.zero_mul, Nat.zero_add, ← pow_succ'] at hB'
      refine ⟨h', r', Ψ', ?_, hB'⟩
      rw [hoff, hend, hdepth, hsz_o, graft_capacity, hg]
    · next heq =>
      refine ⟨g.heap, g.self.root, Ψ, rfl, ?_⟩
      rw [splice_of_le (by omega)]
      exact hB
  · rintro hlt rfl
    have hlt_sz : bpWidth ^ (m + 1) < g.self.sz := by
      rw [hfull]
      exact Nat.pow_lt_pow_right one_lt_bpWidth (by omega)
    have hsize := hB.source.size
    have hsz_eq := hB.sz_eq
    have hol := hB.levels_eq
    obtain ⟨k, hk⟩ : ∃ k, g.self.levels = k + m := ⟨g.self.levels - m, by omega⟩
    have hd : g.self.levels + 1 - m = k + 1 := by omega
    obtain ⟨src, c, hgi, -, -, hΨsrc, -⟩ := hB.source.getBranchConst (i := bpWidth ^ (m + 1))
      (k := k) (e := bpWidth ^ (m + 1)) hB.placed (by omega) (by omega) (by omega) rfl
    obtain ⟨src', c', hgj, -, -, hΨsrc', -⟩ := hB.source.getBranchConst (i := 0) (k := k) (e := 0)
      hB.placed (by omega) (by omega) (by omega) rfl
    obtain ⟨h', r', b, Ψ', c, hget, -⟩ := hB.target.getBranch (i := bpWidth ^ (m + 1)) (k := k)
      (e := bpWidth ^ (m + 1)) hB.placed (by omega) (by omega) (by
        have := hB.target.size
        omega) rfl
    -- the first node of the level and the second
    have hne : src ≠ src' := by
      rintro rfl
      rw [hΨsrc, show o.levels - k = m by omega] at hΨsrc'
      have := congrArg Place.pos hΨsrc'
      simp only [onPath, Radix.pos, Nat.zero_div, Nat.div_self hW] at this
      omega
    rw [graftAcross, if_pos (Nat.ne_of_lt hlt_sz), hdepth, hsz_o, graft_capacity, hd,
      BpVector.graft, hgi, Exec.ok_bind, hgj, Exec.ok_bind, hget, Exec.ok_bind]
    exact if_neg hne

/-- Steps 2 to 4: the climb is as ever, and the way down is idle. -/
theorem graftRange_full (hB : Beside h Ψ v (splice L M a (Radix.up bpWidth a)) o M)
    (hcap : bpWidth ^ (v.levels + 1) < 2 ^ 64) (hfull : v.sz = bpWidth ^ (v.levels + 1))
    (hn : 1 ≤ v.levels) (ha : a < v.sz) (hrounds : v.levels ≤ rounds) :
    ∃ h₁ r₁ Ψ₁, Beside h₁ Ψ₁ { v with root := r₁ }
        (splice L M a (Radix.up (bpWidth ^ spanLevel a) a)) o M ∧
      BpVector.graftRange rounds .tr h v o a v.sz (Radix.up bpWidth a) = (do
        let (h, w) ← graftAcross .tr o ⟨h₁, { v with root := r₁ }, bpWidth ^ spanLevel a,
          Radix.up (bpWidth ^ spanLevel a) a, spanLevel a - 1⟩ (Radix.up (bpWidth ^ spanLevel a) a)
          v.sz (spanLevel a)
        .ok (h, w, v.sz)) := by
  have hsz63 := hB.target.sz_le hcap
  have hcontained := containedAtShift_capacity hB.placed hB.target hfull ha
  have hle := spanLevel_le (hfull ▸ ha) hn
  obtain ⟨m, hm⟩ : ∃ m, spanLevel a = m + 1 := ⟨spanLevel a - 1, by
    have : 1 ≤ spanLevel a := le_max_left _ _
    omega⟩
  rw [hm, Nat.add_sub_cancel] at hcontained ⊢
  rw [hm] at hle
  have hW63 := pow_levels_le hcap (n := m + 1) (by omega)
  have hdvd : bpWidth ^ (m + 1) ∣ v.sz := by
    rw [hfull]
    exact pow_dvd_pow _ (by omega)
  have hpow : powInterval (m + 1) = .ok (bpWidth ^ (m + 1)) := powInterval_eq hcap hle
  obtain ⟨h₁, r₁, Ψ₁, hup, hB₁⟩ := hB.climb hcap (n := m + 1) (by omega) hle
    (Radix.up_le (Nat.pow_pos bpWidth_pos) hdvd ha.le) (show m + 1 - 1 ≤ rounds by omega)
  rw [Nat.add_sub_cancel] at hup
  refine ⟨h₁, r₁, Ψ₁, hB₁, ?_⟩
  rw [BpVector.graftRange, hcontained, Exec.ok_bind]
  dsimp only
  rw [hpow, Exec.ok_bind, hup, Exec.ok_bind, nextMultiple_eq hW63 (by omega), Exec.ok_bind,
    nextMultiple_eq hW63 (by omega), Exec.ok_bind,
    Radix.up_of_dvd (Nat.pow_pos bpWidth_pos) hdvd]
  dsimp only
  rw [if_neg (not_not.2 rfl)]
  congr 1
  funext p
  rw [fall_idle hdvd hW63 hsz63 (by omega), Exec.ok_bind]

/-- **Less than a leaf** is copied by value, if its end can be formed. -/
theorem assign_full_small (hB : Beside h Ψ v L o M) (hcap : bpWidth ^ (v.levels + 1) < 2 ^ 64)
    (hfull : v.sz = bpWidth ^ (v.levels + 1)) (ha : a < v.sz) (hsmall : v.sz < a + bpWidth)
    (hrounds : bpWidth ≤ rounds) :
    (v.sz < 2 ^ 63 → ∃ h' r' Ψ',
        BpVector.assign rounds .tr h v o a v.sz = .ok (h', { v with root := r' }) ∧
          Beside h' Ψ' { v with root := r' } (splice L M a v.sz) o M) ∧
      (2 ^ 63 ≤ v.sz → BpVector.assign rounds .tr h v o a v.sz = .error .outOfBounds) := by
  have hsz63 := hB.target.sz_le hcap
  have hW63 := pow_levels_le hcap (n := 1) (by omega)
  have hnext := nextMultiple_eq (i := a) hW63 (by omega)
  rw [pow_one] at hnext
  have hau := Radix.le_up bpWidth_pos a
  -- the leaf of `a` is the last one, unless `a` starts it
  have hmin : min (Radix.up bpWidth a) v.sz = v.sz := by
    refine min_eq_right ?_
    have hdvd : bpWidth ∣ v.sz := hfull ▸ dvd_pow_self _ (Nat.succ_ne_zero _)
    obtain ⟨c, hc⟩ := hdvd
    obtain ⟨e, he⟩ := Radix.dvd_up bpWidth a
    rw [hc, he]
    refine Nat.mul_le_mul_left bpWidth ?_
    by_contra hlt
    have := Nat.mul_le_mul_left bpWidth (Nat.le_of_not_le hlt)
    have h1 : e + 1 ≤ c := by omega
    have := Nat.mul_le_mul_left bpWidth h1
    rw [Nat.mul_succ] at this
    omega
  have hunfold : BpVector.assign rounds .tr h v o a v.sz = (do
      let (h, w) ← BpVector.copyRange rounds h v o a v.sz
      BpVector.copyRange rounds h w o v.sz v.sz) := by
    rw [BpVector.assign, if_neg (not_not.2 ha), if_pos (by omega), hnext, Exec.ok_bind]
    dsimp only
    rw [hmin]
  rw [hunfold]
  constructor
  · intro hlt
    obtain ⟨h₁, r₁, Ψ₁, he₁, hB₁⟩ := hB.copyRange (a := a) (c := v.sz) hsz63 ha.le
      le_rfl hlt (show v.sz - a ≤ rounds by omega)
    obtain ⟨h₂, r₂, Ψ₂, he₂, hB₂⟩ := hB₁.copyRange (a := v.sz) (c := v.sz) hsz63
      le_rfl le_rfl hlt (show v.sz - v.sz ≤ rounds by omega)
    rw [splice_splice ha.le le_rfl] at hB₂
    exact ⟨h₂, r₂, Ψ₂, by rw [he₁, Exec.ok_bind]; exact he₂, hB₂⟩
  · intro hge
    have hsz_o := hB.sz_eq
    obtain ⟨f₀, first, hf₀, hadd, -⟩ := hB.source.cbegin_add hB.placed (p := a) (by omega)
      (by omega) (by omega)
    obtain ⟨l₀, hl₀, hl, -⟩ := hB.source.cbegin hB.placed
    rw [hf₀] at hl₀
    cases hl₀
    have hfar : f₀.cadd h v.sz = .error .outOfBounds := by
      rw [BpIterator.cadd,
        BpIterator.addWith_far (by rw [hl.sz_eq]; omega) hl.cur_le hge (by omega)]
      rfl
    rw [BpVector.copyRange, hf₀, Exec.ok_bind, hadd, Exec.ok_bind, Exec.ok_bind, hfar]
    rfl

/-- **More than that** is copied up to the end of the node where the digits
part, or is a fault. -/
theorem assign_full_large (hB : Beside h Ψ v L o M) (hcap : bpWidth ^ (v.levels + 1) < 2 ^ 64)
    (hfull : v.sz = bpWidth ^ (v.levels + 1)) (hn : 1 ≤ v.levels) (hlarge : a + bpWidth ≤ v.sz)
    (hrounds : bpWidth + v.levels ≤ rounds) :
    (spanLevel a = v.levels ∨ a ≤ (bpWidth - 1) * bpWidth ^ spanLevel a →
      ∃ h' r' Ψ', BpVector.assign rounds .tr h v o a v.sz = .ok (h', { v with root := r' }) ∧
        Beside h' Ψ' { v with root := r' } (splice L M a (bpWidth ^ (spanLevel a + 1))) o M) ∧
      (spanLevel a < v.levels → (bpWidth - 1) * bpWidth ^ spanLevel a < a →
        BpVector.assign rounds .tr h v o a v.sz = .error .outOfBounds) := by
  have hWpos := bpWidth_pos
  have hsz63 := hB.target.sz_le hcap
  have hW63 := pow_levels_le hcap (n := 1) (by omega)
  have ha : a < v.sz := by omega
  have hnext := nextMultiple_eq (i := a) hW63 (by omega)
  rw [pow_one] at hnext
  have hau := Radix.le_up hWpos a
  have hua := Radix.up_lt hWpos a
  -- the rounded start is no further than the last leaf
  have hau_sz : Radix.up bpWidth a ≤ v.sz - bpWidth := by
    refine Radix.up_le hWpos ?_ (by omega)
    rw [hfull]
    exact Nat.dvd_sub (dvd_pow_self _ (Nat.succ_ne_zero _)) (Nat.dvd_refl _)
  obtain ⟨h₁, r₁, Ψ₁, he₁, hB₁⟩ := hB.copyPartial (a := a) (c := Radix.up bpWidth a)
    hsz63 hau (by omega) (by omega) (show Radix.up bpWidth a - a ≤ rounds by omega)
  obtain ⟨h₂, r₂, Ψ₂, hB₂, he₂⟩ := hB₁.graftRange_full hcap hfull hn ha
    (show v.levels ≤ rounds by omega)
  have hle := spanLevel_le (hfull ▸ ha) hn
  have hspan : 1 ≤ spanLevel a := le_max_left _ _
  have halt := lt_pow_spanLevel a
  generalize spanLevel a = m at *
  have hWm : 0 < bpWidth ^ m := Nat.pow_pos hWpos
  have hpow : bpWidth ^ (m + 1) = (bpWidth - 1) * bpWidth ^ m + bpWidth ^ m := by
    rw [pow_succ', ← Nat.succ_mul]
    congr 1
    omega
  have hup_le : Radix.up (bpWidth ^ m) a ≤ bpWidth ^ (m + 1) :=
    Radix.up_le hWm (pow_dvd_pow _ (Nat.le_succ m)) halt.le
  have hup_iff : Radix.up (bpWidth ^ m) a < bpWidth ^ (m + 1) ↔
      a ≤ (bpWidth - 1) * bpWidth ^ m := by
    constructor
    · intro hlt
      obtain ⟨c, hc⟩ := Radix.dvd_up (bpWidth ^ m) a
      have h1 := Radix.le_up hWm a
      rw [pow_succ, hc] at hlt
      have h2 : c ≤ bpWidth - 1 := by
        have := Nat.lt_of_mul_lt_mul_left hlt
        omega
      have h3 := Nat.mul_le_mul_right (bpWidth ^ m) h2
      rw [Nat.mul_comm c] at h3
      omega
    · intro hle
      have := Radix.up_le hWm (Nat.dvd_mul_left _ (bpWidth - 1)) hle
      omega
  obtain ⟨hok, hfault⟩ := Beside.across_full
    (g := ⟨h₂, { v with root := r₂ }, bpWidth ^ m, Radix.up (bpWidth ^ m) a, m - 1⟩)
    (m := m) hB₂ hcap hfull hspan hle (Radix.dvd_up _ _) hup_le
  dsimp only at hok hfault he₂
  have hunfold : BpVector.assign rounds .tr h v o a v.sz = (do
      let (h, w) ← graftAcross .tr o ⟨h₂, { v with root := r₂ }, bpWidth ^ m,
        Radix.up (bpWidth ^ m) a, m - 1⟩ (Radix.up (bpWidth ^ m) a) v.sz m
      .ok (h, w)) := by
    rw [BpVector.assign, if_neg (not_not.2 ha), if_neg (by omega), hnext, Exec.ok_bind, he₁,
      Exec.ok_bind]
    dsimp only
    rw [he₂, bind_assoc]
    congr 1
    funext p
    rw [Exec.ok_bind]
    dsimp only
    rw [BpVector.copyPartial, subSizeT_eq le_rfl (by omega), if_neg (by omega)]
  rw [hunfold]
  constructor
  · intro hgo
    obtain ⟨h₃, r₃, Ψ₃, he₃, hB₃⟩ := hok (hgo.imp_right hup_iff.2)
    rw [splice_splice (Radix.le_up hWm a) hup_le] at hB₃
    exact ⟨h₃, r₃, Ψ₃, by rw [he₃, Exec.ok_bind], hB₃⟩
  · intro hlt hgt
    rw [hfault hlt (le_antisymm hup_le (Nat.le_of_not_lt fun h => by
      have := hup_iff.1 h
      omega))]
    rfl

/-- **All of a single leaf** cannot be copied: there is no branch. -/
theorem assign_full_leaf (hB : Beside h Ψ v L o M) (hlev : v.levels = 0) (hsz : v.sz = bpWidth) :
    BpVector.assign rounds .tr h v o 0 v.sz = .error .wrongType := by
  have hWpos := bpWidth_pos
  have hW : bpWidth ≤ 2 ^ 15 := by
    rw [bpWidth_eq]
    exact Nat.pow_le_pow_right (by omega) K.le
  have hup0 : Radix.up bpWidth 0 = 0 := Radix.up_of_dvd hWpos (dvd_zero _)
  have hupW : Radix.up bpWidth v.sz = v.sz := by
    rw [hsz]
    exact Radix.up_of_dvd hWpos (Nat.dvd_refl _)
  have hnext : ∀ i ≤ 2 ^ 63, nextMultiple i bpWidth = .ok (Radix.up bpWidth i) := fun i hi => by
    have := nextMultiple_eq (k := 1) (i := i) (by rw [pow_one]; omega) hi
    rwa [pow_one] at this
  have hcontained := containedAtShift_capacity hB.placed hB.target (a := 0)
    (by rw [hlev, hsz, Nat.zero_add, pow_one]) (by omega)
  have hspan : spanLevel 0 - 1 = 0 := by
    rw [spanLevel, Nat.log_zero_right]
    rfl
  have hdepth : v.depthLess 1 = 0 := by
    rw [depthLess, calcDepth_eq, hlev]
    rfl
  -- the root of the vector that is read is a leaf
  have hol : o.levels = 0 := by rw [hB.levels_eq, hlev]
  obtain ⟨l, hu⟩ := hB.placed.leaves_of_level hB.source.root_lt (by
    rw [hB.source.root_place, hol])
  have hbranch : getBranchConst h o 0 0 = .error .wrongType := by
    have hroot : ownRoot (fun _ => false) o.id h o.root = (h, o.root) := if_neg (by simp)
    rw [getBranchConst, branchWith, hroot, hol]
    simp only [branchFrom, Exec.ok_bind, if_true, BpNode.asBranches, hu]
    rfl
  rw [BpVector.assign, if_neg (by omega), if_neg (by omega), hnext 0 (by omega), Exec.ok_bind, hup0,
    BpVector.copyPartial, subSizeT_eq le_rfl (by omega), if_neg (by omega), Exec.ok_bind]
  dsimp only
  rw [BpVector.graftRange, hcontained, hspan, Exec.ok_bind]
  dsimp only
  rw [powInterval, if_pos (by rw [Nat.zero_add, pow_one]; omega), Exec.ok_bind, Nat.zero_add,
    pow_one, loop_of_not (by simp), Exec.ok_bind, hnext 0 (by omega), Exec.ok_bind,
    hnext v.sz (by omega), Exec.ok_bind, hup0, hupW]
  dsimp only
  rw [if_neg (not_not.2 rfl), graftAcross, if_pos (by omega), hdepth, BpVector.graft, hbranch]
  rfl

/-- A start within the last leaf has its highest digit at the root. -/
theorem spanLevel_of_last (hfull : v.sz = bpWidth ^ (v.levels + 1)) (hn : 1 ≤ v.levels)
    (ha : a < v.sz) (hsmall : v.sz < a + bpWidth) : spanLevel a = v.levels := by
  refine le_antisymm (spanLevel_le (hfull ▸ ha) hn) ?_
  refine le_trans (Nat.le_log_of_pow_le one_lt_bpWidth ?_) (le_max_right _ _)
  have h1 : bpWidth ≤ bpWidth ^ v.levels := Nat.le_self_pow (by omega) _
  have h2 : 2 * bpWidth ^ v.levels ≤ bpWidth ^ (v.levels + 1) := by
    rw [pow_succ']
    exact Nat.mul_le_mul_right _ one_lt_bpWidth
  omega

end Beside

/-- **When a copy to the end of a full trie is exact.** Take any two
vectors that fill their tries, of one depth, of which the one that is read
reaches no node with the other's id. Copying from `a` to the end goes
through, with the range as in the other vector and the rest as it was, if
and only if the condition above holds: in a trie of one leaf the start is
not zero; in a deeper one the highest digit of the start is at the root,
or the start leaves a node of that level free and the vectors agree from
there on; and where the start is in the last leaf, the end is a position
of an iterator. -/
theorem assign_full_iff (hv : Represents h v L) (ho : Represents h o M) (hsz : o.sz = v.sz)
    (hlevels : o.levels = v.levels) (hfull : v.sz = bpWidth ^ (v.levels + 1))
    (hcap : bpWidth ^ (v.levels + 1) < 2 ^ 64) (hforeign : Foreign h o.root v.id)
    (ha : a < v.sz) (hrounds : bpWidth + v.levels ≤ rounds) :
    (∃ h' v', BpVector.assign rounds .tr h v o a v.sz = .ok (h', v') ∧
      ∀ i, v'.at' h' i = if a ≤ i ∧ i < v.sz then o.at' h i else v.at' h i) ↔
      FullCopies h v o a := by
  obtain ⟨Ψ, hB⟩ := hv.beside ho hsz hlevels hforeign (by omega)
  have hWpos := bpWidth_pos
  have hlt := lt_pow_spanLevel a
  rcases Nat.lt_or_ge v.sz (a + bpWidth) with hsmall | hlarge
  · -- within the last leaf
    obtain ⟨hok, hfault⟩ := hB.assign_full_small hcap hfull ha hsmall
      (show bpWidth ≤ rounds by omega)
    have hdeep : if v.levels = 0 then 0 < a else spanLevel a = v.levels ∨
        a ≤ (bpWidth - 1) * bpWidth ^ spanLevel a ∧
          ∀ i, bpWidth ^ (spanLevel a + 1) ≤ i → i < v.sz → v.at' h i = o.at' h i := by
      split
      · next hlev =>
        rw [hlev, Nat.zero_add, pow_one] at hfull
        omega
      · next hlev => exact .inl (Beside.spanLevel_of_last hfull (by omega) ha hsmall)
    constructor
    · rintro ⟨h', v', he, -⟩
      refine ⟨.inl (Nat.lt_of_not_le fun hge => ?_), hdeep⟩
      rw [hfault hge] at he
      cases he
    · rintro ⟨hend, -⟩
      obtain ⟨h', r', Ψ', he, hB'⟩ := hok (hend.resolve_right (by omega))
      exact ⟨h', _, he, hB.at_splice hB'⟩
  by_cases hlev : v.levels = 0
  · -- all of a single leaf
    have hszW : v.sz = bpWidth := by rw [hfull, hlev, Nat.zero_add, pow_one]
    obtain rfl : a = 0 := by omega
    rw [hB.assign_full_leaf hlev hszW]
    constructor
    · rintro ⟨h', v', he, -⟩
      cases he
    · rintro ⟨-, hdeep⟩
      rw [if_pos hlev] at hdeep
      exact absurd hdeep (Nat.lt_irrefl 0)
  obtain ⟨hok, hfault⟩ := hB.assign_full_large hcap hfull (by omega) hlarge hrounds
  constructor
  · rintro ⟨h', v', he, hexact⟩
    refine ⟨.inr hlarge, ?_⟩
    rw [if_neg hlev]
    refine or_iff_not_imp_left.2 fun hm => ?_
    have hle := spanLevel_le (hfull ▸ ha) (by omega)
    by_cases hroom : a ≤ (bpWidth - 1) * bpWidth ^ spanLevel a
    · refine ⟨hroom, fun i hi hisz => ?_⟩
      obtain ⟨h'', r', Ψ', he', hB'⟩ := hok (.inr hroom)
      rw [he] at he'
      cases he'
      have h1 := hexact i
      rw [hB.at_splice hB', if_neg (by omega), if_pos (by omega)] at h1
      exact h1
    · rw [hfault (by omega) (by omega)] at he
      cases he
  · rintro ⟨-, hdeep⟩
    rw [if_neg hlev] at hdeep
    obtain ⟨h', r', Ψ', he, hB'⟩ := hok (hdeep.imp_right And.left)
    refine ⟨h', _, he, fun i => ?_⟩
    rw [hB.at_splice hB' i]
    rcases hdeep with hm | ⟨-, hagree⟩
    · rw [hm, ← hfull]
    · by_cases hi : a ≤ i ∧ i < v.sz
      · rw [if_pos hi]
        split
        · rfl
        · exact hagree i (by omega) hi.2
      · have hle : bpWidth ^ (spanLevel a + 1) ≤ v.sz := by
          rw [hfull]
          exact Nat.pow_le_pow_right hWpos (by have := spanLevel_le (hfull ▸ ha) (by omega); omega)
        rw [if_neg hi, if_neg (by omega)]

omit K in
/-- Four values over arrays of two, from the second on. -/
theorem assign_full_iff_oneBit :
    letI := oneBit
    ∃ (h : Heap ℕ) (v o : BpVector), v.sz = 4 ∧ v.levels = 1 ∧
      ((∃ h' v', assign 3 .tr h (Tr.withId v 7) o 1 4 = .ok (h', v') ∧
        ∀ i, v'.at' h' i = if 1 ≤ i ∧ i < 4 then o.at' h i else (Tr.withId v 7).at' h i) ↔
        FullCopies h (Tr.withId v 7) o 1) := by
  let _ := oneBit
  obtain ⟨s, v, o, hs, hv, ho, ⟨Ψ, hP, hhv⟩, hho⟩ := Ps.exists_pair (i := 4) (j := 5)
    (L := [1, 2, 3, 4]) (M := [1, 2, 8, 4]) [.new, .pushBack 0 1, .pushBack 1 2, .pushBack 2 3,
      .pushBack 3 4, .set 4 2 8]
    [[], [1], [1, 2], [1, 2, 3], [1, 2, 3, 4], [1, 2, 8, 4]] (by decide +kernel) rfl rfl
  have hval : ((Ps.code ℕ).run (Heap.empty, []) [.new, .pushBack 0 1, .pushBack 1 2,
      .pushBack 2 3, .pushBack 3 4, .set 4 2 8]).map
        (fun s => (s.2[4]?.map fun v => (v.sz, v.levels), s.2[5]?.map fun v => (v.sz, v.levels),
          decide (∀ a < s.1.next, (s.1.cell a).id = 0))) =
      some (some (4, 1), some (4, 1), true) := by
    decide +kernel
  rw [hs, Option.map_some, hv, ho] at hval
  simp only [Option.map_some, Option.some.injEq, Prod.mk.injEq, decide_eq_true_eq] at hval
  obtain ⟨⟨h1, h2⟩, ⟨h3, h4⟩, hid⟩ := hval
  have hlt : o.root < s.1.next := by
    obtain ⟨Ψ', -, hho⟩ := hho
    exact hho.root_lt
  have hforeign : Foreign s.1 o.root 7 := fun a ha => by
    rw [hid a (hP.reach_lt hlt ha)]
    decide
  have hw : Represents s.1 (Tr.withId v 7) [1, 2, 3, 4] :=
    ⟨Ψ, hP, hhv.of_same ⟨rfl, rfl, rfl⟩⟩
  have hlev7 : (Tr.withId v 7).levels = 1 := h2
  have hsz7 : (Tr.withId v 7).sz = 4 := h1
  have hiff := assign_full_iff (a := 1) hw hho (h3.trans hsz7.symm)
    (h4.trans hlev7.symm) (by rw [hsz7, hlev7]; decide) (by rw [hlev7]; decide) hforeign
    (by rw [hsz7]; decide) (show bpWidth + (Tr.withId v 7).levels ≤ 3 by rw [hlev7]; decide)
  rw [hsz7] at hiff
  exact ⟨s.1, v, o, h1, h2, hiff⟩

omit K in
/-- **A full trie that is not copied.** Over arrays of two, all of two
transients of one full leaf each, built apart, cannot be copied: the leaf
is taken for branches. Of eight values, the copy from the second on stops
at the fourth. -/
theorem assign_full_fails :
    letI := oneBit
    let push (k : ℕ) (xs : List ℕ) : List (VecOp ℕ) :=
      .make .tr :: xs.map fun x => .update k (.mutPushBack (fun _ => 0) x)
    let built (xs ys : List ℕ) := (Vectors.code ℕ).run Vectors.start (push 0 xs ++ push 1 ys)
    let copied (a : ℕ) (s : Vectors ℕ) := do
      let v ← s.vectors[0]?
      let o ← s.vectors[1]?
      some (v.v.sz, o.v.sz, (assign 5 .tr s.heap v.v o.v a v.v.sz).map fun (h, v) =>
        (List.range v.sz).map fun i => (v.at' h i).toOption)
    (built [1, 2] [3, 4]).bind (copied 0) = some (2, 2, .error .wrongType) ∧
      (built [1, 1, 1, 1, 1, 1, 1, 1] [2, 2, 2, 2, 2, 2, 2, 2]).bind (copied 1) =
        some (8, 8, .ok [some 1, some 2, some 2, some 2, some 1, some 1, some 1, some 1]) := by
  decide +kernel

end Contentious
