import Contentious.Trie.Graft
import Contentious.Trie.Snapshot

/-!
# Trie — copying a range, up and down the trie

The steps of `assign` between the partial leaves at its two ends. It
climbs from the leaf of `a`, rounding `a` up to ever wider multiples, and
at each level grafts the branches that are left over there
(`Beside.climb`); it comes down to the leaf of `b` in the same way,
rounding down (`Beside.fall`). In between it grafts what is left under
the lowest node over both ends, which is where their digits part
(`containedAtShift_eq`).
-/

namespace Contentious

open BpVector

variable [K : BpBits] {T : Type}
variable {h h' : Heap T} {Ψ Ψ' : Addr → Place} {r' x : Addr} {a b i j k m n p s rounds : ℕ} {y : T}
variable {v o : BpVector} {L M : List T} {g : Grafting T}

/-! ## The arithmetic of a level -/

/-- **`next_multiple` rounds up**, where it does not overflow. -/
theorem nextMultiple_eq (hk : bpWidth ^ k ≤ 2 ^ 63) (hi : i ≤ 2 ^ 63) :
    nextMultiple i (bpWidth ^ k) = .ok (Radix.up (bpWidth ^ k) i) := by
  have hpow : bpWidth ^ k = 2 ^ (bpBits * k) := by rw [bpWidth_eq, pow_mul]
  have hpos := Nat.two_pow_pos (bpBits * k)
  rw [hpow] at hk ⊢
  have hbits : bpBits * k ≤ 63 := (Nat.pow_le_pow_iff_right (by omega)).1 hk
  rw [nextMultiple, if_pos ⟨by omega, by rw [Nat.and_two_pow_sub_one_eq_mod, Nat.mod_self]⟩,
    Radix.and_not_mask (by omega) (by omega)]
  rfl

omit K in
/-- `b - a` on `size_t`, of what is in order. -/
theorem subSizeT_eq (hab : a ≤ b) (hb : b < 2 ^ 64) : subSizeT b a = b - a := by
  rw [subSizeT, sizeT, show b + 2 ^ 64 - a = b - a + 2 ^ 64 by omega, Nat.add_mod_right,
    Nat.mod_eq_of_lt (by omega)]

omit K in
/-- Rounding up, and going back where that went past `b`, rounds down. -/
theorem up_back {c : Prop} [Decidable c] (hm : 0 < m) (hm' : m ≤ 2 ^ 63) (hb : b ≤ 2 ^ 63)
    (hc : c ↔ Radix.up m b ≠ b) :
    (if c then subSizeT (Radix.up m b) m else Radix.up m b) = Radix.down m b := by
  by_cases hd : m ∣ b
  · have hup := Radix.up_of_dvd hm hd
    rw [if_neg fun h => hc.1 h hup, hup, Radix.down_of_dvd hm hd]
  · have hup := Radix.up_of_not_dvd hm hd
    have hlt := Radix.up_lt hm b
    rw [if_pos (hc.2 fun heq => hd (heq ▸ Radix.dvd_up _ _)), subSizeT_eq (by omega) (by omega)]
    omega

theorem depthLess_eq (hs : s ≤ v.levels) (hlev : v.levels < 255) :
    v.depthLess s = v.levels + 1 - s := by
  rw [depthLess, calcDepth_eq]
  omega

theorem shiftLeft_pow (n : ℕ) : (bpWidth ^ n) <<< bpBits = bpWidth ^ (n + 1) := by
  rw [Nat.shiftLeft_eq, pow_succ, ← bpWidth_eq]

theorem shiftRight_pow (n : ℕ) : (bpWidth ^ (n + 1)) >>> bpBits = bpWidth ^ n := by
  rw [Nat.shiftRight_eq_div_pow, ← bpWidth_eq, pow_succ, Nat.mul_div_cancel _ bpWidth_pos]

theorem pow_levels_le (hcap : bpWidth ^ (v.levels + 1) < 2 ^ 64) (hn : n ≤ v.levels + 1) :
    bpWidth ^ n ≤ 2 ^ 63 := by
  have h1 : bpWidth ^ n ≤ bpWidth ^ (v.levels + 1) := Nat.pow_le_pow_right bpWidth_pos hn
  have h2 : bpWidth ^ (v.levels + 1) = 2 ^ (bpBits * (v.levels + 1)) := by rw [bpWidth_eq, pow_mul]
  rw [h2] at hcap h1
  have h3 : bpBits * (v.levels + 1) < 64 := (Nat.pow_lt_pow_iff_right (by omega)).1 hcap
  have h4 : 2 ^ (bpBits * (v.levels + 1)) ≤ 2 ^ 63 := Nat.pow_le_pow_right (by omega) (by omega)
  omega

/-- The width of a level below the root fits an `int64_t`. -/
theorem powInterval_eq (hcap : bpWidth ^ (v.levels + 1) < 2 ^ 64) (hn : n ≤ v.levels) :
    powInterval n = .ok (bpWidth ^ n) := by
  rw [powInterval, if_pos]
  have h1 := pow_levels_le hcap (n := n + 1) (by omega)
  have h2 := Nat.mul_le_mul_left (bpWidth ^ n) one_lt_bpWidth
  have h3 : 0 < bpWidth ^ n := Nat.pow_pos bpWidth_pos
  rw [← pow_succ] at h2
  omega

theorem levels_lt (hcap : bpWidth ^ (v.levels + 1) < 2 ^ 64) : v.levels < 63 := by
  have h1 : 2 ^ (v.levels + 1) ≤ bpWidth ^ (v.levels + 1) :=
    Nat.pow_le_pow_left one_lt_bpWidth _
  have h2 : 2 ^ (v.levels + 1) < 2 ^ 64 := lt_of_le_of_lt h1 hcap
  have h3 := (Nat.pow_lt_pow_iff_right (by omega)).1 h2
  omega

/-! ## Where the ends part -/

/-- **`contained_at_shift`** finds the level below the one where the digits
part, or the lowest where they part in a leaf or not at all. -/
theorem containedFrom_eq (hP : Placed h Ψ) (hx : x < h.next) (hΨ : Ψ x = onPath a n)
    (hr : readAt h a n x = .ok y) (hs : s ≤ n)
    (habove : ∀ m, s < m → m ≤ n → Radix.digit bpWidth a m = Radix.digit bpWidth b m)
    (hpart : s = 0 ∨ Radix.digit bpWidth a s ≠ Radix.digit bpWidth b s) :
    containedFrom h a b n (some x) (some x) = .ok (s - 1) := by
  induction n generalizing x with
  | zero =>
    obtain rfl := Nat.le_zero.1 hs
    rfl
  | succ n ih =>
    obtain ⟨c, hc, hr⟩ := readAt_succ.1 hr
    obtain ⟨f, hu, hf⟩ := child_eq_ok.1 hc
    obtain ⟨-, hcn, hΨc⟩ := hP.child_place hx hΨ hc
    rw [containedFrom, if_neg (not_not.2 rfl)]
    simp only [BpNode.asBranches, hu, Exec.ok_bind]
    rw [hf]
    by_cases hsn : s = n + 1
    · -- the children are two
      subst hsn
      have hdig := hpart.resolve_left (Nat.succ_ne_zero n)
      have hne : some c ≠ f (slot b ((n + 1) * bpBits)) := by
        intro heq
        have h1 := (hP.child x hx f hu _ c hf).2
        have h2 := (hP.child x hx f hu _ c heq.symm).2
        rw [h1, slot_val, slot_val] at h2
        have := congrArg Place.pos h2
        dsimp only at this
        omega
      cases n with
      | zero => rfl
      | succ n => rw [containedFrom, if_pos hne]; rfl
    · have hslot : slot b ((n + 1) * bpBits) = slot a ((n + 1) * bpBits) := by
        apply Fin.ext
        rw [slot_val, slot_val]
        exact (habove (n + 1) (by omega) le_rfl).symm
      rw [hslot, hf]
      exact ih hcn hΨc hr (by omega) fun m h1 h2 => habove m h1 (by omega)

/-! ## Up -/

namespace Beside

/-- **One level up**: what is left of the node of `ai` at this level is
grafted. -/
theorem graftUp {ai : ℕ} (hB : Beside g.heap Ψ g.self L o M)
    (hcap : bpWidth ^ (g.self.levels + 1) < 2 ^ 64) (hs : g.s + 1 ≤ g.self.levels)
    (hint : g.interval = bpWidth ^ (g.s + 1)) (hai : g.r = ai) (hdvd : bpWidth ^ (g.s + 1) ∣ ai)
    (hsz : Radix.up (bpWidth ^ (g.s + 2)) ai ≤ g.self.sz) :
    ∃ h' r' Ψ', BpVector.graftUp .tr o g = .ok ⟨h', { g.self with root := r' }, bpWidth ^ (g.s + 2),
        Radix.up (bpWidth ^ (g.s + 2)) ai, g.s + 1⟩ ∧
      Beside h' Ψ' { g.self with root := r' }
        (splice L M ai (Radix.up (bpWidth ^ (g.s + 2)) ai)) o M := by
  subst hai
  have hlev := levels_lt hcap
  have hWs : 0 < bpWidth ^ (g.s + 2) := Nat.pow_pos bpWidth_pos
  have hsz63 := hB.target.sz_le hcap
  have hle := Radix.le_up hWs g.r
  have hnext := nextMultiple_eq (i := g.r) (pow_levels_le hcap (n := g.s + 2) (by omega)) (by omega)
  rw [BpVector.graftUp, hint, shiftLeft_pow, hnext, Exec.ok_bind]
  dsimp only
  split
  · -- nothing is left
    next heq =>
    refine ⟨g.heap, g.self.root, Ψ, rfl, ?_⟩
    rw [splice_of_le heq.ge]
    exact hB
  · next hne =>
    have hlt : g.r < Radix.up (bpWidth ^ (g.s + 2)) g.r := lt_of_le_of_ne hle hne
    have hnd : ¬ bpWidth ^ (g.s + 2) ∣ g.r := fun hd => hne (Radix.up_of_dvd hWs hd).symm
    have hsplit := Radix.eq_of_dvd hdvd
    have hend : Radix.up (bpWidth ^ (g.s + 2)) g.r =
        Radix.pos bpWidth g.r (g.s + 1) * bpWidth ^ (g.s + 1 + 1) + bpWidth * bpWidth ^ (g.s + 1) :=
      Radix.up_eq bpWidth_pos hnd
    have hdig : Radix.digit bpWidth g.r (g.s + 1) ≠ 0 := fun h0 => hnd (Radix.dvd_of_digit hdvd h0)
    have hdig' : Radix.digit bpWidth (Radix.up (bpWidth ^ (g.s + 2)) g.r) (g.s + 1) = 0 :=
      Radix.digit_of_dvd bpWidth_pos (Radix.dvd_up _ _)
    have hlast : Radix.pos bpWidth (Radix.up (bpWidth ^ (g.s + 2)) g.r - 1) (g.s + 1) =
        Radix.pos bpWidth g.r (g.s + 1) :=
      ((Radix.mem_slots _ _ _ bpWidth_pos le_rfl).1
        ⟨by rw [← hsplit]; exact Nat.le_sub_one_of_lt hlt, by rw [← hend]; omega⟩).1
    obtain ⟨h', r', Ψ', hg, hB'⟩ := hB.graft (i := g.r)
      (j := Radix.up (bpWidth ^ (g.s + 2)) g.r - 1) (e := g.r) (s := g.s + 1)
      (by omega) hs (by omega) (by omega) rfl hlast
      (show Radix.digit bpWidth g.r (g.s + 1) ≤ bpWidth from (Radix.digit_lt bpWidth_pos _ _).le)
      le_rfl
    rw [← hsplit, ← hend] at hB'
    refine ⟨h', r', Ψ', ?_, hB'⟩
    rw [slot_val, slot_val, if_neg hdig, if_neg (not_not.2 hdig'), depthLess_eq hs (by omega),
      subSizeT_eq (by omega) (by omega), hg, Exec.ok_bind]

/-- What the climb keeps, with `k` rounds to go up to the level `n`. -/
structure Climbing (v o : BpVector) (L M : List T) (a n k : ℕ) (g : Grafting T) : Prop where
  left_le : k ≤ n - 1
  interval_eq : g.interval = bpWidth ^ (n - k)
  r_eq : g.r = Radix.up (bpWidth ^ (n - k)) a
  s_eq : g.s + 1 = n - k
  beside : ∃ r' Ψ, g.self = { v with root := r' } ∧
    Beside g.heap Ψ { v with root := r' } (splice L M a (Radix.up (bpWidth ^ (n - k)) a)) o M

/-- **The climb** to the level `n` grafts up to the multiple of its width. -/
theorem climb (hB : Beside h Ψ v (splice L M a (Radix.up bpWidth a)) o M)
    (hcap : bpWidth ^ (v.levels + 1) < 2 ^ 64) (hn : 1 ≤ n) (hnl : n ≤ v.levels)
    (hsz : Radix.up (bpWidth ^ n) a ≤ v.sz) (hrounds : n - 1 ≤ rounds) :
    ∃ h' r' Ψ', loop .rounds (fun g => g.interval != bpWidth ^ n) (BpVector.graftUp .tr o) rounds
        ⟨h, v, bpWidth, Radix.up bpWidth a, 0⟩ =
          .ok ⟨h', { v with root := r' }, bpWidth ^ n, Radix.up (bpWidth ^ n) a, n - 1⟩ ∧
      Beside h' Ψ' { v with root := r' } (splice L M a (Radix.up (bpWidth ^ n) a)) o M := by
  have hstart : Climbing v o L M a n (n - 1)
      (⟨h, v, bpWidth, Radix.up bpWidth a, 0⟩ : Grafting T) := by
    have h1 : n - (n - 1) = 1 := by omega
    refine ⟨le_rfl, by rw [h1, pow_one], by rw [h1, pow_one], h1.symm, v.root, Ψ, rfl, ?_⟩
    rw [h1, pow_one]
    exact hB
  obtain ⟨g, k, hloop, hg, hdone⟩ := loop_counts Fault.rounds
    (fun g => g.interval != bpWidth ^ n) (BpVector.graftUp .tr o)
    (I := Climbing v o L M a n)
    (fun k g hg hgo => by
      obtain ⟨hle, hint, hr, hs, r', Ψ', hself, hB'⟩ := hg
      have hk : k ≠ 0 := by
        rintro rfl
        rw [hint, Nat.sub_zero] at hgo
        simp at hgo
      have hW : ∀ m, 0 < bpWidth ^ m := fun m => Nat.pow_pos bpWidth_pos
      have hs1 : g.s + 1 = n - k := hs
      have hs2 : g.s + 2 = n - (k - 1) := by omega
      have hdvd : bpWidth ^ (g.s + 1) ∣ bpWidth ^ (g.s + 2) := pow_dvd_pow _ (by omega)
      -- rounding the round number is rounding `a`
      have hup : Radix.up (bpWidth ^ (g.s + 2)) g.r = Radix.up (bpWidth ^ (g.s + 2)) a := by
        rw [hr, ← hs1, Radix.up_up (hW _) (hW _) hdvd]
      have hsz' : Radix.up (bpWidth ^ (g.s + 2)) a ≤ v.sz := by
        refine le_trans (Radix.up_le (hW _) ?_ (Radix.le_up (hW n) a)) hsz
        exact (pow_dvd_pow bpWidth (by omega)).trans (Radix.dvd_up _ _)
      rw [← hself] at hB'
      obtain ⟨h₂, r₂, Ψ₂, he, hB₂⟩ := hB'.graftUp (by rw [hself]; exact hcap)
        (by rw [hself]; dsimp only; omega) (by rw [hint, hs1]) rfl
        (by rw [hr, hs1]; exact Radix.dvd_up _ _) (by rw [hup, hself]; exact hsz')
      rw [hup] at he hB₂
      rw [← hs1, hr, ← hs1, splice_splice (Radix.le_up (hW _) a)
        (Radix.up_le (hW _) (hdvd.trans (Radix.dvd_up _ _)) (Radix.le_up (hW _) a))] at hB₂
      refine ⟨_, k - 1, he, ⟨by omega, by rw [hs2], by rw [hs2], hs2, r₂, Ψ₂, ?_, ?_⟩, by omega⟩
      · dsimp only
        rw [hself]
      · rw [← hs2, hself] at *
        exact hB₂)
    hstart hrounds
  obtain ⟨hle, hint, hr, hs, r', Ψ', hself, hB'⟩ := hg
  have hk : k = 0 := by
    have heq : g.interval = bpWidth ^ n := by simpa using hdone
    rw [hint] at heq
    have := Nat.pow_right_injective one_lt_bpWidth heq
    omega
  subst hk
  rw [Nat.sub_zero] at hint hr hs hB'
  refine ⟨g.heap, r', Ψ', ?_, hB'⟩
  rw [hloop, ← hself, ← hr, ← hint, show n - 1 = g.s by omega]

/-! ## Across -/

/-- **Under the lowest node over both ends**, the branches between them
are grafted. -/
theorem across {ai bi : ℕ} (hB : Beside g.heap Ψ g.self L o M)
    (hcap : bpWidth ^ (g.self.levels + 1) < 2 ^ 64) (hs : 1 ≤ s) (hsl : s ≤ g.self.levels)
    (hai : bpWidth ^ s ∣ ai) (hbi : bpWidth ^ s ∣ bi) (hle : ai ≤ bi) (hsz : bi ≤ g.self.sz)
    (hpos : Radix.pos bpWidth ai s = Radix.pos bpWidth bi s) :
    ∃ h' r' Ψ', graftAcross .tr o g ai bi s = .ok (h', { g.self with root := r' }) ∧
      Beside h' Ψ' { g.self with root := r' } (splice L M ai bi) o M := by
  have hlev := levels_lt hcap
  rw [graftAcross]
  split
  · next hne =>
    have ha := Radix.eq_of_dvd hai
    have hb := Radix.eq_of_dvd hbi
    rw [← hpos] at hb
    -- neither offset is taken for one at the end of the vector
    have hdig : Radix.digit bpWidth ai s < Radix.digit bpWidth bi s := by
      by_contra hge
      have := Nat.mul_le_mul_right (bpWidth ^ s) (Nat.le_of_not_lt hge)
      omega
    have hoff_a : endOff g.self ai s = Radix.digit bpWidth ai s := by
      rw [endOff, slot_val]
      exact if_neg fun h => absurd h.2 (by omega)
    have hoff_b : endOff g.self bi s = Radix.digit bpWidth bi s := by
      rw [endOff, slot_val]
      exact if_neg fun h => absurd h.1 (by omega)
    obtain ⟨h', r', Ψ', hg, hB'⟩ := hB.graft (i := ai) (j := bi) (e := ai) hs hsl (by omega)
      (by omega) rfl hpos.symm hdig.le (Radix.digit_lt bpWidth_pos bi s).le
    rw [← ha, ← hb] at hB'
    exact ⟨h', r', Ψ', by rw [hoff_a, hoff_b, depthLess_eq hsl (by omega), hg], hB'⟩
  · next heq =>
    refine ⟨g.heap, g.self.root, Ψ, rfl, ?_⟩
    rw [splice_of_le (by omega)]
    exact hB

/-! ## Down -/

/-- **One level down**: what lies before `b` under the node of `bi` at this
level is grafted. -/
theorem graftDown (hB : Beside g.heap Ψ g.self L o M)
    (hcap : bpWidth ^ (g.self.levels + 1) < 2 ^ 64) (hs : 1 ≤ s) (hsl : s ≤ g.self.levels)
    (hint : g.interval = bpWidth ^ (s + 1)) (hgs : g.s = s + 1)
    (hr : g.r = Radix.down (bpWidth ^ (s + 1)) b) (hsz : b ≤ g.self.sz) :
    ∃ h' r' Ψ', BpVector.graftDown .tr o b g = .ok ⟨h', { g.self with root := r' }, bpWidth ^ s,
        Radix.down (bpWidth ^ s) b, s⟩ ∧
      Beside h' Ψ' { g.self with root := r' } (splice L M g.r (Radix.down (bpWidth ^ s) b))
        o M := by
  have hlev := levels_lt hcap
  have hsz63 := hB.target.sz_le hcap
  have hWs : 0 < bpWidth ^ s := Nat.pow_pos bpWidth_pos
  have hW63 := pow_levels_le hcap (n := s) (by omega)
  have hnext := nextMultiple_eq (i := b) hW63 (by omega)
  have hle : g.r ≤ Radix.down (bpWidth ^ s) b := by
    rw [hr]
    exact Radix.down_le_down hWs (pow_dvd_pow _ (Nat.le_succ s)) b
  have hdb := Radix.down_le (bpWidth ^ s) b
  rw [BpVector.graftDown, hint, shiftRight_pow, hnext, Exec.ok_bind, hgs, Nat.add_sub_cancel]
  dsimp only
  rw [up_back hWs hW63 (by omega) ne_comm]
  split
  · next heq =>
    refine ⟨g.heap, g.self.root, Ψ, rfl, ?_⟩
    rw [splice_of_le heq.ge]
    exact hB
  · next hne =>
    have hstart : g.r = Radix.pos bpWidth b s * bpWidth ^ (s + 1) + 0 * bpWidth ^ s := by
      rw [hr, Nat.zero_mul, Nat.add_zero]
      rfl
    have hend := Radix.down_eq bpWidth b s
    have hdvd : bpWidth ^ (s + 1) ∣ g.r := by rw [hr]; exact Radix.dvd_down _ _
    have hdig_r : Radix.digit bpWidth g.r s = 0 := Radix.digit_of_dvd bpWidth_pos hdvd
    have hmem : ∀ k, g.r ≤ k → k ≤ b → Radix.pos bpWidth k s = Radix.pos bpWidth b s := by
      intro k h1 h2
      refine le_antisymm (Nat.div_le_div_right h2) ?_
      refine (Nat.le_div_iff_mul_le (Nat.pow_pos bpWidth_pos)).2 ?_
      rw [hstart] at h1
      omega
    have hpos_r := hmem g.r le_rfl (by omega)
    have hpos_br := hmem (Radix.down (bpWidth ^ s) b) hle hdb
    have hdig : Radix.digit bpWidth (Radix.down (bpWidth ^ s) b) s = Radix.digit bpWidth b s := by
      have h1 := Radix.eq_of_dvd (Radix.dvd_down (bpWidth ^ s) b)
      rw [hpos_br] at h1
      exact Nat.eq_of_mul_eq_mul_right hWs (by omega)
    have hdig0 : Radix.digit bpWidth b s ≠ 0 := by
      intro h0
      rw [h0] at hend
      exact hne (hstart.trans hend.symm)
    obtain ⟨h', r', Ψ', hg, hB'⟩ := hB.graft (i := g.r) (j := Radix.down (bpWidth ^ s) b - 1)
      (e := g.r) (s := s) hs hsl (by omega) (by omega) rfl
      ((hmem _ (by omega) (by omega)).trans hpos_r.symm)
      (show 0 ≤ Radix.digit bpWidth b s from Nat.zero_le _)
      (Radix.digit_lt bpWidth_pos b s).le
    rw [hpos_r, ← hstart, ← hend] at hB'
    refine ⟨h', r', Ψ', ?_, hB'⟩
    rw [slot_val, slot_val, hdig_r, if_neg (not_not.2 rfl), hdig, if_neg fun h => hdig0 h.1,
      depthLess_eq hsl (by omega), subSizeT_eq (by omega) (by omega), hg, Exec.ok_bind]

/-- What the fall keeps, with `k` rounds to go down to the leaves' parents. -/
structure Falling (v o : BpVector) (L M : List T) (a b n k : ℕ) (g : Grafting T) : Prop where
  left_le : k + 1 ≤ n
  interval_eq : g.interval = bpWidth ^ (k + 1)
  r_eq : g.r = Radix.down (bpWidth ^ (k + 1)) b
  s_eq : g.s = k + 1
  beside : ∃ r' Ψ, g.self = { v with root := r' } ∧
    Beside g.heap Ψ { v with root := r' } (splice L M a (Radix.down (bpWidth ^ (k + 1)) b)) o M

/-- **The fall** from the level `n` grafts from the multiple of its width
to the leaf of `b`. -/
theorem fall (hB : Beside h Ψ v (splice L M a (Radix.down (bpWidth ^ n) b)) o M)
    (hcap : bpWidth ^ (v.levels + 1) < 2 ^ 64) (hn : 1 ≤ n) (hnl : n ≤ v.levels) (hsz : b ≤ v.sz)
    (ha : a ≤ Radix.down (bpWidth ^ n) b) (hrounds : n - 1 ≤ rounds) :
    ∃ h' r' Ψ', loop .rounds (fun g => g.interval != bpWidth) (BpVector.graftDown .tr o b) rounds
        ⟨h, v, bpWidth ^ n, Radix.down (bpWidth ^ n) b, n⟩ =
          .ok ⟨h', { v with root := r' }, bpWidth, Radix.down bpWidth b, 1⟩ ∧
      Beside h' Ψ' { v with root := r' } (splice L M a (Radix.down bpWidth b)) o M := by
  obtain ⟨m, rfl⟩ := Nat.exists_eq_succ_of_ne_zero (by omega : n ≠ 0)
  have hstart : Falling v o L M a b m.succ m
      (⟨h, v, bpWidth ^ m.succ, Radix.down (bpWidth ^ m.succ) b, m.succ⟩ : Grafting T) :=
    ⟨le_rfl, rfl, rfl, rfl, v.root, Ψ, rfl, hB⟩
  have hW : ∀ m, 0 < bpWidth ^ m := fun m => Nat.pow_pos bpWidth_pos
  obtain ⟨g, k, hloop, hg, hdone⟩ := loop_counts Fault.rounds
    (fun g => g.interval != bpWidth) (BpVector.graftDown .tr o b)
    (I := Falling v o L M a b m.succ)
    (fun k g hg hgo => by
      obtain ⟨hle, hint, hr, hs, r', Ψ', hself, hB'⟩ := hg
      have hk : k ≠ 0 := by
        rintro rfl
        rw [hint, Nat.zero_add, pow_one] at hgo
        simp at hgo
      obtain ⟨l, rfl⟩ := Nat.exists_eq_succ_of_ne_zero hk
      rw [← hself] at hB'
      obtain ⟨h₂, r₂, Ψ₂, he, hB₂⟩ := hB'.graftDown (s := l + 1) (by rw [hself]; exact hcap)
        (by omega) (by rw [hself]; dsimp only; omega) hint hs hr (by rw [hself]; exact hsz)
      have hdd : ∀ i j, i ≤ j → Radix.down (bpWidth ^ j) b ≤ Radix.down (bpWidth ^ i) b :=
        fun i j hij => Radix.down_le_down (hW i) (pow_dvd_pow _ hij) b
      rw [hr, splice_splice (ha.trans (hdd _ _ (by omega))) (hdd _ _ (Nat.le_succ _))] at hB₂
      refine ⟨_, l, he, ⟨by omega, rfl, rfl, rfl, r₂, Ψ₂, ?_, ?_⟩, by omega⟩
      · dsimp only
        rw [hself]
      · rw [hself] at hB₂
        exact hB₂)
    hstart (show m ≤ rounds by omega)
  obtain ⟨hle, hint, hr, hs, r', Ψ', hself, hB'⟩ := hg
  have hk : k = 0 := by
    have heq : g.interval = bpWidth ^ 1 := by simpa using hdone
    rw [hint] at heq
    have := Nat.pow_right_injective one_lt_bpWidth heq
    omega
  subst hk
  rw [Nat.zero_add, pow_one] at hint hr hB'
  refine ⟨g.heap, r', Ψ', ?_, hB'⟩
  rw [hloop, ← hself, ← hr, ← hint, show 1 = g.s from hs.symm]

/-! ## All of it -/

/-- **Steps 2 to 4**, from the multiple after `a` to the one before `b`. -/
theorem graftRange (hB : Beside h Ψ v (splice L M a (Radix.up bpWidth a)) o M)
    (hcap : bpWidth ^ (v.levels + 1) < 2 ^ 64) (hs : 1 ≤ s) (hsl : s ≤ v.levels) (hab : a < b)
    (hb : b ≤ v.sz) (hpos : Radix.pos bpWidth a s = Radix.pos bpWidth b s)
    (hpart : Radix.pos bpWidth a (s - 1) ≠ Radix.pos bpWidth b (s - 1))
    (hrounds : s - 1 ≤ rounds) :
    ∃ h' r' Ψ', BpVector.graftRange rounds .tr h v o a b (Radix.up bpWidth a) =
        .ok (h', { v with root := r' }, Radix.down bpWidth b) ∧
      Beside h' Ψ' { v with root := r' } (splice L M a (Radix.down bpWidth b)) o M := by
  obtain ⟨m, rfl⟩ : ∃ m, s = m + 1 := ⟨s - 1, by omega⟩
  rw [Nat.add_sub_cancel] at hpart
  have hv := hB.target
  have hsz63 := hv.sz_le hcap
  have hWs : 0 < bpWidth ^ (m + 1) := Nat.pow_pos bpWidth_pos
  have hW63 := pow_levels_le hcap (n := m + 1) (by omega)
  have haW := hv.lt_capacity (i := a) (.inl (by omega))
  have hlt : Radix.pos bpWidth a m < Radix.pos bpWidth b m :=
    lt_of_le_of_ne (Nat.div_le_div_right hab.le) hpart
  have hmid := Radix.up_le_down bpWidth_pos hlt
  have hdb := Radix.down_le (bpWidth ^ (m + 1)) b
  have hau := Radix.le_up hWs a
  -- the digits part at this level
  have hdig : Radix.digit bpWidth a (m + 1) ≠ Radix.digit bpWidth b (m + 1) := by
    intro heq
    rw [Radix.pos_eq bpWidth a m, Radix.pos_eq bpWidth b m, heq, hpos] at hlt
    exact absurd hlt (lt_irrefl _)
  have hlen : a < (splice L M a (Radix.up bpWidth a)).length := by
    rw [← hv.size]
    omega
  have hcontained : containedAtShift h v a b = .ok m := by
    rw [containedAtShift, if_pos hab]
    exact containedFrom_eq hB.placed hv.root_lt (hv.root_onPath haW) (hv.read a hlen) hsl
      (fun l h1 _ => by
        obtain ⟨l, rfl⟩ := Nat.exists_eq_succ_of_ne_zero (by omega : l ≠ 0)
        exact Radix.digit_congr (Radix.pos_congr hpos (by omega))) (.inr hdig)
  have hpow := powInterval_eq hcap hsl
  obtain ⟨h₁, r₁, Ψ₁, hup, hB₁⟩ := hB.climb hcap hs hsl (by omega) hrounds
  rw [Nat.add_sub_cancel] at hup
  obtain ⟨h₂, r₂, Ψ₂, hac, hB₂⟩ := Beside.across
    (g := ⟨h₁, { v with root := r₁ }, bpWidth ^ (m + 1), Radix.up (bpWidth ^ (m + 1)) a, m⟩)
    (s := m + 1) hB₁ hcap hs hsl (Radix.dvd_up _ _) (Radix.dvd_down _ b) hmid
    (by dsimp only; omega)
    ((Radix.pos_between hpos hau (by omega)).trans
      (Radix.pos_between hpos (by omega) hdb).symm)
  dsimp only at hac hB₂
  rw [splice_splice hau hmid] at hB₂
  obtain ⟨h₃, r₃, Ψ₃, hfall, hB₃⟩ := hB₂.fall hcap hs hsl hb (by omega) hrounds
  refine ⟨h₃, r₃, Ψ₃, ?_, hB₃⟩
  rw [BpVector.graftRange, hcontained, Exec.ok_bind]
  dsimp only
  rw [hpow, Exec.ok_bind, hup, Exec.ok_bind, nextMultiple_eq hW63 (by omega), Exec.ok_bind,
    nextMultiple_eq hW63 (by omega), Exec.ok_bind]
  dsimp only
  rw [up_back hWs hW63 (by omega) Iff.rfl, hac, Exec.ok_bind]
  dsimp only
  rw [hfall, Exec.ok_bind]

/-- **`assign` copies the range**, where its end is below the capacity. -/
theorem assign (hB : Beside h Ψ v L o M) (hcap : bpWidth ^ (v.levels + 1) < 2 ^ 64) (hab : a < b)
    (hb : b ≤ v.sz) (hb' : b < bpWidth ^ (v.levels + 1)) (hrounds : bpWidth + v.levels ≤ rounds) :
    ∃ h' r' Ψ', BpVector.assign rounds .tr h v o a b = .ok (h', { v with root := r' }) ∧
      Beside h' Ψ' { v with root := r' } (splice L M a b) o M := by
  have hsz63 := hB.target.sz_le hcap
  have hW63 := pow_levels_le hcap (n := 1) (by omega)
  have hnext := nextMultiple_eq (i := a) hW63 (by omega)
  rw [pow_one] at hnext hW63
  have hau := Radix.le_up bpWidth_pos a
  have hua := Radix.up_lt bpWidth_pos a
  have hb63 : b < 2 ^ 63 := lt_of_lt_of_le hb' (pow_levels_le hcap le_rfl)
  rw [BpVector.assign, if_neg (not_not.2 hab)]
  split
  · -- two copies of values
    next hsmall =>
    obtain ⟨c, hc⟩ : ∃ c, c = min (Radix.up bpWidth a) b := ⟨_, rfl⟩
    obtain ⟨h₁, r₁, Ψ₁, he₁, hB₁⟩ := hB.copyRange (a := a) (c := c) hsz63 (by omega) (by omega)
      (by omega) (show c - a ≤ rounds by omega)
    obtain ⟨h₂, r₂, Ψ₂, he₂, hB₂⟩ := hB₁.copyRange (a := c) (c := b) hsz63 (by omega)
      (by dsimp only; omega) hb63 (show b - c ≤ rounds by omega)
    rw [splice_splice (by omega) (by omega)] at hB₂
    refine ⟨h₂, r₂, Ψ₂, ?_, hB₂⟩
    rw [hnext, Exec.ok_bind]
    dsimp only
    rw [← hc, he₁, Exec.ok_bind]
    exact he₂
  · next hlarge =>
    -- the level where the ends part
    have htop : Radix.pos bpWidth a v.levels = Radix.pos bpWidth b v.levels := by
      rw [Radix.pos_eq_zero (by omega), Radix.pos_eq_zero hb']
    have hex : ∃ s, Radix.pos bpWidth a s = Radix.pos bpWidth b s := ⟨_, htop⟩
    classical
    have hpos := Nat.find_spec hex
    have hmin := fun m => Nat.find_min hex (m := m)
    have hle : Nat.find hex ≤ v.levels := Nat.find_min' hex htop
    generalize Nat.find hex = s at hpos hmin hle
    have hs : s ≠ 0 := by
      rintro rfl
      have h1 := Radix.eq_pos_zero bpWidth a
      have h2 := Radix.eq_pos_zero bpWidth b
      have h3 := Radix.digit_lt bpWidth_pos b 0
      rw [hpos] at h1
      omega
    obtain ⟨h₁, r₁, Ψ₁, he₁, hB₁⟩ := hB.copyPartial (a := a) (c := Radix.up bpWidth a)
      hsz63 hau (by omega) (by omega) (show Radix.up bpWidth a - a ≤ rounds by omega)
    obtain ⟨h₂, r₂, Ψ₂, he₂, hB₂⟩ := hB₁.graftRange (s := s) hcap (by omega) hle hab hb hpos
      (hmin (s - 1) (by omega)) (show s - 1 ≤ rounds by omega)
    have hdb := Radix.down_le bpWidth b
    have hbd := Radix.lt_down_add bpWidth_pos b
    have hab' : a ≤ Radix.down bpWidth b := by omega
    obtain ⟨h₃, r₃, Ψ₃, he₃, hB₃⟩ := hB₂.copyPartial (a := Radix.down bpWidth b) (c := b)
      hsz63 hdb hb hb63 (show b - Radix.down bpWidth b ≤ rounds by omega)
    rw [splice_splice hab' hdb] at hB₃
    refine ⟨h₃, r₃, Ψ₃, ?_, hB₃⟩
    rw [hnext, Exec.ok_bind, he₁, Exec.ok_bind]
    dsimp only
    rw [he₂, Exec.ok_bind]
    exact he₃

/-- What has been spliced, as `at` tells it. -/
theorem at_splice {c : ℕ} (hB : Beside h Ψ v L o M)
    (hB' : Beside h' Ψ' { v with root := r' } (splice L M a c) o M) (i : ℕ) :
    ({ v with root := r' } : BpVector).at' h' i =
      if a ≤ i ∧ i < c then o.at' h i else v.at' h i := by
  have hlen := hB.length_eq
  rw [hB'.target.at_eq, hB.target.at_eq, hB.source.at_eq]
  by_cases hi : i < L.length
  · have hM : i < M.length := by omega
    rw [dif_pos (by simpa using hi), dif_pos hi, dif_pos hM, getElem_splice,
      List.getD_eq_getElem _ _ hM]
    split <;> rfl
  · rw [dif_neg (by simpa using hi), dif_neg hi, dif_neg (by omega), length_splice, hlen, ite_self]

end Beside

/-- **A copy of a range is exact** where its end is below the capacity. Take
any two vectors of one size and depth, of which the one that is read
reaches no node with the other's id: the copy goes through without a
fault, the range reads what the other vector does there, the rest what it
did, and the other vector what it did everywhere. -/
theorem assign_copies (hv : Represents h v L) (ho : Represents h o M) (hsz : o.sz = v.sz)
    (hlevels : o.levels = v.levels) (hcap : bpWidth ^ (v.levels + 1) < 2 ^ 64)
    (hforeign : Foreign h o.root v.id) (hab : a < b) (hb : b ≤ v.sz)
    (hb' : b < bpWidth ^ (v.levels + 1)) (hrounds : bpWidth + v.levels ≤ rounds) :
    ∃ h' v', BpVector.assign rounds .tr h v o a b = .ok (h', v') ∧
      Represents h' v' (splice L M a b) ∧
      (∀ i, v'.at' h' i = if a ≤ i ∧ i < b then o.at' h i else v.at' h i) ∧
      ∀ i, o.at' h' i = o.at' h i := by
  obtain ⟨Ψ, hB⟩ := hv.beside ho hsz hlevels hforeign (by omega)
  obtain ⟨h', r', Ψ', he, hB'⟩ := hB.assign hcap hab hb hb' hrounds
  exact ⟨h', { v with root := r' }, he, ⟨Ψ', hB'.placed, hB'.target⟩, hB.at_splice hB', fun i =>
    hB.source.denotes.at_unique hB'.source.denotes i⟩

/-- Two versions of a run of `ps_vector`s. -/
theorem Ps.exists_pair [Inhabited T] (ops : List (PsOp T)) (Ls : List (List T))
    (hspec : (Ps.spec T).run [] ops = some Ls) (hi : Ls[i]? = some L) (hj : Ls[j]? = some M) :
    ∃ s v o, (Ps.code T).run (Heap.empty, []) ops = some s ∧ s.2[i]? = some v ∧ s.2[j]? = some o ∧
      Represents s.1 v L ∧ Represents s.1 o M := by
  have hinit : Ps.Tracks [] ((Heap.empty : Heap T), []) :=
    ⟨fun _ => ⟨0, 0⟩, placed_of_fits fun a ha => absurd ha (Nat.not_lt_zero a), .nil⟩
  obtain ⟨s, hs, Ψ, hP, hvs⟩ := Machine.run_simulates Ps.code_follows hinit hspec
  obtain ⟨v, hv, hhv⟩ := Ps.exists_version hvs hi
  obtain ⟨o, ho, hho⟩ := Ps.exists_version hvs hj
  exact ⟨s, v, o, hs, hv, ho, ⟨Ψ, hP, hhv⟩, ⟨Ψ, hP, hho⟩⟩

omit K in
/-- Two versions of five values over arrays of two, which no id but that of
the persistent vectors is carried in. -/
theorem exists_versions :
    letI := oneBit
    ∃ (h : Heap ℕ) (v o : BpVector), Represents h v [1, 2, 3, 4, 5] ∧
      Represents h o [6, 2, 8, 4, 9] ∧ v.sz = 5 ∧ o.sz = 5 ∧ v.levels = 2 ∧ o.levels = 2 ∧
      ∀ a < h.next, (h.cell a).id = 0 := by
  let _ := oneBit
  obtain ⟨s, v, o, hs, hv, ho, hhv, hho⟩ := Ps.exists_pair (i := 5) (j := 8)
    (L := [1, 2, 3, 4, 5]) (M := [6, 2, 8, 4, 9]) [.new, .pushBack 0 1, .pushBack 1 2,
      .pushBack 2 3, .pushBack 3 4, .pushBack 4 5, .set 5 0 6, .set 6 4 9, .set 7 2 8]
    [[], [1], [1, 2], [1, 2, 3], [1, 2, 3, 4], [1, 2, 3, 4, 5], [6, 2, 3, 4, 5],
      [6, 2, 3, 4, 9], [6, 2, 8, 4, 9]] (by decide +kernel) rfl rfl
  have hval : ((Ps.code ℕ).run (Heap.empty, []) [.new, .pushBack 0 1, .pushBack 1 2,
      .pushBack 2 3, .pushBack 3 4, .pushBack 4 5, .set 5 0 6, .set 6 4 9, .set 7 2 8]).map
        (fun s => (s.2[5]?.map fun v => (v.sz, v.levels), s.2[8]?.map fun v => (v.sz, v.levels),
          decide (∀ a < s.1.next, (s.1.cell a).id = 0))) =
      some (some (5, 2), some (5, 2), true) := by
    decide +kernel
  rw [hs, Option.map_some, hv, ho] at hval
  simp only [Option.map_some, Option.some.injEq, Prod.mk.injEq, decide_eq_true_eq] at hval
  obtain ⟨⟨h1, h2⟩, ⟨h3, h4⟩, h5⟩ := hval
  exact ⟨s.1, v, o, hhv, hho, h1, h3, h2, h4, h5⟩

omit K in
theorem assign_copies_oneBit :
    letI := oneBit
    ∃ (h : Heap ℕ) (v o : BpVector) (h' : Heap ℕ) (v' : BpVector),
      assign 4 .tr h (Tr.withId v 7) o 1 5 = .ok (h', v') ∧
      Represents h' v' (splice [1, 2, 3, 4, 5] [6, 2, 8, 4, 9] 1 5) ∧
      (∀ i, v'.at' h' i = if 1 ≤ i ∧ i < 5 then o.at' h i else (Tr.withId v 7).at' h i) ∧
      ∀ i, o.at' h' i = o.at' h i := by
  let _ := oneBit
  obtain ⟨h, v, o, ⟨Ψ, hP, hv⟩, ho, hsz, hsz', hlev, hlev', hid⟩ := exists_versions
  have hlt : o.root < h.next := by
    obtain ⟨Ψ', -, hho⟩ := ho
    exact hho.root_lt
  have hforeign : Foreign h o.root 7 := fun a ha => by
    rw [hid a (hP.reach_lt hlt ha)]
    decide
  have hw : Represents h (Tr.withId v 7) [1, 2, 3, 4, 5] :=
    ⟨Ψ, hP, hv.of_same ⟨rfl, rfl, rfl⟩⟩
  have hlev7 : (Tr.withId v 7).levels = 2 := hlev
  have hsz7 : (Tr.withId v 7).sz = 5 := hsz
  obtain ⟨h', v', hgo⟩ := assign_copies (a := 1) (b := 5) hw ho (hsz'.trans hsz7.symm)
    (hlev'.trans hlev7.symm) (by rw [hlev7]; decide) hforeign (by decide) (by rw [hsz7])
    (by rw [hlev7]; decide) (show bpWidth + (Tr.withId v 7).levels ≤ 4 by rw [hlev7]; decide)
  exact ⟨h, v, o, h', v', hgo⟩

end Contentious
