import Contentious.Trie.Position
import Contentious.Trie.Paths

/-!
# Trie — advancing past the end

`operator+` is meant to stop at the end, and its walk does: an index at or
past the size is put back to the last element, and the iterator one past
it. The step within a leaf comes before that and has no such test. So an
advance past the end stops there unless it stays within the array of the
leaf it starts in (`Stops`), which a last leaf that is not full has room
for; and an `int64_t` conversion sends what is too far backwards. A loop
that strides to the end misses it in the same case.
-/

namespace Contentious

open BpVector

variable [K : BpBits] {T : Type}

namespace BpVector

/-- `(begin() + p) + n == begin() + q`, for iterators of the kind -/
def sumEq (κ : IterKind) (h : Heap T) (v : BpVector) (p n q : ℕ) : Exec Bool := do
  let (h, v, it) ← beginOf κ h v
  let (h, it) ← it.addOf κ h p
  let (h, it) ← it.addOf κ h n
  let (h, _, jt) ← beginOf κ h v
  let (_, jt) ← jt.addOf κ h q
  .ok (it.eq jt)

/-- `it += k`, with the steps counted. -/
def strideStep (h : Heap T) (k : ℕ) (s : BpIterator × ℕ) : Exec (BpIterator × ℕ) := do
  let it ← s.1.cadd h k
  .ok (it, s.2 + 1)

/-- The steps of `for (it = cbegin(); it != cend(); it += k)`. -/
def strideLoop (rounds : ℕ) (h : Heap T) (v : BpVector) (k : ℕ) : Exec ℕ := do
  let last ← cend h v
  let it ← cbegin h v
  let (_, steps) ← loop .rounds (fun s => !s.1.eq last) (strideStep h k) rounds (it, 0)
  .ok steps

/-- Where the array of a position's leaf ends. -/
def leafEnd (v : BpVector) (p : ℕ) : ℕ := (lastOf v p / bpWidth + 1) * bpWidth

/-- **An advance that stops at the end**: the positions fit an `int64_t`,
and the sum is no position past the end within the leaf it starts in. -/
def Stops (v : BpVector) (p n : ℕ) : Prop :=
  p < 2 ^ 63 ∧ n < 2 ^ 63 ∧ min (p + n) v.sz < 2 ^ 63 ∧ (p + n ≤ v.sz ∨ leafEnd v p ≤ p + n)

instance (v : BpVector) (p n : ℕ) : Decidable (Stops v p n) := inferInstanceAs (Decidable (_ ∧ _))

end BpVector

variable {h h' : Heap T} {Ψ Ψ' : Addr → Place} {k n p q rounds : ℕ}
variable {cp : Id → Bool} {v : BpVector} {L : List T} {it it' jt : BpIterator}

theorem BpIterator.At.leafEnd_le_iff (hit : it.At cp h v p) :
    leafEnd v p ≤ p + n ↔ bpWidth ≤ it.cur + n := by
  have h1 := hit.pos_eq
  have h2 : leafEnd v p = Radix.pos bpWidth (lastOf v p) 0 * bpWidth + bpWidth := by
    simp only [leafEnd, Radix.pos, zero_add, pow_one]
    ring
  omega

/-- **An advance past the end** that stays in the leaf goes where it is
told. -/
theorem BpIterator.addWith_past (hsz : it.sz ≠ 0) (hn0 : n ≠ 0) (hn : n < 2 ^ 63)
    (hlt : it.cur + n < bpWidth) :
    it.addWith cp h n = .ok (h, { it with cur := it.cur + n }) := by
  rw [BpIterator.addWith, if_neg (by omega), toInt64_of_lt hn, if_pos (by omega),
    if_pos (by omega)]

/-- It is equal to none that stands in the vector. -/
theorem BpIterator.At.eq_past (hit : it.At cp h v p) (hjt : jt.At cp h v q) (hP : Placed h Ψ)
    (hv : Holds h Ψ v L) (heq : ({ it with cur := it.cur + n } : BpIterator).eq jt = true) :
    q = p + n := by
  rw [BpIterator.eq, Bool.and_eq_true, decide_eq_true_iff, decide_eq_true_iff] at heq
  obtain ⟨hleaf, hcur⟩ := heq
  dsimp only at hleaf hcur
  have hpos : Radix.pos bpWidth (lastOf v p) 0 = Radix.pos bpWidth (lastOf v q) 0 := by
    have h1 := (hit.leaf_place hP hv).2
    rw [hleaf, (hjt.leaf_place hP hv).2] at h1
    exact (congrArg Place.pos h1).symm
  have h1 := hit.pos_eq
  have h2 := hjt.pos_eq
  rw [hpos] at h1
  omega

/-! ## One advance -/

/-- Another `begin() + q`, of a vector whose root is owned. -/
theorem Holds.beginOf_addOf {κ : IterKind} (hP : Placed h Ψ) (hv : Holds h Ψ v L)
    (hroot : κ.copies v.id (h.cell v.root).id = false) (hsz0 : v.sz ≠ 0) (hsz : v.sz ≤ 2 ^ 63)
    (hq : q ≤ v.sz) :
    ∃ h₁ it₀, BpVector.beginOf κ h v = .ok (h₁, v, it₀) ∧
      (q < 2 ^ 63 → ∃ h' it Ψ', it₀.addOf κ h₁ q = .ok (h', it) ∧
        BpIterator.At.Came (κ.copies v.id) h Ψ h' Ψ' v q it) ∧
      (2 ^ 63 ≤ q → it₀.addOf κ h₁ q = .error .outOfBounds) := by
  obtain ⟨h₁, r', it₀, Ψ₁, he₀, hc₀, hb₀, hv₁, hr⟩ := hv.beginOf κ hP
  have hr' := hr hroot
  subst hr'
  refine ⟨h₁, it₀, he₀, fun hq63 => ?_, fun hq63 => ?_⟩
  · obtain ⟨h', it, Ψ', he, hc, -⟩ :=
      hc₀.stands.addOf hb₀ hc₀.ext.placed hv₁ hq63 hsz (.inl (by omega))
    rw [Nat.zero_add, min_eq_left hq] at hc
    exact ⟨h', it, Ψ', he, hc₀.ext.trans hc.ext, hc₀.keeps.trans hc.keeps, hc.stands⟩
  · exact BpIterator.addWith_far (by rw [hc₀.stands.sz_eq]; exact hsz0) hc₀.stands.cur_le hq63
      (by omega)

/-- **Where an advance stops**, from a position of the vector. -/
theorem sumEq_iff (κ : IterKind) (hP : Placed h Ψ) (hv : Holds h Ψ v L) (hsz0 : v.sz ≠ 0)
    (hsz : v.sz ≤ 2 ^ 63) (hp : p ≤ v.sz) (hn : n < 2 ^ 64) :
    sumEq κ h v p n (min (p + n) v.sz) = .ok true ↔ Stops v p n := by
  obtain ⟨h₁, r', it₀, Ψ₁, he₀, hc₀, hb₀, hv₁, -⟩ := hv.beginOf κ hP
  have hit₀ := hc₀.stands
  rw [sumEq, he₀, Exec.ok_bind]
  dsimp only
  by_cases hp63 : p < 2 ^ 63
  case neg =>
    have hfar : it₀.addOf κ h₁ p = .error .outOfBounds :=
      BpIterator.addWith_far (by rw [hit₀.sz_eq]; exact hsz0) hit₀.cur_le (by omega) (by omega)
    rw [hfar]
    exact iff_of_false (fun h => nomatch h) fun hs => hp63 hs.1
  obtain ⟨h₂, it, Ψ₂, he, hc, hb⟩ := hit₀.addOf hb₀ hc₀.ext.placed hv₁ hp63 hsz
    (.inl (by dsimp only; omega))
  have hmin : min (0 + p) v.sz = p := by omega
  rw [hmin] at hc hb
  have hit := hc.stands
  have hv₂ := hv₁.of_ext hc.ext
  rw [he, Exec.ok_bind]
  dsimp only
  by_cases hn63 : n < 2 ^ 63
  case neg =>
    have hfar : it.addOf κ h₂ n = .error .outOfBounds :=
      BpIterator.addWith_far (by rw [hit.sz_eq]; exact hsz0) hit.cur_le (by omega) hn
    rw [hfar]
    exact iff_of_false (fun h => nomatch h) fun hs => hn63 hs.2.1
  have hroom := hit.leafEnd_le_iff (n := n)
  by_cases hstop : p + n ≤ v.sz ∨ bpWidth ≤ it.cur + n
  · -- it stops, and the other stands there too if it can get there
    obtain ⟨h₃, it', Ψ₃, he', hc', -⟩ := hit.addOf hb hc.ext.placed hv₂ hn63 hsz hstop
    have hv₃ := hv₂.of_ext hc'.ext
    obtain ⟨h₄, jt₀, hbegin, hnear, hfar⟩ := hv₃.beginOf_addOf (κ := κ) hc'.ext.placed
      hc'.stands.root_owned hsz0 hsz (min_le_right (p + n) v.sz)
    rw [he', Exec.ok_bind]
    dsimp only
    rw [hbegin, Exec.ok_bind]
    dsimp only
    by_cases hq63 : min (p + n) v.sz < 2 ^ 63
    · obtain ⟨h₅, jt, Ψ₅, he₅, hc₅⟩ := hnear hq63
      rw [he₅, Exec.ok_bind]
      have heq := ((hc'.stands.keeps hc'.ext.placed hv₃.root_lt hc₅.keeps).eq_iff hc₅.stands
        hc₅.ext.placed (hv₃.of_ext hc₅.ext)).2 rfl
      rw [heq]
      exact iff_of_true rfl ⟨hp63, hn63, hq63, hstop.imp_right hroom.2⟩
    · rw [hfar (by omega)]
      exact iff_of_false (fun h => nomatch h) fun hs => hq63 hs.2.2.1
  · -- it goes past the end
    obtain ⟨hpast, hlt⟩ := not_or.1 hstop
    have he' : it.addOf κ h₂ n = .ok (h₂, { it with cur := it.cur + n }) :=
      BpIterator.addWith_past (by rw [hit.sz_eq]; exact hsz0) (by omega) hn63 (by omega)
    obtain ⟨h₄, jt₀, hbegin, hnear, hfar⟩ := hv₂.beginOf_addOf (κ := κ) hc.ext.placed
      hit.root_owned hsz0 hsz (min_le_right (p + n) v.sz)
    rw [he', Exec.ok_bind]
    dsimp only
    rw [hbegin, Exec.ok_bind]
    dsimp only
    refine iff_of_false (fun hok => ?_) fun hs => hstop (hs.2.2.2.imp_right hroom.1)
    by_cases hq63 : min (p + n) v.sz < 2 ^ 63
    · obtain ⟨h₅, jt, Ψ₅, he₅, hc₅⟩ := hnear hq63
      rw [he₅, Exec.ok_bind] at hok
      have hq := (hit.keeps hc.ext.placed hv₂.root_lt hc₅.keeps).eq_past hc₅.stands
        hc₅.ext.placed (hv₂.of_ext hc₅.ext) (Except.ok.inj hok)
      omega
    · rw [hfar (by omega)] at hok
      exact nomatch hok

/-! ## A loop of them -/

/-- The last position a stride meets before the end. -/
def lastStride (v : BpVector) (k : ℕ) : ℕ := k * ((v.sz - 1) / k)

omit K in
/-- Up to there, each stride ends in the vector, and the next one does not. -/
theorem stride_steps (hsz0 : v.sz ≠ 0) (hk : 1 ≤ k) :
    (v.sz + k - 1) / k = (v.sz - 1) / k + 1 ∧ lastStride v k < v.sz ∧ v.sz ≤ lastStride v k + k ∧
      ∀ j < (v.sz - 1) / k, k * j + k ≤ lastStride v k := by
  have h1 : v.sz + k - 1 = v.sz - 1 + k := by omega
  have h2 := Nat.div_add_mod (v.sz - 1) k
  have h3 := Nat.mod_lt (v.sz - 1) (y := k) (by omega)
  refine ⟨by rw [h1, Nat.add_div_right _ (by omega)], ?_, ?_, fun j hj => ?_⟩
  · rw [lastStride]
    omega
  · rw [lastStride]
    omega
  · rw [lastStride]
    calc k * j + k = k * (j + 1) := by ring
      _ ≤ k * ((v.sz - 1) / k) := Nat.mul_le_mul_left k hj

/-- **What a stride loop keeps**, where its last stride does not stop: it
is on its way there, or has missed the end. -/
def Striding (h : Heap T) (v : BpVector) (k : ℕ) (last : BpIterator) (s : BpIterator × ℕ) : Prop :=
  s.2 ≤ (v.sz - 1) / k ∧ s.1.At copyNone h v (k * s.2) ∧ s.1.i + s.1.cur = k * s.2 ∨
    s.2 = (v.sz - 1) / k + 1 ∧ s.1.eq last = false ∨ (v.sz - 1) / k + 1 < s.2

theorem Striding.step {last : BpIterator} {s : BpIterator × ℕ} (hs : Striding h v k last s)
    (hP : Placed h Ψ) (hv : Holds h Ψ v L) (hsz0 : v.sz ≠ 0) (hsz : v.sz < 2 ^ 63) (hk : 1 ≤ k)
    (hk64 : k < 2 ^ 64) (hlast : last.At copyNone h v v.sz) (hstop : ¬ Stops v (lastStride v k) k)
    {t : BpIterator × ℕ} (hstep : strideStep h k s = .ok t) : Striding h v k last t := by
  obtain ⟨-, hlt, hle, hmore⟩ := stride_steps (v := v) hsz0 hk
  obtain ⟨it, he, hret⟩ := Exec.bind_eq_ok.1 hstep
  cases hret
  obtain ⟨hj, hit, hb⟩ | ⟨hj, -⟩ | hj := hs
  · obtain ⟨⟨h', it'⟩, hadd, he⟩ := Exec.bind_eq_ok.1 he
    cases he
    by_cases hk63 : k < 2 ^ 63
    · by_cases hj' : s.2 < (v.sz - 1) / k
      · -- a stride within the vector
        have hin := hmore _ hj'
        obtain ⟨it₁, he₁, hit₁, hb₁⟩ := hit.cadd hb hP hv hk63 hsz.le (.inl (by omega))
        obtain ⟨⟨h₂, it₂⟩, hadd₁, he₁⟩ := Exec.bind_eq_ok.1 he₁
        rw [hadd] at hadd₁
        cases hadd₁
        cases he₁
        have hmin : min (k * s.2 + k) v.sz = k * (s.2 + 1) := by
          rw [Nat.mul_succ]
          omega
        rw [hmin] at hit₁ hb₁
        exact .inl ⟨hj', hit₁, hb₁⟩
      · -- the last one, which leaves it past the end
        have hj₁ : s.2 = (v.sz - 1) / k := by omega
        have hpos : k * s.2 = lastStride v k := by rw [hj₁, lastStride]
        rw [hpos] at hit hb
        have hpast : ¬ (lastStride v k + k ≤ v.sz ∨ bpWidth ≤ s.1.cur + k) := fun hor =>
          hstop ⟨by omega, hk63, by omega, hor.imp_right hit.leafEnd_le_iff.2⟩
        obtain ⟨hnot, hroom⟩ := not_or.1 hpast
        rw [BpIterator.addWith_past (by rw [hit.sz_eq]; exact hsz0) (by omega) hk63
          (by omega)] at hadd
        cases hadd
        refine .inr (.inl ⟨by dsimp only; omega, ?_⟩)
        rw [Bool.eq_false_iff]
        intro heq
        have := hit.eq_past hlast hP hv heq
        omega
    · rw [BpIterator.addWith_far (by rw [hit.sz_eq]; exact hsz0) hit.cur_le (by omega) hk64] at hadd
      exact nomatch hadd
  · exact .inr (.inr (by dsimp only; omega))
  · exact .inr (.inr (by dsimp only; omega))

/-- **What a stride loop keeps**, where its last stride stops: it is as far
as its steps take it, up to the end. -/
structure Strode (h : Heap T) (v : BpVector) (k : ℕ) (s : BpIterator × ℕ) : Prop where
  steps_le : s.2 ≤ (v.sz - 1) / k + 1
  stands : s.1.At copyNone h v (min (k * s.2) v.sz)
  base_eq : s.1.i + s.1.cur = min (k * s.2) v.sz

theorem Strode.step {s : BpIterator × ℕ} (hs : Strode h v k s) (hP : Placed h Ψ)
    (hv : Holds h Ψ v L) (hsz0 : v.sz ≠ 0) (hsz : v.sz ≤ 2 ^ 63) (hk : 1 ≤ k)
    (hstop : Stops v (lastStride v k) k) (hpos : k * s.2 < v.sz) :
    ∃ t, strideStep h k s = .ok t ∧ Strode h v k t ∧ t.2 = s.2 + 1 := by
  obtain ⟨-, hlt, -, hmore⟩ := stride_steps (v := v) hsz0 hk
  obtain ⟨it, j⟩ := s
  obtain ⟨-, hit, hb⟩ := hs
  dsimp only at hpos hit hb
  rw [min_eq_left hpos.le] at hit hb
  have hj : j ≤ (v.sz - 1) / k := by
    refine (Nat.le_div_iff_mul_le (by omega)).2 ?_
    rw [Nat.mul_comm]
    omega
  have hroom : k * j + k ≤ v.sz ∨ bpWidth ≤ it.cur + k := by
    rcases hj.lt_or_eq with hj' | hj'
    · exact .inl (le_trans (hmore j hj') hlt.le)
    · -- the last stride
      have hlast : lastStride v k = k * j := by rw [lastStride, hj']
      rw [hlast] at hstop
      exact hstop.2.2.2.imp_right hit.leafEnd_le_iff.1
  obtain ⟨it', he, hit', hb'⟩ := hit.cadd hb hP hv hstop.2.1 hsz hroom
  refine ⟨(it', j + 1), by rw [strideStep, he, Exec.ok_bind], ⟨by dsimp only; omega, ?_, ?_⟩, rfl⟩
  · dsimp only
    rw [Nat.mul_succ]
    exact hit'
  · dsimp only
    rw [Nat.mul_succ]
    exact hb'

/-- **Where a stride loop stops after as many steps as there are strides**:
where its last stride does. -/
theorem strideLoop_iff (hP : Placed h Ψ) (hv : Holds h Ψ v L) (hsz0 : v.sz ≠ 0)
    (hsz : v.sz ≤ 2 ^ 63) (hk : 1 ≤ k) (hk64 : k < 2 ^ 64) :
    (∃ rounds, strideLoop rounds h v k = .ok ((v.sz + k - 1) / k)) ↔
      Stops v (lastStride v k) k := by
  obtain ⟨hceil, hlt, hle, hmore⟩ := stride_steps (v := v) hsz0 hk
  rw [hceil]
  obtain ⟨it₀, he₀, hit₀, hb₀⟩ := hv.cbegin hP
  by_cases hsz63 : v.sz < 2 ^ 63
  case neg =>
    -- not even `end()` can be formed
    have hend : cend h v = .error .outOfBounds := by
      rw [cend, he₀, Exec.ok_bind, BpIterator.cadd,
        BpIterator.addWith_far (by rw [hit₀.sz_eq]; exact hsz0) hit₀.cur_le (by omega) (by omega)]
      rfl
    refine iff_of_false (fun hok => ?_) fun hs => ?_
    · obtain ⟨rounds, hok⟩ := hok
      rw [strideLoop, hend] at hok
      cases hok
    · have := hs.2.2.1
      omega
  obtain ⟨it₁, last, he₁, hadd, hlast, -⟩ := hv.cbegin_add hP le_rfl hsz63 hsz
  have hend : cend h v = .ok last := by
    rw [he₀] at he₁
    cases he₁
    rw [cend, he₀, Exec.ok_bind, hadd]
  constructor
  · rintro ⟨rounds, hok⟩
    by_contra hstop
    rw [strideLoop, hend, Exec.ok_bind, he₀, Exec.ok_bind] at hok
    obtain ⟨⟨it, steps⟩, hloop, hok⟩ := Exec.bind_eq_ok.1 hok
    cases hok
    have hinit : Striding h v k last (it₀, 0) := .inl ⟨Nat.zero_le _, hit₀, hb₀⟩
    obtain ⟨hI, hdone⟩ := loop_invariant (I := Striding h v k last) (fun s t hs _ hbody =>
      hs.step hP hv hsz0 hsz63 hk hk64 hlast hstop hbody) hinit hloop
    have heq : it.eq last = true := by simpa using hdone
    obtain ⟨hj, -⟩ | ⟨-, hne⟩ | hj := hI
    · exact absurd hj (Nat.not_succ_le_self _)
    · rw [heq] at hne
      cases hne
    · exact absurd hj (lt_irrefl _)
  · intro hstop
    have hinit : Strode h v k (it₀, 0) := by
      refine ⟨Nat.zero_le _, ?_, ?_⟩
      · rw [Nat.mul_zero, Nat.zero_min]
        exact hit₀
      · rw [Nat.mul_zero, Nat.zero_min]
        exact hb₀
    have hbody : ∀ s, Strode h v k s → (!s.1.eq last) = true → ∃ t, strideStep h k s = .ok t ∧
        Strode h v k t ∧ (v.sz - 1) / k + 1 - t.2 < (v.sz - 1) / k + 1 - s.2 := by
      intro s hs hne
      have hpos : k * s.2 < v.sz := by
        by_contra hge
        have hit := hs.stands
        rw [min_eq_right (by omega)] at hit
        rw [(hit.eq_iff hlast hP hv).2 rfl] at hne
        cases hne
      obtain ⟨t, ht, hs', hstep⟩ := hs.step hP hv hsz0 hsz hk hstop hpos
      have := hs'.steps_le
      exact ⟨t, ht, hs', by omega⟩
    obtain ⟨⟨it, j⟩, hloop, hs, hdone⟩ := loop_total _ hbody hinit
      (Nat.sub_le ((v.sz - 1) / k + 1) 0)
    have hpos := (hs.stands.eq_iff hlast hP hv).1 (by simpa using hdone)
    have hj := hs.steps_le
    dsimp only at hpos hj
    have hjeq : j = (v.sz - 1) / k + 1 := by
      refine le_antisymm hj ?_
      by_contra hlt'
      have h1 : k * j ≤ lastStride v k := Nat.mul_le_mul_left k (by omega)
      omega
    refine ⟨(v.sz - 1) / k + 1, ?_⟩
    rw [strideLoop, hend, Exec.ok_bind, he₀, Exec.ok_bind, hloop, Exec.ok_bind, hjeq]

/-- **Where advancing stops at the end**, on any vector that has elements:
an advance does if and only if its sum is within the vector or leaves the
leaf it starts in, and a stride loop has as many steps as there are
strides if and only if its last one does. -/
theorem advance_stops_iff (ht : Represents h v L) (hne : L ≠ [])
    (hcap : bpWidth ^ (v.levels + 1) < 2 ^ 64) :
    (∀ κ p n, p ≤ v.sz → n < 2 ^ 64 →
      (sumEq κ h v p n (min (p + n) v.sz) = .ok true ↔ Stops v p n)) ∧
    ∀ k, 1 ≤ k → k < 2 ^ 64 →
      ((∃ rounds, strideLoop rounds h v k = .ok ((v.sz + k - 1) / k)) ↔
        Stops v (lastStride v k) k) := by
  obtain ⟨Ψ, hP, hv⟩ := ht
  have hsz := hv.sz_le hcap
  have hsz0 : v.sz ≠ 0 := by
    rw [hv.size]
    exact fun h0 => hne (List.eq_nil_of_length_eq_zero h0)
  exact ⟨fun κ p n hp hn => sumEq_iff κ hP hv hsz0 hsz hp hn,
    fun k hk hk64 => strideLoop_iff hP hv hsz0 hsz hk hk64⟩

/-- Arrays of four. -/
@[reducible] def twoBits : BpBits := ⟨2, by decide, by decide⟩

omit K in
/-- One value in an array of four. -/
theorem exists_single :
    letI := twoBits
    ∃ h t, (handle ℕ .tr fun _ => 0).run (newVector .tr 1 Heap.empty)
        [.inPlace (by decide) (.push 7)] = some (h, t) ∧ Represents h t [7] ∧
      t.sz = 1 ∧ t.levels = 0 := by
  let _ := twoBits
  obtain ⟨⟨h, t⟩, hrun, ht⟩ := handle_represents .tr 1 (fun _ => 0)
    [.inPlace (by decide) (.push 7)] (by simp [Update.Instantiable])
    (show (lists ℕ).run [] _ = some [7] by decide +kernel)
  have hfields : ((handle ℕ .tr fun _ => 0).run (newVector .tr 1 Heap.empty)
      [.inPlace (by decide) (.push 7)]).map (fun s => (s.2.sz, s.2.levels)) = some (1, 0) := by
    decide +kernel
  rw [hrun, Option.map_some] at hfields
  have hpair := Option.some.inj hfields
  exact ⟨h, t, hrun, ht, congrArg Prod.fst hpair, congrArg Prod.snd hpair⟩

omit K in
theorem advance_stops_iff_twoBits :
    letI := twoBits
    ∃ (h : Heap ℕ) (t : BpVector),
      (∀ κ p n, p ≤ t.sz → n < 2 ^ 64 →
        (sumEq κ h t p n (min (p + n) t.sz) = .ok true ↔ Stops t p n)) ∧
      ∀ k, 1 ≤ k → k < 2 ^ 64 →
        ((∃ rounds, strideLoop rounds h t k = .ok ((t.sz + k - 1) / k)) ↔
          Stops t (lastStride t k) k) := by
  let _ := twoBits
  obtain ⟨h, t, -, ht, -, hlevels⟩ := exists_single
  exact ⟨h, t, advance_stops_iff ht (by simp) (by rw [hlevels]; decide)⟩

omit K in
/-- **An advance past the end is not stopped.** Two on from the start of a
vector of one value is no end, for either iterator, and the loop that
strides by two does not stop after its one stride. -/
theorem advance_past_end :
    letI := twoBits
    ∃ (h : Heap ℕ) (t : BpVector), Represents h t [7] ∧ bpWidth ^ (t.levels + 1) < 2 ^ 64 ∧
      (∀ κ, sumEq κ h t 0 2 (min (0 + 2) t.sz) = .ok false) ∧
      ¬ ∃ rounds, strideLoop rounds h t 2 = .ok ((t.sz + 2 - 1) / 2) := by
  let _ := twoBits
  obtain ⟨h, t, hrun, ht, hsz, hlevels⟩ := exists_single
  refine ⟨h, t, ht, by rw [hlevels]; decide, fun κ => ?_, ?_⟩
  · have hval : ((handle ℕ .tr fun _ => 0).run (newVector .tr 1 Heap.empty)
        [.inPlace (by decide) (.push 7)]).map
          (fun s => (sumEq .mutable s.1 s.2 0 2 1, sumEq .const s.1 s.2 0 2 1)) =
        some (.ok false, .ok false) := by
      decide +kernel
    rw [hrun, Option.map_some] at hval
    have hpair := Option.some.inj hval
    have hmin : min (0 + 2) t.sz = 1 := by omega
    rw [hmin]
    cases κ with
    | mutable => exact congrArg Prod.fst hpair
    | const => exact congrArg Prod.snd hpair
  · obtain ⟨Ψ, hP, hv⟩ := ht
    rw [strideLoop_iff hP hv (by omega) (by omega) (by omega) (by omega)]
    have hlast : lastStride t 2 = 0 := by rw [lastStride, hsz]
    rw [hlast]
    rintro ⟨-, -, -, hor⟩
    have hend : leafEnd t 0 = 4 := by
      rw [leafEnd, lastOf, Nat.zero_min, Nat.zero_div, Nat.zero_add, Nat.one_mul]
      rfl
    omega

end Contentious
