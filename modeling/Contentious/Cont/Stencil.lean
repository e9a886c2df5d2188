import Contentious.Common.Loop
import Contentious.Cont.Resolve
import Mathlib.Data.Nat.Log

/-!
# Cont — the stencil a worker computes

`stencil_splt` finds the narrowest range of its block on which every
offset stays within the vector, and adds to each element there the three
around it in the snapshot, weighted. The weights are written into it; the
operators that are registered are used by the resolution only.
-/

namespace Contentious.Cont

/-- The constant `0.4` of the kernel. -/
def heatConst : ℚ := 4 / 10

/-- `0.4 * (*(trck) + -2 * *(trck+1) + *(trck+2))` -/
def kernel (x y z : ℚ) : ℚ := heatConst * (x + -2 * y + z)

/-- `ap` and `bp`: the loop can only go over the narrowest valid range. -/
def stencilRange (lay : Layout) (imap₀ : Imap) (imaps : List Imap) (p : ℕ) : ℤ × ℤ :=
  let aran := fun imap => (safeMapping imap (lay.a p) 0 lay.size).2
  let bran := fun imap => (safeMapping imap (lay.b p) 0 lay.size).2
  ((imaps.map aran).foldl max (aran imap₀), (imaps.map bran).foldl min (bran imap₀))

/-- What the loop makes of the element at `t`, where the first offset is
`o`. -/
def kernelCell (x : Contents) (o t : ℤ) : ℚ :=
  x t + kernel (x (t + o)) (x (t + o + 1)) (x (t + o + 2))

/-- One step of the heat equation at `t`. -/
def heatCell (x : Contents) (t : ℤ) : ℚ := x t + heatConst * (x (t - 1) - 2 * x t + x (t + 1))

theorem kernelCell_heat (x : Contents) (t : ℤ) : kernelCell x (-1) t = heatCell x t := by
  rw [kernelCell, heatCell, kernel, ← sub_eq_add_neg, sub_add_cancel,
    show t - 1 + 2 = t + 1 by ring]
  ring

variable [BpBits]

/-! ## Iterators over the leaves

An iterator points at a slot of a leaf. The last leaf may have slots behind
the last element, and the iterators tell the end of an array from the end of
the vector in it only where they come to a new leaf. Behind the last leaf
they may come round to the first one; the index they count goes on. -/

namespace Layout

/-- The slots of the leaves, those behind the last element among them. -/
def slots (lay : Layout) : ℕ := Radix.up bpWidth lay.size

/-- The slot that an iterator with this index points at. -/
def slotOf (lay : Layout) (it : ℤ) : ℤ := if it ≤ lay.size then it else it % lay.slots

/-- `it + n`, of an iterator at a slot: as far as that within the leaf, and
not past the end of the vector otherwise. -/
def iterAdd (lay : Layout) (it n : ℤ) : ℤ :=
  if it % bpWidth + n < bpWidth then it + n else min (it + n) lay.size

/-- `begin() + n`, a place before the vector for a negative `n`. -/
def beginAdd (lay : Layout) (n : ℤ) : ℤ := lay.iterAdd 0 n

/-- `++it`, of an iterator at a slot. Behind the last leaf the walk from the
root comes to the first one again, where the trie has no room for another,
and to a null child where it has. -/
def iterNext (lay : Layout) (it : ℤ) : Exec ℤ :=
  if ¬ (bpWidth : ℤ) ∣ it + 1 ∨ it + 1 ≤ lay.size ∨
      bpWidth ^ Nat.log bpWidth lay.slots = lay.slots then
    .ok (it + 1)
  else .error .nullChild

end Layout

/-- `*it`, of one over `v` -/
def slotAt (lay : Layout) (v : Contents) (it : ℤ) : Exec ℚ :=
  if 0 ≤ lay.slotOf it ∧ lay.slotOf it < lay.slots then .ok (v (lay.slotOf it))
  else .error .outOfBounds

/-- What the loop of `stencil_splt` works on: the splinter's elements and
where `it` and `trck` point. -/
structure Sweep where
  data : Contents
  it : ℤ
  trck : ℤ

/-- The body of the loop, and the two increments. -/
def sweepCell (lay : Layout) (used : Contents) (s : Sweep) : Exec Sweep := do
  let x ← slotAt lay used s.trck
  let y ← slotAt lay used (lay.iterAdd s.trck 1)
  let z ← slotAt lay used (lay.iterAdd s.trck 2)
  let target ← slotAt lay s.data s.it
  let it ← lay.iterNext s.it
  let trck ← lay.iterNext s.trck
  .ok ⟨Function.update s.data (lay.slotOf s.it) (target + kernel x y z), it, trck⟩

/-- `stencil_splt` between its detach and its reattach: the splinter's
elements, from the snapshot it starts as. Where `it` has not met `end` within
as many rounds as there are slots, it goes round for ever. -/
def stencilSplt (lay : Layout) (imaps : List Imap) (p : ℕ) (used : Contents) : Exec Contents :=
  match imaps with
  | [] => .error .outOfBounds
  | imap₀ :: imaps => do
    let os₀ := lay.a p - imap₀ (lay.a p)
    let (ap, bp) := stencilRange lay imap₀ imaps p
    let s ← loop .rounds (fun s => lay.slotOf s.it != lay.beginAdd bp) (sweepCell lay used)
      lay.slots
      ⟨used, lay.beginAdd ap, lay.beginAdd (ap + os₀)⟩
    .ok s.data

/-! ## Where they point -/

namespace Layout

variable {lay : Layout} {it n : ℤ}

theorem size_le_slots (lay : Layout) : lay.size ≤ lay.slots := Radix.le_up bpWidth_pos _

/-- Within the vector, an iterator goes as far as it is told. -/
theorem iterAdd_of_le (h : it + n ≤ lay.size) : lay.iterAdd it n = it + n := by
  rw [iterAdd, min_eq_left h, ite_self]

theorem beginAdd_of_le (h : n ≤ lay.size) : lay.beginAdd n = n := by
  rw [beginAdd, iterAdd_of_le (by rw [zero_add]; exact h), zero_add]

/-- `begin() + n` stops at the end of the vector, but not in the first leaf. -/
theorem beginAdd_eq (lay : Layout) (n : ℤ) :
    lay.beginAdd n = if n < bpWidth then n else min n lay.size := by
  rw [beginAdd, iterAdd, Int.zero_emod, zero_add]

theorem iterNext_of_le (h : it + 1 ≤ lay.size) : lay.iterNext it = .ok (it + 1) :=
  if_pos (.inr (.inl h))

theorem slotOf_of_le (h : it ≤ lay.size) : lay.slotOf it = it := if_pos h

theorem slotOf_of_lt (h0 : 0 ≤ it) (h : it < lay.slots) : lay.slotOf it = it := by
  rw [slotOf, Int.emod_eq_of_lt h0 h, ite_self]

/-- An iterator that `begin() + n` gives has not come round. -/
theorem slotOf_beginAdd (lay : Layout) (n : ℤ) : lay.slotOf (lay.beginAdd n) = lay.beginAdd n := by
  rw [beginAdd_eq]
  split
  · next hlt =>
    rcases le_or_gt n lay.size with h | h
    · exact slotOf_of_le h
    · refine slotOf_of_lt (by omega) (lt_of_lt_of_le hlt (Int.ofNat_le.2 ?_))
      exact Nat.le_of_dvd (lt_of_lt_of_le lay.size_pos lay.size_le_slots) (Radix.dvd_up ..)
  · exact slotOf_of_le (min_le_right _ _)

end Layout

theorem slotAt_of_lt {lay : Layout} {v : Contents} {it : ℤ} (h0 : 0 ≤ it) (h : it < lay.slots) :
    slotAt lay v it = .ok (v it) := by
  rw [slotAt, Layout.slotOf_of_lt h0 h, if_pos ⟨h0, h⟩]

theorem slotAt_of_inRange {lay : Layout} {v : Contents} {it : ℤ} (h : lay.InRange it) :
    slotAt lay v it = .ok (v it) :=
  slotAt_of_lt h.1 (lt_of_lt_of_le h.2 (Int.ofNat_le.2 lay.size_le_slots))

/-! ## What it computes -/

variable {lay : Layout} {used : Contents} {ap bp o : ℤ} {p : ℕ}

/-- What the loop keeps, on its way from `ap` to `bp`. -/
structure Swept (used : Contents) (o ap bp : ℤ) (s : Sweep) : Prop where
  le_it : ap ≤ s.it
  it_le : s.it ≤ bp
  trck_eq : s.trck = s.it + o
  data_eq : ∀ t, s.data t = if ap ≤ t ∧ t < s.it then kernelCell used o t else used t

/-- The range lies in the vector, and so does what is read from there. -/
structure Sweepable (lay : Layout) (o ap bp : ℤ) : Prop where
  nonneg : 0 ≤ ap
  reads_nonneg : 0 ≤ ap + o
  le_size : bp ≤ lay.size
  reads_le : bp + o + 2 ≤ lay.size

/-- One round of it. -/
theorem Swept.sweepCell {s : Sweep} (hs : Swept used o ap bp s) (hb : Sweepable lay o ap bp)
    (hne : s.it ≠ bp) :
    ∃ t, sweepCell lay used s = .ok t ∧ Swept used o ap bp t ∧ t.it = s.it + 1 := by
  obtain ⟨data, it, trck⟩ := s
  obtain ⟨h1, h2, h3, h4⟩ := hs
  obtain ⟨h5, h6, h7, h8⟩ := hb
  dsimp only at h1 h2 h3 h4 hne
  subst h3
  have hread : ∀ {v : Contents} {i : ℤ}, 0 ≤ i → i < lay.size → slotAt lay v i = .ok (v i) :=
    fun h h' => slotAt_of_inRange ⟨h, h'⟩
  have hstep : Cont.sweepCell lay used ⟨data, it, it + o⟩ = .ok ⟨Function.update data it
      (data it + kernel (used (it + o)) (used (it + o + 1)) (used (it + o + 2))),
      it + 1, it + o + 1⟩ := by
    have hit : lay.iterNext it = .ok (it + 1) := Layout.iterNext_of_le (by omega)
    have htrck : lay.iterNext (it + o) = .ok (it + o + 1) := Layout.iterNext_of_le (by omega)
    have hone : lay.iterAdd (it + o) 1 = it + o + 1 := Layout.iterAdd_of_le (by omega)
    have htwo : lay.iterAdd (it + o) 2 = it + o + 2 := Layout.iterAdd_of_le (by omega)
    have hslot : lay.slotOf it = it := Layout.slotOf_of_le (by omega)
    simp only [Cont.sweepCell, hone, htwo, hslot]
    rw [hread (by omega) (by omega), hread (by omega) (by omega), hread (by omega) (by omega),
      hread (by omega) (by omega), hit, htrck]
    rfl
  refine ⟨_, hstep, ⟨by dsimp only; omega, by dsimp only; omega, by dsimp only; omega, fun t => ?_⟩,
    rfl⟩
  dsimp only
  by_cases ht : t = it
  · subst ht
    rw [Function.update_self, if_pos ⟨h1, Int.lt_succ t⟩, h4, if_neg (by omega), kernelCell]
  · rw [Function.update_of_ne ht, h4]
    exact if_congr (by omega) rfl rfl

/-- **The sweep computes each element of its range** from the snapshot,
and leaves the others. -/
theorem sweep_spec (used : Contents) (hab : ap ≤ bp) (hb : Sweepable lay o ap bp) :
    ∃ s, loop .rounds (fun s : Sweep => lay.slotOf s.it != bp) (sweepCell lay used) lay.slots
      ⟨used, ap, ap + o⟩ = .ok s ∧
      ∀ t, s.data t = if ap ≤ t ∧ t < bp then kernelCell used o t else used t := by
  have hslot : ∀ s : Sweep, Swept used o ap bp s → lay.slotOf s.it = s.it := fun s hs =>
    Layout.slotOf_of_le (hs.it_le.trans hb.le_size)
  have hbody : ∀ s : Sweep, Swept used o ap bp s → (lay.slotOf s.it != bp) = true →
    ∃ t, sweepCell lay used s = .ok t ∧
      Swept used o ap bp t ∧ (bp - t.it).toNat < (bp - s.it).toNat := by
    intro s hs hne
    rw [hslot s hs] at hne
    obtain ⟨t, ht, hs', hit⟩ := hs.sweepCell hb (by simpa using hne)
    have := hs.it_le
    have := hs'.it_le
    exact ⟨t, ht, hs', by omega⟩
  have hinit : Swept used o ap bp ⟨used, ap, ap + o⟩ :=
    ⟨le_rfl, hab, rfl, fun t => (if_neg (by dsimp only; omega)).symm⟩
  have hrounds : (bp - (⟨used, ap, ap + o⟩ : Sweep).it).toNat ≤ lay.slots := by
    have := hb.nonneg
    have := hb.le_size
    have := lay.size_le_slots
    dsimp only
    omega
  obtain ⟨s, hs, hI, hend⟩ := loop_total (fun s : Sweep => (bp - s.it).toNat) hbody hinit hrounds
  rw [hslot s hI] at hend
  have hit : s.it = bp := by simpa using hend
  exact ⟨s, hs, by rw [← hit]; exact hI.data_eq⟩

/-- The index maps of `stencil<-1, 0, 1>`. -/
def heatMaps : List Imap := [offset (-1), offset 0, offset 1]

/-- **The narrowest range** of a block is the block without the two ends
of the vector. -/
theorem stencilSplt_eq (hp : p < lay.hwconc) : stencilSplt lay heatMaps p used =
    loop .rounds (fun s : Sweep => lay.slotOf s.it != min (lay.b p) (lay.size - 1))
    (sweepCell lay used) lay.slots
      ⟨used, max (lay.a p) 1, max (lay.a p) 1 + -1⟩ >>= fun s => .ok s.data := by
  have h1 := Layout.a_lt_b hp
  have h2 := lay.a_nonneg p
  have h3 := lay.b_le_size p
  have hap : [offset 0, offset 1].foldl
    (fun m imap => max m (safeMapping imap (lay.a p) 0 lay.size).2)
      (safeMapping (offset (-1)) (lay.a p) 0 lay.size).2 = max (lay.a p) 1 := by
    simp only [List.foldl, safeMapping_offset, clamp]
    omega
  have hbp : [offset 0, offset 1].foldl
    (fun m imap => min m (safeMapping imap (lay.b p) 0 lay.size).2)
      (safeMapping (offset (-1)) (lay.b p) 0 lay.size).2 = min (lay.b p) (lay.size - 1) := by
    simp only [List.foldl, safeMapping_offset, clamp]
    omega
  have hos : lay.a p - offset (-1) (lay.a p) = -1 := by rw [offset]; ring
  have hit : lay.beginAdd (max (lay.a p) 1) = max (lay.a p) 1 := Layout.beginAdd_of_le (by omega)
  have hend : lay.beginAdd (min (lay.b p) (lay.size - 1)) = min (lay.b p) (lay.size - 1) :=
    Layout.beginAdd_of_le (by omega)
  have htrck : lay.beginAdd (max (lay.a p) 1 + -1) = max (lay.a p) 1 + -1 :=
    Layout.beginAdd_of_le (by omega)
  simp only [stencilSplt, stencilRange, heatMaps, List.foldl_map, hap, hbp, hos, hit, hend, htrck]

/-- What the loop keeps where it starts behind the only element. -/
def PastSingle (used : Contents) (s : Sweep) : Prop :=
  s.data 0 = used 0 ∧ (s.it = bpWidth ∨ 0 < s.it ∧ s.it < bpWidth ∧ s.trck = s.it - 1)

/-- A single element lies in a leaf. -/
theorem slots_of_single (hsize : lay.size = 1) : lay.slots = bpWidth := by
  rw [Layout.slots, hsize]
  refine le_antisymm (Radix.up_le bpWidth_pos dvd_rfl bpWidth_pos) ?_
  exact Nat.le_of_dvd (lt_of_lt_of_le Nat.one_pos (Radix.le_up bpWidth_pos 1)) (Radix.dvd_up ..)

/-- It goes through the slots behind the element, and comes round. -/
theorem PastSingle.sweepCell {s : Sweep} (hsize : lay.size = 1) (hs : PastSingle used s)
    (hne : s.it ≠ bpWidth) :
    ∃ t, sweepCell lay used s = .ok t ∧ PastSingle used t ∧ t.it = s.it + 1 := by
  obtain ⟨data, it, trck⟩ := s
  obtain ⟨hdata, hpos⟩ := hs
  dsimp only at hdata hpos hne
  obtain ⟨h1, h2, rfl⟩ := hpos.resolve_left hne
  have hW := one_lt_bpWidth
  have hslots := slots_of_single hsize
  have hread : ∀ {v : Contents} {i : ℤ}, 0 ≤ i → i < bpWidth → slotAt lay v i = .ok (v i) :=
    fun h h' => slotAt_of_lt h (by rw [hslots]; exact h')
  have hmod : (it - 1) % bpWidth = it - 1 := Int.emod_eq_of_lt (by omega) (by omega)
  have hadd : ∀ n : ℤ, 0 < n → 0 ≤ lay.iterAdd (it - 1) n ∧ lay.iterAdd (it - 1) n < bpWidth := by
    intro n hn
    rw [Layout.iterAdd, hmod]
    split <;> omega
  have hslot : lay.slotOf it = it := Layout.slotOf_of_lt (by omega) (by rw [hslots]; exact h2)
  have hpow : bpWidth ^ Nat.log bpWidth lay.slots = lay.slots := by
    rw [hslots, Nat.log_eq_one_iff.2 ⟨Nat.lt_mul_self_iff.2 hW, hW, le_rfl⟩, pow_one]
  have hnext : ∀ i, lay.iterNext i = .ok (i + 1) := fun i => if_pos (.inr (.inr hpow))
  have hstep : Cont.sweepCell lay used ⟨data, it, it - 1⟩ =
      .ok ⟨Function.update data it (data it + kernel (used (it - 1))
        (used (lay.iterAdd (it - 1) 1)) (used (lay.iterAdd (it - 1) 2))), it + 1, it - 1 + 1⟩ := by
    simp only [Cont.sweepCell, hslot]
    rw [hread (by omega) (by omega), hread (hadd 1 one_pos).1 (hadd 1 one_pos).2,
      hread (hadd 2 two_pos).1 (hadd 2 two_pos).2, hread (by omega) (by omega), hnext, hnext]
    rfl
  refine ⟨_, hstep, ⟨?_, ?_⟩, rfl⟩
  · exact (Function.update_of_ne (by omega) _ _).trans hdata
  · dsimp only
    omega

/-- **A vector of one element** has no such range: the loop starts behind
its end, and goes round through the rest of the leaf, where no element is. -/
theorem stencilSplt_single (used : Contents) (hp : p < lay.hwconc) (hsize : lay.size = 1) :
    ∃ splt, stencilSplt lay heatMaps p used = .ok splt ∧ splt 0 = used 0 := by
  have h1 := Layout.a_lt_b hp
  have h2 := lay.a_nonneg p
  have h3 := lay.b_le_size p
  have hap : max (lay.a p) 1 = 1 := by omega
  have hbp : min (lay.b p) (lay.size - 1) = 0 := by omega
  have hW := one_lt_bpWidth
  have hslots := slots_of_single hsize
  -- it is at the first slot where it has come round, and only there
  have hround : ∀ s : Sweep, PastSingle used s →
      (lay.slotOf s.it != 0) = (s.it != (bpWidth : ℤ)) := by
    rintro s ⟨-, hit | ⟨h1, h2, -⟩⟩
    · have hslot : lay.slotOf s.it = 0 := by
        rw [Layout.slotOf, hit, hslots, if_neg (by omega), Int.emod_self]
      rw [hslot, hit, bne_self_eq_false, bne_self_eq_false]
    · rw [Layout.slotOf_of_lt h1.le (by rw [hslots]; exact h2), bne_iff_ne.2 h1.ne',
        bne_iff_ne.2 h2.ne]
  have hbody : ∀ s : Sweep, PastSingle used s → (lay.slotOf s.it != 0) = true →
      ∃ t, sweepCell lay used s = .ok t ∧ PastSingle used t ∧
        (bpWidth - t.it).toNat < (bpWidth - s.it).toNat := by
    intro s hs hgo
    rw [hround s hs] at hgo
    have hne : s.it ≠ bpWidth := by simpa using hgo
    obtain ⟨t, ht, hs', hit⟩ := hs.sweepCell hsize hne
    obtain ⟨-, hlt, -⟩ := hs.2.resolve_left hne
    exact ⟨t, ht, hs', by omega⟩
  have hinit : PastSingle used ⟨used, 1, 0⟩ := ⟨rfl, .inr ⟨one_pos, by dsimp only; omega, rfl⟩⟩
  have hloop : ∃ t, loop Fault.rounds (fun s : Sweep => lay.slotOf s.it != 0) (sweepCell lay used)
      lay.slots ⟨used, 1, 0⟩ = .ok t ∧ PastSingle used t ∧ (lay.slotOf t.it != 0) = false :=
    loop_total (fun s : Sweep => (bpWidth - s.it).toNat) hbody hinit (by dsimp only; omega)
  obtain ⟨s, hs, hI, -⟩ := hloop
  refine ⟨s.data, ?_, hI.1⟩
  rw [stencilSplt_eq hp, hap, hbp, add_neg_cancel, hs]
  rfl

/-- **The splinter's elements**: the interior ones of the block are
stepped, and the two ends of the vector are left. -/
theorem stencilSplt_heat (used : Contents) (hp : p < lay.hwconc) :
    ∃ splt, stencilSplt lay heatMaps p used = .ok splt ∧ ∀ t, lay.InBlock p t →
      splt t = if 1 ≤ t ∧ t < lay.size - 1 then heatCell used t else used t := by
  have h1 := Layout.a_lt_b hp
  have h2 := lay.a_nonneg p
  have h3 := lay.b_le_size p
  by_cases hsize : lay.size = 1
  · obtain ⟨splt, hok, hsplt⟩ := stencilSplt_single used hp hsize
    refine ⟨splt, hok, fun t ht => ?_⟩
    obtain ⟨h4, h5⟩ := ht
    obtain rfl : t = 0 := by omega
    rw [if_neg (by omega)]
    exact hsplt
  · have hab : max (lay.a p) 1 ≤ min (lay.b p) (lay.size - 1) := by omega
    have hb : Sweepable lay (-1) (max (lay.a p) 1) (min (lay.b p) (lay.size - 1)) :=
      ⟨by omega, by omega, by omega, by omega⟩
    obtain ⟨s, hs, hdata⟩ := sweep_spec used hab hb
    refine ⟨s.data, by rw [stencilSplt_eq hp, hs]; rfl, fun t ht => ?_⟩
    obtain ⟨h4, h5⟩ := ht
    rw [hdata, kernelCell_heat]
    exact if_congr (by omega) rfl rfl

end Contentious.Cont
