import Contentious.Cont.Stencil

/-!
# Cont — which elements a stencil writes

The loop of `stencil_splt` goes from `ap`, the greatest of the starts that
the offsets allow, to `bp`, the least of the ends, and stops where it meets
`bp`. The targets of a block all of whose neighbours exist are those from
`ap` to below `bp` (`valid_iff`). Where a block has none, `ap` may be past
`bp`, and the loop, which does not ask for the order, starts all the same,
unless both iterators have been stopped at the end of the vector: it goes
over the elements of other blocks, or the slots behind the last element, and
then out of the leaves or round to the first one. What the loop writes is
what the theorem is about; the elements it reads, at three places from the
first offset on, are another matter.
-/

namespace Contentious.Cont

variable [BpBits]

/-- The body of the loop, of which only the place that is written is kept:
where `it` is, and the targets so far. -/
def walkCell (lay : Layout) (s : ℤ × List ℤ) : Exec (ℤ × List ℤ) :=
  if 0 ≤ lay.slotOf s.1 ∧ lay.slotOf s.1 < lay.slots then do
    let it ← lay.iterNext s.1
    .ok (it, s.2 ++ [lay.slotOf s.1])
  else .error .outOfBounds

/-- The loop of `stencil_splt`: the targets it visits, in order. -/
def stencilWalk (rounds : ℕ) (lay : Layout) (imaps : List Imap) (p : ℕ) : Exec (List ℤ) :=
  match imaps with
  | [] => .error .outOfBounds
  | imap₀ :: imaps => do
    let (ap, bp) := stencilRange lay imap₀ imaps p
    let s ← loop .rounds (fun s => lay.slotOf s.1 != lay.beginAdd bp) (walkCell lay) rounds
      (lay.beginAdd ap, [])
    .ok s.2

variable {lay : Layout} {used splt : Contents} {ap bp o t : ℤ} {p rounds : ℕ} {imaps : List Imap}
variable {os : List ℤ} {visited : List ℤ}

/-- **What the splinter's loop writes is what the walk visits.** -/
theorem stencilSplt_walk (h : stencilSplt lay imaps p used = .ok splt) :
    ∃ visited, stencilWalk lay.slots lay imaps p = .ok visited ∧
      ∀ t ∉ visited, splt t = used t := by
  cases imaps with
  | nil => cases h
  | cons imap₀ imaps =>
    simp only [stencilSplt] at h
    obtain ⟨s, hs, h⟩ := Exec.bind_eq_ok.1 h
    cases h
    have hsim : ∃ w, loop .rounds
        (fun w => lay.slotOf w.1 != lay.beginAdd (stencilRange lay imap₀ imaps p).2)
        (walkCell lay) lay.slots (lay.beginAdd (stencilRange lay imap₀ imaps p).1, []) = .ok w ∧
          w.1 = s.it ∧ ∀ t ∉ w.2, s.data t = used t := by
      refine loop_simulates (R := fun (s : Sweep) (w : ℤ × List ℤ) =>
        w.1 = s.it ∧ ∀ t ∉ w.2, s.data t = used t) ?_ ?_ ⟨rfl, fun _ _ => rfl⟩ hs
      · rintro s w ⟨h1, -⟩
        rw [h1]
      rintro s w s' ⟨h1, h2⟩ he
      simp only [sweepCell] at he
      obtain ⟨x, -, he⟩ := Exec.bind_eq_ok.1 he
      obtain ⟨y, -, he⟩ := Exec.bind_eq_ok.1 he
      obtain ⟨z, -, he⟩ := Exec.bind_eq_ok.1 he
      obtain ⟨d, hd, he⟩ := Exec.bind_eq_ok.1 he
      obtain ⟨it, hit, he⟩ := Exec.bind_eq_ok.1 he
      obtain ⟨trck, -, he⟩ := Exec.bind_eq_ok.1 he
      cases he
      have hin : 0 ≤ lay.slotOf s.it ∧ lay.slotOf s.it < lay.slots := by
        by_contra hout
        rw [slotAt, if_neg hout] at hd
        cases hd
      refine ⟨(it, w.2 ++ [lay.slotOf w.1]), ?_, rfl, fun t ht => ?_⟩
      · rw [walkCell, h1, if_pos hin, hit]
        rfl
      have hne : t ≠ lay.slotOf s.it := fun hts => ht (by rw [hts, h1]; simp)
      dsimp only
      rw [Function.update_of_ne hne]
      exact h2 t fun hmem => ht (List.mem_append_left _ hmem)
    obtain ⟨w, hw, -, hdata⟩ := hsim
    refine ⟨w.2, ?_, hdata⟩
    simp only [stencilWalk, hw, Exec.ok_bind]

/-! ## The range -/

/-- The first target of the block of `p` that the offset allows, and the
one after the last: what `safe_mapping` gives at the block's ends. -/
def firstTarget (lay : Layout) (p : ℕ) (o : ℤ) : ℤ := clamp lay.size (lay.a p + o) - o

def endTarget (lay : Layout) (p : ℕ) (o : ℤ) : ℤ := clamp lay.size (lay.b p + o) - o

omit [BpBits] in
/-- `ap` and `bp` are the greatest and the least of them. -/
theorem stencilRange_le (lay : Layout) (o : ℤ) (os : List ℤ) (p : ℕ) (t : ℤ) :
    ((stencilRange lay (offset o) (os.map offset) p).1 ≤ t ↔
      ∀ o' ∈ o :: os, firstTarget lay p o' ≤ t) ∧
    (t ≤ (stencilRange lay (offset o) (os.map offset) p).2 ↔
      ∀ o' ∈ o :: os, t ≤ endTarget lay p o') := by
  have hfst : ∀ o', (safeMapping (offset o') (lay.a p) 0 lay.size).2 = firstTarget lay p o' :=
    fun o' => by rw [safeMapping_offset, firstTarget]
  have hsnd : ∀ o', (safeMapping (offset o') (lay.b p) 0 lay.size).2 = endTarget lay p o' :=
    fun o' => by rw [safeMapping_offset, endTarget]
  have hmax : (firstTarget lay p o :: os.map (firstTarget lay p)).max? =
      some (stencilRange lay (offset o) (os.map offset) p).1 := by
    simp only [stencilRange, List.map_map, Function.comp_def, hfst]
    rfl
  have hmin : (endTarget lay p o :: os.map (endTarget lay p)).min? =
      some (stencilRange lay (offset o) (os.map offset) p).2 := by
    simp only [stencilRange, List.map_map, Function.comp_def, hsnd]
    rfl
  rw [List.max?_le_iff hmax, List.le_min?_iff hmin, ← List.map_cons, ← List.map_cons]
  simp only [List.forall_mem_map, and_self]

omit [BpBits] in
/-- **The targets of the block with all their neighbours** are those of the
range. -/
theorem valid_iff (lay : Layout) (p : ℕ) (o : ℤ) (os : List ℤ) (t : ℤ) :
    (lay.InBlock p t ∧ ∀ o' ∈ o :: os, lay.InRange (t + o')) ↔
      (stencilRange lay (offset o) (os.map offset) p).1 ≤ t ∧
        t + 1 ≤ (stencilRange lay (offset o) (os.map offset) p).2 := by
  have h0 := lay.a_nonneg p
  have hsize := lay.b_le_size p
  rw [(stencilRange_le lay o os p t).1, (stencilRange_le lay o os p (t + 1)).2]
  simp only [firstTarget, endTarget, clamp, Layout.InBlock, Layout.InRange]
  constructor
  · rintro ⟨⟨h1, h2⟩, h3⟩
    refine ⟨fun o' ho => ?_, fun o' ho => ?_⟩
    · have := h3 o' ho
      omega
    · have := h3 o' ho
      omega
  · rintro ⟨h1, h2⟩
    refine ⟨?_, fun o' ho => ?_⟩
    · have := h1 o List.mem_cons_self
      have := h2 o List.mem_cons_self
      omega
    · have := h1 o' ho
      have := h2 o' ho
      omega

/-! ## The walk -/

/-- What the walk keeps, from `ap` on. -/
structure Walked (ap bp : ℤ) (s : ℤ × List ℤ) : Prop where
  le_it : ap ≤ s.1
  it_le : s.1 ≤ bp
  sorted : s.2.Pairwise (· < ·)
  mem_iff : ∀ t, t ∈ s.2 ↔ ap ≤ t ∧ t < s.1

/-- **The walk over a range of the vector** visits it. -/
theorem walk_spec (hab : ap ≤ bp) (h0 : 0 ≤ ap) (hb : bp ≤ lay.size) (hrounds : lay.size ≤ rounds) :
    ∃ s, loop .rounds (fun s => lay.slotOf s.1 != bp) (walkCell lay) rounds (ap, []) = .ok s ∧
      s.2.Pairwise (· < ·) ∧ ∀ t, t ∈ s.2 ↔ ap ≤ t ∧ t < bp := by
  have hslot : ∀ s : ℤ × List ℤ, Walked ap bp s → lay.slotOf s.1 = s.1 := fun s hs =>
    Layout.slotOf_of_le (hs.it_le.trans hb)
  have hbody : ∀ s : ℤ × List ℤ, Walked ap bp s → (lay.slotOf s.1 != bp) = true →
      ∃ t, walkCell lay s = .ok t ∧ Walked ap bp t ∧ (bp - t.1).toNat < (bp - s.1).toNat := by
    intro s hs hgo
    have hsame := hslot s hs
    obtain ⟨h1, h2, h3, h4⟩ := hs
    rw [hsame] at hgo
    have hne : s.1 ≠ bp := by simpa using hgo
    have hsize := lay.size_le_slots
    refine ⟨(s.1 + 1, s.2 ++ [s.1]), ?_,
      ⟨by dsimp only; omega, by dsimp only; omega, ?_, fun t => ?_⟩, by dsimp only; omega⟩
    · rw [walkCell, hsame, if_pos ⟨by omega, by omega⟩, Layout.iterNext_of_le (by omega)]
      rfl
    · refine List.pairwise_append.2 ⟨h3, List.pairwise_singleton _ _, fun x hx y hy => ?_⟩
      rw [List.mem_singleton.1 hy]
      exact ((h4 x).1 hx).2
    · rw [List.mem_append, List.mem_singleton, h4]
      dsimp only
      omega
  have hinit : Walked ap bp (ap, []) :=
    ⟨le_rfl, hab, .nil, fun t => ⟨fun h => (nomatch h), fun h => absurd h.1 (not_le.2 h.2)⟩⟩
  obtain ⟨s, hs, hI, hend⟩ := loop_total (fun s : ℤ × List ℤ => (bp - s.1).toNat) hbody hinit
    (show (bp - ap).toNat ≤ rounds by omega)
  rw [hslot s hI] at hend
  have hit : s.1 = bp := by simpa using hend
  exact ⟨s, hs, hI.sorted, by rw [← hit]; exact hI.mem_iff⟩

/-- A walk that starts visits where it starts. -/
theorem walk_start_mem {s : ℤ × List ℤ} (hslot : lay.slotOf ap = ap) (hne : ap ≠ bp)
    (h : loop .rounds (fun s => lay.slotOf s.1 != bp) (walkCell lay) rounds (ap, []) = .ok s) :
    ap ∈ s.2 := by
  have hbody : ∀ s t : ℤ × List ℤ, (s = (ap, []) ∨ ap ∈ s.2) → (lay.slotOf s.1 != bp) = true →
      walkCell lay s = .ok t → t = (ap, []) ∨ ap ∈ t.2 := by
    intro s t hI _ he
    rw [walkCell] at he
    split at he
    · obtain ⟨it, -, he⟩ := Exec.bind_eq_ok.1 he
      cases he
      rcases hI with rfl | hmem
      · exact .inr (by simp [hslot])
      · exact .inr (List.mem_append_left _ hmem)
    · exact nomatch he
  obtain ⟨hI, hend⟩ := loop_invariant hbody (.inl rfl) h
  refine hI.resolve_left fun hs => hne ?_
  rw [hs, hslot] at hend
  simpa using hend

/-! ## When it is exact -/

/-- The range is one: no offset lets the block start after another has it
end, or both iterators are the end of the vector. They are that where all
ends lie there or past it, and neither `begin() + ap` nor `begin() + bp`
goes on in the first leaf: a start lies behind that leaf, and so do the ends,
or one of them is the end of the vector itself. -/
def RangeInOrder (lay : Layout) (os : List ℤ) (p : ℕ) : Prop :=
  (∀ o ∈ os, ∀ o' ∈ os, firstTarget lay p o ≤ endTarget lay p o') ∨
    (∀ o ∈ os, lay.size ≤ endTarget lay p o) ∧ (∃ o ∈ os, bpWidth ≤ firstTarget lay p o) ∧
      ((∃ o ∈ os, endTarget lay p o ≤ lay.size) ∨ ∀ o ∈ os, bpWidth ≤ endTarget lay p o)

instance (lay : Layout) (os : List ℤ) (p : ℕ) : Decidable (RangeInOrder lay os p) :=
  inferInstanceAs (Decidable (_ ∨ _ ∧ _ ∧ (_ ∨ _)))

/-- Then the loop has targets, or does not start. -/
theorem rangeInOrder_iff (lay : Layout) (o : ℤ) (os : List ℤ) (p : ℕ) :
    RangeInOrder lay (o :: os) p ↔
      (stencilRange lay (offset o) (os.map offset) p).1 <
          (stencilRange lay (offset o) (os.map offset) p).2 ∨
        lay.beginAdd (stencilRange lay (offset o) (os.map offset) p).1 =
          lay.beginAdd (stencilRange lay (offset o) (os.map offset) p).2 := by
  have hle := stencilRange_le lay o os p
  have hfirst : (∃ o' ∈ o :: os, bpWidth ≤ firstTarget lay p o') ↔
      (bpWidth : ℤ) ≤ (stencilRange lay (offset o) (os.map offset) p).1 := by
    have hneg := not_congr (hle (bpWidth - 1)).1
    simp only [not_forall, not_le, Int.sub_one_lt_iff, exists_prop] at hneg
    exact hneg.symm
  have hend : (∃ o' ∈ o :: os, endTarget lay p o' ≤ lay.size) ↔
      (stencilRange lay (offset o) (os.map offset) p).2 ≤ lay.size := by
    have hneg := not_congr (hle (lay.size + 1)).2
    simp only [not_forall, not_le, Int.lt_add_one_iff, exists_prop] at hneg
    exact hneg.symm
  have hord : (∀ o' ∈ o :: os, ∀ o'' ∈ o :: os, firstTarget lay p o' ≤ endTarget lay p o'') ↔
      (stencilRange lay (offset o) (os.map offset) p).1 ≤
        (stencilRange lay (offset o) (os.map offset) p).2 := by
    rw [(hle _).1]
    exact forall₂_congr fun o' _ => (hle _).2.symm
  rw [RangeInOrder, hord, hfirst, hend, ← (hle lay.size).2, ← (hle bpWidth).2,
    Layout.beginAdd_eq, Layout.beginAdd_eq]
  generalize stencilRange lay (offset o) (os.map offset) p = range
  have hW := bpWidth_pos
  split <;> split <;> omega

/-- **When a worker's stencil window is exact.** For any list of offsets,
the loop ends and visits in increasing order just the targets of the block
all of whose neighbours exist, if and only if its range is in order. -/
theorem window_exact_iff (hos : os ≠ []) (hrounds : lay.size ≤ rounds) :
    (∃ visited, stencilWalk rounds lay (os.map offset) p = .ok visited ∧
      visited.Pairwise (· < ·) ∧
      ∀ t, t ∈ visited ↔ lay.InBlock p t ∧ ∀ o ∈ os, lay.InRange (t + o)) ↔
      RangeInOrder lay os p := by
  obtain ⟨o, os, rfl⟩ := List.exists_cons_of_ne_nil hos
  have hvalid := valid_iff lay p o os
  rw [rangeInOrder_iff, List.map_cons, stencilWalk]
  dsimp only
  generalize hrange : stencilRange lay (offset o) (os.map offset) p = range at hvalid ⊢
  obtain ⟨ap, bp⟩ := range
  dsimp only at hvalid ⊢
  constructor
  · rintro ⟨visited, he, -, hexact⟩
    by_contra hno
    obtain ⟨hlt, hne⟩ := not_or.1 hno
    obtain ⟨s, hs, he⟩ := Exec.bind_eq_ok.1 he
    cases he
    -- the first slot it visits is no target
    have := (hvalid _).1 ((hexact _).1 (walk_start_mem (lay.slotOf_beginAdd ap) hne hs))
    omega
  · intro h
    by_cases hlt : ap < bp
    · -- there are targets, and they are all in the vector
      have hfirst := ((hvalid ap).2 ⟨le_rfl, hlt⟩).1.inRange
      have hlast := ((hvalid (bp - 1)).2 ⟨by omega, by omega⟩).1.inRange
      have hbp : bp ≤ lay.size := by
        have := hlast.2
        omega
      have hA : lay.beginAdd ap = ap := Layout.beginAdd_of_le (le_of_lt hfirst.2)
      have hB : lay.beginAdd bp = bp := Layout.beginAdd_of_le hbp
      obtain ⟨s, hs, hsorted, hmem⟩ := walk_spec (le_of_lt hlt) hfirst.1 hbp hrounds
      refine ⟨s.2, by rw [hA, hB, hs]; rfl, hsorted, fun t => ?_⟩
      rw [hmem, hvalid]
      exact Iff.rfl
    · refine ⟨[], ?_, .nil, fun t => ⟨fun h => absurd h List.not_mem_nil, fun h => ?_⟩⟩
      · rw [h.resolve_left hlt, loop_of_not (by simp [Layout.slotOf_beginAdd])]
        rfl
      · have := (hvalid t).1 h
        omega

omit [BpBits] in
/-- Three workers over ten elements, of which the second has four. -/
theorem window_exact_iff_ten :
    letI := oneBit
    let lay : Layout := ⟨3, 10, by decide, by decide⟩
    (∃ visited, stencilWalk 10 lay ([-1, 2].map offset) 1 = .ok visited ∧
      visited.Pairwise (· < ·) ∧
      ∀ t, t ∈ visited ↔ lay.InBlock 1 t ∧ ∀ o ∈ [-1, 2], lay.InRange (t + o)) ↔
      RangeInOrder lay [-1, 2] 1 :=
  letI := oneBit
  window_exact_iff (by decide) (by decide)

omit [BpBits] in
/-- **A loop that misses its end.** Two workers over ten elements in leaves
of two, and the offsets `-7` and `0`: no element of the first block has a
neighbour seven before it, and the loop from `7` to `5` goes over three
elements of the second block and then out of the vector. -/
theorem window_overrun :
    letI := oneBit
    let lay : Layout := ⟨2, 10, by decide, by decide⟩
    stencilRange lay (offset (-7)) [offset 0] 0 = (7, 5) ∧ (∀ t ∈ [7, 8, 9], lay.InBlock 1 t) ∧
      stencilWalk 10 lay ([-7, 0].map offset) 0 = .error .outOfBounds ∧
      ¬ ∃ visited, stencilWalk 10 lay ([-7, 0].map offset) 0 = .ok visited ∧
        visited.Pairwise (· < ·) ∧
        ∀ t, t ∈ visited ↔ lay.InBlock 0 t ∧ ∀ o ∈ [-7, 0], lay.InRange (t + o) := by
  let _ := oneBit
  have hstop : stencilWalk 10 ⟨2, 10, by decide, by decide⟩ ([-7, 0].map offset) 0 =
      .error .outOfBounds := by decide
  refine ⟨by decide, by decide, hstop, ?_⟩
  rintro ⟨visited, he, -⟩
  rw [hstop] at he
  exact nomatch he

omit [BpBits] in
/-- One worker over three elements in a leaf of eight, and the offsets `-7`
and `-5`: the loop goes from slot 7 round to slot 5, and over all three
elements. In leaves of four both iterators are the end. -/
example :
    let lay : Layout := ⟨1, 3, by decide, by decide⟩
    @stencilWalk ⟨3, by decide, by decide⟩ 8 lay ([-7, -5].map offset) 0 = .ok [7, 0, 1, 2, 3, 4] ∧
      @stencilWalk ⟨2, by decide, by decide⟩ 8 lay ([-7, -5].map offset) 0 = .ok [] := by
  decide

/-! ## What it computes -/

/-- For a target all of whose neighbours exist, what the kernel reads two
past the first neighbour exists as well. -/
def ReadsInside (lay : Layout) (o : ℤ) (os : List ℤ) (p : ℕ) : Prop :=
  ∀ t, lay.InBlock p t → (∀ o' ∈ o :: os, lay.InRange (t + o')) → lay.InRange (t + o + 2)

/-- **Then the kernel is applied** to these targets, and the others are
left. -/
theorem stencilSplt_ok (used : Contents) (hord : RangeInOrder lay (o :: os) p)
    (hreads : ReadsInside lay o os p) :
    ∃ splt, stencilSplt lay (offset o :: os.map offset) p used = .ok splt ∧
      ∀ t, lay.InBlock p t →
        splt t = if ∀ o' ∈ o :: os, lay.InRange (t + o') then kernelCell used o t else used t := by
  have hvalid := valid_iff lay p o os
  have hos : lay.a p - offset o (lay.a p) = o := sub_sub_cancel _ _
  rw [rangeInOrder_iff] at hord
  rw [stencilSplt, hos]
  dsimp only
  generalize hrange : stencilRange lay (offset o) (os.map offset) p = range at hvalid hord ⊢
  obtain ⟨ap, bp⟩ := range
  dsimp only at hvalid hord ⊢
  by_cases hlt : ap < bp
  · obtain ⟨hfirst, hnear⟩ := (hvalid ap).2 ⟨le_rfl, hlt⟩
    obtain ⟨hlast, hfar⟩ := (hvalid (bp - 1)).2 ⟨by omega, by omega⟩
    have h1 := hfirst.inRange
    have h2 := hlast.inRange.2
    have h3 := hnear o List.mem_cons_self
    have h4 := (hreads (bp - 1) hlast hfar).2
    have hb : Sweepable lay o ap bp := ⟨h1.1, h3.1, by omega, by omega⟩
    have hA : lay.beginAdd ap = ap := Layout.beginAdd_of_le (le_of_lt h1.2)
    have hB : lay.beginAdd bp = bp := Layout.beginAdd_of_le hb.le_size
    have hT : lay.beginAdd (ap + o) = ap + o := Layout.beginAdd_of_le (le_of_lt h3.2)
    obtain ⟨s, hs, hdata⟩ := sweep_spec used (le_of_lt hlt) hb
    refine ⟨s.data, by rw [hA, hB, hT, hs]; rfl, fun t ht => ?_⟩
    rw [hdata]
    refine if_congr ?_ rfl rfl
    rw [← Int.add_one_le_iff, ← hvalid t]
    exact ⟨fun h => h.2, fun h => ⟨ht, h⟩⟩
  · refine ⟨used, ?_, fun t ht => (if_neg fun h => ?_).symm⟩
    · rw [hord.resolve_left hlt, loop_of_not (by simp [Layout.slotOf_beginAdd])]
      rfl
    · have := (hvalid t).1 ⟨ht, h⟩
      omega

end Contentious.Cont
