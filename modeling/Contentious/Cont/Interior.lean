import Contentious.Cont.Resolve

/-!
# Cont — what a resolution makes right

A stencil adds to an element some of those around it, each times its
coefficient. The workers compute that from their snapshots, which are the
final vector only inside their own blocks, and there not at the indices
in `contended`. The resolution scans the windows of each offset and then
`contended`, and so meets every index a worker may have read wrong, once
for each offset: what it makes of the dependent is the stencil of the
final vector, wherever all the elements it takes are there.
-/

namespace Contentious.Cont

variable {lay : Layout} {taps : List (ℤ × ℚ)} {src d : Contents} {used : ℕ → Contents}
variable {contended s : SortedSet ℤ} {o c t : ℤ}

/-- **What a stencil is to compute** at `t` of the elements `x`: offsets
with their coefficients are its taps. -/
def tapSum (taps : List (ℤ × ℚ)) (x : Contents) (t : ℤ) : ℚ :=
  x t + (taps.map fun e => e.2 * x (t + e.1)).sum

/-- All that it takes is there. -/
def Interior (lay : Layout) (taps : List (ℤ × ℚ)) (t : ℤ) : Prop :=
  ∀ e ∈ taps, lay.InRange (t + e.1)

/-- Where a snapshot is off in its worker's own block, the index is
contended. -/
def Recorded (lay : Layout) (src : Contents) (contended : SortedSet ℤ) (used : ℕ → Contents) :
    Prop :=
  ∀ p < lay.hwconc, ∀ c, lay.InRange c → used p c ≠ src c → c ∈ contended ∨ ¬ lay.InBlock p c

/-- Each worker has computed the interior of its block from its snapshot. -/
def Computed (lay : Layout) (taps : List (ℤ × ℚ)) (used : ℕ → Contents) (d : Contents) : Prop :=
  ∀ p < lay.hwconc, ∀ t, lay.InBlock p t → Interior lay taps t → d t = tapSum taps (used p) t

/-- No index that is scanned has the end of the vector as its target. -/
def NoneAtEnd (lay : Layout) (taps : List (ℤ × ℚ)) (contended : SortedSet ℤ) : Prop :=
  ∀ e ∈ taps, ∀ c, c ∈ windows lay (offset e.1) ∨ c ∈ contended → c - e.1 ≠ lay.size

/-- **Windows lie within the vector**, but for indices whose targets are
skipped: an offset of any length leads from outside of it to outside. -/
theorem scannable_of_mem_windows (hc : c ∈ windows lay (offset o)) (hend : c - o ≠ lay.size) :
    Scannable lay o c := by
  obtain ⟨p, hp, hc⟩ := mem_windows.1 hc
  intro h0 h1
  simp only [clamp] at hc
  refine ⟨⟨?_, ?_⟩, ?_⟩ <;> omega

/-- So does what is contended. -/
theorem scannable_of_inRange (hc : lay.InRange c) (hend : c - o ≠ lay.size) : Scannable lay o c :=
  fun _ h1 => ⟨hc, lt_of_le_of_ne h1 hend⟩

/-- **Each offset resolves right.** -/
theorem entry_of_recorded (hin : ∀ c ∈ contended, lay.InRange c)
    (hrec : Recorded lay src contended used)
    {op : Op ℚ} {r : ℚ} (hop : op.Adds r)
    (hend : ∀ c, c ∈ windows lay (offset o) ∨ c ∈ contended → c - o ≠ lay.size) :
    Entry lay src contended used ⟨offset o, op⟩ o r := by
  refine ⟨rfl, hop, fun c hc => ?_, fun t ht hto hne => ?_⟩
  · rcases hc with hw | hm
    · exact scannable_of_mem_windows hw (hend c (.inl hw))
    · exact scannable_of_inRange (hin c hm) (hend c (.inr hm))
  · obtain ⟨q, hq, hb⟩ := Layout.exists_block ht
    by_cases hblk : lay.InBlock q (t + o)
    · have hdiff : used q (t + o) ≠ src (t + o) := by
        intro heq
        rw [stale, Layout.owner_eq hq hb, heq, sub_self] at hne
        exact hne rfl
      exact .inr ((hrec q hq _ hto hdiff).resolve_right fun hout => hout hblk)
    · exact .inl (mem_windows_of_outside hq hb hto hblk)

/-- The entries of a stencil's dependency. -/
theorem entries_of_recorded (hin : ∀ c ∈ contended, lay.InRange c)
    (hrec : Recorded lay src contended used) (hend : NoneAtEnd lay taps contended) :
    List.Forall₂ (fun dep e => Entry lay src contended used dep e.1 e.2)
      (stencilDeps (taps.map Prod.fst) (taps.map Prod.snd)) ((0, 1) :: taps) := by
  rw [stencilDeps, identity_eq_offset]
  refine .cons (entry_of_recorded hin hrec plus_adds fun c hc => ?_) ?_
  · -- the identity leads where it comes from
    rcases hc with hw | hm
    · obtain ⟨p, -, hw⟩ := mem_windows.1 hw
      omega
    · have := (hin c hm).2
      omega
  · have hzip : List.zipWith (fun o c => (⟨offset o, fullop c⟩ : Dep)) (taps.map Prod.fst)
        (taps.map Prod.snd) = taps.map fun e => ⟨offset e.1, fullop e.2⟩ := by
      rw [List.zipWith_map, List.zipWith_self]
    rw [hzip, List.forall₂_map_left_iff, List.forall₂_same]
    exact fun e he => entry_of_recorded hin hrec (fullop_adds e.2) (hend e he)

/-- What is off in the interior, summed up, is what the stencil of the
snapshot is off by. -/
theorem tapSum_add_stale {q : ℕ} (hq : q < lay.hwconc) (ht : lay.InBlock q t)
    (hint : Interior lay taps t) :
    tapSum taps (used q) t + (((0, 1) :: taps).map fun e => e.2 * staleIn lay src used e.1 t).sum =
      tapSum taps src t := by
  have hstale : ∀ o, lay.InRange (t + o) →
      staleIn lay src used o t = src (t + o) - used q (t + o) := by
    intro o ho
    rw [staleIn, if_pos ho, stale, Layout.owner_eq hq ht]
  have hzero : staleIn lay src used 0 t = src t - used q t := by
    rw [hstale 0 (by rw [add_zero]; exact ht.inRange), add_zero]
  have hsum : ∀ l : List (ℤ × ℚ), (∀ e ∈ l, lay.InRange (t + e.1)) →
      (l.map fun e => e.2 * used q (t + e.1)).sum +
      (l.map fun e => e.2 * staleIn lay src used e.1 t).sum =
        (l.map fun e => e.2 * src (t + e.1)).sum := by
    intro l hl
    induction l with
    | nil => exact add_zero 0
    | cons e l ih =>
      have ih := ih fun e' he' => hl e' (List.mem_cons_of_mem e he')
      simp only [List.map_cons, List.sum_cons, hstale e.1 (hl e List.mem_cons_self)]
      linarith
  have := hsum taps hint
  simp only [tapSum, List.map_cons, List.sum_cons, hzero, one_mul]
  linarith

/-- **A resolution makes the interior right.** Whatever the snapshots
were, if they are off in their workers' blocks at contended indices only
and each worker has computed the interior of its block from its own, then
after it the interior is the stencil of the final vector, and every index
whose element has changed is recorded. -/
theorem resolve_interior (hin : ∀ c ∈ contended, lay.InRange c)
    (hrec : Recorded lay src contended used) (hd : Computed lay taps used d)
    (hend : NoneAtEnd lay taps contended) :
    ∃ d' s', resolveMonotonic lay (stencilDeps (taps.map Prod.fst) (taps.map Prod.snd))
      src contended
        used (d, s) = .ok (d', s') ∧
      (∀ t, lay.InRange t → Interior lay taps t → d' t = tapSum taps src t) ∧
      ∀ t, lay.InRange t → d' t ≠ d t → t ∈ s' := by
  obtain ⟨d', s', hres, hr⟩ := resolveMonotonic_spec (entries_of_recorded hin hrec hend) d s
  refine ⟨d', s', hres, fun t ht hint => ?_, hr.recorded⟩
  obtain ⟨q, hq, hb⟩ := Layout.exists_block ht
  rw [hr.data t ht, hd q hq t hb hint]
  exact tapSum_add_stale hq hb hint

/-- Two workers and four elements, of which worker 0 has not seen the
third. -/
theorem resolve_interior_four :
    let lay : Layout := ⟨2, 4, by decide, by decide⟩
    let src : Contents := fun c => if c = 2 then 1 else 0
    let used : ℕ → Contents := fun p => if p = 0 then fun _ => 0 else src
    let d : Contents := fun t => if t < 2 then 0 else tapSum [(-1, 1 / 2), (1, 1 / 2)] src t
    ∃ d' s', resolveMonotonic lay (stencilDeps [-1, 1] [1 / 2, 1 / 2]) src .empty used (d, .empty) =
        .ok (d', s') ∧
      (∀ t, lay.InRange t → Interior lay [(-1, 1 / 2), (1, 1 / 2)] t →
        d' t = tapSum [(-1, 1 / 2), (1, 1 / 2)] src t) ∧
      ∀ t, lay.InRange t → d' t ≠ d t → t ∈ s' := by
  intro lay src used d
  have hends : lay.b 0 = 2 ∧ lay.a 1 = 2 := by decide
  have hp : ∀ p < lay.hwconc, p = 0 ∨ p = 1 := fun p hp => by
    have hp' : p < 2 := hp
    omega
  refine @resolve_interior lay [(-1, 1 / 2), (1, 1 / 2)] src d used .empty .empty
    (fun c hc => absurd hc SortedSet.not_mem_empty) ?_ ?_ ?_
  · intro p hlt c _ hne
    refine .inr fun hb => ?_
    rcases hp p hlt with rfl | rfl
    · have hc : c ≠ 2 := by have := hb.2; omega
      exact hne (if_neg hc).symm
    · exact hne rfl
  · intro p hlt t hb _
    rcases hp p hlt with rfl | rfl
    · have ht : t < 2 := by have := hb.2; omega
      simp only [d, if_pos ht]
      simp [used, tapSum]
    · have ht : ¬ t < 2 := by have := hb.1; omega
      simp only [d, if_neg ht]
      rfl
  · have hdec : ∀ e ∈ [((-1 : ℤ), (1 / 2 : ℚ)), (1, 1 / 2)], ∀ c ∈ (windows lay (offset e.1)).elems,
        c - e.1 ≠ 4 := by decide +kernel
    intro e he c hc
    exact hdec e he c (hc.resolve_right SortedSet.not_mem_empty)

end Contentious.Cont
