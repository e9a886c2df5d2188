import Contentious.Cont.Heat
import Contentious.Cont.Inside
import Contentious.Cont.Storage

/-!
# Cont — the pipeline is the sequential loop

The invariant of every interleaving (`Staged`): a vector that is not yet
resolved holds, in each block that has been written, one step of what its
worker read; and a worker read its own block as it is, but for the
indices in `contended`. So what a resolution has to repair is what it
looks at, and after it the vector is one step of the one before
(`Staged.resolve`).

The ends of the vector are the exception. No worker computes them, and a
resolution repairs them all the same: it adds to an end by how much the
snapshot was off at its neighbour. And where the two ends are one, its
windows lead past the end. So the pipeline is the sequential loop exactly in
the runs in which it is of two elements at least and nothing was off there
(`heat_iff`), given that what the vectors are stored in copies the blocks.
-/

namespace Contentious.Cont

variable [BpBits] {st : Storage}
variable {lay : Layout} {x x₀ y : Contents} {s s' : Chain} {p q k : ℕ} {t c : ℤ}

/-! ## One step, sequentially -/

omit [BpBits] in
theorem heatStep_congr (h : ∀ t, lay.InRange t → x t = y t) (ht : lay.InRange t) :
    heatStep lay x t = heatStep lay y t := by
  obtain ⟨h1, h2⟩ := ht
  simp only [heatStep, heatCell]
  split
  · rw [h t ⟨h1, h2⟩, h (t - 1) ⟨by omega, by omega⟩, h (t + 1) ⟨by omega, by omega⟩]
  · exact h t ⟨h1, h2⟩

omit [BpBits] in
theorem heat_succ (lay : Layout) (x₀ : Contents) (k : ℕ) :
    heat lay x₀ (k + 1) = heatStep lay (heat lay x₀ k) := Function.iterate_succ_apply' ..

/-- The two have the same ends. -/
def AtEnds (lay : Layout) (x y : Contents) : Prop := x 0 = y 0 ∧ x (lay.size - 1) = y (lay.size - 1)

omit [BpBits] in
theorem atEnds_heatStep (lay : Layout) (x : Contents) : AtEnds lay (heatStep lay x) x :=
  ⟨if_neg (by omega), if_neg (by omega)⟩

omit [BpBits] in
theorem AtEnds.trans {z : Contents} (h₁ : AtEnds lay x y) (h₂ : AtEnds lay y z) : AtEnds lay x z :=
  ⟨h₁.1.trans h₂.1, h₁.2.trans h₂.2⟩

omit [BpBits] in
theorem atEnds_heat (lay : Layout) (x₀ : Contents) (k : ℕ) : AtEnds lay (heat lay x₀ k) x₀ := by
  induction k with
  | zero => exact ⟨rfl, rfl⟩
  | succ k ih =>
    rw [heat_succ]
    exact (atEnds_heatStep lay _).trans ih

/-- What the snapshots were off by `o` away from `t`, in the resolution
that is due. -/
def Chain.off (lay : Layout) (s : Chain) (o t : ℤ) : ℚ :=
  staleIn lay (s.data s.resolved) (s.used s.resolved) o t

/-! ## The invariant -/

/-- Worker `p` has detached from the `k`-th vector. -/
def Chain.HasRead (s : Chain) (p k : ℕ) : Prop :=
  k < s.done p ∨ k = s.done p ∧ s.detached p = true

/-- **What a reattach writes**: its block of the next vector, one step from
the snapshot. -/
structure Chain.Wrote (lay : Layout) (s : Chain) (p : ℕ) (s' : Chain) : Prop where
  stopped : s'.stopped = s.stopped
  created : s'.created = s.created
  contended : s'.contended = s.contended
  used : s'.used = s.used
  resolved : s'.resolved = s.resolved
  done : ∀ q, s'.done q = if q = p then s.done p + 1 else s.done q
  detached : ∀ q, s'.detached q = if q = p then false else s.detached q
  inside : ∀ t, lay.InBlock p t →
    s'.data (s.done p + 1) t = heatStep lay (s.used (s.done p) p) t
  outside : ∀ k t, ¬ (k = s.done p + 1 ∧ lay.InBlock p t) → s'.data k t = s.data k t

theorem Chain.wrote_reattach (hst : st.Copies lay) (s : Chain) (hp : p < lay.hwconc) :
    s.Wrote lay p (s.reattach st lay p) := by
  obtain ⟨splt, hsplt, hblock⟩ := stencilSplt_heat (s.used (s.done p) p) hp
  have hre : s.reattach st lay p = { s with
      data := Function.update s.data (s.done p + 1)
        (assignRange (s.data (s.done p + 1)) splt (lay.a p) (lay.b p))
      detached := Function.update s.detached p false
      done := Function.update s.done p (s.done p + 1) } := by
    have hmaps : heatDeps.tail.map Dep.imap = heatMaps := rfl
    simp only [Chain.reattach, Chain.attached, hmaps, hsplt, Exec.ok_bind, hst _ _ p hp]
  rw [hre]
  refine ⟨rfl, rfl, rfl, rfl, rfl, fun q => Function.update_apply ..,
    fun q => Function.update_apply .., fun t ht => ?_, fun k t hne => ?_⟩
  · dsimp only
    rw [Function.update_self, assignRange_block ht]
    exact hblock t ht
  · dsimp only
    by_cases hk : k = s.done p + 1
    · rw [hk, Function.update_self, assignRange_other fun ht => hne ⟨hk, ht⟩]
    · rw [Function.update_of_ne hk]

omit [BpBits] in
/-- Who has read a vector had read it before, and it was not the one
written. -/
theorem Chain.Wrote.hasRead (w : s.Wrote lay p s') (hd : s.detached p = true)
    (hr : s'.HasRead q k) : s.HasRead q k ∧ ¬ (q = p ∧ k = s.done p + 1) := by
  rw [Chain.HasRead, w.done, w.detached] at hr
  by_cases hqp : q = p
  · subst hqp
    rw [if_pos rfl, if_pos rfl] at hr
    have hk : k < s.done q + 1 := hr.resolve_right fun h => nomatch h.2
    refine ⟨?_, fun h => by omega⟩
    rcases Nat.lt_or_ge k (s.done q) with h | h
    · exact .inl h
    · exact .inr ⟨by omega, hd⟩
  · rw [if_neg hqp, if_neg hqp] at hr
    exact ⟨hr, fun h => hqp h.1⟩

/-- **What holds at every stage**, of a pipeline whose end cells were
never touched. -/
structure Staged (lay : Layout) (x₀ : Contents) (s : Chain) : Prop where
  stopped : s.stopped = none
  done_le : ∀ p < lay.hwconc, s.done p ≤ s.created
  holding : ∀ p < lay.hwconc, s.detached p = true → s.done p < s.created
  resolved_le : ∀ p < lay.hwconc, s.resolved ≤ s.done p
  settled : ∀ k ≤ s.resolved, ∀ t, lay.InRange t → s.data k t = heat lay x₀ k t
  inner : ∀ k, ∀ c ∈ s.contended k, 1 ≤ c ∧ c ≤ (lay.size : ℤ) - 2
  fresh : ∀ k > s.resolved, s.contended k = .empty
  ends_data : ∀ k ≤ s.created, AtEnds lay (s.data k) x₀
  ends_used : ∀ p < lay.hwconc, ∀ k, s.HasRead p k → AtEnds lay (s.used k p) x₀
  used : ∀ p < lay.hwconc, ∀ k, s.HasRead p k → ∀ c, lay.InBlock p c →
    s.used k p c ≠ s.data k c → c ∈ s.contended k
  written : ∀ p < lay.hwconc, ∀ k ≥ s.resolved, k < s.done p → ∀ t, lay.InBlock p t →
    s.data (k + 1) t = heatStep lay (s.used k p) t

namespace Staged

omit [BpBits] in
theorem start (lay : Layout) (x₀ : Contents) : Staged lay x₀ (.start x₀) where
  stopped := rfl
  done_le _ _ := le_rfl
  holding _ _ h := nomatch h
  resolved_le _ _ := le_rfl
  settled k hk t _ := by rw [Nat.le_zero.1 hk]; rfl
  inner _ c hc := absurd hc SortedSet.not_mem_empty
  fresh _ _ := rfl
  ends_data _ _ := ⟨rfl, rfl⟩
  ends_used _ _ _ _ := ⟨rfl, rfl⟩
  used _ _ _ _ _ _ hne := absurd rfl hne
  written _ _ k _ hk := absurd hk (Nat.not_lt_zero k)

omit [BpBits] in
theorem read_le (hs : Staged lay x₀ s) (hp : p < lay.hwconc) (hr : s.HasRead p k) :
    k ≤ s.created := by
  rcases hr with hr | ⟨rfl, hd⟩
  · exact le_of_lt (lt_of_lt_of_le hr (hs.done_le p hp))
  · exact le_of_lt (hs.holding p hp hd)

omit [BpBits] in
/-- A vector more. -/
theorem stencil (hs : Staged lay x₀ s) : Staged lay x₀ s.stencil := by
  have hres : s.resolved ≤ s.created :=
    le_trans (hs.resolved_le 0 lay.hwconc_pos) (hs.done_le 0 lay.hwconc_pos)
  have hdata : ∀ k, k ≠ s.created + 1 → s.stencil.data k = s.data k :=
    fun k hk => Function.update_of_ne hk _ _
  have hcont : ∀ k, k ≠ s.created + 1 → s.stencil.contended k = s.contended k :=
    fun k hk => Function.update_of_ne hk _ _
  have hnew : s.stencil.contended (s.created + 1) = .empty := Function.update_self ..
  refine ⟨hs.stopped, fun p hp => le_trans (hs.done_le p hp) (Nat.le_succ _),
    fun p hp hd => Nat.lt_succ_of_lt (hs.holding p hp hd), hs.resolved_le, ?_, ?_, ?_, ?_,
    hs.ends_used, ?_, ?_⟩
  · intro k hk t ht
    have hk' : k ≤ s.resolved := hk
    rw [hdata k (by omega)]
    exact hs.settled k hk t ht
  · intro k c hc
    by_cases hk : k = s.created + 1
    · rw [hk, hnew] at hc
      exact absurd hc SortedSet.not_mem_empty
    · rw [hcont k hk] at hc
      exact hs.inner k c hc
  · intro k hk
    by_cases hk' : k = s.created + 1
    · rw [hk', hnew]
    · rw [hcont k hk']
      exact hs.fresh k hk
  · intro k hk
    by_cases hk' : k = s.created + 1
    · have hlast : s.stencil.data k = s.data s.created := by rw [hk']; exact Function.update_self ..
      rw [hlast]
      exact hs.ends_data _ le_rfl
    · rw [hdata k hk']
      exact hs.ends_data k (Nat.le_of_lt_succ (lt_of_le_of_ne hk hk'))
  · intro p hp k hr c hc hne
    have hk := hs.read_le hp hr
    rw [hdata k (by omega)] at hne
    rw [hcont k (by omega)]
    exact hs.used p hp k hr c hc hne
  · intro p hp k hk hlt t ht
    have hle := lt_of_lt_of_le hlt (hs.done_le p hp)
    rw [hdata (k + 1) (by omega)]
    exact hs.written p hp k hk hlt t ht

omit [BpBits] in
/-- A worker takes its snapshot. -/
theorem detach (hs : Staged lay x₀ s) (hp : p < lay.hwconc) (hlt : s.done p < s.created) :
    Staged lay x₀ (s.detach p) := by
  -- only the snapshot is new
  have hused : ∀ q k, ¬ (q = p ∧ k = s.done p) → (s.detach p).used k q = s.used k q := by
    intro q k hne
    simp only [Chain.detach]
    by_cases hk : k = s.done p
    · subst hk
      rw [Function.update_self, Function.update_of_ne fun hq => hne ⟨hq, rfl⟩]
    · rw [Function.update_of_ne hk]
  have hnew : (s.detach p).used (s.done p) p = s.data (s.done p) := by
    simp only [Chain.detach, Function.update_self]
  have hread : ∀ q k, ¬ (q = p ∧ k = s.done p) → (s.detach p).HasRead q k → s.HasRead q k := by
    rintro q k hne (hr | ⟨hk, hd⟩)
    · exact .inl hr
    · have hqp : q ≠ p := by
        rintro rfl
        exact hne ⟨rfl, hk⟩
      have hsame : (s.detach p).detached q = s.detached q := Function.update_of_ne hqp _ _
      exact .inr ⟨hk, by rw [← hsame]; exact hd⟩
  refine ⟨hs.stopped, hs.done_le, ?_, hs.resolved_le, hs.settled, hs.inner, hs.fresh,
    hs.ends_data, ?_, ?_, ?_⟩
  · intro q hq hd
    by_cases hqp : q = p
    · rw [hqp]
      exact hlt
    · have hsame : (s.detach p).detached q = s.detached q := Function.update_of_ne hqp _ _
      exact hs.holding q hq (by rw [← hsame]; exact hd)
  · intro q hq k hr
    by_cases hne : q = p ∧ k = s.done p
    · obtain ⟨rfl, rfl⟩ := hne
      rw [hnew]
      exact hs.ends_data _ (le_of_lt hlt)
    · rw [hused q k hne]
      exact hs.ends_used q hq k (hread q k hne hr)
  · intro q hq k hr c hc hdiff
    by_cases hne : q = p ∧ k = s.done p
    · obtain ⟨rfl, rfl⟩ := hne
      exact absurd (congrFun hnew c) hdiff
    · rw [hused q k hne] at hdiff
      exact hs.used q hq k (hread q k hne hr) c hc hdiff
  · intro q hq k hk hlt t ht
    rw [hused q k fun h => by rw [h.1, h.2] at hlt; exact lt_irrefl _ hlt]
    exact hs.written q hq k hk hlt t ht

/-- A worker writes its block. -/
theorem reattach (hs : Staged lay x₀ s) (hst : st.Copies lay) (hp : p < lay.hwconc)
    (hd : s.detached p = true) : Staged lay x₀ (s.reattach st lay p) := by
  have w := s.wrote_reattach hst hp
  have hlt := hs.holding p hp hd
  have hres := hs.resolved_le p hp
  have hreadp : s.HasRead p (s.done p) := .inr ⟨rfl, hd⟩
  refine ⟨by rw [w.stopped]; exact hs.stopped, ?_, ?_, ?_, ?_, ?_, ?_, ?_, ?_, ?_, ?_⟩
  · intro q hq
    rw [w.done, w.created]
    split
    · exact hlt
    · exact hs.done_le q hq
  · intro q hq hdq
    rw [w.detached] at hdq
    rw [w.done, w.created]
    by_cases hqp : q = p
    · rw [if_pos hqp] at hdq
      exact nomatch hdq
    · rw [if_neg hqp] at hdq ⊢
      exact hs.holding q hq hdq
  · intro q hq
    rw [w.done, w.resolved]
    split
    · omega
    · exact hs.resolved_le q hq
  · intro k hk t ht
    rw [w.resolved] at hk
    rw [w.outside k t fun h => by omega]
    exact hs.settled k hk t ht
  · rw [w.contended]
    exact hs.inner
  · rw [w.contended, w.resolved]
    exact hs.fresh
  · intro k hk
    rw [w.created] at hk
    have hend : ∀ t, t = 0 ∨ t = (lay.size : ℤ) - 1 → s.data k t = x₀ t →
        s.used (s.done p) p t = x₀ t → (s.reattach st lay p).data k t = x₀ t := by
      intro t ht hdata hu
      by_cases hblk : k = s.done p + 1 ∧ lay.InBlock p t
      · rw [hblk.1, w.inside t hblk.2, heatStep, if_neg (by omega)]
        exact hu
      · rw [w.outside k t hblk]
        exact hdata
    obtain ⟨h0, h1⟩ := hs.ends_data k hk
    obtain ⟨u0, u1⟩ := hs.ends_used p hp _ hreadp
    exact ⟨hend 0 (.inl rfl) h0 u0, hend _ (.inr rfl) h1 u1⟩
  · intro q hq k hr
    rw [w.used]
    exact hs.ends_used q hq k (w.hasRead hd hr).1
  · intro q hq k hr c hc hne
    obtain ⟨hr, hnot⟩ := w.hasRead hd hr
    -- who has read the vector that is written has read another block of it
    have hother : ¬ (k = s.done p + 1 ∧ lay.InBlock p c) := fun h =>
      hnot ⟨Layout.block_unique hc h.2, h.1⟩
    rw [w.used, w.outside k c hother] at hne
    rw [w.contended]
    exact hs.used q hq k hr c hc hne
  · intro q hq k hk hkd t ht
    rw [w.resolved] at hk
    rw [w.done] at hkd
    rw [w.used]
    by_cases hblk : k + 1 = s.done p + 1 ∧ lay.InBlock p t
    · have hqp : q = p := Layout.block_unique ht hblk.2
      have hkp : k = s.done p := by omega
      rw [hqp, hkp]
      exact w.inside t hblk.2
    · rw [w.outside (k + 1) t hblk]
      refine hs.written q hq k hk ?_ t ht
      by_cases hqp : q = p
      · subst hqp
        rw [if_pos rfl] at hkd
        have : k ≠ s.done q := fun h => hblk ⟨by omega, ht⟩
        omega
      · rwa [if_neg hqp] at hkd

/-! ## The resolution -/

omit [BpBits] in
theorem staleIn_eq {src : Contents} {used : ℕ → Contents} {o : ℤ} (hq : q < lay.hwconc)
    (hb : lay.InBlock q t) (hin : lay.InRange (t + o)) :
    staleIn lay src used o t = src (t + o) - used q (t + o) := by
  rw [staleIn, if_pos hin, stale, Layout.owner_eq hq hb]

omit [BpBits] in
theorem staleIn_out {src : Contents} {used : ℕ → Contents} {o : ℤ} (hout : ¬ lay.InRange (t + o)) :
    staleIn lay src used o t = 0 := if_neg hout

omit [BpBits] in
/-- **Every index map of the stencil resolves right**: where a snapshot
was off in its worker's own block, the index is contended, and elsewhere
it lies in the windows. -/
theorem entry (hs : Staged lay x₀ s) (hdue : s.Due lay) (hsize : 2 ≤ lay.size) {op : Op ℚ} {o : ℤ}
    {r : ℚ} (hop : op.Adds r) (ho : -1 ≤ o) (ho' : o ≤ 1) :
    Entry lay (s.data s.resolved) (s.contended s.resolved) (s.used s.resolved)
    ⟨offset o, op⟩ o r := by
  refine ⟨rfl, hop, ?_, ?_⟩
  · rintro c (hc | hc) - -
    · exact ⟨inRange_of_mem_windows hc ho ho',
        target_lt_of_mem_windows hc ho ho' hsize⟩
    · obtain ⟨h1, h2⟩ := hs.inner _ c hc
      exact ⟨⟨by omega, by omega⟩, by omega⟩
  · intro t ht hin hne
    obtain ⟨q, hq, hb⟩ := Layout.exists_block ht
    by_cases hblk : lay.InBlock q (t + o)
    · refine .inr (hs.used q hq _ (.inl (hdue.2 q hq)) _ hblk fun heq => hne ?_)
      rw [stale, Layout.owner_eq hq hb, heq, sub_self]
    · exact .inl (mem_windows_of_outside hq hb hin hblk)

/-- **What the resolution makes of the next vector**: one step of this
one in the interior, and at each end what its neighbour was off by is
added to it. -/
structure Step (lay : Layout) (x₀ : Contents) (s : Chain) (d : Contents) (c : SortedSet ℤ) :
    Prop where
  inner : ∀ t, 1 ≤ t → t < (lay.size : ℤ) - 1 → d t = heatStep lay (s.data s.resolved) t
  first : d 0 = x₀ 0 + heatConst * s.off lay 1 0
  last : d (lay.size - 1) = x₀ (lay.size - 1) + heatConst * s.off lay (-1) (lay.size - 1)
  recorded : ∀ t, lay.InRange t → d t ≠ s.data (s.resolved + 1) t → t ∈ c
  only : ∀ t ∈ c, lay.InRange t ∧ (s.off lay 0 t ≠ 0 ∨ s.off lay (-1) t ≠ 0 ∨ s.off lay 1 t ≠ 0)

omit [BpBits] in
/-- An end cell was read as it is, by whoever read it. -/
theorem off_zero (hs : Staged lay x₀ s) (hdue : s.Due lay)
    (ht : t = 0 ∨ t = (lay.size : ℤ) - 1) : s.off lay 0 t = 0 := by
  have hsize := lay.size_pos
  have hin : lay.InRange t := ⟨by omega, by omega⟩
  obtain ⟨q, hq, hb⟩ := Layout.exists_block hin
  obtain ⟨h0, h1⟩ := hs.ends_data s.resolved (le_of_lt hdue.1)
  obtain ⟨u0, u1⟩ := hs.ends_used q hq s.resolved (.inl (hdue.2 q hq))
  rw [Chain.off, staleIn_eq hq hb (by rw [add_zero]; exact hin), add_zero]
  rcases ht with rfl | rfl
  · rw [h0, u0, sub_self]
  · rw [h1, u1, sub_self]

omit [BpBits] in
/-- **The resolution that is due goes through**, of a vector with two ends. -/
theorem exists_resolve (hs : Staged lay x₀ s) (hdue : s.Due lay) (hsize : 2 ≤ lay.size) :
    ∃ d c, s.resolve lay = { s with
        data := Function.update s.data (s.resolved + 1) d
        contended := Function.update s.contended (s.resolved + 1) c
        resolved := s.resolved + 1 } ∧ Step lay x₀ s d c := by
  have hdeps : List.Forall₂ (fun dep e => Entry lay (s.data s.resolved) (s.contended s.resolved)
      (s.used s.resolved) dep e.1 e.2) heatDeps
      [(0, 1), (-1, 1 * heatConst), (0, -2 * heatConst), (1, 1 * heatConst)] := by
    refine .cons ?_ (.cons ?_ (.cons ?_ (.cons ?_ .nil)))
    · rw [identity_eq_offset]
      exact hs.entry hdue hsize plus_adds (by decide) (by decide)
    · exact hs.entry hdue hsize (fullop_adds _) (by decide) (by decide)
    · exact hs.entry hdue hsize (fullop_adds _) (by decide) (by decide)
    · exact hs.entry hdue hsize (fullop_adds _) (by decide) (by decide)
  obtain ⟨d, c, hres, hr⟩ := resolveMonotonic_spec hdeps (s.data (s.resolved + 1))
    (s.contended (s.resolved + 1))
  refine ⟨d, c, by simp only [Chain.resolve, hres], ?_⟩
  have hdata : ∀ t, lay.InRange t → d t = s.data (s.resolved + 1) t +
      (s.off lay 0 t + heatConst * s.off lay (-1) t - 2 * heatConst * s.off lay 0 t +
        heatConst * s.off lay 1 t) := by
    intro t ht
    rw [hr.data t ht]
    simp only [List.map_cons, List.map_nil, List.sum_cons, List.sum_nil, Chain.off]
    ring
  obtain ⟨h0, h1⟩ := hs.ends_data (s.resolved + 1) hdue.1
  refine ⟨fun t ht ht' => ?_, ?_, ?_, hr.recorded, fun t hmem => ?_⟩
  · -- the interior: what was computed from the snapshot, and what it was off by
    have hin : lay.InRange t := ⟨by omega, by omega⟩
    obtain ⟨q, hq, hb⟩ := Layout.exists_block hin
    rw [hdata t hin, hs.written q hq s.resolved le_rfl (hdue.2 q hq) t hb]
    simp only [Chain.off]
    rw [staleIn_eq hq hb (by rw [add_zero]; exact hin), staleIn_eq hq hb ⟨by omega, by omega⟩,
      staleIn_eq hq hb ⟨by omega, by omega⟩, heatStep, heatStep, if_pos ⟨ht, ht'⟩, if_pos ⟨ht, ht'⟩,
      heatCell, heatCell, add_zero, ← sub_eq_add_neg]
    ring
  · have hout : s.off lay (-1) 0 = 0 := staleIn_out fun h => by have := h.1; omega
    rw [hdata 0 ⟨le_rfl, by omega⟩, h0, hs.off_zero hdue (.inl rfl), hout]
    ring
  · have hout : s.off lay 1 (lay.size - 1) = 0 := staleIn_out fun h => by have := h.2; omega
    rw [hdata _ ⟨by omega, by omega⟩, h1, hs.off_zero hdue (.inr rfl), hout]
    ring
  · rcases hr.only t hmem with hold | ⟨hin, e, he, hne⟩
    · rw [hs.fresh _ (Nat.lt_succ_self _)] at hold
      exact absurd hold SortedSet.not_mem_empty
    · refine ⟨hin, ?_⟩
      simp only [List.mem_cons, List.not_mem_nil, or_false] at he
      rcases he with rfl | rfl | rfl | rfl
      · exact .inl hne
      · exact .inr (.inl hne)
      · exact .inl hne
      · exact .inr (.inr hne)

omit [BpBits] in
/-- Reading the ends as they are is being off by nothing there. -/
theorem endsRead_iff (hsize : 2 ≤ lay.size) (s : Chain) :
    EndsRead lay s ↔ s.off lay 1 0 = 0 ∧ s.off lay (-1) (lay.size - 1) = 0 := by
  have hin : lay.InRange 0 := ⟨le_rfl, by omega⟩
  have hin' : lay.InRange (lay.size - 1) := ⟨by omega, by omega⟩
  obtain ⟨q, hq, hb⟩ := Layout.exists_block hin
  obtain ⟨r, hr, hb'⟩ := Layout.exists_block hin'
  have hfirst : s.off lay 1 0 = s.data s.resolved 1 - s.used s.resolved q 1 :=
    staleIn_eq hq hb ⟨by omega, by omega⟩
  have hlast : s.off lay (-1) (lay.size - 1) =
      s.data s.resolved (lay.size - 2) - s.used s.resolved r (lay.size - 2) := by
    rw [Chain.off, staleIn_eq hr hb' ⟨by omega, by omega⟩,
      show (lay.size : ℤ) - 1 + -1 = lay.size - 2 by ring]
  rw [hfirst, hlast, sub_eq_zero, sub_eq_zero]
  constructor
  · exact fun hE => ⟨((hE q hq).1 hb).symm, ((hE r hr).2 hb').symm⟩
  · rintro ⟨h0, h1⟩ p hp
    refine ⟨fun hp0 => ?_, fun hp1 => ?_⟩
    · rw [Layout.block_unique hp0 hb, h0]
    · rw [Layout.block_unique hp1 hb', h1]

omit [BpBits] in
/-- **A resolution that read the ends as they are** gives the next vector
of the sequential loop. -/
theorem resolve (hs : Staged lay x₀ s) (hdue : s.Due lay) (hsize : 2 ≤ lay.size)
    (hE : EndsRead lay s) : Staged lay x₀ (s.resolve lay) := by
  obtain ⟨d, c, hre, hst⟩ := hs.exists_resolve hdue hsize
  obtain ⟨hE0, hE1⟩ := (endsRead_iff hsize s).1 hE
  rw [hre]
  -- the new vector is one step of this one, ends included
  have hstep : ∀ t, lay.InRange t → d t = heat lay x₀ (s.resolved + 1) t := by
    intro t ht
    obtain ⟨a0, a1⟩ := atEnds_heat lay x₀ (s.resolved + 1)
    by_cases h0 : t = 0
    · rw [h0, hst.first, hE0, a0, mul_zero, add_zero]
    · by_cases h1 : t = lay.size - 1
      · rw [h1, hst.last, hE1, a1, mul_zero, add_zero]
      · obtain ⟨hlo, hhi⟩ := ht
        rw [hst.inner t (by omega) (by omega), heat_succ]
        exact heatStep_congr (hs.settled _ le_rfl) ⟨hlo, hhi⟩
  have hdata : ∀ k, k ≠ s.resolved + 1 →
      Function.update s.data (s.resolved + 1) d k = s.data k :=
      fun k hk => Function.update_of_ne hk _ _
  have hcont : ∀ k, k ≠ s.resolved + 1 →
      Function.update s.contended (s.resolved + 1) c k = s.contended k :=
    fun k hk => Function.update_of_ne hk _ _
  refine ⟨hs.stopped, hs.done_le, hs.holding, hdue.2, ?_, ?_, ?_, ?_, hs.ends_used, ?_, ?_⟩
  · intro k hk t ht
    dsimp only
    by_cases hk' : k = s.resolved + 1
    · rw [hk', Function.update_self]
      exact hstep t ht
    · rw [hdata k hk']
      exact hs.settled k (Nat.le_of_lt_succ (lt_of_le_of_ne hk hk')) t ht
  · intro k t ht
    dsimp only at ht
    by_cases hk : k = s.resolved + 1
    · rw [hk, Function.update_self] at ht
      obtain ⟨⟨hlo, hhi⟩, hcause⟩ := hst.only t ht
      -- at an end nothing was off
      have hout0 : s.off lay (-1) 0 = 0 := staleIn_out fun h => by have := h.1; omega
      have hout1 : s.off lay 1 (lay.size - 1) = 0 := staleIn_out fun h => by have := h.2; omega
      have h0 : t ≠ 0 := by
        rintro rfl
        rcases hcause with h | h | h
        · exact h (hs.off_zero hdue (.inl rfl))
        · exact h hout0
        · exact h hE0
      have h1 : t ≠ lay.size - 1 := by
        rintro rfl
        rcases hcause with h | h | h
        · exact h (hs.off_zero hdue (.inr rfl))
        · exact h hE1
        · exact h hout1
      omega
    · rw [hcont k hk] at ht
      exact hs.inner k t ht
  · intro k hk
    have hk' : s.resolved + 1 < k := hk
    dsimp only
    rw [hcont k (by omega)]
    exact hs.fresh k (by omega)
  · intro k hk
    dsimp only
    by_cases hk' : k = s.resolved + 1
    · rw [hk', Function.update_self, AtEnds, hst.first, hst.last, hE0, hE1, mul_zero, add_zero,
        add_zero]
      exact ⟨rfl, rfl⟩
    · rw [hdata k hk']
      exact hs.ends_data k hk
  · intro p hp k hr t ht hne
    dsimp only at hne ⊢
    by_cases hk : k = s.resolved + 1
    · rw [hk, Function.update_self] at hne ⊢
      subst hk
      refine hst.recorded t ht.inRange fun heq => ?_
      -- what changed since the worker read it was changed by this resolution
      rw [heq] at hne
      have hmem := hs.used p hp _ hr t ht hne
      rw [hs.fresh _ (Nat.lt_succ_self _)] at hmem
      exact SortedSet.not_mem_empty hmem
    · rw [hdata k hk] at hne
      rw [hcont k hk]
      exact hs.used p hp k hr t ht hne
  · intro p hp k hk hlt t ht
    have hk' : s.resolved + 1 ≤ k := hk
    dsimp only
    rw [hdata (k + 1) (by omega)]
    exact hs.written p hp k (by omega) hlt t ht

omit [BpBits] in
/-- What a stage is right about. -/
theorem correct (hs : Staged lay x₀ s) : Correct lay x₀ s := ⟨hs.stopped, hs.settled⟩

omit [BpBits] in
/-- **A resolution that did not** gets an end wrong. -/
theorem not_correct_resolve (hs : Staged lay x₀ s) (hdue : s.Due lay) (hsize : 2 ≤ lay.size)
    (hE : ¬ EndsRead lay s) : ¬ Correct lay x₀ (s.resolve lay) := by
  obtain ⟨d, c, hre, hst⟩ := hs.exists_resolve hdue hsize
  rw [endsRead_iff hsize s] at hE
  rw [hre]
  rintro ⟨-, hcorrect⟩
  have hk := hcorrect (s.resolved + 1) le_rfl
  dsimp only at hk
  rw [Function.update_self] at hk
  obtain ⟨a0, a1⟩ := atEnds_heat lay x₀ (s.resolved + 1)
  have hconst : heatConst ≠ 0 := by decide +kernel
  have hoff : ∀ x e : ℚ, x + heatConst * e = x → e = 0 := fun x e h => by
    have h' : heatConst * e = 0 := left_eq_add.1 h.symm
    exact (mul_eq_zero.1 h').resolve_left hconst
  refine hE ⟨hoff (x₀ 0) _ ?_, hoff (x₀ (lay.size - 1)) _ ?_⟩
  · rw [← hst.first, hk 0 ⟨le_rfl, by omega⟩, a0]
  · rw [← hst.last, hk _ ⟨by omega, by omega⟩, a1]

/-- **One step**, whoever takes it. -/
theorem step (hst : st.Copies lay) {act : Act} (hs : Staged lay x₀ s) (hC : EndsHold lay s act)
    (he : (chain st lay).step s act = some s') : Staged lay x₀ s' := by
  have hgo : ¬ s.stopped.isSome := by rw [hs.stopped]; exact Bool.false_ne_true
  simp only [chain, if_neg hgo] at he
  cases act with
  | stencil => cases he; exact hs.stencil
  | detach p =>
    obtain ⟨⟨hp, -, hlt⟩, he⟩ := Option.ite_none_right_eq_some.1 he
    cases he
    exact hs.detach hp hlt
  | reattach p =>
    obtain ⟨⟨hp, hd⟩, he⟩ := Option.ite_none_right_eq_some.1 he
    cases he
    exact hs.reattach hst hp hd
  | resolve =>
    obtain ⟨hdue, he⟩ := Option.ite_none_right_eq_some.1 he
    cases he
    obtain ⟨hsize, hE⟩ := hC hdue
    exact hs.resolve hdue hsize hE

end Staged

omit [BpBits] in
/-- **A vector of one element** stops its resolution: the window of the
offset `-1` leads behind the end. -/
theorem stopped_resolve (hsize : lay.size = 1) (s : Chain) :
    (s.resolve lay).stopped.isSome = true := by
  have ha : lay.a 0 = 0 := by simp [Layout.a, partition]
  have hmem : (0 : ℤ) ∈ windows lay (offset (-1)) := mem_windows.2 ⟨0, lay.hwconc_pos, .inl (by
    simp only [clamp, ha]
    omega)⟩
  have hno : ¬ Scannable lay (-1) 0 := fun hscan => by
    have := (hscan (by omega) (by omega)).2
    omega
  have hdep : (⟨offset (-1), fullop (1 * heatConst)⟩ : Dep) ∈ heatDeps :=
    List.mem_cons_of_mem _ List.mem_cons_self
  obtain ⟨e, he⟩ := exists_error_of_foldlM hdep
    (resolveDep_unfit (s.data s.resolved) (s.contended s.resolved) (s.used s.resolved) hmem hno)
    (s.data (s.resolved + 1), s.contended (s.resolved + 1))
  have hres : s.resolve lay = { s with stopped := some e } := by
    simp only [Chain.resolve, resolveMonotonic, he]
  rw [hres]
  rfl

/-- **When the pipeline is the sequential loop.** In a run of any number
of steps, in any order, over tries that copy a block as it is, nothing stops
and every vector is once it is resolved what the sequential loop gives, if
and only if at each resolution there are two elements at least, and the
workers of the two end blocks had read the neighbours of the ends as they
are. -/
theorem heat_iff (lay : Layout) (hcopy : lay.Copyable) (x₀ : Contents) (acts : List Act) :
    (chain (.tries lay) lay).Always (Correct lay x₀) (.start x₀) acts ↔
      (chain (.tries lay) lay).Along (EndsHold lay) (.start x₀) acts := by
  have hst := Storage.tries_copies_iff.2 hcopy
  refine Machine.always_iff_along (I := fun _ => True) (J := Staged lay x₀)
    (fun _ _ _ _ _ => trivial)
    (fun s a t _ hs hC he => hs.step hst hC he) (fun s _ hs => hs.correct) ?_ trivial
    (.start lay x₀)
  intro s act _ hs hC
  have hgo : ¬ s.stopped.isSome := by rw [hs.stopped]; exact Bool.false_ne_true
  cases act with
  | resolve =>
    obtain ⟨hdue, hE⟩ := Classical.not_imp.1 hC
    refine ⟨s.resolve lay, by simp only [chain, if_neg hgo, if_pos hdue], ?_⟩
    rcases Nat.lt_or_ge lay.size 2 with hlt | hsize
    · have hone : lay.size = 1 := by have := lay.size_pos; omega
      intro h
      have hstop := stopped_resolve hone s
      rw [h.1] at hstop
      exact nomatch hstop
    · exact hs.not_correct_resolve hdue hsize fun h => hE ⟨hsize, h⟩
  | _ => exact absurd trivial hC

omit [BpBits] in
/-- Two workers and five elements, two steps. Worker 1 is ahead with the first,
and waits for worker 0 with the second. -/
theorem heat_iff_five :
    letI := oneBit
    let lay : Layout := ⟨2, 5, by decide, by decide⟩
    (chain (.tries lay) lay).Always (Correct lay fun t => t * t) (.start fun t => t * t)
      [.stencil, .detach 1, .stencil, .reattach 1, .detach 0, .reattach 0, .detach 1, .detach 0,
        .resolve, .reattach 1, .reattach 0, .resolve] := by
  let _ := oneBit
  intro lay
  exact (heat_iff lay (fun h => absurd h (by decide)) _ _).2 (by decide +kernel)

omit [BpBits] in
/-- **An end is overwritten.** Three elements, two workers, two steps. The
worker of cell 2 runs both its tasks first, so it reads cell 1 of the next
vector before that is written; when that is repaired, the end takes what
its neighbour was off by. -/
theorem end_overwritten :
    letI := oneBit
    ∃ (lay : Layout) (x₀ : Contents) (acts : List Act) (s : Chain),
      (chain (.tries lay) lay).run (.start x₀) acts = some s ∧ s.stopped = none ∧ s.created = 2 ∧
        s.resolved = 2 ∧ (∀ p < lay.hwconc, s.done p = 2) ∧ lay.InRange 2 ∧
        s.data 2 2 = 4 / 25 ∧ heat lay x₀ 2 2 = 0 := by
  let _ := oneBit
  let lay : Layout := ⟨2, 3, by decide, by decide⟩
  let x₀ : Contents := fun t => if t = 0 then 1 else 0
  let acts : List Act :=
    [.stencil, .stencil, .detach 1, .reattach 1, .detach 1, .reattach 1, .detach 0, .reattach 0,
      .detach 0, .reattach 0, .resolve, .resolve]
  have hend : ((chain (.tries lay) lay).run (.start x₀) acts).map (fun s => (s.stopped, s.created,
      s.resolved, s.done 0, s.done 1, s.data 2 2)) = some (none, 2, 2, 2, 2, 4 / 25) := by
    decide +kernel
  have hheat : heat lay x₀ 2 2 = 0 := by decide +kernel
  obtain ⟨s, hrun, hs⟩ := Option.map_eq_some_iff.1 hend
  simp only [Prod.mk.injEq] at hs
  obtain ⟨h1, h2, h3, h4, h5, h6⟩ := hs
  refine ⟨lay, x₀, acts, s, hrun, h1, h2, h3, fun p hp => ?_, ⟨by decide, by decide⟩, h6, hheat⟩
  have hp' : p < 2 := hp
  obtain rfl | rfl : p = 0 ∨ p = 1 := by omega
  · exact h4
  · exact h5

end Contentious.Cont
