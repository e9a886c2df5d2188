import Contentious.Cont.Runtime

/-!
# Cont — what a step of the runtime does

`Moves` is the step inverted: who takes it, what must hold, and what the
state is then. What every run keeps whatever the calls are is `Coherent`:
workers are not ahead of the main thread, a call is resolved when all are
done with it, and the loop over a second vector is inside its block, so
that it never leaves the vectors (`cvecCell_spec`).
-/

namespace Contentious.Cont

variable [BpBits] {st : Storage}
variable {lay : Layout} {prog : Program} {s t : Runtime} {act : RunAct} {p q k j : ℕ} {r : Ref}

namespace Runtime

/-- **The steps there are.** -/
inductive Moves (st : Storage) (lay : Layout) (prog : Program) (s : Runtime) :
    RunAct → Runtime → Prop
  | call : Moves st lay prog s .call (s.call prog)
  | detach {p : ℕ} (hp : p < lay.hwconc) (hd : s.detached p = false) (hlt : s.done p < s.created) :
      Moves st lay prog s (.detach p) (s.detach lay prog p)
  | sweep {p : ℕ} {other : Ref} {splt : Sweep} (hp : p < lay.hwconc) (hd : s.detached p = true)
      (ho : (prog.call (s.done p)).other = some other) (hne : (s.splt p).it ≠ cvecEnd lay p)
      (hc : cvecCell lay (s.data other) (s.splt p) = .ok splt) :
      Moves st lay prog s (.sweep p) { s with splt := Function.update s.splt p splt }
  | reattach {p : ℕ} {d : Contents} (hp : p < lay.hwconc) (hd : s.detached p = true)
      (ht : s.Through lay prog p) (ha : s.attached st lay prog p = .ok d) :
      Moves st lay prog s (.reattach p) { s with
        data := Function.update s.data (.result (s.done p)) d
        detached := Function.update s.detached p false
        done := Function.update s.done p (s.done p + 1) }
  | resolve {k : ℕ} {scan : List ℤ} {d : Contents} {c : SortedSet ℤ} (hdue : s.Due lay prog k scan)
      (hr : s.resolution lay prog k scan = .ok (d, c)) :
      Moves st lay prog s (.resolve k scan) { s with
        data := Function.update s.data (.result k) d
        contended := Function.update s.contended (.result k) c
        frozen := Function.update s.frozen k []
        resolved := Function.update s.resolved k true }
  | sweepStop {p : ℕ} {other : Ref} {e : Fault} (hp : p < lay.hwconc) (hd : s.detached p = true)
      (ho : (prog.call (s.done p)).other = some other) (hne : (s.splt p).it ≠ cvecEnd lay p)
      (hc : cvecCell lay (s.data other) (s.splt p) = .error e) :
      Moves st lay prog s (.sweep p) { s with stopped := some (s.done p, e) }
  | reattachStop {p : ℕ} {e : Fault} (hp : p < lay.hwconc) (hd : s.detached p = true)
      (ht : s.Through lay prog p) (ha : s.attached st lay prog p = .error e) :
      Moves st lay prog s (.reattach p) { s with stopped := some (s.done p, e) }
  | resolveStop {k : ℕ} {scan : List ℤ} {e : Fault} (hdue : s.Due lay prog k scan)
      (hr : s.resolution lay prog k scan = .error e) :
      Moves st lay prog s (.resolve k scan) { s with stopped := some (k, e) }

theorem moves_of_step (h : (runtime st lay prog).step s act = some t) :
    s.stopped = none ∧ s.Moves st lay prog act t := by
  simp only [runtime] at h
  split at h
  · exact nomatch h
  next hgo =>
  refine ⟨by simpa using hgo, ?_⟩
  cases act with
  | call =>
    cases h
    exact .call
  | detach p =>
    obtain ⟨⟨hp, hd, hlt⟩, h⟩ := Option.ite_none_right_eq_some.1 h
    cases h
    exact .detach hp hd hlt
  | sweep p =>
    dsimp only at h
    split at h
    · next other ho =>
      obtain ⟨⟨hp, hd, hne⟩, h⟩ := Option.ite_none_right_eq_some.1 h
      cases h
      rw [sweep]
      split
      · next e hc => exact .sweepStop hp hd ho hne hc
      · next splt hc => exact .sweep hp hd ho hne hc
    · exact nomatch h
  | reattach p =>
    obtain ⟨⟨hp, hd, ht⟩, h⟩ := Option.ite_none_right_eq_some.1 h
    cases h
    rw [reattach]
    split
    · next e ha => exact .reattachStop hp hd ht ha
    · next d ha => exact .reattach hp hd ht ha
  | resolve k scan =>
    obtain ⟨hdue, h⟩ := Option.ite_none_right_eq_some.1 h
    cases h
    rw [resolve]
    split
    · next e hr => exact .resolveStop hdue hr
    · next d c hr => exact .resolve hdue hr

theorem moves_of_inChain (h : (inChain st lay prog).step s act = some t) :
    s.stopped = none ∧ s.inOrder prog act = true ∧ s.Moves st lay prog act t := by
  obtain ⟨ho, h⟩ := Machine.restrict_step.1 h
  obtain ⟨hgo, h⟩ := moves_of_step h
  exact ⟨hgo, ho, h⟩

/-- Worker `p` has detached in its task of the `k`-th call. -/
def HasRead (s : Runtime) (p k : ℕ) : Prop := k < s.done p ∨ k = s.done p ∧ s.detached p = true

end Runtime

omit [BpBits] in
theorem Tracked.resolveFrozen {dep : Dep} {contended : SortedSet ℤ}
    {st st' : Contents × SortedSet ℤ}
    (h : resolveFrozen lay dep contended st = .ok st') : Tracked lay st.1 st'.1 st.2 st'.2 := by
  simp only [Cont.resolveFrozen] at h
  obtain ⟨-, -, h⟩ := Exec.bind_eq_ok.1 h
  obtain ⟨-, -, h⟩ := Exec.bind_eq_ok.1 h
  cases h
  exact refl _ _

/-! ## The loop over a second vector -/

omit [BpBits] in
theorem cvecStart_eq (hp : p < lay.hwconc) : cvecStart lay p = (lay.a p, lay.a p) := by
  have h1 := lay.a_nonneg p
  have h2 := Layout.a_lt_b hp
  have h3 := lay.b_le_size p
  rw [cvecStart, identity_eq_offset, safeMapping_offset, clamp, Prod.mk.injEq]
  omega

omit [BpBits] in
theorem cvecEnd_eq (hp : p < lay.hwconc) : cvecEnd lay p = lay.b p := by
  have h1 := lay.a_nonneg p
  have h2 := Layout.a_lt_b hp
  have h3 := lay.b_le_size p
  rw [cvecEnd, identity_eq_offset, safeMapping_offset, clamp]
  omega

/-- Both positions are at one index of the block, or at its end. -/
structure AtCell (lay : Layout) (p : ℕ) (s : Sweep) : Prop where
  le_it : lay.a p ≤ s.it
  it_le : s.it ≤ lay.b p
  trck_eq : s.trck = s.it

omit [BpBits] in
/-- **One round of the loop** multiplies one element. -/
theorem cvecCell_spec {w : Sweep} (other : Contents) (hp : p < lay.hwconc) (hw : AtCell lay p w)
    (hne : w.it ≠ cvecEnd lay p) : lay.InBlock p w.it ∧ cvecCell lay other w =
      .ok ⟨Function.update w.data w.it (w.data w.it * other w.it), w.it + 1, w.it + 1⟩ := by
  obtain ⟨h1, h2, h3⟩ := hw
  rw [cvecEnd_eq hp] at hne
  have hb : lay.InBlock p w.it := ⟨h1, lt_of_le_of_ne h2 hne⟩
  have hread : ∀ v : Contents, elemAt lay v w.it = .ok (v w.it) := fun v => if_pos hb.inRange
  refine ⟨hb, ?_⟩
  simp only [cvecCell, h3, hread, Exec.ok_bind]

/-! ## What every run keeps -/

namespace Runtime

/-- **The counts agree**, and no loop has left its block. -/
structure Coherent (lay : Layout) (s : Runtime) : Prop where
  done_le : ∀ p < lay.hwconc, s.done p ≤ s.created
  holding : ∀ p < lay.hwconc, s.detached p = true → s.done p < s.created
  cell : ∀ p < lay.hwconc, s.detached p = true → AtCell lay p (s.splt p)
  due : ∀ k, s.resolved k = true → k < s.created ∧ ∀ p < lay.hwconc, k < s.done p

namespace Coherent

omit [BpBits] in
theorem start (lay : Layout) (x₀ : ℕ → Contents) (c₀ : ℕ → SortedSet ℤ) :
    Coherent lay (Runtime.start x₀ c₀) where
  done_le _ _ := le_rfl
  holding _ _ h := nomatch h
  cell _ _ h := nomatch h
  due _ h := nomatch h

theorem moves (hs : Coherent lay s) (h : s.Moves st lay prog act t) : Coherent lay t := by
  cases h with
  | call =>
    refine ⟨fun p hp => le_trans (hs.done_le p hp) (Nat.le_succ _),
      fun p hp hd => Nat.lt_succ_of_lt (hs.holding p hp hd), hs.cell, fun k hk => ?_⟩
    exact ⟨Nat.lt_succ_of_lt (hs.due k hk).1, (hs.due k hk).2⟩
  | @detach p hp hd hlt =>
    refine ⟨hs.done_le, fun q hq hdq => ?_, fun q hq hdq => ?_, hs.due⟩
    · by_cases hqp : q = p
      · rw [hqp]
        exact hlt
      · simp only [detach, Function.update_of_ne hqp] at hdq
        exact hs.holding q hq hdq
    · by_cases hqp : q = p
      · have h1 := Layout.a_lt_b hp
        simp only [detach, hqp, Function.update_self, cvecStart_eq hp]
        exact ⟨le_rfl, le_of_lt h1, rfl⟩
      · simp only [detach, Function.update_of_ne hqp] at hdq ⊢
        exact hs.cell q hq hdq
  | @sweep p other splt hp hd ho hne hc =>
    refine ⟨hs.done_le, hs.holding, fun q hq hdq => ?_, hs.due⟩
    by_cases hqp : q = p
    · obtain ⟨hb, hok⟩ := cvecCell_spec (s.data other) hp (hs.cell p hp hd) hne
      rw [hok] at hc
      cases hc
      simp only [hqp, Function.update_self]
      exact ⟨le_trans hb.1 (Int.le_add_one le_rfl), hb.2, rfl⟩
    · simp only [Function.update_of_ne hqp]
      exact hs.cell q hq hdq
  | @reattach p d hp hd ht ha =>
    have hlt := hs.holding p hp hd
    refine ⟨fun q hq => ?_, fun q hq hdq => ?_, fun q hq hdq => ?_, fun k hk => ?_⟩
    · by_cases hqp : q = p
      · simp only [hqp, Function.update_self]
        exact hlt
      · simp only [Function.update_of_ne hqp]
        exact hs.done_le q hq
    · by_cases hqp : q = p
      · simp only [hqp, Function.update_self] at hdq
        exact nomatch hdq
      · simp only [Function.update_of_ne hqp] at hdq ⊢
        exact hs.holding q hq hdq
    · by_cases hqp : q = p
      · simp only [hqp, Function.update_self] at hdq
        exact nomatch hdq
      · simp only [Function.update_of_ne hqp] at hdq
        exact hs.cell q hq hdq
    · obtain ⟨hk, hall⟩ := hs.due k hk
      refine ⟨hk, fun q hq => ?_⟩
      have := hall q hq
      by_cases hqp : q = p
      · simp only [hqp, Function.update_self] at this ⊢
        omega
      · simp only [Function.update_of_ne hqp]
        exact this
  | @resolve k scan d c hdue hr =>
    refine ⟨hs.done_le, hs.holding, hs.cell, fun j hj => ?_⟩
    by_cases hjk : j = k
    · rw [hjk]
      exact ⟨hdue.1, hdue.2.1⟩
    · exact hs.due j (by simpa only [Function.update_of_ne hjk] using hj)
  | sweepStop => exact ⟨hs.done_le, hs.holding, hs.cell, hs.due⟩
  | reattachStop => exact ⟨hs.done_le, hs.holding, hs.cell, hs.due⟩
  | resolveStop => exact ⟨hs.done_le, hs.holding, hs.cell, hs.due⟩

omit [BpBits] in
/-- The loop never leaves the vectors. -/
theorem not_sweepStop {other : Ref} {e : Fault} (hs : Coherent lay s) (hp : p < lay.hwconc)
    (hd : s.detached p = true) (hne : (s.splt p).it ≠ cvecEnd lay p) :
    cvecCell lay (s.data other) (s.splt p) ≠ .error e := by
  rw [(cvecCell_spec (s.data other) hp (hs.cell p hp hd) hne).2]
  exact fun h => nomatch h

end Coherent

/-! ## What a step leaves alone -/

/-- The snapshot of a worker that has detached stays. -/
theorem Moves.used (h : s.Moves st lay prog act t) (hr : s.HasRead p k) :
    t.used k p = s.used k p := by
  cases h with
  | @detach q hq hd hlt =>
    simp only [Runtime.detach]
    by_cases hk : k = s.done q
    · subst hk
      have hqp : p ≠ q := by
        rintro rfl
        rcases hr with hr | ⟨-, hr⟩
        · exact lt_irrefl _ hr
        · rw [hd] at hr
          exact nomatch hr
      rw [Function.update_self, Function.update_of_ne hqp]
    · rw [Function.update_of_ne hk]
  | _ => rfl

/-- Who has detached had done so before, or does so now. -/
theorem Moves.hasRead_or (h : s.Moves st lay prog act t) (hr : t.HasRead p k) :
    s.HasRead p k ∨ act = .detach p ∧ k = s.done p := by
  cases h with
  | @detach q hq hd hlt =>
    by_cases hqp : p = q
    · rcases hr with hr | ⟨hk, -⟩
      · exact .inl (.inl hr)
      · exact .inr ⟨by rw [hqp], hk⟩
    · refine .inl (hr.imp_right fun ⟨hk, hdp⟩ => ⟨hk, ?_⟩)
      simpa only [Runtime.detach, Function.update_of_ne hqp] using hdp
  | @reattach q d hq hd ht ha =>
    left
    by_cases hqp : p = q
    · subst hqp
      simp only [HasRead, Function.update_self] at hr
      have hk : k < s.done p + 1 := hr.resolve_right fun h => nomatch h.2
      rcases Nat.lt_or_ge k (s.done p) with h | h
      · exact .inl h
      · exact .inr ⟨by omega, hd⟩
    · simpa only [HasRead, Function.update_of_ne hqp] using hr
  | _ => exact .inl hr

/-- A vector that is final stays so, -/
theorem Moves.final (h : s.Moves st lay prog act t) (hr : s.final r = true) : t.final r = true := by
  cases r with
  | input i => rfl
  | result j =>
    cases h with
    | @resolve k scan d c hdue hr' =>
      simp only [Runtime.final, Function.update_apply]
      split
      · rfl
      · exact hr
    | _ => exact hr

omit [BpBits] in
theorem inOrder_resolve {scan : List ℤ} : s.inOrder prog (.resolve k scan) = true ↔
    s.resolved k = false ∧ ∀ r, (prog.call k).Reads r → s.final r = true := by
  simp only [inOrder, Bool.and_eq_true, Bool.not_eq_true', Call.Reads, Option.all_eq_true]
  constructor
  · rintro ⟨⟨h1, h2⟩, h3⟩
    refine ⟨h1, fun r hr => ?_⟩
    rcases hr with rfl | hr
    · exact h2
    · exact h3 r hr
  · rintro ⟨h1, h2⟩
    exact ⟨⟨h1, h2 _ (.inl rfl)⟩, fun r hr => h2 r (.inr hr)⟩

/-- **and is not written any more**, where resolutions run in order. -/
theorem Moves.data_final (h : s.Moves st lay prog act t) (hs : Coherent lay s)
    (ho : s.inOrder prog act = true) (hr : s.final r = true) : t.data r = s.data r := by
  cases r with
  | input i => cases h <;> rfl
  | result j =>
    obtain ⟨hlt, hall⟩ := hs.due j hr
    have hne : ∀ k, k ≠ j → Ref.result j ≠ .result k := fun k hk h => hk (Ref.result.inj h).symm
    cases h with
    | call => exact Function.update_of_ne (hne _ (ne_of_gt hlt)) _ _
    | @reattach p d hp hd ht ha => exact Function.update_of_ne (hne _ (ne_of_gt (hall p hp))) _ _
    | @resolve k scan d c hdue hr' =>
      have hk : k ≠ j := by
        rintro rfl
        have hr'' : s.resolved k = true := hr
        rw [(inOrder_resolve.1 ho).1] at hr''
        exact nomatch hr''
      exact Function.update_of_ne (hne k hk) _ _
    | _ => rfl

/-- What a resolution is of has been made final first. -/
def Ordered (prog : Program) (s : Runtime) : Prop :=
  ∀ k, s.resolved k = true → ∀ r, (prog.call k).Reads r → s.final r = true

theorem Ordered.moves (hs : Ordered prog s) (h : s.Moves st lay prog act t)
    (ho : s.inOrder prog act = true) : Ordered prog t := by
  intro k hk r hr
  refine h.final ?_
  cases h with
  | @resolve j scan d c hdue hr' =>
    by_cases hkj : k = j
    · rw [hkj] at hr
      exact (inOrder_resolve.1 ho).2 r hr
    · exact hs k (by simpa only [Function.update_of_ne hkj] using hk) r hr
  | _ => exact hs k hk r hr

/-! ## What is contended -/

omit [BpBits] in
/-- **A resolution that does not fold** records what it changes. -/
theorem tracked_resolution {scan : List ℤ} {d : Contents} {c : SortedSet ℤ}
    (hmono : isMonotonic (prog.call k).first.imap = true)
    (h : s.resolution lay prog k scan = .ok (d, c)) :
    Tracked lay (s.data (.result k)) d (s.contended (.result k)) c := by
  rw [resolution, if_pos hmono, resolveSrc] at h
  obtain ⟨st, hfrozen, h⟩ := Exec.bind_eq_ok.1 h
  exact (Tracked.foldlM Prod.fst Prod.snd (fun f _ _ => Tracked.resolveFrozen) hfrozen).trans
    (Tracked.resolveMonotonic h)

/-- What is contended is in the vector. -/
def Within (lay : Layout) (s : Runtime) : Prop := ∀ r, ∀ c ∈ s.contended r, lay.InRange c

theorem Within.moves (hs : Within lay s) (h : s.Moves st lay prog act s') : Within lay s' := by
  intro r c hc
  cases h with
  | call =>
    by_cases hr : r = .result s.created
    · simp only [call, hr, Function.update_self] at hc
      exact absurd hc SortedSet.not_mem_empty
    · simp only [call, Function.update_of_ne hr] at hc
      exact hs r c hc
  | @resolve k scan d c' hdue hr' =>
    by_cases hr : r = .result k
    · simp only [hr, Function.update_self] at hc
      by_cases hmono : isMonotonic (prog.call k).first.imap = true
      · exact ((tracked_resolution hmono hr').within c hc).elim (hs _ c) id
      · rw [resolution, if_neg hmono] at hr'
        obtain ⟨d', -, hr'⟩ := Exec.bind_eq_ok.1 hr'
        cases hr'
        exact hs _ c hc
    · simp only [Function.update_of_ne hr] at hc
      exact hs r c hc
  | _ => exact hs r c hc

end Runtime

end Contentious.Cont
