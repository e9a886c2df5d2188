import Contentious.Cont.Tasks

/-!
# Cont — pipelines of `foreach`

Vectors `0, 1, 2, …`, each a `foreach` with `mult` of the one before, by a
number or by a vector that was filled and is left alone. A worker computes
its block of each vector from its own block of the one before, which it
has written itself: so what the others have written by then does not
matter (`Multiplied.block`). Nothing is ever contended, and a resolution
finds nothing to look at.
-/

namespace Contentious.Cont

/-- What a vector of the pipeline is multiplied by. -/
inductive Factor
  /-- a number -/
  | scalar (x : ℚ)
  /-- element by element, a vector that was filled -/
  | elements (w : ℕ)

/-- The `k`-th vector of a pipeline. -/
def refAt : ℕ → Ref
  | 0 => .input 0
  | k + 1 => .result k

/-- The calls of the pipeline. -/
def foreachCall (steps : ℕ → Factor) (k : ℕ) : Call Ref :=
  match steps k with
  | .scalar x => .foreach mult (refAt k) x
  | .elements w => .foreachCvec mult (refAt k) (.input w)

variable [BpBits] {st : Storage}
variable {lay : Layout} {steps : ℕ → Factor} {x₀ : ℕ → Contents} {s s' : Runtime} {act : RunAct}
variable {p k j : ℕ} {c t : ℤ}

omit [BpBits] in
theorem foreachCall_src : (foreachCall steps k).src = refAt k := by
  rw [foreachCall]
  split <;> rfl

omit [BpBits] in
theorem foreachCall_first : (foreachCall steps k).first = ⟨identity, mult⟩ := by
  rw [foreachCall]
  split <;> rfl

omit [BpBits] in
theorem foreachCall_monotonic : isMonotonic (foreachCall steps k).first.imap = true := by
  rw [foreachCall_first, isMonotonic_identity]

/-- The pipeline, as long as it may get. -/
def foreachChain (steps : ℕ → Factor) : Program where
  call := foreachCall steps
  sound := by
    intro k j hr
    refine ⟨?_, foreachCall_monotonic⟩
    rcases hr with hr | hr
    · rw [foreachCall_src] at hr
      cases k with
      | zero => exact nomatch hr
      | succ k =>
        cases hr
        exact Nat.lt_succ_self j
    · rw [foreachCall] at hr
      split at hr
      · exact nomatch hr
      · exact nomatch hr

/-- **What the vectors are to hold.** -/
def product (x₀ : ℕ → Contents) (steps : ℕ → Factor) : ℕ → Contents
  | 0 => x₀ 0
  | k + 1 => fun t =>
    match steps k with
    | .scalar x => product x₀ steps k t * x
    | .elements w => product x₀ steps k t * x₀ w t

/-! ## What the workers compute -/

omit [BpBits] in
/-- The loop multiplies the elements of the block. -/
theorem foreachSplt_block {val : ℚ} {used : Contents} (hb : lay.InBlock p t) :
    foreachSplt lay val p used t = used t * val := by
  have hfold : ∀ n : ℕ, (List.range n).foldl
      (fun splt k => Function.update splt (lay.a p + (k : ℕ)) (splt (lay.a p + (k : ℕ)) * val))
        used t =
        if lay.a p ≤ t ∧ t < lay.a p + n then used t * val else used t := by
    intro n
    induction n with
    | zero => exact (if_neg fun h => by have := h.2; omega).symm
    | succ n ih =>
      rw [List.range_succ, List.foldl_append, List.foldl_cons, List.foldl_nil]
      by_cases ht : t = lay.a p + n
      · rw [ht, Function.update_self, ← ht, ih, if_neg (by omega), if_pos (by omega)]
      · rw [Function.update_of_ne ht, ih]
        exact if_congr (by omega) rfl rfl
  obtain ⟨h1, h2⟩ := hb
  rw [foreachSplt, hfold, if_pos (by omega)]

/-! ## What a resolution looks at -/

omit [BpBits] in
/-- **A resolution that finds nothing contended** does nothing. -/
theorem resolveDep_identity (op : Op ℚ) (src : Contents) (used : ℕ → Contents)
    (st : Contents × SortedSet ℤ) : resolveDep lay src .empty used st ⟨identity, op⟩ = .ok st := by
  simp only [resolveDep, windows_identity, SortedSet.elems_empty, List.foldlM_nil]
  rfl

omit [BpBits] in
theorem resolveMonotonic_identity {deps : List Dep} (hdeps : ∀ dep ∈ deps, dep.imap = identity)
    (src : Contents) (used : ℕ → Contents) (st : Contents × SortedSet ℤ) :
    resolveMonotonic lay deps src .empty used st = .ok st := by
  induction deps generalizing st with
  | nil => rfl
  | cons dep deps ih =>
    obtain ⟨imap, op⟩ := dep
    obtain rfl : imap = identity := hdeps _ List.mem_cons_self
    rw [resolveMonotonic, List.foldlM_cons, resolveDep_identity]
    exact ih (fun dep hdep => hdeps dep (List.mem_cons_of_mem _ hdep)) st

omit [BpBits] in
theorem resolveFrozen_identity (op : Op ℚ) (st : Contents × SortedSet ℤ) :
    resolveFrozen lay ⟨identity, op⟩ .empty st = .ok st := by
  simp only [resolveFrozen, windows_identity, SortedSet.elems_empty]
  rfl

/-! ## The invariant -/

/-- **What holds at every stage.** A worker's snapshot and splinter are
right in its block, and so is what it has written. -/
structure Multiplied (lay : Layout) (x₀ : ℕ → Contents) (steps : ℕ → Factor) (s : Runtime) :
    Prop where
  stopped : s.stopped = none
  input : ∀ i, s.data (.input i) = x₀ i
  contended : ∀ r, s.contended r = .empty
  used : ∀ p < lay.hwconc, s.detached p = true → ∀ t, lay.InBlock p t →
    s.used (s.done p) p t = product x₀ steps (s.done p) t
  swept : ∀ p < lay.hwconc, s.detached p = true → ∀ w, steps (s.done p) = .elements w →
    ∀ t, lay.InBlock p t → (s.splt p).data t =
      if t < (s.splt p).it then product x₀ steps (s.done p + 1) t else product x₀ steps (s.done p) t
  written : ∀ p < lay.hwconc, ∀ k < s.done p, ∀ t, lay.InBlock p t →
    s.data (.result k) t = product x₀ steps (k + 1) t

namespace Multiplied

omit [BpBits] in
theorem start (lay : Layout) (x₀ : ℕ → Contents) (steps : ℕ → Factor) :
    Multiplied lay x₀ steps (.start x₀ fun _ => .empty) where
  stopped := rfl
  input _ := rfl
  contended r := by cases r <;> rfl
  used _ _ h := nomatch h
  swept _ _ h := nomatch h
  written _ _ _ h := absurd h (Nat.not_lt_zero _)

omit [BpBits] in
/-- **A worker's own block of a vector it is done with is right.** -/
theorem block (hs : Multiplied lay x₀ steps s) (hp : p < lay.hwconc) (hk : k ≤ s.done p)
    (hb : lay.InBlock p t) : s.data (refAt k) t = product x₀ steps k t := by
  cases k with
  | zero => exact congrFun (hs.input 0) t
  | succ k => exact hs.written p hp k hk t hb

/-- **A worker's splinter is right** when it reattaches. -/
theorem attached (hst : st.Copies lay) (hs : Multiplied lay x₀ steps s) (hp : p < lay.hwconc)
    (hd : s.detached p = true) (ht : s.Through lay (foreachChain steps) p) :
    ∃ splt, s.attached st lay (foreachChain steps) p =
        .ok (assignRange (s.data (.result (s.done p))) splt (lay.a p) (lay.b p)) ∧
      ∀ t, lay.InBlock p t → splt t = product x₀ steps (s.done p + 1) t := by
  have hmono : isMonotonic ((foreachChain steps).call (s.done p)).first.imap = true :=
    foreachCall_monotonic
  have hsplt : ∃ splt, ((foreachChain steps).call (s.done p)).splinter lay p (s.used (s.done p) p)
      (s.splt p) = .ok splt ∧
        ∀ t, lay.InBlock p t → splt t = product x₀ steps (s.done p + 1) t := by
    cases hstep : steps (s.done p) with
    | scalar x =>
      have hcall : (foreachChain steps).call (s.done p) = .foreach mult (refAt (s.done p)) x := by
        simp only [foreachChain, foreachCall, hstep]
      refine ⟨foreachSplt lay x p (s.used (s.done p) p), by rw [hcall]; rfl, fun t hb => ?_⟩
      rw [foreachSplt_block hb, hs.used p hp hd t hb]
      simp only [product, hstep]
    | elements w =>
      have hcall : (foreachChain steps).call (s.done p) =
          .foreachCvec mult (refAt (s.done p)) (.input w) := by
        simp only [foreachChain, foreachCall, hstep]
      have hend : (s.splt p).it = lay.b p := by
        rw [Runtime.Through, hcall, cvecEnd_eq hp] at ht
        exact ht.resolve_left fun h => nomatch h
      refine ⟨(s.splt p).data, by rw [hcall]; rfl, fun t hb => ?_⟩
      rw [hs.swept p hp hd w hstep t hb, if_pos (by rw [hend]; exact hb.2)]
  obtain ⟨splt, hok, hright⟩ := hsplt
  refine ⟨splt, ?_, hright⟩
  simp only [Runtime.attached, hok, Exec.ok_bind, if_pos hmono, hst _ _ p hp]

omit [BpBits] in
/-- **A resolution finds nothing to do.** -/
theorem resolution (hs : Multiplied lay x₀ steps s) (scan : List ℤ) :
    s.resolution lay (foreachChain steps) k scan = .ok (s.data (.result k), .empty) := by
  have hmono : isMonotonic ((foreachChain steps).call k).first.imap = true := foreachCall_monotonic
  have hfirst : ((foreachChain steps).call k).first = ⟨identity, mult⟩ := foreachCall_first
  have hfrozen : ∀ (l : List Ref) (st : Contents × SortedSet ℤ), l.foldlM (fun st f =>
      resolveFrozen lay ((foreachChain steps).call k).first (s.contended f) st) st = .ok st := by
    intro l st
    induction l with
    | nil => rfl
    | cons f l ih =>
      rw [List.foldlM_cons, hs.contended, hfirst, resolveFrozen_identity]
      rw [hfirst] at ih
      exact ih
  have hdeps : ∀ dep ∈ ((foreachChain steps).call k).deps, dep.imap = identity := by
    intro dep hdep
    simp only [foreachChain, foreachCall] at hdep
    split at hdep
    · rw [List.mem_singleton.1 hdep]
    · simp only [Call.deps] at hdep
      split at hdep
      · rcases List.mem_cons.1 hdep with rfl | hdep
        · rfl
        · rw [List.mem_singleton.1 hdep]
      · rw [List.mem_singleton.1 hdep]
  rw [Runtime.resolution, if_pos hmono, Runtime.resolveSrc, hfrozen, Exec.ok_bind, hs.contended,
    hs.contended]
  exact resolveMonotonic_identity hdeps _ _ _

omit [BpBits] in
/-- A vector more. -/
theorem call (hc : s.Coherent lay) (hs : Multiplied lay x₀ steps s) :
    Multiplied lay x₀ steps (s.call (foreachChain steps)) := by
  refine ⟨hs.stopped, fun i => hs.input i, fun r => ?_, hs.used, hs.swept, fun p hp k hk t hb => ?_⟩
  · by_cases hr : r = .result s.created
    · simp only [Runtime.call, hr, Function.update_self]
    · simp only [Runtime.call, Function.update_of_ne hr]
      exact hs.contended r
  · have hk' : k < s.created := lt_of_lt_of_le hk (hc.done_le p hp)
    have hne : Ref.result k ≠ .result s.created := fun h => by
      cases h
      exact lt_irrefl _ hk'
    simp only [Runtime.call, Function.update_of_ne hne]
    exact hs.written p hp k hk t hb

omit [BpBits] in
/-- **A worker detaches from its own block**, which is right. -/
theorem detach (hs : Multiplied lay x₀ steps s) (hp : p < lay.hwconc) :
    Multiplied lay x₀ steps (s.detach lay (foreachChain steps) p) := by
  have hmono : isMonotonic ((foreachChain steps).call (s.done p)).first.imap = true :=
    foreachCall_monotonic
  have hsrc : ((foreachChain steps).call (s.done p)).src = refAt (s.done p) := foreachCall_src
  have hblock : ∀ t, lay.InBlock p t →
      s.data (refAt (s.done p)) t = product x₀ steps (s.done p) t :=
    fun t hb => hs.block hp le_rfl hb
  refine ⟨hs.stopped, hs.input, hs.contended, fun q hq hd t hb => ?_, fun q hq hd w hw t hb => ?_,
    hs.written⟩
  · by_cases hqp : q = p
    · subst hqp
      simp only [Runtime.detach, Function.update_self, if_pos hmono, hsrc]
      exact hblock t hb
    · simp only [Runtime.detach, Function.update_of_ne hqp] at hd ⊢
      by_cases hk : s.done q = s.done p
      · rw [hk, Function.update_self, Function.update_of_ne hqp, ← hk]
        exact hs.used q hq hd t hb
      · rw [Function.update_of_ne hk]
        exact hs.used q hq hd t hb
  · by_cases hqp : q = p
    · subst hqp
      simp only [Runtime.detach, Function.update_self, if_pos hmono, hsrc, cvecStart_eq hp]
      rw [if_neg (by have := hb.1; omega)]
      exact hblock t hb
    · simp only [Runtime.detach, Function.update_of_ne hqp] at hd ⊢
      exact hs.swept q hq hd w hw t hb

omit [BpBits] in
/-- One element more of the splinter. -/
theorem sweep {other : Ref} {splt : Sweep} (hc : s.Coherent lay) (hs : Multiplied lay x₀ steps s)
    (hp : p < lay.hwconc) (hd : s.detached p = true)
    (ho : ((foreachChain steps).call (s.done p)).other = some other)
    (hne : (s.splt p).it ≠ cvecEnd lay p)
    (hcell : cvecCell lay (s.data other) (s.splt p) = .ok splt) :
    Multiplied lay x₀ steps { s with splt := Function.update s.splt p splt } := by
  refine ⟨hs.stopped, hs.input, hs.contended, hs.used, fun q hq hdq w hw t hb => ?_, hs.written⟩
  by_cases hqp : q = p
  · subst hqp
    have hother : other = .input w := by
      simp only [foreachChain, foreachCall, hw, Call.other] at ho
      cases ho
      rfl
    obtain ⟨hin, hok⟩ := cvecCell_spec (s.data other) hp (hc.cell q hp hd) hne
    rw [hok] at hcell
    cases hcell
    have hsw := hs.swept q hq hdq w hw
    simp only [Function.update_self]
    by_cases ht : t = (s.splt q).it
    · rw [ht, Function.update_self, if_pos (Int.lt_add_one_of_le le_rfl), hsw _ hin,
        if_neg (lt_irrefl _), hother, hs.input]
      simp only [product, hw]
    · rw [Function.update_of_ne ht, hsw t hb]
      exact if_congr (by omega) rfl rfl
  · simp only [Function.update_of_ne hqp]
    exact hs.swept q hq hdq w hw t hb

/-- **A worker writes its block**, which is right. -/
theorem reattach {d : Contents} (hst : st.Copies lay) (hs : Multiplied lay x₀ steps s)
    (hp : p < lay.hwconc) (hd : s.detached p = true) (ht : s.Through lay (foreachChain steps) p)
    (ha : s.attached st lay (foreachChain steps) p = .ok d) :
    Multiplied lay x₀ steps { s with
      data := Function.update s.data (.result (s.done p)) d
      detached := Function.update s.detached p false
      done := Function.update s.done p (s.done p + 1) } := by
  obtain ⟨splt, hok, hright⟩ := hs.attached hst hp hd ht
  rw [hok] at ha
  cases ha
  have hother : ∀ q, q ≠ p → (Function.update s.done p (s.done p + 1)) q = s.done q ∧
      (Function.update s.detached p false) q = s.detached q :=
    fun q hqp => ⟨Function.update_of_ne hqp _ _, Function.update_of_ne hqp _ _⟩
  have hnot : ∀ q, (Function.update s.detached p false) q = true → q ≠ p := by
    rintro q hq rfl
    rw [Function.update_self] at hq
    exact nomatch hq
  refine ⟨hs.stopped, hs.input, hs.contended, fun q hq hdq => ?_, fun q hq hdq => ?_,
    fun q hq k hk t hb => ?_⟩
  · obtain ⟨hdone, hdet⟩ := hother q (hnot q hdq)
    dsimp only at hdq ⊢
    rw [hdet] at hdq
    rw [hdone]
    exact hs.used q hq hdq
  · obtain ⟨hdone, hdet⟩ := hother q (hnot q hdq)
    dsimp only at hdq ⊢
    rw [hdet] at hdq
    rw [hdone]
    exact hs.swept q hq hdq
  · dsimp only at hk ⊢
    by_cases hkp : k = s.done p
    · subst hkp
      rw [Function.update_self]
      by_cases hqp : q = p
      · rw [hqp] at hb
        rw [assignRange_block hb]
        exact hright t hb
      · rw [(hother q hqp).1] at hk
        rw [assignRange_other fun hb' => hqp (Layout.block_unique hb hb')]
        exact hs.written q hq _ hk t hb
    · have hne : Ref.result k ≠ .result (s.done p) := fun h => by
        cases h
        exact hkp rfl
      rw [Function.update_of_ne hne]
      refine hs.written q hq k ?_ t hb
      by_cases hqp : q = p
      · rw [hqp, Function.update_self] at hk
        rw [hqp]
        omega
      · rwa [(hother q hqp).1] at hk

/-- **One step**, whoever takes it. -/
theorem moves (hst : st.Copies lay) (hc : s.Coherent lay) (hs : Multiplied lay x₀ steps s)
    (h : s.Moves st lay (foreachChain steps) act s') : Multiplied lay x₀ steps s' := by
  cases h with
  | call => exact hs.call hc
  | detach hp => exact hs.detach hp
  | sweep hp hd ho hne hcell => exact hs.sweep hc hp hd ho hne hcell
  | reattach hp hd ht ha => exact hs.reattach hst hp hd ht ha
  | @resolve k scan d c hdue hr =>
    rw [hs.resolution scan] at hr
    cases hr
    have hsame : Function.update s.data (.result k) (s.data (.result k)) = s.data :=
      Function.update_eq_self _ _
    refine ⟨hs.stopped, ?_, fun r => ?_, hs.used, hs.swept, ?_⟩
    · rw [hsame]
      exact hs.input
    · dsimp only
      by_cases hr : r = .result k
      · rw [hr, Function.update_self]
      · rw [Function.update_of_ne hr]
        exact hs.contended r
    · rw [hsame]
      exact hs.written
  | sweepStop hp hd ho hne hcell => exact absurd hcell (hc.not_sweepStop hp hd hne)
  | reattachStop hp hd ht ha =>
    obtain ⟨splt, hok, -⟩ := hs.attached hst hp hd ht
    rw [hok] at ha
    exact nomatch ha
  | @resolveStop k scan e hdue hr =>
    rw [hs.resolution scan] at hr
    exact nomatch hr

end Multiplied

end Contentious.Cont
