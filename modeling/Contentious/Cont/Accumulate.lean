import Contentious.Common.Machine
import Contentious.Cont.Fold
import Mathlib.Tactic.Abel

/-!
# Cont — accumulating at one element

Steps `0, 1, 2, …`, each frozen from the one before with `onto` set: it
starts as a copy of what that holds at the time, and every worker then
adds its own increment at one element of it, the `locus`. The step before
may still be receiving increments of its own. Those that reach it before
the freeze are in the copy, and those that reach it after are in the
difference between `_orig` and `_data` that the resolution adds: so each
increment reaches every later step once, as long as the indices that differ
are an `int32_t` (`accumulate_lossless`). From a size of `2 ^ 31` on no
resolution goes through (`accumulate_stops`).
-/

namespace Contentious.Cont

/-- What is accumulated, by whom and where. -/
structure Accumulation (T : Type) where
  hwconc : ℕ
  size : ℕ
  locus : ℤ
  locus_nonneg : 0 ≤ locus
  locus_lt : locus < size
  op : Op T
  isGroup : op.IsGroup
  /-- the increment of worker `p` in step `t` -/
  d : ℕ → ℕ → T

/-- The steps so far. -/
structure Steps (T : Type) where
  /-- the number of the last step -/
  created : ℕ
  data : ℕ → ℤ → T
  orig : ℕ → ℤ → T
  /-- `_used[p]` in the tracker of the `t`-th step -/
  used : ℕ → ℕ → ℤ → T
  /-- whether worker `p` is between its detach and its reattach -/
  detached : ℕ → Bool
  /-- the tasks worker `p` is done with -/
  done : ℕ → ℕ
  /-- the number of the last step that is resolved onto -/
  resolved : ℕ
  /-- what stopped the program -/
  stopped : Option Fault

/-- What can happen next. -/
inductive StepAct
  /-- the next step is made, and frozen from the last -/
  | freeze
  | detach (p : ℕ)
  /-- the worker adds its increment and reattaches -/
  | reattach (p : ℕ)
  /-- the resolution that is due, by the indices it visits -/
  | resolve (scan : List ℤ)
deriving DecidableEq, Repr

namespace Steps

variable {T : Type}

/-- `steps[t].freeze(steps[t+1], alltoone<locus>, op, true)` -/
def freeze (s : Steps T) : Steps T :=
  let t := s.created
  { s with
    created := t + 1
    orig := Function.update s.orig t (s.data t)
    data := Function.update s.data (t + 1) (s.data t) }

/-- The worker's splinter starts from `_orig`. -/
def detach (s : Steps T) (p : ℕ) : Steps T :=
  let t := s.done p
  { s with
    used := Function.update s.used t (Function.update (s.used t) p (s.orig t))
    detached := Function.update s.detached p true }

variable [DecidableEq T] (acc : Accumulation T)

/-- `splt.mut_comp(locus, d)`, and `reattach(splt, next, p, locus, locus + 1)` -/
def reattach (s : Steps T) (p : ℕ) : Steps T :=
  let t := s.done p
  let used := s.used t p
  let splt := Function.update used acc.locus (acc.op.f (used acc.locus) (acc.d t p))
  { s with
    data := Function.update s.data (t + 1)
      (joinRange acc.op splt used (s.data (t + 1)) acc.locus (acc.locus + 1))
    detached := Function.update s.detached p false
    done := Function.update s.done p (t + 1) }

/-- `resolve` of the next step, which it writes at the locus. -/
def resolve (s : Steps T) (scan : List ℤ) : Steps T :=
  let t := s.resolved
  match resolveLoop acc.size acc.op (s.orig t) (s.data t) scan
      (s.data (t + 1) (alltoone acc.locus 0)) with
  | .error e => { s with stopped := some e }
  | .ok target =>
    { s with
      data := Function.update s.data (t + 1)
        (Function.update (s.data (t + 1)) (alltoone acc.locus 0) target)
      resolved := t + 1 }

/-- The latch of the next step is at zero. -/
def Due (s : Steps T) : Prop :=
  s.resolved < s.created ∧ ∀ p < acc.hwconc, s.resolved < s.done p

omit [DecidableEq T] in
instance (s : Steps T) : Decidable (s.Due acc) := inferInstanceAs (Decidable (_ ∧ _))

/-- The first step, of which nothing has been asked. -/
def start (x₀ : ℤ → T) : Steps T where
  created := 0
  data := fun _ => x₀
  orig := fun _ => x₀
  used := fun _ _ => x₀
  detached := fun _ => false
  done := fun _ => 0
  resolved := 0
  stopped := none

end Steps

namespace Accumulation

variable {T : Type} [DecidableEq T] (acc : Accumulation T)

/-- The main thread and the workers, taking turns. -/
def pipeline : Machine (Steps T) StepAct where
  step := fun s act =>
    if s.stopped.isSome then none
    else
      match act with
      | .freeze => some s.freeze
      | .detach p =>
        if p < acc.hwconc ∧ s.detached p = false ∧ s.done p < s.created then some (s.detach p)
        else none
      | .reattach p =>
        if p < acc.hwconc ∧ s.detached p = true then some (s.reattach acc p) else none
      | .resolve scan =>
        if s.Due acc ∧
            (acc.size < 2 ^ 31 → Scan acc.size (s.orig s.resolved) (s.data s.resolved) scan) then
          some (s.resolve acc scan)
        else none

omit [DecidableEq T] in
/-- **What step `t` is to hold at the locus**: all the increments before
it, one after the other. -/
def value (x : T) : ℕ → T
  | 0 => x
  | t + 1 => (List.range acc.hwconc).foldl (fun x p => acc.op.f x (acc.d t p)) (value x t)

end Accumulation

/-! ## The invariant -/

section

variable {T : Type} [AddCommGroup T] {acc : Accumulation T} {x₀ : ℤ → T} {s s' : Steps T} {p t : ℕ}

/-- The increments that have reached the step after `t` from its own
workers. -/
def Steps.arrived (acc : Accumulation T) (s : Steps T) (t : ℕ) : T :=
  ∑ p ∈ Finset.range acc.hwconc, if t < s.done p then acc.d t p else 0

theorem Accumulation.value_succ (hop : acc.op = .group T) (x : T) (t : ℕ) :
    acc.value x (t + 1) = acc.value x t + ∑ p ∈ Finset.range acc.hwconc, acc.d t p := by
  have hfold : ∀ (n : ℕ) (x : T), (List.range n).foldl (fun x p => acc.op.f x (acc.d t p)) x =
      x + ∑ p ∈ Finset.range n, acc.d t p := by
    intro n x
    induction n with
    | zero => exact (add_zero x).symm
    | succ n ih =>
      rw [List.range_succ, List.foldl_append, ih, Finset.sum_range_succ, hop, ← add_assoc]
      rfl
  exact hfold _ _

/-- **What holds at every stage.** A step that is resolved has all its
increments; one that is not has those of its own workers that are done,
on top of what it was copied from. -/
structure Lossless (acc : Accumulation T) (x₀ : ℤ → T) (s : Steps T) : Prop where
  stopped : s.stopped = none
  done_le : ∀ p < acc.hwconc, s.done p ≤ s.created
  holding : ∀ p < acc.hwconc, s.detached p = true →
    s.done p < s.created ∧ s.used (s.done p) p = s.orig (s.done p)
  resolved_le : s.resolved ≤ s.created
  resolved_done : ∀ p < acc.hwconc, s.resolved ≤ s.done p
  settled : ∀ t ≤ s.resolved, s.data t acc.locus = acc.value (x₀ acc.locus) t
  pending : ∀ t ≥ s.resolved, t < s.created →
    s.data (t + 1) acc.locus = s.orig t acc.locus + s.arrived acc t
  others : ∀ t < s.created, ∀ c ≠ acc.locus, s.data t c = s.orig t c

namespace Lossless

theorem start (acc : Accumulation T) (x₀ : ℤ → T) : Lossless acc x₀ (.start x₀) where
  stopped := rfl
  done_le _ _ := le_rfl
  holding _ _ h := nomatch h
  resolved_le := le_rfl
  resolved_done _ _ := le_rfl
  settled t ht := by rw [Nat.le_zero.1 ht]; rfl
  pending _ _ h := absurd h (Nat.not_lt_zero _)
  others _ h := absurd h (Nat.not_lt_zero _)

/-- A step more: no worker is done with it. -/
theorem freeze (hs : Lossless acc x₀ s) : Lossless acc x₀ s.freeze := by
  have hdata : ∀ t, t ≠ s.created + 1 → s.freeze.data t = s.data t :=
    fun t ht => Function.update_of_ne ht _ _
  have horig : ∀ t, t ≠ s.created → s.freeze.orig t = s.orig t :=
    fun t ht => Function.update_of_ne ht _ _
  have hcopy : s.freeze.data (s.created + 1) = s.data s.created := Function.update_self ..
  have hfrozen : s.freeze.orig s.created = s.data s.created := Function.update_self ..
  refine ⟨hs.stopped, fun p hp => le_trans (hs.done_le p hp) (Nat.le_succ _), fun p hp hd => ?_,
    le_trans hs.resolved_le (Nat.le_succ _), hs.resolved_done, fun t ht => ?_, fun t ht hlt => ?_,
    fun t hlt c hc => ?_⟩
  · obtain ⟨hlt, hused⟩ := hs.holding p hp hd
    exact ⟨Nat.lt_succ_of_lt hlt, hused.trans (horig _ (ne_of_lt hlt)).symm⟩
  · have hres := hs.resolved_le
    have ht' : t ≤ s.resolved := ht
    rw [hdata t (by omega)]
    exact hs.settled t ht
  · have hlt' : t < s.created + 1 := hlt
    by_cases heq : t = s.created
    · have hnone : s.freeze.arrived acc t = 0 := by
        refine Finset.sum_eq_zero fun p hp => if_neg ?_
        have := hs.done_le p (Finset.mem_range.1 hp)
        change ¬ t < s.done p
        omega
      rw [hnone, add_zero, heq, hcopy, hfrozen]
    · rw [hdata (t + 1) (by omega), horig t heq]
      exact hs.pending t ht (by omega)
  · have hlt' : t < s.created + 1 := hlt
    rw [hdata t (by omega)]
    by_cases heq : t = s.created
    · rw [heq, hfrozen]
    · rw [horig t heq]
      exact hs.others t (by omega) c hc

theorem detach (hs : Lossless acc x₀ s) (hlt : s.done p < s.created) :
    Lossless acc x₀ (s.detach p) := by
  refine ⟨hs.stopped, hs.done_le, fun q hq hd => ?_, hs.resolved_le, hs.resolved_done, hs.settled,
    hs.pending, hs.others⟩
  simp only [Steps.detach] at hd ⊢
  by_cases hqp : q = p
  · rw [hqp, Function.update_self, Function.update_self]
    exact ⟨hlt, rfl⟩
  · rw [Function.update_of_ne hqp] at hd
    obtain ⟨hlt', hused⟩ := hs.holding q hq hd
    refine ⟨hlt', ?_⟩
    by_cases hk : s.done q = s.done p
    · rw [hk, Function.update_self, Function.update_of_ne hqp, ← hk]
      exact hused
    · rw [Function.update_of_ne hk]
      exact hused

/-- The sum of a step has changed at the locus only. -/
theorem sum_sub (hs : Lossless acc x₀ s) (ht : t < s.created) :
    sumRange (s.data t) 0 acc.size - sumRange (s.orig t) 0 acc.size =
      s.data t acc.locus - s.orig t acc.locus := by
  rw [sumRange_eq_sum (s.data t) fun c => Finset.mem_Ico,
    sumRange_eq_sum (s.orig t) fun c => Finset.mem_Ico,
    ← Finset.sum_sub_distrib]
  refine Finset.sum_eq_single acc.locus (fun c _ hc => ?_) fun hout => ?_
  · rw [hs.others t ht c hc, sub_self]
  · exact absurd (Finset.mem_Ico.2 ⟨acc.locus_nonneg, acc.locus_lt⟩) hout

variable [DecidableEq T]

/-- **A worker's increment arrives.** -/
theorem reattach (hop : acc.op = .group T) (hs : Lossless acc x₀ s) (hp : p < acc.hwconc)
    (hd : s.detached p = true) : Lossless acc x₀ (s.reattach acc p) := by
  obtain ⟨hlt, hused⟩ := hs.holding p hp hd
  have hres := hs.resolved_done p hp
  have hdone : ∀ q, (s.reattach acc p).done q = if q = p then s.done p + 1 else s.done q :=
    fun q => Function.update_apply ..
  have hother : ∀ t, t ≠ s.done p + 1 → (s.reattach acc p).data t = s.data t :=
    fun t ht => Function.update_of_ne ht _ _
  have hjoin : (s.reattach acc p).data (s.done p + 1) =
    Function.update (s.data (s.done p + 1)) acc.locus
      (s.data (s.done p + 1) acc.locus + acc.d (s.done p) p) := by
    simp only [Steps.reattach, Function.update_self, hop, joinRange_group]
    rw [Op.group]
    simp only [add_sub_cancel_left]
  have hnew : (s.reattach acc p).data (s.done p + 1) acc.locus =
      s.data (s.done p + 1) acc.locus + acc.d (s.done p) p := by
    rw [hjoin, Function.update_self]
  refine ⟨hs.stopped, fun q hq => ?_, fun q hq hdq => ?_, hs.resolved_le, fun q hq => ?_,
    fun t ht => ?_, fun t ht hlt' => ?_, fun t hlt' c hc => ?_⟩
  · rw [hdone]
    split
    · exact hlt
    · exact hs.done_le q hq
  · by_cases hqp : q = p
    · rw [hqp] at hdq
      simp only [Steps.reattach, Function.update_self] at hdq
      cases hdq
    · simp only [Steps.reattach, Function.update_of_ne hqp] at hdq ⊢
      exact hs.holding q hq hdq
  · have := hs.resolved_done q hq
    have hsame : (s.reattach acc p).resolved = s.resolved := rfl
    rw [hdone, hsame]
    split <;> omega
  · have ht' : t ≤ s.resolved := ht
    rw [hother t (by omega)]
    exact hs.settled t ht
  · have horig : (s.reattach acc p).orig = s.orig := rfl
    by_cases heq : t = s.done p
    · -- the sum has one increment more
      have harr : (s.reattach acc p).arrived acc t = s.arrived acc t + acc.d t p := by
        have hterm : ∀ q ∈ Finset.range acc.hwconc,
          (if t < (s.reattach acc p).done q then acc.d t q else 0) =
            (if t < s.done q then acc.d t q else 0) + if q = p then acc.d t p else 0 := by
          intro q _
          rw [hdone]
          by_cases hqp : q = p
          · rw [hqp, if_pos rfl, if_pos rfl, if_pos (by omega), if_neg (by omega), zero_add]
          · rw [if_neg hqp, if_neg hqp, add_zero]
        rw [Steps.arrived, Finset.sum_congr rfl hterm, Finset.sum_add_distrib, Finset.sum_ite_eq',
          if_pos (Finset.mem_range.2 hp), Steps.arrived]
      have hold := hs.pending t ht hlt'
      rw [heq] at hold harr ⊢
      rw [hnew, horig, harr, hold, add_assoc]
    · have harr : (s.reattach acc p).arrived acc t = s.arrived acc t := by
        refine Finset.sum_congr rfl fun q _ => if_congr ?_ rfl rfl
        rw [hdone]
        split
        · next hqp =>
          rw [hqp]
          omega
        · exact Iff.rfl
      rw [hother (t + 1) (by omega), horig, harr]
      exact hs.pending t ht hlt'
  · have hold := hs.others t hlt' c hc
    by_cases heq : t = s.done p + 1
    · rw [heq] at hold ⊢
      rw [hjoin, Function.update_of_ne hc]
      exact hold
    · rw [hother t heq]
      exact hold

/-- **A resolution brings the increments that came after the freeze.** -/
theorem resolve (hsmall : acc.size < 2 ^ 31) (hop : acc.op = .group T) (hs : Lossless acc x₀ s)
    (hdue : s.Due acc) {scan : List ℤ}
    (hscan : Scan acc.size (s.orig s.resolved) (s.data s.resolved) scan) :
    Lossless acc x₀ (s.resolve acc scan) := by
  obtain ⟨hlt, hall⟩ := hdue
  have hre : s.resolve acc scan = { s with
      data := Function.update s.data (s.resolved + 1)
        (Function.update (s.data (s.resolved + 1)) acc.locus
          (acc.value (x₀ acc.locus) (s.resolved + 1)))
      resolved := s.resolved + 1 } := by
    have harr : s.arrived acc s.resolved = ∑ p ∈ Finset.range acc.hwconc, acc.d s.resolved p :=
      Finset.sum_congr rfl fun p hp => if_pos (hall p (Finset.mem_range.1 hp))
    have hloc : alltoone acc.locus 0 = acc.locus := rfl
    have htarget : resolveOnto acc.op (s.orig s.resolved) (s.data s.resolved) scan
        (s.data (s.resolved + 1) acc.locus) = acc.value (x₀ acc.locus) (s.resolved + 1) := by
      rw [hop, resolveOnto_group hscan, hs.sum_sub hlt, hs.pending _ le_rfl hlt, harr,
        acc.value_succ hop, hs.settled _ le_rfl]
      abel
    simp only [Steps.resolve, hloc, resolveLoop_of_lt hsmall, htarget]
  rw [hre]
  have hother : ∀ t, t ≠ s.resolved + 1 → Function.update s.data (s.resolved + 1)
      (Function.update (s.data (s.resolved + 1)) acc.locus
        (acc.value (x₀ acc.locus) (s.resolved + 1))) t = s.data t :=
    fun t ht => Function.update_of_ne ht _ _
  refine ⟨hs.stopped, hs.done_le, hs.holding, hlt, hall, fun t ht => ?_, fun t ht hlt' => ?_,
    fun t hlt' c hc => ?_⟩
  · by_cases heq : t = s.resolved + 1
    · simp only [heq, Function.update_self]
    · have ht' : t ≤ s.resolved + 1 := ht
      dsimp only
      rw [hother t heq]
      exact hs.settled t (by omega)
  · have ht' : s.resolved + 1 ≤ t := ht
    dsimp only
    rw [hother (t + 1) (by omega)]
    exact hs.pending t (by omega) hlt'
  · have hold := hs.others t hlt' c hc
    dsimp only
    by_cases heq : t = s.resolved + 1
    · rw [heq] at hold ⊢
      rw [Function.update_self, Function.update_of_ne hc]
      exact hold
    · rw [hother t heq]
      exact hold

/-- **One step**, whoever takes it. -/
theorem step (hsmall : acc.size < 2 ^ 31) (hop : acc.op = .group T) {act : StepAct}
    (hs : Lossless acc x₀ s) (he : acc.pipeline.step s act = some s') : Lossless acc x₀ s' := by
  have hgo : ¬ s.stopped.isSome := by rw [hs.stopped]; exact Bool.false_ne_true
  simp only [Accumulation.pipeline, if_neg hgo] at he
  cases act with
  | freeze => cases he; exact hs.freeze
  | detach p =>
    obtain ⟨⟨-, -, hlt⟩, he⟩ := Option.ite_none_right_eq_some.1 he
    cases he
    exact hs.detach hlt
  | reattach p =>
    obtain ⟨⟨hp, hd⟩, he⟩ := Option.ite_none_right_eq_some.1 he
    cases he
    exact hs.reattach hop hp hd
  | resolve scan =>
    obtain ⟨⟨hdue, hscan⟩, he⟩ := Option.ite_none_right_eq_some.1 he
    cases he
    exact hs.resolve hsmall hop hdue (hscan hsmall)

end Lossless

end

section

variable {T : Type} [DecidableEq T] {acc : Accumulation T} {s s' : Steps T}

/-- Of `2 ^ 31` elements or more, no step resolves anything. -/
theorem Steps.resolved_step (hlarge : 2 ^ 31 ≤ acc.size) {act : StepAct}
    (he : acc.pipeline.step s act = some s') : s'.resolved = s.resolved := by
  simp only [Accumulation.pipeline] at he
  obtain ⟨-, he⟩ := Option.ite_none_left_eq_some.1 he
  cases act with
  | freeze => cases he; rfl
  | detach p =>
    obtain ⟨-, he⟩ := Option.ite_none_right_eq_some.1 he
    cases he
    rfl
  | reattach p =>
    obtain ⟨-, he⟩ := Option.ite_none_right_eq_some.1 he
    cases he
    rfl
  | resolve scan =>
    obtain ⟨-, he⟩ := Option.ite_none_right_eq_some.1 he
    cases he
    simp only [Steps.resolve, resolveLoop_of_le hlarge]

end

/-- **No update is lost, and none comes twice.** Whatever the order in
which the main thread freezes and the workers and resolutions run, with fewer
than `2 ^ 31` elements nothing stops, and a step that is resolved holds at the
locus the first step's element with all the increments before it. With more,
no step is ever resolved. -/
theorem accumulate_lossless {T : Type} [DecidableEq T] (acc : Accumulation T) (x₀ : ℤ → T)
    {acts : List StepAct} {s : Steps T} (h : acc.pipeline.run (.start x₀) acts = some s) :
    (acc.size < 2 ^ 31 →
      s.stopped = none ∧ ∀ t ≤ s.resolved, s.data t acc.locus = acc.value (x₀ acc.locus) t) ∧
    (2 ^ 31 ≤ acc.size → s.resolved = 0) := by
  constructor
  · intro hsmall
    -- in the group of its operator
    let _ := acc.isGroup.toAddCommGroup
    have hop : acc.op = .group T := rfl
    have hs := acc.pipeline.run_invariant (I := Lossless acc x₀)
      (fun _ _ _ hs he => hs.step hsmall hop he) (.start acc x₀) h
    exact ⟨hs.stopped, hs.settled⟩
  · intro hlarge
    exact acc.pipeline.run_invariant (I := fun s => s.resolved = 0)
      (fun _ _ _ hs he => (Steps.resolved_step hlarge he).trans hs) rfl h

/-- Two workers and two steps, the second frozen while worker 0 is done
with the first and worker 1 is not. -/
theorem accumulate_lossless_two :
    let acc : Accumulation ℤ :=
      ⟨2, 4, 3, by decide, by decide, ⟨0, fun a b => a + b, fun a b => a - b⟩,
      ⟨Int.add_assoc, Int.add_comm, Int.zero_add, Int.sub_add_cancel⟩, fun t p => 10 * t + p + 1⟩
    ∃ s, acc.pipeline.run (.start id) [.freeze, .detach 0, .detach 1, .reattach 0, .freeze,
        .detach 0, .reattach 1, .reattach 0, .detach 1, .reattach 1, .resolve [],
        .resolve [2, 3]] = some s ∧
      s.resolved = 2 ∧ s.stopped = none ∧ ∀ t ≤ s.resolved, s.data t 3 = acc.value 3 t := by
  intro acc
  have hend : (acc.pipeline.run (.start id) [.freeze, .detach 0, .detach 1, .reattach 0, .freeze,
      .detach 0, .reattach 1, .reattach 0, .detach 1, .reattach 1, .resolve [],
      .resolve [2, 3]]).map (fun s => s.resolved) = some 2 := by decide +kernel
  obtain ⟨s, hrun, hs⟩ := Option.map_eq_some_iff.1 hend
  exact ⟨s, hrun, hs, (accumulate_lossless acc id hrun).1 (by decide)⟩

/-- **A step that cannot be resolved.** One worker adds 1 at element 0 of a
vector of `2 ^ 31`, twice, both steps being made before. The second is without
the first increment; but the loop of the resolution, which is due, does not
find its end. -/
theorem accumulate_stops :
    let acc : Accumulation ℤ :=
      ⟨1, 2 ^ 31, 0, by decide, by decide, ⟨0, fun a b => a + b, fun a b => a - b⟩,
      ⟨Int.add_assoc, Int.add_comm, Int.zero_add, Int.sub_add_cancel⟩, fun _ _ => 1⟩
    ∃ s s', acc.pipeline.run (.start fun _ => 0)
        [.freeze, .freeze, .detach 0, .reattach 0, .detach 0, .reattach 0] = some s ∧
      s.Due acc ∧ acc.pipeline.step s (.resolve []) = some s' ∧ s'.stopped = some .overflow ∧
      s'.resolved = 0 ∧ s'.data 2 0 = 1 ∧ acc.value 0 2 = 2 := by
  intro acc
  have hend : (acc.pipeline.run (.start fun _ => 0)
      [.freeze, .freeze, .detach 0, .reattach 0, .detach 0, .reattach 0]).map
      (fun s => (s.resolved, s.created, s.done 0, s.stopped, s.data 2 0)) =
      some (0, 2, 2, none, 1) := by decide +kernel
  obtain ⟨s, hrun, hs⟩ := Option.map_eq_some_iff.1 hend
  simp only [Prod.mk.injEq] at hs
  obtain ⟨hres, hcreated, hdone, hgo, hdata⟩ := hs
  have hdue : s.Due acc := by
    refine ⟨by omega, fun p hp => ?_⟩
    have hp' : p < 1 := hp
    obtain rfl : p = 0 := by omega
    omega
  have hlarge : ¬ acc.size < 2 ^ 31 := lt_irrefl _
  have hstep : acc.pipeline.step s (.resolve []) = some { s with stopped := some .overflow } := by
    simp only [Accumulation.pipeline, hgo, Option.isSome_none, Bool.false_eq_true, if_false]
    rw [if_pos ⟨hdue, fun h => absurd h hlarge⟩]
    simp only [Steps.resolve, resolveLoop_of_le (not_lt.1 hlarge)]
  exact ⟨s, _, hrun, hdue, hstep, rfl, hres, hdata, by decide⟩

end Contentious.Cont
