import Contentious.Cont.Operand

/-!
# Cont — a call on settled vectors

The vectors a call is made on may be settled: the main thread has filled
them, and no call writes them. Then every worker reads what was there at
the call (`Reading`), and the call is told by two things: what the result
holds when some of the workers are done with it, and whether its resolution
goes through (`Settles`). From these a run that the call is over in is told
(`Worked`), whatever else the program does.
-/

namespace Contentious.Cont

namespace Call

/-- The call, made on the vectors that the main thread has filled. -/
def onInputs : Call ℕ → Call Ref
  | foreach op src val => foreach op (.input src) val
  | foreachCvec op src other => foreachCvec op (.input src) (.input other)
  | stencil src offs coeffs => stencil (.input src) offs coeffs
  | reduce op src => reduce op (.input src)

theorem src_onInputs (c : Call ℕ) : c.onInputs.src = .input c.src := by
  cases c <;> rfl

theorem other_onInputs (c : Call ℕ) : c.onInputs.other = c.other.map .input := by
  cases c <;> rfl

end Call

variable [BpBits] {st : Storage}
variable {lay : Layout} {prog : Program} {s t : Runtime} {act : RunAct} {p q k m : ℕ}
variable {x₀ : ℕ → Contents} {c₀ : ℕ → SortedSet ℤ} {c : Call ℕ}

namespace Runtime

/-- The workers that are done with the call. -/
def finished (lay : Layout) (s : Runtime) (m : ℕ) : Finset ℕ :=
  (Finset.range lay.hwconc).filter fun p => m < s.done p

/-- The call is resolved, or has stopped the program. -/
def Over (s : Runtime) (m : ℕ) : Prop := s.resolved m = true ∨ ∃ e, s.stopped = some (m, e)

/-- **What is read by call `m`** is what the settled vectors hold. -/
structure Reading (lay : Layout) (prog : Program) (x₀ : ℕ → Contents) (c₀ : ℕ → SortedSet ℤ)
    (m : ℕ) (c : Call ℕ) (s : Runtime) : Prop where
  inputs : ∀ j, s.data (.input j) = x₀ j
  contended : ∀ j, s.contended (.input j) = c₀ j
  orig : m < s.created → isMonotonic (prog.call m).first.imap = false →
    s.orig (.input c.src) = x₀ c.src
  used : ∀ p < lay.hwconc, s.HasRead p m → s.used m p = x₀ c.src
  frozen : m < s.created → s.frozen m = (prog.call m).frozen ∨
    s.resolved m = true ∧ s.frozen m = []
  swept : ∀ j, c.other = some j → ∀ p < lay.hwconc, s.detached p = true → s.done p = m →
    ∀ t, lay.InBlock p t → (s.splt p).data t =
      if t < (s.splt p).it then x₀ c.src t * x₀ j t else x₀ c.src t

namespace Reading

omit [BpBits] in
theorem start (lay : Layout) (prog : Program) (x₀ : ℕ → Contents) (c₀ : ℕ → SortedSet ℤ) (m : ℕ)
    (c : Call ℕ) : Reading lay prog x₀ c₀ m c (.start x₀ c₀) where
  inputs _ := rfl
  contended _ := rfl
  orig h _ := absurd h (Nat.not_lt_zero _)
  used _ _ h := h.elim (fun h => absurd h (Nat.not_lt_zero _)) fun h => nomatch h.2
  frozen h := absurd h (Nat.not_lt_zero _)
  swept _ _ _ _ h := nomatch h

omit [BpBits] in
/-- A call that freezes nothing has nothing frozen. -/
theorem frozen_nil (hs : Reading lay prog x₀ c₀ m c s) (hlt : m < s.created)
    (hfrozen : (prog.call m).frozen = []) : s.frozen m = [] := by
  rcases hs.frozen hlt with hf | ⟨-, hf⟩
  · rw [hf, hfrozen]
  · exact hf

omit [BpBits] in
theorem call (hm : prog.call m = c.onInputs) (hs : Reading lay prog x₀ c₀ m c s) :
    Reading lay prog x₀ c₀ m c (s.call prog) := by
  have hne : ∀ j, Ref.input j ≠ .result s.created := by
    rintro j ⟨⟩
  refine ⟨fun j => ?_, fun j => ?_, fun hlt hfold => ?_, hs.used, fun hlt => ?_, hs.swept⟩
  · simp only [Runtime.call, Function.update_of_ne (hne j)]
    exact hs.inputs j
  · simp only [Runtime.call, Function.update_of_ne (hne j)]
    exact hs.contended j
  · have hlt' : m < s.created + 1 := hlt
    simp only [Runtime.call]
    by_cases hsrc : (prog.call s.created).src = .input c.src
    · -- whoever freezes the vector finds the same
      split
      · next hmono =>
        refine hs.orig (Nat.lt_of_le_of_ne (Nat.le_of_lt_succ hlt') fun h => ?_) hfold
        rw [← h, hfold] at hmono
        cases hmono
      · rw [hsrc, Function.update_self]
        exact hs.inputs c.src
    · have hold : m < s.created := Nat.lt_of_le_of_ne (Nat.le_of_lt_succ hlt') fun h => hsrc (by
        rw [← h, hm, c.src_onInputs])
      split
      · exact hs.orig hold hfold
      · rw [Function.update_of_ne (Ne.symm hsrc)]
        exact hs.orig hold hfold
  · have hlt' : m < s.created + 1 := hlt
    simp only [Runtime.call, Function.update_apply]
    split
    · next h => exact .inl (by rw [h])
    · next h => exact hs.frozen (by omega)

theorem detach (hm : prog.call m = c.onInputs) (hs : Reading lay prog x₀ c₀ m c s)
    (hp : p < lay.hwconc) (hd : s.detached p = false) (hlt : s.done p < s.created) :
    Reading lay prog x₀ c₀ m c (s.detach lay prog p) := by
  have hmoves : s.Moves .exact lay prog (.detach p) (s.detach lay prog p) := .detach hp hd hlt
  have hnew : s.done p = m → (s.detach lay prog p).used m p = x₀ c.src ∧
      (s.detach lay prog p).splt p = ⟨x₀ c.src, lay.a p, lay.a p⟩ := by
    rintro rfl
    have hread : (if isMonotonic (prog.call (s.done p)).first.imap then
        s.data (prog.call (s.done p)).src else s.orig (prog.call (s.done p)).src) = x₀ c.src := by
      rw [hm, c.src_onInputs]
      split
      · exact hs.inputs c.src
      · next hfold => exact hs.orig hlt (by rw [hm]; simpa using hfold)
    exact ⟨by simp only [Runtime.detach, Function.update_self, hread],
      by simp only [Runtime.detach, Function.update_self, hread, cvecStart_eq hp]⟩
  refine ⟨hs.inputs, hs.contended, hs.orig, fun q hq hr => ?_, hs.frozen,
    fun j hj q hq hdq hk t hb => ?_⟩
  · rcases hmoves.hasRead_or hr with hr' | ⟨hact, hk⟩
    · rw [hmoves.used hr']
      exact hs.used q hq hr'
    · cases hact
      exact (hnew hk.symm).1
  · by_cases hqp : q = p
    · subst hqp
      rw [(hnew hk).2]
      exact (if_neg (not_lt.2 hb.1)).symm
    · simp only [Runtime.detach, Function.update_of_ne hqp] at hdq hk ⊢
      exact hs.swept j hj q hq hdq hk t hb

omit [BpBits] in
theorem sweep {other : Ref} {splt : Sweep} (hm : prog.call m = c.onInputs)
    (hc : Coherent lay s) (hs : Reading lay prog x₀ c₀ m c s) (hp : p < lay.hwconc)
    (hd : s.detached p = true) (ho : (prog.call (s.done p)).other = some other)
    (hne : (s.splt p).it ≠ cvecEnd lay p)
    (hcell : cvecCell lay (s.data other) (s.splt p) = .ok splt) :
    Reading lay prog x₀ c₀ m c { s with splt := Function.update s.splt p splt } := by
  obtain ⟨hin, hok⟩ := cvecCell_spec (s.data other) hp (hc.cell p hp hd) hne
  rw [hok] at hcell
  cases hcell
  refine ⟨hs.inputs, hs.contended, hs.orig, hs.used, hs.frozen, fun j hj q hq hdq hk t hb => ?_⟩
  by_cases hqp : q = p
  · subst hqp
    have hk' : s.done q = m := hk
    rw [hk', hm, c.other_onInputs, hj, Option.map_some] at ho
    cases ho
    have hold := hs.swept j hj q hq hd hk' t hb
    have hcell := hs.swept j hj q hq hd hk' _ hin
    rw [if_neg (lt_irrefl _)] at hcell
    simp only [Function.update_self]
    by_cases ht : t = (s.splt q).it
    · rw [ht, Function.update_self, if_pos (Int.lt_succ _), hcell, hs.inputs]
    · rw [Function.update_of_ne ht, hold]
      exact if_congr (by omega) rfl rfl
  · simp only [Function.update_of_ne hqp]
    exact hs.swept j hj q hq hdq hk t hb

theorem moves (hm : prog.call m = c.onInputs) (hc : Coherent lay s)
    (hs : Reading lay prog x₀ c₀ m c s) (h : s.Moves st lay prog act t) :
    Reading lay prog x₀ c₀ m c t := by
  have hmoves := h
  have hne : ∀ j k, Ref.input j ≠ .result k := fun j k h => nomatch h
  cases h with
  | call => exact hs.call hm
  | detach hp hd hlt => exact hs.detach hm hp hd hlt
  | sweep hp hd ho hne hcell => exact hs.sweep hm hc hp hd ho hne hcell
  | @reattach p d hp hd ht ha =>
    refine ⟨fun j => ?_, hs.contended, hs.orig, fun q hq hr => ?_, hs.frozen,
      fun j hj q hq hdq hk t hb => ?_⟩
    · simp only [Function.update_of_ne (hne j _)]
      exact hs.inputs j
    · rcases hmoves.hasRead_or hr with hr' | ⟨hact, -⟩
      · exact hs.used q hq hr'
      · exact nomatch hact
    · have hqp : q ≠ p := by
        rintro rfl
        simp only [Function.update_self] at hdq
        exact nomatch hdq
      simp only [Function.update_of_ne hqp] at hdq hk
      exact hs.swept j hj q hq hdq hk t hb
  | @resolve k scan d c' hdue hr =>
    refine ⟨fun j => ?_, fun j => ?_, hs.orig, hs.used, fun hlt => ?_, hs.swept⟩
    · simp only [Function.update_of_ne (hne j _)]
      exact hs.inputs j
    · simp only [Function.update_of_ne (hne j _)]
      exact hs.contended j
    · by_cases hk : m = k
      · simp only [hk, Function.update_self]
        exact .inr ⟨trivial, trivial⟩
      · simp only [Function.update_of_ne hk]
        exact hs.frozen hlt
  | sweepStop => exact ⟨hs.inputs, hs.contended, hs.orig, hs.used, hs.frozen, hs.swept⟩
  | reattachStop => exact ⟨hs.inputs, hs.contended, hs.orig, hs.used, hs.frozen, hs.swept⟩
  | resolveStop => exact ⟨hs.inputs, hs.contended, hs.orig, hs.used, hs.frozen, hs.swept⟩

end Reading

/-! ## What the call does -/

/-- **How a call on settled vectors goes.** `W S d` is what its result holds
when the workers of `S` are done, whose loops go through, and `fine` that the
resolution does, which changes nothing then. -/
structure Settles (st : Storage) (lay : Layout) (prog : Program) (x₀ : ℕ → Contents)
    (c₀ : ℕ → SortedSet ℤ) (m : ℕ) (c : Call ℕ) (W : Finset ℕ → Contents → Prop) (fine : Prop) :
    Prop where
  fresh : ∀ data : Ref → Contents, W ∅ ((prog.call m).fresh data)
  attached : ∀ s, Reading lay prog x₀ c₀ m c s → ∀ p < lay.hwconc, s.detached p = true →
    s.done p = m → s.Through lay prog p → ∃ d, s.attached st lay prog p = .ok d ∧
      ∀ S, p ∉ S → W S (s.data (.result m)) → W (insert p S) d
  resolution : ∀ s scan, Reading lay prog x₀ c₀ m c s → s.Due lay prog m scan →
    (s.resolved m = true → fine) →
      (∃ contended, s.resolution lay prog m scan = .ok (s.data (.result m), contended) ∧ fine) ∨
      (∃ e, s.resolution lay prog m scan = .error e) ∧ ¬ fine

/-- **How far the call has come.** -/
structure Worked (lay : Layout) (m : ℕ) (W : Finset ℕ → Contents → Prop) (fine : Prop)
    (s : Runtime) : Prop where
  holds : m < s.created → W (s.finished lay m) (s.data (.result m))
  repairs : s.resolved m = true → fine
  stopped : ∀ e, s.stopped = some (m, e) → ¬ fine

variable {W : Finset ℕ → Contents → Prop} {fine : Prop}

omit [BpBits] in
/-- Who is done with a call, when a worker is done with its task. -/
theorem mem_finished_of_reattach {d : Contents} : q ∈ finished lay { s with
      data := Function.update s.data (.result (s.done p)) d
      detached := Function.update s.detached p false
      done := Function.update s.done p (s.done p + 1) } m ↔
    q ∈ s.finished lay m ∨ q < lay.hwconc ∧ q = p ∧ s.done p = m := by
  simp only [finished, Finset.mem_filter, Finset.mem_range, Function.update_apply]
  split
  · next h =>
    rw [h]
    omega
  · next h => simp [h]

theorem Worked.moves (hS : Settles st lay prog x₀ c₀ m c W fine) (hc : Coherent lay s)
    (hr : Reading lay prog x₀ c₀ m c s) (hs : Worked lay m W fine s)
    (h : s.Moves st lay prog act t) : Worked lay m W fine t := by
  have hne : ∀ k, k ≠ m → Ref.result m ≠ .result k := fun k hk h => hk (Ref.result.inj h).symm
  cases h with
  | call =>
    refine ⟨fun hlt => ?_, hs.repairs, hs.stopped⟩
    have hlt' : m < s.created + 1 := hlt
    by_cases hk : s.created = m
    · -- nobody is done with it
      have hnone : (s.call prog).finished lay m = ∅ := by
        refine Finset.filter_eq_empty_iff.2 fun p hp => ?_
        have := hc.done_le p (Finset.mem_range.1 hp)
        simp only [Runtime.call]
        omega
      rw [hnone]
      simp only [Runtime.call, hk, Function.update_self]
      exact hS.fresh s.data
    · simp only [Runtime.call, Function.update_of_ne (hne _ hk)]
      exact hs.holds (by omega)
  | detach hp hd hlt => exact ⟨hs.holds, hs.repairs, hs.stopped⟩
  | sweep hp hd ho hne hcell => exact ⟨hs.holds, hs.repairs, hs.stopped⟩
  | @reattach p d hp hd ht ha =>
    refine ⟨fun hlt => ?_, hs.repairs, hs.stopped⟩
    by_cases hk : s.done p = m
    · obtain ⟨d', ha', hW⟩ := hS.attached s hr p hp hd hk ht
      rw [ha] at ha'
      cases ha'
      have hset : finished lay { s with
          data := Function.update s.data (.result (s.done p)) d
          detached := Function.update s.detached p false
          done := Function.update s.done p (s.done p + 1) } m = insert p (s.finished lay m) := by
        ext q
        rw [mem_finished_of_reattach, Finset.mem_insert, or_comm]
        exact or_congr_left ⟨fun h => h.2.1, fun h => ⟨h ▸ hp, h, hk⟩⟩
      have hnot : p ∉ s.finished lay m := fun h => by
        have := (Finset.mem_filter.1 h).2
        omega
      rw [hset]
      simp only [hk, Function.update_self]
      exact hW _ hnot (hs.holds hlt)
    · have hset : finished lay { s with
          data := Function.update s.data (.result (s.done p)) d
          detached := Function.update s.detached p false
          done := Function.update s.done p (s.done p + 1) } m = s.finished lay m := by
        ext q
        rw [mem_finished_of_reattach]
        exact or_iff_left fun h => hk h.2.2
      rw [hset]
      simp only [Function.update_of_ne (hne _ hk)]
      exact hs.holds hlt
  | @resolve k scan d contended hdue hres =>
    by_cases hk : k = m
    · subst hk
      rcases hS.resolution s scan hr hdue hs.repairs with ⟨contended', he, hfine⟩ | ⟨⟨e, he⟩, -⟩
      · rw [hres] at he
        cases he
        refine ⟨fun hlt => ?_, fun _ => hfine, hs.stopped⟩
        simp only [Function.update_self]
        exact hs.holds hlt
      · rw [he] at hres
        cases hres
    · refine ⟨fun hlt => ?_, fun hres' => ?_, hs.stopped⟩
      · simp only [Function.update_of_ne (hne k hk)]
        exact hs.holds hlt
      · simp only [Function.update_of_ne (Ne.symm hk)] at hres'
        exact hs.repairs hres'
  | sweepStop hp hd ho hne hcell => exact absurd hcell (hc.not_sweepStop hp hd hne)
  | @reattachStop p e hp hd ht ha =>
    refine ⟨hs.holds, hs.repairs, fun e' he => ?_⟩
    cases he
    obtain ⟨d, hok, -⟩ := hS.attached s hr p hp hd rfl ht
    rw [hok] at ha
    cases ha
  | @resolveStop k scan e hdue hres =>
    refine ⟨hs.holds, hs.repairs, fun e' he hfine => ?_⟩
    cases he
    rcases hS.resolution s scan hr hdue hs.repairs with ⟨contended, hok, -⟩ | ⟨-, hnot⟩
    · rw [hok] at hres
      cases hres
    · exact hnot hfine

/-- **How a call on settled vectors ends**: it is resolved if and only if
the resolution goes through, and then its result holds what all workers have
made of it. -/
theorem over_iff (hm : prog.call m = c.onInputs) (hS : Settles st lay prog x₀ c₀ m c W fine)
    {acts : List RunAct} (h : (runtime st lay prog).run (.start x₀ c₀) acts = some s)
    (hover : s.Over m) : (s.resolved m = true ↔ fine) ∧
      (s.resolved m = true → W (Finset.range lay.hwconc) (s.data (.result m))) := by
  have hinv : Coherent lay s ∧ Reading lay prog x₀ c₀ m c s ∧ Worked lay m W fine s := by
    refine (runtime st lay prog).run_invariant (I := fun s => Coherent lay s ∧
      Reading lay prog x₀ c₀ m c s ∧ Worked lay m W fine s) ?_
      ⟨.start lay x₀ c₀, .start lay prog x₀ c₀ m c, fun h => absurd h (Nat.not_lt_zero _),
        fun h => (nomatch h), fun _ h => nomatch h⟩ h
    rintro s act t ⟨hc, hr, hs⟩ he
    obtain ⟨-, hmoves⟩ := moves_of_step he
    exact ⟨hc.moves hmoves, hr.moves hm hc hmoves, hs.moves hS hc hr hmoves⟩
  obtain ⟨hc, -, hs⟩ := hinv
  refine ⟨⟨hs.repairs, fun hfine => ?_⟩, fun hres => ?_⟩
  · refine hover.resolve_right ?_
    rintro ⟨e, he⟩
    exact hs.stopped e he hfine
  · have hset : s.finished lay m = Finset.range lay.hwconc :=
      Finset.filter_true_of_mem fun p hp => (hc.due m hres).2 p (Finset.mem_range.1 hp)
    rw [← hset]
    exact hs.holds (hc.due m hres).1

end Runtime

end Contentious.Cont
