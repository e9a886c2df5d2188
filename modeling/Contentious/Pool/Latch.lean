import Contentious.Common.Machine
import Mathlib.Algebra.BigOperators.Group.Finset.Piecewise
import Mathlib.Algebra.GroupWithZero.Nat
import Mathlib.Data.Fintype.Card

/-!
# Pool — one resolution for each dependency

The end of `reattach`: a worker counts the dependency's latch down, then
asks it whether it is at zero, then submits the resolution if it is. The
three are separate steps, and between the first and the second others may
count down too: then each of them finds the latch at zero. So the number
of times a resolution is submitted is the number of workers that were
between the two steps when the latch reached zero (`Settled`), and it is
one exactly if that was the last worker alone.
-/

namespace Contentious.Pool

/-- Where a worker is in `reattach`. -/
inductive Phase (δ : Type)
  /-- not in it -/
  | out
  /-- at `latch->try_wait()`, having counted down -/
  | counted (dep : δ)
  /-- at `tp.submitr(resolution)`, the latch having been at zero -/
  | passed (dep : δ)
deriving DecidableEq

/-- The latches of the dependencies and the workers that reattach. -/
structure Latches (n : ℕ) (δ : Type) where
  /-- the latch of each dependency -/
  count : δ → ℕ
  phase : Fin n → Phase δ
  /-- the workers whose splinter of a dependency is back -/
  reattached : δ → Finset (Fin n)
  /-- the dependencies whose resolution was submitted, in order -/
  resns : List δ

/-- A worker takes a step. -/
inductive LatchAct (n : ℕ) (δ : Type)
  /-- `latch->count_down()` for `dep` -/
  | countDown (p : Fin n) (dep : δ)
  /-- the step after it in the call -/
  | next (p : Fin n)

variable {n : ℕ} {δ : Type} [DecidableEq δ]

namespace Latches

/-- Worker `p` goes on at `c`. -/
def goto (s : Latches n δ) (p : Fin n) (c : Phase δ) : Latches n δ :=
  { s with phase := Function.update s.phase p c }

/-- One step of `reattach`. Each worker reattaches its splinter of a
dependency once. -/
def step (s : Latches n δ) : LatchAct n δ → Option (Latches n δ)
  | .countDown p dep =>
    if s.phase p = .out ∧ p ∉ s.reattached dep then
      some ({ s with
        count := Function.update s.count dep (s.count dep - 1)
        reattached := Function.update s.reattached dep (insert p (s.reattached dep)) }.goto p
          (.counted dep))
    else none
  | .next p =>
    match s.phase p with
    | .out => none
    | .counted dep =>
      if s.count dep = 0 then some (s.goto p (.passed dep)) else some (s.goto p .out)
    | .passed dep => some ({ s with resns := s.resns ++ [dep] }.goto p .out)

/-- Every latch is made with a count of `HWCONC`. -/
def init (n : ℕ) (δ : Type) : Latches n δ where
  count _ := n
  phase _ := .out
  reattached _ := ∅
  resns := []

end Latches

/-- The latches as a machine. -/
def latches (n : ℕ) (δ : Type) [DecidableEq δ] : Machine (Latches n δ) (LatchAct n δ) :=
  ⟨Latches.step⟩

namespace Latches

variable {s t : Latches n δ} {p : Fin n} {c : Phase δ} {dep d : δ}

/-- How many workers are at `c`. -/
def tally (f : Fin n → Phase δ) (c : Phase δ) : ℕ := (Finset.univ.filter fun p => f p = c).card

theorem tally_eq_zero {f : Fin n → Phase δ} : tally f c = 0 ↔ ∀ p, f p ≠ c := by
  rw [tally, Finset.card_eq_zero, Finset.filter_eq_empty_iff]
  exact ⟨fun h p => h (Finset.mem_univ p), fun h p _ => h p⟩

/-- A worker that moves is no longer where it was. -/
theorem tally_update (f : Fin n → Phase δ) (p : Fin n) (c d : Phase δ) :
    tally (Function.update f p c) d + (if f p = d then 1 else 0) =
      tally f d + if c = d then 1 else 0 := by
  have hsplit : ∀ g : Fin n → Phase δ, tally g d =
      (if g p = d then 1 else 0) + ∑ q ∈ Finset.univ.erase p, if g q = d then 1 else 0 := by
    intro g
    rw [tally, Finset.card_filter]
    exact (Finset.add_sum_erase _ (fun q => if g q = d then 1 else 0) (Finset.mem_univ p)).symm
  have hrest : (∑ q ∈ Finset.univ.erase p, if Function.update f p c q = d then 1 else 0) =
      ∑ q ∈ Finset.univ.erase p, if f q = d then 1 else 0 :=
    Finset.sum_congr rfl fun q hq => by rw [Function.update_of_ne (Finset.ne_of_mem_erase hq)]
  rw [hsplit, hsplit f, hrest, Function.update_self]
  omega

/-- The submissions of the resolution of `d` that were made, are about to
be, or may yet be. -/
def pending (s : Latches n δ) (d : δ) : ℕ :=
  s.resns.count d + tally s.phase (.counted d) + tally s.phase (.passed d)

/-- **The latch counts the workers that are not back**, and before it is at
zero nothing is submitted. -/
structure Counting (s : Latches n δ) : Prop where
  back : ∀ d, s.count d + (s.reattached d).card = n
  before : ∀ d, 0 < s.count d → s.resns.count d = 0 ∧ tally s.phase (.passed d) = 0

/-- Every latch at zero has one submission made or under way. -/
def Settled (s : Latches n δ) : Prop := ∀ d, s.count d = 0 → s.pending d = 1

/-- If this step brings a latch to zero, no other worker is between its
count and its test. -/
def LastAlone (s : Latches n δ) : LatchAct n δ → Prop
  | .countDown _ dep => s.count dep = 1 → ∀ q, s.phase q ≠ .counted dep
  | .next _ => True

/-- **What a step does.** -/
inductive Steps (s : Latches n δ) : LatchAct n δ → Latches n δ → Prop
  | countDown (p : Fin n) (dep : δ) : s.phase p = .out → p ∉ s.reattached dep →
      Steps s (.countDown p dep) ({ s with
        count := Function.update s.count dep (s.count dep - 1)
        reattached := Function.update s.reattached dep (insert p (s.reattached dep)) }.goto p
          (.counted dep))
  | zero (p : Fin n) (dep : δ) : s.phase p = .counted dep → s.count dep = 0 →
      Steps s (.next p) (s.goto p (.passed dep))
  | notZero (p : Fin n) (dep : δ) : s.phase p = .counted dep → s.count dep ≠ 0 →
      Steps s (.next p) (s.goto p .out)
  | submitr (p : Fin n) (dep : δ) : s.phase p = .passed dep →
      Steps s (.next p) ({ s with resns := s.resns ++ [dep] }.goto p .out)

theorem steps_of_step {a : LatchAct n δ} (h : step s a = some t) : Steps s a t := by
  cases a with
  | countDown p dep =>
    obtain ⟨⟨hp, hnew⟩, h⟩ := Option.ite_none_right_eq_some.1 h
    cases h; exact .countDown p dep hp hnew
  | next p =>
    simp only [step] at h
    split at h
    · exact nomatch h
    · next dep hp =>
      split at h
      · next h0 => cases h; exact .zero p dep hp h0
      · next h0 => cases h; exact .notZero p dep hp h0
    · next dep hp => cases h; exact .submitr p dep hp

/-- A latch at zero has every worker back. -/
theorem Counting.mem_of_zero (hC : Counting s) (h0 : s.count d = 0) (p : Fin n) :
    p ∈ s.reattached d := by
  have h := hC.back d
  rw [h0, Nat.zero_add] at h
  rw [Finset.eq_univ_of_card (s.reattached d) (by rw [h, Fintype.card_fin])]
  exact Finset.mem_univ p

/-- **How the pending submissions change**: one more when a worker counts
down, one fewer when it finds the latch above zero. -/
theorem pending_goto (s : Latches n δ) (p : Fin n) (c : Phase δ) (d : δ) :
    (s.goto p c).pending d + (if s.phase p = .counted d ∨ s.phase p = .passed d then 1 else 0) =
      s.pending d + if c = .counted d ∨ c = .passed d then 1 else 0 := by
  have h1 := tally_update s.phase p c (.counted d)
  have h2 := tally_update s.phase p c (.passed d)
  have hor : ∀ e : Phase δ, (if e = .counted d ∨ e = .passed d then 1 else 0) =
      (if e = .counted d then 1 else 0) + if e = .passed d then 1 else 0 := by
    intro e
    by_cases hc : e = .counted d
    · rw [if_pos (.inl hc), if_pos hc, if_neg (by rw [hc]; simp)]
    · by_cases hp : e = .passed d
      · rw [if_pos (.inr hp), if_neg hc, if_pos hp]
      · rw [if_neg (not_or.2 ⟨hc, hp⟩), if_neg hc, if_neg hp]
  rw [hor, hor]
  simp only [pending, goto] at h1 h2 ⊢
  omega

/-- A worker that neither leaves `c` nor comes to it does not count there. -/
theorem tally_goto {e : Phase δ} (hp : s.phase p ≠ e) (hc : c ≠ e) :
    tally (s.goto p c).phase e = tally s.phase e := by
  have h := tally_update s.phase p c e
  rw [if_neg hp, if_neg hc] at h
  exact h

theorem Counting.steps {a : LatchAct n δ} (hC : Counting s) (h : Steps s a t) : Counting t := by
  cases h with
  | countDown p dep hp hnew =>
    have hpos : 0 < s.count dep := Nat.pos_of_ne_zero fun h0 => hnew (hC.mem_of_zero h0 p)
    refine ⟨fun d => ?_, fun d hd => ?_⟩
    · have hb := hC.back d
      simp only [goto, Function.update_apply]
      split
      · next hdd => subst hdd; rw [Finset.card_insert_of_notMem hnew]; omega
      · exact hb
    · have hd' : 0 < s.count d := by
        simp only [goto, Function.update_apply] at hd
        split at hd
        · next hdd => subst hdd; exact hpos
        · exact hd
      obtain ⟨hr, ht⟩ := hC.before d hd'
      exact ⟨hr, (tally_goto (s := s) (by rw [hp]; simp) (by simp)).trans ht⟩
  | zero p dep hp h0 =>
    refine ⟨hC.back, fun d hd => ?_⟩
    obtain ⟨hr, ht⟩ := hC.before d hd
    have hne : dep ≠ d := by rintro rfl; exact absurd h0 (Nat.ne_of_gt hd)
    exact ⟨hr, (tally_goto (by rw [hp]; simp) (by simpa using hne)).trans ht⟩
  | notZero p dep hp h0 =>
    refine ⟨hC.back, fun d hd => ?_⟩
    obtain ⟨hr, ht⟩ := hC.before d hd
    exact ⟨hr, (tally_goto (by rw [hp]; simp) (by simp)).trans ht⟩
  | submitr p dep hp =>
    refine ⟨hC.back, fun d hd => ?_⟩
    obtain ⟨hr, ht⟩ := hC.before d hd
    have hne : dep ≠ d := by
      rintro rfl
      exact tally_eq_zero.1 ht p hp
    refine ⟨?_, (tally_goto (s := s) (by rw [hp]; simpa using hne) (by simp)).trans ht⟩
    simp only [goto, List.count_append, List.count_singleton, hr, beq_iff_eq, if_neg hne]

/-- **At zero the pending submissions stay as many as they are.** -/
theorem pending_of_zero {a : LatchAct n δ} (hC : Counting s) (h : Steps s a t)
    (h0 : s.count d = 0) :
    t.count d = 0 ∧ t.pending d = s.pending d := by
  cases h with
  | countDown p dep hp hnew =>
    have hne : d ≠ dep := by rintro rfl; exact hnew (hC.mem_of_zero h0 p)
    refine ⟨?_, ?_⟩
    · simp only [goto, Function.update_of_ne hne, h0]
    · have h := pending_goto s p (.counted dep) d
      rw [if_neg (by rw [hp]; simp), if_neg (by simpa using Ne.symm hne)] at h
      exact h
  | zero p dep hp h1 =>
    refine ⟨h0, ?_⟩
    have h := pending_goto s p (.passed dep) d
    rw [hp] at h
    simpa [or_comm] using h
  | notZero p dep hp h1 =>
    have hne : dep ≠ d := by rintro rfl; exact h1 h0
    refine ⟨h0, ?_⟩
    have h := pending_goto s p .out d
    rw [hp, if_neg (by simpa using hne), if_neg (by simp)] at h
    exact h
  | submitr p dep hp =>
    refine ⟨h0, ?_⟩
    have h := pending_goto s p .out d
    rw [hp] at h
    simp only [pending, goto, List.count_append, List.count_singleton] at h ⊢
    by_cases hd : dep = d
    · simp [hd] at h ⊢; omega
    · simp [hd] at h ⊢; omega

/-- **Counting down leaves the latches settled** exactly if the last
worker to count down was alone. -/
theorem settled_countDown (hC : Counting s) (hS : Settled s) (h : Steps s (.countDown p dep) t) :
    Settled t ↔ LastAlone s (.countDown p dep) := by
  cases h with
  | countDown _ _ hp hnew =>
    have hpos : 0 < s.count dep := Nat.pos_of_ne_zero fun h0 => hnew (hC.mem_of_zero h0 p)
    -- the worker is one more pending submission, and the others are at their tests
    have hpend := pending_goto s p (.counted dep) dep
    rw [if_neg (by rw [hp]; simp), if_pos (.inl rfl)] at hpend
    obtain ⟨hr, ht⟩ := hC.before dep hpos
    have htests : s.pending dep = tally s.phase (.counted dep) := by rw [pending, hr, ht]; omega
    have hcount : ∀ d, d ≠ dep → Function.update s.count dep (s.count dep - 1) d = s.count d :=
      fun d hd => Function.update_of_ne hd ..
    constructor
    · intro hS' h1
      have h0 : Function.update s.count dep (s.count dep - 1) dep = 0 := by
        rw [Function.update_self, h1]
      have hone := hS' dep h0
      refine tally_eq_zero.1 ?_
      change (s.goto p (.counted dep)).pending dep = 1 at hone
      omega
    · intro halone d h0
      by_cases hd : d = dep
      · subst hd
        simp only [goto, Function.update_self] at h0
        have hzero := tally_eq_zero.2 (halone (by omega))
        change (s.goto p (.counted d)).pending d = 1
        omega
      · simp only [goto, hcount d hd] at h0
        rw [(pending_of_zero hC (.countDown p dep hp hnew) h0).2]
        exact hS d h0

/-- **One submission for each dependency.** In every run in which the last
worker to count a latch down finds no other between its count and its
test, every dependency whose splinters are all reattached, and whose
workers are out of the call, has had its resolution submitted once; and
only in those: a run after which the workers are out and every such
dependency has had it once is one of them. -/
theorem submitted_once_iff [NeZero n] {as : List (LatchAct n δ)}
    (hrun : (latches n δ).run (init n δ) as = some s) :
    ((latches n δ).Along LastAlone (init n δ) as →
      ∀ d, s.reattached d = Finset.univ → (∀ p, s.phase p ≠ .counted d ∧ s.phase p ≠ .passed d) →
        s.resns.count d = 1) ∧
    ((∀ p, s.phase p = .out) → (∀ d, s.reattached d = Finset.univ → s.resns.count d = 1) →
      (latches n δ).Along LastAlone (init n δ) as) := by
  have hcounting : Counting (init n δ) :=
    ⟨fun d => by simp [init], fun d _ => ⟨rfl, tally_eq_zero.2 fun p => by simp [init]⟩⟩
  have hsettled : Settled (init n δ) := fun d h0 => absurd h0 (NeZero.ne n)
  have hC : Counting s := Machine.run_invariant
    (fun _ _ _ hC hst => hC.steps (steps_of_step hst)) hcounting hrun
  have hiff : Settled s ↔ (latches n δ).Along LastAlone (init n δ) as := by
    refine Machine.last_iff_along (I := Counting) (fun _ _ _ hC hst => hC.steps (steps_of_step hst))
      ?_ ?_ hcounting hsettled hrun
    · intro s a t hC hS hst
      cases a with
      | countDown p dep => exact settled_countDown hC hS (steps_of_step hst)
      | next p =>
        refine iff_of_true (fun d h0 => ?_) trivial
        have hsteps : Steps s (.next p) t := steps_of_step hst
        have h0' : s.count d = 0 := by cases hsteps <;> exact h0
        rw [(pending_of_zero hC hsteps h0').2]
        exact hS d h0'
    · intro s a t hC hS hst hS'
      refine hS fun d h0 => ?_
      obtain ⟨h0', hp⟩ := pending_of_zero hC (steps_of_step hst) h0
      rw [← hp]
      exact hS' d h0'
  -- a latch is at zero when its workers are back
  have hzero : ∀ d, s.count d = 0 ↔ s.reattached d = Finset.univ := fun d => by
    have hb := hC.back d
    rw [← Finset.card_eq_iff_eq_univ, Fintype.card_fin]
    omega
  refine ⟨fun hal d hd hout => ?_, fun hout hone => ?_⟩
  · have h1 := hiff.2 hal d ((hzero d).2 hd)
    rw [pending, tally_eq_zero.2 fun p => (hout p).1, tally_eq_zero.2 fun p => (hout p).2] at h1
    exact h1
  · refine hiff.1 fun d h0 => ?_
    rw [pending, tally_eq_zero.2 fun p => by rw [hout p]; simp,
      tally_eq_zero.2 fun p => by rw [hout p]; simp]
    exact hone d ((hzero d).1 h0)

/-- Two workers, the first of which is out of the call before the second
is in it. -/
theorem submitted_once_iff_two :
    ∃ s, (latches 2 ℕ).run (init 2 ℕ)
        [.countDown 0 5, .next 0, .countDown 1 5, .next 1, .next 1] = some s ∧
      (((latches 2 ℕ).Along LastAlone (init 2 ℕ)
          [.countDown 0 5, .next 0, .countDown 1 5, .next 1, .next 1] →
        ∀ d, s.reattached d = Finset.univ →
          (∀ p, s.phase p ≠ .counted d ∧ s.phase p ≠ .passed d) → s.resns.count d = 1) ∧
      ((∀ p, s.phase p = .out) → (∀ d, s.reattached d = Finset.univ → s.resns.count d = 1) →
        (latches 2 ℕ).Along LastAlone (init 2 ℕ)
          [.countDown 0 5, .next 0, .countDown 1 5, .next 1, .next 1])) := by
  have hsome : ((latches 2 ℕ).run (init 2 ℕ)
      [.countDown 0 5, .next 0, .countDown 1 5, .next 1, .next 1]).isSome := by decide +kernel
  obtain ⟨s, hrun⟩ := Option.isSome_iff_exists.1 hsome
  exact ⟨s, hrun, submitted_once_iff hrun⟩

/-- **Submitted twice.** Both workers count down before either tests. -/
theorem submitted_twice :
    ∃ s, (latches 2 ℕ).run (init 2 ℕ)
        [.countDown 0 5, .countDown 1 5, .next 0, .next 1, .next 0, .next 1] = some s ∧
      s.reattached 5 = Finset.univ ∧ (∀ p, s.phase p = .out) ∧ s.resns = [5, 5] := by
  have hstate : ((latches 2 ℕ).run (init 2 ℕ)
      [.countDown 0 5, .countDown 1 5, .next 0, .next 1, .next 0, .next 1]).map
        (fun s => (s.reattached 5, s.phase, s.resns)) =
          some (Finset.univ, fun _ => .out, [5, 5]) := by decide +kernel
  obtain ⟨s, hrun, hs⟩ := Option.map_eq_some_iff.1 hstate
  simp only [Prod.mk.injEq] at hs
  exact ⟨s, hrun, hs.1, fun p => congrFun hs.2.1 p, hs.2.2⟩

end Latches

end Contentious.Pool
