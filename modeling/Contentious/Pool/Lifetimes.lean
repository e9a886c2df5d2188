import Contentious.Pool.Order
import Contentious.Cont.Runtime

/-!
# Pool — destroying vectors

The destructor of a `cont_vector` waits for the latches in its `latches`:
that of the call it is the result of, if it is one. A latch falls before
the last worker is out of its task, before the resolution of the call is
submitted, and so before it runs; and a vector that a call only reads has
no latch of that call. What a destructor would have to wait for is here
next to it: for every call the vector takes part in, that the workers are
back from their tasks and that the resolutions they have submitted have
run (`Over`). Destroyed then, a vector is not referred to again, and
destroyed sooner it is, at once (`unused_iff`).

Vectors are told apart, and no two of them have one address.
-/

namespace Contentious.Pool

open Cont (Ref Call)

variable {n : ℕ}

namespace Calls

/-! ## What refers to a vector -/

/-- The tasks of worker `p` that wait or run. One that has run is in the
queue until it is popped. -/
def tasksLeft (s : Calls n) (p : Fin n) : List ℕ :=
  if s.pool.pc p = .popTask then (s.pool.tasks p).tail else s.pool.tasks p

/-- The resolutions that wait or run. -/
def resnsLeft (s : Calls n) : List ℕ :=
  if ∃ p, s.pool.pc p = .popResn then s.pool.resns.tail else s.pool.resns

/-- The tasks of call `k` are bound to its result and to the vectors it
reads. -/
def TaskRefers (prog : ℕ → Call Ref) (k : ℕ) (r : Ref) : Prop :=
  r = .result k ∨ (prog k).Reads r

/-- What is left of the `frozen` list of call `k`: resolving it empties
the list. -/
def frozenLeft (s : Calls n) (prog : ℕ → Call Ref) (k : ℕ) : List Ref :=
  if k ∈ s.pool.ranR then [] else (prog k).frozen

/-- The resolution of call `k` is bound to its result and to the vector it
was called on, and goes through that list. -/
def ResnRefers (s : Calls n) (prog : ℕ → Call Ref) (k : ℕ) (r : Ref) : Prop :=
  r = .result k ∨ r = (prog k).src ∨ r ∈ s.frozenLeft prog k

/-! ## When a vector can be destroyed -/

/-- There is, or was, such a vector. -/
def made (s : Calls n) : Ref → Prop
  | .input _ => True
  | .result k => k < s.calls

instance (s : Calls n) (r : Ref) : Decidable (s.made r) :=
  match r with
  | .input _ => inferInstanceAs (Decidable True)
  | .result k => inferInstanceAs (Decidable (k < s.calls))

/-- Every latch in the `latches` of the vector is at zero. -/
def latchesDown (s : Calls n) : Ref → Prop
  | .input _ => True
  | .result k => s.latch k = 0

instance (s : Calls n) (r : Ref) : Decidable (s.latchesDown r) :=
  match r with
  | .input _ => inferInstanceAs (Decidable True)
  | .result k => inferInstanceAs (Decidable (s.latch k = 0))

/-- **The calls with the vector are over**: each worker has returned from
its task, and the resolution has run as often as it was submitted; once,
if at all submitted, where the vector is on the `frozen` list only. -/
def Over (s : Calls n) (prog : ℕ → Call Ref) (r : Ref) : Prop :=
  ∀ k < s.calls, TaskRefers prog k r → (∀ p, k < s.current p) ∧
    (k ∈ s.pool.submittedR → k ∈ s.pool.ranR) ∧
    (r = .result k ∨ r = (prog k).src → s.pool.ranR.count k = s.pool.submittedR.count k)

end Calls

/-- The calls, and the vectors whose destructors have returned. -/
structure Lifetimes (n : ℕ) where
  calls : Calls n
  destroyed : List Ref

/-- A thread takes a step. -/
inductive LifeAct (n : ℕ)
  /-- in a call, in the pool -/
  | run (a : CallAct n)
  /-- the destructor of a vector of the outside thread returns -/
  | destroy (r : Ref)

namespace Lifetimes

/-- The vector is there. -/
def Alive (s : Lifetimes n) (r : Ref) : Prop := s.calls.made r ∧ r ∉ s.destroyed

instance (s : Lifetimes n) (r : Ref) : Decidable (s.Alive r) := inferInstanceAs (Decidable (_ ∧ _))

/-- A call is made on vectors that are there. -/
def Allowed (s : Lifetimes n) (prog : ℕ → Call Ref) : CallAct n → Prop
  | .call => s.Alive (prog s.calls.calls).src ∧ ∀ y ∈ (prog s.calls.calls).other, s.Alive y
  | _ => True

instance (s : Lifetimes n) (prog : ℕ → Call Ref) (a : CallAct n) :
    Decidable (s.Allowed prog a) := by
  unfold Allowed
  split <;> infer_instance

/-- The outside thread is at no call of its own, and the destructor does
not wait. -/
def Returns (s : Lifetimes n) (r : Ref) : Prop :=
  s.calls.turn = n ∧ s.calls.pool.main.free = true ∧ s.Alive r ∧ s.calls.latchesDown r

instance (s : Lifetimes n) (r : Ref) : Decidable (s.Returns r) :=
  inferInstanceAs (Decidable (_ ∧ _ ∧ _ ∧ _))

/-- One step. -/
def step (prog : ℕ → Call Ref) (s : Lifetimes n) : LifeAct n → Option (Lifetimes n)
  | .run a =>
    if s.Allowed prog a then (s.calls.step a).map fun calls => { s with calls := calls } else none
  | .destroy r => if s.Returns r then some { s with destroyed := r :: s.destroyed } else none

/-- No call yet, and all vectors there. -/
def init (n : ℕ) : Lifetimes n := ⟨Calls.init n, []⟩

/-- **No vector that is gone is referred to**, by nothing that waits or
runs. -/
def Unused (prog : ℕ → Call Ref) (s : Lifetimes n) : Prop :=
  ∀ r ∈ s.destroyed, (∀ p, ∀ k ∈ s.calls.tasksLeft p, ¬ Calls.TaskRefers prog k r) ∧
    ∀ k ∈ s.calls.resnsLeft, ¬ s.calls.ResnRefers prog k r

/-- If a destructor returns, the calls with its vector are over. -/
def InTime (prog : ℕ → Call Ref) (s : Lifetimes n) : LifeAct n → Prop
  | .run _ => True
  | .destroy r => s.Returns r → s.calls.Over prog r

end Lifetimes

/-- Calls and destructors as a machine. -/
def lifetimes (n : ℕ) (prog : ℕ → Call Ref) : Machine (Lifetimes n) (LifeAct n) :=
  ⟨Lifetimes.step prog⟩

/-! ## What is left, by the histories -/

namespace Calls

variable {s t : Calls n} {prog : ℕ → Call Ref} {p : Fin n} {k : ℕ} {r : Ref}

theorem submitted_eq (hC : Counts s) (p : Fin n) :
    s.pool.submitted p = s.pool.ran p ++ s.tasksLeft p := by
  unfold tasksLeft
  split
  · next h => exact hC.sound.ordered.popTask p h
  · next h => exact hC.sound.ordered.tasks p h

theorem submittedR_eq (hC : Counts s) : s.pool.submittedR = s.pool.ranR ++ s.resnsLeft := by
  unfold resnsLeft
  split
  · next h =>
    obtain ⟨p, hp⟩ := h
    exact hC.sound.ordered.popResn p hp
  · next h => exact hC.sound.ordered.resns fun p hp => h ⟨p, hp⟩

/-- The tasks left to a worker are those from its current one on. -/
theorem mem_tasksLeft (hC : Counts s) :
    k ∈ s.tasksLeft p ↔
      s.current p ≤ k ∧ k < if (p : ℕ) < s.turn then s.calls else s.calls - 1 := by
  have hsub := hC.submitted p
  have hle := congrArg List.length hsub
  rw [submitted_eq hC] at hsub hle
  rw [List.length_append, List.length_range] at hle
  have hdrop : s.tasksLeft p = (List.range (if (p : ℕ) < s.turn then s.calls else s.calls - 1)).drop
      (s.current p) := by
    rw [← hsub, current, List.drop_left]
  have hcur : s.current p = (s.pool.ran p).length := rfl
  rw [hdrop, List.range_eq_range', List.drop_range', List.mem_range'_1]
  omega

/-- A resolution is left if it has run less often than it was submitted. -/
theorem mem_resnsLeft (hC : Counts s) :
    k ∈ s.resnsLeft ↔ s.pool.ranR.count k ≠ s.pool.submittedR.count k := by
  rw [submittedR_eq hC, List.count_append, ← List.count_pos_iff]
  omega

/-- A resolution refers to no more than its tasks. -/
theorem ResnRefers.task (h : s.ResnRefers prog k r) : TaskRefers prog k r := by
  rcases h with h | h | h
  · exact .inl h
  · exact .inr (.inl h)
  · unfold frozenLeft at h
    split at h
    · exact absurd h List.not_mem_nil
    · refine .inr (.inr ?_)
      cases hc : prog k with
      | foreachCvec op src other =>
        rw [hc] at h
        simp only [Call.frozen] at h
        split at h
        · exact absurd h List.not_mem_nil
        · rw [List.mem_singleton.1 h]
          rfl
      | _ => rw [hc] at h; exact absurd h List.not_mem_nil

/-- The second vector of a call, if it is another, is on its `frozen` list. -/
theorem TaskRefers.frozen (h : TaskRefers prog k r) (hres : r ≠ .result k)
    (hsrc : r ≠ (prog k).src) :
    r ∈ (prog k).frozen := by
  have hother := (h.resolve_left hres).resolve_left hsrc
  cases hc : prog k with
  | foreachCvec op src other =>
    rw [hc] at hother hsrc
    cases hother
    have hsrc : ¬ r = src := hsrc
    change r ∈ if r = src then [] else [r]
    rw [if_neg hsrc]
    exact List.mem_singleton_self _
  | _ => rw [hc] at hother; exact nomatch hother

/-- What the histories say of the resolution of a call, for one vector. -/
theorem not_resnRefers_iff (hC : Counts s) (h : TaskRefers prog k r) :
    (k ∈ s.resnsLeft → ¬ s.ResnRefers prog k r) ↔
      (k ∈ s.pool.submittedR → k ∈ s.pool.ranR) ∧
        (r = .result k ∨ r = (prog k).src → s.pool.ranR.count k = s.pool.submittedR.count k) := by
  have hsub : k ∈ s.pool.submittedR ↔ k ∈ s.pool.ranR ∨ k ∈ s.resnsLeft := by
    rw [submittedR_eq hC, List.mem_append]
  constructor
  · refine fun hleft => ⟨fun hk => ?_, fun hr => ?_⟩
    · by_contra hran
      refine hleft ((hsub.1 hk).resolve_left hran) ?_
      by_cases hres : r = .result k
      · exact .inl hres
      · by_cases hsrc : r = (prog k).src
        · exact .inr (.inl hsrc)
        · refine .inr (.inr ?_)
          rw [frozenLeft, if_neg hran]
          exact h.frozen hres hsrc
    · by_contra hne
      exact hleft ((mem_resnsLeft hC).2 hne) (hr.imp_right .inl)
  · rintro ⟨hran, hcount⟩ hk hr
    rcases hr with hr | hr | hr
    · exact (mem_resnsLeft hC).1 hk (hcount (.inl hr))
    · exact (mem_resnsLeft hC).1 hk (hcount (.inr hr))
    · rw [frozenLeft, if_pos (hran (hsub.2 (.inr hk)))] at hr
      exact absurd hr List.not_mem_nil

/-! ## What a step leaves -/

theorem Moves.current_le (h : Moves s t) (q : Fin n) : s.current q ≤ t.current q := by
  have hret : ∀ (u : State n ℕ ℕ) (p : Fin n) (k : ℕ), u.ran = s.pool.ran →
      (s.pool.ran q).length ≤ ((u.finished p k).ran q).length := by
    intro u p k hu
    rw [State.finished_ran, hu]
    split
    · rw [List.length_append]
      exact Nat.le_add_right ..
    · exact le_rfl
  cases h with
  | outside pool hs hsub hran => rw [current, current, hran]
  | returns p k => exact hret _ p k rfl
  | submitted p k => exact hret _ p k rfl
  | quiet p pool hq => rw [current, current, hq.ran]
  | _ => exact le_rfl

/-- Only a worker in its task submits a resolution, and one of its call. -/
theorem Moves.submittedR (h : Moves s t) : t.pool.submittedR = s.pool.submittedR ∨
    ∃ p k, s.pool.pc p = .writeResn k ∧ t.pool.submittedR = s.pool.submittedR ++ [k] := by
  cases h with
  | outside pool hs hsub hran hpc hsubR => exact .inl hsubR
  | writeResn p k hpc => exact .inr ⟨p, k, hpc, rfl⟩
  | quiet p pool hq => exact .inl hq.submittedR
  | _ => exact .inl rfl

/-- No worker submits for a call that all have returned from. -/
theorem Moves.count_eq (hO : InOrder s) (h : Moves s t) (hk : ∀ p, k < s.current p) :
    t.pool.submittedR.count k = s.pool.submittedR.count k := by
  rcases h.submittedR with heq | ⟨p, j, hpc, heq⟩
  · rw [heq]
  · have hj := hO.write p j hpc
    have hlt := hk p
    have hne : j ≠ k := by omega
    rw [heq, List.count_append, List.count_singleton]
    simp [hne]

/-- **What is over stays over**, if what is begun is on other vectors. -/
theorem Over.moves (hC : Counts s) (hO : InOrder s) (h : s.Over prog r) (hst : Moves s t)
    (hnew : ∀ k, s.calls ≤ k → k < t.calls → ¬ TaskRefers prog k r) : t.Over prog r := by
  intro k hk hr
  have hlt : k < s.calls := by
    by_contra hge
    exact hnew k (by omega) hk hr
  obtain ⟨hcur, hran, hcount⟩ := h k hlt hr
  have hsub := hst.count_eq hO hcur
  have hgrows := hst.grows.2
  refine ⟨fun p => lt_of_lt_of_le (hcur p) (hst.current_le p), fun hin => ?_, fun hr => ?_⟩
  · rw [← List.count_pos_iff, hsub, List.count_pos_iff] at hin
    exact hgrows.subset (hran hin)
  · have hle := hgrows.sublist.count_le k
    have hle' : t.pool.ranR.count k ≤ t.pool.submittedR.count k := by
      rw [submittedR_eq (hC.moves hst), List.count_append]
      exact Nat.le_add_right ..
    have := hcount hr
    omega

theorem calls_of_worker (h : s.worker p = some t) : t.calls = s.calls := by
  have hpool : ∀ resn, s.poolStep p resn = some t → t.calls = s.calls := by
    intro resn h
    obtain ⟨pool, -, rfl⟩ := Option.map_eq_some_iff.1 h
    rfl
  unfold worker at h
  split at h
  · split at h
    · cases h; rfl
    · cases h; rfl
    · cases h; rfl
    · exact hpool _ h
  · exact hpool _ h

/-- Only the outside thread begins a call. -/
theorem calls_of_step {a : CallAct n} (h : s.step a = some t) :
    t.calls = s.calls ∨ a = .call ∧ t.calls = s.calls + 1 := by
  cases a with
  | call =>
    obtain ⟨-, h⟩ := Option.ite_none_right_eq_some.1 h
    cases h
    exact .inr ⟨rfl, rfl⟩
  | submit =>
    simp only [step] at h
    split at h
    · obtain ⟨pool, -, rfl⟩ := Option.map_eq_some_iff.1 h
      exact .inl rfl
    · cases h
  | finish =>
    obtain ⟨-, h⟩ := Option.ite_none_right_eq_some.1 h
    obtain ⟨pool, -, rfl⟩ := Option.map_eq_some_iff.1 h
    exact .inl rfl
  | main =>
    obtain ⟨pool, -, rfl⟩ := Option.map_eq_some_iff.1 h
    exact .inl rfl
  | worker p => exact .inl (calls_of_worker h)

end Calls

/-! ## Along a run -/

namespace Lifetimes

variable {s t : Lifetimes n} {prog : ℕ → Call Ref} {r : Ref}

/-- What holds in every run. -/
structure Kept (s : Lifetimes n) : Prop where
  counts : Calls.Counts s.calls
  inOrder : Calls.InOrder s.calls
  begun : ∀ k ∈ s.calls.pool.submittedR, k < s.calls.calls
  made : ∀ r ∈ s.destroyed, s.calls.made r

namespace Kept

theorem init : Kept (init n) where
  counts := .init
  inOrder := .init
  begun _ h := absurd h List.not_mem_nil
  made _ h := absurd h List.not_mem_nil

theorem step {a : LifeAct n} (hK : Kept s) (h : s.step prog a = some t) : Kept t := by
  cases a with
  | destroy r =>
    obtain ⟨hr, h⟩ := Option.ite_none_right_eq_some.1 h
    cases h
    refine { hK with made := fun r' hr' => ?_ }
    rcases List.mem_cons.1 hr' with rfl | hr'
    · exact hr.2.2.1.1
    · exact hK.made r' hr'
  | run a =>
    obtain ⟨-, h⟩ := Option.ite_none_right_eq_some.1 h
    obtain ⟨calls, hst, rfl⟩ := Option.map_eq_some_iff.1 h
    have hM := Calls.moves_of_step hst
    have hle : s.calls.calls ≤ calls.calls := by
      rcases Calls.calls_of_step hst with h | ⟨-, h⟩ <;> omega
    refine ⟨hK.counts.moves hM, hK.inOrder.moves hK.counts hM, fun k hk => ?_, fun r hr => ?_⟩
    · have hO := hK.inOrder.moves hK.counts hM
      rcases hM.submittedR with heq | ⟨p, j, hpc, heq⟩
      · exact lt_of_lt_of_le (hK.begun k (heq ▸ hk)) hle
      · -- the worker that submits has counted down for the call
        exact (hK.counts.moves hM).counted_lt (hO.all k hk p)
    · have hmade := hK.made r hr
      cases r with
      | input i => trivial
      | result k => exact lt_of_lt_of_le hmade hle

end Kept

/-- Where the calls with the destroyed vectors are over, nothing refers to
them. -/
theorem unused_of_over (hK : Kept s) (h : ∀ r ∈ s.destroyed, s.calls.Over prog r) :
    s.Unused prog := by
  refine fun r hr => ⟨fun p k hk href => ?_, fun k hk href => ?_⟩
  · obtain ⟨hcur, hlt⟩ := (Calls.mem_tasksLeft hK.counts).1 hk
    have hlt : k < s.calls.calls := by
      split at hlt <;> omega
    have := (h r hr k hlt href).1 p
    omega
  · have hin : k ∈ s.calls.pool.submittedR := by
      rw [Calls.submittedR_eq hK.counts]
      exact List.mem_append_right _ hk
    have hover := h r hr k (hK.begun k hin) href.task
    exact (Calls.not_resnRefers_iff hK.counts href.task).2 hover.2 hk href

/-- Where they are not, something does. -/
theorem over_of_unused (hK : Kept s) (hturn : s.calls.turn = n) (h : s.Unused prog)
    (hr : r ∈ s.destroyed) : s.calls.Over prog r := by
  intro k hk href
  obtain ⟨htasks, hresns⟩ := h r hr
  refine ⟨fun p => ?_, (Calls.not_resnRefers_iff hK.counts href).1 (hresns k)⟩
  by_contra hge
  refine htasks p k ((Calls.mem_tasksLeft hK.counts).2 ⟨Nat.le_of_not_lt hge, ?_⟩) href
  rw [hturn, if_pos p.isLt]
  exact hk

theorem over_step {a : LifeAct n} (hK : Kept s) (hO : ∀ r ∈ s.destroyed, s.calls.Over prog r)
    (hin : s.InTime prog a) (h : s.step prog a = some t) :
    ∀ r ∈ t.destroyed, t.calls.Over prog r := by
  cases a with
  | destroy r =>
    obtain ⟨hr, h⟩ := Option.ite_none_right_eq_some.1 h
    cases h
    intro r' hr'
    rcases List.mem_cons.1 hr' with rfl | hr'
    · exact hin hr
    · exact hO r' hr'
  | run a =>
    obtain ⟨hallow, h⟩ := Option.ite_none_right_eq_some.1 h
    obtain ⟨calls, hst, rfl⟩ := Option.map_eq_some_iff.1 h
    intro r hr
    refine (hO r hr).moves hK.counts hK.inOrder (Calls.moves_of_step hst) fun k hle hlt href => ?_
    have hlt : k < calls.calls := hlt
    rcases Calls.calls_of_step hst with heq | ⟨rfl, heq⟩
    · omega
    · -- the vector is gone, and the new call is on vectors that are there
      have hk : k = s.calls.calls := by omega
      subst hk
      rcases href with rfl | rfl | hother
      · exact lt_irrefl _ (hK.made _ hr)
      · exact hallow.1.2 hr
      · exact (hallow.2 r hother).2 hr

/-- **When a destroyed vector is used again.** In every run, in every
state, nothing that waits or runs refers to a vector whose destructor has
returned, if and only if each destructor returned with the calls of its
vector over. -/
theorem unused_iff (prog : ℕ → Call Ref) (acts : List (LifeAct n)) :
    (lifetimes n prog).Always (Unused prog) (init n) acts ↔
      (lifetimes n prog).Along (InTime prog) (init n) acts := by
  refine Machine.always_iff_along (I := Kept) (J := fun s => ∀ r ∈ s.destroyed, s.calls.Over prog r)
    (fun s a t hK h => hK.step h) (fun s a t hK hO hC h => over_step hK hO hC h)
    (fun s hK hO => unused_of_over hK hO) (fun s a hK hO hC => ?_) .init
    (fun r hr => absurd hr List.not_mem_nil)
  cases a with
  | run a => exact absurd trivial hC
  | destroy r =>
    obtain ⟨hr, hover⟩ := Classical.not_imp.1 hC
    have hst : s.step prog (.destroy r) = some { s with destroyed := r :: s.destroyed } := if_pos hr
    refine ⟨_, hst, fun hU => hover ?_⟩
    exact over_of_unused (s := { s with destroyed := r :: s.destroyed }) (hK.step hst) hr.1 hU
      List.mem_cons_self

/-- One call of `foreach`, and then its result is destroyed. -/
def foreachOnce : ℕ → Call Ref := fun _ => .foreach Cont.mult (.input 0) 2

/-- **A resolution onto a vector that is gone.** The worker has counted
the latch down, the destructor of the result returns, and then the worker
submits the resolution and comes to run it. -/
theorem resolved_when_gone :
    let acts := [CallAct.call, .submit, .main] ++ List.replicate 7 (.worker 0)
    ∃ s, (lifetimes 1 foreachOnce).run (init 1)
        (acts.map .run ++ [.destroy (.result 0)] ++ List.replicate 10 (.run (.worker 0))) = some s ∧
      s.calls.Running 0 0 ∧ .result 0 ∈ s.destroyed ∧ ¬ s.Unused foreachOnce := by
  intro acts
  have hstate : ((lifetimes 1 foreachOnce).run (init 1)
      (acts.map .run ++ [.destroy (.result 0)] ++ List.replicate 10 (.run (.worker 0)))).map
        (fun s => (s.calls.pool.pc 0, s.calls.pool.resns, s.destroyed)) =
      some (.runResn, [0], [.result 0]) := by decide +kernel
  obtain ⟨s, hrun, hs⟩ := Option.map_eq_some_iff.1 hstate
  simp only [Prod.mk.injEq] at hs
  obtain ⟨hpc, hresns, hgone⟩ := hs
  have hin : .result 0 ∈ s.destroyed := by
    rw [hgone]
    exact List.mem_singleton_self _
  refine ⟨s, hrun, ⟨hpc, by rw [hresns]; rfl⟩, hin, fun hU => ?_⟩
  refine (hU _ hin).2 0 ?_ (.inl rfl)
  have hnone : ¬ ∃ p, s.calls.pool.pc p = .popResn := by
    rintro ⟨p, hp⟩
    rw [Fin.fin_one_eq_zero p, hpc] at hp
    exact nomatch hp
  rw [Calls.resnsLeft, if_neg hnone, hresns]
  exact List.mem_singleton_self _

end Lifetimes

end Contentious.Pool
