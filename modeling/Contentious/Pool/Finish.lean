import Contentious.Pool.Progress

/-!
# Pool — `finish`

When the predicate of `finish` comes out true, all that was submitted has
run (`finish_barrier`). It is not a snapshot: the queues are read one
after the other while the workers move. But a task queue that was seen
empty stays empty, as nothing is submitted meanwhile, and with all of them
empty no worker is in a task that could submit a resolution — so what the
last read of the resolution queue says, remains.

When the predicate comes out false, `finish` goes to sleep, and the
notification that is to wake it is sent without holding `fin_m`. It is
lost if it comes before the sleep (`wakeup_lost`), and the exact condition
is that some worker is still in its loop, or has a token, at the time
(`finish_wakes_iff`).
-/

namespace Contentious.Pool

variable {n : ℕ} {τ ρ : Type} {s t : State n τ ρ} {p q : Fin n}

/-! ## The barrier -/

/-- A queue of tasks that is empty stays so under the workers. -/
theorem Works.tasks_nil (h : Works s p t) (hq : s.tasks q = []) : t.tasks q = [] := by
  cases h with
  | popTask hpc =>
    rw [State.goto_tasks, State.pop_tasks, hq]
    split <;> rfl
  | _ => exact hq

/-- With no task left, the resolution queue stays empty too. -/
theorem Works.resns_nil (hC : Control s) (h : Works s p t) (htasks : ∀ q, s.tasks q = [])
    (hr : s.resns = []) : t.resns = [] := by
  cases h with
  | popResn hpc => rw [State.goto_resns]; exact congrArg List.tail hr
  | writeResn r hpc => exact absurd (htasks p) (hC.task p (by rw [hpc]; trivial))
  | _ => exact hr

/-- A notification starts the predicate over, or finds nobody. -/
theorem Main.notify_eq (m : Main n) : m.notify = .readTasks 0 true ∨ m.notify = m := by
  cases m with
  | asleep => exact .inl rfl
  | _ => exact .inr rfl

/-- **What the predicate has seen, while it is still true**: the queues
read so far are empty, and after the last round all of them are. -/
structure Seen (s : State n τ ρ) : Prop where
  tasks : ∀ k, s.main = .readTasks k true → (∀ p : Fin n, p < k → s.tasks p = []) ∧
    (n ≤ k → s.resns = [])
  resns : ∀ k, s.main = .readResns k true → ∀ p : Fin n, p < k + 1 → s.tasks p = []
  returned : s.main = .returned → (∀ p, s.tasks p = []) ∧ s.resns = []

namespace Seen

/-- The predicate starts over. -/
theorem start (hS : Sound s) (hm : s.main = .readTasks 0 true) : Seen s := by
  refine ⟨fun k hk => ?_, fun k hk => ?_, fun hk => ?_⟩
  · rw [hm] at hk
    cases hk
    refine ⟨fun p hp => absurd hp (Nat.not_lt_zero _), fun hn => ?_⟩
    by_contra hne
    obtain ⟨q, -⟩ := hS.watched.attended hne
    exact absurd q.pos (Nat.not_lt.2 hn)
  · rw [hm] at hk; exact nomatch hk
  · rw [hm] at hk; exact nomatch hk

theorem works (hS : Sound s) (hS' : Sound t) (hI : Seen s) (h : Works s p t) : Seen t := by
  have hstay : t.main = s.main → Seen t := by
    intro hm
    refine ⟨fun k hk => ?_, fun k hk => ?_, fun hk => ?_⟩
    · rw [hm] at hk
      obtain ⟨hlt, hlast⟩ := hI.tasks k hk
      refine ⟨fun q hq => h.tasks_nil (hlt q hq), fun hn => ?_⟩
      exact h.resns_nil hS.control (fun q => hlt q (lt_of_lt_of_le q.isLt hn)) (hlast hn)
    · rw [hm] at hk
      exact fun q hq => h.tasks_nil (hI.resns k hk q hq)
    · rw [hm] at hk
      obtain ⟨htasks, hr⟩ := hI.returned hk
      exact ⟨fun q => h.tasks_nil (htasks q), h.resns_nil hS.control htasks hr⟩
  cases h with
  | notify hpc =>
    rcases s.main.notify_eq with hm | hm
    · exact start hS' hm
    · exact hstay hm
  | _ => exact hstay rfl

theorem submits (hS' : Sound t) (hI : Seen s) (h : Submits s t) : Seen t := by
  cases h with
  | finish hf => exact start hS' rfl
  | noTasks k ret hm hnil =>
    refine ⟨fun _ hk => (nomatch hk), fun _ hk => ?_, fun hk => nomatch hk⟩
    cases hk
    intro q hq
    rcases Nat.lt_succ_iff_lt_or_eq.1 hq with hq | hq
    · exact (hI.tasks k hm).1 q hq
    · rw [show q = k from Fin.ext hq]; exact hnil
  | someTasks k ret hm hs =>
    exact ⟨fun _ hk => (nomatch hk), fun _ hk => (nomatch hk), fun hk => nomatch hk⟩
  | readResns k ret hm =>
    refine ⟨fun l hk => ?_, fun _ hk => (nomatch hk), fun hk => nomatch hk⟩
    simp only [Main.readTasks.injEq, Bool.and_eq_true, List.isEmpty_iff] at hk
    obtain ⟨rfl, rfl, hr⟩ := hk
    exact ⟨hI.resns k hm, fun _ => hr⟩
  | true k hm hn =>
    refine ⟨fun _ hk => (nomatch hk), fun _ hk => (nomatch hk), fun _ => ?_⟩
    obtain ⟨hlt, hlast⟩ := hI.tasks k hm
    exact ⟨fun q => hlt q (lt_of_lt_of_le q.isLt hn), hlast hn⟩
  | _ => exact ⟨fun _ hk => (nomatch hk), fun _ hk => (nomatch hk), fun hk => nomatch hk⟩

end Seen

theorem Reachable.seen (h : Reachable s) : Sound s ∧ Seen s := by
  obtain ⟨as, has⟩ := h
  refine Machine.run_invariant (I := fun s => Sound s ∧ Seen s) (fun s a t hI hst => ?_)
    ⟨.init, ?_⟩ has
  · have hS' := hI.1.step hst
    rcases cases_of_step hst with ⟨p, hw⟩ | hs
    · exact ⟨hS', hI.2.works hI.1 hS' hw⟩
    · exact ⟨hS', hI.2.submits hS' hs⟩
  · exact ⟨fun _ hk => (nomatch hk), fun _ hk => (nomatch hk), fun hk => nomatch hk⟩

/-- **`finish` is a barrier.** Whenever its predicate comes out true, every
task that was submitted has finished running, and so has every resolution
that they submitted. -/
theorem finish_barrier {as : List (Act n τ ρ)} (hrun : (pool n τ ρ).run (init n τ ρ) as = some s)
    (hret : s.main = .returned) : (∀ p, s.ran p = s.submitted p) ∧ s.ranR = s.submittedR := by
  obtain ⟨hS, hI⟩ := Reachable.seen ⟨as, hrun⟩
  obtain ⟨htasks, hresns⟩ := hI.returned hret
  refine ⟨fun p => ?_, ?_⟩
  · -- nobody is about to pop from an empty queue
    have hpc : s.pc p ≠ .popTask := fun hpc => hS.control.task p (by rw [hpc]; trivial) (htasks p)
    rw [hS.ordered.tasks p hpc, htasks, List.append_nil]
  · have hpc : ∀ p, s.pc p ≠ .popResn := fun p hpc =>
      hS.control.resn p (by rw [hpc]; trivial) hresns
    rw [hS.ordered.resns hpc, hresns, List.append_nil]

/-- Two workers, and a task of worker 0 that submits a resolution. `finish` is
called before that is posted, and goes to sleep twice: the task is not popped
yet, and then the resolution is still there, which worker 1 runs. -/
theorem finish_barrier_two :
    let asleepTwice : List (Act 2 ℕ ℕ) :=
      [.submit 0 7, .main] ++ List.replicate 5 (.worker 0 none) ++
        [.worker 0 (some 9), .worker 0 none, .finish] ++ List.replicate 5 .main ++
        List.replicate 5 (.worker 0 none) ++ List.replicate 6 .main
    ∃ s t, (pool 2 ℕ ℕ).run (init 2 ℕ ℕ) asleepTwice = some s ∧ s.main = .asleep ∧ s.resns = [9] ∧
      (pool 2 ℕ ℕ).run (init 2 ℕ ℕ) (asleepTwice ++ List.replicate 15 (.worker 1 none) ++
        List.replicate 5 .main) = some t ∧
      t.submittedR = [9] ∧ (∀ p, t.ran p = t.submitted p) ∧ t.ranR = t.submittedR := by
  intro asleepTwice
  have hsleep : ((pool 2 ℕ ℕ).run (init 2 ℕ ℕ) asleepTwice).map (fun s => (s.main, s.resns)) =
      some (.asleep, [9]) := by decide +kernel
  have hreturn : ((pool 2 ℕ ℕ).run (init 2 ℕ ℕ) (asleepTwice ++
      List.replicate 15 (.worker 1 none) ++ List.replicate 5 .main)).map
        (fun s => (s.main, s.submittedR)) = some (.returned, [9]) := by decide +kernel
  obtain ⟨s, hrun, hs⟩ := Option.map_eq_some_iff.1 hsleep
  obtain ⟨hmain, hresns⟩ := Prod.mk.inj hs
  obtain ⟨t, hrun', ht⟩ := Option.map_eq_some_iff.1 hreturn
  obtain ⟨hmain', hsub⟩ := Prod.mk.inj ht
  exact ⟨s, t, hrun, hmain, hresns, hrun', hsub, finish_barrier hrun' hmain'⟩

/-! ## The wakeup -/

/-- `finish` is asleep on finished work: the queues are empty and nobody
is left to notify it. -/
structure Stranded (s : State n τ ρ) : Prop where
  asleep : s.main = .asleep
  tasks : ∀ p, s.tasks p = []
  resns : s.resns = []
  blocked : AllBlocked s

/-- If this step is `finish` going to sleep, some worker is still in its
loop or has a token. -/
def SleepsInTime (s : State n τ ρ) : Act n τ ρ → Prop
  | .main => s.main = .block → ¬ AllBlocked s
  | _ => True

/-- A worker that has come past itself in the posts after a resolution has
a token. -/
def OwnToken (s : State n τ ρ) : Prop := ∀ p k, s.pc p = .postResn k → p < k → 0 < s.sems p

/-- A step to a place that is not in these posts, that takes no token of
the others. -/
theorem OwnToken.leave {u : State n τ ρ} (hO : OwnToken s) (hpc : u.pc = s.pc)
    (hsems : ∀ q ≠ p, s.sems q ≤ u.sems q) (hc : ∀ k, c ≠ .postResn k) : OwnToken (u.goto p c) := by
  intro q k hq hk
  rw [State.goto_pc] at hq
  split at hq
  · exact absurd hq (hc k)
  · next hqp => exact lt_of_lt_of_le (hO q k (hpc ▸ hq) hk) (hsems q hqp)

theorem OwnToken.works (hO : OwnToken s) (h : Works s p t) : OwnToken t := by
  cases h with
  | unlockResn hpc' =>
    intro q k hpc hk
    rw [State.goto_pc] at hpc
    split at hpc
    · cases hpc; exact absurd hk (Nat.not_lt_zero _)
    · exact hO q k hpc hk
  | postResn l hpc' =>
    intro q k hpc hk
    rw [State.goto_pc] at hpc
    rw [State.goto_sems, State.post_sems]
    split at hpc
    · next hqp =>
      subst hqp
      cases hpc
      split
      · exact Nat.succ_pos _
      · next hql =>
        exact hO q l hpc' (Nat.lt_of_le_of_ne (Nat.le_of_lt_succ hk) fun h => hql (Fin.ext h))
    · have := hO q k hpc hk
      split <;> omega
  | wake hpc hsem =>
    refine hO.leave rfl (fun q hqp => ?_) (by simp)
    rw [State.take_sems, if_neg hqp]
  | postSubmitr k hpc => exact hO.leave rfl (fun q _ => State.le_post s k q) (by simp)
  | _ => exact hO.leave rfl (fun _ _ => le_rfl) (by simp)

theorem OwnToken.submits (hO : OwnToken s) (h : Submits s t) : OwnToken t := by
  intro q k hpc hk
  cases h with
  | post p hm =>
    have := hO q k hpc hk
    simp only [State.post_sems]
    split <;> omega
  | _ => exact hO q k hpc hk

/-- **A worker's step leaves it in its loop or with a token**, or wakes
`finish`. -/
theorem Works.not_allBlocked (hO : OwnToken s) (h : Works s p t) (hm : t.main = .asleep) :
    ¬ AllBlocked t := by
  intro hb
  have hp := hb p
  cases h with
  | again k hpc hk =>
    -- it went round after a resolution, so its own post is there
    have hsem := hO p k hpc (lt_of_lt_of_le p.isLt hk)
    rw [State.goto_sems] at hp
    exact absurd hsem (by rw [hp.2]; exact lt_irrefl 0)
  | notify hpc =>
    rw [State.goto_main] at hm
    cases hmain : s.main <;> simp only [hmain, Main.notify] at hm <;> exact nomatch hm
  | _ =>
    rw [State.goto_pc, if_pos rfl] at hp
    exact nomatch hp.1

/-- **When `finish` is woken.** A run never leaves `finish` asleep on
finished work if and only if, each time it goes to sleep, some worker is
still in its loop or has a token. -/
theorem finish_wakes_iff (as : List (Act n τ ρ)) :
    (pool n τ ρ).Always (fun s => ¬ Stranded s) (init n τ ρ) as ↔
      (pool n τ ρ).Along SleepsInTime (init n τ ρ) as := by
  refine Machine.always_iff_along (I := fun s => Sound s ∧ OwnToken s)
    (J := fun s => s.main = .asleep → ¬ AllBlocked s) ?_ ?_ ?_ ?_ ⟨.init, ?_⟩ ?_
  · intro s a t hI hst
    refine ⟨hI.1.step hst, ?_⟩
    rcases cases_of_step hst with ⟨p, hw⟩ | hs
    · exact hI.2.works hw
    · exact hI.2.submits hs
  · intro s a t hI _ hC hst hm
    cases a with
    | worker p resn => exact (works_of_workerStep hst).not_allBlocked hI.2 hm
    | main =>
      cases submits_of_mainStep hst with
      | sleep hblock => exact hC hblock
      | _ => exact nomatch hm
    | submit p task =>
      obtain ⟨-, hst⟩ := Option.ite_none_right_eq_some.1 hst
      cases hst; exact nomatch hm
    | finish =>
      obtain ⟨-, hst⟩ := Option.ite_none_right_eq_some.1 hst
      cases hst; exact nomatch hm
  · exact fun s _ hJ hstr => hJ hstr.asleep hstr.blocked
  · intro s a hI _ hC
    cases a with
    | main =>
      obtain ⟨hblock, hb⟩ := Classical.not_imp.1 hC
      obtain ⟨htasks, hresns⟩ := hI.1.queues_empty (not_not.1 hb) (by rw [hblock]; simp)
      refine ⟨{ s with main := .asleep }, ?_, fun hn => hn ⟨rfl, htasks, hresns, not_not.1 hb⟩⟩
      change mainStep s = _
      rw [mainStep, hblock]
    | _ => exact absurd trivial hC
  · exact fun p k hpc => nomatch hpc
  · exact fun hm => nomatch hm

/-- **A wakeup is lost.** `finish` finds its task not popped yet; then the
worker pops it, notifies nobody, and waits; then `finish` goes to sleep. -/
theorem wakeup_lost :
    ∃ s, (pool 1 ℕ ℕ).run (init 1 ℕ ℕ) ([.submit 0 7, .main, .finish, .main, .main] ++
        List.replicate 8 (.worker 0 none) ++ [.main]) = some s ∧ Stranded s := by
  have hstate : ((pool 1 ℕ ℕ).run (init 1 ℕ ℕ) ([.submit 0 7, .main, .finish, .main, .main] ++
      List.replicate 8 (.worker 0 none) ++ [.main])).map
        (fun s => (s.main, s.tasks 0, s.resns, s.pc 0, s.sems 0)) =
          some (.asleep, [], [], .wait, 0) := by decide +kernel
  obtain ⟨s, hrun, hs⟩ := Option.map_eq_some_iff.1 hstate
  simp only [Prod.mk.injEq] at hs
  obtain ⟨hmain, htasks, hresns, hpc, hsem⟩ := hs
  refine ⟨s, hrun, hmain, fun p => ?_, hresns, fun p => ?_⟩
  · rw [Fin.fin_one_eq_zero p]; exact htasks
  · rw [Fin.fin_one_eq_zero p]; exact ⟨hpc, hsem⟩

end Contentious.Pool
