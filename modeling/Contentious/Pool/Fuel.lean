import Contentious.Pool.Progress
import Mathlib.Algebra.BigOperators.Fin
import Mathlib.Tactic.Ring

/-!
# Pool — the workers come to rest

A worker that has a token goes once around its loop, and a round may post
tokens: to everyone, after a resolution, and to everyone again in a task
that submits one. So it is not the tokens that run out. It is the tasks and
the resolutions: a task is taken once, submits at most one resolution, and
that is run once. `fuel` charges each of them for the posts it leads to,
and each token for one round; then every step of a worker uses some up
(`Works.fuel_lt`), whatever its tasks compute, as long as they come to an
end themselves.
-/

namespace Contentious.Pool

variable {n : ℕ} {τ ρ : Type} {s t : State n τ ρ} {p q : Fin n} {work : ℕ} {own own' : Fin n → ℕ}

/-- A token is worth one round of the loop, in which a task has `work` steps
of its own at most. -/
def tokenFuel (work : ℕ) : ℕ := work + 10

/-- What the loop that posts to every worker is worth, from worker `k` on. -/
def postFuel (n work k : ℕ) : ℕ := (n - k) * (tokenFuel work + 1)

/-- What the place of a worker is worth, which has `own` steps left in its
task. -/
def Pc.fuel (n work own : ℕ) : Pc ρ → ℕ
  | .wait => 0
  | .notify => 1
  | .popTask => 2
  | .postSubmitr k => postFuel n work k + 3
  | .writeResn _ => 4
  | .runTask => own + 5
  | .checkTasks => work + 6
  | .unlock => work + 7
  | .checkResns => work + 8
  | .tryLock => work + 9
  | .postResn k => postFuel n work k + 1
  | .unlockResn => postFuel n work 0 + 2
  | .popResn => 2
  | .runResn => 3

/-- The worker's task will submit nothing any more. -/
def Pc.handed : Pc ρ → Bool
  | .postSubmitr _ => true
  | .popTask => true
  | _ => false

namespace State

/-- The tasks of worker `p` that may submit a resolution still. -/
def owed (s : State n τ ρ) (p : Fin n) : ℕ :=
  (s.tasks p).length - if (s.pc p).handed then 1 else 0

/-- **What is left to do.** A resolution leads to one post for each worker,
and a task to a resolution and as many posts again. -/
def fuel (work : ℕ) (own : Fin n → ℕ) (s : State n τ ρ) : ℕ :=
  tokenFuel work * ∑ p, s.sems p + ∑ p, (s.pc p).fuel n work (own p) +
    (2 * postFuel n work 0 + 1) * ∑ p, s.owed p + (postFuel n work 0 + 1) * s.resns.length

end State

/-- Sums that differ in one term. -/
theorem sum_of_ne {f g : Fin n → ℕ} (p : Fin n) (h : ∀ q, q ≠ p → g q = f q) :
    ∑ q, g q + f p = ∑ q, f q + g p := by
  rw [← Finset.add_sum_erase _ f (Finset.mem_univ p),
    ← Finset.add_sum_erase _ g (Finset.mem_univ p),
    Finset.sum_congr rfl fun q hq => h q (Finset.ne_of_mem_erase hq)]
  ring

theorem postFuel_succ {k : ℕ} (hk : k < n) :
    postFuel n work k = postFuel n work (k + 1) + (tokenFuel work + 1) := by
  unfold postFuel
  rw [← Nat.succ_mul]
  congr 1
  omega

/-- One token more, or less. -/
theorem State.sum_post (s : State n τ ρ) (k : Fin n) :
    ∑ q, (s.post k).sems q = ∑ q, s.sems q + 1 := by
  have h := sum_of_ne (f := s.sems) (g := (s.post k).sems) k fun q hq => by
    rw [State.post_sems, if_neg hq]
  rw [State.post_sems, if_pos rfl] at h
  omega

theorem State.sum_take (s : State n τ ρ) (hsem : 0 < s.sems p) :
    ∑ q, (s.take p).sems q + 1 = ∑ q, s.sems q := by
  have h := sum_of_ne (f := s.sems) (g := (s.take p).sems) p fun q hq => by
    rw [State.take_sems, if_neg hq]
  rw [State.take_sems, if_pos rfl] at h
  omega

/-- **What one worker does** is all that matters. -/
theorem State.fuel_lt (hpc : ∀ q, q ≠ p → t.pc q = s.pc q)
    (htasks : ∀ q, q ≠ p → t.tasks q = s.tasks q) (hown : ∀ q, q ≠ p → own' q = own q)
    (h : tokenFuel work * ∑ q, t.sems q + (t.pc p).fuel n work (own' p) +
        (2 * postFuel n work 0 + 1) * t.owed p + (postFuel n work 0 + 1) * t.resns.length <
      tokenFuel work * ∑ q, s.sems q + (s.pc p).fuel n work (own p) +
        (2 * postFuel n work 0 + 1) * s.owed p + (postFuel n work 0 + 1) * s.resns.length) :
    t.fuel work own' < s.fuel work own := by
  have hplace := sum_of_ne (f := fun q => (s.pc q).fuel n work (own q))
    (g := fun q => (t.pc q).fuel n work (own' q)) p fun q hq => by rw [hpc q hq, hown q hq]
  have howed := sum_of_ne (f := s.owed) (g := t.owed) p fun q hq => by
    unfold owed
    rw [hpc q hq, htasks q hq]
  have howed' := congrArg ((2 * postFuel n work 0 + 1) * ·) howed
  simp only [Nat.mul_add] at howed'
  unfold fuel
  omega

/-- A worker that only goes on is closer to its wait, -/
theorem State.fuel_goto {u : State n τ ρ} {c d : Pc ρ} (hp : s.pc p = c) (hpc : u.pc = s.pc)
    (htasks : u.tasks = s.tasks) (hsems : u.sems = s.sems) (hresns : u.resns = s.resns)
    (hhand : d.handed = c.handed) (hown : ∀ q, q ≠ p → own' q = own q)
    (h : d.fuel n work (own' p) < c.fuel n work (own p)) :
    (u.goto p d).fuel work own' < s.fuel work own := by
  have hself : (u.goto p d).pc p = d := by rw [goto_pc, if_pos rfl]
  have howed : (u.goto p d).owed p = s.owed p := by
    unfold owed
    rw [hself, hhand, hp, goto_tasks, htasks]
  refine fuel_lt (fun q hq => ?_) (fun q _ => ?_) hown ?_
  · rw [goto_pc, if_neg hq, hpc]
  · rw [goto_tasks, htasks]
  · rw [hself, howed, hp]
    simp only [goto_sems, goto_resns, hsems, hresns]
    omega

/-- and one that posts has one worker less to post to. -/
theorem State.fuel_post {c d : Pc ρ} (k : Fin n) (hp : s.pc p = c) (hhand : d.handed = c.handed)
    (hown : ∀ q, q ≠ p → own' q = own q)
    (h : d.fuel n work (own' p) + (tokenFuel work + 1) ≤ c.fuel n work (own p)) :
    ((s.post k).goto p d).fuel work own' < s.fuel work own := by
  have hself : ((s.post k).goto p d).pc p = d := by rw [goto_pc, if_pos rfl]
  have howed : ((s.post k).goto p d).owed p = s.owed p := by
    unfold owed
    rw [hself, hhand, hp]
    rfl
  refine fuel_lt (fun q hq => ?_) (fun q _ => rfl) hown ?_
  · rw [goto_pc, if_neg hq]
    rfl
  · have hsum : ∑ q, ((s.post k).goto p d).sems q = ∑ q, s.sems q + 1 := s.sum_post k
    have hresns : ((s.post k).goto p d).resns = s.resns := rfl
    rw [hself, howed, hp, hsum, hresns, Nat.mul_add]
    omega

/-- **Each step of a worker uses something up.** -/
theorem Works.fuel_lt (hC : Control s) (h : Works s p t) (hown : ∀ q, q ≠ p → own' q = own q)
    (hwork : t.pc p = .runTask → own' p ≤ work) : t.fuel work own' < s.fuel work own := by
  have hself : ∀ (u : State n τ ρ) (c : Pc ρ), (u.goto p c).pc p = c :=
    fun u c => by rw [State.goto_pc, if_pos rfl]
  have hother : ∀ (u : State n τ ρ) (c : Pc ρ), u.pc = s.pc → ∀ q, q ≠ p →
      (u.goto p c).pc q = s.pc q :=
    fun u c hu q hq => by rw [State.goto_pc, if_neg hq, hu]
  have hin : (s.pc p).inTask → 0 < (s.tasks p).length :=
    fun h => List.length_pos_iff.2 (hC.task p h)
  cases h with
  | wake hpc hsem =>
    refine State.fuel_lt (hother (s.take p) _ rfl) (fun q _ => rfl) hown ?_
    have hsum := s.sum_take hsem
    have hcost := congrArg (tokenFuel work * ·) hsum
    simp only [Nat.mul_add, Nat.mul_one] at hcost
    have howed : ((s.take p).goto p .tryLock).owed p = s.owed p := by
      unfold State.owed
      rw [hself, hpc]
      rfl
    rw [hself, howed, hpc]
    simp only [State.goto_sems, State.goto_resns, State.take, Pc.fuel, tokenFuel] at hcost ⊢
    omega
  | lock hpc hl =>
    exact State.fuel_goto hpc rfl rfl rfl rfl rfl hown (by simp only [Pc.fuel]; omega)
  | lockLost q hpc hl =>
    exact State.fuel_goto hpc rfl rfl rfl rfl rfl hown (by simp only [Pc.fuel]; omega)
  | noResns hpc hr =>
    exact State.fuel_goto hpc rfl rfl rfl rfl rfl hown (by simp only [Pc.fuel]; omega)
  | someResns hpc hr =>
    exact State.fuel_goto hpc rfl rfl rfl rfl rfl hown (by simp only [Pc.fuel]; omega)
  | unlock hpc =>
    exact State.fuel_goto hpc rfl rfl rfl rfl rfl hown (by simp only [Pc.fuel]; omega)
  | runResn r rs hpc hr =>
    exact State.fuel_goto hpc rfl rfl rfl rfl rfl hown (by simp only [Pc.fuel]; omega)
  | popResn hpc =>
    -- the resolution pays for the posts to come
    refine State.fuel_lt (hother { s with resns := s.resns.tail } _ rfl) (fun q _ => rfl) hown ?_
    have hpos := List.length_pos_iff.2 (hC.resn p (by rw [hpc]; trivial))
    have hlen : s.resns.length = s.resns.tail.length + 1 := by
      rw [List.length_tail]
      omega
    have howed : ({ s with resns := s.resns.tail }.goto p .unlockResn).owed p = s.owed p := by
      unfold State.owed
      rw [hself, hpc]
      rfl
    rw [hself, howed, hpc, hlen]
    simp only [State.goto_sems, State.goto_resns, Pc.fuel, Nat.mul_add]
    omega
  | unlockResn hpc =>
    exact State.fuel_goto hpc rfl rfl rfl rfl rfl hown (by simp only [Pc.fuel]; omega)
  | postResn k hpc =>
    refine State.fuel_post k hpc rfl hown ?_
    simp only [Pc.fuel]
    rw [postFuel_succ k.isLt]
    omega
  | again k hpc hk =>
    exact State.fuel_goto hpc rfl rfl rfl rfl rfl hown (by simp only [Pc.fuel]; omega)
  | noTasks hpc ht =>
    exact State.fuel_goto hpc rfl rfl rfl rfl rfl hown (by simp only [Pc.fuel]; omega)
  | someTasks hpc ht =>
    have hwork := hwork (hself _ _)
    exact State.fuel_goto hpc rfl rfl rfl rfl rfl hown (by simp only [Pc.fuel]; omega)
  | ranTask u us hpc ht =>
    refine State.fuel_lt (hother (s.finished p u) _ rfl) (fun q _ => rfl) hown ?_
    have hpos := hin (by rw [hpc]; trivial)
    have howed : s.owed p = ((s.finished p u).goto p .popTask).owed p + 1 := by
      unfold State.owed
      rw [hself, hpc]
      simp only [State.goto_tasks, State.finished_tasks, Pc.handed, Bool.false_eq_true, if_false,
        if_true]
      omega
    rw [hself, howed, hpc, Nat.mul_add]
    simp only [State.goto_sems, State.goto_resns, State.finished, Pc.fuel]
    omega
  | callSubmitr r hpc ht =>
    exact State.fuel_goto hpc rfl rfl rfl rfl rfl hown (by simp only [Pc.fuel]; omega)
  | writeResn r hpc =>
    -- the task pays for the resolution, and for the posts
    refine State.fuel_lt (hother { s with
      resns := s.resns ++ [r], submittedR := s.submittedR ++ [r] } _ rfl) (fun q _ => rfl) hown ?_
    have hpos := hin (by rw [hpc]; trivial)
    have howed : s.owed p = ({ s with
        resns := s.resns ++ [r]
        submittedR := s.submittedR ++ [r] }.goto p (.postSubmitr 0)).owed p + 1 := by
      unfold State.owed
      rw [hself, hpc]
      simp only [State.goto_tasks, Pc.handed, Bool.false_eq_true, if_false, if_true]
      omega
    rw [hself, howed, hpc, Nat.mul_add]
    simp only [State.goto_sems, State.goto_resns, List.length_append, List.length_singleton,
      Pc.fuel, Nat.mul_add]
    omega
  | postSubmitr k hpc =>
    refine State.fuel_post k hpc rfl hown ?_
    simp only [Pc.fuel]
    rw [postFuel_succ k.isLt]
    omega
  | ranSubmitr k u us hpc hk ht =>
    exact State.fuel_goto (u := s.finished p u) hpc rfl rfl rfl rfl rfl hown
      (by simp only [Pc.fuel]; omega)
  | popTask hpc =>
    refine State.fuel_lt (hother (s.pop p) _ rfl) (fun q hq => ?_) hown ?_
    · rw [State.goto_tasks, State.pop_tasks, if_neg hq]
    · have howed : ((s.pop p).goto p .notify).owed p = s.owed p := by
        unfold State.owed
        rw [hself, hpc, State.goto_tasks, State.pop_tasks, if_pos rfl, List.length_tail]
        rfl
      rw [hself, howed, hpc]
      simp only [State.goto_sems, State.goto_resns, State.pop, Pc.fuel]
      omega
  | notify hpc =>
    exact State.fuel_goto hpc rfl rfl rfl rfl rfl hown (by simp only [Pc.fuel]; omega)

/-- **Where a worker cannot go on**: it waits for a token, or for room in
the queue of resolutions. -/
theorem Control.blocked {resn : Option ρ} (hC : Control s) (h : workerStep s p resn = none) :
    (s.pc p = .wait ∧ s.sems p = 0) ∨ ∃ r, s.pc p = .writeResn r ∧ isFull s.resns = true := by
  unfold workerStep at h
  cases hpc : s.pc p with
  | wait =>
    refine .inl ⟨rfl, ?_⟩
    by_contra hsem
    simp only [hpc] at h
    rw [if_pos (Nat.pos_of_ne_zero hsem)] at h
    cases h
  | tryLock =>
    simp only [hpc] at h
    split at h <;> cases h
  | checkResns =>
    simp only [hpc] at h
    split at h <;> cases h
  | runResn =>
    have hne := hC.resn p (by rw [hpc]; trivial)
    obtain ⟨r, rs, hr⟩ := List.exists_cons_of_ne_nil hne
    simp only [hpc, hr] at h
    cases h
  | postResn k =>
    simp only [hpc] at h
    split at h <;> cases h
  | checkTasks =>
    simp only [hpc] at h
    split at h <;> cases h
  | runTask =>
    have hne := hC.task p (by rw [hpc]; trivial)
    obtain ⟨t, ts, ht⟩ := List.exists_cons_of_ne_nil hne
    rw [hpc, ht] at h
    cases resn <;> cases h
  | writeResn r =>
    refine .inr ⟨r, rfl, ?_⟩
    by_contra hfull
    simp only [hpc] at h
    rw [if_neg hfull] at h
    cases h
  | postSubmitr k =>
    have hne := hC.task p (by rw [hpc]; trivial)
    obtain ⟨t, ts, ht⟩ := List.exists_cons_of_ne_nil hne
    simp only [hpc, ht] at h
    split at h <;> cases h
  | _ =>
    simp only [hpc] at h
    cases h

end Contentious.Pool
