import Contentious.Pool.Finish
import Contentious.Pool.Fuel

/-!
# Pool — the end of the pool

`stop` clears `spin` and posts to each worker once, and the destructor
joins them. A worker reads `spin` when it is back from its semaphore; when it
is cleared the worker asserts that there is nothing left in its queue nor
among the resolutions, and leaves its loop. Nothing in `stop` sees to that:
it holds where `finish` has returned before, with nothing submitted since
(`asserts_hold`). Then the workers leave one by one, whatever tokens are
left over from before, and the joins return (`shutdown`).
-/

namespace Contentious.Pool

variable {n : ℕ} {τ ρ : Type}

/-- Where a worker is that may be asked to leave. -/
inductive Leaving
  /-- in its loop, where the pool has it -/
  | loops
  /-- back from `sems[p].wait()`, at `if (!spin)` -/
  | woken
  /-- `assert(tasks[p].isEmpty())` -/
  | checkTasks
  /-- `assert(resns.isEmpty())` -/
  | checkResns
  /-- out of its loop -/
  | exited
  /-- an assertion has failed -/
  | aborted
deriving DecidableEq

/-- How far the outside thread is with the end of the pool. -/
inductive Down
  | before
  /-- in `stop`, at `sems[k].post()` -/
  | post (k : ℕ)
  /-- in `~threadpool`, at `threads[k].join()` -/
  | join (k : ℕ)
  | ended
deriving DecidableEq

/-- `stop` has posted to worker `p`. -/
def Down.past (p : Fin n) : Down → Prop
  | .before => False
  | .post k => p < k
  | _ => True

/-- The steps a worker has left before it is in its loop, or out of it. -/
def Leaving.fuel : Leaving → ℕ
  | .woken => 3
  | .checkTasks => 2
  | .checkResns => 1
  | _ => 0

/-- What is left of `stop` and of the destructor; a post is worth four
rounds' steps. -/
def Down.fuel (n : ℕ) : Down → ℕ
  | .before => 0
  | .post k => (n - k) * (4 * tokenFuel 0 + 1) + n + 2
  | .join k => n - k + 1
  | .ended => 0

/-- The pool, `spin`, and who has come how far. -/
structure Stopping (n : ℕ) (τ ρ : Type) where
  pool : State n τ ρ
  spin : Bool
  down : Down
  stage : Fin n → Leaving

/-- A thread takes a step. -/
inductive StopAct (n : ℕ) (τ ρ : Type)
  | submit (p : Fin n) (task : τ)
  | finish
  /-- the outside thread calls `stop` -/
  | stop
  /-- the outside thread goes on, in the pool, in `stop` or in the
  destructor -/
  | main
  | worker (p : Fin n) (resn : Option ρ)

/-- The worker is at `sems[p].wait()`. -/
def Pc.waits : Pc ρ → Bool
  | .wait => true
  | _ => false

namespace Stopping

/-- The pool goes on. -/
def lift (s : Stopping n τ ρ) (t : Option (State n τ ρ)) : Option (Stopping n τ ρ) :=
  t.map fun t => { s with pool := t }

/-- Worker `p` has come to `c`. -/
def at' (s : Stopping n τ ρ) (p : Fin n) (c : Leaving) : Stopping n τ ρ :=
  { s with stage := Function.update s.stage p c }

/-- The next step of the outside thread. -/
def mainStep (s : Stopping n τ ρ) : Option (Stopping n τ ρ) :=
  match s.down with
  | .before => s.lift (Pool.mainStep s.pool)
  | .post k =>
    if h : k < n then some { s with pool := s.pool.post ⟨k, h⟩, down := .post (k + 1) }
    else some { s with down := .join 0 }
  | .join k =>
    if h : k < n then
      if s.stage ⟨k, h⟩ = .exited then some { s with down := .join (k + 1) } else none
    else some { s with down := .ended }
  | .ended => none

/-- The next step of `worker(p)`. -/
def workerStep (s : Stopping n τ ρ) (p : Fin n) (resn : Option ρ) : Option (Stopping n τ ρ) :=
  match s.stage p with
  | .loops =>
    (s.lift (Pool.workerStep s.pool p resn)).map fun t =>
      t.at' p (if (s.pool.pc p).waits then .woken else .loops)
  | .woken => some (s.at' p (if s.spin then .loops else .checkTasks))
  | .checkTasks => some (s.at' p (if (s.pool.tasks p).isEmpty then .checkResns else .aborted))
  | .checkResns => some (s.at' p (if s.pool.resns.isEmpty then .exited else .aborted))
  | .exited => none
  | .aborted => none

/-- One step. -/
def step (s : Stopping n τ ρ) : StopAct n τ ρ → Option (Stopping n τ ρ)
  | .submit p task =>
    if s.down = .before then s.lift (Pool.step s.pool (.submit p task)) else none
  | .finish => if s.down = .before then s.lift (Pool.step s.pool .finish) else none
  | .stop =>
    if s.down = .before ∧ s.pool.main.free then some { s with spin := false, down := .post 0 }
    else none
  | .main => s.mainStep
  | .worker p resn => s.workerStep p resn

/-- `threadpool()` with `n` workers. -/
def init (n : ℕ) (τ ρ : Type) : Stopping n τ ρ := ⟨Pool.init n τ ρ, true, .before, fun _ => .loops⟩

end Stopping

/-- The thread pool up to its end. -/
def stopping (n : ℕ) (τ ρ : Type) : Machine (Stopping n τ ρ) (StopAct n τ ρ) := ⟨Stopping.step⟩

namespace Stopping

variable {s t u : Stopping n τ ρ} {p q : Fin n} {a : StopAct n τ ρ}

/-- **What a step does.** -/
inductive Moves (s : Stopping n τ ρ) : StopAct n τ ρ → Stopping n τ ρ → Prop
  | outside {a : StopAct n τ ρ} {t : State n τ ρ} (hd : s.down = .before) (h : Submits s.pool t) :
      Moves s a { s with pool := t }
  | stop (hd : s.down = .before) : Moves s .stop { s with spin := false, down := .post 0 }
  | post (k : Fin n) (hd : s.down = .post k) :
      Moves s .main { s with pool := s.pool.post k, down := .post (k + 1) }
  | posted {k : ℕ} (hd : s.down = .post k) (hk : n ≤ k) : Moves s .main { s with down := .join 0 }
  | join (k : Fin n) (hd : s.down = .join k) (he : s.stage k = .exited) :
      Moves s .main { s with down := .join (k + 1) }
  | joined {k : ℕ} (hd : s.down = .join k) (hk : n ≤ k) : Moves s .main { s with down := .ended }
  | works {p : Fin n} {resn : Option ρ} {t : State n τ ρ} (hl : s.stage p = .loops)
      (h : Works s.pool p t) : Moves s (.worker p resn)
        ({ s with pool := t }.at' p (if (s.pool.pc p).waits then .woken else .loops))
  | spins {p : Fin n} {resn : Option ρ} (hw : s.stage p = .woken) :
      Moves s (.worker p resn) (s.at' p (if s.spin then .loops else .checkTasks))
  | checkTasks {p : Fin n} {resn : Option ρ} (hc : s.stage p = .checkTasks) :
      Moves s (.worker p resn)
        (s.at' p (if (s.pool.tasks p).isEmpty then .checkResns else .aborted))
  | checkResns {p : Fin n} {resn : Option ρ} (hc : s.stage p = .checkResns) :
      Moves s (.worker p resn) (s.at' p (if s.pool.resns.isEmpty then .exited else .aborted))

theorem moves_of_mainStep (h : s.mainStep = some t) : Moves s .main t := by
  unfold mainStep at h
  split at h
  · next hd =>
    obtain ⟨u, hu, rfl⟩ := Option.map_eq_some_iff.1 h
    exact .outside hd (submits_of_mainStep hu)
  · next k hd =>
    split at h
    · next hk =>
      cases h
      exact .post ⟨k, hk⟩ hd
    · next hk =>
      cases h
      exact .posted hd (Nat.le_of_not_lt hk)
  · next k hd =>
    split at h
    · next hk =>
      obtain ⟨he, h⟩ := Option.ite_none_right_eq_some.1 h
      cases h
      exact .join ⟨k, hk⟩ hd he
    · next hk =>
      cases h
      exact .joined hd (Nat.le_of_not_lt hk)
  · cases h

theorem moves_of_workerStep {resn : Option ρ} (h : s.workerStep p resn = some t) :
    Moves s (.worker p resn) t := by
  unfold workerStep at h
  split at h
  · next hl =>
    obtain ⟨v, hv, rfl⟩ := Option.map_eq_some_iff.1 h
    obtain ⟨u, hu, rfl⟩ := Option.map_eq_some_iff.1 hv
    exact .works hl (works_of_workerStep hu)
  · next hw =>
    cases h
    exact .spins hw
  · next hc =>
    cases h
    exact .checkTasks hc
  · next hc =>
    cases h
    exact .checkResns hc
  · cases h
  · cases h

theorem moves_of_step (h : (stopping n τ ρ).step s a = some t) : Moves s a t := by
  change s.step a = some t at h
  unfold step at h
  cases a with
  | submit p task =>
    obtain ⟨hd, h⟩ := Option.ite_none_right_eq_some.1 h
    obtain ⟨u, hu, rfl⟩ := Option.map_eq_some_iff.1 h
    obtain ⟨hf, hu⟩ := Option.ite_none_right_eq_some.1 hu
    cases hu
    exact .outside hd (.submit p task (Bool.and_eq_true_iff.1 hf).1)
  | finish =>
    obtain ⟨hd, h⟩ := Option.ite_none_right_eq_some.1 h
    obtain ⟨u, hu, rfl⟩ := Option.map_eq_some_iff.1 h
    obtain ⟨hf, hu⟩ := Option.ite_none_right_eq_some.1 hu
    cases hu
    exact .outside hd (.finish hf)
  | stop =>
    obtain ⟨hd, h⟩ := Option.ite_none_right_eq_some.1 h
    cases h
    exact .stop hd.1
  | main => exact moves_of_mainStep h
  | worker p resn => exact moves_of_workerStep h

theorem at'_stage (s : Stopping n τ ρ) (p q : Fin n) (c : Leaving) :
    (s.at' p c).stage q = if q = p then c else s.stage q :=
  Function.update_apply ..

/-! ## What holds to the end -/

/-- `stop` is called when `finish` has returned, and nothing was submitted
since. -/
def AfterFinish (s : Stopping n τ ρ) : StopAct n τ ρ → Prop
  | .stop => s.pool.main = .returned
  | _ => True

instance (s : Stopping n τ ρ) : ∀ a, Decidable (AfterFinish s a)
  | .stop => inferInstanceAs (Decidable (_ = _))
  | .submit _ _ => isTrue trivial
  | .finish => isTrue trivial
  | .main => isTrue trivial
  | .worker _ _ => isTrue trivial

/-- **What holds to the end.** Before `stop` the pool is what it is without
it; from then on there is nothing in its queues, and a worker that has been
posted to has a token or has seen `spin`. -/
structure Orderly (s : Stopping n τ ρ) : Prop where
  control : Control s.pool
  ordered : Ordered s.pool
  before : s.down = .before → s.spin = true ∧ Sound s.pool ∧ Seen s.pool ∧
    ∀ p, s.stage p = .loops ∨ s.stage p = .woken
  after : s.down ≠ .before → s.spin = false ∧ (∀ p, s.pool.tasks p = []) ∧ s.pool.resns = []
  clean : ∀ p, s.stage p ≠ .aborted
  posted : ∀ p : Fin n, s.down.past p → 0 < s.pool.sems p ∨ s.stage p ≠ .loops

end Stopping

/-- A worker takes no token but where it waits, and only its own. -/
theorem Works.le_sems {s t : State n τ ρ} {p q : Fin n} (h : Works s p t)
    (hq : q ≠ p ∨ (s.pc p).waits = false) : s.sems q ≤ t.sems q := by
  cases h with
  | wake hpc hsem =>
    rcases hq with hqp | hpc'
    · rw [State.goto_sems, State.take_sems, if_neg hqp]
    · rw [hpc] at hpc'
      cases hpc'
  | postResn k hpc => exact State.le_post s k q
  | postSubmitr k hpc => exact State.le_post s k q
  | _ => exact le_rfl

namespace Stopping

variable {s t u : Stopping n τ ρ} {p q : Fin n} {a : StopAct n τ ρ}

theorem Orderly.init : Orderly (init n τ ρ) where
  control := Sound.init.control
  ordered := Sound.init.ordered
  before _ := ⟨rfl, .init, ⟨fun _ h => (nomatch h), fun _ h => (nomatch h), fun h => nomatch h⟩,
    fun _ => .inl rfl⟩
  after h := absurd rfl h
  clean _ h := nomatch h
  posted _ h := h.elim

/-- A worker that is asked to leave has seen `spin` cleared. -/
theorem Orderly.down_ne (hO : Orderly s) (hl : s.stage p ≠ .loops) (hw : s.stage p ≠ .woken) :
    s.down ≠ .before := by
  intro hd
  rcases (hO.before hd).2.2.2 p with h | h
  · exact hl h
  · exact hw h

/-- A worker whose stage is another now. -/
theorem Orderly.at' {c : Leaving} (hO : Orderly s) (hbefore : s.down = .before → c = .loops)
    (hclean : c ≠ .aborted) (hposted : s.down ≠ .before → c ≠ .loops) : Orderly (s.at' p c) where
  control := hO.control
  ordered := hO.ordered
  before hd := by
    obtain ⟨hspin, hS, hI, hst⟩ := hO.before hd
    refine ⟨hspin, hS, hI, fun q => ?_⟩
    rw [at'_stage]
    split
    · exact .inl (hbefore hd)
    · exact hst q
  after := hO.after
  clean q := by
    rw [at'_stage]
    split
    · exact hclean
    · exact hO.clean q
  posted q hq := by
    rw [at'_stage]
    split
    · refine .inr (hposted fun hd => ?_)
      change s.down.past q at hq
      rw [hd] at hq
      exact hq
    · exact hO.posted q hq

/-- **A round of the loop**, or what is left of it. -/
theorem Orderly.works {t : State n τ ρ} (hO : Orderly s) (hl : s.stage p = .loops)
    (h : Works s.pool p t) :
    Orderly ({ s with pool := t }.at' p (if (s.pool.pc p).waits then .woken else .loops)) where
  control := hO.control.works h
  ordered := hO.ordered.works hO.control h
  before hd := by
    obtain ⟨hspin, hS, hI, hst⟩ := hO.before hd
    refine ⟨hspin, hS.works h, hI.works hS (hS.works h) h, fun q => ?_⟩
    rw [at'_stage]
    split
    · split
      · exact .inr rfl
      · exact .inl rfl
    · exact hst q
  after hd := by
    obtain ⟨hspin, htasks, hresns⟩ := hO.after hd
    exact ⟨hspin, fun q => h.tasks_nil (htasks q), h.resns_nil hO.control htasks hresns⟩
  clean q := by
    rw [at'_stage]
    split
    · split <;> simp
    · exact hO.clean q
  posted q hq := by
    rw [at'_stage]
    by_cases hqp : q = p
    · subst hqp
      rw [if_pos rfl]
      split
      · exact .inr (by simp)
      · next hw =>
        have hle := h.le_sems (q := q) (.inr (by simpa using hw))
        have hpos := (hO.posted q hq).resolve_right fun hne => hne hl
        exact .inl (by change 0 < t.sems q; omega)
    · rw [if_neg hqp]
      have hle := h.le_sems (.inl hqp)
      refine (hO.posted q hq).imp_left fun hpos => ?_
      change 0 < t.sems q
      omega

theorem Orderly.moves (hO : Orderly s) (hC : AfterFinish s a) (h : Moves s a t) : Orderly t := by
  cases h with
  | outside hd h =>
    obtain ⟨hspin, hS, hI, hst⟩ := hO.before hd
    refine ⟨hO.control.submits h, hO.ordered.submits hO.control h, fun _ =>
      ⟨hspin, hS.submits h, hI.submits (hS.submits h) h, hst⟩, fun hne => absurd hd hne,
      hO.clean, fun q hq => ?_⟩
    change s.down.past q at hq
    rw [hd] at hq
    exact hq.elim
  | stop hd =>
    obtain ⟨-, -, hI, -⟩ := hO.before hd
    exact ⟨hO.control, hO.ordered, fun h => (by cases h), fun _ => ⟨rfl, hI.returned hC⟩,
      hO.clean, fun q hq => absurd hq (Nat.not_lt_zero _)⟩
  | post k hd =>
    refine ⟨⟨hO.control.lock, hO.control.task, hO.control.resn⟩,
      ⟨hO.ordered.tasks, hO.ordered.popTask, hO.ordered.resns, hO.ordered.popResn⟩,
      fun h => (by cases h), fun _ => hO.after (by rw [hd]; simp), hO.clean, fun q hq => ?_⟩
    change 0 < (s.pool.post k).sems q ∨ _
    rw [State.post_sems]
    split
    · exact .inl (Nat.succ_pos _)
    · next hqk =>
      refine hO.posted q ?_
      rw [hd]
      exact Nat.lt_of_le_of_ne (Nat.le_of_lt_succ hq) fun h => hqk (Fin.ext h)
  | posted hd hk =>
    refine ⟨hO.control, hO.ordered, fun h => (by cases h), fun _ => hO.after (by rw [hd]; simp),
      hO.clean, fun q _ => hO.posted q ?_⟩
    rw [hd]
    exact lt_of_lt_of_le q.isLt hk
  | join k hd he =>
    exact ⟨hO.control, hO.ordered, fun h => (by cases h), fun _ => hO.after (by rw [hd]; simp),
      hO.clean, fun q _ => hO.posted q (by rw [hd]; trivial)⟩
  | joined hd hk =>
    exact ⟨hO.control, hO.ordered, fun h => (by cases h), fun _ => hO.after (by rw [hd]; simp),
      hO.clean, fun q _ => hO.posted q (by rw [hd]; trivial)⟩
  | works hl h => exact hO.works hl h
  | @spins p resn hw =>
    refine hO.at' (fun hd => ?_) ?_ fun hd => ?_
    · rw [(hO.before hd).1]
      rfl
    · split <;> simp
    · rw [(hO.after hd).1]
      simp
  | @checkTasks p resn hc =>
    have hd := hO.down_ne (p := p) (by rw [hc]; simp) (by rw [hc]; simp)
    rw [(hO.after hd).2.1 p]
    exact hO.at' (fun h => absurd h hd) (by simp) fun _ => by simp
  | @checkResns p resn hc =>
    have hd := hO.down_ne (p := p) (by rw [hc]; simp) (by rw [hc]; simp)
    rw [(hO.after hd).2.2]
    exact hO.at' (fun h => absurd h hd) (by simp) fun _ => by simp

theorem orderly_of_run {acts : List (StopAct n τ ρ)}
    (hrun : (stopping n τ ρ).run (init n τ ρ) acts = some s)
    (hafter : (stopping n τ ρ).Along AfterFinish (init n τ ρ) acts) : Orderly s :=
  Machine.run_invariant_along (fun _ _ _ hO hC hst => hO.moves hC (moves_of_step hst)) .init hafter
    hrun

/-- **The assertions hold.** In every run in which `stop` is called after
`finish` only, no worker ever finds a task or a resolution left when it is
asked to leave. -/
theorem asserts_hold {acts : List (StopAct n τ ρ)}
    (hrun : (stopping n τ ρ).run (init n τ ρ) acts = some s)
    (hafter : (stopping n τ ρ).Along AfterFinish (init n τ ρ) acts) (p : Fin n) :
    s.stage p ≠ .aborted :=
  (orderly_of_run hrun hafter).clean p

/-! ## Everyone leaves -/

/-- **What is left to do** once `stop` is called. -/
def fuel (s : Stopping n τ ρ) : ℕ :=
  4 * s.pool.fuel 0 (fun _ => 0) + ∑ p, (s.stage p).fuel + s.down.fuel n

/-- One worker's stage. -/
theorem sum_at' (s : Stopping n τ ρ) (p : Fin n) (c : Leaving) :
    ∑ q, ((s.at' p c).stage q).fuel + (s.stage p).fuel = ∑ q, (s.stage q).fuel + c.fuel := by
  have h := sum_of_ne (f := fun q => (s.stage q).fuel) (g := fun q => ((s.at' p c).stage q).fuel) p
    fun q hq => by rw [at'_stage, if_neg hq]
  rwa [at'_stage, if_pos rfl] at h

theorem fuel_post (s : State n τ ρ) (k : Fin n) (own : Fin n → ℕ) :
    (s.post k).fuel 0 own = s.fuel 0 own + tokenFuel 0 := by
  have hsum := s.sum_post k
  unfold State.fuel
  rw [hsum, Nat.mul_add]
  have howed : (s.post k).owed = s.owed := rfl
  have hresns : (s.post k).resns = s.resns := rfl
  rw [howed, hresns]
  simp only [State.post_pc]
  omega

/-- A worker that goes on to its end. -/
theorem fuel_at' {c : Leaving} (h : c.fuel < (s.stage p).fuel) : (s.at' p c).fuel < s.fuel := by
  have hsum := s.sum_at' p c
  unfold fuel
  change 4 * s.pool.fuel 0 (fun _ => 0) + _ + s.down.fuel n < _
  omega

/-- **Each step uses something up.** -/
theorem Moves.fuel_lt (hO : Orderly s) (hd : s.down ≠ .before) (h : Moves s a t) :
    t.fuel < s.fuel ∧ t.down ≠ .before := by
  cases h with
  | outside hd' => exact absurd hd' hd
  | stop hd' => exact absurd hd' hd
  | post k hd' =>
    refine ⟨?_, by simp⟩
    obtain ⟨m, hm⟩ : ∃ m, n - k = m + 1 := ⟨n - k - 1, by have := k.isLt; omega⟩
    have hm' : n - (k + 1) = m := by omega
    unfold fuel
    simp only [hd', Down.fuel, fuel_post, hm, hm', Nat.succ_mul]
    omega
  | posted hd' hk =>
    refine ⟨?_, by simp⟩
    unfold fuel
    simp only [hd', Down.fuel]
    omega
  | join k hd' he =>
    refine ⟨?_, by simp⟩
    have hk := k.isLt
    unfold fuel
    simp only [hd', Down.fuel]
    omega
  | joined hd' hk =>
    refine ⟨?_, by simp⟩
    unfold fuel
    simp only [hd', Down.fuel]
    omega
  | @works p resn v hl h =>
    refine ⟨?_, hd⟩
    have hlt : v.fuel 0 (fun _ => 0) < s.pool.fuel 0 fun _ => 0 :=
      h.fuel_lt hO.control (fun _ _ => rfl) fun _ => le_rfl
    have hsum := ({ s with pool := v } : Stopping n τ ρ).sum_at' p
      (if (s.pool.pc p).waits then .woken else .loops)
    have hle : (if (s.pool.pc p).waits then Leaving.woken else .loops).fuel ≤ 3 := by
      split
      · exact le_rfl
      · exact Nat.zero_le 3
    unfold fuel
    unfold at' at hsum ⊢
    dsimp only at hsum ⊢
    omega
  | spins hw =>
    refine ⟨fuel_at' ?_, hd⟩
    rw [hw, (hO.after hd).1]
    exact Nat.lt_succ_self 2
  | @checkTasks p resn hc =>
    refine ⟨fuel_at' ?_, hd⟩
    rw [hc, (hO.after hd).2.1]
    exact Nat.lt_succ_self 1
  | checkResns hc =>
    refine ⟨fuel_at' ?_, hd⟩
    rw [hc, (hO.after hd).2.2]
    exact Nat.lt_succ_self 0

/-- Where nobody can go on, all have left. -/
theorem Orderly.ended (hO : Orderly s) (hd : s.down ≠ .before)
    (hrest : ∀ a, (stopping n τ ρ).step s a = none) :
    s.down = .ended ∧ ∀ p, s.stage p = .exited := by
  obtain ⟨hspin, htasks, hresns⟩ := hO.after hd
  have hmain : s.mainStep = none := hrest .main
  unfold mainStep at hmain
  -- all posts are done
  have hpast : ∀ p : Fin n, s.down.past p := by
    intro p
    cases hdown : s.down with
    | before => exact absurd hdown hd
    | post k =>
      rw [hdown] at hmain
      dsimp only at hmain
      split at hmain
      · cases hmain
      · cases hmain
    | join k => trivial
    | ended => trivial
  have hexit : ∀ p, s.stage p = .exited := by
    intro p
    have hw : s.workerStep p none = none := hrest (.worker p none)
    unfold workerStep at hw
    cases hst : s.stage p with
    | loops =>
      rw [hst] at hw
      have hpool := Option.map_eq_none_iff.1 (Option.map_eq_none_iff.1 hw)
      rcases hO.control.blocked hpool with ⟨-, hsem⟩ | ⟨r, hpc, -⟩
      · have hpos := (hO.posted p (hpast p)).resolve_right fun hne => hne hst
        omega
      · exact absurd (htasks p) (hO.control.task p (by rw [hpc]; trivial))
    | woken => rw [hst] at hw; cases hw
    | checkTasks => rw [hst] at hw; cases hw
    | checkResns => rw [hst] at hw; cases hw
    | exited => rfl
    | aborted => exact absurd hst (hO.clean p)
  refine ⟨?_, hexit⟩
  cases hdown : s.down with
  | before => exact absurd hdown hd
  | post k =>
    rw [hdown] at hmain
    dsimp only at hmain
    split at hmain <;> cases hmain
  | join k =>
    rw [hdown] at hmain
    dsimp only at hmain
    split at hmain
    · rw [if_pos (hexit _)] at hmain
      cases hmain
    · cases hmain
  | ended => rfl

/-- **The end comes.** Once `stop` is called after `finish`, whatever the
threads do next comes to an end, no later than `fuel` says; and where none
of them can go on, every worker has left its loop, every join has returned,
and what was submitted has been run, all of it and in order. -/
theorem shutdown {acts more : List (StopAct n τ ρ)}
    (hrun : (stopping n τ ρ).run (init n τ ρ) acts = some s)
    (hafter : (stopping n τ ρ).Along AfterFinish (init n τ ρ) acts) (hd : s.down ≠ .before)
    (hmore : (stopping n τ ρ).run s more = some t) :
    more.length ≤ s.fuel ∧
      ((∀ a, (stopping n τ ρ).step t a = none) → t.down = .ended ∧ (∀ p, t.stage p = .exited) ∧
        (∀ p, t.pool.ran p = t.pool.submitted p) ∧ t.pool.ranR = t.pool.submittedR) := by
  have hkeep : ∀ (s : Stopping n τ ρ) a t, (Orderly s ∧ s.down ≠ .before) → True →
      (stopping n τ ρ).step s a = some t → (Orderly t ∧ t.down ≠ .before) ∧ t.fuel < s.fuel := by
    rintro s a t ⟨hO, hd⟩ - hst
    have hm := moves_of_step hst
    obtain ⟨hlt, hd'⟩ := hm.fuel_lt hO hd
    refine ⟨⟨hO.moves ?_ hm, hd'⟩, hlt⟩
    cases hm with
    | stop hd'' => exact absurd hd'' hd
    | outside hd'' => exact absurd hd'' hd
    | _ => trivial
  have hO := orderly_of_run hrun hafter
  have hle := Machine.run_length_le hkeep ⟨hO, hd⟩ (fun _ _ => trivial) hmore
  refine ⟨by omega, fun hrest => ?_⟩
  obtain ⟨hOt, hdt⟩ := Machine.run_invariant
    (fun s a t hI hst => (hkeep s a t hI trivial hst).1) ⟨hO, hd⟩ hmore
  obtain ⟨hended, hexit⟩ := hOt.ended hdt hrest
  obtain ⟨-, htasks, hresns⟩ := hOt.after hdt
  refine ⟨hended, hexit, fun p => ?_, ?_⟩
  · have hpc : t.pool.pc p ≠ .popTask := fun hpc =>
      hOt.control.task p (by rw [hpc]; trivial) (htasks p)
    rw [hOt.ordered.tasks p hpc, htasks, List.append_nil]
  · have hpc : ∀ p, t.pool.pc p ≠ .popResn := fun p hpc =>
      hOt.control.resn p (by rw [hpc]; trivial) hresns
    rw [hOt.ordered.resns hpc, hresns, List.append_nil]

/-- When all have left nobody goes on. -/
theorem step_of_ended (hd : s.down = .ended) (hexit : ∀ p, s.stage p = .exited)
    (a : StopAct n τ ρ) : (stopping n τ ρ).step s a = none := by
  change s.step a = none
  unfold step
  cases a with
  | submit p task => exact if_neg (by rw [hd]; simp)
  | finish => exact if_neg (by rw [hd]; simp)
  | stop => exact if_neg (by rw [hd]; simp)
  | main =>
    dsimp only
    unfold mainStep
    rw [hd]
  | worker p resn =>
    dsimp only
    unfold workerStep
    rw [hexit p]

/-- Two workers and one task, which is done before `finish` is called. -/
def oneTask : List (StopAct 2 ℕ ℕ) :=
  List.flatten
    [[.submit 0 7, .main], List.replicate 9 (.worker 0 none), [.finish], List.replicate 5 .main,
      [.stop, .main, .worker 0 none, .main, .main], List.replicate 3 (.worker 0 none), [.main],
      List.replicate 4 (.worker 1 none), [.main, .main]]

theorem asserts_hold_two :
    ∃ s, (stopping 2 ℕ ℕ).run (init 2 ℕ ℕ) (oneTask.take 25) = some s ∧
      s.stage 0 = .exited ∧ s.stage 1 = .loops ∧ ∀ p, s.stage p ≠ .aborted := by
  have hend : ((stopping 2 ℕ ℕ).run (init 2 ℕ ℕ) (oneTask.take 25)).map
      (fun s => (s.stage 0, s.stage 1)) = some (.exited, .loops) := by decide +kernel
  have hafter : (stopping 2 ℕ ℕ).Along AfterFinish (init 2 ℕ ℕ) (oneTask.take 25) := by
    decide +kernel
  obtain ⟨s, hrun, hs⟩ := Option.map_eq_some_iff.1 hend
  obtain ⟨h0, h1⟩ := Prod.mk.inj hs
  exact ⟨s, hrun, h0, h1, asserts_hold hrun hafter⟩

theorem shutdown_two :
    ∃ s t, (stopping 2 ℕ ℕ).run (init 2 ℕ ℕ) (oneTask.take 18) = some s ∧
      (stopping 2 ℕ ℕ).run s (oneTask.drop 18) = some t ∧ (oneTask.drop 18).length ≤ s.fuel ∧
      t.down = .ended ∧ ∀ p, t.pool.ran p = t.pool.submitted p := by
  have hend : ((stopping 2 ℕ ℕ).run (init 2 ℕ ℕ) (oneTask.take 18)).bind (fun s =>
      ((stopping 2 ℕ ℕ).run s (oneTask.drop 18)).map fun t =>
        (s.down, t.down, decide (∀ p, t.stage p = .exited))) = some (.post 0, .ended, true) := by
    decide +kernel
  have hafter : (stopping 2 ℕ ℕ).Along AfterFinish (init 2 ℕ ℕ) (oneTask.take 18) := by
    decide +kernel
  obtain ⟨s, hrun, hs⟩ := Option.bind_eq_some_iff.1 hend
  obtain ⟨t, hmore, ht⟩ := Option.map_eq_some_iff.1 hs
  simp only [Prod.mk.injEq, decide_eq_true_eq] at ht
  obtain ⟨hd, hended, hexit⟩ := ht
  obtain ⟨hle, hout⟩ := shutdown hrun hafter (by rw [hd]; simp) hmore
  exact ⟨s, t, hrun, hmore, hle, hended, (hout (step_of_ended hended hexit)).2.2.1⟩

end Stopping

end Contentious.Pool
