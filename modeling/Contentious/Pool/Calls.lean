import Contentious.Pool.Progress
import Mathlib.Data.Fintype.Card

/-!
# Pool — parallel operations on the pool

A call of a parallel operation makes a latch and hands one task to every
worker, in turn (`exec_par`). A task detaches, computes and reattaches its
splinter; then it counts the latch of its call down, asks whether it is at
zero, and submits the call's resolution if it is. These are steps of their
own, taken by the pool's workers while they run a task, so what the pool
keeps is kept here (`Calls.sound`). On top of that stands what the latches
say: who has counted down (`Counts`).
-/

namespace Contentious.Pool

/-- Where a worker is in its task. -/
inductive Stage
  /-- before its splinter is back -/
  | splinter
  /-- at `latch->count_down()` -/
  | countDown
  /-- at `latch->try_wait()` -/
  | tryWait
  /-- past it: whether the latch was at zero -/
  | tested (zero : Bool)
deriving DecidableEq

/-- The worker has counted the latch of its task down. -/
def Stage.down : Stage → Prop
  | .tryWait => True
  | .tested _ => True
  | _ => False

/-- The pool, and the latches of the calls. A call is known by its number,
and so are its tasks and its resolution. -/
structure Calls (n : ℕ) where
  pool : State n ℕ ℕ
  /-- the calls that were begun -/
  calls : ℕ
  /-- the worker that the last of them hands its next task to -/
  turn : ℕ
  latch : ℕ → ℕ
  stage : Fin n → Stage
  /-- the workers whose splinter of a call is back -/
  reattached : ℕ → Finset (Fin n)
  /-- the workers that have counted a latch down -/
  counted : ℕ → Finset (Fin n)

/-- A thread takes a step. -/
inductive CallAct (n : ℕ)
  /-- the outside thread begins a call: its latch is made -/
  | call
  /-- `tp.submit(task, p)`, for the next worker -/
  | submit
  /-- the outside thread calls `finish` -/
  | finish
  /-- the outside thread goes on in `submit` or `finish` -/
  | main
  /-- worker `p` goes on -/
  | worker (p : Fin n)

variable {n : ℕ}

namespace Calls

/-- Worker `p` goes on at `c` in its task. -/
def at' (s : Calls n) (p : Fin n) (c : Stage) : Calls n :=
  { s with stage := Function.update s.stage p c }

/-- A step of worker `p` in the pool; a task that returns is over. -/
def poolStep (s : Calls n) (p : Fin n) (resn : Option ℕ) : Option (Calls n) :=
  (workerStep s.pool p resn).map fun pool =>
    { s with
      pool := pool
      stage := if pool.pc p = .popTask then Function.update s.stage p .splinter else s.stage }

/-- The next step of worker `p`. -/
def worker (s : Calls n) (p : Fin n) : Option (Calls n) :=
  match s.pool.pc p, s.pool.tasks p with
  | .runTask, k :: _ =>
    match s.stage p with
    | .splinter => some ({ s with
        reattached := Function.update s.reattached k (insert p (s.reattached k)) }.at' p .countDown)
    | .countDown => some ({ s with
        latch := Function.update s.latch k (s.latch k - 1)
        counted := Function.update s.counted k (insert p (s.counted k)) }.at' p .tryWait)
    | .tryWait => some (s.at' p (.tested (s.latch k == 0)))
    | .tested zero => s.poolStep p (if zero then some k else none)
  | _, _ => s.poolStep p none

/-- One step. -/
def step (s : Calls n) : CallAct n → Option (Calls n)
  | .call =>
    if s.turn = n then
      some { s with
        calls := s.calls + 1
        turn := 0
        latch := Function.update s.latch s.calls n }
    else none
  | .submit =>
    if h : s.turn < n then
      (Pool.step s.pool (.submit ⟨s.turn, h⟩ (s.calls - 1))).map fun pool =>
        { s with pool := pool, turn := s.turn + 1 }
    else none
  | .finish =>
    if s.turn = n then (Pool.step s.pool .finish).map fun pool => { s with pool := pool } else none
  | .main => (Pool.step s.pool .main).map fun pool => { s with pool := pool }
  | .worker p => s.worker p

/-- No call yet. -/
def init (n : ℕ) : Calls n where
  pool := Pool.init n ℕ ℕ
  calls := 0
  turn := n
  latch _ := 0
  stage _ := .splinter
  reattached _ := ∅
  counted _ := ∅

end Calls

/-- The calls as a machine. -/
def callPool (n : ℕ) : Machine (Calls n) (CallAct n) := ⟨Calls.step⟩

/-! ## What a step does -/

/-- The worker is in the task, at its own steps or in `submitr`. -/
def Pc.busy {ρ : Type} : Pc ρ → Prop
  | .runTask => True
  | .writeResn _ => True
  | .postSubmitr _ => True
  | _ => False

/-- **A worker's step that is none of a task's**, or one of the posts of
`submitr`: no task begins or returns, and no resolution is submitted. -/
structure Quiet (s : State n ℕ ℕ) (p : Fin n) (t : State n ℕ ℕ) : Prop where
  works : Works s p t
  submitted : t.submitted = s.submitted
  ran : t.ran = s.ran
  submittedR : t.submittedR = s.submittedR
  others : ∀ q, q ≠ p → t.pc q = s.pc q
  busy : (s.pc p).busy → ∃ k k', s.pc p = .postSubmitr k ∧ t.pc p = .postSubmitr k'
  idle : ¬ (s.pc p).busy → ¬ (t.pc p).busy ∨ t.pc p = .runTask
  notPop : t.pc p ≠ .popTask

/-- The outside thread in `submit` or `finish` leaves alone what the workers
see of it. -/
theorem mainStep_frame {s t : State n ℕ ℕ} (h : mainStep s = some t) : t.submitted = s.submitted ∧
    t.ran = s.ran ∧ t.pc = s.pc ∧ t.submittedR = s.submittedR := by
  have hmain : ∀ (u : State n ℕ ℕ) (m : Main n), u.submitted = s.submitted → u.ran = s.ran →
      u.pc = s.pc → u.submittedR = s.submittedR → some { u with main := m } = some t →
      t.submitted = s.submitted ∧ t.ran = s.ran ∧ t.pc = s.pc ∧ t.submittedR = s.submittedR := by
    rintro u m h1 h2 h3 h4 he
    cases he
    exact ⟨h1, h2, h3, h4⟩
  unfold mainStep at h
  repeat' split at h
  all_goals first
    | exact hmain (s.post _) _ rfl rfl rfl rfl h
    | exact hmain s _ rfl rfl rfl rfl h
    | exact nomatch h

namespace Calls

variable {s t : Calls n} {p q : Fin n} {k : ℕ}

/-- What a step does, one case for each kind. -/
inductive Moves (s : Calls n) : Calls n → Prop
  | call : s.turn = n → Moves s { s with
      calls := s.calls + 1
      turn := 0
      latch := Function.update s.latch s.calls n }
  | submit (h : s.turn < n) : s.pool.main.free = true → Moves s { s with
      pool := { s.pool.write ⟨s.turn, h⟩ (s.calls - 1) with main := .post ⟨s.turn, h⟩ }
      turn := s.turn + 1 }
  /-- the outside thread, in `submit` or `finish` -/
  | outside (pool : State n ℕ ℕ) : Submits s.pool pool → pool.submitted = s.pool.submitted →
      pool.ran = s.pool.ran → pool.pc = s.pool.pc → pool.submittedR = s.pool.submittedR →
      Moves s { s with pool := pool }
  | splinter (p : Fin n) (k : ℕ) (ks : List ℕ) : s.pool.pc p = .runTask → s.pool.tasks p = k :: ks →
      s.stage p = .splinter → Moves s ({ s with
        reattached := Function.update s.reattached k (insert p (s.reattached k)) }.at' p .countDown)
  | countDown (p : Fin n) (k : ℕ) (ks : List ℕ) : s.pool.pc p = .runTask →
      s.pool.tasks p = k :: ks →
      s.stage p = .countDown → Moves s ({ s with
        latch := Function.update s.latch k (s.latch k - 1)
        counted := Function.update s.counted k (insert p (s.counted k)) }.at' p .tryWait)
  | tryWait (p : Fin n) (k : ℕ) (ks : List ℕ) : s.pool.pc p = .runTask → s.pool.tasks p = k :: ks →
      s.stage p = .tryWait → Moves s (s.at' p (.tested (s.latch k == 0)))
  /-- the latch was not at zero, and the task returns -/
  | returns (p : Fin n) (k : ℕ) (ks : List ℕ) : s.pool.pc p = .runTask → s.pool.tasks p = k :: ks →
      s.stage p = .tested false →
      Moves s ({ s with pool := (s.pool.finished p k).goto p .popTask }.at' p .splinter)
  /-- the latch was at zero, and the task calls `submitr` -/
  | submitr (p : Fin n) (k : ℕ) (ks : List ℕ) : s.pool.pc p = .runTask → s.pool.tasks p = k :: ks →
      s.stage p = .tested true → Moves s { s with pool := s.pool.goto p (.writeResn k) }
  | writeResn (p : Fin n) (k : ℕ) : s.pool.pc p = .writeResn k → Moves s { s with
      pool := { s.pool with
        resns := s.pool.resns ++ [k]
        submittedR := s.pool.submittedR ++ [k] }.goto p (.postSubmitr 0) }
  /-- the task returns from `submitr` -/
  | submitted (p : Fin n) (k : ℕ) (ks : List ℕ) (l : ℕ) : s.pool.pc p = .postSubmitr l → n ≤ l →
      s.pool.tasks p = k :: ks →
      Moves s ({ s with pool := (s.pool.finished p k).goto p .popTask }.at' p .splinter)
  | quiet (p : Fin n) (pool : State n ℕ ℕ) : Quiet s.pool p pool → Moves s { s with pool := pool }

/-- A step of the pool that is none of a task's own. -/
theorem quiet_of_works {s t : State n ℕ ℕ} (hw : Works s p t) (hrun : s.pc p ≠ .runTask)
    (hwrite : ∀ r, s.pc p ≠ .writeResn r) (hpop : t.pc p ≠ .popTask) : Quiet s p t := by
  have hother : ∀ (u : State n ℕ ℕ) (c : Pc ℕ), u.pc = s.pc → ∀ q, q ≠ p →
    (u.goto p c).pc q = s.pc q :=
    fun u c hu q hq => by rw [State.goto_pc, if_neg hq, hu]
  have hself : ∀ (u : State n ℕ ℕ) (c : Pc ℕ), (u.goto p c).pc p = c :=
    fun u c => by rw [State.goto_pc, if_pos rfl]
  cases hw with
  | ranTask t ts hpc ht => exact absurd hpc hrun
  | callSubmitr r hpc ht => exact absurd hpc hrun
  | writeResn r hpc => exact absurd hpc (hwrite r)
  | ranSubmitr k t ts hpc hk ht => exact absurd (hself _ _) hpop
  | postSubmitr k hpc =>
    refine ⟨.postSubmitr k hpc, rfl, rfl, rfl, hother _ _ rfl, fun _ => ⟨k, k + 1, hpc, hself _ _⟩,
      ?_, hpop⟩
    exact fun h => absurd (by rw [hpc]; trivial) h
  | someTasks hpc hs =>
    refine ⟨.someTasks hpc hs, rfl, rfl, rfl, hother _ _ rfl, fun h => ?_,
      fun _ => .inr (hself _ _), hpop⟩
    rw [hpc] at h
    exact h.elim
  | _ =>
    refine ⟨by constructor <;> assumption, rfl, rfl, rfl, hother _ _ rfl, fun h => ?_, fun _ => ?_,
      hpop⟩
    · simp_all [Pc.busy]
    · left
      rw [hself]
      exact id

/-- A worker's step in the pool, with what it hands to `submitr`. -/
theorem moves_of_poolStep {resn : Option ℕ} (hnot : s.pool.pc p ≠ .runTask)
    (h : s.poolStep p resn = some t) : Moves s t := by
  obtain ⟨pool, hst, rfl⟩ := Option.map_eq_some_iff.1 h
  have hw := works_of_workerStep hst
  by_cases hpop : pool.pc p = .popTask
  · rw [if_pos hpop]
    cases hw with
    | ranSubmitr l k ks hpc hl hts => exact .submitted p k ks l hpc hl hts
    | ranTask k ks hpc hts => exact absurd hpc hnot
    | _ => rw [State.goto_pc, if_pos rfl] at hpop; exact nomatch hpop
  · rw [if_neg hpop]
    by_cases hwrite : ∃ k, s.pool.pc p = .writeResn k
    · obtain ⟨k, hk⟩ := hwrite
      cases hw with
      | writeResn r hpc =>
        rw [hk] at hpc
        cases hpc
        exact .writeResn p k hk
      | _ => simp_all
    · exact .quiet p pool (quiet_of_works hw hnot (fun r hr => hwrite ⟨r, hr⟩) hpop)

theorem moves_of_worker (h : s.worker p = some t) : Moves s t := by
  unfold worker at h
  split at h
  · next k ks hpc hts =>
    split at h
    · next hst => cases h; exact .splinter p k ks hpc hts hst
    · next hst => cases h; exact .countDown p k ks hpc hts hst
    · next hst => cases h; exact .tryWait p k ks hpc hts hst
    · next zero hst =>
      obtain ⟨pool, hstep, rfl⟩ := Option.map_eq_some_iff.1 h
      simp only [workerStep, hpc, hts] at hstep
      cases zero with
      | true =>
        cases hstep
        rw [if_neg (by rw [State.goto_pc, if_pos rfl]; simp)]
        exact .submitr p k ks hpc hts hst
      | false =>
        cases hstep
        rw [if_pos (by rw [State.goto_pc, if_pos rfl])]
        exact .returns p k ks hpc hts hst
  · next hno =>
    by_cases hpc : s.pool.pc p = .runTask
    · -- a worker in a task has one
      obtain ⟨pool, hstep, -⟩ := Option.map_eq_some_iff.1 h
      cases hts : s.pool.tasks p with
      | nil => simp only [workerStep, hpc, hts] at hstep; exact nomatch hstep
      | cons k ks => exact absurd hts (hno k ks hpc)
    · exact moves_of_poolStep hpc h

theorem moves_of_step {a : CallAct n} (h : step s a = some t) : Moves s t := by
  cases a with
  | worker p => exact moves_of_worker h
  | call =>
    obtain ⟨ht, h⟩ := Option.ite_none_right_eq_some.1 h
    cases h
    exact .call ht
  | submit =>
    simp only [step] at h
    split at h
    · next ht =>
      obtain ⟨pool, hst, rfl⟩ := Option.map_eq_some_iff.1 h
      obtain ⟨hf, hst⟩ := Option.ite_none_right_eq_some.1 hst
      cases hst
      exact .submit ht (Bool.and_eq_true_iff.1 hf).1
    · exact nomatch h
  | finish =>
    obtain ⟨-, h⟩ := Option.ite_none_right_eq_some.1 h
    obtain ⟨pool, hst, rfl⟩ := Option.map_eq_some_iff.1 h
    obtain ⟨hf, hst⟩ := Option.ite_none_right_eq_some.1 hst
    cases hst
    exact .outside _ (.finish hf) rfl rfl rfl rfl
  | main =>
    obtain ⟨pool, hst, rfl⟩ := Option.map_eq_some_iff.1 h
    obtain ⟨h1, h2, h3, h4⟩ := mainStep_frame hst
    exact .outside pool (submits_of_mainStep hst) h1 h2 h3 h4

/-- **The pool takes its own steps**, or none. -/
theorem Moves.pool (h : Moves s t) :
    t.pool = s.pool ∨ (∃ p, Works s.pool p t.pool) ∨ Submits s.pool t.pool := by
  cases h with
  | submit ht hf => exact .inr (.inr (.submit _ _ hf))
  | outside pool hs => exact .inr (.inr hs)
  | returns p k ks hpc hts hst => exact .inr (.inl ⟨p, .ranTask k ks hpc hts⟩)
  | submitr p k ks hpc hts hst => exact .inr (.inl ⟨p, .callSubmitr k hpc (by rw [hts]; simp)⟩)
  | writeResn p k hpc => exact .inr (.inl ⟨p, .writeResn k hpc⟩)
  | submitted p k ks l hpc hl hts => exact .inr (.inl ⟨p, .ranSubmitr l k ks hpc hl hts⟩)
  | quiet p pool hq => exact .inr (.inl ⟨p, hq.works⟩)
  | _ => exact .inl rfl

/-- So what the pool keeps is kept. -/
theorem Moves.sound (hS : Sound s.pool) (h : Moves s t) : Sound t.pool := by
  rcases h.pool with heq | ⟨p, hw⟩ | hs
  · rw [heq]
    exact hS
  · exact hS.works hw
  · exact hS.submits hs

/-! ## Who has counted down -/

/-- The number of the call whose task worker `p` is in, or takes next. -/
def current (s : Calls n) (p : Fin n) : ℕ := (s.pool.ran p).length

/-- **What the latches say.** A worker's tasks are the calls in order; it
has counted down for those it is done with, and for the one it is in from
its own count on. -/
structure Counts (s : Calls n) : Prop where
  sound : Sound s.pool
  turn_le : s.turn ≤ n
  begun : s.turn < n → 0 < s.calls
  submitted : ∀ p : Fin n,
    s.pool.submitted p = List.range (if (p : ℕ) < s.turn then s.calls else s.calls - 1)
  stage : ∀ p, s.stage p ≠ .splinter → (s.pool.pc p).busy
  past : ∀ p, (s.pool.pc p).busy → s.pool.pc p ≠ .runTask → s.stage p = .tested true
  latch : ∀ k < s.calls, s.latch k + (s.counted k).card = n
  counted : ∀ p k, p ∈ s.counted k ↔ k < s.current p ∨ k = s.current p ∧ (s.stage p).down
  reattached : ∀ p k, p ∈ s.counted k ∨ k = s.current p ∧ s.stage p = .countDown →
    p ∈ s.reattached k

theorem at'_stage (s : Calls n) (p q : Fin n) (c : Stage) :
    (s.at' p c).stage q = if q = p then c else s.stage q := Function.update_apply ..

namespace Counts

theorem init : Counts (init n) where
  sound := .init
  turn_le := le_rfl
  begun h := absurd h (lt_irrefl n)
  submitted p := by simp [Calls.init, Pool.init]
  stage p h := absurd rfl h
  past p h := h.elim
  latch k h := absurd h (Nat.not_lt_zero k)
  counted p k := by simp [Calls.init, Pool.init, current, Stage.down]
  reattached p k h := by simp [Calls.init] at h

/-- A worker is done with no more than was submitted to it. -/
theorem current_le (hC : Counts s) (p : Fin n) : s.current p ≤ s.calls := by
  have hsub := hC.submitted p
  have hlen : s.current p ≤ (s.pool.submitted p).length := by
    by_cases hpop : s.pool.pc p = .popTask
    · rw [hC.sound.ordered.popTask p hpop, List.length_append]
      exact Nat.le_add_right ..
    · rw [hC.sound.ordered.tasks p hpop, List.length_append]
      exact Nat.le_add_right ..
  rw [hsub, List.length_range] at hlen
  split at hlen <;> omega

/-- **The task a worker is in** is that of its current call. -/
theorem front {ks : List ℕ} (hC : Counts s) (hpc : s.pool.pc p ≠ .popTask)
    (hts : s.pool.tasks p = k :: ks) : k = s.current p ∧ k < s.calls := by
  have hsub := hC.submitted p
  rw [hC.sound.ordered.tasks p hpc, hts] at hsub
  have hlen := congrArg List.length hsub
  rw [List.length_append, List.length_cons, List.length_range] at hlen
  have hget := congrArg (fun l => l[s.current p]?) hsub
  simp only [current, List.getElem?_append_right (le_refl _), Nat.sub_self,
    List.getElem?_cons_zero] at hget
  rw [List.getElem?_range (by omega)] at hget
  have hk : k = s.current p := Option.some.inj hget
  refine ⟨hk, ?_⟩
  rw [hk, current]
  split at hlen <;> omega

/-- Nobody has counted down for a call that was not begun. -/
theorem counted_lt (hC : Counts s) (hp : p ∈ s.counted k) : k < s.calls := by
  have hle := hC.current_le p
  rcases (hC.counted p k).1 hp with hlt | ⟨rfl, hdown⟩
  · omega
  · -- it is in a task of this call
    have hbusy := hC.stage p fun h => by rw [h] at hdown; exact hdown
    have hne := hC.sound.control.task p
      (by cases hpc : s.pool.pc p <;> simp_all [Pc.busy, Pc.inTask])
    obtain ⟨k, ks, hts⟩ := List.exists_cons_of_ne_nil hne
    have hpc : s.pool.pc p ≠ .popTask := fun h => by rw [h] at hbusy; exact hbusy
    obtain ⟨hk, hlt⟩ := hC.front hpc hts
    rwa [← hk]

/-- **A worker returns from its task**: it is done with one call more. -/
theorem returned {ks : List ℕ} (hC : Counts s) (hS : Sound ((s.pool.finished p k).goto p .popTask))
    (hbusy : (s.pool.pc p).busy) (hts : s.pool.tasks p = k :: ks) (hdown : (s.stage p).down) :
    Counts ({ s with pool := (s.pool.finished p k).goto p .popTask }.at' p .splinter) := by
  have hpop : s.pool.pc p ≠ .popTask := fun h => by rw [h] at hbusy; exact hbusy
  obtain ⟨hk, -⟩ := hC.front hpop hts
  have hcur : ∀ q,
      ({ s with pool := (s.pool.finished p k).goto p .popTask }.at' p .splinter).current q =
      if q = p then s.current q + 1 else s.current q := by
    intro q
    simp only [current, at', State.goto_ran, State.finished_ran]
    split
    · rw [List.length_append, List.length_singleton]
    · rfl
  refine { hC with sound := hS, stage := ?_, past := ?_, counted := ?_, reattached := ?_ }
  · intro q hq
    rw [at'_stage] at hq
    split at hq
    · exact absurd rfl hq
    · next hqp =>
      simp only [at', State.goto_pc, if_neg hqp]
      exact hC.stage q hq
  · intro q hq hrun
    simp only [at', State.goto_pc] at hq hrun
    rw [at'_stage]
    split at hq
    · exact hq.elim
    · next hqp =>
      rw [if_neg hqp] at hrun ⊢
      exact hC.past q hq hrun
  · intro q l
    rw [hcur, at'_stage]
    change q ∈ s.counted l ↔ _
    rw [hC.counted q l]
    split
    · next hqp =>
      subst hqp
      have hno : ¬ Stage.splinter.down := id
      simp only [hdown, hno, and_true, and_false, or_false]
      omega
    · exact Iff.rfl
  · intro q l hq
    rw [hcur, at'_stage] at hq
    refine hC.reattached q l (hq.imp_right fun h => ?_)
    split at h
    · exact nomatch h.2
    · exact h

/-- **A worker that goes on in its task** is still in it. -/
theorem staged (hC : Counts s) (hpc : s.pool.pc p = .runTask) (c : Stage) :
    (∀ q, (s.at' p c).stage q ≠ .splinter → (s.pool.pc q).busy) ∧
      ∀ q, (s.pool.pc q).busy → s.pool.pc q ≠ .runTask → (s.at' p c).stage q = .tested true := by
  refine ⟨fun q hq => ?_, fun q hq hne => ?_⟩
  · by_cases hqp : q = p
    · rw [hqp, hpc]
      trivial
    · rw [at'_stage, if_neg hqp] at hq
      exact hC.stage q hq
  · have hqp : q ≠ p := fun h => hne (by rw [h, hpc])
    rw [at'_stage, if_neg hqp]
    exact hC.past q hq hne

/-- **A worker that goes on in `submitr`** has the resolution to submit. -/
theorem posting {u : State n ℕ ℕ} {c : Pc ℕ} (hC : Counts s) (hst : s.stage p = .tested true)
    (hu : u.pc = s.pool.pc) (hc : c.busy) :
    (∀ q, s.stage q ≠ .splinter → ((u.goto p c).pc q).busy) ∧
      ∀ q, ((u.goto p c).pc q).busy → (u.goto p c).pc q ≠ .runTask →
        s.stage q = .tested true := by
  refine ⟨fun q hq => ?_, fun q hq hne => ?_⟩
  · rw [State.goto_pc, hu]
    split
    · exact hc
    · exact hC.stage q hq
  · rw [State.goto_pc, hu] at hq hne
    split at hq
    · next hqp => rw [hqp]; exact hst
    · next hqp => rw [if_neg hqp] at hne; exact hC.past q hq hne

/-- The counts say the same of a worker that goes on as far from its count
as it was. -/
theorem counted_at' (hC : Counts s) (c : Stage) (hdown : (s.stage p).down ↔ c.down) (q : Fin n)
    (l : ℕ) : q ∈ s.counted l ↔
      l < s.current q ∨ l = s.current q ∧ ((s.at' p c).stage q).down := by
  rw [at'_stage, hC.counted q l]
  split
  · next hqp => rw [hqp, hdown]
  · exact Iff.rfl

theorem moves (hC : Counts s) (h : Moves s t) : Counts t := by
  have hS' := h.sound hC.sound
  cases h with
  | call ht =>
    refine { hC with
      turn_le := Nat.zero_le n, begun := fun _ => Nat.succ_pos _, submitted := ?_, latch := ?_ }
    · intro p
      have hp : (p : ℕ) < s.turn := by rw [ht]; exact p.isLt
      have hsub := hC.submitted p
      rw [if_pos hp] at hsub
      exact hsub
    · intro k hk
      simp only [Function.update_apply]
      split
      · next hks =>
        have hempty : s.counted k = ∅ := Finset.eq_empty_of_forall_notMem fun p hp => by
          have := hC.counted_lt hp
          omega
        rw [hempty, Finset.card_empty, Nat.add_zero]
      · next hks =>
        have hk' : k < s.calls + 1 := hk
        exact hC.latch k (by omega)
  | submit ht hf =>
    have hpos := hC.begun ht
    refine { hC with sound := hS', turn_le := ht, begun := fun _ => hpos, submitted := ?_ }
    intro p
    have hsub := hC.submitted p
    simp only [State.write_submitted]
    by_cases hp : p = ⟨s.turn, ht⟩
    · have hpt : (p : ℕ) = s.turn := congrArg Fin.val hp
      have hnot : ¬ (p : ℕ) < s.turn := by omega
      have hnow : (p : ℕ) < s.turn + 1 := by omega
      rw [if_neg hnot] at hsub
      rw [if_pos hp, if_pos hnow, hsub, ← List.range_succ, Nat.succ_eq_add_one,
        Nat.sub_add_cancel hpos]
    · have hpt : (p : ℕ) ≠ s.turn := fun h => hp (Fin.ext h)
      rw [if_neg hp, hsub]
      congr 1
      split <;> split <;> omega
  | outside pool hs hsub hran hpc hsubR =>
    refine { hC with
      sound := hS', submitted := ?_, stage := ?_, past := ?_, counted := ?_, reattached := ?_ }
    · simp only [hsub]; exact hC.submitted
    · simp only [hpc]; exact hC.stage
    · simp only [hpc]; exact hC.past
    · simp only [current, hran]; exact hC.counted
    · simp only [current, hran]; exact hC.reattached
  | splinter p k ks hpc hts hst =>
    obtain ⟨hk, -⟩ := hC.front (by rw [hpc]; simp) hts
    obtain ⟨h1, h2⟩ := hC.staged hpc .countDown
    refine { hC with
      stage := h1, past := h2, counted := hC.counted_at' .countDown (by rw [hst]; exact Iff.rfl)
      reattached := ?_ }
    · intro q l hq
      rw [at'_stage] at hq
      simp only [at', Function.update_apply]
      by_cases hqp : q = p
      · subst hqp
        rcases hq with hmem | ⟨hl, -⟩
        · have := hC.reattached q l (.inl hmem)
          split
          · next hlk => rw [← hlk]; exact Finset.mem_insert_of_mem this
          · exact this
        · rw [if_pos (hl.trans hk.symm)]
          exact Finset.mem_insert_self ..
      · rw [if_neg hqp] at hq
        have := hC.reattached q l hq
        split
        · next hlk => rw [← hlk]; exact Finset.mem_insert_of_mem this
        · exact this
  | countDown p k ks hpc hts hst =>
    obtain ⟨hk, hlt⟩ := hC.front (by rw [hpc]; simp) hts
    obtain ⟨h1, h2⟩ := hC.staged hpc .tryWait
    have hnew : p ∉ s.counted k := fun hp => by
      rcases (hC.counted p k).1 hp with h | ⟨-, h⟩
      · omega
      · rw [hst] at h
        exact h
    refine { hC with stage := h1, past := h2, latch := ?_, counted := ?_, reattached := ?_ }
    · intro l hl
      have hlatch := hC.latch l hl
      simp only [at', Function.update_apply]
      split
      · next hlk =>
        subst hlk
        have hle := (Finset.card_le_univ (insert p (s.counted l))).trans_eq (Fintype.card_fin n)
        rw [Finset.card_insert_of_notMem hnew] at hle ⊢
        omega
      · exact hlatch
    · intro q l
      rw [at'_stage]
      simp only [at', Function.update_apply]
      by_cases hlk : l = k
      · subst hlk
        rw [if_pos rfl, Finset.mem_insert, hC.counted q l]
        split
        · next hqp => subst hqp; exact ⟨fun _ => .inr ⟨hk, trivial⟩, fun _ => .inl rfl⟩
        · next hqp => exact ⟨fun h => h.resolve_left hqp, .inr⟩
      · rw [if_neg hlk, hC.counted q l]
        split
        · next hqp =>
          subst hqp
          have hne : l ≠ s.current q := fun h => hlk (h.trans hk.symm)
          exact or_congr Iff.rfl ⟨fun h => absurd h.1 hne, fun h => absurd h.1 hne⟩
        · exact Iff.rfl
    · intro q l hq
      rw [at'_stage] at hq
      refine hC.reattached q l ?_
      by_cases hqp : q = p
      · subst hqp
        rw [if_pos rfl] at hq
        have hmem := hq.resolve_right fun h => nomatch h.2
        simp only [at', Function.update_apply] at hmem
        split at hmem
        · next hlk => exact .inr ⟨hlk.trans hk, hst⟩
        · exact .inl hmem
      · rw [if_neg hqp] at hq
        refine hq.imp_left fun hmem => ?_
        simp only [at', Function.update_apply] at hmem
        split at hmem
        · next hlk => rw [hlk]; exact (Finset.mem_insert.1 hmem).resolve_left hqp
        · exact hmem
  | tryWait p k ks hpc hts hst =>
    obtain ⟨h1, h2⟩ := hC.staged hpc (.tested (s.latch k == 0))
    refine { hC with
      stage := h1, past := h2, counted := hC.counted_at' _ (by rw [hst]; exact Iff.rfl)
      reattached := ?_ }
    · intro q l hq
      rw [at'_stage] at hq
      refine hC.reattached q l (hq.imp_right fun h => ?_)
      split at h
      · exact nomatch h.2
      · exact h
  | returns p k ks hpc hts hst =>
    exact hC.returned hS' (by rw [hpc]; trivial) hts (by rw [hst]; trivial)
  | submitr p k ks hpc hts hst =>
    obtain ⟨h1, h2⟩ := hC.posting (c := .writeResn k) hst rfl trivial
    exact { hC with sound := hS', stage := h1, past := h2 }
  | writeResn p k hpc =>
    have hst := hC.past p (by rw [hpc]; trivial) (by rw [hpc]; simp)
    obtain ⟨h1, h2⟩ := hC.posting (c := .postSubmitr 0) hst rfl trivial
    exact { hC with sound := hS', stage := h1, past := h2 }
  | submitted p k ks l hpc hl hts =>
    have hst := hC.past p (by rw [hpc]; trivial) (by rw [hpc]; simp)
    exact hC.returned hS' (by rw [hpc]; trivial) hts (by rw [hst]; trivial)
  | quiet p pool hq =>
    refine { hC with
      sound := hS', submitted := ?_, stage := ?_, past := ?_, counted := ?_, reattached := ?_ }
    · simp only [hq.submitted]; exact hC.submitted
    · intro q hst
      by_cases hqp : q = p
      · obtain ⟨l, l', -, hl'⟩ := hq.busy (hqp ▸ hC.stage q hst)
        rw [hqp]
        change (pool.pc p).busy
        rw [hl']
        trivial
      · change (pool.pc q).busy
        rw [hq.others q hqp]
        exact hC.stage q hst
    · intro q hbusy hne
      change (pool.pc q).busy at hbusy
      change pool.pc q ≠ .runTask at hne
      by_cases hqp : q = p
      · subst hqp
        by_cases hb : (s.pool.pc q).busy
        · obtain ⟨l, l', hl, -⟩ := hq.busy hb
          exact hC.past q hb (by rw [hl]; simp)
        · exact absurd hbusy ((hq.idle hb).resolve_right hne)
      · rw [hq.others q hqp] at hbusy hne
        exact hC.past q hbusy hne
    · simp only [current, hq.ran]; exact hC.counted
    · simp only [current, hq.ran]; exact hC.reattached

/-- **In every run the latches say so.** -/
theorem of_run {as : List (CallAct n)} (h : (callPool n).run (Calls.init n) as = some s) :
    Counts s :=
  Machine.run_invariant (fun _ _ _ hC hst => hC.moves (moves_of_step hst)) init h

end Counts

end Calls

end Contentious.Pool
