import Contentious.Common.Machine
import Mathlib.Data.Fin.Basic
import Mathlib.Logic.Function.Basic

/-!
# Pool — the thread pool

`threadpool`: a queue of tasks and a semaphore for each worker, one queue
of resolutions that whoever holds `rlck` takes from, and an outside thread
that submits tasks and waits in `finish`. Everything that one thread can
do to what another sees is a step of its own: a queue write, one post,
the wait, the `try_lock`, a test for emptiness, the run of a closure, a
pop, an unlock, the notification. `stop` is for the end of a program, so
`spin` is true throughout and is left out, as are the timing code and the
counters.
-/

namespace Contentious.Pool

/-- `QUEUE_SZ` -/
def queueSz : ℕ := 512

/-- `ProducerConsumerQueue::isFull()`: one slot is never used. -/
def isFull {α : Type} (q : List α) : Bool := q.length + 1 == queueSz

/-- Where a worker is: the step it takes next. -/
inductive Pc (ρ : Type)
  /-- `sems[p].wait()` -/
  | wait
  /-- `rlck.try_lock()` -/
  | tryLock
  /-- `resns.isEmpty()`, under the lock -/
  | checkResns
  /-- `rlck.unlock()`, having seen no resolution -/
  | unlock
  /-- `(*resn)()` -/
  | runResn
  /-- `resns.popFront()` -/
  | popResn
  /-- `rlck.unlock()`, after a resolution -/
  | unlockResn
  /-- the loop that posts to every worker, at `sems[k].post()` -/
  | postResn (k : ℕ)
  /-- `tasks[p].isEmpty()` -/
  | checkTasks
  /-- `(*task)()` -/
  | runTask
  /-- in the task, `resns.write(resn)` of `submitr` -/
  | writeResn (resn : ρ)
  /-- in the task, the posts of `submitr`, at `sems[k].post()` -/
  | postSubmitr (k : ℕ)
  /-- `tasks[p].popFront()` -/
  | popTask
  /-- `fin_cv.notify_one()` -/
  | notify
deriving DecidableEq

/-- Where the outside thread is. -/
inductive Main (n : ℕ)
  /-- outside the pool -/
  | idle
  /-- in `submit`, at `sems[p].post()` -/
  | post (p : Fin n)
  /-- in `finish`, the predicate at `tasks[k].isEmpty()` -/
  | readTasks (k : ℕ) (ret : Bool)
  /-- in `finish`, the predicate at `resns.isEmpty()` in round `k` -/
  | readResns (k : ℕ) (ret : Bool)
  /-- in `finish`, the predicate was false: at the start of the wait -/
  | block
  /-- in `finish`, waiting on `fin_cv` -/
  | asleep
  /-- back from `finish`, whose predicate was true -/
  | returned
deriving DecidableEq

/-- The thread pool and its threads. The last four fields are its history:
what was submitted, and what has finished running. -/
structure State (n : ℕ) (τ ρ : Type) where
  sems : Fin n → ℕ
  tasks : Fin n → List τ
  resns : List ρ
  rlck : Option (Fin n)
  pc : Fin n → Pc ρ
  main : Main n
  submitted : Fin n → List τ
  ran : Fin n → List τ
  submittedR : List ρ
  ranR : List ρ

/-- A thread takes a step. -/
inductive Act (n : ℕ) (τ ρ : Type)
  /-- the outside thread calls `submit`, and its write succeeds -/
  | submit (p : Fin n) (task : τ)
  /-- the outside thread calls `finish` -/
  | finish
  /-- the outside thread goes on in the call it is in -/
  | main
  /-- worker `p` goes on; if it runs a task, `resn` is what the task hands
  to `submitr`, if it calls it -/
  | worker (p : Fin n) (resn : Option ρ)

variable {n : ℕ} {τ ρ : Type}

/-- One worker's value, changed. -/
theorem update_eq_ite {α : Type} (f : Fin n → α) (g : α → α) (p q : Fin n) :
    Function.update f p (g (f p)) q = if q = p then g (f q) else f q := by
  rw [Function.update_apply]
  split
  · next h => rw [h]
  · rfl

namespace State

/-- Worker `p` goes on at `c`. -/
def goto (s : State n τ ρ) (p : Fin n) (c : Pc ρ) : State n τ ρ :=
  { s with pc := Function.update s.pc p c }

/-- `sems[p].post()` -/
def post (s : State n τ ρ) (p : Fin n) : State n τ ρ :=
  { s with sems := Function.update s.sems p (s.sems p + 1) }

/-- `sems[p].wait()` returns. -/
def take (s : State n τ ρ) (p : Fin n) : State n τ ρ :=
  { s with sems := Function.update s.sems p (s.sems p - 1) }

/-- `tasks[p].write(task)` -/
def write (s : State n τ ρ) (p : Fin n) (task : τ) : State n τ ρ :=
  { s with
    tasks := Function.update s.tasks p (s.tasks p ++ [task])
    submitted := Function.update s.submitted p (s.submitted p ++ [task]) }

/-- Worker `p` has finished the task at the front of its queue. -/
def finished (s : State n τ ρ) (p : Fin n) (task : τ) : State n τ ρ :=
  { s with ran := Function.update s.ran p (s.ran p ++ [task]) }

/-- `tasks[p].popFront()` -/
def pop (s : State n τ ρ) (p : Fin n) : State n τ ρ :=
  { s with tasks := Function.update s.tasks p (s.tasks p).tail }

variable (s : State n τ ρ) (p q : Fin n) (c : Pc ρ) (task : τ)

theorem goto_pc : (s.goto p c).pc q = if q = p then c else s.pc q :=
  Function.update_apply ..

theorem post_sems :
    (s.post p).sems q = if q = p then s.sems q + 1 else s.sems q :=
  update_eq_ite s.sems (· + 1) p q

/-- A post takes no token. -/
theorem le_post : s.sems q ≤ (s.post p).sems q := by
  rw [post_sems]
  split <;> omega

theorem take_sems :
    (s.take p).sems q = if q = p then s.sems q - 1 else s.sems q :=
  update_eq_ite s.sems (· - 1) p q

theorem write_tasks :
    (s.write p task).tasks q = if q = p then s.tasks q ++ [task] else s.tasks q :=
  update_eq_ite s.tasks (· ++ [task]) p q

theorem write_submitted :
    (s.write p task).submitted q = if q = p then s.submitted q ++ [task] else s.submitted q :=
  update_eq_ite s.submitted (· ++ [task]) p q

theorem finished_ran :
    (s.finished p task).ran q = if q = p then s.ran q ++ [task] else s.ran q :=
  update_eq_ite s.ran (· ++ [task]) p q

theorem pop_tasks :
    (s.pop p).tasks q = if q = p then (s.tasks q).tail else s.tasks q :=
  update_eq_ite s.tasks List.tail p q

@[simp] theorem goto_sems : (s.goto p c).sems q = s.sems q := rfl
@[simp] theorem goto_tasks : (s.goto p c).tasks q = s.tasks q := rfl
@[simp] theorem goto_resns : (s.goto p c).resns = s.resns := rfl
@[simp] theorem goto_main : (s.goto p c).main = s.main := rfl
@[simp] theorem goto_ran : (s.goto p c).ran q = s.ran q := rfl
@[simp] theorem goto_submittedR : (s.goto p c).submittedR = s.submittedR := rfl
@[simp] theorem goto_ranR : (s.goto p c).ranR = s.ranR := rfl

@[simp] theorem post_tasks : (s.post p).tasks q = s.tasks q := rfl
@[simp] theorem post_pc : (s.post p).pc q = s.pc q := rfl

@[simp] theorem take_tasks : (s.take p).tasks q = s.tasks q := rfl
@[simp] theorem take_pc : (s.take p).pc q = s.pc q := rfl

@[simp] theorem write_sems : (s.write p task).sems q = s.sems q := rfl
@[simp] theorem write_pc : (s.write p task).pc q = s.pc q := rfl
@[simp] theorem write_ran : (s.write p task).ran q = s.ran q := rfl

@[simp] theorem finished_tasks : (s.finished p task).tasks q = s.tasks q := rfl
@[simp] theorem finished_pc : (s.finished p task).pc q = s.pc q := rfl
@[simp] theorem finished_submitted : (s.finished p task).submitted q = s.submitted q := rfl

@[simp] theorem pop_sems : (s.pop p).sems q = s.sems q := rfl
@[simp] theorem pop_pc : (s.pop p).pc q = s.pc q := rfl

end State

/-- The outside thread is in no call. -/
def Main.free : Main n → Bool
  | .idle => true
  | .returned => true
  | _ => false

/-- The next step of the outside thread in `submit` or `finish`. -/
def mainStep (s : State n τ ρ) : Option (State n τ ρ) :=
  match s.main with
  | .post p => some { s.post p with main := .idle }
  | .readTasks k ret =>
    if h : k < n then
      if (s.tasks ⟨k, h⟩).isEmpty then some { s with main := .readResns k ret }
      else some { s with main := .readTasks (k + 1) false }
    else if ret then some { s with main := .returned } else some { s with main := .block }
  | .readResns k ret => some { s with main := .readTasks (k + 1) (ret && s.resns.isEmpty) }
  | .block => some { s with main := .asleep }
  | .idle => none
  | .asleep => none
  | .returned => none

/-- `fin_cv.notify_one()`: wakes the thread that waits, which evaluates
its predicate again. -/
def Main.notify : Main n → Main n
  | .asleep => .readTasks 0 true
  | m => m

/-- The next step of `worker(p)`. -/
def workerStep (s : State n τ ρ) (p : Fin n) (resn : Option ρ) : Option (State n τ ρ) :=
  match s.pc p with
  | .wait =>
    if 0 < s.sems p then
      some ((s.take p).goto p .tryLock)
    else none
  | .tryLock =>
    match s.rlck with
    | none => some ({ s with rlck := some p }.goto p .checkResns)
    | some _ => some (s.goto p .checkTasks)
  | .checkResns => if s.resns.isEmpty then some (s.goto p .unlock) else some (s.goto p .runResn)
  | .unlock => some ({ s with rlck := none }.goto p .checkTasks)
  | .runResn =>
    match s.resns with
    | [] => none
    | r :: _ => some ({ s with ranR := s.ranR ++ [r] }.goto p .popResn)
  | .popResn => some ({ s with resns := s.resns.tail }.goto p .unlockResn)
  | .unlockResn => some ({ s with rlck := none }.goto p (.postResn 0))
  | .postResn k =>
    if h : k < n then some ((s.post ⟨k, h⟩).goto p (.postResn (k + 1))) else some (s.goto p .wait)
  | .checkTasks =>
    if (s.tasks p).isEmpty then some (s.goto p .notify) else some (s.goto p .runTask)
  | .runTask =>
    match s.tasks p, resn with
    | [], _ => none
    | task :: _, none => some ((s.finished p task).goto p .popTask)
    | _ :: _, some r => some (s.goto p (.writeResn r))
  | .writeResn r =>
    if isFull s.resns then none
    else some ({ s with resns := s.resns ++ [r], submittedR := s.submittedR ++ [r] }.goto p
      (.postSubmitr 0))
  | .postSubmitr k =>
    if h : k < n then some ((s.post ⟨k, h⟩).goto p (.postSubmitr (k + 1)))
    else
      match s.tasks p with
      | [] => none
      | task :: _ => some ((s.finished p task).goto p .popTask)
  | .popTask => some ((s.pop p).goto p .notify)
  | .notify => some ({ s with main := s.main.notify }.goto p .wait)

/-- One step of the thread pool. -/
def step (s : State n τ ρ) : Act n τ ρ → Option (State n τ ρ)
  | .submit p task =>
    if s.main.free && !isFull (s.tasks p) then
      some { s.write p task with main := .post p }
    else none
  | .finish => if s.main.free then some { s with main := .readTasks 0 true } else none
  | .main => mainStep s
  | .worker p resn => workerStep s p resn

/-- `threadpool()` with `n` workers, each at its first wait. -/
def init (n : ℕ) (τ ρ : Type) : State n τ ρ where
  sems _ := 0
  tasks _ := []
  resns := []
  rlck := none
  pc _ := .wait
  main := .idle
  submitted _ := []
  ran _ := []
  submittedR := []
  ranR := []

/-- The thread pool as a machine. -/
def pool (n : ℕ) (τ ρ : Type) : Machine (State n τ ρ) (Act n τ ρ) := ⟨step⟩

/-- A state the pool can get to. -/
def Reachable (s : State n τ ρ) : Prop := (pool n τ ρ).Reaches (init n τ ρ) s

/-! ## What a step does -/

/-- **What a worker's step does**, one case for each way on. -/
inductive Works (s : State n τ ρ) (p : Fin n) : State n τ ρ → Prop
  | wake : s.pc p = .wait → 0 < s.sems p →
      Works s p ((s.take p).goto p .tryLock)
  | lock : s.pc p = .tryLock → s.rlck = none →
      Works s p ({ s with rlck := some p }.goto p .checkResns)
  | lockLost (q : Fin n) : s.pc p = .tryLock → s.rlck = some q → Works s p (s.goto p .checkTasks)
  | noResns : s.pc p = .checkResns → s.resns = [] → Works s p (s.goto p .unlock)
  | someResns : s.pc p = .checkResns → s.resns ≠ [] → Works s p (s.goto p .runResn)
  | unlock : s.pc p = .unlock → Works s p ({ s with rlck := none }.goto p .checkTasks)
  | runResn (r : ρ) (rs : List ρ) : s.pc p = .runResn → s.resns = r :: rs →
      Works s p ({ s with ranR := s.ranR ++ [r] }.goto p .popResn)
  | popResn : s.pc p = .popResn → Works s p ({ s with resns := s.resns.tail }.goto p .unlockResn)
  | unlockResn : s.pc p = .unlockResn → Works s p ({ s with rlck := none }.goto p (.postResn 0))
  | postResn (k : Fin n) : s.pc p = .postResn k →
      Works s p ((s.post k).goto p (.postResn (k + 1)))
  | again (k : ℕ) : s.pc p = .postResn k → n ≤ k → Works s p (s.goto p .wait)
  | noTasks : s.pc p = .checkTasks → s.tasks p = [] → Works s p (s.goto p .notify)
  | someTasks : s.pc p = .checkTasks → s.tasks p ≠ [] → Works s p (s.goto p .runTask)
  | ranTask (t : τ) (ts : List τ) : s.pc p = .runTask → s.tasks p = t :: ts →
      Works s p ((s.finished p t).goto p .popTask)
  | callSubmitr (r : ρ) : s.pc p = .runTask → s.tasks p ≠ [] → Works s p (s.goto p (.writeResn r))
  | writeResn (r : ρ) : s.pc p = .writeResn r →
      Works s p ({ s with resns := s.resns ++ [r], submittedR := s.submittedR ++ [r] }.goto p
        (.postSubmitr 0))
  | postSubmitr (k : Fin n) : s.pc p = .postSubmitr k →
      Works s p ((s.post k).goto p (.postSubmitr (k + 1)))
  | ranSubmitr (k : ℕ) (t : τ) (ts : List τ) : s.pc p = .postSubmitr k → n ≤ k →
      s.tasks p = t :: ts → Works s p ((s.finished p t).goto p .popTask)
  | popTask : s.pc p = .popTask →
      Works s p ((s.pop p).goto p .notify)
  | notify : s.pc p = .notify → Works s p ({ s with main := s.main.notify }.goto p .wait)

theorem works_of_workerStep {s t : State n τ ρ} {p : Fin n} {resn : Option ρ}
    (h : workerStep s p resn = some t) : Works s p t := by
  unfold workerStep at h
  cases hpc : s.pc p with
  | wait =>
    obtain ⟨hsem, h⟩ := Option.ite_none_right_eq_some.1 (by simpa only [hpc] using h)
    cases h; exact .wake hpc hsem
  | tryLock =>
    simp only [hpc] at h
    split at h
    · next hl => cases h; exact .lock hpc hl
    · next q hl => cases h; exact .lockLost q hpc hl
  | checkResns =>
    simp only [hpc] at h
    split at h
    · next he => cases h; exact .noResns hpc (List.isEmpty_iff.1 he)
    · next he => cases h; exact .someResns hpc fun hn => he (List.isEmpty_iff.2 hn)
  | unlock => simp only [hpc] at h; cases h; exact .unlock hpc
  | runResn =>
    simp only [hpc] at h
    split at h
    · exact nomatch h
    · next r rs hr => cases h; exact .runResn r rs hpc hr
  | popResn => simp only [hpc] at h; cases h; exact .popResn hpc
  | unlockResn => simp only [hpc] at h; cases h; exact .unlockResn hpc
  | postResn k =>
    simp only [hpc] at h
    split at h
    · next hk => cases h; exact .postResn ⟨k, hk⟩ hpc
    · next hk => cases h; exact .again k hpc (Nat.le_of_not_lt hk)
  | checkTasks =>
    simp only [hpc] at h
    split at h
    · next he => cases h; exact .noTasks hpc (List.isEmpty_iff.1 he)
    · next he => cases h; exact .someTasks hpc fun hn => he (List.isEmpty_iff.2 hn)
  | runTask =>
    simp only [hpc] at h
    split at h
    · exact nomatch h
    · next t ts ht => cases h; exact .ranTask t ts hpc ht
    · next r ht => cases h; exact .callSubmitr r hpc (by simp [ht])
  | writeResn r =>
    obtain ⟨-, h⟩ := Option.ite_none_left_eq_some.1 (by simpa only [hpc] using h)
    cases h; exact .writeResn r hpc
  | postSubmitr k =>
    simp only [hpc] at h
    split at h
    · next hk => cases h; exact .postSubmitr ⟨k, hk⟩ hpc
    · next hk =>
      split at h
      · exact nomatch h
      · next t ts ht => cases h; exact .ranSubmitr k t ts hpc (Nat.le_of_not_lt hk) ht
  | popTask => simp only [hpc] at h; cases h; exact .popTask hpc
  | notify => simp only [hpc] at h; cases h; exact .notify hpc

/-- A worker's step moves no other worker, -/
theorem Works.pc_of_ne {s t : State n τ ρ} {p q : Fin n} (h : Works s p t) (hq : q ≠ p) :
    t.pc q = s.pc q := by
  cases h <;> exact (State.goto_pc ..).trans (if_neg hq)

/-- and touches `resns` in two places only. -/
theorem Works.resns_eq {s t : State n τ ρ} {p : Fin n} (h : Works s p t) (hpop : s.pc p ≠ .popResn)
    (hwrite : ∀ r, s.pc p ≠ .writeResn r) : t.resns = s.resns := by
  cases h with
  | popResn hpc => exact absurd hpc hpop
  | writeResn r hpc => exact absurd hpc (hwrite r)
  | _ => rfl

/-- **What a step of the outside thread does.** -/
inductive Submits (s : State n τ ρ) : State n τ ρ → Prop
  | submit (p : Fin n) (t : τ) : s.main.free = true →
      Submits s { s.write p t with main := .post p }
  | post (p : Fin n) : s.main = .post p → Submits s { s.post p with main := .idle }
  | finish : s.main.free = true → Submits s { s with main := .readTasks 0 true }
  | noTasks (k : Fin n) (ret : Bool) : s.main = .readTasks k ret → s.tasks k = [] →
      Submits s { s with main := .readResns k ret }
  | someTasks (k : Fin n) (ret : Bool) : s.main = .readTasks k ret → s.tasks k ≠ [] →
      Submits s { s with main := .readTasks (k + 1) false }
  | readResns (k : ℕ) (ret : Bool) : s.main = .readResns k ret →
      Submits s { s with main := .readTasks (k + 1) (ret && s.resns.isEmpty) }
  | true (k : ℕ) : s.main = .readTasks k true → n ≤ k → Submits s { s with main := .returned }
  | false (k : ℕ) : s.main = .readTasks k false → n ≤ k → Submits s { s with main := .block }
  | sleep : s.main = .block → Submits s { s with main := .asleep }

/-- No worker is moved by it, no resolution and no lock. -/
theorem Submits.frame {s t : State n τ ρ} (h : Submits s t) :
    t.pc = s.pc ∧ t.resns = s.resns ∧ t.rlck = s.rlck := by
  cases h <;> exact ⟨rfl, rfl, rfl⟩

theorem submits_of_mainStep {s t : State n τ ρ} (h : mainStep s = some t) : Submits s t := by
  unfold mainStep at h
  cases hm : s.main with
  | idle => simp only [hm] at h; exact nomatch h
  | asleep => simp only [hm] at h; exact nomatch h
  | returned => simp only [hm] at h; exact nomatch h
  | post p => simp only [hm] at h; cases h; exact .post p hm
  | block => simp only [hm] at h; cases h; exact .sleep hm
  | readResns k ret => simp only [hm] at h; cases h; exact .readResns k ret hm
  | readTasks k ret =>
    simp only [hm] at h
    split at h
    · next hk =>
      split at h
      · next he => cases h; exact .noTasks ⟨k, hk⟩ ret hm (List.isEmpty_iff.1 he)
      · next he => cases h; exact .someTasks ⟨k, hk⟩ ret hm fun hn => he (List.isEmpty_iff.2 hn)
    · next hk =>
      cases ret with
      | true => cases h; exact .true k hm (Nat.le_of_not_lt hk)
      | false => cases h; exact .false k hm (Nat.le_of_not_lt hk)

/-- A step is a worker's or the outside thread's. -/
theorem cases_of_step {s t : State n τ ρ} {a : Act n τ ρ} (h : step s a = some t) :
    (∃ p, Works s p t) ∨ Submits s t := by
  cases a with
  | worker p resn => exact .inl ⟨p, works_of_workerStep h⟩
  | main => exact .inr (submits_of_mainStep h)
  | finish =>
    obtain ⟨hf, h⟩ := Option.ite_none_right_eq_some.1 h
    cases h; exact .inr (.finish hf)
  | submit p task =>
    obtain ⟨hf, h⟩ := Option.ite_none_right_eq_some.1 h
    cases h
    exact .inr (.submit p task (Bool.and_eq_true_iff.1 hf).1)

end Contentious.Pool
