import Contentious.Cont.Foreach
import Contentious.Pool.Lifetimes
import Contentious.Pool.Producer

/-!
# Pool — the calls and the vectors they compute

The pool knows a task by the number of its call and nothing of what it
computes; the runtime knows what is computed, and leaves open who goes on
next. Here the two are one program: a worker detaches, sweeps and
reattaches inside the task it has taken from its queue, for the call that
task is bound to, and a resolution is run by the worker that took it from
`resns`, under the lock, once `latch->wait()` returns.

That every run of this is one of the runtime is a theorem (`follows_runtime`): a
worker's tasks come in the order of the calls, and a resolution runs when
all of its workers have reattached, though nothing in the code asks whether
they have. Where in addition no latch is brought to zero between another
worker's count and its test, it is a run of `inChain`, each resolution run
once and after those of the vectors its call reads (`follows_inChain`).
-/

namespace Contentious.Pool

open Cont (Layout Storage Program Runtime RunAct Ref Contents Scan isMonotonic cvecEnd)

/-- The calls on the pool, and the vectors. -/
structure Parallel (lay : Layout) where
  calls : Calls lay.hwconc
  vectors : Runtime

variable [BpBits] {st : Storage}
variable {lay : Layout} {prog : Program}

/-- A thread takes a step. -/
inductive ParAct (lay : Layout)
  /-- the outside thread begins a call: its result is made, the call
  registered -/
  | call
  /-- `tp.submit(task, p)`, for the next worker -/
  | submit
  /-- the outside thread calls `finish` -/
  | finish
  /-- the outside thread goes on in `submit` or `finish` -/
  | main
  /-- in its task, worker `p` detaches -/
  | detach (p : Fin lay.hwconc)
  /-- in its task, worker `p` reads one more element of the second vector -/
  | sweep (p : Fin lay.hwconc)
  /-- worker `p` goes on; a resolution that folds visits the indices -/
  | worker (p : Fin lay.hwconc) (scan : List ℤ)

namespace Calls

variable {n : ℕ} {s t : Calls n} {p q : Fin n} {k : ℕ}

/-- How many splinters of worker `p` are back. -/
def back (s : Calls n) (p : Fin n) : ℕ :=
  s.current p + if s.stage p = .splinter then 0 else 1

omit [BpBits] in
/-- A worker at its splinter goes on with its count. -/
theorem worker_splinter {ks : List ℕ} (hpc : s.pool.pc p = .runTask)
    (hst : s.stage p = .splinter) (hts : s.pool.tasks p = k :: ks) :
    s.worker p = some ({ s with
      reattached := Function.update s.reattached k (insert p (s.reattached k)) }.at' p
        .countDown) := by
  unfold worker
  rw [hpc, hts]
  simp only [hst]

omit [BpBits] in
/-- A worker at no task goes on in the pool. -/
theorem worker_of_ne (hpc : s.pool.pc p ≠ .runTask) : s.worker p = s.poolStep p none := by
  unfold worker
  split
  · next k ks hpc' hts => exact absurd hpc' hpc
  · rfl

omit [BpBits] in
/-- **Its splinter is back**, -/
theorem back_splinter (hC : Counts s) (hpc : s.pool.pc p = .runTask)
    (hst : s.stage p = .splinter) (h : step s (.worker p) = some t) :
    t.back p = s.back p + 1 := by
  have hne := hC.sound.control.task p (by rw [hpc]; trivial)
  obtain ⟨k, ks, hts⟩ := List.exists_cons_of_ne_nil hne
  have h : s.worker p = some t := h
  rw [worker_splinter hpc hst hts] at h
  cases h
  unfold back
  rw [at'_stage, if_pos rfl, hst]
  rfl

omit [BpBits] in
/-- and by no other step is one. -/
theorem back_of_step {a : CallAct n} (hC : Counts s) (h : step s a = some t) (q : Fin n)
    (hq : ¬ (a = .worker q ∧ s.pool.pc q = .runTask ∧ s.stage q = .splinter)) :
    t.back q = s.back q := by
  have hown : ∀ p, s.pool.pc p = .runTask → s.stage p = .splinter → t.stage p ≠ .splinter →
      q ≠ p := by
    rintro p hpc hst hst' rfl
    have ha : a ≠ .worker q := fun ha => hq ⟨ha, hpc, hst⟩
    rw [stage_of_step h ha, hst] at hst'
    exact hst' rfl
  -- elsewhere in a task, the splinter is back before the step and after
  have hstay : ∀ (p : Fin n) (c : Stage), s.stage p ≠ .splinter → c ≠ .splinter →
      (if (s.at' p c).stage q = .splinter then 0 else 1) =
        if s.stage q = .splinter then 0 else 1 := by
    intro p c hst hc
    rw [at'_stage]
    by_cases hqp : q = p
    · rw [if_pos hqp, if_neg hc, hqp, if_neg hst]
    · rw [if_neg hqp]
  have hdone : ∀ (p : Fin n) (k : ℕ), s.stage p ≠ .splinter →
      ({ s with pool := (s.pool.finished p k).goto p .popTask }.at' p .splinter).back q =
        s.back q := by
    intro p k hst
    unfold back
    rw [at'_stage]
    simp only [current, at', State.goto_ran, State.finished_ran]
    by_cases hqp : q = p
    · subst hqp
      rw [if_pos rfl, if_pos rfl, if_pos rfl, if_neg hst, List.length_append,
        List.length_singleton]
    · rw [if_neg hqp, if_neg hqp]
  cases moves_of_step h with
  | call ht => rfl
  | submit ht hf => rfl
  | outside pool hs hsub hran hpc hsubR => simp only [back, current, hran]
  | splinter p k ks hpc hts hst =>
    have hqp := hown p hpc hst (by rw [at'_stage, if_pos rfl]; simp)
    unfold back
    rw [at'_stage, if_neg hqp]
    rfl
  | countDown p k ks hpc hts hst =>
    exact congrArg (s.current q + ·) (hstay p .tryWait (by rw [hst]; simp) (by simp))
  | tryWait p k ks hpc hts hst =>
    exact congrArg (s.current q + ·) (hstay p _ (by rw [hst]; simp) (by simp))
  | returns p k ks hpc hts hst => exact hdone p k (by rw [hst]; simp)
  | submitr p k ks hpc hts hst => rfl
  | writeResn p k hpc => rfl
  | submitted p k ks l hpc hl hts =>
    have hst := hC.past p (by rw [hpc]; trivial) (by rw [hpc]; simp)
    exact hdone p k (by rw [hst]; simp)
  | quiet p pool hq => simp only [back, current, hq.ran]

omit [BpBits] in
/-- The worker that runs a resolution adds it to those that have run, -/
theorem ranR_of_running (hk : s.Running p k) (h : step s (.worker p) = some t) :
    t.pool.ranR = s.pool.ranR ++ [k] := by
  obtain ⟨hpc, hhead⟩ := hk
  obtain ⟨ks, hr⟩ := List.head?_eq_some_iff.1 hhead
  have h : s.worker p = some t := h
  rw [worker_of_ne (by rw [hpc]; simp)] at h
  obtain ⟨pool, hst, rfl⟩ := Option.map_eq_some_iff.1 h
  simp only [workerStep, hpc, hr] at hst
  cases hst
  rfl

omit [BpBits] in
/-- and nobody else does. -/
theorem ranR_of_step {a : CallAct n} (h : step s a = some t)
    (ha : ∀ p, a = .worker p → s.pool.pc p ≠ .runResn) : t.pool.ranR = s.pool.ranR := by
  have hworks : ∀ p u, Works s.pool p u → s.pool.pc p ≠ .runResn → u.ranR = s.pool.ranR := by
    intro p u hw hne
    cases hw with
    | runResn r rs hpc hr => exact absurd hpc hne
    | _ => rfl
  have hsubmits : ∀ u, Submits s.pool u → u.ranR = s.pool.ranR := by
    intro u hs
    cases hs <;> rfl
  have hstep : ∀ b u, Pool.step s.pool b = some u → (∀ p resn, b ≠ .worker p resn) →
      u.ranR = s.pool.ranR := by
    intro b u hb hne
    cases b with
    | worker p resn => exact absurd rfl (hne p resn)
    | main => exact hsubmits u (submits_of_mainStep hb)
    | finish =>
      obtain ⟨hf, hb⟩ := Option.ite_none_right_eq_some.1 hb
      cases hb
      rfl
    | submit p task =>
      obtain ⟨hf, hb⟩ := Option.ite_none_right_eq_some.1 hb
      cases hb
      rfl
  cases a with
  | worker p =>
    rcases works_of_worker h with heq | hw
    · rw [heq]
    · exact hworks p _ hw (ha p rfl)
  | call =>
    obtain ⟨-, h⟩ := Option.ite_none_right_eq_some.1 h
    cases h
    rfl
  | submit =>
    simp only [step] at h
    split at h
    · obtain ⟨pool, hst, rfl⟩ := Option.map_eq_some_iff.1 h
      exact hstep _ _ hst (by simp)
    · cases h
  | finish =>
    obtain ⟨-, h⟩ := Option.ite_none_right_eq_some.1 h
    obtain ⟨pool, hst, rfl⟩ := Option.map_eq_some_iff.1 h
    exact hstep _ _ hst (by simp)
  | main =>
    obtain ⟨pool, hst, rfl⟩ := Option.map_eq_some_iff.1 h
    exact hstep _ _ hst (by simp)

omit [BpBits] in
/-- Who is in its task goes on there by its own steps only. -/
theorem frame_of_ne {a : CallAct n} (h : step s a = some t) (ha : a ≠ .worker p) :
    t.pool.pc p = s.pool.pc p ∧ t.stage p = s.stage p := by
  refine ⟨?_, stage_of_step h ha⟩
  by_cases hw : ∃ q, a = .worker q
  · obtain ⟨q, rfl⟩ := hw
    have hpq : p ≠ q := fun hpq => ha (by rw [hpq])
    rcases works_of_worker h with heq | hw
    · rw [heq]
    · exact hw.pc_of_ne hpq
  · rw [(frame_of_step h fun q hq => hw ⟨q, hq⟩).1]

end Calls

/-- The step of the calls that it is, if any. -/
def ParAct.ofCalls : ParAct lay → Option (CallAct lay.hwconc)
  | .call => some .call
  | .submit => some .submit
  | .finish => some .finish
  | .main => some .main
  | .detach _ => none
  | .sweep _ => none
  | .worker p _ => some (.worker p)

namespace Parallel

/-- The vectors, as worker `p` has them in its task of call `k`. -/
def inTask (s : Parallel lay) (p : Fin lay.hwconc) (k : ℕ) : Runtime :=
  { s.vectors with done := Function.update s.vectors.done p k }

/-- A step of the calls that touches no vector. -/
def callStep (s : Parallel lay) (a : CallAct lay.hwconc) : Option (Parallel lay) :=
  (s.calls.step a).map fun calls => { s with calls := calls }

/-- What the resolution of call `k` waits for, and the indices it visits
where it folds. -/
def Resolvable (prog : Program) (s : Parallel lay) (k : ℕ) (scan : List ℤ) : Prop :=
  s.calls.latch k = 0 ∧ (isMonotonic (prog.call k).first.imap = false → lay.size < 2 ^ 31 →
    Scan lay.size (s.vectors.orig (prog.call k).src) (s.vectors.data (prog.call k).src) scan)

instance (s : Parallel lay) (k : ℕ) (scan : List ℤ) : Decidable (s.Resolvable prog k scan) :=
  inferInstanceAs (Decidable (_ ∧ _))

/-- The next step of worker `p`. -/
def worker (st : Storage) (prog : Program) (s : Parallel lay) (p : Fin lay.hwconc)
    (scan : List ℤ) : Option (Parallel lay) :=
  match s.calls.pool.pc p, s.calls.stage p with
  | .runTask, .splinter =>
    match s.calls.pool.tasks p with
    | [] => none
    | k :: _ =>
      if s.vectors.detached p = true ∧ (s.inTask p k).Through lay prog p then
        (s.calls.step (.worker p)).map fun calls => ⟨calls, (s.inTask p k).reattach st lay prog p⟩
      else none
  | .runResn, _ =>
    match s.calls.pool.resns with
    | [] => none
    | k :: _ =>
      if s.Resolvable prog k scan then
        (s.calls.step (.worker p)).map fun calls => ⟨calls, s.vectors.resolve lay prog k scan⟩
      else none
  | _, _ => s.callStep (.worker p)

/-- One step. -/
def step (st : Storage) (prog : Program) (s : Parallel lay) (a : ParAct lay) :
    Option (Parallel lay) :=
  if s.vectors.stopped.isSome then none
  else
    match a with
    | .call =>
      if s.calls.pool.main.free then
        (s.calls.step .call).map fun calls => ⟨calls, s.vectors.call prog⟩
      else none
    | .submit => s.callStep .submit
    | .finish => s.callStep .finish
    | .main => s.callStep .main
    | .detach p =>
      match s.calls.pool.pc p, s.calls.stage p, s.calls.pool.tasks p with
      | .runTask, .splinter, k :: _ =>
        if s.vectors.detached p = false then
          some { s with vectors := (s.inTask p k).detach lay prog p }
        else none
      | _, _, _ => none
    | .sweep p =>
      match s.calls.pool.pc p, s.calls.stage p, s.calls.pool.tasks p with
      | .runTask, .splinter, k :: _ =>
        match (prog.call k).other with
        | some other =>
          if s.vectors.detached p = true ∧ (s.vectors.splt p).it ≠ cvecEnd lay p then
            some { s with vectors := (s.inTask p k).sweep lay p other }
          else none
        | none => none
      | _, _, _ => none
    | .worker p scan => s.worker st prog p scan

/-- No call yet, on vectors that hold what the main thread has filled in. -/
def init (lay : Layout) (x₀ : ℕ → Contents) (c₀ : ℕ → SortedSet ℤ) : Parallel lay :=
  ⟨Calls.init lay.hwconc, .start x₀ c₀⟩

end Parallel

/-- The calls, the pool and the vectors as a machine. -/
def parallel (st : Storage) (lay : Layout) (prog : Program) :
    Machine (Parallel lay) (ParAct lay) :=
  ⟨Parallel.step st prog⟩

namespace Parallel

variable {s t : Parallel lay} {p q : Fin lay.hwconc} {k : ℕ}
variable {x₀ : ℕ → Contents} {c₀ : ℕ → SortedSet ℤ}

/-! ## What a step does -/

/-- Worker `p` is in its task, and its splinter is not back. -/
def Computing (s : Parallel lay) (p : Fin lay.hwconc) (k : ℕ) : Prop :=
  s.calls.pool.pc p = .runTask ∧ s.calls.stage p = .splinter ∧
    (s.calls.pool.tasks p).head? = some k

/-- **The steps there are**: of the outside thread, of a worker at its
splinter, at a resolution, or somewhere else. -/
inductive Moves (st : Storage) (prog : Program) (s : Parallel lay) :
    ParAct lay → Parallel lay → Prop
  | call {calls : Calls lay.hwconc} (h : s.calls.step .call = some calls) :
      Moves st prog s .call ⟨calls, s.vectors.call prog⟩
  | detach {p : Fin lay.hwconc} {k : ℕ} (hp : s.Computing p k)
      (hd : s.vectors.detached p = false) :
      Moves st prog s (.detach p) { s with vectors := (s.inTask p k).detach lay prog p }
  | sweep {p : Fin lay.hwconc} {k : ℕ} {other : Ref} (hp : s.Computing p k)
      (ho : (prog.call k).other = some other) (hd : s.vectors.detached p = true)
      (hne : (s.vectors.splt p).it ≠ cvecEnd lay p) :
      Moves st prog s (.sweep p) { s with vectors := (s.inTask p k).sweep lay p other }
  | reattach {p : Fin lay.hwconc} {k : ℕ} {scan : List ℤ} {calls : Calls lay.hwconc}
      (hp : s.Computing p k) (hd : s.vectors.detached p = true)
      (ht : (s.inTask p k).Through lay prog p) (h : s.calls.step (.worker p) = some calls) :
      Moves st prog s (.worker p scan) ⟨calls, (s.inTask p k).reattach st lay prog p⟩
  | resolve {p : Fin lay.hwconc} {k : ℕ} {scan : List ℤ} {calls : Calls lay.hwconc}
      (hp : s.calls.Running p k) (hk : s.Resolvable prog k scan)
      (h : s.calls.step (.worker p) = some calls) :
      Moves st prog s (.worker p scan) ⟨calls, s.vectors.resolve lay prog k scan⟩
  | other {a : ParAct lay} {b : CallAct lay.hwconc} {calls : Calls lay.hwconc}
      (ha : a.ofCalls = some b) (h : s.calls.step b = some calls) (hcall : b ≠ .call)
      (hw : ∀ p, b = .worker p → (∀ k, ¬ s.Computing p k) ∧ s.calls.pool.pc p ≠ .runResn) :
      Moves st prog s a { s with calls := calls }

theorem moves_of_callStep {a : ParAct lay} {b : CallAct lay.hwconc}
    (ha : a.ofCalls = some b) (h : s.callStep b = some t) (hcall : b ≠ .call)
    (hw : ∀ p, b = .worker p → (∀ k, ¬ s.Computing p k) ∧ s.calls.pool.pc p ≠ .runResn) :
    Moves st prog s a t := by
  unfold callStep at h
  obtain ⟨calls, hst, rfl⟩ := Option.map_eq_some_iff.1 h
  exact .other ha hst hcall hw

theorem moves_of_worker {scan : List ℤ} (h : s.worker st prog p scan = some t) :
    Moves st prog s (.worker p scan) t := by
  unfold worker at h
  split at h
  · next hpc hst =>
    split at h
    · cases h
    · next k ks hts =>
      obtain ⟨⟨hd, ht⟩, h⟩ := Option.ite_none_right_eq_some.1 h
      obtain ⟨calls, hstep, rfl⟩ := Option.map_eq_some_iff.1 h
      exact .reattach ⟨hpc, hst, by rw [hts]; rfl⟩ hd ht hstep
  · next hpc =>
    split at h
    · cases h
    · next k ks hr =>
      obtain ⟨hk, h⟩ := Option.ite_none_right_eq_some.1 h
      obtain ⟨calls, hstep, rfl⟩ := Option.map_eq_some_iff.1 h
      exact .resolve ⟨hpc, by rw [hr]; rfl⟩ hk hstep
  · next hno hno' =>
    refine moves_of_callStep rfl h (by simp) fun q hq => ?_
    cases hq
    exact ⟨fun k hk => hno' hk.1 hk.2.1, hno⟩

theorem moves_of_step {a : ParAct lay} (h : step st prog s a = some t) :
    s.vectors.stopped = none ∧ Moves st prog s a t := by
  unfold step at h
  split at h
  · cases h
  next hgo =>
  refine ⟨by simpa using hgo, ?_⟩
  cases a with
  | call =>
    obtain ⟨-, h⟩ := Option.ite_none_right_eq_some.1 h
    obtain ⟨calls, hstep, rfl⟩ := Option.map_eq_some_iff.1 h
    exact .call hstep
  | submit => exact moves_of_callStep rfl h (by simp) (by simp)
  | finish => exact moves_of_callStep rfl h (by simp) (by simp)
  | main => exact moves_of_callStep rfl h (by simp) (by simp)
  | detach p =>
    dsimp only at h
    split at h
    · next k ks hpc hst hts =>
      obtain ⟨hd, h⟩ := Option.ite_none_right_eq_some.1 h
      cases h
      exact .detach ⟨hpc, hst, by rw [hts]; rfl⟩ hd
    · cases h
  | sweep p =>
    dsimp only at h
    split at h
    · next k ks hpc hst hts =>
      split at h
      · next other ho =>
        obtain ⟨⟨hd, hne⟩, h⟩ := Option.ite_none_right_eq_some.1 h
        cases h
        exact .sweep ⟨hpc, hst, by rw [hts]; rfl⟩ ho hd hne
      · cases h
    · cases h
  | worker p scan => exact moves_of_worker h

/-! ## The calls and the runtime agree -/

/-- **What the calls say of the vectors.** A worker has reattached as often
as its splinters are back, it has detached only while it is in a task, and
the resolved calls are those whose resolutions have run. -/
structure Linked (s : Parallel lay) : Prop where
  counts : s.calls.Counts
  inOrder : s.calls.InOrder
  created : s.vectors.created = s.calls.calls
  done : ∀ p : Fin lay.hwconc, s.vectors.done p = s.calls.back p
  detached : ∀ p : Fin lay.hwconc, s.vectors.detached p = true →
    s.calls.pool.pc p = .runTask ∧ s.calls.stage p = .splinter
  resolved : ∀ k, s.vectors.resolved k = true ↔ k ∈ s.calls.pool.ranR

omit [BpBits] in
/-- A worker at its splinter is in the task after those it is done with. -/
theorem Linked.computing (hL : Linked s) (hp : s.Computing p k) :
    k = s.vectors.done p ∧ k < s.vectors.created := by
  obtain ⟨hpc, hst, hhead⟩ := hp
  obtain ⟨ks, hts⟩ := List.head?_eq_some_iff.1 hhead
  obtain ⟨hk, hlt⟩ := hL.counts.front (by rw [hpc]; simp) hts
  rw [hL.created, hL.done p]
  refine ⟨?_, hlt⟩
  unfold Calls.back
  rw [if_pos hst]
  exact hk

omit [BpBits] in
/-- So its task is that of the call it thinks it is. -/
theorem Linked.inTask (hL : Linked s) (hp : s.Computing p k) : s.inTask p k = s.vectors := by
  unfold Parallel.inTask
  rw [(hL.computing hp).1, Function.update_eq_self]

omit [BpBits] in
/-- **Once a latch is at zero**, every worker is done with the call. -/
theorem Linked.due {scan : List ℤ} (hL : Linked s) (hk : k < s.calls.calls)
    (h : s.Resolvable prog k scan) : s.vectors.Due lay prog k scan := by
  obtain ⟨hzero, hscan⟩ := h
  refine ⟨by rw [hL.created]; exact hk, fun p hp => ?_, hscan⟩
  have hlatch := hL.counts.latch k hk
  have huniv : s.calls.counted k = Finset.univ :=
    Finset.eq_univ_of_card _ (by rw [Fintype.card_fin]; omega)
  have hmem : (⟨p, hp⟩ : Fin lay.hwconc) ∈ s.calls.counted k := by
    rw [huniv]
    exact Finset.mem_univ _
  have hdone := hL.done ⟨p, hp⟩
  unfold Calls.back at hdone
  rcases (hL.counts.counted _ k).1 hmem with hlt | ⟨hk, hdown⟩
  · dsimp only at hdone
    omega
  · rw [if_neg fun hst => by rw [hst] at hdown; exact hdown] at hdone
    dsimp only at hdone
    omega

omit [BpBits] in
/-- A step of the calls in which no splinter comes back and no resolution
runs. -/
theorem Linked.step {b : CallAct lay.hwconc} {calls : Calls lay.hwconc} (hL : Linked s)
    (h : s.calls.step b = some calls)
    (hw : ∀ p, b = .worker p → (∀ k, ¬ s.Computing p k) ∧ s.calls.pool.pc p ≠ .runResn) :
    (∀ q, calls.back q = s.calls.back q) ∧
      (∀ q : Fin lay.hwconc, s.vectors.detached q = true →
        calls.pool.pc q = .runTask ∧ calls.stage q = .splinter) ∧
      calls.pool.ranR = s.calls.pool.ranR := by
  have hnot : ∀ q, ¬ (b = .worker q ∧ s.calls.pool.pc q = .runTask ∧
      s.calls.stage q = .splinter) := by
    rintro q ⟨hb, hpc, hst⟩
    have hne := hL.counts.sound.control.task q (by rw [hpc]; trivial)
    obtain ⟨k, ks, hts⟩ := List.exists_cons_of_ne_nil hne
    exact (hw q hb).1 k ⟨hpc, hst, by rw [hts]; rfl⟩
  refine ⟨fun q => Calls.back_of_step hL.counts h q (hnot q), fun q hd => ?_,
    Calls.ranR_of_step h fun p hp => (hw p hp).2⟩
  obtain ⟨hpc, hst⟩ := hL.detached q hd
  obtain ⟨hpc', hst'⟩ := Calls.frame_of_ne h fun hb => hnot q ⟨hb, hpc, hst⟩
  rw [hpc', hst']
  exact ⟨hpc, hst⟩

/-- **Whatever goes on**, unless it stops the program. -/
theorem Linked.moves {a : ParAct lay} (hL : Linked s) (h : Moves st prog s a t)
    (hgo : t.vectors.stopped = none) : Linked t := by
  cases h with
  | call h =>
    have hmoves := Calls.moves_of_step h
    obtain ⟨hback, hdet, hran⟩ := hL.step h fun p hp => by cases hp
    refine ⟨hL.counts.moves hmoves, hL.inOrder.moves hL.counts hmoves, ?_, fun q => ?_, hdet,
      fun k => ?_⟩
    · obtain ⟨-, h⟩ := Option.ite_none_right_eq_some.1 h
      cases h
      exact congrArg (· + 1) hL.created
    · rw [hback q]
      exact hL.done q
    · rw [hran]
      exact hL.resolved k
  | @detach p k hp hd =>
    rw [hL.inTask hp]
    refine { hL with detached := fun q hq => ?_ }
    by_cases hqp : q = p
    · rw [hqp]
      exact ⟨hp.1, hp.2.1⟩
    · have hne : (q : ℕ) ≠ p := fun he => hqp (Fin.ext he)
      simp only [Runtime.detach, Function.update_of_ne hne] at hq
      exact hL.detached q hq
  | sweep hp ho hd hne =>
    rw [hL.inTask hp]
    unfold Runtime.sweep
    split
    · exact { hL with }
    · exact { hL with }
  | @reattach p k scan calls hp hd ht h =>
    have hmoves := Calls.moves_of_step h
    dsimp only at hgo
    rw [hL.inTask hp] at hgo ⊢
    obtain ⟨hpc, hst, -⟩ := hp
    have hran : calls.pool.ranR = s.calls.pool.ranR := Calls.ranR_of_step h fun q hq => by
      cases hq
      rw [hpc]
      simp
    have hcalls := (Calls.calls_of_step h).resolve_right fun hc => by cases hc.1
    have hne : ∀ q : Fin lay.hwconc, q ≠ p → (q : ℕ) ≠ p := fun q hqp he => hqp (Fin.ext he)
    unfold Runtime.reattach at hgo ⊢
    split at hgo
    · cases hgo
    · next d ha =>
      refine ⟨hL.counts.moves hmoves, hL.inOrder.moves hL.counts hmoves,
        hL.created.trans hcalls.symm, fun q => ?_, fun q hq => ?_, fun k => ?_⟩
      · by_cases hqp : q = p
        · rw [hqp, Calls.back_splinter hL.counts hpc hst h]
          dsimp only
          rw [Function.update_self, hL.done p]
        · rw [Calls.back_of_step hL.counts h q fun hb => hqp (by cases hb.1; rfl)]
          dsimp only
          rw [Function.update_of_ne (hne q hqp)]
          exact hL.done q
      · by_cases hqp : q = p
        · rw [hqp] at hq
          dsimp only at hq
          rw [Function.update_self] at hq
          cases hq
        · dsimp only at hq
          rw [Function.update_of_ne (hne q hqp)] at hq
          obtain ⟨hpc', hst'⟩ := Calls.frame_of_ne (p := q) h fun hb => hqp (by cases hb; rfl)
          dsimp only
          rw [hpc', hst']
          exact hL.detached q hq
      · dsimp only
        rw [hran]
        exact hL.resolved k
  | @resolve p k scan calls hp hk h =>
    have hmoves := Calls.moves_of_step h
    have hran := Calls.ranR_of_running hp h
    have hcalls := (Calls.calls_of_step h).resolve_right fun hc => by cases hc.1
    have hnot : ∀ q : Fin lay.hwconc, ¬ (CallAct.worker p = .worker q ∧
        s.calls.pool.pc q = .runTask ∧ s.calls.stage q = .splinter) := by
      rintro q ⟨hb, hpc, -⟩
      cases hb
      rw [hp.1] at hpc
      cases hpc
    dsimp only at hgo
    unfold Runtime.resolve at hgo ⊢
    split at hgo
    · cases hgo
    · next d c hr =>
      refine ⟨hL.counts.moves hmoves, hL.inOrder.moves hL.counts hmoves,
        hL.created.trans hcalls.symm, fun q => ?_, fun q hq => ?_, fun l => ?_⟩
      · rw [Calls.back_of_step hL.counts h q (hnot q)]
        exact hL.done q
      · obtain ⟨hpc, hst⟩ := hL.detached q hq
        obtain ⟨hpc', hst'⟩ := Calls.frame_of_ne (p := q) h fun hb => hnot q ⟨hb, hpc, hst⟩
        dsimp only
        rw [hpc', hst']
        exact ⟨hpc, hst⟩
      · dsimp only
        rw [hran, List.mem_append, List.mem_singleton, Function.update_apply]
        by_cases hlk : l = k
        · rw [if_pos hlk]
          exact ⟨fun _ => .inr hlk, fun _ => rfl⟩
        · rw [if_neg hlk, hL.resolved l, or_iff_left hlk]
  | @other a b calls ha h hcall hw =>
    have hmoves := Calls.moves_of_step h
    obtain ⟨hback, hdet, hran⟩ := hL.step h hw
    refine ⟨hL.counts.moves hmoves, hL.inOrder.moves hL.counts hmoves, ?_, fun q => ?_, hdet,
      fun k => ?_⟩
    · rw [hL.created]
      exact ((Calls.calls_of_step h).resolve_right fun hc => hcall hc.1).symm
    · rw [hback q]
      exact hL.done q
    · rw [hran]
      exact hL.resolved k

/-! ## Every run is one of the runtime -/

/-- A step is one of the calls, or none of theirs. -/
theorem Moves.calls {a : ParAct lay} (h : Moves st prog s a t) :
    t.calls = s.calls ∨ ∃ b, a.ofCalls = some b ∧ s.calls.step b = some t.calls := by
  cases h with
  | call h => exact .inr ⟨_, rfl, h⟩
  | detach hp hd => exact .inl rfl
  | sweep hp ho hd hne => exact .inl rfl
  | reattach hp hd ht h => exact .inr ⟨_, rfl, h⟩
  | resolve hp hk h => exact .inr ⟨_, rfl, h⟩
  | other ha h hcall hw => exact .inr ⟨_, ha, h⟩

/-- **A step is one of the runtime**, or none that the vectors see; and a
resolution is one that a worker runs. -/
theorem Linked.follows {a : ParAct lay} (hL : Linked s) (hgo : s.vectors.stopped = none)
    (h : Moves st prog s a t) : t.vectors = s.vectors ∨
      ∃ act, (Cont.runtime st lay prog).step s.vectors act = some t.vectors ∧
        ∀ k scan, act = .resolve k scan → ∃ p, s.calls.Running p k := by
  have hgo' : ¬ s.vectors.stopped.isSome = true := by rw [hgo]; simp
  cases h with
  | call h =>
    refine .inr ⟨.call, ?_, by simp⟩
    simp only [Cont.runtime, if_neg hgo']
  | @detach p k hp hd =>
    obtain ⟨hk, hlt⟩ := hL.computing hp
    refine .inr ⟨.detach p, ?_, by simp⟩
    rw [hL.inTask hp]
    simp only [Cont.runtime, if_neg hgo']
    rw [if_pos ⟨p.isLt, hd, by rw [← hk]; exact hlt⟩]
  | @sweep p k other hp ho hd hne =>
    obtain ⟨hk, hlt⟩ := hL.computing hp
    refine .inr ⟨.sweep p, ?_, by simp⟩
    rw [hL.inTask hp]
    rw [hk] at ho
    simp only [Cont.runtime, if_neg hgo', ho]
    rw [if_pos ⟨p.isLt, hd, hne⟩]
  | @reattach p k scan calls hp hd ht h =>
    rw [hL.inTask hp] at ht
    refine .inr ⟨.reattach p, ?_, by simp⟩
    dsimp only
    rw [hL.inTask hp]
    simp only [Cont.runtime, if_neg hgo']
    rw [if_pos ⟨p.isLt, hd, ht⟩]
  | @resolve p k scan calls hp hk h =>
    obtain ⟨ks, hsub⟩ := hp.submittedR hL.counts
    have hmem : k ∈ s.calls.pool.submittedR := by
      rw [hsub]
      exact List.mem_append_right _ List.mem_cons_self
    have hlt := hL.counts.counted_lt (hL.inOrder.all k hmem p)
    refine .inr ⟨.resolve k scan, ?_, fun l scan' hl => ⟨p, by cases hl; exact hp⟩⟩
    simp only [Cont.runtime, if_neg hgo']
    rw [if_pos (hL.due hlt hk)]
  | other ha h hcall hw => exact .inl rfl

omit [BpBits] in
theorem Linked.init (x₀ : ℕ → Contents) (c₀ : ℕ → SortedSet ℤ) : Linked (init lay x₀ c₀) where
  counts := .init
  inOrder := .init
  created := rfl
  done _ := rfl
  detached _ h := by cases h
  resolved k := by simp [Parallel.init, Runtime.start, Calls.init, Pool.init]

/-- A run is one of the calls, -/
theorem calls_of_run {as : List (ParAct lay)} {u : Parallel lay}
    (h : (parallel st lay prog).run u as = some s) :
    ∃ bs, (callPool lay.hwconc).run u.calls bs = some s.calls := by
  obtain ⟨bs, v, hrun, -, rfl⟩ := (parallel st lay prog).run_stutters_along
    (N := callPool lay.hwconc) (C := fun _ _ => True) (D := fun _ _ => True)
    (R := fun s v => s.calls = v)
    (fun s a t v hR _ hst => by
      subst hR
      rcases (moves_of_step hst).2.calls with heq | ⟨b, -, hb⟩
      · exact .inl heq
      · exact .inr ⟨b, t.calls, trivial, hb, rfl⟩)
    (t := u.calls) rfl (Machine.along_of_forall _ fun _ _ => trivial) h
  exact ⟨bs, hrun⟩

/-- while nothing has stopped, the pool and the runtime agree, -/
theorem linked_of_run {as : List (ParAct lay)}
    (h : (parallel st lay prog).run (init lay x₀ c₀) as = some s) (hgo : s.vectors.stopped = none) :
    Linked s := by
  have hL : s.vectors.stopped = none → Linked s := (parallel st lay prog).run_invariant
    (I := fun s => s.vectors.stopped = none → Linked s) (fun s a t hL hst => ?_)
    (fun _ => .init x₀ c₀) h
  · exact hL hgo
  · obtain ⟨hgo, hmoves⟩ := moves_of_step hst
    exact (hL hgo).moves hmoves

/-- and the vectors go through a run of the runtime. -/
theorem runtime_of_run {as : List (ParAct lay)}
    (h : (parallel st lay prog).run (init lay x₀ c₀) as = some s) :
    ∃ acts, (Cont.runtime st lay prog).run (.start x₀ c₀) acts = some s.vectors := by
  obtain ⟨acts, u, hrun, -, rfl, -⟩ := (parallel st lay prog).run_stutters_along
    (N := Cont.runtime st lay prog) (C := fun _ _ => True) (D := fun _ _ => True)
    (R := fun s u => s.vectors = u ∧ (s.vectors.stopped = none → Linked s))
    (fun s a t u hR _ hst => by
      obtain ⟨rfl, hL⟩ := hR
      obtain ⟨hgo, hmoves⟩ := moves_of_step hst
      have hL' := (hL hgo).moves hmoves
      rcases (hL hgo).follows hgo hmoves with heq | ⟨act, hact, -⟩
      · exact .inl ⟨heq, hL'⟩
      · exact .inr ⟨act, t.vectors, trivial, hact, rfl, hL'⟩)
    (t := .start x₀ c₀) ⟨rfl, fun _ => .init x₀ c₀⟩
    (Machine.along_of_forall _ fun _ _ => trivial) h
  exact ⟨acts, hrun⟩

/-- **Every run of the program is one of the runtime.** Whatever the order
in which the outside thread and the workers go on, with their queues, their
semaphores, the lock and the latches, the vectors go through a run of the
runtime, in which a resolution runs only once all workers are done with its
call; and as long as nothing has stopped, what the runtime says of each
call is what the pool says. -/
theorem follows_runtime {as : List (ParAct lay)}
    (h : (parallel st lay prog).run (init lay x₀ c₀) as = some s) :
    (∃ acts, (Cont.runtime st lay prog).run (.start x₀ c₀) acts = some s.vectors) ∧
      (s.vectors.stopped = none → Linked s) :=
  ⟨runtime_of_run h, linked_of_run h⟩

/-- Two workers and three elements, -/
def threeElems : Layout := ⟨2, 3, by decide, by decide⟩

/-- that each call doubles. -/
def doubling : Program := Cont.foreachChain fun _ => .scalar 2

/-- Worker 0 is done with its block before worker 1 starts, which runs the
resolution; then both go on until they wait. -/
def doublingActs : List (ParAct threeElems) :=
  let first : Fin threeElems.hwconc := ⟨0, by decide⟩
  let second : Fin threeElems.hwconc := ⟨1, by decide⟩
  [.call, .submit, .main, .submit, .main] ++ List.replicate 5 (.worker first []) ++
    [.detach first] ++ List.replicate 6 (.worker first []) ++
    List.replicate 5 (.worker second []) ++ [.detach second] ++
    List.replicate 25 (.worker second []) ++ List.replicate 12 (.worker first [])

omit [BpBits] in
theorem follows_runtime_doubling :
    letI := oneBit
    ∃ s, (parallel .exact threeElems doubling).run
        (init threeElems (fun _ t => t + 1) fun _ => .empty) doublingActs = some s ∧
      (∃ acts, (Cont.runtime .exact threeElems doubling).run
        (.start (fun _ t => t + 1) fun _ => .empty) acts = some s.vectors) ∧
      (s.vectors.stopped = none → Linked s) := by
  let _ := oneBit
  have hsome : ((parallel .exact threeElems doubling).run
      (init threeElems (fun _ t => t + 1) fun _ => .empty) doublingActs).isSome = true := by
    decide +kernel
  obtain ⟨s, hrun⟩ := Option.isSome_iff_exists.1 hsome
  exact ⟨s, hrun, follows_runtime hrun⟩

/-! ## Resolutions in order -/

/-- If this step brings a latch to zero, no other worker is between its
count and its test. -/
def LastAlone (s : Parallel lay) (a : ParAct lay) : Prop := ∀ b ∈ a.ofCalls, s.calls.LastAlone b

instance (s : Parallel lay) (a : ParAct lay) : Decidable (s.LastAlone a) :=
  inferInstanceAs (Decidable (∀ b ∈ a.ofCalls, s.calls.LastAlone b))

/-- One worker for each resolution still. -/
theorem Moves.alone {a : ParAct lay} (hL : Linked s) (hA : s.calls.Alone) (hlast : s.LastAlone a)
    (h : Moves st prog s a t) : t.calls.Alone := by
  rcases h.calls with heq | ⟨b, hb, hst⟩
  · rw [heq]
    exact hA
  · exact hA.step hL.counts hL.inOrder (hlast b hb) hst

omit [BpBits] in
/-- **A resolution that runs** is the first of its call, and after those of
what the call reads. -/
theorem Linked.inChain {scan : List ℤ} (hL : Linked s) (hA : s.calls.Alone)
    (hp : s.calls.Running p k) : s.vectors.inOrder prog (.resolve k scan) = true := by
  obtain ⟨ks, hsub⟩ := hp.submittedR hL.counts
  obtain ⟨-, hbefore⟩ := hp.complete hL.counts hL.inOrder
  refine Runtime.inOrder_resolve.2 ⟨?_, fun r hr => ?_⟩
  · by_contra hres
    have hran := (hL.resolved k).1 (by simpa using hres)
    have hnodup := hA.nodup
    rw [hsub] at hnodup
    exact (List.nodup_append.1 hnodup).2.2 k hran k List.mem_cons_self rfl
  · cases r with
    | input i => rfl
    | result j => exact (hL.resolved j).2 (hbefore j (prog.sound k j hr).1)

/-- Along such a run, no resolution is run twice. -/
theorem alone_of_run {as : List (ParAct lay)}
    (h : (parallel st lay prog).run (init lay x₀ c₀) as = some s)
    (hlast : (parallel st lay prog).Along LastAlone (init lay x₀ c₀) as)
    (hgo : s.vectors.stopped = none) : s.calls.Alone := by
  have hLA : s.vectors.stopped = none → Linked s ∧ s.calls.Alone :=
    (parallel st lay prog).run_invariant_along
      (I := fun s => s.vectors.stopped = none → Linked s ∧ s.calls.Alone) (C := LastAlone)
      (fun s a t hLA hlast hst => ?_) (fun _ => ⟨.init x₀ c₀, .init⟩) hlast h
  · exact (hLA hgo).2
  · obtain ⟨hgo, hmoves⟩ := moves_of_step hst
    obtain ⟨hL, hA⟩ := hLA hgo
    exact fun hgo' => ⟨hL.moves hmoves hgo', hmoves.alone hL hA hlast⟩

/-- **Where each last worker is alone, it is a run of `inChain`**: each
resolution runs once, and after those of the vectors its call reads. -/
theorem follows_inChain {as : List (ParAct lay)}
    (h : (parallel st lay prog).run (init lay x₀ c₀) as = some s)
    (hlast : (parallel st lay prog).Along LastAlone (init lay x₀ c₀) as) :
    ∃ acts, (Cont.inChain st lay prog).run (.start x₀ c₀) acts = some s.vectors := by
  obtain ⟨acts, u, hrun, -, rfl, -⟩ := (parallel st lay prog).run_stutters_along
    (N := Cont.inChain st lay prog) (C := LastAlone) (D := fun _ _ => True)
    (R := fun s u => s.vectors = u ∧ (s.vectors.stopped = none → Linked s ∧ s.calls.Alone))
    (fun s a t u hR hlast hst => by
      obtain ⟨rfl, hLA⟩ := hR
      obtain ⟨hgo, hmoves⟩ := moves_of_step hst
      obtain ⟨hL, hA⟩ := hLA hgo
      have hLA' : t.vectors.stopped = none → Linked t ∧ t.calls.Alone :=
        fun hgo' => ⟨hL.moves hmoves hgo', hmoves.alone hL hA hlast⟩
      rcases hL.follows hgo hmoves with heq | ⟨act, hact, hres⟩
      · exact .inl ⟨heq, hLA'⟩
      · refine .inr ⟨act, t.vectors, trivial, Machine.restrict_step.2 ⟨?_, hact⟩, rfl, hLA'⟩
        cases act with
        | resolve k scan =>
          obtain ⟨p, hp⟩ := hres k scan rfl
          exact hL.inChain hA hp
        | _ => rfl)
    (t := .start x₀ c₀) ⟨rfl, fun _ => ⟨.init x₀ c₀, .init⟩⟩ hlast h
  exact ⟨acts, hrun⟩

omit [BpBits] in
theorem follows_inChain_doubling :
    letI := oneBit
    ∃ s, (parallel .exact threeElems doubling).run
        (init threeElems (fun _ t => t + 1) fun _ => .empty) doublingActs = some s ∧
      ∃ acts, (Cont.inChain .exact threeElems doubling).run
        (.start (fun _ t => t + 1) fun _ => .empty) acts = some s.vectors := by
  let _ := oneBit
  have hsome : ((parallel .exact threeElems doubling).run
      (init threeElems (fun _ t => t + 1) fun _ => .empty) doublingActs).isSome = true := by
    decide +kernel
  have hlast : (parallel .exact threeElems doubling).Along LastAlone
      (init threeElems (fun _ t => t + 1) fun _ => .empty) doublingActs := by decide +kernel
  obtain ⟨s, hrun⟩ := Option.isSome_iff_exists.1 hsome
  exact ⟨s, hrun, follows_inChain hrun hlast⟩

end Parallel

end Contentious.Pool
