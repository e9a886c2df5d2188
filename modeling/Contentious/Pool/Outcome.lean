import Contentious.Cont.Storage
import Contentious.Pool.Finish
import Contentious.Pool.Fuel
import Contentious.Pool.Parallel

/-!
# Pool — what the main thread finds in the end

The main thread learns that its vectors are computed in one way, from
`finish`. When it is back from there every worker is done with every call
and every resolution has run (`finished_of_returned`), so what the runtime
says of such a state is what the main thread reads (`foreach_finished`).

The workers come to that point by themselves. Each of their steps uses up
something (`Fuel`), so that left alone they stop; and where none of them
can go on, everything is done, unless one of them is in `submitr` and the
queue of resolutions is full (`resting`). It is not, as long as no more
calls are outstanding than it has room for, where each last worker is alone
(`resns_lt`).
-/

namespace Contentious.Pool

open Cont (Layout Storage Program Runtime RunAct Ref Contents Scan isMonotonic cvecEnd)

variable [BpBits] {st : Storage}
variable {lay : Layout} {prog : Program}

namespace Calls

variable {n : ℕ} {s t : Calls n} {p : Fin n} {k : ℕ}

omit [BpBits] in
/-- What the predicate of `finish` has seen stays so while the calls go on. -/
theorem Moves.seen (hS : Sound s.pool) (hI : Seen s.pool) (h : Moves s t) : Seen t.pool := by
  have hS' := h.sound hS
  rcases h.pool with heq | ⟨p, hw⟩ | hs
  · rw [heq]
    exact hI
  · exact hI.works hS hS' hw
  · exact hI.submits hS' hs

omit [BpBits] in
theorem seen_of_run {as : List (CallAct n)} (h : (callPool n).run (init n) as = some s) :
    Counts s ∧ InOrder s ∧ Seen s.pool := by
  refine Machine.run_invariant (I := fun s => Counts s ∧ InOrder s ∧ Seen s.pool)
    (fun s a t hI hst => ?_) ⟨.init, .init, ?_⟩ h
  · obtain ⟨hC, hO, hI⟩ := hI
    have hmoves := moves_of_step hst
    exact ⟨hC.moves hmoves, hO.moves hC hmoves, hmoves.seen hC.sound hI⟩
  · exact ⟨fun k hk => (by cases hk), fun k hk => (by cases hk), fun hk => (by cases hk)⟩

omit [BpBits] in
/-- **With both queues empty** and every task handed out, each worker is
done with each call. -/
theorem Counts.current_of_empty (hC : Counts s) (hturn : s.turn = n)
    (htasks : ∀ p, s.pool.tasks p = []) (p : Fin n) :
    s.current p = s.calls ∧ s.stage p = .splinter := by
  have hidle : ¬ (s.pool.pc p).busy := by
    intro hbusy
    have hhead := hC.head?_tasks hbusy
    rw [htasks p] at hhead
    cases hhead
  have hpop : s.pool.pc p ≠ .popTask := fun hpc =>
    hC.sound.control.task p (by rw [hpc]; trivial) (htasks p)
  have hsub := hC.submitted p
  rw [hC.sound.ordered.tasks p hpop, htasks p, List.append_nil, if_pos (by omega)] at hsub
  refine ⟨?_, by_contra fun hst => hidle (hC.stage p hst)⟩
  unfold current
  rw [hsub, List.length_range]

omit [BpBits] in
/-- Then each resolution has run. -/
theorem InOrder.ranR_of_empty (hC : Counts s) (hO : InOrder s) (hturn : s.turn = n)
    (htasks : ∀ p, s.pool.tasks p = []) (hresns : s.pool.resns = []) (hn : 0 < n)
    (hk : k < s.calls) : k ∈ s.pool.ranR := by
  have hcur := hC.current_of_empty hturn htasks
  have hall : ∀ q, q ∈ s.counted k := fun q =>
    (hC.counted q k).2 (.inl (by rw [(hcur q).1]; exact hk))
  have hpop : ∀ q, s.pool.pc q ≠ .popResn := fun q hpc =>
    hC.sound.control.resn q (by rw [hpc]; trivial) hresns
  have hran := hC.sound.ordered.resns hpop
  rw [hresns, List.append_nil] at hran
  rcases hO.one hn k hall with hmem | ⟨q, hq, -⟩
  · rwa [hran] at hmem
  · rw [(hcur q).1] at hq
    omega

omit [BpBits] in
/-- A worker that cannot go on in its calls cannot in the pool. -/
theorem blocked_of_worker (hC : Counts s) (h : s.worker p = none) :
    (s.pool.pc p = .wait ∧ s.pool.sems p = 0) ∨
      ∃ k, s.pool.pc p = .writeResn k ∧ isFull s.pool.resns = true := by
  have hpool : ∀ resn, s.poolStep p resn = none → (s.pool.pc p = .wait ∧ s.pool.sems p = 0) ∨
      ∃ k, s.pool.pc p = .writeResn k ∧ isFull s.pool.resns = true := by
    intro resn h
    exact hC.sound.control.blocked (Option.map_eq_none_iff.1 h)
  unfold worker at h
  split at h
  · split at h
    · cases h
    · cases h
    · cases h
    · exact hpool _ h
  · exact hpool _ h

omit [BpBits] in
/-- A worker at no task takes a step of the pool. -/
theorem works_of_ne (hpc : s.pool.pc p ≠ .runTask) (h : step s (.worker p) = some t) :
    Works s.pool p t.pool := by
  have h : s.worker p = some t := h
  rw [worker_of_ne hpc] at h
  obtain ⟨pool, hst, rfl⟩ := Option.map_eq_some_iff.1 h
  exact works_of_workerStep hst

omit [BpBits] in
/-- In a task whose splinter is back, it is at the latch, or takes one. -/
theorem works_of_task (hC : Counts s) (hpc : s.pool.pc p = .runTask) (hst : s.stage p ≠ .splinter)
    (h : step s (.worker p) = some t) :
    (t.pool = s.pool ∧ (s.stage p = .countDown ∧ t.stage p = .tryWait ∨
      s.stage p = .tryWait ∧ ∃ zero, t.stage p = .tested zero)) ∨ Works s.pool p t.pool := by
  have hne := hC.sound.control.task p (by rw [hpc]; trivial)
  obtain ⟨k, ks, hts⟩ := List.exists_cons_of_ne_nil hne
  have h : s.worker p = some t := h
  unfold worker at h
  rw [hpc, hts] at h
  dsimp only at h
  split at h
  · next hst' => exact absurd hst' hst
  · next hst' =>
    cases h
    exact .inl ⟨rfl, .inl ⟨hst', by rw [at'_stage, if_pos rfl]⟩⟩
  · next hst' =>
    cases h
    exact .inl ⟨rfl, .inr ⟨hst', _, by rw [at'_stage, if_pos rfl]⟩⟩
  · obtain ⟨pool, hstep, rfl⟩ := Option.map_eq_some_iff.1 h
    exact .inr (works_of_workerStep hstep)

omit [BpBits] in
/-- **A resolution does not wait**: its latch is at zero when it runs. -/
theorem Running.latch_eq_zero (hC : Counts s) (hO : InOrder s) (hp : s.Running p k) :
    s.latch k = 0 := by
  obtain ⟨ks, hsub⟩ := hp.submittedR hC
  have hmem : k ∈ s.pool.submittedR := by
    rw [hsub]
    exact List.mem_append_right _ List.mem_cons_self
  have hall := hO.all k hmem
  exact hC.zero_of_all (hC.counted_lt (hall p)) hall

end Calls

/-- It is a worker's step. -/
def ParAct.ofWorker : ParAct lay → Bool
  | .detach _ => true
  | .sweep _ => true
  | .worker _ _ => true
  | _ => false

namespace Parallel

variable {s t : Parallel lay} {p : Fin lay.hwconc} {k : ℕ}
variable {x₀ : ℕ → Contents} {c₀ : ℕ → SortedSet ℤ}

/-! ## Back from `finish` -/

/-- **Everything is done**: each worker with each call, and each call is
resolved. -/
structure Finished (s : Parallel lay) : Prop where
  done : ∀ p < lay.hwconc, s.vectors.done p = s.vectors.created
  resolved : ∀ k < s.vectors.created, s.vectors.resolved k = true

omit [BpBits] in
theorem Linked.finished (hL : Linked s) (hturn : s.calls.turn = lay.hwconc)
    (htasks : ∀ p, s.calls.pool.tasks p = []) (hresns : s.calls.pool.resns = []) :
    Finished s where
  done p hp := by
    obtain ⟨hcur, hst⟩ := hL.counts.current_of_empty hturn htasks ⟨p, hp⟩
    have hdone := hL.done ⟨p, hp⟩
    unfold Calls.back at hdone
    rw [hcur, if_pos hst] at hdone
    rw [hL.created]
    exact hdone
  resolved k hk := by
    rw [hL.created] at hk
    exact (hL.resolved k).2
      (hL.inOrder.ranR_of_empty hL.counts hturn htasks hresns lay.hwconc_pos hk)

/-- `finish` has seen every queue empty, since the last call. -/
theorem Linked.finished_of_run {as : List (ParAct lay)} (hL : Linked s)
    (h : (parallel st lay prog).run (Parallel.init lay x₀ c₀) as = some s)
    (hret : s.calls.pool.main = .returned) (hturn : s.calls.turn = lay.hwconc) : Finished s := by
  obtain ⟨bs, hbs⟩ := calls_of_run h
  obtain ⟨-, -, hseen⟩ := Calls.seen_of_run hbs
  obtain ⟨htasks, hresns⟩ := hseen.returned hret
  exact hL.finished hturn htasks hresns

/-- **Back from `finish`, everything is done.** -/
theorem finished_of_returned {as : List (ParAct lay)}
    (h : (parallel st lay prog).run (init lay x₀ c₀) as = some s)
    (hret : s.calls.pool.main = .returned) (hturn : s.calls.turn = lay.hwconc)
    (hgo : s.vectors.stopped = none) : Finished s :=
  (linked_of_run h hgo).finished_of_run h hret hturn

/-- The outside thread waits for its call to be done. -/
def finishedActs : List (ParAct threeElems) :=
  doublingActs ++ [.finish] ++ List.replicate 5 .main

omit [BpBits] in
theorem finished_of_returned_doubling :
    letI := oneBit
    ∃ s, (parallel .exact threeElems doubling).run
        (init threeElems (fun _ t => t + 1) fun _ => .empty) finishedActs = some s ∧
      s.calls.pool.main = .returned ∧ s.calls.turn = 2 ∧
      s.vectors.stopped = none ∧ Finished s := by
  let _ := oneBit
  have hend : ((parallel .exact threeElems doubling).run
      (init threeElems (fun _ t => t + 1) fun _ => .empty) finishedActs).map
        (fun s => (s.calls.pool.main, s.calls.turn, s.vectors.stopped)) =
      some (.returned, 2, none) := by decide +kernel
  obtain ⟨s, hrun, hs⟩ := Option.map_eq_some_iff.1 hend
  simp only [Prod.mk.injEq] at hs
  obtain ⟨hret, hturn, hgo⟩ := hs
  exact ⟨s, hrun, hret, hturn, hgo, finished_of_returned hrun hret hturn hgo⟩

/-- No worker can take a step. -/
def Resting (st : Storage) (prog : Program) (s : Parallel lay) : Prop :=
  ∀ p, step st prog s (.detach p) = none ∧ step st prog s (.sweep p) = none ∧
    ∀ scan, step st prog s (.worker p scan) = none

/-- **A worker at its splinter can go on**: it detaches, it sweeps, or it
reattaches. -/
theorem Resting.not_computing (hrest : Resting st prog s) (hgo : s.vectors.stopped = none) :
    ¬ s.Computing p k := by
  intro hp
  have hgo' : ¬ s.vectors.stopped.isSome = true := by rw [hgo]; simp
  obtain ⟨hpc, hst, hhead⟩ := hp
  obtain ⟨ks, hts⟩ := List.head?_eq_some_iff.1 hhead
  obtain ⟨hdetach, hsweep, hworker⟩ := hrest p
  by_cases hd : s.vectors.detached p = true
  · by_cases ht : (s.inTask p k).Through lay prog p
    · have hw := hworker []
      simp only [Parallel.step, if_neg hgo', worker, hpc, hst, hts] at hw
      rw [if_pos ⟨hd, ht⟩] at hw
      have hnone := Option.map_eq_none_iff.1 hw
      have hsome := Calls.worker_splinter hpc hst hts
      rw [show s.calls.step (.worker p) = s.calls.worker p from rfl, hsome] at hnone
      cases hnone
    · unfold Runtime.Through at ht
      rw [not_or] at ht
      obtain ⟨hother, hne⟩ := ht
      have hdone : (s.inTask p k).done p = k := by
        unfold Parallel.inTask
        exact Function.update_self ..
      rw [hdone] at hother
      obtain ⟨other, ho⟩ := Option.ne_none_iff_exists'.1 hother
      simp only [Parallel.step, if_neg hgo', hpc, hst, hts, ho] at hsweep
      rw [if_pos ⟨hd, hne⟩] at hsweep
      cases hsweep
  · simp only [Parallel.step, if_neg hgo', hpc, hst, hts] at hdetach
    rw [if_pos (by simpa using hd)] at hdetach
    cases hdetach

omit [BpBits] in
/-- The indices of the whole vector are ones that a fold may visit. -/
theorem scan_all (size : ℕ) (orig data : Contents) :
    Scan size orig data ((List.range size).map fun c : ℕ => (c : ℤ)) where
  sorted := by
    refine List.Pairwise.map _ (fun a b hab => ?_) List.pairwise_lt_range
    exact Int.ofNat_lt.2 hab
  within c hc := by
    obtain ⟨a, ha, rfl⟩ := List.mem_map.1 hc
    have := List.mem_range.1 ha
    omega
  complete c hc _ := List.mem_map.2 ⟨c, List.mem_range.2 hc, rfl⟩

/-- **A worker with a resolution can run it.** -/
theorem Resting.not_running (hrest : Resting st prog s) (hL : Linked s)
    (hgo : s.vectors.stopped = none) : ¬ s.calls.Running p k := by
  intro hp
  have hgo' : ¬ s.vectors.stopped.isSome = true := by rw [hgo]; simp
  have hzero := hp.latch_eq_zero hL.counts hL.inOrder
  obtain ⟨hpc, hhead⟩ := hp
  obtain ⟨ks, hr⟩ := List.head?_eq_some_iff.1 hhead
  have hw := (hrest p).2.2 ((List.range lay.size).map fun c : ℕ => (c : ℤ))
  simp only [Parallel.step, if_neg hgo', worker, hpc, hr] at hw
  rw [if_pos ⟨hzero, fun _ _ => scan_all ..⟩] at hw
  have hnone := Option.map_eq_none_iff.1 hw
  rcases Calls.blocked_of_worker hL.counts hnone with ⟨h, -⟩ | ⟨l, h, -⟩
  · rw [hpc] at h
    cases h
  · rw [hpc] at h
    cases h

/-- So a worker that cannot go on cannot in the pool. -/
theorem Resting.blocked (hrest : Resting st prog s) (hL : Linked s)
    (hgo : s.vectors.stopped = none) (p : Fin lay.hwconc) :
    (s.calls.pool.pc p = .wait ∧ s.calls.pool.sems p = 0) ∨
      ∃ k, s.calls.pool.pc p = .writeResn k ∧ isFull s.calls.pool.resns = true := by
  have hgo' : ¬ s.vectors.stopped.isSome = true := by rw [hgo]; simp
  have hw := (hrest p).2.2 []
  simp only [Parallel.step, if_neg hgo', worker] at hw
  split at hw
  · next hpc hst =>
    have hne := hL.counts.sound.control.task p (by rw [hpc]; trivial)
    obtain ⟨k, ks, hts⟩ := List.exists_cons_of_ne_nil hne
    exact absurd ⟨hpc, hst, by rw [hts]; rfl⟩ (hrest.not_computing hgo (k := k))
  · next hpc =>
    have hne := hL.counts.sound.control.resn p (by rw [hpc]; trivial)
    obtain ⟨k, ks, hr⟩ := List.exists_cons_of_ne_nil hne
    exact absurd ⟨hpc, by rw [hr]; rfl⟩ (hrest.not_running hL hgo (k := k))
  · exact Calls.blocked_of_worker hL.counts (Option.map_eq_none_iff.1 hw)

/-- **Where nobody can go on, everything is done**, or some worker is in
`submitr` and there is no room in the queue of resolutions. -/
theorem resting {as : List (ParAct lay)}
    (h : (parallel st lay prog).run (init lay x₀ c₀) as = some s)
    (hmain : ∀ p, s.calls.pool.main ≠ .post p) (hturn : s.calls.turn = lay.hwconc)
    (hrest : Resting st prog s) : s.vectors.stopped.isSome = true ∨ Finished s ∨
      ∃ p k, s.calls.pool.pc p = .writeResn k ∧ isFull s.calls.pool.resns = true := by
  by_cases hgo : s.vectors.stopped = none
  · right
    have hL := linked_of_run h hgo
    by_cases hw : ∃ p k, s.calls.pool.pc p = .writeResn k ∧ isFull s.calls.pool.resns = true
    · exact .inr hw
    · have hall : AllBlocked s.calls.pool := fun p =>
        (hrest.blocked hL hgo p).resolve_right fun hp => hw ⟨p, hp⟩
      obtain ⟨htasks, hresns⟩ := hL.counts.sound.queues_empty hall hmain
      exact .inl (hL.finished hturn htasks hresns)
  · left
    exact Option.isSome_iff_ne_none.2 hgo

/-- A worker without a token can only wait. -/
theorem resting_of_blocked (hb : AllBlocked s.calls.pool) : Resting st prog s := by
  intro p
  obtain ⟨hpc, hsem⟩ := hb p
  have hworker : s.calls.worker p = none := by
    rw [Calls.worker_of_ne (by rw [hpc]; simp)]
    unfold Calls.poolStep workerStep
    rw [hpc]
    simp only [hsem, lt_irrefl, if_false, Option.map_none]
  refine ⟨?_, ?_, fun scan => ?_⟩
  · unfold step
    dsimp only
    rw [hpc]
    split <;> rfl
  · unfold step
    dsimp only
    rw [hpc]
    split <;> rfl
  · unfold step
    dsimp only
    unfold worker callStep
    rw [hpc]
    split
    · rfl
    · exact congrArg (Option.map _) hworker

/-! ## How long the workers go on -/

/-- The steps that worker `p` has left in its task, before it submits. -/
def own (s : Parallel lay) (p : Fin lay.hwconc) : ℕ :=
  match s.calls.stage p with
  | .splinter =>
    (if s.vectors.detached p then (lay.b p - (s.vectors.splt p).it).toNat else lay.size + 1) + 3
  | .countDown => 2
  | .tryWait => 1
  | .tested _ => 0

/-- What is left to do. -/
def fuel (s : Parallel lay) : ℕ := s.calls.pool.fuel (lay.size + 4) s.own

omit [BpBits] in
/-- A task has one step for each element, and five more. -/
theorem own_le (hc : s.vectors.Coherent lay) (p : Fin lay.hwconc) : s.own p ≤ lay.size + 4 := by
  unfold own
  split
  · split
    · next hd =>
      have hcell := hc.cell p p.isLt hd
      have h1 := hcell.le_it
      have h2 := lay.a_nonneg p
      have h3 := lay.b_le_size p
      omega
    · omega
  · omega
  · omega
  · omega

omit [BpBits] in
/-- A worker has the steps it had, if it is where it was. -/
theorem own_congr (hst : t.calls.stage p = s.calls.stage p)
    (hd : t.vectors.detached p = s.vectors.detached p)
    (hsp : t.vectors.splt p = s.vectors.splt p) : t.own p = s.own p := by
  unfold own
  rw [hst, hd, hsp]

omit [BpBits] in
/-- **A worker that goes on in its task.** -/
theorem fuel_lt_of_task (hpool : t.calls.pool = s.calls.pool)
    (hpc : s.calls.pool.pc p = .runTask) (hown : ∀ q, q ≠ p → t.own q = s.own q)
    (h : t.own p < s.own p) : t.fuel < s.fuel := by
  unfold fuel
  rw [hpool]
  refine State.fuel_lt (fun q _ => rfl) (fun q _ => rfl) hown ?_
  rw [hpc]
  simp only [Pc.fuel]
  omega

/-- **Each step of a worker uses something up.** -/
theorem Moves.fuel_lt {a : ParAct lay} (hL : Linked s) (hc : s.vectors.Coherent lay)
    (hc' : t.vectors.Coherent lay) (ha : a.ofWorker = true) (h : Moves st prog s a t) :
    t.fuel < s.fuel := by
  have hne : ∀ {p q : Fin lay.hwconc}, q ≠ p → (q : ℕ) ≠ p := fun hqp he => hqp (Fin.ext he)
  cases h with
  | call h => cases ha
  | @detach p k hp hd =>
    rw [hL.inTask hp]
    refine fuel_lt_of_task rfl hp.1 (fun q hq => own_congr rfl ?_ ?_) ?_
    · exact Function.update_of_ne (hne hq) _ _
    · exact Function.update_of_ne (hne hq) _ _
    · have h1 := lay.a_nonneg p
      have h2 := lay.b_le_size p
      unfold own
      simp only [hp.2.1, hd, Runtime.detach, Function.update_self, if_true, Bool.false_eq_true,
        if_false, Cont.cvecStart_eq p.isLt]
      omega
  | @sweep p k other hp ho hd hno =>
    obtain ⟨hin, hok⟩ := Cont.cvecCell_spec (s.vectors.data other) p.isLt
      (hc.cell p p.isLt hd) hno
    rw [hL.inTask hp]
    unfold Runtime.sweep
    rw [hok]
    refine fuel_lt_of_task rfl hp.1 (fun q hq => own_congr rfl rfl ?_) ?_
    · exact Function.update_of_ne (hne hq) _ _
    · have hlt := hin.2
      unfold own
      simp only [hp.2.1, hd, Function.update_self, if_true]
      omega
  | @reattach p k scan calls hp hd ht h =>
    obtain ⟨hpc, hst, hhead⟩ := hp
    obtain ⟨ks, hts⟩ := List.head?_eq_some_iff.1 hhead
    have hstep : s.calls.worker p = some calls := h
    rw [Calls.worker_splinter hpc hst hts] at hstep
    cases hstep
    rw [hL.inTask ⟨hpc, hst, hhead⟩]
    refine fuel_lt_of_task rfl hpc (fun q hq => own_congr ?_ ?_ ?_) ?_
    · rw [Calls.at'_stage, if_neg hq]
    · unfold Runtime.reattach
      split
      · rfl
      · exact Function.update_of_ne (hne hq) _ _
    · unfold Runtime.reattach
      split <;> rfl
    · unfold own
      rw [Calls.at'_stage, if_pos rfl, hst]
      dsimp only
      omega
  | @resolve p k scan calls hp hk h =>
    have hworks := Calls.works_of_ne (by rw [hp.1]; simp) h
    refine hworks.fuel_lt hL.counts.sound.control (fun q hq => own_congr ?_ ?_ ?_)
      fun _ => own_le hc' p
    · exact Calls.stage_of_step h fun hb => hq (by cases hb; rfl)
    · unfold Runtime.resolve
      split <;> rfl
    · unfold Runtime.resolve
      split <;> rfl
  | @other a b calls hab h hcall hw =>
    cases a with
    | worker p scan =>
      cases hab
      have hown : ∀ q, q ≠ p → ({ s with calls := calls } : Parallel lay).own q = s.own q :=
        fun q hq => own_congr (Calls.stage_of_step h fun hb => hq (by cases hb; rfl)) rfl rfl
      by_cases hpc : s.calls.pool.pc p = .runTask
      · have hne := hL.counts.sound.control.task p (by rw [hpc]; trivial)
        obtain ⟨k, ks, hts⟩ := List.exists_cons_of_ne_nil hne
        have hst : s.calls.stage p ≠ .splinter :=
          fun hst => (hw p rfl).1 k ⟨hpc, hst, by rw [hts]; rfl⟩
        rcases Calls.works_of_task hL.counts hpc hst h with ⟨hpool, hat⟩ | hworks
        · refine fuel_lt_of_task hpool hpc hown ?_
          unfold own
          rcases hat with ⟨hst, hst'⟩ | ⟨hst, zero, hst'⟩
          · rw [hst, hst']
            exact Nat.lt_succ_self 1
          · rw [hst, hst']
            exact Nat.one_pos
        · exact hworks.fuel_lt hL.counts.sound.control hown fun _ => own_le hc' p
      · exact (Calls.works_of_ne hpc h).fuel_lt hL.counts.sound.control hown fun _ => own_le hc' p
    | call => cases ha
    | submit => cases ha
    | finish => cases ha
    | main => cases ha
    | detach p => cases hab
    | sweep p => cases hab

/-- **Left alone, the workers stop.** From whatever state the program has
come to, they take no more steps by themselves than `fuel` says, however
they are scheduled. -/
theorem workers_stop {as bs : List (ParAct lay)}
    (h : (parallel st lay prog).run (init lay x₀ c₀) as = some s)
    (hw : ∀ a ∈ bs, a.ofWorker = true) (hb : (parallel st lay prog).run s bs = some t) :
    bs.length ≤ s.fuel := by
  obtain ⟨acts, hrun⟩ := runtime_of_run h
  have hL := linked_of_run h
  have hc : s.vectors.Coherent lay := (Cont.runtime st lay prog).run_invariant
    (fun _ _ _ hc he => hc.moves (Runtime.moves_of_step he).2) (.start lay x₀ c₀) hrun
  have hle := (parallel st lay prog).run_length_le
    (I := fun s => s.vectors.Coherent lay ∧ (s.vectors.stopped = none → Linked s))
    (C := fun a => a.ofWorker = true) (μ := fuel) (fun s a t hI ha hst => ?_) ⟨hc, hL⟩ hw hb
  · omega
  · obtain ⟨hc, hL⟩ := hI
    obtain ⟨hgo, hmoves⟩ := moves_of_step hst
    have hL := hL hgo
    have hc' : t.vectors.Coherent lay := by
      rcases hL.follows hgo hmoves with heq | ⟨act, hact, -⟩
      · rw [heq]
        exact hc
      · exact hc.moves (Runtime.moves_of_step hact).2
    exact ⟨⟨hc', hL.moves hmoves⟩, hmoves.fuel_lt hL hc hc' ha⟩

omit [BpBits] in
theorem workers_stop_doubling :
    letI := oneBit
    ∃ s t, (parallel .exact threeElems doubling).run
        (init threeElems (fun _ t => t + 1) fun _ => .empty) (doublingActs.take 5) = some s ∧
      (parallel .exact threeElems doubling).run s (doublingActs.drop 5) = some t ∧
      (doublingActs.drop 5).length ≤ s.fuel := by
  let _ := oneBit
  have hsome : ((parallel .exact threeElems doubling).run
      (init threeElems (fun _ t => t + 1) fun _ => .empty)
        (doublingActs.take 5 ++ doublingActs.drop 5)).isSome = true := by decide +kernel
  obtain ⟨t, hrun⟩ := Option.isSome_iff_exists.1 hsome
  rw [Machine.run_append] at hrun
  obtain ⟨s, hs, ht⟩ := Option.bind_eq_some_iff.1 hrun
  have hw : ∀ a ∈ doublingActs.drop 5, a.ofWorker = true := by decide +kernel
  exact ⟨s, t, hs, ht, workers_stop hs hw ht⟩

/-! ## Room in the queue of resolutions -/

omit [BpBits] in
/-- **What is in the queue** is of calls that were made and have not been
resolved, another than the one to be written. -/
theorem Linked.resns_lt (hL : Linked s) (hA : s.calls.Alone)
    (hp : s.calls.pool.pc p = .writeResn k) (hpop : ∀ q, s.calls.pool.pc q ≠ .popResn) :
    s.calls.pool.resns.length + s.calls.pool.ranR.length < s.calls.calls := by
  have hsub := hL.counts.sound.ordered.resns hpop
  have hst := hL.counts.past p (by rw [hp]; trivial) (by rw [hp]; simp)
  have hk := hL.inOrder.write p k hp
  have hnew : k ∉ s.calls.pool.submittedR := fun hk' =>
    hA.past k hk' p ⟨hk, .inr ⟨hst, .inr hp⟩⟩
  have hlt : ∀ l ∈ k :: s.calls.pool.submittedR, l ∈ List.range s.calls.calls := by
    intro l hl
    rw [List.mem_range]
    rcases List.mem_cons.1 hl with rfl | hl
    · have hall := hL.inOrder.zero p hst p
      rw [← hk] at hall
      exact hL.counts.counted_lt hall
    · exact hL.counts.counted_lt (hL.inOrder.all l hl p)
  have hle := (List.subperm_of_subset (hA.nodup.cons hnew) hlt).length_le
  rw [hsub, List.length_cons, List.length_append, List.length_range] at hle
  omega

/-- **Everything gets done.** While no more calls are outstanding than the
queue of resolutions has room for, and each last worker is alone, nobody
can go on only where everything is done. -/
theorem finished_of_resting {as : List (ParAct lay)}
    (h : (parallel st lay prog).run (init lay x₀ c₀) as = some s)
    (hlast : (parallel st lay prog).Along LastAlone (init lay x₀ c₀) as)
    (hgo : s.vectors.stopped = none) (hmain : ∀ p, s.calls.pool.main ≠ .post p)
    (hturn : s.calls.turn = lay.hwconc)
    (hfew : s.calls.calls < s.calls.pool.ranR.length + queueSz) (hrest : Resting st prog s) :
    Finished s := by
  have hL := linked_of_run h hgo
  have hA := alone_of_run h hlast hgo
  rcases resting h hmain hturn hrest with hstop | hF | ⟨p, k, hp, hfull⟩
  · rw [hgo] at hstop
    cases hstop
  · exact hF
  · -- nobody is at a resolution, so the queue holds what is outstanding
    have hpop : ∀ q, s.calls.pool.pc q ≠ .popResn := by
      intro q hq
      rcases hrest.blocked hL hgo q with ⟨hpc, -⟩ | ⟨l, hpc, -⟩
      · rw [hq] at hpc
        cases hpc
      · rw [hq] at hpc
        cases hpc
    have hlt := hL.resns_lt hA hp hpop
    unfold isFull at hfull
    have hlen := beq_iff_eq.1 hfull
    omega

omit [BpBits] in
theorem finished_of_resting_doubling :
    letI := oneBit
    ∃ s, (parallel .exact threeElems doubling).run
        (init threeElems (fun _ t => t + 1) fun _ => .empty) doublingActs = some s ∧
      Resting .exact doubling s ∧ Finished s := by
  let _ := oneBit
  have hend : ((parallel .exact threeElems doubling).run
      (init threeElems (fun _ t => t + 1) fun _ => .empty) doublingActs).map
        (fun s => (s.vectors.stopped, s.calls.pool.main, s.calls.turn, s.calls.calls,
          decide (∀ p, s.calls.pool.pc p = .wait ∧ s.calls.pool.sems p = 0))) =
      some (none, .idle, 2, 1, true) := by decide +kernel
  have hlast : (parallel .exact threeElems doubling).Along LastAlone
      (init threeElems (fun _ t => t + 1) fun _ => .empty) doublingActs := by decide +kernel
  obtain ⟨s, hrun, hs⟩ := Option.map_eq_some_iff.1 hend
  simp only [Prod.mk.injEq, decide_eq_true_eq] at hs
  obtain ⟨hgo, hmain, hturn, hcalls, hblocked⟩ := hs
  have hrest : Resting .exact doubling s := resting_of_blocked hblocked
  refine ⟨s, hrun, hrest, finished_of_resting hrun hlast hgo (fun p => ?_) hturn ?_ hrest⟩
  · rw [hmain]
    simp
  · rw [hcalls]
    unfold queueSz
    omega

end Parallel

end Contentious.Pool
