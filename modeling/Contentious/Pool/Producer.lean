import Contentious.Pool.Order
import Contentious.Pool.Queue

/-!
# Pool — one producer at a time

The queue of resolutions takes one producer and one consumer. Its
consumers hold `rlck`. Its producers are workers that have seen a latch at
zero, and what keeps two of them apart is not the queue's: workers on
different calls never are, since a latch is at zero only once everybody has
come to its call (`InOrder.zero`); workers on one call are, unless one is
between its count and its test when another brings the latch to zero
(`LastAlone`). Then a resolution is submitted once (`Alone`), the ring
serves for the list that `Calls` has in its place (`refines`), and nothing
is lost in it.
-/

namespace Contentious.Pool

namespace Calls

variable {n : ℕ} {s t : Calls n} {p q : Fin n} {k : ℕ}

/-! ## The last to count down -/

/-- If this step brings a latch to zero, no other worker is between its
count and its test. -/
def LastAlone (s : Calls n) : CallAct n → Prop
  | .worker p => ∀ k ∈ (s.pool.tasks p).head?, s.pool.pc p = .runTask → s.stage p = .countDown →
      s.latch k = 1 → ∀ q, k ∈ (s.pool.tasks q).head? → s.stage q ≠ .tryWait
  | _ => True

instance (s : Calls n) : ∀ a, Decidable (s.LastAlone a)
  | .worker p => inferInstanceAs (Decidable (∀ k ∈ (s.pool.tasks p).head?, s.pool.pc p = .runTask →
      s.stage p = .countDown → s.latch k = 1 →
      ∀ q, k ∈ (s.pool.tasks q).head? → s.stage q ≠ .tryWait))
  | .call => isTrue trivial
  | .submit => isTrue trivial
  | .finish => isTrue trivial
  | .main => isTrue trivial

/-- Worker `p` has counted down for call `k` and is still in its task. -/
def Pending (s : Calls n) (p : Fin n) (k : ℕ) : Prop :=
  k = s.current p ∧ (s.stage p = .tryWait ∨ s.stage p = .tested true)

/-- **One worker for each resolution.** -/
structure Alone (s : Calls n) : Prop where
  unique : ∀ k, s.latch k = 0 → ∀ p q, s.Pending p k → s.Pending q k → p = q
  nodup : s.pool.submittedR.Nodup
  past : ∀ k ∈ s.pool.submittedR, ∀ p, ¬ s.OnIt p k

/-- Who is on a call is pending. -/
theorem OnIt.pending (h : s.OnIt p k) : s.Pending p k := ⟨h.1, h.2.imp_right And.left⟩

/-- Who is pending has counted down, for a call that was begun. -/
theorem Pending.counted (hC : Counts s) (h : s.Pending p k) : p ∈ s.counted k ∧ k < s.calls := by
  have hmem : p ∈ s.counted k := by
    refine (hC.counted p k).2 (.inr ⟨h.1, ?_⟩)
    rcases h.2 with hst | hst <;> rw [hst] <;> trivial
  exact ⟨hmem, hC.counted_lt hmem⟩

/-- The latch is at zero once everybody has counted down. -/
theorem Counts.zero_of_all (hC : Counts s) (hk : k < s.calls) (hall : ∀ q, q ∈ s.counted k) :
    s.latch k = 0 := by
  have hlatch := hC.latch k hk
  rw [Finset.eq_univ_of_forall hall, Finset.card_univ, Fintype.card_fin] at hlatch
  omega

/-- A worker at its count has not counted down yet. -/
theorem Counts.notMem_countDown {ks : List ℕ} (hC : Counts s) (hpc : s.pool.pc p = .runTask)
    (hts : s.pool.tasks p = k :: ks) (hst : s.stage p = .countDown) : p ∉ s.counted k := by
  intro hp
  obtain ⟨hk, -⟩ := hC.front (by rw [hpc]; simp) hts
  rcases (hC.counted p k).1 hp with h | ⟨-, h⟩
  · omega
  · rw [hst] at h
    exact h

/-- A worker in a task has it at the front of its queue. -/
theorem Counts.head?_tasks (hC : Counts s) (hbusy : (s.pool.pc p).busy) :
    (s.pool.tasks p).head? = some (s.current p) := by
  have hne := hC.sound.control.task p
    (by cases hpc : s.pool.pc p <;> simp_all [Pc.busy, Pc.inTask])
  obtain ⟨k, ks, hts⟩ := List.exists_cons_of_ne_nil hne
  have hpc : s.pool.pc p ≠ .popTask := fun h => by rw [h] at hbusy; exact hbusy
  rw [hts, ← (hC.front hpc hts).1]
  rfl

/-- A worker whose step it is not stays where it is in its task. -/
theorem stage_of_step {a : CallAct n} (h : step s a = some t) (ha : a ≠ .worker p) :
    t.stage p = s.stage p := by
  have hpool : ∀ (r : Fin n) (resn : Option ℕ), r ≠ p → s.poolStep r resn = some t →
      t.stage p = s.stage p := by
    intro r resn hr h
    obtain ⟨pool, -, rfl⟩ := Option.map_eq_some_iff.1 h
    simp only
    split
    · rw [Function.update_of_ne hr.symm]
    · rfl
  cases a with
  | worker r =>
    have hr : r ≠ p := fun h => ha (by rw [h])
    simp only [step, worker] at h
    split at h
    · split at h
      · cases h; rw [at'_stage, if_neg hr.symm]
      · cases h; rw [at'_stage, if_neg hr.symm]
      · cases h; rw [at'_stage, if_neg hr.symm]
      · exact hpool r _ hr h
    · exact hpool r _ hr h
  | call =>
    obtain ⟨-, h⟩ := Option.ite_none_right_eq_some.1 h
    cases h; rfl
  | submit =>
    simp only [step] at h
    split at h
    · obtain ⟨pool, -, rfl⟩ := Option.map_eq_some_iff.1 h; rfl
    · cases h
  | finish =>
    obtain ⟨-, h⟩ := Option.ite_none_right_eq_some.1 h
    obtain ⟨pool, -, rfl⟩ := Option.map_eq_some_iff.1 h; rfl
  | main => obtain ⟨pool, -, rfl⟩ := Option.map_eq_some_iff.1 h; rfl

/-- A worker's step is one of the pool, or none. -/
theorem works_of_worker (h : s.worker p = some t) :
    t.pool = s.pool ∨ Works s.pool p t.pool := by
  have hpool : ∀ resn, s.poolStep p resn = some t → Works s.pool p t.pool := by
    intro resn h
    obtain ⟨pool, hst, rfl⟩ := Option.map_eq_some_iff.1 h
    exact works_of_workerStep hst
  simp only [worker] at h
  split at h
  · split at h
    · cases h; exact .inl rfl
    · cases h; exact .inl rfl
    · cases h; exact .inl rfl
    · exact .inr (hpool _ h)
  · exact .inr (hpool _ h)

/-- The outside thread moves no worker, no resolution and no lock. -/
theorem frame_of_step {a : CallAct n} (h : step s a = some t) (ha : ∀ p, a ≠ .worker p) :
    t.pool.pc = s.pool.pc ∧ t.pool.resns = s.pool.resns ∧ t.pool.rlck = s.pool.rlck := by
  cases a with
  | worker => exact absurd rfl (ha _)
  | call =>
    obtain ⟨-, h⟩ := Option.ite_none_right_eq_some.1 h
    cases h; exact ⟨rfl, rfl, rfl⟩
  | submit =>
    simp only [step] at h
    split at h
    · obtain ⟨pool, hst, rfl⟩ := Option.map_eq_some_iff.1 h
      obtain ⟨-, hst⟩ := Option.ite_none_right_eq_some.1 hst
      cases hst; exact ⟨rfl, rfl, rfl⟩
    · cases h
  | finish =>
    obtain ⟨-, h⟩ := Option.ite_none_right_eq_some.1 h
    obtain ⟨pool, hst, rfl⟩ := Option.map_eq_some_iff.1 h
    obtain ⟨-, hst⟩ := Option.ite_none_right_eq_some.1 hst
    cases hst; exact ⟨rfl, rfl, rfl⟩
  | main =>
    obtain ⟨pool, hst, rfl⟩ := Option.map_eq_some_iff.1 h
    exact (submits_of_mainStep hst).frame

namespace Alone

theorem init : Alone (init n) where
  unique _ _ _ _ hp _ := hp.2.elim nofun nofun
  nodup := .nil
  past _ h := absurd h List.not_mem_nil

/-- **Nobody new is pending**, and nothing is submitted. -/
theorem of_pending (hA : Alone s) (hlatch : t.latch = s.latch)
    (hsub : t.pool.submittedR = s.pool.submittedR)
    (hpend : ∀ q l, t.Pending q l → s.Pending q l) (hon : ∀ q l, t.OnIt q l → s.OnIt q l) :
    Alone t where
  unique k h0 p q hp hq := hA.unique k (by rw [← hlatch, h0]) p q (hpend p k hp) (hpend q k hq)
  nodup := by rw [hsub]; exact hA.nodup
  past k hk p hp := hA.past k (by rw [← hsub]; exact hk) p (hon p k hp)

/-- **A worker that leaves its call**, or has not counted down for it, is
not pending. -/
theorem of_leave {c : Stage} (hA : Alone s) (hlatch : t.latch = s.latch)
    (hsub : t.pool.submittedR = s.pool.submittedR)
    (hstage : t.stage = (s.at' p c).stage) (hc : c ≠ .tryWait ∧ c ≠ .tested true)
    (hother : ∀ q, q ≠ p → t.current q = s.current q ∧ t.pool.pc q = s.pool.pc q) : Alone t := by
  have hself : t.stage p = c := by rw [hstage, at'_stage, if_pos rfl]
  have hnot : ∀ l, ¬ t.Pending p l := fun l h => by
    rw [Pending, hself] at h
    exact h.2.elim hc.1 hc.2
  have hst : ∀ q, q ≠ p → t.stage q = s.stage q := fun q hq => by
    rw [hstage, at'_stage, if_neg hq]
  refine hA.of_pending hlatch hsub (fun q l h => ?_) fun q l h => ?_
  · have hq : q ≠ p := fun he => hnot l (he ▸ h)
    rw [Pending, (hother q hq).1, hst q hq] at h
    exact h
  · have hq : q ≠ p := fun he => hnot l (he ▸ h.pending)
    rw [OnIt, (hother q hq).1, (hother q hq).2, hst q hq] at h
    exact h

theorem moves (hC : Counts s) (hO : InOrder s) (hA : Alone s) (h : Moves s t)
    (hlast : ∀ p k, (s.pool.tasks p).head? = some k → s.pool.pc p = .runTask →
      s.stage p = .countDown → t.stage p = .tryWait → s.latch k = 1 →
      ∀ q, (s.pool.tasks q).head? = some k → s.stage q ≠ .tryWait) : Alone t := by
  cases h with
  | call ht =>
    refine ⟨fun k h0 p q hp hq => ?_, hA.nodup, hA.past⟩
    have hlt := (Pending.counted (s := s) hC hp).2
    simp only [Function.update_of_ne (ne_of_lt hlt)] at h0
    exact hA.unique k h0 p q hp hq
  | submit ht hf => exact hA.of_pending rfl rfl (fun _ _ h => h) fun _ _ h => h
  | outside pool hs hsub hran hpc hsubR =>
    refine hA.of_pending rfl hsubR (fun q l h => ?_) fun q l h => ?_
    · simp only [Pending, current, hran] at h; exact h
    · simp only [OnIt, current, hran, hpc] at h; exact h
  | splinter p k ks hpc hts hst =>
    exact hA.of_leave rfl rfl rfl (by simp) fun q hq => ⟨rfl, rfl⟩
  | countDown p k ks hpc hts hst =>
    obtain ⟨hk, hlt⟩ := hC.front (by rw [hpc]; simp) hts
    have hnew := hC.notMem_countDown hpc hts hst
    have hat : ∀ q, q ≠ p → (s.at' p .tryWait).stage q = s.stage q := fun q hq => by
      rw [at'_stage, if_neg hq]
    refine ⟨fun l h0 a b ha hb => ?_, hA.nodup, fun l hl a ha => ?_⟩
    · by_cases hlk : l = k
      · -- this step brings the latch to zero, and this worker is the only one pending
        subst hlk
        simp only [at', Function.update_self] at h0
        have hlatch := hC.latch l hlt
        have hcard := (Finset.card_lt_univ_of_notMem hnew).trans_eq (Fintype.card_fin n)
        have honly : ∀ r, r ≠ p → ¬ s.Pending r l := by
          rintro r hr ⟨hcur, hst' | hst'⟩
          · refine hlast p l (by rw [hts]; rfl) hpc hst ?_ (by omega) r ?_ hst'
            · exact (at'_stage ..).trans (if_pos rfl)
            · rw [hC.head?_tasks (hC.stage r (by rw [hst']; simp)), hcur]
          · exact hnew (hcur ▸ hO.zero r hst' p)
        have hself : ∀ r, Pending ({ s with
            latch := Function.update s.latch l (s.latch l - 1)
            counted := Function.update s.counted l (insert p (s.counted l)) }.at' p .tryWait) r l →
            r = p := by
          intro r hr
          by_contra hrp
          refine honly r hrp ⟨hr.1, ?_⟩
          rw [← hat r hrp]
          exact hr.2
        rw [hself a ha, hself b hb]
      · have hother : ∀ r, Pending ({ s with
            latch := Function.update s.latch k (s.latch k - 1)
            counted := Function.update s.counted k (insert p (s.counted k)) }.at' p .tryWait) r l →
            s.Pending r l := by
          intro r hr
          have hrp : r ≠ p := fun he => hlk (by rw [hk, ← he]; exact hr.1)
          refine ⟨hr.1, ?_⟩
          rw [← hat r hrp]
          exact hr.2
        simp only [at', Function.update_of_ne hlk] at h0
        exact hA.unique l h0 a b (hother a ha) (hother b hb)
    · by_cases hap : a = p
      · have hlk : l = k := by rw [hk, ← hap]; exact ha.1
        exact hnew (hlk ▸ hO.all l hl p)
      · refine hA.past l hl a ⟨ha.1, ?_⟩
        rw [← hat a hap]
        exact ha.2
  | tryWait p k ks hpc hts hst =>
    refine hA.of_pending rfl rfl (fun q l h => ⟨h.1, ?_⟩) fun q l h => ⟨h.1, ?_⟩
    · by_cases hqp : q = p
      · rw [hqp]; exact .inl hst
      · rw [Pending, at'_stage, if_neg hqp] at h; exact h.2
    · by_cases hqp : q = p
      · rw [hqp]; exact .inl hst
      · rw [OnIt, at'_stage, if_neg hqp] at h; exact h.2
  | returns p k ks hpc hts hst =>
    refine hA.of_leave (p := p) (c := .splinter) rfl rfl rfl (by simp) fun q hq => ⟨?_, ?_⟩
    · simp only [current, at', State.goto_ran, State.finished_ran, if_neg hq]
    · simp only [at', State.goto_pc, if_neg hq, State.finished_pc]
  | submitr p k ks hpc hts hst =>
    refine hA.of_pending rfl rfl (fun _ _ h => h) fun q l h => ⟨h.1, ?_⟩
    by_cases hqp : q = p
    · rw [hqp]; exact .inr ⟨hst, .inl hpc⟩
    · have h2 := h.2
      simp only [State.goto_pc, if_neg hqp] at h2
      exact h2
  | writeResn p k hpc =>
    have hst := hC.past p (by rw [hpc]; trivial) (by rw [hpc]; simp)
    have hk := hO.write p k hpc
    have hon : s.OnIt p k := ⟨hk, .inr ⟨hst, .inr hpc⟩⟩
    have hzero : s.latch k = 0 :=
      hC.zero_of_all (Pending.counted hC hon.pending).2 (by rw [hk]; exact hO.zero p hst)
    refine ⟨hA.unique, ?_, fun l hl q hq => ?_⟩
    · refine hA.nodup.append (List.nodup_singleton k) fun l hl hlk => ?_
      rw [List.mem_singleton.1 hlk] at hl
      exact hA.past k hl p hon
    · -- this worker is past the call, and no other is on it
      have hqp : q ≠ p := by
        rintro rfl
        rcases hq.2 with h | ⟨-, h | h⟩
        · exact absurd (hst.symm.trans h) (by simp)
        · simp only [State.goto_pc, if_pos] at h; cases h
        · simp only [State.goto_pc, if_pos] at h; cases h
      have hq' : s.OnIt q l := by
        have h2 := hq.2
        simp only [State.goto_pc, if_neg hqp] at h2
        exact ⟨hq.1, h2⟩
      rcases List.mem_append.1 hl with hl | hl
      · exact hA.past l hl q hq'
      · rw [List.mem_singleton.1 hl] at hq'
        exact hqp (hA.unique k hzero q p hq'.pending hon.pending)
  | submitted p k ks l hpc hl hts =>
    refine hA.of_leave (p := p) (c := .splinter) rfl rfl rfl (by simp) fun q hq => ⟨?_, ?_⟩
    · simp only [current, at', State.goto_ran, State.finished_ran, if_neg hq]
    · simp only [at', State.goto_pc, if_neg hq, State.finished_pc]
  | quiet p pool hq =>
    refine hA.of_pending rfl hq.submittedR (fun q l h => ?_) fun q l h => ?_
    · simp only [Pending, current, hq.ran] at h; exact h
    · simp only [OnIt, current, hq.ran] at h
      by_cases hqp : q = p
      · subst hqp
        refine ⟨h.1, h.2.imp_right fun hon => ?_⟩
        obtain ⟨hst, hpc⟩ := hon
        obtain ⟨-, m, -, hm⟩ := hq.busy (hC.stage q (by rw [hst]; simp))
        rw [hm] at hpc
        cases hpc.resolve_left (by simp)
      · rw [hq.others q hqp] at h
        exact h

theorem step {a : CallAct n} (hC : Counts s) (hO : InOrder s) (hA : Alone s)
    (hlast : LastAlone s a) (h : Calls.step s a = some t) : Alone t := by
  refine hA.moves hC hO (moves_of_step h) fun p k hts hpc hst hst' => ?_
  have ha : a = .worker p := by
    by_contra ha
    rw [stage_of_step h ha, hst] at hst'
    exact nomatch hst'
  rw [ha] at hlast
  exact hlast k hts hpc hst

/-- **In every run whose last workers are alone.** -/
theorem of_run {as : List (CallAct n)} (h : (callPool n).run (Calls.init n) as = some s)
    (hlast : (callPool n).Along LastAlone (Calls.init n) as) : Counts s ∧ InOrder s ∧ Alone s :=
  Machine.run_invariant_along (I := fun s => Counts s ∧ InOrder s ∧ Alone s)
    (fun _ _ _ hI hC hst => ⟨hI.1.moves (moves_of_step hst), hI.2.1.moves hI.1 (moves_of_step hst),
      hI.2.2.step hI.1 hI.2.1 hC hst⟩) ⟨.init, .init, init⟩ hlast h

/-- **One worker at `resns.write`.** Two would be on one call: each has
seen a latch at zero, and so the other has come to its call. -/
theorem writer_unique {j : ℕ} (hC : Counts s) (hO : InOrder s) (hA : Alone s)
    (hp : s.pool.pc p = .writeResn k) (hq : s.pool.pc q = .writeResn j) : p = q := by
  have hstage : ∀ r l, s.pool.pc r = .writeResn l → s.stage r = .tested true := fun r l h =>
    hC.past r (by rw [h]; trivial) (by rw [h]; simp)
  have hle : ∀ a b l, s.pool.pc a = .writeResn l → s.current a ≤ s.current b := fun a b l h => by
    rcases (hC.counted b _).1 (hO.zero a (hstage a l h) b) with hlt | ⟨heq, -⟩
    · exact le_of_lt hlt
    · exact le_of_eq heq
  have hcur : s.current p = s.current q := le_antisymm (hle p q k hp) (hle q p j hq)
  have hpend : s.Pending p (s.current p) := ⟨rfl, .inr (hstage p k hp)⟩
  exact hA.unique _ (hC.zero_of_all (hpend.counted hC).2 (hO.zero p (hstage p k hp))) p q hpend
    ⟨hcur, .inr (hstage q j hq)⟩

end Alone

end Calls

/-! ## The queue in place of the list -/

/-- The calls on the pool, with the queue behind `resns` for its list. -/
structure Queued (n : ℕ) where
  /-- the threads and the latches; its `resns` is not read -/
  calls : Calls n
  resns : ProducerConsumerQueue queueSz ℕ
  /-- what the workers inside `resns.write` have loaded -/
  currentWrite : Fin n → Option (Fin queueSz)

namespace Queued

variable {n : ℕ} {s t : Queued n} {p q : Fin n} {k : ℕ}

/-- The calls as they are read: with what the queue holds. -/
def seen (s : Queued n) : Calls n :=
  { s.calls with pool := { s.calls.pool with resns := s.resns.contents } }

/-- Worker `p` goes on in `while (!resns.write(resn))`: into `write`, or
out of it, with the resolution written or to try again. -/
def write (s : Queued n) (p : Fin n) (resn : ℕ) : Queued n :=
  match s.currentWrite p with
  | none => { s with currentWrite := Function.update s.currentWrite p (some s.resns.writeIndex) }
  | some currentWrite =>
    match s.resns.write currentWrite resn with
    | none => { s with currentWrite := Function.update s.currentWrite p none }
    | some resns =>
      { calls := { s.calls with
          pool := { s.calls.pool with submittedR := s.calls.pool.submittedR ++ [resn] }.goto p
            (.postSubmitr 0) }
        resns := resns
        currentWrite := Function.update s.currentWrite p none }

/-- The next step of worker `p`. -/
def worker (s : Queued n) (p : Fin n) : Option (Queued n) :=
  match s.calls.pool.pc p with
  | .writeResn resn => some (s.write p resn)
  | .popResn => (s.seen.worker p).map fun calls =>
      { s with calls := calls, resns := s.resns.popFront }
  | _ => (s.seen.worker p).map fun calls => { s with calls := calls }

/-- One step. -/
def step (s : Queued n) : CallAct n → Option (Queued n)
  | .worker p => s.worker p
  | a => (s.seen.step a).map fun calls => { s with calls := calls }

instance : NeZero queueSz := ⟨by decide⟩

/-- No call yet, and the queue as constructed. -/
def init (n : ℕ) : Queued n where
  calls := .init n
  resns := .empty queueSz fun _ => 0
  currentWrite _ := none

/-- Worker `p` is inside `resns.write`. -/
def Writing (s : Queued n) (p : Fin n) : Prop := (s.currentWrite p).isSome

/-- Worker `p` is between `resns.frontPtr()` and `resns.popFront()`. -/
def Taking (s : Queued n) (p : Fin n) : Prop :=
  s.calls.pool.pc p = .runResn ∨ s.calls.pool.pc p = .popResn

/-- If this step brings a latch to zero, no other worker is between its
count and its test. -/
def LastAlone (s : Queued n) (a : CallAct n) : Prop := s.calls.LastAlone a

instance (s : Queued n) (a : CallAct n) : Decidable (s.LastAlone a) :=
  inferInstanceAs (Decidable (s.calls.LastAlone a))

end Queued

/-- The calls on the pool with its queue, as a machine. -/
def queued (n : ℕ) : Machine (Queued n) (CallAct n) := ⟨Queued.step⟩

namespace Queued

variable {n : ℕ} {s t : Queued n} {p q : Fin n} {k : ℕ}

/-- **Whoever is inside `write`** is at the write of its resolution, and
nobody has written since it came in. -/
def Inside (s : Queued n) : Prop := ∀ p currentWrite, s.currentWrite p = some currentWrite →
  (∃ k, s.calls.pool.pc p = .writeResn k) ∧ currentWrite = s.resns.writeIndex

/-- The calls with the queue stand for those with the list. -/
structure Stands (s : Queued n) (u : Calls n) : Prop where
  seen : s.seen = u
  inside : Inside s
  counts : u.Counts
  order : u.InOrder
  alone : u.Alone

/-- The queue is untouched, and no worker at a write moves. -/
theorem Inside.of_frame (h : Inside s) (hcur : t.currentWrite = s.currentWrite)
    (hindex : t.resns.writeIndex = s.resns.writeIndex)
    (hpc : ∀ p k, s.calls.pool.pc p = .writeResn k → t.calls.pool.pc p = .writeResn k) :
    Inside t := by
  intro p w hp
  obtain ⟨⟨k, hk⟩, hw⟩ := h p w (by rw [← hcur, hp])
  exact ⟨⟨k, hpc p k hk⟩, by rw [hw, hindex]⟩

/-- They are read as they are where the list they hold is the queue's. -/
theorem seen_eq (h : s.calls.pool.resns = s.resns.contents) : s.seen = s.calls := by
  simp only [seen, ← h]

/-- **A worker in `while (!resns.write(resn))`.** Only its way out with the
resolution written is seen, and that is the append to the list. -/
theorem Stands.write {u : Calls n} (hR : s.Stands u) (hpc : s.calls.pool.pc p = .writeResn k) :
    (s.write p k).Stands u ∨ ∃ u', Calls.step u (.worker p) = some u' ∧ (s.write p k).seen = u' ∧
      Inside (s.write p k) := by
  obtain ⟨rfl, hI, hC, hO, hA⟩ := hR
  unfold Queued.write
  split
  · -- into `write`
    refine .inl ⟨rfl, fun q w hq => ?_, hC, hO, hA⟩
    simp only [Function.update_apply] at hq
    split at hq
    · next hqp =>
      cases hq
      rw [hqp]
      exact ⟨⟨k, hpc⟩, rfl⟩
    · exact hI q w hq
  · next w hw =>
    obtain ⟨-, rfl⟩ := hI p w hw
    split
    · -- out of it, having found no room
      refine .inl ⟨rfl, fun q w hq => ?_, hC, hO, hA⟩
      simp only [Function.update_apply] at hq
      split at hq
      · exact nomatch hq
      · exact hI q w hq
    · next resns hres =>
      have hroom : isFull s.seen.pool.resns = false := by
        rw [isFull, beq_eq_false_iff_ne]
        intro hfull
        have hnone : s.resns.write s.resns.writeIndex k = none :=
          ProducerConsumerQueue.write_eq_none.2 hfull
        rw [hnone] at hres
        exact nomatch hres
      refine .inr ⟨_, ?_, rfl, fun q w hq => ?_⟩
      · have hpc' : s.seen.pool.pc p = .writeResn k := hpc
        have hw : workerStep s.seen.pool p none = some ({ s.seen.pool with
            resns := s.resns.contents ++ [k]
            submittedR := s.calls.pool.submittedR ++ [k] }.goto p (.postSubmitr 0)) := by
          simp only [workerStep, hpc', hroom, Bool.false_eq_true, if_false]
          rfl
        have hgo : ∀ v : State n ℕ ℕ, (v.goto p (.postSubmitr 0)).pc p ≠ .popTask := fun v => by
          rw [State.goto_pc, if_pos rfl]
          simp
        simp only [Calls.step, Calls.worker, hpc', Calls.poolStep, hw, Option.map_some,
          if_neg (hgo _)]
        simp only [Queued.seen, State.goto, ProducerConsumerQueue.contents_write hres]
      · -- nobody else is inside
        simp only [Function.update_apply] at hq
        split at hq
        · exact nomatch hq
        · next hqp =>
          obtain ⟨⟨l, hl⟩, -⟩ := hI q w hq
          exact absurd (hA.writer_unique hC hO hl hpc) hqp

/-- The outside thread takes its steps in the calls as they are read. -/
theorem outside_of_step {a : CallAct n} (h : Queued.step s a = some t) (ha : ∀ p, a ≠ .worker p) :
    ∃ u, s.seen.step a = some u ∧ { s with calls := u } = t := by
  refine Option.map_eq_some_iff.1 (?_ : (s.seen.step a).map _ = some t)
  cases a with
  | worker => exact absurd rfl (ha _)
  | _ => exact h

/-- **One step of the calls with the queue** is one of those with the list,
or none: `write` is entered, or finds no room. -/
theorem Stands.step {u : Calls n} {a : CallAct n} (hR : s.Stands u) (hlast : s.LastAlone a)
    (h : Queued.step s a = some t) :
    t.Stands u ∨ ∃ b u', u.LastAlone b ∧ Calls.step u b = some u' ∧ t.Stands u' := by
  have hseen := hR.seen
  subst hseen
  obtain ⟨-, hI, hC, hO, hA⟩ := hR
  -- a step of the calls as they are read, after which they are read so
  have hstep : ∀ u', s.seen.step a = some u' → t.seen = u' → Inside t →
      t.Stands s.seen ∨ ∃ b u', s.seen.LastAlone b ∧ Calls.step s.seen b = some u' ∧
        t.Stands u' := by
    intro u' hu hseen hI'
    have hm := Calls.moves_of_step hu
    exact .inr ⟨a, u', hlast, hu, hseen, hI', hC.moves hm, hO.moves hC hm, hA.step hC hO hlast hu⟩
  by_cases ha : ∃ p, a = .worker p
  · obtain ⟨p, rfl⟩ := ha
    have hstep' : s.worker p = some t := h
    -- a worker that moves was at no write
    have hother : ∀ u', s.seen.worker p = some u' → (∀ k, s.calls.pool.pc p ≠ .writeResn k) →
        ∀ q k, s.calls.pool.pc q = .writeResn k → u'.pool.pc q = .writeResn k := by
      intro u' hu hwrite q k hq
      have hqp : q ≠ p := fun he => hwrite k (he ▸ hq)
      rcases Calls.works_of_worker hu with heq | hw
      · rw [heq]; exact hq
      · rw [hw.pc_of_ne hqp]; exact hq
    unfold worker at hstep'
    split at hstep'
    · next k hpc =>
      cases hstep'
      rcases Stands.write ⟨rfl, hI, hC, hO, hA⟩ hpc with h | ⟨u', hu, hseen, hI'⟩
      · exact .inl h
      · exact hstep u' hu hseen hI'
    · next hpc =>
      obtain ⟨u', hu, rfl⟩ := Option.map_eq_some_iff.1 hstep'
      have hne := hC.sound.control.resn p (by rw [show s.seen.pool.pc p = _ from hpc]; trivial)
      refine hstep u' hu (seen_eq ?_)
        (hI.of_frame rfl rfl (hother u' hu fun k hk => by rw [hpc] at hk; exact nomatch hk))
      simp only [s.resns.popFront_contents hne]
      simp only [Calls.worker, show s.seen.pool.pc p = _ from hpc, Calls.poolStep, workerStep] at hu
      cases hu
      rfl
    · next hwrite hpop =>
      obtain ⟨u', hu, rfl⟩ := Option.map_eq_some_iff.1 hstep'
      refine hstep u' hu (seen_eq ?_) (hI.of_frame rfl rfl (hother u' hu fun k hk => hwrite k hk))
      rcases Calls.works_of_worker hu with heq | hw
      · exact congrArg State.resns heq
      · exact hw.resns_eq hpop hwrite
  · have ha' : ∀ p, a ≠ .worker p := fun p he => ha ⟨p, he⟩
    obtain ⟨u', hu, rfl⟩ := outside_of_step h ha'
    obtain ⟨hpc, hres, -⟩ := Calls.frame_of_step hu ha'
    refine hstep u' hu (seen_eq hres) (hI.of_frame rfl rfl fun p k hp => ?_)
    exact (congrFun hpc p).trans hp

/-- **The queue serves for the list.** In every run whose last workers are
alone, what is read of the calls with the queue is a state the calls with
the list can get to, by a run of which the same is true. -/
theorem refines {as : List (CallAct n)} (hrun : (queued n).run (init n) as = some s)
    (hlast : (queued n).Along LastAlone (init n) as) :
    (∃ bs, (callPool n).run (Calls.init n) bs = some s.seen ∧
      (callPool n).Along Calls.LastAlone (Calls.init n) bs) ∧ Stands s s.seen := by
  have hinit : Stands (init n) (Calls.init n) :=
    ⟨rfl, fun _ _ h => (nomatch h), .init, .init, .init⟩
  obtain ⟨bs, u, hbs, halong, hR⟩ := Machine.run_stutters_along (N := callPool n)
    (D := Calls.LastAlone) (fun _ _ _ _ hR hC hst => hR.step hC hst) hinit hlast hrun
  have hseen := hR.seen
  subst hseen
  exact ⟨⟨bs, hbs, halong⟩, hR⟩

/-! ## Who holds the lock -/

/-- The holder of the lock is where a holder is. -/
def Locked (s : Queued n) : Prop :=
  ∀ p, s.calls.pool.rlck = some p ↔ (s.calls.pool.pc p).holdsLock

theorem Locked.of_eq (hL : Locked s) (hlock : t.calls.pool.rlck = s.calls.pool.rlck)
    (hpc : ∀ p, (t.calls.pool.pc p).holdsLock ↔ (s.calls.pool.pc p).holdsLock) : Locked t :=
  fun p => by rw [hlock, hpc, hL]

/-- A worker's write, written or not, is under no lock. -/
theorem Locked.write (hL : Locked s) (hpc : s.calls.pool.pc p = .writeResn k) :
    Locked (s.write p k) := by
  unfold Queued.write
  split
  · exact hL
  · split
    · exact hL
    · refine hL.of_eq rfl fun q => ?_
      simp only [State.goto_pc]
      split
      · next hqp => rw [hqp, hpc]; exact Iff.rfl
      · exact Iff.rfl

theorem Locked.works {pool : State n ℕ ℕ} (hL : Locked s) (hw : Works s.seen.pool p pool)
    (ht : t.calls.pool = pool) : Locked t := by
  subst ht
  have hne : ∀ q, q ≠ p → t.calls.pool.pc q = s.calls.pool.pc q := fun q hq => hw.pc_of_ne hq
  rcases hw.rlck with ⟨hlock, hholds⟩ | ⟨hnone, hsome, hholds⟩ | ⟨hheld, hnone, hholds⟩
  · refine hL.of_eq hlock fun q => ?_
    by_cases hqp : q = p
    · rw [hqp]; exact hholds
    · rw [hne q hqp]
  · intro q
    by_cases hqp : q = p
    · rw [hqp]; exact iff_of_true hsome hholds
    · rw [hsome, hne q hqp, ← hL q, show s.calls.pool.rlck = none from hnone]
      exact iff_of_false (fun h => hqp (Option.some.inj h).symm) nofun
  · intro q
    by_cases hqp : q = p
    · rw [hqp]; exact iff_of_false (by rw [hnone]; nofun) hholds
    · rw [hnone, hne q hqp, ← hL q, show s.calls.pool.rlck = some p from (hL p).2 hheld]
      exact iff_of_false nofun fun h => hqp (Option.some.inj h).symm

theorem Locked.step {a : CallAct n} (hL : Locked s) (h : Queued.step s a = some t) : Locked t := by
  by_cases ha : ∃ p, a = .worker p
  · obtain ⟨p, rfl⟩ := ha
    have hstep' : s.worker p = some t := h
    have hworker : ∀ u, s.seen.worker p = some u → t.calls = u → Locked t := by
      rintro u hu rfl
      rcases Calls.works_of_worker hu with heq | hw
      · exact hL.of_eq (by rw [heq]; rfl) fun q => by rw [heq]; exact Iff.rfl
      · exact hL.works hw rfl
    unfold worker at hstep'
    split at hstep'
    · next k hpc => cases hstep'; exact hL.write hpc
    · next hpc =>
      obtain ⟨u, hu, rfl⟩ := Option.map_eq_some_iff.1 hstep'
      exact hworker u hu rfl
    · next hwrite hpop =>
      obtain ⟨u, hu, rfl⟩ := Option.map_eq_some_iff.1 hstep'
      exact hworker u hu rfl
  · obtain ⟨u, hu, rfl⟩ := outside_of_step h fun p he => ha ⟨p, he⟩
    obtain ⟨hpc, -, hlock⟩ := Calls.frame_of_step hu fun p he => ha ⟨p, he⟩
    exact hL.of_eq hlock fun q => by rw [hpc]; exact Iff.rfl

/-- **One consumer, and one producer.** In every run one worker at a time
is between `frontPtr` and `popFront`; and in every run whose last workers
are alone one worker at a time is inside `resns.write`, whatever was
submitted has run or is in the queue, and nothing is submitted, or runs,
twice. -/
theorem one_producer {as : List (CallAct n)} (hrun : (queued n).run (init n) as = some s) :
    (∀ p q, s.Taking p → s.Taking q → p = q) ∧
    ((queued n).Along LastAlone (init n) as →
      (∀ p q, s.Writing p → s.Writing q → p = q) ∧
      ((∀ p, s.calls.pool.pc p ≠ .popResn) →
        s.calls.pool.submittedR = s.calls.pool.ranR ++ s.resns.contents) ∧
      (∀ p, s.calls.pool.pc p = .popResn →
        s.calls.pool.submittedR = s.calls.pool.ranR ++ s.resns.contents.tail) ∧
      s.calls.pool.submittedR.Nodup ∧ s.calls.pool.ranR.Nodup) := by
  refine ⟨fun p q hp hq => ?_, fun hlast => ?_⟩
  · have hL : Locked s := Machine.run_invariant (I := Locked) (fun _ _ _ hL hst => hL.step hst)
      (fun p => iff_of_false (fun h => absurd h.symm (Option.some_ne_none p)) id) hrun
    have hholds : ∀ r, s.Taking r → (s.calls.pool.pc r).holdsLock := by
      rintro r (hr | hr) <;> rw [hr] <;> trivial
    exact Option.some.inj (((hL p).2 (hholds p hp)).symm.trans ((hL q).2 (hholds q hq)))
  · obtain ⟨-, hR⟩ := refines hrun hlast
    obtain ⟨-, hI, hC, hO, hA⟩ := hR
    have hord := hC.sound.ordered
    refine ⟨fun p q hp hq => ?_, hord.resns, hord.popResn, hA.nodup, ?_⟩
    · obtain ⟨w, hw⟩ := Option.isSome_iff_exists.1 hp
      obtain ⟨v, hv⟩ := Option.isSome_iff_exists.1 hq
      obtain ⟨⟨k, hk⟩, -⟩ := hI p w hw
      obtain ⟨⟨j, hj⟩, -⟩ := hI q v hv
      exact hA.writer_unique hC hO hk hj
    · have hsub : s.calls.pool.ranR <+: s.calls.pool.submittedR := by
        by_cases hpop : ∃ p, s.seen.pool.pc p = .popResn
        · obtain ⟨p, hp⟩ := hpop
          exact ⟨_, (hord.popResn p hp).symm⟩
        · exact ⟨_, (hord.resns fun p hp => hpop ⟨p, hp⟩).symm⟩
      exact hA.nodup.sublist hsub.sublist

/-- Two workers, the first of which is out of its task before the second
has counted down, and is the second inside `resns.write`. -/
theorem one_producer_two :
    let as : List (CallAct 2) := [.call, .submit, .main, .submit, .main] ++
      List.replicate 10 (.worker 0) ++ List.replicate 10 (.worker 1)
    ∃ s, (queued 2).run (init 2) as = some s ∧ s.Writing 1 ∧ (∀ p, s.Writing p → p = 1) := by
  intro as
  have hstate : ((queued 2).run (init 2) as).map (fun s => (s.currentWrite 1).isSome) =
      some true := by decide +kernel
  obtain ⟨s, hrun, hs⟩ := Option.map_eq_some_iff.1 hstate
  have hlast : (queued 2).Along LastAlone (init 2) as := by decide +kernel
  exact ⟨s, hrun, hs, fun p hp => ((one_producer hrun).2 hlast).1 p 1 hp hs⟩

/-- **Two producers.** Both workers count down before either tests, and are
inside `resns.write` together: of the two resolutions submitted one is
left. -/
theorem two_producers :
    let as : List (CallAct 2) := [.call, .submit, .main, .submit, .main] ++
      List.replicate 7 (.worker 0) ++ List.replicate 7 (.worker 1) ++
      [.worker 0, .worker 1, .worker 0, .worker 1, .worker 0, .worker 1]
    ∃ s t, (queued 2).run (init 2) as = some s ∧ s.Writing 0 ∧ s.Writing 1 ∧
      (queued 2).run s [.worker 0, .worker 1] = some t ∧ t.calls.pool.submittedR = [0, 0] ∧
      t.calls.pool.ranR = [] ∧ t.resns.contents = [0] := by
  intro as
  have hstate : ((queued 2).run (init 2) as).map (fun s =>
      ((s.currentWrite 0).isSome, (s.currentWrite 1).isSome)) = some (true, true) := by
    decide +kernel
  have hstate' : ((queued 2).run (init 2) (as ++ [.worker 0, .worker 1])).map (fun t =>
      (t.calls.pool.submittedR, t.calls.pool.ranR, t.resns.contents)) =
        some ([0, 0], [], [0]) := by decide +kernel
  obtain ⟨s, hrun, hs⟩ := Option.map_eq_some_iff.1 hstate
  obtain ⟨t, hrun', ht⟩ := Option.map_eq_some_iff.1 hstate'
  rw [Machine.run_append, hrun, Option.bind_some] at hrun'
  simp only [Prod.mk.injEq] at hs ht
  exact ⟨s, t, hrun, hs.1, hs.2, hrun', ht⟩

end Queued

end Contentious.Pool
