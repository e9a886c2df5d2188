import Contentious.Pool.Calls

/-!
# Pool — resolutions run in order

Nothing in the code orders the resolutions of one call before those of the
next. It comes of three things. A resolution is submitted from inside a
task, by a worker that saw the latch of its call at zero, and so after
every worker has counted down for that call (`InOrder.all`). To count down
for the next call a worker must have returned from its task of this one,
submission included; so by the time the next latch is at zero nobody will
submit for this call any more, and somebody has (`InOrder.one`). And what
is submitted in order runs in order, one at a time, under the lock. That a
resolution may be submitted twice changes nothing here.
-/

namespace Contentious.Pool

/-- What was submitted and what has run are only added to. -/
theorem Works.grows {n : ℕ} {τ ρ : Type} {s t : State n τ ρ} {p : Fin n} (h : Works s p t) :
    s.submittedR <+: t.submittedR ∧ s.ranR <+: t.ranR := by
  cases h with
  | runResn r rs hpc hr => exact ⟨List.prefix_refl _, List.prefix_append ..⟩
  | writeResn r hpc => exact ⟨List.prefix_append .., List.prefix_refl _⟩
  | _ => exact ⟨List.prefix_refl _, List.prefix_refl _⟩

theorem Submits.grows {n : ℕ} {τ ρ : Type} {s t : State n τ ρ} (h : Submits s t) :
    s.submittedR <+: t.submittedR ∧ s.ranR <+: t.ranR := by
  cases h <;> exact ⟨List.prefix_refl _, List.prefix_refl _⟩

namespace Calls

variable {n : ℕ} {s t : Calls n} {p q : Fin n} {k j : ℕ}

/-- Worker `p` will submit the resolution of call `k`, if its latch is at
zero. -/
def OnIt (s : Calls n) (p : Fin n) (k : ℕ) : Prop :=
  k = s.current p ∧ (s.stage p = .tryWait ∨
    s.stage p = .tested true ∧ (s.pool.pc p = .runTask ∨ s.pool.pc p = .writeResn k))

theorem OnIt.busy (hC : Counts s) (h : s.OnIt p k) : (s.pool.pc p).busy := by
  obtain ⟨-, h | ⟨h, -⟩⟩ := h <;> exact hC.stage p (by rw [h]; simp)

/-- Who is on a call has not written its resolution. -/
theorem OnIt.not_posting (hC : Counts s) (h : s.OnIt p k) {l : ℕ} :
    s.pool.pc p ≠ .postSubmitr l := by
  intro hpc
  obtain ⟨-, h | ⟨-, h | h⟩⟩ := h
  · rw [hC.past p (by rw [hpc]; trivial) (by rw [hpc]; simp)] at h
    exact nomatch h
  · rw [hpc] at h
    exact nomatch h
  · rw [hpc] at h
    exact nomatch h

/-- Another worker may go on in its task. -/
theorem OnIt.at' {c : Stage} {q : Fin n} (h : s.OnIt q k) (hp : q ≠ p) : (s.at' p c).OnIt q k := by
  rw [OnIt, at'_stage, if_neg hp]
  exact h

/-- Who has not counted down, or is to submit nothing, is on no call. -/
theorem not_onIt (h1 : s.stage p ≠ .tryWait) (h2 : s.stage p ≠ .tested true) : ¬ s.OnIt p k :=
  fun h => h.2.elim h1 fun h => h2 h.1

/-- **The resolutions submitted so far**: for calls that every worker has
counted down for, in the order of the calls, and for each such call unless
some worker is on it. -/
structure InOrder (s : Calls n) : Prop where
  zero : ∀ p, s.stage p = .tested true → ∀ q, q ∈ s.counted (s.current p)
  write : ∀ p k, s.pool.pc p = .writeResn k → k = s.current p
  all : ∀ k ∈ s.pool.submittedR, ∀ q, q ∈ s.counted k
  sorted : s.pool.submittedR.Pairwise (· ≤ ·)
  one : 0 < n → ∀ k, (∀ q, q ∈ s.counted k) → k ∈ s.pool.submittedR ∨ ∃ p, s.OnIt p k

namespace InOrder

theorem init : InOrder (init n) where
  zero _ h := nomatch h
  write _ _ h := nomatch h
  all _ h := absurd h List.not_mem_nil
  sorted := .nil
  one hn _ h := absurd (h ⟨0, hn⟩) (Finset.notMem_empty _)

/-- **A worker returns from its task** once it is not on its call. -/
theorem returned {ks : List ℕ} (hC : Counts s) (hO : InOrder s) (hbusy : (s.pool.pc p).busy)
    (hts : s.pool.tasks p = k :: ks) (hoff : ¬ s.OnIt p k) :
    InOrder ({ s with pool := (s.pool.finished p k).goto p .popTask }.at' p .splinter) := by
  have hpop : s.pool.pc p ≠ .popTask := fun h => by rw [h] at hbusy; exact hbusy
  obtain ⟨hk, -⟩ := hC.front hpop hts
  have hcur : ∀ q, q ≠ p →
      ({ s with pool := (s.pool.finished p k).goto p .popTask }.at' p .splinter).current q =
      s.current q := by
    intro q hq
    simp only [current, at', State.goto_ran, State.finished_ran, if_neg hq]
  refine ⟨fun q hq => ?_, fun q l hq => ?_, hO.all, hO.sorted, fun hn l hl => ?_⟩
  · rw [at'_stage] at hq
    split at hq
    · cases hq
    · next hqp =>
      rw [hcur q hqp]
      exact hO.zero q hq
  · simp only [at', State.goto_pc] at hq
    split at hq
    · cases hq
    · next hqp =>
      rw [hcur q hqp]
      exact hO.write q l hq
  · refine (hO.one hn l hl).imp_right (.imp fun q hq => ?_)
    have hqp : q ≠ p := by
      rintro rfl
      rw [hk, ← hq.1] at hoff
      exact hoff hq
    rw [OnIt, hcur q hqp, at'_stage, if_neg hqp]
    simp only [at', State.goto_pc, if_neg hqp]
    exact hq

theorem moves (hC : Counts s) (hO : InOrder s) (h : Moves s t) : InOrder t := by
  cases h with
  | call ht => exact ⟨hO.zero, hO.write, hO.all, hO.sorted, hO.one⟩
  | submit ht hf => exact ⟨hO.zero, hO.write, hO.all, hO.sorted, hO.one⟩
  | outside pool hs hsub hran hpc hsubR =>
    refine ⟨?_, ?_, ?_, ?_, ?_⟩
    · simp only [current, hran]; exact hO.zero
    · simp only [current, hran, hpc]; exact hO.write
    · simp only [hsubR]; exact hO.all
    · simp only [hsubR]; exact hO.sorted
    · simp only [OnIt, current, hran, hpc, hsubR]; exact hO.one
  | splinter p k ks hpc hts hst =>
    refine ⟨fun q hq => ?_, hO.write, hO.all, hO.sorted, fun hn l hl => ?_⟩
    · rw [at'_stage] at hq
      split at hq
      · cases hq
      · exact hO.zero q hq
    · have hoff : ¬ s.OnIt p l := not_onIt (by simp [hst]) (by simp [hst])
      exact (hO.one hn l hl).imp_right (.imp fun q hq => hq.at' fun h => hoff (h ▸ hq))
  | countDown p k ks hpc hts hst =>
    obtain ⟨hk, -⟩ := hC.front (by rw [hpc]; simp) hts
    have hmono : ∀ q l, q ∈ s.counted l →
      q ∈ Function.update s.counted k (insert p (s.counted k)) l := by
      intro q l hq
      rw [Function.update_apply]
      split
      · next hlk => rw [← hlk]; exact Finset.mem_insert_of_mem hq
      · exact hq
    refine ⟨fun q hq r => ?_, hO.write, fun l hl q => hmono q l (hO.all l hl q), hO.sorted,
      fun hn l hl => ?_⟩
    · rw [at'_stage] at hq
      split at hq
      · cases hq
      · exact hmono r _ (hO.zero q hq r)
    · by_cases hlk : l = k
      · exact .inr ⟨p, hlk.trans hk, .inl (by rw [at'_stage, if_pos rfl])⟩
      · have hl' : ∀ q, q ∈ s.counted l := fun q => by
          have := hl q
          simp only [at', Function.update_of_ne hlk] at this
          exact this
        have hoff : ¬ s.OnIt p l := not_onIt (by simp [hst]) (by simp [hst])
        exact (hO.one hn l hl').imp_right (.imp fun q hq => hq.at' fun h => hoff (h ▸ hq))
  | tryWait p k ks hpc hts hst =>
    obtain ⟨hk, hlt⟩ := hC.front (by rw [hpc]; simp) hts
    have hlatch := hC.latch k hlt
    refine ⟨fun q hq r => ?_, hO.write, hO.all, hO.sorted, fun hn l hl => ?_⟩
    · rw [at'_stage] at hq
      split at hq
      · next hqp =>
        -- the latch is at zero once all have counted it down
        subst hqp
        have h0 : s.latch k = 0 := by simpa using hq
        have huniv := Finset.eq_univ_of_card (s.counted k) (by rw [Fintype.card_fin]; omega)
        change r ∈ s.counted (s.current q)
        rw [← hk, huniv]
        exact Finset.mem_univ r
      · exact hO.zero q hq r
    · refine (hO.one hn l hl).imp_right (.imp fun q hq => ?_)
      by_cases hqp : q = p
      · subst hqp
        have hlk : l = k := hq.1.trans hk.symm
        have hcard : (s.counted k).card = n := by
          have huniv : s.counted k = Finset.univ := Finset.eq_univ_of_forall fun r => hlk ▸ hl r
          rw [huniv, Finset.card_univ, Fintype.card_fin]
        have h0 : s.latch k = 0 := by omega
        exact ⟨hq.1, .inr ⟨by rw [at'_stage, if_pos rfl, h0]; rfl, .inl hpc⟩⟩
      · exact hq.at' fun h => absurd h hqp
  | returns p k ks hpc hts hst =>
    exact hO.returned hC (by rw [hpc]; trivial) hts (not_onIt (by simp [hst]) (by simp [hst]))
  | submitr p k ks hpc hts hst =>
    obtain ⟨hk, -⟩ := hC.front (by rw [hpc]; simp) hts
    refine ⟨hO.zero, fun q l hq => ?_, hO.all, hO.sorted, fun hn l hl => ?_⟩
    · simp only [State.goto_pc] at hq
      split at hq
      · next hqp =>
        cases hq
        rw [hqp]
        exact hk
      · exact hO.write q l hq
    · refine (hO.one hn l hl).imp_right (.imp fun q hq =>
        ⟨hq.1, hq.2.imp_right (.imp_right fun h2 => ?_)⟩)
      simp only [State.goto_pc]
      split
      · next hqp =>
        rw [hq.1, hqp]
        exact .inr (congrArg _ hk)
      · exact h2
  | writeResn p k hpc =>
    have hk := hO.write p k hpc
    have hst := hC.past p (by rw [hpc]; trivial) (by rw [hpc]; simp)
    have hall : ∀ q, q ∈ s.counted k := fun q => by rw [hk]; exact hO.zero p hst q
    refine ⟨hO.zero, fun q l hq => ?_, fun l hl => ?_, ?_, fun hn l hl => ?_⟩
    · simp only [State.goto_pc] at hq
      split at hq
      · cases hq
      · exact hO.write q l hq
    · rcases List.mem_append.1 hl with hl | hl
      · exact hO.all l hl
      · rw [List.mem_singleton.1 hl]
        exact hall
    · -- this worker has counted down for all that was submitted, and is at `k`
      refine List.pairwise_append.2 ⟨hO.sorted, List.pairwise_singleton _ _, fun l hl m hm => ?_⟩
      rw [List.mem_singleton.1 hm, hk]
      rcases (hC.counted p l).1 (hO.all l hl p) with hlt | ⟨heq, -⟩
      · exact le_of_lt hlt
      · exact le_of_eq heq
    · by_cases hlk : l = k
      · exact .inl (List.mem_append_right _ (by rw [hlk]; exact List.mem_singleton_self k))
      · rcases hO.one hn l hl with hmem | ⟨q, hl, hq⟩
        · exact .inl (List.mem_append_left _ hmem)
        · have hqp : q ≠ p := fun h => hlk (by rw [hl, h, hk])
          refine .inr ⟨q, hl, ?_⟩
          simp only [State.goto_pc, if_neg hqp]
          exact hq
  | submitted p k ks l hpc hl hts =>
    refine hO.returned hC (by rw [hpc]; trivial) hts ?_
    have hst := hC.past p (by rw [hpc]; trivial) (by rw [hpc]; simp)
    rintro ⟨-, h | ⟨-, h | h⟩⟩
    · rw [hst] at h; cases h
    · rw [hpc] at h; cases h
    · rw [hpc] at h; cases h
  | quiet p pool hq =>
    refine ⟨?_, fun q l hpc => ?_, ?_, ?_, fun hn l hl => ?_⟩
    · simp only [current, hq.ran]; exact hO.zero
    · change pool.pc q = .writeResn l at hpc
      simp only [current, hq.ran]
      by_cases hqp : q = p
      · subst hqp
        by_cases hb : (s.pool.pc q).busy
        · obtain ⟨-, m, -, hm⟩ := hq.busy hb
          rw [hm] at hpc
          cases hpc
        · rcases hq.idle hb with h | h
          · rw [hpc] at h
            exact absurd trivial h
          · rw [hpc] at h
            cases h
      · exact hO.write q l (by rw [← hq.others q hqp]; exact hpc)
    · simp only [hq.submittedR]; exact hO.all
    · simp only [hq.submittedR]; exact hO.sorted
    · simp only [hq.submittedR]
      refine (hO.one hn l hl).imp_right (.imp fun q hon => ?_)
      have hqp : q ≠ p := by
        rintro rfl
        obtain ⟨m, -, hm, -⟩ := hq.busy (hon.busy hC)
        exact hon.not_posting hC hm
      simp only [OnIt, current, hq.ran, hq.others q hqp]
      exact hon

/-- **In every run** the resolutions are submitted so. -/
theorem of_run {as : List (CallAct n)} (h : (callPool n).run (Calls.init n) as = some s) :
    Counts s ∧ InOrder s :=
  Machine.run_invariant (I := fun s => Counts s ∧ InOrder s)
    (fun _ _ _ hI hst => ⟨hI.1.moves (moves_of_step hst), hI.2.moves hI.1 (moves_of_step hst)⟩)
    ⟨.init, init⟩ h

end InOrder

/-! ## Running them -/

/-- Worker `p` is running the resolution of call `k`. -/
def Running (s : Calls n) (p : Fin n) (k : ℕ) : Prop :=
  s.pool.pc p = .runResn ∧ s.pool.resns.head? = some k

/-- What runs is the first of those submitted that has not run. -/
theorem Running.submittedR (hC : Counts s) (h : s.Running p k) :
    ∃ ks, s.pool.submittedR = s.pool.ranR ++ k :: ks := by
  obtain ⟨hpc, hhead⟩ := h
  obtain ⟨ks, hks⟩ := List.head?_eq_some_iff.1 hhead
  have hnone : ∀ q, s.pool.pc q ≠ .popResn := by
    intro q hq
    have hqp := hC.sound.control.holder_unique (p := q) (q := p) (by rw [hq]; trivial)
      (by rw [hpc]; trivial)
    rw [hqp, hpc] at hq
    exact nomatch hq
  exact ⟨ks, by rw [hC.sound.ordered.resns hnone, hks]⟩

/-- Both histories only grow. -/
theorem Moves.grows (h : Moves s t) :
    s.pool.submittedR <+: t.pool.submittedR ∧ s.pool.ranR <+: t.pool.ranR := by
  rcases h.pool with heq | ⟨p, hw⟩ | hs
  · rw [heq]
    exact ⟨List.prefix_refl _, List.prefix_refl _⟩
  · exact hw.grows
  · exact hs.grows

theorem grows_of_run {as : List (CallAct n)} (h : (callPool n).run s as = some t) :
    s.pool.submittedR <+: t.pool.submittedR ∧ s.pool.ranR <+: t.pool.ranR := by
  refine Machine.run_invariant (I := fun u => s.pool.submittedR <+: u.pool.submittedR ∧
    s.pool.ranR <+: u.pool.ranR) (fun u a v hI hst => ?_) ⟨List.prefix_refl _, List.prefix_refl _⟩ h
  obtain ⟨h1, h2⟩ := (moves_of_step hst).grows
  exact ⟨hI.1.trans h1, hI.2.trans h2⟩

/-- **What a resolution finds when it starts.** Everything is back for its
call and the ones before, and each of the ones before has been resolved. -/
theorem Running.complete (hC : Counts s) (hO : InOrder s) (h : s.Running p k) :
    (∀ j ≤ k, ∀ q, q ∈ s.reattached j) ∧ ∀ j < k, j ∈ s.pool.ranR := by
  obtain ⟨ks, hsub⟩ := h.submittedR hC
  have hmem : k ∈ s.pool.submittedR := by
    rw [hsub]
    exact List.mem_append_right _ List.mem_cons_self
  have hall := hO.all k hmem
  -- whoever has counted down for this call is past the ones before
  have hcur : ∀ q, k ≤ s.current q := fun q => by
    rcases (hC.counted q k).1 (hall q) with hlt | ⟨heq, -⟩
    · exact le_of_lt hlt
    · exact le_of_eq heq
  have hcounted : ∀ j ≤ k, ∀ q, q ∈ s.counted j := by
    intro j hj q
    rcases eq_or_lt_of_le hj with rfl | hlt
    · exact hall q
    · exact (hC.counted q j).2 (.inl (lt_of_lt_of_le hlt (hcur q)))
  refine ⟨fun j hj q => hC.reattached q j (.inl (hcounted j hj q)), fun j hj => ?_⟩
  rcases hO.one p.pos j (hcounted j (le_of_lt hj)) with hin | ⟨q, hq⟩
  · have hsorted := hO.sorted
    rw [hsub] at hin hsorted
    refine (List.mem_append.1 hin).resolve_right fun hlate => ?_
    obtain ⟨-, hsorted, -⟩ := List.pairwise_append.1 hsorted
    rcases List.mem_cons.1 hlate with rfl | hlate
    · exact lt_irrefl _ hj
    · exact absurd ((List.pairwise_cons.1 hsorted).1 j hlate) (Nat.not_le.2 hj)
  · have := hcur q
    have := hq.1
    omega

/-- **Resolutions run in order, and on complete inputs.** In every run,
when a resolution of call `k` starts, every worker's splinter is back for
each call up to `k`, and each call before it has been resolved; and
whatever resolution runs from then on is of no call before `k`. -/
theorem resolutions_in_order {as bs : List (CallAct n)}
    (hrun : (callPool n).run (init n) as = some s)
    (hmore : (callPool n).run s bs = some t) (hk : s.Running p k) (hj : t.Running q j) :
    (∀ i ≤ k, ∀ r, r ∈ s.reattached i) ∧ (∀ i < k, i ∈ s.pool.ranR) ∧ k ≤ j := by
  obtain ⟨hC, hO⟩ := InOrder.of_run hrun
  have hrun' : (callPool n).run (init n) (as ++ bs) = some t := by
    rw [Machine.run_append, hrun]
    exact hmore
  obtain ⟨hC', hO'⟩ := InOrder.of_run hrun'
  obtain ⟨hback, hbefore⟩ := hk.complete hC hO
  refine ⟨hback, hbefore, ?_⟩
  obtain ⟨ks, hsub⟩ := hk.submittedR hC
  obtain ⟨js, hsub'⟩ := hj.submittedR hC'
  obtain ⟨⟨l, hl⟩, hran⟩ := grows_of_run hmore
  -- `k` and `j` stand in one sorted list, `j` no earlier than `k`
  have hlen := hran.length_le
  have hat : t.pool.submittedR[s.pool.ranR.length]? = some k := by
    rw [← hl, hsub]
    simp
  have hat' : t.pool.submittedR[t.pool.ranR.length]? = some j := by
    rw [hsub']
    simp
  obtain ⟨hlt, hk'⟩ := List.getElem?_eq_some_iff.1 hat
  obtain ⟨hlt', hj'⟩ := List.getElem?_eq_some_iff.1 hat'
  rcases eq_or_lt_of_le hlen with heq | hlt''
  · exact le_of_eq (by rw [← hk', ← hj']; simp only [heq])
  · rw [← hk', ← hj']
    exact List.pairwise_iff_getElem.1 hO'.sorted _ _ hlt hlt' hlt''

/-- Two workers and two calls, each resolved by the second worker. -/
theorem resolutions_in_order_two :
    let submits : List (CallAct 2) := [.call, .submit, .main, .submit, .main]
    let as := submits ++ List.replicate 10 (.worker 0) ++ List.replicate 18 (.worker 1)
    let bs := List.replicate 6 (.worker 1) ++ submits ++ List.replicate 12 (.worker 0) ++
      List.replicate 18 (.worker 1)
    ∃ s t, (callPool 2).run (init 2) as = some s ∧ (callPool 2).run s bs = some t ∧
      (∀ i ≤ 0, ∀ r, r ∈ s.reattached i) ∧ (∀ i < 0, i ∈ s.pool.ranR) ∧ 0 ≤ 1 := by
  intro submits as bs
  have hstate : ((callPool 2).run (init 2) as).map (fun s => (s.pool.pc 1, s.pool.resns.head?)) =
      some (.runResn, some 0) := by decide +kernel
  have hstate' : ((callPool 2).run (init 2) (as ++ bs)).map
      (fun s => (s.pool.pc 1, s.pool.resns.head?)) = some (.runResn, some 1) := by decide +kernel
  obtain ⟨s, hrun, hs⟩ := Option.map_eq_some_iff.1 hstate
  obtain ⟨t, hrun', ht⟩ := Option.map_eq_some_iff.1 hstate'
  rw [Machine.run_append, hrun, Option.bind_some] at hrun'
  simp only [Prod.mk.injEq] at hs ht
  exact ⟨s, t, hrun, hrun', resolutions_in_order hrun hrun' hs ht⟩

end Calls

end Contentious.Pool
