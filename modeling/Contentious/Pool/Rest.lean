import Contentious.Pool.Wakeups
import Mathlib.Algebra.Order.BigOperators.Group.Finset
import Mathlib.Algebra.BigOperators.Group.Finset.Basic

/-!
# Pool — the semaphores come to rest

Nobody holds a lock in a semaphore. A swap fails only where another has
succeeded, and then the thread reads again: so it is the swaps that run
out. `work` charges each that is left for the threads it may make late, and
then every step uses some up (`Kept.work_lt`). Threads that are left alone
come to rest (`comes_to_rest`), and what `rests_served` says is true of them
there.
-/

namespace Contentious.Pool

variable {ι : Type} [DecidableEq ι] {s t : LifoSem ι} {lot : BitVec 32 → Option (ι × Lot ι)}
variable {ws : List (BitVec 32)} {idx v : BitVec 32} {nexts : BitVec 32 → BitVec 32}
variable {p : ι} {a c : LifoPc} {m k : ℕ}

namespace LifoPc

/-- The head that a thread has read and goes by. -/
def head? : LifoPc → Option LifoSemHead
  | .popNext _ h _ => some h
  | .pop _ h _ _ => some h
  | .incr _ h => some h
  | .decr _ _ _ h => some h
  | .link _ h => some h
  | .push _ h => some h
  | .setShutdown h => some h
  | .wake h _ => some h
  | .wakePop h _ _ => some h
  | .notice _ h _ => some h
  | .wakePost _ h _ => some h
  | _ => none

/-- What it costs the thread if the head is another by now. -/
def late (head : LifoSemHead) (c : LifoPc) : ℕ :=
  match c.head? with
  | none => 0
  | some h => if head = h then 0 else 6

/-- The swaps that a thread has left in its call; one that pushes is charged
for the pop as well. -/
def swaps : LifoPc → ℕ
  | .incrOrPop n => n.toNat
  | .popNext n _ _ => n.toNat
  | .pop n _ _ _ => n.toNat
  | .incr n _ => n.toNat
  | .handOff n _ => n.toNat - 1
  | .decrOrPush waits n _ => if waits then 2 else n.toNat
  | .decr waits n _ _ => if waits then 2 else n.toNat
  | .allocateNode => 2
  | .link _ _ => 2
  | .push _ _ => 2
  | .shutdown => 1
  | .setShutdown _ => 1
  | _ => 0

/-- The steps to the next of them, or to the end of the call. -/
def steps : LifoPc → ℕ
  | .idle => 0
  | .incrOrPop _ => 3
  | .popNext _ _ _ => 2
  | .pop _ _ _ _ => 1
  | .incr _ _ => 1
  | .handOff _ _ => 4
  | .decrOrPush _ _ i => if i = 0 then 5 else 3
  | .decr _ _ _ _ => 1
  | .allocateNode => 4
  | .link _ _ => 2
  | .push _ _ => 1
  | .wait _ => 3
  | .woken _ => 2
  | .refused _ => 2
  | .recycle _ => 1
  | .shutdown => 3
  | .setShutdown _ => 1
  | .wake _ _ => 2
  | .wakePop _ _ _ => 1
  | .notice _ _ _ => 4
  | .wakePost _ _ _ => 3

theorem late_le (head : LifoSemHead) (c : LifoPc) : c.late head ≤ 6 := by
  unfold late
  split
  · omega
  · split <;> omega

theorem late_of_none {head : LifoSemHead} (h : c.head? = none) : c.late head = 0 := by
  unfold late
  rw [h]

/-- What was read is still there. -/
theorem late_of_eq {head : LifoSemHead} (h : c.head? = some head) : c.late head = 0 := by
  unfold late
  rw [h]
  exact if_pos rfl

theorem late_of_ne {head h' : LifoSemHead} (h : c.head? = some h') (hne : head ≠ h') :
    c.late head = 6 := by
  unfold late
  rw [h]
  exact if_neg hne

/-- Who goes by the same head is as late. -/
theorem late_congr (head : LifoSemHead) (h : a.head? = c.head?) : a.late head = c.late head := by
  unfold late
  rw [h]

end LifoPc

namespace LifoSem

variable [Fintype ι]

/-- **What is left to do**, with `m` waiters in the stack. -/
def work (s : LifoSem ι) (m : ℕ) : ℕ :=
  (6 * Fintype.card ι + 1) * (∑ p, (s.pc p).swaps + m) +
    ∑ p, ((s.pc p).steps + (s.pc p).late s.head)

/-- A thread goes on, and the head is the same. -/
theorem work_lt_of_own (hpc : t.pc = Function.update s.pc p a) (hhead : t.head = s.head)
    (hswaps : a.swaps ≤ (s.pc p).swaps)
    (hsteps : a.steps + a.late s.head < (s.pc p).steps + (s.pc p).late s.head) :
    t.work m < s.work m := by
  have hle : ∑ q, (t.pc q).swaps ≤ ∑ q, (s.pc q).swaps := by
    refine Finset.sum_le_sum fun q _ => ?_
    rw [hpc]
    by_cases hqp : q = p
    · rw [hqp, Function.update_self]
      exact hswaps
    · rw [Function.update_of_ne hqp]
  have hlt : ∑ q, ((t.pc q).steps + (t.pc q).late t.head) <
      ∑ q, ((s.pc q).steps + (s.pc q).late s.head) := by
    rw [hpc, hhead]
    refine Finset.sum_lt_sum (fun q _ => ?_) ⟨p, Finset.mem_univ p, ?_⟩
    · by_cases hqp : q = p
      · rw [hqp, Function.update_self]
        exact hsteps.le
      · rw [Function.update_of_ne hqp]
    · rw [Function.update_self]
      exact hsteps
  exact Nat.add_lt_add_of_le_of_lt (Nat.mul_le_mul_left _ (Nat.add_le_add_right hle m)) hlt

/-- A thread swaps the head, which makes the others late. -/
theorem work_lt_of_swap (hpc : t.pc = Function.update s.pc p a)
    (hswaps : a.swaps + k < (s.pc p).swaps + m) (hsteps : a.steps + a.late t.head ≤ 5) :
    t.work k < s.work m := by
  have hlt : ∑ q, (t.pc q).swaps + k + 1 ≤ ∑ q, (s.pc q).swaps + m := by
    have hrest : ∑ q ∈ Finset.univ.erase p, (t.pc q).swaps =
        ∑ q ∈ Finset.univ.erase p, (s.pc q).swaps := by
      refine Finset.sum_congr rfl fun q hq => ?_
      rw [hpc, Function.update_of_ne (Finset.ne_of_mem_erase hq)]
    have hself : t.pc p = a := by rw [hpc, Function.update_self]
    rw [← Finset.add_sum_erase _ _ (Finset.mem_univ p), hrest, hself,
      ← Finset.add_sum_erase _ (fun q => (s.pc q).swaps) (Finset.mem_univ p)]
    omega
  have hle : ∑ q, ((t.pc q).steps + (t.pc q).late t.head) ≤
      ∑ q, ((s.pc q).steps + (s.pc q).late s.head) + 6 * Fintype.card ι := by
    calc ∑ q, ((t.pc q).steps + (t.pc q).late t.head)
        ≤ ∑ q, ((s.pc q).steps + (s.pc q).late s.head + 6) := by
          refine Finset.sum_le_sum fun q _ => ?_
          rw [hpc]
          by_cases hqp : q = p
          · rw [hqp, Function.update_self]
            omega
          · rw [Function.update_of_ne hqp]
            have := LifoPc.late_le t.head (s.pc q)
            omega
      _ = ∑ q, ((s.pc q).steps + (s.pc q).late s.head) + 6 * Fintype.card ι := by
          rw [Finset.sum_add_distrib, Finset.sum_const_nat fun _ _ => rfl, Finset.card_univ,
            Nat.mul_comm]
  have hmul := Nat.mul_le_mul_left (6 * Fintype.card ι + 1) hlt
  rw [Nat.mul_succ] at hmul
  unfold work
  omega

/-! The head is any other, in these: what it is made of does not matter. -/

theorem work_owe_lt {n i : BitVec 32} (h : LifoSemHead)
    (hswaps : n.toNat - 1 + k < (s.pc p).swaps + m) :
    ((s.owe h i).goto p (.handOff n i)).work k < s.work m :=
  work_lt_of_swap (p := p) (a := .handOff n i) rfl hswaps (Nat.le_succ 4)

theorem work_incr_lt (h : LifoSemHead) (u : ℕ) (hswaps : k < (s.pc p).swaps + m) :
    ((s.incr h u).goto p .idle).work k < s.work m :=
  work_lt_of_swap (p := p) (a := .idle) rfl (by change 0 + k < _; omega) (Nat.zero_le 5)

theorem work_decr_lt (h : LifoSemHead) (u : ℕ) (hnone : a.head? = none) (hsteps : a.steps ≤ 5)
    (hswaps : a.swaps + k < (s.pc p).swaps + m) :
    ((s.decr h u).goto p a).work k < s.work m := by
  refine work_lt_of_swap (p := p) (a := a) rfl hswaps ?_
  rw [LifoPc.late_of_none hnone]
  exact hsteps

theorem work_push_lt {i : BitVec 32} (h : LifoSemHead) (hswaps : 0 + k < (s.pc p).swaps + m) :
    ({ s with head := h }.goto p (.wait i)).work k < s.work m :=
  work_lt_of_swap (p := p) (a := .wait i) rfl hswaps (Nat.le_add_right 3 2)

theorem work_shut_lt (h : LifoSemHead) (u : ℕ) (hswaps : 0 + k < (s.pc p).swaps + m) :
    ({ s with head := h }.goto p (.wake h u)).work k < s.work m := by
  have hlate : (LifoPc.wake h u).late h = 0 := LifoPc.late_of_eq rfl
  refine work_lt_of_swap (p := p) (a := .wake h u) rfl hswaps ?_
  change 2 + (LifoPc.wake h u).late h ≤ 5
  omega

theorem work_wakePop_lt {i : BitVec 32} (h : LifoSemHead) (u : ℕ)
    (hswaps : 0 + k < (s.pc p).swaps + m) :
    ((s.swap h).goto p (.notice i h u)).work k < s.work m := by
  have hlate : (LifoPc.notice i h u).late h = 0 := LifoPc.late_of_eq rfl
  refine work_lt_of_swap (p := p) (a := .notice i h u) rfl hswaps ?_
  change 4 + (LifoPc.notice i h u).late h ≤ 5
  omega

omit [Fintype ι] [DecidableEq ι] in
/-- What `shutdown` has before it, when it has read. -/
theorem afterLoad_work (s : LifoSem ι) :
    s.afterLoad.swaps ≤ 1 ∧ s.afterLoad.steps + s.afterLoad.late s.head < 3 := by
  unfold afterLoad
  split
  · have hlate := LifoPc.late_of_eq (c := .wake s.head s.ticks) rfl
    rw [hlate]
    exact ⟨Nat.zero_le 1, Nat.lt_succ_self 2⟩
  · have hlate := LifoPc.late_of_eq (c := .setShutdown s.head) rfl
    rw [hlate]
    exact ⟨Nat.le_refl 1, Nat.lt_succ_of_lt (Nat.lt_succ_self 1)⟩

end LifoSem

variable [Fintype ι]

/-- **A step that writes nothing** uses some up. -/
theorem Kept.reads_work (hK : Kept s lot ws) (hr : s.reads (s.pc p) = some a) (m : ℕ) :
    (s.goto p a).work m < s.work m := by
  have hk := hK.knows p
  unfold LifoSem.reads at hr
  suffices h : a.swaps ≤ (s.pc p).swaps ∧
      a.steps + a.late s.head < (s.pc p).steps + (s.pc p).late s.head from
    LifoSem.work_lt_of_own (p := p) (a := a) rfl rfl h.1 h.2
  cases hpc : s.pc p with
  | incrOrPop n =>
    rw [hpc] at hr
    cases hr
    rw [LifoPc.late_of_none (c := .incrOrPop n) rfl]
    split <;> rw [LifoPc.late_of_eq rfl] <;> exact ⟨le_rfl, by simp [LifoPc.steps]⟩
  | popNext n h since =>
    rw [hpc] at hr
    cases hr
    rw [LifoPc.late_congr s.head (a := .pop ..) (c := .popNext n h since) rfl]
    exact ⟨le_rfl, Nat.add_lt_add_right (by simp [LifoPc.steps]) _⟩
  | pop n h next since =>
    rw [hpc] at hr
    obtain ⟨hne, hr⟩ := Option.ite_none_left_eq_some.1 hr
    cases hr
    rw [LifoPc.late_of_none (c := .incrOrPop n) rfl, LifoPc.late_of_ne rfl hne]
    exact ⟨le_rfl, by simp [LifoPc.steps]⟩
  | incr n h =>
    rw [hpc] at hr
    obtain ⟨hne, hr⟩ := Option.ite_none_left_eq_some.1 hr
    cases hr
    rw [LifoPc.late_of_none (c := .incrOrPop n) rfl, LifoPc.late_of_ne rfl hne]
    exact ⟨le_rfl, by simp [LifoPc.steps]⟩
  | decrOrPush waits n i =>
    rw [hpc] at hr hk
    replace hr := Option.some.inj hr
    obtain ⟨-, hi⟩ := hk
    rw [LifoPc.late_of_none (c := .decrOrPush waits n i) rfl]
    split at hr
    · subst hr
      rw [LifoPc.late_of_eq rfl]
      refine ⟨le_rfl, ?_⟩
      unfold LifoPc.steps
      dsimp only
      split <;> omega
    · split at hr
      · next hi0 =>
        subst hi0
        cases waits with
        | true =>
          subst hr
          exact ⟨le_rfl, by simp [LifoPc.steps, LifoPc.late, LifoPc.head?]⟩
        | false =>
          subst hr
          exact ⟨Nat.zero_le _, by simp [LifoPc.steps, LifoPc.late, LifoPc.head?]⟩
      · next hi0 =>
        have hsteps : (LifoPc.decrOrPush waits n i).steps = 3 := if_neg hi0
        have hwaits : waits = true := by
          by_contra hw
          exact hi0 (hi (by simpa using hw))
        rw [hsteps, hwaits]
        split at hr
        · subst hr
          exact ⟨Nat.zero_le _, by simp [LifoPc.steps, LifoPc.late, LifoPc.head?]⟩
        · subst hr
          rw [LifoPc.late_of_eq rfl]
          exact ⟨le_rfl, by simp [LifoPc.steps]⟩
  | decr waits n i h =>
    rw [hpc] at hr
    obtain ⟨hne, hr⟩ := Option.ite_none_left_eq_some.1 hr
    cases hr
    rw [LifoPc.late_of_none (c := .decrOrPush waits n i) rfl, LifoPc.late_of_ne rfl hne]
    refine ⟨le_rfl, ?_⟩
    unfold LifoPc.steps
    dsimp only
    split <;> omega
  | push i h =>
    rw [hpc] at hr
    obtain ⟨hne, hr⟩ := Option.ite_none_left_eq_some.1 hr
    cases hr
    rw [LifoPc.late_of_none (c := .decrOrPush true 1 i) rfl, LifoPc.late_of_ne rfl hne]
    refine ⟨le_rfl, ?_⟩
    unfold LifoPc.steps
    dsimp only
    split <;> omega
  | wait i =>
    rw [hpc] at hr
    obtain ⟨-, hr⟩ := Option.ite_none_right_eq_some.1 hr
    cases hr
    exact ⟨le_rfl, by simp [LifoPc.steps, LifoPc.late, LifoPc.head?]⟩
  | woken i =>
    rw [hpc] at hr
    obtain ⟨-, hr⟩ := Option.ite_none_right_eq_some.1 hr
    cases hr
    exact ⟨le_rfl, by simp [LifoPc.steps, LifoPc.late, LifoPc.head?]⟩
  | refused i =>
    rw [hpc] at hr
    cases hr
    exact ⟨le_rfl, by simp [LifoPc.steps, LifoPc.late, LifoPc.head?]⟩
  | shutdown =>
    rw [hpc] at hr
    cases hr
    have hsteps : LifoPc.shutdown.steps = 3 := rfl
    obtain ⟨hswaps, hlt⟩ := s.afterLoad_work
    refine ⟨hswaps, ?_⟩
    omega
  | setShutdown h =>
    rw [hpc] at hr
    obtain ⟨hne, hr⟩ := Option.ite_none_left_eq_some.1 hr
    cases hr
    have hlate := LifoPc.late_of_ne (c := .setShutdown h) rfl hne
    obtain ⟨hswaps, hlt⟩ := s.afterLoad_work
    refine ⟨hswaps, ?_⟩
    omega
  | wake h since =>
    rw [hpc] at hr
    obtain ⟨-, hr⟩ := Option.ite_none_right_eq_some.1 hr
    cases hr
    rw [LifoPc.late_congr s.head (a := .wakePop ..) (c := .wake h since) rfl]
    exact ⟨le_rfl, Nat.add_lt_add_right (by simp [LifoPc.steps]) _⟩
  | wakePop h next since =>
    rw [hpc] at hr
    obtain ⟨hne, hr⟩ := Option.ite_none_left_eq_some.1 hr
    cases hr
    rw [LifoPc.late_of_ne (c := .wakePop h next since) rfl hne, LifoPc.late_of_eq rfl]
    exact ⟨le_rfl, by simp [LifoPc.steps]⟩
  | _ =>
    rw [hpc] at hr
    cases hr

/-- **And so does a step that writes.** -/
theorem Kept.writes_work (hK : Kept s lot ws) (hlate : (s.pc p).InTime s.ticks)
    (hw : s.writes p idx (s.pc p) = some t) :
    t.work ((s.pc p).stack ws).length < s.work ws.length := by
  have hk := hK.knows p
  unfold LifoSem.writes at hw
  cases hpc : s.pc p with
  | pop n h next since =>
    rw [hpc] at hw hk hlate
    obtain ⟨rfl, hw⟩ := Option.ite_none_right_eq_some.1 hw
    obtain rfl := Option.some.inj hw
    obtain ⟨o, ws', rfl, -⟩ := hK.top hk.2.1.isNodeIdx
    refine LifoSem.work_owe_lt _ ?_
    rw [hpc]
    change n.toNat - 1 + ws'.length < n.toNat + (ws'.length + 1)
    omega
  | incr n h =>
    rw [hpc] at hw hk
    obtain ⟨rfl, hw⟩ := Option.ite_none_right_eq_some.1 hw
    obtain rfl := Option.some.inj hw
    have hpos := LifoSemHead.toNat_pos hk.1
    refine LifoSem.work_incr_lt _ _ ?_
    rw [hpc]
    change ws.length < n.toNat + ws.length
    omega
  | handOff n i =>
    rw [hpc] at hw hk
    obtain rfl := Option.some.inj hw
    have hpos := LifoSemHead.toNat_pos hk
    refine LifoSem.work_lt_of_own rfl rfl (p := p)
      (a := if n = 1 then .idle else .incrOrPop (n - 1)) ?_ ?_
    · rw [hpc]
      split
      · exact Nat.zero_le _
      · change (n - 1).toNat ≤ n.toNat - 1
        rw [BitVec.toNat_sub_of_le hpos]
        exact le_rfl
    · rw [hpc]
      split <;> simp [LifoPc.steps, LifoPc.late, LifoPc.head?]
  | decr waits n i h =>
    rw [hpc] at hw hk
    obtain ⟨rfl, hw⟩ := Option.ite_none_right_eq_some.1 hw
    obtain rfl := Option.some.inj hw
    obtain ⟨hn, hi, hnode, hdata⟩ := hk
    have hpos := LifoSemHead.delta_pos hn hdata
    refine LifoSem.work_decr_lt _ _ ?_ ?_ ?_
    · split
      · split <;> rfl
      · split <;> rfl
    · split
      · split
        · exact Nat.zero_le 5
        · exact Nat.le_add_right 1 4
      · split
        · exact Nat.zero_le 5
        · exact le_rfl
    · rw [hpc]
      refine Nat.add_lt_add_right ?_ ws.length
      cases waits with
      | true =>
        rw [if_pos rfl]
        split <;> exact Nat.zero_lt_two
      | false =>
        rw [if_neg (by decide)]
        have hlt : (n - s.head.delta n).toNat < n.toNat := by
          rw [BitVec.toNat_sub_of_le (s.head.delta_le_self n)]
          have := LifoSemHead.toNat_pos hn
          omega
        split
        · exact LifoSemHead.toNat_pos hn
        · exact hlt
  | allocateNode =>
    rw [hpc] at hw
    obtain ⟨⟨h0, -, -⟩, hw⟩ := Option.ite_none_right_eq_some.1 hw
    obtain rfl := Option.some.inj hw
    have hsteps : (LifoPc.decrOrPush true 1 idx).steps = 3 := if_neg h0
    refine LifoSem.work_lt_of_own rfl rfl (p := p) (a := .decrOrPush true 1 idx) ?_ ?_
    · rw [hpc]
      exact le_rfl
    · rw [hpc, hsteps]
      simp [LifoPc.steps, LifoPc.late, LifoPc.head?]
  | link i h =>
    rw [hpc] at hw
    obtain rfl := Option.some.inj hw
    refine LifoSem.work_lt_of_own rfl rfl (p := p) (a := .push i h) ?_ ?_
    · rw [hpc]
      exact le_rfl
    · rw [hpc, LifoPc.late_congr s.head (a := .push i h) (c := .link i h) rfl]
      exact Nat.add_lt_add_right (by simp [LifoPc.steps]) _
  | push i h =>
    rw [hpc] at hw
    obtain ⟨rfl, hw⟩ := Option.ite_none_right_eq_some.1 hw
    obtain rfl := Option.some.inj hw
    refine LifoSem.work_push_lt _ ?_
    rw [hpc]
    change 0 + (ws.length + 1) < 2 + ws.length
    omega
  | woken i =>
    rw [hpc] at hw
    obtain rfl := Option.some.inj hw
    refine LifoSem.work_lt_of_own rfl rfl (p := p) (a := .recycle i) ?_ ?_
    · exact Nat.zero_le _
    · rw [hpc]
      simp [LifoPc.steps, LifoPc.late, LifoPc.head?]
  | recycle i =>
    rw [hpc] at hw
    obtain rfl := Option.some.inj hw
    refine LifoSem.work_lt_of_own rfl rfl (p := p) (a := .idle) ?_ ?_
    · exact Nat.zero_le _
    · rw [hpc]
      simp [LifoPc.steps, LifoPc.late, LifoPc.head?]
  | setShutdown h =>
    rw [hpc] at hw
    obtain ⟨rfl, hw⟩ := Option.ite_none_right_eq_some.1 hw
    obtain rfl := Option.some.inj hw
    refine LifoSem.work_shut_lt _ _ ?_
    rw [hpc]
    exact Nat.add_lt_add_right Nat.zero_lt_one _
  | wake h since =>
    rw [hpc] at hw
    obtain rfl := Option.some.inj hw
    refine LifoSem.work_lt_of_own rfl rfl (p := p) (a := .idle) ?_ ?_
    · exact Nat.zero_le _
    · rw [hpc]
      exact Nat.add_pos_left (by simp [LifoPc.steps]) _
  | wakePop h next since =>
    rw [hpc] at hw hk
    obtain ⟨rfl, hw⟩ := Option.ite_none_right_eq_some.1 hw
    obtain rfl := Option.some.inj hw
    obtain ⟨o, ws', rfl, -⟩ := hK.top hk.2.1.isNodeIdx
    refine LifoSem.work_wakePop_lt _ _ ?_
    rw [hpc]
    change 0 + ws'.length < 0 + (ws'.length + 1)
    omega
  | notice i h since =>
    rw [hpc] at hw
    obtain rfl := Option.some.inj hw
    refine LifoSem.work_lt_of_own rfl rfl (p := p) (a := .wakePost i h since) ?_ ?_
    · exact Nat.zero_le _
    · rw [hpc, LifoPc.late_congr s.head (a := .wakePost i h since) (c := .notice i h since) rfl]
      exact Nat.add_lt_add_right (by simp [LifoPc.steps]) _
  | wakePost i h since =>
    rw [hpc] at hw
    obtain rfl := Option.some.inj hw
    refine LifoSem.work_lt_of_own rfl rfl (p := p) (a := .wake h since) ?_ ?_
    · exact Nat.zero_le _
    · rw [hpc, LifoPc.late_congr s.head (a := .wake h since) (c := .wakePost i h since) rfl]
      exact Nat.add_lt_add_right (by simp [LifoPc.steps]) _
  | _ =>
    rw [hpc] at hw
    cases hw

/-- A thread goes on. -/
theorem Kept.work_lt (hK : Kept s lot ws) (hlate : (s.pc p).InTime s.ticks)
    (h : s.advance p idx = some t) :
    ∃ lot' ws', Kept t lot' ws' ∧ t.work ws'.length < s.work ws.length := by
  unfold LifoSem.advance at h
  obtain ⟨u, hu, rfl⟩ := Option.map_eq_some_iff.1 h
  have hone : ∃ lot' ws', Kept u lot' ws' ∧ u.work ws'.length < s.work ws.length := by
    cases hr : s.reads (s.pc p) with
    | some c =>
      rw [hr] at hu
      cases hu
      obtain ⟨lot', hK'⟩ := hK.reads hr
      exact ⟨lot', ws, hK', hK.reads_work hr _⟩
    | none =>
      rw [hr] at hu
      obtain ⟨⟨lot', hK'⟩, -⟩ := hK.writes hlate hr hu
      exact ⟨lot', _, hK', hK.writes_work hlate hu⟩
  obtain ⟨lot', ws', hK', hlt⟩ := hone
  exact ⟨lot', ws', hK'.history _ hK'.down, hlt⟩

/-- Threads that are left alone. -/
theorem Kept.length_le {more : List (LifoAct ι)} (hK : Kept s lot ws)
    (hC : (lifoSem ι).Along LifoSem.InTime s more)
    (hnext : ∀ a ∈ more, ∃ p idx, a = LifoAct.next p idx)
    (hrun : (lifoSem ι).run s more = some t) : more.length ≤ s.work ws.length := by
  induction more generalizing s lot ws with
  | nil => exact Nat.zero_le _
  | cons a more ih =>
    obtain ⟨u, hu, hrest⟩ := Machine.exists_step_of_run_cons (lifoSem ι) hrun
    obtain ⟨p, idx, rfl⟩ := hnext a List.mem_cons_self
    obtain ⟨lot', ws', hK', hlt⟩ := hK.work_lt hC.1 hu
    have hle := ih hK' (hC.2 u hu) (fun b hb => hnext b (List.mem_cons_of_mem _ hb)) hrest
    rw [List.length_cons]
    omega

namespace LifoSem

/-- **They come to rest.** From any state that is reached, threads that begin
no further call take no more steps than `work` says, of which the waiters in
the stack are a part, however they take turns and whatever swaps fail. -/
theorem comes_to_rest {acts more : List (LifoAct ι)}
    (hrun : (lifoSem ι).run (.init v nexts) acts = some s)
    (hC : (lifoSem ι).Along InTime (.init v nexts) acts)
    (hmore : (lifoSem ι).run s more = some t) (hC' : (lifoSem ι).Along InTime s more)
    (hnext : ∀ a ∈ more, ∃ p idx, a = LifoAct.next p idx) :
    ∃ ws, Threaded (fun i => (s.node i).next) 0 s.head.first ws ∧
      more.length ≤ s.work ws.length := by
  obtain ⟨bs, m, hm, ⟨lot, ws, hK, -⟩, -⟩ := kept_of_run hrun hC
  exact ⟨ws, hK.threaded, hK.length_le hC' hnext hmore⟩

theorem comes_to_rest_twice :
    ∃ s t, (lifoSem Bool).run (.init 0 fun _ => 0) (waitTwice.take 7) = some s ∧
      (lifoSem Bool).run s ((waitTwice.drop 7).take 7) = some t ∧
      ∃ ws, Threaded (fun i => (s.node i).next) 0 s.head.first ws ∧ 7 ≤ s.work ws.length := by
  have hend : (((lifoSem Bool).run (.init 0 fun _ => 0) (waitTwice.take 7)).bind fun s =>
      if (lifoSem Bool).Along InTime s ((waitTwice.drop 7).take 7) then
        (lifoSem Bool).run s ((waitTwice.drop 7).take 7) else none).isSome = true := by
    decide +kernel
  obtain ⟨t, ht⟩ := Option.isSome_iff_exists.1 hend
  obtain ⟨s, hrun, hs⟩ := Option.bind_eq_some_iff.1 ht
  obtain ⟨hC', hmore⟩ := Option.ite_none_right_eq_some.1 hs
  have hC : (lifoSem Bool).Along InTime (.init 0 fun _ => 0) (waitTwice.take 7) := by
    decide +kernel
  exact ⟨s, t, hrun, hmore, comes_to_rest hrun hC hmore hC' (by simp [waitTwice])⟩

end LifoSem

end Contentious.Pool
