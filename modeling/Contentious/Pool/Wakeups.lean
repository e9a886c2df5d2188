import Contentious.Pool.Semaphore

/-!
# Pool — wakeups

What a run of the semaphore comes to, however the threads take turns: it is
a run of the semaphore that does everything at one stroke
(`follows_semaphore`), nothing that the code asserts ever fails
(`never_fails`), no unit is lost or made up (`units_conserved`), and where
all have come to rest nobody waits while there is a unit, nor after a
`shutdown` (`rests_served`).

All of it is of runs in which no thread swaps with what it has read `2 ^ 30`
changes ago (`InTime`), so that the count in the word tells the states apart.
-/

namespace Contentious.Pool

variable {ι : Type} [DecidableEq ι] {s t : LifoSem ι} {lot : BitVec 32 → Option (ι × Lot ι)}
variable {ws : List (BitVec 32)} {idx i v : BitVec 32} {nexts : BitVec 32 → BitVec 32}
variable {p : ι} {c : LifoPc}

/-! ## What is asked of a run -/

/-- A swap that relies on the count comes before it is around. -/
def LifoPc.InTime (ticks : ℕ) : LifoPc → Prop
  | .pop _ _ _ since => ticks < since + 2 ^ 30
  | .wakePop _ _ since => ticks < since + 2 ^ 30
  | _ => True

instance (ticks : ℕ) : DecidablePred (LifoPc.InTime ticks)
  | .pop _ _ _ since => inferInstanceAs (Decidable (ticks < since + 2 ^ 30))
  | .wakePop _ _ since => inferInstanceAs (Decidable (ticks < since + 2 ^ 30))
  | .idle | .incrOrPop _ | .popNext _ _ _ | .incr _ _ | .handOff _ _ | .decrOrPush _ _ _
  | .decr _ _ _ _ | .allocateNode | .link _ _ | .push _ _ | .wait _ | .woken _ | .refused _
  | .recycle _ | .shutdown | .setShutdown _ | .wake _ _ | .notice _ _ _
  | .wakePost _ _ _ => isTrue trivial

/-- The condition on a step. -/
def LifoSem.InTime (s : LifoSem ι) : LifoAct ι → Prop
  | .next p _ => (s.pc p).InTime s.ticks
  | _ => True

instance (s : LifoSem ι) : DecidablePred s.InTime
  | .next p _ => inferInstanceAs (Decidable ((s.pc p).InTime s.ticks))
  | .post _ _ | .tryWait _ _ | .wait _ | .shutdown _ | .other _ _ => isTrue trivial

/-- Who may have a fresh node has no other part. -/
theorem role_ne_of_fresh {d : Duty} {j : BitVec 32} (hd : d ≠ .fresh) :
    (if j = 0 then none else some (Duty.fresh, j)) ≠ some (d, i) := by
  split
  · exact fun h => by cases h
  · exact fun h => by cases h; exact hd rfl

/-- Where a thread is that waits, -/
theorem eq_wait_of_role (h : c.role = some (.waits, i)) : c = .wait i := by
  cases c with
  | wait j =>
    cases h
    rfl
  | decrOrPush waits n j => exact absurd h (role_ne_of_fresh (by decide))
  | decr waits n j h' => exact absurd h (role_ne_of_fresh (by decide))
  | _ => cases h

/-- and one that was woken. -/
theorem eq_woken_of_role (h : c.role = some (.woken, i)) : c = .woken i := by
  cases c with
  | woken j =>
    cases h
    rfl
  | decrOrPush waits n j => exact absurd h (role_ne_of_fresh (by decide))
  | decr waits n j h' => exact absurd h (role_ne_of_fresh (by decide))
  | _ => cases h

/-! ## One step -/

/-- The waiters in the stack, when a thread there has written. -/
def LifoPc.stack (ws : List (BitVec 32)) : LifoPc → List (BitVec 32)
  | .pop _ _ _ _ => ws.tail
  | .push i _ => i :: ws
  | .wakePop _ _ _ => ws.tail
  | _ => ws

/-- **A step that writes.** -/
theorem Kept.writes (hK : Kept s lot ws) (hlate : (s.pc p).InTime s.ticks)
    (hr : s.reads (s.pc p) = none) (hw : s.writes p idx (s.pc p) = some t) :
    s.Leads t ws ((s.pc p).stack ws) := by
  unfold LifoSem.writes at hw
  unfold LifoSem.reads at hr
  cases hpc : s.pc p with
  | pop n h next since =>
    rw [hpc] at hw hlate
    obtain ⟨rfl, hw⟩ := Option.ite_none_right_eq_some.1 hw
    cases hw
    exact hK.pop_step hpc hlate
  | incr n h =>
    rw [hpc] at hw
    obtain ⟨rfl, hw⟩ := Option.ite_none_right_eq_some.1 hw
    cases hw
    exact hK.incr_step hpc
  | handOff n i =>
    rw [hpc] at hw
    cases hw
    exact hK.handOff_step hpc
  | decr waits n i h =>
    rw [hpc] at hw
    obtain ⟨rfl, hw⟩ := Option.ite_none_right_eq_some.1 hw
    obtain rfl := Option.some.inj hw
    exact hK.decr_step hpc
  | allocateNode =>
    rw [hpc] at hw
    obtain ⟨⟨h0, h1, hfree⟩, hw⟩ := Option.ite_none_right_eq_some.1 hw
    cases hw
    exact hK.allocateNode_step hpc h0 h1 hfree
  | link i h =>
    rw [hpc] at hw
    cases hw
    exact hK.link_step hpc
  | push i h =>
    rw [hpc] at hw
    obtain ⟨rfl, hw⟩ := Option.ite_none_right_eq_some.1 hw
    cases hw
    exact hK.push_step hpc
  | woken i =>
    rw [hpc] at hw hr
    cases hw
    refine hK.woken_step hpc fun hnext => ?_
    dsimp only at hr
    rw [if_pos hnext] at hr
    cases hr
  | recycle i =>
    rw [hpc] at hw
    cases hw
    exact hK.recycle_step hpc
  | setShutdown h =>
    rw [hpc] at hw
    obtain ⟨rfl, hw⟩ := Option.ite_none_right_eq_some.1 hw
    cases hw
    obtain ⟨hnode, hdata, hshut, hseq⟩ := s.head.withShutdown_spec
    exact hK.shut_step hnode hdata hshut hseq (by rw [hpc]; rfl)
  | wake h since =>
    rw [hpc] at hw hr
    cases hw
    refine hK.returned_step hpc ?_
    by_contra hnode
    dsimp only at hr
    rw [if_pos (by simpa using hnode)] at hr
    cases hr
  | wakePop h next since =>
    rw [hpc] at hw hlate
    obtain ⟨rfl, hw⟩ := Option.ite_none_right_eq_some.1 hw
    cases hw
    exact hK.wakePop_step hpc hlate
  | notice i h since =>
    rw [hpc] at hw
    cases hw
    exact hK.notice_step hpc
  | wakePost i h since =>
    rw [hpc] at hw
    cases hw
    exact hK.wakePost_step hpc
  | _ =>
    rw [hpc] at hw
    cases hw

/-- A thread goes on. -/
theorem Kept.advance (hK : Kept s lot ws) (hlate : (s.pc p).InTime s.ticks)
    (h : s.advance p idx = some t) :
    ∃ lot' ws', Kept t lot' ws' ∧ s.Follows t ws ws' ∧ t.failed = s.failed := by
  unfold LifoSem.advance at h
  obtain ⟨u, hu, rfl⟩ := Option.map_eq_some_iff.1 h
  have hone : ∃ lot' ws', Kept u lot' ws' ∧ s.Follows u ws ws' := by
    cases hr : s.reads (s.pc p) with
    | some c =>
      rw [hr] at hu
      cases hu
      obtain ⟨lot', hK'⟩ := hK.reads hr
      exact ⟨lot', ws, hK', .inl rfl⟩
    | none =>
      rw [hr] at hu
      obtain ⟨⟨lot', hK'⟩, hf⟩ := hK.writes hlate hr hu
      exact ⟨lot', _, hK', hf⟩
  obtain ⟨lot', ws', hK', hf⟩ := hone
  refine ⟨lot', ws', hK'.history _ hK'.down, hf, ?_⟩
  dsimp only
  rw [hK.asserts p, Bool.not_true, Bool.or_false]

/-- A call begins. -/
theorem Kept.calls (hK : Kept s lot ws) (hrole : c.role = none) (hc : c.Knows s ws)
    (h : s.calls p c = some t) :
    ∃ lot' ws', Kept t lot' ws' ∧ s.Follows t ws ws' ∧ t.failed = s.failed := by
  obtain ⟨hidle, h⟩ := Option.ite_none_right_eq_some.1 h
  cases h
  exact ⟨lot, ws, hK.goto (by rw [hidle, hrole]; rfl) hc, .inl rfl, rfl⟩

/-- **One step.** -/
theorem Kept.step {a : LifoAct ι} (hK : Kept s lot ws) (hC : s.InTime a) (h : s.step a = some t) :
    ∃ lot' ws', Kept t lot' ws' ∧ s.Follows t ws ws' ∧ t.failed = s.failed := by
  cases a with
  | post p n =>
    obtain ⟨hn, h⟩ := Option.ite_none_left_eq_some.1 h
    exact hK.calls (c := .incrOrPop n) rfl hn h
  | tryWait p n =>
    obtain ⟨hn, h⟩ := Option.ite_none_left_eq_some.1 h
    exact hK.calls (c := .decrOrPush false n 0) rfl ⟨hn, fun _ => rfl⟩ h
  | wait p =>
    exact hK.calls (c := .decrOrPush true 1 0) rfl ⟨by decide, fun hw => (by cases hw)⟩ h
  | shutdown p => exact hK.calls (c := .shutdown) rfl trivial h
  | next p idx => exact hK.advance hC h
  | other i next =>
    obtain ⟨hfree, h⟩ := Option.ite_none_left_eq_some.1 h
    cases h
    exact ⟨lot, ws, hK.other_step (by simpa using hfree), .inl rfl, rfl⟩

/-! ## Runs -/

omit [DecidableEq ι] in
/-- At the start. -/
theorem kept_init (v : BitVec 32) (nexts : BitVec 32 → BitVec 32) :
    Kept (LifoSem.init v nexts : LifoSem ι) (fun _ => none) [] := by
  obtain ⟨hnode, hdata, -, hseq⟩ := LifoSemHead.fresh_spec v
  exact
    { roles :=
        ⟨fun _ _ _ h => (by cases h), fun _ _ _ h => (by cases h), fun _ _ _ h => (by cases h)⟩
      node := fun _ _ _ h => by cases h
      listed := fun _ => by simp [Listed]
      nodup := List.nodup_nil
      threaded := LifoSemHead.first_of_not hnode
      head := fun h => by
        have h : (LifoSemHead.fresh v).isNodeIdx = true := h
        rw [hnode] at h
        cases h
      seq := hseq
      flying := fun _ => by simp [Flies, LifoSem.init]
      flying_nodup := List.nodup_nil
      units := by
        change v.toNat = (LifoSemHead.fresh v).value.toNat + 0 + 0
        rw [LifoSemHead.value_of_not hnode, hdata, Nat.add_zero]
      down := fun h => by cases h
      knows := fun _ => trivial }

/-- What a run keeps, and what it comes to. -/
theorem kept_of_run {acts : List (LifoAct ι)}
    (hrun : (lifoSem ι).run (.init v nexts) acts = some t)
    (hC : (lifoSem ι).Along LifoSem.InTime (.init v nexts) acts) :
    ∃ bs m, (semaphore (BitVec 32)).run ⟨v.toNat, [], [], false⟩ bs = some m ∧
      (∃ lot ws, Kept t lot ws ∧ m = t.abs ws) ∧ t.failed = false := by
  obtain ⟨hnode, hdata, hshut, -⟩ := LifoSemHead.fresh_spec v
  have hinit : (⟨v.toNat, [], [], false⟩ : Semaphore (BitVec 32)) =
      (LifoSem.init v nexts : LifoSem ι).abs [] := by
    change _ = Semaphore.mk (LifoSemHead.fresh v).value.toNat [] []
      (LifoSemHead.fresh v).isShutdown
    rw [LifoSemHead.value_of_not hnode, hdata, hshut]
  have hstep : ∀ (s : LifoSem ι) a s' m,
      ((∃ lot ws, Kept s lot ws ∧ m = s.abs ws) ∧ s.failed = false) → s.InTime a →
      (lifoSem ι).step s a = some s' →
      ((∃ lot ws, Kept s' lot ws ∧ m = s'.abs ws) ∧ s'.failed = false) ∨
        ∃ b m', True ∧ (semaphore (BitVec 32)).step m b = some m' ∧
          ((∃ lot ws, Kept s' lot ws ∧ m' = s'.abs ws) ∧ s'.failed = false) := by
    rintro s a s' m ⟨⟨lot, ws, hK, rfl⟩, hfailed⟩ hC hst
    obtain ⟨lot', ws', hK', hf, hsame⟩ := hK.step hC hst
    rw [hfailed] at hsame
    rcases hf with hf | ⟨b, hb⟩
    · exact .inl ⟨⟨lot', ws', hK', hf.symm⟩, hsame⟩
    · exact .inr ⟨b, _, trivial, hb, ⟨lot', ws', hK', rfl⟩, hsame⟩
  obtain ⟨bs, m, hm, -, hR⟩ := Machine.run_stutters_along (D := fun _ _ => True) hstep
    ⟨⟨_, [], kept_init v nexts, hinit⟩, rfl⟩ hC hrun
  exact ⟨bs, m, hm, hR⟩

omit [DecidableEq ι] in
/-- Who waits in the stack. -/
theorem Kept.waits (hK : Kept s lot ws) (hi : i ∈ ws) :
    ∃ p, s.pc p = .wait i ∧ (s.node i).posted = false := by
  obtain ⟨o, ho⟩ := (hK.listed i).1 hi
  have hrole : (s.pc o).role = some (.waits, i) := hK.roles.fits i o _ ho
  obtain ⟨-, -, -, hposted⟩ := hK.node i o _ ho
  exact ⟨o, eq_wait_of_role hrole, hposted⟩

namespace LifoSem

/-- **Nothing that is asserted fails**, and no handoff is posted twice, or
without a waiter who has its node. -/
theorem never_fails {acts : List (LifoAct ι)}
    (hrun : (lifoSem ι).run (.init v nexts) acts = some t)
    (hC : (lifoSem ι).Along InTime (.init v nexts) acts) : t.failed = false := by
  obtain ⟨bs, m, hm, -, hfailed⟩ := kept_of_run hrun hC
  exact hfailed

/-- **At one stroke.** What the threads do to the word and to the nodes, in
any order, is a run of the semaphore whose operations are done at one
stroke: the word has its value, and the nodes that are threaded from the
word are those of its waiters, the last one first. -/
theorem follows_semaphore {acts : List (LifoAct ι)}
    (hrun : (lifoSem ι).run (.init v nexts) acts = some t)
    (hC : (lifoSem ι).Along InTime (.init v nexts) acts) :
    ∃ bs m, (semaphore (BitVec 32)).run ⟨v.toNat, [], [], false⟩ bs = some m ∧
      m.value = t.head.value.toNat ∧ m.closed = t.head.isShutdown ∧ m.owed = t.flying ∧
      Threaded (fun i => (t.node i).next) 0 t.head.first m.waiters ∧ m.waiters.Nodup ∧
      ∀ i ∈ m.waiters, ∃ p, t.pc p = .wait i ∧ (t.node i).posted = false := by
  obtain ⟨bs, m, hm, ⟨lot, ws, hK, rfl⟩, -⟩ := kept_of_run hrun hC
  exact ⟨bs, _, hm, rfl, rfl, rfl, hK.threaded, hK.nodup, fun i hi => hK.waits hi⟩

/-- **No unit is lost or made up.** What was posted is in the word, or was
taken, or was handed to a waiter who has not gone on; and no waiter was
handed two. -/
theorem units_conserved {acts : List (LifoAct ι)}
    (hrun : (lifoSem ι).run (.init v nexts) acts = some t)
    (hC : (lifoSem ι).Along InTime (.init v nexts) acts) :
    t.posted = t.head.value.toNat + t.taken + t.flying.length ∧ t.flying.Nodup ∧
      ∀ i ∈ t.flying, ∃ p, t.pc p = .wait i ∨ t.pc p = .woken i := by
  obtain ⟨bs, m, hm, ⟨lot, ws, hK, rfl⟩, -⟩ := kept_of_run hrun hC
  refine ⟨hK.units, hK.flying_nodup, fun i hi => ?_⟩
  obtain ⟨o, g, ho, hfly⟩ := (hK.flying i).1 hi
  have hfits := hK.roles.fits i o g ho
  cases g with
  | given q => exact ⟨o, .inl (eq_wait_of_role hfits.1)⟩
  | handed => exact ⟨o, hfits.imp eq_wait_of_role eq_woken_of_role⟩
  | _ => cases hfly

/-- A swap that fails is a step as well. -/
theorem swap_enabled {α β : Type} {P : Prop} [Decidable P] {a : α} {b : β}
    (hr : (if P then none else some a) = none) (hw : (if P then some b else none) = none) :
    False := by
  split at hr
  · next hP =>
    rw [if_pos hP] at hw
    cases hw
  · cases hr

/-- Where a thread is that cannot go on, though a node is left. -/
theorem blocked (hfree : ∃ idx : BitVec 32, idx ≠ 0 ∧ idx ≠ -1 ∧ (s.node idx).used = false)
    (hrest : ∀ idx, s.advance p idx = none) :
    s.pc p = .idle ∨ ∃ i, s.pc p = .wait i ∧ (s.node i).posted = false := by
  have hnone : ∀ idx, s.reads (s.pc p) = none ∧ s.writes p idx (s.pc p) = none := by
    intro idx
    have h := Option.map_eq_none_iff.1 (hrest idx)
    rw [Option.or_eq_none_iff, Option.map_eq_none_iff] at h
    exact h
  obtain ⟨idx, h0, h1, hused⟩ := hfree
  obtain ⟨hr, hw⟩ := hnone idx
  unfold reads at hr
  unfold writes at hw
  cases hpc : s.pc p with
  | idle => exact .inl rfl
  | wait i =>
    rw [hpc] at hr
    refine .inr ⟨i, rfl, ?_⟩
    by_contra hposted
    dsimp only at hr
    rw [if_pos (by simpa using hposted)] at hr
    cases hr
  | allocateNode =>
    rw [hpc] at hw
    dsimp only at hw
    rw [if_pos ⟨h0, h1, hused⟩] at hw
    cases hw
  | pop n h next since =>
    rw [hpc] at hr hw
    exact (swap_enabled hr hw).elim
  | incr n h =>
    rw [hpc] at hr hw
    exact (swap_enabled hr hw).elim
  | decr waits n i h =>
    rw [hpc] at hr hw
    exact (swap_enabled hr hw).elim
  | push i h =>
    rw [hpc] at hr hw
    exact (swap_enabled hr hw).elim
  | setShutdown h =>
    rw [hpc] at hr hw
    exact (swap_enabled hr hw).elim
  | wakePop h next since =>
    rw [hpc] at hr hw
    exact (swap_enabled hr hw).elim
  | _ =>
    rw [hpc] at hr hw
    first
    | exact absurd hr (Option.some_ne_none _)
    | exact absurd hw (Option.some_ne_none _)

/-- and that such a thread cannot go on. -/
theorem advance_of_blocked
    (h : s.pc p = .idle ∨ ∃ i, s.pc p = .wait i ∧ (s.node i).posted = false) (idx : BitVec 32) :
    s.advance p idx = none := by
  unfold advance reads writes
  rcases h with h | ⟨i, h, hposted⟩
  · rw [h]
    rfl
  · rw [h]
    dsimp only
    rw [hposted]
    rfl

/-- **No wakeup is lost.** Where no thread can go on, and a node is left for
those who come, every thread is outside the semaphore or waits with a node
of the stack, which the word and the `next` fields thread; then there is no
unit for it, all that were posted having been taken, and no `shutdown` has
returned. -/
theorem rests_served {acts : List (LifoAct ι)}
    (hrun : (lifoSem ι).run (.init v nexts) acts = some t)
    (hC : (lifoSem ι).Along InTime (.init v nexts) acts)
    (hfree : ∃ idx : BitVec 32, idx ≠ 0 ∧ idx ≠ -1 ∧ (t.node idx).used = false)
    (hrest : ∀ p idx, (lifoSem ι).step t (.next p idx) = none) :
    t.posted = t.head.value.toNat + t.taken ∧
      ∃ ws, Threaded (fun i => (t.node i).next) 0 t.head.first ws ∧
        ∀ p, t.pc p = .idle ∨
          (∃ i ∈ ws, t.pc p = .wait i) ∧ t.posted = t.taken ∧ t.down = false := by
  obtain ⟨bs, m, hm, ⟨lot, ws, hK, rfl⟩, -⟩ := kept_of_run hrun hC
  have hblocked := fun p => blocked hfree (hrest p)
  -- nobody is about to post a node
  have hgiven : ∀ i o g, lot i = some (o, g) → g.by = none := by
    intro i o g ho
    by_contra hne
    obtain ⟨q, hq⟩ := Option.ne_none_iff_exists'.1 hne
    have hfits := hK.roles.fits i o g ho
    cases g with
    | given q' =>
      have hrole : (t.pc q').role = some (.gives, i) := hfits.2
      rcases hblocked q' with h | ⟨j, h, -⟩ <;> rw [h] at hrole <;> cases hrole
    | told q' =>
      have hrole : (t.pc q').role = some (.tells, i) := hfits.2
      rcases hblocked q' with h | ⟨j, h, -⟩ <;> rw [h] at hrole <;> cases hrole
    | _ => cases hq
  -- and nobody has a unit and has not gone on
  have hflying : t.flying = [] := by
    refine List.eq_nil_iff_forall_not_mem.2 fun i hi => ?_
    obtain ⟨o, g, ho, hfly⟩ := (hK.flying i).1 hi
    have hby := hgiven i o g ho
    cases g with
    | given q => cases hby
    | handed =>
      obtain ⟨-, -, -, hposted, -⟩ := hK.node i o _ ho
      have hfits : (t.pc o).role = some (.waits, i) ∨ (t.pc o).role = some (.woken, i) :=
        hK.roles.fits i o _ ho
      rcases hblocked o with h | ⟨j, h, hnot⟩
      · rw [h] at hfits
        rcases hfits with hf | hf <;> cases hf
      · rw [h] at hfits
        rcases hfits with hf | hf
        · cases hf
          rw [hposted] at hnot
          cases hnot
        · cases hf
    | _ => cases hfly
  have hunits := hK.units
  rw [hflying, List.length_nil, Nat.add_zero] at hunits
  refine ⟨hunits, ws, hK.threaded, fun p => (hblocked p).imp_right ?_⟩
  rintro ⟨i, hpc, hposted⟩
  obtain ⟨g, hlot⟩ := hK.roles.owns p .waits i (by rw [hpc]; rfl) rfl
  have hby := hgiven i p g hlot
  obtain ⟨-, -, -, hnode⟩ := hK.node i p g hlot
  have hfits := hK.roles.fits i p g hlot
  have hlisted : g = .listed := by
    cases g <;> simp_all [Lot.Node, Lot.Fits, Lot.by, LifoPc.role]
  subst hlisted
  have hi : i ∈ ws := (hK.listed i).2 ⟨p, hlot⟩
  refine ⟨⟨i, hi, hpc⟩, ?_, ?_⟩
  · have hnode : t.head.isNodeIdx = true := by
      by_contra hn
      rw [hK.nil_of (by simpa using hn)] at hi
      cases hi
    rw [LifoSemHead.value_of_node hnode] at hunits
    rw [hunits]
    exact Nat.zero_add _
  · by_contra hd
    rw [(hK.down (by simpa using hd)).2] at hi
    cases hi

/-- One thread waits, another posts, and the first waits again. -/
def waitTwice : List (LifoAct Bool) :=
  List.flatten
    [[.wait false], List.replicate 5 (.next false 1), [.post true 1],
      List.replicate 4 (.next true 0), List.replicate 3 (.next false 0), [.wait false],
      List.replicate 5 (.next false 1)]

theorem waitTwice_inTime :
    (lifoSem Bool).Along InTime (.init 0 fun _ => 0) waitTwice := by decide +kernel

theorem waitTwice_run :
    ∃ t, (lifoSem Bool).run (.init 0 fun _ => 0) waitTwice = some t ∧ t.pc false = .wait 1 ∧
      t.pc true = .idle ∧ (t.node 1).posted = false ∧ (t.node 2).used = false ∧ t.posted = 1 := by
  have hend : ((lifoSem Bool).run (.init 0 fun _ => 0) waitTwice).map (fun t =>
      (t.pc false, t.pc true, (t.node 1).posted, (t.node 2).used, t.posted)) =
      some (.wait 1, .idle, false, false, 1) := by decide +kernel
  obtain ⟨t, hrun, ht⟩ := Option.map_eq_some_iff.1 hend
  simp only [Prod.mk.injEq] at ht
  exact ⟨t, hrun, ht⟩

theorem never_fails_twice :
    ∃ t, (lifoSem Bool).run (.init 0 fun _ => 0) waitTwice = some t ∧ t.posted = 1 ∧
      t.failed = false := by
  obtain ⟨t, hrun, -, -, -, -, hposted⟩ := waitTwice_run
  exact ⟨t, hrun, hposted, never_fails hrun waitTwice_inTime⟩

theorem follows_semaphore_twice :
    ∃ t bs m, (lifoSem Bool).run (.init 0 fun _ => 0) waitTwice = some t ∧
      (semaphore (BitVec 32)).run ⟨0, [], [], false⟩ bs = some m ∧
      m.value = t.head.value.toNat := by
  obtain ⟨t, hrun, -⟩ := waitTwice_run
  obtain ⟨bs, m, hm, hvalue, -⟩ := follows_semaphore hrun waitTwice_inTime
  exact ⟨t, bs, m, hrun, hm, hvalue⟩

theorem units_conserved_twice :
    ∃ t, (lifoSem Bool).run (.init 0 fun _ => 0) waitTwice = some t ∧
      1 = t.head.value.toNat + t.taken + t.flying.length := by
  obtain ⟨t, hrun, -, -, -, -, hposted⟩ := waitTwice_run
  exact ⟨t, hrun, hposted ▸ (units_conserved hrun waitTwice_inTime).1⟩

theorem rests_served_twice :
    ∃ t ws, (lifoSem Bool).run (.init 0 fun _ => 0) waitTwice = some t ∧
      Threaded (fun i => (t.node i).next) 0 t.head.first ws ∧ (1 ∈ ws ∧ t.pc false = .wait 1) ∧
      t.taken = 1 := by
  obtain ⟨t, hrun, hwait, hidle, hnot, hfree, hposted⟩ := waitTwice_run
  have hblocked : ∀ p,
      t.pc p = .idle ∨ ∃ i, t.pc p = .wait i ∧ (t.node i).posted = false :=
    Bool.forall_bool.2 ⟨.inr ⟨1, hwait, hnot⟩, .inl hidle⟩
  obtain ⟨-, ws, hws, hrests⟩ := rests_served hrun waitTwice_inTime
    ⟨2, by decide, by decide, hfree⟩ fun p idx => advance_of_blocked (hblocked p) idx
  rcases hrests false with h | ⟨⟨i, hi, h⟩, htaken, -⟩
  · rw [hwait] at h
    cases h
  · rw [hwait] at h
    cases h
    exact ⟨t, ws, hrun, hws, ⟨hi, hwait⟩, htaken.symm.trans hposted⟩

end LifoSem

end Contentious.Pool
