import Contentious.Pool.Model

/-!
# Pool — no stranded work

A worker spends a token on a task, on a resolution, or on nothing: it may
lose the `try_lock`, or look at its queue just before a write. So tokens
and queue lengths are not equal, and what is invariant is weaker. For
tasks: a queue is no longer than the tokens its worker has, or is owed, or
has taken and not yet spent (`Tokens`). For resolutions: while there is
one, some worker has a token or is on its way to look or to post
(`Watched`) — the delicate worker being one that holds the lock and has
seen the queue empty, since the others fail their `try_lock` on it. It was
seen empty before the write, so the write's posts are still to come to
this worker or have left it a token.
-/

namespace Contentious.Pool

variable {n : ℕ} {τ ρ : Type} {s t : State n τ ρ} {p q y : Fin n} {c : Pc ρ}

/-! ## Control -/

/-- The worker holds `rlck`. -/
def Pc.holdsLock : Pc ρ → Prop
  | .checkResns => True
  | .unlock => True
  | .runResn => True
  | .popResn => True
  | .unlockResn => True
  | _ => False

/-- The worker has seen its queue nonempty and not popped since. -/
def Pc.inTask : Pc ρ → Prop
  | .runTask => True
  | .writeResn _ => True
  | .postSubmitr _ => True
  | .popTask => True
  | _ => False

/-- The same, of the resolution queue. -/
def Pc.inResn : Pc ρ → Prop
  | .runResn => True
  | .popResn => True
  | _ => False

/-- **What a worker's place says**: who has the lock, and which queues are
not empty. -/
structure Control (s : State n τ ρ) : Prop where
  lock : ∀ p, s.rlck = some p ↔ (s.pc p).holdsLock
  task : ∀ p, (s.pc p).inTask → s.tasks p ≠ []
  resn : ∀ p, (s.pc p).inResn → s.resns ≠ []

/-- **What a worker's step does to the lock**: nothing, or it takes it free,
or gives it back. -/
theorem Works.rlck (h : Works s p t) :
    (t.rlck = s.rlck ∧ ((t.pc p).holdsLock ↔ (s.pc p).holdsLock)) ∨
      (s.rlck = none ∧ t.rlck = some p ∧ (t.pc p).holdsLock) ∨
      ((s.pc p).holdsLock ∧ t.rlck = none ∧ ¬ (t.pc p).holdsLock) := by
  have hself : ∀ (u : State n τ ρ) (c : Pc ρ), (u.goto p c).pc p = c :=
    fun u c => by rw [State.goto_pc, if_pos rfl]
  cases h with
  | lock hpc hl => exact .inr (.inl ⟨hl, rfl, by rw [hself]; trivial⟩)
  | unlock hpc => exact .inr (.inr ⟨by rw [hpc]; trivial, rfl, by rw [hself]; exact id⟩)
  | unlockResn hpc => exact .inr (.inr ⟨by rw [hpc]; trivial, rfl, by rw [hself]; exact id⟩)
  | _ => exact .inl ⟨rfl, by simp_all [Pc.holdsLock]⟩

namespace Control

/-- Only one worker holds the lock. -/
theorem holder_unique (hC : Control s) (hp : (s.pc p).holdsLock) (hq : (s.pc q).holdsLock) :
    p = q :=
  Option.some.inj (((hC.lock p).2 hp).symm.trans ((hC.lock q).2 hq))

/-- What a worker's step owes: its own place says what is so, and to the
other workers nothing has changed. -/
theorem goto {u : State n τ ρ} (hC : Control s) (hpc : u.pc = s.pc)
    (hlock : ∀ q ≠ p, u.rlck = some q ↔ s.rlck = some q) (hlockp : u.rlck = some p ↔ c.holdsLock)
    (htask : ∀ q ≠ p, u.tasks q = s.tasks q) (htaskp : c.inTask → u.tasks p ≠ [])
    (hresn : ∀ q ≠ p, (s.pc q).inResn → u.resns ≠ []) (hresnp : c.inResn → u.resns ≠ []) :
    Control (u.goto p c) := by
  constructor <;> intro q <;> rw [State.goto_pc, hpc] <;> split
  · next hqp => rw [hqp]; exact hlockp
  · next hqp => exact (hlock q hqp).trans (hC.lock q)
  · next hqp => rw [hqp]; exact htaskp
  · next hqp =>
    intro hin
    rw [State.goto_tasks, htask q hqp]
    exact hC.task q hin
  · exact hresnp
  · next hqp => exact hresn q hqp

/-- A step that leaves the lock and the tasks, and takes no resolution. -/
theorem stay {u : State n τ ρ} (hC : Control s) (hpc : u.pc = s.pc) (hlock : u.rlck = s.rlck)
    (htasks : u.tasks = s.tasks) (hresns : s.resns ≠ [] → u.resns ≠ [])
    (hlockp : (s.pc p).holdsLock ↔ c.holdsLock) (htaskp : c.inTask → s.tasks p ≠ [])
    (hresnp : c.inResn → s.resns ≠ []) : Control (u.goto p c) := by
  refine hC.goto hpc (fun q _ => by rw [hlock]) ?_ (fun q _ => by rw [htasks]) ?_
    (fun q _ hin => hresns (hC.resn q hin)) fun hin => hresns (hresnp hin)
  · rw [hlock]
    exact (hC.lock p).trans hlockp
  · rw [htasks]
    exact htaskp

/-- A step that gives the lock back. -/
theorem unlock (hC : Control s) (hp : (s.pc p).holdsLock) (hlockp : ¬ c.holdsLock)
    (htaskp : ¬ c.inTask) (hresnp : ¬ c.inResn) : Control ({ s with rlck := none }.goto p c) := by
  refine hC.goto rfl (fun q hqp => ?_) ?_ (fun q _ => rfl) (fun hin => absurd hin htaskp)
    (fun q _ hin => hC.resn q hin) fun hin => absurd hin hresnp
  · exact ⟨fun h => (nomatch h), fun h => absurd (hC.holder_unique ((hC.lock q).1 h) hp) hqp⟩
  · exact ⟨fun h => (nomatch h), fun h => absurd h hlockp⟩

theorem works (hC : Control s) (h : Works s p t) : Control t := by
  cases h with
  | wake hpc hsem => exact hC.stay rfl rfl rfl id (by rw [hpc]; exact Iff.rfl) False.elim False.elim
  | lock hpc hl =>
    refine hC.goto rfl (fun q hqp => ?_) (iff_of_true rfl trivial) (fun q _ => rfl) False.elim
      (fun q _ hin => hC.resn q hin) False.elim
    rw [hl]
    exact ⟨fun h => absurd (Option.some.inj h).symm hqp, fun h => nomatch h⟩
  | lockLost q hpc hl =>
    exact hC.stay rfl rfl rfl id (by rw [hpc]; exact Iff.rfl) False.elim False.elim
  | noResns hpc hnil =>
    exact hC.stay rfl rfl rfl id (by rw [hpc]; exact Iff.rfl) False.elim False.elim
  | someResns hpc hs =>
    exact hC.stay rfl rfl rfl id (by rw [hpc]; exact Iff.rfl) False.elim fun _ => hs
  | unlock hpc => exact hC.unlock (by rw [hpc]; trivial) id id id
  | runResn r rs hpc hr =>
    exact hC.stay rfl rfl rfl id (by rw [hpc]; exact Iff.rfl) False.elim fun _ => by rw [hr]; simp
  | popResn hpc =>
    -- no other worker is at the resolution queue
    refine hC.goto rfl (fun q _ => Iff.rfl) ((hC.lock p).trans (by rw [hpc]; exact Iff.rfl))
      (fun q _ => rfl) False.elim (fun q hqp hin => ?_) False.elim
    have hlq : (s.pc q).holdsLock := by
      cases hcq : s.pc q <;> rw [hcq] at hin <;> trivial
    exact absurd (hC.holder_unique hlq (by rw [hpc]; trivial)) hqp
  | unlockResn hpc => exact hC.unlock (by rw [hpc]; trivial) id id id
  | postResn k hpc =>
    exact hC.stay rfl rfl rfl id (by rw [hpc]; exact Iff.rfl) False.elim False.elim
  | again k hpc hk =>
    exact hC.stay rfl rfl rfl id (by rw [hpc]; exact Iff.rfl) False.elim False.elim
  | noTasks hpc hnil =>
    exact hC.stay rfl rfl rfl id (by rw [hpc]; exact Iff.rfl) False.elim False.elim
  | someTasks hpc hs =>
    exact hC.stay rfl rfl rfl id (by rw [hpc]; exact Iff.rfl) (fun _ => hs) False.elim
  | ranTask u us hpc hts =>
    exact hC.stay rfl rfl rfl id (by rw [hpc]; exact Iff.rfl)
      (fun _ => by rw [hts]; simp) False.elim
  | callSubmitr r hpc hs =>
    exact hC.stay rfl rfl rfl id (by rw [hpc]; exact Iff.rfl) (fun _ => hs) False.elim
  | writeResn r hpc =>
    have hs : s.tasks p ≠ [] := hC.task p (by rw [hpc]; trivial)
    exact hC.stay rfl rfl rfl (fun _ => List.append_ne_nil_of_right_ne_nil _ (List.cons_ne_nil _ _))
      (by rw [hpc]; exact Iff.rfl) (fun _ => hs) False.elim
  | postSubmitr k hpc =>
    have hs : s.tasks p ≠ [] := hC.task p (by rw [hpc]; trivial)
    exact hC.stay rfl rfl rfl id (by rw [hpc]; exact Iff.rfl) (fun _ => hs) False.elim
  | ranSubmitr k u us hpc hk hts =>
    exact hC.stay rfl rfl rfl id (by rw [hpc]; exact Iff.rfl)
      (fun _ => by rw [hts]; simp) False.elim
  | popTask hpc =>
    refine hC.goto rfl (fun q _ => Iff.rfl) ((hC.lock p).trans (by rw [hpc]; exact Iff.rfl))
      (fun q hqp => ?_) False.elim (fun q _ hin => hC.resn q hin) False.elim
    rw [State.pop_tasks, if_neg hqp]
  | notify hpc => exact hC.stay rfl rfl rfl id (by rw [hpc]; exact Iff.rfl) False.elim False.elim

theorem submits (hC : Control s) (h : Submits s t) : Control t := by
  constructor <;> intro q
  · have hq := hC.lock q
    cases h <;> exact hq
  · have hq := hC.task q
    cases h with
    | submit p task hf =>
      intro hres
      have hne : s.tasks q ≠ [] := hq hres
      simp only [State.write_tasks]
      split
      · exact List.append_ne_nil_of_left_ne_nil hne _
      · exact hne
    | _ => exact hq
  · have hq := hC.resn q
    cases h <;> exact hq

end Control

/-! ## Tasks -/

/-- The posts the outside thread owes worker `p`. -/
def Main.owes (p : Fin n) : Main n → ℕ
  | .post q => if q = p then 1 else 0
  | _ => 0

theorem Main.owes_of_free {m : Main n} (hf : m.free = true) : m.owes p = 0 := by
  cases m <;> simp_all [Main.free, Main.owes]

theorem Main.owes_notify (m : Main n) : m.notify.owes p = m.owes p := by
  cases m <;> rfl

/-- The token worker `p` has taken and not spent: after a resolution it is
the one it will post to itself. -/
def Pc.carry (p : Fin n) : Pc ρ → ℕ
  | .wait => 0
  | .notify => 0
  | .postResn k => if k ≤ p then 1 else 0
  | _ => 1

/-- **Every task has a token.** -/
def Tokens (s : State n τ ρ) : Prop :=
  ∀ p, (s.tasks p).length ≤ s.sems p + s.main.owes p + (s.pc p).carry p

namespace Tokens

/-- What a worker's step owes: its own tasks have their tokens, and the
other workers have lost none. -/
theorem goto {u : State n τ ρ} (hT : Tokens s) (hpc : u.pc = s.pc)
    (howes : ∀ q, u.main.owes q = s.main.owes q) (htasks : ∀ q ≠ p, u.tasks q = s.tasks q)
    (hsems : ∀ q ≠ p, s.sems q ≤ u.sems q)
    (hp : (u.tasks p).length ≤ u.sems p + s.main.owes p + c.carry p) : Tokens (u.goto p c) := by
  intro q
  rw [State.goto_tasks, State.goto_sems, State.goto_main, State.goto_pc, howes, hpc]
  split
  · next hqp => rw [hqp]; exact hp
  · next hqp =>
    have hq := hT q
    have hsem := hsems q hqp
    rw [htasks q hqp]
    omega

/-- A step that takes no token and spends none. -/
theorem stay {u : State n τ ρ} (hT : Tokens s) (hpc : u.pc = s.pc)
    (howes : ∀ q, u.main.owes q = s.main.owes q) (htasks : u.tasks = s.tasks)
    (hsems : u.sems = s.sems) (hp : (s.pc p).carry p = c.carry p) : Tokens (u.goto p c) := by
  refine hT.goto hpc howes (fun q _ => by rw [htasks]) (fun q _ => by rw [hsems]) ?_
  rw [htasks, hsems, ← hp]
  exact hT p

/-- A step with an empty queue may spend its token. -/
theorem spend (hT : Tokens s) (hnil : s.tasks p = []) : Tokens (s.goto p c) := by
  refine hT.goto rfl (fun q => rfl) (fun q _ => rfl) (fun q _ => le_rfl) ?_
  rw [hnil]
  exact Nat.zero_le _

/-- A post gives a token and takes none. -/
theorem post (hT : Tokens s) (k : Fin n)
    (hp : (s.pc p).carry p ≤ c.carry p + if p = k then 1 else 0) :
    Tokens ((s.post k).goto p c) := by
  refine hT.goto rfl (fun q => rfl) (fun q _ => rfl) (fun q _ => State.le_post s k q) ?_
  have hTp := hT p
  rw [State.post_sems, State.post_tasks]
  split at hp <;> split <;> omega

theorem works (hT : Tokens s) (h : Works s p t) : Tokens t := by
  have hTp := hT p
  cases h with
  | wake hpc hsem =>
    -- the token it takes is the one it now carries
    rw [hpc] at hTp
    refine hT.goto rfl (fun q => rfl) (fun q _ => rfl) (fun q hqp => ?_) ?_
    · rw [State.take_sems, if_neg hqp]
    · rw [State.take_sems, if_pos rfl, State.take_tasks]
      simp only [Pc.carry] at hTp ⊢
      omega
  | lock hpc hl => exact hT.stay rfl (fun q => rfl) rfl rfl (by rw [hpc]; rfl)
  | lockLost q hpc hl => exact hT.stay rfl (fun q => rfl) rfl rfl (by rw [hpc]; rfl)
  | noResns hpc hnil => exact hT.stay rfl (fun q => rfl) rfl rfl (by rw [hpc]; rfl)
  | someResns hpc hs => exact hT.stay rfl (fun q => rfl) rfl rfl (by rw [hpc]; rfl)
  | unlock hpc => exact hT.stay rfl (fun q => rfl) rfl rfl (by rw [hpc]; rfl)
  | runResn r rs hpc hr => exact hT.stay rfl (fun q => rfl) rfl rfl (by rw [hpc]; rfl)
  | popResn hpc => exact hT.stay rfl (fun q => rfl) rfl rfl (by rw [hpc]; rfl)
  | unlockResn hpc =>
    refine hT.stay rfl (fun q => rfl) rfl rfl ?_
    simp only [hpc, Pc.carry, Nat.zero_le, if_true]
  | postResn k hpc =>
    refine hT.post k ?_
    have hpk : p = k ↔ (p : ℕ) = k := Fin.ext_iff
    simp only [hpc, Pc.carry, hpk]
    split <;> split <;> split <;> omega
  | again k hpc hk =>
    refine hT.stay rfl (fun q => rfl) rfl rfl ?_
    rw [hpc]
    exact if_neg (Nat.not_le.2 (lt_of_lt_of_le p.isLt hk))
  | noTasks hpc hnil => exact hT.spend hnil
  | someTasks hpc hs => exact hT.stay rfl (fun q => rfl) rfl rfl (by rw [hpc]; rfl)
  | ranTask u us hpc hts => exact hT.stay rfl (fun q => rfl) rfl rfl (by rw [hpc]; rfl)
  | callSubmitr r hpc hs => exact hT.stay rfl (fun q => rfl) rfl rfl (by rw [hpc]; rfl)
  | writeResn r hpc => exact hT.stay rfl (fun q => rfl) rfl rfl (by rw [hpc]; rfl)
  | postSubmitr k hpc =>
    refine hT.post k ?_
    rw [hpc]
    exact Nat.le_add_right _ _
  | ranSubmitr k u us hpc hk hts => exact hT.stay rfl (fun q => rfl) rfl rfl (by rw [hpc]; rfl)
  | popTask hpc =>
    -- the task that had the token is gone
    rw [hpc] at hTp
    refine hT.goto rfl (fun q => rfl) (fun q hqp => ?_) (fun q _ => le_rfl) ?_
    · rw [State.pop_tasks, if_neg hqp]
    · rw [State.pop_tasks, if_pos rfl, State.pop_sems, List.length_tail]
      simp only [Pc.carry] at hTp ⊢
      omega
  | notify hpc =>
    exact hT.stay rfl (fun q => Main.owes_notify s.main) rfl rfl (by rw [hpc]; rfl)

theorem submits (hT : Tokens s) (h : Submits s t) : Tokens t := by
  intro q
  have hq := hT q
  cases h with
  | submit p task hf =>
    simp only [State.write_tasks, State.write_sems, State.write_pc, Main.owes]
    rw [Main.owes_of_free hf] at hq
    split
    · next hqp => rw [if_pos hqp.symm, List.length_append, List.length_singleton]; omega
    · next hqp => rw [if_neg (Ne.symm hqp)]; omega
  | post p hm =>
    simp only [hm, Main.owes] at hq
    simp only [State.post_sems, State.post_tasks, State.post_pc, Main.owes]
    split
    · next hqp => rw [if_pos hqp.symm] at hq; omega
    · next hqp => rw [if_neg (Ne.symm hqp)] at hq; omega
  | finish hf => rw [Main.owes_of_free hf] at hq; exact hq
  | noTasks k ret hm hnil => rw [hm] at hq; exact hq
  | someTasks k ret hm hs => rw [hm] at hq; exact hq
  | readResns k ret hm => rw [hm] at hq; exact hq
  | true k hm hk => rw [hm] at hq; exact hq
  | false k hm hk => rw [hm] at hq; exact hq
  | sleep hm => rw [hm] at hq; exact hq

end Tokens

/-! ## Resolutions -/

/-- The worker looks at the resolution queue, or posts to someone, before
it waits again. -/
def Pc.looks (n : ℕ) : Pc ρ → Prop
  | .tryLock => True
  | .checkResns => True
  | .runResn => True
  | .popResn => True
  | .unlockResn => True
  | .postResn k => k < n
  | .postSubmitr k => k < n
  | _ => False

/-- A post to worker `y` is still to come from here. -/
def Pc.willPost (y : Fin n) : Pc ρ → Prop
  | .postResn k => k ≤ y
  | .postSubmitr k => k ≤ y
  | _ => False

/-- Worker `q` will see to the resolutions. -/
def Attends (s : State n τ ρ) (q : Fin n) : Prop := 0 < s.sems q ∨ (s.pc q).looks n

/-- Worker `y` has a token, or is owed one by a worker. -/
def Due (s : State n τ ρ) (y : Fin n) : Prop := 0 < s.sems y ∨ ∃ z, (s.pc z).willPost y

/-- **Every resolution is watched**: some worker will see to it, and a
worker that holds the lock and saw the queue empty will come back. -/
structure Watched (s : State n τ ρ) : Prop where
  attended : s.resns ≠ [] → ∃ q, Attends s q
  seenEmpty : ∀ y, s.pc y = .unlock → s.resns ≠ [] → Due s y

/-- A worker that does not look may move. -/
theorem attends_goto (h : ∃ q, Attends s q) (hp : ¬ (s.pc p).looks n) :
    ∃ q, Attends (s.goto p c) q := by
  obtain ⟨q, hq⟩ := h
  refine ⟨q, hq.imp_right fun hl => ?_⟩
  rw [State.goto_pc, if_neg]
  · exact hl
  · rintro rfl; exact hp hl

/-- A worker that comes to look is enough. -/
theorem attends_self (hc : c.looks n) : ∃ q, Attends (s.goto p c) q :=
  ⟨p, .inr (by rw [State.goto_pc, if_pos rfl]; exact hc)⟩

/-- So is a token. -/
theorem attends_post (k : Fin n) : ∃ q, Attends ((s.post k).goto p c) q :=
  ⟨k, .inl (by rw [State.goto_sems, State.post_sems, if_pos rfl]; exact Nat.succ_pos _)⟩

/-- A worker that owes `y` nothing may move. -/
theorem due_goto (h : Due s y) (hp : ¬ (s.pc p).willPost y) : Due (s.goto p c) y := by
  refine h.imp_right fun ⟨z, hz⟩ => ⟨z, ?_⟩
  rw [State.goto_pc, if_neg]
  · exact hz
  · rintro rfl; exact hp hz

/-- A post moves on to the next worker, having paid this one. -/
theorem due_post (h : Due s y) (k : Fin n) (hc : k < y → c.willPost y)
    (hpc : (s.pc p).willPost y → k ≤ y) : Due ((s.post k).goto p c) y := by
  by_cases hky : y = k
  · exact .inl (by rw [State.goto_sems, State.post_sems, if_pos hky]; exact Nat.succ_pos _)
  · rcases h with h | ⟨z, hz⟩
    · exact .inl (by rw [State.goto_sems, State.post_sems, if_neg hky]; exact h)
    · refine .inr ⟨z, ?_⟩
      rw [State.goto_pc]
      split
      · next hzp =>
        subst hzp
        exact hc (Nat.lt_of_le_of_ne (hpc hz) fun hk => hky (Fin.ext hk.symm))
      · exact hz

/-- A worker that was sent elsewhere is not at the unlock. -/
theorem unlock_of_goto (hy : (s.goto p c).pc y = .unlock) (hc : c ≠ .unlock) :
    s.pc y = .unlock ∧ y ≠ p := by
  rw [State.goto_pc] at hy
  split at hy
  · exact absurd hy hc
  · next hyp => exact ⟨hy, hyp⟩

theorem Watched.works (hC : Control s) (hW : Watched s) (h : Works s p t) : Watched t := by
  have hn : 0 < n := p.pos
  constructor
  · intro hne
    cases h with
    | wake hpc hsem => exact attends_self trivial
    | lock hpc hl => exact attends_self trivial
    | lockLost q hpc hl =>
      -- the holder looks, or it saw the queue empty and comes back
      have hq := (hC.lock q).1 hl
      have hqp : q ≠ p := by rintro rfl; rw [hpc] at hq; exact hq
      have hstay : ∀ {z : Fin n}, z ≠ p → (s.goto p Pc.checkTasks).pc z = s.pc z := fun hz => by
        rw [State.goto_pc, if_neg hz]
      cases hcq : s.pc q with
      | checkResns => exact ⟨q, .inr (by rw [hstay hqp, hcq]; trivial)⟩
      | runResn => exact ⟨q, .inr (by rw [hstay hqp, hcq]; trivial)⟩
      | popResn => exact ⟨q, .inr (by rw [hstay hqp, hcq]; trivial)⟩
      | unlockResn => exact ⟨q, .inr (by rw [hstay hqp, hcq]; trivial)⟩
      | unlock =>
        rcases hW.seenEmpty q hcq hne with hsem | ⟨z, hz⟩
        · exact ⟨q, .inl hsem⟩
        · have hzp : z ≠ p := by rintro rfl; rw [hpc] at hz; exact hz
          refine ⟨z, .inr ?_⟩
          rw [hstay hzp]
          cases hcz : s.pc z with
          | postResn k => rw [hcz] at hz; exact lt_of_le_of_lt hz q.isLt
          | postSubmitr k => rw [hcz] at hz; exact lt_of_le_of_lt hz q.isLt
          | _ => rw [hcz] at hz; exact absurd hz id
      | _ => rw [hcq] at hq; exact absurd hq id
    | noResns hpc hnil => exact absurd hnil hne
    | someResns hpc hs => exact attends_self trivial
    | unlock hpc =>
      exact attends_goto (s := { s with rlck := none }) (hW.attended hne) (by simp [hpc, Pc.looks])
    | runResn r rs hpc hr => exact attends_self trivial
    | popResn hpc => exact attends_self trivial
    | unlockResn hpc => exact attends_self hn
    | postResn k hpc => exact attends_post k
    | again k hpc hk => exact attends_goto (hW.attended hne) (by rw [hpc]; exact Nat.not_lt.2 hk)
    | noTasks hpc hnil => exact attends_goto (hW.attended hne) (by simp [hpc, Pc.looks])
    | someTasks hpc hs => exact attends_goto (hW.attended hne) (by simp [hpc, Pc.looks])
    | ranTask u us hpc hts =>
      exact attends_goto (s := s.finished p u) (hW.attended hne) (by simp [hpc, Pc.looks])
    | callSubmitr r hpc hs => exact attends_goto (hW.attended hne) (by simp [hpc, Pc.looks])
    | writeResn r hpc => exact attends_self hn
    | postSubmitr k hpc => exact attends_post k
    | ranSubmitr k u us hpc hk hts =>
      exact attends_goto (s := s.finished p u) (hW.attended hne)
        (by rw [State.finished_pc, hpc]; exact Nat.not_lt.2 hk)
    | popTask hpc => exact attends_goto (s := s.pop p) (hW.attended hne) (by simp [hpc, Pc.looks])
    | notify hpc =>
      exact attends_goto (s := { s with main := s.main.notify }) (hW.attended hne)
        (by simp [hpc, Pc.looks])
  · intro y hy hne
    -- a step that writes no resolution, takes no token of `y` and owes it nothing
    have quiet : ∀ {u : State n τ ρ} {c : Pc ρ}, u.pc = s.pc → u.sems = s.sems → s.resns ≠ [] →
        ¬ (s.pc p).willPost y → c ≠ .unlock → (u.goto p c).pc y = .unlock → Due (u.goto p c) y := by
      intro u c hpc hsems hne hp hc hy
      rw [← hpc] at hp
      refine due_goto ?_ hp
      have hyu := (unlock_of_goto hy hc).1
      rw [hpc] at hyu
      rw [Due, hsems, hpc]
      exact hW.seenEmpty y hyu hne
    cases h with
    | wake hpc hsem =>
      obtain ⟨hyu, hyp⟩ := unlock_of_goto hy (by simp)
      refine due_goto ?_ (by simp [hpc, Pc.willPost])
      refine (hW.seenEmpty y hyu hne).imp_left fun hs => ?_
      rw [State.take_sems, if_neg hyp]
      exact hs
    | lock hpc hl => exact quiet rfl rfl hne (by simp [hpc, Pc.willPost]) (by simp) hy
    | lockLost q hpc hl => exact quiet rfl rfl hne (by simp [hpc, Pc.willPost]) (by simp) hy
    | noResns hpc hnil => exact absurd hnil hne
    | someResns hpc hs => exact quiet rfl rfl hne (by simp [hpc, Pc.willPost]) (by simp) hy
    | unlock hpc => exact quiet rfl rfl hne (by simp [hpc, Pc.willPost]) (by simp) hy
    | runResn r rs hpc hr => exact quiet rfl rfl hne (by simp [hpc, Pc.willPost]) (by simp) hy
    | popResn hpc =>
      -- the lock is with `p`, so no other worker is there
      obtain ⟨hyu, hyp⟩ := unlock_of_goto hy (by simp)
      exact absurd (hC.holder_unique (by rw [show s.pc y = .unlock from hyu]; trivial)
        (by rw [hpc]; trivial)) hyp
    | unlockResn hpc => exact quiet rfl rfl hne (by simp [hpc, Pc.willPost]) (by simp) hy
    | postResn k hpc =>
      obtain ⟨hyu, -⟩ := unlock_of_goto hy (by simp)
      exact due_post (hW.seenEmpty y hyu hne) k (fun hk => hk) fun hz => by rw [hpc] at hz; exact hz
    | again k hpc hk =>
      refine quiet rfl rfl hne ?_ (by simp) hy
      rw [hpc]
      exact fun hky => absurd y.isLt (Nat.not_lt.2 (le_trans hk hky))
    | noTasks hpc hnil => exact quiet rfl rfl hne (by simp [hpc, Pc.willPost]) (by simp) hy
    | someTasks hpc hs => exact quiet rfl rfl hne (by simp [hpc, Pc.willPost]) (by simp) hy
    | ranTask u us hpc hts => exact quiet rfl rfl hne (by simp [hpc, Pc.willPost]) (by simp) hy
    | callSubmitr r hpc hs => exact quiet rfl rfl hne (by simp [hpc, Pc.willPost]) (by simp) hy
    | writeResn r hpc =>
      -- every post of this write is still to come
      exact .inr ⟨p, by rw [State.goto_pc, if_pos rfl]; exact Nat.zero_le _⟩
    | postSubmitr k hpc =>
      obtain ⟨hyu, -⟩ := unlock_of_goto hy (by simp)
      exact due_post (hW.seenEmpty y hyu hne) k (fun hk => hk) fun hz => by rw [hpc] at hz; exact hz
    | ranSubmitr k u us hpc hk hts =>
      refine quiet (u := s.finished p u) rfl rfl hne ?_ (by simp) hy
      rw [hpc]
      exact fun hky => absurd y.isLt (Nat.not_lt.2 (le_trans hk hky))
    | popTask hpc =>
      exact quiet (u := s.pop p) rfl rfl hne (by simp [hpc, Pc.willPost]) (by simp) hy
    | notify hpc => exact quiet rfl rfl hne (by simp [hpc, Pc.willPost]) (by simp) hy

theorem Watched.submits (hW : Watched s) (h : Submits s t) : Watched t := by
  cases h with
  | post p hm =>
    refine ⟨fun hne => ?_, fun y hy hne => ?_⟩
    · obtain ⟨q, hq⟩ := hW.attended hne
      exact ⟨q, hq.imp_left fun h => lt_of_lt_of_le h (State.le_post s p q)⟩
    · exact (hW.seenEmpty y hy hne).imp_left fun h => lt_of_lt_of_le h (State.le_post s p y)
  | _ => exact ⟨hW.attended, hW.seenEmpty⟩

/-! ## What has run -/

/-- **Nothing is lost, repeated or reordered.** What was submitted is what
has run and then what is in the queue, less its front if that has run and
is about to be popped. -/
structure Ordered (s : State n τ ρ) : Prop where
  tasks : ∀ p, s.pc p ≠ .popTask → s.submitted p = s.ran p ++ s.tasks p
  popTask : ∀ p, s.pc p = .popTask → s.submitted p = s.ran p ++ (s.tasks p).tail
  resns : (∀ p, s.pc p ≠ .popResn) → s.submittedR = s.ranR ++ s.resns
  popResn : ∀ p, s.pc p = .popResn → s.submittedR = s.ranR ++ s.resns.tail

namespace Ordered

/-- What a worker's step owes to the order of the tasks: that of its own. -/
theorem tasks_goto {u : State n τ ρ} (hO : Ordered s) (hpc : u.pc = s.pc)
    (hsub : u.submitted = s.submitted) (hother : ∀ q ≠ p, u.ran q = s.ran q ∧ u.tasks q = s.tasks q)
    (hp : c ≠ .popTask → u.submitted p = u.ran p ++ u.tasks p)
    (hpop : c = .popTask → u.submitted p = u.ran p ++ (u.tasks p).tail) :
    (∀ q, (u.goto p c).pc q ≠ .popTask → u.submitted q = u.ran q ++ u.tasks q) ∧
      ∀ q, (u.goto p c).pc q = .popTask → u.submitted q = u.ran q ++ (u.tasks q).tail := by
  refine ⟨fun q hq => ?_, fun q hq => ?_⟩ <;> rw [State.goto_pc] at hq <;> split at hq
  · next hqp => rw [hqp]; exact hp hq
  · next hqp =>
    rw [hsub, (hother q hqp).1, (hother q hqp).2]
    exact hO.tasks q (hpc ▸ hq)
  · next hqp => rw [hqp]; exact hpop hq
  · next hqp =>
    rw [hsub, (hother q hqp).1, (hother q hqp).2]
    exact hO.popTask q (hpc ▸ hq)

/-- The task at the front has run, and is about to be popped. -/
theorem tasks_finished {u : τ} {us : List τ} (hO : Ordered s) (hp : s.pc p ≠ .popTask)
    (hts : s.tasks p = u :: us) :
    (∀ q, ((s.finished p u).goto p .popTask).pc q ≠ .popTask →
        s.submitted q = (s.finished p u).ran q ++ s.tasks q) ∧
      ∀ q, ((s.finished p u).goto p .popTask).pc q = .popTask →
        s.submitted q = (s.finished p u).ran q ++ (s.tasks q).tail := by
  refine tasks_goto (u := s.finished p u) hO rfl rfl (fun q hqp => ⟨?_, rfl⟩)
    (fun h => absurd rfl h) fun _ => ?_
  · rw [State.finished_ran, if_neg hqp]
  · rw [State.finished_ran, if_pos rfl, State.finished_tasks, State.finished_submitted,
      hO.tasks p hp, hts, List.append_assoc]
    rfl

theorem works_tasks (hO : Ordered s) (h : Works s p t) :
    (∀ q, t.pc q ≠ .popTask → t.submitted q = t.ran q ++ t.tasks q) ∧
      ∀ q, t.pc q = .popTask → t.submitted q = t.ran q ++ (t.tasks q).tail := by
  -- a step of a worker that neither has run a task nor comes to have
  have stay : ∀ {u : State n τ ρ} {c : Pc ρ}, u.pc = s.pc → u.tasks = s.tasks → u.ran = s.ran →
      u.submitted = s.submitted → s.pc p ≠ .popTask → c ≠ .popTask →
      (∀ q, (u.goto p c).pc q ≠ .popTask → u.submitted q = u.ran q ++ u.tasks q) ∧
        ∀ q, (u.goto p c).pc q = .popTask → u.submitted q = u.ran q ++ (u.tasks q).tail := by
    intro u c hpc ht hran hsub hp hc
    refine hO.tasks_goto hpc hsub (fun q _ => by rw [hran, ht]; exact ⟨rfl, rfl⟩) (fun _ => ?_)
      fun h => absurd h hc
    rw [hsub, hran, ht]
    exact hO.tasks p hp
  cases h with
  | ranTask u us hpc hts => exact hO.tasks_finished (by simp [hpc]) hts
  | ranSubmitr k u us hpc hk hts => exact hO.tasks_finished (by simp [hpc]) hts
  | popTask hpc =>
    refine hO.tasks_goto (u := s.pop p) rfl rfl (fun q hqp => ⟨rfl, ?_⟩) (fun _ => ?_)
      fun h => nomatch h
    · rw [State.pop_tasks, if_neg hqp]
    · rw [State.pop_tasks, if_pos rfl]
      exact hO.popTask p hpc
  | wake hpc hsem => exact stay rfl rfl rfl rfl (by simp [hpc]) (by simp)
  | lock hpc hl => exact stay rfl rfl rfl rfl (by simp [hpc]) (by simp)
  | lockLost q hpc hl => exact stay rfl rfl rfl rfl (by simp [hpc]) (by simp)
  | noResns hpc hnil => exact stay rfl rfl rfl rfl (by simp [hpc]) (by simp)
  | someResns hpc hs => exact stay rfl rfl rfl rfl (by simp [hpc]) (by simp)
  | unlock hpc => exact stay rfl rfl rfl rfl (by simp [hpc]) (by simp)
  | runResn r rs hpc hr => exact stay rfl rfl rfl rfl (by simp [hpc]) (by simp)
  | popResn hpc => exact stay rfl rfl rfl rfl (by simp [hpc]) (by simp)
  | unlockResn hpc => exact stay rfl rfl rfl rfl (by simp [hpc]) (by simp)
  | postResn k hpc => exact stay rfl rfl rfl rfl (by simp [hpc]) (by simp)
  | again k hpc hk => exact stay rfl rfl rfl rfl (by simp [hpc]) (by simp)
  | noTasks hpc hnil => exact stay rfl rfl rfl rfl (by simp [hpc]) (by simp)
  | someTasks hpc hs => exact stay rfl rfl rfl rfl (by simp [hpc]) (by simp)
  | callSubmitr r hpc hs => exact stay rfl rfl rfl rfl (by simp [hpc]) (by simp)
  | writeResn r hpc => exact stay rfl rfl rfl rfl (by simp [hpc]) (by simp)
  | postSubmitr k hpc => exact stay rfl rfl rfl rfl (by simp [hpc]) (by simp)
  | notify hpc => exact stay rfl rfl rfl rfl (by simp [hpc]) (by simp)

theorem works_resns (hC : Control s) (hO : Ordered s) (h : Works s p t) :
    ((∀ q, t.pc q ≠ .popResn) → t.submittedR = t.ranR ++ t.resns) ∧
      ∀ q, t.pc q = .popResn → t.submittedR = t.ranR ++ t.resns.tail := by
  -- a step of a worker that neither has run a resolution nor comes to have
  have stay : ∀ {u : State n τ ρ} {c : Pc ρ}, u.pc = s.pc → u.resns = s.resns → u.ranR = s.ranR →
      u.submittedR = s.submittedR → s.pc p ≠ .popResn → c ≠ .popResn →
      ((∀ q, (u.goto p c).pc q ≠ .popResn) → u.submittedR = u.ranR ++ u.resns) ∧
        ∀ q, (u.goto p c).pc q = .popResn → u.submittedR = u.ranR ++ u.resns.tail := by
    intro u c hpc hr hran hsub hp hc
    rw [hr, hran, hsub]
    refine ⟨fun h => hO.resns fun q hq => ?_, fun q hq => hO.popResn q ?_⟩
    · refine h q ?_
      rw [State.goto_pc, if_neg, hpc, hq]
      rintro rfl; exact hp hq
    · rw [State.goto_pc] at hq
      split at hq
      · exact absurd hq hc
      · rwa [hpc] at hq
  cases h with
  | runResn r rs hpc hr =>
    have hnone : ∀ q, s.pc q ≠ .popResn := fun q hq => by
      have hqp := hC.holder_unique (p := q) (q := p) (by rw [hq]; trivial) (by rw [hpc]; trivial)
      rw [hqp, hpc] at hq
      exact nomatch hq
    refine ⟨fun h => absurd (if_pos rfl) (State.goto_pc _ p p _ ▸ h p), fun q _ => ?_⟩
    simp only [State.goto_submittedR, State.goto_ranR, State.goto_resns]
    rw [hO.resns hnone, hr, List.append_assoc]
    rfl
  | popResn hpc =>
    refine ⟨fun _ => hO.popResn p hpc, fun q hq => ?_⟩
    rw [State.goto_pc] at hq
    split at hq
    · exact nomatch hq
    · next hqp =>
      exact absurd (hC.holder_unique (by rw [show s.pc q = .popResn from hq]; trivial)
        (by rw [hpc]; trivial)) hqp
  | writeResn r hpc =>
    have hback : ∀ q, s.pc q = .popResn ↔
        ({ s with resns := s.resns ++ [r], submittedR := s.submittedR ++ [r] }.goto p
          (.postSubmitr 0)).pc q = .popResn := fun q => by
      rw [State.goto_pc]
      split
      · next hqp => rw [hqp, hpc]; simp
      · exact Iff.rfl
    simp only [State.goto_submittedR, State.goto_ranR, State.goto_resns]
    refine ⟨fun h => ?_, fun q hq => ?_⟩
    · rw [hO.resns fun q hq => h q ((hback q).1 hq), List.append_assoc]
    · have hq' := (hback q).2 hq
      have hne := hC.resn q (by rw [hq']; trivial)
      rw [hO.popResn q hq', List.append_assoc, List.tail_append_of_ne_nil hne]
  | wake hpc hsem => exact stay rfl rfl rfl rfl (by simp [hpc]) (by simp)
  | lock hpc hl => exact stay rfl rfl rfl rfl (by simp [hpc]) (by simp)
  | lockLost q hpc hl => exact stay rfl rfl rfl rfl (by simp [hpc]) (by simp)
  | noResns hpc hnil => exact stay rfl rfl rfl rfl (by simp [hpc]) (by simp)
  | someResns hpc hs => exact stay rfl rfl rfl rfl (by simp [hpc]) (by simp)
  | unlock hpc => exact stay rfl rfl rfl rfl (by simp [hpc]) (by simp)
  | unlockResn hpc => exact stay rfl rfl rfl rfl (by simp [hpc]) (by simp)
  | postResn k hpc => exact stay rfl rfl rfl rfl (by simp [hpc]) (by simp)
  | again k hpc hk => exact stay rfl rfl rfl rfl (by simp [hpc]) (by simp)
  | noTasks hpc hnil => exact stay rfl rfl rfl rfl (by simp [hpc]) (by simp)
  | someTasks hpc hs => exact stay rfl rfl rfl rfl (by simp [hpc]) (by simp)
  | ranTask u us hpc hts => exact stay rfl rfl rfl rfl (by simp [hpc]) (by simp)
  | callSubmitr r hpc hs => exact stay rfl rfl rfl rfl (by simp [hpc]) (by simp)
  | postSubmitr k hpc => exact stay rfl rfl rfl rfl (by simp [hpc]) (by simp)
  | ranSubmitr k u us hpc hk hts => exact stay rfl rfl rfl rfl (by simp [hpc]) (by simp)
  | popTask hpc => exact stay rfl rfl rfl rfl (by simp [hpc]) (by simp)
  | notify hpc => exact stay rfl rfl rfl rfl (by simp [hpc]) (by simp)

theorem works (hC : Control s) (hO : Ordered s) (h : Works s p t) : Ordered t :=
  ⟨(hO.works_tasks h).1, (hO.works_tasks h).2, (hO.works_resns hC h).1, (hO.works_resns hC h).2⟩

theorem submits (hC : Control s) (hO : Ordered s) (h : Submits s t) : Ordered t := by
  cases h with
  | submit p task hf =>
    refine ⟨fun q hq => ?_, fun q hq => ?_, hO.resns, hO.popResn⟩
    · simp only [State.write_submitted, State.write_tasks, State.write_ran]
      rw [hO.tasks q hq]
      split
      · rw [List.append_assoc]
      · rfl
    · have hne := hC.task q (by rw [show s.pc q = .popTask from hq]; trivial)
      simp only [State.write_submitted, State.write_tasks, State.write_ran]
      rw [hO.popTask q hq]
      split
      · rw [List.append_assoc, List.tail_append_of_ne_nil hne]
      · rfl
  | _ => exact ⟨hO.tasks, hO.popTask, hO.resns, hO.popResn⟩

end Ordered

/-! ## Every reachable state -/

/-- What holds of every state the pool can get to. -/
structure Sound (s : State n τ ρ) : Prop where
  control : Control s
  tokens : Tokens s
  watched : Watched s
  ordered : Ordered s

namespace Sound

theorem init : Sound (init n τ ρ) := by
  refine ⟨⟨fun p => ?_, fun p h => ?_, fun p h => ?_⟩, fun p => Nat.zero_le _, ⟨?_, ?_⟩, ?_⟩
  · exact ⟨fun h => (nomatch h), fun h => absurd h id⟩
  · exact absurd h id
  · exact absurd h id
  · exact fun h => absurd rfl h
  · exact fun y hy => nomatch hy
  · exact ⟨fun p _ => rfl, fun p hp => (nomatch hp), fun _ => rfl, fun p hp => nomatch hp⟩

theorem works (hS : Sound s) (h : Works s p t) : Sound t :=
  ⟨hS.control.works h, hS.tokens.works h, hS.watched.works hS.control h,
    hS.ordered.works hS.control h⟩

theorem submits (hS : Sound s) (h : Submits s t) : Sound t :=
  ⟨hS.control.submits h, hS.tokens.submits h, hS.watched.submits h, hS.ordered.submits hS.control h⟩

theorem step {a : Act n τ ρ} (hS : Sound s) (h : Pool.step s a = some t) : Sound t := by
  rcases cases_of_step h with ⟨p, hw⟩ | hs
  · exact hS.works hw
  · exact hS.submits hs

end Sound

theorem Reachable.sound (h : Reachable s) : Sound s := by
  obtain ⟨as, has⟩ := h
  exact Machine.run_invariant (fun _ _ _ hS hst => hS.step hst) .init has

/-- Every worker is blocked in `sems[p].wait()`, with no token. -/
def AllBlocked (s : State n τ ρ) : Prop := ∀ p, s.pc p = .wait ∧ s.sems p = 0

/-- With every worker blocked and no post of the outside thread to come,
the queues are empty. -/
theorem Sound.queues_empty (hS : Sound s) (hb : AllBlocked s) (hm : ∀ p, s.main ≠ .post p) :
    (∀ p, s.tasks p = []) ∧ s.resns = [] := by
  constructor
  · intro p
    have h := hS.tokens p
    rw [(hb p).1, (hb p).2] at h
    have howes : s.main.owes p = 0 := by
      cases hmain : s.main with
      | post q => exact absurd hmain (hm q)
      | _ => rfl
    rw [howes] at h
    exact List.eq_nil_of_length_eq_zero (Nat.le_zero.1 h)
  · by_contra hne
    obtain ⟨q, hq | hq⟩ := hS.watched.attended hne
    · rw [(hb q).2] at hq
      exact absurd hq (lt_irrefl 0)
    · rw [(hb q).1] at hq
      exact hq

/-- **No stranded work.** Wherever no `submit` and no `submitr` is in
progress and every worker is blocked on its semaphore with no token, the
queues are empty, each worker has run exactly the tasks submitted to it,
in order, and the resolutions have been run exactly as they were
submitted. -/
theorem no_stranded_work {as : List (Act n τ ρ)} (hrun : (pool n τ ρ).run (init n τ ρ) as = some s)
    (hmain : ∀ p, s.main ≠ .post p) (hblocked : AllBlocked s) :
    (∀ p, s.tasks p = []) ∧ s.resns = [] ∧ (∀ p, s.ran p = s.submitted p) ∧
      s.ranR = s.submittedR := by
  have hS : Sound s := Reachable.sound ⟨as, hrun⟩
  obtain ⟨htasks, hresns⟩ := hS.queues_empty hblocked hmain
  refine ⟨htasks, hresns, fun p => ?_, ?_⟩
  · rw [hS.ordered.tasks p (by rw [(hblocked p).1]; simp), htasks, List.append_nil]
  · rw [hS.ordered.resns fun p => by rw [(hblocked p).1]; simp, hresns, List.append_nil]

/-- One worker and one task, which submits one resolution. -/
theorem no_stranded_work_one :
    ∃ s, (pool 1 ℕ ℕ).run (init 1 ℕ ℕ)
        ([.submit 0 7, .main] ++ List.replicate 6 (.worker 0 (some 8)) ++
        List.replicate 19 (.worker 0 none)) = some s ∧
      (∀ p, s.tasks p = []) ∧ s.resns = [] ∧ (∀ p, s.ran p = s.submitted p) ∧
      s.ranR = s.submittedR := by
  have hstate : ((pool 1 ℕ ℕ).run (init 1 ℕ ℕ) ([.submit 0 7, .main] ++
      List.replicate 6 (.worker 0 (some 8)) ++ List.replicate 19 (.worker 0 none))).map
        (fun s => (s.main, s.pc 0, s.sems 0, s.ran 0, s.ranR)) =
          some (.idle, .wait, 0, [7], [8]) := by
    decide +kernel
  obtain ⟨s, hrun, hs⟩ := Option.map_eq_some_iff.1 hstate
  simp only [Prod.mk.injEq] at hs
  refine ⟨s, hrun, no_stranded_work hrun (fun p => by rw [hs.1]; simp) fun p => ?_⟩
  rw [Fin.fin_one_eq_zero p]
  exact ⟨hs.2.1, hs.2.2.1⟩

end Contentious.Pool
