import Contentious.Pool.Waiters

/-!
# Pool — what the semaphores come to

The steps of `LifoSem` that write. Behind the word there is a semaphore
whose operations are done at one stroke: a value, the stack of those who
wait, and those who were handed a unit. What a thread does to the word or
to a node is one step of it, or none (`Follows`), and keeps what there is to
keep.
-/

namespace Contentious.Pool

/-- A semaphore: what it is worth, those who wait, the last one first, those
who were handed a unit and have not taken it, and whether it is shut down. -/
structure Semaphore (ω : Type) where
  value : ℕ
  waiters : List ω
  owed : List ω
  closed : Bool

/-- What can happen to it. -/
inductive SemAct (ω : Type)
  | post (n : ℕ)
  /-- a unit goes to the last who came -/
  | hand
  | take (n : ℕ)
  | sleep (w : ω)
  /-- `w` takes the unit that it was handed -/
  | wake (w : ω)
  | close
  /-- the last who came goes with nothing -/
  | rouse

/-- One step. The value is a number of 32 bits and saturates. -/
def Semaphore.step {ω : Type} [DecidableEq ω] (m : Semaphore ω) : SemAct ω → Option (Semaphore ω)
  | .post n =>
    if m.waiters = [] then some { m with value := min (m.value + n) (2 ^ 32 - 1) } else none
  | .hand => m.waiters.head?.map fun w =>
    { m with waiters := m.waiters.tail, owed := w :: m.owed }
  | .take n => if 0 < n ∧ n ≤ m.value then some { m with value := m.value - n } else none
  | .sleep w =>
    if m.value = 0 ∧ m.closed = false then some { m with waiters := w :: m.waiters } else none
  | .wake w => if w ∈ m.owed then some { m with owed := m.owed.erase w } else none
  | .close => some { m with closed := true }
  | .rouse =>
    if m.closed ∧ m.waiters ≠ [] then some { m with waiters := m.waiters.tail } else none

/-- The semaphore as a machine. -/
def semaphore (ω : Type) [DecidableEq ω] : Machine (Semaphore ω) (SemAct ω) := ⟨Semaphore.step⟩

variable {ι : Type} {s t : LifoSem ι} {lot : BitVec 32 → Option (ι × Lot ι)}
variable {ws ws' : List (BitVec 32)} {h : LifoSemHead} {n next i j : BitVec 32} {since : ℕ}
variable {o p q : ι} {g : Lot ι} {d : Duty} {a : LifoPc}
variable {r : ι → Option (Duty × BitVec 32)}

namespace LifoSemHead

/-- Where there is a node there is no value. -/
theorem value_of_node (hn : h.isNodeIdx = true) : h.value = 0 := by
  unfold value
  rw [if_pos hn]

theorem value_of_not (hn : h.isNodeIdx = false) : h.value = h.data := by
  unfold value
  rw [hn]
  rfl

theorem first_of_not (hn : h.isNodeIdx = false) : h.first = 0 := by
  unfold first
  rw [hn]
  rfl

theorem first_of_node (hn : h.isNodeIdx = true) : h.first = h.data := by
  unfold first
  rw [if_pos hn]

theorem first_withPop (hn : h.isNodeIdx = true) (i : BitVec 32) : (h.withPop i).first = i := by
  obtain ⟨hnode, hdata, -, -⟩ := withPop_spec hn i
  unfold first
  rw [hnode, hdata]
  split
  · rfl
  · next hi => exact (by simpa using hi : i = 0).symm

theorem value_withPop (hn : h.isNodeIdx = true) (i : BitVec 32) : (h.withPop i).value = 0 := by
  obtain ⟨hnode, hdata, -, -⟩ := withPop_spec hn i
  unfold value
  rw [hnode, hdata]
  split
  · rfl
  · next hi => simpa using hi

theorem value_congr {h' : LifoSemHead} (hnode : h'.isNodeIdx = h.isNodeIdx)
    (hdata : h'.data = h.data) : h'.value = h.value := by
  unfold value
  rw [hnode, hdata]

theorem delta_le (h : LifoSemHead) (n : BitVec 32) : (h.delta n).toNat ≤ h.data.toNat := by
  unfold delta
  split
  · next hle => exact hle
  · exact le_rfl

theorem toNat_pos (hn : n ≠ 0) : 0 < n.toNat :=
  Nat.pos_of_ne_zero fun h0 => hn (BitVec.eq_of_toNat_eq h0)

theorem delta_pos (hn : n ≠ 0) (hdata : h.data ≠ 0) : 0 < (h.delta n).toNat := by
  unfold delta
  split
  · exact toNat_pos hn
  · exact toNat_pos hdata

theorem delta_le_self (h : LifoSemHead) (n : BitVec 32) : h.delta n ≤ n := by
  unfold delta
  split
  · exact BitVec.le_refl n
  · next hle => exact BitVec.le_of_lt (BitVec.not_le.1 hle)

end LifoSemHead

namespace LifoSem

@[simp] theorem swap_posted (s : LifoSem ι) (h : LifoSemHead) : (s.swap h).posted = s.posted := rfl

@[simp] theorem swap_taken (s : LifoSem ι) (h : LifoSemHead) : (s.swap h).taken = s.taken := rfl

/-- What is written to a node leaves where it points. -/
theorem setNode_next (s : LifoSem ι) (i : BitVec 32) {nd : WaitNode}
    (h : nd.next = (s.node i).next) (j : BitVec 32) :
    ((s.setNode i nd).node j).next = (s.node j).next := by
  unfold setNode
  dsimp only
  rw [Function.update_apply]
  split
  · next hj => rw [hj, h]
  · rfl

end LifoSem

/-! ## The node on top -/

/-- **The swap finds what was read.** The count has not come around since,
so it has not changed at all. -/
theorem Read.now (hr : Read s ws h since) (hK : Kept s lot ws) (heq : s.head = h)
    (hlate : s.ticks < since + 2 ^ 30) : since = s.ticks := by
  have hseq := hK.seq
  rw [heq, hr.seq] at hseq
  have hle := hr.le
  omega

/-- Its node is on top of the stack. -/
theorem Kept.top (hK : Kept s lot ws) (hn : s.head.isNodeIdx = true) :
    ∃ o ws', ws = s.head.data :: ws' ∧ lot s.head.data = some (o, .listed) := by
  have ht := hK.threaded
  rw [LifoSemHead.first_of_node hn] at ht
  cases ws with
  | nil => exact absurd ht (hK.head hn)
  | cons i ws' =>
    obtain ⟨hi, -, -⟩ := ht
    obtain ⟨o, ho⟩ := (hK.listed i).1 List.mem_cons_self
    exact ⟨o, ws', by rw [hi], by rw [hi]; exact ho⟩

/-- What is left of the word and of the stack. -/
theorem Kept.popped (hK : Kept s lot (s.head.data :: ws')) (hn : s.head.isNodeIdx = true) :
    Threaded (fun i => (s.node i).next) 0 (s.head.withPop (s.node s.head.data).next).first ws' ∧
      ((s.head.withPop (s.node s.head.data).next).isNodeIdx = true →
        (s.head.withPop (s.node s.head.data).next).data ≠ 0) ∧
      (s.head.withPop (s.node s.head.data).next).seq.toNat = (s.ticks + 1) % 2 ^ 30 := by
  obtain ⟨hnode, hdata, -, hseq⟩ := LifoSemHead.withPop_spec hn (s.node s.head.data).next
  refine ⟨?_, fun h => ?_, ?_⟩
  · rw [LifoSemHead.first_withPop hn]
    exact hK.threaded.pop
  · rw [hnode] at h
    rw [hdata]
    exact bne_iff_ne.1 h
  · rw [hseq, hK.seq]
    omega

/-- Nodes of the stack have one after them, or none. -/
theorem Kept.next_ne (hK : Kept s lot ws) (hi : i ∈ ws) : (s.node i).next ≠ -1 := by
  rcases hK.threaded.next_mem hi with hnext | hnext
  · have hnext : (s.node i).next = 0 := hnext
    rw [hnext]
    decide
  · obtain ⟨o, ho⟩ := (hK.listed _).1 hnext
    exact (hK.node _ o _ ho).2.1

/-- A node of the stack does not fly. -/
theorem Kept.not_flying (hK : Kept s lot ws) (hi : lot i = some (o, g)) (hg : g.flies = false) :
    i ∉ s.flying := by
  intro hf
  obtain ⟨o', g', hlot, hfly⟩ := (hK.flying i).1 hf
  rw [hi] at hlot
  cases hlot
  rw [hg] at hfly
  cases hfly

/-! ## Who goes on with a node -/

section
variable [DecidableEq ι]

/-- Who waits in the stack still does. -/
theorem Roles.still (hR : Roles r lot) (ho : lot i = some (o, .listed)) (hp : r p = none)
    (c : Option (Duty × BitVec 32)) : Function.update r p c o = some (.waits, i) := by
  have hwaits : r o = some (.waits, i) := hR.fits i o _ ho
  rw [Function.update_of_ne, hwaits]
  rintro rfl
  rw [hp] at hwaits
  cases hwaits

/-- A thread that had no node pops one. -/
theorem Roles.pops (hR : Roles r lot) (hp : r p = none) (hi : lot i = some (o, .listed))
    (hd : d.owns = false) (hg : g.by = some p)
    (hfit : g.Fits (Function.update r p (some (d, i))) i o) :
    Roles (Function.update r p (some (d, i))) (Function.update lot i (some (o, g))) := by
  refine hR.move (fun d j hj => ?_) (fun d j hj => ?_) (fun o g h => ?_) (fun o' g' h => ?_)
    (fun d' h hd' => ?_) fun d' h _ => ⟨o, g, rfl, hg⟩
  · rw [hp] at hj
    cases hj
  · cases hj
    rfl
  · cases h
    exact hfit
  · rw [hi] at h
    cases h
    exact ⟨fun q _ hq => (by cases hq), fun _ => ⟨g, rfl⟩⟩
  · cases h
    rw [hd] at hd'
    cases hd'

/-- and posts it. -/
theorem Roles.posted (hR : Roles r lot) (g' : Lot ι) (hp : r p = some (d, i))
    (hi : lot i = some (o, g)) (hg : g.by = some p)
    (hfit : g'.Fits (Function.update r p none) i o) :
    Roles (Function.update r p none) (Function.update lot i (some (o, g'))) := by
  refine hR.move (fun d j hj => ?_) (fun d j hj => ?_) (fun o g h => ?_) (fun o' g₁ h => ?_)
    (fun d' h => ?_) fun d' h => ?_
  · rw [hp] at hj
    cases hj
    rfl
  · cases hj
  · cases h
    exact hfit
  · rw [hi] at h
    cases h
    exact ⟨fun q hqp hq => hqp (by rw [hg] at hq; cases hq; rfl), fun _ => ⟨g', rfl⟩⟩
  · cases h
  · cases h

/-- A node is allocated, -/
theorem Roles.alloc (hR : Roles r lot) (hp : r p = none) (hi : lot i = none) :
    Roles (Function.update r p (some (.fresh, i))) (Function.update lot i (some (p, .fresh))) := by
  refine hR.move (fun d j hj => ?_) (fun d j hj => ?_) (fun o g h => ?_) (fun o g h => ?_)
    (fun d h _ => ⟨.fresh, rfl⟩) fun d h hd => ?_
  · rw [hp] at hj
    cases hj
  · cases hj
    rfl
  · cases h
    exact Function.update_self ..
  · rw [hi] at h
    cases h
  · cases h
    cases hd

/-- and recycled. -/
theorem Roles.recycle (hR : Roles r lot) (hp : r p = some (.spent, i)) :
    Roles (Function.update r p none) (Function.update lot i none) := by
  refine hR.move (fun d j hj => ?_) (fun d j hj => ?_) (fun o g h => ?_) (fun o g h => ?_)
    (fun d h => ?_) fun d h => ?_
  · rw [hp] at hj
    cases hj
    rfl
  · cases hj
  · cases h
  · rw [hR.lot_spent hp] at h
    cases h
    exact ⟨fun q _ hq => (by cases hq), fun hne => absurd rfl hne⟩
  · cases h
  · cases h

end

/-- Two threads that may write to a node have two. -/
theorem Roles.apart (hR : Roles r lot) (hqp : q ≠ p)
    (hp : r p = some (.fresh, i) ∨ r p = some (.tells, i))
    (hq : r q = some (.fresh, j) ∨ r q = some (.tells, j)) : j ≠ i := by
  rintro rfl
  rcases hp with hp | hp
  · have hi := hR.lot_fresh hp
    rcases hq with hq | hq
    · rw [hR.lot_fresh hq] at hi
      cases hi
      exact hqp rfl
    · obtain ⟨o, ho⟩ := hR.lot_tells hq
      rw [ho] at hi
      cases hi
  · obtain ⟨o, hi⟩ := hR.lot_tells hp
    rcases hq with hq | hq
    · rw [hR.lot_fresh hq] at hi
      cases hi
    · obtain ⟨o', ho⟩ := hR.lot_tells hq
      rw [ho] at hi
      cases hi
      exact hqp rfl

/-! ## Steps that write -/

/-- What the history says of calls that have returned, and of assertions. -/
theorem Kept.history (hK : Kept s lot ws) {down : Bool} (failed : Bool)
    (hdown : down = true → s.head.isShutdown = true ∧ ws = []) :
    Kept { s with down := down, failed := failed } lot ws where
  roles := hK.roles
  node i o g hi := by
    obtain ⟨h0, h1, hused, hnode⟩ := hK.node i o g hi
    exact ⟨h0, h1, hused, hnode.frame rfl id⟩
  listed := hK.listed
  nodup := hK.nodup
  threaded := hK.threaded
  head := hK.head
  seq := hK.seq
  flying := hK.flying
  flying_nodup := hK.flying_nodup
  units := hK.units
  down := hdown
  knows p := (hK.knows p).frame (fun hs => ⟨hs, id⟩) (.inr ⟨rfl, fun _ hi => ⟨hi, rfl⟩⟩)
    fun _ _ => rfl

/-- The value is another, and nobody waits. -/
theorem Kept.count (hK : Kept s lot ws) (hn : s.head.isNodeIdx = false)
    (hn' : h.isNodeIdx = false) (hshut : h.isShutdown = s.head.isShutdown)
    (hseq : h.seq.toNat = (s.head.seq.toNat + 1) % 2 ^ 30) (posted taken : ℕ)
    (hunits : posted = h.data.toNat + taken + s.flying.length) :
    Kept { s.swap h with posted := posted, taken := taken } lot ws where
  roles := hK.roles
  node i o g hi := by
    obtain ⟨h0, h1, hused, hnode⟩ := hK.node i o g hi
    exact ⟨h0, h1, hused, hnode.frame rfl hshut.trans⟩
  listed := hK.listed
  nodup := hK.nodup
  threaded := by
    have ht := hK.threaded
    rw [LifoSemHead.first_of_not hn] at ht
    unfold LifoSem.swap
    dsimp only
    rw [LifoSemHead.first_of_not hn']
    exact ht
  head hnode := by
    have hnode : h.isNodeIdx = true := hnode
    rw [hn'] at hnode
    cases hnode
  seq := by
    unfold LifoSem.swap
    dsimp only
    rw [hseq, hK.seq]
    omega
  flying := hK.flying
  flying_nodup := hK.flying_nodup
  units := by
    unfold LifoSem.swap
    dsimp only
    rw [LifoSemHead.value_of_not hn']
    exact hunits
  down hd := ⟨hshut.trans (hK.down hd).1, (hK.down hd).2⟩
  knows p := (hK.knows p).frame (fun hs => ⟨hshut.trans hs, id⟩) (.inl (Nat.lt_succ_self _))
    fun _ _ => rfl

/-- The semaphore is shut down. -/
theorem Kept.shut (hK : Kept s lot ws) (hnode : h.isNodeIdx = s.head.isNodeIdx)
    (hdata : h.data = s.head.data) (hshut : h.isShutdown = true)
    (hseq : h.seq.toNat = s.head.seq.toNat) : Kept { s with head := h } lot ws where
  roles := hK.roles
  node i o g hi := by
    obtain ⟨h0, h1, hused, hn⟩ := hK.node i o g hi
    exact ⟨h0, h1, hused, hn.frame rfl fun _ => hshut⟩
  listed := hK.listed
  nodup := hK.nodup
  threaded := by
    have hfirst : h.first = s.head.first := by
      unfold LifoSemHead.first
      rw [hnode, hdata]
    dsimp only
    rw [hfirst]
    exact hK.threaded
  head hn := by
    dsimp only at hn ⊢
    rw [hdata]
    exact hK.head (hnode ▸ hn)
  seq := hseq.trans hK.seq
  flying := hK.flying
  flying_nodup := hK.flying_nodup
  units := by
    dsimp only
    rw [LifoSemHead.value_congr hnode hdata]
    exact hK.units
  down hd := ⟨hshut, (hK.down hd).2⟩
  knows p := (hK.knows p).frame (fun _ => ⟨hshut, id⟩) (.inr ⟨rfl, fun _ hi => ⟨hi, rfl⟩⟩)
    fun _ _ => rfl

section
variable [DecidableEq ι]

/-- **The node on top is popped**, and is the popping thread's to post. -/
theorem Kept.pop (hK : Kept s lot (s.head.data :: ws)) (hn : s.head.isNodeIdx = true)
    (ho : lot s.head.data = some (o, .listed)) (hrole : (s.pc p).role = none)
    (ha : a.role = some (d, s.head.data)) (hd : d.owns = false) (hg : g.by = some p)
    (hfit : g.Fits (Function.update (fun q => (s.pc q).role) p (some (d, s.head.data)))
      s.head.data o)
    (hnext : next = (s.node s.head.data).next) (hnode : g.Node s s.head.data) {posted : ℕ}
    {flying : List (BitVec 32)}
    (hflying : s.head.data ∈ flying ↔ Flies (some (o, g)))
    (hflying' : ∀ j ≠ s.head.data, (j ∈ flying ↔ j ∈ s.flying)) (hnodup : flying.Nodup)
    (hunits : posted = s.taken + flying.length)
    (hk : a.Knows
      ({ s.swap (s.head.withPop next) with posted := posted, flying := flying }.goto p a) ws) :
    Kept ({ s.swap (s.head.withPop next) with posted := posted, flying := flying }.goto p a)
      (Function.update lot s.head.data (some (o, g))) ws := by
  obtain ⟨-, -, hshut, -⟩ := LifoSemHead.withPop_spec hn next
  subst hnext
  obtain ⟨hthreaded, hhead, hseq⟩ := hK.popped hn
  obtain ⟨hnotin, hws⟩ := List.nodup_cons.1 hK.nodup
  exact
    { roles := by
        unfold LifoSem.goto
        dsimp only
        rw [role_update, ha]
        exact hK.roles.pops hrole ho hd hg hfit
      node := hK.node_update (fun _ _ => rfl) hshut.trans fun o' g' hv => by
        cases hv
        obtain ⟨h0, h1, hused, -⟩ := hK.node _ o _ ho
        exact ⟨h0, h1, hused, hnode.frame rfl hshut.trans⟩
      listed := mem_update hK.listed
        (iff_of_false hnotin fun hl => by
          obtain ⟨o', ho'⟩ := hl
          cases ho'
          cases hg)
        fun j hj => by rw [List.mem_cons, or_iff_right hj]
      nodup := hws
      threaded := hthreaded
      head := hhead
      seq := hseq
      flying := mem_update hK.flying hflying hflying'
      flying_nodup := hnodup
      units := by
        unfold LifoSem.goto LifoSem.swap
        dsimp only
        rw [LifoSemHead.value_withPop hn, hunits]
        simp
      down := fun hd => by cases (hK.down hd).2
      knows := hK.knows_update rfl (fun hs => ⟨hshut.trans hs, fun h => (by cases h)⟩)
        (.inl (Nat.lt_succ_self _)) (fun _ _ _ _ => rfl) hk }

/-- **A node that is in no list is written to, or is somebody else's.** -/
theorem Kept.node_step (hK : Kept s lot ws) {v : Option (ι × Lot ι)} (hhead : t.head = s.head)
    (hticks : t.ticks = s.ticks) (hdown : t.down = s.down)
    (hpc : t.pc = Function.update s.pc p a) (hother : ∀ j ≠ i, t.node j = s.node j)
    (hroles : Roles (Function.update (fun q => (s.pc q).role) p a.role) (Function.update lot i v))
    (hnode : ∀ o g, v = some (o, g) → i ≠ 0 ∧ i ≠ -1 ∧ (t.node i).used = true ∧ g.Node t i)
    (hl : ¬ Listed (lot i)) (hl' : ¬ Listed v)
    (hflying : ∀ j, j ∈ t.flying ↔ Flies (Function.update lot i v j)) (hnodup : t.flying.Nodup)
    (hunits : t.posted = s.head.value.toNat + t.taken + t.flying.length)
    (hown : ∀ q ≠ p, ∀ j, (s.pc q).role = some (.fresh, j) ∨ (s.pc q).role = some (.tells, j) →
      (t.node j).next = (s.node j).next)
    (hk : a.Knows t ws) : Kept t (Function.update lot i v) ws := by
  have hnotin : i ∉ ws := fun hmem => hl ((hK.listed i).1 hmem)
  have hws : ∀ j ∈ ws, (t.node j).next = (s.node j).next := by
    intro j hj
    rw [hother j fun hji => hnotin (hji ▸ hj)]
  exact
    { roles := by
        rw [hpc, role_update]
        exact hroles
      node := hK.node_update hother (fun hs => by rw [hhead]; exact hs) hnode
      listed := mem_update hK.listed (iff_of_false hnotin hl') fun _ _ => Iff.rfl
      nodup := hK.nodup
      threaded := by
        rw [hhead]
        exact hK.threaded.congr hws
      head := by
        rw [hhead]
        exact hK.head
      seq := by
        rw [hhead, hticks]
        exact hK.seq
      flying := hflying
      flying_nodup := hnodup
      units := by
        rw [hhead]
        exact hunits
      down := by
        rw [hdown, hhead]
        exact hK.down
      knows := hK.knows_update hpc (fun hs => ⟨by rw [hhead]; exact hs, id⟩)
        (.inr ⟨hticks, fun j hj => ⟨hj, hws j hj⟩⟩) hown hk }

/-! ## One step -/

/-- The semaphore behind the word, with these nodes in the stack. -/
def LifoSem.abs (s : LifoSem ι) (ws : List (BitVec 32)) : Semaphore (BitVec 32) :=
  ⟨s.head.value.toNat, ws, s.flying, s.head.isShutdown⟩

/-- What `t` comes to is what `s` does, or one step from it. -/
def LifoSem.Follows (s t : LifoSem ι) (ws ws' : List (BitVec 32)) : Prop :=
  t.abs ws' = s.abs ws ∨ ∃ b, (semaphore (BitVec 32)).step (s.abs ws) b = some (t.abs ws')

/-- **From `s` to `t`** is one step of it or none, and `t` keeps what there is
to keep. -/
def LifoSem.Leads (s t : LifoSem ι) (ws ws' : List (BitVec 32)) : Prop :=
  (∃ lot, Kept t lot ws') ∧ s.Follows t ws ws'

/-- A thread pops, to hand a unit over. -/
theorem Kept.pop_step (hK : Kept s lot ws) (hpc : s.pc p = .pop n s.head next since)
    (hlate : s.ticks < since + 2 ^ 30) :
    s.Leads ((s.owe (s.head.withPop next) s.head.data).goto p (.handOff n s.head.data)) ws
      ws.tail := by
  have hk := hK.knows p
  rw [hpc] at hk
  obtain ⟨hn, hread, hnext⟩ := hk
  have hnode := hread.isNodeIdx
  have hnext := hnext (hread.now hK rfl hlate)
  obtain ⟨o, ws', rfl, ho⟩ := hK.top hnode
  obtain ⟨-, -, -, hposted⟩ := hK.node _ o _ ho
  have hfree := hK.not_flying ho rfl
  have hrole : (s.pc p).role = none := by rw [hpc]; rfl
  refine ⟨⟨_, hK.pop hnode ho hrole rfl rfl (g := .given p) rfl
    ⟨hK.roles.still ho hrole _, Function.update_self ..⟩ hnext
    ⟨hposted, hK.next_ne List.mem_cons_self⟩ ?_ ?_ ?_ ?_ hn⟩, .inr ⟨.hand, ?_⟩⟩
  · exact iff_of_true List.mem_cons_self ⟨o, _, rfl, rfl⟩
  · exact fun j hj => by rw [List.mem_cons, or_iff_right hj]
  · exact List.nodup_cons.2 ⟨hfree, hK.flying_nodup⟩
  · have hunits := hK.units
    rw [LifoSemHead.value_of_node hnode] at hunits
    rw [hunits, List.length_cons]
    simp
    omega
  · obtain ⟨-, -, hshut, -⟩ := LifoSemHead.withPop_spec hnode next
    simp [semaphore, Semaphore.step, LifoSem.abs, LifoSem.goto, LifoSem.owe, LifoSem.swap,
      LifoSemHead.value_of_node hnode, LifoSemHead.value_withPop hnode, hshut]

/-- A thread pops, to tell of the shutdown. -/
theorem Kept.wakePop_step (hK : Kept s lot ws) (hpc : s.pc p = .wakePop s.head next since)
    (hlate : s.ticks < since + 2 ^ 30) :
    s.Leads ((s.swap (s.head.withPop next)).goto p
        (.notice s.head.data (s.head.withPop next) (s.ticks + 1))) ws ws.tail := by
  have hk := hK.knows p
  rw [hpc] at hk
  obtain ⟨hdrained, hread, hnext⟩ := hk
  have hnode := hread.isNodeIdx
  have hnext := hnext (hread.now hK rfl hlate)
  obtain ⟨o, ws', rfl, ho⟩ := hK.top hnode
  obtain ⟨-, -, -, hposted⟩ := hK.node _ o _ ho
  have hfree := hK.not_flying ho rfl
  have hrole : (s.pc p).role = none := by rw [hpc]; rfl
  obtain ⟨hnode', hdata', hshut, hseq'⟩ := LifoSemHead.withPop_spec hnode next
  obtain ⟨hthreaded, hhead, hseq⟩ := hK.popped hnode
  rw [← hnext] at hthreaded hhead hseq
  refine ⟨⟨_, hK.pop hnode ho hrole rfl rfl (g := .told p) rfl
    ⟨hK.roles.still ho hrole _, Function.update_self ..⟩ hnext hposted (iff_of_false hfree ?_)
    (fun _ _ => Iff.rfl) hK.flying_nodup ?_
    ⟨⟨hshut.trans hdrained.isShutdown, hshut.trans hdrained.isShutdown, ?_⟩, ?_⟩⟩,
    .inr ⟨.rouse, ?_⟩⟩
  · simp [Flies, Lot.flies]
  · have hunits := hK.units
    rw [LifoSemHead.value_of_node hnode] at hunits
    rw [hunits]
    simp
  · intro hn
    refine hthreaded.eq_nil_iff.1 ?_
    exact LifoSemHead.first_of_not hn
  · intro hn
    refine ⟨hn, hhead hn, le_rfl, hseq, fun _ => ?_⟩
    rw [LifoSemHead.first_of_node hn] at hthreaded
    cases ws' with
    | nil => exact absurd hthreaded (hhead hn)
    | cons i ws' => exact hthreaded.1 ▸ List.mem_cons_self
  · simp [semaphore, Semaphore.step, LifoSem.abs, LifoSem.goto, LifoSem.swap, hdrained.isShutdown,
      LifoSemHead.value_of_node hnode, LifoSemHead.value_withPop hnode, hshut]

/-- The value is another, and a thread goes on. -/
theorem Kept.count_step (hK : Kept s lot ws) (hn : s.head.isNodeIdx = false)
    (hn' : h.isNodeIdx = false) (hshut : h.isShutdown = s.head.isShutdown)
    (hseq : h.seq.toNat = (s.head.seq.toNat + 1) % 2 ^ 30) (posted taken : ℕ)
    (hunits : posted = h.data.toNat + taken + s.flying.length)
    (hrole : a.role = (s.pc p).role ∨ ∃ i, (s.pc p).role = some (.fresh, i) ∧ a = .recycle i)
    (ha : ∀ t : LifoSem ι, a.Knows t ws) {b : SemAct (BitVec 32)}
    (hb : (semaphore (BitVec 32)).step (s.abs ws) b =
      some ⟨h.value.toNat, ws, s.flying, h.isShutdown⟩) :
    s.Leads ({ s.swap h with posted := posted, taken := taken }.goto p a) ws ws := by
  have hK' := hK.count hn hn' hshut hseq posted taken hunits
  rcases hrole with hrole | ⟨i, hrole, rfl⟩
  · exact ⟨⟨lot, hK'.goto hrole (ha _)⟩, .inr ⟨b, hb⟩⟩
  · have hlot := hK.roles.lot_fresh (p := p) hrole
    refine ⟨⟨_, hK'.goto_own .spent hrole hlot rfl rfl rfl ?_ ?_ ?_ (fun _ => trivial) trivial⟩,
      .inr ⟨b, hb⟩⟩
    · exact Function.update_self ..
    · simp [Listed]
    · simp [Flies, Lot.flies]

/-- A thread adds to the value. -/
theorem Kept.incr_step (hK : Kept s lot ws) (hpc : s.pc p = .incr n s.head) :
    s.Leads ((s.incr (s.head.withValueIncr n)
        ((s.head.withValueIncr n).data.toNat - s.head.data.toNat)).goto p .idle) ws ws := by
  have hk := hK.knows p
  rw [hpc] at hk
  obtain ⟨-, hnode⟩ := hk
  obtain ⟨hnode', hdata', hshut, hseq⟩ := LifoSemHead.withValueIncr_spec hnode n
  have hle := s.head.data.isLt
  have hunits := hK.units
  have hvalue := LifoSemHead.value_of_not hnode'
  rw [LifoSemHead.value_of_not hnode] at hunits
  refine hK.count_step hnode hnode' hshut hseq _ (s.swap (s.head.withValueIncr n)).taken ?_
    (.inl (by rw [hpc]; rfl)) (fun _ => trivial) (b := .post n.toNat) ?_
  · rw [LifoSem.swap_taken]
    omega
  · rw [hvalue, hdata', hshut, ← LifoSemHead.value_of_not hnode]
    exact if_pos (hK.nil_of hnode)

/-- A thread takes from the value. -/
theorem Kept.decr_step {waits : Bool} (hK : Kept s lot ws) (hpc : s.pc p = .decr waits n i s.head) :
    s.Leads ((s.decr (s.head.withValueDecr (s.head.delta n)) (s.head.delta n).toNat).goto p
        (if waits then if i = 0 then .idle else .recycle i
        else if n - s.head.delta n = 0 then .idle
        else .decrOrPush false (n - s.head.delta n) 0)) ws ws := by
  have hk := hK.knows p
  rw [hpc] at hk
  obtain ⟨hn, hi, hnode, hdata⟩ := hk
  have hle := s.head.delta_le n
  obtain ⟨hnode', hdata', hshut, hseq⟩ := LifoSemHead.withValueDecr_spec hnode hle
  have hunits := hK.units
  have hvalue := LifoSemHead.value_of_not hnode'
  rw [LifoSemHead.value_of_not hnode] at hunits
  refine hK.count_step hnode hnode' hshut hseq
    (s.swap (s.head.withValueDecr (s.head.delta n))).posted _ ?_ ?_ ?_
    (b := .take (s.head.delta n).toNat) ?_
  · rw [LifoSem.swap_posted]
    omega
  · cases waits with
    | false =>
      have hrole : (s.pc p).role = none := by
        rw [hpc]
        exact if_pos (hi rfl)
      left
      rw [hrole, if_neg (by decide)]
      split <;> rfl
    | true =>
      by_cases h0 : i = 0
      · have hrole : (s.pc p).role = none := by
          rw [hpc]
          exact if_pos h0
        left
        rw [hrole, if_pos rfl, if_pos h0]
        rfl
      · right
        exact ⟨i, by rw [hpc]; exact if_neg h0, by rw [if_pos rfl, if_neg h0]⟩
  · intro t
    split
    · split <;> trivial
    · split
      · trivial
      · next hne => exact ⟨hne, fun _ => rfl⟩
  · rw [hvalue, hdata', hshut, ← LifoSemHead.value_of_not hnode]
    refine if_pos ⟨LifoSemHead.delta_pos hn hdata, ?_⟩
    rw [← LifoSemHead.value_of_not hnode] at hle
    exact hle

/-- A unit is handed over. -/
theorem Kept.handOff_step (hK : Kept s lot ws) (hpc : s.pc p = .handOff n i) :
    s.Leads ((s.postNode i).goto p (if n = 1 then .idle else .incrOrPop (n - 1))) ws ws := by
  have hn := hK.knows p
  rw [hpc] at hn
  have hrole : (s.pc p).role = some (.gives, i) := by rw [hpc]; rfl
  obtain ⟨o, ho⟩ := hK.roles.lot_gives (q := p) hrole
  obtain ⟨h0, h1, hused, -, hnext⟩ := hK.node i o _ ho
  have hwaits : (s.pc o).role = some (.waits, i) := (hK.roles.fits i o _ ho).1
  have hop : o ≠ p := by
    rintro rfl
    rw [hrole] at hwaits
    cases hwaits
  have ha : (if n = 1 then LifoPc.idle else .incrOrPop (n - 1)).role = none := by
    split <;> rfl
  have hself : (s.postNode i).node i = { s.node i with posted := true } := Function.update_self ..
  refine ⟨⟨_, hK.node_step (v := some (o, .handed)) (i := i) rfl rfl rfl rfl
    (fun j hj => Function.update_of_ne hj ..) ?_ ?_ ?_ ?_ ?_ hK.flying_nodup hK.units
    (fun _ _ j _ => LifoSem.setNode_next s i (by rfl) j) ?_⟩, .inl rfl⟩
  · rw [ha]
    refine hK.roles.posted .handed hrole ho rfl (.inl ?_)
    rw [Function.update_of_ne hop]
    exact hwaits
  · intro o' g' hv
    cases hv
    change i ≠ 0 ∧ i ≠ -1 ∧ ((s.postNode i).node i).used = true ∧
      ((s.postNode i).node i).posted = true ∧ ((s.postNode i).node i).next ≠ -1
    rw [hself]
    exact ⟨h0, h1, hused, rfl, hnext⟩
  · rw [ho]
    simp [Listed]
  · simp [Listed]
  · refine mem_update hK.flying ?_ fun _ _ => Iff.rfl
    exact iff_of_true ((hK.flying i).2 ⟨o, _, ho, rfl⟩) ⟨o, _, rfl, rfl⟩
  · split
    · trivial
    · next hne =>
      intro h
      exact hne (by simpa using (BitVec.sub_eq_iff_eq_add.1 h))

/-- **A waiter pushes its node.** -/
theorem Kept.push_step (hK : Kept s lot ws) (hpc : s.pc p = .push i s.head) :
    s.Leads ({ s with head := s.head.withPush i }.goto p (.wait i)) ws (i :: ws) := by
  have hk := hK.knows p
  rw [hpc] at hk
  obtain ⟨hi, hshut, hiff, hnext⟩ := hk
  have hrole : (s.pc p).role = some (.fresh, i) := by rw [hpc]; rfl
  have hlot := hK.roles.lot_fresh (p := p) hrole
  obtain ⟨h0, h1, hused, hposted⟩ := hK.node i p _ hlot
  obtain ⟨hnode, hdata, hclear, hseq⟩ := s.head.withPush_spec i
  have hnotin : i ∉ ws := by
    intro hmem
    obtain ⟨o, ho⟩ := (hK.listed i).1 hmem
    rw [hlot] at ho
    cases ho
  have hvalue : s.head.value = 0 := by
    unfold LifoSemHead.value
    split
    · rfl
    · next hn => exact not_not.1 fun hd => hn (hiff.2 hd)
  refine ⟨⟨Function.update lot i (some (p, .listed)), ?_⟩, .inr ⟨.sleep i, ?_⟩⟩
  · exact
      { roles := by
          unfold LifoSem.goto
          dsimp only
          rw [role_update]
          exact hK.roles.own .listed hrole hlot rfl rfl (Function.update_self ..)
        node := hK.node_update (fun _ _ => rfl) (fun hs => by rw [hshut] at hs; cases hs)
          fun o g hv => by
            cases hv
            exact ⟨h0, h1, hused, hposted⟩
        listed := mem_update hK.listed (iff_of_true List.mem_cons_self ⟨p, rfl⟩)
          fun j hj => by rw [List.mem_cons, or_iff_right hj]
        nodup := List.nodup_cons.2 ⟨hnotin, hK.nodup⟩
        threaded := by
          have hfirst : (s.head.withPush i).first = i := by
            rw [LifoSemHead.first_of_node hnode, hdata]
          unfold LifoSem.goto
          dsimp only
          rw [hfirst]
          exact hK.threaded.push hi hnext
        head := fun _ => by
          unfold LifoSem.goto
          dsimp only
          rw [hdata]
          exact hi
        seq := hseq.trans hK.seq
        flying := mem_update hK.flying
          (iff_of_false (hK.not_flying hlot rfl) (by simp [Flies, Lot.flies])) fun _ _ => Iff.rfl
        flying_nodup := hK.flying_nodup
        units := by
          have hunits := hK.units
          unfold LifoSem.goto
          dsimp only
          rw [LifoSemHead.value_of_node hnode, ← hvalue]
          exact hunits
        down := fun hd => by
          have hs := (hK.down hd).1
          rw [hshut] at hs
          cases hs
        knows := hK.knows_update rfl (fun hs => by rw [hshut] at hs; cases hs)
          (.inr ⟨rfl, fun j hj => ⟨List.mem_cons_of_mem i hj, rfl⟩⟩) (fun _ _ _ _ => rfl) trivial }
  · change _ = some (Semaphore.mk (s.head.withPush i).value.toNat (i :: ws) s.flying
      (s.head.withPush i).isShutdown)
    rw [LifoSemHead.value_of_node hnode, hclear, ← hvalue, ← hshut]
    exact if_pos ⟨congrArg BitVec.toNat hvalue, hshut⟩

/-- A node is allocated. -/
theorem Kept.allocateNode_step (hK : Kept s lot ws) (hpc : s.pc p = .allocateNode) (h0 : i ≠ 0)
    (h1 : i ≠ -1) (hfree : (s.node i).used = false) :
    s.Leads ((s.setNode i ⟨0, false, true⟩).goto p (.decrOrPush true 1 i)) ws ws := by
  have hused : ∀ o g, lot i ≠ some (o, g) := by
    intro o g ho
    obtain ⟨-, -, hused, -⟩ := hK.node i o g ho
    rw [hfree] at hused
    cases hused
  have hlot : lot i = none := Option.eq_none_iff_forall_ne_some.2 fun x => hused x.1 x.2
  have ha : (LifoPc.decrOrPush true 1 i).role = some (.fresh, i) := if_neg h0
  have hself : (s.setNode i ⟨0, false, true⟩).node i = ⟨0, false, true⟩ := Function.update_self ..
  refine ⟨⟨_, hK.node_step (v := some (p, .fresh)) (i := i) rfl rfl rfl rfl
    (fun j hj => Function.update_of_ne hj ..) ?_ ?_ ?_ ?_ ?_ hK.flying_nodup hK.units ?_
    ⟨by decide, fun h => (by cases h)⟩⟩, .inl rfl⟩
  · rw [ha]
    exact hK.roles.alloc (by rw [hpc]; rfl) hlot
  · intro o g hv
    cases hv
    change i ≠ 0 ∧ i ≠ -1 ∧ ((s.setNode i ⟨0, false, true⟩).node i).used = true ∧
      ((s.setNode i ⟨0, false, true⟩).node i).posted = false
    rw [hself]
    exact ⟨h0, h1, rfl, rfl⟩
  · rw [hlot]
    simp [Listed]
  · simp [Listed]
  · refine mem_update hK.flying ?_ fun _ _ => Iff.rfl
    refine iff_of_false (fun hf => ?_) (by simp [Flies, Lot.flies])
    obtain ⟨o, g, ho, -⟩ := (hK.flying i).1 hf
    exact hused o g ho
  · intro q _ j hj
    have hne : j ≠ i := by
      rintro rfl
      rcases hj with hj | hj
      · exact hused q _ (hK.roles.lot_fresh hj)
      · obtain ⟨o, ho⟩ := hK.roles.lot_tells hj
        exact hused o _ ho
    exact congrArg WaitNode.next (Function.update_of_ne hne ..)

/-- A node is linked to the stack. -/
theorem Kept.link_step (hK : Kept s lot ws) (hpc : s.pc p = .link i h) :
    s.Leads ((s.setNext i h.first).goto p (.push i h)) ws ws := by
  have hk := hK.knows p
  rw [hpc] at hk
  obtain ⟨hi, hshut, hiff⟩ := hk
  have hrole : (s.pc p).role = some (.fresh, i) := by rw [hpc]; rfl
  have hlot := hK.roles.lot_fresh (p := p) hrole
  obtain ⟨h0, h1, hused, hposted⟩ := hK.node i p _ hlot
  have hself : (s.setNext i h.first).node i = { s.node i with next := h.first } :=
    Function.update_self ..
  refine ⟨⟨_, hK.node_step (v := some (p, .fresh)) (i := i) rfl rfl rfl rfl
    (fun j hj => Function.update_of_ne hj ..) ?_ ?_ ?_ ?_ ?_ hK.flying_nodup hK.units ?_
    ⟨hi, hshut, hiff, ?_⟩⟩, .inl rfl⟩
  · exact hK.roles.own .fresh hrole hlot rfl rfl (Function.update_self ..)
  · intro o g hv
    cases hv
    change i ≠ 0 ∧ i ≠ -1 ∧ ((s.setNext i h.first).node i).used = true ∧
      ((s.setNext i h.first).node i).posted = false
    rw [hself]
    exact ⟨h0, h1, hused, hposted⟩
  · rw [hlot]
    simp [Listed]
  · simp [Listed]
  · refine mem_update hK.flying ?_ fun _ _ => Iff.rfl
    exact iff_of_false (hK.not_flying hlot rfl) (by simp [Flies, Lot.flies])
  · intro q hqp j hj
    exact congrArg WaitNode.next (Function.update_of_ne (hK.roles.apart hqp (.inl hrole) hj) ..)
  · exact congrArg WaitNode.next hself

/-- A waiter takes the unit that it was handed. -/
theorem Kept.woken_step (hK : Kept s lot ws) (hpc : s.pc p = .woken i)
    (hnext : (s.node i).next ≠ -1) :
    s.Leads ({ s with taken := s.taken + 1, flying := s.flying.erase i }.goto p
        (.recycle i)) ws ws := by
  have hrole : (s.pc p).role = some (.woken, i) := by rw [hpc]; rfl
  have hlot : lot i = some (p, .handed) := by
    refine (hK.roles.lot_woken (p := p) hrole).resolve_right fun hlot => hnext ?_
    obtain ⟨-, -, -, -, hnotice, -⟩ := hK.node i p _ hlot
    exact hnotice
  obtain ⟨h0, h1, hused, -⟩ := hK.node i p _ hlot
  have hmem : i ∈ s.flying := (hK.flying i).2 ⟨p, _, hlot, rfl⟩
  have hunits := hK.units
  have hlen := List.length_erase_of_mem hmem
  have hpos := List.length_pos_of_mem hmem
  refine ⟨⟨_, hK.node_step (v := some (p, .spent)) (i := i) rfl rfl rfl rfl
    (fun _ _ => rfl) ?_ ?_ ?_ ?_ ?_ (hK.flying_nodup.erase i) ?_ (fun _ _ _ _ => rfl) trivial⟩,
    .inr ⟨.wake i, if_pos hmem⟩⟩
  · exact hK.roles.own .spent hrole hlot rfl rfl (Function.update_self ..)
  · intro o g hv
    cases hv
    exact ⟨h0, h1, hused, trivial⟩
  · rw [hlot]
    simp [Listed]
  · simp [Listed]
  · refine mem_update hK.flying ?_ fun j hj => List.mem_erase_of_ne hj
    exact iff_of_false (hK.flying_nodup.not_mem_erase) (by simp [Flies, Lot.flies])
  · change s.posted = s.head.value.toNat + (s.taken + 1) + (s.flying.erase i).length
    omega

/-- A node goes back to the pool. -/
theorem Kept.recycle_step (hK : Kept s lot ws) (hpc : s.pc p = .recycle i) :
    s.Leads ((s.setNode i { s.node i with used := false }).goto p .idle) ws ws := by
  have hrole : (s.pc p).role = some (.spent, i) := by rw [hpc]; rfl
  have hlot := hK.roles.lot_spent (p := p) hrole
  refine ⟨⟨_, hK.node_step (v := none) (i := i) rfl rfl rfl rfl
    (fun j hj => Function.update_of_ne hj ..) ?_ (fun o g hv => by cases hv) ?_ ?_ ?_
    hK.flying_nodup hK.units (fun _ _ j _ => LifoSem.setNode_next s i (by rfl) j) trivial⟩,
    .inl rfl⟩
  · exact hK.roles.recycle hrole
  · rw [hlot]
    simp [Listed]
  · simp [Listed]
  · refine mem_update hK.flying ?_ fun _ _ => Iff.rfl
    exact iff_of_false (hK.not_flying hlot rfl) (by simp [Flies])

/-- The head says that the semaphore is shut down. -/
theorem Kept.shut_step (hK : Kept s lot ws) (hnode : h.isNodeIdx = s.head.isNodeIdx)
    (hdata : h.data = s.head.data) (hshut : h.isShutdown = true)
    (hseq : h.seq.toNat = s.head.seq.toNat) (hrole : (s.pc p).role = none) :
    s.Leads ({ s with head := h }.goto p (.wake h s.ticks)) ws ws := by
  have hK' := hK.shut hnode hdata hshut hseq
  refine ⟨⟨lot, hK'.goto hrole.symm ⟨⟨hshut, hshut, hK'.nil_of⟩, hK'.read⟩⟩, .inr ⟨.close, ?_⟩⟩
  unfold LifoSem.abs LifoSem.goto
  dsimp only
  rw [LifoSemHead.value_congr hnode hdata, hshut]
  rfl

/-- `shutdown` returns. -/
theorem Kept.returned_step (hK : Kept s lot ws) (hpc : s.pc p = .wake h since)
    (hnode : h.isNodeIdx = false) :
    s.Leads ({ s with down := true }.goto p .idle) ws ws := by
  have hk := hK.knows p
  rw [hpc] at hk
  obtain ⟨hdrained, -⟩ := hk
  have hK' := hK.history s.failed fun (_ : true = true) => ⟨hdrained.still, hdrained.nil hnode⟩
  exact ⟨⟨lot, hK'.goto (by rw [hpc]; rfl) trivial⟩, .inl rfl⟩

/-- A node is told of the shutdown. -/
theorem Kept.notice_step (hK : Kept s lot ws) (hpc : s.pc p = .notice i h since) :
    s.Leads ((s.setNext i (-1)).goto p (.wakePost i h since)) ws ws := by
  have hk := hK.knows p
  rw [hpc] at hk
  obtain ⟨hdrained, hread⟩ := hk
  have hrole : (s.pc p).role = some (.tells, i) := by rw [hpc]; rfl
  obtain ⟨o, hlot⟩ := hK.roles.lot_tells (q := p) hrole
  obtain ⟨h0, h1, hused, hposted⟩ := hK.node i o _ hlot
  have hself : (s.setNext i (-1)).node i = { s.node i with next := -1 } := Function.update_self ..
  have hne : ∀ j ∈ ws, j ≠ i := by
    rintro j hj rfl
    obtain ⟨o', ho'⟩ := (hK.listed j).1 hj
    rw [hlot] at ho'
    cases ho'
  have hlists : ∀ j ∈ ws, j ∈ ws ∧ ((s.setNext i (-1)).node j).next = (s.node j).next :=
    fun j hj => ⟨hj, congrArg WaitNode.next (Function.update_of_ne (hne j hj) ..)⟩
  refine ⟨⟨_, hK.node_step (v := some (o, .told p)) (i := i) rfl rfl rfl rfl
    (fun j hj => Function.update_of_ne hj ..) ?_ ?_ ?_ ?_ ?_ hK.flying_nodup hK.units ?_
    ⟨hdrained.frame fun hs => ⟨hs, id⟩, fun hn => (hread hn).frame (.inr ⟨rfl, hlists⟩), ?_⟩⟩,
    .inl rfl⟩
  · rw [← hlot, Function.update_eq_self]
    exact hK.roles.same hrole.symm
  · intro o' g hv
    cases hv
    change i ≠ 0 ∧ i ≠ -1 ∧ ((s.setNext i (-1)).node i).used = true ∧
      ((s.setNext i (-1)).node i).posted = false
    rw [hself]
    exact ⟨h0, h1, hused, hposted⟩
  · rw [hlot]
    simp [Listed]
  · simp [Listed]
  · refine mem_update hK.flying ?_ fun _ _ => Iff.rfl
    exact iff_of_false (hK.not_flying hlot rfl) (by simp [Flies, Lot.flies])
  · intro q hqp j hj
    exact congrArg WaitNode.next (Function.update_of_ne (hK.roles.apart hqp (.inr hrole) hj) ..)
  · exact congrArg WaitNode.next hself

/-- and posted. -/
theorem Kept.wakePost_step (hK : Kept s lot ws) (hpc : s.pc p = .wakePost i h since) :
    s.Leads ((s.postNode i).goto p (.wake h since)) ws ws := by
  have hk := hK.knows p
  rw [hpc] at hk
  obtain ⟨hdrained, hread, hnext⟩ := hk
  have hrole : (s.pc p).role = some (.tells, i) := by rw [hpc]; rfl
  obtain ⟨o, ho⟩ := hK.roles.lot_tells (q := p) hrole
  obtain ⟨h0, h1, hused, -⟩ := hK.node i o _ ho
  have hwaits : (s.pc o).role = some (.waits, i) := (hK.roles.fits i o _ ho).1
  have hop : o ≠ p := by
    rintro rfl
    rw [hrole] at hwaits
    cases hwaits
  have hself : (s.postNode i).node i = { s.node i with posted := true } := Function.update_self ..
  have hlists : ∀ j ∈ ws, j ∈ ws ∧ ((s.postNode i).node j).next = (s.node j).next :=
    fun j hj => ⟨hj, LifoSem.setNode_next s i (by rfl) j⟩
  refine ⟨⟨_, hK.node_step (v := some (o, .noticed)) (i := i) rfl rfl rfl rfl
    (fun j hj => Function.update_of_ne hj ..) ?_ ?_ ?_ ?_ ?_ hK.flying_nodup hK.units
    (fun _ _ j _ => LifoSem.setNode_next s i (by rfl) j)
    ⟨hdrained.frame fun hs => ⟨hs, id⟩, fun hn => (hread hn).frame (.inr ⟨rfl, hlists⟩)⟩⟩,
    .inl rfl⟩
  · refine hK.roles.posted .noticed hrole ho rfl (.inl ?_)
    rw [Function.update_of_ne hop]
    exact hwaits
  · intro o' g hv
    cases hv
    change i ≠ 0 ∧ i ≠ -1 ∧ ((s.postNode i).node i).used = true ∧
      ((s.postNode i).node i).posted = true ∧ ((s.postNode i).node i).next = -1 ∧
      s.head.isShutdown = true
    rw [hself]
    exact ⟨h0, h1, hused, rfl, hnext, hdrained.still⟩
  · rw [ho]
    simp [Listed]
  · simp [Listed]
  · refine mem_update hK.flying ?_ fun _ _ => Iff.rfl
    exact iff_of_false (hK.not_flying ho rfl) (by simp [Flies, Lot.flies])

omit [DecidableEq ι] in
/-- Somebody else writes to a node. -/
theorem Kept.other_step (hK : Kept s lot ws) (hfree : (s.node i).used = false) :
    Kept (s.setNext i next) lot ws := by
  have hne : ∀ j o g, lot j = some (o, g) → j ≠ i := by
    rintro j o g ho rfl
    obtain ⟨-, -, hused, -⟩ := hK.node j o g ho
    rw [hfree] at hused
    cases hused
  have hother : ∀ j ≠ i, (s.setNext i next).node j = s.node j :=
    fun j hj => Function.update_of_ne hj ..
  have hws : ∀ j ∈ ws, ((s.setNext i next).node j).next = (s.node j).next := by
    intro j hj
    obtain ⟨o, ho⟩ := (hK.listed j).1 hj
    rw [hother j (hne j o _ ho)]
  exact
    { roles := hK.roles
      node := fun j o g ho => by
        obtain ⟨h0, h1, hused, hnode⟩ := hK.node j o g ho
        have hj := hother j (hne j o g ho)
        exact ⟨h0, h1, by rw [hj]; exact hused, hnode.frame hj id⟩
      listed := hK.listed
      nodup := hK.nodup
      threaded := hK.threaded.congr hws
      head := hK.head
      seq := hK.seq
      flying := hK.flying
      flying_nodup := hK.flying_nodup
      units := hK.units
      down := hK.down
      knows := fun q => (hK.knows q).frame (fun hs => ⟨hs, id⟩)
        (.inr ⟨rfl, fun j hj => ⟨hj, hws j hj⟩⟩) fun j hj => by
          rcases hj with hj | hj
          · rw [hother j (hne j q _ (hK.roles.lot_fresh (p := q) hj))]
          · obtain ⟨o, ho⟩ := hK.roles.lot_tells (q := q) hj
            rw [hother j (hne j o _ ho)] }

end

end Contentious.Pool
