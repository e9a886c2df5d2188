import Contentious.Common.Threaded
import Contentious.Pool.LifoSem

/-!
# Pool — waiters and those who wake them

A node of the semaphore has one owner, the waiter, from when it is allocated
until it is recycled. While the owner waits, the node is in the stack, or
somebody has popped it and is about to post it, or it is posted: its `Lot`.
Who may touch a node follows from its lot, and that no two threads do
(`Roles`); that the lots and the word agree is what every step keeps
(`Kept`), with the units counted.

A swap that pops rests on the count in the word. The thread has read the
node's next pointer some time ago, and the node need not be the one it was.
But every pop changes the count, so while it is what it was the node has
been in the stack all along. The count wraps around at `2 ^ 30`, and this is
the one thing that is asked of a run (`InTime`): no thread is that late.
-/

namespace Contentious.Pool

/-! ## Who has which node -/

/-- What a thread has to do with a node. -/
inductive Duty
  /-- the owner has not pushed it -/
  | fresh
  | waits
  | woken
  /-- the owner is about to recycle it -/
  | spent
  /-- another thread is about to hand it a unit -/
  | gives
  /-- another thread is about to tell it of the shutdown -/
  | tells
deriving DecidableEq

def Duty.owns : Duty → Bool
  | .gives => false
  | .tells => false
  | _ => true

/-- What a thread that is there has to do, and with which node. -/
def LifoPc.role : LifoPc → Option (Duty × BitVec 32)
  | .decrOrPush _ _ i => if i = 0 then none else some (.fresh, i)
  | .decr _ _ i _ => if i = 0 then none else some (.fresh, i)
  | .link i _ => some (.fresh, i)
  | .push i _ => some (.fresh, i)
  | .wait i => some (.waits, i)
  | .woken i => some (.woken, i)
  | .refused i => some (.spent, i)
  | .recycle i => some (.spent, i)
  | .handOff _ i => some (.gives, i)
  | .notice i _ _ => some (.tells, i)
  | .wakePost i _ _ => some (.tells, i)
  | _ => none

/-- How a node stands that has an owner. -/
inductive Lot (ι : Type)
  | fresh
  /-- it is in the stack -/
  | listed
  /-- `q` has popped it and will hand it a unit -/
  | given (q : ι)
  /-- `q` has popped it and will tell it of the shutdown -/
  | told (q : ι)
  /-- it is posted, with a unit -/
  | handed
  /-- it is posted, with a notice -/
  | noticed
  | spent

variable {ι : Type}

/-- The thread that has popped it, and is to post it. -/
def Lot.by : Lot ι → Option ι
  | .given q => some q
  | .told q => some q
  | _ => none

/-- A unit is on its way to the owner. -/
def Lot.flies : Lot ι → Bool
  | .given _ => true
  | .handed => true
  | _ => false

/-- The node is in the stack. -/
def Listed (x : Option (ι × Lot ι)) : Prop := ∃ o, x = some (o, .listed)

/-- A unit is on its way to its owner. -/
def Flies (x : Option (ι × Lot ι)) : Prop := ∃ o g, x = some (o, g) ∧ g.flies = true

/-- A lot of node `i`, owned by `o`, and what the threads have to do. -/
def Lot.Fits (r : ι → Option (Duty × BitVec 32)) (i : BitVec 32) (o : ι) : Lot ι → Prop
  | .fresh => r o = some (.fresh, i)
  | .listed => r o = some (.waits, i)
  | .given q => r o = some (.waits, i) ∧ r q = some (.gives, i)
  | .told q => r o = some (.waits, i) ∧ r q = some (.tells, i)
  | .handed => r o = some (.waits, i) ∨ r o = some (.woken, i)
  | .noticed => r o = some (.waits, i) ∨ r o = some (.woken, i)
  | .spent => r o = some (.spent, i)

variable {r : ι → Option (Duty × BitVec 32)} {lot v : BitVec 32 → Option (ι × Lot ι)}
variable {i j : BitVec 32} {o p q : ι} {g : Lot ι} {d : Duty} {c : Option (Duty × BitVec 32)}

/-- **Everybody has one node at most, and a node what its lot says.** -/
structure Roles (r : ι → Option (Duty × BitVec 32)) (lot : BitVec 32 → Option (ι × Lot ι)) :
    Prop where
  fits : ∀ i o g, lot i = some (o, g) → g.Fits r i o
  owns : ∀ p d i, r p = some (d, i) → d.owns = true → ∃ g, lot i = some (p, g)
  posts : ∀ q d i, r q = some (d, i) → d.owns = false → ∃ o g, lot i = some (o, g) ∧ g.by = some q

namespace Roles

/-- The lot of an owner's node. -/
theorem lot_fresh (hR : Roles r lot) (h : r p = some (.fresh, i)) : lot i = some (p, .fresh) := by
  obtain ⟨g, hg⟩ := hR.owns p _ i h rfl
  have hf := hR.fits i p g hg
  cases g <;> simp_all [Lot.Fits]

theorem lot_spent (hR : Roles r lot) (h : r p = some (.spent, i)) : lot i = some (p, .spent) := by
  obtain ⟨g, hg⟩ := hR.owns p _ i h rfl
  have hf := hR.fits i p g hg
  cases g <;> simp_all [Lot.Fits]

theorem lot_woken (hR : Roles r lot) (h : r p = some (.woken, i)) :
    lot i = some (p, .handed) ∨ lot i = some (p, .noticed) := by
  obtain ⟨g, hg⟩ := hR.owns p _ i h rfl
  have hf := hR.fits i p g hg
  cases g <;> simp_all [Lot.Fits]

theorem lot_gives (hR : Roles r lot) (h : r q = some (.gives, i)) :
    ∃ o, lot i = some (o, .given q) := by
  obtain ⟨o, g, hg, hq⟩ := hR.posts q _ i h rfl
  have hf := hR.fits i o g hg
  cases g <;> simp_all [Lot.Fits, Lot.by]

theorem lot_tells (hR : Roles r lot) (h : r q = some (.tells, i)) :
    ∃ o, lot i = some (o, .told q) := by
  obtain ⟨o, g, hg, hq⟩ := hR.posts q _ i h rfl
  have hf := hR.fits i o g hg
  cases g <;> simp_all [Lot.Fits, Lot.by]

/-- **One thread goes on, and one node's lot is another.** -/
theorem move [DecidableEq ι] (hR : Roles r lot) {v : Option (ι × Lot ι)}
    (hold : ∀ d j, r p = some (d, j) → j = i) (hnew : ∀ d j, c = some (d, j) → j = i)
    (hfit : ∀ o g, v = some (o, g) → g.Fits (Function.update r p c) i o)
    (hkeep : ∀ o g, lot i = some (o, g) →
      (∀ q ≠ p, g.by ≠ some q) ∧ (o ≠ p → ∃ g', v = some (o, g')))
    (howns : ∀ d, c = some (d, i) → d.owns = true → ∃ g, v = some (p, g))
    (hposts : ∀ d, c = some (d, i) → d.owns = false → ∃ o g, v = some (o, g) ∧ g.by = some p) :
    Roles (Function.update r p c) (Function.update lot i v) := by
  refine ⟨fun j o g hj => ?_, fun q d j hq hd => ?_, fun q d j hq hd => ?_⟩
  · by_cases hji : j = i
    · subst hji
      rw [Function.update_self] at hj
      exact hfit o g hj
    · rw [Function.update_of_ne hji] at hj
      have hf := hR.fits j o g hj
      -- the thread has nothing to do with this node
      have hsame : ∀ q d, r q = some (d, j) → Function.update r p c q = some (d, j) := by
        intro q d hq
        have hqp : q ≠ p := by
          rintro rfl
          exact hji (hold d j hq)
        rw [Function.update_of_ne hqp]
        exact hq
      cases g with
      | fresh => exact hsame o _ hf
      | listed => exact hsame o _ hf
      | given q => exact ⟨hsame o _ hf.1, hsame q _ hf.2⟩
      | told q => exact ⟨hsame o _ hf.1, hsame q _ hf.2⟩
      | handed => exact hf.imp (hsame o _) (hsame o _)
      | noticed => exact hf.imp (hsame o _) (hsame o _)
      | spent => exact hsame o _ hf
  · by_cases hqp : q = p
    · subst hqp
      rw [Function.update_self] at hq
      obtain rfl := hnew d j hq
      rw [Function.update_self]
      exact howns d hq hd
    · rw [Function.update_of_ne hqp] at hq
      obtain ⟨g, hg⟩ := hR.owns q d j hq hd
      by_cases hji : j = i
      · subst hji
        rw [Function.update_self]
        exact (hkeep q g hg).2 hqp
      · exact ⟨g, by rw [Function.update_of_ne hji, hg]⟩
  · by_cases hqp : q = p
    · subst hqp
      rw [Function.update_self] at hq
      obtain rfl := hnew d j hq
      rw [Function.update_self]
      exact hposts d hq hd
    · rw [Function.update_of_ne hqp] at hq
      obtain ⟨o, g, hg, hby⟩ := hR.posts q d j hq hd
      by_cases hji : j = i
      · subst hji
        exact absurd hby ((hkeep o g hg).1 q hqp)
      · exact ⟨o, g, by rw [Function.update_of_ne hji, hg], hby⟩

/-- An owner goes on with its node. -/
theorem own [DecidableEq ι] (hR : Roles r lot) {d' : Duty} (g' : Lot ι) (hp : r p = some (d, i))
    (hi : lot i = some (p, g)) (hby : g.by = none) (hd : d'.owns = true)
    (hfit : g'.Fits (Function.update r p (some (d', i))) i p) :
    Roles (Function.update r p (some (d', i))) (Function.update lot i (some (p, g'))) := by
  refine hR.move (fun d j hj => ?_) (fun d j hj => ?_) (fun o g h => ?_) (fun o g h => ?_)
    (fun d h _ => ⟨g', rfl⟩) fun d h hd' => ?_
  · rw [hp] at hj
    cases hj
    rfl
  · cases hj
    rfl
  · cases h
    exact hfit
  · rw [hi] at h
    cases h
    exact ⟨fun q _ hq => (by rw [hby] at hq; cases hq), fun hne => absurd rfl hne⟩
  · cases h
    rw [hd] at hd'
    cases hd'

/-- A thread that has to do what it had to. -/
theorem same [DecidableEq ι] (hR : Roles r lot) (hc : c = r p) :
    Roles (Function.update r p c) lot := by
  rw [hc, Function.update_eq_self]
  exact hR

end Roles

/-! ## What is kept -/

/-- A node with an owner. -/
def Lot.Node (s : LifoSem ι) (i : BitVec 32) : Lot ι → Prop
  | .fresh => (s.node i).posted = false
  | .listed => (s.node i).posted = false
  | .given _ => (s.node i).posted = false ∧ (s.node i).next ≠ -1
  | .told _ => (s.node i).posted = false
  | .handed => (s.node i).posted = true ∧ (s.node i).next ≠ -1
  | .noticed => (s.node i).posted = true ∧ (s.node i).next = -1 ∧ s.head.isShutdown = true
  | .spent => True

/-- **What a popping thread knows of the head it has read**: while the count
is the same its node is in the stack. -/
structure Read (s : LifoSem ι) (ws : List (BitVec 32)) (h : LifoSemHead) (since : ℕ) : Prop where
  isNodeIdx : h.isNodeIdx = true
  data_ne : h.data ≠ 0
  le : since ≤ s.ticks
  seq : h.seq.toNat = since % 2 ^ 30
  mem : since = s.ticks → h.data ∈ ws

/-- What `shutdown` knows of it: where it was no node there is none. -/
structure Drained (s : LifoSem ι) (ws : List (BitVec 32)) (h : LifoSemHead) : Prop where
  isShutdown : h.isShutdown = true
  still : s.head.isShutdown = true
  nil : h.isNodeIdx = false → ws = []

/-- **What a thread knows where it is.** -/
def LifoPc.Knows (s : LifoSem ι) (ws : List (BitVec 32)) : LifoPc → Prop
  | .incrOrPop n => n ≠ 0
  | .popNext n h since => n ≠ 0 ∧ Read s ws h since
  | .pop n h next since =>
    n ≠ 0 ∧ Read s ws h since ∧ (since = s.ticks → next = (s.node h.data).next)
  | .incr n h => n ≠ 0 ∧ h.isNodeIdx = false
  | .handOff n _ => n ≠ 0
  | .decrOrPush waits n i => n ≠ 0 ∧ (waits = false → i = 0)
  | .decr waits n i h => n ≠ 0 ∧ (waits = false → i = 0) ∧ h.isNodeIdx = false ∧ h.data ≠ 0
  | .link i h => i ≠ 0 ∧ h.isShutdown = false ∧ (h.isNodeIdx = true ↔ h.data ≠ 0)
  | .push i h => i ≠ 0 ∧ h.isShutdown = false ∧ (h.isNodeIdx = true ↔ h.data ≠ 0) ∧
      (s.node i).next = h.first
  | .refused _ => s.head.isShutdown = true
  | .wake h since => Drained s ws h ∧ (h.isNodeIdx = true → Read s ws h since)
  | .wakePop h next since =>
    Drained s ws h ∧ Read s ws h since ∧ (since = s.ticks → next = (s.node h.data).next)
  | .notice _ h since => Drained s ws h ∧ (h.isNodeIdx = true → Read s ws h since)
  | .wakePost i h since => Drained s ws h ∧ (h.isNodeIdx = true → Read s ws h since) ∧
      (s.node i).next = -1
  | _ => True

/-- **What every step keeps**, for the nodes `ws` in the stack and the lots
of all nodes. -/
structure Kept (s : LifoSem ι) (lot : BitVec 32 → Option (ι × Lot ι)) (ws : List (BitVec 32)) :
    Prop where
  roles : Roles (fun p => (s.pc p).role) lot
  node : ∀ i o g, lot i = some (o, g) → i ≠ 0 ∧ i ≠ -1 ∧ (s.node i).used = true ∧ g.Node s i
  listed : ∀ i, i ∈ ws ↔ Listed (lot i)
  nodup : ws.Nodup
  threaded : Threaded (fun i => (s.node i).next) 0 s.head.first ws
  head : s.head.isNodeIdx = true → s.head.data ≠ 0
  seq : s.head.seq.toNat = s.ticks % 2 ^ 30
  flying : ∀ i, i ∈ s.flying ↔ Flies (lot i)
  flying_nodup : s.flying.Nodup
  units : s.posted = s.head.value.toNat + s.taken + s.flying.length
  down : s.down = true → s.head.isShutdown = true ∧ ws = []
  knows : ∀ p, (s.pc p).Knows s ws

variable {s t : LifoSem ι} {ws ws' : List (BitVec 32)} {h : LifoSemHead} {since : ℕ}
variable {n idx : BitVec 32} {a b : LifoPc}

/-- What other threads do leaves what is known. -/
theorem Read.frame (hr : Read s ws h since) (hticks : s.ticks < t.ticks ∨ t.ticks = s.ticks ∧
    ∀ i ∈ ws, i ∈ ws' ∧ (t.node i).next = (s.node i).next) : Read t ws' h since where
  isNodeIdx := hr.isNodeIdx
  data_ne := hr.data_ne
  le := by
    have := hr.le
    omega
  seq := hr.seq
  mem hs := by
    have hle := hr.le
    rcases hticks with hlt | ⟨heq, hws⟩
    · omega
    · exact (hws _ (hr.mem (by omega))).1

theorem Read.next_frame {next : BitVec 32} (hr : Read s ws h since)
    (hnext : since = s.ticks → next = (s.node h.data).next)
    (hticks : s.ticks < t.ticks ∨ t.ticks = s.ticks ∧
      ∀ i ∈ ws, i ∈ ws' ∧ (t.node i).next = (s.node i).next) :
    since = t.ticks → next = (t.node h.data).next := by
  intro hs
  have hle := hr.le
  rcases hticks with hlt | ⟨heq, hws⟩
  · omega
  · rw [(hws _ (hr.mem (by omega))).2]
    exact hnext (by omega)

theorem Drained.frame (hd : Drained s ws h) (hstill : s.head.isShutdown = true →
    t.head.isShutdown = true ∧ (ws = [] → ws' = [])) : Drained t ws' h :=
  ⟨hd.isShutdown, (hstill hd.still).1, fun hn => (hstill hd.still).2 (hd.nil hn)⟩

theorem LifoPc.Knows.frame (hk : a.Knows s ws)
    (hstill : s.head.isShutdown = true → t.head.isShutdown = true ∧ (ws = [] → ws' = []))
    (hticks : s.ticks < t.ticks ∨ t.ticks = s.ticks ∧
      ∀ i ∈ ws, i ∈ ws' ∧ (t.node i).next = (s.node i).next)
    (hown : ∀ i, a.role = some (.fresh, i) ∨ a.role = some (.tells, i) →
      (t.node i).next = (s.node i).next) : a.Knows t ws' := by
  cases a with
  | popNext n h since => exact ⟨hk.1, hk.2.frame hticks⟩
  | pop n h next since => exact ⟨hk.1, hk.2.1.frame hticks, hk.2.1.next_frame hk.2.2 hticks⟩
  | push i h => exact ⟨hk.1, hk.2.1, hk.2.2.1, by rw [hown i (.inl rfl)]; exact hk.2.2.2⟩
  | refused i => exact (hstill hk).1
  | wake h since => exact ⟨hk.1.frame hstill, fun hn => (hk.2 hn).frame hticks⟩
  | wakePop h next since =>
    exact ⟨hk.1.frame hstill, hk.2.1.frame hticks, hk.2.1.next_frame hk.2.2 hticks⟩
  | notice i h since => exact ⟨hk.1.frame hstill, fun hn => (hk.2 hn).frame hticks⟩
  | wakePost i h since =>
    exact ⟨hk.1.frame hstill, fun hn => (hk.2.1 hn).frame hticks,
      by rw [hown i (.inr rfl)]; exact hk.2.2⟩
  | _ => exact hk

/-- What a thread learns that reads the head now. -/
theorem Kept.read (hK : Kept s lot ws) (hn : s.head.isNodeIdx = true) :
    Read s ws s.head s.ticks where
  isNodeIdx := hn
  data_ne := hK.head hn
  le := le_rfl
  seq := hK.seq
  mem _ := by
    have ht := hK.threaded
    unfold LifoSemHead.first at ht
    rw [if_pos hn] at ht
    cases ws with
    | nil => exact absurd ht (hK.head hn)
    | cons i ws => exact ht.1 ▸ List.mem_cons_self

/-- Without a node at the head there is none. -/
theorem Kept.nil_of (hK : Kept s lot ws) (hn : s.head.isNodeIdx = false) : ws = [] := by
  refine hK.threaded.eq_nil_iff.1 ?_
  unfold LifoSemHead.first
  rw [hn]
  rfl

/-- **What is asserted holds.** -/
theorem Kept.asserts (hK : Kept s lot ws) (p : ι) : s.asserts (s.pc p) = true := by
  have hk := hK.knows p
  cases hpc : s.pc p with
  | incrOrPop n =>
    rw [hpc] at hk
    exact bne_iff_ne.2 hk
  | popNext n h since =>
    rw [hpc] at hk
    exact Bool.and_eq_true_iff.2 ⟨hk.2.isNodeIdx, bne_iff_ne.2 hk.2.data_ne⟩
  | pop n h next since =>
    rw [hpc] at hk
    exact hk.2.1.isNodeIdx
  | incr n h =>
    rw [hpc] at hk
    exact Bool.not_eq_true' _ ▸ hk.2
  | handOff n i =>
    obtain ⟨o, hi⟩ := hK.roles.lot_gives (q := p) (i := i) (by rw [hpc]; rfl)
    obtain ⟨-, -, hused, hposted, -⟩ := hK.node i o _ hi
    unfold LifoSem.asserts
    dsimp only
    rw [hused, hposted]
    rfl
  | decrOrPush waits n i =>
    rw [hpc] at hk
    exact bne_iff_ne.2 hk.1
  | decr waits n i h =>
    rw [hpc] at hk
    obtain ⟨hn, -, hnode, hdata⟩ := hk
    unfold LifoSem.asserts LifoSemHead.delta
    dsimp only
    rw [hnode]
    split
    · next hle => rw [bne_iff_ne.2 hn, decide_eq_true hle]; rfl
    · rw [bne_iff_ne.2 hdata, decide_eq_true (BitVec.le_refl _)]; rfl
  | link i h =>
    rw [hpc] at hk
    unfold LifoSem.asserts
    dsimp only
    cases hn : h.isNodeIdx with
    | false => rfl
    | true => exact bne_iff_ne.2 (hk.2.2.1 hn)
  | push i h =>
    rw [hpc] at hk
    obtain ⟨hi, hshut, hiff, -⟩ := hk
    unfold LifoSem.asserts
    dsimp only
    rw [hshut, bne_iff_ne.2 hi]
    cases hn : h.isNodeIdx with
    | false =>
      have hdata : h.data = 0 := by
        by_contra hd
        rw [hiff.2 hd] at hn
        cases hn
      rw [hdata]
      rfl
    | true => rfl
  | woken i =>
    unfold LifoSem.asserts
    dsimp only
    rcases hK.roles.lot_woken (p := p) (i := i) (by rw [hpc]; rfl) with hi | hi
    · obtain ⟨-, -, -, -, hnext⟩ := hK.node i p _ hi
      rw [bne_iff_ne.2 hnext]
      rfl
    · obtain ⟨-, -, -, -, -, hshut⟩ := hK.node i p _ hi
      rw [hshut, Bool.or_true]
  | refused i =>
    rw [hpc] at hk
    exact hk
  | wake h since =>
    rw [hpc] at hk
    unfold LifoSem.asserts
    dsimp only
    cases hn : h.isNodeIdx with
    | false => rfl
    | true => exact bne_iff_ne.2 (hk.2 hn).data_ne
  | wakePop h next since =>
    rw [hpc] at hk
    exact hk.2.1.isNodeIdx
  | wakePost i h since =>
    obtain ⟨o, hi⟩ := hK.roles.lot_tells (q := p) (i := i) (by rw [hpc]; rfl)
    obtain ⟨-, -, hused, hposted⟩ := hK.node i o _ hi
    have hposted : (s.node i).posted = false := hposted
    unfold LifoSem.asserts
    dsimp only
    rw [hused, hposted]
    rfl
  | _ => rfl

/-! ## Steps that write nothing -/

/-- What `shutdown` knows when it has read the head. -/
theorem Kept.afterLoad (hK : Kept s lot ws) : s.afterLoad.Knows s ws := by
  unfold LifoSem.afterLoad
  split
  · next hshut => exact ⟨⟨hshut, hshut, hK.nil_of⟩, hK.read⟩
  · trivial

/-- A list of the nodes of some lot, when the lot of one is another. -/
theorem mem_update {P : Option (ι × Lot ι) → Prop} {l l' : List (BitVec 32)}
    {v : Option (ι × Lot ι)} (h : ∀ j, j ∈ l ↔ P (lot j)) (hi : i ∈ l' ↔ P v)
    (hj : ∀ j ≠ i, (j ∈ l' ↔ j ∈ l)) (j : BitVec 32) :
    j ∈ l' ↔ P (Function.update lot i v j) := by
  by_cases hji : j = i
  · rw [hji, Function.update_self]
    exact hi
  · rw [Function.update_of_ne hji, hj j hji]
    exact h j

theorem Lot.Node.frame (hg : g.Node s i) (hnode : t.node i = s.node i)
    (hshut : s.head.isShutdown = true → t.head.isShutdown = true) : g.Node t i := by
  unfold Lot.Node at hg ⊢
  rw [hnode]
  cases g with
  | noticed => exact ⟨hg.1, hg.2.1, hshut hg.2.2⟩
  | _ => exact hg

/-- The nodes, when one of them is another. -/
theorem Kept.node_update (hK : Kept s lot ws) {v : Option (ι × Lot ι)}
    (hother : ∀ j ≠ i, t.node j = s.node j)
    (hshut : s.head.isShutdown = true → t.head.isShutdown = true)
    (hi : ∀ o g, v = some (o, g) → i ≠ 0 ∧ i ≠ -1 ∧ (t.node i).used = true ∧ g.Node t i)
    (j : BitVec 32) (o : ι) (g : Lot ι) (hj : Function.update lot i v j = some (o, g)) :
    j ≠ 0 ∧ j ≠ -1 ∧ (t.node j).used = true ∧ g.Node t j := by
  by_cases hji : j = i
  · subst hji
    rw [Function.update_self] at hj
    exact hi o g hj
  · rw [Function.update_of_ne hji] at hj
    obtain ⟨h0, h1, hused, hnode⟩ := hK.node j o g hj
    exact ⟨h0, h1, by rw [hother j hji]; exact hused, hnode.frame (hother j hji) hshut⟩

theorem afterLoad_role (s : LifoSem ι) : s.afterLoad.role = none := by
  unfold LifoSem.afterLoad
  split <;> rfl

section
variable [DecidableEq ι]

/-- What the threads know, when one of them goes on. -/
theorem Kept.knows_update (hK : Kept s lot ws) (hpc : t.pc = Function.update s.pc p a)
    (hstill : s.head.isShutdown = true → t.head.isShutdown = true ∧ (ws = [] → ws' = []))
    (hticks : s.ticks < t.ticks ∨ t.ticks = s.ticks ∧
      ∀ i ∈ ws, i ∈ ws' ∧ (t.node i).next = (s.node i).next)
    (hown : ∀ q ≠ p, ∀ i, (s.pc q).role = some (.fresh, i) ∨ (s.pc q).role = some (.tells, i) →
      (t.node i).next = (s.node i).next) (ha : a.Knows t ws') (q : ι) : (t.pc q).Knows t ws' := by
  rw [hpc]
  by_cases hqp : q = p
  · rw [hqp, Function.update_self]
    exact ha
  · rw [Function.update_of_ne hqp]
    exact (hK.knows q).frame hstill hticks (hown q hqp)

theorem role_update (pc : ι → LifoPc) (p : ι) (a : LifoPc) :
    (fun q => (Function.update pc p a q).role) =
      Function.update (fun q => (pc q).role) p a.role := by
  funext q
  by_cases hqp : q = p
  · rw [hqp, Function.update_self, Function.update_self]
  · rw [Function.update_of_ne hqp, Function.update_of_ne hqp]

/-- A thread goes on that has to do what it had to. -/
theorem Kept.goto (hK : Kept s lot ws) (hrole : a.role = (s.pc p).role) (ha : a.Knows s ws) :
    Kept (s.goto p a) lot ws where
  roles := by
    unfold LifoSem.goto
    dsimp only
    rw [role_update]
    exact hK.roles.same hrole
  node := hK.node
  listed := hK.listed
  nodup := hK.nodup
  threaded := hK.threaded
  head := hK.head
  seq := hK.seq
  flying := hK.flying
  flying_nodup := hK.flying_nodup
  units := hK.units
  down := hK.down
  knows := by
    have ha' : a.Knows (s.goto p a) ws := ha.frame (fun h => ⟨h, id⟩)
      (.inr ⟨rfl, fun i hi => ⟨hi, rfl⟩⟩) fun i _ => rfl
    exact hK.knows_update rfl (fun h => ⟨h, id⟩) (.inr ⟨rfl, fun i hi => ⟨hi, rfl⟩⟩)
      (fun _ _ _ _ => rfl) ha'

/-- An owner goes on with its node, which is in no list. -/
theorem Kept.goto_own (hK : Kept s lot ws) {d' : Duty} (g' : Lot ι)
    (hp : (s.pc p).role = some (d, i)) (hi : lot i = some (p, g)) (hby : g.by = none)
    (ha : a.role = some (d', i)) (hd : d'.owns = true)
    (hfit : g'.Fits (Function.update (fun q => (s.pc q).role) p (some (d', i))) i p)
    (hlist : Listed (some (p, g')) ↔ Listed (some (p, g)))
    (hfly : Flies (some (p, g')) ↔ Flies (some (p, g)))
    (hnode : g.Node s i → g'.Node s i) (hk : a.Knows s ws) :
    Kept (s.goto p a) (Function.update lot i (some (p, g'))) ws where
  roles := by
    unfold LifoSem.goto
    dsimp only
    rw [role_update, ha]
    exact hK.roles.own g' hp hi hby hd hfit
  node := hK.node_update (fun _ _ => rfl) id fun o g₁ h => by
    cases h
    obtain ⟨h0, h1, hused, hn⟩ := hK.node i p g hi
    exact ⟨h0, h1, hused, hnode hn⟩
  listed := mem_update hK.listed (by rw [hlist, ← hi]; exact hK.listed i) fun _ _ => Iff.rfl
  nodup := hK.nodup
  threaded := hK.threaded
  head := hK.head
  seq := hK.seq
  flying := mem_update hK.flying (by rw [hfly, ← hi]; exact hK.flying i) fun _ _ => Iff.rfl
  flying_nodup := hK.flying_nodup
  units := hK.units
  down := hK.down
  knows := by
    have ha' : a.Knows (s.goto p a) ws := hk.frame (fun h => ⟨h, id⟩)
      (.inr ⟨rfl, fun i hi => ⟨hi, rfl⟩⟩) fun i _ => rfl
    exact hK.knows_update rfl (fun h => ⟨h, id⟩) (.inr ⟨rfl, fun i hi => ⟨hi, rfl⟩⟩)
      (fun _ _ _ _ => rfl) ha'

/-- **A step that writes nothing.** -/
theorem Kept.reads (hK : Kept s lot ws) (hr : s.reads (s.pc p) = some a) :
    ∃ lot', Kept (s.goto p a) lot' ws := by
  have hk := hK.knows p
  unfold LifoSem.reads at hr
  cases hpc : s.pc p with
  | incrOrPop n =>
    rw [hpc] at hr hk
    cases hr
    refine ⟨lot, hK.goto ?_ ?_⟩
    · rw [hpc]
      split <;> rfl
    · split
      · next hn => exact ⟨hk, hK.read hn⟩
      · next hn => exact ⟨hk, by simpa using hn⟩
  | popNext n h since =>
    rw [hpc] at hr hk
    cases hr
    exact ⟨lot, hK.goto (by rw [hpc]; rfl) ⟨hk.1, hk.2, fun _ => rfl⟩⟩
  | pop n h next since =>
    rw [hpc] at hr hk
    obtain ⟨-, hr⟩ := Option.ite_none_left_eq_some.1 hr
    cases hr
    exact ⟨lot, hK.goto (by rw [hpc]; rfl) hk.1⟩
  | incr n h =>
    rw [hpc] at hr hk
    obtain ⟨-, hr⟩ := Option.ite_none_left_eq_some.1 hr
    cases hr
    exact ⟨lot, hK.goto (by rw [hpc]; rfl) hk.1⟩
  | decrOrPush waits n i =>
    rw [hpc] at hr hk
    have hr := Option.some.inj hr
    obtain ⟨hn, hi⟩ := hk
    split at hr
    · next hv =>
      obtain ⟨hnode, hdata⟩ := Bool.and_eq_true_iff.1 hv
      subst hr
      refine ⟨lot, hK.goto (by rw [hpc]; rfl) ⟨hn, hi, by simpa using hnode, ?_⟩⟩
      exact bne_iff_ne.1 hdata
    · next hv =>
      -- there is nothing to take
      have hiff : s.head.isNodeIdx = true ↔ s.head.data ≠ 0 := by
        refine ⟨hK.head, fun hd => ?_⟩
        by_contra hnode
        exact hv (Bool.and_eq_true_iff.2 ⟨by simpa using hnode, bne_iff_ne.2 hd⟩)
      split at hr
      · next hi0 =>
        refine ⟨lot, hK.goto ?_ ?_⟩
        · have hnone : (LifoPc.decrOrPush waits n i).role = none := if_pos hi0
          rw [hpc, ← hr, hnone]
          split <;> rfl
        · rw [← hr]
          split <;> trivial
      · next hi0 =>
        have hrole : (s.pc p).role = some (.fresh, i) := by
          rw [hpc]
          exact if_neg hi0
        have hlot := hK.roles.lot_fresh (p := p) hrole
        split at hr
        · next hshut =>
          subst hr
          refine ⟨_, hK.goto_own .spent hrole hlot rfl rfl rfl ?_ ?_ ?_ (fun _ => trivial) ?_⟩
          · exact Function.update_self ..
          · simp [Listed]
          · simp [Flies, Lot.flies]
          · exact hshut
        · next hshut =>
          subst hr
          refine ⟨lot, hK.goto ?_ ⟨hi0, by simpa using hshut, hiff⟩⟩
          rw [hrole]
          rfl
  | decr waits n i h =>
    rw [hpc] at hr hk
    obtain ⟨-, hr⟩ := Option.ite_none_left_eq_some.1 hr
    cases hr
    exact ⟨lot, hK.goto (by rw [hpc]; rfl) ⟨hk.1, hk.2.1⟩⟩
  | push i h =>
    rw [hpc] at hr hk
    obtain ⟨-, hr⟩ := Option.ite_none_left_eq_some.1 hr
    cases hr
    refine ⟨lot, hK.goto ?_ ⟨by decide, fun h => (by cases h)⟩⟩
    rw [hpc]
    exact if_neg hk.1
  | wait i =>
    rw [hpc] at hr hk
    obtain ⟨hposted, hr⟩ := Option.ite_none_right_eq_some.1 hr
    cases hr
    have hrole : (s.pc p).role = some (.waits, i) := by rw [hpc]; rfl
    obtain ⟨g, hlot⟩ := hK.roles.owns p _ i hrole rfl
    obtain ⟨-, -, -, hnode⟩ := hK.node i p g hlot
    have hfits := hK.roles.fits i p g hlot
    refine ⟨_, hK.goto_own g hrole hlot ?_ rfl rfl ?_ Iff.rfl Iff.rfl id trivial⟩
    · cases g <;> simp_all [Lot.Node, Lot.by]
    · cases g <;> simp_all [Lot.Node, Lot.Fits]
  | woken i =>
    rw [hpc] at hr hk
    obtain ⟨hnext, hr⟩ := Option.ite_none_right_eq_some.1 hr
    cases hr
    have hrole : (s.pc p).role = some (.woken, i) := by rw [hpc]; rfl
    rcases hK.roles.lot_woken (p := p) hrole with hlot | hlot
    · obtain ⟨-, -, -, -, hne⟩ := hK.node i p _ hlot
      exact absurd hnext hne
    · refine ⟨_, hK.goto_own .spent hrole hlot rfl rfl rfl ?_ ?_ ?_ (fun _ => trivial)
        trivial⟩
      · exact Function.update_self ..
      · simp [Listed]
      · simp [Flies, Lot.flies]
  | refused i =>
    rw [hpc] at hr hk
    cases hr
    exact ⟨lot, hK.goto (by rw [hpc]; rfl) trivial⟩
  | shutdown =>
    rw [hpc] at hr
    cases hr
    exact ⟨lot, hK.goto (by rw [hpc, afterLoad_role]; rfl) hK.afterLoad⟩
  | setShutdown h =>
    rw [hpc] at hr
    obtain ⟨-, hr⟩ := Option.ite_none_left_eq_some.1 hr
    cases hr
    exact ⟨lot, hK.goto (by rw [hpc, afterLoad_role]; rfl) hK.afterLoad⟩
  | wake h since =>
    rw [hpc] at hr hk
    obtain ⟨hn, hr⟩ := Option.ite_none_right_eq_some.1 hr
    cases hr
    exact ⟨lot, hK.goto (by rw [hpc]; rfl) ⟨hk.1, hk.2 hn, fun _ => rfl⟩⟩
  | wakePop h next since =>
    rw [hpc] at hr hk
    obtain ⟨-, hr⟩ := Option.ite_none_left_eq_some.1 hr
    cases hr
    refine ⟨lot, hK.goto (by rw [hpc]; rfl) ⟨⟨?_, hk.1.still, hK.nil_of⟩, hK.read⟩⟩
    exact hk.1.still
  | _ =>
    rw [hpc] at hr
    cases hr

end

end Contentious.Pool
