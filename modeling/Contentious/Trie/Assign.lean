import Contentious.Trie.Iterator

/-!
# Trie — copying a range

`assign(other, a, b)` copies the elements of a range from a vector of the
same shape, whole branches where it can. It climbs from the leaf of `a`
to the lowest node over the whole range and comes down to the leaf of
`b`, and grafts at each level the branches that lie within the range; the
values left over at the two ends are copied by iterators.

The loops are given a number of rounds. Pointers at the two ends of a
range that is copied must point into one array: where they do not, the
copy is a fault.
-/

namespace Contentious

variable [K : BpBits] {T : Type}

namespace BpVector

/-- `next_multiple(i, m)`, in 64 bits -/
def nextMultiple (i m : ℕ) : Exec ℕ :=
  if m ≠ 0 ∧ m &&& (m - 1) = 0 then
    .ok (BitVec.ofNat 64 (i + m - 1) &&& ~~~BitVec.ofNat 64 (m - 1)).toNat
  else .error .assertion

/-- The loop of `contained_at_shift`, at `s = n * BP_BITS`: the two nodes
may be null until they are followed. -/
def containedFrom (h : Heap T) (a b : ℕ) : ℕ → Option Addr → Option Addr → Exec ℕ
  | 0, _, _ => .ok 0
  | n + 1, nodeA, nodeB =>
    if nodeA ≠ nodeB then .ok (n + 1)
    else
      match nodeA with
      | none => .error .nullChild
      | some parent => do
        let c ← (h.cell parent).asBranches
        containedFrom h a b n (c (slot a ((n + 1) * bpBits))) (c (slot b ((n + 1) * bpBits)))

/-- `contained_at_shift(a, b)`, as a multiple of `BP_BITS` -/
def containedAtShift (h : Heap T) (v : BpVector) (a b : ℕ) : Exec ℕ :=
  if a < b then containedFrom h a b v.levels (some v.root) (some v.root) else .error .assertion

/-- The loop of `get_branch` from `s = n * BP_BITS` down, and the depth
that is left: a `uint8_t`. -/
def branchFrom (cp : Id → Bool) (id : Id) (i : ℕ) :
    ℕ → ℕ → Heap T → Addr → Exec (Heap T × Addr × ℕ)
  | 0, depth, h, node => .ok (h, node, depth)
  | n + 1, depth, h, node =>
    let depth := (depth + 255) % 256
    if depth = 0 then .ok (h, node, depth)
    else do
      let (h, next) ← ownChild cp id h node (slot i ((n + 1) * bpBits))
      branchFrom cp id i n depth h next

/-- `get_branch(depth, i)`: the node on the path of `i` that is `depth`
levels down, owned with all above it where `cp` asks for it. -/
def branchWith (cp : Id → Bool) (h : Heap T) (v : BpVector) (depth i : ℕ) :
    Exec (Heap T × BpVector × Addr) := do
  let (h, r) := ownRoot cp v.id h v.root
  let (h, node, left) ← branchFrom cp v.id i v.levels depth h r
  if left = 0 then
    let _ ← (h.cell node).asBranches
    .ok (h, { v with root := r }, node)
  else .error .assertion

/-- `get_branch(depth, i)` of the vector that is written -/
def getBranch (D : Der) (h : Heap T) (v : BpVector) (depth i : ℕ) :
    Exec (Heap T × BpVector × Addr) :=
  branchWith (nodeCopy D v.id) h v depth i

/-- `get_branch(depth, i) const`, which copies nothing -/
def getBranchConst (h : Heap T) (v : BpVector) (depth i : ℕ) : Exec Addr := do
  let (_, _, node) ← branchWith (fun _ => false) h v depth i
  .ok node

/-- `n` child pointers copied from one array to the same places of
another, from the `k`-th on. -/
def copyBranches (src dst : Addr) : ℕ → ℕ → Heap T → Exec (Heap T)
  | 0, _, h => .ok h
  | n + 1, k, h =>
    if hk : k < bpWidth then do
      let c ← (h.cell src).asBranches
      let h ← setChild h dst ⟨k, hk⟩ (c ⟨k, hk⟩)
      copyBranches src dst n (k + 1) h
    else .error .outOfBounds

/-- `std::copy(other.get_branch(d, i).cbegin() + lo,
other.get_branch(d, j).cbegin() + hi, this->get_branch(d, i).begin() + lo)` -/
def graft (D : Der) (h : Heap T) (v other : BpVector) (d i j lo hi : ℕ) :
    Exec (Heap T × BpVector) := do
  let first ← getBranchConst h other d i
  let last ← getBranchConst h other d j
  let (h, v, result) ← getBranch D h v d i
  if first = last then do
    let h ← copyBranches first result (hi - lo) lo h
    .ok (h, v)
  else .error .outOfBounds

/-- `calc_depth() - d`, as the `uint8_t` it is passed as -/
def depthLess (v : BpVector) (d : ℕ) : ℕ := (((v.calcDepth : ℤ) - d) % 256).toNat

/-! ## The values at the ends -/

/-- A heap, an iterator to read by and one to write by. -/
structure Copying (T : Type) [BpBits] where
  heap : Heap T
  first : BpIterator
  result : BpIterator

/-- `*result = *first; ++result; ++first` -/
def copyValue (s : Copying T) : Exec (Copying T) := do
  let x ← s.first.deref s.heap
  let h ← s.result.store s.heap x
  let (h, result) ← s.result.next h
  let first ← s.first.cnext h
  .ok ⟨h, first, result⟩

/-- `std::copy(other.cbegin() + a, other.cbegin() + b, this->begin() + a)` -/
def copyRange (rounds : ℕ) (h : Heap T) (v other : BpVector) (a b : ℕ) :
    Exec (Heap T × BpVector) := do
  let first ← (← cbegin h other).cadd h a
  let last ← (← cbegin h other).cadd h b
  let (h, v, it) ← begin h v
  let (h, it) ← it.add h a
  let s ← loop .rounds (fun s => !s.first.eq last) copyValue rounds ⟨h, first, it⟩
  .ok (s.heap, v)

/-- Steps 1 and 5: the same, up to where the iterator that writes meets
`this->begin() + b`. -/
def copyUntil (rounds : ℕ) (h : Heap T) (v other : BpVector) (a b : ℕ) :
    Exec (Heap T × BpVector) := do
  let first ← (← cbegin h other).cadd h a
  let (h, v, it) ← begin h v
  let (h, last) ← it.add h b
  let (h, v, it) ← begin h v
  let (h, it) ← it.add h a
  let s ← loop .rounds (fun s => !s.result.eq last) copyValue rounds ⟨h, first, it⟩
  .ok (s.heap, v)

/-- The test before steps 1 and 5: copy individual vals of a partial leaf,
if need be. -/
def copyPartial (rounds : ℕ) (h : Heap T) (v other : BpVector) (a b : ℕ) :
    Exec (Heap T × BpVector) :=
  if 0 < subSizeT b a then copyUntil rounds h v other a b else .ok (h, v)

/-! ## The branches between them -/

/-- What the loops of steps 2 and 4 work on: the heap and the vector, the
width of the ranges at this level, `ar` or `br`, and `s / BP_BITS`. -/
structure Grafting (T : Type) [BpBits] where
  heap : Heap T
  self : BpVector
  interval : ℕ
  r : ℕ
  s : ℕ

/-- One round of step 2, up a level. -/
def graftUp (D : Der) (other : BpVector) (g : Grafting T) : Exec (Grafting T) := do
  let interval := g.interval <<< bpBits
  let ai := g.r
  let ar ← nextMultiple ai interval
  let s := g.s + 1
  if ai = ar then .ok { g with interval := interval, r := ar, s := s }
  else do
    let d := g.self.depthLess s
    let aiOff := (slot ai (s * bpBits)).val
    if aiOff = 0 then .error .assertion
    else if (slot ar (s * bpBits)).val ≠ 0 then .error .assertion
    else do
      let (h, v) ← graft D g.heap g.self other d ai (subSizeT ar 1) aiOff bpWidth
      .ok ⟨h, v, interval, ar, s⟩

/-- One round of step 4, down a level. -/
def graftDown (D : Der) (other : BpVector) (b : ℕ) (g : Grafting T) : Exec (Grafting T) := do
  let interval := g.interval >>> bpBits
  let bi := g.r
  let br ← nextMultiple b interval
  let s := g.s - 1
  let br := if b ≠ br then subSizeT br interval else br
  if bi = br then .ok { g with interval := interval, r := br, s := s }
  else do
    let d := g.self.depthLess s
    let biOff := (slot bi (s * bpBits)).val
    let brOff := (slot br (s * bpBits)).val
    let brOff := if brOff = 0 ∧ bi ≠ br then bpWidth else brOff
    if biOff ≠ 0 then .error .assertion
    else do
      let (h, v) ← graft D g.heap g.self other d bi (subSizeT br 1) biOff brOff
      .ok ⟨h, v, interval, br, s⟩

/-- An offset of step 3: at the end of the vector it is the end of the
array. -/
def endOff (v : BpVector) (i s : ℕ) : ℕ :=
  let off := (slot i (s * bpBits)).val
  if off = 0 ∧ i = v.sz then bpWidth else off

/-- Step 3: copy shallow branches until we're in the final val's branch. -/
def graftAcross (D : Der) (other : BpVector) (g : Grafting T) (ar br s : ℕ) :
    Exec (Heap T × BpVector) :=
  if ar ≠ br then
    graft D g.heap g.self other (g.self.depthLess s) ar br (endOff g.self ar s) (endOff g.self br s)
  else .ok (g.heap, g.self)

/-- `std::pow(BP_WIDTH, d)`, which must fit the `int64_t` it is converted to -/
def powInterval (d : ℕ) : Exec ℕ :=
  if bpWidth ^ d < 2 ^ 63 then .ok (bpWidth ^ d) else .error .overflow

/-- Steps 2 to 4 of `assign`, from the multiple `ar` on: the branches, and
the `br` they end at. -/
def graftRange (rounds : ℕ) (D : Der) (h : Heap T) (v other : BpVector) (a b ar : ℕ) :
    Exec (Heap T × BpVector × ℕ) := do
  let lastS := (← containedAtShift h v a b) + 1
  let lastInterval ← powInterval lastS
  -- 2. travel upwards, copying branches at shallowest depth possible
  let g ← loop .rounds (fun g => g.interval != lastInterval) (graftUp D other) rounds
    ⟨h, v, bpWidth, ar, 0⟩
  -- 3. across
  let ar ← nextMultiple a lastInterval
  let br ← nextMultiple b lastInterval
  let br := if br ≠ b then subSizeT br g.interval else br
  let (h, v) ← graftAcross D other g ar br lastS
  -- 4. travel downwards
  let g ← loop .rounds (fun g => g.interval != bpWidth) (graftDown D other b) rounds
    ⟨h, v, g.interval, br, lastS⟩
  .ok (g.heap, g.self, g.r)

/-- `assign(other, a, b)` -/
def assign (rounds : ℕ) (D : Der) (h : Heap T) (v other : BpVector) (a b : ℕ) :
    Exec (Heap T × BpVector) :=
  if ¬ a < b then .error .assertion
  else if b - a < bpWidth then do
    -- if we're smaller than a branch, branch-copying won't work
    let split := min (← nextMultiple a bpWidth) b
    let (h, v) ← copyRange rounds h v other a split
    copyRange rounds h v other split b
  else do
    let ar ← nextMultiple a bpWidth
    -- 1. the partial leaf we originate in
    let (h, v) ← copyPartial rounds h v other a ar
    let (h, v, br) ← graftRange rounds D h v other a b ar
    -- 5. the partial leaf we terminate in
    copyPartial rounds h v other br b

end BpVector

/-! ## What it writes

All of it is edits of nodes that the two tests let through, that of the
iterators and that of `get_branch`; for a `tr_vector` these are the nodes
that carry its id. The descents own what they go through, and what a
graft makes shared is copied again before it is written. -/

open BpVector BpIterator

variable {h h' : Heap T} {v v' other : BpVector} {node r : Addr} {cp : Id → Bool}
variable {base a b d i j k n lo hi depth left rounds : ℕ} {id : Id} {N : Id → Prop}
variable {S : Addr → Prop} {D : Der}

/-- What is done to a vector: edits, and a root to go on from. -/
structure Rewritten (base : ℕ) (cp : Id → Bool) (N : Id → Prop) (S : Addr → Prop) (h h' : Heap T)
    (v v' : BpVector) : Prop where
  edits : Edits base cp N S h h'
  root_mem : S v'.root
  root_lt : v'.root < h'.next
  id_eq : v'.id = v.id

namespace Rewritten

theorem refl (hr : S v.root) (hlt : v.root < h.next) : Rewritten base cp N S h h v v :=
  ⟨.refl, hr, hlt, rfl⟩

theorem trans {h'' : Heap T} {v'' : BpVector} (w₁ : Rewritten base cp N S h h' v v')
    (w₂ : Rewritten base cp N S h' h'' v' v'') : Rewritten base cp N S h h'' v v'' where
  edits := w₁.edits.trans w₂.edits
  root_mem := w₂.root_mem
  root_lt := w₂.root_lt
  id_eq := w₂.id_eq.trans w₁.id_eq

theorem of_edited (e : Edited base cp N S h h' v'.root) (hid : v'.id = v.id) :
    Rewritten base cp N S h h' v v' := ⟨e.edits, e.owned.mem, e.owned.lt, hid⟩

theorem weaken {cp' : Id → Bool} (hcp : ∀ other, cp' other = true → cp other = true)
    (w : Rewritten base cp N S h h' v v') : Rewritten base cp' N S h h' v v' :=
  ⟨w.edits.weaken hcp, w.root_mem, w.root_lt, w.id_eq⟩

end Rewritten

/-- What `cp` asks to be copied, an iterator of the vector copies, and so
does its `get_branch`. -/
structure Tests (cp : Id → Bool) (D : Der) (id : Id) : Prop where
  iterator : ∀ other, cp other = true → nodeCopy .tr id other = true
  branch : ∀ other, cp other = true → nodeCopy D id other = true

omit K in
theorem Tests.tr (id : Id) : Tests (nodeCopy .tr id) .tr id := ⟨fun _ h => h, fun _ h => h⟩

namespace Owned

theorem branchFrom (hn : Owned base cp S h node) (hS : Scope base S h) (hN : N id)
    (he : branchFrom cp id i n depth h node = .ok (h', r, left)) : Edited base cp N S h h' r := by
  induction n generalizing depth h node with
  | zero => cases he; exact ⟨.refl, hn⟩
  | succ n ih =>
    rw [BpVector.branchFrom] at he
    dsimp only at he
    split at he
    · cases he; exact ⟨.refl, hn⟩
    · obtain ⟨⟨h₁, next⟩, ho, he⟩ := Exec.bind_eq_ok.1 he
      have e₁ := hn.ownChild hS hN ho
      exact e₁.trans (ih e₁.owned (hS.edits e₁.edits) he)

/-- Grafting child pointers of a node of `S` into an owned node. -/
theorem copyBranches {src dst : Addr} (hd : Owned base cp S h dst) (hS : Scope base S h)
    (hs : S src) (hlt : src < h.next) (he : copyBranches src dst n k h = .ok h') :
    Edits base cp N S h h' := by
  induction n generalizing k h with
  | zero => cases he; exact .refl
  | succ n ih =>
    rw [BpVector.copyBranches] at he
    split at he
    · next hk =>
      obtain ⟨c, hc, he⟩ := Exec.bind_eq_ok.1 he
      obtain ⟨h₁, hset, he⟩ := Exec.bind_eq_ok.1 he
      have hu := BpNode.of_asBranches hc
      have e : Edits base cp N S h h₁ := .setChild .refl hd.writable hd.mem
        (fun b hb => hS.closed src hlt hs c _ b hu hb) hset
      exact e.trans (ih (hd.edits e) (hS.edits e) (lt_of_lt_of_le hlt e.next_le) he)
    · exact nomatch he

end Owned

theorem branchFrom_const
    (he : branchFrom (fun _ => false) id i n depth h node = .ok (h', r, left)) :
    h' = h := by
  induction n generalizing depth node with
  | zero => cases he; rfl
  | succ n ih =>
    rw [branchFrom] at he
    dsimp only at he
    split at he
    · cases he; rfl
    · rw [ownChild_const, bind_assoc] at he
      obtain ⟨next, -, he⟩ := Exec.bind_eq_ok.1 he
      exact ih he

namespace Scope

/-- **`get_branch` is edits**, and gives an owned node. -/
theorem branchWith (hS : Scope base S h) (hr : S v.root) (hlt : v.root < h.next) (hN : N v.id)
    (he : branchWith cp h v depth i = .ok (h', v', node)) :
    Edited base cp N S h h' v'.root ∧ Owned base cp S h' node ∧ v'.id = v.id := by
  obtain ⟨⟨h₁, n₁, left⟩, hb, he⟩ := Exec.bind_eq_ok.1 he
  have e₁ := hS.ownRoot cp hr hlt hN
  have e₂ := e₁.owned.branchFrom (hS.edits e₁.edits) hN hb
  dsimp only at he
  split at he
  · obtain ⟨_, -, he⟩ := Exec.bind_eq_ok.1 he
    cases he
    exact ⟨e₁.followed e₂.edits, e₂.owned, rfl⟩
  · exact nomatch he

/-- The const one leads to a node that is there. -/
theorem getBranchConst (hS : Scope base S h) (hr : S v.root) (hlt : v.root < h.next)
    (he : getBranchConst h v depth i = .ok node) : S node ∧ node < h.next := by
  obtain ⟨⟨h₁, v₁, n₁⟩, hb, he⟩ := Exec.bind_eq_ok.1 he
  cases he
  have e := (hS.branchWith (N := fun _ => True) hr hlt trivial hb).2.1
  obtain ⟨⟨h₂, n₂, left⟩, hb, he⟩ := Exec.bind_eq_ok.1 hb
  dsimp only at he
  split at he
  · obtain ⟨_, -, he⟩ := Exec.bind_eq_ok.1 he
    cases he
    have hh := branchFrom_const hb
    exact ⟨e.mem, hh ▸ e.lt⟩
  · exact nomatch he

/-- **`begin()` and a step from it** are edits, and the iterator points at
owned nodes. -/
theorem begin (hS : Scope base S h) (hr : S v.root) (hlt : v.root < h.next) (hN : N v.id)
    {it : BpIterator} (he : begin h v = .ok (h', v', it)) :
    Rewritten base (nodeCopy .tr v.id) N S h h' v v' ∧ Held base (nodeCopy .tr v.id) S h' it ∧
      it.id = v.id := by
  obtain ⟨e, hid, hit, hidt⟩ := held_of_beginWith he hS hr hlt hN
  exact ⟨.of_edited e hid, hit, hidt⟩

end Scope

namespace BpIterator.Held

variable {it it' : BpIterator} {x : T}

/-- The steps of an iterator of the id. -/
theorem next (hit : Held base (nodeCopy .tr id) S h it) (hid : it.id = id) (hS : Scope base S h)
    (hN : N id) (he : next h it = .ok (h', it')) :
    Moved base (nodeCopy .tr id) N S h h' it it' := by
  subst hid
  exact hit.nextWith hS hN he

theorem add (hit : Held base (nodeCopy .tr id) S h it) (hid : it.id = id) (hS : Scope base S h)
    (hN : N id) (he : add h it n = .ok (h', it')) :
    Moved base (nodeCopy .tr id) N S h h' it it' := by
  subst hid
  exact hit.addWith hS hN he

end BpIterator.Held

/-- What a copy of values keeps: it writes by an iterator of the id. -/
structure CopyKeeps (base : ℕ) (id : Id) (N : Id → Prop) (S : Addr → Prop) (h : Heap T)
    (s : Copying T) : Prop where
  edits : Edits base (nodeCopy .tr id) N S h s.heap
  held : Held base (nodeCopy .tr id) S s.heap s.result
  id_eq : s.result.id = id

theorem CopyKeeps.copyValue {s t : Copying T} (hs : CopyKeeps base id N S h s) (hS : Scope base S h)
    (hN : N id) (he : copyValue s = .ok t) : CopyKeeps base id N S h t := by
  obtain ⟨x, -, he⟩ := Exec.bind_eq_ok.1 he
  obtain ⟨h₁, hst, he⟩ := Exec.bind_eq_ok.1 he
  obtain ⟨⟨h₂, it⟩, hnx, he⟩ := Exec.bind_eq_ok.1 he
  obtain ⟨first, -, he⟩ := Exec.bind_eq_ok.1 he
  cases he
  have e := hs.held.store (N := N) hst
  have e₁ := hs.edits.trans e
  have e₂ := (hs.held.edits e).next hs.id_eq (hS.edits e₁) hN hnx
  exact ⟨e₁.trans e₂.edits, e₂.held, e₂.id_eq.trans hs.id_eq⟩

namespace Scope

/-- **`begin() + a`** is edits, and the iterator points at owned nodes. -/
theorem begin_add {v₁ : BpVector} {h₁ h₂ : Heap T} {it₁ it₂ : BpIterator} (hS : Scope base S h)
    (hr : S v.root) (hlt : v.root < h.next) (hN : N v.id)
    (hb : BpVector.begin h v = .ok (h₁, v₁, it₁)) (ha : it₁.add h₁ a = .ok (h₂, it₂)) :
    Rewritten base (nodeCopy .tr v.id) N S h h₂ v v₁ ∧ Held base (nodeCopy .tr v.id) S h₂ it₂ ∧
      it₂.id = v.id := by
  obtain ⟨w, hit, hid⟩ := hS.begin hr hlt hN hb
  have e := hit.add hid (hS.edits w.edits) hN ha
  exact ⟨⟨w.edits.trans e.edits, w.root_mem, lt_of_lt_of_le w.root_lt e.edits.next_le, w.id_eq⟩,
    e.held, e.id_eq.trans hid⟩

/-- A loop that copies values from `begin() + a` on is edits, wherever it
stops. -/
theorem copyLoop {stop : Copying T → Bool} {v₁ : BpVector} {h₁ h₂ : Heap T}
    {it₁ it₂ first : BpIterator}
    {t : Copying T} (hS : Scope base S h) (hr : S v.root) (hlt : v.root < h.next) (hN : N v.id)
    (hb : BpVector.begin h v = .ok (h₁, v₁, it₁)) (ha : it₁.add h₁ a = .ok (h₂, it₂))
    (he : loop .rounds stop copyValue rounds ⟨h₂, first, it₂⟩ = .ok t) :
    Rewritten base (nodeCopy .tr v.id) N S h t.heap v v₁ := by
  obtain ⟨w, hit, hid⟩ := hS.begin_add hr hlt hN hb ha
  have hc : CopyKeeps base v.id N S h₂ ⟨h₂, first, it₂⟩ := ⟨.refl, hit, hid⟩
  have hk := (loop_invariant (I := CopyKeeps base v.id N S h₂)
    (fun _ _ hs _ he => hs.copyValue (hS.edits w.edits) hN he) hc he).1
  exact ⟨w.edits.trans hk.edits, w.root_mem, lt_of_lt_of_le w.root_lt hk.edits.next_le, w.id_eq⟩

/-- **Copying values is edits.** -/
theorem copyRange (hS : Scope base S h) (hr : S v.root) (hlt : v.root < h.next) (hN : N v.id)
    (he : copyRange rounds h v other a b = .ok (h', v')) :
    Rewritten base (nodeCopy .tr v.id) N S h h' v v' := by
  obtain ⟨_, -, he⟩ := Exec.bind_eq_ok.1 he
  obtain ⟨first, -, he⟩ := Exec.bind_eq_ok.1 he
  obtain ⟨_, -, he⟩ := Exec.bind_eq_ok.1 he
  obtain ⟨last, -, he⟩ := Exec.bind_eq_ok.1 he
  obtain ⟨⟨h₁, v₁, it₁⟩, hb, he⟩ := Exec.bind_eq_ok.1 he
  obtain ⟨⟨h₂, it₂⟩, ha, he⟩ := Exec.bind_eq_ok.1 he
  obtain ⟨s, hl, he⟩ := Exec.bind_eq_ok.1 he
  cases he
  exact hS.copyLoop hr hlt hN hb ha hl

theorem copyUntil (hS : Scope base S h) (hr : S v.root) (hlt : v.root < h.next) (hN : N v.id)
    (he : copyUntil rounds h v other a b = .ok (h', v')) :
    Rewritten base (nodeCopy .tr v.id) N S h h' v v' := by
  obtain ⟨_, -, he⟩ := Exec.bind_eq_ok.1 he
  obtain ⟨first, -, he⟩ := Exec.bind_eq_ok.1 he
  obtain ⟨⟨h₁, v₁, it₁⟩, hb₁, he⟩ := Exec.bind_eq_ok.1 he
  obtain ⟨⟨h₂, last⟩, ha₁, he⟩ := Exec.bind_eq_ok.1 he
  obtain ⟨⟨h₃, v₃, it₃⟩, hb, he⟩ := Exec.bind_eq_ok.1 he
  obtain ⟨⟨h₄, it₄⟩, ha, he⟩ := Exec.bind_eq_ok.1 he
  obtain ⟨s, hl, he⟩ := Exec.bind_eq_ok.1 he
  cases he
  -- the iterator that marks the end owns its path as well
  obtain ⟨w₂, -, -⟩ := hS.begin_add (N := N) hr hlt hN hb₁ ha₁
  have w₃ := (hS.edits w₂.edits).copyLoop (N := N) w₂.root_mem w₂.root_lt
    (by rw [w₂.id_eq]; exact hN)
    hb ha hl
  rw [w₂.id_eq] at w₃
  exact w₂.trans w₃

/-- **A graft is edits**: it makes children of the other vector children
of an owned node. -/
theorem graft (hS : Scope base S h) (hr : S v.root) (hlt : v.root < h.next) (hN : N v.id)
    (hor : S other.root) (holt : other.root < h.next)
    (he : graft D h v other d i j lo hi = .ok (h', v')) :
    Rewritten base (nodeCopy D v.id) N S h h' v v' := by
  obtain ⟨first, hf, he⟩ := Exec.bind_eq_ok.1 he
  obtain ⟨last, -, he⟩ := Exec.bind_eq_ok.1 he
  obtain ⟨⟨h₁, v₁, result⟩, hb, he⟩ := Exec.bind_eq_ok.1 he
  obtain ⟨e, hres, hid⟩ := hS.branchWith hr hlt hN hb
  obtain ⟨hfS, hflt⟩ := hS.getBranchConst hor holt hf
  dsimp only at he
  split at he
  · obtain ⟨h₂, hc, he⟩ := Exec.bind_eq_ok.1 he
    cases he
    have ec := hres.copyBranches (N := N) (hS.edits e.edits) hfS
      (lt_of_lt_of_le hflt e.edits.next_le) hc
    exact .of_edited (e.followed ec) hid
  · exact nomatch he

end Scope

/-! ### What all grafts keep -/

/-- Every graft of branches of `other` keeps `I`. -/
def GraftsKeep (D : Der) (other : BpVector) (I : Heap T → BpVector → Prop) : Prop :=
  ∀ h v d i j lo hi h' v', I h v → graft D h v other d i j lo hi = .ok (h', v') → I h' v'

namespace GraftsKeep

variable {I : Heap T → BpVector → Prop} {g g' : Grafting T}

theorem graftAcross {ar br s : ℕ} (hI : GraftsKeep D other I) (hg : I g.heap g.self)
    (he : graftAcross D other g ar br s = .ok (h', v')) : I h' v' := by
  rw [BpVector.graftAcross] at he
  split at he
  · exact hI _ _ _ _ _ _ _ _ _ hg he
  · cases he; exact hg

theorem graftUp (hI : GraftsKeep D other I) (hg : I g.heap g.self)
    (he : graftUp D other g = .ok g') : I g'.heap g'.self := by
  obtain ⟨ar, -, he⟩ := Exec.bind_eq_ok.1 he
  dsimp only at he
  split at he
  · cases he; exact hg
  · split at he
    · exact nomatch he
    · split at he
      · exact nomatch he
      · obtain ⟨⟨h₂, v₂⟩, hgr, he⟩ := Exec.bind_eq_ok.1 he
        cases he
        exact hI _ _ _ _ _ _ _ _ _ hg hgr

theorem graftDown (hI : GraftsKeep D other I) (hg : I g.heap g.self)
    (he : graftDown D other b g = .ok g') : I g'.heap g'.self := by
  obtain ⟨br, -, he⟩ := Exec.bind_eq_ok.1 he
  dsimp only at he
  generalize (if b ≠ br then subSizeT br (g.interval >>> bpBits) else br) = br' at he
  split at he
  · cases he; exact hg
  · split at he
    · exact nomatch he
    · obtain ⟨⟨h₂, v₂⟩, hgr, he⟩ := Exec.bind_eq_ok.1 he
      cases he
      exact hI _ _ _ _ _ _ _ _ _ hg hgr

/-- **Up, across and down** is grafts. -/
theorem graftRange {ar br : ℕ} (hI : GraftsKeep D other I) (hv : I h v)
    (he : graftRange rounds D h v other a b ar = .ok (h', v', br)) : I h' v' := by
  obtain ⟨n, -, he⟩ := Exec.bind_eq_ok.1 he
  obtain ⟨lastInterval, -, he⟩ := Exec.bind_eq_ok.1 he
  obtain ⟨g, hup, he⟩ := Exec.bind_eq_ok.1 he
  obtain ⟨ar', -, he⟩ := Exec.bind_eq_ok.1 he
  obtain ⟨br', -, he⟩ := Exec.bind_eq_ok.1 he
  have hg : I g.heap g.self := (loop_invariant (I := fun g : Grafting T => I g.heap g.self)
    (fun _ _ hg _ he => hI.graftUp hg he) hv hup).1
  obtain ⟨⟨h₂, v₂⟩, hac, he⟩ := Exec.bind_eq_ok.1 he
  obtain ⟨g', hdown, he⟩ := Exec.bind_eq_ok.1 he
  cases he
  exact (loop_invariant (I := fun g : Grafting T => I g.heap g.self)
    (fun _ _ hg _ he => hI.graftDown hg he) (hI.graftAcross hg hac) hdown).1

end GraftsKeep

namespace Rewritten

variable {h₁ : Heap T} {v₁ : BpVector}

/-- What has been done to a vector, another graft goes on from. -/
theorem graft (w : Rewritten base cp N S h h₁ v v₁) (hcp : Tests cp D v.id)
    (hS : Scope base S h) (hN : N v.id) (hor : S other.root) (holt : other.root < h.next)
    (he : graft D h₁ v₁ other d i j lo hi = .ok (h', v')) : Rewritten base cp N S h h' v v' :=
  w.trans (((hS.edits w.edits).graft w.root_mem w.root_lt (by rw [w.id_eq]; exact hN) hor
    (lt_of_lt_of_le holt w.edits.next_le) he).weaken (by rw [w.id_eq]; exact hcp.branch))

theorem copyPartial (w : Rewritten base cp N S h h₁ v v₁) (hcp : Tests cp D v.id)
    (hS : Scope base S h) (hN : N v.id)
    (he : copyPartial rounds h₁ v₁ other a b = .ok (h', v')) : Rewritten base cp N S h h' v v' := by
  rw [BpVector.copyPartial] at he
  split at he
  · exact w.trans (((hS.edits w.edits).copyUntil w.root_mem w.root_lt (by rw [w.id_eq]; exact hN)
      he).weaken (by rw [w.id_eq]; exact hcp.iterator))
  · cases he; exact w

/-- Up, across and down. -/
theorem graftRange {ar br : ℕ} (w : Rewritten base cp N S h h₁ v v₁) (hcp : Tests cp D v.id)
    (hS : Scope base S h) (hN : N v.id) (hor : S other.root) (holt : other.root < h.next)
    (he : graftRange rounds D h₁ v₁ other a b ar = .ok (h', v', br)) :
    Rewritten base cp N S h h' v v' :=
  GraftsKeep.graftRange (I := fun h₂ v₂ => Rewritten base cp N S h h₂ v v₂)
    (fun _ _ _ _ _ _ _ _ _ w he => w.graft hcp hS hN hor holt he) w he

end Rewritten

/-- **What an `assign` that goes through has done**: two copies of values
where the range is less than a leaf, or else values, branches and values. -/
theorem assign_cases (he : assign rounds D h v other a b = .ok (h', v')) :
    a < b ∧ ∃ ar, nextMultiple a bpWidth = .ok ar ∧
      ((b - a < bpWidth ∧ ∃ h₁ v₁, copyRange rounds h v other a (min ar b) = .ok (h₁, v₁) ∧
          copyRange rounds h₁ v₁ other (min ar b) b = .ok (h', v')) ∨
        bpWidth ≤ b - a ∧ ∃ h₁ v₁ h₂ v₂ br, copyPartial rounds h v other a ar = .ok (h₁, v₁) ∧
          graftRange rounds D h₁ v₁ other a b ar = .ok (h₂, v₂, br) ∧
          copyPartial rounds h₂ v₂ other br b = .ok (h', v')) := by
  rw [BpVector.assign] at he
  split at he
  · exact nomatch he
  · next hab =>
    split at he
    · next hsmall =>
      obtain ⟨ar, har, he⟩ := Exec.bind_eq_ok.1 he
      obtain ⟨⟨h₁, v₁⟩, he₁, he₂⟩ := Exec.bind_eq_ok.1 he
      exact ⟨not_not.1 hab, ar, har, .inl ⟨hsmall, h₁, v₁, he₁, he₂⟩⟩
    · next hlarge =>
      obtain ⟨ar, har, he⟩ := Exec.bind_eq_ok.1 he
      obtain ⟨⟨h₁, v₁⟩, he₁, he⟩ := Exec.bind_eq_ok.1 he
      obtain ⟨⟨h₂, v₂, br⟩, he₂, he₃⟩ := Exec.bind_eq_ok.1 he
      exact ⟨not_not.1 hab, ar, har, .inr ⟨Nat.not_lt.1 hlarge, h₁, v₁, h₂, v₂, br, he₁, he₂, he₃⟩⟩

/-- **`assign` is edits.** -/
theorem Scope.assign (hcp : Tests cp D v.id) (hS : Scope base S h) (hr : S v.root)
    (hlt : v.root < h.next) (hN : N v.id) (hor : S other.root) (holt : other.root < h.next)
    (he : assign rounds D h v other a b = .ok (h', v')) : Rewritten base cp N S h h' v v' := by
  obtain ⟨-, ar, -, ⟨-, h₁, v₁, he₁, he₂⟩ | ⟨-, h₁, v₁, h₂, v₂, br, he₁, he₂, he₃⟩⟩ :=
    assign_cases he
  · have w := (hS.copyRange (N := N) hr hlt hN he₁).weaken hcp.iterator
    exact w.trans (((hS.edits w.edits).copyRange w.root_mem w.root_lt (by rw [w.id_eq]; exact hN)
      he₂).weaken (by rw [w.id_eq]; exact hcp.iterator))
  · have w := (Rewritten.refl (N := N) hr hlt).copyPartial hcp hS hN he₁
    exact (w.graftRange hcp hS hN hor holt he₂).copyPartial hcp hS hN he₃

end Contentious
