import Contentious.Trie.Node

/-!
# Trie — the three vectors and their updates

`bp_vector_base<T, TDer>` and its three instances: `bp_vector`, updated in
place; `ps_vector`, whose updates copy every node they touch; and
`tr_vector`, which copies the nodes that do not carry its own id. The
instances differ in `node_copy_impl` alone, so `set` and `push_back` take
it as a parameter, and the in-place updates of `tr_vector` and
`bp_vector` are the same descents with their own tests.
-/

namespace Contentious

variable [K : BpBits] {T : Type}

/-- The fields of `bp_vector_base`. `shift` starts at zero and only ever
grows by `BP_BITS`, so it is kept as the multiple it is. -/
structure BpVector where
  sz : ℕ
  /-- `shift / BP_BITS`: the branch levels above the leaves -/
  levels : ℕ
  root : Addr
  id : Id
deriving DecidableEq, Repr

/-- `TDer`: which of the three vectors a `bp_vector_base` is. -/
inductive Der
  | bp
  | ps
  | tr
deriving DecidableEq, Repr

/-- `node_copy_impl(other_id)` -/
def nodeCopy (D : Der) (id other : Id) : Bool :=
  match D with
  | .bp => false
  | .ps => true
  | .tr => id != other

namespace BpVector

/-- `shift` -/
def shift (v : BpVector) : ℕ := v.levels * bpBits

/-- `calc_depth()` -/
def calcDepth (v : BpVector) : ℕ := v.shift / bpBits + 1

/-- `capacity()`: the power is computed in `double`, where powers of two
are exact, and must fit the `size_t` it is converted to. -/
def capacity (v : BpVector) : Exec ℕ :=
  let cap := bpWidth ^ v.calcDepth
  if cap < 2 ^ 64 then .ok cap else .error .overflow

/-! ## Element access -/

/-- `operator[](i)` -/
def get (h : Heap T) (v : BpVector) (i : ℕ) : Exec T := do
  let a ← walk h i v.levels v.levels v.root
  leaf h a (slot i 0)

/-- The message of the exception `at` throws. -/
def atMessage (sz i : ℕ) : String :=
  "trie has size " ++ toString sz ++ ", given index " ++ toString i

/-- `at(i)` -/
def at' (h : Heap T) (v : BpVector) (i : ℕ) : Exec T :=
  if i ≥ v.sz then .error (.outOfRange (atMessage v.sz i)) else v.get h i

/-! ## Copy on write

`cp` is the test that decides whether a node is copied before it is
written, given its id; `id` is the id its copy gets. -/

/-- The root, or a copy of it: `if (cp(root->id)) root = new bp_node(*root, id)`. -/
def ownRoot (cp : Id → Bool) (id : Id) (h : Heap T) (r : Addr) : Heap T × Addr :=
  if cp (h.cell r).id then copyNode h r id else (h, r)

/-- One level of a descent that writes: `next = node->as_branches()[k]`,
copied first if `cp` says so, with the copy put in its place. -/
def ownChild (cp : Id → Bool) (id : Id) (h : Heap T) (a : Addr) (k : Fin bpWidth) :
    Exec (Heap T × Addr) := do
  let next ← child h a k
  if cp (h.cell next).id then
    let (h, b) := copyNode h next id
    let h ← setChild h a k (some b)
    .ok (h, b)
  else
    .ok (h, next)

/-- `k` levels of such a descent along the path of `i`, from the node `a`
at `s = n * BP_BITS` down. -/
def descend (cp : Id → Bool) (id : Id) (i : ℕ) : ℕ → ℕ → Heap T → Addr → Exec (Heap T × Addr)
  | 0, _, h, a => .ok (h, a)
  | k + 1, n, h, a => do
    let (h, b) ← ownChild cp id h a (slot i (n * bpBits))
    descend cp id i k (n - 1) h b

/-- Write the value at `i`, copying what `cp` says on the way down. -/
def setWith (cp : Id → Bool) (h : Heap T) (v : BpVector) (i : ℕ) (x : T) :
    Exec (Heap T × BpVector) := do
  let (h, r) := ownRoot cp v.id h v.root
  let (h, a) ← descend cp v.id i v.levels v.levels h r
  let h ← setLeaf h a (slot i 0) x
  .ok (h, { v with root := r })

/-- `bp_vector_base::set` -/
def set (D : Der) (h : Heap T) (v : BpVector) (i : ℕ) (x : T) : Exec (Heap T × BpVector) :=
  setWith (nodeCopy D v.id) h v i x

/-! ## Growing -/

/-- The loop that figures out how deep to travel, from the capacity `cap`
of the subvector at this depth; `fuel` is the depth that is left. -/
def depthIns (sz : ℕ) : ℕ → ℕ → ℤ → ℤ
  | 0, _, ins => ins
  | fuel + 1, cap, ins =>
    if sz &&& (cap - 1) ≠ 0 then depthIns sz fuel (cap >>> bpBits) (ins + 1) else ins

/-- A new root over the old one, `new bp_node(bp_node_t::branches)` with
the id `newId` gives a node at that address. -/
def rotate (newId : Addr → Id) (h : Heap T) (r : Addr) : Exec (Heap T × Addr) := do
  let (h, t) := h.alloc (BpNode.newBranches (newId h.next))
  let h ← setChild h t ⟨0, bpWidth_pos⟩ (some r)
  .ok (h, t)

/-- The new nodes along the path of `i` below the node `a` at
`s = m * BP_BITS`: branches while `s > BP_BITS`, then a leaf. -/
def spine [Inhabited T] (newId : Addr → Id) (i : ℕ) : ℕ → Heap T → Addr → Exec (Heap T × Addr)
  | 0, h, a => .ok (h, a)
  | 1, h, a => do
    let (h, b) := h.alloc (BpNode.newLeaves (newId h.next))
    let h ← setChild h a (slot i (1 * bpBits)) (some b)
    .ok (h, b)
  | m + 2, h, a => do
    let (h, b) := h.alloc (BpNode.newBranches (newId h.next))
    let h ← setChild h a (slot i ((m + 2) * bpBits)) (some b)
    spine newId i (m + 1) h b

/-- Place a value at `i` below the root `r` of `n` levels: descend `k` of
them, build the new nodes, write. -/
def grow [Inhabited T] (cp : Id → Bool) (id : Id) (newId : Addr → Id) (i k n : ℕ) (h : Heap T)
    (r : Addr) (x : T) : Exec (Heap T) := do
  let (h, a) ← descend cp id i k n h r
  let (h, a) ← spine newId i (n - k) h a
  setLeaf h a (slot i 0) x

/-- Append a value where a new leaf is needed: find the depth, own the
root, rotate if the trie is full, and grow below it. -/
def pushLeaf [Inhabited T] (cp : Id → Bool) (newId : Addr → Id) (h : Heap T) (v : BpVector)
    (x : T) :
    Exec (Heap T × BpVector) := do
  let depthCap ← v.capacity
  let ins := depthIns v.sz v.calcDepth depthCap (-1)
  let (h, r) := ownRoot cp v.id h v.root
  let (h, r, levels) ← if ins = -1 then do
      let (h, r) ← rotate newId h r
      pure (h, r, v.levels + 1)
    else pure (h, r, v.levels)
  let h ← grow cp v.id newId v.sz ins.toNat levels h r x
  .ok (h, { sz := v.sz + 1, levels := levels, root := r, id := v.id })

/-- `bp_vector_base::push_back` -/
def pushBack [Inhabited T] (D : Der) (h : Heap T) (v : BpVector) (x : T) :
    Exec (Heap T × BpVector) :=
  if v.sz &&& bpMask ≠ 0 then do
    let (h, ret) ← v.set D h v.sz x
    .ok (h, { ret with sz := ret.sz + 1 })
  else
    pushLeaf (nodeCopy D v.id) (fun _ => v.id) h v x

/-- The shared text of the two `mut_push_back`: in a leaf that is partly
filled it is a `mut_set`, given here as `write`; the first leaf is the
root, written in place whoever owns it. -/
def mutPushWith [Inhabited T] (cp : Id → Bool) (newId : Addr → Id) (h : Heap T) (v : BpVector)
    (x : T) : Exec (Heap T × BpVector) :=
  if v.sz &&& bpMask ≠ 0 then do
    let (h, v) ← setWith cp h v v.sz x
    .ok (h, { v with sz := v.sz + 1 })
  else if hlt : v.sz < bpWidth then do
    let h ← setLeaf h v.root ⟨v.sz, hlt⟩ x
    .ok (h, { v with sz := v.sz + 1 })
  else
    pushLeaf cp newId h v x

end BpVector

open BpVector

/-! ## `bp_vector` -/

namespace Bp

/-- `bp_vector()` -/
def new [Inhabited T] (h : Heap T) : Heap T × BpVector :=
  let (h, r) := h.alloc (BpNode.newLeaves 0)
  (h, ⟨0, 0, r, 0⟩)

/-- `bp_vector::mut_set`: no node is ever copied. -/
def mutSet (h : Heap T) (v : BpVector) (i : ℕ) (x : T) : Exec (Heap T × BpVector) :=
  setWith (fun _ => false) h v i x

/-- `bp_vector::mut_push_back`. The nodes it makes are given no id:
`junk` is what the memory at an address holds. -/
def mutPushBack [Inhabited T] (junk : Addr → Id) (h : Heap T) (v : BpVector) (x : T) :
    Exec (Heap T × BpVector) :=
  mutPushWith (fun _ => false) junk h v x

end Bp

/-! ## `ps_vector` -/

namespace Ps

/-- `ps_vector()` -/
def new [Inhabited T] (h : Heap T) : Heap T × BpVector := Bp.new h

/-- `ps_vector(const tr_vector &)` and `tr_vector::make_persistent()` -/
def ofTr (v : BpVector) : BpVector := { v with id := 0 }

end Ps

/-! ## `tr_vector` -/

namespace Tr

/-- `get_unique_id()` on the counter: the id, and the counter after. The
counter is an `atomic<int32_t>` that starts at one and wraps. -/
def getUniqueId (c : Id) : Id × Id := (c, c + 1)

/-- `tr_vector()`, with the id it draws. -/
def new [Inhabited T] (id : Id) (h : Heap T) : Heap T × BpVector :=
  let (h, r) := h.alloc (BpNode.newLeaves id)
  (h, ⟨0, 0, r, id⟩)

/-- `tr_vector(const ps_vector &)` and `tr_vector(const bp_vector &)`, that
is `make_transient()`: the same trie under the id that is drawn. -/
def withId (v : BpVector) (id : Id) : BpVector := { v with id := id }

/-- `new_id()`, with the counter after it. -/
def newId (c : Id) (v : BpVector) : BpVector × Id :=
  let (drawn, c) := getUniqueId c
  (withId v drawn, c)

/-- `tr_vector::mut_set` -/
def mutSet (h : Heap T) (v : BpVector) (i : ℕ) (x : T) : Exec (Heap T × BpVector) :=
  setWith (fun other => v.id != other) h v i x

/-- `tr_vector::mut_push_back` -/
def mutPushBack [Inhabited T] (h : Heap T) (v : BpVector) (x : T) : Exec (Heap T × BpVector) :=
  mutPushWith (fun other => v.id != other) (fun _ => v.id) h v x

end Tr

end Contentious
