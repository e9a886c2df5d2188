import Contentious.Common.Loop
import Contentious.Trie.Edit

/-!
# Trie — iterators

`bp_vector_iterator` and `bp_vector_const_iterator`: a root, the index
the leaf at hand starts at, and two raw pointers into its array. They
move by the same steps. What differs is the walk from the root to a leaf:
the mutable one copies the nodes on it that do not carry its own id, the
const one copies nothing. So the steps take the copy test as a parameter,
as the updates do, and the const one has the test that never holds.

Pointers to the arrays are kept as a leaf and an offset; `end` is the
offset `BP_WIDTH` of the same leaf. A pointer moved past it is a fault.
-/

namespace Contentious

variable [K : BpBits] {T : Type}

/-- `bp_vector_iterator`, and the const one, which never looks at its id. -/
structure BpIterator where
  root : Addr
  /-- `shift / BP_BITS` -/
  levels : ℕ
  i : ℕ
  sz : ℕ
  id : Id
  /-- the leaf whose array `cur` and `end` point into -/
  leaf : Addr
  /-- `cur`, as an offset into that array -/
  cur : ℕ
deriving DecidableEq, Repr

/-- A `size_t` result. -/
def sizeT (n : ℕ) : ℕ := n % 2 ^ 64

/-- `a - b` on `size_t`. -/
def subSizeT (a b : ℕ) : ℕ := sizeT (a + 2 ^ 64 - b)

/-- `(int64_t)n` of a `size_t`. -/
def toInt64 (n : ℕ) : ℤ := (BitVec.ofNat 64 n).toInt

namespace BpIterator

open BpVector

/-- `operator==`: `cur` points where the other's does. -/
def eq (it other : BpIterator) : Bool := it.leaf = other.leaf && it.cur = other.cur

/-- The walk from `root` to the leaf of `i`, and `cur` set `off` into its
array. -/
def seekWith (cp : Id → Bool) (h : Heap T) (it : BpIterator) (off : ℕ) :
    Exec (Heap T × BpIterator) := do
  let (h, node) ← descend cp it.id it.i it.levels it.levels h it.root
  let _ ← (h.cell node).asLeaves
  .ok (h, { it with leaf := node, cur := off })

/-- The constructor from a vector, whose root it may replace by a copy. -/
def beginWith (cp : Id → Bool) (h : Heap T) (toit : BpVector) :
    Exec (Heap T × BpVector × BpIterator) := do
  let (h, r) := ownRoot cp toit.id h toit.root
  let (h, it) ← seekWith cp h ⟨r, toit.levels, 0, toit.sz, toit.id, r, 0⟩ 0
  .ok (h, { toit with root := r }, it)

/-- `operator++` -/
def nextWith (cp : Id → Bool) (h : Heap T) (it : BpIterator) : Exec (Heap T × BpIterator) :=
  if it.cur + 1 > bpWidth then .error .outOfBounds
  else
    let it := { it with cur := it.cur + 1 }
    if it.cur ≠ bpWidth then .ok (h, it)
    else
      -- end of full trie
      let it := { it with i := sizeT (it.i + bpWidth) }
      if it.i = it.sz then .ok (h, it) else seekWith cp h it 0

/-- `operator+(n)`, and `operator+=` of the const one: past the end it
stops at the end. -/
def addWith (cp : Id → Bool) (h : Heap T) (it : BpIterator) (n : ℕ) : Exec (Heap T × BpIterator) :=
  if it.sz = 0 ∨ n = 0 then .ok (h, it)
  else if (bpWidth : ℤ) - it.cur > toInt64 n then
    -- within the leaf
    if it.cur + n ≤ bpWidth then .ok (h, { it with cur := it.cur + n }) else .error .outOfBounds
  else do
    let i := sizeT (it.i + (bpWidth - (bpWidth - it.cur)) + n)
    let (i, plusplus) := if i ≥ it.sz then (it.sz - 1, 1) else (i, 0)
    let (h, it) ← seekWith cp h { it with i := i } ((i &&& bpMask) + plusplus)
    .ok (h, { it with i := it.i - (it.i &&& bpMask) })

/-- `*it`, read -/
def deref (h : Heap T) (it : BpIterator) : Exec T :=
  if hlt : it.cur < bpWidth then Contentious.leaf h it.leaf ⟨it.cur, hlt⟩ else .error .outOfBounds

/-! ## The mutable iterator -/

/-- `++it` -/
def next (h : Heap T) (it : BpIterator) : Exec (Heap T × BpIterator) :=
  nextWith (fun other => it.id != other) h it

/-- `it + n` -/
def add (h : Heap T) (it : BpIterator) (n : ℕ) : Exec (Heap T × BpIterator) :=
  addWith (fun other => it.id != other) h it n

/-- `*it = x` -/
def store (h : Heap T) (it : BpIterator) (x : T) : Exec (Heap T) :=
  if hlt : it.cur < bpWidth then setLeaf h it.leaf ⟨it.cur, hlt⟩ x else .error .outOfBounds

/-! ## The const iterator

Its walk copies nothing, so the heap it leaves is the heap it was given
(`descend_const`) and is dropped. -/

/-- `++it` -/
def cnext (h : Heap T) (it : BpIterator) : Exec BpIterator := do
  let (_, it) ← nextWith (fun _ => false) h it
  .ok it

/-- `it += n` -/
def cadd (h : Heap T) (it : BpIterator) (n : ℕ) : Exec BpIterator := do
  let (_, it) ← addWith (fun _ => false) h it n
  .ok it

end BpIterator

namespace BpVector

/-- `begin()`, which owns the path to the first leaf. -/
def begin (h : Heap T) (v : BpVector) : Exec (Heap T × BpVector × BpIterator) :=
  BpIterator.beginWith (fun other => v.id != other) h v

/-- `end()` -/
def end' (h : Heap T) (v : BpVector) : Exec (Heap T × BpVector × BpIterator) := do
  let (h, v, it) ← begin h v
  let (h, it) ← it.add h v.sz
  .ok (h, v, it)

/-- `cbegin()` -/
def cbegin (h : Heap T) (v : BpVector) : Exec BpIterator := do
  let (_, _, it) ← BpIterator.beginWith (fun _ => false) h v
  .ok it

/-- `cend()` -/
def cend (h : Heap T) (v : BpVector) : Exec BpIterator := do
  let it ← cbegin h v
  it.cadd h v.sz

/-! ## The walk that copies nothing -/

variable {h h' : Heap T} {a b r : Addr} {i k n base off : ℕ} {x : T} {v v' : BpVector} {id : Id}
variable {cp : Id → Bool} {N : Id → Prop} {S : Addr → Prop} {it it' : BpIterator}

theorem ownChild_const {s : Fin bpWidth} :
    ownChild (fun _ => false) id h a s = child h a s >>= fun b => .ok (h, b) := by
  rw [ownChild]
  rfl

/-- **A walk that copies nothing** is the walk of `operator[]`. -/
theorem descend_const :
    descend (fun _ => false) id i k n h a = walk h i k n a >>= fun b => .ok (h, b) := by
  induction k generalizing n a with
  | zero => rfl
  | succ k ih =>
    rw [descend, walk, ownChild_const, bind_assoc, bind_assoc]
    congr 1
    funext b
    exact ih

end BpVector

/-! ## What the iterators write -/

namespace BpIterator

/-- The nodes a mutable iterator points at are owned. -/
structure Held (base : ℕ) (cp : Id → Bool) (S : Addr → Prop) (h : Heap T) (it : BpIterator) :
    Prop where
  root : Owned base cp S h it.root
  leaf : Owned base cp S h it.leaf

/-- What a step of an iterator has done, from the heap `h`: the edits of
its walk, and where it points now. -/
structure Moved (base : ℕ) (cp : Id → Bool) (N : Id → Prop) (S : Addr → Prop) (h h' : Heap T)
    (it it' : BpIterator) : Prop where
  edits : Edits base cp N S h h'
  held : Held base cp S h' it'
  id_eq : it'.id = it.id

variable {h h' : Heap T} {base n off : ℕ} {x : T} {v v' : BpVector} {cp : Id → Bool}
variable {N : Id → Prop} {S : Addr → Prop} {it it' : BpIterator}

/-- The walk to a leaf goes on from an owned root. -/
theorem moved_of_seekWith (he : seekWith cp h it off = .ok (h', it'))
    (hr : Owned base cp S h it.root) (hS : Scope base S h) (hN : N it.id) :
    Moved base cp N S h h' it it' := by
  obtain ⟨⟨h₁, node⟩, hd, he⟩ := Exec.bind_eq_ok.1 he
  obtain ⟨_, -, he⟩ := Exec.bind_eq_ok.1 he
  cases he
  have e := hr.descend hS hN hd
  exact ⟨e.edits, ⟨hr.edits e.edits, e.owned⟩, rfl⟩

namespace Held

theorem edits (hit : Held base cp S h it) (e : Edits base cp N S h h') : Held base cp S h' it :=
  ⟨hit.root.edits e, hit.leaf.edits e⟩

theorem nextWith (hit : Held base cp S h it) (hS : Scope base S h) (hN : N it.id)
    (he : nextWith cp h it = .ok (h', it')) : Moved base cp N S h h' it it' := by
  rw [BpIterator.nextWith] at he
  split at he
  · exact nomatch he
  · dsimp only at he
    split at he
    · cases he
      exact ⟨.refl, ⟨hit.root, hit.leaf⟩, rfl⟩
    · split at he
      · cases he
        exact ⟨.refl, ⟨hit.root, hit.leaf⟩, rfl⟩
      · -- on to the next leaf
        have e := moved_of_seekWith he hit.root hS hN
        exact ⟨e.edits, e.held, e.id_eq⟩

theorem addWith (hit : Held base cp S h it) (hS : Scope base S h) (hN : N it.id)
    (he : addWith cp h it n = .ok (h', it')) : Moved base cp N S h h' it it' := by
  rw [BpIterator.addWith] at he
  split at he
  · cases he
    exact ⟨.refl, hit, rfl⟩
  · split at he
    · split at he
      · cases he
        exact ⟨.refl, ⟨hit.root, hit.leaf⟩, rfl⟩
      · exact nomatch he
    · obtain ⟨⟨h₁, it₁⟩, hs, he⟩ := Exec.bind_eq_ok.1 he
      cases he
      have e := moved_of_seekWith hs hit.root hS hN
      exact ⟨e.edits, ⟨e.held.root, e.held.leaf⟩, e.id_eq⟩

theorem store (hit : Held base cp S h it) (he : store h it x = .ok h') :
    Edits base cp N S h h' := by
  rw [BpIterator.store] at he
  split at he
  · exact hit.leaf.setLeaf he
  · exact nomatch he

end Held

/-- **`begin()` is edits**, and the iterator points at owned nodes. -/
theorem held_of_beginWith (he : beginWith cp h v = .ok (h', v', it)) (hS : Scope base S h)
    (hr : S v.root) (hlt : v.root < h.next) (hN : N v.id) :
    Edited base cp N S h h' v'.root ∧ v'.id = v.id ∧ Held base cp S h' it ∧ it.id = v.id := by
  obtain ⟨⟨h₁, it₁⟩, hs, he⟩ := Exec.bind_eq_ok.1 he
  cases he
  have e₁ := hS.ownRoot cp hr hlt hN
  have e₂ := moved_of_seekWith hs e₁.owned (hS.edits e₁.edits) hN
  exact ⟨e₁.followed e₂.edits, rfl, e₂.held, e₂.id_eq⟩

end BpIterator

end Contentious
