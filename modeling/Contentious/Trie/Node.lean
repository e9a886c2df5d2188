import Contentious.Common.Radix
import Contentious.Common.Store
import Mathlib.Data.Fintype.Basic

/-!
# Trie — nodes and the heap they live in

`bp_node<T>` is a reference-counted cell that is either an array of child
pointers or an array of values. The heap is a `Store` of such cells:
reference counting keeps a node for as long as a pointer to it is left,
so a pointer is an address that is always in use and the only bad pointer
is the null one. The undefined steps of the source — a null pointer
followed, a leaf used as a branch — are faults here.
-/

namespace Contentious

/-- The compile-time constant `BP_BITS`: positive, and small enough for
`BP_WIDTH` to fit its `uint16_t`. -/
class BpBits where
  /-- `BP_BITS` -/
  bpBits : ℕ
  one_le : 1 ≤ bpBits
  le : bpBits ≤ 15

export BpBits (bpBits)

/-- The smallest width there is, arrays of two. -/
@[reducible] def oneBit : BpBits := ⟨1, by decide, by decide⟩

/-- `BP_WIDTH = 1 << BP_BITS` -/
def bpWidth [BpBits] : ℕ := 1 <<< bpBits

/-- `BP_MASK = BP_WIDTH - 1` -/
def bpMask [BpBits] : ℕ := bpWidth - 1

/-- An `int32_t` id. -/
abbrev Id := BitVec 32

/-- What stops a step: the exception of `at`, or behaviour the language
leaves undefined. -/
inductive Fault
  /-- `std::out_of_range`, with its message -/
  | outOfRange (what : String)
  /-- a null child pointer is followed -/
  | nullChild
  /-- `as_branches` of a leaf, or `as_leaves` of a branch -/
  | wrongType
  /-- a value does not fit the integer type it is converted to -/
  | overflow
  /-- a pointer leaves the array it points into -/
  | outOfBounds
  /-- an `assert` fails -/
  | assertion
  /-- a loop is run for too few rounds: no step of the program -/
  | rounds
deriving DecidableEq, Repr

/-- The outcome of a step of the program. -/
abbrev Exec := Except Fault

theorem Exec.bind_eq_ok {α β : Type} {x : Exec α} {f : α → Exec β} {r : β} :
    x >>= f = .ok r ↔ ∃ a, x = .ok a ∧ f a = .ok r := by
  cases x with
  | error e => exact ⟨fun h => (nomatch h), fun ⟨_, h, _⟩ => (nomatch h)⟩
  | ok a => exact ⟨fun h => ⟨a, rfl, h⟩, fun ⟨_, h, hf⟩ => by cases h; exact hf⟩

@[simp] theorem Exec.ok_bind {α β : Type} (a : α) (f : α → Exec β) :
    (Except.ok a >>= f : Exec β) = f a := rfl

theorem Exec.toOption_eq_some {α : Type} {x : Exec α} {a : α} :
    x.toOption = some a ↔ x = .ok a := by
  cases x with
  | error e => exact ⟨fun h => (nomatch h), fun h => (nomatch h)⟩
  | ok b => simp [Except.toOption]

/-- A step that does not fault, as a step of a machine. -/
theorem Exec.toOption_map_eq_some {α β : Type} {x : Exec α} {f : α → β} {b : β} :
    x.toOption.map f = some b ↔ ∃ a, x = .ok a ∧ f a = b := by
  cases x with
  | error e => exact ⟨fun h => (nomatch h), fun ⟨_, h, _⟩ => (nomatch h)⟩
  | ok a => simp [Except.toOption]

/-- A pointer to a node that is not null. -/
abbrev Addr := ℕ

section
variable [K : BpBits]

theorem bpWidth_eq : bpWidth = 2 ^ bpBits := by rw [bpWidth, Nat.shiftLeft_eq, Nat.one_mul]

theorem one_lt_bpWidth : 1 < bpWidth := by
  rw [bpWidth_eq]; exact Nat.one_lt_two_pow (by have := K.one_le; omega)

theorem bpWidth_pos : 0 < bpWidth := by have := one_lt_bpWidth; omega

/-- The masked size, as the updates test it. -/
theorem and_bpMask (sz : ℕ) : sz &&& bpMask = sz % bpWidth := by
  rw [bpMask, bpWidth_eq, Nat.and_two_pow_sub_one_eq_mod]

/-- `i >> s & BP_MASK`, an index of a node's array. -/
def slot (i s : ℕ) : Fin bpWidth :=
  ⟨(i >>> s) &&& bpMask, by
    have := Nat.and_le_right (n := i >>> s) (m := bpMask)
    have := bpWidth_pos
    rw [bpMask] at *
    omega⟩

/-- At a shift that is a multiple of `BP_BITS` the slot is a digit. -/
theorem slot_val (i n : ℕ) : (slot i (n * bpBits)).val = Radix.digit bpWidth i n := by
  simp only [slot, bpMask, bpWidth_eq]
  exact Radix.shiftRight_and_mask bpBits i n

/-- Indices of one place share the slot under it. -/
theorem slot_congr {i j n : ℕ} (h : Radix.pos bpWidth i n = Radix.pos bpWidth j n) :
    slot i ((n + 1) * bpBits) = slot j ((n + 1) * bpBits) := by
  apply Fin.ext
  rw [slot_val, slot_val]
  exact Radix.digit_congr h

theorem slot_zero_val (i : ℕ) : (slot i 0).val = Radix.digit bpWidth i 0 := by
  rw [← slot_val, Nat.zero_mul]

/-- `_u` with its `_u_type`: an array of child pointers, null where
`none`, or an array of values. (`bp_node_t::uninitialized` is never
used.) -/
inductive Cells (T : Type)
  | branches (c : Fin bpWidth → Option Addr)
  | leaves (c : Fin bpWidth → T)

/-- `bp_node<T>` -/
structure BpNode (T : Type) where
  u : Cells T
  id : Id

/-- The nodes in memory. -/
abbrev Heap (T : Type) := Store (BpNode T)

variable {T : Type}

/-- `bp_node(bp_node_t::branches, id)`: every child null. -/
def BpNode.newBranches (id : Id) : BpNode T := ⟨.branches fun _ => none, id⟩

/-- `bp_node(bp_node_t::leaves, id)`: every value default-constructed. -/
def BpNode.newLeaves [Inhabited T] (id : Id) : BpNode T := ⟨.leaves fun _ => default, id⟩

/-- `as_branches()` -/
def BpNode.asBranches (n : BpNode T) : Exec (Fin bpWidth → Option Addr) :=
  match n.u with
  | .branches c => .ok c
  | .leaves _ => .error .wrongType

theorem BpNode.of_asBranches {n : BpNode T} {c : Fin bpWidth → Option Addr}
    (h : n.asBranches = .ok c) : n.u = .branches c := by
  rw [asBranches] at h
  split at h
  · next hu =>
    cases h
    exact hu
  · exact nomatch h

/-- `as_leaves()` -/
def BpNode.asLeaves (n : BpNode T) : Exec (Fin bpWidth → T) :=
  match n.u with
  | .branches _ => .error .wrongType
  | .leaves c => .ok c

/-- `new bp_node(*a, id)`: a copy of `a` under another id. -/
def copyNode (h : Heap T) (a : Addr) (id : Id) : Heap T × Addr :=
  h.alloc ⟨(h.cell a).u, id⟩

/-- `a->as_branches()[k]`, to be followed. -/
def child (h : Heap T) (a : Addr) (k : Fin bpWidth) : Exec Addr := do
  match (← (h.cell a).asBranches) k with
  | some b => .ok b
  | none => .error .nullChild

/-- `a->as_branches()[k] = p` -/
def setChild (h : Heap T) (a : Addr) (k : Fin bpWidth) (p : Option Addr) : Exec (Heap T) := do
  let c ← (h.cell a).asBranches
  .ok (h.write a ⟨.branches (Function.update c k p), (h.cell a).id⟩)

/-- `a->as_leaves()[k]` -/
def leaf (h : Heap T) (a : Addr) (k : Fin bpWidth) : Exec T := do
  let c ← (h.cell a).asLeaves
  .ok (c k)

/-- `a->as_leaves()[k] = x` -/
def setLeaf (h : Heap T) (a : Addr) (k : Fin bpWidth) (x : T) : Exec (Heap T) := do
  let c ← (h.cell a).asLeaves
  .ok (h.write a ⟨.leaves (Function.update c k x), (h.cell a).id⟩)

/-- `k` rounds of `node = node->as_branches()[i >> s & BP_MASK].get()`,
from the node `a` at `s = n * BP_BITS` down. -/
def walk (h : Heap T) (i : ℕ) : ℕ → ℕ → Addr → Exec Addr
  | 0, _, a => .ok a
  | k + 1, n, a => do
    let b ← child h a (slot i (n * bpBits))
    walk h i k (n - 1) b

/-! ## What the accessors read and write -/

variable {h : Heap T} {a b : Addr} {k : Fin bpWidth} {p : Option Addr} {x : T}

theorem child_eq_ok : child h a k = .ok b ↔ ∃ c, (h.cell a).u = .branches c ∧ c k = some b := by
  simp only [child, BpNode.asBranches]
  cases (h.cell a).u with
  | leaves c => exact ⟨fun h => (nomatch h), fun ⟨_, h, _⟩ => (nomatch h)⟩
  | branches c =>
    simp only [Exec.ok_bind, Cells.branches.injEq, exists_eq_left']
    cases hk : c k with
    | none => exact ⟨fun h => (nomatch h), fun h => (nomatch h)⟩
    | some d => simp

theorem child_of {c : Fin bpWidth → Option Addr} (hc : (h.cell a).u = .branches c)
    (hk : c k = some b) : child h a k = .ok b := child_eq_ok.2 ⟨c, hc, hk⟩

theorem setChild_of {c : Fin bpWidth → Option Addr} (hc : (h.cell a).u = .branches c) :
    setChild h a k p =
      .ok (h.write a ⟨.branches (Function.update c k p), (h.cell a).id⟩) := by
  simp only [setChild, BpNode.asBranches, hc, Exec.ok_bind]

theorem leaf_eq_ok : leaf h a k = .ok x ↔ ∃ c, (h.cell a).u = .leaves c ∧ c k = x := by
  simp only [leaf, BpNode.asLeaves]
  cases (h.cell a).u with
  | branches c => exact ⟨fun h => (nomatch h), fun ⟨_, h, _⟩ => (nomatch h)⟩
  | leaves c => simp

theorem setLeaf_of {c : Fin bpWidth → T} (hc : (h.cell a).u = .leaves c) :
    setLeaf h a k x = .ok (h.write a ⟨.leaves (Function.update c k x), (h.cell a).id⟩) := by
  simp only [setLeaf, BpNode.asLeaves, hc, Exec.ok_bind]

/-- Nodes with the same array have the same children, -/
theorem child_congr {h' : Heap T} {a' : Addr} (hu : (h'.cell a').u = (h.cell a).u) :
    child h' a' k = child h a k := by
  simp only [child, BpNode.asBranches, hu]

/-- and the same values. -/
theorem leaf_congr {h' : Heap T} {a' : Addr} (hu : (h'.cell a').u = (h.cell a).u) :
    leaf h' a' k = leaf h a k := by
  simp only [leaf, BpNode.asLeaves, hu]

end

end Contentious
