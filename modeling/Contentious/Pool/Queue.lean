import Mathlib.Algebra.GroupWithZero.Nat
import Mathlib.Data.Fin.Basic
import Mathlib.Data.List.Range
import Mathlib.Logic.Function.Iterate
import Mathlib.Tactic.SplitIfs

/-!
# Pool — the queue behind `resns`

`folly::ProducerConsumerQueue`: a ring of records between a read index and
a write index, one slot of which is never used. `write` loads the write
index, and what it does with it comes later; the two are apart here, since
a second producer may come in between. With the index it has loaded still
the queue's own, a write is the append of a list (`contents_write`), and a
pop is its tail (`contents_popFront`).
-/

namespace Contentious.Pool

/-- `ProducerConsumerQueue`, for `size_` records. -/
structure ProducerConsumerQueue (size : ℕ) (α : Type) where
  records : Fin size → α
  readIndex : Fin size
  writeIndex : Fin size

namespace ProducerConsumerQueue

variable {size : ℕ} {α : Type}

/-- The index after `current`: `current + 1`, or 0 at the end. -/
def nextRecord (current : Fin size) : Fin size :=
  if h : (current : ℕ) + 1 = size then ⟨0, current.pos⟩ else ⟨current + 1, by omega⟩

/-- The rest of `write`, once it has loaded `currentWrite`: `none` where it
returns false. -/
def write (q : ProducerConsumerQueue size α) (currentWrite : Fin size) (record : α) :
    Option (ProducerConsumerQueue size α) :=
  if nextRecord currentWrite ≠ q.readIndex then
    some { q with
      records := Function.update q.records currentWrite record
      writeIndex := nextRecord currentWrite }
  else none

/-- `isEmpty()` -/
def isEmpty (q : ProducerConsumerQueue size α) : Bool := q.readIndex == q.writeIndex

/-- `*frontPtr()`, `none` where it returns null. -/
def frontPtr (q : ProducerConsumerQueue size α) : Option α :=
  if q.readIndex = q.writeIndex then none else some (q.records q.readIndex)

/-- `popFront()` -/
def popFront (q : ProducerConsumerQueue size α) : ProducerConsumerQueue size α :=
  { q with readIndex := nextRecord q.readIndex }

/-- `sizeGuess()` -/
def sizeGuess (q : ProducerConsumerQueue size α) : ℕ :=
  if (q.readIndex : ℕ) ≤ q.writeIndex then q.writeIndex - q.readIndex
  else q.writeIndex + size - q.readIndex

/-- What the queue holds, from the read index on. -/
def contents (q : ProducerConsumerQueue size α) : List α :=
  (List.range q.sizeGuess).map fun i => q.records (nextRecord^[i] q.readIndex)

/-! ## The ring -/

theorem nextRecord_val (i : Fin size) :
    (nextRecord i : ℕ) = if (i : ℕ) + 1 = size then 0 else (i : ℕ) + 1 := by
  rw [nextRecord]
  split <;> rfl

/-- Fewer than `size_` steps wrap at most once. -/
theorem iterate_nextRecord_val (i : Fin size) {k : ℕ} (hk : k < size) :
    (nextRecord^[k] i : ℕ) = if (i : ℕ) + k < size then (i : ℕ) + k else i + k - size := by
  induction k with
  | zero => rw [Nat.add_zero, if_pos i.isLt]; rfl
  | succ k ih =>
    rw [Function.iterate_succ_apply', nextRecord_val, ih (by omega)]
    have := i.isLt
    split_ifs <;> omega

variable (q : ProducerConsumerQueue size α)

/-- One slot is never used. -/
theorem sizeGuess_lt : q.sizeGuess < size := by
  have := q.readIndex.isLt
  have := q.writeIndex.isLt
  rw [sizeGuess]
  split <;> omega

/-- So many steps on from the read index is the write index. -/
theorem iterate_sizeGuess : nextRecord^[q.sizeGuess] q.readIndex = q.writeIndex := by
  have hr := q.readIndex.isLt
  have hw := q.writeIndex.isLt
  refine Fin.ext ?_
  rw [iterate_nextRecord_val _ q.sizeGuess_lt, sizeGuess]
  split_ifs <;> omega

/-- No slot in use is the one to be written next. -/
theorem iterate_ne_writeIndex {i : ℕ} (hi : i < q.sizeGuess) :
    nextRecord^[i] q.readIndex ≠ q.writeIndex := by
  intro h
  have hval := congrArg Fin.val h
  have hlt := q.sizeGuess_lt
  have hr := q.readIndex.isLt
  have hw := q.writeIndex.isLt
  rw [iterate_nextRecord_val _ (by omega)] at hval
  rw [sizeGuess] at hi
  split_ifs at hi hval <;> omega

@[simp] theorem length_contents : q.contents.length = q.sizeGuess := by
  rw [contents, List.length_map, List.length_range]

theorem sizeGuess_eq_zero : q.sizeGuess = 0 ↔ q.readIndex = q.writeIndex := by
  have hr := q.readIndex.isLt
  have hw := q.writeIndex.isLt
  rw [sizeGuess, Fin.ext_iff]
  split <;> omega

theorem contents_eq_nil : q.contents = [] ↔ q.readIndex = q.writeIndex := by
  rw [← List.length_eq_zero_iff, length_contents, sizeGuess_eq_zero]

/-! ## The operations on the list -/

/-- `isEmpty` is that of the list. -/
theorem isEmpty_eq : q.isEmpty = q.contents.isEmpty := by
  rw [Bool.eq_iff_iff, isEmpty, beq_iff_eq, List.isEmpty_iff, contents_eq_nil]

/-- **A pop takes the front off**: it is the head, and the tail is left. -/
theorem contents_popFront (h : q.readIndex ≠ q.writeIndex) :
    q.contents = q.records q.readIndex :: q.popFront.contents := by
  have hsize : q.sizeGuess = q.popFront.sizeGuess + 1 := by
    have hr := q.readIndex.isLt
    have hw := q.writeIndex.isLt
    have hne : (q.readIndex : ℕ) ≠ q.writeIndex := fun he => h (Fin.ext he)
    simp only [sizeGuess, popFront, nextRecord_val]
    split_ifs <;> omega
  rw [contents, hsize, List.range_succ_eq_map, List.map_cons, List.map_map]
  rfl

/-- `frontPtr` finds the head. -/
theorem frontPtr_eq : q.frontPtr = q.contents.head? := by
  rw [frontPtr]
  split
  · next h => rw [(q.contents_eq_nil).2 h]; rfl
  · next h => rw [q.contents_popFront h]; rfl

theorem popFront_contents (h : q.contents ≠ []) : q.popFront.contents = q.contents.tail := by
  rw [q.contents_popFront fun he => h ((q.contents_eq_nil).2 he), List.tail_cons]

/-- **A write appends**, where it has loaded the queue's write index. -/
theorem contents_write {q q' : ProducerConsumerQueue size α} {record : α}
    (h : q.write q.writeIndex record = some q') : q'.contents = q.contents ++ [record] := by
  obtain ⟨hroom, hq⟩ := Option.ite_none_right_eq_some.1 h
  cases hq
  have hr := q.readIndex.isLt
  have hw := q.writeIndex.isLt
  have hne : (nextRecord q.writeIndex : ℕ) ≠ q.readIndex := fun he => hroom (Fin.ext he)
  rw [nextRecord_val] at hne
  have hsize : sizeGuess { q with
      records := Function.update q.records q.writeIndex record
      writeIndex := nextRecord q.writeIndex } = q.sizeGuess + 1 := by
    simp only [sizeGuess, nextRecord_val]
    split_ifs at hne ⊢ <;> omega
  rw [contents, hsize, List.range_succ, List.map_append, contents]
  congr 1
  · refine List.map_congr_left fun i hi => ?_
    exact Function.update_of_ne (q.iterate_ne_writeIndex (List.mem_range.1 hi)) ..
  · rw [List.map_singleton, q.iterate_sizeGuess]
    exact congrArg ([·]) (Function.update_self ..)

/-- It finds room just when the list leaves one slot free. -/
theorem write_eq_none {q : ProducerConsumerQueue size α} {record : α} :
    q.write q.writeIndex record = none ↔ q.contents.length + 1 = size := by
  have hr := q.readIndex.isLt
  have hw := q.writeIndex.isLt
  rw [write, ite_eq_right_iff, length_contents, sizeGuess]
  simp only [reduceCtorEq, imp_false, not_not, Fin.ext_iff, nextRecord_val]
  split_ifs <;> omega

/-- The queue as constructed, on records that may be anything. -/
def empty (size : ℕ) [NeZero size] (records : Fin size → α) : ProducerConsumerQueue size α where
  records := records
  readIndex := 0
  writeIndex := 0

end ProducerConsumerQueue

end Contentious.Pool
