import Mathlib.Algebra.Order.Ring.Nat

/-!
# Store — cells that are allocated and never moved

A store of cells addressed by number, with a bump allocator: `alloc`
hands out the next address, `write` replaces a cell in place, and nothing
is ever freed.
-/

/-- Cells addressed by number; the addresses below `next` are in use. -/
structure Store (ν : Type*) where
  /-- The next address to be handed out. -/
  next : ℕ
  /-- What each address holds. -/
  cell : ℕ → ν

namespace Store

variable {ν : Type*} {s : Store ν} {a b : ℕ} {n : ν}

/-- A fresh cell holding `n`, and its address. -/
def alloc (s : Store ν) (n : ν) : Store ν × ℕ :=
  (⟨s.next + 1, fun b => if b = s.next then n else s.cell b⟩, s.next)

/-- Overwrite the cell at `a`. -/
def write (s : Store ν) (a : ℕ) (n : ν) : Store ν :=
  { s with cell := fun b => if b = a then n else s.cell b }

@[simp] theorem alloc_snd (s : Store ν) (n : ν) : (s.alloc n).2 = s.next := rfl

@[simp] theorem alloc_next (s : Store ν) (n : ν) : (s.alloc n).1.next = s.next + 1 := rfl

theorem alloc_cell (s : Store ν) (n : ν) (b : ℕ) :
    (s.alloc n).1.cell b = if b = s.next then n else s.cell b := rfl

@[simp] theorem alloc_cell_new (s : Store ν) (n : ν) : (s.alloc n).1.cell s.next = n := if_pos rfl

theorem alloc_cell_old (h : b < s.next) : (s.alloc n).1.cell b = s.cell b := if_neg (by omega)

@[simp] theorem write_next (s : Store ν) (a : ℕ) (n : ν) : (s.write a n).next = s.next := rfl

@[simp] theorem write_cell_self (s : Store ν) (a : ℕ) (n : ν) : (s.write a n).cell a = n :=
    if_pos rfl

theorem write_cell_ne (h : b ≠ a) : (s.write a n).cell b = s.cell b := if_neg h

/-- Writing what is there changes nothing. -/
@[simp] theorem write_self (s : Store ν) (a : ℕ) : s.write a (s.cell a) = s := by
  simp only [write]
  congr 1
  funext b
  split
  · next h => rw [h]
  · rfl

/-- The later write stays. -/
theorem write_write (s : Store ν) (a : ℕ) (m n : ν) : (s.write a m).write a n = s.write a n := by
  simp only [write]
  congr 1
  funext b
  split <;> rfl

end Store
