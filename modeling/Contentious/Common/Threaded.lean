import Mathlib.Data.List.Basic

/-!
# Threaded — a list that is threaded through cells

Each cell of the list names the next one, and the last a value that is no
cell. Cells are put in front and taken from there; what is written to other
cells makes no difference.
-/

variable {α : Type*} {next next' : α → α} {nil a b : α} {l : List α}

/-- From `a` on the cells are `l`, up to `nil`. -/
def Threaded (next : α → α) (nil : α) : α → List α → Prop
  | a, [] => a = nil
  | a, b :: l => a = b ∧ b ≠ nil ∧ Threaded next nil (next b) l

namespace Threaded

/-- Only the list of no cells starts at its end. -/
theorem eq_nil_iff (h : Threaded next nil a l) : a = nil ↔ l = [] := by
  cases l with
  | nil => exact iff_of_true h rfl
  | cons b l => exact iff_of_false (fun ha => h.2.1 (h.1.symm.trans ha)) (List.cons_ne_nil b l)

theorem congr (h : Threaded next nil a l) (hnext : ∀ b ∈ l, next' b = next b) :
    Threaded next' nil a l := by
  induction l generalizing a with
  | nil => exact h
  | cons b l ih =>
    obtain ⟨ha, hb, h⟩ := h
    refine ⟨ha, hb, ?_⟩
    rw [hnext b List.mem_cons_self]
    exact ih h fun c hc => hnext c (List.mem_cons_of_mem b hc)

/-- A cell that names the first goes in front. -/
theorem push (h : Threaded next nil a l) (hb : b ≠ nil) (hnext : next b = a) :
    Threaded next nil b (b :: l) :=
  ⟨rfl, hb, by rwa [hnext]⟩

/-- The first cell is taken off. -/
theorem pop (h : Threaded next nil a (b :: l)) : Threaded next nil (next b) l := h.2.2

/-- What a cell names is a cell, or the end. -/
theorem next_mem (h : Threaded next nil a l) (hb : b ∈ l) : next b = nil ∨ next b ∈ l := by
  induction l generalizing a with
  | nil => cases hb
  | cons c l ih =>
    obtain ⟨-, -, h⟩ := h
    rcases List.mem_cons.1 hb with rfl | hb
    · cases l with
      | nil => exact .inl h
      | cons d l => exact .inr (by rw [h.1]; simp)
    · exact (ih h hb).imp_right (List.mem_cons_of_mem c)

end Threaded
