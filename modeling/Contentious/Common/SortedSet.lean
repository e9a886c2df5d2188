import Mathlib.Data.List.Basic
import Mathlib.Order.Lattice

/-!
# SortedSet — an ordered set that is walked in order

A set kept as an ascending list, so that a loop over it visits each
element once and in order, whatever the order of insertion. Membership is
all that its users need of it, with the fact that no element comes twice.
-/

/-- A set, as the ascending list of its elements. -/
structure SortedSet (α : Type*) [LinearOrder α] where
  elems : List α
  sorted : elems.Pairwise (· < ·)

namespace SortedSet

variable {α β : Type*} [LinearOrder α] {a b : α} {l : List α} {s : SortedSet α}

instance : Membership α (SortedSet α) := ⟨fun s a => a ∈ s.elems⟩

instance : Decidable (a ∈ s) := inferInstanceAs (Decidable (a ∈ s.elems))

theorem mem_elems : a ∈ s.elems ↔ a ∈ s := Iff.rfl

theorem nodup (s : SortedSet α) : s.elems.Nodup := s.sorted.imp fun h => h.ne

/-- The set with no elements. -/
def empty : SortedSet α := ⟨[], .nil⟩

theorem elems_empty : (empty : SortedSet α).elems = [] := rfl

@[simp] theorem not_mem_empty : a ∉ (empty : SortedSet α) := List.not_mem_nil

/-- Insertion in its place. -/
def insertList (a : α) : List α → List α
  | [] => [a]
  | b :: l => if a < b then a :: b :: l else if a = b then b :: l else b :: insertList a l

theorem mem_insertList : b ∈ insertList a l ↔ b = a ∨ b ∈ l := by
  induction l with
  | nil => simp [insertList]
  | cons c l ih =>
    rw [insertList]
    split
    · simp
    · split
      · next h => subst h; simp
      · rw [List.mem_cons, ih, List.mem_cons]
        tauto

theorem pairwise_insertList (hl : l.Pairwise (· < ·)) : (insertList a l).Pairwise (· < ·) := by
  induction l with
  | nil => exact List.pairwise_singleton _ _
  | cons c l ih =>
    obtain ⟨hc, hl'⟩ := List.pairwise_cons.1 hl
    rw [insertList]
    split
    · next hac =>
      refine List.pairwise_cons.2 ⟨fun d hd => ?_, hl⟩
      rcases List.mem_cons.1 hd with rfl | hd
      · exact hac
      · exact hac.trans (hc d hd)
    · next hac =>
      split
      · exact hl
      · next hne =>
        refine List.pairwise_cons.2 ⟨fun d hd => ?_, ih hl'⟩
        rcases mem_insertList.1 hd with rfl | hd
        · exact lt_of_le_of_ne (not_lt.1 hac) (Ne.symm hne)
        · exact hc d hd

/-- The set with an element more. -/
def insert (s : SortedSet α) (a : α) : SortedSet α :=
  ⟨insertList a s.elems, pairwise_insertList s.sorted⟩

@[simp] theorem mem_insert : b ∈ s.insert a ↔ b = a ∨ b ∈ s := mem_insertList

/-- A loop that inserts. -/
def insertAll (s : SortedSet α) (f : β → α) (l : List β) : SortedSet α :=
  l.foldl (fun s k => s.insert (f k)) s

theorem mem_insertAll {f : β → α} {l : List β} :
    a ∈ s.insertAll f l ↔ a ∈ s ∨ ∃ k ∈ l, f k = a := by
  induction l generalizing s with
  | nil => simp [insertAll]
  | cons k l ih =>
    rw [insertAll, List.foldl_cons, ← insertAll, ih, mem_insert]
    simp only [List.mem_cons, exists_eq_or_imp]
    constructor
    · rintro ((rfl | h) | h)
      · exact .inr (.inl rfl)
      · exact .inl h
      · exact .inr (.inr h)
    · rintro (h | rfl | h)
      · exact .inl (.inr h)
      · exact .inl (.inl rfl)
      · exact .inr h

end SortedSet
