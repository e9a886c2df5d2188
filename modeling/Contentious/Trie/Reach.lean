import Contentious.Trie.Edit
import Contentious.Trie.Push

/-!
# Trie — what a vector reaches

A vector shares nodes with others, and what another's update may do to it
is a question about the nodes it reaches. `Reach h r` is the set of nodes
under a root; an update of a vector edits within what it reaches and what
it makes (`Placed.reachScope`), and a vector none of whose nodes was
written denotes what it did (`Holds.of_reach`).
-/

namespace Contentious

variable [K : BpBits] {T : Type}

/-- The nodes that child pointers lead to from `r`. -/
inductive Reach (h : Heap T) (r : Addr) : Addr → Prop
  | root : Reach h r r
  | child {a b : Addr} {c : Fin bpWidth → Option Addr} {k : Fin bpWidth} : Reach h r a →
      (h.cell a).u = .branches c → c k = some b → Reach h r b

variable {h h' : Heap T} {Ψ Ψ' : Addr → Place} {a b r : Addr} {i k n : ℕ} {x y : T}
variable {S : Addr → Prop} {v : BpVector} {L : List T}

/-- A placed heap is a scope for any edits. -/
theorem Placed.scope (hP : Placed h Ψ) : Scope h.next (fun _ => True) h where
  base_le := le_rfl
  new _ _ := trivial
  closed a ha _ c k b hu hk := ⟨trivial, (hP.child a ha c hu k b hk).1⟩

/-- A closed set holds all that its nodes reach. -/
theorem Closed.reach (hS : Closed S h) (hr : S r) (hlt : r < h.next) (ha : Reach h r a) :
    S a ∧ a < h.next := by
  induction ha with
  | root => exact ⟨hr, hlt⟩
  | child _ hu hk ih => exact hS _ ih.2 ih.1 _ _ _ hu hk

theorem Placed.reach_lt (hP : Placed h Ψ) (hr : r < h.next) (ha : Reach h r a) : a < h.next :=
  (hP.scope.closed.reach trivial hr ha).2

/-- What a vector reaches, with what is made from now on, is a scope. -/
theorem Placed.reachScope (hP : Placed h Ψ) :
    Scope h.next (fun a => Reach h r a ∨ h.next ≤ a) h where
  base_le := le_rfl
  new _ ha := .inr ha
  closed a ha hSa c k b hu hk := by
    rcases hSa with hSa | hSa
    · exact ⟨.inl (hSa.child hu hk), (hP.child a ha c hu k b hk).1⟩
    · exact absurd ha (Nat.not_lt.2 hSa)

/-- Nodes with the pointers they had lead where they did. -/
theorem reach_congr (hptr : ∀ d, Reach h r d → ∀ c,
    (h'.cell d).u = .branches c ↔ (h.cell d).u = .branches c) : Reach h' r a ↔ Reach h r a := by
  constructor
  · intro ha
    induction ha with
    | root => exact .root
    | child _ hu hk ih => exact ih.child ((hptr _ ih _).1 hu) hk
  · intro ha
    induction ha with
    | root => exact .root
    | child hd hu hk ih => exact ih.child ((hptr _ hd _).2 hu) hk

/-- A walk goes over nodes that are reached. -/
theorem Reach.walk (hr : Reach h r a) (hw : walk h i k n a = .ok b) : Reach h r b := by
  induction k generalizing n a with
  | zero => cases hw; exact hr
  | succ k ih =>
    obtain ⟨c, hc, hw⟩ := Exec.bind_eq_ok.1 hw
    obtain ⟨f, hu, hk⟩ := child_eq_ok.1 hc
    exact ih (hr.child hu hk) hw

/-- **What is read depends on the nodes reached** and on no other. -/
theorem readAt_of_reach (hcell : ∀ d, Reach h r d → (h'.cell d).u = (h.cell d).u) :
    readAt h' i n r = readAt h i n r := by
  induction n generalizing r with
  | zero => exact leaf_congr (hcell r .root)
  | succ n ih =>
    rw [readAt, readAt, child_congr (hcell r .root)]
    cases hb : child h r (slot i ((n + 1) * bpBits)) with
    | error e => rfl
    | ok b =>
      obtain ⟨c, hu, hk⟩ := child_eq_ok.1 hb
      refine ih fun d hd => hcell d ?_
      clear ih
      induction hd with
      | root => exact .child .root hu hk
      | child _ hu hk ih => exact ih.child hu hk

/-- **A vector whose nodes were not written denotes what it did.** -/
theorem Holds.of_reach (hv : Holds h Ψ v L) (hn : h.next ≤ h'.next) (hΨ : ∀ d < h.next, Ψ' d = Ψ d)
    (hcell : ∀ d, Reach h v.root d → (h'.cell d).u = (h.cell d).u) : Holds h' Ψ' v L where
  root_lt := lt_of_lt_of_le hv.root_lt hn
  root_place := by rw [hΨ _ hv.root_lt, hv.root_place]
  size := hv.size
  fits := hv.fits
  tight := hv.tight
  read i hi := by rw [readAt_of_reach hcell]; exact hv.read i hi

/-- An empty vector denotes the empty list whatever is written. -/
theorem Holds.of_empty (hv : Holds h Ψ v ([] : List T)) (hn : h.next ≤ h'.next)
    (hΨ : ∀ d < h.next, Ψ' d = Ψ d) : Holds h' Ψ' v ([] : List T) :=
  ⟨lt_of_lt_of_le hv.root_lt hn, by rw [hΨ _ hv.root_lt, hv.root_place], hv.size, hv.fits,
    hv.tight, fun i hi => nomatch hi⟩

/-- A value written changes no pointer. -/
theorem reach_setLeaf {c : Fin bpWidth → T} (hu : (h.cell a).u = .leaves c) (s : Fin bpWidth)
    (x : T) (id : Id) :
    Reach (h.write a ⟨.leaves (Function.update c s x), id⟩) r b ↔ Reach h r b := by
  refine reach_congr fun d _ c' => ?_
  by_cases hda : d = a
  · subst hda
    rw [Store.write_cell_self, hu]
    exact ⟨fun h => (nomatch h), fun h => (nomatch h)⟩
  · rw [Store.write_cell_ne hda]

end Contentious
