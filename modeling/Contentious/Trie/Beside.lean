import Mathlib.Algebra.Order.Ring.Int
import Mathlib.Logic.Relation
import Contentious.Trie.Frame
import Contentious.Trie.Position

/-!
# Trie — two vectors in one heap

`assign` reads one vector and writes another, and the two may share nodes.
Each of them stands somewhere in the heap; that they stand there together
is not assumed, but follows: nodes that pointers connect have one way to
be placed, up to a shift, and the two roots at the top leave no room for
one (`Represents.together`). The vector that is read is out of reach of
the writer as long as no node of it carries the writer's id (`Foreign`).
Over both, `Beside` is what the copies of a range start from and leave.
-/

namespace Contentious

open BpVector

variable [K : BpBits] {T : Type}
variable {h h' h'' : Heap T} {Ψ Ψ₁ Ψ₂ Ψ' : Addr → Place} {a b r : Addr} {i k n p : ℕ} {x : T}
variable {cp : Id → Bool} {id : Id} {v w o : BpVector} {L M : List T} {it : BpIterator}

/-! ## One placing for both -/

/-- The nodes that pointers connect, either way. -/
def Linked (h : Heap T) : Addr → Addr → Prop :=
  Relation.EqvGen fun a b => a < h.next ∧ ∃ s, child h a s = .ok b

/-- How far the second placing is from the first at a node: in levels, and
in positions, measured in elements. -/
def shift (Ψ₁ Ψ₂ : Addr → Place) (a : Addr) : ℤ × ℤ :=
  ((Ψ₂ a).level - (Ψ₁ a).level, ((Ψ₂ a).pos - (Ψ₁ a).pos) * (bpWidth : ℤ) ^ (Ψ₁ a).level)

/-- **Two placings differ by one shift** over what is linked. -/
theorem shift_eq (hP₁ : Placed h Ψ₁) (hP₂ : Placed h Ψ₂) (hl : Linked h a b) :
    shift Ψ₁ Ψ₂ a = shift Ψ₁ Ψ₂ b := by
  induction hl with
  | rel a b hab =>
    obtain ⟨ha, s, hc⟩ := hab
    obtain ⟨c, hu, hk⟩ := child_eq_ok.1 hc
    have h1 := hP₁.branches a ha c hu
    have h2 := hP₂.branches a ha c hu
    obtain ⟨m, hm⟩ := Nat.exists_eq_succ_of_ne_zero h1.ne'
    rw [shift, shift, (hP₁.child a ha c hu s b hk).2, (hP₂.child a ha c hu s b hk).2, hm]
    dsimp only
    refine Prod.ext ?_ ?_
    · dsimp only
      omega
    · dsimp only
      rw [Nat.succ_sub_one, pow_succ]
      push_cast
      ring
  | refl a => rfl
  | symm a b _ ih => exact ih.symm
  | trans a b c _ _ ih₁ ih₂ => exact ih₁.trans ih₂

theorem linked_of_walk (hP : Placed h Ψ) (ha : a < h.next) (hw : walk h i k n a = .ok b) :
    Linked h a b ∧ b < h.next := by
  induction k generalizing n a with
  | zero => cases hw; exact ⟨.refl _, ha⟩
  | succ k ih =>
    obtain ⟨c, hc, hw⟩ := Exec.bind_eq_ok.1 hw
    obtain ⟨f, hu, hk⟩ := child_eq_ok.1 hc
    obtain ⟨hl, hb⟩ := ih (hP.child a ha f hu _ c hk).1 hw
    exact ⟨.trans _ _ _ (.rel _ _ ⟨ha, _, hc⟩) hl, hb⟩

/-- A vector that has elements has the leaves at level zero. -/
theorem Holds.shift_level (hv : Holds h Ψ₁ v L) (hne : L ≠ []) (hP₁ : Placed h Ψ₁)
    (hP₂ : Placed h Ψ₂) : (shift Ψ₁ Ψ₂ v.root).1 = 0 := by
  have h0 : 0 < L.length := List.length_pos_iff.2 hne
  obtain ⟨b, hw, hb⟩ := exists_walk_of_readAt le_rfl (hv.read 0 h0)
  rw [Nat.sub_self] at hb
  obtain ⟨l, hu, -⟩ := leaf_eq_ok.1 hb
  obtain ⟨hl, hblt⟩ := linked_of_walk hP₁ hv.root_lt hw
  rw [shift_eq hP₁ hP₂ hl, shift, hP₁.leaves b hblt l hu, hP₂.leaves b hblt l hu]
  rfl

/-- **Vectors that are linked have one placing**, with both roots on top. -/
theorem Holds.root_place_of_linked (hv : Holds h Ψ₁ v L) (hw : Holds h Ψ₂ w M) (hne : L ≠ [])
    (hP₁ : Placed h Ψ₁) (hP₂ : Placed h Ψ₂) (hl : Linked h w.root v.root) :
    Ψ₂ v.root = ⟨v.levels, 0⟩ := by
  have hlev := hv.shift_level hne hP₁ hP₂
  have heq := shift_eq hP₁ hP₂ hl
  have hpos := congrArg Prod.snd heq
  have hWpos : (0 : ℤ) < bpWidth := by exact_mod_cast bpWidth_pos
  simp only [shift, hv.root_place, hw.root_place] at hlev hpos
  -- one root is not left of the top, and the other is not right of it
  have h1 : (0 : ℤ) ≤ (Ψ₂ v.root).pos * (bpWidth : ℤ) ^ v.levels :=
    mul_nonneg (Int.natCast_nonneg _) (pow_nonneg hWpos.le _)
  have h2 : (0 : ℤ) ≤ (Ψ₁ w.root).pos * (bpWidth : ℤ) ^ (Ψ₁ w.root).level :=
    mul_nonneg (Int.natCast_nonneg _) (pow_nonneg hWpos.le _)
  have h3 : ((Ψ₂ v.root).pos : ℤ) * (bpWidth : ℤ) ^ v.levels = 0 := by
    rw [Nat.cast_zero, zero_sub, sub_zero, Int.neg_mul] at hpos
    omega
  have h4 : (Ψ₂ v.root).pos = 0 := by
    rcases mul_eq_zero.1 h3 with h | h
    · exact_mod_cast h
    · exact absurd h (pow_ne_zero _ hWpos.ne')
  have h5 : (Ψ₂ v.root).level = v.levels := by omega
  exact congrArg₂ Place.mk h5 h4

/-- **Another vector is placed beside those that are placed**: what it is
linked to is placed as it is. -/
theorem Represents.joins {V : Set BpVector} (hw : Represents h w M) (hP₁ : Placed h Ψ₁)
    (hV : ∀ v ∈ V, ∃ L, L ≠ [] ∧ Holds h Ψ₁ v L) :
    ∃ Ψ, Placed h Ψ ∧ (∀ v ∈ V, Ψ v.root = ⟨v.levels, 0⟩) ∧ Holds h Ψ w M := by
  classical
  obtain ⟨Ψ₂, hP₂, hw⟩ := hw
  let Ψ : Addr → Place := fun a => if Linked h w.root a then Ψ₂ a else Ψ₁ a
  have hlink : ∀ a < h.next, ∀ s b, Contentious.child h a s = .ok b →
      (Linked h w.root b ↔ Linked h w.root a) := fun a ha s b hc =>
    ⟨fun hb => .trans _ _ _ hb (.symm _ _ (.rel _ _ ⟨ha, s, hc⟩)),
      fun hb => .trans _ _ _ hb (.rel _ _ ⟨ha, s, hc⟩)⟩
  have hP : Placed h Ψ := by
    refine placed_of_fits fun a ha => ?_
    by_cases hla : Linked h w.root a
    · have hf := hP₂.fits ha
      rw [show Ψ a = Ψ₂ a from if_pos hla]
      simp only [Fits] at hf ⊢
      cases hu : (h.cell a).u with
      | leaves c => rw [hu] at hf; exact hf
      | branches c =>
        rw [hu] at hf
        refine ⟨hf.1, fun s b hs => ⟨(hf.2 s b hs).1, ?_⟩⟩
        rw [show Ψ b = Ψ₂ b from if_pos ((hlink a ha s b (child_of hu hs)).2 hla)]
        exact (hf.2 s b hs).2
    · have hf := hP₁.fits ha
      rw [show Ψ a = Ψ₁ a from if_neg hla]
      simp only [Fits] at hf ⊢
      cases hu : (h.cell a).u with
      | leaves c => rw [hu] at hf; exact hf
      | branches c =>
        rw [hu] at hf
        refine ⟨hf.1, fun s b hs => ⟨(hf.2 s b hs).1, ?_⟩⟩
        rw [show Ψ b = Ψ₁ b from if_neg fun hb => hla ((hlink a ha s b (child_of hu hs)).1 hb)]
        exact (hf.2 s b hs).2
  refine ⟨Ψ, hP, fun v hv => ?_, { hw with root_place := ?_ }⟩
  · obtain ⟨L, hne, hL⟩ := hV v hv
    by_cases hl : Linked h w.root v.root
    · rw [show Ψ v.root = Ψ₂ v.root from if_pos hl]
      exact hL.root_place_of_linked hw hne hP₁ hP₂ hl
    · rw [show Ψ v.root = Ψ₁ v.root from if_neg hl]
      exact hL.root_place
  · rw [show Ψ w.root = Ψ₂ w.root from if_pos (.refl _)]
    exact hw.root_place

/-- **Two vectors in one heap are placed together.** -/
theorem Represents.together (hv : Represents h v L) (hw : Represents h w M) (hne : L ≠ []) :
    ∃ Ψ, Placed h Ψ ∧ Holds h Ψ v L ∧ Holds h Ψ w M := by
  obtain ⟨Ψ₁, hP₁, hv⟩ := hv
  obtain ⟨Ψ, hP, hroot, hw⟩ := hw.joins (V := {v}) hP₁ fun u hu => by
    rw [Set.mem_singleton_iff.1 hu]
    exact ⟨L, hne, hv⟩
  exact ⟨Ψ, hP, { hv with root_place := hroot v rfl }, hw⟩

/-! ## Out of the writer's reach -/

/-- No node that is reached from `r` carries the id. -/
def Foreign (h : Heap T) (r : Addr) (id : Id) : Prop := ∀ a, Reach h r a → (h.cell a).id ≠ id

namespace Foreign

/-- What is written under the id is none of it, -/
theorem cell_eq {N : Id → Prop} {S : Addr → Prop} (hf : Foreign h r id) (hP : Placed h Ψ)
    (hr : r < h.next) (e : Edits h.next (nodeCopy .tr id) N S h h') (hd : Reach h r a) :
    h'.cell a = h.cell a := by
  have hlt := hP.reach_lt hr hd
  exact e.cell_eq hlt hlt (by simpa [nodeCopy] using (hf a hd).symm)

/-- so it stays as it is. -/
theorem of_cells (hf : Foreign h r id) (hcell : ∀ d, Reach h r d → h'.cell d = h.cell d) :
    Foreign h' r id := by
  intro a ha
  have ha' : Reach h r a := (reach_congr fun d hd c => by rw [hcell d hd]).1 ha
  rw [hcell a ha']
  exact hf a ha'

end Foreign

namespace BpIterator.At

/-- A reader keeps its position where the nodes it reaches are left alone. -/
theorem of_reach (hit : it.At copyNone h o p)
    (hcell : ∀ d, Reach h o.root d → h'.cell d = h.cell d) : it.At copyNone h' o p :=
  { hit with
    root_owned := rfl
    path := settled_of_walk (walk_of_path hit.path.walk fun m _ c hc => by
      rw [hcell c (Reach.root.walk hc)]) }

end BpIterator.At

/-- The end of a path that is owned is owned. -/
theorem Settled.owned (hs : Settled cp h i k n a b) (ha : cp (h.cell a).id = false) :
    cp (h.cell b).id = false := by
  induction k generalizing n a with
  | zero => rw [show b = a from hs.symm]; exact ha
  | succ k ih =>
    obtain ⟨c, -, hcp, hs⟩ := hs
    exact ih hs hcp

/-- A writer's iterator points at nodes it may write, among those that the
vector reaches. -/
theorem BpIterator.At.held {S : Addr → Prop} (hit : it.At (nodeCopy .tr v.id) h v p)
    (hP : Placed h Ψ) (hv : Holds h Ψ v L) (hS : ∀ a, Reach h v.root a → S a) :
    Held h.next (nodeCopy .tr v.id) S h it := by
  refine ⟨⟨?_, ?_, .inr ?_⟩, ⟨hS _ (Reach.root.walk hit.path.walk), (hit.leaf_place hP hv).1,
    .inr (hit.path.owned hit.root_owned)⟩⟩
  · rw [hit.root_eq]
    exact hS _ .root
  · rw [hit.root_eq]
    exact hv.root_lt
  · rw [hit.root_eq]
    exact hit.root_owned

/-! ## The pair -/

/-- **A vector to write and one to read**, of one shape and in one heap:
no node of the one that is read carries the other's id. -/
structure Beside (h : Heap T) (Ψ : Addr → Place) (v : BpVector) (L : List T) (o : BpVector)
    (M : List T) : Prop where
  placed : Placed h Ψ
  target : Holds h Ψ v L
  source : Holds h Ψ o M
  levels_eq : o.levels = v.levels
  sz_eq : o.sz = v.sz
  foreign : Foreign h o.root v.id

/-- Vectors of one shape that are not empty stand beside one another. -/
theorem Represents.beside (hv : Represents h v L) (ho : Represents h o M) (hsz : o.sz = v.sz)
    (hlevels : o.levels = v.levels) (hforeign : Foreign h o.root v.id) (h0 : 0 < v.sz) :
    ∃ Ψ, Beside h Ψ v L o M := by
  have hne : L ≠ [] := by
    rintro rfl
    obtain ⟨Ψ, -, hv⟩ := hv
    have := hv.size
    simp only [List.length_nil] at this
    omega
  obtain ⟨Ψ, hP, hv, ho⟩ := hv.together ho hne
  exact ⟨Ψ, hP, hv, ho, hlevels, hsz, hforeign⟩

namespace Beside

variable {N : List T} {r' : Addr}

theorem length_eq (hB : Beside h Ψ v L o M) : M.length = L.length := by
  rw [← hB.source.size, ← hB.target.size, hB.sz_eq]

/-- **What leaves the reader's nodes alone leaves the pair**, with what is
written by then. -/
theorem rewritten (hB : Beside h Ψ v L o M) (hn : h.next ≤ h'.next)
    (hΨ : ∀ d < h.next, Ψ' d = Ψ d) (hP' : Placed h' Ψ')
    (hcell : ∀ d, Reach h o.root d → h'.cell d = h.cell d)
    (hv' : Holds h' Ψ' { v with root := r' } N) :
    Beside h' Ψ' { v with root := r' } N o M where
  placed := hP'
  target := hv'
  source := hB.source.of_reach hn hΨ fun d hd => by rw [hcell d hd]
  levels_eq := hB.levels_eq
  sz_eq := hB.sz_eq
  foreign := hB.foreign.of_cells hcell

/-- Walks of the writer are such. -/
theorem moved {S : Addr → Prop} {Q : Id → Prop} (hB : Beside h Ψ v L o M) (e : Ext h Ψ h' Ψ')
    (he : Edits h.next (nodeCopy .tr v.id) Q S h h') (hv' : Holds h' Ψ' { v with root := r' } L) :
    Beside h' Ψ' { v with root := r' } L o M :=
  hB.rewritten e.next_le e.place e.placed
    (fun _ hd => hB.foreign.cell_eq hB.placed hB.source.root_lt he hd) hv'

end Beside

end Contentious
