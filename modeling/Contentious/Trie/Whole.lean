import Contentious.Trie.Beside

/-!
# Trie — what every write keeps of the shape

Where a vector is written, and another is read that may share any of its
nodes, what the values are afterwards is hard to say. That the vector is
still a trie with all its nodes is not: a write that goes through moves
child pointers only between nodes of one place, to a copy or to the child
of another trie, and neither leaves a place empty that was filled. So the
shape is kept by `mut_set`, by the iterators and by `assign` from whatever
vector, as long as they do not fault (`Whole.setWith`, `Whole.begin`,
`Whole.next`, `Whole.add`, `Whole.assign`).
-/

namespace Contentious

open BpVector

variable [K : BpBits] {T : Type}
variable {h h' h'' : Heap T} {Ψ Ψ' Ψ'' : Addr → Place} {a b r src dst : Addr} {q : Place}
variable {base depth hi i j k left lo m n rounds : ℕ} {x : T} {s : Fin bpWidth}
variable {cp : Id → Bool} {id : Id} {S : Addr → Prop} {v v' o : BpVector} {L M : List T}
variable {it it' : BpIterator}

/-- The place of the child at `s`. -/
def Place.child (q : Place) (s : Fin bpWidth) : Place := ⟨q.level - 1, q.pos * bpWidth + s⟩

/-- There are indices below `n` under the child at `s`. -/
def Place.Covers (q : Place) (n : ℕ) (s : Fin bpWidth) : Prop :=
  (q.pos * bpWidth + s) * bpWidth ^ q.level < n

/-- **The nodes of `S` are whole**, for vectors of `n` elements: they stand
in their places, and no child is null that has elements under it. -/
structure Whole (base : ℕ) (S : Addr → Prop) (n : ℕ) (h : Heap T) (Ψ : Addr → Place) : Prop where
  scope : Scope base S h
  placed : Placed h Ψ
  filled : ∀ a < h.next, S a → ∀ c, (h.cell a).u = .branches c → ∀ s, (Ψ a).Covers n s →
    ∃ b, c s = some b

/-- What a write has done that keeps the nodes whole. -/
structure Reshaped (base : ℕ) (S : Addr → Prop) (n : ℕ) (h : Heap T) (Ψ : Addr → Place)
    (h' : Heap T) (Ψ' : Addr → Place) : Prop where
  next_le : h.next ≤ h'.next
  place : ∀ a < h.next, Ψ' a = Ψ a
  id_eq : ∀ a < h.next, (h'.cell a).id = (h.cell a).id
  whole : Whole base S n h' Ψ'

namespace Reshaped

theorem refl (hw : Whole base S n h Ψ) : Reshaped base S n h Ψ h Ψ :=
  ⟨le_rfl, fun _ _ => rfl, fun _ _ => rfl, hw⟩

theorem trans (e₁ : Reshaped base S n h Ψ h' Ψ') (e₂ : Reshaped base S n h' Ψ' h'' Ψ'') :
    Reshaped base S n h Ψ h'' Ψ'' where
  next_le := le_trans e₁.next_le e₂.next_le
  place a ha := by rw [e₂.place a (lt_of_lt_of_le ha e₁.next_le), e₁.place a ha]
  id_eq a ha := by rw [e₂.id_eq a (lt_of_lt_of_le ha e₁.next_le), e₁.id_eq a ha]
  whole := e₂.whole

end Reshaped

/-- **A node that is reached is reached by a walk**, along any path that
passes its place. -/
theorem Placed.walk_of_reach (hP : Placed h Ψ) (hr : r < h.next) (ha : Reach h r a)
    (hΨr : Ψ r = onPath i n) (hΨ : Ψ a = onPath i m) : m ≤ n ∧ walk h i (n - m) n r = .ok a := by
  induction ha generalizing m with
  | root =>
    obtain rfl : n = m := congrArg Place.level (hΨr.symm.trans hΨ)
    rw [Nat.sub_self]
    exact ⟨le_rfl, rfl⟩
  | @child b a c k hb hu hk ih =>
    have hblt := hP.reach_lt hr hb
    have hlev := hP.branches b hblt c hu
    have hΨa := (hP.child b hblt c hu k a hk).2
    rw [hΨ] at hΨa
    have h1 : m = (Ψ b).level - 1 := congrArg Place.level hΨa
    have h2 : Radix.pos bpWidth i m = (Ψ b).pos * bpWidth + k := congrArg Place.pos hΨa
    have hpos : Radix.pos bpWidth i (m + 1) = (Ψ b).pos := by
      rw [Radix.pos_succ, h2, Nat.mul_comm, Nat.mul_add_div bpWidth_pos,
        Nat.div_eq_of_lt k.isLt, Nat.add_zero]
    have hdig : Radix.digit bpWidth i (m + 1) = k := by
      rw [Radix.digit, ← Radix.pos, h2, Nat.mul_comm, Nat.mul_add_mod, Nat.mod_eq_of_lt k.isLt]
    have hΨb : Ψ b = onPath i (m + 1) := by
      rw [onPath, hpos, show m + 1 = (Ψ b).level by omega]
    obtain ⟨hmn, hw⟩ := ih hΨb
    refine ⟨by omega, ?_⟩
    rw [show n - m = n - (m + 1) + 1 by omega, walk_append, hw, Exec.ok_bind,
      show n - (n - (m + 1)) = m + 1 by omega, walk]
    have hs : slot i ((m + 1) * bpBits) = k := Fin.ext (by rw [slot_val, hdig])
    rw [hs, child_of hu hk]
    rfl

/-- What a vector reaches is whole. -/
theorem Holds.filled {c : Fin bpWidth → Option Addr} (hP : Placed h Ψ) (hv : Holds h Ψ v L)
    (ha : Reach h v.root a) (hu : (h.cell a).u = .branches c) (hcov : (Ψ a).Covers L.length s) :
    ∃ b, c s = some b := by
  have halt := hP.reach_lt hv.root_lt ha
  obtain ⟨l, hl⟩ := Nat.exists_eq_succ_of_ne_zero (hP.branches a halt c hu).ne'
  rw [Place.Covers, hl] at hcov
  obtain ⟨i, hi⟩ : ∃ i, i = ((Ψ a).pos * bpWidth + s) * bpWidth ^ l.succ := ⟨_, rfl⟩
  rw [← hi] at hcov
  have hdiv : i / bpWidth ^ l.succ = (Ψ a).pos * bpWidth + s := by
    rw [hi, Nat.mul_div_cancel _ (Nat.pow_pos bpWidth_pos)]
  have hΨ : Ψ a = onPath i l.succ := by
    have hpos : Radix.pos bpWidth i l.succ = (Ψ a).pos := by
      rw [Radix.pos_succ, Radix.pos, hdiv, Nat.mul_comm, Nat.mul_add_div bpWidth_pos,
        Nat.div_eq_of_lt s.isLt, Nat.add_zero]
    rw [onPath, hpos, ← hl]
  have hs : slot i (l.succ * bpBits) = s := by
    apply Fin.ext
    rw [slot_val, Radix.digit, hdiv, Nat.mul_comm, Nat.mul_add_mod, Nat.mod_eq_of_lt s.isLt]
  have hΨr : Ψ v.root = onPath i v.levels := hv.root_onPath (lt_of_lt_of_le hcov hv.fits)
  obtain ⟨hle, hw⟩ := hP.walk_of_reach hv.root_lt ha hΨr hΨ
  have hread := hv.read i hcov
  rw [readAt_of_walk (Nat.sub_le _ _) hw, show v.levels - (v.levels - l.succ) = l + 1 by omega]
    at hread
  obtain ⟨b, hb, -⟩ := readAt_succ.1 hread
  rw [hs] at hb
  obtain ⟨c', hu', hk⟩ := child_eq_ok.1 hb
  rw [hu] at hu'
  cases hu'
  exact ⟨b, hk⟩

/-- **Vectors of one size that stand in the heap are whole.** -/
theorem Placed.whole {V : Set BpVector} (hP : Placed h Ψ)
    (hV : ∀ v ∈ V, v.sz = n ∧ ∃ L, Holds h Ψ v L) :
    Whole h.next (fun a => (∃ v ∈ V, Reach h v.root a) ∨ h.next ≤ a) n h Ψ where
  scope :=
    { base_le := le_rfl
      new := fun _ ha => .inr ha
      closed := fun a ha hSa c k b hu hk => by
        rcases hSa with ⟨v, hv, hr⟩ | hSa
        · exact ⟨.inl ⟨v, hv, hr.child hu hk⟩, (hP.child a ha c hu k b hk).1⟩
        · exact absurd ha (Nat.not_lt.2 hSa) }
  placed := hP
  filled a ha hSa c hu s hcov := by
    rcases hSa with ⟨v, hv, hr⟩ | hSa
    · obtain ⟨rfl, L, hL⟩ := hV v hv
      rw [hL.size] at hcov
      exact hL.filled hP hr hu hcov
    · exact absurd ha (Nat.not_lt.2 hSa)

namespace Whole

/-! ## Whole nodes and vectors -/

/-- **What is there is read.** -/
theorem readAt (hw : Whole base S n h Ψ) (ha : a < h.next) (hS : S a) (hΨ : Ψ a = onPath i m)
    (hi : i < n) : ∃ y, readAt h i m a = .ok y := by
  induction m generalizing a with
  | zero =>
    cases hu : (h.cell a).u with
    | leaves l => exact ⟨_, leaf_eq_ok.2 ⟨l, hu, rfl⟩⟩
    | branches c =>
      have := hw.placed.branches a ha c hu
      rw [hΨ] at this
      exact absurd this (lt_irrefl _)
  | succ m ih =>
    cases hu : (h.cell a).u with
    | leaves l =>
      have := hw.placed.leaves a ha l hu
      rw [hΨ] at this
      exact absurd this (Nat.succ_ne_zero m)
    | branches c =>
      have hcov : (Ψ a).Covers n (slot i ((m + 1) * bpBits)) := by
        rw [hΨ, Place.Covers, slot_val]
        dsimp only [onPath]
        rw [← Radix.pos_eq]
        exact lt_of_le_of_lt (Nat.div_mul_le_self i _) hi
      obtain ⟨b, hb⟩ := hw.filled a ha hS c hu _ hcov
      have hc := child_of hu hb
      obtain ⟨-, hlt, hΨb⟩ := hw.placed.child_place ha hΨ hc
      obtain ⟨y, hy⟩ := ih hlt (hw.scope.closed a ha hS c _ b hu hb).1 hΨb
      exact ⟨y, readAt_succ.2 ⟨b, hc, hy⟩⟩

/-- **A vector of whole nodes denotes a list.** -/
theorem holds (hw : Whole base S v.sz h Ψ) (hr : v.root < h.next) (hS : S v.root)
    (hΨ : Ψ v.root = ⟨v.levels, 0⟩) (hfits : v.sz ≤ bpWidth ^ (v.levels + 1))
    (htight : v.levels = 0 ∨ 0 < v.sz ∧ (v.levels = 1 ∨ bpWidth ^ v.levels < v.sz)) :
    ∃ L, Holds h Ψ v L := by
  have hread : ∀ i : Fin v.sz, ∃ y, Contentious.readAt h i v.levels v.root = .ok y := fun i => by
    refine hw.readAt hr hS ?_ i.isLt
    rw [hΨ, onPath, Radix.pos_eq_zero (lt_of_lt_of_le i.isLt hfits)]
  choose y hy using hread
  refine ⟨List.ofFn y, hr, hΨ, List.length_ofFn.symm, ?_, ?_, fun i hi => ?_⟩
  · rw [List.length_ofFn]
    exact hfits
  · rw [List.length_ofFn]
    exact htight
  · rw [List.getElem_ofFn]
    exact hy ⟨i, by simpa using hi⟩

/-! ## The primitive writes -/

/-- A copy takes the place of its original. -/
theorem copyNode (hw : Whole base S n h Ψ) (ha : a < h.next) (hS : S a) (id : Id) :
    Reshaped base S n h Ψ (copyNode h a id).1 (placeAt Ψ h.next (Ψ a)) := by
  have e : Ext h Ψ (Contentious.copyNode h a id).1 (placeAt Ψ h.next (Ψ a)) :=
    Ext.alloc hw.placed (hw.placed.fits ha)
  have hed : Edits base (fun _ => false) (fun _ => True) S h (Contentious.copyNode h a id).1 :=
    (hw.scope.copyNode hS ha trivial).edits
  refine ⟨e.next_le, e.place, fun d hd => hed.id_eq hd, hw.scope.edits hed, e.placed, ?_⟩
  intro d hd hSd c hu t hcov
  by_cases hda : d = h.next
  · subst hda
    rw [placeAt_self] at hcov
    rw [Contentious.copyNode, Store.alloc_cell_new] at hu
    exact hw.filled a ha hS c hu t hcov
  · have hlt : d < h.next := Nat.lt_of_le_of_ne (Nat.le_of_lt_succ hd) hda
    rw [placeAt_old hda] at hcov
    rw [Contentious.copyNode, Store.alloc_cell_old hlt] at hu
    exact hw.filled d hlt hSd c hu t hcov

/-- A pointer is set to what stands at the child's place, or to null where
there is nothing under it. -/
theorem setChild {p : Option Addr} (hw : Whole base S n h Ψ) (ha : a < h.next) (hS : S a)
    (hp : ∀ b, p = some b → S b ∧ b < h.next ∧ Ψ b = (Ψ a).child s)
    (hfill : (Ψ a).Covers n s → ∃ b, p = some b) (he : setChild h a s p = .ok h') :
    Reshaped base S n h Ψ h' Ψ := by
  have hed : Edits base (fun _ => false) (fun _ => True) S h h' :=
    .setChild .refl (.inr rfl) hS (fun b hb => ⟨(hp b hb).1, (hp b hb).2.1⟩) he
  obtain ⟨c, hu, rfl⟩ := setChild_eq_ok he
  refine ⟨le_rfl, fun _ _ => rfl, fun d hd => hed.id_eq hd, hw.scope.edits hed, ?_, ?_⟩
  · refine placed_of_fits fun d hd => ?_
    by_cases hda : d = a
    · subst hda
      rw [Store.write_cell_self]
      refine ⟨hw.placed.branches d ha c hu, fun t b hb => ?_⟩
      by_cases hts : t = s
      · subst hts
        rw [Function.update_self] at hb
        exact (hp b hb).2
      · rw [Function.update_of_ne hts] at hb
        exact hw.placed.child d ha c hu t b hb
    · rw [Store.write_cell_ne hda]
      exact (hw.placed.fits hd).mono le_rfl fun _ _ => rfl
  · intro d hd hSd c' hu' t hcov
    by_cases hda : d = a
    · subst hda
      rw [Store.write_cell_self] at hu'
      cases hu'
      by_cases hts : t = s
      · subst hts
        rw [Function.update_self]
        exact hfill hcov
      · rw [Function.update_of_ne hts]
        exact hw.filled d ha hSd c hu t hcov
    · rw [Store.write_cell_ne hda] at hu'
      exact hw.filled d hd hSd c' hu' t hcov

/-- A value is no part of the shape. -/
theorem setLeaf (hw : Whole base S n h Ψ) (he : setLeaf h a s x = .ok h') :
    Reshaped base S n h Ψ h' Ψ := by
  obtain ⟨hn, hid, hcell⟩ := setLeaf_cell he
  obtain ⟨c, hu, rfl⟩ := setLeaf_eq_ok he
  refine ⟨le_rfl, fun _ _ => rfl, fun d _ => ?_, ⟨hw.scope.base_le, hw.scope.new, ?_⟩,
    hw.placed.setLeaf hu s x, ?_⟩
  · by_cases hda : d = a
    · rw [hda, hid]
    · rw [hcell d hda]
  · intro d hd hSd c' t b hu' hb
    by_cases hda : d = a
    · subst hda
      rw [Store.write_cell_self] at hu'
      exact nomatch hu'
    · rw [Store.write_cell_ne hda] at hu'
      exact hw.scope.closed d hd hSd c' t b hu' hb
  · intro d hd hSd c' hu' t hcov
    by_cases hda : d = a
    · subst hda
      rw [Store.write_cell_self] at hu'
      exact nomatch hu'
    · rw [Store.write_cell_ne hda] at hu'
      exact hw.filled d hd hSd c' hu' t hcov

/-! ## The descents -/

theorem ownRoot (cp : Id → Bool) (id : Id) (hw : Whole base S n h Ψ) (hr : r < h.next)
    (hS : S r) :
    ∃ Ψ', Reshaped base S n h Ψ (ownRoot cp id h r).1 Ψ' ∧
      (ownRoot cp id h r).2 < (ownRoot cp id h r).1.next ∧ S (ownRoot cp id h r).2 ∧
      Ψ' (ownRoot cp id h r).2 = Ψ r := by
  rw [BpVector.ownRoot]
  split
  · exact ⟨_, hw.copyNode hr hS id, Nat.lt_succ_self _, hw.scope.new _ hw.scope.base_le,
      placeAt_self ..⟩
  · exact ⟨Ψ, .refl hw, hr, hS, rfl⟩

theorem ownChild (hw : Whole base S n h Ψ) (ha : a < h.next) (hS : S a)
    (he : ownChild cp id h a s = .ok (h', b)) :
    ∃ Ψ', Reshaped base S n h Ψ h' Ψ' ∧ b < h'.next ∧ S b ∧ Ψ' b = (Ψ a).child s := by
  obtain ⟨d, hd, he⟩ := Exec.bind_eq_ok.1 he
  obtain ⟨c, hu, hk⟩ := child_eq_ok.1 hd
  obtain ⟨hSd, hdlt⟩ := hw.scope.closed a ha hS c s d hu hk
  have hΨd : Ψ d = (Ψ a).child s := (hw.placed.child a ha c hu s d hk).2
  split at he
  · obtain ⟨h₁, h₁s, he⟩ := Exec.bind_eq_ok.1 he
    cases he
    have e₁ := hw.copyNode hdlt hSd id
    have hnew : placeAt Ψ h.next (Ψ d) h.next = (Ψ a).child s := by rw [placeAt_self, hΨd]
    have hΨa := e₁.place a ha
    have e₂ := e₁.whole.setChild (lt_of_lt_of_le ha e₁.next_le) hS
      (fun b hb => by
        cases hb
        exact ⟨hw.scope.new _ hw.scope.base_le, Nat.lt_succ_self _, by rw [hΨa]; exact hnew⟩)
      (fun _ => ⟨_, rfl⟩) h₁s
    refine ⟨_, e₁.trans e₂, ?_, hw.scope.new _ hw.scope.base_le, hnew⟩
    rw [(setChild_cell h₁s).1]
    exact Nat.lt_succ_self _
  · cases he
    exact ⟨Ψ, .refl hw, hdlt, hSd, hΨd⟩

theorem descend (hw : Whole base S n h Ψ) (ha : a < h.next) (hS : S a)
    (he : descend cp id i k m h a = .ok (h', b)) :
    ∃ Ψ', Reshaped base S n h Ψ h' Ψ' ∧ b < h'.next ∧ S b := by
  induction k generalizing m h Ψ a with
  | zero => cases he; exact ⟨Ψ, .refl hw, ha, hS⟩
  | succ k ih =>
    obtain ⟨⟨h₁, d⟩, hd, he⟩ := Exec.bind_eq_ok.1 he
    obtain ⟨Ψ₁, e₁, hdlt, hSd, -⟩ := hw.ownChild ha hS hd
    obtain ⟨Ψ₂, e₂, hb, hSb⟩ := ih e₁.whole hdlt hSd he
    exact ⟨Ψ₂, e₁.trans e₂, hb, hSb⟩

/-- The place that the loop of `get_branch` comes to from the place `q`. -/
def branchPlace (i : ℕ) : ℕ → ℕ → Place → Place
  | 0, _, q => q
  | n + 1, depth, q =>
    let depth := (depth + 255) % 256
    if depth = 0 then q else branchPlace i n depth (q.child (slot i ((n + 1) * bpBits)))

theorem branchFrom (hw : Whole base S n h Ψ) (ha : a < h.next) (hS : S a)
    (he : branchFrom cp id i m depth h a = .ok (h', b, left)) :
    ∃ Ψ', Reshaped base S n h Ψ h' Ψ' ∧ b < h'.next ∧ S b ∧
      Ψ' b = branchPlace i m depth (Ψ a) := by
  induction m generalizing depth h Ψ a with
  | zero => cases he; exact ⟨Ψ, .refl hw, ha, hS, rfl⟩
  | succ m ih =>
    rw [BpVector.branchFrom] at he
    rw [branchPlace]
    dsimp only at he ⊢
    split at he
    · next h0 =>
      cases he
      exact ⟨Ψ, .refl hw, ha, hS, by rw [if_pos h0]⟩
    · next h0 =>
      obtain ⟨⟨h₁, d⟩, hd, he⟩ := Exec.bind_eq_ok.1 he
      obtain ⟨Ψ₁, e₁, hdlt, hSd, hΨd⟩ := hw.ownChild ha hS hd
      obtain ⟨Ψ₂, e₂, hb, hSb, hΨb⟩ := ih e₁.whole hdlt hSd he
      exact ⟨Ψ₂, e₁.trans e₂, hb, hSb, by rw [if_neg h0, hΨb, hΨd]⟩

/-- Children are copied between nodes of one place. -/
theorem copyBranches (hw : Whole base S n h Ψ) (hd : dst < h.next) (hSd : S dst)
    (hs : src < h.next) (hSs : S src) (hΨ : Ψ src = Ψ dst)
    (he : copyBranches src dst m k h = .ok h') : Reshaped base S n h Ψ h' Ψ := by
  induction m generalizing k h with
  | zero => cases he; exact .refl hw
  | succ m ih =>
    rw [BpVector.copyBranches] at he
    split at he
    · next hk =>
      obtain ⟨c, hc, he⟩ := Exec.bind_eq_ok.1 he
      obtain ⟨h₁, hset, he⟩ := Exec.bind_eq_ok.1 he
      have hu := BpNode.of_asBranches hc
      have e := hw.setChild hd hSd
        (fun b hb => ⟨(hw.scope.closed src hs hSs c _ b hu hb).1, by
          rw [← hΨ]
          exact hw.placed.child src hs c hu _ b hb⟩)
        (fun hcov => hw.filled src hs hSs c hu _ (by rw [hΨ]; exact hcov)) hset
      exact e.trans (ih e.whole (lt_of_lt_of_le hd e.next_le) (lt_of_lt_of_le hs e.next_le) he)
    · cases he

end Whole

/-! ## A vector that is written -/

/-- What has been done to a vector that is written: its root stands on top,
and is the one it was if that was owned. -/
structure Remade (base : ℕ) (S : Addr → Prop) (n : ℕ) (h : Heap T) (Ψ : Addr → Place)
    (h' : Heap T) (Ψ' : Addr → Place) (v v' : BpVector) : Prop where
  shaped : Reshaped base S n h Ψ h' Ψ'
  root_lt : v'.root < h'.next
  root_mem : S v'.root
  root_place : Ψ' v'.root = Ψ v.root
  eq_root : v' = { v with root := v'.root }
  root_eq : nodeCopy .tr v.id (h.cell v.root).id = false → v'.root = v.root

namespace Remade

theorem refl (hw : Whole base S n h Ψ) (hr : v.root < h.next) (hS : S v.root) :
    Remade base S n h Ψ h Ψ v v := ⟨.refl hw, hr, hS, rfl, rfl, fun _ => rfl⟩

theorem trans {v'' : BpVector} (hlt : v.root < h.next) (e₁ : Remade base S n h Ψ h' Ψ' v v')
    (e₂ : Remade base S n h' Ψ' h'' Ψ'' v' v'') : Remade base S n h Ψ h'' Ψ'' v v'' where
  shaped := e₁.shaped.trans e₂.shaped
  root_lt := e₂.root_lt
  root_mem := e₂.root_mem
  root_place := e₂.root_place.trans e₁.root_place
  eq_root := by
    rw [e₂.eq_root, e₁.eq_root]
  root_eq hown := by
    have h₁ := e₁.root_eq hown
    rw [e₂.root_eq (by
      rw [e₁.eq_root]
      dsimp only
      rw [h₁, e₁.shaped.id_eq _ hlt]
      exact hown), h₁]

/-- Writes that leave the root. -/
theorem followed (e₁ : Remade base S n h Ψ h' Ψ' v v') (e₂ : Reshaped base S n h' Ψ' h'' Ψ'') :
    Remade base S n h Ψ h'' Ψ'' v v' :=
  { e₁ with
    shaped := e₁.shaped.trans e₂
    root_lt := lt_of_lt_of_le e₁.root_lt e₂.next_le
    root_place := (e₂.place _ e₁.root_lt).trans e₁.root_place }

end Remade

/-- What has been done to a vector whose root is copied whoever owns it:
the new one stands where the old one did. -/
structure Recast (base : ℕ) (S : Addr → Prop) (n : ℕ) (h : Heap T) (Ψ : Addr → Place)
    (h' : Heap T) (Ψ' : Addr → Place) (v v' : BpVector) : Prop where
  shaped : Reshaped base S n h Ψ h' Ψ'
  root_lt : v'.root < h'.next
  root_mem : S v'.root
  root_place : Ψ' v'.root = Ψ v.root
  eq_root : v' = { v with root := v'.root }

namespace Recast

theorem refl (hw : Whole base S n h Ψ) (hr : v.root < h.next) (hS : S v.root) :
    Recast base S n h Ψ h Ψ v v := ⟨.refl hw, hr, hS, rfl, rfl⟩

theorem trans {v'' : BpVector} (e₁ : Recast base S n h Ψ h' Ψ' v v')
    (e₂ : Recast base S n h' Ψ' h'' Ψ'' v' v'') : Recast base S n h Ψ h'' Ψ'' v v'' where
  shaped := e₁.shaped.trans e₂.shaped
  root_lt := e₂.root_lt
  root_mem := e₂.root_mem
  root_place := e₂.root_place.trans e₁.root_place
  eq_root := by
    rw [e₂.eq_root, e₁.eq_root]

/-- Writes that leave the root. -/
theorem followed (e₁ : Recast base S n h Ψ h' Ψ' v v') (e₂ : Reshaped base S n h' Ψ' h'' Ψ'') :
    Recast base S n h Ψ h'' Ψ'' v v' where
  shaped := e₁.shaped.trans e₂
  root_lt := lt_of_lt_of_le e₁.root_lt e₂.next_le
  root_mem := e₁.root_mem
  root_place := (e₂.place _ e₁.root_lt).trans e₁.root_place
  eq_root := e₁.eq_root

end Recast

namespace Whole

theorem owned (hw : Whole base S n h Ψ) (hr : v.root < h.next) (hS : S v.root) :
    ∃ Ψ', Remade base S n h Ψ (BpVector.ownRoot (nodeCopy .tr v.id) v.id h v.root).1 Ψ' v
      { v with root := (BpVector.ownRoot (nodeCopy .tr v.id) v.id h v.root).2 } := by
  obtain ⟨Ψ', e, hlt, hmem, hplace⟩ := hw.ownRoot (nodeCopy .tr v.id) v.id hr hS
  refine ⟨Ψ', e, hlt, hmem, hplace, rfl, fun hown => ?_⟩
  rw [BpVector.ownRoot, hown]
  rfl

/-- **`mut_set`** -/
theorem setWith (hw : Whole base S n h Ψ) (hr : v.root < h.next) (hS : S v.root)
    (he : BpVector.setWith (nodeCopy .tr v.id) h v i x = .ok (h', v')) :
    ∃ Ψ', Remade base S n h Ψ h' Ψ' v v' := by
  obtain ⟨Ψ₁, e₁⟩ := hw.owned hr hS
  obtain ⟨⟨h₂, a⟩, hd, he⟩ := Exec.bind_eq_ok.1 he
  obtain ⟨h₃, hl, he⟩ := Exec.bind_eq_ok.1 he
  cases he
  obtain ⟨Ψ₂, e₂, -, -⟩ := e₁.shaped.whole.descend e₁.root_lt e₁.root_mem hd
  exact ⟨Ψ₂, e₁.followed (e₂.trans (e₂.whole.setLeaf hl))⟩

/-! ## By an iterator -/

theorem seekWith {off : ℕ} (hw : Whole base S n h Ψ)
    (he : it.seekWith cp h off = .ok (h', it')) (hr : it.root < h.next) (hS : S it.root) :
    ∃ Ψ', Reshaped base S n h Ψ h' Ψ' ∧ it'.root = it.root ∧ it'.id = it.id := by
  obtain ⟨⟨h₁, node⟩, hd, he⟩ := Exec.bind_eq_ok.1 he
  obtain ⟨_, -, he⟩ := Exec.bind_eq_ok.1 he
  cases he
  obtain ⟨Ψ', e, -, -⟩ := hw.descend hr hS hd
  exact ⟨Ψ', e, rfl, rfl⟩

/-- **`begin()`**, whose iterator goes from the vector's root. -/
theorem begin (hw : Whole base S n h Ψ) (hr : v.root < h.next) (hS : S v.root)
    (he : begin h v = .ok (h', v', it)) :
    ∃ Ψ', Remade base S n h Ψ h' Ψ' v v' ∧ it.root = v'.root ∧ it.id = v.id := by
  obtain ⟨Ψ₁, e₁⟩ := hw.owned hr hS
  obtain ⟨⟨h₁, it₁⟩, hs, he⟩ := Exec.bind_eq_ok.1 he
  cases he
  obtain ⟨Ψ₂, e₂, hroot, hid⟩ := e₁.shaped.whole.seekWith hs e₁.root_lt e₁.root_mem
  exact ⟨Ψ₂, e₁.followed e₂, hroot, hid⟩

/-- **`++it`** -/
theorem next (hw : Whole base S n h Ψ) (hr : it.root < h.next) (hS : S it.root)
    (he : it.next h = .ok (h', it')) :
    ∃ Ψ', Reshaped base S n h Ψ h' Ψ' ∧ it'.root = it.root ∧ it'.id = it.id := by
  rw [BpIterator.next, BpIterator.nextWith] at he
  split at he
  · cases he
  · dsimp only at he
    split at he
    · cases he
      exact ⟨Ψ, .refl hw, rfl, rfl⟩
    · split at he
      · cases he
        exact ⟨Ψ, .refl hw, rfl, rfl⟩
      · obtain ⟨Ψ', e, hroot, hid⟩ := hw.seekWith he hr hS
        exact ⟨Ψ', e, hroot, hid⟩

/-- **`it + n`** -/
theorem add (hw : Whole base S n h Ψ) (hr : it.root < h.next) (hS : S it.root)
    (he : it.add h k = .ok (h', it')) :
    ∃ Ψ', Reshaped base S n h Ψ h' Ψ' ∧ it'.root = it.root ∧ it'.id = it.id := by
  rw [BpIterator.add, BpIterator.addWith] at he
  split at he
  · cases he
    exact ⟨Ψ, .refl hw, rfl, rfl⟩
  · split at he
    · split at he
      · cases he
        exact ⟨Ψ, .refl hw, rfl, rfl⟩
      · cases he
    · obtain ⟨⟨h₁, it₁⟩, hs, he⟩ := Exec.bind_eq_ok.1 he
      cases he
      obtain ⟨Ψ', e, hroot, hid⟩ := hw.seekWith hs hr hS
      exact ⟨Ψ', e, hroot, hid⟩

/-- **`*it = x`** -/
theorem store (hw : Whole base S n h Ψ) (he : it.store h x = .ok h') :
    Reshaped base S n h Ψ h' Ψ := by
  rw [BpIterator.store] at he
  split at he
  · exact hw.setLeaf he
  · cases he

/-! ## By `assign` -/

/-- The node that `get_branch` finds stands where its loop comes to. -/
theorem getBranchConst {d : ℕ} (hw : Whole base S n h Ψ) (hor : o.root < h.next) (hoS : S o.root)
    (he : getBranchConst h o d i = .ok a) :
    a < h.next ∧ S a ∧ Ψ a = branchPlace i o.levels d (Ψ o.root) := by
  obtain ⟨⟨h₁, v₁, b⟩, hb, he⟩ := Exec.bind_eq_ok.1 he
  cases he
  obtain ⟨⟨h₂, c, left⟩, hf, hb⟩ := Exec.bind_eq_ok.1 hb
  dsimp only at hb
  split at hb
  · obtain ⟨_, -, hb⟩ := Exec.bind_eq_ok.1 hb
    cases hb
    have hh := branchFrom_const hf
    rw [hh] at hf
    obtain ⟨Ψ₁, e, hlt, hmem, hplace⟩ := hw.branchFrom hor hoS hf
    rw [e.place _ hlt] at hplace
    exact ⟨hlt, hmem, hplace⟩
  · exact nomatch hb

/-- **`get_branch`** of a vector that is written, whatever it copies. -/
theorem branchWith {d : ℕ} (hw : Whole base S n h Ψ) (hr : v.root < h.next) (hS : S v.root)
    (he : branchWith cp h v d i = .ok (h', v', b)) :
    ∃ Ψ', Recast base S n h Ψ h' Ψ' v v' ∧ v'.root = (BpVector.ownRoot cp v.id h v.root).2 ∧
      b < h'.next ∧ S b ∧ Ψ' b = branchPlace i v.levels d (Ψ v.root) := by
  obtain ⟨Ψ₁, e₁, hlt₁, hmem₁, hplace₁⟩ := hw.ownRoot cp v.id hr hS
  obtain ⟨⟨h₂, c, left⟩, hf, he⟩ := Exec.bind_eq_ok.1 he
  obtain ⟨Ψ₂, e₂, hlt, hmem, hplace⟩ := e₁.whole.branchFrom hlt₁ hmem₁ hf
  rw [hplace₁] at hplace
  dsimp only at he
  split at he
  · obtain ⟨_, -, he⟩ := Exec.bind_eq_ok.1 he
    cases he
    exact ⟨Ψ₂, ⟨e₁.trans e₂, lt_of_lt_of_le hlt₁ e₂.next_le, hmem₁,
      (e₂.place _ hlt₁).trans hplace₁, rfl⟩, rfl, hlt, hmem, hplace⟩
  · exact nomatch he

/-- **A graft**, from a vector whose root stands where the other's does. -/
theorem graftOf {D : Der} {d : ℕ} (hw : Whole base S n h Ψ) (hr : v.root < h.next) (hS : S v.root)
    (hor : o.root < h.next) (hoS : S o.root) (hΨ : Ψ o.root = Ψ v.root) (hol : o.levels = v.levels)
    (he : graft D h v o d i j lo hi = .ok (h', v')) :
    ∃ Ψ', Recast base S n h Ψ h' Ψ' v v' ∧
      v'.root = (BpVector.ownRoot (nodeCopy D v.id) v.id h v.root).2 := by
  obtain ⟨first, hf, he⟩ := Exec.bind_eq_ok.1 he
  obtain ⟨last, -, he⟩ := Exec.bind_eq_ok.1 he
  obtain ⟨⟨h₁, v₁, result⟩, hb, he⟩ := Exec.bind_eq_ok.1 he
  obtain ⟨hfirst, hfS, hfΨ⟩ := hw.getBranchConst hor hoS hf
  rw [hΨ, hol] at hfΨ
  -- the node that is written stands there as well
  obtain ⟨Ψ₁, e, hroot, hlt, hmem, hplace⟩ := hw.branchWith hr hS hb
  dsimp only at he
  split at he
  · obtain ⟨h₂, hc, he⟩ := Exec.bind_eq_ok.1 he
    cases he
    have hcopy := e.shaped.whole.copyBranches hlt hmem (lt_of_lt_of_le hfirst e.shaped.next_le) hfS
      (by rw [e.shaped.place _ hfirst, hfΨ, hplace]) hc
    exact ⟨Ψ₁, e.followed hcopy, hroot⟩
  · exact nomatch he

/-- One that leaves a root that is owned. -/
theorem graft {d : ℕ} (hw : Whole base S n h Ψ) (hr : v.root < h.next) (hS : S v.root)
    (hor : o.root < h.next) (hoS : S o.root) (hΨ : Ψ o.root = Ψ v.root) (hol : o.levels = v.levels)
    (he : graft .tr h v o d i j lo hi = .ok (h', v')) : ∃ Ψ', Remade base S n h Ψ h' Ψ' v v' := by
  obtain ⟨Ψ', e, hroot⟩ := hw.graftOf hr hS hor hoS hΨ hol he
  refine ⟨Ψ', e.shaped, e.root_lt, e.root_mem, e.root_place, e.eq_root, fun hown => ?_⟩
  rw [hroot, BpVector.ownRoot, hown]
  rfl

/-- What the loop over values keeps: the iterator that writes goes from a
root that is there. -/
theorem copyLoop {s t : Copying T} {stop : Copying T → Bool} (hw : Whole base S n s.heap Ψ)
    (hr : s.result.root < s.heap.next) (hS : S s.result.root)
    (he : loop .rounds stop copyValue rounds s = .ok t) :
    ∃ Ψ', Reshaped base S n s.heap Ψ t.heap Ψ' := by
  have hk := (loop_invariant
    (I := fun t : Copying T => t.result.root < t.heap.next ∧ S t.result.root ∧
      ∃ Ψ', Reshaped base S n s.heap Ψ t.heap Ψ')
    (fun t u ⟨hr, hS, Ψ₁, e₁⟩ _ he => by
      obtain ⟨x, -, he⟩ := Exec.bind_eq_ok.1 he
      obtain ⟨h₁, hst, he⟩ := Exec.bind_eq_ok.1 he
      obtain ⟨⟨h₂, it⟩, hnx, he⟩ := Exec.bind_eq_ok.1 he
      obtain ⟨first, -, he⟩ := Exec.bind_eq_ok.1 he
      cases he
      have e₂ := e₁.whole.store hst
      have hr' := lt_of_lt_of_le hr e₂.next_le
      obtain ⟨Ψ₃, e₃, hroot, -⟩ := e₂.whole.next hr' hS hnx
      dsimp only
      rw [hroot]
      exact ⟨lt_of_lt_of_le hr' e₃.next_le, hS, Ψ₃, e₁.trans (e₂.trans e₃)⟩)
    ⟨hr, hS, Ψ, .refl hw⟩ he).1
  exact hk.2.2

/-- `begin() + k`, and the loop from there. -/
theorem copyFrom {stop : Copying T → Bool} {first it₁ it₂ : BpIterator} {h₁ h₂ : Heap T}
    {t : Copying T} (hw : Whole base S n h Ψ) (hr : v.root < h.next) (hS : S v.root)
    (hb : BpVector.begin h v = .ok (h₁, v', it₁)) (ha : it₁.add h₁ k = .ok (h₂, it₂))
    (he : loop .rounds stop copyValue rounds ⟨h₂, first, it₂⟩ = .ok t) :
    ∃ Ψ', Remade base S n h Ψ t.heap Ψ' v v' := by
  obtain ⟨Ψ₁, e₁, hroot, -⟩ := hw.begin hr hS hb
  obtain ⟨Ψ₂, e₂, hroot₂, -⟩ := e₁.shaped.whole.add (by rw [hroot]; exact e₁.root_lt)
    (by rw [hroot]; exact e₁.root_mem) ha
  have hit : it₂.root = v'.root := hroot₂.trans hroot
  obtain ⟨Ψ₃, e₃⟩ := e₂.whole.copyLoop (s := ⟨h₂, first, it₂⟩)
    (by rw [hit]; exact lt_of_lt_of_le e₁.root_lt e₂.next_le) (by rw [hit]; exact e₁.root_mem) he
  exact ⟨Ψ₃, e₁.followed (e₂.trans e₃)⟩

theorem copyRange (hw : Whole base S n h Ψ) (hr : v.root < h.next) (hS : S v.root)
    (he : copyRange rounds h v o a b = .ok (h', v')) :
    ∃ Ψ', Remade base S n h Ψ h' Ψ' v v' := by
  obtain ⟨_, -, he⟩ := Exec.bind_eq_ok.1 he
  obtain ⟨first, -, he⟩ := Exec.bind_eq_ok.1 he
  obtain ⟨_, -, he⟩ := Exec.bind_eq_ok.1 he
  obtain ⟨last, -, he⟩ := Exec.bind_eq_ok.1 he
  obtain ⟨⟨h₁, v₁, it₁⟩, hb, he⟩ := Exec.bind_eq_ok.1 he
  obtain ⟨⟨h₂, it₂⟩, ha, he⟩ := Exec.bind_eq_ok.1 he
  obtain ⟨s, hl, he⟩ := Exec.bind_eq_ok.1 he
  cases he
  exact hw.copyFrom hr hS hb ha hl

theorem copyUntil (hw : Whole base S n h Ψ) (hr : v.root < h.next) (hS : S v.root)
    (he : copyUntil rounds h v o a b = .ok (h', v')) :
    ∃ Ψ', Remade base S n h Ψ h' Ψ' v v' := by
  obtain ⟨_, -, he⟩ := Exec.bind_eq_ok.1 he
  obtain ⟨first, -, he⟩ := Exec.bind_eq_ok.1 he
  obtain ⟨⟨h₁, v₁, it₁⟩, hb₁, he⟩ := Exec.bind_eq_ok.1 he
  obtain ⟨⟨h₂, last⟩, ha₁, he⟩ := Exec.bind_eq_ok.1 he
  obtain ⟨⟨h₃, v₃, it₃⟩, hb, he⟩ := Exec.bind_eq_ok.1 he
  obtain ⟨⟨h₄, it₄⟩, ha, he⟩ := Exec.bind_eq_ok.1 he
  obtain ⟨s, hl, he⟩ := Exec.bind_eq_ok.1 he
  cases he
  -- the iterator that marks the end owns its path as well
  obtain ⟨Ψ₁, e₁, hroot, -⟩ := hw.begin hr hS hb₁
  obtain ⟨Ψ₂, e₂, -, -⟩ := e₁.shaped.whole.add (by rw [hroot]; exact e₁.root_lt)
    (by rw [hroot]; exact e₁.root_mem) ha₁
  have e := e₁.followed e₂
  obtain ⟨Ψ₃, e₃⟩ := e.shaped.whole.copyFrom e.root_lt e.root_mem hb ha hl
  exact ⟨Ψ₃, e.trans hr e₃⟩

end Whole

/-- The vector that is read: its root is there, and stands where that of
the vector that is written does. -/
structure ReadBy (S : Addr → Prop) (h : Heap T) (Ψ : Addr → Place) (v o : BpVector) : Prop where
  root_lt : o.root < h.next
  root_mem : S o.root
  root_place : Ψ o.root = Ψ v.root
  levels_eq : o.levels = v.levels

namespace Remade

variable {h₁ : Heap T} {Ψ₁ : Addr → Place} {v₁ : BpVector} {d : ℕ}

/-- What has been done to a vector, another graft goes on from. -/
theorem graft (e : Remade base S n h Ψ h₁ Ψ₁ v v₁) (hr : v.root < h.next)
    (ho : ReadBy S h Ψ v o) (he : graft .tr h₁ v₁ o d i j lo hi = .ok (h', v')) :
    ∃ Ψ', Remade base S n h Ψ h' Ψ' v v' := by
  obtain ⟨Ψ', e'⟩ := e.shaped.whole.graft e.root_lt e.root_mem
    (lt_of_lt_of_le ho.root_lt e.shaped.next_le) ho.root_mem
    (by rw [e.shaped.place _ ho.root_lt, ho.root_place, e.root_place])
    (by rw [e.eq_root]; exact ho.levels_eq) he
  exact ⟨Ψ', e.trans hr e'⟩

theorem copyPartial (e : Remade base S n h Ψ h₁ Ψ₁ v v₁) (hr : v.root < h.next)
    (he : copyPartial rounds h₁ v₁ o a b = .ok (h', v')) :
    ∃ Ψ', Remade base S n h Ψ h' Ψ' v v' := by
  rw [BpVector.copyPartial] at he
  split at he
  · obtain ⟨Ψ', e'⟩ := e.shaped.whole.copyUntil e.root_lt e.root_mem he
    exact ⟨Ψ', e.trans hr e'⟩
  · cases he
    exact ⟨Ψ₁, e⟩

/-- Up, across and down. -/
theorem graftRange {ar br : ℕ} (e : Remade base S n h Ψ h₁ Ψ₁ v v₁) (hr : v.root < h.next)
    (ho : ReadBy S h Ψ v o) (he : graftRange rounds .tr h₁ v₁ o a b ar = .ok (h', v', br)) :
    ∃ Ψ', Remade base S n h Ψ h' Ψ' v v' :=
  GraftsKeep.graftRange (I := fun h₂ v₂ => ∃ Ψ', Remade base S n h Ψ h₂ Ψ' v v₂)
    (fun _ _ _ _ _ _ _ _ _ ⟨_, e⟩ he => e.graft hr ho he) ⟨Ψ₁, e⟩ he

end Remade

/-- The same of a vector whose root is copied. -/
theorem Recast.graftRange {D : Der} {h₁ : Heap T} {Ψ₁ : Addr → Place} {v₁ : BpVector} {ar br : ℕ}
    (e : Recast base S n h Ψ h₁ Ψ₁ v v₁) (ho : ReadBy S h Ψ v o)
    (he : BpVector.graftRange rounds D h₁ v₁ o a b ar = .ok (h', v', br)) :
    ∃ Ψ', Recast base S n h Ψ h' Ψ' v v' :=
  GraftsKeep.graftRange (I := fun h₂ v₂ => ∃ Ψ', Recast base S n h Ψ h₂ Ψ' v v₂)
    (fun _ _ _ _ _ _ _ _ _ ⟨_, e⟩ he => by
      obtain ⟨Ψ', e', -⟩ := e.shaped.whole.graftOf e.root_lt e.root_mem
        (lt_of_lt_of_le ho.root_lt e.shaped.next_le) ho.root_mem
        (by rw [e.shaped.place _ ho.root_lt, ho.root_place, e.root_place])
        (by rw [e.eq_root]; exact ho.levels_eq) he
      exact ⟨Ψ', e.trans e'⟩) ⟨Ψ₁, e⟩ he

/-- **`assign`**, from whatever vector of the depth, keeps the shape. -/
theorem Whole.assign (hw : Whole base S n h Ψ) (hr : v.root < h.next) (hS : S v.root)
    (ho : ReadBy S h Ψ v o) (he : assign rounds .tr h v o a b = .ok (h', v')) :
    ∃ Ψ', Remade base S n h Ψ h' Ψ' v v' := by
  obtain ⟨-, ar, -, ⟨-, h₁, v₁, he₁, he₂⟩ | ⟨-, h₁, v₁, h₂, v₂, br, he₁, he₂, he₃⟩⟩ :=
    assign_cases he
  · obtain ⟨Ψ₁, e₁⟩ := hw.copyRange hr hS he₁
    obtain ⟨Ψ₂, e₂⟩ := e₁.shaped.whole.copyRange e₁.root_lt e₁.root_mem he₂
    exact ⟨Ψ₂, e₁.trans hr e₂⟩
  · obtain ⟨Ψ₁, e₁⟩ := (Remade.refl hw hr hS).copyPartial hr he₁
    obtain ⟨Ψ₂, e₂⟩ := e₁.graftRange hr ho he₂
    exact e₂.copyPartial hr he₃

end Contentious
