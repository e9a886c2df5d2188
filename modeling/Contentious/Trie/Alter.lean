import Contentious.Trie.Whole

/-!
# Trie — what a write is seen to change

A vector that is written may share its nodes with any number of others,
at any depth. What they may read afterwards is bounded by what was
written (`Alters`): at each index the value that was there, or one that
was written at that index. Owning a path changes nothing that is read,
and a value stored is seen at its own index only.

Whether it is seen there by another vector is a matter of the two paths
to the index. Nodes that do not carry the writer's id are copied first,
and so the other's path is left alone where the two have no node in
common that does (`Holds.path_kept`); where they have one, they end in
one leaf as soon as the writer owns its path (`walk_of_sharedAt`).
-/

namespace Contentious

open BpVector

variable [K : BpBits] {T : Type}
variable {h h' h'' : Heap T} {Ψ Ψ' Ψ'' : Addr → Place} {a b : Addr} {i k l n p : ℕ} {x y : T}
variable {v w : BpVector} {L N : List T} {W W' : ℕ → T → Prop}

/-- **Reads stay, or become what is written there**: `W i y` says that `y`
is written at the index `i`. -/
structure Alters (W : ℕ → T → Prop) (h : Heap T) (Ψ : Addr → Place) (h' : Heap T)
    (Ψ' : Addr → Place) : Prop where
  next_le : h.next ≤ h'.next
  place : ∀ a < h.next, Ψ' a = Ψ a
  placed : Placed h' Ψ'
  read : ∀ a < h.next, ∀ i n, Ψ a = onPath i n → ∀ y, readAt h i n a = .ok y →
    ∃ z, readAt h' i n a = .ok z ∧ (z = y ∨ W i z)

namespace Alters

theorem trans (e₁ : Alters W h Ψ h' Ψ') (e₂ : Alters W h' Ψ' h'' Ψ'') : Alters W h Ψ h'' Ψ'' where
  next_le := le_trans e₁.next_le e₂.next_le
  place a ha := by rw [e₂.place a (lt_of_lt_of_le ha e₁.next_le), e₁.place a ha]
  placed := e₂.placed
  read a ha i n hΨ y hy := by
    obtain ⟨z, hz, hzy⟩ := e₁.read a ha i n hΨ y hy
    obtain ⟨z', hz', hzz⟩ := e₂.read a (lt_of_lt_of_le ha e₁.next_le) i n
      ((e₁.place a ha).trans hΨ) z hz
    refine ⟨z', hz', ?_⟩
    rcases hzz with rfl | hW
    · exact hzy
    · exact .inr hW

theorem mono (hW : ∀ i y, W i y → W' i y) (e : Alters W h Ψ h' Ψ') : Alters W' h Ψ h' Ψ' where
  next_le := e.next_le
  place := e.place
  placed := e.placed
  read a ha i n hΨ y hy := by
    obtain ⟨z, hz, hzy⟩ := e.read a ha i n hΨ y hy
    exact ⟨z, hz, hzy.imp_right (hW i z)⟩

/-- What changes nothing that is read, -/
theorem of_ext (e : Ext h Ψ h' Ψ') : Alters W h Ψ h' Ψ' where
  next_le := e.next_le
  place := e.place
  placed := e.placed
  read a ha i n _ y hy := ⟨y, e.read a ha n i y hy, .inl rfl⟩

theorem refl (hP : Placed h Ψ) : Alters W h Ψ h Ψ := .of_ext (.refl hP)

/-- what writes new nodes only, -/
theorem of_cells (hP : Placed h Ψ) (hn : h.next ≤ h'.next) (hΨ : ∀ d < h.next, Ψ' d = Ψ d)
    (hP' : Placed h' Ψ') (hcell : ∀ d < h.next, h'.cell d = h.cell d) : Alters W h Ψ h' Ψ' :=
  .of_ext ⟨hn, hΨ, hP', fun _ ha _ _ _ hy =>
    hP.read_of_cells (fun d hd => by rw [hcell d hd]) ha hy⟩

/-- **and a value stored** in the leaf of its index. -/
theorem setLeaf (hP : Placed h Ψ) {c : Fin bpWidth → T} (hu : (h.cell a).u = .leaves c)
    (hΨ : Ψ a = onPath p 0) (x : T) :
    Alters (fun i y => i = p ∧ y = x) h Ψ
      (h.write a ⟨.leaves (Function.update c (slot p 0) x), (h.cell a).id⟩) Ψ where
  next_le := le_rfl
  place _ _ := rfl
  placed := hP.setLeaf hu _ _
  read d hd i n hΨd y hy := by
    by_cases hip : i = p
    · subst hip
      obtain ⟨b, hw, hb⟩ := exists_walk_of_readAt le_rfl hy
      rw [Nat.sub_self] at hb
      rw [readAt_of_walk le_rfl ((walk_setLeaf hu _ _ _).trans hw), Nat.sub_self, readAt]
      by_cases hba : b = a
      · subst hba
        exact ⟨x, leaf_eq_ok.2 ⟨_, by rw [Store.write_cell_self], Function.update_self ..⟩,
          .inr ⟨rfl, rfl⟩⟩
      · exact ⟨y, (leaf_congr (congrArg BpNode.u (Store.write_cell_ne hba))).trans hb, .inl rfl⟩
    · exact ⟨y, hP.read_setLeaf hu hΨ hd hΨd hip hy, .inl rfl⟩

end Alters

/-- **What a vector denotes afterwards**: at each index what it did, or
what is written there. -/
theorem Holds.altered (hw : Holds h Ψ w N) (e : Alters W h Ψ h' Ψ') :
    ∃ N', Holds h' Ψ' w N' ∧ N'.length = N.length := by
  have hread : ∀ i : Fin N.length, ∃ z, readAt h' i w.levels w.root = .ok z := fun i => by
    obtain ⟨z, hz, -⟩ := e.read _ hw.root_lt i w.levels
      (hw.root_onPath (lt_of_lt_of_le i.isLt hw.fits)) _ (hw.read i i.isLt)
    exact ⟨z, hz⟩
  choose z hz using hread
  have hlen : (List.ofFn z).length = N.length := List.length_ofFn
  refine ⟨List.ofFn z, ⟨lt_of_lt_of_le hw.root_lt e.next_le, ?_, ?_, ?_, ?_, fun i hi => ?_⟩, hlen⟩
  · rw [e.place _ hw.root_lt, hw.root_place]
  · rw [hlen, hw.size]
  · rw [hlen]
    exact hw.fits
  · rw [hlen]
    exact hw.tight
  · rw [List.getElem_ofFn]
    exact hz ⟨i, by rwa [hlen] at hi⟩

/-- A vector that already has what is written denotes what it did. -/
theorem Holds.unaltered (hw : Holds h Ψ w N) (e : Alters W h Ψ h' Ψ')
    (hW : ∀ i (hi : i < N.length) z, W i z → z = N[i]) : Holds h' Ψ' w N where
  root_lt := lt_of_lt_of_le hw.root_lt e.next_le
  root_place := by rw [e.place _ hw.root_lt, hw.root_place]
  size := hw.size
  fits := hw.fits
  tight := hw.tight
  read i hi := by
    obtain ⟨z, hz, hzN⟩ := e.read _ hw.root_lt i w.levels
      (hw.root_onPath (lt_of_lt_of_le hi hw.fits)) _ (hw.read i hi)
    rw [hz, hzN.elim id (hW i hi z)]

/-- What `at` returns for an index where nothing is written that is not
there. -/
theorem Alters.at_eq (e : Alters W h Ψ h' Ψ') (hw : Holds h Ψ w N) (i : ℕ)
    (hW : ∀ (hi : i < N.length) z, readAt h' i w.levels w.root = .ok z → W i z → z = N[i]) :
    w.at' h' i = w.at' h i := by
  obtain ⟨N', hw', hlen⟩ := hw.altered e
  rw [hw'.at_eq, hw.at_eq]
  by_cases hi : i < N.length
  · obtain ⟨z, hz, hzN⟩ := e.read _ hw.root_lt i w.levels
      (hw.root_onPath (lt_of_lt_of_le hi hw.fits)) _ (hw.read i hi)
    have hi' : i < N'.length := by omega
    have hzN' : z = N'[i] := Except.ok.inj (hz.symm.trans (hw'.read i hi'))
    rw [dif_pos hi', dif_pos hi, ← hzN', hzN.elim id (hW hi z hz)]
  · rw [dif_neg (by omega), dif_neg hi, hlen]

/-! ## The paths to an index -/

/-- What a computation gives can be checked. -/
instance Exec.decidableExists {α : Type} {e : Exec α} {P : α → Prop} [DecidablePred P] :
    Decidable (∃ a, e = .ok a ∧ P a) :=
  match e with
  | .ok a => decidable_of_iff (P a) (by simp)
  | .error _ => isFalse (by simp)

instance Exec.decidableForall {α : Type} {e : Exec α} {P : α → Prop} [DecidablePred P] :
    Decidable (∀ a, e = .ok a → P a) :=
  match e with
  | .ok a => decidable_of_iff (P a) (by simp)
  | .error _ => isTrue (by simp)

/-- **The two paths to the index have a node in common that carries the id
of `v`**, which for `ps_vector`s is zero. -/
def SharedAt (h : Heap T) (v w : BpVector) (p : ℕ) : Prop :=
  ∃ k ≤ v.levels, ∃ l ≤ w.levels, ∃ a, walk h p k v.levels v.root = .ok a ∧
    walk h p l w.levels w.root = .ok a ∧ (h.cell a).id = v.id

instance (h : Heap T) (v w : BpVector) (p : ℕ) : Decidable (SharedAt h v w p) :=
  inferInstanceAs (Decidable (∃ k ≤ v.levels, ∃ l ≤ w.levels, ∃ a,
    walk h p k v.levels v.root = .ok a ∧ walk h p l w.levels w.root = .ok a ∧ (h.cell a).id = v.id))

/-- A node of the other's path that `v` reaches is on its own. -/
theorem sharedAt_of_reach (hP : Placed h Ψ) (hv : Holds h Ψ v L) (hw : Holds h Ψ w N)
    (hpv : p < v.sz) (hpw : p < w.sz) (hl : l ≤ w.levels)
    (ha : walk h p l w.levels w.root = .ok a) (hr : Reach h v.root a)
    (hid : (h.cell a).id = v.id) : SharedAt h v w p := by
  obtain ⟨-, hΨa⟩ := hP.walk_place hw.root_lt (hw.root_onPath (hw.lt_capacity (.inl hpw))) ha
  obtain ⟨-, hwalk⟩ := hP.walk_of_reach hv.root_lt hr
    (hv.root_onPath (hv.lt_capacity (.inl hpv))) hΨa
  exact ⟨_, Nat.sub_le _ _, l, hl, a, hwalk, ha, hid⟩

/-- **Where they have none**, no node of the other's path is written. -/
theorem Holds.path_kept {Q : Id → Prop} (hP : Placed h Ψ) (hv : Holds h Ψ v L)
    (hw : Holds h Ψ w N) (hpv : p < v.sz) (hpw : p < w.sz) (hs : ¬ SharedAt h v w p)
    (e : Edits h.next (nodeCopy .tr v.id) Q (fun a => Reach h v.root a ∨ h.next ≤ a) h h') :
    ∀ l ≤ w.levels, ∀ a, walk h p l w.levels w.root = .ok a → h'.cell a = h.cell a := by
  intro l hl a ha
  have halt := (hP.walk_place hw.root_lt (hw.root_onPath (hw.lt_capacity (.inl hpw))) ha).1
  by_cases hid : (h.cell a).id = v.id
  · exact e.cell_eq_of_not_mem halt fun hS => hs (sharedAt_of_reach hP hv hw hpv hpw hl ha
      (hS.resolve_right (Nat.not_le.2 halt)) hid)
  · exact e.cell_eq halt halt (by simpa [nodeCopy] using Ne.symm hid)

/-- so it reads what it did. -/
theorem Holds.read_kept {Q : Id → Prop} (hP : Placed h Ψ) (hv : Holds h Ψ v L)
    (hw : Holds h Ψ w N) (hpv : p < v.sz) (hpw : p < N.length) (hs : ¬ SharedAt h v w p)
    (e : Edits h.next (nodeCopy .tr v.id) Q (fun a => Reach h v.root a ∨ h.next ≤ a) h h') :
    readAt h' p w.levels w.root = .ok N[p] :=
  readAt_of_path (hw.read p hpw) fun l hl a ha => by
    rw [hv.path_kept hP hw hpv (by rw [hw.size]; exact hpw) hs e l hl a ha]

/-- **Where they have one, they end in one leaf.** -/
theorem walk_of_sharedAt (hP : Placed h Ψ) (hv : Holds h Ψ v L) (hw : Holds h Ψ w N)
    (hpv : p < v.sz) (hpw : p < w.sz) (hs : SharedAt h v w p)
    (hb : walk h p v.levels v.levels v.root = .ok b) :
    walk h p w.levels w.levels w.root = .ok b := by
  obtain ⟨k, hk, l, hl, a, hka, hla, -⟩ := hs
  -- the node stands at one level under both
  have hplace := (hP.walk_place hv.root_lt (hv.root_onPath (hv.lt_capacity (.inl hpv))) hka).2
  rw [(hP.walk_place hw.root_lt (hw.root_onPath (hw.lt_capacity (.inl hpw))) hla).2] at hplace
  have hlev : w.levels - l = v.levels - k := congrArg Place.level hplace
  obtain ⟨m, hm⟩ : ∃ m, v.levels = k + m := ⟨v.levels - k, by omega⟩
  have hm' : w.levels = l + m := by omega
  have hbelow : walk h p m (v.levels - k) a = .ok b := by
    have hb' : walk h p (k + m) v.levels v.root = .ok b := by rw [← hm]; exact hb
    rwa [walk_append, hka, Exec.ok_bind] at hb'
  calc walk h p w.levels w.levels w.root = walk h p (l + m) w.levels w.root := by rw [hm']
    _ = walk h p m (w.levels - l) a := by rw [walk_append, hla, Exec.ok_bind]
    _ = .ok b := by rw [hlev, hbelow]

/-! ## A value stored -/

namespace BpIterator.At

variable {cp : Id → Bool} {it : BpIterator}

/-- **`*it = x`** is seen at its own index only, -/
theorem alters (hit : it.At cp h v p) (hP : Placed h Ψ) (hv : Holds h Ψ v L) (hp : p < v.sz)
    (he : it.store h x = .ok h') : Alters (fun i y => i = p ∧ y = x) h Ψ h' Ψ := by
  have hΨ := (hit.leaf_place hP hv).2
  rw [lastOf, min_eq_left (by omega)] at hΨ
  rw [store_eq (hit.cur_of_lt hp)] at he
  obtain ⟨c, hu, rfl⟩ := setLeaf_eq_ok he
  exact .setLeaf hP hu hΨ x

/-- where a vector that shares the path to it sees it. -/
theorem store_seen (hit : it.At cp h v p) (hP : Placed h Ψ) (hv : Holds h Ψ v L)
    (hw : Holds h Ψ w N) (hp : p < v.sz) (hpw : p < w.sz) (hs : SharedAt h v w p)
    (he : it.store h x = .ok h') : w.at' h' p = .ok x := by
  have hwalk := walk_of_sharedAt hP hv hw hp hpw hs (hit.path_of_lt hp).walk
  rw [store_eq (hit.cur_of_lt hp)] at he
  obtain ⟨c, hu, rfl⟩ := setLeaf_eq_ok he
  rw [BpVector.at', if_neg (by omega), get_eq_readAt,
    readAt_of_walk le_rfl ((walk_setLeaf hu _ _ _).trans hwalk), Nat.sub_self]
  exact leaf_eq_ok.2 ⟨_, by rw [Store.write_cell_self], Function.update_self ..⟩

/-- **Whom a value stored is seen by**: another vector is left as it is
just where it has that value already, or no node that carries the
writer's id is on both paths. -/
theorem store_iff (hit : it.At (nodeCopy .tr v.id) h v p) (hP : Placed h Ψ) (hv : Holds h Ψ v L)
    (hw : Holds h Ψ w N) (hp : p < v.sz) (he : it.store h x = .ok h') :
    (∀ i, w.at' h' i = w.at' h i) ↔ (p < w.sz → SharedAt h v w p → w.at' h p = .ok x) := by
  constructor
  · intro hsame hpw hs
    rw [← hsame p]
    exact hit.store_seen hP hv hw hp hpw hs he
  · intro hcond i
    refine (hit.alters hP hv hp he).at_eq hw i fun hi z hz hW => ?_
    obtain ⟨rfl, rfl⟩ := hW
    have hpw : i < w.sz := by rw [hw.size]; exact hi
    by_cases hs : SharedAt h v w i
    · have hat := hcond hpw hs
      rw [hw.at_eq, dif_pos hi] at hat
      exact (Except.ok.inj hat).symm
    · have e := (hit.held (S := fun a => Reach h v.root a ∨ h.next ≤ a) hP hv fun _ ha =>
        .inl ha).store (N := fun _ => True) he
      exact Except.ok.inj (hz.symm.trans (hv.read_kept hP hw hp hi hs e))

end BpIterator.At

end Contentious
