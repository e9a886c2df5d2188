import Contentious.Trie.Shape

/-!
# Trie — the copy-on-write descent

Every update owns the root, descends copying what its test asks for, and
writes one value. Owning a node changes nothing that is read
(`ownRoot_spec`, `ownChild_spec`, `descend_spec`), so what an update
changes is what its last write changes: the one index
(`setWith_spec`). `Holds h Ψ v L` is what the vector `v` then denotes,
whichever test it was updated under.
-/

namespace Contentious

variable [K : BpBits] {T : Type}
variable {h h' : Heap T} {Ψ : Addr → Place} {a b r : Addr} {i j k n : ℕ} {x y : T}
variable {cp : Id → Bool} {id : Id} {v : BpVector} {L : List T}

open BpVector

/-! ## Owning nodes -/

/-- Owning the root gives a root that reads the same. -/
theorem ownRoot_spec (cp : Id → Bool) (id : Id) (hP : Placed h Ψ) (hr : r < h.next) :
    ∃ h' r' Ψ', ownRoot cp id h r = (h', r') ∧ Ext h Ψ h' Ψ' ∧ r' < h'.next ∧ Ψ' r' = Ψ r ∧
      ∀ n i y, readAt h i n r = .ok y → readAt h' i n r' = .ok y := by
  rw [ownRoot]
  split
  · have e : Ext h Ψ (copyNode h r id).1 (placeAt Ψ h.next (Ψ r)) := Ext.alloc hP (hP.fits hr)
    exact ⟨_, _, _, rfl, e, Nat.lt_succ_self _, placeAt_self _ _ _, fun n i y hy =>
      (readAt_congr (copyNode_u hr id)).trans (e.read r hr n i y hy)⟩
  · exact ⟨h, r, Ψ, rfl, Ext.refl hP, hr, rfl, fun _ _ _ hy => hy⟩

/-- Owning a child gives a child that stands in its place, at the cost of
at most the parent's pointer to it. -/
theorem ownChild_spec (cp : Id → Bool) (id : Id) (hP : Placed h Ψ) (ha : a < h.next)
    {s : Fin bpWidth} (hc : child h a s = .ok b) :
    ∃ h' b' Ψ', ownChild cp id h a s = .ok (h', b') ∧ Ext h Ψ h' Ψ' ∧ b' < h'.next ∧
      Ψ' b' = Ψ b ∧ child h' a s = .ok b' ∧ ∀ d < h.next, d ≠ a → h'.cell d = h.cell d := by
  obtain ⟨c, hu, hs⟩ := child_eq_ok.1 hc
  have hb : b < h.next := (hP.child a ha c hu s b hs).1
  rw [ownChild, hc, Exec.ok_bind]
  split
  · -- the copy takes the original's place, and the parent's pointer moves to it
    have e₁ : Ext h Ψ (copyNode h b id).1 (placeAt Ψ h.next (Ψ b)) := Ext.alloc hP (hP.fits hb)
    have hcell : (copyNode h b id).1.cell a = h.cell a := Store.alloc_cell_old ha
    have hu₁ : ((copyNode h b id).1.cell a).u = .branches c := by rw [hcell, hu]
    have hnew : (copyNode h b id).2 < (copyNode h b id).1.next := Nat.lt_succ_self _
    have hΨnew : placeAt Ψ h.next (Ψ b) (copyNode h b id).2 = Ψ b := placeAt_self _ _ _
    have hΨold : placeAt Ψ h.next (Ψ b) b = Ψ b := placeAt_old (Nat.ne_of_lt hb)
    have e₂ := Ext.redirect e₁.placed (lt_of_lt_of_le ha e₁.next_le) hu₁ hs hnew
      (hΨnew.trans hΨold.symm) fun n i y hy => (readAt_congr (copyNode_u hb id)).trans hy
    simp only [setChild_of hu₁, Exec.ok_bind]
    refine ⟨_, _, _, rfl, e₁.trans e₂, hnew, hΨnew, ?_, ?_⟩
    · exact child_of (by rw [Store.write_cell_self]) (Function.update_self ..)
    · intro d hd hda
      rw [Store.write_cell_ne hda]
      exact Store.alloc_cell_old hd
  · exact ⟨h, b, Ψ, rfl, Ext.refl hP, hb, rfl, hc, fun _ _ _ => rfl⟩

/-- **The descent changes nothing that is read**, and its end is where
the walk for `i` ends in the heap it leaves. It needs the path to be
there: some index with the same place at the end reads a value. -/
theorem descend_spec (cp : Id → Bool) (id : Id) (hP : Placed h Ψ) (ha : a < h.next)
    (hΨ : Ψ a = onPath i n) (hkn : k ≤ n) (hr : readAt h j n a = .ok y)
    (hij : Radix.pos bpWidth i (n - k) = Radix.pos bpWidth j (n - k)) :
    ∃ h' b Ψ', descend cp id i k n h a = .ok (h', b) ∧ Ext h Ψ h' Ψ' ∧ b < h'.next ∧
      Ψ' b = onPath i (n - k) ∧ walk h' i k n a = .ok b ∧
      ∀ d < h.next, n < (Ψ d).level → h'.cell d = h.cell d := by
  induction k generalizing n h Ψ a with
  | zero => exact ⟨h, a, Ψ, rfl, Ext.refl hP, ha, hΨ, rfl, fun _ _ _ => rfl⟩
  | succ k ih =>
    obtain ⟨m, rfl⟩ := Nat.exists_eq_succ_of_ne_zero (by omega : n ≠ 0)
    have hs := slot_congr (Radix.pos_congr hij (show m + 1 - (k + 1) ≤ m by omega))
    obtain ⟨b, hb, -⟩ := readAt_succ.1 hr
    rw [← hs] at hb
    obtain ⟨-, -, hΨb⟩ := hP.child_place ha hΨ hb
    obtain ⟨h₁, b₁, Ψ₁, ho, e₁, hb₁, hΨ₁, hc₁, hcell₁⟩ := ownChild_spec cp id hP ha hb
    have hr₁ := e₁.read a ha _ _ _ hr
    obtain ⟨b', hb', hr'⟩ := readAt_succ.1 hr₁
    rw [← hs, hc₁] at hb'
    cases hb'
    rw [Nat.succ_sub_succ] at hij
    obtain ⟨h₂, b₂, Ψ₂, hd, e₂, hb₂, hΨ₂, hw, hcell₂⟩ :=
      ih e₁.placed hb₁ (hΨ₁.trans hΨb) (by omega) hr' hij
    refine ⟨h₂, b₂, Ψ₂, ?_, e₁.trans e₂, hb₂, by rw [Nat.succ_sub_succ]; exact hΨ₂, ?_, ?_⟩
    · rw [descend, ho]; exact hd
    · -- the rest of the descent is below `a`, whose pointer stays where it was moved
      have hlev : m < (Ψ₁ a).level := by rw [e₁.place a ha, hΨ]; exact Nat.lt_succ_self m
      have hcell := hcell₂ a (lt_of_lt_of_le ha e₁.next_le) hlev
      rw [walk, child_congr (congrArg BpNode.u hcell), hc₁]
      exact hw
    · intro d hd hlev
      have hda : d ≠ a := by
        rintro rfl
        rw [hΨ] at hlev
        exact absurd hlev (lt_irrefl _)
      rw [hcell₂ d (lt_of_lt_of_le hd e₁.next_le) (by rw [e₁.place d hd]; omega), hcell₁ d hd hda]

/-! ## Writing one value -/

/-- **An update changes the one index.** The path to it must be there:
some index of the same leaf reads a value. -/
theorem setWith_spec (cp : Id → Bool) (hP : Placed h Ψ) (hr : v.root < h.next)
    (hΨ : Ψ v.root = ⟨v.levels, 0⟩) (hi : i < bpWidth ^ (v.levels + 1))
    (hj : readAt h j v.levels v.root = .ok y)
    (hij : Radix.pos bpWidth i 0 = Radix.pos bpWidth j 0) (x : T) :
    ∃ h' r' Ψ', setWith cp h v i x = .ok (h', { v with root := r' }) ∧ h.next ≤ h'.next ∧
      (∀ d < h.next, Ψ' d = Ψ d) ∧ Placed h' Ψ' ∧ r' < h'.next ∧ Ψ' r' = ⟨v.levels, 0⟩ ∧
      readAt h' i v.levels r' = .ok x ∧
      ∀ l z, l < bpWidth ^ (v.levels + 1) → l ≠ i → readAt h l v.levels v.root = .ok z →
        readAt h' l v.levels r' = .ok z := by
  obtain ⟨h₁, r', Ψ₁, ho, e₁, hr', hΨ₁, hread₁⟩ := ownRoot_spec cp v.id hP hr
  have hroot : ∀ l, l < bpWidth ^ (v.levels + 1) → Ψ₁ r' = onPath l v.levels := fun l hl => by
    rw [hΨ₁, hΨ, onPath, Radix.pos_eq_zero hl]
  obtain ⟨h₂, a, Ψ₂, hd, e₂, ha, hΨ₂, hw, -⟩ :=
    descend_spec cp v.id e₁.placed hr' (hroot i hi) le_rfl (hread₁ _ _ _ hj)
      (by rw [Nat.sub_self]; exact hij)
  rw [Nat.sub_self] at hΨ₂
  -- the descent ends in a leaf, since its level is zero
  obtain ⟨c, hu⟩ : ∃ c, (h₂.cell a).u = .leaves c := by
    cases hu : (h₂.cell a).u with
    | leaves c => exact ⟨c, rfl⟩
    | branches c =>
      have := e₂.placed.branches a ha c hu
      rw [hΨ₂] at this
      exact absurd this (lt_irrefl _)
  have hr₂ : r' < h₂.next := lt_of_lt_of_le hr' e₂.next_le
  refine ⟨h₂.write a ⟨.leaves (Function.update c (slot i 0) x), (h₂.cell a).id⟩, r', Ψ₂, ?_,
    le_trans e₁.next_le e₂.next_le, ?_, e₂.placed.setLeaf hu _ _, hr₂, ?_, ?_, ?_⟩
  · simp only [setWith, ho, hd, Exec.ok_bind, setLeaf_of hu]
  · intro d hd
    rw [e₂.place d (lt_of_lt_of_le hd e₁.next_le), e₁.place d hd]
  · rw [e₂.place r' hr', hΨ₁, hΨ]
  · rw [readAt_of_walk le_rfl ((walk_setLeaf hu _ _ _).trans hw), Nat.sub_self]
    exact leaf_eq_ok.2 ⟨_, by rw [Store.write_cell_self], Function.update_self ..⟩
  · intro l z hl hli hz
    have hΨl : Ψ₂ r' = onPath l v.levels := by rw [e₂.place r' hr']; exact hroot l hl
    exact e₂.placed.read_setLeaf hu hΨ₂ hr₂ hΨl hli (e₂.read r' hr' _ _ _ (hread₁ _ _ _ hz))

/-! ## What a vector denotes -/

/-- **The vector `v` denotes the list `L`** in a placed heap: its root
stands at the top, the list fits, and every index reads its element. The
depth is the least that fits, except that one branch level may stand over
a list that would fit a leaf. -/
structure Holds (h : Heap T) (Ψ : Addr → Place) (v : BpVector) (L : List T) : Prop where
  root_lt : v.root < h.next
  root_place : Ψ v.root = ⟨v.levels, 0⟩
  size : v.sz = L.length
  fits : L.length ≤ bpWidth ^ (v.levels + 1)
  tight : v.levels = 0 ∨ 0 < L.length ∧ (v.levels = 1 ∨ bpWidth ^ v.levels < L.length)
  read : ∀ i (hi : i < L.length), readAt h i v.levels v.root = .ok L[i]

/-- The vector represents the list, wherever the nodes stand. -/
def Represents (h : Heap T) (v : BpVector) (L : List T) : Prop :=
  ∃ Ψ, Placed h Ψ ∧ Holds h Ψ v L

namespace Holds

theorem get (hv : Holds h Ψ v L) (hi : i < L.length) : v.get h i = .ok L[i] := by
  rw [get_eq_readAt]; exact hv.read i hi

/-- The same trie under another id. -/
theorem withId (hv : Holds h Ψ v L) (id : Id) : Holds h Ψ { v with id := id } L :=
  ⟨hv.root_lt, hv.root_place, hv.size, hv.fits, hv.tight, hv.read⟩

/-- **A vector that was just made denotes the empty list.** -/
theorem empty [Inhabited T] (hP : Placed h Ψ) (id : Id) :
    ∃ Ψ', (∀ d < h.next, Ψ' d = Ψ d) ∧ Placed (h.alloc (BpNode.newLeaves id)).1 Ψ' ∧
      Holds (h.alloc (BpNode.newLeaves id)).1 Ψ' ⟨0, 0, h.next, id⟩ ([] : List T) := by
  have e : Ext h Ψ (h.alloc (BpNode.newLeaves id)).1 (placeAt Ψ h.next ⟨0, 0⟩) := Ext.alloc hP rfl
  refine ⟨_, e.place, e.placed, ?_⟩
  exact ⟨Nat.lt_succ_self _, placeAt_self .., rfl, Nat.zero_le _, .inl rfl, fun i hi => nomatch hi⟩

/-- What `at` returns, below the size and past it. -/
theorem at_eq (hv : Holds h Ψ v L) (i : ℕ) :
    at' h v i =
      if hi : i < L.length then .ok L[i] else .error (.outOfRange (atMessage L.length i)) := by
  rw [at', hv.size]
  split
  · next hi => rw [dif_neg (by omega)]
  · next hi => rw [dif_pos (by omega), hv.get]

/-- Where the nodes of `h` are still there, the vector denotes what it did. -/
theorem of_cells (hv : Holds h Ψ v L) (hP : Placed h Ψ) {Ψ' : Addr → Place}
    (hn : h.next ≤ h'.next) (hΨ : ∀ d < h.next, Ψ' d = Ψ d)
    (hcell : ∀ d < h.next, h'.cell d = h.cell d) : Holds h' Ψ' v L where
  root_lt := lt_of_lt_of_le hv.root_lt hn
  root_place := by rw [hΨ _ hv.root_lt, hv.root_place]
  size := hv.size
  fits := hv.fits
  tight := hv.tight
  read i hi := hP.read_of_cells (fun d hd => by rw [hcell d hd]) hv.root_lt (hv.read i hi)

/-- **An update at an index below the size** gives the list with that
element replaced. -/
theorem setWith (cp : Id → Bool) (hP : Placed h Ψ) (hv : Holds h Ψ v L) (hi : i < L.length)
    (x : T) :
    ∃ h' r' Ψ', BpVector.setWith cp h v i x = .ok (h', { v with root := r' }) ∧
      h.next ≤ h'.next ∧ (∀ d < h.next, Ψ' d = Ψ d) ∧ Placed h' Ψ' ∧
      Holds h' Ψ' { v with root := r' } (L.set i x) := by
  obtain ⟨h', r', Ψ', he, hn, hΨ, hP', hr', hΨr, hx, hl⟩ :=
    setWith_spec cp hP hv.root_lt hv.root_place (lt_of_lt_of_le hi hv.fits) (hv.read i hi) rfl x
  refine ⟨h', r', Ψ', he, hn, hΨ, hP', hr', hΨr, ?_, ?_, ?_, ?_⟩
  · rw [List.length_set]; exact hv.size
  · rw [List.length_set]; exact hv.fits
  · rw [List.length_set]; exact hv.tight
  · intro l hll
    rw [List.length_set] at hll
    rw [List.getElem_set]
    split
    · next h => subst h; exact hx
    · next h => exact hl l _ (lt_of_lt_of_le hll hv.fits) (Ne.symm h) (hv.read l hll)

/-- **An update just past the end of a leaf that has room** gives the
list with the element appended. -/
theorem setWith_append (cp : Id → Bool) (hP : Placed h Ψ) (hv : Holds h Ψ v L)
    (hroom : v.sz % bpWidth ≠ 0) (x : T) :
    ∃ h' r' Ψ', BpVector.setWith cp h v v.sz x = .ok (h', { v with root := r' }) ∧
      h.next ≤ h'.next ∧ (∀ d < h.next, Ψ' d = Ψ d) ∧ Placed h' Ψ' ∧
      Holds h' Ψ' { v with sz := v.sz + 1, root := r' } (L ++ [x]) := by
  have hpos : 0 < v.sz := Nat.pos_of_ne_zero fun h => hroom (by rw [h, Nat.zero_mod])
  have hlast : v.sz - 1 < L.length := by have := hv.size; omega
  -- the new index lies in the leaf of the last element
  have hleaf : Radix.pos bpWidth v.sz 0 = Radix.pos bpWidth (v.sz - 1) 0 := by
    have h := Nat.succ_div_of_not_dvd (a := v.sz - 1) (b := bpWidth) (fun hd => hroom (by
      rw [← Nat.mod_eq_zero_of_dvd hd]
      congr 1
      omega))
    rw [show v.sz - 1 + 1 = v.sz by omega] at h
    simpa [Radix.pos] using h
  have hlt : L.length < bpWidth ^ (v.levels + 1) := by
    refine lt_of_le_of_ne hv.fits fun he => hroom ?_
    rw [hv.size, he, pow_succ]
    exact Nat.mul_mod_left _ _
  obtain ⟨h', r', Ψ', he, hn, hΨ, hP', hr', hΨr, hx, hl⟩ :=
    setWith_spec cp hP hv.root_lt hv.root_place (by rw [hv.size]; exact hlt)
      (hv.read _ hlast) hleaf x
  refine ⟨h', r', Ψ', he, hn, hΨ, hP', hr', hΨr, ?_, ?_, ?_, ?_⟩
  · simp [hv.size]
  · simp only [List.length_append, List.length_singleton]; exact hlt
  · have := hv.tight
    simp only [List.length_append, List.length_singleton]
    omega
  · intro l hll
    simp only [List.length_append, List.length_singleton] at hll
    by_cases hlL : l < L.length
    · rw [List.getElem_append_left hlL]
      exact hl l _ (lt_of_lt_of_le hlL hv.fits) (by have := hv.size; omega) (hv.read l hlL)
    · have hle : l = L.length := by omega
      subst hle
      rw [List.getElem_concat_length rfl]
      rw [hv.size] at hx
      exact hx

end Holds

/-- The same trie under another id. -/
theorem Represents.withId (hv : Represents h v L) (id : Id) :
    Represents h { v with id := id } L := by
  obtain ⟨Ψ, hP, hv⟩ := hv
  exact ⟨Ψ, hP, hv.withId id⟩

end Contentious
