import Contentious.Trie.Iterator
import Contentious.Trie.Push

/-!
# Trie — where an iterator points

An iterator keeps a leaf and an offset into it, and two iterators are
compared by these. `At` says which position of the vector they stand for:
the leaf is the one on the path of the position, or of the last element
for the position one past it. The path is owned from the root down
(`Settled`), so walking it again copies nothing and ends in the same
leaf; and what the vector's own iterators do later moves no pointer to a
node that is owned already (`Keeps`), so a position is kept while others
move. Over these, each operation has its spec: `begin()` stands at zero,
`++` goes one on, `+` goes as far as it is told up to the end, and equal
iterators are those of equal positions (`At.eq_iff`).
-/

namespace Contentious

open BpVector

variable [K : BpBits] {T : Type}
variable {h h' h'' : Heap T} {Ψ Ψ' : Addr → Place} {a b c r : Addr} {i j k n p q : ℕ} {x y : T}
variable {cp : Id → Bool} {id : Id} {v : BpVector} {L : List T}

/-! ## Paths that are owned -/

/-- The `k` nodes below `a` on the path of `i` are owned, and `b` is the
last of them. -/
def Settled (cp : Id → Bool) (h : Heap T) (i : ℕ) : ℕ → ℕ → Addr → Addr → Prop
  | 0, _, a, b => a = b
  | k + 1, n, a, b => ∃ c, child h a (slot i (n * bpBits)) = .ok c ∧ cp (h.cell c).id = false ∧
      Settled cp h i k (n - 1) c b

/-- **What the walks of one owner keep**: nodes keep their ids, and a
pointer to an owned node stays where it is. -/
structure Keeps (cp : Id → Bool) (h h' : Heap T) : Prop where
  next_le : h.next ≤ h'.next
  id_eq : ∀ a < h.next, (h'.cell a).id = (h.cell a).id
  edge : ∀ a < h.next, ∀ b < h.next, ∀ s, child h a s = .ok b → cp (h.cell b).id = false →
    child h' a s = .ok b

namespace Keeps

theorem refl : Keeps cp h h := ⟨le_rfl, fun _ _ => rfl, fun _ _ _ _ _ hc _ => hc⟩

theorem trans (k₁ : Keeps cp h h') (k₂ : Keeps cp h' h'') : Keeps cp h h'' where
  next_le := le_trans k₁.next_le k₂.next_le
  id_eq a ha := by rw [k₂.id_eq a (lt_of_lt_of_le ha k₁.next_le), k₁.id_eq a ha]
  edge a ha b hb s hc hcp := by
    refine k₂.edge a (lt_of_lt_of_le ha k₁.next_le) b (lt_of_lt_of_le hb k₁.next_le) s
      (k₁.edge a ha b hb s hc hcp) ?_
    rw [k₁.id_eq b hb]
    exact hcp

/-- Copying a node. -/
theorem copyNode (a : Addr) (id : Id) : Keeps cp h (copyNode h a id).1 where
  next_le := Nat.le_succ _
  id_eq d hd := by rw [Contentious.copyNode, Store.alloc_cell_old hd]
  edge d hd b hb s hc _ := by
    rw [child_congr (h := h) (a := d) (by rw [Contentious.copyNode, Store.alloc_cell_old hd])]
    exact hc

/-- Writing a value. -/
theorem setLeaf {s : Fin bpWidth} (he : setLeaf h a s x = .ok h') : Keeps cp h h' := by
  obtain ⟨hn, hid, hcell⟩ := setLeaf_cell he
  obtain ⟨l, hu, rfl⟩ := setLeaf_eq_ok he
  refine ⟨hn.ge, fun d _ => ?_, fun d _ b _ t hc _ => ?_⟩
  · by_cases hda : d = a
    · rw [hda, hid]
    · rw [hcell d hda]
  · rw [child_setLeaf hu]
    exact hc

/-- Moving a pointer away from a node that is not owned. -/
theorem setChild {s : Fin bpWidth} (hc : child h a s = .ok b) (hcp : cp (h.cell b).id = true)
    (he : setChild h a s (some c) = .ok h') : Keeps cp h h' := by
  obtain ⟨hn, hid, hcell⟩ := setChild_cell he
  obtain ⟨f, hu, rfl⟩ := setChild_eq_ok he
  refine ⟨hn.ge, fun d _ => ?_, fun d _ e _ t hce hcpe => ?_⟩
  · by_cases hda : d = a
    · rw [hda, hid]
    · rw [hcell d hda]
  · by_cases hda : d = a
    · subst hda
      obtain ⟨g, hu', hk⟩ := child_eq_ok.1 hce
      rw [hu] at hu'
      cases hu'
      have hts : t ≠ s := by
        rintro rfl
        rw [hce] at hc
        cases hc
        rw [hcp] at hcpe
        exact nomatch hcpe
      exact child_of (by rw [Store.write_cell_self]) (by rw [Function.update_of_ne hts, hk])
    · rw [child_congr (congrArg BpNode.u (hcell d hda))]
      exact hce

end Keeps

/-- A settled path is walked without copying, -/
theorem Settled.descend (hs : Settled cp h i k n a b) :
    descend cp id i k n h a = .ok (h, b) := by
  induction k generalizing n a with
  | zero => rw [BpVector.descend, show a = b from hs]
  | succ k ih =>
    obtain ⟨c, hc, hcp, hs⟩ := hs
    rw [BpVector.descend, ownChild, hc, Exec.ok_bind, hcp]
    exact ih hs

/-- and it is the walk of `operator[]`. -/
theorem Settled.walk (hs : Settled cp h i k n a b) : walk h i k n a = .ok b := by
  induction k generalizing n a with
  | zero => rw [Contentious.walk, show a = b from hs]
  | succ k ih =>
    obtain ⟨c, hc, -, hs⟩ := hs
    rw [Contentious.walk, hc, Exec.ok_bind]
    exact ih hs

/-- Indices of one range share the path to it. -/
theorem Settled.congr (hs : Settled cp h i k n a b) (hkn : k ≤ n)
    (hij : Radix.pos bpWidth i (n - k) = Radix.pos bpWidth j (n - k)) :
    Settled cp h j k n a b := by
  induction k generalizing n a with
  | zero => exact hs
  | succ k ih =>
    obtain ⟨c, hc, hcp, hs⟩ := hs
    obtain ⟨m, rfl⟩ := Nat.exists_eq_succ_of_ne_zero (by omega : n ≠ 0)
    have hslot := slot_congr (Radix.pos_congr hij.symm (show m + 1 - (k + 1) ≤ m by omega))
    rw [Nat.succ_sub_succ] at hij
    exact ⟨c, by rw [hslot]; exact hc, hcp, ih hs (by omega) hij⟩

theorem Settled.keeps (hs : Settled cp h i k n a b) (hP : Placed h Ψ) (ha : a < h.next)
    (hk : Keeps cp h h') : Settled cp h' i k n a b := by
  induction k generalizing n a with
  | zero => exact hs
  | succ k ih =>
    obtain ⟨c, hc, hcp, hs⟩ := hs
    obtain ⟨f, hu, hf⟩ := child_eq_ok.1 hc
    have hcn := (hP.child a ha f hu _ c hf).1
    exact ⟨c, hk.edge a ha c hcn _ hc hcp, by rw [hk.id_eq c hcn]; exact hcp, ih hs hcn⟩

/-- Where nothing is copied, every path is settled. -/
theorem settled_of_walk (hw : walk h i k n a = .ok b) : Settled (fun _ => false) h i k n a b := by
  induction k generalizing n a with
  | zero => cases hw; rfl
  | succ k ih =>
    obtain ⟨c, hc, hw⟩ := Exec.bind_eq_ok.1 hw
    exact ⟨c, hc, rfl, ih hw⟩

theorem ownRoot_keeps (cp : Id → Bool) (id : Id) (h : Heap T) (r : Addr) :
    Keeps cp h (ownRoot cp id h r).1 := by
  rw [ownRoot]
  split
  · exact .copyNode r id
  · exact .refl

/-- The root that is owned is the owner's. -/
theorem ownRoot_owned (hcp : cp id = false) (h : Heap T) (r : Addr) :
    cp ((ownRoot cp id h r).1.cell (ownRoot cp id h r).2).id = false := by
  rw [ownRoot]
  split
  · simp only [copyNode, Store.alloc_snd, Store.alloc_cell_new]
    exact hcp
  · next hno => simpa using hno

theorem ownChild_settles {s : Fin bpWidth} (hcp : cp id = false) (hP : Placed h Ψ) (ha : a < h.next)
    (he : ownChild cp id h a s = .ok (h', b)) :
    Keeps cp h h' ∧ child h' a s = .ok b ∧ cp (h'.cell b).id = false := by
  obtain ⟨d, hd, he⟩ := Exec.bind_eq_ok.1 he
  obtain ⟨f, hu, hf⟩ := child_eq_ok.1 hd
  have hdn := (hP.child a ha f hu s d hf).1
  split at he
  · next hask =>
    obtain ⟨h₁, hset, he⟩ := Exec.bind_eq_ok.1 he
    cases he
    have hold : ∀ e < h.next, (copyNode h d id).1.cell e = h.cell e := fun e he =>
      Store.alloc_cell_old he
    have hc₁ : child (copyNode h d id).1 a s = .ok d := by
      rw [child_congr (congrArg BpNode.u (hold a ha))]
      exact hd
    have hask₁ : cp ((copyNode h d id).1.cell d).id = true := by rw [hold d hdn]; exact hask
    refine ⟨(Keeps.copyNode d id).trans (.setChild hc₁ hask₁ hset), ?_, ?_⟩
    · obtain ⟨g, -, rfl⟩ := setChild_eq_ok hset
      exact child_of (by rw [Store.write_cell_self]) (Function.update_self ..)
    · have hcell := (setChild_cell hset).2.2 h.next (Nat.ne_of_gt ha)
      change cp (h'.cell h.next).id = false
      rw [hcell]
      simpa using hcp
  · next hno =>
    cases he
    exact ⟨.refl, hd, by simpa using hno⟩

/-- **A walk that owns its path settles it.** -/
theorem descend_settles (hcp : cp id = false) (hP : Placed h Ψ) (ha : a < h.next)
    (he : descend cp id i k n h a = .ok (h', b)) :
    Keeps cp h h' ∧ Settled cp h' i k n a b := by
  induction k generalizing n h Ψ a with
  | zero => cases he; exact ⟨.refl, rfl⟩
  | succ k ih =>
    obtain ⟨⟨h₁, c⟩, ho, he⟩ := Exec.bind_eq_ok.1 he
    obtain ⟨k₁, hc, hown⟩ := ownChild_settles hcp hP ha ho
    obtain ⟨d, hd, -⟩ := Exec.bind_eq_ok.1 ho
    obtain ⟨h₂, c₂, Ψ₁, ho₂, e₁, hcn, -⟩ := ownChild_spec cp id hP ha hd
    rw [ho] at ho₂
    cases ho₂
    obtain ⟨k₂, hs⟩ := ih e₁.placed hcn he
    exact ⟨k₁.trans k₂, c, k₂.edge a (lt_of_lt_of_le ha e₁.next_le) c hcn _ hc hown,
      by rw [k₂.id_eq c hcn]; exact hown, hs⟩

/-! ## Positions -/

/-- The index whose path leads to the leaf of a position: the position, or
the last element for the one past it. -/
def lastOf (v : BpVector) (p : ℕ) : ℕ := min p (v.sz - 1)

/-- **The iterator stands at position `p` of the vector**, which may be
one past the last element. -/
structure BpIterator.At (cp : Id → Bool) (h : Heap T) (v : BpVector) (p : ℕ) (it : BpIterator) :
    Prop where
  root_eq : it.root = v.root
  levels_eq : it.levels = v.levels
  sz_eq : it.sz = v.sz
  id_eq : it.id = v.id
  pos_le : p ≤ v.sz
  root_owned : cp (h.cell v.root).id = false
  path : Settled cp h (lastOf v p) v.levels v.levels v.root it.leaf
  cur_eq : it.cur = lastOf v p % bpWidth + (p - lastOf v p)
  base_eq : p < v.sz → it.i + it.cur = p

/-- The vector over a root that reads the same. -/
theorem Holds.of_ext (hv : Holds h Ψ v L) (e : Ext h Ψ h' Ψ') : Holds h' Ψ' v L where
  root_lt := lt_of_lt_of_le hv.root_lt e.next_le
  root_place := by rw [e.place _ hv.root_lt, hv.root_place]
  size := hv.size
  fits := hv.fits
  tight := hv.tight
  read i hi := e.read _ hv.root_lt _ _ _ (hv.read i hi)

/-- The root is on the path of every index that fits. -/
theorem Holds.root_onPath (hv : Holds h Ψ v L) (hi : i < bpWidth ^ (v.levels + 1)) :
    Ψ v.root = onPath i v.levels := by
  rw [hv.root_place, onPath, Radix.pos_eq_zero hi]

/-- An index of the vector fits, and so does zero. -/
theorem Holds.lt_capacity (hv : Holds h Ψ v L) (hi : i < v.sz ∨ i = 0) :
    i < bpWidth ^ (v.levels + 1) := by
  rcases hi with hi | rfl
  · rw [hv.size] at hi
    exact lt_of_lt_of_le hi hv.fits
  · exact Nat.pow_pos bpWidth_pos

/-- A vector whose capacity fits `size_t` has no more than `2 ^ 63` elements. -/
theorem Holds.sz_le (hv : Holds h Ψ v L) (hcap : bpWidth ^ (v.levels + 1) < 2 ^ 64) :
    v.sz ≤ 2 ^ 63 := by
  have h1 : bpWidth ^ (v.levels + 1) = 2 ^ (bpBits * (v.levels + 1)) := by rw [bpWidth_eq, pow_mul]
  rw [h1] at hcap
  have h2 : bpBits * (v.levels + 1) < 64 := (Nat.pow_lt_pow_iff_right (by omega)).1 hcap
  have h3 : 2 ^ (bpBits * (v.levels + 1)) ≤ 2 ^ 63 := Nat.pow_le_pow_right (by omega) (by omega)
  have h4 := hv.fits
  rw [hv.size]
  omega

theorem Placed.leaves_of_level (hP : Placed h Ψ) (ha : a < h.next) (hΨ : (Ψ a).level = 0) :
    ∃ l, (h.cell a).u = .leaves l := by
  cases hu : (h.cell a).u with
  | leaves l => exact ⟨l, rfl⟩
  | branches l => exact absurd hΨ (hP.branches a ha l hu).ne'

/-- **The walk to the leaf of an index**, or of the only leaf there is. -/
theorem Holds.seekWith (it : BpIterator) (hcp : cp v.id = false) (hP : Placed h Ψ)
    (hv : Holds h Ψ v L) (hr : it.root = v.root) (hl : it.levels = v.levels) (hid : it.id = v.id)
    (hi : it.i < v.sz ∨ it.i = 0 ∧ v.sz = 0) (off : ℕ) :
    ∃ h' leaf Ψ', it.seekWith cp h off = .ok (h', { it with leaf := leaf, cur := off }) ∧
      Ext h Ψ h' Ψ' ∧ Keeps cp h h' ∧ Settled cp h' it.i v.levels v.levels v.root leaf := by
  have hlt := hv.lt_capacity (hi.imp_right And.left)
  have hdesc : ∃ h' b Ψ', BpVector.descend cp v.id it.i v.levels v.levels h v.root = .ok (h', b) ∧
      Ext h Ψ h' Ψ' ∧ b < h'.next ∧ Ψ' b = onPath it.i (v.levels - v.levels) := by
    rcases hi with hi | ⟨-, h0⟩
    · rw [hv.size] at hi
      obtain ⟨h', b, Ψ', hd, e, hb, hΨb, -⟩ :=
        descend_spec cp v.id hP hv.root_lt (hv.root_onPath hlt) le_rfl (hv.read _ hi) rfl
      exact ⟨h', b, Ψ', hd, e, hb, hΨb⟩
    · -- an empty vector is its root leaf
      have hlev : v.levels = 0 := by
        have h1 := hv.tight
        have h2 := hv.size
        omega
      have hΨ := hv.root_onPath hlt
      rw [hlev] at hΨ ⊢
      exact ⟨h, v.root, Ψ, rfl, Ext.refl hP, hv.root_lt, hΨ⟩
  obtain ⟨h', b, Ψ', hd, e, hb, hΨb⟩ := hdesc
  rw [Nat.sub_self] at hΨb
  obtain ⟨hk, hs⟩ := descend_settles hcp hP hv.root_lt hd
  obtain ⟨l, hu⟩ := e.placed.leaves_of_level hb (by rw [hΨb]; rfl)
  refine ⟨h', b, Ψ', ?_, e, hk, hs⟩
  rw [BpIterator.seekWith, hr, hl, hid, hd, Exec.ok_bind]
  simp only [BpNode.asLeaves, hu, Exec.ok_bind]

omit K in
/-- A `size_t` below `2 ^ 63` is itself as an `int64_t`. -/
theorem toInt64_of_lt (hn : n < 2 ^ 63) : toInt64 n = n := by
  have h1 : 2 * (BitVec.ofNat 64 n).toNat < 2 ^ 64 := by
    rw [BitVec.toNat_ofNat]
    omega
  rw [toInt64, BitVec.toInt_eq_toNat_of_lt h1, BitVec.toNat_ofNat, Nat.mod_eq_of_lt (by omega)]

omit K in
/-- A `size_t` from `2 ^ 63` on is negative as an `int64_t`. -/
theorem toInt64_neg (hn : 2 ^ 63 ≤ n) (hn' : n < 2 ^ 64) : toInt64 n < 0 := by
  rw [toInt64, BitVec.toInt_neg_iff, BitVec.toNat_ofNat, Nat.mod_eq_of_lt hn']
  omega

/-- **An advance by so much** leaves the array. -/
theorem BpIterator.addWith_far {it : BpIterator} (hsz : it.sz ≠ 0) (hcur : it.cur ≤ bpWidth)
    (hn : 2 ^ 63 ≤ n) (hn' : n < 2 ^ 64) : it.addWith cp h n = .error .outOfBounds := by
  have h1 := toInt64_neg hn hn'
  have h2 : bpWidth ≤ 2 ^ 15 := by
    rw [bpWidth_eq]
    exact Nat.pow_le_pow_right (by omega) K.le
  rw [BpIterator.addWith, if_neg (by omega), if_pos (by omega), if_neg (by omega)]

/-- An offset that is the last digit of `p` is its slot in the leaf. -/
theorem BpIterator.slot_of_cur {it : BpIterator} (hcur : it.cur = p % bpWidth) :
    ∃ hlt : it.cur < bpWidth, (⟨it.cur, hlt⟩ : Fin bpWidth) = slot p 0 := by
  refine ⟨by rw [hcur]; exact Nat.mod_lt _ bpWidth_pos, Fin.ext ?_⟩
  rw [slot_zero_val]
  simp [Radix.digit, hcur]

theorem BpIterator.deref_eq {it : BpIterator} (hcur : it.cur = p % bpWidth) :
    it.deref h = Contentious.leaf h it.leaf (slot p 0) := by
  obtain ⟨hlt, hslot⟩ := slot_of_cur hcur
  rw [deref, dif_pos hlt, hslot]

theorem BpIterator.store_eq {it : BpIterator} (hcur : it.cur = p % bpWidth) :
    it.store h x = setLeaf h it.leaf (slot p 0) x := by
  obtain ⟨hlt, hslot⟩ := slot_of_cur hcur
  rw [store, dif_pos hlt, hslot]

namespace BpIterator.At

variable {it jt : BpIterator}

/-- What the walks of others do to a position: nothing. -/
theorem keeps (hit : At cp h v p it) (hP : Placed h Ψ) (hr : v.root < h.next)
    (hk : Keeps cp h h') : At cp h' v p it :=
  { hit with
    root_owned := by rw [hk.id_eq _ hr]; exact hit.root_owned
    path := hit.path.keeps hP hr hk }

/-- The offset and the leaf's place make up the position. -/
theorem pos_eq (hit : At cp h v p it) :
    Radix.pos bpWidth (lastOf v p) 0 * bpWidth + it.cur = p := by
  have h1 := Radix.eq_pos_zero bpWidth (lastOf v p)
  have h2 : lastOf v p ≤ p := min_le_left _ _
  rw [hit.cur_eq]
  simp only [Radix.digit, pow_zero, Nat.div_one] at h1
  omega

theorem cur_le (hit : At cp h v p it) : it.cur ≤ bpWidth := by
  have h1 := Nat.mod_lt (lastOf v p) bpWidth_pos
  have h2 := hit.pos_le
  have h3 : p - lastOf v p ≤ 1 := by simp only [lastOf]; omega
  rw [hit.cur_eq]
  omega

theorem cur_of_lt (hit : At cp h v p it) (hp : p < v.sz) : it.cur = p % bpWidth := by
  have h1 : lastOf v p = p := min_eq_left (by omega)
  rw [hit.cur_eq, h1, Nat.sub_self, Nat.add_zero]

/-- The path of a position below the size is that of the element. -/
theorem path_of_lt (hit : At cp h v p it) (hp : p < v.sz) :
    Settled cp h p v.levels v.levels v.root it.leaf := by
  have h1 : lastOf v p = p := min_eq_left (by omega)
  rw [← h1]
  exact hit.path

/-- Where the leaf stands. -/
theorem leaf_place (hit : At cp h v p it) (hP : Placed h Ψ) (hv : Holds h Ψ v L) :
    it.leaf < h.next ∧ Ψ it.leaf = onPath (lastOf v p) 0 := by
  have hlt : lastOf v p < bpWidth ^ (v.levels + 1) := hv.lt_capacity (by
    simp only [lastOf]
    omega)
  have hw := hP.walk_place hv.root_lt (hv.root_onPath hlt) hit.path.walk
  rwa [Nat.sub_self] at hw

/-- **Iterators are equal where their positions are.** -/
theorem eq_iff (hit : At cp h v p it) (hjt : At cp h v q jt) (hP : Placed h Ψ)
    (hv : Holds h Ψ v L) : it.eq jt = true ↔ p = q := by
  rw [BpIterator.eq, Bool.and_eq_true, decide_eq_true_iff, decide_eq_true_iff]
  constructor
  · rintro ⟨hleaf, hcur⟩
    have hpos : Radix.pos bpWidth (lastOf v p) 0 = Radix.pos bpWidth (lastOf v q) 0 := by
      have h1 := (hit.leaf_place hP hv).2
      rw [hleaf, (hjt.leaf_place hP hv).2] at h1
      exact (congrArg Place.pos h1).symm
    rw [← hit.pos_eq, ← hjt.pos_eq, hpos, hcur]
  · rintro rfl
    have h1 := hit.path.walk
    rw [hjt.path.walk] at h1
    exact ⟨(Except.ok.inj h1).symm, by rw [hit.cur_eq, hjt.cur_eq]⟩

/-- **`*it`** -/
theorem deref (hit : At cp h v p it) (hv : Holds h Ψ v L) (hp : p < L.length) :
    it.deref h = .ok L[p] := by
  have hp' : p < v.sz := by rw [hv.size]; exact hp
  have hread := hv.read p hp
  rw [readAt_of_walk le_rfl (hit.path_of_lt hp').walk, Nat.sub_self, readAt] at hread
  rw [deref_eq (hit.cur_of_lt hp'), hread]

/-- **`*it = x`** writes the element, in the leaf at hand. -/
theorem store (hit : At cp h v p it) (hP : Placed h Ψ) (hv : Holds h Ψ v L) (hp : p < L.length)
    (x : T) :
    ∃ h', it.store h x = .ok h' ∧ Placed h' Ψ ∧ Holds h' Ψ v (L.set p x) ∧ Keeps cp h h' ∧
      h'.next = h.next ∧ ∀ d, d ≠ it.leaf → h'.cell d = h.cell d := by
  have hp' : p < v.sz := by rw [hv.size]; exact hp
  obtain ⟨hleaf, hΨ⟩ := hit.leaf_place hP hv
  have hlast : lastOf v p = p := min_eq_left (by omega)
  rw [hlast] at hΨ
  obtain ⟨c, hu⟩ := hP.leaves_of_level hleaf (by rw [hΨ]; rfl)
  have hset : it.store h x =
      .ok (h.write it.leaf ⟨.leaves (Function.update c (slot p 0) x), (h.cell it.leaf).id⟩) := by
    rw [store_eq (hit.cur_of_lt hp'), setLeaf_of hu]
  have hset' := hset
  rw [store_eq (hit.cur_of_lt hp')] at hset'
  obtain ⟨hn, -, hcell⟩ := setLeaf_cell hset'
  refine ⟨_, hset, hP.setLeaf hu _ _, ?_, .setLeaf hset', hn, hcell⟩
  refine ⟨hv.root_lt, hv.root_place, by rw [List.length_set]; exact hv.size,
    by rw [List.length_set]; exact hv.fits, by rw [List.length_set]; exact hv.tight, ?_⟩
  intro l hl
  rw [List.length_set] at hl
  rw [List.getElem_set]
  split
  · next heq =>
    subst heq
    rw [readAt_of_walk le_rfl ((walk_setLeaf hu _ _ _).trans (hit.path_of_lt hp').walk),
      Nat.sub_self]
    exact leaf_eq_ok.2 ⟨_, by rw [Store.write_cell_self], Function.update_self ..⟩
  · next hne =>
    exact hP.read_setLeaf hu hΨ hv.root_lt
      (hv.root_onPath (hv.lt_capacity (.inl (by rw [hv.size]; exact hl)))) (Ne.symm hne)
      (hv.read l hl)

/-! ## Moving -/

/-- The heap after a walk of the owner, and an iterator that stands at `p`. -/
structure Came (cp : Id → Bool) (h : Heap T) (Ψ : Addr → Place) (h' : Heap T)
    (Ψ' : Addr → Place) (v : BpVector) (p : ℕ) (it : BpIterator) : Prop where
  ext : Ext h Ψ h' Ψ'
  keeps : Keeps cp h h'
  stands : At cp h' v p it

/-- **`++it`** goes one on. -/
theorem nextWith (hit : At cp h v p it) (hcp : cp v.id = false) (hP : Placed h Ψ)
    (hv : Holds h Ψ v L) (hp : p < v.sz) (hsz : v.sz ≤ 2 ^ 63) :
    ∃ h' it' Ψ', it.nextWith cp h = .ok (h', it') ∧ Came cp h Ψ h' Ψ' v (p + 1) it' := by
  have hcur := hit.cur_of_lt hp
  have hbase := hit.base_eq hp
  have hmod := Nat.mod_lt p bpWidth_pos
  have hlast : lastOf v p = p := min_eq_left (by omega)
  have hnext : lastOf v (p + 1) = p + 1 ∧ p + 1 < v.sz ∨ lastOf v (p + 1) = p ∧ p + 1 = v.sz := by
    simp only [lastOf]
    omega
  rw [BpIterator.nextWith, if_neg (by omega)]
  dsimp only
  split
  · -- within the leaf
    next hne =>
    refine ⟨h, _, Ψ, rfl, .refl hP, .refl, ?_⟩
    have hmod1 : (p + 1) % bpWidth = p % bpWidth + 1 := by
      rw [Nat.add_mod, Nat.mod_eq_of_lt one_lt_bpWidth, Nat.mod_eq_of_lt (by omega)]
    refine ⟨hit.root_eq, hit.levels_eq, hit.sz_eq, hit.id_eq, by omega, hit.root_owned, ?_, ?_, ?_⟩
    · refine (hit.path_of_lt hp).congr le_rfl ?_
      rw [Nat.sub_self]
      rcases hnext with ⟨h1, -⟩ | ⟨h1, -⟩
      · rw [h1]
        simp only [Radix.pos, zero_add, pow_one]
        rw [Nat.succ_div_of_not_dvd fun hd => by
          have := Nat.mod_eq_zero_of_dvd hd
          omega]
      · rw [h1]
    · dsimp only
      rcases hnext with ⟨h1, -⟩ | ⟨h1, -⟩
      · rw [h1, Nat.sub_self, hmod1, hcur, Nat.add_zero]
      · rw [h1, hcur]
        omega
    · intro _
      dsimp only
      omega
  · next heq =>
    have heq' : it.cur + 1 = bpWidth := not_not.1 heq
    have hi : sizeT (it.i + bpWidth) = p + 1 := by
      rw [sizeT, Nat.mod_eq_of_lt (by omega)]
      omega
    have hsz' := hit.sz_eq
    rw [hi]
    split
    · -- the end of a full leaf
      next hend =>
      refine ⟨h, _, Ψ, rfl, .refl hP, .refl, ?_⟩
      have h1 : lastOf v (p + 1) = p := by simp only [lastOf]; omega
      refine ⟨hit.root_eq, hit.levels_eq, hit.sz_eq, hit.id_eq, by omega, hit.root_owned,
        ?_, ?_, ?_⟩
      · rw [h1]
        exact hit.path_of_lt hp
      · dsimp only
        rw [h1, hcur]
        omega
      · intro h2
        omega
    · next hnend =>
      have hlt : p + 1 < v.sz := by omega
      obtain ⟨h', leaf, Ψ', hs, e, hk, hpath⟩ := hv.seekWith
        { it with i := p + 1, cur := it.cur + 1 } hcp hP hit.root_eq hit.levels_eq hit.id_eq
        (.inl hlt) 0
      have h1 : lastOf v (p + 1) = p + 1 := min_eq_left (by omega)
      have hmod1 : (p + 1) % bpWidth = 0 := by
        rw [show p + 1 = bpWidth * (p / bpWidth + 1) by
          have := Nat.div_add_mod p bpWidth
          rw [Nat.mul_add, Nat.mul_one]
          omega]
        exact Nat.mul_mod_right _ _
      refine ⟨h', _, Ψ', hs, e, hk, ⟨hit.root_eq, hit.levels_eq, hit.sz_eq, hit.id_eq, hlt.le, ?_,
        ?_, ?_, fun _ => rfl⟩⟩
      · rw [hk.id_eq _ hv.root_lt]
        exact hit.root_owned
      · rw [h1]
        exact hpath
      · dsimp only
        rw [h1, hmod1]
        omega

/-- **`it + n`** goes `n` on, and stops at the end, unless it is left in a
leaf that has room past the end. -/
theorem addWith (hit : At cp h v p it) (hbase : it.i + it.cur = p) (hcp : cp v.id = false)
    (hP : Placed h Ψ) (hv : Holds h Ψ v L) (hn : n < 2 ^ 63) (hsz : v.sz ≤ 2 ^ 63)
    (hroom : p + n ≤ v.sz ∨ bpWidth ≤ it.cur + n) :
    ∃ h' it' Ψ', it.addWith cp h n = .ok (h', it') ∧
      Came cp h Ψ h' Ψ' v (min (p + n) v.sz) it' ∧ it'.i + it'.cur = min (p + n) v.sz := by
  have hle := hit.pos_le
  rw [BpIterator.addWith]
  split
  · next h0 =>
    have hmin : min (p + n) v.sz = p := by
      have := hit.sz_eq
      omega
    rw [hmin]
    exact ⟨h, it, Ψ, rfl, ⟨.refl hP, .refl, hit⟩, hbase⟩
  · next h0 =>
    have hsz0 : v.sz ≠ 0 := by
      have := hit.sz_eq
      omega
    rw [toInt64_of_lt hn]
    split
    · -- within the leaf
      next hfast =>
      have hpn : p + n ≤ v.sz := by omega
      have hp : p < v.sz := by omega
      have hcur := hit.cur_of_lt hp
      rw [if_pos (by omega)]
      have hmin : min (p + n) v.sz = p + n := min_eq_left hpn
      rw [hmin]
      refine ⟨h, _, Ψ, rfl, ⟨.refl hP, .refl, ?_⟩, by dsimp only; omega⟩
      -- all indices up to `p + n` lie in the leaf
      have hleaf : ∀ m ≤ n, Radix.pos bpWidth p 0 = Radix.pos bpWidth (p + m) 0 ∧
          (p + m) % bpWidth = p % bpWidth + m := by
        intro m hm
        have h1 : p % bpWidth + m < bpWidth := by omega
        have h2 := Nat.div_add_mod p bpWidth
        have h3 : p + m = bpWidth * (p / bpWidth) + (p % bpWidth + m) := by omega
        constructor
        · simp only [Radix.pos, zero_add, pow_one]
          rw [h3, Nat.mul_add_div bpWidth_pos, Nat.div_eq_of_lt h1, Nat.add_zero]
        · rw [h3, Nat.mul_add_mod, Nat.mod_eq_of_lt h1]
      have hlast : ∃ m ≤ n, lastOf v (p + n) = p + m ∧ p + n - lastOf v (p + n) = n - m := by
        rcases Nat.lt_or_ge (p + n) v.sz with hlt | hge
        · exact ⟨n, le_rfl, by simp only [lastOf]; omega, by simp only [lastOf]; omega⟩
        · exact ⟨n - 1, by omega, by simp only [lastOf]; omega, by simp only [lastOf]; omega⟩
      obtain ⟨m, hm, h1, h2⟩ := hlast
      obtain ⟨hpos, hmod⟩ := hleaf m hm
      refine ⟨hit.root_eq, hit.levels_eq, hit.sz_eq, hit.id_eq, hpn, hit.root_owned, ?_, ?_,
        fun _ => by dsimp only; omega⟩
      · rw [h1]
        refine (hit.path_of_lt hp).congr le_rfl ?_
        rw [Nat.sub_self]
        exact hpos
      · dsimp only
        rw [h1, ← h1, h2, h1, hmod, hcur]
        omega
    · next hslow =>
      have hcle := hit.cur_le
      have hsum : sizeT (it.i + (bpWidth - (bpWidth - it.cur)) + n) = p + n := by
        rw [sizeT, Nat.mod_eq_of_lt (by omega)]
        omega
      rw [hsum]
      -- where it goes, and whether one past that
      obtain ⟨i, pp, hpair, hi, hval, hpp⟩ : ∃ i pp,
          (if p + n ≥ it.sz then (it.sz - 1, 1) else (p + n, 0)) = (i, pp) ∧
          i < v.sz ∧ i + pp = min (p + n) v.sz ∧ i = lastOf v (min (p + n) v.sz) := by
        rw [hit.sz_eq]
        split
        · exact ⟨_, _, rfl, by omega, by omega, by simp only [lastOf]; omega⟩
        · exact ⟨_, _, rfl, by omega, by omega, by simp only [lastOf]; omega⟩
      dsimp only
      rw [hpair]
      obtain ⟨h', leaf, Ψ', hs, e, hk, hpath⟩ := hv.seekWith { it with i := i } hcp hP
        hit.root_eq hit.levels_eq hit.id_eq (.inl hi) ((i &&& bpMask) + pp)
      have hmodle : i % bpWidth ≤ i := Nat.mod_le _ _
      dsimp only
      rw [hs, Exec.ok_bind]
      simp only [and_bpMask]
      refine ⟨h', _, Ψ', rfl, ⟨e, hk, ⟨hit.root_eq, hit.levels_eq, hit.sz_eq, hit.id_eq,
        min_le_right _ _, ?_, ?_, ?_, fun _ => by dsimp only; omega⟩⟩, by dsimp only; omega⟩
      · rw [hk.id_eq _ hv.root_lt]
        exact hit.root_owned
      · rw [← hpp]
        exact hpath
      · dsimp only
        rw [← hpp]
        omega

end BpIterator.At

/-- **`begin()`** stands at zero, and owns the root. -/
theorem Holds.beginWith (hcp : cp v.id = false) (hP : Placed h Ψ) (hv : Holds h Ψ v L) :
    ∃ h' r' it Ψ', BpIterator.beginWith cp h v = .ok (h', { v with root := r' }, it) ∧
      BpIterator.At.Came cp h Ψ h' Ψ' { v with root := r' } 0 it ∧ it.i + it.cur = 0 ∧
      Holds h' Ψ' { v with root := r' } L ∧ (cp (h.cell v.root).id = false → r' = v.root) := by
  obtain ⟨h₁, r', Ψ₁, ho, e₁, hr', hΨ₁, hread₁⟩ := ownRoot_spec cp v.id hP hv.root_lt
  have hv₁ : Holds h₁ Ψ₁ { v with root := r' } L :=
    ⟨hr', by rw [hΨ₁]; exact hv.root_place, hv.size, hv.fits, hv.tight,
      fun i hi => hread₁ _ _ _ (hv.read i hi)⟩
  have hk₁ := ownRoot_keeps cp v.id h v.root
  have hown := ownRoot_owned hcp h v.root
  rw [ho] at hk₁ hown
  obtain ⟨h', leaf, Ψ', hs, e, hk, hpath⟩ := Holds.seekWith
    (v := { v with root := r' }) ⟨r', v.levels, 0, v.sz, v.id, r', 0⟩ hcp e₁.placed hv₁ rfl rfl rfl
    (by dsimp only; omega) 0
  have hlast : lastOf { v with root := r' } 0 = 0 := Nat.zero_min _
  refine ⟨h', r', ⟨r', v.levels, 0, v.sz, v.id, leaf, 0⟩, Ψ', ?_, ⟨e₁.trans e, hk₁.trans hk,
    ⟨rfl, rfl, rfl, rfl, Nat.zero_le _, ?_, ?_, ?_, fun _ => rfl⟩⟩, rfl, hv₁.of_ext e, ?_⟩
  · rw [BpIterator.beginWith, ho]
    dsimp only
    rw [hs, Exec.ok_bind]
  · rw [hk.id_eq _ hr']
    exact hown
  · rw [hlast]
    exact hpath
  · rw [hlast, Nat.zero_mod]
  · intro hroot
    rw [ownRoot, hroot] at ho
    cases ho
    rfl

/-! ## The const iterator -/

/-- The test of the const iterator, which asks for no copy. -/
abbrev copyNone : Id → Bool := fun _ => false

namespace BpIterator

variable {it it' : BpIterator} {off : ℕ}

/-- It leaves the heap as it is, -/
theorem seekWith_const (he : it.seekWith copyNone h off = .ok (h', it')) : h' = h := by
  obtain ⟨⟨h₁, node⟩, hd, he⟩ := Exec.bind_eq_ok.1 he
  obtain ⟨_, -, he⟩ := Exec.bind_eq_ok.1 he
  cases he
  rw [descend_const] at hd
  obtain ⟨_, -, hd⟩ := Exec.bind_eq_ok.1 hd
  cases hd
  rfl

theorem beginWith_const {v' : BpVector} (he : beginWith copyNone h v = .ok (h', v', it)) :
    h' = h := by
  obtain ⟨⟨h₁, it₁⟩, hs, he⟩ := Exec.bind_eq_ok.1 he
  cases he
  exact seekWith_const hs

theorem nextWith_const (he : it.nextWith copyNone h = .ok (h', it')) : h' = h := by
  rw [BpIterator.nextWith] at he
  split at he
  · cases he
  · dsimp only at he
    split at he
    · cases he; rfl
    · split at he
      · cases he; rfl
      · exact seekWith_const he

theorem addWith_const (he : it.addWith copyNone h n = .ok (h', it')) : h' = h := by
  rw [BpIterator.addWith] at he
  split at he
  · cases he; rfl
  · split at he
    · split at he
      · cases he; rfl
      · cases he
    · obtain ⟨⟨h₁, it₁⟩, hs, he⟩ := Exec.bind_eq_ok.1 he
      cases he
      exact seekWith_const hs

namespace At

/-- and moves as the other does. -/
theorem cnext (hit : At copyNone h v p it) (hP : Placed h Ψ) (hv : Holds h Ψ v L) (hp : p < v.sz)
    (hsz : v.sz ≤ 2 ^ 63) : ∃ it', it.cnext h = .ok it' ∧ At copyNone h v (p + 1) it' := by
  obtain ⟨h', it', Ψ', he, hc⟩ := hit.nextWith rfl hP hv hp hsz
  have hh := nextWith_const he
  subst hh
  exact ⟨it', by rw [BpIterator.cnext, he, Exec.ok_bind], hc.stands⟩

theorem cadd (hit : At copyNone h v p it) (hbase : it.i + it.cur = p) (hP : Placed h Ψ)
    (hv : Holds h Ψ v L) (hn : n < 2 ^ 63) (hsz : v.sz ≤ 2 ^ 63)
    (hroom : p + n ≤ v.sz ∨ bpWidth ≤ it.cur + n) :
    ∃ it', it.cadd h n = .ok it' ∧ At copyNone h v (min (p + n) v.sz) it' ∧
      it'.i + it'.cur = min (p + n) v.sz := by
  obtain ⟨h', it', Ψ', he, hc, hb⟩ := hit.addWith hbase rfl hP hv hn hsz hroom
  have hh := addWith_const he
  subst hh
  exact ⟨it', by rw [BpIterator.cadd, he, Exec.ok_bind], hc.stands, hb⟩

end At

end BpIterator

/-- `cbegin()` stands at zero. -/
theorem Holds.cbegin (hP : Placed h Ψ) (hv : Holds h Ψ v L) :
    ∃ it, cbegin h v = .ok it ∧ it.At copyNone h v 0 ∧ it.i + it.cur = 0 := by
  obtain ⟨h', r', it, Ψ', he, hc, hb, -, hr⟩ :=
    hv.beginWith (show copyNone v.id = false from rfl) hP
  have hh := BpIterator.beginWith_const he
  have hroot := hr rfl
  subst hh hroot
  exact ⟨it, by rw [BpVector.cbegin, he, Exec.ok_bind], hc.stands, hb⟩

/-- `cbegin() + p`, below the end or at it. -/
theorem Holds.cbegin_add (hP : Placed h Ψ) (hv : Holds h Ψ v L) (hp : p ≤ v.sz)
    (hp' : p < 2 ^ 63) (hsz : v.sz ≤ 2 ^ 63) :
    ∃ it₀ it, BpVector.cbegin h v = .ok it₀ ∧ it₀.cadd h p = .ok it ∧ it.At copyNone h v p ∧
      it.i + it.cur = p := by
  obtain ⟨it₀, he₀, h₀, hb₀⟩ := hv.cbegin hP
  obtain ⟨it, he, hit, hb⟩ := h₀.cadd hb₀ hP hv hp' hsz (.inl (by omega))
  rw [Nat.zero_add, min_eq_left hp] at hit hb
  exact ⟨it₀, it, he₀, he, hit, hb⟩

/-! ## Both kinds -/

/-- Which of the two iterators it is. -/
inductive IterKind
  | mutable
  | const
deriving DecidableEq, Repr

/-- Its copy test, for a vector with the id: the mutable one copies the
nodes that carry another. -/
def IterKind.copies (κ : IterKind) (id : Id) : Id → Bool :=
  match κ with
  | .mutable => fun other => id != other
  | .const => fun _ => false

omit K in
theorem IterKind.copies_self (κ : IterKind) (id : Id) : κ.copies id id = false := by
  cases κ with
  | mutable => simp [copies]
  | const => rfl

/-- `begin()` or `cbegin()` -/
def BpVector.beginOf (κ : IterKind) (h : Heap T) (v : BpVector) :
    Exec (Heap T × BpVector × BpIterator) := BpIterator.beginWith (κ.copies v.id) h v

/-- `it + n` -/
def BpIterator.addOf (κ : IterKind) (h : Heap T) (it : BpIterator) (n : ℕ) :
    Exec (Heap T × BpIterator) := it.addWith (κ.copies it.id) h n

/-- `++it` -/
def BpIterator.nextOf (κ : IterKind) (h : Heap T) (it : BpIterator) : Exec (Heap T × BpIterator) :=
  it.nextWith (κ.copies it.id) h

section

variable {κ : IterKind} {it : BpIterator}

/-- `begin()` stands at zero, -/
theorem Holds.beginOf (κ : IterKind) (hP : Placed h Ψ) (hv : Holds h Ψ v L) :
    ∃ h' r' it Ψ', BpVector.beginOf κ h v = .ok (h', { v with root := r' }, it) ∧
      BpIterator.At.Came (κ.copies v.id) h Ψ h' Ψ' { v with root := r' } 0 it ∧
      it.i + it.cur = 0 ∧ Holds h' Ψ' { v with root := r' } L ∧
      (κ.copies v.id (h.cell v.root).id = false → r' = v.root) :=
  hv.beginWith (κ.copies_self v.id) hP

/-- `+` goes on, -/
theorem BpIterator.At.addOf (hit : it.At (κ.copies v.id) h v p) (hbase : it.i + it.cur = p)
    (hP : Placed h Ψ) (hv : Holds h Ψ v L) (hn : n < 2 ^ 63) (hsz : v.sz ≤ 2 ^ 63)
    (hroom : p + n ≤ v.sz ∨ bpWidth ≤ it.cur + n) :
    ∃ h' it' Ψ', it.addOf κ h n = .ok (h', it') ∧
      Came (κ.copies v.id) h Ψ h' Ψ' v (min (p + n) v.sz) it' ∧
      it'.i + it'.cur = min (p + n) v.sz := by
  rw [BpIterator.addOf, hit.id_eq]
  exact hit.addWith hbase (κ.copies_self v.id) hP hv hn hsz hroom

/-- and `++` goes one on. -/
theorem BpIterator.At.nextOf (hit : it.At (κ.copies v.id) h v p) (hP : Placed h Ψ)
    (hv : Holds h Ψ v L) (hp : p < v.sz) (hsz : v.sz ≤ 2 ^ 63) :
    ∃ h' it' Ψ', it.nextOf κ h = .ok (h', it') ∧
      Came (κ.copies v.id) h Ψ h' Ψ' v (p + 1) it' := by
  rw [BpIterator.nextOf, hit.id_eq]
  exact hit.nextWith (κ.copies_self v.id) hP hv hp hsz

end

/-- **`begin() + p`**, below the end or at it. -/
theorem Holds.begin_add (hP : Placed h Ψ) (hv : Holds h Ψ v L) (hp : p ≤ v.sz) (hp' : p < 2 ^ 63)
    (hsz : v.sz ≤ 2 ^ 63) :
    ∃ h₁ r' it₀ h' it Ψ', BpVector.begin h v = .ok (h₁, { v with root := r' }, it₀) ∧
      it₀.add h₁ p = .ok (h', it) ∧
      BpIterator.At.Came (nodeCopy .tr v.id) h Ψ h' Ψ' { v with root := r' } p it ∧
      Holds h' Ψ' { v with root := r' } L ∧
      (nodeCopy .tr v.id (h.cell v.root).id = false → r' = v.root) := by
  obtain ⟨h₁, r', it₀, Ψ₁, he₁, hc₁, hb₁, hv₁, hr⟩ := hv.beginOf .mutable hP
  obtain ⟨h', it, Ψ', he, hc, -⟩ := hc₁.stands.addOf (κ := .mutable) (n := p) hb₁ hc₁.ext.placed hv₁
    hp' hsz (.inl (by dsimp only; omega))
  have hmin : min (0 + p) v.sz = p := by omega
  rw [hmin] at hc
  exact ⟨h₁, r', it₀, h', it, Ψ', he₁, he, ⟨hc₁.ext.trans hc.ext, hc₁.keeps.trans hc.keeps,
    hc.stands⟩, hv₁.of_ext hc.ext, hr⟩

end Contentious
