import Contentious.Trie.Vector

/-!
# Trie — where a node stands

Every node is made for one place: a level, and a position among the
ranges of that level. It keeps that place whichever vectors come to share
it — a copy takes the place of its original, and a rotation adds a level
above without moving what is below. `Placed h Ψ` says that the heap's
child pointers respect an assignment `Ψ` of places, and it is what makes
each vector a tree although the heap is a graph: a path down to an index
can meet a node only at that node's own place, so a write there is seen
by the indices of that place and by no other.

The second half is the calculus the updates are built from, one lemma for
each kind of write: a node that is made (`Ext.alloc`), a pointer moved to
a copy (`Ext.redirect`), a value (`Placed.setLeaf`).
-/

namespace Contentious

variable [K : BpBits] {T : Type}

/-- A node's place: its level above the leaves, and its position there. -/
structure Place where
  level : ℕ
  pos : ℕ

/-- **The heap respects the places `Ψ`**: leaves at level zero, branches
above, and the child at `k` one level down at the `k`-th position under
its parent. -/
structure Placed (h : Heap T) (Ψ : Addr → Place) : Prop where
  leaves : ∀ a < h.next, ∀ c, (h.cell a).u = .leaves c → (Ψ a).level = 0
  branches : ∀ a < h.next, ∀ c, (h.cell a).u = .branches c → 0 < (Ψ a).level
  child : ∀ a < h.next, ∀ c, (h.cell a).u = .branches c → ∀ k b, c k = some b →
    b < h.next ∧ Ψ b = ⟨(Ψ a).level - 1, (Ψ a).pos * bpWidth + k⟩

/-- The place of the level-`n` node on the path of `i`. -/
def onPath (i n : ℕ) : Place := ⟨n, Radix.pos bpWidth i n⟩

/-- The value at `i` in the subtrie of level `n` at `a`. -/
def readAt (h : Heap T) (i : ℕ) : ℕ → Addr → Exec T
  | 0, a => leaf h a (slot i 0)
  | n + 1, a => do
    let b ← child h a (slot i ((n + 1) * bpBits))
    readAt h i n b

variable {h h' : Heap T} {Ψ Ψ' : Addr → Place} {a b : Addr} {i j k m n : ℕ} {x y : T}

theorem readAt_succ : readAt h i (n + 1) a = .ok y ↔
    ∃ b, child h a (slot i ((n + 1) * bpBits)) = .ok b ∧ readAt h i n b = .ok y :=
  Exec.bind_eq_ok

/-- Walking down and reading on is reading. -/
theorem readAt_of_walk (hkn : k ≤ n) (hw : walk h i k n a = .ok b) :
    readAt h i n a = readAt h i (n - k) b := by
  induction k generalizing n a with
  | zero => cases hw; rfl
  | succ k ih =>
    obtain ⟨c, hc, hw⟩ := Exec.bind_eq_ok.1 hw
    obtain ⟨m, rfl⟩ := Nat.exists_eq_succ_of_ne_zero (by omega : n ≠ 0)
    rw [Nat.succ_sub_one] at hw
    rw [readAt, hc, Exec.ok_bind, ih (by omega) hw, Nat.succ_sub_succ]

/-- What is read lies at the end of a walk. -/
theorem exists_walk_of_readAt (hkn : k ≤ n) (hr : readAt h i n a = .ok y) :
    ∃ b, walk h i k n a = .ok b ∧ readAt h i (n - k) b = .ok y := by
  induction k generalizing n a with
  | zero => exact ⟨a, rfl, hr⟩
  | succ k ih =>
    obtain ⟨m, rfl⟩ := Nat.exists_eq_succ_of_ne_zero (by omega : n ≠ 0)
    obtain ⟨c, hc, hr⟩ := readAt_succ.1 hr
    obtain ⟨b, hb, hr⟩ := ih (by omega) hr
    refine ⟨b, ?_, ?_⟩
    · rw [walk, hc, Exec.ok_bind]; exact hb
    · rwa [show m + 1 - (k + 1) = m - k by omega]

/-- **`operator[]` reads the subtrie at the root.** -/
theorem get_eq_readAt (h : Heap T) (v : BpVector) (i : ℕ) :
    v.get h i = readAt h i v.levels v.root := by
  rw [BpVector.get]
  generalize v.root = a
  generalize v.levels = n
  induction n generalizing a with
  | zero => rfl
  | succ n ih =>
    simp only [walk, readAt, bind_assoc]
    congr 1
    funext b
    exact ih b

theorem walk_append (k l : ℕ) (h : Heap T) (i n : ℕ) (a : Addr) :
    walk h i (k + l) n a = (walk h i k n a >>= fun b => walk h i l (n - k) b) := by
  induction k generalizing n a with
  | zero => simp [walk]
  | succ k ih =>
    rw [Nat.succ_add, walk, walk, bind_assoc]
    congr 1
    funext b
    rw [ih, show n - 1 - k = n - (k + 1) by omega]

/-- A walk depends on the nodes it leaves. -/
theorem walk_of_path (hw : walk h i k n a = .ok b)
    (hcell : ∀ m < k, ∀ c, walk h i m n a = .ok c → (h'.cell c).u = (h.cell c).u) :
    walk h' i k n a = .ok b := by
  induction k generalizing n a with
  | zero => exact hw
  | succ k ih =>
    obtain ⟨d, hd, hw⟩ := Exec.bind_eq_ok.1 hw
    rw [walk, child_congr (hcell 0 (Nat.succ_pos k) a rfl), hd, Exec.ok_bind]
    refine ih hw fun m hm c hc => hcell (m + 1) (Nat.succ_lt_succ hm) c ?_
    rw [walk, hd, Exec.ok_bind]
    exact hc

/-- What is read depends on the nodes on the path. -/
theorem readAt_of_path (hr : readAt h i n a = .ok y)
    (hcell : ∀ m ≤ n, ∀ c, walk h i m n a = .ok c → (h'.cell c).u = (h.cell c).u) :
    readAt h' i n a = .ok y := by
  obtain ⟨b, hw, hb⟩ := exists_walk_of_readAt le_rfl hr
  have hw' := walk_of_path hw fun m hm c hc => hcell m (le_of_lt hm) c hc
  rw [readAt_of_walk le_rfl hw', Nat.sub_self, readAt, leaf_congr (hcell n le_rfl b hw)]
  rwa [Nat.sub_self] at hb

/-! ## Paths in a placed heap -/

namespace Placed

/-- **One step down a path stays on it.** -/
theorem child_place (hP : Placed h Ψ) (ha : a < h.next) (hΨ : Ψ a = onPath i n)
    (hc : Contentious.child h a (slot i (n * bpBits)) = .ok b) :
    0 < n ∧ b < h.next ∧ Ψ b = onPath i (n - 1) := by
  obtain ⟨c, hu, hk⟩ := child_eq_ok.1 hc
  have hn : 0 < n := by simpa [hΨ, onPath] using hP.branches a ha c hu
  obtain ⟨hb, hΨb⟩ := hP.child a ha c hu _ b hk
  refine ⟨hn, hb, ?_⟩
  obtain ⟨m, rfl⟩ := Nat.exists_eq_succ_of_ne_zero hn.ne'
  rw [hΨb, hΨ, onPath, onPath, slot_val]
  simp only [Nat.succ_sub_one]
  rw [Radix.pos_eq bpWidth i m]

theorem walk_place (hP : Placed h Ψ) (ha : a < h.next) (hΨ : Ψ a = onPath i n)
    (hw : walk h i k n a = .ok b) : b < h.next ∧ Ψ b = onPath i (n - k) := by
  induction k generalizing n a with
  | zero => cases hw; exact ⟨ha, hΨ⟩
  | succ k ih =>
    obtain ⟨c, hc, hw⟩ := Exec.bind_eq_ok.1 hw
    obtain ⟨hn, hcn, hΨc⟩ := hP.child_place ha hΨ hc
    rw [show n - (k + 1) = n - 1 - k by omega]
    exact ih hcn hΨc hw

end Placed

/-- The first `k` steps from a level-`n` node follow pointers of nodes
above level `n - k` only. -/
theorem walk_congr_cells (hP : Placed h Ψ) (ha : a < h.next) (hΨ : Ψ a = onPath i n) (hkn : k ≤ n)
    (hcell : ∀ d < h.next, n - k < (Ψ d).level → (h'.cell d).u = (h.cell d).u) :
    walk h' i k n a = walk h i k n a := by
  induction k generalizing n a with
  | zero => rfl
  | succ k ih =>
    have hlev : n - (k + 1) < (Ψ a).level := by rw [hΨ]; simp only [onPath]; omega
    rw [walk, walk, child_congr (hcell a ha hlev)]
    cases hc : child h a (slot i (n * bpBits)) with
    | error e => rfl
    | ok b =>
      obtain ⟨hn, hb, hΨb⟩ := hP.child_place ha hΨ hc
      exact ih hb hΨb (by omega) fun d hd hlev => hcell d hd (by omega)

/-! ## Extensions

`Ext h Ψ h' Ψ'`: the heap may have grown and pointers may have moved, but
every node of `h` keeps its place and reads as it did. -/

/-- The nodes of `h` keep their places and what they read. -/
structure Ext (h : Heap T) (Ψ : Addr → Place) (h' : Heap T) (Ψ' : Addr → Place) : Prop where
  next_le : h.next ≤ h'.next
  place : ∀ a < h.next, Ψ' a = Ψ a
  placed : Placed h' Ψ'
  read : ∀ a < h.next, ∀ n i y, readAt h i n a = .ok y → readAt h' i n a = .ok y

namespace Ext

theorem refl (hP : Placed h Ψ) : Ext h Ψ h Ψ := ⟨le_rfl, fun _ _ => rfl, hP, fun _ _ _ _ _ hy => hy⟩

theorem trans {h'' : Heap T} {Ψ'' : Addr → Place} (e₁ : Ext h Ψ h' Ψ') (e₂ : Ext h' Ψ' h'' Ψ'') :
    Ext h Ψ h'' Ψ'' where
  next_le := le_trans e₁.next_le e₂.next_le
  place a ha := by rw [e₂.place a (lt_of_lt_of_le ha e₁.next_le), e₁.place a ha]
  placed := e₂.placed
  read a ha n i y hy := e₂.read a (lt_of_lt_of_le ha e₁.next_le) n i y (e₁.read a ha n i y hy)

end Ext

/-- Where the cells of `h` are still there, reads are still there. -/
theorem Placed.read_of_cells (hP : Placed h Ψ) (hcell : ∀ a < h.next, (h'.cell a).u = (h.cell a).u)
    (ha : a < h.next) (hy : readAt h i n a = .ok y) : readAt h' i n a = .ok y := by
  induction n generalizing a with
  | zero => rw [readAt, leaf_congr (hcell a ha)]; exact hy
  | succ n ih =>
    obtain ⟨b, hb, hy⟩ := readAt_succ.1 hy
    obtain ⟨c, hu, hk⟩ := child_eq_ok.1 hb
    have hbn := (hP.child a ha c hu _ b hk).1
    exact readAt_succ.2 ⟨b, by rw [child_congr (hcell a ha)]; exact hb, ih hbn hy⟩

/-! ## Allocating a node -/

/-- The places once the address `t` is given the place `q`. -/
def placeAt (Ψ : Addr → Place) (t : Addr) (q : Place) : Addr → Place :=
  fun a => if a = t then q else Ψ a

omit K in
@[simp] theorem placeAt_self (Ψ : Addr → Place) (t : Addr) (q : Place) : placeAt Ψ t q t = q :=
  if_pos rfl

omit K in
theorem placeAt_old {t : Addr} {q : Place} (h : a ≠ t) : placeAt Ψ t q a = Ψ a := if_neg h

/-- A node fits the place `q` of a heap: a leaf at level zero, or a
branch whose children are placed below it. -/
def Fits (h : Heap T) (Ψ : Addr → Place) (n : BpNode T) (q : Place) : Prop :=
  match n.u with
  | .leaves _ => q.level = 0
  | .branches c => 0 < q.level ∧ ∀ k b, c k = some b →
      b < h.next ∧ Ψ b = ⟨q.level - 1, q.pos * bpWidth + k⟩

/-- What stands at a place fits it. -/
theorem Placed.fits (hP : Placed h Ψ) (ha : a < h.next) : Fits h Ψ (h.cell a) (Ψ a) := by
  simp only [Fits]
  cases hu : (h.cell a).u with
  | leaves c => exact hP.leaves a ha c hu
  | branches c => exact ⟨hP.branches a ha c hu, hP.child a ha c hu⟩

theorem placed_of_fits (hf : ∀ a < h.next, Fits h Ψ (h.cell a) (Ψ a)) : Placed h Ψ where
  leaves a ha c hu := by have := hf a ha; rw [Fits, hu] at this; exact this
  branches a ha c hu := by have := hf a ha; rw [Fits, hu] at this; exact this.1
  child a ha c hu := by have := hf a ha; rw [Fits, hu] at this; exact this.2

/-- Fitting survives any change that keeps the addresses in use and their places. -/
theorem Fits.mono {nd : BpNode T} {q : Place} (hf : Fits h Ψ nd q) (hn : h.next ≤ h'.next)
    (hΨ : ∀ a < h.next, Ψ' a = Ψ a) : Fits h' Ψ' nd q := by
  simp only [Fits] at hf ⊢
  cases hu : nd.u with
  | leaves c => rw [hu] at hf; exact hf
  | branches c =>
    rw [hu] at hf
    refine ⟨hf.1, fun k b hk => ?_⟩
    obtain ⟨hb, hΨb⟩ := hf.2 k b hk
    exact ⟨lt_of_lt_of_le hb hn, by rw [hΨ b hb, hΨb]⟩

/-- **A node that fits its place may be allocated there.** -/
theorem Ext.alloc (hP : Placed h Ψ) {nd : BpNode T} {q : Place} (hf : Fits h Ψ nd q) :
    Ext h Ψ (h.alloc nd).1 (placeAt Ψ h.next q) where
  next_le := Nat.le_succ _
  place a ha := placeAt_old (Nat.ne_of_lt ha)
  placed := by
    refine placed_of_fits fun a ha => ?_
    have hold : ∀ b < h.next, placeAt Ψ h.next q b = Ψ b := fun b hb =>
      placeAt_old (Nat.ne_of_lt hb)
    by_cases hn : a = h.next
    · subst hn
      rw [Store.alloc_cell_new, placeAt_self]
      exact hf.mono (Nat.le_succ _) hold
    · have ha' : a < h.next := Nat.lt_of_le_of_ne (Nat.le_of_lt_succ ha) hn
      rw [Store.alloc_cell_old ha', hold a ha']
      exact (hP.fits ha').mono (Nat.le_succ _) hold
  read a ha n i y hy := hP.read_of_cells (fun b hb => by rw [Store.alloc_cell_old hb]) ha hy

/-- Nodes with the same array read the same. -/
theorem readAt_congr {a' : Addr} (hu : (h.cell a').u = (h.cell a).u) :
    readAt h i n a' = readAt h i n a := by
  cases n with
  | zero => exact leaf_congr hu
  | succ n => rw [readAt, readAt, child_congr hu]

/-- A copy has the array of its original. -/
theorem copyNode_u (ha : a < h.next) (id : Id) :
    ((copyNode h a id).1.cell (copyNode h a id).2).u = ((copyNode h a id).1.cell a).u := by
  have hold : (copyNode h a id).1.cell a = h.cell a := Store.alloc_cell_old ha
  rw [hold]
  simp [copyNode]

/-! ## Writing a branch -/

/-- The places allow a child pointer to be set to what stands at the
child's place. -/
theorem Placed.setChild (hP : Placed h Ψ) (ha : a < h.next) {c : Fin bpWidth → Option Addr}
    (hu : (h.cell a).u = .branches c) {s : Fin bpWidth} (hb : b < h.next)
    (hΨb : Ψ b = ⟨(Ψ a).level - 1, (Ψ a).pos * bpWidth + s⟩) :
    Placed (h.write a ⟨.branches (Function.update c s (some b)), (h.cell a).id⟩) Ψ := by
  refine placed_of_fits fun d hd => ?_
  by_cases hda : d = a
  · subst hda
    rw [Store.write_cell_self]
    refine ⟨hP.branches d ha c hu, fun t e hte => ?_⟩
    by_cases hts : t = s
    · subst hts
      rw [Function.update_self] at hte
      cases hte
      exact ⟨hb, hΨb⟩
    · rw [Function.update_of_ne hts] at hte
      exact hP.child d ha c hu t e hte
  · rw [Store.write_cell_ne hda]
    exact (hP.fits hd).mono le_rfl fun _ _ => rfl

/-- **A pointer may be moved to a node that reads the same.** -/
theorem Ext.redirect (hP : Placed h Ψ) (ha : a < h.next) {c : Fin bpWidth → Option Addr}
    (hu : (h.cell a).u = .branches c) {s : Fin bpWidth} {d : Addr} (hs : c s = some b)
    (hd : d < h.next) (hΨd : Ψ d = Ψ b)
    (hread : ∀ n i y, readAt h i n b = .ok y → readAt h i n d = .ok y) :
    Ext h Ψ (h.write a ⟨.branches (Function.update c s (some d)), (h.cell a).id⟩) Ψ := by
  have hΨb := (hP.child a ha c hu s b hs).2
  refine ⟨le_rfl, fun _ _ => rfl, hP.setChild ha hu hd (hΨd.trans hΨb), ?_⟩
  intro e he n
  induction n generalizing e with
  | zero =>
    intro i y hy
    by_cases hea : e = a
    · subst hea
      obtain ⟨l, hl, -⟩ := leaf_eq_ok.1 hy
      rw [hu] at hl
      exact nomatch hl
    · exact (leaf_congr (congrArg BpNode.u (Store.write_cell_ne hea))).trans hy
  | succ n ih =>
    intro i y hy
    obtain ⟨f, hf, hy⟩ := readAt_succ.1 hy
    obtain ⟨c', hu', hk⟩ := child_eq_ok.1 hf
    have hfn := (hP.child e he c' hu' _ f hk).1
    by_cases hea : e = a
    · subst hea
      rw [hu] at hu'
      cases hu'
      by_cases hts : slot i ((n + 1) * bpBits) = s
      · -- the moved pointer: the new target reads what the old one read
        rw [hts, hs] at hk
        cases hk
        refine readAt_succ.2 ⟨d, child_of (by rw [Store.write_cell_self]) ?_,
          ih d hd i y (hread n i y hy)⟩
        rw [hts, Function.update_self]
      · refine readAt_succ.2 ⟨f, child_of (by rw [Store.write_cell_self]) ?_, ih f hfn i y hy⟩
        rw [Function.update_of_ne hts, hk]
    · refine readAt_succ.2 ⟨f, ?_, ih f hfn i y hy⟩
      exact (child_congr (congrArg BpNode.u (Store.write_cell_ne hea))).trans hf

/-- **A pointer set to another subtrie is seen only at its place.** -/
theorem Placed.read_setChild (hP : Placed h Ψ) (ha : a < h.next) {c : Fin bpWidth → Option Addr}
    (hu : (h.cell a).u = .branches c) {s : Fin bpWidth} {p : Option Addr} {d : Addr}
    (hd : d < h.next) (hΨd : Ψ d = onPath j n)
    (hne : Radix.pos bpWidth j ((Ψ a).level - 1) ≠ (Ψ a).pos * bpWidth + s)
    (hy : readAt h j n d = .ok y) :
    readAt (h.write a ⟨.branches (Function.update c s p), (h.cell a).id⟩) j n d = .ok y := by
  induction n generalizing d with
  | zero =>
    by_cases hda : d = a
    · subst hda
      obtain ⟨l, hl, -⟩ := leaf_eq_ok.1 hy
      rw [hu] at hl
      exact nomatch hl
    · exact (leaf_congr (congrArg BpNode.u (Store.write_cell_ne hda))).trans hy
  | succ n ih =>
    obtain ⟨f, hf, hy⟩ := readAt_succ.1 hy
    obtain ⟨-, hfn, hΨf⟩ := hP.child_place hd hΨd hf
    refine readAt_succ.2 ⟨f, ?_, ih hfn hΨf hy⟩
    by_cases hda : d = a
    · subst hda
      obtain ⟨c', hu', hk⟩ := child_eq_ok.1 hf
      rw [hu] at hu'
      cases hu'
      refine child_of (by rw [Store.write_cell_self]) ?_
      have hts : slot j ((n + 1) * bpBits) ≠ s := by
        rintro rfl
        apply hne
        rw [hΨd, slot_val]
        exact Radix.pos_eq bpWidth j n
      rw [Function.update_of_ne hts, hk]
    · exact (child_congr (congrArg BpNode.u (Store.write_cell_ne hda))).trans hf

/-! ## Writing a leaf -/

theorem Placed.setLeaf (hP : Placed h Ψ) {c : Fin bpWidth → T}
    (hu : (h.cell a).u = .leaves c) (s : Fin bpWidth) (x : T) :
    Placed (h.write a ⟨.leaves (Function.update c s x), (h.cell a).id⟩) Ψ := by
  refine placed_of_fits fun d hd => ?_
  by_cases hda : d = a
  · subst hda
    rw [Store.write_cell_self]
    exact hP.leaves d hd c hu
  · rw [Store.write_cell_ne hda]
    exact (hP.fits hd).mono le_rfl fun _ _ => rfl

/-- Writing a value moves no pointer, -/
theorem child_setLeaf {c : Fin bpWidth → T} (hu : (h.cell a).u = .leaves c) (s t : Fin bpWidth)
    (x : T) (d : Addr) :
    child (h.write a ⟨.leaves (Function.update c s x), (h.cell a).id⟩) d t = child h d t := by
  by_cases hda : d = a
  · subst hda
    simp only [child, BpNode.asBranches, Store.write_cell_self, hu]
  · exact child_congr (by rw [Store.write_cell_ne hda])

/-- so every walk is the walk it was, -/
theorem walk_setLeaf {c : Fin bpWidth → T} (hu : (h.cell a).u = .leaves c) (s : Fin bpWidth)
    (x : T) (d : Addr) :
    walk (h.write a ⟨.leaves (Function.update c s x), (h.cell a).id⟩) i k n d = walk h i k n d := by
  induction k generalizing n d with
  | zero => rfl
  | succ k ih =>
    rw [walk, walk, child_setLeaf hu]
    congr 1
    funext b
    exact ih b

/-- **and it is seen only at its own index.** -/
theorem Placed.read_setLeaf (hP : Placed h Ψ) {c : Fin bpWidth → T}
    (hu : (h.cell a).u = .leaves c) (hΨa : Ψ a = onPath i 0) {d : Addr} (hd : d < h.next)
    (hΨd : Ψ d = onPath j n) (hji : j ≠ i) (hy : readAt h j n d = .ok y) :
    readAt (h.write a ⟨.leaves (Function.update c (slot i 0) x), (h.cell a).id⟩) j n d = .ok y := by
  obtain ⟨b, hw, hb⟩ := exists_walk_of_readAt le_rfl hy
  have hw' := hw
  rw [← walk_setLeaf hu (slot i 0) x d] at hw'
  rw [readAt_of_walk le_rfl hw', Nat.sub_self]
  rw [Nat.sub_self] at hb
  obtain ⟨-, hΨb⟩ := hP.walk_place hd hΨd hw
  rw [Nat.sub_self] at hΨb
  by_cases hba : b = a
  · subst hba
    obtain ⟨c', hu', hk⟩ := leaf_eq_ok.1 hb
    rw [hu] at hu'
    cases hu'
    refine leaf_eq_ok.2 ⟨_, by rw [Store.write_cell_self], ?_⟩
    have hpos : Radix.pos bpWidth j 0 = Radix.pos bpWidth i 0 :=
      congrArg Place.pos (hΨb.symm.trans hΨa)
    have hs : slot j 0 ≠ slot i 0 := by
      intro hs
      refine hji (Radix.eq_of_pos_zero hpos ?_)
      rw [← slot_zero_val, ← slot_zero_val, hs]
    rw [Function.update_of_ne hs, hk]
  · exact (leaf_congr (congrArg BpNode.u (Store.write_cell_ne hba))).trans hb

end Contentious
