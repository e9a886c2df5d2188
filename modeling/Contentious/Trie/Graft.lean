import Contentious.Trie.Copy

/-!
# Trie — grafting branches

A graft copies child pointers between two nodes of one place: from then on
the subtries under them are shared. It is seen by the indices under the
slots that were copied, which read what the other vector does, and by no
other (`Beside.graft`): writing a node is not seen off its place
(`Placed.read_off`), nor below it.
-/

namespace Contentious

open BpVector

variable [K : BpBits] {T : Type}
variable {h h' : Heap T} {Ψ : Addr → Place} {a b src dst r' : Addr} {d i j k n s lo hi : ℕ} {y : T}
variable {cp : Id → Bool} {id : Id} {v o : BpVector} {L M : List T}

/-! ## Finding the node -/

/-- **`get_branch` descends** one level less than the depth it is given. -/
theorem branchFrom_eq (hdn : d < n) (hd : d < 255) :
    branchFrom cp id i n (d + 1) h a = (do
      let (h, b) ← descend cp id i d n h a
      .ok (h, b, 0)) := by
  induction d generalizing n h a with
  | zero =>
    obtain ⟨m, rfl⟩ := Nat.exists_eq_succ_of_ne_zero (by omega : n ≠ 0)
    rfl
  | succ d ih =>
    obtain ⟨m, rfl⟩ := Nat.exists_eq_succ_of_ne_zero (by omega : n ≠ 0)
    have hdepth : (d + 1 + 1 + 255) % 256 = d + 1 := by omega
    rw [branchFrom, descend, hdepth]
    dsimp only
    rw [if_neg (Nat.succ_ne_zero d), bind_assoc]
    congr 1
    funext p
    exact ih (by omega) (by omega)

theorem Placed.branches_of_level (hP : Placed h Ψ) (ha : a < h.next) (hΨ : 0 < (Ψ a).level) :
    ∃ c, (h.cell a).u = .branches c := by
  cases hu : (h.cell a).u with
  | leaves l => exact absurd (hP.leaves a ha l hu) hΨ.ne'
  | branches c => exact ⟨c, rfl⟩

/-- **`get_branch` of the vector that is read** is the end of a walk. -/
theorem getBranchConst_of_walk {c : Fin bpWidth → Option Addr} (hk : k < v.levels) (hk' : k < 255)
    (hw : walk h i k v.levels v.root = .ok b) (hu : (h.cell b).u = .branches c) :
    getBranchConst h v (k + 1) i = .ok b := by
  have hroot : ownRoot (fun _ => false) v.id h v.root = (h, v.root) := if_neg (by simp)
  rw [getBranchConst, branchWith, hroot]
  dsimp only
  rw [branchFrom_eq hk hk', descend_const, hw]
  simp only [Exec.ok_bind, if_true, BpNode.asBranches, hu]

/-- It is there where the index has the place of an element. -/
theorem Holds.getBranchConst {e : ℕ} (hP : Placed h Ψ) (ho : Holds h Ψ o M) (hk : k < o.levels)
    (hk' : k < 255) (he : e < M.length)
    (hie : Radix.pos bpWidth i (o.levels - k) = Radix.pos bpWidth e (o.levels - k)) :
    ∃ b c, BpVector.getBranchConst h o (k + 1) i = .ok b ∧ walk h i k o.levels o.root = .ok b ∧
      b < h.next ∧ Ψ b = onPath i (o.levels - k) ∧ (h.cell b).u = .branches c := by
  obtain ⟨b, hw, -⟩ := exists_walk_of_readAt hk.le (ho.read e he)
  have hwi := ((settled_of_walk hw).congr hk.le hie.symm).walk
  have hiW : i < bpWidth ^ (o.levels + 1) :=
    Radix.lt_of_pos_eq bpWidth_pos hie (Nat.sub_le _ _) (lt_of_lt_of_le he ho.fits)
  obtain ⟨hb, hΨb⟩ := hP.walk_place ho.root_lt (ho.root_onPath hiW) hwi
  obtain ⟨c, hu⟩ := hP.branches_of_level hb (by
    rw [hΨb]
    simp only [onPath]
    omega)
  exact ⟨b, c, getBranchConst_of_walk hk hk' hwi hu, hwi, hb, hΨb, hu⟩

/-- **`get_branch` of the vector that is written** owns the path to the
node, and changes nothing that is read. -/
theorem Holds.getBranch {e : ℕ} (hP : Placed h Ψ) (hv : Holds h Ψ v L) (hk : k < v.levels)
    (hk' : k < 255) (he : e < L.length)
    (hie : Radix.pos bpWidth i (v.levels - k) = Radix.pos bpWidth e (v.levels - k)) :
    ∃ h' r' b Ψ' c, BpVector.getBranch .tr h v (k + 1) i = .ok (h', { v with root := r' }, b) ∧
      Ext h Ψ h' Ψ' ∧ Holds h' Ψ' { v with root := r' } L ∧
      Settled (nodeCopy .tr v.id) h' i k v.levels r' b ∧
      nodeCopy .tr v.id (h'.cell r').id = false ∧ b < h'.next ∧
      Ψ' b = onPath i (v.levels - k) ∧ (h'.cell b).u = .branches c := by
  have hcp : nodeCopy .tr v.id v.id = false := by simp [nodeCopy]
  obtain ⟨h₁, r', Ψ₁, ho, e₁, hr', hΨ₁, hread₁⟩ :=
    ownRoot_spec (nodeCopy .tr v.id) v.id hP hv.root_lt
  have hv₁ : Holds h₁ Ψ₁ { v with root := r' } L :=
    ⟨hr', by rw [hΨ₁]; exact hv.root_place, hv.size, hv.fits, hv.tight,
      fun i hi => hread₁ _ _ _ (hv.read i hi)⟩
  have hown := ownRoot_owned hcp h v.root
  rw [ho] at hown
  -- the index has the place of an element, so it fits
  have hi : i < bpWidth ^ (v.levels + 1) :=
    Radix.lt_of_pos_eq bpWidth_pos hie (Nat.sub_le v.levels k) (lt_of_lt_of_le he hv.fits)
  obtain ⟨h', b, Ψ', hd, e', hb, hΨb, -⟩ :=
    descend_spec (nodeCopy .tr v.id) v.id e₁.placed hr' (hv₁.root_onPath hi) hk.le (hv₁.read e he)
      hie
  obtain ⟨hkeep, hset⟩ := descend_settles hcp e₁.placed hr' hd
  obtain ⟨c, hu⟩ := e'.placed.branches_of_level hb (by
    rw [hΨb]
    simp only [onPath]
    omega)
  refine ⟨h', r', b, Ψ', c, ?_, e₁.trans e', hv₁.of_ext e', hset, ?_, hb, hΨb, hu⟩
  · rw [BpVector.getBranch, branchWith, ho]
    dsimp only
    rw [branchFrom_eq hk hk', hd]
    simp only [Exec.ok_bind, if_true, BpNode.asBranches, hu]
  · rw [hkeep.id_eq r' hr']
    exact hown

/-! ## Copying its children -/

/-- The children of `c` in the slots of `[lo, hi)`, and those of `d`
elsewhere. -/
def mixed (c d : Fin bpWidth → Option Addr) (lo hi : ℕ) : Fin bpWidth → Option Addr :=
  fun t => if lo ≤ t.val ∧ t.val < hi then c t else d t

/-- What copying children leaves: one node, mixed. -/
theorem copyBranches_eq {c d : Fin bpWidth → Option Addr} (hsrc : (h.cell src).u = .branches c)
    (hdst : (h.cell dst).u = .branches d) (hne : src ≠ dst) (hkn : k + n ≤ bpWidth) :
    copyBranches src dst n k h =
      .ok (h.write dst ⟨.branches (mixed c d k (k + n)), (h.cell dst).id⟩) := by
  induction n generalizing h d k with
  | zero =>
    have hmix : mixed c d k (k + 0) = d := by
      funext t
      exact if_neg (by omega)
    have hself : (⟨.branches d, (h.cell dst).id⟩ : BpNode T) = h.cell dst := by rw [← hdst]
    rw [copyBranches, hmix, hself, Store.write_self]
  | succ n ih =>
    have hk : k < bpWidth := by omega
    rw [copyBranches, dif_pos hk, BpNode.asBranches, hsrc]
    simp only [Exec.ok_bind]
    rw [setChild_of hdst, Exec.ok_bind,
      ih (d := Function.update d ⟨k, hk⟩ (c ⟨k, hk⟩)) (by rw [Store.write_cell_ne hne, hsrc])
        (by rw [Store.write_cell_self]) (by omega), Store.write_cell_self, Store.write_write]
    congr 4
    funext t
    simp only [mixed]
    by_cases ht : t = ⟨k, hk⟩
    · subst ht
      rw [if_neg (by dsimp only; omega), if_pos (by dsimp only; omega), Function.update_self]
    · have hval : t.val ≠ k := fun hv => ht (Fin.ext hv)
      rw [Function.update_of_ne ht]
      congr 1
      apply propext
      omega

/-- Nodes of one place may be mixed. -/
theorem Placed.mixed {c d : Fin bpWidth → Option Addr} (hP : Placed h Ψ) (hs : src < h.next)
    (hd : dst < h.next) (hsrc : (h.cell src).u = .branches c) (hdst : (h.cell dst).u = .branches d)
    (hΨ : Ψ src = Ψ dst) (id : Id) :
    Placed (h.write dst ⟨.branches (mixed c d lo hi), id⟩) Ψ := by
  refine placed_of_fits fun e he => ?_
  by_cases hed : e = dst
  · subst hed
    rw [Store.write_cell_self]
    refine ⟨hP.branches e hd d hdst, fun t b hb => ?_⟩
    simp only [Contentious.mixed] at hb
    split at hb
    · rw [← hΨ]
      exact hP.child src hs c hsrc t b hb
    · exact hP.child e hd d hdst t b hb
  · rw [Store.write_cell_ne hed]
    exact (hP.fits he).mono le_rfl fun _ _ => rfl

/-- **A write is not seen off the node's place.** -/
theorem Placed.read_off (hP : Placed h Ψ) (ha : a < h.next) (hΨa : Ψ a = onPath k n)
    (hoff : ∀ m ≤ n, Ψ dst ≠ onPath k m) (hr : readAt h k n a = .ok y) (nd : BpNode T) :
    readAt (h.write dst nd) k n a = .ok y := by
  refine readAt_of_path hr fun m hm c hc => ?_
  have hcd : c ≠ dst := by
    rintro rfl
    exact hoff (n - m) (Nat.sub_le n m) (hP.walk_place ha hΨa hc).2
  rw [Store.write_cell_ne hcd]

/-- **Below a mixed node**, each slot reads what the node it is from does. -/
theorem Placed.read_mixed {c d : Fin bpWidth → Option Addr} {l m : ℕ} {x : T} (hP : Placed h Ψ)
    (hs : src < h.next) (hd : dst < h.next) (hsrc : (h.cell src).u = .branches c)
    (hdst : (h.cell dst).u = .branches d) (hΨs : Ψ src = onPath i (m + 1))
    (hΨd : Ψ dst = onPath i (m + 1))
    (hpos : Radix.pos bpWidth l (m + 1) = Radix.pos bpWidth i (m + 1))
    (hx : readAt h l (m + 1) src = .ok x) (hy : readAt h l (m + 1) dst = .ok y) :
    readAt (h.write dst ⟨.branches (Contentious.mixed c d lo hi), id⟩) l (m + 1) dst =
      .ok (if lo ≤ Radix.digit bpWidth l (m + 1) ∧ Radix.digit bpWidth l (m + 1) < hi then x
        else y) := by
  -- the write is above what lies under the slot
  have hbelow : ∀ b, b < h.next ∧
      Ψ b = ⟨m, Radix.pos bpWidth i (m + 1) * bpWidth + slot l ((m + 1) * bpBits)⟩ → ∀ z,
      readAt h l m b = .ok z →
      readAt (h.write dst ⟨.branches (Contentious.mixed c d lo hi), id⟩) l m b = .ok z := by
    rintro b ⟨hb, hΨb⟩ z hz
    refine hP.read_off hb ?_ (fun q hq heq => ?_) hz _
    · rw [hΨb, onPath, Radix.pos_eq bpWidth l m, hpos, slot_val]
    · rw [hΨd] at heq
      have := congrArg Place.level heq
      simp only [onPath] at this
      omega
  split
  · next hin =>
    obtain ⟨b, hb, hx⟩ := readAt_succ.1 hx
    obtain ⟨c', hu', hc⟩ := child_eq_ok.1 hb
    rw [hsrc] at hu'
    cases hu'
    have hplace := hP.child src hs c hsrc _ b hc
    rw [hΨs] at hplace
    refine readAt_succ.2 ⟨b, child_of (by rw [Store.write_cell_self]) ?_, hbelow b hplace x hx⟩
    rw [Contentious.mixed, if_pos (by rw [slot_val]; exact hin)]
    exact hc
  · next hout =>
    obtain ⟨b, hb, hy⟩ := readAt_succ.1 hy
    obtain ⟨d', hu', hc⟩ := child_eq_ok.1 hb
    rw [hdst] at hu'
    cases hu'
    have hplace := hP.child dst hd d hdst _ b hc
    rw [hΨd] at hplace
    refine readAt_succ.2 ⟨b, child_of (by rw [Store.write_cell_self]) ?_, hbelow b hplace y hy⟩
    rw [Contentious.mixed, if_neg (by rw [slot_val]; exact hout)]
    exact hc

/-! ## The graft -/

/-- **A graft is a splice** of the elements under the slots that it copies. -/
theorem Beside.graft {e : ℕ} (hB : Beside h Ψ v L o M) (hs : 1 ≤ s) (hsn : s ≤ v.levels)
    (hlev : v.levels < 255) (he : e < v.sz) (hie : Radix.pos bpWidth i s = Radix.pos bpWidth e s)
    (hij : Radix.pos bpWidth j s = Radix.pos bpWidth i s) (hlohi : lo ≤ hi) (hhi : hi ≤ bpWidth) :
    ∃ h' r' Ψ', BpVector.graft .tr h v o (v.levels + 1 - s) i j lo hi =
        .ok (h', { v with root := r' }) ∧
      Beside h' Ψ' { v with root := r' }
        (splice L M (Radix.pos bpWidth i s * bpWidth ^ (s + 1) + lo * bpWidth ^ s)
          (Radix.pos bpWidth i s * bpWidth ^ (s + 1) + hi * bpWidth ^ s)) o M := by
  obtain ⟨m, rfl⟩ := Nat.exists_eq_succ_of_ne_zero (by omega : s ≠ 0)
  have hP := hB.placed
  have hv := hB.target
  have ho := hB.source
  have hol := hB.levels_eq
  -- `k` steps down from the roots
  obtain ⟨k, hk⟩ : ∃ k, v.levels = k + (m + 1) := ⟨v.levels - (m + 1), by omega⟩
  have hsub : v.levels - k = m + 1 := by omega
  have hdepth : v.levels + 1 - m.succ = k + 1 := by omega
  have heL : e < L.length := by rw [← hv.size]; exact he
  have heM : e < M.length := by rw [hB.length_eq]; exact heL
  obtain ⟨h₁, r', dst, Ψ₁, d, hget, e₁, hv₁, hset, hown, hdst, hΨdst, hud⟩ :=
    hv.getBranch (i := i) (k := k) hP (by omega) (by omega) heL (by rw [hsub]; exact hie)
  rw [hsub] at hΨdst
  obtain ⟨hw₁, -, -⟩ := hP.scope.branchWith (N := fun _ => True) trivial hv.root_lt trivial hget
  have hB₁ : Beside h₁ Ψ₁ { v with root := r' } L o M := hB.moved e₁ hw₁.edits hv₁
  have hcell₁ : ∀ a, Reach h o.root a → h₁.cell a = h.cell a := fun a ha =>
    hB.foreign.cell_eq hP ho.root_lt hw₁.edits ha
  -- the node that is read, for both ends
  obtain ⟨src, c, hgi, hwi, hsrc, hΨsrc, huc⟩ := ho.getBranchConst (i := i) (k := k) hP (by omega)
    (by omega) heM (by rw [hol, hsub]; exact hie)
  obtain ⟨src', c', hgj, hwj, -⟩ := ho.getBranchConst (i := j) (k := k) hP (by omega) (by omega) heM
    (by rw [hol, hsub]; exact hij.trans hie)
  rw [hol, hsub] at hΨsrc
  have hwalk_of : ∀ l, Radix.pos bpWidth l (m + 1) = Radix.pos bpWidth i (m + 1) →
      walk h l k o.levels o.root = .ok src := fun l hl =>
    ((settled_of_walk hwi).congr (by omega) (by
      rw [hol, hsub]
      exact hl.symm)).walk
  rw [hwalk_of j hij] at hwj
  cases hwj
  have hreach : Reach h o.root src := Reach.root.walk hwi
  have huc₁ : (h₁.cell src).u = .branches c := by rw [hcell₁ src hreach]; exact huc
  have hsrc₁ : src < h₁.next := lt_of_lt_of_le hsrc e₁.next_le
  have hΨsrc₁ : Ψ₁ src = onPath i (m + 1) := by rw [e₁.place src hsrc, hΨsrc]
  -- it is not the one that is written, whose id is the writer's
  have hne : src ≠ dst := by
    rintro rfl
    have hid : nodeCopy .tr v.id (h₁.cell src).id = false := hset.owned hown
    rw [hcell₁ src hreach] at hid
    exact hB.foreign src hreach (bne_eq_false_iff_eq.1 hid).symm
  have hcopy := copyBranches_eq (n := hi - lo) (k := lo) huc₁ hud hne (by omega)
  rw [Nat.add_sub_cancel' hlohi] at hcopy
  have hgraft : BpVector.graft .tr h v o (v.levels + 1 - m.succ) i j lo hi =
      .ok (h₁.write dst ⟨.branches (mixed c d lo hi), (h₁.cell dst).id⟩,
        { v with root := r' }) := by
    rw [hdepth, BpVector.graft, hgi, Exec.ok_bind, hgj, Exec.ok_bind, hget, Exec.ok_bind]
    dsimp only
    rw [if_pos rfl, hcopy, Exec.ok_bind]
  have hw := hP.scope.graft (N := fun _ => True) trivial hv.root_lt trivial trivial ho.root_lt
    hgraft
  refine ⟨_, r', Ψ₁, hgraft, hB.rewritten hw.edits.next_le e₁.place
    (hB₁.placed.mixed hsrc₁ hdst huc₁ hud (hΨsrc₁.trans hΨdst.symm) _)
    (fun a ha => hB.foreign.cell_eq hP ho.root_lt hw.edits ha) ?_⟩
  refine ⟨hv₁.root_lt, hv₁.root_place, by rw [length_splice]; exact hv.size,
    by rw [length_splice]; exact hv.fits, by rw [length_splice]; exact hv.tight, ?_⟩
  intro l hl
  have hlL : l < L.length := by rwa [length_splice] at hl
  have hlM : l < M.length := by rw [hB.length_eq]; exact hlL
  have hlW := lt_of_lt_of_le hlL hv.fits
  rw [getElem_splice, List.getD_eq_getElem _ _ hlM]
  have hmem := Radix.mem_slots (n := m + 1) l (Radix.pos bpWidth i (m + 1)) lo bpWidth_pos hhi
  by_cases hpos : Radix.pos bpWidth l (m + 1) = Radix.pos bpWidth i (m + 1)
  · -- the path passes the node that was written
    have hsl := hset.congr (j := l) (by omega) (by rw [hsub]; exact hpos.symm)
    have hwl : walk (h₁.write dst ⟨.branches (mixed c d lo hi), (h₁.cell dst).id⟩) l k v.levels r' =
        .ok dst := by
      rw [walk_congr_cells hB₁.placed hv₁.root_lt (hv₁.root_onPath hlW) (by dsimp only; omega)
        fun f _ hf => by
          rw [Store.write_cell_ne]
          rintro rfl
          rw [hΨdst, hsub] at hf
          exact absurd hf (lt_irrefl _)]
      exact hsl.walk
    have hread := hv₁.read l hlL
    rw [readAt_of_walk (by omega) hsl.walk, hsub] at hread
    have hwo : walk h₁ l k o.levels o.root = .ok src :=
      walk_of_path (hwalk_of l hpos) fun q _ f hf => by
        rw [hcell₁ f (Reach.root.walk hf)]
    have hread_o := hB₁.source.read l hlM
    rw [readAt_of_walk (by omega) hwo, hol, hsub] at hread_o
    rw [readAt_of_walk (by omega) hwl, hsub,
      hB₁.placed.read_mixed hsrc₁ hdst huc₁ hud hΨsrc₁ hΨdst hpos hread_o hread]
    congr 1
    by_cases hin : lo ≤ Radix.digit bpWidth l (m + 1) ∧ Radix.digit bpWidth l (m + 1) < hi
    · rw [if_pos hin, if_pos (hmem.2 ⟨hpos, hin⟩)]
    · rw [if_neg hin, if_neg fun h => hin (hmem.1 h).2]
  · -- it does not
    rw [if_neg fun h => hpos (hmem.1 h).1]
    refine hB₁.placed.read_off hv₁.root_lt (hv₁.root_onPath hlW) (fun q _ heq => ?_)
      (hv₁.read l hlL) _
    rw [hΨdst] at heq
    obtain rfl : m + 1 = q := congrArg Place.level heq
    exact hpos (congrArg Place.pos heq).symm

end Contentious
