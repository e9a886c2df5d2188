import Contentious.Cont.Tiles
import Contentious.Trie.Diff
import Contentious.Trie.Visit

/-!
# Trie — a reduce of a settled vector

The tasks of a `reduce` walk their blocks with iterators over the trie. A
block that starts past the size starts past the end that its walk is to
meet, so the blocks must tile (`Cont.AllButOneFit`). Each task has a splinter of its
own under a new id, and what it adds to the result is what it has added to
the splinter's first element: the sum of its block, whatever the others have
done. In the end the resolution looks for differences between the source and
`_orig`. There are none, and it finds so at once, if the size survives the
`int32_t` it comes back as.
-/

namespace Contentious

open BpVector

variable [K : BpBits] {T : Type}

/-- What a `reduce` works on: `_orig` and `_data` of the source, and `_data`
of the result. -/
structure Reducing (T : Type) [BpBits] where
  heap : Heap T
  orig : BpVector
  data : BpVector
  dep : BpVector

namespace BpVector

variable [DecidableEq T]

/-- `reattach(splt, dep, p, a, b)`, where the index map is not monotonic. -/
def rejoin (op : Cont.Op T) (h : Heap T) (splt used dep : BpVector) (a b : ℕ) :
    Exec (Heap T × BpVector) :=
  (List.range' a (b - a)).foldlM (fun (h, dep) i => do
    let diff := op.inv (← splt.get h i) (← used.get h i)
    if diff ≠ op.identity then Tr.mutSet h dep i (op.f (← dep.get h i) diff)
    else .ok (h, dep)) (h, dep)

/-- `reduce_splt(cont, dep, p)`, whose splinter gets the id `spltId`. -/
def reduceSplt [Add T] (op : Cont.Op T) (rounds hwconc : ℕ) (spltId : Id) (p : ℕ)
    (s : Reducing T) : Exec (Reducing T) := do
  let (a, b) := Cont.partition hwconc p s.data.sz
  let used := s.orig
  let (h, splt, target) ← begin s.heap (Tr.withId used spltId)
  let temp ← target.deref h
  let (h, _, seen) ← readLoop .const rounds h used a b
  let h ← target.store h (seen.foldl (· + ·) temp)
  let (h, dep) ← rejoin op h splt used s.dep 0 1
  .ok { s with heap := h, dep := dep }

/-- `resolve(dep)` -/
def resolveReduce (op : Cont.Op T) (rounds : ℕ) (s : Reducing T) : Exec (Reducing T) := do
  let (h, dep, target) ← begin s.heap s.dep
  let (h, target) ← target.add h 0
  let (x, _) ← resolveScan rounds op h s.orig s.data (← target.deref h)
  let h ← target.store h x
  .ok { s with heap := h, dep := dep }

variable [Inhabited T]

/-- `reduce(op)` up to its tasks: the result holds the identity, and `freeze`
keeps the source in `_orig`. -/
def reduceFreeze (op : Cont.Op T) (depId dataId : Id) (h : Heap T) (v : BpVector) :
    Exec (Reducing T) := do
  let (h, dep) := Tr.new depId h
  let (h, dep) ← Tr.mutPushBack h dep op.identity
  .ok ⟨h, v, Tr.withId v dataId, dep⟩

/-- `reduce(op)` of a settled vector, with the tasks of the workers in the
order they get to the result, and the resolution after them. -/
def reduce [Add T] (op : Cont.Op T) (rounds hwconc : ℕ) (depId dataId : Id) (spltId : ℕ → Id)
    (order : List ℕ) (h : Heap T) (v : BpVector) : Exec (Reducing T) := do
  let s ← reduceFreeze op depId dataId h v
  let s ← order.foldlM (fun s p => reduceSplt op rounds hwconc (spltId p) p s) s
  resolveReduce op rounds s

end BpVector

variable {h h' : Heap T} {Ψ Ψ' : Addr → Place} {v v' : BpVector} {L : List T} {x y : T} {id : Id}
variable {a b n p rounds hwconc : ℕ} {cp : Id → Bool} {it : BpIterator} {seen : List T}

/-! ## The walks -/

/-- A loop with the const iterator leaves the heap as it is. -/
theorem readLoop_const (he : readLoop .const rounds h v a b = .ok (h', v', seen)) : h' = h := by
  obtain ⟨⟨h₁, v₁, last, it⟩, hrange, he⟩ := Exec.bind_eq_ok.1 he
  obtain ⟨s, hloop, he⟩ := Exec.bind_eq_ok.1 he
  cases he
  obtain ⟨⟨h₂, v₂, it₂⟩, hb, hrange⟩ := Exec.bind_eq_ok.1 hrange
  obtain ⟨⟨h₃, it₃⟩, ha, hrange⟩ := Exec.bind_eq_ok.1 hrange
  obtain ⟨⟨h₄, v₄, it₄⟩, hb', hrange⟩ := Exec.bind_eq_ok.1 hrange
  obtain ⟨⟨h₅, it₅⟩, ha', hrange⟩ := Exec.bind_eq_ok.1 hrange
  cases hrange
  have h2 := BpIterator.beginWith_const hb
  have h3 := BpIterator.addWith_const ha
  have h4 := BpIterator.beginWith_const hb'
  have h5 := BpIterator.addWith_const ha'
  have hstart : h₁ = h := h5.trans (h4.trans (h3.trans h2))
  refine (loop_invariant (I := fun s : Visiting T => s.heap = h) (fun s t hs _ ht => ?_) hstart
    hloop).1
  obtain ⟨x, -, ht⟩ := Exec.bind_eq_ok.1 ht
  obtain ⟨⟨h₆, it₆⟩, hn, ht⟩ := Exec.bind_eq_ok.1 ht
  cases ht
  exact (BpIterator.nextWith_const hn).trans hs

/-- `begin()` keeps the size, and does not look at it. -/
theorem beginWith_sz (he : BpIterator.beginWith cp h { v with sz := n } = .ok (h', v', it)) :
    BpIterator.beginWith cp h v = .ok (h', { v' with sz := v.sz }, { it with sz := v.sz }) := by
  rw [BpIterator.beginWith] at he ⊢
  dsimp only at he ⊢
  generalize ownRoot cp v.id h v.root = o at he ⊢
  obtain ⟨⟨h₁, it₁⟩, hs, he⟩ := Exec.bind_eq_ok.1 he
  obtain ⟨⟨h₂, node⟩, hd, hs⟩ := Exec.bind_eq_ok.1 hs
  obtain ⟨c, hc, hs⟩ := Exec.bind_eq_ok.1 hs
  cases hs
  cases he
  dsimp only at hd hc
  rw [BpIterator.seekWith, hd, Exec.ok_bind]
  dsimp only
  rw [hc]
  rfl

/-- A vector has a first value, of an array that was made or of an element. -/
theorem Holds.exists_first (hP : Placed h Ψ) (hv : Holds h Ψ v L) :
    ∃ M, M ≠ [] ∧ Holds h Ψ { v with sz := M.length } M := by
  cases L with
  | nil =>
    have hlev : v.levels = 0 := by
      have htight := hv.tight
      simpa using htight
    have hΨ := hv.root_place
    rw [hlev] at hΨ
    obtain ⟨c, hu⟩ := hP.leaves_of_level hv.root_lt (by rw [hΨ])
    refine ⟨[c (slot 0 0)], List.cons_ne_nil _ _, hv.root_lt, hv.root_place, rfl, ?_, .inl hlev,
      fun i hi => ?_⟩
    · exact Nat.one_le_pow _ _ bpWidth_pos
    · rw [List.length_singleton, Nat.lt_one_iff] at hi
      subst hi
      dsimp only
      rw [hlev]
      exact leaf_eq_ok.2 ⟨c, hu, rfl⟩
  | cons x L =>
    refine ⟨x :: L, List.cons_ne_nil _ _, ?_⟩
    rw [← hv.size]
    exact hv

/-- **The first value under another id**: `begin()` owns the way to it, and
what is stored through the iterator is written in a node of that id. -/
theorem Holds.begin_store (hP : Placed h Ψ) (hv : Holds h Ψ v L) (id : Id) :
    ∃ x h₁ r it Ψ₁, BpVector.begin h (Tr.withId v id) =
        .ok (h₁, { Tr.withId v id with root := r }, it) ∧
      Ext h Ψ h₁ Ψ₁ ∧ (∀ a < h.next, (h.cell a).id ≠ id → h₁.cell a = h.cell a) ∧
      v.get h 0 = .ok x ∧ it.deref h₁ = .ok x ∧
      ∀ y, ∃ h₂, it.store h₁ y = .ok h₂ ∧ Placed h₂ Ψ₁ ∧ h₂.next = h₁.next ∧
        { Tr.withId v id with root := r }.get h₂ 0 = .ok y ∧
        ∀ a, (h₁.cell a).id ≠ id → h₂.cell a = h₁.cell a := by
  obtain ⟨M, hne, hM⟩ := hv.exists_first hP
  have hpos := List.length_pos_iff.2 hne
  have hM' : Holds h Ψ { Tr.withId v id with sz := M.length } M :=
    ⟨hM.root_lt, hM.root_place, hM.size, hM.fits, hM.tight, hM.read⟩
  obtain ⟨h₁, r, it, Ψ₁, he, hc, -, hv₁, -⟩ := hM'.beginOf .mutable hP
  have hb : BpVector.begin h (Tr.withId v id) =
      .ok (h₁, { Tr.withId v id with root := r }, { it with sz := v.sz }) := beginWith_sz he
  obtain ⟨w, hheld, hid⟩ := hP.scope.begin (N := fun other => other = id) trivial
    (show (Tr.withId v id).root < h.next from hv.root_lt) rfl hb
  have hleaf := BpIterator.Of.of_held hheld hid w.edits
  refine ⟨M[0], h₁, r, { it with sz := v.sz }, Ψ₁, hb, hc.ext, fun a ha hne => ?_, ?_,
    hc.stands.deref hv₁ hpos, fun y => ?_⟩
  · exact w.edits.cell_eq ha ha (by simpa [nodeCopy, Tr.withId] using Ne.symm hne)
  · exact hM.get hpos
  · obtain ⟨h₂, hs, hP₂, hv₂, -, hn, hcell⟩ := hc.stands.store hc.ext.placed hv₁ hpos y
    refine ⟨h₂, hs, hP₂, hn, ?_, fun a ha => hcell a ?_⟩
    · have hget := hv₂.get (i := 0) (by rw [List.length_set]; exact hpos)
      rw [List.getElem_set_self] at hget
      exact hget
    · rintro rfl
      exact ha hleaf.leaf.id_eq

/-! ## The result -/

theorem first_slot : (⟨0, bpWidth_pos⟩ : Fin bpWidth) = slot 0 0 := by
  apply Fin.ext
  rw [slot_zero_val, Radix.digit, Nat.zero_div, Nat.zero_mod]

/-- A vector of one value, in a leaf of its own id. -/
structure OneLeaf (h : Heap T) (dep : BpVector) (id : Id) (x : T) : Prop where
  sz_eq : dep.sz = 1
  levels_eq : dep.levels = 0
  id_eq : dep.id = id
  root_lt : dep.root < h.next
  cell_eq : ∃ c, h.cell dep.root = ⟨.leaves c, id⟩ ∧ c (slot 0 0) = x

namespace OneLeaf

variable {dep : BpVector}

theorem get (hd : OneLeaf h dep id x) : dep.get h 0 = .ok x := by
  obtain ⟨c, hc, hx⟩ := hd.cell_eq
  rw [get_eq_readAt, hd.levels_eq]
  exact leaf_eq_ok.2 ⟨c, by rw [hc], hx⟩

/-- It is as it was where its leaf is. -/
theorem of_cell (hd : OneLeaf h dep id x) (hn : h.next ≤ h'.next)
    (hcell : h'.cell dep.root = h.cell dep.root) : OneLeaf h' dep id x :=
  ⟨hd.sz_eq, hd.levels_eq, hd.id_eq, lt_of_lt_of_le hd.root_lt hn, by
    rw [hcell]
    exact hd.cell_eq⟩

/-- A value stored in the leaf, -/
theorem setLeaf (hd : OneLeaf h dep id x) (hP : Placed h Ψ) (y : T) :
    ∃ h', Contentious.setLeaf h dep.root (slot 0 0) y = .ok h' ∧ Placed h' Ψ ∧ h'.next = h.next ∧
      (∀ a, a ≠ dep.root → h'.cell a = h.cell a) ∧ OneLeaf h' dep id y := by
  obtain ⟨c, hc, -⟩ := hd.cell_eq
  have hu : (h.cell dep.root).u = .leaves c := by rw [hc]
  refine ⟨_, setLeaf_of hu, hP.setLeaf hu _ _, rfl, fun a ha => Store.write_cell_ne ha, hd.sz_eq,
    hd.levels_eq, hd.id_eq, hd.root_lt, Function.update c (slot 0 0) y, ?_,
    Function.update_self ..⟩
  rw [Store.write_cell_self, hc]

/-- by `mut_set`, -/
theorem mutSet (hd : OneLeaf h dep id x) (y : T) :
    Tr.mutSet h dep 0 y = (Contentious.setLeaf h dep.root (slot 0 0) y).map (·, dep) := by
  obtain ⟨c, hc, -⟩ := hd.cell_eq
  have hown : ownRoot (fun other => dep.id != other) dep.id h dep.root = (h, dep.root) :=
    if_neg (by rw [hc, hd.id_eq]; simp)
  obtain ⟨sz, levels, root, id'⟩ := dep
  have hlev : levels = 0 := hd.levels_eq
  subst hlev
  rw [Tr.mutSet, setWith, hown]
  dsimp only
  rw [descend, Exec.ok_bind]
  cases Contentious.setLeaf h root (slot 0 0) y <;> rfl

/-- or through `begin() + 0`. -/
theorem begin (hd : OneLeaf h dep id x) :
    ∃ it, BpVector.begin h dep = .ok (h, dep, it) ∧ it.add h 0 = .ok (h, it) ∧
      it.deref h = .ok x ∧
        ∀ (h' : Heap T) y, it.store h' y = Contentious.setLeaf h' dep.root (slot 0 0) y := by
  obtain ⟨c, hc, hx⟩ := hd.cell_eq
  have hown : ownRoot (fun other => dep.id != other) dep.id h dep.root = (h, dep.root) :=
    if_neg (by rw [hc, hd.id_eq]; simp)
  refine ⟨⟨dep.root, 0, 0, dep.sz, dep.id, dep.root, 0⟩, ?_, ?_, ?_, fun h' y => ?_⟩
  · rw [BpVector.begin, BpIterator.beginWith, hown, hd.levels_eq]
    dsimp only
    rw [BpIterator.seekWith, descend, Exec.ok_bind]
    dsimp only
    rw [hc]
    cases dep
    cases hd.levels_eq
    rfl
  · rw [BpIterator.add, BpIterator.addWith, if_pos (.inr rfl)]
  · rw [BpIterator.deref, dif_pos bpWidth_pos]
    dsimp only
    rw [first_slot]
    exact leaf_eq_ok.2 ⟨c, by rw [hc], hx⟩
  · rw [BpIterator.store, dif_pos bpWidth_pos]
    dsimp only
    rw [first_slot]

end OneLeaf

/-! ## The tasks -/

/-- The ids that a `reduce` draws are new: that of the result is none of the
splinters', and no node of the source has one of them. -/
structure Unused (h : Heap T) (v : BpVector) (hwconc : ℕ) (depId : Id) (spltId : ℕ → Id) :
    Prop where
  splt_ne : ∀ p < hwconc, spltId p ≠ depId
  dep : ∀ a, Reach h v.root a → (h.cell a).id ≠ depId
  splt : ∀ p < hwconc, ∀ a, Reach h v.root a → (h.cell a).id ≠ spltId p

/-- **What each task keeps** of a `reduce` of `v`, which was called in `h`:
the nodes of the source are as they were, and the result is its one value. -/
structure Summing (h : Heap T) (Ψ : Addr → Place) (v : BpVector) (depId : Id) (x : T)
    (s : Reducing T) : Prop where
  orig_eq : s.orig = v
  data_root : s.data.root = v.root
  data_sz : s.data.sz = v.sz
  next_le : h.next ≤ s.heap.next
  placed : ∃ Ψ', Placed s.heap Ψ' ∧ ∀ d < h.next, Ψ' d = Ψ d
  kept : ∀ a, Reach h v.root a → s.heap.cell a = h.cell a
  dep : OneLeaf s.heap s.dep depId x

section
variable [DecidableEq T] {depId dataId spltId : Id} {s : Reducing T}

omit [DecidableEq T] in
/-- **`reduce`**, up to its tasks. -/
theorem Holds.reduceFreeze [Inhabited T] (op : Cont.Op T) (hP : Placed h Ψ) (hv : Holds h Ψ v L)
    (depId dataId : Id) :
    ∃ s, BpVector.reduceFreeze op depId dataId h v = .ok s ∧
      Summing h Ψ v depId op.identity s := by
  obtain ⟨Ψ₁, hΨ, hP₁, hd⟩ := Holds.empty hP depId
  have hnew : OneLeaf (h.alloc (BpNode.newLeaves depId)).1 ⟨1, 0, h.next, depId⟩ depId default :=
    ⟨rfl, rfl, rfl, Nat.lt_succ_self _, fun _ => default, by rw [Store.alloc_cell_new]; rfl, rfl⟩
  obtain ⟨h₁, hs, hP₂, hn, hcell, hdep⟩ := hnew.setLeaf hP₁ op.identity
  have hpush : Tr.mutPushBack (h.alloc (BpNode.newLeaves depId)).1 ⟨0, 0, h.next, depId⟩
      op.identity = .ok (h₁, ⟨1, 0, h.next, depId⟩) := by
    rw [Tr.mutPushBack, BpVector.mutPushWith, Nat.zero_and, if_neg (not_not.2 rfl),
      dif_pos bpWidth_pos, first_slot, hs, Exec.ok_bind]
  refine ⟨⟨h₁, v, Tr.withId v dataId, ⟨1, 0, h.next, depId⟩⟩, ?_, rfl, rfl, rfl, ?_,
    ⟨Ψ₁, hP₂, hΨ⟩, fun a ha => ?_, hdep⟩
  · rw [BpVector.reduceFreeze]
    dsimp only [Tr.new, Store.alloc_snd]
    rw [hpush, Exec.ok_bind]
  · dsimp only
    rw [hn, Store.alloc_next]
    omega
  · have hlt := hP.reach_lt hv.root_lt ha
    rw [hcell a (Nat.ne_of_lt hlt), Store.alloc_cell_old hlt]

omit K [DecidableEq T] in
theorem foldl_add [AddCommGroup T] (L : List T) (x : T) : L.foldl (· + ·) x = x + L.sum := by
  induction L generalizing x with
  | nil => simp
  | cons y L ih => rw [List.foldl_cons, ih, List.sum_cons, add_assoc]

/-- **A splinter's difference** is added to the result. -/
theorem OneLeaf.rejoin [AddCommGroup T] {splt used dep : BpVector} {x₀ z : T}
    (hd : OneLeaf h dep id x) (hP : Placed h Ψ) (hsplt : splt.get h 0 = .ok (x₀ + z))
    (hused : used.get h 0 = .ok x₀) :
    ∃ h', BpVector.rejoin (.group T) h splt used dep 0 1 = .ok (h', dep) ∧ Placed h' Ψ ∧
      h'.next = h.next ∧ (∀ a, a ≠ dep.root → h'.cell a = h.cell a) ∧
      OneLeaf h' dep id (x + z) := by
  have hdiff : (Cont.Op.group T).inv (x₀ + z) x₀ = z := add_sub_cancel_left x₀ z
  have hone : List.range' 0 (1 - 0) = [0] := rfl
  by_cases hz : z = 0
  · refine ⟨h, ?_, hP, rfl, fun _ _ => rfl, by rw [hz, add_zero]; exact hd⟩
    rw [BpVector.rejoin, hone, List.foldlM_cons]
    dsimp only
    rw [hsplt, Exec.ok_bind, hused, Exec.ok_bind, hdiff,
      if_neg (show ¬ z ≠ (Cont.Op.group T).identity from not_not.2 hz)]
    rfl
  · obtain ⟨h', hs, hP', hn, hcell, hd'⟩ := hd.setLeaf hP (x + z)
    refine ⟨h', ?_, hP', hn, hcell, hd'⟩
    rw [BpVector.rejoin, hone, List.foldlM_cons]
    dsimp only
    rw [hsplt, Exec.ok_bind, hused, Exec.ok_bind, hdiff,
      if_pos (show z ≠ (Cont.Op.group T).identity from hz), hd.get, Exec.ok_bind, hd.mutSet]
    dsimp only [Cont.Op.group]
    rw [hs]
    rfl

/-- **One task** adds the sum of its block. -/
theorem Summing.reduceSplt [AddCommGroup T] {ids : ℕ → Id} (hs : Summing h Ψ v depId x s)
    (hP : Placed h Ψ) (hv : Holds h Ψ v L) (hu : Unused h v hwconc depId ids) (hp : p < hwconc)
    (hfits : Cont.AllButOneFit hwconc L.length) (hsize : L.length < 2 ^ 53)
    (hrounds : L.length ≤ rounds) :
    ∃ s', BpVector.reduceSplt (.group T) rounds hwconc (ids p) p s = .ok s' ∧
      Summing h Ψ v depId (x + (Cont.block hwconc L p).sum) s' := by
  obtain ⟨heap, orig, data, dep⟩ := s
  obtain ⟨rfl, hroot, hsz, hn, ⟨Ψ', hP', hΨ⟩, hkept, hdep⟩ := hs
  dsimp only at hv hu hroot hsz hn hP' hkept hdep ⊢
  have hlt : ∀ a, Reach h orig.root a → a < h.next := fun a => hP.reach_lt hv.root_lt
  have hreach : ∀ a, Reach heap orig.root a ↔ Reach h orig.root a := fun a =>
    reach_congr fun d hd _ => by rw [hkept d hd]
  have hvs : Holds heap Ψ' orig L := hv.of_reach hn hΨ fun d hd => by rw [hkept d hd]
  obtain ⟨x₀, h₁, r, it, Ψ₁, hb, e, hc₁, hget, hder, hst⟩ := hvs.begin_store hP' (ids p)
  -- the walk over the block
  have hab := Cont.partition_ordered hfits hp
  have hbl := Cont.partition_snd_le hwconc p L.length
  have hlen := hv.size
  obtain ⟨h₂, v₂, hloop, -⟩ := readLoop_spec (κ := .const) e.placed (hvs.of_ext e) (by omega) hab
    (by omega) (by omega) (show _ - _ ≤ rounds by omega)
  obtain rfl := readLoop_const hloop
  obtain ⟨h₃, hstore, hP₃, hn₃, hsplt, hc₃⟩ :=
    hst ((Cont.block hwconc L p).foldl (· + ·) x₀)
  -- neither the source nor the result has a node of the splinter's id
  have hsrc : ∀ a, Reach h orig.root a → h₃.cell a = h.cell a := fun a ha => by
    have h1 : h₂.cell a = heap.cell a := hc₁ a (lt_of_lt_of_le (hlt a ha) hn) (by
      rw [hkept a ha]
      exact hu.splt p hp a ha)
    rw [hc₃ a (by rw [h1, hkept a ha]; exact hu.splt p hp a ha), h1, hkept a ha]
  have hres : h₃.cell dep.root = heap.cell dep.root := by
    obtain ⟨c, hc, -⟩ := hdep.cell_eq
    have hne : (heap.cell dep.root).id ≠ ids p := by
      rw [hc]
      exact (hu.splt_ne p hp).symm
    have h1 : h₂.cell dep.root = heap.cell dep.root := hc₁ _ hdep.root_lt hne
    rw [hc₃ _ (by rw [h1]; exact hne), h1]
  have hdep₃ : OneLeaf h₃ dep depId x := hdep.of_cell (by rw [hn₃]; exact e.next_le) hres
  have hused : orig.get h₃ 0 = .ok x₀ := by
    rw [get_eq_readAt] at hget ⊢
    rw [readAt_of_reach fun d hd => ?_]
    · exact hget
    · have hd' := (hreach d).1 hd
      rw [hsrc d hd', hkept d hd']
  rw [foldl_add] at hsplt
  obtain ⟨h₄, hjoin, hP₄, hn₄, hc₄, hdep₄⟩ := hdep₃.rejoin hP₃ hsplt hused
  refine ⟨⟨h₄, orig, data, dep⟩, ?_, rfl, hroot, hsz, ?_, ⟨Ψ₁, hP₄, fun d hd => ?_⟩, fun a ha => ?_,
    hdep₄⟩
  · rw [BpVector.reduceSplt]
    dsimp only
    rw [hsz, hlen, hb, Exec.ok_bind]
    dsimp only
    rw [hder, Exec.ok_bind, hloop, Exec.ok_bind]
    dsimp only
    rw [Cont.block] at hstore
    rw [hstore, Exec.ok_bind, hjoin, Exec.ok_bind]
  · dsimp only
    rw [hn₄, hn₃]
    exact hn.trans e.next_le
  · rw [e.place d (lt_of_lt_of_le hd hn), hΨ d hd]
  · rw [hc₄ a fun heq => ?_, hsrc a ha]
    obtain ⟨c, hc, -⟩ := hdep₃.cell_eq
    have hid := hu.dep a ha
    rw [← hsrc a ha, heq, hc] at hid
    exact hid rfl

/-- **The tasks**, in any order, add the sums of their blocks. -/
theorem Summing.tasks [AddCommGroup T] {ids : ℕ → Id} {order : List ℕ}
    (hs : Summing h Ψ v depId x s) (hP : Placed h Ψ) (hv : Holds h Ψ v L)
    (hu : Unused h v hwconc depId ids) (horder : ∀ p ∈ order, p < hwconc)
    (hfits : Cont.AllButOneFit hwconc L.length) (hsize : L.length < 2 ^ 53)
    (hrounds : L.length ≤ rounds) :
    ∃ s', order.foldlM (fun s p => BpVector.reduceSplt (.group T) rounds hwconc (ids p) p s) s =
        .ok s' ∧
      Summing h Ψ v depId (x + (order.map fun p => (Cont.block hwconc L p).sum).sum) s' := by
  induction order generalizing x s with
  | nil => exact ⟨s, rfl, by simpa using hs⟩
  | cons p order ih =>
    obtain ⟨s₁, h₁, hs₁⟩ := hs.reduceSplt hP hv hu (horder p (.head _)) hfits hsize hrounds
    obtain ⟨s', h', hs'⟩ := ih hs₁ fun q hq => horder q (.tail _ hq)
    refine ⟨s', ?_, ?_⟩
    · rw [List.foldlM_cons, h₁, Exec.ok_bind]
      exact h'
    · rw [List.map_cons, List.sum_cons, ← add_assoc]
      exact hs'

/-! ## The resolution -/

omit [DecidableEq T] in
/-- Under one root nothing differs, and `next_diff_ids` is at the end at
once. -/
theorem nextDiffIds_root {w : BpVector} (hroot : w.root = v.root) (i : ℕ) :
    nextDiffIds h v w (n + 1) i = .ok (BitVec.ofNat 32 v.sz) := by
  rw [nextDiffIds, hroot, if_pos rfl]
  split <;> rfl

/-- **The resolution** finds nothing to add. -/
theorem Summing.resolveReduce {op : Cont.Op T} (hs : Summing h Ψ v depId x s) (hsz : v.sz < 2 ^ 31)
    (hrounds : 0 < rounds) :
    ∃ s', BpVector.resolveReduce op rounds s = .ok s' ∧ s'.dep.at' s'.heap 0 = .ok x := by
  obtain ⟨n, rfl⟩ := Nat.exists_eq_succ_of_ne_zero hrounds.ne'
  obtain ⟨it, hb, hadd, hder, hst⟩ := hs.dep.begin
  obtain ⟨Ψ', hP', -⟩ := hs.placed
  obtain ⟨h', hset, -, -, -, hd⟩ := hs.dep.setLeaf hP' x
  have hscan : resolveScan (n + 1) op s.heap s.orig s.data x = .ok (x, []) := by
    have hroot : s.data.root = s.orig.root := by rw [hs.data_root, hs.orig_eq]
    rw [resolveScan, nextDiffIds_root hroot, hs.orig_eq, Exec.ok_bind, ofInt32_ofNat hsz,
      loop_of_not (by rw [hs.data_sz]; simp), Exec.ok_bind]
  refine ⟨{ s with heap := h' }, ?_, ?_⟩
  · rw [BpVector.resolveReduce, hb, Exec.ok_bind]
    dsimp only
    rw [hadd, Exec.ok_bind]
    dsimp only
    rw [hder, Exec.ok_bind, hscan, Exec.ok_bind]
    dsimp only
    rw [hst, hset, Exec.ok_bind]
  · rw [at', if_neg (by rw [hd.sz_eq]; omega)]
    exact hd.get

end

/-! ## The whole -/

section
variable [DecidableEq T] [Inhabited T] [AddCommGroup T] {depId dataId : Id} {spltId : ℕ → Id}

/-- The loops of the workers read the elements, each of them once: what they
have read, one worker after another, is the vector. -/
def ReadsOnce (hwconc : ℕ) (h : Heap T) (v : BpVector) (L : List T) : Prop :=
  ∃ seen : ℕ → List T, (List.range hwconc).flatMap seen = L ∧
    ∀ p < hwconc, ∀ rounds, L.length ≤ rounds → ∃ h' v',
      readLoop .const rounds h v (Cont.partition hwconc p v.sz).1 (Cont.partition hwconc p v.sz).2 =
        .ok (h', v', seen p)

/-- `reduce(plus)` gives the sum, in whatever order the tasks get to the
result. -/
def SumsRight (hwconc : ℕ) (depId dataId : Id) (spltId : ℕ → Id) (h : Heap T) (v : BpVector)
    (L : List T) : Prop :=
  ∀ order : List ℕ, order.Perm (List.range hwconc) → ∀ rounds, L.length < rounds →
    ∃ s, BpVector.reduce (.group T) rounds hwconc depId dataId spltId order h v = .ok s ∧
      s.dep.at' s.heap 0 = .ok L.sum

omit [DecidableEq T] [Inhabited T] [AddCommGroup T] in
/-- Over blocks that tile the loops read the vector. -/
theorem Holds.readsOnce (hP : Placed h Ψ) (hv : Holds h Ψ v L) (hpos : 0 < hwconc)
    (hsize : L.length < 2 ^ 53) (hfits : Cont.AllButOneFit hwconc L.length) :
    ReadsOnce hwconc h v L := by
  have hlen := hv.size
  refine ⟨Cont.block hwconc L, Cont.flatMap_blocks hpos L hfits, fun p hp rounds hrounds => ?_⟩
  have hab := Cont.partition_ordered hfits hp
  have hbl := Cont.partition_snd_le hwconc p L.length
  rw [hlen]
  obtain ⟨h', v', hloop, -⟩ := readLoop_spec (κ := .const) hP hv (by omega) hab (by omega)
    (by omega) (show _ - _ ≤ rounds by omega)
  exact ⟨h', v', hloop⟩

/-- The tasks of a `reduce`, up to its resolution. -/
theorem Holds.reduce_tasks {order : List ℕ} (hP : Placed h Ψ) (hv : Holds h Ψ v L) (dataId : Id)
    (hu : Unused h v hwconc depId spltId) (hpos : 0 < hwconc) (hsize : L.length < 2 ^ 53)
    (hfits : Cont.AllButOneFit hwconc L.length) (horder : order.Perm (List.range hwconc))
    (hrounds : L.length ≤ rounds) :
    ∃ s, BpVector.reduce (.group T) rounds hwconc depId dataId spltId order h v =
        BpVector.resolveReduce (.group T) rounds s ∧ Summing h Ψ v depId L.sum s := by
  obtain ⟨s₀, h₀, hs₀⟩ := hv.reduceFreeze (.group T) hP depId dataId
  obtain ⟨s, h₁, hs⟩ := hs₀.tasks hP hv hu (fun p hp => List.mem_range.1 (horder.mem_iff.1 hp))
    hfits hsize hrounds
  rw [Cont.sum_map_blocks hpos L hfits horder] at hs
  refine ⟨s, by rw [BpVector.reduce, h₀, Exec.ok_bind, h₁, Exec.ok_bind], ?_⟩
  rwa [show (Cont.Op.group T).identity = 0 from rfl, zero_add] at hs

/-- **Blocks, loops and sums.** Take any number of workers and any settled
vector of less than `2 ^ 53` elements, and ids that are new. The blocks tile
the vector, the workers' loops read each element once, and `reduce(plus)`
gives the sum of the elements, just when all blocks but one fit and the size
comes through the `int32_t` of `next_diff_ids`. -/
theorem reduce_tiles_iff (ht : Represents h v L) (hpos : 0 < hwconc) (hsize : L.length < 2 ^ 53)
    (hu : Unused h v hwconc depId spltId) :
    Cont.Tiles hwconc v.sz ∧ ReadsOnce hwconc h v L ∧
        SumsRight hwconc depId dataId spltId h v L ↔
      (hwconc - 1) * Cont.chunkSz hwconc v.sz ≤ v.sz ∧ v.sz < 2 ^ 31 := by
  obtain ⟨Ψ, hP, hv⟩ := ht
  have hlen := hv.size
  constructor
  · rintro ⟨htiles, -, hsums⟩
    have hfits : Cont.AllButOneFit hwconc v.sz := (Cont.tiles_iff hpos).1 htiles
    refine ⟨hfits, ?_⟩
    rw [hlen] at hfits
    obtain ⟨s', hs', -⟩ := hsums _ (List.Perm.refl _) (L.length + 1) (Nat.lt_succ_self _)
    obtain ⟨s, he, hs⟩ := hv.reduce_tasks hP dataId hu hpos hsize hfits (List.Perm.refl _)
      (Nat.le_succ L.length)
    rw [he] at hs'
    obtain ⟨_, -, hs'⟩ := Exec.bind_eq_ok.1 hs'
    obtain ⟨_, -, hs'⟩ := Exec.bind_eq_ok.1 hs'
    obtain ⟨_, -, hs'⟩ := Exec.bind_eq_ok.1 hs'
    obtain ⟨r, hscan, -⟩ := Exec.bind_eq_ok.1 hs'
    have hsmall := resolveScan_small (by rw [hs.data_sz]; omega) hscan
    rwa [hs.data_sz] at hsmall
  · rintro ⟨hfits, hsmall⟩
    have htiles := (Cont.tiles_iff hpos).2 hfits
    have hfits' : Cont.AllButOneFit hwconc L.length := by rwa [← hlen]
    refine ⟨htiles, hv.readsOnce hP hpos hsize hfits', fun order horder rounds hrounds => ?_⟩
    obtain ⟨s, he, hs⟩ := hv.reduce_tasks hP dataId hu hpos hsize hfits' horder hrounds.le
    rw [he]
    exact hs.resolveReduce hsmall (by omega)

end

omit K in
/-- Over arrays of four, three values and two workers. -/
theorem reduce_tiles_iff_two :
    letI := twoBits
    ∃ (h : Heap ℤ) (t : BpVector), t.sz = 3 ∧ Cont.Tiles 2 t.sz ∧ ReadsOnce 2 h t [1, 2, 3] ∧
      SumsRight 2 3 2 (fun p => 4 + BitVec.ofNat 32 p) h t [1, 2, 3] := by
  let _ := twoBits
  obtain ⟨⟨h, t⟩, hrun, ht⟩ := handle_represents .tr 1 (fun _ => 0)
    [.inPlace (by decide) (.push 1), .inPlace (by decide) (.push 2), .inPlace (by decide) (.push 3)]
    (by simp [Update.Instantiable]) (show (lists ℤ).run [] _ = some [1, 2, 3] by decide +kernel)
  have hids : ((handle ℤ .tr fun _ => 0).run (newVector .tr 1 Heap.empty)
      [.inPlace (by decide) (.push 1), .inPlace (by decide) (.push 2),
        .inPlace (by decide) (.push 3)]).map
      (fun s => (s.2.sz, decide (∀ a < s.1.next, (s.1.cell a).id = 1))) = some (3, true) := by
    decide +kernel
  rw [hrun, Option.map_some] at hids
  simp only [Option.some.injEq, Prod.mk.injEq, decide_eq_true_eq] at hids
  obtain ⟨hsz, hids⟩ := hids
  have hreach : ∀ a, Reach h t.root a → (h.cell a).id = 1 := fun a ha => by
    obtain ⟨Ψ, hP, hv⟩ := ht
    exact hids a (hP.reach_lt hv.root_lt ha)
  have hu : Unused h t 2 3 fun p => 4 + BitVec.ofNat 32 p := by
    refine ⟨by decide, fun a ha => ?_, fun p hp a ha => ?_⟩
    · rw [hreach a ha]
      decide
    · rw [hreach a ha]
      exact (show ∀ p < 2, (1 : Id) ≠ 4 + BitVec.ofNat 32 p by decide) p hp
  refine ⟨h, t, hsz, (reduce_tiles_iff ht (by omega) (by decide) hu).2 ?_⟩
  rw [hsz]
  decide

omit K in
/-- **A block that starts past the end is walked all the same.** One value
and three workers: the block of the third is `[2, 1)`. Its loop reads the
rest of the array, and then the value, which is summed twice. -/
theorem block_walked_past_end :
    letI := twoBits
    let single := (handle ℤ .tr fun _ => 0).run (newVector .tr 1 Heap.empty)
      [.inPlace (by decide) (.push 7)]
    Cont.partition 3 2 1 = (2, 1) ∧
      single.bind (fun (h, t) => (readLoop .const 4 h t 2 1).toOption.map fun r => r.2.2) =
        some [0, 0, 7] ∧
      single.bind (fun (h, t) => (BpVector.reduce (.group ℤ) 4 3 3 2
        (fun p => 4 + BitVec.ofNat 32 p) [0, 1, 2] h t).toOption.bind
          fun s => (s.dep.at' s.heap 0).toOption) = some 14 := by
  decide +kernel

end Contentious
