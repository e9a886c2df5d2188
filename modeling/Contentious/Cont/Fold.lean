import Contentious.Cont.Resolve
import Mathlib.Algebra.BigOperators.Group.Finset.Basic
import Mathlib.Algebra.BigOperators.Intervals
import Mathlib.Order.Interval.Finset.Nat
import Mathlib.Data.Int.Interval

/-!
# Cont — folding into one element

A dependency whose index map is not monotonic leads all elements to one.
Its workers start from `_orig`, what the source was when it was frozen,
and a reattach adds to the element what the worker's splinter has changed
it by. The resolution adds what the source itself has changed by since.
In a commutative group that is the difference of the two sums
(`resolveOnto_group`), and the sum over the vector is that over the
workers' blocks (`sum_blocks`).
-/

namespace Contentious.Cont

variable {T : Type}

/-- The operator of a group that is written additively: `plus` is one. -/
def Op.group (T : Type) [AddCommGroup T] : Op T := ⟨0, fun a b => a + b, fun a b => a - b⟩

theorem plus_eq_group : plus = .group ℚ := rfl

/-- The laws of a commutative group, of which `inv` is the difference. -/
structure Op.IsGroup (op : Op T) : Prop where
  assoc : ∀ x y z, op.f (op.f x y) z = op.f x (op.f y z)
  comm : ∀ x y, op.f x y = op.f y x
  identity : ∀ x, op.f op.identity x = x
  inv : ∀ x y, op.f (op.inv x y) y = x

namespace Op.IsGroup

variable {op : Op T}

theorem inv_eq (hop : op.IsGroup) (x y : T) : op.inv x y = op.f x (op.inv op.identity y) := by
  have hcancel : op.f (op.f x (op.inv op.identity y)) y = x := by
    rw [hop.assoc, hop.inv, hop.comm, hop.identity]
  have hadd : op.f (op.f (op.inv x y) y) (op.inv op.identity y) = op.inv x y := by
    rw [hop.assoc, hop.comm y, hop.inv, hop.comm, hop.identity]
  rw [← hadd, hop.inv]

/-- **A commutative group's operator is addition in it.** -/
abbrev toAddCommGroup (hop : op.IsGroup) : AddCommGroup T where
  add := op.f
  zero := op.identity
  neg := fun x => op.inv op.identity x
  sub := op.inv
  add_assoc := hop.assoc
  add_comm := hop.comm
  zero_add := hop.identity
  add_zero := fun x => (hop.comm x _).trans (hop.identity x)
  neg_add_cancel := hop.inv op.identity
  sub_eq_add_neg := hop.inv_eq
  nsmul := @nsmulRec T ⟨op.identity⟩ ⟨op.f⟩
  zsmul := @zsmulRec T ⟨op.identity⟩ ⟨op.f⟩ ⟨fun x => op.inv op.identity x⟩
    (@nsmulRec T ⟨op.identity⟩ ⟨op.f⟩)

theorem inv_eq_iff (hop : op.IsGroup) {x y z : T} : op.inv x y = z ↔ op.f z y = x := by
  let _ := hop.toAddCommGroup
  exact sub_eq_iff_eq_add.trans eq_comm

end Op.IsGroup

section

variable [DecidableEq T]

/-- The body of `reattach`'s loop over a range, where the index map is
not monotonic. -/
def joinCell (op : Op T) (splt used d : ℤ → T) (i : ℤ) : ℤ → T :=
  let diff := op.inv (splt i) (used i)
  if diff ≠ op.identity then Function.update d i (op.f (d i) diff) else d

/-- `reattach` from `a` to `b` of a dependency that is not monotonic. -/
def joinRange (op : Op T) (splt used d : ℤ → T) (a b : ℤ) : ℤ → T :=
  (List.range (b - a).toNat).foldl (fun d k => joinCell op splt used d (a + (k : ℕ))) d

/-- **The indices that `resolve` visits**: in order, and at least those
where the two vectors differ. `next_diff_ids` finds them by the ids of
nodes, so that it may find others next to them. -/
structure Scan (size : ℕ) (orig data : ℤ → T) (scan : List ℤ) : Prop where
  sorted : scan.Pairwise (· < ·)
  within : ∀ c ∈ scan, 0 ≤ c ∧ c < size
  complete : ∀ c < size, orig (c : ℕ) ≠ data (c : ℕ) → ((c : ℕ) : ℤ) ∈ scan

instance (size : ℕ) (orig data : ℤ → T) (scan : List ℤ) : Decidable (Scan size orig data scan) :=
  decidable_of_iff (scan.Pairwise (· < ·) ∧ (∀ c ∈ scan, 0 ≤ c ∧ c < size) ∧
      ∀ c < size, orig (c : ℕ) ≠ data (c : ℕ) → ((c : ℕ) : ℤ) ∈ scan)
    ⟨fun h => ⟨h.1, h.2.1, h.2.2⟩, fun h => ⟨h.sorted, h.within, h.complete⟩⟩

omit [DecidableEq T] in
/-- It is one of the elements that there are. -/
theorem Scan.congr {size : ℕ} {orig orig' data data' : ℤ → T} {scan : List ℤ}
    (h : Scan size orig data scan) (horig : ∀ c : ℤ, 0 ≤ c ∧ c < size → orig' c = orig c)
    (hdata : ∀ c : ℤ, 0 ≤ c ∧ c < size → data' c = data c) : Scan size orig' data' scan where
  sorted := h.sorted
  within := h.within
  complete c hc hne := by
    have hin : (0 : ℤ) ≤ c ∧ (c : ℤ) < size := ⟨Int.natCast_nonneg c, Int.ofNat_lt.2 hc⟩
    exact h.complete c hc fun heq => hne (by rw [horig c hin, hdata c hin, heq])

/-- What the loop of `resolve` makes of the target, over the indices it visits. -/
def resolveOnto (op : Op T) (orig data : ℤ → T) (scan : List ℤ) (target : T) : T :=
  scan.foldl (fun target c =>
    let diff := op.inv (data c) (orig c)
    if diff ≠ op.identity then op.f target diff else target) target

/-- The loop of `resolve`, which ends at the index that is the size: where that
is no `int32_t`, `next_diff_ids` never returns it. -/
def resolveLoop (size : ℕ) (op : Op T) (orig data : ℤ → T) (scan : List ℤ) (target : T) : Exec T :=
  if size < 2 ^ 31 then .ok (resolveOnto op orig data scan target) else .error .overflow

theorem resolveLoop_of_lt {size : ℕ} (h : size < 2 ^ 31) (op : Op T) (orig data : ℤ → T)
    (scan : List ℤ) (target : T) :
    resolveLoop size op orig data scan target = .ok (resolveOnto op orig data scan target) :=
  if_pos h

theorem resolveLoop_of_le {size : ℕ} (h : 2 ^ 31 ≤ size) (op : Op T) (orig data : ℤ → T)
    (scan : List ℤ) (target : T) : resolveLoop size op orig data scan target = .error .overflow :=
  if_neg (not_lt.2 h)

/-- It reads the indices it visits. -/
theorem resolveOnto_congr {op : Op T} {orig orig' data data' : ℤ → T} {scan : List ℤ}
    (horig : ∀ c ∈ scan, orig c = orig' c) (hdata : ∀ c ∈ scan, data c = data' c) (target : T) :
    resolveOnto op orig data scan target = resolveOnto op orig' data' scan target :=
  List.foldl_ext _ _ _ fun _ c hc => by rw [horig c hc, hdata c hc]

end

/-! ## In a commutative group -/

variable [AddCommGroup T] {orig data : ℤ → T} {scan : List ℤ} {size : ℕ}

/-- The sum of the elements from `a` to `b`. -/
def sumRange (x : ℤ → T) (a b : ℤ) : T := ∑ k ∈ Finset.range (b - a).toNat, x (a + (k : ℕ))

theorem sumRange_eq_sum (x : ℤ → T) {a b : ℤ} {s : Finset ℤ} (hs : ∀ c, c ∈ s ↔ a ≤ c ∧ c < b) :
    sumRange x a b = ∑ c ∈ s, x c := by
  refine Finset.sum_nbij (fun k : ℕ => a + k) (fun k hk => ?_) (fun k _ l _ hkl => ?_)
    (fun c hc => ?_)
    fun k _ => rfl
  · have := Finset.mem_range.1 hk
    exact (hs _).2 ⟨by omega, by omega⟩
  · exact Int.ofNat.inj (add_left_cancel hkl)
  · obtain ⟨h1, h2⟩ := (hs c).1 hc
    exact ⟨(c - a).toNat, Finset.mem_coe.2 (Finset.mem_range.2 (by omega)), by dsimp only; omega⟩

theorem sumRange_congr {x y : ℤ → T} {a b : ℤ} (h : ∀ c, a ≤ c → c < b → x c = y c) :
    sumRange x a b = sumRange y a b :=
  Finset.sum_congr rfl fun k hk => h _ (by omega) (by have := Finset.mem_range.1 hk; omega)

theorem sumRange_succ (x : ℤ → T) {a b : ℤ} (hab : a ≤ b) :
    sumRange x a (b + 1) = sumRange x a b + x b := by
  have hlen : (b + 1 - a).toNat = (b - a).toNat + 1 := by omega
  have hlast : a + ((b - a).toNat : ℤ) = b := by omega
  rw [sumRange, hlen, Finset.sum_range_succ, hlast, sumRange]

/-- **The sum over a vector, block by block.** -/
theorem sum_blocks (lay : Layout) (x : ℤ → T) :
    ∑ p ∈ Finset.range lay.hwconc, sumRange x (lay.a p) (lay.b p) = sumRange x 0 lay.size := by
  have hunion : Finset.Ico (0 : ℤ) lay.size =
      (Finset.range lay.hwconc).biUnion fun p => Finset.Ico (lay.a p) (lay.b p) := by
    ext c
    simp only [Finset.mem_biUnion, Finset.mem_range, Finset.mem_Ico]
    constructor
    · intro hc
      exact Layout.exists_block hc
    · rintro ⟨p, -, hb⟩
      exact Layout.InBlock.inRange hb
  rw [sumRange_eq_sum x fun c => Finset.mem_Ico, hunion, Finset.sum_biUnion]
  · exact Finset.sum_congr rfl fun p _ => sumRange_eq_sum x fun c => Finset.mem_Ico
  · intro p _ q _ hpq
    refine Finset.disjoint_left.2 fun c hp hq => hpq ?_
    exact Layout.block_unique (Finset.mem_Ico.1 hp) (Finset.mem_Ico.1 hq)

/-- Leaving out what changes nothing. -/
theorem add_unless_zero (x d : T) [Decidable (d ≠ 0)] : (if d ≠ 0 then x + d else x) = x + d := by
  split
  · rfl
  · next h => rw [not_not.1 h, add_zero]

variable [DecidableEq T]

/-- **A reattach of one element** adds what the splinter has changed it by. -/
theorem joinRange_group (splt used d : ℤ → T) (i : ℤ) :
    joinRange (.group T) splt used d i (i + 1) = Function.update d i (d i + (splt i - used i)) := by
  have hone : (i + 1 - i).toNat = 1 := by omega
  simp only [joinRange, hone, List.range_one, List.foldl_cons, List.foldl_nil, Nat.cast_zero,
    add_zero, joinCell, Op.group]
  split
  · rfl
  · next h =>
    rw [not_not.1 h, add_zero, Function.update_eq_self]

/-- What the loop adds up. -/
theorem resolveOnto_eq_sum (target : T) :
    resolveOnto (.group T) orig data scan target =
      target + (scan.map fun c => data c - orig c).sum := by
  induction scan generalizing target with
  | nil => exact (add_zero target).symm
  | cons c scan ih =>
    have hstep : resolveOnto (.group T) orig data (c :: scan) target =
        resolveOnto (.group T) orig data scan (target + (data c - orig c)) :=
      congrArg (resolveOnto (.group T) orig data scan) (add_unless_zero target (data c - orig c))
    rw [hstep, ih, List.map_cons, List.sum_cons, add_assoc]

/-- **A resolution adds by how much the sum of the source has changed.** -/
theorem resolveOnto_group (hscan : Scan size orig data scan) (target : T) :
    resolveOnto (.group T) orig data scan target =
      target + (sumRange data 0 size - sumRange orig 0 size) := by
  have hnodup : scan.Nodup := hscan.sorted.imp fun h => h.ne
  have hsub : scan.toFinset ⊆ Finset.Ico (0 : ℤ) size := fun c hc =>
    Finset.mem_Ico.2 (hscan.within c (List.mem_toFinset.1 hc))
  rw [resolveOnto_eq_sum, ← List.sum_toFinset _ hnodup,
    sumRange_eq_sum data fun c => Finset.mem_Ico,
    sumRange_eq_sum orig fun c => Finset.mem_Ico, ← Finset.sum_sub_distrib]
  refine congrArg (target + ·) (Finset.sum_subset hsub fun c hc hout => ?_)
  -- an index that is left out is one where the two agree
  obtain ⟨h0, h1⟩ := Finset.mem_Ico.1 hc
  obtain ⟨n, rfl⟩ := Int.eq_ofNat_of_zero_le h0
  by_contra hne
  refine hout (List.mem_toFinset.2 (hscan.complete n (Int.ofNat_lt.1 h1) fun heq => hne ?_))
  rw [heq, sub_self]

end Contentious.Cont
