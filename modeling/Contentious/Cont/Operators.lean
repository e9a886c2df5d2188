import Contentious.Cont.Interior
import Contentious.Cont.Reduce
import Contentious.Cont.Settled
import Contentious.Cont.Window
import Mathlib.Data.Finset.Fold
import Mathlib.Tactic.Abel
import Mathlib.Tactic.LinearCombination

/-!
# Cont — the operator a call is given, and what it computes

Of the operator that a call is given, the workers' loops use nothing:
`reduce_splt` adds, the two `foreach_splt` multiply, and `stencil_splt` has
its three coefficients written in. The reattaches and the resolutions do
use it. So a call gives what it is asked for where the operator is the one
of the loop (`AppliesOp`, `operators_apply`). A `foreach` needs that of the
elements there are only, and no less. A `reduce` that is right for all
elements adds (`Runtime.adds_of_gives`), and the coefficients of such a
stencil are those written in (`Runtime.coeffs_of_gives`).
-/

namespace Contentious.Cont

variable [BpBits] {st : Storage}
variable {lay : Layout} {prog : Program} {s : Runtime} {p m : ℕ} {x₀ : ℕ → Contents}
variable {c₀ : ℕ → SortedSet ℤ} {op : Op ℚ} {x : Contents}

/-! ## What is asked for -/

/-- The fold of `f` over the elements, from the identity. -/
def foldElems (op : Op ℚ) (x : Contents) (size : ℕ) : ℚ :=
  (List.range size).foldl (fun acc (t : ℕ) => op.f acc (x t)) op.identity

/-- **What a call is to give**, of the elements there are. -/
def Gives (lay : Layout) (x₀ : ℕ → Contents) (d : Contents) : Call ℕ → Prop
  | .foreach op src val => ∀ t, lay.InRange t → d t = op.f (x₀ src t) val
  | .foreachCvec op src other => ∀ t, lay.InRange t → d t = op.f (x₀ src t) (x₀ other t)
  | .stencil src offs coeffs => ∀ t, lay.InRange t → (∀ o ∈ offs, lay.InRange (t + o)) →
      d t = tapSum (offs.zip coeffs) (x₀ src) t
  | .reduce op src => d 0 = foldElems op (x₀ src) lay.size

/-- The operator is that of a commutative group, or there is a coefficient
for each offset. -/
def Call.Proper : Call ℕ → Prop
  | .foreach op _ _ => op.IsGroup
  | .foreachCvec op _ _ => op.IsGroup
  | .stencil _ offs coeffs => offs.length ≤ coeffs.length
  | .reduce op _ => op.IsGroup

/-! ## What is computed -/

/-- What worker `p` adds to a reduction: by how much the sum of its block,
added to the first element, differs from that element. -/
def blockDiff (lay : Layout) (op : Op ℚ) (x : Contents) (p : ℕ) : ℚ :=
  op.inv (x 0 + sumRange x (lay.a p) (lay.b p)) (x 0)

/-- The offset's windows lead to no target past the end. -/
def FitsWindows (lay : Layout) (o : ℤ) : Prop :=
  o < 0 → -o ≤ lay.size → 2 * -o ≤ lay.size ∧ -o ≤ lay.size - lay.a (lay.hwconc - 1)

/-- The taps of the kernel that is written into `stencil_splt`. -/
def kernelTaps (o : ℤ) : List (ℤ × ℚ) :=
  [(o, heatConst), (o + 1, -2 * heatConst), (o + 2, heatConst)]

/-- The coefficient of an offset, which may be given several times. -/
def coeffAt (taps : List (ℤ × ℚ)) (o : ℤ) : ℚ := ((taps.filter (·.1 = o)).map Prod.snd).sum

/-- **Nothing but the operator can go wrong**: the reattaches copy the blocks,
a stencil's workers have their ranges in order, its kernel reads elements and
its windows fit, and a `resolve` comes to an end. -/
def Call.Fits (lay : Layout) : Call ℕ → Prop
  | .foreach .. | .foreachCvec .. => lay.Copyable
  | .stencil _ [] _ => False
  | .stencil _ (o :: os) _ =>
      lay.Copyable ∧ (∀ p < lay.hwconc, RangeInOrder lay (o :: os) p ∧ ReadsInside lay o os p) ∧
        ∀ o' ∈ o :: os, FitsWindows lay o'
  | .reduce .. => lay.size < 2 ^ 31

/-- **The operator is the loop's.** A `foreach` multiplies, the elements there
are; its resolution finds nothing to repair in a second vector that is not
the first. A stencil that has a target has the coefficients of the kernel. A
`reduce` adds; of a single element, that one to itself. -/
def Call.Applies (lay : Layout) (x₀ : ℕ → Contents) (c₀ : ℕ → SortedSet ℤ) : Call ℕ → Prop
  | .foreach op src val => ∀ t, lay.InRange t → x₀ src t * val = op.f (x₀ src t) val
  | .foreachCvec op src other =>
      (other = src ∨ ∀ c, c ∉ c₀ other) ∧
        ∀ t, lay.InRange t → x₀ src t * x₀ other t = op.f (x₀ src t) (x₀ other t)
  | .stencil _ offs coeffs =>
      ∀ t, lay.InRange t → (∀ o ∈ offs, lay.InRange (t + o)) →
        ∀ o, coeffAt (offs.zip coeffs) o = coeffAt (kernelTaps offs.headI) o
  | .reduce op src =>
      (∀ a b, op.f a b = a + b) ∨
        lay.size = 1 ∧ op.f (x₀ src 0) (x₀ src 0) = x₀ src 0 + x₀ src 0

/-- Both. -/
def AppliesOp (lay : Layout) (x₀ : ℕ → Contents) (c₀ : ℕ → SortedSet ℤ) (c : Call ℕ) : Prop :=
  c.Fits lay ∧ c.Applies lay x₀ c₀

/-- The calls of `foreach`. -/
def Call.Elementwise : Call ℕ → Prop
  | .foreach .. | .foreachCvec .. => True
  | .stencil .. | .reduce .. => False

/-- Whatever the elements are, some run of the program gives what the call is
asked for. -/
def GivesAll (st : Storage) (lay : Layout) (prog : Program) (c₀ : ℕ → SortedSet ℤ) (m : ℕ)
    (c : Call ℕ) : Prop :=
  ∀ x₀, ∃ acts s, (runtime st lay prog).run (.start x₀ c₀) acts = some s ∧
    s.resolved m = true ∧ Gives lay x₀ (s.data (.result m)) c

/-! ## Block by block -/

/-- The blocks of the workers of `S` hold the values. -/
def Blocks (lay : Layout) (value : ℤ → ℚ) (S : Finset ℕ) (d : Contents) : Prop :=
  ∀ p ∈ S, ∀ t, lay.InBlock p t → d t = value t

omit [BpBits] in
theorem Blocks.empty (value : ℤ → ℚ) (d : Contents) : Blocks lay value ∅ d :=
  fun _ hp => absurd hp (Finset.notMem_empty _)

omit [BpBits] in
/-- One block more. -/
theorem Blocks.insert {value : ℤ → ℚ} {S : Finset ℕ} {d splt : Contents} (h : Blocks lay value S d)
    (hsplt : ∀ t, lay.InBlock p t → splt t = value t) :
    Blocks lay value (insert p S) (assignRange d splt (lay.a p) (lay.b p)) := by
  intro q hq t hb
  by_cases hbp : lay.InBlock p t
  · rw [assignRange_block hbp]
    exact hsplt t hbp
  · rw [assignRange_other hbp]
    rcases Finset.mem_insert.1 hq with rfl | hq
    · exact absurd hb hbp
    · exact h q hq t hb

omit [BpBits] in
/-- All of them. -/
theorem Blocks.inRange {value : ℤ → ℚ} {d : Contents} {t : ℤ}
    (h : Blocks lay value (Finset.range lay.hwconc) d) (ht : lay.InRange t) : d t = value t := by
  obtain ⟨p, hp, hb⟩ := Layout.exists_block ht
  exact h p (Finset.mem_range.2 hp) t hb

/-- A reattach of a call whose index map is monotonic. -/
theorem Runtime.attached_monotonic {splt : Contents} (hst : st.Copies lay) (hp : p < lay.hwconc)
    (hmono : isMonotonic (prog.call (s.done p)).first.imap = true)
    (hsplt : (prog.call (s.done p)).splinter lay p (s.used (s.done p) p) (s.splt p) = .ok splt) :
    s.attached st lay prog p =
      .ok (assignRange (s.data (.result (s.done p))) splt (lay.a p) (lay.b p)) := by
  simp only [attached, hsplt, Exec.ok_bind, if_pos hmono]
  exact hst _ _ p hp

omit [BpBits] in
theorem Op.IsGroup.inv_self {T : Type} {op : Op T} (hop : op.IsGroup) (x : T) :
    op.inv x x = op.identity := by
  let _ := hop.toAddCommGroup
  exact sub_self x

omit [BpBits] in
/-- A resolution of which no index map finds anything to repair. -/
theorem resolveMonotonic_settled {deps : List Dep} {st : Contents × SortedSet ℤ}
    {contended : SortedSet ℤ} {used : ℕ → Contents}
    (h : ∀ dep ∈ deps, ∀ st, resolveDep lay x contended used st dep = .ok st) :
    resolveMonotonic lay deps x contended used st = .ok st := by
  induction deps generalizing st with
  | nil => rfl
  | cons dep deps ih =>
    rw [resolveMonotonic, List.foldlM_cons, h dep List.mem_cons_self]
    exact ih fun dep hdep => h dep (List.mem_cons_of_mem _ hdep)

namespace Runtime

variable {c : Call ℕ} {i j : ℕ} {val : ℚ} {scan : List ℤ}

omit [BpBits] in
/-- What the resolution compares with is what is there. -/
theorem Reading.same (hm : prog.call m = c.onInputs) (hr : Reading lay prog x₀ c₀ m c s)
    (hdue : s.Due lay prog m scan) (hself : ∀ x, op.inv x x = op.identity) :
    ∀ p < lay.hwconc, ∀ e, lay.InRange e →
      op.inv (s.data (prog.call m).src e) (s.used m p e) = op.identity := by
  intro p hp e _
  rw [hm, c.src_onInputs, hr.inputs, hr.used p hp (.inl (hdue.2.1 p hp))]
  exact hself _

omit [BpBits] in
/-- **The resolution of a call on settled vectors**, once the second vector
has been passed. -/
theorem resolution_settled (hm : prog.call m = c.onInputs) (hr : Reading lay prog x₀ c₀ m c s)
    (hmono : isMonotonic (prog.call m).first.imap = true)
    (hfrozen : ∀ st, (s.frozen m).foldlM (fun st f =>
      resolveFrozen lay (prog.call m).first (s.contended f) st) st = .ok st)
    (hdeps : ∀ dep ∈ (prog.call m).deps, ∀ st,
      resolveDep lay (x₀ c.src) (c₀ c.src) (s.used m) st dep = .ok st) :
    s.resolution lay prog m scan = .ok (s.data (.result m), s.contended (.result m)) := by
  rw [resolution, if_pos hmono, resolveSrc, hfrozen, Exec.ok_bind]
  have hdata : s.data (prog.call m).src = x₀ c.src := by rw [hm, c.src_onInputs, hr.inputs]
  have hcont : s.contended (prog.call m).src = c₀ c.src := by
    rw [hm, c.src_onInputs, hr.contended]
  rw [hdata, hcont]
  exact resolveMonotonic_settled hdeps

/-! ## The four calls -/

/-- **`foreach` with a value** multiplies by it. -/
theorem settles_foreach (hst : st.Copies lay)
    (hm : prog.call m = (Call.foreach op i val).onInputs) (hop : op.IsGroup)
    (hin : ∀ j, ∀ e ∈ c₀ j, lay.InRange e) :
    Settles st lay prog x₀ c₀ m (.foreach op i val) (Blocks lay fun t => x₀ i t * val) True where
  fresh _ := .empty _ _
  attached s hr p hp hd hk _ := by
    subst hk
    have hused := hr.used p hp (.inr ⟨rfl, hd⟩)
    refine ⟨_, attached_monotonic hst hp (by rw [hm]; exact isMonotonic_identity)
      (by rw [hm]; rfl), fun S _ h => h.insert fun t hb => ?_⟩
    rw [foreachSplt_block hb, hused]
    rfl
  resolution s scan hr hdue _ := by
    have hnone := hr.frozen_nil hdue.1 (by rw [hm]; rfl)
    have hsame := hr.same hm hdue hop.inv_self
    rw [hm] at hsame
    refine .inl ⟨_, resolution_settled hm hr (by rw [hm]; exact isMonotonic_identity)
      (fun st => by rw [hnone]; rfl) fun dep hdep st => ?_, trivial⟩
    rw [hm] at hdep
    obtain rfl := List.mem_singleton.1 hdep
    refine resolveDep_same (hin _) (fun p hp e he => ?_) st
    rw [← hr.inputs]
    exact hsame p hp e he

/-- **`foreach` with a second vector** multiplies by its elements. -/
theorem settles_foreachCvec (hst : st.Copies lay)
    (hm : prog.call m = (Call.foreachCvec op i j).onInputs) (hop : op.IsGroup)
    (hin : ∀ j, ∀ e ∈ c₀ j, lay.InRange e) :
    Settles st lay prog x₀ c₀ m (.foreachCvec op i j) (Blocks lay fun t => x₀ i t * x₀ j t)
      (j = i ∨ ∀ e, e ∉ c₀ j) where
  fresh _ := .empty _ _
  attached s hr p hp hd hk hthrough := by
    subst hk
    refine ⟨_, attached_monotonic hst hp (by rw [hm]; exact isMonotonic_identity)
      (by rw [hm]; rfl), fun S _ h => h.insert fun t hb => ?_⟩
    have hend : (s.splt p).it = lay.b p := by
      rw [← cvecEnd_eq hp]
      refine hthrough.resolve_left fun hnone => ?_
      rw [hm] at hnone
      exact nomatch hnone
    rw [hr.swept j rfl p hp hd rfl t hb, hend, if_pos hb.2]
    rfl
  resolution s scan hr hdue hfine := by
    have hmono : isMonotonic (prog.call m).first.imap = true := by
      rw [hm]
      exact isMonotonic_identity
    have hsame := hr.same hm hdue hop.inv_self
    rw [hm] at hsame
    have hdeps : ∀ dep ∈ (prog.call m).deps, ∀ st,
        resolveDep lay (x₀ i) (c₀ i) (s.used m) st dep = .ok st := by
      intro dep hdep st
      have hdep' : dep = ⟨identity, op⟩ := by
        rw [hm] at hdep
        simp only [Call.onInputs, Call.deps] at hdep
        split at hdep
        · rcases List.mem_cons.1 hdep with h | h
          · exact h
          · exact List.mem_singleton.1 h
        · exact List.mem_singleton.1 hdep
      subst hdep'
      refine resolveDep_same (hin _) (fun p hp e he => ?_) st
      rw [← hr.inputs]
      exact hsame p hp e he
    have hpassed : ∀ l : List Ref, s.frozen m = l → (∀ st, l.foldlM (fun st f =>
        resolveFrozen lay (prog.call m).first (s.contended f) st) st = .ok st) →
        s.resolution lay prog m scan = .ok (s.data (.result m), s.contended (.result m)) :=
      fun l hl h => resolution_settled hm hr hmono (by rw [hl]; exact h) hdeps
    rcases hr.frozen hdue.1 with hf | ⟨hres, hf⟩
    · by_cases hij : j = i
      · exact .inl ⟨_, hpassed [] (by rw [hf, hm, hij]; exact if_pos rfl) fun _ => rfl, .inl hij⟩
      have hlist : s.frozen m = [.input j] := by
        rw [hf, hm]
        exact if_neg fun h => hij (Ref.input.inj h)
      have hfirst : (prog.call m).first = ⟨identity, op⟩ := by
        rw [hm]
        rfl
      by_cases hempty : ∀ e, e ∉ c₀ j
      · refine .inl ⟨_, hpassed _ hlist fun st => ?_, .inr hempty⟩
        rw [List.foldlM_cons, hfirst, hr.contended, resolveFrozen_nothing hempty]
        rfl
      · -- the second vector has no snapshots to compare with
        obtain ⟨e, he⟩ := not_forall.1 hempty
        refine .inr ⟨⟨.outOfBounds, ?_⟩, fun h => h.elim hij hempty⟩
        rw [resolution, if_pos hmono, resolveSrc, hlist, List.foldlM_cons, hfirst, hr.contended,
          resolveFrozen_contended (not_not.1 he) (hin j)]
        rfl
    · exact .inl ⟨_, hpassed [] hf fun _ => rfl, hfine hres⟩

omit [BpBits] in
/-- The maps that a stencil's workers see. -/
theorem tail_imaps {offs : List ℤ} {coeffs : List ℚ} (hlen : offs.length ≤ coeffs.length) :
    (stencilDeps offs coeffs).tail.map Dep.imap = offs.map offset := by
  rw [stencilDeps, List.tail_cons]
  induction offs generalizing coeffs with
  | nil => rfl
  | cons o offs ih =>
    cases coeffs with
    | nil => exact absurd hlen (Nat.not_succ_le_zero _)
    | cons r coeffs =>
      rw [List.zipWith_cons_cons, List.map_cons, List.map_cons, ih (Nat.le_of_succ_le_succ hlen)]

/-- **`stencil`** applies its kernel. -/
theorem settles_stencil {o : ℤ} {os : List ℤ} {coeffs : List ℚ} (hst : st.Copies lay)
    (hm : prog.call m = (Call.stencil i (o :: os) coeffs).onInputs)
    (hlen : (o :: os).length ≤ coeffs.length) (hin : ∀ j, ∀ e ∈ c₀ j, lay.InRange e)
    (hord : ∀ p < lay.hwconc, RangeInOrder lay (o :: os) p)
    (hreads : ∀ p < lay.hwconc, ReadsInside lay o os p)
    (hfit : ∀ o' ∈ o :: os, FitsWindows lay o') :
    Settles st lay prog x₀ c₀ m (.stencil i (o :: os) coeffs)
      (Blocks lay fun t => if ∀ o' ∈ o :: os, lay.InRange (t + o') then kernelCell (x₀ i) o t
        else x₀ i t) True where
  fresh _ := .empty _ _
  attached s hr p hp hd hk _ := by
    subst hk
    have hmono : isMonotonic (prog.call (s.done p)).first.imap = true := by
      rw [hm]
      exact isMonotonic_identity
    have hsplt : (prog.call (s.done p)).splinter lay p (s.used (s.done p) p) (s.splt p) =
        stencilSplt lay (offset o :: os.map offset) p (x₀ i) := by
      rw [hr.used p hp (.inr ⟨rfl, hd⟩), hm, ← List.map_cons, ← tail_imaps hlen]
      rfl
    obtain ⟨splt, he, hdata⟩ := stencilSplt_ok (x₀ i) (hord p hp) (hreads p hp)
    exact ⟨_, attached_monotonic hst hp hmono (hsplt.trans he), fun S _ h => h.insert hdata⟩
  resolution s scan hr hdue _ := by
    have hmono : isMonotonic (prog.call m).first.imap = true := by
      rw [hm]
      exact isMonotonic_identity
    have hnone := hr.frozen_nil hdue.1 (by rw [hm]; rfl)
    have hdata : s.data (prog.call m).src = x₀ i := by
      rw [hm]
      exact hr.inputs i
    refine .inl ⟨_, resolution_settled hm hr hmono (fun st => by rw [hnone]; rfl)
      fun dep hdep st => ?_, trivial⟩
    rw [hm] at hdep
    obtain ⟨o', r, op, rfl, hadds, ho'⟩ := offsets_of_mem hdep
    have hself : ∀ x, op.inv x x = op.identity := fun x => by
      rw [hadds.inv_eq, hadds.identity_eq, sub_self]
    have hsame := hr.same hm hdue hself
    rw [hdata] at hsame
    refine resolveDep_settled hsame (hin i) (windows_fit_iff.2 ?_) st
    rcases ho' with rfl | ho'
    · exact fun h => absurd h (lt_irrefl 0)
    · exact hfit o' ho'

/-! ## Reductions -/

section

variable [Std.Commutative op.f] [Std.Associative op.f]

/-- **`reduce`** joins what the workers add in their blocks. -/
theorem settles_reduce (hsmall : lay.size < 2 ^ 31)
    (hm : prog.call m = (Call.reduce op i).onInputs) (hop : op.IsGroup) :
    Settles st lay prog x₀ c₀ m (.reduce op i)
      (fun S d => d 0 = S.fold op.f op.identity (blockDiff lay op (x₀ i))) True where
  fresh _ := by
    rw [hm]
    rfl
  attached s hr p hp hd hk _ := by
    subst hk
    have hmono : isMonotonic (prog.call (s.done p)).first.imap = false := by
      rw [hm]
      exact isMonotonic_alltoone 0
    have hused := hr.used p hp (.inr ⟨rfl, hd⟩)
    have hsplt : (prog.call (s.done p)).splinter lay p (s.used (s.done p) p) (s.splt p) =
        .ok (reduceSplt lay p (x₀ i)) := by
      rw [hused, hm]
      rfl
    have hfirst : (prog.call (s.done p)).first.op = op := by
      rw [hm]
      rfl
    refine ⟨joinRange op (reduceSplt lay p (x₀ i)) (x₀ i) (s.data (.result (s.done p))) 0 1,
      ?_, fun S hS h => ?_⟩
    · rw [attached, hsplt]
      simp only [Exec.ok_bind, hmono, Bool.false_eq_true, if_false, hfirst, hused]
      rfl
    · have hone : (1 - 0 : ℤ).toNat = 1 := rfl
      rw [Finset.fold_insert hS, ← h]
      simp only [joinRange, hone, List.range_one, List.foldl_cons, List.foldl_nil, Nat.cast_zero,
        add_zero, joinCell, reduceSplt_eq hp, Function.update_self]
      split
      · rw [Function.update_self, hop.comm]
        rfl
      · next hzero =>
        have hdiff : blockDiff lay op (x₀ i) p = op.identity := not_not.1 hzero
        rw [hdiff, hop.identity]
  resolution s scan hr hdue _ := by
    have hmono : isMonotonic (prog.call m).first.imap = false := by
      rw [hm]
      exact isMonotonic_alltoone 0
    have hsrc : (prog.call m).src = .input i := by
      rw [hm]
      rfl
    have hfirst : (prog.call m).first.op = op := by
      rw [hm]
      rfl
    have hscan : resolveOnto op (x₀ i) (x₀ i) scan =
        fun target : ℚ => target := funext fun target =>
      List.foldl_fixed' (fun e => if_neg (not_not.2 (hop.inv_self _))) scan
    have horig : s.orig (.input i) = x₀ i := hr.orig hdue.1 hmono
    refine .inl ⟨s.contended (.result m), ?_, trivial⟩
    rw [resolution, if_neg (by rw [hmono]; exact Bool.false_ne_true), foldSrc,
      resolveLoop_of_lt hsmall, hsrc, hfirst, hr.inputs, horig, hscan]
    simp only [Exec.ok_bind, Function.update_eq_self]

omit [BpBits] in
/-- What all of them have added, in order. -/
theorem fold_range (g : ℕ → ℚ) (n : ℕ) :
    (Finset.range n).fold op.f op.identity g =
      (List.range n).foldl (fun acc p => op.f acc (g p)) op.identity := by
  induction n with
  | zero => rfl
  | succ n ih =>
    rw [Finset.range_add_one, Finset.fold_insert Finset.notMem_range_self, ih, List.range_succ,
      List.foldl_append, List.foldl_cons, List.foldl_nil]
    exact Std.Commutative.comm _ _

end

end Runtime

/-! ## The operator that adds -/

instance : Std.Commutative plus.f := ⟨add_comm⟩

instance : Std.Associative plus.f := ⟨add_assoc⟩

omit [BpBits] in
theorem plus_isGroup : plus.IsGroup :=
  ⟨add_assoc, add_comm, zero_add, sub_add_cancel⟩

omit [BpBits] in
/-- A group's operator that adds is `plus`. -/
theorem Op.IsGroup.eq_plus (hop : op.IsGroup) (hadd : ∀ a b, op.f a b = a + b) : op = plus := by
  obtain ⟨identity, f, inv⟩ := op
  obtain rfl : f = fun a b => a + b := funext₂ hadd
  obtain rfl : identity = 0 := by simpa using hop.identity 0
  obtain rfl : inv = fun a b => a - b := funext₂ fun a b => eq_sub_of_add_eq (hop.inv a b)
  rfl

omit [BpBits] in
theorem foldElems_plus (x : Contents) (size : ℕ) : foldElems plus x size = sumRange x 0 size := by
  have hfold : (Finset.range size).fold plus.f plus.identity (fun t : ℕ => x t) =
      foldElems plus x size := Runtime.fold_range _ size
  rw [← hfold, sumRange, sub_zero, Int.toNat_natCast]
  simp only [zero_add]
  rfl

omit [BpBits] in
/-- **Then the blocks add up.** -/
theorem fold_blocks_plus (lay : Layout) (x : Contents) :
    (Finset.range lay.hwconc).fold plus.f plus.identity (blockDiff lay plus x) =
      foldElems plus x lay.size := by
  have hblock : blockDiff lay plus x = fun p => sumRange x (lay.a p) (lay.b p) :=
    funext fun p => add_sub_cancel_left _ _
  rw [foldElems_plus, ← sum_blocks, hblock]
  rfl

omit [BpBits] in
/-- Of two sides that both depend on the last element only by it. -/
theorem Op.IsGroup.eq_of_join {T : Type} {op : Op T} (hop : op.IsGroup) {A B u y z : T}
    (h : op.f B (op.inv u z) = op.f A y) : u = op.f y (op.inv (op.f A z) B) := by
  let _ := hop.toAddCommGroup
  have h' : B + (u - z) = A + y := h
  have hu : u = A + y - B + z := by rw [← h']; abel
  have hy : op.f y (op.inv (op.f A z) B) = y + (A + z - B) := rfl
  rw [hy, hu]
  abel

/-- The first element is `z` and the last `y`, and those between are zeros. -/
def ends (n : ℕ) (z y : ℚ) : Contents := fun t => if t = n then y else if t = 0 then z else 0

section

variable {n : ℕ} {z y : ℚ}

omit [BpBits] in
theorem ends_last (n : ℕ) (z y : ℚ) : ends n z y n = y := if_pos rfl

omit [BpBits] in
theorem ends_zero (hn : 0 < n) : ends n z y 0 = z := by
  rw [ends, if_neg (by omega), if_pos rfl]

omit [BpBits] in
theorem ends_of_lt {t : ℤ} (h : t < n) : ends n z y t = ends n z 0 t := by
  have hne : t ≠ n := h.ne
  rw [ends, ends, if_neg hne, if_neg hne]

omit [BpBits] in
/-- The elements of the last block, without the last. -/
theorem sumRange_ends {a : ℤ} (ha : 0 ≤ a) (hn : 0 < n) :
    sumRange (ends n z 0) a n = if a = 0 then z else 0 := by
  have hterm : ∀ c ∈ Finset.Ico a n, ends n z 0 c = if c = 0 then z else 0 := fun c hc => by
    rw [ends, if_neg (Finset.mem_Ico.1 hc).2.ne]
  rw [sumRange_eq_sum _ fun c => Finset.mem_Ico, Finset.sum_congr rfl hterm, Finset.sum_ite_eq']
  exact if_congr (by rw [Finset.mem_Ico]; omega) rfl rfl

end

/-- The operator folds every vector right, block by block. -/
def FoldsRight (lay : Layout) (op : Op ℚ) : Prop :=
  ∀ x, (List.range lay.hwconc).foldl (fun acc p => op.f acc (blockDiff lay op x p)) op.identity =
    foldElems op x lay.size

omit [BpBits] in
/-- **Such an operator adds**, from where its zero is: the last element comes
to the others by `+` in its block, and by the operator in the fold. -/
theorem FoldsRight.f_eq (h : FoldsRight lay op) (hop : op.IsGroup) (hsize : 2 ≤ lay.size)
    (a b : ℚ) : op.f a b = a + b - op.identity := by
  obtain ⟨n, hn⟩ : ∃ n, lay.size = n + 1 := ⟨_, (Nat.succ_pred_eq_of_pos (by omega)).symm⟩
  have hn0 : 0 < n := by omega
  have hexists : ∃ w < lay.hwconc, lay.InBlock w n := Layout.exists_block ⟨by omega, by omega⟩
  obtain ⟨w, hw, hlast⟩ := hexists
  obtain ⟨hle, hlt⟩ := hlast
  have hbw : lay.b w = n + 1 := by have := lay.b_le_size w; omega
  have hw1 : w + 1 = lay.hwconc := Layout.eq_last hw (by omega)
  -- with `z` first, all but the last element come to `z + c`
  have hsolve : ∀ z, op.f a (z + (if lay.a w = 0 then z else 0) + op.identity) =
      z + (if lay.a w = 0 then z else 0) + a := by
    intro z
    have hjoin : ∀ y, op.f ((List.range w).foldl
          (fun acc p => op.f acc (blockDiff lay op (ends n z 0) p)) op.identity)
        (op.inv (z + (if lay.a w = 0 then z else 0) + y) z) =
        op.f ((List.range n).foldl (fun acc (t : ℕ) => op.f acc (ends n z 0 t)) op.identity) y := by
      intro y
      have hx := h (ends n z y)
      have hblocks : (List.range w).foldl
          (fun acc p => op.f acc (blockDiff lay op (ends n z y) p)) op.identity =
          (List.range w).foldl (fun acc p => op.f acc (blockDiff lay op (ends n z 0) p))
            op.identity := by
        refine List.foldl_ext _ _ _ fun acc p hp => ?_
        have hp := List.mem_range.1 hp
        have hbp : lay.b p ≤ n := by
          by_contra hover
          have := lay.b_le_size p
          have : p + 1 = lay.hwconc := Layout.eq_last (by omega) (by omega)
          omega
        rw [blockDiff, blockDiff, ends_zero hn0, ends_zero hn0,
          sumRange_congr fun c _ hc => ends_of_lt (y := y) (lt_of_lt_of_le hc hbp)]
      have hblock : blockDiff lay op (ends n z y) w =
          op.inv (z + (if lay.a w = 0 then z else 0) + y) z := by
        rw [blockDiff, hbw, sumRange_succ _ hle, ends_zero hn0, ends_last,
          sumRange_congr fun c _ hc => ends_of_lt (y := y) hc, sumRange_ends (lay.a_nonneg w) hn0,
          ← add_assoc]
      have helems : (List.range n).foldl (fun acc (t : ℕ) => op.f acc (ends n z y t)) op.identity =
          (List.range n).foldl (fun acc (t : ℕ) => op.f acc (ends n z 0 t)) op.identity :=
        List.foldl_ext _ _ _ fun acc t ht => by
          rw [ends_of_lt (y := y) (Int.ofNat_lt.2 (List.mem_range.1 ht))]
      rw [← hw1, foldElems, hn, List.range_succ, List.range_succ, List.foldl_append,
        List.foldl_append, hblocks, helems] at hx
      simp only [List.foldl_cons, List.foldl_nil, hblock, ends_last] at hx
      exact hx
    have hzero := hop.eq_of_join (hjoin op.identity)
    rw [hop.identity] at hzero
    rw [hzero]
    exact (hop.eq_of_join (hjoin a)).symm
  obtain ⟨z, hz⟩ : ∃ z, z + (if lay.a w = 0 then z else 0) = b - op.identity := by
    split
    · exact ⟨(b - op.identity) / 2, by ring⟩
    · exact ⟨b - op.identity, add_zero _⟩
  have := hsolve z
  rw [hz, sub_add_cancel] at this
  rw [this]
  ring

omit [BpBits] in
/-- Its zero is 0, since zeros are folded to it. -/
theorem FoldsRight.adds (h : FoldsRight lay op) (hop : op.IsGroup) (hsize : 2 ≤ lay.size)
    (a b : ℚ) : op.f a b = a + b := by
  have hf := h.f_eq hop hsize
  have hinv : op.inv 0 0 = op.identity := hop.inv_self 0
  have hfold : ∀ (v : ℚ) (n : ℕ), (List.range n).foldl (fun acc _ => op.f acc v) op.identity =
      op.identity + n * (v - op.identity) := by
    intro v n
    induction n with
    | zero => simp
    | succ n ih =>
      rw [List.range_succ, List.foldl_append, ih, List.foldl_cons, List.foldl_nil, hf]
      push_cast
      ring
  have hzero := h fun _ => 0
  have hblock : ∀ p, blockDiff lay op (fun _ => 0) p = op.identity := fun p => by
    rw [blockDiff, sumRange, Finset.sum_const_zero, add_zero, hinv]
  simp only [hblock, foldElems] at hzero
  rw [hfold, hfold] at hzero
  have hprod : (lay.size : ℚ) * op.identity = 0 := by linear_combination hzero
  have hsize' : (lay.size : ℚ) ≠ 0 := Nat.cast_ne_zero.2 (by omega)
  rw [hf, (mul_eq_zero.1 hprod).resolve_left hsize', sub_zero]

/-! ## The kernel of the stencil -/

omit [BpBits] in
theorem coeffAt_cons (e : ℤ × ℚ) (taps : List (ℤ × ℚ)) (o : ℤ) :
    coeffAt (e :: taps) o = (if e.1 = o then e.2 else 0) + coeffAt taps o := by
  rw [coeffAt, coeffAt, List.filter_cons]
  by_cases h : e.1 = o
  · simp [h]
  · simp [h]

omit [BpBits] in
/-- The sum over the taps, offset by offset. -/
theorem sum_taps (taps : List (ℤ × ℚ)) (g : ℤ → ℚ) {S : Finset ℤ} (h : ∀ e ∈ taps, e.1 ∈ S) :
    (taps.map fun e => e.2 * g e.1).sum = ∑ o ∈ S, coeffAt taps o * g o := by
  induction taps with
  | nil => exact (Finset.sum_eq_zero fun o _ => zero_mul (g o)).symm
  | cons e taps ih =>
    have ih := ih fun e' he' => h e' (List.mem_cons_of_mem e he')
    simp only [List.map_cons, List.sum_cons, ih, coeffAt_cons, add_mul, Finset.sum_add_distrib,
      ite_mul, zero_mul, Finset.sum_ite_eq, if_pos (h e List.mem_cons_self)]

omit [BpBits] in
/-- **Only the coefficient of each offset counts.** -/
theorem tapSum_congr {taps taps' : List (ℤ × ℚ)} (h : ∀ o, coeffAt taps o = coeffAt taps' o)
    (x : Contents) (t : ℤ) : tapSum taps x t = tapSum taps' x t := by
  have hmem : ∀ e ∈ taps, e.1 ∈ ((taps ++ taps').map Prod.fst).toFinset := fun e he =>
    List.mem_toFinset.2 (List.mem_map_of_mem (List.mem_append_left _ he))
  have hmem' : ∀ e ∈ taps', e.1 ∈ ((taps ++ taps').map Prod.fst).toFinset := fun e he =>
    List.mem_toFinset.2 (List.mem_map_of_mem (List.mem_append_right _ he))
  rw [tapSum, tapSum, sum_taps taps (fun o => x (t + o)) hmem,
    sum_taps taps' (fun o => x (t + o)) hmem']
  simp only [h]

omit [BpBits] in
theorem tapSum_kernelTaps (x : Contents) (o t : ℤ) :
    tapSum (kernelTaps o) x t = kernelCell x o t := by
  simp only [tapSum, kernelTaps, List.map_cons, List.map_nil, List.sum_cons, List.sum_nil,
    kernelCell, kernel, add_assoc]
  ring

omit [BpBits] in
/-- What a stencil makes of a single one. -/
theorem tapSum_single (taps : List (ℤ × ℚ)) (t o : ℤ) :
    tapSum taps (Pi.single (t + o) 1) t = (Pi.single (t + o) 1 : Contents) t + coeffAt taps o := by
  have hmem : ∀ e ∈ taps, e.1 ∈ insert o (taps.map Prod.fst).toFinset := fun e he =>
    Finset.mem_insert_of_mem (List.mem_toFinset.2 (List.mem_map_of_mem he))
  rw [tapSum, sum_taps taps (fun o' => (Pi.single (t + o) 1 : Contents) (t + o')) hmem]
  simp only [Pi.single_apply, add_right_inj, mul_ite, mul_one, mul_zero, Finset.sum_ite_eq',
    if_pos (Finset.mem_insert_self o _)]

namespace Runtime

variable {i j : ℕ} {val : ℚ} {acts : List RunAct}

/-! ## What the calls give -/

/-- A `foreach` with a value gives what it is asked for if and only if the
operator multiplies these elements. -/
theorem foreach_gives (hst : st.Copies lay)
    (hm : prog.call m = (Call.foreach op i val).onInputs) (hop : op.IsGroup)
    (hin : ∀ j, ∀ e ∈ c₀ j, lay.InRange e)
    (h : (runtime st lay prog).run (.start x₀ c₀) acts = some s) (hover : s.Over m) :
    (s.resolved m = true ∧ Gives lay x₀ (s.data (.result m)) (.foreach op i val)) ↔
      ∀ t, lay.InRange t → x₀ i t * val = op.f (x₀ i t) val := by
  obtain ⟨hres, hW⟩ := over_iff hm (settles_foreach hst hm hop hin) h hover
  have hdone := hres.2 trivial
  rw [and_iff_right hdone]
  refine forall₂_congr fun t ht => ?_
  rw [(hW hdone).inRange ht]

/-- One with a second vector has that to be repaired as well. -/
theorem foreachCvec_gives (hst : st.Copies lay)
    (hm : prog.call m = (Call.foreachCvec op i j).onInputs) (hop : op.IsGroup)
    (hin : ∀ j, ∀ e ∈ c₀ j, lay.InRange e)
    (h : (runtime st lay prog).run (.start x₀ c₀) acts = some s) (hover : s.Over m) :
    (s.resolved m = true ∧ Gives lay x₀ (s.data (.result m)) (.foreachCvec op i j)) ↔
      (j = i ∨ ∀ e, e ∉ c₀ j) ∧ ∀ t, lay.InRange t → x₀ i t * x₀ j t = op.f (x₀ i t) (x₀ j t) := by
  obtain ⟨hres, hW⟩ := over_iff hm (settles_foreachCvec hst hm hop hin) h hover
  rw [hres]
  refine and_congr_right fun hfine => forall₂_congr fun t ht => ?_
  rw [(hW (hres.2 hfine)).inRange ht]

/-- So either gives it if and only if the operator is the loop's. -/
theorem elementwise_gives {c : Call ℕ} (he : c.Elementwise) (hfits : c.Fits lay)
    (hm : prog.call m = c.onInputs) (hc : c.Proper) (hin : ∀ j, ∀ e ∈ c₀ j, lay.InRange e)
    (h : (runtime (.tries lay) lay prog).run (.start x₀ c₀) acts = some s) (hover : s.Over m) :
    (s.resolved m = true ∧ Gives lay x₀ (s.data (.result m)) c) ↔ c.Applies lay x₀ c₀ := by
  cases c with
  | foreach op i val =>
    exact foreach_gives (Storage.tries_copies_iff.2 hfits) hm hc hin h hover
  | foreachCvec op i j =>
    exact foreachCvec_gives (Storage.tries_copies_iff.2 hfits) hm hc hin h hover
  | stencil => exact he.elim
  | reduce => exact he.elim

/-- A stencil of the kernel that is written in gives what it is asked for. -/
theorem stencil_gives {o : ℤ} {os : List ℤ} {coeffs : List ℚ} (hst : st.Copies lay)
    (hm : prog.call m = (Call.stencil i (o :: os) coeffs).onInputs)
    (hlen : (o :: os).length ≤ coeffs.length) (hin : ∀ j, ∀ e ∈ c₀ j, lay.InRange e)
    (hord : ∀ p < lay.hwconc, RangeInOrder lay (o :: os) p ∧ ReadsInside lay o os p)
    (hfit : ∀ o' ∈ o :: os, FitsWindows lay o')
    (h : (runtime st lay prog).run (.start x₀ c₀) acts = some s) (hover : s.Over m) :
    s.resolved m = true ∧ ∀ t, lay.InRange t → (∀ o' ∈ o :: os, lay.InRange (t + o')) →
      s.data (.result m) t = tapSum (kernelTaps o) (x₀ i) t := by
  obtain ⟨hres, hW⟩ := over_iff hm (settles_stencil hst hm hlen hin
    (fun p hp => (hord p hp).1) (fun p hp => (hord p hp).2) hfit) h hover
  have hdone := hres.2 trivial
  refine ⟨hdone, fun t ht hnear => ?_⟩
  rw [(hW hdone).inRange ht, if_pos hnear, tapSum_kernelTaps]

/-- **The coefficients of a stencil that is right for all elements** are those
of the kernel, where it has a target: a single one shows each of them. -/
theorem coeffs_of_gives {o : ℤ} {os : List ℤ} {coeffs : List ℚ} (hst : st.Copies lay)
    (hm : prog.call m = (Call.stencil i (o :: os) coeffs).onInputs)
    (hlen : (o :: os).length ≤ coeffs.length) (hin : ∀ j, ∀ e ∈ c₀ j, lay.InRange e)
    (hord : ∀ p < lay.hwconc, RangeInOrder lay (o :: os) p ∧ ReadsInside lay o os p)
    (hfit : ∀ o' ∈ o :: os, FitsWindows lay o')
    (h : GivesAll st lay prog c₀ m (.stencil i (o :: os) coeffs)) {t : ℤ} (ht : lay.InRange t)
    (hnear : ∀ o' ∈ o :: os, lay.InRange (t + o')) (o' : ℤ) :
    coeffAt ((o :: os).zip coeffs) o' = coeffAt (kernelTaps o) o' := by
  obtain ⟨acts, s, hrun, hres, hgives⟩ := h fun _ => Pi.single (t + o') 1
  have hcell := (stencil_gives hst hm hlen hin hord hfit hrun (.inl hres)).2 t ht hnear
  rw [hgives t ht hnear, tapSum_single, tapSum_single] at hcell
  exact add_left_cancel hcell

/-- A `reduce` gives what it is asked for if and only if the blocks do. -/
theorem reduce_gives (hsmall : lay.size < 2 ^ 31)
    (hm : prog.call m = (Call.reduce op i).onInputs) (hop : op.IsGroup)
    (h : (runtime st lay prog).run (.start x₀ c₀) acts = some s) (hover : s.Over m) :
    s.resolved m = true ∧ (Gives lay x₀ (s.data (.result m)) (.reduce op i) ↔
      (List.range lay.hwconc).foldl (fun acc p => op.f acc (blockDiff lay op (x₀ i) p))
        op.identity = foldElems op (x₀ i) lay.size) := by
  have : Std.Commutative op.f := ⟨hop.comm⟩
  have : Std.Associative op.f := ⟨hop.assoc⟩
  obtain ⟨hres, hW⟩ := over_iff hm (settles_reduce hsmall hm hop) h hover
  have hdone := hres.2 trivial
  refine ⟨hdone, ?_⟩
  rw [Gives, hW hdone, fold_range]

/-- A `reduce` of a single element gives it if the operator adds it to
itself, and only then. -/
theorem reduce_one (hsize : lay.size = 1)
    (hm : prog.call m = (Call.reduce op i).onInputs) (hop : op.IsGroup)
    (h : (runtime st lay prog).run (.start x₀ c₀) acts = some s) (hover : s.Over m) :
    s.resolved m = true ∧ (Gives lay x₀ (s.data (.result m)) (.reduce op i) ↔
      op.f (x₀ i 0) (x₀ i 0) = x₀ i 0 + x₀ i 0) := by
  have ha := lay.a_nonneg 0
  have hab := Layout.a_lt_b lay.hwconc_pos
  have hb := lay.b_le_size 0
  have h1 : 0 + 1 = lay.hwconc := Layout.eq_last lay.hwconc_pos (by omega)
  have hblock : blockDiff lay op (x₀ i) 0 = op.inv (x₀ i 0 + x₀ i 0) (x₀ i 0) := by
    have ha0 : lay.a 0 = 0 := by omega
    have hb0 : lay.b 0 = 1 := by omega
    rw [blockDiff, ha0, hb0]
    simp [sumRange]
  refine (reduce_gives (by omega) hm hop h hover).imp_right fun hiff => hiff.trans ?_
  rw [← h1, foldElems, hsize]
  simp only [zero_add, List.range_one, List.foldl_cons, List.foldl_nil, hop.identity, hblock,
    Nat.cast_zero]
  exact hop.inv_eq_iff

/-- **A `reduce` that is right for all elements adds.** -/
theorem adds_of_gives (hsmall : lay.size < 2 ^ 31) (hsize : 2 ≤ lay.size)
    (hm : prog.call m = (Call.reduce op i).onInputs) (hop : op.IsGroup)
    (h : GivesAll st lay prog c₀ m (.reduce op i)) (a b : ℚ) : op.f a b = a + b := by
  have hfolds : FoldsRight lay op := fun x => by
    obtain ⟨acts, s, hrun, hres, hgives⟩ := h fun _ => x
    exact (reduce_gives hsmall hm hop hrun (.inl hres)).2.1 hgives
  exact hfolds.adds hop hsize a b

end Runtime

/-- **When a call applies the operator it is given.** In a run of any
program, in any order, a call on settled vectors that is over is resolved
and gives what it is asked for if the operator is the loop's. Where nothing
else can go wrong, a `foreach` does only then, and the operator of any call
that is right for all elements is the loop's. -/
theorem operators_apply {c : Call ℕ} (hm : prog.call m = c.onInputs) (hc : c.Proper)
    (hin : ∀ j, ∀ e ∈ c₀ j, lay.InRange e) :
    (∀ x₀ acts s, (runtime (.tries lay) lay prog).run (.start x₀ c₀) acts = some s → s.Over m →
      (AppliesOp lay x₀ c₀ c → s.resolved m = true ∧ Gives lay x₀ (s.data (.result m)) c) ∧
      (c.Elementwise → c.Fits lay →
        s.resolved m = true ∧ Gives lay x₀ (s.data (.result m)) c → AppliesOp lay x₀ c₀ c)) ∧
    (c.Fits lay → GivesAll (.tries lay) lay prog c₀ m c → ∀ x₀, AppliesOp lay x₀ c₀ c) := by
  by_cases he : c.Elementwise
  · have hiff := fun hfits x₀ acts s
        (h : (runtime (.tries lay) lay prog).run (.start x₀ c₀) acts = some s) =>
      Runtime.elementwise_gives he hfits hm hc hin h
    refine ⟨fun x₀ acts s h hover => ⟨fun ha => (hiff ha.1 x₀ acts s h hover).2 ha.2,
      fun _ hfits hg => ⟨hfits, (hiff hfits x₀ acts s h hover).1 hg⟩⟩, fun hfits h x₀ => ?_⟩
    obtain ⟨acts, s, hrun, hg⟩ := h x₀
    exact ⟨hfits, (hiff hfits x₀ acts s hrun (.inl hg.1)).1 hg⟩
  cases c with
  | foreach => exact absurd trivial he
  | foreachCvec => exact absurd trivial he
  | stencil i offs coeffs =>
    cases offs with
    | nil => exact ⟨fun _ _ _ _ _ => ⟨fun ha => ha.1.elim, False.elim⟩, False.elim⟩
    | cons o os =>
      refine ⟨fun x₀ acts s h hover => ⟨?_, False.elim⟩, ?_⟩
      · rintro ⟨⟨hcopy, hord, hfit⟩, happlies⟩
        refine (Runtime.stencil_gives (Storage.tries_copies_iff.2 hcopy) hm hc hin hord hfit h
          hover).imp_right fun hcell t ht hnear => ?_
        rw [hcell t ht hnear]
        exact tapSum_congr (fun o' => (happlies t ht hnear o').symm) _ t
      · rintro ⟨hcopy, hord, hfit⟩ h x₀
        exact ⟨⟨hcopy, hord, hfit⟩, fun t ht hnear =>
          Runtime.coeffs_of_gives (Storage.tries_copies_iff.2 hcopy) hm hc hin hord hfit h ht hnear⟩
  | reduce op i =>
    have hop : op.IsGroup := hc
    refine ⟨fun x₀ acts s h hover => ⟨?_, False.elim⟩, fun hsmall h x₀ => ⟨hsmall, ?_⟩⟩
    · rintro ⟨hsmall, hadd | ⟨hsize, hadd⟩⟩
      · obtain rfl := hop.eq_plus hadd
        refine (Runtime.reduce_gives hsmall hm hop h hover).imp_right fun hiff => hiff.2 ?_
        rw [← Runtime.fold_range]
        exact fold_blocks_plus lay (x₀ i)
      · exact (Runtime.reduce_one hsize hm hop h hover).imp_right fun hiff => hiff.2 hadd
    · rcases Nat.lt_or_ge lay.size 2 with hlt | hge
      · have hpos := lay.size_pos
        have hsize : lay.size = 1 := by omega
        obtain ⟨acts, s, hrun, hres, hg⟩ := h x₀
        exact .inr ⟨hsize, (Runtime.reduce_one hsize hm hop hrun (.inl hres)).2.1 hg⟩
      · exact .inl (Runtime.adds_of_gives hsmall hge hm hop h)

omit [BpBits] in
/-- Two workers and six squares, with the coefficients of the kernel; worker 1
comes first. -/
theorem operators_apply_six :
    letI := oneBit
    let lay : Layout := ⟨2, 6, by decide, by decide⟩
    let c : Call ℕ := .stencil 0 [-1, 0, 1] [heatConst, -2 * heatConst, heatConst]
    let prog : Program := ⟨fun _ => c.onInputs, fun _ _ h => h.elim (fun h => nomatch h)
      fun h => nomatch h⟩
    let x₀ : ℕ → Contents := fun _ t => t * t
    ∃ s, (runtime (.tries lay) lay prog).run (.start x₀ fun _ => .empty)
        [.call, .detach 1, .reattach 1, .detach 0, .reattach 0, .resolve 0 []] = some s ∧
      s.resolved 0 = true ∧ Gives lay x₀ (s.data (.result 0)) c := by
  let _ := oneBit
  intro lay c prog x₀
  have hend : ((runtime (.tries lay) lay prog).run (.start x₀ fun _ => .empty)
      [.call, .detach 1, .reattach 1, .detach 0, .reattach 0, .resolve 0 []]).map
        (fun s => s.resolved 0) = some true := by decide +kernel
  obtain ⟨s, hrun, hres⟩ := Option.map_eq_some_iff.1 hend
  have happlies : AppliesOp lay x₀ (fun _ => .empty) c := by
    refine ⟨⟨fun h => absurd h (by decide), fun p hp => ⟨?_, fun t _ hnear => ?_⟩, ?_⟩,
      fun _ _ _ o => rfl⟩
    · revert p
      decide
    · have hlast := hnear 1 (by decide)
      rwa [add_assoc]
    · unfold FitsWindows
      decide
  have hin : ∀ j : ℕ, ∀ e ∈ SortedSet.empty, lay.InRange e := fun _ _ he =>
    absurd he SortedSet.not_mem_empty
  have hm : prog.call 0 = c.onInputs := rfl
  have happly := operators_apply hm (Nat.le_refl 3) hin
  exact ⟨s, hrun, (happly.1 x₀ _ s hrun (.inl hres)).1 happlies⟩

/-- Addition, with 1 for its zero. -/
def shifted : Op ℚ := ⟨1, fun a b => a + b - 1, fun a b => a - b + 1⟩

omit [BpBits] in
theorem shifted_isGroup : shifted.IsGroup where
  assoc x y z := by simp only [shifted]; ring
  comm x y := by simp only [shifted]; ring
  identity x := by simp only [shifted]; ring
  inv x y := by simp only [shifted]; ring

omit [BpBits] in
/-- **Operators that are not applied.** One worker and three ones. Adding 1
to each, or adding the vector to itself, leaves ones, since ones are
multiplied; a stencil with three ones for its coefficients leaves ones, since
the kernel is another; and the fold of an operator that has 1 for its zero
gives 4, since ones are added. -/
theorem operators_ignored :
    letI := oneBit
    let lay : Layout := ⟨1, 3, by decide, by decide⟩
    let call : ℕ → Call ℕ := fun k =>
      match k with
      | 0 => .foreach plus 0 1
      | 1 => .foreachCvec plus 0 0
      | 2 => .stencil 0 [-1, 0, 1] [1, 1, 1]
      | _ => .reduce shifted 0
    let x₀ : ℕ → Contents := fun _ _ => 1
    ∃ (prog : Program) (s : Runtime), (∀ k, prog.call k = (call k).onInputs) ∧
      (runtime (.tries lay) lay prog).run (.start x₀ fun _ => .empty)
        [.call, .detach 0, .reattach 0, .resolve 0 [], .call, .detach 0, .sweep 0, .sweep 0,
          .sweep 0, .reattach 0, .resolve 1 [], .call, .detach 0, .reattach 0, .resolve 2 [],
          .call, .detach 0, .reattach 0, .resolve 3 []] = some s ∧
      ∀ k < 4, (call k).Proper ∧ s.resolved k = true ∧
        ¬ Gives lay x₀ (s.data (.result k)) (call k) := by
  let _ := oneBit
  intro lay call x₀
  let prog : Program := ⟨fun k => (call k).onInputs, fun k j h => by
    rw [Call.Reads, Call.src_onInputs, Call.other_onInputs] at h
    rcases h with h | h
    · cases h
    · obtain ⟨i, -, h⟩ := Option.map_eq_some_iff.1 h
      cases h⟩
  have hend : ((runtime (.tries lay) lay prog).run (.start x₀ fun _ => .empty)
      [.call, .detach 0, .reattach 0, .resolve 0 [], .call, .detach 0, .sweep 0, .sweep 0,
        .sweep 0, .reattach 0, .resolve 1 [], .call, .detach 0, .reattach 0, .resolve 2 [],
        .call, .detach 0, .reattach 0, .resolve 3 []]).map (fun s =>
          ((List.range 4).map s.resolved, s.data (.result 0) 0, s.data (.result 1) 0,
            s.data (.result 2) 1, s.data (.result 3) 0)) =
      some ([true, true, true, true], 1, 1, 1, 4) := by decide +kernel
  obtain ⟨s, hrun, hs⟩ := Option.map_eq_some_iff.1 hend
  simp only [Prod.mk.injEq] at hs
  obtain ⟨hres, h0, h1, h2, h3⟩ := hs
  have hresolved : ∀ k < 4, s.resolved k = true := by
    intro k hk
    have hlt : k < ((List.range 4).map s.resolved).length := by simpa using hk
    have hget : ((List.range 4).map s.resolved)[k] = s.resolved k := by simp
    have hall : ∀ b ∈ (List.range 4).map s.resolved, b = true := by
      rw [hres]
      decide
    rw [← hget]
    exact hall _ (List.getElem_mem hlt)
  refine ⟨prog, s, fun _ => rfl, hrun, fun k hk => ?_⟩
  have hcall : (call k).Proper ∧ ¬ Gives lay x₀ (s.data (.result k)) (call k) := by
    obtain rfl | rfl | rfl | rfl : k = 0 ∨ k = 1 ∨ k = 2 ∨ k = 3 := by omega
    · refine ⟨plus_isGroup, fun h => ?_⟩
      have := h 0 (by decide)
      rw [h0] at this
      exact absurd this (by decide +kernel)
    · refine ⟨plus_isGroup, fun h => ?_⟩
      have := h 0 (by decide)
      rw [h1] at this
      exact absurd this (by decide +kernel)
    · refine ⟨le_rfl, fun h => ?_⟩
      have := h 1 (by decide) (by decide)
      rw [h2] at this
      exact absurd this (by decide +kernel)
    · refine ⟨shifted_isGroup, fun h => ?_⟩
      have : s.data (.result 3) 0 = foldElems shifted (x₀ 0) lay.size := h
      rw [h3] at this
      exact absurd this (by decide +kernel)
  exact ⟨hcall.1, hresolved k hk, hcall.2⟩

end Contentious.Cont
