import Contentious.Common.Machine
import Contentious.Cont.Fold
import Contentious.Cont.Stencil

/-!
# Cont — any calls, on any vectors

The main thread makes calls of `foreach`, `reduce` and `stencil` on the
vectors it has, results of earlier calls among them, and does not wait.
Each call leaves a task with every worker and, when all have reattached,
a resolution. Workers take their tasks in order; which worker goes on next
is left open, and so is when a resolution runs: `runtime` has every order
there is, and `inChain` those in which a resolution runs once, after those
of the vectors its call reads.

A vector that a call gives holds first a copy of the vector it is made
from. `foreach` with a second vector reads that as it is, one element
after the other, while others may be writing it. How a block is copied into
the result is left to the storage, and a fold goes on for as long as its
indices are an `int32_t`.
-/

namespace Contentious.Cont

/-- `mult`, over exact numbers -/
def mult : Op ℚ := ⟨1, fun a b => a * b, fun a b => a / b⟩

/-- A vector: one the main thread has filled, or what a call gives. -/
inductive Ref
  | input (i : ℕ)
  | result (k : ℕ)
deriving DecidableEq, Repr

/-- A call on a vector, `src`, of those that are known as `V`. -/
inductive Call (V : Type)
  /-- `src.foreach(op, val)` -/
  | foreach (op : Op ℚ) (src : V) (val : ℚ)
  /-- `src.foreach(op, other)` -/
  | foreachCvec (op : Op ℚ) (src other : V)
  /-- `src.stencil<offs...>(coeffs)` -/
  | stencil (src : V) (offs : List ℤ) (coeffs : List ℚ)
  /-- `src.reduce(op)` -/
  | reduce (op : Op ℚ) (src : V)

namespace Call

variable {V : Type} [DecidableEq V]

/-- The vector it is called on. -/
def src : Call V → V
  | foreach _ src _ => src
  | foreachCvec _ src _ => src
  | stencil src _ _ => src
  | reduce _ src => src

/-- The second vector, if it takes one. -/
def other : Call V → Option V
  | foreachCvec _ _ other => some other
  | _ => none

/-- What the first `freeze` registers: `imaps[0]` and `ops[0]`. -/
def first : Call V → Dep
  | foreach op _ _ => ⟨identity, op⟩
  | foreachCvec op _ _ => ⟨identity, op⟩
  | stencil _ _ _ => ⟨identity, plus⟩
  | reduce op _ => ⟨alltoone 0, op⟩

/-- The entry in the tracker of `src`. The second `freeze` of a `foreach`
adds to it where the second vector is the first. -/
def deps : Call V → List Dep
  | foreach op _ _ => [⟨identity, op⟩]
  | foreachCvec op src other =>
    if other = src then [⟨identity, op⟩, ⟨identity, op⟩] else [⟨identity, op⟩]
  | stencil _ offs coeffs => stencilDeps offs coeffs
  | reduce op _ => [⟨alltoone 0, op⟩]

/-- The `frozen` list of that entry: the second vector, where it has an
entry of its own. -/
def frozen : Call V → List V
  | foreachCvec _ src other => if other = src then [] else [other]
  | _ => []

/-- What its result holds at first. -/
def fresh (data : V → Contents) : Call V → Contents
  | reduce op _ => fun _ => op.identity
  | c => data c.src

/-- It reads the vector. -/
def Reads (c : Call V) (r : V) : Prop := r = c.src ∨ c.other = some r

instance (c : Call V) (r : V) : Decidable (c.Reads r) := inferInstanceAs (Decidable (_ ∨ _))

end Call

/-- **The calls of a program**, in order: on vectors that are there by
then and have all elements. -/
structure Program where
  call : ℕ → Call Ref
  sound : ∀ k j, (call k).Reads (.result j) → j < k ∧ isMonotonic (call j).first.imap = true

/-- The vectors, the workers and what has been called. -/
structure Runtime where
  /-- the calls so far -/
  created : ℕ
  data : Ref → Contents
  orig : Ref → Contents
  contended : Ref → SortedSet ℤ
  /-- `_used[p]` in the entry of the `k`-th call -/
  used : ℕ → ℕ → Contents
  /-- what is left of the `frozen` list of that entry -/
  frozen : ℕ → List Ref
  /-- the splinter of worker `p`, and how far its loop has come, where that
  reads a second vector -/
  splt : ℕ → Sweep
  /-- whether worker `p` is between its detach and its reattach -/
  detached : ℕ → Bool
  /-- the tasks worker `p` is done with -/
  done : ℕ → ℕ
  /-- whether the resolution of the `k`-th call has run -/
  resolved : ℕ → Bool
  /-- the call that stopped the program, and how -/
  stopped : Option (ℕ × Fault)

/-- What can happen next. -/
inductive RunAct
  /-- the main thread makes its next call -/
  | call
  | detach (p : ℕ)
  /-- the worker reads one more element of the second vector -/
  | sweep (p : ℕ)
  /-- the worker runs its loop, or is through with it, and reattaches -/
  | reattach (p : ℕ)
  /-- the resolution of the `k`-th call, with the indices it visits where
  it folds -/
  | resolve (k : ℕ) (scan : List ℤ)
deriving DecidableEq, Repr

/-! ## What the workers run -/

variable [BpBits]

/-- The loop of `foreach_splt`. -/
def foreachSplt (lay : Layout) (val : ℚ) (p : ℕ) (used : Contents) : Contents :=
  (List.range (lay.b p - lay.a p).toNat).foldl
    (fun splt k => Function.update splt (lay.a p + (k : ℕ)) (splt (lay.a p + (k : ℕ)) * val)) used

/-- The loop of `reduce_splt`. -/
def reduceSplt (lay : Layout) (p : ℕ) (used : Contents) : Contents :=
  Function.update used 0
    ((List.range (lay.b p - lay.a p).toNat).foldl (fun temp k => temp + used (lay.a p + (k : ℕ)))
      (used 0))

/-- Where the loop of `foreach_splt_cvec` starts, in the second vector and
in the splinter; `imaps[0]` is the identity. -/
def cvecStart (lay : Layout) (p : ℕ) : ℤ × ℤ := safeMapping identity (lay.a p) 0 lay.size

/-- Where it ends. -/
def cvecEnd (lay : Layout) (p : ℕ) : ℤ := (safeMapping identity (lay.b p) 0 lay.size).2

/-- The body of that loop, and the two increments. -/
def cvecCell (lay : Layout) (other : Contents) (s : Sweep) : Exec Sweep := do
  let x ← elemAt lay other s.trck
  let target ← elemAt lay s.data s.it
  .ok ⟨Function.update s.data s.it (target * x), s.it + 1, s.trck + 1⟩

/-- The elements of the splinter when the loop is done. -/
def Call.splinter (lay : Layout) (p : ℕ) (used : Contents) (splt : Sweep) : Call Ref → Exec Contents
  | foreach _ _ val => .ok (foreachSplt lay val p used)
  | foreachCvec _ _ _ => .ok splt.data
  | stencil _ offs coeffs => stencilSplt lay ((stencilDeps offs coeffs).tail.map Dep.imap) p used
  | reduce _ _ => .ok (reduceSplt lay p used)

/-! ## Resolving onto a call's result -/

/-- The comparison at `c` for a vector of which no worker has detached:
`_used` holds empty vectors then, and `trck` is read in one. -/
def compareUnused (lay : Layout) (imap : Imap) (c : ℤ) : Exec Unit :=
  let cmap := imap c
  if cmap < 0 ∨ cmap > lay.size then .ok () else .error .outOfBounds

/-- `ff->resolve_monotonic(dep)` for a vector of the `frozen` list: the
workers detach from `src`, and never from it. -/
def resolveFrozen (lay : Layout) (dep : Dep) (contended : SortedSet ℤ)
    (st : Contents × SortedSet ℤ) :
    Exec (Contents × SortedSet ℤ) := do
  (windows lay dep.imap).elems.forM (compareUnused lay dep.imap)
  contended.elems.forM (compareUnused lay dep.imap)
  .ok st

namespace Runtime

/-- `src.resolve_monotonic(dep)`: the vectors of the `frozen` list first,
then `src` itself. -/
def resolveSrc (lay : Layout) (prog : Program) (s : Runtime) (k : ℕ) :
    Exec (Contents × SortedSet ℤ) :=
  (s.frozen k).foldlM (fun st f => resolveFrozen lay (prog.call k).first (s.contended f) st)
      (s.data (.result k), s.contended (.result k)) >>=
    resolveMonotonic lay (prog.call k).deps (s.data (prog.call k).src)
      (s.contended (prog.call k).src)
      (s.used k)

/-- `src.resolve(dep)`: what has changed since the freeze is folded into
the one element. -/
def foldSrc (lay : Layout) (prog : Program) (s : Runtime) (k : ℕ) (scan : List ℤ) :
    Exec Contents := do
  let i := (prog.call k).first.imap 0
  let target ← resolveLoop lay.size (prog.call k).first.op (s.orig (prog.call k).src)
    (s.data (prog.call k).src) scan (s.data (.result k) i)
  .ok (Function.update (s.data (.result k)) i target)

/-- What the resolution of a call makes of its result. -/
def resolution (lay : Layout) (prog : Program) (s : Runtime) (k : ℕ) (scan : List ℤ) :
    Exec (Contents × SortedSet ℤ) :=
  if isMonotonic (prog.call k).first.imap then s.resolveSrc lay prog k
  else do
    let d ← s.foldSrc lay prog k scan
    .ok (d, s.contended (.result k))

/-- What a reattach makes of the result. -/
def attached (st : Storage) (lay : Layout) (prog : Program) (s : Runtime) (p : ℕ) :
    Exec Contents := do
  let k := s.done p
  let splt ← (prog.call k).splinter lay p (s.used k p) (s.splt p)
  let d := s.data (.result k)
  if isMonotonic (prog.call k).first.imap then st.assign d splt (lay.a p) (lay.b p)
  else .ok (joinRange (prog.call k).first.op splt (s.used k p) d 0 1)

/-! ## Steps -/

/-- The result is made, and the call registered: a fold keeps what its
source holds now in `_orig`. -/
def call (prog : Program) (s : Runtime) : Runtime :=
  let k := s.created
  let c := prog.call k
  { s with
    created := k + 1
    data := Function.update s.data (.result k) (c.fresh s.data)
    orig := if isMonotonic c.first.imap then s.orig else Function.update s.orig c.src (s.data c.src)
    contended := Function.update s.contended (.result k) .empty
    frozen := Function.update s.frozen k c.frozen }

/-- `detach(dep, p)`, and the start of the loop. -/
def detach (lay : Layout) (prog : Program) (s : Runtime) (p : ℕ) : Runtime :=
  let k := s.done p
  let c := prog.call k
  let used := if isMonotonic c.first.imap then s.data c.src else s.orig c.src
  { s with
    used := Function.update s.used k (Function.update (s.used k) p used)
    splt := Function.update s.splt p ⟨used, (cvecStart lay p).2, (cvecStart lay p).1⟩
    detached := Function.update s.detached p true }

/-- One round of the loop over a second vector. -/
def sweep (lay : Layout) (s : Runtime) (p : ℕ) (other : Ref) : Runtime :=
  match cvecCell lay (s.data other) (s.splt p) with
  | .error e => { s with stopped := some (s.done p, e) }
  | .ok splt => { s with splt := Function.update s.splt p splt }

/-- The task is done. -/
def reattach (st : Storage) (lay : Layout) (prog : Program) (s : Runtime) (p : ℕ) : Runtime :=
  let k := s.done p
  match s.attached st lay prog p with
  | .error e => { s with stopped := some (k, e) }
  | .ok d =>
    { s with
      data := Function.update s.data (.result k) d
      detached := Function.update s.detached p false
      done := Function.update s.done p (k + 1) }

/-- The resolution of a call, which leaves its `frozen` list empty. -/
def resolve (lay : Layout) (prog : Program) (s : Runtime) (k : ℕ) (scan : List ℤ) : Runtime :=
  match s.resolution lay prog k scan with
  | .error e => { s with stopped := some (k, e) }
  | .ok (d, contended) =>
    { s with
      data := Function.update s.data (.result k) d
      contended := Function.update s.contended (.result k) contended
      frozen := Function.update s.frozen k []
      resolved := Function.update s.resolved k true }

/-- The loop of the worker's task is over, if it is one that reads a second
vector. -/
def Through (lay : Layout) (prog : Program) (s : Runtime) (p : ℕ) : Prop :=
  (prog.call (s.done p)).other = none ∨ (s.splt p).it = cvecEnd lay p

instance (lay : Layout) (prog : Program) (s : Runtime) (p : ℕ) : Decidable (s.Through lay prog p) :=
  inferInstanceAs (Decidable (_ ∨ _))

/-- The latch of the call is at zero, and the indices are those its
resolution visits, if it comes to an end. -/
def Due (lay : Layout) (prog : Program) (s : Runtime) (k : ℕ) (scan : List ℤ) : Prop :=
  k < s.created ∧ (∀ p < lay.hwconc, k < s.done p) ∧
    (isMonotonic (prog.call k).first.imap = false → lay.size < 2 ^ 31 →
      Scan lay.size (s.orig (prog.call k).src) (s.data (prog.call k).src) scan)

instance (lay : Layout) (prog : Program) (s : Runtime) (k : ℕ) (scan : List ℤ) :
    Decidable (s.Due lay prog k scan) := inferInstanceAs (Decidable (_ ∧ _ ∧ _))

/-- The vector will not be resolved onto any more. -/
def final (s : Runtime) : Ref → Bool
  | .input _ => true
  | .result j => s.resolved j

/-- The resolution is the first of its call, and those of the vectors the
call reads have run. -/
def inOrder (prog : Program) (s : Runtime) : RunAct → Bool
  | .resolve k _ => !s.resolved k && s.final (prog.call k).src && (prog.call k).other.all s.final
  | _ => true

/-- Nothing has been called yet. The vectors there are hold any elements,
and what is `contended` in them may be left from earlier. -/
def start (x₀ : ℕ → Contents) (contended₀ : ℕ → SortedSet ℤ) : Runtime where
  created := 0
  data := fun r => match r with
    | .input i => x₀ i
    | .result _ => fun _ => 0
  orig := fun _ _ => 0
  contended := fun r => match r with
    | .input i => contended₀ i
    | .result _ => .empty
  used := fun _ _ _ => 0
  frozen := fun _ => []
  splt := fun _ => ⟨fun _ => 0, 0, 0⟩
  detached := fun _ => false
  done := fun _ => 0
  resolved := fun _ => false
  stopped := none

end Runtime

/-- **The runtime**: every interleaving of the main thread, the workers and
the resolutions that are due. -/
def runtime (st : Storage) (lay : Layout) (prog : Program) : Machine Runtime RunAct where
  step := fun s act =>
    if s.stopped.isSome then none
    else
      match act with
      | .call => some (s.call prog)
      | .detach p =>
        if p < lay.hwconc ∧ s.detached p = false ∧ s.done p < s.created then
          some (s.detach lay prog p)
        else none
      | .sweep p =>
        match (prog.call (s.done p)).other with
        | some other =>
          if p < lay.hwconc ∧ s.detached p = true ∧ (s.splt p).it ≠ cvecEnd lay p then
            some (s.sweep lay p other)
          else none
        | none => none
      | .reattach p =>
        if p < lay.hwconc ∧ s.detached p = true ∧ s.Through lay prog p then
          some (s.reattach st lay prog p)
        else none
      | .resolve k scan => if s.Due lay prog k scan then some (s.resolve lay prog k scan) else none

/-- **The runtime with its resolutions in order along the chains.** -/
def inChain (st : Storage) (lay : Layout) (prog : Program) : Machine Runtime RunAct :=
  (runtime st lay prog).restrict (Runtime.inOrder prog)

end Contentious.Cont
