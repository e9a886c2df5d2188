import Contentious.Common.Machine
import Contentious.Cont.Stencil
import Mathlib.Logic.Function.Iterate

/-!
# Cont — the heat pipeline

Vectors `0, 1, 2, …`, each the `stencil<-1, 0, 1>` of the one before, made
faster than they are computed. Worker `p` takes its tasks in order: it
detaches from a vector, computes its block, and reattaches to the next.
What it detached from may not have been written yet by the others, and
may change again when it is resolved. A resolution runs once all workers
have reattached, in order along the chain. How a block is copied into the
next vector is left to the storage.
-/

namespace Contentious.Cont

/-- What `stencil<-1, 0, 1>({s, -2s, s})` registers. -/
def heatDeps : List Dep :=
  stencilDeps [-1, 0, 1] [1 * heatConst, -2 * heatConst, 1 * heatConst]

/-- The vectors of the chain and their workers. -/
structure Chain where
  /-- the calls of `stencil` so far: the number of the last vector -/
  created : ℕ
  data : ℕ → Contents
  contended : ℕ → SortedSet ℤ
  /-- `_used[p]` in the tracker of the `k`-th vector -/
  used : ℕ → ℕ → Contents
  /-- whether worker `p` is between its detach and its reattach -/
  detached : ℕ → Bool
  /-- the tasks worker `p` is done with -/
  done : ℕ → ℕ
  /-- the resolutions done: the number of the last vector that is resolved -/
  resolved : ℕ
  /-- what stopped the program -/
  stopped : Option Fault

/-- What can happen next. -/
inductive Act
  /-- the next call of `stencil` -/
  | stencil
  | detach (p : ℕ)
  /-- the worker runs its loop and reattaches -/
  | reattach (p : ℕ)
  | resolve
deriving DecidableEq, Repr

namespace Chain

/-- A new vector, a copy of the last one. -/
def stencil (s : Chain) : Chain :=
  { s with
    created := s.created + 1
    data := Function.update s.data (s.created + 1) (s.data s.created)
    contended := Function.update s.contended (s.created + 1) .empty }

/-- The worker's task has a snapshot of the vector it reads. -/
def detach (s : Chain) (p : ℕ) : Chain :=
  let k := s.done p
  { s with
    used := Function.update s.used k (Function.update (s.used k) p (s.data k))
    detached := Function.update s.detached p true }

/-- What the next vector holds with the block the worker has computed. -/
def attached [BpBits] (st : Storage) (lay : Layout) (s : Chain) (p : ℕ) : Exec Contents := do
  let k := s.done p
  let splt ← stencilSplt lay (heatDeps.tail.map Dep.imap) p (s.used k p)
  st.assign (s.data (k + 1)) splt (lay.a p) (lay.b p)

/-- The task is done. -/
def reattach [BpBits] (st : Storage) (lay : Layout) (s : Chain) (p : ℕ) : Chain :=
  let k := s.done p
  match s.attached st lay p with
  | .error e => { s with stopped := some e }
  | .ok d =>
    { s with
      data := Function.update s.data (k + 1) d
      detached := Function.update s.detached p false
      done := Function.update s.done p (k + 1) }

/-- The next vector is resolved onto. -/
def resolve (lay : Layout) (s : Chain) : Chain :=
  let k := s.resolved
  match resolveMonotonic lay heatDeps (s.data k) (s.contended k) (s.used k)
      (s.data (k + 1), s.contended (k + 1)) with
  | .error e => { s with stopped := some e }
  | .ok (d, contended) =>
    { s with
      data := Function.update s.data (k + 1) d
      contended := Function.update s.contended (k + 1) contended
      resolved := k + 1 }

/-- The next resolution is due: all workers have reattached. -/
def Due (lay : Layout) (s : Chain) : Prop :=
  s.resolved < s.created ∧ ∀ p < lay.hwconc, s.resolved < s.done p

instance (lay : Layout) (s : Chain) : Decidable (s.Due lay) := inferInstanceAs (Decidable (_ ∧ _))

end Chain

/-- The pipeline. -/
def chain [BpBits] (st : Storage) (lay : Layout) : Machine Chain Act where
  step := fun s act =>
    if s.stopped.isSome then none
    else
      match act with
      | .stencil => some s.stencil
      | .detach p =>
        if p < lay.hwconc ∧ s.detached p = false ∧ s.done p < s.created then some (s.detach p)
        else none
      | .reattach p =>
        if p < lay.hwconc ∧ s.detached p = true then some (s.reattach st lay p) else none
      | .resolve => if s.Due lay then some (s.resolve lay) else none

/-- One vector, with nothing asked of it yet. -/
def Chain.start (x₀ : Contents) : Chain where
  created := 0
  data := fun _ => x₀
  contended := fun _ => .empty
  used := fun _ _ => x₀
  detached := fun _ => false
  done := fun _ => 0
  resolved := 0
  stopped := none

/-! ## What it is to compute -/

/-- One step of the sequential loop: each interior cell `j` becomes
`x[j] + s*(x[j-1] - 2*x[j] + x[j+1])`, and the ends stay. -/
def heatStep (lay : Layout) (x : Contents) : Contents :=
  fun t => if 1 ≤ t ∧ t < lay.size - 1 then heatCell x t else x t

/-- `k` steps of it. -/
def heat (lay : Layout) (x₀ : Contents) (k : ℕ) : Contents := (heatStep lay)^[k] x₀

/-- Nothing has stopped, and every vector that is resolved is what the
sequential loop gives. -/
def Correct (lay : Layout) (x₀ : Contents) (s : Chain) : Prop :=
  s.stopped = none ∧ ∀ k ≤ s.resolved, ∀ t, lay.InRange t → s.data k t = heat lay x₀ k t

/-- The workers of the two end blocks read the neighbours of the ends as
they are. -/
def EndsRead (lay : Layout) (s : Chain) : Prop :=
  ∀ p < lay.hwconc,
    (lay.InBlock p 0 → s.used s.resolved p 1 = s.data s.resolved 1) ∧
      (lay.InBlock p (lay.size - 1) →
        s.used s.resolved p (lay.size - 2) = s.data s.resolved (lay.size - 2))

instance (lay : Layout) (s : Chain) : Decidable (EndsRead lay s) :=
  inferInstanceAs (Decidable (∀ p < lay.hwconc, _))

/-- What a step must meet: a resolution is of a vector with two ends, and
finds that they were read so. -/
def EndsHold (lay : Layout) (s : Chain) : Act → Prop
  | .resolve => s.Due lay → 2 ≤ lay.size ∧ EndsRead lay s
  | _ => True

instance (lay : Layout) (s : Chain) : (act : Act) → Decidable (EndsHold lay s act)
  | .resolve => inferInstanceAs (Decidable (s.Due lay → _))
  | .stencil | .detach _ | .reattach _ => isTrue trivial

end Contentious.Cont
