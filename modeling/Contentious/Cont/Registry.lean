import Contentious.Common.Machine
import Contentious.Cont.Runtime

/-!
# Cont — registering a call

A vector has a `tracker`, a hash map from the address of a dependent to
the index maps and operators that lead to it. `freeze` inserts an entry,
and ignores that there may be one already; its other overload adds to the
entry there is, and where there is none it makes one and links it to that
of the first vector. Nothing is ever taken out.

So a call finds what it has registered (`register_absent`) as long as no
entry is left at the address of its result from an earlier one. Addresses
come back when vectors are destroyed: then what a call finds is what it
has registered exactly if the old entry happens to be the first thing it
registers (`exact_iff`).
-/

namespace Contentious.Cont

/-- The address of a `cont_vector`. -/
abbrev VecAddr := ℕ

/-- `dependency_tracker`, without what the workers and the resolution keep
in it. -/
structure DependencyTracker where
  /-- `imaps` and `ops` -/
  deps : List Dep
  frozen : List VecAddr

/-- `tracker` of one vector -/
abbrev Tracker := VecAddr → Option DependencyTracker

/-- `tracker.emplace(dkey, imap, op)`, which does not overwrite: the map,
and whether it was inserted. -/
def emplace (tracker : Tracker) (dkey : VecAddr) (dep : Dep) : Tracker × Bool :=
  match tracker dkey with
  | some _ => (tracker, false)
  | none => (Function.update tracker dkey (some ⟨[dep], []⟩), true)

/-- The trackers of all vectors. -/
abbrev Trackers := VecAddr → Tracker

namespace Trackers

/-- `freeze(dep, imap, op)` of the vector at `self` -/
def freeze (tr : Trackers) (self dkey : VecAddr) (dep : Dep) : Trackers :=
  Function.update tr self (emplace (tr self) dkey dep).1

/-- `freeze(cont, dep, imap, op)` of the vector at `self` -/
def freezeFor (tr : Trackers) (self cont dkey : VecAddr) (dep : Dep) : Trackers :=
  let (tracker, inserted) := emplace (tr self) dkey dep
  let tr := Function.update tr self tracker
  if inserted then
    Function.update tr cont (Function.update (tr cont) dkey
      ((tr cont dkey).map fun e => { e with frozen := e.frozen ++ [self] }))
  else
    Function.update tr self (Function.update (tr self) dkey
      ((tr self dkey).map fun e => { e with deps := e.deps ++ [dep] }))

/-- The calls of `freeze` in `foreach`, `stencil` and `reduce`, for a
dependent at `dkey`. -/
def register (tr : Trackers) (dkey : VecAddr) : Call VecAddr → Trackers
  | .foreach op src _ => tr.freeze src dkey ⟨identity, op⟩
  | .foreachCvec op src other =>
    (tr.freeze src dkey ⟨identity, op⟩).freezeFor other src dkey ⟨identity, op⟩
  | .stencil src offs coeffs =>
    (List.zipWith (fun o c => (⟨offset o, fullop c⟩ : Dep)) offs coeffs).foldl
      (fun tr dep => tr.freezeFor src src dkey dep) (tr.freeze src dkey ⟨identity, plus⟩)
  | .reduce op src => tr.freeze src dkey ⟨alltoone 0, op⟩

end Trackers

/-- What a call registers, at which vector. -/
def Call.registered (c : Call VecAddr) : List (VecAddr × List Dep) :=
  (c.src, c.deps) ::
    match c.other with
    | some y => if y = c.src then [] else [(y, [c.first])]
    | none => []

/-- The vectors there are, and the calls whose results are not resolved. -/
structure Registry where
  live : Finset VecAddr
  tracker : Trackers
  pending : List (VecAddr × Call VecAddr)

/-- What can happen to them. -/
inductive RegAct
  /-- a vector is made by itself -/
  | make (a : VecAddr)
  /-- a call, whose result is at `dkey` -/
  | call (c : Call VecAddr) (dkey : VecAddr)
  /-- the result at `dkey` is resolved -/
  | resolve (dkey : VecAddr)
  | destroy (a : VecAddr)

namespace Registry

/-- `cont_vector()` at `a`: its tracker is empty. -/
def make (s : Registry) (a : VecAddr) : Registry :=
  { s with
    live := insert a s.live
    tracker := Function.update s.tracker a fun _ => none }

/-- A call, which makes its result first. -/
def call (s : Registry) (c : Call VecAddr) (dkey : VecAddr) : Registry :=
  { s.make dkey with
    tracker := (s.make dkey).tracker.register dkey c
    pending := (dkey, c) :: s.pending }

/-- The resolution empties the `frozen` list, and the entry stays. -/
def resolve (s : Registry) (dkey : VecAddr) (c : Call VecAddr) : Registry :=
  { s with
    tracker := Function.update s.tracker c.src (Function.update (s.tracker c.src) dkey
      ((s.tracker c.src dkey).map fun e => { e with frozen := [] }))
    pending := s.pending.filter fun x => x.1 ≠ dkey }

/-- One step. What a call that is not resolved takes part in is not
destroyed. -/
def step (s : Registry) : RegAct → Option Registry
  | .make a => if a ∉ s.live then some (s.make a) else none
  | .call c dkey =>
    if c.src ∈ s.live ∧ c.other.all (fun y => decide (y ∈ s.live)) = true ∧ dkey ∉ s.live then
      some (s.call c dkey)
    else none
  | .resolve dkey =>
    match s.pending.find? fun x => x.1 = dkey with
    | some x => some (s.resolve dkey x.2)
    | none => none
  | .destroy a =>
    if a ∈ s.live ∧ ∀ x ∈ s.pending, x.1 ≠ a ∧ ¬ x.2.Reads a then
      some { s with live := s.live.erase a }
    else none

/-- No vectors yet. -/
def start : Registry := ⟨∅, fun _ _ => none, []⟩

end Registry

/-- Any calls on any vectors. -/
def registry : Machine Registry RegAct := ⟨Registry.step⟩

/-! ## What is looked up -/

namespace Trackers

variable {tr : Trackers} {self cont dkey v k : VecAddr} {dep : Dep} {c : Call VecAddr}

/-- The index maps and operators in the entry at `k`. -/
def depsAt (tr : Trackers) (v k : VecAddr) : Option (List Dep) :=
  (tr v k).map DependencyTracker.deps

/-- An entry written is seen at its own key only. -/
theorem depsAt_update (e : Option DependencyTracker) :
    depsAt (Function.update tr self (Function.update (tr self) dkey e)) v k =
      if v = self ∧ k = dkey then e.map DependencyTracker.deps else tr.depsAt v k := by
  rw [depsAt]
  by_cases hv : v = self
  · subst hv
    rw [Function.update_self]
    by_cases hk : k = dkey
    · rw [hk, Function.update_self, if_pos ⟨rfl, rfl⟩]
    · rw [Function.update_of_ne hk, if_neg fun h => hk h.2, depsAt]
  · rw [Function.update_of_ne hv, if_neg fun h => hv h.1, depsAt]

/-- **The first `freeze`** does nothing where there is an entry. -/
theorem freeze_deps : (tr.freeze self dkey dep).depsAt v k =
    if v = self ∧ k = dkey then some ((tr.depsAt self dkey).getD [dep]) else tr.depsAt v k := by
  cases hold : tr self dkey with
  | some e =>
    simp only [freeze, emplace, hold, Function.update_eq_self, depsAt]
    split
    · next h =>
      rw [h.1, h.2, hold]
      rfl
    · rfl
  | none =>
    have hdeps : tr.depsAt self dkey = none := by
      rw [depsAt, hold]
      rfl
    simp only [freeze, emplace, hold]
    rw [depsAt_update, hdeps]
    rfl

/-- **The second** adds to it. -/
theorem freezeFor_deps : (tr.freezeFor self cont dkey dep).depsAt v k =
      if v = self ∧ k = dkey then some ((tr.depsAt self dkey).getD [] ++ [dep])
      else tr.depsAt v k := by
  -- linking the entry of `cont` changes no index maps
  have hlink : ∀ (tr : Trackers) (f : List VecAddr → List VecAddr),
      depsAt (Function.update tr cont (Function.update (tr cont) dkey
        ((tr cont dkey).map fun e => { e with frozen := f e.frozen }))) v k = tr.depsAt v k := by
    intro tr f
    rw [depsAt_update, Option.map_map]
    split
    · next h =>
      rw [h.1, h.2]
      rfl
    · rfl
  cases hold : tr self dkey with
  | none =>
    have hdeps : tr.depsAt self dkey = none := by
      rw [depsAt, hold]
      rfl
    simp only [freezeFor, emplace, hold, if_true]
    rw [hlink _ (fun l => l ++ [self]), depsAt_update, hdeps]
    rfl
  | some e =>
    have hdeps : tr.depsAt self dkey = some e.deps := by
      rw [depsAt, hold]
      rfl
    simp only [freezeFor, emplace, hold, Bool.false_eq_true, if_false, Function.update_eq_self]
    rw [depsAt_update, hdeps]
    rfl

/-- **What a call finds at its vector**: what was there, or the first it
registers, and then the rest. -/
theorem register_src : (tr.register dkey c).depsAt c.src dkey =
    some ((tr.depsAt c.src dkey).getD [c.first] ++ c.deps.tail) := by
  cases c with
  | foreach op src val =>
    rw [register, Call.src, freeze_deps, if_pos ⟨rfl, rfl⟩]
    exact congrArg some (List.append_nil _).symm
  | reduce op src =>
    rw [register, Call.src, freeze_deps, if_pos ⟨rfl, rfl⟩]
    exact congrArg some (List.append_nil _).symm
  | foreachCvec op src other =>
    rw [register, Call.src, Call.deps, freezeFor_deps]
    by_cases hy : other = src
    · rw [if_pos ⟨hy.symm, rfl⟩, if_pos hy, hy, freeze_deps, if_pos ⟨rfl, rfl⟩]
      rfl
    · rw [if_neg fun h => hy h.1.symm, if_neg hy, freeze_deps, if_pos ⟨rfl, rfl⟩]
      exact congrArg some (List.append_nil _).symm
  | stencil src offs coeffs =>
    simp only [register, Call.src, Call.deps, Call.first, stencilDeps, List.tail_cons]
    have hfold : ∀ (l : List Dep) (tr : Trackers) (ds : List Dep), tr.depsAt src dkey = some ds →
        (l.foldl (fun tr dep => tr.freezeFor src src dkey dep) tr).depsAt src dkey =
        some (ds ++ l) := by
      intro l
      induction l with
      | nil =>
        intro tr ds h
        rw [List.foldl_nil, List.append_nil, h]
      | cons dep l ih =>
        intro tr ds h
        rw [List.foldl_cons, ih _ (ds ++ [dep]), List.append_assoc]
        · rfl
        · rw [freezeFor_deps, if_pos ⟨rfl, rfl⟩, h]
          rfl
    exact hfold _ _ _ (by rw [freeze_deps, if_pos ⟨rfl, rfl⟩])

/-- **and at the second vector**, if it is another. -/
theorem register_other {y : VecAddr} (hy : c.other = some y) (hne : y ≠ c.src) :
    (tr.register dkey c).depsAt y dkey = some ((tr.depsAt y dkey).getD [] ++ [c.first]) := by
  cases c with
  | foreachCvec op src other =>
    cases hy
    have hne' : ¬ (y = src ∧ dkey = dkey) := fun h => hne h.1
    rw [register, freezeFor_deps, if_pos ⟨rfl, rfl⟩, freeze_deps, if_neg hne']
    rfl
  | _ => exact nomatch hy

/-- Every other entry stays. -/
theorem register_frame (hk : k ≠ dkey) : (tr.register dkey c).depsAt v k = tr.depsAt v k := by
  have hfreeze : ∀ (tr : Trackers) self dep, (freeze tr self dkey dep).depsAt v k = tr.depsAt v k :=
    fun tr self dep => by rw [freeze_deps, if_neg fun h => hk h.2]
  have hfor : ∀ (tr : Trackers) self cont dep,
    (freezeFor tr self cont dkey dep).depsAt v k = tr.depsAt v k :=
    fun tr self cont dep => by rw [freezeFor_deps, if_neg fun h => hk h.2]
  cases c with
  | foreach op src val => exact hfreeze ..
  | reduce op src => exact hfreeze ..
  | foreachCvec op src other => rw [register, hfor, hfreeze]
  | stencil src offs coeffs =>
    have hfold : ∀ (l : List Dep) (tr : Trackers),
        (l.foldl (fun tr dep => tr.freezeFor src src dkey dep) tr).depsAt v k = tr.depsAt v k := by
      intro l
      induction l with
      | nil => exact fun _ => rfl
      | cons dep l ih => exact fun tr => by rw [List.foldl_cons, ih, hfor]
    rw [register, hfold, hfreeze]

/-- No entry is without index maps. -/
def NoneEmpty (tr : Trackers) : Prop := ∀ v k ds, tr.depsAt v k = some ds → ds ≠ []

theorem NoneEmpty.freeze (h : tr.NoneEmpty) : (tr.freeze self dkey dep).NoneEmpty := by
  intro v k ds hds
  rw [freeze_deps] at hds
  split at hds
  · cases hds
    cases hold : tr.depsAt self dkey with
    | none => exact List.cons_ne_nil _ _
    | some ds => exact h self dkey ds hold
  · exact h v k ds hds

theorem NoneEmpty.freezeFor (h : tr.NoneEmpty) : (tr.freezeFor self cont dkey dep).NoneEmpty := by
  intro v k ds hds
  rw [freezeFor_deps] at hds
  split at hds
  · cases hds
    exact List.append_ne_nil_of_right_ne_nil _ (List.cons_ne_nil _ _)
  · exact h v k ds hds

theorem NoneEmpty.register (h : tr.NoneEmpty) : (tr.register dkey c).NoneEmpty := by
  cases c with
  | foreach op src val => exact h.freeze
  | reduce op src => exact h.freeze
  | foreachCvec op src other => exact h.freeze.freezeFor
  | stencil src offs coeffs =>
    have hfold : ∀ (l : List Dep) (tr : Trackers), tr.NoneEmpty →
        (l.foldl (fun tr dep => tr.freezeFor src src dkey dep) tr).NoneEmpty := by
      intro l
      induction l with
      | nil => exact fun _ h => h
      | cons dep l ih => exact fun tr h => ih _ h.freezeFor
    exact hfold _ _ h.freeze

/-- **Where no entry is left**, a call finds what it has registered, and
its second vector linked. -/
theorem register_absent (hsrc : tr c.src dkey = none)
    (hother : ∀ y, c.other = some y → y ≠ c.src → tr y dkey = none) :
    tr.register dkey c c.src dkey = some ⟨c.deps, c.frozen⟩ := by
  have hfreeze : ∀ {self} (_ : tr self dkey = none) dep,
    freeze tr self dkey dep self dkey = some ⟨[dep], []⟩ := by
    intro self h dep
    simp only [freeze, emplace, h, Function.update_self]
  have hmore : ∀ (tr : Trackers) {self e} (_ : tr self dkey = some e) dep,
      freezeFor tr self self dkey dep self dkey = some { e with deps := e.deps ++ [dep] } := by
    intro tr self e h dep
    simp only [freezeFor, emplace, h, Bool.false_eq_true, if_false, Function.update_self]
    rfl
  cases c with
  | foreach op src val => exact hfreeze hsrc _
  | reduce op src => exact hfreeze hsrc _
  | foreachCvec op src other =>
    by_cases hy : other = src
    · rw [Call.deps, Call.frozen, if_pos hy, if_pos hy, register, hy]
      exact hmore _ (hfreeze hsrc _) _
    · have hnone : (freeze tr src dkey ⟨identity, op⟩) other dkey = none := by
        rw [freeze, Function.update_of_ne hy]
        exact hother other rfl hy
      rw [Call.deps, Call.frozen, if_neg hy, if_neg hy, register, Call.src]
      simp only [freezeFor, emplace, hnone, if_true, Function.update_self,
        Function.update_of_ne (Ne.symm hy)]
      have hsrc' : tr src dkey = none := hsrc
      rw [hfreeze hsrc']
      rfl
  | stencil src offs coeffs =>
    have hfold : ∀ (l : List Dep) (tr : Trackers) (e : DependencyTracker), tr src dkey = some e →
        (l.foldl (fun tr dep => tr.freezeFor src src dkey dep) tr) src dkey =
          some { e with deps := e.deps ++ l } := by
      intro l
      induction l with
      | nil =>
        intro tr e h
        rw [List.foldl_nil, List.append_nil, h]
      | cons dep l ih =>
        intro tr e h
        rw [List.foldl_cons, ih _ _ (hmore tr h dep), List.append_assoc]
        rfl
    exact hfold _ _ _ (hfreeze hsrc _)

end Trackers

/-! ## The invariant -/

theorem Call.deps_eq (c : Call VecAddr) : c.deps = c.first :: c.deps.tail := by
  cases c with
  | foreachCvec op src other =>
    rw [Call.deps]
    split <;> rfl
  | _ => rfl

namespace Registry

variable {s t : Registry} {act : RegAct} {a dkey v k : VecAddr} {c : Call VecAddr}

/-- **What a pending call looks up is what it has registered**, in order. -/
def Exact (s : Registry) : Prop :=
  ∀ x ∈ s.pending, ∀ y ∈ x.2.registered, s.tracker.depsAt y.1 x.1 = some y.2

/-- What a call must find: nothing is left at the address of its result,
or only, at the vector it is called on, what it registers first. -/
def Unused (s : Registry) : RegAct → Prop
  | .call c dkey => (s.step (.call c dkey)).isSome →
    (∀ ds, s.tracker.depsAt c.src dkey = some ds → ds = [c.first]) ∧
      ∀ y, c.other = some y → y ≠ c.src → s.tracker.depsAt y dkey = none
  | _ => True

/-- What holds in every run: no entry is empty, and who takes part in a
pending call is there. -/
structure Kept (s : Registry) : Prop where
  nonempty : s.tracker.NoneEmpty
  dep_live : ∀ x ∈ s.pending, x.1 ∈ s.live
  live : ∀ x ∈ s.pending, ∀ y ∈ x.2.registered, y.1 ∈ s.live

theorem mem_registered {ds : List Dep} : (v, ds) ∈ c.registered ↔
    v = c.src ∧ ds = c.deps ∨ ∃ y, c.other = some y ∧ y ≠ c.src ∧ v = y ∧ ds = [c.first] := by
  rw [Call.registered, List.mem_cons, Prod.mk.injEq]
  refine or_congr_right ?_
  cases hy : c.other with
  | none => exact ⟨fun h => absurd h List.not_mem_nil, fun ⟨_, h, _⟩ => nomatch h⟩
  | some y =>
    dsimp only
    split
    · next heq =>
      refine ⟨fun h => absurd h List.not_mem_nil, ?_⟩
      rintro ⟨z, hz, hne, -⟩
      cases hz
      exact absurd heq hne
    · next hne =>
      rw [List.mem_singleton, Prod.mk.injEq]
      refine ⟨fun ⟨h1, h2⟩ => ⟨y, rfl, hne, h1, h2⟩, ?_⟩
      rintro ⟨z, hz, -, h1, h2⟩
      cases hz
      exact ⟨h1, h2⟩

/-- A vector that is made is another than those there are. -/
theorem make_depsAt (hv : v ≠ a) : (s.make a).tracker.depsAt v k = s.tracker.depsAt v k := by
  simp only [make, Trackers.depsAt, Function.update_of_ne hv]

theorem make_depsAt_self : (s.make a).tracker.depsAt a k = none := by
  simp only [make, Trackers.depsAt, Function.update_self, Option.map_none]

/-- The vectors a call is made on are there. -/
structure Callable (s : Registry) (c : Call VecAddr) (dkey : VecAddr) : Prop where
  src : c.src ∈ s.live
  other : ∀ y, c.other = some y → y ∈ s.live
  free : dkey ∉ s.live

theorem callable_of_step (h : s.step (.call c dkey) = some t) :
    s.Callable c dkey ∧ t = s.call c dkey := by
  obtain ⟨⟨h1, h2, h3⟩, h⟩ := Option.ite_none_right_eq_some.1 h
  cases h
  exact ⟨⟨h1, fun y hy => of_decide_eq_true ((Option.all_eq_true _ _).1 h2 y hy), h3⟩, rfl⟩

/-- **A call keeps exact what was, and is exact itself** if it finds
nothing that does not belong to it. -/
theorem exact_call_iff (hK : Kept s) (hE : Exact s) (hc : s.Callable c dkey) :
    Exact (s.call c dkey) ↔ (∀ ds, s.tracker.depsAt c.src dkey = some ds → ds = [c.first]) ∧
      ∀ y, c.other = some y → y ≠ c.src → s.tracker.depsAt y dkey = none := by
  have hne : ∀ v ∈ s.live, v ≠ dkey := fun v hv h => hc.free (by rw [← h]; exact hv)
  have hsrc : (s.call c dkey).tracker.depsAt c.src dkey =
      some ((s.tracker.depsAt c.src dkey).getD [c.first] ++ c.deps.tail) := by
    rw [← make_depsAt (s := s) (hne _ hc.src)]
    exact Trackers.register_src
  have hother : ∀ y, c.other = some y → y ≠ c.src → (s.call c dkey).tracker.depsAt y dkey =
      some ((s.tracker.depsAt y dkey).getD [] ++ [c.first]) := by
    intro y hy hys
    rw [← make_depsAt (s := s) (hne _ (hc.other y hy))]
    exact Trackers.register_other hy hys
  constructor
  · intro hexact
    have hnew := hexact (dkey, c) List.mem_cons_self
    constructor
    · intro ds hds
      have h := hnew (c.src, c.deps) (mem_registered.2 (.inl ⟨rfl, rfl⟩))
      rw [hsrc, hds, c.deps_eq, List.tail_cons] at h
      exact List.append_cancel_right (Option.some.inj h)
    · intro y hy hys
      have h := hnew (y, [c.first]) (mem_registered.2 (.inr ⟨y, hy, hys, rfl, rfl⟩))
      rw [hother y hy hys] at h
      cases hds : s.tracker.depsAt y dkey with
      | none => rfl
      | some ds =>
        rw [hds] at h
        exact absurd (List.append_left_eq_self.1 (Option.some.inj h)) (hK.nonempty y dkey ds hds)
  · rintro ⟨h1, h2⟩ x hx ⟨v, ds⟩ hy
    rcases List.mem_cons.1 hx with rfl | hx
    · rcases mem_registered.1 hy with ⟨rfl, rfl⟩ | ⟨y, hyo, hys, rfl, rfl⟩
      · have hfirst : (s.tracker.depsAt c.src dkey).getD [c.first] = [c.first] := by
          cases hds : s.tracker.depsAt c.src dkey with
          | none => rfl
          | some ds => exact h1 ds hds
        rw [hsrc, hfirst, c.deps_eq]
        rfl
      · rw [hother v hyo hys, h2 v hyo hys]
        rfl
    · -- the result of a call that is pending is there, at another address
      have hk : x.1 ≠ dkey := hne _ (hK.dep_live x hx)
      have hv : v ≠ dkey := hne _ (hK.live x hx (v, ds) hy)
      have hframe : (s.call c dkey).tracker.depsAt v x.1 = (s.make dkey).tracker.depsAt v x.1 :=
        Trackers.register_frame hk
      rw [hframe, make_depsAt hv]
      exact hE x hx (v, ds) hy

/-! ## Steps -/

/-- A resolution leaves the index maps. -/
theorem resolve_depsAt : (s.resolve dkey c).tracker.depsAt v k = s.tracker.depsAt v k := by
  simp only [resolve, Trackers.depsAt]
  by_cases hv : v = c.src
  · rw [hv, Function.update_self]
    by_cases hk : k = dkey
    · rw [hk, Function.update_self, Option.map_map]
      rfl
    · rw [Function.update_of_ne hk]
  · rw [Function.update_of_ne hv]

theorem live_of_registered (hc : s.Callable c dkey) {y : VecAddr × List Dep}
    (hy : y ∈ c.registered) :
    y.1 ∈ s.live := by
  obtain ⟨v, ds⟩ := y
  rcases mem_registered.1 hy with ⟨rfl, -⟩ | ⟨y, hyo, -, rfl, -⟩
  · exact hc.src
  · exact hc.other v hyo

/-- What a call registers at is what it reads. -/
theorem reads_of_registered {y : VecAddr × List Dep} (hy : y ∈ c.registered) : c.Reads y.1 := by
  obtain ⟨v, ds⟩ := y
  rcases mem_registered.1 hy with ⟨rfl, -⟩ | ⟨y, hyo, -, rfl, -⟩
  · exact .inl rfl
  · exact .inr hyo

theorem Kept.make (hs : Kept s) : (s.make a).tracker.NoneEmpty := by
  intro v k ds hds
  by_cases hv : v = a
  · rw [hv, make_depsAt_self] at hds
    exact nomatch hds
  · rw [make_depsAt hv] at hds
    exact hs.nonempty v k ds hds

theorem Kept.step (hs : Kept s) (h : s.step act = some t) : Kept t := by
  cases act with
  | make a =>
    obtain ⟨-, h⟩ := Option.ite_none_right_eq_some.1 h
    cases h
    exact ⟨hs.make, fun x hx => Finset.mem_insert_of_mem (hs.dep_live x hx),
      fun x hx y hy => Finset.mem_insert_of_mem (hs.live x hx y hy)⟩
  | call c dkey =>
    obtain ⟨hc, rfl⟩ := callable_of_step h
    refine ⟨hs.make.register, fun x hx => ?_, fun x hx y hy => ?_⟩
    · rcases List.mem_cons.1 hx with rfl | hx
      · exact Finset.mem_insert_self ..
      · exact Finset.mem_insert_of_mem (hs.dep_live x hx)
    · rcases List.mem_cons.1 hx with rfl | hx
      · exact Finset.mem_insert_of_mem (live_of_registered hc hy)
      · exact Finset.mem_insert_of_mem (hs.live x hx y hy)
  | resolve dkey =>
    simp only [Registry.step] at h
    split at h
    · next x hx =>
      cases h
      refine ⟨fun v k ds hds => ?_, fun y hy => hs.dep_live y (List.mem_filter.1 hy).1,
        fun y hy => hs.live y (List.mem_filter.1 hy).1⟩
      rw [resolve_depsAt] at hds
      exact hs.nonempty v k ds hds
    · exact nomatch h
  | destroy a =>
    obtain ⟨⟨-, hfree⟩, h⟩ := Option.ite_none_right_eq_some.1 h
    cases h
    refine ⟨hs.nonempty, fun x hx => Finset.mem_erase.2 ⟨(hfree x hx).1, hs.dep_live x hx⟩,
      fun x hx y hy => Finset.mem_erase.2 ⟨?_, hs.live x hx y hy⟩⟩
    rintro rfl
    exact (hfree x hx).2 (reads_of_registered hy)

/-- **A step that meets the condition** keeps what is pending exact. -/
theorem Exact.step (hE : Exact s) (hK : Kept s) (hU : Unused s act) (h : s.step act = some t) :
    Exact t := by
  cases act with
  | make a =>
    obtain ⟨ha, h⟩ := Option.ite_none_right_eq_some.1 h
    cases h
    intro x hx y hy
    have hv : y.1 ≠ a := fun heq => ha (by rw [← heq]; exact hK.live x hx y hy)
    rw [make_depsAt hv]
    exact hE x hx y hy
  | call c dkey =>
    have hsome : (s.step (.call c dkey)).isSome := by rw [h]; rfl
    obtain ⟨hc, rfl⟩ := callable_of_step h
    exact (exact_call_iff hK hE hc).2 (hU hsome)
  | resolve dkey =>
    simp only [Registry.step] at h
    split at h
    · cases h
      intro y hy z hz
      rw [resolve_depsAt]
      exact hE y (List.mem_filter.1 hy).1 z hz
    · exact nomatch h
  | destroy a =>
    obtain ⟨-, h⟩ := Option.ite_none_right_eq_some.1 h
    cases h
    exact hE

/-- **When calls find what they have registered.** In a run of any calls on
any vectors, with results resolved and destroyed and their addresses used
again, every pending call looks up exactly what it has registered
throughout, if and only if each call finds nothing at the address of its
result, or at its own vector what it registers first and nothing else. -/
theorem exact_iff (acts : List RegAct) :
    registry.Always Exact start acts ↔ registry.Along Unused start acts := by
  refine Machine.always_iff_along (I := Kept) (J := Exact) (fun s a t hs h => hs.step h)
    (fun s a t hK hE hU h => hE.step hK hU h) (fun s _ hE => hE) ?_
    ⟨fun v k ds h => (nomatch h), fun x hx => absurd hx List.not_mem_nil,
      fun x hx => absurd hx List.not_mem_nil⟩ fun x hx => absurd hx List.not_mem_nil
  intro s act hK hE hU
  cases act with
  | call c dkey =>
    obtain ⟨hsome, hused⟩ := Classical.not_imp.1 hU
    obtain ⟨t, h⟩ := Option.isSome_iff_exists.1 hsome
    refine ⟨t, h, fun hexact => hused ?_⟩
    obtain ⟨hc, rfl⟩ := callable_of_step h
    exact (exact_call_iff hK hE hc).1 hexact
  | _ => exact absurd trivial hU

/-- **An entry is left.** A stencil of vector 0, whose result is at 1, is
resolved and destroyed; a `foreach` on vector 0 then makes its result at 1,
and finds the stencil's index maps. -/
theorem entry_left :
    ∃ (acts : List RegAct) (s : Registry) (c : Call VecAddr) (ds : List Dep),
      registry.run start acts = some s ∧ s.pending = [(1, c)] ∧ c = .foreach mult 0 2 ∧
        s.tracker.depsAt c.src 1 = some ds ∧ ds.length = 4 ∧ c.deps.length = 1 := by
  let acts : List RegAct :=
    [.make 0, .call (.stencil 0 [-1, 0, 1] [1, -2, 1]) 1, .resolve 1, .destroy 1,
      .call (.foreach mult 0 2) 1]
  exact ⟨acts, _, .foreach mult 0 2, stencilDeps [-1, 0, 1] [1, -2, 1], rfl, rfl, rfl, rfl, rfl,
    rfl⟩

end Registry

end Contentious.Cont
