import Contentious.Trie.Persistence

/-!
# Trie — the update paths agree

Each edit of a list can be done by the const operation, its result
assigned back, or, in `bp_vector` and `tr_vector`, in place. The paths
build tries of different depths for one list: the const `push_back`
rotates an empty trie at once, the mutating ones fill the root leaf
first. `Holds` allows both, so either path can go on from what the other
left, and what is reached depends on the edits alone. But the const path is
there for all three vectors only to look at: it makes one from its base, and
`bp_vector` has no constructor for that (`Update.Instantiable`).
-/

namespace Contentious

variable [K : BpBits] {T : Type}

/-- An edit of a list. -/
inductive Edit (T : Type)
  | push (x : T)
  | set (i : ℕ) (x : T)

/-- The lists under edits: they grow up to the size whose capacity fits a
`size_t`, and are set below their length only. -/
def lists (T : Type) : Machine (List T) (Edit T) where
  step := fun L e =>
    match e with
    | .push x => if L.length + 1 ≤ maxSize then some (L ++ [x]) else none
    | .set i x => if i < L.length then some (L.set i x) else none

/-- An update of a `D` vector: an edit and the path it is done by.
`ps_vector` has no updates in place. -/
inductive Update (D : Der) (T : Type)
  | const (e : Edit T)
  | inPlace (hD : D ≠ .ps) (e : Edit T)

/-- What the update does to the list. -/
def Update.edit {D : Der} : Update D T → Edit T
  | .const e => e
  | .inPlace _ e => e

/-- The code of the update can be instantiated. That of the const ones starts
with `TDer<T> ret(*this)`, of a base, and `bp_vector` is made from another
only. -/
def Update.Instantiable {D : Der} : Update D T → Prop
  | .const _ => D ≠ .bp
  | .inPlace _ _ => True

/-- `v.mut_set(i, x)`, where `D` has it. -/
def mutSet (D : Der) (hD : D ≠ .ps) (h : Heap T) (v : BpVector) (i : ℕ) (x : T) :
    Exec (Heap T × BpVector) :=
  match D, hD with
  | .bp, _ => Bp.mutSet h v i x
  | .tr, _ => Tr.mutSet h v i x
  | .ps, hD => absurd rfl hD

variable [Inhabited T]

/-- `v.mut_push_back(x)`, where `D` has it. -/
def mutPushBack (D : Der) (hD : D ≠ .ps) (junk : Addr → Id) (h : Heap T) (v : BpVector) (x : T) :
    Exec (Heap T × BpVector) :=
  match D, hD with
  | .bp, _ => Bp.mutPushBack junk h v x
  | .tr, _ => Tr.mutPushBack h v x
  | .ps, hD => absurd rfl hD

/-- The default-constructed `D` vector; a `tr_vector` draws the id `id`. -/
def newVector (D : Der) (id : Id) (h : Heap T) : Heap T × BpVector :=
  match D with
  | .bp => Bp.new h
  | .ps => Ps.new h
  | .tr => Tr.new id h

/-- `v.push_back(x)` or `v.set(i, x)`, where `D` has it. -/
def constUpdate (D : Der) (h : Heap T) (v : BpVector) (e : Edit T) : Option (Heap T × BpVector) :=
  if D = .bp then none
  else
    match e with
    | .push x => (v.pushBack D h x).toOption
    | .set i x => (v.set D h i x).toOption

/-- The program over one handle: `v = v.push_back(x)`, `v = v.set(i, x)`,
`v.mut_push_back(x)`, `v.mut_set(i, x)`. -/
def handle (T : Type) [Inhabited T] (D : Der) (junk : Addr → Id) :
    Machine (Heap T × BpVector) (Update D T) where
  step := fun (h, v) u =>
    match u with
    | .const e => constUpdate D h v e
    | .inPlace hD (.push x) => (mutPushBack D hD junk h v x).toOption
    | .inPlace hD (.set i x) => (mutSet D hD h v i x).toOption

variable {h : Heap T} {Ψ : Addr → Place} {v : BpVector} {L : List T}

theorem newVector_represents (D : Der) (id : Id) :
    Represents (newVector D id (Heap.empty : Heap T)).1 (newVector D id (Heap.empty : Heap T)).2
      ([] : List T) := by
  have hP : Placed (Heap.empty : Heap T) fun _ => ⟨0, 0⟩ :=
    placed_of_fits fun a ha => absurd ha (Nat.not_lt_zero a)
  cases D with
  | bp => obtain ⟨Ψ, -, hP', hv⟩ := Holds.empty hP 0; exact ⟨Ψ, hP', hv⟩
  | ps => obtain ⟨Ψ, -, hP', hv⟩ := Holds.empty hP 0; exact ⟨Ψ, hP', hv⟩
  | tr => obtain ⟨Ψ, -, hP', hv⟩ := Holds.empty hP id; exact ⟨Ψ, hP', hv⟩

omit [Inhabited T] in
/-- **`mut_set` replaces one element**, in either type that has it. -/
theorem Holds.mutSet {D : Der} (hD : D ≠ .ps) (hP : Placed h Ψ) (hv : Holds h Ψ v L) {i : ℕ}
    (hi : i < L.length) (x : T) :
    ∃ s, (Contentious.mutSet D hD h v i x).toOption = some s ∧ Represents s.1 s.2 (L.set i x) := by
  have hcp : ∀ cp, ∃ s, (BpVector.setWith cp h v i x).toOption = some s ∧
      Represents s.1 s.2 (L.set i x) := by
    intro cp
    obtain ⟨h', r', Ψ', he, -, -, hP', hv'⟩ := hv.setWith cp hP hi x
    exact ⟨_, by rw [he]; rfl, Ψ', hP', hv'⟩
  cases D with
  | bp => exact hcp _
  | ps => exact absurd rfl hD
  | tr => exact hcp _

/-- **`mut_push_back` appends**, in either type that has it. -/
theorem Holds.mutPushBack {D : Der} (hD : D ≠ .ps) (junk : Addr → Id) (hP : Placed h Ψ)
    (hv : Holds h Ψ v L) (hmax : L.length + 1 ≤ maxSize) (x : T) :
    ∃ s, (Contentious.mutPushBack D hD junk h v x).toOption = some s ∧
      Represents s.1 s.2 (L ++ [x]) := by
  have hcp : ∀ cp newId, ∃ s, (BpVector.mutPushWith cp newId h v x).toOption = some s ∧
      Represents s.1 s.2 (L ++ [x]) := by
    intro cp newId
    obtain ⟨h', v', Ψ', he, -, -, -, hP', hv'⟩ := hv.mutPushWith cp newId hP hmax x
    exact ⟨_, by rw [he]; rfl, Ψ', hP', hv'⟩
  cases D with
  | bp => exact hcp _ _
  | ps => exact absurd rfl hD
  | tr => exact hcp _ _

/-- **`push_back` and `set`** do their edit, in the types that have them. -/
theorem Holds.constUpdate {D : Der} (hD : D ≠ .bp) (hP : Placed h Ψ) (hv : Holds h Ψ v L)
    {e : Edit T} {L' : List T} (hL : (lists T).step L e = some L') :
    ∃ s, Contentious.constUpdate D h v e = some s ∧ Represents s.1 s.2 L' := by
  unfold Contentious.constUpdate
  rw [if_neg hD]
  cases e with
  | push x =>
    obtain ⟨hmax, hL⟩ := Option.ite_none_right_eq_some.1 hL
    cases hL
    obtain ⟨h', v', Ψ', he, -, -, -, hP', hv'⟩ := hv.pushBack D hP hmax x
    exact ⟨(h', v'), by simp only [he, Except.toOption], Ψ', hP', hv'⟩
  | set i x =>
    obtain ⟨hi, hL⟩ := Option.ite_none_right_eq_some.1 hL
    cases hL
    obtain ⟨h', r', Ψ', he, -, -, hP', hv'⟩ := hv.setWith (nodeCopy D v.id) hP hi x
    exact ⟨(h', { v with root := r' }), by simp only [BpVector.set, he, Except.toOption], Ψ', hP',
      hv'⟩

/-- **Each update does its edit**, by either path. -/
theorem handle_follows (D : Der) (junk : Addr → Id) (L : List T) (u : Update D T) (L' : List T)
    (s : Heap T × BpVector) (hs : Represents s.1 s.2 L) (hu : u.Instantiable)
    (hL : (lists T).step L u.edit = some L') :
    ∃ s', (handle T D junk).step s u = some s' ∧ Represents s'.1 s'.2 L' := by
  obtain ⟨h, v⟩ := s
  obtain ⟨Ψ, hP, hv⟩ := hs
  match u with
  | .const e => exact hv.constUpdate hu hP hL
  | .inPlace hD (.push x) =>
    obtain ⟨hmax, hL⟩ := Option.ite_none_right_eq_some.1 hL
    cases hL
    exact hv.mutPushBack hD junk hP hmax x
  | .inPlace hD (.set i x) =>
    obtain ⟨hi, hL⟩ := Option.ite_none_right_eq_some.1 hL
    cases hL
    exact hv.mutSet hD hP hi x

theorem instantiable_of_step {D : Der} {junk : Addr → Id} {s s' : Heap T × BpVector}
    {u : Update D T} (h : (handle T D junk).step s u = some s') : u.Instantiable := by
  match u with
  | .const e => exact fun hD => absurd h (by simp [handle, constUpdate, hD])
  | .inPlace _ _ => exact trivial

/-- Updates that give a list, from the default-constructed vector. -/
theorem handle_represents (D : Der) (id : Id) (junk : Addr → Id) (us : List (Update D T))
    (hus : ∀ u ∈ us, u.Instantiable) {L : List T}
    (hL : (lists T).run [] (us.map Update.edit) = some L) :
    ∃ s, (handle T D junk).run (newVector D id Heap.empty) us = some s ∧ Represents s.1 s.2 L :=
  Machine.run_simulates_along (R := fun L (s : Heap T × BpVector) => Represents s.1 s.2 L)
    (C := fun _ u => u.Instantiable) Update.edit
    (fun L u L' s hs hu => handle_follows D junk L u L' s hs hu) (newVector_represents D id)
    (Machine.along_of_forall _ hus) hL

/-- **When the update paths agree.** Whichever of the three vectors it is, and
by whichever mix of const and in-place updates the edits are done, the
handle ends up denoting the list the edits give, if and only if all of them
can be instantiated: if it is no `bp_vector`, or one that is updated in place
only. -/
theorem updates_agree (D : Der) (id : Id) (junk : Addr → Id) (us : List (Update D T)) {L : List T}
    (hL : (lists T).run [] (us.map Update.edit) = some L) :
    (∃ h v, (handle T D junk).run (newVector D id Heap.empty) us = some (h, v) ∧ Denotes h v L) ↔
      ∀ u ∈ us, u.Instantiable := by
  constructor
  · rintro ⟨h, v, hrun, -⟩
    exact Machine.forall_of_run (fun s u s' hstep => instantiable_of_step hstep) hrun
  · intro hus
    obtain ⟨⟨h, v⟩, hrun, Ψ, -, hv⟩ := handle_represents D id junk us hus hL
    exact ⟨h, v, hrun, hv.denotes⟩

omit K in
/-- A transient over arrays of two, its first two values pushed by the
const operation, the others in place. -/
theorem updates_agree_oneBit :
    letI := oneBit
    ∃ h v, (handle ℕ .tr fun _ => 0).run (newVector .tr 1 Heap.empty)
      [.const (.push 1), .const (.push 2), .inPlace (by decide) (.push 3),
        .inPlace (by decide) (.set 0 4)] = some (h, v) ∧ Denotes h v [4, 2, 3] := by
  let _ := oneBit
  refine (updates_agree .tr 1 (fun _ => 0) [.const (.push 1), .const (.push 2),
    .inPlace (by decide) (.push 3), .inPlace (by decide) (.set 0 4)] (by decide +kernel)).2 ?_
  simp [Update.Instantiable]

omit K in
/-- **A push that is not there.** `v = v.push_back(1)` of a `bp_vector` is no
program. -/
theorem const_push_missing :
    letI := oneBit
    (lists ℕ).run [] [.push 1] = some [1] ∧
      ¬ ∃ h v, (handle ℕ .bp fun _ => 0).run (newVector .bp 0 Heap.empty) [.const (.push 1)] =
        some (h, v) ∧ Denotes h v [1] := by
  let _ := oneBit
  refine ⟨by decide +kernel, ?_⟩
  rintro ⟨h, v, hrun, -⟩
  have hnone : (handle ℕ .bp fun _ => 0).run (newVector .bp 0 Heap.empty) [.const (.push 1)] =
      none := rfl
  rw [hnone] at hrun
  exact nomatch hrun

end Contentious
