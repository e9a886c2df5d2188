import Contentious.Common.Machine
import Contentious.Trie.Reach
import Mathlib.Data.List.Forall2

/-!
# Trie — every version of a persistent vector lasts

A program over `ps_vector` holds any number of versions and makes new
ones out of them; here a version is a line of a list that only grows. The
specification is the same program over plain lists. `ps_vector` copies
every node it writes to, so an update leaves the whole heap it found as
it was (`Edits.cell_eq` at a test that never lets a node through), and
the code follows the specification step for step.
-/

namespace Contentious

variable [K : BpBits] {T : Type}

/-- Memory before anything is made. -/
def Heap.empty [Inhabited T] : Heap T := ⟨0, fun _ => BpNode.newLeaves 0⟩

/-- What a vector denotes, as a program can tell: its size, its elements,
and that `at` throws past them. -/
structure Denotes (h : Heap T) (v : BpVector) (L : List T) : Prop where
  size : v.sz = L.length
  at_lt : ∀ i (hi : i < L.length), v.at' h i = .ok L[i]
  at_ge : ∀ i, L.length ≤ i → v.at' h i = .error (.outOfRange (BpVector.atMessage L.length i))

/-- An operation on one of the versions there are, the `k`-th. -/
inductive PsOp (T : Type)
  | new
  | copy (k : ℕ)
  | pushBack (k : ℕ) (x : T)
  | set (k i : ℕ) (x : T)

namespace Ps

/-- The program over `ps_vector`s. -/
def code (T : Type) [Inhabited T] : Machine (Heap T × List BpVector) (PsOp T) where
  step := fun (h, vs) op =>
    match op with
    | .new => let (h, v) := Ps.new h; some (h, vs ++ [v])
    | .copy k => vs[k]?.map fun v => (h, vs ++ [v])
    | .pushBack k x => vs[k]?.bind fun v =>
        (v.pushBack .ps h x).toOption.map fun (h, v) => (h, vs ++ [v])
    | .set k i x => vs[k]?.bind fun v =>
        (v.set .ps h i x).toOption.map fun (h, v) => (h, vs ++ [v])

/-- The program over lists: a list takes elements up to the size whose
capacity fits a `size_t`, and is set below its length only. -/
def spec (T : Type) : Machine (List (List T)) (PsOp T) where
  step := fun Ls op =>
    match op with
    | .new => some (Ls ++ [[]])
    | .copy k => Ls[k]?.map fun L => Ls ++ [L]
    | .pushBack k x => Ls[k]?.bind fun L =>
        if L.length + 1 ≤ maxSize then some (Ls ++ [L ++ [x]]) else none
    | .set k i x => Ls[k]?.bind fun L => if i < L.length then some (Ls ++ [L.set i x]) else none

end Ps

variable {h h' : Heap T} {Ψ Ψ' : Addr → Place} {v v' : BpVector} {L : List T}
variable {vs : List BpVector} {Ls : List (List T)}

theorem Holds.denotes (hv : Holds h Ψ v L) : Denotes h v L where
  size := hv.size
  at_lt i hi := by rw [hv.at_eq, dif_pos hi]
  at_ge i hi := by rw [hv.at_eq, dif_neg (Nat.not_lt.2 hi)]

/-- A denotation says all that `at` returns. -/
theorem Denotes.at_unique (hv : Denotes h v L) (hv' : Denotes h' v L) (i : ℕ) :
    v.at' h' i = v.at' h i := by
  rcases Nat.lt_or_ge i L.length with hi | hi
  · rw [hv.at_lt i hi, hv'.at_lt i hi]
  · rw [hv.at_ge i hi, hv'.at_ge i hi]

namespace Ps

/-- **`set` leaves the heap it found as it was**, -/
theorem set_cell (hP : Placed h Ψ) (hr : v.root < h.next) {i : ℕ} {x : T}
    (he : v.set .ps h i x = .ok (h', v')) : ∀ d < h.next, h'.cell d = h.cell d := fun _ hd =>
  (hP.scope.setWith (N := fun _ => True) trivial hr trivial he).1.edits.cell_eq hd hd rfl

/-- and so does `push_back`. -/
theorem pushBack_cell (hP : Placed h Ψ) (hr : v.root < h.next) [Inhabited T] {x : T}
    (he : v.pushBack .ps h x = .ok (h', v')) : ∀ d < h.next, h'.cell d = h.cell d := fun _ hd =>
  (hP.scope.pushBack (N := fun _ => True) trivial hr trivial he).1.edits.cell_eq hd hd rfl

/-- The versions and their lists: one heap, well placed, in which each
version denotes its list. -/
def Tracks (Ls : List (List T)) (s : Heap T × List BpVector) : Prop :=
  ∃ Ψ, Placed s.1 Ψ ∧ List.Forall₂ (fun v L => Holds s.1 Ψ v L) s.2 Ls

/-- A version added to a heap that grew. -/
theorem Tracks.push (hP : Placed h Ψ) (hvs : List.Forall₂ (fun v L => Holds h Ψ v L) vs Ls)
    (hn : h.next ≤ h'.next) (hΨ : ∀ d < h.next, Ψ' d = Ψ d)
    (hcell : ∀ d < h.next, h'.cell d = h.cell d) (hP' : Placed h' Ψ') (hv : Holds h' Ψ' v L) :
    Tracks (Ls ++ [L]) (h', vs ++ [v]) :=
  ⟨Ψ', hP', List.rel_append (hvs.imp fun _ _ hu => hu.of_cells hP hn hΨ hcell)
    (.cons hv .nil)⟩

/-- The version a list is tracked by. -/
theorem exists_version (hvs : List.Forall₂ (fun v L => Holds h Ψ v L) vs Ls) {k : ℕ}
    (hk : Ls[k]? = some L) : ∃ v, vs[k]? = some v ∧ Holds h Ψ v L := by
  obtain ⟨hlt, rfl⟩ := List.getElem?_eq_some_iff.1 hk
  have hlt' : k < vs.length := by rw [hvs.length_eq]; exact hlt
  exact ⟨vs[k], List.getElem?_eq_getElem hlt', (List.forall₂_iff_get.1 hvs).2 k hlt' hlt⟩

variable [Inhabited T]

/-- **The code follows the specification**: each operation succeeds where
the list operation is defined, and adds the version that denotes its
result. -/
theorem code_follows (Ls : List (List T)) (op : PsOp T) (Ls' : List (List T))
    (s : Heap T × List BpVector) (hT : Tracks Ls s) (hs : (spec T).step Ls op = some Ls') :
    ∃ s', (code T).step s op = some s' ∧ Tracks Ls' s' := by
  obtain ⟨h, vs⟩ := s
  obtain ⟨Ψ, hP, hvs⟩ := hT
  simp only at hP hvs
  cases op with
  | new =>
    cases hs
    obtain ⟨Ψ', hΨ, hP', hv⟩ := Holds.empty hP 0
    exact ⟨_, rfl, Tracks.push hP hvs (Nat.le_succ _) hΨ
      (fun d hd => Store.alloc_cell_old hd) hP' hv⟩
  | copy k =>
    obtain ⟨L, hk, rfl⟩ := Option.map_eq_some_iff.1 hs
    obtain ⟨v, hk', hv⟩ := exists_version hvs hk
    refine ⟨(h, vs ++ [v]), by simp only [code, hk', Option.map_some], ?_⟩
    exact Tracks.push hP hvs le_rfl (fun _ _ => rfl) (fun _ _ => rfl) hP hv
  | pushBack k x =>
    obtain ⟨L, hk, hs⟩ := Option.bind_eq_some_iff.1 hs
    obtain ⟨v, hk', hv⟩ := exists_version hvs hk
    obtain ⟨hmax, hs⟩ := Option.ite_none_right_eq_some.1 hs
    cases hs
    obtain ⟨h', v', Ψ', he, -, hn, hΨ, hP', hv'⟩ := hv.pushBack .ps hP hmax x
    refine ⟨(h', vs ++ [v']), ?_, ?_⟩
    · simp only [code, hk', Option.bind_some, he, Except.toOption, Option.map_some]
    · exact Tracks.push hP hvs hn hΨ (pushBack_cell hP hv.root_lt he) hP' hv'
  | set k i x =>
    obtain ⟨L, hk, hs⟩ := Option.bind_eq_some_iff.1 hs
    obtain ⟨v, hk', hv⟩ := exists_version hvs hk
    obtain ⟨hi, hs⟩ := Option.ite_none_right_eq_some.1 hs
    cases hs
    obtain ⟨h', r', Ψ', he, hn, hΨ, hP', hv'⟩ := hv.setWith (nodeCopy .ps v.id) hP hi x
    refine ⟨(h', vs ++ [{ v with root := r' }]), ?_, ?_⟩
    · simp only [code, hk', Option.bind_some, BpVector.set, he, Except.toOption, Option.map_some]
    · exact Tracks.push hP hvs hn hΨ (set_cell hP hv.root_lt he) hP' hv'

omit [Inhabited T] in
/-- Versions are only added, in the specification -/
theorem spec_grows {ops : List (PsOp T)} {Ls' : List (List T)}
    (h : (spec T).run Ls ops = some Ls') : Ls <+: Ls' := by
  refine (spec T).run_invariant (I := fun Ms => Ls <+: Ms) ?_ (List.prefix_refl _) h
  intro Ms op Ms' hMs hs
  refine hMs.trans ?_
  cases op with
  | new => cases hs; exact List.prefix_append ..
  | copy k => obtain ⟨L, -, rfl⟩ := Option.map_eq_some_iff.1 hs; exact List.prefix_append ..
  | pushBack k x =>
    obtain ⟨L, -, hs⟩ := Option.bind_eq_some_iff.1 hs
    obtain ⟨-, hs⟩ := Option.ite_none_right_eq_some.1 hs
    cases hs; exact List.prefix_append ..
  | set k i x =>
    obtain ⟨L, -, hs⟩ := Option.bind_eq_some_iff.1 hs
    obtain ⟨-, hs⟩ := Option.ite_none_right_eq_some.1 hs
    cases hs; exact List.prefix_append ..

/-- and in the code. -/
theorem code_grows {ops : List (PsOp T)} {s s' : Heap T × List BpVector}
    (h : (code T).run s ops = some s') : s.2 <+: s'.2 := by
  refine (code T).run_invariant (I := fun t => s.2 <+: t.2) ?_ (List.prefix_refl _) h
  rintro ⟨h, vs⟩ op t' hvs hs
  refine hvs.trans ?_
  cases op with
  | new => cases hs; exact List.prefix_append ..
  | copy k => obtain ⟨v, -, rfl⟩ := Option.map_eq_some_iff.1 hs; exact List.prefix_append ..
  | pushBack k x =>
    obtain ⟨v, -, hs⟩ := Option.bind_eq_some_iff.1 hs
    obtain ⟨p, -, rfl⟩ := Option.map_eq_some_iff.1 hs; exact List.prefix_append ..
  | set k i x =>
    obtain ⟨v, -, hs⟩ := Option.bind_eq_some_iff.1 hs
    obtain ⟨p, -, rfl⟩ := Option.map_eq_some_iff.1 hs; exact List.prefix_append ..

omit [Inhabited T] in
theorem Tracks.denotes {s : Heap T × List BpVector} (hT : Tracks Ls s) :
    List.Forall₂ (Denotes s.1) s.2 Ls := by
  obtain ⟨Ψ, -, hvs⟩ := hT
  exact hvs.imp fun _ _ hv => hv.denotes

omit [Inhabited T] in
/-- A version that two states track reads the same in both. -/
theorem at_eq_of_grown {s s' : Heap T × List BpVector} {Ls' : List (List T)}
    (hvs : List.Forall₂ (Denotes s.1) s.2 Ls) (hvs' : List.Forall₂ (Denotes s'.1) s'.2 Ls')
    (hv : s.2 <+: s'.2) (hL : Ls <+: Ls') (hmem : v ∈ s.2) (i : ℕ) :
    v.at' s'.1 i = v.at' s.1 i := by
  obtain ⟨ws, hws⟩ := hv
  obtain ⟨Ms, rfl⟩ := hL
  obtain ⟨k, hk, rfl⟩ := List.getElem_of_mem hmem
  have hkL : k < Ls.length := by rw [← hvs.length_eq]; exact hk
  have hold := (List.forall₂_iff_get.1 hvs).2 k hk hkL
  have hlen' : k < s'.2.length := by rw [← hws, List.length_append]; omega
  have hnew := (List.forall₂_iff_get.1 hvs').2 k hlen' (by rw [List.length_append]; omega)
  simp only [List.get_eq_getElem, ← hws, List.getElem_append_left hk,
    List.getElem_append_left hkL] at hold hnew
  exact hold.at_unique hnew i

/-- **Persistence.** Wherever the lists can be computed, the program over
`ps_vector` runs, without following a null pointer; every version denotes
the list its history defines; and what the program does afterwards adds
versions and changes what none of the earlier ones returns. -/
theorem versions_persist (ops more : List (PsOp T)) {Ls' : List (List T)}
    (hspec : (spec T).run [] ops = some Ls) (hmore : (spec T).run Ls more = some Ls') :
    ∃ s s', (code T).run (Heap.empty, []) ops = some s ∧ (code T).run s more = some s' ∧
      List.Forall₂ (Denotes s.1) s.2 Ls ∧ List.Forall₂ (Denotes s'.1) s'.2 Ls' ∧
      s.2 <+: s'.2 ∧ ∀ v ∈ s.2, ∀ i, v.at' s'.1 i = v.at' s.1 i := by
  have hinit : Tracks (T := T) [] (Heap.empty, []) := by
    refine ⟨fun _ => ⟨0, 0⟩, ?_, .nil⟩
    exact placed_of_fits fun a ha => absurd ha (Nat.not_lt_zero a)
  obtain ⟨s, hs, hT⟩ := Machine.run_simulates code_follows hinit hspec
  obtain ⟨s', hs', hT'⟩ := Machine.run_simulates code_follows hT hmore
  have hpre := code_grows hs'
  exact ⟨s, s', hs, hs', hT.denotes, hT'.denotes, hpre, fun v hv i =>
    at_eq_of_grown hT.denotes hT'.denotes hpre (spec_grows hmore) hv i⟩

omit K in
/-- Arrays of two: two values fill a leaf, and the third stands in a second one. -/
theorem versions_persist_oneBit :
    letI := oneBit
    ∃ s s', (code ℕ).run (Heap.empty, []) [.new, .pushBack 0 1, .pushBack 1 2] = some s ∧
      (code ℕ).run s [.pushBack 2 3, .set 1 0 7, .copy 3] = some s' ∧
      List.Forall₂ (Denotes s.1) s.2 [[], [1], [1, 2]] ∧
      List.Forall₂ (Denotes s'.1) s'.2 [[], [1], [1, 2], [1, 2, 3], [7], [1, 2, 3]] ∧
      s.2 <+: s'.2 ∧ ∀ v ∈ s.2, ∀ i, v.at' s'.1 i = v.at' s.1 i :=
  letI := oneBit
  versions_persist [.new, .pushBack 0 1, .pushBack 1 2] [.pushBack 2 3, .set 1 0 7, .copy 3]
    (by decide +kernel) (by decide +kernel)

end Ps

end Contentious
