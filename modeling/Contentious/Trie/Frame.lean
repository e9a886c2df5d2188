import Contentious.Common.Machine
import Contentious.Trie.Assign
import Contentious.Trie.Reach

/-!
# Trie — the frame of a transient

A `tr_vector` writes in three ways: `mut_set` descends from its root, its
mutable iterators walk to a leaf and write through a raw pointer, and
`assign` grafts branches of other vectors into its own. Each has a text
of its own for the copy-on-write descent, and grafting makes shared what
was not. What holds them together is the id: all three write nodes that
carry the vector's id or are new, and make nodes under that id only. So
where no other vector reaches a node with it, none is written that
another reaches, and no other comes to reach one that carries it.
-/

namespace Contentious

variable [K : BpBits] {T : Type}

/-- What can be done with a transient: the iterators are numbered as they
are made. -/
inductive WriteOp (T : Type)
  | mutSet (i : ℕ) (x : T)
  | begin
  /-- `it + n` of the `k`-th, as a new one -/
  | add (k n : ℕ)
  /-- `++it` -/
  | next (k : ℕ)
  /-- `*it = x` -/
  | store (k : ℕ) (x : T)
  | assign (rounds : ℕ) (other : BpVector) (a b : ℕ)

/-- The heap, the transient, and the iterators made of it. -/
structure Writing (T : Type) [BpBits] where
  heap : Heap T
  t : BpVector
  its : List BpIterator

/-- The leaf the iterator points into is still the vector's. A raw pointer
keeps nothing alive, and where `assign` has put another branch in place
of the leaf, writing through the iterator is undefined. -/
def BpIterator.Live (h : Heap T) (t : BpVector) (it : BpIterator) : Prop :=
  (walk h it.i it.levels it.levels t.root).toOption = some it.leaf

instance (h : Heap T) (t : BpVector) (it : BpIterator) : Decidable (it.Live h t) :=
  inferInstanceAs (Decidable (_ = _))

namespace Tr

open BpVector

/-- The program over one transient. -/
def writes (T : Type) : Machine (Writing T) (WriteOp T) where
  step := fun s op =>
    match op with
    | .mutSet i x => (mutSet s.heap s.t i x).toOption.map fun (h, t) => { s with heap := h, t := t }
    | .begin => (BpVector.begin s.heap s.t).toOption.map fun (h, t, it) => ⟨h, t, s.its ++ [it]⟩
    | .add k n => s.its[k]?.bind fun it =>
        (it.add s.heap n).toOption.map fun (h, it) => { s with heap := h, its := s.its ++ [it] }
    | .next k => s.its[k]?.bind fun it =>
        (it.next s.heap).toOption.map fun (h, it) => { s with heap := h, its := s.its.set k it }
    | .store k x => s.its[k]?.bind fun it =>
        if it.Live s.heap s.t then (it.store s.heap x).toOption.map fun h => { s with heap := h }
        else none
    | .assign rounds other a b => (assign rounds .tr s.heap s.t other a b).toOption.map
        fun (h, t) =>
        { s with heap := h, t := t }

/-- The vectors assigned from are among `V`. -/
def From (V : Set BpVector) : WriteOp T → Prop
  | .assign _ other _ _ => other ∈ V
  | _ => True

/-- No pointer is left hanging: those of the nodes, the transient and the
vectors of `V` lead to nodes that are there. -/
structure Intact (h : Heap T) (t : BpVector) (V : Set BpVector) : Prop where
  closed : Closed (fun _ => True) h
  root_lt : t.root < h.next
  roots_lt : ∀ v ∈ V, v.root < h.next

/-- No node that carries the transient's id is reached from a vector of
`V`. -/
def SetApart (h : Heap T) (t : BpVector) (V : Set BpVector) : Prop :=
  ∀ v ∈ V, ∀ a, Reach h v.root a → (h.cell a).id ≠ t.id

end Tr

variable {h h' : Heap T} {t t' : BpVector} {V : Set BpVector} {s s' : Writing T} {a : Addr}
  {id : Id}
variable {it it' : BpIterator} {op : WriteOp T} {ops : List (WriteOp T)}

/-! ## One step -/

open BpIterator (Moved Held)

/-- A node that carries the id. -/
structure Mine (id : Id) (h : Heap T) (a : Addr) : Prop where
  lt : a < h.next
  id_eq : (h.cell a).id = id

/-- What a step does: edits, from this heap on, of nodes with the id. -/
abbrev Writes (id : Id) (h h' : Heap T) : Prop :=
  Edits h.next (nodeCopy .tr id) (fun other => other = id) (fun _ => True) h h'

theorem Mine.owned (ha : Mine id h a) : Owned h.next (nodeCopy .tr id) (fun _ => True) h a :=
  ⟨trivial, ha.lt, .inr (by simp [nodeCopy, ha.id_eq])⟩

theorem Mine.writes (ha : Mine id h a) (e : Writes id h h') : Mine id h' a :=
  ⟨lt_of_lt_of_le ha.lt e.next_le, by rw [e.id_eq ha.lt, ha.id_eq]⟩

/-- A node that a step has made or could have written carries the id. -/
theorem Owned.mine (ha : Owned h.next (nodeCopy .tr id) (fun _ => True) h' a) (e : Writes id h h') :
    Mine id h' a := by
  refine ⟨ha.lt, ?_⟩
  rcases ha.writable with hnew | hcp
  · exact e.new_id hnew ha.lt
  · have hid : id = (h'.cell a).id := by simpa [nodeCopy] using hcp
    exact hid.symm

/-- The iterator is one of the vector with the id, and points at its nodes. -/
structure BpIterator.Of (id : Id) (h : Heap T) (it : BpIterator) : Prop where
  id_eq : it.id = id
  root : Mine id h it.root
  leaf : Mine id h it.leaf

namespace BpIterator.Of

theorem writes (hit : it.Of id h) (e : Writes id h h') : it.Of id h' :=
  ⟨hit.id_eq, hit.root.writes e, hit.leaf.writes e⟩

theorem held (hit : it.Of id h) : Held h.next (nodeCopy .tr id) (fun _ => True) h it :=
  ⟨hit.root.owned, hit.leaf.owned⟩

theorem of_held (hit : Held h.next (nodeCopy .tr id) (fun _ => True) h' it) (hid : it.id = id)
    (e : Writes id h h') : it.Of id h' := ⟨hid, hit.root.mine e, hit.leaf.mine e⟩

theorem of_moved
    (m : Moved h.next (nodeCopy .tr id) (fun other => other = id) (fun _ => True) h h' it it')
    (hit : it.Of id h) : it'.Of id h' := of_held m.held (m.id_eq.trans hit.id_eq) m.edits

end BpIterator.Of

/-- What a step has done: such edits, and iterators of the transient. -/
structure Wrote (id : Id) (s s' : Writing T) : Prop where
  edits : Writes id s.heap s'.heap
  id_eq : s'.t.id = id
  root_lt : s'.t.root < s'.heap.next
  its : ∀ it ∈ s'.its, it ∈ s.its ∨ it.Of id s'.heap

/-- **What every step keeps**: the nodes of the heap `h` that do not carry
the id are as they were, and the iterators are the transient's own. -/
structure Framed (h : Heap T) (id : Id) (s : Writing T) : Prop where
  next_le : h.next ≤ s.heap.next
  closed : Closed (fun _ => True) s.heap
  id_eq : s.t.id = id
  root_lt : s.t.root < s.heap.next
  kept : ∀ a < h.next, (h.cell a).id ≠ id → s.heap.cell a = h.cell a
  its : ∀ it ∈ s.its, it.Of id s.heap

namespace Framed

theorem scope (hF : Framed h id s) : Scope s.heap.next (fun _ => True) s.heap :=
  ⟨le_rfl, fun _ _ => trivial, hF.closed⟩

/-- The transient rewritten, and the iterators as they were. -/
theorem of_rewritten (hF : Framed h id s)
    (w : Rewritten s.heap.next (nodeCopy .tr s.t.id) (fun other => other = id)
      (fun _ => True) s.heap h' s.t t') : Wrote id s { s with heap := h', t := t' } := by
  have e := w.edits
  rw [hF.id_eq] at e
  exact ⟨e, w.id_eq.trans hF.id_eq, w.root_lt, fun it hit => .inl hit⟩

/-- The transient as it was, and an iterator moved or made. -/
theorem of_moved {its : List BpIterator} (hF : Framed h id s) (hit : it.Of id s.heap)
    (m : Moved s.heap.next (nodeCopy .tr id) (fun other => other = id)
      (fun _ => True) s.heap h' it it')
    (hits : ∀ jt ∈ its, jt ∈ s.its ∨ jt = it') :
    Wrote id s { s with heap := h', its := its } := by
  refine ⟨m.edits, hF.id_eq, lt_of_lt_of_le hF.root_lt m.edits.next_le, fun jt hjt => ?_⟩
  rcases hits jt hjt with hold | rfl
  · exact .inl hold
  · exact .inr (.of_moved m hit)

/-- **One step writes so**, whichever of the three it writes by. -/
theorem wrote (hF : Framed h id s)
    (hV : ∀ rounds other a b, op = .assign rounds other a b → other.root < s.heap.next)
    (he : (Tr.writes T).step s op = some s') : Wrote id s s' := by
  have hN : s.t.id = id := hF.id_eq
  cases op with
  | mutSet i x =>
    obtain ⟨⟨h₁, t₁⟩, hs, rfl⟩ := Exec.toOption_map_eq_some.1 he
    have e := hF.scope.setWith (N := fun other => other = id) trivial hF.root_lt hN hs
    exact hF.of_rewritten (.of_edited e.1 e.2)
  | begin =>
    obtain ⟨⟨h₁, t₁, it⟩, hs, rfl⟩ := Exec.toOption_map_eq_some.1 he
    obtain ⟨w, hit, hid⟩ := hF.scope.begin (N := fun other => other = id) trivial hF.root_lt hN hs
    have e := w.edits
    rw [hN] at e hit hid
    refine ⟨e, w.id_eq.trans hN, w.root_lt, fun jt hjt => ?_⟩
    rcases List.mem_append.1 hjt with hold | hnew
    · exact .inl hold
    · rw [List.mem_singleton.1 hnew]
      exact .inr (.of_held hit hid e)
  | add k n =>
    obtain ⟨it, hk, he⟩ := Option.bind_eq_some_iff.1 he
    obtain ⟨⟨h₁, it₁⟩, hs, rfl⟩ := Exec.toOption_map_eq_some.1 he
    have hit := hF.its it (List.mem_of_getElem? hk)
    refine hF.of_moved hit (hit.held.add hit.id_eq hF.scope rfl hs) fun jt hjt => ?_
    rcases List.mem_append.1 hjt with hold | hnew
    · exact .inl hold
    · exact .inr (List.mem_singleton.1 hnew)
  | next k =>
    obtain ⟨it, hk, he⟩ := Option.bind_eq_some_iff.1 he
    obtain ⟨⟨h₁, it₁⟩, hs, rfl⟩ := Exec.toOption_map_eq_some.1 he
    have hit := hF.its it (List.mem_of_getElem? hk)
    exact hF.of_moved hit (hit.held.next hit.id_eq hF.scope rfl hs) fun jt hjt =>
      List.mem_or_eq_of_mem_set hjt
  | store k x =>
    obtain ⟨it, hk, he⟩ := Option.bind_eq_some_iff.1 he
    obtain ⟨-, he⟩ := Option.ite_none_right_eq_some.1 he
    obtain ⟨h₁, hs, rfl⟩ := Exec.toOption_map_eq_some.1 he
    have hit := hF.its it (List.mem_of_getElem? hk)
    have e := hit.held.store (N := fun other => other = id) hs
    exact ⟨e, hF.id_eq, lt_of_lt_of_le hF.root_lt e.next_le, fun jt hjt => .inl hjt⟩
  | assign rounds other a b =>
    obtain ⟨⟨h₁, t₁⟩, hs, rfl⟩ := Exec.toOption_map_eq_some.1 he
    exact hF.of_rewritten
      (hF.scope.assign (.tr s.t.id) trivial hF.root_lt hN trivial (hV _ _ _ _ rfl) hs)

/-- and keeps it. -/
theorem of_wrote (hF : Framed h id s) (w : Wrote id s s') : Framed h id s' where
  next_le := le_trans hF.next_le w.edits.next_le
  closed := w.edits.closed hF.closed
  id_eq := w.id_eq
  root_lt := w.root_lt
  kept a ha hne := by
    have hcell := hF.kept a ha hne
    have halt := lt_of_lt_of_le ha hF.next_le
    rw [w.edits.cell_eq halt halt (by rw [hcell]; simpa [nodeCopy] using Ne.symm hne), hcell]
  its it hit := by
    rcases w.its it hit with hold | hnew
    · exact (hF.its it hold).writes w.edits
    · exact hnew

/-- **One step**, from vectors that are there. -/
theorem step (hF : Framed h id s) (hV : ∀ v ∈ V, v.root < h.next) (hop : Tr.From V op)
    (he : (Tr.writes T).step s op = some s') : Framed h id s' :=
  hF.of_wrote (hF.wrote (fun _ other _ _ heq => by
    subst heq
    exact lt_of_lt_of_le (hV other hop) hF.next_le) he)

end Framed

namespace Tr

theorem Intact.framed (hI : Intact h t V) : Framed h t.id ⟨h, t, []⟩ :=
  ⟨le_rfl, hI.closed, rfl, hI.root_lt, fun _ _ _ => rfl, fun _ hit => nomatch hit⟩

/-- **The frame of a transient.** Take any heap, any transient and any set
of vectors none of which reaches a node with the transient's id. Whatever
is written by `mut_set`, through iterators and by `assign` from the
vectors of the set, each of them reads what it did at every index, and
none of them reaches a node with that id afterwards. -/
theorem writes_frame (hI : Intact h t V) (hA : SetApart h t V) (hops : ∀ op ∈ ops, From V op)
    (hrun : (writes T).run ⟨h, t, []⟩ ops = some s) :
    (∀ v ∈ V, ∀ i, v.at' s.heap i = v.at' h i) ∧ SetApart s.heap s.t V ∧ Intact s.heap s.t V := by
  have hF : Framed h t.id s := Machine.run_invariant_along
    (fun _ _ _ hF hop he => hF.step hI.roots_lt hop he) hI.framed
      (Machine.along_of_forall _ hops) hrun
  -- what a vector of the set reaches does not carry the id, and so is as it was
  have hcell : ∀ v ∈ V, ∀ a, Reach h v.root a → s.heap.cell a = h.cell a := fun v hv a ha =>
    hF.kept a (hI.closed.reach trivial (hI.roots_lt v hv) ha).2 (hA v hv a ha)
  refine ⟨fun v hv i => ?_, fun v hv a ha => ?_, hF.closed, hF.root_lt, fun v hv =>
    lt_of_lt_of_le (hI.roots_lt v hv) hF.next_le⟩
  · rw [BpVector.at', BpVector.at', get_eq_readAt, get_eq_readAt,
      readAt_of_reach fun d hd => by rw [hcell v hv d hd]]
  · have ha' : Reach h v.root a := (reach_congr fun d hd c => by rw [hcell v hv d hd]).1 ha
    rw [hcell v hv a ha', hF.id_eq]
    exact hA v hv a ha'

omit K in
/-- Two vectors of three values each, every one a root over two leaves. -/
def twoVectors : letI := oneBit; Heap ℕ :=
  letI := oneBit
  let pair {α : Type} (x y : α) : Fin bpWidth → α := fun k => if k.val = 0 then x else y
  ⟨6, fun a =>
    match a with
    | 0 => ⟨.branches (pair (some 1) (some 2)), 0⟩
    | 1 => ⟨.leaves (pair 10 11), 0⟩
    | 2 => ⟨.leaves (pair 12 0), 0⟩
    | 3 => ⟨.branches (pair (some 4) (some 5)), 1⟩
    | 4 => ⟨.leaves (pair 20 21), 1⟩
    | _ => ⟨.leaves (pair 22 0), 1⟩⟩

omit K in
/-- A transient of the first of them writes in all three ways. -/
theorem writes_frame_oneBit :
    letI := oneBit
    ∃ s, (writes ℕ).run ⟨twoVectors, ⟨3, 1, 0, 2⟩, []⟩
        [.mutSet 1 31, .begin, .add 0 1, .next 1, .store 1 32, .assign 3 ⟨3, 1, 3, 1⟩ 0 2,
          .mutSet 0 33] =
          some s ∧
      (∀ v ∈ ({⟨3, 1, 0, 0⟩, ⟨3, 1, 3, 1⟩} : Set BpVector),
        ∀ i, v.at' s.heap i = v.at' twoVectors i) ∧
      SetApart s.heap s.t {⟨3, 1, 0, 0⟩, ⟨3, 1, 3, 1⟩} ∧
      Intact s.heap s.t {⟨3, 1, 0, 0⟩, ⟨3, 1, 3, 1⟩} := by
  let _ := oneBit
  have hsome : ((writes ℕ).run ⟨twoVectors, ⟨3, 1, 0, 2⟩, []⟩
      [.mutSet 1 31, .begin, .add 0 1, .next 1, .store 1 32, .assign 3 ⟨3, 1, 3, 1⟩ 0 2,
        .mutSet 0 33]).isSome := by
    decide +kernel
  obtain ⟨s, hs⟩ := Option.isSome_iff_exists.1 hsome
  have hid : ∀ a, (twoVectors.cell a).id ≠ 2 := by
    intro a
    unfold twoVectors
    dsimp only
    split <;> decide
  have hI : Intact twoVectors ⟨3, 1, 0, 2⟩ {⟨3, 1, 0, 0⟩, ⟨3, 1, 3, 1⟩} := by
    have hlt : ∀ a < 6, ∀ k, (child twoVectors a k).toOption.all (· < 6) = true := by decide +kernel
    refine ⟨fun a ha _ c k b hu hk => ⟨trivial, ?_⟩, by decide, fun v hv => ?_⟩
    · have hb := hlt a ha k
      rw [child_of hu hk] at hb
      change b < 6
      simpa [Except.toOption] using hb
    · rcases hv with rfl | rfl <;> decide
  refine ⟨s, hs, writes_frame hI (fun v _ a _ => hid a) ?_ hs⟩
  intro op hop
  simp only [List.mem_cons, List.not_mem_nil, or_false] at hop
  rcases hop with rfl | rfl | rfl | rfl | rfl | rfl | rfl
  case inr.inr.inr.inr.inr.inl => exact .inr rfl
  all_goals trivial

end Tr

end Contentious
