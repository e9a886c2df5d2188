import Contentious.Trie.Whole

/-!
# Trie — vectors that are derived from one

`resolve` compares what a vector was, `_orig`, with what it has become,
`_data`, by the ids of their nodes. `_data` was `_orig.new_id()` once, and
was then written in the three ways a transient is. An id that two nodes
share says something about them only if nodes were not brought in from
elsewhere under an id that occurs in `_orig`: every node must be one of
`_orig`'s, or carry an id that none of them carries (`Kin`). What is
written by itself keeps this, and so does `assign` from vectors that have
it (`derived_of_run`).
-/

namespace Contentious

open BpVector

variable [K : BpBits] {T : Type}

/-- The node is one of those of `o`, or carries an id that occurs nowhere
in `o`. In a placed heap a node that is shared is shared at one place. -/
def Kin (h : Heap T) (o : BpVector) (a : Addr) : Prop :=
  Reach h o.root a ∨ ∀ b, Reach h o.root b → (h.cell b).id ≠ (h.cell a).id

/-- All nodes of the vector are so. -/
def Kindred (h : Heap T) (o v : BpVector) : Prop := ∀ a, Reach h v.root a → Kin h o a

/-- A vector that is assigned from is one of the size and depth of `o`, and
of its kin. -/
def FromKindred (o : BpVector) (s : Writing T) : WriteOp T → Prop
  | .assign _ other _ _ => (∃ M, Represents s.heap other M) ∧ other.sz = o.sz ∧
      other.levels = o.levels ∧ Kindred s.heap o other
  | _ => True

/-- **What every write keeps** of a vector that is derived from `o`, as `o`
was in the heap `h`: the two stand in the heap, `o` with the list it had,
all nodes are kin of those of `o`, and the iterators go from the root. -/
structure Derived (h : Heap T) (o : BpVector) (L : List T) (id : Id) (s : Writing T) : Prop where
  framed : Framed h id s
  holds : ∃ Ψ N, Placed s.heap Ψ ∧ Holds s.heap Ψ s.t N ∧ Holds s.heap Ψ o L
  sz_eq : s.t.sz = o.sz
  levels_eq : s.t.levels = o.levels
  kindred : Kindred s.heap o s.t
  its_root : ∀ it ∈ s.its, it.root = s.t.root

variable {h h' : Heap T} {Ψ Ψ' : Addr → Place} {o : BpVector} {id : Id} {s s' : Writing T}
variable {a : Addr} {L N : List T} {V : Set BpVector} {op : WriteOp T} {ops : List (WriteOp T)}

/-- Where the nodes of `o` are as they were, and a node keeps its id, kin
stays kin. -/
theorem Kin.of_cells (ha : Kin h o a) (hcell : ∀ d, Reach h o.root d → h'.cell d = h.cell d)
    (hid : (h'.cell a).id = (h.cell a).id) : Kin h' o a := by
  have hreach : ∀ d, Reach h' o.root d ↔ Reach h o.root d := fun d =>
    reach_congr fun d hd c => by rw [hcell d hd]
  rcases ha with ha | ha
  · exact .inl ((hreach a).2 ha)
  · refine .inr fun b hb => ?_
    have hb' := (hreach b).1 hb
    rw [hcell b hb', hid]
    exact ha b hb'

namespace Derived

/-- `o` was not written. -/
theorem orig_cell (hD : Derived h o L id s) (hc : Closed (fun _ => True) h) (ho : o.root < h.next)
    (hf : Foreign h o.root id) (ha : Reach h o.root a) : s.heap.cell a = h.cell a :=
  hD.framed.kept a (hc.reach trivial ho ha).2 (hf a ha)

/-- **A step that keeps the shape** of the vectors it reads, which are kin,
leaves a vector that is derived. -/
theorem of_remade (hD : Derived h o L id s) (hc : Closed (fun _ => True) h) (ho : o.root < h.next)
    (hf : Foreign h o.root id) (hV : ∀ v ∈ V, Kindred s.heap o v) (hw : Wrote id s s')
    (ht : Holds s.heap Ψ s.t N) (hO : Holds s.heap Ψ o L)
    (e : Remade s.heap.next (fun a => (∃ v ∈ V, Reach s.heap v.root a) ∨ s.heap.next ≤ a) s.t.sz
      s.heap Ψ s'.heap Ψ' s.t s'.t)
    (hits : ∀ it ∈ s'.its, it ∈ s.its ∨ it.root = s'.t.root) : Derived h o L id s' := by
  have hF' := hD.framed.of_wrote hw
  have hrt : s.t.root < s.heap.next := hD.framed.root_lt
  have hreach : ∀ d, Reach s.heap o.root d ↔ Reach h o.root d := fun d =>
    reach_congr fun d hd c => by rw [hD.orig_cell hc ho hf hd]
  have hcell : ∀ d, Reach s.heap o.root d → s'.heap.cell d = s.heap.cell d := fun d hd => by
    have hd' := (hreach d).1 hd
    rw [hD.orig_cell hc ho hf hd', hF'.kept d (hc.reach trivial ho hd').2 (hf d hd')]
  have hsz : s'.t.sz = s.t.sz := by rw [e.eq_root]
  have hlev : s'.t.levels = s.t.levels := by rw [e.eq_root]
  have hwhole := e.shaped.whole
  refine ⟨hF', ?_, hsz.trans hD.sz_eq, hlev.trans hD.levels_eq, fun a ha => ?_, fun it hit => ?_⟩
  · rw [← hsz] at hwhole
    obtain ⟨N', hN'⟩ := hwhole.holds e.root_lt e.root_mem
      (by rw [e.root_place, ht.root_place, hlev]) (by rw [hsz, hlev, ht.size]; exact ht.fits)
      (by rw [hsz, hlev, ht.size]; exact ht.tight)
    exact ⟨Ψ', N', hwhole.placed, hN', hO.of_reach e.shaped.next_le e.shaped.place fun d hd => by
      rw [hcell d hd]⟩
  · obtain ⟨hSa, hlt⟩ := hwhole.scope.closed.reach e.root_mem e.root_lt ha
    rcases Nat.lt_or_ge a s.heap.next with hold | hnew
    · rcases hSa with ⟨v, hv, hr⟩ | hSa
      · exact (hV v hv a hr).of_cells hcell (e.shaped.id_eq a hold)
      · exact absurd hold (Nat.not_lt.2 hSa)
    · -- what was made carries the id
      refine .inr fun b hb => ?_
      have hb' : Reach s.heap o.root b := (reach_congr fun d hd c => by rw [hcell d hd]).1 hb
      have hb'' := (hreach b).1 hb'
      rw [hcell b hb', hD.orig_cell hc ho hf hb'', hw.edits.new_id hnew hlt]
      exact hf b hb''
  · rcases hits it hit with hold | hnew
    · have hroot := hD.its_root it hold
      have hown := (hD.framed.its it hold).root.id_eq
      rw [e.root_eq (by rw [← hroot, hown, hD.framed.id_eq]; simp [nodeCopy]), hroot]
    · exact hnew

/-- **One step.** -/
theorem step (hD : Derived h o L id s) (hc : Closed (fun _ => True) h) (ho : o.root < h.next)
    (hf : Foreign h o.root id) (hsz : 0 < o.sz) (hop : FromKindred o s op)
    (he : (Tr.writes T).step s op = some s') : Derived h o L id s' := by
  have hother : ∀ rounds other a b, op = .assign rounds other a b → other.root < s.heap.next := by
    rintro rounds other a b rfl
    obtain ⟨⟨M, Ψ, -, hM⟩, -⟩ := hop
    exact hM.root_lt
  have hw := hD.framed.wrote hother he
  obtain ⟨Ψ, N, hP, hh, hO⟩ := hD.holds
  have hself : ∀ v ∈ ({s.t} : Set BpVector), Kindred s.heap o v := fun v hv => by
    rw [Set.mem_singleton_iff.1 hv]
    exact hD.kindred
  have hwhole := hP.whole (V := {s.t}) (n := s.t.sz) fun v hv => by
    rw [Set.mem_singleton_iff.1 hv]
    exact ⟨rfl, N, hh⟩
  have hmem : (∃ v ∈ ({s.t} : Set BpVector), Reach s.heap v.root s.t.root) ∨
      s.heap.next ≤ s.t.root := .inl ⟨s.t, rfl, .root⟩
  have hrt := hh.root_lt
  cases op with
  | mutSet i x =>
    obtain ⟨⟨h₁, t₁⟩, hs, rfl⟩ := Exec.toOption_map_eq_some.1 he
    obtain ⟨Ψ', e⟩ := hwhole.setWith hrt hmem hs
    exact hD.of_remade hc ho hf hself hw hh hO e fun it hit => .inl hit
  | begin =>
    obtain ⟨⟨h₁, t₁, it⟩, hs, rfl⟩ := Exec.toOption_map_eq_some.1 he
    obtain ⟨Ψ', e, hroot, -⟩ := hwhole.begin hrt hmem hs
    refine hD.of_remade hc ho hf hself hw hh hO e fun jt hjt => ?_
    rcases List.mem_append.1 hjt with hold | hnew
    · exact .inl hold
    · rw [List.mem_singleton.1 hnew]
      exact .inr hroot
  | add k n =>
    obtain ⟨it, hk, he⟩ := Option.bind_eq_some_iff.1 he
    obtain ⟨⟨h₁, it₁⟩, hs, rfl⟩ := Exec.toOption_map_eq_some.1 he
    have hroot := hD.its_root it (List.mem_of_getElem? hk)
    obtain ⟨Ψ', e, hroot', -⟩ := hwhole.add (by rw [hroot]; exact hrt)
      (by rw [hroot]; exact hmem) hs
    refine hD.of_remade hc ho hf hself hw hh hO
      ((Remade.refl hwhole hrt hmem).followed e) fun jt hjt => ?_
    rcases List.mem_append.1 hjt with hold | hnew
    · exact .inl hold
    · rw [List.mem_singleton.1 hnew]
      exact .inr (hroot'.trans hroot)
  | next k =>
    obtain ⟨it, hk, he⟩ := Option.bind_eq_some_iff.1 he
    obtain ⟨⟨h₁, it₁⟩, hs, rfl⟩ := Exec.toOption_map_eq_some.1 he
    have hroot := hD.its_root it (List.mem_of_getElem? hk)
    obtain ⟨Ψ', e, hroot', -⟩ := hwhole.next (by rw [hroot]; exact hrt)
      (by rw [hroot]; exact hmem) hs
    refine hD.of_remade hc ho hf hself hw hh hO
      ((Remade.refl hwhole hrt hmem).followed e) fun jt hjt => ?_
    rcases List.mem_or_eq_of_mem_set hjt with hold | rfl
    · exact .inl hold
    · exact .inr (hroot'.trans hroot)
  | store k x =>
    obtain ⟨it, hk, he⟩ := Option.bind_eq_some_iff.1 he
    obtain ⟨-, he⟩ := Option.ite_none_right_eq_some.1 he
    obtain ⟨h₁, hs, rfl⟩ := Exec.toOption_map_eq_some.1 he
    exact hD.of_remade hc ho hf hself hw hh hO
      ((Remade.refl hwhole hrt hmem).followed (hwhole.store hs)) fun jt hjt => .inl hjt
  | assign rounds other a b =>
    obtain ⟨⟨h₁, t₁⟩, hs, rfl⟩ := Exec.toOption_map_eq_some.1 he
    obtain ⟨⟨M, hM⟩, hszo, hlevo, hkin⟩ := hop
    -- the three stand in the heap together
    obtain ⟨Ψ₂, hP₂, hroot, hM₂⟩ := hM.joins (V := {s.t, o}) hP fun v hv => by
      rcases hv with rfl | hv
      · exact ⟨N, List.ne_nil_of_length_pos (by rw [← hh.size, hD.sz_eq]; exact hsz), hh⟩
      · rw [Set.mem_singleton_iff.1 hv]
        exact ⟨L, List.ne_nil_of_length_pos (by rw [← hO.size]; exact hsz), hO⟩
    have hh₂ : Holds s.heap Ψ₂ s.t N := { hh with root_place := hroot s.t (.inl rfl) }
    have hO₂ : Holds s.heap Ψ₂ o L := { hO with root_place := hroot o (.inr rfl) }
    have hwhole₂ := hP₂.whole (V := {s.t, other}) (n := s.t.sz) fun v hv => by
      rcases hv with rfl | hv
      · exact ⟨rfl, N, hh₂⟩
      · rw [Set.mem_singleton_iff.1 hv]
        exact ⟨hszo.trans hD.sz_eq.symm, M, hM₂⟩
    obtain ⟨Ψ', e⟩ := hwhole₂.assign hrt (.inl ⟨s.t, .inl rfl, .root⟩)
      ⟨hM₂.root_lt, .inl ⟨other, .inr rfl, .root⟩,
        by rw [hM₂.root_place, hh₂.root_place, hlevo, hD.levels_eq],
        hlevo.trans hD.levels_eq.symm⟩ hs
    refine hD.of_remade hc ho hf (fun v hv => ?_) hw hh₂ hO₂ e fun it hit => .inl hit
    rcases hv with rfl | hv
    · exact hD.kindred
    · rw [Set.mem_singleton_iff.1 hv]
      exact hkin

end Derived

/-- **Whatever is written of `orig.new_id()`** leaves a vector that is
derived from `orig`. -/
theorem derived_of_run (ho : Represents h o L) (hf : Foreign h o.root id) (hsz : 0 < o.sz)
    (hops : (Tr.writes T).Along (FromKindred o) ⟨h, Tr.withId o id, []⟩ ops)
    (hrun : (Tr.writes T).run ⟨h, Tr.withId o id, []⟩ ops = some s) : Derived h o L id s := by
  obtain ⟨Ψ, hP, hh⟩ := ho
  have hc : Closed (fun _ => True) h := hP.scope.closed
  have hinit : Derived h o L id ⟨h, Tr.withId o id, []⟩ :=
    { framed := ⟨le_rfl, hc, rfl, hh.root_lt, fun _ _ _ => rfl, fun _ hit => nomatch hit⟩
      holds := ⟨Ψ, L, hP, hh.withId id, hh⟩
      sz_eq := rfl
      levels_eq := rfl
      kindred := fun _ ha => .inl ha
      its_root := fun _ hit => nomatch hit }
  exact Machine.run_invariant_along
    (fun _ _ _ hD hop he => hD.step hc hh.root_lt hf hsz hop he) hinit hops hrun

end Contentious
