import Contentious.Trie.Assign
import Contentious.Trie.Persistence

/-!
# Trie — ids

Every copy-on-write decision is a comparison of ids, and ids come from one
counter. Here vectors of all three types are made, copied, converted,
updated and dropped in any order, and what is asked is whether an id is
new when it is drawn.

Two things stand against it. The counter is 32 bits wide and starts at
one: after so many draws it is at zero, the id of whatever is not
transient, and begins again. And `bp_vector::mut_push_back` makes its
nodes with a constructor that sets no id, so that they carry whatever the
memory held. Nothing else does: apart from such nodes an id stands for
one draw (`Kept`).
-/

namespace Contentious

variable [K : BpBits] {T : Type}

/-- A vector of one of the three types, and which draw its id is from: the
first, the second and so on, or none. -/
structure AnyVector where
  der : Der
  v : BpVector
  issue : ℕ

/-- How a node came by its id. -/
inductive Origin
  /-- made by a vector with the id of that draw -/
  | issue (d : ℕ)
  /-- made without an id, when `d` had been drawn -/
  | unset (d : ℕ)

/-- It was not made by a vector with the id of the draw `issue`; if it was
made without an id, it was there when that was drawn. -/
def Origin.Foreign (issue : ℕ) : Origin → Prop
  | .issue d => d ≠ issue
  | .unset d => d < issue

/-- An update of one vector. -/
inductive VecUpdate (T : Type)
  | set (i : ℕ) (x : T)
  | pushBack (x : T)
  | mutSet (i : ℕ) (x : T)
  /-- `junk` is what the memory holds where a node is made -/
  | mutPushBack (junk : Addr → Id) (x : T)
  /-- `*(begin() + n) = x` -/
  | store (n : ℕ) (x : T)
  /-- `assign(other, a, b)` from the `l`-th vector -/
  | assign (rounds l a b : ℕ)

/-- The vector is written itself, and not a copy of it. -/
def VecUpdate.inPlace : VecUpdate T → Bool
  | .set _ _ => false
  | .pushBack _ => false
  | _ => true

/-- What is done with the vectors there are, the `k`-th. `detach` is
`copy`, `newId` and `drop` of `_data`, and `newId` of the copy. -/
inductive VecOp (T : Type)
  /-- the default constructor -/
  | make (D : Der)
  /-- the copy constructor -/
  | copy (k : ℕ)
  | makePersistent (k : ℕ)
  | makeTransient (k : ℕ)
  | newId (k : ℕ)
  | drop (k : ℕ)
  | update (k : ℕ) (u : VecUpdate T)

/-- The nodes, the vectors and the counter; how many ids were drawn, and
how the nodes came by theirs. -/
structure Vectors (T : Type) [BpBits] where
  heap : Heap T
  vectors : List AnyVector
  counter : Id
  drawn : ℕ
  origin : Addr → Origin

/-- `*(begin() + n) = x` -/
def BpVector.storeAt (h : Heap T) (v : BpVector) (n : ℕ) (x : T) : Exec (Heap T × BpVector) := do
  let (h, v, it) ← begin h v
  let (h, it) ← it.add h n
  let h ← it.store h x
  .ok (h, v)

namespace Vectors

section
variable [Inhabited T]

/-- The nodes made from here on come by their ids so. -/
def originFrom (s : Vectors T) (o : Origin) : Addr → Origin :=
  fun a => if s.heap.next ≤ a then o else s.origin a

/-- `tr_vector()`, `ps_vector()` or `bp_vector()` -/
def make (s : Vectors T) : Der → Vectors T
  | .tr =>
    let (id, counter) := Tr.getUniqueId s.counter
    let (h, v) := Tr.new id s.heap
    { heap := h, vectors := s.vectors ++ [⟨.tr, v, s.drawn + 1⟩], counter := counter,
      drawn := s.drawn + 1, origin := s.originFrom (.issue (s.drawn + 1)) }
  | D =>
    let (h, v) := Bp.new s.heap
    { s with heap := h, vectors := s.vectors ++ [⟨D, v, 0⟩], origin := s.originFrom (.issue 0) }

/-- `new_id()` of a transient, and `make_transient()` of the others. -/
def draw (s : Vectors T) (v : BpVector) : Vectors T :=
  let (v, counter) := Tr.newId s.counter v
  { s with
    vectors := s.vectors ++ [⟨.tr, v, s.drawn + 1⟩], counter := counter, drawn := s.drawn + 1 }

/-- What an update of the vector gives, if its type has it. -/
def apply (s : Vectors T) (w : AnyVector) : VecUpdate T → Option (Heap T × BpVector)
  | .set i x => if w.der = .bp then none else (w.v.set w.der s.heap i x).toOption
  | .pushBack x => if w.der = .bp then none else (w.v.pushBack w.der s.heap x).toOption
  | .mutSet i x =>
    match w.der with
    | .bp => (Bp.mutSet s.heap w.v i x).toOption
    | .ps => none
    | .tr => (Tr.mutSet s.heap w.v i x).toOption
  | .mutPushBack junk x =>
    match w.der with
    | .bp => (Bp.mutPushBack junk s.heap w.v x).toOption
    | .ps => none
    | .tr => (Tr.mutPushBack s.heap w.v x).toOption
  | .store n x => (w.v.storeAt s.heap n x).toOption
  | .assign rounds l a b => s.vectors[l]?.bind fun other =>
      if other.der = w.der then (BpVector.assign rounds w.der s.heap w.v other.v a b).toOption
      else none

/-- How the nodes that an update makes come by their ids. -/
def originOf (s : Vectors T) (w : AnyVector) : VecUpdate T → Origin
  | .mutPushBack _ _ => if w.der = .bp then .unset s.drawn else .issue w.issue
  | _ => .issue w.issue

/-- An update of the `k`-th vector. -/
def updated (s : Vectors T) (k : ℕ) (w : AnyVector) (u : VecUpdate T) (h : Heap T) (v : BpVector) :
    Vectors T :=
  { s with
    heap := h
    vectors :=
      if u.inPlace then s.vectors.set k { w with v := v } else s.vectors ++ [{ w with v := v }]
    origin := s.originFrom (s.originOf w u) }

/-- One step. -/
def step (s : Vectors T) : VecOp T → Option (Vectors T)
  | .make D => some (s.make D)
  | .copy k => s.vectors[k]?.map fun w => { s with vectors := s.vectors ++ [w] }
  | .makePersistent k => s.vectors[k]?.bind fun w =>
      if w.der = .tr then some { s with vectors := s.vectors ++ [⟨.ps, Ps.ofTr w.v, 0⟩] } else none
  | .makeTransient k => s.vectors[k]?.bind fun w => if w.der = .tr then none else some (s.draw w.v)
  | .newId k => s.vectors[k]?.bind fun w => if w.der = .tr then some (s.draw w.v) else none
  | .drop k =>
    if k < s.vectors.length then some { s with vectors := s.vectors.eraseIdx k } else none
  | .update k u => s.vectors[k]?.bind fun w => (s.apply w u).map fun (h, v) => s.updated k w u h v

/-- Nothing was made yet, and the counter is as it is initialized. -/
def start : Vectors T := ⟨Heap.empty, [], 1, 0, fun _ => .issue 0⟩

end

/-- The node is reached from some vector. -/
def Reached (s : Vectors T) (a : Addr) : Prop := ∃ w ∈ s.vectors, Reach s.heap w.v.root a

/-- A `tr_vector` receives the id that the counter holds. -/
def Draws (s : Vectors T) : VecOp T → Prop
  | .make D => D = .tr
  | .makeTransient k => ∃ w, s.vectors[k]? = some w ∧ w.der ≠ .tr
  | .newId k => ∃ w, s.vectors[k]? = some w ∧ w.der = .tr
  | _ => False

/-- **The id that is drawn is fresh**: it is not zero, and no node that a
vector reaches carries it. -/
def Fresh (s : Vectors T) (op : VecOp T) : Prop :=
  s.Draws op → s.counter ≠ 0 ∧ ∀ a, s.Reached a → (s.heap.cell a).id ≠ s.counter

/-- An id is drawn only while the counter has not come round, and while no
node that was made without an id happens to carry it. -/
def Untaken (s : Vectors T) (op : VecOp T) : Prop :=
  s.Draws op → s.drawn + 1 < 2 ^ 32 ∧
    ∀ a, s.Reached a → ∀ d, s.origin a = .unset d → (s.heap.cell a).id ≠ s.counter

/-- The first value that is pushed to an empty transient goes into a leaf
of its own. -/
def OwnLeaf (s : Vectors T) : VecOp T → Prop
  | .update k (.mutPushBack _ _) => ∀ w, s.vectors[k]? = some w → w.der = .tr → w.v.sz = 0 →
      (s.heap.cell w.v.root).id = w.v.id
  | _ => True

/-- **What a transient has not made, it does not write**: it writes copies
of these nodes. -/
def CopiesForeign [Inhabited T] (s : Vectors T) (op : VecOp T) : Prop :=
  ∀ k u w t, op = .update k u → s.vectors[k]? = some w → w.der = .tr → s.step op = some t →
    ∀ a, s.Reached a → (s.origin a).Foreign w.issue → t.heap.cell a = s.heap.cell a

/-- The program over vectors. -/
def code (T : Type) [Inhabited T] : Machine (Vectors T) (VecOp T) := ⟨step⟩

end Vectors

variable {h h' : Heap T} {v v' : BpVector} {cp : Id → Bool} {N : Id → Prop} {S : Addr → Prop}
variable {base n : ℕ} {x : T}

/-! ## What an update writes -/

theorem Scope.storeAt (hcp : ∀ other, cp other = true → nodeCopy .tr v.id other = true)
    (hS : Scope base S h) (hr : S v.root) (hlt : v.root < h.next) (hN : N v.id)
    (he : v.storeAt h n x = .ok (h', v')) : Rewritten base cp N S h h' v v' := by
  obtain ⟨⟨h₁, v₁, it₁⟩, hb, he⟩ := Exec.bind_eq_ok.1 he
  obtain ⟨⟨h₂, it₂⟩, ha, he⟩ := Exec.bind_eq_ok.1 he
  obtain ⟨h₃, hs, he⟩ := Exec.bind_eq_ok.1 he
  cases he
  obtain ⟨w, hit, hid⟩ := hS.begin hr hlt hN hb
  have e := hit.add hid (hS.edits w.edits) hN ha
  have e₂ := e.edits.trans (e.held.store hs)
  exact Rewritten.weaken hcp
    ⟨w.edits.trans e₂, w.root_mem, lt_of_lt_of_le w.root_lt e₂.next_le, w.id_eq⟩

/-- `mut_push_back` is edits under any test that asks for less than its
own and lets the root through that it fills first. -/
theorem Scope.mutPush [Inhabited T] {cp₀ : Id → Bool}
    (hcp : ∀ other, cp other = true → cp₀ other = true)
    (hS : Scope base S h) (hr : S v.root) (hlt : v.root < h.next) {newId : Addr → Id} (hid : N v.id)
    (hN : ∀ a, N (newId a)) (hroot : v.sz = 0 → Writable base cp h v.root)
    (he : BpVector.mutPushWith cp₀ newId h v x = .ok (h', v')) :
    Rewritten base cp N S h h' v v' := by
  by_cases h0 : v.sz = 0
  · rw [BpVector.mutPushWith, and_bpMask, h0, Nat.zero_mod, if_neg (by simp),
      dif_pos bpWidth_pos] at he
    obtain ⟨h₁, hs, he⟩ := Exec.bind_eq_ok.1 he
    cases he
    have e : Edits base cp N S h h' := .setLeaf .refl (hroot h0) hr hs
    exact ⟨e, hr, lt_of_lt_of_le hlt e.next_le, rfl⟩
  · have e := hS.mutPushWith hr hlt hid hN (fun h => absurd h h0) he
    exact (Rewritten.of_edited e.1 e.2).weaken hcp

namespace Vectors

variable {s t : Vectors T} {w : AnyVector} {u : VecUpdate T} {k : ℕ} {op : VecOp T} {a : Addr}

/-- A node that is reached, or made from here on. -/
def There (s : Vectors T) (a : Addr) : Prop := s.Reached a ∨ s.heap.next ≤ a

/-- **What the ids stand for**, in every run: an id is that of a draw, for
the vectors and for the nodes made by them. -/
structure Kept (s : Vectors T) : Prop where
  closed : Closed s.Reached s.heap
  root_lt : ∀ w ∈ s.vectors, w.v.root < s.heap.next
  counter : s.counter = BitVec.ofNat 32 (s.drawn + 1)
  vectors : ∀ w ∈ s.vectors, w.v.id = BitVec.ofNat 32 w.issue ∧ w.issue ≤ s.drawn
  nodes : ∀ a < s.heap.next, ∀ d, s.origin a = .issue d →
    (s.heap.cell a).id = BitVec.ofNat 32 d ∧ d ≤ s.drawn

/-- The ids of the nodes that an update makes. -/
def Given [Inhabited T] (s : Vectors T) (w : AnyVector) (u : VecUpdate T) (id : Id) : Prop :=
  ∀ d, s.originOf w u = .issue d → id = w.v.id

theorem Kept.scope (hK : Kept s) : Scope s.heap.next s.There s.heap where
  base_le := le_rfl
  new _ ha := .inr ha
  closed a ha hSa c k b hu hk := by
    rcases hSa with hSa | hSa
    · have hb := hK.closed a ha hSa c k b hu hk
      exact ⟨.inl hb.1, hb.2⟩
    · exact absurd ha (Nat.not_lt.2 hSa)

section
variable [Inhabited T]

/-- **An update is edits**, of nodes that are there, under any test that
asks for no more than those of the vector's type. -/
theorem rewritten_of_apply (hK : Kept s) (hw : w ∈ s.vectors) (hcp : Tests cp w.der w.v.id)
    (hleaf : ∀ junk x, u = .mutPushBack junk x → w.v.sz = 0 →
      Writable s.heap.next cp s.heap w.v.root)
    (he : s.apply w u = some (h', v')) :
    Rewritten s.heap.next cp (s.Given w u) s.There s.heap h' w.v v' := by
  have hS := hK.scope
  have hr : s.There w.v.root := .inl ⟨w, hw, .root⟩
  have hlt := hK.root_lt w hw
  have hown : s.Given w u w.v.id := fun _ _ => rfl
  cases u with
  | set i x =>
    obtain ⟨-, he⟩ := Option.ite_none_left_eq_some.1 he
    have e := hS.setWith hr hlt hown (Exec.toOption_eq_some.1 he)
    exact (Rewritten.of_edited e.1 e.2).weaken hcp.branch
  | pushBack x =>
    obtain ⟨-, he⟩ := Option.ite_none_left_eq_some.1 he
    have e := hS.pushBack hr hlt hown (Exec.toOption_eq_some.1 he)
    exact (Rewritten.of_edited e.1 e.2).weaken hcp.branch
  | mutSet i x =>
    have hbranch := hcp.branch
    cases hD : w.der with
    | bp =>
      rw [apply, hD] at he
      rw [hD] at hbranch
      have e := hS.setWith hr hlt hown (Exec.toOption_eq_some.1 he)
      exact (Rewritten.of_edited e.1 e.2).weaken hbranch
    | ps =>
      rw [apply, hD] at he
      exact nomatch he
    | tr =>
      rw [apply, hD] at he
      have e := hS.setWith hr hlt hown (Exec.toOption_eq_some.1 he)
      exact (Rewritten.of_edited e.1 e.2).weaken hcp.iterator
  | mutPushBack junk x =>
    have hbranch := hcp.branch
    have hroot := hleaf junk x rfl
    cases hD : w.der with
    | bp =>
      rw [apply, hD] at he
      rw [hD] at hbranch
      refine hS.mutPush hbranch hr hlt hown (fun a d hd => ?_) hroot (Exec.toOption_eq_some.1 he)
      rw [originOf, if_pos hD] at hd
      exact nomatch hd
    | ps =>
      rw [apply, hD] at he
      exact nomatch he
    | tr =>
      rw [apply, hD] at he
      exact hS.mutPush hcp.iterator hr hlt hown (fun _ => hown) hroot (Exec.toOption_eq_some.1 he)
  | store n x => exact hS.storeAt hcp.iterator hr hlt hown (Exec.toOption_eq_some.1 he)
  | assign rounds l a b =>
    obtain ⟨other, hl, he⟩ := Option.bind_eq_some_iff.1 he
    obtain ⟨-, he⟩ := Option.ite_none_right_eq_some.1 he
    have hother := List.mem_of_getElem? hl
    exact hS.assign hcp hr hlt hown (.inl ⟨other, hother, .root⟩) (hK.root_lt other hother)
      (Exec.toOption_eq_some.1 he)

/-! ## What a step does -/

/-- **What a step does**: it edits nodes that are there, and each vector
after it has the id of one before it, or none, or the one that is drawn. -/
structure Grows (s : Vectors T) (op : VecOp T) (t : Vectors T) : Prop where
  edits : Edits s.heap.next (fun _ => false) (fun _ => True) s.There s.heap t.heap
  roots : ∀ w ∈ t.vectors, s.There w.v.root ∧ w.v.root < t.heap.next
  old : ∀ a < s.heap.next, t.origin a = s.origin a
  new : ∀ a, s.heap.next ≤ a → a < t.heap.next →
    (∀ d, t.origin a = .issue d → (t.heap.cell a).id = BitVec.ofNat 32 d ∧ d ≤ t.drawn) ∧
      ∀ d, t.origin a = .unset d → t.drawn ≤ d
  vectors : ∀ w ∈ t.vectors, (∃ w' ∈ s.vectors, w.v.id = w'.v.id ∧ w.issue = w'.issue) ∨
    w.v.id = 0 ∧ w.issue = 0 ∨ w.v.id = s.counter ∧ w.issue = s.drawn + 1 ∧ t.drawn = s.drawn + 1
  draws : t.drawn = s.drawn ∧ t.counter = s.counter ∨
    s.Draws op ∧ t.drawn = s.drawn + 1 ∧ t.counter = s.counter + 1

omit [Inhabited T] in
/-- No node is written or made. -/
theorem grows_of_heap (hK : Kept s) (hheap : t.heap = s.heap) (horigin : t.origin = s.origin)
    (hroots : ∀ w ∈ t.vectors, ∃ w' ∈ s.vectors, w.v.root = w'.v.root)
    (hvectors : ∀ w ∈ t.vectors, (∃ w' ∈ s.vectors, w.v.id = w'.v.id ∧ w.issue = w'.issue) ∨
      w.v.id = 0 ∧ w.issue = 0 ∨ w.v.id = s.counter ∧ w.issue = s.drawn + 1 ∧ t.drawn = s.drawn + 1)
    (hdraws : t.drawn = s.drawn ∧ t.counter = s.counter ∨
      s.Draws op ∧ t.drawn = s.drawn + 1 ∧ t.counter = s.counter + 1) : Grows s op t where
  edits := by rw [hheap]; exact .refl
  roots w hw := by
    obtain ⟨w', hw', hroot⟩ := hroots w hw
    rw [hheap, hroot]
    exact ⟨.inl ⟨w', hw', .root⟩, hK.root_lt w' hw'⟩
  old a _ := by rw [horigin]
  new a ha ha' := by
    rw [hheap] at ha'
    omega
  vectors := hvectors
  draws := hdraws

omit [Inhabited T] in
/-- A vector is made of the `k`-th, under the id that is drawn. -/
theorem grows_of_draw (hK : Kept s) (hk : s.vectors[k]? = some w) (hd : s.Draws op) :
    Grows s op (s.draw w.v) := by
  have hw := List.mem_of_getElem? hk
  refine grows_of_heap hK rfl rfl (fun w' hw' => ?_) (fun w' hw' => ?_) (.inr ⟨hd, rfl, rfl⟩)
  · rcases List.mem_append.1 hw' with hw' | hw'
    · exact ⟨w', hw', rfl⟩
    · rw [List.mem_singleton.1 hw']
      exact ⟨w, hw, rfl⟩
  · rcases List.mem_append.1 hw' with hw' | hw'
    · exact .inl ⟨w', hw', rfl, rfl⟩
    · rw [List.mem_singleton.1 hw']
      exact .inr (.inr ⟨rfl, rfl, rfl⟩)

/-- An empty vector is made, with a leaf of its own under its id. -/
theorem grows_of_make (hK : Kept s) (D : Der) : Grows s (.make D) (s.make D) := by
  have hmade : ∀ (t : Vectors T) (id : Id) (d : ℕ) (D' : Der),
      t.heap = (s.heap.alloc (BpNode.newLeaves id)).1 →
      t.vectors = s.vectors ++ [⟨D', ⟨0, 0, s.heap.next, id⟩, d⟩] →
      t.origin = s.originFrom (.issue d) →
      id = BitVec.ofNat 32 d → d ≤ t.drawn →
      (id = 0 ∧ d = 0 ∨ id = s.counter ∧ d = s.drawn + 1 ∧ t.drawn = s.drawn + 1) →
      (t.drawn = s.drawn ∧ t.counter = s.counter ∨
        s.Draws (.make D) ∧ t.drawn = s.drawn + 1 ∧ t.counter = s.counter + 1) →
      Grows s (.make D) t := by
    intro t id d D' hheap hvecs horigin hid hd hissue hdraws
    refine ⟨?_, fun w hw => ?_, fun a ha => ?_, fun a ha ha' => ?_, fun w hw => ?_, hdraws⟩
    · rw [hheap]
      exact .alloc _ .refl trivial fun c k b hu _ => nomatch hu
    · rw [hvecs] at hw
      rw [hheap, Store.alloc_next]
      rcases List.mem_append.1 hw with hw | hw
      · exact ⟨.inl ⟨w, hw, .root⟩, Nat.lt_succ_of_lt (hK.root_lt w hw)⟩
      · rw [List.mem_singleton.1 hw]
        exact ⟨.inr le_rfl, Nat.lt_succ_self _⟩
    · rw [horigin, originFrom, if_neg (Nat.not_le.2 ha)]
    · have hnew : t.origin a = .issue d := by rw [horigin, originFrom, if_pos ha]
      have haeq : a = s.heap.next := by
        rw [hheap, Store.alloc_next] at ha'
        omega
      rw [hnew]
      refine ⟨fun d' hd' => ?_, fun d' hd' => nomatch hd'⟩
      cases hd'
      rw [hheap, haeq, Store.alloc_cell_new]
      exact ⟨hid, hd⟩
    · rw [hvecs] at hw
      rcases List.mem_append.1 hw with hw | hw
      · exact .inl ⟨w, hw, rfl, rfl⟩
      · rw [List.mem_singleton.1 hw]
        exact .inr hissue
  cases D with
  | tr =>
    exact hmade _ s.counter (s.drawn + 1) .tr rfl rfl rfl hK.counter le_rfl (.inr ⟨rfl, rfl, rfl⟩)
      (.inr ⟨rfl, rfl, rfl⟩)
  | ps => exact hmade _ 0 0 .ps rfl rfl rfl rfl (Nat.zero_le _) (.inl ⟨rfl, rfl⟩) (.inl ⟨rfl, rfl⟩)
  | bp => exact hmade _ 0 0 .bp rfl rfl rfl rfl (Nat.zero_le _) (.inl ⟨rfl, rfl⟩) (.inl ⟨rfl, rfl⟩)

omit [Inhabited T] in
/-- A vector after an update is the updated one, or one there was. -/
theorem mem_updated {w' : AnyVector} (h : w' ∈ (s.updated k w u h' v').vectors) :
    w' = { w with v := v' } ∨ w' ∈ s.vectors := by
  simp only [updated] at h
  split at h
  · exact (List.mem_or_eq_of_mem_set h).symm
  · rcases List.mem_append.1 h with h | h
    · exact .inr h
    · exact .inl (List.mem_singleton.1 h)

theorem grows_of_apply (hK : Kept s) (hk : s.vectors[k]? = some w)
    (he : s.apply w u = some (h', v')) :
    Grows s op (s.updated k w u h' v') := by
  have hw := List.mem_of_getElem? hk
  have hr : Rewritten s.heap.next (fun _ => false) (s.Given w u) s.There s.heap h' w.v v' :=
    rewritten_of_apply hK hw ⟨fun _ h => (nomatch h), fun _ h => (nomatch h)⟩
      (fun _ _ _ _ => .inr rfl) he
  obtain ⟨hid, hle⟩ := hK.vectors w hw
  refine ⟨hr.edits.allow fun _ _ => trivial, fun w' hw' => ?_, fun a ha => ?_, fun a ha ha' => ?_,
    fun w' hw' => ?_, .inl ⟨rfl, rfl⟩⟩
  · rcases mem_updated hw' with rfl | hw'
    · exact ⟨hr.root_mem, hr.root_lt⟩
    · exact ⟨.inl ⟨w', hw', .root⟩, lt_of_lt_of_le (hK.root_lt w' hw') hr.edits.next_le⟩
  · simp only [updated, originFrom, if_neg (Nat.not_le.2 ha)]
  · have hgiven := hr.edits.new_id ha ha'
    have horigin : (s.updated k w u h' v').origin a = s.originOf w u := by
      simp only [updated, originFrom, if_pos ha]
    rw [horigin]
    refine ⟨fun d hd => ?_, fun d hd => ?_⟩
    · have hdw : d = w.issue := by
        cases u with
        | mutPushBack junk x =>
          rw [originOf] at hd
          split at hd
          · exact nomatch hd
          · exact (Origin.issue.inj hd).symm
        | _ => exact (Origin.issue.inj hd).symm
      rw [hdw, ← hid]
      exact ⟨hgiven d hd, hle⟩
    · cases u with
      | mutPushBack junk x =>
        rw [originOf] at hd
        split at hd
        · exact le_of_eq (Origin.unset.inj hd)
        · exact nomatch hd
      | _ => exact nomatch hd
  · rcases mem_updated hw' with rfl | hw'
    · exact .inl ⟨w, hw, hr.id_eq, rfl⟩
    · exact .inl ⟨w', hw', rfl, rfl⟩

theorem grows_of_step (hK : Kept s) (h : s.step op = some t) : Grows s op t := by
  cases op with
  | make D =>
    cases h
    exact grows_of_make hK D
  | copy k =>
    obtain ⟨w, hk, rfl⟩ := Option.map_eq_some_iff.1 h
    have hw := List.mem_of_getElem? hk
    have hmem : ∀ w' ∈ s.vectors ++ [w], w' ∈ s.vectors := fun w' hw' =>
      (List.mem_append.1 hw').elim id fun h => by rw [List.mem_singleton.1 h]; exact hw
    exact grows_of_heap hK rfl rfl (fun w' hw' => ⟨w', hmem w' hw', rfl⟩)
      (fun w' hw' => .inl ⟨w', hmem w' hw', rfl, rfl⟩) (.inl ⟨rfl, rfl⟩)
  | makePersistent k =>
    obtain ⟨w, hk, h⟩ := Option.bind_eq_some_iff.1 h
    obtain ⟨-, h⟩ := Option.ite_none_right_eq_some.1 h
    cases h
    refine grows_of_heap hK rfl rfl (fun w' hw' => ?_) (fun w' hw' => ?_) (.inl ⟨rfl, rfl⟩)
    · rcases List.mem_append.1 hw' with hw' | hw'
      · exact ⟨w', hw', rfl⟩
      · rw [List.mem_singleton.1 hw']
        exact ⟨w, List.mem_of_getElem? hk, rfl⟩
    · rcases List.mem_append.1 hw' with hw' | hw'
      · exact .inl ⟨w', hw', rfl, rfl⟩
      · rw [List.mem_singleton.1 hw']
        exact .inr (.inl ⟨rfl, rfl⟩)
  | makeTransient k =>
    obtain ⟨w, hk, h⟩ := Option.bind_eq_some_iff.1 h
    obtain ⟨hD, h⟩ := Option.ite_none_left_eq_some.1 h
    cases h
    exact grows_of_draw hK hk ⟨w, hk, hD⟩
  | newId k =>
    obtain ⟨w, hk, h⟩ := Option.bind_eq_some_iff.1 h
    obtain ⟨hD, h⟩ := Option.ite_none_right_eq_some.1 h
    cases h
    exact grows_of_draw hK hk ⟨w, hk, hD⟩
  | drop k =>
    obtain ⟨-, h⟩ := Option.ite_none_right_eq_some.1 h
    cases h
    exact grows_of_heap hK rfl rfl (fun w hw => ⟨w, List.mem_of_mem_eraseIdx hw, rfl⟩)
      (fun w hw => .inl ⟨w, List.mem_of_mem_eraseIdx hw, rfl, rfl⟩) (.inl ⟨rfl, rfl⟩)
  | update k u =>
    obtain ⟨w, hk, h⟩ := Option.bind_eq_some_iff.1 h
    obtain ⟨⟨h', v'⟩, he, rfl⟩ := Option.map_eq_some_iff.1 h
    exact grows_of_apply hK hk he

end

/-! ## Along a run -/

/-- What is reached after a step was reached before it, or is new. -/
theorem Grows.reached (hK : Kept s) (hG : Grows s op t) (ha : t.Reached a) :
    s.There a ∧ a < t.heap.next := by
  obtain ⟨w, hw, hreach⟩ := ha
  obtain ⟨hroot, hlt⟩ := hG.roots w hw
  exact (hG.edits.closed hK.scope.closed).reach hroot hlt hreach

theorem Kept.grows (hK : Kept s) (hG : Grows s op t) : Kept t where
  closed a ha hreach c k b hu hk := by
    obtain ⟨w, hw, hwa⟩ := hreach
    have hclosed := hG.edits.closed hK.scope.closed
    obtain ⟨hthere, -⟩ := hG.reached hK ⟨w, hw, hwa⟩
    exact ⟨⟨w, hw, hwa.child hu hk⟩, (hclosed a ha hthere c k b hu hk).2⟩
  root_lt w hw := (hG.roots w hw).2
  counter := by
    rcases hG.draws with ⟨hd, hc⟩ | ⟨-, hd, hc⟩
    · rw [hd, hc, hK.counter]
    · rw [hd, hc, hK.counter]
      exact (BitVec.ofNat_add (s.drawn + 1) 1).symm
  vectors w hw := by
    have hle : s.drawn ≤ t.drawn := by
      rcases hG.draws with ⟨hd, -⟩ | ⟨-, hd, -⟩ <;> omega
    rcases hG.vectors w hw with ⟨w', hw', hid, hissue⟩ | ⟨hid, hissue⟩ | ⟨hid, hissue, hd⟩
    · rw [hid, hissue]
      exact ⟨(hK.vectors w' hw').1, le_trans (hK.vectors w' hw').2 hle⟩
    · rw [hid, hissue]
      exact ⟨rfl, Nat.zero_le _⟩
    · rw [hid, hissue, hd]
      exact ⟨hK.counter, le_rfl⟩
  nodes a ha d hd := by
    have hle : s.drawn ≤ t.drawn := by
      rcases hG.draws with ⟨hd, -⟩ | ⟨-, hd, -⟩ <;> omega
    rcases Nat.lt_or_ge a s.heap.next with hlt | hge
    · rw [hG.old a hlt] at hd
      rw [hG.edits.id_eq hlt]
      exact ⟨(hK.nodes a hlt d hd).1, le_trans (hK.nodes a hlt d hd).2 hle⟩
    · exact (hG.new a hge ha).1 d hd

omit K in
/-- Two draws give two ids while the counter has not come round. -/
theorem ofNat_ne {c d : ℕ} (hc : c < 2 ^ 32) (hd : d < 2 ^ 32) (hne : c ≠ d) :
    BitVec.ofNat 32 c ≠ BitVec.ofNat 32 d := by
  intro h
  have h := congrArg BitVec.toNat h
  rw [BitVec.toNat_ofNat, BitVec.toNat_ofNat, Nat.mod_eq_of_lt hc, Nat.mod_eq_of_lt hd] at h
  exact hne h

/-- **No id was taken when it was drawn**: the counter has not come round,
and no vector has the id of a node that was there, without one, before. -/
structure NoneTaken (s : Vectors T) : Prop where
  lt : s.drawn < 2 ^ 32
  unset : ∀ w ∈ s.vectors, ∀ a, s.Reached a → ∀ d, s.origin a = .unset d → d < w.issue →
    (s.heap.cell a).id ≠ w.v.id

/-- In such a state an id tells which nodes a vector has made. -/
theorem NoneTaken.foreign (hN : NoneTaken s) (hK : Kept s) (hw : w ∈ s.vectors) (ha : s.Reached a)
    (hlt : a < s.heap.next) (hf : (s.origin a).Foreign w.issue) : (s.heap.cell a).id ≠ w.v.id := by
  cases ho : s.origin a with
  | unset d =>
    rw [ho] at hf
    exact hN.unset w hw a ha d ho hf
  | issue d =>
    rw [ho] at hf
    obtain ⟨hid, hd⟩ := hK.nodes a hlt d ho
    obtain ⟨hwid, hwd⟩ := hK.vectors w hw
    rw [hid, hwid]
    exact ofNat_ne (lt_of_le_of_lt hd hN.lt) (lt_of_le_of_lt hwd hN.lt) hf

theorem NoneTaken.grows (hN : NoneTaken s) (hK : Kept s) (hU : s.Untaken op) (hG : Grows s op t) :
    NoneTaken t where
  lt := by
    rcases hG.draws with ⟨hd, -⟩ | ⟨hdraw, hd, -⟩
    · rw [hd]
      exact hN.lt
    · rw [hd]
      exact (hU hdraw).1
  unset w hw a ha d hd hlt := by
    obtain ⟨hthere, hanext⟩ := hG.reached hK ha
    rcases Nat.lt_or_ge a s.heap.next with hold | hnew
    · -- an old node, and a vector with an id that was drawn before or is drawn now
      have hreach := hthere.resolve_right (Nat.not_le.2 hold)
      rw [hG.old a hold] at hd
      rw [hG.edits.id_eq hold]
      rcases hG.vectors w hw with ⟨w', hw', hid, hissue⟩ | ⟨-, hissue⟩ | ⟨hid, -, hdrawn⟩
      · rw [hid]
        exact hN.unset w' hw' a hreach d hd (by omega)
      · omega
      · rw [hid]
        rcases hG.draws with ⟨hsame, -⟩ | ⟨hdraw, -, -⟩
        · omega
        · exact (hU hdraw).2 a hreach d hd
    · -- a new node was made after all draws
      have hle := (hG.new a hnew hanext).2 d hd
      have hissue : w.issue ≤ t.drawn := ((hK.grows hG).vectors w hw).2
      omega

/-- **What is drawn is fresh** as long as it is not taken. -/
theorem NoneTaken.fresh_iff (hN : NoneTaken s) (hK : Kept s) : s.Fresh op ↔ s.Untaken op := by
  have hlt := hN.lt
  have hreach : ∀ a, s.Reached a → a < s.heap.next := fun a ⟨w, hw, ha⟩ =>
    (hK.closed.reach ⟨w, hw, .root⟩ (hK.root_lt w hw) ha).2
  constructor
  · intro hF hdraw
    obtain ⟨hne, hfresh⟩ := hF hdraw
    refine ⟨?_, fun a ha d _ => hfresh a ha⟩
    by_contra hge
    refine hne ?_
    have hwrap : s.drawn + 1 = 2 ^ 32 := by omega
    rw [hK.counter, hwrap]
    rfl
  · intro hU hdraw
    obtain ⟨hlt', hunset⟩ := hU hdraw
    refine ⟨?_, fun a ha => ?_⟩
    · rw [hK.counter]
      exact ofNat_ne hlt' (by decide) (Nat.succ_ne_zero _)
    · cases ho : s.origin a with
      | unset d => exact hunset a ha d ho
      | issue d =>
        obtain ⟨hid, hd⟩ := hK.nodes a (hreach a ha) d ho
        rw [hid, hK.counter]
        exact ofNat_ne (by omega) hlt' (by omega)

theorem Kept.start [Inhabited T] : Kept (start : Vectors T) where
  closed a ha := absurd ha (Nat.not_lt_zero a)
  root_lt _ hw := absurd hw List.not_mem_nil
  counter := rfl
  vectors _ hw := absurd hw List.not_mem_nil
  nodes a ha := absurd ha (Nat.not_lt_zero a)

theorem NoneTaken.start [Inhabited T] : NoneTaken (start : Vectors T) where
  lt := Nat.two_pow_pos 32
  unset _ hw := absurd hw List.not_mem_nil

/-- **A transient copies what it has not made**, if the leaf it pushes a
first value to is its own. -/
theorem NoneTaken.copiesForeign [Inhabited T] (hN : NoneTaken s) (hK : Kept s) (hL : s.OwnLeaf op) :
    s.CopiesForeign op := by
  rintro k u w t rfl hk hD h a ha hf
  have hw := List.mem_of_getElem? hk
  obtain ⟨w', hk', h⟩ := Option.bind_eq_some_iff.1 h
  rw [hk] at hk'
  cases hk'
  obtain ⟨⟨h', v'⟩, he, rfl⟩ := Option.map_eq_some_iff.1 h
  have hlt : a < s.heap.next := by
    obtain ⟨w', hw', hreach⟩ := ha
    exact (hK.closed.reach ⟨w', hw', .root⟩ (hK.root_lt w' hw') hreach).2
  have hr : Rewritten s.heap.next (nodeCopy .tr w.v.id) (s.Given w u) s.There s.heap h' w.v v' := by
    refine rewritten_of_apply hK hw (by rw [hD]; exact .tr _) (fun junk x hu h0 => ?_) he
    subst hu
    exact .inr (by simp [nodeCopy, hL w hk hD h0])
  refine hr.edits.cell_eq hlt hlt ?_
  simpa [nodeCopy] using Ne.symm (hN.foreign hK hw ha hlt hf)

/-- **When ids are fresh.** In every run, each id is fresh when it is drawn
if and only if each is drawn before the counter has come round, and while
no vector reaches a node without an id of its own that happens to carry
it. And where each is, whatever is written through a transient, none of
the nodes that it has not made is written, if no first value is pushed to
a leaf that is not its own. -/
theorem ids_fresh_iff [Inhabited T] (ops : List (VecOp T)) :
    ((code T).Along Fresh start ops ↔ (code T).Along Untaken start ops) ∧
      ((code T).Along (fun s op => s.Untaken op ∧ s.OwnLeaf op) start ops →
        (code T).Along CopiesForeign start ops) := by
  have hstep : ∀ (s : Vectors T) op t, Kept s ∧ NoneTaken s → s.Untaken op →
      (code T).step s op = some t → Kept t ∧ NoneTaken t := by
    rintro s op t ⟨hK, hN⟩ hU h
    have hG := grows_of_step hK h
    exact ⟨hK.grows hG, hN.grows hK hU hG⟩
  have hstart : Kept (start : Vectors T) ∧ NoneTaken (start : Vectors T) := ⟨.start, .start⟩
  refine ⟨⟨fun h => ?_, fun h => ?_⟩, fun h => ?_⟩
  · exact h.mono (fun s op t hI hF => hstep s op t hI ((hI.2.fresh_iff hI.1).1 hF))
      (fun s op hI hF => (hI.2.fresh_iff hI.1).1 hF) hstart
  · exact h.mono hstep (fun s op hI hU => (hI.2.fresh_iff hI.1).2 hU) hstart
  · exact h.mono (fun s op t hI hC => hstep s op t hI hC.1)
      (fun s op hI hC => hI.2.copiesForeign hI.1 hC.2) hstart

omit K in
/-- **An id that is taken.** A `bp_vector` outgrows its first leaf, and
where its new nodes are made the memory holds the number one. That is the
first id to be drawn, by the transient that is made of it; and what this
writes the `bp_vector` reads. -/
theorem id_taken :
    letI := oneBit
    let push : VecOp ℕ := .update 0 (.mutPushBack (fun _ => 1) 7)
    let ops := [.make .bp, push, push, push]
    (¬ (code ℕ).Along Fresh start (ops ++ [.makeTransient 0])) ∧
      ∃ s, (code ℕ).run start (ops ++ [.makeTransient 0, .update 1 (.mutSet 2 9)]) = some s ∧
        s.vectors.map (fun w => (w.der, w.v.at' s.heap 2)) = [(.bp, .ok 9), (.tr, .ok 9)] := by
  let _ := oneBit
  intro push ops
  refine ⟨fun h => ?_, ?_⟩
  · have hstate : ((code ℕ).run start ops).map
        (fun s => (s.counter, s.vectors.map (fun w => (w.der, (s.heap.cell w.v.root).id)))) =
          some (1, [(.bp, 1)]) := by decide +kernel
    obtain ⟨s, hrun, hs⟩ := Option.map_eq_some_iff.1 hstate
    obtain ⟨hcounter, hvecs⟩ := Prod.mk.inj hs
    -- the root of the one vector carries what is drawn next
    obtain ⟨w, hv, hw⟩ := List.map_eq_singleton_iff.1 hvecs
    obtain ⟨hD, hroot⟩ := Prod.mk.inj hw
    have hdraw : s.Draws (.makeTransient 0) := ⟨w, by rw [hv]; rfl, by rw [hD]; decide⟩
    refine (h.last hrun hdraw).2 w.v.root ⟨w, by rw [hv]; exact List.mem_singleton_self w, .root⟩ ?_
    rw [hroot, hcounter]
  · have hread : ((code ℕ).run start (ops ++ [.makeTransient 0, .update 1 (.mutSet 2 9)])).map
        (fun s => s.vectors.map (fun w => (w.der, w.v.at' s.heap 2))) =
          some [(.bp, .ok 9), (.tr, .ok 9)] := by decide +kernel
    exact Option.map_eq_some_iff.1 hread

end Vectors

end Contentious
