import Contentious.Trie.Shared

/-!
# Trie — a family of `ps_vector`s and their mutable iterators

`ps_vector`s are built of one another by `push_back`, `set` and copies,
and of transients by `make_persistent`; then some are written in place, by
mutable iterators and by `assign`. An iterator copies the nodes that do
not carry its id, and for a `ps_vector` that is zero, as is the id of all
nodes that `ps_vectors` make: what two of them share is written in place.
Nodes of another id, which come from transients, are copied.

So a write is seen by another vector just where the paths of the two to
the index have a node of id zero in common (`spares_iff`).
-/

namespace Contentious

open BpVector

variable [K : BpBits] {T : Type}

/-- What an iterator is one of, as far as it knows. -/
def BpIterator.vector (it : BpIterator) : BpVector := ⟨it.sz, it.levels, it.root, it.id⟩

/-- A mutable iterator: whose it is, and where it stands. -/
structure Cursor where
  owner : ℕ
  pos : ℕ
  it : BpIterator

/-- What a program does with them: `k` and `l` are vectors, `m` a
transient and `j` an iterator. -/
inductive FamilyOp (T : Type)
  | new
  | copy (k : ℕ)
  | makePersistent (m : ℕ)
  | pushBack (k : ℕ) (x : T)
  | set (k i : ℕ) (x : T)
  /-- `begin()` -/
  | begin (k : ℕ)
  /-- `++it` -/
  | next (j : ℕ)
  /-- `it + n` -/
  | add (j n : ℕ)
  /-- `*it = x` -/
  | store (j : ℕ) (x : T)
  /-- `assign(other, a, b)` -/
  | assign (rounds k l a b : ℕ)

/-- It is an `assign`. -/
def FamilyOp.IsAssign : FamilyOp T → Prop
  | .assign .. => True
  | _ => False

/-- The nodes, the vectors, the transients that are there, and the
iterators. -/
structure Family (T : Type) [BpBits] where
  heap : Heap T
  vectors : List BpVector
  transients : List BpVector
  iterators : List Cursor

namespace Family

section
variable [Inhabited T]

/-- One step. Iterators are moved within their vector and written below
its end, vectors are set below it, grow while the capacity of their depth
fits a `size_t`, and are assigned from others of their size and depth. -/
def step (s : Family T) : FamilyOp T → Option (Family T)
  | .new =>
    let (h, v) := Ps.new s.heap
    some { s with heap := h, vectors := s.vectors ++ [v] }
  | .copy k => s.vectors[k]?.map fun v => { s with vectors := s.vectors ++ [v] }
  | .makePersistent m =>
    s.transients[m]?.map fun t => { s with vectors := s.vectors ++ [Ps.ofTr t] }
  | .pushBack k x => s.vectors[k]?.bind fun v =>
      if v.sz < maxSize then
        (v.pushBack .ps s.heap x).toOption.map fun (h, v) =>
          { s with heap := h, vectors := s.vectors ++ [v] }
      else none
  | .set k i x => s.vectors[k]?.bind fun v =>
      if i < v.sz then
        (v.set .ps s.heap i x).toOption.map fun (h, v) =>
          { s with heap := h, vectors := s.vectors ++ [v] }
      else none
  | .begin k => s.vectors[k]?.bind fun v =>
      (v.begin s.heap).toOption.map fun (h, v, it) =>
        { s with heap := h, vectors := s.vectors.set k v, iterators := s.iterators ++ [⟨k, 0, it⟩] }
  | .next j => s.iterators[j]?.bind fun c =>
      if c.pos < c.it.sz then
        (c.it.next s.heap).toOption.map fun (h, it) =>
          { s with heap := h, iterators := s.iterators.set j ⟨c.owner, c.pos + 1, it⟩ }
      else none
  | .add j n => s.iterators[j]?.bind fun c =>
      if c.pos + n ≤ c.it.sz then
        (c.it.add s.heap n).toOption.map fun (h, it) =>
          { s with heap := h, iterators := s.iterators ++ [⟨c.owner, c.pos + n, it⟩] }
      else none
  | .store j x => s.iterators[j]?.bind fun c =>
      if c.pos < c.it.sz then
        (c.it.store s.heap x).toOption.map fun h => { s with heap := h }
      else none
  | .assign rounds k l a b => s.vectors[k]?.bind fun v => s.vectors[l]?.bind fun o =>
      if k ≠ l ∧ o.sz = v.sz ∧ o.levels = v.levels ∧ b ≤ v.sz then
        (v.assign rounds .ps s.heap o a b).toOption.map fun (h, v) =>
          { s with heap := h, vectors := s.vectors.set k v }
      else none

/-- The program over a family. -/
def code (T : Type) [Inhabited T] : Machine (Family T) (FamilyOp T) := ⟨step⟩

end

/-- Some transients, and nothing made of them yet. -/
def start (h : Heap T) (ts : List BpVector) : Family T := ⟨h, [], ts, []⟩

/-- The vector that an operation writes, or may. -/
def writer (s : Family T) : FamilyOp T → Option ℕ
  | .begin k => some k
  | .next j => s.iterators[j]?.map Cursor.owner
  | .add j _ => s.iterators[j]?.map Cursor.owner
  | .store j _ => s.iterators[j]?.map Cursor.owner
  | .assign _ k _ _ _ => some k
  | _ => none

/-- **The others are spared**: they are there as they were, and each of
their elements is what it was. -/
def Spares [Inhabited T] (s : Family T) (op : FamilyOp T) : Prop :=
  ∀ t, s.step op = some t → ∀ m w, s.vectors[m]? = some w → s.writer op ≠ some m →
    t.vectors[m]? = some w ∧ ∀ i, w.at' t.heap i = w.at' s.heap i

/-- Where the range `[a, b)` of `o` is written to `v` value by value, the
vector `w` shares no path with `v`, or has the value of `o` already. -/
def EndsUnshared (h : Heap T) (v o w : BpVector) (a b : ℕ) : Prop :=
  ∀ p < b, Ends a b p → p < w.sz → SharedAt h v w p → w.at' h p = o.at' h p

instance [DecidableEq T] (h : Heap T) (v o w : BpVector) (a b : ℕ) :
    Decidable (EndsUnshared h v o w a b) :=
  inferInstanceAs (Decidable (∀ p < b, Ends a b p → p < w.sz → SharedAt h v w p →
    w.at' h p = o.at' h p))

/-- **No node is written that others go through**: a value that is written
by an iterator, or at the ends of a range that is assigned, is written at
an index where the path has no node of id zero in common with that of
another vector, unless this has the value there already. And an `assign`
of less than a leaf that passes over to another one must find it on the
path it was on. -/
def Unshared (s : Family T) : FamilyOp T → Prop
  | .store j x => ∀ c ∈ s.iterators[j]?, c.pos < c.it.sz →
      ∀ m < s.vectors.length, ∀ w ∈ s.vectors[m]?, m ≠ c.owner → c.pos < w.sz →
        SharedAt s.heap c.it.vector w c.pos → w.at' s.heap c.pos = .ok x
  | .assign _ k l a b => ∀ v ∈ s.vectors[k]?, ∀ o ∈ s.vectors[l]?,
      (∀ m < s.vectors.length, ∀ w ∈ s.vectors[m]?, m ≠ k → EndsUnshared s.heap v o w a b) ∧
      (b - a < bpWidth → a < Radix.up bpWidth a → Radix.up bpWidth a ≤ b →
        Radix.up bpWidth a < v.sz → Steady s.heap v o (Radix.up bpWidth a))
  | _ => True

/-- It can be checked on a given run. -/
instance [DecidableEq T] (s : Family T) : ∀ op, Decidable (s.Unshared op)
  | .store j x => inferInstanceAs (Decidable (∀ c ∈ s.iterators[j]?, c.pos < c.it.sz →
      ∀ m < s.vectors.length, ∀ w ∈ s.vectors[m]?, m ≠ c.owner → c.pos < w.sz →
        SharedAt s.heap c.it.vector w c.pos → w.at' s.heap c.pos = .ok x))
  | .assign _ k l a b => inferInstanceAs (Decidable (∀ v ∈ s.vectors[k]?, ∀ o ∈ s.vectors[l]?,
      (∀ m < s.vectors.length, ∀ w ∈ s.vectors[m]?, m ≠ k → EndsUnshared s.heap v o w a b) ∧
      (b - a < bpWidth → a < Radix.up bpWidth a → Radix.up bpWidth a ≤ b →
        Radix.up bpWidth a < v.sz → Steady s.heap v o (Radix.up bpWidth a))))
  | .new | .copy _ | .makePersistent _ | .pushBack .. | .set .. | .begin _ | .next _ | .add .. =>
    isTrue trivial

end Family

variable {h h' : Heap T} {Ψ Ψ' : Addr → Place} {k m p : ℕ} {v w : BpVector} {L : List T}
variable {W : ℕ → T → Prop} {it : BpIterator} {c : Cursor} {q : Option ℕ}

/-! ## What is kept of a family -/

/-- The vector stands in the heap, and is no greater than its kind gets. -/
def Stands (h : Heap T) (Ψ : Addr → Place) (v : BpVector) : Prop :=
  v.sz ≤ maxSize ∧ ∃ L : List T, Holds h Ψ v L

theorem Stands.altered (hv : Stands h Ψ v) (e : Alters W h Ψ h' Ψ') : Stands h' Ψ' v := by
  obtain ⟨hle, L, hL⟩ := hv
  obtain ⟨N, hN, -⟩ := hL.altered e
  exact ⟨hle, N, hN⟩

theorem maxSize_le : maxSize ≤ 2 ^ 63 := by
  rw [maxSize, bpWidth_eq, ← pow_mul]
  exact Nat.pow_le_pow_right (by omega) (Nat.mul_div_le 63 bpBits)

theorem Stands.sz_le (hv : Stands h Ψ v) : v.sz ≤ 2 ^ 63 := le_trans hv.1 maxSize_le

theorem BpIterator.At.vector_eq {cp : Id → Bool} (hit : it.At cp h v p) : it.vector = v := by
  rw [BpIterator.vector, hit.sz_eq, hit.levels_eq, hit.root_eq, hit.id_eq]

/-- The iterator is one of a vector with the id zero, and stands where the
program has it. -/
structure Cursor.Stands (h : Heap T) (Ψ : Addr → Place) (c : Cursor) : Prop where
  id_eq : c.it.id = 0
  vector : Contentious.Stands h Ψ c.it.vector
  at_pos : c.it.At (nodeCopy .tr 0) h c.it.vector c.pos

theorem Cursor.Stands.grown (hc : c.Stands h Ψ) (hP : Placed h Ψ) (e : Alters W h Ψ h' Ψ')
    (hk : Keeps (nodeCopy .tr 0) h h') : c.Stands h' Ψ' := by
  obtain ⟨hid, hv, hat⟩ := hc
  obtain ⟨-, L, hL⟩ := id hv
  exact ⟨hid, hv.altered e, hat.keeps hP hL.root_lt hk⟩

theorem Cursor.Stands.at_own (hc : c.Stands h Ψ) :
    c.it.At (nodeCopy .tr c.it.vector.id) h c.it.vector c.pos := by
  rw [show c.it.vector.id = 0 from hc.id_eq]
  exact hc.at_pos

/-- An iterator that has come to a position of its vector. -/
theorem Cursor.stands_of_came {n : ℕ} (hid : v.id = 0) (hv : Contentious.Stands h' Ψ' v)
    (hit : it.At (nodeCopy .tr v.id) h' v p) : (⟨n, p, it⟩ : Cursor).Stands h' Ψ' := by
  refine ⟨hit.id_eq.trans hid, ?_, ?_⟩
  · rw [hit.vector_eq]
    exact hv
  · rw [hit.vector_eq, ← hid]
    exact hit

namespace Family

variable {s t : Family T} {op : FamilyOp T}

/-- **A family stands**: its vectors have the id zero, and they, the
transients and what the iterators are of denote lists. -/
structure Sound (s : Family T) (Ψ : Addr → Place) : Prop where
  placed : Placed s.heap Ψ
  vectors : ∀ v ∈ s.vectors, v.id = 0 ∧ Stands s.heap Ψ v
  transients : ∀ t ∈ s.transients, Stands s.heap Ψ t
  iterators : ∀ c ∈ s.iterators, c.Stands s.heap Ψ

/-- What a step has done with a family that stands: the nodes are altered
by `W`, and the vectors but the `k`-th are there. -/
structure Stepped (W : ℕ → T → Prop) (k : Option ℕ) (s : Family T) (Ψ : Addr → Place)
    (t : Family T) (Ψ' : Addr → Place) : Prop where
  sound : t.Sound Ψ'
  alters : Alters W s.heap Ψ t.heap Ψ'
  others : ∀ m w, s.vectors[m]? = some w → k ≠ some m → t.vectors[m]? = some w

namespace Sound

/-- **A heap that was altered**, its paths being kept, carries the family. -/
theorem grown (hs : s.Sound Ψ) (e : Alters W s.heap Ψ h' Ψ')
    (hk : Keeps (nodeCopy .tr 0) s.heap h') : ({ s with heap := h' } : Family T).Sound Ψ' where
  placed := e.placed
  vectors v hv := ⟨(hs.vectors v hv).1, (hs.vectors v hv).2.altered e⟩
  transients t ht := (hs.transients t ht).altered e
  iterators c hc := (hs.iterators c hc).grown hs.placed e hk

/-- Another vector, -/
theorem push (hs : s.Sound Ψ) (hid : v.id = 0) (hv : Stands s.heap Ψ v) :
    ({ s with vectors := s.vectors ++ [v] } : Family T).Sound Ψ :=
  { hs with
    vectors := fun w hw => by
      rcases List.mem_append.1 hw with hw | hw
      · exact hs.vectors w hw
      · rw [List.mem_singleton.1 hw]
        exact ⟨hid, hv⟩ }

/-- one in the place of another, -/
theorem put (hs : s.Sound Ψ) (hid : v.id = 0) (hv : Stands s.heap Ψ v) :
    ({ s with vectors := s.vectors.set k v } : Family T).Sound Ψ :=
  { hs with
    vectors := fun w hw => by
      rcases List.mem_or_eq_of_mem_set hw with hw | rfl
      · exact hs.vectors w hw
      · exact ⟨hid, hv⟩ }

/-- and another iterator, or one in the place of another. -/
theorem withIterator {its : List Cursor} (hs : s.Sound Ψ) (hc : c.Stands s.heap Ψ)
    (hits : ∀ d ∈ its, d ∈ s.iterators ∨ d = c) :
    ({ s with iterators := its } : Family T).Sound Ψ :=
  { hs with
    iterators := fun d hd => by
      rcases hits d hd with hd | rfl
      · exact hs.iterators d hd
      · exact hc }

/-- **A vector that is made**, in a heap whose nodes are left as they were. -/
theorem made (hs : s.Sound Ψ) (hn : s.heap.next ≤ h'.next) (hΨ : ∀ d < s.heap.next, Ψ' d = Ψ d)
    (hP : Placed h' Ψ') (hcell : ∀ d < s.heap.next, h'.cell d = s.heap.cell d) (hid : v.id = 0)
    (hv : Stands h' Ψ' v) :
    Stepped W q s Ψ { s with heap := h', vectors := s.vectors ++ [v] } Ψ' := by
  have e : Alters W s.heap Ψ h' Ψ' := .of_cells hs.placed hn hΨ hP hcell
  exact ⟨(hs.grown e (.of_cells hn hcell)).push hid hv, e, fun m w hw _ => by
    rw [List.getElem?_append_left (List.getElem?_eq_some_iff.1 hw).1, hw]⟩

/-- **A vector that is put in the place of the `k`-th.** -/
theorem replaced (hs : s.Sound Ψ) (e : Alters W s.heap Ψ h' Ψ')
    (hk : Keeps (nodeCopy .tr 0) s.heap h') (hid : v.id = 0) (hv : Stands h' Ψ' v) :
    Stepped W (some k) s Ψ { s with heap := h', vectors := s.vectors.set k v } Ψ' :=
  ⟨(hs.grown e hk).put hid hv, e, fun m w hw hne => by
    rw [List.getElem?_set_ne fun hkm => hne (congrArg some hkm)]
    exact hw⟩

/-- **An iterator that has moved.** -/
theorem moved {n : ℕ} {its : List Cursor} (hs : s.Sound Ψ) (hc : c.Stands s.heap Ψ)
    (hcame : BpIterator.At.Came (nodeCopy .tr c.it.vector.id) s.heap Ψ h' Ψ' c.it.vector p it)
    (hits : ∀ d ∈ its, d ∈ s.iterators ∨ d = ⟨n, p, it⟩) :
    Stepped W q s Ψ { s with heap := h', iterators := its } Ψ' := by
  have e : Alters W s.heap Ψ h' Ψ' := .of_ext hcame.ext
  have hk : Keeps (nodeCopy .tr 0) s.heap h' := by
    rw [← hc.id_eq]
    exact hcame.keeps
  have hc' : (⟨n, p, it⟩ : Cursor).Stands h' Ψ' :=
    Cursor.stands_of_came hc.id_eq (hc.vector.altered e) hcame.stands
  exact ⟨(hs.grown e hk).withIterator hc' hits, e, fun m w hw _ => hw⟩

variable [Inhabited T]

/-- **Making vectors** alters nothing, -/
theorem new (hs : s.Sound Ψ) (he : s.step .new = some t) : ∃ Ψ', Stepped W q s Ψ t Ψ' := by
  cases he
  obtain ⟨Ψ', hΨ, hP', hv⟩ := Holds.empty hs.placed 0
  exact ⟨Ψ', hs.made (Nat.le_succ _) hΨ hP' (fun d hd => Store.alloc_cell_old hd) rfl
    ⟨Nat.zero_le _, [], hv⟩⟩

theorem copy (hs : s.Sound Ψ) (he : s.step (.copy k) = some t) : Stepped W q s Ψ t Ψ := by
  obtain ⟨v, hv, rfl⟩ := Option.map_eq_some_iff.1 he
  obtain ⟨hid, hst⟩ := hs.vectors v (List.mem_of_getElem? hv)
  exact hs.made le_rfl (fun _ _ => rfl) hs.placed (fun _ _ => rfl) hid hst

theorem makePersistent (hs : s.Sound Ψ) (he : s.step (.makePersistent m) = some t) :
    Stepped W q s Ψ t Ψ := by
  obtain ⟨v, hv, rfl⟩ := Option.map_eq_some_iff.1 he
  obtain ⟨hle, L, hL⟩ := hs.transients v (List.mem_of_getElem? hv)
  exact hs.made le_rfl (fun _ _ => rfl) hs.placed (fun _ _ => rfl) rfl
    ⟨hle, L, hL.of_same ⟨rfl, rfl, rfl⟩⟩

theorem pushBack {x : T} (hs : s.Sound Ψ) (he : s.step (.pushBack k x) = some t) :
    ∃ Ψ', Stepped W q s Ψ t Ψ' := by
  obtain ⟨v, hv, he⟩ := Option.bind_eq_some_iff.1 he
  obtain ⟨hmax, he⟩ := Option.ite_none_right_eq_some.1 he
  obtain ⟨⟨h', v'⟩, hgo, rfl⟩ := Option.map_eq_some_iff.1 he
  have he := Exec.toOption_eq_some.1 hgo
  obtain ⟨hid, -, L, hL⟩ := hs.vectors v (List.mem_of_getElem? hv)
  rw [hL.size] at hmax
  obtain ⟨_, _, Ψ', he', hid', hn, hΨ, hP', hv'⟩ := hL.pushBack .ps hs.placed hmax x
  rw [he] at he'
  cases he'
  refine ⟨Ψ', hs.made hn hΨ hP' (Ps.pushBack_cell hs.placed hL.root_lt he) (hid'.trans hid) ?_⟩
  exact ⟨by rw [hv'.size, List.length_append]; exact hmax, _, hv'⟩

theorem set {i : ℕ} {x : T} (hs : s.Sound Ψ) (he : s.step (.set k i x) = some t) :
    ∃ Ψ', Stepped W q s Ψ t Ψ' := by
  obtain ⟨v, hv, he⟩ := Option.bind_eq_some_iff.1 he
  obtain ⟨hi, he⟩ := Option.ite_none_right_eq_some.1 he
  obtain ⟨⟨h', v'⟩, hgo, rfl⟩ := Option.map_eq_some_iff.1 he
  have he := Exec.toOption_eq_some.1 hgo
  obtain ⟨hid, hle, L, hL⟩ := hs.vectors v (List.mem_of_getElem? hv)
  rw [hL.size] at hi
  obtain ⟨_, _, Ψ', he', hn, hΨ, hP', hv'⟩ := hL.setWith (nodeCopy .ps v.id) hs.placed hi x
  have he'' := he
  rw [BpVector.set, he'] at he''
  cases he''
  exact ⟨Ψ', hs.made hn hΨ hP' (Ps.set_cell hs.placed hL.root_lt he) hid ⟨hle, _, hv'⟩⟩

/-- and so does moving iterators. -/
theorem begin (hs : s.Sound Ψ) (he : s.step (.begin k) = some t) :
    ∃ Ψ', Stepped W (some k) s Ψ t Ψ' := by
  obtain ⟨v, hv, he⟩ := Option.bind_eq_some_iff.1 he
  obtain ⟨⟨h', v', it⟩, hgo, rfl⟩ := Option.map_eq_some_iff.1 he
  have he : BpVector.beginOf .mutable s.heap v = .ok (h', v', it) := Exec.toOption_eq_some.1 hgo
  obtain ⟨hid, hle, L, hL⟩ := hs.vectors v (List.mem_of_getElem? hv)
  obtain ⟨_, r', _, Ψ', he', hcame, -, hL', -⟩ := hL.beginOf .mutable hs.placed
  rw [he] at he'
  cases he'
  have hst : Stands h' Ψ' ({ v with root := r' } : BpVector) := ⟨hle, L, hL'⟩
  have hk : Keeps (nodeCopy .tr 0) s.heap h' := by
    rw [← hid]
    exact hcame.keeps
  obtain ⟨hs', e, hothers⟩ := hs.replaced (W := W) (k := k) (v := { v with root := r' })
    (.of_ext hcame.ext) hk hid hst
  have hc : (⟨k, 0, it⟩ : Cursor).Stands h' Ψ' :=
    Cursor.stands_of_came (v := { v with root := r' }) hid hst hcame.stands
  exact ⟨Ψ', hs'.withIterator hc fun d hd => (List.mem_append.1 hd).imp_right
    List.mem_singleton.1, e, hothers⟩

theorem next {j : ℕ} (hs : s.Sound Ψ) (he : s.step (.next j) = some t) :
    ∃ Ψ', Stepped W q s Ψ t Ψ' := by
  obtain ⟨c, hc, he⟩ := Option.bind_eq_some_iff.1 he
  obtain ⟨hp, he⟩ := Option.ite_none_right_eq_some.1 he
  obtain ⟨⟨h', it⟩, hgo, rfl⟩ := Option.map_eq_some_iff.1 he
  have he : c.it.nextOf .mutable s.heap = .ok (h', it) := Exec.toOption_eq_some.1 hgo
  have hst := hs.iterators c (List.mem_of_getElem? hc)
  obtain ⟨L, hL⟩ := hst.vector.2
  obtain ⟨_, _, Ψ', he', hcame⟩ := BpIterator.At.nextOf (κ := .mutable) hst.at_own hs.placed hL hp
    hst.vector.sz_le
  rw [he] at he'
  cases he'
  exact ⟨Ψ', hs.moved hst hcame fun d hd => List.mem_or_eq_of_mem_set hd⟩

theorem add {j n : ℕ} (hs : s.Sound Ψ) (he : s.step (.add j n) = some t) :
    ∃ Ψ', Stepped W q s Ψ t Ψ' := by
  obtain ⟨c, hc, he⟩ := Option.bind_eq_some_iff.1 he
  obtain ⟨hp, he⟩ := Option.ite_none_right_eq_some.1 he
  obtain ⟨⟨h', it⟩, hgo, rfl⟩ := Option.map_eq_some_iff.1 he
  have he : c.it.addOf .mutable s.heap n = .ok (h', it) := Exec.toOption_eq_some.1 hgo
  have hst := hs.iterators c (List.mem_of_getElem? hc)
  obtain ⟨L, hL⟩ := hst.vector.2
  have hsz := hst.vector.sz_le
  have hits : ∀ d ∈ s.iterators ++ [⟨c.owner, c.pos + n, it⟩],
      d ∈ s.iterators ∨ d = ⟨c.owner, c.pos + n, it⟩ := fun d hd =>
    (List.mem_append.1 hd).imp_right List.mem_singleton.1
  rcases Nat.eq_zero_or_pos n with rfl | hn
  · -- nowhere
    rw [BpIterator.addOf, BpIterator.addWith, if_pos (.inr rfl)] at he
    cases he
    exact ⟨Ψ, hs.moved hst ⟨.refl hs.placed, .refl, hst.at_own⟩ hits⟩
  · have hp' : c.pos < c.it.vector.sz := by
      change c.pos < c.it.sz
      omega
    have hbase := hst.at_pos.base_eq hp'
    have hn63 : n < 2 ^ 63 := by
      by_contra hge
      have hle : c.it.sz ≤ 2 ^ 63 := hsz
      rw [BpIterator.addOf, BpIterator.addWith_far (by omega) hst.at_pos.cur_le (by omega)
        (by omega)] at he
      cases he
    obtain ⟨_, _, Ψ', he', hcame, -⟩ := hst.at_own.addOf (κ := .mutable) hbase hs.placed hL hn63 hsz
      (.inl hp)
    rw [he] at he'
    cases he'
    have hmin : min (c.pos + n) c.it.vector.sz = c.pos + n := min_eq_left hp
    rw [hmin] at hcame
    exact ⟨Ψ', hs.moved hst hcame hits⟩

/-- **`*it = x`** writes at its position, and spares a vector just where
that has the value or no node that may be written is on both paths. -/
theorem store {j : ℕ} {x : T} (hs : s.Sound Ψ) (he : s.step (.store j x) = some t) :
    ∃ c ∈ s.iterators[j]?, c.pos < c.it.sz ∧ t.vectors = s.vectors ∧ t.Sound Ψ ∧
      ∀ w ∈ s.vectors, (∀ i, w.at' t.heap i = w.at' s.heap i) ↔
        (c.pos < w.sz → SharedAt s.heap c.it.vector w c.pos → w.at' s.heap c.pos = .ok x) := by
  obtain ⟨c, hc, he⟩ := Option.bind_eq_some_iff.1 he
  obtain ⟨hp, he⟩ := Option.ite_none_right_eq_some.1 he
  obtain ⟨h', hgo, rfl⟩ := Option.map_eq_some_iff.1 he
  have he := Exec.toOption_eq_some.1 hgo
  have hst := hs.iterators c (List.mem_of_getElem? hc)
  obtain ⟨L, hL⟩ := hst.vector.2
  have hk : Keeps (nodeCopy .tr 0) s.heap h' := by
    have hp' : c.pos < L.length := by
      rw [← hL.size]
      exact hp
    obtain ⟨_, he', -, -, hk, -⟩ := hst.at_pos.store hs.placed hL hp' x
    rw [he] at he'
    cases he'
    exact hk
  refine ⟨c, hc, hp, rfl, hs.grown (hst.at_own.alters hs.placed hL hp he) hk, fun w hw => ?_⟩
  obtain ⟨N, hN⟩ := (hs.vectors w hw).2.2
  exact hst.at_own.store_iff hs.placed hL hN hp he

/-- **`assign`** spares the vectors that it finds unshared. -/
theorem assign {rounds l a b : ℕ} (hs : s.Sound Ψ) (hu : s.Unshared (.assign rounds k l a b))
    (he : s.step (.assign rounds k l a b) = some t) :
    ∃ Ψ', t.Sound Ψ' ∧ ∀ m w, s.vectors[m]? = some w → m ≠ k →
      t.vectors[m]? = some w ∧ ∀ i, w.at' t.heap i = w.at' s.heap i := by
  obtain ⟨v, hv, he⟩ := Option.bind_eq_some_iff.1 he
  obtain ⟨o, ho, he⟩ := Option.bind_eq_some_iff.1 he
  obtain ⟨⟨-, hsz, hlev, hb⟩, he⟩ := Option.ite_none_right_eq_some.1 he
  obtain ⟨⟨h', v'⟩, hgo, rfl⟩ := Option.map_eq_some_iff.1 he
  have he := Exec.toOption_eq_some.1 hgo
  obtain ⟨hid, hvst⟩ := hs.vectors v (List.mem_of_getElem? hv)
  obtain ⟨hido, -, M, hM⟩ := hs.vectors o (List.mem_of_getElem? ho)
  obtain ⟨L, hL⟩ := hvst.2
  obtain ⟨hspare, hsteady⟩ := hu v hv o ho
  obtain ⟨Ψ', hal, hk, heq, N, hN⟩ := hL.assign hs.placed hM hsz hlev hvst.sz_le hb hsteady he
  have hv' : Stands h' Ψ' v' := ⟨by rw [heq]; exact hvst.1, N, hN⟩
  rw [hid] at hk
  obtain ⟨hs', -, hothers⟩ := hs.replaced (k := k) hal hk (by rw [heq]; exact hid) hv'
  refine ⟨Ψ', hs', fun m w hw hmk => ⟨hothers m w hw fun h => hmk (Option.some.inj h).symm, ?_⟩⟩
  obtain ⟨N', hN'⟩ := (hs.vectors w (List.mem_of_getElem? hw)).2.2
  exact hL.assign_spares hs.placed hM hN' hsz (hido.trans hid.symm) hb hal he fun p hp =>
    hspare m (List.getElem?_eq_some_iff.1 hw).1 w hw hmk p hp.2.1 hp

/-- What is neither a store nor an `assign` alters nothing. -/
theorem quiet (hs : s.Sound Ψ) (hstore : ∀ j x, op ≠ .store j x) (hop : ¬ op.IsAssign)
    (he : s.step op = some t) : ∃ Ψ', Stepped (fun _ _ => False) (s.writer op) s Ψ t Ψ' := by
  cases op with
  | new => exact hs.new he
  | copy k => exact ⟨Ψ, hs.copy he⟩
  | makePersistent m => exact ⟨Ψ, hs.makePersistent he⟩
  | pushBack k x => exact hs.pushBack he
  | set k i x => exact hs.set he
  | begin k => exact hs.begin he
  | next j => exact hs.next he
  | add j n => exact hs.add he
  | store j x => exact absurd rfl (hstore j x)
  | assign rounds k l a b => exact absurd trivial hop

/-- **A step keeps the family standing**, if it is no `assign` or one that
finds its vectors unshared. -/
theorem step (hs : s.Sound Ψ) (hu : op.IsAssign → s.Unshared op) (he : s.step op = some t) :
    ∃ Ψ', t.Sound Ψ' := by
  by_cases hstore : ∀ j x, op ≠ .store j x
  · by_cases hop : op.IsAssign
    · cases op with
      | assign rounds k l a b =>
        obtain ⟨Ψ', hs', -⟩ := hs.assign (hu hop) he
        exact ⟨Ψ', hs'⟩
      | _ => exact absurd hop (fun h => h)
    · obtain ⟨Ψ', hst⟩ := hs.quiet hstore hop he
      exact ⟨Ψ', hst.sound⟩
  · push Not at hstore
    obtain ⟨j, x, rfl⟩ := hstore
    obtain ⟨c, -, -, -, hs', -⟩ := hs.store he
    exact ⟨Ψ, hs'⟩

/-- **A step that writes no shared node spares the others.** -/
theorem spares (hs : s.Sound Ψ) (hu : s.Unshared op) : s.Spares op := by
  intro t he m w hw hwr
  by_cases hstore : ∀ j x, op ≠ .store j x
  · by_cases hop : op.IsAssign
    · cases op with
      | assign rounds k l a b =>
        obtain ⟨Ψ', -, hspare⟩ := hs.assign hu he
        exact hspare m w hw fun hmk => hwr (by rw [hmk]; rfl)
      | _ => exact absurd hop (fun h => h)
    · obtain ⟨Ψ', hst⟩ := hs.quiet hstore hop he
      obtain ⟨N, hN⟩ := (hs.vectors w (List.mem_of_getElem? hw)).2.2
      exact ⟨hst.others m w hw hwr, fun i => hst.alters.at_eq hN i fun _ _ _ h => h.elim⟩
  · push Not at hstore
    obtain ⟨j, x, rfl⟩ := hstore
    obtain ⟨c, hc, hp, hvs, -, hiff⟩ := hs.store he
    refine ⟨by rw [hvs, hw], (hiff w (List.mem_of_getElem? hw)).2 ?_⟩
    refine hu c hc hp m (List.getElem?_eq_some_iff.1 hw).1 w hw fun hm => hwr ?_
    rw [writer, hm, hc]
    rfl

end Sound

variable [Inhabited T]

end Family

end Contentious
