import Contentious.Trie.Paths

/-!
# Trie — the depth of a vector

One vector, pushed to and set by either path, and converted between the
types on the way. Past the size of one leaf its depth is a function of its
size. Up to there it is what the first push made of the empty vector:
`push_back` has no case for it and rotates, `mut_push_back` fills the root,
which is a leaf.
-/

namespace Contentious

open BpVector

variable [K : BpBits] {T : Type} {D : Der}

/-- The two ways of an edit: `push_back` and `set`, or `mut_push_back` and
`mut_set`. -/
inductive Way
  | const
  | inPlace
deriving DecidableEq

/-- The depth of a vector of one value that was pushed so. -/
def Way.depth : Way → ℕ
  | .const => 1
  | .inPlace => 0

/-- What is done with a vector; what it gives takes its place. -/
inductive HandleOp (T : Type)
  | const (e : Edit T)
  /-- `junk` is what the memory holds where a node is made -/
  | inPlace (junk : Addr → Id) (e : Edit T)
  | makeTransient
  | makePersistent

/-- The way of a push. -/
def HandleOp.push : HandleOp T → Option Way
  | .const (.push _) => some .const
  | .inPlace _ (.push _) => some .inPlace
  | _ => none

/-- The way of the push that the update is. -/
def Update.push : Update D T → Option Way
  | .const (.push _) => some .const
  | .inPlace _ (.push _) => some .inPlace
  | _ => none

/-- The nodes, the counter, and the vector with its type. -/
structure Handle (T : Type) [BpBits] where
  heap : Heap T
  counter : Id
  der : Der
  v : BpVector

/-- A list, the type of the vector that is to hold it, and the way of the
first push. -/
structure Draft (T : Type) where
  der : Der
  contents : List T
  first : Option Way
deriving DecidableEq

namespace Draft

/-- The program over lists. A const edit is for `ps_vector` and `tr_vector`,
one in place for `bp_vector` and `tr_vector`, `make_persistent` for the latter
and `make_transient` for the others. -/
def step (d : Draft T) (op : HandleOp T) : Option (Draft T) :=
  match op with
  | .const e =>
    if d.der = .bp then none
    else ((lists T).step d.contents e).map fun L => ⟨d.der, L, d.first.or op.push⟩
  | .inPlace _ e =>
    if d.der = .ps then none
    else ((lists T).step d.contents e).map fun L => ⟨d.der, L, d.first.or op.push⟩
  | .makeTransient => if d.der = .tr then none else some { d with der := .tr }
  | .makePersistent => if d.der = .tr then some { d with der := .ps } else none

def code (T : Type) : Machine (Draft T) (HandleOp T) := ⟨step⟩

/-- Nothing was pushed yet. -/
def new (D : Der) : Draft T := ⟨D, [], none⟩

end Draft

namespace Handle

variable [Inhabited T]

/-- The default-constructed vector; a `tr_vector` draws its id. -/
def new (D : Der) (counter : Id) (h : Heap T) : Handle T :=
  let (drawn, after) := Tr.getUniqueId counter
  let (h, v) := newVector D drawn h
  ⟨h, if D = .tr then after else counter, D, v⟩

/-- An edit, by one of the two paths. -/
def edit (s : Handle T) (junk : Addr → Id) (u : Update s.der T) : Option (Handle T) :=
  ((handle T s.der junk).step (s.heap, s.v) u).map fun (h, v) => { s with heap := h, v := v }

/-- The program over the vector. -/
def step (s : Handle T) : HandleOp T → Option (Handle T)
  | .const e => s.edit (fun _ => 0) (.const e)
  | .inPlace junk e => if hD : s.der = .ps then none else s.edit junk (.inPlace hD e)
  | .makeTransient =>
    if s.der = .tr then none
    else
      let (v, counter) := Tr.newId s.counter s.v
      some { s with counter := counter, der := .tr, v := v }
  | .makePersistent => if s.der = .tr then some { s with der := .ps, v := Ps.ofTr s.v } else none

def code (T : Type) [Inhabited T] : Machine (Handle T) (HandleOp T) := ⟨step⟩

end Handle

/-- Every index below the size is reached through nodes that are there, in
`shift / BP_BITS` steps from branch to child, and read in a leaf. -/
def ReachedInShift (h : Heap T) (v : BpVector) : Prop :=
  ∀ i < v.sz, ∃ a x, walk h i (v.shift / bpBits) (v.shift / bpBits) v.root = .ok a ∧
    leaf h a (slot i 0) = .ok x

variable {h h' : Heap T} {Ψ Ψ' : Addr → Place} {v v' w : BpVector} {L M : List T}
variable {cp : Id → Bool} {x : T} {i : ℕ}

/-! ## What a push does to the depth -/

theorem setWith_levels (he : setWith cp h v i x = .ok (h', v')) : v'.levels = v.levels := by
  rw [setWith] at he
  obtain ⟨⟨h₁, a⟩, -, he⟩ := Exec.bind_eq_ok.1 he
  obtain ⟨h₂, -, he⟩ := Exec.bind_eq_ok.1 he
  cases he
  rfl

section
variable [Inhabited T]

/-- **An empty trie is full**: the first push that wants a new leaf
rotates. -/
theorem pushLeaf_levels_empty {newId : Addr → Id} (h0 : v.sz = 0)
    (he : pushLeaf cp newId h v x = .ok (h', v')) : v'.levels = v.levels + 1 := by
  have hins : ∀ fuel cap, depthIns 0 fuel cap (-1) = -1 := fun fuel cap => by
    cases fuel with
    | zero => rfl
    | succ fuel => rw [depthIns, Nat.zero_and, if_neg (not_not.2 rfl)]
  rw [pushLeaf] at he
  obtain ⟨cap, -, he⟩ := Exec.bind_eq_ok.1 he
  rw [h0, hins] at he
  dsimp only at he
  rw [if_pos rfl] at he
  obtain ⟨⟨h₁, r⟩, -, he⟩ := Exec.bind_eq_ok.1 he
  rw [pure_bind] at he
  obtain ⟨h₂, -, he⟩ := Exec.bind_eq_ok.1 he
  cases he
  rfl

/-- **A push** onto an empty vector makes it as deep as its way says, and
leaves the depth where there is room in the leaf. -/
theorem pushBack_levels (he : v.pushBack D h x = .ok (h', v')) :
    (v.sz = 0 → v'.levels = v.levels + 1) ∧ (v.sz % bpWidth ≠ 0 → v'.levels = v.levels) := by
  rw [BpVector.pushBack, and_bpMask] at he
  split at he
  · next hmod =>
    obtain ⟨⟨h₁, v₁⟩, hs, he⟩ := Exec.bind_eq_ok.1 he
    cases he
    have hlev := setWith_levels hs
    exact ⟨fun h0 => absurd (by rw [h0, Nat.zero_mod]) hmod, fun _ => hlev⟩
  · next hmod => exact ⟨fun h0 => pushLeaf_levels_empty h0 he, fun h => absurd h hmod⟩

theorem mutPushWith_levels {newId : Addr → Id} (he : mutPushWith cp newId h v x = .ok (h', v')) :
    v.sz < bpWidth → v'.levels = v.levels := by
  intro hlt
  rw [mutPushWith, and_bpMask] at he
  split at he
  · obtain ⟨⟨h₁, v₁⟩, hs, he⟩ := Exec.bind_eq_ok.1 he
    cases he
    have hlev := setWith_levels hs
    exact hlev
  · obtain ⟨h₁, -, he⟩ := Exec.bind_eq_ok.1 he
    cases he
    rfl

end

/-! ## One vector -/

theorem Holds.levels_nil (hv : Holds h Ψ v []) : v.levels = 0 := by
  rcases hv.tight with h0 | ⟨hpos, -⟩
  · exact h0
  · exact absurd hpos (lt_irrefl _)

/-- **Past the size of a leaf** the depth is a function of the size. -/
theorem Holds.levels_eq (hv : Holds h Ψ v L) (hw : Holds h' Ψ' w M) (hlen : L.length = M.length)
    (hW : bpWidth < L.length) : v.levels = w.levels := by
  have hdeep : ∀ {h : Heap T} {Ψ v L}, Holds h Ψ v L → bpWidth < L.length →
      bpWidth ^ v.levels < L.length := fun {h Ψ v L} hv hW => by
    have hfits := hv.fits
    rcases hv.tight with h0 | ⟨-, h1 | hlt⟩
    · rw [h0, Nat.zero_add, pow_one] at hfits
      omega
    · rwa [h1, pow_one]
    · exact hlt
  have hle : ∀ {m n : ℕ}, bpWidth ^ m < bpWidth ^ (n + 1) → m ≤ n := fun h =>
    Nat.lt_succ_iff.1 ((Nat.pow_lt_pow_iff_right one_lt_bpWidth).1 h)
  have h1 := hdeep hv hW
  have h2 := hdeep hw (hlen ▸ hW)
  have hfits := hv.fits
  have hfits' := hw.fits
  exact le_antisymm (hle (by omega)) (hle (by omega))

theorem Holds.reachedInShift (hv : Holds h Ψ v L) : ReachedInShift h v := by
  intro i hi
  have hlev : v.shift / bpBits = v.levels := by
    have hdepth := calcDepth_eq v
    rw [calcDepth] at hdepth
    omega
  have hsize := hv.size
  obtain ⟨a, hw, hr⟩ := exists_walk_of_readAt le_rfl (hv.read i (by omega))
  rw [Nat.sub_self] at hr
  rw [hlev]
  exact ⟨a, L[i], hw, hr⟩

/-- **What a vector keeps** of its draft: it denotes the list, and as long
as one leaf holds that, it is as deep as the first push made it. -/
structure Drafted (d : Draft T) (s : Handle T) : Prop where
  der_eq : s.der = d.der
  represents : Represents s.heap s.v d.contents
  unpushed : d.contents = [] → d.first = none
  shallow : d.contents ≠ [] → ∃ w, d.first = some w ∧
    (d.contents.length ≤ bpWidth → s.v.levels = w.depth)

section
variable [Inhabited T] {d d' : Draft T} {s : Handle T}

theorem mutPushBack_levels {hD : D ≠ .ps} {junk : Addr → Id}
    (he : Contentious.mutPushBack D hD junk h v x = .ok (h', v')) (hlt : v.sz < bpWidth) :
    v'.levels = v.levels := by
  cases D with
  | bp => exact mutPushWith_levels he hlt
  | ps => exact absurd rfl hD
  | tr => exact mutPushWith_levels he hlt

omit [Inhabited T] in
theorem mutSet_levels {hD : D ≠ .ps}
    (he : Contentious.mutSet D hD h v i x = .ok (h', v')) : v'.levels = v.levels := by
  cases D with
  | bp => exact setWith_levels he
  | ps => exact absurd rfl hD
  | tr => exact setWith_levels he

/-- **What an update does to the depth**: an edit of the elements leaves it,
and so does a push into a leaf that has values and room. -/
theorem handle_levels {junk : Addr → Id} {u : Update D T}
    (hstep : (handle T D junk).step (h, v) u = some (h', v')) :
    (u.push = none → v'.levels = v.levels) ∧ ∀ w, u.push = some w →
      (v.sz = 0 → v.levels = 0 → v'.levels = w.depth) ∧
        (0 < v.sz → v.sz < bpWidth → v'.levels = v.levels) := by
  match u with
  | .const (.push x) =>
    obtain ⟨-, hpush⟩ := Option.ite_none_left_eq_some.1 hstep
    obtain ⟨hempty, hroom⟩ := pushBack_levels (Exec.toOption_eq_some.1 hpush)
    refine ⟨fun h => (nomatch h), fun w hw => ?_⟩
    cases hw
    refine ⟨fun h0 hlev => by rw [hempty h0, hlev]; rfl, fun hpos hlt => hroom ?_⟩
    rw [Nat.mod_eq_of_lt hlt]
    omega
  | .const (.set i x) =>
    obtain ⟨-, hset⟩ := Option.ite_none_left_eq_some.1 hstep
    have hlev := setWith_levels (Exec.toOption_eq_some.1 hset)
    exact ⟨fun _ => hlev, fun w hw => (nomatch hw)⟩
  | .inPlace hD (.push x) =>
    have hlev := mutPushBack_levels (Exec.toOption_eq_some.1 hstep)
    refine ⟨fun h => (nomatch h), fun w hw => ?_⟩
    cases hw
    refine ⟨fun h0 h1 => ?_, fun _ => hlev⟩
    rw [hlev (by rw [h0]; exact bpWidth_pos), h1]
    rfl
  | .inPlace hD (.set i x) =>
    have hlev := mutSet_levels (Exec.toOption_eq_some.1 hstep)
    exact ⟨fun _ => hlev, fun w hw => (nomatch hw)⟩

omit [Inhabited T] in
/-- What an edit leaves is not empty, and longer by one just if it pushes. -/
theorem lists_length {u : Update D T} (hL : (lists T).step M u.edit = some L) :
    L ≠ [] ∧ (u.push = none → L.length = M.length) ∧ (u.push ≠ none → L.length = M.length + 1) := by
  match u with
  | .const (.push x) | .inPlace _ (.push x) =>
    obtain ⟨-, hL⟩ := Option.ite_none_right_eq_some.1 hL
    cases hL
    exact ⟨by simp, fun h => (nomatch h), fun _ => by simp⟩
  | .const (.set i x) | .inPlace _ (.set i x) =>
    obtain ⟨hi, hL⟩ := Option.ite_none_right_eq_some.1 hL
    cases hL
    refine ⟨fun h => ?_, fun _ => List.length_set, fun h => absurd rfl h⟩
    have hlen := congrArg List.length h
    rw [List.length_set, List.length_nil] at hlen
    omega

/-- **Each edit keeps it**, by either path. -/
theorem Drafted.edit (hk : Drafted d s) (junk : Addr → Id) {u : Update s.der T}
    (hu : u.Instantiable) (hL : (lists T).step d.contents u.edit = some L) :
    ∃ s', s.edit junk u = some s' ∧ Drafted ⟨d.der, L, d.first.or u.push⟩ s' := by
  obtain ⟨⟨h', v'⟩, hstep, hrep⟩ := handle_follows s.der junk d.contents u L (s.heap, s.v)
    hk.represents hu hL
  obtain ⟨hset, hpush⟩ := handle_levels hstep
  obtain ⟨hne, hlen, hlen'⟩ := lists_length hL
  obtain ⟨Ψ, -, hv⟩ := hk.represents
  have hsize := hv.size
  refine ⟨{ s with heap := h', v := v' }, by rw [Handle.edit, hstep]; rfl, hk.der_eq, hrep,
    fun h => absurd h hne, fun _ => ?_⟩
  cases hu : u.push with
  | none =>
    have hold : d.contents ≠ [] := fun h => hne (List.eq_nil_of_length_eq_zero (by
      rw [hlen hu, h, List.length_nil]))
    obtain ⟨w, hw, hlev⟩ := hk.shallow hold
    refine ⟨w, by rw [hw]; rfl, fun hle => ?_⟩
    rw [hset hu]
    exact hlev (by rw [← hlen hu]; exact hle)
  | some w =>
    obtain ⟨hfirst, hroom⟩ := hpush w hu
    have hlen := hlen' (by rw [hu]; exact Option.some_ne_none w)
    by_cases h0 : d.contents = []
    · -- the first push
      rw [h0] at hv hsize
      refine ⟨w, by rw [hk.unpushed h0]; rfl, fun _ => hfirst hsize hv.levels_nil⟩
    · obtain ⟨w₀, hw₀, hlev⟩ := hk.shallow h0
      have hpos := List.length_pos_iff.2 h0
      refine ⟨w₀, by rw [hw₀]; rfl, fun hle => ?_⟩
      dsimp only at hle ⊢
      rw [hroom (by omega) (by omega)]
      exact hlev (by omega)

/-- **Each step keeps it.** -/
theorem Drafted.step {op : HandleOp T} (hk : Drafted d s) (hd : d.step op = some d') :
    ∃ s', s.step op = some s' ∧ Drafted d' s' := by
  match op with
  | .const e =>
    obtain ⟨hD, hd⟩ := Option.ite_none_left_eq_some.1 hd
    obtain ⟨L, hL, rfl⟩ := Option.map_eq_some_iff.1 hd
    rw [← hk.der_eq] at hD
    have hpush : (HandleOp.const e).push = (Update.const e : Update s.der T).push := by
      cases e <;> rfl
    rw [hpush]
    exact hk.edit (fun _ => 0) (show (Update.const e).Instantiable from hD) hL
  | .inPlace junk e =>
    obtain ⟨hD, hd⟩ := Option.ite_none_left_eq_some.1 hd
    obtain ⟨L, hL, rfl⟩ := Option.map_eq_some_iff.1 hd
    rw [← hk.der_eq] at hD
    have hpush : (HandleOp.inPlace junk e).push = (Update.inPlace hD e).push := by
      cases e <;> rfl
    rw [hpush, Handle.step, dif_neg hD]
    exact hk.edit junk (show (Update.inPlace hD e).Instantiable from trivial) hL
  | .makeTransient =>
    obtain ⟨hD, hd⟩ := Option.ite_none_left_eq_some.1 hd
    cases hd
    rw [Handle.step, hk.der_eq, if_neg hD]
    exact ⟨_, rfl, rfl, hk.represents.withId _, hk.unpushed, hk.shallow⟩
  | .makePersistent =>
    obtain ⟨hD, hd⟩ := Option.ite_none_right_eq_some.1 hd
    cases hd
    rw [Handle.step, hk.der_eq, if_pos hD]
    exact ⟨_, rfl, rfl, hk.represents.withId _, hk.unpushed, hk.shallow⟩

/-- A default-constructed vector, in any heap whose nodes stand somewhere. -/
theorem Drafted.new (hP : Placed h Ψ) (D : Der) (counter : Id) :
    Drafted (Draft.new D : Draft T) (Handle.new D counter h) := by
  refine ⟨rfl, ?_, fun _ => rfl, fun h => absurd rfl h⟩
  have hmade : ∀ id,
      Represents (h.alloc (BpNode.newLeaves id)).1 ⟨0, 0, h.next, id⟩ ([] : List T) :=
    fun id => by
      obtain ⟨Ψ', -, hP', hv⟩ := Holds.empty hP id
      exact ⟨Ψ', hP', hv⟩
  cases D with
  | bp => exact hmade 0
  | ps => exact hmade 0
  | tr => exact hmade counter

/-- **Depth.** Take two vectors, of any types, each built from a
default-constructed one by any mix of const and in-place pushes and sets and
conversions, to the same size. Every index is reached through nodes that are
there, in as many steps as the shift says; and their shifts are the same
just when nothing was pushed, more than a leaf holds, or the first value of
both in the same way. -/
theorem depth_agrees_iff {h₁ h₂ : Heap T} {Ψ₁ Ψ₂ : Addr → Place} (hP₁ : Placed h₁ Ψ₁)
    (hP₂ : Placed h₂ Ψ₂) (D₁ D₂ : Der) (c₁ c₂ : Id) {ops₁ ops₂ : List (HandleOp T)}
    {d₁ d₂ : Draft T} (hd₁ : (Draft.code T).run (.new D₁) ops₁ = some d₁)
    (hd₂ : (Draft.code T).run (.new D₂) ops₂ = some d₂)
    (hsize : d₁.contents.length = d₂.contents.length) :
    ∃ s₁ s₂, (Handle.code T).run (.new D₁ c₁ h₁) ops₁ = some s₁ ∧
      (Handle.code T).run (.new D₂ c₂ h₂) ops₂ = some s₂ ∧
      s₁.v.sz = d₁.contents.length ∧ s₂.v.sz = s₁.v.sz ∧
      (s₁.v.shift = s₂.v.shift ∧ ReachedInShift s₁.heap s₁.v ∧ ReachedInShift s₂.heap s₂.v ↔
        s₁.v.sz = 0 ∨ bpWidth < s₁.v.sz ∨ d₁.first = d₂.first) := by
  have hfollows : ∀ (d : Draft T) op d' s, Drafted d s → (Draft.code T).step d op = some d' →
      ∃ s', (Handle.code T).step s op = some s' ∧ Drafted d' s' := fun d op d' s hk hd => hk.step hd
  obtain ⟨s₁, hs₁, hk₁⟩ := Machine.run_simulates hfollows (Drafted.new hP₁ D₁ c₁) hd₁
  obtain ⟨s₂, hs₂, hk₂⟩ := Machine.run_simulates hfollows (Drafted.new hP₂ D₂ c₂) hd₂
  obtain ⟨Ψ, -, hv⟩ := hk₁.represents
  obtain ⟨Ψ', -, hw⟩ := hk₂.represents
  have hlen := hv.size
  have hlen' := hw.size
  refine ⟨s₁, s₂, hs₁, hs₂, hlen, by omega, ?_⟩
  have hshift : s₁.v.shift = s₂.v.shift ↔ s₁.v.levels = s₂.v.levels :=
    Nat.mul_left_inj (by have := K.one_le; omega)
  rw [hshift, and_iff_left ⟨hv.reachedInShift, hw.reachedInShift⟩]
  by_cases h0 : d₁.contents = []
  · have h0' : d₂.contents = [] := List.eq_nil_of_length_eq_zero (by rw [← hsize, h0]; rfl)
    rw [h0] at hv hlen
    rw [h0'] at hw
    exact iff_of_true (hv.levels_nil.trans hw.levels_nil.symm) (.inl hlen)
  · have hpos := List.length_pos_iff.2 h0
    rcases Nat.lt_or_ge bpWidth s₁.v.sz with hW | hW
    · exact iff_of_true (hv.levels_eq hw hsize (by omega)) (.inr (.inl hW))
    · obtain ⟨w₁, hw₁, hl₁⟩ := hk₁.shallow h0
      obtain ⟨w₂, hw₂, hl₂⟩ := hk₂.shallow (List.length_pos_iff.1 (by omega))
      rw [hl₁ (by omega), hl₂ (by omega), hw₁, hw₂, Option.some_inj,
        or_iff_right (by omega), or_iff_right (by omega)]
      cases w₁ <;> cases w₂ <;> decide

end

omit K in
/-- Over arrays of two, three values pushed to a `ps_vector`, and to one that
was a `bp_vector` and a `tr_vector` on the way. -/
theorem depth_agrees_iff_three :
    letI := oneBit
    ∃ s₁ s₂ : Handle ℕ, (Handle.code ℕ).run (.new .ps 1 Heap.empty)
        [.const (.push 1), .const (.push 2), .const (.push 3)] = some s₁ ∧
      (Handle.code ℕ).run (.new .bp 1 Heap.empty) [.inPlace (fun _ => 0) (.push 4), .makeTransient,
        .inPlace (fun _ => 0) (.push 5), .makePersistent, .const (.push 6)] = some s₂ ∧
      s₁.v.shift = s₂.v.shift ∧ ReachedInShift s₁.heap s₁.v ∧ ReachedInShift s₂.heap s₂.v := by
  let _ := oneBit
  have hP : Placed (Heap.empty : Heap ℕ) fun _ => ⟨0, 0⟩ :=
    placed_of_fits fun a ha => absurd ha (Nat.not_lt_zero a)
  have hd₁ : (Draft.code ℕ).run (.new .ps) [.const (.push 1), .const (.push 2), .const (.push 3)] =
      some ⟨.ps, [1, 2, 3], some .const⟩ := by decide +kernel
  have hd₂ : (Draft.code ℕ).run (.new .bp) [.inPlace (fun _ => 0) (.push 4), .makeTransient,
      .inPlace (fun _ => 0) (.push 5), .makePersistent, .const (.push 6)] =
      some ⟨.ps, [4, 5, 6], some .inPlace⟩ := by decide +kernel
  obtain ⟨s₁, s₂, hs₁, hs₂, hsz, -, hiff⟩ := depth_agrees_iff hP hP .ps .bp 1 1 hd₁ hd₂ rfl
  exact ⟨s₁, s₂, hs₁, hs₂, hiff.2 (.inr (.inl (by rw [hsz]; decide)))⟩

omit K in
/-- One value, and two depths. -/
theorem depth_differs :
    letI := oneBit
    ((Handle.code ℕ).run (.new .ps 1 Heap.empty) [.const (.push 1)]).map
        (fun s => (s.v.sz, s.v.shift)) = some (1, 1) ∧
      ((Handle.code ℕ).run (.new .tr 1 Heap.empty) [.inPlace (fun _ => 0) (.push 1)]).map
        (fun s => (s.v.sz, s.v.shift)) = some (1, 0) := by
  decide +kernel

end Contentious
