import Contentious.Trie.Paths

/-!
# Trie — the transients of one vector

Any number of transients are made from one `ps_vector`, each under the id
it draws, and `mut_set` and `mut_push_back` are taken on them in any
order. They start on one trie. What keeps them apart is that a node two
of them share is a node of the origin, and a node of the origin carries
none of their ids (`Isolated`): so the one that writes copies it first.

`mut_push_back` has one branch that does not look at ids. The first value
of an empty vector goes straight into the root leaf, and that leaf is the
origin's. So the results are about runs that never take that branch while
another vector has elements in the same leaf (`FirstPushAlone`); the end
of the file runs two transients that do.
-/

namespace Contentious

variable [K : BpBits] {T : Type}

/-- An operation on the transients there are, the `k`-th. -/
inductive TrOp (T : Type)
  | makeTransient
  | mutSet (k i : ℕ) (x : T)
  | mutPushBack (k : ℕ) (x : T)

/-- The heap, the id counter, and the transients made so far. -/
structure TrState (T : Type) [BpBits] where
  heap : Heap T
  counter : Id
  trs : List BpVector

namespace Tr

/-- The program over the transients of `q`. -/
def code [Inhabited T] (q : BpVector) : Machine (TrState T) (TrOp T) where
  step := fun s op =>
    match op with
    | .makeTransient =>
      let (id, counter) := getUniqueId s.counter
      some { s with counter := counter, trs := s.trs ++ [withId q id] }
    | .mutSet k i x => s.trs[k]?.bind fun t =>
        (mutSet s.heap t i x).toOption.map fun (h, t) => { s with heap := h, trs := s.trs.set k t }
    | .mutPushBack k x => s.trs[k]?.bind fun t =>
        (mutPushBack s.heap t x).toOption.map fun (h, t) =>
          { s with heap := h, trs := s.trs.set k t }

/-- The program over lists: each transient starts from the list of `q`. -/
def spec (L : List T) : Machine (List (List T)) (TrOp T) where
  step := fun Ls op =>
    match op with
    | .makeTransient => some (Ls ++ [L])
    | .mutSet k i x =>
      Ls[k]?.bind fun M => if i < M.length then some (Ls.set k (M.set i x)) else none
    | .mutPushBack k x => Ls[k]?.bind fun M =>
        if M.length + 1 ≤ maxSize then some (Ls.set k (M ++ [x])) else none

/-- The id that is drawn is carried by no node of `q`: the counter has not
come round to it. -/
def DrawsFresh (q : BpVector) (s : TrState T) : Prop :=
  ∀ a, Reach s.heap q.root a → (s.heap.cell a).id ≠ s.counter

/-- If the `k`-th transient is empty, no other one that has elements
reaches its root leaf. -/
def FirstPushAlone (k : ℕ) (s : TrState T) : Prop :=
  ∀ t, s.trs[k]? = some t → t.sz = 0 →
    ∀ (l : ℕ) u, l ≠ k → s.trs[l]? = some u → u.sz ≠ 0 → ¬ Reach s.heap u.root t.root

/-- What a step must meet for the transients to stay apart. -/
def Apart (q : BpVector) (s : TrState T) : TrOp T → Prop
  | .makeTransient => DrawsFresh q s
  | .mutSet _ _ _ => True
  | .mutPushBack k _ => FirstPushAlone k s

end Tr

/-- **The transients are isolated**: `q` and each transient denote their
lists, and what two transients share is nodes of `q`, which no transient
owns. -/
structure Isolated (q : BpVector) (L : List T) (Ψ : Addr → Place) (Ls : List (List T))
    (s : TrState T) : Prop where
  placed : Placed s.heap Ψ
  origin : Holds s.heap Ψ q L
  length_eq : s.trs.length = Ls.length
  holds : ∀ (l : ℕ) t M, s.trs[l]? = some t → Ls[l]? = some M → Holds s.heap Ψ t M
  grown : ∀ M ∈ Ls, L.length ≤ M.length
  foreign : ∀ t ∈ s.trs, ∀ a, Reach s.heap q.root a → (s.heap.cell a).id ≠ t.id
  shared : ∀ (l m : ℕ) t u, l ≠ m → s.trs[l]? = some t → s.trs[m]? = some u →
    ∀ a, Reach s.heap t.root a → Reach s.heap u.root a → Reach s.heap q.root a

variable {q t t' u v : BpVector} {L M M' : List T} {Ls Ls' : List (List T)} {s : TrState T}
variable {h h' : Heap T} {Ψ Ψ' : Addr → Place} {k : ℕ}

namespace Isolated

/-- The transient of a list. -/
theorem exists_transient (hI : Isolated q L Ψ Ls s) (hk : Ls[k]? = some M) :
    ∃ t, s.trs[k]? = some t ∧ Holds s.heap Ψ t M ∧ k < s.trs.length ∧ L.length ≤ M.length := by
  obtain ⟨hlt, -⟩ := List.getElem?_eq_some_iff.1 hk
  have hlt' : k < s.trs.length := by rw [hI.length_eq]; exact hlt
  have ht : s.trs[k]? = some s.trs[k] := List.getElem?_eq_getElem hlt'
  exact ⟨_, ht, hI.holds k _ M ht hk, hlt', hI.grown M (List.mem_of_getElem? hk)⟩

/-- **A new transient** shares all of `q` and owns nothing. -/
theorem make (hI : Isolated q L Ψ Ls s) (hfresh : Tr.DrawsFresh q s) (c : Id) :
    Isolated q L Ψ (Ls ++ [L])
      { s with counter := c, trs := s.trs ++ [Tr.withId q s.counter] } := by
  have hlast : ∀ {l : ℕ} {t}, (s.trs ++ [Tr.withId q s.counter])[l]? = some t →
      s.trs[l]? = some t ∨ l = s.trs.length ∧ t = Tr.withId q s.counter := by
    intro l t ht
    rcases Nat.lt_or_ge l s.trs.length with hl | hl
    · rw [List.getElem?_append_left hl] at ht; exact .inl ht
    · rw [List.getElem?_append_right hl] at ht
      obtain ⟨h1, h2⟩ := List.getElem?_eq_some_iff.1 ht
      rw [List.length_singleton] at h1
      exact .inr ⟨by omega, by rw [← h2, List.getElem_singleton]⟩
  have hq : Holds s.heap Ψ (Tr.withId q s.counter) L := hI.origin.withId _
  refine ⟨hI.placed, hI.origin, by simp [hI.length_eq], ?_, ?_, ?_, ?_⟩
  · intro l t M ht hM
    rcases hlast ht with ht | ⟨rfl, rfl⟩
    · obtain ⟨hl, -⟩ := List.getElem?_eq_some_iff.1 ht
      rw [List.getElem?_append_left (by rw [← hI.length_eq]; exact hl)] at hM
      exact hI.holds l t M ht hM
    · rw [hI.length_eq, List.getElem?_concat_length] at hM
      cases hM
      exact hq
  · intro M hM
    rcases List.mem_append.1 hM with hM | hM
    · exact hI.grown M hM
    · rw [List.mem_singleton.1 hM]
  · intro t ht a ha
    rcases List.mem_append.1 ht with ht | ht
    · exact hI.foreign t ht a ha
    · rw [List.mem_singleton.1 ht]; exact hfresh a ha
  · intro l m t u hlm ht hu a hta hua
    rcases hlast ht with ht | ⟨rfl, rfl⟩
    · rcases hlast hu with hu | ⟨rfl, rfl⟩
      · exact hI.shared l m t u hlm ht hu a hta hua
      · exact hua
    · exact hta

/-- **An update of the `k`-th transient**, as the others see it: what `q`
and the others reach is what they reached and denotes what it did, and
the updated one reaches what it reached and new nodes. -/
theorem update (hI : Isolated q L Ψ Ls s) (hk : s.trs[k]? = some t)
    (hP' : Placed h' Ψ') (hv' : Holds h' Ψ' t' M') (hid : t'.id = t.id)
    (hgrown : L.length ≤ M'.length) (hq' : Holds h' Ψ' q L)
    (hqreach : ∀ a, Reach h' q.root a ↔ Reach s.heap q.root a)
    (hqid : ∀ a, Reach s.heap q.root a → (h'.cell a).id = (s.heap.cell a).id)
    (hother : ∀ (l : ℕ) u, l ≠ k → s.trs[l]? = some u →
      (∀ N, Holds s.heap Ψ u N → Holds h' Ψ' u N) ∧
      ∀ a, Reach h' u.root a → Reach s.heap u.root a)
    (hown : ∀ a, Reach h' t'.root a → Reach s.heap t.root a ∨ s.heap.next ≤ a) :
    Isolated q L Ψ' (Ls.set k M') { s with heap := h', trs := s.trs.set k t' } := by
  obtain ⟨hlt, -⟩ := List.getElem?_eq_some_iff.1 hk
  -- a transient after the update is the new one or one of the others
  have hcases : ∀ {l : ℕ} {w}, (s.trs.set k t')[l]? = some w →
      l = k ∧ w = t' ∨ l ≠ k ∧ s.trs[l]? = some w := by
    intro l w hw
    by_cases hl : l = k
    · subst hl; rw [List.getElem?_set_self hlt] at hw; exact .inl ⟨rfl, (Option.some.inj hw).symm⟩
    · rw [List.getElem?_set_ne (Ne.symm hl)] at hw; exact .inr ⟨hl, hw⟩
  -- a node the new one shares with another was there before
  have hkshared : ∀ {l : ℕ} {u a}, l ≠ k → s.trs[l]? = some u → Reach h' t'.root a →
      Reach h' u.root a →
      Reach h' q.root a := by
    intro l u a hl hu ha hua
    have hua' := (hother l u hl hu).2 a hua
    have hM : ∃ N, Ls[l]? = some N := by
      obtain ⟨hlt', -⟩ := List.getElem?_eq_some_iff.1 hu
      exact ⟨_, List.getElem?_eq_getElem (by rw [← hI.length_eq]; exact hlt')⟩
    obtain ⟨N, hN⟩ := hM
    have halt := hI.placed.reach_lt (hI.holds l u N hu hN).root_lt hua'
    rcases hown a ha with hta | hnew
    · exact (hqreach a).2 (hI.shared k l t u (Ne.symm hl) hk hu a hta hua')
    · exact absurd halt (Nat.not_lt.2 hnew)
  refine ⟨hP', hq', by simp [hI.length_eq], ?_, ?_, ?_, ?_⟩
  · intro l w N hw hN
    rcases hcases hw with ⟨rfl, rfl⟩ | ⟨hl, hw⟩
    · rw [List.getElem?_set_self (by rw [← hI.length_eq]; exact hlt)] at hN
      cases hN
      exact hv'
    · rw [List.getElem?_set_ne (Ne.symm hl)] at hN
      exact (hother l w hl hw).1 N (hI.holds l w N hw hN)
  · intro N hN
    rcases List.mem_or_eq_of_mem_set hN with hN | rfl
    · exact hI.grown N hN
    · exact hgrown
  · intro w hw a ha
    have ha' := (hqreach a).1 ha
    rw [hqid a ha']
    rcases List.mem_or_eq_of_mem_set hw with hw | rfl
    · exact hI.foreign w hw a ha'
    · rw [hid]; exact hI.foreign t (List.mem_of_getElem? hk) a ha'
  · intro l m w u hlm hw hu a hwa hua
    rcases hcases hw with ⟨rfl, rfl⟩ | ⟨hl, hw'⟩
    · rcases hcases hu with ⟨rfl, rfl⟩ | ⟨hm, hu'⟩
      · exact absurd rfl hlm
      · exact hkshared hm hu' hwa hua
    · rcases hcases hu with ⟨rfl, rfl⟩ | ⟨hm, hu'⟩
      · exact hkshared hl hw' hua hwa
      · exact (hqreach a).2 (hI.shared l m w u hlm hw' hu' a ((hother l w hl hw').2 a hwa)
          ((hother m u hm hu').2 a hua))

/-- **Copying what it does not own keeps a transient apart.** Edits that
stay within what the `k`-th transient reaches, and write its own nodes
only, reach no node of `q` and no node of another. -/
theorem edited (hI : Isolated q L Ψ Ls s) (hk : s.trs[k]? = some t) {N : Id → Prop}
    (e : Edited s.heap.next (fun other => t.id != other) N
      (fun a => Reach s.heap t.root a ∨ s.heap.next ≤ a) s.heap h' t'.root)
    (hΨ : ∀ d < s.heap.next, Ψ' d = Ψ d) (hP' : Placed h' Ψ') (hv' : Holds h' Ψ' t' M')
    (hid : t'.id = t.id) (hgrown : L.length ≤ M'.length) :
    Isolated q L Ψ' (Ls.set k M') { s with heap := h', trs := s.trs.set k t' } := by
  have hn := e.edits.next_le
  -- a node of `q` carries another id
  have hqcell : ∀ a, Reach s.heap q.root a → h'.cell a = s.heap.cell a := fun a ha =>
    have halt := hI.placed.reach_lt hI.origin.root_lt ha
    e.edits.cell_eq halt halt (by
      simpa using Ne.symm (hI.foreign t (List.mem_of_getElem? hk) a ha))
  -- and a node of another is out of reach, or a node of `q`
  have hocell : ∀ (l : ℕ) u, l ≠ k → s.trs[l]? = some u → ∀ a, Reach s.heap u.root a →
    a < s.heap.next →
      h'.cell a = s.heap.cell a := by
    intro l u hl hu a ha halt
    by_cases hta : Reach s.heap t.root a
    · exact hqcell a (hI.shared k l t u (Ne.symm hl) hk hu a hta ha)
    · exact e.edits.cell_eq_of_not_mem halt fun hS => by
        rcases hS with hS | hS
        · exact hta hS
        · exact absurd halt (Nat.not_lt.2 hS)
  refine hI.update hk hP' hv' hid hgrown
    (hI.origin.of_reach hn hΨ fun d hd => by rw [hqcell d hd])
    (fun a => reach_congr fun d hd c => by rw [hqcell d hd])
    (fun a ha => by rw [hqcell a ha]) ?_ ?_
  · intro l u hl hu
    obtain ⟨hlt, -⟩ := List.getElem?_eq_some_iff.1 hu
    have hM := List.getElem?_eq_getElem (l := Ls) (i := l) (by rw [← hI.length_eq]; exact hlt)
    have hroot := (hI.holds l u _ hu hM).root_lt
    have hcell : ∀ a, Reach s.heap u.root a → (h'.cell a).u = (s.heap.cell a).u := fun a ha => by
      rw [hocell l u hl hu a ha (hI.placed.reach_lt hroot ha)]
    exact ⟨fun N hN => hN.of_reach hn hΨ hcell, fun a ha =>
      (reach_congr fun d hd c => by rw [hcell d hd]).1 ha⟩
  · intro a ha
    have hS := e.edits.closed hI.placed.reachScope.closed
    exact (hS.reach e.owned.mem e.owned.lt ha).1

/-- **The first value of an empty transient** goes into the root leaf,
whoever owns it. The others keep apart if those that reach it are empty. -/
theorem firstPush [Inhabited T] (hI : Isolated q L Ψ Ls s) (hk : s.trs[k]? = some t)
    (hkM : Ls[k]? = some M) (ht0 : t.sz = 0) (halone : Tr.FirstPushAlone k s)
    (hmax : M.length + 1 ≤ maxSize) (x : T) :
    ∃ h' t' Ψ', Tr.mutPushBack s.heap t x = .ok (h', t') ∧
      Isolated q L Ψ' (Ls.set k (M ++ [x])) { s with heap := h', trs := s.trs.set k t' } := by
  have ht := hI.holds k t M hk hkM
  obtain ⟨h', t', Ψ', he, hid, hn, hΨ, hP', hv'⟩ :=
    ht.mutPushWith (fun other => t.id != other) (fun _ => t.id) hI.placed hmax x
  refine ⟨h', t', Ψ', he, ?_⟩
  -- the push is one write to the root leaf
  obtain ⟨c, hu, hh', hroot⟩ : ∃ c, (s.heap.cell t.root).u = .leaves c ∧
      h' = s.heap.write t.root
      ⟨.leaves (Function.update c ⟨t.sz, by rw [ht0]; exact bpWidth_pos⟩ x),
        (s.heap.cell t.root).id⟩ ∧ t'.root = t.root := by
    rw [BpVector.mutPushWith, and_bpMask, ht0, Nat.zero_mod, if_neg (by simp),
      dif_pos bpWidth_pos] at he
    obtain ⟨h₁, hs, he⟩ := Exec.bind_eq_ok.1 he
    cases he
    obtain ⟨c, hu, rfl⟩ := setLeaf_eq_ok hs
    exact ⟨c, hu, by simp only [ht0], rfl⟩
  have hreach : ∀ r a, Reach h' r a ↔ Reach s.heap r a := fun r a => by
    rw [hh']; exact reach_setLeaf hu _ _ _
  have hcell : ∀ a, a ≠ t.root → h'.cell a = s.heap.cell a := fun a ha => by
    rw [hh']; exact Store.write_cell_ne ha
  have hM0 : M = [] := List.eq_nil_of_length_eq_zero (by rw [← ht.size, ht0])
  have hL0 : L = [] := by
    have := hI.grown M (List.mem_of_getElem? hkM)
    exact List.eq_nil_of_length_eq_zero (by simpa [hM0] using this)
  refine hI.update hk hP' hv' hid (by simp [hL0]) ?_ (fun a => hreach _ a) ?_ ?_ ?_
  · rw [hL0]
    exact Holds.of_empty (by rw [← hL0]; exact hI.origin) hn hΨ
  · intro a _
    by_cases ha : a = t.root
    · rw [ha, hh', Store.write_cell_self]
    · rw [hcell a ha]
  · intro l u hl hul
    refine ⟨fun N hN => ?_, fun a ha => (hreach _ a).1 ha⟩
    by_cases hu0 : u.sz = 0
    · have hN0 : N = [] := List.eq_nil_of_length_eq_zero (by rw [← hN.size, hu0])
      subst hN0
      exact hN.of_empty hn hΨ
    · refine hN.of_reach hn hΨ fun d hd => ?_
      rw [hcell d]
      rintro rfl
      exact halone t hk ht0 l u hl hul hu0 hd
  · intro a ha
    rw [hroot] at ha
    exact .inl ((hreach _ a).1 ha)

end Isolated

namespace Tr

variable [Inhabited T]

/-- **The code follows the specification** where the transients are kept
apart. -/
theorem code_follows (Ls : List (List T)) (op : TrOp T) (Ls' : List (List T)) (s : TrState T)
    (hI : ∃ Ψ, Isolated q L Ψ Ls s) (hC : Apart q s op) (hs : (spec L).step Ls op = some Ls') :
    ∃ s', (code q).step s op = some s' ∧ ∃ Ψ, Isolated q L Ψ Ls' s' := by
  obtain ⟨Ψ, hI⟩ := hI
  cases op with
  | makeTransient => cases hs; exact ⟨_, rfl, Ψ, hI.make hC _⟩
  | mutSet k i x =>
    obtain ⟨M, hkM, hs⟩ := Option.bind_eq_some_iff.1 hs
    obtain ⟨hi, hs⟩ := Option.ite_none_right_eq_some.1 hs
    cases hs
    obtain ⟨t, hk, ht, -, hlen⟩ := hI.exists_transient hkM
    obtain ⟨h', r', Ψ', he, -, hΨ, hP', hv'⟩ :=
      ht.setWith (fun other => t.id != other) hI.placed hi x
    have e := hI.placed.reachScope.setWith (N := fun _ => True) (.inl .root) ht.root_lt trivial he
    refine ⟨⟨h', s.counter, s.trs.set k { t with root := r' }⟩, ?_, Ψ', ?_⟩
    · simp only [code, hk, Option.bind_some, mutSet, he, Except.toOption, Option.map_some]
    · exact hI.edited hk e.1 hΨ hP' hv' e.2 (by rw [List.length_set]; exact hlen)
  | mutPushBack k x =>
    obtain ⟨M, hkM, hs⟩ := Option.bind_eq_some_iff.1 hs
    obtain ⟨hmax, hs⟩ := Option.ite_none_right_eq_some.1 hs
    cases hs
    obtain ⟨t, hk, ht, -, hlen⟩ := hI.exists_transient hkM
    have hstep : ∀ h' t', mutPushBack s.heap t x = .ok (h', t') →
        (code q).step s (.mutPushBack k x) = some ⟨h', s.counter, s.trs.set k t'⟩ :=
        fun h' t' he => by
      simp only [code, hk, Option.bind_some, he, Except.toOption, Option.map_some]
    by_cases ht0 : t.sz = 0
    · obtain ⟨h', t', Ψ', he, hI'⟩ := hI.firstPush hk hkM ht0 hC hmax x
      exact ⟨_, hstep h' t' he, Ψ', hI'⟩
    · obtain ⟨h', t', Ψ', he, -, -, hΨ, hP', hv'⟩ :=
        ht.mutPushWith (fun other => t.id != other) (fun _ => t.id) hI.placed hmax x
      have e := hI.placed.reachScope.mutPushWith (N := fun _ => True)
        (.inl .root) ht.root_lt trivial
        (fun _ => trivial) (fun h0 => absurd h0 ht0) he
      refine ⟨_, hstep h' t' he, Ψ', hI.edited hk e.1 hΨ hP' hv' e.2 ?_⟩
      rw [List.length_append]; exact le_trans hlen (Nat.le_add_right _ _)

/-- **Isolation.** In every run whose steps keep the transients apart —
each id drawn is new to `q`, and no first push lands in a leaf that
another transient has elements in — the contents of `q` stay what they
were and each transient denotes the list its own operations give. -/
theorem transients_isolated (hq : Represents h q L) (counter : Id) (ops : List (TrOp T))
    (hC : (code q).Along (Apart q) ⟨h, counter, []⟩ ops) (hspec : (spec L).run [] ops = some Ls) :
    ∃ s, (code q).run ⟨h, counter, []⟩ ops = some s ∧ Denotes s.heap q L ∧
      List.Forall₂ (Denotes s.heap) s.trs Ls := by
  obtain ⟨Ψ, hP, hv⟩ := hq
  have hinit : Isolated q L Ψ ([] : List (List T)) ⟨h, counter, []⟩ :=
    ⟨hP, hv, rfl, fun l t M ht => (nomatch ht), fun M hM => (nomatch hM), fun t ht => (nomatch ht),
      fun l m t u _ ht => (nomatch ht)⟩
  obtain ⟨s, hs, Ψ', hI⟩ := Machine.run_simulates_along (R := fun Ls s => ∃ Ψ, Isolated q L Ψ Ls s)
    id (fun Ls op Ls' s hI hC hs => code_follows Ls op Ls' s hI hC hs) ⟨Ψ, hinit⟩ hC
    (by rwa [List.map_id])
  refine ⟨s, hs, hI.origin.denotes, List.forall₂_iff_get.2 ⟨hI.length_eq, fun l hl hlL => ?_⟩⟩
  exact (hI.holds l _ _ (List.getElem?_eq_getElem hl) (List.getElem?_eq_getElem hlL)).denotes

omit K [Inhabited T] in
/-- Every node of an empty vector's heap carries the id zero. -/
theorem new_id_eq [BpBits] [Inhabited T] (a : Addr) :
    ((Ps.new (Heap.empty : Heap T)).1.cell a).id = 0 := by
  change (((Heap.empty : Heap T).alloc (BpNode.newLeaves 0)).1.cell a).id = 0
  rw [Store.alloc_cell]
  split <;> rfl

omit K in
/-- Two transients of an empty vector, the first of which fills a leaf. -/
theorem transients_isolated_oneBit :
    letI := oneBit
    ∃ s, (code (Ps.new (Heap.empty : Heap ℕ)).2).run ⟨(Ps.new Heap.empty).1, 1, []⟩
        [.makeTransient, .makeTransient, .mutPushBack 0 1, .mutPushBack 0 2] = some s ∧
      Denotes s.heap (Ps.new (Heap.empty : Heap ℕ)).2 [] ∧
      List.Forall₂ (Denotes s.heap) s.trs [[1, 2], []] := by
  let _ := oneBit
  have hq : Represents (Ps.new (Heap.empty : Heap ℕ)).1 (Ps.new (Heap.empty : Heap ℕ)).2 [] :=
    newVector_represents .ps 0
  refine transients_isolated hq 1 _ ?_ (by decide +kernel)
  refine ⟨fun a _ => by rw [new_id_eq]; decide, fun s₁ hs₁ => ?_⟩
  cases hs₁
  refine ⟨fun a _ => by rw [new_id_eq]; decide, fun s₂ hs₂ => ?_⟩
  cases hs₂
  refine ⟨?_, fun s₃ hs₃ => ?_⟩
  · -- the other transient is empty
    intro t _ _ l u hl hu hu0
    match l, hl, hu with
    | 1, _, hu => cases hu; exact absurd rfl hu0
  · -- it has an element by now
    refine ⟨fun t ht ht0 => ?_, fun _ _ => trivial⟩
    have hsz : s₃.trs.map (·.sz) = [1, 0] := by
      have h : ((code (Ps.new (Heap.empty : Heap ℕ)).2).run ⟨(Ps.new Heap.empty).1, 1, []⟩
          [.makeTransient, .makeTransient, .mutPushBack 0 1]).map
            (fun s => s.trs.map (·.sz)) = some [1, 0] := by decide +kernel
      rw [Machine.run_cons_of_step _ rfl, Machine.run_cons_of_step _ rfl,
        Machine.run_cons_of_step _ hs₃] at h
      exact Option.some.inj h
    have h1 := congrArg (fun l => l[0]?) hsz
    simp only [List.getElem?_map, ht, Option.map_some, ht0] at h1
    exact absurd h1 (by decide)

omit K in
/-- **The first push is not isolated.** Two transients of an empty vector
push one value each, and the second value lands in the leaf the first
one reads. -/
theorem first_push_leaks :
    letI := oneBit
    (spec ([] : List ℕ)).run []
        [.makeTransient, .makeTransient, .mutPushBack 0 1, .mutPushBack 1 2] =
        some [[1], [2]] ∧
      ∃ s, (code (Ps.new (Heap.empty : Heap ℕ)).2).run ⟨(Ps.new Heap.empty).1, 1, []⟩
          [.makeTransient, .makeTransient, .mutPushBack 0 1, .mutPushBack 1 2] = some s ∧
        s.trs.map (fun t => t.at' s.heap 0) = [.ok 2, .ok 2] ∧
        ¬ List.Forall₂ (Denotes s.heap) s.trs [[1], [2]] := by
  let _ := oneBit
  refine ⟨by decide +kernel, ?_⟩
  have hrun : ((code (Ps.new (Heap.empty : Heap ℕ)).2).run ⟨(Ps.new Heap.empty).1, 1, []⟩
      [.makeTransient, .makeTransient, .mutPushBack 0 1, .mutPushBack 1 2]).map
        (fun s => s.trs.map (fun t => t.at' s.heap 0)) = some [.ok 2, .ok 2] := by decide +kernel
  obtain ⟨s, hs, hat⟩ := Option.map_eq_some_iff.1 hrun
  refine ⟨s, hs, hat, fun hd => ?_⟩
  match htrs : s.trs, hd with
  | t :: _, .cons ht _ =>
    rw [htrs, List.map_cons] at hat
    have h2 : t.at' s.heap 0 = .ok 2 := (List.cons.inj hat).1
    rw [ht.at_lt 0 (by decide)] at h2
    exact absurd h2 (by decide)

end Tr

end Contentious
