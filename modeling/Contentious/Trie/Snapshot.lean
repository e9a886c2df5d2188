import Contentious.Trie.Transients

/-!
# Trie — snapshots of a transient

`make_persistent` and `new_id` hand out the transient's trie under
another id, and the transient goes on under its own. A write copies the
nodes that do not carry the writer's id and changes the others in place,
so a snapshot lasts exactly if no node on a path to one of its elements
carries the id the other side writes under (`snapshots_last_iff`). A
copy's drawn id is new and meets this. The source keeps the id that its
own nodes carry, and does not.
-/

namespace Contentious

variable [K : BpBits] {T : Type}
variable {h h' : Heap T} {Ψ Ψ' : Addr → Place} {a b r : Addr} {i k m n : ℕ} {x y : T}
variable {cp : Id → Bool} {id : Id} {t v v' w : BpVector} {L M : List T}

open BpVector

/-! ## Walks past nodes that were not written -/

/-- Nodes with the same pointers are walked on from alike. -/
theorem walk_succ_congr {a' : Addr} (hu : (h.cell a').u = (h.cell a).u) :
    walk h i (k + 1) n a' = walk h i (k + 1) n a := by
  rw [walk, walk, child_congr hu]

/-- Owning a child gives a node with the child's array. -/
theorem ownChild_u {s : Fin bpWidth} (ha : a < h.next) (hc : child h a s = .ok b)
    (ho : ownChild cp id h a s = .ok (h', r)) : (h'.cell r).u = (h.cell b).u := by
  rw [ownChild, hc, Exec.ok_bind] at ho
  split at ho
  · obtain ⟨h₁, hs, ho⟩ := Exec.bind_eq_ok.1 ho
    cases ho
    rw [(setChild_cell hs).2.2 _ (Nat.ne_of_gt ha)]
    exact (congrArg BpNode.u (Store.alloc_cell_new h ⟨(h.cell b).u, id⟩) :)
  · cases ho; rfl

/-- Owning the root leaves the heap as it was, and gives a node with the
root's array. -/
theorem ownRoot_cells (cp : Id → Bool) (id : Id) (hr : r < h.next) :
    (∀ d < h.next, (ownRoot cp id h r).1.cell d = h.cell d) ∧
      ((ownRoot cp id h r).1.cell (ownRoot cp id h r).2).u = (h.cell r).u := by
  rw [ownRoot]
  split
  · exact ⟨fun d hd => Store.alloc_cell_old hd,
      by rw [copyNode_u hr]; exact congrArg _ (Store.alloc_cell_old hr)⟩
  · exact ⟨fun _ _ => rfl, rfl⟩

/-- **A descent goes through the nodes it need not copy.** Whatever it
copies above, a node of the path that the test lets through is still on
the path. -/
theorem descend_through (hP : Placed h Ψ) (ha : a < h.next) (hΨ : Ψ a = onPath i n)
    (hr : readAt h i n a = .ok y) {l : ℕ} (hln : l ≤ n) (hkl : k + 1 ≤ l)
    (hw : walk h i (k + 1) n a = .ok b) (hb : cp (h.cell b).id = false) {e : Addr}
    (hd : descend cp id i l n h a = .ok (h', e)) : walk h' i (k + 1) n a = .ok b := by
  induction l generalizing h Ψ a n k with
  | zero => omega
  | succ l ih =>
    obtain ⟨m, rfl⟩ := Nat.exists_eq_succ_of_ne_zero (by omega : n ≠ 0)
    obtain ⟨d, hc, hw⟩ := Exec.bind_eq_ok.1 hw
    rw [Nat.succ_sub_one] at hw
    obtain ⟨⟨h₁, d'⟩, ho, hd⟩ := Exec.bind_eq_ok.1 hd
    change descend cp id i l m h₁ d' = .ok (h', e) at hd
    obtain ⟨hpos, hdlt, hΨd⟩ := hP.child_place ha hΨ hc
    obtain ⟨_, d₁, Ψ₁, ho', e₁, hd₁, hΨ₁, hc₁, hcell₁⟩ := ownChild_spec cp id hP ha hc
    rw [ho] at ho'
    cases ho'
    obtain ⟨_, hb', hr₁⟩ := readAt_succ.1 (e₁.read a ha _ _ _ hr)
    rw [hc₁] at hb'
    cases hb'
    -- the rest of the descent leaves the pointer at `a`
    obtain ⟨_, _, Ψ₂, hd', -, -, -, -, hcell₂⟩ := descend_spec (j := i) (n := m) (k := l) cp id
      e₁.placed hd₁ (hΨ₁.trans hΨd) (by omega) hr₁ rfl
    rw [hd] at hd'
    cases hd'
    have hlev : m < (Ψ₁ a).level := by rw [e₁.place a ha, hΨ]; exact Nat.lt_succ_self m
    have hac := hcell₂ a (lt_of_lt_of_le ha e₁.next_le) hlev
    rw [walk, child_congr (congrArg BpNode.u hac), hc₁, Exec.ok_bind, Nat.succ_sub_one]
    cases k with
    | zero =>
      -- the node itself: it is not copied
      cases hw
      rw [ownChild, hc, Exec.ok_bind, if_neg (by simpa using hb)] at ho
      cases ho
      rfl
    | succ k =>
      -- a node below: the copy at `d'` has the pointers of `d`, and below
      -- `d` nothing was written yet
      have hcell : ∀ j c, walk h i j m d = .ok c → h₁.cell c = h.cell c := by
        intro j c hc'
        obtain ⟨hclt, hΨc⟩ := hP.walk_place hdlt hΨd hc'
        rw [hcell₁ c hclt]
        rintro rfl
        have := congrArg Place.level (hΨ.symm.trans hΨc)
        simp only [onPath] at this
        omega
      have hu : (h₁.cell d').u = (h₁.cell d).u := by
        rw [hcell 0 d rfl]
        exact ownChild_u ha hc ho
      have hw₁ : walk h₁ i (k + 1) m d' = .ok b :=
        (walk_succ_congr hu).trans (walk_of_path hw fun j _ c hc' => by rw [hcell j c hc'])
      exact ih e₁.placed hd₁ (hΨ₁.trans hΨd) hr₁ (by omega) (by omega) hw₁
        (by rw [hcell (k + 1) b hw]; exact hb) hd

/-- The same for an update: a node its test lets through is still on the
path from the new root. -/
theorem setWith_through (hP : Placed h Ψ) (hv : Holds h Ψ v L) (hi : i < L.length)
    (hk : k ≤ v.levels) (hw : walk h i k v.levels v.root = .ok b) (hb : cp (h.cell b).id = false)
    (he : setWith cp h v i x = .ok (h', v')) : walk h' i k v.levels v'.root = .ok b := by
  have hΨv : Ψ v.root = onPath i v.levels := by
    rw [onPath, Radix.pos_eq_zero (lt_of_lt_of_le hi hv.fits)]; exact hv.root_place
  obtain ⟨⟨h₂, a⟩, hd, he⟩ := Exec.bind_eq_ok.1 he
  obtain ⟨h₃, hl, he⟩ := Exec.bind_eq_ok.1 he
  cases he
  change descend cp v.id i v.levels v.levels (ownRoot cp v.id h v.root).1
    (ownRoot cp v.id h v.root).2 = .ok (h₂, a) at hd
  obtain ⟨c, hu, rfl⟩ := setLeaf_eq_ok hl
  rw [walk_setLeaf hu]
  change walk h₂ i k v.levels (ownRoot cp v.id h v.root).2 = .ok b
  cases k with
  | zero =>
    -- the root itself: it is not copied
    cases hw
    rw [walk, ownRoot, if_neg (by simpa using hb)]
  | succ k =>
    obtain ⟨h₁, r', Ψ₁, ho, e₁, hr', hΨ₁, hread₁⟩ := ownRoot_spec cp v.id hP hv.root_lt
    obtain ⟨hcell, hur⟩ := ownRoot_cells cp v.id hv.root_lt
    rw [ho] at hd hcell hur ⊢
    have hblt := (hP.walk_place hv.root_lt hΨv hw).1
    have hw₁ : walk h₁ i (k + 1) v.levels r' = .ok b := by
      rw [walk_succ_congr (a := v.root) (by rw [hur, hcell _ hv.root_lt])]
      refine walk_of_path hw fun m _ c hc => ?_
      rw [hcell c (hP.walk_place hv.root_lt hΨv hc).1]
    exact descend_through e₁.placed hr' (hΨ₁.trans hΨv) (hread₁ _ _ _ (hv.read i hi)) le_rfl hk hw₁
      (by rw [hcell b hblt]; exact hb) hd

/-- **A write is seen from the old root** if some node on its path was
let through: above the first such node the old path stands, and from
there on the old path is the new one. -/
theorem setWith_seen (hP : Placed h Ψ) (hv : Holds h Ψ v L) (hi : i < L.length)
    (hk : k ≤ v.levels) (hw : walk h i k v.levels v.root = .ok b) (hb : cp (h.cell b).id = false)
    (he : setWith cp h v i x = .ok (h', v')) : readAt h' i v.levels v.root = .ok x := by
  -- take the first such node
  induction k using Nat.strong_induction_on generalizing b with
  | _ k ih =>
    by_cases hfirst : ∃ m < k, ∃ c, walk h i m v.levels v.root = .ok c ∧ cp (h.cell c).id = false
    · obtain ⟨m, hm, c, hc, hcp⟩ := hfirst
      exact ih m hm (by omega) hc hcp
    · have hcopied : ∀ m < k, ∀ c, walk h i m v.levels v.root = .ok c →
        cp (h.cell c).id = true := by
        intro m hm c hc
        by_contra hcp
        exact hfirst ⟨m, hm, c, hc, by simpa using hcp⟩
      have hiW := lt_of_lt_of_le hi hv.fits
      obtain ⟨_, r', Ψ₂, he', -, -, hP₂, hr₂, hΨr₂, hx, -⟩ :=
        setWith_spec cp hP hv.root_lt hv.root_place hiW (hv.read i hi) rfl x
      rw [he] at he'
      cases he'
      have hedits := (hP.scope.setWith (N := fun _ => True) trivial hv.root_lt trivial he).1.edits
      -- the old path down to `b`
      have hold : walk h' i k v.levels v.root = .ok b := by
        refine walk_of_path hw fun m hm c hc => ?_
        obtain ⟨hclt, -⟩ := hP.walk_place hv.root_lt (hv.root_place.trans (by
          rw [onPath, Radix.pos_eq_zero hiW])) hc
        rw [hedits.cell_eq hclt hclt (hcopied m hm c hc)]
      -- the new path down to `b`
      have hnew : walk h' i k v.levels r' = .ok b := setWith_through hP hv hi hk hw hb he
      rw [readAt_of_walk hk hnew] at hx
      rw [readAt_of_walk hk hold]
      exact hx

/-! ## Later runs -/

/-- Two vectors over one trie. -/
structure SameTrie (v w : BpVector) : Prop where
  sz : v.sz = w.sz
  levels : v.levels = w.levels
  root : v.root = w.root

/-- What a vector denotes does not depend on its id. -/
theorem Holds.of_same (hv : Holds h Ψ v L) (hw : SameTrie w v) : Holds h Ψ w L := by
  obtain ⟨sz, levels, root, id⟩ := w
  obtain ⟨rfl, rfl, rfl⟩ := hw
  exact hv.withId id

/-- `a` is on the path to an element of the vector. -/
def ElementPath (h : Heap T) (v : BpVector) (a : Addr) : Prop :=
  ∃ i < v.sz, ∃ k ≤ v.levels, walk h i k v.levels v.root = .ok a

namespace Tr

variable [Inhabited T]

/-- The mutations of a transient, `mut_push_back` and `mut_set`; also
`unprotected_push_back` and `unprotected_set` of a `cont_vector`, which
are these on its data. -/
def mutations (T : Type) [Inhabited T] : Machine (Heap T × BpVector) (Edit T) where
  step := fun (h, v) e =>
    match e with
    | .push x => (mutPushBack h v x).toOption
    | .set i x => (mutSet h v i x).toOption

/-- The ways a transient is copied under an id of the copy's own. -/
inductive Copying
  | newId
  | copyConstruct
  | assign

/-- The data of the copy, and the id counter after. `cont_vector`'s copy
constructor and its `operator=` take `new_id()` of the data, and the
argument of `operator=` is a copy already. -/
def copied (how : Copying) (c : Id) (t : BpVector) : BpVector × Id :=
  match how with
  | .newId => newId c t
  | .copyConstruct => newId c t
  | .assign =>
    let (other, c) := newId c t
    newId c other

/-- `w` lasts: whatever mutations are made on `v`, whose list is `L`,
they go through and leave every element of `w` what it was. -/
def Lasts (h : Heap T) (w v : BpVector) (L : List T) : Prop :=
  ∀ ops L', (lists T).run L ops = some L' → ∃ h' v',
    (mutations T).run (h, v) ops = some (h', v') ∧ ∀ i < w.sz, w.at' h' i = w.at' h i

/-- **The snapshot `w` is out of the writer's way**: both denote their
lists, and no node on a path to an element of `w` carries the writer's
id. -/
structure Aside (w : BpVector) (L : List T) (id : Id) (M : List T) (s : Heap T × BpVector)
    (Ψ : Addr → Place) : Prop where
  placed : Placed s.1 Ψ
  writer : Holds s.1 Ψ s.2 M
  snapshot : Holds s.1 Ψ w L
  id_eq : s.2.id = id
  grown : L.length ≤ M.length
  unowned : ∀ a, ElementPath s.1 w a → (s.1.cell a).id ≠ id

omit [Inhabited T] in
/-- **Edits of the writer's nodes stay out of its way.** -/
theorem Aside.edited (hA : Aside w L id M (h, v) Ψ) {N : Id → Prop} {S : Addr → Prop}
    (e : Edits h.next (fun other => v.id != other) N S h h') (hΨ : ∀ d < h.next, Ψ' d = Ψ d)
    (hP' : Placed h' Ψ') {M' : List T} (hv' : Holds h' Ψ' v' M') (hid : v'.id = v.id)
    (hgrown : L.length ≤ M'.length) : Aside w L id M' (h', v') Ψ' := by
  have hn := e.next_le
  have hw := hA.snapshot
  -- the nodes on the paths are as they were
  have hcell : ∀ i (hi : i < L.length), ∀ k ≤ w.levels, ∀ a,
      walk h i k w.levels w.root = .ok a → h'.cell a = h.cell a := by
    intro i hi k hk a ha
    have hΨw : Ψ w.root = onPath i w.levels := by
      rw [onPath, Radix.pos_eq_zero (lt_of_lt_of_le hi hw.fits)]; exact hw.root_place
    have halt := (hA.placed.walk_place hw.root_lt hΨw ha).1
    refine e.cell_eq halt halt ?_
    have hne := hA.unowned a ⟨i, by rw [hw.size]; exact hi, k, hk, ha⟩
    rw [← hA.id_eq] at hne
    simpa using Ne.symm hne
  refine ⟨hP', hv', ⟨lt_of_lt_of_le hw.root_lt hn, by rw [hΨ _ hw.root_lt, hw.root_place], hw.size,
    hw.fits, hw.tight, fun i hi => ?_⟩, hid.trans hA.id_eq, hgrown, ?_⟩
  · exact readAt_of_path (hw.read i hi) fun k hk a ha => by rw [hcell i hi k hk a ha]
  · rintro a ⟨i, hi, k, hk, ha⟩
    have hiL : i < L.length := by rw [← hw.size]; exact hi
    -- the walk is the one there was
    obtain ⟨b, hb, -⟩ := exists_walk_of_readAt hk (hw.read i hiL)
    have hb' := walk_of_path hb fun m hm c hc => by rw [hcell i hiL m (by omega) c hc]
    have hab : a = b := Except.ok.inj (ha.symm.trans hb')
    rw [hab, hcell i hiL k hk b hb]
    exact hA.unowned b ⟨i, hi, k, hk, hb⟩

/-- **Each mutation of the writer** goes through and stays out of the
snapshot's way. -/
theorem mutations_aside (M : List T) (op : Edit T) (M' : List T) (s : Heap T × BpVector)
    (hA : ∃ Ψ, Aside w L id M s Ψ) (hM : (lists T).step M op = some M') :
    ∃ s', (mutations T).step s op = some s' ∧ ∃ Ψ, Aside w L id M' s' Ψ := by
  obtain ⟨h, v⟩ := s
  obtain ⟨Ψ, hA⟩ := hA
  have hv := hA.writer
  cases op with
  | set i x =>
    obtain ⟨hi, hM⟩ := Option.ite_none_right_eq_some.1 hM
    cases hM
    obtain ⟨h', r', Ψ', he, -, hΨ, hP', hv'⟩ :=
      hv.setWith (fun other => v.id != other) hA.placed hi x
    have e := (hA.placed.scope.setWith (N := fun _ => True) trivial hv.root_lt trivial he).1.edits
    refine ⟨(h', { v with root := r' }), ?_, Ψ', hA.edited e hΨ hP' hv' rfl ?_⟩
    · simp only [mutations, mutSet, he, Except.toOption]
    · rw [List.length_set]; exact hA.grown
  | push x =>
    obtain ⟨hmax, hM⟩ := Option.ite_none_right_eq_some.1 hM
    cases hM
    obtain ⟨h', v', Ψ', he, hid, hn, hΨ, hP', hv'⟩ :=
      hv.mutPushWith (fun other => v.id != other) (fun _ => v.id) hA.placed hmax x
    have hgrown : L.length ≤ (M ++ [x]).length := by
      rw [List.length_append]; exact le_trans hA.grown (Nat.le_add_right _ _)
    refine ⟨(h', v'), ?_, Ψ', ?_⟩
    · have he' : mutPushBack h v x = .ok (h', v') := he
      simp only [mutations, he', Except.toOption]
    · by_cases h0 : v.sz = 0
      · -- an empty writer, so the snapshot is empty too
        have hM0 : M.length = 0 := by have := hv.size; simp only at this; omega
        have hL0 : L = [] := List.eq_nil_of_length_eq_zero (by have := hA.grown; omega)
        subst hL0
        refine ⟨hP', hv', hA.snapshot.of_empty hn hΨ, hid.trans hA.id_eq, hgrown, ?_⟩
        rintro a ⟨i, hi, -⟩
        rw [hA.snapshot.size] at hi
        exact absurd hi (Nat.not_lt_zero i)
      · have e := (hA.placed.scope.mutPushWith (N := fun _ => True) trivial hv.root_lt trivial
          (fun _ => trivial) (fun h => absurd h h0) he).1.edits
        exact hA.edited e hΨ hP' hv' hid hgrown

/-- A snapshot none of whose paths the writer owns lasts. -/
theorem lasts_of_unowned (ht : Represents h t L) (hw : SameTrie w t) (hv : SameTrie v t)
    (hfree : ∀ a, ElementPath h t a → (h.cell a).id ≠ v.id) : Lasts h w v L := by
  intro ops L' hops
  obtain ⟨Ψ, hP, hh⟩ := ht
  have hpath : ∀ a, ElementPath h w a → ElementPath h t a := by
    rintro a ⟨i, hi, k, hk, ha⟩
    rw [hw.sz] at hi
    rw [hw.levels] at hk ha
    rw [hw.root] at ha
    exact ⟨i, hi, k, hk, ha⟩
  have hA : Aside w L v.id L (h, v) Ψ :=
    ⟨hP, hh.of_same hv, hh.of_same hw, rfl, le_rfl, fun a ha => hfree a (hpath a ha)⟩
  obtain ⟨⟨h', v'⟩, hrun, Ψ', hA'⟩ := Machine.run_simulates
    (R := fun M s => ∃ Ψ, Aside w L v.id M s Ψ)
      (fun M op M' s hs hM => mutations_aside M op M' s hs hM)
    ⟨Ψ, hA⟩ hops
  exact ⟨h', v', hrun, fun i _ => (hh.of_same hw).denotes.at_unique hA'.snapshot.denotes i⟩

/-- A snapshot with a path that the writer owns a node of does not: the
element there can be overwritten. -/
theorem unowned_of_lasts [Nontrivial T] (ht : Represents h t L)
    (hw : SameTrie w t) (hv : SameTrie v t) (hlasts : Lasts h w v L) (a : Addr)
    (ha : ElementPath h t a) : (h.cell a).id ≠ v.id := by
  rintro hown
  obtain ⟨Ψ, hP, hh⟩ := ht
  obtain ⟨i, hi, k, hk, hwalk⟩ := ha
  have hiL : i < L.length := by rw [← hh.size]; exact hi
  obtain ⟨x, hx⟩ := exists_ne L[i]
  have hstep : (lists T).step L (.set i x) = some (L.set i x) := if_pos hiL
  obtain ⟨h', v', hrun, hsame⟩ :=
    hlasts [.set i x] (L.set i x) (by rw [Machine.run_cons_of_step _ hstep]; rfl)
  obtain ⟨⟨h₁, v₁⟩, hmut, hrun⟩ := (mutations T).exists_step_of_run_cons hrun
  cases hrun
  have hset : setWith (fun other => v.id != other) h v i x = .ok (h', v') := by
    cases hs : setWith (fun other => v.id != other) h v i x with
    | error e => simp only [mutations, mutSet, hs, Except.toOption] at hmut; cases hmut
    | ok p => simp only [mutations, mutSet, hs, Except.toOption] at hmut; rw [Option.some.inj hmut]
  have hvh := hh.of_same hv
  rw [← hv.levels] at hk hwalk
  rw [← hv.root] at hwalk
  have hseen := setWith_seen hP hvh hiL hk hwalk (by simpa using hown.symm) hset
  have hiw : i < w.sz := by rw [hw.sz]; exact hi
  have hat := hsame i hiw
  rw [at', at', if_neg (by omega), if_neg (by omega), get_eq_readAt, get_eq_readAt, hw.levels,
    hw.root,
    ← hv.levels, ← hv.root, hseen, hvh.read i hiL] at hat
  exact hx (Except.ok.inj hat)

/-- **When snapshots last.** Take any transient `t`. A persistent snapshot
and a copy under an id of its own last through all later mutations of
`t`, and `t` through those of the copy, if and only if no node on a path
to an element of `t` carries `t`'s id, nor the copy's. -/
theorem snapshots_last_iff [Nontrivial T] (ht : Represents h t L) (how : Copying) (c : Id) :
    (Lasts h (Ps.ofTr t) t L ∧ Lasts h (copied how c t).1 t L ∧ Lasts h t (copied how c t).1 L) ↔
      ∀ a, ElementPath h t a → (h.cell a).id ≠ t.id ∧ (h.cell a).id ≠ (copied how c t).1.id := by
  have hps : SameTrie (Ps.ofTr t) t := ⟨rfl, rfl, rfl⟩
  have hself : SameTrie t t := ⟨rfl, rfl, rfl⟩
  have hcopy : SameTrie (copied how c t).1 t := by cases how <;> exact ⟨rfl, rfl, rfl⟩
  constructor
  · rintro ⟨hlps, -, hltr⟩ a ha
    exact ⟨unowned_of_lasts ht hps hself hlps a ha, unowned_of_lasts ht hself hcopy hltr a ha⟩
  · intro hfree
    exact ⟨lasts_of_unowned ht hps hself fun a ha => (hfree a ha).1,
      lasts_of_unowned ht hcopy hself fun a ha => (hfree a ha).1,
      lasts_of_unowned ht hself hcopy fun a ha => (hfree a ha).2⟩

/-- What mutations of a new transient make, of the list that they give. -/
theorem exists_mutated (id : Id) {ops : List (Edit T)} (hL : (lists T).run [] ops = some L) :
    ∃ h t, (mutations T).run (Tr.new id Heap.empty) ops = some (h, t) ∧ Represents h t L := by
  obtain ⟨⟨h, t⟩, hrun, ht⟩ := Machine.run_simulates
    (N := mutations T) (R := fun L (s : Heap T × BpVector) => Represents s.1 s.2 L)
    (fun L op L' s hs hL => by
      obtain ⟨s', hs', hL'⟩ := handle_follows .tr (fun _ => 0) L (.inPlace (by decide) op) L' s hs
        trivial hL
      exact ⟨s', by rw [← hs']; cases op <;> rfl, hL'⟩) (newVector_represents .tr id) hL
  exact ⟨h, t, hrun, ht⟩

omit K in
/-- Three values over arrays of two, and the transient under a new id, which
none of its nodes carries. -/
theorem snapshots_last_iff_oneBit :
    letI := oneBit
    ∃ h t, (mutations ℕ).run (Tr.new 1 Heap.empty) [.push 1, .push 2, .push 3] = some (h, t) ∧
      t.levels = 1 ∧ Lasts h (Ps.ofTr { t with id := 3 }) { t with id := 3 } [1, 2, 3] ∧
      Lasts h (copied .assign 4 { t with id := 3 }).1 { t with id := 3 } [1, 2, 3] ∧
      Lasts h { t with id := 3 } (copied .assign 4 { t with id := 3 }).1 [1, 2, 3] := by
  let _ := oneBit
  obtain ⟨h, t, hrun, ht⟩ := exists_mutated (T := ℕ) 1
    (show (lists ℕ).run [] [.push 1, .push 2, .push 3] = some [1, 2, 3] by decide +kernel)
  have hids : ((mutations ℕ).run (Tr.new 1 Heap.empty) [.push 1, .push 2, .push 3]).map
      (fun s => (s.2.levels, decide (∀ a < s.1.next, (s.1.cell a).id = 1))) = some (1, true) := by
    decide +kernel
  rw [hrun, Option.map_some, Option.some.injEq, Prod.mk.injEq, decide_eq_true_eq] at hids
  obtain ⟨hlevels, hids⟩ := hids
  refine ⟨h, t, hrun, hlevels, (snapshots_last_iff (ht.withId 3) .assign 4).2 ?_⟩
  rintro a ⟨i, -, k, -, hwalk⟩
  obtain ⟨Ψ, hP, hv⟩ := ht
  rw [hids a (hP.reach_lt hv.root_lt (Reach.root.walk hwalk))]
  exact ⟨show (1 : Id) ≠ 3 by decide, show (1 : Id) ≠ 4 + 1 by decide⟩

omit K in
/-- **The source overwrites its snapshot.** A transient pushes a value, a
persistent snapshot is taken, and the transient's next write to the value
is seen there. -/
theorem source_write_leaks :
    letI := oneBit
    ∃ h t h' t', (mutations ℕ).run (Tr.new 1 Heap.empty) [.push 1] = some (h, t) ∧
      Represents h t [1] ∧ (mutations ℕ).run (h, t) [.set 0 2] = some (h', t') ∧
      (Ps.ofTr t).at' h 0 = .ok 1 ∧ (Ps.ofTr t).at' h' 0 = .ok 2 ∧ ¬ Lasts h (Ps.ofTr t) t [1] := by
  let _ := oneBit
  obtain ⟨h, t, hrun, ht⟩ := exists_mutated (T := ℕ) 1
    (show (lists ℕ).run [] [.push 1] = some [1] by decide +kernel)
  have hval : (((mutations ℕ).run (Tr.new 1 Heap.empty) [.push 1]).bind fun s =>
      ((mutations ℕ).run s [.set 0 2]).map fun s' =>
        ((Ps.ofTr s.2).at' s.1 0, (Ps.ofTr s.2).at' s'.1 0)) = some (.ok 1, .ok 2) := by
    decide +kernel
  rw [hrun, Option.bind_some] at hval
  obtain ⟨⟨h', t'⟩, hset, hat⟩ := Option.map_eq_some_iff.1 hval
  have h1 : (Ps.ofTr t).at' h 0 = .ok 1 := congrArg Prod.fst hat
  have h2 : (Ps.ofTr t).at' h' 0 = .ok 2 := congrArg Prod.snd hat
  refine ⟨h, t, h', t', hrun, ht, hset, h1, h2, fun hl => ?_⟩
  obtain ⟨h'', t'', hset', hsame⟩ := hl [.set 0 2] [2] rfl
  rw [hset] at hset'
  cases hset'
  have hlt : 0 < (Ps.ofTr t).sz := by
    obtain ⟨Ψ, -, hv⟩ := ht
    change 0 < t.sz
    rw [hv.size]
    exact Nat.one_pos
  have := hsame 0 hlt
  rw [h1, h2] at this
  exact absurd this (by decide)

end Tr

end Contentious
