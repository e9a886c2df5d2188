import Contentious.Trie.Alter
import Contentious.Trie.Copy
import Contentious.Trie.Span

/-!
# Trie — copying between vectors that share nodes

A `ps_vector` writes in place what carries the id zero, and so may the
vector it copies from. Then the one that is read changes shape under its
own iterators: the leaf that one points into may have been replaced on the
path by a copy. What it holds is the same, since nothing is written but
the values of the vector that is read (`BpIterator.Lags`). Over this the
loops of `assign` are followed once more, to the values that others may
come to read and to the nodes that are written.
-/

namespace Contentious

open BpVector

variable [K : BpBits] {T : Type}
variable {h h' h'' : Heap T} {Ψ Ψ' Ψ'' : Addr → Place} {a b c i k n p q rounds : ℕ} {d e : Addr}
variable {v v' v'' o w : BpVector} {L M N : List T} {W W' : ℕ → T → Prop} {x : T}
variable {it it' : BpIterator}

/-! ## A reader behind the vector it reads -/

/-- **The iterator stands at position `p` but for its leaf**, which may be
one that was on the path before. It stands where the leaf on the path
does, and holds the same values. -/
structure BpIterator.Lags (h : Heap T) (Ψ : Addr → Place) (o : BpVector) (M : List T) (p : ℕ)
    (it : BpIterator) : Prop where
  at_leaf : ∃ leaf, BpIterator.At copyNone h o p { it with leaf := leaf }
  lt : it.leaf < h.next
  place : Ψ it.leaf = onPath (lastOf o p) 0
  holds : ∀ i (hi : i < M.length), Radix.pos bpWidth i 0 = Radix.pos bpWidth (lastOf o p) 0 →
    readAt h i 0 it.leaf = .ok M[i]

namespace BpIterator

/-- One that stands at the position does. -/
theorem At.lags (hit : it.At copyNone h o p) (hP : Placed h Ψ) (ho : Holds h Ψ o M) :
    it.Lags h Ψ o M p := by
  obtain ⟨hlt, hplace⟩ := hit.leaf_place hP ho
  refine ⟨⟨it.leaf, hit⟩, hlt, hplace, fun i hi hpos => ?_⟩
  have hwalk := (hit.path.congr (j := i) le_rfl (by rw [Nat.sub_self]; exact hpos.symm)).walk
  have hread := ho.read i hi
  rwa [readAt_of_walk le_rfl hwalk, Nat.sub_self] at hread

/-- `++` of the const iterator, for two iterators that differ in the leaf:
both stay in theirs, or both come to one. -/
theorem cnext_leaf {leaf : Addr} {jt : BpIterator} (he : it.cnext h = .ok it')
    (he' : BpIterator.cnext h { it with leaf := leaf } = .ok jt) :
    it'.leaf = it.leaf ∧ jt = { it' with leaf := leaf } ∨
      it' = jt ∧ it.cur + 1 = bpWidth ∧ sizeT (it.i + bpWidth) ≠ it.sz := by
  obtain ⟨⟨h₁, it₁⟩, hn, he⟩ := Exec.bind_eq_ok.1 he
  obtain ⟨⟨h₂, jt₁⟩, hn', he'⟩ := Exec.bind_eq_ok.1 he'
  cases he
  cases he'
  rw [nextWith] at hn hn'
  dsimp only at hn hn'
  split at hn
  · cases hn
  · next hle =>
    rw [if_neg hle] at hn'
    split at hn
    · next hne =>
      rw [if_pos hne] at hn'
      cases hn
      cases hn'
      exact .inl ⟨rfl, rfl⟩
    · next hcur =>
      rw [if_neg hcur] at hn'
      split at hn
      · next hend =>
        rw [if_pos hend] at hn'
        cases hn
        cases hn'
        exact .inl ⟨rfl, rfl⟩
      · next hend =>
        rw [if_neg hend] at hn'
        obtain ⟨⟨h₃, node⟩, hd, hn⟩ := Exec.bind_eq_ok.1 hn
        obtain ⟨_, hl, hn⟩ := Exec.bind_eq_ok.1 hn
        cases hn
        rw [seekWith, hd, Exec.ok_bind] at hn'
        dsimp only at hn'
        rw [hl, Exec.ok_bind] at hn'
        cases hn'
        exact .inr ⟨rfl, not_not.1 hcur, hend⟩

namespace Lags

/-- **It still lags** when values of the vector were written, whatever
else moved. -/
theorem altered (hl : it.Lags h Ψ o M p) (e : Alters W h Ψ h' Ψ') (ho : Holds h' Ψ' o M)
    (hsz : 0 < o.sz) (hW : ∀ i (hi : i < M.length) z, W i z → z = M[i]) :
    it.Lags h' Ψ' o M p := by
  obtain ⟨⟨leaf, hat⟩, hlt, hplace, hholds⟩ := hl
  have hlast : lastOf o p < M.length := by
    have := ho.size
    simp only [lastOf]
    omega
  obtain ⟨b, hb, -⟩ := exists_walk_of_readAt le_rfl (ho.read _ hlast)
  refine ⟨⟨b, hat.root_eq, hat.levels_eq, hat.sz_eq, hat.id_eq, hat.pos_le, rfl, settled_of_walk hb,
    hat.cur_eq, hat.base_eq⟩, lt_of_lt_of_le hlt e.next_le, by rw [e.place _ hlt, hplace],
    fun i hi hpos => ?_⟩
  have hΨ : Ψ it.leaf = onPath i 0 := by rw [hplace, onPath, onPath, hpos]
  obtain ⟨z, hz, hzM⟩ := e.read _ hlt i 0 hΨ _ (hholds i hi hpos)
  rw [hz, hzM.elim (fun h => h) (hW i hi z)]

/-- **What it reads** is the vector's value. -/
theorem deref (hl : it.Lags h Ψ o M p) (ho : Holds h Ψ o M) (hp : p < M.length) :
    it.deref h = .ok M[p] := by
  obtain ⟨leaf, hat⟩ := hl.at_leaf
  have hp' : p < o.sz := by rw [ho.size]; exact hp
  have hlast : lastOf o p = p := min_eq_left (by omega)
  have hcur : it.cur = p % bpWidth := hat.cur_of_lt hp'
  rw [BpIterator.deref_eq hcur, ← hl.holds p hp (by rw [hlast]), readAt]

/-- The offset and the leaf's place make up the position. -/
theorem pos_eq (hl : it.Lags h Ψ o M p) : (Ψ it.leaf).pos * bpWidth + it.cur = p := by
  obtain ⟨leaf, hat⟩ := hl.at_leaf
  rw [hl.place]
  exact hat.pos_eq

/-- **`++`** goes one on: in the leaf it is in, or to the one that is on
the path by now. -/
theorem cnext (hl : it.Lags h Ψ o M p) (hP : Placed h Ψ) (ho : Holds h Ψ o M) (hp : p < o.sz)
    (hsz : o.sz ≤ 2 ^ 63) (he : it.cnext h = .ok it') :
    it'.Lags h Ψ o M (p + 1) ∧
      (it'.leaf = it.leaf ∧
          Radix.pos bpWidth (lastOf o (p + 1)) 0 = Radix.pos bpWidth (lastOf o p) 0 ∨
        it'.At copyNone h o (p + 1) ∧ lastOf o (p + 1) = p + 1 ∧ bpWidth ∣ p + 1) := by
  obtain ⟨leaf, hat⟩ := hl.at_leaf
  obtain ⟨jt, he', hjt⟩ := hat.cnext hP ho hp hsz
  rcases cnext_leaf he he' with ⟨hleaf, rfl⟩ | ⟨rfl, hcur, hend⟩
  · -- within the leaf
    have hplace : onPath (lastOf o (p + 1)) 0 = onPath (lastOf o p) 0 :=
      (hjt.leaf_place hP ho).2.symm.trans (hat.leaf_place hP ho).2
    refine ⟨⟨⟨leaf, hjt⟩, by rw [hleaf]; exact hl.lt, by rw [hleaf, hl.place, hplace],
      fun i hi hpos => ?_⟩, .inl ⟨hleaf, congrArg Place.pos hplace⟩⟩
    rw [hleaf]
    exact hl.holds i hi (hpos.trans (congrArg Place.pos hplace))
  · refine ⟨hjt.lags hP ho, .inr ⟨hjt, ?_, ?_⟩⟩
    · have hbase : it.i + it.cur = p := hat.base_eq hp
      have hsz' : it.sz = o.sz := hat.sz_eq
      have hi : sizeT (it.i + bpWidth) = p + 1 := by
        rw [sizeT, Nat.mod_eq_of_lt (by omega)]
        omega
      simp only [lastOf]
      omega
    · have hmod : it.cur = p % bpWidth := hat.cur_of_lt hp
      have hdiv := Nat.div_add_mod p bpWidth
      exact ⟨p / bpWidth + 1, by rw [Nat.mul_add, Nat.mul_one]; omega⟩

end Lags

end BpIterator

/-! ## A path that is not moved -/

/-- **The path to `q` is not moved**: where the two have a node with the id
of `v` in common on it, they do not go on to one with another. -/
def Steady (h : Heap T) (v o : BpVector) (q : ℕ) : Prop :=
  ∀ k < v.levels, ∀ d e, walk h q k v.levels v.root = .ok d → walk h q k o.levels o.root = .ok d →
    (h.cell d).id = v.id → walk h q (k + 1) o.levels o.root = .ok e → (h.cell e).id = v.id

instance (h : Heap T) (v o : BpVector) (q : ℕ) : Decidable (Steady h v o q) :=
  decidable_of_iff (∀ k < v.levels, ∀ d, walk h q k v.levels v.root = .ok d →
      walk h q k o.levels o.root = .ok d → (h.cell d).id = v.id →
      ∀ e, walk h q (k + 1) o.levels o.root = .ok e → (h.cell e).id = v.id)
    ⟨fun hs k hk d e hv ho hid => hs k hk d hv ho hid e,
      fun hs k hk d hv ho hid e => hs k hk d e hv ho hid⟩

theorem walk_step {r : Addr} (hd : walk h i k n r = .ok d) :
    walk h i (k + 1) n r = .ok e ↔ child h d (slot i ((n - k) * bpBits)) = .ok e := by
  rw [walk_append, hd, Exec.ok_bind, walk]
  constructor
  · intro h
    obtain ⟨b, hb, h⟩ := Exec.bind_eq_ok.1 h
    cases h
    exact hb
  · intro h
    rw [h]
    rfl

/-- A walk whose pointers are where they were. -/
theorem walk_of_edges {r b : Addr} (hw : walk h i k n r = .ok b)
    (hedge : ∀ m < k, ∀ d e, walk h i m n r = .ok d →
      child h d (slot i ((n - m) * bpBits)) = .ok e →
      child h' d (slot i ((n - m) * bpBits)) = .ok e) : walk h' i k n r = .ok b := by
  induction k generalizing b with
  | zero => exact hw
  | succ k ih =>
    have hw' := hw
    rw [walk_append] at hw'
    obtain ⟨d, hd, -⟩ := Exec.bind_eq_ok.1 hw'
    have hd' := ih hd fun m hm => hedge m (Nat.lt_succ_of_lt hm)
    exact (walk_step hd').2 (hedge k (Nat.lt_succ_self k) d b hd ((walk_step hd).1 hw))

/-- **What is written leaves such a path** of the vector that is read. -/
theorem Steady.walk {Q : Id → Prop} {b : Addr} (hst : Steady h v o q) (hP : Placed h Ψ)
    (hv : Holds h Ψ v L) (ho : Holds h Ψ o M) (hlev : o.levels = v.levels) (hq : q < v.sz)
    (hqo : q < o.sz)
    (e : Edits h.next (nodeCopy .tr v.id) Q (fun a => Reach h v.root a ∨ h.next ≤ a) h h')
    (hk : Keeps (nodeCopy .tr v.id) h h') (hw : walk h q o.levels o.levels o.root = .ok b) :
    walk h' q o.levels o.levels o.root = .ok b := by
  refine walk_of_edges hw fun m hm d e' hd hchild => ?_
  obtain ⟨hdlt, hΨd⟩ := hP.walk_place ho.root_lt (ho.root_onPath (ho.lt_capacity (.inl hqo))) hd
  have hcell : ∀ {d'}, h'.cell d' = h.cell d' →
      child h d' (slot q ((o.levels - m) * bpBits)) = .ok e' →
      child h' d' (slot q ((o.levels - m) * bpBits)) = .ok e' := fun heq hc => by
    rw [child_congr (congrArg BpNode.u heq)]
    exact hc
  by_cases hid : (h.cell d).id = v.id
  · by_cases hreach : Reach h v.root d
    · -- a node of both: the next one is owned, and stays
      have hwalk := (hP.walk_of_reach hv.root_lt hreach
        (hv.root_onPath (hv.lt_capacity (.inl hq))) hΨd).2
      rw [show v.levels - (o.levels - m) = m by omega] at hwalk
      have hown := hst m (by omega) d e' hwalk hd hid ((walk_step hd).2 hchild)
      obtain ⟨f, hu, hf⟩ := child_eq_ok.1 hchild
      refine hk.edge d hdlt e' (hP.child d hdlt f hu _ e' hf).1 _ hchild ?_
      simp [nodeCopy, hown]
    · exact hcell (e.cell_eq_of_not_mem hdlt fun hS =>
        hreach (hS.resolve_right (Nat.not_le.2 hdlt))) hchild
  · exact hcell (e.cell_eq hdlt hdlt (by simpa [nodeCopy] using Ne.symm hid)) hchild

/-! ## What is written, value by value -/

/-- **What has been done to `v`** by writing the values `W`: it is over a
root of its own, and its paths are kept. -/
structure Stored (W : ℕ → T → Prop) (h : Heap T) (Ψ : Addr → Place) (h' : Heap T)
    (Ψ' : Addr → Place) (v v' : BpVector) : Prop where
  alters : Alters W h Ψ h' Ψ'
  keeps : Keeps (nodeCopy .tr v.id) h h'
  eq_root : v' = { v with root := v'.root }
  holds : ∃ N, Holds h' Ψ' v' N

namespace Stored

theorem mono (hW : ∀ i y, W i y → W' i y) (w : Stored W h Ψ h' Ψ' v v') :
    Stored W' h Ψ h' Ψ' v v' := ⟨w.alters.mono hW, w.keeps, w.eq_root, w.holds⟩

theorem id_eq (w : Stored W h Ψ h' Ψ' v v') : v'.id = v.id := by rw [w.eq_root]

theorem trans (w₁ : Stored W h Ψ h' Ψ' v v') (w₂ : Stored W h' Ψ' h'' Ψ'' v' v'') :
    Stored W h Ψ h'' Ψ'' v v'' where
  alters := w₁.alters.trans w₂.alters
  keeps := w₁.keeps.trans (by rw [← w₁.id_eq]; exact w₂.keeps)
  eq_root := by rw [w₂.eq_root, w₁.eq_root]
  holds := w₂.holds

end Stored

/-- The values of `[a, c)` are those of `M`. -/
def Copied (a c : ℕ) (M : List T) (i : ℕ) (y : T) : Prop := a ≤ i ∧ i < c ∧ M[i]? = some y

omit K in
theorem Copied.eq {y : T} (hc : Copied a c M i y) (hi : i < M.length) : y = M[i] := by
  have := hc.2.2
  rw [List.getElem?_eq_getElem hi] at this
  exact (Option.some.inj this).symm

/-- **A loop over values on its way** from the heap `h`, at position `p`:
the iterator that writes stands there, and the one that reads does but for
its leaf. -/
structure Passing (h : Heap T) (Ψ : Addr → Place) (v : BpVector) (r' : Addr) (o : BpVector)
    (M : List T) (a c p : ℕ) (s : Copying T) : Prop where
  le_pos : a ≤ p
  pos_le : p ≤ c
  copies : CopyKeeps h.next v.id (fun _ => True) (fun d => Reach h v.root d ∨ h.next ≤ d) h s
  stored : ∃ Ψ', Stored (Copied a c M) h Ψ s.heap Ψ' v { v with root := r' } ∧
    s.first.Lags s.heap Ψ' o M p
  result : s.result.At (nodeCopy .tr v.id) s.heap { v with root := r' } p

/-- What a round does at position `p`: it keeps the paths of the writer,
and the reader stays in its leaf, or comes to the one that is on the path
by now. -/
structure Round (id : Id) (o : BpVector) (p : ℕ) (s t : Copying T) : Prop where
  keeps : Keeps (nodeCopy .tr id) s.heap t.heap
  reader : t.first.leaf = s.first.leaf ∧
      Radix.pos bpWidth (lastOf o (p + 1)) 0 = Radix.pos bpWidth (lastOf o p) 0 ∨
    t.first.At copyNone t.heap o (p + 1) ∧ lastOf o (p + 1) = p + 1 ∧ bpWidth ∣ p + 1

namespace Passing

variable {r' : Addr} {s t : Copying T}

/-- **One round** goes one on. -/
theorem step (hs : Passing h Ψ v r' o M a c p s) (hP : Placed h Ψ) (ho : Holds h Ψ o M)
    (hsz : o.sz = v.sz) (hsz63 : v.sz ≤ 2 ^ 63) (hp : p < c) (hc : c ≤ v.sz)
    (he : copyValue s = .ok t) : Passing h Ψ v r' o M a c (p + 1) t ∧ Round v.id o p s t := by
  obtain ⟨Ψ₀, ⟨hal, hk, -, N, hv⟩, hlag⟩ := hs.stored
  have hcopies := hs.copies.copyValue hP.reachScope trivial he
  have hoM : ∀ {i} (hi : i < M.length) z, Copied a c M i z → z = M[i] := fun hi z hz => hz.eq hi
  have hpM : p < M.length := by
    rw [← ho.size]
    omega
  have hsize : v.sz = N.length := hv.size
  have ho₀ := ho.unaltered hal fun i hi z hz => hoM hi z hz
  obtain ⟨x, hx, he⟩ := Exec.bind_eq_ok.1 he
  rw [hlag.deref ho₀ hpM] at hx
  cases hx
  obtain ⟨h₁, hst, he⟩ := Exec.bind_eq_ok.1 he
  -- the value
  have hcopied : ∀ i y, i = p ∧ y = M[p] → Copied a c M i y := by
    rintro i y ⟨rfl, rfl⟩
    exact ⟨hs.le_pos, hp, List.getElem?_eq_getElem hpM⟩
  have hal₁ := (hs.result.alters hal.placed hv (show p < v.sz by omega) hst).mono hcopied
  obtain ⟨h₁', hst', hP₁, hv₁, hk₁, -⟩ := hs.result.store hal.placed hv (by omega) M[p]
  rw [hst] at hst'
  cases hst'
  have hr₁ := hs.result.keeps hal.placed hv.root_lt hk₁
  -- the iterator that writes
  obtain ⟨⟨h₂, result⟩, hnx, he⟩ := Exec.bind_eq_ok.1 he
  obtain ⟨h₂', result', Ψ₂, hnx', hcame⟩ :=
    BpIterator.At.nextOf (κ := .mutable) (v := { v with root := r' }) hr₁ hP₁ hv₁
      (show p < v.sz by omega) hsz63
  have hnx'' : s.result.next h₁ = .ok (h₂', result') := hnx'
  rw [hnx] at hnx''
  cases hnx''
  have hal₂ := hal₁.trans (.of_ext hcame.ext)
  -- and the one that reads
  have ho₂ := ho₀.unaltered hal₂ fun i hi z hz => hoM hi z hz
  have hlag₂ := hlag.altered hal₂ ho₂ (by omega) fun i hi z hz => hoM hi z hz
  obtain ⟨first, hcn, he⟩ := Exec.bind_eq_ok.1 he
  cases he
  obtain ⟨hlag₃, hmoved⟩ := hlag₂.cnext hcame.ext.placed ho₂ (by omega) (by omega) hcn
  exact ⟨⟨by have := hs.le_pos; omega, hp, hcopies, ⟨Ψ₂, ⟨hal.trans hal₂,
    hk.trans (hk₁.trans hcame.keeps), rfl, _, hv₁.of_ext hcame.ext⟩, hlag₃⟩, hcame.stands⟩,
    hk₁.trans hcame.keeps, hmoved⟩

/-- **The loop ends at `c`** where the test that stops it tells this; it
relies on `marks`. -/
theorem loop {stop : Copying T → Bool} (marks : ℕ → Copying T → Prop)
    (hs : Passing h Ψ v r' o M a c p s) (hm : marks p s) (hP : Placed h Ψ) (ho : Holds h Ψ o M)
    (hsz : o.sz = v.sz) (hsz63 : v.sz ≤ 2 ^ 63) (hc : c ≤ v.sz)
    (hkeep : ∀ p s t, Passing h Ψ v r' o M a c p s → Passing h Ψ v r' o M a c (p + 1) t →
      Round v.id o p s t → marks p s → marks (p + 1) t)
    (hstop : ∀ p s, Passing h Ψ v r' o M a c p s → marks p s → (stop s = false ↔ p = c))
    (he : loop .rounds stop copyValue rounds s = .ok t) : Passing h Ψ v r' o M a c c t := by
  obtain ⟨⟨q, hq, hmq⟩, hdone⟩ := loop_invariant
    (I := fun s => ∃ p, Passing h Ψ v r' o M a c p s ∧ marks p s)
    (fun s t ⟨p, hs, hm⟩ hgo he => by
      have hpc : p ≠ c := fun hpc => by
        rw [(hstop p s hs hm).2 hpc] at hgo
        exact nomatch hgo
      have hle := hs.pos_le
      obtain ⟨ht, hmoved⟩ := hs.step hP ho hsz hsz63 (by omega) hc he
      exact ⟨p + 1, ht, hkeep p s t hs ht hmoved hm⟩)
    ⟨p, hs, hm⟩ he
  rwa [(hstop q t hq hmq).1 hdone] at hq

end Passing

/-! ## The loops of `assign` over values -/

section

variable {v₁ v₂ : BpVector} {h₁ h₂ h₃ : Heap T} {Ψ₁ : Addr → Place}
variable {it₀ it₁ first last : BpIterator}

/-- Where `begin() + p` goes through, it stands at `p`. -/
theorem Holds.begin_add_ok (hP : Placed h Ψ) (hv : Holds h Ψ v L) (hp : p ≤ v.sz)
    (hsz63 : v.sz ≤ 2 ^ 63) (h0 : 0 < v.sz) (hb : BpVector.begin h v = .ok (h₁, v₁, it₀))
    (ha : it₀.add h₁ p = .ok (h₂, it)) :
    p < 2 ^ 63 ∧ v₁ = { v with root := v₁.root } ∧
      ∃ Ψ', BpIterator.At.Came (nodeCopy .tr v.id) h Ψ h₂ Ψ' v₁ p it ∧ Holds h₂ Ψ' v₁ L ∧
        (nodeCopy .tr v.id (h.cell v.root).id = false → v₁ = v) := by
  have hlt : p < 2 ^ 63 := by
    by_contra hge
    obtain ⟨h', r', it', Ψ', he, hc, -⟩ := hv.beginOf .mutable hP
    have he' : BpVector.begin h v = .ok (h', { v with root := r' }, it') := he
    rw [hb] at he'
    cases he'
    have hcur := hc.stands.cur_le
    have hsz := hc.stands.sz_eq
    rw [BpIterator.add, BpIterator.addWith_far (by rw [hsz]; exact h0.ne') hcur (by omega)
      (by omega)] at ha
    cases ha
  obtain ⟨h₁', r', it₀', h₂', it', Ψ', hb', ha', hc, hv', hr⟩ := hv.begin_add hP hp hlt hsz63
  rw [hb] at hb'
  cases hb'
  rw [ha] at ha'
  cases ha'
  exact ⟨hlt, rfl, Ψ', hc, hv', fun hown => by rw [hr hown]⟩

/-- The same of `cbegin() + p`. -/
theorem Holds.cbegin_add_ok (hP : Placed h Ψ) (hv : Holds h Ψ v L) (hp : p ≤ v.sz)
    (hsz63 : v.sz ≤ 2 ^ 63) (h0 : 0 < v.sz) (hb : BpVector.cbegin h v = .ok it₀)
    (ha : it₀.cadd h p = .ok it) : it.At copyNone h v p := by
  have hlt : p < 2 ^ 63 := by
    by_contra hge
    obtain ⟨it', he, hc, -⟩ := hv.cbegin hP
    rw [hb] at he
    cases he
    have hsz := hc.sz_eq
    rw [BpIterator.cadd, BpIterator.addWith_far (by rw [hsz]; exact h0.ne') hc.cur_le (by omega)
      (by omega)] at ha
    cases ha
  obtain ⟨it₀', it', hb', ha', hit, -⟩ := hv.cbegin_add hP hp hlt hsz63
  rw [hb] at hb'
  cases hb'
  rw [ha] at ha'
  cases ha'
  exact hit

/-- **The start of such a loop**, where its own iterators have walked by
then. -/
theorem Stored.passing (w : Stored (Copied a c M) h Ψ h₁ Ψ₁ v v₁) (hP : Placed h Ψ)
    (hw : Rewritten h.next (nodeCopy .tr v.id) (fun _ => True)
      (fun d => Reach h v.root d ∨ h.next ≤ d) h h₁ v v₁)
    (ho : Holds h Ψ o M) (hsz : o.sz = v.sz) (hsz63 : v.sz ≤ 2 ^ 63) (hac : a ≤ c) (hc : c ≤ v.sz)
    (h0 : 0 < v.sz) (hlag : first.Lags h₁ Ψ₁ o M a)
    (hb : BpVector.begin h₁ v₁ = .ok (h₂, v₂, it₁)) (ha : it₁.add h₂ a = .ok (h₃, it)) :
    Passing h Ψ v v₂.root o M a c a ⟨h₃, first, it⟩ ∧ v₂ = { v with root := v₂.root } ∧
      Keeps (nodeCopy .tr v.id) h₁ h₃ ∧
      (nodeCopy .tr v.id (h₁.cell v₁.root).id = false → v₂ = v₁) := by
  obtain ⟨N, hv₁⟩ := w.holds
  have hid := w.id_eq
  have hsz₁ : v₁.sz = v.sz := by rw [w.eq_root]
  obtain ⟨-, heq, Ψ', hcame, hv', hr⟩ := hv₁.begin_add_ok w.alters.placed (p := a) (by omega)
    (by omega) (by omega) hb ha
  obtain ⟨hw', hheld, hitid⟩ := (hP.reachScope.edits hw.edits).begin_add (N := fun _ => True)
    hw.root_mem hw.root_lt trivial hb ha
  have heq' : v₂ = { v with root := v₂.root } := by rw [heq, w.eq_root]
  have hal : Alters (Copied a c M) h₁ Ψ₁ h₃ Ψ' := .of_ext hcame.ext
  rw [hid] at hw' hheld hitid hcame hr
  have hM : ∀ i (hi : i < M.length) z, Copied a c M i z → z = M[i] := fun i hi z hz => hz.eq hi
  have ho₃ := ho.unaltered (w.alters.trans hal) hM
  refine ⟨⟨le_rfl, hac, ⟨hw.edits.trans hw'.edits, hheld, hitid⟩,
    ⟨Ψ', ⟨w.alters.trans hal, w.keeps.trans hcame.keeps, rfl, N, ?_⟩,
      hlag.altered hal ho₃ (by omega) hM⟩, ?_⟩, heq', hcame.keeps, hr⟩
  · rw [← heq']
    exact hv'
  · rw [← heq']
    exact hcame.stands

theorem Stored.refl (hP : Placed h Ψ) (hv : Holds h Ψ v L) : Stored W h Ψ h Ψ v v :=
  ⟨.refl hP, .refl, rfl, L, hv⟩

/-- **Steps 1 and 5 of `assign`** write the values of `[a, c)`. -/
theorem Holds.copyUntil (hP : Placed h Ψ) (hv : Holds h Ψ v L) (ho : Holds h Ψ o M)
    (hsz : o.sz = v.sz) (hsz63 : v.sz ≤ 2 ^ 63) (hac : a ≤ c) (hc : c ≤ v.sz) (h0 : 0 < v.sz)
    (he : BpVector.copyUntil rounds h v o a c = .ok (h', v')) :
    ∃ Ψ', Stored (Copied a c M) h Ψ h' Ψ' v v' := by
  obtain ⟨f₀, hf₀, he⟩ := Exec.bind_eq_ok.1 he
  obtain ⟨first, hf, he⟩ := Exec.bind_eq_ok.1 he
  obtain ⟨⟨h₁, v₁, it₁⟩, hb₁, he⟩ := Exec.bind_eq_ok.1 he
  obtain ⟨⟨h₂, last⟩, ha₁, he⟩ := Exec.bind_eq_ok.1 he
  obtain ⟨⟨h₃, v₃, it₃⟩, hb, he⟩ := Exec.bind_eq_ok.1 he
  obtain ⟨⟨h₄, it₄⟩, ha, he⟩ := Exec.bind_eq_ok.1 he
  obtain ⟨s, hl, he⟩ := Exec.bind_eq_ok.1 he
  cases he
  have hfirst := ho.cbegin_add_ok hP (p := a) (by omega) (by omega) (by omega) hf₀ hf
  -- the iterator that marks the end
  obtain ⟨-, heq, Ψ₂, hcame, hv₂, -⟩ := hv.begin_add_ok hP hc hsz63 h0 hb₁ ha₁
  obtain ⟨hw, -, -⟩ := hP.reachScope.begin_add (N := fun _ => True) (.inl .root) hv.root_lt trivial
    hb₁ ha₁
  have hal : Alters (Copied a c M) h Ψ h₂ Ψ₂ := .of_ext hcame.ext
  have hM : ∀ i (hi : i < M.length) z, Copied a c M i z → z = M[i] := fun i hi z hz => hz.eq hi
  have hst : Stored (Copied a c M) h Ψ h₂ Ψ₂ v v₁ := ⟨hal, hcame.keeps, heq, L, hv₂⟩
  obtain ⟨hpass, heq₃, hk, hr⟩ := hst.passing hP hw ho hsz hsz63 hac hc h0
    ((hfirst.lags hP ho).altered hal (ho.unaltered hal hM) (by omega) hM) hb ha
  -- the root is owned by now
  have hsame := hr hcame.stands.root_owned
  have hlast : last.At (nodeCopy .tr v.id) h₄ v₁ c :=
    hcame.stands.keeps hcame.ext.placed hv₂.root_lt hk
  rw [hsame] at hpass heq₃
  rw [heq₃] at hlast
  have hend := hpass.loop (fun _ s => last.At (nodeCopy .tr v.id) s.heap
      { v with root := v₁.root } c) hlast hP ho hsz hsz63 hc
    (fun p s t hs _ hround hm => by
      obtain ⟨Ψ', ⟨hal, -, -, N, hN⟩, -⟩ := hs.stored
      exact hm.keeps hal.placed hN.root_lt hround.keeps)
    (fun p s hs hm => by
      obtain ⟨Ψ', ⟨hal, -, -, N, hN⟩, -⟩ := hs.stored
      rw [Bool.not_eq_false', hs.result.eq_iff hm hal.placed hN]) hl
  obtain ⟨Ψ', hstored, -⟩ := hend.stored
  refine ⟨Ψ', ?_⟩
  rw [hsame, heq₃]
  exact hstored

/-- **`std::copy` over single values** writes those of `[a, c)`. Its end is
an iterator of the vector that is read: where that one is passed over to
another leaf, the path to it must not be moved. -/
theorem Holds.copyRange (hP : Placed h Ψ) (hv : Holds h Ψ v L) (ho : Holds h Ψ o M)
    (hsz : o.sz = v.sz) (hlev : o.levels = v.levels) (hsz63 : v.sz ≤ 2 ^ 63) (hac : a ≤ c)
    (hc : c ≤ v.sz) (h0 : 0 < v.sz)
    (hst : (∀ p, a < p → p ≤ c → p < v.sz → ¬ bpWidth ∣ p) ∨
      c < v.sz ∧ (∀ p, a < p → p < c → ¬ bpWidth ∣ p) ∧ Steady h v o c)
    (he : BpVector.copyRange rounds h v o a c = .ok (h', v')) :
    ∃ Ψ', Stored (Copied a c M) h Ψ h' Ψ' v v' := by
  obtain ⟨f₀, hf₀, he⟩ := Exec.bind_eq_ok.1 he
  obtain ⟨first, hf, he⟩ := Exec.bind_eq_ok.1 he
  obtain ⟨l₀, hl₀, he⟩ := Exec.bind_eq_ok.1 he
  obtain ⟨last, hl, he⟩ := Exec.bind_eq_ok.1 he
  obtain ⟨⟨h₁, v₁, it₁⟩, hb, he⟩ := Exec.bind_eq_ok.1 he
  obtain ⟨⟨h₂, it₂⟩, ha, he⟩ := Exec.bind_eq_ok.1 he
  obtain ⟨s, hloop, he⟩ := Exec.bind_eq_ok.1 he
  cases he
  have hfirst := ho.cbegin_add_ok hP (p := a) (by omega) (by omega) (by omega) hf₀ hf
  have hlast := ho.cbegin_add_ok hP (p := c) (by omega) (by omega) (by omega) hl₀ hl
  obtain ⟨hpass, heq, -, -⟩ := (Stored.refl hP hv).passing hP
    (.refl (.inl .root) hv.root_lt) ho hsz hsz63 hac hc h0 (hfirst.lags hP ho) hb ha
  obtain ⟨hlt, hplace⟩ := hlast.leaf_place hP ho
  have hcur := hlast.pos_eq
  have hend := hpass.loop (fun p s => Radix.pos bpWidth (lastOf o p) 0 =
      Radix.pos bpWidth (lastOf o c) 0 → s.first.leaf = last.leaf) (fun hpos => by
        have hwalk := (hfirst.path.congr (j := lastOf o c) le_rfl
          (by rw [Nat.sub_self]; exact hpos)).walk
        rw [hlast.path.walk] at hwalk
        exact (Except.ok.inj hwalk).symm) hP ho hsz hsz63 hc
    (fun p s t hs ht hround hm hpos => by
      rcases hround.reader with ⟨hleaf, hsame⟩ | ⟨hat, hnext, hdvd⟩
      · -- in the leaf it was in
        rw [hleaf]
        exact hm (hsame.symm.trans hpos)
      · -- in the one that the end was taken of
        have hle := hs.le_pos
        have hpc := ht.pos_le
        have hpsz : p + 1 < v.sz := by
          simp only [lastOf] at hnext
          omega
        rcases hst with hnone | ⟨hcsz, hnone, hst⟩
        · exact absurd hdvd (hnone (p + 1) (by omega) hpc hpsz)
        · have hpc' : p + 1 = c := by
            by_contra hne
            exact hnone (p + 1) (by omega) (by omega) hdvd
          obtain ⟨Ψ', hstored, -⟩ := ht.stored
          have hc' : lastOf o c = c := by rw [← hpc']; exact hnext
          have hwalk := hlast.path.walk
          rw [hc'] at hwalk
          have hkept := hst.walk hP hv ho hlev hcsz (by omega) ht.copies.edits hstored.keeps hwalk
          have hwalk' := hat.path.walk
          rw [hpc', hc', hkept] at hwalk'
          exact (Except.ok.inj hwalk').symm)
    (fun p s hs hm => by
      obtain ⟨Ψ', hstored, hlag⟩ := hs.stored
      have hpos := hlag.pos_eq
      rw [Bool.not_eq_false', BpIterator.eq, Bool.and_eq_true, decide_eq_true_iff,
        decide_eq_true_iff]
      constructor
      · rintro ⟨hleaf, hcureq⟩
        rw [hleaf, hstored.alters.place _ hlt, hplace, hcureq] at hpos
        exact hpos.symm.trans hcur
      · rintro rfl
        refine ⟨hm rfl, ?_⟩
        rw [hlag.place] at hpos
        dsimp only [onPath] at hpos
        omega) hloop
  obtain ⟨Ψ', hstored, -⟩ := hend.stored
  refine ⟨Ψ', ?_⟩
  rw [heq]
  exact hstored

end

end Contentious
