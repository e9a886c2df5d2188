import Contentious.Common.Prune
import Contentious.Cont.Fold
import Contentious.Trie.Derive
import Contentious.Trie.Span

/-!
# Trie — the scan of `resolve`

`next_diff_ids` goes down both tries along the path of an index, as long as
the ids of the two nodes differ. Where they are the same it jumps over all
that the node holds; where they differ down to the leaves, the index is
visited. The jump adds the width of the node to the index, so it must
start at the node's first, which every call of `resolve` sees to
(`Prune.Aligned`). In a vector that is derived from the other, the same id
in one place is the same node (`Derived.same_node`), so what is jumped
over is equal, and the scan is the scan of all indices
(`resolve_scans_all`).
-/

namespace Contentious

open BpVector

variable [K : BpBits] {T : Type}

namespace BpVector

/-- The loop of `next_diff_ids` from `s = n * BP_BITS` down: the width of
the first node whose id is the same in both, if there is one. -/
def diffBelow (h : Heap T) (i : ℕ) : ℕ → ℕ → Addr → Addr → Exec (Option ℕ)
  | 0, _, _, _ => .ok none
  | n + 1, interval, a, b => do
    let a ← child h a (slot i ((n + 1) * bpBits))
    let b ← child h b (slot i ((n + 1) * bpBits))
    if (h.cell a).id = (h.cell b).id then .ok (some interval)
    else diffBelow h i n (interval >>> bpBits) a b

/-- `next_diff_ids(other, i)`, an `int32_t`. -/
def nextDiffIds (h : Heap T) (v other : BpVector) : ℕ → ℕ → Exec (BitVec 32)
  | 0, _ => .error .rounds
  | rounds + 1, i =>
    if i ≥ v.sz then .ok (BitVec.ofNat 32 v.sz)
    else if (h.cell v.root).id = (h.cell other.root).id then .ok (BitVec.ofNat 32 v.sz)
    else do
      let cap ← v.capacity
      match ← diffBelow h i v.levels (cap >>> bpBits) v.root other.root with
      | some interval => nextDiffIds h v other rounds (sizeT (i + interval))
      | none => .ok (BitVec.ofNat 32 i)

/-- `size_t c = r` of an `int32_t` -/
def ofInt32 (r : BitVec 32) : ℕ := (r.signExtend 64).toNat

/-- The index at hand, the target, and the indices that were visited. -/
structure Resolving (T : Type) where
  c : ℕ
  target : T
  scanned : List ℕ

section
variable [DecidableEq T]

/-- The body of `resolve`'s loop. -/
def resolveStep (rounds : ℕ) (op : Cont.Op T) (h : Heap T) (orig data : BpVector)
    (s : Resolving T) : Exec (Resolving T) := do
  let curr ← (← cbegin h data).cadd h s.c
  let trck ← (← cbegin h orig).cadd h s.c
  let diff := op.inv (← curr.deref h) (← trck.deref h)
  let target := if diff ≠ op.identity then op.f s.target diff else s.target
  let c ← nextDiffIds h orig data rounds (sizeT (s.c + 1))
  .ok ⟨ofInt32 c, target, s.scanned ++ [s.c]⟩

/-- `resolve`'s loop, which the target and the indices visited are left of. -/
def resolveScan (rounds : ℕ) (op : Cont.Op T) (h : Heap T) (orig data : BpVector) (target : T) :
    Exec (T × List ℕ) := do
  let c ← nextDiffIds h orig data rounds 0
  let s ← loop .rounds (fun s => s.c != data.sz) (resolveStep rounds op h orig data) rounds
    ⟨ofInt32 c, target, []⟩
  .ok (s.target, s.scanned)

/-- `target = f(target, inv(data[c], orig[c]))`, where the difference is not
the identity, over pairs of the two. -/
def foldDiffs (op : Cont.Op T) (pairs : List (T × T)) (target : T) : T :=
  pairs.foldl (fun target p =>
    let diff := op.inv p.1 p.2
    if diff ≠ op.identity then op.f target diff else target) target

end

end BpVector

variable {h : Heap T} {Ψ Ψ' : Addr → Place} {v w : BpVector} {a b : Addr} {L N : List T}
variable {c i j k l m n r rounds : ℕ} {x : T} {id : Id}

omit K in
/-- An index below `2 ^ 31` comes through the `int32_t`. -/
theorem ofInt32_ofNat (hn : n < 2 ^ 31) : ofInt32 (BitVec.ofNat 32 n) = n := by
  have hmsb : (BitVec.ofNat 32 n).msb = false := by
    rw [BitVec.msb_eq_false_iff_two_mul_lt, BitVec.toNat_ofNat, Nat.mod_eq_of_lt (by omega)]
    omega
  rw [ofInt32, BitVec.signExtend_eq_setWidth_of_msb_false hmsb, BitVec.toNat_setWidth,
    BitVec.toNat_ofNat, Nat.mod_eq_of_lt (by omega), Nat.mod_eq_of_lt (by omega)]

/-! ## The same id in one place -/

omit K in
/-- What an `int32_t` is as a `size_t`: small, or far out. -/
theorem ofInt32_range (r : BitVec 32) : ofInt32 r < 2 ^ 31 ∨ 2 ^ 63 ≤ ofInt32 r := by
  rw [ofInt32, BitVec.toNat_signExtend]
  split
  · exact .inr (le_trans (by norm_num) (Nat.le_add_left _ _))
  · next hmsb =>
    have hle := Nat.mod_le r.toNat (2 ^ 64)
    rw [BitVec.msb_eq_decide, decide_eq_true_eq] at hmsb
    norm_num at hmsb
    rw [BitVec.toNat_setWidth, Nat.add_zero]
    omega

/-- The two vectors have nodes with one id at the place of level `l` on the
path of `i`. -/
def SameId (h : Heap T) (v w : BpVector) (i l : ℕ) : Prop :=
  l ≤ v.levels ∧ ∃ a b, walk h i (v.levels - l) v.levels v.root = .ok a ∧
    walk h i (v.levels - l) v.levels w.root = .ok b ∧ (h.cell a).id = (h.cell b).id

/-- A walk looks at the places it passes. -/
theorem walk_pos_congr (hk : k ≤ n)
    (hpos : Radix.pos bpWidth i (n - k) = Radix.pos bpWidth j (n - k)) :
    walk h i k n a = walk h j k n a := by
  induction k generalizing n a with
  | zero => rfl
  | succ k ih =>
    obtain ⟨m, rfl⟩ := Nat.exists_eq_succ_of_ne_zero (by omega : n ≠ 0)
    have hs := slot_congr (Radix.pos_congr hpos (show m + 1 - (k + 1) ≤ m by omega))
    rw [Nat.succ_sub_succ] at hpos
    rw [walk, walk, hs]
    congr 1
    funext b
    exact ih (by omega) hpos

theorem SameId.ofBlock (h : Heap T) (v w : BpVector) : Prune.OfBlock bpWidth (SameId h v w) := by
  rintro i j l hpos ⟨hl, a, b, ha, hb, hid⟩
  have hsub : v.levels - (v.levels - l) = l := by omega
  have hcongr : ∀ r, walk h i (v.levels - l) v.levels r = walk h j (v.levels - l) v.levels r :=
    fun r => walk_pos_congr (Nat.sub_le _ _) (by rw [hsub]; exact hpos)
  exact ⟨hl, a, b, (hcongr _).symm.trans ha, (hcongr _).symm.trans hb, hid⟩

/-- The last step of a walk. -/
theorem walk_succ_last : walk h i (k + 1) n a =
    walk h i k n a >>= fun b => child h b (slot i ((n - k) * bpBits)) := by
  rw [walk_append]
  congr 1
  funext b
  rw [walk]
  cases child h b (slot i ((n - k) * bpBits)) <;> rfl

/-- The path of an element goes on where it has got to. -/
theorem Holds.child_on_path (hv : Holds h Ψ v L) (hi : i < L.length) (hl : l < v.levels)
    (ha : walk h i (v.levels - (l + 1)) v.levels v.root = .ok a) :
    ∃ b, child h a (slot i ((l + 1) * bpBits)) = .ok b ∧
      walk h i (v.levels - l) v.levels v.root = .ok b := by
  obtain ⟨b, hb, -⟩ := exists_walk_of_readAt (k := v.levels - l) (Nat.sub_le _ _) (hv.read i hi)
  have hk : v.levels - l = v.levels - (l + 1) + 1 := by omega
  refine ⟨b, ?_, hb⟩
  rw [hk, walk_succ_last, ha, Exec.ok_bind] at hb
  rwa [show v.levels - (v.levels - (l + 1)) = l + 1 by omega] at hb

/-! ## One call -/

/-- **The loop of `next_diff_ids`** finds the uppermost node whose id is the
same in both, if there is one. -/
theorem diffBelow_spec (hv : Holds h Ψ v L) (hw : Holds h Ψ' w N) (hlev : w.levels = v.levels)
    (hi : i < L.length) (hi' : i < N.length) (hn : n ≤ v.levels)
    (ha : walk h i (v.levels - n) v.levels v.root = .ok a)
    (hb : walk h i (v.levels - n) v.levels w.root = .ok b) (hno : ∀ m, n ≤ m → ¬ SameId h v w i m) :
    (∃ l < n, diffBelow h i n (bpWidth ^ n) a b = .ok (some (bpWidth ^ (l + 1))) ∧
        SameId h v w i l ∧ ∀ m, l < m → ¬ SameId h v w i m) ∨
      diffBelow h i n (bpWidth ^ n) a b = .ok none ∧ ∀ m, ¬ SameId h v w i m := by
  induction n generalizing a b with
  | zero => exact .inr ⟨rfl, fun m => hno m (Nat.zero_le m)⟩
  | succ n ih =>
    obtain ⟨a', hca, ha'⟩ := hv.child_on_path (l := n) hi (by omega) ha
    obtain ⟨b', hcb, hb'⟩ := hw.child_on_path (l := n) hi' (by omega) (by rw [hlev]; exact hb)
    rw [hlev] at hb'
    rw [diffBelow, hca, Exec.ok_bind, hcb, Exec.ok_bind]
    split
    · next hid =>
      exact .inl ⟨n, Nat.lt_succ_self n, rfl, ⟨by omega, a', b', ha', hb', hid⟩, hno⟩
    · next hid =>
      have hno' : ∀ m, n ≤ m → ¬ SameId h v w i m := fun m hm hs => by
        rcases Nat.eq_or_lt_of_le hm with rfl | hlt
        · obtain ⟨-, a₁, b₁, ha₁, hb₁, hid₁⟩ := hs
          rw [ha'] at ha₁
          rw [hb'] at hb₁
          cases ha₁
          cases hb₁
          exact hid hid₁
        · exact hno m hlt hs
      rw [shiftRight_pow]
      rcases ih (by omega) ha' hb' hno' with ⟨l, hl, hres⟩ | hres
      · exact .inl ⟨l, Nat.lt_succ_of_lt hl, hres⟩
      · exact .inr hres

/-- **`next_diff_ids`** is a scan that jumps over the nodes that have one id
in both vectors. -/
theorem nextDiffIds_stops (hv : Holds h Ψ v L) (hw : Holds h Ψ' w N) (hlev : w.levels = v.levels)
    (hlen : N.length = L.length) (hcap : bpWidth ^ (v.levels + 1) < 2 ^ 64) (hsz : v.sz < 2 ^ 31)
    (i : ℕ) :
    ∃ r, Prune.Stops bpWidth (SameId h v w) v.sz i r ∧
      ∀ rounds, v.sz - i < rounds → nextDiffIds h v w rounds i = .ok (BitVec.ofNat 32 r) := by
  have hsize := hv.size
  have hfits := hv.fits
  induction hn : v.sz - i using Nat.strong_induction_on generalizing i with
  | _ left ih =>
    rcases Nat.lt_or_ge i v.sz with hlt | hge
    · by_cases hid : (h.cell v.root).id = (h.cell w.root).id
      · -- the roots have one id: past all that there is
        have hwidest : Prune.Widest (SameId h v w) i v.levels :=
          ⟨⟨le_rfl, v.root, w.root, by rw [Nat.sub_self]; rfl, by rw [Nat.sub_self]; rfl, hid⟩,
            fun m hm hs => absurd hs.1 (Nat.not_le.2 hm)⟩
        refine ⟨v.sz, .jump hlt hwidest (.past (by omega)), fun rounds hrounds => ?_⟩
        obtain ⟨rounds, rfl⟩ := Nat.exists_eq_succ_of_ne_zero (by omega : rounds ≠ 0)
        rw [nextDiffIds, if_neg (Nat.not_le.2 hlt), if_pos hid]
      have hroots : ∀ m, v.levels ≤ m → ¬ SameId h v w i m := by
        rintro m hm ⟨hml, a, b, ha, hb, hsame⟩
        rw [show v.levels - m = 0 by omega] at ha hb
        cases ha
        cases hb
        exact hid hsame
      rcases diffBelow_spec hv hw hlev (by omega) (by omega) le_rfl (by rw [Nat.sub_self]; rfl)
        (by rw [Nat.sub_self]; rfl) hroots with ⟨l, hl, hres, hwidest⟩ | ⟨hres, hno⟩
      · -- over the node, from the root again
        have hW : 0 < bpWidth ^ (l + 1) := Nat.pow_pos bpWidth_pos
        have hW63 := pow_levels_le hcap (n := l + 1) (by omega)
        have hmod : sizeT (i + bpWidth ^ (l + 1)) = i + bpWidth ^ (l + 1) :=
          Nat.mod_eq_of_lt (by omega)
        obtain ⟨r, hr, hres'⟩ := ih _ (by omega) (i + bpWidth ^ (l + 1)) rfl
        refine ⟨r, .jump hlt hwidest hr, fun rounds hrounds => ?_⟩
        obtain ⟨rounds, rfl⟩ := Nat.exists_eq_succ_of_ne_zero (by omega : rounds ≠ 0)
        rw [nextDiffIds, if_neg (Nat.not_le.2 hlt), if_neg hid, capacity_of hcap, Exec.ok_bind,
          shiftRight_pow, hres, Exec.ok_bind]
        dsimp only
        rw [hmod]
        exact hres' rounds (by omega)
      · refine ⟨i, .here hlt hno, fun rounds hrounds => ?_⟩
        obtain ⟨rounds, rfl⟩ := Nat.exists_eq_succ_of_ne_zero (by omega : rounds ≠ 0)
        rw [nextDiffIds, if_neg (Nat.not_le.2 hlt), if_neg hid, capacity_of hcap, Exec.ok_bind,
          shiftRight_pow, hres, Exec.ok_bind]
    · refine ⟨v.sz, .past hge, fun rounds hrounds => ?_⟩
      obtain ⟨rounds, rfl⟩ := Nat.exists_eq_succ_of_ne_zero (by omega : rounds ≠ 0)
      rw [nextDiffIds, if_pos hge]

/-- **From an index that is aligned**, it passes indices that have a node
with one id above them, and stops at one that has none, or at the end. -/
theorem nextDiffIds_spec (hv : Holds h Ψ v L) (hw : Holds h Ψ w N) (hlev : w.levels = v.levels)
    (hlen : N.length = L.length) (hcap : bpWidth ^ (v.levels + 1) < 2 ^ 64) (hsz : v.sz < 2 ^ 31)
    (ha : Prune.Aligned bpWidth (SameId h v w) i) (hrounds : v.sz - i < rounds) :
    ∃ r, nextDiffIds h v w rounds i = .ok (BitVec.ofNat 32 r) ∧ r ≤ v.sz ∧
      (∀ c, i ≤ c → c < r → ∃ l, SameId h v w c l) ∧
      (r = v.sz ∨ i ≤ r ∧ ∀ m, ¬ SameId h v w r m) := by
  obtain ⟨r, hr, hres⟩ := nextDiffIds_stops hv hw hlev hlen hcap hsz i
  refine ⟨r, hres rounds hrounds, hr.le, fun c => ?_, hr.stands.imp_right fun h => ⟨h.1, h.2.2⟩⟩
  exact hr.skips bpWidth_pos (SameId.ofBlock h v w) (fun _ _ hs => hs.1) ha

/-- A capacity that a small vector has fits its type. -/
theorem Holds.capacity_small (hv : Holds h Ψ v L) (hsz : v.sz < 2 ^ 31) :
    bpWidth ^ (v.levels + 1) < 2 ^ 64 := by
  have hW : bpWidth ≤ 2 ^ 15 := by
    rw [bpWidth_eq]
    exact Nat.pow_le_pow_right (by omega) K.le
  have htight := hv.tight
  have hsize := hv.size
  have hsq : bpWidth * bpWidth ≤ 2 ^ 15 * 2 ^ 15 := Nat.mul_le_mul hW hW
  rcases htight with h0 | ⟨-, h1 | hlt⟩
  · rw [h0, Nat.zero_add, pow_one]
    omega
  · rw [h1, pow_succ, pow_one]
    omega
  · have := Nat.mul_le_mul (show bpWidth ^ v.levels ≤ 2 ^ 31 by omega) hW
    rw [pow_succ]
    omega

/-! ## What is passed is equal -/

/-- The same id in one place is the same node. -/
def SameNode (h : Heap T) (v w : BpVector) : Prop :=
  ∀ i < v.sz, ∀ l ≤ v.levels, ∀ a b, walk h i (v.levels - l) v.levels v.root = .ok a →
    walk h i (v.levels - l) v.levels w.root = .ok b → (h.cell a).id = (h.cell b).id → a = b

/-- **What is read under a node is the same** in both. -/
theorem SameNode.value_eq (hn : SameNode h v w) (hv : Holds h Ψ v L) (hw : Holds h Ψ' w N)
    (hlev : w.levels = v.levels) (hi : i < L.length) (hi' : i < N.length)
    (hs : SameId h v w i l) : N[i] = L[i] := by
  obtain ⟨hl, a, b, ha, hb, hid⟩ := hs
  have hab := hn i (hv.size ▸ hi) l hl a b ha hb hid
  subst hab
  have h1 := hv.read i hi
  have h2 := hw.read i hi'
  rw [readAt_of_walk (Nat.sub_le _ _) ha] at h1
  rw [hlev, readAt_of_walk (Nat.sub_le _ _) hb, h1] at h2
  exact (Except.ok.inj h2).symm

/-- **In kin, the same id in one place is the same node.** -/
theorem Kindred.sameNode (hk : Kindred h v w) (hP : Placed h Ψ) (hv : Holds h Ψ v L)
    (hw : Holds h Ψ w N) (hlev : w.levels = v.levels) (hsz : w.sz = v.sz) : SameNode h v w := by
  intro i hi l hl a b ha hb hid
  have hsize := hv.size
  have hsize' := hw.size
  have hΨv : Ψ v.root = onPath i v.levels := hv.root_onPath (lt_of_lt_of_le (hsize ▸ hi) hv.fits)
  have hΨw : Ψ w.root = onPath i v.levels := by
    rw [← hlev]
    exact hw.root_onPath (lt_of_lt_of_le (by omega) hw.fits)
  have hΨb := (hP.walk_place hw.root_lt hΨw hb).2
  rw [show v.levels - (v.levels - l) = l by omega] at hΨb
  rcases hk b (Reach.root.walk hb) with hreach | hne
  · -- the place of the path holds one node of a vector
    obtain ⟨-, hb'⟩ := hP.walk_of_reach hv.root_lt hreach hΨv hΨb
    rw [ha] at hb'
    cases hb'
    rfl
  · exact absurd hid (hne a (Reach.root.walk ha))

/-- The elements of a list as those of a vector are told in `Cont`. -/
def contents (L : List T) (d : T) : ℤ → T := fun c => L.getD c.toNat d

section
variable [DecidableEq T] {op : Cont.Op T} {s t : Resolving T}

omit K in
/-- One pair more. -/
theorem foldDiffs_take_succ (ps : List (T × T)) (hn : n < ps.length) :
    foldDiffs op (ps.take (n + 1)) x =
      if op.inv ps[n].1 ps[n].2 ≠ op.identity then
        op.f (foldDiffs op (ps.take n) x) (op.inv ps[n].1 ps[n].2)
      else foldDiffs op (ps.take n) x := by
  rw [foldDiffs, ← List.take_append_getElem hn, List.foldl_append]
  rfl

omit K in
/-- **Equal pairs change nothing.** -/
theorem foldDiffs_take_skip (hinv : ∀ x, op.inv x x = op.identity) (ps : List (T × T)) (x : T)
    (hij : i ≤ j) (hj : j ≤ ps.length)
    (heq : ∀ c (hc : c < ps.length), i ≤ c → c < j → ps[c].1 = ps[c].2) :
    foldDiffs op (ps.take j) x = foldDiffs op (ps.take i) x := by
  induction j, hij using Nat.le_induction with
  | base => rfl
  | succ j hij ih =>
    rw [foldDiffs_take_succ ps hj, heq j hj hij (Nat.lt_succ_self j), hinv,
      if_neg (not_not.2 rfl)]
    exact ih (by omega) fun c hc h1 h2 => heq c hc h1 (Nat.lt_succ_of_lt h2)

omit K in
/-- One index more. -/
theorem resolveOnto_concat (orig data : ℤ → T) (scan : List ℤ) (c : ℤ) :
    Cont.resolveOnto op orig data (scan ++ [c]) x =
      if op.inv (data c) (orig c) ≠ op.identity then
        op.f (Cont.resolveOnto op orig data scan x) (op.inv (data c) (orig c))
      else Cont.resolveOnto op orig data scan x := by
  rw [Cont.resolveOnto, List.foldl_append]
  rfl

/-- **What the loop of `resolve` keeps** when it has `n` indices to go: it is
at the end, or at an index that has no node with one id above it; it has
visited all such before, in order; and the target is what the fold over all
indices so far gives, and that over those visited. -/
structure Scanned (op : Cont.Op T) (h : Heap T) (v w : BpVector) (L N : List T) (x : T) (n : ℕ)
    (s : Resolving T) : Prop where
  left_eq : s.c + n = v.sz
  stands : n = 0 ∨ ∀ m, ¬ SameId h v w s.c m
  sorted : s.scanned.Pairwise (· < ·)
  below : ∀ c ∈ s.scanned, c < s.c
  complete : ∀ c < s.c, c ∈ s.scanned ∨ ∃ l, SameId h v w c l
  target_eq : s.target = foldDiffs op ((N.zip L).take s.c) x
  scan_eq : s.target = Cont.resolveOnto op (contents L x) (contents N x)
    (s.scanned.map Int.ofNat) x

/-- **One round.** -/
theorem Scanned.resolveStep (hs : Scanned op h v w L N x n s) (hn : n ≠ 0)
    (hinv : ∀ x, op.inv x x = op.identity) (hP : Placed h Ψ) (hv : Holds h Ψ v L)
    (hw : Holds h Ψ w N) (hlev : w.levels = v.levels) (hsz : w.sz = v.sz) (hk : Kindred h v w)
    (hsmall : v.sz < 2 ^ 31) (hrounds : v.sz < rounds) :
    ∃ t m, resolveStep rounds op h v w s = .ok t ∧ Scanned op h v w L N x m t ∧ m < n := by
  have hcap := hv.capacity_small hsmall
  have hnode := hk.sameNode hP hv hw hlev hsz
  have hsize := hv.size
  have hsize' := hw.size
  have hleft := hs.left_eq
  have hc : s.c < v.sz := by omega
  have hdiff : ∀ m, ¬ SameId h v w s.c m := hs.stands.resolve_left hn
  have hL : s.c < L.length := by omega
  have hN : s.c < N.length := by omega
  obtain ⟨it₀, it, he₀, he, hit, -⟩ := hw.cbegin_add hP (p := s.c) (by omega) (by omega) (by omega)
  obtain ⟨jt₀, jt, hf₀, hf, hjt, -⟩ := hv.cbegin_add hP (p := s.c) (by omega) (by omega) (by omega)
  -- where nothing is the same, the next index is aligned
  have hal := Prune.aligned_add (k := 0) (i := s.c) bpWidth_pos (SameId.ofBlock h v w)
    (one_dvd _) fun m _ => hdiff m
  rw [pow_zero] at hal
  obtain ⟨r, hr, hle, hpass, hend⟩ := nextDiffIds_spec hv hw hlev (by omega) hcap hsmall hal
    (show v.sz - (s.c + 1) < rounds by omega)
  have hmod : sizeT (s.c + 1) = s.c + 1 := Nat.mod_eq_of_lt (by omega)
  have hrc : s.c + 1 ≤ r := by
    rcases hend with rfl | h
    · exact hc
    · exact h.1
  have hzip : (N.zip L).length = v.sz := by
    rw [List.length_zip]
    omega
  refine ⟨⟨r, if op.inv N[s.c] L[s.c] ≠ op.identity then
    op.f s.target (op.inv N[s.c] L[s.c]) else s.target, s.scanned ++ [s.c]⟩, v.sz - r, ?_, ?_,
    by omega⟩
  · rw [BpVector.resolveStep, he₀, Exec.ok_bind, he, Exec.ok_bind, hf₀, Exec.ok_bind, hf,
      Exec.ok_bind, hit.deref hw hN, Exec.ok_bind, hjt.deref hv hL, Exec.ok_bind, hmod, hr,
      Exec.ok_bind, ofInt32_ofNat (by omega)]
  · refine ⟨by dsimp only; omega, ?_, ?_, ?_, ?_, ?_, ?_⟩
    · exact hend.imp (fun h => by rw [h, Nat.sub_self]) And.right
    · refine List.pairwise_append.2 ⟨hs.sorted, List.pairwise_singleton _ _, fun c hc d hd => ?_⟩
      rw [List.mem_singleton.1 hd]
      exact hs.below c hc
    · intro c hc
      rcases List.mem_append.1 hc with hold | hnew
      · have := hs.below c hold
        dsimp only
        omega
      · rw [List.mem_singleton.1 hnew]
        exact hrc
    · intro c hcr
      rcases Nat.lt_trichotomy c s.c with hlt | rfl | hgt
      · exact (hs.complete c hlt).imp_left fun h => List.mem_append_left _ h
      · exact .inl (List.mem_append_right _ (List.mem_singleton_self _))
      · exact .inr (hpass c hgt hcr)
    · have hskip := foldDiffs_take_skip hinv (N.zip L) x hrc (by omega)
        fun c hcz h1 h2 => by
          obtain ⟨l, hl⟩ := hpass c h1 h2
          rw [List.getElem_zip]
          exact hnode.value_eq hv hw hlev (by omega) (by omega) hl
      dsimp only
      rw [hskip, foldDiffs_take_succ _ (by omega), List.getElem_zip, ← hs.target_eq]
    · have hLc : contents L x s.c = L[s.c] := List.getD_eq_getElem _ _ hL
      have hNc : contents N x s.c = N[s.c] := List.getD_eq_getElem _ _ hN
      dsimp only
      rw [List.map_append, List.map_singleton, resolveOnto_concat, ← hs.scan_eq,
        Int.ofNat_eq_natCast, hLc, hNc]

/-- **The loop of `resolve`** over kin. -/
theorem resolveScan_spec (hinv : ∀ x, op.inv x x = op.identity) (hP : Placed h Ψ)
    (hv : Holds h Ψ v L) (hw : Holds h Ψ w N) (hlev : w.levels = v.levels) (hsz : w.sz = v.sz)
    (hk : Kindred h v w) (hsmall : v.sz < 2 ^ 31) (hrounds : v.sz < rounds) (x : T) :
    ∃ scanned, resolveScan rounds op h v w x = .ok (foldDiffs op (N.zip L) x, scanned) ∧
      scanned.Pairwise (· < ·) ∧ (∀ c ∈ scanned, c < v.sz) ∧
      (∀ c < v.sz, N[c]? ≠ L[c]? → c ∈ scanned) ∧
      foldDiffs op (N.zip L) x = Cont.resolveOnto op (contents L x) (contents N x)
        (scanned.map Int.ofNat) x := by
  have hnode := hk.sameNode hP hv hw hlev hsz
  have hsize := hv.size
  have hsize' := hw.size
  obtain ⟨r, hr, hle, hpass, hend⟩ := nextDiffIds_spec hv hw hlev (by omega)
    (hv.capacity_small hsmall) hsmall Prune.aligned_zero (show v.sz - 0 < rounds by omega)
  have hzip : (N.zip L).length = v.sz := by
    rw [List.length_zip]
    omega
  have hstart : Scanned op h v w L N x (v.sz - r) ⟨r, x, []⟩ := by
    refine ⟨by dsimp only; omega, hend.imp (fun h => by rw [h, Nat.sub_self]) And.right,
      .nil, fun c hc => (nomatch hc), fun c hc => .inr (hpass c (Nat.zero_le c) hc), ?_, rfl⟩
    have hskip := foldDiffs_take_skip hinv (N.zip L) x (Nat.zero_le r) (by omega)
      fun c hcz h1 h2 => by
        obtain ⟨l, hl⟩ := hpass c h1 h2
        rw [List.getElem_zip]
        exact hnode.value_eq hv hw hlev (by omega) (by omega) hl
    dsimp only
    rw [hskip, List.take_zero]
    rfl
  obtain ⟨s, n, hloop, hs, hdone⟩ := loop_counts Fault.rounds (fun s => s.c != w.sz)
    (resolveStep rounds op h v w) (I := Scanned op h v w L N x)
    (fun n s hs hgo => by
      refine hs.resolveStep (fun h0 => ?_) hinv hP hv hw hlev hsz hk hsmall hrounds
      have hleft := hs.left_eq
      rw [h0, Nat.add_zero, ← hsz] at hleft
      rw [hleft] at hgo
      simp at hgo)
    hstart (show v.sz - r ≤ rounds by omega)
  have hc : s.c = v.sz := by
    rw [← hsz]
    simpa using hdone
  have htarget := hs.target_eq
  rw [hc, List.take_of_length_le (by omega)] at htarget
  refine ⟨s.scanned, ?_, hs.sorted, by rw [← hc]; exact hs.below, fun c hcv hne => ?_,
    htarget.symm.trans hs.scan_eq⟩
  · rw [resolveScan, hr, Exec.ok_bind, ofInt32_ofNat (by omega), hloop, Exec.ok_bind, htarget]
  · refine (hs.complete c (by omega)).resolve_right fun ⟨l, hl⟩ => hne ?_
    rw [List.getElem?_eq_getElem (by omega), List.getElem?_eq_getElem (by omega),
      hnode.value_eq hv hw hlev (by omega) (by omega) hl]

/-- **The indices visited are a scan**, as `resolve` is modelled over whole
vectors. -/
theorem resolveScan_scan (hinv : ∀ x, op.inv x x = op.identity) (hP : Placed h Ψ)
    (hv : Holds h Ψ v L) (hw : Holds h Ψ w N) (hlev : w.levels = v.levels) (hsz : w.sz = v.sz)
    (hk : Kindred h v w) (hsmall : v.sz < 2 ^ 31) (hrounds : v.sz < rounds) (x d : T) :
    ∃ scan, Cont.Scan v.sz (contents L d) (contents N d) scan ∧
      resolveScan rounds op h v w x =
        .ok (Cont.resolveOnto op (contents L d) (contents N d) scan x, scan.map Int.toNat) := by
  obtain ⟨scanned, he, hsorted, hbelow, hcomplete, heq⟩ :=
    resolveScan_spec hinv hP hv hw hlev hsz hk hsmall hrounds x
  have hsize := hv.size
  have hsize' := hw.size
  have hdefault : ∀ {K : List T}, v.sz = K.length → ∀ c ∈ scanned.map Int.ofNat,
      contents K x c = contents K d c := by
    intro K hK c hc
    obtain ⟨n, hn, rfl⟩ := List.mem_map.1 hc
    have hlt : n < K.length := hK ▸ hbelow n hn
    simp only [contents, Int.ofNat_eq_natCast, Int.toNat_natCast]
    rw [List.getD_eq_getElem _ _ hlt, List.getD_eq_getElem _ _ hlt]
  refine ⟨scanned.map Int.ofNat, ⟨?_, ?_, ?_⟩, ?_⟩
  · rw [List.pairwise_map]
    exact hsorted.imp fun hlt => Int.ofNat_lt.2 hlt
  · intro c hc
    obtain ⟨d, hd, rfl⟩ := List.mem_map.1 hc
    exact ⟨Int.natCast_nonneg d, Int.ofNat_lt.2 (hbelow d hd)⟩
  · intro c hc hne
    refine List.mem_map.2 ⟨c, hcomplete c hc fun heq => hne ?_, rfl⟩
    simp only [contents, Int.toNat_natCast, List.getD_eq_getElem?_getD, heq]
  · rw [he, heq, List.map_map,
      Cont.resolveOnto_congr (hdefault hsize) (hdefault (by omega)) x]
    congr 2
    exact (List.map_id _).symm

/-- **The loop of `resolve` comes to an end** only if the size comes through
the `int32_t`. -/
theorem resolveScan_small {s : T × List ℕ} (hlt : w.sz < 2 ^ 63)
    (he : resolveScan rounds op h v w x = .ok s) : w.sz < 2 ^ 31 := by
  obtain ⟨c, -, he⟩ := Exec.bind_eq_ok.1 he
  obtain ⟨t, hloop, -⟩ := Exec.bind_eq_ok.1 he
  -- the index at hand is always one that was returned
  obtain ⟨⟨r, hr⟩, hdone⟩ := loop_invariant
    (I := fun s : Resolving T => ∃ r, s.c = ofInt32 r) (fun s t _ _ hb => by
      rw [resolveStep] at hb
      obtain ⟨_, -, hb⟩ := Exec.bind_eq_ok.1 hb
      obtain ⟨_, -, hb⟩ := Exec.bind_eq_ok.1 hb
      obtain ⟨_, -, hb⟩ := Exec.bind_eq_ok.1 hb
      obtain ⟨_, -, hb⟩ := Exec.bind_eq_ok.1 hb
      obtain ⟨_, -, hb⟩ := Exec.bind_eq_ok.1 hb
      obtain ⟨_, -, hb⟩ := Exec.bind_eq_ok.1 hb
      obtain ⟨c', -, hb⟩ := Exec.bind_eq_ok.1 hb
      cases hb
      exact ⟨c', rfl⟩) ⟨c, rfl⟩ hloop
  have heq : t.c = w.sz := by simpa using hdone
  have hrange := ofInt32_range r
  omega

/-- **The scan of `resolve` is the scan of all indices.** Take any vector of
less than `2 ^ 31` elements, and an id that none of its nodes carries.
Whatever is written of its `new_id()` under that id — by `mut_set`, through
iterators, and by `assign` from vectors of its size and depth whose nodes
are its own or carry ids that occur nowhere in it — the loop of `resolve`
comes to an end, with the target that folding the differences at all indices
in order gives; it visits indices in increasing order, and all those where
the two differ. -/
theorem resolve_scans_all {h : Heap T} {o : BpVector} {id : Id} {s : Writing T}
    {ops : List (WriteOp T)} (hinv : ∀ x, op.inv x x = op.identity) (ho : Represents h o L)
    (hf : Foreign h o.root id) (hsmall : o.sz < 2 ^ 31)
    (hops : (Tr.writes T).Along (FromKindred o) ⟨h, Tr.withId o id, []⟩ ops)
    (hrun : (Tr.writes T).run ⟨h, Tr.withId o id, []⟩ ops = some s) (hsize : s.t.sz = o.sz)
    (hrounds : o.sz < rounds) (x : T) :
    ∃ (N : List T) (scanned : List ℕ), N.length = L.length ∧
      (∀ i, o.at' s.heap i = o.at' h i) ∧ (∀ i (hi : i < N.length), s.t.at' s.heap i = .ok N[i]) ∧
      resolveScan rounds op s.heap o s.t x = .ok (foldDiffs op (N.zip L) x, scanned) ∧
      scanned.Pairwise (· < ·) ∧ (∀ c ∈ scanned, c < o.sz) ∧
      ∀ c < o.sz, N[c]? ≠ L[c]? → c ∈ scanned := by
  rcases Nat.eq_zero_or_pos o.sz with h0 | hpos
  · -- nothing to scan
    obtain ⟨rounds, rfl⟩ := Nat.exists_eq_succ_of_ne_zero (by omega : rounds ≠ 0)
    have hL : L = [] := by
      obtain ⟨Ψ, -, hh⟩ := ho
      exact List.length_eq_zero_iff.1 (hh.size ▸ h0)
    refine ⟨[], [], by rw [hL], fun i => ?_, fun i hi => (nomatch hi), ?_, .nil,
      fun c hc => (nomatch hc), fun c hc => absurd hc (by omega)⟩
    · rw [at', at', if_pos (by omega), if_pos (by omega)]
    · rw [resolveScan, nextDiffIds, if_pos (by omega), Exec.ok_bind, ofInt32_ofNat hsmall,
        loop_of_not (by simp [hsize]), Exec.ok_bind]
      rfl
  · have hD := derived_of_run ho hf hpos hops hrun
    obtain ⟨Ψ₀, hP₀, hh₀⟩ := ho
    obtain ⟨Ψ, N, hP, hN, hL⟩ := hD.holds
    obtain ⟨scanned, he, hsorted, hbelow, hcomplete, -⟩ :=
      resolveScan_spec hinv hP hL hN hD.levels_eq hD.sz_eq hD.kindred hsmall hrounds x
    refine ⟨N, scanned, ?_, fun i => ?_, fun i hi => ?_, he, hsorted, hbelow, hcomplete⟩
    · rw [← hN.size, ← hL.size, hsize]
    · rw [hL.at_eq, hh₀.at_eq]
    · rw [hN.at_eq, dif_pos hi]

omit K in
/-- Over arrays of two, where one of three is set, one written through an
iterator, and one assigned as it was. -/
theorem resolve_scans_all_three :
    letI := oneBit
    ∃ (h : Heap ℤ) (o : BpVector) (s : Writing ℤ) (N : List ℤ) (scanned : List ℕ),
      Represents h o [1, 2, 3] ∧
      (Tr.writes ℤ).run ⟨h, Tr.withId o 7, []⟩
        [.mutSet 1 9, .begin, .add 0 2, .store 1 5, .assign 6 o 0 1] = some s ∧
      (∀ i (hi : i < N.length), s.t.at' s.heap i = .ok N[i]) ∧
      resolveScan 4 (.group ℤ) s.heap o s.t 10 =
        .ok (foldDiffs (.group ℤ) (N.zip [1, 2, 3]) 10, scanned) := by
  let _ := oneBit
  obtain ⟨s, o, -, hs, hv, -, ho, -⟩ := Ps.exists_pair (i := 3) (j := 3) (L := [1, 2, 3])
    (M := [1, 2, 3]) [.new, .pushBack 0 (1 : ℤ), .pushBack 1 2, .pushBack 2 3]
    [[], [1], [1, 2], [1, 2, 3]] (by decide +kernel) rfl rfl
  have hval : ((Ps.code ℤ).run (Heap.empty, []) [.new, .pushBack 0 1, .pushBack 1 2,
      .pushBack 2 3]).bind (fun s => s.2[3]?.bind fun o =>
        ((Tr.writes ℤ).run ⟨s.1, Tr.withId o 7, []⟩
          [.mutSet 1 9, .begin, .add 0 2, .store 1 5, .assign 6 o 0 1]).map fun w =>
            (o.sz, w.t.sz, decide (∀ a < s.1.next, (s.1.cell a).id = 0))) = some (3, 3, true) := by
    decide +kernel
  rw [hs, Option.bind_some, hv, Option.bind_some] at hval
  obtain ⟨w, hw, hval⟩ := Option.map_eq_some_iff.1 hval
  simp only [Prod.mk.injEq, decide_eq_true_eq] at hval
  obtain ⟨hsz, hwsz, hid⟩ := hval
  have hf : Foreign s.1 o.root 7 := fun a ha => by
    obtain ⟨Ψ, hP, hh⟩ := ho
    rw [hid a (hP.reach_lt hh.root_lt ha)]
    decide
  have hops : (Tr.writes ℤ).Along (FromKindred o) ⟨s.1, Tr.withId o 7, []⟩
      [.mutSet 1 9, .begin, .add 0 2, .store 1 5, .assign 6 o 0 1] := by
    refine ⟨trivial, fun t₁ h₁ => ⟨trivial, fun t₂ h₂ => ⟨trivial, fun t₃ h₃ => ⟨trivial,
      fun t₄ h₄ => ⟨?_, fun _ _ => trivial⟩⟩⟩⟩⟩
    -- what is assigned from is the vector itself
    have hrun : (Tr.writes ℤ).run ⟨s.1, Tr.withId o 7, []⟩
        [.mutSet 1 9, .begin, .add 0 2, .store 1 5] = some t₄ := by
      rw [Machine.run_cons_of_step _ h₁, Machine.run_cons_of_step _ h₂,
        Machine.run_cons_of_step _ h₃, Machine.run_cons_of_step _ h₄, Machine.run_nil]
    have hD := derived_of_run ho hf (by omega) (by exact ⟨trivial, fun _ _ => ⟨trivial,
      fun _ _ => ⟨trivial, fun _ _ => ⟨trivial, fun _ _ => trivial⟩⟩⟩⟩) hrun
    obtain ⟨Ψ, N, hP, -, hL⟩ := hD.holds
    exact ⟨⟨[1, 2, 3], Ψ, hP, hL⟩, rfl, rfl, fun a ha => .inl ha⟩
  have hinv : ∀ x, (Cont.Op.group ℤ).inv x x = (Cont.Op.group ℤ).identity := sub_self
  obtain ⟨N, scanned, -, -, hN, he, -⟩ := resolve_scans_all hinv ho hf (by omega) hops hw
    (hwsz.trans hsz.symm) (show o.sz < 4 by omega) 10
  exact ⟨s.1, o, w, N, scanned, ho, hw, hN, he⟩

end

end Contentious
