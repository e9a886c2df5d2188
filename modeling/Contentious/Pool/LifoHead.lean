import Mathlib.Tactic.Ring

/-!
# Pool — the head of a semaphore

`LifoSemHead` is one word of 64 bits that a semaphore swaps as a whole: a
number of 32, the value or the index of the first waiter's node; whether it
is an index; whether the semaphore is shut down; and 30 bits that count, up
to wraparound, how often the word was changed other than by a push. The
operations are arithmetic on the word, which lets one field run over into
the next where it is meant to, and nowhere else.
-/

namespace Contentious.Pool

/-- `LifoSemHead` -/
structure LifoSemHead where
  bits : BitVec 64
deriving DecidableEq

namespace LifoSemHead

/-- `IsNodeIdxMask` -/
def isNodeIdxMask : BitVec 64 := 1 <<< 32

/-- `IsShutdownMask` -/
def isShutdownMask : BitVec 64 := 1 <<< 33

/-- `SeqIncr` -/
def seqIncr : BitVec 64 := 1 <<< 34

/-- `SeqMask` -/
def seqMask : BitVec 64 := ~~~(seqIncr - 1)

variable (h : LifoSemHead)

/-- `uint32_t(bits)`, what `idx()` and `value()` return. -/
def data : BitVec 32 := h.bits.setWidth 32

def isNodeIdx : Bool := (h.bits &&& isNodeIdxMask) != 0

def isShutdown : Bool := (h.bits &&& isShutdownMask) != 0

def seq : BitVec 32 := (h.bits >>> 34).setWidth 32

def fresh (value : BitVec 32) : LifoSemHead := ⟨value.setWidth 64⟩

def withPop (idxNext : BitVec 32) : LifoSemHead :=
  if idxNext = 0 then ⟨(h.bits &&& (seqMask ||| isShutdownMask)) + seqIncr⟩
  else ⟨(h.bits &&& (seqMask ||| isShutdownMask ||| isNodeIdxMask)) + seqIncr + idxNext.setWidth 64⟩

def withPush (idx : BitVec 32) : LifoSemHead :=
  ⟨(h.bits &&& seqMask) ||| isNodeIdxMask ||| idx.setWidth 64⟩

def withValueIncr (delta : BitVec 32) : LifoSemHead :=
  let rv : LifoSemHead := ⟨h.bits + seqIncr + delta.setWidth 64⟩
  if rv.isNodeIdx then ⟨(rv.bits &&& ~~~isNodeIdxMask) ||| (isNodeIdxMask - 1)⟩ else rv

def withValueDecr (delta : BitVec 32) : LifoSemHead := ⟨h.bits + seqIncr - delta.setWidth 64⟩

def withShutdown : LifoSemHead := ⟨h.bits ||| isShutdownMask⟩

/-! ## The fields of the word -/

variable {h} {q q' : BitVec 30} {s s' n n' : Bool} {d d' : BitVec 32}

/-- The word with these fields. -/
def pack (q : BitVec 30) (s n : Bool) (d : BitVec 32) : BitVec 64 :=
  q ++ BitVec.ofBool s ++ BitVec.ofBool n ++ d

theorem toNat_pack :
    (pack q s n d).toNat = q.toNat * 2 ^ 34 + s.toNat * 2 ^ 33 + n.toNat * 2 ^ 32 + d.toNat := by
  unfold pack
  have hs := Bool.toNat_lt s
  have hn := Bool.toNat_lt n
  have hd := d.isLt
  rw [BitVec.toNat_append, BitVec.toNat_append, BitVec.toNat_append, BitVec.toNat_ofBool,
    BitVec.toNat_ofBool, ← Nat.shiftLeft_add_eq_or_of_lt (by omega),
    ← Nat.shiftLeft_add_eq_or_of_lt (by omega), ← Nat.shiftLeft_add_eq_or_of_lt (by omega)]
  simp only [Nat.shiftLeft_eq]
  omega

theorem pack_and :
    pack q s n d &&& pack q' s' n' d' = pack (q &&& q') (s && s') (n && n') (d &&& d') := by
  unfold pack
  rw [BitVec.and_append, BitVec.and_append, BitVec.and_append, BitVec.ofBool_and_ofBool,
    BitVec.ofBool_and_ofBool]

theorem pack_or :
    pack q s n d ||| pack q' s' n' d' = pack (q ||| q') (s || s') (n || n') (d ||| d') := by
  unfold pack
  rw [BitVec.or_append, BitVec.or_append, BitVec.or_append, BitVec.ofBool_or_ofBool,
    BitVec.ofBool_or_ofBool]

/-- Every word has these fields. -/
theorem exists_pack (x : BitVec 64) : ∃ q s n d, x = pack q s n d := by
  refine ⟨(x >>> 34).setWidth 30, (x.toNat / 2 ^ 33 % 2 == 1), (x.toNat / 2 ^ 32 % 2 == 1),
    x.setWidth 32, BitVec.eq_of_toNat_eq ?_⟩
  have hbit : ∀ m, (m % 2 == 1).toNat = m % 2 := by
    intro m
    rcases Nat.mod_two_eq_zero_or_one m with h | h <;> rw [h] <;> rfl
  rw [toNat_pack, hbit, hbit, BitVec.toNat_setWidth, BitVec.toNat_setWidth,
    BitVec.toNat_ushiftRight, Nat.shiftRight_eq_div_pow]
  have := x.isLt
  omega

/-! ## What is read off it -/

theorem isNodeIdx_pack : isNodeIdx ⟨pack q s n d⟩ = n := by
  have hmask : isNodeIdxMask = pack 0#30 false true 0#32 := by decide
  unfold isNodeIdx
  rw [hmask, pack_and, BitVec.and_zero, BitVec.and_zero, Bool.and_false, Bool.and_true]
  cases n
  · decide
  · decide

theorem isShutdown_pack : isShutdown ⟨pack q s n d⟩ = s := by
  have hmask : isShutdownMask = pack 0#30 true false 0#32 := by decide
  unfold isShutdown
  rw [hmask, pack_and, BitVec.and_zero, BitVec.and_zero, Bool.and_false, Bool.and_true]
  cases s
  · decide
  · decide

theorem data_pack : data ⟨pack q s n d⟩ = d := by
  apply BitVec.eq_of_toNat_eq
  unfold data
  rw [BitVec.toNat_setWidth, toNat_pack]
  have := d.isLt
  omega

theorem seq_pack : (seq ⟨pack q s n d⟩).toNat = q.toNat := by
  unfold seq
  rw [BitVec.toNat_setWidth, BitVec.toNat_ushiftRight, Nat.shiftRight_eq_div_pow, toNat_pack]
  have hq := q.isLt
  have hs := Bool.toNat_lt s
  have hn := Bool.toNat_lt n
  have hd := d.isLt
  omega

/-! ## What is made of it -/

theorem pack_add_seqIncr : pack q s n d + seqIncr = pack (q + 1) s n d := by
  apply BitVec.eq_of_toNat_eq
  have hincr : seqIncr.toNat = 2 ^ 34 := by decide
  have hone : (1 : BitVec 30).toNat = 1 := by decide
  have hq := q.isLt
  have hs := Bool.toNat_lt s
  have hn := Bool.toNat_lt n
  have hd := d.isLt
  rw [BitVec.toNat_add, toNat_pack, toNat_pack, BitVec.toNat_add, hincr, hone]
  omega

/-- A number is added that the data have room for, or that runs over into
the bit of an index. -/
theorem pack_add (i : BitVec 32) :
    pack q s false d + i.setWidth 64 =
      pack q s (decide (2 ^ 32 ≤ d.toNat + i.toNat)) (d + i) := by
  apply BitVec.eq_of_toNat_eq
  have hq := q.isLt
  have hs := Bool.toNat_lt s
  have hd := d.isLt
  have hi := i.isLt
  rw [BitVec.toNat_add, toNat_pack, toNat_pack, BitVec.toNat_add, BitVec.toNat_setWidth]
  by_cases hle : 2 ^ 32 ≤ d.toNat + i.toNat
  · rw [decide_eq_true hle]
    simp only [Bool.toNat_true, Bool.toNat_false]
    omega
  · rw [decide_eq_false hle]
    simp only [Bool.toNat_false]
    omega

theorem pack_add_idx (i : BitVec 32) :
    pack q s n 0#32 + i.setWidth 64 = pack q s n i := by
  apply BitVec.eq_of_toNat_eq
  have hq := q.isLt
  have hs := Bool.toNat_lt s
  have hn := Bool.toNat_lt n
  have hi := i.isLt
  rw [BitVec.toNat_add, toNat_pack, toNat_pack, BitVec.toNat_setWidth, BitVec.toNat_zero]
  omega

theorem pack_sub {i : BitVec 32} (h : i.toNat ≤ d.toNat) :
    pack q s n d - i.setWidth 64 = pack q s n (d - i) := by
  apply BitVec.eq_of_toNat_eq
  have hq := q.isLt
  have hs := Bool.toNat_lt s
  have hn := Bool.toNat_lt n
  have hd := d.isLt
  have hi := i.isLt
  rw [BitVec.toNat_sub, toNat_pack, toNat_pack, BitVec.toNat_sub, BitVec.toNat_setWidth]
  omega

theorem withPop_pack (i : BitVec 32) :
    withPop ⟨pack q s true d⟩ i = ⟨pack (q + 1) s (i != 0) i⟩ := by
  unfold withPop
  split
  · next hi =>
    have hmask : seqMask ||| isShutdownMask = pack (BitVec.allOnes 30) true false 0#32 := by decide
    rw [hmask, pack_and, BitVec.and_allOnes, pack_add_seqIncr, hi]
    simp
  · next hi =>
    have hmask : seqMask ||| isShutdownMask ||| isNodeIdxMask =
        pack (BitVec.allOnes 30) true true 0#32 := by decide
    have hne : (i != 0) = true := bne_iff_ne.2 hi
    rw [hmask, pack_and, BitVec.and_allOnes, pack_add_seqIncr, BitVec.and_zero, pack_add_idx, hne]
    simp

theorem withPush_pack (i : BitVec 32) :
    withPush ⟨pack q s n d⟩ i = ⟨pack q false true i⟩ := by
  have hmask : seqMask = pack (BitVec.allOnes 30) false false 0#32 := by decide
  have hidx : isNodeIdxMask = pack 0#30 false true 0#32 := by decide
  have hi : i.setWidth 64 = pack 0#30 false false i := by
    apply BitVec.eq_of_toNat_eq
    rw [toNat_pack, BitVec.toNat_setWidth]
    have := i.isLt
    simp
    omega
  unfold withPush
  rw [hmask, hidx, hi, pack_and, BitVec.and_allOnes, pack_or, pack_or]
  simp

/-- The value saturates. -/
theorem withValueIncr_pack (k : BitVec 32) :
    withValueIncr ⟨pack q s false d⟩ k =
      ⟨pack (q + 1) s false (if 2 ^ 32 ≤ d.toNat + k.toNat then BitVec.allOnes 32 else d + k)⟩ := by
  unfold withValueIncr
  dsimp only
  rw [pack_add_seqIncr, pack_add, isNodeIdx_pack]
  by_cases hle : 2 ^ 32 ≤ d.toNat + k.toNat
  · have hmask : ~~~isNodeIdxMask = pack (BitVec.allOnes 30) true false (BitVec.allOnes 32) := by
      decide
    have hones : isNodeIdxMask - 1 = pack 0#30 false false (BitVec.allOnes 32) := by decide
    rw [decide_eq_true hle, if_pos rfl, if_pos hle, hmask, hones, pack_and, BitVec.and_allOnes,
      BitVec.and_allOnes, pack_or, BitVec.or_zero, BitVec.or_allOnes]
    simp only [Bool.and_true, Bool.or_false, Bool.and_false]
  · rw [decide_eq_false hle, if_neg (by simp), if_neg hle]

theorem withValueDecr_pack {k : BitVec 32} (hk : k.toNat ≤ d.toNat) :
    withValueDecr ⟨pack q s n d⟩ k = ⟨pack (q + 1) s n (d - k)⟩ := by
  unfold withValueDecr
  rw [pack_add_seqIncr, pack_sub hk]

theorem withShutdown_pack : withShutdown ⟨pack q s n d⟩ = ⟨pack q true n d⟩ := by
  have hmask : isShutdownMask = pack 0#30 true false 0#32 := by decide
  unfold withShutdown
  rw [hmask, pack_or]
  simp

/-! ## What an operation does to the fields -/

theorem exists_eq_pack (h : LifoSemHead) : ∃ q s n d, h = ⟨pack q s n d⟩ := by
  obtain ⟨q, s, n, d, hp⟩ := exists_pack h.bits
  exact ⟨q, s, n, d, by rw [← hp]⟩

theorem seq_succ (q : BitVec 30) : (q + 1).toNat = (q.toNat + 1) % 2 ^ 30 := BitVec.toNat_add q 1

theorem fresh_spec (v : BitVec 32) :
    (fresh v).isNodeIdx = false ∧ (fresh v).data = v ∧ (fresh v).isShutdown = false ∧
      (fresh v).seq.toNat = 0 := by
  have hv : fresh v = ⟨pack 0#30 false false v⟩ := by
    have hzero : pack 0#30 false false 0#32 = 0#64 := by decide
    unfold fresh
    rw [← pack_add_idx, hzero, BitVec.zero_add]
  rw [hv]
  exact ⟨isNodeIdx_pack, data_pack, isShutdown_pack, seq_pack⟩

theorem withPop_spec (hn : h.isNodeIdx = true) (i : BitVec 32) :
    (h.withPop i).isNodeIdx = (i != 0) ∧ (h.withPop i).data = i ∧
      (h.withPop i).isShutdown = h.isShutdown ∧
      (h.withPop i).seq.toNat = (h.seq.toNat + 1) % 2 ^ 30 := by
  obtain ⟨q, s, n, d, rfl⟩ := h.exists_eq_pack
  rw [isNodeIdx_pack] at hn
  subst hn
  simp only [withPop_pack, isNodeIdx_pack, data_pack, isShutdown_pack, seq_pack, seq_succ, and_self]

/-- A push leaves the count of changes as it is. -/
theorem withPush_spec (h : LifoSemHead) (i : BitVec 32) :
    (h.withPush i).isNodeIdx = true ∧ (h.withPush i).data = i ∧
      (h.withPush i).isShutdown = false ∧ (h.withPush i).seq.toNat = h.seq.toNat := by
  obtain ⟨q, s, n, d, rfl⟩ := h.exists_eq_pack
  simp only [withPush_pack, isNodeIdx_pack, data_pack, isShutdown_pack, seq_pack, and_self]

theorem withValueIncr_spec (hn : h.isNodeIdx = false) (k : BitVec 32) :
    (h.withValueIncr k).isNodeIdx = false ∧
      (h.withValueIncr k).data.toNat = min (h.data.toNat + k.toNat) (2 ^ 32 - 1) ∧
      (h.withValueIncr k).isShutdown = h.isShutdown ∧
      (h.withValueIncr k).seq.toNat = (h.seq.toNat + 1) % 2 ^ 30 := by
  obtain ⟨q, s, n, d, rfl⟩ := h.exists_eq_pack
  rw [isNodeIdx_pack] at hn
  subst hn
  simp only [withValueIncr_pack, isNodeIdx_pack, data_pack, isShutdown_pack, seq_pack, seq_succ,
    true_and, and_true]
  split
  · rw [BitVec.toNat_allOnes]
    omega
  · rw [BitVec.toNat_add]
    omega

theorem withValueDecr_spec (hn : h.isNodeIdx = false) {k : BitVec 32}
    (hk : k.toNat ≤ h.data.toNat) :
    (h.withValueDecr k).isNodeIdx = false ∧
      (h.withValueDecr k).data.toNat = h.data.toNat - k.toNat ∧
      (h.withValueDecr k).isShutdown = h.isShutdown ∧
      (h.withValueDecr k).seq.toNat = (h.seq.toNat + 1) % 2 ^ 30 := by
  obtain ⟨q, s, n, d, rfl⟩ := h.exists_eq_pack
  rw [isNodeIdx_pack] at hn
  rw [data_pack] at hk
  subst hn
  simp only [withValueDecr_pack hk, isNodeIdx_pack, data_pack, isShutdown_pack, seq_pack, seq_succ,
    true_and, and_true]
  rw [BitVec.toNat_sub]
  have := d.isLt
  omega

theorem withShutdown_spec (h : LifoSemHead) :
    h.withShutdown.isNodeIdx = h.isNodeIdx ∧ h.withShutdown.data = h.data ∧
      h.withShutdown.isShutdown = true ∧ h.withShutdown.seq.toNat = h.seq.toNat := by
  obtain ⟨q, s, n, d, rfl⟩ := h.exists_eq_pack
  simp only [withShutdown_pack, isNodeIdx_pack, data_pack, isShutdown_pack, seq_pack, and_self]

end LifoSemHead

end Contentious.Pool
