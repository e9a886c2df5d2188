import Contentious.Common.SortedSet
import Mathlib.Tactic.Ring
import Mathlib.Tactic.Linarith

/-!
# Cont — blocks and index maps

A vector is split into one block for each of the `HWCONC` workers, and a
dependency maps the index read to the index written. `safe_mapping` cuts
such a map off at the ends of the vector: for an offset it gives the
index read, clamped, and the index written, which is always the offset
away (`safeMapping_offset`). What a worker reads outside its own block
lies in the windows at the block's two ends (`mem_windows_of_outside`),
and those are the indices a resolution looks at.
-/

namespace Contentious.Cont

/-- `partition(p, sz)`, with the ceiling of the quotient as the exact one
it is below `2 ^ 53`. -/
def partition (hwconc p sz : ℕ) : ℕ × ℕ :=
  let chunkSz := (sz + hwconc - 1) / hwconc
  (chunkSz * p, min (chunkSz * (p + 1)) sz)

/-- `imap_fp` -/
abbrev Imap := ℤ → ℤ

/-- `identity(i)` -/
def identity : Imap := fun i => i

/-- `offset<o>(i)` -/
def offset (o : ℤ) : Imap := fun i => i - o

/-- `alltoone<i>` -/
def alltoone (i : ℤ) : Imap := fun _ => i

/-- `is_monotonic(imap)` -/
def isMonotonic (imap : Imap) : Bool := imap 0 < imap 1

theorem isMonotonic_identity : isMonotonic identity = true := by decide

/-- `safe_mapping(imap, i, lo, hi)`: the index read and the index written -/
def safeMapping (imap : Imap) (i lo hi : ℤ) : ℤ × ℤ :=
  let imapped := imap i
  let o := i - imapped
  let idom := i + o
  let iran := i
  let (idom, iran) :=
    if idom < lo then (idom + (lo - idom), iran + (lo - idom)) else (idom, iran)
  if idom ≥ hi then (idom - (idom - hi), iran - (idom - hi)) else (idom, iran)

/-- **A vector and its workers**, none of which has an empty block. -/
structure Layout where
  hwconc : ℕ
  size : ℕ
  hwconc_pos : 0 < hwconc
  nonempty : ∀ p < hwconc, (partition hwconc p size).1 < (partition hwconc p size).2

namespace Layout

variable (lay : Layout)

/-- The ends `a` and `b` of a worker's block. -/
def a (p : ℕ) : ℤ := (partition lay.hwconc p lay.size).1

def b (p : ℕ) : ℤ := (partition lay.hwconc p lay.size).2

/-- The index lies in the block of `p`. -/
def InBlock (p : ℕ) (t : ℤ) : Prop := lay.a p ≤ t ∧ t < lay.b p

instance (p : ℕ) (t : ℤ) : Decidable (lay.InBlock p t) := inferInstanceAs (Decidable (_ ∧ _))

/-- The index is one of the vector's. -/
def InRange (t : ℤ) : Prop := 0 ≤ t ∧ t < lay.size

instance (t : ℤ) : Decidable (lay.InRange t) := inferInstanceAs (Decidable (_ ∧ _))

theorem a_nonneg (p : ℕ) : 0 ≤ lay.a p := Int.natCast_nonneg _

theorem b_le_size (p : ℕ) : lay.b p ≤ lay.size := by
  simp only [b, partition]
  have := min_le_right ((lay.size + lay.hwconc - 1) / lay.hwconc * (p + 1)) lay.size
  omega

variable {lay} {p q : ℕ} {t c o : ℤ}

theorem a_lt_b (hp : p < lay.hwconc) : lay.a p < lay.b p := by
  have := lay.nonempty p hp
  simp only [a, b]
  omega

theorem size_pos : 0 < lay.size := by
  have h1 := a_lt_b lay.hwconc_pos
  have h2 := lay.a_nonneg 0
  have h3 := lay.b_le_size 0
  omega

theorem InBlock.inRange (h : lay.InBlock p t) : lay.InRange t := by
  have := lay.a_nonneg p
  have := lay.b_le_size p
  exact ⟨by have := h.1; omega, by have := h.2; omega⟩

variable (lay) in
/-- `chunk_sz` -/
def chunk : ℕ := (lay.size + lay.hwconc - 1) / lay.hwconc

theorem inBlock_natCast {n : ℕ} :
    lay.InBlock p n ↔ n / lay.chunk = p ∧ 0 < lay.chunk ∧ n < lay.size := by
  have hmem : lay.InBlock p n ↔
      lay.chunk * p ≤ n ∧ n < lay.chunk * (p + 1) ∧ n < lay.size := by
    simp only [InBlock, a, b, partition, chunk, Nat.cast_le, Nat.cast_lt, lt_min_iff]
  rw [hmem]
  constructor
  · rintro ⟨h1, h2, h3⟩
    have hpos : 0 < lay.chunk := Nat.pos_of_ne_zero fun h0 => by rw [h0] at h2; omega
    exact ⟨Nat.div_eq_of_lt_le (by rw [Nat.mul_comm]; exact h1) (by rw [Nat.mul_comm]; exact h2),
      hpos, h3⟩
  · rintro ⟨rfl, hpos, h3⟩
    exact ⟨Nat.mul_div_le n _, Nat.lt_mul_div_succ n hpos, h3⟩

/-- The blocks reach to the end. -/
theorem size_le : lay.size ≤ lay.hwconc * lay.chunk := by
  have h1 := Nat.div_add_mod (lay.size + lay.hwconc - 1) lay.hwconc
  have h2 := Nat.mod_lt (lay.size + lay.hwconc - 1) lay.hwconc_pos
  have h3 := lay.hwconc_pos
  rw [← chunk] at h1
  omega

/-- The block that reaches the end is the last one. -/
theorem eq_last (hp : p < lay.hwconc) (hb : lay.b p = lay.size) : p + 1 = lay.hwconc := by
  by_contra hne
  have hlt := a_lt_b (show p + 1 < lay.hwconc by omega)
  have hle := lay.b_le_size (p + 1)
  have hmin : lay.b p ≤ lay.a (p + 1) := by
    simp only [a, b, partition]
    exact_mod_cast min_le_left _ _
  omega

/-- Among several, that starts in the second half. -/
theorem size_le_two_mul (h : 2 ≤ lay.hwconc) (hp : p + 1 = lay.hwconc) :
    lay.size ≤ 2 * (lay.a p).toNat := by
  have hsize := lay.size_le
  have ha : (lay.a p).toNat = lay.chunk * p := rfl
  obtain ⟨q, rfl⟩ : ∃ q, p = q + 1 := ⟨p - 1, by omega⟩
  have hmul : (q + 2) * lay.chunk = q * lay.chunk + 2 * lay.chunk := Nat.add_mul ..
  have hq : lay.chunk * (q + 1) = q * lay.chunk + lay.chunk := by ring
  rw [← hp, hmul] at hsize
  rw [ha, hq]
  omega

/-- **Every index lies in a block**, -/
theorem exists_block (ht : lay.InRange t) : ∃ p < lay.hwconc, lay.InBlock p t := by
  obtain ⟨n, rfl⟩ := Int.eq_ofNat_of_zero_le ht.1
  have hn : n < lay.size := Int.ofNat_lt.1 ht.2
  have hpos : 0 < lay.chunk := Nat.pos_of_ne_zero fun h0 => by
    have := lay.size_le
    rw [h0] at this
    omega
  refine ⟨n / lay.chunk, ?_, inBlock_natCast.2 ⟨rfl, hpos, hn⟩⟩
  exact (Nat.div_lt_iff_lt_mul hpos).2 (lt_of_lt_of_le hn lay.size_le)

/-- **and in one only.** -/
theorem block_unique (hp : lay.InBlock p t) (hq : lay.InBlock q t) : p = q := by
  obtain ⟨n, rfl⟩ := Int.eq_ofNat_of_zero_le hp.inRange.1
  rw [← (inBlock_natCast.1 hp).1, (inBlock_natCast.1 hq).1]

/-- The search for the block of an index, which keeps what it started
with where there is none: a loop over all blocks. -/
def owner (lay : Layout) (t : ℤ) (p : ℕ) : ℕ :=
  (List.range lay.hwconc).foldl (fun p pi => if t ≥ lay.a pi ∧ t < lay.b pi then pi else p) p

/-- **The search finds the block.** -/
theorem owner_eq (hq : q < lay.hwconc) (h : lay.InBlock q t) : lay.owner t p = q := by
  have hfold : ∀ (l : List ℕ) (p : ℕ), q ∈ l ∨ p = q →
      l.foldl (fun p pi => if t ≥ lay.a pi ∧ t < lay.b pi then pi else p) p = q := by
    intro l
    induction l with
    | nil => intro p hp; exact hp.resolve_left List.not_mem_nil
    | cons r l ih =>
      intro p hp
      rw [List.foldl_cons]
      by_cases hr : t ≥ lay.a r ∧ t < lay.b r
      · rw [if_pos hr]
        exact ih r (.inr (block_unique ⟨hr.1, hr.2⟩ h))
      · rw [if_neg hr]
        refine ih p ?_
        rcases hp with hp | hp
        · rcases List.mem_cons.1 hp with rfl | hp
          · exact absurd ⟨h.1, h.2⟩ hr
          · exact .inl hp
        · exact .inr hp
  exact hfold _ p (.inl (List.mem_range.2 hq))

end Layout

/-! ## Offsets -/

/-- An index held within the vector. -/
def clamp (size : ℕ) (i : ℤ) : ℤ := min (max i 0) size

/-- **`safe_mapping` of an offset**: the index read is clamped, and the
one written is the offset away from it. -/
theorem safeMapping_offset (o i : ℤ) (size : ℕ) :
    safeMapping (offset o) i 0 size = (clamp size (i + o), clamp size (i + o) - o) := by
  have hidom : i + (i - (i - o)) = i + o := by ring
  simp only [safeMapping, offset, hidom, clamp]
  split <;> split <;> simp only [Prod.mk.injEq] <;> omega

theorem identity_eq_offset : identity = offset 0 := by
  funext i
  simp [identity, offset]

/-! ## Windows -/

/-- The loops of `resolve_monotonic` over the workers that collect
`icontended`: the indices between the block's end and what is read there,
at both ends. -/
def windows (lay : Layout) (imap : Imap) : SortedSet ℤ :=
  (List.range lay.hwconc).foldl (fun icontended p =>
    let (adom, aran) := safeMapping imap (lay.a p) 0 lay.size
    let (bdom, bran) := safeMapping imap (lay.b p) 0 lay.size
    let icontended := icontended.insertAll (fun k : ℕ => adom + k) (List.range (aran - adom).toNat)
    icontended.insertAll (fun k : ℕ => bran + k) (List.range (bdom - bran).toNat)) .empty

variable {lay : Layout} {p : ℕ} {t c o : ℤ}

theorem mem_insertAll_range {s : SortedSet ℤ} {lo hi : ℤ} :
    c ∈ s.insertAll (fun k : ℕ => lo + k) (List.range (hi - lo).toNat) ↔
      c ∈ s ∨ lo ≤ c ∧ c < hi := by
  rw [SortedSet.mem_insertAll]
  refine or_congr_right ⟨?_, fun h => ⟨(c - lo).toNat, ?_, ?_⟩⟩
  · rintro ⟨k, hk, rfl⟩
    have := List.mem_range.1 hk
    omega
  · rw [List.mem_range]; omega
  · omega

/-- What the windows of an offset hold. -/
theorem mem_windows : c ∈ windows lay (offset o) ↔ ∃ p < lay.hwconc,
    clamp lay.size (lay.a p + o) ≤ c ∧ c < clamp lay.size (lay.a p + o) - o ∨
      clamp lay.size (lay.b p + o) - o ≤ c ∧ c < clamp lay.size (lay.b p + o) := by
  have hfold : ∀ (l : List ℕ) (s : SortedSet ℤ),
      c ∈ l.foldl (fun icontended p =>
        let (adom, aran) := safeMapping (offset o) (lay.a p) 0 lay.size
        let (bdom, bran) := safeMapping (offset o) (lay.b p) 0 lay.size
        let icontended := icontended.insertAll (fun k : ℕ => adom + k)
          (List.range (aran - adom).toNat)
        icontended.insertAll (fun k : ℕ => bran + k) (List.range (bdom - bran).toNat)) s ↔
      c ∈ s ∨ ∃ p ∈ l,
        clamp lay.size (lay.a p + o) ≤ c ∧ c < clamp lay.size (lay.a p + o) - o ∨
          clamp lay.size (lay.b p + o) - o ≤ c ∧ c < clamp lay.size (lay.b p + o) := by
    intro l
    induction l with
    | nil => simp
    | cons q l ih =>
      intro s
      rw [List.foldl_cons, ih]
      simp only [safeMapping_offset, mem_insertAll_range, List.exists_mem_cons_iff, or_assoc]
  rw [windows, hfold]
  simp only [SortedSet.not_mem_empty, false_or, List.mem_range]

/-- **What is read outside the block lies in the windows.** -/
theorem mem_windows_of_outside (hp : p < lay.hwconc) (ht : lay.InBlock p t)
    (hc : lay.InRange (t + o))
    (hout : ¬ lay.InBlock p (t + o)) : t + o ∈ windows lay (offset o) := by
  rw [mem_windows]
  refine ⟨p, hp, ?_⟩
  obtain ⟨h1, h2⟩ := ht
  obtain ⟨h3, h4⟩ := hc
  have h5 := lay.a_nonneg p
  have h6 := lay.b_le_size p
  have h7 : t + o < lay.a p ∨ lay.b p ≤ t + o := by
    by_contra h
    exact hout ⟨by omega, by omega⟩
  simp only [clamp]
  omega

/-- The identity reads nothing outside a block. -/
theorem windows_identity : (windows lay identity).elems = [] := by
  refine List.eq_nil_iff_forall_not_mem.2 fun c hc => ?_
  rw [identity_eq_offset] at hc
  obtain ⟨p, -, hc⟩ := mem_windows.1 hc
  omega

/-- The windows lie within the vector. -/
theorem inRange_of_mem_windows (hc : c ∈ windows lay (offset o)) (ho : -1 ≤ o) (ho' : o ≤ 1) :
    lay.InRange c := by
  obtain ⟨p, hp, hc⟩ := mem_windows.1 hc
  have h1 := Layout.a_lt_b hp
  have h2 := lay.a_nonneg p
  have h3 := lay.b_le_size p
  simp only [clamp] at hc
  constructor <;> omega

/-- **No window of a short offset leads past the end**, in a vector of
two elements at least. -/
theorem target_lt_of_mem_windows (hc : c ∈ windows lay (offset o)) (ho : -1 ≤ o) (ho' : o ≤ 1)
    (hsize : 2 ≤ lay.size) : c - o < lay.size := by
  obtain ⟨p, hp, hc⟩ := mem_windows.1 hc
  have h1 := Layout.a_lt_b hp
  have h2 := lay.a_nonneg p
  have h3 := lay.b_le_size p
  simp only [clamp] at hc
  omega

end Contentious.Cont
