import Mathlib.Data.List.GetD

/-!
# Splice — a range of one list put into another

`splice L M a c` is `L` with the elements of `M` at the indices from `a`
up to `c`. Ranges that follow one another splice as one
(`splice_splice`).
-/

variable {α : Type*}

/-- `L`, with the elements of `M` at the indices of `[a, c)`. -/
def splice (L M : List α) (a c : ℕ) : List α :=
  L.mapIdx fun i x => if a ≤ i ∧ i < c then M.getD i x else x

variable {L M : List α} {a c e i : ℕ}

@[simp] theorem length_splice : (splice L M a c).length = L.length := by
  rw [splice, List.length_mapIdx]

/-- **In the range it is the one list, elsewhere the other.** -/
theorem getElem_splice (hi : i < L.length) (hi' : i < (splice L M a c).length) :
    (splice L M a c)[i] = if a ≤ i ∧ i < c then M.getD i L[i] else L[i] := by
  simp only [splice, List.getElem_mapIdx]

/-- Nothing is spliced over no range, -/
theorem splice_of_le (h : c ≤ a) : splice L M a c = L := by
  refine List.ext_getElem length_splice fun i h1 h2 => ?_
  rw [getElem_splice h2, if_neg (by omega)]

/-- a range and the one that follows it splice as one, -/
theorem splice_splice (hac : a ≤ c) (hce : c ≤ e) :
    splice (splice L M a c) M c e = splice L M a e := by
  refine List.ext_getElem (by simp) fun i h1 h2 => ?_
  have hL : i < L.length := by simpa using h2
  rw [getElem_splice (by simpa using hL), getElem_splice hL, getElem_splice hL]
  by_cases hi : c ≤ i
  · have hno : ¬ (a ≤ i ∧ i < c) := fun h => absurd h.2 (Nat.not_lt.2 hi)
    rw [if_neg hno]
    congr 1
    apply propext
    omega
  · rw [if_neg fun h => hi h.1]
    congr 1
    apply propext
    omega

/-- and so do a range and the element after it. -/
theorem splice_succ (hac : a ≤ c) (hc : c < M.length) :
    (splice L M a c).set c M[c] = splice L M a (c + 1) := by
  refine List.ext_getElem (by simp) fun i h1 h2 => ?_
  have hL : i < L.length := by simpa using h2
  rw [List.getElem_set, getElem_splice hL, getElem_splice hL]
  split
  · next heq =>
    subst heq
    rw [if_pos ⟨hac, Nat.lt_succ_self c⟩, List.getD_eq_getElem _ _ hc]
  · next hne =>
    congr 1
    apply propext
    omega
