import Contentious.Trie.Diff

/-!
# Trie — the next difference

`next_diff_ids` from an index that is not the first of the node it jumps
over. The jump lands as far into the next node as the index was into this
one, and a difference before that is missed. So it returns the next index
with no node of one id above it only from where the scan lands
(`Prune.Lands`), as it always does from the first index of a shared node.
-/

namespace Contentious

open BpVector

variable [K : BpBits] {T : Type} {h : Heap T} {v w : BpVector} {L N : List T}

/-- **`next_diff_ids` from any index** comes to an end; and it returns the
next index on whose path no node has the id of the other's, past equal
elements only, just when the distance of the index from the first of its
widest shared node is taken up by the shared nodes up to there. -/
theorem nextDiffIds_first_iff (hv : Represents h v L) (hw : Represents h w N)
    (hsz : w.sz = v.sz) (hlev : w.levels = v.levels) (hsmall : v.sz < 2 ^ 31)
    (hnode : SameNode h v w) (i : ℕ) :
    ∃ r : BitVec 32, (∀ rounds, v.sz - i < rounds → nextDiffIds h v w rounds i = .ok r) ∧
      (Prune.First (SameId h v w) v.sz i (ofInt32 r) ∧
          (∀ j, i ≤ j → j < ofInt32 r → v.at' h j = w.at' h j) ↔
        Prune.Lands bpWidth (SameId h v w) v.sz i) := by
  obtain ⟨Ψ, -, hv⟩ := hv
  obtain ⟨Ψ', -, hw⟩ := hw
  have hsize := hv.size
  have hsize' := hw.size
  have hB : ∀ i l, SameId h v w i l → l ≤ v.levels := fun _ _ hs => hs.1
  obtain ⟨r, hr, hres⟩ :=
    nextDiffIds_stops hv hw hlev (by omega) (hv.capacity_small hsmall) hsmall i
  have hle := hr.le
  have hfirst := hr.first_iff bpWidth_pos (SameId.ofBlock h v w) hB
  refine ⟨BitVec.ofNat 32 r, hres, ?_⟩
  rw [ofInt32_ofNat (by omega), ← hfirst]
  refine ⟨And.left, fun hf => ⟨hf, fun j h1 h2 => ?_⟩⟩
  have hj : ∃ l, SameId h v w j l := hf.skips hle h1 h2
  obtain ⟨l, hl⟩ := hj
  rw [hv.at_eq, hw.at_eq, dif_pos (by omega), dif_pos (by omega),
    hnode.value_eq hv hw hlev (by omega) (by omega) hl]

omit K in
/-- Over arrays of two, a vector of four and one that differs from it in the
third, as they are when its second leaf is written. -/
theorem exists_third_written :
    letI := oneBit
    ∃ (h : Heap ℤ) (v w : BpVector) (N : List ℤ), Represents h v [1, 2, 3, 4] ∧ Represents h w N ∧
      v.sz = 4 ∧ w.sz = 4 ∧ w.levels = v.levels ∧ SameNode h v w ∧
      nextDiffIds h v w 5 1 = .ok 3 ∧ v.at' h 2 = .ok 3 ∧ w.at' h 2 = .ok 9 := by
  let _ := oneBit
  obtain ⟨s, o, -, hs, hv, -, ho, -⟩ := Ps.exists_pair (i := 4) (j := 4) (L := [1, 2, 3, 4])
    (M := [1, 2, 3, 4]) [.new, .pushBack 0 (1 : ℤ), .pushBack 1 2, .pushBack 2 3, .pushBack 3 4]
    [[], [1], [1, 2], [1, 2, 3], [1, 2, 3, 4]] (by decide +kernel) rfl rfl
  have hval : ((Ps.code ℤ).run (Heap.empty, []) [.new, .pushBack 0 1, .pushBack 1 2, .pushBack 2 3,
      .pushBack 3 4]).bind (fun s => s.2[4]?.bind fun o =>
        ((Tr.writes ℤ).run ⟨s.1, Tr.withId o 8, []⟩ [.mutSet 2 9]).map fun w =>
          (decide (∀ a < s.1.next, (s.1.cell a).id = 0),
            nextDiffIds w.heap (Tr.withId o 7) w.t 5 1, (Tr.withId o 7).at' w.heap 2,
            w.t.at' w.heap 2)) = some (true, .ok 3, .ok 3, .ok 9) := by
    decide +kernel
  rw [hs, Option.bind_some, hv, Option.bind_some] at hval
  obtain ⟨w, hw, hval⟩ := Option.map_eq_some_iff.1 hval
  simp only [Prod.mk.injEq, decide_eq_true_eq] at hval
  obtain ⟨hid, hnext, hat, hat'⟩ := hval
  have hf : Foreign s.1 o.root 8 := fun a ha => by
    obtain ⟨Ψ, hP, hh⟩ := ho
    rw [hid a (hP.reach_lt hh.root_lt ha)]
    decide
  have hsz : o.sz = 4 := by
    obtain ⟨Ψ, -, hh⟩ := ho
    exact hh.size
  have hD := derived_of_run ho hf (by omega) (by exact ⟨trivial, fun _ _ => trivial⟩) hw
  obtain ⟨Ψ, N, hP, hN, hL⟩ := hD.holds
  have hL' : Holds w.heap Ψ (Tr.withId o 7) [1, 2, 3, 4] := hL.withId 7
  exact ⟨w.heap, Tr.withId o 7, w.t, N, ⟨Ψ, hP, hL'⟩, ⟨Ψ, hP, hN⟩, hsz, hD.sz_eq.trans hsz,
    hD.levels_eq, hD.kindred.sameNode hP hL hN hD.levels_eq hD.sz_eq, hnext, hat, hat'⟩

omit K in
/-- From the second index of the shared leaf, it finds the fourth index; -/
theorem nextDiffIds_passes_third :
    letI := oneBit
    ∃ (h : Heap ℤ) (v w : BpVector) (L N : List ℤ), Represents h v L ∧ Represents h w N ∧
      w.sz = v.sz ∧ w.levels = v.levels ∧ v.sz < 2 ^ 31 ∧ SameNode h v w ∧
      nextDiffIds h v w 5 1 = .ok 3 ∧ v.at' h 2 ≠ w.at' h 2 := by
  obtain ⟨h, v, w, N, hv, hw, hsz, hsz', hlev, hnode, hnext, hat, hat'⟩ := exists_third_written
  refine ⟨h, v, w, _, N, hv, hw, by omega, hlev, by omega, hnode, hnext, ?_⟩
  rw [hat, hat']
  decide

omit K in
/-- from the first, the third. -/
theorem nextDiffIds_first_iff_zero :
    letI := oneBit
    ∃ (h : Heap ℤ) (v w : BpVector) (r : BitVec 32), (∀ rounds, 4 - 0 < rounds →
        nextDiffIds h v w rounds 0 = .ok r) ∧
      Prune.First (SameId h v w) 4 0 (ofInt32 r) ∧ w.at' h 2 = .ok 9 := by
  let _ := oneBit
  obtain ⟨h, v, w, N, hv, hw, hsz, hsz', hlev, hnode, -, -, hat⟩ := exists_third_written
  obtain ⟨r, hr, hiff⟩ := nextDiffIds_first_iff hv hw (by omega) hlev (by omega) hnode 0
  have hlands := Prune.aligned_zero.lands (n := v.sz) bpWidth_pos (SameId.ofBlock h v w)
    fun _ _ hs => hs.1
  rw [hsz] at hr hiff hlands
  exact ⟨h, v, w, r, hr, (hiff.2 hlands).1, hat⟩

end Contentious
