import Contentious.Common.Splice
import Contentious.Trie.Beside

/-!
# Trie — copying values between two vectors

The loops of `assign` over single values: a const iterator of the vector
that is read and a mutable one of the vector that is written move on side
by side, until one of them meets its end. Both stand at one position all
along (`Abreast`), and what has been passed is copied.
-/

namespace Contentious

open BpVector

variable [K : BpBits] {T : Type}
variable {h h' : Heap T} {Ψ Ψ' : Addr → Place} {a b c n p rounds : ℕ}
variable {v o : BpVector} {L M N : List T} {last : BpIterator} {s : Copying T}

/-- What the steps of the writer leave as it was: its own paths, and the
vector that is read. -/
structure Quiet (h h' : Heap T) (v o : BpVector) : Prop where
  keeps : Keeps (nodeCopy .tr v.id) h h'
  cell_eq : ∀ d, Reach h o.root d → h'.cell d = h.cell d

theorem Quiet.trans {h'' : Heap T} (q₁ : Quiet h h' v o) (q₂ : Quiet h' h'' v o) :
    Quiet h h'' v o where
  keeps := q₁.keeps.trans q₂.keeps
  cell_eq d hd := by
    have hd' : Reach h' o.root d := (reach_congr fun e he c => by rw [q₁.cell_eq e he]).2 hd
    rw [q₂.cell_eq d hd', q₁.cell_eq d hd]

namespace Beside

/-- Edits that keep the paths of the writer are such. -/
theorem quiet {Q : Id → Prop} {S : Addr → Prop} (hB : Beside h Ψ v L o M)
    (hk : Keeps (nodeCopy .tr v.id) h h') (he : Edits h.next (nodeCopy .tr v.id) Q S h h') :
    Quiet h h' v o :=
  ⟨hk, fun _ hd => hB.foreign.cell_eq hB.placed hB.source.root_lt he hd⟩

/-- **`begin() + p`** of the vector that is written. -/
theorem begin_add (hB : Beside h Ψ v L o M) (hsz : v.sz ≤ 2 ^ 63) (hp : p ≤ v.sz)
    (hp' : p < 2 ^ 63) :
    ∃ h₁ r' it₀ h' it Ψ', BpVector.begin h v = .ok (h₁, { v with root := r' }, it₀) ∧
      it₀.add h₁ p = .ok (h', it) ∧ Beside h' Ψ' { v with root := r' } L o M ∧
      it.At (nodeCopy .tr v.id) h' { v with root := r' } p ∧ Quiet h h' v o ∧
      (nodeCopy .tr v.id (h.cell v.root).id = false → r' = v.root) := by
  have hP := hB.placed
  have hv := hB.target
  obtain ⟨h₁, r', it₀, h', it, Ψ', he₁, he, hc, hv', hr⟩ := hv.begin_add hP hp hp' hsz
  -- both are edits under the writer's id
  obtain ⟨w, hit, hid⟩ := hP.scope.begin (N := fun _ => True) trivial hv.root_lt trivial he₁
  have m := hit.add (N := fun _ => True) hid (hP.scope.edits w.edits) trivial he
  have e := w.edits.trans m.edits
  exact ⟨h₁, r', it₀, h', it, Ψ', he₁, he, hB.moved hc.ext e hv', hc.stands,
    hB.quiet hc.keeps e, hr⟩

/-- **One value copied**: both iterators go one on. -/
theorem copyValue (hB : Beside s.heap Ψ v N o M) (hsz : v.sz ≤ 2 ^ 63) (hp : p < v.sz)
    (hpM : p < M.length)
    (hf : s.first.At copyNone s.heap o p) (hr : s.result.At (nodeCopy .tr v.id) s.heap v p) :
    ∃ t Ψ', BpVector.copyValue s = .ok t ∧
      Beside t.heap Ψ' v (N.set p M[p]) o M ∧
      t.first.At copyNone t.heap o (p + 1) ∧ t.result.At (nodeCopy .tr v.id) t.heap v (p + 1) ∧
      Quiet s.heap t.heap v o := by
  have hP := hB.placed
  have hv := hB.target
  have hpN : p < N.length := by rw [← hv.size]; exact hp
  have hderef := hf.deref hB.source hpM
  obtain ⟨h₁, hstore, hP₁, hv₁, hk₁, hn₁, -⟩ := hr.store hP hv hpN M[p]
  have e₁ : Edits s.heap.next (nodeCopy .tr v.id) (fun _ => True) (fun _ => True) s.heap h₁ :=
    (hr.held hP hv fun _ _ => trivial).store hstore
  have hq₁ := hB.quiet hk₁ e₁
  have hB₁ : Beside h₁ Ψ { v with root := v.root } (N.set p M[p]) o M := hB.rewritten hn₁.ge
    (fun _ _ => rfl) hP₁ hq₁.cell_eq hv₁
  have hr₁ := hr.keeps hP hv.root_lt hk₁
  have hf₁ := hf.of_reach hq₁.cell_eq
  obtain ⟨h₂, result, Ψ₂, hnext, hc⟩ := hr₁.nextOf (κ := .mutable) hP₁ hv₁ hp hsz
  have e₂ := (hr₁.held hP₁ hv₁ fun _ _ => trivial).next hr₁.id_eq hP₁.scope
    (N := fun _ => True) trivial hnext
  have hq₂ := hB₁.quiet hc.keeps e₂.edits
  have hB₂ : Beside h₂ Ψ₂ { v with root := v.root } (N.set p M[p]) o M :=
    hB₁.moved hc.ext e₂.edits (hv₁.of_ext hc.ext)
  obtain ⟨first, hcnext, hf₂⟩ := (hf₁.of_reach hq₂.cell_eq).cnext hc.ext.placed hB₂.source
    (by rw [hB.sz_eq]; exact hp) (by rw [hB.sz_eq]; exact hsz)
  refine ⟨⟨h₂, first, result⟩, Ψ₂, ?_, hB₂, hf₂, hc.stands, hq₁.trans hq₂⟩
  have hnext' : s.result.next h₁ = .ok (h₂, result) := hnext
  rw [BpVector.copyValue, hderef, Exec.ok_bind, hstore, Exec.ok_bind, hnext', Exec.ok_bind]
  dsimp only
  rw [hcnext, Exec.ok_bind]

end Beside

/-- **Both iterators at one position**, with `n` values to go up to `c`:
those from `a` on that were passed are copied. -/
structure Abreast (v o : BpVector) (L M : List T) (a c n : ℕ) (s : Copying T) : Prop where
  left_le : n ≤ c - a
  beside : ∃ Ψ, Beside s.heap Ψ v (splice L M a (c - n)) o M
  first_at : s.first.At copyNone s.heap o (c - n)
  result_at : s.result.At (nodeCopy .tr v.id) s.heap v (c - n)

/-- **The loop over values** copies them, if it stops where none is left.
`marks` is what the test that stops it relies on. -/
theorem Abreast.loop (hs : Abreast v o L M a c n s) (stop : Copying T → Bool)
    (marks : Heap T → Prop) (hsz : v.sz ≤ 2 ^ 63) (hac : a ≤ c) (hc : c ≤ v.sz) (hm : marks s.heap)
    (hkeep : ∀ h h' Ψ N, Beside h Ψ v N o M → marks h → Quiet h h' v o → marks h')
    (hstop : ∀ n s, n ≤ c → Abreast v o L M a c n s → marks s.heap → (stop s = false ↔ n = 0))
    (hrounds : n ≤ rounds) :
    ∃ t Ψ', loop .rounds stop BpVector.copyValue rounds s = .ok t ∧
      Beside t.heap Ψ' v (splice L M a c) o M := by
  have hn : n ≤ c := by
    have := hs.left_le
    omega
  obtain ⟨t, m, hloop, ⟨hm, hs, hmarks⟩, hdone⟩ := loop_counts Fault.rounds stop
    BpVector.copyValue
    (I := fun n s => n ≤ c ∧ Abreast v o L M a c n s ∧ marks s.heap)
    (fun n s ⟨hn, hs, hm⟩ hgo => by
      have hn0 : n ≠ 0 := fun h0 => by
        rw [(hstop n s hn hs hm).2 h0] at hgo
        exact nomatch hgo
      obtain ⟨hle, ⟨Ψ, hB⟩, hf, hr⟩ := hs
      have hcM : c - n < M.length := by
        have := hB.source.size
        have := hB.sz_eq
        omega
      obtain ⟨t, Ψ', ht, hB', hf', hr', hq⟩ := hB.copyValue hsz (by omega) hcM hf hr
      have hpos : c - (n - 1) = c - n + 1 := by omega
      rw [splice_succ (by omega) hcM, ← hpos] at hB'
      rw [← hpos] at hf' hr'
      exact ⟨t, n - 1, ht, ⟨by omega, ⟨by omega, ⟨Ψ', hB'⟩, hf', hr'⟩,
        hkeep _ _ _ _ hB hm hq⟩, by omega⟩)
    ⟨hn, hs, hm⟩ hrounds
  have h0 := (hstop m t hm hs hmarks).1 hdone
  subst h0
  obtain ⟨Ψ', hB'⟩ := hs.beside
  exact ⟨t, Ψ', hloop, hB'⟩

namespace Beside

/-- The start of such a loop. -/
theorem abreast {first result : BpIterator} (hB : Beside h Ψ v L o M) (hac : a ≤ c)
    (hf : first.At copyNone h o a) (hr : result.At (nodeCopy .tr v.id) h v a) :
    Abreast v o L M a c (c - a) ⟨h, first, result⟩ := by
  have hpos : c - (c - a) = a := Nat.sub_sub_self hac
  refine ⟨le_rfl, ⟨Ψ, ?_⟩, by rw [hpos]; exact hf, by rw [hpos]; exact hr⟩
  rw [hpos, splice_of_le le_rfl]
  exact hB

/-- **`std::copy` over single values.** -/
theorem copyRange (hB : Beside h Ψ v L o M) (hsz : v.sz ≤ 2 ^ 63) (hac : a ≤ c) (hc : c ≤ v.sz)
    (hc' : c < 2 ^ 63) (hrounds : c - a ≤ rounds) :
    ∃ h' r' Ψ', BpVector.copyRange rounds h v o a c = .ok (h', { v with root := r' }) ∧
      Beside h' Ψ' { v with root := r' } (splice L M a c) o M := by
  have hsz_o : o.sz ≤ 2 ^ 63 := by rw [hB.sz_eq]; exact hsz
  obtain ⟨f₀, first, hf₀, hadd, hf, -⟩ := hB.source.cbegin_add hB.placed (p := a)
    (by rw [hB.sz_eq]; omega) (by omega) hsz_o
  obtain ⟨l₀, last, hl₀, hladd, hl, -⟩ := hB.source.cbegin_add hB.placed (p := c)
    (by rw [hB.sz_eq]; exact hc) hc' hsz_o
  obtain ⟨h₁, r', it₀, h₂, it, Ψ₂, hb, hadd₂, hB₂, hr, hq, -⟩ :=
    hB.begin_add hsz (p := a) (by omega) (by omega)
  have hf₂ := hf.of_reach hq.cell_eq
  obtain ⟨t, Ψ', hloop, hB'⟩ := (hB₂.abreast hac hf₂ hr).loop
    (fun s => !s.first.eq last) (fun h => last.At copyNone h o c) hsz hac hc
    (hl.of_reach hq.cell_eq) (fun _ _ _ _ _ hm hq => hm.of_reach hq.cell_eq)
    (fun n s hn hs hm => by
      obtain ⟨Ψ, hB⟩ := hs.beside
      have heq := hs.first_at.eq_iff hm hB.placed hB.source
      have hle := hs.left_le
      rw [Bool.not_eq_false', heq]
      omega) hrounds
  refine ⟨t.heap, r', Ψ', ?_, hB'⟩
  rw [hf₀] at hl₀
  cases hl₀
  rw [BpVector.copyRange, hf₀, Exec.ok_bind, hadd, Exec.ok_bind, Exec.ok_bind, hladd,
    Exec.ok_bind, hb, Exec.ok_bind]
  dsimp only
  rw [hadd₂, Exec.ok_bind]
  dsimp only
  rw [hloop, Exec.ok_bind]

/-- **Steps 1 and 5 of `assign`**: a partial leaf. -/
theorem copyUntil (hB : Beside h Ψ v L o M) (hsz : v.sz ≤ 2 ^ 63) (hac : a ≤ c) (hc : c ≤ v.sz)
    (hc' : c < 2 ^ 63) (hrounds : c - a ≤ rounds) :
    ∃ h' r' Ψ', BpVector.copyUntil rounds h v o a c = .ok (h', { v with root := r' }) ∧
      Beside h' Ψ' { v with root := r' } (splice L M a c) o M := by
  have hsz_o : o.sz ≤ 2 ^ 63 := by rw [hB.sz_eq]; exact hsz
  obtain ⟨f₀, first, hf₀, hadd, hf, -⟩ := hB.source.cbegin_add hB.placed (p := a)
    (by rw [hB.sz_eq]; omega) (by omega) hsz_o
  obtain ⟨h₁, r', l₀, h₂, last, Ψ₂, hb, hadd₂, hB₂, hl, hq, -⟩ := hB.begin_add hsz hc hc'
  obtain ⟨h₃, r'', it₀, h₄, it, Ψ₄, hb₄, hadd₄, hB₄, hr, hq₄, hroot⟩ :=
    hB₂.begin_add hsz (p := a) (by dsimp only; omega) (by omega)
  -- the root is owned by now
  have hr' : r'' = r' := hroot hl.root_owned
  subst hr'
  have hf₄ := (hf.of_reach hq.cell_eq).of_reach hq₄.cell_eq
  have hl₄ := hl.keeps hB₂.placed hB₂.target.root_lt hq₄.keeps
  obtain ⟨t, Ψ', hloop, hB'⟩ := (hB₄.abreast hac hf₄ hr).loop
    (fun s => !s.result.eq last)
    (fun h => last.At (nodeCopy .tr v.id) h { v with root := r'' } c) hsz hac hc hl₄
    (fun _ _ _ _ hB hm hq => hm.keeps hB.placed hB.target.root_lt hq.keeps)
    (fun n s hn hs hm => by
      obtain ⟨Ψ, hB⟩ := hs.beside
      have heq := hs.result_at.eq_iff hm hB.placed hB.target
      have hle := hs.left_le
      rw [Bool.not_eq_false', heq]
      omega) hrounds
  refine ⟨t.heap, r'', Ψ', ?_, hB'⟩
  rw [BpVector.copyUntil, hf₀, Exec.ok_bind, hadd, Exec.ok_bind, hb, Exec.ok_bind]
  dsimp only
  rw [hadd₂, Exec.ok_bind]
  dsimp only
  rw [hb₄, Exec.ok_bind]
  dsimp only
  rw [hadd₄, Exec.ok_bind]
  dsimp only
  rw [hloop, Exec.ok_bind]

/-- The same, if need be. -/
theorem copyPartial (hB : Beside h Ψ v L o M) (hsz : v.sz ≤ 2 ^ 63) (hac : a ≤ c) (hc : c ≤ v.sz)
    (hc' : c < 2 ^ 63) (hrounds : c - a ≤ rounds) :
    ∃ h' r' Ψ', BpVector.copyPartial rounds h v o a c = .ok (h', { v with root := r' }) ∧
      Beside h' Ψ' { v with root := r' } (splice L M a c) o M := by
  have hsub : subSizeT c a = c - a := by
    rw [subSizeT, sizeT, show c + 2 ^ 64 - a = c - a + 2 ^ 64 by omega, Nat.add_mod_right,
      Nat.mod_eq_of_lt (by omega)]
  rw [BpVector.copyPartial, hsub]
  split
  · exact hB.copyUntil hsz hac hc hc' hrounds
  · refine ⟨h, v.root, Ψ, rfl, ?_⟩
    rw [splice_of_le (by omega)]
    exact hB

end Beside

end Contentious
