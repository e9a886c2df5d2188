import Contentious.Trie.Stride

/-!
# Trie — loops over a range

`for (it = begin() + a; it != end; ++it)`, with `end` formed before it as
`begin() + b`. The end is a raw position too, made by the `+` that stops
at the size, and `++` gets to the end of a full leaf in another way; that
the two are one position is what makes the loop end (`At.eq_iff`). It
does after `b - a` steps, and it has dereferenced the positions of the
range in order (`readLoop_spec`). The mutable iterator replaces nodes as
it goes, and what it writes is what changes (`modifyLoop_spec`).

Positions from `2 ^ 63` on are out of reach, since `+` takes its argument
for an `int64_t`. There is no memory for a vector that long.
-/

namespace Contentious

open BpVector

variable [K : BpBits] {T : Type}

/-- The heap, the iterator of the loop, and the values it has read. -/
structure Visiting (T : Type) [BpBits] where
  heap : Heap T
  it : BpIterator
  seen : List T

namespace BpVector

/-- `end = begin() + b; it = begin() + a`: the heap, the vector, the end
and the iterator. -/
def range (κ : IterKind) (h : Heap T) (v : BpVector) (a b : ℕ) :
    Exec (Heap T × BpVector × BpIterator × BpIterator) := do
  let (h, v, last) ← beginOf κ h v
  let (h, last) ← last.addOf κ h b
  let (h, v, it) ← beginOf κ h v
  let (h, it) ← it.addOf κ h a
  .ok (h, v, last, it)

/-- `seen.push_back(*it); ++it` -/
def readStep (κ : IterKind) (s : Visiting T) : Exec (Visiting T) := do
  let x ← s.it.deref s.heap
  let (h, it) ← s.it.nextOf κ s.heap
  .ok ⟨h, it, s.seen ++ [x]⟩

/-- The loop that reads: what it has read, and the heap and the vector
that are left. -/
def readLoop (κ : IterKind) (rounds : ℕ) (h : Heap T) (v : BpVector) (a b : ℕ) :
    Exec (Heap T × BpVector × List T) := do
  let (h, v, last, it) ← range κ h v a b
  let s ← loop .rounds (fun s => !s.it.eq last) (readStep κ) rounds ⟨h, it, []⟩
  .ok (s.heap, v, s.seen)

/-- `*it = g(*it); ++it` -/
def modifyStep (g : T → T) (s : Visiting T) : Exec (Visiting T) := do
  let x ← s.it.deref s.heap
  let h ← s.it.store s.heap (g x)
  let (h, it) ← s.it.next h
  .ok ⟨h, it, s.seen ++ [x]⟩

/-- The loop that writes, with the mutable iterator. -/
def modifyLoop (rounds : ℕ) (g : T → T) (h : Heap T) (v : BpVector) (a b : ℕ) :
    Exec (Heap T × BpVector × List T) := do
  let (h, v, last, it) ← range .mutable h v a b
  let s ← loop .rounds (fun s => !s.it.eq last) (modifyStep g) rounds ⟨h, it, []⟩
  .ok (s.heap, v, s.seen)

end BpVector

variable {h : Heap T} {Ψ : Addr → Place} {a b n rounds : ℕ} {g : T → T} {v : BpVector}
variable {L : List T} {last : BpIterator} {κ : IterKind} {s : Visiting T}

/-- **The two ends of a range**, as the loop starts. -/
theorem Holds.range (hP : Placed h Ψ) (hv : Holds h Ψ v L) (hsz : v.sz ≤ 2 ^ 63) (hab : a ≤ b)
    (hb : b ≤ v.sz) (hb' : b < 2 ^ 63) :
    ∃ h' r' last it Ψ', BpVector.range κ h v a b = .ok (h', { v with root := r' }, last, it) ∧
      Placed h' Ψ' ∧ Holds h' Ψ' { v with root := r' } L ∧
      last.At (κ.copies v.id) h' { v with root := r' } b ∧
      it.At (κ.copies v.id) h' { v with root := r' } a := by
  obtain ⟨h₁, r', it₁, Ψ₁, he₁, hc₁, hb₁, hv₁, -⟩ := hv.beginOf κ hP
  obtain ⟨h₂, last, Ψ₂, he₂, hc₂, -⟩ := hc₁.stands.addOf (κ := κ) hb₁ hc₁.ext.placed hv₁ hb' hsz
    (.inl (by rw [Nat.zero_add]; exact hb))
  have hmin : min (0 + b) v.sz = b := by omega
  rw [hmin] at hc₂
  have hv₂ := hv₁.of_ext hc₂.ext
  -- the root is owned by now, and `begin()` leaves it where it is
  obtain ⟨h₃, r₃, it₃, Ψ₃, he₃, hc₃, hb₃, hv₃, hr₃⟩ := hv₂.beginOf κ hc₂.ext.placed
  have hroot := hr₃ hc₂.stands.root_owned
  subst hroot
  obtain ⟨h₄, it, Ψ₄, he₄, hc₄, -⟩ := hc₃.stands.addOf (κ := κ) (n := a) hb₃ hc₃.ext.placed hv₃
    (by omega) hsz (.inl (by dsimp only; omega))
  have hmin' : min (0 + a) v.sz = a := by omega
  rw [hmin'] at hc₄
  have hlast := hc₂.stands.keeps hc₂.ext.placed hv₂.root_lt (hc₃.keeps.trans hc₄.keeps)
  refine ⟨h₄, _, last, it, Ψ₄, ?_, hc₄.ext.placed, hv₃.of_ext hc₄.ext, hlast, hc₄.stands⟩
  rw [BpVector.range, he₁, Exec.ok_bind]
  dsimp only
  rw [he₂, Exec.ok_bind]
  dsimp only
  rw [he₃, Exec.ok_bind]
  dsimp only
  rw [he₄, Exec.ok_bind]

/-- **What a loop over a range keeps**, with `n` positions to go: it stands
at the first of them, and has read those before. The vector is `N c` when
it stands at `c`. -/
structure Visited (κ : IterKind) (v : BpVector) (N : ℕ → List T) (L : List T) (a b : ℕ)
    (last : BpIterator) (n : ℕ) (s : Visiting T) : Prop where
  left_le : n ≤ b - a
  holds : ∃ Ψ, Placed s.heap Ψ ∧ Holds s.heap Ψ v (N (b - n))
  last_at : last.At (κ.copies v.id) s.heap v b
  it_at : s.it.At (κ.copies v.id) s.heap v (b - n)
  seen_eq : s.seen = (L.drop a).take (b - n - a)

omit K in
/-- One more of a range. -/
theorem take_drop_append (L : List T) {a c : ℕ} (hac : a ≤ c) (hc : c < L.length) :
    (L.drop a).take (c - a) ++ [L[c]] = (L.drop a).take (c + 1 - a) := by
  have hlt : c - a < (L.drop a).length := by
    rw [List.length_drop]
    omega
  rw [Nat.sub_add_comm hac, List.take_succ_eq_append_getElem hlt, List.getElem_drop]
  congr 3
  omega

/-- Not at the end, there are positions to go. -/
theorem Visited.pos {N : ℕ → List T} (hs : Visited κ v N L a b last n s)
    (hne : (!s.it.eq last) = true) : n ≠ 0 := by
  rintro rfl
  obtain ⟨Ψ, hP, hv⟩ := hs.holds
  have heq := (hs.it_at.eq_iff hs.last_at hP hv).2 (Nat.sub_zero b)
  rw [heq] at hne
  exact nomatch hne

/-- At the end, there are none. -/
theorem Visited.done {N : ℕ → List T} (hs : Visited κ v N L a b last n s)
    (hb : n ≤ b) (heq : (!s.it.eq last) = false) : n = 0 := by
  obtain ⟨Ψ, hP, hv⟩ := hs.holds
  have hpos := (hs.it_at.eq_iff hs.last_at hP hv).1 (by simpa using heq)
  omega

/-! ## Reading -/

theorem Visited.readStep (hs : Visited κ v (fun _ => L) L a b last n s) (hsz : v.sz ≤ 2 ^ 63)
    (hb : b ≤ v.sz) (hn : n ≠ 0) :
    ∃ t, BpVector.readStep κ s = .ok t ∧ Visited κ v (fun _ => L) L a b last (n - 1) t := by
  obtain ⟨hle, ⟨Ψ, hP, hv⟩, hlast, hit, hseen⟩ := hs
  have hsize := hv.size
  have hL : b - n < L.length := by omega
  have hderef := hit.deref hv hL
  obtain ⟨h', it', Ψ', hnext, hc⟩ := hit.nextOf (κ := κ) hP hv (by omega) hsz
  have hpos : b - (n - 1) = b - n + 1 := by omega
  refine ⟨⟨h', it', s.seen ++ [L[b - n]]⟩, ?_, by omega,
    ⟨Ψ', hc.ext.placed, hv.of_ext hc.ext⟩, hlast.keeps hP hv.root_lt hc.keeps, ?_, ?_⟩
  · rw [BpVector.readStep, hderef, Exec.ok_bind, hnext, Exec.ok_bind]
  · rw [hpos]
    exact hc.stands
  · rw [hpos, hseen]
    exact take_drop_append L (by omega) (by omega)

/-- **The loop that reads** ends after as many steps as the range is long,
and has read the range. -/
theorem readLoop_spec (hP : Placed h Ψ) (hv : Holds h Ψ v L) (hsz : v.sz ≤ 2 ^ 63) (hab : a ≤ b)
    (hb : b ≤ v.sz) (hb' : b < 2 ^ 63) (hrounds : b - a ≤ rounds) :
    ∃ h' v', readLoop κ rounds h v a b = .ok (h', v', (L.drop a).take (b - a)) ∧
      Represents h' v' L := by
  obtain ⟨h₁, r', last, it, Ψ₁, hrange, hP₁, hv₁, hlast, hit⟩ :=
    hv.range (κ := κ) hP hsz hab hb hb'
  have hstart : Visited κ { v with root := r' } (fun _ => L) L a b last (b - a)
      (⟨h₁, it, []⟩ : Visiting T) := by
    have hpos : b - (b - a) = a := Nat.sub_sub_self hab
    refine ⟨le_rfl, ⟨Ψ₁, hP₁, hv₁⟩, hlast, by rw [hpos]; exact hit, ?_⟩
    rw [hpos, Nat.sub_self, List.take_zero]
  obtain ⟨s, n, hloop, hs, hdone⟩ := loop_counts Fault.rounds
    (fun s => !s.it.eq last) (BpVector.readStep κ)
    (I := fun n s => n ≤ b ∧ Visited κ { v with root := r' } (fun _ => L) L a b last n s)
    (fun n s hs hne => by
      have hn := hs.2.pos hne
      obtain ⟨t, ht, hs'⟩ := hs.2.readStep hsz hb hn
      exact ⟨t, n - 1, ht, ⟨by omega, hs'⟩, by omega⟩)
    ⟨by omega, hstart⟩ hrounds
  obtain rfl := hs.2.done hs.1 hdone
  refine ⟨s.heap, { v with root := r' }, ?_, hs.2.holds⟩
  rw [readLoop, hrange, Exec.ok_bind]
  dsimp only
  rw [hloop, Exec.ok_bind, hs.2.seen_eq, Nat.sub_zero]

/-! ## Writing -/

/-- The list with the elements of a range mapped. -/
def mapRange (g : T → T) (a c : ℕ) (L : List T) : List T :=
  L.mapIdx fun i x => if a ≤ i ∧ i < c then g x else x

omit K in
@[simp] theorem length_mapRange (g : T → T) (a c : ℕ) (L : List T) :
    (mapRange g a c L).length = L.length := by
  rw [mapRange, List.length_mapIdx]

omit K in
theorem getElem_mapRange {g : T → T} {c i : ℕ} (hi : i < L.length)
    (hi' : i < (mapRange g a c L).length) :
    (mapRange g a c L)[i] = if a ≤ i ∧ i < c then g L[i] else L[i] := by
  simp only [mapRange, List.getElem_mapIdx]

omit K in
/-- Nothing is mapped over no range, -/
theorem mapRange_self (g : T → T) (a : ℕ) (L : List T) : mapRange g a a L = L := by
  refine List.ext_getElem (length_mapRange ..) fun i h1 h2 => ?_
  rw [getElem_mapRange h2, if_neg (by omega)]

omit K in
/-- and the element after a range maps on its own. -/
theorem mapRange_succ {g : T → T} {c : ℕ} (hac : a ≤ c) (hc : c < L.length) :
    (mapRange g a c L).set c (g L[c]) = mapRange g a (c + 1) L := by
  refine List.ext_getElem (by simp) fun i h1 h2 => ?_
  have hL : i < L.length := by simpa using h2
  rw [List.getElem_set, getElem_mapRange hL, getElem_mapRange hL]
  split
  · next heq =>
    subst heq
    rw [if_pos ⟨hac, Nat.lt_succ_self c⟩]
  · next hne =>
    congr 1
    apply propext
    omega

theorem Visited.modifyStep
    (hs : Visited .mutable v (fun c => mapRange g a c L) L a b last n s) (hsz : v.sz ≤ 2 ^ 63)
    (hb : b ≤ v.sz) (hn : n ≠ 0) :
    ∃ t, BpVector.modifyStep g s = .ok t ∧
      Visited .mutable v (fun c => mapRange g a c L) L a b last (n - 1) t := by
  obtain ⟨hle, ⟨Ψ, hP, hv⟩, hlast, hit, hseen⟩ := hs
  have hsize := hv.size
  rw [length_mapRange] at hsize
  have hpos : b - (n - 1) = b - n + 1 := by omega
  -- the element at hand is still as it was
  have hL : b - n < L.length := by omega
  have hderef := hit.deref hv (by rw [length_mapRange]; omega)
  rw [getElem_mapRange hL, if_neg (by omega)] at hderef
  obtain ⟨h₁, hstore, hP₁, hv₁, hk₁, -⟩ := hit.store hP hv (by rw [length_mapRange]; omega)
    (g L[b - n])
  rw [mapRange_succ (by omega) (by omega), ← hpos] at hv₁
  have hit₁ := hit.keeps hP hv.root_lt hk₁
  obtain ⟨h₂, it', Ψ₂, hnext, hc⟩ := hit₁.nextOf (κ := .mutable) hP₁ hv₁ (by omega) hsz
  refine ⟨⟨h₂, it', s.seen ++ [L[b - n]]⟩, ?_, by omega,
    ⟨Ψ₂, hc.ext.placed, hv₁.of_ext hc.ext⟩,
    (hlast.keeps hP hv.root_lt hk₁).keeps hP₁ hv₁.root_lt hc.keeps, ?_, ?_⟩
  · have hnext' : s.it.next h₁ = .ok (h₂, it') := hnext
    rw [BpVector.modifyStep, hderef, Exec.ok_bind, hstore, Exec.ok_bind, hnext', Exec.ok_bind]
  · rw [hpos]
    exact hc.stands
  · rw [hpos, hseen]
    exact take_drop_append L (by omega) (by omega)

/-- **The loop that writes** ends after as many steps as the range is long;
it has read the range, and has mapped it. -/
theorem modifyLoop_spec (hP : Placed h Ψ) (hv : Holds h Ψ v L) (hsz : v.sz ≤ 2 ^ 63) (hab : a ≤ b)
    (hb : b ≤ v.sz) (hb' : b < 2 ^ 63) (g : T → T) (hrounds : b - a ≤ rounds) :
    ∃ h' v', modifyLoop rounds g h v a b = .ok (h', v', (L.drop a).take (b - a)) ∧
      Represents h' v' (mapRange g a b L) := by
  obtain ⟨h₁, r', last, it, Ψ₁, hrange, hP₁, hv₁, hlast, hit⟩ :=
    hv.range (κ := .mutable) hP hsz hab hb hb'
  have hstart : Visited .mutable { v with root := r' } (fun c => mapRange g a c L) L a b last
      (b - a) (⟨h₁, it, []⟩ : Visiting T) := by
    have hpos : b - (b - a) = a := Nat.sub_sub_self hab
    refine ⟨le_rfl, ⟨Ψ₁, hP₁, ?_⟩, hlast, by rw [hpos]; exact hit, ?_⟩
    · dsimp only
      rw [hpos, mapRange_self]
      exact hv₁
    · rw [hpos, Nat.sub_self, List.take_zero]
  obtain ⟨s, n, hloop, hs, hdone⟩ := loop_counts Fault.rounds
    (fun s => !s.it.eq last) (BpVector.modifyStep g)
    (I := fun n s => n ≤ b ∧
      Visited .mutable { v with root := r' } (fun c => mapRange g a c L) L a b last n s)
    (fun n s hs hne => by
      have hn := hs.2.pos hne
      obtain ⟨t, ht, hs'⟩ := hs.2.modifyStep hsz hb hn
      exact ⟨t, n - 1, ht, ⟨by omega, hs'⟩, by omega⟩)
    ⟨by omega, hstart⟩ hrounds
  obtain rfl := hs.2.done hs.1 hdone
  refine ⟨s.heap, { v with root := r' }, ?_, hs.2.holds⟩
  rw [modifyLoop, hrange, Exec.ok_bind]
  dsimp only
  rw [hloop, Exec.ok_bind, hs.2.seen_eq, Nat.sub_zero]

/-- **A loop over a range visits it**: with either iterator it ends after
as many steps as the range is long, and has read the range; and the one
that writes has mapped the range, and nothing else. -/
theorem range_loops_visit (ht : Represents h v L) (hsize : L.length < 2 ^ 63) (hab : a ≤ b)
    (hb : b ≤ L.length) (hrounds : b - a ≤ rounds) :
    (∀ κ, ∃ h' v', readLoop κ rounds h v a b = .ok (h', v', (L.drop a).take (b - a)) ∧
      Represents h' v' L) ∧
    ∀ g, ∃ h' v', modifyLoop rounds g h v a b = .ok (h', v', (L.drop a).take (b - a)) ∧
      Represents h' v' (mapRange g a b L) := by
  obtain ⟨Ψ, hP, hv⟩ := ht
  have hsz := hv.size
  rw [← hv.size] at hb
  exact ⟨fun κ => readLoop_spec hP hv (by omega) hab hb (by omega) hrounds,
    fun g => modifyLoop_spec hP hv (by omega) hab hb (by omega) g hrounds⟩

omit K in
/-- Over arrays of four, a transient of six values that were pushed and set
both ways, and the range from the third to the end, which is in two leaves. -/
theorem range_loops_visit_twoBits :
    letI := twoBits
    ∃ (h : Heap ℕ) (t : BpVector),
      (handle ℕ .tr fun _ => 0).run (newVector .tr 1 Heap.empty)
        [.inPlace (by decide) (.push 1), .const (.push 2), .inPlace (by decide) (.push 3),
          .inPlace (by decide) (.push 4), .inPlace (by decide) (.push 5), .const (.push 6),
          .const (.set 1 7), .inPlace (by decide) (.set 4 8)] = some (h, t) ∧
      (∀ κ, ∃ h' v', readLoop κ 4 h t 2 6 = .ok (h', v', [3, 4, 8, 6]) ∧
        Represents h' v' [1, 7, 3, 4, 8, 6]) ∧
      ∀ g, ∃ h' v', modifyLoop 4 g h t 2 6 = .ok (h', v', [3, 4, 8, 6]) ∧
        Represents h' v' [1, 7, g 3, g 4, g 8, g 6] := by
  let _ := twoBits
  obtain ⟨⟨h, t⟩, hrun, ht⟩ := handle_represents .tr 1 (fun _ => 0)
    [.inPlace (by decide) (.push 1), .const (.push 2), .inPlace (by decide) (.push 3),
      .inPlace (by decide) (.push 4), .inPlace (by decide) (.push 5), .const (.push 6),
      .const (.set 1 7), .inPlace (by decide) (.set 4 8)] (by simp [Update.Instantiable])
    (show (lists ℕ).run [] _ = some [1, 7, 3, 4, 8, 6] by decide +kernel)
  exact ⟨h, t, hrun, range_loops_visit ht (by decide) (by decide) (by decide) (by decide)⟩

end Contentious
