import Contentious.Trie.Pipeline
import Contentious.Trie.Span
import Mathlib.Algebra.Order.BigOperators.Group.Finset

/-!
# Trie — what a pipeline computes

The elements of a pipeline of `foreach`es, whatever the order of its steps:
where a worker is done with a call, its block of the result is the block of
the source multiplied. A worker reads and writes the trie that its splinter
stands on, which no one else writes (`Pipeline.splinter_unwritten`), and leaves its
block to the result by a copy of nodes, which is exact (`Beside.assign`).
A result that shares nodes with its source may change with it; it stays a
trie all the same (`Whole.assign`), and no worker has come to it by then.
-/

namespace Contentious

open BpVector

variable [K : BpBits] {T : Type}
variable {h h' : Heap T} {Ψ Ψ' : Addr → Place} {a b r : Addr} {i k n p base : ℕ}
variable {cp : Id → Bool} {N : Id → Prop} {S : Addr → Prop} {v v' : BpVector} {L : List T}
variable {it last : BpIterator} {g : T → T} {s' : Visiting T} {seen : List T}

/-! ## Where nothing is written -/

/-- Paths are kept where the nodes are that are reached. -/
theorem Settled.of_reach (hs : Settled cp h i k n a b) (ha : Reach h r a)
    (hcell : ∀ d, Reach h r d → h'.cell d = h.cell d) : Settled cp h' i k n a b := by
  induction k generalizing n a with
  | zero => exact hs
  | succ k ih =>
    obtain ⟨c, hc, hcp, hs⟩ := hs
    obtain ⟨f, hu, hk⟩ := child_eq_ok.1 hc
    have hrc := ha.child hu hk
    refine ⟨c, ?_, ?_, ih hs hrc⟩
    · rw [child_congr (h := h) (a := a) (by rw [hcell a ha])]
      exact hc
    · rw [hcell c hrc]
      exact hcp

/-- and so are the positions of iterators, -/
theorem BpIterator.At.of_unwritten (hit : it.At cp h v p)
    (hcell : ∀ d, Reach h v.root d → h'.cell d = h.cell d) : it.At cp h' v p :=
  { hit with
    root_owned := by rw [hcell _ .root]; exact hit.root_owned
    path := hit.path.of_reach .root hcell }

/-- and what is read. -/
theorem at_of_unwritten (hcell : ∀ d, Reach h v.root d → h'.cell d = h.cell d) (i : ℕ) :
    v.at' h' i = v.at' h i := by
  rw [at', at', get_eq_readAt, get_eq_readAt, readAt_of_reach fun d hd => by rw [hcell d hd]]

/-! ## The steps of a loop -/

/-- **The two ends** are formed by edits, -/
theorem Scope.range (hS : Scope base S h) (hr : S v.root) (hlt : v.root < h.next) (hN : N v.id)
    (he : range .mutable h v a b = .ok (h', v', last, it)) :
    Rewritten base (nodeCopy .tr v.id) N S h h' v v' := by
  obtain ⟨⟨h₁, v₁, it₁⟩, hb₁, he⟩ := Exec.bind_eq_ok.1 he
  obtain ⟨⟨h₂, last₁⟩, ha₁, he⟩ := Exec.bind_eq_ok.1 he
  obtain ⟨⟨h₃, v₃, it₃⟩, hb₂, he⟩ := Exec.bind_eq_ok.1 he
  obtain ⟨⟨h₄, it₄⟩, ha₂, he⟩ := Exec.bind_eq_ok.1 he
  cases he
  obtain ⟨w₁, -, -⟩ := hS.begin_add (N := N) hr hlt hN hb₁ ha₁
  obtain ⟨w₂, -, -⟩ := (hS.edits w₁.edits).begin_add (N := N) w₁.root_mem w₁.root_lt
    (by rw [w₁.id_eq]; exact hN) hb₂ ha₂
  rw [w₁.id_eq] at w₂
  exact w₁.trans w₂

/-- that keep the shape of all that share nodes. -/
theorem Whole.range (hw : Whole base S n h Ψ) (hr : v.root < h.next) (hS : S v.root)
    (he : range .mutable h v a b = .ok (h', v', last, it)) :
    ∃ Ψ', Remade base S n h Ψ h' Ψ' v v' := by
  obtain ⟨⟨h₁, v₁, it₁⟩, hb₁, he⟩ := Exec.bind_eq_ok.1 he
  obtain ⟨⟨h₂, last₁⟩, ha₁, he⟩ := Exec.bind_eq_ok.1 he
  obtain ⟨⟨h₃, v₃, it₃⟩, hb₂, he⟩ := Exec.bind_eq_ok.1 he
  obtain ⟨⟨h₄, it₄⟩, ha₂, he⟩ := Exec.bind_eq_ok.1 he
  cases he
  obtain ⟨Ψ₁, e₁, hroot₁, -⟩ := hw.begin hr hS hb₁
  obtain ⟨Ψ₂, e₂, -, -⟩ := e₁.shaped.whole.add (by rw [hroot₁]; exact e₁.root_lt)
    (by rw [hroot₁]; exact e₁.root_mem) ha₁
  have e := e₁.followed e₂
  obtain ⟨Ψ₃, e₃, hroot₃, -⟩ := e.shaped.whole.begin e.root_lt e.root_mem hb₂
  obtain ⟨Ψ₄, e₄, -, -⟩ := e₃.shaped.whole.add (by rw [hroot₃]; exact e₃.root_lt)
    (by rw [hroot₃]; exact e₃.root_mem) ha₂
  exact ⟨Ψ₄, e.trans hr (e₃.followed e₄)⟩

/-- **A round** of a loop that writes, -/
theorem BpIterator.At.modifyStep (seen : List T) (hit : it.At (nodeCopy .tr v.id) h v p)
    (hP : Placed h Ψ) (hv : Holds h Ψ v L) (hp : p < L.length) (hsz : v.sz ≤ 2 ^ 63) (g : T → T) :
    ∃ r Ψ', BpVector.modifyStep g ⟨h, it, seen⟩ = .ok r ∧ Placed r.heap Ψ' ∧
      Holds r.heap Ψ' v (L.set p (g L[p])) ∧ Keeps (nodeCopy .tr v.id) h r.heap ∧
      r.it.At (nodeCopy .tr v.id) r.heap v (p + 1) ∧ WrittenFrom h r.heap v v v := by
  have hp' : p < v.sz := by rw [hv.size]; exact hp
  have hderef := hit.deref hv hp
  obtain ⟨h₁, hstore, hP₁, hv₁, hk₁, -⟩ := hit.store hP hv hp (g L[p])
  have hit₁ := hit.keeps hP hv.root_lt hk₁
  obtain ⟨h₂, it', Ψ₂, hnext, hc⟩ := hit₁.nextOf (κ := .mutable) hP₁ hv₁ hp' hsz
  have hnext' : it.next h₁ = .ok (h₂, it') := hnext
  -- it writes what the splinter reaches, or is new
  have hscope := hP.reachScope (r := v.root)
  have hheld := hit.held (S := fun a => Reach h v.root a ∨ h.next ≤ a) hP hv fun _ ha => .inl ha
  have e₁ := hheld.store (N := fun other => other = v.id) hstore
  have e₂ := (hheld.edits e₁).next (N := fun other => other = v.id) hit.id_eq (hscope.edits e₁)
    rfl hnext'
  refine ⟨⟨h₂, it', seen ++ [L[p]]⟩, Ψ₂, ?_, hc.ext.placed, hv₁.of_ext hc.ext,
    hk₁.trans hc.keeps, hc.stands, (e₁.trans e₂.edits).widen fun a ha => by tauto,
    .inl (.inl .root), ?_, rfl⟩
  · rw [BpVector.modifyStep, hderef, Exec.ok_bind, hstore, Exec.ok_bind, hnext', Exec.ok_bind]
  · exact lt_of_lt_of_le hv.root_lt (hk₁.trans hc.keeps).next_le

/-- and the shape. -/
theorem Whole.modifyStep {s t : Visiting T} (hw : Whole base S n s.heap Ψ)
    (hr : s.it.root < s.heap.next) (hS : S s.it.root) (he : BpVector.modifyStep g s = .ok t) :
    ∃ Ψ', Reshaped base S n s.heap Ψ t.heap Ψ' := by
  obtain ⟨x, -, he⟩ := Exec.bind_eq_ok.1 he
  obtain ⟨h₁, hstore, he⟩ := Exec.bind_eq_ok.1 he
  obtain ⟨⟨h₂, it₂⟩, hnext, he⟩ := Exec.bind_eq_ok.1 he
  cases he
  have e₁ := hw.store hstore
  obtain ⟨Ψ₂, e₂, -, -⟩ := e₁.whole.next (lt_of_lt_of_le hr e₁.next_le) hS hnext
  exact ⟨Ψ₂, e₁.trans e₂⟩

/-! ## The shape of all of them -/

namespace Pipeline

variable {s t : Pipeline T} {lv : ℕ} {U : View} {u : BpVector} {hwconc : ℕ}

/-- **The vectors stand in one heap**, with `n` elements and `lv` branch
levels each. -/
structure Shaped (n lv : ℕ) (s : Pipeline T) (Ψ : Addr → Place) : Prop where
  placed : Placed s.heap Ψ
  holds : ∀ V v, s.view V = some v → v.sz = n ∧ v.levels = lv ∧ ∃ L, Holds s.heap Ψ v L

/-- The nodes under them, and those that are made from now on. -/
def Node (s : Pipeline T) (a : Addr) : Prop :=
  (∃ v ∈ {v | ∃ V, s.view V = some v}, Reach s.heap v.root a) ∨ s.heap.next ≤ a

namespace Shaped

theorem node (hu : s.view U = some u) : s.Node u.root := .inl ⟨u, ⟨U, hu⟩, .root⟩

/-- Their nodes are whole. -/
theorem whole (hS : s.Shaped n lv Ψ) : Whole s.heap.next s.Node n s.heap Ψ :=
  hS.placed.whole fun v hv => by
    obtain ⟨V, hV⟩ := hv
    exact ⟨(hS.holds V v hV).1, (hS.holds V v hV).2.2⟩

theorem root_place (hS : s.Shaped n lv Ψ) (hu : s.view U = some u) : Ψ u.root = ⟨lv, 0⟩ := by
  obtain ⟨-, hlev, L, hL⟩ := hS.holds U u hu
  rw [hL.root_place, hlev]

theorem root_lt (hS : s.Shaped n lv Ψ) (hu : s.view U = some u) : u.root < s.heap.next := by
  obtain ⟨-, -, L, hL⟩ := hS.holds U u hu
  exact hL.root_lt

/-- **Writes that keep the nodes whole** keep the shape, of those that were
there and of one that has a root among the nodes. -/
theorem reshaped (hS : s.Shaped n lv Ψ)
    (e : Reshaped s.heap.next s.Node n s.heap Ψ t.heap Ψ')
    (hview : ∀ U u, t.view U = some u → s.view U = some u ∨
      u.sz = n ∧ u.levels = lv ∧ u.root < t.heap.next ∧ s.Node u.root ∧ Ψ' u.root = ⟨lv, 0⟩) :
    t.Shaped n lv Ψ' := by
  -- the source has elements and levels that fit
  have hsrc : s.view (.data 0) = some (s.data 0) := view_data.2 ⟨Nat.zero_le _, rfl⟩
  obtain ⟨hsz, hlev, L, hL⟩ := hS.holds _ _ hsrc
  have hfits := hL.fits
  have htight := hL.tight
  rw [← hL.size, hsz, hlev] at hfits htight
  refine ⟨e.whole.placed, fun U u hu => ?_⟩
  have hroot : u.sz = n ∧ u.levels = lv ∧ u.root < t.heap.next ∧ s.Node u.root ∧
      Ψ' u.root = ⟨lv, 0⟩ := by
    rcases hview U u hu with hold | hnew
    · have hlt := hS.root_lt hold
      exact ⟨(hS.holds U u hold).1, (hS.holds U u hold).2.1, lt_of_lt_of_le hlt e.next_le,
        node hold, by rw [e.place _ hlt, hS.root_place hold]⟩
    · exact hnew
  obtain ⟨rfl, rfl, hlt, hmem, hplace⟩ := hroot
  exact ⟨rfl, rfl, e.whole.holds hlt hmem hplace hfits htight⟩

/-- New names for what is there. -/
theorem renamed (hS : s.Shaped n lv Ψ) (hheap : t.heap = s.heap)
    (hview : ∀ U u, t.view U = some u → ∃ U₀ u₀, s.view U₀ = some u₀ ∧ SameTrie u u₀) :
    t.Shaped n lv Ψ := by
  refine ⟨by rw [hheap]; exact hS.placed, fun U u hu => ?_⟩
  obtain ⟨U₀, u₀, hu₀, hsame⟩ := hview U u hu
  obtain ⟨hsz, hlev, L, hL⟩ := hS.holds U₀ u₀ hu₀
  refine ⟨by rw [hsame.sz, hsz], by rw [hsame.levels, hlev], L, ?_⟩
  rw [hheap]
  exact hL.of_same hsame

theorem call (hS : s.Shaped n lv Ψ) : s.call.Shaped n lv Ψ := by
  refine hS.renamed rfl fun U u hu => ?_
  rcases view_call hu with hold | ⟨-, rfl⟩
  · exact ⟨U, u, hold, rfl, rfl, rfl⟩
  · exact ⟨.data s.calls, s.data s.calls, view_data.2 ⟨le_rfl, rfl⟩, rfl, rfl, rfl⟩

theorem detach (hS : s.Shaped n lv Ψ) (hnone : s.task p = none) (hlt : s.done p ≤ s.calls) :
    (s.detach hwconc p).Shaped n lv Ψ := by
  have hj : s.view (.data (s.done p)) = some (s.data (s.done p)) := view_data.2 ⟨hlt, rfl⟩
  refine hS.renamed rfl fun U u hu => ?_
  rcases view_detach hnone hu with ⟨hold, -, -⟩ | ⟨-, rfl⟩ | ⟨-, rfl⟩ | ⟨-, rfl⟩
  · exact ⟨U, u, hold, rfl, rfl, rfl⟩
  all_goals exact ⟨_, _, hj, rfl, rfl, rfl⟩

/-- A step of a worker's loop. -/
theorem looped {t₁ t₂ : Task} {h : Heap T} (hS : s.Shaped n lv Ψ) (ht : s.task p = some t₁)
    (e : Remade s.heap.next s.Node n s.heap Ψ h Ψ' t₁.splt t₂.splt) :
    (s.looped h p t₂).Shaped n lv Ψ' := by
  have hV : s.view (.splt p) = some t₁.splt := view_splt.2 ⟨t₁, ht, rfl⟩
  refine hS.reshaped e.shaped fun U u hu => ?_
  rcases view_looped ht hu with ⟨-, rfl⟩ | ⟨-, hold⟩
  · obtain ⟨hsz, hlev, -⟩ := hS.holds _ _ hV
    have heq := e.eq_root
    refine .inr ⟨?_, ?_, e.root_lt, e.root_mem, by rw [e.root_place, hS.root_place hV]⟩
    · rw [heq]
      exact hsz
    · rw [heq]
      exact hlev
  · exact .inl hold

theorem reattached {t₁ : Task} {h : Heap T} {d : BpVector} (hS : s.Shaped n lv Ψ)
    (ht : s.task p = some t₁) (hlt : s.done p < s.calls)
    (e : Remade s.heap.next s.Node n s.heap Ψ h Ψ' (s.data (s.done p + 1)) d) :
    (s.reattached h p d).Shaped n lv Ψ' := by
  have hV : s.view (.data (s.done p + 1)) = some (s.data (s.done p + 1)) :=
    view_data.2 ⟨hlt, rfl⟩
  refine hS.reshaped e.shaped fun U u hu => ?_
  rcases view_reattached ht hu with ⟨-, rfl⟩ | ⟨-, -, hold⟩
  · obtain ⟨hsz, hlev, -⟩ := hS.holds _ _ hV
    have heq := e.eq_root
    refine .inr ⟨?_, ?_, e.root_lt, e.root_mem, by rw [e.root_place, hS.root_place hV]⟩
    · rw [heq]
      exact hsz
    · rw [heq]
      exact hlev
  · exact .inl hold

end Shaped

/-! ## The elements -/

/-- The index is in the worker's block. -/
def Owns (lay : Cont.Layout) (p i : ℕ) : Prop :=
  (Cont.partition lay.hwconc p lay.size).1 ≤ i ∧ i < (Cont.partition lay.hwconc p lay.size).2

section

variable [Mul T] {lay : Cont.Layout} {vals : ℕ → T} {c rounds : ℕ} {t₁ t₂ : Task}

/-- An element after `k` calls. -/
def product (vals : ℕ → T) : ℕ → T → T
  | 0, x => x
  | k + 1, x => product vals k x * vals k

/-- **A worker in the task of call `k`**: its block of the splinter is that
of the source, multiplied as far as the loop has come. -/
structure Working (lay : Cont.Layout) (vals : ℕ → T) (L : List T) (h : Heap T) (p k : ℕ)
    (t : Task) : Prop where
  lt : p < lay.hwconc
  block_eq : Cont.partition lay.hwconc p lay.size = (t.a, t.b)
  before : t.loop = none → ∀ i (hi : i < L.length), Owns lay p i →
    t.splt.at' h i = .ok (product vals k L[i])
  within : ∀ last it, t.loop = some (last, it) → ∃ c, t.a ≤ c ∧ c ≤ t.b ∧
    last.At (nodeCopy .tr t.splt.id) h t.splt t.b ∧ it.At (nodeCopy .tr t.splt.id) h t.splt c ∧
    ∀ i (hi : i < L.length), Owns lay p i →
      t.splt.at' h i = .ok (product vals (if i < c then k + 1 else k) L[i])

/-- **What has been computed**: the block of each worker that is done with
the calls up to a vector, and what the others are at. -/
structure Multiplied (lay : Cont.Layout) (vals : ℕ → T) (L : List T) (s : Pipeline T) : Prop where
  elem : ∀ k ≤ s.calls, ∀ p < lay.hwconc, k ≤ s.done p → ∀ i (hi : i < L.length), Owns lay p i →
    (s.data k).at' s.heap i = .ok (product vals k L[i])
  task : ∀ p t, s.task p = some t → Working lay vals L s.heap p (s.done p) t

/-- What the steps of a pipeline keep. -/
structure Running (lay : Cont.Layout) (vals : ℕ → T) (L : List T) (lv : ℕ) (s : Pipeline T) :
    Prop where
  isolated : s.Isolated
  shaped : ∃ Ψ, s.Shaped L.length lv Ψ
  multiplied : s.Multiplied lay vals L
  going : s.stopped = none

theorem Working.of_unwritten (hw : Working lay vals L h p k t₁)
    (hcell : ∀ d, Reach h t₁.splt.root d → h'.cell d = h.cell d) :
    Working lay vals L h' p k t₁ where
  lt := hw.lt
  block_eq := hw.block_eq
  before hl i hi ho := by
    rw [at_of_unwritten hcell]
    exact hw.before hl i hi ho
  within last it hl := by
    obtain ⟨c, hac, hcb, hlast, hit, hat⟩ := hw.within last it hl
    refine ⟨c, hac, hcb, hlast.of_unwritten hcell, hit.of_unwritten hcell, fun i hi ho => ?_⟩
    rw [at_of_unwritten hcell]
    exact hat i hi ho

/-- The ends of a worker's block. -/
theorem Working.bounds (hw : Working lay vals L h p k t₁) :
    t₁.a < t₁.b ∧ t₁.b ≤ lay.size := by
  have h1 := lay.nonempty p hw.lt
  have h2 := Cont.partition_snd_le lay.hwconc p lay.size
  rw [hw.block_eq] at h1 h2
  exact ⟨h1, h2⟩

omit K in
/-- An index of one block is in no other. -/
theorem Owns.unique {q : ℕ} (hp : Owns lay p i) (hq : Owns lay q i) : p = q := by
  rcases Nat.lt_trichotomy p q with h | h | h
  · exact (Set.disjoint_left.1 (Cont.partition_disjoint h) hp hq).elim
  · exact h
  · exact (Set.disjoint_left.1 (Cont.partition_disjoint h) hq hp).elim

namespace Running

theorem call (hR : s.Running lay vals L lv) (hids : s.unique + 1 ≤ 2 ^ 32) :
    s.call.Running lay vals L lv := by
  obtain ⟨hI, ⟨Ψ, hS⟩, hM, hgo⟩ := hR
  refine ⟨hI.call hids, ⟨Ψ, hS.call⟩, ⟨fun k hk p hp hkp i hi ho => ?_, hM.task⟩, hgo⟩
  -- no worker has come to the new vector
  have hle : k ≤ s.calls := le_trans hkp (hI.done_le p)
  have hne : k ≠ s.calls + 1 := by omega
  have hdata : s.call.data k = s.data k := Function.update_of_ne hne ..
  rw [hdata]
  exact hM.elem k hle p hp hkp i hi ho

theorem detach (hR : s.Running lay vals L lv) (hlen : L.length = lay.size)
    (hids : s.unique + 2 ≤ 2 ^ 32) (hp : p < lay.hwconc) (hnone : s.task p = none)
    (hlt : s.done p < s.calls) : (s.detach lay.hwconc p).Running lay vals L lv := by
  obtain ⟨hI, ⟨Ψ, hS⟩, hM, hgo⟩ := hR
  have hsz := (hS.holds _ _ (view_data.2 ⟨hlt.le, rfl⟩)).1
  refine ⟨hI.detach hids hnone hlt, ⟨Ψ, hS.detach hnone hlt.le⟩, ⟨?_, ?_⟩, hgo⟩
  · intro k hk q hq hkq i hi ho
    have hat : ((s.detach lay.hwconc p).data k).at' s.heap i = (s.data k).at' s.heap i := by
      unfold Pipeline.detach
      dsimp only
      by_cases hkj : k = s.done p
      · subst hkj
        rw [Function.update_self]
        rfl
      · rw [Function.update_of_ne hkj]
    change ((s.detach lay.hwconc p).data k).at' s.heap i = _
    rw [hat]
    exact hM.elem k hk q hq hkq i hi ho
  · intro q t ht
    unfold Pipeline.detach at ht ⊢
    dsimp only at ht ⊢
    by_cases hqp : q = p
    · subst hqp
      rw [Function.update_self] at ht
      cases ht
      refine ⟨hp, ?_, fun _ i hi ho => ?_, fun last it hl => by cases hl⟩
      · rw [hsz, hlen]
      · exact hM.elem _ hlt.le q hp le_rfl i hi ho
    · rw [Function.update_of_ne hqp] at ht
      exact hM.task q t ht

/-- **A step of a worker's loop**, which writes the splinter, and leaves the
other vectors alone. -/
theorem looped (hR : s.Running lay vals L lv) (ht : s.task p = some t₁)
    (hS : s.Shaped L.length lv Ψ)
    (w : WrittenFrom s.heap h t₁.splt t₁.splt t₂.splt)
    (e : Remade s.heap.next s.Node L.length s.heap Ψ h Ψ' t₁.splt t₂.splt)
    (hw : Working lay vals L h p (s.done p) t₂) : (s.looped h p t₂).Running lay vals L lv := by
  obtain ⟨hI, -, hM, hgo⟩ := hR
  have hV : s.view (.splt p) = some t₁.splt := view_splt.2 ⟨t₁, ht, rfl⟩
  have hother : ∀ U u, s.view U = some u → U ≠ .splt p → ∀ d, Reach s.heap u.root d →
      h.cell d = s.heap.cell d := fun U u hu hU d hd => hI.unwritten hV hu (parted_splt hU) w hd
  refine ⟨hI.looped ht w, ⟨Ψ', hS.looped ht e⟩, ⟨fun k hk q hq hkq i hi ho => ?_, ?_⟩, hgo⟩
  · have hview : s.view (.data k) = some (s.data k) := view_data.2 ⟨hk, rfl⟩
    change (s.data k).at' h i = _
    rw [at_of_unwritten (hother _ _ hview fun h => by cases h)]
    exact hM.elem k hk q hq hkq i hi ho
  · intro q t htq
    unfold Pipeline.looped at htq ⊢
    dsimp only at htq ⊢
    by_cases hqp : q = p
    · subst hqp
      rw [Function.update_self] at htq
      cases htq
      exact hw
    · rw [Function.update_of_ne hqp] at htq
      exact (hM.task q t htq).of_unwritten
        (hother _ _ (view_splt.2 ⟨t, htq, rfl⟩) fun h => hqp (by cases h; rfl))

/-- **`end` and `it` are formed.** -/
theorem enter_spec (hR : s.Running lay vals L lv) (hS : s.Shaped L.length lv Ψ)
    (hlen : L.length = lay.size) (hsize : lay.size < 2 ^ 53) (ht : s.task p = some t₁)
    (hl : t₁.loop = none) :
    ∃ h' t₂ Ψ', s.enter p t₁ = s.looped h' p t₂ ∧
      WrittenFrom s.heap h' t₁.splt t₁.splt t₂.splt ∧
      Remade s.heap.next s.Node L.length s.heap Ψ h' Ψ' t₁.splt t₂.splt ∧
      Working lay vals L h' p (s.done p) t₂ ∧ t₂.loop.isSome := by
  have hw := hR.multiplied.task p t₁ ht
  obtain ⟨hab, hb⟩ := hw.bounds
  have hV : s.view (.splt p) = some t₁.splt := view_splt.2 ⟨t₁, ht, rfl⟩
  obtain ⟨hsz, -, M, hM⟩ := hS.holds _ _ hV
  obtain ⟨h', r', last, it, Ψ', he, hP', hM', hlast, hit⟩ :=
    hM.range (κ := .mutable) hS.placed (by omega) hab.le (by omega) (by omega)
  have w := hS.placed.reachScope.range (N := fun other => other = t₁.splt.id) (.inl .root)
    hM.root_lt rfl he
  obtain ⟨Ψ₁, e⟩ := hS.whole.range hM.root_lt (Shaped.node hV) he
  refine ⟨h', { t₁ with splt := { t₁.splt with root := r' }, loop := some (last, it) }, Ψ₁, ?_,
    ⟨w.edits.widen fun a ha => by tauto, by have := w.root_mem; tauto, w.root_lt, w.id_eq⟩, e,
    ⟨hw.lt, hw.block_eq, fun hl' => (by cases hl'), ?_⟩, rfl⟩
  · unfold Pipeline.enter
    rw [he]
  · intro last' it' hl'
    cases hl'
    refine ⟨t₁.a, le_rfl, hab.le, hlast, hit, fun i hi ho => ?_⟩
    -- no index of the block lies before its start
    have hge : t₁.a ≤ i := by
      have h1 := ho.1
      rw [hw.block_eq] at h1
      exact h1
    have hat : ({ t₁.splt with root := r' } : BpVector).at' h' i = t₁.splt.at' s.heap i := by
      rw [hM'.at_eq, hM.at_eq]
    rw [if_neg (by omega), hat]
    exact hw.before hl i hi ho

/-- **One round of the loop.** -/
theorem body_spec (hR : s.Running lay vals L lv) (hS : s.Shaped L.length lv Ψ)
    (hlen : L.length = lay.size) (hsize : lay.size < 2 ^ 53) (ht : s.task p = some t₁)
    (hl : t₁.loop = some (last, it)) (hne : it.eq last = false) :
    ∃ h' t₂ Ψ', s.body vals p t₁ last it = s.looped h' p t₂ ∧
      WrittenFrom s.heap h' t₁.splt t₁.splt t₂.splt ∧
      Remade s.heap.next s.Node L.length s.heap Ψ h' Ψ' t₁.splt t₂.splt ∧
      Working lay vals L h' p (s.done p) t₂ ∧ t₂.b = t₁.b ∧
      ∃ c < t₁.b, it.At (nodeCopy .tr t₁.splt.id) s.heap t₁.splt c ∧
        ∃ it', t₂.loop = some (last, it') ∧
          it'.At (nodeCopy .tr t₂.splt.id) h' t₂.splt (c + 1) := by
  have hw := hR.multiplied.task p t₁ ht
  obtain ⟨hab, hb⟩ := hw.bounds
  obtain ⟨c, hac, hcb, hlast, hit, hat⟩ := hw.within last it hl
  have hV : s.view (.splt p) = some t₁.splt := view_splt.2 ⟨t₁, ht, rfl⟩
  obtain ⟨hsz, -, M, hM⟩ := hS.holds _ _ hV
  have hMlen := hM.size
  -- not at the end, it stands at an index of the block
  have hcb' : c < t₁.b := by
    refine lt_of_le_of_ne hcb fun heq => ?_
    rw [(hit.eq_iff hlast hS.placed hM).2 heq] at hne
    cases hne
  have hc : c < M.length := by omega
  have howns : Owns lay p c := by
    unfold Owns
    rw [hw.block_eq]
    exact ⟨hac, hcb'⟩
  have hMc : M[c] = product vals (s.done p) L[c] := by
    have h1 := hat c (by omega) howns
    rw [hM.at_eq, dif_pos hc, if_neg (lt_irrefl c)] at h1
    exact Except.ok.inj h1
  obtain ⟨r, Ψ', he, hP', hM', hk, hit', w⟩ := hit.modifyStep [] hS.placed hM hc (by omega)
    (· * vals (s.done p))
  obtain ⟨Ψ₁, e⟩ := hS.whole.modifyStep (s := ⟨s.heap, it, []⟩)
    (by rw [hit.root_eq]; exact hM.root_lt)
    (by rw [hit.root_eq]; exact Shaped.node hV) he
  refine ⟨r.heap, { t₁ with loop := some (last, r.it) }, Ψ₁, ?_, w,
    (Remade.refl hS.whole hM.root_lt (Shaped.node hV)).followed e,
    ⟨hw.lt, hw.block_eq, fun hl' => (by cases hl'), ?_⟩, rfl, c, hcb', hit, r.it, rfl, hit'⟩
  · unfold Pipeline.body
    rw [he]
  · intro last' it' hl'
    cases hl'
    refine ⟨c + 1, Nat.le_succ_of_le hac, hcb', hlast.keeps hS.placed hM.root_lt hk, hit',
      fun i hi ho => ?_⟩
    have hiM : i < (M.set c (M[c] * vals (s.done p))).length := by
      rw [List.length_set]
      omega
    dsimp only
    rw [hM'.at_eq, dif_pos hiM, List.getElem_set]
    split
    · next heq =>
      subst heq
      rw [if_pos (Nat.lt_succ_self c), hMc]
      rfl
    · next hci =>
      have h1 := hat i hi ho
      rw [hM.at_eq, dif_pos (by omega)] at h1
      rw [Except.ok.inj h1]
      by_cases hlt : i < c
      · rw [if_pos hlt, if_pos (by omega)]
      · rw [if_neg hlt, if_neg (by omega)]

/-- The loop is over with the whole block multiplied. -/
theorem splt_at (hR : s.Running lay vals L lv) (ht : s.task p = some t₁)
    (hl : t₁.loop = some (last, it)) (heq : it.eq last = true) (hi : i < L.length)
    (ho : Owns lay p i) :
    t₁.splt.at' s.heap i = .ok (product vals (s.done p + 1) L[i]) := by
  obtain ⟨Ψ, hS⟩ := hR.shaped
  have hw := hR.multiplied.task p t₁ ht
  obtain ⟨c, hac, hcb, hlast, hit, hat⟩ := hw.within last it hl
  obtain ⟨-, -, M, hM⟩ := hS.holds _ _ (view_splt.2 ⟨t₁, ht, rfl⟩)
  have hcb' : c = t₁.b := (hit.eq_iff hlast hS.placed hM).1 heq
  have h1 := ho.2
  rw [hw.block_eq] at h1
  rw [hat i hi ho, if_pos (by rw [hcb']; exact h1)]

/-- **A reattach** copies the block. -/
theorem reattach_spec (hR : s.Running lay vals L lv) (hS : s.Shaped L.length lv Ψ)
    (hlen : L.length = lay.size) (hcap : bpWidth ^ (lv + 1) < 2 ^ 64)
    (hroom : lay.size < bpWidth ^ (lv + 1)) (hrounds : bpWidth + lv ≤ rounds)
    (ht : s.task p = some t₁) :
    ∃ h' d Ψ', s.reattach rounds p t₁ = s.reattached h' p d ∧
      WrittenFrom s.heap h' (s.data (s.done p + 1)) t₁.splt d ∧
      Remade s.heap.next s.Node L.length s.heap Ψ h' Ψ' (s.data (s.done p + 1)) d ∧
      ∀ i, d.at' h' i = if t₁.a ≤ i ∧ i < t₁.b then t₁.splt.at' s.heap i
        else (s.data (s.done p + 1)).at' s.heap i := by
  have hI := hR.isolated
  obtain ⟨hab, hb⟩ := (hR.multiplied.task p t₁ ht).bounds
  have hlt := hI.done_lt p (by rw [ht]; rfl)
  have hO : s.view (.splt p) = some t₁.splt := view_splt.2 ⟨t₁, ht, rfl⟩
  have hV : s.view (.data (s.done p + 1)) = some (s.data (s.done p + 1)) :=
    view_data.2 ⟨hlt, rfl⟩
  obtain ⟨hszO, hlevO, M, hHO⟩ := hS.holds _ _ hO
  obtain ⟨hszV, hlevV, N, hHV⟩ := hS.holds _ _ hV
  have hB : Beside s.heap Ψ (s.data (s.done p + 1)) N t₁.splt M :=
    ⟨hS.placed, hHV, hHO, by rw [hlevO, hlevV], by rw [hszO, hszV],
      hI.foreign _ _ _ _ hO hV trivial⟩
  rw [← hlevV] at hcap hroom hrounds
  obtain ⟨h', r', Ψ', he, hB'⟩ := hB.assign hcap hab (by omega) (by omega) hrounds
  have hscope := hI.closed.reaches
    (S := fun a => Reach s.heap (s.data (s.done p + 1)).root a ∨ Reach s.heap t₁.splt.root a)
    fun a ha _ c k b hu hk => ha.imp (·.child hu hk) (·.child hu hk)
  obtain ⟨Ψ₁, e⟩ := hS.whole.assign hHV.root_lt (Shaped.node hV)
    ⟨hHO.root_lt, Shaped.node hO, by rw [hS.root_place hO, hS.root_place hV],
      by rw [hlevO, hlevV]⟩ he
  refine ⟨h', { s.data (s.done p + 1) with root := r' }, Ψ₁, ?_,
    hscope.assign (.tr _) (.inl (.inl .root)) hHV.root_lt rfl (.inl (.inr .root)) hHO.root_lt he,
    e, fun i => hB.at_splice hB' i⟩
  unfold Pipeline.reattach
  rw [he]

/-- It leaves the rest of the result, and whatever a worker is done with,
as it was. -/
theorem reattach (hR : s.Running lay vals L lv) (hlen : L.length = lay.size)
    (hcap : bpWidth ^ (lv + 1) < 2 ^ 64) (hroom : lay.size < bpWidth ^ (lv + 1))
    (hrounds : bpWidth + lv ≤ rounds) (ht : s.task p = some t₁)
    (hl : t₁.loop = some (last, it)) (heq : it.eq last = true) :
    (s.reattach rounds p t₁).Running lay vals L lv := by
  have hsplt := fun i (hi : i < L.length) ho => hR.splt_at ht hl heq hi (i := i) ho
  obtain ⟨Ψ, hS⟩ := hR.shaped
  obtain ⟨h', d, Ψ', heqn, w, e, hat⟩ := hR.reattach_spec hS hlen hcap hroom hrounds ht
  obtain ⟨hI, -, hM, hgo⟩ := hR
  have hw := hM.task p t₁ ht
  have hlt := hI.done_lt p (by rw [ht]; rfl)
  have hV : s.view (.data (s.done p + 1)) = some (s.data (s.done p + 1)) :=
    view_data.2 ⟨hlt, rfl⟩
  have hblock : ∀ i, Owns lay p i ↔ t₁.a ≤ i ∧ i < t₁.b := fun i => by
    unfold Owns
    rw [hw.block_eq]
  rw [heqn]
  refine ⟨hI.reattached ht w, ⟨Ψ', hS.reattached ht hlt e⟩, ⟨?_, ?_⟩, hgo⟩
  · intro k hk q hq hkq i hi ho
    unfold Pipeline.reattached at hk hkq ⊢
    dsimp only at hk hkq ⊢
    by_cases hkj : k = s.done p + 1
    · subst hkj
      rw [Function.update_self, hat]
      by_cases hqp : q = p
      · subst hqp
        rw [if_pos ((hblock i).1 ho)]
        exact hsplt i hi ho
      · -- an index of another block is out of the range
        rw [if_neg fun hin => hqp (ho.unique ((hblock i).2 hin))]
        rw [Function.update_of_ne hqp] at hkq
        exact hM.elem _ hk q hq hkq i hi ho
    · rw [Function.update_of_ne hkj]
      have hkq' : k ≤ s.done q := by
        by_cases hqp : q = p
        · subst hqp
          rw [Function.update_self] at hkq
          omega
        · rwa [Function.update_of_ne hqp] at hkq
      -- a vector further on is parted from the result, if a worker has come to it
      have hparted : s.Parted (.data k) (.data (s.done p + 1)) := by
        rcases Nat.lt_or_ge k (s.done p + 1) with h | h
        · exact .inl h
        · exact .inr ⟨by omega, q, .inl (by omega)⟩
      rw [at_of_unwritten fun d hd => hI.unwritten hV (view_data.2 ⟨hk, rfl⟩) hparted w hd]
      exact hM.elem k hk q hq hkq' i hi ho
  · intro q t htq
    unfold Pipeline.reattached at htq ⊢
    dsimp only at htq ⊢
    by_cases hqp : q = p
    · subst hqp
      rw [Function.update_self] at htq
      cases htq
    · rw [Function.update_of_ne hqp] at htq ⊢
      exact (hM.task q t htq).of_unwritten fun d hd =>
        hI.unwritten hV (view_splt.2 ⟨t, htq, rfl⟩) trivial w hd

end Running

/-! ## Runs -/

/-- The blocks are not empty, and the vectors have room to spare. -/
structure Sized (lay : Cont.Layout) (rounds : ℕ) (L : List T) (lv : ℕ) : Prop where
  length_eq : L.length = lay.size
  size_lt : lay.size < 2 ^ 53
  capacity : bpWidth ^ (lv + 1) < 2 ^ 64
  room : lay.size < bpWidth ^ (lv + 1)
  rounds_le : bpWidth + lv ≤ rounds

/-- **What a pipeline starts from**: such a vector, and ids that are yet to
be drawn. -/
structure Ready (lay : Cont.Layout) (rounds : ℕ) (h : Heap T) (v : BpVector) (L : List T)
    (unique : ℕ) : Prop extends Sized lay rounds L v.levels where
  represents : Represents h v L
  id_lt : v.id.toNat < unique
  ids_lt : ∀ a < h.next, (h.cell a).id.toNat < unique

variable {unique : ℕ} {act : PipeAct} {acts more : List PipeAct} {u : Pipeline T}

omit [Mul T] in
/-- At the start there is one vector. -/
theorem view_start {v w : BpVector} (hw : (start h v unique).view U = some w) :
    U = .data 0 ∧ w = v := by
  cases U with
  | data k =>
    obtain ⟨hk, rfl⟩ := view_data.1 hw
    obtain rfl := Nat.le_zero.1 hk
    exact ⟨rfl, rfl⟩
  | splt p =>
    obtain ⟨t, ht, -⟩ := view_splt.1 hw
    cases ht
  | used k p =>
    rcases (view_used.1 hw).1 with hlt | ⟨-, ht⟩
    · exact absurd hlt (Nat.not_lt_zero k)
    · cases ht

theorem Ready.running (hr : Ready lay rounds h v L unique) :
    (start h v unique).Running lay vals L v.levels := by
  obtain ⟨Ψ, hP, hv⟩ := hr.represents
  refine ⟨⟨hP.scope.closed, ?_, hr.ids_lt, ?_, ?_, ?_, fun _ => le_rfl, fun p hp => by cases hp⟩,
    ⟨Ψ, hP, ?_⟩, ⟨?_, fun p t ht => by cases ht⟩, rfl⟩
  · intro V w hw
    obtain ⟨-, rfl⟩ := view_start hw
    exact hv.root_lt
  · intro V w hV hw
    obtain ⟨-, rfl⟩ := view_start hw
    exact hr.id_lt
  · intro V W w x hV hW hw hx heq
    rw [(view_start hw).1, (view_start hx).1]
  · intro V W w x hw hx hp
    obtain ⟨rfl, -⟩ := view_start hw
    obtain ⟨rfl, -⟩ := view_start hx
    exact absurd hp (not_parted_self _)
  · intro V w hw
    obtain ⟨-, rfl⟩ := view_start hw
    exact ⟨hv.size, rfl, L, hv⟩
  · intro k hk p hp hkp i hi ho
    obtain rfl := Nat.le_zero.1 hk
    change v.at' h i = _
    rw [hv.at_eq, dif_pos hi]
    rfl

/-- Ids are drawn, and not given back. -/
theorem Moves.unique_le (hm : Moves lay.hwconc rounds vals s act t) : s.unique ≤ t.unique := by
  cases hm with
  | call => exact Nat.le_succ _
  | detach => exact Nat.le_add_right _ 2
  | enter =>
    unfold Pipeline.enter
    split <;> exact le_rfl
  | body =>
    unfold Pipeline.body
    split <;> exact le_rfl
  | reattach =>
    unfold Pipeline.reattach
    split <;> exact le_rfl

namespace Running

/-- **Every step** keeps the pipeline running, as long as ids are left. -/
theorem moves (hR : s.Running lay vals L lv) (hz : Sized lay rounds L lv)
    (hm : Moves lay.hwconc rounds vals s act t) (hu : t.unique ≤ 2 ^ 32) :
    t.Running lay vals L lv := by
  obtain ⟨Ψ, hS⟩ := hR.shaped
  cases hm with
  | call => exact hR.call hu
  | detach hp hnone hlt => exact hR.detach hz.length_eq hu hp hnone hlt
  | enter ht hl =>
    obtain ⟨h', t₂, Ψ', heq, w, e, hw, -⟩ := hR.enter_spec hS hz.length_eq hz.size_lt ht hl
    rw [heq]
    exact hR.looped ht hS w e hw
  | body ht hl hne =>
    obtain ⟨h', t₂, Ψ', heq, w, e, hw, -⟩ := hR.body_spec hS hz.length_eq hz.size_lt ht hl hne
    rw [heq]
    exact hR.looped ht hS w e hw
  | reattach ht hl heq =>
    exact hR.reattach hz.length_eq hz.capacity hz.room hz.rounds_le ht hl heq

/-- The vectors that a step leaves alone: splinters of the workers that do
not go on in their loops, and what has been detached from. -/
def Spares (act : PipeAct) : View → Prop
  | .data _ => False
  | .splt q => act ≠ .enter q ∧ act ≠ .body q
  | .used _ _ => True

/-- **It writes no node of those.** -/
theorem spares {v : BpVector} (hR : s.Running lay vals L lv) (hz : Sized lay rounds L lv)
    (hm : Moves lay.hwconc rounds vals s act t) (hU : s.view U = some v) (hact : Spares act U)
    (ha : Reach s.heap v.root a) : t.heap.cell a = s.heap.cell a := by
  obtain ⟨Ψ, hS⟩ := hR.shaped
  have hI := hR.isolated
  cases hm with
  | call => rfl
  | detach => rfl
  | @enter p t₁ ht hl =>
    obtain ⟨h', t₂, Ψ', heq, w, -⟩ := hR.enter_spec hS hz.length_eq hz.size_lt ht hl
    rw [heq]
    have hne : U ≠ .splt p := by
      rintro rfl
      exact hact.1 rfl
    exact hI.unwritten (view_splt.2 ⟨t₁, ht, rfl⟩) hU (parted_splt hne) w ha
  | @body p t₁ last it ht hl hne =>
    obtain ⟨h', t₂, Ψ', heq, w, -⟩ := hR.body_spec hS hz.length_eq hz.size_lt ht hl hne
    rw [heq]
    have hne : U ≠ .splt p := by
      rintro rfl
      exact hact.2 rfl
    exact hI.unwritten (view_splt.2 ⟨t₁, ht, rfl⟩) hU (parted_splt hne) w ha
  | @reattach p t₁ last it ht hl heq =>
    obtain ⟨h', d, Ψ', heqn, w, -⟩ := hR.reattach_spec hS hz.length_eq hz.capacity hz.room
      hz.rounds_le ht
    rw [heqn]
    have hlt := hI.done_lt p (by rw [ht]; rfl)
    refine hI.unwritten (view_data.2 ⟨hlt, rfl⟩) hU ?_ w ha
    cases U with
    | data k => exact hact.elim
    | splt q => trivial
    | used k q => trivial

end Running

/-- What a run from the start leaves running. -/
theorem Ready.running_of_run (hr : Ready lay rounds h v L unique)
    (hrun : (pipeline lay.hwconc rounds vals).run (start h v unique) acts = some s)
    (hids : s.unique ≤ 2 ^ 32) : s.Running lay vals L v.levels := by
  refine Machine.run_invariant (I := fun s => s.unique ≤ 2 ^ 32 → s.Running lay vals L v.levels)
    (fun s act t hs hstep hu => ?_) (fun _ => hr.running) hrun hids
  obtain ⟨-, hm⟩ := moves_of_step hstep
  exact (hs (hm.unique_le.trans hu)).moves hr.toSized hm hu

/-- Where all workers have come to a vector, all of it is computed. -/
theorem Running.represents {k : ℕ} (hR : s.Running lay vals L lv) (hz : Sized lay rounds L lv)
    (hk : k ≤ s.calls) (hdone : ∀ p < lay.hwconc, k ≤ s.done p) :
    Represents s.heap (s.data k) (L.map (product vals k)) := by
  obtain ⟨Ψ, hS⟩ := hR.shaped
  obtain ⟨hsz, -, M, hM⟩ := hS.holds _ _ (view_data.2 ⟨hk, rfl⟩)
  have hlen := hM.size
  have heq : M = L.map (product vals k) := by
    refine List.ext_getElem (by rw [List.length_map]; omega) fun i h1 h2 => ?_
    have hi : i < L.length := by omega
    have hsize := hz.length_eq
    have hit : i < lay.size := by omega
    obtain ⟨p, hp, ho⟩ := Cont.partition_covers lay.hwconc_pos hit
    have hat := hR.multiplied.elem k hk p hp (hdone p hp) i hi ho
    rw [hM.at_eq, dif_pos h1] at hat
    rw [List.getElem_map]
    exact Except.ok.inj hat
  rw [← heq]
  exact ⟨Ψ, hS.placed, hM⟩

omit K in
/-- Two workers and three values, doubled and then taken three times: a state
in the midst of it, the round of a loop after it, and the end of it all. -/
theorem exists_runs_three :
    letI := twoBits
    ∃ (h : Heap ℤ) (v : BpVector) (acts more : List PipeAct) (s t u : Pipeline ℤ),
      Ready ⟨2, 3, by decide, by decide⟩ 8 h v [1, 2, 3] 2 ∧
      (pipeline 2 8 fun k => (k : ℤ) + 2).run (start h v 2) acts = some s ∧
      (pipeline 2 8 fun k => (k : ℤ) + 2).step s (.body 0) = some t ∧
      (pipeline 2 8 fun k => (k : ℤ) + 2).run s more = some u ∧
      (∀ act ∈ more, act ≠ .call) ∧ s.done 0 = 0 ∧ (s.task 0).isSome ∧ (s.task 1).isSome ∧
      s.unique ≤ u.unique ∧ u.unique = 12 ∧ u.calls = 2 ∧ ∀ p < 2, u.done p = 2 := by
  let _ := twoBits
  obtain ⟨⟨h, v⟩, hrun, hv⟩ := handle_represents .tr 1 (fun _ => 0)
    [.inPlace (by decide) (.push 1), .inPlace (by decide) (.push 2), .inPlace (by decide) (.push 3)]
    (by simp [Update.Instantiable]) (show (lists ℤ).run [] _ = some [1, 2, 3] by decide +kernel)
  have hrest : ((handle ℤ .tr fun _ => 0).run (newVector .tr 1 Heap.empty)
      [.inPlace (by decide) (.push 1), .inPlace (by decide) (.push 2),
        .inPlace (by decide) (.push 3)]).bind (fun s₀ =>
      ((pipeline 2 8 fun k => (k : ℤ) + 2).run (start s₀.1 s₀.2 2)
        [.call, .detach 0, .call, .detach 1, .enter 0, .enter 1]).bind fun s =>
      ((pipeline 2 8 fun k => (k : ℤ) + 2).step s (.body 0)).bind fun t =>
      ((pipeline 2 8 fun k => (k : ℤ) + 2).run t
        [.body 1, .body 0, .reattach 0, .detach 0, .reattach 1, .enter 0, .detach 1, .body 0,
          .enter 1, .body 1, .reattach 1, .body 0, .reattach 0]).map fun u =>
      decide ((s₀.2.levels = 0 ∧ s₀.2.id = 1 ∧ ∀ a < s₀.1.next, (s₀.1.cell a).id = 1) ∧
        s.done 0 = 0 ∧ (s.task 0).isSome ∧ (s.task 1).isSome ∧ s.unique ≤ u.unique ∧
        u.unique = 12 ∧ u.calls = 2 ∧ ∀ p : ℕ, p < 2 → u.done p = 2)) = some true := by
    decide +kernel
  rw [hrun, Option.bind_some] at hrest
  obtain ⟨s, hs, hrest⟩ := Option.bind_eq_some_iff.1 hrest
  obtain ⟨t, ht, hrest⟩ := Option.bind_eq_some_iff.1 hrest
  obtain ⟨u, hu, hrest⟩ := Option.map_eq_some_iff.1 hrest
  obtain ⟨⟨hlv, hid, hids⟩, hrest⟩ := of_decide_eq_true hrest
  refine ⟨h, v, _, _, s, t, u, ⟨⟨rfl, by decide, ?_, ?_, ?_⟩, hv, ?_, ?_⟩, hs, ht,
    (Machine.run_cons_of_step _ ht _).trans hu, by decide, hrest⟩
  · rw [hlv]
    decide
  · rw [hlv]
    decide
  · rw [hlv]
    decide
  · rw [hid]
    decide
  · intro a ha
    rw [hids a ha]
    decide

/-- **A pipeline multiplies.** Whatever the order of the calls and of the
workers' steps, nothing stops, and where a worker is done with the calls up
to a vector, its block of it holds the products; so does all of it once
all workers are. -/
theorem elements (hr : Ready lay rounds h v L unique)
    (hrun : (pipeline lay.hwconc rounds vals).run (start h v unique) acts = some s)
    (hids : s.unique ≤ 2 ^ 32) :
    s.stopped = none ∧
      (∀ k ≤ s.calls, ∀ p < lay.hwconc, k ≤ s.done p → ∀ i (hi : i < L.length), Owns lay p i →
        (s.data k).at' s.heap i = .ok (product vals k L[i])) ∧
      ∀ k ≤ s.calls, (∀ p < lay.hwconc, k ≤ s.done p) →
        Represents s.heap (s.data k) (L.map (product vals k)) := by
  have hR := hr.running_of_run hrun hids
  exact ⟨hR.going, hR.multiplied.elem, fun k hk hdone => hR.represents hr.toSized hk hdone⟩

omit K in
theorem elements_three :
    letI := twoBits
    ∃ (h : Heap ℤ) (v : BpVector) (acts : List PipeAct) (u : Pipeline ℤ),
      (pipeline 2 8 fun k => (k : ℤ) + 2).run (start h v 2) acts = some u ∧ u.stopped = none ∧
      Represents u.heap (u.data 2) [6, 12, 18] := by
  let _ := twoBits
  obtain ⟨h, v, acts, more, s, t, u, hr, hs, -, hu, -, -, -, -, -, hids, hcalls, hdone⟩ :=
    exists_runs_three
  have hrun : (pipeline 2 8 fun k => (k : ℤ) + 2).run (start h v 2) (acts ++ more) = some u := by
    rw [Machine.run_append, hs]
    exact hu
  obtain ⟨hgo, -, hrep⟩ := elements hr hrun (by omega)
  exact ⟨h, v, _, u, hrun, hgo, hrep 2 (by omega) fun p hp => (hdone p hp).ge⟩

/-- **No step writes what another worker works on.** Whatever the order of
the steps, no node of a splinter is written but by the worker whose it is,
while it goes on in its loop. -/
theorem splinter_unwritten (hr : Ready lay rounds h v L unique)
    (hrun : (pipeline lay.hwconc rounds vals).run (start h v unique) acts = some s)
    (hids : s.unique ≤ 2 ^ 32) (hstep : (pipeline lay.hwconc rounds vals).step s act = some t)
    {q : ℕ} (hq : s.task q = some t₁) (henter : act ≠ .enter q) (hbody : act ≠ .body q) :
    ∀ a, Reach s.heap t₁.splt.root a → t.heap.cell a = s.heap.cell a := fun _ ha =>
  (hr.running_of_run hrun hids).spares hr.toSized (moves_of_step hstep).2
    (view_splt.2 ⟨t₁, hq, rfl⟩) ⟨henter, hbody⟩ ha

omit K in
theorem splinter_unwritten_three :
    letI := twoBits
    ∃ (s t : Pipeline ℤ) (t₁ : Task),
      (pipeline 2 8 fun k => (k : ℤ) + 2).step s (.body 0) = some t ∧ s.task 1 = some t₁ ∧
      ∀ a, Reach s.heap t₁.splt.root a → t.heap.cell a = s.heap.cell a := by
  let _ := twoBits
  obtain ⟨h, v, acts, more, s, t, u, hr, hs, ht, -, -, -, -, htask, hle, hids, -⟩ :=
    exists_runs_three
  obtain ⟨t₁, ht₁⟩ := Option.isSome_iff_exists.1 htask
  have hspare := splinter_unwritten hr hs (by omega) ht ht₁ (by decide) (by decide)
  exact ⟨s, t, t₁, ht, ht₁, hspare⟩

/-- What has been detached from stays in `_used`. -/
theorem Moves.used {k q : ℕ} (hm : Moves lay.hwconc rounds vals s act t) (hd : s.Detached k q) :
    t.Detached k q ∧ t.used k q = s.used k q := by
  have hloop : ∀ {p h} {t₁ t₂ : Task}, s.task p = some t₁ →
      (s.looped h p t₂).Detached k q ∧ (s.looped h p t₂).used k q = s.used k q := by
    intro p h t₁ t₂ ht
    refine ⟨hd.imp_right fun hk => ⟨hk.1, ?_⟩, rfl⟩
    unfold Pipeline.looped
    dsimp only
    by_cases hqp : q = p
    · subst hqp
      rw [Function.update_self]
      rfl
    · rw [Function.update_of_ne hqp]
      exact hk.2
  cases hm with
  | call => exact ⟨hd, rfl⟩
  | @detach p hp hnone hlt =>
    have hne : ¬ (k = s.done p ∧ q = p) := by
      rintro ⟨rfl, rfl⟩
      rcases hd with hlt | ⟨-, hsome⟩
      · omega
      · rw [hnone] at hsome
        cases hsome
    unfold Pipeline.detach
    refine ⟨hd.imp_right fun hk => ⟨hk.1, ?_⟩, ?_⟩
    · dsimp only
      by_cases hqp : q = p
      · exact absurd ⟨by rw [hk.1, hqp], hqp⟩ hne
      · rw [Function.update_of_ne hqp]
        exact hk.2
    · dsimp only
      by_cases hkj : k = s.done p
      · subst hkj
        rw [Function.update_self, Function.update_of_ne fun hqp => hne ⟨rfl, hqp⟩]
      · rw [Function.update_of_ne hkj]
  | enter ht hl =>
    unfold Pipeline.enter
    split
    · exact ⟨hd, rfl⟩
    · exact hloop ht
  | body ht hl hne =>
    unfold Pipeline.body
    split
    · exact ⟨hd, rfl⟩
    · exact hloop ht
  | @reattach p t₁ last it ht hl heq =>
    unfold Pipeline.reattach
    split
    · exact ⟨hd, rfl⟩
    · refine ⟨?_, rfl⟩
      unfold Pipeline.reattached Detached
      dsimp only
      by_cases hqp : q = p
      · subst hqp
        rw [Function.update_self]
        left
        rcases hd with hlt | ⟨rfl, -⟩
        · omega
        · exact Nat.lt_succ_self _
      · rw [Function.update_of_ne hqp, Function.update_of_ne hqp]
        exact hd

/-- **What a worker has detached from lasts.** The elements that `_used`
keeps are those of the detach, whatever is done afterwards to the vector
they are from, and to all others. -/
theorem used_lasts {k q : ℕ} (hr : Ready lay rounds h v L unique)
    (hrun : (pipeline lay.hwconc rounds vals).run (start h v unique) acts = some s)
    (hmore : (pipeline lay.hwconc rounds vals).run s more = some u) (hids : u.unique ≤ 2 ^ 32)
    (hd : s.Detached k q) :
    u.used k q = s.used k q ∧ ∀ i, (s.used k q).at' u.heap i = (s.used k q).at' s.heap i := by
  have hlasts := Machine.run_invariant (s := s) (t := u)
    (I := fun t => t.unique ≤ 2 ^ 32 → t.Running lay vals L v.levels ∧ t.Detached k q ∧
      t.used k q = s.used k q ∧ ∀ i, (s.used k q).at' t.heap i = (s.used k q).at' s.heap i)
    (fun t act t' ht hstep hu => ?_)
    (fun hu => ⟨hr.running_of_run hrun hu, hd, rfl, fun _ => rfl⟩) hmore hids
  · exact hlasts.2.2
  · obtain ⟨-, hm⟩ := moves_of_step hstep
    obtain ⟨hR, hdt, hused, hat⟩ := ht (hm.unique_le.trans hu)
    obtain ⟨hdt', hused'⟩ := hm.used hdt
    refine ⟨hR.moves hr.toSized hm hu, hdt', hused'.trans hused, fun i => ?_⟩
    rw [← hat i, ← hused]
    exact at_of_unwritten (fun d hd' => hR.spares hr.toSized hm (view_used.2 ⟨hdt, rfl⟩) trivial
      hd') i

omit K in
theorem used_lasts_three :
    letI := twoBits
    ∃ s u : Pipeline ℤ, s.done 0 = 0 ∧ u.done 0 = 2 ∧
      u.used 0 0 = s.used 0 0 ∧ ∀ i, (s.used 0 0).at' u.heap i = (s.used 0 0).at' s.heap i := by
  let _ := twoBits
  obtain ⟨h, v, acts, more, s, t, u, hr, hs, -, hu, -, hdone, htask, -, -, hids, -, hdone'⟩ :=
    exists_runs_three
  refine ⟨s, u, hdone, hdone' 0 (by omega), ?_⟩
  exact used_lasts hr hs hu (by omega) (.inr ⟨hdone.symm, htask⟩)

/-! ## The end of it -/

/-- What worker `p` has yet to do, in steps, of the calls so far. -/
def toGo (size : ℕ) (s : Pipeline T) (p : ℕ) : ℕ :=
  match s.task p with
  | none => (s.calls - s.done p) * (size + 3)
  | some t =>
    (s.calls - s.done p - 1) * (size + 3) +
      match t.loop with
      | none => size + 2
      | some (last, it) => if it.eq last then 1 else 1 + (t.b - (it.i + it.cur))

omit [Mul T] in
theorem toGo_none (ht : s.task p = none) : s.toGo n p = (s.calls - s.done p) * (n + 3) := by
  unfold toGo
  rw [ht]

omit [Mul T] in
theorem toGo_some (ht : s.task p = some t₁) (hl : t₁.loop = none) :
    s.toGo n p = (s.calls - s.done p - 1) * (n + 3) + (n + 2) := by
  unfold toGo
  rw [ht]
  dsimp only
  rw [hl]

/-- In the loop, the rounds up to the end of the block, and the reattach. -/
theorem Running.toGo_loop (hR : s.Running lay vals L lv) (hlen : L.length = lay.size)
    (ht : s.task p = some t₁) (hl : t₁.loop = some (last, it))
    (hc : it.At (nodeCopy .tr t₁.splt.id) s.heap t₁.splt c) (hcb : c ≤ t₁.b) :
    s.toGo n p = (s.calls - s.done p - 1) * (n + 3) + (1 + (t₁.b - c)) := by
  obtain ⟨Ψ, hS⟩ := hR.shaped
  have hw := hR.multiplied.task p t₁ ht
  obtain ⟨-, hb⟩ := hw.bounds
  obtain ⟨-, -, -, hlast, -⟩ := hw.within last it hl
  obtain ⟨hsz, -, M, hM⟩ := hS.holds _ _ (view_splt.2 ⟨t₁, ht, rfl⟩)
  have hiff := hc.eq_iff hlast hS.placed hM
  unfold toGo
  rw [ht]
  dsimp only
  rw [hl]
  dsimp only
  split
  · next heq =>
    have := hiff.1 heq
    omega
  · next hne =>
    have hlt : c ≠ t₁.b := fun heq => hne (hiff.2 heq)
    have hbase := hc.base_eq (by omega)
    omega

/-- **A worker's step** takes one of those it has to do, and none of the
others'. -/
theorem Running.toGo_lt (hR : s.Running lay vals L lv) (hz : Sized lay rounds L lv)
    (hm : Moves lay.hwconc rounds vals s act t) (hu : t.unique ≤ 2 ^ 32) (hact : act ≠ .call) :
    ∃ p < lay.hwconc, t.toGo lay.size p < s.toGo lay.size p ∧
      ∀ q ≠ p, t.toGo lay.size q = s.toGo lay.size q := by
  obtain ⟨Ψ, hS⟩ := hR.shaped
  have hR' := hR.moves hz hm hu
  have hlen := hz.length_eq
  have hframe : ∀ {p h t₂}, ∀ q ≠ p, (s.looped h p t₂).toGo lay.size q = s.toGo lay.size q := by
    intro p h t₂ q hqp
    unfold toGo Pipeline.looped
    dsimp only
    rw [Function.update_of_ne hqp]
  cases hm with
  | call => exact absurd rfl hact
  | @detach p hp hnone hlt =>
    refine ⟨p, hp, ?_, fun q hqp => ?_⟩
    · have ht' : (s.detach lay.hwconc p).task p = some ⟨_, _, _, none⟩ := Function.update_self ..
      rw [toGo_none hnone, toGo_some ht' rfl]
      change (s.calls - s.done p - 1) * _ + _ < (s.calls - s.done p) * _
      obtain ⟨m, hm⟩ : ∃ m, s.calls - s.done p = m + 1 := ⟨s.calls - s.done p - 1, by omega⟩
      rw [hm, Nat.add_sub_cancel, Nat.succ_mul]
      omega
    · unfold toGo Pipeline.detach
      dsimp only
      rw [Function.update_of_ne hqp]
  | @enter p t₁ ht hl =>
    obtain ⟨h', t₂, Ψ', heq, w, e, hw, hsome⟩ := hR.enter_spec hS hlen hz.size_lt ht hl
    obtain ⟨l, hl'⟩ := Option.isSome_iff_exists.1 hsome
    rw [heq] at hR' ⊢
    refine ⟨p, hw.lt, ?_, hframe⟩
    have ht' : (s.looped h' p t₂).task p = some t₂ := Function.update_self ..
    obtain ⟨-, hb⟩ := hw.bounds
    obtain ⟨c, hac, hcb, -, hit, -⟩ := hw.within l.1 l.2 hl'
    rw [toGo_some ht hl, hR'.toGo_loop hlen ht' hl' hit hcb]
    change (s.calls - s.done p - 1) * _ + _ < _
    omega
  | @body p t₁ last it ht hl hne =>
    obtain ⟨h', t₂, Ψ', heq, w, e, hw, hbeq, c, hcb, hit, it', hl', hit'⟩ :=
      hR.body_spec hS hlen hz.size_lt ht hl hne
    rw [heq] at hR' ⊢
    refine ⟨p, hw.lt, ?_, hframe⟩
    have ht' : (s.looped h' p t₂).task p = some t₂ := Function.update_self ..
    rw [hR.toGo_loop hlen ht hl hit hcb.le, hR'.toGo_loop hlen ht' hl' hit' (by omega)]
    change (s.calls - s.done p - 1) * _ + _ < _
    omega
  | @reattach p t₁ last it ht hl heq =>
    obtain ⟨h', d, Ψ', heqn, -⟩ := hR.reattach_spec hS hlen hz.capacity hz.room hz.rounds_le ht
    have hw := hR.multiplied.task p t₁ ht
    obtain ⟨c, hac, hcb, -, hit, -⟩ := hw.within last it hl
    rw [heqn]
    refine ⟨p, hw.lt, ?_, fun q hqp => ?_⟩
    · have ht' : (s.reattached h' p d).task p = none := Function.update_self ..
      have hdone : (s.reattached h' p d).done p = s.done p + 1 := Function.update_self ..
      rw [hR.toGo_loop hlen ht hl hit hcb, toGo_none ht', hdone]
      change (s.calls - (s.done p + 1)) * _ < _
      rw [Nat.sub_sub]
      omega
    · unfold toGo Pipeline.reattached
      dsimp only
      rw [Function.update_of_ne hqp, Function.update_of_ne hqp]

theorem unique_le_of_run (hrun : (pipeline lay.hwconc rounds vals).run s acts = some u) :
    s.unique ≤ u.unique :=
  Machine.run_invariant (I := fun t => s.unique ≤ t.unique)
    (fun _ _ _ hle hstep => hle.trans (moves_of_step hstep).2.unique_le) le_rfl hrun

/-- The workers' steps are no more than what they have to do. -/
theorem Running.length_le (hR : s.Running lay vals L lv) (hz : Sized lay rounds L lv)
    (hrun : (pipeline lay.hwconc rounds vals).run s acts = some u) (hids : u.unique ≤ 2 ^ 32)
    (hacts : ∀ act ∈ acts, act ≠ .call) :
    acts.length + ∑ p ∈ Finset.range lay.hwconc, u.toGo lay.size p ≤
      ∑ p ∈ Finset.range lay.hwconc, s.toGo lay.size p := by
  induction acts generalizing s with
  | nil =>
    cases hrun
    rw [List.length_nil, Nat.zero_add]
  | cons act acts ih =>
    obtain ⟨t, hstep, hrun⟩ := Machine.exists_step_of_run_cons _ hrun
    have hm := (moves_of_step hstep).2
    have hu : t.unique ≤ 2 ^ 32 := (unique_le_of_run hrun).trans hids
    obtain ⟨p, hp, hlt, hframe⟩ := hR.toGo_lt hz hm hu (hacts act List.mem_cons_self)
    have hle := ih (hR.moves hz hm hu) hrun fun a ha => hacts a (List.mem_cons_of_mem act ha)
    have hsum : ∑ p ∈ Finset.range lay.hwconc, t.toGo lay.size p <
        ∑ p ∈ Finset.range lay.hwconc, s.toGo lay.size p := by
      refine Finset.sum_lt_sum (fun q _ => ?_) ⟨p, Finset.mem_range.2 hp, hlt⟩
      by_cases hqp : q = p
      · rw [hqp]
        exact hlt.le
      · exact (hframe q hqp).le
    rw [List.length_cons]
    omega

/-- A worker that is not done with the calls so far can go on. -/
theorem exists_step {p : ℕ} (rounds : ℕ) (vals : ℕ → T) (hgo : s.stopped = none)
    (hp : p < lay.hwconc) (hlt : s.done p < s.calls) :
    ∃ act t, act ≠ .call ∧ (pipeline lay.hwconc rounds vals).step s act = some t := by
  unfold pipeline
  dsimp only
  rw [hgo]
  cases ht : s.task p with
  | none => exact ⟨.detach p, _, fun h => (by cases h), by simp [hp, ht, hlt]; rfl⟩
  | some t₁ =>
    cases hl : t₁.loop with
    | none => exact ⟨.enter p, _, fun h => (by cases h), by simp [ht, hl]; rfl⟩
    | some l =>
      cases heq : l.2.eq l.1 with
      | false => exact ⟨.body p, _, fun h => (by cases h), by simp [ht, hl, heq]; rfl⟩
      | true => exact ⟨.reattach p, _, fun h => (by cases h), by simp [ht, hl, heq]; rfl⟩

/-- The workers rest where all of them are done with the calls so far. -/
theorem Running.rests_iff (rounds : ℕ) (hR : s.Running lay vals L lv) :
    (∀ act ≠ .call, (pipeline lay.hwconc rounds vals).step s act = none) ↔
      ∀ p < lay.hwconc, s.calls ≤ s.done p := by
  constructor
  · intro hrest p hp
    by_contra hlt
    obtain ⟨act, t, hact, hstep⟩ := exists_step rounds vals hR.going hp (by omega)
    rw [hrest act hact] at hstep
    cases hstep
  · intro hdone act hact
    by_contra hne
    obtain ⟨t, hstep⟩ := Option.ne_none_iff_exists'.1 hne
    have hbusy : ∀ {p : ℕ} {t₁ : Task}, s.task p ≠ some t₁ := by
      intro p t₁ ht
      have hlt := hR.isolated.done_lt p (by rw [ht]; rfl)
      have := hdone p (hR.multiplied.task p t₁ ht).lt
      omega
    cases (moves_of_step hstep).2 with
    | call => exact hact rfl
    | detach hp ht hd =>
      have := hdone _ hp
      omega
    | enter ht => exact hbusy ht
    | body ht => exact hbusy ht
    | reattach ht => exact hbusy ht

/-- **Left alone, the workers come to the end of it.** From any state, they
take no more steps than the calls leave them; and where they can take none
any more, each of the vectors holds its products. -/
theorem workers_finish (hr : Ready lay rounds h v L unique)
    (hrun : (pipeline lay.hwconc rounds vals).run (start h v unique) acts = some s)
    (hmore : (pipeline lay.hwconc rounds vals).run s more = some u) (hids : u.unique ≤ 2 ^ 32)
    (hcall : ∀ act ∈ more, act ≠ .call) :
    more.length ≤ ∑ p ∈ Finset.range lay.hwconc, s.toGo lay.size p ∧
      ((∀ act ≠ .call, (pipeline lay.hwconc rounds vals).step u act = none) →
        ∀ k ≤ u.calls, Represents u.heap (u.data k) (L.map (product vals k))) := by
  have hR := hr.running_of_run hrun ((unique_le_of_run hmore).trans hids)
  have hall : (pipeline lay.hwconc rounds vals).run (start h v unique) (acts ++ more) = some u := by
    rw [Machine.run_append, hrun]
    exact hmore
  refine ⟨?_, fun hrest k hk => ?_⟩
  · have := hR.length_le hr.toSized hmore hids hcall
    omega
  · have hRu := hr.running_of_run hall hids
    exact hRu.represents hr.toSized hk fun p hp => hk.trans (hRu.rests_iff rounds |>.1 hrest p hp)

end

omit K in
theorem workers_finish_three :
    letI := twoBits
    ∃ s u : Pipeline ℤ, 0 < s.toGo 3 0 + s.toGo 3 1 ∧
      Represents u.heap (u.data 1) [2, 4, 6] ∧ Represents u.heap (u.data 2) [6, 12, 18] := by
  let _ := twoBits
  obtain ⟨h, v, acts, more, s, t, u, hr, hs, ht, hu, hcall, hdone, -, -, -, hids, hcalls, hdone'⟩ :=
    exists_runs_three
  have hrun : (pipeline 2 8 fun k => (k : ℤ) + 2).run (start h v 2) (acts ++ more) = some u := by
    rw [Machine.run_append, hs]
    exact hu
  have hrest := (Running.rests_iff 8 (hr.running_of_run hrun (by omega))).2 fun p hp =>
    hcalls.le.trans (hdone' p hp).ge
  obtain ⟨hle, hrep⟩ := workers_finish hr hs hu (by omega) hcall
  refine ⟨s, u, ?_, hrep hrest 1 (by omega), hrep hrest 2 (by omega)⟩
  rw [Finset.sum_range_succ, Finset.sum_range_one] at hle
  refine lt_of_lt_of_le (List.length_pos_iff.2 fun hnil => ?_) hle
  rw [hnil] at hu
  cases hu
  have := hdone' 0 (by omega)
  omega

end Pipeline

end Contentious
