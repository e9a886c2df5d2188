import Contentious.Cont.Blocks
import Contentious.Trie.Node
import Mathlib.Data.Rat.Defs

/-!
# Cont — resolving a dependency

Each worker computes its block of a dependent from a snapshot, and by the
time all are done the source has changed. `resolve_monotonic` walks the
indices where snapshot and source may differ, and applies to the element
that was computed from each the difference it has become wrong by.

A `tr_vector` is its contents here, and a snapshot is a copy. Contents are
functions of the index, and what they are outside the vector is never read
by a resolution. How a reattach copies its block is a parameter
(`Storage`): the range copy it is meant to be, or what `assign` does.
-/

namespace Contentious.Cont

/-- `op<T>` -/
structure Op (T : Type) where
  identity : T
  f : T → T → T
  inv : T → T → T

/-- `plus`, over exact numbers -/
def plus : Op ℚ := ⟨0, fun a b => a + b, fun a b => a - b⟩

/-- `multplus_fp(a, b, c)` -/
def multplus (a b c : ℚ) : ℚ := a + c * b

/-- The operator `stencil` registers for one coefficient. -/
def fullop (coeff : ℚ) : Op ℚ := ⟨0, fun a b => multplus a b coeff, fun a b => a - b⟩

/-- An index map with its operator: one entry of a tracker. -/
structure Dep where
  imap : Imap
  op : Op ℚ

/-- What `stencil` registers: the identity, then the offsets with their
coefficients. -/
def stencilDeps (offs : List ℤ) (coeffs : List ℚ) : List Dep :=
  ⟨identity, plus⟩ :: List.zipWith (fun o c => ⟨offset o, fullop c⟩) offs coeffs

/-- The elements of a vector. -/
abbrev Contents := ℤ → ℚ

/-- The elements from `a` to `b` from the one, the others from the other. -/
def assignRange (d splt : Contents) (a b : ℤ) : Contents :=
  fun t => if a ≤ t ∧ t < b then splt t else d t

/-- **What the vectors are stored in**, of which a reattach needs
`dep._data.assign(splt._data, a, b)`. -/
structure Storage where
  assign : Contents → Contents → ℤ → ℤ → Exec Contents

namespace Storage

/-- One that copies the range it is given, -/
def exact : Storage := ⟨fun d splt a b => .ok (assignRange d splt a b)⟩

/-- and one that does so with the blocks of the workers. -/
def Copies (st : Storage) (lay : Layout) : Prop :=
  ∀ d splt, ∀ p < lay.hwconc, st.assign d splt (lay.a p) (lay.b p) =
    .ok (assignRange d splt (lay.a p) (lay.b p))

/-- One that copies something. -/
def Goes (st : Storage) (lay : Layout) : Prop :=
  ∀ d splt, ∀ p < lay.hwconc, ∃ d', st.assign d splt (lay.a p) (lay.b p) = .ok d'

theorem Copies.goes {st : Storage} {lay : Layout} (h : st.Copies lay) : st.Goes lay :=
  fun d splt p hp => ⟨_, h d splt p hp⟩

end Storage

/-- `*(v.cbegin() + i)` -/
def elemAt (lay : Layout) (v : Contents) (i : ℤ) : Exec ℚ :=
  if lay.InRange i then .ok (v i) else .error .outOfBounds

/-- `_used[p]`, read at `c` -/
def usedAt (lay : Layout) (used : ℕ → Contents) (p : ℕ) (c : ℤ) : Exec ℚ :=
  if p < lay.hwconc then elemAt lay (used p) c else .error .outOfBounds

/-- What the loops of `resolve_monotonic` work on: the dependent's
elements and its `contended`, and the variable `p`. -/
structure Repair where
  data : Contents
  contended : SortedSet ℤ
  p : ℕ

/-- The end of both loop bodies: compare what is with what was used, and
repair the element it went into. -/
def repairCell (lay : Layout) (dep : Dep) (src : Contents) (used : ℕ → Contents) (c cmap : ℤ)
    (st : Repair) : Exec Repair := do
  let curr ← elemAt lay src c
  let trck ← usedAt lay used st.p c
  let diff := dep.op.inv curr trck
  if diff ≠ dep.op.identity then
    let it ← elemAt lay st.data cmap
    .ok { st with
      data := Function.update st.data cmap (dep.op.f it diff)
      -- since this changed, we may need to resolve it
      contended := st.contended.insert cmap }
  else .ok st

/-- The body of the loop over `icontended`. -/
def scanWindow (lay : Layout) (dep : Dep) (src : Contents) (used : ℕ → Contents) (st : Repair)
    (c : ℤ) : Exec Repair :=
  let st := { st with p := lay.hwconc }
  let cmap := dep.imap c
  if cmap < 0 ∨ cmap > lay.size then .ok st
  else
    let st := { st with p := lay.owner cmap st.p }
    if st.p = lay.hwconc then .error .assertion else repairCell lay dep src used c cmap st

/-- The body of the loop over `contended`, where `p` stays what it was
last if no block holds the index. -/
def scanContended (lay : Layout) (dep : Dep) (src : Contents) (used : ℕ → Contents)
    (icontended : SortedSet ℤ) (st : Repair) (c : ℤ) : Exec Repair :=
  let cmap := dep.imap c
  if cmap < 0 ∨ cmap > lay.size then .ok st
  -- already resolved
  else if c ∈ icontended then .ok st
  else repairCell lay dep src used c cmap { st with p := lay.owner cmap st.p }

/-- One round of `resolve_monotonic`, for one index map. -/
def resolveDep (lay : Layout) (src : Contents) (contended : SortedSet ℤ) (used : ℕ → Contents)
    (st : Contents × SortedSet ℤ) (dep : Dep) : Exec (Contents × SortedSet ℤ) := do
  let icontended := windows lay dep.imap
  let st ← icontended.elems.foldlM (scanWindow lay dep src used) ⟨st.1, st.2, lay.hwconc⟩
  let st ← contended.elems.foldlM (scanContended lay dep src used icontended) st
  .ok (st.data, st.contended)

/-- `resolve_monotonic(dep)`, on the dependent's elements and its
`contended`. -/
def resolveMonotonic (lay : Layout) (deps : List Dep) (src : Contents) (contended : SortedSet ℤ)
    (used : ℕ → Contents) (dep : Contents × SortedSet ℤ) : Exec (Contents × SortedSet ℤ) :=
  deps.foldlM (resolveDep lay src contended used) dep

/-- A reattach writes its block, -/
theorem assignRange_block {lay : Layout} {d splt : Contents} {p : ℕ} {t : ℤ}
    (ht : lay.InBlock p t) :
    assignRange d splt (lay.a p) (lay.b p) t = splt t := if_pos ht

/-- and nothing else. -/
theorem assignRange_other {lay : Layout} {d splt : Contents} {p : ℕ} {t : ℤ}
    (ht : ¬ lay.InBlock p t) :
    assignRange d splt (lay.a p) (lay.b p) t = d t := if_neg ht

/-! ## What one index map repairs -/

/-- The operator adds a multiple, and its inverse takes differences. -/
structure Op.Adds (op : Op ℚ) (k : ℚ) : Prop where
  identity_eq : op.identity = 0
  f_eq : ∀ x d, op.f x d = x + k * d
  inv_eq : ∀ x y, op.inv x y = x - y

theorem plus_adds : plus.Adds 1 := ⟨rfl, fun x d => by simp [plus], fun _ _ => rfl⟩

theorem fullop_adds (k : ℚ) : (fullop k).Adds k := ⟨rfl, fun _ _ => rfl, fun _ _ => rfl⟩

variable {lay : Layout} {op : Op ℚ} {o c : ℤ} {r : ℚ} {src : Contents} {used : ℕ → Contents}

/-- How far the snapshot used for `t` is off at the index `o` away. -/
def stale (lay : Layout) (src : Contents) (used : ℕ → Contents) (o t : ℤ) : ℚ :=
  src (t + o) - used (lay.owner t lay.hwconc) (t + o)

/-- **What a scan of some indices does**: the targets within the vector
are repaired, and those repaired are recorded. -/
structure Repaired (lay : Layout) (src : Contents) (used : ℕ → Contents) (o : ℤ) (r : ℚ)
    (scanned : ℤ → Prop) (d d' : Contents) (s s' : SortedSet ℤ) : Prop where
  hit : ∀ t, lay.InRange t → scanned (t + o) → d' t = d t + r * stale lay src used o t
  missed : ∀ t, lay.InRange t → ¬ scanned (t + o) → d' t = d t
  kept : ∀ t ∈ s, t ∈ s'
  recorded : ∀ t, lay.InRange t → scanned (t + o) → stale lay src used o t ≠ 0 → t ∈ s'
  only : ∀ t ∈ s', t ∈ s ∨ lay.InRange t ∧ scanned (t + o) ∧ stale lay src used o t ≠ 0

namespace Repaired

variable {A B : ℤ → Prop} {d d' d'' : Contents} {s s' s'' : SortedSet ℤ}

theorem congr (h : Repaired lay src used o r A d d' s s') (hAB : ∀ x, A x ↔ B x) :
    Repaired lay src used o r B d d' s s' := by
  have : A = B := funext fun x => propext (hAB x)
  rw [← this]
  exact h

/-- Scanning nothing. -/
theorem refl (d : Contents) (s : SortedSet ℤ) :
    Repaired lay src used o r (fun _ => False) d d s s :=
  ⟨fun _ _ h => h.elim, fun _ _ _ => rfl, fun _ h => h, fun _ _ h => h.elim, fun _ h => .inl h⟩

/-- **One scan after another**, of other indices. -/
theorem trans (h₁ : Repaired lay src used o r A d d' s s')
    (h₂ : Repaired lay src used o r B d' d'' s' s'')
    (hAB : ∀ x, A x → ¬ B x) : Repaired lay src used o r (fun x => A x ∨ B x) d d'' s s'' where
  hit t ht hscan := by
    rcases hscan with hA | hB
    · rw [h₂.missed t ht (hAB _ hA), h₁.hit t ht hA]
    · rw [h₂.hit t ht hB, h₁.missed t ht fun hA => hAB _ hA hB]
  missed t ht hscan := by
    rw [h₂.missed t ht fun hB => hscan (.inr hB), h₁.missed t ht fun hA => hscan (.inl hA)]
  kept t ht := h₂.kept t (h₁.kept t ht)
  recorded t ht hscan hne := by
    rcases hscan with hA | hB
    · exact h₂.kept t (h₁.recorded t ht hA hne)
    · exact h₂.recorded t ht hB hne
  only t ht := by
    rcases h₂.only t ht with ht | ⟨hr, hB, hne⟩
    · rcases h₁.only t ht with ht | ⟨hr, hA, hne⟩
      · exact .inl ht
      · exact .inr ⟨hr, .inl hA, hne⟩
    · exact .inr ⟨hr, .inr hB, hne⟩

/-- A scanned index whose target is none of the vector's. -/
theorem of_outside (hc : ¬ lay.InRange (c - o)) (d : Contents) (s : SortedSet ℤ) :
    Repaired lay src used o r (fun x => x = c) d d s s := by
  have hnot : ∀ t, lay.InRange t → t + o ≠ c := by
    rintro t ht rfl
    exact hc (by rwa [add_sub_cancel_right])
  exact ⟨fun t ht h => absurd h (hnot t ht), fun _ _ _ => rfl, fun _ h => h,
    fun t ht h => absurd h (hnot t ht), fun _ h => .inl h⟩

end Repaired

/-- **One cell repaired**, by the worker that computed its target. -/
theorem repairCell_spec (src : Contents) (used : ℕ → Contents) (st : Repair) (hop : op.Adds r)
    (hc : lay.InRange c) (ht : lay.InRange (c - o))
    (hp : st.p = lay.owner (c - o) lay.hwconc) :
    ∃ st', repairCell lay ⟨offset o, op⟩ src used c (c - o) st = .ok st' ∧
      Repaired lay src used o r (fun x => x = c) st.data st'.data st.contended st'.contended := by
  obtain ⟨q, hq, hblock⟩ := Layout.exists_block ht
  have hown : lay.owner (c - o) lay.hwconc = q := Layout.owner_eq hq hblock
  have hstale : stale lay src used o (c - o) = src c - used st.p c := by
    rw [stale, sub_add_cancel, hp]
  have htarget : ∀ t, t + o = c → t = c - o := fun t h => by omega
  have hread : elemAt lay src c = .ok (src c) := if_pos hc
  have hused : usedAt lay used st.p c = .ok (used st.p c) := by
    rw [usedAt, if_pos (by rw [hp, hown]; exact hq), elemAt, if_pos hc]
  have hit : elemAt lay st.data (c - o) = .ok (st.data (c - o)) := if_pos ht
  simp only [repairCell, hread, hused, Exec.ok_bind, hop.inv_eq, hop.identity_eq]
  split
  · next hne =>
    simp only [hit, Exec.ok_bind]
    refine ⟨_, rfl, ?_, ?_, fun t ht => SortedSet.mem_insert.2 (.inr ht), ?_, ?_⟩
    · rintro t - h
      dsimp only
      rw [htarget t h, Function.update_self, hop.f_eq, hstale]
    · rintro t - h
      exact Function.update_of_ne (fun h' => h (by rw [h']; exact sub_add_cancel c o)) _ _
    · rintro t - h -
      exact SortedSet.mem_insert.2 (.inl (htarget t h))
    · intro t hmem
      rcases SortedSet.mem_insert.1 hmem with rfl | hmem
      · exact .inr ⟨ht, sub_add_cancel c o, by rw [hstale]; exact hne⟩
      · exact .inl hmem
  · next heq =>
    -- no difference, and nothing to add
    have h0 : stale lay src used o (c - o) = 0 := by rw [hstale]; exact not_not.1 heq
    refine ⟨_, rfl, ?_, fun _ _ _ => rfl, fun _ h => h, ?_, fun _ h => .inl h⟩
    · rintro t - h
      rw [htarget t h, h0, mul_zero, add_zero]
    · rintro t - h hne
      rw [htarget t h] at hne
      exact absurd h0 hne

/-- An index that a scan may meet: where its target is not skipped, both
are indices of the vector. -/
def Scannable (lay : Layout) (o c : ℤ) : Prop :=
  0 ≤ c - o → c - o ≤ lay.size → lay.InRange c ∧ c - o < lay.size

/-- The two range checks skip the targets outside the vector. -/
theorem Scannable.skip_iff (hs : Scannable lay o c) :
    (offset o c < 0 ∨ offset o c > lay.size) ↔ ¬ lay.InRange (c - o) := by
  have htarget : offset o c = c - o := rfl
  rw [htarget]
  constructor
  · intro h hin
    have := hin.1
    have := hin.2
    omega
  · intro hout
    by_contra h
    have h0 : 0 ≤ c - o := by omega
    exact hout ⟨h0, (hs h0 (by omega)).2⟩

/-- What a target was computed from. -/
theorem Scannable.inRange {t : ℤ} (hs : Scannable lay o (t + o)) (ht : lay.InRange t) :
    lay.InRange (t + o) :=
  (hs (by rw [add_sub_cancel_right]; exact ht.1)
    (by rw [add_sub_cancel_right]; exact le_of_lt ht.2)).1

/-- One index of the windows. -/
theorem scanWindow_spec (src : Contents) (used : ℕ → Contents) (st : Repair) (hop : op.Adds r)
    (hs : Scannable lay o c) :
    ∃ st', scanWindow lay ⟨offset o, op⟩ src used st c = .ok st' ∧
      Repaired lay src used o r (fun x => x = c) st.data st'.data st.contended st'.contended := by
  by_cases ht : lay.InRange (c - o)
  · have hc : lay.InRange c := (hs ht.1 (le_of_lt ht.2)).1
    obtain ⟨q, hq, hblock⟩ := Layout.exists_block ht
    have hown : lay.owner (c - o) lay.hwconc = q := Layout.owner_eq hq hblock
    obtain ⟨st', he, hrep⟩ := repairCell_spec src used
      { st with p := lay.owner (c - o) lay.hwconc } hop hc ht rfl
    refine ⟨st', ?_, hrep⟩
    rw [← he]
    have hskip : ¬ (offset o c < 0 ∨ offset o c > lay.size) := fun h => hs.skip_iff.1 h ht
    have hp : lay.owner (offset o c) lay.hwconc ≠ lay.hwconc := by
      rw [offset, hown]
      omega
    simp only [scanWindow, if_neg hskip, if_neg hp]
    rfl
  · exact ⟨{ st with p := lay.hwconc }, if_pos (hs.skip_iff.2 ht), .of_outside ht _ _⟩

/-- One index of `contended`. -/
theorem scanContended_spec (src : Contents) (used : ℕ → Contents) (st : Repair) {ic : SortedSet ℤ}
    (hop : op.Adds r) (hs : Scannable lay o c) :
    ∃ st', scanContended lay ⟨offset o, op⟩ src used ic st c = .ok st' ∧
      Repaired lay src used o r (fun x => x = c ∧ c ∉ ic) st.data st'.data st.contended
        st'.contended := by
  by_cases ht : lay.InRange (c - o)
  · have hbody : scanContended lay ⟨offset o, op⟩ src used ic st c =
        if c ∈ ic then .ok st
        else repairCell lay ⟨offset o, op⟩ src used c (c - o)
          { st with p := lay.owner (c - o) st.p } :=
      if_neg fun h => hs.skip_iff.1 h ht
    rw [hbody]
    split
    · next hic =>
      exact ⟨st, rfl, (Repaired.refl _ _).congr fun x => ⟨False.elim, fun h => h.2 hic⟩⟩
    · next hic =>
      have hc : lay.InRange c := (hs ht.1 (le_of_lt ht.2)).1
      obtain ⟨q, hq, hblock⟩ := Layout.exists_block ht
      have hp : lay.owner (c - o) st.p = lay.owner (c - o) lay.hwconc := by
        rw [Layout.owner_eq hq hblock, Layout.owner_eq hq hblock]
      obtain ⟨st', he, hrep⟩ := repairCell_spec src used
        { st with p := lay.owner (c - o) st.p } hop hc ht hp
      exact ⟨st', he, hrep.congr fun x => ⟨fun h => ⟨h, hic⟩, fun h => h.1⟩⟩
  · refine ⟨st, if_pos (hs.skip_iff.2 ht), ?_⟩
    by_cases hic : c ∈ ic
    · exact (Repaired.refl _ _).congr fun x => ⟨False.elim, fun h => h.2 hic⟩
    · exact (Repaired.of_outside ht _ _).congr fun x => ⟨fun h => ⟨h, hic⟩, fun h => h.1⟩

/-- **A loop over indices repairs their targets**, if one round repairs
the target of its index. -/
theorem repaired_of_foldlM {body : Repair → ℤ → Exec Repair} {P : ℤ → Prop} {l : List ℤ}
    (st : Repair) (hl : l.Nodup)
    (hbody : ∀ c ∈ l, ∀ st, ∃ st', body st c = .ok st' ∧
      Repaired lay src used o r (fun x => x = c ∧ P c)
        st.data st'.data st.contended st'.contended) :
    ∃ st', l.foldlM body st = .ok st' ∧
      Repaired lay src used o r (fun x => x ∈ l ∧ P x) st.data st'.data
      st.contended st'.contended := by
  induction l generalizing st with
  | nil => exact ⟨st, rfl, (Repaired.refl _ _).congr fun x => by simp⟩
  | cons c l ih =>
    obtain ⟨hc, hl⟩ := List.nodup_cons.1 hl
    obtain ⟨st₁, h₁, hr₁⟩ := hbody c List.mem_cons_self st
    obtain ⟨st₂, h₂, hr₂⟩ := ih st₁ hl fun d hd => hbody d (List.mem_cons_of_mem c hd)
    refine ⟨st₂, by rw [List.foldlM_cons, h₁]; exact h₂, (hr₁.trans hr₂ ?_).congr fun x => ?_⟩
    · rintro x ⟨rfl, -⟩ hx
      exact hc hx.1
    · rw [List.mem_cons]
      constructor
      · rintro (⟨rfl, hP⟩ | ⟨hx, hP⟩)
        · exact ⟨.inl rfl, hP⟩
        · exact ⟨.inr hx, hP⟩
      · rintro ⟨rfl | hx, hP⟩
        · exact .inl ⟨rfl, hP⟩
        · exact .inr ⟨hx, hP⟩

/-- **One index map resolved**: the targets of all its windows and of all
that is contended are repaired, each once. -/
theorem resolveDep_spec {contended s : SortedSet ℤ} {d : Contents} (hop : op.Adds r)
    (hw : ∀ c ∈ windows lay (offset o), Scannable lay o c)
    (hc : ∀ c ∈ contended, Scannable lay o c) :
    ∃ d' s', resolveDep lay src contended used (d, s) ⟨offset o, op⟩ = .ok (d', s') ∧
      Repaired lay src used o r (fun x => x ∈ windows lay (offset o) ∨ x ∈ contended)
        d d' s s' := by
  have hwindow : ∀ c ∈ (windows lay (offset o)).elems, ∀ st, ∃ st',
      scanWindow lay ⟨offset o, op⟩ src used st c = .ok st' ∧
      Repaired lay src used o r (fun x => x = c ∧ True)
        st.data st'.data st.contended st'.contended :=
    fun c hmem st => by
      obtain ⟨st', he, hr⟩ := scanWindow_spec src used st hop (hw c hmem)
      exact ⟨st', he, hr.congr fun x => by simp⟩
  obtain ⟨st₁, h₁, hr₁⟩ :=
    repaired_of_foldlM ⟨d, s, lay.hwconc⟩ (windows lay (offset o)).nodup hwindow
  obtain ⟨st₂, h₂, hr₂⟩ := repaired_of_foldlM st₁ contended.nodup
    (fun c hmem st => scanContended_spec src used st hop (hc c hmem))
  refine ⟨st₂.data, st₂.contended, ?_, (hr₁.trans hr₂ fun x hA hB => hB.2 hA.1).congr fun x => ?_⟩
  · simp only [resolveDep, h₁, h₂, Exec.ok_bind]
  · simp only [SortedSet.mem_elems, and_true]
    tauto

/-! ## All of them -/

/-- What a vector of elements is off by, at an index of the vector. -/
def staleIn (lay : Layout) (src : Contents) (used : ℕ → Contents) (o t : ℤ) : ℚ :=
  if lay.InRange (t + o) then stale lay src used o t else 0

/-- **An entry that resolves right**: it adds `r` times what it finds `o`
away, its scan meets no index it cannot handle, and no index where
snapshot and source differ is left out. -/
structure Entry (lay : Layout) (src : Contents) (contended : SortedSet ℤ) (used : ℕ → Contents)
    (dep : Dep) (o : ℤ) (r : ℚ) : Prop where
  imap_eq : dep.imap = offset o
  adds : dep.op.Adds r
  scannable : ∀ c, c ∈ windows lay (offset o) ∨ c ∈ contended → Scannable lay o c
  covered : ∀ t, lay.InRange t → lay.InRange (t + o) → stale lay src used o t ≠ 0 →
    t + o ∈ windows lay (offset o) ∨ t + o ∈ contended

/-- What a resolution has done to the dependent: its elements are
corrected by `corr`, and those that changed are recorded. -/
structure Resolved (lay : Layout) (corr : ℤ → ℚ) (cause : ℤ → Prop) (d d' : Contents)
    (s s' : SortedSet ℤ) : Prop where
  data : ∀ t, lay.InRange t → d' t = d t + corr t
  kept : ∀ t ∈ s, t ∈ s'
  recorded : ∀ t, lay.InRange t → d' t ≠ d t → t ∈ s'
  only : ∀ t ∈ s', t ∈ s ∨ lay.InRange t ∧ cause t

theorem Entry.resolved {contended s : SortedSet ℤ} {d : Contents} {dep : Dep}
    (he : Entry lay src contended used dep o r) :
    ∃ d' s', resolveDep lay src contended used (d, s) dep = .ok (d', s') ∧
      Resolved lay (fun t => r * staleIn lay src used o t) (fun t => staleIn lay src used o t ≠ 0)
        d d' s s' := by
  obtain ⟨imap, op⟩ := dep
  obtain ⟨rfl, hadds, hscan, hcover⟩ := he
  obtain ⟨d', s', hres, hrep⟩ := resolveDep_spec (s := s) (d := d) hadds
    (fun c hc => hscan c (.inl hc)) (fun c hc => hscan c (.inr hc))
  have hdata : ∀ t, lay.InRange t → d' t = d t + r * staleIn lay src used o t := by
    intro t ht
    rw [staleIn]
    by_cases hs : t + o ∈ windows lay (offset o) ∨ t + o ∈ contended
    · rw [hrep.hit t ht hs, if_pos ((hscan _ hs).inRange ht)]
    · rw [hrep.missed t ht hs]
      split
      · next hin =>
        have h0 : stale lay src used o t = 0 := by
          by_contra hne
          exact hs (hcover t ht hin hne)
        rw [h0, mul_zero, add_zero]
      · rw [mul_zero, add_zero]
  refine ⟨d', s', hres, hdata, hrep.kept, fun t ht hne => ?_, fun t hmem => ?_⟩
  · by_cases hs : t + o ∈ windows lay (offset o) ∨ t + o ∈ contended
    · refine hrep.recorded t ht hs fun h0 => hne ?_
      rw [hrep.hit t ht hs, h0, mul_zero, add_zero]
    · exact absurd (hrep.missed t ht hs) hne
  · rcases hrep.only t hmem with hold | ⟨ht, hs, hne⟩
    · exact .inl hold
    · refine .inr ⟨ht, ?_⟩
      rw [staleIn, if_pos ((hscan _ hs).inRange ht)]
      exact hne

/-- **A resolution repairs every element** by the sum over its entries,
and records what it changed. -/
theorem resolveMonotonic_spec {contended : SortedSet ℤ} {deps : List Dep} {os : List (ℤ × ℚ)}
    (hdeps : List.Forall₂ (fun dep e => Entry lay src contended used dep e.1 e.2) deps os)
    (d : Contents) (s : SortedSet ℤ) :
    ∃ d' s', resolveMonotonic lay deps src contended used (d, s) = .ok (d', s') ∧
      Resolved lay (fun t => (os.map fun e => e.2 * staleIn lay src used e.1 t).sum)
        (fun t => ∃ e ∈ os, staleIn lay src used e.1 t ≠ 0) d d' s s' := by
  induction hdeps generalizing d s with
  | nil =>
    exact ⟨d, s, rfl, fun t _ => by simp, fun _ h => h, fun t _ hne => absurd rfl hne,
      fun t ht => .inl ht⟩
  | @cons dep e deps os hd _ ih =>
    obtain ⟨d₁, s₁, h₁, hr₁⟩ := hd.resolved (d := d) (s := s)
    obtain ⟨d₂, s₂, h₂, hr₂⟩ := ih d₁ s₁
    refine ⟨d₂, s₂, ?_, fun t ht => ?_, fun t ht => hr₂.kept t (hr₁.kept t ht), fun t ht hne => ?_,
      fun t hmem => ?_⟩
    · rw [resolveMonotonic, List.foldlM_cons, h₁]
      exact h₂
    · rw [hr₂.data t ht, hr₁.data t ht, List.map_cons, List.sum_cons, add_assoc]
    · by_cases h1 : d₁ t = d t
      · exact hr₂.recorded t ht (by rw [h1]; exact hne)
      · exact hr₂.kept t (hr₁.recorded t ht h1)
    · rcases hr₂.only t hmem with hold | ⟨ht, e', he', hne⟩
      · rcases hr₁.only t hold with hold | ⟨ht, hne⟩
        · exact .inl hold
        · exact .inr ⟨ht, e, List.mem_cons_self, hne⟩
      · exact .inr ⟨ht, e', List.mem_cons_of_mem e he', hne⟩

/-! ## The record of it -/

/-- **Every element that changes is recorded**, and indices of the vector
only. -/
structure Tracked (lay : Layout) (d d' : Contents) (s s' : SortedSet ℤ) : Prop where
  kept : ∀ t ∈ s, t ∈ s'
  changed : ∀ t, d' t ≠ d t → t ∈ s'
  within : ∀ t ∈ s', t ∈ s ∨ lay.InRange t

namespace Tracked

variable {d d' d'' : Contents} {s s' s'' : SortedSet ℤ}

theorem refl (d : Contents) (s : SortedSet ℤ) : Tracked lay d d s s :=
  ⟨fun _ h => h, fun _ h => absurd rfl h, fun _ h => .inl h⟩

theorem trans (h₁ : Tracked lay d d' s s') (h₂ : Tracked lay d' d'' s' s'') :
    Tracked lay d d'' s s'' where
  kept t ht := h₂.kept t (h₁.kept t ht)
  changed t hne := by
    by_cases h : d' t = d t
    · exact h₂.changed t (by rw [h]; exact hne)
    · exact h₂.kept t (h₁.changed t h)
  within t ht := (h₂.within t ht).elim (h₁.within t) .inr

/-- A loop, if each round is. -/
theorem foldlM {σ ι : Type} (d : σ → Contents) (s : σ → SortedSet ℤ) {body : σ → ι → Exec σ}
    (hbody : ∀ i st st', body st i = .ok st' → Tracked lay (d st) (d st') (s st) (s st'))
    {l : List ι} {st st' : σ} (h : l.foldlM body st = .ok st') :
    Tracked lay (d st) (d st') (s st) (s st') := by
  induction l generalizing st with
  | nil =>
    cases h
    exact refl _ _
  | cons i l ih =>
    rw [List.foldlM_cons] at h
    obtain ⟨u, hu, h⟩ := Exec.bind_eq_ok.1 h
    exact (hbody i st u hu).trans (ih h)

theorem repairCell {dep : Dep} {cmap : ℤ} {st st' : Repair}
    (h : repairCell lay dep src used c cmap st = .ok st') :
    Tracked lay st.data st'.data st.contended st'.contended := by
  simp only [Cont.repairCell] at h
  obtain ⟨curr, -, h⟩ := Exec.bind_eq_ok.1 h
  obtain ⟨trck, -, h⟩ := Exec.bind_eq_ok.1 h
  split at h
  · obtain ⟨it, hit, h⟩ := Exec.bind_eq_ok.1 h
    cases h
    have hin : lay.InRange cmap := by
      by_contra hout
      rw [elemAt, if_neg hout] at hit
      exact nomatch hit
    refine ⟨fun t ht => SortedSet.mem_insert.2 (.inr ht),
      fun t hne => SortedSet.mem_insert.2 (.inl ?_),
      fun t ht => ?_⟩
    · by_contra hne'
      exact hne (Function.update_of_ne hne' _ _)
    · rcases SortedSet.mem_insert.1 ht with rfl | ht
      · exact .inr hin
      · exact .inl ht
  · cases h
    exact refl _ _

theorem resolveDep {contended : SortedSet ℤ} {dep : Dep} {st st' : Contents × SortedSet ℤ}
    (h : resolveDep lay src contended used st dep = .ok st') :
    Tracked lay st.1 st'.1 st.2 st'.2 := by
  simp only [Cont.resolveDep] at h
  obtain ⟨st₁, h₁, h⟩ := Exec.bind_eq_ok.1 h
  obtain ⟨st₂, h₂, h⟩ := Exec.bind_eq_ok.1 h
  cases h
  refine (foldlM Repair.data Repair.contended ?_ h₁).trans
    (foldlM Repair.data Repair.contended ?_ h₂)
  · intro c st st' h
    simp only [scanWindow] at h
    split at h
    · cases h
      exact refl _ _
    · split at h
      · exact nomatch h
      · have htracked := repairCell h
        exact htracked
  · intro c st st' h
    simp only [scanContended] at h
    split at h
    · cases h
      exact refl _ _
    · split at h
      · cases h
        exact refl _ _
      · have htracked := repairCell h
        exact htracked

/-- **A resolution**, whatever the index maps and operators. -/
theorem resolveMonotonic {contended : SortedSet ℤ} {deps : List Dep}
    {st st' : Contents × SortedSet ℤ}
    (h : resolveMonotonic lay deps src contended used st = .ok st') :
    Tracked lay st.1 st'.1 st.2 st'.2 :=
  foldlM Prod.fst Prod.snd (fun _ _ _ => resolveDep) h

end Tracked

end Contentious.Cont
