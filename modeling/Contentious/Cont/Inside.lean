import Contentious.Common.Machine
import Contentious.Cont.Resolve

/-!
# Cont — whether a resolution stays inside the vectors

The two loops of `resolve_monotonic` go over indices of the source, and skip
those whose target the index map puts outside the dependent. Their checks
are `cmap < 0` and `cmap > size`, so that the target `size` is let through:
no block has it. `scans` is the loops round by round, and `StaysInside` what
is asked of a round. An offset reaches the end from the index `size + o`
(`windows_fit_iff`), and if no negative one has it in its windows or in
`contended`, every round stays inside, and with them the whole resolution
(`resolution_inside_iff`).
-/

namespace Contentious.Cont

/-- The rounds of the loops: a new index map is taken, an index of its
windows, or one of `contended`. -/
inductive ScanStep
  | start (dep : Dep)
  | window (dep : Dep) (c : ℤ)
  | contended (dep : Dep) (c : ℤ)

/-- The loops of `resolve_monotonic`, round by round. -/
def scans (lay : Layout) (src : Contents) (used : ℕ → Contents) : Machine Repair ScanStep where
  step := fun st round =>
    match round with
    | .start _ => some { st with p := lay.hwconc }
    | .window dep c => (scanWindow lay dep src used st c).toOption
    | .contended dep c => (scanContended lay dep src used (windows lay dep.imap) st c).toOption

/-- The rounds for one index map, -/
def roundsOf (lay : Layout) (contended : SortedSet ℤ) (dep : Dep) : List ScanStep :=
  .start dep :: ((windows lay dep.imap).elems.map (.window dep) ++
    contended.elems.map (.contended dep))

/-- and for all of them. -/
def allRounds (lay : Layout) (contended : SortedSet ℤ) (deps : List Dep) : List ScanStep :=
  deps.flatMap (roundsOf lay contended)

/-- The round, if its range checks do not skip it, has its target in the
dependent and its index in the source, and `p` is the worker whose block
holds the target: in the second loop, whatever `p` was left as. -/
def StaysInside (lay : Layout) (st : Repair) : ScanStep → Prop
  | .start _ => True
  | .window dep c =>
    ¬ (dep.imap c < 0 ∨ dep.imap c > lay.size) →
      lay.InRange (dep.imap c) ∧ lay.InRange c ∧
        lay.owner (dep.imap c) lay.hwconc < lay.hwconc ∧
          lay.InBlock (lay.owner (dep.imap c) lay.hwconc) (dep.imap c)
  | .contended dep c =>
    ¬ (dep.imap c < 0 ∨ dep.imap c > lay.size) → c ∉ windows lay dep.imap →
      lay.InRange (dep.imap c) ∧ lay.InRange c ∧ lay.owner (dep.imap c) st.p < lay.hwconc ∧
        lay.InBlock (lay.owner (dep.imap c) st.p) (dep.imap c)

variable {lay : Layout} {src d : Contents} {used : ℕ → Contents} {contended s : SortedSet ℤ}
variable {dep : Dep} {deps : List Dep} {offs : List ℤ} {coeffs : List ℚ} {o c : ℤ} {p : ℕ}

/-! ## The rounds are the resolution -/

theorem run_roundsOf (lay : Layout) (src : Contents) (used : ℕ → Contents)
    (contended : SortedSet ℤ) (dep : Dep) (st : Repair) :
    ((scans lay src used).run st (roundsOf lay contended dep)).map
        (fun st => (st.data, st.contended)) =
      (resolveDep lay src contended used (st.data, st.contended) dep).toOption := by
  have hstart : (scans lay src used).step st (.start dep) =
      some ⟨st.data, st.contended, lay.hwconc⟩ := rfl
  rw [roundsOf, Machine.run_cons_of_step _ hstart, Machine.run_append,
    Machine.run_map_foldlM fun _ _ => rfl]
  simp only [resolveDep]
  cases (windows lay dep.imap).elems.foldlM (scanWindow lay dep src used)
    ⟨st.data, st.contended, lay.hwconc⟩ with
  | error e => rfl
  | ok st₁ =>
    have hrun : (scans lay src used).run st₁ (contended.elems.map (.contended dep)) = _ :=
      Machine.run_map_foldlM (fun _ _ => rfl) st₁ contended.elems
    simp only [Except.toOption, Option.bind_some, hrun, Exec.ok_bind]
    cases contended.elems.foldlM (scanContended lay dep src used (windows lay dep.imap)) st₁ with
    | error e => rfl
    | ok st₂ => rfl

/-- **The rounds, one after another, are the resolution.** -/
theorem run_allRounds (lay : Layout) (src : Contents) (used : ℕ → Contents)
    (contended : SortedSet ℤ) (deps : List Dep) (st : Repair) :
    ((scans lay src used).run st (allRounds lay contended deps)).map
        (fun st => (st.data, st.contended)) =
      (resolveMonotonic lay deps src contended used (st.data, st.contended)).toOption := by
  induction deps generalizing st with
  | nil => rfl
  | cons dep deps ih =>
    have hdep := run_roundsOf lay src used contended dep st
    rw [allRounds, List.flatMap_cons, Machine.run_append, resolveMonotonic, List.foldlM_cons]
    cases hrun : (scans lay src used).run st (roundsOf lay contended dep) with
    | none =>
      rw [hrun] at hdep
      cases hres : resolveDep lay src contended used (st.data, st.contended) dep with
      | error e => rfl
      | ok st₁ => rw [hres] at hdep; cases hdep
    | some st₁ =>
      rw [hrun, Option.map_some] at hdep
      rw [Exec.toOption_eq_some.1 hdep.symm]
      exact ih st₁

/-! ## One round -/

/-- What is asked of a round, without its state. -/
def Fits (lay : Layout) : ScanStep → Prop
  | .start _ => True
  | .window dep c => Scannable lay (c - dep.imap c) c
  | .contended dep c => c ∈ windows lay dep.imap ∨ Scannable lay (c - dep.imap c) c

/-- A target in the vector has its block found, whatever `p` was. -/
theorem owner_inBlock (ht : lay.InRange c) (p : ℕ) :
    lay.owner c p < lay.hwconc ∧ lay.InBlock (lay.owner c p) c := by
  obtain ⟨q, hq, hb⟩ := Layout.exists_block ht
  rw [Layout.owner_eq hq hb]
  exact ⟨hq, hb⟩

theorem staysInside_iff (st : Repair) (round : ScanStep) :
    StaysInside lay st round ↔ Fits lay round := by
  have hscan : ∀ (imap : Imap) (c : ℤ) (p : ℕ),
      (¬ (imap c < 0 ∨ imap c > lay.size) → lay.InRange (imap c) ∧ lay.InRange c ∧
        lay.owner (imap c) p < lay.hwconc ∧ lay.InBlock (lay.owner (imap c) p) (imap c)) ↔
      Scannable lay (c - imap c) c := by
    intro imap c p
    rw [Scannable, sub_sub_cancel]
    constructor
    · intro h h0 hle
      obtain ⟨hin, hc, -⟩ := h (by omega)
      exact ⟨hc, hin.2⟩
    · intro h hskip
      obtain ⟨hc, hlt⟩ := h (by omega) (by omega)
      have hin : lay.InRange (imap c) := ⟨by omega, hlt⟩
      exact ⟨hin, hc, owner_inBlock hin p⟩
  cases round with
  | start => exact Iff.rfl
  | window dep c => exact hscan dep.imap c lay.hwconc
  | contended dep c =>
    rw [Fits, ← hscan dep.imap c st.p, or_iff_not_imp_left]
    exact ⟨fun h hc hskip => h hskip hc, fun h hskip hc => h hc hskip⟩

/-- An entry of a stencil: an offset, and an operator that adds. -/
def Offsets (offs : List ℤ) (dep : Dep) : Prop :=
  ∃ o r op, dep = ⟨offset o, op⟩ ∧ op.Adds r ∧ (o = 0 ∨ o ∈ offs)

theorem offsets_of_mem (h : dep ∈ stencilDeps offs coeffs) : Offsets offs dep := by
  rcases List.mem_cons.1 h with rfl | h
  · exact ⟨0, 1, plus, by rw [identity_eq_offset], plus_adds, .inl rfl⟩
  · obtain ⟨i, hi, rfl⟩ := List.mem_iff_getElem.1 h
    rw [List.getElem_zipWith]
    rw [List.length_zipWith] at hi
    exact ⟨offs[i], coeffs[i], fullop coeffs[i], rfl, fullop_adds _, .inr (List.getElem_mem _)⟩

theorem exists_dep_of_mem (hlen : offs.length ≤ coeffs.length) (ho : o ∈ offs) :
    ∃ dep ∈ stencilDeps offs coeffs, dep.imap = offset o := by
  obtain ⟨i, hi, rfl⟩ := List.mem_iff_getElem.1 ho
  have hi' : i < (List.zipWith (fun o c => (⟨offset o, fullop c⟩ : Dep)) offs coeffs).length := by
    rw [List.length_zipWith]
    omega
  exact ⟨_, List.mem_cons_of_mem _ (List.getElem_mem hi'), by rw [List.getElem_zipWith]⟩

/-- **A round that fits goes through.** -/
theorem exists_step_of_fits (hdep : ∃ o r op, dep = ⟨offset o, op⟩ ∧ op.Adds r) (st : Repair)
    {round : ScanStep} (hround : round ∈ roundsOf lay contended dep) (hfit : Fits lay round) :
    ∃ t, (scans lay src used).step st round = some t := by
  obtain ⟨o, r, op, rfl, hop⟩ := hdep
  have hoff : ∀ c : ℤ, c - offset o c = o := fun c => sub_sub_cancel c o
  rcases List.mem_cons.1 hround with rfl | hround
  · exact ⟨_, rfl⟩
  rcases List.mem_append.1 hround with hround | hround
  · obtain ⟨c, -, rfl⟩ := List.mem_map.1 hround
    rw [Fits, hoff] at hfit
    obtain ⟨t, ht, -⟩ := scanWindow_spec src used st hop hfit
    exact ⟨t, Exec.toOption_eq_some.2 ht⟩
  · obtain ⟨c, -, rfl⟩ := List.mem_map.1 hround
    rw [Fits, hoff] at hfit
    simp only [scans]
    by_cases hic : c ∈ windows lay (offset o)
    · simp only [scanContended, if_pos hic]
      split
      · exact ⟨st, rfl⟩
      · exact ⟨st, rfl⟩
    · obtain ⟨t, ht, -⟩ := scanContended_spec src used st hop (hfit.resolve_left hic)
      exact ⟨t, Exec.toOption_eq_some.2 ht⟩

/-! ## One offset -/

/-- **The condition on an offset**: it reaches forward, or past the whole
vector; or it is not longer than the last block nor than half the vector,
and the index whose target is the end is not contended. -/
def ReachesInside (lay : Layout) (contended : SortedSet ℤ) (o : ℤ) : Prop :=
  o < 0 → -o ≤ lay.size →
    2 * -o ≤ lay.size ∧ -o ≤ lay.size - lay.a (lay.hwconc - 1) ∧ lay.size + o ∉ contended

instance (lay : Layout) (contended : SortedSet ℤ) (o : ℤ) :
    Decidable (ReachesInside lay contended o) :=
  inferInstanceAs (Decidable (_ → _ → _ ∧ _ ∧ _))

/-- Blocks come one after another. -/
theorem Layout.a_le_last (hp : p < lay.hwconc) : lay.a p ≤ lay.a (lay.hwconc - 1) := by
  simp only [Layout.a, partition, Nat.cast_le]
  exact Nat.mul_le_mul_left _ (by omega)

/-- What the windows hold has its targets inside, for an offset that is not
too long. -/
theorem windows_fit_iff : (∀ c ∈ windows lay (offset o), Scannable lay o c) ↔
    (o < 0 → -o ≤ lay.size → 2 * -o ≤ lay.size ∧ -o ≤ lay.size - lay.a (lay.hwconc - 1)) := by
  have hworker : lay.hwconc - 1 < lay.hwconc := Nat.sub_lt lay.hwconc_pos Nat.one_pos
  have hlast := Layout.a_lt_b hworker
  have hle := lay.b_le_size (lay.hwconc - 1)
  have hnn := lay.a_nonneg (lay.hwconc - 1)
  constructor
  · intro h ho hsize
    have hend : lay.size + o ∉ windows lay (offset o) := fun hmem => by
      have := (h _ hmem (by omega) (by omega)).2
      omega
    rw [mem_windows] at hend
    have hfirst : ¬ (clamp lay.size (lay.a 0 + o) ≤ lay.size + o ∧
        lay.size + o < clamp lay.size (lay.a 0 + o) - o) := fun h =>
      hend ⟨0, lay.hwconc_pos, .inl h⟩
    have hlast' : ¬ (clamp lay.size (lay.a (lay.hwconc - 1) + o) ≤ lay.size + o ∧
        lay.size + o < clamp lay.size (lay.a (lay.hwconc - 1) + o) - o) := fun h =>
      hend ⟨lay.hwconc - 1, hworker, .inl h⟩
    have ha : lay.a 0 = 0 := by simp [Layout.a, partition]
    simp only [clamp, ha] at hfirst hlast'
    omega
  · intro h c hc h0 hcsize
    obtain ⟨p, hp, hc⟩ := mem_windows.1 hc
    have h1 := Layout.a_lt_b hp
    have h2 := lay.a_nonneg p
    have h3 := lay.b_le_size p
    have h4 := Layout.a_le_last hp
    simp only [clamp] at hc
    rw [Layout.InRange]
    omega

/-- **When the rounds of one index map fit.** -/
theorem fits_iff (hin : ∀ c ∈ contended, lay.InRange c) {op : Op ℚ} :
    (∀ round ∈ roundsOf lay contended ⟨offset o, op⟩, Fits lay round) ↔
      ReachesInside lay contended o := by
  have hoff : ∀ c : ℤ, c - offset o c = o := fun c => sub_sub_cancel c o
  have hcont : (∀ c ∈ windows lay (offset o), Scannable lay o c) →
      ((∀ c ∈ contended, c ∈ windows lay (offset o) ∨ Scannable lay o c) ↔
        (o < 0 → -o ≤ lay.size → lay.size + o ∉ contended)) := by
    intro hw
    constructor
    · intro h ho hsize hmem
      have hs : Scannable lay o (lay.size + o) := (h _ hmem).elim (hw _) id
      have := (hs (by omega) (by omega)).2
      omega
    · intro h c hc
      refine .inr fun h0 hle => ⟨hin c hc, ?_⟩
      have := (hin c hc).1
      have := (hin c hc).2
      by_contra hge
      have hcs : c = lay.size + o := by omega
      exact h (by omega) (by omega) (hcs ▸ hc)
  have hsplit : (∀ round ∈ roundsOf lay contended ⟨offset o, op⟩, Fits lay round) ↔
      (∀ c ∈ windows lay (offset o), Scannable lay o c) ∧
        ∀ c ∈ contended, c ∈ windows lay (offset o) ∨ Scannable lay o c := by
    simp only [roundsOf, List.forall_mem_cons, List.forall_mem_append, List.forall_mem_map, Fits,
      hoff, SortedSet.mem_elems, true_and]
  rw [hsplit, ReachesInside]
  constructor
  · rintro ⟨hw, hc⟩ ho hsize
    have h1 := windows_fit_iff.1 hw ho hsize
    exact ⟨h1.1, h1.2, (hcont hw).1 hc ho hsize⟩
  · intro h
    have hw := windows_fit_iff.2 fun ho hsize => ⟨(h ho hsize).1, (h ho hsize).2.1⟩
    exact ⟨hw, (hcont hw).2 fun ho hsize => (h ho hsize).2.2⟩

/-! ## The resolution -/

/-- **When a resolution stays inside the vectors.** Every round of its loops
that is not skipped has its target and its index in the vectors and takes
the snapshot of the worker whose block holds the target, and so nothing
stops, nothing outside is written and what is contended stays within, if and
only if every offset reaches inside. -/
theorem resolution_inside_iff (hlen : offs.length ≤ coeffs.length)
    (hin : ∀ c ∈ contended, lay.InRange c) (hs : ∀ t ∈ s, lay.InRange t) :
    ((scans lay src used).Along (StaysInside lay) ⟨d, s, lay.hwconc⟩
        (allRounds lay contended (stencilDeps offs coeffs)) ∧
      ∃ d' s', resolveMonotonic lay (stencilDeps offs coeffs) src contended used (d, s) =
          .ok (d', s') ∧
        (∀ t, ¬ lay.InRange t → d' t = d t) ∧ ∀ t ∈ s', lay.InRange t) ↔
      ∀ o ∈ offs, ReachesInside lay contended o := by
  have hstep : ∀ st, ∀ round ∈ allRounds lay contended (stencilDeps offs coeffs), Fits lay round →
      ∃ t, (scans lay src used).step st round = some t := by
    intro st round hround hfit
    obtain ⟨dep, hdep, hround⟩ := List.mem_flatMap.1 hround
    obtain ⟨o, r, op, heq, hop, -⟩ := offsets_of_mem hdep
    exact exists_step_of_fits ⟨o, r, op, heq, hop⟩ st hround hfit
  rw [Machine.along_iff_forall (fun st round _ => staysInside_iff st round) hstep]
  constructor
  · rintro ⟨hfit, -⟩ o ho
    obtain ⟨⟨imap, op⟩, hdep, rfl⟩ := exists_dep_of_mem hlen ho
    exact (fits_iff hin).1 fun round hround => hfit round (List.mem_flatMap.2 ⟨_, hdep, hround⟩)
  · intro h
    have hfit : ∀ round ∈ allRounds lay contended (stencilDeps offs coeffs), Fits lay round := by
      intro round hround
      obtain ⟨dep, hdep, hround⟩ := List.mem_flatMap.1 hround
      obtain ⟨o, r, op, rfl, -, ho⟩ := offsets_of_mem hdep
      refine (fits_iff hin).2 ?_ round hround
      rcases ho with rfl | ho
      · exact fun h0 => absurd h0 (lt_irrefl 0)
      · exact h o ho
    refine ⟨hfit, ?_⟩
    obtain ⟨st, hrun⟩ := Machine.exists_run (fun st round hmem => hstep st round hmem
      (hfit round hmem)) (⟨d, s, lay.hwconc⟩ : Repair)
    have hres := run_allRounds lay src used contended (stencilDeps offs coeffs) ⟨d, s, lay.hwconc⟩
    rw [hrun, Option.map_some] at hres
    have hres := Exec.toOption_eq_some.1 hres.symm
    have htracked := Tracked.resolveMonotonic hres
    have hwithin : ∀ t ∈ st.contended, lay.InRange t := fun t ht =>
      (htracked.within t ht).elim (hs t) id
    refine ⟨st.data, st.contended, hres, fun t ht => ?_, hwithin⟩
    by_contra hne
    exact ht (hwithin t (htracked.changed t hne))

/-- Two workers over four elements, of which one is contended, and a
neighbour on each side. -/
theorem resolution_inside_iff_four :
    let lay : Layout := ⟨2, 4, by decide, by decide⟩
    let src : Contents := fun c => c
    let used : ℕ → Contents := fun _ _ => 0
    let contended : SortedSet ℤ := SortedSet.empty.insert 1
    ((scans lay src used).Along (StaysInside lay) ⟨src, .empty, lay.hwconc⟩
        (allRounds lay contended (stencilDeps [-1, 1] [2, 3])) ∧
      ∃ d' s', resolveMonotonic lay (stencilDeps [-1, 1] [2, 3]) src contended used (src, .empty) =
          .ok (d', s') ∧
        (∀ t, ¬ lay.InRange t → d' t = src t) ∧ ∀ t ∈ s', lay.InRange t) ↔
      ∀ o ∈ [-1, 1], ReachesInside lay contended o := by
  intro lay src used contended
  refine resolution_inside_iff (by decide) (fun c hc => ?_)
    fun t ht => absurd ht SortedSet.not_mem_empty
  rcases SortedSet.mem_insert.1 hc with rfl | hc
  · decide
  · exact absurd hc SortedSet.not_mem_empty

/-- **The target past the end.** Of three elements the second has the end
for its target under the offset `-2`: the assertion fails. Of four elements
of which the last is contended, the end is its target under `-1`: the
snapshot is that of worker 1, who was left over from the index before, and
the element past the end is written. -/
theorem target_past_end :
    let three : Layout := ⟨1, 3, by decide, by decide⟩
    let four : Layout := ⟨2, 4, by decide, by decide⟩
    let src : Contents := fun c => c
    let used : ℕ → Contents := fun _ _ => 0
    let last : SortedSet ℤ := SortedSet.empty.insert 3
    ¬ (scans three src used).Along (StaysInside three) ⟨src, .empty, 1⟩
        (allRounds three .empty (stencilDeps [-2] [1])) ∧
      (resolveMonotonic three (stencilDeps [-2] [1]) src .empty used (src, .empty)).map
        (fun st => st.2.elems) = .error .assertion ∧
      ((scans four src used).run ⟨src, .empty, 2⟩
        [.start ⟨offset (-1), fullop 1⟩, .window ⟨offset (-1), fullop 1⟩ 0,
          .window ⟨offset (-1), fullop 1⟩ 1]).map (fun st => st.p) = some 1 ∧
      (resolveMonotonic four (stencilDeps [-1] [1]) src last used (src, .empty)).map
        (fun st => st.2.elems) = .error .outOfBounds := by
  intro three four src used last
  refine ⟨fun h => ?_, by decide +kernel, by decide +kernel, by decide +kernel⟩
  have hfit := (Machine.along_iff_forall (fun st round _ => staysInside_iff st round)
    (fun st round hround hfit => ?_) _).1 h
  · have hmem : ScanStep.window ⟨offset (-2), fullop 1⟩ 1 ∈
        allRounds three .empty (stencilDeps [-2] [1]) :=
      List.mem_flatMap.2 ⟨_, List.mem_cons_of_mem _ List.mem_cons_self,
        List.mem_cons_of_mem _ (List.mem_append_left _ (List.mem_map.2 ⟨1, by decide, rfl⟩))⟩
    have := (hfit _ hmem (by decide) (by decide)).2
    exact absurd this (by decide)
  · obtain ⟨dep, hdep, hround⟩ := List.mem_flatMap.1 hround
    obtain ⟨o, r, op, heq, hop, -⟩ := offsets_of_mem hdep
    exact exists_step_of_fits ⟨o, r, op, heq, hop⟩ st hround hfit

/-! ## A vector that was used as it is -/

/-- A cell that was used as it is. -/
theorem repairCell_same {dep : Dep} {src : Contents} {used : ℕ → Contents} {cmap : ℤ} {st : Repair}
    (hc : lay.InRange c) (hp : st.p < lay.hwconc)
    (hsame : dep.op.inv (src c) (used st.p c) = dep.op.identity) :
    repairCell lay dep src used c cmap st = .ok st := by
  have hread : ∀ v : Contents, elemAt lay v c = .ok (v c) := fun v => if_pos hc
  simp only [repairCell, usedAt, if_pos hp, hread, Exec.ok_bind, hsame]
  exact if_neg fun h => h rfl

/-- No block holds what is outside. -/
theorem owner_of_outside (h : ¬ lay.InRange c) (p : ℕ) : lay.owner c p = p :=
  List.foldl_fixed' (fun _ => if_neg fun hb => h (Layout.InBlock.inRange ⟨hb.1, hb.2⟩)) _

section

variable {op : Op ℚ} (hsame : ∀ p < lay.hwconc, ∀ c, lay.InRange c →
  op.inv (src c) (used p c) = op.identity)

include hsame

/-- A round of the first loop leaves `p` as the worker of the target. -/
theorem scanWindow_settled (hfit : Scannable lay o c) (st : Repair) :
    scanWindow lay ⟨offset o, op⟩ src used st c =
      .ok { st with p := lay.owner (c - o) lay.hwconc } := by
  by_cases ht : lay.InRange (c - o)
  · obtain ⟨hq, -⟩ := owner_inBlock ht lay.hwconc
    have hc : lay.InRange c := (hfit ht.1 (le_of_lt ht.2)).1
    have hskip : ¬ (offset o c < 0 ∨ offset o c > lay.size) := fun h => hfit.skip_iff.1 h ht
    have hp : lay.owner (offset o c) lay.hwconc ≠ lay.hwconc := ne_of_lt hq
    simp only [scanWindow, if_neg hskip, if_neg hp]
    exact repairCell_same hc hq (hsame _ hq c hc)
  · rw [owner_of_outside ht]
    exact if_pos (hfit.skip_iff.2 ht)

/-- One of the second loop goes through, unless the target is the end and
`p` is nobody. -/
theorem scanContended_settled (ic : SortedSet ℤ) (hc : lay.InRange c) (st : Repair)
    (hp : c - o = lay.size → st.p < lay.hwconc) :
    ∃ p, scanContended lay ⟨offset o, op⟩ src used ic st c = .ok { st with p := p } ∧
      (st.p < lay.hwconc → p < lay.hwconc) := by
  simp only [scanContended]
  split
  · exact ⟨st.p, rfl, id⟩
  next hskip =>
  split
  · exact ⟨st.p, rfl, id⟩
  have hown : lay.owner (offset o c) st.p < lay.hwconc := by
    by_cases ht : lay.InRange (offset o c)
    · exact (owner_inBlock ht st.p).1
    · rw [owner_of_outside ht]
      refine hp ?_
      have htarget : offset o c = c - o := rfl
      rw [Layout.InRange, htarget] at ht
      rw [htarget] at hskip
      omega
  exact ⟨_, repairCell_same hc hown (hsame _ hown c hc), fun _ => hown⟩

/-- **Where the windows fit**, the resolution of a vector that was used as
it is changes nothing: by the second loop `p` is a worker, if an offset
reaches the end. -/
theorem resolveDep_settled (hin : ∀ c ∈ contended, lay.InRange c)
    (hfit : ∀ c ∈ windows lay (offset o), Scannable lay o c) (st : Contents × SortedSet ℤ) :
    resolveDep lay src contended used st ⟨offset o, op⟩ = .ok st := by
  have hfirst : ∀ (l : List ℤ) (st : Repair), (∀ c ∈ l, Scannable lay o c) →
      (l = [] → o < 0 → -o ≤ lay.size → st.p < lay.hwconc) →
      (o < 0 → -o ≤ lay.size → ∀ c ∈ l, lay.InRange (c - o)) →
      ∃ p, l.foldlM (scanWindow lay ⟨offset o, op⟩ src used) st = .ok { st with p := p } ∧
        (o < 0 → -o ≤ lay.size → p < lay.hwconc) := by
    intro l
    induction l with
    | nil => exact fun st _ hnil _ => ⟨st.p, rfl, hnil rfl⟩
    | cons c l ih =>
      intro st hl _ htargets
      rw [List.foldlM_cons, scanWindow_settled hsame (hl c List.mem_cons_self)]
      exact ih _ (fun d hd => hl d (List.mem_cons_of_mem c hd))
        (fun _ ho hsize => (owner_inBlock (htargets ho hsize c List.mem_cons_self) _).1)
        fun ho hsize d hd => htargets ho hsize d (List.mem_cons_of_mem c hd)
  have hsecond : ∀ (l : List ℤ) (ic : SortedSet ℤ) (st : Repair), (∀ c ∈ l, lay.InRange c) →
      (o < 0 → -o ≤ lay.size → st.p < lay.hwconc) →
      ∃ p, l.foldlM (scanContended lay ⟨offset o, op⟩ src used ic) st = .ok { st with p := p } := by
    intro l ic st hl hp
    induction l generalizing st with
    | nil => exact ⟨st.p, rfl⟩
    | cons c l ih =>
      have hc := hl c List.mem_cons_self
      obtain ⟨p, he, hkeep⟩ := scanContended_settled hsame (o := o) ic hc st fun hend =>
        hp (by have := hc.2; omega) (by have := hc.1; omega)
      obtain ⟨q, hq⟩ := ih { st with p := p } (fun d hd => hl d (List.mem_cons_of_mem c hd))
        fun ho hsize => hkeep (hp ho hsize)
      exact ⟨q, by rw [List.foldlM_cons, he]; exact hq⟩
  -- a negative offset has windows, and their targets are not skipped
  have hnil : (windows lay (offset o)).elems = [] → o < 0 → -o ≤ lay.size → lay.hwconc < lay.hwconc
    := by
    intro hempty ho _
    have ha : lay.a 0 = 0 := by simp [Layout.a, partition]
    have hmem : (0 : ℤ) ∈ windows lay (offset o) := mem_windows.2 ⟨0, lay.hwconc_pos, .inl (by
      simp only [clamp, ha]
      omega)⟩
    rw [← SortedSet.mem_elems, hempty] at hmem
    cases hmem
  have htargets : o < 0 → -o ≤ lay.size → ∀ c ∈ (windows lay (offset o)).elems,
      lay.InRange (c - o) := by
    intro ho hsize c hc
    obtain ⟨h1, h2⟩ := windows_fit_iff.1 hfit ho hsize
    obtain ⟨p, hp, hc⟩ := mem_windows.1 hc
    have h3 := Layout.a_lt_b hp
    have h4 := lay.a_nonneg p
    have h5 := lay.b_le_size p
    have h6 := Layout.a_le_last hp
    simp only [clamp] at hc
    rw [Layout.InRange]
    omega
  obtain ⟨p₁, h₁, hp₁⟩ := hfirst _ ⟨st.1, st.2, lay.hwconc⟩ hfit hnil htargets
  obtain ⟨p₂, h₂⟩ := hsecond contended.elems (windows lay (offset o)) ⟨st.1, st.2, p₁⟩ hin hp₁
  simp only [resolveDep, h₁, h₂, Exec.ok_bind]

end

/-- A loop over a list that has an element no round goes through for. -/
theorem exists_error_of_foldlM {σ ι : Type} {body : σ → ι → Exec σ} {l : List ι} {i : ι}
    (hi : i ∈ l) (h : ∀ s, ∃ e, body s i = .error e) (s : σ) : ∃ e, l.foldlM body s = .error e := by
  induction l generalizing s with
  | nil => exact nomatch hi
  | cons j l ih =>
    rw [List.foldlM_cons]
    rcases List.mem_cons.1 hi with rfl | hi
    · obtain ⟨e, he⟩ := h s
      exact ⟨e, by rw [he]; rfl⟩
    · cases body s j with
      | error e => exact ⟨e, rfl⟩
      | ok t => exact ih hi t

/-- **Where they do not**, it stops. -/
theorem resolveDep_unfit {op : Op ℚ} (src : Contents) (contended : SortedSet ℤ)
    (used : ℕ → Contents) (hc : c ∈ windows lay (offset o)) (hno : ¬ Scannable lay o c)
    (st : Contents × SortedSet ℤ) :
    ∃ e, resolveDep lay src contended used st ⟨offset o, op⟩ = .error e := by
  have hround : ∀ st, ∃ e, scanWindow lay ⟨offset o, op⟩ src used st c = .error e := by
    intro st
    rw [Scannable] at hno
    have htarget : offset o c = c - o := rfl
    have hskip : ¬ (offset o c < 0 ∨ offset o c > lay.size) := by
      rw [htarget]
      exact fun h => hno fun h0 hle => by omega
    simp only [scanWindow, if_neg hskip]
    split
    · exact ⟨_, rfl⟩
    · next hown =>
      have ht : lay.InRange (offset o c) := by
        by_contra hout
        exact hown (owner_of_outside hout _)
      have hout : ¬ lay.InRange c := fun hin => hno fun _ _ => ⟨hin, ht.2⟩
      refine ⟨.outOfBounds, ?_⟩
      rw [repairCell, elemAt, if_neg hout]
      rfl
  obtain ⟨e, he⟩ := exists_error_of_foldlM hc hround ⟨st.1, st.2, lay.hwconc⟩
  refine ⟨e, ?_⟩
  simp only [resolveDep, he]
  rfl

end Contentious.Cont
