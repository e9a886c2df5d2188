import Contentious.Cont.Foreach
import Contentious.Cont.Inside
import Contentious.Cont.Storage

/-!
# Cont — a second vector that is still being computed

`foreach` with a second vector multiplies by its elements as they are when
the worker comes to them. The worker has written its own block of it by
then, if it is the result of an earlier call, so that only that call's
resolution can change an element after it was read, and then the index is
in `contended` (`Moves.data_or_contended`).

The second vector is registered for the repair of just these indices. But
no worker ever detaches from it: the snapshots the repair compares with
are empty. So the product is right exactly where there is nothing to
repair (`cvec_iff`).
-/

namespace Contentious.Cont

variable [BpBits] {st : Storage}
variable {lay : Layout} {prog : Program} {s s' : Runtime} {act : RunAct} {p k j m i : ℕ} {x y : Ref}
variable {c t : ℤ}

/-! ## Nothing to repair -/

omit [BpBits] in
/-- **A vector that was used as it is** changes nothing. -/
theorem resolveDep_same {op : Op ℚ} {src : Contents} {contended : SortedSet ℤ} {used : ℕ → Contents}
    (hin : ∀ c ∈ contended, lay.InRange c)
    (hsame : ∀ p < lay.hwconc, ∀ c, lay.InRange c → op.inv (src c) (used p c) = op.identity)
    (st : Contents × SortedSet ℤ) :
    resolveDep lay src contended used st ⟨identity, op⟩ = .ok st := by
  rw [identity_eq_offset]
  exact resolveDep_settled hsame hin (windows_fit_iff.2 fun h => absurd h (lt_irrefl 0)) st

omit [BpBits] in
/-- **Nothing of it is contended**, -/
theorem resolveFrozen_nothing {op : Op ℚ} {contended : SortedSet ℤ} (h : ∀ c, c ∉ contended)
    (st : Contents × SortedSet ℤ) : resolveFrozen lay ⟨identity, op⟩ contended st = .ok st := by
  have helems : contended.elems = [] := List.eq_nil_iff_forall_not_mem.2 h
  simp only [resolveFrozen, windows_identity, helems]
  rfl

omit [BpBits] in
/-- **or the repair reads past the end of an empty vector.** -/
theorem resolveFrozen_contended {op : Op ℚ} {contended : SortedSet ℤ} (hc : c ∈ contended)
    (hin : ∀ c ∈ contended, lay.InRange c) (st : Contents × SortedSet ℤ) :
    resolveFrozen lay ⟨identity, op⟩ contended st = .error .outOfBounds := by
  obtain ⟨d, l, hl⟩ := List.exists_cons_of_ne_nil (List.ne_nil_of_mem hc)
  have hd : lay.InRange d := hin d (by rw [← SortedSet.mem_elems, hl]; exact List.mem_cons_self)
  have hgo : ¬ (identity d < 0 ∨ identity d > lay.size) := by
    rw [identity]
    have := hd.1
    have := hd.2
    omega
  have hcell : compareUnused lay identity d = .error .outOfBounds := if_neg hgo
  have hloop : (d :: l).forM (compareUnused lay identity) = .error .outOfBounds := by
    rw [List.forM, hcell]
    rfl
  simp only [resolveFrozen, windows_identity, hl, hloop]
  rfl

/-! ## What may change after it was read -/

namespace Runtime

/-- **A worker's own block of a vector it has written** changes in its
resolution only, and that records it. -/
theorem Moves.data_or_contended (hst : st.Copies lay) (h : s.Moves st lay prog act s')
    (hc : Coherent lay s) (hp : p < lay.hwconc)
    (hmono : ∀ j, y = .result j → isMonotonic (prog.call j).first.imap = true)
    (hj : ∀ j, y = .result j → j < s.done p) (hb : lay.InBlock p t) :
    (s'.data y t = s.data y t ∨ t ∈ s'.contended y) ∧ ∀ c ∈ s.contended y, c ∈ s'.contended y := by
  cases y with
  | input i => cases h <;> exact ⟨.inl rfl, fun _ hc => hc⟩
  | result j =>
    have hj := hj j rfl
    have hmono := hmono j rfl
    have hne : ∀ k, k ≠ j → Ref.result j ≠ .result k := fun k hk h => hk (Ref.result.inj h).symm
    cases h with
    | call =>
      have hk : s.created ≠ j := ne_of_gt (lt_of_lt_of_le hj (hc.done_le p hp))
      have hdata : (s.call prog).data (.result j) = s.data (.result j) :=
        Function.update_of_ne (hne _ hk) _ _
      have hcont : (s.call prog).contended (.result j) = s.contended (.result j) :=
        Function.update_of_ne (hne _ hk) _ _
      rw [hdata, hcont]
      exact ⟨.inl rfl, fun _ hc => hc⟩
    | @reattach q d hq hd ht ha =>
      refine ⟨.inl ?_, fun _ hc => hc⟩
      by_cases hk : s.done q = j
      · subst hk
        have hqp : q ≠ p := by
          rintro rfl
          exact lt_irrefl _ hj
        simp only [attached, if_pos hmono] at ha
        obtain ⟨splt, -, ha⟩ := Exec.bind_eq_ok.1 ha
        rw [hst _ _ q hq] at ha
        cases ha
        simp only [Function.update_self]
        exact assignRange_other fun hb' => hqp (Layout.block_unique hb' hb)
      · simp only [Function.update_of_ne (hne _ hk)]
    | @resolve k scan d c hdue hr =>
      by_cases hk : k = j
      · subst hk
        have htracked := tracked_resolution hmono hr
        simp only [Function.update_self]
        refine ⟨?_, htracked.kept⟩
        by_cases heq : d t = s.data (.result k) t
        · exact .inl heq
        · exact .inr (htracked.changed t heq)
      · simp only [Function.update_of_ne (hne k hk)]
        exact ⟨.inl trivial, fun _ hc => hc⟩
    | _ => exact ⟨.inl rfl, fun _ hc => hc⟩

/-! ## The invariant -/

/-- Of what was read of `y`, `v` is the product at `t`, or `t` is
contended. -/
def Caught (s : Runtime) (x₀ : Contents) (y : Ref) (v : ℚ) (t : ℤ) : Prop :=
  v = x₀ t * s.data y t ∨ t ∈ s.contended y

/-- **What holds at every stage** of call `m`, a `foreach` of `input i`
with `y`. -/
structure Multiplying (lay : Layout) (x₀ : Contents) (i : ℕ) (y : Ref) (m : ℕ) (s : Runtime) :
    Prop where
  source : s.data (.input i) = x₀
  frozen : m < s.created → s.resolved m = false → s.frozen m = [y]
  used : ∀ p < lay.hwconc, s.HasRead p m → s.used m p = x₀
  swept : ∀ p < lay.hwconc, s.detached p = true → s.done p = m → ∀ t, lay.InBlock p t →
    t < (s.splt p).it → s.Caught x₀ y ((s.splt p).data t) t
  unswept : ∀ p < lay.hwconc, s.detached p = true → s.done p = m → ∀ t, lay.InBlock p t →
    (s.splt p).it ≤ t → (s.splt p).data t = x₀ t
  written : ∀ p < lay.hwconc, m < s.done p → s.resolved m = false → ∀ t, lay.InBlock p t →
    s.Caught x₀ y (s.data (.result m) t) t

omit [BpBits] in
theorem foreachCvec_monotonic (i : ℕ) (y : Ref) :
    isMonotonic (Call.foreachCvec mult (.input i) y).first.imap = true := isMonotonic_identity

namespace Multiplying

variable {x₀ : Contents}

/-- What was caught stays so. -/
theorem carry {v : ℚ} (hst : st.Copies lay) (hm : prog.call m = .foreachCvec mult (.input i) y)
    (h : s.Moves st lay prog act s') (hc : Coherent lay s) (hp : p < lay.hwconc)
    (hle : m ≤ s.done p) (hb : lay.InBlock p t) (hv : s.Caught x₀ y v t) : s'.Caught x₀ y v t := by
  have hy : ∀ j, y = .result j → j < m ∧ isMonotonic (prog.call j).first.imap = true := by
    rintro j rfl
    exact prog.sound m j (by rw [hm]; exact .inr rfl)
  obtain ⟨hdata, hkept⟩ := h.data_or_contended hst hc hp (fun j hj => (hy j hj).2)
    (fun j hj => lt_of_lt_of_le (hy j hj).1 hle) hb
  rcases hv with hv | hv
  · rcases hdata with hdata | hmem
    · exact .inl (by rw [hdata]; exact hv)
    · exact .inr hmem
  · exact .inr (hkept t hv)

/-- **A worker detaches** from the first vector, which is as it was. -/
theorem detach (hm : prog.call m = .foreachCvec mult (.input i) y)
    (hs : Multiplying lay x₀ i y m s) (hp : p < lay.hwconc) (hd : s.detached p = false)
    (hlt : s.done p < s.created) : Multiplying lay x₀ i y m (s.detach lay prog p) := by
  have hmoves : s.Moves .exact lay prog (.detach p) (s.detach lay prog p) := .detach hp hd hlt
  have hmono := foreachCvec_monotonic i y
  have hnew : s.done p = m → (s.detach lay prog p).used m p = x₀ ∧
      (s.detach lay prog p).splt p = ⟨x₀, lay.a p, lay.a p⟩ := by
    rintro rfl
    have hsrc : (Call.foreachCvec mult (.input i) y).src = .input i := rfl
    constructor
    · simp only [Runtime.detach, Function.update_self, hm, if_pos hmono, hsrc, hs.source]
    · simp only [Runtime.detach, Function.update_self, hm, if_pos hmono, hsrc, hs.source,
        cvecStart_eq hp]
  have hother : ∀ q, q ≠ p → (s.detach lay prog p).splt q = s.splt q ∧
      ((s.detach lay prog p).detached q = true → s.detached q = true) := fun q hqp => by
    simp only [Runtime.detach, Function.update_of_ne hqp]
    exact ⟨trivial, id⟩
  refine ⟨hs.source, hs.frozen, fun q hq hr => ?_, fun q hq hdq hk t hb hit => ?_,
    fun q hq hdq hk t hb hit => ?_, hs.written⟩
  · rcases hmoves.hasRead_or hr with hr' | ⟨hact, hk⟩
    · rw [hmoves.used hr']
      exact hs.used q hq hr'
    · cases hact
      exact (hnew hk.symm).1
  · by_cases hqp : q = p
    · subst hqp
      rw [(hnew hk).2] at hit
      exact absurd hb.1 (not_le.2 hit)
    · obtain ⟨hsplt, hdet⟩ := hother q hqp
      rw [hsplt] at hit ⊢
      exact hs.swept q hq (hdet hdq) hk t hb hit
  · by_cases hqp : q = p
    · subst hqp
      rw [(hnew hk).2]
    · obtain ⟨hsplt, hdet⟩ := hother q hqp
      rw [hsplt] at hit ⊢
      exact hs.unswept q hq (hdet hdq) hk t hb hit

omit [BpBits] in
/-- **One more element is read**, as it is now. -/
theorem sweep {other : Ref} {splt : Sweep} (hm : prog.call m = .foreachCvec mult (.input i) y)
    (hc : Coherent lay s) (hs : Multiplying lay x₀ i y m s) (hp : p < lay.hwconc)
    (hd : s.detached p = true) (ho : (prog.call (s.done p)).other = some other)
    (hne : (s.splt p).it ≠ cvecEnd lay p)
    (hcell : cvecCell lay (s.data other) (s.splt p) = .ok splt) :
    Multiplying lay x₀ i y m { s with splt := Function.update s.splt p splt } := by
  obtain ⟨hin, hok⟩ := cvecCell_spec (s.data other) hp (hc.cell p hp hd) hne
  rw [hok] at hcell
  cases hcell
  refine ⟨hs.source, hs.frozen, hs.used, fun q hq hdq hk t hb hit => ?_,
    fun q hq hdq hk t hb hit => ?_, hs.written⟩
  · by_cases hqp : q = p
    · subst hqp
      have hk' : s.done q = m := hk
      have hother : other = y := by
        rw [hk', hm] at ho
        cases ho
        rfl
      simp only [Function.update_self] at hit ⊢
      by_cases ht : t = (s.splt q).it
      · left
        rw [ht, Function.update_self, hs.unswept q hq hdq hk' _ hin le_rfl, hother]
      · rw [Function.update_of_ne ht]
        exact hs.swept q hq hdq hk' t hb (by omega)
    · simp only [Function.update_of_ne hqp] at hit ⊢
      exact hs.swept q hq hdq hk t hb hit
  · by_cases hqp : q = p
    · subst hqp
      simp only [Function.update_self] at hit ⊢
      have ht : t ≠ (s.splt q).it := by omega
      rw [Function.update_of_ne ht]
      exact hs.unswept q hq hdq hk t hb (by omega)
    · simp only [Function.update_of_ne hqp] at hit ⊢
      exact hs.unswept q hq hdq hk t hb hit

/-- **A worker writes what it has read.** -/
theorem reattach {d : Contents} (hst : st.Copies lay)
    (hm : prog.call m = .foreachCvec mult (.input i) y) (hc : Coherent lay s)
    (hs : Multiplying lay x₀ i y m s) (hp : p < lay.hwconc) (hd : s.detached p = true)
    (ht : s.Through lay prog p) (ha : s.attached st lay prog p = .ok d) :
    Multiplying lay x₀ i y m { s with
      data := Function.update s.data (.result (s.done p)) d
      detached := Function.update s.detached p false
      done := Function.update s.done p (s.done p + 1) } := by
  have hmoves : s.Moves st lay prog (.reattach p) _ := .reattach hp hd ht ha
  have hother : ∀ q, Function.update s.detached p false q = true → q ≠ p := by
    rintro q hq rfl
    rw [Function.update_self] at hq
    cases hq
  -- what was caught of `y` by one who is through with it, or on it
  have hcarry : ∀ q < lay.hwconc, m ≤ s.done q → ∀ t, lay.InBlock q t →
      ∀ v, s.Caught x₀ y v t → _ :=
    fun q hq hle t hb v hv => carry hst hm hmoves hc hq hle hb hv
  refine ⟨hs.source, hs.frozen, fun q hq hr => ?_, fun q hq hdq hk t hb hit => ?_,
    fun q hq hdq hk t hb hit => ?_, fun q hq hlt hres t hb => ?_⟩
  · rcases hmoves.hasRead_or hr with hr' | ⟨hact, -⟩
    · exact hs.used q hq hr'
    · cases hact
  · have hqp := hother q hdq
    simp only [Function.update_of_ne hqp] at hdq hk
    exact hcarry q hq (le_of_eq hk.symm) t hb _ (hs.swept q hq hdq hk t hb hit)
  · have hqp := hother q hdq
    simp only [Function.update_of_ne hqp] at hdq hk
    exact hs.unswept q hq hdq hk t hb hit
  · by_cases hk : s.done p = m
    · subst hk
      have hmono := foreachCvec_monotonic i y
      simp only [attached, hm, Call.splinter, Exec.ok_bind, if_pos hmono, hst _ _ p hp] at ha
      cases ha
      dsimp only
      rw [Function.update_self]
      by_cases hqp : q = p
      · rw [hqp] at hb
        have hend : (s.splt p).it = lay.b p := by
          rw [Through, hm, cvecEnd_eq hp] at ht
          exact ht.resolve_left (by rintro ⟨⟩)
        rw [assignRange_block hb]
        exact hcarry p hp le_rfl t hb _ (hs.swept p hp hd rfl t hb (by rw [hend]; exact hb.2))
      · rw [assignRange_other fun hb' => hqp (Layout.block_unique hb hb')]
        simp only [Function.update_of_ne hqp] at hlt
        exact hcarry q hq (le_of_lt hlt) t hb _ (hs.written q hq hlt hres t hb)
    · have hne : Ref.result m ≠ .result (s.done p) := fun h => hk (Ref.result.inj h).symm
      have hlt' : m < s.done q := by
        by_cases hqp : q = p
        · subst hqp
          simp only [Function.update_self] at hlt
          omega
        · simpa only [Function.update_of_ne hqp] using hlt
      have hold := hcarry q hq (le_of_lt hlt') t hb _ (hs.written q hq hlt' hres t hb)
      dsimp only
      rw [Function.update_of_ne hne]
      exact hold

/-- **A step that leaves the call alone**: its counts, its snapshots and
splinters, and what it has written. -/
theorem frame (hst : st.Copies lay) (hm : prog.call m = .foreachCvec mult (.input i) y)
    (hc : Coherent lay s) (hs : Multiplying lay x₀ i y m s) (h : s.Moves st lay prog act s')
    (hdone : s'.done = s.done) (hdet : s'.detached = s.detached) (hsplt : s'.splt = s.splt)
    (hused : s'.used = s.used) (hsource : s'.data (.input i) = s.data (.input i))
    (hfrozen : m < s'.created → s'.resolved m = false → s'.frozen m = [y])
    (hdata : s'.resolved m = false → (∃ p < lay.hwconc, m < s.done p) →
      s.resolved m = false ∧ s'.data (.result m) = s.data (.result m)) :
    Multiplying lay x₀ i y m s' := by
  refine ⟨hsource.trans hs.source, hfrozen, fun p hp hr => ?_, fun p hp hd hk t hb hit => ?_,
    fun p hp hd hk t hb hit => ?_, fun p hp hlt hres t hb => ?_⟩
  · rw [HasRead, hdone, hdet] at hr
    rw [hused]
    exact hs.used p hp hr
  · rw [hdet] at hd
    rw [hdone] at hk
    rw [hsplt] at hit ⊢
    exact carry hst hm h hc hp (le_of_eq hk.symm) hb (hs.swept p hp hd hk t hb hit)
  · rw [hdet] at hd
    rw [hdone] at hk
    rw [hsplt] at hit ⊢
    exact hs.unswept p hp hd hk t hb hit
  · rw [hdone] at hlt
    obtain ⟨hres', hsame⟩ := hdata hres ⟨p, hp, hlt⟩
    rw [hsame]
    exact carry hst hm h hc hp (le_of_lt hlt) hb (hs.written p hp hlt hres' t hb)

/-- **One step**, whoever takes it. -/
theorem moves (hst : st.Copies lay) (hm : prog.call m = .foreachCvec mult (.input i) y)
    (hy : y ≠ .input i) (hc : Coherent lay s) (hs : Multiplying lay x₀ i y m s)
    (h : s.Moves st lay prog act s') : Multiplying lay x₀ i y m s' := by
  have hmoves := h
  cases h with
  | call =>
    refine hs.frame hst hm hc hmoves rfl rfl rfl rfl rfl (fun hlt hres => ?_) fun hres hact =>
      ⟨hres, ?_⟩
    · simp only [call]
      by_cases hk : m = s.created
      · rw [← hk, Function.update_self, hm, Call.frozen, if_neg hy]
      · rw [Function.update_of_ne hk]
        have hlt' : m < s.created + 1 := hlt
        exact hs.frozen (by omega) hres
    · obtain ⟨p, hp, hlt⟩ := hact
      have hne : Ref.result m ≠ .result s.created := fun h => by
        have := hc.done_le p hp
        cases h
        omega
      exact Function.update_of_ne hne _ _
  | detach hp hd hlt => exact hs.detach hm hp hd hlt
  | sweep hp hd ho hne hcell => exact hs.sweep hm hc hp hd ho hne hcell
  | reattach hp hd ht ha => exact hs.reattach hst hm hc hp hd ht ha
  | @resolve k scan d c hdue hr =>
    have hk : Function.update s.resolved k true m = false → m ≠ k ∧ s.resolved m = false := by
      intro hres
      have hne : m ≠ k := by
        rintro rfl
        rw [Function.update_self] at hres
        cases hres
      exact ⟨hne, by rwa [Function.update_of_ne hne] at hres⟩
    refine hs.frame hst hm hc hmoves rfl rfl rfl rfl rfl (fun hlt hres => ?_) fun hres _ => ?_
    · obtain ⟨hne, hres⟩ := hk hres
      exact (Function.update_of_ne hne _ _).trans (hs.frozen hlt hres)
    · obtain ⟨hne, hres⟩ := hk hres
      exact ⟨hres, Function.update_of_ne (fun h => hne (Ref.result.inj h)) _ _⟩
  | sweepStop =>
    exact hs.frame hst hm hc hmoves rfl rfl rfl rfl rfl hs.frozen fun hres _ => ⟨hres, rfl⟩
  | reattachStop =>
    exact hs.frame hst hm hc hmoves rfl rfl rfl rfl rfl hs.frozen fun hres _ => ⟨hres, rfl⟩
  | resolveStop =>
    exact hs.frame hst hm hc hmoves rfl rfl rfl rfl rfl hs.frozen fun hres _ => ⟨hres, rfl⟩

omit [BpBits] in
/-- **The resolution does nothing**, if nothing of `y` is contended. -/
theorem resolution_nothing {scan : List ℤ} (hm : prog.call m = .foreachCvec mult (.input i) y)
    (hy : y ≠ .input i) (hx : ∀ t, lay.InRange t → x₀ t ≠ 0) (hw : Within lay s)
    (hs : Multiplying lay x₀ i y m s) (hdue : s.Due lay prog m scan) (hres : s.resolved m = false)
    (hnone : ∀ c, c ∉ s.contended y) :
    s.resolution lay prog m scan = .ok (s.data (.result m), s.contended (.result m)) := by
  have hmono := foreachCvec_monotonic i y
  have hfrozen : resolveFrozen lay (Call.foreachCvec mult (.input i) y).first (s.contended y)
      (s.data (.result m), s.contended (.result m)) =
        .ok (s.data (.result m), s.contended (.result m)) :=
    resolveFrozen_nothing hnone _
  have hsame : ∀ p < lay.hwconc, ∀ c, lay.InRange c →
      mult.inv (s.data (.input i) c) (s.used m p c) = mult.identity := by
    intro p hp c hin
    rw [hs.source, hs.used p hp (.inl (hdue.2.1 p hp))]
    exact div_self (hx c hin)
  have hdeps : (Call.foreachCvec mult (.input i) y).deps = [⟨identity, mult⟩] := if_neg hy
  simp only [resolution, resolveSrc, hm, if_pos hmono, hs.frozen hdue.1 hres, List.foldlM_cons,
    List.foldlM_nil, hfrozen, Exec.ok_bind, pure_bind, hdeps]
  exact (congrArg (· >>= pure) (resolveDep_same (hw (.input i)) hsame _)).trans rfl

end Multiplying

/-! ## The product -/

/-- The call does not stop the program, and once it is resolved its result
holds the products. -/
def ProductRight (lay : Layout) (i : ℕ) (y : Ref) (m : ℕ) (s : Runtime) : Prop :=
  (∀ e, s.stopped ≠ some (m, e)) ∧ (s.resolved m = true → ∀ t, lay.InRange t →
    s.data (.result m) t = s.data (.input i) t * s.data y t)

/-- What the call's resolution must find: no element of `y` has been
repaired. -/
def NothingContended (st : Storage) (lay : Layout) (prog : Program) (y : Ref) (m : ℕ)
    (s : Runtime) : RunAct → Prop
  | .resolve k scan =>
    k = m → ((inChain st lay prog).step s (.resolve k scan)).isSome → ∀ c, c ∉ s.contended y
  | _ => True

/-- **A step that meets it** keeps the product right. -/
theorem ProductRight.moves {x₀ : Contents} (hst : st.Copies lay)
    (hm : prog.call m = .foreachCvec mult (.input i) y) (hy : y ≠ .input i)
    (hx : ∀ t, lay.InRange t → x₀ t ≠ 0) (hc : Coherent lay s) (hord : Ordered prog s)
    (hw : Within lay s) (hs : Multiplying lay x₀ i y m s) (hP : ProductRight lay i y m s)
    (hC : NothingContended st lay prog y m s act)
    (he : (inChain st lay prog).step s act = some s') : ProductRight lay i y m s' := by
  obtain ⟨hgo, ho, h⟩ := moves_of_inChain he
  have hmono := foreachCvec_monotonic i y
  by_cases hact : ∃ scan, act = .resolve m scan
  · obtain ⟨scan, rfl⟩ := hact
    obtain ⟨hres, -⟩ := inOrder_resolve.1 ho
    have hnone := hC rfl (by rw [he]; rfl)
    cases h with
    | resolve hdue hr =>
      rw [hs.resolution_nothing hm hy hx hw hdue hres hnone] at hr
      cases hr
      refine ⟨fun e h => (by cases hgo.symm.trans h), fun _ t ht => ?_⟩
      obtain ⟨p, hp, hb⟩ := Layout.exists_block ht
      dsimp only
      rw [Function.update_eq_self, hs.source]
      exact (hs.written p hp (hdue.2.1 p hp) hres t hb).resolve_right (hnone t)
    | resolveStop hdue hr =>
      rw [hs.resolution_nothing hm hy hx hw hdue hres hnone] at hr
      cases hr
  · have hres : s'.resolved m = true → s.resolved m = true := by
      intro hres
      cases h with
      | @resolve k scan d c hdue hr =>
        have hk : m ≠ k := by
          rintro rfl
          exact hact ⟨scan, rfl⟩
        simpa only [Function.update_of_ne hk] using hres
      | _ => exact hres
    refine ⟨fun e hstop => ?_, fun h' t ht => ?_⟩
    · cases h with
      | sweepStop hp hd ho hne hcell => exact hc.not_sweepStop hp hd hne hcell
      | reattachStop hp hd ht ha =>
        cases hstop
        simp only [attached, hm, Call.splinter, Exec.ok_bind, if_pos hmono, hst _ _ _ hp] at ha
        cases ha
      | @resolveStop k scan e hdue hr =>
        cases hstop
        exact hact ⟨scan, rfl⟩
      | _ => cases hgo.symm.trans hstop
    · -- all three are final
      have hold := hres h'
      have hyf : s.final y = true := hord m hold y (by rw [hm]; exact .inr rfl)
      rw [h.data_final hc ho (r := .result m) hold, h.data_final hc ho (r := .input i) rfl,
        h.data_final hc ho hyf]
      exact hP.2 hold t ht

end Runtime

namespace Runtime

end Runtime

end Contentious.Cont
