import Contentious.Cont.Inside
import Contentious.Cont.Storage
import Contentious.Cont.Tasks

/-!
# Cont — summing a vector that is still being computed

A `reduce` keeps in `_orig` what its source holds when it is called. Its
workers sum their blocks of that, whatever has arrived in the source
since, and the resolution adds by how much the source then differs from
`_orig`. As long as `_orig` is the one the workers have summed, that is
the sum of the source as it is in the end (`reduce_sum`).

There is one `_orig` for all reductions of a vector, and each overwrites
it. The workers of an earlier one may have summed the old contents, and
its resolution compares with the new: what has arrived between the two is
in neither. So several reductions are right in the runs where a freeze finds
in the blocks of such workers nothing that has arrived since the last one
(`reduces_sum`).

A fold goes over the indices that differ, which are an `int32_t`, and the
calls of `foreach` that the vector comes from copy the workers' blocks. Both
go through where the size is below `2 ^ 31` and one worker alone does not
have a single full leaf (`Unimpeded.moves`).
-/

namespace Contentious.Cont

variable [BpBits] {st : Storage}
variable {lay : Layout} {prog : Program} {s t : Runtime} {act : RunAct} {p q k j m : ℕ} {r y : Ref}

/-! ## What the workers sum -/

omit [BpBits] in
/-- The loop of `reduce_splt` adds the block to the first element. -/
theorem reduceSplt_eq (hp : p < lay.hwconc) (used : Contents) :
    reduceSplt lay p used =
      Function.update used 0 (used 0 + sumRange used (lay.a p) (lay.b p)) := by
  have hfold : ∀ n : ℕ,
      (List.range n).foldl (fun temp k => temp + used (lay.a p + (k : ℕ))) (used 0) =
      used 0 + sumRange used (lay.a p) (lay.a p + n) := by
    intro n
    induction n with
    | zero => simp [sumRange]
    | succ n ih =>
      rw [List.range_succ, List.foldl_append, ih, List.foldl_cons, List.foldl_nil, Nat.cast_succ,
        ← add_assoc, sumRange_succ _ (by omega), add_assoc]
  have hlt := Layout.a_lt_b hp
  rw [reduceSplt, hfold, show lay.a p + ((lay.b p - lay.a p).toNat : ℤ) = lay.b p by omega]

omit [BpBits] in
/-- **What a reattach adds**: the sum of the worker's block. -/
theorem joinRange_reduceSplt (hp : p < lay.hwconc) (used d : Contents) :
    joinRange plus (reduceSplt lay p used) used d 0 1 =
      Function.update d 0 (d 0 + sumRange used (lay.a p) (lay.b p)) := by
  rw [plus_eq_group]
  have hjoin := joinRange_group (reduceSplt lay p used) used d 0
  rw [zero_add] at hjoin
  rw [hjoin, reduceSplt_eq hp, Function.update_self, add_sub_cancel_left]

omit [BpBits] in
theorem isMonotonic_alltoone (i : ℤ) : isMonotonic (alltoone i) = false := by
  simp [isMonotonic, alltoone]

omit [BpBits] in
/-- A `reduce` folds its source. -/
theorem reduce_folds {V : Type} (op : Op ℚ) (y : V) :
    ¬ isMonotonic (Call.reduce op y).first.imap = true := by
  rw [Call.first, isMonotonic_alltoone]
  exact Bool.false_ne_true

namespace Runtime

/-- What the workers that are done with call `m` have summed. -/
def summed (lay : Layout) (s : Runtime) (m : ℕ) : ℚ :=
  ∑ p ∈ Finset.range lay.hwconc,
    if m < s.done p then sumRange (s.used m p) (lay.a p) (lay.b p) else 0

/-- What all workers have summed, each from the snapshot it has. -/
def summedAll (lay : Layout) (s : Runtime) (m : ℕ) : ℚ :=
  ∑ p ∈ Finset.range lay.hwconc, sumRange (s.used m p) (lay.a p) (lay.b p)

omit [BpBits] in
theorem summed_eq_all (h : ∀ p < lay.hwconc, m < s.done p) : s.summed lay m = s.summedAll lay m :=
  Finset.sum_congr rfl fun p hp => if_pos (h p (Finset.mem_range.1 hp))

/-- The reattach of a `reduce`. -/
theorem attached_reduce (hp : p < lay.hwconc) (hm : prog.call (s.done p) = .reduce plus y) :
    s.attached st lay prog p = .ok (Function.update (s.data (.result (s.done p))) 0
      (s.data (.result (s.done p)) 0 + sumRange (s.used (s.done p) p) (lay.a p) (lay.b p))) := by
  have hfold := reduce_folds plus y
  simp only [attached, hm, Call.splinter, Exec.ok_bind, if_neg hfold]
  exact congrArg Except.ok (joinRange_reduceSplt hp _ _)

omit [BpBits] in
/-- **The resolution of a `reduce`** adds by how much the sum of the source
has changed. -/
theorem resolution_reduce {scan : List ℤ} (hsmall : lay.size < 2 ^ 31)
    (hm : prog.call m = .reduce plus y) (hdue : s.Due lay prog m scan) :
    s.resolution lay prog m scan = .ok (Function.update (s.data (.result m)) 0
      (s.data (.result m) 0 + (sumRange (s.data y) 0 lay.size - sumRange (s.orig y) 0 lay.size)),
      s.contended (.result m)) := by
  have hfold : isMonotonic (Call.reduce plus y).first.imap = false := isMonotonic_alltoone 0
  have hscan : Scan lay.size (s.orig y) (s.data y) scan := by
    have := hdue.2.2
    rw [hm] at this
    exact this hfold hsmall
  have hne := reduce_folds plus y
  simp only [resolution, hm, if_neg hne, foldSrc, resolveLoop_of_lt hsmall, Exec.ok_bind]
  have hsrc : (Call.reduce plus y).src = y := rfl
  have htarget : (Call.reduce plus y).first.imap 0 = 0 := rfl
  have hop : (Call.reduce plus y).first.op = .group ℚ := rfl
  rw [hsrc, htarget, hop, resolveOnto_group hscan]

/-- A `reduce` does not stop the program. -/
theorem Moves.not_stopped {y : Ref} {e : Fault} (hsmall : lay.size < 2 ^ 31)
    (h : s.Moves st lay prog act t) (hs : Coherent lay s) (hgo : s.stopped = none)
    (hm : prog.call m = .reduce plus y) : t.stopped ≠ some (m, e) := by
  intro hstop
  cases h with
  | sweepStop hp hd ho hne hc => exact hs.not_sweepStop hp hd hne hc
  | reattachStop hp hd ht ha =>
    cases hstop
    rw [attached_reduce hp hm] at ha
    exact nomatch ha
  | resolveStop hdue hr =>
    cases hstop
    rw [resolution_reduce hsmall hm hdue] at hr
    exact nomatch hr
  | _ => exact nomatch hgo.symm.trans hstop

/-- **The sum so far**: a `reduce` that is not resolved holds what its
workers have summed. -/
def Adding (lay : Layout) (prog : Program) (s : Runtime) : Prop :=
  ∀ m y, prog.call m = .reduce plus y → m < s.created → s.resolved m = false →
    s.data (.result m) 0 = s.summed lay m

/-- What does not concern the call leaves its sum alone. -/
theorem Moves.summed (h : s.Moves st lay prog act t)
    (hdone : ∀ p < lay.hwconc, m < t.done p ↔ m < s.done p) :
    t.summed lay m = s.summed lay m := by
  refine Finset.sum_congr rfl fun p hp => ?_
  have hp := Finset.mem_range.1 hp
  by_cases hm : m < s.done p
  · rw [if_pos hm, if_pos ((hdone p hp).2 hm), h.used (.inl hm)]
  · rw [if_neg hm, if_neg fun h' => hm ((hdone p hp).1 h')]

theorem Adding.moves (hs : Adding lay prog s) (hc : Coherent lay s)
    (h : s.Moves st lay prog act t) : Adding lay prog t := by
  intro m y hm hlt hres
  have hne : ∀ k, k ≠ m → Ref.result m ≠ .result k := fun k hk h => hk (Ref.result.inj h).symm
  have hmove := h
  cases h with
  | call =>
    have hlt' : m < s.created + 1 := hlt
    rw [hmove.summed fun p hp => Iff.rfl]
    by_cases hk : m = s.created
    · -- nobody has summed anything
      have hnone : s.summed lay m = 0 := by
        refine Finset.sum_eq_zero fun p hp => if_neg ?_
        have := hc.done_le p (Finset.mem_range.1 hp)
        omega
      have hfresh : (s.call prog).data (.result m) = fun _ => 0 := by
        simp only [call, ← hk, hm, Function.update_self]
        rfl
      rw [hnone, hfresh]
    · have hsame : (s.call prog).data (.result m) = s.data (.result m) :=
        Function.update_of_ne (hne _ (Ne.symm hk)) _ _
      rw [hsame]
      exact hs m y hm (by omega) hres
  | detach => rw [hmove.summed fun p hp => Iff.rfl]; exact hs m y hm hlt hres
  | sweep => rw [hmove.summed fun p hp => Iff.rfl]; exact hs m y hm hlt hres
  | @reattach p d hp hd ht ha =>
    by_cases hk : s.done p = m
    · rw [← hk] at hm hlt hres ⊢
      rw [attached_reduce hp hm] at ha
      cases ha
      have hold := hs _ y hm hlt hres
      have hterm : ∀ q ∈ Finset.range lay.hwconc,
          (if s.done p < Function.update s.done p (s.done p + 1) q then
            sumRange (s.used (s.done p) q) (lay.a q) (lay.b q) else 0) =
          (if s.done p < s.done q then sumRange (s.used (s.done p) q) (lay.a q) (lay.b q) else 0) +
            if q = p then sumRange (s.used (s.done p) p) (lay.a p) (lay.b p) else 0 := by
        intro q _
        by_cases hqp : q = p
        · rw [hqp, Function.update_self, if_pos (Nat.lt_succ_self _), if_neg (lt_irrefl _),
            if_pos rfl,
            zero_add]
        · rw [Function.update_of_ne hqp, if_neg hqp, add_zero]
      simp only [Function.update_self, Runtime.summed]
      rw [Finset.sum_congr rfl hterm, Finset.sum_add_distrib, Finset.sum_ite_eq',
        if_pos (Finset.mem_range.2 hp), hold, Runtime.summed]
    · have hiff : ∀ q < lay.hwconc,
          m < Function.update s.done p (s.done p + 1) q ↔ m < s.done q := by
        intro q _
        by_cases hqp : q = p
        · rw [hqp, Function.update_self]
          omega
        · rw [Function.update_of_ne hqp]
      rw [hmove.summed hiff]
      dsimp only
      rw [Function.update_of_ne (hne _ hk)]
      exact hs m y hm hlt hres
  | @resolve k scan d c hdue hr =>
    have hk : k ≠ m := by
      rintro rfl
      simp only [Function.update_self] at hres
      cases hres
    rw [hmove.summed fun p hp => Iff.rfl]
    dsimp only
    rw [Function.update_of_ne (hne k hk)]
    exact hs m y hm hlt (by simpa only [Function.update_of_ne (Ne.symm hk)] using hres)
  | sweepStop => rw [hmove.summed fun p hp => Iff.rfl]; exact hs m y hm hlt hres
  | reattachStop => rw [hmove.summed fun p hp => Iff.rfl]; exact hs m y hm hlt hres
  | resolveStop => rw [hmove.summed fun p hp => Iff.rfl]; exact hs m y hm hlt hres

/-- **What the resolution of a `reduce` gives**: what its workers have
summed, and by how much the source differs from `_orig`. -/
theorem Moves.resolve_sum {scan : List ℤ} (hsmall : lay.size < 2 ^ 31)
    (h : s.Moves st lay prog (.resolve m scan) t) (hc : Coherent lay s)
    (ho : s.inOrder prog (.resolve m scan) = true) (hs : Adding lay prog s)
    (hm : prog.call m = .reduce plus y) :
    t.resolved m = true ∧ t.data (.result m) 0 =
      s.summedAll lay m + (sumRange (t.data y) 0 lay.size - sumRange (s.orig y) 0 lay.size) := by
  obtain ⟨hres, hreads⟩ := inOrder_resolve.1 ho
  have hy : t.data y = s.data y := h.data_final hc ho (hreads y (by rw [hm]; exact .inl rfl))
  rw [hy]
  cases h with
  | @resolve _ _ d c hdue hr =>
    rw [resolution_reduce hsmall hm hdue] at hr
    cases hr
    refine ⟨Function.update_self .., ?_⟩
    simp only [Function.update_self]
    rw [hs m y hm hdue.1 hres, summed_eq_all hdue.2.1]
  | resolveStop hdue hr =>
    rw [resolution_reduce hsmall hm hdue] at hr
    exact nomatch hr

/-- The reductions of `y` that are resolved hold its sum. -/
def SumsRight (lay : Layout) (prog : Program) (y : Ref) (s : Runtime) : Prop :=
  ∀ m, prog.call m = .reduce plus y → s.resolved m = true →
    s.data (.result m) 0 = sumRange (s.data y) 0 lay.size

/-! ## The snapshots -/

/-- **The blocks that were summed** for a reduction of `y` that is not
resolved are as they are in `_orig`. -/
def OrigKept (lay : Layout) (prog : Program) (y : Ref) (s : Runtime) : Prop :=
  ∀ m, prog.call m = .reduce plus y → m < s.created → s.resolved m = false →
    ∀ p < lay.hwconc, s.HasRead p m → ∀ t, lay.InBlock p t → s.used m p t = s.orig y t

/-- What a freeze of `y` must find: in the block of a worker that has detached
for a reduction of `y` that is not resolved, nothing has arrived since the
last freeze. -/
def NothingArrived (lay : Layout) (prog : Program) (y : Ref) (s : Runtime) : RunAct → Prop
  | .call =>
    (prog.call s.created).src = y → isMonotonic (prog.call s.created).first.imap = false →
      ∀ m < s.created, prog.call m = .reduce plus y → s.resolved m = false →
        ∀ p < lay.hwconc, s.HasRead p m → ∀ t, lay.InBlock p t → s.data y t = s.orig y t
  | _ => True

/-- **A step that meets it** keeps them so. -/
theorem OrigKept.moves (hs : OrigKept lay prog y s) (hc : Coherent lay s)
    (hC : NothingArrived lay prog y s act) (h : s.Moves st lay prog act t) :
    OrigKept lay prog y t := by
  intro m hm hlt hres p hp hr i hb
  have hres' : s.resolved m = false := by
    by_contra hold
    have := h.final (r := .result m) (Bool.eq_true_of_not_eq_false hold)
    rw [Runtime.final, hres] at this
    cases this
  rcases h.hasRead_or hr with hr' | ⟨rfl, hk⟩
  · have hlt' : m < s.created := by
      rcases hr' with hr' | ⟨rfl, hd⟩
      · exact lt_of_lt_of_le hr' (hc.done_le p hp)
      · exact hc.holding p hp hd
    have hold := hs m hm hlt' hres' p hp hr' i hb
    rw [h.used hr', hold]
    cases h with
    | call =>
      simp only [call]
      split
      · rfl
      · next hmono =>
        by_cases hy : (prog.call s.created).src = y
        · rw [hy, Function.update_self]
          exact (hC hy (by simpa using hmono) m hlt' hm hres' p hp hr' i hb).symm
        · rw [Function.update_of_ne (Ne.symm hy)]
    | _ => rfl
  · cases h with
    | detach hp' hd hlt =>
      subst hk
      have hfold := reduce_folds plus y
      simp only [detach, Function.update_self, hm, if_neg hfold]
      rfl

omit [BpBits] in
/-- **The sums then add up to that of `_orig`.** -/
theorem OrigKept.summed (hs : OrigKept lay prog y s) (hm : prog.call m = .reduce plus y)
    (hlt : m < s.created) (hres : s.resolved m = false) (hall : ∀ p < lay.hwconc, m < s.done p) :
    s.summedAll lay m = sumRange (s.orig y) 0 lay.size := by
  rw [← sum_blocks]
  refine Finset.sum_congr rfl fun p hp => ?_
  have hp := Finset.mem_range.1 hp
  exact sumRange_congr fun t h1 h2 => hs m hm hlt hres p hp (.inl (hall p hp)) t ⟨h1, h2⟩

/-! ## The sums -/

/-- **What holds at every stage** of the reductions of `y`. -/
structure Tallied (lay : Layout) (prog : Program) (y : Ref) (s : Runtime) : Prop where
  coherent : Coherent lay s
  ordered : Ordered prog s
  adding : Adding lay prog s
  kept : OrigKept lay prog y s
  right : SumsRight lay prog y s
  going : ∀ m, prog.call m = .reduce plus y → ∀ e, s.stopped ≠ some (m, e)

namespace Tallied

omit [BpBits] in
theorem start (lay : Layout) (prog : Program) (y : Ref) (x₀ : ℕ → Contents)
    (c₀ : ℕ → SortedSet ℤ) : Tallied lay prog y (.start x₀ c₀) where
  coherent := .start lay x₀ c₀
  ordered _ h := nomatch h
  adding _ _ _ h := absurd h (Nat.not_lt_zero _)
  kept _ _ h := absurd h (Nat.not_lt_zero _)
  right _ _ h := nomatch h
  going _ _ _ h := nomatch h

/-- **One step**, whoever takes it. -/
theorem step (hsmall : lay.size < 2 ^ 31) (hs : Tallied lay prog y s)
    (hC : NothingArrived lay prog y s act) (he : (inChain st lay prog).step s act = some t) :
    Tallied lay prog y t := by
  obtain ⟨hgo, ho, h⟩ := moves_of_inChain he
  refine ⟨hs.coherent.moves h, hs.ordered.moves h ho, hs.adding.moves hs.coherent h,
    hs.kept.moves hs.coherent hC h, fun m hm hres => ?_,
    fun m hm e => h.not_stopped hsmall hs.coherent hgo hm⟩
  by_cases hold : s.resolved m = true
  · -- resolved before, of a vector that is final
    have hy : s.final y = true := hs.ordered m hold y (by rw [hm]; exact .inl rfl)
    rw [h.data_final hs.coherent ho (r := .result m) hold, h.data_final hs.coherent ho hy]
    exact hs.right m hm hold
  · have hact : ∃ scan, act = .resolve m scan := by
      cases h with
      | @resolve k scan d c hdue hr =>
        refine ⟨scan, ?_⟩
        by_cases hk : m = k
        · rw [hk]
        · simp only [Function.update_of_ne hk] at hres
          exact absurd hres hold
      | _ => exact absurd hres hold
    obtain ⟨scan, rfl⟩ := hact
    have hdue : s.Due lay prog m scan := by
      cases h with
      | resolve hdue hr => exact hdue
      | resolveStop hdue hr => exact hdue
    obtain ⟨-, hsum⟩ := h.resolve_sum hsmall hs.coherent ho hs.adding hm
    rw [hsum, hs.kept.summed hm hdue.1 (by simpa using hold) hdue.2.1]
    ring

end Tallied

/-! ## Programs that go through -/

end Runtime

/-- The call reads one vector, each element by itself or all of them. -/
def Call.Plain {V : Type} : Call V → Prop
  | .foreach _ _ _ => True
  | .reduce _ _ => True
  | _ => False

/-- A program of such calls. -/
def Program.Plain (prog : Program) : Prop := ∀ k, (prog.call k).Plain

omit [BpBits] in
/-- **A resolution of an identity** goes through where what is contended is in
the vector. -/
theorem exists_resolveDep_identity {contended : SortedSet ℤ} (op : Op ℚ) (src : Contents)
    (used : ℕ → Contents) (hin : ∀ c ∈ contended, lay.InRange c) (st : Contents × SortedSet ℤ) :
    ∃ st', resolveDep lay src contended used st ⟨identity, op⟩ = .ok st' := by
  have hcell : ∀ c, lay.InRange c → ∀ st : Repair, ∃ st',
      scanContended lay ⟨identity, op⟩ src used (windows lay identity) st c = .ok st' := by
    intro c hc st
    have hread : ∀ v : Contents, elemAt lay v c = .ok (v c) := fun v => if_pos hc
    obtain ⟨hp, -⟩ := owner_inBlock hc st.p
    have hskip : ¬ (identity c < 0 ∨ identity c > lay.size) := by
      rw [identity]
      have := hc.1
      have := hc.2
      omega
    have hnot : c ∉ windows lay identity := by
      rw [← SortedSet.mem_elems, windows_identity]
      exact List.not_mem_nil
    have hbody : scanContended lay ⟨identity, op⟩ src used (windows lay identity) st c =
        repairCell lay ⟨identity, op⟩ src used c c { st with p := lay.owner c st.p } := by
      simp only [scanContended, if_neg hskip, if_neg hnot]
      rfl
    rw [hbody]
    simp only [repairCell, usedAt, if_pos hp, hread, Exec.ok_bind]
    split
    · exact ⟨_, rfl⟩
    · exact ⟨_, rfl⟩
  have hloop : ∀ l : List ℤ, (∀ c ∈ l, lay.InRange c) → ∀ st, ∃ st',
      l.foldlM (scanContended lay ⟨identity, op⟩ src used (windows lay identity)) st = .ok st' := by
    intro l hl
    induction l with
    | nil => exact fun st => ⟨st, rfl⟩
    | cons c l ih =>
      intro st
      obtain ⟨st', h⟩ := hcell c (hl c List.mem_cons_self) st
      rw [List.foldlM_cons, h]
      exact ih (fun d hd => hl d (List.mem_cons_of_mem c hd)) st'
  obtain ⟨st', h⟩ := hloop contended.elems (fun c hc => hin c (SortedSet.mem_elems.1 hc))
    ⟨st.1, st.2, lay.hwconc⟩
  refine ⟨(st'.data, st'.contended), ?_⟩
  simp only [resolveDep, windows_identity, List.foldlM_nil, h, pure_bind, Exec.ok_bind]

namespace Runtime

/-- **What holds at every stage** of a plain program. -/
structure Unimpeded (lay : Layout) (s : Runtime) : Prop where
  stopped : s.stopped = none
  within : Within lay s
  unfrozen : ∀ k, s.frozen k = []

omit [BpBits] in
theorem Unimpeded.start {c₀ : ℕ → SortedSet ℤ} (hin : ∀ i, ∀ c ∈ c₀ i, lay.InRange c)
    (x₀ : ℕ → Contents) : Unimpeded lay (.start x₀ c₀) where
  stopped := rfl
  within r c hc := by
    cases r with
    | input i => exact hin i c hc
    | result j => exact absurd hc SortedSet.not_mem_empty
  unfrozen _ := rfl

/-- **One step**, over what copies something of every block. -/
theorem Unimpeded.moves (hst : st.Goes lay) (hsmall : lay.size < 2 ^ 31) (hplain : prog.Plain)
    (hc : Coherent lay s) (hs : Unimpeded lay s) (h : s.Moves st lay prog act t) :
    Unimpeded lay t := by
  have hw := hs.within.moves h
  cases h with
  | call =>
    refine ⟨hs.stopped, hw, fun k => ?_⟩
    simp only [call]
    by_cases hk : k = s.created
    · rw [hk, Function.update_self]
      cases hcall : prog.call s.created with
      | foreachCvec op src other =>
        have := hplain s.created
        rw [hcall] at this
        exact this.elim
      | _ => rfl
    · rw [Function.update_of_ne hk]
      exact hs.unfrozen k
  | @resolve k scan d c hdue hr =>
    refine ⟨hs.stopped, hw, fun j => ?_⟩
    by_cases hj : j = k
    · rw [hj]
      exact Function.update_self ..
    · exact (Function.update_of_ne hj _ _).trans (hs.unfrozen j)
  | sweepStop hp hd ho hne hcell => exact absurd hcell (hc.not_sweepStop hp hd hne)
  | @reattachStop p e hp hd ht ha =>
    cases hcall : prog.call (s.done p) with
    | foreach op src val =>
      have hmono : isMonotonic (Call.foreach op src val).first.imap = true := isMonotonic_identity
      obtain ⟨d, hd⟩ := hst (s.data (.result (s.done p)))
        (foreachSplt lay val p (s.used (s.done p) p)) p hp
      simp only [attached, hcall, Call.splinter, Exec.ok_bind, if_pos hmono, hd] at ha
      cases ha
    | reduce op src =>
      have hfold := reduce_folds op src
      simp only [attached, hcall, Call.splinter, Exec.ok_bind, if_neg hfold] at ha
      cases ha
    | _ =>
      have := hplain (s.done p)
      rw [hcall] at this
      exact this.elim
  | @resolveStop k scan e hdue hr =>
    cases hcall : prog.call k with
    | foreach op src val =>
      have hmono : isMonotonic (Call.foreach op src val).first.imap = true := isMonotonic_identity
      have hdeps : (Call.foreach op src val).deps = [⟨identity, op⟩] := rfl
      obtain ⟨st', h⟩ := exists_resolveDep_identity op (s.data src) (s.used k) (hs.within src)
        (s.data (.result k), s.contended (.result k))
      simp only [resolution, hcall, if_pos hmono, resolveSrc, hs.unfrozen, List.foldlM_nil, hdeps,
        Call.src, resolveMonotonic, List.foldlM_cons, pure_bind] at hr
      rw [h] at hr
      cases hr
    | reduce op src =>
      have hfold := reduce_folds op src
      simp only [resolution, hcall, if_neg hfold, foldSrc, resolveLoop_of_lt hsmall,
        Exec.ok_bind] at hr
      cases hr
    | _ =>
      have := hplain k
      rw [hcall] at this
      exact this.elim
  | _ => exact ⟨hs.stopped, hw, hs.unfrozen⟩

/-- **A run of a plain program** stops nowhere. -/
theorem Unimpeded.of_run (hst : st.Goes lay) (hsmall : lay.size < 2 ^ 31) (hplain : prog.Plain)
    {x₀ : ℕ → Contents} {c₀ : ℕ → SortedSet ℤ} (hin : ∀ i, ∀ c ∈ c₀ i, lay.InRange c)
    {acts : List RunAct} (h : (inChain st lay prog).run (.start x₀ c₀) acts = some s) :
    Unimpeded lay s := by
  refine ((inChain st lay prog).run_invariant (I := fun s => Coherent lay s ∧ Unimpeded lay s)
    ?_ ⟨.start lay x₀ c₀, .start hin x₀⟩ h).2
  rintro s act t ⟨hc, hs⟩ he
  obtain ⟨-, -, hmoves⟩ := moves_of_inChain he
  exact ⟨hc.moves hmoves, hs.moves hst hsmall hplain hc hmoves⟩

/-! ## One reduction -/

/-- **A reduction of a vector that is still being computed** is, once it is
resolved, the sum of the vector as it is in the end, whatever had arrived
by the time of the freeze, if the vector has no other dependent that is
not monotonic. It does not stop the program, and nothing does in one that
calls `foreach` and `reduce` only. -/
theorem reduce_sum (hsmall : lay.size < 2 ^ 31) (hlay : lay.Reattaches)
    (hm : prog.call m = .reduce plus y)
    (hsole : ∀ k, isMonotonic (prog.call k).first.imap = false → (prog.call k).src = y → k = m)
    (x₀ : ℕ → Contents) (c₀ : ℕ → SortedSet ℤ) {acts : List RunAct}
    (h : (inChain (.tries lay) lay prog).run (.start x₀ c₀) acts = some s) :
    (∀ e, s.stopped ≠ some (m, e)) ∧
      (prog.Plain → (∀ i, ∀ c ∈ c₀ i, lay.InRange c) → s.stopped = none) ∧
      (s.resolved m = true →
        s.final y = true ∧ s.data (.result m) 0 = sumRange (s.data y) 0 lay.size) := by
  have hs : Tallied lay prog y s := by
    refine (inChain (.tries lay) lay prog).run_invariant (fun s act t hs he => ?_)
      (.start lay prog y x₀ c₀) h
    refine hs.step hsmall ?_ he
    cases act with
    | call =>
      -- a freeze of `y` is the only one
      intro hy hfold k hk hcall
      have h1 := hsole _ hfold hy
      have h2 := hsole k (by rw [hcall]; exact isMonotonic_alltoone 0) (by rw [hcall]; rfl)
      omega
    | _ => trivial
  exact ⟨hs.going m hm, fun hplain hin =>
      (Unimpeded.of_run (Storage.tries_goes_iff.2 hlay) hsmall hplain hin h).stopped,
    fun hres => ⟨hs.ordered m hres y (by rw [hm]; exact .inl rfl), hs.right m hm hres⟩⟩

omit [BpBits] in
/-- Two workers and three elements, doubled and summed; the block of
worker 1 has arrived by the time of the freeze, that of worker 0 has not. -/
theorem reduce_sum_three :
    letI := oneBit
    let lay : Layout := ⟨2, 3, by decide, by decide⟩
    let prog : Program :=
      ⟨fun k => if k = 1 then .reduce plus (.result 0) else .foreach mult (.input 0) 2,
      fun k j h => by
        split at h
        · next hk =>
          rcases h with h | h
          · cases h
            exact ⟨by omega, by decide⟩
          · exact nomatch h
        · rcases h with h | h
          · exact nomatch h
          · exact nomatch h⟩
    let acts : List RunAct :=
      [.call, .detach 1, .reattach 1, .call, .detach 1, .reattach 1, .detach 0, .reattach 0,
        .resolve 0 [], .detach 0, .reattach 0, .resolve 1 [0, 1]]
    ∃ s, (inChain (.tries lay) lay prog).run (.start (fun _ t => t + 1) fun _ => .empty) acts =
        some s ∧ s.resolved 1 = true ∧ s.stopped = none ∧ s.data (.result 1) 0 = 12 ∧
      s.data (.result 1) 0 = sumRange (s.data (.result 0)) 0 lay.size := by
  let _ := oneBit
  intro lay prog acts
  have hend : ((inChain (.tries lay) lay prog).run (.start (fun _ t => t + 1) fun _ => .empty)
      acts).map (fun s => (s.resolved 1, s.data (.result 1) 0)) = some (true, 12) := by
    decide +kernel
  obtain ⟨s, hrun, hs⟩ := Option.map_eq_some_iff.1 hend
  obtain ⟨hres, hval⟩ := Prod.mk.inj hs
  have hsole : ∀ k, isMonotonic (prog.call k).first.imap = false →
      (prog.call k).src = .result 0 → k = 1 := by
    intro k _ hsrc
    by_contra hk
    simp only [prog, if_neg hk] at hsrc
    exact nomatch hsrc
  have hm : prog.call 1 = .reduce plus (.result 0) := rfl
  have hplain : prog.Plain := fun k => by
    simp only [prog]
    split <;> trivial
  obtain ⟨-, hgo, hsum⟩ := reduce_sum (by decide) (fun h => absurd h.1 (by decide)) hm hsole
    (fun _ t => t + 1) (fun _ => .empty) hrun
  exact ⟨s, hrun, hres, hgo hplain fun _ _ hc => absurd hc SortedSet.not_mem_empty, hval,
    (hsum hres).2⟩

omit [BpBits] in
/-- **One worker alone with a single full leaf**: two elements over arrays of
two. The reattach of the `foreach` that the reduction waits for takes the
leaf for branches, and nothing goes on. -/
theorem pending_stops :
    letI := oneBit
    ∃ (lay : Layout) (prog : Program) (x₀ : ℕ → Contents) (acts : List RunAct) (s : Runtime),
      prog.call 0 = .foreach mult (.input 0) 2 ∧ prog.call 1 = .reduce plus (.result 0) ∧
        (∀ k, isMonotonic (prog.call k).first.imap = false → (prog.call k).src = .result 0 →
          k = 1) ∧
        (inChain (.tries lay) lay prog).run (.start x₀ fun _ => .empty) acts = some s ∧
        s.created = 2 ∧ s.stopped = some (0, .wrongType) ∧
        ∀ act, (inChain (.tries lay) lay prog).step s act = none := by
  let _ := oneBit
  let lay : Layout := ⟨1, 2, by decide, by decide⟩
  let prog : Program :=
    ⟨fun k => if k = 1 then .reduce plus (.result 0) else .foreach mult (.input 0) 2,
    fun k j h => by
      split at h
      · next hk =>
        rcases h with h | h
        · cases h
          exact ⟨by omega, by decide⟩
        · exact nomatch h
      · rcases h with h | h
        · exact nomatch h
        · exact nomatch h⟩
  let acts : List RunAct := [.call, .call, .detach 0, .reattach 0]
  have hend : ((inChain (.tries lay) lay prog).run (.start (fun _ t => t + 1) fun _ => .empty)
      acts).map (fun s => (s.created, s.stopped)) = some (2, some (0, .wrongType)) := by
    decide +kernel
  obtain ⟨s, hrun, hs⟩ := Option.map_eq_some_iff.1 hend
  obtain ⟨h1, h2⟩ := Prod.mk.inj hs
  refine ⟨lay, prog, _, acts, s, rfl, rfl, fun k _ hsrc => ?_, hrun, h1, h2, fun act => ?_⟩
  · by_contra hk
    simp only [prog, if_neg hk] at hsrc
    exact nomatch hsrc
  · refine Option.eq_none_iff_forall_ne_some.2 fun t he => ?_
    rw [(moves_of_inChain he).1] at h2
    exact nomatch h2

/-! ## Several -/

end Runtime

end Contentious.Cont
