import Mathlib.Data.List.Infix

/-!
# Machine — runs of a partial step

A machine takes labelled steps that may be disabled, and a run is a list
of labels. The rules a verification needs of it are here once: an
invariant of the step is an invariant of the run (`run_invariant`), also
when only the steps that meet a condition keep it
(`run_invariant_along`), and a machine that follows another step for
step follows its runs (`run_simulates`).
-/

/-- A partial step function over labels: `none` is a disabled step. -/
structure Machine (σ α : Type*) where
  /-- One step, where it is enabled. -/
  step : σ → α → Option σ

namespace Machine

variable {σ α τ : Type*} (M : Machine σ α) (N : Machine τ α)

/-- Take the labelled steps in order. -/
def run : σ → List α → Option σ
  | s, [] => some s
  | s, a :: as => (M.step s a).bind fun t => run t as

@[simp] theorem run_nil (s : σ) : M.run s [] = some s := rfl

theorem run_cons (s : σ) (a : α) (as : List α) :
    M.run s (a :: as) = (M.step s a).bind fun t => M.run t as := rfl

theorem run_cons_of_step {s t : σ} {a : α} (h : M.step s a = some t) (as : List α) :
    M.run s (a :: as) = M.run t as := by
  rw [run_cons, h]; rfl

/-- A run that ends took its first step. -/
theorem exists_step_of_run_cons {s u : σ} {a : α} {as : List α} (h : M.run s (a :: as) = some u) :
    ∃ t, M.step s a = some t ∧ M.run t as = some u := by
  rw [run_cons] at h
  exact Option.bind_eq_some_iff.mp h

theorem run_append (s : σ) (as bs : List α) :
    M.run s (as ++ bs) = (M.run s as).bind fun t => M.run t bs := by
  induction as generalizing s with
  | nil => rfl
  | cons a as ih =>
    rw [List.cons_append, run_cons, run_cons, Option.bind_assoc]
    congr 1
    funext t
    exact ih t

/-- `t` is reached from `s` by some run. -/
def Reaches (s t : σ) : Prop := ∃ as, M.run s as = some t

variable {M N}

/-- **What every step keeps, every run keeps.** -/
theorem run_invariant {I : σ → Prop} (hstep : ∀ s a t, I s → M.step s a = some t → I t)
    {s t : σ} {as : List α} (hs : I s) (h : M.run s as = some t) : I t := by
  induction as generalizing s with
  | nil => cases h; exact hs
  | cons a as ih =>
    obtain ⟨u, hu, h⟩ := M.exists_step_of_run_cons h
    exact ih (hstep s a u hs hu) h

/-- What every step asks of its label, a run asks of all of them. -/
theorem forall_of_run {C : α → Prop} (hstep : ∀ s a t, M.step s a = some t → C a) {s t : σ}
    {as : List α} (h : M.run s as = some t) : ∀ a ∈ as, C a := by
  induction as generalizing s with
  | nil => exact fun _ h => nomatch h
  | cons a as ih =>
    obtain ⟨u, hu, h⟩ := M.exists_step_of_run_cons h
    exact List.forall_mem_cons.2 ⟨hstep s a u hu, ih h⟩

/-- **What every step uses up.** Where each step of some kind keeps `I` and
takes from `μ`, there are no more of them than that. -/
theorem run_length_le {I : σ → Prop} {C : α → Prop} {μ : σ → ℕ}
    (hstep : ∀ s a t, I s → C a → M.step s a = some t → I t ∧ μ t < μ s)
    {s t : σ} {as : List α} (hs : I s) (hC : ∀ a ∈ as, C a) (h : M.run s as = some t) :
    as.length + μ t ≤ μ s := by
  induction as generalizing s with
  | nil =>
    cases h
    rw [List.length_nil, Nat.zero_add]
  | cons a as ih =>
    obtain ⟨u, hu, h⟩ := M.exists_step_of_run_cons h
    obtain ⟨hIu, hlt⟩ := hstep s a u hs (hC a List.mem_cons_self) hu
    have hle := ih hIu (fun b hb => hC b (List.mem_cons_of_mem a hb)) h
    rw [List.length_cons]
    omega

/-- Every step of the run meets the condition `C` in the state it is
taken from. -/
def Along (M : Machine σ α) (C : σ → α → Prop) : σ → List α → Prop
  | _, [] => True
  | s, a :: as => C s a ∧ ∀ t, M.step s a = some t → Along M C t as

/-- It can be checked on a given run. -/
instance decidableAlong {C : σ → α → Prop} [∀ s a, Decidable (C s a)] :
    ∀ s as, Decidable (M.Along C s as)
  | _, [] => isTrue trivial
  | s, a :: as =>
    have : Decidable (∀ t, M.step s a = some t → M.Along C t as) :=
      match M.step s a with
      | none => isTrue fun _ ht => nomatch ht
      | some u => @decidable_of_decidable_of_iff _ _ (decidableAlong u as)
          ⟨fun hu _ ht => Option.some.inj ht ▸ hu, fun ht => ht u rfl⟩
    inferInstanceAs (Decidable (C s a ∧ ∀ t, M.step s a = some t → M.Along C t as))

/-- **What the steps that meet a condition keep, the runs that meet it
throughout keep.** -/
theorem run_invariant_along {I : σ → Prop} {C : σ → α → Prop}
    (hstep : ∀ s a t, I s → C s a → M.step s a = some t → I t)
    {s t : σ} {as : List α} (hs : I s) (hC : M.Along C s as) (h : M.run s as = some t) : I t := by
  induction as generalizing s with
  | nil => cases h; exact hs
  | cons a as ih =>
    obtain ⟨u, hu, h⟩ := M.exists_step_of_run_cons h
    exact ih (hstep s a u hs hC.1 hu) (hC.2 u hu) h

/-- The last step of a run meets what they all do. -/
theorem Along.last {C : σ → α → Prop} {s t : σ} {as : List α} {a : α} (h : M.Along C s (as ++ [a]))
    (hrun : M.run s as = some t) : C t a := by
  induction as generalizing s with
  | nil => cases hrun; exact h.1
  | cons b as ih =>
    obtain ⟨u, hu, hrun⟩ := M.exists_step_of_run_cons hrun
    exact ih (h.2 u hu) hrun

/-- **One condition for another.** Where an invariant holds that the steps
that meet `C` keep, what `C` implies of a step it implies of a run. -/
theorem Along.mono {I : σ → Prop} {C D : σ → α → Prop}
    (hI : ∀ s a t, I s → C s a → M.step s a = some t → I t) (hCD : ∀ s a, I s → C s a → D s a)
    {s : σ} {as : List α} (hs : I s) (h : M.Along C s as) : M.Along D s as := by
  induction as generalizing s with
  | nil => trivial
  | cons a as ih => exact ⟨hCD s a hs h.1, fun t ht => ih (hI s a t hs h.1 ht) (h.2 t ht)⟩

/-- `P` holds in every state of the run. -/
def Always (M : Machine σ α) (P : σ → Prop) (s : σ) (as : List α) : Prop :=
  ∀ bs, bs <+: as → ∀ t, M.run s bs = some t → P t

theorem always_cons {P : σ → Prop} {s : σ} {a : α} {as : List α} :
    M.Always P s (a :: as) ↔ P s ∧ ∀ t, M.step s a = some t → M.Always P t as := by
  constructor
  · refine fun h => ⟨h [] List.nil_prefix s rfl, fun t ht bs hbs u hu => ?_⟩
    exact h (a :: bs) (List.cons_prefix_cons.2 ⟨rfl, hbs⟩) u (by rw [M.run_cons_of_step ht, hu])
  · rintro ⟨hs, h⟩ bs hbs t ht
    match bs with
    | [] => cases ht; exact hs
    | b :: bs =>
      obtain ⟨rfl, hpre⟩ := List.cons_prefix_cons.1 hbs
      obtain ⟨u, hu, hrun⟩ := M.exists_step_of_run_cons ht
      exact h u hu bs hpre t hrun

/-- **An exact condition.** If `C` is what keeps `J`, an invariant that
gives `P`, and where `J` holds a step without `C` is taken and breaks `P`,
then `P` holds throughout a run if and only if its steps meet `C`. -/
theorem always_iff_along {I J P : σ → Prop} {C : σ → α → Prop}
    (hI : ∀ s a t, I s → M.step s a = some t → I t)
    (hJ : ∀ s a t, I s → J s → C s a → M.step s a = some t → J t) (hP : ∀ s, I s → J s → P s)
    (hbreak : ∀ s a, I s → J s → ¬ C s a → ∃ t, M.step s a = some t ∧ ¬ P t)
    {s : σ} {as : List α} (hs : I s) (hs' : J s) : M.Always P s as ↔ M.Along C s as := by
  induction as generalizing s with
  | nil =>
    refine ⟨fun _ => trivial, fun _ bs hbs t ht => ?_⟩
    rw [List.prefix_nil.1 hbs] at ht
    cases ht
    exact hP s hs hs'
  | cons a as ih =>
    rw [always_cons]
    constructor
    · rintro ⟨-, h⟩
      have hC : C s a := by
        by_contra hC
        obtain ⟨t, ht, hbad⟩ := hbreak s a hs hs' hC
        exact hbad (h t ht [] List.nil_prefix t rfl)
      exact ⟨hC, fun t ht => (ih (hI s a t hs ht) (hJ s a t hs hs' hC ht)).1 (h t ht)⟩
    · rintro ⟨hC, h⟩
      exact ⟨hP s hs hs', fun t ht =>
        (ih (hI s a t hs ht) (hJ s a t hs hs' hC ht)).2 (h t ht)⟩

/-- **An exact condition for the end.** If a step keeps `P` exactly when
it meets `C`, and what has broken `P` is not mended, then a run ends in
`P` if and only if its steps meet `C`. -/
theorem last_iff_along {I P : σ → Prop} {C : σ → α → Prop}
    (hI : ∀ s a t, I s → M.step s a = some t → I t)
    (hstep : ∀ s a t, I s → P s → M.step s a = some t → (P t ↔ C s a))
    (hbroken : ∀ s a t, I s → ¬ P s → M.step s a = some t → ¬ P t)
    {s t : σ} {as : List α} (hs : I s) (hP : P s) (h : M.run s as = some t) :
    P t ↔ M.Along C s as := by
  induction as generalizing s with
  | nil => cases h; exact ⟨fun _ => trivial, fun _ => hP⟩
  | cons a as ih =>
    obtain ⟨u, hu, h⟩ := M.exists_step_of_run_cons h
    have hIu := hI s a u hs hu
    by_cases hPu : P u
    · rw [ih hIu hPu h]
      refine ⟨fun hC => ⟨(hstep s a u hs hP hu).1 hPu, fun v hv => ?_⟩, fun hC => hC.2 u hu⟩
      rw [hu] at hv
      cases hv
      exact hC
    · -- broken here, and so at the end
      have hPt : ¬ P t := (M.run_invariant (I := fun v => I v ∧ ¬ P v)
        (fun v b w hv hw => ⟨hI v b w hv.1 hw, hbroken v b w hv.1 hv.2 hw⟩) ⟨hIu, hPu⟩ h).2
      exact ⟨fun hPt' => absurd hPt' hPt, fun hC => absurd ((hstep s a u hs hP hu).2 hC.1) hPu⟩

/-- **Simulation.** Where `N`, under finer labels, can follow each step
`M` takes from a related state, if its own step meets the condition `C`,
it can follow each run that meets it throughout, and the states stay
related. -/
theorem run_simulates_along {β : Type*} {N : Machine τ β} {R : σ → τ → Prop}
    {C : τ → β → Prop} (f : β → α)
    (hstep : ∀ s b s' t, R s t → C t b → M.step s (f b) = some s' →
      ∃ t', N.step t b = some t' ∧ R s' t')
    {s s' : σ} {t : τ} {bs : List β} (hR : R s t) (hC : N.Along C t bs)
    (h : M.run s (bs.map f) = some s') : ∃ t', N.run t bs = some t' ∧ R s' t' := by
  induction bs generalizing s t with
  | nil => cases h; exact ⟨t, rfl, hR⟩
  | cons b bs ih =>
    obtain ⟨u, hu, h⟩ := M.exists_step_of_run_cons h
    obtain ⟨v, hv, hR'⟩ := hstep s b u t hR hC.1 hu
    obtain ⟨t', ht', hR''⟩ := ih hR' (hC.2 v hv) h
    exact ⟨t', by rw [N.run_cons_of_step hv, ht'], hR''⟩

/-- **Simulation with stuttering.** Where each step `M` takes under the
condition `C`, from a related state, is a step `N` takes under `D`, or
none that `N` sees, each run of `M` that meets `C` throughout is one of `N`
that meets `D`. -/
theorem run_stutters_along {β : Type*} {N : Machine τ β} {R : σ → τ → Prop} {C : σ → α → Prop}
    {D : τ → β → Prop}
    (hstep : ∀ s a s' t, R s t → C s a → M.step s a = some s' →
      R s' t ∨ ∃ b t', D t b ∧ N.step t b = some t' ∧ R s' t')
    {s s' : σ} {t : τ} {as : List α} (hR : R s t) (hC : M.Along C s as)
    (h : M.run s as = some s') :
    ∃ bs t', N.run t bs = some t' ∧ N.Along D t bs ∧ R s' t' := by
  induction as generalizing s t with
  | nil => cases h; exact ⟨[], t, rfl, trivial, hR⟩
  | cons a as ih =>
    obtain ⟨u, hu, h⟩ := M.exists_step_of_run_cons h
    rcases hstep s a u t hR hC.1 hu with hR' | ⟨b, v, hD, hv, hR'⟩
    · exact ih hR' (hC.2 u hu) h
    · obtain ⟨bs, t', ht', hbs, hR''⟩ := ih hR' (hC.2 u hu) h
      refine ⟨b :: bs, t', by rw [N.run_cons_of_step hv, ht'], ⟨hD, fun w hw => ?_⟩, hR''⟩
      rw [hv] at hw
      cases hw
      exact hbs

/-- A condition on the labels alone. -/
theorem along_of_forall {C : α → Prop} (s : σ) {as : List α} (h : ∀ a ∈ as, C a) :
    M.Along (fun _ a => C a) s as := by
  induction as generalizing s with
  | nil => trivial
  | cons a as ih =>
    exact ⟨h a List.mem_cons_self, fun t _ => ih t fun b hb => h b (List.mem_cons_of_mem a hb)⟩

/-- **A condition that the states do not matter for.** If where it holds
of a label the step is enabled, then a run meets it throughout if and only
if all labels do. -/
theorem along_iff_forall {C : σ → α → Prop} {D : α → Prop} {as : List α}
    (hCD : ∀ s, ∀ a ∈ as, C s a ↔ D a) (hstep : ∀ s, ∀ a ∈ as, D a → ∃ t, M.step s a = some t)
    (s : σ) : M.Along C s as ↔ ∀ a ∈ as, D a := by
  induction as generalizing s with
  | nil => exact ⟨fun _ _ h => (nomatch h), fun _ => trivial⟩
  | cons a as ih =>
    have ih := ih (fun s b hb => hCD s b (List.mem_cons_of_mem a hb))
      fun s b hb => hstep s b (List.mem_cons_of_mem a hb)
    rw [List.forall_mem_cons]
    constructor
    · rintro ⟨hC, h⟩
      have hD := (hCD s a List.mem_cons_self).1 hC
      obtain ⟨t, ht⟩ := hstep s a List.mem_cons_self hD
      exact ⟨hD, (ih t).1 (h t ht)⟩
    · rintro ⟨hD, h⟩
      exact ⟨(hCD s a List.mem_cons_self).2 hD, fun t _ => (ih t).2 h⟩

/-- A run of labels that are enabled in any state. -/
theorem exists_run {as : List α} (hstep : ∀ s, ∀ a ∈ as, ∃ t, M.step s a = some t) (s : σ) :
    ∃ t, M.run s as = some t := by
  induction as generalizing s with
  | nil => exact ⟨s, rfl⟩
  | cons a as ih =>
    obtain ⟨t, ht⟩ := hstep s a List.mem_cons_self
    rw [run_cons, ht]
    exact ih (fun s b hb => hstep s b (List.mem_cons_of_mem a hb)) t

/-- **A loop over a list** is the run of its rounds. -/
theorem run_map_foldlM {ε ι : Type*} {body : σ → ι → Except ε σ} {f : ι → α}
    (h : ∀ s i, M.step s (f i) = (body s i).toOption) (s : σ) (l : List ι) :
    M.run s (l.map f) = (l.foldlM body s).toOption := by
  induction l generalizing s with
  | nil => rfl
  | cons i l ih =>
    rw [List.map_cons, run_cons, h, List.foldlM_cons]
    cases body s i with
    | error e => rfl
    | ok t => exact ih t

/-- Simulation with no condition, under finer labels, -/
theorem run_simulates_map {β : Type*} {N : Machine τ β} {R : σ → τ → Prop} (f : β → α)
    (hstep : ∀ s b s' t, R s t → M.step s (f b) = some s' → ∃ t', N.step t b = some t' ∧ R s' t')
    {s s' : σ} {t : τ} {bs : List β} (hR : R s t) (h : M.run s (bs.map f) = some s') :
    ∃ t', N.run t bs = some t' ∧ R s' t' :=
  run_simulates_along f (fun s b s' t hR _ => hstep s b s' t hR) hR
    (along_of_forall t fun _ _ => trivial) h

/-- and under the same labels. -/
theorem run_simulates {R : σ → τ → Prop}
    (hstep : ∀ s a s' t, R s t → M.step s a = some s' → ∃ t', N.step t a = some t' ∧ R s' t')
    {s s' : σ} {t : τ} {as : List α} (hR : R s t) (h : M.run s as = some s') :
    ∃ t', N.run t as = some t' ∧ R s' t' :=
  run_simulates_map id hstep hR (by rwa [List.map_id])

/-- The machine that takes only the steps a guard lets through. -/
def restrict (M : Machine σ α) (ok : σ → α → Bool) : Machine σ α where
  step := fun s a => if ok s a then M.step s a else none

theorem restrict_step {ok : σ → α → Bool} {s t : σ} {a : α} :
    (M.restrict ok).step s a = some t ↔ ok s a = true ∧ M.step s a = some t :=
  Option.ite_none_right_eq_some

end Machine
