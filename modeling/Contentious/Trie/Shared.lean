import Contentious.Trie.Lag

/-!
# Trie — assigning between vectors that share nodes

`assign` of a `ps_vector` goes by both tests at once. Its branches are
grafted under `get_branch`, which copies every node, so that the grafts
leave all that is there as it was (`Holds.graftRange`). Its values are
copied by iterators, which write in place what carries the id zero: those
of the leaves at the two ends that the range does not cover
(`Holds.assign`). So another vector is changed at such an index only, and
only where its path has a node of that kind in common with the one that
is written (`Holds.assign_spares`).
-/

namespace Contentious

open BpVector

variable [K : BpBits] {T : Type}
variable {h h' : Heap T} {Ψ : Addr → Place} {a b ar br i p rounds : ℕ} {x y : T}
variable {v v' o w : BpVector} {L M N : List T} {W : ℕ → T → Prop} {D : Der} {g g' : Grafting T}

/-! ## The branches -/

/-- Where a round of step 4 has come to. -/
theorem graftDown_r (he : BpVector.graftDown D o b g = .ok g') :
    ∃ br, nextMultiple b (g.interval >>> bpBits) = .ok br ∧
      g'.interval = g.interval >>> bpBits ∧
      g'.r = if b ≠ br then subSizeT br (g.interval >>> bpBits) else br := by
  obtain ⟨br, hbr, he⟩ := Exec.bind_eq_ok.1 he
  refine ⟨br, hbr, ?_⟩
  dsimp only at he
  generalize (if b ≠ br then subSizeT br (g.interval >>> bpBits) else br) = br' at he ⊢
  split at he
  · cases he
    exact ⟨rfl, rfl⟩
  · split at he
    · exact nomatch he
    · obtain ⟨⟨h₂, v₂⟩, -, he⟩ := Exec.bind_eq_ok.1 he
      cases he
      exact ⟨rfl, rfl⟩

/-- **Steps 2 to 4 end at the leaf of `b`**, where they end. -/
theorem graftRange_r (hb : b ≤ 2 ^ 63)
    (he : BpVector.graftRange rounds D h v o a b ar = .ok (h', v', br)) :
    br = Radix.down bpWidth b := by
  obtain ⟨n, -, he⟩ := Exec.bind_eq_ok.1 he
  obtain ⟨lastInterval, hpow, he⟩ := Exec.bind_eq_ok.1 he
  obtain ⟨g, hup, he⟩ := Exec.bind_eq_ok.1 he
  obtain ⟨ar', -, he⟩ := Exec.bind_eq_ok.1 he
  obtain ⟨br', hbr, he⟩ := Exec.bind_eq_ok.1 he
  obtain ⟨⟨h₂, v₂⟩, -, he⟩ := Exec.bind_eq_ok.1 he
  obtain ⟨g', hdown, he⟩ := Exec.bind_eq_ok.1 he
  cases he
  have hW : ∀ m, 0 < bpWidth ^ m := fun m => Nat.pow_pos bpWidth_pos
  have hW63 : bpWidth ^ (n + 1) ≤ 2 ^ 63 ∧ lastInterval = bpWidth ^ (n + 1) := by
    rw [powInterval] at hpow
    split at hpow
    · next hlt =>
      cases hpow
      exact ⟨hlt.le, rfl⟩
    · cases hpow
  obtain ⟨hW63, rfl⟩ := hW63
  have hint : g.interval = bpWidth ^ (n + 1) := by
    have hdone := (loop_invariant (I := fun _ => True) (fun _ _ _ _ _ => trivial) trivial hup).2
    simpa using hdone
  rw [nextMultiple_eq hW63 hb] at hbr
  cases hbr
  have hstart : (if Radix.up (bpWidth ^ (n + 1)) b ≠ b then
      subSizeT (Radix.up (bpWidth ^ (n + 1)) b) g.interval
      else Radix.up (bpWidth ^ (n + 1)) b) = Radix.down (bpWidth ^ (n + 1)) b := by
    rw [hint, up_back (hW _) hW63 hb Iff.rfl]
  -- `r` is `b` rounded down to the multiple of the interval
  obtain ⟨⟨k, hk, hgi, hgr⟩, hdone⟩ := loop_invariant
    (I := fun g : Grafting T => ∃ k, bpWidth ^ k ≤ 2 ^ 63 ∧ g.interval = bpWidth ^ k ∧
      g.r = Radix.down (bpWidth ^ k) b)
    (fun g₁ g₂ hg _ he => by
      obtain ⟨k, hk, hgi, hgr⟩ := hg
      obtain ⟨br, hbr, hgi₂, hgr₂⟩ := graftDown_r he
      cases k with
      | zero =>
        -- there is no level below the leaves
        have h0 : g₁.interval >>> bpBits = 0 := by
          rw [hgi, pow_zero, Nat.shiftRight_eq_div_pow]
          exact Nat.div_eq_of_lt (by rw [← bpWidth_eq]; exact one_lt_bpWidth)
        rw [h0, nextMultiple, if_neg fun h => h.1 rfl] at hbr
        cases hbr
      | succ k =>
        rw [hgi, shiftRight_pow] at hbr hgi₂ hgr₂
        have hk' : bpWidth ^ k ≤ 2 ^ 63 :=
          le_trans (Nat.pow_le_pow_right bpWidth_pos (Nat.le_succ k)) hk
        rw [nextMultiple_eq hk' hb] at hbr
        cases hbr
        exact ⟨k, hk', hgi₂, by rw [hgr₂, up_back (hW k) hk' hb ne_comm]⟩)
    (by exact ⟨n + 1, hW63, hint, hstart⟩) hdown
  have hk1 : k = 1 := by
    have heq : g'.interval = bpWidth := by simpa using hdone
    exact Nat.pow_right_injective one_lt_bpWidth ((hgi.symm.trans heq).trans (pow_one _).symm)
  rw [hgr, hk1, pow_one]

/-- Where nothing is written, paths are kept. -/
theorem Keeps.of_cells {cp : Id → Bool} (hn : h.next ≤ h'.next)
    (hcell : ∀ d < h.next, h'.cell d = h.cell d) : Keeps cp h h' where
  next_le := hn
  id_eq d hd := by rw [hcell d hd]
  edge d hd b _ s hc _ := by
    rw [child_congr (congrArg BpNode.u (hcell d hd))]
    exact hc

/-- **Grafts write new nodes only.** -/
theorem Holds.graftRange (hP : Placed h Ψ) (hv : Holds h Ψ v L) (ho : Holds h Ψ o M)
    (hsz : o.sz = v.sz) (hlev : o.levels = v.levels)
    (he : BpVector.graftRange rounds .ps h v o a b ar = .ok (h', v', br)) :
    ∃ Ψ', Stored W h Ψ h' Ψ' v v' := by
  have hwhole := hP.whole (V := {v, o}) (n := v.sz) (by
    rintro w (rfl | rfl)
    · exact ⟨rfl, L, hv⟩
    · exact ⟨hsz, M, ho⟩)
  have hvr : Reach h v.root v.root := .root
  have hor : Reach h o.root o.root := .root
  have hmv : (∃ w ∈ ({v, o} : Set BpVector), Reach h w.root v.root) ∨ h.next ≤ v.root :=
    .inl ⟨v, .inl rfl, hvr⟩
  have hmo : (∃ w ∈ ({v, o} : Set BpVector), Reach h w.root o.root) ∨ h.next ≤ o.root :=
    .inl ⟨o, .inr rfl, hor⟩
  obtain ⟨Ψ', e⟩ := (Recast.refl hwhole hv.root_lt hmv).graftRange
    ⟨ho.root_lt, hmo, by rw [ho.root_place, hv.root_place, hlev], hlev⟩ he
  -- what is there is copied before it is written
  have hw := GraftsKeep.graftRange (I := fun h₂ v₂ => Rewritten h.next (nodeCopy .ps v.id)
      (fun _ => True) (fun a => (∃ w ∈ ({v, o} : Set BpVector), Reach h w.root a) ∨ h.next ≤ a)
      h h₂ v v₂)
    (fun h₁ v₁ _ _ _ _ _ h₂ v₂ w he => w.trans (by
      have w' := (hwhole.scope.edits w.edits).graft (N := fun _ => True) w.root_mem w.root_lt
        trivial hmo (lt_of_lt_of_le ho.root_lt w.edits.next_le) he
      exact w'.weaken fun _ h => h)) (.refl hmv hv.root_lt) he
  have hcell : ∀ d < h.next, h'.cell d = h.cell d := fun d hd => hw.edits.cell_eq hd hd rfl
  have hn := hw.edits.next_le
  have hplace := e.root_place
  have heq := e.eq_root
  rw [hv.root_place] at hplace
  refine ⟨Ψ', .of_cells hP hn e.shaped.place e.shaped.whole.placed hcell, .of_cells hn hcell,
    heq, ?_⟩
  have hsz' : v'.sz = v.sz := by rw [heq]
  have hlev' : v'.levels = v.levels := by rw [heq]
  refine Whole.holds (by rw [hsz']; exact e.shaped.whole) e.root_lt e.root_mem
    (by rw [hplace, hlev']) ?_ ?_
  · rw [hsz', hlev', hv.size]
    exact hv.fits
  · rw [hsz', hlev', hv.size]
    exact hv.tight

/-! ## The values at the ends -/

/-- **The indices that are written value by value**: those of the range in
a leaf that the range does not cover. -/
def Ends (a b p : ℕ) : Prop :=
  a ≤ p ∧ p < b ∧ (Radix.down bpWidth p < a ∨ b < Radix.down bpWidth p + bpWidth)

instance (a b p : ℕ) : Decidable (Ends a b p) :=
  inferInstanceAs (Decidable (a ≤ p ∧ p < b ∧
    (Radix.down bpWidth p < a ∨ b < Radix.down bpWidth p + bpWidth)))

/-- The values of `M` there. -/
def EndsOf (a b : ℕ) (M : List T) (i : ℕ) (y : T) : Prop := Ends a b i ∧ M[i]? = some y

/-- Steps 1 and 5, where there is need for them. -/
theorem Holds.copyPartial {c : ℕ} (hP : Placed h Ψ) (hv : Holds h Ψ v L) (ho : Holds h Ψ o M)
    (hsz : o.sz = v.sz) (hsz63 : v.sz ≤ 2 ^ 63) (hac : a ≤ c) (hc : c ≤ v.sz)
    (he : BpVector.copyPartial rounds h v o a c = .ok (h', v')) :
    ∃ Ψ', Stored (Copied a c M) h Ψ h' Ψ' v v' := by
  rw [BpVector.copyPartial, subSizeT_eq hac (by omega)] at he
  split at he
  · exact hv.copyUntil hP ho hsz hsz63 hac hc (by omega) he
  · cases he
    exact ⟨Ψ, .refl hP hv⟩

theorem EndsOf.eq (he : EndsOf a b M i y) (hi : i < M.length) : y = M[i] := by
  have := he.2
  rw [List.getElem?_eq_getElem hi] at this
  exact (Option.some.inj this).symm

/-- A range of less than a leaf covers none. -/
theorem Copied.endsOf {c d : ℕ} (hsmall : b - a < bpWidth) (hac : a ≤ c) (hdb : d ≤ b)
    (hi : Copied c d M i y) : EndsOf a b M i y := by
  obtain ⟨h1, h2, h3⟩ := hi
  exact ⟨⟨le_trans hac h1, lt_of_lt_of_le h2 hdb, by omega⟩, h3⟩

/-- The values up to the next leaf are in one that is not covered, -/
theorem Copied.endsOf_head (hb : Radix.up bpWidth a ≤ b)
    (hi : Copied a (Radix.up bpWidth a) M i y) : EndsOf a b M i y := by
  obtain ⟨h1, h2, h3⟩ := hi
  have hdown := Radix.down_le bpWidth i
  refine ⟨⟨h1, by omega, .inl ?_⟩, h3⟩
  by_contra hge
  have := Radix.up_le bpWidth_pos (Radix.dvd_down bpWidth i) (Nat.not_lt.1 hge)
  omega

/-- and so are those from the last one on. -/
theorem Copied.endsOf_tail (ha : a ≤ Radix.down bpWidth b)
    (hi : Copied (Radix.down bpWidth b) b M i y) : EndsOf a b M i y := by
  obtain ⟨h1, h2, h3⟩ := hi
  have hle := Radix.le_down bpWidth_pos (Radix.dvd_down bpWidth b) h1
  have hlt := Radix.lt_down_add bpWidth_pos b
  exact ⟨⟨by omega, h2, .inr (by omega)⟩, h3⟩

/-- **Less than a leaf** is two copies of values. -/
theorem Holds.assign_small (hP : Placed h Ψ) (hv : Holds h Ψ v L) (ho : Holds h Ψ o M)
    (hsz : o.sz = v.sz) (hlev : o.levels = v.levels) (hsz63 : v.sz ≤ 2 ^ 63) (hab : a < b)
    (hb : b ≤ v.sz) (hsmall : b - a < bpWidth)
    (hst : a < Radix.up bpWidth a → Radix.up bpWidth a ≤ b → Radix.up bpWidth a < v.sz →
      Steady h v o (Radix.up bpWidth a)) {h₁ : Heap T} {v₁ : BpVector}
    (he₁ : BpVector.copyRange rounds h v o a (min (Radix.up bpWidth a) b) = .ok (h₁, v₁))
    (he₂ : BpVector.copyRange rounds h₁ v₁ o (min (Radix.up bpWidth a) b) b = .ok (h', v')) :
    ∃ Ψ', Stored (EndsOf a b M) h Ψ h' Ψ' v v' := by
  have hau := Radix.le_up bpWidth_pos a
  -- no leaf starts on the way to the next one
  have hnone : ∀ p, a < p → p < Radix.up bpWidth a → ¬ bpWidth ∣ p := fun p h1 h2 hd =>
    absurd (Radix.up_le bpWidth_pos hd h1.le) (Nat.not_le.2 h2)
  have hsteady : (∀ p, a < p → p ≤ min (Radix.up bpWidth a) b → p < v.sz → ¬ bpWidth ∣ p) ∨
      min (Radix.up bpWidth a) b < v.sz ∧
        (∀ p, a < p → p < min (Radix.up bpWidth a) b → ¬ bpWidth ∣ p) ∧
        Steady h v o (min (Radix.up bpWidth a) b) := by
    by_cases hcut : a < Radix.up bpWidth a ∧ Radix.up bpWidth a ≤ b ∧ Radix.up bpWidth a < v.sz
    · obtain ⟨h1, h2, h3⟩ := hcut
      rw [min_eq_left h2]
      exact .inr ⟨h3, hnone, hst h1 h2 h3⟩
    · exact .inl fun p h1 h2 h3 => hnone p h1 (by omega)
  obtain ⟨Ψ₁, hw₁⟩ := hv.copyRange hP ho hsz hlev hsz63 (by omega) (by omega) (by omega) hsteady he₁
  have hw₁ := hw₁.mono fun i y hi => hi.endsOf hsmall le_rfl (min_le_right _ b)
  obtain ⟨N, hv₁⟩ := hw₁.holds
  have heq := hw₁.eq_root
  have hsz₁ : v₁.sz = v.sz := by rw [heq]
  have ho₁ := ho.unaltered hw₁.alters fun i hi z hz => hz.eq hi
  obtain ⟨Ψ₂, hw₂⟩ := hv₁.copyRange hw₁.alters.placed ho₁ (by omega) (by rw [hlev, heq])
    (by omega) (by omega) (by omega) (by omega)
    (.inl fun p h1 h2 h3 hd => by
      rcases Nat.lt_or_ge b (Radix.up bpWidth a) with h5 | h5
      · omega
      · -- two leaves start within less than one
        have h6 := Nat.le_of_dvd (by omega) (Nat.dvd_sub hd (Radix.dvd_up bpWidth a))
        omega) he₂
  exact ⟨Ψ₂, hw₁.trans (hw₂.mono fun i y hi => hi.endsOf hsmall (by omega) le_rfl)⟩

/-- **A leaf or more** is values, branches and values. -/
theorem Holds.assign_large (hP : Placed h Ψ) (hv : Holds h Ψ v L) (ho : Holds h Ψ o M)
    (hsz : o.sz = v.sz) (hlev : o.levels = v.levels) (hsz63 : v.sz ≤ 2 ^ 63) (hab : a + bpWidth ≤ b)
    (hb : b ≤ v.sz) {h₁ h₂ : Heap T} {v₁ v₂ : BpVector}
    (he₁ : BpVector.copyPartial rounds h v o a (Radix.up bpWidth a) = .ok (h₁, v₁))
    (he₂ : BpVector.graftRange rounds .ps h₁ v₁ o a b (Radix.up bpWidth a) = .ok (h₂, v₂, br))
    (he₃ : BpVector.copyPartial rounds h₂ v₂ o br b = .ok (h', v')) :
    ∃ Ψ', Stored (EndsOf a b M) h Ψ h' Ψ' v v' := by
  have hau := Radix.le_up bpWidth_pos a
  have hua := Radix.up_lt bpWidth_pos a
  have hdb := Radix.down_le bpWidth b
  have hbd := Radix.lt_down_add bpWidth_pos b
  have hbr := graftRange_r (by omega) he₂
  subst hbr
  obtain ⟨Ψ₁, hw₁⟩ := hv.copyPartial hP ho hsz hsz63 hau (by omega) he₁
  have hw₁ := hw₁.mono fun i y hi => hi.endsOf_head (b := b) (by omega)
  obtain ⟨N₁, hv₁⟩ := hw₁.holds
  have heq₁ := hw₁.eq_root
  have ho₁ := ho.unaltered hw₁.alters fun i hi z hz => hz.eq hi
  obtain ⟨Ψ₂, hw₂⟩ := hv₁.graftRange (W := EndsOf a b M) hw₁.alters.placed ho₁
    (by rw [hsz, heq₁]) (by rw [hlev, heq₁]) he₂
  have hw₂ := hw₁.trans hw₂
  obtain ⟨N₂, hv₂⟩ := hw₂.holds
  have hsz₂ : v₂.sz = v.sz := by rw [hw₂.eq_root]
  have ho₂ := ho.unaltered hw₂.alters fun i hi z hz => hz.eq hi
  obtain ⟨Ψ₃, hw₃⟩ := hv₂.copyPartial hw₂.alters.placed ho₂ (by omega) (by omega) hdb (by omega) he₃
  exact ⟨Ψ₃, hw₂.trans (hw₃.mono fun i y hi => hi.endsOf_tail (by omega))⟩

/-- **What `assign` writes** is the values at the ends of the range. Where
it is less than a leaf, and passes over to another, that one must stay on
the path of the vector that is read. -/
theorem Holds.assign (hP : Placed h Ψ) (hv : Holds h Ψ v L) (ho : Holds h Ψ o M)
    (hsz : o.sz = v.sz) (hlev : o.levels = v.levels) (hsz63 : v.sz ≤ 2 ^ 63) (hb : b ≤ v.sz)
    (hst : b - a < bpWidth → a < Radix.up bpWidth a → Radix.up bpWidth a ≤ b →
      Radix.up bpWidth a < v.sz → Steady h v o (Radix.up bpWidth a))
    (he : BpVector.assign rounds .ps h v o a b = .ok (h', v')) :
    ∃ Ψ', Stored (EndsOf a b M) h Ψ h' Ψ' v v' := by
  obtain ⟨hab, ar, har, hdone⟩ := assign_cases he
  have hW63 : bpWidth ^ 1 ≤ 2 ^ 63 := by
    rw [pow_one, bpWidth_eq]
    exact Nat.pow_le_pow_right (by omega) (le_trans K.le (by omega))
  have hnext := nextMultiple_eq (i := a) hW63 (by omega)
  rw [pow_one, har] at hnext
  cases hnext
  rcases hdone with ⟨hsmall, h₁, v₁, he₁, he₂⟩ | ⟨hlarge, h₁, v₁, h₂, v₂, br, he₁, he₂, he₃⟩
  · exact hv.assign_small hP ho hsz hlev hsz63 hab hb hsmall (hst hsmall) he₁ he₂
  · exact hv.assign_large hP ho hsz hlev hsz63 (by omega) hb he₁ he₂ he₃

/-! ## Whom it spares -/

/-- Where the paths have a node in common that carries the id, the two
read the same. -/
theorem SharedAt.read_eq (hs : SharedAt h v w p) (hP : Placed h Ψ) (hv : Holds h Ψ v L)
    (hw : Holds h Ψ w N) (hpv : p < v.sz) (hpw : p < w.sz) :
    readAt h p w.levels w.root = readAt h p v.levels v.root := by
  obtain ⟨b, hb, -⟩ := exists_walk_of_readAt le_rfl (hv.read p (by rw [← hv.size]; exact hpv))
  have hwb := walk_of_sharedAt hP hv hw hpv hpw hs hb
  rw [readAt_of_walk le_rfl hwb, readAt_of_walk le_rfl hb, Nat.sub_self, Nat.sub_self]

/-- **A path that has such a node in common with neither vector** is not
written. -/
theorem Holds.read_spared (hP : Placed h Ψ) (hv : Holds h Ψ v L) (ho : Holds h Ψ o M)
    (hw : Holds h Ψ w N) (hsz : o.sz = v.sz) (hid : o.id = v.id) (hpv : p < v.sz)
    (hpw : p < N.length) (hsv : ¬ SharedAt h v w p) (hso : ¬ SharedAt h o w p)
    (he : BpVector.assign rounds .ps h v o a b = .ok (h', v')) :
    readAt h' p w.levels w.root = .ok N[p] := by
  have hpw' : p < w.sz := by rw [hw.size]; exact hpw
  have hscope := (hP.whole (V := {v, o}) (n := v.sz) (by
    rintro w (rfl | rfl)
    · exact ⟨rfl, L, hv⟩
    · exact ⟨hsz, M, ho⟩)).scope
  have htests : Tests (nodeCopy .tr v.id) .ps v.id := ⟨fun _ h => h, fun _ _ => rfl⟩
  have e := (hscope.assign (N := fun _ => True) htests (.inl ⟨v, .inl rfl, .root⟩) hv.root_lt
    trivial (.inl ⟨o, .inr rfl, .root⟩) ho.root_lt he).edits
  refine readAt_of_path (hw.read p hpw) fun l hl d hd => ?_
  have hdlt := (hP.walk_place hw.root_lt (hw.root_onPath (hw.lt_capacity (.inl hpw'))) hd).1
  by_cases hidd : (h.cell d).id = v.id
  · rw [e.cell_eq_of_not_mem hdlt]
    rintro (⟨u, rfl | rfl, hr⟩ | hnew)
    · exact hsv (sharedAt_of_reach hP hv hw hpv hpw' hl hd hr hidd)
    · exact hso (sharedAt_of_reach hP ho hw (by omega) hpw' hl hd hr (hidd.trans hid.symm))
    · exact absurd hdlt (Nat.not_lt.2 hnew)
  · rw [e.cell_eq hdlt hdlt (by simpa [nodeCopy] using Ne.symm hidd)]

/-- **Whom `assign` spares**: a vector that has, at each index that is
written value by value where the paths have a node in common, the value
that is written. -/
theorem Holds.assign_spares {Ψ' : Addr → Place} (hP : Placed h Ψ) (hv : Holds h Ψ v L)
    (ho : Holds h Ψ o M) (hw : Holds h Ψ w N) (hsz : o.sz = v.sz) (hid : o.id = v.id)
    (hb : b ≤ v.sz) (hal : Alters (EndsOf a b M) h Ψ h' Ψ')
    (he : BpVector.assign rounds .ps h v o a b = .ok (h', v'))
    (hspare : ∀ p, Ends a b p → p < w.sz → SharedAt h v w p → w.at' h p = o.at' h p) (i : ℕ) :
    w.at' h' i = w.at' h i := by
  refine hal.at_eq hw i fun hi z hz hW => ?_
  have hib := hW.1.2.1
  have hiw : i < w.sz := by rw [hw.size]; exact hi
  have hiM : i < M.length := by
    rw [← ho.size]
    omega
  have hzM := hW.eq hiM
  by_cases hsv : SharedAt h v w i
  · have hat := hspare i hW.1 hiw hsv
    rw [hw.at_eq, ho.at_eq, dif_pos hi, dif_pos hiM] at hat
    rw [hzM, Except.ok.inj hat]
  · by_cases hso : SharedAt h o w i
    · -- it reads what the other vector does
      have hread := hso.read_eq hP ho hw (by omega) hiw
      rw [hw.read i hi, ho.read i hiM] at hread
      rw [hzM, Except.ok.inj hread]
    · have hkept := hv.read_spared hP ho hw hsz hid (by omega) hi hsv hso he
      rw [hz] at hkept
      exact Except.ok.inj hkept

end Contentious
