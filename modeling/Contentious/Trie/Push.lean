import Contentious.Trie.Update

/-!
# Trie — appending a value

The three `push_back`s differ in what they copy and in how they begin; a
value that needs a new leaf is appended by one text, `pushLeaf`. Its
arithmetic is `depthIns_spec`: the loop finds the level whose ranges the
size is a multiple of, and no level above. The descent to it stays on the
path of an earlier element, and the nodes built below it stand at places
no earlier element uses (`grow_spec`), so nothing that was read is
changed. A full trie is first put under a new root (`rotate_spec`).
-/

namespace Contentious

variable [K : BpBits] {T : Type}
variable {h h' : Heap T} {Ψ : Addr → Place} {a b r : Addr} {i j k m n : ℕ} {x y : T}
variable {cp : Id → Bool} {newId : Addr → Id} {v : BpVector} {L : List T}

open BpVector

/-! ## How deep to insert -/

theorem mod_eq_zero_iff_and (sz n : ℕ) : sz &&& (bpWidth ^ n - 1) ≠ 0 ↔ ¬ bpWidth ^ n ∣ sz := by
  rw [bpWidth_eq, Radix.and_pow_sub_one, Nat.dvd_iff_mod_eq_zero]

/-- **The depth loop stops at the greatest range the size is a multiple
of**, `t` levels below the top; a leaf's width always stops it. -/
theorem depthIns_spec {sz : ℕ} (hsz : bpWidth ∣ sz) (ins : ℤ) :
    ∃ t ≤ m, depthIns sz (m + 1) (bpWidth ^ (m + 1)) ins = ins + t ∧
      bpWidth ^ (m + 1 - t) ∣ sz ∧ (0 < t → ¬ bpWidth ^ (m + 1 - t + 1) ∣ sz) := by
  induction m generalizing ins with
  | zero =>
    refine ⟨0, le_rfl, ?_, by simpa using hsz, fun h => absurd h (lt_irrefl 0)⟩
    rw [depthIns, if_neg (by rw [mod_eq_zero_iff_and]; simpa using hsz)]
    simp
  | succ m ih =>
    rw [depthIns]
    by_cases hd : bpWidth ^ (m + 1 + 1) ∣ sz
    · rw [if_neg (by rw [mod_eq_zero_iff_and]; exact not_not_intro hd)]
      exact ⟨0, Nat.zero_le _, by simp, by simpa using hd, fun h => absurd h (lt_irrefl 0)⟩
    · rw [if_pos (by rw [mod_eq_zero_iff_and]; exact hd)]
      have hcap : bpWidth ^ (m + 1 + 1) >>> bpBits = bpWidth ^ (m + 1) := by
        rw [Nat.shiftRight_eq_div_pow, ← bpWidth_eq, pow_succ, Nat.mul_div_cancel _ bpWidth_pos]
      obtain ⟨t, ht, he, hdvd, hnot⟩ := ih (ins + 1)
      rw [hcap]
      refine ⟨t + 1, by omega, ?_, ?_, fun _ => ?_⟩
      · rw [he]; push_cast; ring
      · rwa [show m + 1 + 1 - (t + 1) = m + 1 - t by omega]
      · rw [show m + 1 + 1 - (t + 1) + 1 = m + 1 - t + 1 by omega]
        rcases Nat.eq_zero_or_pos t with rfl | hpos
        · exact hd
        · exact hnot hpos

/-! ## New nodes -/

/-- A node allocated on the path of `i` under a branch of the level
above, and linked there. -/
theorem attach_spec (hP : Placed h Ψ) (ha : a < h.next) (hΨ : Ψ a = onPath i (m + 1))
    (nd : BpNode T) (hf : Fits h Ψ nd (onPath i m)) :
    ∃ h' Ψ', setChild (h.alloc nd).1 a (slot i ((m + 1) * bpBits)) (some h.next) = .ok h' ∧
      h.next < h'.next ∧ (∀ d < h.next, Ψ' d = Ψ d) ∧ Placed h' Ψ' ∧
      Ψ' h.next = onPath i m ∧ h'.cell h.next = nd ∧
      child h' a (slot i ((m + 1) * bpBits)) = .ok h.next ∧
      (∀ d < h.next, d ≠ a → h'.cell d = h.cell d) ∧
      ∀ d < h.next, ∀ j n y, Ψ d = onPath j n → Radix.pos bpWidth j m ≠ Radix.pos bpWidth i m →
        readAt h j n d = .ok y → readAt h' j n d = .ok y := by
  obtain ⟨c, hu⟩ : ∃ c, (h.cell a).u = .branches c := by
    cases hu : (h.cell a).u with
    | branches c => exact ⟨c, rfl⟩
    | leaves c => have := hP.leaves a ha c hu; rw [hΨ] at this; exact nomatch this
  have e : Ext h Ψ (h.alloc nd).1 (placeAt Ψ h.next (onPath i m)) := Ext.alloc hP hf
  have hu₁ : ((h.alloc nd).1.cell a).u = .branches c := by rw [Store.alloc_cell_old ha, hu]
  have ha₁ : a < (h.alloc nd).1.next := lt_of_lt_of_le ha e.next_le
  have hΨa : placeAt Ψ h.next (onPath i m) a = onPath i (m + 1) := by rw [e.place a ha, hΨ]
  have hplace : (Radix.pos bpWidth i (m + 1)) * bpWidth + (slot i ((m + 1) * bpBits)).val =
      Radix.pos bpWidth i m := by rw [slot_val, ← Radix.pos_eq]
  refine ⟨_, placeAt Ψ h.next (onPath i m), setChild_of hu₁, Nat.lt_succ_self _, e.place,
    e.placed.setChild ha₁ hu₁ (Nat.lt_succ_self _) ?_, placeAt_self _ _ _, ?_, ?_, ?_, ?_⟩
  · rw [placeAt_self, hΨa]
    simp only [onPath, Nat.add_sub_cancel, hplace]
  · rw [Store.write_cell_ne (Nat.ne_of_gt ha), Store.alloc_cell_new]
  · exact child_of (by rw [Store.write_cell_self]) (Function.update_self ..)
  · intro d hd hda
    rw [Store.write_cell_ne hda, Store.alloc_cell_old hd]
  · intro d hd j n y hΨd hne hy
    refine e.placed.read_setChild ha₁ hu₁ (lt_of_lt_of_le hd e.next_le)
      ((e.place d hd).trans hΨd) ?_ (e.read d hd _ _ _ hy)
    rw [hΨa]
    simpa only [onPath, Nat.add_sub_cancel, hplace] using hne

/-- **A rotation** puts the trie under a new root and reads the same. -/
theorem rotate_spec (newId : Addr → Id) (hP : Placed h Ψ) (hr : r < h.next) (hΨ : Ψ r = ⟨n, 0⟩) :
    ∃ h' r' Ψ', rotate newId h r = .ok (h', r') ∧ Ext h Ψ h' Ψ' ∧ r' < h'.next ∧
      Ψ' r' = ⟨n + 1, 0⟩ ∧
      ∀ j y, j < bpWidth ^ (n + 1) → readAt h j n r = .ok y → readAt h' j (n + 1) r' = .ok y := by
  have e : Ext h Ψ (h.alloc (BpNode.newBranches (newId h.next))).1 (placeAt Ψ h.next ⟨n + 1, 0⟩) :=
    Ext.alloc hP ⟨Nat.succ_pos _, fun k b hk => by cases hk⟩
  have hu : ((h.alloc (BpNode.newBranches (newId h.next) : BpNode T)).1.cell h.next).u =
      .branches fun _ => none := by rw [Store.alloc_cell_new]; rfl
  obtain ⟨h', hset, hwrite⟩ : ∃ h', setChild (h.alloc (BpNode.newBranches (newId h.next))).1 h.next
      ⟨0, bpWidth_pos⟩ (some r) = .ok h' ∧ _ = h' := ⟨_, setChild_of hu, rfl⟩
  have hold : ∀ d < h.next, h'.cell d = h.cell d := fun d hd => by
    rw [← hwrite, Store.write_cell_ne (Nat.ne_of_lt hd), Store.alloc_cell_old hd]
  have hread : ∀ d < h.next, ∀ m j y, readAt h j m d = .ok y → readAt h' j m d = .ok y :=
    fun d hd m j y hy => hP.read_of_cells (fun d hd => by rw [hold d hd]) hd hy
  have hP' : Placed h' (placeAt Ψ h.next ⟨n + 1, 0⟩) := by
    rw [← hwrite]
    refine e.placed.setChild (Nat.lt_succ_self _) hu (lt_trans hr (Nat.lt_succ_self _)) ?_
    rw [placeAt_self, placeAt_old (Nat.ne_of_lt hr), hΨ]
    simp
  have hn : h'.next = h.next + 1 := by rw [← hwrite]; rfl
  refine ⟨h', h.next, placeAt Ψ h.next ⟨n + 1, 0⟩, ?_, ⟨by omega, e.place, hP', hread⟩,
    by rw [hn]; exact Nat.lt_succ_self _, placeAt_self _ _ _, ?_⟩
  · simp only [rotate, Store.alloc_snd, hset, Exec.ok_bind]
  · intro j y hj hy
    have hs : slot j ((n + 1) * bpBits) = ⟨0, bpWidth_pos⟩ := by
      apply Fin.ext
      rw [slot_val, Radix.digit, Nat.div_eq_of_lt hj, Nat.zero_mod]
    refine readAt_succ.2 ⟨r, child_of (by rw [← hwrite, Store.write_cell_self]) ?_,
      hread r hr _ _ _ hy⟩
    rw [hs, Function.update_self]

theorem calcDepth_eq (v : BpVector) : v.calcDepth = v.levels + 1 := by
  rw [calcDepth, shift, Nat.mul_div_cancel _ (by have := K.one_le; omega)]

/-- The capacity, where it fits its type. -/
theorem capacity_of (hcap : bpWidth ^ (v.levels + 1) < 2 ^ 64) :
    v.capacity = .ok (bpWidth ^ (v.levels + 1)) := by
  rw [capacity, calcDepth_eq]
  exact if_pos hcap

/-- Reading every element, over a longer list. -/
theorem read_append {z : T} {r : Addr} {n : ℕ} (hlast : readAt h L.length n r = .ok z)
    (hread : ∀ l (hl : l < L.length), readAt h l n r = .ok L[l]) :
    ∀ l (hl : l < (L ++ [z]).length), readAt h l n r = .ok (L ++ [z])[l] := by
  intro l hl
  by_cases hlL : l < L.length
  · rw [List.getElem_append_left hlL]
    exact hread l hlL
  · simp only [List.length_append, List.length_singleton] at hl
    have hle : l = L.length := by omega
    subst hle
    rw [List.getElem_concat_length rfl]
    exact hlast

/-- The greatest size a vector can have at a depth whose capacity fits
`size_t`. -/
def maxSize : ℕ := bpWidth ^ (63 / bpBits)

/-- Below that size the capacity fits. -/
theorem Holds.capacity_lt (hv : Holds h Ψ v L) (hmax : L.length + 1 ≤ maxSize) :
    bpWidth ^ (v.levels + 1) < 2 ^ 64 := by
  have hb := K.one_le
  have hb' := K.le
  have h4 : 4 ≤ 63 / bpBits := (Nat.le_div_iff_mul_le (by omega)).2 (by omega)
  have hlev : v.levels + 1 ≤ 63 / bpBits := by
    rcases hv.tight with h0 | ⟨-, h1 | hlt⟩
    · omega
    · omega
    · have hpow : bpWidth ^ v.levels < bpWidth ^ (63 / bpBits) := by rw [maxSize] at hmax; omega
      exact (Nat.pow_lt_pow_iff_right one_lt_bpWidth).1 hpow
  calc bpWidth ^ (v.levels + 1) = 2 ^ (bpBits * (v.levels + 1)) := by rw [bpWidth_eq, pow_mul]
    _ ≤ 2 ^ 63 := Nat.pow_le_pow_right (by omega) (by
        have := Nat.div_mul_le_self 63 bpBits
        calc bpBits * (v.levels + 1) ≤ bpBits * (63 / bpBits) := Nat.mul_le_mul_left _ hlev
          _ ≤ 63 := by rw [Nat.mul_comm]; exact this)
    _ < 2 ^ 64 := by decide

variable [Inhabited T]

/-- **The new nodes** below a branch of level `m + 1`: a path of them down
to a fresh leaf, seen only by the indices that take it. -/
theorem spine_spec (newId : Addr → Id) (hP : Placed h Ψ) (ha : a < h.next)
    (hΨ : Ψ a = onPath i (m + 1)) :
    ∃ h' b Ψ', spine newId i (m + 1) h a = .ok (h', b) ∧ h.next ≤ h'.next ∧
      (∀ d < h.next, Ψ' d = Ψ d) ∧ Placed h' Ψ' ∧ b < h'.next ∧ Ψ' b = onPath i 0 ∧
      walk h' i (m + 1) (m + 1) a = .ok b ∧ (∀ d < h.next, d ≠ a → h'.cell d = h.cell d) ∧
      ∀ d < h.next, ∀ j n y, Ψ d = onPath j n → Radix.pos bpWidth j m ≠ Radix.pos bpWidth i m →
        readAt h j n d = .ok y → readAt h' j n d = .ok y := by
  induction m generalizing h Ψ a with
  | zero =>
    obtain ⟨h', Ψ', he, hn, hΨ', hP', hΨb, -, hch, hcell, hread⟩ :=
      attach_spec hP ha hΨ (BpNode.newLeaves (newId h.next)) rfl
    refine ⟨h', h.next, Ψ', ?_, hn.le, hΨ', hP', hn, hΨb, ?_, hcell, hread⟩
    · simp only [spine]
      rw [show 1 * bpBits = (0 + 1) * bpBits by rw [zero_add]]
      exact congrArg (· >>= fun h => Except.ok (h, _)) he
    · simp only [walk, hch, Exec.ok_bind]
  | succ m ih =>
    obtain ⟨h₁, Ψ₁, he₁, hn₁, hΨ₁, hP₁, hΨb₁, -, hch₁, hcell₁, hread₁⟩ :=
      attach_spec hP ha hΨ (BpNode.newBranches (newId h.next))
        ⟨Nat.succ_pos _, fun k b hk => by cases hk⟩
    obtain ⟨h', b, Ψ', he, hn, hΨ', hP', hb, hΨb, hw, hcell, hread⟩ := ih hP₁ hn₁ hΨb₁
    have hal : a < h₁.next := lt_trans ha hn₁
    refine ⟨h', b, Ψ', ?_, le_trans hn₁.le hn, ?_, hP', hb, hΨb, ?_, ?_, ?_⟩
    · simp only [spine, Store.alloc_snd]
      rw [show setChild _ a _ _ = _ from he₁]
      exact he
    · intro d hd
      rw [hΨ' d (lt_trans hd hn₁), hΨ₁ d hd]
    · -- below the first new node nothing touches the link to it
      rw [walk, child_congr (congrArg BpNode.u (hcell a hal (Nat.ne_of_lt ha))), hch₁]
      exact hw
    · intro d hd hda
      rw [hcell d (lt_trans hd hn₁) (Nat.ne_of_lt hd), hcell₁ d hd hda]
    · intro d hd j n y hΨd hne hy
      refine hread d (lt_trans hd hn₁) j n y ((hΨ₁ d hd).trans hΨd) ?_
        (hread₁ d hd j n y hΨd hne hy)
      exact fun he => hne (Radix.pos_congr he (Nat.le_succ m))

/-! ## Appending where a new leaf is needed -/

/-- **Growing below a root that has room.** At the level `n - k`, of whose
ranges `i` is a multiple, the path of `i` leaves the trie: above it the
path is an earlier element's, below it the nodes are new. -/
theorem grow_spec (cp : Id → Bool) (id : Id) (newId : Addr → Id) (hP : Placed h Ψ)
    (hr : r < h.next) (hΨ : Ψ r = ⟨n, 0⟩) (hi : i < bpWidth ^ (n + 1)) (hkn : k < n)
    (hdvd : bpWidth ^ (n - k) ∣ i)
    (hpath : k = 0 ∨ ∃ j y, readAt h j n r = .ok y ∧
      Radix.pos bpWidth i (n - k) = Radix.pos bpWidth j (n - k)) (x : T) :
    ∃ h' Ψ', grow cp id newId i k n h r x = .ok h' ∧ h.next ≤ h'.next ∧
      (∀ d < h.next, Ψ' d = Ψ d) ∧ Placed h' Ψ' ∧
      readAt h' i n r = .ok x ∧
      ∀ l z, l < i → readAt h l n r = .ok z → readAt h' l n r = .ok z := by
  have hroot : ∀ l, l < bpWidth ^ (n + 1) → Ψ r = onPath l n := fun l hl => by
    rw [hΨ, onPath, Radix.pos_eq_zero hl]
  -- down to the branch the new path hangs from
  obtain ⟨h₁, a, Ψ₁, hd, e₁, ha, hΨ₁, hw₁⟩ : ∃ h₁ a Ψ₁, descend cp id i k n h r = .ok (h₁, a) ∧
      Ext h Ψ h₁ Ψ₁ ∧ a < h₁.next ∧ Ψ₁ a = onPath i (n - k) ∧ walk h₁ i k n r = .ok a := by
    rcases hpath with rfl | ⟨j, y, hy, hij⟩
    · exact ⟨h, r, Ψ, rfl, Ext.refl hP, hr, hroot i hi, rfl⟩
    · obtain ⟨h₁, a, Ψ₁, hd, e₁, ha, hΨ₁, hw₁, -⟩ :=
        descend_spec cp id hP hr (hroot i hi) hkn.le hy hij
      exact ⟨h₁, a, Ψ₁, hd, e₁, ha, hΨ₁, hw₁⟩
  obtain ⟨m, hm⟩ := Nat.exists_eq_succ_of_ne_zero (by omega : n - k ≠ 0)
  rw [hm] at hΨ₁ hdvd
  obtain ⟨h₂, b, Ψ₂, hs, hn₂, hΨ₂, hP₂, hb, hΨb, hw₂, hcell₂, hread₂⟩ :=
    spine_spec newId e₁.placed ha hΨ₁
  obtain ⟨c, hu⟩ : ∃ c, (h₂.cell b).u = .leaves c := by
    cases hu : (h₂.cell b).u with
    | leaves c => exact ⟨c, rfl⟩
    | branches c =>
      have := hP₂.branches b hb c hu
      rw [hΨb] at this
      exact absurd this (lt_irrefl _)
  have hr₁ : r < h₁.next := lt_of_lt_of_le hr e₁.next_le
  have hr₂ : r < h₂.next := lt_of_lt_of_le hr₁ hn₂
  -- the walk to the new leaf: the descent's part is above the only old node that changed
  have hw : walk h₂ i n n r = .ok b := by
    have hup : walk h₂ i k n r = .ok a := by
      rw [← hw₁]
      refine walk_congr_cells e₁.placed hr₁ ((e₁.place r hr).trans (hroot i hi)) hkn.le
        fun d hd hlev => ?_
      refine congrArg BpNode.u (hcell₂ d hd ?_)
      rintro rfl
      rw [hΨ₁] at hlev
      simp only [onPath] at hlev
      omega
    have hsplit := walk_append k (n - k) h₂ i n r
    rw [show k + (n - k) = n by omega, hup, Exec.ok_bind, hm, hw₂] at hsplit
    exact hsplit
  refine ⟨h₂.write b ⟨.leaves (Function.update c (slot i 0) x), (h₂.cell b).id⟩, Ψ₂, ?_,
    le_trans e₁.next_le hn₂, ?_, hP₂.setLeaf hu _ _, ?_, ?_⟩
  · simp only [grow, hd, Exec.ok_bind, hm, hs, setLeaf_of hu]
  · intro d hd
    rw [hΨ₂ d (lt_of_lt_of_le hd e₁.next_le), e₁.place d hd]
  · rw [readAt_of_walk le_rfl ((walk_setLeaf hu _ _ _).trans hw), Nat.sub_self]
    exact leaf_eq_ok.2 ⟨_, by rw [Store.write_cell_self], Function.update_self ..⟩
  · intro l z hl hz
    have hΨl : Ψ₁ r = onPath l n := (e₁.place r hr).trans (hroot l (lt_trans hl hi))
    refine hP₂.read_setLeaf hu hΨb hr₂ ((hΨ₂ r hr₁).trans hΨl) (Nat.ne_of_lt hl) ?_
    refine hread₂ r hr₁ l n z hΨl ?_ (e₁.read r hr _ _ _ hz)
    exact Radix.pos_ne_of_dvd bpWidth_pos hdvd hl

/-- **`pushLeaf` appends.** -/
theorem Holds.pushLeaf (cp : Id → Bool) (newId : Addr → Id) (hP : Placed h Ψ) (hv : Holds h Ψ v L)
    (hdvd : bpWidth ∣ v.sz) (hcap : bpWidth ^ (v.levels + 1) < 2 ^ 64) (x : T) :
    ∃ h' v' Ψ', BpVector.pushLeaf cp newId h v x = .ok (h', v') ∧ v'.id = v.id ∧
      h.next ≤ h'.next ∧ (∀ d < h.next, Ψ' d = Ψ d) ∧ Placed h' Ψ' ∧
      Holds h' Ψ' v' (L ++ [x]) := by
  obtain ⟨t, ht, hins, htd, hnot⟩ := depthIns_spec (m := v.levels) hdvd (-1)
  obtain ⟨h₁, r₁, Ψ₁, ho, e₁, hr₁, hΨ₁, hread₁⟩ := ownRoot_spec cp v.id hP hv.root_lt
  have hΨr₁ : Ψ₁ r₁ = ⟨v.levels, 0⟩ := hΨ₁.trans hv.root_place
  have hlen : (L ++ [x]).length = v.sz + 1 := by simp [hv.size]
  rcases Nat.eq_zero_or_pos t with rfl | hpos
  · -- the trie is full: a new root, and the whole path below it new
    rw [Nat.sub_zero] at htd
    simp only [Nat.cast_zero, add_zero] at hins
    obtain ⟨h₂, r₂, Ψ₂, hro, e₂, hr₂, hΨr₂, hread₂⟩ := rotate_spec newId e₁.placed hr₁ hΨr₁
    have hlt : v.sz < bpWidth ^ (v.levels + 1 + 1) := by
      have := hv.fits
      have := Nat.pow_lt_pow_right one_lt_bpWidth (show v.levels + 1 < v.levels + 1 + 1 by omega)
      have := hv.size
      omega
    obtain ⟨h₃, Ψ₃, hg, hn₃, hΨ₃, hP₃, hx, hl⟩ :=
      grow_spec (k := 0) cp v.id newId e₂.placed hr₂ hΨr₂
      hlt (Nat.succ_pos _) htd (.inl rfl) x
    refine ⟨h₃, ⟨v.sz + 1, v.levels + 1, r₂, v.id⟩, Ψ₃, ?_, rfl,
      le_trans e₁.next_le (le_trans e₂.next_le hn₃), ?_, hP₃, ?_⟩
    · simp only [BpVector.pushLeaf, capacity_of hcap, calcDepth_eq, Exec.ok_bind, hins, ho, if_true,
        hro, pure_bind, show (-1 : ℤ).toNat = 0 from rfl, hg]
    · intro d hd
      have hd₁ := lt_of_lt_of_le hd e₁.next_le
      rw [hΨ₃ d (lt_of_lt_of_le hd₁ e₂.next_le), e₂.place d hd₁, e₁.place d hd]
    · refine ⟨lt_of_lt_of_le hr₂ hn₃, (hΨ₃ r₂ hr₂).trans hΨr₂, hlen.symm, ?_, ?_, ?_⟩
      · rw [hlen]; exact hlt
      · -- the root was full, unless the trie was empty
        refine .inr ⟨by rw [hlen]; exact Nat.succ_pos _, ?_⟩
        rw [hlen]
        rcases Nat.eq_zero_or_pos v.sz with h0 | h0
        · have := hv.tight
          have := hv.size
          exact .inl (by change v.levels + 1 = 1; omega)
        · exact .inr (Nat.lt_succ_of_le (Nat.le_of_dvd h0 htd))
      · refine read_append (by rw [← hv.size]; exact hx) fun l hll => ?_
        refine hl l _ (by rw [hv.size]; exact hll) (hread₂ l _ (lt_of_lt_of_le hll hv.fits) ?_)
        exact hread₁ _ _ _ (hv.read l hll)
  · -- room below the root: the path leaves the trie `t - 1` levels down
    have hins' :
        depthIns v.sz (v.levels + 1) (bpWidth ^ (v.levels + 1)) (-1) = ((t - 1 : ℕ) : ℤ) := by
      rw [hins]; omega
    have hne : ((t - 1 : ℕ) : ℤ) ≠ -1 := by omega
    have hk : v.levels - (t - 1) = v.levels + 1 - t := by omega
    have hnd := hnot hpos
    have hlt : v.sz < bpWidth ^ (v.levels + 1) := by
      refine lt_of_le_of_ne (by rw [hv.size]; exact hv.fits) fun he => hnd ?_
      rw [he]
      exact pow_dvd_pow _ (by omega)
    have h0 : 0 < v.sz := Nat.pos_of_ne_zero fun h => hnd (by rw [h]; exact dvd_zero _)
    have hle : bpWidth ^ (v.levels + 1 - t) ≤ v.sz := Nat.le_of_dvd h0 htd
    have hW : 0 < bpWidth ^ (v.levels + 1 - t) := Nat.pow_pos bpWidth_pos
    have hprev : v.sz - bpWidth ^ (v.levels + 1 - t) < L.length := by have := hv.size; omega
    obtain ⟨h₃, Ψ₃, hg, hn₃, hΨ₃, hP₃, hx, hl⟩ := grow_spec (k := t - 1) cp v.id newId e₁.placed hr₁
      hΨr₁ hlt (by omega) (by rw [hk]; exact htd)
      (.inr ⟨_, _, hread₁ _ _ _ (hv.read _ hprev), by
        rw [hk]; exact (Radix.pos_sub_of_dvd one_lt_bpWidth htd hnd).symm⟩) x
    refine ⟨h₃, ⟨v.sz + 1, v.levels, r₁, v.id⟩, Ψ₃, ?_, rfl, le_trans e₁.next_le hn₃, ?_, hP₃, ?_⟩
    · simp only [BpVector.pushLeaf, capacity_of hcap, calcDepth_eq, Exec.ok_bind, hins', ho,
        if_neg hne,
        Int.toNat_natCast, pure_bind, hg]
    · intro d hd
      rw [hΨ₃ d (lt_of_lt_of_le hd e₁.next_le), e₁.place d hd]
    · refine ⟨lt_of_lt_of_le hr₁ hn₃, (hΨ₃ r₁ hr₁).trans hΨr₁, hlen.symm, ?_, ?_, ?_⟩
      · rw [hlen]; exact hlt
      · rw [hlen]
        have := hv.tight
        have := hv.size
        simp only
        omega
      · refine read_append (by rw [← hv.size]; exact hx) fun l hll => ?_
        exact hl l _ (by rw [hv.size]; exact hll) (hread₁ _ _ _ (hv.read l hll))

/-! ## The three `push_back`s -/

/-- **`push_back` appends**, for each of the three vectors. -/
theorem Holds.pushBack (D : Der) (hP : Placed h Ψ) (hv : Holds h Ψ v L)
    (hmax : L.length + 1 ≤ maxSize) (x : T) :
    ∃ h' v' Ψ', BpVector.pushBack D h v x = .ok (h', v') ∧ v'.id = v.id ∧
      h.next ≤ h'.next ∧ (∀ d < h.next, Ψ' d = Ψ d) ∧ Placed h' Ψ' ∧
      Holds h' Ψ' v' (L ++ [x]) := by
  by_cases hmod : v.sz % bpWidth = 0
  · simp only [BpVector.pushBack, and_bpMask, hmod, ne_eq, not_true_eq_false, if_false]
    exact hv.pushLeaf _ _ hP (Nat.dvd_of_mod_eq_zero hmod) (hv.capacity_lt hmax) x
  · obtain ⟨h', r', Ψ', he, hn, hΨ, hP', hv'⟩ := hv.setWith_append (nodeCopy D v.id) hP hmod x
    refine ⟨h', _, Ψ', ?_, ?_, hn, hΨ, hP', hv'⟩
    · simp only [BpVector.pushBack, and_bpMask, ne_eq, hmod, not_false_eq_true, if_true,
        BpVector.set, he, Exec.ok_bind]
    · rfl

/-- **`mut_push_back` appends**, whichever of the two it is. -/
theorem Holds.mutPushWith (cp : Id → Bool) (newId : Addr → Id) (hP : Placed h Ψ)
    (hv : Holds h Ψ v L) (hmax : L.length + 1 ≤ maxSize) (x : T) :
    ∃ h' v' Ψ', BpVector.mutPushWith cp newId h v x = .ok (h', v') ∧ v'.id = v.id ∧
      h.next ≤ h'.next ∧ (∀ d < h.next, Ψ' d = Ψ d) ∧ Placed h' Ψ' ∧
      Holds h' Ψ' v' (L ++ [x]) := by
  by_cases hmod : v.sz % bpWidth = 0
  · by_cases hlt : v.sz < bpWidth
    · -- the first value goes into the root, which is still a leaf
      have h0 : v.sz = 0 := by rw [Nat.mod_eq_of_lt hlt] at hmod; exact hmod
      have hL : L = [] := List.eq_nil_of_length_eq_zero (by rw [← hv.size, h0])
      have hlev : v.levels = 0 := by have := hv.tight; rw [hL] at this; simpa using this
      have hroot := hv.root_place
      rw [hlev] at hroot
      obtain ⟨c, hu⟩ : ∃ c, (h.cell v.root).u = .leaves c := by
        cases hu : (h.cell v.root).u with
        | leaves c => exact ⟨c, rfl⟩
        | branches c =>
          have := hP.branches _ hv.root_lt c hu
          rw [hroot] at this
          exact absurd this (lt_irrefl _)
      refine ⟨_, { v with sz := v.sz + 1 }, Ψ, ?_, rfl, ?_, fun _ _ => rfl,
        hP.setLeaf hu ⟨v.sz, hlt⟩ x, ?_⟩
      · simp only [BpVector.mutPushWith, and_bpMask, hmod, ne_eq, not_true_eq_false, if_false,
          dif_pos hlt, setLeaf_of hu, Exec.ok_bind]
      · rfl
      · refine ⟨hv.root_lt, hv.root_place, by simp [hL, h0], ?_, .inl hlev, ?_⟩
        · simp only [hL, List.nil_append, List.length_singleton]
          exact Nat.one_le_pow _ _ bpWidth_pos
        · intro l hl
          have hl0 : l = 0 := by simpa [hL] using hl
          subst hl0
          simp only [hL, List.nil_append, List.getElem_cons_zero, hlev]
          refine leaf_eq_ok.2 ⟨_, by rw [Store.write_cell_self], ?_⟩
          have hs : slot 0 0 = ⟨v.sz, hlt⟩ := by
            apply Fin.ext
            rw [slot_zero_val]
            simp [Radix.digit, h0]
          rw [hs, Function.update_self]
    · simp only [BpVector.mutPushWith, and_bpMask, hmod, ne_eq, not_true_eq_false, if_false,
        dif_neg hlt]
      exact hv.pushLeaf _ _ hP (Nat.dvd_of_mod_eq_zero hmod) (hv.capacity_lt hmax) x
  · obtain ⟨h', r', Ψ', he, hn, hΨ, hP', hv'⟩ := hv.setWith_append cp hP hmod x
    refine ⟨h', _, Ψ', ?_, ?_, hn, hΨ, hP', hv'⟩
    · simp only [BpVector.mutPushWith, and_bpMask, ne_eq, hmod, not_false_eq_true, if_true, he,
        Exec.ok_bind]
    · rfl

end Contentious
