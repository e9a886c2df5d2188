import Contentious.Cont.Fold
import Contentious.Trie.Full
import Contentious.Trie.Total

/-!
# Cont — the tries a vector is stored in

A vector is its contents in this part. Two operations of the tries do not
always do to them what they are meant to. `assign` to the end of a vector that
fills its trie copies up to the end of one node, or is a fault; `tries` is
what that makes of the copy of a block (`tries_assign`), and it is a matter
of one worker alone (`tries_copies_iff`). And the loop of `resolve` comes to
an end only where the size is an `int32_t` (`tries_fold`).
-/

namespace Contentious.Cont

variable [BpBits]

/-- **`assign` over tries**, which are no deeper than they need to be. To the
end of a trie that is full, and over as much as a leaf, it goes by the digits
of `a`. -/
def Storage.tries (lay : Layout) : Storage where
  assign d splt a b :=
    let levels := Nat.log bpWidth lay.size
    let m := spanLevel a.toNat
    if b = lay.size ∧ a + bpWidth ≤ b ∧ lay.size = bpWidth ^ levels then
      -- one leaf has no branches
      if levels = 1 then .error .wrongType
      else if m + 1 = levels ∨ a.toNat ≤ (bpWidth - 1) * bpWidth ^ m then
        .ok (assignRange d splt a (bpWidth ^ (m + 1) : ℕ))
      else .error .outOfBounds
    else .ok (assignRange d splt a b)

/-- One worker alone copies all of a full trie only where that has two levels, -/
def Layout.Copyable (lay : Layout) : Prop :=
  lay.hwconc = 1 → ∀ n, lay.size = bpWidth ^ (n + 1) → n = 1

/-- and something unless that is a leaf. -/
def Layout.Reattaches (lay : Layout) : Prop := ¬ (lay.hwconc = 1 ∧ lay.size = bpWidth)

variable {lay : Layout} {p : ℕ}

/-- A start in the second half of a full trie has its highest digit at the
root. -/
theorem spanLevel_of_half {a n : ℕ} (ha : a < bpWidth ^ (n + 2))
    (hhalf : bpWidth ^ (n + 2) ≤ 2 * a) : spanLevel a = n + 1 := by
  refine le_antisymm (spanLevel_le ha (by omega)) ?_
  refine le_trans (Nat.le_log_of_pow_le one_lt_bpWidth ?_) (le_max_right _ _)
  have h2 : 2 * bpWidth ^ (n + 1) ≤ bpWidth ^ (n + 2) := by
    rw [pow_succ' bpWidth (n + 1)]
    exact Nat.mul_le_mul_right _ one_lt_bpWidth
  omega

namespace Storage

variable {d splt : Contents}

/-- Of several workers, each one's block is copied. -/
theorem tries_copies_of_two (h : 2 ≤ lay.hwconc) : (tries lay).Copies lay := by
  intro d splt p hp
  simp only [tries]
  split
  · next hfull =>
    obtain ⟨hb, hleaf, hsize⟩ := hfull
    have ha0 := lay.a_nonneg p
    have halt := Layout.a_lt_b hp
    have hhalf := Layout.size_le_two_mul h (Layout.eq_last hp hb)
    have hW := one_lt_bpWidth
    obtain ⟨n, hn⟩ : ∃ n, Nat.log bpWidth lay.size = n + 2 := by
      refine ⟨Nat.log bpWidth lay.size - 2, ?_⟩
      by_contra hlt
      have hle : lay.size ≤ bpWidth ^ 1 := by
        rw [hsize]
        exact Nat.pow_le_pow_right bpWidth_pos (by omega)
      rw [pow_one] at hle
      omega
    rw [hn] at hsize ⊢
    have hspan : spanLevel (lay.a p).toNat = n + 1 :=
      spanLevel_of_half (by omega) (by rw [← hsize]; exact hhalf)
    rw [if_neg (by omega), if_pos (.inl (by omega)), hspan, ← hsize, hb]
  · rfl

/-- One worker alone copies all there is, -/
theorem tries_assign_alone (h : lay.hwconc = 1) (d splt : Contents) :
    (tries lay).assign d splt (lay.a 0) (lay.b 0) =
      if lay.size = bpWidth ^ Nat.log bpWidth lay.size ∧ bpWidth ≤ lay.size then
        if Nat.log bpWidth lay.size = 1 then .error .wrongType
        else .ok (assignRange d splt 0 (bpWidth ^ 2 : ℕ))
      else .ok (assignRange d splt 0 lay.size) := by
  have ha : lay.a 0 = 0 := by simp [Layout.a, partition]
  have hb : lay.b 0 = lay.size := by simp [Layout.b, partition, h]
  have hspan : spanLevel 0 = 1 := by rw [spanLevel, Nat.log_zero_right]; rfl
  have hfull : (bpWidth : ℤ) ≤ lay.size ↔ bpWidth ≤ lay.size := Int.ofNat_le
  simp only [tries, ha, hb, Int.toNat_zero, hspan, zero_add, hfull, true_and, Nat.zero_le, or_true,
    if_true]
  exact if_congr and_comm rfl rfl

/-- **The blocks are copied** exactly where one worker alone does not have a
full trie of one leaf, or of three levels or more. -/
theorem tries_copies_iff : (tries lay).Copies lay ↔ lay.Copyable := by
  have hW := one_lt_bpWidth
  constructor
  · intro hcopies h1 n hn
    have hlog : Nat.log bpWidth lay.size = n + 1 := by rw [hn, Nat.log_pow one_lt_bpWidth]
    have hle : bpWidth ≤ lay.size := hn ▸ Nat.le_self_pow n.succ_ne_zero _
    have h0 := hcopies (fun _ => 0) (fun _ => 1) 0 (by omega)
    have hb : lay.b 0 = lay.size := by simp [Layout.b, partition, h1]
    have ha : lay.a 0 = 0 := by simp [Layout.a, partition]
    rw [tries_assign_alone h1, hlog, if_pos ⟨hn, hle⟩, ha, hb] at h0
    split at h0
    · cases h0
    · by_contra hne
      -- the elements behind the second level are left out
      have hlt : bpWidth ^ 2 < lay.size := hn ▸ Nat.pow_lt_pow_right hW (by omega)
      have hlt' : ((bpWidth ^ 2 : ℕ) : ℤ) < lay.size := Int.ofNat_lt.2 hlt
      have hval := congrFun (Except.ok.inj h0) (bpWidth ^ 2 : ℕ)
      rw [assignRange, assignRange, if_neg (by omega), if_pos (by omega)] at hval
      exact absurd hval (by norm_num)
  · intro hcopy
    rcases Nat.lt_or_ge lay.hwconc 2 with hlt | hge
    · have h1 : lay.hwconc = 1 := by have := lay.hwconc_pos; omega
      intro d splt p hp
      obtain rfl : p = 0 := by omega
      have ha : lay.a 0 = 0 := by simp [Layout.a, partition]
      have hb : lay.b 0 = lay.size := by simp [Layout.b, partition, h1]
      rw [tries_assign_alone h1, ha, hb]
      split
      · next hfull =>
        obtain ⟨hsize, hle⟩ := hfull
        obtain ⟨n, hn⟩ : ∃ n, Nat.log bpWidth lay.size = n + 1 :=
          ⟨_, (Nat.succ_pred_eq_of_pos (Nat.log_pos hW hle)).symm⟩
        rw [hn] at hsize ⊢
        obtain rfl := hcopy h1 n hsize
        rw [if_neg (by decide), ← hsize]
      · rfl
    · exact tries_copies_of_two hge

/-- **A reattach goes through** exactly where one worker alone does not have
a single full leaf. -/
theorem tries_goes_iff : (tries lay).Goes lay ↔ lay.Reattaches := by
  have hlog : Nat.log bpWidth lay.size = 1 → lay.size = bpWidth ^ Nat.log bpWidth lay.size →
      lay.size = bpWidth := by
    intro h1 h2
    rwa [h1, pow_one] at h2
  constructor
  · rintro hgoes ⟨h1, hsize⟩
    obtain ⟨d, hd⟩ := hgoes (fun _ => 0) (fun _ => 0) 0 lay.hwconc_pos
    have hlog1 : Nat.log bpWidth lay.size = 1 := by
      rw [hsize]
      exact (Nat.log_pow one_lt_bpWidth 1 ▸ by rw [pow_one])
    rw [tries_assign_alone h1, hlog1, if_pos ⟨by rw [pow_one]; exact hsize, hsize.ge⟩,
      if_pos rfl] at hd
    exact nomatch hd
  · intro hno
    rcases Nat.lt_or_ge lay.hwconc 2 with hlt | hge
    · have h1 : lay.hwconc = 1 := by have := lay.hwconc_pos; omega
      intro d splt p hp
      obtain rfl : p = 0 := by omega
      rw [tries_assign_alone h1]
      split
      · next hfull =>
        rw [if_neg fun h => hno ⟨h1, hlog h hfull.1⟩]
        exact ⟨_, rfl⟩
      · exact ⟨_, rfl⟩
    · exact (tries_copies_of_two hge).goes

end Storage

/-! ## Over tries -/

section
variable {h : Heap ℚ} {v o : BpVector} {L M : List ℚ} {Ψ : Addr → Place} {a b c rounds : ℕ}

omit [BpBits] in
/-- A range of a list, as contents. -/
theorem contents_splice (x : ℚ) (hlen : M.length = L.length) {t : ℤ} (ht : 0 ≤ t)
    (ht' : t < L.length) :
    contents (splice L M a c) x t = assignRange (contents L x) (contents M x) a c t := by
  obtain ⟨i, rfl⟩ := Int.eq_ofNat_of_zero_le ht
  have hi : i < L.length := Int.ofNat_lt.1 ht'
  have hM : i < M.length := hlen ▸ hi
  simp only [contents, assignRange, Int.toNat_natCast, Int.ofNat_le, Int.ofNat_lt]
  rw [List.getD_eq_getElem _ _ (by rw [length_splice]; exact hi), getElem_splice hi,
    List.getD_eq_getElem _ _ hM, List.getD_eq_getElem _ _ hi, List.getD_eq_getElem _ _ hM]

/-- **A copy between tries** of one shape does to the contents what `tries`
says, and stops where it says so. -/
theorem tries_assign (hB : Beside h Ψ v L o M) (hsize : v.sz = lay.size)
    (hmin : v.levels = 0 ∨ bpWidth ^ v.levels < v.sz) (hcap : bpWidth ^ (v.levels + 1) < 2 ^ 64)
    (hfar : v.sz < 2 ^ 63) (hab : a < b) (hb : b ≤ v.sz) (hrounds : bpWidth + v.levels ≤ rounds)
    (x : ℚ) :
    (∀ e, (Storage.tries lay).assign (contents L x) (contents M x) a b = .error e →
      BpVector.assign rounds .tr h v o a b = .error e) ∧
    ∀ d, (Storage.tries lay).assign (contents L x) (contents M x) a b = .ok d →
      ∃ h' r' Ψ' N, BpVector.assign rounds .tr h v o a b = .ok (h', { v with root := r' }) ∧
        Beside h' Ψ' { v with root := r' } N o M ∧ ∀ t, lay.InRange t → contents N x t = d t := by
  have hW := one_lt_bpWidth
  have hlen := hB.target.size
  have hfits : v.sz ≤ bpWidth ^ (v.levels + 1) := hlen ▸ hB.target.fits
  -- a range that is spliced is one that is assigned
  have hspliced : ∀ {c : ℕ} {h' r' Ψ'} {d : Contents},
      BpVector.assign rounds .tr h v o a b = .ok (h', { v with root := r' }) →
      Beside h' Ψ' { v with root := r' } (splice L M a c) o M →
      d = assignRange (contents L x) (contents M x) a c →
      ∃ h' r' Ψ' N, BpVector.assign rounds .tr h v o a b = .ok (h', { v with root := r' }) ∧
        Beside h' Ψ' { v with root := r' } N o M ∧
        ∀ t, lay.InRange t → contents N x t = d t := by
    intro c h' r' Ψ' d he hB' hd
    refine ⟨h', r', Ψ', _, he, hB', fun t ht => ?_⟩
    rw [hd]
    exact contents_splice x hB.length_eq ht.1 (by have := ht.2; omega)
  by_cases hall : ((b : ℕ) : ℤ) = lay.size ∧ (a : ℤ) + bpWidth ≤ b ∧
      lay.size = bpWidth ^ Nat.log bpWidth lay.size
  · obtain ⟨h1, h2, h3⟩ := hall
    obtain rfl : b = v.sz := by omega
    have hlog : Nat.log bpWidth lay.size = v.levels + 1 := by
      rw [← hsize] at h3 ⊢
      have hle : Nat.log bpWidth v.sz ≤ v.levels + 1 :=
        (Nat.pow_le_pow_iff_right hW).1 (by rw [← h3]; exact hfits)
      have hlt : v.levels < Nat.log bpWidth v.sz := by
        rcases hmin with h0 | hmin
        · rw [h0]
          exact Nat.log_pos hW (by omega)
        · exact (Nat.pow_lt_pow_iff_right hW).1 (by rw [← h3]; exact hmin)
      omega
    rw [hlog, ← hsize] at h3
    simp only [Storage.tries, Int.toNat_natCast, hlog]
    rw [if_pos ⟨h1, h2, by rw [← hsize]; exact h3⟩]
    by_cases hlev : v.levels = 0
    · have hszW : v.sz = bpWidth := by rw [h3, hlev, zero_add, pow_one]
      obtain rfl : a = 0 := by omega
      rw [if_pos (by omega)]
      refine ⟨fun e he => ?_, fun d hd => nomatch hd⟩
      cases he
      exact hB.assign_full_leaf hlev hszW
    · rw [if_neg (by omega)]
      obtain ⟨hok, hfault⟩ := hB.assign_full_large (a := a) hcap h3 (by omega) (by omega) hrounds
      have hspan := spanLevel_le (h3 ▸ hab) (by omega)
      split
      · next hgo =>
        refine ⟨fun e he => (nomatch he), fun d hd => ?_⟩
        obtain ⟨h', r', Ψ', he, hB'⟩ := hok (hgo.imp_left fun h => by omega)
        exact hspliced he hB' (Except.ok.inj hd).symm
      · next hno =>
        refine ⟨fun e he => ?_, fun d hd => nomatch hd⟩
        cases he
        exact hfault (by omega) (by omega)
  · simp only [Storage.tries]
    rw [if_neg hall]
    refine ⟨fun e he => (nomatch he), fun d hd => ?_⟩
    rcases Nat.lt_or_ge b (bpWidth ^ (v.levels + 1)) with hb' | hb'
    · obtain ⟨h', r', Ψ', he, hB'⟩ := hB.assign hcap hab hb hb' hrounds
      exact hspliced he hB' (Except.ok.inj hd).symm
    · -- all of the vector, which is less than a leaf more than the start
      obtain rfl : b = v.sz := by omega
      have hfull : v.sz = bpWidth ^ (v.levels + 1) := by omega
      have hsmall : v.sz < a + bpWidth := by
        by_contra hge
        refine hall ⟨by omega, by omega, ?_⟩
        rw [← hsize, hfull, Nat.log_pow hW]
      obtain ⟨h', r', Ψ', he, hB'⟩ := (hB.assign_full_small hcap hfull hab hsmall
        (show bpWidth ≤ rounds by omega)).1 hfar
      exact hspliced he hB' (Except.ok.inj hd).symm

/-- **The loop of `resolve` over tries** visits a scan, and makes of the target
what `resolveLoop` says; or neither comes to an end. -/
theorem tries_fold {op : Op ℚ} {w : BpVector} {N : List ℚ} {orig data : Contents} {x : ℚ}
    (hinv : ∀ x, op.inv x x = op.identity) (hP : Placed h Ψ) (hv : Holds h Ψ v L)
    (hw : Holds h Ψ w N) (hlev : w.levels = v.levels) (hsz : w.sz = v.sz) (hk : Kindred h v w)
    (hsize : v.sz = lay.size) (hfar : v.sz < 2 ^ 63) (hrounds : v.sz < rounds)
    (horig : ∀ t, lay.InRange t → orig t = contents L x t)
    (hdata : ∀ t, lay.InRange t → data t = contents N x t) (target : ℚ) :
    (∃ scan y, Scan lay.size orig data scan ∧
      resolveLoop lay.size op orig data scan target = .ok y ∧
        BpVector.resolveScan rounds op h v w target = .ok (y, scan.map Int.toNat)) ∨
    (∀ scan, resolveLoop lay.size op orig data scan target = .error .overflow) ∧
      ∀ s, BpVector.resolveScan rounds op h v w target ≠ .ok s := by
  rcases Nat.lt_or_ge v.sz (2 ^ 31) with hsmall | hlarge
  · obtain ⟨scan, hscan, he⟩ := resolveScan_scan hinv hP hv hw hlev hsz hk hsmall hrounds target x
    rw [hsize] at hscan
    have hsame : resolveOnto op (contents L x) (contents N x) scan target =
        resolveOnto op orig data scan target :=
      resolveOnto_congr (fun c hc => (horig c (hscan.within c hc)).symm)
        (fun c hc => (hdata c (hscan.within c hc)).symm) target
    refine .inl ⟨scan, _, hscan.congr horig hdata, resolveLoop_of_lt (hsize ▸ hsmall) .., ?_⟩
    rw [he, hsame]
  · refine .inr ⟨fun scan => resolveLoop_of_le (hsize ▸ hlarge) .., fun s he => ?_⟩
    have := resolveScan_small (by omega) he
    omega

end

end Contentious.Cont
