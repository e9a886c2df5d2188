import Mathlib.Data.Nat.Notation

/-!
# Loop — a while loop in a language with faults

`loop out cond body fuel s` is `while (cond s) s = body s` for at most
`fuel` rounds, where `body` may fault. The fault `out` is given when the
rounds do not suffice: it is no behaviour of the loop, and a result is
one of the loop whatever the fuel was. The rules are the one for
invariants, the one for loops that count down, and the one for two loops
side by side.
-/

variable {ε σ : Type*}

/-- `while (cond s) s = body s`, for at most `fuel` rounds. -/
def loop (out : ε) (cond : σ → Bool) (body : σ → Except ε σ) : ℕ → σ → Except ε σ
  | 0, s => if cond s then .error out else .ok s
  | fuel + 1, s =>
    if cond s then
      match body s with
      | .ok t => loop out cond body fuel t
      | .error e => .error e
    else .ok s

variable {out : ε} {cond : σ → Bool} {body : σ → Except ε σ} {fuel : ℕ} {s t : σ}

/-- A loop that is done does nothing. -/
theorem loop_of_not (h : cond s = false) : loop out cond body fuel s = .ok s := by
  cases fuel with
  | zero => rw [loop, if_neg (by simp [h])]
  | succ fuel => rw [loop, if_neg (by simp [h])]

/-- **What a round keeps, the loop keeps**, and it ends where the
condition fails. -/
theorem loop_invariant {I : σ → Prop} (hbody : ∀ s t, I s → cond s = true → body s = .ok t → I t)
    (hs : I s) (h : loop out cond body fuel s = .ok t) : I t ∧ cond t = false := by
  induction fuel generalizing s with
  | zero =>
    rw [loop] at h
    split at h
    · exact nomatch h
    · next hc => cases h; exact ⟨hs, by simpa using hc⟩
  | succ fuel ih =>
    rw [loop] at h
    split at h
    · next hc =>
      cases hb : body s with
      | error e => rw [hb] at h; exact nomatch h
      | ok u => rw [hb] at h; exact ih (hbody s u hs hc hb) h
    · next hc => cases h; exact ⟨hs, by simpa using hc⟩

/-- **A loop whose rounds go through and count down** ends, given as many
rounds as there are to count. -/
theorem loop_total {I : σ → Prop} (m : σ → ℕ)
    (hbody : ∀ s, I s → cond s = true → ∃ t, body s = .ok t ∧ I t ∧ m t < m s) (hs : I s)
    (hm : m s ≤ fuel) : ∃ t, loop out cond body fuel s = .ok t ∧ I t ∧ cond t = false := by
  induction fuel generalizing s with
  | zero =>
    rw [loop]
    split
    · next hc =>
      obtain ⟨t, -, -, hlt⟩ := hbody s hs hc
      exact absurd (Nat.lt_of_lt_of_le hlt hm) (Nat.not_lt_zero _)
    · next hc => exact ⟨s, rfl, hs, by simpa using hc⟩
  | succ fuel ih =>
    rw [loop]
    split
    · next hc =>
      obtain ⟨t, ht, hI, hlt⟩ := hbody s hs hc
      rw [ht]
      exact ih hI (Nat.le_of_lt_succ (Nat.lt_of_lt_of_le hlt hm))
    · next hc => exact ⟨s, rfl, hs, by simpa using hc⟩

/-- The same with the count kept beside the state: what is left to do is
read off the invariant. -/
theorem loop_counts (out : ε) (cond : σ → Bool) (body : σ → Except ε σ) {I : ℕ → σ → Prop} {n : ℕ}
    (hbody : ∀ n s, I n s → cond s = true → ∃ t m, body s = .ok t ∧ I m t ∧ m < n) (hs : I n s)
    (hn : n ≤ fuel) : ∃ t m, loop out cond body fuel s = .ok t ∧ I m t ∧ cond t = false := by
  induction fuel generalizing s n with
  | zero =>
    rw [loop]
    split
    · next hc =>
      obtain ⟨t, m, -, -, hlt⟩ := hbody n s hs hc
      exact absurd (Nat.lt_of_lt_of_le hlt hn) (Nat.not_lt_zero _)
    · next hc => exact ⟨s, n, rfl, hs, by simpa using hc⟩
  | succ fuel ih =>
    rw [loop]
    split
    · next hc =>
      obtain ⟨t, m, ht, hI, hlt⟩ := hbody n s hs hc
      rw [ht]
      exact ih hI (Nat.le_of_lt_succ (Nat.lt_of_lt_of_le hlt hn))
    · next hc => exact ⟨s, n, rfl, hs, by simpa using hc⟩

/-- **Two loops in step**: where the second can do what each round of the
first does, and they stop together, it does all that the first does. -/
theorem loop_simulates {ε' τ : Type*} {R : σ → τ → Prop} {out' : ε'} {cond' : τ → Bool}
    {body' : τ → Except ε' τ} {u : τ} (hcond : ∀ s u, R s u → cond' u = cond s)
    (hbody : ∀ s u t, R s u → body s = .ok t → ∃ v, body' u = .ok v ∧ R t v) (hs : R s u)
    (h : loop out cond body fuel s = .ok t) :
    ∃ v, loop out' cond' body' fuel u = .ok v ∧ R t v := by
  induction fuel generalizing s u with
  | zero =>
    rw [loop] at h ⊢
    rw [hcond s u hs]
    split at h
    · exact nomatch h
    · next hc =>
      cases h
      exact ⟨u, if_neg hc, hs⟩
  | succ fuel ih =>
    rw [loop] at h ⊢
    rw [hcond s u hs]
    split at h
    · next hc =>
      rw [if_pos hc]
      cases hb : body s with
      | error e => rw [hb] at h; exact nomatch h
      | ok s' =>
        rw [hb] at h
        obtain ⟨u', hu, hR⟩ := hbody s u s' hs hb
        rw [hu]
        exact ih hR h
    · next hc =>
      cases h
      exact ⟨u, if_neg hc, hs⟩
