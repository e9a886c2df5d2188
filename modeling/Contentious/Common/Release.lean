import Mathlib.Data.Nat.Basic
import Mathlib.Logic.Function.Basic

/-!
# Release — two threads, release stores and acquire loads

Two threads share plain cells, and each has one atomic variable that it
alone stores to, with release order, and that the other loads with acquire
order. A load may return any value the variable has had, as long as it is
none before one the loading thread has already seen; with the value it
takes over what the storing thread had done by then.

Of a thread are kept the values it has stored, each with its clock at the
time, and for each cell its clock at its last access. An access races if
the other thread's last access to the cell is later than what this one
knows of it. What a proof needs is `Released`: between the store `k` and
the next a thread accesses the cell `cell k` only, and then there is no
race with a thread that has seen the stores past that (`not_races`).
-/

/-- One thread's side: `β` is what its variable holds, `ι` the cells. -/
structure Side (β ι : Type*) where
  /-- The values stored, each with the thread's clock then. -/
  stores : ℕ → β × ℕ
  /-- The last one. -/
  count : ℕ
  clock : ℕ
  /-- The clock at its last access to a cell. -/
  touched : ι → ℕ
  /-- Which of the other's stores it has seen, -/
  view : ℕ
  /-- and the clock of the other that it knows of. -/
  seen : ℕ

namespace Side

variable {β ι : Type*}

/-- What the variable holds now. -/
def value (s : Side β ι) : β := (s.stores s.count).1

/-- The variable as constructed, before either thread runs. -/
def init (b : β) : Side β ι where
  stores _ := (b, 0)
  count := 0
  clock := 0
  touched _ := 0
  view := 0
  seen := 0

/-- `store(b, memory_order_release)` -/
def store (s : Side β ι) (b : β) : Side β ι :=
  { s with stores := Function.update s.stores (s.count + 1) (b, s.clock), count := s.count + 1 }

/-- A load may return the value of the other's store `j`. -/
def Loads (s other : Side β ι) (j : ℕ) : Prop := s.view ≤ j ∧ j ≤ other.count

instance (s other : Side β ι) (j : ℕ) : Decidable (s.Loads other j) :=
  inferInstanceAs (Decidable (_ ∧ _))

/-- To learn of the other's stores up to `j`, and of its clock `c`. -/
def join (s : Side β ι) (j c : ℕ) : Side β ι :=
  { s with view := max s.view j, seen := max s.seen c }

/-- `load(memory_order_acquire)`, that returns the value of store `j`. -/
def acquire (s other : Side β ι) (j : ℕ) : Side β ι := s.join j (other.stores j).2

/-- An access to a cell. -/
def touch [DecidableEq ι] (s : Side β ι) (i : ι) : Side β ι :=
  { s with clock := s.clock + 1, touched := Function.update s.touched i (s.clock + 1) }

/-- An access would race with the other's last one. -/
def races (s other : Side β ι) (i : ι) : Bool := s.seen < other.touched i

@[simp] theorem value_init (b : β) : (init b : Side β ι).value = b := rfl

@[simp] theorem count_store (s : Side β ι) (b : β) : (s.store b).count = s.count + 1 := rfl
@[simp] theorem view_store (s : Side β ι) (b : β) : (s.store b).view = s.view := rfl
@[simp] theorem clock_store (s : Side β ι) (b : β) : (s.store b).clock = s.clock := rfl

@[simp] theorem count_join (s : Side β ι) (j c : ℕ) : (s.join j c).count = s.count := rfl
@[simp] theorem stores_join (s : Side β ι) (j c : ℕ) : (s.join j c).stores = s.stores := rfl
@[simp] theorem clock_join (s : Side β ι) (j c : ℕ) : (s.join j c).clock = s.clock := rfl
@[simp] theorem view_join (s : Side β ι) (j c : ℕ) : (s.join j c).view = max s.view j := rfl

@[simp] theorem count_acquire (s other : Side β ι) (j : ℕ) :
    (s.acquire other j).count = s.count := rfl
@[simp] theorem stores_acquire (s other : Side β ι) (j : ℕ) :
    (s.acquire other j).stores = s.stores := rfl
@[simp] theorem view_acquire (s other : Side β ι) (j : ℕ) :
    (s.acquire other j).view = max s.view j := rfl

section Touch

variable [DecidableEq ι]

@[simp] theorem count_touch (s : Side β ι) (i : ι) : (s.touch i).count = s.count := rfl
@[simp] theorem stores_touch (s : Side β ι) (i : ι) : (s.touch i).stores = s.stores := rfl
@[simp] theorem view_touch (s : Side β ι) (i : ι) : (s.touch i).view = s.view := rfl

end Touch

/-- The last store is the newest, and the others stay. -/
@[simp] theorem stores_store_last (s : Side β ι) (b : β) :
    (s.store b).stores (s.count + 1) = (b, s.clock) := Function.update_self ..

theorem stores_store (s : Side β ι) (b : β) {j : ℕ} (hj : j ≤ s.count) :
    (s.store b).stores j = s.stores j :=
  Function.update_of_ne (by omega) ..

/-! ## What the values are -/

/-- **The store `j` was of `f j`.** -/
def Stores (s : Side β ι) (f : ℕ → β) : Prop := ∀ j ≤ s.count, (s.stores j).1 = f j

namespace Stores

variable {s other : Side β ι} {f : ℕ → β}

theorem value (h : s.Stores f) : s.value = f s.count := h s.count le_rfl

theorem init {b : β} (hb : f 0 = b) : (init b : Side β ι).Stores f := by
  intro j hj
  obtain rfl : j = 0 := Nat.le_zero.1 hj
  exact hb.symm

theorem store (h : s.Stores f) {b : β} (hb : b = f (s.count + 1)) : (s.store b).Stores f := by
  intro j hj
  rcases Nat.lt_or_ge s.count j with hlt | hle
  · obtain rfl : j = s.count + 1 := by rw [count_store] at hj; omega
    rw [stores_store_last, hb]
  · rw [stores_store s b hle]
    exact h j hle

end Stores

/-! ## What is released -/

/-- **Between the store `k` and the next it accesses `cell k`**, up to but
not including the bound `b`: a cell that is none of those from `j` on was
last accessed before the store `j`. -/
structure Released (s : Side β ι) (cell : ℕ → ι) (b : ℕ) : Prop where
  touched_le : ∀ i, s.touched i ≤ s.clock
  stores_le : ∀ j ≤ s.count, (s.stores j).2 ≤ s.clock
  past : ∀ j ≤ s.count, ∀ i, (∀ k, j ≤ k → k < b → cell k ≠ i) → s.touched i ≤ (s.stores j).2

/-- What it knows of the other's clock it has from a store that it has
seen. -/
structure Synced (s other : Side β ι) : Prop where
  view_le : s.view ≤ other.count
  seen : (other.stores s.view).2 ≤ s.seen

variable {s other : Side β ι} {cell : ℕ → ι} {b b' : ℕ}

namespace Released

theorem init (v : β) : (init v : Side β ι).Released cell b where
  touched_le _ := le_rfl
  stores_le _ _ := le_rfl
  past _ _ _ _ := le_rfl

theorem mono (h : s.Released cell b) (hb : b ≤ b') : s.Released cell b' where
  touched_le := h.touched_le
  stores_le := h.stores_le
  past j hj i hi := h.past j hj i fun k hjk hk => hi k hjk (by omega)

theorem join (h : s.Released cell b) (j c : ℕ) : (s.join j c).Released cell b where
  touched_le := h.touched_le
  stores_le := h.stores_le
  past := h.past

theorem acquire (h : s.Released cell b) (j : ℕ) : (s.acquire other j).Released cell b :=
  h.join j _

/-- A store releases what came before it. -/
theorem store (h : s.Released cell b) (v : β) : (s.store v).Released cell b where
  touched_le := h.touched_le
  stores_le j hj := by
    rcases Nat.lt_or_ge s.count j with hlt | hle
    · obtain rfl : j = s.count + 1 := by rw [count_store] at hj; omega
      rw [stores_store_last, clock_store]
    · rw [stores_store s v hle]
      exact h.stores_le j hle
  past j hj i hi := by
    rcases Nat.lt_or_ge s.count j with hlt | hle
    · obtain rfl : j = s.count + 1 := by rw [count_store] at hj; omega
      rw [stores_store_last]
      exact h.touched_le i
    · rw [stores_store s v hle]
      exact h.past j hle i hi

/-- The cell of the last store is its to access. -/
theorem touch [DecidableEq ι] (h : s.Released cell b) (hb : b ≤ s.count + 1) :
    (s.touch (cell s.count)).Released cell (s.count + 1) where
  touched_le i := by
    have := h.touched_le i
    unfold Side.touch
    by_cases hi : i = cell s.count
    · subst hi
      simp
    · simp only [Function.update_of_ne hi]
      omega
  stores_le j hj := by
    have := h.stores_le j hj
    unfold Side.touch
    dsimp only
    omega
  past j hj i hi := by
    have hne : i ≠ cell s.count := fun he => hi s.count hj (by omega) he.symm
    have hpast := h.past j hj i fun k hjk hk => hi k hjk (by omega)
    unfold Side.touch
    simpa only [Function.update_of_ne hne] using hpast

/-- **No race**: the cell is none that the other accesses from the store on
that this thread has seen. -/
theorem not_races {i : ι} (h : other.Released cell b) (hs : s.Synced other)
    (hi : ∀ k, s.view ≤ k → k < b → cell k ≠ i) : s.races other i = false := by
  have hpast := h.past s.view hs.view_le i hi
  have hseen := hs.seen
  unfold races
  rw [decide_eq_false_iff_not]
  omega

end Released

namespace Synced

theorem init (v w : β) : (init v : Side β ι).Synced (init w) where
  view_le := le_rfl
  seen := le_rfl

theorem join (h : s.Synced other) {j c : ℕ} (hj : j ≤ other.count) (hc : (other.stores j).2 ≤ c) :
    (s.join j c).Synced other where
  view_le := max_le h.view_le hj
  seen := by
    have hseen := h.seen
    unfold Side.join
    dsimp only
    rcases Nat.le_total j s.view with hle | hle
    · rw [Nat.max_eq_left hle]
      omega
    · rw [Nat.max_eq_right hle]
      omega

theorem acquire (h : s.Synced other) {j : ℕ} (hj : j ≤ other.count) :
    (s.acquire other j).Synced other :=
  h.join hj le_rfl

theorem store (h : s.Synced other) (v : β) : (s.store v).Synced other := ⟨h.view_le, h.seen⟩

theorem touch [DecidableEq ι] (h : s.Synced other) (i : ι) : (s.touch i).Synced other :=
  ⟨h.view_le, h.seen⟩

theorem other_join (h : s.Synced other) (j c : ℕ) : s.Synced (other.join j c) :=
  ⟨h.view_le, h.seen⟩

theorem other_acquire {third : Side β ι} (h : s.Synced other) (j : ℕ) :
    s.Synced (other.acquire third j) :=
  ⟨h.view_le, h.seen⟩

theorem other_touch [DecidableEq ι] (h : s.Synced other) (i : ι) : s.Synced (other.touch i) :=
  ⟨h.view_le, h.seen⟩

theorem other_store (h : s.Synced other) (v : β) : s.Synced (other.store v) where
  view_le := le_trans h.view_le (Nat.le_succ _)
  seen := by
    rw [stores_store other v h.view_le]
    exact h.seen

end Synced

end Side
