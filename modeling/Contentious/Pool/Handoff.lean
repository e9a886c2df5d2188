import Contentious.Pool.Ring
import Mathlib.Data.Nat.ModEq

/-!
# Pool — tasks handed over without a lock

What holds of `tasks[p]` and its two threads. The indices count the stores,
and neither thread is a round behind in what it has seen of the other's
(`Indices`); each has accessed only the slot of its own index since its
last store (`Accesses`); so the slot one of them is at is none that the
other may have accessed since the store the first has seen. With it nothing
goes wrong (`never_faulty`), the tasks are run in the order of their
submission (`runs_in_order`), and `sizeGuess` is off to the side its comment
says (`sizeGuess_le_of_loads`).

That `isEmpty` may be late costs no task: a worker that is back from its
semaphore has seen what was written before the posts (`no_lost_wakeup`).
-/

namespace Contentious.Pool

open ProducerConsumerQueue (nextRecord)

/-! ## Where the threads are -/

section

variable {size : ℕ} {α : Type}

/-- The record that is written is built, and not published. -/
def Writing.built : Writing size α → ℕ
  | .publish _ _ => 1
  | _ => 0

/-- The last task has been published, and no token for it posted. -/
def Writing.unposted : Writing size α → ℕ
  | .post => 1
  | _ => 0

/-- There was room. -/
def Writing.Roomy : Writing size α → Prop
  | .construct _ _ | .publish _ _ => True
  | _ => False

/-- `currentWrite` -/
def Writing.currentWrite : Writing size α → Option (Fin size)
  | .check _ c | .construct _ c | .publish _ c => some c
  | _ => none

/-- The task at the front has been run, and its slot is not free. -/
def Reading.used : Reading size → ℕ
  | .pop | .destroy _ | .retire _ => 1
  | _ => 0

/-- Its record is gone. -/
def Reading.dead : Reading size → ℕ
  | .retire _ => 1
  | _ => 0

/-- The worker has a token in hand. -/
def Reading.token : Reading size → ℕ
  | .wait => 0
  | _ => 1

/-- It has seen a task. -/
def Reading.Busy : Reading size → Prop
  | .front | .run _ | .pop | .destroy _ | .retire _ => True
  | _ => False

/-- `currentRead` -/
def Reading.currentRead : Reading size → Option (Fin size)
  | .run c | .destroy c | .retire c => some c
  | _ => none

theorem Reading.used_le (r : Reading size) : r.used ≤ 1 := by
  unfold Reading.used
  split <;> omega

/-- It has seen the task that it has run, -/
theorem Reading.busy_of_used {r : Reading size} (h : r.used ≠ 0) : r.Busy := by
  unfold Reading.used at h
  split at h
  · trivial
  · trivial
  · trivial
  · exact absurd rfl h

/-- and it has run the task whose record is gone. -/
theorem Reading.dead_le_used (r : Reading size) : r.dead ≤ r.used := by
  unfold Reading.dead
  split
  · exact le_rfl
  · exact Nat.zero_le _

end

namespace Ring

variable {size : ℕ} [NeZero size] {α : Type} {s t : Ring size α} {a : RingAct α}

/-- The slot of index `k`, counted without wrapping. -/
def slot (size : ℕ) [NeZero size] (k : ℕ) : Fin size :=
  ⟨k % size, Nat.mod_lt k (Nat.pos_of_neZero size)⟩

theorem nextRecord_slot (k : ℕ) : nextRecord (slot size k) = slot size (k + 1) := by
  refine Fin.ext ?_
  have hlt := Nat.mod_lt k (Nat.pos_of_neZero size)
  rw [ProducerConsumerQueue.nextRecord_val]
  unfold slot
  dsimp only
  rw [← Nat.mod_add_mod k size 1]
  split_ifs with h
  · rw [h, Nat.mod_self]
  · rw [Nat.mod_eq_of_lt (a := k % size + 1) (by omega)]

/-- Less than a round apart, indices have different slots. -/
theorem slot_inj {j k : ℕ} (hjk : j ≤ k) (hk : k < j + size) (h : slot size j = slot size k) :
    j = k := by
  have hmod : j % size = k % size := congrArg Fin.val h
  have hsub : (k - j) % size = 0 := Nat.sub_mod_eq_zero_of_mod_eq hmod.symm
  rw [Nat.mod_eq_of_lt (by omega)] at hsub
  omega

/-- **The indices.** Each is a count of stores; what a thread has seen of
the other's is not ahead of it and not a round behind. -/
structure Indices (s : Ring size α) : Prop where
  writes : s.producer.Stores (slot size)
  reads : s.consumer.Stores (slot size)
  producer : s.producer.Synced s.consumer
  consumer : s.consumer.Synced s.producer
  read_le : s.consumer.count ≤ s.consumer.view
  round : s.producer.count < s.producer.view + size
  room : s.writing.Roomy → s.producer.count + 1 < s.producer.view + size
  currentWrite : ∀ c ∈ s.writing.currentWrite, c = slot size s.producer.count
  busy : s.reading.Busy → s.consumer.count < s.consumer.view
  currentRead : ∀ c ∈ s.reading.currentRead, c = slot size s.consumer.count
  semView_le : s.semView ≤ s.producer.count
  semSeen : (s.producer.stores s.semView).2 ≤ s.semSeen

/-- **The accesses.** Each thread has accessed the slot of its own index
only, since its last store, and that only where it may. -/
structure Accesses (s : Ring size α) : Prop where
  built : s.producer.Released (slot size) (s.producer.count + s.writing.built)
  used : s.consumer.Released (slot size) (s.consumer.count + s.reading.used)

/-- **The records.** Those between the indices live and are the tasks
submitted, in order; no others live. -/
structure Records (s : Ring size α) : Prop where
  length : s.submitted.length = s.producer.count
  ran : s.ran = s.submitted.take (s.consumer.count + s.reading.used)
  live : ∀ k, s.consumer.count + s.reading.dead ≤ k → k < s.producer.count →
    s.records (slot size k) = s.submitted[k]?
  fresh : ∀ record c, s.writing = .publish record c → s.records c = some record
  raw : ∀ i, (∀ k, s.consumer.count + s.reading.dead ≤ k →
    k < s.producer.count + s.writing.built → slot size k ≠ i) → s.records i = none

namespace Indices

theorem write_le (hI : Indices s) : s.consumer.view ≤ s.producer.count := hI.consumer.view_le

theorem le (hI : Indices s) : s.consumer.count ≤ s.producer.count :=
  le_trans hI.read_le hI.write_le

theorem view_le (hI : Indices s) : s.producer.view ≤ s.consumer.count := hI.producer.view_le

/-- What the worker has used was published. -/
theorem used_le (hI : Indices s) : s.consumer.count + s.reading.used ≤ s.producer.count := by
  by_cases h : s.reading.used = 0
  · rw [h]
    exact hI.le
  · have hbusy := hI.busy (Reading.busy_of_used h)
    have hwrite := hI.write_le
    have := s.reading.used_le
    omega

/-- The worker's next record, while it has seen one. -/
theorem value_ne {j : ℕ} (hI : Indices s) (hj : s.consumer.Loads s.producer j)
    (hlt : s.consumer.count < s.consumer.view) : s.consumer.value ≠ (s.producer.stores j).1 := by
  obtain ⟨hvj, hjw⟩ := hj
  have hround := hI.round
  have hview := hI.view_le
  intro heq
  rw [hI.reads.value, hI.writes j hjw] at heq
  have := slot_inj (by omega) (by omega) heq
  omega

/-- What the submitting thread loads tells it of room. -/
theorem roomy {j : ℕ} (hI : Indices s) (hj : s.producer.Loads s.consumer j)
    (hroom : nextRecord (slot size s.producer.count) ≠ (s.consumer.stores j).1) :
    s.producer.count + 1 < j + size := by
  obtain ⟨hvj, hjr⟩ := hj
  have hround := hI.round
  by_contra hge
  refine hroom ?_
  obtain heq : s.producer.count + 1 = j + size := by omega
  rw [hI.reads j hjr, nextRecord_slot, heq]
  unfold slot
  simp only [Nat.add_mod_right]

/-! The parts of a step. -/

theorem goto_writing {w : Writing size α} (hI : Indices s)
    (hroom : w.Roomy → s.producer.count + 1 < s.producer.view + size)
    (hc : ∀ c ∈ w.currentWrite, c = slot size s.producer.count) :
    Indices { s with writing := w } :=
  { hI with room := hroom, currentWrite := hc }

theorem goto_reading {r : Reading size} (hI : Indices s)
    (hbusy : r.Busy → s.consumer.count < s.consumer.view)
    (hc : ∀ c ∈ r.currentRead, c = slot size s.consumer.count) :
    Indices { s with reading := r } :=
  { hI with busy := hbusy, currentRead := hc }

theorem load_producer {j : ℕ} (hI : Indices s) (hj : s.producer.Loads s.consumer j) :
    Indices { s with producer := s.producer.acquire s.consumer j } :=
  { hI with
    producer := hI.producer.acquire hj.2
    consumer := hI.consumer.other_acquire j
    round := lt_of_lt_of_le hI.round (Nat.add_le_add_right (Nat.le_max_left ..) _)
    room := fun h =>
      lt_of_lt_of_le (hI.room h) (Nat.add_le_add_right (Nat.le_max_left ..) _) }

theorem join_consumer {j c : ℕ} (hI : Indices s) (hj : j ≤ s.producer.count)
    (hc : (s.producer.stores j).2 ≤ c) : Indices { s with consumer := s.consumer.join j c } :=
  { hI with
    producer := hI.producer.other_join j c
    consumer := hI.consumer.join hj hc
    read_le := le_trans hI.read_le (Nat.le_max_left ..)
    busy := fun h => lt_of_lt_of_le (hI.busy h) (Nat.le_max_left ..) }

theorem load_consumer {j : ℕ} (hI : Indices s) (hj : s.consumer.Loads s.producer j) :
    Indices { s with consumer := s.consumer.acquire s.producer j } :=
  hI.join_consumer hj.2 le_rfl

theorem touch_producer (hI : Indices s) (i : Fin size) :
    Indices { s with producer := s.producer.touch i } :=
  { hI with producer := hI.producer.touch i, consumer := hI.consumer.other_touch i }

theorem touch_consumer (hI : Indices s) (i : Fin size) :
    Indices { s with consumer := s.consumer.touch i } :=
  { hI with producer := hI.producer.other_touch i, consumer := hI.consumer.touch i }

theorem publish {record : α} {c : Fin size} (hI : Indices s)
    (hw : s.writing = .publish record c) :
    Indices { s with producer := s.producer.store (nextRecord c), writing := .post } := by
  have hc := hI.currentWrite c (by rw [hw]; rfl)
  have hroom := hI.room (by rw [hw]; trivial)
  have hsem := hI.semView_le
  subst hc
  exact { hI with
    writes := hI.writes.store (nextRecord_slot _)
    producer := hI.producer.store _
    consumer := hI.consumer.other_store _
    round := hroom
    room := fun h => h.elim
    currentWrite := fun c hc => by cases hc
    semView_le := by
      dsimp only
      rw [Side.count_store]
      omega
    semSeen := by
      dsimp only
      rw [Side.stores_store _ _ hsem]
      exact hI.semSeen }

theorem retire {c : Fin size} (hI : Indices s) (hr : s.reading = .retire c) :
    Indices { s with consumer := s.consumer.store (nextRecord c), reading := .wait } := by
  have hc := hI.currentRead c (by rw [hr]; rfl)
  have hbusy := hI.busy (by rw [hr]; trivial)
  subst hc
  exact { hI with
    reads := hI.reads.store (nextRecord_slot _)
    producer := hI.producer.other_store _
    consumer := hI.consumer.store _
    read_le := hbusy
    busy := fun h => h.elim
    currentRead := fun c hc => by cases hc }

/-- What is posted is what has been stored. -/
theorem post (hI : Indices s) (hA : Accesses s) :
    Indices { s with semView := s.producer.count, semSeen := s.producer.clock } :=
  { hI with semView_le := le_rfl, semSeen := hA.built.stores_le _ le_rfl }

theorem moves (hI : Indices s) (hA : Accesses s) (h : Moves s a t) : Indices t := by
  cases h with
  | submit task hw => exact hI.goto_writing (fun h => h.elim) (fun c hc => by cases hc)
  | write record hw =>
    refine hI.goto_writing (fun h => h.elim) fun c hc => ?_
    cases hc
    exact hI.writes.value
  | @room record c j hw hj hroom =>
    have hc := hI.currentWrite c (by rw [hw]; rfl)
    refine (hI.load_producer hj).goto_writing (fun _ => ?_) fun c' hc' => ?_
    · have hlt := hI.roomy hj (by rw [← hc]; exact hroom)
      have := Nat.le_max_right s.producer.view j
      rw [Side.count_acquire, Side.view_acquire]
      omega
    · cases hc'
      exact hc
  | full hw hj hfull =>
    exact (hI.load_producer hj).goto_writing (fun h => h.elim) (fun c hc => by cases hc)
  | @construct record c hw =>
    have hgoto : Indices { s with writing := .publish record c } :=
      hI.goto_writing (fun _ => hI.room (by rw [hw]; trivial))
        fun c' hc' => hI.currentWrite c' (by rw [hw]; exact hc')
    exact { hgoto.touch_producer c with }
  | publish hw => exact { hI.publish hw with }
  | post hw =>
    exact { (hI.post hA).goto_writing (w := .idle) (fun h => h.elim)
      (fun c hc => by cases hc) with }
  | postOther => exact { hI with }
  | wait hr hsem =>
    have hjoin := hI.join_consumer hI.semView_le hI.semSeen
    exact { hjoin.goto_reading (r := .awake) (fun h => h.elim) (fun c hc => by cases hc) with }
  | resolve hr => exact hI.goto_reading (fun h => h.elim) (fun c hc => by cases hc)
  | repost hr =>
    exact { hI.goto_reading (r := .wait) (fun h => h.elim) (fun c hc => by cases hc) with }
  | empty hr hj hempty =>
    exact (hI.load_consumer hj).goto_reading (fun h => h.elim) (fun c hc => by cases hc)
  | @nonempty j hr hj hempty =>
    refine (hI.load_consumer hj).goto_reading (fun _ => ?_) (fun c hc => by cases hc)
    obtain ⟨hvj, hjw⟩ := hj
    have hread := hI.read_le
    have := Nat.le_max_right s.consumer.view j
    have hne : s.consumer.count ≠ j := by
      rintro rfl
      exact hempty (hI.reads.value.trans (hI.writes _ hjw).symm)
    rw [Side.count_acquire, Side.view_acquire]
    omega
  | frontPtr hr hj =>
    have hload := hI.load_consumer hj
    refine { hload.goto_reading (r := .run s.consumer.value) (fun _ => ?_) (fun c hc => ?_) with }
    · exact hload.busy (by rw [hr]; trivial)
    · cases hc
      exact hI.reads.value
  | run hr =>
    have hgoto : Indices { s with reading := .pop } :=
      hI.goto_reading (fun _ => hI.busy (by rw [hr]; trivial)) (fun c hc => by cases hc)
    exact { hgoto.touch_consumer _ with }
  | popFront hr hj =>
    have hload := hI.load_consumer hj
    refine { hload.goto_reading (r := .destroy s.consumer.value) (fun _ => ?_)
      (fun c hc => ?_) with }
    · exact hload.busy (by rw [hr]; trivial)
    · cases hc
      exact hI.reads.value
  | @destroy c hr =>
    have hgoto : Indices { s with reading := .retire c } :=
      hI.goto_reading (fun _ => hI.busy (by rw [hr]; trivial))
        fun c' hc' => hI.currentRead c' (by rw [hr]; exact hc')
    exact { hgoto.touch_consumer c with }
  | retire hr => exact hI.retire hr

end Indices

namespace Accesses

theorem moves (hI : Indices s) (hA : Accesses s) (h : Moves s a t) : Accesses t := by
  obtain ⟨hbuilt, hused⟩ := hA
  cases h with
  | submit task hw => exact ⟨by rwa [hw] at hbuilt, hused⟩
  | write record hw => exact ⟨by rwa [hw] at hbuilt, hused⟩
  | room hw hj hroom => exact ⟨by rw [hw] at hbuilt; exact hbuilt.acquire _, hused⟩
  | full hw hj hfull => exact ⟨by rw [hw] at hbuilt; exact hbuilt.acquire _, hused⟩
  | @construct record c hw =>
    obtain rfl := hI.currentWrite c (by rw [hw]; rfl)
    rw [hw] at hbuilt
    exact ⟨hbuilt.touch (Nat.le_succ _), hused⟩
  | publish hw => exact ⟨by rw [hw] at hbuilt; exact hbuilt.store _, hused⟩
  | post hw => exact ⟨by rwa [hw] at hbuilt, hused⟩
  | postOther => exact ⟨hbuilt, hused⟩
  | wait hr hsem => exact ⟨hbuilt, by rw [hr] at hused; exact hused.join _ _⟩
  | resolve hr => exact ⟨hbuilt, by rwa [hr] at hused⟩
  | repost hr => exact ⟨hbuilt, by rwa [hr] at hused⟩
  | empty hr hj hempty => exact ⟨hbuilt, by rw [hr] at hused; exact hused.acquire _⟩
  | nonempty hr hj hempty => exact ⟨hbuilt, by rw [hr] at hused; exact hused.acquire _⟩
  | frontPtr hr hj => exact ⟨hbuilt, by rw [hr] at hused; exact hused.acquire _⟩
  | @run c hr =>
    obtain rfl := hI.currentRead c (by rw [hr]; rfl)
    rw [hr] at hused
    exact ⟨hbuilt, hused.touch (Nat.le_succ _)⟩
  | popFront hr hj => exact ⟨hbuilt, by rw [hr] at hused; exact hused.acquire _⟩
  | @destroy c hr =>
    obtain rfl := hI.currentRead c (by rw [hr]; rfl)
    rw [hr] at hused
    exact ⟨hbuilt, hused.touch le_rfl⟩
  | retire hr => exact ⟨hbuilt, by rw [hr] at hused; exact hused.store _⟩

/-- **No race at the construction**: the worker is done with the slot. -/
theorem not_races_construct {record : α} {c : Fin size} (hI : Indices s) (hA : Accesses s)
    (hw : s.writing = .construct record c) : s.producer.races s.consumer c = false := by
  have hle := hI.used_le
  have hroom := hI.room (by rw [hw]; trivial)
  obtain rfl := hI.currentWrite c (by rw [hw]; rfl)
  refine hA.used.not_races hI.producer fun k hvk hk heq => ?_
  have := slot_inj (by omega) (by omega) heq
  omega

/-- **No race at the front**: the submitting thread is not a round ahead. -/
theorem not_races_front {c : Fin size} (hI : Indices s) (hA : Accesses s)
    (hr : s.reading.Busy) (hc : c = slot size s.consumer.count) :
    s.consumer.races s.producer c = false := by
  have hbusy := hI.busy hr
  have hview := hI.view_le
  have hround := hI.round
  have hroom := hI.room
  subst hc
  have hbuilt : s.producer.count + s.writing.built ≤ s.consumer.count + size := by
    unfold Writing.built
    split
    · next hw =>
      have := hroom (by rw [hw]; trivial)
      omega
    · omega
  refine hA.built.not_races hI.consumer fun k hvk hk heq => ?_
  have := slot_inj (by omega) (by omega) heq.symm
  omega

end Accesses

namespace Records

/-- The record at the front, until it is destroyed. -/
theorem front (hI : Indices s) (hR : Records s) (hbusy : s.reading.Busy)
    (hdead : s.reading.dead = 0) : ∃ record, s.submitted[s.consumer.count]? = some record ∧
      s.records (slot size s.consumer.count) = some record := by
  have hlt := hI.busy hbusy
  have hwrite := hI.write_le
  have hlen := hR.length
  have hlive := hR.live s.consumer.count (by omega) (by omega)
  rw [List.getElem?_eq_getElem (by omega)] at hlive ⊢
  exact ⟨_, rfl, hlive⟩

/-- The slot to be written to is raw. -/
theorem back {record : α} {c : Fin size} (hI : Indices s) (hR : Records s)
    (hw : s.writing = .construct record c) : s.records (slot size s.producer.count) = none := by
  have hroom := hI.room (by rw [hw]; trivial)
  have hview := hI.view_le
  refine hR.raw _ fun k hk hlt heq => ?_
  rw [hw] at hlt
  have hlt : k < s.producer.count := hlt
  have := slot_inj (by omega) (by omega) heq
  omega

/-- A step of the submitting thread that builds and publishes nothing. -/
theorem writes (hR : Records s) (producer : Side (Fin size) (Fin size)) (w : Writing size α)
    (hcount : producer.count = s.producer.count) (hbuilt : w.built = s.writing.built)
    (hzero : w.built = 0) : Records { s with producer := producer, writing := w } where
  length := by rw [hcount]; exact hR.length
  ran := hR.ran
  live k hk hlt := hR.live k hk (by rwa [hcount] at hlt)
  fresh record c hw := by
    rw [show w = .publish record c from hw] at hzero
    cases hzero
  raw i hi := hR.raw i fun k hk hlt => hi k hk (by rw [hcount, hbuilt]; exact hlt)

/-- One of the worker that uses and destroys nothing. -/
theorem reads (hR : Records s) (consumer : Side (Fin size) (Fin size)) (r : Reading size)
    (hcount : consumer.count + r.used = s.consumer.count + s.reading.used)
    (hdead : consumer.count + r.dead = s.consumer.count + s.reading.dead) :
    Records { s with consumer := consumer, reading := r } where
  length := hR.length
  ran := by rw [hcount]; exact hR.ran
  live k hk hlt := hR.live k (by rwa [hdead] at hk) hlt
  fresh := hR.fresh
  raw i hi := hR.raw i fun k hk hlt => hi k (by rwa [hdead]) hlt

/-- A record is constructed in the slot to be written to, -/
theorem construct {record : α} {c : Fin size} (hI : Indices s) (hR : Records s)
    (hw : s.writing = .construct record c) : Records { s with
      producer := s.producer.touch c
      records := Function.update s.records c (some record)
      writing := .publish record c } := by
  have hroom := hI.room (by rw [hw]; trivial)
  have hview := hI.view_le
  have hdead : s.consumer.count + s.reading.dead ≤ s.producer.count :=
    le_trans (Nat.add_le_add_left s.reading.dead_le_used _) hI.used_le
  have hraw := hR.raw
  obtain rfl := hI.currentWrite c (by rw [hw]; rfl)
  rw [hw] at hraw
  refine { hR with live := fun k hk hlt => ?_, fresh := ?_, raw := fun i hi => ?_ }
  · have hlt : k < s.producer.count := hlt
    have hk : s.consumer.count + s.reading.dead ≤ k := hk
    dsimp only
    rw [Function.update_of_ne fun heq => ?_]
    · exact hR.live k hk hlt
    · have := slot_inj (by omega) (by omega) heq
      omega
  · intro record' c' heq
    cases heq
    exact Function.update_self ..
  · dsimp only
    rw [Function.update_of_ne]
    · exact hraw i fun k hk hlt => hi k hk (Nat.lt_succ_of_lt hlt)
    · exact fun heq => hi s.producer.count hdead (Nat.lt_succ_self _) heq.symm

/-- and is the last one, once published. -/
theorem publish {record : α} {c : Fin size} (hI : Indices s) (hR : Records s)
    (hw : s.writing = .publish record c) : Records { s with
      producer := s.producer.store (nextRecord c)
      writing := .post
      submitted := s.submitted ++ [record] } := by
  have hlen := hR.length
  have hraw := hR.raw
  have hused := hI.used_le
  have hfresh := hR.fresh record c hw
  obtain rfl := hI.currentWrite c (by rw [hw]; rfl)
  rw [hw] at hraw
  refine { hR with length := ?_, ran := ?_, live := fun k hk hlt => ?_, fresh := ?_, raw := hraw }
  · dsimp only
    rw [List.length_append, hlen]
    rfl
  · dsimp only
    rw [List.take_append_of_le_length (by omega)]
    exact hR.ran
  · have hlt : k < s.producer.count + 1 := hlt
    rcases Nat.lt_or_ge k s.producer.count with hk' | hge
    · dsimp only
      rw [List.getElem?_append_left (by omega)]
      exact hR.live k hk hk'
    · obtain rfl : k = s.producer.count := by omega
      dsimp only
      rw [hfresh, ← hlen, List.getElem?_concat_length]
  · intro record' c' heq
    cases heq

/-- The task at the front is run, -/
theorem run {c : Fin size} (hI : Indices s) (hR : Records s) (hr : s.reading = .run c) :
    Records { s with
      consumer := s.consumer.touch c
      reading := .pop
      ran := s.ran ++ (s.records c).toList } := by
  have hran := hR.ran
  have hlive := hR.live
  have hraw := hR.raw
  obtain ⟨record, hsub, hrec⟩ := hR.front hI (by rw [hr]; trivial) (by rw [hr]; rfl)
  obtain rfl := hI.currentRead c (by rw [hr]; rfl)
  rw [hr] at hran hlive hraw
  refine { hR with ran := ?_, live := hlive, raw := hraw }
  dsimp only
  rw [hran, hrec, Option.toList_some]
  change s.submitted.take s.consumer.count ++ [record] =
    s.submitted.take (s.consumer.count + 1)
  rw [List.take_add_one, hsub, Option.toList_some]

/-- and its record destroyed. -/
theorem destroy {c : Fin size} (hI : Indices s) (hR : Records s) (hr : s.reading = .destroy c) :
    Records { s with
      consumer := s.consumer.touch c
      records := Function.update s.records c none
      reading := .retire c } := by
  have hran := hR.ran
  have hlive := hR.live
  have hraw := hR.raw
  have hround := hI.round
  have hroom := hI.room
  have hview := hI.view_le
  have hbusy := hI.busy (by rw [hr]; trivial)
  have hwrite := hI.write_le
  obtain rfl := hI.currentRead c (by rw [hr]; rfl)
  rw [hr] at hran hlive hraw
  refine { hR with ran := hran, live := fun k hk hlt => ?_, fresh := ?_, raw := fun i hi => ?_ }
  · have hk : s.consumer.count + 1 ≤ k := hk
    have hlt : k < s.producer.count := hlt
    dsimp only
    rw [Function.update_of_ne fun heq => ?_]
    · exact hlive k (Nat.le_of_lt hk) hlt
    · have := slot_inj (by omega) (by omega) heq.symm
      omega
  · intro record c' hw
    have hw : s.writing = .publish record c' := hw
    have hlt := hroom (by rw [hw]; trivial)
    obtain rfl := hI.currentWrite c' (by rw [hw]; rfl)
    dsimp only
    rw [Function.update_of_ne fun heq => ?_]
    · exact hR.fresh record _ hw
    · have := slot_inj (by omega) (by omega) heq.symm
      omega
  · dsimp only
    by_cases heq : i = slot size s.consumer.count
    · rw [heq, Function.update_self]
    · rw [Function.update_of_ne heq]
      refine hraw i fun k hk hlt hki => ?_
      rcases Nat.eq_or_lt_of_le hk with hk | hk
      · exact heq (by rw [← hki, ← hk]; rfl)
      · exact hi k hk hlt hki

theorem moves (hI : Indices s) (hR : Records s) (h : Moves s a t) : Records t := by
  cases h with
  | submit task hw => exact hR.writes _ _ rfl (by rw [hw]; rfl) rfl
  | write record hw => exact hR.writes _ _ rfl (by rw [hw]; rfl) rfl
  | room hw hj hroom => exact hR.writes _ _ rfl (by rw [hw]; rfl) rfl
  | full hw hj hfull => exact hR.writes _ _ rfl (by rw [hw]; rfl) rfl
  | construct hw => exact { hR.construct hI hw with }
  | publish hw => exact hR.publish hI hw
  | post hw =>
    exact { hR.writes s.producer .idle rfl (by rw [hw]; rfl) rfl with }
  | postOther => exact { hR with }
  | wait hr hsem =>
    exact { hR.reads (s.consumer.join s.semView s.semSeen) .awake
      (by rw [hr]; rfl) (by rw [hr]; rfl) with }
  | resolve hr => exact hR.reads _ _ (by rw [hr]; rfl) (by rw [hr]; rfl)
  | repost hr =>
    exact { hR.reads s.consumer .wait (by rw [hr]; rfl)
      (by rw [hr]; rfl) with }
  | empty hr hj hempty => exact hR.reads _ _ (by rw [hr]; rfl) (by rw [hr]; rfl)
  | nonempty hr hj hempty => exact hR.reads _ _ (by rw [hr]; rfl) (by rw [hr]; rfl)
  | @frontPtr j hr hj =>
    exact { hR.reads (s.consumer.acquire s.producer j) (.run s.consumer.value)
      (by rw [hr]; rfl) (by rw [hr]; rfl) with }
  | run hr => exact { hR.run hI hr with }
  | @popFront j hr hj =>
    exact { hR.reads (s.consumer.acquire s.producer j) (.destroy s.consumer.value)
      (by rw [hr]; rfl) (by rw [hr]; rfl) with }
  | destroy hr => exact { hR.destroy hI hr with }
  | retire hr => exact hR.reads _ _ (by rw [hr]; rfl) (by rw [hr]; rfl)

end Records

/-! ## Nothing goes wrong -/

/-- What holds of the queue and its two threads. -/
structure Sound (s : Ring size α) : Prop where
  indices : Indices s
  accesses : Accesses s
  records : Records s

namespace Sound

theorem init : Sound (init size : Ring size α) where
  indices :=
    { writes := .init rfl
      reads := .init rfl
      producer := .init _ _
      consumer := .init _ _
      read_le := le_rfl
      round := by simpa [Ring.init, Side.init] using Nat.pos_of_neZero size
      room := fun h => h.elim
      currentWrite := fun c hc => by cases hc
      busy := fun h => h.elim
      currentRead := fun c hc => by cases hc
      semView_le := le_rfl
      semSeen := le_rfl }
  accesses := ⟨.init _, .init _⟩
  records :=
    { length := rfl
      ran := rfl
      live := fun k _ hk => absurd hk (Nat.not_lt_zero k)
      fresh := fun _ _ h => by cases h
      raw := fun _ _ => rfl }

theorem moves (hS : Sound s) (h : Moves s a t) : Sound t :=
  ⟨hS.indices.moves hS.accesses h, hS.accesses.moves hS.indices h, hS.records.moves hS.indices h⟩

/-- **No step goes wrong.** -/
theorem not_faulty (hS : Sound s) (hgo : s.faulty = false) (h : Moves s a t) :
    t.faulty = false := by
  obtain ⟨hI, hA, hR⟩ := hS
  have hassert : ∀ j, s.reading.Busy → s.consumer.Loads s.producer j →
      (s.consumer.value == (s.producer.stores j).1) = false := fun j hbusy hj => by
    rw [beq_eq_false_iff_ne]
    exact hI.value_ne hj (hI.busy hbusy)
  cases h with
  | @construct record c hw =>
    have hraw := hR.back hI hw
    have hrace := hA.not_races_construct hI hw
    obtain rfl := hI.currentWrite c (by rw [hw]; rfl)
    dsimp only
    rw [hrace, hraw]
    rfl
  | frontPtr hr hj => exact hassert _ (by rw [hr]; trivial) hj
  | popFront hr hj => exact hassert _ (by rw [hr]; trivial) hj
  | @run c hr =>
    have hc := hI.currentRead c (by rw [hr]; rfl)
    obtain ⟨record, -, hrec⟩ := hR.front hI (by rw [hr]; trivial) (by rw [hr]; rfl)
    have hrace := hA.not_races_front hI (by rw [hr]; trivial) hc
    subst hc
    dsimp only
    rw [hrace, hrec]
    rfl
  | @destroy c hr =>
    have hc := hI.currentRead c (by rw [hr]; rfl)
    obtain ⟨record, -, hrec⟩ := hR.front hI (by rw [hr]; trivial) (by rw [hr]; rfl)
    have hrace := hA.not_races_front hI (by rw [hr]; trivial) hc
    subst hc
    dsimp only
    rw [hrace, hrec]
    rfl
  | _ => exact hgo

end Sound

theorem sound_of_run {as : List (RingAct α)} (h : (ring size α).run (init size) as = some s) :
    Sound s :=
  (ring size α).run_invariant (fun _ _ _ hS hst => hS.moves (moves_of_step hst).2) .init h

/-- **Nothing goes wrong.** Whatever the order in which the two threads go
on, and however late their loads are, no access to a record races with one
of the other thread, each record is constructed where none lives and used
and destroyed where it does, and the assertions hold. -/
theorem never_faulty {as : List (RingAct α)}
    (h : (ring size α).run (init size) as = some s) : s.faulty = false := by
  have hsound : Sound s ∧ s.faulty = false := (ring size α).run_invariant
    (I := fun s => Sound s ∧ s.faulty = false)
    (fun s a t hs hst => by
      obtain ⟨hgo, hmoves⟩ := moves_of_step hst
      exact ⟨hs.1.moves hmoves, hs.1.not_faulty hgo hmoves⟩)
    ⟨.init, rfl⟩ h
  exact hsound.2

/-- Two tasks and three slots. The worker is woken by another thread and
does not see the first task yet; the second is submitted while it runs the
first, by a thread that does not see the worker go on. -/
def lateActs : List (RingAct ℕ) :=
  [.submit 5, .write, .check 0, .construct, .publish, .postOther, .wait, .isEmpty 0, .post, .wait,
    .isEmpty 1, .frontPtr 1, .run, .submit 6, .write, .popFront 1, .destroy, .retire, .check 0,
    .construct, .publish, .post, .wait, .isEmpty 2, .frontPtr 2, .run, .popFront 2, .destroy,
    .retire]

theorem never_faulty_late :
    ∃ s, (ring 3 ℕ).run (init 3) lateActs = some s ∧ s.faulty = false := by
  have hsome : ((ring 3 ℕ).run (init 3) lateActs).isSome = true := by decide +kernel
  obtain ⟨s, hrun⟩ := Option.isSome_iff_exists.1 hsome
  exact ⟨s, hrun, never_faulty hrun⟩

/-! ## In order -/

/-- What is in memory. -/
def queue (s : Ring size α) : ProducerConsumerQueue size (Option α) where
  records := s.records
  readIndex := s.consumer.value
  writeIndex := s.producer.value

theorem iterate_nextRecord_slot (j k : ℕ) : nextRecord^[k] (slot size j) = slot size (j + k) := by
  induction k with
  | zero => rfl
  | succ k ih => rw [Function.iterate_succ_apply', ih, nextRecord_slot, Nat.add_assoc]

/-- `sizeGuess` of two indices less than a round apart. -/
theorem sizeGuess_slot (records : Fin size → Option α) {j k : ℕ} (hjk : j ≤ k)
    (hk : k < j + size) : ProducerConsumerQueue.sizeGuess
      { records := records, readIndex := slot size j, writeIndex := slot size k } = k - j := by
  have hval := ProducerConsumerQueue.iterate_nextRecord_val (slot size j) (k := k - j) (by omega)
  rw [iterate_nextRecord_slot, Nat.add_sub_cancel' hjk] at hval
  have hr := (slot size j).isLt
  unfold ProducerConsumerQueue.sizeGuess
  dsimp only
  split_ifs at hval ⊢ <;> omega

namespace Sound

theorem queue_eq (hS : Sound s) : s.queue =
    { records := s.records
      readIndex := slot size s.consumer.count
      writeIndex := slot size s.producer.count } := by
  unfold queue
  rw [hS.indices.reads.value, hS.indices.writes.value]

/-- As many as the indices say. -/
theorem sizeGuess_queue (hS : Sound s) :
    s.queue.sizeGuess = s.producer.count - s.consumer.count := by
  have hround := hS.indices.round
  have hview := hS.indices.view_le
  rw [hS.queue_eq]
  exact sizeGuess_slot _ hS.indices.le (by omega)

/-- **What is in memory is what was submitted and is not retired.** -/
theorem contents_queue (hS : Sound s) (hdead : s.reading.dead = 0) :
    s.queue.contents = (s.submitted.drop s.consumer.count).map some := by
  have hlen := hS.records.length
  have hle := hS.indices.le
  refine List.ext_getElem? fun i => ?_
  have hcontents : s.queue.contents = (List.range (s.producer.count - s.consumer.count)).map
      fun i => s.records (slot size (s.consumer.count + i)) := by
    unfold ProducerConsumerQueue.contents
    rw [hS.sizeGuess_queue, hS.queue_eq]
    simp only [iterate_nextRecord_slot]
  rw [hcontents, List.getElem?_map, List.getElem?_map, List.getElem?_drop]
  rcases Nat.lt_or_ge i (s.producer.count - s.consumer.count) with hi | hi
  · rw [List.getElem?_range hi, Option.map_some,
      hS.records.live (s.consumer.count + i) (by omega) (by omega),
      List.getElem?_eq_getElem (by omega)]
    rfl
  · rw [List.getElem?_eq_none (by rw [List.length_range]; omega),
      List.getElem?_eq_none (by omega)]
    rfl

end Sound

/-- **The tasks are run in the order of their submission**, each once: what
has been run is a prefix of what was submitted, the rest, less than `size_`,
is in memory in that order. -/
theorem runs_in_order {as : List (RingAct α)} (h : (ring size α).run (init size) as = some s) :
    s.ran <+: s.submitted ∧ s.submitted.length < s.ran.length + size ∧
      (s.reading.used = 0 → s.queue.contents = (s.submitted.drop s.ran.length).map some) := by
  have hS := sound_of_run h
  have hused := hS.indices.used_le
  have hround := hS.indices.round
  have hview := hS.indices.view_le
  have hlen := hS.records.length
  have hran : s.ran.length = s.consumer.count + s.reading.used := by
    rw [hS.records.ran, List.length_take]
    omega
  refine ⟨?_, by omega, fun hzero => ?_⟩
  · rw [hS.records.ran]
    exact List.take_prefix ..
  · have hdead := s.reading.dead_le_used
    rw [hS.contents_queue (by omega), hran, hzero, Nat.add_zero]

theorem runs_in_order_late :
    ∃ s, (ring 3 ℕ).run (init 3) lateActs = some s ∧ s.ran <+: s.submitted ∧
      s.submitted.length < s.ran.length + 3 ∧
      (s.reading.used = 0 → s.queue.contents = (s.submitted.drop s.ran.length).map some) := by
  have hsome : ((ring 3 ℕ).run (init 3) lateActs).isSome = true := by decide +kernel
  obtain ⟨s, hrun⟩ := Option.isSome_iff_exists.1 hsome
  exact ⟨s, hrun, runs_in_order hrun⟩

/-- **`sizeGuess` is off to one side.** With a late load the worker finds no
more than there are, and the submitting thread no fewer. -/
theorem sizeGuess_le_of_loads {as : List (RingAct α)} {j : ℕ}
    (h : (ring size α).run (init size) as = some s) :
    (s.consumer.Loads s.producer j → ProducerConsumerQueue.sizeGuess
        { s.queue with writeIndex := (s.producer.stores j).1 } ≤ s.queue.sizeGuess) ∧
      (s.producer.Loads s.consumer j → s.queue.sizeGuess ≤ ProducerConsumerQueue.sizeGuess
        { s.queue with readIndex := (s.consumer.stores j).1 }) := by
  have hS := sound_of_run h
  have hround := hS.indices.round
  have hview := hS.indices.view_le
  have hread := hS.indices.read_le
  rw [hS.sizeGuess_queue, hS.queue_eq]
  constructor
  · rintro ⟨hvj, hjw⟩
    dsimp only
    rw [hS.indices.writes j hjw, sizeGuess_slot _ (by omega) (by omega)]
    omega
  · rintro ⟨hvj, hjr⟩
    have hle := hS.indices.le
    dsimp only
    rw [hS.indices.reads j hjr, sizeGuess_slot _ (by omega) (by omega)]
    omega

theorem sizeGuess_le_of_loads_late :
    ∃ s, (ring 3 ℕ).run (init 3) (lateActs.take 7) = some s ∧ s.consumer.Loads s.producer 0 ∧
      (s.consumer.Loads s.producer 0 → ProducerConsumerQueue.sizeGuess
          { s.queue with writeIndex := (s.producer.stores 0).1 } ≤ s.queue.sizeGuess) ∧
        (s.producer.Loads s.consumer 0 → s.queue.sizeGuess ≤ ProducerConsumerQueue.sizeGuess
          { s.queue with readIndex := (s.consumer.stores 0).1 }) := by
  have hend : ((ring 3 ℕ).run (init 3) (lateActs.take 7)).map
      (fun s => decide (s.consumer.Loads s.producer 0)) = some true := by decide +kernel
  obtain ⟨s, hrun, hload⟩ := Option.map_eq_some_iff.1 hend
  exact ⟨s, hrun, of_decide_eq_true hload, sizeGuess_le_of_loads hrun⟩

/-! ## No task is left behind -/

/-- **The tokens.** There is one for each task that is not retired, and a
worker that has taken one has seen every task it may stand for. -/
structure Tokens (s : Ring size α) : Prop where
  posted : s.semView + s.writing.unposted = s.producer.count
  awake : s.reading = .awake →
    s.producer.count ≤ s.consumer.view + s.sem + s.writing.unposted
  enough : s.producer.count ≤
    s.consumer.count + s.sem + s.writing.unposted + s.reading.token

namespace Tokens

theorem init : Tokens (init size : Ring size α) := ⟨rfl, fun _ => Nat.zero_le _, Nat.zero_le _⟩

omit [NeZero size] in
/-- A step of the submitting thread that neither publishes nor posts. -/
theorem writes (hT : Tokens s) (producer : Side (Fin size) (Fin size)) (w : Writing size α)
    (hcount : producer.count = s.producer.count) (hw : w.unposted = s.writing.unposted) :
    Tokens { s with producer := producer, writing := w } where
  posted := by rw [hcount, hw]; exact hT.posted
  awake hr := by rw [hcount, hw]; exact hT.awake hr
  enough := by rw [hcount, hw]; exact hT.enough

omit [NeZero size] in
/-- One of the worker that keeps its token. -/
theorem reads (hT : Tokens s) (consumer : Side (Fin size) (Fin size)) (r : Reading size)
    (hcount : consumer.count = s.consumer.count) (hr : r ≠ .awake)
    (htoken : r.token = s.reading.token) :
    Tokens { s with consumer := consumer, reading := r } where
  posted := hT.posted
  awake h := absurd h hr
  enough := by rw [hcount, htoken]; exact hT.enough

theorem moves (hI : Indices s) (hT : Tokens s) (h : Moves s a t) : Tokens t := by
  have hposted := hT.posted
  have hawake := hT.awake
  have henough := hT.enough
  cases h with
  | submit task hw => exact hT.writes _ _ rfl (by rw [hw]; rfl)
  | write record hw => exact hT.writes _ _ rfl (by rw [hw]; rfl)
  | room hw hj hroom => exact hT.writes _ _ rfl (by rw [hw]; rfl)
  | full hw hj hfull => exact hT.writes _ _ rfl (by rw [hw]; rfl)
  | @construct record c hw =>
    exact { hT.writes (s.producer.touch c) (.publish record c) rfl
      (by rw [hw]; rfl) with }
  | publish hw =>
    -- one more task, for which no token is posted
    simp only [hw, Writing.unposted] at hposted hawake henough
    refine ⟨?_, fun hr => ?_, ?_⟩
    · dsimp only
      rw [Side.count_store, Writing.unposted, ← hposted]
    · have := hawake hr
      dsimp only
      rw [Side.count_store, Writing.unposted]
      omega
    · dsimp only
      rw [Side.count_store, Writing.unposted]
      omega
  | post hw =>
    simp only [hw, Writing.unposted] at hposted hawake henough
    refine ⟨rfl, fun hr => ?_, ?_⟩
    · have := hawake hr
      dsimp only [Writing.unposted]
      omega
    · dsimp only [Writing.unposted]
      omega
  | postOther =>
    refine ⟨hposted, fun hr => ?_, ?_⟩
    · have := hawake hr
      dsimp only
      omega
    · dsimp only
      omega
  | wait hr hsem =>
    -- all that was posted for has been seen
    simp only [hr, Reading.token] at henough
    refine ⟨hposted, fun _ => ?_, ?_⟩
    · have := Nat.le_max_right s.consumer.view s.semView
      dsimp only
      rw [Side.view_join]
      omega
    · dsimp only [Reading.token]
      rw [Side.count_join]
      omega
  | resolve hr => exact hT.reads _ _ rfl (by simp) (by rw [hr]; rfl)
  | repost hr =>
    simp only [hr, Reading.token] at henough
    refine ⟨hposted, fun h => (by cases h), ?_⟩
    dsimp only [Reading.token]
    omega
  | @empty j hr hj hempty =>
    -- all that has been seen is retired
    have hle := hawake hr
    have hvalue : s.consumer.count = j := by
      have hround := hI.round
      have hview := hI.view_le
      have hread := hI.read_le
      obtain ⟨hvj, hjw⟩ := hj
      rw [hI.reads.value, hI.writes j hjw] at hempty
      exact slot_inj (by omega) (by omega) hempty
    obtain ⟨hvj, -⟩ := hj
    refine ⟨hposted, fun h => (by cases h), ?_⟩
    dsimp only [Reading.token]
    rw [Side.count_acquire]
    omega
  | nonempty hr hj hempty => exact hT.reads _ _ rfl (by simp) (by rw [hr]; rfl)
  | @frontPtr j hr hj =>
    exact { hT.reads (s.consumer.acquire s.producer j) (.run s.consumer.value)
      rfl (by simp) (by rw [hr]; rfl) with }
  | @run c hr =>
    exact { hT.reads (s.consumer.touch c) .pop rfl (by simp)
      (by rw [hr]; rfl) with }
  | @popFront j hr hj =>
    exact { hT.reads (s.consumer.acquire s.producer j) (.destroy s.consumer.value) rfl (by simp)
      (by rw [hr]; rfl) with }
  | @destroy c hr =>
    exact { hT.reads (s.consumer.touch c) (.retire c) rfl (by simp)
      (by rw [hr]; rfl) with }
  | retire hr =>
    simp only [hr, Reading.token] at henough
    refine ⟨hposted, fun h => (by cases h), ?_⟩
    dsimp only [Reading.token]
    rw [Side.count_store]
    omega

end Tokens

theorem tokens_of_run {as : List (RingAct α)} (h : (ring size α).run (init size) as = some s) :
    Tokens s := by
  have hsound : Sound s ∧ Tokens s := (ring size α).run_invariant
    (I := fun s => Sound s ∧ Tokens s)
    (fun s a t hs hst => by
      obtain ⟨-, hmoves⟩ := moves_of_step hst
      exact ⟨hs.1.moves hmoves, hs.2.moves hs.1.indices hmoves⟩)
    ⟨.init, .init⟩ h
  exact hsound.2

/-- A worker that does not wait can go on. -/
theorem exists_reader (hI : Indices s) (hr : s.reading ≠ .wait) :
    ∃ a t, a ≠ .postOther ∧ s.reader a = some t := by
  have hload : s.consumer.Loads s.producer s.producer.count := ⟨hI.write_le, le_rfl⟩
  unfold reader
  cases h : s.reading with
  | wait => exact absurd h hr
  | awake => exact ⟨.resolve, _, by simp, rfl⟩
  | repost => exact ⟨.repost, _, by simp, rfl⟩
  | front => exact ⟨.frontPtr s.producer.count, _, by simp, if_pos hload⟩
  | run c => exact ⟨.run, _, by simp, rfl⟩
  | pop => exact ⟨.popFront s.producer.count, _, by simp, if_pos hload⟩
  | destroy c => exact ⟨.destroy, _, by simp, rfl⟩
  | retire c => exact ⟨.retire, _, by simp, rfl⟩

/-- **It cannot go on just where it waits and there is no token.** -/
theorem stuck_iff (hI : Indices s) :
    (∀ a, a ≠ .postOther → s.reader a = none) ↔ s.reading = .wait ∧ s.sem = 0 := by
  constructor
  · intro h
    have hr : s.reading = .wait := by
      by_contra hr
      obtain ⟨a, t, ha, hst⟩ := exists_reader hI hr
      rw [h a ha] at hst
      cases hst
    refine ⟨hr, ?_⟩
    by_contra hsem
    have hwait := h .wait (by simp)
    unfold reader at hwait
    rw [hr] at hwait
    dsimp only at hwait
    rw [if_pos (by omega)] at hwait
    cases hwait
  · rintro ⟨hr, hsem⟩ a ha
    unfold reader
    rw [hr, hsem]
    cases a with
    | postOther => exact absurd rfl ha
    | _ => rfl

/-- **No task is left behind.** Where the worker cannot go on, and the
submitting thread is not about to post, every task that was submitted has
been run, though `isEmpty` may have been true of a queue with tasks in it. -/
theorem no_lost_wakeup {as : List (RingAct α)} (h : (ring size α).run (init size) as = some s)
    (hw : s.writing ≠ .post) (hstuck : ∀ a, a ≠ .postOther → s.reader a = none) :
    s.ran = s.submitted := by
  have hS := sound_of_run h
  obtain ⟨hr, hsem⟩ := (stuck_iff hS.indices).1 hstuck
  have henough := (tokens_of_run h).enough
  have hunposted : s.writing.unposted = 0 := by
    unfold Writing.unposted
    split
    · next hpost => exact absurd hpost hw
    · rfl
  have hran := hS.records.ran
  have hlen := hS.records.length
  rw [hr, hsem, hunposted, Reading.token] at henough
  rw [hran, hr]
  exact List.take_of_length_le (by dsimp only [Reading.used]; omega)

theorem no_lost_wakeup_late :
    ∃ s, (ring 3 ℕ).run (init 3) lateActs = some s ∧ s.ran = s.submitted := by
  have hend : ((ring 3 ℕ).run (init 3) lateActs).map
      (fun s => (s.writing, s.reading, s.sem)) = some (.idle, .wait, 0) := by decide +kernel
  obtain ⟨s, hrun, hs⟩ := Option.map_eq_some_iff.1 hend
  simp only [Prod.mk.injEq] at hs
  obtain ⟨hw, hr, hsem⟩ := hs
  have hstuck := (stuck_iff (sound_of_run hrun).indices).2 ⟨hr, hsem⟩
  exact ⟨s, hrun, no_lost_wakeup hrun (by rw [hw]; simp) hstuck⟩

end Ring

end Contentious.Pool
