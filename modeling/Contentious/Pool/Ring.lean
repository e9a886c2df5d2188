import Contentious.Common.Machine
import Contentious.Common.Release
import Contentious.Pool.Queue

/-!
# Pool — a worker's queue, under release and acquire

`tasks[p]` has one producer, the thread that submits, and one consumer,
worker `p`, and no lock: what one does to the records the other learns of
through the two indices, each stored with release order by its owner and
loaded with acquire order by the other, and through the worker's semaphore.
A load may be late, so `isEmpty` can be true of a queue that is not empty
and `write` can fail on one that is not full. Here the two threads go on
one access at a time, in any order and with any such loads.

What can go wrong is noted in `faulty`: an access that races with one of
the other thread, a record constructed over one that lives or used when it
does not, an assertion that fails. What the worker does in a task, and what
it does at a resolution but for its tokens, is not here.
-/

namespace Contentious.Pool

open ProducerConsumerQueue (nextRecord)

/-- Where the submitting thread is, in `submit`. -/
inductive Writing (size : ℕ) (α : Type)
  /-- outside -/
  | idle
  /-- in `write`, at the load of `writeIndex_` -/
  | write (record : α)
  /-- at the load of `readIndex_` -/
  | check (record : α) (currentWrite : Fin size)
  /-- at the construction of the record -/
  | construct (record : α) (currentWrite : Fin size)
  /-- at the store to `writeIndex_` -/
  | publish (record : α) (currentWrite : Fin size)
  /-- `sems[p].post()` -/
  | post
deriving DecidableEq

/-- Where the worker is. -/
inductive Reading (size : ℕ)
  /-- `sems[p].wait()` -/
  | wait
  /-- back from it: a resolution, or `tasks[p].isEmpty()` -/
  | awake
  /-- after a resolution, the post to itself -/
  | repost
  /-- `tasks[p].frontPtr()` -/
  | front
  /-- `(*task)()` -/
  | run (currentRead : Fin size)
  /-- `tasks[p].popFront()`, at the load that is asserted of -/
  | pop
  /-- at the destructor of the record -/
  | destroy (currentRead : Fin size)
  /-- at the store to `readIndex_` -/
  | retire (currentRead : Fin size)
deriving DecidableEq

/-- `tasks[p]`, `sems[p]` and the two threads. What a token of the
semaphore carries is how far the submitting thread had come when it last
posted. The last two fields are the history. -/
structure Ring (size : ℕ) (α : Type) where
  producer : Side (Fin size) (Fin size)
  consumer : Side (Fin size) (Fin size)
  records : Fin size → Option α
  writing : Writing size α
  reading : Reading size
  sem : ℕ
  semView : ℕ
  semSeen : ℕ
  faulty : Bool
  submitted : List α
  ran : List α

/-- A thread goes on. A load of the other's index returns the value of one
of its stores. -/
inductive RingAct (α : Type)
  | submit (task : α)
  /-- the load of `writeIndex_` -/
  | write
  /-- the load of `readIndex_` -/
  | check (j : ℕ)
  | construct
  | publish
  | post
  /-- a post by another thread, in `submitr` or after a resolution -/
  | postOther
  | wait
  /-- the worker runs a resolution -/
  | resolve
  | repost
  | isEmpty (j : ℕ)
  | frontPtr (j : ℕ)
  | run
  /-- the load in the assertion of `popFront` -/
  | popFront (j : ℕ)
  | destroy
  | retire

namespace Ring

variable {size : ℕ} {α : Type}

/-- The steps of the submitting thread. -/
def writer (s : Ring size α) : RingAct α → Option (Ring size α)
  | .submit task =>
    match s.writing with
    | .idle => some { s with writing := .write task }
    | _ => none
  | .write =>
    match s.writing with
    | .write record => some { s with writing := .check record s.producer.value }
    | _ => none
  | .check j =>
    match s.writing with
    | .check record currentWrite =>
      if s.producer.Loads s.consumer j then
        some { s with
          producer := s.producer.acquire s.consumer j
          writing :=
            -- where the queue is full `write` returns false, and `submit` calls it again
            if nextRecord currentWrite ≠ (s.consumer.stores j).1 then
              .construct record currentWrite
            else .write record }
      else none
    | _ => none
  | .construct =>
    match s.writing with
    | .construct record currentWrite => some { s with
        producer := s.producer.touch currentWrite
        records := Function.update s.records currentWrite (some record)
        writing := .publish record currentWrite
        faulty := s.producer.races s.consumer currentWrite || (s.records currentWrite).isSome }
    | _ => none
  | .publish =>
    match s.writing with
    | .publish record currentWrite => some { s with
        producer := s.producer.store (nextRecord currentWrite)
        writing := .post
        submitted := s.submitted ++ [record] }
    | _ => none
  | .post =>
    match s.writing with
    | .post => some { s with
        writing := .idle
        sem := s.sem + 1
        semView := s.producer.count
        semSeen := s.producer.clock }
    | _ => none
  | _ => none

/-- The steps of the worker, and the posts of others to it. -/
def reader (s : Ring size α) : RingAct α → Option (Ring size α)
  | .postOther => some { s with sem := s.sem + 1 }
  | .wait =>
    match s.reading with
    | .wait =>
      if 0 < s.sem then
        some { s with
          consumer := s.consumer.join s.semView s.semSeen
          reading := .awake
          sem := s.sem - 1 }
      else none
    | _ => none
  | .resolve =>
    match s.reading with
    | .awake => some { s with reading := .repost }
    | _ => none
  | .repost =>
    match s.reading with
    | .repost => some { s with reading := .wait, sem := s.sem + 1 }
    | _ => none
  | .isEmpty j =>
    match s.reading with
    | .awake =>
      if s.consumer.Loads s.producer j then
        some { s with
          consumer := s.consumer.acquire s.producer j
          reading := if s.consumer.value = (s.producer.stores j).1 then .wait else .front }
      else none
    | _ => none
  | .frontPtr j =>
    match s.reading with
    | .front =>
      if s.consumer.Loads s.producer j then
        some { s with
          consumer := s.consumer.acquire s.producer j
          reading := .run s.consumer.value
          -- `assert(task)`
          faulty := s.consumer.value == (s.producer.stores j).1 }
      else none
    | _ => none
  | .run =>
    match s.reading with
    | .run currentRead => some { s with
        consumer := s.consumer.touch currentRead
        reading := .pop
        ran := s.ran ++ (s.records currentRead).toList
        faulty := s.consumer.races s.producer currentRead || (s.records currentRead).isNone }
    | _ => none
  | .popFront j =>
    match s.reading with
    | .pop =>
      if s.consumer.Loads s.producer j then
        some { s with
          consumer := s.consumer.acquire s.producer j
          reading := .destroy s.consumer.value
          -- `assert(currentRead != writeIndex_.load(..))`
          faulty := s.consumer.value == (s.producer.stores j).1 }
      else none
    | _ => none
  | .destroy =>
    match s.reading with
    | .destroy currentRead => some { s with
        consumer := s.consumer.touch currentRead
        records := Function.update s.records currentRead none
        reading := .retire currentRead
        faulty := s.consumer.races s.producer currentRead || (s.records currentRead).isNone }
    | _ => none
  | .retire =>
    match s.reading with
    | .retire currentRead => some { s with
        consumer := s.consumer.store (nextRecord currentRead)
        reading := .wait }
    | _ => none
  | _ => none

/-- One step of either, while nothing has gone wrong. -/
def step (s : Ring size α) (a : RingAct α) : Option (Ring size α) :=
  if s.faulty then none
  else match a with
    | .submit _ | .write | .check _ | .construct | .publish | .post => s.writer a
    | _ => s.reader a

/-- The queue as constructed: no record lives. -/
def init (size : ℕ) [NeZero size] : Ring size α where
  producer := .init 0
  consumer := .init 0
  records _ := none
  writing := .idle
  reading := .wait
  sem := 0
  semView := 0
  semSeen := 0
  faulty := false
  submitted := []
  ran := []

end Ring

/-- The two threads on the queue. -/
def ring (size : ℕ) (α : Type) : Machine (Ring size α) (RingAct α) where
  step := Ring.step

namespace Ring

variable {size : ℕ} {α : Type}

/-! ## The steps -/

/-- What a step can do. -/
inductive Moves (s : Ring size α) : RingAct α → Ring size α → Prop
  | submit (task : α) (hw : s.writing = .idle) :
      Moves s (.submit task) { s with writing := .write task }
  | write (record : α) (hw : s.writing = .write record) :
      Moves s .write { s with writing := .check record s.producer.value }
  | room {record : α} {c : Fin size} {j : ℕ} (hw : s.writing = .check record c)
      (hj : s.producer.Loads s.consumer j) (hroom : nextRecord c ≠ (s.consumer.stores j).1) :
      Moves s (.check j) { s with
        producer := s.producer.acquire s.consumer j
        writing := .construct record c }
  | full {record : α} {c : Fin size} {j : ℕ} (hw : s.writing = .check record c)
      (hj : s.producer.Loads s.consumer j) (hfull : nextRecord c = (s.consumer.stores j).1) :
      Moves s (.check j) { s with
        producer := s.producer.acquire s.consumer j
        writing := .write record }
  | construct {record : α} {c : Fin size} (hw : s.writing = .construct record c) :
      Moves s .construct { s with
        producer := s.producer.touch c
        records := Function.update s.records c (some record)
        writing := .publish record c
        faulty := s.producer.races s.consumer c || (s.records c).isSome }
  | publish {record : α} {c : Fin size} (hw : s.writing = .publish record c) :
      Moves s .publish { s with
        producer := s.producer.store (nextRecord c)
        writing := .post
        submitted := s.submitted ++ [record] }
  | post (hw : s.writing = .post) :
      Moves s .post { s with
        writing := .idle
        sem := s.sem + 1
        semView := s.producer.count
        semSeen := s.producer.clock }
  | postOther : Moves s .postOther { s with sem := s.sem + 1 }
  | wait (hr : s.reading = .wait) (hsem : 0 < s.sem) :
      Moves s .wait { s with
        consumer := s.consumer.join s.semView s.semSeen
        reading := .awake
        sem := s.sem - 1 }
  | resolve (hr : s.reading = .awake) : Moves s .resolve { s with reading := .repost }
  | repost (hr : s.reading = .repost) :
      Moves s .repost { s with reading := .wait, sem := s.sem + 1 }
  | empty {j : ℕ} (hr : s.reading = .awake) (hj : s.consumer.Loads s.producer j)
      (hempty : s.consumer.value = (s.producer.stores j).1) :
      Moves s (.isEmpty j) { s with
        consumer := s.consumer.acquire s.producer j
        reading := .wait }
  | nonempty {j : ℕ} (hr : s.reading = .awake) (hj : s.consumer.Loads s.producer j)
      (hempty : s.consumer.value ≠ (s.producer.stores j).1) :
      Moves s (.isEmpty j) { s with
        consumer := s.consumer.acquire s.producer j
        reading := .front }
  | frontPtr {j : ℕ} (hr : s.reading = .front) (hj : s.consumer.Loads s.producer j) :
      Moves s (.frontPtr j) { s with
        consumer := s.consumer.acquire s.producer j
        reading := .run s.consumer.value
        faulty := s.consumer.value == (s.producer.stores j).1 }
  | run {c : Fin size} (hr : s.reading = .run c) :
      Moves s .run { s with
        consumer := s.consumer.touch c
        reading := .pop
        ran := s.ran ++ (s.records c).toList
        faulty := s.consumer.races s.producer c || (s.records c).isNone }
  | popFront {j : ℕ} (hr : s.reading = .pop) (hj : s.consumer.Loads s.producer j) :
      Moves s (.popFront j) { s with
        consumer := s.consumer.acquire s.producer j
        reading := .destroy s.consumer.value
        faulty := s.consumer.value == (s.producer.stores j).1 }
  | destroy {c : Fin size} (hr : s.reading = .destroy c) :
      Moves s .destroy { s with
        consumer := s.consumer.touch c
        records := Function.update s.records c none
        reading := .retire c
        faulty := s.consumer.races s.producer c || (s.records c).isNone }
  | retire {c : Fin size} (hr : s.reading = .retire c) :
      Moves s .retire { s with
        consumer := s.consumer.store (nextRecord c)
        reading := .wait }

variable {s t : Ring size α} {a : RingAct α}

theorem moves_of_writer (h : s.writer a = some t) : Moves s a t := by
  unfold writer at h
  cases a <;> dsimp only at h
  case submit task =>
    split at h <;> cases h
    next hw => exact .submit task hw
  case write =>
    split at h <;> cases h
    next record hw => exact .write record hw
  case check j =>
    split at h <;> try cases h
    next record c hw =>
    split at h <;> cases h
    next hj =>
    split
    · next hroom => exact .room hw hj hroom
    · next hfull => exact .full hw hj (not_not.1 hfull)
  case construct =>
    split at h <;> cases h
    next hw => exact .construct hw
  case publish =>
    split at h <;> cases h
    next hw => exact .publish hw
  case post =>
    split at h <;> cases h
    next hw => exact .post hw
  all_goals cases h

theorem moves_of_reader (h : s.reader a = some t) : Moves s a t := by
  unfold reader at h
  cases a <;> dsimp only at h
  case postOther =>
    cases h
    exact .postOther
  case wait =>
    split at h <;> try cases h
    next hr =>
    split at h <;> cases h
    next hsem => exact .wait hr hsem
  case resolve =>
    split at h <;> cases h
    next hr => exact .resolve hr
  case repost =>
    split at h <;> cases h
    next hr => exact .repost hr
  case isEmpty j =>
    split at h <;> try cases h
    next hr =>
    split at h <;> cases h
    next hj =>
    split
    · next hempty => exact .empty hr hj hempty
    · next hempty => exact .nonempty hr hj hempty
  case frontPtr j =>
    split at h <;> try cases h
    next hr =>
    split at h <;> cases h
    next hj => exact .frontPtr hr hj
  case run =>
    split at h <;> cases h
    next hr => exact .run hr
  case popFront j =>
    split at h <;> try cases h
    next hr =>
    split at h <;> cases h
    next hj => exact .popFront hr hj
  case destroy =>
    split at h <;> cases h
    next hr => exact .destroy hr
  case retire =>
    split at h <;> cases h
    next hr => exact .retire hr
  all_goals cases h

/-- A step is one of these, and nothing had gone wrong before it. -/
theorem moves_of_step (h : step s a = some t) : s.faulty = false ∧ Moves s a t := by
  unfold step at h
  split at h
  · cases h
  · next hgo =>
    refine ⟨by simpa using hgo, ?_⟩
    split at h
    · exact moves_of_writer h
    · exact moves_of_writer h
    · exact moves_of_writer h
    · exact moves_of_writer h
    · exact moves_of_writer h
    · exact moves_of_writer h
    · exact moves_of_reader h

end Ring

end Contentious.Pool
