import Contentious.Common.Machine
import Contentious.Pool.LifoHead
import Mathlib.Logic.Function.Basic

/-!
# Pool — the semaphores of the workers

`folly::LifoSem`: a value, or the stack of those who wait for one, behind
one word that is swapped. A post adds to the value, or pops a waiter and
hands the unit to it; a wait takes from the value, or pushes a node of its
own and waits for that node to be posted. What a thread reads or writes of
the word, of a node or of a handoff is one step, and other threads' steps
come in between: a popping thread has read the word and then the next
pointer of a node that may long be another waiter's when it swaps.

Nodes come from a pool that other semaphores use as well and write to. The
wait of a handoff (a `Baton`) returns once it is posted.
-/

namespace Contentious.Pool

/-- `LifoSemNode`, and whether a waiter of this semaphore has it. -/
structure WaitNode where
  next : BitVec 32
  /-- its `Handoff` is posted -/
  posted : Bool
  used : Bool

/-- Where a thread is. `since` is what the count of changes was when the
head was read. -/
inductive LifoPc
  | idle
  /-- `incrOrPop(n)`, at `head_.load` -/
  | incrOrPop (n : BitVec 32)
  /-- at `node.next`, of the node that `head` names -/
  | popNext (n : BitVec 32) (head : LifoSemHead) (since : ℕ)
  /-- at the swap for `head.withPop(next)` -/
  | pop (n : BitVec 32) (head : LifoSemHead) (next : BitVec 32) (since : ℕ)
  /-- at the swap for `head.withValueIncr(n)` -/
  | incr (n : BitVec 32) (head : LifoSemHead)
  /-- `idxToNode(idx).handoff().post()` -/
  | handOff (n idx : BitVec 32)
  /-- `decrOrPush(n, idx)`, at `head_.load`, in `wait` or in `tryWait` -/
  | decrOrPush (waits : Bool) (n idx : BitVec 32)
  /-- at the swap for `head.withValueDecr(delta)` -/
  | decr (waits : Bool) (n idx : BitVec 32) (head : LifoSemHead)
  /-- `allocateNode()` -/
  | allocateNode
  /-- at `node.next = …` -/
  | link (idx : BitVec 32) (head : LifoSemHead)
  /-- at the swap for `head.withPush(idx)` -/
  | push (idx : BitVec 32) (head : LifoSemHead)
  /-- `node->handoff().wait()` -/
  | wait (idx : BitVec 32)
  /-- `node->isShutdownNotice()` -/
  | woken (idx : BitVec 32)
  /-- the push was refused: about to throw -/
  | refused (idx : BitVec 32)
  /-- the node goes back to the pool, and `wait` returns or throws -/
  | recycle (idx : BitVec 32)
  /-- `shutdown()`, at `head_.load` -/
  | shutdown
  /-- at the swap for `h.withShutdown()` -/
  | setShutdown (h : LifoSemHead)
  /-- `while (h.isNodeIdx())`, at `node.next` -/
  | wake (h : LifoSemHead) (since : ℕ)
  /-- at the swap for `h.withPop(node.next)` -/
  | wakePop (h : LifoSemHead) (next : BitVec 32) (since : ℕ)
  /-- `node.setShutdownNotice()` -/
  | notice (idx : BitVec 32) (h : LifoSemHead) (since : ℕ)
  /-- `node.handoff().post()` -/
  | wakePost (idx : BitVec 32) (h : LifoSemHead) (since : ℕ)
deriving DecidableEq

/-- The semaphore, the nodes and the threads `ι`. The fields from `ticks` on
are its history: how often the word was changed other than by a push, the
units that were posted and taken, the nodes that units were handed to and
whose waiters have not taken them, and whether a `shutdown` has returned and
an assertion has failed. -/
structure LifoSem (ι : Type) where
  head : LifoSemHead
  node : BitVec 32 → WaitNode
  pc : ι → LifoPc
  ticks : ℕ
  posted : ℕ
  taken : ℕ
  flying : List (BitVec 32)
  down : Bool
  failed : Bool

/-- What happens next. -/
inductive LifoAct (ι : Type)
  | post (p : ι) (n : BitVec 32)
  | tryWait (p : ι) (n : BitVec 32)
  | wait (p : ι)
  | shutdown (p : ι)
  /-- thread `p` goes on; `idx` is what `allocIndex` gives it -/
  | next (p : ι) (idx : BitVec 32)
  /-- a node that is not in use here is written to -/
  | other (idx next : BitVec 32)

namespace LifoSemHead

/-- `head.isNodeIdx() ? head.idx() : 0` -/
def first (h : LifoSemHead) : BitVec 32 := if h.isNodeIdx then h.data else 0

/-- `valueGuess()` -/
def value (h : LifoSemHead) : BitVec 32 := if h.isNodeIdx then 0 else h.data

/-- `std::min(n, head.value())` -/
def delta (h : LifoSemHead) (n : BitVec 32) : BitVec 32 := if n ≤ h.data then n else h.data

end LifoSemHead

variable {ι : Type} [DecidableEq ι]

namespace LifoSem

/-- Thread `p` goes on at `c`. -/
def goto (s : LifoSem ι) (p : ι) (c : LifoPc) : LifoSem ι :=
  { s with pc := Function.update s.pc p c }

/-- The head is swapped, and its count goes up. -/
def swap (s : LifoSem ι) (h : LifoSemHead) : LifoSem ι :=
  { s with head := h, ticks := s.ticks + 1 }

def setNode (s : LifoSem ι) (i : BitVec 32) (nd : WaitNode) : LifoSem ι :=
  { s with node := Function.update s.node i nd }

/-- `node.next = next` -/
def setNext (s : LifoSem ι) (i next : BitVec 32) : LifoSem ι :=
  s.setNode i { s.node i with next := next }

/-- `handoff().post()` -/
def postNode (s : LifoSem ι) (i : BitVec 32) : LifoSem ι :=
  s.setNode i { s.node i with posted := true }

/-- The value is swapped for more, -/
def incr (s : LifoSem ι) (h : LifoSemHead) (n : ℕ) : LifoSem ι :=
  { s.swap h with posted := s.posted + n }

/-- and for less. -/
def decr (s : LifoSem ι) (h : LifoSemHead) (n : ℕ) : LifoSem ι :=
  { s.swap h with taken := s.taken + n }

/-- The node on top is swapped out, and is owed a unit. -/
def owe (s : LifoSem ι) (h : LifoSemHead) (i : BitVec 32) : LifoSem ι :=
  { s.swap h with
    posted := s.posted + 1
    flying := i :: s.flying }

/-- Where `shutdown` goes on with what it has read. -/
def afterLoad (s : LifoSem ι) : LifoPc :=
  if s.head.isShutdown then .wake s.head s.ticks else .setShutdown s.head

/-- **A step that writes nothing**: a load, a read, a swap that fails, and
where the thread goes on. -/
def reads (s : LifoSem ι) : LifoPc → Option LifoPc
  | .incrOrPop n =>
    some (if s.head.isNodeIdx then .popNext n s.head s.ticks else .incr n s.head)
  | .popNext n head since => some (.pop n head (s.node head.data).next since)
  | .pop n head _ _ => if s.head = head then none else some (.incrOrPop n)
  | .incr n head => if s.head = head then none else some (.incrOrPop n)
  | .decrOrPush waits n idx =>
    some
      (if !s.head.isNodeIdx && s.head.data != 0 then .decr waits n idx s.head
      else if idx = 0 then if waits then .allocateNode else .idle
      else if s.head.isShutdown then .refused idx
      else .link idx s.head)
  | .decr waits n idx head => if s.head = head then none else some (.decrOrPush waits n idx)
  | .push idx head => if s.head = head then none else some (.decrOrPush true 1 idx)
  | .wait idx => if (s.node idx).posted then some (.woken idx) else none
  | .woken idx => if (s.node idx).next = -1 then some (.recycle idx) else none
  | .refused idx => some (.recycle idx)
  | .shutdown => some s.afterLoad
  | .setShutdown h => if s.head = h then none else some s.afterLoad
  | .wake h since => if h.isNodeIdx then some (.wakePop h (s.node h.data).next since) else none
  | .wakePop h _ _ => if s.head = h then none else some (.wake s.head s.ticks)
  | _ => none

/-- **A step that writes**, of thread `p`. -/
def writes (s : LifoSem ι) (p : ι) (idx : BitVec 32) : LifoPc → Option (LifoSem ι)
  | .pop n head next _ =>
    if s.head = head then
      some ((s.owe (head.withPop next) head.data).goto p (.handOff n head.data))
    else none
  | .incr n head =>
    if s.head = head then
      some ((s.incr (head.withValueIncr n)
        ((head.withValueIncr n).data.toNat - head.data.toNat)).goto p .idle)
    else none
  | .handOff n i =>
    some ((s.postNode i).goto p (if n = 1 then .idle else .incrOrPop (n - 1)))
  | .decr waits n i head =>
    if s.head = head then
      some ((s.decr (head.withValueDecr (head.delta n)) (head.delta n).toNat).goto p
        (if waits then if i = 0 then .idle else .recycle i
        else if n - head.delta n = 0 then .idle
        else .decrOrPush false (n - head.delta n) 0))
    else none
  | .allocateNode =>
    if idx ≠ 0 ∧ idx ≠ -1 ∧ (s.node idx).used = false then
      some ((s.setNode idx ⟨0, false, true⟩).goto p (.decrOrPush true 1 idx))
    else none
  | .link i head => some ((s.setNext i head.first).goto p (.push i head))
  | .push i head =>
    if s.head = head then some ({ s with head := head.withPush i }.goto p (.wait i)) else none
  | .woken i =>
    some ({ s with taken := s.taken + 1, flying := s.flying.erase i }.goto p (.recycle i))
  | .recycle i => some ((s.setNode i { s.node i with used := false }).goto p .idle)
  | .setShutdown h =>
    if s.head = h then
      some ({ s with head := h.withShutdown }.goto p (.wake h.withShutdown s.ticks))
    else none
  | .wake _ _ => some ({ s with down := true }.goto p .idle)
  | .wakePop h next _ =>
    if s.head = h then
      some ((s.swap (h.withPop next)).goto p (.notice h.data (h.withPop next) (s.ticks + 1)))
    else none
  | .notice i h since => some ((s.setNext i (-1)).goto p (.wakePost i h since))
  | .wakePost i h since => some ((s.postNode i).goto p (.wake h since))
  | _ => none

/-- What is asserted at a step, or needed of it: a node is posted that
somebody has, and once. -/
def asserts (s : LifoSem ι) : LifoPc → Bool
  | .incrOrPop n => n != 0
  | .popNext _ head _ => head.isNodeIdx && head.data != 0
  | .pop _ head _ _ => head.isNodeIdx
  | .incr _ head => !head.isNodeIdx
  | .handOff _ i => (s.node i).used && !(s.node i).posted
  | .decrOrPush _ n _ => n != 0
  | .decr _ n _ head =>
    !head.isNodeIdx && head.delta n != 0 && decide (head.delta n ≤ head.data)
  | .link _ head => !head.isNodeIdx || head.data != 0
  | .push i head => (head.isNodeIdx || head.data == 0) && !head.isShutdown && i != 0
  | .woken i => (s.node i).next != -1 || s.head.isShutdown
  | .refused _ => s.head.isShutdown
  | .wake h _ => !h.isNodeIdx || h.data != 0
  | .wakePop h _ _ => h.isNodeIdx
  | .wakePost i _ _ => (s.node i).used && !(s.node i).posted
  | _ => true

/-- Thread `p` goes on. -/
def advance (s : LifoSem ι) (p : ι) (idx : BitVec 32) : Option (LifoSem ι) :=
  (((s.reads (s.pc p)).map (s.goto p)).or (s.writes p idx (s.pc p))).map fun t =>
    { t with failed := s.failed || !s.asserts (s.pc p) }

/-- Thread `p` calls an operation, which begins at `c`. -/
def calls (s : LifoSem ι) (p : ι) (c : LifoPc) : Option (LifoSem ι) :=
  if s.pc p = .idle then some (s.goto p c) else none

/-- One step. -/
def step (s : LifoSem ι) : LifoAct ι → Option (LifoSem ι)
  | .post p n => if n = 0 then none else s.calls p (.incrOrPop n)
  | .tryWait p n => if n = 0 then none else s.calls p (.decrOrPush false n 0)
  | .wait p => s.calls p (.decrOrPush true 1 0)
  | .shutdown p => s.calls p .shutdown
  | .next p idx => s.advance p idx
  | .other idx next => if (s.node idx).used then none else some (s.setNext idx next)

/-- `LifoSem(v)`, and the nodes as they are found. -/
def init (v : BitVec 32) (next : BitVec 32 → BitVec 32) : LifoSem ι where
  head := .fresh v
  node i := ⟨next i, false, false⟩
  pc _ := .idle
  ticks := 0
  posted := v.toNat
  taken := 0
  flying := []
  down := false
  failed := false

end LifoSem

/-- The semaphore as a machine. -/
def lifoSem (ι : Type) [DecidableEq ι] : Machine (LifoSem ι) (LifoAct ι) := ⟨LifoSem.step⟩

end Contentious.Pool
