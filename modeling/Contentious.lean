import Contentious.Common.Radix
import Contentious.Common.Store
import Contentious.Common.Machine
import Contentious.Common.Loop
import Contentious.Common.SortedSet
import Contentious.Trie.Node
import Contentious.Trie.Vector
import Contentious.Trie.Visit
import Contentious.Trie.Full
import Contentious.Trie.Shape
import Contentious.Trie.Update
import Contentious.Trie.Push
import Contentious.Trie.Edit
import Contentious.Trie.Reach
import Contentious.Trie.Iterator
import Contentious.Trie.Assign
import Contentious.Trie.Persistence
import Contentious.Trie.Paths
import Contentious.Trie.Depth
import Contentious.Trie.Transients
import Contentious.Trie.Snapshot
import Contentious.Trie.Frame
import Contentious.Trie.Ids
import Contentious.Cont.Blocks
import Contentious.Cont.Tiles
import Contentious.Cont.Resolve
import Contentious.Cont.Stencil
import Contentious.Cont.Window
import Contentious.Cont.Inside
import Contentious.Cont.Heat
import Contentious.Cont.Staged
import Contentious.Cont.Interior
import Contentious.Cont.Fold
import Contentious.Trie.Diff
import Contentious.Trie.Next
import Contentious.Trie.Total
import Contentious.Trie.Alter
import Contentious.Trie.Lag
import Contentious.Trie.Shared
import Contentious.Trie.Family
import Contentious.Trie.Pipeline
import Contentious.Trie.Product
import Contentious.Cont.Accumulate
import Contentious.Cont.Runtime
import Contentious.Cont.Tasks
import Contentious.Cont.Foreach
import Contentious.Cont.Reduce
import Contentious.Cont.Operand
import Contentious.Cont.Settled
import Contentious.Cont.Operators
import Contentious.Cont.Registry
import Contentious.Pool.Model
import Contentious.Pool.Progress
import Contentious.Pool.Finish
import Contentious.Pool.Latch
import Contentious.Pool.Calls
import Contentious.Pool.Order
import Contentious.Pool.Lifetimes
import Contentious.Pool.Queue
import Contentious.Pool.Producer
import Contentious.Pool.Parallel
import Contentious.Pool.Fuel
import Contentious.Pool.Handoff
import Contentious.Pool.Outcome
import Contentious.Pool.Stop
import Contentious.Common.Threaded
import Contentious.Pool.LifoHead
import Contentious.Pool.LifoSem
import Contentious.Pool.Waiters
import Contentious.Pool.Semaphore
import Contentious.Pool.Wakeups
import Contentious.Pool.Rest
