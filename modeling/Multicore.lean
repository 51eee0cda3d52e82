import Multicore.Base.Consecutive
import Multicore.Base.Graph
import Multicore.Base.Extreme
import Multicore.Base.BreadthFirst
import Multicore.Base.Fair
import Multicore.Base.Count
import Multicore.Base.Chain
import Multicore.Base.Lock
import Multicore.Mvcc.Enter
import Multicore.Mvcc.Leave
import Multicore.Mvcc.Memory
import Multicore.Mvcc.Invariant
import Multicore.Mvcc.Views
import Multicore.Mvcc.Readers
import Multicore.Mvcc.Conservation
import Multicore.Mvcc.Snapshot
import Multicore.Mvcc.Unregistered
import Multicore.Mvcc.Ledger
import Multicore.Mvcc.Mirror
import Multicore.Mvcc.Active
import Multicore.Mvcc.Pass
import Multicore.Mvcc.Parameter
import Multicore.Mvcc.Severed
import Multicore.Mvcc.Dump
import Multicore.Mvcc.Frozen
import Multicore.Mvcc.Owned
import Multicore.Mvcc.Range
import Multicore.Mvcc.Section
import Multicore.Mvcc.Represent
import Multicore.Mvcc.Outline
import Multicore.Mvcc.Refinement
import Multicore.UtList.Invariant
import Multicore.UtList.Prepend
import Multicore.UtList.Remove
import Multicore.UtList.Intact
import Multicore.UtList.Walk
import Multicore.UtList.Append
import Multicore.UtList.FarEnd
import Multicore.UtList.Alone
import Multicore.UtList.View
import Multicore.UtList.Sequential
import Multicore.Houses.Model
import Multicore.Houses.Levels
import Multicore.Houses.Finds
import Multicore.Houses.Shared
import Multicore.Houses.Termination
import Multicore.Houses.Answer
import Multicore.Houses.Handout
import Multicore.Houses.Order
import Multicore.Houses.Records
import Multicore.Houses.Tracking
import Multicore.Houses.Agreement
import Multicore.Houses.Distances
import Multicore.Reference.Model
import Multicore.Reference.Flags
import Multicore.Reference.Queue
import Multicore.Reference.Meetings
import Multicore.Reference.Depths
import Multicore.Reference.Result
import Multicore.Reference.Fences
import Multicore.Reference.Capacity
import Multicore.Reference.Stored
import Multicore.Bakery.Model
import Multicore.Bakery.Exclusion
import Multicore.Bakery.Order
import Multicore.Bakery.Progress
import Multicore.Bakery.Starvation
import Multicore.Mutex.Event
import Multicore.Mutex.Model
import Multicore.Mutex.Exclusion
import Multicore.Mutex.Wakeup
import Multicore.Mutex.Liveness
import Multicore.RwLock.Model
import Multicore.RwLock.Moves
import Multicore.RwLock.Exclusion
import Multicore.RwLock.Waiters
import Multicore.RwLock.Wakeup
import Multicore.RwLock.Assertions
import Multicore.BufPool.Threads
import Multicore.BufPool.Outcome
import Multicore.BufPool.Release
import Multicore.BufPool.Sizes
import Multicore.BufPool.Init
import Multicore.BufPool.Shared
import Multicore.BufPool.Fields
import Multicore.BufPool.Parallel
import Multicore.BufPool.Index
