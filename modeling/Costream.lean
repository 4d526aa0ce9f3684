import Costream.Timer.Cancel
import Costream.Timer.Lifetime
import Costream.Timer.OnTime
import Costream.Timer.Due
import Costream.Timer.Stranded
import Costream.Processor.HandOver
import Costream.Processor.Producers
import Costream.Sync.Fifo
import Costream.Sync.Reporting
import Costream.Sync.Outcome
import Costream.Sync.CleanUp
import Costream.Sync.Choice
import Costream.Sync.Counted
import Costream.Scheduler.WaitCondition
import Costream.Heap.Canonical
import Costream.Heap.Release
import Costream.Signal.Cell
import Costream.Signal.Ipc
import Costream.Signal.Lifetime
import Costream.Signal.EventLoop
import Costream.Signal.Interrupt
import Costream.Signal.SetHandler
import Costream.Signal.WaitAny
import Costream.Stream.QueueSize
import Costream.Stream.Doorbell
import Costream.TsQueue.Refine
import Costream.Pointer.Lifetime
import Costream.Pool.Getters
import Costream.Pool.CallbackPoints
import Costream.Pool.Reserve
import Costream.Sync.ReaderWriterLock
import Costream.Scheduler.Actives
import Costream.Scheduler.Placement
import Costream.Scheduler.WakeupResult
import Costream.Common.Anys
import Costream.Sync.RingBufferForever
import Costream.Sync.Linkage
import Costream.Os.Waits
import Costream.Os.Locks
import Costream.Os.Deadline
import Costream.Debug.SourceLocation
import Costream.Signal.SharedPool
import Costream.Timer.NextTrigger
import Costream.Timer.FirstVisit
import Costream.Timer.SweepBounds
import Costream.Processor.Context
import Costream.Scheduler.Listener
import Costream.Scheduler.Stop
import Costream.Common.Any
import Costream.Processor.CoLocalStorage
import Costream.Scheduler.Blocking
import Costream.Scheduler.Line
import Costream.TsQueue.Threads
