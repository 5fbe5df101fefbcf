import Cyan.Base.Machine
import Cyan.Base.Path
import Cyan.Base.Tickets
import Cyan.Base.Places
import Cyan.Base.Headcount
import Cyan.Base.Turns
import Cyan.Lockfree.Queue
import Cyan.Lockfree.QueueShape
import Cyan.Lockfree.QueueConservation
import Cyan.Lockfree.QueueFifo
import Cyan.Lockfree.QueueMove
import Cyan.Lockfree.Freelist
import Cyan.Lockfree.FreelistOwner
import Cyan.Lockfree.Stack
import Cyan.Lockfree.StackOrder
import Cyan.Event.Async
import Cyan.Dispatch.HandlerThread
import Cyan.Dispatch.Moves
import Cyan.Dispatch.WakeUp
import Cyan.Dispatch.StopLoop
import Cyan.Dispatch.Flow
import Cyan.Dispatch.Custody
import Cyan.Dispatch.SerialOrder
import Cyan.Dispatch.Drains
import Cyan.Dispatch.SerialTurns
import Cyan.Dispatch.SafeStop
import Cyan.Base.Multimap
import Cyan.Base.Rotation
import Cyan.Dispatch.MessageOrder
import Cyan.Dispatch.RoundRobin
import Cyan.Dispatch.StopEvent
import Cyan.Event.AsyncLoop
import Cyan.Event.TimerWheel
import Cyan.Event.TimerWheelBooks
import Cyan.Event.TimerWheelTick
import Cyan.Event.TimerWheelDue
import Cyan.Event.TimerWheelEnds
import Cyan.Event.TimerWheelRunning
import Cyan.Dispatch.DelayedTask
import Cyan.Dispatch.TimedWheels
import Cyan.Dispatch.NeverEarly
import Cyan.Lockfree.FreelistHead
import Cyan.Lockfree.FreelistBound
import Cyan.Base.Reached
import Cyan.Lockfree.Pool
import Cyan.Lockfree.PoolSafety
import Cyan.Lockfree.QueueEmpty
import Cyan.Lockfree.QueuePool
import Cyan.Lockfree.StackPool
import Cyan.Lockfree.UseAfterFree
import Cyan.Base.Ends
import Cyan.Base.Fuel
import Cyan.Base.Budget
import Cyan.Base.DottedQuad
import Cyan.Lockfree.PoolAlone
import Cyan.Lockfree.PoolRuns
import Cyan.Lockfree.QueueAlone
import Cyan.Lockfree.QueueRuns
import Cyan.Lockfree.StackAlone
import Cyan.Lockfree.StackRuns
import Cyan.Lockfree.OneThread
import Cyan.Net.Kernel
import Cyan.Net.SocketOps
import Cyan.Net.BasicSocket
import Cyan.Net.SocketOwner
import Cyan.Net.EventCallback
import Cyan.Net.Address
import Cyan.Net.EventFlags
import Cyan.Net.SocketOption
import Cyan.Base.History
import Cyan.Lockfree.QueueTags
import Cyan.Lockfree.QueueTail
import Cyan.Lockfree.PoolAccount
import Cyan.Base.Heap
import Cyan.Base.Shelf
import Cyan.Ev.Heap
import Cyan.Ev.Pending
import Cyan.Ev.Timer
import Cyan.Ev.Io
import Cyan.Ev.WatcherArray
import Cyan.Ev.Loop
import Cyan.Ev.LoopOk
import Cyan.Ev.LoopKeeps
import Cyan.Ev.LoopFeeds
import Cyan.Ev.TimersReify
import Cyan.Ev.Run
import Cyan.Ev.LoopCalls
import Cyan.Ev.RunOk
import Cyan.Base.InFront
import Cyan.Ev.RunQueue
import Cyan.Ev.RunCalls
import Cyan.Ev.RunTimers
import Cyan.Ev.RunEvents
import Cyan.Ev.RunWake
import Cyan.Ev.RunSends
import Cyan.Ev.RunAsync
import Cyan.Ev.RunReturns
import Cyan.Ev.RunRounds
