import Kosio.Io.BufRead
import Kosio.Lib.Chain
import Kosio.Sync.Latch
import Kosio.Lib.HandOff
import Kosio.Sync.Mutex
import Kosio.Sync.SharedMutex
import Kosio.Common.RingBuffer
import Kosio.Sync.Channel
import Kosio.Sync.ChannelClose
import Kosio.Lib.Bits
import Kosio.Runtime.Config
import Kosio.Runtime.Timer.Level
import Kosio.Runtime.Timer.Timer
import Kosio.Runtime.Timer.Wheel
import Kosio.Lib.Agenda
import Kosio.Runtime.Timer.Deadline
import Kosio.Runtime.Timer.Exact
import Kosio.Runtime.Scheduler.LocalQueue
import Kosio.Runtime.Scheduler.WorkStealing
import Kosio.Runtime.Scheduler.Conservation
import Kosio.Runtime.Scheduler.Idle
import Kosio.Runtime.Scheduler.Worker
import Kosio.Runtime.Scheduler.WakeUp
import Kosio.Runtime.Scheduler.NoLostWakeup
import Kosio.Io.ReadUntil
import Kosio.Io.BufWrite
import Kosio.Lib.Tally
import Kosio.Sync.ChannelConserve
import Kosio.Sync.ChannelClosed
import Kosio.Sync.ChannelHandle
import Kosio.Runtime.Timer.Clock
import Kosio.Sync.MutexFifo
import Kosio.Runtime.Scheduler.Driver
import Kosio.Runtime.Timer.Contents
import Kosio.Runtime.Scheduler.DriverLinks
import Kosio.Sync.ConditionVariable
import Kosio.Io.ReadExact
import Kosio.Io.FillBuf
import Kosio.Runtime.Scheduler.GlobalCount
import Kosio.Runtime.Scheduler.IdleCount
import Kosio.Time.Sleep
import Kosio.Runtime.Timer.Cancel
import Kosio.Io.Registrator
import Kosio.Io.Exhaustion
import Kosio.Runtime.Scheduler.CurrentThread
import Kosio.Log.FileLogger
import Kosio.Lib.Bytes
import Kosio.Net.Addr
import Kosio.Runtime.Timer.NextSlot
import Kosio.Runtime.Timer.Represented
import Kosio.Common.RingFifo
import Kosio.Common.RingResize
import Kosio.Fs.File
import Kosio.Fs.Dir
import Kosio.Log.BufferRoom
import Kosio.Runtime.Scheduler.QueueSteps
import Kosio.Runtime.Scheduler.NextTask
import Kosio.Runtime.Scheduler.NextTaskWrap
import Kosio.Lib.Period
import Kosio.Lib.XorMap
import Kosio.Common.FastRand
import Kosio.Common.FastRandPeriod
import Kosio.Runtime.Scheduler.StealTask
import Kosio.Async.Direct
import Kosio.Async.Frames
import Kosio.Async.Ghosts
import Kosio.Async.Refine
import Kosio.Async.Safety
import Kosio.Runtime.Scheduler.Shutdown
import Kosio.Lib.Service
import Kosio.Runtime.Scheduler.CurrentFair
import Kosio.Runtime.Scheduler.GlobalWait
import Kosio.Runtime.Scheduler.TaskFlow
import Kosio.Io.Descriptor
import Kosio.Io.DescriptorOwner
import Kosio.Log.LogFile
