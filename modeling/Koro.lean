import Koro.Machine.Basic
import Koro.Machine.Tally
import Koro.Machine.Rest
import Koro.Scheduler.Conserve
import Koro.Scheduler.Active
import Koro.Scheduler.Wakeup
import Koro.TimerManager.Armed
import Koro.TimerManager.Due
import Koro.TimerManager.Schedule
import Koro.IOManager.Timers
import Koro.IOManager.Installed
import Koro.Scheduler.Stopping
import Koro.IOManager.Sections
import Koro.Hook.Run
import Koro.Hook.Step
import Koro.Hook.Copies
import Koro.Hook.Waiter
import Koro.Hook.Once
import Koro.Hook.Table
import Koro.Hook.Removed
import Koro.Hook.Routed
import Koro.Hook.NonBlock
import Koro.Scheduler.Waiting
import Koro.Hook.Rest
import Koro.ThreadPool.Run
import Koro.ThreadPool.Conserve
import Koro.ThreadPool.Drained
import Koro.ThreadPool.Rest
import Koro.Data.Deque
import Koro.ThreadPool.Turns
import Koro.Elog.FixedBuffer
import Koro.Elog.AsyncLogging
import Koro.Elog.Buffers
import Koro.Elog.Order
import Koro.Elog.Shutdown
import Koro.Scheduler.Process
import Koro.Scheduler.Usable
import Koro.Scheduler.Kept
import Koro.Scheduler.Rest
import Koro.Scheduler.Turns
import Koro.Hook.Write
import Koro.Hook.Transparent
import Koro.Hook.Rejected
import Koro.IOManager.Interest
import Koro.IOManager.Mask
import Koro.IOManager.Forgets
import Koro.Fiber.Switch
import Koro.Fiber.Contexts
import Koro.Data.RefCount
import Koro.Fiber.References
import Koro.InplaceFunction
import Koro.InplaceFunction.Calls
import Koro.Data.Ledger
import Koro.InplaceFunction.Balance
import Koro.Elog.LogFile
import Koro.Elog.Rolling
import Koro.Data.Shared
import Koro.Elog.Logger
import Koro.Elog.Statements
import Koro.Elog.Lifetime
import Koro.Elog.Outcomes
import Koro.Data.Text
import Koro.Elog.Formatter
import Koro.Elog.Archive
import Koro.Elog.Losses
import Koro.Elog.Backend
