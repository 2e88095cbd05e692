import Gwn.Framework.System
import Gwn.Scheduler.Model
import Gwn.Scheduler.Step
import Gwn.Framework.Total
import Gwn.Scheduler.WellFormed
import Gwn.Scheduler.ActiveCount
import Gwn.Scheduler.Exclusive
import Gwn.Scheduler.NoLoss
import Gwn.Scheduler.Finished
import Gwn.Scheduler.Idle
import Gwn.Scheduler.Quiescence
import Gwn.Framework.Pool
import Gwn.Scheduler.Callbacks
import Gwn.Scheduler.Tidy
import Gwn.Scheduler.Jobs
import Gwn.Scheduler.Drain
import Gwn.Config.Var
import Gwn.Log.Formatter
import Gwn.Log.Appender
import Gwn.Framework.Keyed
import Gwn.Log.Define
import Gwn.Log.Reload
import Gwn.Log.Loads
import Gwn.Config.Yaml
import Gwn.Log.Cast
import Gwn.Config.Cast
import Gwn.Log.Pattern
import Gwn.Config.Load
import Gwn.Log.Concurrent
import Gwn.Scheduler.Current
import Gwn.Scheduler.Affinity
import Gwn.Scheduler.Handle
import Gwn.Framework.LockOrder
import Gwn.Log.Locks
import Gwn.Framework.Refinement
import Gwn.Scheduler.Fifo
import Gwn.Scheduler.RoundRobin
import Gwn.Scheduler.Turns
import Gwn.Config.Names
import Gwn.Config.Case
import Gwn.Config.Notify
import Gwn.Config.Kinds
import Gwn.Config.Strings
import Gwn.Thread.Handshake
import Gwn.Fiber.Swap
import Gwn.Config.Reenter
import Gwn.Scheduler.Start
import Gwn.Scheduler.Owners
import Gwn.Config.Alias
import Gwn.Log.Cuts
import Gwn.Log.Escape
import Gwn.Log.DateTime
import Gwn.Log.Pointers
import Gwn.Log.Reopen
import Gwn.Config.Keys
import Gwn.Fiber.Locals
import Gwn.Log.Dump
import Gwn.Framework.Sections
import Gwn.Log.Lines
import Gwn.Framework.Justice
import Gwn.Scheduler.Flawless
import Gwn.Scheduler.Due
import Gwn.Scheduler.Returns
import Gwn.Framework.SharedOrder
import Gwn.Config.Locks
import Gwn.Scheduler.Served
