import Gwn.Log.Appender
import Mathlib.Logic.Function.Basic

/-! # Loggers

    `Logger` and `LoggerManager` (gwn/log.h, log.cc). The listener of the log
    configuration creates a new appender object for every definition and hands it
    to one logger, so an appender is part of its logger here; the stream of a file
    appender is not looked at. A logger's `view` is what can be seen of it. -/

namespace Gwn.Log

/-- The class of an appender, with the file of a `FileLogAppender`. -/
inductive Sink where
  | file (name : String)
  | stdout
deriving DecidableEq, Repr

structure Appender extends LogAppender where
  sink : Sink
deriving DecidableEq

structure Logger where
  /-- `m_level`. -/
  level : Level
  /-- `m_formatter`. -/
  formatter : Option LogFormatter
  /-- `m_appenders`. -/
  appenders : List Appender
deriving DecidableEq

namespace Logger

/-- `Logger::Logger(name)`. -/
def new : Logger :=
  { level := .DEBUG, formatter := some (.new defaultPattern), appenders := [] }

def setLevel (lg : Logger) (val : Level) : Logger :=
  { lg with level := val }

/-- `setFormatter(LogFormatter::ptr)`. -/
def setFormatter (lg : Logger) (val : Option LogFormatter) : Logger :=
  { lg with
    formatter := val
    appenders := lg.appenders.map fun i => if i.hasFormatter then i
      else { i with formatter := val } }

/-- `setFormatter(const std::string&)`. -/
def setPattern (lg : Logger) (val : String) : Logger :=
  let new_val := LogFormatter.new val
  if new_val.isError then lg else lg.setFormatter (some new_val)

def addAppender (lg : Logger) (appender : Appender) : Logger :=
  let appender := if appender.formatter.isNone then { appender with formatter := lg.formatter }
    else appender
  { lg with appenders := lg.appenders ++ [appender] }

def clearAppenders (lg : Logger) : Logger :=
  { lg with appenders := [] }

end Logger

/-- `m_loggers`. `getLogger(name)` creates the logger if there is none. -/
abbrev LoggerManager := String → Option Logger

/-- The logger that `getLogger(name)` returns, given what `m_loggers` holds. -/
def getLogger (found : Option Logger) : Logger :=
  found.getD .new

/-- `LoggerManager::LoggerManager`: the root logger writes to the standard output. -/
def LoggerManager.fresh : LoggerManager :=
  Function.update (fun _ => none) "root" (some (Logger.new.addAppender { sink := .stdout }))

/-! ### Views -/

structure AppenderView where
  sink : Option Sink
  level : Level
  /-- The pattern of the formatter in use. -/
  pattern : Option String
deriving DecidableEq

structure LoggerView where
  level : Level
  pattern : Option String
  appenders : List AppenderView
deriving DecidableEq

def Appender.view (a : Appender) : AppenderView :=
  { sink := some a.sink, level := a.level, pattern := a.formatter.map LogFormatter.getPattern }

def Logger.pattern (lg : Logger) : Option String :=
  lg.formatter.map LogFormatter.getPattern

def Logger.view (lg : Logger) : LoggerView :=
  { level := lg.level, pattern := lg.pattern, appenders := lg.appenders.map Appender.view }

/-- The pattern that is in use when `formatter` is set and `inherited` was in use before. -/
def effective (formatter : String) (inherited : Option String) : Option String :=
  if formatter ≠ "" ∧ (LogFormatter.new formatter).isError = false then some formatter
  else inherited

/-- A formatter that is empty or invalid is passed over. -/
theorem setPattern_pattern (lg : Logger) (val : String) :
    (if val ≠ "" then lg.setPattern val else lg).pattern = effective val lg.pattern := by
  unfold effective Logger.setPattern
  by_cases hval : val = ""
  · simp [hval]
  · cases herror : (LogFormatter.new val).isError with
    | true => simp [hval, herror]
    | false => simp [hval, herror, Logger.pattern, Logger.setFormatter]

/-- An appender without formatter gets the logger's. -/
theorem addAppender_view (lg : Logger) (a : Appender) :
    (lg.addAppender a).view = { lg.view with
      appenders :=
        lg.view.appenders ++ [{ a.view with pattern := a.view.pattern.or lg.pattern }] } := by
  cases hformatter : a.formatter with
  | none => simp [Logger.addAppender, Logger.view, Logger.pattern, Appender.view, hformatter]
  | some f => simp [Logger.addAppender, Logger.view, Logger.pattern, Appender.view, hformatter]

end Gwn.Log
