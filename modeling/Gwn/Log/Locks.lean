import Gwn.Framework.LockOrder
import Gwn.Framework.Ordered
import Gwn.Log.Logger

/-! # The locks of the loggers

    Every `LoggerManager`, `Logger` and `LogAppender` has a `Spinlock` (gwn/log.h), which
    is not recursive, and their functions call each other while they hold theirs
    (gwn/log.cc). Here the functions are code for threads that share the objects, one
    statement for each step under or between the locks. Only the root logger is any
    logger's `m_root`, and has none itself (`RootOnly`), so all locks are taken in the
    order manager, other logger, root logger, appender (`locks_ordered`). -/

namespace Gwn.Log

open LTS LockCode

/-! ### The objects -/

/-- An appender, as the loggers share it. -/
structure AppenderObject extends Appender where
  /-- `m_lastTime` of a file appender. -/
  lastTime : UInt64 := 0

structure LoggerObject where
  /-- `m_level`. -/
  level : Level
  /-- `m_formatter`. -/
  formatter : Option LogFormatter
  /-- `m_appenders`. -/
  appenders : List Nat
  /-- `m_root`. -/
  root : Option Nat

/-- `Logger::Logger(name)`. -/
def LoggerObject.new : LoggerObject :=
  { level := Logger.new.level, formatter := Logger.new.formatter, appenders := [], root := none }

structure Objects where
  logger : Nat → LoggerObject
  /-- Loggers with ids below `nlogger` have been created. -/
  nlogger : Nat
  appender : Nat → AppenderObject
  nappender : Nat
  /-- `m_loggers` of the manager. -/
  loggers : Ordered fun e : String × Nat => e.1
  /-- What the last `LogAppender::getFormatter()` of each thread has returned. -/
  returned : Nat → Option LogFormatter

/-- `m_root` of the manager, the first logger there is. -/
def rootLogger : Nat := 0

/-- `LoggerManager::LoggerManager()`. -/
def Objects.initial : Objects where
  logger _ := { LoggerObject.new with appenders := [0] }
  nlogger := 1
  appender _ := { sink := .stdout, formatter := Logger.new.formatter }
  nappender := 1
  loggers := .single ("root", rootLogger)
  returned _ := none

def Objects.setLogger (d : Objects) (l : Nat) (x : LoggerObject) : Objects :=
  { d with logger := Function.update d.logger l x }

def Objects.setAppender (d : Objects) (a : Nat) (x : AppenderObject) : Objects :=
  { d with appender := Function.update d.appender a x }

/-! ### The functions -/

inductive Mutex where
  | manager
  | logger (l : Nat)
  | appender (a : Nat)
deriving DecidableEq

/-- A call of a function, with the objects it is given. -/
inductive Call where
  -- LoggerManager
  | getLogger (name : String)
  | managerToYamlString
  -- Logger
  | newLogger
  | setLevel (l : Nat) (val : Level)
  | log (l : Nat) (level : Level) (time : UInt64)
  | setFormatter (l : Nat) (val : Option LogFormatter)
  /-- `setFormatter(const std::string&)`. -/
  | setPattern (l : Nat) (val : String)
  | getFormatter (l : Nat)
  | addAppender (l a : Nat)
  | delAppender (l a : Nat)
  | clearAppenders (l : Nat)
  | toYamlString (l : Nat)
  -- LogAppender
  | newAppender (sink : Sink)
  | appenderSetLevel (a : Nat) (val : Level)
  | appenderLog (a : Nat) (level : Level) (time : UInt64)
  | appenderSetFormatter (a : Nat) (val : Option LogFormatter)
  | appenderGetFormatter (a : Nat)
  | appenderToYamlString (a : Nat)
  | reopen (a : Nat)

inductive Op where
  | call (c : Call)
  /-- The section of a function that its own mutex protects. -/
  | locked (c : Call)
  /-- `if(!i->m_hasFormatter) i->m_formatter = m_formatter` in `setFormatter`. -/
  | inherit (l a : Nat)
  /-- `if(!appender->getFormatter())` in `addAppender`, behind the call. -/
  | testFormatter (l a : Nat)
  /-- `appender->m_formatter = m_formatter` in `addAppender`. -/
  | giveFormatter (l a : Nat)
  /-- `m_appenders.push_back(appender)`. -/
  | pushBack (l a : Nat)
  /-- `m_lastTime = now`. -/
  | setLastTime (a : Nat) (now : UInt64)

abbrev Statement := Stmt Mutex Op

/-- A function that locks `x` for all it does. -/
def Call.under (c : Call) (x : Mutex) : List Statement :=
  guarded x [.op (.locked c)]

/-- A function up to its lock: what it reads before, and what it goes on with. -/
def Call.enter (d : Objects) (c : Call) : Objects × List Statement :=
  match c with
  | .getLogger _ | .managerToYamlString => (d, c.under .manager)
  | .newLogger => ({ d.setLogger d.nlogger .new with nlogger := d.nlogger + 1 }, [])
  | .setLevel l val => (d.setLogger l { d.logger l with level := val }, [])
  | .log l level _ => (d, if (d.logger l).level.val ≤ level.val then c.under (.logger l) else [])
  | .setFormatter l _ | .getFormatter l | .addAppender l _ | .delAppender l _ | .clearAppenders l
  | .toYamlString l => (d, c.under (.logger l))
  | .setPattern l val =>
    let new_val := LogFormatter.new val
    (d, if new_val.isError then [] else [.op (.call (.setFormatter l (some new_val)))])
  | .newAppender sink =>
    let d' := { d.setAppender d.nappender { sink := sink } with nappender := d.nappender + 1 }
    match sink with
    | .file _ => (d', [.op (.call (.reopen d.nappender))])
    | .stdout => (d', [])
  | .appenderSetLevel a val =>
    (d.setAppender a
      { d.appender a with toLogAppender := (d.appender a).toLogAppender.setLevel val }, [])
  | .appenderLog a level time =>
    if (d.appender a).level.val ≤ level.val then
      match (d.appender a).sink with
      | .stdout => (d, c.under (.appender a))
      | .file _ =>
        (d, (if (d.appender a).lastTime + 3 ≤ time then
              [.op (.call (.reopen a)), .op (.setLastTime a time)]
            else []) ++ c.under (.appender a))
    else (d, [])
  | .appenderSetFormatter a _ | .appenderGetFormatter a | .appenderToYamlString a | .reopen a =>
    (d, c.under (.appender a))

/-- The protected section of a function, run by thread `t`. The text that goes to the
    streams and the YAML strings is left out. -/
def Call.inside (t : Nat) (d : Objects) (c : Call) : Objects × List Statement :=
  match c with
  | .getLogger name =>
    match d.loggers.find? name with
    | some _ => (d, [])
    | none =>
      ({ d.setLogger d.nlogger { LoggerObject.new with root := some rootLogger } with
        nlogger := d.nlogger + 1, loggers := d.loggers.assign (name, d.nlogger) }, [])
  | .managerToYamlString =>
    (d, d.loggers.entries.flatMap fun e => [.op (.call (.toYamlString e.2))])
  | .log l level time =>
    if (d.logger l).appenders ≠ [] then
      (d, (d.logger l).appenders.flatMap fun a => [.op (.call (.appenderLog a level time))])
    else
      match (d.logger l).root with
      | some r => (d, [.op (.call (.log r level time))])
      | none => (d, [])
  | .setFormatter l val =>
    (d.setLogger l { d.logger l with formatter := val },
      (d.logger l).appenders.flatMap fun a => guarded (.appender a) [.op (.inherit l a)])
  | .addAppender l a =>
    (d, [.op (.call (.appenderGetFormatter a)), .op (.testFormatter l a), .op (.pushBack l a)])
  | .delAppender l a =>
    (d.setLogger l { d.logger l with appenders := (d.logger l).appenders.erase a }, [])
  | .clearAppenders l => (d.setLogger l { d.logger l with appenders := [] }, [])
  | .toYamlString l =>
    (d, (d.logger l).appenders.flatMap fun a => [.op (.call (.appenderToYamlString a))])
  | .appenderSetFormatter a val =>
    (d.setAppender a
      { d.appender a with toLogAppender := (d.appender a).toLogAppender.setFormatter val }, [])
  | .appenderGetFormatter a =>
    ({ d with returned := Function.update d.returned t (d.appender a).formatter }, [])
  | _ => (d, [])

def Op.run (t : Nat) (d : Objects) : Op → Objects × List Statement
  | .call c => c.enter d
  | .locked c => c.inside t d
  | .inherit l a =>
    (if (d.appender a).hasFormatter then d
      else d.setAppender a { d.appender a with formatter := (d.logger l).formatter }, [])
  | .testFormatter l a =>
    (d, if (d.returned t).isNone then guarded (.appender a) [.op (.giveFormatter l a)] else [])
  | .giveFormatter l a =>
    (d.setAppender a { d.appender a with formatter := (d.logger l).formatter }, [])
  | .pushBack l a =>
    (d.setLogger l { d.logger l with appenders := (d.logger l).appenders ++ [a] }, [])
  | .setLastTime a now => (d.setAppender a { d.appender a with lastTime := now }, [])

/-- A thread calls functions on objects that there are. -/
def Op.callable (d : Objects) : Op → Bool
  | .call c =>
    match c with
    | .getLogger _ | .managerToYamlString | .newLogger | .newAppender _ => true
    | .setLevel l _ | .log l _ _ | .setFormatter l _ | .setPattern l _ | .getFormatter l
    | .clearAppenders l | .toYamlString l => l < d.nlogger
    | .addAppender l a | .delAppender l a => l < d.nlogger && a < d.nappender
    | .appenderSetLevel a _ | .appenderLog a _ _ | .appenderSetFormatter a _
    | .appenderGetFormatter a
    | .appenderToYamlString a | .reopen a => a < d.nappender
  | _ => false

/-- Any number of threads that call these functions. -/
def locking : LockCode Nat Mutex Op Objects where
  init := .initial
  run t d o := o.run t d
  callable d o := o.callable d

/-! ### The order of the locks -/

def Mutex.rank : Mutex → Nat
  | .manager => 0
  | .logger l => if l = rootLogger then 2 else 1
  | .appender _ => 3

/-- The rank of the first lock that the function requests, if any. -/
def Call.rank : Call → Nat
  | .getLogger _ | .managerToYamlString => Mutex.manager.rank
  | .log l _ _ | .setFormatter l _ | .setPattern l _ | .getFormatter l | .addAppender l _
  | .delAppender l _ | .clearAppenders l | .toYamlString l => (Mutex.logger l).rank
  | .newAppender _ | .appenderLog _ _ _ | .appenderSetFormatter _ _ | .appenderGetFormatter _
  | .appenderToYamlString _ | .reopen _ => 3
  | .newLogger | .setLevel _ _ | .appenderSetLevel _ _ => 4

/-- Below every lock that the operation requests. -/
def Op.bound : Op → Nat
  | .call c => c.rank
  | .locked c => c.rank + 1
  | .testFormatter _ _ => 3
  | .inherit _ _ | .giveFormatter _ _ | .pushBack _ _ | .setLastTime _ _ => 4

theorem Mutex.rank_logger (l : Nat) : 1 ≤ (logger l).rank ∧ (logger l).rank ≤ 2 := by
  simp only [rank]
  split <;> omega

theorem Mutex.rank_le (x : Mutex) : x.rank ≤ 3 := by
  cases x with
  | manager => simp [rank]
  | logger l =>
    have hle := (rank_logger l).2
    omega
  | appender a => simp [rank]

/-- `m_root` is the root logger, and the root logger has none. -/
structure RootOnly (d : Objects) : Prop where
  created : rootLogger < d.nlogger
  root : (d.logger rootLogger).root = none
  other : ∀ l r, (d.logger l).root = some r → r = rootLogger

theorem RootOnly.setLogger {d : Objects} (h : RootOnly d) {l : Nat} {x : LoggerObject}
    (hx : x.root = none ∨ x.root = some rootLogger ∧ l ≠ rootLogger) :
    RootOnly (d.setLogger l x) := by
  refine ⟨h.created, ?_, fun k r hr => ?_⟩
  · show (Function.update d.logger l x rootLogger).root = none
    rw [Function.update_apply]
    split
    · next heq =>
      rcases hx with hx | ⟨-, hne⟩
      · exact hx
      · exact absurd heq.symm hne
    · exact h.root
  · have hr : (Function.update d.logger l x k).root = some r := hr
    rw [Function.update_apply] at hr
    split at hr
    · rcases hx with hx | ⟨hx, -⟩
      · rw [hx] at hr
        cases hr
      · rw [hx] at hr
        exact (Option.some.inj hr).symm
    · exact h.other k r hr

/-- Nothing but `getLogger` sets `m_root`. -/
theorem RootOnly.modify {d : Objects} (h : RootOnly d) {l : Nat} {x : LoggerObject}
    (hx : x.root = (d.logger l).root) : RootOnly (d.setLogger l x) := by
  apply h.setLogger
  cases hroot : (d.logger l).root with
  | none => exact .inl (hx.trans hroot)
  | some r =>
    obtain rfl := h.other l r hroot
    refine .inr ⟨hx.trans hroot, ?_⟩
    rintro rfl
    rw [h.root] at hroot
    cases hroot

theorem RootOnly.run {d : Objects} (h : RootOnly d) (t : Nat) (o : Op) :
    RootOnly (o.run t d).1 := by
  cases o with
  | call c =>
    show RootOnly (c.enter d).1
    cases c with
    | newLogger =>
      have hnew := h.setLogger (l := d.nlogger) (x := .new) (.inl rfl)
      exact ⟨Nat.lt_succ_of_lt h.created, hnew.root, hnew.other⟩
    | setLevel l val => exact h.modify rfl
    | newAppender sink => cases sink <;> exact ⟨h.created, h.root, h.other⟩
    | appenderLog a level time =>
      simp only [Call.enter]
      split
      · split <;> exact h
      · exact h
    | _ => exact ⟨h.created, h.root, h.other⟩
  | locked c =>
    show RootOnly (c.inside t d).1
    cases c with
    | getLogger name =>
      simp only [Call.inside]
      split
      · exact h
      · have hnew := h.setLogger (l := d.nlogger)
          (x := { LoggerObject.new with root := some rootLogger })
          (.inr ⟨rfl, Nat.ne_of_gt h.created⟩)
        exact ⟨Nat.lt_succ_of_lt h.created, hnew.root, hnew.other⟩
    | log l level time =>
      simp only [Call.inside]
      split
      · exact h
      · split <;> exact h
    | setFormatter l val | delAppender l a | clearAppenders l => exact h.modify rfl
    | _ => exact ⟨h.created, h.root, h.other⟩
  | inherit l a =>
    simp only [Op.run]
    split
    · exact h
    · exact ⟨h.created, h.root, h.other⟩
  | pushBack l a => exact h.modify rfl
  | _ => exact ⟨h.created, h.root, h.other⟩

section balance
variable {held : List Mutex}

/-- A function that holds its lock for all it does. -/
theorem Call.balanced_under {c : Call} {x : Mutex} (hx : x.rank = c.rank)
    (h : ∀ y ∈ held, y.rank < c.rank) : Balanced Mutex.rank Op.bound held (c.under x) := by
  apply Balanced.guarded
  · intro y hy
    rw [hx]
    exact h y hy
  · apply Balanced.op
    intro y hy
    show y.rank < c.rank + 1
    rcases List.mem_cons.mp hy with rfl | hy
    · omega
    · have hlt := h y hy
      omega

/-- An appender's lock is the last one. -/
theorem balanced_appender {a : Nat} {o : Op} (ho : o.bound = 4) (h : ∀ y ∈ held, y.rank < 3) :
    Balanced Mutex.rank Op.bound held (guarded (.appender a) [.op o]) := by
  apply Balanced.guarded h
  apply Balanced.op
  intro y _
  have hle := y.rank_le
  omega

theorem Call.balanced_enter (d : Objects) (c : Call) (h : ∀ y ∈ held, y.rank < c.rank) :
    Balanced Mutex.rank Op.bound held (c.enter d).2 := by
  cases c with
  | getLogger _ | managerToYamlString | setFormatter _ _ | getFormatter _ | addAppender _ _
  | delAppender _ _ | clearAppenders _ | toYamlString _ | appenderSetFormatter _ _
  | appenderGetFormatter _ | appenderToYamlString _ | reopen _ => exact balanced_under rfl h
  | newLogger | setLevel _ _ | appenderSetLevel _ _ => exact .nil
  | log l level time =>
    simp only [enter]
    split
    · exact balanced_under rfl h
    · exact .nil
  | setPattern l val =>
    simp only [enter]
    split
    · exact .nil
    · exact .op h
  | newAppender sink =>
    cases sink with
    | file _ => exact .op h
    | stdout => exact .nil
  | appenderLog a level time =>
    simp only [enter]
    split
    · split
      · exact balanced_under rfl h
      · apply Balanced.append
        · split
          · -- `reopen` gives the lock back before `log` takes it
            have hreopen : ∀ y ∈ held, y.rank < (Op.call (.reopen a)).bound := h
            apply Balanced.cons hreopen
            apply Balanced.op
            intro y _
            exact Nat.lt_succ_of_le y.rank_le
          · exact .nil
        · exact balanced_under rfl h
    · exact .nil

theorem Call.balanced_inside {d : Objects} (hd : RootOnly d) (t : Nat) (c : Call)
    (h : ∀ y ∈ held, y.rank < c.rank + 1) :
    Balanced Mutex.rank Op.bound held (c.inside t d).2 := by
  -- a logger's lock is below every appender's
  have below :
      ∀ {l}, (∀ y ∈ held, y.rank < (Mutex.logger l).rank + 1) →
        ∀ y ∈ held, y.rank < 3 := by
    intro l hl y hy
    have hlt := hl y hy
    have hle := (Mutex.rank_logger l).2
    omega
  cases c with
  | managerToYamlString =>
    refine Balanced.flatMap fun e _ => Balanced.op fun y hy => ?_
    -- below every logger's, the root logger's included
    have hlt : y.rank < 1 := h y hy
    have hle := (Mutex.rank_logger e.2).1
    show y.rank < (Mutex.logger e.2).rank
    omega
  | log l level time =>
    simp only [inside]
    split
    · exact Balanced.flatMap fun a _ => Balanced.op (below h)
    · split
      · next r hr =>
        -- a logger that has an `m_root` is not the root logger
        obtain rfl := hd.other l r hr
        have hne : l ≠ rootLogger := by
          rintro rfl
          rw [hd.root] at hr
          cases hr
        apply Balanced.op
        intro y hy
        have hlt := h y hy
        simpa [Call.rank, Op.bound, Mutex.rank, hne] using hlt
      · exact .nil
  | setFormatter l val => exact Balanced.flatMap fun a _ => balanced_appender rfl (below h)
  | addAppender l a =>
    have hget : ∀ y ∈ held, y.rank < (Op.call (.appenderGetFormatter a)).bound := below h
    have htest : ∀ y ∈ held, y.rank < (Op.testFormatter l a).bound := below h
    apply Balanced.cons hget
    apply Balanced.cons htest
    apply Balanced.op
    intro y _
    exact Nat.lt_succ_of_le y.rank_le
  | toYamlString l => exact Balanced.flatMap fun a _ => Balanced.op (below h)
  | getLogger name =>
    simp only [inside]
    split <;> exact .nil
  | _ => exact .nil

end balance

theorem disciplined : Disciplined locking Mutex.rank Op.bound RootOnly where
  init := ⟨Nat.zero_lt_one, rfl, nofun⟩
  keeps t d o hd := hd.run t o
  balanced t d o held hd h := by
    show Balanced Mutex.rank Op.bound held (o.run t d).2
    cases o with
    | call c => exact c.balanced_enter d h
    | locked c => exact c.balanced_inside hd t h
    | testFormatter l a =>
      simp only [Op.run]
      split
      · exact balanced_appender rfl h
      · exact .nil
    | _ => exact .nil

/-- In every interleaving no thread requests a lock it holds, no threads wait in a circle,
    and as long as some thread has something to do, some thread can go on. -/
theorem locks_ordered {s : LockCode.State Nat Mutex Op Objects} (h : locking.system.Reachable s) :
    LocksOrdered Mutex.rank s ∧ ∀ t, s.todo t ≠ [] →
      ∃ u, (locking.step s (.step u)).isSome :=
  ⟨disciplined.reachable h, fun _ ht => disciplined.progress h Mutex.rank_le ht⟩

/-- Thread 1 gets a logger. -/
def gettingLogger : List (LockCode.Label Nat Op) :=
  .call 1 (.call (.getLogger "system")) :: List.replicate 4 (.step 1)

/-- It logs there while thread 2 holds the lock of the root logger's appender. -/
def loggingNested : List (LockCode.Label Nat Op) :=
  [.call 2 (.call (.appenderGetFormatter 0)), .step 2, .step 2,
    .call 1 (.call (.log 1 .ERROR 0))] ++ List.replicate 7 (.step 1)

theorem locks_ordered_nested :
    ∃ s, locking.system.exec locking.system.init (gettingLogger ++ loggingNested) = some s
      ∧ s.owner (.logger 1) = some 1 ∧ s.owner (.logger rootLogger) = some 1 ∧ s.WaitsFor 1 2
      ∧ LocksOrdered Mutex.rank s
      ∧ ∀ t, s.todo t ≠ [] → ∃ u, (locking.step s (.step u)).isSome := by
  have hrun :
      (locking.system.exec locking.system.init (gettingLogger ++ loggingNested)).isSome := by
    decide
  exact ⟨_, (Option.some_get hrun).symm, rfl, rfl, ⟨.appender 0, rfl, rfl⟩,
    locks_ordered (System.reachable_get _ hrun)⟩

end Gwn.Log
