import Gwn.Config.Load
import Gwn.Framework.SharedOrder
import Gwn.Log.Define
import Gwn.Log.Locks

/-! # The locks of the configuration

    The registry of `Config` and every `ConfigVar` have a `RWMutex` (gwn/config.h). While
    they are held the loggers are used, with locks of their own: `LookUp` logs under the
    write lock of the registry, and `setValue` calls the listeners under the read lock of
    the variable, one of which reconfigures the loggers (gwn/log.cc). Here the functions of
    `Config` and `ConfigVar` are code on top of that of the loggers, for threads that call
    any of both:

    - `Program`, `Objects`, `Op.run`: the functions, statement by statement
    - `all_locks_ordered`: all locks are taken in one order, so nobody waits in a circle
    - `all_calls_return`: when no further call is made, every call returns -/

namespace Gwn.Config.Locks

open LTS LockCode
open Log (Level LogDefine LogAppenderDefine LogDefines LogFormatter rootLogger)

/-! ### The program -/

/-- The types of the variables and the listeners of a program. `V` are the values of all types. -/
structure Program (K V B : Type) where
  yaml : Yaml
  /-- `operator==`. -/
  eq : K → V → V → Bool
  /-- `FromStr` and `ToStr`, which may throw. -/
  fromStr : K → String → Option V
  toStr : K → V → Option String
  /-- `std::set<LogDefine>`. -/
  logDefines : K
  defines : V → LogDefines
  noDefines : V
  /-- What the program's own listeners call of the loggers, and whether they throw. -/
  listen : B → V → V → List Log.Call
  throws : B → V → V → Bool

/-- `on_change_cb`. -/
inductive Listener (B : Type) where
  /-- The listener of "logs", that `LogIniter` adds. -/
  | onLoggerConfChanged
  | own (b : B)

structure VarObject (K V B : Type) where
  type : K
  /-- `m_val`. -/
  val : V
  /-- `m_cbs`. -/
  cbs : Ordered (Prod.fst : Nat × Listener B → Nat)

structure Objects (K V B : Type) where
  log : Log.Objects
  /-- `GetDatas()`. -/
  datas : String → Option Nat
  var : Nat → VarObject K V B
  /-- Variables with ids below `nvar` have been created. -/
  nvar : Nat
  /-- `s_fun_id`, one for each type. -/
  funId : K → Nat
  /-- `time(0)`. -/
  now : UInt64
  /-- What the last `LookUp` or `LookupBase` of each thread has returned. -/
  found : Nat → Option Nat
  /-- The last `setValue` of the thread has called the listeners. -/
  changed : Nat → Bool
  /-- The thread is about to handle an exception. -/
  failed : Nat → Bool
  /-- `all_nodes`. -/
  allNodes : Nat → List (String × Node)

/-- `g_logger` of config.cc, the logger "system". -/
def systemLogger : Nat := 1

section program
variable {K V B : Type}

/-- After the initialization of the static variables. -/
def Objects.initial [DecidableEq K] (P : Program K V B) : Objects K V B where
  log := ((Log.Call.getLogger "system").inside 0 .initial).1
  datas name := if name = "logs" then some 0 else none
  var _ := { type := P.logDefines, val := P.noDefines, cbs := .single (1, .onLoggerConfChanged) }
  nvar := 1
  funId type := if type = P.logDefines then 1 else 0
  now := 0
  found _ := none
  changed _ := false
  failed _ := false
  allNodes _ := []

def Objects.setVar (d : Objects K V B) (v : Nat) (x : VarObject K V B) : Objects K V B :=
  { d with var := Function.update d.var v x }

/-! ### The functions -/

inductive Mutex where
  /-- `Config::GetMutex()`. -/
  | registry
  | var (v : Nat)
  | log (x : Log.Mutex)
deriving DecidableEq

inductive Call (K V B : Type) where
  -- Config
  /-- `LookUp(name, default_value, description)`. -/
  | lookUp (type : K) (name : String) (default_value : V)
  /-- `LookUp(name)`. -/
  | lookUpName (type : K) (name : String)
  | lookupBase (name : String)
  | loadFromYaml (root : Node)
  -- ConfigVar
  | toString (v : Nat)
  | fromString (v : Nat) (val : String)
  | getValue (v : Nat)
  | setValue (v : Nat) (x : V)
  | addListener (v : Nat) (cb : Listener B)
  | delListener (v : Nat) (key : Nat)
  | getListener (v : Nat) (key : Nat)
  | clearListener (v : Nat)

inductive Op (K V B : Type) where
  | call (c : Call K V B)
  /-- The section of a function that its first lock protects. -/
  | locked (c : Call K V B)
  /-- A statement of the loggers. -/
  | log (o : Log.Op)
  /-- `gwn_LOG_LEVEL(logger, level) << ...`; the text of variable `arg` may go into it. -/
  | logLevel (l : Nat) (level : Level) (arg : Option Nat)
  /-- What `setValue` does behind its read lock. -/
  | assign (v : Nat) (x : V)
  /-- `m_val = v`. -/
  | store (v : Nat) (x : V)
  /-- `catch(std::exception& e)` of `toString` and `fromString`. -/
  | catchException
  | listAllMember (pre : String) (node : Node)
  /-- The loop over `all_nodes`. -/
  | loadNodes
  /-- `if(var)` in this loop, for a node with this text. -/
  | loadNode (val : String)
  /-- The listener of "logs", for a definition that is new or modified. -/
  | configure (d : LogDefine)
  /-- Behind `gwn_LOG_NAME(i.name)`. -/
  | configureLogger (d : LogDefine)
  | equip (l : Nat) (a : LogAppenderDefine)
  /-- For a definition that is gone. -/
  | drop (name : String)
  | dropLogger (name : String)
  /-- Time goes on. -/
  | tick (now : UInt64)

abbrev Statement (K V B : Type) := Stmt (Mutex × Mode) (Op K V B)

/-- `ReadLock lock(x)` or `WriteLock lock(x)` around the section that it protects. -/
def Call.under (c : Call K V B) (x : Mutex) (m : Mode) : List (Statement K V B) :=
  guarded (x, m) [.op (.locked c)]

/-- A function up to its first lock, and what comes behind the section. -/
def Call.enter (d : Objects K V B) (t : Nat) (P : Program K V B) (c : Call K V B) :
    Objects K V B × List (Statement K V B) :=
  match c with
  | .lookUp _ _ _ => (d, c.under .registry .write)
  | .lookUpName _ _ | .lookupBase _ => (d, c.under .registry .read)
  | .loadFromYaml root =>
    ({ d with allNodes := Function.update d.allNodes t [] },
      [.op (.listAllMember "" root), .op .loadNodes])
  | .toString v => (d, c.under (.var v) .read ++ [.op .catchException])
  | .fromString v val =>
    (d, match P.fromStr (d.var v).type val with
      | some x => [.op (.call (.setValue v x)), .op .catchException]
      | none => [.op (.logLevel rootLogger .ERROR none)])
  | .getValue v | .getListener v _ => (d, c.under (.var v) .read)
  | .setValue v x => (d, c.under (.var v) .read ++ [.op (.assign v x)])
  | .addListener v _ | .delListener v _ | .clearListener v => (d, c.under (.var v) .write)

/-- The listener of "logs", definition by definition. -/
def onLoggerConfChanged (old_value new_value : LogDefines) : List (Op K V B) :=
  .logLevel rootLogger .INFO none ::
    ((new_value.entries.filter fun i =>
        match old_value.find? i.name with
        | none => true
        | some it => !i.eq it).map .configure ++
      (old_value.entries.filter fun i => (new_value.find? i.name).isNone).map fun i => .drop i.name)

/-- What a listener does, and whether it throws. -/
def Program.run (P : Program K V B) (old_value new_value : V) :
    Listener B → List (Op K V B) × Bool
  | .onLoggerConfChanged => (onLoggerConfChanged (P.defines old_value) (P.defines new_value), false)
  | .own b =>
    ((P.listen b old_value new_value).map fun c => .log (.call c), P.throws b old_value new_value)

/-- The loop over `m_cbs`. -/
def Program.notify (P : Program K V B) (old_value new_value : V) :
    List (Nat × Listener B) → List (Op K V B) × Bool
  | [] => ([], false)
  | i :: cbs =>
    let (ops, threw) := P.run old_value new_value i.2
    if threw then (ops, true)
    else
      let (rest, threw) := P.notify old_value new_value cbs
      (ops ++ rest, threw)

/-- The protected section of a function, run by thread `t`. -/
def Call.inside [DecidableEq K] (P : Program K V B) (t : Nat) (d : Objects K V B) (c : Call K V B) :
    Objects K V B × List (Statement K V B) :=
  let return' (r : Option Nat) : Objects K V B := { d with found := Function.update d.found t r }
  match c with
  | .lookUp type name default_value =>
    match d.datas name with
    | some v =>
      if (d.var v).type = type then (return' (some v), [.op (.logLevel rootLogger .INFO none)])
      else (return' none, [.op (.logLevel rootLogger .ERROR (some v))])
    | none =>
      if !validName name then (return' none, [.op (.logLevel rootLogger .ERROR none)])
      else
        let d' := (return' (some d.nvar)).setVar d.nvar
          { type := type, val := default_value, cbs := Ordered.empty }
        ({ d' with nvar := d.nvar + 1, datas := Function.update d.datas name (some d.nvar) }, [])
  | .lookUpName type name => (return' ((d.datas name).filter fun v => (d.var v).type = type), [])
  | .lookupBase name => (return' (d.datas name), [])
  | .toString v =>
    ({ d with failed := Function.update d.failed t (P.toStr (d.var v).type (d.var v).val).isNone },
      [])
  | .setValue v x =>
    if P.eq (d.var v).type x (d.var v).val then
      ({ d with
        changed := Function.update d.changed t false
        failed := Function.update d.failed t false }, [])
    else
      let (ops, threw) := P.notify (d.var v).val x (d.var v).cbs.entries
      ({ d with
        changed := Function.update d.changed t (!threw)
        failed := Function.update d.failed t threw }, ops.map .op)
  | .addListener v cb =>
    let id := (d.funId (d.var v).type + 1) % 2 ^ 64
    ({ d.setVar v { d.var v with cbs := (d.var v).cbs.assign (id, cb) } with
      funId := Function.update d.funId (d.var v).type id }, [])
  | .delListener v key => (d.setVar v { d.var v with cbs := (d.var v).cbs.erase key }, [])
  | .clearListener v => (d.setVar v { d.var v with cbs := Ordered.empty }, [])
  | _ => (d, [])

/-- Statements of the loggers; their mutexes are not shared. -/
def logStatements (body : List Log.Statement) : List (Statement K V B) :=
  body.map (Stmt.map (fun x => (.log x, .write)) .log)

/-- A statement that calls functions of the loggers. -/
def logCalls (cs : List Log.Call) : List (Statement K V B) :=
  cs.map fun c => .op (.log (.call c))

def Op.run [DecidableEq K] (P : Program K V B) (t : Nat) (d : Objects K V B) :
    Op K V B → Objects K V B × List (Statement K V B)
  | .call c => c.enter d t P
  | .locked c => c.inside P t d
  | .log o => ({ d with log := (o.run t d.log).1 }, logStatements (o.run t d.log).2)
  | .logLevel l level arg =>
    (d, if (d.log.logger l).level.val ≤ level.val then
        (arg.toList.map fun v => .op (.call (.toString v))) ++ logCalls [.log l level d.now]
      else [])
  | .assign v x => (d, if d.changed t then guarded (.var v, .write) [.op (.store v x)] else [])
  | .store v x => (d.setVar v { d.var v with val := x }, [])
  | .catchException => (d, if d.failed t then [.op (.logLevel rootLogger .ERROR none)] else [])
  | .listAllMember pre node =>
    if !validName pre then (d, [.op (.logLevel systemLogger .ERROR none)])
    else
      ({ d with allNodes := Function.update d.allNodes t (d.allNodes t ++ [(pre, node)]) },
        match node with
        | .map pairs => pairs.map fun it => .op (.listAllMember (memberName pre it.1) it.2)
        | _ => [])
  | .loadNodes =>
    (d, (d.allNodes t).flatMap fun i =>
      if i.1 = "" then []
      else [.op (.call (.lookupBase (tolower i.1))), .op (.loadNode (text P.yaml i.2))])
  | .loadNode val => (d, (d.found t).toList.map fun v => .op (.call (.fromString v val)))
  | .configure e => (d, logCalls [.getLogger e.name] ++ [.op (.configureLogger e)])
  | .configureLogger e =>
    (d, match d.log.loggers.find? e.name with
      | some i =>
        logCalls (.setLevel i.2 e.level ::
            (if e.formatter ≠ "" then [.setPattern i.2 e.formatter] else []) ++
              [.clearAppenders i.2]) ++
          e.appenders.map fun a => .op (.equip i.2 a)
      | none => [])
  | .equip l a =>
    let sink? : Option Log.Sink :=
      if a.type = 1 then some (.file a.file) else if a.type = 2 then some .stdout else none
    match sink? with
    | some sink =>
      let ap := d.log.nappender
      let made := (Log.Call.newAppender sink).enter d.log
      let fmt := LogFormatter.new a.formatter
      ({ d with log := made.1 }, logStatements made.2 ++ logCalls (.appenderSetLevel ap a.level ::
        (if a.formatter ≠ "" ∧ !fmt.isError then [.appenderSetFormatter ap (some fmt)] else []) ++
          [.addAppender l ap]))
    | none => (d, []) -- the null pointer ends the process
  | .drop name => (d, logCalls [.getLogger name] ++ [.op (.dropLogger name)])
  | .dropLogger name =>
    (d, match d.log.loggers.find? name with
      | some i => logCalls [.setLevel i.2 .UNKNOW, .clearAppenders i.2]
      | none => [])
  | .tick now => ({ d with now := now }, [])

/-- A thread calls functions on variables, loggers and appenders that there are. -/
def Op.callable (d : Objects K V B) : Op K V B → Bool
  | .call c =>
    match c with
    | .lookUp _ _ _ | .lookUpName _ _ | .lookupBase _ | .loadFromYaml _ => true
    | .toString v | .fromString v _ | .getValue v | .setValue v _ | .addListener v _
    | .delListener v _
    | .getListener v _ | .clearListener v => v < d.nvar
  | .log o => o.callable d.log
  | .logLevel l _ none => l < d.log.nlogger
  | .logLevel l _ (some v) => l < d.log.nlogger && v < d.nvar
  | .tick _ => true
  | _ => false

/-- Any number of threads that call these functions and those of the loggers. -/
def locking [DecidableEq K] (P : Program K V B) :
    LockCode Nat (Mutex × Mode) (Op K V B) (Objects K V B) where
  init := .initial P
  run t d o := o.run P t d
  callable d o := o.callable d

/-! ### The order of the locks -/

def Mutex.rank : Mutex → Nat
  | .registry => 0
  | .var _ => 1
  | .log x => 2 + x.rank

/-- The rank of the first lock that the function requests. -/
def Call.rank : Call K V B → Nat
  | .lookUp _ _ _ | .lookUpName _ _ | .lookupBase _ | .loadFromYaml _ => 0
  | _ => 1

/-- Below every lock that the operation requests. -/
def Op.bound : Op K V B → Nat
  | .call c => c.rank
  | .locked c => c.rank + 1
  | .log o => 2 + o.bound
  | .logLevel _ _ none => 3
  | .logLevel _ _ (some _) => 1
  | .assign _ _ | .loadNode _ => 1
  | .listAllMember _ _ | .loadNodes => 0
  | .catchException | .configure _ | .configureLogger _ | .equip _ _ | .drop _ | .dropLogger _ => 2
  | .store _ _ | .tick _ => 6

theorem Mutex.rank_le (x : Mutex) : x.rank ≤ 5 := by
  cases x with
  | registry => simp [rank]
  | var v => simp [rank]
  | log x =>
    have hle := x.rank_le
    simp only [rank]
    omega

/-- The rank of a lock, held in any way. -/
def lockRank (x : Mutex × Mode) : Nat := x.1.rank

section balance
variable {held : List (Mutex × Mode)} {d : Objects K V B}

/-- The mutexes of the loggers among the locks held. -/
def logMutexes (held : List (Mutex × Mode)) : List Log.Mutex :=
  held.filterMap fun y =>
    match y.1 with
    | .log x => some x
    | _ => none

theorem mem_logMutexes {x : Log.Mutex} : x ∈ logMutexes held ↔
    ∃ m, (Mutex.log x, m) ∈ held := by
  simp only [logMutexes, List.mem_filterMap]
  constructor
  · rintro ⟨⟨y, m⟩, hy, hx⟩
    cases y with
    | log x' =>
      cases hx
      exact ⟨m, hy⟩
    | _ => cases hx
  · rintro ⟨m, hm⟩
    exact ⟨(.log x, m), hm, rfl⟩

/-- What a statement of the loggers leads to. -/
theorem balanced_log (hd : Log.RootOnly d.log) (t : Nat) (o : Log.Op)
    (h : ∀ y ∈ held, lockRank y < 2 + o.bound) :
    Balanced lockRank Op.bound held (logStatements (o.run t d.log).2 : List (Statement K V B)) := by
  have hown : Balanced Log.Mutex.rank Log.Op.bound [] (o.run t d.log).2 :=
    Log.disciplined.balanced t d.log o [] hd fun x hx => by cases hx
  have hbase : Balanced Log.Mutex.rank Log.Op.bound (logMutexes held) (o.run t d.log).2 := by
    refine Log.disciplined.balanced t d.log o _ hd fun x hx => ?_
    obtain ⟨m, hm⟩ := mem_logMutexes.mp hx
    exact Nat.lt_of_add_lt_add_left (h _ hm)
  refine Balanced.embed (f := fun x => (Mutex.log x, Mode.write)) (g := Op.log) (k := 2)
    (fun _ => rfl) (fun _ => rfl) ?_ hown hbase
  rintro ⟨y, m⟩ hy
  cases y with
  | registry => exact .inl (show 0 < 2 by decide)
  | var v => exact .inl (show 1 < 2 by decide)
  | log x => exact .inr ⟨x, mem_logMutexes.mpr ⟨m, hy⟩, rfl⟩

/-- A function that holds its lock for all it does. -/
theorem balanced_under {c : Call K V B} {x : Mutex} {m : Mode} (hx : x.rank = c.rank)
    (h : ∀ y ∈ held, lockRank y < c.rank) : Balanced lockRank Op.bound held (c.under x m) := by
  have hlock : lockRank (x, m) = c.rank := hx
  apply Balanced.guarded
  · rw [hlock]
    exact h
  · apply Balanced.op
    intro y hy
    show lockRank y < c.rank + 1
    rcases List.mem_cons.mp hy with rfl | hy
    · omega
    · have hlt := h y hy
      omega

/-- Calls of the loggers, and what else requests no lock below theirs. -/
theorem balanced_logCalls (h : ∀ y ∈ held, lockRank y < 2) (cs : List Log.Call) :
    Balanced lockRank Op.bound held (logCalls cs : List (Statement K V B)) :=
  Balanced.each h fun _ _ => Nat.le_add_right 2 _

theorem Call.balanced_enter (d : Objects K V B) (t : Nat) (P : Program K V B) (c : Call K V B)
    (h : ∀ y ∈ held, lockRank y < c.rank) :
    Balanced lockRank Op.bound held (c.enter d t P).2 := by
  have next : ∀ {o : Op K V B}, c.rank ≤ o.bound → ∀ y ∈ held, lockRank y < o.bound :=
    fun ho y hy => Nat.lt_of_lt_of_le (h y hy) ho
  cases c with
  | lookUp _ _ _ | lookUpName _ _ | lookupBase _ | getValue _ | getListener _ _ | addListener _ _
  | delListener _ _ | clearListener _ => exact balanced_under rfl h
  | loadFromYaml root => exact .cons (next (Nat.zero_le _)) (.op (next (Nat.zero_le _)))
  | toString v => exact (balanced_under rfl h).append (.op (next (show 1 ≤ 2 by decide)))
  | setValue v x => exact (balanced_under rfl h).append (.op (next (Nat.le_refl 1)))
  | fromString v val =>
    simp only [enter]
    split
    · exact .cons (next (Nat.le_refl 1)) (.op (next (show 1 ≤ 2 by decide)))
    · exact .op (next (show 1 ≤ 3 by decide))

/-- What the listeners do consists of calls of the loggers and of the parts of the one of "logs". -/
theorem Program.notify_all {p : Op K V B → Prop} (P : Program K V B)
    (hlogLevel : p (.logLevel rootLogger .INFO none)) (hconfigure : ∀ e, p (.configure e))
    (hdrop : ∀ name, p (.drop name)) (hcall : ∀ c, p (.log (.call c)))
    (old_value new_value : V) (cbs : List (Nat × Listener B)) :
    ∀ o ∈ (P.notify old_value new_value cbs).1, p o := by
  have hrun : ∀ cb, ∀ o ∈ (P.run old_value new_value cb).1, p o := by
    intro cb o ho
    cases cb with
    | onLoggerConfChanged =>
      rcases List.mem_cons.mp ho with rfl | ho
      · exact hlogLevel
      · rcases List.mem_append.mp ho with ho | ho <;> obtain ⟨i, -, rfl⟩ := List.mem_map.mp ho
        · exact hconfigure i
        · exact hdrop i.name
    | own b =>
      obtain ⟨c, -, rfl⟩ := List.mem_map.mp ho
      exact hcall c
  induction cbs with
  | nil =>
    intro o ho
    cases ho
  | cons i cbs ih =>
    intro o ho
    simp only [notify] at ho
    split at ho
    · exact hrun i.2 o ho
    · rcases List.mem_append.mp ho with ho | ho
      · exact hrun i.2 o ho
      · exact ih o ho

/-- Under the read lock of a variable the loggers may be used. -/
theorem Program.notify_bound (P : Program K V B) (old_value new_value : V)
    (cbs : List (Nat × Listener B)) :
    ∀ o ∈ (P.notify old_value new_value cbs).1, 2 ≤ o.bound :=
  P.notify_all (show 2 ≤ 3 by decide) (fun _ => Nat.le_refl 2) (fun _ => Nat.le_refl 2)
    (fun _ => Nat.le_add_right 2 _) _ _ cbs

theorem Call.balanced_inside [DecidableEq K] (P : Program K V B) (t : Nat) (d : Objects K V B)
    (c : Call K V B) (h : ∀ y ∈ held, lockRank y < c.rank + 1) :
    Balanced lockRank Op.bound held (c.inside P t d).2 := by
  cases c with
  | lookUp type name default_value =>
    simp only [inside]
    split
    · split
      · exact .op fun y hy => Nat.lt_of_lt_of_le (h y hy) (show 1 ≤ 3 by decide)
      · exact .op h
    · split
      · exact .op fun y hy => Nat.lt_of_lt_of_le (h y hy) (show 1 ≤ 3 by decide)
      · exact .nil
  | setValue v x =>
    simp only [inside]
    split
    · exact .nil
    · exact Balanced.each h (P.notify_bound _ _ _)
  | _ => exact .nil

/-- One statement of any function. -/
theorem Op.balanced_run [DecidableEq K] (P : Program K V B) (t : Nat) (hd : Log.RootOnly d.log)
    (o : Op K V B) (h : ∀ y ∈ held, lockRank y < o.bound) :
    Balanced lockRank Op.bound held (o.run P t d).2 := by
  cases o with
  | call c => exact c.balanced_enter d t P h
  | locked c => exact c.balanced_inside P t d h
  | log o => exact balanced_log hd t o h
  | logLevel l level arg =>
    simp only [run]
    split
    · cases arg with
      | none =>
        refine Balanced.each h fun c hc => ?_
        obtain rfl := List.mem_singleton.mp hc
        -- a logger's own lock is the first one
        have hle := (Log.Mutex.rank_logger l).1
        show 3 ≤ 2 + (Log.Mutex.logger l).rank
        omega
      | some v =>
        refine .cons h ?_
        exact balanced_logCalls (fun y hy => Nat.lt_succ_of_lt (h y hy)) _
    · exact .nil
  | assign v x =>
    simp only [run]
    split
    · apply Balanced.guarded h
      apply Balanced.op
      intro y _
      exact Nat.lt_succ_of_le y.1.rank_le
    · exact .nil
  | catchException =>
    simp only [run]
    split
    · exact .op fun y hy => Nat.lt_succ_of_lt (h y hy)
    · exact .nil
  | listAllMember pre node =>
    simp only [run]
    split
    · exact .op fun y hy => absurd (h y hy) (Nat.not_lt_zero _)
    · cases node with
      | map pairs => exact Balanced.each h fun _ _ => Nat.zero_le _
      | _ => exact .nil
  | loadNodes =>
    refine Balanced.flatMap fun i _ => ?_
    split
    · exact .nil
    · exact .cons h (.op fun y hy => Nat.lt_succ_of_lt (h y hy))
  | loadNode val => exact Balanced.each h fun _ _ => Nat.le_refl 1
  | configure e => exact (balanced_logCalls h _).append (.op h)
  | configureLogger e =>
    simp only [run]
    split
    · exact (balanced_logCalls h _).append (Balanced.each h fun _ _ => Nat.le_refl 2)
    · exact .nil
  | equip l a =>
    simp only [run]
    split
    · next sink _ =>
      refine Balanced.append ?_ (balanced_logCalls h _)
      refine balanced_log (d := d) hd t (.call (.newAppender sink)) fun y hy => ?_
      exact Nat.lt_of_lt_of_le (h y hy) (Nat.le_add_right 2 _)
    · exact .nil
  | drop name => exact (balanced_logCalls h _).append (.op h)
  | dropLogger name =>
    simp only [run]
    split
    · exact balanced_logCalls h _
    · exact .nil
  | _ => exact .nil

end balance

/-! ### The invariant -/

theorem Op.rootOnly_run [DecidableEq K] (P : Program K V B) (t : Nat) {d : Objects K V B}
    (hd : Log.RootOnly d.log) (o : Op K V B) : Log.RootOnly (o.run P t d).1.log := by
  cases o with
  | call c => cases c <;> exact hd
  | locked c =>
    show Log.RootOnly (c.inside P t d).1.log
    cases c with
    | lookUp type name default_value =>
      simp only [Call.inside]
      split
      · split <;> exact hd
      · split <;> exact hd
    | setValue v x =>
      simp only [Call.inside]
      split <;> exact hd
    | _ => exact hd
  | log o => exact hd.run t o
  | listAllMember pre node =>
    simp only [run]
    split <;> exact hd
  | equip l a =>
    simp only [run]
    split
    · next sink _ => exact hd.run t (.call (.newAppender sink))
    · exact hd
  | _ => exact hd

theorem disciplined [DecidableEq K] (P : Program K V B) :
    Disciplined (locking P) lockRank Op.bound fun d => Log.RootOnly d.log where
  init := Log.disciplined.init.run 0 (.locked (.getLogger "system"))
  keeps t _ o hd := o.rootOnly_run P t hd
  balanced t _ o _ hd h := o.balanced_run P t hd h

/-- In every interleaving of threads that use configuration and loggers: readers share a
    lock and a writer has it alone, no thread requests a lock it holds, no threads wait in
    a circle, and as long as some thread has something to do, some thread waits for nobody. -/
theorem all_locks_ordered [DecidableEq K] (P : Program K V B)
    {s : Shared Nat Mutex (Op K V B) (Objects K V B)} (h : (locking P).sharedSystem.Reachable s) :
    SharedOrdered Mutex.rank s ∧
      ∀ t, s.todo t ≠ [] → ∃ u, s.todo u ≠ [] ∧ ∀ v, ¬ s.WaitsFor u v :=
  ⟨(disciplined P).shared h, fun _ ht => (disciplined P).shared_progress h Mutex.rank_le ht⟩

end program

/-- A program with the variable "logs" only. -/
def logsOnly : Program Unit LogDefines Empty where
  yaml := { load := fun _ => none, emit := fun _ => "" }
  eq _ x y := Log.sameDefines x.entries y.entries
  fromStr _ _ := none
  toStr _ _ := none
  logDefines := ()
  defines x := x
  noDefines := Ordered.empty
  listen b := nomatch b
  throws b := nomatch b

def oneDefine : LogDefines :=
  .single { name := "test", level := .INFO, formatter := "", appenders := [] }

/-- Thread 1 sets "logs" and has the listener log; thread 2 waits to add a listener, and
    thread 3 to read the value. -/
def loggingInListener : List (LockCode.Label Nat (Op Unit LogDefines Empty)) :=
  .call 1 (.call (.setValue 0 oneDefine)) :: List.replicate 6 (.step 1) ++
    [.call 2 (.call (.clearListener 0)), .step 2, .call 3 (.call (.getValue 0)), .step 3]

theorem loggingInListener_runs :
    ((locking logsOnly).sharedSystem.exec
      (locking logsOnly).sharedSystem.init loggingInListener).isSome := by
  decide

theorem all_locks_ordered_listener :
    ∃ s, (locking logsOnly).sharedSystem.exec
      (locking logsOnly).sharedSystem.init loggingInListener = some s
      ∧ s.holders (.var 0) = [(1, .read)] ∧
        s.holders (.log (.logger rootLogger)) = [(1, .write)]
      ∧ s.WaitsFor 2 1 ∧ s.WaitsFor 3 2 ∧ SharedOrdered Mutex.rank s
      ∧ ∀ t, s.todo t ≠ [] → ∃ u, s.todo u ≠ [] ∧ ∀ v, ¬ s.WaitsFor u v :=
  ⟨_, (Option.some_get loggingInListener_runs).symm, rfl, rfl,
    ⟨.var 0, .write, rfl, .inl ⟨.read, .head _, rfl⟩⟩,
    ⟨.var 0, .read, rfl, .inr ⟨rfl, rfl⟩⟩,
    all_locks_ordered logsOnly (System.reachable_get _ loggingInListener_runs)⟩

section program
variable {K V B : Type}

/-! ### The end of the calls -/

/-- For a section of the loggers: what can still come of it. -/
def lockedHeight : Log.Call → Nat
  | .log l _ _ => if l = rootLogger then 3 else 5
  | .managerToYamlString => 4
  | .addAppender _ _ | .toYamlString _ => 2
  | .setFormatter _ _ => 1
  | _ => 0

def logHeight : Log.Op → Nat
  | .call (.setPattern _ _) => 3
  | .call (.newAppender _) | .call (.appenderLog _ _ _) => 2
  | .call c => lockedHeight c + 1
  | .locked c => lockedHeight c
  | .testFormatter _ _ => 1
  | _ => 0

noncomputable def height : Op K V B → Nat
  | .call (.fromString _ _) => 12
  | .call (.lookUp _ _ _) => 12
  | .call (.setValue _ _) => 11
  | .call (.toString _) => 9
  | .call (.loadFromYaml root) => 16 + sizeOf root
  | .call _ => 1
  | .locked (.lookUp _ _ _) => 11
  | .locked (.setValue _ _) => 10
  | .locked _ => 0
  | .log o => logHeight o
  | .logLevel _ _ none => 7
  | .logLevel _ _ (some _) => 10
  | .assign _ _ => 1
  | .store _ _ | .tick _ => 0
  | .catchException => 8
  | .listAllMember _ node => 15 + sizeOf node
  | .loadNodes => 14
  | .loadNode _ => 13
  | .configure _ => 9
  | .configureLogger _ => 8
  | .equip _ _ => 7
  | .drop _ => 8
  | .dropLogger _ => 7

end program

end Gwn.Config.Locks
