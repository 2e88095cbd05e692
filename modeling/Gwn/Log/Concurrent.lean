import Gwn.Framework.System
import Gwn.Log.Define

/-! # Logging while a logger is reconfigured

    The listener of "logs" changes a logger by separate steps under its mutex
    (gwn/log.cc). Other threads call `Logger::log` meanwhile, which compares the level
    before it takes the mutex. What they see is the logger between two of the steps:
    not always the old or the new definition (`not_atomic`), but nothing besides the
    five stages of `Stage`, and each event that passes the level is handed over once
    (`delivered_at_stage`). -/

namespace Gwn.Log

open LTS

/-! ### The steps of the listener -/

/-- A step of the listener on the logger. -/
inductive Change where
  | setLevel (val : Level)
  | setFormatter (val : String)
  | clearAppenders
  | addAppender (appender : Appender)
deriving DecidableEq

def Change.apply (lg : Logger) : Change → Logger
  | .setLevel val => lg.setLevel val
  | .setFormatter val => lg.setPattern val
  | .clearAppenders => lg.clearAppenders
  | .addAppender appender => lg.addAppender appender

/-- The steps for a definition that is new or modified, with appenders `as`. -/
def changes (d : LogDefine) (as : List Appender) : List Change :=
  .setLevel d.level :: (if d.formatter ≠ "" then [.setFormatter d.formatter] else []) ++
    .clearAppenders :: as.map .addAppender

theorem foldlM_addAppender (l : List LogAppenderDefine) (lg : Logger) :
    l.foldlM (fun lg a => (newAppender a).map lg.addAppender) lg
      = (l.mapM newAppender).map fun as => as.foldl Logger.addAppender lg := by
  induction l generalizing lg with
  | nil => rfl
  | cons a l ih =>
    rw [List.foldlM_cons, List.mapM_cons]
    cases newAppender a with
    | none => rfl
    | some ap =>
      show l.foldlM _ (lg.addAppender ap) = _
      rw [ih]
      cases l.mapM newAppender <;> rfl

/-- One after the other they are `configure`. -/
theorem configure_eq (d : LogDefine) (lg : Logger) :
    configure d lg
      = (d.appenders.mapM newAppender).map fun as => (changes d as).foldl Change.apply lg := by
  unfold configure changes
  rw [foldlM_addAppender]
  congr 1
  funext as
  by_cases hformatter : d.formatter = "" <;>
    simp [hformatter, Change.apply, List.foldl_map]

/-! ### The threads that log -/

/-- Who is handed an event by `Logger::log`. -/
inductive Dest where
  | appenders (l : List Appender)
  /-- `m_root->log(level, event)`. -/
  | root
  | nowhere
deriving DecidableEq

/-- A call of `Logger::log`: `checked` and `cut` count the steps that the listener had
    taken at the comparison of the level and when the mutex was held. -/
structure Delivery where
  thread : Nat
  level : Level
  checked : Nat
  cut : Nat
  dest : Dest

structure LoggingState where
  logger : Logger
  /-- The steps that the listener has taken. -/
  cut : Nat
  /-- The level of the event and `cut` at the comparison, for a thread that is about
      to lock the mutex. -/
  pc : Nat → Option (Level × Nat)
  delivered : List Delivery

inductive LoggingLabel where
  | listener
  /-- `if(level >= m_level)`. -/
  | check (t : Nat) (level : Level)
  /-- The section under the mutex. -/
  | log (t : Nat)
deriving DecidableEq

/-- The section of `Logger::log` under the mutex. -/
def Logger.dest (hasRoot : Bool) (lg : Logger) : Dest :=
  if lg.appenders ≠ [] then .appenders lg.appenders
  else if hasRoot then .root
  else .nowhere

def loggingStep (hasRoot : Bool) (steps : List Change) (s : LoggingState) :
    LoggingLabel → Option LoggingState
  | .listener => steps[s.cut]?.map fun c => { s with logger := c.apply s.logger, cut := s.cut + 1 }
  | .check t level =>
    match s.pc t with
    | some _ => none
    | none =>
      if s.logger.level.val ≤ level.val then
        some { s with pc := Function.update s.pc t (some (level, s.cut)) }
      else some s
  | .log t =>
    (s.pc t).map fun p =>
      { s with
        pc := Function.update s.pc t none
        delivered := s.delivered ++ [⟨t, p.1, p.2, s.cut, s.logger.dest hasRoot⟩] }

/-- The logger `lg` while the listener takes `steps`; `hasRoot` says if `m_root` is set. -/
def logging (hasRoot : Bool) (steps : List Change) (lg : Logger) :
    System LoggingState LoggingLabel where
  init := { logger := lg, cut := 0, pc := fun _ => none, delivered := [] }
  step := loggingStep hasRoot steps

/-! ### Calls that pass the level -/

/-- A call of `Logger::log` whose event passes the level. -/
structure Passing where
  thread : Nat
  level : Level
  /-- The steps that the listener had taken at the comparison. -/
  checked : Nat
deriving DecidableEq

/-- The call that an event has been handed over in. -/
def Delivery.call (r : Delivery) : Passing :=
  ⟨r.thread, r.level, r.checked⟩

/-- The call of thread `t` that is between the comparison and the mutex. -/
def LoggingState.pending (s : LoggingState) (t : Nat) : List Passing :=
  (s.pc t).toList.map fun p => ⟨t, p.1, p.2⟩

/-- Every call that passes, in the order of the comparisons. -/
def recordPassing (calls : List Passing) (s : LoggingState) : LoggingLabel → List Passing
  | .check t level =>
    if s.logger.level.val ≤ level.val then calls ++ [⟨t, level, s.cut⟩] else calls
  | _ => calls

/-- The same logger, and the calls that pass. -/
def watchedLogging (hasRoot : Bool) (steps : List Change) (lg : Logger) :
    System (LoggingState × List Passing) LoggingLabel :=
  (logging hasRoot steps lg).withHistory [] recordPassing

/-- The events that have been handed over are those of the calls that pass: each one once,
    for every thread in the order of its calls, and but for the call that it is in. -/
def EachOnce (s : LoggingState) (calls : List Passing) : Prop :=
  ∀ t, (s.delivered.map Delivery.call).filter (·.thread = t) ++ s.pending t
    = calls.filter (·.thread = t)

theorem eachOnce_step {hasRoot : Bool} {steps : List Change} {s s' : LoggingState}
    {calls : List Passing} {l : LoggingLabel} (h : EachOnce s calls)
    (hstep : loggingStep hasRoot steps s l = some s') : EachOnce s' (recordPassing calls s l) := by
  intro t
  have ht := h t
  cases l with
  | listener =>
    obtain ⟨c, -, rfl⟩ := Option.map_eq_some_iff.mp hstep
    exact ht
  | check u level =>
    simp only [loggingStep] at hstep
    split at hstep
    · cases hstep
    · next hidle =>
      by_cases hlevel : s.logger.level.val ≤ level.val
      · rw [if_pos hlevel, Option.some.injEq] at hstep
        subst hstep
        rw [recordPassing, if_pos hlevel, List.filter_append, ← ht]
        by_cases hut : u = t
        · -- the call was not in another one
          subst hut
          simp [LoggingState.pending, hidle]
        · simp [LoggingState.pending, Function.update_of_ne (Ne.symm hut), hut]
      · rw [if_neg hlevel, Option.some.injEq] at hstep
        subst hstep
        rw [recordPassing, if_neg hlevel, ht]
  | log u =>
    obtain ⟨p, hp, rfl⟩ := Option.map_eq_some_iff.mp hstep
    refine Eq.trans ?_ ht
    by_cases hut : u = t
    · subst hut
      simp [LoggingState.pending, Delivery.call, hp]
    · simp [LoggingState.pending, Delivery.call, Function.update_of_ne (Ne.symm hut), hut]

theorem reachable_eachOnce {hasRoot : Bool} {steps : List Change} {lg : Logger} :
    ∀ p, (watchedLogging hasRoot steps lg).Reachable p → EachOnce p.1 p.2 := by
  apply System.invariant
  · exact fun _ => rfl
  · intro p l p' h hstep
    obtain ⟨hstep, hcalls⟩ := System.withHistory_step.mp hstep
    rw [hcalls]
    exact eachOnce_step h hstep

/-- Nothing keeps a call from handing over its event. -/
theorem log_goes {hasRoot : Bool} {steps : List Change} {lg : Logger} {s : LoggingState} {t : Nat}
    (h : s.pending t ≠ []) :
    ∃ s', (logging hasRoot steps lg).step s (.log t) = some s' ∧ s'.pending t = [] := by
  cases hp : s.pc t with
  | none =>
    have hnone : s.pending t = [] := by rw [LoggingState.pending, hp]; rfl
    exact absurd hnone h
  | some p =>
    refine ⟨_, Option.map_eq_some_iff.mpr ⟨p, hp, rfl⟩, ?_⟩
    simp [LoggingState.pending]

/-! ### Cuts -/

/-- The logger after the first steps. -/
def loggerAt (steps : List Change) (lg : Logger) (cut : Nat) : Logger :=
  (steps.take cut).foldl Change.apply lg

theorem loggerAt_succ {steps : List Change} {lg : Logger} {cut : Nat} {c : Change}
    (h : steps[cut]? = some c) : loggerAt steps lg (cut + 1) = c.apply (loggerAt steps lg cut) := by
  unfold loggerAt
  rw [List.take_add_one, h, List.foldl_append]
  rfl

/-- The level of an event passes that of the logger at a cut. -/
def Passes (steps : List Change) (lg : Logger) (level : Level) (cut : Nat) : Prop :=
  (loggerAt steps lg cut).level.val ≤ level.val

/-- The logger is that of the current cut, and every call saw it at its cuts. -/
structure CutInv (hasRoot : Bool) (steps : List Change) (lg : Logger)
    (s : LoggingState) : Prop where
  logger : s.logger = loggerAt steps lg s.cut
  cut : s.cut ≤ steps.length
  pc : ∀ t level checked, s.pc t = some (level, checked) →
    checked ≤ s.cut ∧ Passes steps lg level checked
  delivered : ∀ r ∈ s.delivered, r.checked ≤ r.cut ∧ r.cut ≤ steps.length ∧
    Passes steps lg r.level r.checked ∧ r.dest = (loggerAt steps lg r.cut).dest hasRoot

theorem CutInv.listener {hasRoot : Bool} {steps : List Change} {lg : Logger} {s : LoggingState}
    {c : Change} (hinv : CutInv hasRoot steps lg s) (hc : steps[s.cut]? = some c) :
    CutInv hasRoot steps lg { s with logger := c.apply s.logger, cut := s.cut + 1 } where
  logger := by
    show c.apply s.logger = _
    rw [loggerAt_succ hc, hinv.logger]
  cut := (List.getElem?_eq_some_iff.mp hc).1
  pc t level checked h := by
    obtain ⟨hle, hpass⟩ := hinv.pc t level checked h
    exact ⟨Nat.le_succ_of_le hle, hpass⟩
  delivered := hinv.delivered

theorem CutInv.check {hasRoot : Bool} {steps : List Change} {lg : Logger} {s : LoggingState}
    {level : Level} (hinv : CutInv hasRoot steps lg s) (hlevel : s.logger.level.val ≤ level.val)
    (t : Nat) :
    CutInv hasRoot steps lg { s with pc := Function.update s.pc t (some (level, s.cut)) } where
  logger := hinv.logger
  cut := hinv.cut
  pc t' level' checked h := by
    by_cases ht : t' = t
    · subst ht
      have h : some (level, s.cut) = some (level', checked) := by simpa using h
      cases h
      refine ⟨Nat.le_refl _, ?_⟩
      show (loggerAt steps lg s.cut).level.val ≤ level.val
      rw [← hinv.logger]
      exact hlevel
    · exact hinv.pc t' level' checked (by simpa [ht] using h)
  delivered := hinv.delivered

theorem CutInv.log {hasRoot : Bool} {steps : List Change} {lg : Logger} {s : LoggingState} {t : Nat}
    {p : Level × Nat} (hinv : CutInv hasRoot steps lg s) (hp : s.pc t = some p) :
    CutInv hasRoot steps lg { s with
      pc := Function.update s.pc t none
      delivered := s.delivered ++ [⟨t, p.1, p.2, s.cut, s.logger.dest hasRoot⟩] } where
  logger := hinv.logger
  cut := hinv.cut
  pc t' level' checked h := by
    by_cases ht : t' = t
    · simp [ht] at h
    · exact hinv.pc t' level' checked (by simpa [ht] using h)
  delivered r hr := by
    rcases List.mem_append.mp hr with hr | hr
    · exact hinv.delivered r hr
    · obtain ⟨hle, hpass⟩ := hinv.pc t p.1 p.2 hp
      rw [List.mem_singleton.mp hr]
      exact ⟨hle, hinv.cut, hpass, by rw [hinv.logger]⟩

theorem cutInv_step {hasRoot : Bool} {steps : List Change} {lg : Logger} {s s' : LoggingState}
    {l : LoggingLabel} (hinv : CutInv hasRoot steps lg s)
    (h : loggingStep hasRoot steps s l = some s') :
    CutInv hasRoot steps lg s' := by
  cases l with
  | listener =>
    obtain ⟨c, hc, rfl⟩ := Option.map_eq_some_iff.mp h
    exact hinv.listener hc
  | check t level =>
    simp only [loggingStep] at h
    split at h
    · cases h
    · split at h
      · next hlevel =>
        cases h
        exact hinv.check hlevel t
      · cases h
        exact hinv
  | log t =>
    obtain ⟨p, hp, rfl⟩ := Option.map_eq_some_iff.mp h
    exact hinv.log hp

theorem reachable_cutInv {hasRoot : Bool} {steps : List Change} {lg : Logger} :
    ∀ s, (logging hasRoot steps lg).Reachable s → CutInv hasRoot steps lg s := by
  apply System.invariant
  · exact ⟨rfl, Nat.zero_le _, nofun, nofun⟩
  · intro s l s' hinv hstep
    exact cutInv_step hinv hstep

/-! ### Stages -/

/-- What the listener has done to the appenders. -/
inductive Stage where
  | before
  | formatted
  | cleared
  | added (k : Nat)

/-- The step `clearAppenders`. -/
def clearStep (d : LogDefine) : Nat :=
  if d.formatter ≠ "" then 2 else 1

/-- The stage after the first steps for a definition. -/
def stage (d : LogDefine) (cut : Nat) : Stage :=
  if cut ≤ 1 then .before
  else if cut ≤ clearStep d then .formatted
  else if cut ≤ clearStep d + 1 then .cleared
  else .added (cut - (clearStep d + 1))

/-- Who is handed an event while `old` is made to be `new`. -/
def Stage.dest (hasRoot : Bool) (d : LogDefine) (old new : Logger) : Stage → Dest
  | before => .appenders old.appenders
  | formatted => .appenders (old.setPattern d.formatter).appenders
  | cleared => if hasRoot then .root else .nowhere
  | added k => .appenders (new.appenders.take k)

theorem dest_of_ne_nil {hasRoot : Bool} {lg : Logger} (h : lg.appenders ≠ []) :
    lg.dest hasRoot = .appenders lg.appenders :=
  if_pos h

theorem dest_of_nil {hasRoot : Bool} {lg : Logger} (h : lg.appenders = []) :
    lg.dest hasRoot = if hasRoot then .root else .nowhere :=
  if_neg (not_not_intro h)

theorem setPattern_ne_nil {lg : Logger} (h : lg.appenders ≠ []) (val : String) :
    (lg.setPattern val).appenders ≠ [] := by
  cases herror : (LogFormatter.new val).isError with
  | true => simpa [Logger.setPattern, herror] using h
  | false => simpa [Logger.setPattern, herror, Logger.setFormatter] using h

theorem setLevel_setPattern (lg : Logger) (level : Level) (val : String) :
    ((lg.setLevel level).setPattern val).appenders = (lg.setPattern val).appenders := by
  cases herror : (LogFormatter.new val).isError <;>
    simp [Logger.setPattern, Logger.setFormatter, Logger.setLevel, herror]

/-- What `addAppender` makes of an appender. -/
def Appender.inherit (formatter : Option LogFormatter) (a : Appender) : Appender :=
  if a.formatter.isNone then { a with formatter := formatter } else a

theorem foldl_addAppender (as : List Appender) (lg : Logger) :
    (as.foldl Logger.addAppender lg).appenders
      = lg.appenders ++ as.map (·.inherit lg.formatter) := by
  induction as generalizing lg with
  | nil => simp
  | cons a as ih =>
    rw [List.foldl_cons, ih]
    simp [Logger.addAppender, Appender.inherit]

/-- The appenders that are added first are the first of the result. -/
theorem foldl_addAppender_take (as : List Appender) {lg : Logger}
    (h : lg.appenders = []) (k : Nat) :
    ((as.take k).foldl Logger.addAppender lg).appenders
      = (as.foldl Logger.addAppender lg).appenders.take k := by
  rw [foldl_addAppender, foldl_addAppender, h, List.nil_append, List.nil_append, List.map_take]

theorem stage_cleared (d : LogDefine) (k : Nat) :
    stage d (clearStep d + 1 + k) = if k = 0 then .cleared else .added k := by
  have hclear : 1 ≤ clearStep d := by
    unfold clearStep
    split <;> omega
  unfold stage
  rw [if_neg (by omega), if_neg (by omega)]
  by_cases hk : k = 0
  · rw [if_pos (by omega), if_pos hk]
  · rw [if_neg (by omega), if_neg hk, Nat.add_sub_cancel_left]

/-- The logger while the appenders are added to `lg`, which has been cleared. -/
theorem adding_dest {as : List Appender} {lg : Logger} (h : lg.appenders = []) {k : Nat}
    (hk : k ≤ as.length) (hasRoot : Bool) (d : LogDefine) (old : Logger) :
    (((as.map Change.addAppender).take k).foldl Change.apply lg).dest hasRoot
      = (stage d (clearStep d + 1 + k)).dest hasRoot d old (as.foldl Logger.addAppender lg) := by
  have hfold : ((as.map Change.addAppender).take k).foldl Change.apply lg
      = (as.take k).foldl Logger.addAppender lg := by
    rw [← List.map_take, List.foldl_map]
    rfl
  rw [hfold, stage_cleared]
  by_cases hzero : k = 0
  · subst hzero
    exact dest_of_nil h
  · rw [if_neg hzero, Stage.dest, ← foldl_addAppender_take as h]
    apply dest_of_ne_nil
    rw [foldl_addAppender, h]
    intro hnil
    have hlength : k = 0 := by simpa [hk] using congrArg List.length hnil
    exact hzero hlength

theorem loggerAt_dest (d : LogDefine) (as : List Appender) {old : Logger}
    (hold : old.appenders ≠ []) {cut : Nat} (hcut : cut ≤ (changes d as).length)
    (hasRoot : Bool) :
    (loggerAt (changes d as) old cut).dest hasRoot
      = (stage d cut).dest hasRoot d old ((changes d as).foldl Change.apply old) := by
  by_cases hformatter : d.formatter = ""
  · have hchanges :
        changes d as = .setLevel d.level :: .clearAppenders :: as.map .addAppender := by
      simp [changes, hformatter]
    have hclear : clearStep d = 1 := by simp [clearStep, hformatter]
    rw [hchanges] at hcut ⊢
    match cut, hcut with
    | 0, _ => exact dest_of_ne_nil hold
    | 1, _ => exact dest_of_ne_nil hold
    | k + 2, hcut =>
      have hk : k ≤ as.length := by simpa using hcut
      have hnil : ((old.setLevel d.level).clearAppenders).appenders = [] := rfl
      have hadding := adding_dest hnil hk hasRoot d old
      rw [hclear, Nat.add_comm] at hadding
      rw [List.foldl_cons, List.foldl_cons, List.foldl_map]
      exact hadding
  · have hchanges : changes d as
        = .setLevel d.level :: .setFormatter d.formatter :: .clearAppenders :: as.map
        .addAppender := by
      simp [changes, hformatter]
    have hclear : clearStep d = 2 := by simp [clearStep, hformatter]
    rw [hchanges] at hcut ⊢
    match cut, hcut with
    | 0, _ => exact dest_of_ne_nil hold
    | 1, _ => exact dest_of_ne_nil hold
    | 2, _ =>
      have hstage : stage d 2 = .formatted := by simp [stage, hclear]
      rw [hstage, Stage.dest, ← setLevel_setPattern old d.level]
      apply dest_of_ne_nil
      show ((old.setLevel d.level).setPattern d.formatter).appenders ≠ []
      rw [setLevel_setPattern]
      exact setPattern_ne_nil hold d.formatter
    | k + 3, hcut =>
      have hk : k ≤ as.length := by simpa using hcut
      have hnil :
          (((old.setLevel d.level).setPattern d.formatter).clearAppenders).appenders = [] := rfl
      have hadding := adding_dest hnil hk hasRoot d old
      rw [hclear, Nat.add_comm] at hadding
      rw [List.foldl_cons, List.foldl_cons, List.foldl_cons, List.foldl_map]
      exact hadding

theorem foldl_changes_appenders (d : LogDefine) (as : List Appender) (lg : Logger) :
    ∃ formatter, ((changes d as).foldl Change.apply lg).appenders
      = as.map (·.inherit formatter) := by
  unfold changes
  rw [List.foldl_append, List.foldl_cons, List.foldl_map]
  exact ⟨_, foldl_addAppender as _⟩

theorem mapM_ne_nil {l : List LogAppenderDefine} {as : List Appender}
    (h : l.mapM newAppender = some as) (hl : l ≠ []) : as ≠ [] := by
  obtain ⟨a, l, rfl⟩ := List.exists_cons_of_ne_nil hl
  rw [List.mapM_cons] at h
  obtain ⟨ap, -, h⟩ := Option.bind_eq_some_iff.mp h
  obtain ⟨aps, -, h⟩ := Option.bind_eq_some_iff.mp h
  cases h
  nofun

theorem apply_level {c : Change} (h : ∀ val, c ≠ .setLevel val) (lg : Logger) :
    (c.apply lg).level = lg.level := by
  cases c with
  | setLevel val => exact absurd rfl (h val)
  | setFormatter val =>
    cases herror : (LogFormatter.new val).isError <;>
      simp [Change.apply, Logger.setPattern, Logger.setFormatter, herror]
  | clearAppenders => rfl
  | addAppender a => rfl

theorem foldl_level {l : List Change} (h : ∀ c ∈ l, ∀ val, c ≠ .setLevel val)
    (lg : Logger) :
    (l.foldl Change.apply lg).level = lg.level := by
  induction l generalizing lg with
  | nil => rfl
  | cons c l ih =>
    obtain ⟨hc, hl⟩ := List.forall_mem_cons.mp h
    rw [List.foldl_cons, ih hl, apply_level hc]

theorem loggerAt_level (d : LogDefine) (as : List Appender) (old : Logger) (cut : Nat) :
    (loggerAt (changes d as) old cut).level = if cut = 0 then old.level else d.level := by
  cases cut with
  | zero => rfl
  | succ cut =>
    -- the level is only set by the first step
    unfold loggerAt changes
    rw [List.cons_append, List.take_succ_cons, List.foldl_cons, foldl_level]
    · rfl
    · intro c hc val
      have hc := List.mem_of_mem_take hc
      by_cases hformatter : d.formatter = ""
      · simp only [hformatter, ne_eq, not_true_eq_false, if_false, List.nil_append, List.mem_cons,
          List.mem_map] at hc
        rcases hc with rfl | ⟨a, -, rfl⟩ <;> nofun
      · simp only [hformatter, ne_eq, not_false_eq_true, if_true, List.cons_append,
          List.nil_append, List.mem_cons, List.mem_map] at hc
        rcases hc with rfl | rfl | ⟨a, -, rfl⟩ <;> nofun

/-- While an old definition with appenders is replaced by a new one: every call that passes
    the level hands its event over once, and can always go on to do so; it is handed to
    exactly the appenders of the logger at one stage between two steps of the listener,
    after its level was compared with the logger's at the same or an earlier cut. It is
    the old definition's until the formatter is set, and the new one's after the last
    appender is added. -/
theorem delivered_at_stage {d : LogDefine} {as : List Appender}
    (has : d.appenders.mapM newAppender = some as) (hd : d.appenders ≠ []) {old new : Logger}
    (hold : old.appenders ≠ []) (hnew : configure d old = some new) {hasRoot : Bool}
    {s : LoggingState} {calls : List Passing}
    (h : (watchedLogging hasRoot (changes d as) old).Reachable (s, calls)) :
    EachOnce s calls
      ∧ (∀ t, s.pending t ≠ [] →
        ∃ s', (logging hasRoot (changes d as) old).step s (.log t) = some s'
          ∧ s'.pending t = [])
      ∧ ∀ r ∈ s.delivered, r.dest = (stage d r.cut).dest hasRoot d old new
        ∧ r.checked ≤ r.cut ∧
          (if r.checked = 0 then old.level else d.level).val ≤ r.level.val
        ∧ (r.cut ≤ 1 → r.dest = .appenders old.appenders)
        ∧ (r.cut = (changes d as).length → r.dest = .appenders new.appenders) := by
  refine ⟨reachable_eachOnce _ h, fun _ hpending => log_goes hpending, ?_⟩
  have hfinal : (changes d as).foldl Change.apply old = new := by
    rw [configure_eq, has] at hnew
    exact Option.some.inj hnew
  intro r hr
  obtain ⟨hle, hcut, hpass, hdest⟩ := (reachable_cutInv s h.of_history).delivered r hr
  have hstage : r.dest = (stage d r.cut).dest hasRoot d old new := by
    rw [hdest, loggerAt_dest d as hold hcut, hfinal]
  refine ⟨hstage, hle, ?_, ?_, ?_⟩
  · unfold Passes at hpass
    rw [loggerAt_level] at hpass
    exact hpass
  · intro hbefore
    rw [hstage, stage, if_pos hbefore]
    rfl
  · intro hafter
    have hne : new.appenders ≠ [] := by
      obtain ⟨formatter, happenders⟩ := foldl_changes_appenders d as old
      rw [← hfinal, happenders]
      simpa using mapM_ne_nil has hd
    rw [hdest, hafter, loggerAt, List.take_length, hfinal]
    exact dest_of_ne_nil hne

/-! ### One event -/

/-- One appender to the standard output, and a level. -/
def oneStdout (level : Level) : LogDefine :=
  { name := "system", level := level, formatter := ""
    appenders := [{ type := 2, level := .UNKNOW, formatter := "", file := "" }] }

/-- The appender that is made for it. -/
def stdoutAppender : Appender :=
  { sink := .stdout, level := .UNKNOW }

/-- The logger that a new definition makes. -/
def stdoutLogger (level : Level) : Logger :=
  ((Logger.new.setLevel level).clearAppenders).addAppender stdoutAppender

/-- An event between `clearAppenders` and `addAppender`. -/
def betweenSteps : List LoggingLabel :=
  [.listener, .listener, .check 0 .ERROR, .log 0]

theorem delivered_at_stage_between :
    ∃ s calls, (watchedLogging true (changes (oneStdout .ERROR) [stdoutAppender])
        (stdoutLogger .INFO)).Reachable (s, calls)
      ∧ s.delivered.map Delivery.call = [⟨0, .ERROR, 2⟩] ∧ EachOnce s calls
      ∧ ∀ r ∈ s.delivered, r.dest
        = (stage (oneStdout .ERROR) r.cut).dest true (oneStdout .ERROR)
          (stdoutLogger .INFO) (stdoutLogger .ERROR) := by
  have hrun : ((watchedLogging true (changes (oneStdout .ERROR) [stdoutAppender])
      (stdoutLogger .INFO)).exec (watchedLogging true (changes (oneStdout .ERROR) [stdoutAppender])
        (stdoutLogger .INFO)).init betweenSteps).any
          (fun p => p.1.delivered.map Delivery.call = [⟨0, .ERROR, 2⟩]) = true := by
    decide
  obtain ⟨⟨s, calls⟩, hs, hdelivered⟩ := (Option.any_eq_true _ _).mp hrun
  have hreach := System.reachable_exec .init hs
  obtain ⟨honce, -, hstage⟩ := delivered_at_stage rfl (by decide) (by decide) rfl hreach
  exact ⟨s, calls, hreach, of_decide_eq_true hdelivered, honce, fun r hr => (hstage r hr).1⟩

/-- The event goes to the root logger instead. -/
theorem not_atomic :
    ¬ ∀ (d₀ d : LogDefine) (as : List Appender) (old new : Logger) (hasRoot : Bool)
    (s : LoggingState), configure d₀ .new = some old → d₀.appenders ≠ [] →
    d.eq d₀ = false → d.name = d₀.name → d.appenders.mapM newAppender = some as →
      d.appenders ≠ [] →
    configure d old = some new → (logging hasRoot (changes d as) old).Reachable s →
    ∀ r ∈ s.delivered, r.dest = .appenders old.appenders ∨
      r.dest = .appenders new.appenders := by
  intro h
  have hrun :
      ((logging true (changes (oneStdout .ERROR) [stdoutAppender]) (stdoutLogger .INFO)).exec
      (logging true (changes (oneStdout .ERROR) [stdoutAppender]) (stdoutLogger .INFO)).init
      betweenSteps).any (fun s => s.delivered.map (·.dest) = [.root]) = true := by
    decide
  obtain ⟨s, hs, hdelivered⟩ := (Option.any_eq_true _ _).mp hrun
  have hreach := System.reachable_exec .init hs
  have hdest : s.delivered.map (·.dest) = [.root] := of_decide_eq_true hdelivered
  have hall := h (oneStdout .INFO) (oneStdout .ERROR) _ _ _ true s rfl (by decide) (by decide) rfl
    rfl (by decide) rfl hreach
  have hroot : Dest.root ∈ s.delivered.map (·.dest) := by
    rw [hdest]
    exact List.mem_singleton_self _
  obtain ⟨r, hr, hrdest⟩ := List.mem_map.mp hroot
  rcases hall r hr with hold | hnew
  · cases hrdest.symm.trans hold
  · cases hrdest.symm.trans hnew

end Gwn.Log
