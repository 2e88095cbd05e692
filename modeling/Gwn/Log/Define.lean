import Gwn.Framework.Keyed
import Gwn.Framework.Ordered
import Gwn.Log.Logger
import Mathlib.Data.String.Basic

/-! # The log configuration

    `LogAppenderDefine`, `LogDefine`, the variable "logs" and its listener
    (gwn/log.cc). `LogDefine::operator==` compares the appenders of one side with
    themselves, so definitions that differ in their appenders only are equal to it
    (`eq_iff`). Both the comparison of `setValue` and the listener rest on it. -/

namespace Gwn.Log

open LTS

/-! ### Definitions -/

structure LogAppenderDefine where
  /-- 1 is a file, 2 the standard output. -/
  type : Int
  level : Level
  formatter : String
  file : String
deriving DecidableEq

structure LogDefine where
  name : String
  level : Level
  formatter : String
  appenders : List LogAppenderDefine
deriving DecidableEq

/-- `LogDefine::operator==`. -/
def LogDefine.eq (d oth : LogDefine) : Bool :=
  d.name = oth.name && d.level = oth.level && d.formatter = oth.formatter &&
    d.appenders = d.appenders

/-- `std::set<LogDefine>`; `operator<` compares the names. -/
abbrev LogDefines := Ordered LogDefine.name

/-- `operator==` of the sets: definition by definition. -/
def sameDefines : List LogDefine → List LogDefine → Bool
  | [], [] => true
  | d :: l, d' :: l' => d.eq d' && sameDefines l l'
  | _, _ => false

/-! ### The listener -/

/-- The appender that the listener creates; `none` when it uses a null pointer. -/
def newAppender (a : LogAppenderDefine) : Option Appender :=
  let ap : Option Appender :=
    if a.type = 1 then some { sink := .file a.file }
    else if a.type = 2 then some { sink := .stdout }
    else none
  ap.map fun ap =>
    let ap := { ap with toLogAppender := ap.toLogAppender.setLevel a.level }
    if a.formatter ≠ "" then
      let fmt := LogFormatter.new a.formatter
      if !fmt.isError then
        { ap with toLogAppender := ap.toLogAppender.setFormatter (some fmt) }
      else ap
    else ap

/-- What the listener does to the logger of a definition that is new or modified. -/
def configure (d : LogDefine) (lg : Logger) : Option Logger :=
  let lg := lg.setLevel d.level
  let lg := if d.formatter ≠ "" then lg.setPattern d.formatter else lg
  d.appenders.foldlM (fun lg a => (newAppender a).map lg.addAppender) lg.clearAppenders

/-- The loop over `new_value`, for one definition and the logger of its name. -/
def applyDefine (old_value : LogDefines) (d : LogDefine) (found : Option Logger) :
    Option (Option Logger) :=
  match old_value.find? d.name with
  | none => (configure d (getLogger found)).map some
  | some it => if !d.eq it then (configure d (getLogger found)).map some else some found

/-- The loop over `old_value`. -/
def dropDefine (new_value : LogDefines) (d : LogDefine) (found : Option Logger) :
    Option (Option Logger) :=
  match new_value.find? d.name with
  | none => some (some ((getLogger found).setLevel .UNKNOW).clearAppenders)
  | some _ => some found

/-- The listener that `LogIniter` registers. -/
def onLoggerConfChanged (old_value new_value : LogDefines) (m : LoggerManager) :
    Option LoggerManager :=
  (new_value.entries.foldlM (keyedStep LogDefine.name (applyDefine old_value)) m).bind fun m =>
    old_value.entries.foldlM (keyedStep LogDefine.name (dropDefine new_value)) m

/-! ### The variable -/

/-- The variable "logs" with the loggers that its listener configures. -/
structure Logs where
  /-- `m_val` of `g_log_defines`. -/
  val : LogDefines
  manager : LoggerManager
  /-- The calls of the listener so far. -/
  calls : List (LogDefines × LogDefines)

/-- `ConfigVar::setValue`; `none` when the listener does not return. -/
def Logs.setValue (s : Logs) (v : LogDefines) : Option Logs :=
  if sameDefines v.entries s.val.entries then some s
  else (onLoggerConfChanged s.val v s.manager).map fun m =>
    { val := v, manager := m, calls := s.calls ++ [(s.val, v)] }

/-- The variable and the loggers at the start. -/
def Logs.fresh : Logs :=
  { val := Ordered.empty, manager := .fresh, calls := [] }

/-! ### What the comparison sees -/

/-- Same level and formatter. -/
def LogDefine.Alike (d d' : LogDefine) : Prop :=
  d.level = d'.level ∧ d.formatter = d'.formatter

instance (d d' : LogDefine) : Decidable (d.Alike d') :=
  inferInstanceAs (Decidable (_ ∧ _))

theorem eq_iff {d d' : LogDefine} : d.eq d' = true ↔ d.name = d'.name ∧ d.Alike d' := by
  simp [LogDefine.eq, LogDefine.Alike, and_assoc]

theorem sameDefines_iff {l l' : List LogDefine} :
    sameDefines l l' = true ↔ List.Forall₂ (fun d d' => d.eq d' = true) l l' := by
  induction l generalizing l' with
  | nil =>
    cases l' with
    | nil => simp [sameDefines]
    | cons d' l' => exact ⟨nofun, nofun⟩
  | cons d l ih =>
    cases l' with
    | nil => exact ⟨nofun, nofun⟩
    | cons d' l' => simp [sameDefines, ih]

/-- Equal sets have equal definitions under equal names. -/
theorem find?_same {s t : LogDefines} (h : sameDefines s.entries t.entries = true) (n : String) :
    Option.Rel (fun d d' => d.Alike d') (s.find? n) (t.find? n) := by
  have hall := sameDefines_iff.mp h
  unfold Ordered.find?
  generalize s.entries = l at hall ⊢
  generalize t.entries = l' at hall ⊢
  induction hall with
  | nil => exact .none
  | @cons d d' l l' hd _ ih =>
    obtain ⟨hname, halike⟩ := eq_iff.mp hd
    by_cases hn : d.name = n
    · have hn' : d'.name = n := hname ▸ hn
      simp only [List.find?_cons, hn, hn', decide_true]
      exact .some halike
    · have hn' : d'.name ≠ n := hname ▸ hn
      simp only [List.find?_cons, hn, hn', decide_false]
      exact ih

/-- Sets whose definitions are the same by name are the same to the comparison only if
    the definitions they differ in are alike. -/
theorem exists_of_sameDefines {l l' : List LogDefine} (h : sameDefines l l' = true)
    (hne : l ≠ l') :
    ∃ d ∈ l, ∃ d' ∈ l', d.name = d'.name ∧ d.Alike d' ∧ d ≠ d' := by
  have hall := sameDefines_iff.mp h
  induction hall with
  | nil => exact absurd rfl hne
  | @cons d d' l l' hd hl ih =>
    obtain ⟨hname, halike⟩ := eq_iff.mp hd
    by_cases heq : d = d'
    · have hrest : l ≠ l' := by
        rintro rfl
        exact hne (by rw [heq])
      obtain ⟨e, he, e', he', hfound⟩ := ih (sameDefines_iff.mpr hl) hrest
      exact ⟨e, List.mem_cons_of_mem _ he, e', List.mem_cons_of_mem _ he', hfound⟩
    · exact ⟨d, List.mem_cons_self, d', List.mem_cons_self, hname, halike, heq⟩

end Gwn.Log
