import Gwn.Framework.System
import Gwn.Log.Logger
import Mathlib.Data.Fintype.Defs

/-! # Loggers, appenders and the formatters they point to

    Appenders and formatters are shared objects (gwn/log.h): an appender can be taken
    from one logger and given to another, and is then still the one it was. An appender
    that has no formatter of its own uses that of its logger, which means that its
    pointer is set to that formatter and a flag says that it is not its own:

    - `State`, `Label`, `step`: the operations of `Logger` and `LogAppender` on pointers
    - `view_setFormatter`, `view_addAppender`: on one logger they are those on values
    - `inherits_iff`: when the inherited pointers are those of the loggers
    - `never_null_iff`: when no appender is left without a formatter -/

namespace Gwn.Log.Pointers

open LTS

variable {n : Nat}

/-! ### Objects -/

/-- A formatter object: one that a logger's constructor makes, or another. -/
inductive Ptr (n : Nat) where
  | ofLogger (l : Fin n)
  | made (k : Nat)
deriving DecidableEq

structure Appender (n : Nat) where
  /-- `m_level`. -/
  level : Level := .DEBUG
  /-- `m_hasFormatter`. -/
  hasFormatter : Bool := false
  /-- `m_formatter`. -/
  formatter : Option (Ptr n) := none

structure Logger (n : Nat) where
  /-- `m_level`. -/
  level : Level
  /-- `m_formatter`. -/
  formatter : Option (Ptr n)
  /-- `m_appenders`. -/
  appenders : List Nat

/-- There are `n` loggers, and as many appenders as one likes. -/
structure State (n : Nat) where
  loggers : Fin n → Logger n
  appenders : Nat → Appender n
  /-- The formatters that have been made. -/
  formatters : List LogFormatter

/-- The root logger of the manager, and which loggers `getLogger` has made. These have
    it for their `m_root`; the root logger has none. -/
structure Manager (n : Nat) where
  root : Fin n
  made : Fin n → Bool
  root_made : made root = false

namespace State

/-- Loggers and appenders as their constructors leave them. -/
def fresh (n : Nat) : State n where
  loggers l := { level := .DEBUG, formatter := some (.ofLogger l), appenders := [] }
  appenders _ := {}
  formatters := []

/-- A null pointer, or one to a formatter that exists. -/
def Valid (s : State n) : Option (Ptr n) → Prop
  | some (.made k) => k < s.formatters.length
  | _ => True

instance (s : State n) : (val : Option (Ptr n)) → Decidable (s.Valid val)
  | some (.made k) => inferInstanceAs (Decidable (k < s.formatters.length))
  | some (.ofLogger _) => isTrue trivial
  | none => isTrue trivial

def setLogger (s : State n) (l : Fin n) (lg : Logger n) : State n :=
  { s with loggers := Function.update s.loggers l lg }

def setAppender (s : State n) (a : Nat) (ap : Appender n) : State n :=
  { s with appenders := Function.update s.appenders a ap }

/-! ### `Logger` -/

/-- `Logger::setFormatter(LogFormatter::ptr)`. -/
def setFormatter (s : State n) (l : Fin n) (val : Option (Ptr n)) : State n :=
  { s with
    loggers := Function.update s.loggers l { s.loggers l with formatter := val }
    appenders := fun a =>
      if a ∈ (s.loggers l).appenders ∧ (s.appenders a).hasFormatter = false then
        { s.appenders a with formatter := val }
      else s.appenders a }

/-- `Logger::setFormatter(const std::string&)`. -/
def setPattern (s : State n) (l : Fin n) (val : String) : State n :=
  if (LogFormatter.new val).isError then s
  else { s with formatters := s.formatters ++ [LogFormatter.new val] }.setFormatter l
    (some (.made s.formatters.length))

/-- `Logger::addAppender`. -/
def addAppender (s : State n) (l : Fin n) (a : Nat) : State n :=
  let s := if (s.appenders a).formatter = none then
      s.setAppender a { s.appenders a with formatter := (s.loggers l).formatter }
    else s
  s.setLogger l { s.loggers l with appenders := (s.loggers l).appenders ++ [a] }

/-- `Logger::delAppender`. -/
def delAppender (s : State n) (l : Fin n) (a : Nat) : State n :=
  s.setLogger l { s.loggers l with appenders := (s.loggers l).appenders.erase a }

/-- `Logger::clearAppenders`. -/
def clearAppenders (s : State n) (l : Fin n) : State n :=
  s.setLogger l { s.loggers l with appenders := [] }

/-- The appenders whose `log` is called by `Logger::log(level, event)`. -/
def logged (s : State n) (m : Manager n) (l : Fin n) (level : Level) : List Nat :=
  if (s.loggers l).level.val ≤ level.val then
    if (s.loggers l).appenders ≠ [] then (s.loggers l).appenders
    else if m.made l ∧ (s.loggers m.root).level.val ≤ level.val then
      (s.loggers m.root).appenders
    else []
  else []

/-! ### `LogAppender` -/

/-- `LogAppender::setFormatter`. -/
def setAppenderFormatter (s : State n) (a : Nat) (val : Option (Ptr n)) : State n :=
  s.setAppender a { s.appenders a with formatter := val, hasFormatter := val.isSome }

/-- `StdoutLogAppender::log` and `FileLogAppender::log` use a null pointer. -/
def UsesNull (s : State n) (a : Nat) (level : Level) : Prop :=
  (s.appenders a).level.val ≤ level.val ∧ (s.appenders a).formatter = none

end State

/-- One call. `log` changes nothing here. -/
inductive Label (n : Nat) where
  | newFormatter (pattern : String)
  | setFormatter (l : Fin n) (val : Option (Ptr n))
  | setPattern (l : Fin n) (val : String)
  | addAppender (l : Fin n) (a : Nat)
  | delAppender (l : Fin n) (a : Nat)
  | clearAppenders (l : Fin n)
  | setLevel (l : Fin n) (val : Level)
  | log (l : Fin n) (level : Level)
  | setAppenderFormatter (a : Nat) (val : Option (Ptr n))
  | setAppenderLevel (a : Nat) (val : Level)

def step (s : State n) : Label n → Option (State n)
  | .newFormatter pattern => some { s with formatters := s.formatters ++ [.new pattern] }
  | .setFormatter l val => if s.Valid val then some (s.setFormatter l val) else none
  | .setPattern l val => some (s.setPattern l val)
  | .addAppender l a => some (s.addAppender l a)
  | .delAppender l a => some (s.delAppender l a)
  | .clearAppenders l => some (s.clearAppenders l)
  | .setLevel l val => some (s.setLogger l { s.loggers l with level := val })
  | .log _ _ => some s
  | .setAppenderFormatter a val => if s.Valid val then some (s.setAppenderFormatter a val) else none
  | .setAppenderLevel a val => some (s.setAppender a { s.appenders a with level := val })

def appending (n : Nat) : System (State n) (Label n) where
  init := .fresh n
  step := step

/-! ### On one logger -/

/-- The formatter behind a pointer. -/
def Ptr.get (formatters : List LogFormatter) : Ptr n → Option LogFormatter
  | .ofLogger _ => some (.new defaultPattern)
  | .made k => formatters[k]?

/-- An appender as a value; `sink` says of which class the appenders are. -/
def State.viewAppender (s : State n) (sink : Nat → Sink) (a : Nat) : Log.Appender :=
  { sink := sink a
    level := (s.appenders a).level
    hasFormatter := (s.appenders a).hasFormatter
    formatter := (s.appenders a).formatter.bind (Ptr.get s.formatters) }

/-- A logger as a value. -/
def State.view (s : State n) (sink : Nat → Sink) (l : Fin n) : Log.Logger :=
  { level := (s.loggers l).level
    formatter := (s.loggers l).formatter.bind (Ptr.get s.formatters)
    appenders := (s.loggers l).appenders.map (s.viewAppender sink) }

theorem view_setFormatter (s : State n) (sink : Nat → Sink) (l : Fin n) (val : Option (Ptr n)) :
    (s.setFormatter l val).view sink l
      = (s.view sink l).setFormatter (val.bind (Ptr.get s.formatters)) := by
  have happenders : ∀ a ∈ (s.loggers l).appenders,
      (s.setFormatter l val).viewAppender sink a
        = if (s.viewAppender sink a).hasFormatter then s.viewAppender sink a
          else { s.viewAppender sink a with formatter := val.bind (Ptr.get s.formatters) } := by
    intro a ha
    by_cases hown : (s.appenders a).hasFormatter = true
    · simp [State.viewAppender, State.setFormatter, hown]
    · simp [State.viewAppender, State.setFormatter, hown, ha]
  have hlist := List.map_congr_left happenders
  simp only [State.view, Logger.setFormatter, List.map_map]
  simp only [State.setFormatter, Function.update_self] at hlist ⊢
  rw [hlist]
  rfl

theorem get_of_valid {s : State n} {f : Ptr n} (h : s.Valid (some f)) :
    ∃ formatter, f.get s.formatters = some formatter := by
  cases f with
  | ofLogger l => exact ⟨_, rfl⟩
  | made k => exact ⟨_, List.getElem?_eq_getElem h⟩

/-- The appender must not be there already, since both entries are the same object. -/
theorem view_addAppender (s : State n) (sink : Nat → Sink) (l : Fin n) {a : Nat}
    (ha : a ∉ (s.loggers l).appenders) (hvalid : s.Valid (s.appenders a).formatter) :
    (s.addAppender l a).view sink l = (s.view sink l).addAppender (s.viewAppender sink a) := by
  have hothers : ∀ b ∈ (s.loggers l).appenders,
      (s.addAppender l a).viewAppender sink b = s.viewAppender sink b := by
    intro b hb
    have hne : b ≠ a := by
      rintro rfl
      exact ha hb
    unfold State.addAppender
    split <;> simp [State.viewAppender, State.setLogger, State.setAppender, hne]
  have hlist := List.map_congr_left hothers
  cases hformatter : (s.appenders a).formatter with
  | none =>
    simp_all [State.view, State.viewAppender, State.addAppender, Logger.addAppender,
      State.setLogger, State.setAppender]
  | some f =>
    rw [hformatter] at hvalid
    obtain ⟨formatter, hget⟩ := get_of_valid hvalid
    simp_all [State.view, State.viewAppender, State.addAppender, Logger.addAppender,
      State.setLogger]

/-! ### What the operations change -/

section changes
variable (s : State n) (l l' : Fin n) (a : Nat) (val : Option (Ptr n))

@[simp] theorem setFormatter_appenders :
    ((s.setFormatter l val).loggers l').appenders = (s.loggers l').appenders := by
  by_cases hl : l' = l
  · simp [State.setFormatter, hl]
  · simp [State.setFormatter, hl]

@[simp] theorem setFormatter_hasFormatter :
    ((s.setFormatter l val).appenders a).hasFormatter = (s.appenders a).hasFormatter := by
  unfold State.setFormatter
  simp only
  split <;> rfl

theorem setFormatter_formatter :
    ((s.setFormatter l val).loggers l').formatter = if l' = l then val
      else (s.loggers l').formatter := by
  by_cases hl : l' = l
  · simp [State.setFormatter, hl]
  · simp [State.setFormatter, hl]

theorem setFormatter_appender :
    ((s.setFormatter l val).appenders a).formatter
      = if a ∈ (s.loggers l).appenders ∧ (s.appenders a).hasFormatter = false then val
        else (s.appenders a).formatter := by
  unfold State.setFormatter
  simp only
  split <;> rfl

theorem addAppender_appenders :
    ((s.addAppender l a).loggers l').appenders
      = if l' = l then (s.loggers l).appenders ++ [a] else (s.loggers l').appenders := by
  unfold State.addAppender
  by_cases hl : l' = l
  · split <;> simp [State.setLogger, State.setAppender, hl]
  · split <;> simp [State.setLogger, State.setAppender, hl]

@[simp] theorem addAppender_formatter :
    ((s.addAppender l a).loggers l').formatter = (s.loggers l').formatter := by
  unfold State.addAppender
  by_cases hl : l' = l
  · split <;> simp [State.setLogger, State.setAppender, hl]
  · split <;> simp [State.setLogger, State.setAppender, hl]

@[simp] theorem addAppender_hasFormatter (b : Nat) :
    ((s.addAppender l a).appenders b).hasFormatter = (s.appenders b).hasFormatter := by
  unfold State.addAppender
  by_cases hb : b = a
  · split <;> simp [State.setLogger, State.setAppender, hb]
  · split <;> simp [State.setLogger, State.setAppender, hb]

theorem addAppender_appender (b : Nat) :
    ((s.addAppender l a).appenders b).formatter
      = if b = a ∧ (s.appenders a).formatter = none then (s.loggers l).formatter
        else (s.appenders b).formatter := by
  unfold State.addAppender
  by_cases hnone : (s.appenders a).formatter = none
  · by_cases hb : b = a
    · simp [State.setLogger, State.setAppender, hb, hnone]
    · simp [State.setLogger, State.setAppender, hb, hnone]
  · simp [State.setLogger, hnone]

end changes

/-- A change of loggers that takes away appenders and leaves the formatters as they are. -/
structure Fewer (s s' : State n) : Prop where
  appenders : ∀ l, (s'.loggers l).appenders ⊆ (s.loggers l).appenders
  formatter : ∀ l, (s'.loggers l).formatter = (s.loggers l).formatter
  hasFormatter : ∀ a, (s'.appenders a).hasFormatter = (s.appenders a).hasFormatter
  appender : ∀ a, (s'.appenders a).formatter = (s.appenders a).formatter

theorem Fewer.setLogger {s : State n} {l : Fin n} {lg : Logger n}
    (hformatter : lg.formatter = (s.loggers l).formatter)
    (happenders : lg.appenders ⊆ (s.loggers l).appenders) : Fewer s (s.setLogger l lg) := by
  refine ⟨fun l' => ?_, fun l' => ?_, fun a => rfl, fun a => rfl⟩
  · by_cases hl : l' = l
    · subst hl
      simpa [State.setLogger] using happenders
    · simp [State.setLogger, hl]
  · by_cases hl : l' = l
    · subst hl
      simpa [State.setLogger] using hformatter
    · simp [State.setLogger, hl]

theorem Fewer.refl (s : State n) : Fewer s s :=
  ⟨fun _ => List.Subset.refl _, fun _ => rfl, fun _ => rfl, fun _ => rfl⟩

/-- What one call changes. -/
inductive Moved (s s' : State n) : Label n → Prop where
  | fewer {lab} : (∀ a val, lab ≠ .setAppenderFormatter a val) → Fewer s s' → Moved s s' lab
  | logger {lab l val t} :
      lab = .setFormatter l val ∨ val.isSome ∧ (∃ pattern, lab = .setPattern l pattern) →
      Fewer s t → s' = t.setFormatter l val → Moved s s' lab
  | added {l a} : s' = s.addAppender l a → Moved s s' (.addAppender l a)
  | appender {a val} :
      s' = s.setAppenderFormatter a val → Moved s s' (.setAppenderFormatter a val)

theorem step_moved {s s' : State n} {lab : Label n} (h : step s lab = some s') :
    Moved s s' lab := by
  cases lab with
  | newFormatter pattern =>
    cases h
    exact .fewer (by simp)
      ⟨fun _ => List.Subset.refl _, fun _ => rfl, fun _ => rfl, fun _ => rfl⟩
  | setFormatter l val =>
    obtain ⟨-, h⟩ := Option.ite_none_right_eq_some.mp h
    cases h
    exact .logger (.inl rfl) (.refl s) rfl
  | setPattern l val =>
    cases h
    unfold State.setPattern
    split
    · exact .fewer (by simp) (.refl s)
    · refine .logger (.inr ⟨rfl, val, rfl⟩) ?_ rfl
      exact ⟨fun _ => List.Subset.refl _, fun _ => rfl, fun _ => rfl, fun _ => rfl⟩
  | addAppender l a =>
    cases h
    exact .added rfl
  | delAppender l a =>
    cases h
    exact .fewer (by simp) (.setLogger rfl List.erase_subset)
  | clearAppenders l =>
    cases h
    exact .fewer (by simp) (.setLogger rfl (List.nil_subset _))
  | setLevel l val =>
    cases h
    exact .fewer (by simp) (.setLogger rfl (List.Subset.refl _))
  | log l level =>
    cases h
    exact .fewer (by simp) (.refl s)
  | setAppenderFormatter a val =>
    obtain ⟨-, h⟩ := Option.ite_none_right_eq_some.mp h
    cases h
    exact .appender rfl
  | setAppenderLevel a val =>
    cases h
    refine .fewer (by simp)
      ⟨fun _ => List.Subset.refl _, fun _ => rfl, fun b => ?_, fun b => ?_⟩
    · by_cases hb : b = a <;> simp [State.setAppender, hb]
    · by_cases hb : b = a <;> simp [State.setAppender, hb]

/-! ### Inherited formatters -/

/-- The formatter that has been set last on each appender. -/
abbrev LastSet (n : Nat) := Nat → Option (Ptr n)

def record (h : LastSet n) (_ : State n) : Label n → LastSet n
  | .setAppenderFormatter a val => Function.update h a val
  | _ => h

/-- An appender is on one logger at a time, and gets formatters that are not null. -/
def Shared (s : State n) : Label n → Prop
  | .addAppender l a => ∀ l', l' ≠ l → a ∉ (s.loggers l').appenders
  | .setAppenderFormatter _ val => val.isSome = true
  | _ => True

instance (s : State n) : (lab : Label n) → Decidable (Shared s lab)
  | .addAppender l a =>
    inferInstanceAs (Decidable (∀ l', l' ≠ l → a ∉ (s.loggers l').appenders))
  | .setAppenderFormatter _ val => inferInstanceAs (Decidable (val.isSome = true))
  | .newFormatter _ | .setFormatter _ _ | .setPattern _ _ | .delAppender _ _ | .clearAppenders _
  | .setLevel _ _ | .log _ _ | .setAppenderLevel _ _ => isTrue trivial

def sharing (n : Nat) : System (State n × LastSet n) (Label n) :=
  ((appending n).restrict Shared).withHistory (fun _ => none) record

/-- Attached appenders without a formatter of their own have the logger's, the others
    the one that has been set last. -/
structure Inherits (p : State n × LastSet n) : Prop where
  inherited : ∀ l, ∀ a ∈ (p.1.loggers l).appenders, (p.1.appenders a).hasFormatter = false →
    (p.1.appenders a).formatter = (p.1.loggers l).formatter
  own : ∀ a, (p.1.appenders a).hasFormatter = true →
    (p.1.appenders a).formatter.isSome ∧ (p.1.appenders a).formatter = p.2 a

/-- An appender that is added has a formatter of its own, or none, or the logger's. -/
def Adopted (s : State n) : Label n → Prop
  | .addAppender l a => (s.appenders a).hasFormatter = true ∨ (s.appenders a).formatter = none ∨
      (s.appenders a).formatter = (s.loggers l).formatter
  | _ => True

structure InheritsInv (p : State n × LastSet n) : Prop extends Inherits p where
  alone : ∀ l l', ∀ a ∈ (p.1.loggers l).appenders, a ∈ (p.1.loggers l').appenders → l = l'

theorem record_of_ne {h : LastSet n} {s : State n} {lab : Label n}
    (hlab : ∀ a val, lab ≠ .setAppenderFormatter a val) : record h s lab = h := by
  cases lab with
  | setAppenderFormatter a val => exact absurd rfl (hlab a val)
  | _ => rfl

section inherits
variable {s s' : State n} {h : LastSet n} {l : Fin n} {a : Nat} {val : Option (Ptr n)}

theorem InheritsInv.fewer (hi : InheritsInv (s, h)) (hs : Fewer s s') : InheritsInv (s', h) := by
  refine { inherited := ?_, own := ?_, alone := ?_ }
  · intro l a ha hown
    rw [hs.appender, hs.formatter]
    exact hi.inherited l a (hs.appenders l ha) ((hs.hasFormatter a).symm.trans hown)
  · intro a hown
    rw [hs.appender]
    exact hi.own a ((hs.hasFormatter a).symm.trans hown)
  · intro l l' a ha ha'
    exact hi.alone l l' a (hs.appenders l ha) (hs.appenders l' ha')

theorem InheritsInv.setFormatter (hi : InheritsInv (s, h)) :
    InheritsInv (s.setFormatter l val, h) := by
  refine { inherited := ?_, own := ?_, alone := ?_ }
  · intro l' a ha hown
    simp only [setFormatter_appenders, setFormatter_hasFormatter] at ha hown
    rw [setFormatter_appender, setFormatter_formatter]
    by_cases hl : l' = l
    · rw [if_pos hl, if_pos ⟨hl ▸ ha, hown⟩]
    · -- the appenders of another logger are not on this one
      rw [if_neg hl, if_neg fun hmem => hl (hi.alone l' l a ha hmem.1)]
      exact hi.inherited l' a ha hown
  · intro a hown
    simp only [setFormatter_hasFormatter] at hown
    rw [setFormatter_appender, if_neg (by simp [hown])]
    exact hi.own a hown
  · intro l' l'' a ha ha'
    simp only [setFormatter_appenders] at ha ha'
    exact hi.alone l' l'' a ha ha'

theorem InheritsInv.addAppender (hi : InheritsInv (s, h))
    (halone : ∀ l', l' ≠ l → a ∉ (s.loggers l').appenders)
    (hadopted : Adopted s (.addAppender l a)) : InheritsInv (s.addAppender l a, h) := by
  -- besides `a` nothing is new
  have hmem : ∀ {l' b}, b ∈ ((s.addAppender l a).loggers l').appenders →
      b ≠ a ∧ b ∈ (s.loggers l').appenders ∨ b = a ∧ l' = l := by
    intro l' b hb
    rw [addAppender_appenders] at hb
    by_cases hl : l' = l
    · rw [if_pos hl, List.mem_append, List.mem_singleton] at hb
      by_cases hba : b = a
      · exact .inr ⟨hba, hl⟩
      · exact .inl ⟨hba, hl ▸ hb.resolve_right hba⟩
    · rw [if_neg hl] at hb
      refine .inl ⟨?_, hb⟩
      rintro rfl
      exact halone l' hl hb
  refine { inherited := ?_, own := ?_, alone := ?_ }
  · intro l' b hb hown
    rw [addAppender_hasFormatter] at hown
    rw [addAppender_appender, addAppender_formatter]
    rcases hmem hb with ⟨hba, hb⟩ | ⟨rfl, rfl⟩
    · rw [if_neg fun h => hba h.1]
      exact hi.inherited l' b hb hown
    · by_cases hnone : (s.appenders b).formatter = none
      · rw [if_pos ⟨rfl, hnone⟩]
      · rw [if_neg fun h => hnone h.2]
        rcases hadopted with hown' | hnone' | heq
        · rw [hown] at hown'
          cases hown'
        · exact absurd hnone' hnone
        · exact heq
  · intro b hown
    simp only [addAppender_hasFormatter] at hown
    rw [addAppender_appender, if_neg]
    · exact hi.own b hown
    · rintro ⟨rfl, hnone⟩
      have hsome := (hi.own b hown).1
      rw [hnone] at hsome
      cases hsome
  · intro l' l'' b hb hb'
    rcases hmem hb with ⟨hba, hold⟩ | ⟨rfl, rfl⟩
    · rcases hmem hb' with ⟨-, hold'⟩ | ⟨hba', -⟩
      · exact hi.alone l' l'' b hold hold'
      · exact absurd hba' hba
    · rcases hmem hb' with ⟨hba', -⟩ | ⟨-, hl⟩
      · exact absurd rfl hba'
      · exact hl.symm

theorem InheritsInv.setAppenderFormatter (hi : InheritsInv (s, h)) (hval : val.isSome = true) :
    InheritsInv (s.setAppenderFormatter a val, Function.update h a val) := by
  have hself : (s.setAppenderFormatter a val).appenders a
      = { s.appenders a with formatter := val, hasFormatter := val.isSome } :=
    Function.update_self ..
  have hne : ∀ {b}, b ≠ a → (s.setAppenderFormatter a val).appenders b = s.appenders b :=
    fun hb => Function.update_of_ne hb ..
  refine { inherited := ?_, own := ?_, alone := hi.alone }
  · intro l b hb hown
    by_cases hba : b = a
    · subst hba
      simp only [hself, hval] at hown
      cases hown
    · simp only [hne hba] at hown ⊢
      exact hi.inherited l b hb hown
  · intro b hown
    by_cases hba : b = a
    · subst hba
      simp only [hself, Function.update_self]
      exact ⟨hval, trivial⟩
    · simp only [hne hba, Function.update_of_ne hba] at hown ⊢
      exact hi.own b hown

end inherits

theorem inherits_step {p p' : State n × LastSet n} {lab : Label n} (hi : InheritsInv p)
    (hadopted : Shared p.1 lab → Adopted p.1 lab) (hstep : (sharing n).step p lab = some p') :
    InheritsInv p' := by
  obtain ⟨s, h⟩ := p
  obtain ⟨s', h'⟩ := p'
  obtain ⟨hstep, rfl⟩ := System.withHistory_step.mp hstep
  obtain ⟨hshared, hstep⟩ := System.restrict_step.mp hstep
  cases step_moved hstep with
  | fewer hlab hs =>
    simp only [record_of_ne hlab]
    exact hi.fewer hs
  | @logger _ l val t hlab hs heq =>
    obtain rfl : s' = t.setFormatter l val := heq
    have hne : ∀ a val, lab ≠ .setAppenderFormatter a val := by
      rcases hlab with rfl | ⟨-, pattern, rfl⟩ <;> simp
    simp only [record_of_ne hne]
    exact (hi.fewer hs).setFormatter
  | added heq =>
    obtain rfl := heq
    exact hi.addAppender hshared (hadopted hshared)
  | appender heq =>
    obtain rfl := heq
    exact hi.setAppenderFormatter hshared

/-- An appender that brings an inherited formatter from elsewhere keeps it. -/
theorem inherits_break {p : State n × LastSet n} {lab : Label n}
    (hadopted : ¬ (Shared p.1 lab → Adopted p.1 lab)) :
    ∃ p', (sharing n).step p lab = some p' ∧ ¬ Inherits p' := by
  obtain ⟨hshared, hnot⟩ := Classical.not_imp.mp hadopted
  cases lab with
  | addAppender l a =>
    obtain ⟨hown, hnone, hne⟩ := by simpa only [Adopted, not_or] using hnot
    refine ⟨(p.1.addAppender l a, p.2), ?_, ?_⟩
    · exact System.withHistory_step.mpr ⟨System.restrict_step.mpr ⟨hshared, rfl⟩, rfl⟩
    · intro hinherits
      have heq := hinherits.inherited l a (by simp [addAppender_appenders])
        (by simpa using hown)
      rw [addAppender_appender, if_neg fun h => hnone h.2, addAppender_formatter] at heq
      exact hne heq
  | _ => exact absurd trivial hnot

/-- In every state of a run the inherited formatters are those of the loggers and the
    others those that have been set last, if and only if no appender is added that has
    kept the formatter of another time. An invalid pattern changes nothing. -/
theorem inherits_iff (n : Nat) :
    (∀ ls, (sharing n).Visits ls Inherits ↔
      (sharing n).Steps ls fun p lab => Shared p.1 lab → Adopted p.1 lab) ∧
    ∀ (s : State n) (l : Fin n) (val : String), (LogFormatter.new val).isError = true →
      step s (.setPattern l val) = some s := by
  constructor
  · intro ls
    refine @System.visits_iff_steps _ _ _ InheritsInv _ _ ?_ (fun p hp => hp.toInherits)
      (fun p lab p' hp hadopted hstep => inherits_step hp hadopted hstep)
      (fun p lab _ hadopted => inherits_break hadopted) ls
    refine { inherited := ?_, own := ?_, alone := ?_ }
    · intro l a ha
      cases ha
    · intro a hown
      cases hown
    · intro l l' a ha
      cases ha
  · intro s l val herror
    show some (s.setPattern l val) = some s
    rw [State.setPattern, if_pos herror]

/-- An appender that goes from one logger to another keeps the formatter of the first. -/
theorem not_inherits_moved : ¬ ∀ ls, (sharing 2).Visits ls Inherits := by
  intro h
  have hlast := h [.addAppender 0 0, .delAppender 0 0, .addAppender 1 0] _ _ List.prefix_rfl rfl
  have hformatter := hlast.inherited 1 0 (by decide) (by decide)
  exact absurd hformatter (by decide)

/-! ### Null formatters -/

/-- No call of `Logger::log`, on any logger at any level, uses a null pointer. -/
def NeverNull (m : Manager n) (s : State n) : Prop :=
  ∀ l level, ∀ a ∈ s.logged m l level, ¬ s.UsesNull a level

/-- The formatter that is taken away is not needed, and the one that is inherited is there. -/
def Harmless (s : State n) : Label n → Prop
  | .setFormatter l none => ∀ a ∈ (s.loggers l).appenders, (s.appenders a).hasFormatter = true
  | .setAppenderFormatter a none => ∀ l, a ∉ (s.loggers l).appenders
  | .addAppender l a => (s.appenders a).formatter ≠ none ∨ (s.loggers l).formatter ≠ none
  | _ => True

/-- All attached appenders have a formatter. -/
def Equipped (s : State n) : Prop :=
  ∀ l, ∀ a ∈ (s.loggers l).appenders, (s.appenders a).formatter ≠ none

theorem Level.le_fatal (level : Level) : level.val ≤ Level.FATAL.val := by
  cases level <;> decide

theorem neverNull_iff (m : Manager n) (s : State n) : NeverNull m s ↔ Equipped s := by
  constructor
  · intro h l a ha hnull
    -- a fatal event passes every level
    have hlogged : a ∈ s.logged m l .FATAL := by
      unfold State.logged
      rwa [if_pos (Level.le_fatal _), if_pos (List.ne_nil_of_mem ha)]
    exact h l .FATAL a hlogged ⟨Level.le_fatal _, hnull⟩
  · intro h l level a ha hnull
    have hattached : ∃ l', a ∈ (s.loggers l').appenders := by
      unfold State.logged at ha
      split at ha
      · split at ha
        · exact ⟨l, ha⟩
        · split at ha
          · exact ⟨m.root, ha⟩
          · cases ha
      · cases ha
    obtain ⟨l', hl'⟩ := hattached
    exact h l' a hl' hnull.2

theorem Equipped.fewer {s s' : State n} (h : Equipped s) (hs : Fewer s s') : Equipped s' := by
  intro l a ha
  rw [hs.appender]
  exact h l a (hs.appenders l ha)

theorem equipped_step {s s' : State n} {lab : Label n} (h : Equipped s) (hlab : Harmless s lab)
    (hstep : step s lab = some s') : Equipped s' := by
  cases step_moved hstep with
  | fewer _ hs => exact h.fewer hs
  | @logger _ l val t hcall hs heq =>
    subst heq
    intro l' a ha
    rw [setFormatter_appenders] at ha
    rw [setFormatter_appender]
    split
    · next hinherits =>
      rintro rfl
      -- a null formatter is not set where it would be inherited
      rcases hcall with rfl | ⟨hsome, -⟩
      · have hown := hlab a (hs.appenders l hinherits.1)
        rw [← hs.hasFormatter, hinherits.2] at hown
        cases hown
      · cases hsome
    · exact h.fewer hs l' a ha
  | @added l a heq =>
    subst heq
    intro l' b hb
    rw [addAppender_appender]
    split
    · next hnone => exact hlab.resolve_left fun hne => hne hnone.2
    · next hkept =>
      by_cases hba : b = a
      · exact fun hnone => hkept ⟨hba, hba ▸ hnone⟩
      · rw [addAppender_appenders] at hb
        split at hb
        · next hl =>
          rw [List.mem_append, List.mem_singleton] at hb
          exact h l b (hb.resolve_right hba)
        · exact h l' b hb
  | @appender a val heq =>
    subst heq
    intro l b hb
    by_cases hba : b = a
    · subst hba
      cases val with
      | none => exact absurd hb (hlab l)
      | some f => simp [State.setAppenderFormatter, State.setAppender]
    · simpa [State.setAppenderFormatter, State.setAppender, hba] using h l b hb

theorem equipped_break {s : State n} {lab : Label n} (hlab : ¬ Harmless s lab) :
    ∃ s', step s lab = some s' ∧ ¬ Equipped s' := by
  cases lab with
  | setFormatter l val =>
    cases val with
    | none =>
      simp only [Harmless, not_forall] at hlab
      obtain ⟨a, ha, hown⟩ := hlab
      refine ⟨s.setFormatter l none, rfl, fun h => ?_⟩
      refine h l a (by simpa using ha) ?_
      rw [setFormatter_appender, if_pos ⟨ha, by simpa using hown⟩]
    | some f => exact absurd trivial hlab
  | setAppenderFormatter a val =>
    cases val with
    | none =>
      simp only [Harmless, not_forall, not_not] at hlab
      obtain ⟨l, ha⟩ := hlab
      refine ⟨s.setAppenderFormatter a none, rfl, fun h => ?_⟩
      exact h l a ha (by simp [State.setAppenderFormatter, State.setAppender])
    | some f => exact absurd trivial hlab
  | addAppender l a =>
    simp only [Harmless, not_or, not_not] at hlab
    refine ⟨s.addAppender l a, rfl, fun h => ?_⟩
    refine h l a (by simp [addAppender_appenders]) ?_
    rw [addAppender_appender, if_pos ⟨rfl, hlab.1⟩, hlab.2]
  | _ => exact absurd trivial hlab

/-- In every state of a run no call of `log` would use a null formatter, if and only if
    formatters are taken away only where they are not needed and no appender without
    formatter is added to a logger without formatter. -/
theorem never_null_iff (n : Nat) (m : Manager n) (ls : List (Label n)) :
    (appending n).Visits ls (NeverNull m) ↔ (appending n).Steps ls Harmless := by
  refine @System.visits_iff_steps _ _ _ Equipped _ _ ?_ (fun s h => (neverNull_iff m s).mpr h)
    (fun s lab s' h hlab hstep => equipped_step h hlab hstep) ?_ ls
  · intro l a ha
    cases ha
  · intro s lab _ hlab
    obtain ⟨s', hs', hnot⟩ := equipped_break hlab
    exact ⟨s', hs', fun h => hnot ((neverNull_iff m s').mp h)⟩

/-- An appender on a logger with a formatter, whose own formatter is taken away. -/
theorem not_neverNull_reset : ¬ ∀ (n : Nat) (m : Manager n) (ls : List (Label n)),
    (appending n).Visits ls (NeverNull m) := by
  intro h
  have hlast :=
    h 1 ⟨0, fun _ => false, rfl⟩ [.addAppender 0 0, .setAppenderFormatter 0 none] _ _
    List.prefix_rfl rfl
  have hequipped := (neverNull_iff _ _).mp hlast
  exact hequipped 0 0 (by decide) (by decide)

end Gwn.Log.Pointers
