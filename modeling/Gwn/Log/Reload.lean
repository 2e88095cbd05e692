import Gwn.Log.Define

/-! # Changing the log configuration

    What `setValue` on the variable "logs" does to the loggers: which definitions the
    listener acts on, and what a logger is afterwards (`onLoggerConfChanged_spec`,
    `configure_view`). The comparison of definitions passes over their appenders, so a
    change of appenders alone is not acted on (`not_heeded`, `heeded_iff`). -/

namespace Gwn.Log

open LTS

/-! ### What a definition prescribes -/

def LogAppenderDefine.sink (a : LogAppenderDefine) : Option Sink :=
  if a.type = 1 then some (.file a.file) else if a.type = 2 then some .stdout else none

/-- The appender of this definition on a logger that uses the pattern `inherited`. -/
def LogAppenderDefine.prescribed (inherited : Option String) (a : LogAppenderDefine) :
    AppenderView :=
  { sink := a.sink, level := a.level, pattern := effective a.formatter inherited }

/-- The logger of this definition, when it has used the pattern `inherited` before. -/
def LogDefine.prescribed (d : LogDefine) (inherited : Option String) : LoggerView :=
  let pattern := effective d.formatter inherited
  { level := d.level, pattern := pattern, appenders := d.appenders.map (·.prescribed pattern) }

/-! ### The listener on one logger -/

theorem newAppender_isSome {a : LogAppenderDefine} :
    (newAppender a).isSome = true ↔ a.type = 1 ∨ a.type = 2 := by
  unfold newAppender
  rw [Option.isSome_map]
  by_cases h₁ : a.type = 1
  · simp [h₁]
  · by_cases h₂ : a.type = 2
    · simp [h₂]
    · simp [h₁, h₂]

theorem newAppender_view {a : LogAppenderDefine} {ap : Appender} (h : newAppender a = some ap)
    (inherited : Option String) :
    { ap.view with pattern := ap.view.pattern.or inherited } = a.prescribed inherited := by
  unfold newAppender at h
  obtain ⟨ap₀, hsink, rfl⟩ := Option.map_eq_some_iff.mp h
  -- the new object has no formatter of its own
  have hnew : ap₀.formatter = none ∧ a.sink = some ap₀.sink := by
    unfold LogAppenderDefine.sink
    split at hsink
    · next h₁ =>
      cases hsink
      exact ⟨rfl, if_pos h₁⟩
    · next h₁ =>
      split at hsink <;> cases hsink
      next h₂ => exact ⟨rfl, by rw [if_neg h₁, if_pos h₂]⟩
  unfold LogAppenderDefine.prescribed effective
  rw [hnew.2]
  by_cases hformatter : a.formatter = ""
  · simp [hformatter, Appender.view, LogAppender.setLevel, hnew.1]
  · cases herror : (LogFormatter.new a.formatter).isError with
    | true => simp [hformatter, herror, Appender.view, LogAppender.setLevel, hnew.1]
    | false =>
      simp [hformatter, herror, Appender.view, LogAppender.setLevel, LogAppender.setFormatter]

theorem addAll_view {l : List LogAppenderDefine} {lg lg' : Logger}
    (h : l.foldlM (fun lg a => (newAppender a).map lg.addAppender) lg = some lg') :
    lg'.view = { lg.view with
      appenders := lg.view.appenders ++ l.map (·.prescribed lg.pattern) } := by
  induction l generalizing lg with
  | nil =>
    cases h
    simp
  | cons a l ih =>
    rw [List.foldlM_cons] at h
    obtain ⟨lg₁, hlg₁, h⟩ := Option.bind_eq_some_iff.mp h
    obtain ⟨ap, hap, rfl⟩ := Option.map_eq_some_iff.mp hlg₁
    have hpattern : (lg.addAppender ap).pattern = lg.pattern := rfl
    rw [ih h, addAppender_view, newAppender_view hap, hpattern]
    simp

theorem addAll_isSome {l : List LogAppenderDefine} {lg : Logger} :
    (l.foldlM (fun lg a => (newAppender a).map lg.addAppender) lg).isSome = true ↔
      ∀ a ∈ l, a.type = 1 ∨ a.type = 2 := by
  induction l generalizing lg with
  | nil => exact ⟨fun _ => nofun, fun _ => rfl⟩
  | cons a l ih =>
    rw [List.foldlM_cons, List.forall_mem_cons, ← newAppender_isSome]
    cases hap : newAppender a with
    | none => simp
    | some ap => simpa using ih

/-- A logger that is configured is what the definition prescribes. -/
theorem configure_view {d : LogDefine} {lg lg' : Logger} (h : configure d lg = some lg') :
    lg'.view = d.prescribed lg.pattern := by
  have hview := addAll_view h
  have hpattern := setPattern_pattern (lg.setLevel d.level) d.formatter
  have hlevel : (if d.formatter ≠ "" then (lg.setLevel d.level).setPattern d.formatter
      else lg.setLevel d.level).level = d.level := by
    unfold Logger.setPattern
    split
    · simp only
      split <;> rfl
    · rfl
  generalize (if d.formatter ≠ "" then (lg.setLevel d.level).setPattern d.formatter
    else lg.setLevel d.level) = lg₁ at hview hpattern hlevel
  have hpattern : lg₁.pattern = effective d.formatter lg.pattern := hpattern
  have hview : lg'.view = { level := lg₁.level, pattern := lg₁.pattern
                            appenders := d.appenders.map (·.prescribed lg₁.pattern) } := hview
  rw [hview, hlevel, hpattern]
  rfl

theorem configure_isSome {d : LogDefine} {lg : Logger} :
    (configure d lg).isSome = true ↔ ∀ a ∈ d.appenders, a.type = 1 ∨ a.type = 2 :=
  addAll_isSome

/-! ### The listener on all loggers -/

/-- The listener does not take `d` for the definition it finds in `old`. -/
def Changed (old : LogDefines) (d : LogDefine) : Prop :=
  ∀ d', old.find? d.name = some d' → ¬ d.Alike d'

theorem applyDefine_changed {old : LogDefines} {d : LogDefine} (h : Changed old d)
    (found : Option Logger) :
    applyDefine old d found = (configure d (getLogger found)).map some := by
  unfold applyDefine
  cases hfind : old.find? d.name with
  | none => rfl
  | some it =>
    have hne : d.eq it = false := by
      rw [Bool.eq_false_iff]
      intro heq
      exact h it hfind (eq_iff.mp heq).2
    simp [hne]

theorem applyDefine_unchanged {old : LogDefines} {d : LogDefine} (h : ¬ Changed old d)
    (found : Option Logger) : applyDefine old d found = some found := by
  simp only [Changed, not_forall, not_not] at h
  obtain ⟨it, hfind, halike⟩ := h
  have hname := (Ordered.find?_eq_some.mp hfind).2
  have heq : d.eq it = true := eq_iff.mpr ⟨hname.symm, halike⟩
  simp [applyDefine, hfind, heq]

theorem dropDefine_isSome (new : LogDefines) (d : LogDefine) (found : Option Logger) :
    (dropDefine new d found).isSome = true := by
  unfold dropDefine
  split <;> rfl

/-- What the listener makes of the loggers `m`. -/
structure Reconfigured (old new : LogDefines) (m m' : LoggerManager) : Prop where
  changed : ∀ d ∈ new, Changed old d →
    (configure d (getLogger (m d.name))).map some = some (m' d.name)
  unchanged : ∀ d ∈ new, ¬ Changed old d → m' d.name = m d.name
  dropped : ∀ d ∈ old, new.find? d.name = none →
    m' d.name = some ((getLogger (m d.name)).setLevel .UNKNOW).clearAppenders
  others : ∀ n, old.find? n = none → new.find? n = none → m' n = m n

theorem notMem_keys {s : LogDefines} {n : String} (h : s.find? n = none) :
    n ∉ s.entries.map LogDefine.name := by
  intro hmem
  obtain ⟨d, hd, hname⟩ := List.mem_map.mp hmem
  exact Ordered.find?_eq_none.mp h d hd hname

/-- The second loop leaves a logger that is still defined alone. -/
theorem dropped_eq {old new : LogDefines} {m m' : LoggerManager}
    (h : old.entries.foldlM (keyedStep LogDefine.name (dropDefine new)) m = some m')
    {d : LogDefine} (hd : d ∈ new) : m' d.name = m d.name := by
  obtain ⟨hact, hframe⟩ := foldlM_keyed old.nodup_keys h
  cases hold : old.find? d.name with
  | none => exact hframe _ (notMem_keys hold)
  | some d' =>
    obtain ⟨hd', hname⟩ := Ordered.find?_eq_some.mp hold
    have hnew : new.find? d'.name = some d := Ordered.find?_eq_some.mpr ⟨hd, hname.symm⟩
    have hdrop := hact d' hd'
    rw [dropDefine, hnew, hname] at hdrop
    exact (Option.some.inj hdrop).symm

theorem onLoggerConfChanged_spec {old new : LogDefines} {m m' : LoggerManager}
    (h : onLoggerConfChanged old new m = some m') : Reconfigured old new m m' := by
  obtain ⟨m₁, happly, hdrop⟩ := Option.bind_eq_some_iff.mp h
  obtain ⟨hact, hframe⟩ := foldlM_keyed new.nodup_keys happly
  obtain ⟨hact', hframe'⟩ := foldlM_keyed old.nodup_keys hdrop
  exact {
    changed := by
      intro d hd hchanged
      rw [dropped_eq hdrop hd, ← applyDefine_changed hchanged]
      exact hact d hd
    unchanged := by
      intro d hd hchanged
      have hsame := hact d hd
      rw [applyDefine_unchanged hchanged] at hsame
      rw [dropped_eq hdrop hd]
      exact (Option.some.inj hsame).symm
    dropped := by
      intro d hd hnone
      have hclear := hact' d hd
      rw [dropDefine, hnone, hframe _ (notMem_keys hnone)] at hclear
      exact (Option.some.inj hclear).symm
    others := by
      intro n hold hnew
      rw [hframe' n (notMem_keys hold), hframe n (notMem_keys hnew)] }

/-- The listener returns if each definition it acts on has appenders of known types. -/
theorem onLoggerConfChanged_isSome {old new : LogDefines} {m : LoggerManager} :
    (onLoggerConfChanged old new m).isSome = true ↔
      ∀ d ∈ new, Changed old d → ∀ a ∈ d.appenders, a.type = 1 ∨ a.type = 2 := by
  have hdrop :
      ∀ m₁, (old.entries.foldlM (keyedStep LogDefine.name (dropDefine new)) m₁).isSome
      = true := by
    intro m₁
    exact (foldlM_keyed_isSome old.nodup_keys m₁).mpr fun d _ => dropDefine_isSome new d _
  have hfirst : (onLoggerConfChanged old new m).isSome = true ↔
      (new.entries.foldlM (keyedStep LogDefine.name (applyDefine old)) m).isSome = true := by
    unfold onLoggerConfChanged
    cases new.entries.foldlM (keyedStep LogDefine.name (applyDefine old)) m with
    | none => rfl
    | some m₁ => simpa using hdrop m₁
  rw [hfirst, foldlM_keyed_isSome new.nodup_keys]
  have hone : ∀ d, (applyDefine old d (m d.name)).isSome = true ↔
      (Changed old d → ∀ a ∈ d.appenders, a.type = 1 ∨ a.type = 2) := by
    intro d
    by_cases hchanged : Changed old d
    · rw [applyDefine_changed hchanged, Option.isSome_map, configure_isSome]
      exact ⟨fun h _ => h, fun h => h hchanged⟩
    · rw [applyDefine_unchanged hchanged]
      exact ⟨fun _ hc => absurd hc hchanged, fun _ => rfl⟩
  exact forall₂_congr fun d _ => hone d

/-! ### Changes -/

/-- `setValue(new)` on a variable that holds `old` stores `new`, calls the listener,
    and leaves each logger whose definition is not the same with the appenders of
    its new definition. -/
def Heeded (old new : LogDefines) : Prop :=
  ∀ m calls, ∃ s, Logs.setValue ⟨old, m, calls⟩ new = some s ∧ s.val = new ∧
    s.calls = calls ++ [(old, new)] ∧
    (∀ d ∈ new, d ∉ old → ∃ lg, s.manager d.name = some lg ∧
      lg.view.appenders = d.appenders.map (·.prescribed lg.pattern)) ∧
    ∀ d ∈ old, new.find? d.name = none → ∃ lg, s.manager d.name = some lg ∧
      lg.appenders = []

/-- No definition changes in its appenders only. -/
def Visible (old new : LogDefines) : Prop :=
  ∀ d ∈ new, ∀ d' ∈ old, d'.name = d.name → d ≠ d' → ¬ d.Alike d'

theorem Visible.changed {old new : LogDefines} (h : Visible old new) {d : LogDefine}
    (hd : d ∈ new) (hne : d ∉ old) : Changed old d := by
  intro d' hfind
  obtain ⟨hd', hname⟩ := Ordered.find?_eq_some.mp hfind
  exact h d hd d' hd' hname fun heq => hne (heq ▸ hd')

theorem Changed.notMem {old : LogDefines} {d : LogDefine} (h : Changed old d) : d ∉ old := by
  intro hd
  exact h d (Ordered.find?_eq_some.mpr ⟨hd, rfl⟩) ⟨rfl, rfl⟩

theorem Visible.not_same {old new : LogDefines} (h : Visible old new) (hne : old ≠ new) :
    sameDefines new.entries old.entries = false := by
  rw [Bool.eq_false_iff]
  intro hsame
  have hentries : new.entries ≠ old.entries := by
    intro heq
    cases old
    cases new
    exact hne (by rw [Ordered.mk.injEq]; exact heq.symm)
  obtain ⟨d, hd, d', hd', hname, halike, hdiff⟩ := exists_of_sameDefines hsame hentries
  exact h d hd d' hd' hname.symm hdiff halike

/-- For all two different values of the variable: the change is acted on in every
    logger whose definition is not the same, whatever the loggers are, if and only if
    no definition changes in its appenders only and each appender of a definition
    that is new or changes is a file or the standard output. -/
theorem heeded_iff {old new : LogDefines} (hne : old ≠ new) :
    Heeded old new ↔ Visible old new ∧
      ∀ d ∈ new, d ∉ old → ∀ a ∈ d.appenders, a.type = 1 ∨ a.type = 2 := by
  constructor
  · intro hheeded
    obtain ⟨s, hset, hval, -, hnew, -⟩ := hheeded (fun _ => none) []
    unfold Logs.setValue at hset
    split at hset
    · -- the variable has kept the old value
      cases hset
      exact absurd hval hne
    · obtain ⟨m', hlistener, rfl⟩ := Option.map_eq_some_iff.mp hset
      have hspec := onLoggerConfChanged_spec hlistener
      have hvisible : Visible old new := by
        intro d hd d' hd' hname hdiff halike
        have hfind : old.find? d.name = some d' := Ordered.find?_eq_some.mpr ⟨hd', hname⟩
        have hsame := hspec.unchanged d hd fun hchanged => hchanged d' hfind halike
        have hnotMem : d ∉ old := by
          intro hd₀
          exact hdiff (Ordered.key_inj hd₀ hd' hname.symm)
        obtain ⟨lg, hlg, -⟩ := hnew d hd hnotMem
        exact nomatch hsame.symm.trans hlg
      refine ⟨hvisible, fun d hd hnotMem => ?_⟩
      have hsome : (onLoggerConfChanged old new fun _ => none).isSome = true := by
        rw [hlistener]
        rfl
      exact onLoggerConfChanged_isSome.mp hsome d hd (hvisible.changed hd hnotMem)
  · intro ⟨hvisible, htypes⟩ m calls
    have hsome : (onLoggerConfChanged old new m).isSome = true :=
      onLoggerConfChanged_isSome.mpr fun d hd hchanged => htypes d hd hchanged.notMem
    obtain ⟨m', hlistener⟩ := Option.isSome_iff_exists.mp hsome
    have hspec := onLoggerConfChanged_spec hlistener
    refine ⟨{ val := new, manager := m', calls := calls ++ [(old, new)] }, ?_, rfl, rfl, ?_, ?_⟩
    · simp [Logs.setValue, hvisible.not_same hne, hlistener]
    · intro d hd hnotMem
      obtain ⟨lg, hlg, hm'⟩ := Option.map_eq_some_iff.mp
        (hspec.changed d hd (hvisible.changed hd hnotMem))
      have hview := configure_view hlg
      refine ⟨lg, hm'.symm, ?_⟩
      have hpattern : lg.pattern = effective d.formatter (getLogger (m d.name)).pattern :=
        congrArg LoggerView.pattern hview
      rw [hview, hpattern]
      rfl
    · intro d hd hnone
      exact ⟨_, hspec.dropped d hd hnone, rfl⟩

/-- A definition of the logger "test". -/
def testDefine (level : Level) (formatter : String)
    (appenders : List LogAppenderDefine) : LogDefine :=
  { name := "test", level := level, formatter := formatter, appenders := appenders }

def stdoutDefine (formatter : String) : LogAppenderDefine :=
  { type := 2, level := .UNKNOW, formatter := formatter, file := "" }

/-- The standard output becomes a file, and the level changes with it. -/
theorem heeded_iff_level :
    Heeded (Ordered.single (testDefine .INFO "" [stdoutDefine ""]))
      (Ordered.single
        (testDefine .DEBUG "" [{ stdoutDefine "" with type := 1, file := "a.txt" }])) := by
  apply (heeded_iff (by decide)).mpr
  constructor
  · intro d hd d' hd' _ _ halike
    rw [Ordered.mem_single.mp hd, Ordered.mem_single.mp hd'] at halike
    exact absurd halike (by decide)
  · intro d hd _
    rw [Ordered.mem_single.mp hd]
    decide

/-- A logger gets a second appender: the two values are the same to `setValue`. -/
theorem not_heeded : ¬ ∀ old new, old ≠ new → Heeded old new := by
  intro h
  have hne : (Ordered.single (testDefine .INFO "" [stdoutDefine ""]) : LogDefines)
      ≠ Ordered.single (testDefine .INFO "" [stdoutDefine "", stdoutDefine "%m%n"]) := by decide
  obtain ⟨s, hset, hval, -⟩ := h _ _ hne (fun _ => none) []
  unfold Logs.setValue at hset
  rw [if_pos (by decide)] at hset
  cases hset
  exact hne hval

end Gwn.Log
