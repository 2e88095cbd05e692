import Gwn.Config.Kinds
import Gwn.Log.Loads

/-! # Dumping the loggers

    `LoggerManager::toYamlString` and the functions it calls (gwn/log.cc). The text
    has the form of a value of the variable "logs", so another process can load it:
    - `LoggerManager.toYamlString`, `restore`: the text, and the loggers of a new
      process that loads it
    - `restore_iff`: when these are the loggers that were dumped
    - `restore_reachable`: what comes back of the loggers of a run, where formatters
      are set by their patterns
    An appender's level is written and not read, as in `not_roundTrip`. -/

namespace Gwn.Log

open LTS Config

/-! ### The text -/

/-- `m_formatter->getPattern()`, if `m_hasFormatter && m_formatter`. -/
def Appender.ownFormatter (a : Appender) : Option String :=
  if a.hasFormatter then a.formatter.map LogFormatter.getPattern else none

/-- The entry for the formatter, where there is one to write. -/
def patternPairs (pattern : Option String) : List (String × Node) :=
  pattern.toList.map fun p => ("formatter", .scalar p)

/-- What the two kinds of appender begin with. -/
def Sink.pairs : Sink → List (String × Node)
  | .stdout => [("type", .scalar "StdoutLogAppender")]
  | .file name => [("type", .scalar "FileLogAppender"), ("file", .scalar name)]

/-- `node` of `StdoutLogAppender::toYamlString` and `FileLogAppender::toYamlString`. -/
def Appender.node (a : Appender) : Node :=
  .map (a.sink.pairs ++ levelPairs a.level ++ patternPairs a.ownFormatter)

/-- `StdoutLogAppender::toYamlString` and `FileLogAppender::toYamlString`. -/
def Appender.toYamlString (Y : Yaml) (a : Appender) : String :=
  Y.emit a.node

/-- `node` of `Logger::toYamlString`, with what is pushed back for the appenders. -/
def Logger.nodeWith (name : String) (lg : Logger) (appenders : List Node) : Node :=
  .map ([("name", .scalar name)] ++ levelPairs lg.level ++ patternPairs lg.pattern ++
    if appenders.isEmpty then [] else [("appenders", .sequence appenders)])

/-- `Logger::toYamlString`; `none` where `Load` throws. -/
def Logger.toYamlString (Y : Yaml) (name : String) (lg : Logger) : Option String :=
  (lg.appenders.mapM fun i => Y.load (i.toYamlString Y)).map fun appenders =>
    Y.emit (lg.nodeWith name appenders)

/-- The names in `m_loggers`, in the order of the map. -/
structure Listed (m : LoggerManager) where
  names : Ordered (id : String → String)
  mem_iff : ∀ n, n ∈ names ↔ (m n).isSome = true

/-- `LoggerManager::toYamlString`. -/
def LoggerManager.toYamlString (Y : Yaml) (m : LoggerManager) (names : Listed m) : Option String :=
  (names.names.entries.mapM fun n =>
    (m n).bind fun i => (i.toYamlString Y n).bind Y.load).map fun items =>
      Y.emit (if items.isEmpty then .null else .sequence items)

/-- A new process in which "logs" is set to a text. -/
def restore (Y : Yaml) (text : String) : Option Logs :=
  ((logDefines Y).ofText text).bind Logs.fresh.setValue

/-! ### The tree behind the text -/

/-- The tree of a logger, -/
def Logger.node (name : String) (lg : Logger) : Node :=
  lg.nodeWith name (lg.appenders.map Appender.node)

/-- the loggers under their names, -/
def Listed.loggers {m : LoggerManager} (names : Listed m) : List (String × Logger) :=
  names.names.entries.filterMap fun n => (m n).map fun lg => (n, lg)

/-- and the tree of all of them. -/
def Listed.tree {m : LoggerManager} (names : Listed m) : Node :=
  .sequence (names.loggers.map fun e => e.2.node e.1)

/-- The definition that is read of an appender's text. -/
def Appender.define (a : Appender) : LogAppenderDefine :=
  let formatter := a.ownFormatter.getD ""
  match a.sink with
  | .file name => { type := 1, level := .UNKNOW, formatter := formatter, file := name }
  | .stdout => { type := 2, level := .UNKNOW, formatter := formatter, file := "" }

/-- The definition that is read of a logger's text. -/
def Logger.define (name : String) (lg : Logger) : LogDefine :=
  { name := name, level := lg.level, formatter := lg.pattern.getD ""
    appenders := lg.appenders.map Appender.define }

section text
variable {Y : Yaml} {m : LoggerManager} {names : Listed m}

/-- These are the loggers of the manager. -/
theorem Listed.mem_loggers {e : String × Logger} : e ∈ names.loggers ↔ m e.1 = some e.2 := by
  unfold Listed.loggers
  rw [List.mem_filterMap]
  constructor
  · rintro ⟨n, -, hn⟩
    obtain ⟨lg, hlg, rfl⟩ := Option.map_eq_some_iff.mp hn
    exact hlg
  · intro h
    have hmem : e.1 ∈ names.names := (names.mem_iff e.1).mpr (by rw [h]; rfl)
    exact ⟨e.1, hmem, by rw [h]; rfl⟩

/-- The loggers are in the order of their names. -/
theorem Listed.loggers_sorted : names.loggers.Pairwise fun e e' => e.1 < e'.1 := by
  unfold Listed.loggers
  rw [List.pairwise_filterMap]
  refine names.names.sorted.imp ?_
  intro n n' hlt e he e' he'
  obtain ⟨lg, -, rfl⟩ := Option.map_eq_some_iff.mp he
  obtain ⟨lg', -, rfl⟩ := Option.map_eq_some_iff.mp he'
  exact hlt

/-- If the text is read back as written, it is that of the tree: what is loaded of the
    appenders' texts is pushed back as it was. -/
theorem Logger.toYamlString_eq {name : String} {lg : Logger} (h : Written Y (lg.node name)) :
    lg.toYamlString Y name = some (Y.emit (lg.node name)) := by
  have hloads : lg.appenders.mapM (fun i => Y.load (i.toYamlString Y))
      = some (lg.appenders.map Appender.node) := by
    apply mapM_of_forall
    intro a ha
    have hmem : a.node ∈ lg.appenders.map Appender.node := List.mem_map_of_mem ha
    have hne : (lg.appenders.map Appender.node).isEmpty = false := by
      rw [List.isEmpty_eq_false_iff]
      exact List.ne_nil_of_mem hmem
    have hvalue : Written Y (.sequence (lg.appenders.map Appender.node)) := by
      refine Written.value (p := ("appenders", _)) h ?_
      rw [hne]
      simp
    exact (hvalue.item hmem).load
  unfold Logger.toYamlString
  rw [hloads]
  rfl

/-- The loop over the loggers that are found. -/
theorem mapM_loggers {α : Type} {f : String → Logger → Option α}
    {g : String → Logger → α}
    {l : List String} (hl : ∀ n ∈ l, ∃ lg, m n = some lg ∧ f n lg = some (g n lg)) :
    l.mapM (fun n => (m n).bind (f n))
      = some ((l.filterMap fun n => (m n).map fun lg => (n, lg)).map fun e => g e.1 e.2) := by
  induction l with
  | nil => rfl
  | cons n l ih =>
    obtain ⟨lg, hlg, hf⟩ := hl n List.mem_cons_self
    have hrest := ih fun n' hn' => hl n' (List.mem_cons_of_mem _ hn')
    rw [List.mapM_cons, hrest, hlg, Option.bind_some, hf, List.filterMap_cons, hlg]
    rfl

/-- The same for the manager, which has a root logger, so that the sequence is not empty. -/
theorem LoggerManager.toYamlString_eq (hroot : (m "root").isSome = true)
    (h : Written Y names.tree) :
    m.toYamlString Y names = some (Y.emit names.tree) := by
  have hitems : names.names.entries.mapM (fun n =>
      (m n).bind fun i => (i.toYamlString Y n).bind Y.load)
        = some (names.loggers.map fun e => e.2.node e.1) := by
    apply mapM_loggers (g := fun n lg => lg.node n)
    intro n hn
    obtain ⟨lg, hlg⟩ := Option.isSome_iff_exists.mp ((names.mem_iff n).mp hn)
    have hitem : Written Y (lg.node n) :=
      h.item (List.mem_map.mpr ⟨(n, lg), Listed.mem_loggers.mpr hlg, rfl⟩)
    refine ⟨lg, hlg, ?_⟩
    rw [Logger.toYamlString_eq hitem, Option.bind_some, hitem.load]
  obtain ⟨root, hroot⟩ := Option.isSome_iff_exists.mp hroot
  have hne : (names.loggers.map fun e => e.2.node e.1).isEmpty = false := by
    rw [List.isEmpty_eq_false_iff]
    exact List.ne_nil_of_mem
      (List.mem_map_of_mem (Listed.mem_loggers (e := ("root", root)).mpr hroot))
  unfold LoggerManager.toYamlString
  rw [hitems, Option.map_some, hne]
  rfl

/-! What is read of the text. -/

/-- The definition of an appender. Its level is not read. -/
theorem Appender.ofNode_node (a : Appender) :
    LogAppenderDefine.ofNode a.node = some (some a.define) := by
  cases hsink : a.sink <;> by_cases hlevel : a.level = .UNKNOW <;>
    cases hown : a.ownFormatter <;>
      simp [LogAppenderDefine.ofNode, Appender.node, Appender.define, Sink.pairs, levelPairs,
        patternPairs, textOr, Node.get, Node.asString, hsink, hlevel, hown]

/-- The appenders of a logger. -/
theorem appendersOf_node (l : List Appender) :
    appendersOf (l.map Appender.node) = some (l.map Appender.define) := by
  induction l with
  | nil => rfl
  | cons a l ih => simp [appendersOf, Appender.ofNode_node, ih]

section node
variable (name : String) (lg : Logger)

/-- `UNKNOW` is not written, and is read as the empty text. -/
theorem Logger.textOr_level : textOr "level" (lg.node name)
    = some (if lg.level = .UNKNOW then "" else lg.level.ToString) := by
  by_cases hlevel : lg.level = .UNKNOW <;> cases hpattern : lg.pattern <;>
    by_cases hnil : lg.appenders = [] <;>
      simp [textOr, node, nodeWith, Node.get, Node.asString, levelPairs, patternPairs,
        hlevel, hpattern, hnil]

theorem Logger.textOr_formatter :
    textOr "formatter" (lg.node name) = some (lg.pattern.getD "") := by
  by_cases hlevel : lg.level = .UNKNOW <;> cases hpattern : lg.pattern <;>
    by_cases hnil : lg.appenders = [] <;>
      simp [textOr, node, nodeWith, Node.get, Node.asString, levelPairs, patternPairs,
        hlevel, hpattern, hnil]

theorem Logger.get_appenders : (lg.node name).get "appenders" = some
    (if lg.appenders = [] then none else some (.sequence (lg.appenders.map Appender.node))) := by
  by_cases hlevel : lg.level = .UNKNOW <;> cases hpattern : lg.pattern <;>
    by_cases hnil : lg.appenders = [] <;>
      simp [node, nodeWith, Node.get, levelPairs, patternPairs, hlevel, hpattern, hnil]

/-- The whole definition of a logger. -/
theorem Logger.ofNode_node : LogDefine.ofNode (lg.node name) = some (lg.define name) := by
  unfold LogDefine.ofNode
  rw [show (lg.node name).get "name" = some (some (.scalar name)) from rfl, Option.bind_some]
  simp only [Node.asString, Option.bind_some]
  rw [lg.textOr_level, lg.textOr_formatter, lg.get_appenders]
  simp only [Option.bind_some, Level.FromString_written]
  by_cases hnil : lg.appenders = []
  · simp [hnil, define]
  · simp [hnil, Node.items, appendersOf_node, define]

end node

/-- The value that "logs" is set to. -/
def Listed.defines (names : Listed m) : LogDefines where
  entries := names.loggers.map fun e => e.2.define e.1
  sorted := by
    rw [List.pairwise_map]
    exact names.loggers_sorted

/-- There is one definition for each logger. -/
theorem Listed.find?_defines (n : String) :
    names.defines.find? n = (m n).map fun lg => lg.define n := by
  cases hn : m n with
  | none =>
    rw [Option.map_none, Ordered.find?_eq_none]
    intro d hd hname
    obtain ⟨⟨n', lg⟩, he, rfl⟩ := List.mem_map.mp hd
    have hfound : m n' = some lg := Listed.mem_loggers.mp he
    obtain rfl : n' = n := hname
    rw [hn] at hfound
    exact nomatch hfound
  | some lg =>
    rw [Option.map_some, Ordered.find?_eq_some]
    exact ⟨List.mem_map.mpr ⟨(n, lg), Listed.mem_loggers.mpr hn, rfl⟩, rfl⟩

/-- The text of the manager is read as these definitions, in the order of the set. -/
theorem Listed.ofText_tree (h : Written Y names.tree) :
    (logDefines Y).ofText (Y.emit names.tree) = some names.defines := by
  have hread : elementsOfText Y (logDefine Y) (Y.emit names.tree) = some names.defines.entries := by
    unfold elementsOfText
    rw [h.load, Option.bind_some]
    show (names.loggers.map _).mapM _ = _
    rw [List.mapM_map]
    apply mapM_of_forall
    intro e he
    have hitem : Written Y (e.2.node e.1) := h.item (List.mem_map.mpr ⟨e, he, rfl⟩)
    show (Y.load (Y.emit (e.2.node e.1))).bind LogDefine.ofNode = _
    rw [hitem.load, Option.bind_some, Logger.ofNode_node]
    rfl
  have hinsert : names.defines.entries.foldl Ordered.insert Ordered.empty = names.defines :=
    Ordered.ext (foldl_insert_empty names.defines.sorted)
  have hcast : (logDefines Y).ofText (Y.emit names.tree)
      = (elementsOfText Y (logDefine Y) (Y.emit names.tree)).map
          fun l => l.foldl Ordered.insert (Ordered.empty : LogDefines) := rfl
  rw [hcast, hread]
  exact congrArg some hinsert

end text

/-! ### What comes back -/

/-- A pattern that a definition can set. -/
def Settable (p : String) : Prop :=
  p ≠ "" ∧ (LogFormatter.new p).isError = false

instance (p : String) : Decidable (Settable p) :=
  inferInstanceAs (Decidable (_ ∧ _))

/-- The default pattern is one of them. -/
theorem settable_default : Settable defaultPattern := by decide

/-- A definition with such a pattern sets it, -/
theorem effective_of_settable {p : String} (h : Settable p) (inherited : Option String) :
    effective p inherited = some p :=
  if_pos h

/-- and any other leaves what there was. -/
theorem effective_of_not {p : String} (h : ¬ Settable p) (inherited : Option String) :
    effective p inherited = inherited :=
  if_neg h

/-- The formatters of a logger are those that a definition of it sets. -/
structure Logger.Definable (lg : Logger) : Prop where
  pattern : ∃ p, lg.pattern = some p ∧ Settable p
  own : ∀ a ∈ lg.appenders, ∀ p, a.ownFormatter = some p → Settable p
  inherited : ∀ a ∈ lg.appenders, a.ownFormatter = none → a.view.pattern = lg.pattern

def Logger.Unleveled (lg : Logger) : Prop :=
  ∀ a ∈ lg.appenders, a.level = .UNKNOW

def AppenderView.unleveled (v : AppenderView) : AppenderView :=
  { v with level := .UNKNOW }

/-- A view in which the appenders have no levels. -/
def LoggerView.unleveled (v : LoggerView) : LoggerView :=
  { v with appenders := v.appenders.map AppenderView.unleveled }

theorem Appender.view_of_own {a : Appender} {p : String} (h : a.ownFormatter = some p) :
    a.view.pattern = some p := by
  unfold Appender.ownFormatter at h
  split at h
  · exact h
  · exact nomatch h

/-- What a new logger is made by the definition that is read. -/
theorem Appender.prescribed_define (a : Appender) (inherited : Option String) :
    a.define.prescribed inherited =
      { a.view.unleveled with pattern := effective (a.ownFormatter.getD "") inherited } := by
  cases hsink : a.sink <;>
    simp [Appender.define, LogAppenderDefine.prescribed, LogAppenderDefine.sink, Appender.view,
      AppenderView.unleveled, hsink]

theorem Appender.prescribed_eq_iff {a : Appender} {p : String} (hp : Settable p) :
    a.define.prescribed (some p) = a.view.unleveled ↔
      (∀ q, a.ownFormatter = some q → Settable q) ∧
        (a.ownFormatter = none → a.view.pattern = some p) := by
  have hpattern : a.define.prescribed (some p) = a.view.unleveled ↔
      effective (a.ownFormatter.getD "") (some p) = a.view.pattern := by
    rw [a.prescribed_define]
    exact ⟨congrArg AppenderView.pattern, fun h => by rw [h]; rfl⟩
  rw [hpattern]
  cases hown : a.ownFormatter with
  | none =>
    rw [Option.getD_none, effective_of_not (by decide : ¬ Settable "")]
    exact ⟨fun h => ⟨nofun, fun _ => h.symm⟩, fun h => (h.2 rfl).symm⟩
  | some q =>
    rw [Option.getD_some, Appender.view_of_own hown]
    constructor
    · intro h
      refine ⟨?_, nofun⟩
      rintro _ ⟨⟩
      by_contra hq
      rw [effective_of_not hq] at h
      exact hq (Option.some.inj h ▸ hp)
    · intro h
      exact effective_of_settable (h.1 q rfl) _

/-- A new logger that is made by the definition of another one is the same, but for the
    levels of the appenders, if the formatters can be set. -/
theorem Logger.prescribed_eq_iff {lg : Logger} {name : String} :
    (lg.define name).prescribed (some defaultPattern) = lg.view.unleveled ↔ lg.Definable := by
  have hviews : ∀ p, effective (lg.pattern.getD "") (some defaultPattern) = some p →
      ((lg.define name).prescribed (some defaultPattern) = lg.view.unleveled ↔
        some p = lg.pattern ∧
          ∀ a ∈ lg.appenders, a.define.prescribed (some p) = a.view.unleveled) := by
    intro p hp
    have hleft : (lg.define name).prescribed (some defaultPattern) =
        { level := lg.level, pattern := some p
          appenders := lg.appenders.map fun a => a.define.prescribed (some p) } := by
      simp [LogDefine.prescribed, define, hp]
    rw [hleft]
    constructor
    · intro h
      have happenders := congrArg LoggerView.appenders h
      refine ⟨congrArg LoggerView.pattern h, ?_⟩
      simpa [view, LoggerView.unleveled] using happenders
    · rintro ⟨hpattern, happenders⟩
      simpa [view, LoggerView.unleveled, hpattern] using happenders
  constructor
  · intro h
    cases hpattern : lg.pattern with
    | none =>
      have hdefault := hviews defaultPattern (by
        rw [hpattern]
        exact effective_of_not (by decide) _)
      exact absurd ((hdefault.mp h).1.trans hpattern) (Option.some_ne_none _)
    | some q =>
      by_cases hq : Settable q
      · have hsame := (hviews q (by rw [hpattern]; exact effective_of_settable hq _)).mp h
        have happ : ∀ a ∈ lg.appenders, _ :=
          fun a ha => (Appender.prescribed_eq_iff hq).mp (hsame.2 a ha)
        exact ⟨⟨q, hpattern, hq⟩, fun a ha => (happ a ha).1,
          fun a ha hown => ((happ a ha).2 hown).trans hpattern.symm⟩
      · have hsame := (hviews defaultPattern (by rw [hpattern]; exact effective_of_not hq _)).mp h
        obtain rfl : defaultPattern = q := Option.some.inj (hsame.1.trans hpattern)
        exact absurd settable_default hq
  · rintro ⟨⟨p, hpattern, hp⟩, hown, hinherited⟩
    refine (hviews p (by rw [hpattern]; exact effective_of_settable hp _)).mpr
      ⟨hpattern.symm, ?_⟩
    intro a ha
    exact (Appender.prescribed_eq_iff hp).mpr
      ⟨hown a ha, fun hnone => (hinherited a ha hnone).trans hpattern⟩

theorem fresh_of_ne {n : String} (hn : n ≠ "root") : Logs.fresh.manager n = none := by
  show LoggerManager.fresh n = none
  exact Function.update_of_ne hn _ _

theorem pattern_fresh (n : String) :
    (getLogger (Logs.fresh.manager n)).pattern = some defaultPattern := by
  by_cases hn : n = "root"
  · subst hn
    rfl
  · rw [fresh_of_ne hn]
    rfl

theorem changed_fresh (d : LogDefine) : Changed Logs.fresh.val d := by
  intro d' hfind
  simp [Logs.fresh, Ordered.empty, Ordered.find?] at hfind

/-- The first value of a process that defines the root logger is all there is to see. -/
theorem setValue_fresh {D : LogDefines} (hroot : (D.find? "root").isSome = true)
    (htypes : ∀ d ∈ D, ∀ a ∈ d.appenders, a.type = 1 ∨ a.type = 2) :
    ∃ s, Logs.fresh.setValue D = some s ∧ ∀ n, (s.manager n).map Logger.view
      = (D.find? n).map fun d => d.prescribed (some defaultPattern) := by
  obtain ⟨root, hroot⟩ := Option.isSome_iff_exists.mp hroot
  have hsame : sameDefines D.entries Logs.fresh.val.entries = false := by
    have hmem : root ∈ D.entries := (Ordered.find?_eq_some.mp hroot).1
    cases hentries : D.entries with
    | nil =>
      simp [hentries] at hmem
    | cons d l => rfl
  have hisSome : (onLoggerConfChanged Logs.fresh.val D Logs.fresh.manager).isSome = true :=
    onLoggerConfChanged_isSome.mpr fun d hd _ => htypes d hd
  obtain ⟨m', hm'⟩ := Option.isSome_iff_exists.mp hisSome
  have hspec := onLoggerConfChanged_spec hm'
  refine ⟨_, by rw [Logs.setValue, hsame, hm']; rfl, ?_⟩
  intro n
  show (m' n).map Logger.view = _
  cases hn : D.find? n with
  | none =>
    have hne : n ≠ "root" := by
      rintro rfl
      simp [hn] at hroot
    rw [hspec.others n rfl hn, fresh_of_ne hne]
    rfl
  | some d =>
    obtain ⟨hd, rfl⟩ := Ordered.find?_eq_some.mp hn
    -- there has been no value before, so every definition is new
    have hconfigure := hspec.changed d hd (changed_fresh d)
    obtain ⟨lg, hlg, hfound⟩ := Option.map_eq_some_iff.mp hconfigure
    rw [← hfound, Option.map_some, configure_view hlg, pattern_fresh, Option.map_some]

/-- What a text makes of the loggers of a new process. -/
theorem restore_dump {Y : Yaml} {m : LoggerManager} {names : Listed m}
    (hroot : (m "root").isSome = true) (h : Written Y names.tree) :
    ∃ s, restore Y (Y.emit names.tree) = some s ∧ ∀ n, (s.manager n).map Logger.view
      = (m n).map fun lg => (lg.define n).prescribed (some defaultPattern) := by
  have htypes : ∀ d ∈ names.defines, ∀ a ∈ d.appenders, a.type = 1 ∨ a.type = 2 := by
    intro d hd a ha
    obtain ⟨e, -, rfl⟩ := List.mem_map.mp hd
    obtain ⟨ap, -, rfl⟩ := List.mem_map.mp ha
    cases hsink : ap.sink <;> simp [Appender.define, hsink]
  obtain ⟨s, hs, hviews⟩ := setValue_fresh (D := names.defines)
    (by rw [Listed.find?_defines, Option.isSome_map]; exact hroot) htypes
  refine ⟨s, by rw [restore, Listed.ofText_tree h]; exact hs, ?_⟩
  intro n
  rw [hviews, Listed.find?_defines, Option.map_map]
  rfl

theorem unleveled_eq_iff {lg : Logger} : lg.view.unleveled = lg.view ↔ lg.Unleveled := by
  constructor
  · intro h a ha
    have happenders := congrArg LoggerView.appenders h
    simp only [Logger.view, LoggerView.unleveled, List.map_map] at happenders
    have hview := List.map_inj_left.mp happenders a ha
    exact (congrArg AppenderView.level hview).symm
  · intro h
    have hsame : ∀ a ∈ lg.appenders, a.view.unleveled = a.view := by
      intro a ha
      show { a.view with level := .UNKNOW } = a.view
      rw [← h a ha]
      rfl
    simpa [Logger.view, LoggerView.unleveled] using hsame

theorem Logger.prescribed_eq_view_iff {lg : Logger} {name : String} :
    (lg.define name).prescribed (some defaultPattern) = lg.view ↔
      lg.Definable ∧ lg.Unleveled := by
  constructor
  · intro h
    have hunleveled : lg.view.unleveled = lg.view := by
      rw [← h]
      simp [LogDefine.prescribed, LoggerView.unleveled, define, Appender.prescribed_define,
        AppenderView.unleveled]
    exact ⟨prescribed_eq_iff.mp (h.trans hunleveled.symm), unleveled_eq_iff.mp hunleveled⟩
  · rintro ⟨hdefinable, hunleveled⟩
    exact (prescribed_eq_iff.mpr hdefinable).trans (unleveled_eq_iff.mpr hunleveled)

/-- For all loggers that a process can have: a new process that loads their text has
    the same loggers, as far as can be seen of them, if and only if each formatter in
    use can be set by a definition, appenders without one use that of their logger, and
    no appender has a level. -/
theorem restore_iff {Y : Yaml} {m : LoggerManager} {names : Listed m}
    (hroot : (m "root").isSome = true) (hwritten : Written Y names.tree) :
    ∃ text s, m.toYamlString Y names = some text ∧ restore Y text = some s ∧
      ((∀ n, (s.manager n).map Logger.view = (m n).map Logger.view) ↔
        ∀ n lg, m n = some lg → lg.Definable ∧ lg.Unleveled) := by
  obtain ⟨s, hs, hviews⟩ := restore_dump hroot hwritten
  refine ⟨_, s, LoggerManager.toYamlString_eq hroot hwritten, hs, ?_⟩
  constructor
  · intro h n lg hlg
    have hview := (hviews n).symm.trans (h n)
    rw [hlg] at hview
    exact Logger.prescribed_eq_view_iff.mp (Option.some.inj hview)
  · intro h n
    rw [hviews]
    apply Option.map_congr
    intro lg hlg
    exact Logger.prescribed_eq_view_iff.mpr (h n lg hlg)

/-! ### The loggers of a run -/

/-- What a process does with its loggers. -/
inductive Access where
  /-- `gwn_LOG_NAME(name)`. -/
  | getLogger (name : String)
  | setLevel (name : String) (val : Level)
  /-- `setFormatter(const std::string&)`. -/
  | setFormatter (name val : String)
  /-- `addAppender` of a new appender that has been given a level, and a formatter of
      this pattern. -/
  | addAppender (name : String) (sink : Sink) (level : Level) (formatter : Option String)
  | clearAppenders (name : String)
  /-- A new value of "logs". -/
  | load (v : LogDefines)

/-- `f` applied to the logger that `getLogger(name)` returns. -/
def Logs.update (s : Logs) (name : String) (f : Logger → Logger) : Logs :=
  { s with manager := Function.update s.manager name (some (f (Log.getLogger (s.manager name)))) }

/-- An appender that code of the process has set up. -/
def userAppender (sink : Sink) (level : Level) (formatter : Option String) : Appender :=
  let ap : Appender := { sink := sink }
  let ap := { ap with toLogAppender := ap.toLogAppender.setLevel level }
  formatter.elim ap fun p =>
    { ap with toLogAppender := ap.toLogAppender.setFormatter (some (.new p)) }

def Logs.access (s : Logs) : Access → Option Logs
  | .getLogger name => some (s.update name id)
  | .setLevel name val => some (s.update name (·.setLevel val))
  | .setFormatter name val => some (s.update name (·.setPattern val))
  | .addAppender name sink level formatter =>
    some (s.update name (·.addAppender (userAppender sink level formatter)))
  | .clearAppenders name => some (s.update name Logger.clearAppenders)
  | .load v => s.setValue v

def process : System Logs Access where
  init := .fresh
  step := Logs.access

/-- A logger is not given the empty pattern, and an appender only one that can be set. -/
def Access.Proper : Access → Prop
  | .setFormatter _ val => val ≠ ""
  | .addAppender _ _ _ formatter => ∀ p ∈ formatter, Settable p
  | _ => True

instance : (l : Access) → Decidable l.Proper
  | .setFormatter _ val => inferInstanceAs (Decidable (val ≠ ""))
  | .addAppender _ _ _ formatter => inferInstanceAs (Decidable (∀ p ∈ formatter, Settable p))
  | .getLogger _ | .setLevel _ _ | .clearAppenders _ | .load _ => .isTrue trivial

/-- The process, as long as it keeps to patterns that can be set. -/
def properProcess : System Logs Access :=
  process.restrict fun _ l => l.Proper

section definable
variable {lg : Logger}

theorem definable_new : Logger.new.Definable :=
  ⟨⟨defaultPattern, rfl, settable_default⟩, nofun, nofun⟩

theorem Logger.Definable.setLevel (h : lg.Definable) (val : Level) : (lg.setLevel val).Definable :=
  ⟨h.pattern, h.own, h.inherited⟩

theorem Logger.Definable.clearAppenders (h : lg.Definable) : lg.clearAppenders.Definable :=
  ⟨h.pattern, nofun, nofun⟩

/-- The appenders without a formatter of their own get the new one. -/
theorem Logger.Definable.setPattern (h : lg.Definable) {val : String} (hval : val ≠ "") :
    (lg.setPattern val).Definable := by
  cases herror : (LogFormatter.new val).isError with
  | true => simpa [Logger.setPattern, herror] using h
  | false =>
    have hset : lg.setPattern val = lg.setFormatter (some (.new val)) := by
      simp [Logger.setPattern, herror]
    rw [hset]
    refine ⟨⟨val, rfl, hval, herror⟩, ?_, ?_⟩
    · intro a ha p hp
      obtain ⟨b, hb, rfl⟩ := List.mem_map.mp ha
      by_cases hown : b.hasFormatter = true
      · rw [if_pos hown] at hp
        exact h.own b hb p hp
      · rw [if_neg hown] at hp
        simp [Appender.ownFormatter, hown] at hp
    · intro a ha hnone
      obtain ⟨b, hb, rfl⟩ := List.mem_map.mp ha
      by_cases hown : b.hasFormatter = true
      · -- a formatter of its own that is null would be a null formatter in use
        rw [if_pos hown] at hnone
        obtain ⟨p, hpattern, -⟩ := h.pattern
        have hb' := (h.inherited b hb hnone).trans hpattern
        simp [Appender.ownFormatter, hown] at hnone
        simp [Appender.view, hnone] at hb'
      · rw [if_neg hown]
        rfl

/-- An appender that has either no formatter or one that can be set. -/
def Appender.Ready (a : Appender) : Prop :=
  a.hasFormatter = false ∧ a.formatter = none ∨ ∃ p, a.ownFormatter = some p ∧ Settable p

theorem Logger.Definable.append (h : lg.Definable) {a : Appender}
    (hown : ∀ p, a.ownFormatter = some p → Settable p)
    (hinherited : a.ownFormatter = none → a.view.pattern = lg.pattern) :
    Logger.Definable { lg with appenders := lg.appenders ++ [a] } where
  pattern := h.pattern
  own b hb := by
    rcases List.mem_append.mp hb with hb | hb
    · exact h.own b hb
    · rw [List.mem_singleton.mp hb]
      exact hown
  inherited b hb := by
    rcases List.mem_append.mp hb with hb | hb
    · exact h.inherited b hb
    · rw [List.mem_singleton.mp hb]
      exact hinherited

theorem Logger.Definable.addAppender (h : lg.Definable) {a : Appender} (ha : a.Ready) :
    (lg.addAppender a).Definable := by
  unfold Logger.addAppender
  rcases ha with ⟨hnot, hformatter⟩ | ⟨p, hown, hp⟩
  · rw [hformatter, Option.isNone_none, if_pos rfl]
    refine h.append ?_ fun _ => rfl
    intro p hp
    simp [Appender.ownFormatter, hnot] at hp
  · have hsome : a.formatter.isNone = false := by
      cases hformatter : a.formatter with
      | none => simp [Appender.ownFormatter, hformatter] at hown
      | some f => rfl
    rw [hsome, if_neg nofun]
    refine h.append ?_ fun hnone => nomatch hown.symm.trans hnone
    intro q hq
    rw [hown] at hq
    exact Option.some.inj hq ▸ hp

theorem ready_userAppender (sink : Sink) (level : Level) {formatter : Option String}
    (h : ∀ p ∈ formatter, Settable p) : (userAppender sink level formatter).Ready := by
  cases formatter with
  | none => exact .inl ⟨rfl, rfl⟩
  | some p => exact .inr ⟨p, rfl, h p rfl⟩

theorem ready_newAppender {a : LogAppenderDefine} {ap : Appender} (h : newAppender a = some ap) :
    ap.Ready := by
  obtain ⟨ap₀, hap₀, rfl⟩ := Option.map_eq_some_iff.mp h
  have hbare : ap₀.hasFormatter = false ∧ ap₀.formatter = none := by
    split at hap₀
    · cases hap₀
      exact ⟨rfl, rfl⟩
    · split at hap₀
      · cases hap₀
        exact ⟨rfl, rfl⟩
      · exact nomatch hap₀
  simp only
  split
  · rename_i hformatter
    split
    · rename_i herror
      exact .inr ⟨a.formatter, rfl, hformatter, by simpa using herror⟩
    · exact .inl hbare
  · exact .inl hbare

theorem Logger.Definable.configure (h : lg.Definable) {d : LogDefine} {lg' : Logger}
    (hconfigure : Log.configure d lg = some lg') : lg'.Definable := by
  have hpattern : ∀ {lg : Logger}, lg.Definable →
      (if d.formatter ≠ "" then lg.setPattern d.formatter else lg).Definable := by
    intro lg h
    split
    · exact h.setPattern ‹_›
    · exact h
  have hadd : ∀ (l : List LogAppenderDefine) (lg : Logger), lg.Definable →
      l.foldlM (fun lg a => (newAppender a).map lg.addAppender) lg = some lg' →
        lg'.Definable := by
    intro l
    induction l with
    | nil =>
      rintro lg h ⟨⟩
      exact h
    | cons a l ih =>
      intro lg h hfold
      obtain ⟨lg₁, hlg₁, hrest⟩ := Option.bind_eq_some_iff.mp hfold
      obtain ⟨ap, hap, rfl⟩ := Option.map_eq_some_iff.mp hlg₁
      exact ih _ (h.addAppender (ready_newAppender hap)) hrest
  exact hadd _ _ (hpattern (h.setLevel d.level)).clearAppenders hconfigure

end definable

/-- What holds of the loggers in every state of the process. -/
structure Kept (m : LoggerManager) : Prop where
  root : (m "root").isSome = true
  definable : ∀ n lg, m n = some lg → lg.Definable
  finite : { n | (m n).isSome = true }.Finite

section kept
variable {m m' : LoggerManager}

theorem Kept.getLogger (h : Kept m) (n : String) : (getLogger (m n)).Definable := by
  cases hn : m n with
  | none => exact definable_new
  | some lg => exact h.definable n lg hn

/-- One logger is created or changes. -/
theorem Kept.update (h : Kept m) {n : String} {lg : Logger} (hlg : lg.Definable) :
    Kept (Function.update m n (some lg)) where
  root := by
    by_cases hn : "root" = n
    · subst hn
      rw [Function.update_self]
      rfl
    · rw [Function.update_of_ne hn]
      exact h.root
  definable n' lg' hlg' := by
    by_cases hn : n' = n
    · subst hn
      rw [Function.update_self] at hlg'
      exact Option.some.inj hlg' ▸ hlg
    · rw [Function.update_of_ne hn] at hlg'
      exact h.definable n' lg' hlg'
  finite := by
    refine (h.finite.insert n).subset ?_
    intro n' hn'
    by_cases hn : n' = n
    · exact .inl hn
    · simp only [Set.mem_ofPred_eq, Function.update_of_ne hn] at hn'
      exact .inr hn'

/-- What the listener does to one logger. -/
theorem Kept.reconfigured (h : Kept m) {old new : LogDefines} (hspec : Reconfigured old new m m')
    (n : String) : m' n = m n ∨
      ∃ lg, m' n = some lg ∧ lg.Definable ∧
        n ∈ (new.entries ++ old.entries).map LogDefine.name := by
  cases hnew : new.find? n with
  | some d =>
    obtain ⟨hd, rfl⟩ := Ordered.find?_eq_some.mp hnew
    by_cases hchanged : Changed old d
    · obtain ⟨lg, hlg, hfound⟩ := Option.map_eq_some_iff.mp (hspec.changed d hd hchanged)
      exact .inr ⟨lg, hfound.symm, (h.getLogger d.name).configure hlg,
        List.mem_map_of_mem (List.mem_append_left _ hd)⟩
    · exact .inl (hspec.unchanged d hd hchanged)
  | none =>
    cases hold : old.find? n with
    | some d =>
      obtain ⟨hd, rfl⟩ := Ordered.find?_eq_some.mp hold
      exact .inr ⟨_, hspec.dropped d hd hnew, ((h.getLogger d.name).setLevel _).clearAppenders,
        List.mem_map_of_mem (List.mem_append_right _ hd)⟩
    | none => exact .inl (hspec.others n hold hnew)

theorem Kept.of_reconfigured (h : Kept m) {old new : LogDefines}
    (hspec : Reconfigured old new m m') : Kept m' where
  root := by
    rcases h.reconfigured hspec "root" with hsame | ⟨lg, hfound, -⟩
    · rw [hsame]
      exact h.root
    · rw [hfound]
      rfl
  definable n lg hlg := by
    rcases h.reconfigured hspec n with hsame | ⟨lg', hfound, hdefinable, -⟩
    · exact h.definable n lg (hsame ▸ hlg)
    · rw [hfound] at hlg
      exact Option.some.inj hlg ▸ hdefinable
  finite := by
    refine (h.finite.union
      (List.finite_toSet ((new.entries ++ old.entries).map LogDefine.name))).subset ?_
    intro n hn
    rcases h.reconfigured hspec n with hsame | ⟨-, -, -, hmem⟩
    · simp only [Set.mem_ofPred_eq, hsame] at hn
      exact .inl hn
    · exact .inr hmem

/-- The names of finitely many loggers can be listed. -/
theorem Kept.listed (h : Kept m) : Nonempty (Listed m) :=
  ⟨{ names := ⟨h.finite.toFinset.sort (· ≤ ·), (Finset.sortedLT_sort _).pairwise⟩
     mem_iff := by
      intro n
      show n ∈ h.finite.toFinset.sort (· ≤ ·) ↔ _
      rw [Finset.mem_sort, Set.Finite.mem_toFinset]
      rfl }⟩

end kept

theorem kept_fresh : Kept Logs.fresh.manager where
  root := rfl
  definable n lg hlg := by
    by_cases hn : n = "root"
    · subst hn
      cases hlg
      exact definable_new.addAppender (.inl ⟨rfl, rfl⟩)
    · rw [fresh_of_ne hn] at hlg
      exact nomatch hlg
  finite := by
    refine (Set.finite_singleton "root").subset ?_
    intro n hn
    by_contra hne
    simp only [Set.mem_ofPred_eq, fresh_of_ne hne] at hn
    exact nomatch hn

theorem kept_setValue {s s' : Logs} {v : LogDefines} (h : Kept s.manager)
    (hset : s.setValue v = some s') : Kept s'.manager := by
  unfold Logs.setValue at hset
  split at hset
  · cases hset
    exact h
  · obtain ⟨m', hm', rfl⟩ := Option.map_eq_some_iff.mp hset
    exact h.of_reconfigured (onLoggerConfChanged_spec hm')

theorem kept_access {s s' : Logs} {l : Access} (h : Kept s.manager) (hl : l.Proper)
    (hstep : s.access l = some s') : Kept s'.manager := by
  cases l with
  | getLogger name =>
    cases hstep
    exact h.update (h.getLogger name)
  | setLevel name val =>
    cases hstep
    exact h.update ((h.getLogger name).setLevel val)
  | setFormatter name val =>
    cases hstep
    exact h.update ((h.getLogger name).setPattern hl)
  | addAppender name sink level formatter =>
    cases hstep
    exact h.update ((h.getLogger name).addAppender (ready_userAppender sink level hl))
  | clearAppenders name =>
    cases hstep
    exact h.update (h.getLogger name).clearAppenders
  | load v => exact kept_setValue h hstep

theorem kept_reachable : ∀ s, properProcess.Reachable s → Kept s.manager :=
  System.restrict_invariant kept_fresh fun _ _ _ h hl hstep => kept_access h hl hstep

theorem listed_reachable {s : Logs} (h : properProcess.Reachable s) : Nonempty (Listed s.manager) :=
  (kept_reachable s h).listed

def shortLogs : Logs :=
  ((Logs.fresh.update "root" (·.setPattern "%m%n")).update "root" Logger.clearAppenders).update
    "root"
    (·.addAppender (userAppender .stdout .UNKNOW none))

def shortAppender : Node :=
  .map [("type", .scalar "StdoutLogAppender")]

def shortLogger : Node :=
  .map [("name", .scalar "root"), ("level", .scalar "DEBUG"), ("formatter", .scalar "%m%n"),
    ("appenders", .sequence [shortAppender])]

/-- The text form of this logger. -/
def shortText : Yaml :=
  { load := fun text => some
      (if text = "\"%m%n\"" then .scalar "%m%n"
      else if text = "type: StdoutLogAppender" then shortAppender
      else if text = "- type: StdoutLogAppender" then .sequence [shortAppender]
      else if text = "name: root\nlevel: DEBUG\nformatter: \"%m%n\"\nappenders:\n  - type: StdoutLogAppender"
        then shortLogger
      else if text = "- name: root\n  level: DEBUG\n  formatter: \"%m%n\"\n  appenders:\n    - type: StdoutLogAppender"
        then .sequence [shortLogger]
      else .scalar text)
    emit := fun
      | .scalar text => if text = "%m%n" then "\"%m%n\"" else text
      | .map [_] => "type: StdoutLogAppender"
      | .sequence [.map [_]] => "- type: StdoutLogAppender"
      | .map _ => "name: root\nlevel: DEBUG\nformatter: \"%m%n\"\nappenders:\n  - type: StdoutLogAppender"
      | _ => "- name: root\n  level: DEBUG\n  formatter: \"%m%n\"\n  appenders:\n    - type: StdoutLogAppender" }

theorem shortLogs_of_ne {n : String} (hn : n ≠ "root") : shortLogs.manager n = none := by
  simp only [shortLogs, Logs.update, Function.update_of_ne hn, fresh_of_ne hn]

def shortNames : Listed shortLogs.manager where
  names := .single "root"
  mem_iff n := by
    by_cases hn : n = "root"
    · subst hn
      exact ⟨fun _ => rfl, fun _ => Ordered.mem_single.mpr rfl⟩
    · rw [shortLogs_of_ne hn]
      exact ⟨fun h => absurd (Ordered.mem_single.mp h) hn, nofun⟩

theorem written_scalar {Y : Yaml} {text : String}
    (h : Y.load (Y.emit (.scalar text)) = some (.scalar text)) :
    Written Y (.scalar text) := by
  rintro _ ⟨⟩
  exact h

theorem written_map {Y : Yaml} {pairs : List (String × Node)}
    (h : Y.load (Y.emit (.map pairs)) = some (.map pairs))
    (hpairs : ∀ p ∈ pairs, Written Y p.2) :
    Written Y (.map pairs) := by
  rintro n (_ | ⟨⟩ | ⟨hp, hn⟩)
  · exact h
  · exact hpairs _ hp n hn

theorem written_single {Y : Yaml} {item : Node}
    (h : Y.load (Y.emit (.sequence [item])) = some (.sequence [item])) (hitem : Written Y item) :
    Written Y (.sequence [item]) := by
  rintro n (_ | ⟨hi, hn⟩ | ⟨⟩)
  · exact h
  · rw [List.mem_singleton.mp hi] at hn
    exact hitem n hn

theorem written_short : Written shortText shortNames.tree := by
  have happender : Written shortText shortAppender := by
    refine written_map rfl ?_
    rintro p (_ | ⟨_, ⟨⟩⟩)
    exact written_scalar rfl
  have hlogger : Written shortText shortLogger := by
    refine written_map rfl ?_
    rintro p (_ | ⟨_, _ | ⟨_, _ | ⟨_, _ | ⟨_, ⟨⟩⟩⟩⟩⟩)
    · exact written_scalar rfl
    · exact written_scalar rfl
    · exact written_scalar rfl
    · exact written_single rfl happender
  exact written_single rfl hlogger

theorem restore_iff_short :
    ∃ text s, shortLogs.manager.toYamlString shortText shortNames = some text ∧
    restore shortText text = some s ∧
      ((∀ n, (s.manager n).map Logger.view = (shortLogs.manager n).map Logger.view) ↔
        ∀ n lg, shortLogs.manager n = some lg → lg.Definable ∧ lg.Unleveled) :=
  restore_iff rfl written_short

end Gwn.Log
