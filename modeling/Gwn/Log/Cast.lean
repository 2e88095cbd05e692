import Gwn.Config.Yaml
import Gwn.Log.Define

/-! # The text form of a log definition

    `LexicalCast<LogDefine, std::string>` and `LexicalCast<std::string, LogDefine>`
    (gwn/log.cc). The first writes the level of each appender and the second does not
    read it, so a definition survives its text form exactly as long as its appenders
    have no level (`not_roundTrip`, `roundTrip_iff`). -/

namespace Gwn.Log

/-- `LogLevel::FromString`. -/
def Level.FromString (str : String) : Level :=
  match str with
  | "debug" | "DEBUG" => .DEBUG
  | "info" | "INFO" => .INFO
  | "warn" | "WARN" => .WARN
  | "error" | "ERROR" => .ERROR
  | "fatal" | "FATAL" => .FATAL
  | _ => .UNKNOW

@[simp] theorem Level.FromString_ToString (l : Level) : Level.FromString l.ToString = l := by
  cases l <;> rfl

/-! ### The encoder -/

/-- The pairs that are set for a level and a formatter, if there is one. -/
def levelPairs (level : Level) : List (String × Node) :=
  if level ≠ .UNKNOW then [("level", .scalar level.ToString)] else []

def formatterPairs (formatter : String) : List (String × Node) :=
  if formatter ≠ "" then [("formatter", .scalar formatter)] else []

/-- `na`. It stays null if nothing is set in it. -/
def LogAppenderDefine.node (a : LogAppenderDefine) : Node :=
  let kind :=
    if a.type = 1 then [("type", .scalar "FileLogAppender"), ("file", .scalar a.file)]
    else if a.type = 2 then [("type", .scalar "StdoutLogAppender")]
    else []
  match kind ++ levelPairs a.level ++ formatterPairs a.formatter with
  | [] => .null
  | p :: ps => .map (p :: ps)

/-- `n`. -/
def LogDefine.node (i : LogDefine) : Node :=
  let appenders :=
    if i.appenders = [] then []
    else [("appenders", .sequence (i.appenders.map LogAppenderDefine.node))]
  .map ([("name", .scalar i.name)] ++ levelPairs i.level ++ formatterPairs i.formatter ++ appenders)

/-- `LexicalCast<LogDefine, std::string>`. -/
def LogDefine.toText (Y : Yaml) (i : LogDefine) : String :=
  Y.emit i.node

/-! ### The decoder -/

/-- `n[key].IsDefined() ? n[key].as<std::string>() : ""`. -/
def textOr (key : String) (n : Node) : Option String :=
  (n.get key).bind fun
    | none => some ""
    | some x => x.asString

/-- The loop over the appenders, for one of them; `some none` where it goes on with
    the next one. -/
def LogAppenderDefine.ofNode (a : Node) : Option (Option LogAppenderDefine) :=
  (a.get "type").bind fun
    | none => some none
    | some type => type.asString.bind fun type =>
      if type = "FileLogAppender" then
        (a.get "file").bind fun
          | none => some none
          | some file => file.asString.bind fun file => (textOr "formatter" a).map fun formatter =>
            some { type := 1, level := .UNKNOW, formatter := formatter, file := file }
      else if type = "StdoutLogAppender" then
        (textOr "formatter" a).map fun formatter =>
          some { type := 2, level := .UNKNOW, formatter := formatter, file := "" }
      else some none

def appendersOf : List Node → Option (List LogAppenderDefine)
  | [] => some []
  | a :: l => (LogAppenderDefine.ofNode a).bind fun lad => (appendersOf l).map fun rest =>
    lad.toList ++ rest

/-- What the decoder makes of the node that `Load` returns; `none` where it throws. -/
def LogDefine.ofNode (n : Node) : Option LogDefine :=
  (n.get "name").bind fun
    | none => none
    | some name => name.asString.bind fun name =>
      (textOr "level" n).bind fun level => (textOr "formatter" n).bind fun formatter =>
      (n.get "appenders").bind fun appenders =>
      (match appenders with
        | none => some []
        | some appenders => appenders.items.bind appendersOf).map fun appenders =>
      { name := name, level := .FromString level, formatter := formatter, appenders := appenders }

/-- `LexicalCast<std::string, LogDefine>`. -/
def LogDefine.ofText (Y : Yaml) (v : String) : Option LogDefine :=
  (Y.load v).bind LogDefine.ofNode

/-! ### The round trip -/

/-- What the decoder is promised of an appender: `file` is only used with a file. -/
def LogAppenderDefine.Known (a : LogAppenderDefine) : Prop :=
  a.type = 1 ∨ a.type = 2 ∧ a.file = ""

def LogAppenderDefine.unleveled (a : LogAppenderDefine) : LogAppenderDefine :=
  { a with level := .UNKNOW }

/-- All of an appender is read back but its level. -/
theorem LogAppenderDefine.ofNode_node {a : LogAppenderDefine} (h : a.Known) :
    ofNode a.node = some (some a.unleveled) := by
  obtain ⟨type, level, formatter, file⟩ := a
  rcases h with h | ⟨h, h'⟩
  · obtain rfl : type = 1 := h
    by_cases hlevel : level = .UNKNOW <;> by_cases hformatter : formatter = "" <;>
      simp [ofNode, node, levelPairs, formatterPairs, hlevel, hformatter, textOr, Node.get,
        Node.asString, unleveled]
  · obtain rfl : type = 2 := h
    obtain rfl : file = "" := h'
    by_cases hlevel : level = .UNKNOW <;> by_cases hformatter : formatter = "" <;>
      simp [ofNode, node, levelPairs, formatterPairs, hlevel, hformatter, textOr, Node.get,
        Node.asString, unleveled]

theorem appendersOf_map {l : List LogAppenderDefine} (h : ∀ a ∈ l, a.Known) :
    appendersOf (l.map LogAppenderDefine.node) = some (l.map LogAppenderDefine.unleveled) := by
  induction l with
  | nil => rfl
  | cons a l ih =>
    obtain ⟨ha, hl⟩ := List.forall_mem_cons.mp h
    simp [appendersOf, LogAppenderDefine.ofNode_node ha, ih hl]

section node
variable (d : LogDefine)

theorem get_name : d.node.get "name" = some (some (.scalar d.name)) := rfl

theorem textOr_level :
    textOr "level" d.node = some (if d.level = .UNKNOW then "" else d.level.ToString) := by
  by_cases hlevel : d.level = .UNKNOW <;> by_cases hformatter : d.formatter = "" <;>
    by_cases hnil : d.appenders = [] <;>
      simp [textOr, LogDefine.node, Node.get, Node.asString, levelPairs, formatterPairs, hlevel,
        hformatter, hnil]

theorem textOr_formatter : textOr "formatter" d.node = some d.formatter := by
  by_cases hlevel : d.level = .UNKNOW <;> by_cases hformatter : d.formatter = "" <;>
    by_cases hnil : d.appenders = [] <;>
      simp [textOr, LogDefine.node, Node.get, Node.asString, levelPairs, formatterPairs, hlevel,
        hformatter, hnil]

theorem get_appenders : d.node.get "appenders" = some
    (if d.appenders = [] then none
      else some (.sequence (d.appenders.map LogAppenderDefine.node))) := by
  by_cases hlevel : d.level = .UNKNOW <;> by_cases hformatter : d.formatter = "" <;>
    by_cases hnil : d.appenders = [] <;>
      simp [LogDefine.node, Node.get, levelPairs, formatterPairs, hlevel, hformatter, hnil]

end node

theorem Level.FromString_written (l : Level) :
    Level.FromString (if l = .UNKNOW then "" else l.ToString) = l := by
  cases l <;> rfl

/-- All of a definition is read back but the levels of its appenders. -/
theorem LogDefine.ofNode_node {d : LogDefine} (h : ∀ a ∈ d.appenders, a.Known) :
    ofNode d.node = some { d with appenders := d.appenders.map LogAppenderDefine.unleveled } := by
  unfold ofNode
  rw [get_name, Option.bind_some]
  simp only [Node.asString, Option.bind_some]
  rw [textOr_level, textOr_formatter, get_appenders]
  simp only [Option.bind_some, Level.FromString_written]
  by_cases hnil : d.appenders = []
  · simp [hnil]
  · simp [hnil, Node.items, appendersOf_map h]

/-- For every definition whose appenders are files, or the standard output without a
    file: its text is read back as the same definition if and only if none of its
    appenders has a level. -/
theorem roundTrip_iff {Y : Yaml} {d : LogDefine} (hload : Y.load (Y.emit d.node) = some d.node)
    (hknown : ∀ a ∈ d.appenders, a.Known) :
    LogDefine.ofText Y (d.toText Y) = some d ↔ ∀ a ∈ d.appenders, a.level = .UNKNOW := by
  have hread : LogDefine.ofText Y (d.toText Y)
      = some { d with appenders := d.appenders.map LogAppenderDefine.unleveled } := by
    unfold LogDefine.ofText LogDefine.toText
    rw [hload, Option.bind_some, LogDefine.ofNode_node hknown]
  rw [hread]
  constructor
  · intro h a ha
    have happenders : d.appenders.map LogAppenderDefine.unleveled = d.appenders :=
      congrArg LogDefine.appenders (Option.some.inj h)
    rw [← happenders] at ha
    obtain ⟨b, -, rfl⟩ := List.mem_map.mp ha
    rfl
  · intro h
    have hsame : ∀ a ∈ d.appenders, a.unleveled = a := by
      intro a ha
      show { a with level := .UNKNOW } = a
      rw [← h a ha]
    have happenders : d.appenders.map LogAppenderDefine.unleveled = d.appenders :=
      (List.map_congr_left hsame).trans (List.map_id _)
    rw [happenders]

/-- A text form that knows one node. -/
def oneText (n : Node) (text : String) : Yaml :=
  { load := fun t => if t = text then some n else none, emit := fun _ => text }

/-- The logger "root" with one appender to the standard output. -/
def rootDefine (level : Level) : LogDefine :=
  { name := "root", level := .INFO, formatter := "%m%n"
    appenders := [{ type := 2, level := level, formatter := "", file := "" }] }

theorem roundTrip_iff_root :
    let Y := oneText (rootDefine .UNKNOW).node
      "name: root\nlevel: INFO\nformatter: \"%m%n\"\nappenders:\n  - type: StdoutLogAppender"
    LogDefine.ofText Y ((rootDefine .UNKNOW).toText Y) = some (rootDefine .UNKNOW) := by
  refine (roundTrip_iff rfl ?_).mpr ?_
  · intro a ha
    rw [List.mem_singleton.mp ha]
    exact .inr ⟨rfl, rfl⟩
  · intro a ha
    rw [List.mem_singleton.mp ha]

/-- An appender with the level ERROR comes back without it. -/
theorem not_roundTrip : ¬ ∀ (Y : Yaml) (d : LogDefine), Y.load (Y.emit d.node) = some d.node →
    (∀ a ∈ d.appenders, a.Known) → LogDefine.ofText Y (d.toText Y) = some d := by
  intro h
  have hread := h (oneText (rootDefine .ERROR).node
    "name: root\nlevel: INFO\nformatter: \"%m%n\"\nappenders:\n  - type: StdoutLogAppender\n    level: ERROR")
    (rootDefine .ERROR) rfl (by
      intro a ha
      rw [List.mem_singleton.mp ha]
      exact .inr ⟨rfl, rfl⟩)
  have hlevel := congrArg (Option.map fun d => d.appenders.map (·.level)) hread
  exact absurd hlevel (by decide)

end Gwn.Log
