import Mathlib.Data.List.Basic

/-! # Log formatters

    `LogLevel`, `LogEvent` and `LogFormatter` (gwn/log.h, log.cc): the parser of
    pattern strings and the text a formatter makes of an event. Strings are indexed
    as in the source; a loop over an index is a recursion on the number of
    iterations that are still possible. `localtime_r` with `strftime` is a parameter. -/

namespace Gwn.Log

/-! ### Levels -/

/-- `LogLevel::Level`. -/
inductive Level where
  | UNKNOW | DEBUG | INFO | WARN | ERROR | FATAL
deriving DecidableEq, Repr

/-- The value of the enumerator. -/
def Level.val : Level → Nat
  | .UNKNOW => 0
  | .DEBUG => 1
  | .INFO => 2
  | .WARN => 3
  | .ERROR => 4
  | .FATAL => 5

/-- `LogLevel::ToString`. -/
def Level.ToString : Level → String
  | .DEBUG => "DEBUG"
  | .INFO => "INFO"
  | .WARN => "WARN"
  | .ERROR => "ERROR"
  | .FATAL => "FATAL"
  | .UNKNOW => "UNKNOW"

/-! ### Events -/

/-- What a `LogEvent` gives to format items. -/
structure LogEvent where
  /-- `getContent()`. -/
  content : String
  /-- `getLogger()->getName()`. -/
  loggerName : String
  file : String
  line : Int32
  elapse : UInt32
  threadId : UInt32
  fiberId : UInt32
  threadName : String
  time : UInt64

/-- The subclasses of `LogFormatter::FormatItem`, with the text some are created with. -/
inductive FormatItem where
  | message | level | elapse | name | threadId | newLine | filename | line | tab | fiberId
  | threadName
  | dateTime (format : String)
  | string (str : String)
deriving DecidableEq, Repr

/-- What `format` writes. `strftime f t` is what `DateTimeFormatItem` finds in its buffer. -/
def FormatItem.format (strftime : String → UInt64 → String) (level : Level) (event : LogEvent) :
    FormatItem → String
  | .message => event.content
  | .level => level.ToString
  | .elapse => toString event.elapse
  | .name => event.loggerName
  | .threadId => toString event.threadId
  | .newLine => "\n"
  | .filename => event.file
  | .line => toString event.line
  | .tab => "\t"
  | .fiberId => toString event.fiberId
  | .threadName => event.threadName
  | .dateTime format => strftime format event.time
  | .string str => str

/-- `DateTimeFormatItem(format)`. -/
def DateTimeFormatItem (format : String) : FormatItem :=
  if format = "" then .dateTime "%Y-%m-%d %H:%M:%S" else .dateTime format

/-- `s_format_items`. -/
def formatItems (str fmt : String) : Option FormatItem :=
  match str with
  | "m" => some .message
  | "p" => some .level
  | "r" => some .elapse
  | "c" => some .name
  | "t" => some .threadId
  | "n" => some .newLine
  | "d" => some (DateTimeFormatItem fmt)
  | "f" => some .filename
  | "l" => some .line
  | "T" => some .tab
  | "F" => some .fiberId
  | "N" => some .threadName
  | _ => none

/-! ### The parser -/

/-- An entry of the vector that `init` collects: text (type 0), or a name with its
    format (type 1). -/
structure Token where
  str : String
  fmt : String
  type : Nat
deriving DecidableEq, Repr

/-- `m_pattern.substr(pos, len)`. -/
def substr (p : List Char) (pos len : Nat) : String :=
  String.ofList ((p.drop pos).take len)

/-- The variables of the inner loop. -/
structure Directive where
  n : Nat
  fmt_status : Nat
  fmt_begin : Nat
  str : String
  fmt : String

/-- `while(n < m_pattern.size())`, for a `%` at `i`. -/
def scanDirective (p : List Char) (i : Nat) : Nat → Directive → Directive
  | 0, d => d
  | fuel + 1, d =>
    match p[d.n]? with
    | none => d
    | some c =>
      if d.fmt_status = 0 ∧ ¬ c.isAlpha ∧ c ≠ '{' ∧ c ≠ '}' then
        { d with str := substr p (i + 1) (d.n - i - 1) }
      else if d.fmt_status = 0 ∧ c = '{' then
        scanDirective p i fuel { d with
          str := substr p (i + 1) (d.n - i - 1), fmt_status := 1, fmt_begin := d.n, n := d.n + 1 }
      else if d.fmt_status = 1 ∧ c = '}' then
        { d with
          fmt := substr p (d.fmt_begin + 1) (d.n - d.fmt_begin - 1), fmt_status := 0, n := d.n + 1 }
      else
        scanDirective p i fuel { d with
          n := d.n + 1
          str := if d.n + 1 = p.length ∧ d.str = "" then substr p (i + 1) p.length else d.str }

/-- The variables of the outer loop. -/
structure Parse where
  vec : List Token
  nstr : String
  error : Bool

/-- `if(!nstr.empty()) vec.push_back(nstr, "", 0)`. -/
def Parse.flush (s : Parse) : Parse :=
  if s.nstr = "" then s else { s with vec := s.vec ++ [⟨s.nstr, "", 0⟩], nstr := "" }

/-- `for(size_t i = 0; i < m_pattern.size(); ++i)`. -/
def parse (p : List Char) : Nat → Nat → Parse → Parse
  | 0, _, s => s
  | fuel + 1, i, s =>
    match p[i]? with
    | none => s
    | some c =>
      if c ≠ '%' then parse p fuel (i + 1) { s with nstr := s.nstr.push c }
      else if p[i + 1]? = some '%' then parse p fuel (i + 1) { s with nstr := s.nstr.push '%' }
      else
        let d := scanDirective p i (p.length - i)
          { n := i + 1, fmt_status := 0, fmt_begin := 0, str := "", fmt := "" }
        if d.fmt_status = 0 then
          let s := s.flush
          parse p fuel d.n { s with vec := s.vec ++ [⟨d.str, d.fmt, 1⟩] }
        else -- the loop goes on behind the `%`
          parse p fuel (i + 1)
            { s with vec := s.vec ++ [⟨"<<pattern_error>>", d.fmt, 0⟩], error := true }

/-- The item of an entry, and whether it is an error. -/
def Token.item (t : Token) : FormatItem × Bool :=
  if t.type = 0 then (.string t.str, false)
  else match formatItems t.str t.fmt with
    | some item => (item, false)
    | none => (.string ("<<error_format %" ++ t.str ++ ">>"), true)

structure LogFormatter where
  /-- `m_pattern`. -/
  pattern : String
  /-- `m_items`. -/
  items : List FormatItem
  /-- `m_error`. -/
  error : Bool
deriving DecidableEq, Repr

/-- `LogFormatter::LogFormatter(pattern)`, which calls `init`. -/
def LogFormatter.new (pattern : String) : LogFormatter :=
  let p := pattern.toList
  let s := (parse p p.length 0 { vec := [], nstr := "", error := false }).flush
  { pattern := pattern
    items := s.vec.map fun t => t.item.1
    error := s.error || s.vec.any fun t => t.item.2 }

/-- `isError()`. -/
def LogFormatter.isError (f : LogFormatter) : Bool := f.error

/-- `getPattern()`. -/
def LogFormatter.getPattern (f : LogFormatter) : String := f.pattern

@[simp] theorem LogFormatter.new_getPattern (pattern : String) :
    (LogFormatter.new pattern).getPattern = pattern := rfl

/-- `format(logger, level, event)`. -/
def LogFormatter.format (strftime : String → UInt64 → String) (f : LogFormatter) (level : Level)
    (event : LogEvent) : String :=
  String.join (f.items.map fun i => i.format strftime level event)

/-- The pattern that `Logger::Logger` sets. -/
def defaultPattern : String :=
  "%d{%Y-%m-%d %H:%M:%S}%T%t%T%N%T%F%T[%p]%T[%c]%T%f:%l%T%m%n"

example : (LogFormatter.new "%d\x7b%H:%M\x7d: %m%n").items =
    [.dateTime "%H:%M", .string ": ", .message, .newLine] := by decide

example : (LogFormatter.new "%d\x7b%H").isError = true := by decide

/-! ### The loops come to their end -/

/-- The inner loop never goes back. -/
theorem le_scanDirective (p : List Char) (i fuel : Nat) (d : Directive) :
    d.n ≤ (scanDirective p i fuel d).n := by
  induction fuel generalizing d with
  | zero => exact Nat.le_refl _
  | succ fuel ih =>
    unfold scanDirective
    split
    · exact Nat.le_refl _
    · split
      · exact Nat.le_refl _
      · split
        · refine Nat.le_trans ?_ (ih _)
          exact Nat.le_succ _
        · split
          · exact Nat.le_succ _
          · refine Nat.le_trans ?_ (ih _)
            exact Nat.le_succ _

/-- It takes at most one iteration per character that is left. -/
theorem scanDirective_enough (p : List Char) (i : Nat) {fuel : Nat} {d : Directive}
    (h : p.length ≤ d.n + fuel) (k : Nat) :
    scanDirective p i (fuel + k) d = scanDirective p i fuel d := by
  induction fuel generalizing d with
  | zero =>
    have hnone : p[d.n]? = none := List.getElem?_eq_none_iff.mpr h
    cases k with
    | zero => rfl
    | succ k =>
      show scanDirective p i (0 + k + 1) d = d
      unfold scanDirective
      rw [hnone]
  | succ fuel ih =>
    rw [show fuel + 1 + k = fuel + k + 1 by omega]
    unfold scanDirective
    split
    · rfl
    · split
      · rfl
      · split
        · exact ih (by simp only; omega)
        · split
          · rfl
          · exact ih (by simp only; omega)

theorem parse_enough (p : List Char) {fuel i : Nat} (h : p.length ≤ i + fuel)
    (s : Parse) (k : Nat) :
    parse p (fuel + k) i s = parse p fuel i s := by
  induction fuel generalizing i s with
  | zero =>
    have hnone : p[i]? = none := List.getElem?_eq_none_iff.mpr h
    cases k with
    | zero => rfl
    | succ k =>
      show parse p (0 + k + 1) i s = s
      unfold parse
      rw [hnone]
  | succ fuel ih =>
    rw [show fuel + 1 + k = fuel + k + 1 by omega]
    unfold parse
    split
    · rfl
    · split
      · exact ih (by omega) _
      · split
        · exact ih (by omega) _
        · -- a directive is at least its `%`
          have hn := le_scanDirective p i (p.length - i)
            { n := i + 1, fmt_status := 0, fmt_begin := 0, str := "", fmt := "" }
          simp only
          split
          · exact ih (by simp only at hn; omega) _
          · exact ih (by omega) _

end Gwn.Log
