import Gwn.Log.Formatter

/-! # Log appenders

    `LogAppender` and `FileLogAppender` (gwn/log.h, log.cc) with the `std::ofstream`
    that a file appender writes to. Opens and writes succeed, and nobody else
    touches the file. `FileLogAppender::log` reopens the file when an event is three
    seconds or more after the event of the last reopen, and opening it with the
    default mode truncates it (`not_lines_kept`). The file holds every line exactly
    as long as nothing has been written when that happens (`lines_kept_iff`). -/

namespace Gwn.Log

variable {strftime : String → UInt64 → String}

/-! ### The base class -/

structure LogAppender where
  /-- `m_level`. -/
  level : Level := .DEBUG
  /-- `m_hasFormatter`. -/
  hasFormatter : Bool := false
  /-- `m_formatter`. -/
  formatter : Option LogFormatter := none
deriving DecidableEq

/-- `LogAppender::setFormatter`. -/
def LogAppender.setFormatter (a : LogAppender) (val : Option LogFormatter) : LogAppender :=
  { a with formatter := val, hasFormatter := val.isSome }

/-- `LogAppender::setLevel`. -/
def LogAppender.setLevel (a : LogAppender) (val : Level) : LogAppender :=
  { a with level := val }

/-! ### The stream -/

/-- A `std::ofstream` and the content of the one file it is opened on. -/
structure Ofstream where
  isOpen : Bool
  /-- `failbit` or `badbit`. -/
  fail : Bool
  content : String
deriving DecidableEq

/-- `open(name)` in the default mode; it succeeds unless the stream is open already. -/
def Ofstream.open (st : Ofstream) : Ofstream :=
  if st.isOpen then { st with fail := true } else { isOpen := true, fail := false, content := "" }

/-- `close()`, which fails on a stream that is not open. -/
def Ofstream.close (st : Ofstream) : Ofstream :=
  if st.isOpen then { st with isOpen := false } else { st with fail := true }

/-- `st << s`. -/
def Ofstream.write (st : Ofstream) (s : String) : Ofstream :=
  if st.isOpen ∧ st.fail = false then { st with content := st.content ++ s }
  else { st with fail := true }

/-- `LogFormatter::format(ofs, logger, level, event)`: item by item. -/
def LogFormatter.formatTo (strftime : String → UInt64 → String) (f : LogFormatter)
    (st : Ofstream) (level : Level) (event : LogEvent) : Ofstream :=
  f.items.foldl (fun st i => st.write (i.format strftime level event)) st

/-! ### The file appender -/

structure FileLogAppender extends LogAppender where
  /-- `m_filestream`. -/
  filestream : Ofstream
  /-- `m_lastTime`. -/
  lastTime : UInt64

/-- `FileLogAppender::reopen`. -/
def FileLogAppender.reopen (a : FileLogAppender) : FileLogAppender :=
  let st := if a.filestream.fail = false then a.filestream.close else a.filestream
  { a with filestream := st.open }

/-- `FileLogAppender::FileLogAppender(filename)`; the file holds `old` before. -/
def FileLogAppender.new (old : String) : FileLogAppender :=
  FileLogAppender.reopen
    { filestream := { isOpen := false, fail := false, content := old }, lastTime := 0 }

/-- `FileLogAppender::log`; `none` when it uses a null formatter. -/
def FileLogAppender.log (strftime : String → UInt64 → String) (a : FileLogAppender)
    (level : Level) (event : LogEvent) : Option FileLogAppender :=
  if a.level.val ≤ level.val then
    let now := event.time
    let a := if a.lastTime + 3 ≤ now then { a.reopen with lastTime := now } else a
    a.formatter.map fun f => { a with filestream := f.formatTo strftime a.filestream level event }
  else some a

/-- A sequence of calls of `log`. -/
def FileLogAppender.logAll (strftime : String → UInt64 → String) (a : FileLogAppender) :
    List (Level × LogEvent) → Option FileLogAppender
  | [] => some a
  | (level, event) :: calls => (a.log strftime level event).bind fun a => a.logAll strftime calls

/-- A new file appender that has been given a level and a formatter. -/
def FileLogAppender.ready (old : String) (level : Level) (f : LogFormatter) : FileLogAppender :=
  { FileLogAppender.new old with
    toLogAppender :=
    ((FileLogAppender.new old).toLogAppender.setLevel level).setFormatter (some f) }

/-! ### What the file should hold -/

/-- The formatted text of every event that passes the level, in the order of the calls. -/
def lines (strftime : String → UInt64 → String) (m : Level) (f : LogFormatter) :
    List (Level × LogEvent) → String
  | [] => ""
  | (level, event) :: calls =>
    (if m.val ≤ level.val then f.format strftime level event else "") ++ lines strftime m f calls

/-- After each call the file holds exactly the lines of the calls so far. -/
def LinesKept (strftime : String → UInt64 → String) (a : FileLogAppender) (f : LogFormatter)
    (calls : List (Level × LogEvent)) : Prop :=
  ∀ pre, pre <+: calls →
    (a.logAll strftime pre).map (fun a => a.filestream.content)
      = some (lines strftime a.level f pre)

/-- No event that passes the level is three seconds or more (in 64-bit arithmetic)
    after the event of the last reopen, when `text` has been written; `last` is the
    time of the last reopen. -/
def Undisturbed (strftime : String → UInt64 → String) (m : Level) (f : LogFormatter) :
    UInt64 → String → List (Level × LogEvent) → Prop
  | _, _, [] => True
  | last, text, (level, event) :: calls =>
    if m.val ≤ level.val then
      if last + 3 ≤ event.time then
        text = "" ∧ Undisturbed strftime m f event.time (f.format strftime level event) calls
      else Undisturbed strftime m f last (text ++ f.format strftime level event) calls
    else Undisturbed strftime m f last text calls

/-! ### One call -/

theorem formatTo_eq (strftime : String → UInt64 → String) (f : LogFormatter) (level : Level)
    (event : LogEvent) {st : Ofstream} (hopen : st.isOpen = true) (hfail : st.fail = false) :
    f.formatTo strftime st level event =
      { st with content := st.content ++ f.format strftime level event } := by
  unfold LogFormatter.formatTo LogFormatter.format
  generalize f.items = items
  induction items generalizing st with
  | nil => simp
  | cons i items ih =>
    have hwrite : st.write (i.format strftime level event)
        = { st with content := st.content ++ i.format strftime level event } := by
      simp [Ofstream.write, hopen, hfail]
    have hrest := @ih { st with content := st.content ++ i.format strftime level event } hopen hfail
    rw [List.foldl_cons, hwrite, hrest]
    simp [String.append_assoc]

/-- A file appender in use. -/
structure Writing (m : Level) (f : LogFormatter) (last : UInt64) (text : String)
    (a : FileLogAppender) : Prop where
  level : a.level = m
  formatter : a.formatter = some f
  isOpen : a.filestream.isOpen = true
  fail : a.filestream.fail = false
  lastTime : a.lastTime = last
  content : a.filestream.content = text

theorem writing_ready (old : String) (m : Level) (f : LogFormatter) :
    Writing m f 0 "" (.ready old m f) := ⟨rfl, rfl, rfl, rfl, rfl, rfl⟩

section calls
variable {m : Level} {f : LogFormatter} {last : UInt64} {text : String} {a : FileLogAppender}

/-- A reopen leaves the file empty. -/
theorem Writing.reopen (h : Writing m f last text a) (now : UInt64) :
    Writing m f now "" { a.reopen with lastTime := now } := by
  have hstream : a.reopen.filestream = { isOpen := true, fail := false, content := "" } := by
    simp [FileLogAppender.reopen, Ofstream.close, Ofstream.open, h.fail, h.isOpen]
  exact ⟨h.level, h.formatter, by rw [hstream], by rw [hstream], rfl, by rw [hstream]⟩

theorem Writing.write (strftime : String → UInt64 → String) (h : Writing m f last text a)
    (level : Level) (event : LogEvent) :
    Writing m f last (text ++ f.format strftime level event)
      { a with filestream := f.formatTo strftime a.filestream level event } := by
  have hstream := formatTo_eq strftime f level event h.isOpen h.fail
  refine ⟨h.level, h.formatter, ?_, ?_, h.lastTime, ?_⟩
  · rw [hstream]
    exact h.isOpen
  · rw [hstream]
    exact h.fail
  · rw [hstream, ← h.content]

/-- One call: nothing, a line behind the text, or a line in place of the text. -/
theorem Writing.log (strftime : String → UInt64 → String) (h : Writing m f last text a)
    (level : Level) (event : LogEvent) :
    ∃ a', a.log strftime level event = some a' ∧
      if m.val ≤ level.val then
        if last + 3 ≤ event.time then
          Writing m f event.time (f.format strftime level event) a'
        else Writing m f last (text ++ f.format strftime level event) a'
      else Writing m f last text a' := by
  unfold FileLogAppender.log
  rw [h.level, h.lastTime]
  by_cases hlevel : m.val ≤ level.val
  · simp only [if_pos hlevel]
    by_cases htime : last + 3 ≤ event.time
    · have hreopened := h.reopen event.time
      have hwritten := hreopened.write strftime level event
      rw [String.empty_append] at hwritten
      simp only [if_pos htime]
      exact ⟨_, congrArg (Option.map _) hreopened.formatter, hwritten⟩
    · simp only [if_neg htime]
      exact ⟨_, congrArg (Option.map _) h.formatter, h.write strftime level event⟩
  · simp only [if_neg hlevel]
    exact ⟨a, rfl, h⟩

/-- The lines of the calls so far stand behind the text of before. -/
def LinesBehind (strftime : String → UInt64 → String) (a : FileLogAppender) (f : LogFormatter)
    (text : String) (calls : List (Level × LogEvent)) : Prop :=
  ∀ pre, pre <+: calls → (a.logAll strftime pre).map (fun a => a.filestream.content)
    = some (text ++ lines strftime a.level f pre)

theorem linesBehind_cons {level : Level} {event : LogEvent} {calls : List (Level × LogEvent)}
    {a' : FileLogAppender} (h : Writing m f last text a)
    (hlog : a.log strftime level event = some a') (hlevel : a'.level = a.level) :
    LinesBehind strftime a f text ((level, event) :: calls) ↔
      LinesBehind strftime a' f
        (text ++ if m.val ≤ level.val then f.format strftime level event else "") calls := by
  have hcall : ∀ pre, a.logAll strftime ((level, event) :: pre) = a'.logAll strftime pre := by
    intro pre
    show (a.log strftime level event).bind _ = _
    rw [hlog, Option.bind_some]
  constructor
  · intro hlines pre hpre
    have hpre' : (level, event) :: pre <+: (level, event) :: calls :=
      List.cons_prefix_cons.mpr ⟨rfl, hpre⟩
    have hpost := hlines _ hpre'
    rw [hcall] at hpost
    rw [hpost, hlevel, String.append_assoc, h.level]
    simp only [lines]
  · intro hlines pre hpre
    cases pre with
    | nil =>
      show some a.filestream.content = some (text ++ "")
      rw [h.content, String.append_empty]
    | cons call pre =>
      obtain ⟨rfl, hrest⟩ := List.cons_prefix_cons.mp hpre
      rw [hcall, hlines pre hrest, hlevel, String.append_assoc, h.level]
      simp only [lines]

/-- What a reopen finds written is lost. -/
theorem linesBehind_content {calls : List (Level × LogEvent)} (h : Writing m f last text a)
    {expected : String} (hlines : LinesBehind strftime a f expected calls) : text = expected := by
  have hnow := hlines [] List.nil_prefix
  have hnow : some a.filestream.content = some (expected ++ "") := hnow
  rw [h.content, String.append_empty] at hnow
  exact Option.some.inj hnow

theorem linesBehind_iff (calls : List (Level × LogEvent)) (h : Writing m f last text a) :
    LinesBehind strftime a f text calls ↔ Undisturbed strftime m f last text calls := by
  induction calls generalizing last text a with
  | nil =>
    constructor
    · exact fun _ => trivial
    · intro _ pre hpre
      rw [List.prefix_nil.mp hpre]
      show some a.filestream.content = some (text ++ "")
      rw [h.content, String.append_empty]
  | cons call calls ih =>
    obtain ⟨level, event⟩ := call
    obtain ⟨a', hlog, hstep⟩ := h.log strftime level event
    simp only [Undisturbed]
    by_cases hlevel : m.val ≤ level.val
    · rw [if_pos hlevel] at hstep ⊢
      by_cases htime : last + 3 ≤ event.time
      · rw [if_pos htime] at hstep ⊢
        rw [linesBehind_cons h hlog (hstep.level.trans h.level.symm), if_pos hlevel]
        constructor
        · intro hlines
          -- the file now holds the new line alone
          have hcontent := linesBehind_content hstep hlines
          have hempty : text = "" := by
            have hlength := congrArg String.length hcontent
            rw [String.length_append] at hlength
            exact String.length_eq_zero_iff.mp (by omega)
          rw [hempty, String.empty_append] at hlines
          exact ⟨hempty, (ih hstep).mp hlines⟩
        · rintro ⟨rfl, hundisturbed⟩
          rw [String.empty_append]
          exact (ih hstep).mpr hundisturbed
      · rw [if_neg htime] at hstep ⊢
        rw [linesBehind_cons h hlog (hstep.level.trans h.level.symm), if_pos hlevel]
        exact ih hstep
    · rw [if_neg hlevel] at hstep ⊢
      rw [linesBehind_cons h hlog (hstep.level.trans h.level.symm), if_neg hlevel,
        String.append_empty]
      exact ih hstep

end calls

/-! ### Sequences of calls -/

/-- For every file appender and every sequence of calls with any levels and times:
    after each call the file holds exactly the lines of the calls so far, if and
    only if every reopen comes before anything has been written. -/
theorem lines_kept_iff (old : String) (m : Level) (f : LogFormatter)
    (calls : List (Level × LogEvent)) :
    LinesKept strftime (.ready old m f) f calls ↔ Undisturbed strftime m f 0 "" calls := by
  rw [← linesBehind_iff calls (writing_ready old m f)]
  unfold LinesKept LinesBehind
  simp only [String.empty_append]

def eventAt (time : UInt64) (content : String) : LogEvent :=
  { content := content, loggerName := "root", file := "a.cc", line := 1, elapse := 0, threadId := 1
    fiberId := 0, threadName := "main", time := time }

/-- Three seconds after the first line the file is reopened, and the line is gone. -/
theorem not_lines_kept : ¬ ∀ strftime old m f calls,
    LinesKept strftime (.ready old m f) f calls := by
  intro h
  have hlines := h (fun _ _ => "") "" .DEBUG (.new "%m%n")
    [(.INFO, eventAt 10 "a"), (.INFO, eventAt 13 "b")] _ List.prefix_rfl
  exact absurd hlines (by decide)

end Gwn.Log
