import Gwn.Log.Cuts
import Mathlib.Data.List.TakeWhile

/-! # The buffer of a date

    `DateTimeFormatItem::format` (gwn/log.cc) expands its format into a buffer of 64
    bytes, and writes what is in the buffer without looking at what `localtime_r` and
    `strftime` return. The expansion of the format is written if and only if the time
    has a calendar date and the expansion and its terminator fit (`prints_iff`). -/

namespace Gwn.Log

/-! ### The C library -/

/-- A string as a function of C reads it. -/
def c_str (s : String) : String :=
  String.ofList (s.toList.takeWhile fun c => c ≠ '\x00')

/-- What `DateTimeFormatItem` uses of the C library. `Tm` is what `localtime_r` makes of
    a time; it returns null for a year that is out of range. `expand` is the text that
    `strftime` writes if there is room for it. -/
structure Libc (Tm : Type) where
  localtime_r : Int64 → Option Tm
  expand : String → Tm → String
  expand_str : ∀ format tm, c_str (expand format tm) = expand format tm

section date
variable {Tm : Type} (C : Libc Tm)

/-- What `strftime(buf, max, format, tm)` leaves in the buffer, if that is specified. -/
def strftime (max : Nat) (format : String) (tm : Tm) : Option String :=
  if (C.expand (c_str format) tm).utf8ByteSize + 1 ≤ max then some (C.expand (c_str format) tm)
  else none

/-- `DateTimeFormatItem::format`. `none` if it reads what nobody has written: the `tm`
    of a time that has none, or a buffer that has not been filled. -/
def dateText (m_format : String) (time : UInt64) : Option String :=
  (C.localtime_r time.toInt64).bind fun tm => (strftime C 64 m_format tm).map c_str

/-- The `m_format` of an item that is created with `format`. -/
def dateFormat (format : String) : String :=
  if format = "" then "%Y-%m-%d %H:%M:%S" else format

theorem DateTimeFormatItem_eq (format : String) :
    DateTimeFormatItem format = .dateTime (dateFormat format) := by
  unfold DateTimeFormatItem dateFormat
  split <;> rfl

/-- The contents of the buffer are those that are specified, and arbitrary otherwise. -/
def Buffers (buffer : String → UInt64 → String) : Prop :=
  ∀ format time text, dateText C format time = some text → buffer format time = text

/-- Between the pieces `before` and `behind` the formatter writes the expansion of the
    format, and has not read anything else for it. -/
def Prints (pattern : String) (before behind : List Piece) (fmt : Option (List Char))
    (event : LogEvent) :
    Prop :=
  ∃ tm text, C.localtime_r event.time.toInt64 = some tm ∧
    text = C.expand (c_str (dateFormat (String.ofList (fmt.getD [])))) tm ∧
    dateText C (dateFormat (String.ofList (fmt.getD []))) event.time = some text ∧
    ∀ buffer level, Buffers C buffer →
      ((LogFormatter.new pattern).format buffer level event).toList
        = before.flatMap (Piece.output buffer level event) ++ text.toList
          ++ behind.flatMap (Piece.output buffer level event)

/-! ### What is written -/

variable {C}

theorem dateText_eq_some {m_format : String} {time : UInt64} {text : String} :
    dateText C m_format time = some text ↔ ∃ tm, C.localtime_r time.toInt64 = some tm ∧
      text = C.expand (c_str m_format) tm ∧ text.utf8ByteSize < 64 := by
  unfold dateText strftime
  cases hlocal : C.localtime_r time.toInt64 with
  | none => simp
  | some tm =>
    simp only [Option.bind_some, Option.some.injEq, exists_eq_left']
    -- the terminator has to fit as well
    by_cases hfits : (C.expand (c_str m_format) tm).utf8ByteSize + 1 ≤ 64
    · rw [if_pos hfits, Option.map_some, C.expand_str, Option.some.injEq]
      constructor
      · rintro rfl
        exact ⟨rfl, by omega⟩
      · rintro ⟨rfl, -⟩
        rfl
    · rw [if_neg hfits]
      constructor
      · intro h
        cases h
      · rintro ⟨rfl, hlt⟩
        omega

/-- The piece of a date writes what is in the buffer. -/
theorem output_date {buffer : String → UInt64 → String} {level : Level} {event : LogEvent}
    (fmt : Option (List Char)) :
    Piece.output buffer level event (.directive ['d'] fmt)
      = (buffer (dateFormat (String.ofList (fmt.getD []))) event.time).toList := by
  have hitem : formatItems (String.ofList ['d']) (String.ofList (fmt.getD []))
      = some (.dateTime (dateFormat (String.ofList (fmt.getD [])))) := by
    rw [← DateTimeFormatItem_eq]
    rfl
  rw [Piece.output, directiveEntry_item hitem]
  rfl

/-- In a pattern without an error, each date prints its full expansion if and only if
    the time of the event has a calendar date and the expansion has less than 64 bytes. -/
theorem prints_iff {pattern : String} {before behind : List Piece} {fmt : Option (List Char)}
    (hcuts : Cuts pattern.toList (before ++ .directive ['d'] fmt :: behind))
    (haccepted : (LogFormatter.new pattern).isError = false) (event : LogEvent) :
    Prints C pattern before behind fmt event ↔
      ∃ tm, C.localtime_r event.time.toInt64 = some tm ∧
        (C.expand (c_str (dateFormat (String.ofList (fmt.getD [])))) tm).utf8ByteSize < 64 := by
  constructor
  · rintro ⟨tm, text, hlocal, -, htext, -⟩
    obtain ⟨tm', hlocal', rfl, hlt⟩ := dateText_eq_some.mp htext
    exact ⟨tm', hlocal', hlt⟩
  · rintro ⟨tm, hlocal, hlt⟩
    have htext : dateText C (dateFormat (String.ofList (fmt.getD []))) event.time
        = some (C.expand (c_str (dateFormat (String.ofList (fmt.getD [])))) tm) :=
      dateText_eq_some.mpr ⟨tm, hlocal, rfl, hlt⟩
    -- so the buffer is what it is specified to be
    refine ⟨tm, _, hlocal, rfl, htext, fun buffer level hbuffer => ?_⟩
    rw [format_cuts hcuts ((isError_cuts hcuts).mp haccepted), List.flatMap_append,
      List.flatMap_cons, output_date, hbuffer _ _ _ htext, List.append_assoc]

end date

/-! ### Dates of letters -/

/-- A library for formats without conversions, which stand for themselves. -/
def plainLibc : Libc Int64 where
  localtime_r := some
  expand format _ := c_str format
  expand_str format _ := by
    unfold c_str
    rw [String.toList_ofList, List.takeWhile_idem]

/-- `%d{` and letters. -/
def lettersPattern (letters : List Char) : String :=
  String.ofList ('%' :: 'd' :: '{' :: (letters ++ ['}']))

theorem cuts_letters {letters : List Char} (h : '}' ∉ letters) :
    Cuts (lettersPattern letters).toList ([] ++ .directive ['d'] (some letters) :: []) := by
  have hname : ∀ c ∈ ['d'], InName c := by
    intro c hc
    rw [List.mem_singleton.mp hc]
    exact (inName_of_mem (by decide)).1
  rw [lettersPattern, String.toList_ofList]
  exact .percent (by simp) (@Behind.format ['d'] letters [] hname h) .nil

theorem letters_accepted {letters : List Char} (h : '}' ∉ letters) :
    (LogFormatter.new (lettersPattern letters)).isError = false := by
  rw [isError_cuts (cuts_letters h)]
  intro x hx
  rw [List.mem_singleton.mp hx]
  exact ⟨'d', by decide, rfl⟩

def midnight : LogEvent where
  content := "hello"
  loggerName := "root"
  file := "test.cc"
  line := 1
  elapse := 0
  threadId := 0
  fiberId := 0
  threadName := "main"
  time := 0

/-- The format `today`. -/
theorem prints_iff_today :
    Prints plainLibc (lettersPattern ['t', 'o', 'd', 'a', 'y']) [] []
      (some ['t', 'o', 'd', 'a', 'y'])
      midnight := by
  rw [prints_iff (cuts_letters (by decide)) (letters_accepted (by decide))]
  have hsize :
      (c_str (c_str (dateFormat (String.ofList ['t', 'o', 'd', 'a', 'y'])))).utf8ByteSize < 64 := by
    decide
  exact ⟨_, rfl, hsize⟩

/-- A format of 64 letters. -/
theorem not_prints_long :
    ¬ ∀ (Tm : Type) (C : Libc Tm) (pattern : String) (before behind : List Piece)
    (fmt : Option (List Char)) (event : LogEvent),
    Cuts pattern.toList (before ++ .directive ['d'] fmt :: behind) →
    (LogFormatter.new pattern).isError = false → Prints C pattern before behind fmt event := by
  intro h
  have hbrace : '}' ∉ List.replicate 64 'x' := by decide
  obtain ⟨tm, text, -, -, htext, -⟩ :=
    h Int64 plainLibc _ [] [] _ midnight (cuts_letters hbrace)
    (letters_accepted hbrace)
  obtain ⟨tm, -, rfl, hlt⟩ := dateText_eq_some.mp htext
  have hsize :
      ¬ (c_str (c_str (dateFormat (String.ofList (List.replicate 64 'x'))))).utf8ByteSize
        < 64 := by
    decide
  exact hsize hlt

end Gwn.Log
