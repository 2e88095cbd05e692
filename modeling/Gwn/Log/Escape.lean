import Gwn.Log.Cuts

/-! # The escape of the percent sign

    `LogFormatter::init` takes a doubled `%` for a literal one, but goes on at the second
    of the two, which then begins a directive or another pair. A pattern that is put
    together from characters, escapes and directives is read as it was meant exactly if
    it has no escape (`escapes_iff`). -/

namespace Gwn.Log

/-! ### Patterns as they are meant -/

/-- A part of a pattern. -/
inductive Part where
  | literal (c : Char) (hc : c ≠ '%')
  | escape
  | directive (x : Char) (fmt : List Char) (hx : x ∈ itemLetters) (hfmt : '}' ∉ fmt)

namespace Part

def text : Part → List Char
  | literal c _ => [c]
  | escape => ['%', '%']
  | directive x fmt _ _ => '%' :: x :: '{' :: (fmt ++ ['}'])

/-- What a part should write. -/
def output (strftime : String → UInt64 → String) (level : Level)
    (event : LogEvent) : Part → String
  | literal c _ => String.ofList [c]
  | escape => "%"
  | directive x fmt _ _ =>
    match formatItems (String.ofList [x]) (String.ofList fmt) with
    | some item => item.format strftime level event
    | none => ""

end Part

/-- The pattern that concatenates the texts. -/
def partsPattern (parts : List Part) : String :=
  String.ofList (parts.flatMap Part.text)

/-- The formatter has no error, and writes for every event what the parts should write. -/
def Meant (parts : List Part) : Prop :=
  (LogFormatter.new (partsPattern parts)).isError = false ∧
    ∀ strftime level event, (LogFormatter.new (partsPattern parts)).format strftime level event
      = String.join (parts.map (Part.output strftime level event))

/-- Every `%` is doubled. -/
def doubled (s : String) : String :=
  String.ofList (s.toList.flatMap fun c => if c = '%' then ['%', '%'] else [c])

/-! ### Patterns without escapes -/

/-- The piece of a part that is not an escape. -/
def Part.piece : Part → Piece
  | literal c _ => .literal c
  | escape => .literal '%'
  | directive x fmt _ _ => .directive [x] (some fmt)

theorem cuts_parts {parts : List Part} (h : .escape ∉ parts) {p : List Char} {l : List Piece}
    (hp : Cuts p l) : Cuts (parts.flatMap Part.text ++ p) (parts.map Part.piece ++ l) := by
  induction parts with
  | nil => exact hp
  | cons part parts ih =>
    obtain ⟨hpart, hparts⟩ := List.ne_and_not_mem_of_not_mem_cons h
    rw [List.flatMap_cons, List.append_assoc, List.map_cons, List.cons_append]
    cases part with
    | literal c hc => exact .literal hc (ih hparts)
    | escape => exact absurd rfl hpart
    | directive x fmt hx hfmt =>
      obtain ⟨hin, hne⟩ := inName_of_mem hx
      have hbehind :=
        @Behind.format [x] fmt (parts.flatMap Part.text ++ p) (by simpa using hin) hfmt
      have hcuts := Cuts.percent (by simpa using hne) hbehind (ih hparts)
      simpa [Part.text, Part.piece] using hcuts

theorem piece_accepted (part : Part) : part.piece.Accepted := by
  cases part with
  | literal c hc => trivial
  | escape => trivial
  | directive x fmt hx hfmt => exact ⟨x, hx, rfl⟩

theorem piece_output (strftime : String → UInt64 → String) (level : Level) (event : LogEvent)
    (part : Part) :
    part.piece.output strftime level event = (part.output strftime level event).toList := by
  cases part with
  | literal c hc => exact String.toList_ofList.symm
  | escape =>
    have hpercent : "%".toList = ['%'] := by decide
    exact hpercent.symm
  | directive x fmt hx hfmt =>
    have hsome : (formatItems (String.ofList [x]) (String.ofList fmt)).isSome = true :=
      formatItems_isSome.mpr ⟨x, hx, rfl⟩
    obtain ⟨item, hitem⟩ := Option.isSome_iff_exists.mp hsome
    simp only [Part.piece, Piece.output, Part.output, hitem]
    rw [@directiveEntry_item x (some fmt) item hitem]

theorem toList_join_parts (strftime : String → UInt64 → String) (level : Level)
    (event : LogEvent) (parts : List Part) :
    (String.join (parts.map (Part.output strftime level event))).toList
      = (parts.map Part.piece).flatMap (Piece.output strftime level event) := by
  rw [String.toList_join, List.flatMap_map, List.flatMap_map]
  exact List.flatMap_congr fun part _ => (piece_output strftime level event part).symm

theorem meant_of_no_escape {parts : List Part} (h : .escape ∉ parts) : Meant parts := by
  have hcuts : Cuts (partsPattern parts).toList (parts.map Part.piece) := by
    have hparts := cuts_parts h .nil
    rw [List.append_nil, List.append_nil] at hparts
    rwa [partsPattern, String.toList_ofList]
  have haccepted : ∀ x ∈ parts.map Part.piece, x.Accepted :=
    List.forall_mem_map.mpr fun part _ => piece_accepted part
  refine ⟨(isError_cuts hcuts).mpr haccepted, fun strftime level event => ?_⟩
  rw [← String.toList_inj, format_cuts hcuts haccepted, toList_join_parts]

/-! ### Patterns with escapes -/

/-- An event whose texts tell the letters of the directives from what they write. -/
def probe : LogEvent where
  content := "!"
  loggerName := "!"
  file := "!"
  line := 0
  elapse := 0
  threadId := 0
  fiberId := 0
  threadName := "!"
  time := 0

/-- A registered directive writes neither its letter nor a `%` first. -/
theorem probe_output {x : Char} (hx : x ∈ itemLetters) (fmt : Option (List Char)) :
    ∃ d t, Piece.output (fun _ _ => "!") .DEBUG probe (.directive [x] fmt) = d :: t ∧
      d ≠ '%' ∧ d ≠ x := by
  have hout :
      ∀ {x item s}, formatItems (String.ofList [x]) (String.ofList (fmt.getD [])) = some item →
      item.format (fun _ _ => "!") .DEBUG probe = s →
      Piece.output (fun _ _ => "!") .DEBUG probe (.directive [x] fmt) = s.toList := by
    rintro x item s hitem rfl
    rw [Piece.output, directiveEntry_item hitem]
  have hdate : ∀ f, (DateTimeFormatItem f).format (fun _ _ => "!") .DEBUG probe = "!" := by
    intro f
    unfold DateTimeFormatItem
    split <;> rfl
  revert x
  simp only [itemLetters, List.forall_mem_cons, List.not_mem_nil, false_implies, implies_true,
    and_true]
  refine ⟨⟨'!', [], (hout rfl rfl).trans ?_, ?_⟩,
    ⟨'D', ['E', 'B', 'U', 'G'], (hout rfl rfl).trans ?_, ?_⟩,
    ⟨'0', [], (hout rfl rfl).trans ?_, ?_⟩, ⟨'!', [], (hout rfl rfl).trans ?_, ?_⟩,
    ⟨'0', [], (hout rfl rfl).trans ?_, ?_⟩, ⟨'\n', [], (hout rfl rfl).trans ?_, ?_⟩,
    ⟨'!', [], (hout rfl (hdate _)).trans ?_, ?_⟩, ⟨'!', [], (hout rfl rfl).trans ?_, ?_⟩,
    ⟨'0', [], (hout rfl rfl).trans ?_, ?_⟩, ⟨'\t', [], (hout rfl rfl).trans ?_, ?_⟩,
    ⟨'0', [], (hout rfl rfl).trans ?_, ?_⟩,
      ⟨'!', [], (hout rfl rfl).trans ?_, ?_⟩⟩ <;> decide

/-- What stands behind a `%` that begins a registered directive. -/
theorem Behind.letter {c : Char} {t p : List Char} {x : Piece} (h : Behind (c :: t) x p)
    (hx : x.Accepted) :
    c ∈ itemLetters ∧ ∃ fmt, x = .directive [c] fmt := by
  generalize hc : c :: t = t' at h
  cases h with
  | bare _ _ =>
    obtain ⟨y, hy, rfl⟩ := hx
    obtain ⟨rfl, -⟩ := List.cons.inj hc
    exact ⟨hy, _, rfl⟩
  | format _ _ =>
    obtain ⟨y, hy, rfl⟩ := hx
    obtain ⟨rfl, -⟩ := List.cons.inj hc
    exact ⟨hy, _, rfl⟩
  | unterminated _ _ => exact hx.elim

theorem Behind.not_nil {p : List Char} {x : Piece} (h : Behind [] x p) : ¬ x.Accepted := by
  generalize hc : [] = t at h
  cases h with
  | bare _ _ =>
    rintro ⟨y, -, rfl⟩
    cases hc
  | format _ _ =>
    rintro ⟨y, -, rfl⟩
    cases hc
  | unterminated _ _ => exact id

/-- Behind an escape the scanner is one `%` ahead of the parts, and what it writes stays
    apart from what they should write. `k` counts the `%` that it has written too many. -/
theorem output_ne {parts : List Part} {l : List Piece} (h : Cuts ('%' :: parts.flatMap Part.text) l)
    (hl : ∀ x ∈ l, x.Accepted) (k : Nat) :
    List.replicate k '%' ++ l.flatMap (Piece.output (fun _ _ => "!") .DEBUG probe)
      ≠ (parts.map Part.piece).flatMap (Piece.output (fun _ _ => "!") .DEBUG probe) := by
  induction parts generalizing l k with
  | nil =>
    cases h with
    | literal hc _ => exact absurd rfl hc
    | percent _ hx _ => exact absurd (hl _ List.mem_cons_self) hx.not_nil
  | cons part parts ih =>
    cases part with
    | literal c hc =>
      rw [List.flatMap_cons] at h
      cases h with
      | literal hc' _ => exact absurd rfl hc'
      | doubled _ => exact absurd rfl hc
      | @percent _ x p l _ hx hrest =>
        -- the character was taken for the letter of a directive
        obtain ⟨hc', fmt, rfl⟩ := hx.letter (hl x List.mem_cons_self)
        obtain ⟨d, t, hout, hd, hdc⟩ := probe_output hc' fmt
        rw [List.flatMap_cons, hout, List.map_cons, List.flatMap_cons]
        intro heq
        cases k with
        | zero => exact hdc (List.cons.inj heq).1
        | succ k => exact hc (List.cons.inj heq).1.symm
    | escape =>
      rw [List.flatMap_cons] at h
      cases h with
      | literal hc _ => exact absurd rfl hc
      | percent hhead _ _ => exact absurd rfl hhead
      | doubled h =>
        cases h with
        | literal hc _ => exact absurd rfl hc
        | percent hhead _ _ => exact absurd rfl hhead
        | @doubled _ l h =>
          -- two are read and one was meant
          intro heq
          apply ih h (fun x hx => hl x (by simp [hx])) (k + 1)
          have hcons : List.replicate k '%' ++ ['%', '%'] = '%' :: List.replicate (k + 1) '%' := by
            rw [← List.replicate_succ, show ['%', '%'] = List.replicate 2 '%' from rfl,
              List.replicate_append_replicate]
          have hboth : '%' :: (List.replicate (k + 1) '%'
                ++ l.flatMap (Piece.output (fun _ _ => "!") .DEBUG probe))
              = '%' :: (parts.map Part.piece).flatMap
                (Piece.output (fun _ _ => "!") .DEBUG probe) := by
            rw [← List.cons_append, ← hcons, List.append_assoc]
            exact heq
          exact (List.cons.inj hboth).2
    | directive x fmt hx hfmt =>
      rw [List.flatMap_cons] at h
      cases h with
      | literal hc _ => exact absurd rfl hc
      | percent hhead _ _ => exact absurd rfl hhead
      | @doubled _ l h =>
        -- the `%` of the directive made a pair with the one before it
        obtain ⟨d, t, hout, hd, -⟩ := probe_output hx (some fmt)
        rw [List.map_cons, List.flatMap_cons, List.flatMap_cons,
          show Part.piece (.directive x fmt hx hfmt) = .directive [x] (some fmt) from rfl, hout]
        intro heq
        cases k with
        | zero => exact hd (List.cons.inj heq).1.symm
        | succ k => exact hd (List.cons.inj heq).1.symm

theorem not_meant_of_escape {parts : List Part} (h : .escape ∈ parts) : ¬ Meant parts := by
  rintro ⟨herror, hformat⟩
  obtain ⟨before, behind, rfl, hbefore⟩ := List.eq_append_cons_of_mem h
  obtain ⟨⟨l, hl, -⟩, -⟩ := stands_iff (String.ofList ('%' :: behind.flatMap Part.text))
  rw [String.toList_ofList] at hl
  have hcuts : Cuts (partsPattern (before ++ .escape :: behind)).toList
      (before.map Part.piece ++ .literal '%' :: l) := by
    have hparts := cuts_parts hbefore (Cuts.doubled hl)
    rw [partsPattern, String.toList_ofList, List.flatMap_append, List.flatMap_cons]
    exact hparts
  have haccepted := (isError_cuts hcuts).mp herror
  have hout := congrArg String.toList (hformat (fun _ _ => "!") .DEBUG probe)
  rw [format_cuts hcuts haccepted, toList_join_parts, List.map_append, List.flatMap_append,
    List.flatMap_append, List.map_cons, List.flatMap_cons, List.flatMap_cons] at hout
  have hrest := List.append_cancel_left (List.append_cancel_left hout)
  exact output_ne hl (fun x hx => haccepted x (by simp [hx])) 0 hrest

/-! ### Doubling -/

/-- A character of a text that is to be printed. -/
def Part.ofChar (c : Char) : Part :=
  if h : c = '%' then .escape else .literal c h

theorem partsPattern_chars (s : String) : partsPattern (s.toList.map Part.ofChar) = doubled s := by
  unfold partsPattern doubled
  rw [List.flatMap_map]
  congr 2
  funext c
  unfold Part.ofChar
  split <;> rfl

theorem output_chars (s : String) (strftime : String → UInt64 → String) (level : Level)
    (event : LogEvent) :
    String.join ((s.toList.map Part.ofChar).map (Part.output strftime level event)) = s := by
  have hchar : ∀ c, ((Part.ofChar c).output strftime level event).toList = [c] := by
    intro c
    unfold Part.ofChar
    by_cases h : c = '%'
    · rw [dif_pos h, h]
      exact show "%".toList = ['%'] by decide
    · rw [dif_neg h]
      exact String.toList_ofList
  rw [← String.toList_inj, String.toList_join, List.flatMap_map, List.flatMap_map,
    List.flatMap_congr fun c _ => hchar c, List.flatMap_singleton']

theorem escape_mem_chars {s : String} : .escape ∈ s.toList.map Part.ofChar ↔
    '%' ∈ s.toList := by
  rw [List.mem_map]
  constructor
  · rintro ⟨c, hc, hpart⟩
    unfold Part.ofChar at hpart
    split at hpart
    · next h => rwa [h] at hc
    · cases hpart
  · intro h
    exact ⟨'%', h, rfl⟩

/-- A pattern that is put together from parts is read as it was meant if and only if no
    part is an escape. -/
theorem meant_iff (parts : List Part) : Meant parts ↔ .escape ∉ parts := by
  constructor
  · intro hmeant hescape
    exact not_meant_of_escape hescape hmeant
  · exact meant_of_no_escape

/-- For all parts: the pattern is read as it was meant if and only if no part is an escape.
    In particular, for every text: with its `%` doubled it is printed as it is if and only
    if there is none in it. -/
theorem escapes_iff (parts : List Part) (s : String) :
    (Meant parts ↔ .escape ∉ parts) ∧
      ((LogFormatter.new (doubled s)).isError = false ∧
        (∀ strftime level event,
          (LogFormatter.new (doubled s)).format strftime level event = s) ↔
          '%' ∉ s.toList) := by
  refine ⟨meant_iff parts, ?_⟩
  have hs := meant_iff (s.toList.map Part.ofChar)
  unfold Meant at hs
  simp only [partsPattern_chars, output_chars, escape_mem_chars] at hs
  exact hs

/-- The escape alone: its second `%` begins a directive without a name. -/
theorem not_meant_percent : ¬ ∀ parts : List Part, Meant parts := by
  intro h
  have herror : (LogFormatter.new "%%").isError = true := by decide
  have hfalse := (h [.escape]).1
  rw [show partsPattern [.escape] = "%%" from rfl, herror] at hfalse
  cases hfalse

end Gwn.Log
