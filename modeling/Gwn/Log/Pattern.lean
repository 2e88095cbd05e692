import Gwn.Log.Formatter

/-! # The grammar of patterns

    What `LogFormatter::init` accepts, as a grammar: literal characters, `%x` before
    something that is not a letter or a brace, and `%x{fmt}` (`Derives`). For patterns
    without `%%`, the parser finds no error exactly in the patterns of the grammar,
    and its items are those of the derivation (`pattern_iff`). -/

namespace Gwn.Log

/-! ### Derivations -/

/-- The letters of `s_format_items`. -/
def itemLetters : List Char := ['m', 'p', 'r', 'c', 't', 'n', 'd', 'f', 'l', 'T', 'F', 'N']

/-- The item that a letter names, after the comment of `LogFormatter` (gwn/log.h). Only a
    date has a use for the format; without one it is written in full. -/
def itemNamed (x : Char) (fmt : String) : Option FormatItem :=
  match x with
  | 'm' => some .message
  | 'p' => some .level
  | 'r' => some .elapse
  | 'c' => some .name
  | 't' => some .threadId
  | 'n' => some .newLine
  | 'd' => some (.dateTime (if fmt = "" then "%Y-%m-%d %H:%M:%S" else fmt))
  | 'f' => some .filename
  | 'l' => some .line
  | 'T' => some .tab
  | 'F' => some .fiberId
  | 'N' => some .threadName
  | _ => none

/-- A run of literal characters, or a directive with the format in its braces. -/
inductive Segment where
  | text (run : List Char)
  | directive (x : Char) (fmt : Option (List Char))
deriving DecidableEq

/-- The characters of the pattern that a segment stands for. -/
def Segment.render : Segment → List Char
  | text run => run
  | directive x none => ['%', x]
  | directive x (some fmt) => '%' :: x :: '{' :: (fmt ++ ['}'])

/-- A literal character belongs to the run behind it, if there is one. -/
def literal (c : Char) : List Segment → List Segment
  | .text run :: l => .text (c :: run) :: l
  | l => .text [c] :: l

/-- The end of the pattern, or a character that ends a bare directive. -/
def EndsBare (p : List Char) : Prop :=
  ∀ c, p.head? = some c → c.isAlpha = false ∧ c ≠ '{' ∧ c ≠ '}'

/-- The pattern is made of these segments. -/
inductive Derives : List Char → List Segment → Prop where
  | nil : Derives [] []
  | literal {c p l} : c ≠ '%' → Derives p l → Derives (c :: p) (literal c l)
  | bare {x p l} : x ∈ itemLetters → EndsBare p → Derives p l →
      Derives ('%' :: x :: p) (.directive x none :: l)
  | format {x fmt p l} : x ∈ itemLetters → '}' ∉ fmt → Derives p l →
      Derives ('%' :: x :: '{' :: (fmt ++ '}' :: p)) (.directive x (some fmt) :: l)

/-- The item of a segment; a bare directive has an empty format. -/
def Segment.item : Segment → Option FormatItem
  | text run => some (.string (String.ofList run))
  | directive x fmt => itemNamed x (String.ofList (fmt.getD []))

/-- A literal character is rendered first, whatever it joins. -/
theorem render_literal (c : Char) (l : List Segment) :
    (literal c l).flatMap Segment.render = c :: l.flatMap Segment.render := by
  cases l with
  | nil => rfl
  | cons s l => cases s <;> rfl

/-- The segments are the pattern, character by character. -/
theorem Derives.render {p : List Char} {l : List Segment} (h : Derives p l) :
    l.flatMap Segment.render = p := by
  induction h with
  | nil => rfl
  | literal _ _ ih => rw [render_literal, ih]
  | bare _ _ _ ih => simp [Segment.render, ih]
  | format _ _ _ ih => simp [Segment.render, ih]

/-- The runs are maximal. -/
theorem Derives.chain {p : List Char} {l : List Segment} (h : Derives p l) :
    l.IsChain fun s s' => ∀ run run', s = .text run → s' ≠ .text run' := by
  induction h with
  | nil => exact .nil
  | @literal c p l _ _ ih =>
    cases l with
    | nil => exact .singleton _
    | cons s l =>
      cases s with
      | text run =>
        -- the run gets one longer, and what is behind it was no run before
        cases l with
        | nil => exact .singleton _
        | cons s' l =>
          obtain ⟨hne, hl⟩ := List.isChain_cons_cons.mp ih
          exact List.isChain_cons_cons.mpr ⟨fun _ run' _ => hne run run' rfl, hl⟩
      | directive x fmt => exact List.isChain_cons_cons.mpr ⟨nofun, ih⟩
  | @bare x p l _ _ _ ih =>
    cases l with
    | nil => exact .singleton _
    | cons s l => exact List.isChain_cons_cons.mpr ⟨nofun, ih⟩
  | @format x fmt p l _ _ _ ih =>
    cases l with
    | nil => exact .singleton _
    | cons s l => exact List.isChain_cons_cons.mpr ⟨nofun, ih⟩

/-! ### The inner loop -/

section scan
variable {p : List Char}

/-- What stands at `n` is the head of what stands behind it. -/
theorem drop_of_some {n : Nat} {c : Char} (h : p[n]? = some c) :
    p.drop n = c :: p.drop (n + 1) := by
  obtain ⟨hlt, hc⟩ := List.getElem?_eq_some_iff.mp h
  rw [List.drop_eq_getElem_cons hlt, hc]

theorem drop_of_none {n : Nat} (h : p[n]? = none) : p.drop n = [] :=
  List.drop_eq_nil_of_le (List.getElem?_eq_none_iff.mp h)

/-- The rest of the pattern, read from its first character. -/
theorem some_of_drop {n : Nat} {c : Char} {t : List Char} (h : p.drop n = c :: t) :
    p[n]? = some c ∧ p.drop (n + 1) = t ∧ n < p.length := by
  have hlength := congrArg List.length h
  rw [List.length_drop, List.length_cons] at hlength
  refine ⟨?_, ?_, by omega⟩
  · rw [← List.head?_drop, h]
    rfl
  · rw [← List.drop_drop, h]
    rfl

/-- `substr` takes what is known to stand at `pos`, -/
theorem substr_of_drop {pos : Nat} {a t : List Char} (h : p.drop pos = a ++ t) :
    substr p pos a.length = String.ofList a := by
  unfold substr
  rw [h, List.take_left]

/-- and the rest stands behind it. -/
theorem drop_add {pos : Nat} {a t : List Char} (h : p.drop pos = a ++ t) :
    p.drop (pos + a.length) = t := by
  rw [← List.drop_drop, h, List.drop_left]

/-- Inside the braces the loop looks for the closing one. -/
theorem scan_braces (i fuel : Nat) {d : Directive} (hstatus : d.fmt_status = 1)
    (hfuel : p.length ≤ d.n + fuel) :
    (∃ fmt t, p.drop d.n = fmt ++ '}' :: t ∧ '}' ∉ fmt ∧
      (scanDirective p i fuel d).fmt_status = 0 ∧ (scanDirective p i fuel d).str = d.str ∧
      (scanDirective p i fuel d).n = d.n + fmt.length + 1 ∧
      (scanDirective p i fuel d).fmt
        = substr p (d.fmt_begin + 1) (d.n + fmt.length - d.fmt_begin - 1)) ∨
    '}' ∉ p.drop d.n ∧ (scanDirective p i fuel d).fmt_status = 1 := by
  induction fuel generalizing d with
  | zero =>
    right
    rw [List.drop_eq_nil_of_le (by omega)]
    exact ⟨List.not_mem_nil, hstatus⟩
  | succ fuel ih =>
    unfold scanDirective
    split
    · next hnone =>
      right
      rw [drop_of_none hnone]
      exact ⟨List.not_mem_nil, hstatus⟩
    · next c hc =>
      have hdrop := drop_of_some hc
      rw [if_neg (by simp [hstatus]), if_neg (by simp [hstatus])]
      by_cases hclose : c = '}'
      · left
        rw [if_pos ⟨hstatus, hclose⟩]
        refine ⟨[], p.drop (d.n + 1), ?_, List.not_mem_nil, rfl, rfl, rfl, rfl⟩
        rw [hdrop, hclose]
        rfl
      · rw [if_neg (by simp [hclose]), hdrop]
        rcases ih (d := { d with
          n := d.n + 1
          str := if d.n + 1 = p.length ∧ d.str = "" then substr p (i + 1) p.length else d.str })
          hstatus (by simp only; omega) with
            ⟨fmt, t, hrest, hfmt, hst, hstr, hn, hf⟩ | ⟨hnone, hst⟩
        · left
          refine ⟨c :: fmt, t, by rw [hrest]; rfl, ?_, hst, ?_, ?_, ?_⟩
          · rw [List.mem_cons, not_or]
            exact ⟨Ne.symm hclose, hfmt⟩
          · -- this is not the last character
            have hlength := congrArg List.length hrest
            rw [List.length_drop, List.length_append, List.length_cons] at hlength
            rw [hstr]
            exact if_neg (by simp only at hlength; omega)
          · rw [hn]
            simp only [List.length_cons]
            omega
          · rw [hf]
            simp only [List.length_cons]
            congr 1
            omega
        · right
          rw [List.mem_cons, not_or]
          exact ⟨⟨Ne.symm hclose, hnone⟩, hst⟩

/-- The loop takes these for the name of a directive. -/
def InName (c : Char) : Prop :=
  c.isAlpha = true ∨ c = '}'

/-- What the loop finds behind the `%` at `i`. -/
inductive Scanned (p : List Char) (i : Nat) (d : Directive) : Prop where
  | bare (name t : List Char) :
      p.drop (i + 1) = name ++ t → (∀ c ∈ name, InName c) → EndsBare t →
      d.fmt_status = 0 → d.str = String.ofList name → d.fmt = "" →
        d.n = i + 1 + name.length →
      Scanned p i d
  | format (name fmt t : List Char) : p.drop (i + 1) = name ++ '{' :: (fmt ++ '}' :: t) →
      (∀ c ∈ name, InName c) → '}' ∉ fmt → d.fmt_status = 0 →
        d.str = String.ofList name →
      d.fmt = String.ofList fmt → d.n = i + 1 + (name ++ '{' :: (fmt ++ ['}'])).length →
      Scanned p i d
  | error (name t : List Char) :
      p.drop (i + 1) = name ++ '{' :: t → (∀ c ∈ name, InName c) →
      '}' ∉ t → d.fmt_status = 1 → Scanned p i d

/-- A character that does not end a name and does not open a format. -/
theorem inName_of_reads {c : Char} (hends : ¬ (c.isAlpha = false ∧ c ≠ '{' ∧ c ≠ '}'))
    (hopen : c ≠ '{') :
    InName c := by
  unfold InName
  cases halpha : c.isAlpha with
  | true => exact .inl rfl
  | false =>
    right
    by_contra hne
    exact hends ⟨halpha, hopen, hne⟩

/-- `str` is set behind the last character of the pattern if it has not been set before. -/
theorem str_behind {i n : Nat} {name : List Char} {str : String}
    (hname : p.drop (i + 1) = name ++ p.drop n)
    (hn : n = i + 1 + name.length) (hle : n ≤ p.length) (hstr : str = "") :
    (if n = p.length ∧ str = "" then substr p (i + 1) p.length else str)
      = if p.drop n = [] then String.ofList name else "" := by
  by_cases hend : p.drop n = []
  · have hsize : n = p.length := by
      have hge := List.drop_eq_nil_iff.mp hend
      omega
    rw [if_pos ⟨hsize, hstr⟩, if_pos hend]
    rw [hend, List.append_nil] at hname
    unfold substr
    rw [hname, List.take_of_length_le (by omega)]
  · have hsize : n ≠ p.length := by
      intro hsize
      exact hend (List.drop_eq_nil_of_le (by omega))
    rw [if_neg (fun h => hsize h.1), if_neg hend, hstr]

/-- The loop, when it has read `name` so far. -/
theorem scan_name {i fuel : Nat} {d : Directive} (name : List Char)
    (hname : p.drop (i + 1) = name ++ p.drop d.n) (hin : ∀ c ∈ name, InName c)
    (hn : d.n = i + 1 + name.length) (hstatus : d.fmt_status = 0) (hfmt : d.fmt = "")
    (hstr : d.str = if p.drop d.n = [] then String.ofList name else "")
    (hfuel : p.length ≤ d.n + fuel) : Scanned p i (scanDirective p i fuel d) := by
  induction fuel generalizing d name with
  | zero =>
    have hend : p.drop d.n = [] := List.drop_eq_nil_of_le (by omega)
    rw [if_pos hend] at hstr
    rw [hend] at hname
    exact .bare name [] hname hin nofun hstatus hstr hfmt hn
  | succ fuel ih =>
    unfold scanDirective
    split
    · next hnone =>
      have hend := drop_of_none hnone
      rw [if_pos hend] at hstr
      rw [hend] at hname
      exact .bare name [] hname hin nofun hstatus hstr hfmt hn
    · next c hc =>
      have hdrop := drop_of_some hc
      have hread : substr p (i + 1) (d.n - i - 1) = String.ofList name := by
        rw [← substr_of_drop hname]
        congr 1
        omega
      by_cases hends : c.isAlpha = false ∧ c ≠ '{' ∧ c ≠ '}'
      · -- `c` ends the name, and is not read
        rw [if_pos ⟨hstatus, by simp [hends.1], hends.2⟩]
        refine .bare name (p.drop d.n) hname hin ?_ hstatus hread hfmt hn
        intro c' hc'
        rw [hdrop] at hc'
        cases hc'
        exact hends
      · rw [if_neg (by simpa [hstatus] using hends)]
        by_cases hopen : c = '{'
        · -- the name ends here, and the loop looks for the closing brace
          rw [if_pos ⟨hstatus, hopen⟩]
          rw [hdrop, hopen] at hname
          rcases scan_braces (p := p) i fuel (d := { d with
              str := substr p (i + 1) (d.n - i - 1), fmt_status := 1, fmt_begin := d.n,
              n := d.n + 1 })
              rfl (by simp only; omega) with
                ⟨fmt, t, hrest, hclose, hst, hstr', hn', hf⟩ | ⟨hnone, hst⟩
          · have hrest : p.drop (d.n + 1) = fmt ++ '}' :: t := hrest
            rw [hrest] at hname
            refine .format name fmt t hname hin hclose hst (hstr'.trans hread) ?_ ?_
            · rw [hf, ← substr_of_drop hrest]
              simp only
              congr 1
              omega
            · rw [hn']
              simp only [List.length_append, List.length_cons, List.length_nil]
              omega
          · exact .error name _ hname hin hnone hst
        · -- `c` belongs to the name; a closing brace does too
          rw [if_neg (by simp [hopen]), if_neg (by simp [hstatus])]
          have hinc : InName c := inName_of_reads hends hopen
          have hnext : p.drop (i + 1) = (name ++ [c]) ++ p.drop (d.n + 1) := by
            rw [hname, hdrop, List.append_assoc]
            rfl
          apply ih (name ++ [c]) hnext
          · intro c' hc'
            rcases List.mem_append.mp hc' with hc' | hc'
            · exact hin c' hc'
            · rw [List.mem_singleton.mp hc']
              exact hinc
          · simp only [List.length_append, List.length_cons, List.length_nil]
            omega
          · exact hstatus
          · exact hfmt
          · -- the last character closes the name
            rw [hdrop, if_neg (List.cons_ne_nil _ _)] at hstr
            have hlt := (List.getElem?_eq_some_iff.mp hc).1
            exact str_behind hnext
              (by simp only [List.length_append, List.length_singleton]; omega) hlt hstr
          · simp only
            omega

/-- The whole inner loop. -/
theorem scanDirective_spec (i : Nat) :
    Scanned p i (scanDirective p i (p.length - i)
      { n := i + 1, fmt_status := 0, fmt_begin := 0, str := "", fmt := "" }) := by
  apply scan_name []
  · rfl
  · nofun
  · rfl
  · rfl
  · rfl
  · exact (ite_self _).symm
  · simp only
    omega

end scan

/-! ### The outer loop -/

/-- The entry of the vector for a segment. -/
def Segment.token : Segment → Token
  | text run => ⟨String.ofList run, "", 0⟩
  | directive x fmt => ⟨String.ofList [x], String.ofList (fmt.getD []), 1⟩

/-- Literal characters make one run, -/
theorem foldr_literal_nil {run : List Char} (h : run ≠ []) :
    run.foldr literal [] = [.text run] := by
  induction run with
  | nil => exact absurd rfl h
  | cons c run ih =>
    by_cases hrun : run = []
    · rw [hrun]
      rfl
    · rw [List.foldr_cons, ih hrun]
      rfl

/-- which ends where a directive begins. -/
theorem foldr_literal_directive {run : List Char} (h : run ≠ []) (x : Char)
    (fmt : Option (List Char)) (l : List Segment) :
    run.foldr literal (.directive x fmt :: l) = .text run :: .directive x fmt :: l := by
  induction run with
  | nil => exact absurd rfl h
  | cons c run ih =>
    by_cases hrun : run = []
    · rw [hrun]
      rfl
    · rw [List.foldr_cons, ih hrun]
      rfl

/-- The text in `nstr` ends at the end of the pattern. -/
theorem flush_nil (s : Parse) :
    s.flush.vec = s.vec ++ (s.nstr.toList.foldr literal []).map Segment.token := by
  unfold Parse.flush
  by_cases hnstr : s.nstr = ""
  · simp [hnstr]
  · have hne : s.nstr.toList ≠ [] := by simpa using hnstr
    rw [if_neg hnstr, foldr_literal_nil hne]
    simp [Segment.token]

/-- It ends at a directive. -/
theorem flush_directive (s : Parse) (x : Char) (fmt : Option (List Char)) (l : List Segment) :
    s.flush.vec ++ ((Segment.directive x fmt) :: l).map Segment.token
      = s.vec ++ (s.nstr.toList.foldr literal (.directive x fmt :: l)).map Segment.token := by
  unfold Parse.flush
  by_cases hnstr : s.nstr = ""
  · simp [hnstr]
  · have hne : s.nstr.toList ≠ [] := by simpa using hnstr
    rw [if_neg hnstr, foldr_literal_directive hne]
    simp [Segment.token]

/-- The text collected so far goes behind the entries that are there, -/
theorem vec_flush (s : Parse) : s.vec <+: s.flush.vec := by
  unfold Parse.flush
  split
  · exact List.prefix_rfl
  · exact List.prefix_append _ _

/-- and is not collected any more. -/
@[simp] theorem flush_nstr (s : Parse) : s.flush.nstr = "" := by
  unfold Parse.flush
  split <;> simp_all

@[simp] theorem flush_error (s : Parse) : s.flush.error = s.error := by
  unfold Parse.flush
  split <;> rfl

section parse
variable {p : List Char}

/-- What the loop does at any other character than `%`. -/
theorem parse_literal {fuel i : Nat} {s : Parse} {c : Char} (hc : p[i]? = some c)
    (hne : c ≠ '%') :
    parse p (fuel + 1) i s = parse p fuel (i + 1) { s with nstr := s.nstr.push c } := by
  rw [parse, hc]
  simp only
  rw [if_pos hne]

/-- What the loop does at a `%` that is not doubled. -/
theorem parse_percent {fuel i : Nat} {s : Parse} (hc : p[i]? = some '%')
    (hnext : p[i + 1]? ≠ some '%') {d : Directive}
    (hd : scanDirective p i (p.length - i)
      { n := i + 1, fmt_status := 0, fmt_begin := 0, str := "", fmt := "" } = d) :
    parse p (fuel + 1) i s =
      if d.fmt_status = 0 then
        parse p fuel d.n { s.flush with vec := s.flush.vec ++ [⟨d.str, d.fmt, 1⟩] }
      else parse p fuel (i + 1)
        { s with vec := s.vec ++ [⟨"<<pattern_error>>", d.fmt, 0⟩], error := true } := by
  rw [parse, hc]
  simp only
  rw [if_neg (by simp), if_neg hnext, hd]

/-- Nothing that is in the vector goes away, and no error is forgotten. -/
theorem parse_keeps (fuel i : Nat) (s : Parse) :
    s.vec <+: (parse p fuel i s).vec ∧ (s.error = true → (parse p fuel i s).error = true) := by
  induction fuel generalizing i s with
  | zero => exact ⟨List.prefix_rfl, id⟩
  | succ fuel ih =>
    unfold parse
    split
    · exact ⟨List.prefix_rfl, id⟩
    · split
      · exact ih (i + 1) { s with nstr := s.nstr.push _ }
      · split
        · exact ih (i + 1) { s with nstr := s.nstr.push _ }
        · simp only
          split
          · obtain ⟨hvec, herror⟩ := ih _ { s.flush with vec := s.flush.vec ++ [_] }
            refine ⟨List.IsPrefix.trans ?_ hvec, fun h => herror ((flush_error s).trans h)⟩
            exact (vec_flush s).trans (List.prefix_append _ _)
          · obtain ⟨hvec, herror⟩ := ih (i + 1) { s with vec := s.vec ++ [_], error := true }
            exact ⟨List.IsPrefix.trans (List.prefix_append _ _) hvec, fun _ => herror rfl⟩

/-- The table of the parser knows these letters, and nothing else. -/
theorem formatItems_isSome {str fmt : String} :
    (formatItems str fmt).isSome = true ↔ ∃ x ∈ itemLetters, str = String.ofList [x] := by
  constructor
  · intro h
    unfold formatItems at h
    split at h
    · exact ⟨'m', by decide, rfl⟩
    · exact ⟨'p', by decide, rfl⟩
    · exact ⟨'r', by decide, rfl⟩
    · exact ⟨'c', by decide, rfl⟩
    · exact ⟨'t', by decide, rfl⟩
    · exact ⟨'n', by decide, rfl⟩
    · exact ⟨'d', by decide, rfl⟩
    · exact ⟨'f', by decide, rfl⟩
    · exact ⟨'l', by decide, rfl⟩
    · exact ⟨'T', by decide, rfl⟩
    · exact ⟨'F', by decide, rfl⟩
    · exact ⟨'N', by decide, rfl⟩
    · cases h
  · rintro ⟨x, hx, rfl⟩
    -- each letter is an entry of the table
    revert x
    simp only [itemLetters, List.forall_mem_cons, List.not_mem_nil, false_implies, implies_true,
      and_true]
    exact ⟨rfl, rfl, rfl, rfl, rfl, rfl, rfl, rfl, rfl, rfl, rfl, rfl⟩

/-- The table of the parser has the items that the letters name. -/
theorem formatItems_eq {x : Char} (hx : x ∈ itemLetters) (fmt : String) :
    formatItems (String.ofList [x]) fmt = itemNamed x fmt := by
  have hdate : DateTimeFormatItem fmt
      = .dateTime (if fmt = "" then "%Y-%m-%d %H:%M:%S" else fmt) := by
    unfold DateTimeFormatItem
    split <;> rfl
  revert x
  simp only [itemLetters, List.forall_mem_cons, List.not_mem_nil, false_implies, implies_true,
    and_true]
  exact ⟨rfl, rfl, rfl, rfl, rfl, rfl, congrArg some hdate, rfl, rfl, rfl, rfl, rfl⟩

/-- An entry for a directive is an error item only if its name is not in the table. -/
theorem isSome_of_item {str fmt : String} (h : (⟨str, fmt, 1⟩ : Token).item.2 = false) :
    (formatItems str fmt).isSome = true := by
  cases hitem : formatItems str fmt with
  | none => simp [Token.item, hitem] at h
  | some item => rfl

/-- The letters are read as names. -/
theorem inName_of_mem {x : Char} (h : x ∈ itemLetters) : InName x ∧ x ≠ '%' := by
  revert x
  simp only [itemLetters, List.forall_mem_cons, List.not_mem_nil, false_implies, implies_true,
    and_true, InName]
  decide

/-- A name in front of something that does not belong to it. -/
theorem name_eq {x : Char} {name t t' : List Char} (h : x :: t = name ++ t') (hx : InName x)
    (hname : ∀ c ∈ name, InName c) (ht : ∀ c, t.head? = some c → ¬ InName c)
    (ht' : ∀ c, t'.head? = some c → ¬ InName c) : name = [x] ∧ t' = t := by
  cases name with
  | nil =>
    rw [List.nil_append] at h
    exact absurd hx (ht' x (by rw [← h]; rfl))
  | cons c name =>
    obtain ⟨rfl, htail⟩ := List.cons.inj h
    cases name with
    | nil => exact ⟨rfl, htail.symm⟩
    | cons c name => exact absurd (hname c (by simp)) (ht c (by rw [htail]; rfl))

/-- What ends a bare directive does not belong to its name. -/
theorem not_inName_of_endsBare {t : List Char} (h : EndsBare t) :
    ∀ c, t.head? = some c → ¬ InName c := by
  intro c hc hin
  obtain ⟨halpha, -, hne⟩ := h c hc
  rcases hin with hin | hin
  · rw [halpha] at hin
    cases hin
  · exact hne hin

/-- The inner loop on a bare directive. -/
theorem scan_bare {i : Nat} {x : Char} {t : List Char} {d : Directive} (hd : Scanned p i d)
    (hx : x ∈ itemLetters) (hdrop : p.drop (i + 1) = x :: t) (ht : EndsBare t) :
    d.fmt_status = 0 ∧ d.str = String.ofList [x] ∧ d.fmt = "" ∧ d.n = i + 2 := by
  have hin := (inName_of_mem hx).1
  have hends := not_inName_of_endsBare ht
  have hopen : ∀ u : List Char, ∀ c, ('{' :: u).head? = some c → ¬ InName c := by
    rintro u c ⟨⟩
    unfold InName
    decide
  cases hd with
  | bare name t' hsplit hname hends' hst hstr hfmt hn =>
    obtain ⟨rfl, rfl⟩ := name_eq (hdrop.symm.trans hsplit) hin hname hends
      (not_inName_of_endsBare hends')
    exact ⟨hst, hstr, hfmt, hn⟩
  -- there is no brace behind `x`
  | format name fmt t' hsplit hname _ hst hstr hfmt hn =>
    obtain ⟨rfl, rfl⟩ := name_eq (hdrop.symm.trans hsplit) hin hname hends (hopen _)
    exact absurd rfl (ht '{' rfl).2.1
  | error name t' hsplit hname _ _ =>
    obtain ⟨rfl, rfl⟩ := name_eq (hdrop.symm.trans hsplit) hin hname hends (hopen _)
    exact absurd rfl (ht '{' rfl).2.1

/-- The first closing brace ends the format. -/
theorem braces_eq {fmt fmt' t t' : List Char} (h : fmt ++ '}' :: t = fmt' ++ '}' :: t')
    (hfmt : '}' ∉ fmt) (hfmt' : '}' ∉ fmt') : fmt = fmt' ∧ t = t' := by
  induction fmt generalizing fmt' with
  | nil =>
    cases fmt' with
    | nil => exact ⟨rfl, (List.cons.inj h).2⟩
    | cons c fmt' =>
      obtain ⟨rfl, -⟩ := List.cons.inj h
      exact absurd List.mem_cons_self hfmt'
  | cons c fmt ih =>
    cases fmt' with
    | nil =>
      obtain ⟨rfl, -⟩ := List.cons.inj h
      exact absurd List.mem_cons_self hfmt
    | cons c' fmt' =>
      obtain ⟨rfl, htail⟩ := List.cons.inj h
      obtain ⟨rfl, rfl⟩ := ih htail (fun hmem => hfmt (List.mem_cons_of_mem _ hmem))
        (fun hmem => hfmt' (List.mem_cons_of_mem _ hmem))
      exact ⟨rfl, rfl⟩

/-- The inner loop on a directive with a format. -/
theorem scan_format {i : Nat} {x : Char} {fmt t : List Char} {d : Directive} (hd : Scanned p i d)
    (hx : x ∈ itemLetters) (hdrop : p.drop (i + 1) = x :: '{' :: (fmt ++ '}' :: t))
    (hfmt : '}' ∉ fmt) :
    d.fmt_status = 0 ∧ d.str = String.ofList [x] ∧ d.fmt = String.ofList fmt ∧
      d.n = i + 1 + (x :: '{' :: (fmt ++ ['}'])).length := by
  have hin := (inName_of_mem hx).1
  have hopen : ∀ u : List Char, ∀ c, ('{' :: u).head? = some c → ¬ InName c := by
    rintro u c ⟨⟩
    unfold InName
    decide
  cases hd with
  | bare name t' hsplit hname hends _ _ _ _ =>
    obtain ⟨rfl, rfl⟩ := name_eq (hdrop.symm.trans hsplit) hin hname (hopen _)
      (not_inName_of_endsBare hends)
    exact absurd rfl (hends '{' rfl).2.1
  | format name fmt' t' hsplit hname hfmt' hst hstr hf hn =>
    obtain ⟨rfl, heq⟩ := name_eq (hdrop.symm.trans hsplit) hin hname (hopen _) (hopen _)
    obtain ⟨rfl, rfl⟩ := braces_eq (List.cons.inj heq).2 hfmt' hfmt
    exact ⟨hst, hstr, hf, hn⟩
  | error name t' hsplit hname hno _ =>
    obtain ⟨rfl, heq⟩ := name_eq (hdrop.symm.trans hsplit) hin hname (hopen _) (hopen _)
    rw [(List.cons.inj heq).2] at hno
    exact absurd (by simp) hno

/-- On a pattern of the grammar the loop collects its segments, behind the text that
    stands before it. -/
theorem parse_derives {t : List Char} {l : List Segment} (h : Derives t l) {fuel i : Nat}
    (hdrop : p.drop i = t) (hfuel : p.length ≤ i + fuel) (s : Parse) :
    (parse p fuel i s).flush.vec = s.vec ++ (s.nstr.toList.foldr literal l).map Segment.token ∧
      (parse p fuel i s).error = s.error := by
  induction h generalizing fuel i s with
  | nil =>
    have hnone : p[i]? = none := List.getElem?_eq_none_iff.mpr (List.drop_eq_nil_iff.mp hdrop)
    have hstop : parse p fuel i s = s := by
      cases fuel with
      | zero => rfl
      | succ fuel => rw [parse, hnone]
    rw [hstop]
    exact ⟨flush_nil s, rfl⟩
  | @literal c t l hc _ ih =>
    obtain ⟨hget, hrest, hlt⟩ := some_of_drop hdrop
    obtain ⟨fuel, rfl⟩ : ∃ k, fuel = k + 1 := ⟨fuel - 1, by omega⟩
    rw [parse_literal hget hc]
    -- `c` is the last of the text before it, and the first of the run behind it
    obtain ⟨hvec, herror⟩ := @ih fuel (i + 1) hrest (by omega) { s with nstr := s.nstr.push c }
    refine ⟨hvec.trans ?_, herror⟩
    rw [String.toList_push, List.foldr_append]
    rfl
  | @bare x t l hx hends _ ih =>
    obtain ⟨hget, hrest, hlt⟩ := some_of_drop hdrop
    obtain ⟨hget', hrest', -⟩ := some_of_drop hrest
    have hnext : p[i + 1]? ≠ some '%' := by
      rw [hget']
      exact fun heq => (inName_of_mem hx).2 (Option.some.inj heq)
    obtain ⟨fuel, rfl⟩ : ∃ k, fuel = k + 1 := ⟨fuel - 1, by omega⟩
    obtain ⟨hst, hstr, hfmt, hn⟩ := scan_bare (scanDirective_spec i) hx hrest hends
    rw [parse_percent hget hnext rfl, if_pos hst, hstr, hfmt, hn]
    obtain ⟨hvec, herror⟩ := @ih fuel (i + 2) hrest' (by omega)
      { s.flush with vec := s.flush.vec ++ [⟨String.ofList [x], "", 1⟩] }
    refine ⟨hvec.trans ?_, herror.trans (flush_error s)⟩
    rw [← flush_directive]
    simp [Segment.token]
  | @format x fmt t l hx hfmt _ ih =>
    obtain ⟨hget, hrest, hlt⟩ := some_of_drop hdrop
    obtain ⟨hget', -, -⟩ := some_of_drop hrest
    have hnext : p[i + 1]? ≠ some '%' := by
      rw [hget']
      exact fun heq => (inName_of_mem hx).2 (Option.some.inj heq)
    obtain ⟨fuel, rfl⟩ : ∃ k, fuel = k + 1 := ⟨fuel - 1, by omega⟩
    obtain ⟨hst, hstr, hf, hn⟩ := scan_format (scanDirective_spec i) hx hrest hfmt
    have hsplit : p.drop (i + 1) = (x :: '{' :: (fmt ++ ['}'])) ++ t := by
      rw [hrest]
      simp
    rw [parse_percent hget hnext rfl, if_pos hst, hstr, hf, hn]
    obtain ⟨hvec, herror⟩ := @ih fuel _ (drop_add hsplit) (by omega)
      { s.flush with vec := s.flush.vec ++ [⟨String.ofList [x], String.ofList fmt, 1⟩] }
    refine ⟨hvec.trans ?_, herror.trans (flush_error s)⟩
    rw [← flush_directive]
    simp [Segment.token]

/-- A pattern in which the loop finds no error is in the grammar. -/
theorem derives_of_parse (hadj : ¬ ['%', '%'] <:+: p) (fuel i : Nat)
    (hfuel : p.length ≤ i + fuel) (s : Parse) (herror : (parse p fuel i s).error = false)
    (hitems : ∀ t ∈ (parse p fuel i s).vec, t.item.2 = false) :
    ∃ l, Derives (p.drop i) l := by
  induction fuel generalizing i s with
  | zero =>
    rw [List.drop_eq_nil_of_le (by omega)]
    exact ⟨[], .nil⟩
  | succ fuel ih =>
    cases hc : p[i]? with
    | none =>
      rw [drop_of_none hc]
      exact ⟨[], .nil⟩
    | some c =>
      have hdrop := drop_of_some hc
      by_cases hpercent : c = '%'
      · subst hpercent
        have hnext : p[i + 1]? ≠ some '%' := by
          -- a doubled `%` would be in the pattern
          intro hnext
          apply hadj
          refine ⟨p.take i, p.drop (i + 2), ?_⟩
          rw [List.append_assoc, List.cons_append, List.singleton_append,
            ← drop_of_some hnext, ← hdrop, List.take_append_drop]
        rw [parse_percent hc hnext rfl] at herror hitems
        rw [hdrop]
        have hscan := scanDirective_spec (p := p) i
        generalize scanDirective p i (p.length - i)
          { n := i + 1, fmt_status := 0, fmt_begin := 0, str := "", fmt := "" } = d
          at hscan herror hitems
        by_cases hst : d.fmt_status = 0
        · rw [if_pos hst] at herror hitems
          -- the entry of the directive names an item
          have hletter : ∃ x ∈ itemLetters, d.str = String.ofList [x] := by
            have hmem : (⟨d.str, d.fmt, 1⟩ : Token) ∈ (parse p fuel d.n
                { s.flush with vec := s.flush.vec ++ [⟨d.str, d.fmt, 1⟩] }).vec :=
              (parse_keeps fuel d.n _).1.subset (by simp)
            have hitem := hitems _ hmem
            exact formatItems_isSome.mp (isSome_of_item hitem)
          obtain ⟨x, hx, hstr⟩ := hletter
          cases hscan with
          | bare name t hsplit _ hends _ hname _ hn =>
            obtain rfl : name = [x] := String.ofList_injective (hname.symm.trans hstr)
            have hlength : d.n = i + 1 + [x].length := hn
            obtain ⟨l, hl⟩ := ih d.n (by rw [hlength]; simp; omega) _ herror hitems
            rw [hlength, drop_add hsplit] at hl
            rw [hsplit]
            exact ⟨_, .bare hx hends hl⟩
          | format name fmt t hsplit _ hfmt _ hname _ hn =>
            obtain rfl : name = [x] := String.ofList_injective (hname.symm.trans hstr)
            have hsplit' : p.drop (i + 1) = ([x] ++ '{' :: (fmt ++ ['}'])) ++ t := by
              rw [hsplit]
              simp
            obtain ⟨l, hl⟩ := ih d.n (by omega) _ herror hitems
            rw [hn, drop_add hsplit'] at hl
            rw [hsplit]
            exact ⟨_, .format hx hfmt hl⟩
          | error _ _ _ _ _ hone =>
            rw [hst] at hone
            cases hone
        · -- an unclosed brace, which the loop does not forget
          rw [if_neg hst] at herror
          have hkept := (parse_keeps (p := p) fuel (i + 1) { s with
            vec := s.vec ++ [⟨"<<pattern_error>>", d.fmt, 0⟩], error := true }).2 rfl
          rw [herror] at hkept
          cases hkept
      · rw [parse_literal hc hpercent] at herror hitems
        obtain ⟨l, hl⟩ := ih (i + 1) (by omega) _ herror hitems
        rw [hdrop]
        exact ⟨_, .literal hpercent hl⟩

end parse

/-! ### Patterns -/

/-- The directives of a derivation have letters of the table. -/
theorem Derives.letters {t : List Char} {l : List Segment} (h : Derives t l) {x : Char}
    {fmt : Option (List Char)} (hmem : Segment.directive x fmt ∈ l) : x ∈ itemLetters := by
  induction h with
  | nil => cases hmem
  | @literal c p l _ _ ih =>
    apply ih
    cases l with
    | nil => simp [Gwn.Log.literal] at hmem
    | cons s l => cases s <;> simpa [Gwn.Log.literal] using hmem
  | bare hx _ _ ih =>
    rcases List.mem_cons.mp hmem with heq | hmem
    · cases heq
      exact hx
    · exact ih hmem
  | format hx _ _ ih =>
    rcases List.mem_cons.mp hmem with heq | hmem
    · cases heq
      exact hx
    · exact ih hmem

/-- Every entry of a derivation has the item of its segment, and no error. -/
theorem Derives.item {t : List Char} {l : List Segment} (h : Derives t l) {s : Segment}
    (hs : s ∈ l) :
    s.token.item.2 = false ∧ some s.token.item.1 = s.item := by
  cases s with
  | text run => exact ⟨rfl, rfl⟩
  | directive x fmt =>
    have hx : x ∈ itemLetters := h.letters hs
    have hsome : (formatItems (String.ofList [x]) (String.ofList (fmt.getD []))).isSome = true :=
      formatItems_isSome.mpr ⟨x, hx, rfl⟩
    obtain ⟨item, hitem⟩ := Option.isSome_iff_exists.mp hsome
    have htoken : (Segment.directive x fmt).token.item = (item, false) := by
      unfold Token.item Segment.token
      rw [if_neg Nat.one_ne_zero, hitem]
    rw [htoken]
    exact ⟨rfl, hitem.symm.trans (formatItems_eq hx _)⟩

/-- For every pattern without two adjacent `%`: the parser finds no error if and only
    if the pattern is in the grammar, and then its items are those of the segments
    that the pattern is made of, in their order. -/
theorem pattern_iff (pattern : String) (hadj : ¬ ['%', '%'] <:+: pattern.toList) :
    ((LogFormatter.new pattern).isError = false ↔ ∃ l, Derives pattern.toList l) ∧
      ∀ l, Derives pattern.toList l →
        (LogFormatter.new pattern).items.map some = l.map Segment.item ∧
          l.flatMap Segment.render = pattern.toList ∧
          l.IsChain fun s s' => ∀ run run', s = .text run → s' ≠ .text run' := by
  have hfuel : pattern.toList.length ≤ 0 + pattern.toList.length := by omega
  have hvec : ∀ l, Derives pattern.toList l →
      (parse pattern.toList pattern.toList.length 0
        { vec := [], nstr := "", error := false }).flush.vec
        = l.map Segment.token ∧
      (parse pattern.toList pattern.toList.length 0
        { vec := [], nstr := "", error := false }).error = false :=
    fun l hl => parse_derives hl rfl hfuel _
  -- an error is found by the loop, or by an entry that has no item
  refine ⟨⟨fun h => ?_, fun ⟨l, hl⟩ => ?_⟩, fun l hl => ⟨?_, hl.render, hl.chain⟩⟩
  · obtain ⟨herror, hitems⟩ := Bool.or_eq_false_iff.mp h
    rw [flush_error] at herror
    rw [List.any_eq_false] at hitems
    apply derives_of_parse hadj _ 0 hfuel _ herror
    intro t ht
    simpa using hitems t ((vec_flush _).subset ht)
  · obtain ⟨htokens, herror⟩ := hvec l hl
    apply Bool.or_eq_false_iff.mpr
    rw [flush_error, htokens, List.any_map, List.any_eq_false]
    refine ⟨herror, fun s hs => ?_⟩
    simp [hl.item hs]
  · show List.map some (List.map _ (parse _ _ _ _).flush.vec) = _
    rw [(hvec l hl).1, List.map_map, List.map_map]
    exact List.map_congr_left fun s hs => (hl.item hs).2

/-- A date with a format of its own, text, and two bare directives. -/
theorem pattern_iff_clock :
    (LogFormatter.new "%d\x7b%H:%M\x7d: %m%n").isError = false ∧
      (LogFormatter.new "%d\x7b%H:%M\x7d: %m%n").items.map some
        = [some (.dateTime "%H:%M"), some (.string ": "), some .message, some .newLine] := by
  -- the pattern, letter by letter
  have hlist : "%d\x7b%H:%M\x7d: %m%n".toList =
      ['%', 'd', '{', '%', 'H', ':', '%', 'M', '}', ':', ' ', '%', 'm', '%', 'n'] := by decide
  have hgrammar : Derives "%d\x7b%H:%M\x7d: %m%n".toList
      [.directive 'd' (some ['%', 'H', ':', '%', 'M']), .text [':', ' '], .directive 'm' none,
        .directive 'n' none] := by
    rw [hlist]
    have hend : Derives ['%', 'm', '%', 'n'] [.directive 'm' none, .directive 'n' none] :=
      .bare (by decide) (by rintro c ⟨⟩; decide) (.bare (by decide) nofun .nil)
    have htext := Derives.literal (c := ':') (by decide) (.literal (c := ' ') (by decide) hend)
    exact @Derives.format 'd' ['%', 'H', ':', '%', 'M'] _ _ (by decide) (by decide) htext
  have hadj : ¬ ['%', '%'] <:+: "%d\x7b%H:%M\x7d: %m%n".toList := by
    rw [hlist]
    decide
  obtain ⟨hiff, hitems⟩ := pattern_iff _ hadj
  exact ⟨hiff.mpr ⟨_, hgrammar⟩, (hitems _ hgrammar).1.trans (by decide)⟩

end Gwn.Log
