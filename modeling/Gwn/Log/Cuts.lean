import Gwn.Log.Pattern
import Mathlib.Data.List.Chain

/-! # Patterns in pieces

    Every pattern, well-formed or not, is cut into pieces by the scanner of
    `LogFormatter::init` in one way (`Cuts`): characters, directives, and the `%` of a
    `%name{` without a closing brace, behind which the scanner goes on with the name.
    The items should stand for the pieces in their order (`Stands`). The text collected
    so far is put in front of a directive, but not in front of an error marker, so the
    items are in order exactly when no marker has text directly before it
    (`stands_iff`). -/

namespace Gwn.Log

/-! ### Pieces -/

inductive Piece where
  /-- A character, or the first of two `%`. -/
  | literal (c : Char)
  | directive (name : List Char) (fmt : Option (List Char))
  /-- The `%` of a `%name{` that is not closed. -/
  | unterminated
deriving DecidableEq

/-- The characters of the pattern that a piece stands for. -/
def Piece.render : Piece → List Char
  | literal c => [c]
  | directive name none => '%' :: name
  | directive name (some fmt) => '%' :: (name ++ '{' :: (fmt ++ ['}']))
  | unterminated => ['%']

/-- What stands behind a `%` begins with a directive or the name of an unterminated one;
    with the piece, and where the scanner goes on. -/
inductive Behind : List Char → Piece → List Char → Prop where
  | bare {name p} : (∀ c ∈ name, InName c) → EndsBare p →
      Behind (name ++ p) (.directive name none) p
  | format {name fmt p} : (∀ c ∈ name, InName c) → '}' ∉ fmt →
      Behind (name ++ '{' :: (fmt ++ '}' :: p)) (.directive name (some fmt)) p
  | unterminated {name p} : (∀ c ∈ name, InName c) → '}' ∉ p →
      Behind (name ++ '{' :: p) .unterminated (name ++ '{' :: p)

/-- The pattern is cut into these pieces. -/
inductive Cuts : List Char → List Piece → Prop where
  | nil : Cuts [] []
  | literal {c p l} : c ≠ '%' → Cuts p l → Cuts (c :: p) (.literal c :: l)
  | doubled {p l} : Cuts ('%' :: p) l → Cuts ('%' :: '%' :: p) (.literal '%' :: l)
  | percent {t x p l} :
      t.head? ≠ some '%' → Behind t x p → Cuts p l → Cuts ('%' :: t) (x :: l)

/-- An item and whether it is an error, for each entry of the vector. -/
abbrev Entries := List (FormatItem × Bool)

def textEntry (nstr : List Char) : Entries :=
  if nstr = [] then [] else [(.string (String.ofList nstr), false)]

def directiveEntry (name : List Char) (fmt : Option (List Char)) : FormatItem × Bool :=
  Token.item ⟨String.ofList name, String.ofList (fmt.getD []), 1⟩

def patternError : FormatItem × Bool :=
  (.string "<<pattern_error>>", false)

/-- The entries that the scanner collects from the pieces, with the text `nstr` so far. -/
def collected (nstr : List Char) : List Piece → Entries
  | [] => textEntry nstr
  | .literal c :: l => collected (nstr ++ [c]) l
  | .directive name fmt :: l => textEntry nstr ++ directiveEntry name fmt :: collected [] l
  | .unterminated :: l => patternError :: collected nstr l

/-- Each item stands for a run of characters, a directive or a marker, in the order of
    the pattern. -/
inductive Stands : List Piece → List FormatItem → Prop where
  | nil : Stands [] []
  | text {run l items} : run ≠ [] → Stands l items →
      Stands (run.map .literal ++ l) (.string (String.ofList run) :: items)
  | directive {name fmt l items} : Stands l items →
      Stands (.directive name fmt :: l) ((directiveEntry name fmt).1 :: items)
  | unterminated {l items} :
      Stands l items → Stands (.unterminated :: l) (patternError.1 :: items)

/-- No marker has text directly before it. -/
def Unsplit (l : List Piece) : Prop :=
  l.IsChain fun x y => y = .unterminated → ∀ c, x ≠ .literal c

theorem Behind.render {t p : List Char} {x : Piece} (h : Behind t x p) :
    x.render ++ p = '%' :: t := by
  cases h with
  | bare _ _ => rfl
  | format _ _ => simp [Piece.render]
  | unterminated _ _ => rfl

/-- The pieces are the pattern, character by character. -/
theorem Cuts.render {p : List Char} {l : List Piece} (h : Cuts p l) :
    l.flatMap Piece.render = p := by
  induction h with
  | nil => rfl
  | literal _ _ ih => simp [Piece.render, ih]
  | doubled _ ih => simp [Piece.render, ih]
  | percent _ hx _ ih => rw [List.flatMap_cons, ih, hx.render]

/-! ### There is one way to cut a pattern -/

theorem not_inName_open : ¬ InName '{' := by
  unfold InName
  decide

theorem not_inName_percent : ¬ InName '%' := by
  unfold InName
  decide

/-- Where a name ends. -/
theorem name_split {name name' t t' : List Char} (h : name ++ t = name' ++ t')
    (hname : ∀ c ∈ name, InName c) (hname' : ∀ c ∈ name', InName c)
    (ht : ∀ c, t.head? = some c → ¬ InName c)
    (ht' : ∀ c, t'.head? = some c → ¬ InName c) :
    name = name' ∧ t = t' := by
  induction name generalizing name' with
  | nil =>
    cases name' with
    | nil => exact ⟨rfl, h⟩
    | cons c name' =>
      have hhead : t.head? = some c := by rw [show t = _ from h]; rfl
      exact absurd (hname' c List.mem_cons_self) (ht c hhead)
  | cons c name ih =>
    cases name' with
    | nil =>
      have hhead : t'.head? = some c := by rw [← show _ = t' from h]; rfl
      exact absurd (hname c List.mem_cons_self) (ht' c hhead)
    | cons c' name' =>
      obtain ⟨rfl, htail⟩ := List.cons.inj h
      obtain ⟨rfl, rfl⟩ :=
        ih htail (List.forall_mem_cons.mp hname).2 (List.forall_mem_cons.mp hname').2
      exact ⟨rfl, rfl⟩

theorem head_open (t : List Char) : ∀ c, ('{' :: t).head? = some c → ¬ InName c := by
  rintro c ⟨⟩
  exact not_inName_open

theorem Behind.unique {t p p' : List Char} {x x' : Piece} (h : Behind t x p) (h' : Behind t x' p') :
    x = x' ∧ p = p' := by
  -- a bare directive does not end in front of a brace
  have hbrace : ∀ {name name' p u : List Char}, (∀ c ∈ name, InName c) →
      (∀ c ∈ name', InName c) →
      EndsBare p → name ++ p = name' ++ '{' :: u → False := by
    intro name name' p u hname hname' hends heq
    obtain ⟨-, rfl⟩ := name_split heq hname hname' (not_inName_of_endsBare hends) (head_open u)
    exact absurd rfl (hends '{' rfl).2.1
  -- and a closing brace is there or not
  have hclosed :
      ∀ {name name' fmt p u : List Char}, (∀ c ∈ name, InName c) →
        (∀ c ∈ name', InName c) →
      '}' ∉ u → name ++ '{' :: (fmt ++ '}' :: p) = name' ++ '{' :: u → False := by
    intro name name' fmt p u hname hname' hno heq
    obtain ⟨-, heq⟩ := name_split heq hname hname' (head_open _) (head_open u)
    rw [← (List.cons.inj heq).2] at hno
    exact absurd (by simp) hno
  cases h with
  | @bare name p hname hends =>
    generalize ht : name ++ p = t at h'
    cases h' with
    | bare hname' hends' =>
      obtain ⟨rfl, rfl⟩ := name_split ht hname hname' (not_inName_of_endsBare hends)
        (not_inName_of_endsBare hends')
      exact ⟨rfl, rfl⟩
    | format hname' _ => exact (hbrace hname hname' hends ht).elim
    | unterminated hname' _ => exact (hbrace hname hname' hends ht).elim
  | @format name fmt p hname hfmt =>
    generalize ht : name ++ '{' :: (fmt ++ '}' :: p) = t at h'
    cases h' with
    | bare hname' hends => exact (hbrace hname' hname hends ht.symm).elim
    | format hname' hfmt' =>
      obtain ⟨rfl, heq⟩ := name_split ht hname hname' (head_open _) (head_open _)
      obtain ⟨rfl, rfl⟩ := braces_eq (List.cons.inj heq).2 hfmt hfmt'
      exact ⟨rfl, rfl⟩
    | unterminated hname' hno => exact (hclosed hname hname' hno ht).elim
  | @unterminated name p hname hno =>
    generalize ht : name ++ '{' :: p = t at h'
    cases h' with
    | bare hname' hends => exact (hbrace hname' hname hends ht.symm).elim
    | format hname' _ => exact (hclosed hname' hname hno ht.symm).elim
    | unterminated _ _ => exact ⟨rfl, rfl⟩

theorem Cuts.unique {p : List Char} {l l' : List Piece} (h : Cuts p l)
    (h' : Cuts p l') : l = l' := by
  induction h generalizing l' with
  | nil =>
    cases h' with
    | nil => rfl
  | literal hc _ ih =>
    cases h' with
    | literal _ h' => rw [ih h']
    | doubled _ => exact absurd rfl hc
    | percent _ _ _ => exact absurd rfl hc
  | doubled _ ih =>
    cases h' with
    | literal hc _ => exact absurd rfl hc
    | doubled h' => rw [ih h']
    | percent hhead _ _ => exact absurd rfl hhead
  | percent hhead hx _ ih =>
    cases h' with
    | literal hc _ => exact absurd rfl hc
    | doubled _ => exact absurd rfl hhead
    | percent _ hx' h' =>
      obtain ⟨rfl, rfl⟩ := hx.unique hx'
      rw [ih h']

/-! ### What the scanner collects -/

theorem flush_entries (s : Parse) :
    s.flush.vec.map Token.item = s.vec.map Token.item ++ textEntry s.nstr.toList := by
  unfold Parse.flush textEntry
  by_cases hnstr : s.nstr = ""
  · simp [hnstr]
  · rw [if_neg hnstr, if_neg (by simpa using hnstr), List.map_append, String.ofList_toList]
    rfl

/-- What the inner loop has found. -/
theorem Scanned.behind {p : List Char} {i : Nat} {d : Directive} (h : Scanned p i d) :
    (∃ name fmt, Behind (p.drop (i + 1)) (.directive name fmt) (p.drop d.n) ∧ i < d.n ∧
      d.fmt_status = 0 ∧ d.str = String.ofList name ∧ d.fmt = String.ofList (fmt.getD [])) ∨
    Behind (p.drop (i + 1)) .unterminated (p.drop (i + 1)) ∧ d.fmt_status = 1 := by
  cases h with
  | bare name t hsplit hname hends hst hstr hfmt hn =>
    left
    refine ⟨name, none, ?_, by omega, hst, hstr, hfmt⟩
    rw [hn, drop_add hsplit, hsplit]
    exact .bare hname hends
  | format name fmt t hsplit hname hfmt hst hstr hf hn =>
    left
    refine ⟨name, some fmt, ?_, by omega, hst, hstr, hf⟩
    have hsplit' : p.drop (i + 1) = (name ++ '{' :: (fmt ++ ['}'])) ++ t := by
      rw [hsplit]
      simp
    rw [hn, drop_add hsplit', hsplit]
    exact .format hname hfmt
  | error name t hsplit hname hno hst =>
    right
    refine ⟨?_, hst⟩
    rw [hsplit]
    exact .unterminated hname hno

/-- The scanner cuts the rest of the pattern into pieces, collects their entries behind
    those it has, and there is an error if a piece is unterminated. -/
theorem parse_cuts {p : List Char} (fuel i : Nat) (hfuel : p.length ≤ i + fuel) (s : Parse) :
    ∃ l, Cuts (p.drop i) l ∧
      (parse p fuel i s).flush.vec.map Token.item
        = s.vec.map Token.item ++ collected s.nstr.toList l ∧
      ((parse p fuel i s).error = false ↔ s.error = false ∧ .unterminated ∉ l) := by
  induction fuel generalizing i s with
  | zero =>
    -- the bound is used up only at the end of the pattern
    rw [List.drop_eq_nil_of_le (by omega)]
    exact ⟨[], .nil, flush_entries s, by simp [parse]⟩
  | succ fuel ih =>
    cases hc : p[i]? with
    | none =>
      rw [drop_of_none hc, parse, hc]
      exact ⟨[], .nil, flush_entries s, by simp⟩
    | some c =>
      rw [drop_of_some hc]
      by_cases hpercent : c = '%'
      · subst hpercent
        by_cases hnext : p[i + 1]? = some '%'
        · -- the second `%` is read again
          obtain ⟨l, hl, hvec, herror⟩ :=
            ih (i + 1) (by omega) { s with nstr := s.nstr.push '%' }
          have hparse : parse p (fuel + 1) i s
              = parse p fuel (i + 1) { s with nstr := s.nstr.push '%' } := by
            rw [parse, hc]
            simp only
            rw [if_neg (by simp), if_pos hnext]
          rw [drop_of_some hnext] at hl ⊢
          rw [hparse]
          refine ⟨.literal '%' :: l, .doubled hl, ?_, ?_⟩
          · rw [hvec, String.toList_push]
            rfl
          · rw [herror]
            simp
        · have hhead : (p.drop (i + 1)).head? ≠ some '%' := by rwa [List.head?_drop]
          rw [parse_percent hc hnext rfl]
          have hscan := (scanDirective_spec (p := p) i).behind
          generalize scanDirective p i (p.length - i)
            { n := i + 1, fmt_status := 0, fmt_begin := 0, str := "", fmt := "" } = d at hscan ⊢
          rcases hscan with ⟨name, fmt, hbehind, hlt, hst, hstr, hfmt⟩ | ⟨hbehind, hst⟩
          · -- the text so far is put in front of the directive
            rw [if_pos hst, hstr, hfmt]
            obtain ⟨l, hl, hvec, herror⟩ := ih d.n (by omega) { s.flush with
              vec := s.flush.vec ++ [⟨String.ofList name, String.ofList (fmt.getD []), 1⟩] }
            refine ⟨_, .percent hhead hbehind hl, ?_, ?_⟩
            · rw [hvec, List.map_append, flush_entries, flush_nstr, List.append_assoc,
                List.append_assoc]
              rfl
            · rw [herror, flush_error]
              simp
          · -- it is not put in front of the marker
            rw [if_neg (by omega)]
            obtain ⟨l, hl, hvec, herror⟩ := ih (i + 1) (by omega)
              { s with vec := s.vec ++ [⟨"<<pattern_error>>", d.fmt, 0⟩], error := true }
            refine ⟨_, .percent hhead hbehind hl, ?_, ?_⟩
            · rw [hvec, List.map_append, List.append_assoc]
              rfl
            · rw [herror]
              simp
      · rw [parse_literal hc hpercent]
        obtain ⟨l, hl, hvec, herror⟩ := ih (i + 1) (by omega) { s with nstr := s.nstr.push c }
        refine ⟨.literal c :: l, .literal hpercent hl, ?_, ?_⟩
        · rw [hvec, String.toList_push]
          rfl
        · rw [herror]
          simp

/-- The formatter of a pattern, in terms of its pieces. -/
theorem new_cuts {pattern : String} {l : List Piece} (h : Cuts pattern.toList l) :
    (LogFormatter.new pattern).items = (collected [] l).map Prod.fst ∧
      ((LogFormatter.new pattern).isError = false ↔
        .unterminated ∉ l ∧ ∀ e ∈ collected [] l, e.2 = false) := by
  obtain ⟨l', hl', hvec, herror⟩ :=
    parse_cuts (p := pattern.toList) pattern.toList.length 0 (by omega)
    { vec := [], nstr := "", error := false }
  obtain rfl := h.unique hl'
  have hvec : (parse pattern.toList pattern.toList.length 0
      { vec := [], nstr := "", error := false }).flush.vec.map Token.item = collected [] l := hvec
  constructor
  · show List.map _ (parse _ _ _ _).flush.vec = _
    rw [← hvec, List.map_map]
    rfl
  · unfold LogFormatter.isError LogFormatter.new
    simp only [Bool.or_eq_false_iff, flush_error, herror, true_and, List.any_eq_false, ← hvec,
      List.forall_mem_map, Bool.not_eq_true]

/-! ### Accepted patterns -/

/-- A character, or a directive that is registered. -/
def Piece.Accepted : Piece → Prop
  | literal _ => True
  | directive name _ => ∃ x ∈ itemLetters, name = [x]
  | unterminated => False

/-- The entry of a registered directive. -/
theorem directiveEntry_item {x : Char} {fmt : Option (List Char)} {item : FormatItem}
    (h : formatItems (String.ofList [x]) (String.ofList (fmt.getD [])) = some item) :
    directiveEntry [x] fmt = (item, false) := by
  unfold directiveEntry Token.item
  rw [if_neg Nat.one_ne_zero, h]

theorem directiveEntry_registered {name : List Char} {fmt : Option (List Char)} :
    (directiveEntry name fmt).2 = false ↔ ∃ x ∈ itemLetters, name = [x] := by
  constructor
  · intro h
    obtain ⟨x, hx, hname⟩ := formatItems_isSome.mp (isSome_of_item h)
    exact ⟨x, hx, String.ofList_injective hname⟩
  · rintro ⟨x, hx, rfl⟩
    have hsome : (formatItems (String.ofList [x]) (String.ofList (fmt.getD []))).isSome = true :=
      formatItems_isSome.mpr ⟨x, hx, rfl⟩
    obtain ⟨item, hitem⟩ := Option.isSome_iff_exists.mp hsome
    rw [directiveEntry_item hitem]

theorem textEntry_error {n : List Char} : ∀ e ∈ textEntry n, e.2 = false := by
  unfold textEntry
  split <;> simp

theorem collected_error (n : List Char) (l : List Piece) :
    .unterminated ∉ l ∧ (∀ e ∈ collected n l, e.2 = false) ↔ ∀ x ∈ l, x.Accepted := by
  -- along the pieces: the text so far is never an error
  induction l generalizing n with
  | nil => simpa [collected] using textEntry_error
  | cons x l ih =>
    rw [List.forall_mem_cons]
    cases x with
    | literal c =>
      rw [← ih (n ++ [c])]
      simp [collected, Piece.Accepted]
    | directive name fmt =>
      rw [← ih [], Piece.Accepted, ← @directiveEntry_registered name fmt, collected]
      rw [List.forall_mem_append, List.forall_mem_cons]
      simp only [List.mem_cons, reduceCtorEq, false_or]
      constructor
      · rintro ⟨hnot, -, hentry, hrest⟩
        exact ⟨hentry, hnot, hrest⟩
      · rintro ⟨hentry, hnot, hrest⟩
        exact ⟨hnot, textEntry_error, hentry, hrest⟩
    | unterminated => simp [Piece.Accepted]

/-- The formatter has no error if and only if all pieces are accepted. -/
theorem isError_cuts {pattern : String} {l : List Piece} (h : Cuts pattern.toList l) :
    (LogFormatter.new pattern).isError = false ↔ ∀ x ∈ l, x.Accepted := by
  rw [(new_cuts h).2, collected_error]

section output
variable {strftime : String → UInt64 → String} {level : Level} {event : LogEvent}

/-- What is written for a piece. -/
def Piece.output (strftime : String → UInt64 → String) (level : Level) (event : LogEvent) :
    Piece → List Char
  | literal c => [c]
  | directive name fmt => ((directiveEntry name fmt).1.format strftime level event).toList
  | unterminated => (patternError.1.format strftime level event).toList

theorem textEntry_output (n : List Char) :
    (textEntry n).flatMap (fun e => (e.1.format strftime level event).toList) = n := by
  unfold textEntry
  by_cases hn : n = []
  · simp [hn]
  · rw [if_neg hn, List.flatMap_singleton]
    exact String.toList_ofList

theorem collected_output {l : List Piece} (hl : ∀ x ∈ l, x.Accepted) (n : List Char) :
    (collected n l).flatMap (fun e => (e.1.format strftime level event).toList)
      = n ++ l.flatMap (Piece.output strftime level event) := by
  induction l generalizing n with
  | nil => simpa [collected] using textEntry_output n
  | cons x l ih =>
    obtain ⟨hx, hrest⟩ := List.forall_mem_cons.mp hl
    cases x with
    | literal c =>
      rw [collected, ih hrest, List.append_assoc]
      rfl
    | directive name fmt =>
      rw [collected, List.flatMap_append, List.flatMap_cons, textEntry_output, ih hrest]
      rfl
    | unterminated => exact hx.elim

/-- An accepted pattern writes what its pieces write. -/
theorem format_cuts {pattern : String} {l : List Piece} (h : Cuts pattern.toList l)
    (hl : ∀ x ∈ l, x.Accepted) :
    ((LogFormatter.new pattern).format strftime level event).toList
      = l.flatMap (Piece.output strftime level event) := by
  unfold LogFormatter.format
  rw [String.toList_join, (new_cuts h).1, List.map_map, List.flatMap_map]
  exact collected_output hl []

end output

/-! ### The order of the items -/

theorem textEntry_length (nstr : List Char) : (textEntry nstr).length = (!nstr.isEmpty).toNat := by
  unfold textEntry
  cases nstr <;> rfl

/-- How many items there are when each run of characters is one; `text` says whether
    a run has begun. -/
def countItems (text : Bool) : List Piece → Nat
  | [] => text.toNat
  | .literal _ :: l => countItems true l
  | _ :: l => text.toNat + 1 + countItems false l

theorem countItems_true (l : List Piece) : countItems true l ≤ 1 + countItems false l := by
  cases l with
  | nil => exact Nat.le_refl 1
  | cons x l => cases x <;> simp [countItems] <;> omega

theorem countItems_run {run : List Char} (hrun : run ≠ []) (text : Bool) (l : List Piece) :
    countItems text (run.map .literal ++ l) = countItems true l := by
  induction run generalizing text with
  | nil => exact absurd rfl hrun
  | cons c run ih =>
    by_cases hnil : run = []
    · subst hnil
      rfl
    · exact ih hnil true

/-- Fewer items cannot stand for the pieces. -/
theorem Stands.length {l : List Piece} {items : List FormatItem} (h : Stands l items) :
    countItems false l ≤ items.length := by
  induction h with
  | nil => exact Nat.le_refl 0
  | @text run l items hrun _ ih =>
    have hle := countItems_true l
    rw [countItems_run hrun, List.length_cons]
    omega
  | directive _ ih =>
    simp only [countItems, List.length_cons, Bool.toNat_false]
    omega
  | unterminated _ ih =>
    simp only [countItems, List.length_cons, Bool.toNat_false]
    omega

/-- Text that has begun makes one entry, whatever it is. -/
theorem collected_length {n m : List Char} (hn : n ≠ []) (hm : m ≠ []) (l : List Piece) :
    (collected n l).length = (collected m l).length := by
  have htext : (textEntry n).length = (textEntry m).length := by simp [textEntry, hn, hm]
  induction l generalizing n m with
  | nil => exact htext
  | cons x l ih =>
    cases x with
    | literal c => exact ih (by simp) (by simp) (by simp [textEntry])
    | directive name fmt => simp [collected, htext]
    | unterminated => simp [collected, ih hn hm htext]

theorem Cuts.head_literal {c : Char} {p : List Char} {l : List Piece} (h : Cuts (c :: p) l)
    (hc : c ≠ '%') :
    ∃ l', l = .literal c :: l' := by
  cases h with
  | literal _ _ => exact ⟨_, rfl⟩
  | doubled _ => exact absurd rfl hc
  | percent _ _ _ => exact absurd rfl hc

theorem Cuts.literal_behind {t p : List Char} {l : List Piece} (h : Behind t .unterminated p)
    (hl : Cuts p l) :
    ∃ c l', l = .literal c :: l' := by
  cases h with
  | @unterminated name p hname _ =>
    -- the first character of the name, or the brace if the name is empty
    cases name with
    | nil =>
      obtain ⟨l', rfl⟩ := hl.head_literal (by decide)
      exact ⟨_, l', rfl⟩
    | cons c name =>
      have hc : c ≠ '%' := by
        rintro rfl
        exact not_inName_percent (hname _ List.mem_cons_self)
      obtain ⟨l', rfl⟩ := hl.head_literal hc
      exact ⟨_, l', rfl⟩

theorem unsplit_cons {x : Piece} {l : List Piece} (hl : Unsplit l)
    (hx : l.head? = some .unterminated → ∀ c, x ≠ .literal c) : Unsplit (x :: l) := by
  refine List.isChain_cons.mpr ⟨?_, hl⟩
  rintro y hy rfl
  exact hx hy

theorem unsplit_run {n : List Char} {l : List Piece} (hl : Unsplit l)
    (hn : n ≠ [] → l.head? ≠ some .unterminated) : Unsplit (n.map .literal ++ l) := by
  induction n with
  | nil => exact hl
  | cons c n ih =>
    have hhead := hn (List.cons_ne_nil c n)
    refine unsplit_cons (ih fun _ => hhead) fun h => ?_
    cases n with
    | nil => exact absurd h hhead
    | cons c n => cases h

/-- The scanner collects no more entries than there are items to be, and fewer if it
    takes text past a marker. -/
theorem Cuts.collected_le {p : List Char} {l : List Piece} (h : Cuts p l) (n : List Char) :
    (collected n l).length ≤ countItems (!n.isEmpty) l ∧
      (countItems (!n.isEmpty) l ≤ (collected n l).length → Unsplit (n.map .literal ++ l)) := by
  induction h generalizing n with
  | nil =>
    exact ⟨Nat.le_of_eq (textEntry_length n), fun _ => unsplit_run .nil (by simp)⟩
  | @literal c p l _ _ ih =>
    obtain ⟨hle, heq⟩ := ih (n ++ [c])
    rw [show (!(n ++ [c]).isEmpty) = true by simp] at hle heq
    refine ⟨hle, fun h => ?_⟩
    simpa using heq h
  | @doubled p l _ ih =>
    obtain ⟨hle, heq⟩ := ih (n ++ ['%'])
    rw [show (!(n ++ ['%']).isEmpty) = true by simp] at hle heq
    refine ⟨hle, fun h => ?_⟩
    simpa using heq h
  | @percent t x p l _ hx hl ih =>
    obtain ⟨hle, heq⟩ := ih []
    rw [show (!([] : List Char).isEmpty) = false from rfl] at hle heq
    cases x with
    | literal c => cases hx
    | directive name fmt =>
      -- the text ends here, and so it does when the items are counted
      simp only [collected, countItems, List.length_append, List.length_cons, textEntry_length]
      refine ⟨by omega, fun h => ?_⟩
      have hrest : Unsplit l := heq (by omega)
      exact unsplit_run (unsplit_cons hrest (by simp)) (by simp)
    | unterminated =>
      -- the name and the brace follow, and join the text
      obtain ⟨c, l', rfl⟩ := hl.literal_behind hx
      have hlength :
          (collected n (.literal c :: l')).length = (collected [] (.literal c :: l')).length :=
        collected_length (by simp) (by simp) l'
      simp only [collected, countItems, List.length_cons] at hlength hle heq ⊢
      refine ⟨by omega, fun h => ?_⟩
      have hnil : n = [] := by
        by_contra hn
        have htrue : (!n.isEmpty).toNat = 1 := by simp [hn]
        omega
      subst hnil
      exact unsplit_cons (heq (by omega)) (by simp)

/-- The text so far, put in front of what follows it. -/
theorem Stands.flush {l : List Piece} {items : List FormatItem} (h : Stands l items)
    (n : List Char) :
    Stands (n.map .literal ++ l) ((textEntry n).map Prod.fst ++ items) := by
  unfold textEntry
  by_cases hn : n = []
  · subst hn
    exact h
  · rw [if_neg hn]
    exact .text hn h

/-- Without text directly before a marker the entries are in order. -/
theorem stands_collected {l : List Piece} (n : List Char) (h : Unsplit (n.map .literal ++ l)) :
    Stands (n.map .literal ++ l) ((collected n l).map Prod.fst) := by
  -- along the pieces, for every text that has been collected
  induction l generalizing n with
  | nil => simpa [collected] using Stands.nil.flush n
  | cons x l ih =>
    have hl : Unsplit l := (List.isChain_append.mp h).2.1.tail
    cases x with
    | literal c =>
      have hsame :
          (n ++ [c]).map Piece.literal ++ l = n.map Piece.literal ++ .literal c :: l := by simp
      rw [← hsame] at h ⊢
      exact ih (n ++ [c]) h
    | directive name fmt =>
      rw [collected, List.map_append, List.map_cons]
      exact (Stands.directive (ih [] hl)).flush n
    | unterminated =>
      -- text would stand directly before the marker
      have hnil : n = [] := by
        by_contra hn
        obtain ⟨m, c, rfl⟩ := List.eq_nil_or_concat n |>.resolve_left hn
        have hlast := (List.isChain_append.mp h).2.2 (.literal c) (by simp) .unterminated (by simp)
        exact hlast rfl c rfl
      subst hnil
      exact .unterminated (ih [] hl)

/-- For every pattern there is one way to cut it into pieces, which are the pattern
    character by character, and its items stand for the pieces in their order if and
    only if no marker has text directly before it. -/
theorem stands_iff (pattern : String) :
    (∃! l, Cuts pattern.toList l) ∧
      ∀ l, Cuts pattern.toList l → l.flatMap Piece.render = pattern.toList ∧
        (Stands l (LogFormatter.new pattern).items ↔ Unsplit l) := by
  constructor
  · obtain ⟨l, hl, -⟩ := parse_cuts (p := pattern.toList) pattern.toList.length 0 (by omega)
      { vec := [], nstr := "", error := false }
    exact ⟨l, hl, fun l' hl' => Cuts.unique hl' hl⟩
  · intro l hl
    refine ⟨hl.render, ?_⟩
    rw [(new_cuts hl).1]
    constructor
    · intro hstands
      have hlength := hstands.length
      rw [List.length_map] at hlength
      exact (hl.collected_le []).2 hlength
    · intro hunsplit
      exact stands_collected [] hunsplit

/-- The pattern `a%{`: the text comes behind the marker, together with the brace. -/
theorem not_stands_split : ¬ ∀ (pattern : String) (l : List Piece), Cuts pattern.toList l →
    Stands l (LogFormatter.new pattern).items := by
  intro h
  have hcuts : Cuts "a%\x7b".toList [.literal 'a', .unterminated, .literal '{'] :=
    .literal (by decide) (.percent (by decide) (@Behind.unterminated [] [] (by simp) (by simp))
      (.literal (by decide) .nil))
  have hlength := (h _ _ hcuts).length
  have hitems : (LogFormatter.new "a%\x7b").items
      = [.string "<<pattern_error>>", .string "a\x7b"] := by decide
  rw [hitems] at hlength
  exact absurd hlength (by decide)

end Gwn.Log
