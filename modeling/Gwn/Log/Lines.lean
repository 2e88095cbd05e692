import Gwn.Framework.Sections
import Gwn.Log.Appender
import Mathlib.Data.List.Permutation

/-! # Lines from many threads

    `StdoutLogAppender::log`, `FileLogAppender::log` and `reopen` (gwn/log.cc), called by
    any threads. A line is written item by item under the mutex of the appender, which
    also protects the formatter; the level and `m_lastTime` are used without it. Opens
    and writes succeed, formatters are not null, and the files of the appenders are
    different ones.
    - `content_lines`: what a file, or the part of one appender in the standard output,
      holds at any time
    - `lines_of_calls`: each call that passes the level writes one line
    - `cout_lines_iff`: `std::cout` has no mutex of its own, and lines stay whole there
      if and only if a single appender writes to it -/

namespace Gwn.Log

open LTS

/-! ### What the mutex of an appender protects -/

structure Output where
  /-- `m_formatter`. -/
  formatter : LogFormatter
  /-- `m_filestream`. Of an appender to the standard output it is what it writes there. -/
  stream : Ofstream

/-- A step in a section under the mutex. -/
inductive Update where
  /-- `if(m_filestream) m_filestream.close()`. -/
  | close
  /-- `m_filestream.open(m_filename)`. -/
  | open
  /-- What one format item writes. -/
  | write (str : String)
  /-- `m_formatter = val`. -/
  | setFormatter (val : LogFormatter)

def Update.act : Update → Output → Output
  | .close, d => { d with stream := if d.stream.fail = false then d.stream.close else d.stream }
  | .open, d => { d with stream := d.stream.open }
  | .write str, d => { d with stream := d.stream.write str }
  | .setFormatter val, d => { d with formatter := val }

/-- A section. -/
inductive Request where
  /-- `m_formatter->format(stream, logger, level, event)`. -/
  | log (level : Level) (event : LogEvent)
  | reopen
  | setFormatter (val : LogFormatter)

section requests
variable (strftime : String → UInt64 → String)

/-- The steps of a section that begins with `d`. -/
def Request.updates (d : Output) : Request → List Update
  | .log level event => d.formatter.items.map fun i => .write (i.format strftime level event)
  | .reopen => [.close, .open]
  | .setFormatter val => [.setFormatter val]

/-- The formatter and the text after a section that nobody interrupts. -/
def Request.text (p : LogFormatter × String) : Request → LogFormatter × String
  | .log level event => (p.1, p.2 ++ p.1.format strftime level event)
  | .reopen => (p.1, "")
  | .setFormatter val => (val, p.2)

end requests

/-! ### The threads -/

/-- Where a call of `log` is, outside the sections. -/
inductive Phase where
  | idle
  /-- Behind `if(level >= m_level)`. -/
  | passed (a : Nat) (level : Level) (event : LogEvent)
  /-- In `reopen`, before the mutex. -/
  | reopening (a : Nat) (level : Level) (event : LogEvent)
  /-- Before `m_lastTime = now`. -/
  | stamping (a : Nat) (level : Level) (event : LogEvent)
  /-- Before the mutex, to write. -/
  | printing (a : Nat) (level : Level) (event : LogEvent)

structure Printing where
  level : Nat → Level
  lastTime : Nat → UInt64
  shared : Sections Nat Nat Output Update
  /-- What has been written to `std::cout`, with the appender that wrote it. -/
  cout : List (Nat × String)
  phase : Nat → Phase

inductive PrintLabel where
  /-- Thread `t` calls `log`, up to the comparison of the levels. -/
  | log (t a : Nat) (level : Level) (event : LogEvent)
  | setLevel (a : Nat) (val : Level)
  /-- Thread `t` calls `reopen` or `setFormatter` and gets the mutex. -/
  | reopen (t a : Nat)
  | setFormatter (t a : Nat) (val : LogFormatter)
  /-- Thread `t` goes on. -/
  | step (t : Nat)

/-- The family of appenders: which of them are file appenders, and what they start with. -/
structure Appenders where
  isFile : Nat → Bool
  level : Nat → Level
  formatter : Nat → LogFormatter

section system
variable (strftime : String → UInt64 → String) (A : Appenders)

/-- Thread `t` takes the mutex of `a` for `r`, and is at `next` when it gives it back. -/
def Printing.enter (s : Printing) (t a : Nat) (r : Request) (next : Phase) : Option Printing :=
  (s.shared.enter t a (r.updates strftime (s.shared.data a))).map fun shared =>
    { s with shared := shared, phase := Function.update s.phase t next }

/-- What a step adds to `std::cout`. -/
def chunk (a : Nat) : Update → List (Nat × String)
  | .write str => if A.isFile a then [] else [(a, str)]
  | _ => []

/-- A step of a thread that is in no section. -/
def Printing.goOn (s : Printing) (t : Nat) : Option Printing :=
  match s.phase t with
  | .idle => none
  | .passed a level event =>
    let next :=
      if A.isFile a = true ∧ s.lastTime a + 3 ≤ event.time then .reopening a level event
      else .printing a level event
    some { s with phase := Function.update s.phase t next }
  | .reopening a level event => s.enter strftime t a .reopen (.stamping a level event)
  | .stamping a level event =>
    some { s with
      lastTime := Function.update s.lastTime a event.time
      phase := Function.update s.phase t (.printing a level event) }
  | .printing a level event => s.enter strftime t a (.log level event) .idle

/-- A call can be made by a thread that is in none. -/
def Printing.free (s : Printing) (t : Nat) : Bool :=
  match s.phase t, s.shared.inside t with
  | .idle, none => true
  | _, _ => false

def Printing.step (s : Printing) : PrintLabel → Option Printing
  | .log t a level event =>
    if !s.free t then none
    else if (s.level a).val ≤ level.val then
      some { s with phase := Function.update s.phase t (.passed a level event) }
    else some s
  | .setLevel a val => some { s with level := Function.update s.level a val }
  | .reopen t a => if s.free t && A.isFile a then s.enter strftime t a .reopen .idle else none
  | .setFormatter t a val =>
    if s.free t then s.enter strftime t a (.setFormatter val) .idle else none
  | .step t =>
    match s.shared.inside t with
    | some (a, u :: _) => (s.shared.advance Update.act t).map fun shared =>
      { s with shared := shared, cout := s.cout ++ chunk A a u }
    | some (_, []) => (s.shared.leave t).map fun shared => { s with shared := shared }
    | none => s.goOn strftime A t

def printing : System Printing PrintLabel where
  init :=
    { level := A.level, lastTime := fun _ => 0, cout := [], phase := fun _ => .idle
      shared := .initial fun a =>
        { formatter := A.formatter a, stream := (FileLogAppender.new "").filestream } }
  step := Printing.step strftime A

end system

/-! ### What has happened -/

/-- The calls of `log` that have passed the level, and the sections that have been
    entered, both with their threads. -/
structure History where
  passed : List (Nat × Nat × Level × LogEvent)
  requests : List (Nat × Nat × Request)

section history
variable (strftime : String → UInt64 → String) (A : Appenders)

/-- The section that a step enters. -/
def Printing.entered (s : Printing) : PrintLabel → Option (Nat × Nat × Request)
  | .reopen t a => some (t, a, .reopen)
  | .setFormatter t a val => some (t, a, .setFormatter val)
  | .step t =>
    match s.shared.inside t, s.phase t with
    | none, .reopening a _ _ => some (t, a, .reopen)
    | none, .printing a level event => some (t, a, .log level event)
    | _, _ => none
  | _ => none

/-- The call that a step lets pass. -/
def Printing.passes (s : Printing) : PrintLabel → Option (Nat × Nat × Level × LogEvent)
  | .log t a level event =>
    if (s.level a).val ≤ level.val then some (t, a, level, event) else none
  | _ => none

def History.add (h : History) (s : Printing) (l : PrintLabel) : History where
  passed := h.passed ++ (s.passes l).toList
  requests := h.requests ++ (s.entered l).toList

/-- The threads, with what has happened. -/
def watched : System (Printing × History) PrintLabel :=
  (printing strftime A).withHistory { passed := [], requests := [] } History.add

/-- The sections of appender `a`, in the order in which its mutex was taken. -/
def History.requestsOf (h : History) (a : Nat) : List Request :=
  h.requests.filterMap fun r => if r.2.1 = a then some r.2.2 else none

/-- The formatter and the text after these sections of `a`, each run as a whole. -/
def Appenders.textAfter (a : Nat) (rs : List Request) : LogFormatter × String :=
  rs.foldl (Request.text strftime) (A.formatter a, "")

/-- What can be seen of an appender's text after sections, the last of which may not be
    at its end. -/
inductive Shows (a : Nat) : List Request → String → Prop where
  | whole (rs) : Shows a rs (A.textAfter strftime a rs).2
  /-- Some items of the last line have been written. -/
  | part (rs level event) (done rest : String) :
      (A.textAfter strftime a rs).1.format strftime level event = done ++ rest →
      Shows a (rs ++ [.log level event]) ((A.textAfter strftime a rs).2 ++ done)
  /-- The file has not been opened yet. -/
  | closing (rs) : Shows a (rs ++ [.reopen]) (A.textAfter strftime a rs).2

end history

/-! ### The sections of one appender -/

/-- An appender in use, with this formatter and text. -/
def ready (p : LogFormatter × String) : Output :=
  { formatter := p.1, stream := { isOpen := true, fail := false, content := p.2 } }

section sections
variable {strftime : String → UInt64 → String} {A : Appenders}

/-- Lines are written item by item. -/
theorem actAll_write (d : Output) (items : List String) (hopen : d.stream.isOpen = true)
    (hfail : d.stream.fail = false) : Sections.actAll Update.act d (items.map .write) =
      { d with stream := { d.stream with content := d.stream.content ++ String.join items } } := by
  induction items generalizing d with
  | nil => simp [Sections.actAll]
  | cons str items ih =>
    have hwrite : Update.act (.write str) d
        = { d with stream := { d.stream with content := d.stream.content ++ str } } := by
      simp [Update.act, Ofstream.write, hopen, hfail]
    have hrest :=
      ih (Update.act (.write str) d) (by rw [hwrite]; exact hopen) (by rw [hwrite]; exact hfail)
    rw [List.map_cons]
    show Sections.actAll Update.act (Update.act (.write str) d) (items.map .write) = _
    rw [hrest, hwrite]
    simp [String.append_assoc]

/-- A section that is run as a whole. -/
theorem actAll_updates (p : LogFormatter × String) (r : Request) :
    Sections.actAll Update.act (ready p) (r.updates strftime (ready p))
      = ready (r.text strftime p) := by
  cases r with
  | log level event =>
    have hitems : (Request.log level event).updates strftime (ready p)
        = (p.1.items.map fun i => i.format strftime level event).map .write := by
      rw [List.map_map]
      rfl
    rw [hitems, actAll_write _ _ rfl rfl]
    rfl
  | reopen => rfl
  | setFormatter val => rfl

theorem textAfter_snoc (a : Nat) (rs : List Request) (r : Request) :
    A.textAfter strftime a (rs ++ [r]) = r.text strftime (A.textAfter strftime a rs) :=
  List.foldl_append.trans rfl

/-- A section of `a` that has begun: `r` is the last of its sections, `done` has been
    done of it and `us` not yet. -/
def Begun (strftime : String → UInt64 → String) (A : Appenders) (a : Nat) (rs : List Request)
    (d : Output) (us : List Update) : Prop :=
  ∃ pre r done, rs = pre ++ [r] ∧
    r.updates strftime (ready (A.textAfter strftime a pre)) = done ++ us ∧
    d = Sections.actAll Update.act (ready (A.textAfter strftime a pre)) done

/-- What the sections have made of the outputs; `rs a` are those of `a`. -/
structure SectionsInv (strftime : String → UInt64 → String) (A : Appenders)
    (sh : Sections Nat Nat Output Update) (rs : Nat → List Request) : Prop where
  owned : sh.Owned
  settled : ∀ a, sh.settled Update.act a = ready (A.textAfter strftime a (rs a))
  begun : ∀ t a us, sh.inside t = some (a, us) → Begun strftime A a (rs a) (sh.data a) us

variable {sh sh' : Sections Nat Nat Output Update} {rs : Nat → List Request} {t : Nat}

/-- A section that is entered is the last one, and nothing has been done of it. -/
theorem SectionsInv.enter (h : SectionsInv strftime A sh rs) {a : Nat} {r : Request}
    (henter : sh.enter t a (r.updates strftime (sh.data a)) = some sh') :
    SectionsInv strftime A sh' (Function.update rs a (rs a ++ [r])) := by
  have ⟨howned, hsettled⟩ : sh'.Owned ∧ sh'.settled Update.act = _ := h.owned.enter henter
  obtain ⟨hfree, hout, rfl⟩ := Sections.enter_eq_some.mp henter
  have hdata : sh.data a = ready (A.textAfter strftime a (rs a)) :=
    (Sections.settled_free hfree).symm.trans (h.settled a)
  refine ⟨howned, ?_, ?_⟩
  · intro b
    rw [hsettled]
    by_cases hb : b = a
    · subst hb
      rw [Function.update_self, Function.update_self, h.settled, hdata, actAll_updates,
        textAfter_snoc]
    · rw [Function.update_of_ne hb, Function.update_of_ne hb]
      exact h.settled b
  · intro t' b us hinside
    by_cases ht : t' = t
    · subst ht
      simp only [Function.update_self] at hinside
      cases hinside
      rw [Function.update_self]
      exact ⟨rs a, r, [], rfl, by rw [hdata]; rfl, hdata⟩
    · simp only [Function.update_of_ne ht] at hinside
      have hb : b ≠ a := by
        rintro rfl
        exact nomatch hfree.symm.trans ((h.owned t' b).mpr ⟨us, hinside⟩)
      rw [Function.update_of_ne hb]
      exact h.begun t' b us hinside

theorem SectionsInv.advance (h : SectionsInv strftime A sh rs)
    (hadvance : sh.advance Update.act t = some sh') : SectionsInv strftime A sh' rs := by
  obtain ⟨howned, hsettled⟩ := h.owned.advance hadvance
  obtain ⟨a, u, us, hinside, rfl⟩ := Sections.advance_eq_some.mp hadvance
  refine ⟨howned, fun b => hsettled ▸ h.settled b, ?_⟩
  intro t' b us' hinside'
  by_cases ht : t' = t
  · subst ht
    simp only [Function.update_self] at hinside'
    cases hinside'
    obtain ⟨pre, r, done, hrs, hupdates, hdata⟩ := h.begun t' a _ hinside
    refine ⟨pre, r, done ++ [u], hrs, by rw [hupdates, List.append_assoc]; rfl, ?_⟩
    simp only [Function.update_self]
    rw [hdata, Sections.actAll_snoc]
  · simp only [Function.update_of_ne ht] at hinside'
    have hb : b ≠ a := by
      rintro rfl
      exact ht (h.owned.owner_unique hinside' hinside)
    simp only [Function.update_of_ne hb]
    exact h.begun t' b us' hinside'

theorem SectionsInv.leave (h : SectionsInv strftime A sh rs) (hleave : sh.leave t = some sh') :
    SectionsInv strftime A sh' rs := by
  have ⟨howned, hsettled⟩ : sh'.Owned ∧ sh'.settled Update.act = sh.settled Update.act :=
    h.owned.leave hleave
  obtain ⟨a, -, rfl⟩ := Sections.leave_eq_some.mp hleave
  refine ⟨howned, fun b => hsettled ▸ h.settled b, ?_⟩
  intro t' b us hinside
  by_cases ht : t' = t
  · subst ht
    simp only [Function.update_self] at hinside
    exact nomatch hinside
  · simp only [Function.update_of_ne ht] at hinside
    exact h.begun t' b us hinside

end sections

/-! ### What a step can be -/

section steps
variable (strftime : String → UInt64 → String) (A : Appenders)

/-- The steps of the threads, one constructor for each way a step can go. -/
inductive Printing.Goes (s : Printing) : PrintLabel → Printing → Prop where
  | passed {t a level event} : s.free t = true → (s.level a).val ≤ level.val →
    Goes s (.log t a level event)
      { s with phase := Function.update s.phase t (.passed a level event) }
  | dropped {t a level event} : ¬ (s.level a).val ≤ level.val → Goes s (.log t a level event) s
  | setLevel {a val} : Goes s (.setLevel a val) { s with level := Function.update s.level a val }
  | reopen {t a sh} : s.free t = true → A.isFile a = true →
    s.shared.enter t a (Request.reopen.updates strftime (s.shared.data a)) = some sh →
    Goes s (.reopen t a) { s with shared := sh, phase := Function.update s.phase t .idle }
  | setFormatter {t a val sh} : s.free t = true →
    s.shared.enter t a ((Request.setFormatter val).updates strftime (s.shared.data a)) = some sh →
    Goes s (.setFormatter t a val) { s with shared := sh, phase := Function.update s.phase t .idle }
  | advance {t a u us sh} : s.shared.inside t = some (a, u :: us) →
    s.shared.advance Update.act t = some sh →
    Goes s (.step t) { s with shared := sh, cout := s.cout ++ chunk A a u }
  | leave {t a sh} : s.shared.inside t = some (a, []) → s.shared.leave t = some sh →
    Goes s (.step t) { s with shared := sh }
  | look {t a level event next} : s.shared.inside t = none → s.phase t = .passed a level event →
    next = .reopening a level event ∧ A.isFile a = true ∨ next = .printing a level event →
    Goes s (.step t) { s with phase := Function.update s.phase t next }
  | reopenLate {t a level event sh} :
      s.shared.inside t = none → s.phase t = .reopening a level event →
    s.shared.enter t a (Request.reopen.updates strftime (s.shared.data a)) = some sh →
    Goes s (.step t)
      { s with shared := sh, phase := Function.update s.phase t (.stamping a level event) }
  | stamp {t a level event} : s.shared.inside t = none → s.phase t = .stamping a level event →
    Goes s (.step t) { s with
      lastTime := Function.update s.lastTime a event.time
      phase := Function.update s.phase t (.printing a level event) }
  | print {t a level event sh} :
      s.shared.inside t = none → s.phase t = .printing a level event →
    s.shared.enter t a ((Request.log level event).updates strftime (s.shared.data a)) = some sh →
    Goes s (.step t) { s with shared := sh, phase := Function.update s.phase t .idle }

variable {strftime A} {s s' : Printing} {l : PrintLabel}

theorem Printing.enter_eq_some {t a : Nat} {r : Request} {next : Phase}
    (h : s.enter strftime t a r next = some s') :
    ∃ sh, s.shared.enter t a (r.updates strftime (s.shared.data a)) = some sh ∧
      s' = { s with shared := sh, phase := Function.update s.phase t next } := by
  obtain ⟨sh, hsh, rfl⟩ := Option.map_eq_some_iff.mp h
  exact ⟨sh, hsh, rfl⟩

theorem Printing.goes_on {t : Nat} (hout : s.shared.inside t = none)
    (h : s.goOn strftime A t = some s') : s.Goes strftime A (.step t) s' := by
  unfold goOn at h
  split at h
  · exact nomatch h
  · rename_i a level event hphase
    cases h
    refine .look hout hphase ?_
    split
    · rename_i hlate
      exact .inl ⟨rfl, hlate.1⟩
    · exact .inr rfl
  · rename_i a level event hphase
    obtain ⟨sh, hsh, rfl⟩ := enter_eq_some h
    exact .reopenLate hout hphase hsh
  · rename_i a level event hphase
    cases h
    exact .stamp hout hphase
  · rename_i a level event hphase
    obtain ⟨sh, hsh, rfl⟩ := enter_eq_some h
    exact .print hout hphase hsh

theorem Printing.goes (h : s.step strftime A l = some s') : s.Goes strftime A l s' := by
  cases l with
  | log t a level event =>
    simp only [step] at h
    split at h
    · exact nomatch h
    · rename_i hfree
      split at h
      · rename_i hlevel
        cases h
        exact .passed (by simpa using hfree) hlevel
      · rename_i hlevel
        cases h
        exact .dropped hlevel
  | setLevel a val =>
    cases h
    exact .setLevel
  | reopen t a =>
    simp only [step] at h
    split at h
    · rename_i hguard
      obtain ⟨hfree, hfile⟩ := Bool.and_eq_true_iff.mp hguard
      obtain ⟨sh, hsh, rfl⟩ := enter_eq_some h
      exact .reopen hfree hfile hsh
    · exact nomatch h
  | setFormatter t a val =>
    simp only [step] at h
    split at h
    · rename_i hfree
      obtain ⟨sh, hsh, rfl⟩ := enter_eq_some h
      exact .setFormatter hfree hsh
    · exact nomatch h
  | step t =>
    simp only [step] at h
    split at h
    · rename_i a u us hinside
      obtain ⟨sh, hsh, rfl⟩ := Option.map_eq_some_iff.mp h
      exact .advance hinside hsh
    · rename_i a hinside
      obtain ⟨sh, hsh, rfl⟩ := Option.map_eq_some_iff.mp h
      exact .leave hinside hsh
    · rename_i hout
      exact goes_on hout h

end steps

/-! ### Every line is whole -/

section whole
variable {strftime : String → UInt64 → String} {A : Appenders} {s s' : Printing} {h : History}
  {l : PrintLabel}

theorem requestsOf_entered {t a : Nat} {r : Request} (hentered : s.entered l = some (t, a, r)) :
    (h.add s l).requestsOf = Function.update h.requestsOf a (h.requestsOf a ++ [r]) := by
  funext b
  by_cases hb : b = a
  · subst hb
    simp [History.requestsOf, History.add, hentered]
  · have hb' : a ≠ b := fun heq => hb heq.symm
    simp [History.requestsOf, History.add, hentered, hb, hb']

theorem requestsOf_none (hentered : s.entered l = none) :
    (h.add s l).requestsOf = h.requestsOf := by
  funext b
  simp [History.requestsOf, History.add, hentered]

theorem entered_inside {t : Nat} {i : Nat × List Update} (hinside : s.shared.inside t = some i) :
    s.entered (.step t) = none := by
  simp only [Printing.entered, hinside]

theorem entered_reopening {t a : Nat} {level : Level} {event : LogEvent}
    (hout : s.shared.inside t = none) (hphase : s.phase t = .reopening a level event) :
    s.entered (.step t) = some (t, a, .reopen) := by
  simp only [Printing.entered, hout, hphase]

theorem entered_printing {t a : Nat} {level : Level} {event : LogEvent}
    (hout : s.shared.inside t = none) (hphase : s.phase t = .printing a level event) :
    s.entered (.step t) = some (t, a, .log level event) := by
  simp only [Printing.entered, hout, hphase]

theorem sectionsInv_goes (hinv : SectionsInv strftime A s.shared h.requestsOf)
    (hgoes : s.Goes strftime A l s') : SectionsInv strftime A s'.shared (h.add s l).requestsOf := by
  cases hgoes with
  | passed | dropped | setLevel =>
    rw [requestsOf_none rfl]
    exact hinv
  | reopen _ _ hsh | setFormatter _ hsh =>
    rw [requestsOf_entered rfl]
    exact hinv.enter hsh
  | advance hinside hsh =>
    rw [requestsOf_none (entered_inside hinside)]
    exact hinv.advance hsh
  | leave hinside hsh =>
    rw [requestsOf_none (entered_inside hinside)]
    exact hinv.leave hsh
  | look hout hphase _ | stamp hout hphase =>
    rw [requestsOf_none (by simp only [Printing.entered, hout, hphase])]
    exact hinv
  | reopenLate hout hphase hsh =>
    rw [requestsOf_entered (entered_reopening hout hphase)]
    exact hinv.enter hsh
  | print hout hphase hsh =>
    rw [requestsOf_entered (entered_printing hout hphase)]
    exact hinv.enter hsh

theorem sectionsInv_reachable : ∀ p, (watched strftime A).Reachable p →
    SectionsInv strftime A p.1.shared p.2.requestsOf := by
  apply System.invariant
  · exact ⟨Sections.owned_initial _, fun a => by rw [Sections.settled_free rfl]; rfl, nofun⟩
  · intro p l p' hinv hstep
    obtain ⟨hstep, hh⟩ := System.withHistory_step.mp hstep
    rw [hh]
    exact sectionsInv_goes hinv (Printing.goes hstep)

/-- A section that is not at its end shows the beginning of a line, or what was there
    before. -/
theorem shows_of_begun {a : Nat} {rs : List Request} {d : Output} {us : List Update}
    (hbegun : Begun strftime A a rs d us) : Shows strftime A a rs d.stream.content := by
  obtain ⟨pre, r, done, rfl, hupdates, rfl⟩ := hbegun
  cases r with
  | log level event =>
    have hitems :
        ((A.textAfter strftime a pre).1.items.map fun i => i.format strftime level event).map
        Update.write = done ++ us := by
      rw [← hupdates, List.map_map]
      rfl
    obtain ⟨items, rest, hsplit, rfl, -⟩ := List.map_eq_append_iff.mp hitems
    rw [actAll_write _ _ rfl rfl]
    refine .part pre level event _ (String.join rest) ?_
    unfold LogFormatter.format
    rw [hsplit, String.join_append]
  | reopen =>
    rcases List.append_eq_cons_iff.mp hupdates.symm with ⟨rfl, -⟩ | ⟨done, rfl, hrest⟩
    · exact .closing pre
    · rcases List.append_eq_cons_iff.mp hrest.symm with ⟨rfl, -⟩ | ⟨done', rfl, hnil⟩
      · exact .closing pre
      · obtain ⟨rfl, -⟩ := List.append_eq_nil_iff.mp hnil.symm
        have hwhole : Shows strftime A a (pre ++ [.reopen]) _ := .whole (pre ++ [.reopen])
        rw [textAfter_snoc] at hwhole
        exact hwhole
  | setFormatter val =>
    have hwhole : Shows strftime A a (pre ++ [.setFormatter val]) _ :=
      .whole (pre ++ [.setFormatter val])
    rw [textAfter_snoc] at hwhole
    rcases List.append_eq_cons_iff.mp hupdates.symm with ⟨rfl, -⟩ | ⟨done, rfl, hrest⟩
    · exact hwhole
    · obtain ⟨rfl, -⟩ := List.append_eq_nil_iff.mp hrest.symm
      exact hwhole

theorem content_free {a : Nat} (hinv : SectionsInv strftime A s.shared h.requestsOf)
    (howner : s.shared.owner a = none) :
    (s.shared.data a).stream.content = (A.textAfter strftime a (h.requestsOf a)).2 := by
  have hsettled := hinv.settled a
  rw [Sections.settled_free howner] at hsettled
  rw [hsettled]
  rfl

/-- In every interleaving and at any time, an appender shows the whole lines of its
    sections since the last reopen, in the order in which its mutex was taken, and of
    the thread that holds the mutex at most the beginning of its line, or the text that
    it is about to drop. While nobody holds the mutex, all lines are whole. -/
theorem content_lines {s : Printing} {h : History} (hs : (watched strftime A).Reachable (s, h))
    (a : Nat) : Shows strftime A a (h.requestsOf a) (s.shared.data a).stream.content ∧
      (s.shared.owner a = none →
        (s.shared.data a).stream.content = (A.textAfter strftime a (h.requestsOf a)).2) := by
  have hinv := sectionsInv_reachable _ hs
  refine ⟨?_, content_free hinv⟩
  cases howner : s.shared.owner a with
  | none =>
    rw [content_free hinv howner]
    exact .whole _
  | some t =>
    obtain ⟨us, hinside⟩ := (hinv.owned t a).mp howner
    exact shows_of_begun (hinv.begun t a us hinside)

/-- A family of file appenders. -/
def files : Appenders :=
  { isFile := fun _ => true, level := fun _ => .DEBUG, formatter := fun _ => .new "%m%n" }

/-- Thread 1 has written the message of its line, and not yet the newline. -/
def halfLine : List PrintLabel :=
  [.log 1 0 .INFO (eventAt 2 "x"), .step 1, .step 1, .step 1]

theorem half_exec : ∃ s h,
    (watched (fun _ _ => "") files).exec (watched (fun _ _ => "") files).init halfLine
      = some (s, h) ∧
      (s.shared.data 0).stream.content = "x" :=
  ⟨_, _, rfl, rfl⟩

theorem content_lines_half : ∃ s h,
    (watched (fun _ _ => "") files).exec (watched (fun _ _ => "") files).init halfLine
      = some (s, h) ∧
      (s.shared.data 0).stream.content = "x" ∧
      Shows (fun _ _ => "") files 0 (h.requestsOf 0) (s.shared.data 0).stream.content ∧
      (s.shared.owner 0 = none →
        (s.shared.data 0).stream.content
          = (files.textAfter (fun _ _ => "") 0 (h.requestsOf 0)).2) :=
  have ⟨s, h, hexec, hcontent⟩ := half_exec
  ⟨s, h, hexec, hcontent, content_lines (System.reachable_iff_exec.mpr ⟨halfLine, hexec⟩) 0⟩

/-! ### The lines of the calls -/

/-- The call of `log` that a thread has not written yet. -/
def Phase.call : Phase → Option (Nat × Level × LogEvent)
  | .idle => none
  | .passed a level event | .reopening a level event | .stamping a level event
  | .printing a level event => some (a, level, event)

/-- The calls of thread `t` that have passed the level. -/
def History.passedBy (h : History) (t : Nat) : List (Nat × Level × LogEvent) :=
  h.passed.filterMap fun c => if c.1 = t then some c.2 else none

/-- The line that a section writes. -/
def Request.line (a : Nat) : Request → Option (Nat × Level × LogEvent)
  | .log level event => some (a, level, event)
  | _ => none

/-- The lines that thread `t` has begun to write. -/
def History.linesBy (h : History) (t : Nat) : List (Nat × Level × LogEvent) :=
  h.requests.filterMap fun r => if r.1 = t then r.2.2.line r.2.1 else none

/-- The calls that have passed, and the lines of them. -/
def CallsInv (s : Printing) (h : History) : Prop :=
  ∀ t, h.passedBy t = h.linesBy t ++ (s.phase t).call.toList

theorem Printing.free_phase {t : Nat} (h : s.free t = true) :
    s.phase t = .idle ∧ s.shared.inside t = none := by
  unfold free at h
  split at h
  · exact ⟨‹_›, ‹_›⟩
  · exact nomatch h

theorem filterMap_toList {α β : Type} (f : α → Option β) (o : Option α) :
    o.toList.filterMap f = (o.bind f).toList := by
  cases o with
  | none => rfl
  | some a => cases hf : f a <;> simp [hf]

theorem passedBy_add (t : Nat) : (h.add s l).passedBy t
    = h.passedBy t ++ ((s.passes l).bind fun c => if c.1 = t then some c.2 else none).toList := by
  simp only [History.passedBy, History.add, List.filterMap_append, filterMap_toList]

theorem linesBy_add (t : Nat) : (h.add s l).linesBy t
    = h.linesBy t ++
      ((s.entered l).bind fun r => if r.1 = t then r.2.2.line r.2.1 else none).toList := by
  simp only [History.linesBy, History.add, List.filterMap_append, filterMap_toList]

/-- A step moves a call of one thread: it passes, it goes on, or its line is begun. -/
theorem callsInv_goes (hinv : CallsInv s h) (hgoes : s.Goes strftime A l s') :
    CallsInv s' (h.add s l) := by
  intro t'
  rw [passedBy_add, linesBy_add, hinv t']
  cases hgoes with
  | @passed t a level event hfree hlevel =>
    by_cases ht : t = t'
    · subst ht
      simp [Printing.passes, Printing.entered, hlevel, Phase.call, (Printing.free_phase hfree).1]
    · simp [Printing.passes, Printing.entered, hlevel, ht, Function.update_of_ne (Ne.symm ht)]
  | dropped hlevel => simp [Printing.passes, Printing.entered, hlevel]
  | setLevel => simp [Printing.passes, Printing.entered]
  | @reopen t a sh hfree _ _ | @setFormatter t a val sh hfree _ =>
    -- a section without a line
    by_cases ht : t = t'
    · subst ht
      simp [Printing.passes, Printing.entered, Request.line, Phase.call,
        (Printing.free_phase hfree).1]
    · simp [Printing.passes, Printing.entered, ht, Function.update_of_ne (Ne.symm ht)]
  | advance hinside _ | leave hinside _ => simp [Printing.passes, entered_inside hinside]
  | @look t a level event next hout hphase hnext =>
    have hentered : s.entered (.step t) = none := by simp only [Printing.entered, hout, hphase]
    have hcall : next.call = (s.phase t).call := by
      rw [hphase]
      rcases hnext with ⟨rfl, -⟩ | rfl <;> rfl
    by_cases ht : t = t'
    · subst ht
      simp [Printing.passes, hentered, hcall]
    · simp [Printing.passes, hentered, Function.update_of_ne (Ne.symm ht)]
  | @reopenLate t a level event sh hout hphase _ =>
    by_cases ht : t = t'
    · subst ht
      simp [Printing.passes, entered_reopening hout hphase, hphase, Request.line, Phase.call]
    · simp [Printing.passes, entered_reopening hout hphase, ht, Function.update_of_ne (Ne.symm ht)]
  | @stamp t a level event hout hphase =>
    have hentered : s.entered (.step t) = none := by simp only [Printing.entered, hout, hphase]
    by_cases ht : t = t'
    · subst ht
      simp [Printing.passes, hentered, hphase, Phase.call]
    · simp [Printing.passes, hentered, Function.update_of_ne (Ne.symm ht)]
  | @print t a level event sh hout hphase _ =>
    by_cases ht : t = t'
    · subst ht
      simp [Printing.passes, entered_printing hout hphase, hphase, Request.line, Phase.call]
    · simp [Printing.passes, entered_printing hout hphase, ht, Function.update_of_ne (Ne.symm ht)]

/-- In every interleaving, the lines that a thread has begun to write are those of its
    calls of `log` that have passed the level, one for each and in the order of the calls,
    but for the last call as long as the thread is in it before the section. -/
theorem lines_of_calls {s : Printing} {h : History} (hs : (watched strftime A).Reachable (s, h))
    (t : Nat) : h.passedBy t = h.linesBy t ++ (s.phase t).call.toList := by
  have hreach : ∀ p, (watched strftime A).Reachable p → CallsInv p.1 p.2 := by
    apply System.invariant
    · intro t'
      rfl
    · intro p l p' hinv hstep
      obtain ⟨hstep, hh⟩ := System.withHistory_step.mp hstep
      rw [hh]
      exact callsInv_goes hinv (Printing.goes hstep)
  exact hreach _ hs t

theorem lines_of_calls_half : ∃ s h,
    (watched (fun _ _ => "") files).exec (watched (fun _ _ => "") files).init halfLine
      = some (s, h) ∧
      h.passedBy 1 = h.linesBy 1 ++ (s.phase 1).call.toList :=
  have ⟨s, h, hexec, _⟩ := half_exec
  ⟨s, h, hexec, lines_of_calls (System.reachable_iff_exec.mpr ⟨halfLine, hexec⟩) 1⟩

/-! ### The standard output -/

/-- What is to be seen of `std::cout`. -/
def Printing.coutText (s : Printing) : String :=
  String.join (s.cout.map Prod.snd)

/-- What appender `a` has written there. -/
def Printing.coutOf (s : Printing) (a : Nat) : String :=
  String.join ((s.cout.filter fun c => c.1 = a).map Prod.snd)

/-- The update leaves an open stream open. -/
def Update.Writes : Update → Prop
  | .write _ | .setFormatter _ => True
  | .close | .open => False

/-- An appender to the standard output is never reopened, and all it writes is there. -/
structure CoutInv (A : Appenders) (s : Printing) (h : History) : Prop where
  phase : ∀ t a level event, s.phase t = .reopening a level event → A.isFile a = true
  updates :
    ∀ t a us, s.shared.inside t = some (a, us) → A.isFile a = false → ∀ u ∈ us, u.Writes
  stream : ∀ a, A.isFile a = false →
    (s.shared.data a).stream = { isOpen := true, fail := false, content := s.coutOf a }
  foreign : ∀ c ∈ s.cout, A.isFile c.1 = false
  requests : ∀ r ∈ h.requests, r.2.2 = .reopen → A.isFile r.2.1 = true

theorem writes_updates {d : Output} {r : Request} (hr : r ≠ .reopen) :
    ∀ u ∈ r.updates strftime d, u.Writes := by
  intro u hu
  cases r with
  | log level event =>
    obtain ⟨i, -, rfl⟩ := List.mem_map.mp hu
    trivial
  | reopen => exact absurd rfl hr
  | setFormatter val =>
    rw [List.mem_singleton.mp hu]
    trivial

/-- A step outside the sections. -/
theorem CoutInv.move (hinv : CoutInv A s h) {t : Nat} {next : Phase} {h' : History}
    (hrequests : h'.requests = h.requests)
    (hnext : ∀ a level event, next = .reopening a level event → A.isFile a = true)
    (lastTime : Nat → UInt64) :
    CoutInv A { s with lastTime := lastTime, phase := Function.update s.phase t next } h' where
  phase t' a level event hreopening := by
    by_cases ht : t' = t
    · subst ht
      simp only [Function.update_self] at hreopening
      exact hnext a level event hreopening
    · simp only [Function.update_of_ne ht] at hreopening
      exact hinv.phase t' a level event hreopening
  updates := hinv.updates
  stream := hinv.stream
  foreign := hinv.foreign
  requests := hrequests ▸ hinv.requests

/-- A section is entered. -/
theorem CoutInv.enter (hinv : CoutInv A s h) {t a : Nat} {r : Request} {next : Phase}
    {sh : Sections Nat Nat Output Update} {h' : History}
    (henter : s.shared.enter t a (r.updates strftime (s.shared.data a)) = some sh)
    (hr : r = .reopen → A.isFile a = true)
    (hnext : next.call = none ∨ ∃ b level event, next = .stamping b level event)
    (hrequests : h'.requests = h.requests ++ [(t, a, r)]) :
    CoutInv A { s with shared := sh, phase := Function.update s.phase t next } h' := by
  obtain ⟨-, -, rfl⟩ := Sections.enter_eq_some.mp henter
  refine ⟨?_, ?_, hinv.stream, hinv.foreign, ?_⟩
  · intro t' b level event hreopening
    by_cases ht : t' = t
    · subst ht
      simp only [Function.update_self] at hreopening
      subst hreopening
      rcases hnext with hnone | ⟨_, _, _, heq⟩
      · exact nomatch hnone
      · exact nomatch heq
    · simp only [Function.update_of_ne ht] at hreopening
      exact hinv.phase t' b level event hreopening
  · intro t' b us hinside hb
    by_cases ht : t' = t
    · subst ht
      simp only [Function.update_self] at hinside
      cases hinside
      apply writes_updates
      intro hreopen
      exact nomatch (hr hreopen).symm.trans hb
    · simp only [Function.update_of_ne ht] at hinside
      exact hinv.updates t' b us hinside hb
  · rw [hrequests]
    intro q hq
    rcases List.mem_append.mp hq with hq | hq
    · exact hinv.requests q hq
    · rw [List.mem_singleton.mp hq]
      exact hr

theorem coutOf_append (cout : List (Nat × String)) (a b : Nat) (u : Update) :
    String.join (((cout ++ chunk A a u).filter fun c => c.1 = b).map Prod.snd)
      = String.join ((cout.filter fun c => c.1 = b).map Prod.snd) ++
        String.join (((chunk A a u).filter fun c => c.1 = b).map Prod.snd) := by
  rw [List.filter_append, List.map_append, String.join_append]

/-- An update is made; what it writes to the standard output is seen there. -/
theorem CoutInv.advance (hinv : CoutInv A s h) {t a : Nat} {u : Update} {us : List Update}
    {sh : Sections Nat Nat Output Update} {h' : History}
    (hinside : s.shared.inside t = some (a, u :: us))
    (hadvance : s.shared.advance Update.act t = some sh) (hrequests : h'.requests = h.requests) :
    CoutInv A { s with shared := sh, cout := s.cout ++ chunk A a u } h' := by
  obtain ⟨a', u', us', hinside', rfl⟩ := Sections.advance_eq_some.mp hadvance
  obtain ⟨rfl, rfl, rfl⟩ : a' = a ∧ u' = u ∧ us' = us := by
    rw [hinside] at hinside'
    cases hinside'
    exact ⟨rfl, rfl, rfl⟩
  refine ⟨hinv.phase, ?_, ?_, ?_, hrequests ▸ hinv.requests⟩
  · intro t' b us hinside'' hb
    by_cases ht : t' = t
    · subst ht
      simp only [Function.update_self] at hinside''
      cases hinside''
      exact fun v hv => hinv.updates t' _ _ hinside hb v (List.mem_cons_of_mem _ hv)
    · simp only [Function.update_of_ne ht] at hinside''
      exact hinv.updates t' b us hinside'' hb
  · intro b hb
    simp only [Printing.coutOf]
    rw [coutOf_append]
    by_cases hba : b = a'
    · subst hba
      have hwrites := hinv.updates t b _ hinside hb u' List.mem_cons_self
      simp only [Function.update_self]
      cases u' with
      | write str =>
        have hstream := hinv.stream b hb
        simp only [Update.act, hstream, chunk, hb, Ofstream.write]
        simp [Printing.coutOf]
      | setFormatter val =>
        have hstream := hinv.stream b hb
        simp only [Update.act, hstream, chunk]
        simp [Printing.coutOf]
      | close => exact hwrites.elim
      | «open» => exact hwrites.elim
    · simp only [Function.update_of_ne hba]
      have hnone : (chunk A a' u').filter (fun c => c.1 = b) = [] := by
        cases u' <;> simp [chunk, Ne.symm hba]
      rw [hnone]
      simpa [Printing.coutOf] using hinv.stream b hb
  · intro c hc
    rcases List.mem_append.mp hc with hc | hc
    · exact hinv.foreign c hc
    · cases u' with
      | write str =>
        cases hfile : A.isFile a' with
        | true => simp [chunk, hfile] at hc
        | false =>
          simp only [chunk, hfile] at hc
          rw [List.mem_singleton.mp hc]
          exact hfile
      | _ => simp [chunk] at hc

theorem coutInv_goes (hinv : CoutInv A s h) (hgoes : s.Goes strftime A l s') :
    CoutInv A s' (h.add s l) := by
  have hnone : s.entered l = none → (h.add s l).requests = h.requests := by
    intro hentered
    simp [History.add, hentered]
  have hsome : ∀ {q}, s.entered l = some q → (h.add s l).requests = h.requests ++ [q] := by
    intro q hentered
    simp [History.add, hentered]
  cases hgoes with
  | passed hfree hlevel =>
    refine hinv.move (hnone rfl) ?_ _
    rintro _ _ _ ⟨⟩
  | dropped hlevel | setLevel =>
    exact ⟨hinv.phase, hinv.updates, hinv.stream, hinv.foreign, (hnone rfl) ▸ hinv.requests⟩
  | reopen hfree hfile hsh => exact hinv.enter hsh (fun _ => hfile) (.inl rfl) (hsome rfl)
  | setFormatter hfree hsh => exact hinv.enter hsh nofun (.inl rfl) (hsome rfl)
  | advance hinside hsh => exact hinv.advance hinside hsh (hnone (entered_inside hinside))
  | @leave t a sh hinside hsh =>
    obtain ⟨a', hinside', rfl⟩ := Sections.leave_eq_some.mp hsh
    refine ⟨hinv.phase, ?_, hinv.stream, hinv.foreign,
      (hnone (entered_inside hinside)) ▸ hinv.requests⟩
    intro t' b us hother hb
    by_cases ht : t' = t
    · subst ht
      simp only [Function.update_self] at hother
      exact nomatch hother
    · simp only [Function.update_of_ne ht] at hother
      exact hinv.updates t' b us hother hb
  | look hout hphase hnext =>
    refine hinv.move (hnone (by simp only [Printing.entered, hout, hphase])) ?_ _
    rintro b level event rfl
    rcases hnext with ⟨heq, hfile⟩ | heq
    · cases heq
      exact hfile
    · exact nomatch heq
  | reopenLate hout hphase hsh =>
    exact hinv.enter hsh (fun _ => hinv.phase _ _ _ _ hphase) (.inr ⟨_, _, _, rfl⟩)
      (hsome (entered_reopening hout hphase))
  | stamp hout hphase =>
    refine hinv.move (hnone (by simp only [Printing.entered, hout, hphase])) ?_ _
    rintro _ _ _ ⟨⟩
  | print hout hphase hsh =>
    exact hinv.enter hsh nofun (.inl rfl) (hsome (entered_printing hout hphase))

theorem coutInv_reachable : ∀ p, (watched strftime A).Reachable p → CoutInv A p.1 p.2 := by
  apply System.invariant
  · exact ⟨nofun, nofun, fun a _ => rfl, nofun, nofun⟩
  · intro p l p' hinv hstep
    obtain ⟨hstep, hh⟩ := System.withHistory_step.mp hstep
    rw [hh]
    exact coutInv_goes hinv (Printing.goes hstep)

end whole

/-- The lines that sections write to the standard output, in the order of the sections;
    `f` is what formatters the appenders have before. -/
def coutLines (strftime : String → UInt64 → String) (A : Appenders) (f : Nat → LogFormatter) :
    List (Nat × Nat × Request) → List String
  | [] => []
  | (_, a, .log level event) :: rs =>
    (if A.isFile a then [] else [(f a).format strftime level event]) ++ coutLines strftime A f rs
  | (_, a, .setFormatter val) :: rs => coutLines strftime A (Function.update f a val) rs
  | (_, _, .reopen) :: rs => coutLines strftime A f rs

/-- The text is made up of whole lines. -/
def WholeLines (ls : List String) (text : String) : Prop :=
  ∃ ls', ls'.Perm ls ∧ text = String.join ls'

section cout
variable {strftime : String → UInt64 → String} {A : Appenders}

/-- With one appender to the standard output, its text is all there is. -/
theorem textAfter_coutLines {a : Nat} (hfile : A.isFile a = false)
    (hothers : ∀ b, A.isFile b = false → b = a) (rs : List (Nat × Nat × Request))
    (hreopen : ∀ r ∈ rs, r.2.2 = .reopen → A.isFile r.2.1 = true) (f : Nat → LogFormatter)
    (text : String) :
    ((rs.filterMap fun r => if r.2.1 = a then some r.2.2 else none).foldl (Request.text strftime)
      (f a, text)).2 = text ++ String.join (coutLines strftime A f rs) := by
  induction rs generalizing f text with
  | nil => simp [coutLines]
  | cons r rs ih =>
    obtain ⟨t, b, r⟩ := r
    have hrest := ih fun r hr => hreopen r (List.mem_cons_of_mem _ hr)
    by_cases hb : b = a
    · subst hb
      cases r with
      | log level event =>
        simp [coutLines, hfile, Request.text, hrest, String.append_assoc]
      | reopen => exact nomatch (hreopen _ List.mem_cons_self rfl).symm.trans hfile
      | setFormatter val =>
        have hnew := hrest (Function.update f b val) text
        simp only [Function.update_self] at hnew
        simpa [coutLines, Request.text] using hnew
    · have hforeign : A.isFile b = true := by
        by_contra hnot
        exact hb (hothers b (by simpa using hnot))
      cases r with
      | log level event => simp [coutLines, hb, hforeign, hrest]
      | reopen => simp [coutLines, hb, hrest]
      | setFormatter val =>
        have hnew := hrest (Function.update f b val) text
        simp only [Function.update_of_ne (Ne.symm hb)] at hnew
        simpa [coutLines, hb] using hnew

theorem coutLines_files (hfiles : ∀ a, A.isFile a = true) (rs : List (Nat × Nat × Request))
    (f : Nat → LogFormatter) : coutLines strftime A f rs = [] := by
  induction rs generalizing f with
  | nil => rfl
  | cons r rs ih =>
    obtain ⟨t, a, _ | _ | _⟩ := r <;> simp [coutLines, hfiles a, ih]

end cout

/-! #### Two appenders there -/

section torn
variable {strftime : String → UInt64 → String} {A : Appenders} {s : Printing} {h : History}

def lineFormatter : LogFormatter := .new "%m%n"

theorem items_line : lineFormatter.items = [.message, .newLine] := by decide

/-- Nobody is in a section or a call. -/
def Printing.Quiet (s : Printing) : Prop :=
  (∀ t, s.phase t = .idle) ∧ (∀ t, s.shared.inside t = none) ∧
    ∀ a, s.shared.owner a = none

theorem watched_step {s' : Printing} {l : PrintLabel} (hs : (watched strftime A).Reachable (s, h))
    (hstep : s.step strftime A l = some s') : (watched strftime A).Reachable (s', h.add s l) :=
  hs.step l (System.withHistory_step.mpr ⟨hstep, rfl⟩)

theorem Level.val_le (l : Level) : l.val ≤ Level.FATAL.val := by
  cases l <;> decide

theorem Printing.free_eq {t : Nat} (hphase : s.phase t = .idle)
    (hinside : s.shared.inside t = none) :
    s.free t = true := by
  simp only [free, hphase, hinside]

theorem reach_begin (hs : (watched strftime A).Reachable (s, h)) {t a : Nat} (event : LogEvent)
    (hphase : ∀ t, s.phase t = .idle) (hinside : s.shared.inside t = none)
    (howner : s.shared.owner a = none) (ha : A.isFile a = false) :
    ∃ s' h', (watched strftime A).Reachable (s', h') ∧ (∀ t, s'.phase t = .idle) ∧
      s'.shared = { s.shared with
        owner := Function.update s.shared.owner a (some t)
        inside := Function.update s.shared.inside t
          (some (a, (Request.log .FATAL event).updates strftime (s.shared.data a))) } ∧
      s'.cout = s.cout ∧ h'.requests = h.requests ++ [(t, a, .log .FATAL event)] := by
  have hlevel := Level.val_le (s.level a)
  let s₁ : Printing := { s with phase := Function.update s.phase t (.passed a .FATAL event) }
  let s₂ : Printing :=
    { s₁ with phase := Function.update s₁.phase t (.printing a .FATAL event) }
  have hphase₁ : s₁.phase t = .passed a .FATAL event := Function.update_self ..
  have hphase₂ : s₂.phase t = .printing a .FATAL event := Function.update_self ..
  have hinside₁ : s₁.shared.inside t = none := hinside
  have hinside₂ : s₂.shared.inside t = none := hinside
  have hstep₁ : s.step strftime A (.log t a .FATAL event) = some s₁ := by
    simp only [Printing.step, Printing.free_eq (hphase t) hinside, Bool.not_true, if_pos hlevel]
    rfl
  have hstep₂ : s₁.step strftime A (.step t) = some s₂ := by
    simp only [Printing.step, hinside₁, Printing.goOn, hphase₁, ha]
    rfl
  obtain ⟨s₃, hstep₃, hs₃⟩ : ∃ s₃, s₂.step strftime A (.step t) = some s₃ ∧
      s₃ = { s₂ with
        shared := { s.shared with
          owner := Function.update s.shared.owner a (some t)
          inside := Function.update s.shared.inside t
            (some (a, (Request.log .FATAL event).updates strftime (s.shared.data a))) }
        phase := Function.update s₂.phase t .idle } := by
    refine ⟨_, ?_, rfl⟩
    simp only [Printing.step, hinside₂, Printing.goOn, hphase₂]
    exact Option.map_eq_some_iff.mpr
      ⟨_, Sections.enter_eq_some.mpr ⟨howner, hinside, rfl⟩, rfl⟩
  refine ⟨s₃, _, watched_step (watched_step (watched_step hs hstep₁) hstep₂) hstep₃, ?_,
    by rw [hs₃], by rw [hs₃], ?_⟩
  · intro t'
    rw [hs₃]
    by_cases ht : t' = t
    · subst ht
      exact Function.update_self ..
    · simp only [s₂, s₁, Function.update_of_ne ht]
      exact hphase t'
  · have hentered₁ : s.entered (.log t a .FATAL event) = none := rfl
    have hentered₂ :
        s₁.entered (.step t) = none := by simp only [Printing.entered, hinside₁, hphase₁]
    have hentered₃ := entered_printing hinside₂ hphase₂
    simp [History.add, hentered₁, hentered₂, hentered₃]

/-- Thread `t` makes an update. -/
theorem reach_advance (hs : (watched strftime A).Reachable (s, h)) (t a : Nat) (u : Update)
    (us : List Update) (hinside : s.shared.inside t = some (a, u :: us)) :
    ∃ s' h', (watched strftime A).Reachable (s', h') ∧
      s'.shared = { s.shared with
        data := Function.update s.shared.data a (u.act (s.shared.data a))
        inside := Function.update s.shared.inside t (some (a, us)) } ∧
      s'.cout = s.cout ++ chunk A a u ∧ s'.phase = s.phase ∧ h'.requests = h.requests := by
  have hadvance : s.shared.advance Update.act t = some _ :=
    Sections.advance_eq_some.mpr ⟨a, u, us, hinside, rfl⟩
  have hstep : s.step strftime A (.step t) = (s.shared.advance Update.act t).map fun shared =>
      { s with shared := shared, cout := s.cout ++ chunk A a u } := by
    simp only [Printing.step, hinside]
  rw [hadvance] at hstep
  refine ⟨_, _, watched_step hs hstep, rfl, rfl, rfl, ?_⟩
  simp [History.add, entered_inside hinside]

/-- Thread `t` leaves its section. -/
theorem reach_leave (hs : (watched strftime A).Reachable (s, h)) (t a : Nat)
    (hinside : s.shared.inside t = some (a, [])) :
    ∃ s' h', (watched strftime A).Reachable (s', h') ∧
      s'.shared = { s.shared with
        owner := Function.update s.shared.owner a none
        inside := Function.update s.shared.inside t none } ∧
      s'.cout = s.cout ∧ s'.phase = s.phase ∧ h'.requests = h.requests := by
  have hleave := Sections.leave_eq_some.mpr ⟨a, hinside, rfl⟩
  have hstep : s.step strftime A (.step t) = (s.shared.leave t).map fun shared =>
      { s with shared := shared } := by
    simp only [Printing.step, hinside]
  rw [hleave] at hstep
  refine ⟨_, _, watched_step hs hstep, rfl, rfl, rfl, ?_⟩
  simp [History.add, entered_inside hinside]

/-- Thread 1 gives an appender a formatter. -/
theorem reach_setFormatter (hs : (watched strftime A).Reachable (s, h)) (a : Nat)
    (val : LogFormatter) (hquiet : s.Quiet) :
    ∃ s' h', (watched strftime A).Reachable (s', h') ∧ s'.Quiet ∧
      s'.shared.data = Function.update s.shared.data a { s.shared.data a with formatter := val } ∧
      s'.cout = s.cout ∧ h'.requests = h.requests ++ [(1, a, .setFormatter val)] := by
  obtain ⟨hphase, hinside, howner⟩ := hquiet
  obtain ⟨s₀, hstep, hshared₀, hcout₀, hphase₀⟩ :
      ∃ s₀, s.step strftime A (.setFormatter 1 a val) = some s₀ ∧
        s₀.shared = { s.shared with
          owner := Function.update s.shared.owner a (some 1)
          inside := Function.update s.shared.inside 1 (some (a, [.setFormatter val])) } ∧
        s₀.cout = s.cout ∧ s₀.phase = Function.update s.phase 1 .idle := by
    have henter : s.shared.enter 1 a [.setFormatter val] = some _ :=
      Sections.enter_eq_some.mpr ⟨howner a, hinside 1, rfl⟩
    have hstep : s.step strftime A (.setFormatter 1 a val)
        = s.enter strftime 1 a (.setFormatter val) .idle := by
      simp only [Printing.step, Printing.free_eq (hphase 1) (hinside 1), if_pos]
    refine ⟨_, hstep.trans (Option.map_eq_some_iff.mpr ⟨_, henter, rfl⟩), rfl, rfl, rfl⟩
  obtain ⟨s₁, h₁, hs₁, hshared₁, hcout₁, hphase₁, hrequests₁⟩ :=
    reach_advance (watched_step hs hstep) 1 a (.setFormatter val) []
      (by simp [hshared₀])
  obtain ⟨s₂, h₂, hs₂, hshared₂, hcout₂, hphase₂, hrequests₂⟩ :=
    reach_leave hs₁ 1 a (by simp [hshared₁])
  have hidle : ∀ t, s₂.phase t = .idle := by
    intro t
    rw [hphase₂, hphase₁, hphase₀]
    by_cases ht : t = 1
    · subst ht
      exact Function.update_self ..
    · exact (Function.update_of_ne ht ..).trans (hphase t)
  have hout : ∀ t, s₂.shared.inside t = none := by
    intro t
    by_cases ht : t = 1
    · simp [hshared₂, ht]
    · simp [hshared₂, hshared₁, hshared₀, ht, hinside t]
  have hfree : ∀ b, s₂.shared.owner b = none := by
    intro b
    by_cases hb : b = a
    · simp [hshared₂, hb]
    · simp [hshared₂, hshared₁, hshared₀, hb, howner b]
  refine ⟨s₂, h₂, hs₂, ⟨hidle, hout, hfree⟩, ?_, ?_, ?_⟩
  · simp [hshared₂, hshared₁, hshared₀, Update.act]
  · simp [hcout₂, hcout₁, hcout₀, chunk]
  · rw [hrequests₂, hrequests₁]
    rfl

/-- Two threads write their lines item by item in turn. -/
theorem reach_torn (strftime : String → UInt64 → String) {a b : Nat} (ha : A.isFile a = false)
    (hb : A.isFile b = false) (hab : a ≠ b) :
    ∃ s h, (watched strftime A).Reachable (s, h) ∧ (∀ t, s.shared.inside t = none) ∧
      s.coutText = "xy\n\n" ∧ coutLines strftime A A.formatter h.requests = ["x\n", "y\n"] := by
  have hinit : (watched strftime A).Reachable (watched strftime A).init := .init
  have hquiet : Printing.Quiet (printing strftime A).init :=
    ⟨fun _ => rfl, fun _ => rfl, fun _ => rfl⟩
  obtain ⟨s₁, h₁, hs₁, hquiet₁, hdata₁, hcout₁, hrequests₁⟩ :=
    reach_setFormatter hinit a lineFormatter hquiet
  obtain ⟨s₂, h₂, hs₂, hquiet₂, hdata₂, hcout₂, hrequests₂⟩ :=
    reach_setFormatter hs₁ b lineFormatter hquiet₁
  have hupdates : ∀ (d : Output) (e : LogEvent), d.formatter = lineFormatter →
      (Request.log .FATAL e).updates strftime d = [.write e.content, .write "\n"] := by
    intro d e hd
    show d.formatter.items.map _ = _
    rw [hd, items_line]
    rfl
  -- both enter their sections
  obtain ⟨s₃, h₃, hs₃, hphase₃, hshared₃, hcout₃, hrequests₃⟩ :=
    reach_begin hs₂ (t := 1) (eventAt 0 "x") hquiet₂.1 (hquiet₂.2.1 1) (hquiet₂.2.2 a) ha
  rw [hupdates _ _ (by simp [hdata₂, hdata₁, hab])] at hshared₃
  obtain ⟨s₄, h₄, hs₄, hphase₄, hshared₄, hcout₄, hrequests₄⟩ :=
    reach_begin hs₃ (t := 2) (a := b) (eventAt 0 "y") hphase₃
      (by simp [hshared₃, hquiet₂.2.1]) (by simp [hshared₃, hquiet₂.2.2, hab.symm]) hb
  rw [hupdates _ _ (by simp [hshared₃, hdata₂])] at hshared₄
  -- they write in turn
  obtain ⟨s₅, h₅, hs₅, hshared₅, hcout₅, -, hrequests₅⟩ :=
    reach_advance hs₄ 1 a (.write "x") [.write "\n"] (by simp [hshared₄, hshared₃, eventAt])
  obtain ⟨s₆, h₆, hs₆, hshared₆, hcout₆, -, hrequests₆⟩ :=
    reach_advance hs₅ 2 b (.write "y") [.write "\n"] (by simp [hshared₅, hshared₄, eventAt])
  obtain ⟨s₇, h₇, hs₇, hshared₇, hcout₇, -, hrequests₇⟩ :=
    reach_advance hs₆ 1 a (.write "\n") [] (by simp [hshared₆, hshared₅])
  obtain ⟨s₈, h₈, hs₈, hshared₈, hcout₈, -, hrequests₈⟩ :=
    reach_advance hs₇ 2 b (.write "\n") [] (by simp [hshared₇, hshared₆])
  obtain ⟨s₉, h₉, hs₉, hshared₉, hcout₉, -, hrequests₉⟩ :=
    reach_leave hs₈ 1 a (by simp [hshared₈, hshared₇])
  obtain ⟨s₁₀, h₁₀, hs₁₀, hshared₁₀, hcout₁₀, -, hrequests₁₀⟩ :=
    reach_leave hs₉ 2 b (by simp [hshared₉, hshared₈])
  refine ⟨s₁₀, h₁₀, hs₁₀, ?_, ?_, ?_⟩
  · intro t
    by_cases ht : t = 1
    · subst ht
      simp [hshared₁₀, hshared₉]
    · by_cases ht' : t = 2
      · subst ht'
        simp [hshared₁₀]
      · simp [hshared₁₀, hshared₉, hshared₈, hshared₇, hshared₆,
          hshared₅, hshared₄, hshared₃, ht, ht', hquiet₂.2.1]
  · have hcout : s₁₀.cout = [(a, "x"), (b, "y"), (a, "\n"), (b, "\n")] := by
      rw [hcout₁₀, hcout₉, hcout₈, hcout₇, hcout₆, hcout₅, hcout₄, hcout₃,
        hcout₂, hcout₁]
      simp [chunk, ha, hb, printing]
    rw [Printing.coutText, hcout]
    rfl
  · have hrequests :
        h₁₀.requests
          = [(1, a, .setFormatter lineFormatter), (1, b, .setFormatter lineFormatter),
        (1, a, .log .FATAL (eventAt 0 "x")), (2, b, .log .FATAL (eventAt 0 "y"))] := by
      rw [hrequests₁₀, hrequests₉, hrequests₈, hrequests₇, hrequests₆,
        hrequests₅, hrequests₄, hrequests₃, hrequests₂, hrequests₁]
      rfl
    rw [hrequests]
    simp [coutLines, ha, hb, hab, LogFormatter.format, items_line, FormatItem.format, eventAt]

end torn

/-- Two lines, one after the other. -/
theorem not_wholeLines : ¬ WholeLines ["x\n", "y\n"] "xy\n\n" := by
  rintro ⟨ls, hperm, htext⟩
  have hmem := List.mem_permutations'.mpr hperm
  have hall : ∀ ls ∈ ["x\n", "y\n"].permutations', "xy\n\n" ≠ String.join ls := by decide
  exact hall ls hmem htext

/-- For every family of appenders: what is to be seen of the standard output, while
    nobody is in a section, is made up of whole lines in every interleaving, if and only
    if at most one of the appenders writes there. -/
theorem cout_lines_iff (strftime : String → UInt64 → String) (A : Appenders) :
    (∀ s h, (watched strftime A).Reachable (s, h) → (∀ t, s.shared.inside t = none) →
      WholeLines (coutLines strftime A A.formatter h.requests) s.coutText) ↔
    ∀ a b, A.isFile a = false → A.isFile b = false → a = b := by
  constructor
  · intro hwhole a b ha hb
    by_contra hab
    obtain ⟨s, h, hs, hout, htext, hlines⟩ := reach_torn strftime ha hb hab
    have hnot := hwhole s h hs hout
    rw [htext, hlines] at hnot
    exact not_wholeLines hnot
  · intro hsingle s h hs hout
    have hcout := coutInv_reachable _ hs
    have hinv := sectionsInv_reachable _ hs
    refine ⟨_, .refl _, ?_⟩
    by_cases hfiles : ∀ a, A.isFile a = true
    · have hnil : s.cout = [] :=
        List.eq_nil_iff_forall_not_mem.mpr fun c hc =>
          nomatch (hfiles c.1).symm.trans (hcout.foreign c hc)
      rw [coutLines_files hfiles, Printing.coutText, hnil]
      rfl
    · obtain ⟨a, ha⟩ := not_forall.mp hfiles
      have ha : A.isFile a = false := by simpa using ha
      have hothers : ∀ b, A.isFile b = false → b = a := fun b hb => hsingle b a hb ha
      have howner : s.shared.owner a = none := by
        rw [Option.eq_none_iff_forall_ne_some]
        intro t howner
        obtain ⟨_, hinside⟩ := (hinv.owned t a).mp howner
        exact nomatch (hout t).symm.trans hinside
      have hall : s.coutOf a = s.coutText := by
        have hfilter : s.cout.filter (fun c => c.1 = a) = s.cout :=
          List.filter_eq_self.mpr fun c hc => by simpa using hothers c.1 (hcout.foreign c hc)
        rw [Printing.coutOf, hfilter, Printing.coutText]
      calc s.coutText
          = (s.shared.data a).stream.content := by rw [hcout.stream a ha, hall]
        _ = (A.textAfter strftime a (h.requestsOf a)).2 := (content_free hinv howner)
        _ = "" ++ String.join (coutLines strftime A A.formatter h.requests) :=
          textAfter_coutLines ha hothers h.requests hcout.requests A.formatter ""
        _ = String.join (coutLines strftime A A.formatter h.requests) := String.empty_append

end Gwn.Log
