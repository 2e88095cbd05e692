import Gwn.Framework.System
import Gwn.Log.Appender

/-! # A file appender on a stream that fails

    Opens, writes and closes of a `std::ofstream` may fail. `FileLogAppender::reopen`
    (gwn/log.cc) closes the stream if it is good, not if it is open, so a stream on
    which a write has failed stays open, and an open stream cannot be opened. The
    appender recovers from failed opens, but not from a failed write (`recovers_iff`,
    `lost_for_good`). -/

namespace Gwn.Log.Faulty

open LTS

/-! ### Streams -/

/-- How a write ends. -/
inductive Outcome where
  | ok
  /-- `failbit`. -/
  | fail
  /-- `badbit`. -/
  | bad
deriving DecidableEq

/-- A `std::ofstream`. -/
structure Ofstream where
  isOpen : Bool
  /-- `failbit`. -/
  failbit : Bool
  /-- `badbit`. -/
  badbit : Bool
deriving DecidableEq

namespace Ofstream

/-- `operator bool`. -/
def ok (st : Ofstream) : Bool :=
  !(st.failbit || st.badbit)

/-- `open(name)`; `can` says whether the file can be opened. It clears the flags. -/
def «open» (st : Ofstream) (can : Bool) : Ofstream :=
  if st.isOpen ∨ can = false then { st with failbit := true }
  else { isOpen := true, failbit := false, badbit := false }

/-- `close()`; the file is closed even if what is left in the buffer cannot be written. -/
def close (st : Ofstream) (flushed : Bool) : Ofstream :=
  if st.isOpen ∧ flushed then { st with isOpen := false }
  else { st with isOpen := false, failbit := true }

/-- `st << item`. -/
def write (st : Ofstream) (outcome : Outcome) : Ofstream :=
  if st.ok = false then { st with failbit := true }
  else if st.isOpen = false then { st with badbit := true }
  else match outcome with
    | .ok => st
    | .fail => { st with failbit := true }
    | .bad => { st with badbit := true }

end Ofstream

/-! ### The appender -/

structure FileLogAppender where
  /-- `m_level`. -/
  level : Level
  /-- `m_filestream`. -/
  filestream : Ofstream
  /-- `m_lastTime`. -/
  lastTime : UInt64

namespace FileLogAppender

/-- `reopen()`, with its result. -/
def reopen (a : FileLogAppender) (flushed can : Bool) : FileLogAppender × Bool :=
  let st := if a.filestream.ok then a.filestream.close flushed else a.filestream
  let st := st.open can
  ({ a with filestream := st }, st.ok)

/-- `FileLogAppender(filename)`, which calls `reopen()`. -/
def new (can : Bool) : FileLogAppender :=
  (reopen { level := .DEBUG, filestream := { isOpen := false, failbit := false, badbit := false }
            lastTime := 0 } true can).1

/-- The first part of `log` for an event that passes the level. -/
def refresh (a : FileLogAppender) (time : UInt64) (flushed can : Bool) : FileLogAppender :=
  if a.lastTime + 3 ≤ time then { (a.reopen flushed can).1 with lastTime := time } else a

/-- `log(logger, level, event)`, with the outcomes of the writes of the items. -/
def log (a : FileLogAppender) (level : Level) (time : UInt64) (flushed can : Bool)
    (outcomes : List Outcome) : FileLogAppender :=
  if a.level.val ≤ level.val then
    let a := a.refresh time flushed can
    { a with filestream := outcomes.foldl Ofstream.write a.filestream }
  else a

end FileLogAppender

/-- One call, and what the file system does with it. -/
inductive Label where
  | log (level : Level) (time : UInt64) (flushed can : Bool) (outcomes : List Outcome)
  | reopen (flushed can : Bool)
  | setLevel (val : Level)

def step (a : FileLogAppender) : Label → Option FileLogAppender
  | .log level time flushed can outcomes => some (a.log level time flushed can outcomes)
  | .reopen flushed can => some (a.reopen flushed can).1
  | .setLevel val => some { a with level := val }

/-- An appender whose file can be opened at first, or cannot. -/
def appender (can : Bool) : System FileLogAppender Label where
  init := .new can
  step := step

/-! ### Recovery -/

/-- `reopen()`, called now and with a file that can be opened, leaves the stream open
    and good and returns true. -/
def Recovers (a : FileLogAppender) : Prop :=
  ∀ flushed, (a.reopen flushed true).2 = true ∧
    (a.reopen flushed true).1.filestream.isOpen = true ∧
    (a.reopen flushed true).1.filestream.ok = true

/-- No write fails on an open stream. -/
def Written (a : FileLogAppender) : Label → Prop
  | .log level time flushed can outcomes =>
    a.level.val ≤ level.val → (a.refresh time flushed can).filestream.isOpen = true →
      ∀ outcome ∈ outcomes, outcome = .ok
  | _ => True

/-- The stream is good or it is not open. -/
def Ofstream.Usable (st : Ofstream) : Prop :=
  st.isOpen = true → st.ok = true

theorem open_usable (st : Ofstream) (can : Bool) (h : st.isOpen = false) :
    (st.open can).Usable := by
  intro hopen
  unfold Ofstream.open at hopen ⊢
  split
  · next hfails =>
    rw [if_pos hfails] at hopen
    rw [show st.isOpen = true from hopen] at h
    cases h
  · rfl

/-- A good stream is closed before it is opened, and one that is not good is not open. -/
theorem closed_of_usable {st : Ofstream} (h : st.Usable) (flushed : Bool) :
    (if st.ok then st.close flushed else st).isOpen = false := by
  split
  · unfold Ofstream.close
    split <;> rfl
  · next hbad =>
    by_contra hopen
    exact hbad (h (by simpa using hopen))

theorem reopen_usable {a : FileLogAppender} (h : a.filestream.Usable) (flushed can : Bool) :
    (a.reopen flushed can).1.filestream.Usable :=
  open_usable _ can (closed_of_usable h flushed)

theorem recovers_of_usable {a : FileLogAppender} (h : a.filestream.Usable) : Recovers a := by
  intro flushed
  have hopened : (a.reopen flushed true).1.filestream
      = { isOpen := true, failbit := false, badbit := false } := by
    show Ofstream.open _ true = _
    unfold Ofstream.open
    rw [if_neg (by simp [closed_of_usable h flushed])]
  have hresult : (a.reopen flushed true).2 = (a.reopen flushed true).1.filestream.ok := rfl
  rw [hresult, hopened]
  exact ⟨rfl, rfl, rfl⟩

/-- A stream that is open and not good stays so. -/
theorem reopen_stuck {a : FileLogAppender} (h : ¬ a.filestream.Usable) (flushed can : Bool) :
    ¬ (a.reopen flushed can).1.filestream.Usable ∧ (a.reopen flushed can).2 = false := by
  obtain ⟨hopen, hbad⟩ := Classical.not_imp.mp h
  have hreopen : (a.reopen flushed can).1.filestream = { a.filestream with failbit := true } := by
    show Ofstream.open _ can = _
    rw [if_neg hbad]
    unfold Ofstream.open
    rw [if_pos (.inl hopen)]
  have hresult : (a.reopen flushed can).2 = (a.reopen flushed can).1.filestream.ok := rfl
  rw [hresult, hreopen]
  refine ⟨fun husable => ?_, rfl⟩
  have hok := husable hopen
  cases hok

theorem reopen_usable_iff {a : FileLogAppender} {flushed can : Bool} :
    (a.reopen flushed can).1.filestream.Usable ↔ a.filestream.Usable := by
  constructor
  · intro h
    by_contra hstuck
    exact (reopen_stuck hstuck flushed can).1 h
  · intro h
    exact reopen_usable h flushed can

theorem recovers_iff_usable {a : FileLogAppender} : Recovers a ↔ a.filestream.Usable := by
  constructor
  · intro h
    by_contra hstuck
    -- it would return false
    have hfalse := (reopen_stuck hstuck true true).2
    rw [(h true).1] at hfalse
    cases hfalse
  · exact recovers_of_usable

/-! ### Writes -/

@[simp] theorem write_isOpen (st : Ofstream) (outcome : Outcome) :
    (st.write outcome).isOpen = st.isOpen := by
  unfold Ofstream.write
  split
  · rfl
  · split
    · rfl
    · cases outcome <;> rfl

/-- A write that succeeds leaves an open stream as it is, and one that fails does not. -/
theorem write_open {st : Ofstream} (hopen : st.isOpen = true) (hok : st.ok = true)
    (outcome : Outcome) :
    (outcome = .ok → st.write outcome = st) ∧
      (outcome ≠ .ok → (st.write outcome).ok = false) := by
  unfold Ofstream.write
  rw [if_neg (by simp [hok]), if_neg (by simp [hopen])]
  cases outcome with
  | ok => exact ⟨fun _ => rfl, fun h => absurd rfl h⟩
  | fail => simp [Ofstream.ok]
  | bad => simp [Ofstream.ok]

/-- No write makes a stream good again. -/
theorem write_bad {st : Ofstream} (h : st.ok = false) (outcome : Outcome) :
    (st.write outcome).ok = false := by
  unfold Ofstream.write
  rw [if_pos h]
  rfl

theorem foldl_write_isOpen (st : Ofstream) (outcomes : List Outcome) :
    (outcomes.foldl Ofstream.write st).isOpen = st.isOpen := by
  induction outcomes generalizing st with
  | nil => rfl
  | cons outcome outcomes ih => rw [List.foldl_cons, ih, write_isOpen]

theorem foldl_write_bad {st : Ofstream} (h : st.ok = false) (outcomes : List Outcome) :
    (outcomes.foldl Ofstream.write st).ok = false := by
  induction outcomes generalizing st with
  | nil => exact h
  | cons outcome outcomes ih => exact ih (write_bad h outcome)

/-- A stream is usable after a sequence of writes if it was so before, and no write has
    failed on it while it was open. -/
theorem foldl_write_usable {st : Ofstream} {outcomes : List Outcome} :
    (outcomes.foldl Ofstream.write st).Usable ↔
      st.Usable ∧ (st.isOpen = true → ∀ outcome ∈ outcomes, outcome = .ok) := by
  unfold Ofstream.Usable
  rw [foldl_write_isOpen]
  by_cases hopen : st.isOpen = true
  · simp only [hopen, true_implies]
    by_cases hok : st.ok = true
    · simp only [hok, true_and]
      -- the stream stays the same up to the first write that fails
      induction outcomes with
      | nil => simpa using hok
      | cons outcome outcomes ih =>
        obtain ⟨hsame, hbad⟩ := write_open hopen hok outcome
        rw [List.foldl_cons, List.forall_mem_cons]
        by_cases houtcome : outcome = .ok
        · rw [hsame houtcome, ih]
          simp [houtcome]
        · rw [foldl_write_bad (hbad houtcome)]
          simp [houtcome]
    · rw [foldl_write_bad (by simpa using hok)]
      simp [hok]
  · simp [hopen]

/-! ### Runs -/

theorem refresh_usable {a : FileLogAppender} {time : UInt64} {flushed can : Bool} :
    (a.refresh time flushed can).filestream.Usable ↔ a.filestream.Usable := by
  unfold FileLogAppender.refresh
  split
  · exact reopen_usable_iff
  · exact Iff.rfl

/-- What one call makes of the stream. -/
theorem step_usable {a a' : FileLogAppender} {lab : Label} (hstep : step a lab = some a') :
    a'.filestream.Usable ↔ a.filestream.Usable ∧ Written a lab := by
  cases lab with
  | log level time flushed can outcomes =>
    cases hstep
    unfold FileLogAppender.log Written
    by_cases hlevel : a.level.val ≤ level.val
    · rw [if_pos hlevel]
      simp only [hlevel, true_implies]
      rw [foldl_write_usable, refresh_usable]
    · simp [hlevel]
  | reopen flushed can =>
    cases hstep
    simp only [Written, and_true]
    exact reopen_usable_iff
  | setLevel val =>
    cases hstep
    simp [Written]

/-- In every state of a run a reopen would recover, if and only if no write fails on an
    open stream. -/
theorem recovers_iff (can : Bool) (ls : List Label) :
    (appender can).Visits ls Recovers ↔ (appender can).Steps ls Written := by
  refine @System.visits_iff_steps _ _ _ (fun a => a.filestream.Usable) _ _ ?_
    (fun a h => recovers_of_usable h) ?_ ?_ ls
  · refine reopen_usable ?_ true can
    intro hopen
    cases hopen
  · intro a lab a' h hwritten hstep
    exact (step_usable hstep).mpr ⟨h, hwritten⟩
  · intro a lab _ hwritten
    have hstep : ∃ a', step a lab = some a' := by cases lab <;> exact ⟨_, rfl⟩
    obtain ⟨a', ha'⟩ := hstep
    refine ⟨a', ha', fun h => hwritten ?_⟩
    exact ((step_usable ha').mp (recovers_iff_usable.mp h)).2

/-- Once it does not recover it never will. -/
theorem lost_for_good {can : Bool} {a a' : FileLogAppender} {ls : List Label} (h : ¬ Recovers a)
    (hrun : (appender can).exec a ls = some a') : ¬ Recovers a' := by
  induction ls generalizing a with
  | nil =>
    cases hrun
    exact h
  | cons lab ls ih =>
    obtain ⟨b, hb, hrun⟩ := Option.bind_eq_some_iff.mp hrun
    refine ih ?_ hrun
    rw [recovers_iff_usable] at h ⊢
    exact fun husable => h ((step_usable hb).mp husable).1

/-- The disk is full for one write. -/
theorem not_recovers_write :
    ¬ ∀ (can : Bool) (ls : List Label), (appender can).Visits ls Recovers := by
  intro h
  have hlast := h true [.log .INFO 1 true true [.bad]] _ _ List.prefix_rfl rfl
  exact absurd (hlast true).1 (by decide)

/-! ### Streams that do not fail -/

/-- The same stream, with one flag for both. -/
structure Agrees (st : Ofstream) (st' : Log.Ofstream) : Prop where
  isOpen : st.isOpen = st'.isOpen
  ok : st.ok = !st'.fail

theorem Agrees.open {st : Ofstream} {st' : Log.Ofstream} (h : Agrees st st') :
    Agrees (st.open true) st'.open := by
  unfold Ofstream.open Log.Ofstream.open
  rw [h.isOpen]
  by_cases hopen : st'.isOpen = true
  · rw [if_pos (.inl hopen), if_pos hopen]
    exact ⟨rfl, rfl⟩
  · rw [if_neg (by simp [hopen]), if_neg hopen]
    exact ⟨rfl, rfl⟩

theorem Agrees.close {st : Ofstream} {st' : Log.Ofstream} (h : Agrees st st') :
    Agrees (st.close true) st'.close := by
  unfold Ofstream.close Log.Ofstream.close
  rw [h.isOpen]
  by_cases hopen : st'.isOpen = true
  · rw [if_pos ⟨hopen, rfl⟩, if_pos hopen]
    exact ⟨rfl, h.ok⟩
  · rw [if_neg (by simp [hopen]), if_neg hopen]
    exact ⟨by simpa using hopen, rfl⟩

theorem Agrees.write {st : Ofstream} {st' : Log.Ofstream} (h : Agrees st st') (item : String) :
    Agrees (st.write .ok) (st'.write item) := by
  have hisOpen := h.isOpen
  have hok := h.ok
  unfold Ofstream.write Log.Ofstream.write
  by_cases hbad : st'.fail = true
  · rw [if_pos (by simp [hok, hbad]), if_neg (by simp [hbad])]
    exact ⟨hisOpen, rfl⟩
  · rw [if_neg (by simp [hok, hbad])]
    by_cases hopen : st'.isOpen = true
    · rw [if_neg (by simp [hisOpen, hopen]), if_pos ⟨hopen, by simpa using hbad⟩]
      exact ⟨hisOpen, hok⟩
    · rw [if_pos (by simpa [hisOpen] using hopen), if_neg (by simp [hopen])]
      exact ⟨hisOpen, by simp [Ofstream.ok]⟩

theorem agrees_formatTo {strftime : String → UInt64 → String} {st : Ofstream}
    {st' : Log.Ofstream} (h : Agrees st st') (f : LogFormatter) (level : Level) (event : LogEvent) :
    Agrees ((f.items.map fun _ => .ok).foldl Ofstream.write st)
      (f.formatTo strftime st' level event) := by
  unfold LogFormatter.formatTo
  generalize f.items = items
  induction items generalizing st st' with
  | nil => exact h
  | cons item items ih => exact ih (h.write _)

theorem Agrees.reopen {a : FileLogAppender} {a' : Log.FileLogAppender}
    (h : Agrees a.filestream a'.filestream) :
    Agrees (a.reopen true true).1.filestream a'.reopen.filestream := by
  unfold FileLogAppender.reopen Log.FileLogAppender.reopen
  cases hfail : a'.filestream.fail with
  | false =>
    simp only [h.ok, hfail, Bool.not_false, if_true]
    exact h.close.open
  | true =>
    simp only [h.ok, hfail, Bool.not_true]
    exact h.open

/-- With calls that succeed this is the appender on a stream that does not fail. -/
theorem log_agrees {strftime : String → UInt64 → String} {a : FileLogAppender}
    {a' : Log.FileLogAppender}
    {f : LogFormatter} (hlevel : a.level = a'.level) (htime : a.lastTime = a'.lastTime)
    (h : Agrees a.filestream a'.filestream) (hf : a'.formatter = some f) (level : Level)
    (event : LogEvent) : ∃ b, a'.log strftime level event = some b ∧
      Agrees (a.log level event.time true true (f.items.map fun _ => .ok)).filestream
        b.filestream := by
  unfold FileLogAppender.log Log.FileLogAppender.log FileLogAppender.refresh
  rw [hlevel, htime]
  by_cases hpasses : a'.level.val ≤ level.val
  · simp only [if_pos hpasses]
    by_cases hlater : a'.lastTime + 3 ≤ event.time
    · simp only [if_pos hlater]
      exact ⟨_, congrArg (Option.map _) hf, agrees_formatTo h.reopen f level event⟩
    · simp only [if_neg hlater]
      exact ⟨_, congrArg (Option.map _) hf, agrees_formatTo h f level event⟩
  · simp only [if_neg hpasses]
    exact ⟨a', rfl, h⟩

end Gwn.Log.Faulty
