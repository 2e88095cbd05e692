import Gwn.Framework.System
import Mathlib.Tactic.MkIffOfInductiveProp

/-! # The start of a thread

    The constructor of `Thread` waits for a semaphore that `Thread::run` posts when it
    has taken from the object all that it needs (gwn/thread.cc). What keeps the object
    alive until then is this wait alone, and `sem_wait` may fail. One system of the two
    threads, statement by statement, and of the owner of the object afterwards:

    - `Kept`: what the constructor promises, and that `run` stays off an object that is gone
    - `not_kept`: a signal interrupts the wait before the post
    - `kept_iff`: in every run it holds throughout if and only if no wait fails before the post -/

namespace Gwn.Thread

open LTS

variable {Cb : Type}

/-! ### The object and the two threads -/

/-- The members of a `Thread`. -/
structure Object (Cb : Type) where
  /-- `m_id`. -/
  id : Int
  /-- `m_thread` is not 0. -/
  thread : Bool
  /-- `m_cb`; `none` is an empty function. -/
  cb : Option Cb
  /-- `m_name`. -/
  name : String
  /-- The count of `m_semaphore`. -/
  semaphore : Nat
deriving DecidableEq

/-- Where the constructing thread is. -/
inductive CtorPC where
  | enter
  /-- In `m_semaphore.wait()`. -/
  | wait
  | returned
  | threw
deriving DecidableEq, Repr

/-- Where the new thread is in `Thread::run`. -/
inductive RunPC where
  /-- There is no thread yet. -/
  | none
  | setThis
  | setThreadName
  | setId
  | setTitle
  | swapCb
  | notify
  | call
  | ended
deriving DecidableEq, Repr

structure State (Cb : Type) where
  /-- `none`: not there yet, or destroyed. -/
  object : Option (Object Cb)
  ctor : CtorPC
  run : RunPC
  /-- `t_thread` of the new thread points to the object. -/
  this : Bool
  /-- `t_thread_name` of the new thread. -/
  threadName : String
  /-- The local `cb` of `run`. -/
  cb : Option Cb
  /-- The calls of callbacks by the new thread. -/
  ran : List Cb
  /-- The destructor has detached the thread. -/
  detached : Bool
  /-- The new thread has used the object when it was gone. -/
  faulted : Bool
deriving DecidableEq

inductive Label where
  /-- The constructor, up to and including `pthread_create`, which may fail. -/
  | construct (created : Bool)
  /-- `sem_wait` returns 0. -/
  | wait
  /-- `sem_wait` fails. -/
  | waitFails
  /-- The owner calls `join`. -/
  | join
  /-- The owner destroys the object. -/
  | destroy
  /-- The new thread takes its next step. -/
  | run
deriving DecidableEq, Repr

/-- The new thread uses the object. -/
def State.access (s : State Cb) (f : Object Cb → State Cb) : State Cb :=
  match s.object with
  | some o => f o
  | none => { s with faulted := true }

/-- The name that the object is given. -/
def fullName (name : String) : String :=
  if name = "" then "UNKNOW" else name

section step
variable (cb : Cb) (name : String) (tid : Int)

/-- `Thread::run`; `tid` is what `GetThreadId` returns. -/
def runStep (s : State Cb) : Option (State Cb) :=
  match s.run with
  | .none | .ended => none
  | .setThis => some { s with this := true, run := .setThreadName }
  | .setThreadName => some (s.access fun o => { s with threadName := o.name, run := .setId })
  | .setId =>
    some (s.access fun o => { s with object := some { o with id := tid }, run := .setTitle })
  -- `pthread_setname_np` reads the name
  | .setTitle => some (s.access fun _ => { s with run := .swapCb })
  | .swapCb =>
    some (s.access fun o =>
      { s with cb := o.cb, object := some { o with cb := none }, run := .notify })
  | .notify =>
    some (s.access fun o =>
      { s with object := some { o with semaphore := o.semaphore + 1 }, run := .call })
  | .call => s.cb.map fun cb => { s with ran := s.ran ++ [cb], run := .ended }

def step (s : State Cb) : Label → Option (State Cb)
  | .construct created =>
    if s.ctor = .enter then
      if created then
        some { s with
          object := some ⟨-1, true, some cb, fullName name, 0⟩
          ctor := .wait
          run := .setThis }
      -- the exception destroys the members
      else some { s with ctor := .threw }
    else none
  | .wait =>
    match s.ctor, s.object with
    | .wait, some o =>
      if 0 < o.semaphore then
        some { s with object := some { o with semaphore := o.semaphore - 1 }, ctor := .returned }
      else none
    | _, _ => none
  | .waitFails =>
    -- so does this one
    if s.ctor = .wait then some { s with object := none, ctor := .threw } else none
  | .join =>
    match s.ctor, s.object with
    | .returned, some o =>
      if o.thread ∧ s.run = .ended then
        some { s with object := some { o with thread := false } }
      else none
    | _, _ => none
  | .destroy =>
    match s.ctor, s.object with
    | .returned, some o => some { s with object := none, detached := o.thread }
    | _, _ => none
  | .run => runStep tid s

def State.initial : State Cb :=
  { object := none, ctor := .enter, run := .none, this := false, threadName := "UNKNOW", cb := none
    ran := [], detached := false, faulted := false }

/-- The construction of one `Thread`. -/
def handshake : System (State Cb) Label where
  init := .initial
  step := step cb name tid

/-- The new thread goes on from here by itself. -/
def alone (n : Nat) (s : State Cb) : Option (State Cb) :=
  (handshake cb name tid).exec s (List.replicate n .run)

/-- What the constructor promises, and what `run` does. -/
structure Kept (s : State Cb) : Prop where
  /-- The constructor returns behind the statements of `run` that set these. -/
  set : s.ctor = .returned → s.this = true ∧ s.threadName = fullName name ∧
    ∀ o, s.object = some o → o.id = tid ∧ o.cb = none
  once : s.ran = [] ∨ s.ran = [cb]
  /-- The new thread, if there is one, goes on to run the callback once. -/
  runs : s.run ≠ .none → ∃ n s', alone cb name tid n s = some s' ∧
    s'.run = .ended ∧ s'.ran = [cb]
  /-- It has not used an object that was gone, and is not going to. -/
  clean : ∀ n s', alone cb name tid n s = some s' → s'.faulted = false

end step

/-- `run` has posted the semaphore. -/
def RunPC.posted : RunPC → Bool
  | .call | .ended => true
  | _ => false

/-- The wait does not fail before the post. -/
def InTime (s : State Cb) (l : Label) : Prop :=
  l = .waitFails → s.ctor = .wait → s.run.posted = true

instance (s : State Cb) (l : Label) : Decidable (InTime s l) :=
  inferInstanceAs (Decidable (l = .waitFails → s.ctor = .wait → s.run.posted = true))

/-! ### The invariant -/

/-- How many statements are behind the new thread, counted from its creation. -/
def RunPC.rank : RunPC → Nat
  | .none => 0
  | .setThis => 1
  | .setThreadName => 2
  | .setId => 3
  | .setTitle => 4
  | .swapCb => 5
  | .notify => 6
  | .call => 7
  | .ended => 8

section invariant
variable {cb : Cb} {name : String} {tid : Int} {s s' : State Cb}

theorem RunPC.posted_iff {pc : RunPC} : pc.posted = true ↔ 7 ≤ pc.rank := by
  cases pc <;> simp [posted, rank]

variable (cb name tid) in
/-- The object, wherever the new thread is. -/
@[mk_iff] structure ObjectOk (pc : RunPC) (o : Object Cb) : Prop where
  named : o.name = fullName name
  id : 4 ≤ pc.rank → o.id = tid
  full : pc.rank ≤ 5 → o.cb = some cb
  moved : 6 ≤ pc.rank → o.cb = none
  count : pc.rank ≤ 6 → o.semaphore = 0

variable (cb name) in
/-- The locals of the new thread, and what it has run. -/
@[mk_iff] structure LocalsOk (s : State Cb) : Prop where
  this : 2 ≤ s.run.rank → s.this = true
  threadName : 3 ≤ s.run.rank → s.threadName = fullName name
  taken : 6 ≤ s.run.rank → s.cb = some cb
  ran : s.ran = if s.run = .ended then [cb] else []

variable (cb name tid) in
structure Inv (s : State Cb) : Prop where
  enter : s.ctor = .enter → s.run = .none
  created : s.ctor = .wait ∨ s.ctor = .returned → 1 ≤ s.run.rank
  /-- The constructor waits until the post. -/
  waits : 1 ≤ s.run.rank → s.run.rank ≤ 6 → s.ctor = .wait
  alive : s.ctor = .wait → s.object.isSome
  object : ∀ o, s.object = some o → ObjectOk cb name tid s.run o
  locals : LocalsOk cb name s
  clean : s.faulted = false

theorem inv_initial : Inv cb name tid (State.initial : State Cb) := by
  constructor <;> simp [State.initial, RunPC.rank, localsOk_iff]

/-- As long as the constructor waits the new thread finds the object, and goes on. -/
theorem inv_run (hs : Inv cb name tid s) (hrank : 1 ≤ s.run.rank) (hrank' : s.run.rank ≤ 7) :
    ∃ s', runStep tid s = some s' ∧ Inv cb name tid s' ∧ s'.run.rank = s.run.rank + 1 := by
  obtain ⟨henter, hcreated, hwaits, halive, hobject, hlocals, hclean⟩ := hs
  cases hpc : s.run with
  | none =>
    rw [hpc] at hrank
    exact absurd hrank (by decide)
  | ended =>
    rw [hpc] at hrank'
    exact absurd hrank' (by decide)
  | call =>
    -- nothing of the object is used here
    refine ⟨{ s with ran := s.ran ++ [cb], run := .ended }, ?_, ?_, rfl⟩
    · rw [localsOk_iff, hpc] at hlocals
      have hcb : s.cb = some cb := hlocals.2.2.1 (by decide)
      simp [runStep, hpc, hcb]
    · constructor <;> simp_all [RunPC.rank, objectOk_iff, localsOk_iff]
  | _ =>
    have hwait : s.ctor = .wait := hwaits (by rw [hpc]; decide) (by rw [hpc]; decide)
    obtain ⟨o, ho⟩ := Option.isSome_iff_exists.mp (halive hwait)
    refine ⟨_, by simp only [runStep, State.access, hpc, ho]; rfl, ?_, rfl⟩
    constructor <;> simp_all [RunPC.rank, objectOk_iff, localsOk_iff]

/-- A step of `run` is one between its creation and its end. -/
theorem rank_of_run (h : runStep tid s = some s') : 1 ≤ s.run.rank ∧ s.run.rank ≤ 7 := by
  cases hpc : s.run with
  | none => simp [runStep, hpc] at h
  | ended => simp [runStep, hpc] at h
  | _ => decide

theorem inv_step {l : Label} (hs : Inv cb name tid s) (h : step cb name tid s l = some s')
    (hguard : InTime s l) : Inv cb name tid s' := by
  cases l with
  | construct created =>
    simp only [step, Option.ite_none_right_eq_some] at h
    obtain ⟨hctor, h⟩ := h
    have hrun := hs.enter hctor
    have hobject := hs.object
    have hlocals := hs.locals
    cases created with
    | true =>
      obtain rfl := Option.some.inj h
      constructor <;> simp_all [RunPC.rank, objectOk_iff, localsOk_iff, hs.clean]
    | false =>
      obtain rfl := Option.some.inj h
      constructor <;> simp_all [RunPC.rank, localsOk_iff, hs.clean]
  | wait =>
    simp only [step] at h
    split at h
    · next o hctor ho =>
      simp only [Option.ite_none_right_eq_some] at h
      obtain ⟨hcount, h⟩ := h
      obtain rfl := Option.some.inj h
      have hobject := hs.object o ho
      -- the count is positive, so the post is behind the new thread
      have hposted : 7 ≤ s.run.rank := by
        by_contra hlt
        have hzero := hobject.count (by omega)
        omega
      exact {
        enter := fun h => by cases h
        created := fun _ => by show 1 ≤ s.run.rank; omega
        waits := fun _ h => absurd (show s.run.rank ≤ 6 from h) (by omega)
        alive := fun h => by cases h
        object := by
          intro o' ho'
          obtain rfl := Option.some.inj ho'
          exact ⟨hobject.named, hobject.id, hobject.full, hobject.moved,
            fun h => absurd (show s.run.rank ≤ 6 from h) (by omega)⟩
        locals := ⟨hs.locals.this, hs.locals.threadName, hs.locals.taken, hs.locals.ran⟩
        clean := hs.clean }
    · cases h
  | waitFails =>
    simp only [step, Option.ite_none_right_eq_some] at h
    obtain ⟨hctor, h⟩ := h
    obtain rfl := Option.some.inj h
    have hposted := RunPC.posted_iff.mp (hguard rfl hctor)
    exact {
      enter := fun h => by cases h
      created := fun h => by cases h with | inl h => cases h | inr h => cases h
      waits := fun _ h => absurd (show s.run.rank ≤ 6 from h) (by omega)
      alive := fun h => by cases h
      object := fun o h => by cases h
      locals := ⟨hs.locals.this, hs.locals.threadName, hs.locals.taken, hs.locals.ran⟩
      clean := hs.clean }
  | join =>
    simp only [step] at h
    split at h
    · next o hctor ho =>
      simp only [Option.ite_none_right_eq_some] at h
      obtain ⟨_, h⟩ := h
      obtain rfl := Option.some.inj h
      have hobject := hs.object o ho
      exact {
        enter := hs.enter
        created := hs.created
        waits := hs.waits
        alive := fun _ => rfl
        object := by
          intro o' ho'
          obtain rfl := Option.some.inj ho'
          exact ⟨hobject.named, hobject.id, hobject.full, hobject.moved, hobject.count⟩
        locals := ⟨hs.locals.this, hs.locals.threadName, hs.locals.taken, hs.locals.ran⟩
        clean := hs.clean }
    · cases h
  | destroy =>
    simp only [step] at h
    split at h
    · next o hctor ho =>
      obtain rfl := Option.some.inj h
      exact {
        enter := hs.enter
        created := hs.created
        waits := hs.waits
        alive := fun h => by
          rw [show s.ctor = .wait from h] at hctor
          cases hctor
        object := fun o h => by cases h
        locals := ⟨hs.locals.this, hs.locals.threadName, hs.locals.taken, hs.locals.ran⟩
        clean := hs.clean }
    · cases h
  | run =>
    obtain ⟨hrank, hrank'⟩ := rank_of_run h
    obtain ⟨t, ht, hinv, _⟩ := inv_run hs hrank hrank'
    rw [show step cb name tid s .run = runStep tid s from rfl, ht] at h
    exact Option.some.inj h ▸ hinv

/-! ### How the new thread goes on -/

theorem alone_succ (n : Nat) :
    alone cb name tid (n + 1) s = (runStep tid s).bind (alone cb name tid n) := rfl

/-- It runs the callback and ends. -/
theorem Inv.runs (hs : Inv cb name tid s) (hrank : 1 ≤ s.run.rank) :
    ∃ n s', alone cb name tid n s = some s' ∧ s'.run = .ended ∧ s'.ran = [cb] := by
  -- induction on the statements that are left
  obtain ⟨k, hk⟩ : ∃ k, s.run.rank + k = 8 := by
    have hle : s.run.rank ≤ 8 := by cases s.run <;> decide
    exact ⟨8 - s.run.rank, by omega⟩
  induction k generalizing s with
  | zero =>
    have hended : s.run = .ended := by
      cases hpc : s.run with
      | ended => rfl
      | _ =>
        rw [hpc] at hk
        exact absurd hk (by decide)
    have hran := hs.locals.ran
    rw [if_pos hended] at hran
    exact ⟨0, s, rfl, hended, hran⟩
  | succ k ih =>
    obtain ⟨t, ht, hinv, hnext⟩ := inv_run hs hrank (by omega)
    obtain ⟨n, s', hs', hend⟩ := ih hinv (by omega) (by omega)
    exact ⟨n + 1, s', by rw [alone_succ, ht]; exact hs', hend⟩

theorem Inv.alone {n : Nat} (hs : Inv cb name tid s) (h : alone cb name tid n s = some s') :
    Inv cb name tid s' := by
  induction n generalizing s with
  | zero =>
    obtain rfl := Option.some.inj h
    exact hs
  | succ n ih =>
    rw [alone_succ, Option.bind_eq_some_iff] at h
    obtain ⟨t, ht, h⟩ := h
    have hstep : step cb name tid s .run = some t := ht
    exact ih (inv_step hs hstep (fun hl => by cases hl)) h

theorem Inv.kept (hs : Inv cb name tid s) : Kept cb name tid s where
  set hctor := by
    have hrank : 7 ≤ s.run.rank := by
      by_contra hlt
      have hwait := hs.waits (hs.created (.inr hctor)) (by omega)
      rw [hctor] at hwait
      cases hwait
    refine ⟨hs.locals.this (by omega), hs.locals.threadName (by omega), fun o ho => ?_⟩
    exact ⟨(hs.object o ho).id (by omega), (hs.object o ho).moved (by omega)⟩
  once := by
    have hran := hs.locals.ran
    split at hran
    · exact .inr hran
    · exact .inl hran
  runs hrun := by
    apply hs.runs
    cases hpc : s.run with
    | none => exact absurd hpc hrun
    | _ => decide
  clean n s' h := (hs.alone h).clean

/-- If the wait fails before the post, the new thread comes to use what is gone. -/
theorem step_breaks {l : Label} (hs : Inv cb name tid s) (hguard : ¬ InTime s l) :
    ∃ s', step cb name tid s l = some s' ∧ ¬ Kept cb name tid s' := by
  simp only [InTime, Classical.not_imp] at hguard
  obtain ⟨rfl, hctor, hearly⟩ := hguard
  refine ⟨{ s with object := none, ctor := .threw }, by simp [step, hctor], fun hkept => ?_⟩
  have hrank := hs.created (.inl hctor)
  cases hpc : s.run with
  | none =>
    rw [hpc] at hrank
    exact absurd hrank (by decide)
  | call => exact hearly (by rw [hpc]; rfl)
  | ended => exact hearly (by rw [hpc]; rfl)
  | setThis =>
    -- the first statement only takes the pointer
    have hfault := hkept.clean 2 _ (by
      simp only [alone_succ, runStep, hpc, Option.bind_some, State.access]
      rfl)
    cases hfault
  | _ =>
    have hfault := hkept.clean 1 _ (by
      simp only [alone_succ, runStep, hpc, Option.bind_some, State.access]
      rfl)
    cases hfault

end invariant

/-! ### Every run -/

/-- For every construction, and every run of the two threads and the owner: the
    constructor keeps what it promises and `run` stays off an object that is gone, if and
    only if no wait fails before the post. -/
theorem kept_iff (cb : Cb) (name : String) (tid : Int) (ls : List Label) :
    (handshake cb name tid).Visits ls (Kept cb name tid) ↔
      (handshake cb name tid).Steps ls InTime :=
  System.visits_iff_steps inv_initial (fun _ hs => hs.kept)
    (fun _ _ _ hs hguard h => inv_step hs h hguard)
    (fun _ _ hs hguard => step_breaks hs hguard) ls

/-- A signal interrupts the wait right after `pthread_create`. -/
theorem not_kept : ¬ ∀ (cb : Unit) (name : String) (tid : Int) (ls : List Label),
    (handshake cb name tid).Visits ls (Kept cb name tid) := by
  intro h
  have hkept := h () "worker" 7 [.construct true, .waitFails] _ _ List.prefix_rfl rfl
  have hfault := hkept.clean 2 _ rfl
  exact absurd hfault (by decide)

end Gwn.Thread
